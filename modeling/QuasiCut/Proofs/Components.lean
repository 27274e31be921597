import Mathlib

/-! Connected components of a graph whose nodes are the numbers below a size. They are found by merging
parts edge by edge. A list of the components is determined by the graph up to its order, and so it is
determined when it is sorted by smallest node. -/

namespace QuasiCut.Components

variable {edges more : List (Nat × Nat)} {nodes : List Nat} {size a b c : Nat}
  {parts others : List (Finset Nat)}

def Linked (edges : List (Nat × Nat)) : Nat → Nat → Prop :=
  Relation.EqvGen fun a b => (a, b) ∈ edges

def chain (nodes : List Nat) : List (Nat × Nat) := nodes.zip nodes.tail

def touches (nodes : List Nat) (part : Finset Nat) : Bool := nodes.any fun node => node ∈ part

def unite (parts : List (Finset Nat)) : Finset Nat := parts.foldr (· ∪ ·) ∅

/-- Makes one part of all that hold one of the nodes. -/
def merge (nodes : List Nat) (parts : List (Finset Nat)) : List (Finset Nat) :=
  unite (parts.filter (touches nodes)) :: parts.filter (!touches nodes ·)

def components (size : Nat) (edges : List (Nat × Nat)) : List (Finset Nat) :=
  edges.foldl (fun parts edge => merge [edge.1, edge.2] parts) ((List.range size).map ({·}))

def bySmallest (part other : Finset Nat) : Bool := decide (part.min ≤ other.min)

section Links

theorem Linked.refl (edges : List (Nat × Nat)) (a : Nat) : Linked edges a a :=
  Relation.EqvGen.refl a

theorem Linked.symm (linked : Linked edges a b) : Linked edges b a :=
  Relation.EqvGen.symm a b linked

theorem Linked.trans (first : Linked edges a b) (second : Linked edges b c) : Linked edges a c :=
  Relation.EqvGen.trans a b c first second

theorem Linked.mono (linked : Linked edges a b) (kept : edges ⊆ more) : Linked more a b :=
  Relation.EqvGen.mono (fun _ _ edge => kept edge) a b linked

theorem Linked.inside (bounded : ∀ edge ∈ edges, edge.1 < size ∧ edge.2 < size)
    (linked : Linked edges a b) : a = b ∨ a < size ∧ b < size := by
  induction linked with
  | rel a b edge => exact Or.inr (bounded (a, b) edge)
  | refl a => exact Or.inl rfl
  | symm a b _ ih => exact ih.imp Eq.symm And.symm
  | trans a b c _ _ first second =>
      cases first with
      | inl same => exact same ▸ second
      | inr below =>
          cases second with
          | inl same => exact Or.inr (same ▸ below)
          | inr onward => exact Or.inr ⟨below.1, onward.2⟩

theorem mem_of_chain (edge : (a, b) ∈ chain nodes) : a ∈ nodes ∧ b ∈ nodes := by
  have ends := List.of_mem_zip edge
  exact ⟨ends.1, List.mem_of_mem_tail ends.2⟩

theorem linked_chain (first : Nat) (rest : List Nat) (member : a ∈ first :: rest) :
    Linked (chain (first :: rest)) first a := by
  induction rest generalizing first with
  | nil =>
      rw [List.mem_singleton.mp member]
      exact Linked.refl _ first
  | cons second rest ih =>
      have step : Linked (chain (first :: second :: rest)) first second :=
        Relation.EqvGen.rel first second List.mem_cons_self
      cases List.mem_cons.mp member with
      | inl same =>
          rw [same]
          exact Linked.refl _ first
      | inr later => exact step.trans ((ih second later).mono (List.subset_cons_self _ _))

/-- A chain links what is linked to its nodes, and nothing else. -/
theorem linked_append_chain :
    Linked (edges ++ chain nodes) a b ↔
      Linked edges a b ∨
        (∃ node ∈ nodes, Linked edges a node) ∧ ∃ node ∈ nodes, Linked edges b node := by
  constructor
  · intro linked
    induction linked with
    | rel a b edge =>
        cases List.mem_append.mp edge with
        | inl old => exact Or.inl (Relation.EqvGen.rel a b old)
        | inr new =>
            have ends := mem_of_chain new
            exact Or.inr ⟨⟨a, ends.1, Linked.refl _ a⟩, b, ends.2, Linked.refl _ b⟩
    | refl a => exact Or.inl (Linked.refl _ a)
    | symm a b _ ih => exact ih.imp Linked.symm And.symm
    | trans a b c _ _ first second =>
        cases first with
        | inl direct =>
            cases second with
            | inl onward => exact Or.inl (direct.trans onward)
            | inr across =>
                rcases across with ⟨⟨node, member, reached⟩, away⟩
                exact Or.inr ⟨⟨node, member, direct.trans reached⟩, away⟩
        | inr across =>
            cases second with
            | inl onward =>
                rcases across with ⟨near, ⟨node, member, reached⟩⟩
                exact Or.inr ⟨near, ⟨node, member, onward.symm.trans reached⟩⟩
            | inr onward => exact Or.inr ⟨across.1, onward.2⟩
  · intro either
    cases either with
    | inl direct => exact direct.mono (List.subset_append_left _ _)
    | inr across =>
        rcases across with ⟨⟨node, member, reached⟩, ⟨node', member', reached'⟩⟩
        cases nodes with
        | nil => cases member
        | cons first rest =>
            have left := reached.mono (List.subset_append_left edges (chain (first :: rest)))
            have right := reached'.mono (List.subset_append_left edges (chain (first :: rest)))
            have between := (linked_chain first rest member).symm.trans
              (linked_chain first rest member')
            exact (left.trans (between.mono (List.subset_append_right _ _))).trans right.symm

end Links

section Parts

theorem mem_unite : a ∈ unite parts ↔ ∃ part ∈ parts, a ∈ part := by
  induction parts with
  | nil => simp [unite]
  | cons part rest ih =>
      simp only [List.mem_cons, exists_eq_or_imp, ← ih]
      exact Finset.mem_union

theorem subset_unite {part : Finset Nat} (member : part ∈ parts) : part ⊆ unite parts :=
  fun _ held => mem_unite.mpr ⟨part, member, held⟩

theorem lt_min_unite {bound : WithTop Nat} (finite : bound < ⊤)
    (below : ∀ part ∈ parts, bound < part.min) : bound < (unite parts).min := by
  cases (unite parts).eq_empty_or_nonempty with
  | inl none => rwa [none, Finset.min_empty]
  | inr some =>
      rcases Finset.min_of_nonempty some with ⟨least, smallest⟩
      rcases mem_unite.mp (Finset.mem_of_min smallest) with ⟨part, member, held⟩
      rw [smallest]
      exact (below part member).trans_le (Finset.min_le held)

theorem card_unite (apart : parts.Pairwise Disjoint) :
    (unite parts).card = (parts.map Finset.card).sum := by
  induction parts with
  | nil => rfl
  | cons part rest ih =>
      have split := List.pairwise_cons.mp apart
      have disjoint : Disjoint part (unite rest) := by
        rw [Finset.disjoint_left]
        intro node member inside
        rcases mem_unite.mp inside with ⟨other, listed, held⟩
        exact Finset.disjoint_left.mp (split.1 other listed) member held
      calc
        (unite (part :: rest)).card = part.card + (unite rest).card :=
          Finset.card_union_of_disjoint disjoint
        _ = ((part :: rest).map Finset.card).sum := by
          rw [ih split.2, List.map_cons, List.sum_cons]

theorem touches_eq_true {part : Finset Nat} :
    touches nodes part = true ↔ ∃ node ∈ nodes, node ∈ part := by
  simp [touches]

end Parts

/-- The parts are the connected components, each listed once. -/
structure Classes (size : Nat) (edges : List (Nat × Nat)) (parts : List (Finset Nat)) : Prop where
  distinct : parts.Nodup
  nonempty : ∀ part ∈ parts, part.Nonempty
  cover : ∀ node, node < size ↔ ∃ part ∈ parts, node ∈ part
  linked : ∀ part ∈ parts, ∀ a ∈ part, ∀ b, b ∈ part ↔ Linked edges a b

namespace Classes

variable (classes : Classes size edges parts)

include classes

theorem perm (reordered : others.Perm parts) : Classes size edges others where
  distinct := reordered.nodup_iff.mpr classes.distinct
  nonempty part member := classes.nonempty part (reordered.mem_iff.mp member)
  cover node := by
    rw [classes.cover]
    simp only [reordered.mem_iff]
  linked part member := classes.linked part (reordered.mem_iff.mp member)

theorem eq_of_mem {part other : Finset Nat} (member : part ∈ parts) (member' : other ∈ parts)
    (held : a ∈ part) (held' : a ∈ other) : part = other := by
  ext b
  rw [classes.linked part member a held, classes.linked other member' a held']

theorem pairwise_disjoint : parts.Pairwise Disjoint := by
  apply classes.distinct.pairwise_of_forall_ne
  intro part member other member' apart
  rw [Finset.disjoint_left]
  intro node held held'
  exact apart (classes.eq_of_mem member member' held held')

theorem snoc (bounded : ∀ edge ∈ edges, edge.1 < size ∧ edge.2 < size) :
    Classes (size + 1) edges (parts ++ [{size}]) where
  distinct := by
    rw [List.nodup_append]
    refine ⟨classes.distinct, List.nodup_singleton _, ?_⟩
    intro part member other single same
    rw [List.mem_singleton.mp single] at same
    have below := (classes.cover size).mpr ⟨part, member, same ▸ Finset.mem_singleton_self size⟩
    omega
  nonempty part member := by
    cases List.mem_append.mp member with
    | inl old => exact classes.nonempty part old
    | inr new =>
        rw [List.mem_singleton.mp new]
        exact Finset.singleton_nonempty size
  cover node := by
    simp only [List.mem_append, List.mem_singleton, or_and_right, exists_or, exists_eq_left,
      Finset.mem_singleton, ← classes.cover]
    omega
  linked part member a held b := by
    cases List.mem_append.mp member with
    | inl old => exact classes.linked part old a held b
    | inr new =>
        rw [List.mem_singleton.mp new] at held ⊢
        rw [Finset.mem_singleton.mp held, Finset.mem_singleton]
        constructor
        · intro same
          rw [same]
          exact Linked.refl _ size
        · intro linked
          cases linked.inside bounded with
          | inl same => exact same.symm
          | inr below => exact absurd below.1 (lt_irrefl size)

theorem lt_of_linked (below : a < size) (linked : Linked edges a b) : b < size := by
  rcases (classes.cover a).mp below with ⟨part, member, held⟩
  exact (classes.cover b).mpr ⟨part, member, (classes.linked part member a held b).mpr linked⟩

theorem touches_iff {part : Finset Nat} (member : part ∈ parts) (held : a ∈ part) :
    touches nodes part = true ↔ ∃ node ∈ nodes, Linked edges a node := by
  simp only [touches_eq_true, classes.linked part member a held]

theorem mem_united :
    a ∈ unite (parts.filter (touches nodes)) ↔ a < size ∧ ∃ node ∈ nodes, Linked edges a node := by
  simp only [mem_unite, List.mem_filter, and_assoc]
  constructor
  · intro inside
    rcases inside with ⟨part, member, touching, held⟩
    exact ⟨(classes.cover a).mpr ⟨part, member, held⟩, (classes.touches_iff member held).mp touching⟩
  · intro reaching
    rcases (classes.cover a).mp reaching.1 with ⟨part, member, held⟩
    exact ⟨part, member, (classes.touches_iff member held).mpr reaching.2, held⟩

section Merge

variable (below : ∀ node ∈ nodes, node < size)

include below

theorem united_linked (held : a ∈ unite (parts.filter (touches nodes))) :
    b ∈ unite (parts.filter (touches nodes)) ↔ Linked (edges ++ chain nodes) a b := by
  rw [classes.mem_united] at held
  rw [classes.mem_united, linked_append_chain]
  constructor
  · intro reaching
    exact Or.inr ⟨held.2, reaching.2⟩
  · intro either
    cases either with
    | inl direct =>
        rcases held with ⟨inside, node, member, reached⟩
        exact ⟨classes.lt_of_linked inside direct, node, member, direct.symm.trans reached⟩
    | inr across =>
        rcases across.2 with ⟨node, member, reached⟩
        exact ⟨classes.lt_of_linked (below node member) reached.symm, across.2⟩

theorem merge (acting : nodes ≠ []) : Classes size (edges ++ chain nodes) (merge nodes parts) := by
  have kept : ∀ part, part ∈ parts.filter (!touches nodes ·) ↔
      part ∈ parts ∧ touches nodes part = false := by
    simp
  rcases List.exists_mem_of_ne_nil nodes acting with ⟨node, listed⟩
  have united : node ∈ unite (parts.filter (touches nodes)) :=
    classes.mem_united.mpr ⟨below node listed, node, listed, Linked.refl _ node⟩
  refine ⟨?_, ?_, ?_, ?_⟩
  · rw [Components.merge, List.nodup_cons]
    refine ⟨?_, classes.distinct.filter _⟩
    intro alone
    have touching := touches_eq_true.mpr ⟨node, listed, united⟩
    rw [((kept _).mp alone).2] at touching
    cases touching
  · intro part member
    cases List.mem_cons.mp member with
    | inl whole => exact ⟨node, whole ▸ united⟩
    | inr alone => exact classes.nonempty part ((kept part).mp alone).1
  · intro a
    rw [classes.cover]
    constructor
    · intro covered
      rcases covered with ⟨part, member, held⟩
      cases touching : touches nodes part with
      | false => exact ⟨part, List.mem_cons_of_mem _ ((kept part).mpr ⟨member, touching⟩), held⟩
      | true =>
          exact ⟨_, List.mem_cons_self,
            mem_unite.mpr ⟨part, List.mem_filter.mpr ⟨member, touching⟩, held⟩⟩
    · intro covered
      rcases covered with ⟨part, member, held⟩
      cases List.mem_cons.mp member with
      | inl whole => exact (classes.cover a).mp (classes.mem_united.mp (whole ▸ held)).1
      | inr alone => exact ⟨part, ((kept part).mp alone).1, held⟩
  · intro part member a held b
    cases List.mem_cons.mp member with
    | inl whole =>
        rw [whole] at held ⊢
        exact classes.united_linked below held
    | inr alone =>
        rcases (kept part).mp alone with ⟨old, untouched⟩
        have far : ¬∃ node ∈ nodes, Linked edges a node := by
          rw [← classes.touches_iff old held, untouched]
          exact Bool.false_ne_true
        rw [linked_append_chain, classes.linked part old a held,
          or_iff_left fun across => far across.1]

end Merge

theorem perm_of_classes (classes' : Classes size edges others) : parts.Perm others := by
  have subset : ∀ {parts others : List (Finset Nat)}, Classes size edges parts →
      Classes size edges others → ∀ part ∈ parts, part ∈ others := by
    intro parts others classes classes' part member
    rcases classes.nonempty part member with ⟨a, held⟩
    rcases (classes'.cover a).mp ((classes.cover a).mpr ⟨part, member, held⟩) with
      ⟨other, member', held'⟩
    have same : part = other := by
      ext b
      rw [classes.linked part member a held, classes'.linked other member' a held']
    exact same ▸ member'
  rw [List.perm_ext_iff_of_nodup classes.distinct classes'.distinct]
  intro part
  exact ⟨subset classes classes' part, subset classes' classes part⟩

/-- Components that are listed by smallest node are what sorting them by it gives. -/
theorem mergeSort_eq (classes' : Classes size edges others)
    (increasing : others.Pairwise fun part other => part.min < other.min) :
    parts.mergeSort bySmallest = others := by
  have sorted : (parts.mergeSort bySmallest).Pairwise fun part other => bySmallest part other := by
    apply List.pairwise_mergeSort
    · intro first second third before after
      simp only [bySmallest, decide_eq_true_eq] at before after ⊢
      exact before.trans after
    · intro first second
      simp only [bySmallest, Bool.or_eq_true, decide_eq_true_eq]
      exact le_total _ _
  have perm : (parts.mergeSort bySmallest).Perm others :=
    (List.mergeSort_perm parts bySmallest).trans (classes.perm_of_classes classes')
  refine List.Perm.eq_of_pairwise ?_ sorted ?_ perm
  · intro part other member member' before after
    simp only [bySmallest, decide_eq_true_eq] at before after
    have listed := perm.mem_iff.mp member
    rcases Finset.min_of_nonempty (classes'.nonempty part listed) with ⟨least, smallest⟩
    have smallest' : other.min = least := (le_antisymm before after).symm.trans smallest
    exact classes'.eq_of_mem listed member' (Finset.mem_of_min smallest) (Finset.mem_of_min smallest')
  · exact increasing.imp fun before => decide_eq_true before.le

end Classes

theorem singletons_classes (size : Nat) : Classes size [] ((List.range size).map ({·})) := by
  induction size with
  | zero => exact ⟨List.nodup_nil, by simp, by simp, by simp⟩
  | succ size ih =>
      rw [List.range_succ, List.map_append]
      exact ih.snoc (by simp)

theorem components_classes (bounded : ∀ edge ∈ edges, edge.1 < size ∧ edge.2 < size) :
    Classes size edges (components size edges) := by
  induction edges using List.reverseRecOn with
  | nil => exact singletons_classes size
  | append_singleton edges edge ih =>
      have earlier := ih fun other member => bounded other (List.mem_append_left _ member)
      have ends := bounded edge (List.mem_append_right edges List.mem_cons_self)
      have below : ∀ node ∈ [edge.1, edge.2], node < size := by simpa using ends
      rw [components, List.foldl_concat]
      exact earlier.merge below (List.cons_ne_nil _ _)

end QuasiCut.Components
