import Mathlib
import QuasiCut.Proofs.Components
import QuasiCut.Proofs.FragmentWidths

/-! Fragments as the components of a graph. Its nodes are the segments, numbered as they begin. A map
tells the node of the open segment on each qubit, a cut takes its qubit out of the map, and an
instruction adds an edge between the nodes of each two neighbouring qubits. The sizes of the
components, sorted by smallest node, are the widths of the fragments. -/

namespace QuasiCut

open Components

structure SegmentGraph where
  size : Nat
  edges : List (Nat × Nat)
  current : Int → Option Nat

namespace SegmentGraph

def empty : SegmentGraph := ⟨0, [], fun _ => none⟩

def close (qubits : List Int) (g : SegmentGraph) : SegmentGraph :=
  { g with current := fun q => if q ∈ qubits then none else g.current q }

def visit (g : SegmentGraph) (q : Int) : SegmentGraph × Nat :=
  match g.current q with
  | some node => (g, node)
  | none => (⟨g.size + 1, g.edges, Function.update g.current q (some g.size)⟩, g.size)

def visitAll (g : SegmentGraph) : List Int → SegmentGraph × List Nat
  | [] => (g, [])
  | q :: rest =>
      let (visited, node) := g.visit q
      let (final, nodes) := visited.visitAll rest
      (final, node :: nodes)

def join (qubits : List Int) (g : SegmentGraph) : SegmentGraph :=
  let (visited, nodes) := g.visitAll qubits
  { visited with edges := visited.edges ++ chain nodes }

def step (cuts : List WireCut) (position : Nat) (i : Instruction) (g : SegmentGraph) :
    SegmentGraph :=
  let severed := g.close (Fragment.cutQubits cuts position)
  if i.isBarrier then severed else severed.join i.qubits

def scan (cuts : List WireCut) : Nat → SegmentGraph → List Instruction → SegmentGraph
  | _, g, [] => g
  | position, g, i :: rest => scan cuts (position + 1) (step cuts position i g) rest

end SegmentGraph

namespace Circuit

def segmentGraph (c : Circuit) (cuts : List WireCut) : SegmentGraph :=
  SegmentGraph.scan cuts 0 SegmentGraph.empty c.data

/-- The sizes of the components, by smallest node. -/
def componentWidths (c : Circuit) (cuts : List WireCut) : List Nat :=
  let g := c.segmentGraph cuts
  ((components g.size g.edges).mergeSort bySmallest).map Finset.card

end Circuit

section Prefix

variable {α : Type} {p : α → Bool} {rest : List α}

theorem takeWhile_append_of_neg (stops : ∀ x ∈ rest, p x = false) (xs : List α) :
    (xs ++ rest).takeWhile p = xs.takeWhile p := by
  induction xs with
  | nil =>
      cases rest with
      | nil => rfl
      | cons x _ => simp [stops x List.mem_cons_self]
  | cons x xs ih =>
      rw [List.cons_append, List.takeWhile_cons, List.takeWhile_cons, ih]

theorem filter_dropWhile_append_of_neg (stops : ∀ x ∈ rest, p x = false) (xs : List α) :
    ((xs ++ rest).dropWhile p).filter p = (xs.dropWhile p).filter p := by
  have none : rest.filter p = [] := List.filter_eq_nil_iff.mpr fun x member => by simp [stops x member]
  induction xs with
  | nil =>
      cases rest with
      | nil => rfl
      | cons x others => simpa [stops x List.mem_cons_self] using none
  | cons x xs ih =>
      rw [List.cons_append, List.dropWhile_cons, List.dropWhile_cons]
      split
      · exact ih
      · rw [← List.cons_append, List.filter_append, none, List.append_nil]

end Prefix

namespace Fragment

variable {qubits : List Int} {fragments : List Fragment}

def single (q : Int) : Fragment := ⟨1, [q]⟩

theorem mem_unopened {q : Int} :
    q ∈ unopened qubits fragments ↔ q ∈ qubits ∧ ∀ f ∈ fragments, q ∉ f.wires := by
  simp [unopened]

theorem unopened_cons_wired {f : Fragment} (member : f ∈ fragments) {q : Int} (wire : q ∈ f.wires) :
    unopened (q :: qubits) fragments = unopened qubits fragments := by
  apply List.filter_cons_of_neg
  simp only [Bool.not_eq_true', Bool.not_eq_false, List.any_eq_true, List.contains_iff_mem]
  exact ⟨f, member, wire⟩

theorem unopened_cons_fresh {q : Int} (fresh : ∀ f ∈ fragments, q ∉ f.wires) :
    unopened (q :: qubits) fragments = q :: unopened qubits fragments := by
  apply List.filter_cons_of_pos
  simpa using fresh

theorem unopened_snoc_single {q : Int} (apart : q ∉ qubits) :
    unopened qubits (fragments ++ [single q]) = unopened qubits fragments := by
  apply List.filter_congr
  intro p acted
  have other : p ≠ q := ne_of_mem_of_not_mem acted apart
  simp [single, other]

theorem totalWidth_append (left right : List Fragment) :
    totalWidth (left ++ right) = totalWidth left + totalWidth right := by
  induction left with
  | nil => exact (Nat.zero_add _).symm
  | cons f rest ih => rw [List.cons_append, totalWidth, totalWidth, ih, Nat.add_assoc]

section Begun

variable (qubits fragments)

def begun : List Fragment := (unopened qubits fragments).map single

theorem begun_meets {f : Fragment} (member : f ∈ begun qubits fragments) : f.meets qubits = true := by
  rcases List.mem_map.mp member with ⟨q, unopened, rfl⟩
  simp [single, meets, (mem_unopened.mp unopened).1]

theorem totalWidth_singles (qubits : List Int) : totalWidth (qubits.map single) = qubits.length := by
  induction qubits with
  | nil => rfl
  | cons q rest ih => rw [List.map_cons, totalWidth, ih, List.length_cons, single, Nat.add_comm]

theorem unopened_begun : unopened qubits (fragments ++ begun qubits fragments) = [] := by
  rw [List.eq_nil_iff_forall_not_mem]
  intro q member
  rcases mem_unopened.mp member with ⟨acted, unwired⟩
  have fresh : q ∈ unopened qubits fragments :=
    mem_unopened.mpr ⟨acted, fun f listed => unwired f (List.mem_append_left _ listed)⟩
  exact unwired (single q) (List.mem_append_right _ (List.mem_map_of_mem fresh)) List.mem_cons_self

theorem union_begun : union qubits (fragments ++ begun qubits fragments) = union qubits fragments := by
  have met : (fragments ++ begun qubits fragments).filter (·.meets qubits) =
      fragments.filter (·.meets qubits) ++ begun qubits fragments := by
    rw [List.filter_append]
    exact congrArg _ (List.filter_eq_self.mpr fun f member => begun_meets qubits fragments member)
  have wires : (begun qubits fragments).flatMap wires = unopened qubits fragments := by
    rw [begun, List.flatMap_map]
    exact List.flatMap_singleton' _
  simp only [union, met, unopened_begun, totalWidth_append, List.flatMap_append, wires,
    List.length_nil, Nat.add_zero, List.append_nil]
  rw [begun, totalWidth_singles]

/-- The new segments of an instruction may be begun before it joins. -/
theorem join_begun (acts : qubits ≠ []) :
    join qubits (fragments ++ begun qubits fragments) = join qubits fragments := by
  have some : qubits.isEmpty = false := by simpa using acts
  have meets : ∀ f ∈ begun qubits fragments, (!f.meets qubits) = false := by
    intro f member
    rw [begun_meets qubits fragments member]
    rfl
  rw [join, join, some, union_begun, takeWhile_append_of_neg meets,
    filter_dropWhile_append_of_neg meets]
  rfl

end Begun

end Fragment

namespace SegmentGraph

variable {g : SegmentGraph} {pairs : List (Fragment × Finset Nat)} {qubits : List Int}

/-- The fragments of the scan beside the components of the graph. -/
structure Matches (g : SegmentGraph) (pairs : List (Fragment × Finset Nat)) : Prop where
  classes : Classes g.size g.edges (pairs.map Prod.snd)
  increasing : pairs.Pairwise fun p p' => p.2.min < p'.2.min
  width : ∀ p ∈ pairs, p.1.width = p.2.card
  wires : ∀ p ∈ pairs, ∀ q, q ∈ p.1.wires ↔ ∃ node ∈ p.2, g.current q = some node
  bounded : ∀ edge ∈ g.edges, edge.1 < g.size ∧ edge.2 < g.size
  current : ∀ q node, g.current q = some node → node < g.size

theorem empty_matches : Matches empty [] where
  classes := singletons_classes 0
  increasing := List.Pairwise.nil
  width := by simp
  wires := by simp
  bounded := by simp [empty]
  current := by simp [empty]

theorem Matches.close (matched : Matches g pairs) (qubits : List Int) :
    Matches (g.close qubits) (pairs.map fun p => (p.1.sever qubits, p.2)) where
  classes := by
    rw [List.map_map]
    exact matched.classes
  increasing := List.pairwise_map.mpr matched.increasing
  width p member := by
    rcases List.mem_map.mp member with ⟨old, present, rfl⟩
    exact matched.width old present
  wires p member q := by
    rcases List.mem_map.mp member with ⟨old, present, rfl⟩
    have kept : q ∈ (old.1.sever qubits).wires ↔ q ∈ old.1.wires ∧ q ∉ qubits := by
      simp [Fragment.sever]
    rw [kept, matched.wires old present]
    by_cases cut : q ∈ qubits <;> simp [SegmentGraph.close, cut]
  bounded := matched.bounded
  current q node held := by
    by_cases cut : q ∈ qubits
    · simp [SegmentGraph.close, cut] at held
    · exact matched.current q node (by simpa [SegmentGraph.close, cut] using held)

section Visit

theorem Matches.open_iff (matched : Matches g pairs) {q : Int} :
    (∃ node, g.current q = some node) ↔ ∃ p ∈ pairs, q ∈ p.1.wires := by
  constructor
  · intro opened
    rcases opened with ⟨node, held⟩
    rcases (matched.classes.cover node).mp (matched.current q node held) with ⟨part, listed, inside⟩
    rcases List.mem_map.mp listed with ⟨p, member, rfl⟩
    exact ⟨p, member, (matched.wires p member q).mpr ⟨node, inside, held⟩⟩
  · intro wired
    rcases wired with ⟨p, member, wire⟩
    rcases (matched.wires p member q).mp wire with ⟨node, -, held⟩
    exact ⟨node, held⟩

theorem Matches.lt_size (matched : Matches g pairs) {p : Fragment × Finset Nat}
    (member : p ∈ pairs) {node : Nat} (inside : node ∈ p.2) : node < g.size :=
  (matched.classes.cover node).mpr ⟨p.2, List.mem_map_of_mem member, inside⟩

theorem visit_of_some {q : Int} {node : Nat} (held : g.current q = some node) :
    g.visit q = (g, node) := by
  rw [visit, held]

theorem visit_of_none {q : Int} (unopened : g.current q = none) :
    g.visit q = (⟨g.size + 1, g.edges, Function.update g.current q (some g.size)⟩, g.size) := by
  rw [visit, unopened]

theorem Matches.begin (matched : Matches g pairs) {q : Int} (unopened : g.current q = none) :
    Matches (g.visit q).1 (pairs ++ [(Fragment.single q, {g.size})]) := by
  have members : ∀ p, p ∈ pairs ++ [(Fragment.single q, {g.size})] ↔
      p ∈ pairs ∨ p = (Fragment.single q, {g.size}) := by
    simp
  have opened : ∀ r node, Function.update g.current q (some g.size) r = some node ↔
      r = q ∧ node = g.size ∨ g.current r = some node := by
    intro r node
    by_cases same : r = q
    · simp [same, unopened, eq_comm]
    · simp [same]
  rw [visit_of_none unopened]
  refine ⟨?_, ?_, ?_, ?_, ?_, ?_⟩
  · rw [List.map_append]
    exact matched.classes.snoc matched.bounded
  · rw [List.pairwise_append]
    refine ⟨matched.increasing, List.pairwise_singleton _ _, ?_⟩
    intro p member last single
    rw [List.mem_singleton.mp single, Finset.min_singleton]
    rcases matched.classes.nonempty p.2 (List.mem_map_of_mem member) with ⟨node, inside⟩
    exact (Finset.min_le inside).trans_lt (WithTop.coe_lt_coe.mpr (matched.lt_size member inside))
  · intro p member
    cases (members p).mp member with
    | inl old => exact matched.width p old
    | inr new =>
        rw [new]
        rfl
  · intro p member r
    cases (members p).mp member with
    | inl old =>
        simp only [matched.wires p old, opened]
        refine ⟨fun wired => wired.imp fun node held => ⟨held.1, Or.inr held.2⟩, ?_⟩
        intro wired
        rcases wired with ⟨node, inside, begun | held⟩
        · exact absurd (matched.lt_size old inside) (by omega)
        · exact ⟨node, inside, held⟩
    | inr new =>
        simp only [new, opened, Fragment.single, List.mem_singleton, Finset.mem_singleton]
        refine ⟨fun same => ⟨g.size, rfl, Or.inl ⟨same, rfl⟩⟩, ?_⟩
        intro wired
        rcases wired with ⟨node, rfl, begun | held⟩
        · exact begun.1
        · exact absurd (matched.current r g.size held) (lt_irrefl _)
  · intro edge member
    have ends := matched.bounded edge member
    exact ⟨ends.1.trans (Nat.lt_succ_self _), ends.2.trans (Nat.lt_succ_self _)⟩
  · intro r node held
    cases (opened r node).mp held with
    | inl begun => exact begun.2 ▸ Nat.lt_succ_self _
    | inr old => exact (matched.current r node old).trans (Nat.lt_succ_self _)

theorem visit_kept (g : SegmentGraph) (p : Int) {q : Int} {node : Nat}
    (held : g.current q = some node) : (g.visit p).1.current q = some node := by
  cases opened : g.current p with
  | some other =>
      rw [visit_of_some opened]
      exact held
  | none =>
      have apart : q ≠ p := by
        intro same
        rw [same, opened] at held
        cases held
      rw [visit_of_none opened]
      exact (Function.update_of_ne apart _ _).trans held

theorem visit_current (g : SegmentGraph) (q : Int) :
    (g.visit q).1.current q = some (g.visit q).2 := by
  cases opened : g.current q with
  | some node =>
      rw [visit_of_some opened]
      exact opened
  | none =>
      rw [visit_of_none opened]
      exact Function.update_self _ _ _

theorem visitAll_kept (g : SegmentGraph) (qubits : List Int) {q : Int} {node : Nat}
    (held : g.current q = some node) : (g.visitAll qubits).1.current q = some node := by
  induction qubits generalizing g with
  | nil => exact held
  | cons p rest ih => exact ih _ (visit_kept g p held)

theorem visitAll_nodes (g : SegmentGraph) (qubits : List Int) :
    (g.visitAll qubits).2.map some = qubits.map (g.visitAll qubits).1.current := by
  induction qubits generalizing g with
  | nil => rfl
  | cons q rest ih =>
      have first := visitAll_kept (g.visit q).1 rest (visit_current g q)
      exact congrArg₂ List.cons first.symm (ih (g.visit q).1)

theorem Matches.visitAll (matched : Matches g pairs) (distinct : qubits.Nodup) :
    ∃ begun : List (Fragment × Finset Nat), Matches (g.visitAll qubits).1 (pairs ++ begun) ∧
      begun.map Prod.fst = Fragment.begun qubits (pairs.map Prod.fst) := by
  induction qubits generalizing g pairs with
  | nil => exact ⟨[], by rwa [List.append_nil], rfl⟩
  | cons q rest ih =>
      have split := List.nodup_cons.mp distinct
      cases opened : g.current q with
      | some node =>
          rcases ih matched split.2 with ⟨begun, later, fragments⟩
          rcases matched.open_iff.mp ⟨node, opened⟩ with ⟨p, member, wire⟩
          refine ⟨begun, ?_, ?_⟩
          · rw [SegmentGraph.visitAll, visit_of_some opened]
            exact later
          · rw [fragments, Fragment.begun, Fragment.begun,
              Fragment.unopened_cons_wired (List.mem_map_of_mem member) wire]
      | none =>
          rcases ih (matched.begin opened) split.2 with ⟨begun, later, fragments⟩
          refine ⟨(Fragment.single q, {g.size}) :: begun, ?_, ?_⟩
          · rw [← List.append_cons] at later
            exact later
          · have fresh : ∀ f ∈ pairs.map Prod.fst, q ∉ f.wires := by
              intro f member wire
              rcases List.mem_map.mp member with ⟨p, present, rfl⟩
              rcases matched.open_iff.mpr ⟨p, present, wire⟩ with ⟨node, held⟩
              rw [opened] at held
              cases held
            rw [List.map_cons, fragments, Fragment.begun, Fragment.begun,
              Fragment.unopened_cons_fresh fresh, List.map_append]
            exact congrArg (fun later => Fragment.single q :: later.map Fragment.single)
              (Fragment.unopened_snoc_single split.1)

end Visit

section Join

def apart (qubits : List Int) (p : Fragment × Finset Nat) : Bool := !p.1.meets qubits

def met (qubits : List Int) (pairs : List (Fragment × Finset Nat)) :
    List (Fragment × Finset Nat) :=
  pairs.filter fun p => p.1.meets qubits

def joinedPair (qubits : List Int) (pairs : List (Fragment × Finset Nat)) : Fragment × Finset Nat :=
  (Fragment.union qubits (pairs.map Prod.fst), unite ((met qubits pairs).map Prod.snd))

def joinPairs (qubits : List Int) (pairs : List (Fragment × Finset Nat)) :
    List (Fragment × Finset Nat) :=
  gather (apart qubits) (joinedPair qubits pairs) pairs

theorem mem_met {p : Fragment × Finset Nat} :
    p ∈ met qubits pairs ↔ p ∈ pairs ∧ apart qubits p = false := by
  simp [met, apart]

theorem joinPairs_fragments (acts : qubits ≠ []) :
    (joinPairs qubits pairs).map Prod.fst = Fragment.join qubits (pairs.map Prod.fst) := by
  have some : qubits.isEmpty = false := by simpa using acts
  rw [joinPairs, gather, Fragment.join, some, List.takeWhile_map, List.dropWhile_map,
    List.filter_map, List.map_append, List.map_cons]
  rfl

variable (matched : Matches g pairs) {nodes : List Nat}
  (visited : nodes.map some = qubits.map g.current)

include visited

theorem mem_nodes {node : Nat} : node ∈ nodes ↔ ∃ q ∈ qubits, g.current q = some node := by
  rw [← List.mem_map (f := g.current), ← visited, List.mem_map_of_injective (Option.some_injective _)]

include matched

theorem nodes_lt_size {node : Nat} (member : node ∈ nodes) : node < g.size := by
  rcases (mem_nodes visited).mp member with ⟨q, -, held⟩
  exact matched.current q node held

theorem meets_eq {p : Fragment × Finset Nat} (member : p ∈ pairs) :
    p.1.meets qubits = touches nodes p.2 := by
  rw [Bool.eq_iff_iff, touches_eq_true]
  simp only [Fragment.meets, List.any_eq_true, List.contains_iff_mem, matched.wires p member]
  constructor
  · intro wired
    rcases wired with ⟨q, acted, node, inside, held⟩
    exact ⟨node, (mem_nodes visited).mpr ⟨q, acted, held⟩, inside⟩
  · intro touching
    rcases touching with ⟨node, listed, inside⟩
    rcases (mem_nodes visited).mp listed with ⟨q, acted, held⟩
    exact ⟨q, acted, node, inside, held⟩

theorem joinPairs_parts :
    ((joinPairs qubits pairs).map Prod.snd).Perm (merge nodes (pairs.map Prod.snd)) := by
  have met : (pairs.map Prod.snd).filter (touches nodes) =
      (met qubits pairs).map Prod.snd := by
    rw [List.filter_map]
    congr 1
    exact List.filter_congr fun p member => (meets_eq matched visited member).symm
  have others : (pairs.map Prod.snd).filter (!touches nodes ·) =
      (pairs.filter (apart qubits)).map Prod.snd := by
    rw [List.filter_map]
    congr 1
    refine List.filter_congr fun p member => ?_
    rw [apart, meets_eq matched visited member]
    rfl
  rw [merge, met, others]
  exact (gather_perm (apart qubits) (joinedPair qubits pairs) pairs).map Prod.snd

omit visited in
theorem joinPairs_increasing (qubits : List Int) :
    (joinPairs qubits pairs).Pairwise fun p p' => p.2.min < p'.2.min := by
  refine gather_pairwise _ _ matched.increasing ?_ ?_
  · intro p taken left
    have listed : p ∈ pairs := (List.takeWhile_prefix _).subset taken
    rcases matched.classes.nonempty p.2 (List.mem_map_of_mem listed) with ⟨node, inside⟩
    refine lt_min_unite ((Finset.min_le inside).trans_lt (WithTop.coe_lt_top node)) ?_
    intro part united
    rcases List.mem_map.mp united with ⟨p', met, rfl⟩
    exact left p' (mem_met.mp met).1 (mem_met.mp met).2
  · intro p member meets p' before
    have united : p.2 ∈ (met qubits pairs).map Prod.snd :=
      List.mem_map_of_mem (mem_met.mpr ⟨member, meets⟩)
    exact (Finset.min_mono (subset_unite united)).trans_lt before

theorem unopened_eq_nil : Fragment.unopened qubits (pairs.map Prod.fst) = [] := by
  rw [List.eq_nil_iff_forall_not_mem]
  intro q member
  rcases Fragment.mem_unopened.mp member with ⟨acted, unwired⟩
  have listed : g.current q ∈ nodes.map some := visited ▸ List.mem_map_of_mem acted
  rcases List.mem_map.mp listed with ⟨node, -, held⟩
  rcases matched.open_iff.mp ⟨node, held.symm⟩ with ⟨p, present, wire⟩
  exact unwired p.1 (List.mem_map_of_mem present) wire

omit visited in
theorem totalWidth_parts {some : List (Fragment × Finset Nat)} (part : some ⊆ pairs) :
    Fragment.totalWidth (some.map Prod.fst) = ((some.map Prod.snd).map Finset.card).sum := by
  induction some with
  | nil => rfl
  | cons p rest ih =>
      have first := matched.width p (part List.mem_cons_self)
      have later := ih (List.subset_of_cons_subset part)
      rw [List.map_cons, Fragment.totalWidth, first, later, List.map_cons, List.map_cons, List.sum_cons]

theorem joinedPair_width : (joinedPair qubits pairs).1.width = (joinedPair qubits pairs).2.card := by
  have part : (met qubits pairs).Sublist pairs := List.filter_sublist
  have disjoint := matched.classes.pairwise_disjoint.sublist (part.map Prod.snd)
  rw [joinedPair, card_unite disjoint, ← totalWidth_parts matched part.subset, Fragment.union,
    unopened_eq_nil matched visited, List.filter_map]
  rfl

theorem joinedPair_wires (q : Int) :
    q ∈ (joinedPair qubits pairs).1.wires ↔
      ∃ node ∈ (joinedPair qubits pairs).2, g.current q = some node := by
  have listed : q ∈ (joinedPair qubits pairs).1.wires ↔ ∃ p ∈ met qubits pairs, q ∈ p.1.wires := by
    rw [joinedPair, Fragment.union, unopened_eq_nil matched visited, List.append_nil, List.filter_map,
      List.flatMap_map, List.mem_flatMap]
    rfl
  rw [listed]
  constructor
  · intro wired
    rcases wired with ⟨p, member, wire⟩
    rcases (matched.wires p (mem_met.mp member).1 q).mp wire with ⟨node, held, current⟩
    exact ⟨node, subset_unite (List.mem_map_of_mem member) held, current⟩
  · intro found
    rcases found with ⟨node, inside, current⟩
    rcases mem_unite.mp inside with ⟨part, united, held⟩
    rcases List.mem_map.mp united with ⟨p, member, rfl⟩
    exact ⟨p, member, (matched.wires p (mem_met.mp member).1 q).mpr ⟨node, held, current⟩⟩

theorem Matches.join (acts : qubits ≠ []) :
    Matches { g with edges := g.edges ++ chain nodes } (joinPairs qubits pairs) := by
  have below : ∀ node ∈ nodes, node < g.size := fun node member =>
    nodes_lt_size matched visited member
  have some : nodes ≠ [] := by
    intro none
    rw [none] at visited
    exact acts (List.map_eq_nil_iff.mp visited.symm)
  have members : ∀ p, p ∈ joinPairs qubits pairs ↔
      p = joinedPair qubits pairs ∨ p ∈ pairs ∧ apart qubits p = true := by
    intro p
    rw [joinPairs, (gather_perm _ _ pairs).mem_iff, List.mem_cons, List.mem_filter]
  refine ⟨?_, ?_, ?_, ?_, ?_, matched.current⟩
  · exact (matched.classes.merge below some).perm (joinPairs_parts matched visited)
  · exact joinPairs_increasing matched qubits
  · intro p member
    cases (members p).mp member with
    | inl joined =>
        rw [joined]
        exact joinedPair_width matched visited
    | inr kept => exact matched.width p kept.1
  · intro p member q
    cases (members p).mp member with
    | inl joined =>
        rw [joined]
        exact joinedPair_wires matched visited q
    | inr kept => exact matched.wires p kept.1 q
  · intro edge member
    cases List.mem_append.mp member with
    | inl old => exact matched.bounded edge old
    | inr new =>
        have ends := mem_of_chain new
        exact ⟨below _ ends.1, below _ ends.2⟩

end Join

theorem Matches.step (matched : Matches g pairs) (cuts : List WireCut) (position : Nat)
    {i : Instruction} (distinct : i.qubits.Nodup) :
    ∃ next, Matches (g.step cuts position i) next ∧
      next.map Prod.fst = Fragment.step cuts position i (pairs.map Prod.fst) := by
  have severed := matched.close (Fragment.cutQubits cuts position)
  have fragments : (pairs.map fun p =>
      (p.1.sever (Fragment.cutQubits cuts position), p.2)).map Prod.fst =
        (pairs.map Prod.fst).map (Fragment.sever (Fragment.cutQubits cuts position)) := by
    rw [List.map_map, List.map_map]
    rfl
  rw [SegmentGraph.step, Fragment.step, ← fragments]
  cases i.isBarrier with
  | true => exact ⟨_, severed, rfl⟩
  | false =>
      by_cases acts : i.qubits = []
      · -- Without qubits nothing is visited, and the chain has no edge.
        have unchanged : (g.close (Fragment.cutQubits cuts position)).join [] =
            g.close (Fragment.cutQubits cuts position) := by
          simp [SegmentGraph.join, SegmentGraph.visitAll, chain]
        rw [acts]
        refine ⟨_, ?_, rfl⟩
        simpa only [Bool.false_eq_true, if_false, unchanged] using severed
      · rcases severed.visitAll distinct with ⟨begun, visited, opened⟩
        refine ⟨_, visited.join (visitAll_nodes _ i.qubits) acts, ?_⟩
        rw [joinPairs_fragments acts, List.map_append, opened]
        exact Fragment.join_begun _ _ acts

theorem Matches.scan (matched : Matches g pairs) (cuts : List WireCut) (position : Nat)
    {data : List Instruction} (distinct : ∀ i ∈ data, i.qubits.Nodup) :
    ∃ final, Matches (scan cuts position g data) final ∧
      final.map Prod.fst = Fragment.scan cuts position (pairs.map Prod.fst) data := by
  induction data generalizing g pairs position with
  | nil => exact ⟨pairs, matched, rfl⟩
  | cons i rest ih =>
      rcases matched.step cuts position (distinct i List.mem_cons_self) with ⟨next, reached, stepped⟩
      rcases ih reached (position + 1) fun j member => distinct j (List.mem_cons_of_mem i member) with
        ⟨final, ended, scanned⟩
      rw [stepped] at scanned
      exact ⟨final, ended, scanned⟩

end SegmentGraph

/-- The widths of the fragments are the sizes of the components, by smallest node. -/
theorem Circuit.componentWidths_eq (c : Circuit) (cuts : List WireCut) :
    c.componentWidths cuts = c.fragmentWidths cuts := by
  rcases SegmentGraph.empty_matches.scan cuts 0 fun i member => (c.fits i member).1.1 with
    ⟨pairs, matched, fragments⟩
  have found := components_classes matched.bounded
  have sorted := found.mergeSort_eq matched.classes (List.pairwise_map.mpr matched.increasing)
  have widths : (pairs.map Prod.snd).map Finset.card = (pairs.map Prod.fst).map Fragment.width := by
    rw [List.map_map, List.map_map]
    exact List.map_congr_left fun p member => (matched.width p member).symm
  calc
    c.componentWidths cuts = (pairs.map Prod.snd).map Finset.card := congrArg _ sorted
    _ = (pairs.map Prod.fst).map Fragment.width := widths
    _ = c.fragmentWidths cuts := congrArg _ fragments

end QuasiCut
