import Mathlib
import QuasiCut.Batch
import QuasiCut.Proofs.Enumeration

/-! Work on many items by a pool of workers. Calls are submitted in the order of the items, finish in
any order, and their results are collected in the order of submission. However a run of the pool goes,
it ends with what working on the items one after another gives. -/

namespace QuasiCut.Batch

variable {α β : Type}

inductive Call (α β : Type) where
  | waiting (item : α)
  | running (item : α)
  | finished (result : Except Fault β)

namespace Call

def isRunning : Call α β → Bool
  | running _ => true
  | _ => false

def isFinished : Call α β → Bool
  | finished _ => true
  | _ => false

def IsFor (work : α → Except Fault β) (item : α) : Call α β → Prop
  | waiting other => other = item
  | running other => other = item
  | finished result => result = work item

def size : Call α β → Nat
  | waiting _ => 3
  | running _ => 2
  | finished _ => 1

end Call

/-- Items that are still to be submitted, submitted calls whose results are not collected, in order, the
results that are, and the fault that was met in place of a result. -/
structure Pool (α β : Type) where
  unsent : List α
  calls : List (Call α β)
  collected : List β
  fault : Option Fault

namespace Pool

def initial (items : List α) : Pool α β := ⟨items, [], [], none⟩

def running (pool : Pool α β) : Nat := pool.calls.countP Call.isRunning

def size (pool : Pool α β) : Nat := 4 * pool.unsent.length + (pool.calls.map Call.size).sum

def outcome (pool : Pool α β) : Option (Except Fault (List β)) :=
  match pool.fault with
  | some fault => if pool.calls.all Call.isFinished then some (.error fault) else none
  | none => if pool.unsent.isEmpty && pool.calls.isEmpty then some (.ok pool.collected) else none

end Pool

/-- One step of a pool. A waiting call starts when a worker is free, any running call may finish, and
results are collected in order once all items are submitted. The first fault ends the collection;
calls that wait may then be cancelled. -/
inductive Step (work : α → Except Fault β) (workers : Nat) : Pool α β → Pool α β → Prop
  | submit (item : α) (unsent : List α) (calls : List (Call α β)) (collected : List β) :
      Step work workers ⟨item :: unsent, calls, collected, none⟩
        ⟨unsent, calls ++ [.waiting item], collected, none⟩
  | start (unsent : List α) (before : List (Call α β)) (item : α) (after : List (Call α β))
      (collected : List β) (fault : Option Fault)
      (free : (before ++ after).countP Call.isRunning < workers) :
      Step work workers ⟨unsent, before ++ .waiting item :: after, collected, fault⟩
        ⟨unsent, before ++ .running item :: after, collected, fault⟩
  | finish (unsent : List α) (before : List (Call α β)) (item : α) (after : List (Call α β))
      (collected : List β) (fault : Option Fault) :
      Step work workers ⟨unsent, before ++ .running item :: after, collected, fault⟩
        ⟨unsent, before ++ .finished (work item) :: after, collected, fault⟩
  | collect (result : β) (later : List (Call α β)) (collected : List β) :
      Step work workers ⟨[], .finished (.ok result) :: later, collected, none⟩
        ⟨[], later, collected ++ [result], none⟩
  | fail (fault : Fault) (later : List (Call α β)) (collected : List β) :
      Step work workers ⟨[], .finished (.error fault) :: later, collected, none⟩
        ⟨[], later, collected, some fault⟩
  | cancel (unsent : List α) (before : List (Call α β)) (item : α) (after : List (Call α β))
      (collected : List β) (fault : Fault) :
      Step work workers ⟨unsent, before ++ .waiting item :: after, collected, some fault⟩
        ⟨unsent, before ++ after, collected, some fault⟩

abbrev Reaches (work : α → Except Fault β) (workers : Nat) : Pool α β → Pool α β → Prop :=
  Relation.ReflTransGen (Step work workers)

variable {work : α → Except Fault β} {workers : Nat} {items : List α} {pool next : Pool α β}

section Serial

def FirstFault (work : α → Except Fault β) (items : List α) (fault : Fault) : Prop :=
  ∃ done item rest, items = done ++ item :: rest ∧
    (∀ earlier ∈ done, ∃ result, work earlier = .ok result) ∧ work item = .error fault

theorem FirstFault.cons {item : α} {result : β} {fault : Fault} (accepted : work item = .ok result)
    (first : FirstFault work items fault) : FirstFault work (item :: items) fault := by
  obtain ⟨done, refused, rest, rfl, each, failed⟩ := first
  refine ⟨item :: done, refused, rest, rfl, ?_, failed⟩
  exact List.forall_mem_cons.mpr ⟨⟨result, accepted⟩, each⟩

theorem firstFault_of_mapM_error {fault : Fault} (failed : items.mapM work = .error fault) :
    FirstFault work items fault := by
  induction items with
  | nil => cases failed
  | cons item rest ih =>
      rw [List.mapM_cons] at failed
      cases called : work item with
      | error other =>
          rw [called] at failed
          cases failed
          exact ⟨[], item, rest, rfl, by simp, called⟩
      | ok result =>
          cases others : rest.mapM work with
          | error other =>
              rw [called, others] at failed
              cases failed
              exact (ih others).cons called
          | ok results =>
              rw [called, others] at failed
              cases failed

theorem mapM_first_fault {done : List α} {collected : List β}
    (gathered : List.Forall₂ (fun item result => work item = .ok result) done collected) {item : α}
    {fault : Fault} (refused : work item = .error fault) (rest : List α) :
    (done ++ item :: rest).mapM work = .error fault := by
  rw [List.mapM_append, mapM_ok_of_forall₂ gathered, List.mapM_cons, refused]
  rfl

theorem mapM_eq_error_iff (fault : Fault) :
    items.mapM work = .error fault ↔ FirstFault work items fault := by
  constructor
  · exact firstFault_of_mapM_error
  · rintro ⟨done, item, rest, rfl, each, refused⟩
    obtain ⟨collected, returned⟩ := mapM_returns each
    exact mapM_first_fault (forall₂_of_mapM_ok returned) refused rest

end Serial

section Outcome

/-- The collected results are those of the first items. The next items have the calls, unless the very
next one has the fault. -/
inductive Tracks (work : α → Except Fault β) (items : List α) : Pool α β → Prop
  | gathering (done sent : List α) {unsent : List α} {calls : List (Call α β)} {collected : List β}
      (split : items = done ++ sent ++ unsent)
      (gathered : List.Forall₂ (fun item result => work item = .ok result) done collected)
      (called : List.Forall₂ (Call.IsFor work) sent calls) :
      Tracks work items ⟨unsent, calls, collected, none⟩
  | failed (done : List α) (item : α) (rest : List α) {unsent : List α} {calls : List (Call α β)}
      {collected : List β} {fault : Fault} (split : items = done ++ item :: rest)
      (gathered : List.Forall₂ (fun item result => work item = .ok result) done collected)
      (refused : work item = .error fault) :
      Tracks work items ⟨unsent, calls, collected, some fault⟩

theorem tracks_initial (work : α → Except Fault β) (items : List α) :
    Tracks work items (Pool.initial items) :=
  .gathering [] [] rfl List.Forall₂.nil List.Forall₂.nil

theorem called_replace {sent : List α} {before after : List (Call α β)} {call other : Call α β}
    (same : ∀ item, call.IsFor work item → other.IsFor work item)
    (called : List.Forall₂ (Call.IsFor work) sent (before ++ call :: after)) :
    List.Forall₂ (Call.IsFor work) sent (before ++ other :: after) := by
  induction before generalizing sent with
  | nil =>
      cases called with
      | cons first later => exact List.Forall₂.cons (same _ first) later
  | cons head tail ih =>
      cases called with
      | cons first later => exact List.Forall₂.cons first (ih later)

theorem Tracks.step (tracks : Tracks work items pool) (step : Step work workers pool next) :
    Tracks work items next := by
  cases tracks with
  | gathering done sent split gathered called =>
      cases step with
      | submit item unsent calls collected =>
          refine .gathering done (sent ++ [item]) ?_ gathered ?_
          · rw [split]
            simp
          · exact List.rel_append called (List.Forall₂.cons rfl List.Forall₂.nil)
      | start unsent before item after collected fault free =>
          refine .gathering done sent split gathered (called_replace ?_ called)
          exact fun _ same => same
      | finish unsent before item after collected fault =>
          refine .gathering done sent split gathered (called_replace ?_ called)
          exact fun _ same => congrArg work same
      | collect result later collected =>
          cases called with
          | @cons item _ sent _ first called =>
              -- The first call is for the item right after the done ones, whenever it finished.
              refine .gathering (done ++ [item]) sent ?_ ?_ called
              · rw [split]
                simp
              · exact List.rel_append gathered (List.Forall₂.cons first.symm List.Forall₂.nil)
      | fail fault later collected =>
          cases called with
          | @cons item _ sent _ first called =>
              refine .failed done item sent ?_ gathered first.symm
              rw [split]
              simp
  | failed done item rest split gathered refused =>
      -- After a fault no step changes what was collected or the fault.
      cases step <;> exact .failed done item rest split gathered refused

theorem Tracks.reaches (tracks : Tracks work items pool) (run : Reaches work workers pool next) :
    Tracks work items next := by
  induction run with
  | refl => exact tracks
  | tail _ step ih => exact ih.step step

theorem Tracks.outcome (tracks : Tracks work items pool) {result : Except Fault (List β)}
    (ended : pool.outcome = some result) : result = items.mapM work := by
  cases tracks with
  | gathering done sent split gathered called =>
      simp only [Pool.outcome] at ended
      split at ended
      · next empty =>
          simp only [Bool.and_eq_true, List.isEmpty_iff] at empty
          rcases empty with ⟨rfl, rfl⟩
          cases called
          cases ended
          rw [split, List.append_nil, List.append_nil, mapM_ok_of_forall₂ gathered]
      · cases ended
  | failed done item rest split gathered refused =>
      simp only [Pool.outcome] at ended
      split at ended
      · cases ended
        rw [split, mapM_first_fault gathered refused]
      · cases ended

end Outcome

section Progress

theorem Step.shrinks (step : Step work workers pool next) : next.size < pool.size := by
  cases step <;> simp [Pool.size, Call.size]
  omega

theorem step_wellFounded (work : α → Except Fault β) (workers : Nat) :
    WellFounded fun next pool => Step work workers pool next :=
  Subrelation.wf Step.shrinks (measure Pool.size).wf

theorem Step.running_le (step : Step work workers pool next) (few : pool.running ≤ workers) :
    next.running ≤ workers := by
  cases step with
  | start unsent before item after collected fault free =>
      simp only [Pool.running, List.countP_append, List.countP_cons, Call.isRunning] at free ⊢
      simp
      omega
  | _ =>
      simp [Pool.running, List.countP_cons, Call.isRunning] at few ⊢
      omega

theorem running_le_of_reaches (run : Reaches work workers (Pool.initial items) pool) :
    pool.running ≤ workers := by
  induction run with
  | refl => exact Nat.zero_le workers
  | tail _ step ih => exact step.running_le ih

theorem exists_finish {calls : List (Call α β)} {item : α} (runs : .running item ∈ calls)
    (unsent : List α) (collected : List β) (fault : Option Fault) :
    ∃ next, Step work workers ⟨unsent, calls, collected, fault⟩ next := by
  obtain ⟨before, after, rfl⟩ := List.append_of_mem runs
  exact ⟨_, .finish unsent before item after collected fault⟩

theorem exists_step_of_unfinished (staffed : 0 < workers) {calls : List (Call α β)}
    (unfinished : ∃ call ∈ calls, call.isFinished = false) (unsent : List α) (collected : List β)
    (fault : Option Fault) : ∃ next, Step work workers ⟨unsent, calls, collected, fault⟩ next := by
  by_cases busy : ∃ item, .running item ∈ calls
  · obtain ⟨item, runs⟩ := busy
    exact exists_finish runs unsent collected fault
  · -- No worker is busy, so the call that is not finished is a waiting one that can start.
    obtain ⟨call, member, unfinished⟩ := unfinished
    cases call with
    | running item => exact absurd ⟨item, member⟩ busy
    | finished result => cases unfinished
    | waiting item =>
        have idle : calls.countP Call.isRunning = 0 := by
          rw [List.countP_eq_zero]
          intro call member runs
          cases call with
          | running item => exact busy ⟨item, member⟩
          | _ => cases runs
        obtain ⟨before, after, rfl⟩ := List.append_of_mem member
        have free : (before ++ after).countP Call.isRunning < workers := by
          rw [List.countP_append, List.countP_cons] at idle
          rw [List.countP_append]
          omega
        exact ⟨_, .start unsent before item after collected fault free⟩

theorem exists_step (staffed : 0 < workers) (working : pool.outcome = none) :
    ∃ next, Step work workers pool next := by
  obtain ⟨unsent, calls, collected, fault⟩ := pool
  by_cases unfinished : ∃ call ∈ calls, call.isFinished = false
  · exact exists_step_of_unfinished staffed unfinished unsent collected fault
  · have finished : calls.all Call.isFinished := by simpa using unfinished
    cases fault with
    | some fault => simp [Pool.outcome, finished] at working
    | none =>
        cases unsent with
        | cons item unsent => exact ⟨_, .submit item unsent calls collected⟩
        | nil =>
            cases calls with
            | nil => simp [Pool.outcome] at working
            | cons call later =>
                cases call with
                | waiting item => simp [Call.isFinished] at finished
                | running item => simp [Call.isFinished] at finished
                | finished result =>
                    cases result with
                    | ok result => exact ⟨_, .collect result later collected⟩
                    | error fault => exact ⟨_, .fail fault later collected⟩

theorem exists_outcome (work : α → Except Fault β) (staffed : 0 < workers) (pool : Pool α β) :
    ∃ final result, Reaches work workers pool final ∧ final.outcome = some result := by
  induction pool using (step_wellFounded work workers).induction with
  | _ pool ih =>
      cases ended : pool.outcome with
      | some result => exact ⟨pool, result, .refl, ended⟩
      | none =>
          obtain ⟨next, step⟩ := exists_step staffed ended
          obtain ⟨final, result, run, ended⟩ := ih next step
          exact ⟨final, result, run.head step, ended⟩

end Progress

/-- However a pool of two or more workers goes on, no more than its workers run at a time, it comes to an
end, and there it has what the items give one after another: the results in the order of the items, or
the fault of the first item that has one. -/
theorem pool_matches_serial (work : α → Except Fault β) (items : List α) (workers : Nat)
    (several : 2 ≤ workers) :
    (∀ pool, Reaches work workers (Pool.initial items) pool →
      pool.running ≤ workers ∧
      (∃ final result, Reaches work workers pool final ∧ final.outcome = some result) ∧
      ∀ result, pool.outcome = some result → result = run none work items) ∧
    (WellFounded fun next pool : Pool α β => Step work workers pool next) ∧
    run (some (.integer workers)) work items = run none work items ∧
    (∀ results, run none work items = .ok results ↔
      List.Forall₂ (fun item result => work item = .ok result) items results) ∧
    ∀ fault, run none work items = .error fault ↔ FirstFault work items fault := by
  refine ⟨?_, step_wellFounded work workers, ?_, ?_, ?_⟩
  · intro pool reached
    refine ⟨running_le_of_reaches reached, exists_outcome work (by omega) pool, ?_⟩
    intro result ended
    exact ((tracks_initial work items).reaches reached).outcome ended
  · have staffed : ¬ ((workers : Int) < 1) := by omega
    simp [run, checkWorkers, staffed]
  · intro results
    exact ⟨forall₂_of_mapM_ok, mapM_ok_of_forall₂⟩
  · intro fault
    exact mapM_eq_error_iff fault

def placeOfThree (index : Int) : Except Fault Nat :=
  if 0 ≤ index ∧ index < 3 then .ok index.toNat else .error (.indexOutOfRange index 3)

/-- The end of a run in which the last call failed before the one it was submitted after. -/
def overtaken : Pool Int Nat :=
  ⟨[], [.finished (.error (.indexOutOfRange 5 3))], [0], some (.indexOutOfRange 7 3)⟩

theorem overtaken_reached : Reaches placeOfThree 2 (Pool.initial [0, 7, 5]) overtaken := by
  refine .head (.submit 0 [7, 5] [] []) ?_
  refine .head (.submit 7 [5] [.waiting 0] []) ?_
  refine .head (.submit 5 [] [.waiting 0, .waiting 7] []) ?_
  refine .head (.start [] [] 0 [.waiting 7, .waiting 5] [] none (by decide)) ?_
  refine .head (.start [] [.running 0] 7 [.waiting 5] [] none (by decide)) ?_
  refine .head (.finish [] [] 0 [.running 7, .waiting 5] [] none) ?_
  refine .head (.start [] [.finished (.ok 0), .running 7] 5 [] [] none (by decide)) ?_
  refine .head (.finish [] [.finished (.ok 0), .running 7] 5 [] [] none) ?_
  refine .head (.finish [] [.finished (.ok 0)] 7 [.finished (placeOfThree 5)] [] none) ?_
  refine .head (.collect 0 [.finished (placeOfThree 7), .finished (placeOfThree 5)] []) ?_
  exact .single (.fail (.indexOutOfRange 7 3) [.finished (placeOfThree 5)] [0])

theorem overtaken_matches_serial :
    2 ≤ 2 ∧ Reaches placeOfThree 2 (Pool.initial [0, 7, 5]) overtaken ∧
      overtaken.outcome = some (.error (.indexOutOfRange 7 3)) ∧
      .error (.indexOutOfRange 7 3) = run none placeOfThree [0, 7, 5] := by
  have matched := (pool_matches_serial placeOfThree [0, 7, 5] 2 le_rfl).1 overtaken overtaken_reached
  exact ⟨le_rfl, overtaken_reached, rfl, matched.2.2 _ rfl⟩

end QuasiCut.Batch
