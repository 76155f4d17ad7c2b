import MallocLab.Driver.Measuring
import MallocLab.Driver.Reporting

/-! # What `main` prints for a package that follows an allocator

Every number and every error is determined by the traces and the allocator.
-/

namespace MallocLab.Driver

open Program

variable {Statics Heap : Type} {package : Package Statics} {allocator : Allocator Heap}
  {start : Machine Statics → Prop} {kind : Request → Prop}
  {Serves : Machine Statics → List (Nat × Nat) → Heap → Prop} {size : Heap → Nat}
  {trace : Trace} {ops : List TraceOp} {state : State Statics} {machine after : Machine Statics}
  {position final : Position Heap} {i : Nat}

namespace Allocator

variable (allocator : Allocator Heap)

/-- The error of a trace, if it has one. -/
def objection (tracenum : Nat) (trace : Trace) : Option Report :=
  match allocator.judge 0 allocator.start trace.ops with
  | .ok _ => none
  | .error (i, message) => some ⟨tracenum, lineNum i, .text message⟩

/-- The errors of the traces from the `i`-th on. -/
def objections (i : Nat) : List Loaded → List Report
  | [] => []
  | loaded :: rest =>
      (allocator.objection i loaded.trace).toList ++ objections (i + 1) rest

/-- The statistics of a trace, where heaps have sizes. -/
def Grades (size : Heap → Nat) (trace : Trace) (stats : Stats) : Prop :=
  stats.ops = trace.ops.length ∧
    match allocator.judge 0 allocator.start trace.ops with
    | .ok final => stats.valid = 1 ∧ ∃ most, stats.util = some (most, size final.heap) ∧
        IsGreatest (prefixTotals trace.numIds trace.ops) most ∧ most ≤ size final.heap
    | .error _ => stats.valid = 0 ∧ stats.util = none

variable {allocator}

/-- A trace without an objection is replayed to its end. -/
theorem replay_of_judge (judged : allocator.judge i position ops = .ok final) :
    allocator.replay position ops = some final := by
  induction ops generalizing i position with
  | nil =>
      cases judged
      rfl
  | cons op ops induction =>
      rw [judge] at judged
      rw [replay, List.foldlM_cons]
      cases checked : allocator.check position op with
      | error message =>
          rw [checked] at judged
          cases judged
      | ok next =>
          rw [checked] at judged
          have served : allocator.serve position op = some next := by
            unfold check at checked
            cases outcome : allocator.serve position op with
            | none => simp [outcome] at checked
            | some reached =>
                simp only [outcome] at checked
                split at checked <;> cases checked
                rfl
          rw [served]
          exact induction judged

end Allocator

/-! ## One trace -/

section Main

variable (follows : Follows package allocator start kind Serves)
  (restart : ∀ {machine after : Machine Statics}, start machine → Extends machine after →
    start (after.setBrk after.memStartBrk))
  (sizes : ∀ {machine : Machine Statics} {live : List (Nat × Nat)} {heap : Heap},
    Serves machine live heap → machine.heapLength = size heap)

/-- The arena is there, and resetting the heap makes it ready. -/
structure Ready (start : Machine Statics → Prop) (machine : Machine Statics) : Prop where
  arena : Arena machine
  start : start (machine.setBrk machine.memStartBrk)

include restart in
theorem Ready.extend (ready : Ready start machine)
    (growth : Extends (machine.setBrk machine.memStartBrk) after) : Ready start after where
  arena := growth.arena ⟨ready.arena.positive, Nat.le_refl _, ready.arena.arena,
    ready.arena.addressable, ready.arena.ordered.trans ready.arena.bounded⟩
  start := restart ready.start growth

include follows restart

theorem Follows.ftimerGettod (ready : Ready start state.machine) (formed : trace.WellFormed)
    (kinds : ∀ op ∈ trace.ops, ∀ blocks, kind (op.call blocks))
    (served : allocator.replay allocator.start trace.ops = some final) (n : Nat) :
    Ensures (ftimerGettod (Driver.evalMmSpeed package trace) n) state fun timed after =>
      timed = true ∧ Ready start after.machine := by
  induction n generalizing state with
  | zero =>
      rw [Driver.ftimerGettod, ensures_pure]
      exact ⟨rfl, ready⟩
  | succ n induction =>
      rw [Driver.ftimerGettod, ensures_bind]
      refine (follows.evalMmSpeed ready.start formed kinds).mono fun passed middle run => ?_
      rw [served] at run
      rw [if_pos run.2.1]
      exact induction (ready.extend restart run.1)

include sizes

/-- One round of the loop of `main`. -/
theorem Follows.evalTrace (loaded : Loaded) (ready : Ready start state.machine)
    (formed : loaded.trace.WellFormed)
    (kinds : ∀ op ∈ loaded.trace.ops, ∀ blocks, kind (op.call blocks)) :
    Ensures (Driver.evalTrace package i loaded) state fun result after =>
      (∃ stats, result = some stats ∧ allocator.Grades size loaded.trace stats) ∧
        Ready start after.machine ∧
        after.errors = (allocator.objection i loaded.trace).toList ++ state.errors := by
  have loadedReady : Ready start ({ state with
      blocks := loaded.blocks, blockSizes := loaded.blockSizes } : State Statics).machine := ready
  rw [Driver.evalTrace, ensures_bind, ensures_change, ensures_bind]
  refine (follows.evalMmValid loadedReady.arena loadedReady.start formed kinds i).mono
    fun valid middle => ?_
  rintro ⟨growth, judged⟩
  have checked : Ready start middle.machine := ready.extend restart growth
  unfold Judged at judged
  unfold Allocator.Grades Allocator.objection
  cases verdict : allocator.judge 0 allocator.start loaded.trace.ops with
  | error objection =>
      rw [verdict] at judged
      rcases judged with ⟨rfl, errors⟩
      rw [if_pos rfl, ensures_pure]
      exact ⟨⟨_, rfl, rfl, rfl, rfl⟩, checked, errors⟩
  | ok final =>
      rw [verdict] at judged
      rcases judged with ⟨rfl, errors, _⟩
      have replayed := Allocator.replay_of_judge verdict
      rw [if_neg one_ne_zero, ensures_bind]
      refine ((follows.evalMmUtil checked.arena checked.start formed kinds).and_allows
        (spares_evalMmUtil middle)).mono fun result later => ?_
      rw [replayed]
      rintro ⟨⟨grown, most, payload, rfl, greatest, fits, carries⟩, silent⟩
      have measured : Ready start later.machine := checked.extend restart grown
      have heapSize := sizes carries.serves
      simp only [ensures_bind]
      refine ((follows.ftimerGettod restart measured formed kinds replayed 10).and_allows
        (spares_ftimerGettod spares_evalMmSpeed 10 later)).mono fun timed after => ?_
      rintro ⟨⟨rfl, timed⟩, quiet⟩
      rw [if_pos rfl, ensures_pure]
      refine ⟨⟨_, rfl, rfl, rfl, most, by rw [heapSize], greatest, heapSize ▸ fits⟩, timed, ?_⟩
      exact quiet.trans (silent.trans errors)

/-- The loop of `main`. -/
theorem Follows.evalTraces (traces : List Loaded) (ready : Ready start state.machine)
    (formed : ∀ loaded ∈ traces, loaded.trace.WellFormed)
    (kinds : ∀ loaded ∈ traces, ∀ op ∈ loaded.trace.ops, ∀ blocks, kind (op.call blocks)) :
    Ensures (Driver.evalTraces package i traces) state fun result after =>
      (∃ stats, result = some stats ∧ List.Forall₂ (fun (loaded : Loaded) stat =>
        allocator.Grades size loaded.trace stat) traces stats) ∧
        after.errors = (allocator.objections i traces).reverse ++ state.errors := by
  induction traces generalizing i state with
  | nil =>
      rw [Driver.evalTraces, ensures_pure]
      exact ⟨⟨[], rfl, .nil⟩, rfl⟩
  | cons loaded rest induction =>
      rw [List.forall_mem_cons] at formed kinds
      rw [Driver.evalTraces, ensures_bind]
      refine (follows.evalTrace restart sizes loaded ready formed.1 kinds.1).mono
        fun result middle => ?_
      rintro ⟨⟨stats, rfl, grades⟩, later, errors⟩
      rw [ensures_bind]
      refine (induction later formed.2 kinds.2).mono fun result after => ?_
      rintro ⟨⟨others, rfl, graded⟩, reported⟩
      rw [ensures_pure]
      refine ⟨⟨stats :: others, rfl, .cons grades graded⟩, ?_⟩
      rw [reported, errors, Allocator.objections, List.reverse_append, List.append_assoc]
      congr 2
      cases allocator.objection i loaded.trace <;> rfl

/-- With a package that follows an allocator, `main` comes to its end on
well-formed traces, with the statistics and the errors of the allocator. -/
theorem Follows.main (traces : List Loaded) (ready : Ready start state.machine)
    (noErrors : state.errors = []) (formed : ∀ loaded ∈ traces, loaded.trace.WellFormed)
    (kinds : ∀ loaded ∈ traces, ∀ op ∈ loaded.trace.ops, ∀ blocks, kind (op.call blocks)) :
    Ensures (Driver.main package traces) state fun result after =>
      after.errors.reverse = allocator.objections 0 traces ∧
        ∃ stats, List.Forall₂ (fun (loaded : Loaded) stat =>
          allocator.Grades size loaded.trace stat) traces stats ∧
          result = some (summary stats (allocator.objections 0 traces).length) := by
  rw [Driver.main, ensures_bind]
  refine (follows.evalTraces restart sizes traces ready formed kinds).mono fun result after => ?_
  rintro ⟨⟨stats, rfl, graded⟩, errors⟩
  rw [noErrors, List.append_nil] at errors
  simp only [ensures_bind, ensures_view, ensures_pure]
  refine ⟨by rw [errors, List.reverse_reverse], stats, graded, ?_⟩
  rw [errors, List.length_reverse]

end Main

end MallocLab.Driver
