import MallocLab.Driver.Results

/-! # Packages that start anew at rest

What a package keeps beside its heap outlasts `mem_reset_brk`. A package may need
this to be as it was at first, and find it so only when no block is live. Traces
that are served and give up every block leave it at rest.
-/

namespace MallocLab.Driver

open Program

variable {Statics Heap : Type} {package : Package Statics} {allocator : Allocator Heap}
  {start : Machine Statics → Prop} {kind : Request → Prop}
  {Serves : Machine Statics → List (Nat × Nat) → Heap → Prop} {trace : Trace}
  {state : State Statics} {machine after : Machine Statics} {position final : Position Heap}
  {traces : List Loaded} {size : Heap → Nat} {longest i : Nat}

/-- The allocator finds no fault with a trace that gives up every block, and the
last heap is not longer than `longest`. -/
structure Settles (allocator : Allocator Heap) (size : Heap → Nat) (longest : Nat)
    (trace : Trace) : Prop where
  formed : trace.WellFormed
  passes : ∃ final, allocator.judge 0 allocator.start trace.ops = .ok final ∧
    size final.heap ≤ longest
  balanced : idsBehind [] trace.ops = []

/-- The statistics of a trace without an error. -/
structure Measured (longest : Nat) (trace : Trace) (stats : Stats) : Prop where
  ops : stats.ops = trace.ops.length
  valid : stats.valid = 1
  util : ∃ (most : Int) (heapsize : Nat), stats.util = some (most, heapsize) ∧
    IsGreatest (prefixTotals trace.numIds trace.ops) most ∧ most ≤ heapsize ∧ heapsize ≤ longest

section Main

variable (follows : Follows package allocator start kind Serves)
  (rest : ∀ {machine : Machine Statics} {heap : Heap}, Serves machine [] heap →
    start (machine.setBrk machine.memStartBrk))
  (sized : ∀ {machine : Machine Statics} {live : List (Nat × Nat)} {heap : Heap},
    Serves machine live heap → machine.heapLength ≤ size heap)

include rest

/-- With no block live the package is ready again. -/
theorem Ready.atRest {heap : Heap} (ready : Ready start machine)
    (growth : Extends (machine.setBrk machine.memStartBrk) after) (serves : Serves after [] heap) :
    Ready start after where
  arena := growth.arena ⟨ready.arena.positive, Nat.le_refl _, ready.arena.arena,
    ready.arena.addressable, ready.arena.ordered.trans ready.arena.bounded⟩
  start := rest serves

include follows

theorem Follows.rest_ftimerGettod (ready : Ready start state.machine)
    (settles : Settles allocator size longest trace)
    (kinds : ∀ op ∈ trace.ops, ∀ blocks, kind (op.call blocks))
    (n : Nat) :
    Ensures (Driver.ftimerGettod (Driver.evalMmSpeed package trace) n) state fun timed after =>
      timed = true ∧ Ready start after.machine := by
  rcases settles.passes with ⟨final, judged, _⟩
  have replayed := Allocator.replay_of_judge judged
  induction n generalizing state with
  | zero =>
      rw [Driver.ftimerGettod, ensures_pure]
      exact ⟨rfl, ready⟩
  | succ n induction =>
      rw [Driver.ftimerGettod, ensures_bind]
      refine (follows.evalMmSpeed ready.start settles.formed kinds).mono fun passed middle run => ?_
      rw [replayed, settles.balanced] at run
      rcases run with ⟨growth, rfl, payload, carries⟩
      rw [if_pos rfl]
      exact induction (ready.atRest rest growth carries.serves)

include sized

/-- One round of the loop of `main`, from rest to rest. -/
theorem Follows.rest_evalTrace (loaded : Loaded) (ready : Ready start state.machine)
    (settles : Settles allocator size longest loaded.trace)
    (kinds : ∀ op ∈ loaded.trace.ops, ∀ blocks, kind (op.call blocks)) :
    Ensures (Driver.evalTrace package i loaded) state fun result after =>
      (∃ stats, result = some stats ∧ Measured longest loaded.trace stats) ∧
        Ready start after.machine ∧ after.errors = state.errors := by
  have loadedReady : Ready start ({ state with
      blocks := loaded.blocks, blockSizes := loaded.blockSizes } : State Statics).machine := ready
  rcases settles.passes with ⟨final, verdict, short⟩
  rw [Driver.evalTrace, ensures_bind, ensures_change, ensures_bind]
  refine (follows.evalMmValid loadedReady.arena loadedReady.start settles.formed kinds i).mono
    fun valid middle => ?_
  rw [verdict, settles.balanced]
  rintro ⟨growth, rfl, errors, live, stands⟩
  obtain rfl : live = [] := stands.holds.remembers.blocks
  have checked : Ready start middle.machine := ready.atRest rest growth stands.serves
  rw [if_neg one_ne_zero, ensures_bind]
  refine ((follows.evalMmUtil checked.arena checked.start settles.formed kinds).and_allows
    (spares_evalMmUtil middle)).mono fun result later => ?_
  rw [Allocator.replay_of_judge verdict, settles.balanced]
  rintro ⟨⟨grown, most, payload, rfl, greatest, fits, carries⟩, silent⟩
  have measured : Ready start later.machine := checked.atRest rest grown carries.serves
  simp only [ensures_bind]
  refine ((follows.rest_ftimerGettod rest measured settles kinds 10).and_allows
    (spares_ftimerGettod spares_evalMmSpeed 10 later)).mono fun timed after => ?_
  rintro ⟨⟨rfl, timed⟩, quiet⟩
  rw [if_pos rfl, ensures_pure]
  have bounded := (sized carries.serves).trans short
  refine ⟨⟨_, rfl, rfl, rfl, most, _, rfl, greatest, fits, bounded⟩, timed, ?_⟩
  exact quiet.trans (silent.trans errors)

/-- The loop of `main`. -/
theorem Follows.rest_evalTraces (ready : Ready start state.machine)
    (settles : ∀ loaded ∈ traces, Settles allocator size longest loaded.trace)
    (kinds : ∀ loaded ∈ traces, ∀ op ∈ loaded.trace.ops, ∀ blocks, kind (op.call blocks)) :
    Ensures (Driver.evalTraces package i traces) state fun result after =>
      (∃ stats, result = some stats ∧ List.Forall₂ (fun (loaded : Loaded) stat =>
        Measured longest loaded.trace stat) traces stats) ∧
        after.errors = state.errors := by
  induction traces generalizing i state with
  | nil =>
      rw [Driver.evalTraces, ensures_pure]
      exact ⟨⟨[], rfl, .nil⟩, rfl⟩
  | cons loaded others induction =>
      rw [List.forall_mem_cons] at settles kinds
      rw [Driver.evalTraces, ensures_bind]
      refine (follows.rest_evalTrace rest sized loaded ready settles.1 kinds.1).mono
        fun result middle => ?_
      rintro ⟨⟨stats, rfl, measured⟩, later, errors⟩
      rw [ensures_bind]
      refine (induction later settles.2 kinds.2).mono fun result after => ?_
      rintro ⟨⟨remaining, rfl, graded⟩, reported⟩
      rw [ensures_pure]
      exact ⟨⟨stats :: remaining, rfl, .cons measured graded⟩, reported.trans errors⟩

/-- `main` finds no fault with traces that settle, whatever the package does at
other times with what it keeps beside its heap. -/
theorem Follows.rest_main (ready : Ready start state.machine) (noErrors : state.errors = [])
    (settles : ∀ loaded ∈ traces, Settles allocator size longest loaded.trace)
    (kinds : ∀ loaded ∈ traces, ∀ op ∈ loaded.trace.ops, ∀ blocks, kind (op.call blocks)) :
    Ensures (Driver.main package traces) state fun result after => after.errors = [] ∧
      ∃ stats, List.Forall₂ (fun (loaded : Loaded) stat =>
        Measured longest loaded.trace stat) traces stats ∧ result = some (summary stats 0) := by
  rw [Driver.main, ensures_bind]
  refine (follows.rest_evalTraces rest sized ready settles kinds).mono fun result after => ?_
  rintro ⟨⟨stats, rfl, graded⟩, errors⟩
  simp only [ensures_bind, ensures_view, ensures_pure]
  rw [errors, noErrors]
  exact ⟨rfl, stats, graded, rfl⟩

end Main

end MallocLab.Driver
