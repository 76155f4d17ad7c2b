import MallocLab.Driver.Linked
import MallocLab.Driver.Results
import MallocLab.Explicit.Equivalence
import MallocLab.Implicit.Init
import MallocLab.Segregated.Init

/-! # The driver and the packages of the repository

What `main` prints when it is linked with each of the packages that keep
boundary tags.
-/

namespace MallocLab.Driver

open Program Blocks

variable {Statics Index : Type} {package : Procedures Statics Index}
  {interface : Interface Statics} {empty : Index} {machine after : Machine Statics}
  {state : State Statics} {traces : List Loaded} {trace : Trace} {start numIds : Nat}
  {ids : List Nat} {ops : List TraceOp} {op : TraceOp}

/-- The bytes of a heap. -/
def heapSize (package : Procedures Statics Index) (layout : Layout Index) : Nat :=
  8 + package.prologue.size + total layout.blocks

/-- A trace whose requests extend no heap of the arena beyond the address space. -/
def Trace.Addressable (trace : Trace) (start : Nat) : Prop :=
  ∀ op ∈ trace.ops, op.type ≠ .free → start + maxHeap + extension op.size.toNat < 2 ^ 32

/-- `mem_init` took an aligned arena, and there are no errors so far. -/
structure Begun (state : State Statics) : Prop where
  arena : Arena state.machine
  aligned : state.machine.memStartBrk % 8 = 0
  noErrors : state.errors = []

/-- Every operation of a trace is well formed for the ids in use before it. -/
theorem WellFormedFrom.each (formed : WellFormedFrom numIds ids ops) (member : op ∈ ops) :
    ∃ ids, op.WellFormed numIds ids := by
  induction ops generalizing ids with
  | nil => cases member
  | cons first rest induction =>
      rcases List.mem_cons.mp member with rfl | later
      · exact ⟨ids, formed.1⟩
      · exact induction formed.2 later

theorem WellFormedFrom.positive (formed : WellFormedFrom numIds ids ops) :
    ∀ op ∈ ops, op.type ≠ .free → 1 ≤ op.size := by
  intro op member sized
  rcases formed.each member with ⟨ids, _, checked⟩
  cases type : op.type with
  | alloc =>
      simp only [type] at checked
      exact checked.2
  | free => exact absurd type sized
  | realloc =>
      simp only [type] at checked
      exact checked.2

theorem Trace.Addressable.supported (addressable : trace.Addressable start)
    (formed : trace.WellFormed)
    (resizes : ∀ op ∈ trace.ops, op.type = .realloc → interface.mmRealloc = package.mmRealloc) :
    ∀ op ∈ trace.ops, ∀ blocks, Supported package interface start (op.call blocks) := by
  intro op member blocks
  have sized : op.type ≠ .free → toSizeT op.size < 2 ^ 31 ∧
      start + maxHeap + extension (toSizeT op.size) < 2 ^ 32 := by
    intro sized
    have positive := formed.positive op member sized
    have same : toSizeT op.size = op.size.toNat ∧ _ := toSizeT_size (by omega)
    rw [same.1]
    exact ⟨same.1 ▸ same.2.2, addressable op member sized⟩
  unfold TraceOp.call
  cases type : op.type with
  | alloc => exact ⟨sized (by simp [type]), nofun⟩
  | free => exact ⟨trivial, nofun⟩
  | realloc => exact ⟨sized (by simp [type]), fun _ => resizes op member type⟩

theorem restart_empty (ready : machine.Empty ∧ machine.memStartBrk = start)
    (growth : Extends machine after) :
    (after.setBrk after.memStartBrk).Empty ∧
      (after.setBrk after.memStartBrk).memStartBrk = start := by
  rcases ready with ⟨isEmpty, rfl⟩
  refine ⟨⟨?_, ?_, rfl, ?_, ?_⟩, growth.memStartBrk⟩
  · exact growth.memStartBrk ▸ isEmpty.positive
  · exact growth.memStartBrk ▸ isEmpty.startAligned
  · change after.memMaxAddr = after.memStartBrk + maxHeap
    rw [growth.memMaxAddr, growth.memStartBrk, isEmpty.arena]
  · exact growth.memMaxAddr ▸ isEmpty.addressable

theorem ServesAt.heapLength {live : List (Nat × Nat)} {layout : Layout Index}
    (serves : ServesAt package start machine live layout) :
    machine.heapLength = heapSize package layout := by
  have extent := serves.2.holds.extent
  unfold Machine.heapLength heapSize
  simp only at extent
  omega

/-- `main`, linked with a package of the shared procedures. -/
theorem linked_main (correct : package.Correct) (exposes : package.Exposes interface empty)
    (begun : Begun state) (formed : ∀ loaded ∈ traces, loaded.trace.WellFormed)
    (addressable : ∀ loaded ∈ traces, loaded.trace.Addressable state.machine.memStartBrk)
    (resizes : ∀ loaded ∈ traces, ∀ op ∈ loaded.trace.ops, op.type = .realloc →
      interface.mmRealloc = package.mmRealloc) :
    Ensures (main (linked interface) traces) state fun result after =>
      let allocator := arenaAllocator package state.machine.memStartBrk empty
      after.errors.reverse = allocator.objections 0 traces ∧
        ∃ stats, List.Forall₂ (fun (loaded : Loaded) stat =>
          allocator.Grades (heapSize package) loaded.trace stat) traces stats ∧
          result = some (summary stats (allocator.objections 0 traces).length) := by
  have ready : Ready (fun machine => machine.Empty ∧
      machine.memStartBrk = state.machine.memStartBrk) state.machine :=
    ⟨begun.arena, ⟨begun.arena.positive, begun.aligned, rfl, begun.arena.arena,
      begun.arena.addressable⟩, rfl⟩
  exact (linked_follows correct exposes _).main restart_empty ServesAt.heapLength traces ready
    begun.noErrors formed fun loaded member =>
      (addressable loaded member).supported (formed loaded member) (resizes loaded member)

/-! ## `mm.c` -/

/-- Linked with `mm.c`, `main` comes to its end on well-formed traces whose requests
would not extend the arena beyond the address space. What it prints is what the last-in first-out allocator on sequences of blocks gives: a
trace is correct unless the allocator refuses one of its requests or a block of
an id whose low byte is 128 or more is resized, and the utilization of a correct
trace is the greatest sum of its live sizes over the bytes of the last heap. -/
theorem mm_main {state : State Mm.Statics} (begun : Begun state)
    (formed : ∀ loaded ∈ traces, loaded.trace.WellFormed)
    (addressable : ∀ loaded ∈ traces, loaded.trace.Addressable state.machine.memStartBrk) :
    Ensures (main (linked Mm.interface) traces) state fun result after =>
      let allocator := arenaAllocator Mm.procedures state.machine.memStartBrk []
      after.errors.reverse = allocator.objections 0 traces ∧
        ∃ stats, List.Forall₂ (fun (loaded : Loaded) stat =>
          allocator.Grades (heapSize Mm.procedures) loaded.trace stat) traces stats ∧
          result = some (summary stats (allocator.objections 0 traces).length) :=
  linked_main Mm.correct Mm.exposes begun formed addressable fun _ _ _ _ _ => rfl

/-- An eight-byte block that is resized, for an id with a low byte below 128
and for one with a low byte of 128. -/
def resizedTraces : List Loaded :=
  [⟨resizeOnce 0, fun _ => 0, fun _ => 0⟩, ⟨resizeOnce 128, fun _ => 0, fun _ => 0⟩]

theorem resizedTraces_wellFormed : ∀ loaded ∈ resizedTraces, loaded.trace.WellFormed := by
  intro loaded member
  simp only [resizedTraces, List.mem_cons, List.not_mem_nil, or_false] at member
  rcases member with rfl | rfl <;> exact resizeOnce_wellFormed _

theorem resizedTraces_addressable : ∀ loaded ∈ resizedTraces, loaded.trace.Addressable 8 := by
  intro loaded member
  simp only [resizedTraces, List.mem_cons, List.not_mem_nil, or_false] at member
  rcases member with rfl | rfl <;>
    · intro op listed _
      simp only [resizeOnce, List.mem_cons, List.not_mem_nil, or_false] at listed
      rcases listed with rfl | rfl <;> decide

/-- The driver before the first trace, linked with a package. -/
def outset (statics : Statics) : State Statics :=
  ⟨memInit 8 (fun _ => 0) statics, [], fun _ => 0, fun _ => 0, []⟩

theorem outset_begun (statics : Statics) : Begun (outset statics) where
  arena := by
    have top : wrap (8 + maxHeap) = 8 + maxHeap := by decide
    refine ⟨Nat.succ_pos 7, Nat.le_refl 8, top, ?_, ?_⟩
    · change wrap (8 + maxHeap) < 2 ^ 32
      decide
    · change 8 ≤ wrap (8 + maxHeap)
      decide
  aligned := by
    change 8 % 8 = 0
    rfl
  noErrors := rfl

theorem mm_main_resized :
    Ensures (main (linked Mm.interface) resizedTraces) (outset ⟨0⟩) fun result after =>
      let allocator := arenaAllocator Mm.procedures 8 []
      after.errors.reverse = allocator.objections 0 resizedTraces ∧
        ∃ stats, List.Forall₂ (fun (loaded : Loaded) stat =>
          allocator.Grades (heapSize Mm.procedures) loaded.trace stat) resizedTraces stats ∧
          result = some (summary stats (allocator.objections 0 resizedTraces).length) :=
  mm_main (outset_begun _) resizedTraces_wellFormed resizedTraces_addressable

/-! ## `refer.c` -/

theorem Allocator.Grades.unique {Heap : Type} {allocator : Allocator Heap} {size : Heap → Nat}
    {first second : Stats} (left : allocator.Grades size trace first)
    (right : allocator.Grades size trace second) : first = second := by
  rcases first with ⟨ops, valid, util⟩
  rcases second with ⟨otherOps, otherValid, otherUtil⟩
  rcases left with ⟨rfl, graded⟩
  rcases right with ⟨rfl, otherGraded⟩
  cases verdict : allocator.judge 0 allocator.start trace.ops with
  | error objection =>
      rw [verdict] at graded otherGraded
      rcases graded with ⟨rfl, rfl⟩
      rcases otherGraded with ⟨rfl, rfl⟩
      rfl
  | ok final =>
      rw [verdict] at graded otherGraded
      rcases graded with ⟨rfl, most, rfl, greatest, _⟩
      rcases otherGraded with ⟨rfl, other, rfl, otherGreatest, _⟩
      rw [greatest.unique otherGreatest]

theorem grades_unique {Heap : Type} {allocator : Allocator Heap} {size : Heap → Nat}
    {first second : List Stats}
    (left : List.Forall₂ (fun (loaded : Loaded) stat =>
      allocator.Grades size loaded.trace stat) traces first)
    (right : List.Forall₂ (fun (loaded : Loaded) stat =>
      allocator.Grades size loaded.trace stat) traces second) : first = second := by
  induction left generalizing second with
  | nil =>
      cases right
      rfl
  | cons grades _ induction =>
      cases right with
      | cons others rest => rw [grades.unique others, induction rest]

/-- On well-formed traces whose requests would not extend the arena beyond the
address space, `main` prints the same numbers and the same errors whether it is
linked with `mm.c` or with `refer.c`, in arenas with one address. -/
theorem mm_refer_main {state : State Mm.Statics} {other : State Refer.Statics}
    (begun : Begun state) (otherBegun : Begun other)
    (same : other.machine.memStartBrk = state.machine.memStartBrk)
    (formed : ∀ loaded ∈ traces, loaded.trace.WellFormed)
    (addressable : ∀ loaded ∈ traces, loaded.trace.Addressable state.machine.memStartBrk) :
    ∃ result after otherAfter,
      main (linked Mm.interface) traces state = some (some result, after) ∧
      main (linked Refer.interface) traces other = some (some result, otherAfter) ∧
      otherAfter.errors = after.errors := by
  rcases linked_main Mm.correct Mm.exposes begun formed addressable (fun _ _ _ _ _ => rfl) with
    ⟨_, after, outcome, errors, stats, graded, rfl⟩
  rcases linked_main Refer.correct Refer.exposes otherBegun formed (same ▸ addressable)
    (fun _ _ _ _ _ => rfl) with ⟨_, otherAfter, returned, reported, others, regraded, rfl⟩
  have alike : arenaAllocator Refer.procedures other.machine.memStartBrk [] =
      arenaAllocator Mm.procedures state.machine.memStartBrk [] := by
    rw [same]
    rfl
  simp only [alike] at returned reported regraded
  have equal := grades_unique graded regraded
  refine ⟨_, after, otherAfter, outcome, equal ▸ returned, ?_⟩
  exact List.reverse_injective (reported.trans errors.symm)

theorem mm_refer_main_resized : ∃ result after otherAfter,
    main (linked Mm.interface) resizedTraces (outset ⟨0⟩) = some (some result, after) ∧
      main (linked Refer.interface) resizedTraces (outset ⟨0⟩) = some (some result, otherAfter) ∧
      otherAfter.errors = after.errors :=
  mm_refer_main (outset_begun _) (outset_begun _) rfl resizedTraces_wellFormed
    resizedTraces_addressable

/-! ## `implicit-54.c` -/

/-- Linked with `implicit-54.c`, `main` prints what the allocator gives that
takes the lowest free block that is large enough, on the same traces. -/
theorem implicit_main {state : State Implicit.Statics} (begun : Begun state)
    (formed : ∀ loaded ∈ traces, loaded.trace.WellFormed)
    (addressable : ∀ loaded ∈ traces, loaded.trace.Addressable state.machine.memStartBrk) :
    Ensures (main (linked Implicit.interface) traces) state fun result after =>
      let allocator := arenaAllocator Implicit.procedures state.machine.memStartBrk []
      after.errors.reverse = allocator.objections 0 traces ∧
        ∃ stats, List.Forall₂ (fun (loaded : Loaded) stat =>
          allocator.Grades (heapSize Implicit.procedures) loaded.trace stat) traces stats ∧
          result = some (summary stats (allocator.objections 0 traces).length) :=
  linked_main Implicit.correct Implicit.exposes begun formed addressable fun _ _ _ _ _ => rfl

theorem implicit_main_resized :
    Ensures (main (linked Implicit.interface) resizedTraces) (outset ⟨0⟩) fun result after =>
      let allocator := arenaAllocator Implicit.procedures 8 []
      after.errors.reverse = allocator.objections 0 resizedTraces ∧
        ∃ stats, List.Forall₂ (fun (loaded : Loaded) stat =>
          allocator.Grades (heapSize Implicit.procedures) loaded.trace stat) resizedTraces stats ∧
          result = some (summary stats (allocator.objections 0 resizedTraces).length) :=
  implicit_main (outset_begun _) resizedTraces_wellFormed resizedTraces_addressable

/-! ## `segregated_list-85.c` -/

/-- Linked with `segregated_list-85.c`, whose `mm_realloc` is one of its own,
`main` prints what the allocator with one list for each group of sizes gives
for those of these traces that resize no block. -/
theorem segregated_main {state : State Segregated.Statics} (begun : Begun state)
    (formed : ∀ loaded ∈ traces, loaded.trace.WellFormed)
    (addressable : ∀ loaded ∈ traces, loaded.trace.Addressable state.machine.memStartBrk)
    (resizes : ∀ loaded ∈ traces, ∀ op ∈ loaded.trace.ops, op.type ≠ .realloc) :
    Ensures (main (linked Segregated.interface) traces) state fun result after =>
      let allocator := arenaAllocator Segregated.procedures state.machine.memStartBrk fun _ => []
      after.errors.reverse = allocator.objections 0 traces ∧
        ∃ stats, List.Forall₂ (fun (loaded : Loaded) stat =>
          allocator.Grades (heapSize Segregated.procedures) loaded.trace stat) traces stats ∧
          result = some (summary stats (allocator.objections 0 traces).length) :=
  linked_main Segregated.correct Segregated.exposes begun formed addressable
    fun loaded member op listed type => absurd type (resizes loaded member op listed)

/-- Blocks of two groups are given up, and smaller ones are asked for. -/
def reusedTrace : Trace where
  numIds := 5
  ops := [allocOp 0 100 (by decide), allocOp 1 40 (by decide), allocOp 2 1000 (by decide), freeOp 0,
    freeOp 2, allocOp 3 900 (by decide), allocOp 4 60 (by decide), freeOp 1, freeOp 3, freeOp 4]

theorem segregated_main_reused :
    Ensures (main (linked Segregated.interface) [⟨reusedTrace, fun _ => 0, fun _ => 0⟩])
      (outset ⟨fun _ => 0⟩) fun result after =>
        let allocator := arenaAllocator Segregated.procedures 8 fun _ => []
        after.errors.reverse =
            allocator.objections 0 [⟨reusedTrace, fun _ => 0, fun _ => 0⟩] ∧
          ∃ stats, List.Forall₂ (fun (loaded : Loaded) stat =>
            allocator.Grades (heapSize Segregated.procedures) loaded.trace stat)
              [⟨reusedTrace, fun _ => 0, fun _ => 0⟩] stats ∧
            result = some (summary stats
              (allocator.objections 0 [⟨reusedTrace, fun _ => 0, fun _ => 0⟩]).length) := by
  have formed : reusedTrace.WellFormed := by
    simp [reusedTrace, Trace.WellFormed, WellFormedFrom, TraceOp.WellFormed, TraceOp.idsAfter,
      allocOp, freeOp]
  have addressable : reusedTrace.Addressable 8 := by
    have all : ∀ op ∈ reusedTrace.ops,
        8 + maxHeap + extension op.size.toNat < 2 ^ 32 := by decide
    exact fun op listed _ => all op listed
  have sized : ∀ op ∈ reusedTrace.ops, op.type ≠ .realloc := by decide
  refine segregated_main (outset_begun _) ?_ ?_ ?_ <;>
    · intro loaded member
      obtain rfl := List.mem_singleton.mp member
      assumption

end MallocLab.Driver
