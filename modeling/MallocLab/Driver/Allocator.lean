import MallocLab.Driver.Accounting

/-! # Packages that follow an allocator

What the driver finds out about a package depends only on the pointers the
package returns and on the bytes it leaves alone. So the driver is run here
once on any package that follows an allocator whose heaps are not in memory.
-/

namespace MallocLab.Driver

open Program

/-- An allocator on heaps of any kind: which pointer answers a request, if any,
and what becomes of the heap. Giving a block back is answered by none. -/
structure Allocator (Heap : Type) where
  initial : Heap
  next : Heap → Request → Option Nat × Heap

/-- A request about a block that is held. -/
def HeldBy (live : List (Nat × Nat)) (request : Request) : Prop :=
  ∀ ptr ∈ request.target?, ptr ∈ live.map Prod.fst

variable {Statics Heap : Type}

/-- A request as one function, where the result of `mm_free` is shown as the
null pointer. -/
def Package.answer (package : Package Statics) : Request → Program (Machine Statics) Nat
  | .malloc size => package.mmMalloc size
  | .free ptr => do
      package.mmFree ptr
      return null
  | .realloc ptr size => package.mmRealloc ptr size

/-- A package follows an allocator as long as the requests are of a certain
kind: it returns what the allocator returns, fulfils what is not refused, and
does not look at what clients store in their blocks. -/
structure Follows (package : Package Statics) (allocator : Allocator Heap)
    (start : Machine Statics → Prop) (kind : Request → Prop)
    (Serves : Machine Statics → List (Nat × Nat) → Heap → Prop) : Prop where
  init : ∀ {machine : Machine Statics}, start machine →
    Ensures package.mmInit machine fun value after => value = 0 ∧
      Serves after [] allocator.initial
  returns : ∀ {machine : Machine Statics} {live : List (Nat × Nat)} {heap : Heap}
    {request : Request}, Serves machine live heap → kind request → HeldBy live request →
    Ensures (package.answer request) machine fun result after =>
      result = (allocator.next heap request).1.getD null ∧
        Serves after (request.liveAfter live result) (allocator.next heap request).2
  fulfils : ∀ {machine : Machine Statics} {live : List (Nat × Nat)} {heap : Heap}
    {request : Request}, Serves machine live heap → kind request → HeldBy live request →
    ((allocator.next heap request).1 = none → ∃ ptr, request = .free ptr) →
    Fulfils package machine live request
  fill : ∀ {machine : Machine Statics} {live : List (Nat × Nat)} {heap : Heap} {p size : Nat}
    (value : UInt8), Serves machine live heap → (p, size) ∈ live →
    Serves (machine.fill p value size) live heap

/-! ## Replaying a trace on the heaps of an allocator -/

/-- The ids with a block after some operations. -/
def idsBehind (ids : List Nat) (ops : List TraceOp) : List Nat :=
  ops.foldl (fun ids op => op.idsAfter ids) ids

/-- The request an operation makes where the blocks are these. -/
def TraceOp.call (op : TraceOp) (blocks : Nat → Nat) : Request :=
  match op.type with
  | .alloc => .malloc (toSizeT op.size)
  | .free => .free (blocks op.index)
  | .realloc => .realloc (blocks op.index) (toSizeT op.size)

/-- How far a replay has come: the heap, and the array `blocks`. -/
structure Position (Heap : Type) where
  heap : Heap
  blocks : Nat → Nat

namespace Allocator

variable (allocator : Allocator Heap)

/-- Before the first operation no id has a block. -/
def start : Position Heap := ⟨allocator.initial, fun _ => null⟩

/-- The position after an operation, none where it is refused. -/
def serve (position : Position Heap) (op : TraceOp) : Option (Position Heap) :=
  let answer := allocator.next position.heap (op.call position.blocks)
  if op.type = .free then some ⟨answer.2, position.blocks⟩
  else answer.1.map fun p => ⟨answer.2, Function.update position.blocks op.index p⟩

/-- The position after all operations of a trace, none where one is refused. -/
def replay (position : Position Heap) (ops : List TraceOp) : Option (Position Heap) :=
  ops.foldlM allocator.serve position

/-- What the driver has to say about one operation: it was refused, or the
bytes that are compared are negative as `char`. -/
def check (position : Position Heap) (op : TraceOp) : Except String (Position Heap) :=
  match allocator.serve position op with
  | none => .error (if op.type = .alloc then "mm_malloc failed." else "mm_realloc failed.")
  | some next =>
      if op.type = .realloc ∧ 128 ≤ op.index % 256 then
        .error "mm_realloc did not preserve the data from old block"
      else .ok next

/-- What the driver has to say about a trace from its `i`-th operation on: the
number of the first operation it objects to and the message. -/
def judge : Nat → Position Heap → List TraceOp → Except (Nat × String) (Position Heap)
  | _, position, [] => .ok position
  | i, position, op :: ops =>
      match allocator.check position op with
      | .error message => .error (i, message)
      | .ok next => judge (i + 1) next ops

end Allocator

theorem Extends.refl (machine : Machine Statics) : Extends machine machine :=
  ⟨rfl, rfl, Nat.le_refl _, id⟩

theorem Extends.trans {machine middle after : Machine Statics} (first : Extends machine middle)
    (second : Extends middle after) : Extends machine after where
  memStartBrk := second.memStartBrk.trans first.memStartBrk
  memMaxAddr := second.memMaxAddr.trans first.memMaxAddr
  grows := first.grows.trans second.grows
  bounded inside := by
    have middleInside := first.bounded inside
    rw [← first.memMaxAddr] at middleInside ⊢
    exact second.bounded middleInside

theorem Extends.fill (machine : Machine Statics) (target : Nat) (value : UInt8) (count : Nat) :
    Extends machine (machine.fill target value count) :=
  ⟨rfl, rfl, Nat.le_refl _, id⟩

variable {allocator : Allocator Heap} {op : TraceOp} {position next : Position Heap}
  {ids : List Nat}

/-- A well-formed operation asks only for blocks of ids that have one. -/
theorem TraceOp.WellFormed.request_eq_call {numIds : Nat} {state : State Statics}
    {blocks : Nat → Nat} (formed : op.WellFormed numIds ids)
    (same : ∀ id ∈ ids, blocks id = state.blocks id) : op.request state = op.call blocks := by
  have checked := formed.2
  unfold TraceOp.request TraceOp.call
  cases type : op.type <;> simp only [type] at checked ⊢
  · rw [same op.index checked]
  · rw [same op.index checked.1]

theorem Allocator.serve_of_sized (sized : op.type ≠ .free) :
    allocator.serve position op = some next ↔
      ∃ p, (allocator.next position.heap (op.call position.blocks)).1 = some p ∧
        next = ⟨(allocator.next position.heap (op.call position.blocks)).2,
          Function.update position.blocks op.index p⟩ := by
  simp only [serve, if_neg sized, Option.map_eq_some_iff]
  exact exists_congr fun p => and_congr_right fun _ => eq_comm

theorem Allocator.serve_of_free (free : op.type = .free) :
    allocator.serve position op = some next ↔
      next = ⟨(allocator.next position.heap (op.call position.blocks)).2, position.blocks⟩ := by
  simp only [serve, if_pos free, Option.some.injEq]
  exact eq_comm

/-- Only requests for a block are refused. -/
theorem Allocator.serve_eq_none :
    allocator.serve position op = none ↔ op.type ≠ .free ∧
      (allocator.next position.heap (op.call position.blocks)).1 = none := by
  unfold serve
  by_cases free : op.type = .free <;> simp [free]

/-- Where an operation is served, only `mm_free` is answered by none. -/
theorem Allocator.free_of_none (served : allocator.serve position op = some next)
    (nothing : (allocator.next position.heap (op.call position.blocks)).1 = none) :
    ∃ ptr, op.call position.blocks = .free ptr := by
  by_cases free : op.type = .free
  · exact ⟨position.blocks op.index, by rw [TraceOp.call, free]⟩
  · cases served.symm.trans (Allocator.serve_eq_none.mpr ⟨free, nothing⟩)

theorem TraceOp.mem_of_mem_idsAfter {id : Nat} (member : id ∈ op.idsAfter ids)
    (different : id ≠ op.index) : id ∈ ids := by
  unfold TraceOp.idsAfter at member
  split at member
  · exact List.mem_of_ne_of_mem different member
  · exact List.mem_of_mem_erase (List.mem_of_ne_of_mem different member)
  · exact List.mem_of_mem_erase member

/-- Arrays that agree on the ids in use still do once both were updated. -/
theorem update_agrees {first second : Nat → Nat} (same : ∀ id ∈ ids, first id = second id)
    (p : Nat) : ∀ id ∈ op.idsAfter ids,
      Function.update first op.index p id = Function.update second op.index p id := by
  intro id member
  by_cases here : id = op.index
  · rw [here, Function.update_self, Function.update_self]
  · rw [Function.update_of_ne here, Function.update_of_ne here]
    exact same id (TraceOp.mem_of_mem_idsAfter member here)

end MallocLab.Driver
