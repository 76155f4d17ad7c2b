import MallocLab.Driver.Allocator

/-! # The verdict of `eval_mm_valid`

With a package that follows an allocator, what the driver returns and prints
for a well-formed trace is read off the allocator alone.
-/

namespace MallocLab.Driver

open Program

variable {Statics Heap : Type} {package : Package Statics} {allocator : Allocator Heap}
  {start : Machine Statics → Prop} {kind : Request → Prop}
  {Serves : Machine Statics → List (Nat × Nat) → Heap → Prop}
  {trace : Trace} {op : TraceOp} {before : State Statics} {position next : Position Heap}
  {ids : List Nat} {live : List (Nat × Nat)} {tracenum i : Nat}

/-! ## One operation -/

/-- What the driver knows and what the package represents are one position. -/
structure Stands (Serves : Machine Statics → List (Nat × Nat) → Heap → Prop)
    (state : State Statics) (ids : List Nat) (live : List (Nat × Nat))
    (position : Position Heap) : Prop where
  holds : Holds state ids live
  serves : Serves state.machine live position.heap
  blocks : ∀ id ∈ ids, position.blocks id = state.blocks id

/-- The driver only gives up or resizes blocks it has. -/
theorem Stands.held (stands : Stands Serves before ids live position)
    (formed : op.WellFormed trace.numIds ids) : HeldBy live (op.call position.blocks) := by
  have known : op.index ∈ ids → before.blocks op.index ∈ live.map Prod.fst := fun member =>
    List.mem_map_of_mem (stands.holds.remembers.mem member)
  have checked := formed.2
  rw [← formed.request_eq_call stands.blocks]
  unfold HeldBy TraceOp.request
  cases type : op.type <;> simp only [type] at checked
  · exact fun _ given => by cases given
  · exact fun _ given => by cases given; exact known checked
  · exact fun _ given => by cases given; exact known checked.1

variable (follows : Follows package allocator start kind Serves)
  (stands : Stands Serves before ids live position)
  (formed : op.WellFormed trace.numIds ids) (kinds : kind (op.call position.blocks))

include follows stands formed kinds

/-- What the package returns for the request of an operation. -/
theorem Stands.returns :
    Ensures (package.answer (op.request before)) before.machine fun result after =>
      result = (allocator.next position.heap (op.call position.blocks)).1.getD null ∧
        Serves after ((op.request before).liveAfter live result)
          (allocator.next position.heap (op.call position.blocks)).2 := by
  have answered := follows.returns stands.serves kinds (stands.held formed)
  rwa [formed.request_eq_call stands.blocks]

/-- What is not refused is fulfilled. -/
theorem Stands.fulfils (served : allocator.serve position op = some next) :
    Fulfils package before.machine live (op.request before) := by
  rw [formed.request_eq_call stands.blocks]
  exact follows.fulfils stands.serves kinds (stands.held formed)
    (Allocator.free_of_none served)

/-! ### Operations that pass -/

/-- What is left of an operation that passed. -/
structure Passes (Serves : Machine Statics → List (Nat × Nat) → Heap → Prop) (op : TraceOp)
    (ids : List Nat) (live : List (Nat × Nat)) (before after : State Statics)
    (next : Position Heap) : Prop where
  stands : Stands Serves after (op.idsAfter ids)
    ((op.request before).liveAfter live (after.blocks op.index)) next
  errors : after.errors = before.errors
  growth : Extends before.machine after.machine

theorem Stands.passAlloc (type : op.type = .alloc)
    (served : allocator.serve position op = some next) :
    Ensures (evalAlloc package trace tracenum i op) before fun passed after =>
      passed ≠ 0 ∧ Passes Serves op ids live before after next := by
  have sized : op.type ≠ .free := by simp [type]
  have fulfils := stands.fulfils follows formed kinds served
  have returns := stands.returns follows formed kinds
  have passed : Ensures (evalAlloc package trace tracenum i op) before _ :=
    stands.holds.evalAlloc type formed fulfils
  have passes := evalAlloc_passes.mp passed
  rcases (Allocator.serve_of_sized sized).mp served with ⟨q, answer, rfl⟩
  have request : op.request before = .malloc (toSizeT op.size) := by rw [TraceOp.request, type]
  simp only [answer, Option.getD_some, request, Package.answer] at returns
  rcases passes.and returns with
    ⟨p, machine, outcome, ⟨nonzero, positive, accepts, owns, known, holds⟩, result, serves⟩
  subst result
  refine evalAlloc_passes.mpr ⟨p, machine, outcome, nonzero, positive, accepts, owns, known, ?_⟩
  have here : (placed before machine op p).blocks op.index = p := Function.update_self _ _ _
  refine ⟨⟨holds, ?_, update_agrees stands.blocks p⟩, rfl,
    (package.malloc_extends _ outcome).trans (.fill ..)⟩
  rw [here, request]
  refine follows.fill _ serves ?_
  rw [Request.liveAfter, if_neg nonzero]
  exact List.mem_cons_self

theorem Stands.passFree (type : op.type = .free)
    (served : allocator.serve position op = some next) :
    Ensures (evalFree package trace op) before fun passed after =>
      passed ≠ 0 ∧ Passes Serves op ids live before after next := by
  have fulfils := stands.fulfils follows formed kinds served
  have returns := stands.returns follows formed kinds
  have passed : Ensures (evalFree package trace op) before _ :=
    stands.holds.evalFree type formed fulfils
  rcases evalFree_passes.mp passed with ⟨known, passes⟩
  rw [(Allocator.serve_of_free type).mp served]
  have request : op.request before = .free (before.blocks op.index) := by
    rw [TraceOp.request, type]
  simp only [request, Package.answer, ensures_bind, ensures_pure] at returns
  rcases passes.and returns with ⟨_, machine, outcome, holds, _, serves⟩
  refine evalFree_passes.mpr ⟨known, (), machine, outcome, ?_⟩
  have kept : ∀ id ∈ op.idsAfter ids, position.blocks id = before.blocks id := by
    intro id member
    rw [TraceOp.idsAfter, type] at member
    exact stands.blocks id (List.mem_of_mem_erase member)
  refine ⟨⟨holds, ?_, kept⟩, rfl, package.free_extends _ outcome⟩
  rw [request]
  exact serves

theorem Stands.passRealloc (type : op.type = .realloc) (below : op.index % 256 < 128)
    (served : allocator.serve position op = some next) :
    Ensures (evalRealloc package trace tracenum i op) before fun passed after =>
      passed ≠ 0 ∧ Passes Serves op ids live before after next := by
  have sized : op.type ≠ .free := by simp [type]
  have fulfils := stands.fulfils follows formed kinds served
  have returns := stands.returns follows formed kinds
  have passed : Ensures (evalRealloc package trace tracenum i op) before _ :=
    (stands.holds.evalRealloc type formed fulfils).1 below
  rcases evalRealloc_passes.mp passed with ⟨known, passes⟩
  rcases (Allocator.serve_of_sized sized).mp served with ⟨q, answer, rfl⟩
  have request : op.request before =
      .realloc (before.blocks op.index) (toSizeT op.size) := by rw [TraceOp.request, type]
  simp only [answer, Option.getD_some, request, Package.answer] at returns
  rcases passes.and returns with
    ⟨p, machine, outcome, ⟨nonzero, positive, accepts, kept, owns, holds⟩, result, serves⟩
  subst result
  refine evalRealloc_passes.mpr
    ⟨known, p, machine, outcome, nonzero, positive, accepts, kept, owns, ?_⟩
  have here : (placed (removed before (before.blocks op.index)) machine op p).blocks op.index = p :=
    Function.update_self _ _ _
  refine ⟨⟨holds, ?_, update_agrees stands.blocks p⟩, rfl,
    (package.realloc_extends _ _ outcome).trans (.fill ..)⟩
  rw [here, request]
  refine follows.fill _ serves ?_
  rw [Request.liveAfter, if_neg nonzero]
  exact List.mem_cons_self

/-! ### Operations the driver objects to -/

/-- The driver objected to an operation. -/
structure Objects (tracenum i : Nat) (message : String) (before after : State Statics) : Prop where
  errors : after.errors = ⟨tracenum, lineNum i, .text message⟩ :: before.errors
  growth : Extends before.machine after.machine

theorem Stands.refuseAlloc (type : op.type = .alloc)
    (refused : allocator.serve position op = none) :
    Ensures (evalAlloc package trace tracenum i op) before fun passed after =>
      passed = 0 ∧ Objects tracenum i "mm_malloc failed." before after := by
  have returns := stands.returns follows formed kinds
  have request : op.request before = .malloc (toSizeT op.size) := by rw [TraceOp.request, type]
  simp only [(Allocator.serve_eq_none.mp refused).2, Option.getD_none, request, Package.answer]
    at returns
  rcases returns with ⟨_, machine, outcome, rfl, _⟩
  simp only [evalAlloc, ensures_bind, ensures_onMachine]
  refine ⟨null, machine, outcome, ?_⟩
  simp only [if_true, ensures_bind, ensures_mallocError, ensures_pure]
  exact ⟨trivial, rfl, package.malloc_extends _ outcome⟩

theorem Stands.refuseRealloc (type : op.type = .realloc)
    (refused : allocator.serve position op = none) :
    Ensures (evalRealloc package trace tracenum i op) before fun passed after =>
      passed = 0 ∧ Objects tracenum i "mm_realloc failed." before after := by
  have returns := stands.returns follows formed kinds
  have request : op.request before =
      .realloc (before.blocks op.index) (toSizeT op.size) := by rw [TraceOp.request, type]
  simp only [(Allocator.serve_eq_none.mp refused).2, Option.getD_none, request, Package.answer]
    at returns
  rcases returns with ⟨_, machine, outcome, rfl, _⟩
  simp only [evalRealloc, blockOf, ensures_bind, ensures_require, ensures_view, ensures_onMachine]
  refine ⟨formed.1, null, machine, outcome, ?_⟩
  simp only [if_true, ensures_bind, ensures_mallocError, ensures_pure]
  exact ⟨trivial, rfl, package.realloc_extends _ _ outcome⟩

omit follows stands formed kinds in
/-- The comparison stops at its first byte where that is negative as `char`. -/
theorem ensures_preserved_negative {state : State Statics} {newp left : Nat}
    (nonempty : 0 < left) (owns : state.machine.Owns newp 1)
    (filled : state.machine.bytes newp = UInt8.ofNat (lowByte op)) (high : 128 ≤ op.index % 256)
    (goal : Bool → State Statics → Prop) :
    Ensures (preserved op newp left 0) state goal ↔ goal false state := by
  obtain ⟨rest, rfl⟩ : ∃ rest, left = rest + 1 := ⟨left - 1, by omega⟩
  have byte : lowByte op < 256 := by
    rw [lowByte_eq]
    omega
  have different : promote (state.machine.bytes newp) ≠ (lowByte op : Int) := by
    rw [filled, ne_eq, promote_ofNat_iff byte, lowByte_eq]
    omega
  simp only [preserved, Nat.add_zero, ensures_bind, ensures_onMachine, ensures_getByte,
    ensures_ite, ensures_pure, if_pos different]
  exact ⟨And.right, fun holds => ⟨owns, holds⟩⟩

/-- The driver takes what was kept for lost where the byte is negative. -/
theorem Stands.mismatch (type : op.type = .realloc) (high : 128 ≤ op.index % 256)
    (served : allocator.serve position op = some next) :
    Ensures (evalRealloc package trace tracenum i op) before fun passed after =>
      passed = 0 ∧ Objects tracenum i "mm_realloc did not preserve the data from old block"
        before after := by
  have fulfils := stands.fulfils follows formed kinds served
  have checked := formed.2
  simp only [type] at checked
  simp only [TraceOp.request, type] at fulfils
  rcases fulfils with ⟨p, machine, returned, proper, untouched, preserved⟩
  have positive : 0 < op.size := by omega
  have growth := package.realloc_extends _ _ returned
  rcases stands.holds.kept checked.1 positive preserved with ⟨some, most, kept⟩
  have extended := (stands.holds.remove checked.1).extend growth untouched
  have accepts := proper.accepts extended.mirrors positive
  have first := kept 0 some
  rw [Nat.add_zero] at first
  have owns : machine.Owns p 1 := by
    have inHeap := proper.inHeap
    exact ⟨inHeap.2.1, by have := inHeap.2.2; have := inHeap.1; simp only at *; omega⟩
  simp only [evalRealloc, blockOf, ensures_bind, ensures_require, ensures_view, ensures_onMachine]
  refine ⟨formed.1, p, machine, returned, ?_⟩
  simp only [if_neg proper.nonzero, ensures_bind, ensures_removeRange]
  refine ⟨1, _, addRange_accepted positive accepts, ?_⟩
  simp only [one_ne_zero, if_false, blockSizeOf, ensures_bind, ensures_require, ensures_view]
  refine ⟨formed.1, ?_⟩
  refine Iff.mpr (ensures_preserved_negative some owns first high _) ?_
  simp only [if_true, ensures_bind, ensures_mallocError, ensures_pure]
  exact ⟨trivial, rfl, growth⟩

/-- One round of the loop of `eval_mm_valid` with a package that follows an
allocator. -/
theorem Stands.evalOp (tracenum i : Nat) :
    Ensures (evalOp package trace tracenum i op) before fun passed after =>
      match allocator.check position op with
      | .ok next => passed ≠ 0 ∧ Passes Serves op ids live before after next
      | .error message => passed = 0 ∧ Objects tracenum i message before after := by
  unfold Allocator.check
  cases served : allocator.serve position op with
  | none =>
      have sized := (Allocator.serve_eq_none.mp served).1
      unfold Driver.evalOp
      cases type : op.type with
      | alloc => exact stands.refuseAlloc follows formed kinds type served
      | free => exact absurd type sized
      | realloc => exact stands.refuseRealloc follows formed kinds type served
  | some next =>
      unfold Driver.evalOp
      cases type : op.type with
      | alloc => exact stands.passAlloc follows formed kinds type served
      | free => exact stands.passFree follows formed kinds type served
      | realloc =>
          by_cases high : 128 ≤ op.index % 256
          · simp only [high, and_self, if_true]
            exact stands.mismatch follows formed kinds type high served
          · simp only [high, and_false, if_false]
            exact stands.passRealloc follows formed kinds type (Nat.not_le.mp high) served

omit follows stands formed kinds

/-! ## Whole traces -/

/-- What `eval_mm_valid` returned and printed is the judgement of the
allocator. The ids are those with a block behind the trace. -/
def Judged (Serves : Machine Statics → List (Nat × Nat) → Heap → Prop) (tracenum : Nat)
    (ids : List Nat) (verdict : Except (Nat × String) (Position Heap)) (before : State Statics)
    (valid : Nat) (after : State Statics) : Prop :=
  match verdict with
  | .ok final => valid = 1 ∧ after.errors = before.errors ∧
      ∃ live, Stands Serves after ids live final
  | .error (i, message) => valid = 0 ∧
      after.errors = ⟨tracenum, lineNum i, .text message⟩ :: before.errors

theorem Judged.congr {verdict : Except (Nat × String) (Position Heap)}
    {middle after : State Statics} {valid : Nat}
    (judged : Judged Serves tracenum ids verdict middle valid after)
    (errors : middle.errors = before.errors) :
    Judged Serves tracenum ids verdict before valid after := by
  unfold Judged at judged ⊢
  rwa [← errors]

variable (follows : Follows package allocator start kind Serves)

include follows

/-- The loop of `eval_mm_valid` on the rest of a well-formed trace. -/
theorem Stands.evalOps {ops : List TraceOp} (stands : Stands Serves before ids live position)
    (formed : WellFormedFrom trace.numIds ids ops)
    (kinds : ∀ op ∈ ops, ∀ blocks, kind (op.call blocks)) (tracenum i : Nat) :
    Ensures (evalOps package trace tracenum i ops) before fun valid after =>
      Extends before.machine after.machine ∧
        Judged Serves tracenum (idsBehind ids ops) (allocator.judge i position ops) before valid
          after := by
  induction ops generalizing i before ids live position with
  | nil =>
      rw [Driver.evalOps, ensures_pure]
      exact ⟨.refl _, rfl, rfl, live, stands⟩
  | cons op ops induction =>
      rw [List.forall_mem_cons] at kinds
      rw [Driver.evalOps, ensures_bind, Allocator.judge]
      refine (stands.evalOp follows formed.1 (kinds.1 _) tracenum i).mono fun passed middle => ?_
      cases allocator.check position op with
      | error message =>
          rintro ⟨rfl, objects⟩
          rw [if_pos rfl, ensures_pure]
          exact ⟨objects.growth, rfl, objects.errors⟩
      | ok next =>
          rintro ⟨nonzero, passes⟩
          rw [if_neg nonzero]
          refine (induction passes.stands formed.2 kinds.2 (i + 1)).mono fun valid after => ?_
          rintro ⟨growth, judged⟩
          exact ⟨passes.growth.trans growth, judged.congr passes.errors⟩

/-- On a well-formed trace `eval_mm_valid` comes to the judgement of the
allocator that the package follows. -/
theorem Follows.evalMmValid (arena : Arena before.machine)
    (ready : start (before.machine.setBrk before.machine.memStartBrk)) (formed : trace.WellFormed)
    (kinds : ∀ op ∈ trace.ops, ∀ blocks, kind (op.call blocks)) (tracenum : Nat) :
    Ensures (evalMmValid package trace tracenum) before fun valid after =>
      Extends (before.machine.setBrk before.machine.memStartBrk) after.machine ∧
        Judged Serves tracenum (idsBehind [] trace.ops)
          (allocator.judge 0 allocator.start trace.ops) before valid after := by
  rcases follows.init ready with ⟨value, machine, outcome, rfl, serves⟩
  have isOpen : Opened package before { before with machine := machine, ranges := [] } :=
    ⟨0, machine, Int.le_refl 0, outcome, rfl⟩
  have initial : Holds { before with machine := machine, ranges := [] } [] [] :=
    ⟨isOpen.mirrors arena, List.Pairwise.nil, ⟨.nil, rfl, by simp, by simp⟩⟩
  have stands : Stands Serves { before with machine := machine, ranges := [] } [] []
      allocator.start := ⟨initial, serves, nofun⟩
  simp only [Driver.evalMmValid, ensures_bind, ensures_onMachine, memResetBrk, ensures_change,
    clearRanges]
  refine ⟨0, machine, outcome, ?_⟩
  simp only [Int.lt_irrefl, if_false]
  refine (stands.evalOps follows formed kinds tracenum 0).mono fun valid after => ?_
  rintro ⟨growth, judged⟩
  exact ⟨(package.init_extends outcome).trans growth, judged.congr rfl⟩

end MallocLab.Driver
