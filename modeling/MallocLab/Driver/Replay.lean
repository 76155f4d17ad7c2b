import MallocLab.Driver.Ranges

/-! # Replaying a trace step by step

What it takes for one request to pass, and the runs made of requests that
passed.
-/

namespace MallocLab.Driver

open Program

variable {Statics : Type} {package : Package Statics} {trace : Trace} {op : TraceOp}
  {state : State Statics} {machine : Machine Statics} {tracenum i : Nat}

/-! ## Requests that pass -/

/-- The state once a region was filled and remembered. -/
def placed (state : State Statics) (machine : Machine Statics) (op : TraceOp) (p : Nat) :
    State Statics where
  machine := machine.fill p (UInt8.ofNat (lowByte op)) (toSizeT op.size)
  ranges := ⟨p, lastByte p op.size⟩ :: state.ranges
  blocks := Function.update state.blocks op.index p
  blockSizes := Function.update state.blockSizes op.index (toSizeT op.size)
  errors := state.errors

/-- The state once the range that begins at an address was removed. -/
def removed (state : State Statics) (lo : Nat) : State Statics :=
  { state with ranges := state.ranges.eraseP fun p => p.lo = lo }

theorem ensures_addRange {lo opnum : Nat} {size : Int} {goal : Nat → State Statics → Prop}
    (refusal : ∀ final, ¬goal 0 final) :
    Ensures (addRange lo size tracenum opnum) state goal ↔
      0 < size ∧ ¬Refuses state lo (lastByte lo size) ∧
        goal 1 { state with ranges := ⟨lo, lastByte lo size⟩ :: state.ranges } := by
  constructor
  · rintro ⟨value, final, outcome, holds⟩
    have positive : 0 < size := by
      have checked : Ensures (addRange lo size tracenum opnum) state fun _ _ => True :=
        ⟨value, final, outcome, trivial⟩
      simp only [addRange, ensures_bind, ensures_require] at checked
      exact checked.1
    refine ⟨positive, ?_⟩
    by_cases refuses : Refuses state lo (lastByte lo size)
    · rcases addRange_refused positive refuses with ⟨message, refused⟩
      cases outcome.symm.trans refused
      exact absurd holds (refusal _)
    · cases outcome.symm.trans (addRange_accepted positive refuses)
      exact ⟨refuses, holds⟩
  · rintro ⟨positive, accepts, holds⟩
    exact ⟨1, _, addRange_accepted positive accepts, holds⟩

theorem evalAlloc_passes {goal : State Statics → Prop} :
    Ensures (evalAlloc package trace tracenum i op) state (fun passed after =>
        passed ≠ 0 ∧ goal after) ↔
      Ensures (package.mmMalloc (toSizeT op.size)) state.machine fun p machine =>
        p ≠ null ∧ 0 < op.size ∧
          ¬Refuses { state with machine := machine } p (lastByte p op.size) ∧
          machine.Owns p (toSizeT op.size) ∧ op.index < trace.numIds ∧
          goal (placed state machine op p) := by
  rw [evalAlloc, ensures_bind, ensures_onMachine]
  constructor <;>
    refine fun ensured => ensured.mono fun p machine holds => ?_
  · by_cases isNull : p = null
    · rw [if_pos isNull] at holds
      simp at holds
    · rw [if_neg isNull, ensures_bind, ensures_addRange (by simp)] at holds
      simp only [one_ne_zero, if_false, ensures_bind, ensures_onMachine, ensures_memset, remember,
        ensures_require, ensures_change, ensures_pure] at holds
      rcases holds with ⟨positive, accepts, owns, known, _, holds⟩
      exact ⟨isNull, positive, accepts, owns, known, holds⟩
  · rcases holds with ⟨nonzero, positive, accepts, owns, known, holds⟩
    rw [if_neg nonzero, ensures_bind, ensures_addRange (by simp)]
    simp only [one_ne_zero, if_false, ensures_bind, ensures_onMachine, ensures_memset, remember,
      ensures_require, ensures_change, ensures_pure]
    exact ⟨positive, accepts, owns, known, one_ne_zero, holds⟩

theorem ensures_preserved {newp left j : Nat} {goal : Bool → State Statics → Prop}
    (mismatch : ¬goal false state) :
    Ensures (preserved op newp left j) state goal ↔
      (∀ k < left, state.machine.Owns (newp + (j + k)) 1 ∧
        promote (state.machine.bytes (newp + (j + k))) = (lowByte op : Int)) ∧
      goal true state := by
  induction left generalizing j with
  | zero => simp [preserved]
  | succ left induction =>
      simp only [preserved, ensures_bind, ensures_onMachine, ensures_getByte, ensures_ite,
        ensures_pure, induction]
      constructor
      · rintro ⟨owns, checked⟩
        split at checked
        · exact absurd checked mismatch
        · rename_i same
          refine ⟨fun k inside => ?_, checked.2⟩
          cases k with
          | zero => exact ⟨owns, not_not.mp same⟩
          | succ k =>
              have later := checked.1 k (by omega)
              rwa [show j + 1 + k = j + (k + 1) by omega] at later
      · rintro ⟨same, holds⟩
        have first := same 0 (by omega)
        rw [Nat.add_zero] at first
        refine ⟨first.1, ?_⟩
        rw [if_neg (not_not.mpr first.2)]
        refine ⟨fun k inside => ?_, holds⟩
        rw [show j + 1 + k = j + (k + 1) by omega]
        exact same (k + 1) (by omega)

/-- How many bytes of the old block are compared. -/
def keptSize (state : State Statics) (op : TraceOp) : Nat :=
  (if op.size < toInt (state.blockSizes op.index) then op.size
    else toInt (state.blockSizes op.index)).toNat

theorem evalRealloc_passes {goal : State Statics → Prop} :
    Ensures (evalRealloc package trace tracenum i op) state (fun passed after =>
        passed ≠ 0 ∧ goal after) ↔
      op.index < trace.numIds ∧
      Ensures (package.mmRealloc (state.blocks op.index) (toSizeT op.size)) state.machine
        fun newp machine => newp ≠ null ∧ 0 < op.size ∧
          ¬Refuses { removed state (state.blocks op.index) with machine := machine } newp
            (lastByte newp op.size) ∧
          (∀ k < keptSize state op, machine.Owns (newp + k) 1 ∧
            promote (machine.bytes (newp + k)) = (lowByte op : Int)) ∧
          machine.Owns newp (toSizeT op.size) ∧
          goal (placed (removed state (state.blocks op.index)) machine op newp) := by
  simp only [evalRealloc, blockOf, ensures_bind, ensures_require, ensures_view, ensures_onMachine]
  refine and_congr_right fun known => ?_
  constructor <;>
    refine fun ensured => ensured.mono fun newp machine holds => ?_
  · by_cases isNull : newp = null
    · rw [if_pos isNull] at holds
      simp at holds
    · rw [if_neg isNull, ensures_bind, ensures_removeRange, ensures_bind,
        ensures_addRange (by simp)] at holds
      simp only [one_ne_zero, if_false, ensures_bind, blockSizeOf, ensures_require,
        ensures_view] at holds
      rcases holds with ⟨positive, accepts, _, compared⟩
      rw [ensures_preserved (by simp)] at compared
      simp only [Nat.zero_add, Bool.true_eq_false, if_false, ensures_bind, ensures_onMachine, ensures_memset,
        remember, ensures_require, ensures_change, ensures_pure] at compared
      rcases compared with ⟨same, owns, _, _, holds⟩
      exact ⟨isNull, positive, accepts, same, owns, holds⟩
  · rcases holds with ⟨nonzero, positive, accepts, same, owns, holds⟩
    rw [if_neg nonzero, ensures_bind, ensures_removeRange, ensures_bind,
      ensures_addRange (by simp)]
    simp only [one_ne_zero, if_false, ensures_bind, blockSizeOf, ensures_require, ensures_view]
    refine ⟨positive, accepts, known, ?_⟩
    rw [ensures_preserved (by simp)]
    simp only [Nat.zero_add, Bool.true_eq_false, if_false, ensures_bind, ensures_onMachine, ensures_memset,
      remember, ensures_require, ensures_change, ensures_pure]
    exact ⟨same, owns, known, one_ne_zero, holds⟩

theorem evalFree_passes {goal : State Statics → Prop} :
    Ensures (evalFree package trace op) state (fun passed after => passed ≠ 0 ∧ goal after) ↔
      op.index < trace.numIds ∧
      Ensures (package.mmFree (state.blocks op.index)) state.machine fun _ machine =>
        goal { removed state (state.blocks op.index) with machine := machine } := by
  simp only [evalFree, blockOf, ensures_bind, ensures_require, ensures_view, ensures_removeRange,
    ensures_onMachine, ensures_pure, ne_eq, one_ne_zero, not_false_eq_true, true_and]
  rfl

/-! ## Runs -/

/-- The request an operation of the trace makes. -/
def TraceOp.request (op : TraceOp) (before : State Statics) : Request :=
  match op.type with
  | .alloc => .malloc (toSizeT op.size)
  | .free => .free (before.blocks op.index)
  | .realloc => .realloc (before.blocks op.index) (toSizeT op.size)

/-- A payload the package offers, while others are live. -/
structure Offer where
  payload : Nat × Nat
  others : List (Nat × Nat)

/-- The payload a request is answered with. -/
def offers (live : List (Nat × Nat)) (result : Nat) : Request → List Offer
  | .malloc size => [⟨(result, size), live⟩]
  | .free _ => []
  | .realloc ptr size => [⟨(result, size), live.filter fun spot => spot.1 ≠ ptr⟩]

/-- The runs in which every request passed, with the payloads offered so far
and those that are live. The last request comes first. -/
inductive Passed (package : Package Statics) (trace : Trace) (tracenum : Nat)
    (start : State Statics) :
    List TraceOp → List Offer → List (Nat × Nat) → State Statics → Prop
  | start : Passed package trace tracenum start [] [] [] start
  | op {ops : List TraceOp} {offered : List Offer} {live : List (Nat × Nat)}
      {before after : State Statics} {op : TraceOp} {passed : Nat} :
      Passed package trace tracenum start ops offered live before →
      evalOp package trace tracenum ops.length op before = some (passed, after) → passed ≠ 0 →
      Passed package trace tracenum start (op :: ops)
        (offers live (after.blocks op.index) (op.request before) ++ offered)
        ((op.request before).liveAfter live (after.blocks op.index)) after

/-- The heap was reset, the range list cleared and `mm_init` called. -/
def Opened (package : Package Statics) (state opened : State Statics) : Prop :=
  ∃ value machine, 0 ≤ value ∧
    package.mmInit (state.machine.setBrk state.machine.memStartBrk) = some (value, machine) ∧
    opened = { state with machine := machine, ranges := [] }

/-- `eval_mm_valid` returns one exactly when every request passes. -/
theorem evalOps_passes {goal : State Statics → Prop} {ops : List TraceOp} :
    Ensures (evalOps package trace tracenum i ops) state (fun valid after =>
        valid = 1 ∧ goal after) ↔
      match ops with
      | [] => goal state
      | op :: ops => Ensures (evalOp package trace tracenum i op) state fun passed middle =>
          passed ≠ 0 ∧ Ensures (evalOps package trace tracenum (i + 1) ops) middle
            fun valid after => valid = 1 ∧ goal after := by
  cases ops with
  | nil => simp [evalOps]
  | cons op ops =>
      simp only [evalOps, ensures_bind, ensures_ite, ensures_pure]
      constructor <;>
        refine fun ensured => ensured.mono fun passed middle holds => ?_
      · split at holds
        · exact absurd holds.1 (by simp)
        · rename_i nonzero
          exact ⟨nonzero, holds⟩
      · rw [if_neg holds.1]
        exact holds.2

theorem evalMmValid_passes {goal : State Statics → Prop} :
    Ensures (evalMmValid package trace tracenum) state (fun valid after =>
        valid = 1 ∧ goal after) ↔
      ∃ opened, Opened package state opened ∧
        Ensures (evalOps package trace tracenum 0 trace.ops) opened fun valid after =>
          valid = 1 ∧ goal after := by
  have begun : Ensures (evalMmValid package trace tracenum) state (fun valid after =>
        valid = 1 ∧ goal after) ↔
      Ensures package.mmInit (state.machine.setBrk state.machine.memStartBrk)
        fun value machine => if value < 0 then False else
          Ensures (evalOps package trace tracenum 0 trace.ops)
            { state with machine := machine, ranges := [] } fun valid after =>
              valid = 1 ∧ goal after := by
    simp [evalMmValid, memResetBrk, clearRanges, ensures_ite]
  rw [begun]
  constructor
  · rintro ⟨value, machine, outcome, holds⟩
    split at holds
    · exact holds.elim
    · rename_i proper
      exact ⟨_, ⟨value, machine, Int.not_lt.mp proper, outcome, rfl⟩, holds⟩
  · rintro ⟨_, ⟨value, machine, proper, outcome, rfl⟩, holds⟩
    refine ⟨value, machine, outcome, ?_⟩
    change if value < 0 then False else _
    rw [if_neg (Int.not_lt.mpr proper)]
    exact holds

end MallocLab.Driver
