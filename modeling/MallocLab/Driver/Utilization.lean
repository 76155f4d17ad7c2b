import MallocLab.Driver.Acceptance
import MallocLab.Foundation.Intervals

/-! # The space utilization the driver reports

`eval_mm_util` replays a trace without checking it, and keeps the sum of the
sizes of all live blocks and the largest value the sum had.
-/

namespace MallocLab.Driver

open Program

variable {Statics : Type}

/-! ## `eval_mm_util` -/

/-- The local variables that the replay keeps. -/
structure Totals where
  maxTotalSize : Int
  totalSize : Int
  deriving DecidableEq, Repr

/-- The value of an `int` expression, which must not overflow. -/
def signed (value : Int) : Program (State Statics) Int := do
  require fun _ => -2147483648 ≤ value ∧ value < 2147483648
  return value

/-- Update the statistics. -/
def raise (totals : Totals) (totalSize : Int) : Totals where
  maxTotalSize := if totalSize > totals.maxTotalSize then totalSize else totals.maxTotalSize
  totalSize := totalSize

section Replay

variable (package : Package Statics) (trace : Trace) (totals : Totals) (op : TraceOp)

def utilAlloc : Program (State Statics) (Option Totals) := do
  let p ← onMachine (package.mmMalloc (toSizeT op.size))
  if p = null then
    return none
  else do
    remember trace op p
    return some (raise totals (← signed (totals.totalSize + op.size)))

def utilRealloc : Program (State Statics) (Option Totals) := do
  let oldsize := toInt (← blockSizeOf trace op)
  let oldp ← blockOf trace op
  let newp ← onMachine (package.mmRealloc oldp (toSizeT op.size))
  if newp = null then
    return none
  else do
    remember trace op newp
    let difference ← signed (op.size - oldsize)
    return some (raise totals (← signed (totals.totalSize + difference)))

def utilFree : Program (State Statics) (Option Totals) := do
  let size := toInt (← blockSizeOf trace op)
  let p ← blockOf trace op
  onMachine (package.mmFree p)
  return some { totals with totalSize := ← signed (totals.totalSize - size) }

/-- One round of the loop, without totals where `app_error` ended the driver. -/
def utilOp : Program (State Statics) (Option Totals) :=
  match op.type with
  | .alloc => utilAlloc package trace totals op
  | .realloc => utilRealloc package trace totals op
  | .free => utilFree package trace totals op

end Replay

/-- The loop of `eval_mm_util`. -/
def utilOps (package : Package Statics) (trace : Trace) :
    Totals → List TraceOp → Program (State Statics) (Option Totals)
  | totals, [] => return some totals
  | totals, op :: ops => do
      match ← utilOp package trace totals op with
      | none => return none
      | some totals => utilOps package trace totals ops

/-- The two operands of the division that `eval_mm_util` returns. -/
def evalMmUtil (package : Package Statics) (trace : Trace) :
    Program (State Statics) (Option (Int × Nat)) := do
  onMachine memResetBrk
  if (← onMachine package.mmInit) < 0 then
    return none
  else do
    match ← utilOps package trace ⟨0, 0⟩ trace.ops with
    | none => return none
    | some totals => do
        let heapsize ← view fun state => state.machine.heapLength
        return some (totals.maxTotalSize, heapsize)

end MallocLab.Driver
