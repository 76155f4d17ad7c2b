import MallocLab.Driver.Utilization

/-! # The main routine of `mdriver.c`

Each trace is checked, and if it passes it is replayed once more for the space
utilization and ten times for the clock. The clock itself is left out.
-/

namespace MallocLab.Driver

open Program

variable {Statics : Type}

/-! ## `eval_mm_speed` -/

section Replay

variable (package : Package Statics) (trace : Trace) (op : TraceOp)

/-- `trace->blocks[index] = p`. -/
def setBlock (p : Nat) : Program (State Statics) Unit := do
  require fun _ => op.index < trace.numIds
  change fun state => { state with blocks := Function.update state.blocks op.index p }

def speedAlloc : Program (State Statics) Bool := do
  let p ← onMachine (package.mmMalloc (toSizeT op.size))
  if p = null then
    return false
  else do
    setBlock trace op p
    return true

def speedRealloc : Program (State Statics) Bool := do
  let oldp ← blockOf trace op
  let newp ← onMachine (package.mmRealloc oldp (toSizeT op.size))
  if newp = null then
    return false
  else do
    setBlock trace op newp
    return true

def speedFree : Program (State Statics) Bool := do
  let block ← blockOf trace op
  onMachine (package.mmFree block)
  return true

/-- One round of the loop, false where `app_error` ended the driver. -/
def speedOp : Program (State Statics) Bool :=
  match op.type with
  | .alloc => speedAlloc package trace op
  | .realloc => speedRealloc package trace op
  | .free => speedFree package trace op

end Replay

/-- The loop of `eval_mm_speed`. -/
def speedOps (package : Package Statics) (trace : Trace) :
    List TraceOp → Program (State Statics) Bool
  | [] => return true
  | op :: ops => do
      if ← speedOp package trace op then
        speedOps package trace ops
      else
        return false

def evalMmSpeed (package : Package Statics) (trace : Trace) : Program (State Statics) Bool := do
  onMachine memResetBrk
  if (← onMachine package.mmInit) < 0 then
    return false
  else
    speedOps package trace trace.ops

/-! ## The arrays of a trace -/

/-- Every request has an entry in the arrays `blocks` and `block_sizes`. -/
def Trace.Indexed (trace : Trace) : Prop := ∀ op ∈ trace.ops, op.index < trace.numIds

/-- The trace with longer arrays. -/
def Trace.lengthen (trace : Trace) (more : Nat) : Trace :=
  { trace with numIds := trace.numIds + more }

section Indexed

variable {package : Package Statics} {trace : Trace} {op : TraceOp} {more : Nat}

theorem require_of_true {condition : Prop} [Decidable condition] (holds : condition) :
    require (fun _ : State Statics => condition) = pure () := by
  funext state
  exact if_pos holds

section Op

variable (inside : op.index < trace.numIds)

include inside

theorem lt_lengthen : op.index < (trace.lengthen more).numIds :=
  inside.trans_le (Nat.le_add_right _ _)

theorem blockOf_lengthen :
    (blockOf (trace.lengthen more) op : Program (State Statics) Nat) = blockOf trace op := by
  rw [blockOf, blockOf, require_of_true inside, require_of_true (lt_lengthen inside)]

theorem blockSizeOf_lengthen :
    (blockSizeOf (trace.lengthen more) op : Program (State Statics) Nat) =
      blockSizeOf trace op := by
  rw [blockSizeOf, blockSizeOf, require_of_true inside, require_of_true (lt_lengthen inside)]

theorem remember_lengthen (p : Nat) :
    (remember (trace.lengthen more) op p : Program (State Statics) Unit) = remember trace op p := by
  rw [remember, remember, require_of_true inside, require_of_true (lt_lengthen inside)]

theorem setBlock_lengthen (p : Nat) :
    (setBlock (trace.lengthen more) op p : Program (State Statics) Unit) = setBlock trace op p := by
  rw [setBlock, setBlock, require_of_true inside, require_of_true (lt_lengthen inside)]

theorem evalOp_lengthen (tracenum i : Nat) :
    evalOp package (trace.lengthen more) tracenum i op = evalOp package trace tracenum i op := by
  simp only [evalOp, evalAlloc, evalRealloc, evalFree, blockOf_lengthen inside,
    blockSizeOf_lengthen inside, remember_lengthen inside]

theorem utilOp_lengthen (totals : Totals) :
    utilOp package (trace.lengthen more) totals op = utilOp package trace totals op := by
  simp only [utilOp, utilAlloc, utilRealloc, utilFree, blockOf_lengthen inside,
    blockSizeOf_lengthen inside, remember_lengthen inside]

theorem speedOp_lengthen :
    speedOp package (trace.lengthen more) op = speedOp package trace op := by
  simp only [speedOp, speedAlloc, speedRealloc, speedFree, blockOf_lengthen inside,
    setBlock_lengthen inside]

end Op

theorem evalOps_lengthen (tracenum i : Nat) {ops : List TraceOp}
    (inside : ∀ op ∈ ops, op.index < trace.numIds) :
    evalOps package (trace.lengthen more) tracenum i ops =
      evalOps package trace tracenum i ops := by
  induction ops generalizing i with
  | nil => rfl
  | cons op rest induction =>
      rw [List.forall_mem_cons] at inside
      rw [evalOps, evalOps, evalOp_lengthen inside.1, induction (i + 1) inside.2]

theorem utilOps_lengthen (totals : Totals) {ops : List TraceOp}
    (inside : ∀ op ∈ ops, op.index < trace.numIds) :
    utilOps package (trace.lengthen more) totals ops = utilOps package trace totals ops := by
  induction ops generalizing totals with
  | nil => rfl
  | cons op rest induction =>
      rw [List.forall_mem_cons] at inside
      simp only [utilOps, utilOp_lengthen inside.1, fun totals => induction totals inside.2]

theorem speedOps_lengthen {ops : List TraceOp} (inside : ∀ op ∈ ops, op.index < trace.numIds) :
    speedOps package (trace.lengthen more) ops = speedOps package trace ops := by
  induction ops with
  | nil => rfl
  | cons op rest induction =>
      rw [List.forall_mem_cons] at inside
      rw [speedOps, speedOps, speedOp_lengthen inside.1, induction inside.2]

/-- The eval functions use no entry behind those of the ids: with longer arrays
they do the same. -/
theorem Trace.Indexed.evals (indexed : trace.Indexed) (tracenum more : Nat) :
    evalMmValid package (trace.lengthen more) tracenum = evalMmValid package trace tracenum ∧
      evalMmUtil package (trace.lengthen more) = evalMmUtil package trace ∧
      evalMmSpeed package (trace.lengthen more) = evalMmSpeed package trace := by
  have ops : (trace.lengthen more).ops = trace.ops := rfl
  refine ⟨?_, ?_, ?_⟩
  · rw [evalMmValid, evalMmValid, ops, evalOps_lengthen _ _ indexed]
  · rw [evalMmUtil, evalMmUtil, ops, utilOps_lengthen _ indexed]
  · rw [evalMmSpeed, evalMmSpeed, ops, speedOps_lengthen indexed]

end Indexed

/-! ## Timing -/

/-- The loop of `ftimer_gettod`, which calls the function `n` times. -/
def ftimerGettod (f : Program (State Statics) Bool) : Nat → Program (State Statics) Bool
  | 0 => return true
  | n + 1 => do
      if ← f then
        ftimerGettod f n
      else
        return false

def fsecs (f : Program (State Statics) Bool) : Program (State Statics) Bool := ftimerGettod f 10

/-! ## `main` -/

/-- A `trace_t` as `read_trace` returns it, whose arrays hold anything. -/
structure Loaded where
  trace : Trace
  blocks : Nat → Nat
  blockSizes : Nat → Nat

/-- A `stats_t`, with the operands of the division for `util`. Without them it
is the zero of `calloc`. -/
structure Stats where
  ops : Nat
  valid : Nat
  util : Option (Int × Nat)
  deriving DecidableEq, Repr

/-- One round of the loop of `main`, without a result where `app_error` ended
the driver. -/
def evalTrace (package : Package Statics) (i : Nat) (loaded : Loaded) :
    Program (State Statics) (Option Stats) := do
  change fun state => { state with blocks := loaded.blocks, blockSizes := loaded.blockSizes }
  let valid ← evalMmValid package loaded.trace i
  if valid = 0 then
    return some ⟨loaded.trace.ops.length, valid, none⟩
  else do
    match ← evalMmUtil package loaded.trace with
    | none => return none
    | some util => do
        if ← fsecs (evalMmSpeed package loaded.trace) then
          return some ⟨loaded.trace.ops.length, valid, some util⟩
        else
          return none

/-- The loop of `main` from the `i`-th trace on. -/
def evalTraces (package : Package Statics) :
    Nat → List Loaded → Program (State Statics) (Option (List Stats))
  | _, [] => return some []
  | i, loaded :: rest => do
      match ← evalTrace package i loaded with
      | none => return none
      | some stats => do
          match ← evalTraces package (i + 1) rest with
          | none => return none
          | some others => return some (stats :: others)

/-- What `main` prints last: the performance index, which is zero where there
were errors, or the number of errors, and the number of correct traces. -/
inductive Outcome
  | index (ops : Nat) (utils : List (Int × Nat))
  | errors (count : Nat)
  deriving DecidableEq, Repr

structure Summary where
  numcorrect : Nat
  outcome : Outcome
  deriving DecidableEq, Repr

def summary (stats : List Stats) (errors : Nat) : Summary where
  numcorrect := stats.countP fun stat => stat.valid ≠ 0
  outcome :=
    if errors = 0 then .index (stats.map Stats.ops).sum (stats.filterMap Stats.util)
    else .errors errors

/-- `main` after `mem_init`, for the traces it reads. -/
def main (package : Package Statics) (traces : List Loaded) :
    Program (State Statics) (Option Summary) := do
  match ← evalTraces package 0 traces with
  | none => return none
  | some stats => do
      let errors ← view State.errors
      return some (summary stats errors.length)

end MallocLab.Driver
