import MallocLab.Client

/-! # The driver of `mdriver.c`

The driver replays a trace on the package it is linked with, and keeps a list
of the payload ranges it was given to find out whether they overlap.
-/

namespace MallocLab.Driver

open Program

def alignment : Nat := 8

/-- `IS_ALIGNED(p)`. -/
abbrev IsAligned (address : Nat) : Prop := address % alignment = 0

/-- `LINENUM(i)`. -/
def lineNum (opnum : Nat) : Nat := opnum + 5

/-- A `range_t`. The link to the next one is the order of the list. -/
structure Range where
  lo : Nat
  hi : Nat
  deriving DecidableEq, Repr

inductive OpType
  | alloc
  | free
  | realloc
  deriving DecidableEq, Repr

/-- A `traceop_t`, whose size is an `int`. -/
structure TraceOp where
  type : OpType
  index : Nat
  size : Int
  low : -2147483648 ≤ size
  high : size < 2147483648
  deriving DecidableEq

/-- The part of a `trace_t` that a replay only reads. -/
structure Trace where
  numIds : Nat
  ops : List TraceOp

/-- What `malloc_error` is told. -/
inductive Message
  | notAligned (lo : Nat)
  | outsideHeap (lo hi heapLo heapHi : Nat)
  | overlaps (lo hi otherLo otherHi : Nat)
  | text (message : String)
  deriving DecidableEq, Repr

/-- A printed error. -/
structure Report where
  tracenum : Nat
  linenum : Nat
  message : Message
  deriving DecidableEq, Repr

/-- The memory system, the range list, the arrays `blocks` and `block_sizes`
of the trace, and the errors so far, the last of which comes first. -/
structure State (Statics : Type) where
  machine : Machine Statics
  ranges : List Range
  blocks : Nat → Nat
  blockSizes : Nat → Nat
  errors : List Report

variable {Statics Value : Type}

/-- What `mem_sbrk` can do to the memory system. -/
structure Extends (machine after : Machine Statics) : Prop where
  memStartBrk : after.memStartBrk = machine.memStartBrk
  memMaxAddr : after.memMaxAddr = machine.memMaxAddr
  grows : machine.memBrk ≤ after.memBrk
  bounded : machine.memBrk ≤ machine.memMaxAddr → after.memBrk ≤ machine.memMaxAddr

/-- A program that leaves the memory system to `mem_sbrk`. -/
abbrev OnlySbrk (program : Program (Machine Statics) Value) : Prop :=
  ∀ {machine after : Machine Statics} {value : Value},
    program machine = some (value, after) → Extends machine after

/-- The package under test: any functions at all that obtain storage from
`mem_sbrk`. -/
structure Package (Statics : Type) where
  mmInit : Program (Machine Statics) Int
  mmMalloc : Nat → Program (Machine Statics) Nat
  mmFree : Nat → Program (Machine Statics) Unit
  mmRealloc : Nat → Nat → Program (Machine Statics) Nat
  init_extends : OnlySbrk mmInit
  malloc_extends : ∀ size, OnlySbrk (mmMalloc size)
  free_extends : ∀ ptr, OnlySbrk (mmFree ptr)
  realloc_extends : ∀ ptr size, OnlySbrk (mmRealloc ptr size)

/-- A program of the memory system as one of the driver. -/
def onMachine (program : Program (Machine Statics) Value) : Program (State Statics) Value :=
  fun state => (program state.machine).map fun outcome =>
    (outcome.1, { state with machine := outcome.2 })

def mallocError (tracenum opnum : Nat) (message : Message) : Program (State Statics) Unit :=
  change fun state =>
    { state with errors := ⟨tracenum, lineNum opnum, message⟩ :: state.errors }

/-! ## Range lists -/

/-- An address is one of the two ends or lies between them. -/
abbrev Range.Has (range : Range) (address : Nat) : Prop :=
  address ≥ range.lo ∧ address ≤ range.hi

/-- `lo + size - 1`, in the address arithmetic of the build. -/
def lastByte (lo : Nat) (size : Int) : Nat := toSizeT (lo + size - 1)

def addRange (lo : Nat) (size : Int) (tracenum opnum : Nat) : Program (State Statics) Nat := do
  let hi := lastByte lo size
  require fun _ => size > 0
  if ¬IsAligned lo then do
    mallocError tracenum opnum (.notAligned lo)
    return 0
  else do
    let heapLo ← onMachine memHeapLo
    let heapHi ← onMachine memHeapHi
    if lo < heapLo ∨ lo > heapHi ∨ hi < heapLo ∨ hi > heapHi then do
      mallocError tracenum opnum (.outsideHeap lo hi heapLo heapHi)
      return 0
    else do
      let ranges ← view State.ranges
      match ranges.find? fun p => p.Has lo ∨ p.Has hi with
      | some p => do
          mallocError tracenum opnum (.overlaps lo hi p.lo p.hi)
          return 0
      | none => do
          change fun state => { state with ranges := ⟨lo, hi⟩ :: state.ranges }
          return 1

def removeRange (lo : Nat) : Program (State Statics) Unit :=
  change fun state => { state with ranges := state.ranges.eraseP fun p => p.lo = lo }

def clearRanges : Program (State Statics) Unit :=
  change fun state => { state with ranges := [] }

/-! ## Replaying a trace -/

section Replay

variable (package : Package Statics) (trace : Trace) (tracenum i : Nat) (op : TraceOp)

/-- `trace->blocks[index]`. -/
def blockOf : Program (State Statics) Nat := do
  require fun _ => op.index < trace.numIds
  view fun state => state.blocks op.index

/-- `trace->block_sizes[index]`. -/
def blockSizeOf : Program (State Statics) Nat := do
  require fun _ => op.index < trace.numIds
  view fun state => state.blockSizes op.index

/-- Remember a region. -/
def remember (p : Nat) : Program (State Statics) Unit := do
  require fun _ => op.index < trace.numIds
  change fun state =>
    { state with
      blocks := Function.update state.blocks op.index p
      blockSizes := Function.update state.blockSizes op.index (toSizeT op.size) }

/-- `index & 0xFF`. -/
def lowByte : Nat := op.index &&& 255

/-- A `char` as the `int` it is promoted to. It is signed. -/
def promote (byte : UInt8) : Int :=
  if byte.toNat < 128 then byte.toNat else (byte.toNat : Int) - 256

/-- The loop that compares the bytes from the `j`-th on, of which `left` are
left. -/
def preserved (newp : Nat) : Nat → Nat → Program (State Statics) Bool
  | 0, _ => return true
  | left + 1, j => do
      if promote (← onMachine (getByte (newp + j))) ≠ (lowByte op : Int) then
        return false
      else
        preserved newp left (j + 1)

def evalAlloc : Program (State Statics) Nat := do
  let p ← onMachine (package.mmMalloc (toSizeT op.size))
  if p = null then do
    mallocError tracenum i (.text "mm_malloc failed.")
    return 0
  else do
    let added ← addRange p op.size tracenum i
    if added = 0 then
      return 0
    else do
      onMachine (memset p (lowByte op) (toSizeT op.size))
      remember trace op p
      return 1

def evalRealloc : Program (State Statics) Nat := do
  let oldp ← blockOf trace op
  let newp ← onMachine (package.mmRealloc oldp (toSizeT op.size))
  if newp = null then do
    mallocError tracenum i (.text "mm_realloc failed.")
    return 0
  else do
    removeRange oldp
    let added ← addRange newp op.size tracenum i
    if added = 0 then
      return 0
    else do
      let oldsize := toInt (← blockSizeOf trace op)
      let oldsize := if op.size < oldsize then op.size else oldsize
      if (← preserved op newp oldsize.toNat 0) = false then do
        mallocError tracenum i (.text "mm_realloc did not preserve the data from old block")
        return 0
      else do
        onMachine (memset newp (lowByte op) (toSizeT op.size))
        remember trace op newp
        return 1

def evalFree : Program (State Statics) Nat := do
  let p ← blockOf trace op
  removeRange p
  onMachine (package.mmFree p)
  return 1

/-- One round of the loop of `eval_mm_valid`: one to go on, zero when the
function returned zero. -/
def evalOp : Program (State Statics) Nat :=
  match op.type with
  | .alloc => evalAlloc package trace tracenum i op
  | .realloc => evalRealloc package trace tracenum i op
  | .free => evalFree package trace op

end Replay

/-- The loop of `eval_mm_valid` from the `i`-th request on. -/
def evalOps (package : Package Statics) (trace : Trace) (tracenum : Nat) :
    Nat → List TraceOp → Program (State Statics) Nat
  | _, [] => return 1
  | i, op :: ops => do
      let passed ← evalOp package trace tracenum i op
      if passed = 0 then
        return 0
      else
        evalOps package trace tracenum (i + 1) ops

def evalMmValid (package : Package Statics) (trace : Trace) (tracenum : Nat) :
    Program (State Statics) Nat := do
  onMachine memResetBrk
  clearRanges
  if (← onMachine package.mmInit) < 0 then do
    mallocError tracenum 0 (.text "mm_init failed.")
    return 0
  else
    evalOps package trace tracenum 0 trace.ops

end MallocLab.Driver
