import MallocLab.Driver.Source
import MallocLab.Foundation.Text

/-! # How `mdriver.c` reads a trace file

`read_trace` stores every request line before it compares their number and the
largest index of the blocks with the header.
-/

namespace MallocLab.Driver

open Program Text

/-- `MAXLINE`. -/
def maxLine : Nat := 1024

/-- A `traceop_t` as a line of the file says it. -/
structure StoredOp where
  type : OpType
  index : Int
  size : Int
  deriving DecidableEq, Repr

/-- The trace file from the next character on, the fields and the array `ops`
of the trace record, and the local variables. -/
structure Reading where
  input : List Char
  numIds : Int
  numOps : Int
  ops : Nat → StoredOp
  index : Nat
  size : Nat
  maxIndex : Nat
  opIndex : Nat

/-- How a call of `read_trace` can end. -/
inductive ReadOutcome
  | returned
  | bogusType (c : Char)
  | assertionFailed
  deriving DecidableEq, Repr

/-! ## The conversions of `fscanf` -/

/-- `%d`, as `strtol` converts it where a `long` has 32 bits. -/
def readInt (text : List Char) : Option Int × List Char :=
  let signed := sign (skipSpace text)
  if digits signed.2 = [] then (none, signed.2)
  else
    let magnitude := number (digits signed.2)
    (some (if signed.1 then max (-2147483648) (-magnitude) else min 2147483647 magnitude),
      afterDigits signed.2)

/-- `%u`, as `strtoul` converts it. -/
def readUnsigned (text : List Char) : Option Nat × List Char :=
  let signed := sign (skipSpace text)
  if digits signed.2 = [] then (none, signed.2)
  else
    let magnitude := number (digits signed.2)
    (some (if 4294967296 ≤ magnitude then 4294967295
        else if signed.1 then toSizeT (-magnitude) else magnitude),
      afterDigits signed.2)

/-- A character of the format that is not part of a conversion. -/
def readLiteral (literal : Char) : List Char → List Char
  | [] => []
  | c :: rest => if c = literal then rest else c :: rest

/-- One conversion, and whether it succeeded. Where it did not, the variable
keeps its value. -/
def scan {Value : Type} (convert : List Char → Option Value × List Char)
    (store : Value → Reading → Reading) : Program Reading Bool := do
  let text ← view Reading.input
  change fun reading => { reading with input := (convert text).2 }
  match (convert text).1 with
  | none => return false
  | some value => do
      change (store value)
      return true

/-- `fscanf(tracefile, "%s", type)`, without a value at the end of the file.
The array has room for `MAXLINE` characters with the terminating zero. -/
def scanType : Program Reading (Option (List Char)) := do
  let text ← view fun reading => skipSpace reading.input
  if text = [] then do
    change fun reading => { reading with input := [] }
    return none
  else do
    require fun _ => (word text).length < maxLine
    change fun reading => { reading with input := afterWord text }
    return some (word text)

/-- `fscanf(tracefile, "%u %u", &index, &size)`. -/
def scanIndexSize : Program Reading Unit := do
  if ← scan readUnsigned fun value reading => { reading with index := value } then do
    let _ ← scan readUnsigned fun value reading => { reading with size := value }
  else
    return ()

/-- `fscanf(tracefile, "%ud", &index)`. -/
def scanIndex : Program Reading Unit := do
  if ← scan readUnsigned fun value reading => { reading with index := value } then
    change fun reading => { reading with input := readLiteral 'd' reading.input }
  else
    return ()

/-! ## `read_trace` -/

def readHeader : Program Reading Unit := do
  let _ ← scan readInt fun _ reading => reading
  let _ ← scan readInt fun value reading => { reading with numIds := value }
  let _ ← scan readInt fun value reading => { reading with numOps := value }
  let _ ← scan readInt fun _ reading => reading

/-- Assignments to fields of `trace->ops[op_index]`. -/
def setOp (edit : Reading → StoredOp → StoredOp) : Program Reading Unit := do
  require fun reading => (reading.opIndex : Int) < reading.numOps
  change fun reading =>
    { reading with
      ops := Function.update reading.ops reading.opIndex
        (edit reading (reading.ops reading.opIndex)) }

/-- The cases of the letters `a` and `r`. -/
def readSized (type : OpType) : Program Reading Unit := do
  scanIndexSize
  setOp fun reading _ => ⟨type, toInt reading.index, toInt reading.size⟩
  change fun reading =>
    { reading with
      maxIndex := if reading.index > reading.maxIndex then reading.index else reading.maxIndex }

/-- The case of the letter `f`. -/
def readFree : Program Reading Unit := do
  scanIndex
  setOp fun reading op => { op with type := .free, index := toInt reading.index }

/-- What `type[0]` says. -/
def kind (type : List Char) : Option OpType :=
  match type.head? with
  | some 'a' => some .alloc
  | some 'r' => some .realloc
  | some 'f' => some .free
  | _ => none

def readOp : OpType → Program Reading Unit
  | .alloc => readSized .alloc
  | .realloc => readSized .realloc
  | .free => readFree

/-- The loop of `read_trace`, and the bogus character that ended it. Every
round reads a character of the file at least, so it ends within as many rounds
as there are characters. -/
def readOps : Nat → Program Reading (Option Char)
  | 0 => fault
  | fuel + 1 => do
      match ← scanType with
      | none => return none
      | some type =>
          match kind type with
          | none => return type.head?
          | some op => do
              readOp op
              change fun reading => { reading with opIndex := reading.opIndex + 1 }
              readOps fuel

def readTrace : Program Reading ReadOutcome := do
  readHeader
  change fun reading => { reading with maxIndex := 0, index := 0, opIndex := 0 }
  let fuel ← view fun reading => reading.input.length
  match ← readOps (fuel + 1) with
  | some c => return .bogusType c
  | none => do
      let reading ← view id
      if reading.maxIndex ≠ toSizeT (reading.numIds - 1) then
        return .assertionFailed
      else if toSizeT reading.numOps ≠ reading.opIndex then
        return .assertionFailed
      else
        return .returned

end MallocLab.Driver
