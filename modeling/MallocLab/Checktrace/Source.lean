import Mathlib.Algebra.Ring.Int.Defs
import Mathlib.Algebra.Ring.Nat
import Mathlib.Data.Char
import Mathlib.Data.List.AList
import Mathlib.Data.List.Lex
import Mathlib.Data.List.Sort
import MallocLab.Foundation.Text

/-! # The trace checker `traces/checktrace.pl`

The script reads a trace, dies at the first request that does not fit the ones
before it, and prints the trace with the `f` lines that are missing. A value
that Perl leaves undefined is the empty text.
-/

namespace MallocLab.Checktrace

open Text

/-- `$cmd` after `($cmd, $id, $size) = split(" ", $line)`. -/
def cmdOf (line : List Char) : List Char := (words line).getD 0 []

/-- `$id`. -/
def idOf (line : List Char) : List Char := (words line).getD 1 []

/-- What counts as true in Perl. -/
def IsTrue (text : List Char) : Prop := text ≠ [] ∧ text ≠ ['0']

instance (text : List Char) : Decidable (IsTrue text) :=
  inferInstanceAs (Decidable (_ ∧ _))

/-- `!$value`. -/
def negation (value : List Char) : List Char := if IsTrue value then [] else ['1']

/-- `%HASH`. -/
abbrev Hash : Type := AList fun _ : List Char => List Char

/-- `$HASH{$id}`. -/
def Hash.value (hash : Hash) (id : List Char) : List Char := (hash.lookup id).getD []

/-- The messages the script dies with. -/
inductive Death
  | error (linenum : Nat) (text : String)
  | residue
  deriving DecidableEq, Repr

/-- What a request does to `%HASH`. -/
def request (linenum : Nat) (hash : Hash) (cmd id : List Char) : Except Death Hash :=
  if cmd = ['r'] then
    if ¬IsTrue (hash.value id) then .error (.error linenum "realloc without previous alloc")
    else .ok hash
  else if cmd = ['a'] ∧ hash.value id = ['a'] then
    .error (.error linenum "allocate with no intervening free.")
  else if cmd = ['a'] ∧ hash.value id = ['f'] then
    .error (.error linenum ("reused ID " ++ String.ofList id ++ "."))
  else if cmd = ['f'] ∧ id ∉ hash then
    .error (.error linenum "freeing unallocated block.")
  else if cmd = ['f'] ∧ negation (hash.value id) = ['f'] then
    .error (.error linenum "freeing already freed block.")
  else if cmd = ['f'] then .ok (hash.erase id)
  else .ok (hash.insert id cmd)

/-- The request loop from the line with a number on: `%HASH` after it, and the
lines it saved. Blank lines are ignored. -/
def readLines : Nat → Hash → List (List Char) → Except Death (Hash × List (List Char))
  | _, hash, [] => .ok (hash, [])
  | linenum, hash, line :: rest =>
      if ¬IsTrue (cmdOf line) then readLines (linenum + 1) hash rest
      else do
        let hash ← request linenum hash (cmdOf line) (idOf line)
        let (hash, saved) ← readLines (linenum + 1) hash rest
        return (hash, line :: saved)

/-! ## The number of operations -/

/-- A text as a number, where it is a whole one. Perl takes the longest numeral
the text begins with, and zero if there is none. Fractions, exponents and the
names of infinities are left to `floating` below. -/
def wholeNumber (text : List Char) : Option Int :=
  let signed := sign (skipSpace text)
  let behind := (afterDigits signed.2).head?
  if digits signed.2 = [] then
    if behind ∈ [some '.', some 'i', some 'I', some 'n', some 'N'] then none else some 0
  else if behind ∈ [some '.', some 'e', some 'E'] then none
  else some (if signed.1 then -number (digits signed.2) else number (digits signed.2))

def showInt (value : Int) : List Char :=
  if value < 0 then '-' :: Nat.toDigits 10 value.natAbs else Nat.toDigits 10 value.natAbs

/-- The numbers that Perl adds as integers. -/
def IsInteger (value : Int) : Prop := -(2 : Int) ^ 63 ≤ value ∧ value < 2 ^ 64

instance (value : Int) : Decidable (IsInteger value) :=
  inferInstanceAs (Decidable (_ ∧ _))

section

variable (floating : List Char → Nat → List Char)

/-- `$old_num_ops + $new_ops` as it is printed. What Perl prints for a sum in
floating point, with a number that is not whole or too large, is a parameter. -/
def newNumOps (old : List Char) (newOps : Nat) : List Char :=
  match wholeNumber old with
  | some number =>
      if IsInteger number ∧ IsInteger (number + newOps) then showInt (number + newOps)
      else floating old newOps
  | none => floating old newOps

/-! ## The output -/

/-- A printed trace. -/
structure Trace where
  heapSize : List Char
  numBlocks : List Char
  numOps : List Char
  weight : List Char
  requests : List (List Char)
  deriving DecidableEq

def Trace.print (trace : Trace) : List Char :=
  unlines (trace.heapSize :: trace.numBlocks :: trace.numOps :: trace.weight :: trace.requests)

/-- `print "f $key\n"`. -/
def freeLine (key : List Char) : List Char := 'f' :: ' ' :: key

/-- `sort keys %HASH`. -/
def sortedKeys (hash : Hash) : List (List Char) := hash.keys.insertionSort (· ≤ ·)

/-- The script without `-s`, up to what it prints. -/
def balance (text : List Char) : Except Death Trace := do
  let input := lines text
  let (hash, saved) ← readLines 5 ∅ (input.drop 4)
  if ∃ key ∈ sortedKeys hash, hash.value key ≠ ['a'] ∧ hash.value key ≠ ['r'] then
    .error .residue
  else
    return {
      heapSize := input.getD 0 []
      numBlocks := input.getD 1 []
      numOps := newNumOps floating (input.getD 2 []) hash.keys.length
      weight := input.getD 3 []
      requests := saved ++ (sortedKeys hash).map freeLine }

/-- The script with `-s`: whether it finds the trace balanced. -/
def isBalanced (text : List Char) : Except Death Bool := do
  let (hash, _) ← readLines 5 ∅ ((lines text).drop 4)
  return hash.keys.isEmpty

/-- What the script prints. -/
def checktrace (summary : Bool) (text : List Char) : Except Death (List Char) :=
  if summary then do
    if ← isBalanced text then
      return "Balanced trace.\n".toList
    else
      return "Unbalanced tree.\n".toList
  else do
    let trace ← balance floating text
    return trace.print

end

end MallocLab.Checktrace
