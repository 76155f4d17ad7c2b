import MallocLab.Driver.Acceptance
import MallocLab.Foundation.Numerals

/-! # The trace file format of `traces/README`

Four numbers and then one line for each request. What the requests may be is
the protocol: a block is resized or given up only while its id has one.
-/

namespace MallocLab.Script

open Text Driver

/-- A request line. -/
inductive Entry
  | alloc (id size : Nat)
  | realloc (id size : Nat)
  | free (id : Nat)
  deriving DecidableEq, Repr

namespace Entry

def type : Entry → OpType
  | alloc _ _ => .alloc
  | realloc _ _ => .realloc
  | free _ => .free

def id : Entry → Nat
  | alloc id _ => id
  | realloc id _ => id
  | free id => id

def size? : Entry → Option Nat
  | alloc _ size => some size
  | realloc _ size => some size
  | free _ => none

def letter : OpType → Char
  | .alloc => 'a'
  | .realloc => 'r'
  | .free => 'f'

def print : Entry → List Char
  | alloc id size => 'a' :: ' ' :: (numeral id ++ ' ' :: numeral size)
  | realloc id size => 'r' :: ' ' :: (numeral id ++ ' ' :: numeral size)
  | free id => 'f' :: ' ' :: numeral id

/-- The numbers of a request are `int`s. -/
def Small (entry : Entry) : Prop :=
  entry.id < 2 ^ 31 ∧ ∀ size ∈ entry.size?, size < 2 ^ 31

/-- The larger of a number and the id, unless the request is a free. -/
def raise (most : Nat) (entry : Entry) : Nat :=
  if entry.type = .free then most else max entry.id most

/-- The ids with a block after a request, if it is allowed. -/
def step (held : Finset Nat) : Entry → Option (Finset Nat)
  | alloc id _ => if id ∈ held then none else some (insert id held)
  | realloc id _ => if id ∈ held then some held else none
  | free id => if id ∈ held then some (held.erase id) else none

theorem sized_of_mem {entry : Entry} {size : Nat} (given : size ∈ entry.size?) :
    entry.type ≠ .free := by
  intro free
  cases entry with
  | alloc id count => cases free
  | realloc id count => cases free
  | free id => cases given

theorem exists_size {entry : Entry} (sized : entry.type ≠ .free) :
    ∃ size, entry.size? = some size := by
  cases entry with
  | alloc id size => exact ⟨size, rfl⟩
  | realloc id size => exact ⟨size, rfl⟩
  | free id => exact absurd rfl sized

end Entry

/-- The ids with a block after some requests, if all of them are allowed. -/
def holding (held : Finset Nat) (entries : List Entry) : Option (Finset Nat) :=
  entries.foldlM Entry.step held

/-- The largest id of the `a` and `r` lines. -/
def maxIndex (entries : List Entry) : Nat := entries.foldl Entry.raise 0

end Script

/-- A trace file. -/
structure Script where
  heapSize : Nat
  numIds : Nat
  numOps : Nat
  weight : Nat
  entries : List Script.Entry
  deriving DecidableEq

namespace Script

open Text Driver

def lines (script : Script) : List (List Char) :=
  numeral script.heapSize :: numeral script.numIds :: numeral script.numOps ::
    numeral script.weight :: script.entries.map Entry.print

def print (script : Script) : List Char := unlines script.lines

/-- The text of a trace, the last line of which need not be ended. -/
def Shows (text : List Char) (script : Script) : Prop :=
  text = script.print ∨ text ++ ['\n'] = script.print

/-- The header counts the requests, and the ids of the blocks are numbered. -/
structure Counted (script : Script) : Prop where
  numOps : script.numOps = script.entries.length
  numIds : script.numIds = maxIndex script.entries + 1

/-- The counts of the header and every number of the requests are `int`s. -/
structure Small (script : Script) : Prop where
  numIds : script.numIds < 2 ^ 31
  numOps : script.numOps < 2 ^ 31
  entries : ∀ entry ∈ script.entries, entry.Small

/-! ## Characters of a line -/

section Lines

variable {entry : Entry} {entries : List Entry} {script : Script} {c : Char}

/-- The text of a request behind its letter. -/
def Entry.arguments : Entry → List Char
  | .alloc id size => ' ' :: (numeral id ++ ' ' :: numeral size)
  | .realloc id size => ' ' :: (numeral id ++ ' ' :: numeral size)
  | .free id => ' ' :: numeral id

theorem Entry.print_eq (entry : Entry) :
    entry.print = Entry.letter entry.type :: entry.arguments := by
  cases entry <;> rfl

theorem mem_print (member : c ∈ entry.print) :
    c = Entry.letter entry.type ∨ c = ' ' ∨ c.isDigit = true := by
  rw [Entry.print_eq, List.mem_cons] at member
  refine member.imp_right fun inside => ?_
  have digit : ∀ {value : Nat}, c ∈ numeral value → c.isDigit = true := isDigit_of_mem_numeral
  cases entry <;>
    simp only [Entry.arguments, List.mem_cons, List.mem_append] at inside <;>
    tauto

theorem newline_notMem_numeral (value : Nat) : '\n' ∉ numeral value := fun member =>
  absurd (isDigit_of_mem_numeral member) (by decide)

theorem newline_notMem_print (entry : Entry) : '\n' ∉ entry.print := by
  intro member
  rcases mem_print member with letter | space | digit
  · have notNewline : ∀ type, '\n' ≠ Entry.letter type := by
      intro type
      cases type <;> decide
    exact notNewline _ letter
  · exact absurd space (by decide)
  · exact absurd digit (by decide)

theorem newline_notMem (script : Script) : ∀ line ∈ script.lines, '\n' ∉ line := by
  simp only [lines, List.forall_mem_cons, List.forall_mem_map]
  exact ⟨newline_notMem_numeral _, newline_notMem_numeral _, newline_notMem_numeral _,
    newline_notMem_numeral _, fun entry _ => newline_notMem_print entry⟩

theorem print_ne_nil (entry : Entry) : entry.print ≠ [] := by
  rw [Entry.print_eq]
  exact List.cons_ne_nil _ _

theorem lines_ne_nil (script : Script) : ∀ line ∈ script.lines, line ≠ [] := by
  simp only [lines, List.forall_mem_cons, List.forall_mem_map]
  exact ⟨numeral_ne_nil _, numeral_ne_nil _, numeral_ne_nil _, numeral_ne_nil _,
    fun entry _ => print_ne_nil entry⟩

theorem lines_of_shows {text : List Char} (shows : Shows text script) :
    Text.lines text = script.lines := by
  rcases shows with rfl | ended
  · exact lines_unlines (newline_notMem script)
  · exact lines_of_unended (newline_notMem script) ended fun last =>
      lines_ne_nil script [] (List.mem_of_getLast? last) rfl

/-- Where the newlines are put in front of the lines. -/
theorem unlines_cons (first : List Char) (rest : List (List Char)) :
    unlines (first :: rest) = first ++ (rest.flatMap fun line => '\n' :: line) ++ ['\n'] := by
  induction rest generalizing first with
  | nil => simp [unlines]
  | cons second rest induction =>
      have later := induction second
      simp only [unlines, List.flatMap_cons] at later ⊢
      simp [later]

/-- The requests in a text, each behind a newline. -/
def body (entries : List Entry) : List Char := entries.flatMap fun entry => '\n' :: entry.print

/-- The text of a trace up to what follows the last line. -/
theorem Shows.split {text : List Char} (shows : Shows text script) :
    ∃ ending, (ending = [] ∨ ending = ['\n']) ∧
      text = numeral script.heapSize ++ '\n' :: (numeral script.numIds ++ '\n' ::
        (numeral script.numOps ++ '\n' :: (numeral script.weight ++
          (body script.entries ++ ending)))) := by
  have whole : script.print = numeral script.heapSize ++ '\n' :: (numeral script.numIds ++ '\n' ::
      (numeral script.numOps ++ '\n' :: (numeral script.weight ++
        (body script.entries ++ ['\n'])))) := by
    simp [print, lines, unlines_cons, body, List.flatMap_map]
  rcases shows with rfl | ended
  · exact ⟨['\n'], .inr rfl, whole⟩
  · refine ⟨[], .inl rfl, ?_⟩
    refine List.append_left_injective ['\n'] (ended.trans (whole.trans ?_))
    simp

end Lines

end Script

end MallocLab
