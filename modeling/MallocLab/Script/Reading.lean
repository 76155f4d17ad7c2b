import MallocLab.Driver.TraceFile
import MallocLab.Script.Format

/-! # `read_trace` on a printed trace

What was printed in the format of the README is what `read_trace` stores, and
it returns if and only if the header counts the requests and the blocks.
-/

namespace MallocLab.Script

open Program Text Driver

variable {reading start : Reading} {entry : Entry} {entries : List Entry} {script : Script}
  {text rest ending : List Char} {value fuel : Nat}

/-! ## Numbers -/

theorem readInt_numeral (noDigit : NoDigit rest) :
    readInt (numeral value ++ rest) = (some (min 2147483647 (value : Int)), rest) := by
  simp [readInt, skipSpace_numeral, sign_numeral, digits_numeral noDigit, numeral_ne_nil,
    number_numeral, afterDigits_numeral noDigit]

theorem readInt_space {c : Char} (space : isSpace c = true) (text : List Char) :
    readInt (c :: text) = readInt text := by
  rw [readInt, readInt, skipSpace_space space]

theorem readUnsigned_numeral (noDigit : NoDigit rest) (small : value < 2 ^ 32) {c : Char}
    (space : isSpace c = true) :
    readUnsigned (c :: (numeral value ++ rest)) = (some value, rest) := by
  have below : ¬4294967296 ≤ value := by omega
  simp [readUnsigned, skipSpace_space space, skipSpace_numeral, sign_numeral,
    digits_numeral noDigit, numeral_ne_nil, number_numeral, afterDigits_numeral noDigit, below]

theorem noDigit_cons {c : Char} (notDigit : c.isDigit = false) : NoDigit (c :: rest) := by
  intro first head
  cases head
  exact notDigit

/-! ## The header -/

/-- What may follow the last line. -/
def Ending (text : List Char) : Prop := text = [] ∨ text = ['\n']

theorem noDigit_body (ends : Ending ending) : NoDigit (body entries ++ ending) := by
  cases entries with
  | nil =>
      rcases ends with rfl | rfl
      · exact fun _ head => by cases head
      · exact noDigit_cons (by decide)
  | cons entry rest => exact noDigit_cons (by decide)

theorem ensures_readHeader (ends : Ending ending) (small : script.Small)
    (input : start.input = numeral script.heapSize ++ '\n' :: (numeral script.numIds ++ '\n' ::
        (numeral script.numOps ++ '\n' :: (numeral script.weight ++
          (body script.entries ++ ending)))))
    (goal : Unit → Reading → Prop) :
    Ensures readHeader start goal ↔ goal () { start with
      input := body script.entries ++ ending
      numIds := script.numIds
      numOps := script.numOps } := by
  have newline : ∀ text, NoDigit ('\n' :: text) := fun _ => noDigit_cons (by decide)
  have space : isSpace '\n' = true := by decide
  have ids : min 2147483647 (script.numIds : Int) = script.numIds := by
    have := small.numIds
    omega
  have ops : min 2147483647 (script.numOps : Int) = script.numOps := by
    have := small.numOps
    omega
  simp only [readHeader, ensures_bind, ensures_scan, input, readInt_numeral (newline _),
    readInt_space space, readInt_numeral (noDigit_body ends), ensures_pure, ids, ops]

/-! ## One line -/

theorem kind_letter (type : OpType) : kind [Entry.letter type] = some type := by
  cases type <;> rfl

theorem isSpace_letter (type : OpType) : isSpace (Entry.letter type) = false := by
  cases type <;> decide

/-- Behind the letter of a line there is a space. -/
theorem word_print (entry : Entry) (rest : List Char) :
    skipSpace ('\n' :: (entry.print ++ rest)) = entry.print ++ rest ∧
      word (entry.print ++ rest) = [Entry.letter entry.type] ∧
      afterWord (entry.print ++ rest) = entry.arguments ++ rest := by
  have letter := isSpace_letter entry.type
  rw [Entry.print_eq, List.cons_append, skipSpace_space (by decide)]
  refine ⟨List.dropWhile_cons_of_neg (by simp [letter]), ?_, ?_⟩
  · cases entry <;> simp [word, Entry.arguments, isSpace, Entry.letter, Entry.type]
  · cases entry <;> simp [afterWord, Entry.arguments, isSpace, Entry.letter, Entry.type]

/-- The size of the last request, where there is one. -/
def sizeOr (size : Nat) (entry : Entry) : Nat := entry.size?.getD size

/-- What the loop knows once it has stored a line. -/
def record (reading : Reading) (entry : Entry) (rest : List Char) : Reading :=
  { reading with
    input := rest
    index := entry.id
    size := sizeOr reading.size entry
    maxIndex := entry.raise reading.maxIndex
    ops := Function.update reading.ops reading.opIndex
      ⟨entry.type, toInt entry.id,
        if entry.type = .free then (reading.ops reading.opIndex).size
        else toInt (sizeOr reading.size entry)⟩
    opIndex := reading.opIndex + 1 }

theorem readUnsigned_pair (noDigit : NoDigit rest) {id size : Nat} (idSmall : id < 2 ^ 31)
    (sizeSmall : size < 2 ^ 31) :
    readUnsigned (' ' :: (numeral id ++ ' ' :: (numeral size ++ rest))) =
        (some id, ' ' :: (numeral size ++ rest)) ∧
      readUnsigned (' ' :: (numeral size ++ rest)) = (some size, rest) := by
  have space : isSpace ' ' = true := by decide
  exact ⟨readUnsigned_numeral (noDigit_cons (by decide)) (by omega) space,
    readUnsigned_numeral noDigit (by omega) space⟩

theorem next_print (noDigit : NoDigit rest) (notD : ∀ c ∈ rest.head?, c ≠ 'd')
    (idSmall : entry.id < 2 ^ 31) (sizeSmall : ∀ size ∈ entry.size?, size < 2 ^ 31) :
    reading.next entry.type (entry.arguments ++ rest) = record reading entry rest := by
  cases entry with
  | alloc id size =>
      have pair := readUnsigned_pair noDigit (show id < 2 ^ 31 from idSmall) (sizeSmall size rfl)
      simp [Reading.next, idBehind, Entry.type, Entry.arguments, pair.1, pair.2, record,
        Entry.id, sizeOr, Entry.size?, Entry.raise]
  | realloc id size =>
      have pair := readUnsigned_pair noDigit (show id < 2 ^ 31 from idSmall) (sizeSmall size rfl)
      simp [Reading.next, idBehind, Entry.type, Entry.arguments, pair.1, pair.2, record,
        Entry.id, sizeOr, Entry.size?, Entry.raise]
  | free id =>
      have single : readUnsigned (' ' :: (numeral id ++ rest)) = (some id, rest) :=
        readUnsigned_numeral noDigit (by simp only [Entry.id] at idSmall; omega) (by decide)
      have literal : readLiteral 'd' rest = rest := by
        cases rest with
        | nil => rfl
        | cons c others => exact if_neg (notD c rfl)
      simp [Reading.next, idBehind, Entry.type, Entry.arguments, single, literal, record,
        Entry.id, sizeOr, Entry.size?, Entry.raise]

/-! ## All lines -/

theorem body_head (ends : Ending ending) : ∀ c ∈ (body entries ++ ending).head?, c ≠ 'd' := by
  intro c head
  cases entries with
  | nil =>
      rcases ends with rfl | rfl <;> cases head
      decide
  | cons entry rest =>
      cases head
      decide

/-- One round of the loop on a printed trace. -/
theorem ensures_line (ends : Ending ending) (small : entry.Small)
    (input : reading.input = body (entry :: entries) ++ ending)
    (goal : Option Char → Reading → Prop) :
    Ensures (readOps (fuel + 1)) reading goal ↔ (reading.opIndex : Int) < reading.numOps ∧
      Ensures (readOps fuel) (record reading entry (body entries ++ ending)) goal := by
  have shape : reading.input = '\n' :: (entry.print ++ (body entries ++ ending)) := by
    simp [input, body]
  have facts := word_print entry (body entries ++ ending)
  have nonempty : entry.print ++ (body entries ++ ending) ≠ [] := by simp [Entry.print_eq]
  have short : [Entry.letter entry.type].length < maxLine := Nat.lt_of_lt_of_le Nat.one_lt_two
    (by decide)
  rw [ensures_round, shape, facts.1, if_neg nonempty, facts.2.1, facts.2.2, kind_letter]
  simp only [next_print (noDigit_body ends) (body_head ends) small.1 small.2]
  exact and_iff_right short

theorem ensures_ending (ends : Ending ending) (input : reading.input = ending)
    (goal : Option Char → Reading → Prop) :
    Ensures (readOps (fuel + 1)) reading goal ↔ goal none { reading with input := [] } := by
  have blank : skipSpace reading.input = [] := by
    rw [input]
    rcases ends with rfl | rfl <;> rfl
  rw [ensures_round, blank, if_pos rfl]

/-- An element of `ops` that holds a request. -/
def Stored (op : StoredOp) (entry : Entry) : Prop :=
  op.type = entry.type ∧ op.index = entry.id ∧ ∀ size ∈ entry.size?, op.size = size

/-- What the loop leaves behind when it read these requests. -/
structure Recorded (before : Reading) (entries : List Entry) (after : Reading) : Prop where
  numIds : after.numIds = before.numIds
  numOps : after.numOps = before.numOps
  opIndex : after.opIndex = before.opIndex + entries.length
  maxIndex : after.maxIndex = entries.foldl Entry.raise before.maxIndex
  earlier : ∀ i < before.opIndex, after.ops i = before.ops i
  stored : ∀ i entry, entries[i]? = some entry → Stored (after.ops (before.opIndex + i)) entry

theorem stored_record (small : entry.Small) :
    Stored ((record reading entry rest).ops reading.opIndex) entry := by
  rcases small with ⟨idSmall, sizeSmall⟩
  have id : toInt entry.id = entry.id := toInt_of_lt (by omega)
  simp only [Stored, record, Function.update_self, id, true_and]
  intro size given
  have sized := Entry.sized_of_mem given
  have value : toInt size = size := toInt_of_lt (by have := sizeSmall size given; omega)
  rw [if_neg sized, sizeOr, Option.mem_def.mp given, Option.getD_some, value]

theorem Recorded.cons (small : entry.Small) {after : Reading}
    (later : Recorded (record reading entry rest) entries after) :
    Recorded reading (entry :: entries) after where
  numIds := later.numIds
  numOps := later.numOps
  opIndex := by
    rw [later.opIndex, List.length_cons, Nat.add_comm entries.length, ← Nat.add_assoc]
    rfl
  maxIndex := later.maxIndex
  earlier i inside := by
    rw [later.earlier i (Nat.lt_succ_of_lt inside), record]
    exact Function.update_of_ne (Nat.ne_of_lt inside) _ _
  stored i other given := by
    cases i with
    | zero =>
        cases given
        rw [Nat.add_zero, later.earlier reading.opIndex (Nat.lt_succ_self _)]
        exact stored_record small
    | succ i =>
        have found := later.stored i other given
        rwa [record, Nat.add_right_comm] at found

/-- Requests for which `ops` has room are stored. -/
theorem readOps_recorded (ends : Ending ending) (small : ∀ entry ∈ entries, entry.Small)
    (input : reading.input = body entries ++ ending)
    (room : (reading.opIndex + entries.length : Int) ≤ reading.numOps)
    (enough : entries.length < fuel) :
    Ensures (readOps fuel) reading fun ended after =>
      ended = none ∧ Recorded reading entries after := by
  induction entries generalizing reading fuel with
  | nil =>
      obtain ⟨fuel, rfl⟩ := Nat.exists_eq_succ_of_ne_zero (Nat.ne_of_gt enough)
      rw [ensures_ending ends input]
      exact ⟨rfl, rfl, rfl, rfl, rfl, fun _ _ => rfl, fun i entry given => by simp at given⟩
  | cons entry entries induction =>
      obtain ⟨fuel, rfl⟩ := Nat.exists_eq_succ_of_ne_zero (Nat.ne_of_gt (Nat.zero_lt_of_lt enough))
      rw [List.forall_mem_cons] at small
      rw [List.length_cons] at room enough
      rw [ensures_line ends small.1 input]
      have later : Ensures (readOps fuel) (record reading entry (body entries ++ ending)) _ :=
        induction small.2 rfl (by simp only [record]; omega) (by omega)
      exact ⟨by omega, later.mono fun ended after run => ⟨run.1, run.2.cons small.1⟩⟩

/-- More requests than `ops` has room for have no outcome. -/
theorem readOps_overflow (ends : Ending ending) (small : ∀ entry ∈ entries, entry.Small)
    (input : reading.input = body entries ++ ending) (inside : (reading.opIndex : Int) ≤ reading.numOps)
    (overflow : reading.numOps < reading.opIndex + entries.length)
    (goal : Option Char → Reading → Prop) : ¬Ensures (readOps fuel) reading goal := by
  induction entries generalizing reading fuel with
  | nil =>
      rw [List.length_nil] at overflow
      omega
  | cons entry entries induction =>
      rw [List.forall_mem_cons] at small
      rw [List.length_cons] at overflow
      cases fuel with
      | zero => exact ensures_fault _ _
      | succ fuel =>
          rw [ensures_line ends small.1 input]
          rintro ⟨room, later⟩
          refine induction small.2 rfl ?_ ?_ later <;>
            · simp only [record]
              omega

/-! ## The whole file -/

theorem readHeader_print (ends : Ending ending) (small : script.Small)
    (input : start.input = numeral script.heapSize ++ '\n' :: (numeral script.numIds ++ '\n' ::
        (numeral script.numOps ++ '\n' :: (numeral script.weight ++
          (body script.entries ++ ending))))) :
    readHeader start = some ((), { start with
      input := body script.entries ++ ending
      numIds := script.numIds
      numOps := script.numOps }) := by
  obtain ⟨_, after, run, rfl⟩ := (ensures_readHeader ends small input
    fun _ after => after = _).mpr rfl
  exact run

/-- A trace record that holds the requests of a script. -/
structure Records (after : Reading) (script : Script) : Prop where
  numIds : after.numIds = script.numIds
  numOps : after.numOps = script.numOps
  opIndex : after.opIndex = script.entries.length
  ops : ∀ i entry, script.entries[i]? = some entry → Stored (after.ops i) entry

theorem raise_lt {most : Nat} (bounded : most < 2 ^ 31) (small : ∀ entry ∈ entries, entry.Small) :
    entries.foldl Entry.raise most < 2 ^ 31 := by
  induction entries generalizing most with
  | nil => exact bounded
  | cons entry entries induction =>
      rw [List.forall_mem_cons] at small
      refine induction ?_ small.2
      unfold Entry.raise
      split
      · exact bounded
      · exact Nat.max_lt.mpr ⟨small.1.1, bounded⟩

/-- The assertions of `read_trace` on a printed trace. -/
theorem counted_iff (small : script.Small) :
    script.Counted ↔ maxIndex script.entries = toSizeT ((script.numIds : Int) - 1) ∧
      toSizeT (script.numOps : Int) = script.entries.length := by
  rcases small with ⟨numIds, numOps, small⟩
  have bounded : maxIndex script.entries < 2 ^ 31 := raise_lt (Nat.two_pow_pos 31) small
  have ops : toSizeT (script.numOps : Int) = script.numOps :=
    toSizeT_of_lt (by omega) (by omega)
  have ids : maxIndex script.entries = toSizeT ((script.numIds : Int) - 1) ↔
      script.numIds = maxIndex script.entries + 1 := by
    rcases Nat.eq_zero_or_pos script.numIds with none | some
    · have wrapped : toSizeT ((script.numIds : Int) - 1) = 2 ^ 32 - 1 := by rw [none]; rfl
      omega
    · have last : (script.numIds : Int) - 1 = ((script.numIds - 1 : Nat) : Int) := by omega
      rw [last, toSizeT_of_lt (by omega) (by omega)]
      omega
  rw [ids, ops]
  exact ⟨fun counted => ⟨counted.numIds, counted.numOps⟩, fun both => ⟨both.2, both.1⟩⟩

theorem length_le_body (entries : List Entry) : entries.length ≤ (body entries).length := by
  induction entries with
  | nil => exact Nat.zero_le _
  | cons entry entries induction =>
      simp only [body, List.flatMap_cons, List.length_append, List.length_cons] at induction ⊢
      omega

section

variable (shows : Shows text script) (input : start.input = text) (small : script.Small)

include shows input small

/-- Where `ops` has room for all requests, they are stored. -/
theorem readTrace_records (room : script.entries.length ≤ script.numOps) :
    Ensures readTrace start fun outcome after =>
      (outcome = .returned ↔ script.Counted) ∧ Records after script := by
  obtain ⟨ending, ends, rfl⟩ := shows.split
  rw [ensures_readTrace (readHeader_print ends small input)]
  have long := length_le_body script.entries
  let header : Reading := { start with
    input := body script.entries ++ ending
    numIds := script.numIds
    numOps := script.numOps }
  have run : Ensures (readOps (header.input.length + 1)) header.looping fun ended after =>
      ended = none ∧ Recorded header.looping script.entries after :=
    readOps_recorded ends small.entries rfl (by simp only [header, Reading.looping]; omega)
      (by simp only [header, List.length_append]; omega)
  refine run.mono fun ended after outcome => ?_
  rcases outcome with ⟨rfl, recorded⟩
  have highest : after.maxIndex = maxIndex script.entries := recorded.maxIndex
  have count : after.opIndex = script.entries.length := by
    simpa [header, Reading.looping] using recorded.opIndex
  have ids : after.numIds = script.numIds := recorded.numIds
  have ops : after.numOps = script.numOps := recorded.numOps
  refine ⟨?_, ids, ops, count, by simpa [header, Reading.looping] using recorded.stored⟩
  rw [counted_iff small, highest, count, ids, ops]
  by_cases sameIds : maxIndex script.entries = toSizeT ((script.numIds : Int) - 1)
  · by_cases sameOps : toSizeT (script.numOps : Int) = script.entries.length <;>
      simp [sameIds, sameOps]
  · simp [sameIds]

/-- Where it has not, something behind it is written. -/
theorem not_ensures_readTrace (overflow : script.numOps < script.entries.length)
    (goal : ReadOutcome → Reading → Prop) : ¬Ensures readTrace start goal := by
  obtain ⟨ending, ends, rfl⟩ := shows.split
  rw [ensures_readTrace (readHeader_print ends small input)]
  exact readOps_overflow ends small.entries rfl (Int.natCast_nonneg _)
    (by simp only [Reading.looping]; omega) _

end

/-- For every trace in the format of the README with numbers that are `int`s:
`read_trace` stores its requests one by one and returns exactly if the header
counts them and the blocks, and it stays inside `ops` if and only if the header
does not count too few requests. -/
theorem read_trace_script (shows : Shows text script) (input : start.input = text)
    (small : script.Small) :
    Ensures readTrace start (fun outcome after =>
        (outcome = .returned ↔ script.Counted) ∧ Records after script) ↔
      script.entries.length ≤ script.numOps := by
  constructor
  · intro ensured
    by_contra overflow
    exact not_ensures_readTrace shows input small (Nat.lt_of_not_le overflow) _ ensured
  · exact readTrace_records shows input small

/-- One block, allocated and given up. -/
def allocFree : Script := ⟨0, 1, 2, 1, [.alloc 0 8, .free 0]⟩

theorem read_trace_script_alloc_free :
    Ensures readTrace (opening (twoRequests ++ Driver.allocFree)) (fun outcome after =>
        (outcome = .returned ↔ allocFree.Counted) ∧ Records after allocFree) ↔
      allocFree.entries.length ≤ allocFree.numOps :=
  read_trace_script (.inl (by decide)) rfl
    ⟨by decide, by decide, by simp [allocFree, Entry.Small, Entry.id, Entry.size?]⟩

end MallocLab.Script
