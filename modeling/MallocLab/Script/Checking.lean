import MallocLab.Checktrace.Balancing
import MallocLab.Script.Holding

/-! # `checktrace.pl` on a printed trace

The table of the script knows the texts of the ids that have a block. So what
it prints is the balanced trace, or the first request that is not allowed.
-/

namespace MallocLab.Script

open Text Checktrace

variable {entry : Entry} {entries : List Entry} {script : Script} {text : List Char}
  {hash after : Hash} {held final : Finset Nat} {linenum : Nat}
  {floating : List Char → Nat → List Char}

/-! ## Requests that are not allowed -/

/-- What is said of a request that is not allowed. -/
def Entry.complaint : Entry → String
  | alloc _ _ => "allocate with no intervening free."
  | realloc _ _ => "realloc without previous alloc"
  | free _ => "freeing unallocated block."

/-- The ids with a block after some requests, or the first that is not allowed
with the number of its line. -/
def inspect : Nat → Finset Nat → List Entry → Except Death (Finset Nat)
  | _, held, [] => .ok held
  | linenum, held, entry :: rest =>
      match entry.step held with
      | none => .error (.error linenum entry.complaint)
      | some next => inspect (linenum + 1) next rest

theorem inspect_ok_iff :
    inspect linenum held entries = .ok final ↔ holding held entries = some final := by
  induction entries generalizing linenum held with
  | nil => simp [inspect, holding]
  | cons entry rest induction =>
      rw [inspect, holding, List.foldlM_cons]
      cases entry.step held with
      | none => simp
      | some next => exact induction

/-! ## One request -/

theorem words_print (entry : Entry) :
    words entry.print = [Entry.letter entry.type] :: numeral entry.id ::
      (entry.size?.map numeral).toList := by
  have space : ∀ {value : Nat}, ∀ c ∈ numeral value, isSpace c = false :=
    fun c member => isSpace_of_mem_numeral member
  have behind (letter : Char) (rest : List Char) (proper : isSpace letter = false) :
      words (letter :: ' ' :: rest) = [letter] :: words rest :=
    words_append_space (List.cons_ne_nil letter []) (by simpa using proper) rest
  cases entry with
  | alloc id size =>
      rw [Entry.print, behind 'a' _ (by decide),
        words_append_space (numeral_ne_nil id) space, words_of_proper (numeral_ne_nil size) space]
      rfl
  | realloc id size =>
      rw [Entry.print, behind 'r' _ (by decide),
        words_append_space (numeral_ne_nil id) space, words_of_proper (numeral_ne_nil size) space]
      rfl
  | free id =>
      rw [Entry.print, behind 'f' _ (by decide), words_of_proper (numeral_ne_nil id) space]
      rfl

theorem cmdOf_print (entry : Entry) : cmdOf entry.print = [Entry.letter entry.type] := by
  rw [cmdOf, words_print]
  rfl

theorem idOf_print (entry : Entry) : idOf entry.print = numeral entry.id := by
  rw [idOf, words_print]
  rfl

theorem isRequest_print (entry : Entry) : IsRequest entry.print := by
  rw [IsRequest, cmdOf_print]
  cases entry.type <;> decide

/-- The table knows the texts of the ids that have a block. -/
structure Knows (hash : Hash) (held : Finset Nat) : Prop where
  sound : Sound hash
  keys : ∀ key, key ∈ hash ↔ ∃ id ∈ held, numeral id = key

theorem Knows.numeral_mem (knows : Knows hash held) {id : Nat} :
    numeral id ∈ hash ↔ id ∈ held := by
  rw [knows.keys]
  constructor
  · rintro ⟨other, member, same⟩
    rwa [← numeral_injective same]
  · exact fun member => ⟨id, member, rfl⟩

theorem knows_empty : Knows ∅ ∅ where
  sound := sound_empty
  keys key := iff_of_false (AList.notMem_empty key) (by simp)

/-- The table with an id more. -/
theorem Knows.insert (knows : Knows hash held) (id : Nat) :
    Knows (AList.insert (numeral id) ['a'] hash) (Insert.insert id held) where
  sound := by
    refine ⟨fun key member => ?_, fun key member => ?_⟩
    · rw [value_insert]
      split
      · rfl
      · exact knows.sound.values key ((AList.mem_insert _).mp member |>.resolve_left ‹_›)
    · rcases (AList.mem_insert _).mp member with rfl | known
      · exact fun c inside => isSpace_of_mem_numeral inside
      · exact knows.sound.words key known
  keys key := by
    rw [AList.mem_insert, knows.keys]
    simp [eq_comm]

/-- The table with an id less. -/
theorem Knows.erase (knows : Knows hash held) (id : Nat) :
    Knows (AList.erase (numeral id) hash) (held.erase id) where
  sound := by
    refine ⟨fun key member => ?_, fun key member => ?_⟩
    · rw [AList.mem_erase] at member
      rw [value_erase_of_ne member.1]
      exact knows.sound.values key member.2
    · rw [AList.mem_erase] at member
      exact knows.sound.words key member.2
  keys key := by
    rw [AList.mem_erase, knows.keys]
    constructor
    · rintro ⟨other, numbered, member, rfl⟩
      exact ⟨numbered, Finset.mem_erase.mpr ⟨fun same => other (same ▸ rfl), member⟩, rfl⟩
    · rintro ⟨numbered, member, rfl⟩
      rw [Finset.mem_erase] at member
      exact ⟨fun same => member.1 (numeral_injective same), numbered, member.2, rfl⟩

/-- A request that is allowed does to the table what it does to the ids with a
block, and the script dies of any other. -/
theorem Knows.request (knows : Knows hash held) (linenum : Nat) (entry : Entry) :
    match entry.step held with
    | none => Checktrace.request linenum hash (cmdOf entry.print) (idOf entry.print) =
        .error (.error linenum entry.complaint)
    | some next => ∃ after,
        Checktrace.request linenum hash (cmdOf entry.print) (idOf entry.print) = .ok after ∧
          Knows after next := by
  rw [cmdOf_print, idOf_print]
  have known : numeral entry.id ∈ hash ↔ entry.id ∈ held := knows.numeral_mem
  by_cases member : entry.id ∈ held
  · have value := knows.sound.values _ (known.mpr member)
    cases entry with
    | alloc id size =>
        simp only [Entry.id] at member value
        simp [Entry.step, member, Checktrace.request, Entry.letter, Entry.type, Entry.id, value,
          Entry.complaint]
    | realloc id size =>
        simp only [Entry.id] at member value
        simp only [Entry.step, member, if_true]
        exact ⟨hash, by simp [Checktrace.request, Entry.letter, Entry.type, Entry.id, value,
          IsTrue], knows⟩
    | free id =>
        simp only [Entry.id] at member value known
        simp only [Entry.step, member, if_true]
        exact ⟨hash.erase (numeral id), by simp [Checktrace.request, Entry.letter, Entry.type,
          Entry.id, value, known, member, negation, IsTrue], knows.erase id⟩
  · have value := value_of_notMem (mt known.mp member)
    cases entry with
    | alloc id size =>
        simp only [Entry.id] at member value
        simp only [Entry.step, member, if_false]
        exact ⟨hash.insert (numeral id) ['a'], by simp [Checktrace.request, Entry.letter,
          Entry.type, Entry.id, value], knows.insert id⟩
    | realloc id size =>
        simp only [Entry.id] at member value
        simp [Entry.step, member, Checktrace.request, Entry.letter, Entry.type, Entry.id, value,
          Entry.complaint, IsTrue]
    | free id =>
        simp only [Entry.id] at member known
        simp [Entry.step, member, Checktrace.request, Entry.letter, Entry.type, Entry.id, known,
          Entry.complaint]

/-! ## All requests -/

theorem readLines_print (linenum : Nat) (entries : List Entry) (knows : Knows hash held) :
    match inspect linenum held entries with
    | .error death => readLines linenum hash (entries.map Entry.print) = .error death
    | .ok final => ∃ after,
        readLines linenum hash (entries.map Entry.print) = .ok (after, entries.map Entry.print) ∧
          Knows after final := by
  induction entries generalizing linenum hash held with
  | nil => exact ⟨hash, rfl, knows⟩
  | cons entry rest induction =>
      have request := knows.request linenum entry
      have isTrue : ¬¬IsTrue (cmdOf entry.print) := not_not.mpr (isRequest_print entry)
      rw [inspect, List.map_cons, readLines, if_neg isTrue]
      cases step : entry.step held with
      | none =>
          rw [step] at request
          rw [request]
          rfl
      | some next =>
          rw [step] at request
          rcases request with ⟨middle, accepted, known⟩
          have later := induction (linenum + 1) known
          rw [accepted]
          simp only
          cases result : inspect (linenum + 1) next rest with
          | error death =>
              rw [result] at later
              simp only at later ⊢
              change (readLines _ middle _ >>= _) = _
              rw [later]
              rfl
          | ok final =>
              rw [result] at later
              rcases later with ⟨after, read, knows⟩
              refine ⟨after, ?_, knows⟩
              change (readLines _ middle _ >>= _) = _
              rw [read]
              rfl

/-- The keys of the table in the order in which they are printed. -/
theorem Knows.sortedKeys (knows : Knows hash held) :
    Checktrace.sortedKeys hash = (released held).map numeral := by
  have members : hash.keys.Perm ((held.sort (· ≤ ·)).map numeral) := by
    refine (List.perm_ext_iff_of_nodup hash.keys_nodup
      ((held.sort_nodup (· ≤ ·)).map numeral_injective)).mpr fun key => ?_
    simp [← AList.mem_keys, knows.keys]
  rw [released, List.map_insertionSort _ (· ≤ ·) numeral _ fun _ _ _ _ => Iff.rfl]
  exact ((List.perm_insertionSort _ _).trans (members.trans
    (List.perm_insertionSort _ _).symm)).eq_of_pairwise'
      (List.pairwise_insertionSort _ _) (List.pairwise_insertionSort _ _)

/-! ## The whole script -/

theorem newNumOps_numeral {numOps more : Nat} (small : numOps + more < 2 ^ 64) :
    newNumOps floating (numeral numOps) more = numeral (numOps + more) := by
  have whole : wholeNumber (numeral numOps) = some (numOps : Int) := by
    rw [numeral, ← showInt_natCast]
    exact wholeNumber_showInt numOps
  rw [newNumOps_of_wholeNumber whole small, showInt_natCast]
  rfl

theorem Knows.length_keys (knows : Knows hash held) : hash.keys.length = held.card := by
  have sorted := congrArg List.length knows.sortedKeys
  simpa [Checktrace.sortedKeys, released] using sorted

/-- A trace as the checker prints it. -/
def written (script : Script) : Checktrace.Trace :=
  ⟨numeral script.heapSize, numeral script.numIds, numeral script.numOps, numeral script.weight,
    script.entries.map Entry.print⟩

/-- The balanced trace, with the sum that Perl prints. -/
def emitted (floating : List Char → Nat → List Char) (script : Script) (held : Finset Nat) :
    Checktrace.Trace :=
  { (script.balanced held).written with
    numOps := newNumOps floating (numeral script.numOps) held.card }

/-- What the checker says of the ids that have a block behind the last line. -/
def verdict (floating : List Char → Nat → List Char) (summary : Bool) (script : Script)
    (held : Finset Nat) : List Char :=
  if summary then
    if held = ∅ then "Balanced trace.\n".toList else "Unbalanced tree.\n".toList
  else (script.emitted floating held).print

/-- Below `2 ^ 64` the sum is the one of the balanced trace. -/
theorem verdict_of_small (small : script.numOps + held.card < 2 ^ 64) :
    verdict floating false script held = (script.balanced held).print := by
  rw [verdict, if_neg Bool.false_ne_true, emitted, newNumOps_numeral small]
  rfl

theorem map_free_print (ids : List Nat) :
    (ids.map Entry.free).map Entry.print = (ids.map numeral).map freeLine := by
  rw [List.map_map, List.map_map]
  rfl

theorem drop_lines (shows : Shows text script) :
    (Text.lines text).drop 4 = script.entries.map Entry.print := by
  rw [lines_of_shows shows]
  rfl

theorem balance_script (shows : Shows text script)
    (read : readLines 5 ∅ (script.entries.map Entry.print) =
      .ok (hash, script.entries.map Entry.print)) (knows : Knows hash held) :
    balance floating text = .ok (script.emitted floating held) := by
  have behind := drop_lines shows
  have allocated : ¬∃ key ∈ Checktrace.sortedKeys hash,
      hash.value key ≠ ['a'] ∧ hash.value key ≠ ['r'] := by
    rintro ⟨key, member, wrong, _⟩
    exact wrong (knows.sound.values key (mem_sortedKeys.mp member))
  have requests : script.entries.map Entry.print ++ (Checktrace.sortedKeys hash).map freeLine =
      (script.entries ++ (released held).map Entry.free).map Entry.print := by
    rw [List.map_append, map_free_print, knows.sortedKeys]
  simp only [balance, behind, read, bind, Except.bind, if_neg allocated, pure, Except.pure]
  rw [requests, lines_of_shows shows, knows.length_keys]
  rfl

section

variable (shows : Shows text script)

include shows

theorem checktrace_of_ok (inspected : inspect 5 ∅ script.entries = .ok held) (summary : Bool) :
    checktrace floating summary text = .ok (verdict floating summary script held) := by
  have read := readLines_print 5 script.entries knows_empty
  rw [inspected] at read
  rcases read with ⟨hash, read, knows⟩
  cases summary with
  | true =>
      have answer : isBalanced text = .ok hash.keys.isEmpty := by
        rw [isBalanced, drop_lines shows, read]
        rfl
      have empty : hash.keys.isEmpty = true ↔ held = ∅ := by
        rw [List.isEmpty_iff, ← List.length_eq_zero_iff, knows.length_keys, Finset.card_eq_zero]
      rw [checktrace, if_pos rfl, answer]
      by_cases balanced : held = ∅
      · rw [empty.mpr balanced, balanced]
        rfl
      · rw [Bool.eq_false_iff.mpr (mt empty.mp balanced)]
        simp only [verdict, if_true, if_neg balanced]
        rfl
  | false =>
      rw [checktrace, if_neg Bool.false_ne_true, balance_script shows read knows]
      rfl

theorem checktrace_balanced (inspected : inspect 5 ∅ script.entries = .ok held)
    (small : script.numOps + held.card < 2 ^ 64) :
    checktrace floating false text = .ok (script.balanced held).print := by
  rw [checktrace_of_ok shows inspected, verdict_of_small small]

theorem checktrace_of_error {death : Death}
    (inspected : inspect 5 ∅ script.entries = .error death) (summary : Bool) :
    checktrace floating summary text = .error death := by
  have read := readLines_print 5 script.entries knows_empty
  rw [inspected] at read
  simp only at read
  cases summary with
  | true =>
      have dies : isBalanced text = .error death := by
        rw [isBalanced, drop_lines shows, read]
        rfl
      rw [checktrace, if_pos rfl, dies]
      rfl
  | false =>
      have dies : balance floating text = .error death := by
        simp only [balance]
        rw [drop_lines shows, read]
        rfl
      rw [checktrace, if_neg Bool.false_ne_true, dies]
      rfl

end

/-- On a trace in the format of the README the checker dies of the first request
that is not allowed, and says which line that is. Else it prints the trace with
a free for every id that still has a block, or whether there is one. The count in
the header is exact below `2 ^ 64`. -/
theorem checktrace_script (floating : List Char → Nat → List Char) (summary : Bool)
    (shows : Shows text script) :
    checktrace floating summary text =
        (inspect 5 ∅ script.entries).map (verdict floating summary script) ∧
      ∀ held : Finset Nat, script.numOps + held.card < 2 ^ 64 →
        verdict floating false script held = (script.balanced held).print := by
  refine ⟨?_, fun held small => verdict_of_small small⟩
  cases inspected : inspect 5 ∅ script.entries with
  | error death => exact checktrace_of_error shows inspected summary
  | ok held => exact checktrace_of_ok shows inspected summary

/-- Two blocks that are never given up. -/
def twoKept : Script := ⟨8, 11, 3, 1, [.alloc 10 8, .alloc 2 4, .realloc 2 16]⟩

theorem checktrace_script_two_kept :
    checktrace (fun _ _ => []) false twoKept.print =
        (inspect 5 ∅ twoKept.entries).map (verdict (fun _ _ => []) false twoKept) ∧
      ∀ held : Finset Nat, 3 + held.card < 2 ^ 64 →
        verdict (fun _ _ => []) false twoKept held = (twoKept.balanced held).print :=
  checktrace_script _ _ (.inl rfl)

end MallocLab.Script
