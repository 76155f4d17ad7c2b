import MallocLab.Checktrace.Conformance

/-! # Balancing a balanced trace

The table depends on the saved lines only, and the appended frees empty it. So
a second run ends with nothing to free.
-/

namespace MallocLab.Checktrace

open Text

variable {hash after middle : Hash} {linenum : Nat} {first second saved savedFirst savedSecond :
  List (List Char)}

/-! ## Reading once more -/

/-- Two files in a row are read like one. -/
theorem readLines_append (early : readLines linenum hash first = .ok (middle, savedFirst))
    (late : ∀ later, readLines later middle second = .ok (after, savedSecond)) :
    readLines linenum hash (first ++ second) = .ok (after, savedFirst ++ savedSecond) := by
  induction first generalizing linenum hash savedFirst with
  | nil =>
      cases early
      exact late linenum
  | cons line rest induction =>
      rw [List.cons_append]
      by_cases isRequest : IsRequest line
      · rcases (readLines_request isRequest).mp early with ⟨next, kept, accepted, read, rfl⟩
        exact (readLines_request isRequest).mpr
          ⟨next, kept ++ savedSecond, accepted, induction read, rfl⟩
      · rw [readLines_ignored isRequest] at early ⊢
        exact induction early

/-- The saved lines are accepted under any line numbers, with the same table. -/
theorem readLines_again (sound : Sound hash)
    (proper : ∀ line ∈ first, IsRequest line → IsProper line)
    (read : readLines linenum hash first = .ok (after, saved)) (later : Nat) :
    readLines later hash saved = .ok (after, saved) := by
  induction first generalizing linenum hash saved later with
  | nil =>
      cases read
      rfl
  | cons line rest induction =>
      rw [List.forall_mem_cons] at proper
      by_cases isRequest : IsRequest line
      · rcases (readLines_request isRequest).mp read with ⟨next, kept, accepted, readRest, rfl⟩
        have isProper := proper.1 isRequest
        have accepts := (request_ok_iff sound isProper).mp accepted
        exact (readLines_request isRequest).mpr
          ⟨next, kept, (request_ok_iff sound isProper).mpr accepts,
            induction (accepts.sound sound) proper.2 readRest _, rfl⟩
      · rw [readLines_ignored isRequest] at read
        exact induction sound proper.2 read later

/-! ## The frees -/

theorem eq_empty_of_notMem (none : ∀ id, id ∉ hash) : hash = ∅ := by
  apply AList.ext
  apply List.eq_nil_iff_forall_not_mem.mpr
  intro entry member
  exact none entry.1 (AList.mem_keys.mpr (List.mem_map_of_mem member))

/-- Freeing every id of the table once leaves it empty. -/
theorem readLines_frees {keys : List (List Char)} (sound : Sound hash) (nodup : keys.Nodup)
    (same : ∀ id, id ∈ keys ↔ id ∈ hash) (linenum : Nat) :
    readLines linenum hash (keys.map freeLine) = .ok (∅, keys.map freeLine) := by
  induction keys generalizing hash linenum with
  | nil =>
      have empty : hash = ∅ := eq_empty_of_notMem fun id member => by
        simpa using (same id).mpr member
      rw [empty]
      rfl
  | cons key rest induction =>
      have held : key ∈ hash := (same key).mp List.mem_cons_self
      have own : idOf (freeLine key) = key := idOf_freeLine (sound.words key held)
      have isProper : IsProper (freeLine key) := .inr (.inr (cmdOf_freeLine key))
      have accepts : Accepts hash (freeLine key) (hash.erase key) := by
        have free := Accepts.free (cmdOf_freeLine key) (own.symm ▸ held)
        rwa [own] at free
      have sameRest : ∀ id, id ∈ rest ↔ id ∈ hash.erase key := by
        intro id
        rw [AList.mem_erase, ← same id, List.mem_cons]
        by_cases isKey : id = key
        · subst isKey
          simp [(List.nodup_cons.mp nodup).1]
        · simp [isKey]
      rw [List.map_cons]
      exact (readLines_request isProper.isRequest).mpr
        ⟨hash.erase key, rest.map freeLine, (request_ok_iff sound isProper).mpr accepts,
          induction (accepts.sound sound) (List.nodup_cons.mp nodup).2 sameRest _, rfl⟩

theorem newline_notMem_frees {line : List Char} (sound : Sound hash)
    (member : line ∈ (sortedKeys hash).map freeLine) : '\n' ∉ line := by
  rcases List.mem_map.mp member with ⟨key, isKey, rfl⟩
  intro inside
  have inKey : '\n' ∈ key := by simpa [freeLine] using inside
  exact absurd (sound.words key (mem_sortedKeys.mp isKey) _ inKey) (by decide)

/-! ## The number of operations -/

section

variable {floating : List Char → Nat → List Char} {header : List Char} {count : Nat}

theorem newNumOps_of_wholeNumber (whole : wholeNumber header = some (count : Int)) {more : Nat}
    (small : count + more < 2 ^ 64) :
    newNumOps floating header more = showInt ((count + more : Nat)) := by
  have number : IsInteger count := ⟨by omega, by omega⟩
  have sum : IsInteger ((count : Int) + more) := ⟨by omega, by omega⟩
  rw [newNumOps, whole]
  exact if_pos ⟨number, sum⟩

variable (floating) in
/-- A header stands for a number of requests: twice as many can be counted, and
this is what every sum prints that can come up. -/
structure CountsAs (header : List Char) (count : Nat) : Prop where
  small : count < 2 ^ 63
  sums : ∀ more ≤ count, newNumOps floating header more = showInt ((count + more : Nat))

theorem countsAs_of_wholeNumber (whole : wholeNumber header = some (count : Int))
    (small : count < 2 ^ 63) : CountsAs floating header count :=
  ⟨small, fun more few => newNumOps_of_wholeNumber whole (by omega)⟩

theorem showInt_natCast (count : Nat) : showInt count = Nat.toDigits 10 count := by
  simp [showInt]

theorem isDigit_of_mem_showInt {c : Char} (member : c ∈ showInt count) : c.isDigit = true := by
  rw [showInt_natCast] at member
  exact Nat.isDigit_of_mem_toDigits (by decide) (by decide) member

/-- A printed count is read as that count. -/
theorem wholeNumber_showInt (count : Nat) : wholeNumber (showInt count) = some (count : Int) := by
  have all : ∀ c ∈ Nat.toDigits 10 count, c.isDigit = true := fun c member =>
    Nat.isDigit_of_mem_toDigits (by decide) (by decide) member
  simp only [showInt_natCast, wholeNumber, skipSpace_of_digits all, sign_of_digits all,
    digits_of_digits all, afterDigits_of_digits all]
  simp [number, Nat.ofDigitChars_ten_toDigits]

end

/-! ## The whole script -/

variable {floating : List Char → Nat → List Char} {text output : List Char} {trace : Trace}

/-- The header with the number of operations. -/
def opCount (text : List Char) : List Char := (Text.lines text).getD 2 []

/-- The lines behind the header that are not blank. -/
def requestLines (text : List Char) : List (List Char) :=
  (body text).filter fun line => words line ≠ []

/-- What is promised of a balanced version of some requests. -/
structure Balances (floating : List Char → Nat → List Char) (requests : List (List Char))
    (output : List Char) : Prop where
  keeps : ∃ frees, body output = requests ++ frees ∧ ∀ line ∈ frees, cmdOf line = ['f']
  counts : wholeNumber (opCount output) = some ((requestLines output).length : Int)
  balanced : checktrace floating true output = .ok "Balanced trace.\n".toList
  reproduced : checktrace floating false output = .ok output

theorem lines_print
    (single : ∀ line ∈ trace.heapSize :: trace.numBlocks :: trace.numOps :: trace.weight ::
      trace.requests, '\n' ∉ line) :
    Text.lines trace.print =
      trace.heapSize :: trace.numBlocks :: trace.numOps :: trace.weight :: trace.requests :=
  lines_unlines single

theorem newline_notMem_getD (text : List Char) (index : Nat) :
    '\n' ∉ (Text.lines text).getD index [] := by
  rw [List.getD_eq_getElem?_getD]
  cases found : (Text.lines text)[index]? with
  | none => simp
  | some line => exact newline_notMem (List.mem_of_getElem? found)

/-- In a proper trace the lines that are not blank are the requests. -/
theorem requestLines_eq (made : ∀ line ∈ body text, words line = [] ∨ IsProper line) :
    requestLines text = (body text).filter fun line => IsRequest line := by
  apply List.filter_congr
  intro line member
  rcases made line member with blank | proper
  · have ignored : ¬IsRequest line := by
      rw [IsRequest, cmdOf, blank]
      decide
    simp [blank, ignored]
  · have nonblank : words line ≠ [] := by
      intro blank
      rw [IsProper, cmdOf, blank] at proper
      revert proper
      decide
    simp [nonblank, proper.isRequest]

/-- The run on a printed trace that leaves nothing in the table. -/
theorem checktrace_print
    (single : ∀ line ∈ trace.heapSize :: trace.numBlocks :: trace.numOps :: trace.weight ::
      trace.requests, '\n' ∉ line)
    (read : readLines 5 ∅ trace.requests = .ok (∅, trace.requests))
    (counts : trace.numOps = showInt trace.requests.length)
    (small : trace.requests.length < 2 ^ 64) :
    checktrace floating true trace.print = .ok "Balanced trace.\n".toList ∧
      checktrace floating false trace.print = .ok trace.print := by
  have lines := lines_print single
  have requests : (Text.lines trace.print).drop 4 = trace.requests := by
    rw [lines]
    rfl
  constructor
  · have balanced : isBalanced trace.print = .ok true := by
      rw [isBalanced, requests, read]
      rfl
    rw [checktrace, if_pos rfl, balanced]
    rfl
  · have count : newNumOps floating trace.numOps 0 = trace.numOps := by
      rw [counts]
      exact newNumOps_of_wholeNumber (wholeNumber_showInt _) small
    have balanced : balance floating trace.print = .ok trace := by
      simp only [balance]
      rw [requests, read, lines]
      simp [bind, Except.bind, pure, Except.pure, sortedKeys, AList.keys_empty, count]
    rw [checktrace, if_neg (by decide), balanced]
    rfl

/-- What the script prints is the trace it balanced. -/
theorem checktrace_ok (emitted : checktrace floating false text = .ok output) :
    ∃ trace, balance floating text = .ok trace ∧ output = trace.print := by
  rw [checktrace, if_neg (by decide)] at emitted
  cases result : balance floating text with
  | error death =>
      rw [result] at emitted
      cases emitted
  | ok trace =>
      rw [result] at emitted
      exact ⟨trace, rfl, (Except.ok.inj emitted).symm⟩

/-- A trace of proper requests with the right count is balanced by frees behind
its requests, and balancing it again changes nothing. -/
theorem checktrace_balances (made : ∀ line ∈ body text, words line = [] ∨ IsProper line)
    (counted : CountsAs floating (opCount text) (requestLines text).length)
    (emitted : checktrace floating false text = .ok output) :
    Balances floating (requestLines text) output := by
  rcases checktrace_ok emitted with ⟨trace, balance, rfl⟩
  rcases balance_ok balance with ⟨hash, saved, read, shape⟩
  have proper : ∀ line ∈ body text, IsRequest line → IsProper line := by
    intro line member isRequest
    apply (made line member).resolve_left
    intro blank
    rw [IsRequest, cmdOf, blank] at isRequest
    exact isRequest.1 rfl
  have kept : saved = requestLines text := by
    rw [requestLines_eq made, readLines_saved read]
  have sound : Sound hash := (readLines_lives sound_empty proper read).1
  have requests : trace.requests = requestLines text ++ (sortedKeys hash).map freeLine := by
    rw [shape, ← kept]
  have readTwice : readLines 5 ∅ trace.requests = .ok (∅, trace.requests) := by
    rw [requests, ← kept]
    exact readLines_append (readLines_again sound_empty proper read 5)
      (readLines_frees sound (nodup_sortedKeys hash) fun _ => mem_sortedKeys)
  have keys : (sortedKeys hash).length = hash.keys.length :=
    (List.perm_insertionSort _ _).length_eq
  have few : hash.keys.length ≤ (requestLines text).length := by
    have length := readLines_length read
    rw [kept] at length
    simpa using length
  have counts : trace.numOps = showInt trace.requests.length := by
    rw [requests, List.length_append, List.length_map, keys, ← counted.sums _ few, shape]
    rfl
  have small : trace.requests.length < 2 ^ 64 := by
    have header := counted.small
    rw [requests, List.length_append, List.length_map, keys]
    omega
  have areProper : ∀ line ∈ trace.requests, IsProper line := by
    intro line member
    rw [requests] at member
    rcases List.mem_append.mp member with early | late
    · have parts := List.mem_filter.mp early
      exact (made line parts.1).resolve_left (by simpa using parts.2)
    · exact .inr (.inr (cmdOf_of_mem_frees late))
  have single : ∀ line ∈ trace.heapSize :: trace.numBlocks :: trace.numOps :: trace.weight ::
      trace.requests, '\n' ∉ line := by
    simp only [List.forall_mem_cons]
    refine ⟨?_, ?_, ?_, ?_, ?_⟩
    · rw [shape]
      exact newline_notMem_getD text 0
    · rw [shape]
      exact newline_notMem_getD text 1
    · rw [counts]
      intro inside
      exact absurd (isDigit_of_mem_showInt inside) (by decide)
    · rw [shape]
      exact newline_notMem_getD text 3
    · intro line member
      rw [requests] at member
      rcases List.mem_append.mp member with early | late
      · exact newline_notMem (List.mem_of_mem_drop (List.mem_filter.mp early).1)
      · exact newline_notMem_frees sound late
  have again : checktrace floating true trace.print = .ok "Balanced trace.\n".toList ∧
      checktrace floating false trace.print = .ok trace.print :=
    checktrace_print single readTwice counts small
  have bodyPrint : body trace.print = trace.requests := by
    rw [body, lines_print single]
    rfl
  constructor
  · exact ⟨(sortedKeys hash).map freeLine, bodyPrint.trans requests,
      fun line member => cmdOf_of_mem_frees member⟩
  · have whole : requestLines trace.print = trace.requests := by
      rw [requestLines_eq (bodyPrint ▸ fun line member => .inr (areProper line member)), bodyPrint]
      exact (readLines_saved readTwice).symm
    rw [whole, opCount, lines_print single]
    change wholeNumber trace.numOps = _
    rw [counts]
    exact wholeNumber_showInt _
  · exact again.1
  · exact again.2

theorem checktrace_balances_two_frees :
    Balances (fun _ _ => [])
      ["a 10 8".toList, "a 2 4".toList, "r 2 16".toList]
      "8\n3\n5\n1\na 10 8\na 2 4\nr 2 16\nf 10\nf 2\n".toList := by
  have counted : CountsAs (fun _ _ => [])
      (opCount "8\n3\n3\n1\na 10 8\n\na 2 4\nr 2 16\n".toList) 3 :=
    countsAs_of_wholeNumber (by rfl) (by decide)
  have emitted : checktrace (fun _ _ => []) false
      "8\n3\n3\n1\na 10 8\n\na 2 4\nr 2 16\n".toList =
        .ok "8\n3\n5\n1\na 10 8\na 2 4\nr 2 16\nf 10\nf 2\n".toList := by rfl
  exact checktrace_balances (by decide +kernel) counted emitted

end MallocLab.Checktrace
