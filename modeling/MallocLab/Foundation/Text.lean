import Mathlib.Data.List.TakeWhile

/-! # Words, lines and decimal numbers in a text -/

namespace MallocLab.Text

/-- `isspace` in the C locale, which is also the white space of Perl. -/
def isSpace (c : Char) : Bool := c.toNat == 32 || (9 ≤ c.toNat && c.toNat ≤ 13)

def skipSpace (text : List Char) : List Char := text.dropWhile isSpace

/-- The characters up to the next white space. -/
def word (text : List Char) : List Char := text.takeWhile fun c => !isSpace c

def afterWord (text : List Char) : List Char := text.dropWhile fun c => !isSpace c

/-- All words of a text, in their order. -/
def words (text : List Char) : List (List Char) :=
  (text.splitOnP isSpace).filter fun part => !part.isEmpty

/-- The lines of a text, without the characters that end them. The last line
need not be ended. -/
def lines (text : List Char) : List (List Char) :=
  let parts := text.splitOn '\n'
  if parts.getLast? = some [] then parts.dropLast else parts

def unlines (lines : List (List Char)) : List Char := lines.flatMap fun line => line ++ ['\n']

/-- The number that decimal digits stand for. -/
def number (digits : List Char) : Nat := Nat.ofDigitChars 10 digits 0

/-- The decimal digits a text begins with. -/
def digits (text : List Char) : List Char := text.takeWhile Char.isDigit

def afterDigits (text : List Char) : List Char := text.dropWhile Char.isDigit

/-- A sign that a number may begin with: whether it is negative, and the rest. -/
def sign : List Char → Bool × List Char
  | '-' :: rest => (true, rest)
  | '+' :: rest => (false, rest)
  | text => (false, text)

/-! ## Words -/

section Words

variable {text : List Char}

theorem length_skipSpace_le (text : List Char) : (skipSpace text).length ≤ text.length :=
  (List.dropWhile_sublist isSpace).length_le

theorem length_afterDigits_le (text : List Char) : (afterDigits text).length ≤ text.length :=
  (List.dropWhile_sublist Char.isDigit).length_le

theorem length_sign_le (text : List Char) : (sign text).2.length ≤ text.length := by
  unfold sign
  split <;> simp

/-- What was skipped is white space to its end. -/
theorem skipSpace_cons {c : Char} {rest : List Char} (skipped : skipSpace text = c :: rest) :
    isSpace c = false := by
  have first := List.head?_dropWhile_not isSpace text
  rw [show text.dropWhile isSpace = c :: rest from skipped] at first
  simpa using first

/-- Reading a word consumes some of the text. -/
theorem length_afterWord_lt (proper : skipSpace text ≠ []) :
    (afterWord (skipSpace text)).length < text.length := by
  rcases shape : skipSpace text with _ | ⟨c, rest⟩
  · exact absurd shape proper
  · have shorter : (rest.dropWhile fun c => !isSpace c).length ≤ rest.length :=
      (List.dropWhile_sublist _).length_le
    have whole := length_skipSpace_le text
    rw [shape, List.length_cons] at whole
    rw [afterWord, List.dropWhile_cons_of_pos (by simp [skipSpace_cons shape])]
    omega

theorem word_ne_nil (proper : skipSpace text ≠ []) : word (skipSpace text) ≠ [] := by
  rcases shape : skipSpace text with _ | ⟨c, rest⟩
  · exact absurd shape proper
  · simp [word, skipSpace_cons shape]

/-- No part of a split holds what it was split at. -/
theorem not_of_mem_splitOnP {split : Char → Bool} {part : List Char}
    (member : part ∈ text.splitOnP split) : ∀ c ∈ part, split c = false ∧ c ∈ text := by
  induction text generalizing part with
  | nil =>
      rw [List.splitOnP_nil, List.mem_singleton] at member
      simp [member]
  | cons first text induction =>
      rw [List.splitOnP_cons_eq_if_modifyHead] at member
      intro c inside
      by_cases here : split first = true
      · rw [if_pos here] at member
        rcases List.mem_cons.mp member with rfl | later
        · cases inside
        · have kept := induction later c inside
          exact ⟨kept.1, List.mem_cons_of_mem _ kept.2⟩
      · rw [if_neg here] at member
        rcases shape : text.splitOnP split with _ | ⟨head, tail⟩
        · exact absurd shape (List.splitOnP_ne_nil _ _)
        · rw [shape, List.modifyHead_cons] at member
          rw [shape] at induction
          rcases List.mem_cons.mp member with rfl | later
          · rcases List.mem_cons.mp inside with rfl | inside
            · exact ⟨Bool.not_eq_true _ ▸ here, List.mem_cons_self⟩
            · have kept := induction List.mem_cons_self c inside
              exact ⟨kept.1, List.mem_cons_of_mem _ kept.2⟩
          · have kept := induction (List.mem_cons_of_mem _ later) c inside
            exact ⟨kept.1, List.mem_cons_of_mem _ kept.2⟩

/-- A word is not empty and has no white space in it. -/
theorem mem_words {part : List Char} (member : part ∈ words text) :
    part ≠ [] ∧ ∀ c ∈ part, isSpace c = false ∧ c ∈ text := by
  rcases List.mem_filter.mp member with ⟨isPart, nonempty⟩
  exact ⟨by simpa using nonempty, not_of_mem_splitOnP isPart⟩

/-- A word in front of a space. -/
theorem words_append_space {part : List Char} (nonempty : part ≠ [])
    (proper : ∀ c ∈ part, isSpace c = false) (rest : List Char) :
    words (part ++ ' ' :: rest) = part :: words rest := by
  rw [words, List.splitOnP_append_cons_of_forall_mem proper ' ' (by decide), List.filter_cons,
    words]
  simp [nonempty]

theorem words_of_proper {part : List Char} (nonempty : part ≠ [])
    (proper : ∀ c ∈ part, isSpace c = false) : words part = [part] := by
  rw [words, List.splitOnP_eq_singleton proper]
  simp [nonempty]

end Words

/-! ## Lines -/

section Lines

theorem newline_notMem {text line : List Char} (member : line ∈ lines text) : '\n' ∉ line := by
  have part : line ∈ text.splitOnP (· == '\n') := by
    rw [← List.splitOn_eq_splitOnP]
    simp only [lines] at member
    split at member
    · exact (List.dropLast_sublist _).mem member
    · exact member
  intro inside
  exact absurd (not_of_mem_splitOnP part _ inside).1 (by decide)

theorem splitOn_unlines {ls : List (List Char)} (single : ∀ line ∈ ls, '\n' ∉ line) :
    (unlines ls).splitOn '\n' = ls ++ [[]] := by
  induction ls with
  | nil => rfl
  | cons line rest induction =>
      rw [List.forall_mem_cons] at single
      rw [unlines, List.flatMap_cons, List.append_assoc, List.singleton_append,
        List.splitOn_append_cons_self_of_not_mem single.1]
      exact congrArg _ (induction single.2)

theorem lines_unlines {ls : List (List Char)} (single : ∀ line ∈ ls, '\n' ∉ line) :
    lines (unlines ls) = ls := by
  simp only [lines, splitOn_unlines single, List.getLast?_concat, List.dropLast_concat, if_true]

end Lines

/-! ## Numerals -/

section Numerals

variable {numeral : List Char}

theorem isSpace_of_isDigit {c : Char} (digit : c.isDigit = true) : isSpace c = false := by
  have range : 48 ≤ c.toNat ∧ c.toNat ≤ 57 := Char.isDigit_iff_toNat.mp digit
  simp only [isSpace, Bool.or_eq_false_iff, beq_eq_false_iff_ne, Bool.and_eq_false_iff,
    decide_eq_false_iff_not]
  omega

theorem skipSpace_of_digits (digits : ∀ c ∈ numeral, c.isDigit = true) :
    skipSpace numeral = numeral := by
  cases numeral with
  | nil => rfl
  | cons first rest =>
      have first := isSpace_of_isDigit (digits first List.mem_cons_self)
      exact List.dropWhile_cons_of_neg (by simp [first])

theorem sign_of_digits (digits : ∀ c ∈ numeral, c.isDigit = true) :
    sign numeral = (false, numeral) := by
  unfold sign
  split
  · exact absurd (digits '-' List.mem_cons_self) (by decide)
  · exact absurd (digits '+' List.mem_cons_self) (by decide)
  · rfl

theorem digits_of_digits (all : ∀ c ∈ numeral, c.isDigit = true) : digits numeral = numeral :=
  List.takeWhile_eq_self_iff.mpr all

theorem afterDigits_of_digits (all : ∀ c ∈ numeral, c.isDigit = true) :
    afterDigits numeral = [] :=
  List.dropWhile_eq_nil_iff.mpr all

end Numerals

end MallocLab.Text
