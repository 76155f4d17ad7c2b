import MallocLab.Foundation.Text

/-! # Numerals in front of other text

A printed number is read back where no digit follows it.
-/

namespace MallocLab.Text

/-- The decimal digits of a number. -/
def numeral (value : Nat) : List Char := Nat.toDigits 10 value

/-- A text that does not begin with a digit. -/
def NoDigit (text : List Char) : Prop := ∀ c ∈ text.head?, c.isDigit = false

variable {rest : List Char} {value : Nat}

theorem isDigit_of_mem_numeral {c : Char} (member : c ∈ numeral value) : c.isDigit = true :=
  Nat.isDigit_of_mem_toDigits (by decide) (by decide) member

theorem numeral_ne_nil (value : Nat) : numeral value ≠ [] :=
  Nat.toDigits_ne_nil

theorem number_numeral (value : Nat) : number (numeral value) = value := by
  simp [number, numeral, Nat.ofDigitChars_ten_toDigits]

theorem numeral_injective : Function.Injective numeral := fun left right same => by
  rw [← number_numeral left, same, number_numeral]

theorem isSpace_of_mem_numeral {c : Char} (member : c ∈ numeral value) : isSpace c = false :=
  isSpace_of_isDigit (isDigit_of_mem_numeral member)

theorem skipSpace_space {c : Char} (space : isSpace c = true) (text : List Char) :
    skipSpace (c :: text) = skipSpace text :=
  List.dropWhile_cons_of_pos space

theorem skipSpace_numeral (value : Nat) (rest : List Char) :
    skipSpace (numeral value ++ rest) = numeral value ++ rest := by
  cases shape : numeral value with
  | nil => exact absurd shape (numeral_ne_nil value)
  | cons first others =>
      have digit : first ∈ numeral value := shape ▸ List.mem_cons_self
      exact List.dropWhile_cons_of_neg (by simp [isSpace_of_mem_numeral digit])

theorem sign_numeral (value : Nat) (rest : List Char) :
    sign (numeral value ++ rest) = (false, numeral value ++ rest) := by
  cases shape : numeral value with
  | nil => exact absurd shape (numeral_ne_nil value)
  | cons first others =>
      have digit : first.isDigit = true :=
        isDigit_of_mem_numeral (shape ▸ List.mem_cons_self : first ∈ numeral value)
      unfold sign
      split
      · rename_i same
        cases same
        exact absurd digit (by decide)
      · rename_i same
        cases same
        exact absurd digit (by decide)
      · rfl

theorem digits_numeral (noDigit : NoDigit rest) : digits (numeral value ++ rest) = numeral value := by
  rw [digits, List.takeWhile_append_of_pos fun c member => isDigit_of_mem_numeral member]
  cases rest with
  | nil => simp
  | cons c rest => simp [noDigit c rfl]

theorem afterDigits_numeral (noDigit : NoDigit rest) :
    afterDigits (numeral value ++ rest) = rest := by
  rw [afterDigits, List.dropWhile_append_of_pos fun c member => isDigit_of_mem_numeral member]
  cases rest with
  | nil => rfl
  | cons c rest => simp [noDigit c rfl]

/-! ## A text whose last line is not ended -/

theorem lines_of_unended {text : List Char} {ls : List (List Char)}
    (single : ∀ line ∈ ls, '\n' ∉ line) (ended : text ++ ['\n'] = unlines ls)
    (last : ls.getLast? ≠ some []) : lines text = ls := by
  have parts : text.splitOn '\n' = ls := by
    have split := splitOn_unlines single
    rw [← ended, List.splitOn_append_cons_self] at split
    exact List.append_cancel_right split
  simp only [lines, parts, if_neg last]

end MallocLab.Text
