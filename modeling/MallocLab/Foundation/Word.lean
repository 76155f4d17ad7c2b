import Mathlib.Data.Nat.Bitwise
import Mathlib.Tactic.Ring

/-! # Thirty-two bit words

Unsigned machine words are natural numbers below `2 ^ 32`. Operations that can
leave that range are wrapped explicitly.
-/

namespace MallocLab

/-- Unsigned arithmetic keeps the low 32 bits. -/
def wrap (value : Nat) : Nat := value % 2 ^ 32

theorem wrap_lt (value : Nat) : wrap value < 2 ^ 32 :=
  Nat.mod_lt _ (by decide)

theorem wrap_of_lt {value : Nat} (small : value < 2 ^ 32) : wrap value = value :=
  Nat.mod_eq_of_lt small

/-- Unsigned subtraction. -/
def wrapSub (left right : Nat) : Nat := wrap (left + (2 ^ 32 - wrap right))

theorem wrapSub_of_le {left right : Nat} (small : left < 2 ^ 32)
    (ordered : right ≤ left) : wrapSub left right = left - right := by
  unfold wrapSub wrap
  omega

/-- The distance to a base survives a sum that wraps. -/
theorem wrapSub_wrap_add (base : Nat) {offset : Nat} (small : offset < 2 ^ 32) :
    wrapSub (wrap (base + offset)) base = offset := by
  unfold wrapSub wrap
  omega

/-- The value an unsigned word has after conversion to a signed `int`. -/
def toInt (value : Nat) : Int :=
  if wrap value < 2147483648 then (wrap value : Int) else (wrap value : Int) - 2 ^ 32

theorem toInt_of_lt {value : Nat} (small : value < 2147483648) :
    toInt value = value := by
  have same : wrap value = value := wrap_of_lt (by omega)
  simp [toInt, same, small]

theorem toInt_neg {value : Nat} (large : 2147483648 ≤ value)
    (word : value < 2 ^ 32) : toInt value < 0 := by
  have same : wrap value = value := wrap_of_lt word
  simp only [toInt, same, if_neg (Nat.not_lt.mpr large)]
  omega

/-- The value an `int` has after conversion to `size_t`. -/
def toSizeT (value : Int) : Nat := (value % 2 ^ 32).toNat

theorem toSizeT_lt (value : Int) : toSizeT value < 2 ^ 32 := by
  unfold toSizeT
  omega

theorem toSizeT_of_lt {value : Int} (positive : 0 ≤ value) (small : value < 2 ^ 32) :
    toSizeT value = value.toNat := by
  rw [toSizeT, Int.emod_eq_of_lt positive small]

/-! ## Splitting a word at its low three bits -/

/-- The mask `~7` on a 32-bit word clears the low three bits. -/
theorem and_mask_eq (value : Nat) (word : value < 2 ^ 32) :
    value &&& 4294967288 = value - value % 8 := by
  have quotient : value - value % 8 = (value / 8) * 2 ^ 3 := by omega
  rw [quotient]
  apply Nat.eq_of_testBit_eq
  intro index
  have mask : (4294967288 : Nat) = (2 ^ 29 - 1) * 2 ^ 3 := by norm_num
  rw [Nat.testBit_and, mask, Nat.testBit_mul_two_pow, Nat.testBit_mul_two_pow,
    Nat.testBit_two_pow_sub_one, ← Nat.shiftRight_eq_div_pow value 3,
    Nat.testBit_shiftRight]
  by_cases low : 3 ≤ index
  · have position : 3 + (index - 3) = index := by omega
    rw [position]
    by_cases high : index - 3 < 29
    · simp [low, high]
    · have large : value < 2 ^ index :=
        lt_of_lt_of_le word (Nat.pow_le_pow_right (by omega) (by omega))
      simp [Nat.testBit_lt_two_pow large]
  · simp [low]

/-- A bit set below an 8-aligned number is added to it. -/
theorem or_low_eq {size : Nat} (aligned : size % 8 = 0) {low : Nat} (small : low < 8) :
    size ||| low = size + low := by
  have shape : size = 2 ^ 3 * (size / 8) := by omega
  rw [shape, ← Nat.two_pow_add_eq_or_of_lt (by omega)]

end MallocLab
