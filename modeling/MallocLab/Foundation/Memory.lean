import Mathlib.Data.UInt
import MallocLab.Foundation.Word

/-! # Byte memory with little-endian words -/

namespace MallocLab

/-- One byte at every address. Which addresses a program may use is not part
of the memory. -/
abbrev Memory : Type := Nat → UInt8

namespace Memory

/-- The 32-bit word at an address, least significant byte first. -/
def load (memory : Memory) (address : Nat) : Nat :=
  (memory address).toNat + 256 * (memory (address + 1)).toNat +
    65536 * (memory (address + 2)).toNat + 16777216 * (memory (address + 3)).toNat

/-- Replace the four bytes of the word at an address. -/
def store (memory : Memory) (address value : Nat) : Memory := fun other =>
  if other = address then UInt8.ofNat value
  else if other = address + 1 then UInt8.ofNat (value / 256)
  else if other = address + 2 then UInt8.ofNat (value / 65536)
  else if other = address + 3 then UInt8.ofNat (value / 16777216)
  else memory other

/-- Copy `count` bytes from `source` to `target`. -/
def copy (memory : Memory) (target source count : Nat) : Memory := fun other =>
  if target ≤ other ∧ other < target + count then memory (source + (other - target))
  else memory other

/-- Set `count` bytes from `target` on to one value. -/
def fill (memory : Memory) (target : Nat) (value : UInt8) (count : Nat) : Memory := fun other =>
  if target ≤ other ∧ other < target + count then value else memory other

theorem load_lt (memory : Memory) (address : Nat) :
    memory.load address < 2 ^ 32 := by
  have first := (memory address).toNat_lt
  have second := (memory (address + 1)).toNat_lt
  have third := (memory (address + 2)).toNat_lt
  have fourth := (memory (address + 3)).toNat_lt
  unfold load
  omega

/-- A word depends on its four bytes only. -/
theorem load_congr {first second : Memory} {address : Nat}
    (same : ∀ other, address ≤ other → other < address + 4 →
      first other = second other) :
    first.load address = second.load address := by
  simp only [load]
  rw [same address (by omega) (by omega), same (address + 1) (by omega) (by omega),
    same (address + 2) (by omega) (by omega), same (address + 3) (by omega) (by omega)]

theorem store_of_outside (memory : Memory) {address other : Nat} (value : Nat)
    (outside : other < address ∨ address + 4 ≤ other) :
    memory.store address value other = memory other := by
  unfold store
  rw [if_neg (by omega), if_neg (by omega), if_neg (by omega), if_neg (by omega)]

theorem load_store_same (memory : Memory) (address : Nat) {value : Nat}
    (word : value < 2 ^ 32) :
    (memory.store address value).load address = value := by
  simp only [load, store, if_pos, UInt8.toNat_ofNat', Nat.add_eq_left, Nat.add_left_cancel_iff,
    one_ne_zero, OfNat.ofNat_ne_zero, OfNat.ofNat_ne_one, Nat.reduceEqDiff, if_false]
  omega

theorem load_store_of_disjoint (memory : Memory) {address other : Nat} (value : Nat)
    (disjoint : other + 4 ≤ address ∨ address + 4 ≤ other) :
    (memory.store address value).load other = memory.load other := by
  apply load_congr
  intro byte low high
  exact store_of_outside memory value (by omega)

/-- On aligned words, storing behaves like updating a function. -/
theorem load_store (memory : Memory) {address other value : Nat}
    (word : value < 2 ^ 32) (aligned : address % 4 = 0) (otherAligned : other % 4 = 0) :
    (memory.store address value).load other =
      if other = address then value else memory.load other := by
  by_cases same : other = address
  · rw [if_pos same, same, load_store_same memory address word]
  · rw [if_neg same, load_store_of_disjoint memory value (by omega)]

theorem copy_of_outside (memory : Memory) {target source count other : Nat}
    (outside : other < target ∨ target + count ≤ other) :
    memory.copy target source count other = memory other := by
  unfold copy
  rw [if_neg (by omega)]

theorem copy_of_inside (memory : Memory) {target source count offset : Nat}
    (inside : offset < count) :
    memory.copy target source count (target + offset) = memory (source + offset) := by
  unfold copy
  rw [if_pos (by omega), Nat.add_sub_cancel_left]

theorem fill_of_outside (memory : Memory) {target count other : Nat} (value : UInt8)
    (outside : other < target ∨ target + count ≤ other) :
    memory.fill target value count other = memory other := by
  unfold fill
  rw [if_neg (by omega)]

theorem fill_of_inside (memory : Memory) {target count other : Nat} (value : UInt8)
    (low : target ≤ other) (high : other < target + count) :
    memory.fill target value count other = value :=
  if_pos ⟨low, high⟩

end Memory

end MallocLab
