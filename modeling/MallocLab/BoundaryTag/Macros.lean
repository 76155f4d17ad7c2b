import MallocLab.Memlib

/-! # The macros of the boundary-tag packages

`mm.c`, `malloc/refer/refer.c`, `malloc/segregated_list-85.c` and the implicit
packages begin with the same macros. Macros that read the heap are programs.
-/

namespace MallocLab

def wsize : Nat := 4
def dsize : Nat := 8
def chunkSize : Nat := 1 <<< 12

def pack (size alloc : Nat) : Nat := size ||| alloc

/-- `w & ~0x7`. -/
def sizeField (word : Nat) : Nat := word &&& 4294967288

/-- `w & 0x1`. -/
def allocField (word : Nat) : Nat := word &&& 1

variable {Statics : Type}

open Program

def getSize (address : Nat) : Program (Machine Statics) Nat := do
  return sizeField (← get address)

def getAlloc (address : Nat) : Program (Machine Statics) Nat := do
  return allocField (← get address)

def hdrp (bp : Nat) : Nat := bp - wsize

def ftrp (bp : Nat) : Program (Machine Statics) Nat := do
  return bp + (← getSize (hdrp bp)) - dsize

def nextBlkp (bp : Nat) : Program (Machine Statics) Nat := do
  return bp + (← getSize (bp - wsize))

def prevBlkp (bp : Nat) : Program (Machine Statics) Nat := do
  return bp - (← getSize (bp - dsize))

/-- `((size) + (ALIGNMENT-1)) & ~0x7`. -/
def align (size : Nat) : Nat := sizeField (wrap (size + 7))

def max' (left right : Nat) : Nat := if left > right then left else right

/-! ## Reading packed words -/

theorem pack_eq {size alloc : Nat} (aligned : size % 8 = 0) (bit : alloc < 2) :
    pack size alloc = size + alloc :=
  or_low_eq aligned (by omega)

theorem pack_lt {size alloc : Nat} (aligned : size % 8 = 0) (bit : alloc < 2)
    (word : size < 2 ^ 32) : pack size alloc < 2 ^ 32 := by
  rw [pack_eq aligned bit]
  omega

theorem sizeField_pack {size alloc : Nat} (aligned : size % 8 = 0) (bit : alloc < 2)
    (word : size < 2 ^ 32) : sizeField (pack size alloc) = size := by
  have packed := pack_lt aligned bit word
  rw [sizeField, and_mask_eq _ packed, pack_eq aligned bit]
  omega

theorem allocField_pack {size alloc : Nat} (aligned : size % 8 = 0) (bit : alloc < 2) :
    allocField (pack size alloc) = alloc := by
  rw [allocField, pack_eq aligned bit, Nat.and_one_is_mod]
  omega

theorem sizeField_le {word : Nat} (small : word < 2 ^ 32) : sizeField word + 8 ≤ 2 ^ 32 := by
  rw [sizeField, and_mask_eq _ small]
  omega

theorem align_eq {size : Nat} (small : size + 7 < 2 ^ 32) :
    align size = 8 * ((size + 7) / 8) := by
  rw [align, wrap_of_lt small, sizeField, and_mask_eq _ small]
  omega

/-! ## What the macros ensure -/

variable {machine : Machine Statics} (bp address : Nat)
  (goal : Nat → Machine Statics → Prop)

@[simp] theorem hdrp_eq : hdrp bp = bp - 4 := rfl

@[simp] theorem ensures_getSize :
    Ensures (getSize address) machine goal ↔
      machine.Owns address 4 ∧ goal (sizeField (machine.load address)) machine := by
  simp [getSize]

@[simp] theorem ensures_getAlloc :
    Ensures (getAlloc address) machine goal ↔
      machine.Owns address 4 ∧ goal (allocField (machine.load address)) machine := by
  simp [getAlloc]

@[simp] theorem ensures_ftrp :
    Ensures (ftrp bp) machine goal ↔
      machine.Owns (bp - 4) 4 ∧
        goal (bp + sizeField (machine.load (bp - 4)) - 8) machine := by
  simp [ftrp, dsize]

@[simp] theorem ensures_nextBlkp :
    Ensures (nextBlkp bp) machine goal ↔
      machine.Owns (bp - 4) 4 ∧
        goal (bp + sizeField (machine.load (bp - 4))) machine := by
  simp [nextBlkp, wsize]

@[simp] theorem ensures_prevBlkp :
    Ensures (prevBlkp bp) machine goal ↔
      machine.Owns (bp - 8) 4 ∧
        goal (bp - sizeField (machine.load (bp - 8))) machine := by
  simp [prevBlkp, dsize]

end MallocLab
