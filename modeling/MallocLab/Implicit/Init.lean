import MallocLab.BoundaryTag.Clients
import MallocLab.Implicit.Package

/-! # `mm_init` of `implicit-54.c` -/

namespace MallocLab.Implicit

open Program Blocks

variable {machine : State}

/-- The arena after the four words of `mm_init` were written. -/
def opening (machine : State) : State :=
  let start := machine.memStartBrk
  (((((machine.setBrk (start + 16)).setStatics ⟨start⟩).store start 0).store (start + 4)
    (pack 8 1)).store (start + 8) (pack 8 1)).store (start + 12) (pack 0 1)
    |>.setStatics ⟨start + 8⟩

theorem opening_load (empty : machine.Empty) :
    (opening machine).load (machine.memStartBrk + 4) = pack 8 1 ∧
      (opening machine).load (machine.memStartBrk + 8) = pack 8 1 ∧
      (opening machine).load (machine.memStartBrk + 12) = pack 0 1 := by
  have arena := empty.arena
  have addressable := empty.addressable
  unfold maxHeap at arena
  have small : pack 8 1 < 2 ^ 32 ∧ pack 0 1 < 2 ^ 32 := by decide
  refine ⟨?_, ?_, ?_⟩ <;>
    simp (disch := first | omega | exact small.1 | exact small.2) only [opening,
      Machine.setStatics_load, Machine.load_store_same, Machine.load_store_of_disjoint]

/-- The four words describe an empty heap. -/
theorem opening_holds (empty : machine.Empty) :
    procedures.Holds (opening machine) ⟨[], []⟩ := by
  have arena := empty.arena
  have addressable := empty.addressable
  rcases opening_load empty with ⟨header, footer, epilogue⟩
  unfold maxHeap at arena
  have tiled : Tiled (opening machine) [prologue] := by
    refine ⟨empty.startAligned, empty.arena, addressable, ?_, rfl, ?_, epilogue⟩
    · change machine.memStartBrk + 16 ≤ machine.memMaxAddr
      omega
    · exact tags_singleton.mpr ⟨header, footer⟩
  refine ⟨rfl, ⟨tiled, by simp [procedures, lists], rfl⟩, ⟨by simp, .nil, .refl _, .nil⟩⟩

/-- `mm_init` on an empty arena succeeds and leaves one free chunk. -/
theorem mmInit_holds (empty : machine.Empty) :
    Ensures mmInit machine fun value other => value = 0 ∧
      procedures.Holds other (Layout.initial addressOrdered (procedures.base other) []) ∧
      other.memStartBrk = machine.memStartBrk := by
  have arena := empty.arena
  have addressable := empty.addressable
  have positive := empty.positive
  have brk : (opening machine).memBrk = machine.memStartBrk + 16 := rfl
  have maxAddr : (opening machine).memMaxAddr = machine.memMaxAddr := rfl
  unfold maxHeap at arena
  have begun := correct.begin (opening_holds empty) (by omega)
  have nextBrk : machine.nextBrk (toInt (4 * wsize)) = machine.memStartBrk + 16 := by
    rw [Machine.nextBrk, toInt_of_lt (by decide), empty.noneUsed]
    exact wrap_of_lt (by unfold wsize; omega)
  have granted : ¬machine.memStartBrk = sbrkFailed := by
    unfold sbrkFailed
    omega
  simp only [mmInit, ensures_bind]
  rw [memSbrk_granted (by decide) (by rw [nextBrk]; omega), nextBrk, empty.noneUsed]
  simp only [ensures_setStatics, if_neg granted, ensures_bind, ensures_put]
  have owns : ∀ {changed : State} {address : Nat},
      changed.memStartBrk = machine.memStartBrk → changed.memBrk = machine.memStartBrk + 16 →
      machine.memStartBrk ≤ address → address ≤ machine.memStartBrk + 12 →
      changed.Owns address 4 := by
    intro changed address sameStart sameBrk low high
    constructor <;> omega
  have word : wsize = 4 := rfl
  refine ⟨owns rfl rfl ?_ ?_, owns rfl rfl ?_ ?_, owns rfl rfl ?_ ?_, owns rfl rfl ?_ ?_,
    begun.mono fun bp other => ?_⟩
  case refine_9 =>
    rintro ⟨nonzero, represents, same⟩
    rw [if_neg nonzero, ensures_pure]
    exact ⟨rfl, represents, same⟩
  all_goals omega

def interface : Interface Statics where
  mmInit := mmInit
  mmMalloc := mmMalloc
  mmFree := mmFree
  mmRealloc := mmRealloc
  findFit := findFit
  blockSize := adjustedSize

theorem exposes : procedures.Exposes interface [] where
  mmMalloc := rfl
  mmFree := rfl
  findFit := rfl
  blockSize := rfl
  mmInit := mmInit_holds

end MallocLab.Implicit
