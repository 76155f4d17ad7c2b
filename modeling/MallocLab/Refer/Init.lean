import MallocLab.BoundaryTag.Clients
import MallocLab.Refer.Package

/-! # `mm_init` of `refer.c` -/

namespace MallocLab.Refer

open Program Blocks Explicit

variable {machine : State}

/-- The arena after `mm_init` wrote its six words and the head of the list. -/
def opening (machine : State) : State :=
  let start := machine.memStartBrk
  ((((((machine.setBrk (start + 24)).store start 0).store (start + 4) (pack 16 1)).store
    (start + 8) (pack 0 0)).store (start + 12) (pack 0 0)).store (start + 16)
    (pack 16 1)).store (start + 20) (pack 0 1) |>.setStatics ⟨start + 8⟩

theorem opening_load (empty : machine.Empty) :
    (opening machine).load (machine.memStartBrk + 4) = pack 16 1 ∧
      (opening machine).load (machine.memStartBrk + 8) = null ∧
      (opening machine).load (machine.memStartBrk + 16) = pack 16 1 ∧
      (opening machine).load (machine.memStartBrk + 20) = pack 0 1 := by
  have arena := empty.arena
  have addressable := empty.addressable
  unfold maxHeap at arena
  have small : pack 16 1 < 2 ^ 32 ∧ pack 0 1 < 2 ^ 32 ∧ pack 0 0 < 2 ^ 32 := by decide
  have none : pack 0 0 = null := rfl
  refine ⟨?_, ?_, ?_, ?_⟩ <;>
    simp (disch := first | omega | exact small.1 | exact small.2.1 | exact small.2.2) only
      [opening, Machine.setStatics_load, Machine.load_store_same,
        Machine.load_store_of_disjoint, none]

/-- The six words describe an empty heap and its empty list. -/
theorem opening_threaded (empty : machine.Empty) :
    Threaded lists (opening machine) [prologue] [] := by
  have arena := empty.arena
  have addressable := empty.addressable
  have aligned := empty.startAligned
  rcases opening_load empty with ⟨header, pred, footer, epilogue⟩
  unfold maxHeap at arena
  refine ⟨⟨aligned, empty.arena, addressable, ?_, rfl, ?_, epilogue⟩, ?_, ?_⟩
  · simp only [opening, Machine.setStatics_memBrk, Machine.store_memBrk, Machine.setBrk_memBrk,
      Machine.setStatics_memMaxAddr, Machine.store_memMaxAddr, Machine.setBrk_memMaxAddr]
    omega
  · exact tags_singleton.mpr ⟨header, footer⟩
  · intro node member
    rw [List.mem_singleton.mp member]
    exact ⟨prologue, List.mem_cons_self, Nat.le_refl 16, rfl⟩
  · refine ⟨by simp, rfl, ?_, trivial⟩
    exact pred

/-- `mm_init` on an empty arena succeeds and leaves one free chunk. -/
theorem mmInit_holds (empty : machine.Empty) :
    Ensures mmInit machine fun value other => value = 0 ∧
      procedures.Holds other (Layout.initial lifo (procedures.base other) []) ∧
      other.memStartBrk = machine.memStartBrk := by
  have arena := empty.arena
  have addressable := empty.addressable
  have positive := empty.positive
  have brk : (opening machine).memBrk = machine.memStartBrk + 24 := rfl
  have maxAddr : (opening machine).memMaxAddr = machine.memMaxAddr := rfl
  unfold maxHeap at arena
  have holds : procedures.Holds (opening machine) ⟨[], []⟩ :=
    ⟨rfl, Threaded.comap_iff.mpr (opening_threaded empty),
      ⟨by simp, .nil, .refl _, trivial⟩⟩
  have begun := correct.begin holds (by omega)
  have nextBrk : machine.nextBrk (toInt (wsize * 6)) = machine.memStartBrk + 24 := by
    rw [Machine.nextBrk, toInt_of_lt (by decide), empty.noneUsed]
    exact wrap_of_lt (by unfold wsize; omega)
  have granted : ¬machine.memBrk = sbrkFailed := by
    rw [empty.noneUsed]
    unfold sbrkFailed
    omega
  simp only [mmInit, ensures_bind]
  rw [memSbrk_granted (by decide) (by rw [nextBrk]; omega), nextBrk]
  rw [empty.noneUsed] at granted ⊢
  simp only [if_neg granted, ensures_bind, ensures_put, ensures_setStatics]
  have owns : ∀ {changed : State} {address : Nat},
      changed.memStartBrk = machine.memStartBrk → changed.memBrk = machine.memStartBrk + 24 →
      machine.memStartBrk ≤ address → address ≤ machine.memStartBrk + 20 →
      changed.Owns address 4 := by
    intro changed address sameStart sameBrk low high
    constructor <;> omega
  have word : wsize = 4 := rfl
  refine ⟨owns rfl rfl ?_ ?_, owns rfl rfl ?_ ?_, owns rfl rfl ?_ ?_, owns rfl rfl ?_ ?_,
    owns rfl rfl ?_ ?_, owns rfl rfl ?_ ?_, begun.mono fun bp other => ?_⟩
  case refine_13 =>
    rintro ⟨nonzero, represents, same⟩
    rw [if_neg nonzero, ensures_pure]
    exact ⟨rfl, represents, same⟩
  all_goals omega

def interface : Interface Statics where
  mmInit := mmInit
  mmMalloc := mmMalloc
  mmFree := mmFree
  mmRealloc := mmRealloc
  findFit := findFitFirst
  blockSize := newSize

theorem exposes : procedures.Exposes interface [] where
  mmMalloc := rfl
  mmFree := rfl
  findFit := rfl
  blockSize := rfl
  mmInit := mmInit_holds

end MallocLab.Refer
