import MallocLab.BoundaryTag.Clients
import MallocLab.Segregated.Package

/-! # `mm_init` of `segregated_list-85.c` -/

namespace MallocLab.Segregated

open Program Blocks

variable {machine : State}

/-- The machine after the heads of the last `left` groups were cleared. -/
def cleared (machine : State) (left : Nat) : State :=
  machine.setStatics ⟨fun groupIdx =>
    if groupSize - left ≤ groupIdx ∧ groupIdx < groupSize then null
    else machine.statics.groupFreeListp groupIdx⟩

theorem ensures_clearGroups {left : Nat} (bounded : left ≤ groupSize)
    (goal : Unit → State → Prop) :
    Ensures (clearGroups left) machine goal ↔ goal () (cleared machine left) := by
  induction left generalizing machine with
  | zero =>
      have none : ∀ groupIdx, ¬(groupSize - 0 ≤ groupIdx ∧ groupIdx < groupSize) := by omega
      have same : cleared machine 0 = machine := by
        simp only [cleared, Machine.setStatics, if_neg (none _)]
      rw [clearGroups, ensures_pure, same]
  | succ left induction =>
      have next : cleared (setHead machine (groupSize - (left + 1)) null) left =
          cleared machine (left + 1) := by
        simp only [cleared, setHead, Machine.setStatics, Function.update_apply]
        congr 2
        funext groupIdx
        by_cases first : groupIdx = groupSize - (left + 1)
        · rw [if_neg (by omega), if_pos first, if_pos (by omega)]
        · by_cases later : groupSize - left ≤ groupIdx ∧ groupIdx < groupSize
          · rw [if_pos later, if_pos (by omega)]
          · rw [if_neg later, if_neg first, if_neg (by omega)]
      rw [clearGroups, ensures_bind, ensures_setGroupFreeListp, induction (by omega), next]

/-- The arena after `mm_init` cleared the heads and wrote its four words. -/
def opening (machine : State) : State :=
  let start := machine.memStartBrk
  ((((((cleared machine groupSize).setBrk (start + 16)).store start 0).store (start + 4)
    (pack 8 1)).store (start + 8) (pack 8 1)).store (start + 12) (pack 0 1))

theorem opening_load (empty : machine.Empty) :
    (opening machine).load (machine.memStartBrk + 4) = pack 8 1 ∧
      (opening machine).load (machine.memStartBrk + 8) = pack 8 1 ∧
      (opening machine).load (machine.memStartBrk + 12) = pack 0 1 := by
  have arena := empty.arena
  have addressable := empty.addressable
  unfold maxHeap at arena
  have small : pack 8 1 < 2 ^ 32 ∧ pack 0 1 < 2 ^ 32 := by decide
  refine ⟨?_, ?_, ?_⟩ <;>
    simp (disch := first | omega | exact small.1 | exact small.2) only [opening,
      Machine.load_store_same, Machine.load_store_of_disjoint]

/-- The four words describe an empty heap, and no group has a member. -/
theorem opening_threaded (empty : machine.Empty) :
    Threaded lists (opening machine) [prologue] fun _ => [] := by
  have arena := empty.arena
  have addressable := empty.addressable
  have aligned := empty.startAligned
  rcases opening_load empty with ⟨header, footer, epilogue⟩
  unfold maxHeap at arena
  have nothing : entries (fun _ => []) = [] := by simp [entries]
  refine ⟨⟨aligned, empty.arena, addressable, ?_, rfl, ?_, epilogue⟩, ?_, ?_⟩
  · simp only [opening, Machine.store_memBrk, Machine.setBrk_memBrk, Machine.store_memMaxAddr,
      Machine.setBrk_memMaxAddr]
    change machine.memStartBrk + 16 ≤ machine.memMaxAddr
    omega
  · exact tags_singleton.mpr ⟨header, footer⟩
  · intro node member
    simp only [lists, nothing, List.map_nil, List.not_mem_nil] at member
  · refine ⟨by simp [nothing], fun groupIdx inside => ?_⟩
    have head : (opening machine).statics.groupFreeListp groupIdx = null :=
      if_pos ⟨by omega, inside⟩
    rw [head]
    exact .nil

/-- `mm_init` on an empty arena succeeds and leaves one free chunk. -/
theorem mmInit_holds (empty : machine.Empty) :
    Ensures mmInit machine fun value other => value = 0 ∧
      procedures.Holds other
        (Layout.initial segregated (procedures.base other) fun _ => []) ∧
      other.memStartBrk = machine.memStartBrk := by
  have arena := empty.arena
  have addressable := empty.addressable
  have positive := empty.positive
  have brk : (opening machine).memBrk = machine.memStartBrk + 16 := rfl
  have maxAddr : (opening machine).memMaxAddr = machine.memMaxAddr := rfl
  unfold maxHeap at arena
  have nothing : entries (fun _ => []) = [] := by simp [entries]
  have holds : procedures.Holds (opening machine) ⟨[], fun _ => []⟩ := by
    refine ⟨rfl, opening_threaded empty, ⟨by simp, .nil, ?_, fun _ => ⟨.nil, by simp⟩⟩⟩
    change (entries fun _ => []).Perm _
    rw [nothing]
    exact .refl _
  have begun := correct.begin holds (by omega)
  have clearedBrk : (cleared machine groupSize).memBrk = machine.memStartBrk := empty.noneUsed
  have clearedMax : (cleared machine groupSize).memMaxAddr = machine.memMaxAddr := rfl
  have nextBrk : (cleared machine groupSize).nextBrk (toInt (wsize * 4)) =
      machine.memStartBrk + 16 := by
    rw [Machine.nextBrk, toInt_of_lt (by decide), clearedBrk]
    exact wrap_of_lt (by unfold wsize; omega)
  have granted : ¬machine.memStartBrk = sbrkFailed := by
    unfold sbrkFailed
    omega
  simp only [mmInit, ensures_bind, ensures_clearGroups (Nat.le_refl groupSize)]
  rw [memSbrk_granted (by decide) (by rw [nextBrk, clearedMax]; omega), nextBrk, clearedBrk]
  simp only [if_neg granted, ensures_bind, ensures_put]
  have owns : ∀ {changed : State} {address : Nat},
      changed.memStartBrk = machine.memStartBrk → changed.memBrk = machine.memStartBrk + 16 →
      machine.memStartBrk ≤ address → address ≤ machine.memStartBrk + 12 →
      changed.Owns address 4 := by
    intro changed address sameStart sameBrk low high
    constructor <;> omega
  have word : wsize = 4 := rfl
  refine ⟨owns rfl rfl ?_ ?_, owns rfl rfl ?_ ?_, owns rfl rfl ?_ ?_, owns rfl rfl ?_ ?_,
    begun.mono fun bp other => ?_⟩
  case refine_9 =>
    rintro ⟨nonzero, represents, same⟩
    rw [if_neg nonzero, ensures_pure]
    exact ⟨rfl, represents, same⟩
  all_goals omega

def interface : Interface Statics where
  mmInit := mmInit
  mmMalloc := mmMalloc
  mmFree := mmFree
  mmRealloc := mmRealloc
  findFit := findFit
  blockSize := newSize

theorem exposes : procedures.Exposes interface fun _ => [] where
  mmMalloc := rfl
  mmFree := rfl
  findFit := rfl
  blockSize := rfl
  mmInit := mmInit_holds

end MallocLab.Segregated
