import MallocLab.BoundaryTag.Refinement
import MallocLab.Segregated.Insertion

/-! # `segregated_list-85.c` implements the allocator with sorted groups -/

namespace MallocLab.Segregated

open Program Blocks

theorem prologue_aligned : 8 % 8 = 0 := rfl

theorem prologue_fits : Usage.sentinel.room ≤ 8 := by decide

/-- The eight bytes of the prologue, which are only its tags. -/
def prologue : Block := ⟨8, .sentinel, prologue_aligned, prologue_fits⟩

theorem implements : Implements segregated lists addBlock removeBlock where
  nodes := fun member => .inr member
  add := fun indexed spot isFree absent _ => addBlock_threaded indexed spot isFree absent
  remove := fun indexed listed => removeBlock_threaded indexed listed

def procedures : Procedures Statics Groups where
  policy := segregated
  lists := lists
  prologue := prologue
  addBlock := addBlock
  removeBlock := removeBlock
  coalesce := coalesce
  extendHeap := extendHeap
  findFit := findFit
  place := place
  adjust := newSize

/-! ## The search -/

section Search

variable {machine : State} {layout : Layout Groups} {asize fuel : Nat}

theorem groupLoop_le (rounds : Nat) (size : Int) (groupIdx : Nat) :
    groupLoop rounds size groupIdx ≤ groupIdx + rounds := by
  induction rounds generalizing size groupIdx with
  | zero => exact Nat.le_refl _
  | succ rounds induction =>
      rw [groupLoop]
      split
      · exact (induction _ _).trans (by omega)
      · omega

theorem find?_eq_headD (asize : Nat) (members : List (Nat × Nat)) :
    ((members.find? fun entry => asize ≤ entry.2).map Prod.fst).getD null =
      ((members.dropWhile (smaller asize)).map Prod.fst).headD null := by
  induction members with
  | nil => rfl
  | cons entry members induction =>
      by_cases enough : asize ≤ entry.2
      · simp [smaller, enough]
      · rw [List.find?_cons_of_neg (by simpa using enough),
          List.dropWhile_cons_of_pos (by simpa [smaller] using enough), induction]

/-- The search from one group on finds the first block that is large enough. -/
theorem ensures_findGroup (holds : procedures.Holds machine layout)
    (enough : total layout.blocks ≤ fuel) {left groupIdx : Nat}
    (bounded : groupIdx + left = groupSize) :
    Ensures (findGroup asize fuel left groupIdx) machine fun value other =>
      value = (((List.range' groupIdx left).findSome? fun groupIdx =>
        (layout.index groupIdx).find? fun entry => asize ≤ entry.2).map Prod.fst).getD null ∧
        other = machine := by
  induction left generalizing groupIdx with
  | zero => exact (ensures_pure _ _ _).mpr ⟨rfl, rfl⟩
  | succ left induction =>
      have inside : groupIdx < groupSize := by omega
      have threaded := holds.threaded
      have nodup := threaded.holds.1
      have sublist := group_sublist layout.index inside
      have terminated := threaded.holds.2 groupIdx inside
      have notNull : null ∉ (layout.index groupIdx).map Prod.fst := fun isNull =>
        (List.nodup_cons.mp nodup).1 ((sublist.map _).subset isNull)
      rcases terminated.forward notNull with ⟨tail, linked⟩
      have exact : (entries layout.index).Perm
          (freeSpots (machine.first prologue) layout.blocks) := holds.wellFormed.exact
      have short : (layout.index groupIdx).length < fuel + 1 := by
        have length := sublist.length_le
        have same := exact.length_eq
        have few := freeSpots_length (machine.first prologue) layout.blocks
        omega
      have scanned : Ensures (scan asize (fuel + 1) null _) machine _ :=
        ensures_scan threaded.tiled asize
          (fun entry member => holds.sized.sized entry (sublist.subset member)) linked
          terminated.head_eq short
      simp only [findGroup, ensures_bind, ensures_groupFreeListp]
      refine scanned.mono fun _ middle => ?_
      rintro ⟨rfl, rfl⟩
      rw [List.range'_succ, List.findSome?_cons]
      cases found : (layout.index groupIdx).find? fun entry => asize ≤ entry.2 with
      | none =>
          have nothing := find?_eq_headD asize (layout.index groupIdx)
          rw [found] at nothing
          rw [if_neg (by rw [← nothing]; simp)]
          exact induction (by omega)
      | some entry =>
          have something := find?_eq_headD asize (layout.index groupIdx)
          rw [found] at something
          have nonzero : entry.1 ≠ null := fun isNull =>
            notNull (isNull ▸ List.mem_map_of_mem (List.mem_of_find?_eq_some found))
          simp only [Option.map_some, Option.getD_some] at something ⊢
          rw [if_pos (by rw [← something]; exact nonzero), ensures_pure]
          exact ⟨something.symm, rfl⟩

/-- `find_fit` ends in every represented heap and finds what the policy finds. -/
theorem findFit_finds (asize : Nat) (holds : procedures.Holds machine layout) :
    Ensures (findFit asize) machine fun value other =>
      value = (segregated.find layout.index asize).getD null ∧ other = machine := by
  have bounded : groupIndex (toInt asize) ≤ 0 + (groupSize - 1) := groupLoop_le _ _ _
  have extent := Procedures.Holds.extent holds
  have enough : total layout.blocks ≤ machine.heapLength := by
    unfold Machine.heapLength
    omega
  simp only [findFit, ensures_bind, ensures_view]
  exact ensures_findGroup holds enough (by unfold groupSize at *; omega)

end Search

theorem correct : procedures.Correct where
  lawful := segregated_lawful
  implements := implements
  coalesces := coalesceWith_coalesces addBlock removeBlock
  places := placeWith_places segregated_lawful implements
  extends_eq := fun aligned word =>
    congrArg (extendHeapWith coalesce) (Procedures.even_words aligned word)
  finds := findFit_finds
  adjusts := Procedures.align_eq_roundUp

end MallocLab.Segregated
