import MallocLab.BoundaryTag.Refinement
import MallocLab.Explicit.FirstFit
import MallocLab.Mm.FreeList

/-! # `mm.c` implements the last-in first-out allocator -/

namespace MallocLab.Mm

open Program Blocks Explicit

/-- The ring of `mm.c`, where the sizes of the listed blocks are known too. -/
def ring : FreeIndex Statics (List (Nat × Nat)) := lists.comap (List.map Prod.fst)

/-- `list_add` as a procedure that is also told the size. -/
def addBlock (bp _size : Nat) : Program State Unit := listAdd bp

theorem implements : Implements lifo ring addBlock listRemove where
  nodes := by
    intro machine index node member
    exact List.mem_cons.mp member
  add := by
    intro machine blocks index bp block indexed spot isFree absent above
    have outside : bp ∉ sentinel machine :: index.map Prod.fst := by
      simp only [List.mem_cons, not_or]
      exact ⟨(Nat.ne_of_lt above).symm, absent⟩
    refine (listAdd_threaded (opened (Threaded.comap_iff.mp indexed.threaded)) spot
      (Block.size_ge_of_isFree isFree) (Block.request?_of_isFree isFree) outside).mono
      fun _ other => ?_
    rintro ⟨threaded, keeps, _⟩
    exact ⟨Threaded.comap_iff.mpr threaded, keeps⟩
  remove := by
    intro machine blocks index bp size indexed listed
    have threaded := Threaded.comap_iff.mp indexed.threaded
    have nodup := (List.nodup_cons.mp threaded.holds.2.1).2
    refine (listRemove_threaded threaded (List.mem_map_of_mem listed)).mono fun _ other => ?_
    rintro ⟨removed, keeps, _⟩
    refine ⟨Threaded.comap_iff.mpr ?_, keeps⟩
    rw [show lifo.remove index (bp, size) = index.erase (bp, size) from rfl,
      map_erase nodup listed]
    exact removed

/-! ## The cases of `coalesce` -/

section Coalesce

variable {machine : State} {bp : Nat} {left block right merged : Block} {back : List Block}
  {goal : Nat → State → Prop}

theorem coalesce_lone (around : Around machine bp left block back)
    (leftUsed : left.isFree = false) (rightUsed : allocField (headTag back) = 1)
    (added : Ensures (listAdd bp) machine fun _ other => goal bp other) :
    Ensures (coalesce bp) machine goal := by
  simp only [coalesce, ensures_bind, ensures_prevBlkp, ensures_ftrp, ensures_getAlloc,
    ensures_nextBlkp, ensures_getSize, hdrp_eq, around.leftFooter, around.before.size,
    around.before.header, around.footer, around.here.header, around.here.size, around.next,
    left.allocField_tag, leftUsed, rightUsed, Bool.false_eq_true, if_false]
  refine ⟨around.ownsLeft, around.before.ownsHeader, around.ownsLeft, around.here.ownsHeader,
    around.ownsNext, around.here.ownsHeader, ?_⟩
  simpa using added

theorem coalesce_next (around : Around machine bp left block (right :: back))
    (leftUsed : left.isFree = false) (rightFree : right.isFree = true)
    (after : BlockAt machine (bp + block.size) right)
    (size : merged.size = block.size + right.size) (word : merged.size < 2 ^ 32)
    (isFree : merged.isFree = true)
    (removed : Ensures (listRemove (bp + block.size)) machine fun _ middle =>
      Around middle bp left block (right :: back) ∧ BlockAt middle (bp + block.size) right ∧
      ∀ other, Stamped middle other bp merged →
        Ensures (addBlock bp merged.size) other fun _ final => goal bp final) :
    Ensures (coalesce bp) machine goal := by
  have rightUsed : allocField (headTag (right :: back)) = 0 := by
    rw [allocField_headTag_cons, rightFree]
    rfl
  have low := around.low
  have positive := right.size_ge
  have total : wrap (block.size + sizeField (headTag (right :: back))) = merged.size := by
    rw [headTag, after.size, wrap_of_lt (by omega), size]
  simp only [coalesce, ensures_bind, ensures_prevBlkp, ensures_ftrp, ensures_getAlloc,
    ensures_nextBlkp, ensures_getSize, hdrp_eq, around.leftFooter, around.before.size,
    around.before.header, around.footer, around.here.header, around.here.size, around.next,
    left.allocField_tag, leftUsed, rightUsed, Bool.false_eq_true, if_false]
  refine ⟨around.ownsLeft, around.before.ownsHeader, around.ownsLeft, around.here.ownsHeader,
    around.ownsNext, around.here.ownsHeader, ?_⟩
  simp only [ne_eq, one_ne_zero, not_false_eq_true, and_true, if_true, ensures_bind,
    ensures_nextBlkp, around.here.header, around.here.size]
  refine ⟨around.here.ownsHeader, removed.mono ?_⟩
  rintro _ middle ⟨aroundMiddle, afterMiddle, added⟩
  have footer : bp + block.size + right.size - 8 = bp + merged.size - 8 := by omega
  have stamped := (ensures_stamp (by omega) word (Block.tag_eq_pack isFree rfl)
    aroundMiddle.here.ownsHeader (footer ▸ afterMiddle.ownsFooter)).mono
      fun _ other => added other
  simp only [ensures_getSize, aroundMiddle.here.header, aroundMiddle.here.size,
    aroundMiddle.next, total]
  refine ⟨aroundMiddle.here.ownsHeader, aroundMiddle.ownsNext, ?_⟩
  simpa only [ensures_bind, ensures_pure, hdrp_eq, addBlock] using stamped

theorem coalesce_prev (around : Around machine bp left block back)
    (leftFree : left.isFree = true) (rightUsed : allocField (headTag back) = 1)
    (size : merged.size = left.size + block.size) (word : merged.size < 2 ^ 32)
    (isFree : merged.isFree = true)
    (removed : Ensures (listRemove (bp - left.size)) machine fun _ middle =>
      Around middle bp left block back ∧
      ∀ other, Stamped middle other (bp - left.size) merged →
        Ensures (addBlock (bp - left.size) merged.size) other fun _ final =>
          goal (bp - left.size) final) :
    Ensures (coalesce bp) machine goal := by
  have total : wrap (block.size + left.size) = merged.size := by
    rw [wrap_of_lt (by omega), size, Nat.add_comm]
  simp only [coalesce, ensures_bind, ensures_prevBlkp, ensures_ftrp, ensures_getAlloc,
    ensures_nextBlkp, ensures_getSize, hdrp_eq, around.leftFooter, around.before.size,
    around.before.header, around.footer, around.here.header, around.here.size, around.next,
    left.allocField_tag, leftFree, rightUsed, if_true]
  refine ⟨around.ownsLeft, around.before.ownsHeader, around.ownsLeft, around.here.ownsHeader,
    around.ownsNext, around.here.ownsHeader, ?_⟩
  simp only [ne_eq, one_ne_zero, not_false_eq_true, not_true_eq_false, and_true, and_false,
    if_true, if_false, ensures_bind, ensures_prevBlkp, around.leftFooter, around.before.size]
  refine ⟨around.ownsLeft, removed.mono ?_⟩
  rintro _ middle ⟨aroundMiddle, added⟩
  have stamped := ensures_stampPrev aroundMiddle.here aroundMiddle.before aroundMiddle.low
    (Block.size_ge_of_isFree leftFree) size word (Block.tag_eq_pack isFree rfl)
  have finished : Ensures _ middle fun value other =>
      Ensures (addBlock value merged.size) other fun _ final => goal value final :=
    stamped.mono fun value other => by
      rintro ⟨rfl, written⟩
      exact added other written
  simp only [ensures_getSize, aroundMiddle.leftFooter, aroundMiddle.before.size,
    aroundMiddle.before.header, total]
  refine ⟨aroundMiddle.ownsLeft, aroundMiddle.before.ownsHeader, ?_⟩
  simpa only [ensures_bind, ensures_pure, hdrp_eq, ensures_prevBlkp, ensures_ftrp, addBlock]
    using finished

theorem coalesce_both (around : Around machine bp left block (right :: back))
    (leftFree : left.isFree = true) (rightFree : right.isFree = true)
    (size : merged.size = left.size + block.size + right.size) (word : merged.size < 2 ^ 32)
    (isFree : merged.isFree = true)
    (removed : Ensures (listRemove (bp - left.size)) machine fun _ middle =>
      Around middle bp left block (right :: back) ∧
      Ensures (listRemove (bp + block.size)) middle fun _ later =>
        Around later bp left block (right :: back) ∧ BlockAt later (bp + block.size) right ∧
        ∀ other, Stamped later other (bp - left.size) merged →
          Ensures (addBlock (bp - left.size) merged.size) other fun _ final =>
            goal (bp - left.size) final) :
    Ensures (coalesce bp) machine goal := by
  have rightUsed : allocField (headTag (right :: back)) = 0 := by
    rw [allocField_headTag_cons, rightFree]
    rfl
  have total : wrap (block.size + wrap (left.size + right.size)) = merged.size := by
    have inner : wrap (left.size + right.size) = left.size + right.size :=
      wrap_of_lt (by omega)
    rw [inner, wrap_of_lt (by omega), size]
    omega
  simp only [coalesce, ensures_bind, ensures_prevBlkp, ensures_ftrp, ensures_getAlloc,
    ensures_nextBlkp, ensures_getSize, hdrp_eq, around.leftFooter, around.before.size,
    around.before.header, around.footer, around.here.header, around.here.size, around.next,
    left.allocField_tag, leftFree, rightUsed, if_true]
  refine ⟨around.ownsLeft, around.before.ownsHeader, around.ownsLeft, around.here.ownsHeader,
    around.ownsNext, around.here.ownsHeader, ?_⟩
  simp only [ne_eq, not_true_eq_false, and_true, and_false, and_self, if_true, if_false,
    ensures_bind, ensures_prevBlkp, around.leftFooter, around.before.size]
  refine ⟨around.ownsLeft, removed.mono ?_⟩
  rintro _ middle ⟨aroundMiddle, removedRight⟩
  simp only [ensures_nextBlkp, aroundMiddle.here.header, aroundMiddle.here.size]
  refine ⟨aroundMiddle.here.ownsHeader, removedRight.mono ?_⟩
  rintro _ later ⟨aroundLater, afterLater, added⟩
  have stamped := ensures_stampBoth aroundLater.here aroundLater.before afterLater
    aroundLater.low (Block.size_ge_of_isFree leftFree) size word (Block.tag_eq_pack isFree rfl)
  have finished : Ensures _ later fun value other =>
      Ensures (addBlock value merged.size) other fun _ final => goal value final :=
    stamped.mono fun value other => by
      rintro ⟨rfl, written⟩
      exact added other written
  simp only [ensures_getSize, ensures_ftrp, aroundLater.leftFooter, aroundLater.before.size,
    aroundLater.before.header, aroundLater.here.header, aroundLater.here.size,
    afterLater.header, afterLater.size, afterLater.footer, total]
  refine ⟨aroundLater.ownsLeft, aroundLater.before.ownsHeader, aroundLater.here.ownsHeader,
    afterLater.ownsHeader, afterLater.ownsFooter, ?_⟩
  simpa only [ensures_bind, ensures_pure, hdrp_eq, ensures_prevBlkp, ensures_nextBlkp,
    ensures_ftrp, aroundLater.leftFooter, aroundLater.before.size, addBlock] using finished

end Coalesce

theorem coalesces : Coalesces coalesce addBlock listRemove where
  lone := coalesce_lone
  next := coalesce_next
  prev := coalesce_prev
  both := fun around leftFree rightFree _ size word isFree removed =>
    coalesce_both around leftFree rightFree size word isFree (removed _ _ (.inr rfl))

/-! ## The package -/

def procedures : Procedures Statics (List (Nat × Nat)) where
  policy := lifo
  lists := ring
  prologue := prologue
  addBlock := addBlock
  removeBlock := listRemove
  coalesce := coalesce
  extendHeap := extendHeap
  findFit := findFit
  place := place
  adjust := adjustedSize

variable {machine : State} {layout : Layout (List (Nat × Nat))}

/-- `find_fit` ends in every represented heap and finds the first fit. -/
theorem findFit_finds (asize : Nat) (holds : procedures.Holds machine layout) :
    Ensures (findFit asize) machine fun value other =>
      value = (lifo.find layout.index asize).getD null ∧ other = machine := by
  have threaded := Threaded.comap_iff.mp holds.threaded
  have ringed := opened threaded
  rcases ringed.holds with ⟨listp, nodup, opening, linked⟩
  have startNode : sentinel machine ∈ sentinel machine :: layout.index.map Prod.fst :=
    List.mem_cons_self
  have owned := owns_node ringed startNode
  have startSpot : (sentinel machine, prologue) ∈
      spots machine.origin (prologue :: layout.blocks) := List.mem_cons_self
  have exact : layout.index.Perm (freeSpots (machine.first prologue) layout.blocks) :=
    holds.wellFormed.exact
  have length : layout.index.length ≤ total layout.blocks :=
    exact.length_eq.trans_le (freeSpots_length _ _)
  have extent := Procedures.Holds.extent holds
  have enough : layout.index.length < machine.heapLength + 1 := by
    unfold Machine.heapLength
    omega
  simp only [findFit, ensures_bind, ensures_view, ensures_heapListp, ensures_succP, listp]
  refine ⟨owned.2, ?_⟩
  exact ensures_firstFitFrom threaded.tiled startSpot rfl asize holds.sized.sized linked opening
    enough

theorem adjustedSize_eq {request : Nat} (small : request < 2 ^ 31) :
    adjustedSize request = roundUp request := by
  unfold adjustedSize dsize roundUp
  split
  · omega
  · have inner : wrap (request + 8 + (8 - 1)) = request + 15 := wrap_of_lt (by omega)
    rw [inner, wrap_of_lt (by omega)]
    omega

theorem correct : procedures.Correct where
  lawful := lifo_lawful
  implements := implements
  coalesces := coalesces
  places := placeWith_places lifo_lawful implements
  extends_eq := by
    intro size aligned word
    have even : size / 4 % 2 = 0 := by omega
    have back : wrap (size / 4 * wsize) = size := by
      rw [wrap_of_lt (by unfold wsize; omega)]
      unfold wsize
      omega
    change extendHeap (size / 4) = _
    simp only [extendHeap, even, ne_eq, not_true_eq_false, if_false, back]
    rfl
  finds := findFit_finds
  adjusts := fun _ small => adjustedSize_eq small

end MallocLab.Mm
