import MallocLab.BoundaryTag.Edit
import MallocLab.BoundaryTag.Procedures
import MallocLab.BoundaryTag.Stamp

/-! # The tag writes of the procedures

Every procedure that resizes blocks ends in one of a few sequences of reads and
writes. Each is shown here to stamp one block.
-/

namespace MallocLab

open Program Blocks

variable {Statics : Type} {machine : Machine Statics} {bp : Nat} {block left right merged : Block}

/-- Both tags are written from the header on, and the footer is found through
the new header. -/
theorem ensures_stamp {tag : Nat} (low : 4 ≤ bp) (word : block.size < 2 ^ 32)
    (same : tag = block.tag) (ownsHeader : machine.Owns (bp - 4) 4)
    (ownsFooter : machine.Owns (bp + block.size - 8) 4) :
    Ensures (do put (hdrp bp) tag; put (← ftrp bp) tag) machine
      fun _ other => Stamped machine other bp block := by
  subst same
  have header : (machine.store (bp - 4) block.tag).load (bp - 4) = block.tag :=
    machine.load_store_same _ (block.tag_lt word)
  simp only [ensures_bind, hdrp_eq, ensures_put, ensures_ftrp, header,
    block.sizeField_tag word]
  exact ⟨ownsHeader, ownsHeader, ownsFooter, Stamped.headerFirst machine low word⟩

/-- A block is joined with the one before it. -/
theorem ensures_stampPrev {tag : Nat} (here : BlockAt machine bp block)
    (before : BlockAt machine (bp - left.size) left) (low : left.size + 4 ≤ bp)
    (large : 16 ≤ left.size)
    (size : merged.size = left.size + block.size) (word : merged.size < 2 ^ 32)
    (same : tag = merged.tag) :
    Ensures (do put (← ftrp bp) tag; put (hdrp (← prevBlkp bp)) tag; prevBlkp bp) machine
      fun value other => value = bp - left.size ∧
        Stamped machine other (bp - left.size) merged := by
  subst same
  have positive := block.size_ge
  have leftFooter : machine.load (bp - 8) = left.tag := by
    rw [← before.footer]
    congr 1
    omega
  have ownsLeft : machine.Owns (bp - 8) 4 := by
    have owned := before.ownsFooter
    rwa [show bp - left.size + left.size - 8 = bp - 8 by omega] at owned
  have footer : bp + block.size - 8 = bp - left.size + merged.size - 8 := by omega
  have kept : (machine.store (bp + block.size - 8) merged.tag).load (bp - 8) = left.tag := by
    rw [Machine.load_store_of_disjoint _ _ (by omega), leftFooter]
  have keptAgain : ((machine.store (bp + block.size - 8) merged.tag).store
      (bp - left.size - 4) merged.tag).load (bp - 8) = left.tag := by
    rw [Machine.load_store_of_disjoint _ _ (by omega), kept]
  simp only [ensures_bind, hdrp_eq, ensures_put, ensures_ftrp, ensures_prevBlkp, here.header,
    here.size, kept, keptAgain, before.size]
  refine ⟨here.ownsHeader, here.ownsFooter, ownsLeft, before.ownsHeader, ownsLeft, trivial, ?_⟩
  rw [footer]
  exact Stamped.footerFirst machine (by omega) word

/-- A block is joined with both of its neighbours. -/
theorem ensures_stampBoth {tag : Nat} (here : BlockAt machine bp block)
    (before : BlockAt machine (bp - left.size) left)
    (after : BlockAt machine (bp + block.size) right) (low : left.size + 4 ≤ bp)
    (large : 16 ≤ left.size)
    (size : merged.size = left.size + block.size + right.size) (word : merged.size < 2 ^ 32)
    (same : tag = merged.tag) :
    Ensures (do
        put (hdrp (← prevBlkp bp)) tag
        put (← ftrp (← nextBlkp bp)) tag
        prevBlkp bp) machine
      fun value other => value = bp - left.size ∧
        Stamped machine other (bp - left.size) merged := by
  subst same
  have positive := block.size_ge
  have positiveRight := right.size_ge
  have leftFooter : machine.load (bp - 8) = left.tag := by
    rw [← before.footer]
    congr 1
    omega
  have ownsLeft : machine.Owns (bp - 8) 4 := by
    have owned := before.ownsFooter
    rwa [show bp - left.size + left.size - 8 = bp - 8 by omega] at owned
  have footer : bp + block.size + right.size - 8 = bp - left.size + merged.size - 8 := by omega
  have keptHere : (machine.store (bp - left.size - 4) merged.tag).load (bp - 4) =
      block.tag := by
    rw [Machine.load_store_of_disjoint _ _ (by omega), here.header]
  have keptAfter : (machine.store (bp - left.size - 4) merged.tag).load
      (bp + block.size - 4) = right.tag := by
    rw [Machine.load_store_of_disjoint _ _ (by omega), after.header]
  have keptLeft : ((machine.store (bp - left.size - 4) merged.tag).store
      (bp + block.size + right.size - 8) merged.tag).load (bp - 8) = left.tag := by
    rw [Machine.load_store_of_disjoint _ _ (by omega),
      Machine.load_store_of_disjoint _ _ (by omega), leftFooter]
  simp only [ensures_bind, hdrp_eq, ensures_put, ensures_ftrp, ensures_prevBlkp,
    ensures_nextBlkp, leftFooter, before.size, keptHere, here.size, keptAfter, after.size,
    keptLeft]
  refine ⟨ownsLeft, before.ownsHeader, here.ownsHeader, after.ownsHeader, after.ownsFooter,
    ownsLeft, trivial, ?_⟩
  rw [footer]
  exact Stamped.headerFirst machine (by omega) word

end MallocLab
