import MallocLab.BoundaryTag.Join
import MallocLab.BoundaryTag.Layout

/-! # Coalescing

A package's `coalesce` joins a free block with its free neighbours exactly as
the abstract heap does, whatever lists it keeps, as long as its list
procedures follow a policy.
-/

namespace MallocLab

open Program Blocks

variable {Statics Index : Type}

/-- The index of a threaded heap is in order and knows the sizes of its
blocks. -/
structure Indexed (policy : Policy Index) (lists : FreeIndex Statics Index)
    (machine : Machine Statics) (blocks : List Block) (index : Index) : Prop where
  threaded : Threaded lists machine blocks index
  ordered : policy.Ordered index
  sized : ∀ entry ∈ policy.entries index, entry ∈ freeSpots machine.origin blocks

/-- The list procedures of a package follow a policy. -/
structure Implements (policy : Policy Index) (lists : FreeIndex Statics Index)
    (addBlock : Nat → Nat → Program (Machine Statics) Unit)
    (removeBlock : Nat → Program (Machine Statics) Unit) : Prop where
  /-- A list has no nodes besides its blocks and a sentinel in the prologue. -/
  nodes : ∀ {machine : Machine Statics} {index : Index} {node : Nat},
    node ∈ lists.nodes machine index →
    node = machine.origin + 4 ∨ node ∈ (policy.entries index).map Prod.fst
  add : ∀ {machine : Machine Statics} {blocks : List Block} {index : Index} {bp : Nat}
    {block : Block}, Indexed policy lists machine blocks index →
    (bp, block) ∈ spots machine.origin blocks → block.isFree = true →
    bp ∉ (policy.entries index).map Prod.fst → machine.origin + 4 < bp →
    Ensures (addBlock bp block.size) machine fun _ other =>
      Threaded lists other blocks (policy.add index (bp, block.size)) ∧
        Keeps blocks machine other
  remove : ∀ {machine : Machine Statics} {blocks : List Block} {index : Index}
    {bp size : Nat}, Indexed policy lists machine blocks index →
    (bp, size) ∈ policy.entries index →
    Ensures (removeBlock bp) machine fun _ other =>
      Threaded lists other blocks (policy.remove index (bp, size)) ∧
        Keeps blocks machine other

/-- What surrounds a block in memory: the block before it and the header
behind it. -/
structure Around (machine : Machine Statics) (bp : Nat) (left block : Block)
    (back : List Block) : Prop where
  here : BlockAt machine bp block
  before : BlockAt machine (bp - left.size) left
  low : left.size + 4 ≤ bp
  leftFooter : machine.load (bp - 8) = left.tag
  ownsLeft : machine.Owns (bp - 8) 4
  next : machine.load (bp + block.size - 4) = headTag back
  ownsNext : machine.Owns (bp + block.size - 4) 4
  footer : bp - left.size + left.size - 8 = bp - 8

variable {machine middle other : Machine Statics} {bp : Nat}
  {left block right prologue : Block} {start front back blocks : List Block} {index : Index}
  {policy : Policy Index} {lists : FreeIndex Statics Index}
  {addBlock : Nat → Nat → Program (Machine Statics) Unit}
  {removeBlock : Nat → Program (Machine Statics) Unit}
  {goal : Nat → Machine Statics → Prop}

theorem Tiled.around (tiled : Tiled machine blocks) (shape : blocks = start ++ left :: block :: back)
    (position : bp = machine.origin + total start + left.size + 4) :
    Around machine bp left block back := by
  subst shape
  have reshape : start ++ left :: block :: back = (start ++ [left]) ++ block :: back := by simp
  have leftSpot : (bp - left.size, left) ∈
      spots machine.origin (start ++ left :: block :: back) :=
    mem_spots.mpr ⟨start, block :: back, rfl, by omega⟩
  have whole : bp = machine.origin + total (start ++ [left]) + 4 := by
    simp only [total_append, total_cons, total_nil]
    omega
  have hereSpot : (bp, block) ∈ spots machine.origin (start ++ left :: block :: back) :=
    mem_spots.mpr ⟨start ++ [left], back, reshape, whole⟩
  have before := tiled.blockAt leftSpot
  have next := (reshape ▸ tiled).next whole
  have positive := left.size_ge
  have footer : bp - left.size + left.size - 8 = bp - 8 := by omega
  refine ⟨tiled.blockAt hereSpot, before, by omega, ?_, ?_, next.1, next.2, footer⟩
  · rw [← footer]
    exact before.footer
  · rw [← footer]
    exact before.ownsFooter

/-! ## The four cases of the shared procedure -/

theorem coalesceWith_lone (around : Around machine bp left block back)
    (leftUsed : left.isFree = false) (rightUsed : allocField (headTag back) = 1)
    (added : Ensures (addBlock bp block.size) machine fun _ other => goal bp other) :
    Ensures (coalesceWith addBlock removeBlock bp) machine goal := by
  simp only [coalesceWith, ensures_bind, ensures_prevBlkp, ensures_ftrp, ensures_getAlloc,
    ensures_nextBlkp, ensures_getSize, hdrp_eq, around.leftFooter, around.before.size,
    around.before.header, around.footer, around.here.header, around.here.size, around.next,
    left.allocField_tag, leftUsed, rightUsed, Bool.false_eq_true, if_false]
  refine ⟨around.ownsLeft, around.before.ownsHeader, around.ownsLeft, around.here.ownsHeader,
    around.ownsNext, around.here.ownsHeader, ?_⟩
  simpa using added

theorem Block.tag_eq_pack {block : Block} {size : Nat} (isFree : block.isFree = true)
    (same : block.size = size) : pack size 0 = block.tag := by
  rw [Block.tag_of_isFree isFree, same]

theorem coalesceWith_next {merged : Block}
    (around : Around machine bp left block (right :: back))
    (leftUsed : left.isFree = false) (rightFree : right.isFree = true)
    (after : BlockAt machine (bp + block.size) right)
    (size : merged.size = block.size + right.size) (word : merged.size < 2 ^ 32)
    (isFree : merged.isFree = true)
    (removed : Ensures (removeBlock (bp + block.size)) machine fun _ middle =>
      Around middle bp left block (right :: back) ∧ BlockAt middle (bp + block.size) right ∧
      ∀ other, Stamped middle other bp merged →
        Ensures (addBlock bp merged.size) other fun _ final => goal bp final) :
    Ensures (coalesceWith addBlock removeBlock bp) machine goal := by
  have rightUsed : allocField (headTag (right :: back)) = 0 := by
    rw [allocField_headTag_cons, rightFree]
    rfl
  have low := around.low
  have positive := right.size_ge
  simp only [coalesceWith, ensures_bind, ensures_prevBlkp, ensures_ftrp, ensures_getAlloc,
    ensures_nextBlkp, ensures_getSize, hdrp_eq, around.leftFooter, around.before.size,
    around.before.header, around.footer, around.here.header, around.here.size, around.next,
    left.allocField_tag, leftUsed, rightUsed, Bool.false_eq_true, if_false]
  refine ⟨around.ownsLeft, around.before.ownsHeader, around.ownsLeft, around.here.ownsHeader,
    around.ownsNext, around.here.ownsHeader, ?_⟩
  have total : wrap (block.size + sizeField (headTag (right :: back))) = merged.size := by
    rw [headTag, after.size, wrap_of_lt (by omega), size]
  simp only [ne_eq, one_ne_zero, not_false_eq_true, not_true_eq_false, and_false,
    and_true, if_false, if_true, ensures_bind, ensures_nextBlkp, ensures_getSize,
    around.here.header, around.here.size, around.next, total]
  refine ⟨around.here.ownsHeader, around.ownsNext, around.here.ownsHeader, removed.mono ?_⟩
  rintro _ middle ⟨aroundMiddle, afterMiddle, added⟩
  have footer : bp + block.size + right.size - 8 = bp + merged.size - 8 := by omega
  have stamped := (ensures_stamp (by omega) word (Block.tag_eq_pack isFree rfl)
    aroundMiddle.here.ownsHeader (footer ▸ afterMiddle.ownsFooter)).mono
      fun _ other => added other
  simpa only [ensures_bind, ensures_pure, hdrp_eq] using stamped

theorem coalesceWith_prev {merged : Block} (around : Around machine bp left block back)
    (leftFree : left.isFree = true) (rightUsed : allocField (headTag back) = 1)
    (size : merged.size = left.size + block.size) (word : merged.size < 2 ^ 32)
    (isFree : merged.isFree = true)
    (removed : Ensures (removeBlock (bp - left.size)) machine fun _ middle =>
      Around middle bp left block back ∧
      ∀ other, Stamped middle other (bp - left.size) merged →
        Ensures (addBlock (bp - left.size) merged.size) other fun _ final =>
          goal (bp - left.size) final) :
    Ensures (coalesceWith addBlock removeBlock bp) machine goal := by
  have total : wrap (block.size + left.size) = merged.size := by
    rw [wrap_of_lt (by omega), size, Nat.add_comm]
  simp only [coalesceWith, ensures_bind, ensures_prevBlkp, ensures_ftrp, ensures_getAlloc,
    ensures_nextBlkp, ensures_getSize, hdrp_eq, around.leftFooter, around.before.size,
    around.before.header, around.footer, around.here.header, around.here.size, around.next,
    left.allocField_tag, leftFree, rightUsed, if_true]
  refine ⟨around.ownsLeft, around.before.ownsHeader, around.ownsLeft, around.here.ownsHeader,
    around.ownsNext, around.here.ownsHeader, ?_⟩
  simp only [ne_eq, one_ne_zero, not_false_eq_true, not_true_eq_false, and_false,
    and_true, if_false, if_true, ensures_bind, ensures_prevBlkp, ensures_getSize,
    around.leftFooter, around.before.size, around.before.header, total]
  refine ⟨around.ownsLeft, around.before.ownsHeader, around.ownsLeft, removed.mono ?_⟩
  rintro _ middle ⟨aroundMiddle, added⟩
  have stamped := ensures_stampPrev aroundMiddle.here aroundMiddle.before aroundMiddle.low
    (Block.size_ge_of_isFree leftFree) size word (Block.tag_eq_pack isFree rfl)
  have finished : Ensures _ middle fun value other =>
      Ensures (addBlock value merged.size) other fun _ final => goal value final :=
    stamped.mono fun value other => by
      rintro ⟨rfl, written⟩
      exact added other written
  simpa only [ensures_bind, ensures_pure, hdrp_eq, ensures_prevBlkp, ensures_ftrp]
    using finished

theorem coalesceWith_both {merged : Block}
    (around : Around machine bp left block (right :: back))
    (leftFree : left.isFree = true) (rightFree : right.isFree = true)
    (after : BlockAt machine (bp + block.size) right)
    (size : merged.size = left.size + block.size + right.size) (word : merged.size < 2 ^ 32)
    (isFree : merged.isFree = true)
    (removed : Ensures (removeBlock (bp + block.size)) machine fun _ middle =>
      Around middle bp left block (right :: back) ∧
      Ensures (removeBlock (bp - left.size)) middle fun _ later =>
        Around later bp left block (right :: back) ∧ BlockAt later (bp + block.size) right ∧
        ∀ other, Stamped later other (bp - left.size) merged →
          Ensures (addBlock (bp - left.size) merged.size) other fun _ final =>
            goal (bp - left.size) final) :
    Ensures (coalesceWith addBlock removeBlock bp) machine goal := by
  have rightUsed : allocField (headTag (right :: back)) = 0 := by
    rw [allocField_headTag_cons, rightFree]
    rfl
  have total : wrap (block.size + wrap (left.size + right.size)) = merged.size := by
    have inner : wrap (left.size + right.size) = left.size + right.size :=
      wrap_of_lt (by omega)
    rw [inner, wrap_of_lt (by omega), size]
    omega
  simp only [coalesceWith, ensures_bind, ensures_prevBlkp, ensures_ftrp, ensures_getAlloc,
    ensures_nextBlkp, ensures_getSize, hdrp_eq, around.leftFooter, around.before.size,
    around.before.header, around.footer, around.here.header, around.here.size, around.next,
    left.allocField_tag, leftFree, rightUsed, if_true]
  refine ⟨around.ownsLeft, around.before.ownsHeader, around.ownsLeft, around.here.ownsHeader,
    around.ownsNext, around.here.ownsHeader, ?_⟩
  simp only [ne_eq, not_true_eq_false, and_false, false_and, if_false,
    ensures_bind, ensures_prevBlkp, ensures_nextBlkp, ensures_ftrp, ensures_getSize,
    around.leftFooter, around.before.size, around.before.header, around.here.header,
    around.here.size, after.header, after.footer, after.size, total]
  refine ⟨around.ownsLeft, around.before.ownsHeader, around.here.ownsHeader, after.ownsHeader,
    after.ownsFooter, around.here.ownsHeader, removed.mono ?_⟩
  rintro _ middle ⟨aroundMiddle, removedLeft⟩
  simp only [aroundMiddle.leftFooter, aroundMiddle.before.size]
  refine ⟨aroundMiddle.ownsLeft, removedLeft.mono ?_⟩
  rintro _ later ⟨aroundLater, afterLater, added⟩
  have stamped := ensures_stampBoth aroundLater.here aroundLater.before afterLater
    aroundLater.low (Block.size_ge_of_isFree leftFree) size word (Block.tag_eq_pack isFree rfl)
  have finished : Ensures _ later fun value other =>
      Ensures (addBlock value merged.size) other fun _ final => goal value final :=
    stamped.mono fun value other => by
      rintro ⟨rfl, written⟩
      exact added other written
  simpa only [ensures_bind, ensures_pure, hdrp_eq, ensures_prevBlkp, ensures_nextBlkp,
    ensures_ftrp] using finished

/-- The rules by which a `coalesce` is verified. When both neighbours are free
a package may take them off its lists in either order. -/
structure Coalesces (coalesce : Nat → Program (Machine Statics) Nat)
    (addBlock : Nat → Nat → Program (Machine Statics) Unit)
    (removeBlock : Nat → Program (Machine Statics) Unit) : Prop where
  lone : ∀ {machine : Machine Statics} {bp : Nat} {left block : Block} {back : List Block}
    {goal : Nat → Machine Statics → Prop}, Around machine bp left block back →
    left.isFree = false → allocField (headTag back) = 1 →
    Ensures (addBlock bp block.size) machine (fun _ other => goal bp other) →
    Ensures (coalesce bp) machine goal
  next : ∀ {machine : Machine Statics} {bp : Nat} {left block right merged : Block}
    {back : List Block} {goal : Nat → Machine Statics → Prop},
    Around machine bp left block (right :: back) →
    left.isFree = false → right.isFree = true → BlockAt machine (bp + block.size) right →
    merged.size = block.size + right.size → merged.size < 2 ^ 32 → merged.isFree = true →
    Ensures (removeBlock (bp + block.size)) machine (fun _ middle =>
      Around middle bp left block (right :: back) ∧ BlockAt middle (bp + block.size) right ∧
      ∀ other, Stamped middle other bp merged →
        Ensures (addBlock bp merged.size) other fun _ final => goal bp final) →
    Ensures (coalesce bp) machine goal
  prev : ∀ {machine : Machine Statics} {bp : Nat} {left block merged : Block}
    {back : List Block} {goal : Nat → Machine Statics → Prop},
    Around machine bp left block back →
    left.isFree = true → allocField (headTag back) = 1 →
    merged.size = left.size + block.size → merged.size < 2 ^ 32 → merged.isFree = true →
    Ensures (removeBlock (bp - left.size)) machine (fun _ middle =>
      Around middle bp left block back ∧
      ∀ other, Stamped middle other (bp - left.size) merged →
        Ensures (addBlock (bp - left.size) merged.size) other fun _ final =>
          goal (bp - left.size) final) →
    Ensures (coalesce bp) machine goal
  both : ∀ {machine : Machine Statics} {bp : Nat} {left block right merged : Block}
    {back : List Block} {goal : Nat → Machine Statics → Prop},
    Around machine bp left block (right :: back) →
    left.isFree = true → right.isFree = true → BlockAt machine (bp + block.size) right →
    merged.size = left.size + block.size + right.size → merged.size < 2 ^ 32 →
    merged.isFree = true →
    (∀ first second, (first, second) = (bp + block.size, bp - left.size) ∨
        (first, second) = (bp - left.size, bp + block.size) →
      Ensures (removeBlock first) machine fun _ middle =>
        Around middle bp left block (right :: back) ∧
        Ensures (removeBlock second) middle fun _ later =>
          Around later bp left block (right :: back) ∧ BlockAt later (bp + block.size) right ∧
          ∀ other, Stamped later other (bp - left.size) merged →
            Ensures (addBlock (bp - left.size) merged.size) other fun _ final =>
              goal (bp - left.size) final) →
    Ensures (coalesce bp) machine goal

theorem coalesceWith_coalesces (addBlock : Nat → Nat → Program (Machine Statics) Unit)
    (removeBlock : Nat → Program (Machine Statics) Unit) :
    Coalesces (coalesceWith addBlock removeBlock) addBlock removeBlock where
  lone := coalesceWith_lone
  next := coalesceWith_next
  prev := coalesceWith_prev
  both := fun around leftFree rightFree after size word isFree removed =>
    coalesceWith_both around leftFree rightFree after size word isFree
      (removed _ _ (.inl rfl))

end MallocLab
