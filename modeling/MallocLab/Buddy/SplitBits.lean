import MallocLab.Buddy.Geometry

/-! # The bits of `node_is_split`

Every free node, and the root itself, marks the bit of its parent, and a bit is
set when it is marked an odd number of times. One flip is one more mark.
-/

namespace MallocLab.Buddy

open Program TreeNode

variable {machine : State} {node other : TreeNode} {marks : List Nat} {index bit limit : Nat}

def splitBit (machine : State) (bit : Nat) : Bool :=
  (machine.statics.nodeIsSplit (bit / 8)).toNat.testBit (bit % 8)

/-- The machine with one bit flipped. -/
def flipped (machine : State) (bit : Nat) : State :=
  machine.setStatics { machine.statics with
    nodeIsSplit := Function.update machine.statics.nodeIsSplit (bit / 8)
      (UInt8.ofNat ((machine.statics.nodeIsSplit (bit / 8)).toNat ^^^ (1 <<< (bit % 8)))) }

theorem splitBit_flipped (machine : State) (bit index : Nat) :
    splitBit (flipped machine bit) index = (splitBit machine index ^^ decide (bit = index)) := by
  unfold splitBit
  change (Function.update machine.statics.nodeIsSplit (bit / 8) _ (index / 8)).toNat.testBit _ = _
  by_cases sameByte : index / 8 = bit / 8
  · have sameBit : bit % 8 = index % 8 ↔ bit = index := by omega
    rw [sameByte, Function.update_self, UInt8.toNat_ofNat', Nat.testBit_mod_two_pow,
      Nat.testBit_xor, Nat.one_shiftLeft, Nat.testBit_two_pow,
      decide_eq_true (Nat.mod_lt index (by decide : 0 < 8)), Bool.true_and, decide_eq_decide.mpr sameBit]
  · rw [Function.update_of_ne sameByte, decide_eq_false (by omega : ¬bit = index), Bool.xor_false]

section Ensures

variable (positive : 0 < index) (inside : index < 2 ^ 28)

include positive inside

theorem byte_lt : wrapSub index 1 / 2 = (index - 1) / 2 ∧ (index - 1) / 2 / 8 < splitBytes := by
  rw [wrapSub_of_le (by omega) positive]
  refine ⟨rfl, ?_⟩
  change _ < 2 ^ 24
  omega

theorem ensures_parentIsSplit (goal : Nat → State → Prop) :
    Ensures (parentIsSplit index) machine goal ↔
      goal (splitBit machine ((index - 1) / 2)).toNat machine := by
  have byte := byte_lt positive inside
  simp only [parentIsSplit, byte.1, ensures_bind, ensures_require, ensures_statics, ensures_pure,
    byte.2, true_and, splitBit, Nat.toNat_testBit, Nat.and_one_is_mod, Nat.shiftRight_eq_div_pow]

theorem ensures_flipParentIsSplit (goal : Unit → State → Prop) :
    Ensures (flipParentIsSplit index) machine goal ↔
      goal () (flipped machine ((index - 1) / 2)) := by
  have byte := byte_lt positive inside
  simp only [flipParentIsSplit, byte.1, ensures_bind, ensures_require, ensures_statics,
    ensures_setStatics, byte.2, true_and, flipped]

end Ensures

/-- Every bit of the array is the parity of its marks. -/
def Marked (machine : State) (marks : List Nat) : Prop :=
  ∀ bit < 2 ^ 27, splitBit machine bit = decide (marks.count bit % 2 = 1)

namespace Marked

theorem perm {other : List Nat} (marked : Marked machine marks) (same : marks.Perm other) :
    Marked machine other := by
  intro bit inside
  rw [← same.count_eq]
  exact marked bit inside

theorem congr {after : State} (marked : Marked machine marks)
    (same : after.statics.nodeIsSplit = machine.statics.nodeIsSplit) : Marked after marks := by
  intro bit inside
  rw [← marked bit inside, splitBit, same]
  rfl

theorem flipped (marked : Marked machine marks) (bit : Nat) :
    Marked (flipped machine bit) (bit :: marks) := by
  intro index inside
  rw [splitBit_flipped, marked index inside, List.count_cons]
  by_cases same : bit = index
  · rw [decide_eq_true same, Bool.xor_true, same, beq_self_eq_true, if_pos rfl, ← decide_not]
    exact decide_eq_decide.mpr (by omega)
  · rw [decide_eq_false same, Bool.xor_false, beq_false_of_ne same, if_neg Bool.false_ne_true,
      Nat.add_zero]

/-- Two marks at one place are none. -/
theorem cancel (marked : Marked machine (bit :: bit :: marks)) : Marked machine marks := by
  intro index inside
  rw [marked index inside, List.count_cons, List.count_cons]
  exact decide_eq_decide.mpr (by split <;> omega)

theorem twice (marked : Marked machine marks) : Marked machine (bit :: bit :: marks) := by
  intro index inside
  rw [marked index inside, List.count_cons, List.count_cons]
  exact decide_eq_decide.mpr (by split <;> omega)

end Marked

/-! ## Marks of free nodes -/

/-- The mark of a node, when it has a parent. -/
def markOf (node : TreeNode) : List Nat :=
  if bucketOf node = 0 then [] else [parentIndex node]

def marksOf (free : List TreeNode) : List Nat := free.flatMap markOf

/-- The marks of a tree at rest. The root marks the bit above it, so that this
bit is set when the root is in use. -/
def Tree.restingMarks (tree : Tree) : List Nat := marksOf tree.free ++ markOf (root tree.limit)

theorem markOf_of_parent (hasParent : bucketOf node ≠ 0) : markOf node = [parentIndex node] :=
  if_neg hasParent

theorem markOf_sibling (range : InRange node) : markOf node.sibling = markOf node := by
  by_cases top : bucketOf node = 0
  · rw [markOf, markOf, if_pos top, if_pos (show bucketOf node.sibling = 0 from top)]
  · have shared := range.parentIndex_eq_iff (range.sibling top) top (show bucketOf node.sibling ≠ 0 from top)
    rw [markOf_of_parent top, markOf_of_parent (show bucketOf node.sibling ≠ 0 from top),
      shared.mpr (.inr rfl)]

theorem marksOf_cons (node : TreeNode) (free : List TreeNode) :
    marksOf (node :: free) = markOf node ++ marksOf free := List.flatMap_cons

theorem marksOf_push (free : List TreeNode) (node : TreeNode) :
    marksOf (free ++ [node]) = marksOf free ++ markOf node := by
  simp [marksOf]

theorem marksOf_perm {free changed : List TreeNode} (same : free.Perm changed) :
    (marksOf free).Perm (marksOf changed) := same.flatMap_right _

/-- A parent is marked by those of its two children that are free. -/
theorem count_marksOf {free : List TreeNode} (inRange : ∀ node ∈ free, InRange node)
    (nodup : free.Nodup) (range : InRange node) (hasParent : bucketOf node ≠ 0) :
    (marksOf free).count (parentIndex node) =
      (if node ∈ free then 1 else 0) + if node.sibling ∈ free then 1 else 0 := by
  induction free with
  | nil => rfl
  | cons first rest induction =>
      have tail := induction (fun node member => inRange node (List.mem_cons_of_mem _ member))
        (List.nodup_cons.mp nodup).2
      have notInRest := (List.nodup_cons.mp nodup).1
      have different := sibling_ne node
      rw [marksOf_cons, List.count_append, tail]
      by_cases firstHasParent : bucketOf first = 0
      · have notNode : node ≠ first := fun same => hasParent (same ▸ firstHasParent)
        have notSibling : node.sibling ≠ first := fun same => hasParent (by
          rw [← firstHasParent, ← same]
          rfl)
        simp [markOf, firstHasParent, notNode, notSibling]
      · have shared := range.parentIndex_eq_iff (inRange first List.mem_cons_self) hasParent
          firstHasParent
        rw [markOf_of_parent firstHasParent]
        by_cases isNode : first = node
        · subst isNode
          simp [notInRest, different]
        · by_cases isSibling : first = node.sibling
          · have marksParent := shared.mpr (.inr isSibling)
            subst isSibling
            simp [notInRest, marksParent, different.symm]
            omega
          · have elsewhere : parentIndex first ≠ parentIndex node := fun equal =>
              (shared.mp equal).elim isNode isSibling
            have notFirst : node ≠ first := fun same => isNode same.symm
            have siblingNotFirst : node.sibling ≠ first := fun same => isSibling same.symm
            simp [elsewhere, notFirst, siblingNotFirst]

/-- The mark of the root is above all other nodes of the tree. -/
theorem count_rootMark (inside : limit < bucketCount) (range : InRange node)
    (hasParent : bucketOf node ≠ 0) (below : bucketOf node ≠ limit) :
    (markOf (root limit)).count (parentIndex node) = 0 := by
  have rootBucket := bucketOf_root inside
  by_cases top : bucketOf (root limit) = 0
  · rw [markOf, if_pos top, List.count_nil]
  · rw [markOf_of_parent top, List.count_eq_zero, List.mem_singleton]
    intro same
    rcases (range.parentIndex_eq_iff (inRange_root inside) hasParent top).mp same.symm with
      isNode | isSibling
    · exact below (by rw [← isNode, rootBucket])
    · have sameBucket : bucketOf (root limit) = bucketOf node := by
        rw [isSibling]
        rfl
      exact below (by rw [← sameBucket, rootBucket])

/-- No bit is set in a tree that consists of a free root. -/
theorem marked_root : Marked machine (Tree.restingMarks ⟨limit, [root limit]⟩) ↔
    Marked machine [] := by
  rw [Tree.restingMarks, marksOf_cons]
  by_cases top : bucketOf (root limit) = 0
  · rw [markOf, if_pos top]
    rfl
  · rw [markOf_of_parent top]
    exact ⟨Marked.cancel, Marked.twice⟩

end MallocLab.Buddy
