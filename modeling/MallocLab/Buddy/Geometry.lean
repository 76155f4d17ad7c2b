import MallocLab.Buddy.Nodes
import MallocLab.Buddy.Tree

/-! # Node indices and addresses

The nodes of the tree are numbered level by level from the largest one on. The
functions of the source convert between these indices and addresses.
-/

namespace MallocLab.Buddy

open TreeNode

variable {node other : TreeNode} {base limit bucket : Nat}

/-- The index of a node. -/
def indexOf (node : TreeNode) : Nat := 2 ^ bucketOf node - 1 + node.position

/-- The index of the parent, whose bit tells about the node. -/
def parentIndex (node : TreeNode) : Nat := (indexOf node - 1) / 2

/-- The node has a bucket and lies in the address range of the allocator. -/
structure InRange (node : TreeNode) : Prop where
  large : minAllocLog2 ≤ node.exponent
  small : node.exponent ≤ maxAllocLog2
  inside : node.limit ≤ maxAlloc

theorem maxAlloc_eq : maxAlloc = 2 ^ 31 := rfl

/-- The next root is twice as large. -/
theorem root_size_pred (positive : 0 < limit) (inside : limit < bucketCount) :
    (root (limit - 1)).size = 2 * (root limit).size := by
  unfold bucketCount minAllocLog2 maxAllocLog2 at inside
  rw [size, size, root_exponent, root_exponent, ← Nat.pow_succ']
  congr 1
  omega

/-- The end of the root, and the byte that `update_max_ptr` takes beyond. -/
def extentOf (limit : Nat) : Nat := (root limit).size + 1

theorem extentOf_mono (smaller : limit ≤ bucket) : extentOf bucket ≤ extentOf limit :=
  Nat.succ_le_succ (Nat.pow_le_pow_right (by decide) (Nat.sub_le_sub_left smaller _))

/-- No address of the root wraps, nor do those of the links behind it where there is
a larger root. -/
def Spans (base limit : Nat) : Prop :=
  base + extentOf limit < 2 ^ 32 ∧ (0 < limit → base + extentOf limit + listSize < 2 ^ 32)

theorem Spans.mono (spans : Spans base limit) (smaller : limit ≤ bucket) : Spans base bucket := by
  have inside := spans.1
  have shorter := extentOf_mono smaller
  refine ⟨by omega, fun positive => ?_⟩
  rcases Nat.eq_zero_or_pos limit with rfl | larger
  · have half : extentOf bucket ≤ extentOf 1 := extentOf_mono positive
    have first : extentOf 1 = 2 ^ 30 + 1 := rfl
    have whole : extentOf 0 = 2 ^ 31 + 1 := rfl
    unfold listSize
    omega
  · have behind := spans.2 larger
    omega

/-- If no address in reach of the allocator wraps, then those of no root do. -/
theorem spans_of_maxAlloc (aligned : base % 8 = 0) (whole : base + maxAlloc < 2 ^ 32) (limit : Nat) :
    Spans base limit := by
  have all : Spans base 0 := by
    rw [maxAlloc_eq] at whole
    have extent : extentOf 0 = 2 ^ 31 + 1 := rfl
    exact ⟨by omega, fun positive => absurd positive (Nat.lt_irrefl 0)⟩
  exact all.mono (Nat.zero_le limit)

theorem Tree.Valid.inRange {tree : Tree} {used : List TreeNode} (valid : tree.Valid used)
    (member : node ∈ tree.free ++ used) : InRange node where
  large := valid.large node member
  small := (valid.exponent_le member).trans (Nat.sub_le _ _)
  inside := by
    have within := valid.within member
    apply within.2.trans
    rw [TreeNode.limit, root_start, Nat.zero_add]
    exact Nat.pow_le_pow_right (by decide) (Nat.sub_le _ _)

theorem inRange_root (inside : limit < bucketCount) : InRange (root limit) where
  large := by
    rw [root_exponent]
    unfold bucketCount minAllocLog2 maxAllocLog2 at *
    omega
  small := Nat.sub_le _ _
  inside := by
    rw [TreeNode.limit, root_start, Nat.zero_add]
    exact Nat.pow_le_pow_right (by decide) (Nat.sub_le _ _)

theorem bucketOf_root (inside : limit < bucketCount) : bucketOf (root limit) = limit := by
  rw [bucketOf, root_exponent]
  unfold bucketCount minAllocLog2 maxAllocLog2 at *
  omega

namespace InRange

section Node

variable (range : InRange node)

include range

theorem bucket_lt : bucketOf node < bucketCount := by
  have large := range.large
  unfold bucketOf bucketCount minAllocLog2 maxAllocLog2 at *
  omega

theorem exponent_eq : maxAllocLog2 - bucketOf node = node.exponent := by
  have small := range.small
  unfold bucketOf
  omega

theorem position_lt : node.position < 2 ^ bucketOf node := by
  have inside := range.inside
  have product : (2 : Nat) ^ bucketOf node * node.size = maxAlloc := by
    rw [size, ← Nat.pow_add, maxAlloc_eq]
    congr 1
    have small := range.small
    unfold bucketOf maxAllocLog2 at *
    omega
  rw [TreeNode.limit, start, ← Nat.succ_mul, ← product] at inside
  exact Nat.le_of_mul_le_mul_right inside node.size_pos

theorem pow_bucket_le : (2 : Nat) ^ bucketOf node ≤ 2 ^ 27 :=
  Nat.pow_le_pow_right (by decide) (Nat.le_of_lt_succ range.bucket_lt)

theorem start_mod : node.start % 16 = 0 := by
  have divides : (16 : Nat) ∣ node.size := pow_dvd_pow 2 range.large
  exact Nat.mod_eq_zero_of_dvd (divides.mul_left _)

theorem indexOf_lt : indexOf node < 2 ^ 28 - 1 := by
  have position := range.position_lt
  have power := range.pow_bucket_le
  unfold indexOf
  omega

theorem indexOf_eq_zero : indexOf node = 0 ↔ bucketOf node = 0 := by
  have position := range.position_lt
  unfold indexOf
  constructor
  · intro zero
    by_contra nonzero
    have power : 2 ^ 1 ≤ 2 ^ bucketOf node := Nat.pow_le_pow_right (by decide) (by omega)
    omega
  · intro zero
    rw [zero] at position ⊢
    omega

theorem bucket_pow (hasParent : bucketOf node ≠ 0) :
    (2 : Nat) ^ bucketOf node = 2 * 2 ^ bucketOf node.parent ∧
      bucketOf node.parent = bucketOf node - 1 := by
  have small := range.small
  have parent : bucketOf node.parent = bucketOf node - 1 := by
    unfold bucketOf
    rw [parent_exponent]
    omega
  rw [parent, ← Nat.pow_succ', Nat.succ_eq_add_one, Nat.sub_add_cancel (by omega)]
  exact ⟨rfl, rfl⟩

theorem indexOf_parent (hasParent : bucketOf node ≠ 0) :
    indexOf node.parent = parentIndex node := by
  have power := (range.bucket_pow hasParent).1
  have positive := Nat.two_pow_pos (bucketOf node.parent)
  unfold parentIndex indexOf
  rw [power, parent_position]
  omega

theorem parentIndex_lt : parentIndex node < 2 ^ 27 - 1 := by
  have small := range.indexOf_lt
  unfold parentIndex
  omega

theorem sibling (hasParent : bucketOf node ≠ 0) : InRange node.sibling where
  large := range.large
  small := range.small
  inside := by
    have position := range.position_lt
    have power := (range.bucket_pow hasParent).1
    have product : (2 : Nat) ^ bucketOf node * node.size = maxAlloc := by
      rw [size, ← Nat.pow_add, maxAlloc_eq]
      congr 1
      have small := range.small
      unfold bucketOf maxAllocLog2 at *
      omega
    have within : node.sibling.position + 1 ≤ 2 ^ bucketOf node := by
      rw [sibling_position]
      split <;> omega
    calc node.sibling.limit = (node.sibling.position + 1) * node.size := (Nat.succ_mul _ _).symm
      _ ≤ 2 ^ bucketOf node * node.size := Nat.mul_le_mul_right _ within
      _ = maxAlloc := product

theorem parent (hasParent : bucketOf node ≠ 0) : InRange node.parent where
  large := range.large.trans (Nat.le_succ _)
  small := by
    have small := range.small
    rw [parent_exponent]
    unfold bucketOf at hasParent
    omega
  inside := by
    have inside := range.inside
    have siblingInside := (range.sibling hasParent).inside
    rcases Nat.mod_two_eq_zero_or_one node.position with even | odd
    · rwa [← right_limit (Nat.succ_pos _), ← left_sibling, parent_left node even]
    · rwa [← right_limit (Nat.succ_pos _), parent_right node odd]

theorem left (large : minAllocLog2 < node.exponent) : InRange node.left where
  large := Nat.le_sub_one_of_lt large
  small := (Nat.sub_le _ _).trans range.small
  inside := (left_within (by omega)).2.trans range.inside

theorem right (large : minAllocLog2 < node.exponent) : InRange node.right where
  large := Nat.le_sub_one_of_lt large
  small := (Nat.sub_le _ _).trans range.small
  inside := (right_within (by omega)).2.trans range.inside

theorem bucketOf_left (large : minAllocLog2 < node.exponent) :
    bucketOf node.left = bucketOf node + 1 := by
  have small := range.small
  unfold bucketOf
  rw [left_exponent]
  omega

theorem indexOf_left (large : minAllocLog2 < node.exponent) :
    indexOf node.left = indexOf node * 2 + 1 := by
  have positive := Nat.two_pow_pos (bucketOf node)
  unfold indexOf
  rw [range.bucketOf_left large, Nat.pow_succ, left_position]
  omega

end Node

/-- The general geometry applies to the size that the source chooses. -/
theorem numbers (range : InRange node) :
    Numbers maxAllocLog2 (indexOf node) (bucketOf node) node where
  levels := by
    have small := range.small
    unfold bucketOf
    omega
  index_eq := rfl
  position_lt := range.position_lt

theorem maxAllocLog2_lt : maxAllocLog2 < 32 := by decide

theorem indexOf_sibling (range : InRange node) (hasParent : bucketOf node ≠ 0) :
    indexOf node.sibling = siblingIndex (indexOf node) := by
  have nonzero : indexOf node ≠ 0 := fun zero => hasParent (range.indexOf_eq_zero.mp zero)
  exact (range.numbers.sibling maxAllocLog2_lt nonzero).index_eq.symm

/-- The index determines the node. -/
theorem eq_of_indexOf (range : InRange node) (otherRange : InRange other)
    (same : indexOf node = indexOf other) : node = other := by
  have separated : ∀ {low high : TreeNode}, InRange low → bucketOf low < bucketOf high →
      indexOf low ≠ indexOf high := by
    intro low high lowRange order equal
    have position := lowRange.position_lt
    have power : 2 * 2 ^ bucketOf low ≤ 2 ^ bucketOf high := by
      rw [← Nat.pow_succ']
      exact Nat.pow_le_pow_right (by decide) order
    unfold indexOf at equal
    omega
  have buckets : bucketOf node = bucketOf other := by
    rcases Nat.lt_trichotomy (bucketOf node) (bucketOf other) with below | equal | above
    · exact absurd same (separated range below)
    · exact equal
    · exact absurd same.symm (separated otherRange above)
  rw [ext_iff, ← range.exponent_eq, ← otherRange.exponent_eq, buckets]
  refine ⟨rfl, ?_⟩
  unfold indexOf at same
  rw [buckets] at same
  omega

/-- Two nodes share the bit of their parent when they are equal or siblings. -/
theorem parentIndex_eq_iff (range : InRange node) (otherRange : InRange other)
    (hasParent : bucketOf node ≠ 0) (otherHasParent : bucketOf other ≠ 0) :
    parentIndex other = parentIndex node ↔ other = node ∨ other = node.sibling := by
  rw [← parent_eq_iff, ← range.indexOf_parent hasParent, ← otherRange.indexOf_parent otherHasParent]
  constructor
  · exact eq_of_indexOf (otherRange.parent otherHasParent) (range.parent hasParent)
  · exact congrArg indexOf

/-! ## Addresses -/

/-- `ptr_for_node` leads to the start of a node. -/
theorem ptrForNode (range : InRange node) (below : base + node.start < 2 ^ 32) :
    ptrForNodeIn maxAllocLog2 base (indexOf node) (bucketOf node) = base + node.start := by
  rw [range.numbers.ptrForNode maxAllocLog2_lt, wrap_of_lt below]

/-- `node_for_ptr` inverts `ptr_for_node`. -/
theorem nodeForPtr (range : InRange node) (below : base + node.start < 2 ^ 32) :
    nodeForPtrIn maxAllocLog2 base (base + node.start) (bucketOf node) = indexOf node := by
  have found := range.numbers.nodeForPtr maxAllocLog2_lt base
  rwa [wrap_of_lt below] at found

end InRange

end MallocLab.Buddy
