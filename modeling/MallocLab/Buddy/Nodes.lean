import MallocLab.Buddy.Source
import MallocLab.Foundation.BinaryTree
import Mathlib.Order.CompletePartialOrder
import Mathlib.Order.Interval.Set.Disjoint

/-! # Node numbers for any size of the tree

The nodes are numbered level by level, and the numbers of bucket `b` begin at
`2 ^ b - 1`. Nothing here depends on the value that the source gives to
`MAX_ALLOC_LOG2`.
-/

namespace MallocLab.Buddy

open TreeNode

variable {maxAllocLog2 basePtr index bucket : Nat} {node : TreeNode}

/-- `BUCKET_COUNT` for any value of `MAX_ALLOC_LOG2`. -/
def bucketCountIn (maxAllocLog2 : Nat) : Nat := maxAllocLog2 - minAllocLog2 + 1

/-- The number belongs to a node of the bucket. -/
structure IsNode (maxAllocLog2 index bucket : Nat) : Prop where
  bucket_lt : bucket < bucketCountIn maxAllocLog2
  first_le : 2 ^ bucket - 1 ≤ index
  lt_next : index < 2 ^ (bucket + 1) - 1

/-- `index * 2 + 1`. -/
def leftChild (index : Nat) : Nat := wrap (index * 2 + 1)

/-- `index * 2 + 2`. -/
def rightChild (index : Nat) : Nat := wrap (index * 2 + 2)

/-- `(index - 1) / 2`. -/
def parentOf (index : Nat) : Nat := wrapSub index 1 / 2

/-- From the inner node the way to the root passes through the outer one. -/
def IsAncestor (outer outerBucket inner innerBucket : Nat) : Prop :=
  outerBucket ≤ innerBucket ∧ parentOf^[innerBucket - outerBucket] inner = outer

/-- The size of the allocations of a bucket. -/
def bucketSize (maxAllocLog2 bucket : Nat) : Nat := 1 <<< (maxAllocLog2 - bucket)

/-- The distance of a node from `base_ptr`. -/
def nodeOffset (maxAllocLog2 basePtr index bucket : Nat) : Nat :=
  wrapSub (ptrForNodeIn maxAllocLog2 basePtr index bucket) basePtr

/-- The distances from `base_ptr` of the bytes of a node. -/
def nodeExtent (maxAllocLog2 basePtr index bucket : Nat) : Set Nat :=
  Set.Ico (nodeOffset maxAllocLog2 basePtr index bucket)
    (nodeOffset maxAllocLog2 basePtr index bucket + bucketSize maxAllocLog2 bucket)

/-! ## Numbers and nodes -/

/-- The number and the bucket of a node in the tree of `2 ^ maxAllocLog2` bytes. -/
structure Numbers (maxAllocLog2 index bucket : Nat) (node : TreeNode) : Prop where
  levels : bucket + node.exponent = maxAllocLog2
  index_eq : index = 2 ^ bucket - 1 + node.position
  position_lt : node.position < 2 ^ bucket

namespace Numbers

theorem of_isNode (isNode : IsNode maxAllocLog2 index bucket) :
    Numbers maxAllocLog2 index bucket ⟨maxAllocLog2 - bucket, index - (2 ^ bucket - 1)⟩ := by
  have count := isNode.bucket_lt
  have first := isNode.first_le
  have last := isNode.lt_next
  rw [Nat.pow_succ] at last
  unfold bucketCountIn minAllocLog2 at count
  constructor
  · change bucket + (maxAllocLog2 - bucket) = maxAllocLog2
    omega
  · change index = 2 ^ bucket - 1 + (index - (2 ^ bucket - 1))
    omega
  · change index - (2 ^ bucket - 1) < 2 ^ bucket
    omega

theorem isNode (numbers : Numbers maxAllocLog2 index bucket node)
    (count : bucket < bucketCountIn maxAllocLog2) : IsNode maxAllocLog2 index bucket := by
  have place := numbers.index_eq
  have position := numbers.position_lt
  have next := Nat.pow_succ 2 bucket
  constructor
  · exact count
  · omega
  · omega

section Word

variable (numbers : Numbers maxAllocLog2 index bucket node) (word : maxAllocLog2 < 32)

include numbers

theorem exponent_eq : maxAllocLog2 - bucket = node.exponent := by
  have levels := numbers.levels
  omega

theorem size_eq : bucketSize maxAllocLog2 bucket = node.size := by
  rw [bucketSize, numbers.exponent_eq, Nat.one_shiftLeft, size]

theorem limit_le : node.limit ≤ 2 ^ maxAllocLog2 := by
  calc node.limit = (node.position + 1) * node.size := (Nat.succ_mul _ _).symm
    _ ≤ 2 ^ bucket * node.size := Nat.mul_le_mul_right _ numbers.position_lt
    _ = 2 ^ maxAllocLog2 := by rw [size, ← Nat.pow_add, numbers.levels]

theorem bucket_pow (hasParent : index ≠ 0) :
    ∃ above, bucket = above + 1 ∧ (2 : Nat) ^ bucket = 2 * 2 ^ above := by
  cases bucket with
  | zero =>
      have place := numbers.index_eq
      have position := numbers.position_lt
      rw [Nat.pow_zero] at place position
      omega
  | succ above => exact ⟨above, rfl, Nat.pow_succ'⟩

include word

theorem pow_bucket_le : (2 : Nat) ^ bucket ≤ 2 ^ 31 := by
  have levels := numbers.levels
  exact Nat.pow_le_pow_right (by decide) (by omega)

theorem start_lt : node.start < 2 ^ 31 := by
  apply node.start_lt_limit.trans_le
  apply numbers.limit_le.trans
  exact Nat.pow_le_pow_right (by decide) (Nat.le_of_lt_succ word)

/-- `ptr_for_node` leads to the start of a node. -/
theorem ptrForNode : ptrForNodeIn maxAllocLog2 basePtr index bucket =
    wrap (basePtr + node.start) := by
  have place := numbers.index_eq
  have position := numbers.position_lt
  have power := numbers.pow_bucket_le word
  have positive := Nat.two_pow_pos bucket
  have start := numbers.start_lt word
  have offset : wrap (wrapSub index (1 <<< bucket) + 1) = node.position := by
    rw [Nat.one_shiftLeft]
    unfold wrapSub wrap
    omega
  have shifted : node.position <<< (maxAllocLog2 - bucket) = node.start := by
    rw [Nat.shiftLeft_eq, numbers.exponent_eq, TreeNode.start, size]
  rw [ptrForNodeIn, offset, shifted, wrap_of_lt (by omega : node.start < 2 ^ 32)]

theorem nodeOffset_eq : nodeOffset maxAllocLog2 basePtr index bucket = node.start := by
  have start := numbers.start_lt word
  rw [nodeOffset, numbers.ptrForNode word, wrapSub_wrap_add basePtr (by omega)]

theorem nodeExtent_eq : nodeExtent maxAllocLog2 basePtr index bucket = Set.Ico node.start node.limit := by
  rw [nodeExtent, numbers.nodeOffset_eq word, numbers.size_eq, limit]

/-- `node_for_ptr` finds the node of the bucket at an address. -/
theorem nodeForPtr (basePtr : Nat) :
    nodeForPtrIn maxAllocLog2 basePtr (wrap (basePtr + node.start)) bucket = index := by
  have place := numbers.index_eq
  have position := numbers.position_lt
  have power := numbers.pow_bucket_le word
  have positive := Nat.two_pow_pos bucket
  have start := numbers.start_lt word
  have offset : toInt (wrapSub (wrap (basePtr + node.start)) basePtr) = (node.start : Int) := by
    rw [wrapSub_wrap_add basePtr (by omega)]
    exact toInt_of_lt start
  have quotient : (node.start : Int).shiftRight (maxAllocLog2 - bucket) =
      (node.position : Int) := by
    change ((node.start >>> (maxAllocLog2 - bucket) : Nat) : Int) = _
    rw [Nat.shiftRight_eq_div_pow, numbers.exponent_eq, TreeNode.start, size,
      Nat.mul_div_cancel _ (Nat.two_pow_pos _)]
  rw [nodeForPtrIn, offset, quotient, Nat.one_shiftLeft, toSizeT_of_lt (by omega) (by omega)]
  omega

theorem index_lt : index < 2 ^ 32 - 1 := by
  have place := numbers.index_eq
  have position := numbers.position_lt
  have power := numbers.pow_bucket_le word
  omega

section Children

variable (positive : 0 < node.exponent)

include positive

theorem index_lt_half : index < 2 ^ 31 - 1 := by
  have levels := numbers.levels
  have place := numbers.index_eq
  have position := numbers.position_lt
  have power : (2 : Nat) ^ bucket ≤ 2 ^ 30 := Nat.pow_le_pow_right (by decide) (by omega)
  omega

theorem leftChild_eq : leftChild index = 2 * index + 1 := by
  have small := numbers.index_lt_half word positive
  rw [leftChild, wrap_of_lt (by omega), Nat.mul_comm]

theorem rightChild_eq : rightChild index = 2 * index + 2 := by
  have small := numbers.index_lt_half word positive
  rw [rightChild, wrap_of_lt (by omega), Nat.mul_comm]

theorem left : Numbers maxAllocLog2 (leftChild index) (bucket + 1) node.left := by
  have levels := numbers.levels
  have place := numbers.index_eq
  have position := numbers.position_lt
  have next := Nat.pow_succ 2 bucket
  constructor
  · rw [left_exponent]
    omega
  · rw [numbers.leftChild_eq word positive, left_position]
    omega
  · rw [left_position]
    omega

theorem right : Numbers maxAllocLog2 (rightChild index) (bucket + 1) node.right := by
  have levels := numbers.levels
  have place := numbers.index_eq
  have position := numbers.position_lt
  have next := Nat.pow_succ 2 bucket
  constructor
  · rw [right_exponent]
    omega
  · rw [numbers.rightChild_eq word positive, right_position]
    omega
  · rw [right_position]
    omega

end Children

section Parent

variable (hasParent : index ≠ 0)

include hasParent

theorem before_eq : wrapSub index 1 = index - 1 := by
  have small := numbers.index_lt word
  exact wrapSub_of_le (by omega) (Nat.one_le_iff_ne_zero.mpr hasParent)

theorem parent : Numbers maxAllocLog2 (parentOf index) (bucket - 1) node.parent := by
  obtain ⟨above, rfl, power⟩ := numbers.bucket_pow hasParent
  have levels := numbers.levels
  have place := numbers.index_eq
  have position := numbers.position_lt
  have positive := Nat.two_pow_pos above
  rw [Nat.add_sub_cancel]
  constructor
  · rw [parent_exponent]
    omega
  · rw [parentOf, numbers.before_eq word hasParent, parent_position]
    omega
  · rw [parent_position]
    omega

theorem sibling : Numbers maxAllocLog2 (siblingIndex index) bucket node.sibling := by
  obtain ⟨above, rfl, power⟩ := numbers.bucket_pow hasParent
  have place := numbers.index_eq
  have position := numbers.position_lt
  have positive := Nat.two_pow_pos above
  have small := numbers.index_lt word
  rcases Nat.mod_two_eq_zero_or_one node.position with even | odd
  · have isEven : Even (index - 1) := by
      rw [Nat.even_iff]
      omega
    constructor
    · exact numbers.levels
    · rw [siblingIndex, numbers.before_eq word hasParent, Nat.xor_one_of_even isEven,
        wrap_of_lt (by omega), sibling_position, if_pos even]
      omega
    · rw [sibling_position, if_pos even]
      omega
  · have isOdd : Odd (index - 1) := by
      rw [Nat.odd_iff]
      omega
    constructor
    · exact numbers.levels
    · rw [siblingIndex, numbers.before_eq word hasParent, Nat.xor_one_of_odd isOdd,
        wrap_of_lt (by omega), sibling_position, if_neg (by omega)]
      omega
    · rw [sibling_position, if_neg (by omega)]
      omega

end Parent

theorem ancestor (steps : Nat) (levels : steps ≤ bucket) :
    Numbers maxAllocLog2 (parentOf^[steps] index) (bucket - steps)
      (TreeNode.parent^[steps] node) := by
  induction steps with
  | zero => exact numbers
  | succ steps induction =>
      have below := induction (by omega)
      have hasParent : parentOf^[steps] index ≠ 0 := by
        have place := below.index_eq
        have power : 2 ^ 1 ≤ 2 ^ (bucket - steps) := Nat.pow_le_pow_right (by decide) (by omega)
        omega
      rw [Function.iterate_succ_apply', Function.iterate_succ_apply', Nat.sub_succ]
      exact below.parent word hasParent

end Word

section Pair

variable {other : TreeNode} {otherIndex otherBucket : Nat}

/-- In one bucket a node and its number determine each other. -/
theorem index_eq_iff (numbers : Numbers maxAllocLog2 index bucket node)
    (others : Numbers maxAllocLog2 otherIndex bucket other) :
    index = otherIndex ↔ node = other := by
  have levels := numbers.levels
  have otherLevels := others.levels
  have place := numbers.index_eq
  have otherPlace := others.index_eq
  rw [ext_iff]
  omega

/-- An ancestor is a node that the other one is part of. -/
theorem isAncestor_iff (outer : Numbers maxAllocLog2 index bucket node)
    (inner : Numbers maxAllocLog2 otherIndex otherBucket other) (word : maxAllocLog2 < 32) :
    IsAncestor index bucket otherIndex otherBucket ↔ other.Within node := by
  have levels := outer.levels
  have otherLevels := inner.levels
  rw [within_iff_ancestor, IsAncestor]
  have order : bucket ≤ otherBucket ↔ other.exponent ≤ node.exponent := by omega
  rw [order]
  apply and_congr_right
  intro smaller
  have steps : node.exponent - other.exponent = otherBucket - bucket := by omega
  have reached := inner.ancestor word (otherBucket - bucket) (Nat.sub_le _ _)
  rw [Nat.sub_sub_self (order.mpr smaller)] at reached
  rw [steps, reached.index_eq_iff outer]

theorem nodeExtent_subset_iff (inner : Numbers maxAllocLog2 index bucket node)
    (outer : Numbers maxAllocLog2 otherIndex otherBucket other) (word : maxAllocLog2 < 32) :
    nodeExtent maxAllocLog2 basePtr index bucket ⊆
      nodeExtent maxAllocLog2 basePtr otherIndex otherBucket ↔ node.Within other := by
  rw [inner.nodeExtent_eq word, outer.nodeExtent_eq word]
  exact Set.Ico_subset_Ico_iff node.start_lt_limit

theorem nodeExtent_disjoint_iff (first : Numbers maxAllocLog2 index bucket node)
    (second : Numbers maxAllocLog2 otherIndex otherBucket other) (word : maxAllocLog2 < 32) :
    Disjoint (nodeExtent maxAllocLog2 basePtr index bucket)
      (nodeExtent maxAllocLog2 basePtr otherIndex otherBucket) ↔ node.Apart other := by
  have nonempty := node.start_lt_limit
  have otherNonempty := other.start_lt_limit
  rw [first.nodeExtent_eq word, second.nodeExtent_eq word, Set.Ico_disjoint_Ico, Apart]
  omega

end Pair

end Numbers

/-! ## The geometry -/

/-- The children of a node are its two halves. -/
structure Halves (maxAllocLog2 basePtr index bucket : Nat) : Prop where
  leftIndex : leftChild index = 2 * index + 1
  rightIndex : rightChild index = 2 * index + 2
  leftNode : IsNode maxAllocLog2 (leftChild index) (bucket + 1)
  rightNode : IsNode maxAllocLog2 (rightChild index) (bucket + 1)
  leftExtent : nodeExtent maxAllocLog2 basePtr (leftChild index) (bucket + 1) =
    Set.Ico (nodeOffset maxAllocLog2 basePtr index bucket)
      (nodeOffset maxAllocLog2 basePtr index bucket + bucketSize maxAllocLog2 bucket / 2)
  rightExtent : nodeExtent maxAllocLog2 basePtr (rightChild index) (bucket + 1) =
    Set.Ico (nodeOffset maxAllocLog2 basePtr index bucket + bucketSize maxAllocLog2 bucket / 2)
      (nodeOffset maxAllocLog2 basePtr index bucket + bucketSize maxAllocLog2 bucket)
  leftParent : parentOf (leftChild index) = index
  rightParent : parentOf (rightChild index) = index

/-- The sibling differs in one bit of the offset and has the same parent. -/
structure Siblings (maxAllocLog2 basePtr index bucket : Nat) : Prop where
  node : IsNode maxAllocLog2 (siblingIndex index) bucket
  involution : siblingIndex (siblingIndex index) = index
  flipped : nodeOffset maxAllocLog2 basePtr (siblingIndex index) bucket =
    nodeOffset maxAllocLog2 basePtr index bucket ^^^ bucketSize maxAllocLog2 bucket
  parent : parentOf (siblingIndex index) = parentOf index

/-- Two nodes are nested or disjoint, and nested means that one is an ancestor
of the other. -/
structure NestedOrDisjoint (maxAllocLog2 basePtr index bucket otherIndex otherBucket : Nat) :
    Prop where
  outer : IsAncestor index bucket otherIndex otherBucket ↔
    nodeExtent maxAllocLog2 basePtr otherIndex otherBucket ⊆
      nodeExtent maxAllocLog2 basePtr index bucket
  inner : IsAncestor otherIndex otherBucket index bucket ↔
    nodeExtent maxAllocLog2 basePtr index bucket ⊆
      nodeExtent maxAllocLog2 basePtr otherIndex otherBucket
  cases : IsAncestor index bucket otherIndex otherBucket ∨
    IsAncestor otherIndex otherBucket index bucket ∨
      Disjoint (nodeExtent maxAllocLog2 basePtr index bucket)
        (nodeExtent maxAllocLog2 basePtr otherIndex otherBucket)

/-- What the arithmetic on node numbers says about the memory of the nodes. -/
structure NodeGeometry (maxAllocLog2 basePtr : Nat) : Prop where
  roundTrip : ∀ index bucket, IsNode maxAllocLog2 index bucket →
    nodeForPtrIn maxAllocLog2 basePtr (ptrForNodeIn maxAllocLog2 basePtr index bucket) bucket =
      index
  children : ∀ index bucket, IsNode maxAllocLog2 index bucket →
    bucket + 1 < bucketCountIn maxAllocLog2 → Halves maxAllocLog2 basePtr index bucket
  siblings : ∀ index bucket, IsNode maxAllocLog2 index bucket → 1 ≤ index →
    Siblings maxAllocLog2 basePtr index bucket
  nested : ∀ index bucket otherIndex otherBucket, IsNode maxAllocLog2 index bucket →
    IsNode maxAllocLog2 otherIndex otherBucket →
    NestedOrDisjoint maxAllocLog2 basePtr index bucket otherIndex otherBucket

section Geometry

variable (isNode : IsNode maxAllocLog2 index bucket) (word : maxAllocLog2 < 32)

include isNode word

theorem halves_of_isNode (below : bucket + 1 < bucketCountIn maxAllocLog2) :
    Halves maxAllocLog2 basePtr index bucket := by
  have numbers := Numbers.of_isNode isNode
  have positive : 0 < maxAllocLog2 - bucket := by
    unfold bucketCountIn minAllocLog2 at below
    omega
  have left := numbers.left word positive
  have right := numbers.right word positive
  constructor
  · exact numbers.leftChild_eq word positive
  · exact numbers.rightChild_eq word positive
  · exact left.isNode below
  · exact right.isNode below
  · rw [left.nodeExtent_eq word, numbers.nodeOffset_eq word, numbers.size_eq,
      left_limit, right_start positive, left_start positive]
  · rw [right.nodeExtent_eq word, numbers.nodeOffset_eq word, numbers.size_eq,
      right_limit positive, right_start positive, limit]
  · have hasParent : leftChild index ≠ 0 := by
      rw [numbers.leftChild_eq word positive]
      omega
    rw [(left.parent word hasParent).index_eq_iff numbers, left_parent positive]
  · have hasParent : rightChild index ≠ 0 := by
      rw [numbers.rightChild_eq word positive]
      omega
    rw [(right.parent word hasParent).index_eq_iff numbers, right_parent positive]

theorem siblings_of_isNode (hasParent : 1 ≤ index) :
    Siblings maxAllocLog2 basePtr index bucket := by
  have numbers := Numbers.of_isNode isNode
  have nonzero : index ≠ 0 := Nat.one_le_iff_ne_zero.mp hasParent
  have sibling := numbers.sibling word nonzero
  have siblingNonzero : siblingIndex index ≠ 0 := by
    obtain ⟨above, rfl, power⟩ := numbers.bucket_pow nonzero
    have place := sibling.index_eq
    have positive := Nat.two_pow_pos above
    omega
  constructor
  · exact sibling.isNode isNode.bucket_lt
  · rw [(sibling.sibling word siblingNonzero).index_eq_iff numbers, sibling_sibling]
  · rw [sibling.nodeOffset_eq word, numbers.nodeOffset_eq word, numbers.size_eq, sibling_start]
  · rw [(sibling.parent word siblingNonzero).index_eq_iff (numbers.parent word nonzero),
      sibling_parent]

theorem nestedOrDisjoint_of_isNode {otherIndex otherBucket : Nat}
    (otherIsNode : IsNode maxAllocLog2 otherIndex otherBucket) :
    NestedOrDisjoint maxAllocLog2 basePtr index bucket otherIndex otherBucket := by
  have numbers := Numbers.of_isNode isNode
  have others := Numbers.of_isNode otherIsNode
  constructor
  · rw [numbers.isAncestor_iff others word, others.nodeExtent_subset_iff numbers word]
  · rw [others.isAncestor_iff numbers word, numbers.nodeExtent_subset_iff others word]
  · rw [numbers.isAncestor_iff others word, others.isAncestor_iff numbers word,
      numbers.nodeExtent_disjoint_iff others word]
    rcases nested_or_apart _ _ with within | contains | apart
    · exact .inr (.inl within)
    · exact .inl contains
    · exact .inr (.inr apart)

end Geometry

/-- The arithmetic on node numbers is right for every value of `MAX_ALLOC_LOG2`
whose `MAX_ALLOC` is a `size_t`, wherever the address range begins. -/
theorem node_geometry (word : maxAllocLog2 < 32) (basePtr : Nat) :
    NodeGeometry maxAllocLog2 basePtr where
  roundTrip index bucket isNode := by
    have numbers := Numbers.of_isNode isNode
    rw [numbers.ptrForNode word, numbers.nodeForPtr word basePtr]
  children _ _ isNode below := halves_of_isNode isNode word below
  siblings _ _ isNode hasParent := siblings_of_isNode isNode word hasParent
  nested _ _ _ _ isNode otherIsNode := nestedOrDisjoint_of_isNode isNode word otherIsNode

theorem node_geometry_two_gigabytes :
    Buddy.maxAllocLog2 < 32 ∧ NodeGeometry Buddy.maxAllocLog2 0 :=
  ⟨by decide, node_geometry (by decide) 0⟩

end MallocLab.Buddy
