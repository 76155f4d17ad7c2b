import MallocLab.Buddy.Contract

/-! # The tree behind the bits

The state of a node is not stored. A node is UNUSED when all of its bytes are
free, and from this the free lists and the live blocks determine every bit of
`node_is_split`.
-/

namespace MallocLab.Buddy

open Program TreeNode

variable {machine : State} {tree : Tree} {node : TreeNode} {used : List TreeNode}
  {client : Client Statics} {blocks : List (TreeNode × Nat)} {block : TreeNode × Nat}
  {bit : Nat}

/-- The state UNUSED of a node. -/
def Unused (free : List TreeNode) (node : TreeNode) : Prop := Covered free node

namespace Tree.Valid

variable (valid : Tree.Valid tree used)

include valid

theorem unused_iff : Unused tree.free node ↔ ∃ other ∈ tree.free, node.Within other :=
  covered_iff valid.merged

/-- A node is UNUSED when it is free itself or part of something UNUSED. -/
theorem unused_parent : Unused tree.free node ↔ node ∈ tree.free ∨ Unused tree.free node.parent := by
  constructor
  · intro unused
    rcases valid.unused_iff.mp unused with ⟨other, free, within⟩
    by_cases same : node = other
    · exact .inl (same ▸ free)
    · apply Or.inr
      apply Covered.of_within free
      apply within_of_mem ((within_parent node).mem node.mem_start) (within.mem node.mem_start)
      by_contra small
      rw [parent_exponent] at small
      exact same (within.eq (by omega))
  · rintro (free | unused)
    · exact Covered.of_within free (Within.refl node)
    · exact Covered.mono unused (within_parent node)

/-- What is part of something UNUSED is not in a list. -/
theorem not_free_of_parent (unused : Unused tree.free node.parent) : node ∉ tree.free := by
  intro free
  rcases valid.unused_iff.mp unused with ⟨other, otherFree, within⟩
  have inside := (within_parent node).trans within
  have same : node = other :=
    valid.tiles.eq_of_mem (List.mem_append_left _ free) (List.mem_append_left _ otherFree)
      node.mem_start (inside.mem node.mem_start)
  have smaller := within.exponent_le
  rw [parent_exponent, same] at smaller
  omega

theorem unused_root : Unused tree.free (root tree.limit) ↔ root tree.limit ∈ tree.free := by
  rw [valid.unused_iff]
  constructor
  · rintro ⟨other, free, within⟩
    have inside := valid.within (List.mem_append_left _ free)
    rwa [within.eq inside.exponent_le]
  · exact fun free => ⟨_, free, Within.refl _⟩

/-- Of two halves exactly one is UNUSED when exactly one is in a list. -/
theorem unused_xor : Xor (Unused tree.free node) (Unused tree.free node.sibling) ↔
    Xor (node ∈ tree.free) (node.sibling ∈ tree.free) := by
  have first := @unused_parent _ node _ valid
  have second := @unused_parent _ node.sibling _ valid
  have notFirst := @not_free_of_parent _ node _ valid
  have notSecond := @not_free_of_parent _ node.sibling _ valid
  rw [sibling_parent] at second notSecond
  unfold Xor
  tauto

end Tree.Valid

namespace Represents

variable (represents : Represents machine tree used)

include represents

/-- The bit of a node tells whether exactly one of its halves is UNUSED. -/
theorem split_bit (within : node.Within (root tree.limit)) (large : minAllocLog2 < node.exponent) :
    splitBit machine (indexOf node) = true ↔
      Xor (Unused tree.free node.left) (Unused tree.free node.right) := by
  have valid := represents.valid
  have small := within.exponent_le
  have inside := within.2.trans (inRange_root valid.limit_lt).inside
  rw [root_exponent] at small
  have range : InRange node := ⟨large.le, small.trans (Nat.sub_le _ _), inside⟩
  have leftRange := range.left large
  have leftBucket := range.bucketOf_left large
  have hasParent : bucketOf node.left ≠ 0 := by omega
  have below : bucketOf node.left ≠ tree.limit := by
    have limit := valid.limit_lt
    unfold bucketOf bucketCount maxAllocLog2 minAllocLog2 at *
    omega
  have index : parentIndex node.left = indexOf node := by
    rw [parentIndex, range.indexOf_left large, Nat.add_sub_cancel, Nat.mul_div_cancel _ (by decide)]
  have bound := leftRange.parentIndex_lt
  rw [← left_sibling, valid.unused_xor, ← index, represents.tracks.marked _ (by omega),
    Tree.restingMarks, List.count_append, count_rootMark valid.limit_lt leftRange hasParent below,
    count_marksOf (fun _ => represents.freeRange) valid.free_nodup leftRange hasParent,
    decide_eq_true_iff]
  by_cases first : node.left ∈ tree.free <;> by_cases second : node.left.sibling ∈ tree.free <;>
    simp [first, second]

/-- No other bit is set. -/
theorem other_bit (inside : bit < 2 ^ 27)
    (noNode : ∀ node : TreeNode, node.Within (root tree.limit) → minAllocLog2 < node.exponent →
      bit ≠ indexOf node)
    (notAbove : tree.limit ≠ 0 → bit ≠ parentIndex (root tree.limit)) :
    splitBit machine bit = false := by
  have valid := represents.valid
  have rootMark : bit ∉ markOf (root tree.limit) := by
    rw [markOf, represents.bucketOf_root]
    split
    · exact List.not_mem_nil
    · rename_i positive
      simpa using notAbove positive
  have freeMarks : bit ∉ marksOf tree.free := by
    intro marked
    rcases List.mem_flatMap.mp marked with ⟨node, free, marks⟩
    have within := valid.within (List.mem_append_left _ free)
    have range := represents.freeRange free
    by_cases top : bucketOf node = 0
    · rw [markOf, if_pos top] at marks
      cases marks
    · rw [markOf_of_parent top, List.mem_singleton] at marks
      by_cases isRoot : node = root tree.limit
      · apply rootMark
        rwa [← isRoot, markOf_of_parent top, List.mem_singleton]
      · have half := within.half isRoot
        apply noNode node.parent _ (Nat.lt_succ_of_le range.large)
        · rw [marks, range.indexOf_parent top]
        · have large := within.exponent_le
          apply within_of_mem ((within_parent node).mem node.mem_start) (within.mem node.mem_start)
          by_contra small
          rw [parent_exponent] at small
          exact isRoot (within.eq (by omega))
  rw [represents.tracks.marked _ inside, Tree.restingMarks, List.count_append,
    List.count_eq_zero.mpr freeMarks, List.count_eq_zero.mpr rootMark]
  rfl

end Represents

/-- The node of a live block, as `mm_free` finds it. -/
def nodeOf (machine : State) (spot : Nat × Nat) : TreeNode :=
  ⟨maxAllocLog2 - Tree.bucketFor spot.2,
    (spot.1 - headerSize - machine.statics.basePtr) / extent spot.2⟩

theorem Serves.nodeOf_spot (serves : Serves client tree blocks) (member : block ∈ blocks) :
    nodeOf client.machine (spot client.machine block) = block.1 := by
  have extent := serves.extent_eq member
  have exponent : maxAllocLog2 - Tree.bucketFor block.2 = block.1.exponent :=
    Nat.pow_right_injective (le_refl 2) extent
  have offset : addressOf client.machine block.1 + headerSize - headerSize -
      client.machine.statics.basePtr = block.1.start := by
    rw [Nat.add_sub_cancel, serves.represents.tracks.lists.storage.base, addressOf,
      Nat.add_sub_cancel_left]
  rw [ext_iff]
  refine ⟨exponent, ?_⟩
  change (addressOf client.machine block.1 + headerSize - headerSize -
      client.machine.statics.basePtr) / Buddy.extent block.2 = _
  rw [offset, extent, TreeNode.start, Nat.mul_div_cancel _ block.1.size_pos]

/-- The representation invariant. The root and the lists are those of the static
variables, the nodes in use those of the live blocks. -/
structure TreeInvariant (client : Client Statics) (free : List TreeNode) : Prop where
  base : client.machine.statics.basePtr = client.machine.memStartBrk
  limit_lt : client.machine.statics.bucketLimit < bucketCount
  lists : Rings client.machine.pred client.machine.succ
    (fun bucket => client.machine.statics.bucketLimit ≤ bucket ∧ bucket < bucketCount)
    (bucketList client.machine) fun bucket =>
      (free.filter fun node => bucketOf node = bucket).map (addressOf client.machine)
  listed : ∀ node ∈ free, client.machine.statics.bucketLimit ≤ bucketOf node ∧
    bucketOf node < bucketCount
  once : free.Nodup
  spots : ∀ spot ∈ client.live,
    addressOf client.machine (nodeOf client.machine spot) + headerSize = spot.1
  tiles : Tiles (root client.machine.statics.bucketLimit)
    (free ++ client.live.map (nodeOf client.machine))
  split : ∀ node : TreeNode, node.Within (root client.machine.statics.bucketLimit) →
    minAllocLog2 < node.exponent →
    (splitBit client.machine (indexOf node) = true ↔
      Xor (Unused free node.left) (Unused free node.right))
  above : client.machine.statics.bucketLimit ≠ 0 →
    (splitBit client.machine (parentIndex (root client.machine.statics.bucketLimit)) = true ↔
      ¬Unused free (root client.machine.statics.bucketLimit))
  others : ∀ bit < 8 * splitBytes,
    (∀ node : TreeNode, node.Within (root client.machine.statics.bucketLimit) →
      minAllocLog2 < node.exponent → bit ≠ indexOf node) →
    (client.machine.statics.bucketLimit ≠ 0 →
      bit ≠ parentIndex (root client.machine.statics.bucketLimit)) →
    splitBit client.machine bit = false
  buddies : ∀ node ∈ free, node.sibling ∉ free
  released : client.live = [] → free = [root client.machine.statics.bucketLimit] ∧
    ∀ bit < 8 * splitBytes, splitBit client.machine bit = false

theorem Serves.treeInvariant (serves : Serves client tree blocks) :
    TreeInvariant client tree.free := by
  have represents := serves.represents
  have valid := represents.valid
  have limit : client.machine.statics.bucketLimit = tree.limit := represents.tracks.limit
  have nodes : client.live.map (nodeOf client.machine) = blocks.map Prod.fst := by
    rw [serves.live, List.map_map]
    exact List.map_congr_left fun block member => serves.nodeOf_spot member
  have whole : 2 ^ 27 = 8 * splitBytes := by decide
  refine ⟨represents.tracks.lists.storage.base, ?_, ?_, ?_, valid.free_nodup, ?_, ?_, ?_, ?_, ?_,
    valid.merged, ?_⟩
  · rw [limit]
    exact valid.limit_lt
  · rw [limit]
    exact represents.tracks.lists.rings
  · intro node free
    have bounds := valid.bucket_bounds (List.mem_append_left _ free)
    rw [limit]
    exact ⟨bounds.1, bounds.2.1⟩
  · intro live isLive
    rw [serves.live] at isLive
    rcases List.mem_map.mp isLive with ⟨block, member, rfl⟩
    rw [serves.nodeOf_spot member]
    rfl
  · rw [limit, nodes]
    exact valid.tiles
  · rw [limit]
    exact fun node => represents.split_bit
  · rw [limit]
    intro positive
    rw [represents.root_bit (Nat.pos_of_ne_zero positive), decide_eq_true_iff, valid.unused_root]
  · rw [limit, ← whole]
    exact fun bit => represents.other_bit
  · intro none
    have noBlocks : blocks.map Prod.fst = [] := by rw [← nodes, none, List.map_nil]
    have covered : Unused tree.free (root tree.limit) := by
      intro point inside
      have tiled := (valid.tiles.covers point).mp inside
      rwa [noBlocks, List.append_nil] at tiled
    have only := (valid.of_root_free (valid.unused_root.mp covered)).1
    have marked := represents.tracks.marked
    have shape : tree = ⟨tree.limit, [root tree.limit]⟩ := by rw [← only]
    rw [shape, marked_root] at marked
    rw [limit, ← whole]
    exact ⟨only, marked⟩

/-- In every state of a run the lists, the live blocks and the bits describe one
tree. -/
theorem tree_invariant (reachable : Reachable client) : ∃ free, TreeInvariant client free := by
  rcases reachable.serves with ⟨tree, blocks, serves⟩
  exact ⟨tree.free, serves.treeInvariant⟩

theorem tree_invariant_two_sizes : ∃ (client : Client Statics) (free : _),
    client.live = [(4136, 24), (4104, 8)] ∧ client.machine.statics.bucketLimit = 25 ∧
      TreeInvariant client free := by
  rcases reachable_twoSizes with ⟨client, reachable, live, serves⟩
  rcases tree_invariant reachable with ⟨free, isTree⟩
  exact ⟨client, free, live, serves.represents.tracks.limit, isTree⟩

end MallocLab.Buddy
