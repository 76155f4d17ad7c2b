import MallocLab.Buddy.Allocation

/-! # `mm_free` -/

namespace MallocLab.Buddy

open Program TreeNode

variable {machine after : State} {tree : Tree} {node : TreeNode} {used : List TreeNode}
  {request rounds : Nat}

/-- After the flip the bit above a node below the root tells whether its sibling
is in use. -/
theorem Represents.sibling_bit (represents : Represents machine tree (node :: used))
    (below : bucketOf node ≠ tree.limit) (flipped : Marked after (parentIndex node :: tree.restingMarks)) :
    splitBit after (parentIndex node) = decide (node.sibling ∉ tree.free) := by
  have valid := represents.valid
  have member : node ∈ tree.free ++ node :: used := by simp
  have range := valid.inRange member
  have bounds := valid.bucket_bounds member
  have hasParent : bucketOf node ≠ 0 := by omega
  have small := range.parentIndex_lt
  have inUse : node ∉ tree.free := fun isFree =>
    (List.nodup_append.mp valid.tiles.nodup).2.2 node isFree node (by simp) rfl
  rw [flipped _ (by omega), List.count_cons_self, Tree.restingMarks, List.count_append,
    count_rootMark valid.limit_lt range hasParent below,
    count_marksOf (fun other isFree => valid.inRange (List.mem_append_left _ isFree))
      valid.free_nodup range hasParent, if_neg inUse]
  apply decide_eq_decide.mpr
  by_cases free : node.sibling ∈ tree.free
  · simp [free]
  · simp [free]

/-- What the loop of `mm_free` leaves for the last `list_push`: a node whose bit is
flipped already and whose sibling is in use. -/
structure Merged (machine : State) (tree : Tree) (node : TreeNode) (used : List TreeNode)
    (released : Tree) (out : Nat × Nat) (after : State) : Prop where
  finish : ∃ last rest, out = (indexOf last, bucketOf last) ∧ released = rest.push last ∧
    Tracks after rest (markOf last ++ rest.restingMarks) ∧ rest.Valid (last :: used) ∧
    last.sibling ∉ rest.free ∧ addressOf after last + listSize ≤ after.memBrk ∧
    (tree.Begins last.start ∨ last.start = node.start) ∧
    ∀ offset, rest.Begins offset → tree.Begins offset
  kept : Keeps tree.Begins machine after

theorem ensures_mergeLoop (represents : Represents machine tree (node :: used))
    (linked : addressOf machine node + listSize ≤ machine.memBrk)
    (enough : bucketOf node < rounds) :
    Ensures (mergeLoop rounds (indexOf node) (bucketOf node)) machine
      (Merged machine tree node used (Tree.merge rounds node tree)) := by
  induction rounds generalizing machine tree node with
  | zero => omega
  | succ rounds induction =>
      have valid := represents.valid
      have member : node ∈ tree.free ++ node :: used := by simp
      have range := valid.inRange member
      have bounds := valid.bucket_bounds member
      rw [mergeLoop, Tree.merge]
      by_cases top : bucketOf node = 0
      · have alone : node.sibling ∉ tree.free := valid.root_alone (by omega)
        rw [if_neg (not_not.mpr (range.indexOf_eq_zero.mpr top)), ensures_pure,
          if_neg fun joins => alone joins.2]
        refine ⟨⟨node, tree, rfl, rfl, ?_, valid, alone, linked, .inr rfl, fun _ => id⟩, Keeps.refl _ _⟩
        rw [markOf, if_pos top]
        exact represents.tracks
      · have positive : 0 < indexOf node := Nat.pos_of_ne_zero fun zero =>
          top (range.indexOf_eq_zero.mp zero)
        have small := range.indexOf_lt
        rw [if_pos (Nat.ne_of_gt positive), ensures_bind]
        apply (represents.tracks.flip range top).mono
        rintro _ flipped ⟨tracked, kept⟩
        rw [ensures_bind, ensures_parentIsSplit positive (by omega), ensures_bind, ensures_statics,
          tracked.limit]
        have stopped : node.sibling ∉ tree.free ∨ bucketOf node = tree.limit ↔
            (splitBit flipped ((indexOf node - 1) / 2)).toNat ≠ 0 ∨ bucketOf node = tree.limit := by
          by_cases atRoot : bucketOf node = tree.limit
          · simp [atRoot]
          · rw [← parentIndex, represents.sibling_bit atRoot tracked.marked]
            simp [atRoot]
        by_cases stops : node.sibling ∉ tree.free ∨ bucketOf node = tree.limit
        · have alone : node.sibling ∉ tree.free := by
            rcases stops with free | atRoot
            · exact free
            · exact valid.root_alone atRoot
          rw [if_pos (stopped.mp stops), ensures_pure, if_neg fun joins => alone joins.2]
          refine ⟨⟨node, tree, rfl, rfl, ?_, valid, alone, kept.reserved linked, .inr rfl,
            fun _ => id⟩, kept.mono fun _ => False.elim⟩
          rw [markOf_of_parent top]
          exact tracked
        · have free : node.sibling ∈ tree.free := by
            by_contra notFree
            exact stops (.inl notFree)
          have below : bucketOf node ≠ tree.limit := fun atRoot => stops (.inr atRoot)
          have siblingRange := range.sibling top
          have within := valid.limit_le (List.mem_append_left _ free)
          have finding := tracked.ensures_ptrForNode siblingRange (tracked.address_lt within)
          have siblingBucket : bucketOf node.sibling = bucketOf node := rfl
          have parentIs : wrapSub (indexOf node) 1 / 2 = indexOf node.parent := by
            rw [wrapSub_of_le (by omega) positive, range.indexOf_parent top]
            rfl
          have parentBucket : wrapSub (bucketOf node) 1 = bucketOf node.parent := by
            have inside := bounds.2.1
            unfold bucketCount minAllocLog2 maxAllocLog2 at inside
            rw [wrapSub_of_le (by omega) (by omega), (range.bucket_pow top).2]
          rw [siblingBucket] at finding
          rw [if_neg fun stop => stops (stopped.mpr stop), if_pos ⟨below, free⟩, ensures_bind,
            ← range.indexOf_sibling top, finding, ensures_bind, parentIs, parentBucket]
          have removing := tracked.remove free
          rw [kept.addresses.1] at removing ⊢
          apply removing.mono
          rintro _ removed ⟨erased, removedKept⟩
          have allKept := (kept.mono fun _ => False.elim).trans removedKept
          have joined : Represents removed (tree.erase node.sibling) (node.parent :: used) := by
            refine ⟨@Tracks.cancel removed (tree.erase node.sibling) node _ (erased.perm ?_),
              valid.join free⟩
            have marks := restingMarks_erase free
            rw [markOf_sibling range, markOf_of_parent top] at marks
            rw [markOf_of_parent top]
            exact marks.cons _
          have parentLinked : addressOf removed node.parent + listSize ≤ removed.memBrk := by
            rcases node.parent_start with asNode | asSibling
            · rw [addressOf, asNode]
              exact allKept.reserved linked
            · rw [addressOf, asSibling]
              exact allKept.reserved (represents.tracks.lists.reserved _ free)
          have shorter : bucketOf node.parent < rounds := by
            rw [(range.bucket_pow top).2]
            omega
          apply (induction joined parentLinked shorter).mono
          rintro out after ⟨⟨last, rest, isOut, released, final, finalValid, alone, finalLinked, begins,
            included⟩, finalKept⟩
          have narrower : ∀ offset, (tree.erase node.sibling).Begins offset → tree.Begins offset :=
            fun _ => Tree.erase_begins
          refine ⟨⟨last, rest, isOut, released, final, finalValid, alone, finalLinked, ?_,
            fun offset inRest => narrower offset (included offset inRest)⟩,
            allKept.trans (finalKept.mono narrower)⟩
          rcases begins with inTree | isParent
          · exact .inl (narrower _ inTree)
          · rcases node.parent_start with asNode | asSibling
            · exact .inr (isParent.trans asNode)
            · exact .inl ⟨node.sibling, free, (isParent.trans asSibling).symm⟩

/-- `mm_free` of a live block releases the node that its header leads to. -/
theorem ensures_mmFree (represents : Represents machine tree (node :: used))
    (backed : Backed machine (node :: used)) (header : machine.load (addressOf machine node) = request)
    (accepted : wrap (request + headerSize) ≤ maxAlloc) (bucket : firstBucket request = bucketOf node) :
    Ensures (mmFree (addressOf machine node + headerSize)) machine fun _ after =>
      Represents after (tree.release node) used ∧
        Keeps (fun offset => tree.Begins offset ∨ offset = node.start) machine after := by
  have valid := represents.valid
  have member : node ∈ tree.free ++ node :: used := by simp
  have range := valid.inRange member
  have within := valid.limit_le member
  have storage := represents.tracks.lists.storage
  have large : 2 ^ 4 ≤ node.size := Nat.pow_le_pow_right (by decide) range.large
  have inside := backed node List.mem_cons_self
  have linked : addressOf machine node + listSize ≤ machine.memBrk := by
    unfold listSize
    omega
  have started : machine.memStartBrk ≤ addressOf machine node := Nat.le_add_right _ _
  have bounded := storage.bounded
  have arena := storage.arena
  have addressable := storage.addressable
  have heap : maxHeap < 2 ^ 26 := by decide
  have positive := storage.positive
  have header' : wrapSub (addressOf machine node + headerSize) headerSize = addressOf machine node := by
    rw [wrapSub_of_le (by unfold headerSize; omega) (by omega), Nat.add_sub_cancel]
  have notNull : addressOf machine node + headerSize ≠ null := by
    unfold null
    omega
  rw [mmFree, if_neg notNull]
  simp only [header']
  rw [ensures_bind, ensures_get, header, ensures_bind, ensures_bucketForTotal accepted,
    ← firstBucket, bucket, ensures_bind,
    represents.tracks.ensures_nodeForPtr range (represents.tracks.address_lt within), ensures_bind]
  refine ⟨⟨started, by omega⟩, ?_⟩
  apply (ensures_mergeLoop represents linked (Nat.lt_succ_self _)).mono
  rintro out middle ⟨⟨last, rest, rfl, released, tracked, restValid, alone, lastLinked, begins,
    included⟩, kept⟩
  have lastMember : last ∈ rest.free ++ last :: used := by simp
  have lastRange := restValid.inRange lastMember
  have fresh : ∀ other ∈ rest.free, other.start ≠ last.start := by
    intro other otherMem
    exact ((List.pairwise_append.mp restValid.tiles.apart).2.2 other otherMem last (by simp)).start_ne
  have lower := (restValid.bucket_bounds lastMember).1
  have below := tracked.address_lt (restValid.limit_le lastMember)
  simp only [ensures_bind, ensures_bucketAt, tracked.ensures_ptrForNode lastRange below]
  apply (tracked.push lastRange lower fresh lastLinked).mono
  rintro _ after ⟨pushed, pushedKept⟩
  rw [Tree.release, released]
  refine ⟨⟨pushed.perm (restingMarks_push rest last), restValid.give alone⟩, ?_⟩
  apply (kept.mono fun _ => .inl).trans
  apply pushedKept.mono
  rintro offset ⟨other, otherMem, rfl⟩
  rcases List.mem_append.mp otherMem with old | new
  · exact .inl (included _ ⟨other, old, rfl⟩)
  · rw [List.mem_singleton.mp new]
    exact begins

end MallocLab.Buddy
