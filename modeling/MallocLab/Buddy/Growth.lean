import MallocLab.Buddy.Tracking

/-! # `lower_bucket_limit` -/

namespace MallocLab.Buddy

open Program TreeNode

variable {machine after : State} {tree : Tree} {node : TreeNode} {used : List TreeNode}
  {bucket rounds : Nat}

/-- The links of the right half of the next root lie in the arena. -/
theorem sibling_room : ∀ limit < bucketCount,
    ((root limit).sibling.start + listSize < maxHeap ↔ 7 ≤ limit) := by
  decide

namespace Tracks

variable {marks : List Nat} (tracks : Tracks machine tree marks)

include tracks

/-- The node at `base_ptr` leaves its list for that of the next root. -/
theorem ensures_relabelRoot (positive : 0 < tree.limit) (free : node ∈ tree.free)
    (atBase : node.start = 0) (spans : Spans machine.memStartBrk (tree.limit - 1)) :
    Ensures (relabelRoot tree.limit) machine fun _ after =>
      Tracks after ⟨tree.limit - 1, tree.free.erase node ++ [root (tree.limit - 1)]⟩ marks ∧
        Keeps (Tree.Begins ⟨tree.limit - 1, tree.free.erase node ++ [root (tree.limit - 1)]⟩)
          machine after := by
  have inside : tree.limit - 1 < bucketCount := (Nat.sub_le _ _).trans_lt tracks.lists.limit_lt
  have range := inRange_root inside
  have bucket := bucketOf_root inside
  have isBase : addressOf machine node = machine.memStartBrk := by
    rw [addressOf, atBase, Nat.add_zero]
  have removing := tracks.remove free
  rw [isBase] at removing
  simp only [relabelRoot, ensures_bind, ensures_statics, ensures_setBucketLimit, ensures_bucketAt,
    bucketList_withLimit, tracks.base]
  apply removing.mono
  rintro _ removed ⟨tracked, removedKeeps⟩
  apply (tracked.opened positive (removedKeeps.start ▸ spans)).mono
  rintro _ cleared ⟨opened, clearedKeeps⟩
  have firstKept : Keeps (Tree.Begins
      ⟨tree.limit - 1, tree.free.erase node ++ [root (tree.limit - 1)]⟩) machine removed := by
    apply removedKeeps.mono
    rintro offset ⟨other, member, rfl⟩
    by_cases same : other = node
    · refine ⟨root (tree.limit - 1), List.mem_append_right _ (List.mem_singleton_self _), ?_⟩
      rw [same, atBase, root_start]
    · exact ⟨other, List.mem_append_left _ ((List.mem_erase_of_ne same).mpr member), rfl⟩
  have kept := firstKept.trans (clearedKeeps.mono fun _ => False.elim)
  have reserved : addressOf cleared (root (tree.limit - 1)) + listSize ≤ cleared.memBrk := by
    have before := kept.reserved (tracks.lists.reserved _ free)
    rwa [addressOf, atBase, Nat.add_zero, ← addressOf_root cleared (tree.limit - 1)] at before
  have fresh : ∀ other ∈ tree.free.erase node, other.start ≠ (root (tree.limit - 1)).start := by
    intro other member same
    have nodup := List.Nodup.of_map _ tracks.lists.starts
    have isNode := List.inj_on_of_nodup_map tracks.lists.starts (List.mem_of_mem_erase member) free
      (by rw [same, root_start, atBase])
    exact nodup.not_mem_erase (isNode ▸ member)
  have pushing := opened.push range bucket.ge fresh reserved
  rw [bucket, addressOf_root] at pushing
  rw [opened.base]
  apply pushing.mono
  rintro _ after ⟨pushed, pushedKeeps⟩
  exact ⟨pushed, kept.trans pushedKeeps⟩

/-- The links of the right half of the next root lie in that root. -/
theorem extent_of_reserves {granted : Bool} (positive : 0 < tree.limit)
    (reserves : Reserves ((root tree.limit).sibling.start + listSize) machine granted after) :
    after.memBrk ≤ machine.memStartBrk + extentOf (tree.limit - 1) := by
  have before := tracks.extent
  have wider := extentOf_mono (Nat.sub_le tree.limit 1)
  have limit := tracks.lists.limit_lt
  have doubled := root_size_pred positive limit
  have large : 2 ^ 4 ≤ (root tree.limit).size :=
    Nat.pow_le_pow_right (by decide) (inRange_root limit).large
  rcases reserves.extent with same | ⟨_, taken⟩
  · omega
  · rw [sibling_start, root_start, Nat.zero_xor] at taken
    unfold listSize at taken
    unfold extentOf at *
    omega

/-- The addresses of the links behind the root do not wrap. -/
theorem wrap_sibling (positive : 0 < tree.limit) :
    wrap (addressOf machine (root tree.limit).sibling + listSize) =
        machine.memStartBrk + ((root tree.limit).sibling.start + listSize) ∧
      addressOf machine (root tree.limit).sibling < 2 ^ 32 ∧
      machine.memStartBrk + ((root tree.limit).sibling.start + listSize) + 1 < 2 ^ 32 := by
  have spans := tracks.spans.2 positive
  unfold extentOf at spans
  rw [addressOf, sibling_start, root_start, Nat.zero_xor]
  exact ⟨by rw [wrap_of_lt (by omega), Nat.add_assoc], by omega, by omega⟩

/-- The right half of the next root is put into its list, as far as there is room
for its links. -/
theorem ensures_extendRoot (positive : 0 < tree.limit)
    (fresh : ∀ other ∈ tree.free, other.start ≠ (root tree.limit).sibling.start) :
    Ensures (extendRoot (indexOf (root tree.limit)) tree.limit) machine fun reached after =>
      if (root tree.limit).sibling.start + listSize < maxHeap then
        reached = true ∧ Tracks after tree.extend (markOf (root (tree.limit - 1)) ++ marks) ∧
          Keeps tree.extend.Begins machine after
      else reached = false ∧ Tracks after tree marks ∧ Keeps tree.Begins machine after := by
  have bucket := bucketOf_root tracks.lists.limit_lt
  have hasParent : bucketOf (root tree.limit) ≠ 0 := by
    rw [bucket]
    exact Nat.ne_of_gt positive
  have rootRange := inRange_root tracks.lists.limit_lt
  have range := rootRange.sibling hasParent
  have siblingBucket : bucketOf (root tree.limit).sibling = tree.limit := bucket
  have index : indexOf (root tree.limit) + 1 = indexOf (root tree.limit).sibling := by
    rw [indexOf, indexOf, bucket, siblingBucket, sibling_position, root_position]
    rfl
  have address := tracks.wrap_sibling positive
  have finding := tracks.ensures_ptrForNode range address.2.1
  rw [siblingBucket] at finding
  rw [extendRoot, ensures_bind, index, finding, ensures_bind, address.1]
  apply (ensures_updateMaxPtr tracks.lists.storage address.2.2).mono
  intro granted reserved reserves
  have kept := reserves.same.keeps tree.extend.Begins
  by_cases fits : (root tree.limit).sibling.start + listSize < maxHeap
  · have isGranted : granted = true := reserves.granted.trans (decide_eq_true fits)
    simp only [isGranted, fits, if_true, ensures_bind, ensures_bucketAt, ensures_setBucketLimit,
      bucketList_withLimit, ensures_pure, true_and]
    have addresses := reserves.same.keeps (fun _ => True) |>.addresses
    have backed : addressOf reserved (root tree.limit).sibling + listSize ≤ reserved.memBrk := by
      have below := reserves.reserved fits
      rw [addresses.1, addressOf]
      omega
    -- The heap outgrows the root here, until `bucket_limit` is lowered.
    have pushing := (tracks.lists.carry reserves.same).push range siblingBucket.ge fresh backed
    rw [siblingBucket, addresses.1] at pushing
    apply pushing.mono
    rintro _ pushed ⟨pushedLists, relinks⟩
    have pushedKeeps := relinks.keeps
    have pushedMarked : Marked pushed marks :=
      tracks.marked.congr (by rw [relinks.statics, reserves.bits])
    have grown : pushed.memBrk ≤ pushed.memStartBrk + extentOf (tree.limit - 1) := by
      rw [relinks.brk, relinks.start, reserves.same.start]
      exact tracks.extent_of_reserves positive reserves
    have small := (sibling_room _ tracks.lists.limit_lt).mp fits
    have spans : Spans pushed.memStartBrk (tree.limit - 1) :=
      pushedLists.storage.spans (by omega)
    apply (opened_of_lists pushedLists pushedMarked positive grown spans).mono
    rintro _ cleared ⟨opened, clearedKeeps⟩
    have inside : tree.limit - 1 < bucketCount := (Nat.sub_le _ _).trans_lt tracks.lists.limit_lt
    have next : wrapSub (indexOf (root tree.limit)) 1 / 2 = indexOf (root (tree.limit - 1)) := by
      have nonzero : indexOf (root tree.limit) ≠ 0 := fun zero =>
        hasParent (rootRange.indexOf_eq_zero.mp zero)
      have small := rootRange.indexOf_lt
      have limit := tracks.lists.limit_lt
      rw [wrapSub_of_le (by omega) (by omega), ← root_parent positive
        (by unfold bucketCount minAllocLog2 maxAllocLog2 at limit; omega),
        rootRange.indexOf_parent hasParent]
      rfl
    rw [next]
    apply (opened.flipUnlessTop (inRange_root inside)).mono
    rintro _ after ⟨flipped, flippedKeeps⟩
    have rest := clearedKeeps.trans flippedKeeps
    exact ⟨flipped, (kept.trans pushedKeeps).trans (rest.mono fun _ => False.elim)⟩
  · have isRefused : granted = false := reserves.granted.trans (decide_eq_false fits)
    simp only [isRefused, fits, Bool.false_eq_true, if_false, ensures_pure]
    exact ⟨trivial, tracks.reserves reserves fun small => absurd small fits, reserves.same.keeps _⟩

/-- A round of the loop is decided by the bit above the root. -/
theorem ensures_lowerLoop_above (above : bucket < tree.limit) (goal : Bool → State → Prop) :
    Ensures (lowerLoop bucket (rounds + 1)) machine goal ↔
      if splitBit machine (parentIndex (root tree.limit)) then
        Ensures (extendRoot (indexOf (root tree.limit)) tree.limit) machine fun reached after =>
          Ensures (if reached then lowerLoop bucket rounds else return false) after goal
      else
        Ensures (relabelRoot tree.limit) machine fun _ after =>
          Ensures (lowerLoop bucket rounds) after goal := by
  have range := inRange_root tracks.lists.limit_lt
  have bucketRoot := bucketOf_root tracks.lists.limit_lt
  have nonzero : indexOf (root tree.limit) ≠ 0 := fun zero => by
    have top := range.indexOf_eq_zero.mp zero
    omega
  have small := range.indexOf_lt
  have finding := tracks.ensures_nodeForPtr range
    (tracks.address_lt (by rw [TreeNode.limit, root_start, Nat.zero_add]))
  rw [bucketRoot, addressOf_root] at finding
  rw [lowerLoop, ensures_bind, ensures_statics, tracks.limit, if_pos above, ensures_bind,
    ensures_statics, tracks.base, ensures_bind, finding, ensures_bind,
    ensures_parentIsSplit (Nat.pos_of_ne_zero nonzero) (by omega)]
  change Ensures (if (splitBit machine (parentIndex (root tree.limit))).toNat = 0 then _ else _)
    machine _ ↔ _
  cases splitBit machine (parentIndex (root tree.limit)) with
  | false => exact ensures_bind _ _ _ _
  | true => exact ensures_bind _ _ _ _

theorem ensures_lowerLoop_reached (reached : tree.limit ≤ bucket) (goal : Bool → State → Prop) :
    Ensures (lowerLoop bucket (rounds + 1)) machine goal ↔ goal true machine := by
  rw [lowerLoop, ensures_bind, ensures_statics, tracks.limit, if_neg (Nat.not_lt.mpr reached),
    ensures_pure]

end Tracks

/-- The machine represents a valid tree. -/
structure Represents (machine : State) (tree : Tree) (used : List TreeNode) : Prop where
  tracks : Tracks machine tree tree.restingMarks
  valid : tree.Valid used

namespace Represents

variable (represents : Represents machine tree used)

include represents

theorem freeRange (member : node ∈ tree.free) : InRange node :=
  represents.valid.inRange (List.mem_append_left _ member)

theorem bucketOf_root : bucketOf (root tree.limit) = tree.limit :=
  Buddy.bucketOf_root represents.valid.limit_lt

/-- The bit above the root tells whether the tree is in use. -/
theorem root_bit (positive : 0 < tree.limit) :
    splitBit machine (parentIndex (root tree.limit)) = decide (root tree.limit ∉ tree.free) := by
  have valid := represents.valid
  have range := inRange_root valid.limit_lt
  have hasParent : bucketOf (root tree.limit) ≠ 0 := by
    rw [represents.bucketOf_root]
    omega
  have outside : (root tree.limit).sibling ∉ tree.free := fun member =>
    (valid.within (List.mem_append_left _ member)).not_apart (sibling_apart _).symm
  have below := range.parentIndex_lt
  rw [represents.tracks.marked _ (by omega), Tree.restingMarks, List.count_append,
    count_marksOf (fun _ => represents.freeRange) valid.free_nodup range hasParent, if_neg outside,
    markOf_of_parent hasParent, List.count_singleton_self]
  apply decide_eq_decide.mpr
  by_cases free : root tree.limit ∈ tree.free
  · simp [free]
  · simp [free]

theorem ensures_relabelRoot (positive : 0 < tree.limit) (free : root tree.limit ∈ tree.free)
    (spans : Spans machine.memStartBrk (tree.limit - 1)) :
    Ensures (relabelRoot tree.limit) machine fun _ after =>
      Represents after tree.relabel used ∧ Keeps tree.relabel.Begins machine after := by
  have valid := represents.valid
  have only := (valid.of_root_free free).1
  have shape : tree.relabel = ⟨tree.limit - 1, [root (tree.limit - 1)]⟩ := by
    rw [Tree.relabel, only, List.erase_cons_head]
    rfl
  apply (represents.tracks.ensures_relabelRoot positive free (root_start _) spans).mono
  rintro _ after ⟨atRest, kept⟩
  refine ⟨⟨⟨atRest.lists, ?_, atRest.limit, atRest.extent, atRest.spans⟩,
    valid.relabel positive free⟩, kept⟩
  have unmarked : Marked after [] := by
    rw [← marked_root, ← only]
    exact atRest.marked
  rw [shape]
  exact marked_root.mpr unmarked

theorem ensures_extendRoot (positive : 0 < tree.limit) (inUse : root tree.limit ∉ tree.free) :
    Ensures (extendRoot (indexOf (root tree.limit)) tree.limit) machine fun reached after =>
      if (root tree.limit).sibling.start + listSize < maxHeap then
        reached = true ∧ Represents after tree.extend used ∧ Keeps tree.extend.Begins machine after
      else reached = false ∧ Represents after tree used ∧ Keeps tree.Begins machine after := by
  have valid := represents.valid
  have rootRange := inRange_root valid.limit_lt
  have fresh : ∀ other ∈ tree.free, other.start ≠ (root tree.limit).sibling.start :=
    fun other member => ((valid.within (List.mem_append_left _ member)).apart
      (sibling_apart _)).start_ne
  apply (represents.tracks.ensures_extendRoot positive fresh).mono
  intro reached after extended
  by_cases fits : (root tree.limit).sibling.start + listSize < maxHeap
  · rw [if_pos fits] at extended ⊢
    refine ⟨extended.1, ⟨extended.2.1.perm ?_, valid.extend positive inUse⟩, extended.2.2⟩
    rw [Tree.restingMarks, Tree.restingMarks, Tree.extend, marksOf_push, markOf_sibling rootRange]
    exact List.perm_append_comm
  · rw [if_neg fits] at extended ⊢
    exact ⟨extended.1, ⟨extended.2.1, valid⟩, extended.2.2⟩

omit represents in
/-- Where a node is in use, the root is only enlarged as far as the arena reaches. -/
theorem ensures_lowerLoop (represents : Represents machine tree used) (enough : tree.limit < rounds)
    (spans : used ≠ [] ∨ Spans machine.memStartBrk bucket) :
    Ensures (lowerLoop bucket rounds) machine fun reached after =>
      reached = (Tree.lower maxHeap bucket rounds tree).1 ∧
        Represents after (Tree.lower maxHeap bucket rounds tree).2 used ∧
        Keeps (Tree.lower maxHeap bucket rounds tree).2.Begins machine after := by
  induction rounds generalizing tree machine with
  | zero => omega
  | succ rounds induction =>
      have valid := represents.valid
      have tracks := represents.tracks
      rw [Tree.lower]
      by_cases above : bucket < tree.limit
      · have positive : 0 < tree.limit := by omega
        have shorter : tree.limit - 1 < rounds := by omega
        rw [tracks.ensures_lowerLoop_above above, represents.root_bit positive, if_pos above]
        by_cases free : root tree.limit ∈ tree.free
        · have lowered := Tree.lower_spec maxHeap bucket (valid.relabel positive free) shorter
          have reached := spans.resolve_left (not_not.mpr (valid.of_root_free free).2)
          have next := reached.mono (Nat.le_sub_one_of_lt above)
          rw [if_neg (by simp [free]), if_pos free]
          apply (represents.ensures_relabelRoot positive free next).mono
          rintro _ middle ⟨relabeled, kept⟩
          apply (induction relabeled shorter (kept.start ▸ spans)).mono
          rintro reached after ⟨same, final, laterKept⟩
          exact ⟨same, final, (kept.mono lowered.begins).trans laterKept⟩
        · rw [if_pos (by simp [free]), if_neg free]
          apply (represents.ensures_extendRoot positive free).mono
          intro granted middle extended
          by_cases fits : (root tree.limit).sibling.start + listSize < maxHeap
          · have lowered := Tree.lower_spec maxHeap bucket (valid.extend positive free) shorter
            rw [if_pos fits] at extended
            rw [if_pos fits, extended.1, if_pos rfl]
            apply (induction extended.2.1 shorter (extended.2.2.start ▸ spans)).mono
            rintro reached after ⟨same, final, laterKept⟩
            exact ⟨same, final, (extended.2.2.mono lowered.begins).trans laterKept⟩
          · rw [if_neg fits] at extended
            rw [if_neg fits, extended.1, if_neg Bool.false_ne_true, ensures_pure]
            exact ⟨rfl, extended.2⟩
      · rw [tracks.ensures_lowerLoop_reached (Nat.not_lt.mp above), if_neg above]
        exact ⟨rfl, represents, Keeps.refl _ _⟩

theorem ensures_lowerBucketLimit (spans : used ≠ [] ∨ Spans machine.memStartBrk bucket) :
    Ensures (lowerBucketLimit bucket) machine fun reached after =>
      reached = (tree.lowerTo maxHeap bucket).1 ∧
        Represents after (tree.lowerTo maxHeap bucket).2 used ∧
        Keeps (tree.lowerTo maxHeap bucket).2.Begins machine after := by
  rw [lowerBucketLimit, ensures_bind, ensures_statics, represents.tracks.limit]
  exact ensures_lowerLoop represents (Nat.lt_succ_self _) spans

end Represents

end MallocLab.Buddy
