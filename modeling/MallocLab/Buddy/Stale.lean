import MallocLab.Buddy.Refusal

/-! # Bits that an earlier run left

After `mm_init` the tree is one free node, but `lower_bucket_limit` goes by the
bits. A bit that an earlier run left above a root makes a free tree pass for one
in use.
-/

namespace MallocLab.Buddy

open Program TreeNode

variable {machine after : State} {tree : Tree} {node : TreeNode} {used : List TreeNode}
  {marks : List Nat} {bucket target original request rounds limit ptr : Nat}

/-! ## Searches that meet a node -/

namespace Tracks

variable (tracks : Tracks machine tree marks)

include tracks

theorem ensures_lowerBucketLimit_reached (reached : tree.limit ≤ bucket)
    (goal : Bool → State → Prop) :
    Ensures (lowerBucketLimit bucket) machine goal ↔ goal true machine := by
  rw [lowerBucketLimit, ensures_bind, ensures_statics, tracks.limit,
    tracks.ensures_lowerLoop_reached reached]

/-- An empty list is left as it is. -/
theorem ensures_listPop_none (inside : tree.limit ≤ bucket) (bounded : bucket < bucketCount)
    (last : tree.last? bucket = none) (goal : Nat → State → Prop) :
    Ensures (listPop (bucketList machine bucket)) machine goal ↔ goal null machine := by
  rcases tracks.lists.pop_none inside bounded last with ⟨_, _, returned, rfl, rfl⟩
  constructor
  · exact fun ensured => ensured.of_eq returned
  · exact fun holds => ⟨_, _, returned, holds⟩

/-- The search goes on past the empty lists below the root. -/
theorem ensures_searchLoop_empty (above : tree.limit < bucket) (bounded : bucket < bucketCount)
    (last : tree.last? bucket = none) (goal : Nat → State → Prop) :
    Ensures (searchLoop request original (bucket + 1)) machine goal ↔
      Ensures (searchLoop request original bucket) machine goal := by
  have onward : bucket ≠ tree.limit ∨ bucket = 0 := .inl (Nat.ne_of_gt above)
  rw [searchLoop, ensures_bind, tracks.ensures_lowerBucketLimit_reached above.le,
    if_neg (by simp), ensures_bind, ensures_bucketAt, ensures_bind,
    tracks.ensures_listPop_none above.le bounded last, if_pos rfl, ensures_bind, ensures_statics,
    tracks.limit, if_pos onward]

/-- What `mm_malloc` returns for a block it popped, if it returns. -/
theorem useBlock_result {goal : Nat → State → Prop} (range : InRange node)
    (within : node.limit ≤ (root tree.limit).size) (own : bucketOf node = bucket)
    (ensured : Ensures (useBlock request original bucket (addressOf machine node)) machine goal) :
    ∃ after, goal (if Tree.Fits maxHeap original node then addressOf machine node + headerSize
      else null) after := by
  subst own
  have size : 1 <<< (maxAllocLog2 - bucketOf node) = node.size := by
    rw [Nat.one_shiftLeft, range.exponent_eq]
    rfl
  have address := tracks.wrap_address within (Tree.needed_le original range.large)
  have large : headerSize ≤ node.size :=
    le_trans (by decide) (Nat.pow_le_pow_right (by decide : 0 < 2) range.large)
  have header := (tracks.wrap_address within large).1
  have bytesNeeded : (if bucketOf node < original then node.size / 2 + listSize else node.size) =
      Tree.needed original node := rfl
  rw [useBlock] at ensured
  simp only [size, bytesNeeded] at ensured
  rw [address.1, ensures_bind] at ensured
  rcases (ensures_updateMaxPtr tracks.lists.storage address.2).and ensured with
    ⟨granted, middle, _, reserves, rest⟩
  by_cases fits : Tree.Fits maxHeap original node
  · have isGranted : granted = true := reserves.granted.trans (decide_eq_true fits)
    rw [if_neg (by simp [isGranted])] at rest
    simp only [ensures_bind, ensures_pure] at rest
    rcases rest with ⟨_, _, _, _, _, _, _, _, _, _, final, _, reached⟩
    rw [if_pos fits]
    rw [header, ← Nat.add_assoc] at reached
    exact ⟨final, reached⟩
  · have isRefused : granted = false := reserves.granted.trans (decide_eq_false fits)
    rw [if_pos (by simp [isRefused])] at rest
    simp only [ensures_bind, ensures_pure] at rest
    rcases rest with ⟨_, _, _, _, final, _, reached⟩
    rw [if_neg fits]
    exact ⟨final, reached⟩

/-- A search that first meets a node returns it or nothing. -/
theorem searchLoop_result {goal : Nat → State → Prop} (range : InRange node)
    (within : node.limit ≤ (root tree.limit).size)
    (isFirst : ∀ empty, target < empty → empty ≤ bucket → tree.last? empty = none)
    (last : tree.last? target = some node) (below : target ≤ bucket)
    (inside : tree.limit ≤ target) (bounded : bucket < bucketCount)
    (ensured : Ensures (searchLoop request original (bucket + 1)) machine goal) :
    ∃ after, goal (if Tree.Fits maxHeap original node then addressOf machine node + headerSize
      else null) after := by
  induction bucket, below using Nat.le_induction with
  | base =>
      rw [searchLoop, ensures_bind, tracks.ensures_lowerBucketLimit_reached inside,
        if_neg (by simp), ensures_bind, ensures_bucketAt, ensures_bind] at ensured
      rcases (tracks.pop_some inside bounded last).and ensured with
        ⟨_, popped, _, ⟨rfl, tracked, kept⟩, rest⟩
      have notNull : addressOf machine node ≠ null := by
        have positive := tracks.lists.storage.positive
        unfold addressOf null
        omega
      rw [if_neg notNull, ← kept.addresses.1] at rest
      rw [← kept.addresses.1]
      exact tracked.useBlock_result range within (Tree.mem_of_last? last).2 rest
  | succ bucket below induction =>
      have above : tree.limit < bucket + 1 := by omega
      rw [tracks.ensures_searchLoop_empty above bounded
        (isFirst (bucket + 1) (Nat.lt_succ_of_le below) (le_refl _))] at ensured
      exact induction (fun empty low high => isFirst empty low (high.trans (Nat.le_succ _)))
        (Nat.lt_of_succ_lt bounded) ensured

end Tracks

/-! ## No block at the null pointer -/

section Null

variable (positive : 0 < machine.memStartBrk)

theorem updateMaxPtr_start {newValue : Nat} {goal : Bool → State → Prop}
    (ensured : Ensures (updateMaxPtr newValue) machine goal) :
    ∃ granted after, goal granted after ∧ after.memStartBrk = machine.memStartBrk ∧
      after.statics.buckets = machine.statics.buckets := by
  by_cases beyond : machine.memBrk - 1 < newValue
  · rw [updateMaxPtr_beyond beyond] at ensured
    by_cases refused : toInt (wrapSub newValue (machine.memBrk - 1)) < 0 ∨
        (noted machine).memMaxAddr <
          (noted machine).nextBrk (toInt (wrapSub newValue (machine.memBrk - 1)))
    · rw [memSbrk_refused refused] at ensured
      exact ⟨_, _, ensured, rfl, rfl⟩
    · rw [memSbrk_granted (by omega) (by omega)] at ensured
      exact ⟨_, _, ensured, rfl, rfl⟩
  · rw [updateMaxPtr_reserved (Nat.not_lt.mp beyond)] at ensured
    exact ⟨_, _, ensured, rfl, rfl⟩

theorem flipUnlessTop_start {index : Nat} {goal : Unit → State → Prop}
    (ensured : Ensures (flipUnlessTop index) machine goal) :
    ∃ after, goal () after ∧ after.memStartBrk = machine.memStartBrk := by
  rw [flipUnlessTop] at ensured
  split at ensured
  · simp only [flipParentIsSplit, ensures_bind, ensures_require, ensures_statics,
      ensures_setStatics] at ensured
    exact ⟨_, ensured.2, rfl⟩
  · rw [ensures_pure] at ensured
    exact ⟨_, ensured, rfl⟩

include positive

theorem not_linkable_null (array : 0 < machine.statics.buckets) : ¬Linkable machine null := by
  unfold Linkable Machine.Owns null
  omega

/-- Neither the links nor the header of a block can lie at the null pointer. -/
theorem useBlock_null (array : 0 < machine.statics.buckets) (goal : Nat → State → Prop) :
    ¬Ensures (useBlock request original original null) machine goal := by
  intro ensured
  rw [useBlock, ensures_bind] at ensured
  rcases updateMaxPtr_start ensured with ⟨granted, middle, rest, start, buckets⟩
  cases granted with
  | false =>
      simp only [Bool.false_eq_true, not_false_eq_true, if_true, listPush, ensures_bind,
        ensures_bucketAt, ensures_getPrev, ensures_setPrev] at rest
      exact not_linkable_null (start ▸ positive) (buckets ▸ array) rest.2.1
  | true =>
      simp only [not_true_eq_false, if_false, ensures_bind] at rest
      rcases rest with ⟨index, found, isFound, rest⟩
      have same : found.memStartBrk = middle.memStartBrk := by
        simp only [nodeForPtr] at isFound
        cases isFound
        rfl
      rcases flipUnlessTop_start rest with ⟨flipped, rest, flippedStart⟩
      rw [splitLoop, if_neg (Nat.lt_irrefl _), ensures_pure, ensures_put] at rest
      have owned := rest.1.1
      unfold null at owned
      omega

end Null

/-! ## Lowering by one level -/

/-- What the bit above the root makes of a round of `lower_bucket_limit`, when a
free node lies at `base_ptr`. -/
inductive LowersOnce (machine : State) (tree : Tree) (marks : List Nat) (node : TreeNode) :
    Bool → State → Prop
  | relabeled {after : State} : after.memStartBrk = machine.memStartBrk →
      Tracks after ⟨tree.limit - 1, tree.free.erase node ++ [root (tree.limit - 1)]⟩ marks →
      splitBit machine (parentIndex (root tree.limit)) = false →
      LowersOnce machine tree marks node true after
  | extended {after : State} : after.memStartBrk = machine.memStartBrk →
      Tracks after tree.extend (markOf (root (tree.limit - 1)) ++ marks) →
      (root tree.limit).sibling.start + listSize < maxHeap →
      LowersOnce machine tree marks node true after
  | refused {after : State} : after.memStartBrk = machine.memStartBrk →
      Tracks after tree marks → maxHeap ≤ (root tree.limit).sibling.start + listSize →
      LowersOnce machine tree marks node false after

theorem Tracks.ensures_lowerOnce (tracks : Tracks machine tree marks) (rounds : Nat)
    (small : 6 ≤ tree.limit) (free : node ∈ tree.free) (atBase : node.start = 0)
    (fresh : ∀ other ∈ tree.free, other.start ≠ (root tree.limit).sibling.start) :
    Ensures (lowerLoop (tree.limit - 1) (rounds + 2)) machine
      (LowersOnce machine tree marks node) := by
  have positive : 0 < tree.limit := by omega
  rw [tracks.ensures_lowerLoop_above (Nat.sub_lt positive Nat.one_pos)]
  by_cases set : splitBit machine (parentIndex (root tree.limit)) = true
  · rw [if_pos set]
    apply (tracks.ensures_extendRoot positive fresh).mono
    intro reached after extended
    by_cases fits : (root tree.limit).sibling.start + listSize < maxHeap
    · rw [if_pos fits] at extended
      have lowered : tree.extend.limit ≤ tree.limit - 1 := le_refl _
      rw [extended.1, if_pos rfl, extended.2.1.ensures_lowerLoop_reached lowered]
      exact .extended extended.2.2.start extended.2.1 fits
    · rw [if_neg fits] at extended
      rw [extended.1, if_neg Bool.false_ne_true, ensures_pure]
      exact .refused extended.2.2.start extended.2.1 (Nat.not_lt.mp fits)
  · rw [if_neg set]
    have spans := tracks.lists.storage.spans (Nat.le_sub_one_of_lt small)
    apply (tracks.ensures_relabelRoot positive free atBase spans).mono
    rintro _ after ⟨relabeled, kept⟩
    rw [relabeled.ensures_lowerLoop_reached (le_refl (tree.limit - 1))]
    exact .relabeled kept.start relabeled (Bool.eq_false_of_not_eq_true set)

/-- The bits above the roots depend on the marks only. -/
theorem Tracks.rootBit_eq {other : State} {otherTree : Tree} (tracks : Tracks machine tree marks)
    (others : Tracks other otherTree marks) (inside : limit < bucketCount) :
    splitBit other (parentIndex (root limit)) = splitBit machine (parentIndex (root limit)) := by
  have below := (inRange_root inside).parentIndex_lt
  rw [others.marked _ (by omega), tracks.marked _ (by omega)]

/-- A free tree gets a larger root as long as no bit says otherwise. -/
theorem Tracks.lowerLoop_relabels (tracks : Tracks machine (Tree.whole limit) marks) (rounds : Nat)
    (small : 5 ≤ target) (below : bucket < target) (ordered : target ≤ limit)
    (inside : limit < bucketCount)
    (clear : ∀ other, target < other → other ≤ limit →
      splitBit machine (parentIndex (root other)) = false) :
    ∃ middle, middle.memStartBrk = machine.memStartBrk ∧ Tracks middle (Tree.whole target) marks ∧
      ∀ goal, Ensures (lowerLoop bucket (rounds + (limit - target))) machine goal ↔
        Ensures (lowerLoop bucket rounds) middle goal := by
  induction limit, ordered using Nat.le_induction generalizing machine with
  | base =>
      refine ⟨machine, rfl, tracks, fun goal => ?_⟩
      rw [Nat.sub_self, Nat.add_zero]
  | succ limit ordered induction =>
      have positive : 0 < (Tree.whole (limit + 1)).limit := Nat.succ_pos _
      have above : bucket < (Tree.whole (limit + 1)).limit := below.trans_le (Nat.le_succ_of_le ordered)
      have spans := tracks.lists.storage.spans (small.trans ordered)
      rcases tracks.ensures_relabelRoot positive (List.mem_singleton_self _) (root_start _) spans with
        ⟨_, next, returned, relabeled, kept⟩
      have shape : (⟨(Tree.whole (limit + 1)).limit - 1,
          (Tree.whole (limit + 1)).free.erase (root (limit + 1)) ++
            [root ((Tree.whole (limit + 1)).limit - 1)]⟩ : Tree) = Tree.whole limit := by
        simp [Tree.whole]
      rw [shape] at relabeled
      have later : ∀ other, target < other → other ≤ limit →
          splitBit next (parentIndex (root other)) = false := by
        intro other low high
        rw [tracks.rootBit_eq relabeled (by omega)]
        exact clear other low (high.trans (Nat.le_succ _))
      rcases induction relabeled (Nat.lt_of_succ_lt inside) later with ⟨middle, start, final, same⟩
      refine ⟨middle, start.trans kept.start, final, fun goal => ?_⟩
      have isClear := clear (limit + 1) (Nat.lt_succ_of_le ordered) (le_refl _)
      have longer : rounds + (limit + 1 - target) = rounds + (limit - target) + 1 := by omega
      rw [longer, tracks.ensures_lowerLoop_above above, if_neg (by simp [Tree.whole, isClear])]
      constructor
      · exact fun ensured => (same goal).mp (ensured.of_eq returned)
      · exact fun holds => ⟨_, _, returned, (same goal).mpr holds⟩

/-! ## The first request -/

/-- After `mm_init` the bit above the root of the next bucket is still set, and no
bit above a smaller root is. -/
structure StaleAt (machine : State) (marks : List Nat) (bucket : Nat) : Prop where
  tracks : Tracks machine Tree.initial marks
  inside : bucket + 1 < bucketCount
  set : splitBit machine (parentIndex (root (bucket + 1))) = true
  clear : ∀ other, bucket + 1 < other → other < bucketCount →
    splitBit machine (parentIndex (root other)) = false

/-- The tree that passes for one in use, one level larger. -/
def misgrown (bucket : Nat) : Tree :=
  ⟨bucket, [root (bucket + 1), (root (bucket + 1)).sibling]⟩

theorem extend_whole (bucket : Nat) : (Tree.whole (bucket + 1)).extend = misgrown bucket := rfl

/-- What a request for the bucket gets, and what is left where that is nothing. -/
inductive Misled (start bucket ptr : Nat) (after : State) : Prop
  | stopped (marks : List Nat) : bucket < 6 → ptr = null →
      Tracks after (Tree.whole (bucket + 1)) marks → Misled start bucket ptr after
  | grown (marks : List Nat) : bucket = 6 → ptr = null → Tracks after (misgrown bucket) marks →
      Misled start bucket ptr after
  | elsewhere : 7 ≤ bucket → ptr ≠ start + headerSize → Misled start bucket ptr after

section Misgrown

variable (inside : bucket + 1 < bucketCount)

include inside

theorem misgrown_last : (misgrown bucket).last? (bucket + 1) = some (root (bucket + 1)).sibling := by
  have own := bucketOf_root inside
  have sibling : bucketOf (root (bucket + 1)).sibling = bucket + 1 := own
  simp [misgrown, Tree.last?, Tree.listed, own, sibling]

theorem misgrown_empty {other : Nat} (different : other ≠ bucket + 1) :
    (misgrown bucket).last? other = none := by
  have own := bucketOf_root inside
  have sibling : bucketOf (root (bucket + 1)).sibling = bucket + 1 := own
  simp [misgrown, Tree.last?, Tree.listed, own, sibling, different.symm]

theorem misgrown_fresh : ∀ other ∈ (misgrown bucket).free,
    other.start ≠ (root (misgrown bucket).limit).sibling.start := by
  have power : 2 ^ (31 - (bucket + 1)) < 2 ^ (31 - bucket) := by
    have count : bucketCount = 28 := rfl
    exact Nat.pow_lt_pow_right (by decide) (by omega)
  have positive := Nat.two_pow_pos (31 - bucket)
  intro other member
  rw [misgrown, Tree.sibling_root_start]
  rcases List.mem_cons.mp member with rfl | member
  · rw [root_start]
    exact positive.ne
  · rw [List.mem_singleton.mp member, Tree.sibling_root_start]
    exact power.ne

/-- One level more puts the right half of the larger root into the list. -/
theorem misgrown_extend_last : (misgrown bucket).extend.last? bucket = some (root bucket).sibling := by
  have own : bucketOf (root bucket).sibling = bucket := bucketOf_root (by omega)
  have none := misgrown_empty inside (Nat.ne_of_lt (Nat.lt_succ_self bucket))
  rw [Tree.last?, List.getLast?_eq_none_iff, Tree.listed] at none
  rw [Tree.last?, Tree.listed, Tree.extend, List.filter_append, none,
    List.filter_cons_of_pos (by simp [misgrown, own])]
  rfl

/-- A node that moves on to the next root leaves the list empty. -/
theorem misgrown_moved_empty (positive : 0 < bucket) :
    Tree.last? ⟨bucket - 1, (misgrown bucket).free.erase (root (bucket + 1)) ++ [root (bucket - 1)]⟩
      bucket = none := by
  have sibling : bucketOf (root (bucket + 1)).sibling = bucket + 1 := bucketOf_root inside
  have next : bucketOf (root (bucket - 1)) = bucket - 1 := bucketOf_root (by omega)
  have different : bucket - 1 ≠ bucket := by omega
  simp [misgrown, Tree.last?, Tree.listed, sibling, next, different]

end Misgrown

/-- The first level is put on as if the tree were in use. -/
theorem StaleAt.lowers (stale : StaleAt machine marks bucket) (low : 5 ≤ bucket)
    {goal : Bool → State → Prop} (ensured : Ensures (lowerBucketLimit bucket) machine goal) :
    ∃ after, after.memStartBrk = machine.memStartBrk ∧
      (6 ≤ bucket ∧ (∃ others, Tracks after (misgrown bucket) others) ∧ goal true after ∨
        bucket < 6 ∧ Tracks after (Tree.whole (bucket + 1)) marks ∧ goal false after) := by
  have tracks := stale.tracks
  have inside := stale.inside
  have count : bucketCount = 28 := rfl
  have rounds : Tree.initial.limit + 1 = bucket + 2 + (Tree.initial.limit - (bucket + 1)) := by
    simp only [Tree.initial]
    omega
  rw [lowerBucketLimit, ensures_bind, ensures_statics, tracks.limit, rounds] at ensured
  have isWhole : Tracks machine (Tree.whole Tree.initial.limit) marks := tracks
  have ordered : bucket + 1 ≤ Tree.initial.limit := Nat.le_sub_one_of_lt inside
  have clear : ∀ other, bucket + 1 < other → other ≤ Tree.initial.limit →
      splitBit machine (parentIndex (root other)) = false := fun other above below =>
    stale.clear other above (below.trans_lt (by decide))
  have relabels := isWhole.lowerLoop_relabels (bucket + 2) (Nat.le_succ_of_le low)
    (Nat.lt_succ_self bucket) ordered (by decide) clear
  rcases relabels with ⟨middle, start, whole, same⟩
  rw [same] at ensured
  have fresh : ∀ other ∈ (Tree.whole (bucket + 1)).free,
      other.start ≠ (root (Tree.whole (bucket + 1)).limit).sibling.start := by
    intro other member
    obtain rfl := List.mem_singleton.mp member
    rw [root_start, Tree.whole, Tree.sibling_root_start]
    exact (Nat.two_pow_pos _).ne
  have room := sibling_room (bucket + 1) inside
  have once := whole.ensures_lowerOnce bucket (Nat.succ_le_succ low) (List.mem_singleton_self _)
    (root_start _) fresh
  rcases once.and ensured with ⟨reached, after, _, lowers, rest⟩
  cases lowers with
  | relabeled _ _ clear =>
      change splitBit middle (parentIndex (root (bucket + 1))) = false at clear
      rw [tracks.rootBit_eq whole inside, stale.set] at clear
      cases clear
  | extended same extended fits =>
      rw [extend_whole] at extended
      exact ⟨after, same.trans start, .inl ⟨Nat.le_of_succ_le_succ (room.mp fits), ⟨_, extended⟩, rest⟩⟩
  | refused same refused full =>
      have small : ¬7 ≤ bucket + 1 := fun large => Nat.not_lt.mpr full (room.mpr large)
      exact ⟨after, same.trans start, .inr ⟨by omega, refused, rest⟩⟩

/-- The second level goes by the bit above the new root. If that is clear, the
node at `base_ptr` moves on and leaves no block for the request. -/
theorem Tracks.misgrown_result (tracks : Tracks machine (misgrown bucket) marks) (large : 6 ≤ bucket)
    (inside : bucket + 1 < bucketCount) {goal : Nat → State → Prop}
    (ensured : Ensures (searchLoop request bucket (bucket + 1)) machine goal) :
    ∃ ptr after, goal ptr after ∧ Misled machine.memStartBrk bucket ptr after := by
  have stay : ¬(bucket ≠ (misgrown bucket).limit ∨ bucket = 0) := by
    simp only [misgrown]
    omega
  have storage := tracks.lists.storage
  rw [searchLoop, ensures_bind, tracks.ensures_lowerBucketLimit_reached (le_refl bucket),
    if_neg (by simp), ensures_bind, ensures_bucketAt, ensures_bind,
    tracks.ensures_listPop_none (le_refl bucket) (by omega) (misgrown_empty inside (by omega)),
    if_pos rfl, ensures_bind, ensures_statics, tracks.limit, if_neg stay, ensures_bind,
    lowerBucketLimit, ensures_bind, ensures_statics, tracks.limit] at ensured
  have shorter : (misgrown bucket).limit + 1 = bucket - 1 + 2 := by
    simp only [misgrown]
    omega
  rw [shorter] at ensured
  have once := tracks.ensures_lowerOnce (bucket - 1) large List.mem_cons_self (root_start _)
    (misgrown_fresh inside)
  rcases once.and ensured with ⟨reached, grown, _, lowers, rest⟩
  cases lowers with
  | relabeled start relabeled _ =>
      have array : 0 < grown.statics.buckets := relabeled.lists.storage.array
      have empty := misgrown_moved_empty inside (show 0 < bucket by omega)
      rw [if_neg (by simp), ensures_bind, ensures_bucketAt, ensures_bind,
        relabeled.ensures_listPop_none (show bucket - 1 ≤ bucket by omega) (by omega) empty] at rest
      exact absurd rest (useBlock_null relabeled.lists.storage.positive array goal)
  | extended start extended fits =>
      have own : bucketOf (root bucket).sibling = bucket := bucketOf_root (by omega)
      have hasParent : bucketOf (root bucket) ≠ 0 := by
        rw [bucketOf_root (by omega)]
        omega
      have range : InRange (root bucket).sibling := (inRange_root (by omega)).sibling hasParent
      rw [if_neg (by simp), ensures_bind, ensures_bucketAt, ensures_bind] at rest
      have below : (misgrown bucket).extend.limit ≤ bucket := Nat.sub_le _ _
      have popping := extended.pop_some below (by omega) (misgrown_extend_last inside)
      rcases popping.and rest with ⟨_, popped, _, ⟨rfl, tracked, kept⟩, rest⟩
      rw [← kept.addresses.1] at rest
      have within : (root bucket).sibling.limit ≤ (root (bucket - 1)).size := by
        rw [TreeNode.limit, Tree.sibling_root_start, root_size_pred (by omega) (by omega), two_mul]
        exact le_refl _
      rcases tracked.useBlock_result range within own rest with ⟨after, reached⟩
      refine ⟨_, after, reached, .elsewhere ((sibling_room bucket (by omega)).mp fits) ?_⟩
      have away : 0 < (root bucket).sibling.start := by
        rw [Tree.sibling_root_start]
        exact Nat.two_pow_pos _
      have arena := storage.positive
      have same := kept.start.trans start
      split
      · unfold addressOf
        omega
      · unfold null
        omega
  | refused start refused full =>
      have small : ¬7 ≤ bucket := fun room =>
        Nat.not_lt.mpr full ((sibling_room bucket (by omega)).mpr room)
      rw [if_pos (by simp), ensures_pure] at rest
      exact ⟨null, grown, rest, .grown marks (by omega) rfl refused⟩

/-- A request whose root has its bit set. -/
theorem StaleAt.searchLoop_result (stale : StaleAt machine marks bucket) (low : 5 ≤ bucket)
    {goal : Nat → State → Prop} (ensured : Ensures (searchLoop request bucket (bucket + 1)) machine goal) :
    ∃ ptr after, goal ptr after ∧ Misled machine.memStartBrk bucket ptr after := by
  rw [searchLoop, ensures_bind] at ensured
  rcases stale.lowers low ensured with
    ⟨middle, start, ⟨large, ⟨others, tracks⟩, rest⟩ | ⟨small, whole, rest⟩⟩
  · rw [← start]
    apply tracks.misgrown_result large stale.inside
    rw [searchLoop, ensures_bind, tracks.ensures_lowerBucketLimit_reached (le_refl bucket)]
    exact rest
  · rw [if_pos (by simp), ensures_pure] at rest
    exact ⟨null, middle, rest, .stopped marks small rfl whole⟩

/-! ## Pointers that differ -/

/-- The first request after `mm_init` for the largest size of the bucket. -/
theorem StaleAt.mmMalloc_result (stale : StaleAt machine marks bucket) (low : 5 ≤ bucket)
    {after : State} (returned : mmMalloc (largestRequest bucket) machine = some (ptr, after)) :
    Misled machine.memStartBrk bucket ptr after := by
  have inside : bucket < bucketCount := Nat.lt_of_succ_lt stale.inside
  have ensured : Ensures (mmMalloc (largestRequest bucket)) machine fun value final =>
      value = ptr ∧ final = after := ⟨ptr, after, returned, rfl, rfl⟩
  rw [stale.tracks.ensures_mmMalloc_search (largestRequest_accepted inside).2,
    (largestRequest_spec inside).2] at ensured
  rcases stale.searchLoop_result low ensured with ⟨_, _, ⟨rfl, rfl⟩, misled⟩
  exact misled

/-- A small request that first meets the node. -/
theorem Tracks.mmMalloc_zero (tracks : Tracks machine tree marks) {after : State}
    (range : InRange node) (within : node.limit ≤ (root tree.limit).size)
    (inside : tree.limit ≤ bucketOf node) (last : tree.last? (bucketOf node) = some node)
    (isFirst : ∀ empty, bucketOf node < empty → empty ≤ 27 → tree.last? empty = none)
    (returned : mmMalloc 0 machine = some (ptr, after)) :
    ptr = if Tree.Fits maxHeap 27 node then addressOf machine node + headerSize else null := by
  have bounded : (27 : Nat) < bucketCount := by decide
  have bucket : firstBucket 0 = 27 := by decide
  have ensured : Ensures (mmMalloc 0) machine fun value _ => value = ptr :=
    ⟨ptr, after, returned, rfl⟩
  rw [tracks.ensures_mmMalloc_search (by decide), bucket] at ensured
  rcases tracks.searchLoop_result range within isFirst last
    (Nat.le_of_lt_succ range.bucket_lt) inside bounded ensured with ⟨_, same⟩
  exact same.symm

/-- The tree whose root could not be enlarged still has room. -/
theorem Tracks.mmMalloc_zero_whole (tracks : Tracks machine (Tree.whole 6) marks) {after : State}
    (returned : mmMalloc 0 machine = some (ptr, after)) : ptr ≠ null := by
  have inside : (6 : Nat) < bucketCount := by decide
  have own := bucketOf_root inside
  have isFirst : ∀ empty, bucketOf (root 6) < empty → empty ≤ 27 →
      (Tree.whole 6).last? empty = none := by
    intro empty low _
    rw [own] at low
    rw [Tree.last?_whole inside, if_neg (Nat.ne_of_gt low)]
  have last : (Tree.whole 6).last? (bucketOf (root 6)) = some (root 6) := by
    rw [own, Tree.last?_whole inside, if_pos rfl]
  rw [tracks.mmMalloc_zero (inRange_root inside) (by decide) own.ge last isFirst returned,
    if_pos (by decide)]
  unfold null headerSize
  omega

/-- The larger tree offers its right half first, which lies beyond the arena. -/
theorem Tracks.mmMalloc_zero_misgrown (tracks : Tracks machine (misgrown 6) marks) {after : State}
    (returned : mmMalloc 0 machine = some (ptr, after)) : ptr = null := by
  have inside : (6 : Nat) + 1 < bucketCount := by decide
  have own : bucketOf (root 7).sibling = 7 := by decide
  have range : InRange (root 7).sibling := (inRange_root inside).sibling (by decide)
  have isFirst : ∀ empty, bucketOf (root 7).sibling < empty → empty ≤ 27 →
      (misgrown 6).last? empty = none := by
    intro empty low _
    exact misgrown_empty inside (by omega)
  have last : (misgrown 6).last? (bucketOf (root 7).sibling) = some (root 7).sibling := by
    rw [own]
    exact misgrown_last inside
  rw [tracks.mmMalloc_zero range (by decide) (by decide) last isFirst returned,
    if_neg (by decide)]

end MallocLab.Buddy
