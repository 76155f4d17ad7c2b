import MallocLab.Buddy.Growth
import MallocLab.Buddy.Offers

/-! # `mm_malloc` -/

namespace MallocLab.Buddy

open Program TreeNode

variable {machine after : State} {tree : Tree} {node : TreeNode} {used : List TreeNode}
  {marks : List Nat} {bucket original request rounds count : Nat}

/-- The byte lies in one of the nodes. -/
def InNodes (machine : State) (nodes : List TreeNode) (byte : Nat) : Prop :=
  ∃ node ∈ nodes, addressOf machine node ≤ byte ∧ byte < addressOf machine node + node.size

/-- All bytes of the nodes belong to the heap. -/
def Backed (machine : State) (nodes : List TreeNode) : Prop :=
  ∀ node ∈ nodes, addressOf machine node + node.size ≤ machine.memBrk

theorem Keeps.backed {zone : Nat → Prop} (kept : Keeps zone machine after)
    (backed : Backed machine used) : Backed after used := by
  intro node member
  rw [kept.addresses.1]
  exact (backed node member).trans kept.brk

theorem Tracks.cancel (tracks : Tracks machine tree (markOf node ++ (markOf node ++ marks))) :
    Tracks machine tree marks := by
  refine ⟨tracks.lists, ?_, tracks.limit, tracks.extent, tracks.spans⟩
  have marked := tracks.marked
  by_cases top : bucketOf node = 0
  · rwa [markOf, if_pos top] at marked
  · rw [markOf_of_parent top] at marked
    exact marked.cancel

theorem restingMarks_erase (member : node ∈ tree.free) :
    tree.restingMarks.Perm (markOf node ++ (tree.erase node).restingMarks) := by
  have moved := marksOf_perm (List.perm_cons_erase member)
  rw [marksOf_cons] at moved
  rw [Tree.restingMarks, Tree.restingMarks, ← List.append_assoc]
  exact moved.append_right _

theorem restingMarks_push (tree : Tree) (node : TreeNode) :
    (markOf node ++ tree.restingMarks).Perm (tree.push node).restingMarks := by
  rw [Tree.restingMarks, Tree.restingMarks, Tree.push, marksOf_push, ← List.append_assoc]
  exact List.perm_append_comm.append_right _

namespace Represents

/-- Bytes inside used nodes do not matter. -/
theorem frame (represents : Represents machine tree used)
    (start : after.memStartBrk = machine.memStartBrk) (brk : after.memBrk = machine.memBrk)
    (max : after.memMaxAddr = machine.memMaxAddr) (statics : after.statics = machine.statics)
    (backed : Backed machine used)
    (outside : ∀ byte, ¬InNodes machine used byte → after.bytes byte = machine.bytes byte) :
    Represents after tree used := by
  have lists := represents.tracks.lists
  have valid := represents.valid
  refine ⟨⟨lists.frame start brk max statics ?_, represents.tracks.marked.congr (by rw [statics]), ?_,
    ?_, start ▸ represents.tracks.spans⟩, valid⟩
  · rintro address ⟨bucket, active, member⟩ byte low high
    apply outside
    rintro ⟨node, inUse, first, last⟩
    have inside := backed node inUse
    have bounded := lists.storage.bounded
    have apart := lists.storage.apart
    have range := valid.inRange (List.mem_append_right _ inUse)
    rcases List.mem_cons.mp member with rfl | isMember
    · have bucketInside := active.2
      unfold bucketList addressOf listSize at *
      omega
    · rcases List.mem_map.mp isMember with ⟨free, listed, rfl⟩
      have isFree := (List.mem_filter.mp listed).1
      have freeRange := valid.inRange (List.mem_append_left _ isFree)
      have large : 2 ^ 4 ≤ free.size := Nat.pow_le_pow_right (by decide) freeRange.large
      have different := (List.pairwise_append.mp valid.tiles.apart).2.2 free isFree node inUse
      unfold TreeNode.Apart TreeNode.limit at different
      unfold addressOf at *
      omega
  · rw [statics, represents.tracks.limit]
  · rw [brk, start]
    exact represents.tracks.extent

theorem ensures_splitParent (represents : Represents machine tree (node :: used))
    (large : minAllocLog2 < node.exponent)
    (backed : addressOf machine node.right + listSize ≤ machine.memBrk) :
    Ensures (splitParent (indexOf node.left) (bucketOf node.left)) machine fun _ after =>
      Represents after (tree.push node.right) (node.left :: used) ∧
        Keeps (tree.push node.right).Begins machine after := by
  have valid := represents.valid
  have positive : 0 < node.exponent := by omega
  have member : node ∈ tree.free ++ node :: used := by simp
  have range := valid.inRange member
  have leftRange := range.left large
  have rightRange := range.right large
  have leftBucket := range.bucketOf_left large
  have sameBucket : bucketOf node.right = bucketOf node.left := rfl
  have small := leftRange.indexOf_lt
  have rightIndex : wrap (indexOf node.left + 1) = indexOf node.right := by
    rw [wrap_of_lt (by omega), indexOf, indexOf, sameBucket, left_position, right_position]
    omega
  have hasParent : bucketOf node.left ≠ 0 := by omega
  have inside : tree.limit ≤ bucketOf node.right := by
    have bounds := (valid.bucket_bounds member).1
    omega
  have fresh : ∀ other ∈ tree.free, other.start ≠ node.right.start := by
    intro other otherMem
    have apart := (List.pairwise_append.mp valid.tiles.apart).2.2 other otherMem node (by simp)
    exact ((right_within positive).apart apart.symm).symm.start_ne
  rw [splitParent, ensures_bind]
  apply (represents.tracks.flip leftRange hasParent).mono
  rintro _ flipped ⟨flippedTracks, flippedKeeps⟩
  have within := (right_within positive).2.trans (valid.limit_le member)
  have finding := flippedTracks.ensures_ptrForNode rightRange (flippedTracks.address_lt within)
  rw [sameBucket] at finding
  rw [ensures_bind, ensures_bucketAt, rightIndex, ensures_bind, finding, ← sameBucket]
  apply (flippedTracks.push rightRange inside fresh (flippedKeeps.reserved backed)).mono
  rintro _ after ⟨pushed, pushedKeeps⟩
  refine ⟨⟨pushed.perm ?_, valid.split large⟩,
    (flippedKeeps.mono fun _ => False.elim).trans pushedKeeps⟩
  have mark : markOf node.right = [parentIndex node.left] := by
    rw [← left_sibling, markOf_sibling leftRange, markOf_of_parent hasParent]
  have marks := restingMarks_push tree node.right
  rw [mark] at marks
  exact marks

theorem ensures_splitLoop (represents : Represents machine tree (node :: used))
    (enough : count + minAllocLog2 ≤ node.exponent) (fuel : count < rounds)
    (backed : 0 < count → addressOf machine node + (node.size / 2 + listSize) ≤ machine.memBrk) :
    Ensures (splitLoop (bucketOf node + count) rounds (indexOf node) (bucketOf node)) machine
      fun _ after =>
        Represents after ⟨tree.limit, tree.free ++ Tree.spare count node⟩
          (Tree.leftmost count node :: used) ∧
        Keeps (Tree.Begins ⟨tree.limit, tree.free ++ Tree.spare count node⟩) machine after := by
  induction count generalizing node tree machine rounds with
  | zero =>
      cases rounds with
      | zero => omega
      | succ rounds =>
          rw [splitLoop, Nat.add_zero, if_neg (Nat.lt_irrefl _), ensures_pure, Tree.spare,
            List.append_nil]
          exact ⟨represents, Keeps.refl _ _⟩
  | succ count induction =>
      cases rounds with
      | zero => omega
      | succ rounds =>
          have member : node ∈ tree.free ++ node :: used := by simp
          have range := represents.valid.inRange member
          have large : minAllocLog2 < node.exponent := by omega
          have positive : 0 < node.exponent := by omega
          have leftBucket := range.bucketOf_left large
          have leftIndex := range.indexOf_left large
          have small := (range.left large).indexOf_lt
          have backedRight : addressOf machine node.right + listSize ≤ machine.memBrk := by
            rw [addressOf, right_start positive, Nat.add_assoc, Nat.add_assoc, ← Nat.add_assoc]
            exact backed (Nat.succ_pos _)
          rw [splitLoop, if_pos (by omega), ← leftIndex, wrap_of_lt (by omega), ← leftBucket,
            ensures_bind]
          apply (ensures_splitParent represents large backedRight).mono
          rintro _ middle ⟨split, kept⟩
          have backedLeft : 0 < count →
              addressOf middle node.left + (node.left.size / 2 + listSize) ≤ middle.memBrk := by
            intro _
            have before := backed (Nat.succ_pos _)
            have brk := kept.brk
            have same : addressOf machine node.left = addressOf machine node := by
              rw [addressOf, left_start positive]
              rfl
            rw [kept.addresses.1, same, left_size positive]
            omega
          have rest := induction split (by rw [left_exponent]; omega) (Nat.lt_of_succ_lt_succ fuel)
            backedLeft
          rw [leftBucket, Nat.add_assoc, Nat.add_comm 1 count] at rest
          rw [leftBucket]
          apply rest.mono
          rintro _ after ⟨final, finalKeeps⟩
          rw [Tree.push, List.append_assoc] at final finalKeeps
          refine ⟨final, (kept.mono ?_).trans finalKeeps⟩
          rintro offset ⟨other, otherMem, begins⟩
          refine ⟨other, ?_, begins⟩
          rcases List.mem_append.mp otherMem with old | new
          · exact List.mem_append_left _ old
          · rw [List.mem_singleton.mp new]
            exact List.mem_append_right _ List.mem_cons_self

end Represents

/-- What `mm_malloc` does, where the tree tells which node it found. -/
structure Allocated (machine : State) (result : Option TreeNode × Tree) (used : List TreeNode)
    (request ptr : Nat) (after : State) : Prop where
  represents : Represents after result.2 (result.1.toList ++ used)
  failed : result.1 = none → ptr = null
  found : ∀ node ∈ result.1, ptr = addressOf machine node + headerSize ∧
    after.load (addressOf machine node) = request ∧
    addressOf machine node + node.size ≤ after.memBrk
  kept : Keeps (fun offset => result.2.Begins offset ∨ ∃ node ∈ result.1, node.start = offset)
    machine after

/-- Work on the lists may come first. -/
theorem Allocated.before {middle : State} {result : Option TreeNode × Tree} {ptr : Nat}
    (allocated : Allocated middle result used request ptr after)
    (kept : Keeps (fun offset => result.2.Begins offset ∨ ∃ node ∈ result.1, node.start = offset)
      machine middle) : Allocated machine result used request ptr after where
  represents := allocated.represents
  failed := allocated.failed
  found node member := by
    have found := allocated.found node member
    rwa [kept.addresses.1] at found
  kept := kept.trans allocated.kept

theorem Allocated.none {ptr : Nat} (represents : Represents after tree used) (isNull : ptr = null)
    (kept : Keeps tree.Begins machine after) :
    Allocated machine (none, tree) used request ptr after where
  represents := represents
  failed _ := isNull
  found := by simp
  kept := kept.mono fun _ => .inl

/-- Writing the header of a used node. -/
theorem ensures_putHeader (represents : Represents machine tree (node :: used))
    (backed : Backed machine (node :: used)) (word : request < 2 ^ 32) :
    Ensures (put (addressOf machine node) request) machine fun _ after =>
      Represents after tree (node :: used) ∧ after.load (addressOf machine node) = request ∧
        addressOf machine node + node.size ≤ after.memBrk ∧
        Keeps (fun offset => node.start = offset) machine after := by
  have range := represents.valid.inRange (List.mem_append_right tree.free List.mem_cons_self)
  have large : 2 ^ 4 ≤ node.size := Nat.pow_le_pow_right (by decide) range.large
  have inside := backed node List.mem_cons_self
  have started : machine.memStartBrk ≤ addressOf machine node := Nat.le_add_right _ _
  rw [ensures_put]
  refine ⟨⟨started, by omega⟩, ?_, machine.load_store_same _ word, inside, rfl, rfl, le_refl _, rfl, ?_⟩
  · refine represents.frame (machine.store_memStartBrk _ _) (machine.store_memBrk _ _)
      (machine.store_memMaxAddr _ _) (machine.store_statics _ _) backed fun byte outside => ?_
    apply machine.store_bytes_of_outside
    by_contra touched
    exact outside ⟨node, List.mem_cons_self, by omega, by omega⟩
  · intro offset _ outside
    have apart := outside node.start rfl
    apply machine.store_bytes_of_outside
    unfold addressOf
    unfold listSize at apart
    omega

/-- The end of `mm_malloc`, for a block whose bytes were reserved. -/
theorem ensures_takeBlock (represents : Represents machine tree (node :: used))
    (backed : Backed machine used) (reachable : bucketOf node ≤ original)
    (bounded : original < bucketCount) (word : request < 2 ^ 32)
    (reserved : addressOf machine node + Tree.needed original node ≤ machine.memBrk) :
    Ensures (do
      splitLoop original (original - bucketOf node + 1) (indexOf node) (bucketOf node)
      put (addressOf machine node) request
      return wrap (addressOf machine node + headerSize) : Program State Nat) machine
      (Allocated machine (some (Tree.leftmost (original - bucketOf node) node),
        ⟨tree.limit, tree.free ++ Tree.spare (original - bucketOf node) node⟩) used request) := by
  have member : node ∈ tree.free ++ node :: used := by simp
  have bounds := represents.valid.bucket_bounds member
  have range := represents.valid.inRange member
  have within := represents.valid.limit_le member
  have large : headerSize ≤ node.size :=
    le_trans (by decide) (Nat.pow_le_pow_right (by decide : 0 < 2) range.large)
  have total : bucketOf node + (original - bucketOf node) = original := by omega
  have enough : original - bucketOf node + minAllocLog2 ≤ node.exponent := by
    unfold bucketCount maxAllocLog2 minAllocLog2 at *
    omega
  have halved : 0 < original - bucketOf node →
      addressOf machine node + (node.size / 2 + listSize) ≤ machine.memBrk := by
    intro splits
    rwa [Tree.needed, if_pos (by omega)] at reserved
  have loop := represents.ensures_splitLoop enough (Nat.lt_succ_self _) halved
  rw [total] at loop
  rw [ensures_bind]
  apply loop.mono
  rintro _ middle ⟨split, kept⟩
  have size := Tree.leftmost_size_le original node range.small (by
    unfold bucketCount at bounded
    omega)
  have sameAddress : addressOf machine node =
      addressOf middle (Tree.leftmost (original - bucketOf node) node) := by
    rw [kept.addresses.1, addressOf, addressOf, Tree.leftmost_start _ _ (by omega)]
  have backedAll : Backed middle (Tree.leftmost (original - bucketOf node) node :: used) := by
    intro other otherMem
    rcases List.mem_cons.mp otherMem with rfl | old
    · rw [← sameAddress]
      have brk := kept.brk
      omega
    · exact kept.backed backed other old
  have header := ensures_putHeader split backedAll word
  rw [← sameAddress] at header
  rw [ensures_bind]
  apply header.mono
  rintro _ after ⟨final, loaded, inside, headerKept⟩
  rw [ensures_pure, (represents.tracks.wrap_address within large).1, ← Nat.add_assoc]
  refine ⟨final, fun isNone => absurd isNone (Option.some_ne_none _), ?_, ?_⟩
  · rintro _ ⟨rfl⟩
    have address : addressOf machine (Tree.leftmost (original - bucketOf node) node) =
        addressOf machine node := by
      rw [addressOf, addressOf, Tree.leftmost_start _ _ (by omega)]
    rw [address]
    exact ⟨rfl, loaded, inside⟩
  · apply (kept.mono fun _ => .inl).trans
    apply headerKept.mono
    exact fun offset begins => .inr ⟨_, rfl, begins⟩

/-- What `mm_malloc` does with a block it popped. -/
theorem ensures_useBlock (valid : tree.Valid used) (member : node ∈ tree.free)
    (tracks : Tracks machine (tree.erase node) tree.restingMarks) (backed : Backed machine used)
    (linked : addressOf machine node + listSize ≤ machine.memBrk)
    (reachable : bucketOf node ≤ original) (bounded : original < bucketCount)
    (word : request < 2 ^ 32) :
    Ensures (useBlock request original (bucketOf node) (addressOf machine node)) machine
      (Allocated machine (tree.use maxHeap original node) used request) := by
  have range := valid.inRange (List.mem_append_left used member)
  have taken := valid.take member
  have size : 1 <<< (maxAllocLog2 - bucketOf node) = node.size := by
    rw [Nat.one_shiftLeft, range.exponent_eq]
    rfl
  have within := valid.limit_le (List.mem_append_left used member)
  have address := tracks.wrap_address within (Tree.needed_le original range.large)
  have bytesNeeded : (if bucketOf node < original then node.size / 2 + listSize else node.size) =
      Tree.needed original node := rfl
  rw [useBlock]
  simp only [size, bytesNeeded]
  rw [address.1, ensures_bind]
  apply (ensures_updateMaxPtr tracks.lists.storage address.2).mono
  intro granted middle reserves
  have small := Tree.needed_le original range.large
  have tracked := tracks.reserves reserves fun _ => by
    change _ ≤ (root tree.limit).size
    unfold TreeNode.limit at within
    omega
  have kept := reserves.same.keeps fun _ => False
  have addresses := kept.addresses
  rw [Tree.use]
  by_cases fits : node.start + Tree.needed original node < maxHeap
  · have isGranted : granted = true := reserves.granted.trans (decide_eq_true fits)
    have finding := tracked.ensures_nodeForPtr range (tracked.address_lt within)
    rw [addresses.1] at finding
    rw [if_pos fits, if_neg (by simp [isGranted]), ensures_bind, finding, ensures_bind]
    apply (tracked.flipUnlessTop range).mono
    rintro _ flipped ⟨flippedTracks, flippedKeeps⟩
    have all := kept.trans flippedKeeps
    have resting : Tracks flipped (tree.erase node) (tree.erase node).restingMarks :=
      (flippedTracks.perm ((restingMarks_erase member).append_left _)).cancel
    have reserved : addressOf flipped node + Tree.needed original node ≤ flipped.memBrk := by
      have below := reserves.reserved fits
      have brk := flippedKeeps.brk
      rw [all.addresses.1, addressOf]
      omega
    have taking := ensures_takeBlock ⟨resting, taken⟩ (all.backed backed) reachable bounded word
      reserved
    rw [all.addresses.1] at taking
    apply taking.mono
    intro ptr after allocated
    exact allocated.before (all.mono fun _ => False.elim)
  · have isRefused : granted = false := reserves.granted.trans (decide_eq_false fits)
    rw [if_neg fits, if_pos (by simp [isRefused]), ensures_bind, ensures_bucketAt, ensures_bind]
    have fresh : ∀ other ∈ (tree.erase node).free, other.start ≠ node.start := by
      intro other otherMem
      exact ((List.pairwise_append.mp taken.tiles.apart).2.2 other otherMem node (by simp)).start_ne
    have inside := (valid.bucket_bounds (List.mem_append_left used member)).1
    have pushing := tracked.push range inside fresh (kept.reserved linked)
    rw [addresses.1] at pushing
    apply pushing.mono
    rintro _ after ⟨pushed, pushedKeeps⟩
    rw [ensures_pure]
    have alone : node.sibling ∉ (tree.erase node).free := fun siblingMem =>
      valid.merged node member (List.mem_of_mem_erase siblingMem)
    apply Allocated.none _ rfl ((kept.mono fun _ => False.elim).trans pushedKeeps)
    refine ⟨pushed.perm ?_, taken.give alone⟩
    exact (restingMarks_erase member).trans (restingMarks_push _ _)

theorem Represents.address_ne_null (represents : Represents machine tree used) :
    addressOf machine node ≠ null := by
  have positive := represents.tracks.lists.storage.positive
  unfold addressOf null
  omega

/-- Pop a free node and use it. -/
theorem ensures_popUse (represents : Represents machine tree used) (backed : Backed machine used)
    (inside : tree.limit ≤ bucket) (reachable : bucket ≤ original) (bounded : original < bucketCount)
    (word : request < 2 ^ 32) (last : tree.last? bucket = some node) :
    Ensures (listPop (bucketList machine bucket)) machine fun ptr popped =>
      ptr ≠ null ∧ Ensures (useBlock request original bucket ptr) popped
        (Allocated machine (tree.use maxHeap original node) used request) := by
  have valid := represents.valid
  have member := Tree.mem_of_last? last
  have linked := represents.tracks.lists.reserved node member.1
  apply (represents.tracks.pop_some inside (by omega) last).mono
  rintro _ popped ⟨rfl, tracked, kept⟩
  refine ⟨represents.address_ne_null, ?_⟩
  have outcome := ensures_useBlock valid member.1 tracked (kept.backed backed)
    (kept.reserved linked) (by omega : bucketOf node ≤ original) bounded word
  rw [kept.addresses.1, member.2] at outcome
  apply outcome.mono
  intro ptr after allocated
  have found := Tree.use_spec maxHeap valid member.1 (by omega : bucketOf node ≤ original) bounded
  exact allocated.before (kept.mono found.begins)

/-- Where the list of the root is empty, a node is in use. -/
theorem Represents.used_of_last? (represents : Represents machine tree used)
    (last : tree.last? tree.limit = none) : used ≠ [] := by
  have empty : tree.last? (bucketOf (root tree.limit)) = none := by
    rw [represents.bucketOf_root, last]
  exact represents.valid.inUse_iff.mp (Tree.not_mem_of_last? empty)

theorem ensures_searchLoop (represents : Represents machine tree used)
    (backed : Backed machine used) (spans : Spans machine.memStartBrk (rounds - 1))
    (reachable : rounds ≤ original + 1) (bounded : original < bucketCount)
    (word : request < 2 ^ 32) :
    Ensures (searchLoop request original rounds) machine
      (Allocated machine (Tree.search maxHeap original rounds tree) used request) := by
  induction rounds generalizing tree machine with
  | zero =>
      rw [searchLoop, ensures_pure]
      exact Allocated.none represents rfl (Keeps.refl _ _)
  | succ bucket induction =>
      have lowered := Tree.lowerTo_spec maxHeap bucket represents.valid
      have reach : Spans machine.memStartBrk bucket := spans
      have lowering := represents.ensures_lowerBucketLimit (.inr reach)
      rw [searchLoop, Tree.search, ensures_bind]
      rcases shape : tree.lowerTo maxHeap bucket with ⟨reached, next⟩
      rw [shape] at lowered lowering
      apply lowering.mono
      rintro granted middle ⟨isReached, tracked, kept⟩
      rw [isReached]
      cases reached with
      | false =>
          rw [if_pos (by simp), ensures_pure]
          exact Allocated.none tracked rfl kept
      | true =>
          have limit : next.limit ≤ bucket := (lowered.limit rfl).le.trans (min_le_left _ _)
          have stillBacked := kept.backed backed
          rw [if_neg (by simp), ensures_bind, ensures_bucketAt, ensures_bind]
          rcases last : next.last? bucket with _ | node
          · apply (tracked.tracks.lists.pop_none limit (by omega) last).mono
            rintro _ _ ⟨rfl, rfl⟩
            rw [if_pos rfl, ensures_bind, ensures_statics, tracked.tracks.limit]
            simp only [last]
            by_cases onward : bucket ≠ next.limit ∨ bucket = 0
            · have found := Tree.search_spec maxHeap lowered.valid
                (Nat.le_of_lt reachable) bounded
              have spans := tracked.tracks.spans.mono (show next.limit ≤ bucket - 1 by omega)
              rw [if_pos onward, if_pos onward]
              apply (induction tracked stillBacked spans (Nat.le_of_lt reachable)).mono
              intro ptr after allocated
              exact allocated.before (kept.mono found.begins)
            · have atRoot : bucket = next.limit ∧ 0 < bucket := by omega
              have again := Tree.lowerTo_spec maxHeap (bucket - 1) lowered.valid
              have inUse := tracked.used_of_last? (atRoot.1 ▸ last)
              have lowering := @Represents.ensures_lowerBucketLimit _ _ _ (bucket - 1) tracked
                (.inl inUse)
              rw [if_neg onward, if_neg onward, ensures_bind]
              rcases nextShape : next.lowerTo maxHeap (bucket - 1) with ⟨reached, final⟩
              rw [nextShape] at again lowering
              apply lowering.mono
              rintro granted grown ⟨isGrown, grownTracked, grownKept⟩
              have allKept := (kept.mono again.begins).trans grownKept
              rw [isGrown]
              cases reached with
              | false =>
                  rw [if_pos (by simp), ensures_pure]
                  exact Allocated.none grownTracked rfl allKept
              | true =>
                  have nextLast : next.last? next.limit = none := atRoot.1 ▸ last
                  rw [atRoot.1] at nextShape
                  have top := Tree.last?_lowerTo lowered.valid (show 0 < next.limit by omega) nextLast
                    nextShape
                  rw [← atRoot.1] at top
                  have below : final.limit ≤ bucket := again.limit_le.trans limit
                  have popping := ensures_popUse grownTracked (allKept.backed backed) below
                    (by omega) bounded word top
                  have member := Tree.mem_of_last? top
                  have found := Tree.use_spec maxHeap again.valid member.1
                    (member.2.le.trans (by omega)) bounded
                  rw [if_neg (by simp), ensures_bind, ensures_bucketAt, ensures_bind]
                  simp only [top]
                  apply popping.mono
                  rintro ptr popped ⟨_, outcome⟩
                  apply outcome.mono
                  intro result after allocated
                  exact allocated.before (allKept.mono found.begins)
          · have member := Tree.mem_of_last? last
            have found := Tree.use_spec maxHeap lowered.valid member.1
              (member.2.le.trans (by omega)) bounded
            apply (ensures_popUse tracked stillBacked limit (by omega) bounded word last).mono
            rintro ptr popped ⟨notNull, outcome⟩
            rw [if_neg notNull]
            simp only [last]
            apply outcome.mono
            intro result after allocated
            exact allocated.before (kept.mono found.begins)

/-- The loop of `bucket_for_request` counts up to the exponent of the request. -/
theorem ensures_bucketLoop {exponent : Nat} (inside : exponent ≤ 31) (enough : 31 - exponent < rounds)
    (small : request ≤ maxAlloc) (goal : Nat → State → Prop) :
    Ensures (bucketLoop request rounds (31 - exponent) (2 ^ exponent)) machine goal ↔
      goal (31 - max exponent (Nat.clog 2 request)) machine := by
  induction rounds generalizing exponent with
  | zero => omega
  | succ rounds induction =>
      rw [bucketLoop]
      by_cases smaller : 2 ^ exponent < request
      · have below : exponent < 31 :=
          (Nat.pow_lt_pow_iff_right (by decide)).mp (smaller.trans_le small)
        have above : exponent < Nat.clog 2 request := (Nat.lt_clog_iff_pow_lt (by decide)).mpr smaller
        have power : 2 ^ (exponent + 1) ≤ 2 ^ 31 := Nat.pow_le_pow_right (by decide) below
        rw [if_pos smaller, wrapSub_of_le (by omega) (by omega), ← Nat.pow_succ,
          wrap_of_lt (by rw [Nat.succ_eq_add_one]; omega), Nat.sub_sub,
          induction below (by omega), max_eq_right above, max_eq_right above.le]
      · rw [if_neg smaller, ensures_pure,
          max_eq_left (Nat.clog_le_of_le_pow (Nat.not_lt.mp smaller))]

/-- The bucket of a total that the guard of `mm_malloc` lets through. -/
def bucketOfTotal (total : Nat) : Nat := maxAllocLog2 - max minAllocLog2 (Nat.clog 2 total)

theorem ensures_bucketForTotal {total : Nat} (small : total ≤ maxAlloc)
    (goal : Nat → State → Prop) :
    Ensures (bucketForRequest total) machine goal ↔ goal (bucketOfTotal total) machine :=
  ensures_bucketLoop (show 4 ≤ 31 by decide) (show 31 - 4 < bucketCount + 1 by decide) small goal

theorem bucketOfTotal_lt (total : Nat) : bucketOfTotal total < bucketCount := by
  have atLeast : minAllocLog2 ≤ max minAllocLog2 (Nat.clog 2 total) := le_max_left _ _
  unfold bucketOfTotal bucketCount maxAllocLog2 minAllocLog2 at *
  omega

/-- The bucket that `mm_malloc` searches first. -/
def firstBucket (request : Nat) : Nat := bucketOfTotal (wrap (request + headerSize))

/-- No address of a node that is large enough for the request wraps, unless the guard
of `mm_malloc` refuses it. -/
def Spanned (base request : Nat) : Prop :=
  wrap (request + headerSize) ≤ maxAlloc → Spans base (firstBucket request)

theorem firstBucket_lt (request : Nat) : firstBucket request < bucketCount := bucketOfTotal_lt _

/-- The search on the tree that `mm_malloc` does for a request of any size. -/
def Tree.obtain (room request : Nat) (tree : Tree) : Option TreeNode × Tree :=
  Tree.search room (firstBucket request) (firstBucket request + 1) tree

theorem firstBucket_of_small (small : request + headerSize ≤ maxAlloc) :
    firstBucket request = Tree.bucketFor request := by
  rw [firstBucket, wrap_of_lt (small.trans_lt (by decide))]
  rfl

/-- `bucket_for_request` of a request with its header. -/
theorem ensures_bucketForRequest (small : request + headerSize ≤ maxAlloc)
    (goal : Nat → State → Prop) :
    Ensures (bucketForRequest (wrap (request + headerSize))) machine goal ↔
      goal (Tree.bucketFor request) machine := by
  rw [wrap_of_lt (small.trans_lt (by decide))]
  exact ensures_bucketForTotal small goal

/-- The guard of `mm_malloc` refuses without any change. -/
theorem mmMalloc_beyond (large : maxAlloc < wrap (request + headerSize)) (machine : State) :
    mmMalloc request machine = some (null, machine) := by
  rw [mmMalloc, if_pos large]
  rfl

/-- A request that passes the guard comes to the search. -/
theorem Tracks.ensures_mmMalloc_search (tracks : Tracks machine tree marks)
    (accepted : wrap (request + headerSize) ≤ maxAlloc) (goal : Nat → State → Prop) :
    Ensures (mmMalloc request) machine goal ↔
      Ensures (searchLoop request (firstBucket request) (firstBucket request + 1)) machine goal := by
  have started : machine.statics.basePtr ≠ null := by
    rw [tracks.base]
    exact Nat.ne_of_gt tracks.lists.storage.positive
  rw [mmMalloc, if_neg (Nat.not_lt.mpr accepted), ensures_bind, startOnce, ensures_bind,
    ensures_statics, if_neg started, ensures_pure, ensures_bind, ensures_bucketForTotal accepted]
  rfl

/-- `mm_malloc` of a request whose total passes the guard, wrapped or not. -/
theorem ensures_mmMalloc_guarded (represents : Represents machine tree used)
    (backed : Backed machine used) (word : request < 2 ^ 32)
    (accepted : wrap (request + headerSize) ≤ maxAlloc)
    (spans : Spans machine.memStartBrk (firstBucket request)) :
    Ensures (mmMalloc request) machine
      (Allocated machine (Tree.obtain maxHeap request tree) used request) := by
  rw [represents.tracks.ensures_mmMalloc_search accepted]
  exact ensures_searchLoop represents backed spans (le_refl _) (bucketOfTotal_lt _) word

end MallocLab.Buddy
