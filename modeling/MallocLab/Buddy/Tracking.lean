import MallocLab.Buddy.Lists

/-! # The machine of a tree

A machine tracks a tree when its lists, its bits and `bucket_limit` do, and when no
address in the root wraps. While an operation runs the bits may differ from those
of the tree, so the marks are given apart from it.
-/

namespace MallocLab.Buddy

open Program TreeNode

variable {machine after : State} {tree : Tree} {node : TreeNode} {marks : List Nat}
  {bucket offset limit : Nat} {zone wider : Nat → Prop}

/-- What an operation leaves alone. The zone holds the offsets of the eight bytes
it may write. -/
structure Keeps (zone : Nat → Prop) (machine after : State) : Prop where
  start : after.memStartBrk = machine.memStartBrk
  max : after.memMaxAddr = machine.memMaxAddr
  brk : machine.memBrk ≤ after.memBrk
  array : after.statics.buckets = machine.statics.buckets
  bytes : ∀ offset < maxHeap,
    (∀ begin, zone begin → offset < begin ∨ begin + listSize ≤ offset) →
    after.bytes (machine.memStartBrk + offset) = machine.bytes (machine.memStartBrk + offset)

namespace Keeps

theorem refl (zone : Nat → Prop) (machine : State) : Keeps zone machine machine :=
  ⟨rfl, rfl, le_refl _, rfl, fun _ _ _ => rfl⟩

theorem trans {middle : State} (first : Keeps zone machine middle)
    (second : Keeps zone middle after) : Keeps zone machine after where
  start := second.start.trans first.start
  max := second.max.trans first.max
  brk := first.brk.trans second.brk
  array := second.array.trans first.array
  bytes offset small outside := by
    rw [← first.bytes offset small outside, ← first.start]
    exact second.bytes offset small outside

theorem mono (kept : Keeps zone machine after) (included : ∀ begin, zone begin → wider begin) :
    Keeps wider machine after where
  start := kept.start
  max := kept.max
  brk := kept.brk
  array := kept.array
  bytes offset small outside :=
    kept.bytes offset small fun begin inZone => outside begin (included begin inZone)

/-- Addresses of nodes and list heads stay. -/
theorem addresses (kept : Keeps zone machine after) :
    addressOf after = addressOf machine ∧ bucketList after = bucketList machine := by
  constructor
  · funext node
    rw [addressOf, addressOf, kept.start]
  · funext bucket
    rw [bucketList, bucketList, kept.array]

theorem reserved (kept : Keeps zone machine after)
    (reserved : addressOf machine node + listSize ≤ machine.memBrk) :
    addressOf after node + listSize ≤ after.memBrk := by
  rw [kept.addresses.1]
  exact reserved.trans kept.brk

end Keeps

theorem Relinks.keeps (relinks : Relinks zone machine after) : Keeps zone machine after :=
  ⟨relinks.start, relinks.max, relinks.brk.ge, by rw [relinks.statics], relinks.bytes⟩

/-- The machine differs in the break and in variables that no list depends on. -/
structure SameLists (machine after : State) : Prop where
  start : after.memStartBrk = machine.memStartBrk
  max : after.memMaxAddr = machine.memMaxAddr
  brk : machine.memBrk ≤ after.memBrk
  bounded : after.memBrk ≤ after.memMaxAddr
  bytes : after.bytes = machine.bytes
  array : after.statics.buckets = machine.statics.buckets
  base : after.statics.basePtr = machine.statics.basePtr

theorem SameLists.keeps (same : SameLists machine after) (zone : Nat → Prop) :
    Keeps zone machine after :=
  ⟨same.start, same.max, same.brk, same.array, fun _ _ _ => by rw [same.bytes]⟩

theorem Storage.carry (storage : Storage machine) (same : SameLists machine after) :
    Storage after where
  base := by rw [same.base, same.start, storage.base]
  positive := same.start ▸ storage.positive
  aligned := same.start ▸ storage.aligned
  addressable := same.start ▸ storage.addressable
  started := by
    rw [same.start]
    exact storage.started.trans same.brk
  bounded := same.bounded
  arena := by rw [same.max, same.start, storage.arena]
  array := same.array ▸ storage.array
  arrayEnd := same.array ▸ storage.arrayEnd
  apart := same.array ▸ same.start ▸ same.max ▸ storage.apart

theorem Lists.carry (lists : Lists machine tree) (same : SameLists machine after) :
    Lists after tree where
  storage := lists.storage.carry same
  limit_lt := lists.limit_lt
  inRange := lists.inRange
  starts := lists.starts
  reserved node member := by
    rw [addressOf, same.start]
    exact (lists.reserved node member).trans same.brk
  rings := by
    have addresses := (same.keeps fun _ => True).addresses
    have pred : after.pred = machine.pred := by
      funext address
      rw [Machine.pred, Machine.load, same.bytes]
      rfl
    have succ : after.succ = machine.succ := by
      funext address
      rw [Machine.succ, Machine.load, same.bytes]
      rfl
    have sameMembers : Buddy.members after tree = Buddy.members machine tree := by
      funext bucket
      rw [Buddy.members, addresses.1]
      rfl
    rw [addresses.2, pred, succ, sameMembers]
    exact lists.rings

/-! ## Reserving memory -/

/-- The machine that has noted the last byte of the heap. -/
def noted (machine : State) : State :=
  machine.setStatics { machine.statics with maxPtr := machine.memBrk - 1 }

theorem updateMaxPtr_beyond {newValue : Nat} (beyond : machine.memBrk - 1 < newValue)
    (goal : Bool → State → Prop) :
    Ensures (updateMaxPtr newValue) machine goal ↔
      Ensures (memSbrk (toInt (wrapSub newValue (machine.memBrk - 1)))) (noted machine)
        fun result after => goal (decide (result ≠ sbrkFailed)) after := by
  simp only [updateMaxPtr, setMaxPtr, ensures_bind, ensures_memHeapHi, ensures_statics,
    ensures_setStatics, Machine.setStatics_statics, ensures_ite, gt_iff_lt, beyond, if_true,
    ensures_pure, noted]
  apply iff_of_eq
  congr
  funext result after
  by_cases failed : result = sbrkFailed
  · rw [if_pos failed, decide_eq_false (not_not.mpr failed)]
  · rw [if_neg failed, decide_eq_true failed]

theorem updateMaxPtr_reserved {newValue : Nat} (reserved : newValue ≤ machine.memBrk - 1)
    (goal : Bool → State → Prop) :
    Ensures (updateMaxPtr newValue) machine goal ↔ goal true (noted machine) := by
  simp only [updateMaxPtr, setMaxPtr, ensures_bind, ensures_memHeapHi, ensures_statics,
    ensures_setStatics, Machine.setStatics_statics, ensures_ite, gt_iff_lt,
    Nat.not_lt.mpr reserved, if_false, ensures_pure, noted]

/-- The increment, from the last byte of the heap on. -/
theorem increment_eq {newValue : Nat} (word : newValue < 2 ^ 32)
    (beyond : machine.memBrk - 1 < newValue) :
    wrapSub newValue (machine.memBrk - 1) = newValue - (machine.memBrk - 1) :=
  wrapSub_of_le word beyond.le

/-- The break that is asked for lies one past `new_value`. -/
theorem nextBrk_noted {newValue : Nat} (positive : 0 < machine.memBrk)
    (beyond : machine.memBrk - 1 < newValue)
    (small : newValue - (machine.memBrk - 1) < 2147483648) :
    (noted machine).nextBrk (toInt (newValue - (machine.memBrk - 1))) = wrap (newValue + 1) := by
  have next : machine.memBrk + (newValue - (machine.memBrk - 1)) = newValue + 1 := by omega
  rw [toInt_of_lt small, Machine.nextBrk, Int.toNat_natCast, noted, Machine.setStatics_memBrk,
    next]

theorem updateMaxPtr_refused {newValue : Nat} (word : newValue < 2 ^ 32)
    (positive : 0 < machine.memBrk) (beyond : machine.memBrk - 1 < newValue)
    (refused : newValue - (machine.memBrk - 1) < 2147483648 →
      machine.memMaxAddr < wrap (newValue + 1))
    (goal : Bool → State → Prop) :
    Ensures (updateMaxPtr newValue) machine goal ↔ goal false (noted machine) := by
  rw [updateMaxPtr_beyond beyond, increment_eq word beyond, memSbrk_refused]
  · rw [decide_eq_false (not_not.mpr rfl)]
  · by_cases small : newValue - (machine.memBrk - 1) < 2147483648
    · right
      rw [nextBrk_noted positive beyond small]
      exact refused small
    · exact .inl (toInt_neg (not_lt.mp small) (by omega))

theorem updateMaxPtr_granted {newValue : Nat} (word : newValue < 2 ^ 32)
    (positive : 0 < machine.memBrk) (beyond : machine.memBrk - 1 < newValue)
    (small : newValue - (machine.memBrk - 1) < 2147483648)
    (fits : wrap (newValue + 1) ≤ machine.memMaxAddr) (goal : Bool → State → Prop) :
    Ensures (updateMaxPtr newValue) machine goal ↔
      goal (decide (machine.memBrk ≠ sbrkFailed))
        ((noted machine).setBrk (wrap (newValue + 1))) := by
  have next := nextBrk_noted positive beyond small
  rw [updateMaxPtr_beyond beyond, increment_eq word beyond, memSbrk_granted, next]
  · rfl
  · rw [toInt_of_lt small]
    exact Int.natCast_nonneg _
  · rw [next]
    exact fits

/-- The machine with another `bucket_limit`. -/
def withLimit (machine : State) (limit : Nat) : State :=
  machine.setStatics { machine.statics with bucketLimit := limit }

@[simp] theorem ensures_setBucketLimit (limit : Nat) (goal : Unit → State → Prop) :
    Ensures (setBucketLimit limit) machine goal ↔ goal () (withLimit machine limit) := by
  simp [setBucketLimit, withLimit]

@[simp] theorem bucketList_withLimit (machine : State) (limit : Nat) :
    bucketList (withLimit machine limit) = bucketList machine := rfl

/-- What `update_max_ptr` does with an offset from `base_ptr`: it succeeds exactly
when the offset is less than the length of the arena, and then the bytes before
it belong to the heap, of which it takes no more than one byte beyond. -/
structure Reserves (offset : Nat) (machine : State) (granted : Bool) (after : State) : Prop where
  granted : granted = decide (offset < maxHeap)
  same : SameLists machine after
  limit : after.statics.bucketLimit = machine.statics.bucketLimit
  bits : after.statics.nodeIsSplit = machine.statics.nodeIsSplit
  reserved : offset < maxHeap → machine.memStartBrk + offset < after.memBrk
  extent : after.memBrk ≤ machine.memBrk ∨
    offset < maxHeap ∧ after.memBrk ≤ machine.memStartBrk + offset + 1

theorem ensures_updateMaxPtr (storage : Storage machine)
    (inside : machine.memStartBrk + offset + 1 < 2 ^ 32) :
    Ensures (updateMaxPtr (machine.memStartBrk + offset)) machine (Reserves offset machine) := by
  have positive := storage.positive
  have started := storage.started
  have bounded := storage.bounded
  have arena := storage.arena
  have addressable := storage.addressable
  have heap : maxHeap = 20971520 := by decide
  by_cases beyond : machine.memBrk - 1 < machine.memStartBrk + offset
  · have word : machine.memStartBrk + offset < 2 ^ 32 := by omega
    have next : wrap (machine.memStartBrk + offset + 1) = machine.memStartBrk + offset + 1 :=
      wrap_of_lt inside
    by_cases fits : offset < maxHeap
    · have notFailed : machine.memBrk ≠ sbrkFailed := by
        unfold sbrkFailed
        omega
      rw [updateMaxPtr_granted word (by omega) beyond (by omega) (by omega), next]
      have advanced : machine.memBrk ≤ machine.memStartBrk + offset + 1 := by omega
      have inside : machine.memStartBrk + offset + 1 ≤ machine.memMaxAddr := by omega
      exact ⟨(decide_eq_true notFailed).trans (decide_eq_true fits).symm,
        ⟨rfl, rfl, advanced, inside, rfl, rfl, rfl⟩, rfl, rfl, fun _ => Nat.lt_succ_self _,
        .inr ⟨fits, le_refl _⟩⟩
    · rw [updateMaxPtr_refused word (by omega) beyond (by omega)]
      exact ⟨(decide_eq_false fits).symm, ⟨rfl, rfl, le_refl _, bounded, rfl, rfl, rfl⟩, rfl, rfl,
        fun small => (fits small).elim, .inl (le_refl _)⟩
  · rw [updateMaxPtr_reserved (by omega)]
    refine ⟨(decide_eq_true (by omega)).symm, ⟨rfl, rfl, le_refl _, bounded, rfl, rfl, rfl⟩, rfl,
      rfl, fun _ => ?_, .inl (le_refl _)⟩
    rw [noted, Machine.setStatics_memBrk]
    omega

/-! ## Tracking -/

structure Tracks (machine : State) (tree : Tree) (marks : List Nat) : Prop where
  lists : Lists machine tree
  marked : Marked machine marks
  limit : machine.statics.bucketLimit = tree.limit
  extent : machine.memBrk ≤ machine.memStartBrk + extentOf tree.limit
  spans : Spans machine.memStartBrk tree.limit

namespace Tracks

theorem perm {other : List Nat} (tracks : Tracks machine tree marks) (same : marks.Perm other) :
    Tracks machine tree other :=
  ⟨tracks.lists, tracks.marked.perm same, tracks.limit, tracks.extent, tracks.spans⟩

theorem reserves {granted : Bool} (tracks : Tracks machine tree marks)
    (reserves : Reserves offset machine granted after)
    (inside : offset < maxHeap → offset ≤ (root tree.limit).size) : Tracks after tree marks where
  lists := tracks.lists.carry reserves.same
  marked := tracks.marked.congr reserves.bits
  limit := reserves.limit.trans tracks.limit
  extent := by
    have before := tracks.extent
    rw [reserves.same.start]
    rcases reserves.extent with same | ⟨fits, taken⟩
    · exact same.trans before
    · have small := inside fits
      unfold extentOf
      omega
  spans := reserves.same.start ▸ tracks.spans

/-- An operation on lists leaves the bits alone. -/
theorem relinks {changed : Tree} (tracks : Tracks machine tree marks) (lists : Lists after changed)
    (relinks : Relinks zone machine after) (limit : changed.limit = tree.limit) :
    Tracks after changed marks where
  lists := lists
  marked := tracks.marked.congr (by rw [relinks.statics])
  limit := by rw [relinks.statics, tracks.limit, limit]
  extent := by
    rw [relinks.brk, relinks.start, limit]
    exact tracks.extent
  spans := by
    rw [relinks.start, limit]
    exact tracks.spans

section Operations

variable (tracks : Tracks machine tree marks)

include tracks

theorem base : machine.statics.basePtr = machine.memStartBrk := tracks.lists.storage.base

/-- The addresses of a node in the root and up to its end do not wrap. -/
theorem wrap_address (within : node.limit ≤ (root tree.limit).size) (inside : offset ≤ node.size) :
    wrap (addressOf machine node + offset) = machine.memStartBrk + (node.start + offset) ∧
      machine.memStartBrk + (node.start + offset) + 1 < 2 ^ 32 := by
  have spans := tracks.spans.1
  unfold extentOf at spans
  unfold TreeNode.limit at within
  unfold addressOf
  exact ⟨by rw [wrap_of_lt (by omega), Nat.add_assoc], by omega⟩

theorem address_lt (within : node.limit ≤ (root tree.limit).size) :
    addressOf machine node < 2 ^ 32 := by
  have address := tracks.wrap_address within (Nat.zero_le node.size)
  unfold addressOf
  omega

theorem ensures_nodeForPtr (range : InRange node) (below : addressOf machine node < 2 ^ 32)
    (goal : Nat → State → Prop) :
    Ensures (nodeForPtr (addressOf machine node) (bucketOf node)) machine goal ↔
      goal (indexOf node) machine := by
  unfold addressOf at below
  simp only [nodeForPtr, ensures_bind, ensures_statics, ensures_pure, tracks.base, addressOf,
    range.nodeForPtr below]

theorem ensures_ptrForNode (range : InRange node) (below : addressOf machine node < 2 ^ 32)
    (goal : Nat → State → Prop) :
    Ensures (ptrForNode (indexOf node) (bucketOf node)) machine goal ↔
      goal (addressOf machine node) machine := by
  unfold addressOf at below
  simp only [ptrForNode, ensures_bind, ensures_statics, ensures_pure, tracks.base, addressOf,
    range.ptrForNode below]

theorem push (range : InRange node) (inside : tree.limit ≤ bucketOf node)
    (fresh : ∀ other ∈ tree.free, other.start ≠ node.start)
    (reserved : addressOf machine node + listSize ≤ machine.memBrk) :
    Ensures (listPush (bucketList machine (bucketOf node)) (addressOf machine node)) machine
      fun _ after => Tracks after (tree.push node) marks ∧
        Keeps (tree.push node).Begins machine after :=
  (tracks.lists.push range inside fresh reserved).mono fun _ _ done =>
    ⟨tracks.relinks done.1 done.2 rfl, done.2.keeps⟩

theorem remove (member : node ∈ tree.free) :
    Ensures (listRemove (addressOf machine node)) machine fun _ after =>
      Tracks after (tree.erase node) marks ∧ Keeps tree.Begins machine after :=
  (tracks.lists.remove member).mono fun _ _ done =>
    ⟨tracks.relinks done.1 done.2 rfl, done.2.keeps⟩

theorem pop_some (inside : tree.limit ≤ bucket) (bounded : bucket < bucketCount)
    (last : tree.last? bucket = some node) :
    Ensures (listPop (bucketList machine bucket)) machine fun ptr after =>
      ptr = addressOf machine node ∧ Tracks after (tree.erase node) marks ∧
        Keeps tree.Begins machine after :=
  (tracks.lists.pop_some inside bounded last).mono fun _ _ done =>
    ⟨done.1, tracks.relinks done.2.1 done.2.2 rfl, done.2.2.keeps⟩

/-- Flipping the bit above a node is one more mark. -/
theorem flip (range : InRange node) (hasParent : bucketOf node ≠ 0) :
    Ensures (flipParentIsSplit (indexOf node)) machine fun _ after =>
      Tracks after tree (parentIndex node :: marks) ∧ Keeps (fun _ => False) machine after := by
  have positive : 0 < indexOf node := Nat.pos_of_ne_zero fun zero =>
    hasParent (range.indexOf_eq_zero.mp zero)
  have small := range.indexOf_lt
  have same : SameLists machine (flipped machine (parentIndex node)) :=
    ⟨rfl, rfl, le_refl _, tracks.lists.storage.bounded, rfl, rfl, rfl⟩
  rw [ensures_flipParentIsSplit positive (by omega)]
  exact ⟨⟨tracks.lists.carry same, tracks.marked.flipped _, tracks.limit, tracks.extent,
    tracks.spans⟩, same.keeps _⟩

/-- The node that has no parent has no bit either. -/
theorem flipUnlessTop (range : InRange node) :
    Ensures (flipUnlessTop (indexOf node)) machine fun _ after =>
      Tracks after tree (markOf node ++ marks) ∧ Keeps (fun _ => False) machine after := by
  rw [Buddy.flipUnlessTop, markOf]
  by_cases top : bucketOf node = 0
  · rw [if_neg (not_not.mpr (range.indexOf_eq_zero.mpr top)), if_pos top, ensures_pure]
    exact ⟨tracks, Keeps.refl _ _⟩
  · rw [if_pos fun zero => top (range.indexOf_eq_zero.mp zero), if_neg top]
    exact tracks.flip range top

omit tracks in
/-- The list of the next root is cleared once `bucket_limit` was lowered, for
which the heap may be as long as that root already. -/
theorem opened_of_lists (lists : Lists machine tree) (marked : Marked machine marks)
    (positive : 0 < tree.limit)
    (extent : machine.memBrk ≤ machine.memStartBrk + extentOf (tree.limit - 1))
    (spans : Spans machine.memStartBrk (tree.limit - 1)) :
    Ensures (listInit (bucketList machine (tree.limit - 1))) (withLimit machine (tree.limit - 1))
      fun _ after => Tracks after ⟨tree.limit - 1, tree.free⟩ marks ∧
        Keeps (fun _ => False) machine after := by
  have same : SameLists machine (withLimit machine (tree.limit - 1)) :=
    ⟨rfl, rfl, le_refl _, lists.storage.bounded, rfl, rfl, rfl⟩
  apply ((lists.carry same).opened positive).mono
  intro _ after done
  refine ⟨⟨done.1, marked.congr ?_, ?_, ?_, ?_⟩, (same.keeps _).trans done.2.keeps⟩
  · rw [done.2.statics]
    rfl
  · rw [done.2.statics]
    rfl
  · rw [done.2.brk, done.2.start]
    exact extent
  · rw [done.2.start]
    exact spans

theorem opened (positive : 0 < tree.limit) (spans : Spans machine.memStartBrk (tree.limit - 1)) :
    Ensures (listInit (bucketList machine (tree.limit - 1))) (withLimit machine (tree.limit - 1))
      fun _ after => Tracks after ⟨tree.limit - 1, tree.free⟩ marks ∧
        Keeps (fun _ => False) machine after := by
  refine opened_of_lists tracks.lists tracks.marked positive (tracks.extent.trans ?_) spans
  exact Nat.add_le_add_left (extentOf_mono (Nat.sub_le _ _)) _

end Operations

end Tracks

end MallocLab.Buddy
