import MallocLab.BoundaryTag.Links
import MallocLab.Buddy.SplitBits
import MallocLab.Foundation.Rings

/-! # The lists of the buckets in memory

A `list_t` lies at the start of a free node or in the static array. Two of them
do not share a byte, so writing a link updates a function at one place.
-/

namespace MallocLab.Buddy

open Program TreeNode

variable {machine after : State} {tree : Tree} {node other : TreeNode} {bucket value : Nat}
  {first second address : Nat} {zone wider : Nat → Prop}

/-- Where the arena and the static array lie. The arena does not end so high that a
root of 64 megabytes would wrap. -/
structure Storage (machine : State) : Prop where
  base : machine.statics.basePtr = machine.memStartBrk
  positive : 0 < machine.memStartBrk
  aligned : machine.memStartBrk % 8 = 0
  addressable : machine.memStartBrk + 2 ^ 26 + listSize < 2 ^ 32
  started : machine.memStartBrk ≤ machine.memBrk
  bounded : machine.memBrk ≤ machine.memMaxAddr
  arena : machine.memMaxAddr = machine.memStartBrk + maxHeap
  array : 0 < machine.statics.buckets
  arrayEnd : machine.statics.buckets + listSize * bucketCount ≤ 2 ^ 32
  apart : machine.statics.buckets + listSize * bucketCount ≤ machine.memStartBrk ∨
    machine.memMaxAddr ≤ machine.statics.buckets

/-- The address of an element of the static array. -/
def bucketList (machine : State) (bucket : Nat) : Nat :=
  machine.statics.buckets + listSize * bucket

def addressOf (machine : State) (node : TreeNode) : Nat := machine.memStartBrk + node.start

@[simp] theorem addressOf_root (machine : State) (limit : Nat) :
    addressOf machine (root limit) = machine.memStartBrk := by
  rw [addressOf, root_start, Nat.add_zero]

/-- The address of a `list_t`. -/
def Slot (machine : State) (address : Nat) : Prop :=
  (∃ bucket < bucketCount, address = bucketList machine bucket) ∨
    ∃ offset, offset % 16 = 0 ∧ address = machine.memStartBrk + offset ∧
      address + listSize ≤ machine.memBrk

/-- Two objects of the size of a `list_t` are the same or share no byte. -/
def Separate (first second : Nat) : Prop :=
  first = second ∨ first + 8 ≤ second ∨ second + 8 ≤ first

namespace Slot

theorem linkable (slot : Slot machine address) :
    Linkable machine address ∧ Linkable machine (address + 4) := by
  rcases slot with ⟨bucket, inside, rfl⟩ | ⟨offset, _, rfl, reserved⟩
  · unfold Linkable bucketList listSize
    constructor <;> right <;> omega
  · unfold listSize at reserved
    unfold Linkable Machine.Owns
    constructor <;> left <;> omega

theorem separate (storage : Storage machine) (slot : Slot machine first)
    (alsoSlot : Slot machine second) : Separate first second := by
  have bounded := storage.bounded
  have regions := storage.apart
  unfold Slot bucketList listSize at *
  unfold Separate
  rcases slot with ⟨bucket, inside, rfl⟩ | ⟨offset, cell, rfl, reserved⟩
  · rcases alsoSlot with ⟨other, otherInside, rfl⟩ | ⟨offset, cell, rfl, reserved⟩ <;> omega
  · rcases alsoSlot with ⟨other, otherInside, rfl⟩ | ⟨other, otherCell, rfl, otherReserved⟩ <;> omega

theorem bounds (storage : Storage machine) (slot : Slot machine address) :
    0 < address ∧ address < 2 ^ 32 := by
  have positive := storage.positive
  have bounded := storage.bounded
  have arena := storage.arena
  have addressable := storage.addressable
  have array := storage.array
  have arrayEnd := storage.arrayEnd
  have small : maxHeap < 2 ^ 26 := by decide
  unfold Slot bucketList listSize at *
  rcases slot with ⟨bucket, inside, rfl⟩ | ⟨offset, cell, rfl, reserved⟩ <;> omega

end Slot

/-! ## What the statements do to links -/

namespace Separate

section Links

variable (separate : Separate first second)

include separate

theorem pred_setPred (word : value < 2 ^ 32) : (machine.setPred first value).pred second =
    if second = first then value else machine.pred second := by
  rcases separate with same | apart
  · rw [if_pos same.symm, same]
    exact machine.load_store_same second word
  · rw [if_neg (by omega)]
    exact machine.load_store_of_disjoint value (by omega)

theorem succ_setSucc (word : value < 2 ^ 32) : (machine.setSucc first value).succ second =
    if second = first then value else machine.succ second := by
  rcases separate with same | apart
  · rw [if_pos same.symm, same]
    exact machine.load_store_same (second + 4) word
  · rw [if_neg (by omega)]
    exact machine.load_store_of_disjoint value (by omega)

theorem succ_setPred : (machine.setPred first value).succ second = machine.succ second := by
  apply machine.load_store_of_disjoint value
  rcases separate with same | apart <;> omega

theorem pred_setSucc : (machine.setSucc first value).pred second = machine.pred second := by
  apply machine.load_store_of_disjoint value
  rcases separate with same | apart <;> omega

end Links

end Separate

section Ensures

variable (list : Nat)

@[simp] theorem ensures_getPrev (goal : Nat → State → Prop) :
    Ensures (getPrev list) machine goal ↔
      Linkable machine list ∧ goal (machine.pred list) machine := by
  simp [getPrev, getLink, Machine.pred]

@[simp] theorem ensures_getNext (goal : Nat → State → Prop) :
    Ensures (getNext list) machine goal ↔
      Linkable machine (list + 4) ∧ goal (machine.succ list) machine := by
  simp [getNext, getLink, Machine.succ]

@[simp] theorem ensures_setPrev (goal : Unit → State → Prop) :
    Ensures (setPrev list value) machine goal ↔
      Linkable machine list ∧ goal () (machine.setPred list value) := by
  simp [setPrev, putLink, Machine.setPred]

@[simp] theorem ensures_setNext (goal : Unit → State → Prop) :
    Ensures (setNext list value) machine goal ↔
      Linkable machine (list + 4) ∧ goal () (machine.setSucc list value) := by
  simp [setNext, putLink, Machine.setSucc]

@[simp] theorem ensures_bucketAt (goal : Nat → State → Prop) :
    Ensures (bucketAt bucket) machine goal ↔ goal (bucketList machine bucket) machine := by
  simp [bucketAt, bucketList]

end Ensures

/-- The machine after `list_push` when `prev` was the last entry. -/
def pushed (machine : State) (list entry prev : Nat) : State :=
  (((machine.setPred entry prev).setSucc entry list).setSucc prev entry).setPred list entry

/-- The machine after `list_remove` of an entry between two others. -/
def bridged (machine : State) (prev next : Nat) : State :=
  (machine.setSucc prev next).setPred next prev

/-- The machine after `list_init`. -/
def emptied (machine : State) (list : Nat) : State :=
  (machine.setPred list list).setSucc list list

theorem pushed_links {list entry prev : Nat} (fromEntry : Separate entry address)
    (fromPrev : Separate prev address) (fromList : Separate list address)
    (entryWord : entry < 2 ^ 32) (listWord : list < 2 ^ 32) (prevWord : prev < 2 ^ 32) :
    ((pushed machine list entry prev).succ address =
      if address = prev then entry else if address = entry then list else machine.succ address) ∧
    (pushed machine list entry prev).pred address =
      if address = list then entry else if address = entry then prev else machine.pred address := by
  constructor
  · rw [pushed, fromList.succ_setPred, fromPrev.succ_setSucc entryWord,
      fromEntry.succ_setSucc listWord, fromEntry.succ_setPred]
  · rw [pushed, fromList.pred_setPred entryWord, fromPrev.pred_setSucc, fromEntry.pred_setSucc,
      fromEntry.pred_setPred prevWord]

theorem bridged_links {prev next : Nat} (fromPrev : Separate prev address)
    (fromNext : Separate next address) (prevWord : prev < 2 ^ 32) (nextWord : next < 2 ^ 32) :
    ((bridged machine prev next).succ address =
      if address = prev then next else machine.succ address) ∧
    (bridged machine prev next).pred address =
      if address = next then prev else machine.pred address := by
  constructor
  · rw [bridged, fromNext.succ_setPred, fromPrev.succ_setSucc nextWord]
  · rw [bridged, fromNext.pred_setPred prevWord, fromPrev.pred_setSucc]

theorem emptied_links {list : Nat} (fromList : Separate list address) (word : list < 2 ^ 32) :
    ((emptied machine list).succ address = if address = list then list else machine.succ address) ∧
    (emptied machine list).pred address = if address = list then list else machine.pred address := by
  constructor
  · rw [emptied, fromList.succ_setSucc word, fromList.succ_setPred]
  · rw [emptied, fromList.pred_setSucc, fromList.pred_setPred word]

/-- Which addresses hold links does not depend on the bytes. -/
theorem Linkable.same (linkable : Linkable machine address)
    (start : after.memStartBrk = machine.memStartBrk) (brk : after.memBrk = machine.memBrk)
    (statics : after.statics = machine.statics) : Linkable after address := by
  unfold Linkable Machine.Owns at *
  rwa [start, brk, statics]

theorem ensures_listPush {list entry : Nat} (isList : Slot machine list)
    (isEntry : Slot machine entry) (isPrev : Slot machine (machine.pred list))
    (goal : Unit → State → Prop) :
    Ensures (listPush list entry) machine goal ↔
      goal () (pushed machine list entry (machine.pred list)) := by
  simp only [listPush, ensures_bind, ensures_getPrev, ensures_setPrev, ensures_setNext]
  constructor
  · exact fun ensured => ensured.2.2.2.2.2
  · exact fun holds => ⟨isList.linkable.1, isEntry.linkable.1,
      isEntry.linkable.2.same rfl rfl rfl, isPrev.linkable.2.same rfl rfl rfl,
      isList.linkable.1.same rfl rfl rfl, holds⟩

theorem ensures_listRemove {entry : Nat} (isEntry : Slot machine entry)
    (isPrev : Slot machine (machine.pred entry)) (isNext : Slot machine (machine.succ entry))
    (goal : Unit → State → Prop) :
    Ensures (listRemove entry) machine goal ↔
      goal () (bridged machine (machine.pred entry) (machine.succ entry)) := by
  simp only [listRemove, ensures_bind, ensures_getPrev, ensures_getNext, ensures_setPrev,
    ensures_setNext]
  constructor
  · exact fun ensured => ensured.2.2.2.2
  · exact fun holds => ⟨isEntry.linkable.1, isEntry.linkable.2, isPrev.linkable.2,
      isNext.linkable.1.same rfl rfl rfl, holds⟩

theorem ensures_listInit {list : Nat} (isList : Slot machine list) (goal : Unit → State → Prop) :
    Ensures (listInit list) machine goal ↔ goal () (emptied machine list) := by
  simp only [listInit, ensures_bind, ensures_setPrev, ensures_setNext]
  constructor
  · exact fun ensured => ensured.2.2
  · exact fun holds => ⟨isList.linkable.1, isList.linkable.2.same rfl rfl rfl, holds⟩

/-! ## The lists of a tree -/

/-- An operation on lists writes only to the lists. The zone holds the offsets of
the objects in the arena it may touch. -/
structure Relinks (zone : Nat → Prop) (machine after : State) : Prop where
  start : after.memStartBrk = machine.memStartBrk
  brk : after.memBrk = machine.memBrk
  max : after.memMaxAddr = machine.memMaxAddr
  statics : after.statics = machine.statics
  bytes : ∀ offset < maxHeap,
    (∀ begin, zone begin → offset < begin ∨ begin + listSize ≤ offset) →
    after.bytes (machine.memStartBrk + offset) = machine.bytes (machine.memStartBrk + offset)

/-- The buckets that have a list. -/
def Active (tree : Tree) (bucket : Nat) : Prop := tree.limit ≤ bucket ∧ bucket < bucketCount

def members (machine : State) (tree : Tree) (bucket : Nat) : List Nat :=
  (tree.listed bucket).map (addressOf machine)

/-- The address is that of a list head or of a free node. -/
def IsLinked (machine : State) (tree : Tree) : Nat → Prop :=
  Rings.Has (Active tree) (bucketList machine) (members machine tree)

/-- The free nodes are threaded through the lists of their buckets. -/
structure Lists (machine : State) (tree : Tree) : Prop where
  storage : Storage machine
  limit_lt : tree.limit < bucketCount
  inRange : ∀ node ∈ tree.free, InRange node ∧ tree.limit ≤ bucketOf node
  starts : (tree.free.map start).Nodup
  reserved : ∀ node ∈ tree.free, addressOf machine node + listSize ≤ machine.memBrk
  rings : Rings machine.pred machine.succ (Active tree) (bucketList machine) (members machine tree)

theorem members_push (machine : State) (tree : Tree) (node : TreeNode) :
    members machine (tree.push node) = Function.update (members machine tree) (bucketOf node)
      (members machine tree (bucketOf node) ++ [addressOf machine node]) := by
  funext bucket
  unfold members Tree.listed Tree.push
  rw [List.filter_append, List.map_append]
  by_cases same : bucket = bucketOf node
  · rw [same, Function.update_self, List.filter_cons_of_pos (by simp)]
    rfl
  · rw [Function.update_of_ne same, List.filter_cons_of_neg (by simpa using Ne.symm same)]
    exact List.append_nil _

theorem members_erase (machine : State) {tree : Tree} (starts : (tree.free.map start).Nodup)
    (member : node ∈ tree.free) :
    members machine (tree.erase node) = Function.update (members machine tree) (bucketOf node)
      ((members machine tree (bucketOf node)).erase (addressOf machine node)) := by
  funext bucket
  have addresses : (members machine tree (bucketOf node)).Nodup := by
    rw [members]
    apply List.Nodup.map_on
    · intro first firstMem second secondMem same
      exact List.inj_on_of_nodup_map starts (List.mem_filter.mp firstMem).1
        (List.mem_filter.mp secondMem).1 (Nat.add_left_cancel same)
    · exact (List.Nodup.of_map _ starts).filter _
  unfold members Tree.listed Tree.erase at *
  rw [(List.Nodup.of_map _ starts).erase_eq_filter, List.filter_filter]
  by_cases same : bucket = bucketOf node
  · rw [same, Function.update_self, addresses.erase_eq_filter, List.filter_map, List.filter_filter]
    congr 1
    apply List.filter_congr
    intro other otherMem
    have injective : addressOf machine other = addressOf machine node ↔ other = node :=
      ⟨fun equal => List.inj_on_of_nodup_map starts otherMem member (Nat.add_left_cancel equal),
        fun equal => by rw [equal]⟩
    rw [Bool.eq_iff_iff]
    simp [injective, and_comm]
  · rw [Function.update_of_ne same]
    congr 1
    apply List.filter_congr
    intro other _
    have elsewhere : bucketOf other = bucket → other ≠ node := fun inBucket equal =>
      same (by rw [← inBucket, equal])
    simpa using elsewhere

theorem Storage.same (storage : Storage machine)
    (start : after.memStartBrk = machine.memStartBrk) (brk : after.memBrk = machine.memBrk)
    (max : after.memMaxAddr = machine.memMaxAddr) (statics : after.statics = machine.statics) :
    Storage after where
  base := by rw [statics, start, storage.base]
  positive := start ▸ storage.positive
  aligned := start ▸ storage.aligned
  addressable := start ▸ storage.addressable
  started := start ▸ brk ▸ storage.started
  bounded := brk ▸ max ▸ storage.bounded
  arena := by rw [max, start, storage.arena]
  array := statics ▸ storage.array
  arrayEnd := statics ▸ storage.arrayEnd
  apart := statics ▸ start ▸ max ▸ storage.apart

/-- Roots of up to 64 megabytes span no wrap. -/
theorem Storage.spans (storage : Storage machine) (small : 5 ≤ bucket) :
    Spans machine.memStartBrk bucket := by
  have addressable := storage.addressable
  have aligned := storage.aligned
  have extent : extentOf bucket ≤ 2 ^ 26 + 1 := extentOf_mono small
  unfold listSize at addressable
  exact ⟨by omega, fun _ => by unfold listSize; omega⟩

theorem slot_bucketList (machine : State) (inside : bucket < bucketCount) :
    Slot machine (bucketList machine bucket) := .inl ⟨bucket, inside, rfl⟩

theorem slot_node (range : InRange node)
    (reserved : addressOf machine node + listSize ≤ machine.memBrk) :
    Slot machine (addressOf machine node) :=
  .inr ⟨node.start, range.start_mod, rfl, reserved⟩

namespace Lists

variable (lists : Lists machine tree)

include lists

/-- Everything that is linked is a list head or a free node. -/
theorem slot (linked : IsLinked machine tree address) : Slot machine address := by
  rcases linked with ⟨bucket, active, member⟩
  rcases List.mem_cons.mp member with rfl | inside
  · exact slot_bucketList machine active.2
  · rcases List.mem_map.mp inside with ⟨node, listed, rfl⟩
    have free := (List.mem_filter.mp listed).1
    exact slot_node (lists.inRange node free).1 (lists.reserved node free)

/-- The static array shares no byte with the arena. -/
theorem array_apart (inside : bucket < bucketCount) {offset : Nat} (small : offset < maxHeap) :
    machine.memStartBrk + offset < bucketList machine bucket ∨
      bucketList machine bucket + listSize ≤ machine.memStartBrk + offset := by
  have apart := lists.storage.apart
  have arena := lists.storage.arena
  unfold bucketList listSize at *
  omega

theorem node_offset (reserved : addressOf machine node + listSize ≤ machine.memBrk) :
    node.start < maxHeap := by
  have bounded := lists.storage.bounded
  have arena := lists.storage.arena
  unfold addressOf listSize at reserved
  omega

/-- A byte outside the free nodes' links is outside of everything linked. -/
theorem away {offset : Nat} (small : offset < maxHeap)
    (outside : ∀ begin, tree.Begins begin → offset < begin ∨ begin + listSize ≤ offset)
    (linked : IsLinked machine tree address) :
    machine.memStartBrk + offset < address ∨ address + 8 ≤ machine.memStartBrk + offset := by
  rcases linked with ⟨bucket, active, member⟩
  rcases List.mem_cons.mp member with rfl | inside
  · exact lists.array_apart active.2 small
  · rcases List.mem_map.mp inside with ⟨node, listed, rfl⟩
    have apart := outside node.start ⟨node, (List.mem_filter.mp listed).1, rfl⟩
    unfold addressOf
    unfold listSize at apart
    omega

/-- A node that begins where no free node begins is not linked. -/
theorem not_linked (reserved : addressOf machine node + listSize ≤ machine.memBrk)
    (fresh : ∀ other ∈ tree.free, other.start ≠ node.start) :
    ¬IsLinked machine tree (addressOf machine node) := by
  rintro ⟨bucket, active, member⟩
  rcases List.mem_cons.mp member with isHead | inside
  · have apart := lists.array_apart active.2 (lists.node_offset reserved)
    unfold addressOf listSize at *
    omega
  · rcases List.mem_map.mp inside with ⟨other, listed, same⟩
    exact fresh other (List.mem_filter.mp listed).1 (Nat.add_left_cancel same)

omit lists in
/-- Bytes that no list uses do not matter. -/
theorem frame (lists : Lists machine tree) (start : after.memStartBrk = machine.memStartBrk)
    (brk : after.memBrk = machine.memBrk) (max : after.memMaxAddr = machine.memMaxAddr)
    (statics : after.statics = machine.statics)
    (bytes : ∀ address, IsLinked machine tree address → ∀ byte, address ≤ byte →
      byte < address + 8 → after.bytes byte = machine.bytes byte) : Lists after tree where
  storage := lists.storage.same start brk max statics
  limit_lt := lists.limit_lt
  inRange := lists.inRange
  starts := lists.starts
  reserved node member := by
    rw [addressOf, start, brk]
    exact lists.reserved node member
  rings := by
    have heads : bucketList after = bucketList machine := by
      funext bucket
      rw [bucketList, statics]
      rfl
    have sameMembers : members after tree = members machine tree := by
      funext bucket
      have addresses : addressOf after = addressOf machine := by
        funext node
        rw [addressOf, start]
        rfl
      rw [members, addresses]
      rfl
    rw [heads, sameMembers]
    apply lists.rings.congr
    · exact fun address linked => (Machine.links_congr (bytes address linked)).2
    · exact fun address linked => (Machine.links_congr (bytes address linked)).1

/-- `list_push` on the list of the bucket of a new free node. -/
theorem push (range : InRange node) (inside : tree.limit ≤ bucketOf node)
    (fresh : ∀ other ∈ tree.free, other.start ≠ node.start)
    (reserved : addressOf machine node + listSize ≤ machine.memBrk) :
    Ensures (listPush (bucketList machine (bucketOf node)) (addressOf machine node)) machine
      fun _ after => Lists after (tree.push node) ∧
        Relinks (tree.push node).Begins machine after := by
  have rings := lists.rings
  have storage := lists.storage
  have isActive : Active tree (bucketOf node) := ⟨inside, range.bucket_lt⟩
  have isList := slot_bucketList machine range.bucket_lt
  have isEntry := slot_node range reserved
  have prevLinked : IsLinked machine tree (machine.pred (bucketList machine (bucketOf node))) :=
    ⟨_, isActive, rings.pred_head_mem isActive⟩
  have isPrev := lists.slot prevLinked
  have notLinked := lists.not_linked reserved fresh
  rw [ensures_listPush isList isEntry isPrev]
  have links : ∀ address, Slot machine address → _ := fun address slot =>
    @pushed_links machine _ _ _ _ (isEntry.separate storage slot) (isPrev.separate storage slot)
      (isList.separate storage slot) (isEntry.bounds storage).2 (isList.bounds storage).2
      (isPrev.bounds storage).2
  have known : ∀ address, address = addressOf machine node ∨ IsLinked machine tree address →
      Slot machine address := by
    rintro address (rfl | linked)
    · exact isEntry
    · exact lists.slot linked
  constructor
  · refine ⟨storage.same rfl rfl rfl rfl, lists.limit_lt, ?_, ?_, ?_, ?_⟩
    · intro other member
      rcases List.mem_append.mp member with old | new
      · exact lists.inRange other old
      · rw [List.mem_singleton.mp new]
        exact ⟨range, inside⟩
    · rw [Tree.push, List.map_append, List.map_singleton]
      apply (List.perm_append_singleton _ _).symm.nodup
      refine List.nodup_cons.mpr ⟨fun member => ?_, lists.starts⟩
      rcases List.mem_map.mp member with ⟨other, listed, same⟩
      exact fresh other listed same
    · intro other member
      rcases List.mem_append.mp member with old | new
      · exact lists.reserved other old
      · rw [List.mem_singleton.mp new]
        exact reserved
    · change Rings _ _ (Active tree) (bucketList machine) (members machine (tree.push node))
      rw [members_push]
      apply rings.push isActive notLinked
      · exact fun address linked => (links address (known address linked)).1
      · exact fun address linked => (links address (known address linked)).2
  · refine ⟨rfl, rfl, rfl, rfl, fun offset small outside => ?_⟩
    have oldOutside : ∀ begin, tree.Begins begin → offset < begin ∨ begin + listSize ≤ offset := by
      rintro begin ⟨other, member, same⟩
      exact outside begin ⟨other, List.mem_append_left _ member, same⟩
    have fromEntry := outside node.start ⟨node, List.mem_append_right _ (List.mem_singleton_self _), rfl⟩
    have fromList := lists.array_apart range.bucket_lt small
    have fromPrev := lists.away small oldOutside prevLinked
    unfold listSize at fromEntry fromList
    rw [pushed, Machine.setPred_bytes (by omega), Machine.setSucc_bytes fromPrev,
      Machine.setSucc_bytes (by unfold addressOf; omega), Machine.setPred_bytes (by unfold addressOf; omega)]

/-- `list_remove` of a free node. -/
theorem remove (member : node ∈ tree.free) :
    Ensures (listRemove (addressOf machine node)) machine fun _ after =>
      Lists after (tree.erase node) ∧ Relinks tree.Begins machine after := by
  have rings := lists.rings
  have storage := lists.storage
  have range := (lists.inRange node member).1
  have isActive : Active tree (bucketOf node) := ⟨(lists.inRange node member).2, range.bucket_lt⟩
  have inRing : addressOf machine node ∈ members machine tree (bucketOf node) :=
    List.mem_map_of_mem (List.mem_filter.mpr ⟨member, decide_eq_true rfl⟩)
  have neighbours := rings.neighbours_mem isActive inRing
  have isEntry := slot_node range (lists.reserved node member)
  have prevLinked : IsLinked machine tree (machine.pred (addressOf machine node)) :=
    ⟨_, isActive, neighbours.1⟩
  have nextLinked : IsLinked machine tree (machine.succ (addressOf machine node)) :=
    ⟨_, isActive, neighbours.2⟩
  have isPrev := lists.slot prevLinked
  have isNext := lists.slot nextLinked
  rw [ensures_listRemove isEntry isPrev isNext]
  have links : ∀ address, IsLinked machine tree address → _ := fun address linked =>
    @bridged_links machine _ _ _ (isPrev.separate storage (lists.slot linked))
      (isNext.separate storage (lists.slot linked)) (isPrev.bounds storage).2
      (isNext.bounds storage).2
  constructor
  · refine ⟨storage.same rfl rfl rfl rfl, lists.limit_lt, ?_, ?_, ?_, ?_⟩
    · exact fun other inside => lists.inRange other (List.mem_of_mem_erase inside)
    · exact lists.starts.sublist (List.erase_sublist.map _)
    · exact fun other inside => lists.reserved other (List.mem_of_mem_erase inside)
    · change Rings _ _ (Active tree) (bucketList machine) (members machine (tree.erase node))
      rw [members_erase machine lists.starts member]
      apply rings.remove isActive inRing
      · exact fun address linked => (links address linked).1
      · exact fun address linked => (links address linked).2
  · refine ⟨rfl, rfl, rfl, rfl, fun offset small outside => ?_⟩
    rw [bridged, Machine.setPred_bytes (lists.away small outside nextLinked),
      Machine.setSucc_bytes (lists.away small outside prevLinked)]

/-- `list_init` on the bucket of the next root. -/
theorem opened (positive : 0 < tree.limit) :
    Ensures (listInit (bucketList machine (tree.limit - 1))) machine fun _ after =>
      Lists after ⟨tree.limit - 1, tree.free⟩ ∧ Relinks (fun _ => False) machine after := by
  have storage := lists.storage
  have inside : tree.limit - 1 < bucketCount := (Nat.sub_le _ _).trans_lt lists.limit_lt
  have isList := slot_bucketList machine inside
  rw [ensures_listInit isList]
  have links : ∀ address, Slot machine address → _ := fun address slot =>
    @emptied_links machine _ _ (isList.separate storage slot) (isList.bounds storage).2
  have notLinked : ¬IsLinked machine tree (bucketList machine (tree.limit - 1)) := by
    rintro ⟨bucket, active, member⟩
    rcases List.mem_cons.mp member with isHead | isMember
    · have above := active.1
      unfold bucketList listSize at isHead
      omega
    · rcases List.mem_map.mp isMember with ⟨node, listed, same⟩
      have free := (List.mem_filter.mp listed).1
      have apart := lists.array_apart inside (lists.node_offset (lists.reserved node free))
      unfold addressOf listSize at *
      omega
  have different : ∀ address, IsLinked machine tree address →
      address ≠ bucketList machine (tree.limit - 1) := fun address linked same =>
    notLinked (same ▸ linked)
  constructor
  · refine ⟨storage.same rfl rfl rfl rfl, inside, ?_, lists.starts, lists.reserved, ?_⟩
    · intro node member
      have old := lists.inRange node member
      exact ⟨old.1, (Nat.sub_le _ _).trans old.2⟩
    · have wider : Active ⟨tree.limit - 1, tree.free⟩ = fun bucket =>
          bucket = tree.limit - 1 ∨ Active tree bucket := by
        funext bucket
        have limit := lists.limit_lt
        unfold Active
        apply propext
        simp only
        omega
      rw [wider]
      apply lists.rings.opened
      · rw [members, Tree.listed, List.filter_eq_nil_iff.mpr, List.map_nil]
        intro node member inBucket
        have above := (lists.inRange node member).2
        have equal := of_decide_eq_true inBucket
        omega
      · exact notLinked
      · exact (links _ isList).1.trans (if_pos rfl)
      · exact (links _ isList).2.trans (if_pos rfl)
      · intro address linked
        exact (links address (lists.slot linked)).1.trans (if_neg (different address linked))
      · intro address linked
        exact (links address (lists.slot linked)).2.trans (if_neg (different address linked))
  · refine ⟨rfl, rfl, rfl, rfl, fun offset small _ => ?_⟩
    have apart := lists.array_apart inside small
    unfold listSize at apart
    rw [emptied, Machine.setSucc_bytes apart, Machine.setPred_bytes apart]

section Pop

variable (inside : tree.limit ≤ bucket) (bounded : bucket < bucketCount)

include inside bounded

theorem pop_none (last : tree.last? bucket = none) :
    Ensures (listPop (bucketList machine bucket)) machine fun ptr after =>
      ptr = null ∧ after = machine := by
  have empty : members machine tree bucket = [] := by
    rw [members, List.getLast?_eq_none_iff.mp last, List.map_nil]
  have same := lists.rings.pred_head_of_empty ⟨inside, bounded⟩ empty
  simp only [listPop, ensures_bind, ensures_getPrev, same, if_true, ensures_pure]
  exact ⟨(slot_bucketList machine bounded).linkable.1, trivial, trivial⟩

/-- `list_pop` takes the node that was pushed last. -/
theorem pop_some (last : tree.last? bucket = some node) :
    Ensures (listPop (bucketList machine bucket)) machine fun ptr after =>
      ptr = addressOf machine node ∧ Lists after (tree.erase node) ∧
        Relinks tree.Begins machine after := by
  have member := Tree.mem_of_last? last
  rcases List.getLast?_eq_some_iff.mp last with ⟨front, shape⟩
  have atEnd : members machine tree bucket =
      front.map (addressOf machine) ++ [addressOf machine node] := by
    rw [members, shape, List.map_append, List.map_singleton]
  have back := lists.rings.pred_head_of_last ⟨inside, bounded⟩ atEnd
  have removed := lists.remove member.1
  rw [listPop, ensures_bind, ensures_getPrev, back.1, if_neg back.2, ensures_bind]
  refine ⟨(slot_bucketList machine bounded).linkable.1, removed.mono fun _ after holds => ?_⟩
  rw [ensures_pure]
  exact ⟨rfl, holds⟩

end Pop

end Lists

end MallocLab.Buddy
