import MallocLab.Buddy.Growth

/-! # `mm_init` -/

namespace MallocLab.Buddy

open Program TreeNode

variable {machine after : State} {offset : Nat}

/-- The arena is empty and lies apart from the array `buckets`, and the first 64
megabytes of the address range that follows `base_ptr` do not wrap. Nothing is said
about what the arena and the other static variables hold. -/
structure Site (machine : State) : Prop where
  empty : machine.Empty
  addressable : machine.memStartBrk + 2 ^ 26 + listSize < 2 ^ 32
  array : 0 < machine.statics.buckets
  arrayEnd : machine.statics.buckets + listSize * bucketCount ≤ 2 ^ 32
  apart : machine.statics.buckets + listSize * bucketCount ≤ machine.memStartBrk ∨
    machine.memMaxAddr ≤ machine.statics.buckets

/-- Besides, the sum `base_ptr + MAX_ALLOC` does not wrap, so that no address of any
node does. -/
structure Arena (machine : State) : Prop extends Site machine where
  whole : machine.memStartBrk + maxAlloc < 2 ^ 32

/-- Where a 32-bit program may be given its arena, `base_ptr + MAX_ALLOC` does wrap. -/
example : Site (memInit 0xF6000008 (fun _ => 0) ⟨1024, 0, fun _ => 0, 0, 0⟩ : State) :=
  ⟨⟨by decide, by decide, rfl, rfl, by decide⟩, by decide, by decide, by decide, .inl (by decide)⟩

/-- The machine after the first assignments of `mm_init`. -/
def based (machine : State) : State :=
  machine.setStatics { machine.statics with
    basePtr := machine.memBrk
    maxPtr := machine.memBrk
    bucketLimit := bucketCount - 1 }

theorem Site.storage (site : Site machine) : Storage (based machine) where
  base := site.empty.noneUsed
  positive := site.empty.positive
  aligned := site.empty.startAligned
  addressable := site.addressable
  started := site.empty.noneUsed.ge
  bounded := by
    have none := site.empty.noneUsed
    have whole := site.empty.arena
    change machine.memBrk ≤ machine.memMaxAddr
    omega
  arena := site.empty.arena
  array := site.array
  arrayEnd := site.arrayEnd
  apart := site.apart

/-- `list_init` makes the first list. -/
theorem ensures_firstList (storage : Storage machine) :
    Ensures (listInit (bucketList machine (bucketCount - 1))) machine fun _ after =>
      Lists after ⟨bucketCount - 1, []⟩ ∧ Relinks (fun _ => False) machine after := by
  have inside : bucketCount - 1 < bucketCount := by decide
  have isList := slot_bucketList machine inside
  have links := @emptied_links machine _ _ (isList.separate storage isList) (isList.bounds storage).2
  rw [if_pos rfl, if_pos rfl] at links
  rw [ensures_listInit isList]
  constructor
  · refine ⟨storage.same rfl rfl rfl rfl, inside, by simp, by simp, by simp, ⟨?_, ?_, ?_⟩⟩
    · rintro bucket ⟨low, high⟩
      obtain rfl : bucket = bucketCount - 1 := Nat.le_antisymm (Nat.le_sub_one_of_lt high) low
      exact ⟨links.1, links.2, trivial⟩
    · exact fun bucket _ => List.nodup_singleton _
    · rintro first second ⟨firstLow, firstHigh⟩ ⟨secondLow, secondHigh⟩ different
      simp only at firstLow secondLow
      omega
  · refine ⟨rfl, rfl, rfl, rfl, fun offset small _ => ?_⟩
    have apart := storage.apart
    have arena := storage.arena
    unfold emptied bucketList listSize at *
    rw [Machine.setSucc_bytes (by omega), Machine.setPred_bytes (by omega)]

/-- `mm_init` gives a tree of one free node, with the bits the array held
before. -/
theorem ensures_mmInit (site : Site machine) :
    Ensures mmInit machine fun result after =>
      result = 0 ∧ Lists after Tree.initial ∧ after.statics.bucketLimit = bucketCount - 1 ∧
        after.statics.nodeIsSplit = machine.statics.nodeIsSplit ∧
        after.memBrk ≤ after.memStartBrk + extentOf Tree.initial.limit ∧
        Keeps (fun offset => offset = 0) machine after := by
  have storage := site.storage
  have base : (based machine).statics.basePtr = (based machine).memStartBrk := storage.base
  have isBrk : machine.nextBrk 0 = machine.memBrk := by
    rw [Machine.nextBrk, Int.toNat_zero, Nat.add_zero]
    have bounded := storage.bounded
    have whole := storage.arena
    have addressable := storage.addressable
    have heap : maxHeap < 2 ^ 26 := by decide
    apply wrap_of_lt
    change (based machine).memBrk < _
    omega
  have granted : machine.nextBrk 0 ≤ machine.memMaxAddr := isBrk.le.trans storage.bounded
  have word : (based machine).memStartBrk + listSize + 1 < 2 ^ 32 := by
    have addressable := storage.addressable
    unfold listSize at *
    omega
  have position : wrap ((based machine).memStartBrk + listSize) =
      (based machine).memStartBrk + listSize := wrap_of_lt (Nat.lt_of_succ_lt word)
  simp only [mmInit, startTree, ensures_bind, memSbrk_granted (le_refl 0) granted, isBrk, setMaxPtr,
    setBasePtr, ensures_statics, ensures_setStatics, ensures_setBucketLimit, ensures_pure]
  change Ensures (updateMaxPtr (wrap ((based machine).statics.basePtr + listSize))) (based machine) _
  rw [base, position]
  apply (ensures_updateMaxPtr storage word).mono
  intro reached reserved reserves
  have reservedStorage := storage.carry reserves.same
  have below := reserves.reserved (show listSize < maxHeap by decide)
  rw [ensures_bucketAt]
  apply (ensures_firstList reservedStorage).mono
  rintro _ cleared ⟨lists, relinks⟩
  have range : InRange (root (bucketCount - 1)) := inRange_root (by decide)
  have bucket : bucketOf (root (bucketCount - 1)) = bucketCount - 1 := by decide
  have linked : addressOf cleared (root (bucketCount - 1)) + listSize ≤ cleared.memBrk := by
    rw [addressOf_root, relinks.start, relinks.brk, reserves.same.start]
    exact below.le
  have pushing := lists.push range (by decide) (by simp) linked
  rw [bucket, addressOf_root] at pushing
  rw [ensures_bucketAt, lists.storage.base]
  apply pushing.mono
  rintro _ after ⟨pushed, pushedRelinks⟩
  refine ⟨trivial, pushed, ?_, ?_, ?_, ?_⟩
  · rw [pushedRelinks.statics, relinks.statics, reserves.limit]
    rfl
  · rw [pushedRelinks.statics, relinks.statics, reserves.bits]
    rfl
  · rw [pushedRelinks.brk, relinks.brk, pushedRelinks.start, relinks.start, reserves.same.start]
    rcases reserves.extent with same | ⟨_, taken⟩
    · have none := site.empty.noneUsed
      exact same.trans (none.le.trans (Nat.le_add_right _ _))
    · have whole : listSize + 1 ≤ extentOf Tree.initial.limit := by decide
      exact taken.trans (Nat.add_le_add_left whole _)
  · have first : Keeps (fun offset => offset = 0) machine (based machine) :=
      ⟨rfl, rfl, le_refl _, rfl, fun _ _ _ => rfl⟩
    apply first.trans ((reserves.same.keeps _).trans _)
    apply (relinks.keeps.mono fun _ => False.elim).trans
    apply pushedRelinks.keeps.mono
    rintro offset ⟨node, member, rfl⟩
    obtain rfl : node = root (bucketCount - 1) := by simpa [Tree.push] using member
    exact root_start _

/-- With the array zeroed as at program start, `mm_init` represents the initial
tree. -/
theorem ensures_mmInit_zeroed (site : Site machine) (zeroed : Marked machine []) :
    Ensures mmInit machine fun result after =>
      result = 0 ∧ Represents after Tree.initial [] ∧ Keeps (fun offset => offset = 0) machine after := by
  apply (ensures_mmInit site).mono
  rintro result after ⟨isZero, lists, limit, bits, extent, kept⟩
  have spans : Spans after.memStartBrk Tree.initial.limit := lists.storage.spans (by decide)
  exact ⟨isZero, ⟨⟨lists, marked_root.mpr (zeroed.congr bits), limit, extent, spans⟩, .initial⟩, kept⟩

end MallocLab.Buddy
