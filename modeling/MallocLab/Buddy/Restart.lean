import MallocLab.Buddy.Replies
import MallocLab.Buddy.Stale
import Mathlib.Data.Nat.Find

/-! # Starting again

Between two runs the driver takes the break back and calls `mm_init`. The lists
are made anew, and the bits stay as the run left them.
-/

namespace MallocLab.Buddy

open Program TreeNode

variable {machine again start fresh : State} {tree : Tree} {client : Client Statics}
  {blocks : List (TreeNode × Nat)} {marks : List Nat} {bucket request limit : Nat}

/-- `mem_reset_brk` and `mm_init`. -/
def restart : Program State Int := do
  memResetBrk
  mmInit

/-- What can come before a restart, with requests that are spanned. Restarts with no
live block may be among it. -/
inductive History : Client Statics → Prop
  | init {machine after : State} : Site machine →
      (∀ byte, machine.statics.nodeIsSplit byte = 0) → mmInit machine = some (0, after) →
      History ⟨after, []⟩
  | step {client next : Client Statics} {step : Step} {reply : Option Int} :
      History client → Does client step reply next → step.Spanned client.machine.memStartBrk →
      History next
  | restart {client : Client Statics} {after : State} : History client → client.live = [] →
      restart client.machine = some (0, after) → History ⟨after, []⟩

/-! ## The machine after a restart -/

/-- With the break taken back the arena is empty again. -/
theorem Storage.site_reset (storage : Storage machine) :
    Site (machine.setBrk machine.memStartBrk) where
  empty := by
    have addressable := storage.addressable
    have arena := storage.arena
    have heap : maxHeap < 2 ^ 26 := by decide
    refine ⟨storage.positive, storage.aligned, rfl, arena, ?_⟩
    change machine.memMaxAddr < _
    omega
  addressable := storage.addressable
  array := storage.array
  arrayEnd := storage.arrayEnd
  apart := storage.apart

/-- After a restart the lists are those of the initial tree, and the bits those of
the tree before. -/
theorem Represents.ensures_restart {used : List TreeNode} (represents : Represents machine tree used) :
    Ensures restart machine fun result again =>
      result = 0 ∧ Tracks again Tree.initial tree.restingMarks := by
  have tracks := represents.tracks
  rw [restart, ensures_bind, memResetBrk, ensures_change]
  apply (ensures_mmInit tracks.lists.storage.site_reset).mono
  rintro result again ⟨isZero, lists, limit, bits, extent, _⟩
  exact ⟨isZero, lists, tracks.marked.congr bits, limit, extent, lists.storage.spans (by decide)⟩

/-- A tree without used nodes leaves no bit behind. -/
theorem Tracks.initial_of_unused (tracks : Tracks again Tree.initial tree.restingMarks)
    (valid : tree.Valid []) : Holds ⟨again, []⟩ Tree.initial [] := by
  have unmarked : Marked again [] := by
    have marked := tracks.marked
    rw [valid.eq_whole] at marked
    exact marked_root.mp marked
  have represents : Represents again Tree.initial [] :=
    ⟨⟨tracks.lists, marked_root.mpr unmarked, tracks.limit, tracks.extent, tracks.spans⟩, .initial⟩
  exact ⟨represents, rfl, by simp [Backed], by simp, by simp⟩

/-- The first `mm_init` holds the initial tree. -/
theorem holds_initial (site : Site start)
    (zeroed : ∀ byte, start.statics.nodeIsSplit byte = 0) (returned : mmInit start = some (0, fresh)) :
    Holds ⟨fresh, []⟩ Tree.initial [] :=
  ((ensures_served site (marked_zeroed zeroed)).of_eq returned).2.1.holds

namespace Holds

variable (holds : Holds client tree blocks)

include holds

theorem live_eq_nil : client.live = [] ↔ blocks = [] := by
  rw [holds.live, List.map_eq_nil_iff]

theorem ensures_restart_clean (none : client.live = []) :
    Ensures restart client.machine fun result again =>
      result = 0 ∧ Holds ⟨again, []⟩ Tree.initial [] := by
  have unused : blocks.map Prod.fst = [] := by rw [holds.live_eq_nil.mp none, List.map_nil]
  apply holds.represents.ensures_restart.mono
  rintro result again ⟨isZero, tracks⟩
  exact ⟨isZero, tracks.initial_of_unused (unused ▸ holds.represents.valid)⟩

end Holds

theorem History.holds (history : History client) : ∃ tree blocks, Holds client tree blocks := by
  induction history with
  | init site zeroed returned => exact ⟨_, _, holds_initial site zeroed returned⟩
  | step _ does spanned induction =>
      rcases induction with ⟨tree, blocks, holds⟩
      have alike : Alike _ _ _ _ := ⟨rfl, rfl, tree, blocks, holds, holds⟩
      rcases alike.does ⟨spanned, spanned⟩ does with ⟨_, _, _, _, tree, blocks, next, _⟩
      exact ⟨tree, blocks, next⟩
  | restart _ none returned induction =>
      rcases induction with ⟨tree, blocks, holds⟩
      exact ⟨_, _, ((holds.ensures_restart_clean none).of_eq returned).2⟩

/-! ## Blocks that were live -/

/-- A tree in use reaches beyond the middle of its root, and so it cannot be much
larger than the arena. -/
theorem Holds.limit_large (holds : Holds client tree blocks) (inUse : blocks ≠ []) :
    6 ≤ tree.limit := by
  by_contra small
  have valid := holds.represents.valid
  have storage := holds.represents.tracks.lists.storage
  have bounded := storage.bounded
  have arena := storage.arena
  have heap : maxHeap = 20971520 := by decide
  have positive : 0 < (root tree.limit).exponent := by
    rw [root_exponent]
    omega
  have half : (2 : Nat) ^ 25 ≤ (root tree.limit).right.start := by
    have power : (2 : Nat) ^ 25 ≤ 2 ^ (31 - tree.limit - 1) :=
      Nat.pow_le_pow_right (by decide) (by omega)
    rw [right_start positive, root_start, size_eq_double positive,
      Nat.mul_div_cancel_left _ (by decide : 0 < 2), root_exponent]
    omega
  have member := (right_within positive).mem (root tree.limit).right.mem_start
  rcases (valid.tiles.covers _).mp member with ⟨node, listed, inside⟩
  have ends : node.start + listSize ≤ maxHeap := by
    have range := valid.inRange listed
    have large : 2 ^ 4 ≤ node.size := Nat.pow_le_pow_right (by decide) range.large
    rcases List.mem_append.mp listed with free | used
    · have reserved := holds.represents.tracks.lists.reserved node free
      unfold addressOf at reserved
      omega
    · have backed := holds.backed node used
      unfold addressOf at backed
      unfold listSize
      omega
  by_cases whole : node = root tree.limit
  · subst whole
    rcases List.mem_append.mp listed with free | used
    · exact inUse (List.map_eq_nil_iff.mp (valid.of_root_free free).2)
    · have backed := holds.backed _ used
      have tall := inside.2
      unfold addressOf at backed
      unfold TreeNode.limit at tall
      omega
  · rcases ((valid.within listed).half whole).2 with inLeft | inRight
    · have apart := (inLeft.apart (left_apart_right (root tree.limit))).not_mem inside
      exact apart (root tree.limit).right.mem_start
    · have low := inRight.1
      omega

/-- The largest root below which no bit is set. -/
theorem Tracks.staleAt (tracks : Tracks again Tree.initial marks) (positive : 0 < limit)
    (inside : limit < bucketCount) (set : splitBit again (parentIndex (root limit)) = true) :
    ∃ bucket, limit ≤ bucket + 1 ∧ StaleAt again marks bucket := by
  have count : bucketCount = 28 := rfl
  let IsSet := fun other => splitBit again (parentIndex (root other)) = true
  have bounded : limit ≤ 27 := by omega
  have reaches : limit ≤ Nat.findGreatest IsSet 27 := Nat.le_findGreatest bounded set
  have atMost : Nat.findGreatest IsSet 27 ≤ 27 := Nat.findGreatest_le 27
  have next : Nat.findGreatest IsSet 27 - 1 + 1 = Nat.findGreatest IsSet 27 := by omega
  refine ⟨Nat.findGreatest IsSet 27 - 1, by omega, tracks, by omega, ?_, ?_⟩
  · rw [next]
    exact Nat.findGreatest_spec (P := IsSet) bounded set
  · rw [next]
    intro other above below
    exact Bool.eq_false_of_not_eq_true (Nat.findGreatest_is_greatest above (by omega))

/-- The bit above the root of a tree in use is such a bit. -/
theorem Holds.ensures_restart_stale (holds : Holds client tree blocks) (inUse : client.live ≠ []) :
    Ensures restart client.machine fun result again =>
      result = 0 ∧ ∃ bucket marks, tree.limit ≤ bucket + 1 ∧ StaleAt again marks bucket := by
  have some : blocks ≠ [] := fun none => inUse (holds.live_eq_nil.mpr none)
  have positive : 0 < tree.limit := Nat.zero_lt_of_lt (holds.limit_large some)
  have valid := holds.represents.valid
  have isUsed : root tree.limit ∉ tree.free := fun free =>
    some (List.map_eq_nil_iff.mp (valid.of_root_free free).2)
  have set := holds.represents.root_bit positive
  rw [decide_eq_true isUsed] at set
  apply holds.represents.ensures_restart.mono
  rintro result again ⟨isZero, tracks⟩
  have below := (inRange_root valid.limit_lt).parentIndex_lt
  have same : splitBit again (parentIndex (root tree.limit)) = true := by
    rw [tracks.marked _ (by omega), ← holds.represents.tracks.marked _ (by omega), set]
  rcases tracks.staleAt positive valid.limit_lt same with ⟨bucket, low, stale⟩
  exact ⟨isZero, bucket, _, low, stale⟩

/-! ## What tells the machines apart -/

theorem Tree.obtain_refused (inside : limit < bucketCount)
    (refused : ¬(6 ≤ limit ∧ 7 ≤ firstBucket request)) :
    Tree.obtain maxHeap request (Tree.whole limit) =
      (none, Tree.whole (min (firstBucket request) limit)) := by
  have fits := Tree.fits_root_iff _ (firstBucket_lt request) (min (firstBucket request) limit)
    (min_le_left _ _)
  rw [Tree.obtain, Tree.search_whole inside, Tree.use_whole, if_neg]
  rw [fits]
  omega

/-- A free tree that is not too large serves small requests at its start. -/
theorem Tree.obtain_granted (inside : limit < bucketCount) (large : 6 ≤ limit)
    (small : 7 ≤ firstBucket request) :
    (Tree.obtain maxHeap request (Tree.whole limit)).1.map
      (fun node => ((node.start + headerSize : Nat) : Int)) = some 8 := by
  have bounded := firstBucket_lt request
  have fits := Tree.fits_root_iff _ bounded (min (firstBucket request) limit) (min_le_left _ _)
  have lowered : min (firstBucket request) limit < bucketCount := (min_le_left _ _).trans_lt bounded
  have enough : firstBucket request - bucketOf (root (min (firstBucket request) limit)) ≤
      (root (min (firstBucket request) limit)).exponent := by
    have count : bucketCount = 28 := rfl
    rw [bucketOf_root lowered, root_exponent]
    omega
  rw [Tree.obtain, Tree.search_whole inside, Tree.use_whole, if_pos (fits.mpr (by omega)),
    Option.map_some, Tree.leftmost_start _ _ enough, root_start]
  rfl

/-- Requests of up to 64 megabytes are spanned. -/
theorem Holds.spanned (holds : Holds client tree blocks) (small : 5 ≤ firstBucket request) :
    Spanned client.machine.memStartBrk request :=
  fun _ => holds.represents.tracks.lists.storage.spans small

theorem Holds.does_malloc (holds : Holds client tree blocks) (word : request < 2 ^ 32)
    (accepted : wrap (request + headerSize) ≤ maxAlloc) (small : 5 ≤ firstBucket request) :
    ∃ next, Does client (.malloc request) ((Tree.obtain maxHeap request tree).1.map
        fun node => ((node.start + headerSize : Nat) : Int)) next ∧
      ∃ after, Holds next (Tree.obtain maxHeap request tree).2 after := by
  rcases holds.malloc word accepted (holds.spanned small accepted) with
    ⟨ptr, after, returned, allocated, _, next⟩
  refine ⟨_, ?_, _, next⟩
  rw [← holds.reply allocated]
  exact .malloc word returned

theorem Does.of_malloc {client next : Client Statics} {reply : Option Int}
    (does : Does client (.malloc request) reply next) :
    ∃ ptr, mmMalloc request client.machine = some (ptr, next.machine) ∧
      reply = offsetOf client.machine ptr := by
  cases does with
  | malloc _ returned => exact ⟨_, returned, rfl⟩

section Fresh

variable (holds : Holds ⟨fresh, []⟩ Tree.initial [])

include holds

theorem fresh_granted (large : 7 ≤ bucket) (inside : bucket < bucketCount) :
    Replies ⟨fresh, []⟩ [.malloc (largestRequest bucket)] [some 8] := by
  have accepted := largestRequest_accepted inside
  have first := (largestRequest_spec inside).2
  rcases holds.does_malloc accepted.1 accepted.2 (by omega) with ⟨next, does, _⟩
  rw [Tree.initial_eq, Tree.obtain_granted (by decide) (by decide) (by omega)] at does
  exact ⟨next, .cons does (.nil next)⟩

/-- The request for the size of a root that is too large, and then a small one. -/
theorem fresh_refused {reply : Option Int} (small : bucket < 7) (low : 5 ≤ bucket)
    (next : (Tree.obtain maxHeap 0 (Tree.whole bucket)).1.map
      (fun node => ((node.start + headerSize : Nat) : Int)) = reply) :
    Replies ⟨fresh, []⟩ [.malloc (largestRequest bucket), .malloc 0] [none, reply] := by
  have inside : bucket < bucketCount := small.trans (by decide)
  have accepted := largestRequest_accepted inside
  have first := (largestRequest_spec inside).2
  have whole : min bucket (bucketCount - 1) = bucket := min_eq_left (Nat.le_sub_one_of_lt inside)
  rcases holds.does_malloc accepted.1 accepted.2 (low.trans_eq first.symm) with
    ⟨middle, does, _, refused⟩
  rw [Tree.initial_eq, Tree.obtain_refused (by decide) (by omega), first, whole] at does refused
  rcases refused.does_malloc (show 0 < 2 ^ 32 by decide) (by decide) (by decide) with
    ⟨last, doesNext, _⟩
  rw [next] at doesNext
  exact ⟨last, .cons does (.cons doesNext (.nil last))⟩

end Fresh

namespace StaleAt

variable (stale : StaleAt again marks bucket)

include stale

/-- A pointer to the start of the arena is shown as eight. -/
theorem of_eight {ptr : Nat} (eight : offsetOf again ptr = some 8) :
    ptr = again.memStartBrk + headerSize ∧ ptr ≠ null := by
  have base := stale.tracks.base
  unfold offsetOf at eight
  split at eight
  · cases eight
  · rename_i notNull
    have same := Option.some.inj eight
    unfold headerSize
    exact ⟨by omega, notNull⟩

theorem not_granted (large : 7 ≤ bucket) :
    ¬Replies ⟨again, []⟩ [.malloc (largestRequest bucket)] [some 8] := by
  rintro ⟨_, _ | ⟨does, _⟩⟩
  rcases does.of_malloc with ⟨ptr, returned, eight⟩
  have atStart := stale.of_eight eight.symm
  cases stale.mmMalloc_result (by omega) returned with
  | stopped _ small => omega
  | grown _ exactly => omega
  | elsewhere _ away => exact away atStart.1

theorem not_refused {reply : Option Int} (small : bucket < 7) (low : 5 ≤ bucket)
    (expected : reply = if bucket = 6 then some 8 else none) :
    ¬Replies ⟨again, []⟩ [.malloc (largestRequest bucket), .malloc 0] [none, reply] := by
  rintro ⟨_, _ | ⟨does, _ | ⟨doesNext, _⟩⟩⟩
  rcases does.of_malloc with ⟨ptr, returned, _⟩
  rcases doesNext.of_malloc with ⟨nextPtr, nextReturned, isReply⟩
  rw [offsetOf] at isReply
  cases stale.mmMalloc_result low returned with
  | stopped marks below _ tracks =>
      obtain rfl : bucket = 5 := by omega
      rw [if_neg (tracks.mmMalloc_zero_whole nextReturned), expected] at isReply
      cases isReply
  | grown marks exactly _ tracks =>
      subst exactly
      rw [if_pos (tracks.mmMalloc_zero_misgrown nextReturned), expected] at isReply
      cases isReply
  | elsewhere large _ => omega

end StaleAt

theorem StaleAt.not_sameReplies (stale : StaleAt again marks bucket) (low : 5 ≤ bucket)
    (holds : Holds ⟨fresh, []⟩ Tree.initial []) : ¬SameReplies ⟨fresh, []⟩ ⟨again, []⟩ := by
  intro same
  have inside : bucket < bucketCount := Nat.lt_of_succ_lt stale.inside
  have spanned : ∀ request, 5 ≤ firstBucket request →
      (Step.malloc request).Spanned fresh.memStartBrk ∧
        (Step.malloc request).Spanned again.memStartBrk := fun request small =>
    ⟨holds.spanned small, fun _ => stale.tracks.lists.storage.spans small⟩
  have first := spanned (largestRequest bucket) (low.trans_eq (largestRequest_spec inside).2.symm)
  by_cases large : 7 ≤ bucket
  · refine stale.not_granted large ((same _ _ ?_).mp (fresh_granted holds large inside))
    exact List.forall_mem_singleton.mpr first
  · have small : bucket < 7 := Nat.not_le.mp large
    have reply : (Tree.obtain maxHeap 0 (Tree.whole bucket)).1.map
        (fun node => ((node.start + headerSize : Nat) : Int)) =
          if bucket = 6 then some 8 else none := by
      by_cases exactly : bucket = 6
      · rw [if_pos exactly, Tree.obtain_granted inside exactly.ge (by decide)]
      · rw [if_neg exactly, Tree.obtain_refused inside (by omega)]
        rfl
    refine stale.not_refused small low rfl ((same _ _ ?_).mp (fresh_refused holds small low reply))
    exact List.forall_mem_cons.mpr ⟨first, List.forall_mem_singleton.mpr (spanned 0 (by decide))⟩

/-- After a restart all spanned requests get the pointers of a first run exactly when
no block was live before. -/
theorem restart_iff (history : History client) (site : Site start)
    (zeroed : ∀ byte, start.statics.nodeIsSplit byte = 0) (first : mmInit start = some (0, fresh)) :
    Ensures restart client.machine fun result again =>
      result = 0 ∧ (SameReplies ⟨fresh, []⟩ ⟨again, []⟩ ↔ client.live = []) := by
  rcases history.holds with ⟨tree, blocks, holds⟩
  have initial := holds_initial site zeroed first
  by_cases none : client.live = []
  · apply (holds.ensures_restart_clean none).mono
    rintro result again ⟨isZero, others⟩
    have alike : Alike _ _ ⟨fresh, []⟩ ⟨again, []⟩ := ⟨rfl, rfl, _, _, initial, others⟩
    exact ⟨isZero, iff_of_true alike.sameReplies none⟩
  · apply (holds.ensures_restart_stale none).mono
    rintro result again ⟨isZero, bucket, marks, low, stale⟩
    have large := holds.limit_large fun unused => none (holds.live_eq_nil.mpr unused)
    exact ⟨isZero, iff_of_false (stale.not_sameReplies (by omega) initial) none⟩

/-! ## A first run, and one that starts again -/

/-- The clients of one run have such a history. -/
theorem Reachable.history (reachable : Reachable client) : History client := by
  induction reachable with
  | init arena zeroed returned => exact .init arena.toSite zeroed returned
  | malloc before small returned induction =>
      exact induction.step (.malloc (small.trans_lt (by decide)) returned) fun _ => before.spans _
  | free before isLive returned induction =>
      rcases before.serves with ⟨tree, blocks, serves⟩
      rcases serves.block_of_live isLive with ⟨block, member, rfl⟩
      rw [← serves.holds.pointer block] at isLive returned ⊢
      exact induction.step (.free isLive returned) trivial
  | @write client address value before writable induction =>
      rcases before.serves with ⟨tree, blocks, serves⟩
      rcases writable with ⟨live, isLive, low, high⟩
      have listed := isLive
      rw [serves.live] at listed
      rcases List.mem_map.mp listed with ⟨block, member, rfl⟩
      have pointer := serves.holds.pointer block
      have small := (serves.sized block member).2
      have behind : client.machine.statics.basePtr + (address - client.machine.statics.basePtr) =
          address := Nat.add_sub_cancel' (by
        unfold spot at low
        omega)
      have does := @Does.write client (address - client.machine.statics.basePtr) value
        ⟨_, isLive, small, behind.symm ▸ low, behind.symm ▸ high⟩
      rw [behind] at does
      exact induction.step does trivial

/-- `mm_malloc(8)` comes before the restart. -/
theorem restart_iff_first_block : ∃ client fresh : _, History client ∧ client.live = [(4104, 8)] ∧
    mmInit zeroedStart = some (0, fresh) ∧
    Ensures restart client.machine fun result again =>
      result = 0 ∧ (SameReplies ⟨fresh, []⟩ ⟨again, []⟩ ↔ client.live = []) := by
  rcases reachable_firstBlock with ⟨client, reachable, live, _⟩
  rcases ensures_reachable arena_zeroedStart fun _ => rfl with ⟨_, fresh, first, rfl, _⟩
  exact ⟨client, fresh, reachable.history, live, first,
    restart_iff reachable.history arena_zeroedStart.toSite (fun _ => rfl) first⟩

/-- With a live block of 16 bytes at the start of the arena, `mm_malloc(24)` after
the restart does not return what it returns in a first run. -/
theorem restart_remembers : ∃ client fresh again, History client ∧ client.live = [(4104, 8)] ∧
    mmInit zeroedStart = some (0, fresh) ∧ restart client.machine = some (0, again) ∧
    Replies ⟨fresh, []⟩ [.malloc 24] [some 8] ∧ ¬Replies ⟨again, []⟩ [.malloc 24] [some 8] := by
  rcases reachable_firstBlock with ⟨client, reachable, live, serves, _⟩
  rcases ensures_reachable arena_zeroedStart fun _ => rfl with ⟨_, fresh, first, rfl, _⟩
  have inUse : client.live ≠ [] := by
    rw [live]
    exact List.cons_ne_nil _ _
  rcases serves.holds.ensures_restart_stale inUse with
    ⟨_, again, returned, rfl, bucket, marks, low, stale⟩
  have inside := stale.inside
  change 27 ≤ bucket + 1 at low
  obtain rfl : bucket = 26 := by
    have count : bucketCount = 28 := rfl
    omega
  have request : largestRequest 26 = 24 := by decide
  have granted := fresh_granted (holds_initial arena_zeroedStart.toSite (fun _ => rfl) first)
    (show 7 ≤ 26 by decide) (by decide)
  have refused := stale.not_granted (by decide)
  rw [request] at granted refused
  exact ⟨client, fresh, again, reachable.history, live, first, returned, granted, refused⟩

end MallocLab.Buddy
