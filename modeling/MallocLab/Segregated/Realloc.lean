import MallocLab.Segregated.Runs

/-! # `mm_realloc` in place

When the new size fits, `mm_realloc` places in the allocated block as if it
were free. `remove_block` then takes two words of the client for links, and the
remainder of a split is not joined with what follows it.
-/

namespace MallocLab.Segregated

open Program Blocks

/-- Bytes nobody relies on while a block is placed in again: those of the block
and its tags, which are rewritten, the padding before the prologue, and payloads
of free blocks behind their links. -/
def Spare (machine : State) (ptr byte : Nat) : Prop :=
  (ptr ≤ byte + 4 ∧ byte + 4 < ptr + machine.headerSize ptr) ∨
    (machine.memStartBrk ≤ byte ∧ byte < machine.memStartBrk + 4) ∨
    ∃ visited, machine.Walk (machine.memStartBrk + 8) visited machine.memBrk ∧
      ∃ bp ∈ visited, machine.headerAlloc bp = 0 ∧ bp + 8 ≤ byte ∧
        byte + dsize < bp + machine.headerSize bp

/-- A word is written inside the heap, and every byte of it is spare or keeps
its value. -/
def HarmlessWrite (machine : State) (ptr : Nat) (now : State) (address value : Nat) : Prop :=
  now.Owns address 4 ∧ ∀ byte, address ≤ byte → byte < address + 4 →
    Spare machine ptr byte ∨ (now.store address value).bytes byte = machine.bytes byte

/-- The words of the client that `remove_block` takes for links send its writes
where they do no harm, and the head of the group is set to what it is. -/
def HarmlessUnlink (machine : State) (ptr : Nat) : Prop :=
  let head := machine.statics.groupFreeListp (min 19 (machine.headerSize ptr).log2)
  let middle := machine.setPred (machine.succ ptr) (machine.pred ptr)
  if machine.succ ptr = null then
    if machine.pred ptr = null then head = null
    else HarmlessWrite machine ptr machine (machine.pred ptr + 4) null
  else
    HarmlessWrite machine ptr machine (machine.succ ptr) (machine.pred ptr) ∧
      if machine.pred ptr = null then head = middle.succ ptr
      else HarmlessWrite machine ptr middle (middle.pred ptr + 4) (middle.succ ptr)

/-- The remainder of a split is not followed by a free block. -/
def NoFreeNeighbour (machine : State) (ptr size : Nat) : Prop :=
  newSize size + 2 * dsize ≤ machine.headerSize ptr →
    machine.headerAlloc (ptr + machine.headerSize ptr) ≠ 0

/-- What is to hold after a block was resized in place: it is allocated and
large enough, the lists hold exactly the free blocks, no two of which are
adjacent, and the payloads of the other live blocks are as they were. -/
structure Resized (client : Client Statics) (ptr size value : Nat) (other : State) :
    Prop where
  sound : ∃ visited members,
    other.Walk (other.memStartBrk + 8) visited other.memBrk ∧ value ∈ visited ∧
      ListsExact other visited members ∧ visited.IsChain fun left right =>
        other.headerAlloc left = 1 ∨ other.headerAlloc right = 1
  allocated : other.headerAlloc value = 1
  capacity : size ≤ other.headerSize value - dsize
  others : ∀ spot ∈ client.live, spot.1 ≠ ptr → ∀ byte, spot.1 ≤ byte →
    byte < spot.1 + (client.machine.headerSize spot.1 - dsize) →
    other.bytes byte = client.machine.bytes byte

/-! ## Taking the words of the client for links -/

/-- Only spare bytes differ, and the static variables are the same. -/
structure SameButSpare (machine : State) (ptr : Nat) (other : State) : Prop where
  arena : SameArena machine other
  statics : other.statics = machine.statics
  bytes : ∀ byte, ¬Spare machine ptr byte → other.bytes byte = machine.bytes byte

variable {machine other : State} {ptr : Nat}

theorem SameButSpare.refl (machine : State) (ptr : Nat) : SameButSpare machine ptr machine :=
  ⟨.refl machine, rfl, fun _ _ => rfl⟩

/-- A harmless write leaves all but spare bytes as they are. -/
theorem SameButSpare.store {now : State} {address value : Nat}
    (same : SameButSpare machine ptr now)
    (harmless : HarmlessWrite machine ptr now address value) :
    SameButSpare machine ptr (now.store address value) where
  arena := ⟨same.arena.memStartBrk, same.arena.memBrk, same.arena.memMaxAddr⟩
  statics := same.statics
  bytes byte needed := by
    by_cases inside : address ≤ byte ∧ byte < address + 4
    · exact (harmless.2 byte inside.1 inside.2).resolve_left needed
    · rw [Machine.store_bytes_of_outside _ _ (by omega)]
      exact same.bytes byte needed

theorem setHead_same (machine : State) (groupIdx : Nat) :
    setHead machine groupIdx (machine.statics.groupFreeListp groupIdx) = machine := by
  simp only [setHead, Function.update_eq_self]
  rfl

/-- `remove_block` of an allocated block, when the words of the client make it
harmless. -/
theorem removeBlock_harmless (ownsHeader : machine.Owns (ptr - 4) 4)
    (ownsPred : machine.Owns ptr 4) (ownsSucc : machine.Owns (ptr + 4) 4)
    (harmless : HarmlessUnlink machine ptr) :
    Ensures (removeBlock ptr) machine fun _ other => SameButSpare machine ptr other := by
  have group : groupIndex (machine.headerSize ptr) = min 19 (machine.headerSize ptr).log2 :=
    groupIndex_eq _
  simp only [Machine.headerSize] at group
  simp only [HarmlessUnlink, Machine.headerSize, ← group] at harmless
  simp only [removeBlock, ensures_bind, ensures_getSize, hdrp_eq, ensures_nextFree]
  refine ⟨ownsHeader, ownsSucc, ?_⟩
  by_cases last : machine.succ ptr = null
  · rw [if_pos last] at harmless
    rw [if_pos last, ensures_bind, ensures_prevFree]
    refine ⟨ownsPred, ?_⟩
    by_cases first : machine.pred ptr = null
    · rw [if_pos first] at harmless
      rw [if_pos first, ensures_setGroupFreeListp, ← harmless, setHead_same]
      exact .refl machine ptr
    · rw [if_neg first] at harmless
      rw [if_neg first]
      simp only [ensures_bind, ensures_prevFree, ensures_setNextFree]
      exact ⟨ownsPred, harmless.1, (SameButSpare.refl machine ptr).store harmless⟩
  · rw [if_neg last] at harmless
    have written := (SameButSpare.refl machine ptr).store harmless.1
    rw [if_neg last, ensures_bind, ensures_prevFree]
    refine ⟨ownsPred, ?_⟩
    by_cases first : machine.pred ptr = null
    · rw [if_pos first, first] at harmless
      rw [first] at written
      rw [if_pos first]
      simp only [ensures_bind, ensures_nextFree, ensures_setPrevFree,
        ensures_setGroupFreeListp, ← harmless.2]
      refine ⟨ownsSucc, harmless.1.1, ownsSucc, ?_⟩
      rw [show machine.statics = (machine.setPred (machine.succ ptr) null).statics from rfl,
        setHead_same]
      exact written
    · rw [if_neg first] at harmless
      rw [if_neg first]
      simp only [ensures_bind, ensures_nextFree, ensures_prevFree, ensures_setPrevFree,
        ensures_setNextFree]
      exact ⟨ownsSucc, ownsPred, harmless.1.1, ownsPred, ownsSucc, harmless.2.1,
        written.store harmless.2⟩

/-! ## Placing in an allocated block -/

/-- The machine with the bytes of a block as they were on another one. -/
def restored (machine other : State) (ptr size : Nat) : State :=
  { other with bytes := fun byte =>
      if ptr ≤ byte + 4 ∧ byte + 4 < ptr + size then machine.bytes byte else other.bytes byte }

section Place

variable {client : Client Statics} {front back : List Block} {block live rest : Block}
  {groups : Groups} {size old : Nat}

section Spare

variable (serves : procedures.Serves client ⟨front ++ block :: back, groups⟩)
  (position : ptr = client.machine.first prologue + total front + 4)

include serves in
/-- A spare byte belongs to the block that is resized, to the padding or to a free
block. -/
theorem spare_cases {byte : Nat} (spare : Spare client.machine ptr byte) :
    (ptr ≤ byte + 4 ∧ byte + 4 < ptr + client.machine.headerSize ptr) ∨
      byte < client.machine.origin ∨
      ∃ bp owner, (bp, owner) ∈ spots (client.machine.first prologue)
        (front ++ block :: back) ∧ owner.isFree = true ∧ bp + 8 ≤ byte ∧
        byte + 8 < bp + owner.size := by
  rcases spare with own | padding | ⟨visited, walk, bp, member, isFree, low, high⟩
  · exact .inl own
  · exact .inr (.inl padding.2)
  · have same := serves.heapTiled.walk.unique walk
    rw [same.1] at member
    have listed := (listed_iff serves).mpr ⟨member, isFree, rfl⟩
    have exact : (entries groups).Perm
        (freeSpots (client.machine.first prologue) (front ++ block :: back)) :=
      serves.holds.wellFormed.exact
    rcases mem_freeSpots.mp (exact.mem_iff.mp listed) with ⟨owner, spot, ownerFree, same⟩
    rw [← same] at high
    exact .inr (.inr ⟨bp, owner, spot, ownerFree, low, high⟩)

include position

theorem block_spot : (ptr, block) ∈ spots client.machine.origin
    (prologue :: (front ++ block :: back)) := by
  refine mem_spots.mpr ⟨prologue :: front, back, rfl, ?_⟩
  rw [position, total_cons, Machine.first]
  omega

include serves

theorem headerSize_block : client.machine.headerSize ptr = block.size :=
  serves.holds.threaded.tiled.headerSize (block_spot position)

/-- Apart from its own bytes, which are put back, the heap is as it was. -/
theorem restored_threaded {other : State} (same : SameButSpare client.machine ptr other) :
    Threaded lists (restored client.machine other ptr block.size)
      (prologue :: (front ++ block :: back)) groups := by
  have threaded := serves.holds.threaded
  have size := headerSize_block serves position
  have away : ∀ byte, client.machine.origin ≤ byte → (¬∃ bp owner, (bp, owner) ∈ spots (client.machine.first prologue)
        (front ++ block :: back) ∧ owner.isFree = true ∧ bp + 8 ≤ byte ∧
        byte + 8 < bp + owner.size) →
      (restored client.machine other ptr block.size).bytes byte = client.machine.bytes byte := by
    intro byte behind notFree
    by_cases own : ptr ≤ byte + 4 ∧ byte + 4 < ptr + block.size
    · exact if_pos own
    · refine (if_neg own).trans (same.bytes byte fun spare => ?_)
      rcases spare_cases serves spare with inside | padding | free
      · rw [size] at inside
        exact own inside
      · omega
      · exact notFree free
  have inHeap : ∀ {bp : Nat} {owner : Block}, (bp, owner) ∈ spots (client.machine.first prologue)
        (front ++ block :: back) →
      (bp, owner) ∈ spots client.machine.origin (prologue :: (front ++ block :: back)) :=
    fun spot => List.mem_cons_of_mem _ spot
  have arena : SameArena client.machine (restored client.machine other ptr block.size) :=
    ⟨same.arena.memStartBrk, same.arena.memBrk, same.arena.memMaxAddr⟩
  refine threaded.frame arena same.statics ?_ ?_
  · intro byte behind notPayload
    refine away byte behind ?_
    rintro ⟨bp, owner, spot, _, low, high⟩
    exact notPayload (inPayload_iff.mpr ⟨bp, owner, inHeap spot, trivial, by omega, by omega⟩)
  · intro node member byte low high
    rcases threaded.members node member with ⟨holder, holderSpot, large, _⟩
    have bounds := spot_bounds holderSpot
    refine away byte (by omega) ?_
    rintro ⟨bp, owner, spot, _, above, below⟩
    by_cases here : bp = node
    · omega
    · rcases spots_apart (inHeap spot) holderSpot here with before | after <;> omega

theorem taken_restored {other : State} (same : SameButSpare client.machine ptr other)
    (used : block.isFree = false) :
    Taken segregated lists prologue (restored client.machine other ptr block.size) front block
      back groups where
  sentinel := rfl
  threaded := restored_threaded serves position same
  ordered := serves.holds.wellFormed.ordered
  exact := by
    have first : (restored client.machine other ptr block.size).first prologue =
        client.machine.first prologue := by
      simp only [Machine.first, Machine.origin, restored, same.arena.memStartBrk]
    rw [first]
    exact serves.holds.wellFormed.used_exact used

/-- The payloads of the other live blocks have no spare bytes. -/
theorem others_kept {other : State} (same : SameButSpare client.machine ptr other) {byte : Nat}
    (inside : InLivePayload (client.machine.first prologue) front byte ∨
      InLivePayload (client.machine.first prologue + total front + block.size) back byte) :
    other.bytes byte = client.machine.bytes byte := by
  have size := headerSize_block serves position
  apply same.bytes
  intro spare
  rcases spare_cases serves spare with own | padding | ⟨bp, owner, spot, isFree, low, high⟩
  · rw [size] at own
    rcases inside with inFront | inBack
    · have bounds := inPayload_bounds inFront
      omega
    · have bounds := inPayload_bounds inBack
      omega
  · unfold Machine.first at inside
    rcases inside with inFront | inBack
    · have bounds := inPayload_bounds inFront
      omega
    · have bounds := inPayload_bounds inBack
      omega
  · have located : ∃ start holder, (start, holder) ∈ spots (client.machine.first prologue)
        (front ++ block :: back) ∧ holder.request?.isSome ∧ start ≤ byte ∧
        byte + 8 < start + holder.size := by
      rcases inside with inFront | inBack
      · rcases inPayload_iff.mp inFront with ⟨start, holder, member, isLive, above, below⟩
        refine ⟨start, holder, ?_, isLive, above, below⟩
        simp [spots_append, member]
      · rcases inPayload_iff.mp inBack with ⟨start, holder, member, isLive, above, below⟩
        refine ⟨start, holder, ?_, isLive, above, below⟩
        simp [spots_append, member]
    rcases located with ⟨start, holder, holderSpot, isLive, above, below⟩
    have different : start ≠ bp := by
      rintro rfl
      rw [spot_unique holderSpot spot, Block.request?_of_isFree isFree] at isLive
      cases isLive
    rcases spots_apart holderSpot spot different with before | after <;> omega

end Spare

/-- The block was resized: its space is that of a live block and perhaps a free
remainder, and the lists hold the free blocks. -/
structure Placed (machine : State) (front : List Block) (block : Block) (back : List Block)
    (size : Nat) (final : State) : Prop where
  represented : ∃ after,
    Threaded lists final (prologue :: (front ++ (block.serve size ++ back))) after ∧
      segregated.Ordered after ∧ (entries after).Perm
        (freeSpots (machine.first prologue) (front ++ (block.serve size ++ back)))
  arena : SameArena machine final
  others : ∀ byte, InLivePayload (machine.first prologue) front byte ∨
      InLivePayload (machine.first prologue + total front + block.size) back byte →
    final.bytes byte = machine.bytes byte

/-- New tags on the space of a block are new tags on the restored machine. -/
theorem retagged_restored {machine other final : State} {cursor : Nat} {replaced : List Block}
    (retagged : Retagged other final cursor replaced) (position : ptr = cursor + 4)
    (size : total replaced = block.size) :
    Retagged (Segregated.restored machine other ptr block.size) final cursor replaced where
  arena := ⟨retagged.arena.memStartBrk, retagged.arena.memBrk, retagged.arena.memMaxAddr⟩
  statics := retagged.statics
  tags := retagged.tags
  outside address away := by
    refine (retagged.outside address away).trans (if_neg ?_).symm
    omega

/-- `place` resizes an allocated block as long as the words of the client do no
harm. -/
theorem place_harmless (serves : procedures.Serves client ⟨front ++ block :: back, groups⟩)
    (position : ptr = client.machine.first prologue + total front + 4)
    (used : block.isFree = false) (enough : roundUp size ≤ block.size)
    (harmless : HarmlessUnlink client.machine ptr) :
    Ensures (place ptr (roundUp size)) client.machine fun _ final =>
      Placed client.machine front block back size final := by
  have tiled := serves.holds.threaded.tiled
  have spot : (ptr, block) ∈ spots client.machine.origin
      (prologue :: (front ++ block :: back)) := block_spot position
  have here := tiled.blockAt spot
  have bounds := spot_bounds spot
  have extent : client.machine.memBrk = client.machine.memStartBrk + 8 +
      total (prologue :: (front ++ block :: back)) := tiled.extent
  have small : block.size < 2 ^ 31 := tiled.size_lt (by simp)
  have large := roundUp_ge size
  unfold Machine.origin at bounds
  have owns : ∀ {changed : State}, SameArena client.machine changed → ∀ {address : Nat},
      ptr ≤ address + 4 → address + 8 ≤ ptr + block.size → changed.Owns address 4 := by
    intro changed same address low high
    rw [same.owns]
    constructor <;> omega
  have whole : ptr = client.machine.origin + total (prologue :: front) + 4 := by
    rw [position, total_cons, Machine.first]
    omega
  have difference : wrapSub block.size (roundUp size) = block.size - roundUp size :=
    wrapSub_of_le (by omega) enough
  simp only [place, placeWith, ensures_bind, ensures_getSize, hdrp_eq, here.header, here.size,
    difference]
  refine ⟨here.ownsHeader, (removeBlock_harmless here.ownsHeader
    (owns (.refl _) (by omega) (by omega)) (owns (.refl _) (by omega) (by omega))
    harmless).mono fun _ other same => ?_⟩
  have ownsHeader : other.Owns (ptr - 4) 4 := owns same.arena (by omega) (by omega)
  have taken := taken_restored serves position same used
  have kept : ∀ byte, InLivePayload (client.machine.first prologue) front byte ∨
      InLivePayload (client.machine.first prologue + total front + block.size) back byte →
      other.bytes byte = client.machine.bytes byte := fun _ => others_kept serves position same
  have apart : ∀ {byte : Nat}, InLivePayload (client.machine.first prologue) front byte ∨
      InLivePayload (client.machine.first prologue + total front + block.size) back byte →
      byte < client.machine.origin + total (prologue :: front) ∨
        client.machine.origin + total (prologue :: front) + block.size ≤ byte := by
    intro byte inside
    rcases inside with inFront | inBack
    · have within := inPayload_bounds inFront
      omega
    · have within := inPayload_bounds inBack
      omega
  have origin := same.arena.origin
  have first : (restored client.machine other ptr block.size).first prologue =
      client.machine.first prologue := by
    simp only [Machine.first, Machine.origin, restored, same.arena.memStartBrk]
  have exact : (entries groups).Perm (freeSpots (client.machine.first prologue) front ++
      freeSpots (client.machine.first prologue + total front + block.size) back) :=
    serves.holds.wellFormed.used_exact used
  have ordered : segregated.Ordered groups := serves.holds.wellFormed.ordered
  have wholeOther : ptr = other.origin + total (prologue :: front) + 4 := by rw [origin, whole]
  have served : freeSpots (client.machine.first prologue) (front ++ (block.serve size ++ back)) =
      freeSpots (client.machine.first prologue) front ++
        ((if roundUp size + 16 ≤ block.size then [(ptr + roundUp size, block.size - roundUp size)]
          else []) ++
          freeSpots (client.machine.first prologue + total front + block.size) back) := by
    have address : client.machine.first prologue + total front + roundUp size + 4 =
        ptr + roundUp size := by omega
    rw [freeSpots_append, freeSpots_append, freeSpots_serve enough, Block.total_serve, address]
  rcases serve_cases block enough with
    ⟨live, rest, shape, liveSize, _, liveUsed, restSize, restFree, split⟩ |
    ⟨live, shape, liveSize, _, liveUsed, unsplit⟩
  · have sum : live.size + rest.size = block.size := by omega
    rw [if_pos (by unfold dsize; omega), ← restSize, ← liveSize]
    have stamps := ensures_stampSplit ownsHeader (by omega) small
      (by rw [same.arena.memStartBrk]; omega) (by rw [same.arena.memBrk]; omega) sum liveUsed
      restFree
    simp only [ensures_bind] at stamps ⊢
    refine stamps.mono fun _ _ done => done.mono fun _ _ done => done.mono fun _ _ done =>
      done.mono fun next _ done => done.mono fun _ _ done => done.mono fun _ _ done =>
      done.mono fun _ written done => ?_
    rcases (ensures_pure _ _ _).mp done with ⟨rfl, changed, stamped, restStamped⟩
    have retagged : Retagged (restored client.machine other ptr block.size) written
        (other.origin + total (prologue :: front)) [live, rest] :=
      retagged_restored (stamped.two restStamped wholeOther) wholeOther (by simpa using sum)
    have placed : ptr = (restored client.machine other ptr block.size).first prologue +
        total front + 4 := by rw [first, ← position]
    have added := taken.split implements placed sum restFree retagged
    refine added.mono fun _ final => ?_
    rintro ⟨threaded, addKeeps⟩
    have arena := (same.arena.trans (stamped.arena.trans restStamped.arena)).trans addKeeps.arena
    refine ⟨⟨_, by rwa [shape], segregated_lawful.ordered_add _ ordered, ?_⟩, arena, ?_⟩
    · refine (segregated_lawful.entries_add _ ordered).trans ?_
      rw [served, if_pos split, ← restSize, ← liveSize]
      exact (exact.cons _).trans List.perm_middle.symm
    · intro byte inside
      have tagged := (stamped.two restStamped wholeOther).outside byte (by
        have away := apart inside
        rw [origin]
        simpa [sum] using away)
      rw [addKeeps.live byte ?_, tagged, kept byte inside]
      have start : written.origin + prologue.size = client.machine.first prologue := by
        rw [(stamped.arena.trans restStamped.arena).origin, origin]
        rfl
      rw [inLivePayload_prologue rfl, start]
      simp only [inPayload_append]
      rcases inside with inFront | inBack
      · exact .inl inFront
      · refine .inr (.inr ?_)
        simpa [sum] using inBack
  · rw [if_neg (by unfold dsize; omega)]
    have positive := live.size_ge
    have ownsFooter : other.Owns (ptr + live.size - 8) 4 :=
      owns same.arena (by omega) (by omega)
    have stamps := ensures_stamp (by omega) (by omega) (Block.tag_eq_pack_used liveUsed liveSize)
      ownsHeader ownsFooter
    simp only [ensures_bind, hdrp_eq] at stamps ⊢
    refine stamps.mono fun _ _ done => done.mono fun _ _ done => done.mono
      fun _ final stamped => ?_
    have retagged : Retagged (restored client.machine other ptr block.size) final
        (other.origin + total (prologue :: front)) [live] :=
      retagged_restored (stamped.one wholeOther) wholeOther (by simpa using liveSize)
    have threaded := taken.retag implements (by simpa using liveSize) retagged
    refine ⟨⟨_, by rwa [shape], ordered, ?_⟩, same.arena.trans stamped.arena, ?_⟩
    · rw [served, if_neg unsplit]
      exact exact
    · intro byte inside
      have tagged := (stamped.one wholeOther).outside byte (by
        have away := apart inside
        rw [origin]
        simpa [liveSize] using away)
      rw [tagged, kept byte inside]

/-! ## The result -/

/-- The spots that the client holds besides the resized one. -/
theorem live_rest (serves : procedures.Serves client ⟨front ++ block :: back, groups⟩)
    (position : ptr = client.machine.first prologue + total front + 4)
    (isLive : block.request? = some old) :
    (client.live.filter fun spot => spot.1 ≠ ptr).Perm
      (liveSpots (client.machine.first prologue) front ++
        liveSpots (client.machine.first prologue + total front + block.size) back) := by
  have whole : client.live.Perm
      (liveSpots (client.machine.first prologue) (front ++ block :: back)) := serves.live
  rw [liveSpots_append, liveSpots_cons_of_live _ _ isLive, ← position] at whole
  exact Procedures.filter_perm (whole.trans List.perm_middle) serves.nodup

theorem proper_resized (enough : roundUp size ≤ block.size) :
    ∀ piece ∈ block.serve size, piece.usage ≠ .sentinel := by
  rcases serve_cases block enough with
    ⟨live, rest, shape, _, isLive, _, _, isFree, _⟩ | ⟨live, shape, _, isLive, _, _⟩
  · rw [shape]
    intro piece member
    simp only [List.mem_cons, List.not_mem_nil, or_false] at member
    rcases member with rfl | rfl
    · simp [Block.request?_eq_some.mp isLive]
    · simp [Block.isFree_iff.mp isFree]
  · rw [shape]
    intro piece member
    rw [List.mem_singleton.mp member]
    simp [Block.request?_eq_some.mp isLive]

theorem coalesced_resized (enough : roundUp size ≤ block.size)
    (coalesced : Coalesced (front ++ block :: back))
    (apart : roundUp size + 16 ≤ block.size → ∀ next ∈ back.head?, next.isFree = false) :
    Coalesced (front ++ (block.serve size ++ back)) := by
  have frontCoalesced := coalesced.left_of_append
  have backCoalesced := (List.isChain_cons.mp coalesced.right_of_append).2
  have joined : ∀ {live : Block} {others : List Block}, live.isFree = false →
      Coalesced (live :: others) → Coalesced (front ++ live :: others) := by
    intro live others used rest
    refine frontCoalesced.append rest fun last _ head member => ?_
    simp only [List.head?_cons, Option.mem_some] at member
    exact .inr (member ▸ used)
  rcases serve_cases block enough with
    ⟨live, rest, shape, _, _, used, _, _, split⟩ | ⟨live, shape, _, _, used, _⟩
  · rw [shape]
    exact joined used ((backCoalesced.cons fun next member =>
      .inr (apart split next member)).cons fun _ _ => .inl used)
  · rw [shape]
    exact joined used (backCoalesced.cons fun _ _ => .inl used)

/-- Unless a free remainder came to lie in front of a free block, the resized
heap serves the client again. -/
theorem Placed.serves {final : State}
    (serves : procedures.Serves client ⟨front ++ block :: back, groups⟩)
    (position : ptr = client.machine.first prologue + total front + 4)
    (isLive : block.request? = some old) (enough : roundUp size ≤ block.size)
    (apart : roundUp size + 16 ≤ block.size → ∀ next ∈ back.head?, next.isFree = false)
    (placed : Placed client.machine front block back size final) :
    ∃ after, procedures.Serves ⟨final, (ptr, size) ::
        client.live.filter fun spot => spot.1 ≠ ptr⟩ ⟨front ++ (block.serve size ++ back), after⟩ := by
  rcases placed.represented with ⟨after, threaded, ordered, exact⟩
  have cut := serves.holds.wellFormed.cut_spot
  have base : final.first prologue = client.machine.first prologue := by
    simp only [Machine.first, placed.arena.origin]
  refine ⟨after, ⟨rfl, threaded, ?_⟩, ?_⟩
  · refine ⟨?_, coalesced_resized enough serves.holds.wellFormed.coalesced apart, ?_, ordered⟩
    · intro piece member
      simp only [List.mem_append] at member
      rcases member with inFront | inServed | inBack
      · exact cut.2.2.1 piece inFront
      · exact proper_resized enough piece inServed
      · exact cut.2.2.2 piece inBack
    · rw [show final.first procedures.prologue = client.machine.first prologue from base]
      exact exact
  · change List.Perm _ (liveSpots (final.first prologue) (front ++ (block.serve size ++ back)))
    rw [base, liveSpots_append, liveSpots_append, liveSpots_serve enough, ← position,
      Block.total_serve]
    refine ((live_rest serves position isLive).cons _).trans ?_
    exact List.perm_middle.symm

/-- A free remainder in front of a free block is seen on the heap walk. -/
theorem Placed.not_resized {final : State} {value : Nat} {next : Block}
    (placed : Placed client.machine front block (next :: back) size final)
    (enough : roundUp size ≤ block.size) (split : roundUp size + 16 ≤ block.size)
    (nextFree : next.isFree = true) : ¬Resized client ptr size value final := by
  rintro ⟨⟨visited, members, walk, _, _, chain⟩, _⟩
  rcases placed.represented with ⟨after, threaded, _⟩
  rcases serve_cases block enough with
    ⟨live, rest, shape, _, _, _, _, restFree, _⟩ | ⟨_, _, _, _, _, unsplit⟩
  · rw [shape] at threaded
    have tiled : Tiled final ([] ++ (prologue :: (front ++ ([live, rest] ++ next :: back)))) :=
      threaded.tiled
    rw [(tiled.walk.unique walk).1, total_nil, Nat.add_zero] at chain
    rw [List.nil_append] at tiled
    have blocks : prologue :: (front ++ ([live, rest] ++ next :: back)) =
        (prologue :: (front ++ [live])) ++ rest :: next :: back := by simp
    rw [blocks] at tiled chain
    simp only [spots_append, spots_cons, List.map_append, List.map_cons] at chain
    have adjacent := (List.isChain_append_cons_cons.mp chain).2.1
    have restSpot : (final.origin + total (prologue :: (front ++ [live])) + 4, rest) ∈
        spots final.origin ((prologue :: (front ++ [live])) ++ rest :: next :: back) :=
      mem_spots.mpr ⟨_, next :: back, rfl, rfl⟩
    have nextSpot : (final.origin + total (prologue :: (front ++ [live])) + rest.size + 4, next) ∈
        spots final.origin ((prologue :: (front ++ [live])) ++ rest :: next :: back) :=
      mem_spots.mpr ⟨prologue :: (front ++ [live]) ++ [rest], back, by simp, by
        simp only [total_append, total_cons, total_nil]
        omega⟩
    rw [tiled.headerAlloc_eq_one restSpot, tiled.headerAlloc_eq_one nextSpot, restFree,
      nextFree] at adjacent
    simp at adjacent
  · exact absurd split unsplit

section Result

variable (serves : procedures.Serves client ⟨front ++ block :: back, groups⟩)
  (position : ptr = client.machine.first prologue + total front + 4)
  (isLive : block.request? = some old)

include serves position

theorem noFreeNeighbour_iff (small : size < 2 ^ 31) (positive : 0 < size) :
    NoFreeNeighbour client.machine ptr size ↔
      (roundUp size + 16 ≤ block.size → ∀ next ∈ back.head?, next.isFree = false) := by
  have tiled : Tiled client.machine ((prologue :: front) ++ block :: back) :=
    serves.holds.threaded.tiled
  have whole : ptr = client.machine.origin + total (prologue :: front) + 4 := by
    rw [position, total_cons, Machine.first]
    omega
  have next := (tiled.next whole).1
  have adjusted : newSize size = roundUp size := Procedures.align_eq_roundUp positive small
  rw [NoFreeNeighbour, headerSize_block serves position, adjusted, Machine.headerAlloc, next]
  refine imp_congr_right fun _ => ?_
  cases back with
  | nil => simp [allocField_headTag_nil]
  | cons right back => cases isFree : right.isFree <;> simp [allocField_headTag_cons, isFree]

include isLive

/-- A heap without such neighbours is sound. -/
theorem Placed.resized {final : State}
    (placed : Placed client.machine front block back size final)
    (enough : roundUp size ≤ block.size)
    (apart : roundUp size + 16 ≤ block.size → ∀ next ∈ back.head?, next.isFree = false) :
    Resized client ptr size ptr final := by
  rcases placed.serves serves position isLive enough apart with ⟨after, served⟩
  have tiled := served.heapTiled
  have listed := tiled.listed (ptr, size) List.mem_cons_self
  constructor
  · exact ⟨_, _, tiled.walk, listed.1, listsExact served, tiled.coalesced⟩
  · exact (tiled.allocated ptr listed.1 listed.2).mpr (by simp)
  · exact tiled.capacity (ptr, size) List.mem_cons_self
  · intro spot member different byte low high
    rcases serves.live_facts member with ⟨owner, inHeap, ownerSize, fits⟩
    have holder : owner.request?.isSome := by
      rcases mem_liveSpots.mp (serves.live.mem_iff.mp member) with ⟨found, foundSpot, request⟩
      rw [spot_unique inHeap foundSpot, request]
      rfl
    rw [ownerSize, dsize] at high
    apply placed.others
    change (spot.1, owner) ∈ spots (client.machine.first prologue) (front ++ block :: back)
      at inHeap
    rw [spots_append, spots_cons, ← position] at inHeap
    rcases List.mem_append.mp inHeap with inFront | inRest
    · exact .inl (inPayload_iff.mpr ⟨_, owner, inFront, holder, low, by omega⟩)
    · rcases List.mem_cons.mp inRest with same | inBack
      · cases same
        exact absurd rfl different
      · exact .inr (inPayload_iff.mpr ⟨_, owner, inBack, holder, low, by omega⟩)

end Result

end Place

/-- In place the call returns the same pointer, and the block is resized. -/
theorem mmRealloc_placed {client : Client Statics} {front back : List Block} {block : Block}
    {groups : Groups} {old size : Nat}
    (serves : procedures.Serves client ⟨front ++ block :: back, groups⟩)
    (position : ptr = client.machine.first prologue + total front + 4)
    (isLive : block.request? = some old) (positive : 0 < size) (small : size < 2 ^ 31)
    (fits : roundUp size ≤ block.size) (harmless : HarmlessUnlink client.machine ptr) :
    ∃ final, mmRealloc ptr size client.machine = some (ptr, final) ∧
      Placed client.machine front block back size final := by
  have adjusted : newSize size = roundUp size := Procedures.align_eq_roundUp positive small
  have used : block.isFree = false := Block.isFree_of_live isLive
  have nonzero : ptr ≠ null := by
    unfold null
    omega
  have here := serves.holds.threaded.tiled.blockAt (block_spot position)
  rcases place_harmless serves position used fits harmless with ⟨_, final, placing, placed⟩
  have run : Ensures (mmRealloc ptr size) client.machine fun value other =>
      value = ptr ∧ other = final := by
    rw [mmRealloc, if_neg (Nat.ne_of_gt positive), if_neg nonzero]
    simp only [ensures_bind, ensures_getSize, hdrp_eq, here.header, here.size, adjusted]
    refine ⟨here.ownsHeader, ?_⟩
    rw [if_pos fits, ensures_bind]
    exact ⟨_, final, placing, (ensures_pure _ _ _).mpr ⟨rfl, rfl⟩⟩
  rcases run with ⟨_, _, equal, rfl, rfl⟩
  exact ⟨_, equal, placed⟩

/-- When the words of the client do no harm, resizing a live block in place is
sound if and only if the new size is not so large that its sum with the tags
wraps, and no free remainder comes to lie in front of a free block. -/
theorem realloc_in_place {client : Client Statics} {old size : Nat} (reached : Reached client)
    (live : (ptr, old) ∈ client.live) (positive : 0 < size) (word : size < 2 ^ 32)
    (fits : newSize size ≤ client.machine.headerSize ptr)
    (harmless : HarmlessUnlink client.machine ptr) :
    Ensures (mmRealloc ptr size) client.machine (Resized client ptr size) ↔
      size + 15 < 2 ^ 32 ∧ NoFreeNeighbour client.machine ptr size := by
  by_cases noWrap : size + 15 < 2 ^ 32
  case neg =>
    refine ⟨?_, fun sound => absurd sound.1 noWrap⟩
    rintro ⟨value, final, _, resized⟩
    have capacity := resized.capacity
    have bound : final.headerSize value + 8 ≤ 2 ^ 32 := sizeField_le (final.load_lt _)
    unfold dsize at capacity
    omega
  rcases reached.serves with ⟨⟨blocks, groups⟩, serves⟩
  rcases mem_liveSpots.mp (serves.live.mem_iff.mp live) with ⟨block, spot, isLive⟩
  rcases mem_spots.mp spot with ⟨front, back, rfl, position⟩
  have headerSize := headerSize_block serves position
  have blockSmall : block.size < 2 ^ 31 := serves.holds.threaded.tiled.size_lt (by simp)
  have small : size < 2 ^ 31 := by
    rw [headerSize, newSize, dsize, align_eq (by omega)] at fits
    omega
  rw [headerSize, newSize, Procedures.align_eq_roundUp positive small] at fits
  rcases mmRealloc_placed serves position isLive positive small fits harmless with
    ⟨final, outcome, placed⟩
  rw [noFreeNeighbour_iff serves position small positive]
  constructor
  · intro resized
    have result := resized.of_eq outcome
    refine ⟨noWrap, fun split next member => ?_⟩
    cases back with
    | nil => cases member
    | cons right back =>
        simp only [List.head?_cons, Option.mem_some] at member
        subst member
        by_contra isFree
        exact placed.not_resized fits split (by simpa using isFree) result
  · intro sound
    exact ⟨ptr, final, outcome, placed.resized serves position isLive fits sound.2⟩

/-! ## Two runs -/

section Zeroed

variable {client : Client Statics} {layout : Layout Groups} {old : Nat}

/-- The client that stored zeros in the first bytes of a block. -/
def zeroed (client : Client Statics) (ptr : Nat) : Nat → Client Statics
  | 0 => client
  | count + 1 => (zeroed client ptr count).write (ptr + count) 0

theorem zeroed_live (client : Client Statics) (ptr count : Nat) :
    (zeroed client ptr count).live = client.live := by
  induction count with
  | zero => rfl
  | succ count induction => exact induction

theorem zeroed_statics (client : Client Statics) (ptr count : Nat) :
    (zeroed client ptr count).machine.statics = client.machine.statics := by
  induction count with
  | zero => rfl
  | succ count induction => exact induction

theorem zeroed_memStartBrk (client : Client Statics) (ptr count : Nat) :
    (zeroed client ptr count).machine.memStartBrk = client.machine.memStartBrk := by
  induction count with
  | zero => rfl
  | succ count induction => exact induction

theorem zeroed_bytes (client : Client Statics) (ptr : Nat) {count byte : Nat} (low : ptr ≤ byte)
    (high : byte < ptr + count) : (zeroed client ptr count).machine.bytes byte = 0 := by
  induction count with
  | zero => omega
  | succ count induction =>
      by_cases last : byte = ptr + count
      · exact if_pos last
      · exact (if_neg last).trans (induction (by omega))

/-- The writes stay within the requested bytes. -/
theorem zeroed_written (live : (ptr, old) ∈ client.live) {count : Nat} (within : count ≤ old) :
    client.Written (zeroed client ptr count) := by
  induction count with
  | zero => exact .refl
  | succ count induction =>
      apply Relation.ReflTransGen.tail (induction (by omega))
      refine ⟨_, 0, ⟨(ptr, old), ?_, Nat.le_add_right ptr count, ?_⟩, rfl⟩
      · rw [zeroed_live]
        exact live
      · exact Nat.add_lt_add_left within ptr

theorem zeroed_serves (serves : procedures.Serves client layout)
    (live : (ptr, old) ∈ client.live) {count : Nat} (within : count ≤ old) :
    procedures.Serves (zeroed client ptr count) layout := by
  induction count with
  | zero => exact serves
  | succ count induction =>
      apply (induction (by omega)).write
      refine ⟨(ptr, old), ?_, Nat.le_add_right ptr count, ?_⟩
      · rw [zeroed_live]
        exact live
      · exact Nat.add_lt_add_left within ptr

/-- Zeros do no harm when the group of the block has no members. -/
theorem zeroed_harmless
    (noMember : client.machine.statics.groupFreeListp
      (min 19 ((zeroed client ptr 8).machine.headerSize ptr).log2) = null) :
    HarmlessUnlink (zeroed client ptr 8).machine ptr := by
  have word : ∀ address, ptr ≤ address → address + 4 ≤ ptr + 8 →
      (zeroed client ptr 8).machine.load address = null := by
    intro address low high
    simp only [Machine.load, Memory.load]
    rw [zeroed_bytes client ptr (by omega) (by omega), zeroed_bytes client ptr (by omega) (by omega),
      zeroed_bytes client ptr (by omega) (by omega), zeroed_bytes client ptr (by omega) (by omega)]
    rfl
  have pred : (zeroed client ptr 8).machine.pred ptr = null := word ptr (by omega) (by omega)
  have succ : (zeroed client ptr 8).machine.succ ptr = null :=
    word (ptr + 4) (by omega) (by omega)
  rw [HarmlessUnlink, if_pos succ, if_pos pred, zeroed_statics]
  exact noMember

end Zeroed

/-- The first of two live blocks, after the client stored zeros in it. -/
theorem exists_zeroed : ∃ client : Client Statics, Reached client ∧
    client.live = [(136, 50), (24, 100)] ∧ client.machine.headerSize 24 = 112 ∧
      HarmlessUnlink client.machine 24 ∧ NoFreeNeighbour client.machine 24 1 := by
  rcases exists_reached with ⟨before, reached, live, serves, start⟩
  have member : (24, 100) ∈ before.live := by
    rw [live]
    exact List.mem_cons_of_mem _ List.mem_cons_self
  have zeroedServes : procedures.Serves (zeroed before 24 8)
      ⟨[] ++ ⟨112, .live 100, rfl, by decide⟩ :: [⟨64, .live 50, rfl, by decide⟩,
        ⟨3920, .free, rfl, by decide⟩], twoLive.index⟩ :=
    zeroed_serves serves member (by decide)
  have position : 24 = (zeroed before 24 8).machine.first prologue + total [] + 4 := by
    rw [Machine.first, Machine.origin, zeroed_memStartBrk, start]
    rfl
  have size := headerSize_block zeroedServes position
  refine ⟨zeroed before 24 8, reached.written (zeroed_written member (by decide)),
    (zeroed_live _ _ _).trans live, size, ?_, ?_⟩
  · apply zeroed_harmless
    rw [size]
    exact (Option.some_inj.mp (serves.holds.threaded.holds.2 6 (by decide)).head_eq).symm
  · rw [noFreeNeighbour_iff zeroedServes position (by decide) (by decide)]
    intro _ next follows
    cases follows
    rfl

theorem realloc_in_place_two_live : ∃ client : Client Statics,
    client.live = [(136, 50), (24, 100)] ∧
      (Ensures (mmRealloc 24 1) client.machine (Resized client 24 1) ↔
        1 + 15 < 2 ^ 32 ∧ NoFreeNeighbour client.machine 24 1) ∧
      NoFreeNeighbour client.machine 24 1 := by
  rcases exists_zeroed with ⟨client, reached, live, size, harmless, apart⟩
  have member : (24, 100) ∈ client.live := by
    rw [live]
    exact List.mem_cons_of_mem _ List.mem_cons_self
  exact ⟨client, live, realloc_in_place reached member (by decide) (by decide)
    (by rw [size]; decide) harmless, apart⟩

/-- The remainder of the only live block comes to lie in front of the free
block, and nothing joins the two. -/
theorem realloc_in_place_unsound : ∃ client : Client Statics, Reached client ∧
    client.live = [(24, 100)] ∧ newSize 1 ≤ client.machine.headerSize 24 ∧
      ¬Ensures (mmRealloc 24 1) client.machine (Resized client 24 1) := by
  rcases exists_one_live with ⟨before, run, live, serves, start⟩
  have member : (24, 100) ∈ before.live := by
    rw [live]
    exact List.mem_cons_self
  have reached : Reached before := by
    apply run.reachable arena_empty
    intro request listed
    exact List.mem_singleton.mp listed ▸ rfl
  have zeroedServes : procedures.Serves (zeroed before 24 8)
      ⟨[] ++ ⟨112, .live 100, rfl, by decide⟩ :: [⟨3984, .free, rfl, by decide⟩],
        oneLive.index⟩ := zeroed_serves serves member (by decide)
  have position : 24 = (zeroed before 24 8).machine.first prologue + total [] + 4 := by
    rw [Machine.first, Machine.origin, zeroed_memStartBrk, start]
    rfl
  have size := headerSize_block zeroedServes position
  have harmless : HarmlessUnlink (zeroed before 24 8).machine 24 := by
    apply zeroed_harmless
    rw [size]
    exact (Option.some_inj.mp (serves.holds.threaded.holds.2 6 (by decide)).head_eq).symm
  rcases mmRealloc_placed zeroedServes position rfl (by decide : 0 < 1) (by decide)
    (by decide) harmless with ⟨final, outcome, placed⟩
  refine ⟨zeroed before 24 8, reached.written (zeroed_written member (by decide)),
    (zeroed_live _ _ _).trans live, by rw [size]; decide, fun resized => ?_⟩
  exact placed.not_resized (by decide) (by decide) rfl (resized.of_eq outcome)

end MallocLab.Segregated
