import MallocLab.BoundaryTag.Walk

/-! # Which requests are served

A package whose policy overlooks no block serves a request exactly when a free
block of the heap is large enough or the arena has room for another extension,
and a refused request changes nothing.
-/

namespace MallocLab

open Program Blocks

/-- Where the policy finds nothing, every block is too small. -/
def Policy.Exhaustive {Index : Type} (policy : Policy Index) : Prop :=
  ∀ {index : Index} {size : Nat}, policy.Ordered index → policy.find index size = none →
    ∀ entry ∈ policy.entries index, entry.2 < size

/-- Every free block that the heap walk visits is smaller than the size. -/
def Machine.NoneFits {Statics : Type} (machine : Machine Statics) (heapListp asize : Nat) : Prop :=
  ∃ visited, machine.Walk heapListp visited machine.memBrk ∧
    ∀ bp ∈ visited, machine.headerAlloc bp = 0 → machine.headerSize bp < asize

namespace Layout

variable {Index : Type} {policy : Policy Index} {origin : Nat} {layout after : Layout Index}
  {room request address bp : Nat} {front back : List Block} {block owner : Block}

/-! ## Blocks in use stay where they are -/

theorem used_settle (isFree : block.isFree = true) (used : owner.isFree = false)
    (spot : (bp, owner) ∈ spots origin (front ++ block :: back)) :
    (bp, owner) ∈ spots origin (Blocks.settle front block back) := by
  have notFree : ∀ {cursor : Nat} {blocks : List Block},
      (∀ other ∈ blocks, other.isFree = true) → (bp, owner) ∉ spots cursor blocks := by
    intro cursor blocks free inside
    rcases mem_spots.mp inside with ⟨before, behind, rfl, _⟩
    have mustBe := free owner (by simp)
    rw [used] at mustBe
    cases mustBe
  have different : owner ≠ block := by
    intro same
    rw [same, isFree] at used
    cases used
  rw [← front_split front, ← back_split back] at spot
  simp only [Blocks.settle, spots_append, spots_cons, total_append, List.mem_append,
    List.mem_cons, Prod.mk.injEq, Block.absorb_size] at spot ⊢
  rcases spot with (kept | absorbed) | ⟨_, same⟩ | absorbed | kept
  · exact .inl kept
  · exact absurd absorbed (notFree (rtakeWhile_free front))
  · exact absurd same different
  · exact absurd absorbed (notFree (takeWhile_free back))
  · refine .inr (.inr ?_)
    simpa only [Nat.add_assoc] using kept

theorem used_serve (isFree : block.isFree = true) (used : owner.isFree = false)
    (spot : (bp, owner) ∈ spots origin (front ++ block :: back)) :
    (bp, owner) ∈ spots origin (front ++ (block.serve request ++ back)) := by
  have different : owner ≠ block := by
    intro same
    rw [same, isFree] at used
    cases used
  simp only [spots_append, spots_cons, List.mem_append, List.mem_cons, Prod.mk.injEq,
    Block.total_serve] at spot ⊢
  rcases spot with inFront | ⟨_, same⟩ | inBack
  · exact .inl inFront
  · exact absurd same different
  · exact .inr (.inr inBack)

/-- A request moves no block in use and does not change its size. -/
theorem malloc_used (lawful : policy.Lawful) (wellFormed : WellFormed policy origin layout)
    (served : layout.malloc policy origin room request = (some address, after))
    (used : owner.isFree = false) (spot : (bp, owner) ∈ spots origin layout.blocks) :
    (bp, owner) ∈ spots origin after.blocks := by
  unfold malloc at served
  split at served
  · simp at served
  · split at served
    · rename_i found
      rcases wellFormed.find_some lawful found with
        ⟨front, block, back, shape, rfl, isFree, _⟩
      simp only [Prod.mk.injEq, serveAt, shape, cut_append] at served
      rw [← served.2]
      exact used_serve isFree used (shape ▸ spot)
    · split at served
      · simp only [Prod.mk.injEq, serveAt, growSpot, grow, settle, Blocks.settle,
          cut_append] at served
        rw [← served.2]
        have appended : (bp, owner) ∈ spots origin (layout.blocks ++
            [fresh (extension request) (extension_aligned request) (extension_ge request)]) := by
          rw [spots_append]
          exact List.mem_append_left _ spot
        exact used_serve rfl used (used_settle rfl used appended)
      · simp at served

/-- Giving a block back moves no other block in use. -/
theorem used_release (live : (address, request) ∈ liveSpots origin layout.blocks)
    (used : owner.isFree = false) (spot : (bp, owner) ∈ spots origin layout.blocks)
    (different : bp ≠ address) :
    (bp, owner) ∈ spots origin (layout.release policy origin address).blocks := by
  rcases @release_shape _ policy _ _ _ _ live with
    ⟨front, block, back, shape, rfl, isLive, released⟩
  have given := Block.release_of_large (Block.size_ge_of_live isLive).1
  rw [released]
  apply used_settle given.2 used
  rw [shape] at spot
  simp only [spots_append, spots_cons, List.mem_append, List.mem_cons, Prod.mk.injEq,
    given.1] at spot ⊢
  rcases spot with inFront | ⟨same, _⟩ | inBack
  · exact .inl inFront
  · exact absurd same different
  · exact .inr (.inr inBack)

/-- Only the extension makes the heap longer. -/
theorem malloc_total (lawful : policy.Lawful) (wellFormed : WellFormed policy origin layout)
    (found : policy.find layout.index (roundUp request) ≠ none) :
    total (layout.malloc policy origin room request).2.blocks = total layout.blocks := by
  unfold malloc
  split
  · rfl
  · cases outcome : policy.find layout.index (roundUp request) with
    | none => exact absurd outcome found
    | some spot =>
        rcases wellFormed.find_some lawful outcome with ⟨front, block, back, shape, rfl, _⟩
        simp only [serveAt, shape, cut_append, allot, total_append, total_cons,
          Block.total_serve]

/-- The requests that are refused. -/
theorem malloc_eq_none :
    (layout.malloc policy origin room request).1 = none ↔
      request = 0 ∨ policy.find layout.index (roundUp request) = none ∧
        room < total layout.blocks + extension request := by
  unfold malloc
  by_cases zero : request = 0
  · simp [zero]
  · rw [if_neg zero]
    cases policy.find layout.index (roundUp request) with
    | some spot => simp [zero]
    | none =>
        by_cases fits : total layout.blocks + extension request ≤ room
        · simp [zero, fits]
        · simp [zero, fits, Nat.lt_of_not_le fits]

end Layout

namespace Procedures

variable {Statics Index : Type} {package : Procedures Statics Index}
  {machine : Machine Statics} {client : Client Statics} {layout : Layout Index}
  {request address : Nat}

/-! ## Refused requests -/

/-- A refused request leaves everything as it was. -/
theorem Correct.refuse (correct : package.Correct) (holds : package.Holds machine layout)
    (small : request < 2 ^ 31) (noWrap : package.NoWrap machine layout request)
    (refused : (package.malloc machine layout request).1 = none) :
    package.mmMalloc request machine = some (null, machine) := by
  suffices ensured : Ensures (package.mmMalloc request) machine fun value other =>
      value = null ∧ other = machine by
    rcases ensured with ⟨_, _, outcome, rfl, rfl⟩
    exact outcome
  rcases Layout.malloc_eq_none.mp refused with rfl | ⟨nothing, full⟩
  · simp only [Procedures.mmMalloc, mallocWith, if_true, ensures_pure, and_self]
  · by_cases zero : request = 0
    · simp only [Procedures.mmMalloc, mallocWith, if_pos zero, ensures_pure, and_self]
    · simp only [Procedures.mmMalloc, mallocWith, if_neg zero, ensures_bind,
        correct.adjusts (Nat.pos_of_ne_zero zero) small, extension_eq]
      refine (correct.finds (roundUp request) holds).mono fun value other => ?_
      rintro ⟨rfl, rfl⟩
      rw [nothing]
      simp only [Option.getD_none, ne_eq, not_true_eq_false, if_false, wsize]
      rw [correct.extends_eq (extension_aligned request) (extension_lt small), ensures_bind]
      apply extendHeapWith_refused (extension_lt small)
      · intro below
        refine ⟨noWrap zero nothing below, ?_⟩
        have arena := holds.threaded.tiled.arena
        have extent := Holds.extent holds
        unfold room maxHeap at full
        unfold maxHeap at arena
        omega
      · rw [if_pos rfl, ensures_pure]
        exact ⟨rfl, rfl⟩

/-- The policy finds nothing exactly when no free block of the walk fits. -/
theorem noneFits_iff (correct : package.Correct) (exhaustive : package.policy.Exhaustive)
    (serves : package.Serves client layout) {asize : Nat} :
    client.machine.NoneFits (client.machine.memStartBrk + 8) asize ↔
      package.policy.find layout.index asize = none := by
  have tiled := serves.holds.threaded.tiled
  have wellFormed := serves.holds.wellFormed
  constructor
  · rintro ⟨visited, walk, small⟩
    cases found : package.policy.find layout.index asize with
    | none => rfl
    | some bp =>
        rcases wellFormed.find_some correct.lawful found with
          ⟨front, block, back, shape, position, isFree, enough⟩
        have spot : (bp, block) ∈ spots client.machine.origin
            (package.prologue :: layout.blocks) :=
          List.mem_cons_of_mem _ (mem_spots.mpr ⟨front, back, shape, position⟩)
        have member : bp ∈ visited := by
          rw [(serves.heapTiled.walk.unique walk).1]
          exact List.mem_map_of_mem spot
        have tooSmall := small bp member (by rw [tiled.headerAlloc spot, isFree]; rfl)
        rw [tiled.headerSize spot] at tooSmall
        omega
  · intro nothing
    refine ⟨_, serves.heapTiled.walk, fun bp member isFree => ?_⟩
    rcases visited_cases client.machine member with rfl | ⟨block, inHeap⟩
    · have used := serves.heapTiled.sentinel
      rw [show client.machine.memStartBrk + 8 = client.machine.origin + 4 from rfl,
        isFree] at used
      cases used
    · have spot : (bp, block) ∈ spots client.machine.origin
          (package.prologue :: layout.blocks) := List.mem_cons_of_mem _ inHeap
      rw [tiled.headerAlloc spot] at isFree
      have free : block.isFree = true := by
        cases given : block.isFree with
        | true => rfl
        | false => simp [given] at isFree
      rw [tiled.headerSize spot]
      exact exhaustive wellFormed.ordered nothing (bp, block.size)
        (wellFormed.exact.mem_iff.mpr (mem_freeSpots.mpr ⟨block, inHeap, free, rfl⟩))

/-- The break moves only when no free block fits, a request is refused only
when besides the arena is used up, and then everything is as before. -/
theorem Correct.complete (correct : package.Correct) (exhaustive : package.policy.Exhaustive)
    (serves : package.Serves client layout) (small : request < 2 ^ 31)
    (noWrap : package.NoWrap client.machine layout request) :
    ∃ ptr after, package.mmMalloc request client.machine = some (ptr, after) ∧
      (ptr = null ↔ request = 0 ∨
        client.machine.NoneFits (client.machine.memStartBrk + 8) (roundUp request) ∧
          client.machine.memMaxAddr < client.machine.memBrk + extension request) ∧
      (after.memBrk ≠ client.machine.memBrk →
        client.machine.NoneFits (client.machine.memStartBrk + 8) (roundUp request)) ∧
      (ptr = null → after = client.machine) := by
  have wellFormed := serves.holds.wellFormed
  have extent := Holds.extent serves.holds
  have arena := serves.holds.threaded.tiled.arena
  have inside := serves.holds.threaded.tiled.brkInArena
  rcases correct.mmMalloc serves.holds small noWrap with ⟨ptr, after, outcome, value, holds, kept⟩
  have refused : ptr = null ↔ (package.malloc client.machine layout request).1 = none := by
    rw [value]
    cases served : (package.malloc client.machine layout request).1 with
    | none => simp
    | some spot =>
        rcases Layout.malloc_some correct.lawful wellFormed (Prod.ext served rfl) with
          ⟨_, front, _, _, _, _, _, _, rfl, _⟩
        simp only [Option.getD_some, reduceCtorEq, iff_false]
        unfold null
        omega
  refine ⟨ptr, after, outcome, ?_, ?_, ?_⟩
  · rw [refused, Layout.malloc_eq_none, noneFits_iff correct exhaustive serves]
    refine or_congr_right (and_congr_right fun _ => ?_)
    unfold room maxHeap
    unfold maxHeap at arena
    omega
  · intro moved
    rw [noneFits_iff correct exhaustive serves]
    by_contra found
    apply moved
    have afterExtent := Holds.extent holds
    rw [Layout.malloc_total correct.lawful wellFormed found] at afterExtent
    rw [afterExtent, extent, kept.memStartBrk]
  · intro isNull
    have unchanged := correct.refuse serves.holds small noWrap (refused.mp isNull)
    rw [outcome] at unchanged
    cases unchanged
    rfl

/-! ## Requests past the end of the address space -/

/-- An extension that wraps around the address space ends in a write below the
heap, so the call has no outcome. -/
theorem extendHeapWith_wraps {coalesce : Nat → Program (Machine Statics) Nat} {size : Nat}
    {goal : Nat → Machine Statics → Prop} (holds : package.Holds machine layout)
    (small : size < 2147483648) (wraps : 2 ^ 32 ≤ machine.memBrk + size) :
    ¬Ensures (extendHeapWith coalesce size) machine goal := by
  have tiled := holds.threaded.tiled
  have arena := tiled.arena
  have inside := tiled.brkInArena
  have addressable := tiled.addressable
  have extent := Holds.extent holds
  have aligned := tiled.startAligned
  have sizes := total_aligned layout.blocks
  have prologueAligned := package.prologue.aligned
  have next : machine.nextBrk (toInt size) = machine.memBrk + size - 2 ^ 32 := by
    rw [Machine.nextBrk, toInt_of_lt small, Int.toNat_natCast, wrap]
    omega
  have nonnegative : 0 ≤ toInt size := by
    rw [toInt_of_lt small]
    exact Int.natCast_nonneg _
  intro ensured
  unfold maxHeap at arena
  rw [extendHeapWith, ensures_bind,
    memSbrk_granted nonnegative (by rw [next]; omega), next] at ensured
  have granted : machine.memBrk ≠ sbrkFailed := by
    unfold sbrkFailed
    omega
  rw [if_neg granted, ensures_bind, ensures_put] at ensured
  have owned := ensured.1.2
  simp only [hdrp_eq, Machine.setBrk_memBrk] at owned
  omega

theorem findFit_eq (correct : package.Correct) (holds : package.Holds machine layout)
    (size : Nat) : package.findFit size machine =
      some ((package.policy.find layout.index size).getD null, machine) := by
  rcases correct.finds size holds with ⟨_, _, outcome, rfl, rfl⟩
  exact outcome

/-- Without the promise that nothing wraps a request may have no outcome. -/
theorem Correct.wraps (correct : package.Correct) (holds : package.Holds machine layout)
    (small : request < 2 ^ 31) {goal : Nat → Machine Statics → Prop}
    (ensured : Ensures (package.mmMalloc request) machine goal) :
    package.NoWrap machine layout request := by
  intro nonzero nothing below
  by_contra wraps
  rw [Procedures.mmMalloc, mallocWith] at ensured
  simp only [if_neg nonzero, correct.adjusts (Nat.pos_of_ne_zero nonzero) small,
    extension_eq] at ensured
  rw [ensures_bind_of_eq (findFit_eq correct holds _), nothing, Option.getD_none,
    if_neg (by simp), ensures_bind, wsize, correct.extends_eq (extension_aligned request)
    (extension_lt small)] at ensured
  exact extendHeapWith_wraps holds below (by omega) ensured

end Procedures

/-! ## Copying to a new block -/

/-- A new block next to an old one: both lie in the heap and apart, and the old
one is as large and has the contents it had. -/
structure Beside {Statics : Type} (machine middle : Machine Statics)
    (address served request : Nat) : Prop where
  size : middle.headerSize address = machine.headerSize address
  ownsOld : middle.Owns address (machine.headerSize address)
  ownsNew : middle.Owns served request
  apart : served + request ≤ address ∨ address + machine.headerSize address ≤ served
  capacity : request + dsize ≤ middle.headerSize served
  payload : SameRange machine middle address (machine.headerSize address - dsize)

namespace Procedures

variable {Statics Index : Type} {package : Procedures Statics Index}
  {middle : Machine Statics} {client : Client Statics} {layout : Layout Index}
  {request address served old : Nat}

/-- What `mm_malloc` returns is a new block of a represented heap in which the
blocks of the client are where they were. -/
theorem Correct.served_spots (correct : package.Correct) (serves : package.Serves client layout)
    (small : request < 2 ^ 31) (live : (address, old) ∈ client.live)
    (outcome : package.mmMalloc request client.machine = some (served, middle))
    (nonzero : served ≠ null) :
    ∃ after owner, package.Holds middle after ∧
      (address, owner) ∈ spots (package.base middle) after.blocks ∧
      owner.request? = some old ∧ client.machine.headerSize address = owner.size ∧
      (served, request) ∈ liveSpots (package.base middle) after.blocks ∧ served ≠ address ∧
      SameRange client.machine middle address (owner.size - 8) := by
  have ensured : Ensures (package.mmMalloc request) client.machine fun _ _ => True :=
    ⟨_, _, outcome, trivial⟩
  have noWrap := correct.wraps serves.holds small ensured
  have wellFormed := serves.holds.wellFormed
  rcases (correct.mmMalloc serves.holds small noWrap).of_eq outcome with ⟨value, holds, preserves⟩
  rcases mem_liveSpots.mp (serves.live.mem_iff.mp live) with ⟨owner, spot, isLive⟩
  have used : owner.isFree = false := Block.isFree_of_live isLive
  cases allocation : package.malloc client.machine layout request with
  | mk result after =>
      cases result with
      | none =>
          rw [allocation] at value
          exact absurd value nonzero
      | some place =>
          rw [allocation] at value holds
          change served = place at value
          subst value
          have base : middle.first package.prologue = client.machine.first package.prologue :=
            preserves.first
          have added := (Layout.malloc_served correct.lawful wellFormed allocation).2.1
          have kept := Layout.malloc_used correct.lawful wellFormed allocation used spot
          have nodup := (added.map Prod.fst).nodup (liveSpots_nodup _ _)
          simp only [List.map_cons, List.nodup_cons, List.mem_map, not_exists, not_and] at nodup
          have distinct : served ≠ address := fun same =>
            nodup.1 (address, old) (mem_liveSpots.mpr ⟨owner, spot, isLive⟩) same.symm
          have new := added.mem_iff.mpr List.mem_cons_self
          rw [← base] at kept new
          refine ⟨after, owner, holds, kept, isLive, (serves.block_facts spot).1, new, distinct, ?_⟩
          intro offset inside
          apply preserves.live
          rw [inLivePayload_prologue serves.holds.sentinel]
          exact inPayload_iff.mpr ⟨address, owner, spot, by simp [isLive], by omega, by omega⟩

/-- What `mm_malloc` returns lies beside every block of the client. -/
theorem Correct.beside (correct : package.Correct) (serves : package.Serves client layout)
    (small : request < 2 ^ 31) (live : (address, old) ∈ client.live)
    (outcome : package.mmMalloc request client.machine = some (served, middle))
    (nonzero : served ≠ null) : Beside client.machine middle address served request := by
  rcases correct.served_spots serves small live outcome nonzero with
    ⟨after, owner, holds, kept, isLive, size, new, distinct, payload⟩
  rcases mem_liveSpots.mp new with ⟨fresh, freshSpot, freshLive⟩
  have fits := (Block.size_ge_of_live freshLive).2
  have tiled := holds.threaded.tiled
  have freshSize := tiled.headerSize (List.mem_cons_of_mem _ freshSpot)
  have ownerSize := tiled.headerSize (List.mem_cons_of_mem _ kept)
  have owned := Holds.apart holds freshSpot kept distinct
    (show request ≤ fresh.size by omega) (Nat.le_refl owner.size)
  constructor
  · rw [ownerSize, size]
  · rw [size]
    exact owned.2.1
  · exact owned.1
  · rw [size]
    exact owned.2.2
  · rw [freshSize]
    exact fits
  · rw [size]
    exact payload

/-- `mm_free` leaves every other block of the client where it was, with its
payload. -/
theorem Correct.beside_free (correct : package.Correct) (serves : package.Serves client layout)
    (live : (address, old) ∈ client.live) (freed : served ∈ client.live.map Prod.fst)
    (different : address ≠ served)
    (outcome : package.mmFree served client.machine = some ((), middle)) :
    middle.memBrk = client.machine.memBrk ∧
      middle.headerSize address = client.machine.headerSize address ∧
      SameRange client.machine middle address (client.machine.headerSize address - dsize) := by
  rcases List.mem_map.mp freed with ⟨⟨_, size⟩, isLive, rfl⟩
  have target := serves.live.mem_iff.mp isLive
  rcases (correct.mmFree serves.holds target).of_eq outcome with ⟨holds, keeps⟩
  rcases mem_liveSpots.mp (serves.live.mem_iff.mp live) with ⟨owner, spot, ownerLive⟩
  have used : owner.isFree = false := Block.isFree_of_live ownerLive
  have kept := @Layout.used_release _ package.policy _ _ _ _ _ _ target used spot different
  have base : package.base middle = package.base client.machine := keeps.first
  have facts := serves.block_facts spot
  refine ⟨keeps.arena.memBrk, ?_, ?_⟩
  · rw [facts.1]
    apply holds.threaded.tiled.headerSize
    apply List.mem_cons_of_mem
    change (address, owner) ∈ spots (package.base middle) _
    rw [base]
    exact kept
  · intro offset inside
    apply keeps.live
    rw [inLivePayload_prologue serves.holds.sentinel]
    rw [facts.1] at inside
    unfold dsize at inside
    exact inPayload_iff.mpr ⟨address, owner, kept, by simp [ownerLive], by omega, by omega⟩

/-- Any number of bytes that both blocks have room for can be copied to what
`mm_malloc` returned before the old block is freed. -/
theorem Correct.copies (correct : package.Correct) (serves : package.Serves client layout)
    (small : request < 2 ^ 31) (live : (address, old) ∈ client.live)
    (outcome : package.mmMalloc request client.machine = some (served, middle))
    (nonzero : served ≠ null) {count : Nat} (countRequest : count ≤ request)
    (countOld : count ≤ client.machine.headerSize address) :
    Ensures (do
        memcpy served address count
        package.mmFree address
        return served) middle fun value final => value = served ∧
      ∀ offset < count, offset < client.machine.headerSize address - dsize →
        final.bytes (served + offset) = client.machine.bytes (address + offset) := by
  rcases correct.served_spots serves small live outcome nonzero with
    ⟨after, owner, holds, kept, isLive, size, new, distinct, payload⟩
  rw [size] at countOld ⊢
  refine (correct.copyOver holds distinct new kept isLive countRequest countOld).mono
    fun value final => ?_
  rintro ⟨rfl, _, _, _, _, contents⟩
  refine ⟨rfl, fun offset inside within => ?_⟩
  rw [contents offset inside]
  exact payload offset within

end Procedures

end MallocLab
