import MallocLab.BoundaryTag.Requests
import MallocLab.Segregated.Runs

/-! # Single requests to `segregated_list-85.c` -/

namespace MallocLab.Segregated

open Program Blocks

variable {client : Client Statics} {layout : Layout Groups} {ptr size : Nat}

/-! ## The search -/

/-- `find_fit` ends for every size. It returns the null pointer when no free
block of the heap is large enough, and otherwise one of the smallest that are. -/
theorem best_fit (reached : Reached client) (asize : Nat) :
    ∃ bp visited, findFit asize client.machine = some (bp, client.machine) ∧
      client.machine.Walk (client.machine.memStartBrk + 8) visited client.machine.memBrk ∧
      (bp = null ↔ ∀ other ∈ visited, client.machine.headerAlloc other = 0 →
        client.machine.headerSize other < asize) ∧
      (bp ≠ null → (bp ∈ visited ∧ client.machine.headerAlloc bp = 0) ∧
        asize ≤ client.machine.headerSize bp ∧
        ∀ other ∈ visited, client.machine.headerAlloc other = 0 →
          asize ≤ client.machine.headerSize other →
          client.machine.headerSize bp ≤ client.machine.headerSize other) := by
  rcases reached.serves with ⟨layout, serves⟩
  have ordered : segregated.Ordered layout.index := serves.holds.wellFormed.ordered
  have outcome : findFit asize client.machine =
      some ((segregated.find layout.index asize).getD null, client.machine) :=
    Procedures.findFit_eq correct serves.holds asize
  cases found : segregated.find layout.index asize with
  | none =>
      rw [found] at outcome
      refine ⟨_, _, outcome, serves.heapTiled.walk,
        ⟨fun _ other member isFree => ?_, fun _ => rfl⟩, fun nonzero => absurd rfl nonzero⟩
      have listed := (listed_iff serves).mpr ⟨member, isFree, rfl⟩
      exact segregated_exhaustive ordered found _ listed
  | some bp =>
      rw [found] at outcome
      rcases find_least ordered found with ⟨available, listed, enough, least⟩
      rcases (listed_iff serves).mp listed with ⟨member, isFree, same⟩
      have nonzero : bp ≠ null := by
        rcases serves.holds.wellFormed.find_some segregated_lawful found with
          ⟨front, _, _, _, rfl, _⟩
        unfold null
        omega
      refine ⟨bp, _, outcome, serves.heapTiled.walk,
        ⟨fun isNull => absurd isNull nonzero, fun small => ?_⟩,
        fun _ => ⟨⟨member, isFree⟩, same ▸ enough, fun other otherMember otherFree fits => ?_⟩⟩
      · have tooSmall := small bp member isFree
        omega
      · rw [same]
        exact least _ ((listed_iff serves).mpr ⟨otherMember, otherFree, rfl⟩) fits

/-- The search for any size in the heap with two live blocks. -/
theorem best_fit_two_live : ∃ client : Client Statics, client.live = [(136, 50), (24, 100)] ∧
    ∃ bp visited, findFit 4000000000 client.machine = some (bp, client.machine) ∧
      client.machine.Walk (client.machine.memStartBrk + 8) visited client.machine.memBrk ∧
      (bp = null ↔ ∀ other ∈ visited, client.machine.headerAlloc other = 0 →
        client.machine.headerSize other < 4000000000) ∧
      (bp ≠ null → (bp ∈ visited ∧ client.machine.headerAlloc bp = 0) ∧
        4000000000 ≤ client.machine.headerSize bp ∧
        ∀ other ∈ visited, client.machine.headerAlloc other = 0 →
          4000000000 ≤ client.machine.headerSize other →
          client.machine.headerSize bp ≤ client.machine.headerSize other) := by
  rcases exists_reached with ⟨client, reached, live, _⟩
  exact ⟨client, live, best_fit reached 4000000000⟩

/-! ## Growing a block -/

/-- What is to hold of the copy when `mm_malloc` returned a block: the one
`memcpy` reads bytes of the old block only, inside the heap and apart from what
it writes, and the new payload begins with the whole old one. -/
def CopiesSafely (client : Client Statics) (ptr size : Nat) : Prop :=
  ∀ newPtr middle, mmMalloc size client.machine = some (newPtr, middle) → newPtr ≠ null →
    mmRealloc ptr size client.machine =
      (do memcpy newPtr ptr size
          mmFree ptr
          return newPtr : Program State Nat) middle ∧
    ptr + size ≤ hdrp ptr + client.machine.headerSize ptr ∧ middle.Owns ptr size ∧
    (newPtr + size ≤ ptr ∨ ptr + size ≤ newPtr) ∧
    ∃ final, mmRealloc ptr size client.machine = some (newPtr, final) ∧
      ∀ offset < client.machine.headerSize ptr - dsize,
        final.bytes (newPtr + offset) = client.machine.bytes (ptr + offset)

section Grow

variable (serves : procedures.Serves client layout) {old : Nat} (live : (ptr, old) ∈ client.live)
  (small : size < 2 ^ 31)

include serves live

/-- A block that is too small is not resized in place. -/
theorem mmRealloc_of_grows {newPtr : Nat} {middle : State} (positive : 0 < size)
    (grows : client.machine.headerSize ptr < newSize size)
    (outcome : mmMalloc size client.machine = some (newPtr, middle)) (nonzero : newPtr ≠ null) :
    mmRealloc ptr size client.machine =
      (do memcpy newPtr ptr size
          mmFree ptr
          return newPtr : Program State Nat) middle := by
  rcases mem_liveSpots.mp (serves.live.mem_iff.mp live) with ⟨block, spot, _⟩
  have here := serves.holds.threaded.tiled.blockAt (List.mem_cons_of_mem _ spot)
  have bounds := spot_bounds spot
  have notNull : ptr ≠ null := by
    unfold null
    omega
  have header : getSize (hdrp ptr) client.machine =
      some (client.machine.headerSize ptr, client.machine) := by
    have ensured : Ensures (getSize (hdrp ptr)) client.machine fun value other =>
        value = client.machine.headerSize ptr ∧ other = client.machine := by
      rw [ensures_getSize]
      exact ⟨here.ownsHeader, rfl, rfl⟩
    rcases ensured with ⟨_, _, equal, rfl, rfl⟩
    exact equal
  rw [mmRealloc, if_neg (Nat.ne_of_gt positive), if_neg notNull]
  change (getSize (hdrp ptr) client.machine).bind _ = _
  rw [header, Option.bind_some]
  simp only [if_neg (Nat.not_le_of_lt grows)]
  change (mmMalloc size client.machine).bind _ = _
  rw [outcome, Option.bind_some]
  simp only [if_neg nonzero]

include small

/-- A block and its tags are all that is read as long as no more than the
footer is read besides the payload. -/
theorem copiesSafely_of_le (positive : 0 < size)
    (grows : client.machine.headerSize ptr < newSize size)
    (within : size + 4 ≤ client.machine.headerSize ptr) : CopiesSafely client ptr size := by
  intro newPtr middle outcome nonzero
  have program := mmRealloc_of_grows serves live positive grows outcome nonzero
  have beside := correct.beside serves small live outcome nonzero
  rcases correct.copies serves small live outcome nonzero (Nat.le_refl size) (by omega) with
    ⟨_, final, moved, rfl, contents⟩
  have ownsOld := beside.ownsOld
  have apart := beside.apart
  rcases mem_liveSpots.mp (serves.live.mem_iff.mp live) with ⟨block, spot, _⟩
  rcases serves.block_facts spot with ⟨blockSize, atLeast, _⟩
  have bounds := spot_bounds spot
  have aligned := block.aligned
  have large : client.machine.headerSize ptr ≤ size + 7 := by
    rw [newSize, Procedures.align_eq_roundUp positive small, roundUp] at grows
    omega
  refine ⟨program, ?_, ⟨ownsOld.1, ?_⟩, ?_, final, program.trans moved, fun offset inside => ?_⟩
  · rw [hdrp_eq]
    omega
  · have high := ownsOld.2
    omega
  · omega
  · unfold dsize at inside
    exact contents offset (by omega) (by unfold dsize; omega)

end Grow

/-- When a block has to grow, the copy is safe if and only if the new size does
not reach past the footer of the old block, or nothing is copied at all because
no free block fits and the arena is used up. -/
theorem growing_copy {old : Nat} (reached : Reached client) (live : (ptr, old) ∈ client.live)
    (small : size < 2 ^ 31) (grows : client.machine.headerSize ptr < newSize size) :
    CopiesSafely client ptr size ↔
      size + 4 ≤ client.machine.headerSize ptr ∨
        client.machine.NoneFits (client.machine.memStartBrk + 8) (newSize size) ∧
          client.machine.memMaxAddr < client.machine.memBrk + max (newSize size) chunkSize := by
  rcases reached.serves with ⟨layout, serves⟩
  have positive : 0 < size := by
    rcases mem_liveSpots.mp (serves.live.mem_iff.mp live) with ⟨block, spot, _⟩
    rcases serves.block_facts spot with ⟨blockSize, atLeast, _⟩
    cases size with
    | zero =>
        rw [blockSize, show newSize 0 = 8 from rfl] at grows
        omega
    | succ size => exact Nat.succ_pos size
  have adjusted : newSize size = roundUp size := Procedures.align_eq_roundUp positive small
  have extend : max (newSize size) chunkSize = extension size := by
    rw [adjusted]
    rfl
  rw [extend, adjusted]
  constructor
  · intro safe
    by_contra neither
    rw [not_or, not_and_or] at neither
    have noWrap : procedures.NoWrap client.machine layout size := by
      intro _ nothing _
      have addressable := serves.holds.threaded.tiled.addressable
      have fits := (Procedures.noneFits_iff correct segregated_exhaustive serves).mpr nothing
      rcases neither.2 with some | room
      · exact absurd fits some
      · omega
    rcases correct.complete segregated_exhaustive serves small noWrap with
      ⟨newPtr, middle, outcome, refused, _⟩
    have nonzero : newPtr ≠ null := by
      intro isNull
      rcases refused.mp isNull with zero | full
      · omega
      · rcases neither.2 with some | room
        · exact some full.1
        · exact room full.2
    have reads := (safe newPtr middle outcome nonzero).2.1
    rcases mem_liveSpots.mp (serves.live.mem_iff.mp live) with ⟨block, spot, _⟩
    have bounds := spot_bounds spot
    rw [hdrp_eq] at reads
    omega
  · rintro (within | full) newPtr middle outcome nonzero
    · exact copiesSafely_of_le serves live small positive grows within newPtr middle outcome nonzero
    · have ensured : Ensures (mmMalloc size) client.machine fun _ _ => True :=
        ⟨_, _, outcome, trivial⟩
      have noWrap := correct.wraps serves.holds small ensured
      rcases correct.complete segregated_exhaustive serves small noWrap with
        ⟨value, _, same, refused, _⟩
      have isNull := refused.mpr (.inr full)
      cases outcome.symm.trans same
      exact absurd isNull nonzero

/-- Growing by a few bytes reads no more than the footer. -/
theorem growing_copy_two_live : ∃ client : Client Statics,
    client.live = [(136, 50), (24, 100)] ∧
      (CopiesSafely client 24 105 ↔ 105 + 4 ≤ client.machine.headerSize 24 ∨
        client.machine.NoneFits (client.machine.memStartBrk + 8) (newSize 105) ∧
          client.machine.memMaxAddr < client.machine.memBrk + max (newSize 105) chunkSize) ∧
      client.machine.headerSize 24 = 112 := by
  rcases exists_reached with ⟨client, reached, live, serves, start⟩
  have size : client.machine.headerSize 24 = 112 := headerSize_two_live serves start
  have member : (24, 100) ∈ client.live := by
    rw [live]
    exact List.mem_cons_of_mem _ List.mem_cons_self
  exact ⟨client, live, growing_copy reached member (by decide) (by rw [size]; decide), size⟩

/-- Doubling the size of a block reads what lies behind it. -/
theorem growing_copy_reads_on : ∃ client : Client Statics, Reached client ∧
    client.live = [(136, 50), (24, 100)] ∧ client.machine.headerSize 24 < newSize 200 ∧
      ¬CopiesSafely client 24 200 := by
  rcases exists_reached with ⟨client, reached, live, serves, start⟩
  have size : client.machine.headerSize 24 = 112 := headerSize_two_live serves start
  have found : segregated.find twoLive.index (roundUp 200) = some 200 := rfl
  refine ⟨client, reached, live, by rw [size]; decide, fun safe => ?_⟩
  have noWrap : procedures.NoWrap client.machine twoLive 200 := by
    intro _ nothing
    cases found.symm.trans nothing
  rcases correct.complete segregated_exhaustive serves (by decide : 200 < 2 ^ 31) noWrap with
    ⟨newPtr, middle, outcome, refused, _⟩
  have nonzero : newPtr ≠ null := by
    intro isNull
    rcases refused.mp isNull with zero | full
    · cases zero
    · have nothing := (Procedures.noneFits_iff correct segregated_exhaustive serves).mp full.1
      cases found.symm.trans nothing
  have reads := (safe newPtr middle outcome nonzero).2.1
  rw [size, hdrp_eq] at reads
  omega

end MallocLab.Segregated
