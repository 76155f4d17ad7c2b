import MallocLab.BoundaryTag.Requests
import MallocLab.Mm.Runs

/-! # Single requests to `mm.c` -/

namespace MallocLab.Mm

open Program Blocks Explicit

variable {client : Client Statics} {layout : Layout (List (Nat × Nat))} {size : Nat}

theorem lifo_exhaustive : lifo.Exhaustive := by
  intro index size _ nothing entry member
  have none := List.find?_eq_none.mp (Option.map_eq_none_iff.mp nothing) entry member
  simpa using none

/-! ## Requests below half of the address space -/

/-- A request is refused only when it is empty, or when no free block of the
heap fits and the arena is used up. Only in the second case the break would
have moved, and a refused request changes nothing. -/
theorem malloc_complete (reached : Reached client) (small : size < 2 ^ 31)
    (noWrap : interface.NoWrap client.machine size) :
    ∃ ptr after, mmMalloc size client.machine = some (ptr, after) ∧
      (ptr = null ↔ size = 0 ∨
        client.machine.NoneFits client.machine.statics.heapListp (roundUp size) ∧
          client.machine.memMaxAddr < client.machine.memBrk + max (roundUp size) chunkSize) ∧
      (after.memBrk ≠ client.machine.memBrk →
        client.machine.NoneFits client.machine.statics.heapListp (roundUp size)) ∧
      (ptr = null → after = client.machine) := by
  rcases reached.serves with ⟨layout, serves⟩
  rw [heapListp_eq serves]
  exact correct.complete lifo_exhaustive serves small
    ((Procedures.noWrap_iff correct exposes serves small).mp noWrap)

/-- What a request finds in its list needs no new space. -/
theorem noWrap_of_found (serves : procedures.Serves client layout) (small : size < 2 ^ 31)
    {address : Nat} (found : lifo.find layout.index (roundUp size) = some address) :
    interface.NoWrap client.machine size := by
  apply (Procedures.noWrap_iff correct exposes serves small).mpr
  intro _ nothing
  cases found.symm.trans nothing

theorem malloc_complete_two_live : ∃ client : Client Statics,
    client.live = [(144, 50), (32, 100)] ∧
      ∃ ptr after, mmMalloc 200 client.machine = some (ptr, after) ∧
        (ptr = null ↔ 200 = 0 ∨
          client.machine.NoneFits client.machine.statics.heapListp (roundUp 200) ∧
            client.machine.memMaxAddr < client.machine.memBrk + max (roundUp 200) chunkSize) ∧
        (after.memBrk ≠ client.machine.memBrk →
          client.machine.NoneFits client.machine.statics.heapListp (roundUp 200)) ∧
        (ptr = null → after = client.machine) := by
  rcases exists_two_live with ⟨client, run, live, serves⟩
  have reached : Reached client := run.reachable arena_empty fun _ _ => trivial
  exact ⟨client, live, malloc_complete reached (by decide)
    (noWrap_of_found serves (by decide) (rfl : _ = some 208))⟩

/-! ## Moving a block -/

/-- What is to hold after a block was moved: the new block replaces it among
the live ones and begins with its contents, and the one `memcpy` on the way,
out of the machine `mm_malloc` left, stays inside the heap and the new block
and does not overlap itself. -/
structure Reallocated (client : Client Statics) (oldptr old size new : Nat)
    (after : Client Statics) : Prop where
  live : after.live = (new, size) :: client.live.filter fun spot => spot.1 ≠ oldptr
  fresh : new ∉ client.live.map Prod.fst
  tiled : ∃ visited, after.machine.HeapTiled after.machine.statics.heapListp 16 after.live visited
  contents : ∀ offset < min old size,
    after.machine.bytes (new + offset) = client.machine.bytes (oldptr + offset)
  copies : ∃ middle copySize, mmMalloc size client.machine = some (new, middle) ∧
    mmRealloc oldptr size client.machine =
      (do memcpy new oldptr copySize
          mmFree oldptr
          return new : Program State Nat) middle ∧
    middle.Owns oldptr copySize ∧ middle.Owns new copySize ∧
    (new + copySize ≤ oldptr ∨ oldptr + copySize ≤ new) ∧
    copySize ≤ middle.headerSize new - dsize

/-- The rest of `mm_realloc` once `mm_malloc` returned a block. -/
theorem mmRealloc_of_served {oldptr new : Nat} {middle : State}
    (outcome : mmMalloc size client.machine = some (new, middle)) (nonzero : new ≠ null)
    (owns : middle.Owns (oldptr - 4) 4) :
    mmRealloc oldptr size client.machine =
      (do memcpy new oldptr (min size (middle.headerSize oldptr))
          mmFree oldptr
          return new : Program State Nat) middle := by
  have copySize : (if size < middle.headerSize oldptr then size else middle.headerSize oldptr) =
      min size (middle.headerSize oldptr) := by
    split <;> omega
  have header : getSize (hdrp oldptr) middle = some (middle.headerSize oldptr, middle) := by
    have ensured : Ensures (getSize (hdrp oldptr)) middle fun value other =>
        value = middle.headerSize oldptr ∧ other = middle := by
      rw [ensures_getSize]
      exact ⟨owns, rfl, rfl⟩
    rcases ensured with ⟨_, _, equal, rfl, rfl⟩
    exact equal
  change (mmMalloc size client.machine).bind _ = _
  rw [outcome, Option.bind_some]
  simp only [if_neg nonzero]
  change (getSize (hdrp oldptr) middle).bind _ = _
  rw [header, Option.bind_some]
  simp only [copySize]

/-- Once `mm_malloc` returned a block, `mm_realloc` moves the old one there. -/
theorem realloc_served {oldptr old new : Nat} {middle : State} (reached : Reached client)
    (live : (oldptr, old) ∈ client.live) (small : size < 2 ^ 31)
    (noWrap : interface.NoWrap client.machine size)
    (allocated : mmMalloc size client.machine = some (new, middle)) (nonzero : new ≠ null) :
    ∃ after, interface.perform (.realloc oldptr size) client = some (new, after) ∧
      Reallocated client oldptr old size new after := by
  rcases reached.serves with ⟨layout, serves⟩
  have safe := (Procedures.noWrap_iff correct exposes serves small).mp noWrap
  have spot := serves.live.mem_iff.mp live
  have permitted : interface.Permitted client (.realloc oldptr size) :=
    ⟨List.mem_map_of_mem live, small, noWrap⟩
  have beside := correct.beside serves small live allocated nonzero
  rcases (correct.mmMalloc serves.holds small safe).of_eq allocated with ⟨value, _, preserves⟩
  rcases mem_liveSpots.mp spot with ⟨owner, inHeap, _⟩
  have bounds := spot_bounds inHeap
  have start := preserves.memStartBrk
  cases served : procedures.malloc client.machine layout size with
  | mk result behind =>
      cases result with
      | none =>
          rw [served] at value
          exact absurd value nonzero
      | some place =>
          rw [served] at value
          change new = place at value
          subst value
          have moves : procedures.realloc client.machine layout oldptr size =
              (some new, behind.release lifo (procedures.base client.machine) oldptr) :=
            Layout.realloc_of_some served
          rcases correct.mmRealloc serves.holds small safe spot with
            ⟨_, final, outcome, rfl, _, moved⟩
          rw [moves] at outcome moved
          have performed : interface.perform (.realloc oldptr size) client = some (new,
              ⟨final, (new, size) :: client.live.filter fun spot => spot.1 ≠ oldptr⟩) := by
            change (procedures.mmRealloc oldptr size client.machine).map _ = _
            rw [outcome]
            simp only [Option.map_some, Option.getD_some, if_neg nonzero]
          have afterReached : Reached _ := .request reached trivial permitted performed
          rcases afterReached.tiled with ⟨visited, tiled, _⟩
          have size_eq := beside.size
          have ownsOld := beside.ownsOld
          have ownsNew := beside.ownsNew
          have apart := beside.apart
          have capacity := beside.capacity
          unfold Machine.Owns at ownsOld ownsNew
          simp only [Machine.first, Machine.origin] at bounds
          refine ⟨_, performed, rfl, ?_, ⟨visited, tiled⟩, moved.contents new rfl, middle, _,
            allocated, mmRealloc_of_served allocated nonzero ⟨?_, ?_⟩, ⟨?_, ?_⟩, ⟨?_, ?_⟩, ?_, ?_⟩
          · have added := (Layout.malloc_served correct.lawful serves.holds.wellFormed served).2.1
            have nodup := (added.map Prod.fst).nodup (liveSpots_nodup _ _)
            rw [List.map_cons, List.nodup_cons] at nodup
            exact fun member => nodup.1 ((serves.live.map Prod.fst).mem_iff.mp member)
          all_goals omega

/-- `mm_realloc` preserves the data of the block it moves, and when it returns
the null pointer nothing has changed. -/
theorem realloc_preserves {oldptr old : Nat} (reached : Reached client)
    (live : (oldptr, old) ∈ client.live) (small : size < 2 ^ 31)
    (noWrap : interface.NoWrap client.machine size) :
    ∃ new after, interface.perform (.realloc oldptr size) client = some (new, after) ∧
      (new ≠ null → Reallocated client oldptr old size new after) ∧
      (new = null → after = client) := by
  rcases reached.serves with ⟨layout, serves⟩
  have safe := (Procedures.noWrap_iff correct exposes serves small).mp noWrap
  rcases correct.complete lifo_exhaustive serves small safe with
    ⟨new, middle, allocated, _, _, unchanged⟩
  by_cases isNull : new = null
  · have same := unchanged isNull
    subst isNull same
    refine ⟨null, client, ?_, fun nonzero => absurd rfl nonzero, fun _ => rfl⟩
    have refused : mmRealloc oldptr size client.machine = some (null, client.machine) := by
      change (procedures.mmMalloc size client.machine).bind _ = _
      rw [allocated, Option.bind_some]
      rfl
    change (mmRealloc oldptr size client.machine).map _ = _
    rw [refused]
    rfl
  · rcases realloc_served reached live small noWrap allocated isNull with
      ⟨after, performed, reallocated⟩
    exact ⟨new, after, performed, fun _ => reallocated, fun same => absurd same isNull⟩

theorem realloc_preserves_two_live : ∃ client : Client Statics,
    client.live = [(144, 50), (32, 100)] ∧
      ∃ new after, interface.perform (.realloc 32 200) client = some (new, after) ∧
        (new ≠ null → Reallocated client 32 100 200 new after) ∧
        (new = null → after = client) := by
  rcases exists_two_live with ⟨client, run, live, serves⟩
  have reached : Reached client := run.reachable arena_empty fun _ _ => trivial
  have member : (32, 100) ∈ client.live := by
    rw [live]
    exact List.mem_cons_of_mem _ List.mem_cons_self
  exact ⟨client, live, realloc_preserves reached member (by decide)
    (noWrap_of_found serves (by decide) (rfl : _ = some 208))⟩

/-! ## Requests of any size -/

/-- What a request is to achieve that returned a block: the block is large
enough and the heap is tiled as before. -/
def Fitting (client : Client Statics) (size ptr : Nat) (after : State) : Prop :=
  ptr ≠ null → size ≤ after.headerSize ptr - dsize ∧
    ∃ visited, after.HeapTiled after.statics.heapListp 16 ((ptr, size) :: client.live) visited ∧
      ∀ bp ∈ visited, 16 ≤ after.headerSize bp

/-- No block has room for a size this close to the end of the address space. -/
theorem not_fitting_of_huge {ptr : Nat} {after : State} (huge : 2 ^ 32 ≤ size + 15)
    (nonzero : ptr ≠ null) : ¬Fitting client size ptr after := by
  intro fitting
  have capacity := (fitting nonzero).1
  have bound : after.headerSize ptr + 8 ≤ 2 ^ 32 := sizeField_le (after.load_lt _)
  unfold dsize at capacity
  omega

/-- The sum with the tags and the rounding wraps, and what is left is less than
the smallest block. -/
theorem adjustedSize_of_huge (huge : 2 ^ 32 ≤ size + 15) (word : size < 2 ^ 32) :
    adjustedSize size ≤ 8 ∧ adjustedSize size % 8 = 0 := by
  have inner : wrap (size + 8 + (8 - 1)) = size + 15 - 2 ^ 32 := by
    unfold wrap
    omega
  rw [adjustedSize, dsize, if_neg (by omega), inner, wrap_of_lt (by omega)]
  omega

/-- Sizes of at least half the address space do not wrap before that. -/
theorem adjustedSize_of_large (large : 2 ^ 31 ≤ size) (below : size + 15 < 2 ^ 32) :
    adjustedSize size = 8 * ((size + 15) / 8) := by
  have inner : wrap (size + 8 + (8 - 1)) = size + 15 := wrap_of_lt (by omega)
  rw [adjustedSize, dsize, if_neg (by omega), inner, wrap_of_lt (by omega)]

section Any

variable (serves : procedures.Serves client layout)

include serves

theorem findFit_outcome (asize : Nat) : findFit asize client.machine =
    some ((lifo.find layout.index asize).getD null, client.machine) :=
  Procedures.findFit_eq correct serves.holds asize

/-- Whatever a search finds is returned. -/
theorem served_of_found {address : Nat} {goal : Nat → State → Prop} (nonzero : size ≠ 0)
    (found : lifo.find layout.index (adjustedSize size) = some address)
    (ensured : Ensures (mmMalloc size) client.machine goal) :
    ∃ ptr after, ptr ≠ null ∧ goal ptr after := by
  rcases serves.holds.wellFormed.find_some lifo_lawful found with ⟨front, _, _, _, position, _⟩
  have positive : address ≠ null := by
    unfold null
    omega
  rw [mmMalloc, mallocWith] at ensured
  simp only [if_neg nonzero] at ensured
  rw [ensures_bind_of_eq (findFit_outcome serves _), found, Option.getD_some, if_pos positive,
    ensures_bind] at ensured
  rcases ensured with ⟨_, after, _, returned⟩
  exact ⟨address, after, positive, (ensures_pure _ _ _).mp returned⟩

/-- A chunk that the arena has room for is returned in any case. -/
theorem served_of_extended {goal : Nat → State → Prop} (nonzero : size ≠ 0)
    (nothing : lifo.find layout.index (adjustedSize size) = none)
    (few : max' (adjustedSize size) chunkSize = 4096)
    (room : client.machine.memBrk + 4096 ≤ client.machine.memMaxAddr)
    (ensured : Ensures (mmMalloc size) client.machine goal) :
    ∃ ptr after, ptr ≠ null ∧ goal ptr after := by
  rw [mmMalloc, mallocWith] at ensured
  simp only [if_neg nonzero, few] at ensured
  rw [ensures_bind_of_eq (findFit_outcome serves _), nothing, Option.getD_none,
    if_neg (by simp)] at ensured
  have extends_eq : extendHeap (4096 / wsize) = extendHeapWith coalesce chunk.size :=
    correct.extends_eq chunk.aligned (by decide)
  rcases correct.extend serves.holds (rfl : chunk.isFree = true) room with
    ⟨bp, middle, extended, position, _⟩
  have positive : bp ≠ null := by
    rw [position, Layout.growSpot]
    unfold null
    omega
  have outcome : extendHeap (4096 / wsize) client.machine = some (bp, middle) := by
    rw [extends_eq]
    exact extended
  rw [ensures_bind_of_eq outcome, if_neg positive, ensures_bind] at ensured
  rcases ensured with ⟨_, after, _, returned⟩
  exact ⟨bp, after, positive, (ensures_pure _ _ _).mp returned⟩

/-- An extension by at most the rest of the address space is refused when it
exceeds the arena or is negative as an `int`. -/
theorem refused_of_full {asize extendsize : Nat} (nonzero : size ≠ 0)
    (adjusted : adjustedSize size = asize) (extend : max' asize chunkSize = extendsize)
    (aligned : extendsize % 8 = 0) (word : extendsize < 2 ^ 32)
    (nothing : lifo.find layout.index asize = none)
    (refused : extendsize < 2147483648 → client.machine.memBrk + extendsize < 2 ^ 32 ∧
      client.machine.memMaxAddr < client.machine.memBrk + extendsize) :
    mmMalloc size client.machine = some (null, client.machine) := by
  suffices ensured : Ensures (mmMalloc size) client.machine fun value other =>
      value = null ∧ other = client.machine by
    rcases ensured with ⟨_, _, outcome, rfl, rfl⟩
    exact outcome
  rw [mmMalloc, mallocWith]
  simp only [if_neg nonzero, adjusted, extend]
  have extends_eq : extendHeap (extendsize / wsize) = extendHeapWith coalesce extendsize :=
    correct.extends_eq aligned word
  rw [ensures_bind_of_eq (findFit_outcome serves _), nothing, Option.getD_none,
    if_neg (by simp), ensures_bind, extends_eq]
  apply extendHeapWith_refused word refused
  rw [if_pos rfl, ensures_pure]
  exact ⟨rfl, rfl⟩

/-- Where an extension would wrap the call has no outcome. -/
theorem extends_below {extendsize : Nat} {goal : Nat → State → Prop} (nonzero : size ≠ 0)
    (extend : max' (adjustedSize size) chunkSize = extendsize) (aligned : extendsize % 8 = 0)
    (below : extendsize < 2147483648)
    (nothing : lifo.find layout.index (adjustedSize size) = none)
    (ensured : Ensures (mmMalloc size) client.machine goal) :
    client.machine.memBrk + extendsize < 2 ^ 32 := by
  by_contra wraps
  rw [mmMalloc, mallocWith] at ensured
  simp only [if_neg nonzero, extend] at ensured
  have extends_eq : extendHeap (extendsize / wsize) = extendHeapWith coalesce extendsize :=
    correct.extends_eq aligned (by omega)
  rw [ensures_bind_of_eq (findFit_outcome serves _), nothing, Option.getD_none,
    if_neg (by simp), ensures_bind, extends_eq] at ensured
  exact Procedures.extendHeapWith_wraps serves.holds below (by omega) ensured

end Any

theorem fitting_of_small (reached : Reached client) (small : size < 2 ^ 31)
    (noWrap : interface.NoWrap client.machine size) :
    Ensures (mmMalloc size) client.machine (Fitting client size) := by
  have permitted : interface.Permitted client (.malloc size) := ⟨small, noWrap⟩
  rcases reached.perform permitted with ⟨_, result, after, performed, _⟩
  have afterReached : Reached after := .request reached trivial permitted performed
  rcases Option.map_eq_some_iff.mp performed with ⟨⟨ptr, machine⟩, outcome, same⟩
  cases same
  refine ⟨ptr, machine, outcome, fun nonzero => ?_⟩
  rcases afterReached.tiled with ⟨visited, tiled, large⟩
  simp only [if_neg nonzero] at tiled
  exact ⟨tiled.capacity (ptr, size) List.mem_cons_self, visited, tiled, large⟩

/-- From half of the address space on a request that does not wrap is refused,
for as an `int` its size is negative. -/
theorem refused_of_large (serves : procedures.Serves client layout) (large : 2 ^ 31 ≤ size)
    (below : size + 15 < 2 ^ 32) :
    mmMalloc size client.machine = some (null, client.machine) ∧
      interface.NoWrap client.machine size := by
  have adjusted := adjustedSize_of_large large below
  have extend : max' (8 * ((size + 15) / 8)) chunkSize = 8 * ((size + 15) / 8) := by
    have chunk : chunkSize = 4096 := rfl
    rw [max', chunk, if_pos (by omega)]
  constructor
  · apply refused_of_full serves (by omega) adjusted extend (by omega) (by omega)
    · cases found : lifo.find layout.index (8 * ((size + 15) / 8)) with
      | none => rfl
      | some address =>
          rcases serves.holds.wellFormed.find_some lifo_lawful found with
            ⟨front, block, back, shape, _, _, enough⟩
          have short : block.size < 2 ^ 31 :=
            serves.holds.threaded.tiled.size_lt (by rw [shape]; simp)
          omega
    · omega
  · intro _ after _ extendsize short
    have same : extendsize = 8 * ((size + 15) / 8) := by
      rw [← extend, ← adjusted]
      rfl
    omega

/-- Within fifteen bytes of the end of the address space only a refused request
does no harm. -/
theorem fitting_of_huge_iff (serves : procedures.Serves client layout)
    (huge : 2 ^ 32 ≤ size + 15) (word : size < 2 ^ 32) :
    Ensures (mmMalloc size) client.machine (Fitting client size) ↔
      interface.NoWrap client.machine size ∧
        client.machine.NoneFits client.machine.statics.heapListp (adjustedSize size) ∧
        client.machine.memMaxAddr <
          client.machine.memBrk + max' (adjustedSize size) chunkSize := by
  have adjusted := adjustedSize_of_huge huge word
  have extend : max' (adjustedSize size) chunkSize = 4096 := by
    have chunk : chunkSize = 4096 := rfl
    rw [max', chunk, if_neg (by omega)]
  have nonzero : size ≠ 0 := by omega
  rw [heapListp_eq serves, Procedures.noneFits_iff correct lifo_exhaustive serves, extend]
  constructor
  · intro ensured
    have nothing : lifo.find layout.index (adjustedSize size) = none := by
      cases found : lifo.find layout.index (adjustedSize size) with
      | none => rfl
      | some address =>
          rcases served_of_found serves nonzero found ensured with ⟨_, _, positive, fitting⟩
          exact absurd fitting (not_fitting_of_huge huge positive)
    refine ⟨fun _ _ _ _ => ?_, nothing, ?_⟩
    · have below := extends_below serves nonzero extend rfl (by decide) nothing ensured
      rwa [← extend] at below
    · by_contra room
      rcases served_of_extended serves nonzero nothing extend (by omega) ensured with
        ⟨_, _, positive, fitting⟩
      exact not_fitting_of_huge huge positive fitting
  · rintro ⟨noWrap, nothing, full⟩
    have failed : findFit (adjustedSize size) client.machine = some (null, client.machine) := by
      rw [findFit_outcome serves]
      exact congrArg (fun spot => some (Option.getD spot null, client.machine)) nothing
    have below : client.machine.memBrk + max' (adjustedSize size) chunkSize < 2 ^ 32 :=
      noWrap nonzero client.machine failed (by
        change max' (adjustedSize size) chunkSize < _
        rw [extend]
        decide)
    rw [extend] at below
    exact ⟨null, client.machine, refused_of_full serves nonzero rfl extend rfl (by decide) nothing
      fun _ => ⟨below, full⟩, fun positive => absurd rfl positive⟩

/-- For any 32-bit size whatever, a returned block is large enough and leaves
the heap tiled if and only if nothing wraps around the address space and the
size is not within fifteen bytes of its end, unless the call is refused
because there is no free block at all and no room for a chunk. -/
theorem size_arithmetic (reached : Reached client) (word : size < 2 ^ 32) :
    Ensures (mmMalloc size) client.machine (Fitting client size) ↔
      interface.NoWrap client.machine size ∧
        (size + 15 < 2 ^ 32 ∨
          client.machine.NoneFits client.machine.statics.heapListp (adjustedSize size) ∧
            client.machine.memMaxAddr <
              client.machine.memBrk + max' (adjustedSize size) chunkSize) := by
  rcases reached.serves with ⟨layout, serves⟩
  by_cases small : size < 2 ^ 31
  · constructor
    · intro ensured
      exact ⟨(Procedures.noWrap_iff correct exposes serves small).mpr
        (correct.wraps serves.holds small ensured), .inl (by omega)⟩
    · exact fun safe => fitting_of_small reached small safe.1
  · by_cases below : size + 15 < 2 ^ 32
    · rcases refused_of_large serves (Nat.le_of_not_lt small) below with ⟨outcome, noWrap⟩
      constructor
      · exact fun _ => ⟨noWrap, .inl below⟩
      · exact fun _ => ⟨null, _, outcome, fun nonzero => absurd rfl nonzero⟩
    · rw [fitting_of_huge_iff serves (by omega) word]
      exact and_congr_right fun _ => (or_iff_right below).symm

/-- The largest size of all is served with the first block of the list. -/
theorem size_arithmetic_wraps : ∃ client : Client Statics, Reached client ∧
    client.live = [(144, 50), (32, 100)] ∧
      ¬Ensures (mmMalloc 4294967295) client.machine (Fitting client 4294967295) := by
  rcases exists_two_live with ⟨client, run, live, serves⟩
  refine ⟨client, run.reachable arena_empty fun _ _ => trivial, live, fun ensured => ?_⟩
  have found : lifo.find twoLive.index (adjustedSize 4294967295) = some 208 := rfl
  rcases served_of_found serves (by decide) found ensured with
    ⟨_, _, positive, fitting⟩
  exact not_fitting_of_huge (by decide) positive fitting

theorem size_arithmetic_two_live : ∃ client : Client Statics,
    client.live = [(144, 50), (32, 100)] ∧
      (Ensures (mmMalloc 4294967295) client.machine (Fitting client 4294967295) ↔
        interface.NoWrap client.machine 4294967295 ∧
          (4294967295 + 15 < 2 ^ 32 ∨
            client.machine.NoneFits client.machine.statics.heapListp (adjustedSize 4294967295) ∧
              client.machine.memMaxAddr <
                client.machine.memBrk + max' (adjustedSize 4294967295) chunkSize)) := by
  rcases exists_two_live with ⟨client, run, live, _⟩
  exact ⟨client, live, size_arithmetic (run.reachable arena_empty fun _ _ => trivial) (by decide)⟩

end MallocLab.Mm
