import MallocLab.BoundaryTag.Undo
import MallocLab.Mm.Requests

/-! # What `mm_free` makes visible

The picture of the heap shows the blocks of the walk and the members of the free
list. Whatever the order of the calls, `mm_free` leaves the same picture.
-/

namespace MallocLab.Mm

open Program Blocks Explicit

variable {client : Client Statics} {layout : Layout (List (Nat × Nat))} {size : Nat}

/-- The blocks that the heap walk meets, and the members of the free list. -/
structure Shows (machine : State) (walk : List Seen) (ring : List Nat) : Prop where
  sees : machine.Sees machine.statics.heapListp walk
  nodup : ring.Nodup
  linked : Linked machine.pred machine.succ
    (machine.statics.heapListp :: ring ++ [machine.statics.heapListp])
  members : ∀ bp, bp ∈ ring ↔ ∃ seen ∈ walk, seen.bp = bp ∧ seen.alloc = 0

theorem shows_of_serves (serves : procedures.Serves client layout) :
    Shows client.machine (procedures.picture client.machine layout)
      (layout.index.map Prod.fst) := by
  have listp := heapListp_eq serves
  have sees := serves.sees
  rcases ring_exact serves with ⟨nodup, exact, linked⟩
  refine ⟨listp ▸ sees, nodup, linked, fun bp => ?_⟩
  rcases sees with ⟨visited, walk, picture⟩
  have same := (serves.heapTiled.walk.unique walk).1
  rw [exact, picture, ← same]
  constructor
  · rintro ⟨member, free⟩
    exact ⟨_, List.mem_map_of_mem member, rfl, free⟩
  · rintro ⟨seen, member, rfl, free⟩
    rcases List.mem_map.mp member with ⟨bp, isVisited, rfl⟩
    exact ⟨isVisited, free⟩

/-- Two pictures with one walk have the same members. -/
theorem Shows.same_members {machine other : State} {walk : List Seen} {ring otherRing : List Nat}
    (shows' : Shows machine walk ring) (otherShows : Shows other walk otherRing) :
    ∀ bp, bp ∈ ring ↔ bp ∈ otherRing := by
  intro bp
  rw [shows'.members, otherShows.members]

/-! ## Any order of frees -/

/-- A maximal run of free blocks in a walk. -/
structure MaximalRun (walk front : List Seen) (first : Seen) (rest back : List Seen) : Prop where
  shape : walk = front ++ (first :: rest ++ back)
  free : ∀ seen ∈ first :: rest, seen.alloc = 0
  before : ∀ last ∈ front.getLast?, last.alloc ≠ 0
  after : ∀ next ∈ back.head?, next.alloc ≠ 0

/-- One order of frees. -/
theorem frees_show (serves : procedures.Serves client layout) {ptrs order : List Nat}
    (nodup : ptrs.Nodup) (live : ∀ ptr ∈ ptrs, ptr ∈ client.live.map Prod.fst)
    (perm : order.Perm ptrs) :
    Ensures (interface.freeAll order) client fun _ after => ∃ ring,
      Shows after.machine
        (Seen.fuse (Seen.mark ptrs (procedures.picture client.machine layout))) ring := by
  have orderNodup : order.Nodup := perm.symm.nodup nodup
  have orderLive : ∀ ptr ∈ order, ptr ∈ client.live.map Prod.fst := fun ptr member =>
    live ptr (perm.mem_iff.mp member)
  apply (serves.freeAll correct exposes orderNodup orderLive).mono
  rintro _ after ⟨final, served, start, picture⟩
  have shown := shows_of_serves served
  rw [picture, Seen.mark_congr fun bp => perm.mem_iff] at shown
  exact ⟨_, shown⟩

/-- Two orders of freeing the same live blocks leave the same walk and the same
members of the free list. In this walk every maximal run of blocks that were free
or given back is one free block. -/
theorem frees_commute (reached : Reached client) :
    ∃ walk ring, Shows client.machine walk ring ∧
      ∀ ptrs : List Nat, ptrs.Nodup → (∀ ptr ∈ ptrs, ptr ∈ client.live.map Prod.fst) →
        (∀ order other : List Nat, order.Perm ptrs → other.Perm ptrs →
          ∃ after otherAfter afterRing otherRing,
            interface.freeAll order client = some ((), after) ∧
            interface.freeAll other client = some ((), otherAfter) ∧
            Shows after.machine (Seen.fuse (Seen.mark ptrs walk)) afterRing ∧
            Shows otherAfter.machine (Seen.fuse (Seen.mark ptrs walk)) otherRing ∧
            ∀ bp, bp ∈ afterRing ↔ bp ∈ otherRing) ∧
        ∀ front first rest back, MaximalRun (Seen.mark ptrs walk) front first rest back →
          Seen.fuse (Seen.mark ptrs walk) = Seen.fuse front ++
            ⟨first.bp, ((first :: rest).map Seen.size).sum, 0⟩ :: Seen.fuse back := by
  rcases reached.serves with ⟨layout, serves⟩
  refine ⟨_, _, shows_of_serves serves, fun ptrs nodup live => ⟨?_, ?_⟩⟩
  · intro order other perm otherPerm
    rcases frees_show serves nodup live perm with ⟨_, after, outcome, ring, shown⟩
    rcases frees_show serves nodup live otherPerm with
      ⟨_, otherAfter, otherOutcome, otherRing, otherShown⟩
    exact ⟨after, otherAfter, ring, otherRing, outcome, otherOutcome, shown, otherShown,
      shown.same_members otherShown⟩
  · intro front first rest back run
    rw [run.shape]
    exact Seen.fuse_run run.free run.before run.after

theorem frees_commute_two_live : ∃ client : Client Statics,
    client.live = [(144, 50), (32, 100)] ∧
      ∃ after otherAfter walk afterRing otherRing,
        interface.freeAll [144, 32] client = some ((), after) ∧
        interface.freeAll [32, 144] client = some ((), otherAfter) ∧
        Shows after.machine walk afterRing ∧ Shows otherAfter.machine walk otherRing := by
  rcases exists_reached with ⟨client, reached, live⟩
  rcases frees_commute reached with ⟨walk, ring, _, frees⟩
  have isLive : ∀ ptr ∈ [144, 32], ptr ∈ client.live.map Prod.fst := by simp [live]
  rcases (frees [144, 32] (by decide) isLive).1 [144, 32] [32, 144] (.refl _) (by decide) with
    ⟨after, otherAfter, afterRing, otherRing, outcome, otherOutcome, shown, otherShown, _⟩
  exact ⟨client, live, after, otherAfter, _, afterRing, otherRing, outcome, otherOutcome, shown,
    otherShown⟩

/-! ## A request that is given back -/

/-- The picture before a request and the one after it was given back differ in
the bytes by which the heap was extended, which are free bytes at its end. -/
structure Restored (brk newBrk : Nat) (walk longer : List Seen) (ring afterRing : List Nat) :
    Prop where
  same : newBrk = brk → longer = walk ∧ ∀ bp, bp ∈ afterRing ↔ bp ∈ ring
  extended : newBrk ≠ brk → brk < newBrk ∧ Seen.Stretched walk brk (newBrk - brk) longer ∧
    ∀ bp, bp ∈ afterRing ↔ bp ∈ ring ∨ bp = brk ∧ ∀ last ∈ walk.getLast?, last.alloc ≠ 0

/-- A live block that stayed where it was, with its size and its payload. -/
structure Untouched (machine after : State) (bp : Nat) : Prop where
  size : after.headerSize bp = machine.headerSize bp
  payload : SameRange machine after bp (machine.headerSize bp - dsize)

/-- What `perform` does with `mm_malloc` and `mm_free`. -/
theorem machine_of_malloc {ptr : Nat} {after : Client Statics}
    (performed : interface.perform (.malloc size) client = some (ptr, after)) :
    mmMalloc size client.machine = some (ptr, after.machine) := by
  rcases Option.map_eq_some_iff.mp performed with ⟨outcome, returned, same⟩
  cases same
  exact returned

theorem machine_of_free {ptr result : Nat} {after : Client Statics}
    (performed : interface.perform (.free ptr) client = some (result, after)) :
    mmFree ptr client.machine = some ((), after.machine) := by
  rcases Option.map_eq_some_iff.mp performed with ⟨outcome, returned, same⟩
  cases same
  exact returned

/-- The other blocks are where they were after `mm_malloc` and `mm_free`. -/
theorem untouched {ptr : Nat} {middle after : Client Statics} {behind : Layout (List (Nat × Nat))}
    (serves : procedures.Serves client layout) (served : procedures.Serves middle behind)
    (small : size < 2 ^ 31) (nonzero : ptr ≠ null)
    (allocated : interface.perform (.malloc size) client = some (ptr, middle))
    (freed : interface.perform (.free ptr) middle = some (null, after)) {spot : Nat × Nat}
    (isLive : spot ∈ client.live) :
    spot ∈ after.live ∧ Untouched client.machine after.machine spot.1 := by
  have middleLive : middle.live = (ptr, size) :: client.live := by
    rw [perform_live allocated]
    exact if_neg nonzero
  have nodup := served.nodup
  rw [middleLive, List.map_cons, List.nodup_cons] at nodup
  have mapped : spot.1 ∈ client.live.map Prod.fst := List.mem_map_of_mem isLive
  have different : spot.1 ≠ ptr := fun same => nodup.1 (same ▸ mapped)
  have stillLive : spot ∈ middle.live := by
    rw [middleLive]
    exact List.mem_cons_of_mem _ isLive
  have isGiven : ptr ∈ middle.live.map Prod.fst := by
    rw [middleLive]
    exact List.mem_cons_self
  have beside := correct.beside serves small isLive (machine_of_malloc allocated) nonzero
  rcases correct.beside_free served stillLive isGiven different (machine_of_free freed) with
    ⟨_, sizeAfter, payloadAfter⟩
  refine ⟨?_, sizeAfter.trans beside.size, fun offset inside => ?_⟩
  · rw [perform_live freed]
    exact List.mem_filter.mpr ⟨stillLive, decide_eq_true different⟩
  · rw [payloadAfter offset (beside.size ▸ inside), beside.payload offset inside]

/-- What the pictures of three states tell when the last one is that of
`picture_undo`. -/
theorem restored {behind : Layout (List (Nat × Nat))} {middle after : State} {ring : List Nat}
    {ptr : Nat} (serves : procedures.Serves client layout) (holds : procedures.Holds middle behind)
    (start : middle.memStartBrk = client.machine.memStartBrk)
    (outcome : procedures.malloc client.machine layout size = (some ptr, behind))
    (shown : Shows after
      (Seen.fuse (Seen.mark [ptr] (procedures.picture client.machine behind))) ring) :
    Restored client.machine.memBrk middle.memBrk (procedures.picture client.machine layout)
      (Seen.fuse (Seen.mark [ptr] (procedures.picture client.machine behind)))
      (layout.index.map Prod.fst) ring := by
  have before := shows_of_serves serves
  have extent := Procedures.Holds.extent serves.holds
  have middleExtent := Procedures.Holds.extent holds
  have large := extension_ge size
  cases serves.picture_undo correct.lawful outcome with
  | inl unchanged =>
      constructor
      · intro _
        refine ⟨unchanged.2, fun bp => ?_⟩
        rw [shown.members, before.members, unchanged.2]
      · intro moved
        have length := unchanged.1
        omega
  | inr stretched =>
      have length := stretched.1
      have bytes : middle.memBrk - client.machine.memBrk = extension size := by omega
      constructor
      · intro _
        omega
      · intro _
        refine ⟨by omega, bytes ▸ stretched.2, fun bp => ?_⟩
        rw [shown.members, before.members]
        exact stretched.2.members bp

/-- Giving a block back right after it was requested restores the heap. -/
theorem free_undoes_malloc (reached : Reached client) (small : size < 2 ^ 31)
    (noWrap : interface.NoWrap client.machine size) :
    ∃ walk ring ptr middle, Shows client.machine walk ring ∧
      interface.perform (.malloc size) client = some (ptr, middle) ∧
      (ptr ≠ null → ∃ after longer afterRing,
        interface.perform (.free ptr) middle = some (null, after) ∧
        Shows after.machine longer afterRing ∧
        after.machine.memBrk = middle.machine.memBrk ∧
        Restored client.machine.memBrk middle.machine.memBrk walk longer ring afterRing ∧
        ∀ spot ∈ client.live, spot ∈ after.live ∧
          Untouched client.machine after.machine spot.1) := by
  rcases reached.serves with ⟨layout, serves⟩
  rcases Procedures.perform_malloc correct exposes serves ⟨small, noWrap⟩ with
    ⟨ptr, middle, allocated, performed⟩
  refine ⟨_, _, ptr, middle, shows_of_serves serves, allocated, fun nonzero => ?_⟩
  have middleLive : middle.live = (ptr, size) :: client.live := by
    rw [perform_live allocated]
    exact if_neg nonzero
  have isLive : ptr ∈ middle.live.map Prod.fst := by
    rw [middleLive]
    exact List.mem_cons_self
  have value := performed.result
  have served := performed.serves
  cases outcome : procedures.malloc client.machine layout size with
  | mk result behind =>
      have next : procedures.next (procedures.base client.machine) layout (.malloc size) =
          (result, behind) := outcome
      rw [next] at value served
      cases result with
      | none => exact absurd value nonzero
      | some place =>
          change ptr = place at value
          subst value
          rcases Procedures.perform_free correct exposes served isLive with
            ⟨_, after, freed, final⟩
          cases final.result
          have spot : (ptr, size) ∈ liveSpots (procedures.base middle.machine) behind.blocks :=
            served.live.mem_iff.mp (middleLive ▸ List.mem_cons_self)
          have picture : procedures.picture after.machine
              (procedures.release middle.machine behind ptr) =
              Seen.fuse (Seen.mark [ptr] (procedures.picture client.machine behind)) := by
            rw [Procedures.picture_congr final.memStartBrk, served.picture_release spot,
              Procedures.picture_congr performed.memStartBrk]
          have shown := shows_of_serves final.serves
          change Shows after.machine (procedures.picture after.machine
            (procedures.release middle.machine behind ptr)) _ at shown
          rw [picture] at shown
          rcases (correct.mmFree served.holds spot).of_eq (machine_of_free freed) with ⟨_, keeps⟩
          exact ⟨after, _, _, freed, shown, keeps.arena.memBrk,
            restored serves served.holds performed.memStartBrk outcome shown,
            fun other => untouched serves served small nonzero allocated freed⟩

theorem free_undoes_malloc_two_live : ∃ client : Client Statics,
    client.live = [(144, 50), (32, 100)] ∧
      ∃ walk ring ptr middle, Shows client.machine walk ring ∧
        interface.perform (.malloc 200) client = some (ptr, middle) ∧
        (ptr ≠ null → ∃ after longer afterRing,
          interface.perform (.free ptr) middle = some (null, after) ∧
          Shows after.machine longer afterRing ∧
          after.machine.memBrk = middle.machine.memBrk ∧
          Restored client.machine.memBrk middle.machine.memBrk walk longer ring afterRing ∧
          ∀ spot ∈ client.live, spot ∈ after.live ∧
            Untouched client.machine after.machine spot.1) := by
  rcases exists_two_live with ⟨client, run, live, serves⟩
  exact ⟨client, live, free_undoes_malloc (run.reachable arena_empty fun _ _ => trivial)
    (by decide) (noWrap_of_found serves (by decide) (rfl : _ = some 208))⟩

end MallocLab.Mm
