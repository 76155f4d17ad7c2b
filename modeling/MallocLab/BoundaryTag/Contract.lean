import MallocLab.BoundaryTag.Growth
import MallocLab.BoundaryTag.Sight

/-! # What every package of boundary tags promises

The promises that clients rely on follow from what the procedures of a package
achieve, so they are the same for all packages.
-/

namespace MallocLab

open Program Blocks

variable {Statics : Type}

/-- What holds in every state of every run with requests of some kind. The heap
begins with a prologue of a fixed size. -/
structure Contract (interface : Interface Statics) (allowed : Request → Prop)
    (prologueSize : Nat) : Prop where
  /-- `mm_init` succeeds. -/
  begins : ∀ machine : Machine Statics, machine.Empty →
    ∃ after, interface.mmInit machine = some (0, after)
  /-- The blocks of the heap walk tile the heap. -/
  tiled : ∀ {client}, Reachable interface allowed client →
    ∃ visited, client.machine.HeapTiled (client.machine.memStartBrk + 8) prologueSize client.live
      visited
  /-- A call returns and leaves the other live blocks alone. -/
  responds : ∀ {client request}, Reachable interface allowed client → allowed request →
    interface.Permitted client request →
    Ensures (interface.perform request) client fun _ after =>
      ∀ spot ∈ client.live, request.target? ≠ some spot.1 →
        SameRange client.machine after.machine spot.1 spot.2
  /-- Only for want of space is a request refused, and then nothing has changed. -/
  complete : ∀ {client size}, Reachable interface allowed client →
    interface.Permitted client (.malloc size) →
    ∃ ptr after, interface.mmMalloc size client.machine = some (ptr, after) ∧
      (ptr = null ↔ size = 0 ∨
        client.machine.NoneFits (client.machine.memStartBrk + 8) (roundUp size) ∧
          client.machine.memMaxAddr < client.machine.memBrk + max (roundUp size) chunkSize) ∧
      (after.memBrk ≠ client.machine.memBrk →
        client.machine.NoneFits (client.machine.memStartBrk + 8) (roundUp size)) ∧
      (ptr = null → after = client.machine)
  /-- A resized block is new and keeps its contents. -/
  moves : ∀ {client ptr old size}, Reachable interface allowed client →
    allowed (.realloc ptr size) → (ptr, old) ∈ client.live →
    interface.Permitted client (.realloc ptr size) →
    Ensures (interface.perform (.realloc ptr size)) client fun new after =>
      if new = null then after = client
      else new ∉ client.live.map Prod.fst ∧
        after.live = (new, size) :: (client.live.filter fun spot => spot.1 ≠ ptr) ∧
        ∀ offset < min old size,
          after.machine.bytes (new + offset) = client.machine.bytes (ptr + offset)
  /-- Blocks may be given back in any order: they and the free blocks around them
  become one. -/
  commutes : ∀ {client ptrs}, Reachable interface allowed client → ptrs.Nodup →
    (∀ ptr ∈ ptrs, ptr ∈ client.live.map Prod.fst) →
    ∃ walk, client.machine.Sees (client.machine.memStartBrk + 8) walk ∧
      ∀ order, order.Perm ptrs → Ensures (interface.freeAll order) client fun _ after =>
        after.machine.Sees (client.machine.memStartBrk + 8) (Seen.fuse (Seen.mark ptrs walk))
  /-- When nothing is live all space is in one free block. -/
  drained : ∀ {client}, Reachable interface allowed client → client.live = [] →
    client.machine.Sees (client.machine.memStartBrk + 8)
      [⟨client.machine.memStartBrk + 8, prologueSize, 1⟩,
        ⟨client.machine.memStartBrk + 8 + prologueSize,
          client.machine.memBrk - (client.machine.memStartBrk + 8 + prologueSize), 0⟩]

/-- Blocks that are free and coalesced are one block at most. -/
theorem Blocks.single_of_free {blocks : List Block} (coalesced : Coalesced blocks)
    (free : ∀ block ∈ blocks, block.isFree = true) (nonempty : total blocks ≠ 0) :
    ∃ block, blocks = [block] ∧ block.isFree = true := by
  match blocks, coalesced, free, nonempty with
  | [block], _, free, _ => exact ⟨block, rfl, free block List.mem_cons_self⟩
  | first :: second :: rest, coalesced, free, _ =>
      have apart := (List.isChain_cons_cons.mp coalesced).1
      rw [free first (by simp), free second (by simp)] at apart
      simp at apart

namespace Procedures

variable {Index : Type} {package : Procedures Statics Index} {interface : Interface Statics}
  {empty : Index} {client : Client Statics} {layout : Layout Index} {ptr old size : Nat}

/-- Without live blocks every block is free. -/
theorem Serves.free_of_drained (serves : package.Serves client layout) (none : client.live = []) :
    ∀ block ∈ layout.blocks, block.isFree = true := by
  intro block member
  obtain ⟨front, back, shape⟩ := List.append_of_mem member
  have spot : (package.base client.machine + total front + 4, block) ∈
      spots (package.base client.machine) layout.blocks := by
    rw [shape, spots_append, spots_cons]
    exact List.mem_append_right _ List.mem_cons_self
  have noSpots : liveSpots (package.base client.machine) layout.blocks = [] :=
    (none ▸ serves.live).nil_eq.symm
  cases usage : block.usage with
  | free => rw [Block.isFree, usage]
  | live request =>
      have isLive := mem_liveSpots.mpr ⟨block, spot, by rw [Block.request?, usage]⟩
      rw [noSpots] at isLive
      cases isLive
  | sentinel => exact absurd usage (serves.holds.wellFormed.proper block member)

/-- The heap of a client that holds nothing is one free block. -/
theorem Serves.sees_drained (serves : package.Serves client layout) (none : client.live = [])
    (nonempty : total layout.blocks ≠ 0) :
    client.machine.Sees (client.machine.memStartBrk + 8)
      [⟨client.machine.memStartBrk + 8, package.prologue.size, 1⟩,
        ⟨client.machine.memStartBrk + 8 + package.prologue.size,
          client.machine.memBrk - (client.machine.memStartBrk + 8 + package.prologue.size), 0⟩] := by
  rcases single_of_free serves.holds.wellFormed.coalesced (serves.free_of_drained none) nonempty
    with ⟨block, single, isFree⟩
  have extent := serves.holds.extent
  have sees := serves.sees
  have used : package.prologue.isFree = false := by
    rw [Block.isFree, serves.holds.sentinel]
  have size : client.machine.memBrk - (client.machine.memStartBrk + 8 + package.prologue.size) =
      block.size := by
    rw [extent, single, Nat.add_sub_cancel_left, total_cons]
    simp
  rw [picture, single, view_cons, view_cons, view_nil, used, isFree] at sees
  rw [size]
  have first : client.machine.origin + 4 = client.machine.memStartBrk + 8 := by
    rw [Machine.origin]
  have second : client.machine.origin + package.prologue.size + 4 =
      client.machine.memStartBrk + 8 + package.prologue.size := by
    rw [Machine.origin]
    omega
  rw [first, second] at sees
  exact sees

section Requests

variable (correct : package.Correct) (exposes : package.Exposes interface empty)

include correct exposes

/-- What `mm_realloc` of the package does to a live block. -/
theorem Serves.moves (mmRealloc : interface.mmRealloc = package.mmRealloc)
    (serves : package.Serves client layout) (live : (ptr, old) ∈ client.live)
    (permitted : interface.Permitted client (.realloc ptr size)) :
    Ensures (interface.perform (.realloc ptr size)) client fun new after =>
      if new = null then after = client
      else new ∉ client.live.map Prod.fst ∧
        after.live = (new, size) :: (client.live.filter fun spot => spot.1 ≠ ptr) ∧
        ∀ offset < min old size,
          after.machine.bytes (new + offset) = client.machine.bytes (ptr + offset) := by
  obtain ⟨_, small, noWrap⟩ := permitted
  have safe := (noWrap_iff correct exposes serves small).mp noWrap
  have spot := serves.live.mem_iff.mp live
  have wellFormed := serves.holds.wellFormed
  apply ensures_realloc
  rw [mmRealloc]
  cases served : package.malloc client.machine layout size with
  | mk result behind =>
      cases result with
      | none =>
          -- The refused `mm_malloc` is all that `mm_realloc` calls.
          have refused := correct.refuse serves.holds small safe (congrArg Prod.fst served)
          have outcome : package.mmRealloc ptr size client.machine =
              some (null, client.machine) := by
            change (package.mmMalloc size client.machine).bind _ = _
            rw [refused, Option.bind_some]
            rfl
          exact ⟨null, client.machine, outcome, by simp⟩
      | some new =>
          have moved : package.realloc client.machine layout ptr size =
              (some new, package.release client.machine behind ptr) :=
            Layout.realloc_of_some served
          have added := (Layout.malloc_served correct.lawful wellFormed served).2.1
          have fresh : new ∉ client.live.map Prod.fst := by
            have nodup := (added.map Prod.fst).nodup (liveSpots_nodup _ _)
            rw [List.map_cons, List.nodup_cons] at nodup
            exact fun member => nodup.1 ((serves.live.map Prod.fst).mem_iff.mp member)
          have nonzero : new ≠ null := by
            rcases Layout.malloc_source correct.lawful wellFormed served with
              ⟨_, front, _, _, _, _, _, _, position, _⟩
            unfold null
            omega
          apply (correct.mmRealloc serves.holds small safe spot).mono
          rintro value after ⟨isNew, _, contents⟩
          rw [moved] at isNew contents
          obtain rfl : value = new := isNew
          rw [if_neg nonzero, if_neg nonzero]
          exact ⟨fresh, rfl, contents.contents value rfl⟩

/-- The promises of a package that is correct and whose search overlooks no
block. -/
theorem contract_of_correct (exhaustive : package.policy.Exhaustive) {allowed : Request → Prop}
    (mmRealloc : ∀ request, allowed request → request.isRealloc = true →
      interface.mmRealloc = package.mmRealloc) :
    Contract interface allowed package.prologue.size where
  begins machine isEmpty := by
    rcases exposes.mmInit isEmpty with ⟨_, after, outcome, rfl, _⟩
    exact ⟨after, outcome⟩
  tiled reachable := by
    rcases exists_serves correct exposes mmRealloc reachable with ⟨layout, serves⟩
    exact ⟨_, serves.heapTiled⟩
  responds reachable isAllowed permitted := by
    rcases exists_serves correct exposes mmRealloc reachable with ⟨layout, serves⟩
    exact (perform_request correct exposes serves (mmRealloc _ isAllowed) permitted).mono
      fun _ _ performed => performed.others
  complete reachable permitted := by
    rcases exists_serves correct exposes mmRealloc reachable with ⟨layout, serves⟩
    rw [exposes.mmMalloc]
    exact correct.complete exhaustive serves permitted.1
      ((noWrap_iff correct exposes serves permitted.1).mp permitted.2)
  moves reachable isAllowed live permitted := by
    rcases exists_serves correct exposes mmRealloc reachable with ⟨layout, serves⟩
    exact serves.moves correct exposes (mmRealloc _ isAllowed rfl) live permitted
  commutes := by
    intro client ptrs reachable nodup live
    rcases exists_serves correct exposes mmRealloc reachable with ⟨layout, serves⟩
    refine ⟨_, serves.sees, fun order perm => ?_⟩
    have orderLive : ∀ ptr ∈ order, ptr ∈ client.live.map Prod.fst :=
      fun ptr member => live ptr (perm.mem_iff.mp member)
    apply (serves.freeAll correct exposes (perm.symm.nodup nodup) orderLive).mono
    rintro _ after ⟨final, served, start, picture⟩
    have seen := served.sees
    rwa [picture, start, Seen.mark_congr fun bp => perm.mem_iff] at seen
  drained reachable none := by
    rcases exists_serves_chunk correct exposes mmRealloc reachable with ⟨layout, serves, chunk⟩
    exact serves.sees_drained none (by omega)

end Requests

end Procedures

end MallocLab
