import MallocLab.Implicit.AddressOrder
import MallocLab.Implicit.Reference

/-! # The address-ordered allocator on segments

On every well-formed heap the allocator that `implicit-54.c` implements does
what the reference allocator does to its segments.
-/

namespace MallocLab.Implicit

open Blocks

variable {origin size address old : Nat} {layout : Layout (List (Nat × Nat))}

/-- A block that serves a request is split as a segment is. -/
theorem serveAt_segments {entry : Nat × Nat}
    (found : (freeSpots origin layout.blocks).find? (fun entry => roundUp size ≤ entry.2) =
      some entry) :
    Reference.take (roundUp size) (origin + 4) (segments layout.blocks) =
      some (entry.1, segments (layout.serveAt addressOrdered origin entry.1 size).blocks) := by
  rcases take_of_find found with ⟨front, block, back, shape, position, enough, taken⟩
  rw [taken, Layout.serveAt, shape, position, cut_append]
  simp only [Layout.allot, segments, List.map_append]
  rw [← segments_serve enough]

/-- Where no block is large enough, the one that an extension ends in is. -/
theorem find_grown (nothing : (freeSpots origin layout.blocks).find?
      (fun entry => roundUp size ≤ entry.2) = none) :
    ∃ available, (freeSpots origin (layout.grow addressOrdered origin
        (fresh (extension size) (extension_aligned size) (extension_ge size))).blocks).find?
      (fun entry => roundUp size ≤ entry.2) = some (layout.growSpot origin, available) := by
  have parts := front_split layout.blocks
  have kept : (freeSpots origin (layout.blocks.rdropWhile Block.isFree)).find?
      (fun entry => roundUp size ≤ entry.2) = none := by
    rw [← parts, freeSpots_append, List.find?_append, Option.or_eq_none_iff] at nothing
    exact nothing.1
  have large : roundUp size ≤ extension size := Nat.le_max_left _ _
  refine ⟨total (layout.blocks.rtakeWhile Block.isFree) + extension size, ?_⟩
  simp only [Layout.grow, Layout.settle, Blocks.settle, freeSpots_append]
  rw [freeSpots_cons_of_isFree _ _ rfl, List.find?_append, kept, Option.none_or,
    List.find?_cons_of_pos]
  · simp [Layout.growSpot, fresh, Block.ofFree]
  · simp [fresh, Block.ofFree]
    omega

theorem malloc_segments (wellFormed : layout.WellFormed addressOrdered origin) (room size : Nat) :
    Reference.malloc (origin + 4) room (segments layout.blocks) size =
      ((layout.malloc addressOrdered origin room size).1.getD null,
        segments (layout.malloc addressOrdered origin room size).2.blocks) := by
  by_cases zero : size = 0
  · simp [Reference.malloc, Layout.malloc, zero]
  · have find : addressOrdered.find layout.index (roundUp size) =
        ((freeSpots origin layout.blocks).find? fun entry => roundUp size ≤ entry.2).map
          Prod.fst := by
      rw [index_eq wellFormed]
      rfl
    rw [Reference.malloc, Layout.malloc, if_neg zero, if_neg zero, find, length_segments]
    cases found : (freeSpots origin layout.blocks).find? fun entry => roundUp size ≤ entry.2 with
    | some entry =>
        rw [serveAt_segments found]
        rfl
    | none =>
        rw [take_of_none found, Option.map_none]
        by_cases fits : total layout.blocks + extension size ≤ room
        · rcases find_grown found with ⟨available, grown⟩
          have isFree : (fresh (extension size) (extension_aligned size)
            (extension_ge size)).isFree = true := rfl
          have extended : Reference.extend (segments layout.blocks) (extension size) =
              segments (layout.grow addressOrdered origin
                (fresh (extension size) (extension_aligned size) (extension_ge size))).blocks :=
            (segments_settle wellFormed.coalesced .nil isFree).symm
          simp only [if_pos fits]
          rw [extended, serveAt_segments grown]
          rfl
        · simp only [if_neg fits]
          rfl

theorem release_layout (wellFormed : layout.WellFormed addressOrdered origin)
    (live : (address, old) ∈ liveSpots origin layout.blocks) :
    Reference.release address (origin + 4) (segments layout.blocks) =
      segments (layout.release addressOrdered origin address).blocks := by
  rcases mem_liveSpots.mp live with ⟨block, spot, isLive⟩
  rcases mem_spots.mp spot with ⟨front, back, shape, rfl⟩
  rcases layout with ⟨blocks, index⟩
  subst shape
  have given := Block.release_of_large (Block.size_ge_of_live isLive).1
  rcases wellFormed.cut_spot with ⟨frontCoalesced, backCoalesced, _⟩
  rw [release_segments, Layout.release, cut_append]
  simp only [Layout.settle]
  rw [segments_settle frontCoalesced backCoalesced given.2, given.1]

theorem realloc_segments (wellFormed : layout.WellFormed addressOrdered origin)
    (live : (address, old) ∈ liveSpots origin layout.blocks) (room size : Nat) :
    Reference.step (origin + 4) room (segments layout.blocks) (.realloc address size) =
      ((layout.realloc addressOrdered origin room address size).1.getD null,
        segments (layout.realloc addressOrdered origin room address size).2.blocks) := by
  rw [Reference.step, malloc_segments wellFormed room size]
  cases outcome : layout.malloc addressOrdered origin room size with
  | mk result after =>
      cases result with
      | none =>
          rw [Layout.realloc_of_none outcome, Layout.malloc_none outcome]
          rfl
      | some served =>
          rcases Layout.malloc_served addressOrdered_lawful wellFormed outcome with
            ⟨formed, added, _⟩
          rcases mem_liveSpots.mp (added.mem_iff.mpr List.mem_cons_self) with ⟨_, spot, _⟩
          have bounds := spot_bounds spot
          have positive : served ≠ null := by
            unfold null
            omega
          have kept := release_layout formed (added.mem_iff.mpr (List.mem_cons_of_mem _ live))
          simp only [Layout.realloc_of_some outcome, Option.getD_some, if_neg positive, kept]

end MallocLab.Implicit
