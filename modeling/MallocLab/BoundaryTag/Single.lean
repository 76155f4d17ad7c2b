import MallocLab.BoundaryTag.Requests
import MallocLab.BoundaryTag.Settle

/-! # Heaps with one free block

Where one block only is free, every exhaustive policy answers alike, so what
becomes of the blocks does not depend on the index.
-/

namespace MallocLab

open Blocks

namespace Layout

variable {Index : Type} {policy : Policy Index} {origin room request : Nat}
  {layout : Layout Index} {front back blocks : List Block} {block : Block}

/-- A well-formed heap of known blocks. -/
structure Stands (policy : Policy Index) (origin : Nat) (layout : Layout Index)
    (blocks : List Block) : Prop where
  wellFormed : layout.WellFormed policy origin
  blocks : layout.blocks = blocks

/-- The index of a heap with one free block holds that block. -/
theorem Stands.entries (stands : Stands policy origin layout (front ++ block :: back))
    (isFree : block.isFree = true) (others : ∀ other ∈ front ++ back, other.isFree = false) :
    policy.entries layout.index = [(origin + total front + 4, block.size)] := by
  have exact := stands.wellFormed.exact
  have none : ∀ {cursor : Nat} {blocks : List Block},
      (∀ other ∈ blocks, other.isFree = false) → freeSpots cursor blocks = [] := by
    intro cursor blocks used
    refine List.eq_nil_iff_forall_not_mem.mpr fun ⟨address, size⟩ member => ?_
    rcases mem_freeSpots.mp member with ⟨owner, spot, free, _⟩
    have listed : owner ∈ blocks := by
      obtain ⟨start, rest, rfl, _⟩ := mem_spots.mp spot
      exact List.mem_append_right _ List.mem_cons_self
    exact Bool.false_ne_true ((used owner listed).symm.trans free)
  rw [List.forall_mem_append] at others
  rw [stands.blocks, freeSpots_append, none others.1, List.nil_append,
    freeSpots_cons_of_isFree _ _ isFree, none others.2] at exact
  exact List.perm_singleton.mp exact

section Find

variable (lawful : policy.Lawful) (exhaustive : policy.Exhaustive)
  (stands : Stands policy origin layout (front ++ block :: back))
  (isFree : block.isFree = true) (others : ∀ other ∈ front ++ back, other.isFree = false)

include stands isFree others

include exhaustive lawful in
theorem Stands.find_of_le {size : Nat} (fits : size ≤ block.size) :
    policy.find layout.index size = some (origin + total front + 4) := by
  have entries := stands.entries isFree others
  have ordered := stands.wellFormed.ordered
  cases found : policy.find layout.index size with
  | none =>
      have small := exhaustive ordered found _ (entries ▸ List.mem_singleton_self _)
      exact absurd fits (Nat.not_le_of_lt small)
  | some address =>
      rcases lawful.find_some ordered found with ⟨available, listed, _⟩
      rw [entries, List.mem_singleton] at listed
      cases listed
      rfl

include lawful in
theorem Stands.find_of_lt {size : Nat} (large : block.size < size) :
    policy.find layout.index size = none := by
  have entries := stands.entries isFree others
  refine Option.eq_none_iff_forall_ne_some.mpr fun address found => ?_
  rcases lawful.find_some stands.wellFormed.ordered found with ⟨available, listed, fits⟩
  rw [entries, List.mem_singleton] at listed
  cases listed
  exact absurd fits (Nat.not_le_of_lt large)

include exhaustive lawful in
/-- The free block serves a request it is large enough for. -/
theorem Stands.malloc_fits (positive : 0 < request) (fits : roundUp request ≤ block.size) :
    ∃ after, layout.malloc policy origin room request = (some (origin + total front + 4), after) ∧
      Stands policy origin after (front ++ (block.serve request ++ back)) := by
  have found := stands.find_of_le lawful exhaustive isFree others fits
  have served : layout.malloc policy origin room request = (some (origin + total front + 4),
      layout.serveAt policy origin (origin + total front + 4) request) := by
    simp only [malloc, if_neg (Nat.ne_of_gt positive), found]
  have after := malloc_served lawful stands.wellFormed served
  refine ⟨_, served, after.1, ?_⟩
  rw [serveAt, stands.blocks, cut_append]
  rfl

end Find

/-- Where the last block is the free one and is too small, it is extended. -/
theorem Stands.malloc_grows (lawful : policy.Lawful)
    (stands : Stands policy origin layout (front ++ [block])) (isFree : block.isFree = true)
    (used : ∀ other ∈ front, other.isFree = false) (positive : 0 < request)
    (large : block.size < roundUp request)
    (enough : total front + block.size + extension request ≤ room) : ∃ after,
      layout.malloc policy origin room request = (some (origin + total front + 4), after) ∧
        Stands policy origin after (front ++
          ((fresh (extension request) (extension_aligned request)
            (extension_ge request)).absorb [block] []).serve request) := by
  have found := stands.find_of_lt lawful isFree (by simpa using used) large
  have kept : (front ++ [block]).rdropWhile Block.isFree = front ∧
      (front ++ [block]).rtakeWhile Block.isFree = [block] := by
    rcases front_cases (stands.blocks ▸ stands.wellFormed.coalesced) with
      ⟨_, _, nothing | ⟨start, left, shape, leftUsed⟩⟩ | ⟨start, left, shape, _, taken, dropped⟩
    · exact absurd nothing (by simp)
    · obtain ⟨_, same⟩ := List.append_inj' shape rfl
      cases same
      exact absurd isFree (by simp [leftUsed])
    · obtain ⟨rfl, same⟩ := List.append_inj' shape rfl
      cases same
      exact ⟨dropped, taken⟩
  have place : layout.growSpot origin = origin + total front + 4 := by
    rw [growSpot, stands.blocks, kept.1]
  have grown : (layout.grow policy origin (fresh (extension request) (extension_aligned request)
      (extension_ge request))).blocks = front ++ [(fresh (extension request)
        (extension_aligned request) (extension_ge request)).absorb [block] []] := by
    simp only [grow, settle, Blocks.settle, stands.blocks, kept, List.takeWhile_nil,
      List.dropWhile_nil]
  have fits : total layout.blocks + extension request ≤ room := by
    rw [stands.blocks, total_append, total_cons, total_nil, Nat.add_zero]
    exact enough
  have served : layout.malloc policy origin room request = (some (origin + total front + 4),
      (layout.grow policy origin (fresh (extension request) (extension_aligned request)
        (extension_ge request))).serveAt policy origin (origin + total front + 4) request) := by
    simp only [malloc, if_neg (Nat.ne_of_gt positive), found, if_pos fits, place]
  have after := malloc_served lawful stands.wellFormed served
  refine ⟨_, served, after.1, ?_⟩
  rw [serveAt, grown, cut_append]
  exact congrArg (front ++ ·) (List.append_nil _)

/-- A live block that is given up is joined with its neighbours. -/
theorem Stands.release (lawful : policy.Lawful)
    (stands : Stands policy origin layout (front ++ block :: back))
    (live : block.request? = some request) :
    Stands policy origin (layout.release policy origin (origin + total front + 4))
      (Blocks.settle front block.release back) := by
  have spot : (origin + total front + 4, request) ∈ liveSpots origin layout.blocks := by
    rw [stands.blocks]
    exact mem_liveSpots.mpr ⟨block, mem_spots.mpr ⟨front, back, rfl, rfl⟩, live⟩
  refine ⟨(release_live lawful stands.wellFormed spot).1, ?_⟩
  rw [Layout.release, stands.blocks, cut_append]
  rfl

end Layout

end MallocLab
