import Mathlib.Data.List.Sort
import MallocLab.BoundaryTag.Requests

/-! # Address order

The policy of `implicit-54.c`: the free blocks are known in the order of their
addresses, and the first of them that is large enough serves a request.
-/

namespace MallocLab.Implicit

open Blocks

/-- One free block lies before another one, or is the same. -/
def Precedes (first second : Nat × Nat) : Prop := first.1 ≤ second.1

instance : DecidableRel Precedes := fun first second => Nat.decLe first.1 second.1

instance : Std.Total Precedes := ⟨fun first second => Nat.le_total first.1 second.1⟩

instance : IsTrans (Nat × Nat) Precedes := ⟨fun _ _ _ => Nat.le_trans⟩

def addressOrdered : Policy (List (Nat × Nat)) where
  entries free := free
  add free entry := free.orderedInsert Precedes entry
  remove free entry := free.erase entry
  find free size := (free.find? fun entry => size ≤ entry.2).map Prod.fst
  Ordered free := free.Pairwise Precedes

theorem addressOrdered_lawful : addressOrdered.Lawful where
  entries_add _ _ := List.perm_orderedInsert _ _ _
  entries_remove _ _ := .refl _
  ordered_add _ ordered := ordered.orderedInsert _ _
  ordered_remove _ ordered := ordered.sublist List.erase_sublist
  remove_comm _ first second := List.erase_comm first second
  find_some := by
    intro index size address _ found
    rcases Option.map_eq_some_iff.mp found with ⟨⟨spot, available⟩, first, rfl⟩
    exact ⟨available, List.mem_of_find?_eq_some first, by simpa using List.find?_some first⟩

theorem addressOrdered_exhaustive : addressOrdered.Exhaustive := by
  intro index size _ nothing entry member
  have none := List.find?_eq_none.mp (Option.map_eq_none_iff.mp nothing) entry member
  simpa using none

/-- The index of a heap is what a walk through its blocks meets. -/
theorem index_eq {origin : Nat} {layout : Layout (List (Nat × Nat))}
    (wellFormed : layout.WellFormed addressOrdered origin) :
    layout.index = freeSpots origin layout.blocks := by
  have increasing : ((freeSpots origin layout.blocks).map Prod.fst).Pairwise (· ≤ ·) :=
    ((spots_sorted origin layout.blocks).sublist
      (freeSpots_sublist origin layout.blocks)).imp Nat.le_of_lt
  have sorted : (freeSpots origin layout.blocks).Pairwise Precedes := by
    rw [List.pairwise_map] at increasing
    exact increasing
  apply List.Perm.eq_of_pairwise ?_ wellFormed.ordered sorted wellFormed.exact
  rintro ⟨address, size⟩ ⟨other, otherSize⟩ listed otherListed before after
  have same : address = other := Nat.le_antisymm before after
  subst same
  rcases mem_freeSpots.mp (wellFormed.exact.mem_iff.mp listed) with ⟨block, spot, _, rfl⟩
  rcases mem_freeSpots.mp otherListed with ⟨owner, ownerSpot, _, rfl⟩
  rw [spot_unique spot ownerSpot]

end MallocLab.Implicit
