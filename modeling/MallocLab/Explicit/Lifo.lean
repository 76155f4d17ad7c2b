import MallocLab.BoundaryTag.Layout

/-! # Last in, first out

The policy of `mm.c` and `refer.c`: a freed block goes to the front of one
list, and the first block of the list that is large enough serves a request.
-/

namespace MallocLab.Explicit

/-- The sixteen bytes of the prologue, two tags around two words for links. -/
def prologue : Block := ⟨16, .sentinel, rfl, by decide⟩

def lifo : Policy (List (Nat × Nat)) where
  entries free := free
  add free entry := entry :: free
  remove free entry := free.erase entry
  find free size := (free.find? fun entry => size ≤ entry.2).map Prod.fst
  Ordered _ := True

theorem lifo_lawful : lifo.Lawful where
  entries_add _ _ := .refl _
  entries_remove _ _ := .refl _
  ordered_add _ _ := trivial
  ordered_remove _ _ := trivial
  remove_comm _ first second := List.erase_comm first second
  find_some := by
    intro index size address _ found
    rcases Option.map_eq_some_iff.mp found with ⟨⟨spot, available⟩, first, rfl⟩
    exact ⟨available, List.mem_of_find?_eq_some first, by simpa using List.find?_some first⟩

end MallocLab.Explicit
