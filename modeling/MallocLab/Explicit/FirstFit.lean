import MallocLab.BoundaryTag.Links
import MallocLab.BoundaryTag.Procedures
import MallocLab.BoundaryTag.Stamp
import MallocLab.Explicit.Lifo

/-! # First fit along a chain

The search of `mm.c` and `refer.c` follows the forward links of the free blocks
until it meets a block that is large enough or one that is marked allocated.
-/

namespace MallocLab.Explicit

open Program Blocks

variable {Statics : Type} {machine : Machine Statics} {blocks : List Block}
  {stop : Nat} {last : Block}

/-- On a chain of free blocks that ends at a used one, the search returns the
first block that is large enough and leaves the machine as it is. -/
theorem ensures_firstFitFrom (tiled : Tiled machine blocks)
    (stopSpot : (stop, last) ∈ spots machine.origin blocks) (used : last.isFree = false)
    (asize : Nat) {rest : List (Nat × Nat)}
    (sized : ∀ entry ∈ rest, entry ∈ freeSpots machine.origin blocks)
    (linked : Linked machine.pred machine.succ (rest.map Prod.fst ++ [stop]))
    {ptr fuel : Nat} (head : (rest.map Prod.fst ++ [stop]).head? = some ptr)
    (enough : rest.length < fuel) :
    Ensures (firstFitFrom asize fuel ptr) machine fun value other =>
      value = (lifo.find rest asize).getD null ∧ other = machine := by
  induction rest generalizing ptr fuel with
  | nil =>
      obtain ⟨fuel, rfl⟩ := Nat.exists_eq_succ_of_ne_zero (Nat.ne_of_gt enough)
      cases head
      have here := tiled.blockAt stopSpot
      simp only [firstFitFrom, ensures_bind, ensures_getAlloc, hdrp_eq, here.header,
        last.allocField_tag, used]
      exact ⟨here.ownsHeader, by simp [lifo]⟩
  | cons entry rest induction =>
      obtain ⟨fuel, rfl⟩ := Nat.exists_eq_succ_of_ne_zero (Nat.ne_of_gt (by omega : 0 < fuel))
      rcases entry with ⟨address, size⟩
      simp only [List.map_cons, List.cons_append, List.head?_cons, Option.some.injEq] at head
      subst head
      rcases mem_freeSpots.mp (sized _ List.mem_cons_self) with ⟨block, spot, isFree, rfl⟩
      have here := tiled.blockAt spot
      simp only [firstFitFrom, ensures_bind, ensures_getAlloc, hdrp_eq, here.header,
        block.allocField_tag, isFree, if_true, ne_eq, not_true_eq_false, if_false,
        ensures_getSize, here.size]
      refine ⟨here.ownsHeader, here.ownsHeader, ?_⟩
      by_cases large : asize ≤ block.size
      · rw [if_pos large, ensures_pure]
        simp [lifo, large]
      · have shorter : lifo.find ((address, block.size) :: rest) asize = lifo.find rest asize := by
          simp [lifo, large]
        rw [if_neg large, ensures_bind, ensures_get, shorter]
        have bounds := spot_bounds spot
        have roomy := Block.size_ge_of_isFree isFree
        refine ⟨tiled.owns (by unfold wsize; omega) (by unfold wsize; omega), ?_⟩
        rcases shape : rest.map Prod.fst ++ [stop] with _ | ⟨next, others⟩
        · simp at shape
        · simp only [List.map_cons, List.cons_append, shape] at linked
          refine induction (fun entry member => sized entry (List.mem_cons_of_mem _ member))
            (by rw [shape]; exact linked.2.2) ?_ (by simp only [List.length_cons] at enough; omega)
          rw [shape, List.head?_cons, ← linked.1]
          rfl

end MallocLab.Explicit
