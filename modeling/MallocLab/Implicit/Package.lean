import MallocLab.Implicit.AddressOrder
import MallocLab.Implicit.Source

/-! # `implicit-54.c` implements the address-ordered allocator

The free blocks are listed nowhere, so there are no links to look after.
-/

namespace MallocLab.Implicit

open Program Blocks

/-- The eight bytes of the prologue, which are only its tags. -/
def prologue : Block := ⟨8, .sentinel, rfl, by decide⟩

/-- All that the package remembers of the heap is where it begins. -/
def lists : FreeIndex Statics (List (Nat × Nat)) where
  nodes _ _ := []
  Holds machine _ := machine.statics.heapListp = machine.memStartBrk + 8
  nodes_same _ := rfl
  holds_same := by
    intro machine other index same sameStatics _ holds
    rw [same, sameStatics]
    exact holds

variable {machine : State} {blocks front back : List Block} {index : List (Nat × Nat)}

/-- What is listed nowhere is listed in whatever order. -/
theorem reindex (threaded : Threaded lists machine blocks index)
    (other : List (Nat × Nat)) : Threaded lists machine blocks other :=
  ⟨threaded.tiled, by simp [lists], threaded.holds⟩

theorem implements : Implements addressOrdered lists addBlock removeBlock where
  nodes := by
    intro machine index node member
    cases member
  add := by
    intro machine blocks index bp block indexed _ _ _ _
    exact ⟨(), machine, rfl, reindex indexed.threaded _, .refl _ _⟩
  remove := by
    intro machine blocks index bp size indexed _
    exact ⟨(), machine, rfl, reindex indexed.threaded _, .refl _ _⟩

def procedures : Procedures Statics (List (Nat × Nat)) where
  policy := addressOrdered
  lists := lists
  prologue := prologue
  addBlock := addBlock
  removeBlock := removeBlock
  coalesce := coalesce
  extendHeap := extendHeap
  findFit := findFit
  place := place
  adjust := adjustedSize

/-! ## The search -/

/-- The first block of a list of free blocks that is large enough. -/
abbrev firstFit (free : List (Nat × Nat)) (asize : Nat) : Nat :=
  (addressOrdered.find free asize).getD null

/-- From any block on the search meets the free blocks behind it in order, and
stops at the epilogue. -/
theorem ensures_search (tiled : Tiled machine (front ++ back)) (asize : Nat) {fuel : Nat}
    (enough : back.length < fuel) :
    Ensures (search asize fuel (machine.origin + total front + 4)) machine fun value other =>
      value = firstFit (freeSpots (machine.origin + total front) back) asize ∧
        other = machine := by
  induction back generalizing front fuel with
  | nil =>
      obtain ⟨fuel, rfl⟩ := Nat.exists_eq_succ_of_ne_zero (Nat.ne_of_gt enough)
      have extent := tiled.extent
      rw [List.append_nil] at extent
      have stop : machine.origin + total front + 4 - 4 = machine.memBrk - 4 := by
        rw [extent, Machine.origin]
        omega
      have zero : sizeField (pack 0 1) = 0 := rfl
      simp only [search, ensures_bind, ensures_getSize, hdrp_eq, stop, tiled.epilogue_header, zero,
        Nat.lt_irrefl, if_false, ensures_pure]
      exact ⟨⟨by omega, by omega⟩, rfl, trivial⟩
  | cons block back induction =>
      obtain ⟨fuel, rfl⟩ := Nat.exists_eq_succ_of_ne_zero (Nat.ne_of_gt (by omega : 0 < fuel))
      have spot : (machine.origin + total front + 4, block) ∈
          spots machine.origin (front ++ block :: back) :=
        mem_spots.mpr ⟨front, back, rfl, rfl⟩
      have here := tiled.blockAt spot
      have positive := block.size_ge
      have split : front ++ block :: back = (front ++ [block]) ++ back := by simp
      have later := induction (split ▸ tiled) (by simpa using enough)
      simp only [total_append, total_cons, total_nil, Nat.add_zero, ← Nat.add_assoc] at later
      have next : machine.origin + total front + 4 + block.size =
          machine.origin + total front + block.size + 4 := Nat.add_right_comm _ _ _
      simp only [search, ensures_bind, ensures_getSize, hdrp_eq, here.header, here.size]
      rw [if_pos (by omega)]
      simp only [ensures_bind, ensures_getSize, ensures_getAlloc, here.header, here.size,
        block.allocField_tag]
      refine ⟨here.ownsHeader, here.ownsHeader, here.ownsHeader, ?_⟩
      cases isFree : block.isFree with
      | false =>
          simp only [Bool.false_eq_true, if_false, one_ne_zero, false_and, ensures_bind,
            ensures_nextBlkp, here.header, here.size, next]
          rw [freeSpots_cons_of_not_isFree _ _ isFree]
          exact ⟨here.ownsHeader, later⟩
      | true =>
          rw [freeSpots_cons_of_isFree _ _ isFree]
          by_cases large : asize ≤ block.size
          · simp only [if_true, large, and_self, ensures_pure]
            simp [firstFit, addressOrdered, large]
          · have shorter : firstFit ((machine.origin + total front + 4, block.size) ::
                freeSpots (machine.origin + total front + block.size) back) asize =
                firstFit (freeSpots (machine.origin + total front + block.size) back) asize := by
              simp [firstFit, addressOrdered, large]
            simp only [if_true, large, and_false, if_false, ensures_bind, ensures_nextBlkp,
              here.header, here.size, next, shorter]
            exact ⟨here.ownsHeader, later⟩

variable {layout : Layout (List (Nat × Nat))}

/-- There are no more blocks than bytes. -/
theorem length_le_total (blocks : List Block) : blocks.length ≤ total blocks := by
  induction blocks with
  | nil => exact Nat.le_refl 0
  | cons block blocks induction =>
      have positive := block.size_ge
      simp only [List.length_cons, total_cons]
      omega

/-- `find_fit` stops at the epilogue of every represented heap and finds the
first fit. -/
theorem findFit_finds (asize : Nat) (holds : procedures.Holds machine layout) :
    Ensures (findFit asize) machine fun value other =>
      value = (addressOrdered.find layout.index asize).getD null ∧ other = machine := by
  have tiled : Tiled machine ([] ++ (prologue :: layout.blocks)) := holds.threaded.tiled
  have listp : machine.statics.heapListp = machine.memStartBrk + 8 := holds.threaded.holds
  have extent : machine.memBrk = machine.memStartBrk + 8 + prologue.size + total layout.blocks :=
    Procedures.Holds.extent holds
  have length := length_le_total layout.blocks
  have enough : (prologue :: layout.blocks).length < machine.heapLength + 1 := by
    rw [List.length_cons, Machine.heapLength]
    omega
  have found := ensures_search tiled asize enough
  have start : machine.origin + total [] + 4 = machine.memStartBrk + 8 := rfl
  rw [start, total_nil, Nat.add_zero,
    freeSpots_prologue (rfl : prologue.usage = .sentinel)] at found
  simp only [findFit, ensures_bind, ensures_view, heapListp, ensures_statics, ensures_pure, listp]
  rw [index_eq holds.wellFormed]
  exact found

theorem adjustedSize_eq {request : Nat} (small : request < 2 ^ 31) :
    adjustedSize request = roundUp request := by
  unfold adjustedSize dsize roundUp
  split
  · omega
  · have inner : wrap (request + 8 + (8 - 1)) = request + 15 := wrap_of_lt (by omega)
    rw [inner, wrap_of_lt (by omega)]
    omega

theorem correct : procedures.Correct where
  lawful := addressOrdered_lawful
  implements := implements
  coalesces := coalesceWith_coalesces addBlock removeBlock
  places := placeWith_places addressOrdered_lawful implements
  extends_eq := by
    intro size aligned word
    have even : size / 4 % 2 = 0 := by omega
    have back : wrap (size / 4 * wsize) = size := by
      rw [wrap_of_lt (by unfold wsize; omega)]
      unfold wsize
      omega
    change extendHeap (size / 4) = _
    simp only [extendHeap, even, ne_eq, not_true_eq_false, if_false, back]
    rfl
  finds := findFit_finds
  adjusts := fun _ small => adjustedSize_eq small

end MallocLab.Implicit
