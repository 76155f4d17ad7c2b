import Mathlib.Data.List.Sort
import Mathlib.Order.Bounds.Defs

/-! # The smallest members of a list

The `k` smallest members in their order. A further member changes them only when
it is smaller than the last of them, and then it pushes this one out.
-/

namespace MallocLab

variable {α : Type} [LinearOrder α] {x y b : α} {list : List α} {k : Nat}

/-- The `k` smallest members, or all of them when there are fewer. -/
def smallest (k : Nat) (list : List α) : List α := (list.insertionSort (· ≤ ·)).take k

theorem sorted_insertionSort (list : List α) : (list.insertionSort (· ≤ ·)).Pairwise (· ≤ ·) :=
  List.pairwise_insertionSort _ _

/-! ## Where a member is inserted -/

/-- A member is inserted behind a first one that is not larger. -/
theorem orderedInsert_cons_of_ge (sorted : (b :: list).Pairwise (· ≤ ·)) (above : b ≤ x) :
    (b :: list).orderedInsert (· ≤ ·) x = b :: list.orderedInsert (· ≤ ·) x := by
  by_cases below : x ≤ b
  · obtain rfl := le_antisymm below above
    have same : list.orderedInsert (· ≤ ·) x = x :: list := by
      cases list with
      | nil => rfl
      | cons c rest =>
          exact List.orderedInsert_cons_of_le _ _ ((List.pairwise_cons.mp sorted).1 c
            List.mem_cons_self)
    rw [List.orderedInsert_cons_of_le _ _ below, same]
  · exact List.orderedInsert_of_not_le _ _ below

/-- A member is inserted before a last one that is not smaller. -/
theorem orderedInsert_concat (below : x ≤ y) (list : List α) :
    (list ++ [y]).orderedInsert (· ≤ ·) x = list.orderedInsert (· ≤ ·) x ++ [y] := by
  induction list with
  | nil => exact List.orderedInsert_cons_of_le _ _ below
  | cons b rest induction =>
      rw [List.cons_append, List.orderedInsert_cons, List.orderedInsert_cons, induction]
      split <;> rfl

/-- A member that is smaller than no other is inserted at the end. -/
theorem orderedInsert_of_forall_ge (sorted : list.Pairwise (· ≤ ·)) (above : ∀ b ∈ list, b ≤ x) :
    list.orderedInsert (· ≤ ·) x = list ++ [x] := by
  induction list with
  | nil => rfl
  | cons b rest induction =>
      rw [orderedInsert_cons_of_ge sorted (above b List.mem_cons_self),
        induction (List.pairwise_cons.mp sorted).2 fun c member =>
          above c (List.mem_cons_of_mem _ member)]
      rfl

/-- Behind a place whose member is not smaller nothing before it changes. -/
theorem take_orderedInsert_of_le (below : ∀ y ∈ list[k]?, x ≤ y) :
    (list.orderedInsert (· ≤ ·) x).take (k + 1) = (list.take k).orderedInsert (· ≤ ·) x := by
  induction list generalizing k with
  | nil => simp
  | cons b rest induction =>
      cases k with
      | zero =>
          have smaller : x ≤ b := below b rfl
          rw [List.orderedInsert_cons_of_le _ _ smaller]
          rfl
      | succ k =>
          rw [List.take_succ_cons, List.orderedInsert_cons, List.orderedInsert_cons]
          split
          · rw [List.take_succ_cons, List.take_succ_cons]
          · rw [List.take_succ_cons, induction below]

/-- Before a place whose member is not larger nothing changes. -/
theorem take_orderedInsert_of_ge (sorted : list.Pairwise (· ≤ ·)) (isAt : list[k]? = some y)
    (above : y ≤ x) : (list.orderedInsert (· ≤ ·) x).take (k + 1) = list.take (k + 1) := by
  induction list generalizing k with
  | nil => simp at isAt
  | cons b rest induction =>
      have first : b ≤ x := by
        cases k with
        | zero => exact Option.some.inj isAt ▸ above
        | succ k =>
            exact ((List.pairwise_cons.mp sorted).1 y (List.mem_of_getElem? isAt)).trans above
      rw [orderedInsert_cons_of_ge sorted first, List.take_succ_cons, List.take_succ_cons]
      cases k with
      | zero => rfl
      | succ k => rw [induction (List.pairwise_cons.mp sorted).2 isAt]

/-! ## One member more -/

/-- While there are few members all of them are kept. -/
theorem smallest_cons_of_lt (few : list.length < k) :
    smallest k (x :: list) = (smallest k list).orderedInsert (· ≤ ·) x := by
  have length : (list.insertionSort (· ≤ ·)).length = list.length := List.length_insertionSort _ _
  rw [smallest, smallest, List.insertionSort_cons, List.take_of_length_le, List.take_of_length_le]
  · omega
  · rw [List.orderedInsert_length]
    omega

variable (isAt : (list.insertionSort (· ≤ ·))[k]? = some y)

include isAt

/-- A member that is smaller than the last one pushes it out. -/
theorem smallest_cons_of_le (below : x ≤ y) :
    smallest (k + 1) (x :: list) = (smallest k list).orderedInsert (· ≤ ·) x := by
  refine take_orderedInsert_of_le fun other same => ?_
  exact Option.some.inj (isAt.symm.trans same) ▸ below

/-- A member that is not smaller than the last one changes nothing. -/
theorem smallest_cons_of_ge (above : y ≤ x) :
    smallest (k + 1) (x :: list) = smallest (k + 1) list :=
  take_orderedInsert_of_ge (sorted_insertionSort list) isAt above

end MallocLab
