import Mathlib.Data.List.Sort
import Mathlib.Data.Nat.Log
import MallocLab.BoundaryTag.Layout
import MallocLab.Segregated.Source

/-! # Sorted groups

The policy of `segregated_list-85.c`: a free block belongs to the group of its
size, where it goes in front of all that are not smaller. A request is served
by the first block that is large enough, from the group of its own size on.
-/

namespace MallocLab.Segregated

/-- The group of a size is the position of its highest bit, as far as there are
groups. -/
theorem groupLoop_eq (rounds size groupIdx : Nat) (bounded : groupIdx + rounds = groupSize - 1) :
    groupLoop rounds size groupIdx = min (groupSize - 1) (groupIdx + size.log2) := by
  induction rounds generalizing size groupIdx with
  | zero =>
      rw [groupLoop]
      omega
  | succ rounds induction =>
      have inside : groupIdx < groupSize - 1 := by omega
      rw [groupLoop, Nat.log2_def]
      by_cases large : 2 ≤ size
      · have half : (size : Int).shiftRight 1 = ((size / 2 : Nat) : Int) := rfl
        rw [if_pos ⟨inside, by omega⟩, if_pos large, half, induction _ _ (by omega)]
        omega
      · rw [if_neg (by omega), if_neg large]
        omega

theorem groupIndex_eq (size : Nat) : groupIndex size = min (groupSize - 1) size.log2 := by
  rw [groupIndex, groupLoop_eq _ _ _ (by omega), Nat.zero_add]

theorem groupIndex_lt (size : Nat) : groupIndex size < groupSize := by
  rw [groupIndex_eq, groupSize]
  omega

/-- The order of a group. -/
abbrev NotLarger (first second : Nat × Nat) : Prop := first.2 ≤ second.2

instance : Std.Total NotLarger := ⟨fun first second => Nat.le_total first.2 second.2⟩

instance : IsTrans (Nat × Nat) NotLarger := ⟨fun _ _ _ => Nat.le_trans⟩

/-- The free blocks of each group. -/
abbrev Groups : Type := Nat → List (Nat × Nat)

def entries (groups : Groups) : List (Nat × Nat) := (List.range groupSize).flatMap groups

def segregated : Policy Groups where
  entries := entries
  add groups entry := Function.update groups (groupIndex entry.2)
    ((groups (groupIndex entry.2)).orderedInsert NotLarger entry)
  remove groups entry := Function.update groups (groupIndex entry.2)
    ((groups (groupIndex entry.2)).erase entry)
  find groups size :=
    let first := groupIndex (toInt size)
    ((List.range' first (groupSize - first)).findSome? fun groupIdx =>
      (groups groupIdx).find? fun entry => size ≤ entry.2).map Prod.fst
  Ordered groups := ∀ groupIdx, (groups groupIdx).Pairwise NotLarger ∧
    ∀ entry ∈ groups groupIdx, groupIndex entry.2 = groupIdx

theorem mem_entries {groups : Groups} {entry : Nat × Nat} :
    entry ∈ entries groups ↔ ∃ groupIdx < groupSize, entry ∈ groups groupIdx := by
  simp [entries]

/-- In an ordered index an entry can only be in the group of its size. -/
theorem mem_group {groups : Groups} (ordered : segregated.Ordered groups) {entry : Nat × Nat}
    (listed : entry ∈ entries groups) : entry ∈ groups (groupIndex entry.2) := by
  rcases mem_entries.mp listed with ⟨groupIdx, _, member⟩
  rwa [(ordered groupIdx).2 entry member]

/-- When one group gains an entry, the whole index does. -/
theorem perm_flatMap_update {groups : Groups} {groupIdx count : Nat} {changed : List (Nat × Nat)}
    {entry : Nat × Nat} (inside : groupIdx < count)
    (gained : changed.Perm (entry :: groups groupIdx)) :
    ((List.range count).flatMap (Function.update groups groupIdx changed)).Perm
      (entry :: (List.range count).flatMap groups) := by
  have untouched : ∀ {limit : Nat}, limit ≤ groupIdx →
      (List.range limit).flatMap (Function.update groups groupIdx changed) =
        (List.range limit).flatMap groups := by
    intro limit below
    apply List.flatMap_congr
    intro other member
    rw [Function.update_of_ne]
    have := List.mem_range.mp member
    omega
  induction count with
  | zero => omega
  | succ count induction =>
      rw [List.range_succ, List.flatMap_append, List.flatMap_append, List.flatMap_singleton,
        List.flatMap_singleton]
      by_cases last : groupIdx = count
      · subst last
        rw [untouched (Nat.le_refl _), Function.update_self]
        exact (gained.append_left _).trans List.perm_middle
      · rw [Function.update_of_ne (Ne.symm last)]
        exact (induction (by omega)).append_right _

theorem segregated_lawful : segregated.Lawful where
  entries_add := by
    intro groups entry _
    exact perm_flatMap_update (groupIndex_lt _) (List.perm_orderedInsert _ _ _)
  entries_remove := by
    intro groups entry ordered listed
    have member := mem_group ordered listed
    -- read backward, the removal is an insertion
    have gained : (groups (groupIndex entry.2)).Perm
        (entry :: segregated.remove groups entry (groupIndex entry.2)) := by
      simp only [segregated, Function.update_self]
      exact List.perm_cons_erase member
    have restored := perm_flatMap_update (groupIndex_lt entry.2) gained
    have back : Function.update (segregated.remove groups entry) (groupIndex entry.2)
        (groups (groupIndex entry.2)) = groups := by
      simp [segregated]
    rw [back] at restored
    have shrunk := restored.erase entry
    rw [List.erase_cons_head] at shrunk
    exact shrunk.symm
  ordered_add := by
    intro groups entry ordered groupIdx
    by_cases same : groupIdx = groupIndex entry.2
    · subst same
      simp only [segregated, Function.update_self]
      refine ⟨(ordered _).1.orderedInsert _ _, fun other member => ?_⟩
      rcases (List.mem_orderedInsert NotLarger).mp member with rfl | old
      · rfl
      · exact (ordered _).2 other old
    · simp only [segregated, Function.update_of_ne same]
      exact ordered groupIdx
  ordered_remove := by
    intro groups entry ordered groupIdx
    by_cases same : groupIdx = groupIndex entry.2
    · subst same
      simp only [segregated, Function.update_self]
      exact ⟨(ordered _).1.sublist List.erase_sublist,
        fun other member => (ordered _).2 other (List.mem_of_mem_erase member)⟩
    · simp only [segregated, Function.update_of_ne same]
      exact ordered groupIdx
  remove_comm := by
    intro groups first second
    by_cases same : groupIndex first.2 = groupIndex second.2
    · simp only [segregated, same, Function.update_self, Function.update_idem]
      rw [List.erase_comm]
    · simp only [segregated, Function.update_of_ne same, Function.update_of_ne (Ne.symm same)]
      exact Function.update_comm same _ _ _
  find_some := by
    intro groups size address ordered found
    rcases Option.map_eq_some_iff.mp found with ⟨entry, first, rfl⟩
    rcases List.exists_of_findSome?_eq_some first with ⟨groupIdx, member, inGroup⟩
    have inRange := List.mem_range'_1.mp member
    refine ⟨entry.2, mem_entries.mpr ⟨groupIdx, by omega, List.mem_of_find?_eq_some inGroup⟩, ?_⟩
    simpa using List.find?_some inGroup

/-! ## The search is exhaustive and finds the best fit -/

theorem groupIndex_mono {small large : Nat} (le : small ≤ large) :
    groupIndex small ≤ groupIndex large := by
  have logs : small.log2 ≤ large.log2 := by
    rw [Nat.log2_eq_log_two, Nat.log2_eq_log_two]
    exact Nat.log_mono_right le
  rw [groupIndex_eq, groupIndex_eq]
  omega

/-- The search begins too early if anywhere: a size that is negative as an
`int` begins with the first group. -/
theorem start_le {size available : Nat} (enough : size ≤ available) :
    groupIndex (toInt size) ≤ groupIndex available := by
  by_cases positive : wrap size < 2147483648
  · have same : toInt size = wrap size := if_pos positive
    rw [same]
    exact groupIndex_mono ((Nat.mod_le _ _).trans enough)
  · have negative : ¬toInt size > 1 := by
      have word := wrap_lt size
      rw [toInt, if_neg positive]
      omega
    have first : groupIndex (toInt size) = 0 := by
      rw [groupIndex, groupSize, groupLoop, if_neg fun both => negative both.2]
    rw [first]
    exact Nat.zero_le _

section Search

variable {groups : Groups} {size : Nat}

/-- An entry that fits is in a group the search looks at. -/
theorem searched (ordered : segregated.Ordered groups) {entry : Nat × Nat}
    (listed : entry ∈ entries groups) (fits : size ≤ entry.2) :
    groupIndex entry.2 ∈ List.range' (groupIndex (toInt size))
        (groupSize - groupIndex (toInt size)) ∧
      entry ∈ groups (groupIndex entry.2) := by
  have start := start_le fits
  have inside := groupIndex_lt entry.2
  exact ⟨List.mem_range'_1.mpr ⟨start, by omega⟩, mem_group ordered listed⟩

theorem segregated_exhaustive (ordered : segregated.Ordered groups)
    (nothing : segregated.find groups size = none) :
    ∀ entry ∈ entries groups, entry.2 < size := by
  intro entry listed
  by_contra fits
  have found := searched ordered listed (Nat.le_of_not_lt fits)
  have inGroup := List.findSome?_eq_none_iff.mp (Option.map_eq_none_iff.mp nothing) _ found.1
  have tooSmall := List.find?_eq_none.mp inGroup entry found.2
  exact tooSmall (decide_eq_true (Nat.le_of_not_lt fits))

/-- No block that fits is smaller than the one that is found. -/
theorem find_least (ordered : segregated.Ordered groups) {address : Nat}
    (found : segregated.find groups size = some address) :
    ∃ available, (address, available) ∈ entries groups ∧ size ≤ available ∧
      ∀ other ∈ entries groups, size ≤ other.2 → available ≤ other.2 := by
  rcases Option.map_eq_some_iff.mp found with ⟨entry, first, rfl⟩
  rcases List.findSome?_eq_some_iff.mp first with ⟨before, groupIdx, behind, shape, here, missed⟩
  rcases List.find?_eq_some_iff_append.mp here with ⟨fits, smaller, rest, members, tooSmall⟩
  have inGroup : entry ∈ groups groupIdx := List.mem_of_find?_eq_some here
  have position := (ordered groupIdx).2 entry inGroup
  refine ⟨entry.2, mem_entries.mpr ⟨groupIdx, position ▸ groupIndex_lt _, inGroup⟩,
    of_decide_eq_true fits, fun other listed otherFits => ?_⟩
  rcases searched ordered listed otherFits with ⟨searched, otherMember⟩
  by_contra larger
  have le := groupIndex_mono (Nat.le_of_not_le larger)
  rw [position] at le
  rw [shape] at searched
  -- the group of a smaller block is looked at no later
  have increasing : (before ++ groupIdx :: behind).Pairwise (· < ·) := by
    rw [← shape]
    exact List.pairwise_lt_range'
  rcases List.mem_append.mp searched with earlier | later
  · have none := List.find?_eq_none.mp (missed _ earlier) other otherMember
    exact none (decide_eq_true otherFits)
  · have same : groupIndex other.2 = groupIdx := by
      rcases List.mem_cons.mp later with same | after
      · exact same
      · have behindHere := (List.pairwise_cons.mp (List.pairwise_append.mp increasing).2.1).1 _ after
        omega
    rw [same, members] at otherMember
    have sorted := (ordered groupIdx).1
    rw [members] at sorted
    rcases List.mem_append.mp otherMember with earlier | later
    · have small := tooSmall other earlier
      simp only [Bool.not_eq_eq_eq_not, Bool.not_true, decide_eq_false_iff_not] at small
      exact small otherFits
    · rcases List.mem_cons.mp later with rfl | after
      · exact larger (Nat.le_refl _)
      · exact larger ((List.pairwise_cons.mp (List.pairwise_append.mp sorted).2.1).1 other after)

end Search

end MallocLab.Segregated
