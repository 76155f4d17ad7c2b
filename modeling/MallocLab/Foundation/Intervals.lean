import Mathlib.Order.Interval.Finset.Nat
import Mathlib.Data.Finset.Card
import Mathlib.Algebra.GroupWithZero.Nat

/-! # Disjoint intervals take no more room than there is -/

namespace MallocLab.Intervals

/-- The numbers in some intervals, each given by its start and its length. -/
def covered : List (Nat × Nat) → Finset Nat
  | [] => ∅
  | interval :: rest => Finset.Ico interval.1 (interval.1 + interval.2) ∪ covered rest

variable {intervals : List (Nat × Nat)} {low high number : Nat}

theorem mem_covered : number ∈ covered intervals ↔
    ∃ interval ∈ intervals, interval.1 ≤ number ∧ number < interval.1 + interval.2 := by
  induction intervals with
  | nil => simp [covered]
  | cons interval rest induction => simp [covered, induction]

/-- Two intervals that have no number in common. -/
def Apart (first second : Nat × Nat) : Prop :=
  first.1 + first.2 ≤ second.1 ∨ second.1 + second.2 ≤ first.1

theorem card_covered (apart : intervals.Pairwise Apart) :
    (covered intervals).card = (intervals.map Prod.snd).sum := by
  induction intervals with
  | nil => rfl
  | cons interval rest induction =>
      rw [List.pairwise_cons] at apart
      have disjoint : Disjoint (Finset.Ico interval.1 (interval.1 + interval.2))
          (covered rest) := by
        rw [Finset.disjoint_left]
        intro number inFirst inRest
        rcases mem_covered.mp inRest with ⟨other, member, low, high⟩
        have bounds := Finset.mem_Ico.mp inFirst
        rcases apart.1 other member with before | after <;> omega
      rw [covered, Finset.card_union_of_disjoint disjoint, induction apart.2, Nat.card_Ico,
        List.map_cons, List.sum_cons]
      omega

/-- Disjoint intervals between two bounds are together no longer than the
distance of the bounds. -/
theorem sum_le (apart : intervals.Pairwise Apart)
    (inside : ∀ interval ∈ intervals, low ≤ interval.1 ∧ interval.1 + interval.2 ≤ high) :
    (intervals.map Prod.snd).sum ≤ high - low := by
  rw [← card_covered apart, ← Nat.card_Ico]
  apply Finset.card_le_card
  intro number member
  rcases mem_covered.mp member with ⟨interval, listed, low, high⟩
  have bounds := inside interval listed
  rw [Finset.mem_Ico]
  omega

end MallocLab.Intervals
