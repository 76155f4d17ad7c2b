import MallocLab.Break
import MallocLab.Buddy.Tracking

/-! # Reservation at the end of the arena

`update_max_ptr` measures the increment from the last byte of the heap, while
`mem_sbrk` adds it to the address after that byte. The break ends up one past
`new_value`, which is one byte too many when `new_value` is the end of the
arena.
-/

namespace MallocLab.Buddy

open Program

variable {machine after : State} {newValue : Nat}

/-- What `update_max_ptr` promises: every address before `new_value` can be
reserved as long as it belongs to the arena. -/
structure Exact (newValue : Nat) (machine : State) (result : Bool) (after : State) : Prop where
  granted : result = true ↔ newValue ≤ machine.memMaxAddr
  reserved : result = true → ∀ address < newValue, address < after.memBrk
  refused : result = false → after.memBrk = machine.memBrk

/-- The two ways to ask for a break that is out of reach: one past the end of the
arena, and one past the end of the address space, which wraps to zero. -/
def OffByOne (newValue : Nat) (machine : State) : Prop :=
  newValue = machine.memMaxAddr ∨ newValue = 2 ^ 32 - 1 ∧ 2 ^ 31 < machine.memBrk

section

variable (inside : machine.BreakInside) (positive : 0 < machine.memStartBrk)
  (word : newValue < 2 ^ 32)

include inside positive word

/-- Up to the end of the arena every address is reserved already or granted. -/
theorem exact_before (before : newValue < machine.memMaxAddr)
    (arena : machine.memMaxAddr = machine.memStartBrk + maxHeap)
    (addressable : machine.memMaxAddr < 2 ^ 32) :
    Ensures (updateMaxPtr newValue) machine (Exact newValue machine) := by
  have started := inside.started
  have bounded := inside.bounded
  have heap : maxHeap = 20971520 := by decide
  by_cases beyond : machine.memBrk - 1 < newValue
  · have next : wrap (newValue + 1) = newValue + 1 := wrap_of_lt (by omega)
    have notFailed : machine.memBrk ≠ sbrkFailed := by
      unfold sbrkFailed
      omega
    rw [updateMaxPtr_granted word (by omega) beyond (by omega) (by omega), next,
      decide_eq_true notFailed]
    constructor
    · exact ⟨fun _ => before.le, fun _ => rfl⟩
    · intro _ address small
      exact small.trans (Nat.lt_succ_self _)
    · intro failed
      cases failed
  · rw [updateMaxPtr_reserved (not_lt.mp beyond)]
    constructor
    · exact ⟨fun _ => before.le, fun _ => rfl⟩
    · intro _ address small
      change address < machine.memBrk
      omega
    · intro failed
      cases failed

/-- Past the arena every address is refused, unless the break would wrap. -/
theorem exact_after (past : machine.memMaxAddr < newValue)
    (noWrap : newValue + 1 < 2 ^ 32 ∨ machine.memBrk ≤ 2 ^ 31) :
    Ensures (updateMaxPtr newValue) machine (Exact newValue machine) := by
  have started := inside.started
  have bounded := inside.bounded
  rw [updateMaxPtr_refused word (by omega) (by omega)]
  · constructor
    · exact ⟨fun granted => (Bool.false_ne_true granted).elim,
        fun fits => (Nat.not_le.mpr past fits).elim⟩
    · intro granted
      cases granted
    · exact fun _ => rfl
  · intro small
    have next : wrap (newValue + 1) = newValue + 1 := wrap_of_lt (by omega)
    omega

/-- At the end of the arena the request is refused, and a break that wraps is
accepted. -/
theorem not_exact (offByOne : OffByOne newValue machine)
    (arena : machine.memMaxAddr = machine.memStartBrk + maxHeap)
    (addressable : machine.memMaxAddr < 2 ^ 32) :
    ¬Ensures (updateMaxPtr newValue) machine (Exact newValue machine) := by
  intro ensured
  have started := inside.started
  have bounded := inside.bounded
  have heap : maxHeap = 20971520 := by decide
  have large : machine.memMaxAddr ≤ newValue := by
    cases offByOne with
    | inl last => exact last.ge
    | inr top => omega
  by_cases wraps : newValue + 1 = 2 ^ 32
  · have next : wrap (newValue + 1) = 0 := by rw [wraps, wrap, Nat.mod_self]
    have small : newValue - (machine.memBrk - 1) < 2147483648 := by
      cases offByOne with
      | inl last => omega
      | inr top => omega
    rw [updateMaxPtr_granted word (by omega) (by omega) small (by omega), next] at ensured
    by_cases failed : machine.memBrk = sbrkFailed
    · have same : 0 = machine.memBrk := ensured.refused (decide_eq_false (not_not.mpr failed))
      omega
    · have reserved : machine.memBrk - 1 < 0 :=
        ensured.reserved (decide_eq_true failed) (machine.memBrk - 1) (by omega)
      omega
  · have last : newValue = machine.memMaxAddr := offByOne.resolve_right fun top => by omega
    have next : wrap (newValue + 1) = newValue + 1 := wrap_of_lt (by omega)
    rw [updateMaxPtr_refused word (by omega) (by omega) fun _ => by omega] at ensured
    exact Bool.false_ne_true (ensured.granted.mpr last.le)

end

/-- The reservation is exact everywhere but at the end of the arena and at the
end of the address space. -/
theorem update_max_ptr_exact (positive : 0 < machine.memStartBrk)
    (arena : machine.memMaxAddr = machine.memStartBrk + maxHeap)
    (addressable : machine.memMaxAddr < 2 ^ 32) (inside : machine.BreakInside)
    (word : newValue < 2 ^ 32) :
    Ensures (updateMaxPtr newValue) machine (Exact newValue machine) ↔
      ¬OffByOne newValue machine := by
  constructor
  · intro ensured offByOne
    exact not_exact inside positive word offByOne arena addressable ensured
  · intro exact
    rcases not_or.mp exact with ⟨notLast, notTop⟩
    cases Nat.lt_or_gt_of_ne notLast with
    | inl before => exact exact_before inside positive word before arena addressable
    | inr past => exact exact_after inside positive word past (by omega)

/-- The arena before anything was reserved. -/
def unreserved : State := memInit 4096 (fun _ => 0) ⟨1024, 0, fun _ => 0, 0, 0⟩

theorem unreserved_max : unreserved.memMaxAddr = 20975616 := by decide

theorem unreserved_inside : unreserved.BreakInside := ⟨le_refl _, by decide⟩

theorem update_max_ptr_exact_first_byte :
    Ensures (updateMaxPtr 4097) unreserved (Exact 4097 unreserved) := by
  apply (update_max_ptr_exact (by decide) (by decide) (by decide) unreserved_inside
    (by decide)).mpr
  intro offByOne
  cases offByOne with
  | inl last =>
      rw [unreserved_max] at last
      omega
  | inr top => omega

/-- The last byte of the arena cannot be had. -/
theorem arena_end_refused :
    ¬∀ (machine : State) (newValue : Nat), 0 < machine.memStartBrk →
      machine.memMaxAddr = machine.memStartBrk + maxHeap → machine.memMaxAddr < 2 ^ 32 →
      machine.BreakInside → machine.memStartBrk < newValue → newValue + 1 < 2 ^ 32 →
      Ensures (updateMaxPtr newValue) machine (Exact newValue machine) := by
  intro always
  have ensured := always unreserved 20975616 (by decide) (by decide) (by decide)
    unreserved_inside (by decide) (by decide)
  exact not_exact unreserved_inside (by decide) (by decide) (.inl unreserved_max.symm) (by decide)
    (by decide) ensured

end MallocLab.Buddy
