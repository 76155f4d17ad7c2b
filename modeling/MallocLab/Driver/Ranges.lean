import MallocLab.Driver.Source

/-! # What `add_range` accepts -/

namespace MallocLab.Driver

open Program

variable {Statics Value : Type} {state after : State Statics} {lo hi tracenum opnum : Nat}
  {size : Int}

@[simp] theorem ensures_onMachine (program : Program (Machine Statics) Value)
    (state : State Statics) (goal : Value → State Statics → Prop) :
    Ensures (onMachine program) state goal ↔
      Ensures program state.machine fun value machine =>
        goal value { state with machine := machine } := by
  constructor
  · rintro ⟨value, final, outcome, holds⟩
    rcases Option.map_eq_some_iff.mp outcome with ⟨⟨_, machine⟩, returned, same⟩
    cases same
    exact ⟨_, machine, returned, holds⟩
  · rintro ⟨value, machine, returned, holds⟩
    exact ⟨value, _, Option.map_eq_some_iff.mpr ⟨_, returned, rfl⟩, holds⟩

@[simp] theorem ensures_mallocError (message : Message) (state : State Statics)
    (goal : Unit → State Statics → Prop) :
    Ensures (mallocError tracenum opnum message) state goal ↔
      goal () { state with errors := ⟨tracenum, lineNum opnum, message⟩ :: state.errors } :=
  ensures_change _ _ _

@[simp] theorem ensures_removeRange (state : State Statics)
    (goal : Unit → State Statics → Prop) :
    Ensures (removeRange lo) state goal ↔
      goal () { state with ranges := state.ranges.eraseP fun p => p.lo = lo } :=
  ensures_change _ _ _

theorem lastByte_eq (positive : 0 < size) (noWrap : lo + size.toNat - 1 < 2 ^ 32) :
    lastByte lo size = lo + size.toNat - 1 := by
  rw [lastByte, toSizeT_of_lt (by omega) (by omega)]
  omega

/-- The reasons for which `add_range` refuses a payload. -/
def Refuses (state : State Statics) (lo hi : Nat) : Prop :=
  ¬IsAligned lo ∨
    (lo < state.machine.memStartBrk ∨ lo > state.machine.memBrk - 1 ∨
      hi < state.machine.memStartBrk ∨ hi > state.machine.memBrk - 1) ∨
    ∃ range ∈ state.ranges, range.Has lo ∨ range.Has hi

theorem addRange_refused (positive : 0 < size) (refuses : Refuses state lo (lastByte lo size)) :
    ∃ message, addRange lo size tracenum opnum state =
      some (0, { state with errors := ⟨tracenum, lineNum opnum, message⟩ :: state.errors }) := by
  suffices ensured : Ensures (addRange lo size tracenum opnum) state fun value final =>
      value = 0 ∧ ∃ message,
        final = { state with errors := ⟨tracenum, lineNum opnum, message⟩ :: state.errors } by
    rcases ensured with ⟨_, _, outcome, rfl, message, rfl⟩
    exact ⟨message, outcome⟩
  simp only [addRange, ensures_bind, ensures_require]
  refine ⟨positive, ?_⟩
  by_cases aligned : IsAligned lo
  · rw [if_neg (not_not.mpr aligned)]
    simp only [ensures_bind, ensures_onMachine, ensures_memHeapLo, ensures_memHeapHi]
    split
    · simp only [ensures_bind, ensures_mallocError, ensures_pure]
      exact ⟨trivial, _, rfl⟩
    · rename_i inside
      rw [ensures_bind, ensures_view]
      split
      · simp only [ensures_bind, ensures_mallocError, ensures_pure]
        exact ⟨trivial, _, rfl⟩
      · rename_i nothing
        rcases refuses with misaligned | outside | ⟨range, listed, touches⟩
        · exact absurd aligned misaligned
        · exact absurd outside inside
        · have apart := List.find?_eq_none.mp nothing range listed
          exact absurd touches (by simpa using apart)
  · rw [if_pos aligned]
    simp only [ensures_bind, ensures_mallocError, ensures_pure]
    exact ⟨trivial, _, rfl⟩

theorem addRange_accepted (positive : 0 < size)
    (accepts : ¬Refuses state lo (lastByte lo size)) :
    addRange lo size tracenum opnum state =
      some (1, { state with ranges := ⟨lo, lastByte lo size⟩ :: state.ranges }) := by
  suffices ensured : Ensures (addRange lo size tracenum opnum) state fun value final =>
      value = 1 ∧ final = { state with ranges := ⟨lo, lastByte lo size⟩ :: state.ranges } by
    rcases ensured with ⟨_, _, outcome, rfl, rfl⟩
    exact outcome
  rw [Refuses, not_or, not_or, not_not] at accepts
  rcases accepts with ⟨aligned, inside, apart⟩
  simp only [addRange, ensures_bind, ensures_require]
  refine ⟨positive, ?_⟩
  rw [if_neg (not_not.mpr aligned)]
  simp only [ensures_bind, ensures_onMachine, ensures_memHeapLo, ensures_memHeapHi,
    if_neg inside, ensures_view]
  split
  · rename_i range found
    have touches := List.find?_some found
    exact absurd ⟨range, List.mem_of_find?_eq_some found, by simpa using touches⟩ apart
  · simp

/-- Two ranges have a byte in common. -/
def Range.Meets (range other : Range) : Prop :=
  ∃ address, range.Has address ∧ other.Has address

/-- A range lies between the two ends of another one and touches neither. -/
def Range.Within (range other : Range) : Prop := other.lo < range.lo ∧ range.hi < other.hi

/-- Ranges that meet either share an end of the first one, or the first one
encloses the second one. -/
theorem Range.meets_iff {range other : Range} (ordered : range.lo ≤ range.hi)
    (otherOrdered : other.lo ≤ other.hi) :
    range.Meets other ↔ (other.Has range.lo ∨ other.Has range.hi) ∨ other.Within range := by
  constructor
  · rintro ⟨address, ⟨low, high⟩, otherLow, otherHigh⟩
    unfold Within Has
    omega
  · rintro ((inside | inside) | ⟨low, high⟩)
    · exact ⟨range.lo, ⟨Nat.le_refl _, ordered⟩, inside⟩
    · exact ⟨range.hi, ⟨ordered, Nat.le_refl _⟩, inside⟩
    · exact ⟨other.lo, ⟨by omega, by omega⟩, Nat.le_refl _, otherOrdered⟩

/-- What an accepted payload is to be. -/
def Sound (state : State Statics) (lo hi : Nat) : Prop :=
  IsAligned lo ∧ state.machine.memStartBrk ≤ lo ∧ hi ≤ state.machine.memBrk - 1 ∧
    ∀ range ∈ state.ranges, ¬(Range.mk lo hi).Meets range

end MallocLab.Driver
