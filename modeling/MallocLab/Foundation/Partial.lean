import MallocLab.Foundation.Program

/-! # Partial correctness of programs

What every outcome of a program satisfies, whether or not it has one.
-/

namespace MallocLab

namespace Program

variable {State Value Result Observation : Type}

/-- Partial correctness from one state: an outcome, if any, satisfies `goal`. -/
def Allows (program : Program State Value) (state : State) (goal : Value → State → Prop) : Prop :=
  ∀ value final, program state = some (value, final) → goal value final

@[simp] theorem allows_pure (value : Value) (state : State) (goal : Value → State → Prop) :
    Allows (pure value : Program State Value) state goal ↔ goal value state := by
  constructor
  · exact fun allowed => allowed value state rfl
  · intro holds _ _ outcome
    cases outcome
    exact holds

@[simp] theorem allows_bind (program : Program State Value)
    (next : Value → Program State Result) (state : State) (goal : Result → State → Prop) :
    Allows (program >>= next) state goal ↔
      Allows program state fun value middle => Allows (next value) middle goal := by
  constructor
  · intro allowed value middle first result final second
    exact allowed result final (Option.bind_eq_some_iff.mpr ⟨_, first, second⟩)
  · intro allowed result final outcome
    rcases Option.bind_eq_some_iff.mp outcome with ⟨⟨value, middle⟩, first, second⟩
    exact allowed value middle first result final second

@[simp] theorem allows_view (look : State → Value) (state : State) (goal : Value → State → Prop) :
    Allows (view look) state goal ↔ goal (look state) state :=
  allows_pure (look state) state goal

@[simp] theorem allows_change (next : State → State) (state : State)
    (goal : Unit → State → Prop) :
    Allows (change next) state goal ↔ goal () (next state) := by
  constructor
  · exact fun allowed => allowed () (next state) rfl
  · intro holds _ _ outcome
    cases outcome
    exact holds

@[simp] theorem allows_require (condition : State → Prop) [DecidablePred condition]
    (state : State) (goal : Unit → State → Prop) :
    Allows (require condition) state goal ↔ (condition state → goal () state) := by
  constructor
  · exact fun allowed satisfied => allowed () state (if_pos satisfied)
  · intro holds _ _ outcome
    rw [require] at outcome
    split at outcome
    · cases outcome
      exact holds ‹_›
    · cases outcome

/-- Weaken what the outcomes of a program are known to satisfy. -/
theorem Allows.mono {program : Program State Value} {state : State}
    {strong weak : Value → State → Prop} (allowed : Allows program state strong)
    (weaker : ∀ value final, strong value final → weak value final) : Allows program state weak :=
  fun value final outcome => weaker value final (allowed value final outcome)

/-- What all outcomes satisfy, the outcome that a program has does. -/
theorem Ensures.and_allows {program : Program State Value} {state : State}
    {first second : Value → State → Prop} (ensured : Ensures program state first)
    (allowed : Allows program state second) :
    Ensures program state fun value final => first value final ∧ second value final := by
  rcases ensured with ⟨value, final, outcome, holds⟩
  exact ⟨value, final, outcome, holds, allowed value final outcome⟩

/-- A program without a view of its own on a part of the state. -/
def Spares (program : Program State Value) (look : State → Observation) : Prop :=
  ∀ state, Allows program state fun _ final => look final = look state

namespace Spares

variable {program : Program State Value} {next : Value → Program State Result}
  {look : State → Observation}

theorem pure (value : Value) : Spares (pure value : Program State Value) look :=
  fun state => (allows_pure value state _).mpr rfl

theorem view (other : State → Value) : Spares (view other) look :=
  fun state => (allows_view other state _).mpr rfl

theorem change {update : State → State} (same : ∀ state, look (update state) = look state) :
    Spares (change update) look :=
  fun state => (allows_change update state _).mpr (same state)

theorem require (condition : State → Prop) [DecidablePred condition] :
    Spares (require condition) look :=
  fun state => (allows_require condition state _).mpr fun _ => rfl

theorem bind (first : Spares program look) (second : ∀ value, Spares (next value) look) :
    Spares (program >>= next) look := by
  intro state
  rw [allows_bind]
  refine (first state).mono fun value middle same => ?_
  exact (second value middle).mono fun _ _ later => later.trans same

theorem ite {condition : Prop} [Decidable condition] {other : Program State Value}
    (first : Spares program look) (second : Spares other look) :
    Spares (if condition then program else other) look := by
  split
  · exact first
  · exact second

end Spares

end Program

end MallocLab
