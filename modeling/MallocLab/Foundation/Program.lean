import Mathlib.Logic.Basic

/-! # Programs over a state that may fault

A program reads and changes a state and either returns a value or has no
outcome. Having no outcome models everything after which a C program promises
nothing: an access outside the storage it owns, or a loop that never ends.
-/

namespace MallocLab

def Program (State Value : Type) : Type := State → Option (Value × State)

namespace Program

variable {State Value Result : Type}

instance : Monad (Program State) where
  pure value := fun state => some (value, state)
  bind program next := fun state =>
    (program state).bind fun outcome => next outcome.1 outcome.2

/-- The program without an outcome. -/
def fault : Program State Value := fun _ => none

/-- Look at the state. -/
def view (look : State → Value) : Program State Value :=
  fun state => some (look state, state)

/-- Replace the state. -/
def change (next : State → State) : Program State Unit :=
  fun state => some ((), next state)

/-- Go on only when the state satisfies a decidable condition. -/
def require (condition : State → Prop) [DecidablePred condition] :
    Program State Unit :=
  fun state => if condition state then some ((), state) else none

/-- Total correctness from one state: the program has an outcome, and the
outcome satisfies `goal`. -/
def Ensures (program : Program State Value) (state : State)
    (goal : Value → State → Prop) : Prop :=
  ∃ value final, program state = some (value, final) ∧ goal value final

@[simp] theorem ensures_pure (value : Value) (state : State)
    (goal : Value → State → Prop) :
    Ensures (pure value : Program State Value) state goal ↔ goal value state := by
  constructor
  · rintro ⟨_, _, equal, holds⟩
    cases equal
    exact holds
  · exact fun holds => ⟨value, state, rfl, holds⟩

@[simp] theorem ensures_bind (program : Program State Value)
    (next : Value → Program State Result) (state : State)
    (goal : Result → State → Prop) :
    Ensures (program >>= next) state goal ↔
      Ensures program state fun value middle => Ensures (next value) middle goal := by
  change (∃ result final, (program state).bind (fun outcome =>
    next outcome.1 outcome.2) = some (result, final) ∧ goal result final) ↔ _
  constructor
  · rintro ⟨result, final, equal, holds⟩
    rcases Option.bind_eq_some_iff.mp equal with ⟨⟨value, middle⟩, first, second⟩
    exact ⟨value, middle, first, result, final, second, holds⟩
  · rintro ⟨value, middle, first, result, final, second, holds⟩
    exact ⟨result, final, Option.bind_eq_some_iff.mpr ⟨_, first, second⟩, holds⟩

/-- Sequencing after a program whose outcome is known. -/
theorem ensures_bind_of_eq {program : Program State Value} {next : Value → Program State Result}
    {state middle : State} {value : Value} {goal : Result → State → Prop}
    (outcome : program state = some (value, middle)) :
    Ensures (program >>= next) state goal ↔ Ensures (next value) middle goal := by
  rw [ensures_bind]
  constructor
  · rintro ⟨_, _, equal, holds⟩
    cases outcome.symm.trans equal
    exact holds
  · exact fun holds => ⟨value, middle, outcome, holds⟩

@[simp] theorem ensures_view (look : State → Value) (state : State)
    (goal : Value → State → Prop) :
    Ensures (view look) state goal ↔ goal (look state) state :=
  ensures_pure (look state) state goal

@[simp] theorem ensures_change (next : State → State) (state : State)
    (goal : Unit → State → Prop) :
    Ensures (change next) state goal ↔ goal () (next state) := by
  constructor
  · rintro ⟨_, _, equal, holds⟩
    cases equal
    exact holds
  · exact fun holds => ⟨(), next state, rfl, holds⟩

@[simp] theorem ensures_require (condition : State → Prop)
    [DecidablePred condition] (state : State) (goal : Unit → State → Prop) :
    Ensures (require condition) state goal ↔ condition state ∧ goal () state := by
  constructor
  · rintro ⟨_, _, equal, reached⟩
    simp only [require, Option.ite_none_right_eq_some] at equal
    cases equal.2
    exact ⟨equal.1, reached⟩
  · rintro ⟨holds, reached⟩
    exact ⟨(), state, by simp [require, holds], reached⟩

@[simp] theorem ensures_fault (state : State) (goal : Value → State → Prop) :
    ¬Ensures fault state goal := by
  rintro ⟨_, _, equal, _⟩
  cases equal

theorem ensures_ite (condition : Prop) [Decidable condition]
    (first second : Program State Value) (state : State)
    (goal : Value → State → Prop) :
    Ensures (if condition then first else second) state goal ↔
      if condition then Ensures first state goal
      else Ensures second state goal := by
  by_cases holds : condition <;> simp [holds]

/-- Weaken what a program is known to achieve. -/
theorem Ensures.mono {program : Program State Value} {state : State}
    {weak strong : Value → State → Prop}
    (ensured : Ensures program state strong)
    (weaker : ∀ value final, strong value final → weak value final) :
    Ensures program state weak := by
  rcases ensured with ⟨value, final, equal, holds⟩
  exact ⟨value, final, equal, weaker value final holds⟩

/-- Programs are deterministic, so what two specifications promise holds of
one and the same outcome. -/
theorem Ensures.and {program : Program State Value} {state : State}
    {left right : Value → State → Prop}
    (leftEnsured : Ensures program state left)
    (rightEnsured : Ensures program state right) :
    Ensures program state fun value final => left value final ∧ right value final := by
  rcases leftEnsured with ⟨value, final, equal, holds⟩
  rcases rightEnsured with ⟨_, _, same, also⟩
  cases equal.symm.trans same
  exact ⟨value, final, equal, holds, also⟩

theorem Ensures.of_eq {program : Program State Value} {state final : State}
    {value : Value} {goal : Value → State → Prop}
    (ensured : Ensures program state goal)
    (outcome : program state = some (value, final)) : goal value final := by
  rcases ensured with ⟨_, _, equal, holds⟩
  cases equal.symm.trans outcome
  exact holds

end Program

end MallocLab
