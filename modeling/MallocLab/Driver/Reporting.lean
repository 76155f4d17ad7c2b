import MallocLab.Driver.Main
import MallocLab.Foundation.Partial

/-! # The errors that `main` counts

Whatever package the driver is linked with, a trace that fails the check adds
one error, and nothing else adds any.
-/

namespace MallocLab.Driver

open Program

variable {Statics Value : Type} {package : Package Statics} {trace : Trace} {op : TraceOp}
  {state : State Statics} {tracenum i : Nat}

@[simp] theorem allows_onMachine (program : Program (Machine Statics) Value)
    (state : State Statics) (goal : Value → State Statics → Prop) :
    Allows (onMachine program) state goal ↔
      Allows program state.machine fun value machine =>
        goal value { state with machine := machine } := by
  constructor
  · intro allowed value machine outcome
    exact allowed value _ (by rw [onMachine, outcome]; rfl)
  · intro allowed value final outcome
    rcases Option.map_eq_some_iff.mp outcome with ⟨⟨result, machine⟩, returned, same⟩
    cases same
    exact allowed result machine returned

/-! ## Programs that print no error -/

section Spares

/-- A program that prints no error. -/
abbrev Silent (program : Program (State Statics) Value) : Prop := Spares program State.errors

theorem spares_onMachine (program : Program (Machine Statics) Value) :
    Silent (onMachine program) := by
  intro state
  rw [allows_onMachine]
  exact fun _ _ _ => rfl

theorem spares_blockOf : Silent (blockOf trace op : Program (State Statics) Nat) :=
  .bind (.require _) fun _ => .view _

theorem spares_blockSizeOf : Silent (blockSizeOf trace op : Program (State Statics) Nat) :=
  .bind (.require _) fun _ => .view _

theorem spares_remember (p : Nat) :
    Silent (remember trace op p : Program (State Statics) Unit) :=
  .bind (.require _) fun _ => .change fun _ => rfl

theorem spares_removeRange (lo : Nat) :
    Silent (removeRange lo : Program (State Statics) Unit) :=
  .change fun _ => rfl

theorem spares_preserved (newp left j : Nat) :
    Silent (preserved op newp left j : Program (State Statics) Bool) := by
  induction left generalizing j with
  | zero => exact .pure _
  | succ left induction =>
      exact .bind (spares_onMachine _) fun _ => .ite (.pure _) (induction (j + 1))

theorem spares_signed (value : Int) : Silent (signed value : Program (State Statics) Int) :=
  .bind (.require _) fun _ => .pure _

end Spares

/-! ## The check -/

/-- Zero was returned and one error printed, or neither happened. -/
def Tells (tracenum : Nat) (before : State Statics) (passed : Nat) (after : State Statics) :
    Prop :=
  if passed = 0 then ∃ linenum message, after.errors = ⟨tracenum, linenum, message⟩ :: before.errors
  else after.errors = before.errors

/-- A part of the check, which returns zero exactly where it prints an error. -/
def Checks (tracenum : Nat) (program : Program (State Statics) Nat) : Prop :=
  ∀ state, Allows program state (Tells tracenum state)

namespace Checks

variable {program first second : Program (State Statics) Nat}
  {next : Value → Program (State Statics) Nat}

theorem fail (opnum : Nat) (message : Message) :
    Checks tracenum (do
      mallocError tracenum opnum message
      return 0 : Program (State Statics) Nat) := by
  intro state
  simp only [mallocError, allows_bind, allows_change, allows_pure]
  exact ⟨_, _, rfl⟩

theorem pass : Checks tracenum (return 1 : Program (State Statics) Nat) := by
  intro state
  rw [allows_pure]
  rfl

theorem bind {silent : Program (State Statics) Value} (spares : Silent silent)
    (checks : ∀ value, Checks tracenum (next value)) : Checks tracenum (silent >>= next) := by
  intro state
  rw [allows_bind]
  refine (spares state).mono fun value middle same => ?_
  refine (checks value middle).mono fun passed final tells => ?_
  unfold Tells at tells ⊢
  rwa [← same]

theorem ite {condition : Prop} [Decidable condition] (yes : Checks tracenum first)
    (no : Checks tracenum second) : Checks tracenum (if condition then first else second) := by
  split
  · exact yes
  · exact no

/-- The second part is only reached where the first one printed nothing. -/
theorem andThen (checks : Checks tracenum first) (later : Checks tracenum second) :
    Checks tracenum (do
      let passed ← first
      if passed = 0 then return 0 else second) := by
  intro state
  rw [allows_bind]
  refine (checks state).mono fun passed middle tells => ?_
  by_cases zero : passed = 0
  · rw [if_pos zero, allows_pure]
    rwa [zero] at tells
  · rw [if_neg zero]
    rw [Tells, if_neg zero] at tells
    refine (later middle).mono fun value final told => ?_
    unfold Tells at told ⊢
    rwa [← tells]

end Checks

theorem checks_addRange (lo opnum : Nat) (size : Int) :
    Checks tracenum (addRange lo size tracenum opnum : Program (State Statics) Nat) := by
  refine .bind (.require _) fun _ => .ite (.fail _ _) (.bind (spares_onMachine _) fun _ =>
    .bind (spares_onMachine _) fun _ => .ite (.fail _ _) (.bind (.view _) fun ranges => ?_))
  cases ranges.find? _ with
  | none => exact .bind (.change fun _ => rfl) fun _ => .pass
  | some range => exact .fail _ _

theorem checks_evalAlloc : Checks tracenum (evalAlloc package trace tracenum i op) :=
  .bind (spares_onMachine _) fun p => .ite (.fail _ _) (.andThen (checks_addRange _ _ _)
    (.bind (spares_onMachine _) fun _ => .bind (spares_remember p) fun _ => .pass))

theorem checks_evalRealloc : Checks tracenum (evalRealloc package trace tracenum i op) :=
  .bind spares_blockOf fun _ => .bind (spares_onMachine _) fun newp => .ite (.fail _ _)
    (.bind (spares_removeRange _) fun _ => .andThen (checks_addRange _ _ _)
      (.bind spares_blockSizeOf fun _ => .bind (spares_preserved _ _ _) fun _ =>
        .ite (.fail _ _) (.bind (spares_onMachine _) fun _ =>
          .bind (spares_remember newp) fun _ => .pass)))

theorem checks_evalFree : Checks tracenum (evalFree package trace op) :=
  .bind spares_blockOf fun _ => .bind (spares_removeRange _) fun _ =>
    .bind (spares_onMachine _) fun _ => .pass

theorem checks_evalOp : Checks tracenum (evalOp package trace tracenum i op) := by
  unfold evalOp
  cases op.type with
  | alloc => exact checks_evalAlloc
  | free => exact checks_evalFree
  | realloc => exact checks_evalRealloc

theorem checks_evalOps (ops : List TraceOp) :
    Checks tracenum (evalOps package trace tracenum i ops) := by
  induction ops generalizing i with
  | nil => exact .pass
  | cons op ops induction => exact .andThen checks_evalOp induction

theorem checks_evalMmValid : Checks tracenum (evalMmValid package trace tracenum) :=
  .bind (spares_onMachine _) fun _ => .bind (.change fun _ => rfl) fun _ =>
    .bind (spares_onMachine _) fun _ => .ite (.fail _ _) (checks_evalOps _)

/-! ## The measurements -/

section Measurements

variable {totals : Totals}

theorem spares_utilOp : Silent (utilOp package trace totals op) := by
  have raised : ∀ total, Silent (do
      return some (raise totals (← signed total)) : Program (State Statics) (Option Totals)) :=
    fun total => .bind (spares_signed total) fun _ => .pure _
  unfold utilOp
  cases op.type with
  | alloc =>
      exact .bind (spares_onMachine _) fun p => .ite (.pure _)
        (.bind (spares_remember p) fun _ => raised _)
  | free =>
      exact .bind spares_blockSizeOf fun _ => .bind spares_blockOf fun _ =>
        .bind (spares_onMachine _) fun _ => .bind (spares_signed _) fun _ => .pure _
  | realloc =>
      exact .bind spares_blockSizeOf fun _ => .bind spares_blockOf fun _ =>
        .bind (spares_onMachine _) fun newp => .ite (.pure _)
          (.bind (spares_remember newp) fun _ => .bind (spares_signed _) fun _ => raised _)

theorem spares_utilOps (ops : List TraceOp) :
    Silent (utilOps package trace totals ops) := by
  induction ops generalizing totals with
  | nil => exact .pure _
  | cons op ops induction =>
      refine .bind spares_utilOp fun result => ?_
      cases result with
      | none => exact .pure _
      | some next => exact induction

theorem spares_evalMmUtil : Silent (evalMmUtil package trace) := by
  refine .bind (spares_onMachine _) fun _ => .bind (spares_onMachine _) fun _ =>
    .ite (.pure _) (.bind (spares_utilOps _) fun result => ?_)
  cases result with
  | none => exact .pure _
  | some totals => exact .bind (.view _) fun _ => .pure _

theorem spares_setBlock (p : Nat) : 
    Silent (setBlock trace op p : Program (State Statics) Unit) :=
  .bind (.require _) fun _ => .change fun _ => rfl

theorem spares_speedOp : Silent (speedOp package trace op) := by
  unfold speedOp
  cases op.type with
  | alloc =>
      exact .bind (spares_onMachine _) fun p => .ite (.pure _)
        (.bind (spares_setBlock p) fun _ => .pure _)
  | free =>
      exact .bind spares_blockOf fun _ => .bind (spares_onMachine _) fun _ => .pure _
  | realloc =>
      exact .bind spares_blockOf fun _ => .bind (spares_onMachine _) fun newp =>
        .ite (.pure _) (.bind (spares_setBlock newp) fun _ => .pure _)

theorem spares_speedOps (ops : List TraceOp) :
    Silent (speedOps package trace ops) := by
  induction ops with
  | nil => exact .pure _
  | cons op ops induction =>
      exact .bind spares_speedOp fun _ => .ite induction (.pure _)

theorem spares_evalMmSpeed : Silent (evalMmSpeed package trace) :=
  .bind (spares_onMachine _) fun _ => .bind (spares_onMachine _) fun _ =>
    .ite (.pure _) (spares_speedOps _)

theorem spares_ftimerGettod {f : Program (State Statics) Bool} (spares : Silent f)
    (n : Nat) : Silent (ftimerGettod f n) := by
  induction n with
  | zero => exact .pure _
  | succ n induction => exact .bind spares fun _ => .ite induction (.pure _)

end Measurements

/-! ## The whole run -/

/-- What one round of `main` adds to what is known. -/
def Told (tracenum : Nat) (loaded : Loaded) (before : State Statics) (stats : Stats)
    (after : State Statics) : Prop :=
  stats.ops = loaded.trace.ops.length ∧ (stats.util = none ↔ stats.valid = 0) ∧
    Tells tracenum before stats.valid after

theorem allows_evalTrace (loaded : Loaded) :
    Allows (evalTrace package i loaded) state fun result after =>
      ∀ stats ∈ result, Told i loaded state stats after := by
  simp only [evalTrace, allows_bind, allows_change]
  refine (checks_evalMmValid _).mono fun valid middle tells => ?_
  by_cases zero : valid = 0
  · rw [if_pos zero, allows_pure]
    rintro stats ⟨⟩
    exact ⟨rfl, by simp [zero], tells⟩
  · rw [if_neg zero, allows_bind]
    refine (spares_evalMmUtil middle).mono fun result later same => ?_
    cases result with
    | none => simp
    | some util =>
        simp only [allows_bind]
        refine (spares_ftimerGettod spares_evalMmSpeed 10 later).mono fun timed after also => ?_
        rw [Tells, if_neg zero] at tells
        cases timed with
        | false => simp
        | true =>
            simp only [if_true, allows_pure]
            rintro stats ⟨⟩
            refine ⟨rfl, by simp [zero], ?_⟩
            rw [Tells, if_neg zero]
            exact also.trans (same.trans tells)

/-- The numbers of the traces that failed, from the `i`-th on. -/
def failures (i : Nat) (stats : List Stats) : List Nat :=
  ((stats.zipIdx i).filter fun numbered => numbered.1.valid = 0).map Prod.snd

/-- What the loop of `main` adds to what is known. -/
structure Counted (i : Nat) (traces : List Loaded) (before : State Statics)
    (stats : List Stats) (after : State Statics) : Prop where
  ops : stats.map Stats.ops = traces.map fun loaded => loaded.trace.ops.length
  utils : ∀ stat ∈ stats, stat.util = none ↔ stat.valid = 0
  errors : after.errors.map Report.tracenum =
    (failures i stats).reverse ++ before.errors.map Report.tracenum

theorem allows_evalTraces (traces : List Loaded) :
    Allows (evalTraces package i traces) state fun result after =>
      ∀ stats ∈ result, Counted i traces state stats after := by
  induction traces generalizing i state with
  | nil =>
      rw [evalTraces, allows_pure]
      rintro stats ⟨⟩
      exact ⟨rfl, nofun, rfl⟩
  | cons loaded rest induction =>
      rw [evalTraces, allows_bind]
      refine (allows_evalTrace loaded).mono fun result middle told => ?_
      cases result with
      | none => simp
      | some first =>
          rw [allows_bind]
          refine induction.mono fun others after counted => ?_
          cases others with
          | none => simp
          | some stats =>
              rw [allows_pure]
              rintro _ ⟨⟩
              have later := counted stats rfl
              rcases told first rfl with ⟨ops, utils, tells⟩
              refine ⟨?_, ?_, ?_⟩
              · rw [List.map_cons, List.map_cons, ops, later.ops]
              · exact List.forall_mem_cons.mpr ⟨utils, later.utils⟩
              · rw [later.errors]
                unfold Tells at tells
                by_cases zero : first.valid = 0
                · rw [if_pos zero] at tells
                  rcases tells with ⟨linenum, message, same⟩
                  simp [failures, zero, same]
                · rw [if_neg zero] at tells
                  simp [failures, zero, tells]

theorem failures_length (i : Nat) (stats : List Stats) :
    (failures i stats).length = stats.countP fun stat => stat.valid = 0 := by
  induction stats generalizing i with
  | nil => rfl
  | cons first stats induction =>
      have later := induction (i + 1)
      simp only [failures, List.length_map] at later
      by_cases zero : first.valid = 0 <;> simp [failures, zero, later]

theorem failures_sorted (i : Nat) (stats : List Stats) :
    (failures i stats).Pairwise (· < ·) ∧ ∀ number ∈ failures i stats,
      i ≤ number ∧ number < i + stats.length := by
  induction stats generalizing i with
  | nil => exact ⟨.nil, nofun⟩
  | cons first stats induction =>
      rcases induction (i + 1) with ⟨sorted, bounds⟩
      have later : ∀ number ∈ failures (i + 1) stats,
          i < number ∧ number < i + (stats.length + 1) := by
        intro number member
        have inside := bounds number member
        omega
      by_cases zero : first.valid = 0
      · have shape : failures i (first :: stats) = i :: failures (i + 1) stats := by
          simp [failures, zero]
        rw [shape]
        refine ⟨sorted.cons fun number member => (later number member).1, ?_⟩
        simp only [List.forall_mem_cons, List.length_cons]
        exact ⟨by omega, fun number member => ⟨(later number member).1.le,
          (later number member).2⟩⟩
      · have shape : failures i (first :: stats) = failures (i + 1) stats := by
          simp [failures, zero]
        rw [shape]
        exact ⟨sorted, fun number member => ⟨(later number member).1.le,
          (later number member).2⟩⟩

/-- Whatever package the driver is linked with: if `main` comes to its end,
every trace is either correct or the number of exactly one error, and the index
is printed if and only if all traces are correct, from one utilization for each
of them. -/
theorem main_counts {traces : List Loaded} {result : Summary} {after : State Statics}
    (noErrors : state.errors = [])
    (outcome : main package traces state = some (some result, after)) :
    result.numcorrect + after.errors.length = traces.length ∧
      (after.errors.map Report.tracenum).Pairwise (· > ·) ∧
      (∀ report ∈ after.errors, report.tracenum < traces.length) ∧
      (result.numcorrect = traces.length → ∃ utils, utils.length = traces.length ∧
        result.outcome = .index (traces.map fun loaded => loaded.trace.ops.length).sum utils) ∧
      (result.numcorrect ≠ traces.length →
        result.outcome = .errors (traces.length - result.numcorrect)) := by
  have allowed : Allows (main package traces) state fun result after =>
      ∀ summarised ∈ result, ∃ stats, Counted 0 traces state stats after ∧
        summarised = summary stats after.errors.length := by
    rw [main, allows_bind]
    refine (allows_evalTraces traces).mono fun result middle counted => ?_
    cases result with
    | none => simp
    | some stats =>
        simp only [allows_bind, allows_view, allows_pure]
        rintro _ ⟨⟩
        exact ⟨stats, counted stats rfl, rfl⟩
  rcases allowed _ _ outcome result rfl with ⟨stats, counted, rfl⟩
  have numbers := counted.errors
  rw [noErrors, List.map_nil, List.append_nil] at numbers
  have many : after.errors.length = (failures 0 stats).length := by
    rw [← List.length_map Report.tracenum, numbers, List.length_reverse]
  have length : stats.length = traces.length := by
    have same := congrArg List.length counted.ops
    rwa [List.length_map, List.length_map] at same
  have bounds := failures_sorted 0 stats
  have split : (stats.countP fun stat => stat.valid ≠ 0) + after.errors.length =
      traces.length := by
    rw [many, failures_length, ← length, Nat.add_comm,
      @List.length_eq_countP_add_countP _ (fun stat : Stats => stat.valid = 0) stats]
    simp
  have correct : (summary stats after.errors.length).numcorrect =
      stats.countP fun stat => stat.valid ≠ 0 := rfl
  refine ⟨split, ?_, ?_, ?_, ?_⟩
  · rw [numbers, List.pairwise_reverse]
    exact bounds.1
  · intro report member
    have named : report.tracenum ∈ (failures 0 stats).reverse :=
      numbers ▸ List.mem_map_of_mem member
    have inside := (bounds.2 _ (List.mem_reverse.mp named)).2
    omega
  · intro all
    have none : after.errors.length = 0 := by omega
    have everyUtil : (stats.filterMap Stats.util).length = stats.length := by
      have valid : ∀ stat ∈ stats, stat.valid ≠ 0 := by
        have every : stats.countP (fun stat => stat.valid ≠ 0) = stats.length := by omega
        simpa using List.countP_eq_length.mp every
      have defined : ∀ stat ∈ stats, (stat.util.isSome = true) := fun stat member =>
        Option.isSome_iff_ne_none.mpr fun missing =>
          valid stat member ((counted.utils stat member).mp missing)
      rw [List.length_filterMap_eq_countP]
      exact List.countP_eq_length.mpr defined
    refine ⟨stats.filterMap Stats.util, everyUtil.trans length, ?_⟩
    rw [summary, none, if_pos rfl, counted.ops]
  · intro some
    have positive : after.errors.length ≠ 0 := by omega
    have left : after.errors.length = traces.length - (summary stats after.errors.length).numcorrect := by
      omega
    rw [summary, if_neg positive]
    exact congrArg Outcome.errors left

/-- A trace that the package passes and one that it fails. -/
def lowAndHigh : List Loaded :=
  [⟨resizeOnce 0, fun _ => 0, fun _ => 0⟩, ⟨resizeOnce 128, fun _ => 0, fun _ => 0⟩]

theorem main_counts_low_and_high : ∃ after,
    main twoAddresses lowAndHigh fresh = some (some ⟨1, .errors 1⟩, after) ∧
      1 + after.errors.length = lowAndHigh.length ∧
      (after.errors.map Report.tracenum).Pairwise (· > ·) ∧
      (∀ report ∈ after.errors, report.tracenum < lowAndHigh.length) ∧
      (1 = lowAndHigh.length → ∃ utils, utils.length = lowAndHigh.length ∧
        Outcome.errors 1 =
          .index (lowAndHigh.map fun loaded => loaded.trace.ops.length).sum utils) ∧
      (1 ≠ lowAndHigh.length → Outcome.errors 1 = .errors (lowAndHigh.length - 1)) := by
  have run : (main twoAddresses lowAndHigh fresh).map Prod.fst =
      some (some ⟨1, .errors 1⟩) := by decide +kernel
  rcases Option.map_eq_some_iff.mp run with ⟨⟨result, after⟩, outcome, rfl⟩
  exact ⟨after, outcome, main_counts rfl outcome⟩

end MallocLab.Driver
