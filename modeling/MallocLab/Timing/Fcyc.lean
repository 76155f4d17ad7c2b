import MallocLab.Foundation.Program
import MallocLab.Foundation.Smallest
import Mathlib.Algebra.Ring.Nat

/-! # The K-best measurement of `fcyc.c`

The cycle counts of one function are measured again and again until the smallest
ones agree. Counts are members of a linear order, and which of them agree is a
parameter: the source compares them as `double`s. The measured function and the
counter are a stream, the counts that one measurement after the other returns.
-/

namespace MallocLab.Timing

open Program

variable {α : Type} [LinearOrder α] [Zero α]

/-- The static variables. -/
structure Sampler (α : Type) where
  kbest : Nat
  maxsamples : Nat
  values : Nat → α
  samplecount : Nat

/-- An entry of the array `values`. -/
def valueAt (index : Nat) : Program (Sampler α) α := do
  require fun sampler => index < sampler.kbest
  view fun sampler => sampler.values index

def setValue (index : Nat) (val : α) : Program (Sampler α) Unit := do
  require fun sampler => index < sampler.kbest
  change fun sampler => { sampler with values := Function.update sampler.values index val }

def initSampler : Program (Sampler α) Unit :=
  change fun sampler => { sampler with values := fun _ => 0, samplecount := 0 }

/-- The loop of the insertion sort. -/
def insertionSort : Nat → Program (Sampler α) Unit
  | 0 => return ()
  | pos + 1 => do
      let before ← valueAt pos
      let val ← valueAt (pos + 1)
      if before > val then do
        setValue pos val
        setValue (pos + 1) before
        insertionSort pos
      else
        return ()

/-- Where a new value goes first, at the place of the last one when there is no
other. A value that is too large goes nowhere. -/
def placeSample (val : α) : Program (Sampler α) Nat := do
  let samplecount ← view Sampler.samplecount
  let kbest ← view Sampler.kbest
  if samplecount < kbest then do
    setValue samplecount val
    return samplecount
  else do
    let last ← valueAt (kbest - 1)
    if val < last then do
      setValue (kbest - 1) val
      return kbest - 1
    else
      return 0

def addSample (val : α) : Program (Sampler α) Unit := do
  let pos ← placeSample val
  change fun sampler => { sampler with samplecount := sampler.samplecount + 1 }
  insertionSort pos

/-- Whether the smallest and the largest of the best values are within epsilon of
each other. -/
def hasConverged (near : α → α → Bool) : Program (Sampler α) Bool := do
  let samplecount ← view Sampler.samplecount
  let kbest ← view Sampler.kbest
  if samplecount ≥ kbest then do
    let first ← valueAt 0
    let last ← valueAt (kbest - 1)
    return near first last
  else
    return false

/-- The loop of `fcyc`, for a number of rounds that is never used up. -/
def sampleLoop (near : α → α → Bool) (cyc : Nat → α) : Nat → Program (Sampler α) Unit
  | 0 => fault
  | rounds + 1 => do
      let turn ← view Sampler.samplecount
      addSample (cyc turn)
      let converged ← hasConverged near
      let samplecount ← view Sampler.samplecount
      let maxsamples ← view Sampler.maxsamples
      if !converged ∧ samplecount < maxsamples then
        sampleLoop near cyc rounds
      else
        return ()

def fcyc (near : α → α → Bool) (cyc : Nat → α) : Program (Sampler α) α := do
  initSampler
  let maxsamples ← view Sampler.maxsamples
  sampleLoop near cyc (maxsamples + 1)
  valueAt 0

/-! ## The insertion sort -/

section Insertion

variable {sampler : Sampler α} {pos index : Nat} {val : α}

/-- The first entries of the array. -/
def Sampler.stored (sampler : Sampler α) (count : Nat) : List α :=
  (List.range count).map sampler.values

omit [Zero α] [LinearOrder α] in
theorem Sampler.stored_succ (sampler : Sampler α) (count : Nat) :
    sampler.stored (count + 1) = sampler.stored count ++ [sampler.values count] := by
  rw [stored, stored, List.range_succ, List.map_append]
  rfl

omit [Zero α] [LinearOrder α] in
theorem Sampler.stored_congr {other : Sampler α} {count : Nat}
    (same : ∀ index < count, other.values index = sampler.values index) :
    other.stored count = sampler.stored count :=
  List.map_congr_left fun index member => same index (List.mem_range.mp member)

omit [Zero α] [LinearOrder α] in
@[simp] theorem ensures_valueAt (goal : α → Sampler α → Prop) :
    Ensures (valueAt index) sampler goal ↔
      index < sampler.kbest ∧ goal (sampler.values index) sampler := by
  rw [valueAt, ensures_bind, ensures_require, ensures_view]

omit [Zero α] [LinearOrder α] in
@[simp] theorem ensures_setValue (goal : Unit → Sampler α → Prop) :
    Ensures (setValue index val) sampler goal ↔ index < sampler.kbest ∧
      goal () { sampler with values := Function.update sampler.values index val } := by
  rw [setValue, ensures_bind, ensures_require, ensures_change]

/-- The array after a value changed its place with the one before it. -/
def Sampler.lowered (sampler : Sampler α) (pos : Nat) : Sampler α :=
  { sampler with values := Function.update (Function.update sampler.values pos
      (sampler.values (pos + 1))) (pos + 1) (sampler.values pos) }

section Lowered

omit [Zero α] [LinearOrder α]

theorem Sampler.lowered_value (sampler : Sampler α) (pos : Nat) :
    (sampler.lowered pos).values pos = sampler.values (pos + 1) :=
  (Function.update_of_ne (Nat.ne_of_lt (Nat.lt_succ_self pos)) _ _).trans
    (Function.update_self _ _ _)

theorem Sampler.lowered_before (sampler : Sampler α) (pos : Nat) :
    (sampler.lowered pos).values (pos + 1) = sampler.values pos :=
  Function.update_self _ _ _

theorem Sampler.lowered_of_ne (sampler : Sampler α) (notPos : index ≠ pos)
    (notNext : index ≠ pos + 1) : (sampler.lowered pos).values index = sampler.values index :=
  (Function.update_of_ne notNext _ _).trans (Function.update_of_ne notPos _ _)

theorem Sampler.stored_lowered (sampler : Sampler α) (pos : Nat) :
    (sampler.lowered pos).stored pos = sampler.stored pos :=
  Sampler.stored_congr fun _ below => sampler.lowered_of_ne (by omega) (by omega)

end Lowered

/-- What the insertion sort does: the value goes to its place among those before
it, and the others stay. -/
structure Inserted (sampler : Sampler α) (pos : Nat) (after : Sampler α) : Prop where
  kbest : after.kbest = sampler.kbest
  maxsamples : after.maxsamples = sampler.maxsamples
  samplecount : after.samplecount = sampler.samplecount
  stored : after.stored (pos + 1) =
    (sampler.stored pos).orderedInsert (· ≤ ·) (sampler.values pos)
  behind : ∀ index, pos < index → after.values index = sampler.values index

omit [Zero α] in
theorem ensures_insertionSort (inside : pos < sampler.kbest)
    (sorted : (sampler.stored pos).Pairwise (· ≤ ·)) :
    Ensures (insertionSort pos) sampler fun _ after => Inserted sampler pos after := by
  induction pos generalizing sampler with
  | zero => exact (ensures_pure _ _ _).mpr ⟨rfl, rfl, rfl, rfl, fun _ _ => rfl⟩
  | succ pos induction =>
      have parts := sorted
      rw [sampler.stored_succ, List.pairwise_append] at parts
      simp only [insertionSort, ensures_bind, ensures_valueAt]
      refine ⟨by omega, inside, ?_⟩
      by_cases larger : sampler.values pos > sampler.values (pos + 1)
      · rw [if_pos larger]
        simp only [ensures_bind, ensures_setValue]
        refine ⟨by omega, inside, ?_⟩
        -- The value went down by one place, and the rest of the loop goes on there.
        have same := sampler.stored_lowered pos
        have lower : sampler.values (pos + 1) ≤ sampler.values pos := le_of_lt larger
        have lowered : Ensures (insertionSort pos) (sampler.lowered pos)
            fun _ after => Inserted (sampler.lowered pos) pos after :=
          induction (Nat.lt_of_succ_lt inside) (same ▸ parts.1)
        apply lowered.mono
        rintro _ after inserted
        refine ⟨inserted.kbest, inserted.maxsamples, inserted.samplecount, ?_,
          fun index above => ?_⟩
        · rw [after.stored_succ, inserted.stored, inserted.behind _ (Nat.lt_succ_self pos), same,
            sampler.lowered_value, sampler.lowered_before, sampler.stored_succ,
            orderedInsert_concat lower]
        · rw [inserted.behind index (by omega), sampler.lowered_of_ne (by omega) (by omega)]
      · rw [if_neg larger, ensures_pure]
        refine ⟨rfl, rfl, rfl, ?_, fun _ _ => rfl⟩
        have last : sampler.values pos ≤ sampler.values (pos + 1) := not_lt.mp larger
        rw [sampler.stored_succ (pos + 1)]
        refine (orderedInsert_of_forall_ge sorted fun b member => ?_).symm
        rw [sampler.stored_succ, List.mem_append, List.mem_singleton] at member
        rcases member with front | rfl
        · exact (parts.2.2 b front _ List.mem_cons_self).trans last
        · exact last

/-! ## One sample more -/

/-- The array has the smallest of the samples that were taken, the last of which
comes first in the list. -/
structure Keeps (sampler : Sampler α) (samples : List α) : Prop where
  samplecount : sampler.samplecount = samples.length
  stored : sampler.stored (min samples.length sampler.kbest) = smallest sampler.kbest samples

variable {samples : List α}

/-- The array with a new value at some place, counted as a sample. -/
def Sampler.withSample (sampler : Sampler α) (index : Nat) (val : α) : Sampler α :=
  { sampler with
    values := Function.update sampler.values index val
    samplecount := sampler.samplecount + 1 }

omit [Zero α] in
/-- A new value behind a sorted beginning of the array goes to its place there. -/
theorem Keeps.insert {count : Nat} (keeps : Keeps sampler samples) (inside : count < sampler.kbest)
    (sorted : (sampler.stored count).Pairwise (· ≤ ·))
    (length : min (samples.length + 1) sampler.kbest = count + 1)
    (best : smallest sampler.kbest (val :: samples) =
      (sampler.stored count).orderedInsert (· ≤ ·) val) :
    Ensures (insertionSort count) (sampler.withSample count val) fun _ after =>
      Keeps after (val :: samples) ∧ after.kbest = sampler.kbest ∧
        after.maxsamples = sampler.maxsamples := by
  have same : (sampler.withSample count val).stored count = sampler.stored count :=
    Sampler.stored_congr fun index below => Function.update_of_ne (Nat.ne_of_lt below) _ _
  have placed : (sampler.withSample count val).values count = val := Function.update_self _ _ _
  have sorts : Ensures (insertionSort count) (sampler.withSample count val)
      fun _ after => Inserted (sampler.withSample count val) count after :=
    ensures_insertionSort inside (same ▸ sorted)
  apply sorts.mono
  rintro _ after inserted
  have kbest : after.kbest = sampler.kbest := inserted.kbest
  refine ⟨⟨?_, ?_⟩, kbest, inserted.maxsamples⟩
  · rw [inserted.samplecount, List.length_cons, ← keeps.samplecount]
    rfl
  · rw [kbest, List.length_cons, length, inserted.stored, placed, same, best]

omit [Zero α] in
/-- Whichever way it takes, `add_sample` keeps the smallest samples. -/
theorem Keeps.addSample (keeps : Keeps sampler samples) (positive : 0 < sampler.kbest)
    (val : α) : Ensures (addSample val) sampler fun _ after => Keeps after (val :: samples) ∧
      after.kbest = sampler.kbest ∧ after.maxsamples = sampler.maxsamples := by
  have count := keeps.samplecount
  have stored := keeps.stored
  have sorted : (smallest sampler.kbest samples).Pairwise (· ≤ ·) :=
    (sorted_insertionSort samples).sublist (List.take_sublist _ _)
  simp only [Timing.addSample, placeSample, ensures_bind, ensures_view, ensures_change]
  by_cases few : sampler.samplecount < sampler.kbest
  · have short : samples.length < sampler.kbest := count ▸ few
    have all : sampler.stored sampler.samplecount = smallest sampler.kbest samples := by
      rwa [Nat.min_eq_left short.le, ← count] at stored
    rw [if_pos few]
    simp only [ensures_bind, ensures_setValue, ensures_pure]
    refine ⟨few, ?_⟩
    change Ensures (insertionSort sampler.samplecount)
      (sampler.withSample sampler.samplecount val) _
    refine keeps.insert few (all ▸ sorted) ?_ (all ▸ smallest_cons_of_lt short)
    rw [count]
    exact Nat.min_eq_left short
  · obtain ⟨k, isBest⟩ : ∃ k, sampler.kbest = k + 1 :=
      Nat.exists_eq_succ_of_ne_zero (Nat.ne_of_gt positive)
    have many : k + 1 ≤ samples.length := by omega
    rw [isBest, Nat.min_eq_right many] at stored
    have last : (samples.insertionSort (· ≤ ·))[k]? = some (sampler.values k) := by
      have inTake : (smallest (k + 1) samples)[k]? = some (sampler.values k) := by
        rw [← stored, sampler.stored_succ, List.getElem?_append_right (by simp [Sampler.stored])]
        simp [Sampler.stored]
      rwa [smallest, List.getElem?_take_of_lt (Nat.lt_succ_self k)] at inTake
    have front : sampler.stored k = smallest k samples := by
      have dropped := congrArg (List.take k) stored
      rw [smallest, List.take_take, Nat.min_eq_left (Nat.le_succ k), sampler.stored_succ,
        List.take_left' (by simp [Sampler.stored])] at dropped
      exact dropped
    rw [if_neg few]
    simp only [ensures_bind, ensures_valueAt, isBest, Nat.add_sub_cancel]
    refine ⟨Nat.lt_succ_self k, ?_⟩
    by_cases smaller : val < sampler.values k
    · rw [if_pos smaller]
      simp only [ensures_bind, ensures_setValue, ensures_pure]
      refine ⟨isBest ▸ Nat.lt_succ_self k, ?_⟩
      rw [← isBest]
      refine keeps.insert (isBest ▸ Nat.lt_succ_self k) ?_ ?_ ?_
      · rw [front]
        exact (sorted_insertionSort samples).sublist (List.take_sublist _ _)
      · rw [isBest, Nat.min_eq_right (by omega)]
      · rw [isBest, front]
        exact smallest_cons_of_le last smaller.le
    · rw [if_neg smaller, ensures_pure, insertionSort, ensures_pure]
      refine ⟨⟨congrArg (· + 1) count, ?_⟩, isBest, rfl⟩
      change sampler.stored (min (samples.length + 1) sampler.kbest) = smallest sampler.kbest _
      rw [isBest, Nat.min_eq_right (by omega), stored, smallest_cons_of_ge last (not_lt.mp smaller)]

end Insertion

/-! ## The loop -/

section Loop

variable {sampler : Sampler α} {near : α → α → Bool} {cyc : Nat → α} {samples : List α}
  {kbest maxsamples rounds n : Nat}

/-- There are enough samples, and the first and the last of the smallest ones
agree. -/
def Agree (near : α → α → Bool) (kbest : Nat) (samples : List α) : Prop :=
  kbest ≤ samples.length ∧ ∃ first last, (smallest kbest samples).head? = some first ∧
    (smallest kbest samples).getLast? = some last ∧ near first last = true

/-- The first counts of the stream, the last one first. -/
def taken (cyc : Nat → α) (n : Nat) : List α := ((List.range n).map cyc).reverse

omit [LinearOrder α] [Zero α] in
theorem taken_succ (cyc : Nat → α) (n : Nat) : taken cyc (n + 1) = cyc n :: taken cyc n := by
  simp [taken, List.range_succ]

omit [LinearOrder α] [Zero α] in
@[simp] theorem length_taken (cyc : Nat → α) (n : Nat) : (taken cyc n).length = n := by
  simp [taken]

/-- After how many measurements `fcyc` may stop. -/
def Stops (near : α → α → Bool) (kbest maxsamples : Nat) (cyc : Nat → α) (n : Nat) : Prop :=
  maxsamples ≤ n ∨ Agree near kbest (taken cyc n)

omit [Zero α] in
theorem Keeps.hasConverged (keeps : Keeps sampler samples) (positive : 0 < sampler.kbest) :
    Ensures (hasConverged near) sampler fun converged after => after = sampler ∧
      (converged = true ↔ Agree near sampler.kbest samples) := by
  simp only [Timing.hasConverged, ensures_bind, ensures_view, keeps.samplecount]
  by_cases many : samples.length ≥ sampler.kbest
  · obtain ⟨k, isBest⟩ : ∃ k, sampler.kbest = k + 1 :=
      Nat.exists_eq_succ_of_ne_zero (Nat.ne_of_gt positive)
    have stored := keeps.stored
    rw [isBest, Nat.min_eq_right (isBest ▸ many)] at stored
    have first : (smallest sampler.kbest samples).head? = some (sampler.values 0) := by
      rw [isBest, ← stored, Sampler.stored, List.range_succ_eq_map]
      rfl
    have last : (smallest sampler.kbest samples).getLast? = some (sampler.values k) := by
      rw [isBest, ← stored, sampler.stored_succ, List.getLast?_concat]
    rw [if_pos many]
    simp only [ensures_bind, ensures_valueAt, ensures_pure]
    refine ⟨positive, by omega, trivial, ?_⟩
    rw [show sampler.kbest - 1 = k by omega]
    constructor
    · exact fun isNear => ⟨many, _, _, first, last, isNear⟩
    · rintro ⟨_, low, high, isFirst, isLast, isNear⟩
      rw [first] at isFirst
      rw [last] at isLast
      cases isFirst
      cases isLast
      exact isNear
  · rw [if_neg many, ensures_pure]
    exact ⟨rfl, iff_of_false Bool.false_ne_true fun agree => many agree.1⟩

omit [Zero α] in
/-- The loop goes on to the first place where it may stop. -/
theorem Keeps.sampleLoop (keeps : Keeps sampler (taken cyc n)) (positive : 0 < sampler.kbest)
    (going : ∀ m, 0 < m → m ≤ n → ¬Stops near sampler.kbest sampler.maxsamples cyc m)
    (enough : sampler.maxsamples < n + rounds) :
    Ensures (sampleLoop near cyc rounds) sampler fun _ after => ∃ count,
      Keeps after (taken cyc count) ∧ after.kbest = sampler.kbest ∧
        IsLeast {m | 0 < m ∧ Stops near sampler.kbest sampler.maxsamples cyc m} count := by
  induction rounds generalizing sampler n with
  | zero =>
      have late : sampler.maxsamples ≤ n := by omega
      exact absurd (.inl late) (going n (by omega) (Nat.le_refl n))
  | succ rounds induction =>
      have turn : sampler.samplecount = n := keeps.samplecount.trans (length_taken cyc n)
      simp only [Timing.sampleLoop, ensures_bind, ensures_view, turn]
      apply (keeps.addSample positive (cyc n)).mono
      rintro _ middle ⟨kept, kbest, maxsamples⟩
      rw [← taken_succ] at kept
      have converges : Ensures (Timing.hasConverged near) middle fun converged after =>
          after = middle ∧ (converged = true ↔ Agree near middle.kbest (taken cyc (n + 1))) :=
        kept.hasConverged (kbest ▸ positive)
      apply converges.mono
      rintro converged same ⟨isMiddle, agrees⟩
      subst same
      have count := kept.samplecount
      rw [length_taken] at count
      rw [kbest] at agrees
      rw [count, maxsamples]
      have stops : Stops near sampler.kbest sampler.maxsamples cyc (n + 1) ↔
          sampler.maxsamples ≤ n + 1 ∨ converged = true := by rw [agrees, Stops]
      by_cases again : !converged ∧ n + 1 < sampler.maxsamples
      · rw [if_pos again]
        have goesOn : ¬Stops near sampler.kbest sampler.maxsamples cyc (n + 1) := by
          rw [stops]
          rintro (late | done)
          · omega
          · simp [done] at again
        have next : ∀ m, 0 < m → m ≤ n + 1 →
            ¬Stops near middle.kbest middle.maxsamples cyc m := by
          intro m some below
          rw [kbest, maxsamples]
          rcases Nat.lt_or_eq_of_le below with early | rfl
          · exact going m some (Nat.le_of_lt_succ early)
          · exact goesOn
        have remaining := induction kept (kbest ▸ positive) next (by omega)
        rwa [kbest, maxsamples] at remaining
      · rw [if_neg again, ensures_pure]
        refine ⟨n + 1, kept, kbest, ⟨Nat.succ_pos n, ?_⟩, fun m stopped => ?_⟩
        · rw [stops]
          by_contra neither
          rw [not_or, Bool.not_eq_true] at neither
          exact again ⟨by simp [neither.2], not_le.mp neither.1⟩
        · by_contra early
          exact going m stopped.1 (Nat.le_of_lt_succ (not_le.mp early)) stopped.2

omit [Zero α] in
/-- The first value of the array is the smallest sample. -/
theorem Keeps.isLeast (keeps : Keeps sampler samples) (positive : 0 < sampler.kbest)
    (some : 0 < samples.length) : IsLeast {val | val ∈ samples} (sampler.values 0) := by
  have sorted := sorted_insertionSort samples
  have first : (samples.insertionSort (· ≤ ·))[0]? = .some (sampler.values 0) := by
    have stored := congrArg (·[0]?) keeps.stored
    have inside : 0 < min samples.length sampler.kbest := lt_min some positive
    simp only [Sampler.stored, smallest, List.getElem?_map, List.getElem?_range inside,
      List.getElem?_take_of_lt positive] at stored
    exact stored.symm
  cases same : samples.insertionSort (· ≤ ·) with
  | nil => simp [same] at first
  | cons least rest =>
      rw [same] at first sorted
      have isFirst : least = sampler.values 0 := Option.some.inj first
      have members : ∀ val, val ∈ samples ↔ val ∈ least :: rest := fun val =>
        same ▸ (List.mem_insertionSort (· ≤ ·)).symm
      refine ⟨(members _).mpr (isFirst ▸ List.mem_cons_self), fun val member => ?_⟩
      rcases List.mem_cons.mp ((members val).mp member) with rfl | behind
      · exact isFirst.ge
      · exact isFirst ▸ (List.pairwise_cons.mp sorted).1 val behind

/-- With room for at least one value, `fcyc` measures until it may stop for the
first time, and returns the smallest count. -/
theorem fcyc_best (positive : 0 < sampler.kbest) :
    Ensures (fcyc near cyc) sampler fun result after =>
      IsLeast {n | 0 < n ∧ Stops near sampler.kbest sampler.maxsamples cyc n} after.samplecount ∧
        IsLeast (cyc '' {i | i < after.samplecount}) result := by
  simp only [fcyc, initSampler, ensures_bind, ensures_change, ensures_view]
  let start : Sampler α := { sampler with values := fun _ => 0, samplecount := 0 }
  have none : Keeps start (taken cyc 0) := ⟨rfl, by simp [taken, Sampler.stored, smallest]⟩
  have measured : Ensures (sampleLoop near cyc (sampler.maxsamples + 1)) start fun _ after =>
      ∃ count, Keeps after (taken cyc count) ∧ after.kbest = sampler.kbest ∧
        IsLeast {n | 0 < n ∧ Stops near sampler.kbest sampler.maxsamples cyc n} count :=
    none.sampleLoop positive (fun m some below => absurd some (by omega)) (by
      change sampler.maxsamples < 0 + (sampler.maxsamples + 1)
      omega)
  apply measured.mono
  rintro _ after ⟨count, kept, kbest, least⟩
  have counted : after.samplecount = count := kept.samplecount.trans (length_taken cyc count)
  have room : 0 < after.kbest := kbest ▸ positive
  have taken_eq : {val | val ∈ taken cyc count} = cyc '' {i | i < count} := by
    ext val
    simp [taken]
  have best := kept.isLeast room ((length_taken cyc count).symm ▸ least.1.1)
  rw [ensures_valueAt, counted]
  exact ⟨room, least, taken_eq ▸ best⟩

/-- The default epsilon of one hundredth, on whole counts. -/
def within (low high : Nat) : Bool := decide (101 * low ≥ 100 * high)

def counts (turn : Nat) : Nat := [500, 201, 200, 201].getD turn 900

/-- The fourth count is the third one that is close to the smallest. -/
theorem fcyc_best_defaults :
    (fcyc within counts ⟨3, 20, fun _ => 0, 0⟩).map (fun outcome =>
      (outcome.1, outcome.2.samplecount)) = some (200, 4) ∧
    Ensures (fcyc within counts) ⟨3, 20, fun _ => 0, 0⟩ fun result after =>
      IsLeast {n | 0 < n ∧ Stops within 3 20 counts n} after.samplecount ∧
        IsLeast (counts '' {i | i < after.samplecount}) result :=
  ⟨by decide +kernel, fcyc_best (Nat.succ_pos 2)⟩

end Loop

end MallocLab.Timing
