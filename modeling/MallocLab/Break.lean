import MallocLab.Memlib

/-! # The break pointer of `memlib.c`

Every allocator takes its memory from `mem_sbrk`. The calls of one program are
replayed from `mem_init`, together with the regions handed out since the last
`mem_reset_brk`.
-/

namespace MallocLab

open Program

variable {Statics : Type} {machine after : Machine Statics} {incr : Int} {start brk : Nat}

/-- What one call of `mem_sbrk` handed out. -/
structure Region where
  start : Nat
  length : Nat
  deriving DecidableEq

namespace Region

def limit (region : Region) : Nat := region.start + region.length

/-- The regions follow each other without a gap, from one address to another. -/
def Contiguous : Nat → List Region → Nat → Prop
  | start, [], brk => start = brk
  | start, region :: rest, brk => region.start = start ∧ Contiguous region.limit rest brk

variable {regions : List Region}

theorem contiguous_append {region : Region} (contiguous : Contiguous start regions brk)
    (next : region.start = brk) : Contiguous start (regions ++ [region]) region.limit := by
  induction regions generalizing start with
  | nil => exact ⟨next.trans contiguous.symm, rfl⟩
  | cons first rest ih => exact ⟨contiguous.1, ih contiguous.2⟩

/-- Contiguous regions lie between their ends and follow each other. -/
theorem Contiguous.bounds (contiguous : Contiguous start regions brk) :
    start ≤ brk ∧ ∀ region ∈ regions, start ≤ region.start ∧ region.limit ≤ brk := by
  induction regions generalizing start with
  | nil => exact ⟨contiguous.le, fun _ member => (List.not_mem_nil member).elim⟩
  | cons first rest ih =>
      have later := ih contiguous.2
      have ordered : first.start ≤ first.limit := Nat.le_add_right _ _
      have begins := contiguous.1
      constructor
      · omega
      · intro region member
        cases List.mem_cons.mp member with
        | inl same =>
            rw [same]
            exact ⟨begins.ge, later.1⟩
        | inr inRest =>
            have inside := later.2 region inRest
            exact ⟨by omega, inside.2⟩

theorem Contiguous.disjoint (contiguous : Contiguous start regions brk) :
    regions.Pairwise fun earlier later => earlier.limit ≤ later.start := by
  induction regions generalizing start with
  | nil => exact List.Pairwise.nil
  | cons first rest ih =>
      apply List.Pairwise.cons
      · intro region member
        exact (contiguous.2.bounds.2 region member).1
      · exact ih contiguous.2

end Region

/-! ## One call -/

/-- The break lies in the arena. -/
structure Machine.BreakInside (machine : Machine Statics) : Prop where
  started : machine.memStartBrk ≤ machine.memBrk
  bounded : machine.memBrk ≤ machine.memMaxAddr

/-- The sum that `mem_sbrk` compares with `mem_max_addr` stays in the address
space. A negative increment is refused before the comparison. -/
def Machine.NoWrap (machine : Machine Statics) (incr : Int) : Prop :=
  incr < 0 ∨ machine.memBrk + incr < 2 ^ 32

instance (machine : Machine Statics) (incr : Int) : Decidable (machine.NoWrap incr) :=
  inferInstanceAs (Decidable (_ ∨ _))

/-- The values of an `int`. -/
def IsInt (incr : Int) : Prop := -2147483648 ≤ incr ∧ incr < 2147483648

instance (incr : Int) : Decidable (IsInt incr) := inferInstanceAs (Decidable (_ ∧ _))

/-- What `mem_sbrk` promises of its result and of the break. -/
structure Machine.Grows (machine : Machine Statics) (incr : Int) (result : Nat)
    (after : Machine Statics) : Prop where
  start : after.memStartBrk = machine.memStartBrk
  max : after.memMaxAddr = machine.memMaxAddr
  inside : after.BreakInside
  granted : result ≠ sbrkFailed → result = machine.memBrk ∧
    (after.memBrk : Int) = machine.memBrk + incr ∧
    (after.heapLength : Int) = machine.heapLength + incr
  refused : result = sbrkFailed → after.memBrk = machine.memBrk

theorem nextBrk_of_noWrap (positive : 0 ≤ incr) (noWrap : machine.NoWrap incr) :
    (machine.nextBrk incr : Int) = machine.memBrk + incr := by
  have small : machine.memBrk + incr.toNat < 2 ^ 32 := by
    have := noWrap.resolve_left (not_lt.mpr positive)
    omega
  rw [Machine.nextBrk, wrap_of_lt small, Nat.cast_add, Int.toNat_of_nonneg positive]

/-- A sum that wraps lies below the break, so it is accepted. -/
theorem nextBrk_of_wrap (isInt : IsInt incr) (word : machine.memBrk < 2 ^ 32)
    (wraps : ¬machine.NoWrap incr) :
    0 ≤ incr ∧ machine.nextBrk incr < machine.memBrk := by
  have parts := not_or.mp wraps
  have bound := isInt.2
  unfold Machine.nextBrk wrap
  omega

theorem ensures_memSbrk (inside : machine.BreakInside) (noWrap : machine.NoWrap incr) :
    Ensures (memSbrk incr) machine (machine.Grows incr) := by
  have started := inside.started
  by_cases refused : incr < 0 ∨ machine.memMaxAddr < machine.nextBrk incr
  · rw [memSbrk_refused refused]
    exact ⟨rfl, rfl, inside, fun granted => (granted rfl).elim, fun _ => rfl⟩
  · have positive : 0 ≤ incr := not_lt.mp (not_or.mp refused).1
    have fits : machine.nextBrk incr ≤ machine.memMaxAddr := not_lt.mp (not_or.mp refused).2
    have next := nextBrk_of_noWrap positive noWrap
    rw [memSbrk_granted positive fits]
    constructor
    · rfl
    · rfl
    · have ordered : machine.memStartBrk ≤ machine.nextBrk incr := by omega
      exact ⟨ordered, fits⟩
    · intro _
      refine ⟨rfl, next, ?_⟩
      rw [Machine.heapLength, Machine.heapLength, Machine.setBrk_memBrk, Machine.setBrk_memStartBrk]
      omega
    · intro same
      have last : machine.memBrk = 2 ^ 32 - 1 := same
      have small := noWrap.resolve_left (not_lt.mpr positive)
      rw [Machine.setBrk_memBrk]
      omega

/-- A sum that wraps moves the break backwards, so the promise is kept exactly
when the sum does not wrap. -/
theorem ensures_memSbrk_iff (inside : machine.BreakInside) (isInt : IsInt incr)
    (addressable : machine.memMaxAddr < 2 ^ 32) :
    Ensures (memSbrk incr) machine (machine.Grows incr) ↔ machine.NoWrap incr := by
  constructor
  · intro ensured
    by_contra wraps
    have bounded := inside.bounded
    rcases nextBrk_of_wrap isInt (by omega) wraps with ⟨positive, backwards⟩
    rw [memSbrk_granted positive (by omega)] at ensured
    by_cases last : machine.memBrk = sbrkFailed
    · have unchanged := ensured.refused last
      rw [Machine.setBrk_memBrk] at unchanged
      omega
    · have moved := (ensured.granted last).2.1
      rw [Machine.setBrk_memBrk] at moved
      omega
  · exact ensures_memSbrk inside

/-! ## Runs -/

/-- The calls of `mem_sbrk` and `mem_reset_brk` after `mem_init`, where no sum of
a call wraps and neither does `mem_max_addr`. The regions are those handed out
since the last reset. -/
inductive Grown (arena : Nat) : Machine Statics → List Region → Prop
  | init (bytes : Memory) (initial : Statics) (below : arena + maxHeap < 2 ^ 32) :
      Grown arena (memInit arena bytes initial) []
  | reset {machine after : Machine Statics} {regions : List Region}
      (grown : Grown arena machine regions)
      (done : memResetBrk machine = some ((), after)) : Grown arena after []
  | sbrk {machine after : Machine Statics} {regions : List Region} {incr : Int} {result : Nat}
      (grown : Grown arena machine regions) (isInt : IsInt incr) (noWrap : machine.NoWrap incr)
      (done : memSbrk incr machine = some (result, after)) :
      Grown arena after
        (if result = sbrkFailed then regions else regions ++ [⟨result, incr.toNat⟩])

/-- The state of the memory system: the arena stays where it was placed, and the
regions fill the heap. -/
structure Machine.Filled (machine : Machine Statics) (arena : Nat) (regions : List Region) :
    Prop where
  start : machine.memStartBrk = arena
  max : machine.memMaxAddr = arena + maxHeap
  addressable : arena + maxHeap < 2 ^ 32
  inside : machine.BreakInside
  contiguous : Region.Contiguous arena regions machine.memBrk

variable {arena : Nat} {regions : List Region} {result : Nat}

theorem memInit_inside (arena : Nat) (bytes : Memory) (initial : Statics)
    (placed : arena + maxHeap ≤ 2 ^ 32) :
    (memInit arena bytes initial).BreakInside ↔ arena + maxHeap < 2 ^ 32 := by
  have heap : maxHeap < 2 ^ 32 := by decide
  have max : (memInit arena bytes initial).memMaxAddr = wrap (arena + maxHeap) := rfl
  constructor
  · intro inside
    have bounded := inside.bounded
    rw [max, wrap] at bounded
    by_contra reaches
    have top : arena + maxHeap = 2 ^ 32 := le_antisymm placed (not_lt.mp reaches)
    rw [top, Nat.mod_self] at bounded
    have begins : (memInit arena bytes initial).memBrk = arena := rfl
    omega
  · intro below
    have bounded : arena ≤ (memInit arena bytes initial).memMaxAddr := by
      rw [max, wrap_of_lt below]
      exact Nat.le_add_right _ _
    exact ⟨le_refl _, bounded⟩

theorem Machine.Grows.filled (grows : machine.Grows incr result after)
    (filled : machine.Filled arena regions) (positive : result ≠ sbrkFailed → 0 ≤ incr) :
    after.Filled arena
      (if result = sbrkFailed then regions else regions ++ [⟨result, incr.toNat⟩]) := by
  have contiguous : Region.Contiguous arena
      (if result = sbrkFailed then regions else regions ++ [⟨result, incr.toNat⟩])
      after.memBrk := by
    by_cases failed : result = sbrkFailed
    · rw [if_pos failed, grows.refused failed]
      exact filled.contiguous
    · have granted := grows.granted failed
      have ends : (⟨result, incr.toNat⟩ : Region).limit = after.memBrk := by
        have nonneg := positive failed
        have moved := granted.2.1
        change result + incr.toNat = after.memBrk
        omega
      rw [if_neg failed, ← ends]
      exact Region.contiguous_append filled.contiguous granted.1
  exact ⟨grows.start.trans filled.start, grows.max.trans filled.max, filled.addressable,
    grows.inside, contiguous⟩

theorem granted_nonneg (done : memSbrk incr machine = some (result, after))
    (granted : result ≠ sbrkFailed) : 0 ≤ incr := by
  by_contra negative
  have refused : Ensures (memSbrk incr) machine fun value _ => value = sbrkFailed := by
    rw [memSbrk_refused (.inl (not_le.mp negative))]
  exact granted (refused.of_eq done)

theorem Grown.filled (grown : Grown arena machine regions) : machine.Filled arena regions := by
  induction grown with
  | init bytes initial below =>
      exact ⟨rfl, wrap_of_lt below, below, (memInit_inside arena bytes initial below.le).mpr below,
        rfl⟩
  | reset grown done ih =>
      cases done
      exact ⟨ih.start, ih.max, ih.addressable, ⟨le_refl _, ih.inside.started.trans ih.inside.bounded⟩,
        ih.start.symm⟩
  | sbrk grown isInt noWrap done ih =>
      have grows := (ensures_memSbrk ih.inside noWrap).of_eq done
      exact grows.filled ih (granted_nonneg done)

/-- The break stays in the arena and the regions tile the heap, as long as no sum
wraps. The first sum that wraps breaks the promise. -/
theorem break_stays_inside (arena : Nat) (placed : arena + maxHeap ≤ 2 ^ 32) :
    (∀ (bytes : Memory) (initial : Statics),
      (memInit arena bytes initial).BreakInside ↔ arena + maxHeap < 2 ^ 32) ∧
    ∀ (machine : Machine Statics) (regions : List Region), Grown arena machine regions →
      machine.memStartBrk = arena ∧ machine.memMaxAddr = arena + maxHeap ∧
        machine.BreakInside ∧ Region.Contiguous arena regions machine.memBrk ∧
        (regions.Pairwise fun earlier later => earlier.limit ≤ later.start) ∧
        (∀ region ∈ regions, arena ≤ region.start ∧ region.limit ≤ arena + maxHeap) ∧
        ∀ incr, IsInt incr →
          (Ensures (memSbrk incr) machine (machine.Grows incr) ↔ machine.NoWrap incr) := by
  refine ⟨fun bytes initial => memInit_inside arena bytes initial placed, ?_⟩
  intro machine regions grown
  have filled := grown.filled
  have bounded : machine.memBrk ≤ arena + maxHeap := filled.max ▸ filled.inside.bounded
  have word : machine.memMaxAddr < 2 ^ 32 := filled.max ▸ filled.addressable
  refine ⟨filled.start, filled.max, filled.inside, filled.contiguous, filled.contiguous.disjoint,
    ?_, fun incr isInt => ensures_memSbrk_iff filled.inside isInt word⟩
  intro region member
  have bounds := filled.contiguous.bounds.2 region member
  exact ⟨bounds.1, bounds.2.trans bounded⟩

theorem break_stays_inside_first_page :
    ∃ machine : Machine Unit, Grown 4096 machine [⟨4096, 8⟩] ∧
      (Ensures (memSbrk 16) machine (machine.Grows 16) ↔ machine.NoWrap 16) := by
  have below : 4096 + maxHeap < 2 ^ 32 := by decide
  have first := Grown.sbrk (.init (fun _ => 0) () below) (show IsInt 8 by decide) (by decide) rfl
  exact ⟨_, first, ((break_stays_inside 4096 (by decide)).2 _ _ first).2.2.2.2.2.2 16 (by decide)⟩

/-- An arena near the end of the address space. -/
def highArena : Machine Unit := memInit 4026531840 (fun _ => 0) ()

/-- The sum wraps to an address below the arena and is accepted. -/
theorem break_leaves_arena :
    Grown 4026531840 highArena [] ∧
      (Ensures (memSbrk 2147483647) highArena fun result after =>
        result = 4026531840 ∧ after.memBrk = 1879048191 ∧ ¬after.BreakInside) ∧
      ¬Ensures (memSbrk 2147483647) highArena (highArena.Grows 2147483647) := by
  have below : 4026531840 + maxHeap < 2 ^ 32 := by decide
  have grown : Grown 4026531840 highArena [] := .init _ _ below
  have next : highArena.nextBrk 2147483647 = 1879048191 := by decide
  refine ⟨grown, ?_, ?_⟩
  · rw [memSbrk_granted (by decide) (by decide), next]
    exact ⟨rfl, rfl, fun inside => absurd inside.started (by decide)⟩
  · rw [ensures_memSbrk_iff grown.filled.inside (by decide) (by decide)]
    decide

end MallocLab
