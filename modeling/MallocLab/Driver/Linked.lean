import MallocLab.BoundaryTag.Growth
import MallocLab.Driver.Allocator

/-! # The driver linked with a boundary-tag package

The functions of a package as the driver calls them, and the proof that they
follow the abstract allocator whose heaps are sequences of blocks.
-/

namespace MallocLab.Driver

open Program Blocks

variable {Statics Value Index : Type} {machine after : Machine Statics}

/-! ## Linking -/

instance (machine after : Machine Statics) : Decidable (Extends machine after) :=
  decidable_of_iff
    (after.memStartBrk = machine.memStartBrk ∧ after.memMaxAddr = machine.memMaxAddr ∧
      machine.memBrk ≤ after.memBrk ∧
      (machine.memBrk ≤ machine.memMaxAddr → after.memBrk ≤ machine.memMaxAddr))
    ⟨fun ⟨start, max, grows, bounded⟩ => ⟨start, max, grows, bounded⟩,
      fun ⟨start, max, grows, bounded⟩ => ⟨start, max, grows, bounded⟩⟩

/-- A call without an outcome where the break wraps around the address space,
which is the only way for `mem_sbrk` to move it down. -/
def watched (program : Program (Machine Statics) Value) : Program (Machine Statics) Value :=
  fun machine => (program machine).filter fun outcome => Extends machine outcome.2

theorem ensures_watched {program : Program (Machine Statics) Value}
    {goal : Value → Machine Statics → Prop} :
    Ensures (watched program) machine goal ↔
      Ensures program machine fun value after => Extends machine after ∧ goal value after := by
  simp only [Ensures, watched, Option.filter_eq_some_iff, decide_eq_true_eq, and_assoc]

theorem watched_extends (program : Program (Machine Statics) Value) :
    OnlySbrk (watched program) := by
  intro machine after value outcome
  simp only [watched, Option.filter_eq_some_iff, decide_eq_true_eq] at outcome
  exact outcome.2

/-- The package the driver is linked with. -/
def linked (interface : Interface Statics) : Package Statics where
  mmInit := watched interface.mmInit
  mmMalloc size := watched (interface.mmMalloc size)
  mmFree ptr := watched (interface.mmFree ptr)
  mmRealloc ptr size := watched (interface.mmRealloc ptr size)
  init_extends := watched_extends _
  malloc_extends _ := watched_extends _
  free_extends _ := watched_extends _
  realloc_extends _ _ := watched_extends _

/-- What a request of a client ensures its function ensures. -/
theorem ensures_answer {interface : Interface Statics} {live : List (Nat × Nat)}
    {request : Request} {goal : Nat → Client Statics → Prop}
    (performed : Ensures (interface.perform request) ⟨machine, live⟩ goal)
    (growth : ∀ result after, goal result after → Extends machine after.machine) :
    Ensures ((linked interface).answer request) machine fun result after =>
      goal result ⟨after, request.liveAfter live result⟩ := by
  rcases performed with ⟨result, after, outcome, holds⟩
  have grown := growth result after holds
  cases request <;>
    rcases Option.map_eq_some_iff.mp outcome with ⟨⟨value, other⟩, returned, same⟩ <;>
    cases same
  · exact ensures_watched.mpr ⟨_, _, returned, grown, holds⟩
  · simp only [Package.answer, linked, ensures_bind, ensures_pure]
    exact ensures_watched.mpr ⟨_, _, returned, grown, holds⟩
  · exact ensures_watched.mpr ⟨_, _, returned, grown, holds⟩

theorem watched_outcome {program : Program (Machine Statics) Value} {value : Value}
    (outcome : watched program machine = some (value, after)) :
    program machine = some (value, after) :=
  (Option.filter_eq_some_iff.mp outcome).1

/-! ## What the abstract allocator answers -/

theorem realloc_fst {policy : Policy Index} {origin room address size : Nat}
    {layout : Layout Index} :
    (layout.realloc policy origin room address size).1 =
      (layout.malloc policy origin room size).1 := by
  cases outcome : layout.malloc policy origin room size with
  | mk result other =>
      cases result with
      | none => rw [Layout.realloc_of_none outcome]
      | some served => rw [Layout.realloc_of_some outcome]

theorem eq_some_of_getD {answer : Option Nat} {p : Nat} (same : answer.getD null = p)
    (nonzero : p ≠ null) : answer = some p := by
  cases answer with
  | none => exact absurd same.symm nonzero
  | some q => exact congrArg some same

theorem malloc_answer {policy : Policy Index} (lawful : policy.Lawful)
    {origin room size p : Nat} {layout : Layout Index}
    (wellFormed : layout.WellFormed policy origin)
    (same : p = (layout.malloc policy origin room size).1.getD null)
    (answered : (layout.malloc policy origin room size).1 ≠ none) : p ≠ null ∧ 0 < size := by
  cases outcome : layout.malloc policy origin room size with
  | mk result other =>
      rw [outcome] at same answered
      rcases Option.ne_none_iff_exists'.mp answered with ⟨q, rfl⟩
      rw [Option.getD_some] at same
      subst same
      have served := (Layout.malloc_served lawful wellFormed outcome).2.1
      rcases mem_liveSpots.mp (served.mem_iff.mpr List.mem_cons_self) with ⟨block, spot, _⟩
      have bounds := spot_bounds spot
      refine ⟨by unfold null; omega, Nat.pos_of_ne_zero fun zero => ?_⟩
      rw [Layout.malloc, if_pos zero] at outcome
      cases outcome

/-! ## The heap only becomes longer -/

section Tiling

variable {package : Procedures Statics Index} {layout next : Layout Index}
  {live : List (Nat × Nat)} {p size : Nat}

/-- Between two represented heaps the break was moved by `mem_sbrk`. -/
theorem holds_extends (holds : package.Holds machine layout) (later : package.Holds after next)
    (start : after.memStartBrk = machine.memStartBrk)
    (longer : total layout.blocks ≤ total next.blocks) : Extends machine after where
  memStartBrk := start
  memMaxAddr := by
    rw [later.threaded.tiled.arena, start, holds.threaded.tiled.arena]
  grows := by
    rw [later.extent, holds.extent, start]
    omega
  bounded _ := by
    have inside := later.threaded.tiled.brkInArena
    rwa [later.threaded.tiled.arena, start, ← holds.threaded.tiled.arena] at inside

/-- A live block is what the driver takes for proper. -/
theorem proper_of_serves (serves : package.Serves ⟨machine, (p, size) :: live⟩ layout)
    (positive : 0 < size) : Proper machine live p size := by
  have distinct := serves.nodup
  have start : machine.memStartBrk % 8 = 0 := serves.holds.threaded.tiled.startAligned
  have extent : machine.memBrk =
    machine.memStartBrk + 8 + package.prologue.size + total layout.blocks := serves.holds.extent
  have inside : ∀ {q bytes : Nat}, (q, bytes) ∈ (p, size) :: live →
      (q, bytes) ∈ liveSpots (package.base machine) layout.blocks :=
    fun member => serves.live.mem_iff.mp member
  rcases mem_liveSpots.mp (inside List.mem_cons_self) with ⟨block, spot, request⟩
  have bounds := spot_bounds spot
  have fits := (Block.size_ge_of_live request).2
  have base : package.base machine = machine.memStartBrk + 4 + package.prologue.size := rfl
  have prologue := package.prologue.aligned
  refine ⟨by unfold null; omega, spot_aligned (by omega) spot, ⟨positive, ?_, ?_⟩, ?_⟩
  · change machine.memStartBrk ≤ p
    omega
  · change p + size ≤ machine.memBrk
    omega
  · rintro ⟨q, bytes⟩ member ⟨address, left, right⟩
    rcases mem_liveSpots.mp (inside (List.mem_cons_of_mem _ member)) with
      ⟨other, otherSpot, otherRequest⟩
    have otherFits := (Block.size_ge_of_live otherRequest).2
    have otherBounds := spot_bounds otherSpot
    rw [List.map_cons, List.nodup_cons] at distinct
    have different : p ≠ q := fun same =>
      distinct.1 (List.mem_map.mpr ⟨_, member, same.symm⟩)
    have apart := spots_apart spot otherSpot different
    simp only [payloadRange, Range.Has] at left right
    omega

end Tiling

/-! ## The abstract allocator of a package -/

/-- The allocator on sequences of blocks, in an arena that begins at an address. -/
def arenaAllocator (package : Procedures Statics Index) (start : Nat) (empty : Index) :
    Allocator (Layout Index) where
  initial := Layout.initial package.policy (start + 4 + package.prologue.size) empty
  next := package.next (start + 4 + package.prologue.size)

/-- A client is served in the arena that begins at an address. -/
def ServesAt (package : Procedures Statics Index) (start : Nat) (machine : Machine Statics)
    (live : List (Nat × Nat)) (layout : Layout Index) : Prop :=
  machine.memStartBrk = start ∧ package.Serves ⟨machine, live⟩ layout

/-- A request that extends no heap of the arena beyond the address space. -/
def Addressable (start : Nat) : Request → Prop
  | .free _ => True
  | .malloc size | .realloc _ size => size < 2 ^ 31 ∧ start + maxHeap + extension size < 2 ^ 32

/-- An addressable request for which the package has the shared procedures. -/
def Supported (package : Procedures Statics Index) (interface : Interface Statics) (start : Nat)
    (request : Request) : Prop :=
  Addressable start request ∧ (request.isRealloc = true → interface.mmRealloc = package.mmRealloc)

section Instance

variable {package : Procedures Statics Index} {interface : Interface Statics} {empty : Index}
  {layout : Layout Index} {live : List (Nat × Nat)} {request : Request} {start : Nat}
  (correct : package.Correct) (exposes : package.Exposes interface empty)

include correct exposes

theorem ServesAt.permitted (serves : ServesAt package start machine live layout)
    (addressable : Addressable start request) (held : HeldBy live request) :
    interface.Permitted ⟨machine, live⟩ request := by
  rcases serves with ⟨rfl, serves⟩
  have safe : ∀ {size : Nat}, size < 2 ^ 31 →
      machine.memStartBrk + maxHeap + extension size < 2 ^ 32 →
      interface.NoWrap machine size := by
    intro size small room
    refine (Procedures.noWrap_iff correct exposes serves small).mpr fun _ _ _ => ?_
    have inside := serves.holds.threaded.tiled.brkInArena
    rw [serves.holds.threaded.tiled.arena] at inside
    exact (Nat.add_le_add_right inside _).trans_lt room
  cases request with
  | malloc size => exact ⟨addressable.1, safe addressable.1 addressable.2⟩
  | free ptr => exact held ptr rfl
  | realloc ptr size => exact ⟨held ptr rfl, addressable.1, safe addressable.1 addressable.2⟩

/-- A request to the linked package is performed as the abstract allocator
performs it. -/
theorem ServesAt.performed (serves : ServesAt package start machine live layout)
    (supported : Supported package interface start request) (held : HeldBy live request) :
    Ensures ((linked interface).answer request) machine fun result after =>
      package.Performed ⟨machine, live⟩ layout request result
        ⟨after, request.liveAfter live result⟩ := by
  have permitted := serves.permitted correct exposes supported.1 held
  refine ensures_answer (Procedures.perform_request correct exposes serves.2
    supported.2 permitted) fun result after performed => ?_
  exact holds_extends serves.2.holds performed.serves.holds performed.memStartBrk
    (serves.2.next_total correct held).1

theorem ServesAt.returns (serves : ServesAt package start machine live layout)
    (supported : Supported package interface start request) (held : HeldBy live request) :
    Ensures ((linked interface).answer request) machine fun result after =>
      result = ((arenaAllocator package start empty).next layout request).1.getD null ∧
        ServesAt package start after (request.liveAfter live result)
          ((arenaAllocator package start empty).next layout request).2 := by
  refine (serves.performed correct exposes supported held).mono
    fun result after performed => ?_
  rcases serves with ⟨rfl, serves⟩
  exact ⟨performed.result, performed.memStartBrk, performed.serves⟩

/-- A request that was answered with a block was fulfilled. -/
theorem ServesAt.fulfils (serves : ServesAt package start machine live layout)
    (supported : Supported package interface start request) (held : HeldBy live request)
    (answered : ((arenaAllocator package start empty).next layout request).1 = none →
      ∃ ptr, request = .free ptr) : Fulfils (linked interface) machine live request := by
  have performed := serves.performed correct exposes supported held
  have permitted := serves.permitted correct exposes supported.1 held
  rcases serves with ⟨rfl, serves⟩
  cases request with
  | malloc size =>
      refine performed.mono fun result after performed => ?_
      have served : result ≠ null ∧ 0 < size :=
        malloc_answer correct.lawful serves.holds.wellFormed performed.result
          fun refused => by rcases answered refused with ⟨_, same⟩; cases same
      have later := performed.serves
      rw [Request.liveAfter, if_neg served.1] at later
      exact ⟨proper_of_serves later served.2,
        fun spot member => performed.others spot member (Option.some_ne_none _).symm⟩
  | free ptr =>
      simp only [Package.answer, ensures_bind, ensures_pure] at performed
      refine performed.mono fun _ after performed spot member => ?_
      rcases List.mem_filter.mp member with ⟨inside, different⟩
      exact performed.others spot inside fun same =>
        of_decide_eq_true different (Option.some.inj same).symm
  | realloc ptr size =>
      rcases performed with ⟨result, after, outcome, performed⟩
      have served : result ≠ null ∧ 0 < size :=
        malloc_answer correct.lawful serves.holds.wellFormed
          (performed.result.trans (congrArg (Option.getD · null) realloc_fst))
          fun refused => by rcases answered (realloc_fst.trans refused) with ⟨_, same⟩; cases same
      have later := performed.serves
      rw [Request.liveAfter, if_neg served.1] at later
      refine ⟨result, after, outcome, proper_of_serves later served.2, ?_, ?_⟩
      · intro spot member
        rcases List.mem_filter.mp member with ⟨inside, different⟩
        exact performed.others spot inside fun same =>
          of_decide_eq_true different (Option.some.inj same).symm
      · intro old member
        have noWrap := (Procedures.noWrap_iff correct exposes serves permitted.2.1).mp permitted.2.2
        have copied := correct.mmRealloc serves.holds permitted.2.1 noWrap
          (serves.live.mem_iff.mp member)
        rw [← supported.2 rfl] at copied
        rcases copied.of_eq (watched_outcome outcome) with ⟨same, _, moved⟩
        refine moved.contents result ?_
        exact eq_some_of_getD same.symm served.1

omit correct exposes in
/-- Filling a live block leaves the represented heap as it is. -/
theorem ServesAt.fill (serves : ServesAt package start machine live layout) {p size : Nat}
    (value : UInt8) (member : (p, size) ∈ live) :
    ServesAt package start (machine.fill p value size) live layout := by
  rcases serves with ⟨rfl, serves⟩
  refine ⟨rfl, ?_, serves.live⟩
  have same : SameArena machine (machine.fill p value size) := ⟨rfl, rfl, rfl⟩
  refine Procedures.Holds.write serves.holds same rfl fun byte notLive => ?_
  refine if_neg fun inside => notLive ?_
  obtain ⟨offset, rfl⟩ := Nat.exists_eq_add_of_le inside.1
  exact live_range (serves.live.mem_iff.mp member) (by omega)

/-- The package as the driver links it follows its abstract allocator. -/
theorem linked_follows (start : Nat) :
    Follows (linked interface) (arenaAllocator package start empty)
      (fun machine => machine.Empty ∧ machine.memStartBrk = start) (Supported package interface start)
      (ServesAt package start) where
  init := by
    rintro machine ⟨isEmpty, rfl⟩
    refine ensures_watched.mpr ((exposes.mmInit isEmpty).mono ?_)
    rintro value after ⟨zero, holds, same⟩
    have extent := holds.extent
    refine ⟨⟨same, ?_, ?_, fun _ => ?_⟩, zero, same, ?_, ?_⟩
    · rw [holds.threaded.tiled.arena, same, isEmpty.arena]
    · rw [isEmpty.noneUsed]
      omega
    · rw [isEmpty.arena, ← same, ← holds.threaded.tiled.arena]
      exact holds.threaded.tiled.brkInArena
    · have base : package.base after = machine.memStartBrk + 4 + package.prologue.size := by
        rw [← same]
        rfl
      rw [base] at holds
      exact holds
    · exact .refl []
  returns := fun serves supported held => serves.returns correct exposes supported held
  fulfils := fun serves supported held answered =>
    serves.fulfils correct exposes supported held answered
  fill := fun value serves member => serves.fill value member

end Instance

end MallocLab.Driver
