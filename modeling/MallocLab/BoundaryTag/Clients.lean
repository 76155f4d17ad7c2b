import MallocLab.BoundaryTag.Refinement
import MallocLab.Client

/-! # Runs of clients refine the abstract allocator

Along every run the machine represents a heap whose live blocks are exactly
what the client holds, and every permitted request has an outcome.
-/

namespace MallocLab

open Program Blocks

namespace Procedures

variable {Statics Index : Type} (package : Procedures Statics Index)
  (interface : Interface Statics)

/-- A client holds exactly the live blocks of the heap its machine represents. -/
structure Serves (client : Client Statics) (layout : Layout Index) : Prop where
  holds : package.Holds client.machine layout
  live : client.live.Perm (liveSpots (package.base client.machine) layout.blocks)

/-- What a request does to the abstract heap. -/
def next (base : Nat) (layout : Layout Index) : Request → Option Nat × Layout Index
  | .malloc size => layout.malloc package.policy base package.room size
  | .free ptr => (none, layout.release package.policy base ptr)
  | .realloc ptr size => layout.realloc package.policy base package.room ptr size

/-- The functions of an interface that are those of the package. -/
structure Exposes (empty : Index) : Prop where
  mmMalloc : interface.mmMalloc = package.mmMalloc
  mmFree : interface.mmFree = package.mmFree
  findFit : interface.findFit = package.findFit
  blockSize : interface.blockSize = package.adjust
  mmInit : ∀ {machine : Machine Statics}, machine.Empty →
    Ensures interface.mmInit machine fun value other => value = 0 ∧
      package.Holds other (Layout.initial package.policy (package.base other) empty) ∧
      other.memStartBrk = machine.memStartBrk

/-- A request was performed as the abstract allocator performs it, and no byte
that another block of the client asked for has changed. -/
structure Performed (client : Client Statics) (layout : Layout Index) (request : Request)
    (result : Nat) (after : Client Statics) : Prop where
  result : result =
    (package.next (package.base client.machine) layout request).1.getD null
  serves : package.Serves after
    (package.next (package.base client.machine) layout request).2
  memStartBrk : after.machine.memStartBrk = client.machine.memStartBrk
  others : ∀ spot ∈ client.live, request.target? ≠ some spot.1 →
    SameRange client.machine after.machine spot.1 spot.2

variable {package} {interface} {empty : Index}
variable {client : Client Statics} {layout : Layout Index} {size ptr old : Nat}

theorem base_of_memStartBrk {machine other : Machine Statics}
    (same : other.memStartBrk = machine.memStartBrk) :
    package.base other = package.base machine := by
  simp [base, Machine.first, Machine.origin, same]

/-- Clients and packages agree on which requests are safe. -/
theorem noWrap_iff (correct : package.Correct)
    (exposes : package.Exposes interface empty) (serves : package.Serves client layout)
    (small : size < 2 ^ 31) :
    interface.NoWrap client.machine size ↔ package.NoWrap client.machine layout size := by
  by_cases zero : size = 0
  · simp [Interface.NoWrap, NoWrap, zero]
  have adjusted := correct.adjusts (Nat.pos_of_ne_zero zero) small
  rcases correct.finds (roundUp size) serves.holds with ⟨found, machine, search, same, unchanged⟩
  subst unchanged
  constructor
  · intro noWrap nonzero none below
    rw [same, none, Option.getD_none] at search
    have bounded := noWrap nonzero client.machine
    rw [exposes.findFit, exposes.blockSize, adjusted, extension_eq] at bounded
    exact bounded search below
  · intro noWrap nonzero after failed
    rw [exposes.findFit, exposes.blockSize, adjusted, search] at failed
    cases failed
    rw [exposes.blockSize, adjusted, extension_eq]
    refine noWrap nonzero ?_
    cases outcome : package.policy.find layout.index (roundUp size) with
    | none => rfl
    | some address =>
        rcases serves.holds.wellFormed.find_some correct.lawful outcome with
          ⟨front, block, back, _, position, _⟩
        rw [outcome, Option.getD_some, position] at same
        unfold null at same
        omega

theorem filter_perm {live rest : List (Nat × Nat)} {spot : Nat × Nat}
    (shape : live.Perm (spot :: rest)) (nodup : (live.map Prod.fst).Nodup) :
    (live.filter fun other => other.1 ≠ spot.1).Perm rest := by
  have distinct := (shape.map Prod.fst).nodup nodup
  simp only [List.map_cons, List.nodup_cons, List.mem_map, not_exists, not_and] at distinct
  refine (shape.filter _).trans ?_
  have kept : rest.filter (fun other => other.1 ≠ spot.1) = rest := by
    rw [List.filter_eq_self]
    intro other member
    exact decide_eq_true (distinct.1 other member)
  rw [List.filter_cons_of_neg (by simp), kept]

theorem Serves.nodup (serves : package.Serves client layout) :
    (client.live.map Prod.fst).Nodup :=
  (serves.live.map Prod.fst).symm.nodup (liveSpots_nodup _ _)

theorem perform_malloc (correct : package.Correct) (exposes : package.Exposes interface empty)
    (serves : package.Serves client layout)
    (permitted : interface.Permitted client (.malloc size)) :
    Ensures (interface.perform (.malloc size)) client
      (package.Performed client layout (.malloc size)) := by
  have noWrap := (noWrap_iff correct exposes serves permitted.1).mp permitted.2
  apply ensures_malloc
  rw [exposes.mmMalloc]
  refine (correct.mmMalloc serves.holds permitted.1 noWrap).mono fun value machine => ?_
  rintro ⟨rfl, holds, preserves⟩
  have base : package.base machine = package.base client.machine :=
    base_of_memStartBrk preserves.memStartBrk
  refine ⟨rfl, ⟨holds, ?_⟩, preserves.memStartBrk, ?_⟩
  · cases outcome : package.malloc client.machine layout size with
    | mk result after =>
        have same : package.next (package.base client.machine) layout (.malloc size) =
            (result, after) := outcome
        simp only [same, base]
        cases result with
        | none =>
            rw [Layout.malloc_none outcome, Option.getD_none, if_pos rfl]
            exact serves.live
        | some served =>
            have added := (Layout.malloc_served correct.lawful serves.holds.wellFormed
              outcome).2.1
            rcases mem_liveSpots.mp (added.mem_iff.mpr List.mem_cons_self) with
              ⟨block, spot, _⟩
            have bounds := spot_bounds spot
            rw [Option.getD_some, if_neg (by unfold null; omega)]
            exact (serves.live.cons _).trans added.symm
  · intro spot member _
    exact preserves.sameRange serves.holds.sentinel (serves.live.mem_iff.mp member)

theorem perform_free (correct : package.Correct) (exposes : package.Exposes interface empty)
    (serves : package.Serves client layout)
    (permitted : interface.Permitted client (.free ptr)) :
    Ensures (interface.perform (.free ptr)) client
      (package.Performed client layout (.free ptr)) := by
  rcases List.mem_map.mp permitted with ⟨⟨address, old⟩, member, rfl⟩
  have live := serves.live.mem_iff.mp member
  have released := (Layout.release_live correct.lawful serves.holds.wellFormed live).2
  apply ensures_free
  rw [exposes.mmFree]
  refine (correct.mmFree serves.holds live).mono fun _ machine => ?_
  rintro ⟨holds, keeps⟩
  have base : package.base machine = package.base client.machine :=
    base_of_memStartBrk keeps.arena.memStartBrk
  refine ⟨rfl, ⟨holds, ?_⟩, keeps.arena.memStartBrk, ?_⟩
  · simp only [base]
    exact filter_perm (serves.live.trans released) serves.nodup
  · intro spot inside different
    refine keeps.preserves.sameRange serves.holds.sentinel ?_
    rcases List.mem_cons.mp (released.mem_iff.mp (serves.live.mem_iff.mp inside)) with
      same | remains
    · exact absurd (by rw [same]; rfl) different
    · exact remains

theorem perform_realloc (correct : package.Correct)
    (exposes : package.Exposes interface empty)
    (mmRealloc : interface.mmRealloc = package.mmRealloc)
    (serves : package.Serves client layout)
    (permitted : interface.Permitted client (.realloc ptr size)) :
    Ensures (interface.perform (.realloc ptr size)) client
      (package.Performed client layout (.realloc ptr size)) := by
  rcases permitted with ⟨isLive, small, safe⟩
  rcases List.mem_map.mp isLive with ⟨⟨address, old⟩, member, rfl⟩
  have live := serves.live.mem_iff.mp member
  have noWrap := (noWrap_iff correct exposes serves small).mp safe
  apply ensures_realloc
  rw [mmRealloc]
  refine (correct.mmRealloc serves.holds small noWrap live).mono fun value machine => ?_
  rintro ⟨rfl, holds, moved⟩
  have base : package.base machine = package.base client.machine :=
    base_of_memStartBrk moved.memStartBrk
  refine ⟨rfl, ⟨holds, ?_⟩, moved.memStartBrk, ?_⟩
  · cases outcome : layout.malloc package.policy (package.base client.machine) package.room
        size with
    | mk result after =>
        cases result with
        | none =>
            have same : package.next (package.base client.machine) layout
                (.realloc address size) = (none, after) := Layout.realloc_of_none outcome
            have value : package.realloc client.machine layout address size = (none, after) :=
              Layout.realloc_of_none outcome
            simp only [same, value, base, Option.getD_none, if_true]
            rw [Layout.malloc_none outcome]
            exact serves.live
        | some served =>
            have same : package.next (package.base client.machine) layout
                (.realloc address size) =
                (some served, after.release package.policy (package.base client.machine)
                  address) := Layout.realloc_of_some outcome
            have value : package.realloc client.machine layout address size =
                (some served, after.release package.policy (package.base client.machine)
                  address) := Layout.realloc_of_some outcome
            have grown := Layout.malloc_served correct.lawful serves.holds.wellFormed outcome
            rcases mem_liveSpots.mp (grown.2.1.mem_iff.mpr List.mem_cons_self) with
              ⟨block, spot, _⟩
            have bounds := spot_bounds spot
            have stillLive := grown.2.1.mem_iff.mpr (List.mem_cons_of_mem _ live)
            have released := (Layout.release_live correct.lawful grown.1 stillLive).2
            have added := (serves.live.cons (served, size)).trans grown.2.1.symm
            have nodup : (((served, size) :: client.live).map Prod.fst).Nodup :=
              (added.map Prod.fst).symm.nodup (liveSpots_nodup _ _)
            have different : served ≠ address := by
              intro equal
              rw [List.map_cons, List.nodup_cons] at nodup
              exact nodup.1 (equal ▸ isLive)
            have result := filter_perm (added.trans released) nodup
            rw [List.filter_cons_of_pos (by simpa using different)] at result
            have positive : served ≠ null := by
              unfold null
              omega
            simp only [same, value, base, Option.getD_some, if_neg positive]
            exact result
  · intro spot inside different
    exact moved.others spot (serves.live.mem_iff.mp inside) fun same =>
      different (congrArg some same.symm)

/-- Every permitted request of a served client has an outcome, the one of the
abstract allocator. -/
theorem perform_request (correct : package.Correct) (exposes : package.Exposes interface empty)
    (serves : package.Serves client layout) {request : Request}
    (mmRealloc : request.isRealloc = true → interface.mmRealloc = package.mmRealloc)
    (permitted : interface.Permitted client request) :
    Ensures (interface.perform request) client (package.Performed client layout request) := by
  cases request with
  | malloc size => exact perform_malloc correct exposes serves permitted
  | free ptr => exact perform_free correct exposes serves permitted
  | realloc ptr size =>
      exact perform_realloc correct exposes (mmRealloc rfl) serves permitted

theorem Serves.write (serves : package.Serves client layout) {address : Nat} (value : UInt8)
    (writable : client.Writable address) :
    package.Serves (client.write address value) layout := by
  refine ⟨?_, serves.live⟩
  have same : SameArena client.machine (client.machine.setByte address value) := ⟨rfl, rfl, rfl⟩
  refine Holds.write serves.holds same rfl fun byte notLive => ?_
  rcases writable with ⟨spot, member, low, high⟩
  refine if_neg fun equal => notLive ?_
  subst equal
  obtain ⟨offset, rfl⟩ := Nat.exists_eq_add_of_le low
  exact live_range (serves.live.mem_iff.mp member) (by omega)

/-- Every client a run reaches is served. -/
theorem exists_serves (correct : package.Correct) (exposes : package.Exposes interface empty)
    {allowed : Request → Prop}
    (mmRealloc : ∀ request, allowed request → request.isRealloc = true →
      interface.mmRealloc = package.mmRealloc)
    (reachable : Reachable interface allowed client) :
    ∃ layout, package.Serves client layout := by
  refine Reachable.invariant (fun client => ∃ layout, package.Serves client layout)
    ?_ ?_ ?_ reachable
  · intro machine after arena returned
    have initialised := (exposes.mmInit arena).of_eq returned
    exact ⟨_, initialised.2.1, List.Perm.refl []⟩
  · rintro client after request result ⟨layout, serves⟩ isAllowed permitted performed
    have outcome := (perform_request correct exposes serves (mmRealloc request isAllowed)
      permitted).of_eq performed
    exact ⟨_, outcome.serves⟩
  · rintro client address value ⟨layout, serves⟩ writable
    exact ⟨layout, serves.write value writable⟩

/-- A request that a listed block can serve needs no new space, so a client
may make it. -/
theorem perform_found (correct : package.Correct) (exposes : package.Exposes interface empty)
    (serves : package.Serves client layout) {address : Nat} (nonzero : size ≠ 0)
    (small : size < 2 ^ 31)
    (found : package.policy.find layout.index (roundUp size) = some address) :
    ∃ after, interface.Permitted client (.malloc size) ∧
      interface.perform (.malloc size) client = some (address, after) ∧
      package.Serves after
        (layout.serveAt package.policy (package.base client.machine) address size) ∧
      after.live = (address, size) :: client.live ∧
      after.machine.memStartBrk = client.machine.memStartBrk := by
  have positive : address ≠ null := by
    rcases serves.holds.wellFormed.find_some correct.lawful found with
      ⟨front, block, back, _, rfl, _⟩
    unfold null
    omega
  have permitted : interface.Permitted client (.malloc size) := by
    refine ⟨small, (noWrap_iff correct exposes serves small).mpr fun _ failed => ?_⟩
    rw [found] at failed
    cases failed
  rcases perform_malloc correct exposes serves permitted with ⟨result, after, outcome, performed⟩
  have served : package.next (package.base client.machine) layout (.malloc size) =
      (some address, layout.serveAt package.policy (package.base client.machine) address
        size) := by
    simp only [Procedures.next, Layout.malloc, if_neg nonzero, found]
  have value := performed.result
  have next := performed.serves
  rw [served] at value next
  change result = address at value
  subst value
  refine ⟨after, permitted, outcome, next, ?_, performed.memStartBrk⟩
  rw [perform_live outcome]
  exact if_neg positive

theorem run_malloc (correct : package.Correct) (exposes : package.Exposes interface empty)
    {arena : Machine Statics} {requests : List Request} {log : List (Nat × Nat)}
    (run : Run interface arena requests log client) (serves : package.Serves client layout)
    {address : Nat} (nonzero : size ≠ 0) (small : size < 2 ^ 31)
    (found : package.policy.find layout.index (roundUp size) = some address) :
    ∃ after, Run interface arena (.malloc size :: requests)
        ((address, after.machine.memBrk) :: log) after ∧
      package.Serves after
        (layout.serveAt package.policy (package.base client.machine) address size) ∧
      after.live = (address, size) :: client.live ∧
      after.machine.memStartBrk = client.machine.memStartBrk := by
  rcases perform_found correct exposes serves nonzero small found with
    ⟨after, permitted, performed, next, live, start⟩
  exact ⟨after, .request run .refl permitted performed, next, live, start⟩

end Procedures

end MallocLab
