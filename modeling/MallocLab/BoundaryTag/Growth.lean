import MallocLab.BoundaryTag.Requests

/-! # How long the heap becomes

A heap never becomes shorter, and a request extends it by what the request needs
at most. So the sum of all extensions bounds the heap of a whole run, and as long
as the arena has room for the sum nothing is refused.
-/

namespace MallocLab

open Program Blocks

/-- The bytes by which a request may extend the heap. -/
def Request.demand : Request → Nat
  | .malloc size | .realloc _ size => extension size
  | .free _ => 0

/-- The size that is asked for. -/
def Request.size? : Request → Option Nat
  | .malloc size | .realloc _ size => some size
  | .free _ => none

/-- The bytes by which requests may extend the heap together. -/
def totalDemand (requests : List Request) : Nat := (requests.map Request.demand).sum

@[simp] theorem totalDemand_nil : totalDemand [] = 0 := rfl

@[simp] theorem totalDemand_cons (request : Request) (requests : List Request) :
    totalDemand (request :: requests) = request.demand + totalDemand requests := by
  simp [totalDemand]

/-- In a run whose demands the arena has room for nothing is refused, and the
heap is not longer than the first chunk and the demands. The overhead is what
the heap has beside its blocks. -/
structure Roomy {Statics : Type} (interface : Interface Statics) (allowed : Request → Prop)
    (overhead : Nat) : Prop where
  bounded : ∀ {arena : Machine Statics} {requests log client}, arena.Empty →
    Run interface arena requests log client → (∀ request ∈ requests, allowed request) →
    client.machine.memBrk ≤ arena.memStartBrk + overhead + 4096 + totalDemand requests
  serves : ∀ {arena : Machine Statics} {requests log client} {request : Request} {size : Nat},
    arena.Empty → Run interface arena requests log client →
    (∀ request ∈ requests, allowed request) → allowed request →
    interface.Permitted client request → request.size? = some size → size ≠ 0 →
    overhead + 4096 + totalDemand requests + request.demand ≤ maxHeap →
    Ensures (interface.perform request) client fun result _ => result ≠ null

/-- What a client may ask for is about blocks it holds. -/
theorem Interface.Permitted.held {Statics : Type} {interface : Interface Statics}
    {client : Client Statics} {request : Request} (permitted : interface.Permitted client request) :
    ∀ ptr ∈ request.target?, ptr ∈ client.live.map Prod.fst := by
  intro ptr target
  cases request with
  | malloc size => cases target
  | free other => exact Option.some.inj target ▸ permitted
  | realloc other size => exact Option.some.inj target ▸ permitted.1

namespace Layout

variable {Index : Type} {policy : Policy Index} {origin room request address : Nat}
  {layout : Layout Index}

/-- A request leaves the length of the heap, or adds the extension. -/
theorem malloc_total_cases (lawful : policy.Lawful) (wellFormed : layout.WellFormed policy origin) :
    total (layout.malloc policy origin room request).2.blocks = total layout.blocks ∨
      total (layout.malloc policy origin room request).2.blocks =
        total layout.blocks + extension request := by
  cases outcome : layout.malloc policy origin room request with
  | mk result other =>
      cases result with
      | none => exact .inl (by rw [Layout.malloc_none outcome])
      | some address =>
          rcases Layout.malloc_source lawful wellFormed outcome with
            ⟨before, front, block, back, source, _, shape, _, _, _, rfl⟩
          have same : total (Layout.allot policy origin front block back before.index
              request).blocks = total before.blocks := by
            simp only [Layout.allot, shape, total_append, total_cons, Block.total_serve]
          rw [same]
          rcases source with rfl | rfl
          · exact .inl rfl
          · right
            rw [Layout.grow, Layout.settle, total_settle, total_append]
            rfl

theorem malloc_total_bounds (lawful : policy.Lawful)
    (wellFormed : layout.WellFormed policy origin) :
    total layout.blocks ≤ total (layout.malloc policy origin room request).2.blocks ∧
      total (layout.malloc policy origin room request).2.blocks ≤
        total layout.blocks + extension request := by
  rcases @malloc_total_cases _ _ _ room request _ lawful wellFormed with same | longer
  · rw [same]
    exact ⟨Nat.le_refl _, Nat.le_add_right _ _⟩
  · rw [longer]
    exact ⟨Nat.le_add_right _ _, Nat.le_refl _⟩

theorem release_total (live : (address, request) ∈ liveSpots origin layout.blocks) :
    total (layout.release policy origin address).blocks = total layout.blocks := by
  rcases @Layout.release_shape _ policy _ _ _ _ live with
    ⟨front, block, back, shape, _, isLive, same⟩
  have size := (Block.release_of_large (Block.size_ge_of_live isLive).1).1
  simp only [same, Layout.settle, total_settle, shape, total_append, total_cons, size]

/-- Where the arena has room for the extension, a request is served. -/
theorem malloc_of_room (lawful : policy.Lawful) (wellFormed : layout.WellFormed policy origin)
    (nonzero : request ≠ 0) (fits : total layout.blocks + extension request ≤ room) :
    ∃ address after, layout.malloc policy origin room request = (some address, after) ∧
      address ≠ null := by
  cases outcome : layout.malloc policy origin room request with
  | mk result after =>
      cases result with
      | none =>
          rcases malloc_eq_none.mp (congrArg Prod.fst outcome) with zero | ⟨_, full⟩
          · exact absurd zero nonzero
          · omega
      | some address =>
          rcases malloc_source lawful wellFormed outcome with
            ⟨_, front, _, _, _, _, _, _, position, _⟩
          refine ⟨address, after, rfl, ?_⟩
          unfold null
          omega

end Layout

namespace Procedures

variable {Statics Index : Type} {package : Procedures Statics Index}
  {interface : Interface Statics} {empty : Index} {client : Client Statics}
  {layout : Layout Index} {request : Request}

/-- Between two states of a run the heap becomes longer by the demand at most. -/
theorem Serves.next_total (correct : package.Correct) (serves : package.Serves client layout)
    (held : ∀ ptr ∈ request.target?, ptr ∈ client.live.map Prod.fst) :
    total layout.blocks ≤
        total (package.next (package.base client.machine) layout request).2.blocks ∧
      total (package.next (package.base client.machine) layout request).2.blocks ≤
        total layout.blocks + request.demand := by
  have known : ∀ ptr ∈ request.target?, ∃ old,
      (ptr, old) ∈ liveSpots (package.base client.machine) layout.blocks := by
    intro ptr target
    rcases List.mem_map.mp (held ptr target) with ⟨⟨_, old⟩, member, rfl⟩
    exact ⟨old, serves.live.mem_iff.mp member⟩
  have wellFormed := serves.holds.wellFormed
  cases request with
  | malloc size => exact Layout.malloc_total_bounds correct.lawful wellFormed
  | free ptr =>
      rcases known ptr rfl with ⟨old, isLive⟩
      have same : total (package.release client.machine layout ptr).blocks = total layout.blocks :=
        Layout.release_total isLive
      exact ⟨same.ge, same.le⟩
  | realloc ptr size =>
      rcases known ptr rfl with ⟨old, isLive⟩
      have bounds := @Layout.malloc_total_bounds _ _ _ package.room size _ correct.lawful wellFormed
      simp only [next, Request.demand]
      cases outcome : layout.malloc package.policy (package.base client.machine) package.room
          size with
      | mk result after =>
          rw [outcome] at bounds
          cases result with
          | none => rwa [Layout.realloc_of_none outcome]
          | some served =>
              have grown := (Layout.malloc_served correct.lawful wellFormed outcome).2.1
              have stillLive := grown.mem_iff.mpr (List.mem_cons_of_mem _ isLive)
              rw [Layout.realloc_of_some outcome]
              simp only [Layout.release_total stillLive]
              exact bounds

/-- A request for at least one byte is served where the arena has room for its
demand. -/
theorem Serves.next_some (correct : package.Correct) (serves : package.Serves client layout)
    {size : Nat} (sized : request.size? = some size) (nonzero : size ≠ 0)
    (fits : total layout.blocks + request.demand ≤ package.room) :
    ∃ ptr, (package.next (package.base client.machine) layout request).1 = some ptr ∧
      ptr ≠ null := by
  have served (bounded : total layout.blocks + extension size ≤ package.room) :=
    Layout.malloc_of_room correct.lawful serves.holds.wellFormed nonzero bounded
  cases request with
  | malloc other =>
      obtain rfl := Option.some.inj sized
      rcases served fits with ⟨ptr, after, outcome, positive⟩
      exact ⟨ptr, congrArg Prod.fst outcome, positive⟩
  | free ptr => cases sized
  | realloc old other =>
      obtain rfl := Option.some.inj sized
      rcases served fits with ⟨ptr, after, outcome, positive⟩
      exact ⟨ptr, congrArg Prod.fst (Layout.realloc_of_some outcome), positive⟩

/-! ## Whole runs -/

theorem serves_written {after : Client Statics} (serves : package.Serves client layout)
    (written : client.Written after) : package.Serves after layout ∧
      after.machine.memStartBrk = client.machine.memStartBrk := by
  induction written with
  | refl => exact ⟨serves, rfl⟩
  | tail _ step induction =>
      rcases step with ⟨address, value, writable, rfl⟩
      exact ⟨induction.1.write value writable, induction.2⟩

section Runs

variable (correct : package.Correct) (exposes : package.Exposes interface empty)

include correct exposes

/-- In every state of a run the heap has at least the chunk it began with. -/
theorem exists_serves_chunk {allowed : Request → Prop}
    (mmRealloc : ∀ request, allowed request → request.isRealloc = true →
      interface.mmRealloc = package.mmRealloc)
    (reachable : Reachable interface allowed client) :
    ∃ layout, package.Serves client layout ∧ 4096 ≤ total layout.blocks := by
  refine Reachable.invariant
    (fun client => ∃ layout, package.Serves client layout ∧ 4096 ≤ total layout.blocks)
    ?_ ?_ ?_ reachable
  · intro machine after arena returned
    have initialised := (exposes.mmInit arena).of_eq returned
    exact ⟨_, ⟨initialised.2.1, List.Perm.refl []⟩, Nat.le_refl _⟩
  · rintro client after request result ⟨layout, serves, chunk⟩ isAllowed permitted performed
    have outcome := (perform_request correct exposes serves (mmRealloc request isAllowed)
      permitted).of_eq performed
    exact ⟨_, outcome.serves,
      chunk.trans (serves.next_total correct permitted.held).1⟩
  · rintro client address value ⟨layout, serves, chunk⟩ writable
    exact ⟨layout, serves.write value writable, chunk⟩

/-- The heap of a run is longer than the first chunk by the demands of the
requests at most. -/
theorem run_total_le {arena : Machine Statics} {requests : List Request} {log : List (Nat × Nat)}
    (isEmpty : arena.Empty) (run : Run interface arena requests log client)
    (mmRealloc : ∀ request ∈ requests, request.isRealloc = true →
      interface.mmRealloc = package.mmRealloc) :
    ∃ layout, package.Serves client layout ∧
      client.machine.memStartBrk = arena.memStartBrk ∧
      total layout.blocks ≤ 4096 + totalDemand requests := by
  induction run with
  | init returned =>
      have initialised := (exposes.mmInit isEmpty).of_eq returned
      exact ⟨_, ⟨initialised.2.1, List.Perm.refl []⟩, initialised.2.2, Nat.le_refl _⟩
  | request run written permitted performed induction =>
      rcases induction fun request member => mmRealloc request (List.mem_cons_of_mem _ member) with
        ⟨layout, serves, start, bounded⟩
      rcases serves_written serves written with ⟨ready, same⟩
      have outcome := (perform_request correct exposes ready
        (mmRealloc _ List.mem_cons_self) permitted).of_eq performed
      refine ⟨_, outcome.serves, outcome.memStartBrk.trans (same.trans start), ?_⟩
      have longer := (ready.next_total correct permitted.held).2
      rw [totalDemand_cons]
      omega

theorem roomy_of_correct {allowed : Request → Prop}
    (mmRealloc : ∀ request, allowed request → request.isRealloc = true →
      interface.mmRealloc = package.mmRealloc) :
    Roomy interface allowed (8 + package.prologue.size) where
  bounded isEmpty run allAllowed := by
    rcases run_total_le correct exposes isEmpty run fun request member =>
      mmRealloc request (allAllowed request member) with ⟨layout, serves, start, bounded⟩
    rw [serves.holds.extent, start]
    omega
  serves := by
    intro arena requests log client request size isEmpty run allAllowed isAllowed permitted sized
      nonzero fits
    rcases run_total_le correct exposes isEmpty run fun request member =>
      mmRealloc request (allAllowed request member) with ⟨layout, serves, _, bounded⟩
    have room : total layout.blocks + request.demand ≤ package.room := by
      unfold room
      omega
    rcases serves.next_some correct sized nonzero room with ⟨ptr, served, positive⟩
    apply (perform_request correct exposes serves (mmRealloc request isAllowed) permitted).mono
    rintro result after performed isNull
    have answer := performed.result
    rw [served] at answer
    exact positive (answer.symm.trans isNull)

end Runs

end Procedures

end MallocLab
