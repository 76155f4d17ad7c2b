import MallocLab.BoundaryTag.Walk
import MallocLab.Segregated.Init

/-! # Runs of `segregated_list-85.c` -/

namespace MallocLab.Segregated

open Program Blocks

/-- The clients that call `mm_malloc` and `mm_free` in any permitted way. -/
abbrev Reached : Client Statics → Prop :=
  Reachable interface fun request => request.isRealloc = false

variable {client : Client Statics} {layout : Layout Groups}

theorem Reached.serves (reached : Reached client) :
    ∃ layout, procedures.Serves client layout :=
  Procedures.exists_serves correct exposes
    (fun _ allowed isRealloc => absurd (allowed.symm.trans isRealloc) (by decide)) reached

/-- A permitted request has an outcome in every reachable state. -/
theorem Reached.perform (reached : Reached client) {request : Request}
    (allowed : request.isRealloc = false) (permitted : interface.Permitted client request) :
    ∃ layout, Ensures (interface.perform request) client
      (procedures.Performed client layout request) := by
  rcases reached.serves with ⟨layout, serves⟩
  exact ⟨layout, Procedures.perform_request correct exposes serves
    (fun isRealloc => absurd (allowed.symm.trans isRealloc) (by decide)) permitted⟩

/-! ## The lists of a machine -/

/-- The lists of the machine hold exactly the free blocks that a heap walk
visits, each in the group of its size and each group in the order of sizes. -/
structure ListsExact (machine : State) (visited : List Nat) (members : Nat → List Nat) :
    Prop where
  placed : ∀ bp ∈ visited, machine.headerAlloc bp = 0 → ∀ groupIdx < groupSize,
    (bp ∈ members groupIdx ↔ groupIdx = min 19 (machine.headerSize bp).log2)
  free : ∀ groupIdx < groupSize, ∀ bp ∈ members groupIdx,
    bp ∈ visited ∧ machine.headerAlloc bp = 0
  once : ∀ groupIdx < groupSize, (members groupIdx).Nodup
  terminated : ∀ groupIdx < groupSize, NullTerminated null machine.pred machine.succ
    (machine.statics.groupFreeListp groupIdx) (members groupIdx)
  sorted : ∀ groupIdx < groupSize, (members groupIdx).Pairwise fun first second =>
    machine.headerSize first ≤ machine.headerSize second

section Lists

variable (serves : procedures.Serves client layout)

include serves

/-- A listed block is a visited free block with the listed size. -/
theorem listed_iff {bp size : Nat} : (bp, size) ∈ entries layout.index ↔
    bp ∈ procedures.visited client.machine layout ∧ client.machine.headerAlloc bp = 0 ∧
      client.machine.headerSize bp = size := by
  have tiled := serves.holds.threaded.tiled
  have exact : (entries layout.index).Perm
      (freeSpots (procedures.base client.machine) layout.blocks) := serves.holds.wellFormed.exact
  rw [exact.mem_iff]
  constructor
  · intro listed
    rcases mem_freeSpots.mp listed with ⟨block, spot, isFree, rfl⟩
    have inHeap := List.mem_cons_of_mem (client.machine.origin + 4, prologue) spot
    refine ⟨List.mem_map.mpr ⟨_, inHeap, rfl⟩, ?_, tiled.headerSize inHeap⟩
    rw [tiled.headerAlloc inHeap, isFree]
    rfl
  · rintro ⟨member, isFree, rfl⟩
    rcases Procedures.visited_cases client.machine member with rfl | ⟨block, spot⟩
    · have used := serves.heapTiled.sentinel
      rw [show client.machine.memStartBrk + 8 = client.machine.origin + 4 from rfl, isFree] at used
      cases used
    · have inHeap := List.mem_cons_of_mem (client.machine.origin + 4, prologue) spot
      rw [tiled.headerAlloc inHeap] at isFree
      refine mem_freeSpots.mpr ⟨block, spot, ?_, (tiled.headerSize inHeap).symm⟩
      cases free : block.isFree with
      | true => rfl
      | false => simp [free] at isFree

theorem listsExact : ListsExact client.machine (procedures.visited client.machine layout)
    fun groupIdx => (layout.index groupIdx).map Prod.fst := by
  have holds := serves.holds.threaded.holds
  have ordered := serves.holds.wellFormed.ordered
  have inGroup : ∀ {groupIdx : Nat}, groupIdx < groupSize → ∀ {entry : Nat × Nat},
      entry ∈ layout.index groupIdx → entry.1 ∈ procedures.visited client.machine layout ∧
        client.machine.headerAlloc entry.1 = 0 ∧ client.machine.headerSize entry.1 = entry.2 :=
    fun inside _ member => (listed_iff serves).mp (mem_entries.mpr ⟨_, inside, member⟩)
  constructor
  · intro bp member isFree groupIdx inside
    have listed := (listed_iff serves).mpr ⟨member, isFree, rfl⟩
    have group : groupIndex (client.machine.headerSize bp) =
        min 19 (client.machine.headerSize bp).log2 := groupIndex_eq _
    rw [← group]
    constructor
    · intro inList
      rcases List.mem_map.mp inList with ⟨entry, here, rfl⟩
      rw [(inGroup inside here).2.2]
      exact ((ordered groupIdx).2 entry here).symm
    · rintro rfl
      exact List.mem_map_of_mem (mem_group ordered listed)
  · intro groupIdx inside bp member
    rcases List.mem_map.mp member with ⟨entry, here, rfl⟩
    exact ⟨(inGroup inside here).1, (inGroup inside here).2.1⟩
  · intro groupIdx inside
    exact (List.nodup_cons.mp holds.1).2.sublist ((group_sublist _ inside).map _)
  · exact holds.2
  · intro groupIdx inside
    rw [List.pairwise_map]
    refine ((ordered groupIdx).1).imp_of_mem fun {first second} firstHere secondHere le => ?_
    rw [(inGroup inside firstHere).2.2, (inGroup inside secondHere).2.2]
    exact le

end Lists

/-- In every reachable state the heap is tiled by the prologue of eight bytes
and blocks of at least sixteen, the lists hold exactly the free blocks, and
every request a client may make next has an outcome. -/
theorem representation (reached : Reached client) :
    (∃ visited members,
      client.machine.HeapTiled (client.machine.memStartBrk + 8) 8 client.live visited ∧
        ListsExact client.machine visited members) ∧
      ∀ request, request.isRealloc = false → interface.Permitted client request →
        ∃ result after, interface.perform request client = some (result, after) := by
  rcases reached.serves with ⟨layout, serves⟩
  refine ⟨⟨_, _, serves.heapTiled, listsExact serves⟩, fun request allowed permitted => ?_⟩
  rcases reached.perform allowed permitted with ⟨_, result, after, outcome, _⟩
  exact ⟨result, after, outcome⟩

/-- The arena at address eight, all zero. -/
def arena : State := memInit 8 (fun _ => 0) ⟨fun _ => 0⟩

theorem arena_empty : arena.Empty :=
  ⟨by decide, by decide, rfl, rfl, by decide⟩

/-- The client to whom `mm_init` returned. -/
theorem exists_init : ∃ client, Run interface arena [] [] client ∧
    procedures.Serves client (Layout.initial segregated 20 fun _ => []) ∧
    client.machine.memStartBrk = 8 := by
  rcases mmInit_holds arena_empty with ⟨_, machine, outcome, rfl, holds, start⟩
  have base : procedures.base machine = 20 := by
    rw [Procedures.base, Machine.first, Machine.origin, start]
    rfl
  rw [base] at holds
  exact ⟨⟨machine, []⟩, .init outcome, ⟨holds, by rw [base]; exact .refl []⟩, start⟩

/-- The heap after one request, and after a second one. -/
def oneLive : Layout Groups :=
  (Layout.initial segregated 20 fun _ => []).serveAt segregated 20 24 100

def twoLive : Layout Groups := oneLive.serveAt segregated 20 136 50

/-- A run with one live block. -/
theorem exists_one_live : ∃ client,
    Run interface arena [.malloc 100] [(24, 4120)] client ∧ client.live = [(24, 100)] ∧
      procedures.Serves client oneLive ∧ client.machine.memStartBrk = 8 := by
  rcases exists_init with ⟨client, run, serves, start⟩
  have base : procedures.base client.machine = 20 := by
    rw [Procedures.base, Machine.first, Machine.origin, start]
    rfl
  rcases Procedures.run_malloc correct exposes run serves (by decide : 100 ≠ 0) (by decide) rfl with
    ⟨first, firstRun, firstServes, firstLive, firstStart⟩
  rw [base] at firstServes
  have firstBrk : first.machine.memBrk = 4120 := by
    rw [firstServes.holds.extent, firstStart, start]
    rfl
  have none : client.live = [] := by
    cases run
    rfl
  rw [firstBrk] at firstRun
  rw [none] at firstLive
  exact ⟨first, firstRun, firstLive, firstServes, firstStart.trans start⟩

/-- A run with two live blocks. -/
theorem exists_two_live : ∃ client,
    Run interface arena [.malloc 50, .malloc 100] [(136, 4120), (24, 4120)] client ∧
      client.live = [(136, 50), (24, 100)] ∧ procedures.Serves client twoLive ∧
      client.machine.memStartBrk = 8 := by
  rcases exists_one_live with ⟨client, run, live, serves, start⟩
  have base : procedures.base client.machine = 20 := by
    rw [Procedures.base, Machine.first, Machine.origin, start]
    rfl
  rcases Procedures.run_malloc correct exposes run serves (by decide : 50 ≠ 0) (by decide) rfl with
    ⟨second, secondRun, secondServes, secondLive, secondStart⟩
  rw [base] at secondServes
  have secondBrk : second.machine.memBrk = 4120 := by
    rw [secondServes.holds.extent, secondStart, start]
    rfl
  rw [secondBrk] at secondRun
  rw [live] at secondLive
  exact ⟨second, secondRun, secondLive, secondServes, secondStart.trans start⟩

theorem exists_reached : ∃ client, Reached client ∧ client.live = [(136, 50), (24, 100)] ∧
    procedures.Serves client twoLive ∧ client.machine.memStartBrk = 8 := by
  rcases exists_two_live with ⟨client, run, facts⟩
  refine ⟨client, run.reachable arena_empty fun request member => ?_, facts⟩
  simp only [List.mem_cons, List.not_mem_nil, or_false] at member
  rcases member with rfl | rfl <;> rfl

theorem headerSize_two_live (serves : procedures.Serves client twoLive)
    (start : client.machine.memStartBrk = 8) : client.machine.headerSize 24 = 112 := by
  have origin : client.machine.origin = 12 := congrArg (· + 4) start
  have spot : (24, ⟨112, .live 100, rfl, by decide⟩) ∈
      spots client.machine.origin (prologue :: twoLive.blocks) := by
    rw [origin]
    exact List.mem_cons_of_mem _ List.mem_cons_self
  exact serves.holds.threaded.tiled.headerSize spot

theorem representation_two_live : ∃ client : Client Statics,
    client.live = [(136, 50), (24, 100)] ∧
      (∃ visited members,
        client.machine.HeapTiled (client.machine.memStartBrk + 8) 8 client.live visited ∧
          ListsExact client.machine visited members) ∧
      ∀ request, request.isRealloc = false → interface.Permitted client request →
        ∃ result after, interface.perform request client = some (result, after) := by
  rcases exists_reached with ⟨client, reached, live, _⟩
  exact ⟨client, live, representation reached⟩

/-- The prologue, with which the heap walk begins, has eight bytes only, right
after `mm_init` and ever after. -/
theorem prologue_is_small : ∃ client, Run interface arena [] [] client ∧ ¬∃ visited,
    client.machine.Walk (client.machine.memStartBrk + 8) visited client.machine.memBrk ∧
      ∀ bp ∈ visited, 16 ≤ client.machine.headerSize bp := by
  rcases exists_init with ⟨client, run, serves, _⟩
  refine ⟨client, run, ?_⟩
  rintro ⟨visited, walk, atLeast⟩
  have size := serves.heapTiled.prologueSize
  have prologueLarge := atLeast _ (walk.mem_start (by rw [size]; decide))
  rw [size] at prologueLarge
  exact absurd prologueLarge (by decide)

end MallocLab.Segregated
