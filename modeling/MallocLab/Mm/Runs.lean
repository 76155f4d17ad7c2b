import MallocLab.BoundaryTag.Walk
import MallocLab.Mm.Init

/-! # Runs of `mm.c` -/

namespace MallocLab.Mm

open Program Blocks Explicit

def interface : Interface Statics where
  mmInit := mmInit
  mmMalloc := mmMalloc
  mmFree := mmFree
  mmRealloc := mmRealloc
  findFit := findFit
  blockSize := adjustedSize

theorem exposes : procedures.Exposes interface [] where
  mmMalloc := rfl
  mmFree := rfl
  findFit := rfl
  blockSize := rfl
  mmInit := mmInit_holds

/-- The clients that call `mm.c` in any permitted way. -/
abbrev Reached : Client Statics → Prop := Reachable interface fun _ => True

variable {client : Client Statics}

theorem Reached.serves (reached : Reached client) :
    ∃ layout, procedures.Serves client layout :=
  Procedures.exists_serves correct exposes (fun _ _ _ => rfl) reached

theorem heapListp_eq {layout : Layout (List (Nat × Nat))} (serves : procedures.Serves client layout) :
    client.machine.statics.heapListp = client.machine.memStartBrk + 8 :=
  (Threaded.comap_iff.mp serves.holds.threaded).holds.1

theorem Reached.tiled (reached : Reached client) :
    ∃ visited, client.machine.HeapTiled client.machine.statics.heapListp 16 client.live visited ∧
      ∀ bp ∈ visited, 16 ≤ client.machine.headerSize bp := by
  rcases reached.serves with ⟨layout, serves⟩
  have tiled := serves.heapTiled
  rw [← heapListp_eq serves] at tiled
  refine ⟨_, tiled, fun bp member => ?_⟩
  by_cases isPrologue : bp = client.machine.statics.heapListp
  · rw [isPrologue, tiled.prologueSize]
    exact Nat.le_refl 16
  · exact tiled.large bp member isPrologue

/-- A permitted request has an outcome in every reachable state. -/
theorem Reached.perform (reached : Reached client) {request : Request}
    (permitted : interface.Permitted client request) :
    ∃ layout, Ensures (interface.perform request) client
      (procedures.Performed client layout request) := by
  rcases reached.serves with ⟨layout, serves⟩
  exact ⟨layout, Procedures.perform_request correct exposes serves (fun _ => rfl) permitted⟩

/-- The arena at address eight, all zero. -/
def arena : State := memInit 8 (fun _ => 0) ⟨0⟩

theorem arena_empty : arena.Empty :=
  ⟨by decide, by decide, rfl, rfl, by decide⟩

/-- The heap after two requests. -/
def twoLive : Layout (List (Nat × Nat)) :=
  ((Layout.initial lifo 28 []).serveAt lifo 28 32 100).serveAt lifo 28 144 50

/-- A run with two live blocks. -/
theorem exists_two_live : ∃ client,
    Run interface arena [.malloc 50, .malloc 100] [(144, 4128), (32, 4128)] client ∧
      client.live = [(144, 50), (32, 100)] ∧ procedures.Serves client twoLive := by
  rcases mmInit_holds arena_empty with ⟨_, machine, outcome, rfl, holds, start⟩
  have base : procedures.base machine = 28 := by
    rw [Procedures.base, Machine.first, Machine.origin, start]
    rfl
  have serves : procedures.Serves ⟨machine, []⟩ (Layout.initial lifo 28 []) := by
    rw [base] at holds
    exact ⟨holds, by rw [base]; exact .refl []⟩
  have run : Run interface arena [] [] ⟨machine, []⟩ := .init outcome
  rcases Procedures.run_malloc correct exposes run serves (by decide : 100 ≠ 0) (by decide) rfl with
    ⟨first, firstRun, firstServes, firstLive, firstStart⟩
  have firstBase : procedures.base first.machine = 28 := by
    rw [← base]
    exact Procedures.base_of_memStartBrk firstStart
  rw [base] at firstServes
  rcases Procedures.run_malloc correct exposes firstRun firstServes (by decide : 50 ≠ 0) (by decide)
    rfl with
    ⟨second, secondRun, secondServes, secondLive, secondStart⟩
  have firstBrk : first.machine.memBrk = 4128 := by
    rw [firstServes.holds.extent, firstStart, start]
    rfl
  have secondBrk : second.machine.memBrk = 4128 := by
    rw [secondServes.holds.extent, secondStart, firstStart, start, firstBase]
    rfl
  rw [firstBrk, secondBrk] at secondRun
  rw [firstBase] at secondServes
  exact ⟨second, secondRun, by rw [secondLive, firstLive]; rfl, secondServes⟩

theorem exists_run : ∃ client,
    Run interface arena [.malloc 50, .malloc 100] [(144, 4128), (32, 4128)] client ∧
      client.live = [(144, 50), (32, 100)] := by
  rcases exists_two_live with ⟨client, run, live, _⟩
  exact ⟨client, run, live⟩

theorem exists_reached :
    ∃ client, Reached client ∧ client.live = [(144, 50), (32, 100)] := by
  rcases exists_run with ⟨client, run, live⟩
  exact ⟨client, run.reachable arena_empty fun _ _ => trivial, live⟩

/-- In every reachable state the heap is tiled by blocks of at least sixteen
bytes, and every request a client may make next has an outcome. -/
theorem heap_tiling (reached : Reached client) :
    (∃ visited, client.machine.HeapTiled client.machine.statics.heapListp 16 client.live
        visited ∧ ∀ bp ∈ visited, 16 ≤ client.machine.headerSize bp) ∧
      ∀ request, interface.Permitted client request →
        ∃ result after, interface.perform request client = some (result, after) := by
  refine ⟨reached.tiled, fun request permitted => ?_⟩
  rcases reached.perform permitted with ⟨_, result, after, outcome, _⟩
  exact ⟨result, after, outcome⟩

theorem heap_tiling_two_live :
    ∃ client : Client Statics, client.live = [(144, 50), (32, 100)] ∧
      (∃ visited, client.machine.HeapTiled client.machine.statics.heapListp 16 client.live
        visited ∧ ∀ bp ∈ visited, 16 ≤ client.machine.headerSize bp) ∧
      ∀ request, interface.Permitted client request →
        ∃ result after, interface.perform request client = some (result, after) := by
  rcases exists_reached with ⟨client, reached, live⟩
  exact ⟨client, live, heap_tiling reached⟩

/-- The list of a served client is a ring through the free blocks of the heap. -/
theorem ring_exact {layout : Layout (List (Nat × Nat))} (serves : procedures.Serves client layout) :
    (layout.index.map Prod.fst).Nodup ∧
      (∀ bp, bp ∈ layout.index.map Prod.fst ↔
        bp ∈ procedures.visited client.machine layout ∧ client.machine.headerAlloc bp = 0) ∧
      Linked client.machine.pred client.machine.succ (client.machine.statics.heapListp ::
        layout.index.map Prod.fst ++ [client.machine.statics.heapListp]) := by
  have listp := heapListp_eq serves
  have holds := (Threaded.comap_iff.mp serves.holds.threaded).holds
  have tiled := serves.holds.threaded.tiled
  rcases holds with ⟨_, nodup, linked⟩
  have same : sentinel client.machine = client.machine.statics.heapListp := by
    rw [listp]
    rfl
  rw [same] at nodup linked
  refine ⟨(List.nodup_cons.mp nodup).2, fun bp => ?_, linked⟩
  have exact : layout.index.Perm
      (freeSpots (procedures.base client.machine) layout.blocks) := serves.holds.wellFormed.exact
  rw [(exact.map Prod.fst).mem_iff]
  constructor
  · intro member
    rcases List.mem_map.mp member with ⟨⟨address, size⟩, listed, rfl⟩
    rcases mem_freeSpots.mp listed with ⟨block, spot, isFree, _⟩
    have inHeap := List.mem_cons_of_mem (client.machine.origin + 4, prologue) spot
    refine ⟨List.mem_map.mpr ⟨_, inHeap, rfl⟩, ?_⟩
    rw [tiled.headerAlloc inHeap, isFree]
    rfl
  · rintro ⟨member, isFree⟩
    rcases Procedures.visited_cases client.machine member with rfl | ⟨block, spot⟩
    · have used := serves.heapTiled.sentinel
      rw [show client.machine.memStartBrk + 8 = client.machine.origin + 4 from rfl,
        isFree] at used
      cases used
    · have inHeap := List.mem_cons_of_mem (client.machine.origin + 4, prologue) spot
      rw [tiled.headerAlloc inHeap] at isFree
      refine List.mem_map.mpr ⟨(bp, block.size), ?_, rfl⟩
      refine mem_freeSpots.mpr ⟨block, spot, ?_, rfl⟩
      cases free : block.isFree with
      | true => rfl
      | false => simp [free] at isFree

/-- In every reachable state `SUCC_P` leads from the prologue once through all
free blocks of the heap walk and back, `PRED_P` leads the other way, and
`find_fit` ends for every size without changing anything. -/
theorem free_list_exact (reached : Reached client) :
    ∃ visited ring, client.machine.Walk client.machine.statics.heapListp visited
        client.machine.memBrk ∧
      ring.Nodup ∧ (∀ bp, bp ∈ ring ↔ bp ∈ visited ∧ client.machine.headerAlloc bp = 0) ∧
      Linked client.machine.pred client.machine.succ
        (client.machine.statics.heapListp :: ring ++ [client.machine.statics.heapListp]) ∧
      (∀ node ∈ client.machine.statics.heapListp :: ring,
        client.machine.pred (client.machine.succ node) = node ∧
          client.machine.succ (client.machine.pred node) = node) ∧
      ∀ asize, ∃ bp, findFit asize client.machine = some (bp, client.machine) := by
  rcases reached.serves with ⟨layout, serves⟩
  have listp := heapListp_eq serves
  rcases ring_exact serves with ⟨nodup, exact, linked⟩
  refine ⟨procedures.visited client.machine layout, layout.index.map Prod.fst,
    listp ▸ serves.heapTiled.walk, nodup, exact, linked, fun node member => linked.inverse member,
    fun asize => ?_⟩
  rcases findFit_finds asize serves.holds with ⟨bp, after, outcome, _, rfl⟩
  exact ⟨bp, outcome⟩

theorem free_list_exact_two_live :
    ∃ client : Client Statics, client.live = [(144, 50), (32, 100)] ∧
      ∃ visited ring, client.machine.Walk client.machine.statics.heapListp visited
          client.machine.memBrk ∧
        ring.Nodup ∧ (∀ bp, bp ∈ ring ↔ bp ∈ visited ∧ client.machine.headerAlloc bp = 0) ∧
        Linked client.machine.pred client.machine.succ
          (client.machine.statics.heapListp :: ring ++ [client.machine.statics.heapListp]) ∧
        (∀ node ∈ client.machine.statics.heapListp :: ring,
          client.machine.pred (client.machine.succ node) = node ∧
            client.machine.succ (client.machine.pred node) = node) ∧
        ∀ asize, ∃ bp, findFit asize client.machine = some (bp, client.machine) := by
  rcases exists_reached with ⟨client, reached, live⟩
  exact ⟨client, live, free_list_exact reached⟩

/-- Every call stays inside the heap, for otherwise it would have no outcome,
and leaves alone what the other live blocks were requested for. -/
theorem isolation :
    (∀ machine : State, machine.Empty →
      ∃ after, mmInit machine = some (0, after)) ∧
    ∀ {client : Client Statics} {request : Request}, Reached client →
      interface.Permitted client request →
      Ensures (interface.perform request) client fun _ after =>
        ∀ spot ∈ client.live, request.target? ≠ some spot.1 →
          SameRange client.machine after.machine spot.1 spot.2 := by
  constructor
  · intro machine empty
    rcases mmInit_holds empty with ⟨_, after, outcome, rfl, _⟩
    exact ⟨after, outcome⟩
  · intro client request reached permitted
    rcases reached.perform permitted with ⟨layout, performed⟩
    exact performed.mono fun _ after outcome => outcome.others

theorem isolation_free :
    ∃ client : Client Statics, client.live = [(144, 50), (32, 100)] ∧
      Ensures (interface.perform (.free 144)) client fun _ after =>
        SameRange client.machine after.machine 32 100 := by
  rcases exists_reached with ⟨client, reached, live⟩
  have permitted : interface.Permitted client (.free 144) := by
    simp [Interface.Permitted, live]
  refine ⟨client, live, (isolation.2 reached permitted).mono fun _ after same => ?_⟩
  exact same (32, 100) (by simp [live]) (by decide)

end MallocLab.Mm
