import MallocLab.BoundaryTag.Equivalence
import MallocLab.BoundaryTag.Walk
import MallocLab.Implicit.Init
import MallocLab.Implicit.Refinement

/-! # Runs of `implicit-54.c` -/

namespace MallocLab.Implicit

open Program Blocks

/-- The segment the header in front of a payload address tells of. -/
def segmentAt (machine : State) (bp : Nat) : Segment :=
  ⟨machine.headerSize bp, machine.headerAlloc bp ≠ 0⟩

/-- From the prologue to the epilogue `NEXT_BLKP` visits the prologue and then
the segments of a heap, and every footer is equal to its header. -/
structure Depicts (machine : State) (heap : List Segment) (visited : List Nat) : Prop where
  prologue : machine.statics.heapListp = machine.memStartBrk + 8
  walk : machine.Walk machine.statics.heapListp visited machine.memBrk
  epilogue : segmentAt machine machine.memBrk = ⟨0, true⟩
  segments : visited.map (segmentAt machine) = ⟨dsize, true⟩ :: heap
  footers : ∀ bp ∈ visited,
    machine.load (bp + machine.headerSize bp - dsize) = machine.load (bp - wsize)

variable {client ready after : Client Statics} {layout : Layout (List (Nat × Nat))}
  {request : Request} {arena : State}

/-- The bytes for segments that an arena has behind the prologue. -/
def capacity : Nat := maxHeap - 4 * wsize

theorem heapListp_eq (serves : procedures.Serves client layout) :
    client.machine.statics.heapListp = client.machine.memStartBrk + 8 :=
  serves.holds.threaded.holds

theorem segmentAt_spot {machine : State} {blocks : List Block} (tiled : Tiled machine blocks)
    {spot : Nat × Block} (member : spot ∈ spots machine.origin blocks) :
    segmentAt machine spot.1 = .ofBlock spot.2 := by
  rw [segmentAt, tiled.headerSize member, tiled.headerAlloc member]
  cases isFree : spot.2.isFree <;> simp [Segment.ofBlock, isFree]

theorem spots_snd (cursor : Nat) (blocks : List Block) :
    (spots cursor blocks).map Prod.snd = blocks := by
  induction blocks generalizing cursor with
  | nil => rfl
  | cons block blocks induction => rw [spots_cons, List.map_cons, induction]

/-- A served client's heap is the one that is represented. -/
theorem depicts (serves : procedures.Serves client layout) :
    Depicts client.machine (segments layout.blocks)
      (procedures.visited client.machine layout) := by
  have tiled := serves.holds.threaded.tiled
  have heap := serves.heapTiled
  rw [← heapListp_eq serves] at heap
  refine ⟨heap.prologue, heap.walk, ?_, ?_, heap.footers⟩
  · rw [segmentAt, Machine.headerSize, tiled.epilogue_header, heap.epilogue]
    rfl
  · have each : ((spots client.machine.origin (prologue :: layout.blocks)).map Prod.fst).map
        (segmentAt client.machine) =
        ((spots client.machine.origin (prologue :: layout.blocks)).map Prod.snd).map
          Segment.ofBlock := by
      rw [List.map_map, List.map_map]
      exact List.map_congr_left fun spot member => segmentAt_spot tiled member
    rw [Procedures.visited]
    exact each.trans (by rw [spots_snd]; rfl)

/-! ## One step -/

/-- What a request does to the represented heap the reference allocator does to
the segments. -/
theorem step_segments (serves : procedures.Serves client layout)
    (permitted : interface.Permitted client request) :
    Reference.step (client.machine.memStartBrk + 16) capacity (segments layout.blocks) request =
      ((procedures.next (procedures.base client.machine) layout request).1.getD null,
        segments
          (procedures.next (procedures.base client.machine) layout request).2.blocks) := by
  have wellFormed := serves.holds.wellFormed
  have live : ∀ {address}, address ∈ client.live.map Prod.fst → ∃ old,
      (address, old) ∈ liveSpots (procedures.base client.machine) layout.blocks := by
    intro address member
    rcases List.mem_map.mp member with ⟨⟨_, old⟩, listed, rfl⟩
    exact ⟨old, serves.live.mem_iff.mp listed⟩
  have start : client.machine.memStartBrk + 16 = procedures.base client.machine + 4 := rfl
  have room : capacity = procedures.room := rfl
  rw [start, room]
  cases request with
  | malloc size => exact malloc_segments wellFormed procedures.room size
  | free ptr =>
      rcases live permitted with ⟨old, spot⟩
      exact congrArg (null, ·) (release_layout wellFormed spot)
  | realloc ptr size =>
      rcases live permitted.1 with ⟨old, spot⟩
      exact realloc_segments wellFormed spot procedures.room size

/-- A permitted request returns what the reference allocator returns. -/
theorem step_reference (serves : procedures.Serves client layout)
    (permitted : interface.Permitted client request) :
    ∃ after next, interface.perform request client =
        some ((Reference.step (client.machine.memStartBrk + 16) capacity
          (segments layout.blocks) request).1, after) ∧
      procedures.Serves after next ∧
      segments next.blocks = (Reference.step (client.machine.memStartBrk + 16) capacity
        (segments layout.blocks) request).2 ∧
      after.machine.memStartBrk = client.machine.memStartBrk := by
  rcases Procedures.perform_request correct exposes serves (fun _ => rfl) permitted with
    ⟨result, after, outcome, performed⟩
  rw [step_segments serves permitted]
  refine ⟨after, _, ?_, performed.serves, rfl, performed.memStartBrk⟩
  rw [outcome, performed.result]

/-! ## Whole runs -/

variable {requests : List Request} {log : List (Nat × Nat)}

/-- After every run the results and the segments are those of the reference
run. -/
theorem run_reference (isEmpty : arena.Empty) (run : Run interface arena requests log client) :
    (Reference.run (arena.memStartBrk + 16) capacity requests).1 = log.map Prod.fst ∧
      client.machine.memStartBrk = arena.memStartBrk ∧
      ∃ layout, procedures.Serves client layout ∧ segments layout.blocks =
        (Reference.run (arena.memStartBrk + 16) capacity requests).2 := by
  induction run with
  | init returned =>
      rcases (mmInit_holds isEmpty).of_eq returned with ⟨_, holds, start⟩
      exact ⟨rfl, start, _, ⟨holds, .refl []⟩, rfl⟩
  | request _ written permitted performed induction =>
      rcases induction with ⟨results, start, layout, serves, same⟩
      rcases serves.written written with ⟨ready, _, readyStart⟩
      rcases step_reference ready permitted with ⟨after, next, outcome, nextServes, nextSame, kept⟩
      rw [performed, readyStart, start, same] at outcome
      rw [readyStart, start, same] at nextSame
      cases outcome
      refine ⟨?_, by rw [kept, readyStart, start], next, nextServes, nextSame⟩
      rw [Reference.run, List.map_cons, results]

/-- After every run, whatever the client wrote to its live payloads, the walk
finds the segments of the reference run, the results were those of the
reference run, and every request that the client may make next returns the
payload address of the reference allocator and leaves its segments. -/
theorem first_fit_refinement (isEmpty : arena.Empty)
    (run : Run interface arena requests log client) (written : client.Written ready) :
    (Reference.run (arena.memStartBrk + 16) capacity requests).1 = log.map Prod.fst ∧
      (∃ visited, Depicts ready.machine
        (Reference.run (arena.memStartBrk + 16) capacity requests).2 visited) ∧
      ∀ request, interface.Permitted ready request →
        ∃ after, interface.perform request ready =
            some ((Reference.step (arena.memStartBrk + 16) capacity
              (Reference.run (arena.memStartBrk + 16) capacity requests).2 request).1, after) ∧
          ∃ visited, Depicts after.machine (Reference.step (arena.memStartBrk + 16) capacity
            (Reference.run (arena.memStartBrk + 16) capacity requests).2 request).2 visited := by
  rcases run_reference isEmpty run with ⟨results, start, layout, serves, same⟩
  rcases serves.written written with ⟨readyServes, _, readyStart⟩
  rw [← same, ← start, ← readyStart]
  refine ⟨?_, ⟨_, depicts readyServes⟩, fun request permitted => ?_⟩
  · rw [readyStart, start]
    exact results
  · rcases step_reference readyServes permitted with ⟨after, next, outcome, nextServes, nextSame, _⟩
    have shown := depicts nextServes
    rw [nextSame] at shown
    exact ⟨after, outcome, _, shown⟩

/-! ## A run -/

/-- The arena at address eight, all zero. -/
def zeroed : State := memInit 8 (fun _ => 0) ⟨0⟩

theorem zeroed_empty : zeroed.Empty :=
  ⟨by decide, by decide, rfl, rfl, by decide⟩

theorem exists_one_live : ∃ client brk,
    Run interface zeroed [.malloc 100] [(24, brk)] client ∧ client.live = [(24, 100)] := by
  rcases mmInit_holds zeroed_empty with ⟨_, machine, outcome, rfl, holds, start⟩
  have base : procedures.base machine = 20 := by
    rw [Procedures.base, Machine.first, Machine.origin, start]
    rfl
  have serves : procedures.Serves ⟨machine, []⟩ (Layout.initial addressOrdered 20 []) := by
    rw [base] at holds
    exact ⟨holds, by rw [base]; exact .refl []⟩
  have run : Run interface zeroed [] [] ⟨machine, []⟩ := .init outcome
  rcases Procedures.run_malloc correct exposes run serves (by decide : 100 ≠ 0) (by decide) rfl with
    ⟨first, firstRun, _, firstLive, _⟩
  exact ⟨first, _, firstRun, firstLive⟩

theorem first_fit_refinement_free : ∃ client : Client Statics, client.live = [(24, 100)] ∧
    (∃ visited, Depicts client.machine [⟨112, true⟩, ⟨3984, false⟩] visited) ∧
      ∃ after, interface.perform (.free 24) client = some (0, after) ∧
        ∃ visited, Depicts after.machine [⟨4096, false⟩] visited := by
  rcases exists_one_live with ⟨client, brk, run, live⟩
  have refined := first_fit_refinement zeroed_empty run .refl
  refine ⟨client, live, refined.2.1, refined.2.2 (.free 24) ?_⟩
  change 24 ∈ client.live.map Prod.fst
  rw [live]
  exact List.mem_cons_self

end MallocLab.Implicit
