import MallocLab.BoundaryTag.Equivalence

/-! # Heaps at other addresses

The abstract allocator never looks at an address except to compare it with
another one, so the same heap at another place behaves the same. Runs that name
the blocks they free by the calls that returned them can therefore be compared
across arenas.
-/

namespace MallocLab

open Program Blocks

/-! ## Moving addresses -/

/-- An entry of an index, moved. -/
def moveEntry (distance : Nat) (entry : Nat × Nat) : Nat × Nat := (entry.1 + distance, entry.2)

theorem moveEntry_injective (distance : Nat) : Function.Injective (moveEntry distance) := by
  intro first second same
  simp only [moveEntry, Prod.mk.injEq, Nat.add_right_cancel_iff] at same
  exact Prod.ext same.1 same.2

/-- A policy whose indices can be moved. -/
structure Policy.Movable {Index : Type} (policy : Policy Index) where
  move : Nat → Index → Index
  add : ∀ (distance : Nat) (index : Index) (entry : Nat × Nat),
    policy.add (move distance index) (moveEntry distance entry) =
      move distance (policy.add index entry)
  remove : ∀ (distance : Nat) (index : Index) (entry : Nat × Nat),
    policy.remove (move distance index) (moveEntry distance entry) =
      move distance (policy.remove index entry)
  find : ∀ (distance : Nat) (index : Index) (size : Nat),
    policy.find (move distance index) size = (policy.find index size).map (· + distance)

namespace Blocks

theorem cut_move (distance address cursor : Nat) (blocks : List Block) :
    cut (address + distance) (cursor + distance) blocks = cut address cursor blocks := by
  induction blocks generalizing cursor with
  | nil => rfl
  | cons block rest induction =>
      have next : cursor + distance + block.size = cursor + block.size + distance := by omega
      rw [cut, cut, next, induction]
      by_cases here : cursor + 4 = address
      · rw [if_pos here, if_pos (by omega)]
      · rw [if_neg here, if_neg (by omega)]

theorem freeSpots_move (distance cursor : Nat) (blocks : List Block) :
    freeSpots (cursor + distance) blocks = (freeSpots cursor blocks).map (moveEntry distance) := by
  induction blocks generalizing cursor with
  | nil => rfl
  | cons block rest induction =>
      have next : cursor + distance + block.size = cursor + block.size + distance := by omega
      cases isFree : block.isFree with
      | true =>
          rw [freeSpots_cons_of_isFree _ _ isFree, freeSpots_cons_of_isFree _ _ isFree, next,
            induction, List.map_cons, moveEntry, Nat.add_right_comm]
      | false =>
          rw [freeSpots_cons_of_not_isFree _ _ isFree, freeSpots_cons_of_not_isFree _ _ isFree,
            next, induction]

theorem absorbed_move (distance cursor : Nat) (front : List Block) (block : Block)
    (back : List Block) : absorbed (cursor + distance) front block back =
      (absorbed cursor front block back).map (moveEntry distance) := by
  have behind : cursor + distance + total front + block.size =
      cursor + total front + block.size + distance := by omega
  have before : cursor + distance + total (front.rdropWhile Block.isFree) =
      cursor + total (front.rdropWhile Block.isFree) + distance := by omega
  rw [absorbed, absorbed, behind, before, freeSpots_move distance (cursor + total front + block.size),
    freeSpots_move distance (cursor + total (front.rdropWhile Block.isFree)), List.map_append]

end Blocks

namespace Layout

variable {Index : Type} {policy : Policy Index} (movable : policy.Movable)
  (distance origin : Nat) (layout : Layout Index)

/-- A heap at another place. -/
def move (layout : Layout Index) : Layout Index :=
  ⟨layout.blocks, movable.move distance layout.index⟩

theorem foldl_add_move (index : Index) (entries : List (Nat × Nat)) :
    (entries.map (moveEntry distance)).foldl policy.add (movable.move distance index) =
      movable.move distance (entries.foldl policy.add index) := by
  induction entries generalizing index with
  | nil => rfl
  | cons entry entries induction =>
      rw [List.map_cons, List.foldl_cons, List.foldl_cons, movable.add, induction]

theorem removeAll_move (index : Index) (entries : List (Nat × Nat)) :
    policy.removeAll (movable.move distance index) (entries.map (moveEntry distance)) =
      movable.move distance (policy.removeAll index entries) := by
  unfold Policy.removeAll
  induction entries generalizing index with
  | nil => rfl
  | cons entry entries induction =>
      rw [List.map_cons, List.foldl_cons, List.foldl_cons, movable.remove, induction]

theorem settle_move (front : List Block) (block : Block) (back : List Block) (index : Index) :
    settle policy (origin + distance) front block back (movable.move distance index) =
      (settle policy origin front block back index).move movable distance := by
  have spot : origin + distance + total (front.rdropWhile Block.isFree) + 4 =
      origin + total (front.rdropWhile Block.isFree) + 4 + distance := by omega
  have added := movable.add distance (policy.removeAll index (absorbed origin front block back))
    (origin + total (front.rdropWhile Block.isFree) + 4,
      total (front.rtakeWhile Block.isFree) + block.size + total (back.takeWhile Block.isFree))
  rw [moveEntry] at added
  rw [settle, settle, move, absorbed_move, removeAll_move, spot, added]

theorem allot_move (front : List Block) (block : Block) (back : List Block) (index : Index)
    (request : Nat) :
    allot policy (origin + distance) front block back (movable.move distance index) request =
      (allot policy origin front block back index request).move movable distance := by
  have spot : origin + distance + total front + 4 = origin + total front + 4 + distance := by
    omega
  have start : origin + distance + total front = origin + total front + distance := by omega
  have removed := movable.remove distance index (origin + total front + 4, block.size)
  rw [moveEntry] at removed
  rw [allot, allot, move, spot, start, freeSpots_move, removed, foldl_add_move]

theorem serveAt_move (address request : Nat) :
    (layout.move movable distance).serveAt policy (origin + distance) (address + distance)
        request = (layout.serveAt policy origin address request).move movable distance := by
  rw [serveAt, serveAt, move, cut_move]
  cases cut address origin layout.blocks with
  | mk front behind =>
      cases behind with
      | nil => rfl
      | cons block back => exact allot_move movable distance origin front block back _ request

theorem release_move (address : Nat) :
    (layout.move movable distance).release policy (origin + distance) (address + distance) =
      (layout.release policy origin address).move movable distance := by
  rw [release, release, move, cut_move]
  cases cut address origin layout.blocks with
  | mk front behind =>
      cases behind with
      | nil => rfl
      | cons block back => exact settle_move movable distance origin front block.release back _

theorem grow_move (block : Block) :
    (layout.move movable distance).grow policy (origin + distance) block =
      (layout.grow policy origin block).move movable distance :=
  settle_move movable distance origin layout.blocks block [] layout.index

theorem growSpot_move :
    (layout.move movable distance).growSpot (origin + distance) =
      layout.growSpot origin + distance := by
  simp only [growSpot, move]
  omega

/-- A request has the same outcome in the moved heap, at the moved address. -/
theorem malloc_move (room request : Nat) :
    (layout.move movable distance).malloc policy (origin + distance) room request =
      ((layout.malloc policy origin room request).1.map (· + distance),
        (layout.malloc policy origin room request).2.move movable distance) := by
  have found : policy.find (layout.move movable distance).index (roundUp request) =
      (policy.find layout.index (roundUp request)).map (· + distance) := movable.find _ _ _
  unfold malloc
  rw [found]
  by_cases zero : request = 0
  · simp only [if_pos zero, Option.map_none]
  · simp only [if_neg zero]
    cases policy.find layout.index (roundUp request) with
    | some address =>
        simp only [Option.map_some]
        rw [serveAt_move]
    | none =>
        simp only [Option.map_none]
        by_cases fits : total layout.blocks + extension request ≤ room
        · have alsoFits : total (layout.move movable distance).blocks + extension request ≤ room :=
            fits
          rw [if_pos fits, if_pos alsoFits, grow_move, growSpot_move, serveAt_move]
          rfl
        · have alsoFull :
              ¬total (layout.move movable distance).blocks + extension request ≤ room := fits
          rw [if_neg fits, if_neg alsoFull]
          rfl

theorem realloc_move (room address request : Nat) :
    (layout.move movable distance).realloc policy (origin + distance) room (address + distance)
        request =
      ((layout.realloc policy origin room address request).1.map (· + distance),
        (layout.realloc policy origin room address request).2.move movable distance) := by
  rw [realloc, realloc, malloc_move]
  cases layout.malloc policy origin room request with
  | mk result after =>
      cases result with
      | none => rfl
      | some served =>
          simp only [Option.map_some]
          rw [release_move]

end Layout

/-! ## Runs on two arenas -/

/-- A pointer as an offset into the arena. -/
def offset (start ptr : Nat) : Option Int :=
  if ptr = null then none else some ((ptr : Int) - start)

/-- What was seen of a call, apart from where the arena is. -/
def seen (start : Nat) (entry : Nat × Nat) : Option Int × Int :=
  (offset start entry.1, (entry.2 : Int) - start)

theorem offset_returned {start otherStart : Nat} {log otherLog : List (Nat × Nat)}
    (same : otherLog.map (seen otherStart) = log.map (seen start)) (turn : Nat) :
    offset otherStart (returned otherLog turn) = offset start (returned log turn) := by
  have results : (otherLog.reverse.map Prod.fst).map (offset otherStart) =
      (log.reverse.map Prod.fst).map (offset start) := by
    have firsts := congrArg (fun entries => (entries.map Prod.fst).reverse) same
    simpa [List.map_map, List.map_reverse, Function.comp_def, seen] using firsts
  have entry := congrArg (fun list => list.getD turn none) results
  have nothing : ∀ start, offset start null = none := fun _ => if_pos rfl
  rw [← nothing otherStart, List.getD_map, nothing, ← nothing start, List.getD_map] at entry
  exact entry

/-- A request about the blocks of a moved heap. -/
def Request.move (distance : Nat) : Request → Request
  | .malloc size => .malloc size
  | .free ptr => .free (ptr + distance)
  | .realloc ptr size => .realloc (ptr + distance) size

namespace Procedures

variable {Statics Index : Type} {package : Procedures Statics Index}
  {interface : Interface Statics} {empty : Index} (movable : package.policy.Movable)

theorem next_move (distance : Nat) (layout : Layout Index) (request : Request) :
    package.next distance (layout.move movable distance) (request.move distance) =
      ((package.next 0 layout request).1.map (· + distance),
        (package.next 0 layout request).2.move movable distance) := by
  have origin : 0 + distance = distance := Nat.zero_add distance
  cases request with
  | malloc size =>
      have moved := layout.malloc_move movable distance 0 package.room size
      rwa [origin] at moved
  | free ptr =>
      have moved := layout.release_move movable distance 0 ptr
      rw [origin] at moved
      simp only [next, Request.move, moved, Option.map_none]
  | realloc ptr size =>
      have moved := layout.realloc_move movable distance 0 package.room ptr size
      rwa [origin] at moved

/-- Two clients on two arenas hold the same blocks of one heap. -/
structure Parallel (movable : package.policy.Movable) (client partner : Client Statics)
    (layout : Layout Index) : Prop where
  serves : package.Serves client (layout.move movable (package.base client.machine))
  partnerServes : package.Serves partner (layout.move movable (package.base partner.machine))

section Parallel

variable {client after partner partnerAfter ready partnerReady : Client Statics}
  {layout : Layout Index} {movable}

theorem Parallel.written (parallel : Parallel movable client partner layout)
    (written : client.Written ready) (partnerWritten : partner.Written partnerReady) :
    Parallel movable ready partnerReady layout := by
  rcases parallel.serves.written written with ⟨serves, _, start⟩
  rcases parallel.partnerServes.written partnerWritten with ⟨partnerServes, _, partnerStart⟩
  constructor
  · rw [base_of_memStartBrk start]
    exact serves
  · rw [base_of_memStartBrk partnerStart]
    exact partnerServes

theorem base_eq (machine : Machine Statics) :
    package.base machine = machine.memStartBrk + (4 + package.prologue.size) := by
  simp only [base, Machine.first, Machine.origin]
  omega

/-- The break is where the heap ends, in both arenas. -/
theorem Parallel.memBrk (parallel : Parallel movable client partner layout) :
    (partner.machine.memBrk : Int) - partner.machine.memStartBrk =
      (client.machine.memBrk : Int) - client.machine.memStartBrk := by
  have extent := Holds.extent parallel.serves.holds
  have partnerExtent := Holds.extent parallel.partnerServes.holds
  simp only [Layout.move] at extent partnerExtent
  omega

/-- A live pointer is one of the heap that was moved. -/
theorem Serves.live_moved (serves : package.Serves client
    (layout.move movable (package.base client.machine))) {ptr : Nat}
    (live : ptr ∈ client.live.map Prod.fst) :
    ∃ relative, ptr = relative + package.base client.machine := by
  rcases List.mem_map.mp live with ⟨⟨address, old⟩, member, rfl⟩
  rcases mem_liveSpots.mp (serves.live.mem_iff.mp member) with ⟨_, spot, _⟩
  have bounds := spot_bounds spot
  exact ⟨address - package.base client.machine, by omega⟩

/-- Two pointers with one offset are one pointer of the moved heap. -/
theorem relative_unique {start otherStart relative otherRelative distance : Nat}
    (same : offset otherStart (otherRelative + (otherStart + (4 + distance))) =
      offset start (relative + (start + (4 + distance)))) : otherRelative = relative := by
  have positive : ∀ relative start, relative + (start + (4 + distance)) ≠ null := by
    intro relative start
    unfold null
    omega
  rw [offset, offset, if_neg (positive _ _), if_neg (positive _ _), Option.some.injEq] at same
  omega

variable {log otherLog : List (Nat × Nat)} {call : Call}

/-- A call stands for the same request in both arenas. -/
theorem Parallel.request (parallel : Parallel movable client partner layout)
    (same : otherLog.map (seen partner.machine.memStartBrk) =
      log.map (seen client.machine.memStartBrk))
    (permitted : interface.Permitted client (call.request log))
    (partnerPermitted : interface.Permitted partner (call.request otherLog)) :
    ∃ request : Request, call.request log = request.move (package.base client.machine) ∧
      call.request otherLog = request.move (package.base partner.machine) := by
  have pointers : ∀ turn, returned log turn ∈ client.live.map Prod.fst →
      returned otherLog turn ∈ partner.live.map Prod.fst → ∃ relative,
        returned log turn = relative + package.base client.machine ∧
        returned otherLog turn = relative + package.base partner.machine := by
    intro turn live partnerLive
    rcases parallel.serves.live_moved live with ⟨relative, here⟩
    rcases parallel.partnerServes.live_moved partnerLive with ⟨otherRelative, there⟩
    have offsets := offset_returned same turn
    rw [here, there, base_eq, base_eq] at offsets
    rw [relative_unique offsets] at there
    exact ⟨relative, here, there⟩
  cases call with
  | malloc size => exact ⟨.malloc size, rfl, rfl⟩
  | free turn =>
      rcases pointers turn permitted partnerPermitted with ⟨relative, here, there⟩
      exact ⟨.free relative, congrArg Request.free here, congrArg Request.free there⟩
  | realloc turn size =>
      rcases pointers turn permitted.1 partnerPermitted.1 with ⟨relative, here, there⟩
      exact ⟨.realloc relative size, congrArg (Request.realloc · size) here,
        congrArg (Request.realloc · size) there⟩

variable (correct : package.Correct) (exposes : package.Exposes interface empty)
  (mmRealloc : interface.mmRealloc = package.mmRealloc)

include correct exposes mmRealloc

/-- One request, and both arenas agree on what was seen and remain parallel. -/
theorem Parallel.step (parallel : Parallel movable client partner layout) {request : Request}
    {result partnerResult : Nat}
    (permitted : interface.Permitted client (request.move (package.base client.machine)))
    (partnerPermitted : interface.Permitted partner (request.move (package.base partner.machine)))
    (performed : interface.perform (request.move (package.base client.machine)) client =
      some (result, after))
    (partnerPerformed : interface.perform (request.move (package.base partner.machine)) partner =
      some (partnerResult, partnerAfter)) :
    Parallel movable after partnerAfter (package.next 0 layout request).2 ∧
      after.machine.memStartBrk = client.machine.memStartBrk ∧
      partnerAfter.machine.memStartBrk = partner.machine.memStartBrk ∧
      offset partner.machine.memStartBrk partnerResult =
        offset client.machine.memStartBrk result := by
  have outcome := (perform_request correct exposes parallel.serves (fun _ => mmRealloc)
    permitted).of_eq performed
  have partnerOutcome := (perform_request correct exposes parallel.partnerServes
    (fun _ => mmRealloc) partnerPermitted).of_eq partnerPerformed
  have serves := outcome.serves
  have partnerServes := partnerOutcome.serves
  have value := outcome.result
  have partnerValue := partnerOutcome.result
  rw [next_move] at serves partnerServes value partnerValue
  have start := outcome.memStartBrk
  have partnerStart := partnerOutcome.memStartBrk
  refine ⟨⟨?_, ?_⟩, start, partnerStart, ?_⟩
  · rw [base_of_memStartBrk start]
    exact serves
  · rw [base_of_memStartBrk partnerStart]
    exact partnerServes
  · rw [value, partnerValue]
    change offset _ (Option.getD (Option.map _ _) _) = offset _ (Option.getD (Option.map _ _) _)
    cases (package.next 0 layout request).1 with
    | none => rfl
    | some relative =>
        have positive : ∀ machine : Machine Statics,
            relative + package.base machine ≠ null := by
          intro machine
          rw [base_eq]
          unfold null
          omega
        rw [Option.map_some, Option.map_some, Option.getD_some, Option.getD_some, offset, offset,
          if_neg (positive _), if_neg (positive _), base_eq, base_eq]
        exact congrArg some (by omega)

/-- Runs of the same calls agree wherever their arenas are and whatever is
written in them. -/
theorem issued_parallel (moveEmpty : ∀ distance, movable.move distance empty = empty)
    {arena otherArena : Machine Statics} (isEmpty : arena.Empty) (otherEmpty : otherArena.Empty)
    {calls : List Call} (issued : Issued interface arena calls log client)
    (otherIssued : Issued interface otherArena calls otherLog partner) :
    ∃ layout, Parallel movable client partner layout ∧
      client.machine.memStartBrk = arena.memStartBrk ∧
      partner.machine.memStartBrk = otherArena.memStartBrk ∧
      otherLog.map (seen otherArena.memStartBrk) = log.map (seen arena.memStartBrk) := by
  induction issued generalizing otherLog partner with
  | init returned =>
      cases otherIssued with
      | init otherReturned =>
          have started := (exposes.mmInit isEmpty).of_eq returned
          have otherStarted := (exposes.mmInit otherEmpty).of_eq otherReturned
          have moved : ∀ distance, Layout.initial package.policy distance empty =
              (Layout.initial package.policy 0 empty).move movable distance := by
            intro distance
            have added := movable.add distance empty (0 + 4, 4096)
            rw [moveEmpty, moveEntry] at added
            rw [Layout.initial, Layout.initial, Layout.move, ← added]
            simp only [Nat.add_comm, Nat.zero_add]
          refine ⟨Layout.initial package.policy 0 empty, ⟨?_, ?_⟩, started.2.2, otherStarted.2.2,
            rfl⟩
          · rw [← moved]
            exact ⟨started.2.1, .refl []⟩
          · rw [← moved]
            exact ⟨otherStarted.2.1, .refl []⟩
  | call _ written permitted performed induction =>
      cases otherIssued with
      | call otherIssued otherWritten otherPermitted otherPerformed =>
          rcases induction otherIssued with ⟨layout, parallel, start, otherStart, same⟩
          have written' := parallel.serves.written written
          have otherWritten' := parallel.partnerServes.written otherWritten
          have ready := parallel.written written otherWritten
          rw [← start, ← otherStart, ← written'.2.2, ← otherWritten'.2.2] at same ⊢
          rcases ready.request same permitted otherPermitted with ⟨request, here, there⟩
          rw [here] at permitted performed
          rw [there] at otherPermitted otherPerformed
          rcases ready.step correct exposes mmRealloc permitted otherPermitted performed
            otherPerformed with ⟨next, afterStart, otherAfterStart, results⟩
          have breaks := next.memBrk
          rw [afterStart, otherAfterStart] at breaks
          refine ⟨_, next, afterStart, otherAfterStart, ?_⟩
          rw [List.map_cons, List.map_cons, same]
          exact congrArg (· :: _) (Prod.ext results breaks)

end Parallel

end Procedures

end MallocLab
