import MallocLab.Mm.Requests

/-! # What `mm_realloc` copies

The copy is as long as the new size, and at most as long as the size in the
header of the old block, which counts its header and its footer too.
-/

namespace MallocLab.Mm

open Program Blocks Explicit

variable {client : Client Statics} {layout : Layout (List (Nat × Nat))} {oldptr old size : Nat}

/-- `copy_size` of `mm_realloc`, with the header as `mm_malloc` left it. -/
def copySize (middle : State) (oldptr size : Nat) : Nat := min size (middle.headerSize oldptr)

/-- When `mm_malloc` returned a block, the one `memcpy` of `mm_realloc` reads
bytes of the old payload only. -/
def CopiesPayload (client : Client Statics) (oldptr size : Nat) : Prop :=
  ∀ new middle, mmMalloc size client.machine = some (new, middle) → new ≠ null →
    mmRealloc oldptr size client.machine =
      (do memcpy new oldptr (copySize middle oldptr size)
          mmFree oldptr
          return new : Program State Nat) middle ∧
    oldptr + copySize middle oldptr size ≤
      oldptr + (client.machine.headerSize oldptr - dsize)

/-! ## What a request leaves alone whose size wraps -/

section Apart

variable {machine : State} {front back : List Block} {block owner : Block}
  {blocks : List Block} {free : List Nat} {index : List (Nat × Nat)}
  {p start after word asize : Nat}

/-- `list_add` writes the links of three nodes. -/
theorem listAdd_apart (listp : machine.statics.heapListp = start)
    (succ : machine.succ start = after) (below : start + 8 ≤ p)
    (owned : ∀ node ∈ [p, start, after], machine.Owns node 4 ∧ machine.Owns (node + 4) 4)
    (apart : ∀ node ∈ [p, start, after], word + 4 ≤ node ∨ node + 8 ≤ word) :
    Ensures (listAdd p) machine fun _ other => other.load word = machine.load word := by
  simp only [List.mem_cons, List.not_mem_nil, or_false, forall_eq_or_imp, forall_eq] at owned apart
  rcases owned with ⟨ownsNode, ownsStart, ownsAfter⟩
  rcases apart with ⟨apartNode, apartStart, apartAfter⟩
  have again : ((machine.setSucc p after).setPred p start).succ start = after := by
    rw [Machine.succ, Machine.setPred, Machine.load_store_of_disjoint _ _ (by omega),
      Machine.setSucc, Machine.load_store_of_disjoint _ _ (by omega)]
    exact succ
  simp only [listAdd, ensures_bind, ensures_heapListp, ensures_succP, ensures_setSuccP,
    ensures_setPredP, Machine.setSucc_statics, Machine.setPred_statics, listp, succ, again]
  refine ⟨ownsStart.2, ownsNode.2, ownsNode.1, ownsStart.2, ownsAfter.1, ownsStart.2, ?_⟩
  rw [Machine.setSucc, Machine.load_store_of_disjoint _ _ (by omega),
    Machine.setPred, Machine.load_store_of_disjoint _ _ (by omega),
    Machine.setPred, Machine.load_store_of_disjoint _ _ (by omega),
    Machine.setSucc, Machine.load_store_of_disjoint _ _ (by omega)]

/-- The nodes that `list_add` writes besides the new one. -/
theorem listAdd_nodes (threaded : Threaded lists machine blocks free) {node : Nat}
    (touched : node ∈ [sentinel machine, machine.succ (sentinel machine)]) :
    machine.Owns node 4 ∧ machine.Owns (node + 4) 4 ∧
      ∃ idle, (node, idle) ∈ spots machine.origin blocks ∧ 16 ≤ idle.size ∧
        idle.request? = none := by
  have ringed := opened threaded
  rcases ringed.holds with ⟨_, _, opening, _⟩
  have follows : machine.succ (sentinel machine) ∈ sentinel machine :: free := by
    have member := List.mem_of_mem_head? opening
    simpa [or_comm] using member
  have member : node ∈ sentinel machine :: free := by
    simp only [List.mem_cons, List.not_mem_nil, or_false] at touched
    rcases touched with rfl | rfl
    · exact List.mem_cons_self
    · exact follows
  have owned := owns_node ringed member
  exact ⟨owned.1, owned.2, threaded.members node member⟩

/-- The words of a header lie apart from the links of idle blocks. -/
theorem header_apart {blocks : List Block} {origin node bp : Nat} {idle : Block}
    (spot : (bp, owner) ∈ spots origin blocks) (live : owner.request? = some old)
    (idleSpot : (node, idle) ∈ spots origin blocks) (large : 16 ≤ idle.size)
    (none : idle.request? = none) : bp - 4 + 4 ≤ node ∨ node + 8 ≤ bp - 4 := by
  have bounds := spot_bounds spot
  have distinct : bp ≠ node := by
    intro same
    subst same
    rw [spot_unique spot idleSpot, none] at live
    cases live
  have positive := owner.size_ge
  rcases spots_apart spot idleSpot distinct with before | after <;> omega

/-- Splitting a block writes the words of its tags and the footer before it, and
then lists the remainder. -/
theorem split_apart {machine : State} {p rest word : Nat}
    (threaded : Threaded lists machine blocks free) (few : asize ≤ 8)
    (aligned : asize % 8 = 0) (restAligned : rest % 8 = 0) (large : 16 ≤ rest)
    (small : rest < 2 ^ 31) (low : sentinel machine + 16 ≤ p)
    (inside : p + asize + rest ≤ machine.memBrk)
    (away : word + 12 ≤ p ∨ p + asize + rest ≤ word + 4)
    (apart : ∀ node ∈ [sentinel machine, machine.succ (sentinel machine)],
      word + 4 ≤ node ∨ node + 8 ≤ word) :
    Ensures (do
        put (hdrp p) (pack asize 1)
        put (← ftrp p) (pack asize 1)
        let bp ← nextBlkp p
        put (hdrp bp) (pack rest 0)
        put (← ftrp bp) (pack rest 0)
        listAdd bp) machine
      fun _ other => other.load word = machine.load word := by
  have start : sentinel machine = machine.memStartBrk + 8 := rfl
  have used : sizeField (pack asize 1) = asize := sizeField_pack aligned (by decide) (by omega)
  have usedWord : pack asize 1 < 2 ^ 32 := pack_lt aligned (by decide) (by omega)
  have idle : sizeField (pack rest 0) = rest := sizeField_pack restAligned (by decide) (by omega)
  have idleWord : pack rest 0 < 2 ^ 32 := pack_lt restAligned (by decide) (by omega)
  generalize written : (((machine.store (p - 4) (pack asize 1)).store (p + asize - 8)
    (pack asize 1)).store (p + asize - 4) (pack rest 0)).store (p + asize + rest - 8)
    (pack rest 0) = other
  have elsewhere : ∀ {address : Nat}, address + 12 ≤ p ∨ p + asize + rest ≤ address + 4 →
      other.load address = machine.load address := by
    intro address outside
    rw [← written, Machine.load_store_of_disjoint _ _ (by omega),
      Machine.load_store_of_disjoint _ _ (by omega),
      Machine.load_store_of_disjoint _ _ (by omega),
      Machine.load_store_of_disjoint _ _ (by omega)]
  have same : other.statics = machine.statics ∧ other.memStartBrk = machine.memStartBrk ∧
      other.memBrk = machine.memBrk := by
    rw [← written]
    exact ⟨rfl, rfl, rfl⟩
  have first : (machine.store (p - 4) (pack asize 1)).load (p - 4) = pack asize 1 :=
    machine.load_store_same _ usedWord
  have second : ((machine.store (p - 4) (pack asize 1)).store (p + asize - 8)
      (pack asize 1)).load (p - 4) = pack asize 1 := by
    rw [Machine.load_store_of_disjoint _ _ (by omega)]
    exact first
  have third : (((machine.store (p - 4) (pack asize 1)).store (p + asize - 8)
      (pack asize 1)).store (p + asize - 4) (pack rest 0)).load (p + asize - 4) = pack rest 0 :=
    Machine.load_store_same _ _ idleWord
  have listed : Ensures (listAdd (p + asize)) other fun _ final =>
      final.load word = machine.load word := by
    rw [← elsewhere away]
    have owner : other.statics.heapListp = sentinel machine := by
      rw [same.1]
      exact threaded.holds.1
    have follows : other.succ (sentinel machine) = machine.succ (sentinel machine) :=
      elsewhere (by omega)
    apply listAdd_apart owner follows (by omega)
    · intro node member
      rw [Machine.Owns, Machine.Owns, same.2.1, same.2.2]
      rcases List.mem_cons.mp member with rfl | touched
      · omega
      · have owned := listAdd_nodes threaded touched
        exact ⟨owned.1, owned.2.1⟩
    · intro node member
      rcases List.mem_cons.mp member with rfl | touched
      · omega
      · exact apart node touched
  simp only [ensures_bind, ensures_put, ensures_ftrp, ensures_nextBlkp, hdrp_eq, first, second,
    third, used, idle, written, Machine.Owns, Machine.store_memStartBrk, Machine.store_memBrk]
  refine ⟨?_, ?_, ?_, ?_, ?_, ?_, ?_, listed⟩
  all_goals omega

/-- A request that wrapped to less than the smallest block is placed with a
remainder that is not a block. The headers of the live blocks stay. -/
theorem place_apart (holds : procedures.Holds machine ⟨front ++ block :: back, index⟩)
    (isFree : block.isFree = true) {bp : Nat}
    (spot : (bp, owner) ∈ spots (machine.first prologue) (front ++ block :: back))
    (live : owner.request? = some old) (few : asize ≤ 8) (aligned : asize % 8 = 0) :
    Ensures (place (machine.first prologue + total front + 4) asize) machine
      fun _ other => other.headerSize bp = machine.headerSize bp := by
  generalize position : machine.first prologue + total front + 4 = p
  have inHeap : (bp, owner) ∈ spots machine.origin (prologue :: (front ++ block :: back)) := by
    apply List.mem_cons_of_mem
    exact spot
  have blockSpot : (p, block) ∈ spots machine.origin (prologue :: (front ++ block :: back)) := by
    apply mem_spots.mpr
    refine ⟨prologue :: front, back, by simp, ?_⟩
    rw [← position, total_cons, Machine.first]
    omega
  have distinct : bp ≠ p := by
    intro same
    subst same
    rw [spot_unique inHeap blockSpot, Block.request?_of_isFree isFree] at live
    cases live
  have beside := spots_apart inHeap blockSpot distinct
  have bounds := spot_bounds inHeap
  have ownerPositive := owner.size_ge
  have blockLarge := Block.size_ge_of_isFree isFree
  have here := holds.threaded.tiled.blockAt blockSpot
  have header := (holds.threaded.tiled.blockAt inHeap).header
  simp only [place, placeWith, ensures_bind, ensures_getSize, hdrp_eq, here.header, here.size]
  refine ⟨here.ownsHeader,
    (holds.take lifo_lawful implements isFree position.symm).mono fun _ middle => ?_⟩
  rintro ⟨taken, keeps⟩
  have first : p = middle.first prologue + total front + 4 := by rw [keeps.first, position]
  rcases taken.here first with ⟨hereMiddle, small, low, atStart, inside⟩
  have threaded := Threaded.comap_iff.mp taken.threaded
  have spotMiddle : (bp, owner) ∈ spots middle.origin ((prologue :: front) ++ ([block] ++ back)) := by
    rw [keeps.arena.origin]
    simpa using inHeap
  have kept : middle.load (bp - 4) = machine.load (bp - 4) := by
    rw [header, (threaded.tiled.blockAt spotMiddle).header]
  have difference : wrapSub block.size asize = block.size - asize :=
    wrapSub_of_le (by omega) (by omega)
  rw [difference]
  have same : ∀ other : State, other.load (bp - 4) = middle.load (bp - 4) →
      other.headerSize bp = machine.headerSize bp :=
    fun _ equal => congrArg sizeField (equal.trans kept)
  have blockAligned := block.aligned
  split
  case isTrue split =>
    unfold dsize at split
    have start : sentinel middle = middle.memStartBrk + 8 := rfl
    have behind : p = middle.memStartBrk + 4 + 16 + total front + 4 := first
    have nodes : ∀ node ∈ [sentinel middle, middle.succ (sentinel middle)],
        bp - 4 + 4 ≤ node ∨ node + 8 ≤ bp - 4 := by
      intro node touched
      rcases listAdd_nodes threaded touched with ⟨_, _, idle, idleSpot, large, none⟩
      exact header_apart spotMiddle live idleSpot large none
    have stamps : Ensures _ middle fun _ other => other.load (bp - 4) = middle.load (bp - 4) :=
      split_apart threaded few aligned (by omega : (block.size - asize) % 8 = 0) split (by omega)
        (by omega : sentinel middle + 16 ≤ p) (by omega) (by omega) nodes
    have outcome := stamps.mono fun _ other => same other
    simpa only [hdrp_eq] using outcome
  case isFalse whole =>
    unfold dsize at whole
    have size : sizeField (pack block.size 1) = block.size :=
      sizeField_pack blockAligned (by decide) (by omega)
    have word : pack block.size 1 < 2 ^ 32 := pack_lt blockAligned (by decide) (by omega)
    have read : (middle.store (p - 4) (pack block.size 1)).load (p - 4) = pack block.size 1 :=
      middle.load_store_same _ word
    simp only [ensures_bind, ensures_put, ensures_ftrp, read, size, Machine.Owns,
      Machine.store_memStartBrk, Machine.store_memBrk]
    refine ⟨hereMiddle.ownsHeader, hereMiddle.ownsHeader, hereMiddle.ownsFooter, same _ ?_⟩
    rw [Machine.load_store_of_disjoint _ _ (by omega),
      Machine.load_store_of_disjoint _ _ (by omega)]

end Apart

section

variable (serves : procedures.Serves client layout)

include serves

/-- A request that wrapped leaves the header of every live block, whatever it
does to the rest of the heap. -/
theorem header_of_huge (huge : 2 ^ 32 ≤ size + 15) (word : size < 2 ^ 32)
    (live : (oldptr, old) ∈ client.live) {new : Nat} {middle : State}
    (outcome : mmMalloc size client.machine = some (new, middle)) (nonzero : new ≠ null) :
    middle.headerSize oldptr = client.machine.headerSize oldptr := by
  rcases adjustedSize_of_huge huge word with ⟨few, aligned⟩
  rcases mem_liveSpots.mp (serves.live.mem_iff.mp live) with ⟨owner, spot, isLive⟩
  have extend : max' (adjustedSize size) chunkSize = 4096 := by
    have chunk : chunkSize = 4096 := rfl
    rw [max', chunk, if_neg (by omega)]
  have positive : size ≠ 0 := by omega
  have ensured : Ensures (mmMalloc size) client.machine fun value other =>
      value = new ∧ other = middle := ⟨new, middle, outcome, rfl, rfl⟩
  suffices kept : Ensures (mmMalloc size) client.machine fun _ other =>
      other.headerSize oldptr = client.machine.headerSize oldptr from kept.of_eq outcome
  cases found : lifo.find layout.index (adjustedSize size) with
  | some address =>
      rcases serves.holds.wellFormed.find_some lifo_lawful found with
        ⟨front, block, back, shape, position, isFree, _⟩
      rcases layout with ⟨blocks, index⟩
      subst shape
      have placed := place_apart serves.holds isFree spot isLive few aligned
      have used : address ≠ null := by
        unfold null
        omega
      rw [mmMalloc, mallocWith]
      simp only [if_neg positive]
      rw [ensures_bind_of_eq (findFit_outcome serves _), found, Option.getD_some, if_pos used,
        ensures_bind, position]
      exact placed.mono fun _ other same => (ensures_pure _ _ _).mpr same
  | none =>
      have noWrap : client.machine.memBrk + 4096 < 2 ^ 32 :=
        extends_below serves positive extend rfl (by decide) found ensured
      by_cases room : client.machine.memBrk + 4096 ≤ client.machine.memMaxAddr
      · rw [mmMalloc, mallocWith]
        simp only [if_neg positive, extend]
        have extends_eq : extendHeap (4096 / wsize) = extendHeapWith coalesce chunk.size :=
          correct.extends_eq chunk.aligned (by decide)
        rw [ensures_bind_of_eq (findFit_outcome serves _), found, Option.getD_none,
          if_neg (by simp), extends_eq, ensures_bind]
        apply (correct.extend serves.holds (rfl : chunk.isFree = true) room).mono
        rintro bp other ⟨position, grown, preserves⟩
        have used : bp ≠ null := by
          rw [position, Layout.growSpot]
          unfold null
          omega
        have base : other.first prologue = client.machine.first prologue := preserves.first
        have appended : (oldptr, owner) ∈
            spots (procedures.base client.machine) (layout.blocks ++ [chunk]) := by
          rw [spots_append]
          exact List.mem_append_left _ spot
        have settled : (oldptr, owner) ∈ spots (other.first prologue)
            (Blocks.settle layout.blocks chunk []) := by
          rw [base]
          exact Layout.used_settle rfl (Block.isFree_of_live isLive) appended
        have absorbed : (chunk.absorb (layout.blocks.rtakeWhile Block.isFree) []).isFree = true :=
          rfl
        have placed := place_apart grown absorbed settled isLive few aligned
        have same : other.headerSize oldptr = client.machine.headerSize oldptr := by
          have after := grown.threaded.tiled.headerSize (List.mem_cons_of_mem _ settled)
          rw [after, (serves.block_facts spot).1]
        rw [if_neg used, ensures_bind, position, Layout.growSpot]
        rw [base] at placed
        apply placed.mono
        intro _ final equal
        exact (ensures_pure _ _ _).mpr (equal.trans same)
      · have refused := refused_of_full serves positive rfl extend rfl (by decide) found
          fun _ => ⟨noWrap, by omega⟩
        cases refused.symm.trans outcome
        exact (nonzero rfl).elim

/-- The header of the old block is what it was when `mm_realloc` reads it. -/
theorem copySize_of_served (word : size < 2 ^ 32) (live : (oldptr, old) ∈ client.live) {new : Nat}
    {middle : State} (outcome : mmMalloc size client.machine = some (new, middle))
    (nonzero : new ≠ null) :
    copySize middle oldptr size = min size (client.machine.headerSize oldptr) := by
  by_cases small : size < 2 ^ 31
  · rw [copySize, (correct.beside serves small live outcome nonzero).size]
  · by_cases below : size + 15 < 2 ^ 32
    · cases (refused_of_large serves (not_lt.mp small) below).1.symm.trans outcome
      exact (nonzero rfl).elim
    · rw [copySize, header_of_huge serves (not_lt.mp below) word live outcome nonzero]

theorem headerSize_bounds (live : (oldptr, old) ∈ client.live) :
    16 ≤ client.machine.headerSize oldptr ∧ client.machine.headerSize oldptr < 2 ^ 31 := by
  rcases mem_liveSpots.mp (serves.live.mem_iff.mp live) with ⟨owner, spot, _⟩
  have facts := serves.block_facts spot
  rw [facts.1]
  refine ⟨facts.2.1, serves.holds.threaded.tiled.size_lt ?_⟩
  rcases mem_spots.mp spot with ⟨front, back, shape, _⟩
  rw [shape]
  simp

/-- A request that the list can serve moves the block. -/
theorem realloc_of_found {address : Nat} (positive : size ≠ 0) (small : size < 2 ^ 31)
    (live : (oldptr, old) ∈ client.live)
    (found : lifo.find layout.index (roundUp size) = some address) :
    Ensures (mmRealloc oldptr size) client.machine fun value _ => value = address := by
  have noWrap := (Procedures.noWrap_iff correct exposes serves small).mp
    (noWrap_of_found serves small found)
  apply (correct.mmRealloc serves.holds small noWrap (serves.live.mem_iff.mp live)).mono
  rintro value _ ⟨rfl, _⟩
  have served : procedures.malloc client.machine layout size =
      (some address, layout.serveAt lifo (procedures.base client.machine) address size) := by
    change Layout.malloc lifo _ _ _ _ = _
    rw [Layout.malloc, if_neg positive, found]
  have moved : procedures.realloc client.machine layout oldptr size = _ :=
    Layout.realloc_of_some served
  rw [moved]
  rfl

end

theorem served_of_moved {machine : State}
    (succeeds : Ensures (mmRealloc oldptr size) machine fun value _ => value ≠ null) :
    ∃ new middle, mmMalloc size machine = some (new, middle) ∧ new ≠ null := by
  rcases (ensures_bind _ _ _ _).mp succeeds with ⟨new, middle, outcome, rest⟩
  refine ⟨new, middle, outcome, fun isNull => ?_⟩
  rw [if_pos isNull, ensures_pure] at rest
  exact rest rfl

/-- When `mm_realloc` returns a block it copies user data only, if and only if
the new size is at most the payload of the old block. -/
theorem copies_payload_iff (reached : Reached client) (live : (oldptr, old) ∈ client.live)
    (word : size < 2 ^ 32)
    (succeeds : Ensures (mmRealloc oldptr size) client.machine fun value _ => value ≠ null) :
    CopiesPayload client oldptr size ↔ size + dsize ≤ client.machine.headerSize oldptr := by
  rcases reached.serves with ⟨layout, serves⟩
  have bounds := headerSize_bounds serves live
  rw [dsize]
  constructor
  · intro copies
    rcases served_of_moved succeeds with ⟨new, middle, outcome, nonzero⟩
    have inside := (copies new middle outcome nonzero).2
    rw [copySize_of_served serves word live outcome nonzero, dsize] at inside
    omega
  · intro fits new middle outcome nonzero
    have small : size < 2 ^ 31 := by omega
    rcases correct.served_spots serves small live outcome nonzero with
      ⟨_, owner, holds, kept, _⟩
    have here := holds.threaded.tiled.blockAt (List.mem_cons_of_mem _ kept)
    refine ⟨mmRealloc_of_served outcome nonzero here.ownsHeader, ?_⟩
    rw [copySize_of_served serves word live outcome nonzero, dsize]
    omega

theorem copies_payload_two_live : ∃ client : Client Statics,
    client.live = [(144, 50), (32, 100)] ∧
      (CopiesPayload client 32 50 ↔ 50 + dsize ≤ client.machine.headerSize 32) := by
  rcases exists_two_live with ⟨client, run, live, serves⟩
  have reached : Reached client := run.reachable arena_empty fun _ _ => trivial
  have member : (32, 100) ∈ client.live := by
    rw [live]
    exact List.mem_cons_of_mem _ List.mem_cons_self
  have found : lifo.find twoLive.index (roundUp 50) = some 208 := rfl
  have moves := realloc_of_found serves (by decide) (by decide) member found
  exact ⟨client, live, copies_payload_iff reached member (by decide)
    (moves.mono fun _ _ => by rintro rfl; decide)⟩

/-- A larger block gets the footer of the old one and the header behind it. -/
theorem copies_footer : ∃ client : Client Statics, Reached client ∧
    client.live = [(144, 50), (32, 100)] ∧
      Ensures (mmRealloc 32 200) client.machine (fun value _ => value ≠ null) ∧
      ¬CopiesPayload client 32 200 := by
  rcases exists_two_live with ⟨client, run, live, serves⟩
  have reached : Reached client := run.reachable arena_empty fun _ _ => trivial
  have member : (32, 100) ∈ client.live := by
    rw [live]
    exact List.mem_cons_of_mem _ List.mem_cons_self
  have second : (144, 50) ∈ client.live := by
    rw [live]
    exact List.mem_cons_self
  have found : lifo.find twoLive.index (roundUp 200) = some 208 := rfl
  have moves : Ensures (mmRealloc 32 200) client.machine fun value _ => value ≠ null :=
    (realloc_of_found serves (by decide) (by decide) member found).mono
      fun _ _ => by rintro rfl; decide
  refine ⟨client, reached, live, moves, fun copies => ?_⟩
  rcases served_of_moved moves with ⟨new, middle, outcome, nonzero⟩
  -- the second live block bounds the size of the first
  rcases mem_liveSpots.mp (serves.live.mem_iff.mp member) with ⟨owner, spot, _⟩
  rcases mem_liveSpots.mp (serves.live.mem_iff.mp second) with ⟨_, nextSpot, _⟩
  have apart := spots_apart spot nextSpot (by decide)
  have bounds := headerSize_bounds serves member
  have header := (serves.block_facts spot).1
  have inside := (copies new middle outcome nonzero).2
  rw [copySize_of_served serves (by decide) member outcome nonzero, dsize] at inside
  have positive := spot_bounds nextSpot
  omega

end MallocLab.Mm
