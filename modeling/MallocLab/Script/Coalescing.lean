import MallocLab.BoundaryTag.Single
import MallocLab.Driver.Packages
import MallocLab.Mm.Requests
import MallocLab.Script.Pipeline

/-! # The coalescing trace

Each round of `gen_coalescing.pl` leaves the heap as one free block again. So
the heap is as long behind the last round as behind the first one, whatever the
package does with its free blocks.
-/

namespace MallocLab.Script

open Blocks Driver

/-! ## The heap -/

section Heap

variable {Index : Type} {policy : Policy Index} {origin room : Nat} {layout : Layout Index}

/-- A block that serves 4095 bytes. -/
def small : Block := Block.ofLive 4104 4095 rfl (by decide) (by decide)

/-- A block that serves 8190 bytes. -/
def double : Block := Block.ofLive 8200 8190 rfl (by decide) (by decide)

/-- A free block. -/
def gap (size : Nat) (aligned : size % 8 = 0) (large : 16 ≤ size) : Block :=
  Block.ofFree size aligned large

/-- The heap behind a round. -/
def whole : List Block := [gap 12304 rfl (by decide)]

/-- The heap in the middle of a round. -/
def both : List Block := [small, small, chunk]

/-- The heap before the first round or behind a round. -/
def Between (policy : Policy Index) (origin : Nat) (layout : Layout Index) : Prop :=
  layout.Stands policy origin [chunk] ∨ layout.Stands policy origin whole

variable (lawful : policy.Lawful) (exhaustive : policy.Exhaustive) (fits : 12304 ≤ room)

include lawful exhaustive fits

/-- The two allocations of a round. -/
theorem malloc_both (between : Between policy origin layout) : ∃ middle after,
    layout.malloc policy origin room 4095 = (some (origin + 4), middle) ∧
      middle.malloc policy origin room 4095 = (some (origin + 4108), after) ∧
      after.Stands policy origin both := by
  rcases between with stands | stands
  · have empty : layout.Stands policy origin ([] ++ [chunk]) := stands
    have enough : total [] + chunk.size + extension 4095 ≤ room := Nat.le_trans (by decide) fits
    obtain ⟨middle, first, halfway⟩ := empty.malloc_grows lawful rfl (by simp) (by decide)
      (by decide) enough
    have shape : middle.Stands policy origin ([small] ++ [chunk]) := halfway
    have more : total [small] + chunk.size + extension 4095 ≤ room := Nat.le_trans (by decide) fits
    obtain ⟨after, second, final⟩ := shape.malloc_grows lawful rfl (by decide) (by decide)
      (by decide) more
    exact ⟨middle, after, first, second, final⟩
  · have empty : layout.Stands policy origin ([] ++ gap 12304 rfl (by decide) :: []) := stands
    obtain ⟨middle, first, halfway⟩ := empty.malloc_fits lawful exhaustive rfl (by simp)
      (show 0 < 4095 by decide) (by decide)
    have shape : middle.Stands policy origin ([small] ++ gap 8200 rfl (by decide) :: []) := halfway
    obtain ⟨after, second, final⟩ := shape.malloc_fits lawful exhaustive rfl (by decide)
      (show 0 < 4095 by decide) (by decide)
    exact ⟨middle, after, first, second, final⟩

omit exhaustive fits in
/-- The two frees of a round. -/
theorem release_both (stands : layout.Stands policy origin both) :
    ((layout.release policy origin (origin + 4)).release policy origin
      (origin + 4108)).Stands policy origin whole := by
  have first : layout.Stands policy origin ([] ++ small :: [small, chunk]) := stands
  have halfway := first.release lawful (rfl : small.request? = some 4095)
  have second : (layout.release policy origin (origin + 4)).Stands policy origin
      ([gap 4104 rfl (by decide)] ++ small :: [chunk]) := halfway
  exact second.release lawful (rfl : small.request? = some 4095)

omit fits in
/-- The large block of a round. -/
theorem malloc_release_double (room : Nat) (stands : layout.Stands policy origin whole) : ∃ after,
    layout.malloc policy origin room 8190 = (some (origin + 4), after) ∧
      (after.release policy origin (origin + 4)).Stands policy origin whole := by
  have empty : layout.Stands policy origin ([] ++ gap 12304 rfl (by decide) :: []) := stands
  obtain ⟨after, served, shape⟩ := empty.malloc_fits lawful exhaustive rfl (by simp)
    (show 0 < 8190 by decide) (by decide)
  have live : after.Stands policy origin ([] ++ double :: [gap 4104 rfl (by decide)]) := shape
  exact ⟨after, served, live.release lawful (rfl : double.request? = some 8190)⟩

end Heap

/-! ## The replay -/

theorem matches_append {first second : List Entry} {ops : List TraceOp}
    (matched : List.Forall₂ Matches (first ++ second) ops) : ∃ early late, ops = early ++ late ∧
      List.Forall₂ Matches first early ∧ List.Forall₂ Matches second late := by
  induction first generalizing ops with
  | nil => exact ⟨[], ops, rfl, .nil, matched⟩
  | cons entry first induction =>
      cases matched with
      | cons head tail =>
          obtain ⟨early, late, rfl, before, behind⟩ := induction tail
          exact ⟨_ :: early, late, rfl, .cons head before, behind⟩

section Replay

variable {Statics Index : Type} {package : Procedures Statics Index} {start : Nat}
  {empty : Index} {layout after : Layout Index} {blocks : Nat → Nat} {op : TraceOp}
  {ops : List TraceOp} {id size p n i : Nat} {position : Position (Layout Index)}

/-- Where the blocks of an arena begin. -/
abbrev blocksStart (package : Procedures Statics Index) (start : Nat) : Nat :=
  start + 4 + package.prologue.size

theorem serve_alloc (matched : Matches (.alloc id size) op) (bounded : size < 2 ^ 31)
    (answer : layout.malloc package.policy (blocksStart package start) package.room size =
      (some p, after)) :
    (arenaAllocator package start empty).serve ⟨layout, blocks⟩ op =
      some ⟨after, Function.update blocks id p⟩ := by
  rcases matched with ⟨type, index, given⟩
  have request : op.call blocks = .malloc size := by
    rw [TraceOp.call, type, given size rfl]
    exact congrArg Request.malloc (toSizeT_of_lt (by omega) (by omega))
  have sized : op.type ≠ .free := by
    rw [type]
    exact OpType.noConfusion
  refine (Allocator.serve_of_sized sized).mpr ⟨p, ?_, ?_⟩
  · rw [request]
    exact congrArg Prod.fst answer
  · rw [request, index]
    exact congrArg (Position.mk · _) (congrArg Prod.snd answer).symm

theorem serve_free (matched : Matches (.free id) op) (owned : blocks id = p) :
    (arenaAllocator package start empty).serve ⟨layout, blocks⟩ op =
      some ⟨layout.release package.policy (blocksStart package start) p, blocks⟩ := by
  subst owned
  rcases matched with ⟨type, index, _⟩
  have request : op.call blocks = .free (blocks id) := by
    rw [TraceOp.call, type, index]
    rfl
  refine (Allocator.serve_of_free type).mpr ?_
  rw [request]
  rfl

variable (lawful : package.policy.Lawful) (exhaustive : package.policy.Exhaustive)
  (fits : 12304 ≤ package.room)

include lawful exhaustive fits

/-- A round leaves one free block. -/
theorem replay_round (matched : List.Forall₂ Matches (coalescingRound 4095 i) ops)
    (between : Between package.policy (blocksStart package start) position.heap) : ∃ final,
      (arenaAllocator package start empty).replay position ops = some final ∧
        final.heap.Stands package.policy (blocksStart package start) whole := by
  obtain ⟨layout, blocks⟩ := position
  rcases malloc_both lawful exhaustive fits between with ⟨middle, heap, first, second, shape⟩
  have freed := release_both lawful shape
  rcases malloc_release_double lawful exhaustive package.room freed with
    ⟨large, served, released⟩
  simp only [coalescingRound, List.forall₂_cons_left_iff, List.forall₂_nil_left_iff] at matched
  obtain ⟨op1, _, match1, ⟨op2, _, match2, ⟨op3, _, match3, ⟨op4, _, match4, ⟨op5, _, match5,
    ⟨op6, _, match6, rfl, rfl⟩, rfl⟩, rfl⟩, rfl⟩, rfl⟩, rfl⟩ := matched
  let origin := blocksStart package start
  let one := Function.update blocks (3 * i) (origin + 4)
  let two := Function.update one (3 * i + 1) (origin + 4108)
  let three := Function.update two (3 * i + 2) (origin + 4)
  have firstOwned : two (3 * i) = origin + 4 := by
    simp [two, one]
  have secondOwned : two (3 * i + 1) = origin + 4108 := Function.update_self _ _ _
  have thirdOwned : three (3 * i + 2) = origin + 4 := Function.update_self _ _ _
  refine ⟨⟨large.release package.policy origin (origin + 4), three⟩, ?_, released⟩
  simp only [Allocator.replay, List.foldlM_cons, List.foldlM_nil, Option.bind_eq_bind]
  rw [serve_alloc match1 (by decide) first, Option.bind_some,
    serve_alloc match2 (by decide) second, Option.bind_some,
    serve_free match3 firstOwned, Option.bind_some, serve_free match4 secondOwned,
    Option.bind_some, serve_alloc match5 (by decide) served, Option.bind_some,
    serve_free match6 thirdOwned, Option.bind_some]
  rfl

/-- So do all rounds. -/
theorem replay_rounds
    (matched : List.Forall₂ Matches ((List.range n).flatMap (coalescingRound 4095)) ops)
    (chunks : position.heap.Stands package.policy (blocksStart package start) [chunk]) :
    ∃ final, (arenaAllocator package start empty).replay position ops = some final ∧
      final.heap.Stands package.policy (blocksStart package start)
        (if n = 0 then [chunk] else whole) := by
  induction n generalizing ops with
  | zero =>
      cases matched
      exact ⟨position, rfl, chunks⟩
  | succ n induction =>
      rw [List.range_succ, List.flatMap_append, List.flatMap_cons, List.flatMap_nil,
        List.append_nil] at matched
      obtain ⟨early, late, rfl, before, round⟩ := matches_append matched
      rcases induction before with ⟨middle, replayed, stands⟩
      have between : Between package.policy (blocksStart package start) middle.heap := by
        split at stands
        · exact .inl stands
        · exact .inr stands
      rcases replay_round lawful exhaustive fits round between with ⟨final, more, reached⟩
      refine ⟨final, ?_, reached⟩
      rw [Allocator.replay, List.foldlM_append]
      exact (congrArg (Option.bind · _) replayed).trans more

end Replay

/-! ## The live sizes -/

section Totals

variable {numIds n i id : Nat} {done ops : List TraceOp} {op : TraceOp} {sizes : Nat → Int}
  {total : Int} {entry : Entry}

/-- The sizes of the ids behind some operations, and their sum. -/
structure Tally (numIds : Nat) (done : List TraceOp) (sizes : Nat → Int) (total : Int) : Prop where
  sizes : currentSize done = sizes
  total : liveTotal numIds done = total

/-- The size of the block of its id behind a request. -/
def Entry.sizeAfter (entry : Entry) : Int := (entry.size?.getD 0 : Nat)

theorem Matches.sizeAfter (matched : Matches entry op) : op.sizeAfter = entry.sizeAfter := by
  rcases matched with ⟨type, _, size⟩
  rw [TraceOp.sizeAfter, type]
  cases entry with
  | alloc id count => exact size count rfl
  | realloc id count => exact size count rfl
  | free id => rfl

theorem Tally.concat (tally : Tally numIds done sizes total) (matched : Matches entry op)
    (known : entry.id < numIds) :
    Tally numIds (done ++ [op]) (Function.update sizes entry.id entry.sizeAfter)
      (total + (entry.sizeAfter - sizes entry.id)) where
  sizes := by rw [currentSize_concat, tally.sizes, matched.index, matched.sizeAfter]
  total := by
    rw [liveTotal_concat (matched.index ▸ known), tally.total, tally.sizes, matched.index,
      matched.sizeAfter]

/-- Between two rounds nothing is live, and no total was larger than that of
two small blocks. -/
structure Rested (numIds i : Nat) (done : List TraceOp) : Prop where
  sizes : ∀ id, 3 * i ≤ id → currentSize done id = 0
  total : liveTotal numIds done = 0
  bounded : ∀ total ∈ prefixTotals numIds done, total ≤ 8190

theorem Rested.round (rested : Rested numIds i done)
    (matched : List.Forall₂ Matches (coalescingRound 4095 i) ops) (known : 3 * i + 2 < numIds) :
    Rested numIds (i + 1) (done ++ ops) ∧ 8190 ∈ prefixTotals numIds (done ++ ops) := by
  simp only [coalescingRound, List.forall₂_cons_left_iff, List.forall₂_nil_left_iff] at matched
  obtain ⟨op1, _, match1, ⟨op2, _, match2, ⟨op3, _, match3, ⟨op4, _, match4, ⟨op5, _, match5,
    ⟨op6, _, match6, rfl, rfl⟩, rfl⟩, rfl⟩, rfl⟩, rfl⟩, rfl⟩ := matched
  have zero : ∀ offset, currentSize done (3 * i + offset) = 0 := fun offset =>
    rested.sizes _ (Nat.le_add_right _ _)
  have zero0 : currentSize done (3 * i) = 0 := zero 0
  have tally0 : Tally numIds done (currentSize done) 0 := ⟨rfl, rested.total⟩
  have tally1 := tally0.concat match1 (by simp only [Entry.id]; omega)
  have tally2 := tally1.concat match2 (by simp only [Entry.id]; omega)
  have tally3 := tally2.concat match3 (by simp only [Entry.id]; omega)
  have tally4 := tally3.concat match4 (by simp only [Entry.id]; omega)
  have tally5 := tally4.concat match5 (by simp only [Entry.id]; omega)
  have tally6 := tally5.concat match6 (by simp only [Entry.id]; omega)
  have totals : prefixTotals numIds (done ++ [op1] ++ [op2] ++ [op3] ++ [op4] ++ [op5] ++ [op6]) =
      insert 0 (insert 8190 (insert 0 (insert 4095 (insert 8190 (insert 4095
        (prefixTotals numIds done)))))) := by
    simp only [prefixTotals_concat, tally1.total, tally2.total, tally3.total, tally4.total,
      tally5.total, tally6.total]
    simp [Entry.id, Entry.sizeAfter, Entry.size?, zero, zero0]
  have joined : done ++ [op1, op2, op3, op4, op5, op6] =
      done ++ [op1] ++ [op2] ++ [op3] ++ [op4] ++ [op5] ++ [op6] := by simp
  rw [joined]
  refine ⟨⟨fun id later => ?_, ?_, ?_⟩, ?_⟩
  · rw [tally6.sizes]
    simp only [Entry.id, Function.update_apply]
    rw [if_neg (by omega), if_neg (by omega), if_neg (by omega), if_neg (by omega),
      if_neg (by omega), if_neg (by omega), rested.sizes id (by omega)]
  · rw [tally6.total]
    simp [Entry.id, Entry.sizeAfter, Entry.size?, zero, zero0]
  · rw [totals]
    simp only [Set.forall_mem_insert]
    exact ⟨by decide, by decide, by decide, by decide, by decide, by decide, rested.bounded⟩
  · rw [totals]
    exact .inr (.inl rfl)

theorem rested_rounds
    (matched : List.Forall₂ Matches ((List.range n).flatMap (coalescingRound 4095)) ops)
    (known : 3 * n ≤ numIds) :
    Rested numIds n ops ∧ (0 < n → 8190 ∈ prefixTotals numIds ops) := by
  induction n generalizing ops with
  | zero =>
      cases matched
      refine ⟨⟨fun _ _ => rfl, ?_, ?_⟩, fun some => absurd some (Nat.lt_irrefl 0)⟩
      · simp [liveTotal, currentSize]
      · rintro total ⟨earlier, inside, rfl⟩
        rw [List.prefix_nil.mp inside]
        simp [liveTotal, currentSize]
  | succ n induction =>
      rw [List.range_succ, List.flatMap_append, List.flatMap_cons, List.flatMap_nil,
        List.append_nil] at matched
      obtain ⟨early, late, rfl, before, round⟩ := matches_append matched
      have rested := (induction before (by omega)).1.round round (by omega)
      exact ⟨rested.1, fun _ => rested.2⟩

/-- The greatest sum of live sizes is that of one round. -/
theorem isGreatest_rounds
    (matched : List.Forall₂ Matches ((List.range n).flatMap (coalescingRound 4095)) ops)
    (known : 3 * n ≤ numIds) (some : 0 < n) : IsGreatest (prefixTotals numIds ops) 8190 :=
  ⟨(rested_rounds matched known).2 some, (rested_rounds matched known).1.bounded⟩

end Totals

/-! ## The driver -/

section Main

variable {Statics Heap : Type} {allocator : Allocator Heap} {ops : List TraceOp}
  {position final : Position Heap} {i n : Nat}

/-- Without requests to resize a block, a replay is objected to only where it
is refused. -/
theorem judge_of_replay (replayed : allocator.replay position ops = some final)
    (kinds : ∀ op ∈ ops, op.type ≠ .realloc) : allocator.judge i position ops = .ok final := by
  induction ops generalizing i position with
  | nil =>
      cases replayed
      rfl
  | cons op ops induction =>
      rw [List.forall_mem_cons] at kinds
      rw [Allocator.replay, List.foldlM_cons] at replayed
      rcases Option.bind_eq_some_iff.mp replayed with ⟨next, served, rest⟩
      have checked : allocator.check position op = .ok next := by
        simp only [Allocator.check, served, kinds.1, false_and, if_false]
      rw [Allocator.judge, checked]
      exact induction rest kinds.2

theorem kinds_of_matches {entries : List Entry} (matched : List.Forall₂ Matches entries ops)
    (kinds : ∀ entry ∈ entries, entry.type ≠ .realloc) : ∀ op ∈ ops, op.type ≠ .realloc := by
  induction matched with
  | nil => exact fun op member => absurd member List.not_mem_nil
  | cons head _ induction =>
      rw [List.forall_mem_cons] at kinds ⊢
      exact ⟨head.type ▸ kinds.1, induction kinds.2⟩

theorem kinds_genCoalescing : ∀ entry ∈ (genCoalescing n).entries, entry.type ≠ .realloc := by
  intro entry member
  simp only [genCoalescing, coalescingRound, List.mem_flatMap, List.mem_range, List.mem_cons,
    List.not_mem_nil, or_false] at member
  rcases member with ⟨i, _, rfl | rfl | rfl | rfl | rfl | rfl⟩ <;> exact OpType.noConfusion

end Main

section Linked

variable {Statics Index : Type} {package : Procedures Statics Index}
  {interface : Interface Statics} {empty : Index} {state : State Statics} {loaded : Loaded}
  {entries : List Entry} {ops : List TraceOp} {n start least most : Nat}

theorem extension_mono (le : least ≤ most) : extension least ≤ extension most := by
  unfold extension roundUp
  omega

/-- Where the largest block extends no heap too far, no block does. -/
theorem addressable_of_matches (matched : List.Forall₂ Matches entries ops)
    (sizes : ∀ entry ∈ entries, ∀ size ∈ entry.size?, size ≤ most)
    (bounded : start + maxHeap + extension most < 2 ^ 32) :
    ∀ op ∈ ops, op.type ≠ .free → start + maxHeap + extension op.size.toNat < 2 ^ 32 := by
  induction matched with
  | nil => exact fun op member => absurd member List.not_mem_nil
  | @cons entry op _ _ head _ induction =>
      rw [List.forall_mem_cons] at sizes ⊢
      refine ⟨fun sized => ?_, induction sizes.2⟩
      rw [head.type] at sized
      obtain ⟨size, given⟩ := Entry.exists_size sized
      rw [head.size size given, Int.toNat_natCast]
      have grows := extension_mono (sizes.1 size given)
      omega

/-- What `mm_init` builds is one chunk. -/
theorem initial_stands (exposes : package.Exposes interface empty) (begun : Begun state) :
    (Layout.initial package.policy (blocksStart package state.machine.memStartBrk) empty).Stands
      package.policy (blocksStart package state.machine.memStartBrk) [chunk] := by
  have isEmpty : (state.machine.setBrk state.machine.memStartBrk).Empty :=
    ⟨begun.arena.positive, begun.aligned, rfl, begun.arena.arena, begun.arena.addressable⟩
  rcases exposes.mmInit isEmpty with ⟨_, other, _, _, holds, same⟩
  have base : package.base other = blocksStart package state.machine.memStartBrk := by
    change other.memStartBrk + 4 + _ = _
    rw [same]
    rfl
  exact ⟨base ▸ holds.wellFormed, rfl⟩

/-- The trace on a package of the shared procedures. -/
theorem coalescing_linked (correct : package.Correct) (exposes : package.Exposes interface empty)
    (exhaustive : package.policy.Exhaustive) (fits : 12304 ≤ package.room) (begun : Begun state)
    (some : 0 < n) (matched : List.Forall₂ Matches (genCoalescing n).entries loaded.trace.ops)
    (numIds : loaded.trace.numIds = 3 * n) (formed : loaded.trace.WellFormed)
    (addressable : state.machine.memStartBrk + maxHeap + extension 8190 < 2 ^ 32) :
    Program.Ensures (main (linked interface) [loaded]) state fun result after =>
      after.errors = [] ∧ result = .some ⟨1, .index (6 * n)
        [(8190, 8 + package.prologue.size + 12304)]⟩ := by
  have kinds := kinds_of_matches matched kinds_genCoalescing
  have reachable := addressable_of_matches matched (fun entry member size given =>
    (sizes_genCoalescing entry member size given).2) addressable
  have run : Program.Ensures (main (linked interface) [loaded]) state _ :=
    linked_main correct exposes begun (List.forall_mem_singleton.mpr formed)
      (List.forall_mem_singleton.mpr reachable) (List.forall_mem_singleton.mpr
        fun op listed type => absurd type (kinds op listed))
  have replay : ∃ final, (arenaAllocator package state.machine.memStartBrk empty).replay
      (arenaAllocator package state.machine.memStartBrk empty).start loaded.trace.ops =
        .some final ∧ final.heap.Stands package.policy _ (if n = 0 then [chunk] else whole) :=
    replay_rounds correct.lawful exhaustive fits matched (initial_stands exposes begun)
  rcases replay with ⟨final, replayed, stands⟩
  rw [if_neg (Nat.ne_of_gt some)] at stands
  have judged := judge_of_replay (i := 0) replayed kinds
  refine run.mono fun result after => ?_
  rintro ⟨errors, stats, graded, rfl⟩
  have nothing : (arenaAllocator package state.machine.memStartBrk empty).objections 0 [loaded] =
      [] := by simp [Allocator.objections, Allocator.objection, judged]
  rw [nothing, List.reverse_eq_nil_iff] at errors
  refine ⟨errors, ?_⟩
  rw [nothing]
  cases graded with
  | @cons _ stat _ _ grades rest =>
      cases rest
      rcases stat with ⟨opCount, valid, util⟩
      rcases grades with ⟨rfl, grades⟩
      simp only [judged] at grades
      rcases grades with ⟨rfl, most, rfl, greatest, _⟩
      have size : Driver.heapSize package final.heap = 8 + package.prologue.size + 12304 := by
        rw [Driver.heapSize, stands.blocks]
        rfl
      have value : most = 8190 := greatest.unique (isGreatest_rounds matched (by omega) some)
      have length : loaded.trace.ops.length = 6 * n := by
        rw [← matched.length_eq]
        exact (counted_genCoalescing some).numOps.symm
      rw [size, value, length]
      rfl

/-- The trace on its way to the driver. -/
structure Delivers (floating : List Char → Nat → List Char) (text : List Char)
    (goal : Loaded → Prop) : Prop where
  balanced : Checktrace.checktrace floating true text = .ok "Balanced trace.\n".toList
  read : ∀ reading : Reading, Checktrace.checktrace floating false text = .ok reading.input →
    Program.Ensures readTrace reading fun outcome after => outcome = .returned ∧
      (∃ trace, Loads after trace) ∧ ∀ loaded : Loaded, Loads after loaded.trace → goal loaded

theorem genCoalescing_delivers {text : List Char} {floating : List Char → Nat → List Char}
    {goal : Loaded → Prop} (some : 0 < n) (few : n < 2 ^ 23) (shows : Shows text (genCoalescing n))
    (replayed : ∀ loaded : Loaded, Replays (genCoalescing n) ∅ loaded.trace → goal loaded) :
    Delivers floating text goal := by
  have valid := valid_genCoalescing some few
  have inspected : inspect 5 ∅ (genCoalescing n).entries = .ok ∅ := inspect_ok_iff.mpr valid.run
  refine ⟨checktrace_of_ok shows inspected true, fun reading emitted => ?_⟩
  have counted : (genCoalescing n).numOps + (∅ : Finset Nat).card < 2 ^ 64 := by
    have room := valid.numOps
    simp only [Finset.card_empty]
    omega
  rw [checktrace_balanced shows inspected counted, Except.ok.injEq] at emitted
  have printed : Shows reading.input (genCoalescing n) :=
    .inl (emitted.symm.trans (congrArg print (balanced_empty _)))
  refine (valid.read printed rfl fun entry member size given =>
    (sizes_genCoalescing entry member size given).1).mono fun outcome after => ?_
  rintro ⟨returned, there, loads⟩
  exact ⟨returned, there, fun loaded from_ => replayed loaded (loads loaded.trace from_)⟩

end Linked

/-! ## The packages -/

/-- Linked with the package, `main` finds nothing wrong with the trace and
measures a heap of so many bytes. -/
def Measures {Statics : Type} (interface : Interface Statics) (n size : Nat) (loaded : Loaded) :
    Prop :=
  ∀ {state : State Statics}, Begun state →
    state.machine.memStartBrk + maxHeap + extension 8190 < 2 ^ 32 →
      Program.Ensures (main (linked interface) [loaded]) state fun result after =>
        after.errors = [] ∧ result = some ⟨1, .index (6 * n) [(8190, size)]⟩

/-- `gen_coalescing.pl`, `checktrace.pl`, `read_trace` and `main` one after the
other: whether the trace has one round or millions of them, the heap of each
package is as long as after the first one. From `2 ^ 23` rounds on the numbers of
the trace would leave the range of `int`. -/
theorem coalescing_main {text : List Char} {n : Nat} (floating : List Char → Nat → List Char)
    (some : 0 < n) (few : n < 2 ^ 23) (shows : Shows text (genCoalescing n)) :
    Delivers floating text fun loaded =>
      Measures Mm.interface n 12328 loaded ∧ Measures Refer.interface n 12328 loaded ∧
        Measures Implicit.interface n 12320 loaded ∧
          Measures Segregated.interface n 12320 loaded := by
  refine genCoalescing_delivers some few shows fun loaded replays => ?_
  rcases replays with ⟨numIds, matched, formed, _⟩
  refine ⟨fun begun => ?_, fun begun => ?_, fun begun => ?_, fun begun => ?_⟩
  · exact coalescing_linked Mm.correct Mm.exposes Mm.lifo_exhaustive (by decide) begun some matched
      numIds formed
  · exact coalescing_linked Refer.correct Refer.exposes Mm.lifo_exhaustive (by decide) begun some
      matched numIds formed
  · exact coalescing_linked Implicit.correct Implicit.exposes Implicit.addressOrdered_exhaustive
      (by decide) begun some matched numIds formed
  · exact coalescing_linked Segregated.correct Segregated.exposes
      Segregated.segregated_exhaustive (by decide) begun some matched numIds formed

theorem coalescing_main_one_round :
    Delivers (fun _ _ => []) (genCoalescing 1).print fun loaded =>
      Measures Mm.interface 1 12328 loaded ∧ Measures Refer.interface 1 12328 loaded ∧
        Measures Implicit.interface 1 12320 loaded ∧
          Measures Segregated.interface 1 12320 loaded :=
  coalescing_main (fun _ _ => []) (by decide) (by decide) (.inl rfl)

end MallocLab.Script
