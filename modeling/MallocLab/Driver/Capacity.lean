import MallocLab.Driver.Packages

/-! # Traces that every package passes

A trace whose demands fit into the arena is refused nothing, so the driver finds
fault with it only where it misreads a byte of its own.
-/

namespace MallocLab.Driver

open Program Blocks

variable {Statics Index : Type} {package : Procedures Statics Index}
  {interface : Interface Statics} {empty : Index} {policy : Policy Index} {origin start : Nat}
  {layout after : Layout Index} {ids : List Nat} {blocks : Nat → Nat} {index p size room numIds i : Nat}
  {op : TraceOp} {ops : List TraceOp} {position : Position (Layout Index)} {state : State Statics}
  {traces : List Loaded}

/-- The bytes by which an operation may extend the heap. -/
def TraceOp.demand (op : TraceOp) : Nat :=
  if op.type = .free then 0 else extension op.size.toNat

/-- The bytes by which a trace may extend the heap beyond the first chunk. -/
def Trace.demand (trace : Trace) : Nat := (trace.ops.map TraceOp.demand).sum

/-! ## The blocks of the ids -/

/-- Every id in use has a live block of its own. -/
structure Occupied (policy : Policy Index) (origin : Nat) (layout : Layout Index) (ids : List Nat)
    (blocks : Nat → Nat) : Prop where
  wellFormed : layout.WellFormed policy origin
  nodup : ids.Nodup
  live : ∀ id ∈ ids, blocks id ∈ (liveSpots origin layout.blocks).map Prod.fst
  distinct : ∀ id ∈ ids, ∀ other ∈ ids, blocks id = blocks other → id = other

namespace Occupied

variable (lawful : policy.Lawful) (occupied : Occupied policy origin layout ids blocks)

include lawful occupied

/-- A new block is live beside those of the ids. -/
theorem malloc (served : layout.malloc policy origin room size = (some p, after)) :
    Occupied policy origin after ids blocks ∧
      p ∈ (liveSpots origin after.blocks).map Prod.fst ∧ ∀ id ∈ ids, blocks id ≠ p := by
  rcases Layout.malloc_served lawful occupied.wellFormed served with ⟨formed, added, _⟩
  have pointers := added.map Prod.fst
  rw [List.map_cons] at pointers
  refine ⟨⟨formed, occupied.nodup, fun id member => ?_, occupied.distinct⟩, ?_, ?_⟩
  · exact pointers.mem_iff.mpr (List.mem_cons_of_mem _ (occupied.live id member))
  · exact pointers.mem_iff.mpr List.mem_cons_self
  · rintro id member rfl
    have nodup := pointers.nodup (liveSpots_nodup _ _)
    exact (List.nodup_cons.mp nodup).1 (occupied.live id member)

/-- Giving a block back leaves the others live. -/
theorem release (member : index ∈ ids) :
    Occupied policy origin (layout.release policy origin (blocks index)) (ids.erase index) blocks ∧
      (∀ p ∈ (liveSpots origin layout.blocks).map Prod.fst, p ≠ blocks index →
        p ∈ (liveSpots origin (layout.release policy origin (blocks index)).blocks).map Prod.fst) ∧
      total (layout.release policy origin (blocks index)).blocks = total layout.blocks := by
  rcases List.mem_map.mp (occupied.live index member) with ⟨⟨address, request⟩, isLive, same⟩
  obtain rfl : address = blocks index := same
  rcases Layout.release_live lawful occupied.wellFormed isLive with ⟨formed, removed⟩
  have pointers := removed.map Prod.fst
  rw [List.map_cons] at pointers
  have others : ∀ p ∈ (liveSpots origin layout.blocks).map Prod.fst, p ≠ blocks index →
      p ∈ (liveSpots origin (layout.release policy origin (blocks index)).blocks).map Prod.fst :=
    fun p listed different =>
      (List.mem_cons.mp (pointers.mem_iff.mp listed)).resolve_left different
  refine ⟨⟨formed, occupied.nodup.erase index, fun id inside => ?_, fun id inside other isOther =>
    occupied.distinct id (List.mem_of_mem_erase inside) other (List.mem_of_mem_erase isOther)⟩,
    others, Layout.release_total isLive⟩
  rcases (occupied.nodup.mem_erase_iff).mp inside with ⟨different, known⟩
  exact others _ (occupied.live id known) fun same =>
    different (occupied.distinct id known index member same)

omit lawful in
/-- An id gets a live block that no other id has. -/
theorem place (fresh : index ∉ ids) (isLive : p ∈ (liveSpots origin layout.blocks).map Prod.fst)
    (own : ∀ id ∈ ids, blocks id ≠ p) :
    Occupied policy origin layout (index :: ids) (Function.update blocks index p) := by
  have other : ∀ id ∈ ids, Function.update blocks index p id = blocks id :=
    fun id member => Function.update_of_ne (fun same : id = index => fresh (same ▸ member)) _ _
  refine ⟨occupied.wellFormed, List.nodup_cons.mpr ⟨fresh, occupied.nodup⟩, ?_, ?_⟩
  · rw [List.forall_mem_cons, Function.update_self]
    exact ⟨isLive, fun id member => other id member ▸ occupied.live id member⟩
  · simp only [List.forall_mem_cons, Function.update_self]
    refine ⟨⟨fun _ => trivial, fun id member same => ?_⟩, fun id member => ⟨fun same => ?_, ?_⟩⟩
    · rw [other id member] at same
      exact absurd same.symm (own id member)
    · rw [other id member] at same
      exact absurd same (own id member)
    · intro id' member' same
      rw [other id member, other id' member'] at same
      exact occupied.distinct id member id' member' same

end Occupied

/-! ## Replaying -/

section Replay

variable (lawful : package.policy.Lawful)

include lawful

/-- An operation whose demand fits is served. -/
theorem Occupied.serve
    (occupied : Occupied package.policy (start + 4 + package.prologue.size) position.heap ids
      position.blocks)
    (formed : op.WellFormed numIds ids)
    (fits : total position.heap.blocks + op.demand ≤ package.room) : ∃ next,
    (arenaAllocator package start empty).serve position op = some next ∧
      Occupied package.policy (start + 4 + package.prologue.size) next.heap (op.idsAfter ids)
        next.blocks ∧
      total next.heap.blocks ≤ total position.heap.blocks + op.demand := by
  obtain ⟨_, formed⟩ := formed
  have bounds := @Layout.malloc_total_bounds _ _ _ package.room (toSizeT op.size) _ lawful
    occupied.wellFormed
  have sized (type : op.type ≠ .free) (positive : 1 ≤ op.size) :
      ∃ p after, position.heap.malloc package.policy (start + 4 + package.prologue.size) package.room
        (toSizeT op.size) = (some p, after) ∧
        total after.blocks ≤ total position.heap.blocks + op.demand := by
    obtain ⟨same, nonzero, _⟩ := toSizeT_size (show 0 < op.size by omega)
    rw [TraceOp.demand, if_neg type, ← same] at fits ⊢
    rcases Layout.malloc_of_room lawful occupied.wellFormed (Nat.ne_of_gt nonzero) fits with
      ⟨p, after, served, _⟩
    rw [served] at bounds
    exact ⟨p, after, served, bounds.2⟩
  cases type : op.type with
  | alloc =>
      simp only [type] at formed
      rcases sized (by simp [type]) formed.2 with ⟨p, after, served, bounded⟩
      rcases occupied.malloc lawful served with ⟨kept, isLive, own⟩
      refine ⟨⟨after, Function.update position.blocks op.index p⟩, ?_, ?_, bounded⟩
      · rw [Allocator.serve_of_sized (by simp [type]), TraceOp.call, type]
        exact ⟨p, congrArg Prod.fst served, by simp only [arenaAllocator, Procedures.next, served]⟩
      · rw [TraceOp.idsAfter, type]
        exact kept.place formed.1 isLive own
  | free =>
      simp only [type] at formed
      rcases occupied.release lawful formed with ⟨kept, _, same⟩
      refine ⟨⟨position.heap.release package.policy (start + 4 + package.prologue.size)
        (position.blocks op.index), position.blocks⟩, ?_, ?_, ?_⟩
      · rw [Allocator.serve_of_free type, TraceOp.call, type]
        rfl
      · rw [TraceOp.idsAfter, type]
        exact kept
      · exact same.le.trans (Nat.le_add_right _ _)
  | realloc =>
      simp only [type] at formed
      rcases sized (by simp [type]) formed.2 with ⟨p, after, served, bounded⟩
      rcases occupied.malloc lawful served with ⟨kept, isLive, own⟩
      rcases kept.release lawful formed.1 with ⟨released, others, same⟩
      have remains := others p isLive (own _ formed.1).symm
      have moved : position.heap.realloc package.policy (start + 4 + package.prologue.size)
          package.room (position.blocks op.index) (toSizeT op.size) =
            (some p, after.release package.policy (start + 4 + package.prologue.size)
              (position.blocks op.index)) := Layout.realloc_of_some served
      refine ⟨⟨after.release package.policy (start + 4 + package.prologue.size)
        (position.blocks op.index), Function.update position.blocks op.index p⟩, ?_, ?_, same.le.trans bounded⟩
      · rw [Allocator.serve_of_sized (by simp [type]), TraceOp.call, type]
        exact ⟨p, congrArg Prod.fst moved, by simp only [arenaAllocator, Procedures.next, moved]⟩
      · rw [TraceOp.idsAfter, type]
        exact released.place (fun member => (occupied.nodup.mem_erase_iff.mp member).1 rfl) remains
          fun id member => own id (List.mem_of_mem_erase member)

/-- A trace whose demands fit is replayed to its end. -/
theorem Occupied.judge
    (occupied : Occupied package.policy (start + 4 + package.prologue.size) position.heap ids
      position.blocks)
    (formed : WellFormedFrom numIds ids ops) (compares : ∀ op ∈ ops, Compares op)
    (fits : total position.heap.blocks + (ops.map TraceOp.demand).sum ≤ package.room) : ∃ final,
    (arenaAllocator package start empty).judge i position ops = .ok final ∧
      total final.heap.blocks ≤ total position.heap.blocks + (ops.map TraceOp.demand).sum := by
  induction ops generalizing i position ids with
  | nil => exact ⟨position, rfl, Nat.le_refl _⟩
  | cons op rest induction =>
      rw [List.map_cons, List.sum_cons] at fits ⊢
      rcases occupied.serve lawful formed.1 (by omega) with ⟨next, served, kept, bounded⟩
      have remaining : total next.heap.blocks + (rest.map TraceOp.demand).sum ≤ package.room := by
        omega
      rcases induction (i := i + 1) kept formed.2
        (fun other member => compares other (List.mem_cons_of_mem _ member)) remaining with
        ⟨final, judged, longest⟩
      have checked : (arenaAllocator package start empty).check position op = .ok next := by
        have below := compares op List.mem_cons_self
        rw [Allocator.check, served]
        refine if_neg fun misread => ?_
        exact absurd (below misread.1) (by omega)
      refine ⟨final, ?_, by omega⟩
      rw [Allocator.judge, checked]
      exact judged

end Replay

/-! ## The driver -/

/-- What `main` prints about traces that are all passed: the heap of each trace is
not longer than the overhead, the first chunk and the demand. -/
structure AllPassed (traces : List Loaded) (overhead : Nat) (stats : List Stats) : Prop where
  graded : List.Forall₂ (fun (loaded : Loaded) stat => stat.ops = loaded.trace.ops.length ∧
    stat.valid = 1 ∧ ∃ (most : Int) (heapsize : Nat), stat.util = some (most, heapsize) ∧
      IsGreatest (prefixTotals loaded.trace.numIds loaded.trace.ops) most ∧ most ≤ heapsize ∧
      heapsize ≤ overhead + 4096 + loaded.trace.demand) traces stats

/-- The demand of every trace fits into the arena, and no id whose low byte is 128
or more is resized. -/
structure Modest (traces : List Loaded) (start overhead : Nat) : Prop where
  formed : ∀ loaded ∈ traces, loaded.trace.WellFormed
  addressable : ∀ loaded ∈ traces, loaded.trace.Addressable start
  compares : ∀ loaded ∈ traces, ∀ op ∈ loaded.trace.ops, Compares op
  fits : ∀ loaded ∈ traces, overhead + 4096 + loaded.trace.demand ≤ maxHeap

theorem initial_occupied (exposes : package.Exposes interface empty)
    (begun : Begun state) :
    Occupied package.policy (state.machine.memStartBrk + 4 + package.prologue.size)
      (Layout.initial package.policy (state.machine.memStartBrk + 4 + package.prologue.size) empty)
      [] fun _ => null where
  wellFormed := by
    have isEmpty : (state.machine.setBrk state.machine.memStartBrk).Empty :=
      ⟨begun.arena.positive, begun.aligned, rfl, begun.arena.arena, begun.arena.addressable⟩
    rcases exposes.mmInit isEmpty with ⟨_, other, _, _, holds, same⟩
    have base : package.base other = state.machine.memStartBrk + 4 + package.prologue.size := by
      change other.memStartBrk + 4 + _ = _
      rw [same]
      rfl
    exact base ▸ holds.wellFormed
  nodup := List.nodup_nil
  live := by simp
  distinct := by simp

theorem objections_eq_nil {Heap : Type} {allocator : Allocator Heap}
    (judged : ∀ loaded ∈ traces, ∃ final,
      allocator.judge 0 allocator.start loaded.trace.ops = .ok final) :
    allocator.objections i traces = [] := by
  induction traces generalizing i with
  | nil => rfl
  | cons loaded rest induction =>
      rcases judged loaded List.mem_cons_self with ⟨final, passed⟩
      rw [Allocator.objections, Allocator.objection, passed,
        induction fun other member => judged other (List.mem_cons_of_mem _ member)]
      rfl

theorem linked_capacity (correct : package.Correct) (exposes : package.Exposes interface empty)
    (begun : Begun state)
    (modest : Modest traces state.machine.memStartBrk (8 + package.prologue.size))
    (resizes : ∀ loaded ∈ traces, ∀ op ∈ loaded.trace.ops, op.type = .realloc →
      interface.mmRealloc = package.mmRealloc) :
    Ensures (main (linked interface) traces) state fun result after => after.errors = [] ∧
      ∃ stats, AllPassed traces (8 + package.prologue.size) stats ∧
        result = some (summary stats 0) := by
  have judged : ∀ loaded ∈ traces, ∃ final,
      (arenaAllocator package state.machine.memStartBrk empty).judge 0
        (arenaAllocator package state.machine.memStartBrk empty).start loaded.trace.ops =
          .ok final ∧
        total final.heap.blocks ≤ 4096 + loaded.trace.demand := by
    intro loaded member
    have fits : 4096 + loaded.trace.demand ≤ package.room := by
      have whole := modest.fits loaded member
      unfold Procedures.room
      omega
    exact Occupied.judge correct.lawful (initial_occupied exposes begun)
      (modest.formed loaded member) (modest.compares loaded member) fits
  apply (linked_main correct exposes begun modest.formed modest.addressable resizes).mono
  rintro result after ⟨errors, stats, graded, rfl⟩
  have nothing : (arenaAllocator package state.machine.memStartBrk empty).objections 0 traces =
      [] := objections_eq_nil fun loaded member => (judged loaded member).imp fun _ => And.left
  rw [nothing] at errors ⊢
  refine ⟨List.reverse_eq_nil_iff.mp errors, stats, ⟨?_⟩, rfl⟩
  obtain ⟨lengths, grades⟩ := List.forall₂_iff_get.mp graded
  refine List.forall₂_iff_get.mpr ⟨lengths, fun k inTraces inStats => ?_⟩
  rcases judged _ (List.get_mem traces ⟨k, inTraces⟩) with ⟨final, passed, bounded⟩
  rcases grades k inTraces inStats with ⟨ops, verdict⟩
  rw [passed] at verdict
  rcases verdict with ⟨valid, most, util, greatest, within⟩
  refine ⟨ops, valid, most, _, util, greatest, within, ?_⟩
  unfold heapSize
  omega

/-- Linked with the package, `main` finds no fault with modest traces. -/
def PassesAll {Statics : Type} (interface : Interface Statics) (overhead : Nat)
    (traces : List Loaded) : Prop :=
  ∀ {state : State Statics}, Begun state → Modest traces state.machine.memStartBrk overhead →
    Ensures (main (linked interface) traces) state fun result after => after.errors = [] ∧
      ∃ stats, AllPassed traces overhead stats ∧ result = some (summary stats 0)

/-- Traces that are well formed, whose demands fit into the arena, and that resize
no id whose low byte is 128 or more are passed by every package. -/
theorem modest_main (traces : List Loaded) :
    PassesAll Mm.interface 24 traces ∧ PassesAll Refer.interface 24 traces ∧
      PassesAll Implicit.interface 16 traces ∧
      ((∀ loaded ∈ traces, ∀ op ∈ loaded.trace.ops, op.type ≠ .realloc) →
        PassesAll Segregated.interface 16 traces) := by
  refine ⟨fun begun modest => ?_, fun begun modest => ?_, fun begun modest => ?_,
    fun resizes state begun modest => ?_⟩
  · exact linked_capacity Mm.correct Mm.exposes begun modest fun _ _ _ _ _ => rfl
  · exact linked_capacity Refer.correct Refer.exposes begun modest fun _ _ _ _ _ => rfl
  · exact linked_capacity Implicit.correct Implicit.exposes begun modest fun _ _ _ _ _ => rfl
  · exact linked_capacity Segregated.correct Segregated.exposes begun modest
      fun loaded member op listed type => absurd type (resizes loaded member op listed)

theorem modest_main_resize_once : ∃ result after,
    main (linked Mm.interface) [⟨resizeOnce 0, fun _ => 0, fun _ => 0⟩] (outset ⟨0⟩) =
      some (result, after) ∧ after.errors = [] := by
  have listed : (⟨resizeOnce 0, fun _ => 0, fun _ => 0⟩ : Loaded) ∈ resizedTraces :=
    List.mem_cons_self
  have modest : Modest [⟨resizeOnce 0, fun _ => 0, fun _ => 0⟩] 8 24 := by
    refine ⟨?_, ?_, ?_, ?_⟩ <;> rw [List.forall_mem_singleton]
    · exact resizedTraces_wellFormed _ listed
    · exact resizedTraces_addressable _ listed
    · intro op listed _
      simp only [resizeOnce, List.mem_cons, List.not_mem_nil, or_false] at listed
      rcases listed with rfl | rfl <;> decide
    · decide
  rcases (modest_main _).1 (outset_begun _) modest with ⟨result, after, outcome, noErrors, _⟩
  exact ⟨result, after, outcome, noErrors⟩

end MallocLab.Driver
