import MallocLab.Buddy.Capacity
import MallocLab.Driver.Packages
import MallocLab.Driver.Resting

/-! # The driver linked with `buddy.c`

The split bits outlast the heap, so the package is ready for the next trace only
when the last one gave up all its blocks. A trace that does so is passed when it
holds few blocks of bounded size at any time.
-/

namespace MallocLab.Driver

open Program

variable {machine after : Buddy.State} {live : List (Nat × Nat)} {heap : Buddy.Heap}
  {request : Request} {start p size numIds most exponent reach longest i : Nat} {ids : List Nat}
  {op : TraceOp} {ops : List TraceOp} {trace : Trace} {position : Position Buddy.Heap}
  {state : State Buddy.Statics} {traces : List Loaded}

/-- `buddy.c` as the driver calls it. -/
def linkedBuddy : Package Buddy.Statics where
  mmInit := watched Buddy.mmInit
  mmMalloc size := watched (Buddy.mmMalloc size)
  mmFree ptr := watched (Buddy.mmFree ptr)
  mmRealloc ptr size := watched (Buddy.mmRealloc ptr size)
  init_extends := watched_extends _
  malloc_extends _ := watched_extends _
  free_extends _ := watched_extends _
  realloc_extends _ _ := watched_extends _

/-- The allocator on trees, in an arena that begins at an address. Nothing is said
about resizing. -/
def treeAllocator (start : Nat) : Allocator Buddy.Heap where
  initial := .initial
  next heap
    | .malloc size => heap.malloc start size
    | .free ptr => (none, heap.release start ptr)
    | .realloc _ _ => (none, heap)

/-- The bytes up to the end of the root, and one more. -/
def rootExtent (heap : Buddy.Heap) : Nat := Buddy.extentOf heap.tree.limit

/-- The requests of up to 64 megabytes, without those to resize. -/
def Guarded : Request → Prop
  | .malloc size => 0 < size ∧ size + Buddy.headerSize ≤ 2 ^ 26
  | .free _ => True
  | .realloc _ _ => False

/-- An arena in which no node is split. -/
def Unsplit (start : Nat) (machine : Buddy.State) : Prop :=
  machine.memStartBrk = start ∧ Buddy.Site machine ∧ Buddy.Marked machine []

/-! ## The package follows the trees -/

/-- Between two heaps of an arena the break was moved by `mem_sbrk`. -/
theorem served_extends (served : Buddy.Heap.ServedAt machine.memStartBrk after live heap)
    (arena : machine.memMaxAddr = machine.memStartBrk + maxHeap)
    (grows : machine.memBrk ≤ after.memBrk) : Extends machine after := by
  rcases served with ⟨same, serves⟩
  have storage := serves.represents.tracks.lists.storage
  have top : after.memMaxAddr = machine.memMaxAddr := by
    rw [show after.memMaxAddr = _ from storage.arena, arena]
    exact congrArg (· + maxHeap) same
  exact ⟨same, top, grows, fun _ => top ▸ storage.bounded⟩

/-- A live block is what the driver takes for proper. -/
theorem proper_of_served (served : Buddy.Heap.ServedAt start machine ((p, size) :: live) heap)
    (positive : 0 < size) : Proper machine live p size := by
  have base := served.2.represents.tracks.lists.storage.base
  have started := served.2.represents.tracks.lists.storage.positive
  have apart := (List.pairwise_cons.mp served.2.extents_apart).1
  have placed : ∀ spot ∈ (p, size) :: live, Buddy.WellPlaced machine spot := by
    intro spot member
    rcases served.mem_live.mp member with ⟨block, inUse, rfl⟩
    exact served.2.wellPlaced inUse
  have own := placed _ List.mem_cons_self
  have low := own.low
  have high := own.high
  have holds := own.holds
  simp only at base started low high holds
  unfold Buddy.headerSize at low high holds
  refine ⟨by unfold null; omega, own.aligned, ⟨positive, ?_, ?_⟩, ?_⟩
  · change machine.memStartBrk ≤ p
    omega
  · change p + size ≤ machine.memBrk
    omega
  · rintro ⟨q, bytes⟩ member ⟨address, left, right⟩
    have other := placed _ (List.mem_cons_of_mem _ member)
    have otherLow := other.low
    have otherHolds := other.holds
    have away := apart _ member
    unfold Buddy.ExtentsApart at away
    unfold Buddy.headerSize at otherLow otherHolds away
    simp only [payloadRange, Range.Has] at otherLow otherHolds away left right
    omega

theorem buddy_malloc (served : Buddy.Heap.ServedAt start machine live heap)
    (small : size + Buddy.headerSize ≤ 2 ^ 26) :
    Ensures (linkedBuddy.mmMalloc size) machine fun result after =>
      result = (heap.malloc start size).1.getD null ∧
        Buddy.Heap.ServedAt start after (if result = null then live else (result, size) :: live)
          (heap.malloc start size).2 ∧
        (result = null ↔ (heap.malloc start size).1 = none) ∧ Untouched machine after live := by
  have arena := served.2.represents.tracks.lists.storage.arena
  obtain rfl : machine.memStartBrk = start := served.1
  refine ensures_watched.mpr ((served.mmMalloc small).mono fun result after => ?_)
  rintro ⟨same, later, refused, grows, untouched⟩
  exact ⟨served_extends later arena grows, same, later, refused, untouched⟩

theorem buddy_free (served : Buddy.Heap.ServedAt start machine live heap)
    (held : p ∈ live.map Prod.fst) :
    Ensures (linkedBuddy.mmFree p) machine fun _ after =>
      Buddy.Heap.ServedAt start after (live.filter fun spot => spot.1 ≠ p) (heap.release start p) ∧
        Untouched machine after (live.filter fun spot => spot.1 ≠ p) := by
  have arena := served.2.represents.tracks.lists.storage.arena
  obtain rfl : machine.memStartBrk = start := served.1
  refine ensures_watched.mpr ((served.mmFree held).mono fun _ after => ?_)
  rintro ⟨later, grows, untouched⟩
  refine ⟨served_extends later arena grows, later, fun spot member => ?_⟩
  rcases List.mem_filter.mp member with ⟨inside, different⟩
  exact untouched spot inside (of_decide_eq_true different)

theorem buddy_returns (served : Buddy.Heap.ServedAt start machine live heap)
    (guarded : Guarded request) (held : HeldBy live request) :
    Ensures (linkedBuddy.answer request) machine fun result after =>
      result = ((treeAllocator start).next heap request).1.getD null ∧
        Buddy.Heap.ServedAt start after (request.liveAfter live result)
          ((treeAllocator start).next heap request).2 := by
  cases request with
  | malloc size =>
      refine (buddy_malloc served guarded.2).mono fun result after => ?_
      rintro ⟨same, later, _⟩
      exact ⟨same, later⟩
  | free ptr =>
      simp only [Package.answer, ensures_bind, ensures_pure]
      refine (buddy_free served (held ptr rfl)).mono fun _ after => ?_
      rintro ⟨later, _⟩
      exact ⟨rfl, later⟩
  | realloc ptr size => exact absurd guarded not_false

/-- A request that was answered with a block was fulfilled. -/
theorem buddy_fulfils (served : Buddy.Heap.ServedAt start machine live heap)
    (guarded : Guarded request) (held : HeldBy live request)
    (answered : ((treeAllocator start).next heap request).1 = none → ∃ ptr, request = .free ptr) :
    Fulfils linkedBuddy machine live request := by
  cases request with
  | malloc size =>
      refine (buddy_malloc served guarded.2).mono fun result after => ?_
      rintro ⟨_, later, refused, untouched⟩
      have granted : result ≠ null := by
        intro isNull
        rcases answered (refused.mp isNull) with ⟨_, equal⟩
        cases equal
      rw [if_neg granted] at later
      exact ⟨proper_of_served later guarded.1, untouched⟩
  | free ptr => exact (buddy_free served (held ptr rfl)).mono fun _ after => And.right
  | realloc ptr size => exact absurd guarded not_false

theorem buddy_follows (start : Nat) :
    Follows linkedBuddy (treeAllocator start) (Unsplit start) Guarded
      (Buddy.Heap.ServedAt start) where
  init := by
    rintro machine ⟨rfl, site, marked⟩
    refine ensures_watched.mpr ((Buddy.Heap.ensures_mmInit site marked).mono ?_)
    rintro value after ⟨isZero, served, grows⟩
    exact ⟨served_extends served site.empty.arena grows, isZero, served⟩
  returns := buddy_returns
  fulfils := buddy_fulfils
  fill := fun value served member => served.fill member value

/-! ## Traces with few small blocks -/

/-- No block is requested while more than `most` ids have one. -/
def FewFrom (most : Nat) : List Nat → List TraceOp → Prop
  | _, [] => True
  | ids, op :: ops => (op.type = .alloc → ids.length ≤ most) ∧ FewFrom most (op.idsAfter ids) ops

/-- An operation that asks for no more than `2 ^ exponent` bytes with the header,
and resizes nothing. -/
def TraceOp.Small (exponent : Nat) (op : TraceOp) : Prop :=
  op.type ≠ .realloc ∧ (op.type = .alloc → op.size.toNat + Buddy.headerSize ≤ 2 ^ exponent)

/-- The trace holds few small blocks at any time, and none in the end. -/
structure Trace.Light (most exponent : Nat) (trace : Trace) : Prop where
  formed : trace.WellFormed
  small : ∀ op ∈ trace.ops, op.Small exponent
  few : FewFrom most [] trace.ops
  balanced : idsBehind [] trace.ops = []

/-- Every id in use has a block of its own. -/
structure Holding (start exponent reach : Nat) (position : Position Buddy.Heap) (ids : List Nat) :
    Prop where
  fits : position.heap.Fits exponent reach
  pointers : (ids.map position.blocks).Perm (position.heap.blocks.map (Buddy.Heap.pointer start))

theorem TraceOp.Small.sized (small : op.Small exponent) (alloc : op.type = .alloc)
    (positive : 1 ≤ op.size) :
    0 < toSizeT op.size ∧ toSizeT op.size + Buddy.headerSize ≤ 2 ^ exponent := by
  obtain ⟨same, nonzero, _⟩ := toSizeT_size (show 0 < op.size by omega)
  exact ⟨nonzero, same ▸ small.2 alloc⟩

section Replay

variable (allows : Buddy.Heap.Allows most exponent reach)

include allows

theorem guarded_of_small (formed : op.WellFormed numIds ids) (small : op.Small exponent)
    (blocks : Nat → Nat) : Guarded (op.call blocks) := by
  obtain ⟨_, formed⟩ := formed
  unfold TraceOp.call
  cases type : op.type with
  | alloc =>
      simp only [type] at formed
      have sized := TraceOp.Small.sized small type formed.2
      exact ⟨sized.1, allows.accepted sized.2⟩
  | free => exact trivial
  | realloc => exact absurd type small.1

/-- An operation is served when few ids have a block. -/
theorem Holding.serve (holding : Holding start exponent reach position ids)
    (formed : op.WellFormed numIds ids) (small : op.Small exponent)
    (few : op.type = .alloc → ids.length ≤ most) : ∃ next,
    (treeAllocator start).serve position op = some next ∧
      Holding start exponent reach next (op.idsAfter ids) := by
  obtain ⟨_, formed⟩ := formed
  have same := holding.pointers
  cases type : op.type with
  | alloc =>
      simp only [type] at formed
      have count : position.heap.blocks.length ≤ most := by
        have lengths := same.length_eq
        rw [List.length_map, List.length_map] at lengths
        exact lengths ▸ few type
      rcases holding.fits.malloc allows start count
        (TraceOp.Small.sized small type formed.2).2 with ⟨block, granted, kept⟩
      refine ⟨⟨(position.heap.malloc start (toSizeT op.size)).2,
        Function.update position.blocks op.index (Buddy.Heap.pointer start block)⟩, ?_, kept, ?_⟩
      · rw [Allocator.serve_of_sized (by simp [type]), TraceOp.call, type]
        exact ⟨_, congrArg Prod.fst granted, rfl⟩
      · have others : ids.map (Function.update position.blocks op.index
            (Buddy.Heap.pointer start block)) = ids.map position.blocks :=
          List.map_congr_left fun id member =>
            Function.update_of_ne (fun equal : id = op.index => formed.1 (equal ▸ member)) _ _
        have blocks := congrArg (fun outcome => outcome.2.blocks) granted
        dsimp only at blocks ⊢
        rw [TraceOp.idsAfter, type, List.map_cons, Function.update_self, others, blocks]
        exact same.cons _
  | free =>
      simp only [type] at formed
      have held := same.mem_iff.mp (List.mem_map_of_mem (f := position.blocks) formed)
      rcases holding.fits.release held with ⟨block, inUse, pointed, left, kept⟩
      refine ⟨⟨position.heap.release start (position.blocks op.index), position.blocks⟩, ?_, kept,
        ?_⟩
      · rw [Allocator.serve_of_free type, TraceOp.call, type]
        rfl
      · rw [TraceOp.idsAfter, type, left]
        have before := (List.perm_cons_erase formed).map position.blocks
        have behind := (List.perm_cons_erase inUse).map (Buddy.Heap.pointer start)
        rw [List.map_cons] at before behind
        rw [pointed] at behind
        exact (before.symm.trans (same.trans behind)).cons_inv
  | realloc => exact absurd type small.1

theorem Holding.judge (holding : Holding start exponent reach position ids)
    (formed : WellFormedFrom numIds ids ops) (small : ∀ op ∈ ops, op.Small exponent)
    (few : FewFrom most ids ops) :
    ∃ final, (treeAllocator start).judge i position ops = .ok final ∧
      final.heap.Fits exponent reach := by
  induction ops generalizing i position ids with
  | nil => exact ⟨position, rfl, holding.fits⟩
  | cons op rest induction =>
      rw [List.forall_mem_cons] at small
      rcases holding.serve allows formed.1 small.1 few.1 with ⟨next, served, kept⟩
      have checked : (treeAllocator start).check position op = .ok next := by
        rw [Allocator.check, served]
        exact if_neg fun misread => small.1.1 misread.1
      rw [Allocator.judge, checked]
      exact induction kept formed.2 small.2 few.2

theorem Trace.Light.settles (light : trace.Light most exponent) :
    Settles (treeAllocator start) rootExtent (2 ^ reach + 1) trace where
  formed := light.formed
  passes := by
    have holding : Holding start exponent reach (treeAllocator start).start [] :=
      ⟨Buddy.Heap.initial_fits allows, .refl []⟩
    rcases holding.judge allows light.formed light.small light.few with ⟨final, judged, fits⟩
    exact ⟨final, judged, fits.extent_le⟩
  balanced := light.balanced

theorem Trace.Light.guarded (light : trace.Light most exponent) :
    ∀ op ∈ trace.ops, ∀ blocks, Guarded (op.call blocks) := by
  intro op member blocks
  rcases light.formed.each member with ⟨ids, formed⟩
  exact guarded_of_small allows formed (light.small op member) blocks

end Replay

/-! ## The driver -/

/-- `mem_init` took an arena that suits `buddy.c`, the program has just started,
and there are no errors so far. -/
structure BuddyBegun (state : State Buddy.Statics) : Prop where
  arena : Arena state.machine
  suits : Buddy.Site (state.machine.setBrk state.machine.memStartBrk)
  zeroed : ∀ byte, state.machine.statics.nodeIsSplit byte = 0
  noErrors : state.errors = []

/-- Linked with `buddy.c`, `main` finds no fault with traces that the trees serve
and that give up every block. -/
theorem settled_main (begun : BuddyBegun state)
    (settles : ∀ loaded ∈ traces,
      Settles (treeAllocator state.machine.memStartBrk) rootExtent longest loaded.trace)
    (guarded : ∀ loaded ∈ traces, ∀ op ∈ loaded.trace.ops, ∀ blocks, Guarded (op.call blocks)) :
    Ensures (main linkedBuddy traces) state fun result after => after.errors = [] ∧
      ∃ stats, List.Forall₂ (fun (loaded : Loaded) stat =>
        Measured longest loaded.trace stat) traces stats ∧ result = some (summary stats 0) := by
  have ready : Ready (Unsplit state.machine.memStartBrk) state.machine :=
    ⟨begun.arena, rfl, begun.suits, Buddy.marked_zeroed begun.zeroed⟩
  refine (buddy_follows state.machine.memStartBrk).rest_main ?_ ?_ ready begun.noErrors settles
    guarded
  · rintro machine heap served
    exact ⟨served.1, served.atRest rfl⟩
  · exact fun served => served.heapLength_le

/-- Linked with `buddy.c`, `main` finds no fault with traces that hold few small
blocks at any time and give them all back, whatever their number, and measures
heaps of at most `2 ^ reach` bytes and one more. -/
theorem buddy_main (begun : BuddyBegun state) (allows : Buddy.Heap.Allows most exponent reach)
    (light : ∀ loaded ∈ traces, loaded.trace.Light most exponent) :
    Ensures (main linkedBuddy traces) state fun result after => after.errors = [] ∧
      ∃ stats, List.Forall₂ (fun (loaded : Loaded) stat =>
        Measured (2 ^ reach + 1) loaded.trace stat) traces stats ∧
        result = some (summary stats 0) :=
  settled_main begun (fun loaded member => (light loaded member).settles allows)
    fun loaded member => (light loaded member).guarded allows

/-- Eight bytes that are given back. -/
def giveBack : Trace :=
  ⟨1, [allocOp 0 8 eight_small, ⟨.free, 0, 0, size_low 0, size_high (by decide)⟩]⟩

theorem giveBack_light : giveBack.Light 8192 10 := by
  refine ⟨?_, ?_, ?_, rfl⟩
  · simp [giveBack, Trace.WellFormed, WellFormedFrom, TraceOp.WellFormed, TraceOp.idsAfter, allocOp]
  · simp [giveBack, TraceOp.Small, allocOp, Buddy.headerSize]
  · simp [giveBack, FewFrom, TraceOp.idsAfter, allocOp]

/-- The static array lies behind the arena. -/
def buddyStatics : Buddy.Statics := ⟨2 ^ 26, 0, fun _ => 0, 0, 0⟩

theorem buddyBegun_outset : BuddyBegun (outset buddyStatics) where
  arena := (outset_begun buddyStatics).arena
  suits := ⟨⟨by decide, by decide, rfl, rfl, by decide⟩, by decide, by decide, by decide,
    .inr (by decide)⟩
  zeroed _ := rfl
  noErrors := rfl

/-- The second trace starts with the split bits that the first one left. -/
theorem buddy_main_twice :
    Ensures (main linkedBuddy [⟨giveBack, fun _ => 0, fun _ => 0⟩, ⟨giveBack, fun _ => 0, fun _ => 0⟩])
      (outset buddyStatics) fun result after => after.errors = [] ∧
        ∃ stats, List.Forall₂ (fun (loaded : Loaded) stat => Measured (2 ^ 24 + 1) loaded.trace stat)
          [⟨giveBack, fun _ => 0, fun _ => 0⟩, ⟨giveBack, fun _ => 0, fun _ => 0⟩] stats ∧
          result = some (summary stats 0) := by
  have allows : Buddy.Heap.Allows 8192 10 24 := ⟨by decide, by decide, by decide, by decide⟩
  refine buddy_main buddyBegun_outset allows fun loaded member => ?_
  simp only [List.mem_cons, List.not_mem_nil, or_false, or_self] at member
  subst member
  exact giveBack_light

end MallocLab.Driver
