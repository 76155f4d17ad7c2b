import MallocLab.Driver.Overlap

/-! # Which correct packages the driver accepts

A block is filled with the low byte of its id, and `mm_realloc` is checked by
comparing what was kept with that byte. The comparison fails for every byte
from 128 on, for then the `char` is negative.
-/

namespace MallocLab.Driver

open Program

variable {Statics : Type} {package : Package Statics} {trace : Trace} {op : TraceOp}
  {state before after : State Statics} {machine : Machine Statics} {tracenum i p : Nat}
  {live : List (Nat × Nat)} {ids : List Nat}

/-! ## Bytes -/

theorem lowByte_eq (op : TraceOp) : lowByte op = op.index % 256 :=
  Nat.and_two_pow_sub_one_eq_mod op.index 8

/-- A byte is read back as the `int` it was written as, if and only if it is
below 128. -/
theorem promote_ofNat_iff {byte : Nat} (small : byte < 256) :
    promote (UInt8.ofNat byte) = (byte : Int) ↔ byte < 128 := by
  have read : (UInt8.ofNat byte).toNat = byte := by
    rw [UInt8.toNat_ofNat']
    exact Nat.mod_eq_of_lt small
  rw [promote, read]
  split <;> omega

/-! ## Traces and packages -/

/-- An operation only uses ids of the trace, allocates an id that has no block
and gives up or resizes one that has. -/
def TraceOp.WellFormed (op : TraceOp) (numIds : Nat) (ids : List Nat) : Prop :=
  op.index < numIds ∧
    match op.type with
    | .alloc => op.index ∉ ids ∧ 1 ≤ op.size
    | .realloc => op.index ∈ ids ∧ 1 ≤ op.size
    | .free => op.index ∈ ids

/-- The ids with a block after an operation. -/
def TraceOp.idsAfter (op : TraceOp) (ids : List Nat) : List Nat :=
  match op.type with
  | .alloc => op.index :: ids
  | .realloc => op.index :: ids.erase op.index
  | .free => ids.erase op.index

def WellFormedFrom (numIds : Nat) : List Nat → List TraceOp → Prop
  | _, [] => True
  | ids, op :: ops => op.WellFormed numIds ids ∧ WellFormedFrom numIds (op.idsAfter ids) ops

abbrev Trace.WellFormed (trace : Trace) : Prop := WellFormedFrom trace.numIds [] trace.ops

/-- A payload as it has to be while others are live. -/
structure Proper (machine : Machine Statics) (live : List (Nat × Nat)) (p size : Nat) : Prop where
  nonzero : p ≠ null
  aligned : IsAligned p
  inHeap : InHeap machine (p, size)
  apart : ∀ other ∈ live, ¬(payloadRange (p, size)).Meets (payloadRange other)

/-- No byte of a live payload has changed. -/
def Untouched (machine after : Machine Statics) (live : List (Nat × Nat)) : Prop :=
  ∀ spot ∈ live, SameRange machine after spot.1 spot.2

/-- What a correct package does with a request. -/
def Fulfils (package : Package Statics) (machine : Machine Statics) (live : List (Nat × Nat)) :
    Request → Prop
  | .malloc size => Ensures (package.mmMalloc size) machine fun p after =>
      Proper after live p size ∧ Untouched machine after live
  | .free ptr => Ensures (package.mmFree ptr) machine fun _ after =>
      Untouched machine after (live.filter fun spot => spot.1 ≠ ptr)
  | .realloc ptr size => Ensures (package.mmRealloc ptr size) machine fun p after =>
      Proper after (live.filter fun spot => spot.1 ≠ ptr) p size ∧
        Untouched machine after (live.filter fun spot => spot.1 ≠ ptr) ∧
        ∀ old, (ptr, old) ∈ live → ∀ offset < min old size,
          after.bytes (p + offset) = machine.bytes (ptr + offset)

/-- The package fulfils every request the driver makes with the trace. -/
def CorrectOn (package : Package Statics) (trace : Trace) (tracenum : Nat)
    (opened : State Statics) : Prop :=
  ∀ ⦃done op more offered live before⦄, trace.ops = done ++ op :: more →
    Passed package trace tracenum opened done.reverse offered live before →
    Fulfils package before.machine live (op.request before)

/-! ## What the driver remembers -/

/-- The driver knows the block of every id, and the block is filled with the
low byte of the id. -/
structure Remembers (state : State Statics) (ids : List Nat) (live : List (Nat × Nat)) :
    Prop where
  distinct : ids.Nodup
  blocks : live = ids.map fun id => (state.blocks id, state.blockSizes id)
  short : ∀ id ∈ ids, state.blockSizes id < 2147483648
  filled : ∀ id ∈ ids, ∀ offset < state.blockSizes id,
    state.machine.bytes (state.blocks id + offset) = UInt8.ofNat (id % 256)

/-- All that holds between two requests. -/
structure Holds (state : State Statics) (ids : List Nat) (live : List (Nat × Nat)) : Prop where
  mirrors : Mirrors state live
  disjoint : Disjoint live
  remembers : Remembers state ids live

theorem Remembers.mem (remembers : Remembers state ids live) {id : Nat} (member : id ∈ ids) :
    (state.blocks id, state.blockSizes id) ∈ live := by
  rw [remembers.blocks]
  exact List.mem_map.mpr ⟨id, member, rfl⟩

/-- The live payloads without that of one id. -/
theorem Holds.filter (holds : Holds state ids live) {id : Nat} (member : id ∈ ids) :
    (live.filter fun spot => spot.1 ≠ state.blocks id) =
      (ids.erase id).map fun id => (state.blocks id, state.blockSizes id) := by
  have distinct := holds.mirrors.distinct
  have nodup := holds.remembers.distinct
  rw [holds.remembers.blocks] at distinct ⊢
  rw [List.map_map, List.nodup_map_iff_inj_on nodup] at distinct
  rw [List.filter_map, nodup.erase_eq_filter]
  congr 1
  refine List.filter_congr fun other listed => ?_
  have same : state.blocks other = state.blocks id ↔ other = id :=
    ⟨fun equal => distinct other listed id member equal, fun equal => by rw [equal]⟩
  simp [same, bne, beq_eq_decide]

/-- Giving up one id leaves the others as they are. -/
theorem Holds.remove (holds : Holds state ids live) {id : Nat} (member : id ∈ ids) :
    Holds (removed state (state.blocks id)) (ids.erase id)
      (live.filter fun spot => spot.1 ≠ state.blocks id) where
  mirrors := holds.mirrors.remove _
  disjoint := holds.disjoint.filter _
  remembers := by
    refine ⟨holds.remembers.distinct.erase _, holds.filter member, ?_, ?_⟩
    · exact fun other listed => holds.remembers.short other (List.mem_of_mem_erase listed)
    · exact fun other listed => holds.remembers.filled other (List.mem_of_mem_erase listed)

/-- The package may do what it likes outside the live payloads. -/
theorem Holds.extend (holds : Holds state ids live) (growth : Extends state.machine machine)
    (untouched : Untouched state.machine machine live) :
    Holds { state with machine := machine } ids live where
  mirrors := holds.mirrors.extend growth
  disjoint := holds.disjoint
  remembers := by
    refine ⟨holds.remembers.distinct, holds.remembers.blocks, holds.remembers.short, ?_⟩
    intro id member offset inside
    exact (untouched _ (holds.remembers.mem member) offset inside).trans
      (holds.remembers.filled id member offset inside)

/-! ## Requests with a correct answer -/

theorem toSizeT_size (positive : 0 < op.size) :
    toSizeT op.size = op.size.toNat ∧ 0 < toSizeT op.size ∧ toSizeT op.size < 2147483648 := by
  have high := op.high
  have same : toSizeT op.size = op.size.toNat := toSizeT_of_lt (by omega) (by omega)
  exact ⟨same, by omega, by omega⟩

/-- A proper payload gives `add_range` no reason to refuse it. -/
theorem Proper.accepts (mirrors : Mirrors { state with machine := machine } live)
    (positive : 0 < op.size) (proper : Proper machine live p (toSizeT op.size)) :
    ¬Refuses { state with machine := machine } p (lastByte p op.size) := by
  rcases toSizeT_size positive with ⟨same, _, _⟩
  rcases proper.inHeap with ⟨_, low, high⟩
  have bounded := mirrors.arena.bounded
  have addressable := mirrors.arena.addressable
  simp only [same] at low high bounded addressable
  have last := lastByte_eq positive (show p + op.size.toNat - 1 < 2 ^ 32 by omega)
  rw [last]
  rintro (misaligned | outside | ⟨range, listed, touches⟩)
  · exact misaligned proper.aligned
  · simp only at outside
    omega
  · have ranges : state.ranges = live.map payloadRange := mirrors.ranges
    rcases List.mem_map.mp (ranges ▸ listed) with ⟨other, member, rfl⟩
    refine proper.apart other member ?_
    rw [same]
    rcases touches with touched | touched
    · exact ⟨p, ⟨Nat.le_refl _, by unfold payloadRange; simp only; omega⟩, touched⟩
    · refine ⟨p + op.size.toNat - 1, ⟨?_, Nat.le_refl _⟩, touched⟩
      unfold payloadRange
      simp only
      omega

/-- A proper payload is filled and remembered. -/
theorem Holds.place (holds : Holds { state with machine := machine } ids live)
    (growth : Extends state.machine machine) (mirrors : Mirrors state live)
    (positive : 0 < op.size) (proper : Proper machine live p (toSizeT op.size))
    (absent : op.index ∉ ids) :
    Holds (placed state machine op p) (op.index :: ids) ((p, toSizeT op.size) :: live) := by
  rcases toSizeT_size positive with ⟨_, size, short⟩
  have accepts := proper.accepts holds.mirrors positive
  have others : ∀ id ∈ ids, id ≠ op.index := fun id member same => absent (same ▸ member)
  have blocks : ∀ id ∈ ids, (placed state machine op p).blocks id = state.blocks id ∧
      (placed state machine op p).blockSizes id = state.blockSizes id := fun id member =>
    ⟨Function.update_of_ne (others id member) _ _, Function.update_of_ne (others id member) _ _⟩
  have here : (placed state machine op p).blocks op.index = p ∧
      (placed state machine op p).blockSizes op.index = toSizeT op.size :=
    ⟨Function.update_self _ _ _, Function.update_self _ _ _⟩
  refine ⟨mirrors.place growth positive accepts,
    List.Pairwise.cons proper.apart holds.disjoint, ?_⟩
  constructor
  · exact List.nodup_cons.mpr ⟨absent, holds.remembers.distinct⟩
  · rw [List.map_cons, here.1, here.2, holds.remembers.blocks]
    congr 1
    exact List.map_congr_left fun id member => by rw [(blocks id member).1, (blocks id member).2]
  · intro id member
    rcases List.mem_cons.mp member with rfl | listed
    · rw [here.2]
      exact short
    · rw [(blocks id listed).2]
      exact holds.remembers.short id listed
  · intro id member offset inside
    rcases List.mem_cons.mp member with rfl | listed
    · rw [here.2] at inside
      rw [here.1, ← lowByte_eq]
      exact Memory.fill_of_inside _ _ (by omega) (by omega)
    · rw [(blocks id listed).2] at inside
      rw [(blocks id listed).1]
      have apart := proper.apart _ (holds.remembers.mem listed)
      refine (Memory.fill_of_outside _ _ ?_).trans (holds.remembers.filled id listed offset inside)
      by_contra overlap
      refine apart ⟨state.blocks id + offset, ?_, ?_⟩ <;>
        · unfold payloadRange Range.Has
          simp only
          omega

/-- One request of a well-formed trace, answered by a correct package: it
passes if and only if its comparison, if any, is about a byte below 128. -/
def Compares (op : TraceOp) : Prop := op.type = .realloc → op.index % 256 < 128

theorem Holds.evalAlloc (holds : Holds before ids live) (type : op.type = .alloc)
    (formed : op.WellFormed trace.numIds ids)
    (fulfils : Fulfils package before.machine live (op.request before)) :
    Ensures (evalAlloc package trace tracenum i op) before fun passed after => passed ≠ 0 ∧
      Holds after (op.idsAfter ids)
        ((op.request before).liveAfter live (after.blocks op.index)) := by
  rcases formed with ⟨known, formed⟩
  simp only [type] at formed
  simp only [TraceOp.request, type] at fulfils ⊢
  rw [TraceOp.idsAfter, type]
  rcases fulfils with ⟨p, machine, returned, proper, untouched⟩
  have growth := package.malloc_extends _ returned
  have extended := holds.extend growth untouched
  have positive : 0 < op.size := by omega
  have placedHere : (placed before machine op p).blocks op.index = p := Function.update_self _ _ _
  refine evalAlloc_passes.mpr ⟨p, machine, returned, proper.nonzero, positive,
    proper.accepts extended.mirrors positive, ?_, known, ?_⟩
  · exact ⟨proper.inHeap.2.1, proper.inHeap.2.2⟩
  · rw [Request.liveAfter, placedHere, if_neg proper.nonzero]
    exact extended.place growth holds.mirrors positive proper formed.1

theorem Holds.evalFree (holds : Holds before ids live) (type : op.type = .free)
    (formed : op.WellFormed trace.numIds ids)
    (fulfils : Fulfils package before.machine live (op.request before)) :
    Ensures (evalFree package trace op) before fun passed after => passed ≠ 0 ∧
      Holds after (op.idsAfter ids)
        ((op.request before).liveAfter live (after.blocks op.index)) := by
  rcases formed with ⟨known, formed⟩
  simp only [type] at formed
  simp only [TraceOp.request, type] at fulfils ⊢
  rw [TraceOp.idsAfter, type]
  refine evalFree_passes.mpr ⟨known, ?_⟩
  rcases fulfils with ⟨_, machine, returned, untouched⟩
  have growth := package.free_extends _ returned
  exact ⟨_, machine, returned, (holds.remove formed).extend growth untouched⟩

/-- The bytes that `mm_realloc` kept are those the old block was filled with. -/
theorem Holds.kept (holds : Holds before ids live) (member : op.index ∈ ids)
    (positive : 0 < op.size)
    (preserved : ∀ old, (before.blocks op.index, old) ∈ live →
      ∀ offset < min old (toSizeT op.size),
        machine.bytes (p + offset) = before.machine.bytes (before.blocks op.index + offset)) :
    0 < keptSize before op ∧ keptSize before op ≤ toSizeT op.size ∧
      ∀ offset < keptSize before op, machine.bytes (p + offset) = UInt8.ofNat (lowByte op) := by
  rcases toSizeT_size positive with ⟨same, _, _⟩
  have short := holds.remembers.short _ member
  have spot := holds.remembers.mem member
  have nonempty : 0 < before.blockSizes op.index := (holds.mirrors.inHeap _ spot).1
  have size : keptSize before op = min (before.blockSizes op.index) (toSizeT op.size) := by
    rw [keptSize, toInt_of_lt short, same]
    split <;> omega
  rw [size, lowByte_eq]
  refine ⟨by omega, Nat.min_le_right _ _, fun offset inside => ?_⟩
  rw [preserved _ spot offset inside]
  exact holds.remembers.filled _ member offset (by omega)

/-- Resizing a block passes if and only if the byte it is compared with is
below 128. -/
theorem Holds.evalRealloc (holds : Holds before ids live) (type : op.type = .realloc)
    (formed : op.WellFormed trace.numIds ids)
    (fulfils : Fulfils package before.machine live (op.request before)) :
    (op.index % 256 < 128 →
      Ensures (evalRealloc package trace tracenum i op) before fun passed after => passed ≠ 0 ∧
        Holds after (op.idsAfter ids)
          ((op.request before).liveAfter live (after.blocks op.index))) ∧
    (Ensures (evalRealloc package trace tracenum i op) before (fun passed _ =>
        passed ≠ 0 ∧ True) → op.index % 256 < 128) := by
  rcases formed with ⟨known, formed⟩
  simp only [type] at formed
  simp only [TraceOp.request, type] at fulfils ⊢
  rw [TraceOp.idsAfter, type]
  rcases fulfils with ⟨p, machine, returned, proper, untouched, preserved⟩
  have positive : 0 < op.size := by omega
  rcases holds.kept formed.1 positive preserved with ⟨some, most, kept⟩
  have byte : lowByte op < 256 := by
    rw [lowByte_eq]
    exact Nat.mod_lt _ (by decide)
  constructor
  · intro below
    have growth := package.realloc_extends _ _ returned
    have others := holds.remove formed.1
    have extended := others.extend growth untouched
    have placedHere : (placed (removed before (before.blocks op.index)) machine op p).blocks
        op.index = p := Function.update_self _ _ _
    have owns : machine.Owns p (toSizeT op.size) := ⟨proper.inHeap.2.1, proper.inHeap.2.2⟩
    refine evalRealloc_passes.mpr ⟨known, p, machine, returned, proper.nonzero, positive,
      proper.accepts extended.mirrors positive, ?_, owns, ?_⟩
    · intro offset inside
      refine ⟨⟨owns.1.trans (Nat.le_add_right _ _), ?_⟩, ?_⟩
      · have last := owns.2
        omega
      · rw [kept offset inside, promote_ofNat_iff byte, lowByte_eq]
        exact below
    · rw [Request.liveAfter, placedHere, if_neg proper.nonzero]
      refine extended.place growth others.mirrors positive proper ?_
      exact fun again => (holds.remembers.distinct.mem_erase_iff.mp again).1 rfl
  · intro passes
    rcases (evalRealloc_passes.mp passes).2 with ⟨q, other, also, _, _, _, same, _⟩
    cases returned.symm.trans also
    have compared := (same 0 some).2
    rw [kept 0 some, promote_ofNat_iff byte, lowByte_eq] at compared
    exact compared

/-- What becomes of one request of a well-formed trace that a correct package
answers. -/
theorem Holds.evalOp (holds : Holds before ids live) (formed : op.WellFormed trace.numIds ids)
    (fulfils : Fulfils package before.machine live (op.request before)) (tracenum i : Nat) :
    (Compares op → Ensures (evalOp package trace tracenum i op) before fun passed after =>
      passed ≠ 0 ∧ Holds after (op.idsAfter ids)
        ((op.request before).liveAfter live (after.blocks op.index))) ∧
    (Ensures (evalOp package trace tracenum i op) before (fun passed _ => passed ≠ 0 ∧ True) →
      Compares op) := by
  unfold Driver.evalOp
  cases type : op.type with
  | alloc =>
      refine ⟨fun _ => holds.evalAlloc type formed fulfils, fun _ isRealloc => ?_⟩
      rw [type] at isRealloc
      cases isRealloc
  | free =>
      refine ⟨fun _ => holds.evalFree type formed fulfils, fun _ isRealloc => ?_⟩
      rw [type] at isRealloc
      cases isRealloc
  | realloc =>
      constructor
      · exact fun compares => (holds.evalRealloc type formed fulfils).1 (compares type)
      · exact fun passes _ => (holds.evalRealloc type formed fulfils).2 passes

/-! ## Whole traces -/

/-- The rest of a trace is accepted if and only if every comparison is about a
byte below 128. -/
theorem evalOps_accepts {opened : State Statics} (correct : CorrectOn package trace tracenum opened)
    (done : List TraceOp) {rest : List TraceOp} {offered : List Offer}
    (split : trace.ops = done ++ rest)
    (run : Passed package trace tracenum opened done.reverse offered live before)
    (holds : Holds before ids live) (formed : WellFormedFrom trace.numIds ids rest) :
    Ensures (evalOps package trace tracenum done.length rest) before (fun valid _ =>
        valid = 1 ∧ True) ↔ ∀ op ∈ rest, Compares op := by
  induction rest generalizing done offered live ids before with
  | nil => simp [evalOps]
  | cons op rest induction =>
      have both := holds.evalOp formed.1 (correct split run) tracenum done.length
      have length : done.reverse.length = done.length := List.length_reverse
      have later : trace.ops = (done ++ [op]) ++ rest := by simpa using split
      rw [evalOps_passes, List.forall_mem_cons]
      constructor
      · rintro ⟨passed, after, outcome, nonzero, valid⟩
        have compares := both.2 ⟨passed, after, outcome, nonzero, trivial⟩
        have next := ((both.1 compares).of_eq outcome).2
        have extended := Passed.op run (length ▸ outcome) nonzero
        rw [← List.reverse_concat] at extended
        refine ⟨compares, (induction (done ++ [op]) later extended next formed.2).mp ?_⟩
        simpa using valid
      · rintro ⟨compares, others⟩
        rcases both.1 compares with ⟨passed, after, outcome, nonzero, next⟩
        have extended := Passed.op run (length ▸ outcome) nonzero
        rw [← List.reverse_concat] at extended
        refine ⟨passed, after, outcome, nonzero, ?_⟩
        simpa using (induction (done ++ [op]) later extended next formed.2).mpr others

/-- On a well-formed trace the driver accepts a correct package if and only if
the trace resizes no block whose id has a low byte of 128 or more. -/
theorem accepts_correct {opened : State Statics} {initialised : Machine Statics}
    (arena : Arena state.machine)
    (returned : package.mmInit (state.machine.setBrk state.machine.memStartBrk) =
      some (0, initialised))
    (start : opened = { state with machine := initialised, ranges := [] })
    (formed : trace.WellFormed) (correct : CorrectOn package trace tracenum opened) :
    (∃ final, evalMmValid package trace tracenum state = some (1, final)) ↔
      ∀ op ∈ trace.ops, op.type = .realloc → op.index % 256 < 128 := by
  have isOpen : Opened package state opened := ⟨0, initialised, Int.le_refl 0, returned, start⟩
  have initial : Holds opened [] [] :=
    ⟨isOpen.mirrors arena, List.Pairwise.nil, ⟨.nil, rfl, by simp, by simp⟩⟩
  have accepts : Ensures (evalOps package trace tracenum 0 trace.ops) opened (fun valid _ =>
      valid = 1 ∧ True) ↔ ∀ op ∈ trace.ops, Compares op :=
    evalOps_accepts correct [] rfl .start initial formed
  refine Iff.trans ?_ accepts
  constructor
  · rintro ⟨final, valid⟩
    have ensured : Ensures (evalMmValid package trace tracenum) state fun valid _ =>
        valid = 1 ∧ True := ⟨1, final, valid, rfl, trivial⟩
    rcases evalMmValid_passes.mp ensured with ⟨other, ⟨value, machine, _, outcome, rfl⟩, valid⟩
    cases returned.symm.trans outcome
    rwa [start]
  · intro valid
    rcases evalMmValid_passes.mpr ⟨opened, isOpen, valid⟩ with ⟨_, final, outcome, rfl, _⟩
    exact ⟨final, outcome⟩

/-! ## One block that is resized -/

def reallocOp (index size : Nat) (small : size < 2147483648) : TraceOp :=
  ⟨.realloc, index, size, size_low size, size_high small⟩

def freeOp (index : Nat) : TraceOp := ⟨.free, index, 0, by decide, by decide⟩

/-- Eight bytes for an id, and again eight bytes. -/
def resizeOnce (index : Nat) : Trace :=
  ⟨index + 1, [allocOp index 8 eight_small, reallocOp index 8 eight_small]⟩

theorem resizeOnce_wellFormed (index : Nat) : (resizeOnce index).WellFormed := by
  simp [resizeOnce, Trace.WellFormed, WellFormedFrom, TraceOp.WellFormed, TraceOp.idsAfter,
    allocOp, reallocOp]

theorem proper_sixteen {machine : Machine Unit} (start : machine.memStartBrk = 8)
    (brk : machine.memBrk = 8 + maxHeap) : Proper machine [] 16 8 := by
  refine ⟨by decide, by decide, ⟨by decide, ?_, ?_⟩, by simp⟩
  · rw [start]
    decide
  · rw [brk]
    decide

theorem fulfils_resize {machine : Machine Unit} (start : machine.memStartBrk = 8)
    (brk : machine.memBrk = 8 + maxHeap) :
    Fulfils twoAddresses machine [(16, 8)] (.realloc 16 8) := by
  refine ⟨16, machine, rfl, proper_sixteen start brk, ?_, fun _ _ _ _ => rfl⟩
  exact fun _ member => by cases member

/-- For eight bytes the package with two addresses always returns the same one. -/
theorem resizeOnce_correct (index : Nat) :
    CorrectOn twoAddresses (resizeOnce index) 0 opened := by
  intro done op more offered live before split run
  have size : toSizeT ((8 : Nat) : Int) = 8 := by decide
  rcases done with _ | ⟨first, _ | ⟨second, done⟩⟩
  · cases run
    cases split
    refine ⟨16, opened.machine, ?_, ?_, fun _ member => by cases member⟩
    · simp only [allocOp, size]
      rfl
    · simp only [allocOp, size]
      exact proper_sixteen rfl rfl
  · cases split
    rcases run with _ | ⟨run, outcome, nonzero⟩
    cases run
    have ensured : Ensures (evalAlloc twoAddresses (resizeOnce index) 0 0
        (allocOp index 8 (by decide))) opened fun passed final =>
        passed ≠ 0 ∧ final = before := ⟨_, before, outcome, nonzero, rfl⟩
    rcases evalAlloc_passes.mp ensured with ⟨p, machine, returned, _, _, _, _, _, rfl⟩
    simp only [allocOp, size, twoAddresses, if_true, Option.some.injEq, Prod.mk.injEq] at returned
    rcases returned with ⟨rfl, rfl⟩
    generalize middle : placed opened opened.machine (allocOp index 8 (by decide)) 16 = before
    have here : before.blocks index = 16 := by
      rw [← middle]
      exact Function.update_self _ _ _
    have request : (reallocOp index 8 (by decide)).request before = .realloc 16 8 := by
      simp only [TraceOp.request, reallocOp, here, size]
    have live : ((allocOp index 8 (by decide)).request opened).liveAfter []
        (before.blocks (allocOp index 8 (by decide)).index) = [(16, 8)] := by
      simp only [TraceOp.request, allocOp, here, size, Request.liveAfter]
      rfl
    rw [request, live, ← middle]
    exact fulfils_resize rfl rfl
  · have lengths := congrArg List.length split
    simp only [resizeOnce, List.length_cons, List.length_nil, List.length_append] at lengths
    omega

theorem accepts_correct_low_id :
    (∃ final, evalMmValid twoAddresses (resizeOnce 0) 0 fresh = some (1, final)) ↔
      ∀ op ∈ (resizeOnce 0).ops, op.type = .realloc → op.index % 256 < 128 := by
  rcases fresh_opened with ⟨_, machine, _, outcome, start⟩
  cases outcome
  exact accepts_correct fresh_arena rfl start (resizeOnce_wellFormed 0) (resizeOnce_correct 0)

/-- The driver rejects a package that is correct on a trace that resizes the
block of id 128. -/
theorem rejects_correct_high_id :
    (∃ machine, twoAddresses.mmInit (fresh.machine.setBrk fresh.machine.memStartBrk) =
        some (0, machine) ∧ opened = { fresh with machine := machine, ranges := [] }) ∧
      (resizeOnce 128).WellFormed ∧ CorrectOn twoAddresses (resizeOnce 128) 0 opened ∧
      ¬∃ final, evalMmValid twoAddresses (resizeOnce 128) 0 fresh = some (1, final) := by
  rcases fresh_opened with ⟨_, machine, _, outcome, start⟩
  cases outcome
  have correct := resizeOnce_correct 128
  have formed := resizeOnce_wellFormed 128
  refine ⟨⟨_, rfl, start⟩, formed, correct, ?_⟩
  rintro ⟨final, valid⟩
  have ensured : Ensures (evalMmValid twoAddresses (resizeOnce 128) 0) fresh fun valid _ =>
      valid = 1 ∧ True := ⟨1, final, valid, rfl, trivial⟩
  rcases evalMmValid_passes.mp ensured with ⟨_, ⟨_, _, _, again, rfl⟩, valid⟩
  cases again
  have isOpen : Opened twoAddresses fresh opened := ⟨0, _, Int.le_refl 0, rfl, start⟩
  have initial : Holds opened [] [] :=
    ⟨isOpen.mirrors fresh_arena, List.Pairwise.nil, ⟨.nil, rfl, by simp, by simp⟩⟩
  rw [← start] at valid
  have low := (evalOps_accepts correct [] rfl .start initial formed).mp valid
    (reallocOp 128 8 (by decide)) (by simp) rfl
  simp [reallocOp] at low

end MallocLab.Driver
