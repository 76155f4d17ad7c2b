import MallocLab.Driver.Replay

/-! # The range list mirrors the live payloads

Along every run the range list holds the live payloads, and they are disjoint
unless the package offered one that encloses another.
-/

namespace MallocLab.Driver

open Program

variable {Statics : Type} {package : Package Statics} {trace : Trace} {op : TraceOp}
  {state before after : State Statics} {machine : Machine Statics} {tracenum p : Nat}
  {live : List (Nat × Nat)}

/-- The bytes of a payload. -/
def payloadRange (spot : Nat × Nat) : Range := ⟨spot.1, spot.1 + spot.2 - 1⟩

/-- The payload encloses one that is live. -/
def Offer.Encloses (offer : Offer) : Prop :=
  ∃ other ∈ offer.others, (payloadRange other).Within (payloadRange offer.payload)

/-- No two payloads have a byte in common. -/
def Disjoint (live : List (Nat × Nat)) : Prop :=
  live.Pairwise fun left right => ¬(payloadRange left).Meets (payloadRange right)

/-- A payload is not empty and lies in the heap. -/
def InHeap (machine : Machine Statics) (spot : Nat × Nat) : Prop :=
  0 < spot.2 ∧ machine.memStartBrk ≤ spot.1 ∧ spot.1 + spot.2 ≤ machine.memBrk

/-- The break lies in the arena that `mem_init` took, which does not reach the
end of the address space. -/
structure Arena (machine : Machine Statics) : Prop where
  positive : 0 < machine.memStartBrk
  ordered : machine.memStartBrk ≤ machine.memBrk
  arena : machine.memMaxAddr = machine.memStartBrk + maxHeap
  addressable : machine.memMaxAddr < 2 ^ 32
  bounded : machine.memBrk ≤ machine.memMaxAddr

theorem Extends.arena {other : Machine Statics} (growth : Extends machine other)
    (arena : Arena machine) : Arena other where
  positive := by
    rw [growth.memStartBrk]
    exact arena.positive
  ordered := by
    rw [growth.memStartBrk]
    exact arena.ordered.trans growth.grows
  arena := by
    rw [growth.memMaxAddr, growth.memStartBrk]
    exact arena.arena
  addressable := by
    rw [growth.memMaxAddr]
    exact arena.addressable
  bounded := by
    rw [growth.memMaxAddr]
    exact growth.bounded arena.bounded

theorem Extends.inHeap {other : Machine Statics} (growth : Extends machine other)
    {spot : Nat × Nat} (inHeap : InHeap machine spot) : InHeap other spot := by
  rcases inHeap with ⟨positive, low, high⟩
  refine ⟨positive, ?_, high.trans growth.grows⟩
  rw [growth.memStartBrk]
  exact low

theorem Arena.fill (arena : Arena machine) (target : Nat) (value : UInt8) (count : Nat) :
    Arena (machine.fill target value count) :=
  ⟨arena.positive, arena.ordered, arena.arena, arena.addressable, arena.bounded⟩

/-- The range list holds the live payloads, each at its own address. -/
structure Mirrors (state : State Statics) (live : List (Nat × Nat)) : Prop where
  arena : Arena state.machine
  ranges : state.ranges = live.map payloadRange
  distinct : (live.map Prod.fst).Nodup
  inHeap : ∀ spot ∈ live, InHeap state.machine spot

theorem Mirrors.extend (mirrors : Mirrors state live) (growth : Extends state.machine machine) :
    Mirrors { state with machine := machine } live where
  arena := growth.arena mirrors.arena
  ranges := mirrors.ranges
  distinct := mirrors.distinct
  inHeap := fun spot member => growth.inHeap (mirrors.inHeap spot member)

/-- Removing the range at an address removes the payload there. -/
theorem eraseP_ranges (distinct : (live.map Prod.fst).Nodup) (lo : Nat) :
    ((live.map payloadRange).eraseP fun range => range.lo = lo) =
      (live.filter fun spot => spot.1 ≠ lo).map payloadRange := by
  induction live with
  | nil => rfl
  | cons spot live induction =>
      rw [List.map_cons, List.nodup_cons] at distinct
      by_cases same : spot.1 = lo
      · have others : live.filter (fun spot => spot.1 ≠ lo) = live := by
          rw [List.filter_eq_self]
          intro other member
          refine decide_eq_true fun equal => distinct.1 ?_
          rw [same, ← equal]
          exact List.mem_map_of_mem member
        rw [List.map_cons, List.eraseP_cons_of_pos (by simp [payloadRange, same]),
          List.filter_cons_of_neg (by simpa using same), others]
      · rw [List.map_cons, List.eraseP_cons_of_neg (by simp [payloadRange, same]),
          List.filter_cons_of_pos (by simpa using same), List.map_cons, induction distinct.2]

theorem Mirrors.remove (mirrors : Mirrors state live) (lo : Nat) :
    Mirrors (removed state lo) (live.filter fun spot => spot.1 ≠ lo) where
  arena := mirrors.arena
  ranges := by
    rw [removed, mirrors.ranges]
    exact eraseP_ranges mirrors.distinct lo
  distinct := mirrors.distinct.sublist (List.filter_sublist.map _)
  inHeap := fun spot member => mirrors.inHeap spot (List.mem_of_mem_filter member)

/-- What `add_range` lets pass does not wrap around the address space. -/
theorem lastByte_of_accepts (arena : Arena state.machine) (positive : 0 < op.size)
    (accepts : ¬Refuses state p (lastByte p op.size)) :
    lastByte p op.size = p + toSizeT op.size - 1 ∧ InHeap state.machine (p, toSizeT op.size) := by
  have high := op.high
  have size : toSizeT op.size = op.size.toNat := toSizeT_of_lt (by omega) (by omega)
  rw [Refuses, not_or, not_or] at accepts
  rcases accepts with ⟨_, inside, _⟩
  have extent := arena.arena
  have addressable := arena.addressable
  have bounded := arena.bounded
  have nonempty := arena.positive.trans_le arena.ordered
  unfold maxHeap at extent
  by_cases noWrap : p + op.size.toNat - 1 < 2 ^ 32
  · have last := lastByte_eq positive noWrap
    rw [size]
    refine ⟨last, by omega, by omega, ?_⟩
    simp only
    omega
  · -- the sum would end below the heap
    have wraps : lastByte p op.size = p + op.size.toNat - 1 - 2 ^ 32 := by
      unfold lastByte toSizeT
      omega
    omega

/-- A payload that `add_range` accepted is one more live payload. -/
theorem Mirrors.place (mirrors : Mirrors state live) (growth : Extends state.machine machine)
    (positive : 0 < op.size)
    (accepts : ¬Refuses { state with machine := machine } p (lastByte p op.size)) :
    Mirrors (placed state machine op p) ((p, toSizeT op.size) :: live) := by
  have extended := mirrors.extend growth
  rcases lastByte_of_accepts extended.arena positive accepts with ⟨last, inHeap⟩
  rw [Refuses, not_or, not_or] at accepts
  refine ⟨extended.arena.fill _ _ _, ?_, ?_, ?_⟩
  · rw [placed, last, mirrors.ranges]
    rfl
  · rw [List.map_cons, List.nodup_cons]
    refine ⟨fun member => accepts.2.2 ?_, mirrors.distinct⟩
    rcases List.mem_map.mp member with ⟨spot, listed, same⟩
    have owned := (mirrors.inHeap spot listed).1
    refine ⟨payloadRange spot, ?_, .inl ⟨?_, ?_⟩⟩
    · simp only [mirrors.ranges]
      exact List.mem_map_of_mem listed
    · exact same.le
    · unfold payloadRange
      simp only at same ⊢
      omega
  · intro spot member
    rcases List.mem_cons.mp member with rfl | listed
    · exact inHeap
    · exact extended.inHeap spot listed

/-- An accepted payload meets a live one only by enclosing it. -/
theorem Mirrors.encloses_of_meets (mirrors : Mirrors state live)
    (growth : Extends state.machine machine) (positive : 0 < op.size)
    (accepts : ¬Refuses { state with machine := machine } p (lastByte p op.size))
    {other : Nat × Nat} (member : other ∈ live)
    (meets : (payloadRange (p, toSizeT op.size)).Meets (payloadRange other)) :
    Offer.Encloses ⟨(p, toSizeT op.size), live⟩ := by
  rcases lastByte_of_accepts (mirrors.extend growth).arena positive accepts with ⟨last, inHeap⟩
  have owned := (mirrors.inHeap other member).1
  have isRange : payloadRange (p, toSizeT op.size) = ⟨p, lastByte p op.size⟩ := by
    rw [last]
    rfl
  have ordered : (payloadRange (p, toSizeT op.size)).lo ≤ (payloadRange (p, toSizeT op.size)).hi := by
    have positive := inHeap.1
    unfold payloadRange
    simp only at positive ⊢
    omega
  have otherOrdered : (payloadRange other).lo ≤ (payloadRange other).hi := by
    unfold payloadRange
    simp only
    omega
  rcases (Range.meets_iff ordered otherOrdered).mp meets with touches | within
  · rw [Refuses, not_or, not_or] at accepts
    refine absurd ⟨payloadRange other, ?_, ?_⟩ accepts.2.2
    · simp only [mirrors.ranges]
      exact List.mem_map_of_mem member
    · rwa [isRange] at touches
  · exact ⟨other, member, within⟩

/-! ## One request -/

/-- What one passed request did: the live payloads were as the range list says,
and a payload that meets another one was offered so as to enclose it. -/
structure Advanced (live : List (Nat × Nat)) (request : Request) (result : Nat)
    (after : State Statics) : Prop where
  mirrors : Mirrors after (request.liveAfter live result)
  disjoint : (∀ offer ∈ offers live result request, ¬offer.Encloses) → Disjoint live →
    Disjoint (request.liveAfter live result)

theorem Disjoint.filter (disjoint : Disjoint live) (lo : Nat) :
    Disjoint (live.filter fun spot => spot.1 ≠ lo) :=
  List.Pairwise.sublist List.filter_sublist disjoint

theorem Disjoint.cons (mirrors : Mirrors state live) (growth : Extends state.machine machine)
    (positive : 0 < op.size)
    (accepts : ¬Refuses { state with machine := machine } p (lastByte p op.size))
    (disjoint : Disjoint live) (fair : ¬Offer.Encloses ⟨(p, toSizeT op.size), live⟩) :
    Disjoint ((p, toSizeT op.size) :: live) := by
  refine List.Pairwise.cons (fun other member meets => fair ?_) disjoint
  exact mirrors.encloses_of_meets growth positive accepts member meets

theorem Mirrors.evalAlloc (mirrors : Mirrors before live) {i passed : Nat}
    (outcome : evalAlloc package trace tracenum i op before = some (passed, after))
    (nonzero : passed ≠ 0) :
    Advanced live (.malloc (toSizeT op.size)) (after.blocks op.index) after := by
  have ensured : Ensures (Driver.evalAlloc package trace tracenum i op) before fun passed final =>
      passed ≠ 0 ∧ final = after := ⟨passed, after, outcome, nonzero, rfl⟩
  rcases evalAlloc_passes.mp ensured with
    ⟨p, machine, returned, isSome, positive, accepts, _, _, rfl⟩
  have growth := package.malloc_extends _ returned
  have result : (placed before machine op p).blocks op.index = p := Function.update_self _ _ _
  rw [result]
  constructor
  · simpa only [Request.liveAfter, if_neg isSome] using mirrors.place growth positive accepts
  · intro fair disjoint
    simp only [Request.liveAfter, if_neg isSome]
    exact disjoint.cons mirrors growth positive accepts (fair _ List.mem_cons_self)

theorem Mirrors.evalRealloc (mirrors : Mirrors before live) {i passed : Nat}
    (outcome : evalRealloc package trace tracenum i op before = some (passed, after))
    (nonzero : passed ≠ 0) :
    Advanced live (.realloc (before.blocks op.index) (toSizeT op.size)) (after.blocks op.index)
      after := by
  have ensured : Ensures (Driver.evalRealloc package trace tracenum i op) before
      fun passed final => passed ≠ 0 ∧ final = after := ⟨passed, after, outcome, nonzero, rfl⟩
  rcases (evalRealloc_passes.mp ensured).2 with
    ⟨p, machine, returned, isSome, positive, accepts, _, _, rfl⟩
  have growth := package.realloc_extends _ _ returned
  have others := mirrors.remove (before.blocks op.index)
  have result : (placed (removed before (before.blocks op.index)) machine op p).blocks op.index =
      p := Function.update_self _ _ _
  rw [result]
  constructor
  · simpa only [Request.liveAfter, if_neg isSome] using others.place growth positive accepts
  · intro fair disjoint
    simp only [Request.liveAfter, if_neg isSome]
    exact (disjoint.filter _).cons others growth positive accepts (fair _ List.mem_cons_self)

theorem Mirrors.evalFree (mirrors : Mirrors before live) {passed : Nat}
    (outcome : evalFree package trace op before = some (passed, after))
    (nonzero : passed ≠ 0) (result : Nat) :
    Advanced live (.free (before.blocks op.index)) result after := by
  have ensured : Ensures (Driver.evalFree package trace op) before fun passed final =>
      passed ≠ 0 ∧ final = after := ⟨passed, after, outcome, nonzero, rfl⟩
  rcases (evalFree_passes.mp ensured).2 with ⟨_, machine, returned, rfl⟩
  have growth := package.free_extends _ returned
  exact ⟨(mirrors.remove _).extend growth, fun _ disjoint => disjoint.filter _⟩

theorem Mirrors.evalOp (mirrors : Mirrors before live) {i passed : Nat}
    (outcome : evalOp package trace tracenum i op before = some (passed, after))
    (nonzero : passed ≠ 0) :
    Advanced live (op.request before) (after.blocks op.index) after := by
  unfold Driver.evalOp at outcome
  unfold TraceOp.request
  cases type : op.type with
  | alloc =>
      rw [type] at outcome
      exact mirrors.evalAlloc outcome nonzero
  | realloc =>
      rw [type] at outcome
      exact mirrors.evalRealloc outcome nonzero
  | free =>
      rw [type] at outcome
      exact mirrors.evalFree outcome nonzero _

/-! ## Whole runs -/

section Runs

variable {start : State Statics} {ops : List TraceOp} {offered : List Offer}

theorem Opened.mirrors {opened : State Statics} (isOpen : Opened package state opened)
    (arena : Arena state.machine) : Mirrors opened [] := by
  rcases isOpen with ⟨value, machine, _, outcome, rfl⟩
  have reset : Arena (state.machine.setBrk state.machine.memStartBrk) :=
    ⟨arena.positive, Nat.le_refl _, arena.arena, arena.addressable,
      arena.ordered.trans arena.bounded⟩
  exact ⟨(package.init_extends outcome).arena reset, rfl, .nil, by simp⟩

/-- In every run the range list mirrors the live payloads. -/
theorem Passed.mirrors (initial : Mirrors start [])
    (run : Passed package trace tracenum start ops offered live state) : Mirrors state live := by
  induction run with
  | start => exact initial
  | op _ outcome nonzero induction => exact (induction.evalOp outcome nonzero).mirrors

/-- Where no payload was offered that encloses another one, the live payloads
are disjoint. -/
theorem Passed.disjoint (initial : Mirrors start [])
    (run : Passed package trace tracenum start ops offered live state)
    (fair : ∀ offer ∈ offered, ¬offer.Encloses) : Disjoint live := by
  induction run with
  | start => exact List.Pairwise.nil
  | op earlier outcome nonzero induction =>
      refine ((earlier.mirrors initial).evalOp outcome nonzero).disjoint ?_ (induction ?_)
      · exact fun offer member => fair offer (List.mem_append_left _ member)
      · exact fun offer member => fair offer (List.mem_append_right _ member)

end Runs

/-- A package that takes the whole arena and knows two addresses in it. -/
def twoAddresses : Package Unit where
  mmInit machine := some (0, machine.setBrk (max machine.memBrk machine.memMaxAddr))
  mmMalloc size machine := some (if size = 8 then 16 else 8, machine)
  mmFree _ machine := some ((), machine)
  mmRealloc ptr _ machine := some (ptr, machine)
  init_extends := by
    intro machine after value outcome
    cases outcome
    exact ⟨rfl, rfl, Nat.le_max_left _ _, fun bounded => Nat.max_le.mpr ⟨bounded, Nat.le_refl _⟩⟩
  malloc_extends := by
    intro size machine after value outcome
    cases outcome
    exact ⟨rfl, rfl, Nat.le_refl _, fun bounded => bounded⟩
  free_extends := by
    intro ptr machine after value outcome
    cases outcome
    exact ⟨rfl, rfl, Nat.le_refl _, fun bounded => bounded⟩
  realloc_extends := by
    intro ptr size machine after value outcome
    cases outcome
    exact ⟨rfl, rfl, Nat.le_refl _, fun bounded => bounded⟩

theorem size_low (size : Nat) : -2147483648 ≤ (size : Int) := by omega

theorem size_high {size : Nat} (small : size < 2147483648) : (size : Int) < 2147483648 := by omega

theorem eight_small : 8 < 2147483648 := by decide

def allocOp (index : Nat) (size : Nat) (small : size < 2147483648) : TraceOp :=
  ⟨.alloc, index, size, size_low size, size_high small⟩

/-- A driver that has just started. -/
def fresh : State Unit := ⟨memInit 8 (fun _ => 0) (), [], fun _ => 0, fun _ => 0, []⟩

theorem fresh_arena : Arena fresh.machine :=
  ⟨by decide, Nat.le_refl _, rfl, by decide, by decide⟩

/-- The driver once the heap was opened. -/
def opened : State Unit := { fresh with machine := fresh.machine.setBrk (8 + maxHeap) }

theorem fresh_opened : Opened twoAddresses fresh opened := by
  have whole : max 8 (8 + maxHeap) = 8 + maxHeap := Nat.max_eq_right (Nat.le_add_right _ _)
  have extended : twoAddresses.mmInit (fresh.machine.setBrk fresh.machine.memStartBrk) =
      some (0, fresh.machine.setBrk (max 8 (8 + maxHeap))) := rfl
  rw [whole] at extended
  exact ⟨0, _, Int.le_refl 0, extended, rfl⟩

/-- An address that the package returns passes if `add_range` has no reason to
refuse it. -/
theorem passes {size p i index : Nat} {trace : Trace} {state : State Unit}
    (small : size < 2147483648) (positive : 0 < size)
    (address : p = if size = 8 then 16 else 8) (known : index < trace.numIds)
    (start : state.machine.memStartBrk = 8) (brk : state.machine.memBrk = 8 + maxHeap)
    (inside : p + size ≤ 8 + maxHeap)
    (apart : ∀ range ∈ state.ranges, ¬(range.Has p ∨ range.Has (p + size - 1))) :
    ∃ passed, passed ≠ 0 ∧ evalOp twoAddresses trace 0 i (allocOp index size small) state =
      some (passed, placed state state.machine (allocOp index size small) p) := by
  unfold maxHeap at brk inside
  have converted : toSizeT (size : Int) = size := by
    rw [toSizeT_of_lt (by omega) (by omega), Int.toNat_natCast]
  have last : lastByte p (size : Int) = p + size - 1 := by
    rw [lastByte_eq (by omega) (by rw [Int.toNat_natCast]; omega), Int.toNat_natCast]
  have returned : twoAddresses.mmMalloc (toSizeT (size : Int)) state.machine =
      some (p, state.machine) := by
    rw [converted, address]
    rfl
  have low : 8 ≤ p ∧ p % 8 = 0 := by
    split at address <;> omega
  have ensured : Ensures (evalOp twoAddresses trace 0 i (allocOp index size small)) state
      fun passed after => passed ≠ 0 ∧
        after = placed state state.machine (allocOp index size small) p := by
    refine evalAlloc_passes.mpr ⟨p, _, returned, by unfold null; omega, ?_, ?_, ?_, known, rfl⟩
    · exact Int.natCast_pos.mpr positive
    · rw [show (allocOp index size small).size = (size : Int) from rfl, last]
      rintro (misaligned | outside | ⟨range, listed, touches⟩)
      · exact misaligned low.2
      · simp only [start, brk] at outside
        omega
      · exact apart range listed touches
    · rw [show (allocOp index size small).size = (size : Int) from rfl, converted]
      constructor <;> omega
  rcases ensured with ⟨passed, _, outcome, nonzero, rfl⟩
  exact ⟨passed, nonzero, outcome⟩

end MallocLab.Driver
