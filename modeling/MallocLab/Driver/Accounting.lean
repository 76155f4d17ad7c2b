import Mathlib.Algebra.BigOperators.Group.Finset.Piecewise
import Mathlib.Algebra.BigOperators.Ring.Finset
import MallocLab.Driver.Utilization

/-! # The totals of `eval_mm_util` count the live payloads

The trace alone says which sizes are live after which operation. As long as the
package answers with payloads that lie apart in the heap, their sum is bounded
by the break, which only moves up.
-/

namespace MallocLab.Driver

open Program

variable {Statics : Type} {package : Package Statics} {trace : Trace} {op : TraceOp}
  {ops done : List TraceOp} {state : State Statics} {machine after : Machine Statics}
  {payload : Nat → Nat × Nat} {ids : List Nat} {totals : Totals} {numIds p : Nat}

/-! ## Sizes in a trace -/

/-- The size of the block of its id after an operation. -/
def TraceOp.sizeAfter (op : TraceOp) : Int := if op.type = .free then 0 else op.size

/-- The size an id was last requested with, zero while it has no block. -/
def currentSize (ops : List TraceOp) (id : Nat) : Int :=
  ops.foldl (fun size op => if op.index = id then op.sizeAfter else size) 0

/-- The sum of the sizes of the live ids. -/
def liveTotal (numIds : Nat) (ops : List TraceOp) : Int :=
  ∑ id ∈ Finset.range numIds, currentSize ops id

/-- The sums after the operations so far, the one before them included. -/
def prefixTotals (numIds : Nat) (ops : List TraceOp) : Set Int :=
  { total | ∃ earlier, earlier <+: ops ∧ total = liveTotal numIds earlier }

theorem currentSize_concat (done : List TraceOp) (op : TraceOp) :
    currentSize (done ++ [op]) = Function.update (currentSize done) op.index op.sizeAfter := by
  funext id
  by_cases same : op.index = id
  · subst same
    simp [currentSize]
  · rw [Function.update_of_ne (Ne.symm same), currentSize, List.foldl_append]
    simp [currentSize, same]

theorem liveTotal_concat (known : op.index < numIds) :
    liveTotal numIds (done ++ [op]) =
      liveTotal numIds done + (op.sizeAfter - currentSize done op.index) := by
  have member : op.index ∈ Finset.range numIds := Finset.mem_range.mpr known
  rw [liveTotal, liveTotal, currentSize_concat, Finset.sum_update_of_mem member,
    Finset.sum_eq_add_sum_sdiff_singleton_of_mem member]
  omega

theorem prefixTotals_concat : prefixTotals numIds (done ++ [op]) =
    insert (liveTotal numIds (done ++ [op])) (prefixTotals numIds done) := by
  ext total
  simp only [prefixTotals, Set.mem_ofPred_eq, Set.mem_insert_iff, List.prefix_concat_iff]
  constructor
  · rintro ⟨earlier, rfl | before, rfl⟩
    · exact .inl rfl
    · exact .inr ⟨earlier, before, rfl⟩
  · rintro (rfl | ⟨earlier, before, rfl⟩)
    · exact ⟨_, .inl rfl, rfl⟩
    · exact ⟨earlier, .inr before, rfl⟩

/-! ## What the package provides -/

/-- The payloads of the live ids lie in the heap and have no byte in common. -/
structure Provided (machine : Machine Statics) (payload : Nat → Nat × Nat) (ids : List Nat) :
    Prop where
  inHeap : ∀ id ∈ ids, InHeap machine (payload id)
  disjoint : Disjoint (ids.map payload)

/-- The package answers every request of a trace, and what it answers with
lies in the heap apart from the other live payloads. -/
def Succeeds (package : Package Statics) :
    Machine Statics → (Nat → Nat × Nat) → List Nat → List TraceOp → Prop
  | _, _, _, [] => True
  | machine, payload, ids, op :: ops =>
      let answered := fun (p : Nat) (after : Machine Statics) =>
        p ≠ null ∧
          Provided after (Function.update payload op.index (p, toSizeT op.size))
            (op.idsAfter ids) ∧
          Succeeds package after (Function.update payload op.index (p, toSizeT op.size))
            (op.idsAfter ids) ops
      match op.type with
      | .alloc => Ensures (package.mmMalloc (toSizeT op.size)) machine answered
      | .realloc =>
          Ensures (package.mmRealloc (payload op.index).1 (toSizeT op.size)) machine answered
      | .free => Ensures (package.mmFree (payload op.index).1) machine fun _ after =>
          Succeeds package after payload (op.idsAfter ids) ops

/-- Disjoint payloads in the heap are together not larger than it. -/
theorem Provided.sum_le (provided : Provided machine payload ids) :
    ((ids.map payload).map Prod.snd).sum ≤ machine.heapLength := by
  apply Intervals.sum_le
  · apply provided.disjoint.imp_of_mem
    intro first second inFirst inSecond apart
    rcases List.mem_map.mp inFirst with ⟨id, member, rfl⟩
    rcases List.mem_map.mp inSecond with ⟨other, otherMember, rfl⟩
    have bounds := provided.inHeap id member
    have otherBounds := provided.inHeap other otherMember
    by_contra meets
    rw [Intervals.Apart, not_or, not_le, not_le] at meets
    apply apart
    -- the larger of the two starts lies in both payloads
    refine ⟨max (payload id).1 (payload other).1, ?_, ?_⟩ <;>
      simp only [Range.Has, payloadRange] <;>
      unfold InHeap at bounds otherBounds <;> omega
  · intro interval member
    rcases List.mem_map.mp member with ⟨id, listed, rfl⟩
    have bounds := provided.inHeap id listed
    exact bounds.2

/-! ## What holds between two operations -/

/-- The driver remembers the payloads of the live ids, whose sizes are those of
the trace, and the totals count them. -/
structure Accounts (trace : Trace) (state : State Statics) (payload : Nat → Nat × Nat)
    (ids : List Nat) (totals : Totals) (done : List TraceOp) : Prop where
  arena : Arena state.machine
  provided : Provided state.machine payload ids
  nodup : ids.Nodup
  known : ∀ id ∈ ids, id < trace.numIds
  blocks : ∀ id ∈ ids, state.blocks id = (payload id).1
  blockSizes : ∀ id ∈ ids, state.blockSizes id = (payload id).2
  sizes : ∀ id, currentSize done id = if id ∈ ids then ((payload id).2 : Int) else 0
  total : totals.totalSize = liveTotal trace.numIds done
  greatest : IsGreatest (prefixTotals trace.numIds done) totals.maxTotalSize
  fits : totals.maxTotalSize ≤ state.machine.heapLength

/-- The live sizes of the trace are those of the payloads. -/
theorem liveTotal_eq (nodup : ids.Nodup) (known : ∀ id ∈ ids, id < numIds)
    (sizes : ∀ id, currentSize done id = if id ∈ ids then ((payload id).2 : Int) else 0) :
    liveTotal numIds done = (((ids.map payload).map Prod.snd).sum : Nat) := by
  have inside : ids.toFinset ⊆ Finset.range numIds := by
    intro id member
    exact Finset.mem_range.mpr (known id (List.mem_toFinset.mp member))
  calc liveTotal numIds done
      = ∑ id ∈ Finset.range numIds, if id ∈ ids.toFinset then ((payload id).2 : Int) else 0 := by
        refine Finset.sum_congr rfl fun id _ => ?_
        simp only [sizes id, List.mem_toFinset]
    _ = ∑ id ∈ ids.toFinset, ((payload id).2 : Int) := by
        rw [Finset.sum_ite_mem, Finset.inter_eq_right.mpr inside]
    _ = (∑ id ∈ ids.toFinset, (payload id).2 : Nat) := by
        rw [Nat.cast_sum]
    _ = (((ids.map payload).map Prod.snd).sum : Nat) := by
        rw [List.sum_toFinset _ nodup, List.map_map]
        rfl

theorem liveTotal_bounds (arena : Arena machine) (provided : Provided machine payload ids)
    (nodup : ids.Nodup) (known : ∀ id ∈ ids, id < numIds)
    (sizes : ∀ id, currentSize done id = if id ∈ ids then ((payload id).2 : Int) else 0) :
    0 ≤ liveTotal numIds done ∧ liveTotal numIds done ≤ machine.heapLength ∧
      machine.heapLength ≤ maxHeap := by
  have fits := provided.sum_le
  have ordered := arena.ordered
  have bounded := arena.bounded
  have extent := arena.arena
  rw [liveTotal_eq nodup known sizes]
  unfold Machine.heapLength at *
  omega

/-! ## One operation -/

theorem TraceOp.mem_idsAfter (proper : op.WellFormed numIds ids) (nodup : ids.Nodup)
    (sized : op.type ≠ .free) :
    (op.idsAfter ids).Nodup ∧ ∀ id, id ∈ op.idsAfter ids ↔ id = op.index ∨ id ∈ ids := by
  unfold idsAfter
  unfold WellFormed at proper
  cases type : op.type with
  | free => exact absurd type sized
  | alloc =>
      rw [type] at proper
      exact ⟨List.nodup_cons.mpr ⟨proper.2.1, nodup⟩, fun id => List.mem_cons⟩
  | realloc =>
      refine ⟨List.nodup_cons.mpr ⟨nodup.not_mem_erase, nodup.erase _⟩, fun id => ?_⟩
      rw [List.mem_cons, nodup.mem_erase_iff]
      tauto

/-- The state once a block was remembered. -/
def remembered (state : State Statics) (machine : Machine Statics) (op : TraceOp) (p : Nat) :
    State Statics :=
  { state with
    machine := machine
    blocks := Function.update state.blocks op.index p
    blockSizes := Function.update state.blockSizes op.index (toSizeT op.size) }

/-- The greatest total so far is a total of the trace, and no total is greater. -/
theorem raise_greatest (greatest : IsGreatest (prefixTotals numIds done) totals.maxTotalSize) :
    IsGreatest (prefixTotals numIds (done ++ [op]))
      (raise totals (liveTotal numIds (done ++ [op]))).maxTotalSize := by
  rw [prefixTotals_concat]
  have larger := greatest.insert (liveTotal numIds (done ++ [op]))
  have same : (raise totals (liveTotal numIds (done ++ [op]))).maxTotalSize =
      max (liveTotal numIds (done ++ [op])) totals.maxTotalSize := by
    simp only [raise]
    split <;> omega
  rw [same]
  exact larger

variable (accounts : Accounts trace state payload ids totals done)

include accounts

/-- A new or moved block of an id. -/
theorem Accounts.place (proper : op.WellFormed trace.numIds ids) (sized : op.type ≠ .free)
    (growth : Extends state.machine machine)
    (provided : Provided machine (Function.update payload op.index (p, toSizeT op.size))
      (op.idsAfter ids)) :
    Accounts trace (remembered state machine op p)
      (Function.update payload op.index (p, toSizeT op.size)) (op.idsAfter ids)
      (raise totals (liveTotal trace.numIds (done ++ [op]))) (done ++ [op]) := by
  rcases TraceOp.mem_idsAfter proper accounts.nodup sized with ⟨nodup, members⟩
  have known : ∀ id ∈ op.idsAfter ids, id < trace.numIds := by
    intro id member
    rcases (members id).mp member with rfl | before
    · exact proper.1
    · exact accounts.known id before
  have positive : 1 ≤ op.size := by
    have checked := proper.2
    cases type : op.type with
    | free => exact absurd type sized
    | alloc =>
        rw [type] at checked
        exact checked.2
    | realloc =>
        rw [type] at checked
        exact checked.2
  have high := op.high
  have size : (toSizeT op.size : Int) = op.size := by
    rw [toSizeT_of_lt (by omega) (by omega)]
    omega
  have sizes : ∀ id, currentSize (done ++ [op]) id =
      if id ∈ op.idsAfter ids then
        ((Function.update payload op.index (p, toSizeT op.size) id).2 : Int) else 0 := by
    intro id
    rw [currentSize_concat]
    by_cases same : id = op.index
    · subst same
      rw [if_pos ((members op.index).mpr (.inl rfl)), Function.update_self, Function.update_self,
        TraceOp.sizeAfter, if_neg sized, size]
    · rw [Function.update_of_ne same, Function.update_of_ne same, accounts.sizes id]
      simp only [members, same, false_or]
  have remembers : ∀ id ∈ op.idsAfter ids,
      Function.update state.blocks op.index p id =
          (Function.update payload op.index (p, toSizeT op.size) id).1 ∧
        Function.update state.blockSizes op.index (toSizeT op.size) id =
          (Function.update payload op.index (p, toSizeT op.size) id).2 := by
    intro id member
    by_cases same : id = op.index
    · subst same
      simp only [Function.update_self, and_self]
    · simp only [Function.update_of_ne same]
      have before := ((members id).mp member).resolve_left same
      exact ⟨accounts.blocks id before, accounts.blockSizes id before⟩
  have arena := growth.arena accounts.arena
  have bounds := liveTotal_bounds arena provided nodup known sizes
  have length : state.machine.heapLength ≤ machine.heapLength := by
    have grows := growth.grows
    unfold Machine.heapLength
    rw [growth.memStartBrk]
    omega
  refine ⟨arena, provided, nodup, known, fun id member => (remembers id member).1,
    fun id member => (remembers id member).2, sizes, rfl, raise_greatest accounts.greatest, ?_⟩
  have fits := accounts.fits
  change (if _ then _ else _ : Int) ≤ (machine.heapLength : Int)
  split <;> omega

/-- A block given up. -/
theorem Accounts.giveUp (proper : op.WellFormed trace.numIds ids) (free : op.type = .free)
    (growth : Extends state.machine machine) :
    Accounts trace { state with machine := machine } payload (op.idsAfter ids)
      { totals with totalSize := liveTotal trace.numIds (done ++ [op]) } (done ++ [op]) := by
  have after : op.idsAfter ids = ids.erase op.index := by rw [TraceOp.idsAfter, free]
  have members : ∀ id, id ∈ op.idsAfter ids ↔ id ≠ op.index ∧ id ∈ ids := by
    intro id
    rw [after, accounts.nodup.mem_erase_iff]
  have nodup : (op.idsAfter ids).Nodup := by
    rw [after]
    exact accounts.nodup.erase _
  have provided : Provided machine payload (op.idsAfter ids) := by
    refine ⟨fun id member => ?_, ?_⟩
    · exact growth.inHeap (accounts.provided.inHeap id ((members id).mp member).2)
    · rw [after]
      exact accounts.provided.disjoint.sublist ((List.erase_sublist).map payload)
  have sizes : ∀ id, currentSize (done ++ [op]) id =
      if id ∈ op.idsAfter ids then ((payload id).2 : Int) else 0 := by
    intro id
    rw [currentSize_concat]
    by_cases same : id = op.index
    · subst same
      simp [members, TraceOp.sizeAfter, free]
    · rw [Function.update_of_ne same, accounts.sizes id]
      simp only [members, ne_eq, same, not_false_eq_true, true_and]
  have length : state.machine.heapLength ≤ machine.heapLength := by
    have grows := growth.grows
    unfold Machine.heapLength
    rw [growth.memStartBrk]
    omega
  refine ⟨growth.arena accounts.arena, provided, nodup, ?_, ?_, ?_, sizes, rfl, ?_, ?_⟩
  · exact fun id member => accounts.known id ((members id).mp member).2
  · exact fun id member => accounts.blocks id ((members id).mp member).2
  · exact fun id member => accounts.blockSizes id ((members id).mp member).2
  · rw [prefixTotals_concat]
    have larger := accounts.greatest.insert (liveTotal trace.numIds (done ++ [op]))
    have before : liveTotal trace.numIds done ≤ totals.maxTotalSize :=
      accounts.greatest.2 ⟨done, List.prefix_rfl, rfl⟩
    have known : op.index < trace.numIds := proper.1
    have smaller : liveTotal trace.numIds (done ++ [op]) = _ := liveTotal_concat known
    have removed : 0 ≤ currentSize done op.index := by
      rw [accounts.sizes op.index]
      split <;> omega
    rw [TraceOp.sizeAfter, if_pos free] at smaller
    have top : max (liveTotal trace.numIds (done ++ [op])) totals.maxTotalSize =
        totals.maxTotalSize := max_eq_right (by omega)
    rwa [top] at larger
  · have fits := accounts.fits
    change totals.maxTotalSize ≤ (machine.heapLength : Int)
    omega

/-- The totals stay far below the largest `int`. -/
theorem Accounts.total_bounds : 0 ≤ liveTotal trace.numIds done ∧
    liveTotal trace.numIds done ≤ 20971520 ∧ ∀ id, 0 ≤ currentSize done id ∧
      currentSize done id ≤ 20971520 := by
  have bounds := liveTotal_bounds accounts.arena accounts.provided accounts.nodup accounts.known
    accounts.sizes
  have heap : maxHeap = 20971520 := rfl
  refine ⟨bounds.1, by omega, fun id => ?_⟩
  rw [accounts.sizes id]
  split
  · rename_i member
    have inHeap := (accounts.provided.inHeap id member).2
    have length : state.machine.heapLength = state.machine.memBrk - state.machine.memStartBrk := rfl
    omega
  · omega

/-- What `block_sizes` holds for a live id. -/
theorem Accounts.blockSize (member : op.index ∈ ids) :
    toInt (state.blockSizes op.index) = currentSize done op.index ∧
      state.blocks op.index = (payload op.index).1 := by
  have bounds := accounts.total_bounds.2.2 op.index
  have size := accounts.sizes op.index
  rw [if_pos member] at size
  rw [accounts.blockSizes _ member, accounts.blocks _ member, size]
  exact ⟨toInt_of_lt (by omega), rfl⟩

/-- One operation of a trace, with a package that answers it. -/
theorem Accounts.step (proper : op.WellFormed trace.numIds ids)
    (succeeds : Succeeds package state.machine payload ids (op :: ops)) :
    Ensures (utilOp package trace totals op) state fun result after =>
      ∃ next payload, result = some next ∧
        Accounts trace after payload (op.idsAfter ids) next (done ++ [op]) ∧
        Succeeds package after.machine payload (op.idsAfter ids) ops := by
  have known : op.index < trace.numIds := proper.1
  have before := accounts.total_bounds
  have beforeId := before.2.2 op.index
  have low := op.low
  have high := op.high
  have total : liveTotal trace.numIds (done ++ [op]) = _ := liveTotal_concat known
  rw [← accounts.total] at total before
  unfold Succeeds at succeeds
  cases type : op.type with
  | alloc =>
      simp only [type] at succeeds
      rcases succeeds with ⟨p, machine, outcome, nonzero, provided, later⟩
      have sized : op.type ≠ .free := by simp [type]
      have placed := accounts.place proper sized (package.malloc_extends _ outcome) provided
      have after := placed.total_bounds
      have absent : op.index ∉ ids := by
        have checked := proper.2
        rw [type] at checked
        exact checked.1
      have nothing : currentSize done op.index = 0 := by rw [accounts.sizes, if_neg absent]
      rw [TraceOp.sizeAfter, if_neg sized, nothing, Int.sub_zero] at total
      rw [total] at placed after
      simp only [utilOp, type, utilAlloc, ensures_bind, ensures_onMachine]
      refine ⟨p, machine, outcome, ?_⟩
      simp only [if_neg nonzero, remember, signed, ensures_bind, ensures_require, ensures_change,
        ensures_pure]
      exact ⟨known, ⟨by omega, by omega⟩, _, _, rfl, placed, later⟩
  | realloc =>
      simp only [type] at succeeds
      rcases succeeds with ⟨p, machine, outcome, nonzero, provided, later⟩
      have sized : op.type ≠ .free := by simp [type]
      have placed := accounts.place proper sized (package.realloc_extends _ _ outcome) provided
      have after := placed.total_bounds
      have present : op.index ∈ ids := by
        have checked := proper.2
        rw [type] at checked
        exact checked.1
      rcases accounts.blockSize present with ⟨oldsize, oldp⟩
      rw [TraceOp.sizeAfter, if_neg sized] at total
      rw [total] at placed after
      simp only [utilOp, type, utilRealloc, blockSizeOf, blockOf, ensures_bind, ensures_require,
        ensures_view, ensures_onMachine, oldp, oldsize]
      refine ⟨known, known, p, machine, outcome, ?_⟩
      simp only [if_neg nonzero, remember, signed, ensures_bind, ensures_require, ensures_change,
        ensures_pure]
      exact ⟨known, ⟨by omega, by omega⟩, ⟨by omega, by omega⟩, _, _, rfl, placed, later⟩
  | free =>
      simp only [type] at succeeds
      rcases succeeds with ⟨value, machine, outcome, later⟩
      have given := accounts.giveUp proper type (package.free_extends _ outcome)
      have after := given.total_bounds
      have present : op.index ∈ ids := by
        have checked := proper.2
        rw [type] at checked
        exact checked
      rcases accounts.blockSize present with ⟨size, p⟩
      rw [TraceOp.sizeAfter, if_pos type, Int.zero_sub, ← Int.sub_eq_add_neg] at total
      rw [total] at given after
      simp only [utilOp, type, utilFree, blockSizeOf, blockOf, ensures_bind, ensures_require,
        ensures_view, ensures_onMachine, p, size]
      refine ⟨known, known, value, machine, outcome, ?_⟩
      simp only [signed, ensures_bind, ensures_require, ensures_pure]
      exact ⟨⟨by omega, by omega⟩, _, _, rfl, given, later⟩

/-- All operations of a trace. -/
theorem Accounts.run (proper : WellFormedFrom trace.numIds ids ops)
    (succeeds : Succeeds package state.machine payload ids ops) :
    Ensures (utilOps package trace totals ops) state fun result after =>
      ∃ final payload ids, result = some final ∧
        Accounts trace after payload ids final (done ++ ops) := by
  induction ops generalizing state payload ids totals done with
  | nil =>
      rw [utilOps, ensures_pure]
      refine ⟨totals, payload, ids, rfl, ?_⟩
      rwa [List.append_nil]
  | cons op ops induction =>
      rw [utilOps, ensures_bind]
      refine (accounts.step proper.1 succeeds).mono fun result after => ?_
      rintro ⟨next, payload, rfl, stepped, later⟩
      have whole := induction stepped proper.2 later
      rwa [List.append_assoc, List.singleton_append] at whole

omit accounts

/-! ## The whole replay -/

/-- Before the first operation nothing is live. -/
theorem accounts_start (arena : Arena state.machine) :
    Accounts trace state payload [] ⟨0, 0⟩ [] := by
  refine ⟨arena, ⟨by simp, .nil⟩, .nil, by simp, by simp, by simp, fun _ => rfl, ?_, ?_, ?_⟩
  · simp [liveTotal, currentSize]
  · have only : prefixTotals trace.numIds [] = {0} := by
      ext total
      simp [prefixTotals, liveTotal, currentSize]
    rw [only]
    exact isGreatest_singleton
  · exact Int.natCast_nonneg _

end MallocLab.Driver
