import MallocLab.Driver.Verdict
import MallocLab.Driver.Main

/-! # Measuring a package that follows an allocator

`eval_mm_util` and `eval_mm_speed` replay a trace without checking it. With a
package that follows an allocator they end the driver exactly where the
allocator refuses a request, and otherwise come to the position of the
allocator.
-/

namespace MallocLab.Driver

open Program

variable {Statics Heap : Type} {package : Package Statics} {allocator : Allocator Heap}
  {start : Machine Statics → Prop} {kind : Request → Prop}
  {Serves : Machine Statics → List (Nat × Nat) → Heap → Prop}
  {trace : Trace} {op : TraceOp} {ops done : List TraceOp} {state : State Statics}
  {machine after : Machine Statics} {position next : Position Heap} {ids rest : List Nat}
  {payload : Nat → Nat × Nat} {totals : Totals} {p size : Nat}

/-! ## Payloads that the package provides -/

theorem Package.answer_extends {request : Request}
    (outcome : package.answer request machine = some (p, after)) : Extends machine after := by
  cases request with
  | malloc size => exact package.malloc_extends size outcome
  | free ptr =>
      rcases Option.bind_eq_some_iff.mp outcome with ⟨⟨value, other⟩, freed, same⟩
      cases same
      exact package.free_extends ptr freed
  | realloc ptr size => exact package.realloc_extends ptr size outcome

/-- Payloads with bytes that have none in common begin at different addresses. -/
theorem Provided.distinct (provided : Provided machine payload ids) :
    ((ids.map payload).map Prod.fst).Nodup := by
  refine List.pairwise_map.mpr (provided.disjoint.imp_of_mem ?_)
  intro first second inFirst inSecond apart same
  rcases List.mem_map.mp inFirst with ⟨id, member, rfl⟩
  rcases List.mem_map.mp inSecond with ⟨other, otherMember, rfl⟩
  have bounds := (provided.inHeap id member).1
  have otherBounds := (provided.inHeap other otherMember).1
  refine apart ⟨(payload id).1, ?_, ?_⟩ <;>
    · simp only [Range.Has, payloadRange]
      omega

/-- Without the payload of one id, those of the others are left. -/
theorem Provided.filter (provided : Provided machine payload ids) (nodup : ids.Nodup) {id : Nat}
    (member : id ∈ ids) :
    ((ids.map payload).filter fun spot => spot.1 ≠ (payload id).1) = (ids.erase id).map payload := by
  have distinct := provided.distinct
  rw [List.map_map, List.nodup_map_iff_inj_on nodup] at distinct
  rw [List.filter_map, nodup.erase_eq_filter]
  congr 1
  refine List.filter_congr fun other listed => ?_
  have same : (payload other).1 = (payload id).1 ↔ other = id :=
    ⟨fun equal => distinct other listed id member equal, fun equal => by rw [equal]⟩
  simp [same, bne, beq_eq_decide]

theorem Provided.extend (provided : Provided machine payload ids)
    (growth : Extends machine after) : Provided after payload ids where
  inHeap id member := growth.inHeap (provided.inHeap id member)
  disjoint := provided.disjoint

theorem Provided.erase (provided : Provided machine payload ids) (growth : Extends machine after)
    (id : Nat) : Provided after payload (ids.erase id) where
  inHeap other member := growth.inHeap (provided.inHeap other (List.mem_of_mem_erase member))
  disjoint := provided.disjoint.sublist (List.erase_sublist.map payload)

/-- A proper payload for an id that has none. -/
theorem Provided.place (provided : Provided after payload rest) {id : Nat} (absent : id ∉ rest)
    (proper : Proper after (rest.map payload) p size) :
    Provided after (Function.update payload id (p, size)) (id :: rest) := by
  have others : ∀ other ∈ rest, Function.update payload id (p, size) other = payload other :=
    fun other member => Function.update_of_ne (ne_of_mem_of_not_mem member absent) _ _
  constructor
  · rw [List.forall_mem_cons, Function.update_self]
    refine ⟨proper.inHeap, fun other member => ?_⟩
    rw [others other member]
    exact provided.inHeap other member
  · rw [List.map_cons, Function.update_self, List.map_congr_left others]
    exact List.Pairwise.cons proper.apart provided.disjoint

/-! ## One operation -/

/-- The payloads after an operation that was answered with a pointer. -/
def TraceOp.payloadAfter (op : TraceOp) (payload : Nat → Nat × Nat) (p : Nat) : Nat → Nat × Nat :=
  if op.type = .free then payload else Function.update payload op.index (p, toSizeT op.size)

/-- The package represents the heap of a position, whose blocks are the
payloads of the ids. -/
structure Carries (Serves : Machine Statics → List (Nat × Nat) → Heap → Prop)
    (machine : Machine Statics) (payload : Nat → Nat × Nat) (ids : List Nat)
    (position : Position Heap) : Prop where
  provided : Provided machine payload ids
  nodup : ids.Nodup
  serves : Serves machine (ids.map payload) position.heap
  blocks : ∀ id ∈ ids, position.blocks id = (payload id).1

theorem payload_update (absent : op.index ∉ rest) :
    (op.index :: rest).map (Function.update payload op.index (p, size)) =
      (p, size) :: rest.map payload := by
  rw [List.map_cons, Function.update_self]
  congr 1
  exact List.map_congr_left fun other member =>
    Function.update_of_ne (ne_of_mem_of_not_mem member absent) _ _

/-- The position once an id has a payload besides those of the others. -/
theorem Provided.carries {heap : Heap} {blocks : Nat → Nat}
    (provided : Provided after payload rest) (nodup : rest.Nodup) (absent : op.index ∉ rest)
    (proper : Proper after (rest.map payload) p size)
    (serves : Serves after ((p, size) :: rest.map payload) heap)
    (same : ∀ id ∈ rest, blocks id = (payload id).1) :
    Carries Serves after (Function.update payload op.index (p, size)) (op.index :: rest)
      ⟨heap, Function.update blocks op.index p⟩ where
  provided := provided.place absent proper
  nodup := List.nodup_cons.mpr ⟨absent, nodup⟩
  serves := by rwa [payload_update absent]
  blocks := by
    simp only [List.forall_mem_cons, Function.update_self, true_and]
    intro id member
    have different := ne_of_mem_of_not_mem member absent
    rw [Function.update_of_ne different, Function.update_of_ne different]
    exact same id member

section Answer

variable {numIds : Nat} (follows : Follows package allocator start kind Serves)
  (carries : Carries Serves machine payload ids position) (formed : op.WellFormed numIds ids)
  (kinds : kind (op.call position.blocks))

include carries formed

theorem Carries.held : HeldBy (ids.map payload) (op.call position.blocks) := by
  have known : op.index ∈ ids →
      position.blocks op.index ∈ (ids.map payload).map Prod.fst := by
    intro member
    rw [carries.blocks _ member]
    exact List.mem_map_of_mem (List.mem_map_of_mem member)
  have checked := formed.2
  unfold HeldBy TraceOp.call
  cases type : op.type <;> simp only [type] at checked
  · exact fun _ given => by cases given
  · exact fun _ given => by cases given; exact known checked
  · exact fun _ given => by cases given; exact known checked.1

include follows kinds

/-- What the package returns for an operation, and what it is left with. -/
theorem Carries.answer :
    Ensures (package.answer (op.call position.blocks)) machine fun p after =>
      Extends machine after ∧
        match allocator.serve position op with
        | none => op.type ≠ .free ∧ p = null
        | some next => (op.type ≠ .free → p ≠ null) ∧
            Carries Serves after (op.payloadAfter payload p) (op.idsAfter ids) next := by
  have held := carries.held formed
  rcases follows.returns carries.serves kinds held with ⟨p, after, outcome, answered, serves⟩
  have growth := Package.answer_extends outcome
  refine ⟨p, after, outcome, growth, ?_⟩
  cases served : allocator.serve position op with
  | none =>
      rcases Allocator.serve_eq_none.mp served with ⟨sized, refused⟩
      rw [refused] at answered
      exact ⟨sized, answered⟩
  | some next =>
      have fulfils := follows.fulfils carries.serves kinds held (Allocator.free_of_none served)
      have checked := formed.2
      have grown : ∀ id, Provided after payload (ids.erase id) := carries.provided.erase growth
      cases type : op.type with
      | free =>
          simp only [type] at checked
          rw [(Allocator.serve_of_free type).mp served]
          simp only [TraceOp.call, type, Request.liveAfter, carries.blocks _ checked,
            carries.provided.filter carries.nodup checked] at serves
          simp only [TraceOp.payloadAfter, TraceOp.idsAfter, type, if_true, TraceOp.call,
            carries.blocks _ checked]
          exact ⟨fun sized => absurd rfl sized, grown op.index, carries.nodup.erase _, serves,
            fun id member => carries.blocks id (List.mem_of_mem_erase member)⟩
      | alloc =>
          simp only [type] at checked
          have sized : op.type ≠ .free := by simp [type]
          rcases (Allocator.serve_of_sized sized).mp served with ⟨q, answer, rfl⟩
          simp only [answer, Option.getD_some] at answered
          subst answered
          simp only [TraceOp.call, type] at fulfils outcome serves
          rcases (show Ensures _ _ _ from fulfils).of_eq outcome with ⟨proper, _⟩
          rw [Request.liveAfter, if_neg proper.nonzero] at serves
          simp only [TraceOp.payloadAfter, TraceOp.idsAfter, type, TraceOp.call]
          refine ⟨fun _ => proper.nonzero, ?_⟩
          exact (carries.provided.extend growth).carries carries.nodup checked.1 proper serves
            carries.blocks
      | realloc =>
          simp only [type] at checked
          have sized : op.type ≠ .free := by simp [type]
          rcases (Allocator.serve_of_sized sized).mp served with ⟨q, answer, rfl⟩
          simp only [answer, Option.getD_some] at answered
          subst answered
          simp only [TraceOp.call, type] at fulfils outcome serves
          rcases (show Ensures _ _ _ from fulfils).of_eq outcome with ⟨proper, _⟩
          rw [Request.liveAfter, if_neg proper.nonzero] at serves
          rw [carries.blocks _ checked.1,
            carries.provided.filter carries.nodup checked.1] at proper serves
          simp only [TraceOp.payloadAfter, TraceOp.idsAfter, type, TraceOp.call,
            carries.blocks _ checked.1]
          refine ⟨fun _ => proper.nonzero, ?_⟩
          exact (grown op.index).carries (carries.nodup.erase _) carries.nodup.not_mem_erase proper
            serves fun id member => carries.blocks id (List.mem_of_mem_erase member)

end Answer

/-! ## `eval_mm_util` -/

/-- The totals count the payloads, and the package carries them. -/
structure Counts (Serves : Machine Statics → List (Nat × Nat) → Heap → Prop) (trace : Trace)
    (state : State Statics) (totals : Totals) (done : List TraceOp) (position : Position Heap)
    (payload : Nat → Nat × Nat) (ids : List Nat) : Prop where
  accounts : Accounts trace state payload ids totals done
  carries : Carries Serves state.machine payload ids position

section Util

variable (follows : Follows package allocator start kind Serves)

include follows

/-- One round of the loop of `eval_mm_util`. -/
theorem Counts.step (counts : Counts Serves trace state totals done position payload ids)
    (formed : op.WellFormed trace.numIds ids) (kinds : kind (op.call position.blocks)) :
    Ensures (utilOp package trace totals op) state fun result after =>
      Extends state.machine after.machine ∧
        match allocator.serve position op with
        | none => result = none
        | some next => ∃ totals payload, result = some totals ∧
            Counts Serves trace after totals (done ++ [op]) next payload (op.idsAfter ids) := by
  rcases counts with ⟨accounts, carries⟩
  have known : op.index < trace.numIds := formed.1
  have before := accounts.total_bounds
  have beforeId := before.2.2 op.index
  have low := op.low
  have high := op.high
  have total : liveTotal trace.numIds (done ++ [op]) = _ := liveTotal_concat known
  rw [← accounts.total] at total before
  have checked := formed.2
  rcases carries.answer follows formed kinds with ⟨p, machine, outcome, growth, answered⟩
  cases type : op.type with
  | alloc =>
      simp only [type] at checked
      have sized : op.type ≠ .free := by simp [type]
      simp only [TraceOp.call, type] at outcome
      simp only [utilOp, type, utilAlloc, ensures_bind, ensures_onMachine]
      refine ⟨p, machine, outcome, ?_⟩
      cases served : allocator.serve position op with
      | none =>
          rw [served] at answered
          rw [if_pos answered.2, ensures_pure]
          exact ⟨growth, rfl⟩
      | some next =>
          rw [served, TraceOp.payloadAfter, if_neg sized] at answered
          have placed := accounts.place formed sized growth answered.2.provided
          have after := placed.total_bounds
          have nothing : currentSize done op.index = 0 := by
            rw [accounts.sizes, if_neg checked.1]
          rw [TraceOp.sizeAfter, if_neg sized, nothing, Int.sub_zero] at total
          rw [total] at placed after
          simp only [if_neg (answered.1 sized), remember, signed, ensures_bind, ensures_require,
            ensures_change, ensures_pure]
          exact ⟨known, ⟨by omega, by omega⟩, growth, _, _, rfl, placed, answered.2⟩
  | realloc =>
      simp only [type] at checked
      have sized : op.type ≠ .free := by simp [type]
      simp only [TraceOp.call, type] at outcome
      rcases accounts.blockSize checked.1 with ⟨oldsize, oldp⟩
      rw [carries.blocks _ checked.1] at outcome
      simp only [utilOp, type, utilRealloc, blockSizeOf, blockOf, ensures_bind, ensures_require,
        ensures_view, ensures_onMachine, oldp, oldsize]
      refine ⟨known, known, p, machine, outcome, ?_⟩
      cases served : allocator.serve position op with
      | none =>
          rw [served] at answered
          rw [if_pos answered.2, ensures_pure]
          exact ⟨growth, rfl⟩
      | some next =>
          rw [served, TraceOp.payloadAfter, if_neg sized] at answered
          have placed := accounts.place formed sized growth answered.2.provided
          have after := placed.total_bounds
          rw [TraceOp.sizeAfter, if_neg sized] at total
          rw [total] at placed after
          simp only [if_neg (answered.1 sized), remember, signed, ensures_bind, ensures_require,
            ensures_change, ensures_pure]
          exact ⟨known, ⟨by omega, by omega⟩, ⟨by omega, by omega⟩, growth, _, _, rfl, placed,
            answered.2⟩
  | free =>
      simp only [type] at checked
      simp only [TraceOp.call, type, Package.answer] at outcome
      rcases Option.bind_eq_some_iff.mp outcome with ⟨⟨value, other⟩, freed, same⟩
      cases same
      rcases accounts.blockSize checked with ⟨size, p⟩
      rw [carries.blocks _ checked] at freed
      have given := accounts.giveUp formed type growth
      have after := given.total_bounds
      rw [TraceOp.sizeAfter, if_pos type, Int.zero_sub, ← Int.sub_eq_add_neg] at total
      rw [total] at given after
      rw [(Allocator.serve_of_free type).mpr rfl, TraceOp.payloadAfter, if_pos type] at answered
      rw [(Allocator.serve_of_free type).mpr rfl]
      simp only [utilOp, type, utilFree, blockSizeOf, blockOf, ensures_bind, ensures_require,
        ensures_view, ensures_onMachine, p, size]
      refine ⟨known, known, value, _, freed, ?_⟩
      simp only [signed, ensures_bind, ensures_require, ensures_pure]
      exact ⟨⟨by omega, by omega⟩, growth, _, _, rfl, given, answered.2⟩

/-- The loop of `eval_mm_util` on the rest of a well-formed trace. -/
theorem Counts.run (counts : Counts Serves trace state totals done position payload ids)
    (formed : WellFormedFrom trace.numIds ids ops)
    (kinds : ∀ op ∈ ops, ∀ blocks, kind (op.call blocks)) :
    Ensures (utilOps package trace totals ops) state fun result after =>
      Extends state.machine after.machine ∧
        match allocator.replay position ops with
        | none => result = none
        | some final => ∃ totals payload, result = some totals ∧
            Counts Serves trace after totals (done ++ ops) final payload (idsBehind ids ops) := by
  induction ops generalizing state totals done position payload ids with
  | nil =>
      rw [utilOps, ensures_pure]
      refine ⟨.refl _, totals, payload, rfl, ?_⟩
      rwa [List.append_nil]
  | cons op ops induction =>
      rw [List.forall_mem_cons] at kinds
      rw [utilOps, ensures_bind, Allocator.replay, List.foldlM_cons]
      refine (counts.step follows formed.1 (kinds.1 _)).mono fun result middle => ?_
      cases allocator.serve position op with
      | none =>
          rintro ⟨growth, rfl⟩
          rw [ensures_pure]
          exact ⟨growth, rfl⟩
      | some next =>
          rintro ⟨growth, totals, payload, rfl, counted⟩
          have whole := induction counted formed.2 kinds.2
          rw [List.append_assoc, List.singleton_append] at whole
          exact whole.mono fun _ _ later => ⟨growth.trans later.1, later.2⟩

/-- On a well-formed trace `eval_mm_util` ends the driver if the allocator
refuses a request, and otherwise divides the greatest sum of live sizes by the
size of the heap that the allocator comes to. -/
theorem Follows.evalMmUtil (arena : Arena state.machine)
    (ready : start (state.machine.setBrk state.machine.memStartBrk)) (formed : trace.WellFormed)
    (kinds : ∀ op ∈ trace.ops, ∀ blocks, kind (op.call blocks)) :
    Ensures (evalMmUtil package trace) state fun result after =>
      Extends (state.machine.setBrk state.machine.memStartBrk) after.machine ∧
        match allocator.replay allocator.start trace.ops with
        | none => result = none
        | some final => ∃ most payload, result = some (most, after.machine.heapLength) ∧
            IsGreatest (prefixTotals trace.numIds trace.ops) most ∧
            most ≤ after.machine.heapLength ∧
            Carries Serves after.machine payload (idsBehind [] trace.ops) final := by
  rcases follows.init ready with ⟨value, machine, outcome, rfl, serves⟩
  have growth := package.init_extends outcome
  have opened : Arena machine := growth.arena
    ⟨arena.positive, Nat.le_refl _, arena.arena, arena.addressable,
      arena.ordered.trans arena.bounded⟩
  have accounts : Accounts trace { state with machine := machine } (fun _ => (null, 0)) []
      ⟨0, 0⟩ [] := accounts_start opened
  have counts : Counts Serves trace { state with machine := machine } ⟨0, 0⟩ []
      allocator.start (fun _ => (null, 0)) [] :=
    ⟨accounts, accounts.provided, .nil, serves, nofun⟩
  simp only [Driver.evalMmUtil, ensures_bind, ensures_onMachine, memResetBrk, ensures_change]
  refine ⟨0, machine, outcome, ?_⟩
  simp only [Int.lt_irrefl, if_false, ensures_bind]
  refine (counts.run follows formed kinds).mono fun result after => ?_
  rintro ⟨later, counted⟩
  cases replayed : allocator.replay allocator.start trace.ops with
  | none =>
      rw [replayed] at counted
      rw [counted, ensures_pure]
      exact ⟨growth.trans later, rfl⟩
  | some final =>
      rw [replayed] at counted
      rcases counted with ⟨totals, payload, rfl, counts⟩
      simp only [ensures_bind, ensures_view, ensures_pure]
      exact ⟨growth.trans later, totals.maxTotalSize, payload, rfl,
        counts.accounts.greatest, counts.accounts.fits, counts.carries⟩

end Util

/-! ## `eval_mm_speed` -/

section Speed

variable (follows : Follows package allocator start kind Serves)

/-- The array `blocks` once the answer to an operation was stored. -/
theorem Carries.stored {other : Machine Statics}
    (carries : Carries Serves machine payload ids position)
    (same : ∀ id ∈ ids, position.blocks id = state.blocks id) (sized : op.type ≠ .free)
    (later : Carries Serves other (op.payloadAfter payload p) (op.idsAfter ids) next) :
    ∀ id ∈ op.idsAfter ids, next.blocks id = Function.update state.blocks op.index p id := by
  intro id member
  rw [later.blocks id member, TraceOp.payloadAfter, if_neg sized]
  by_cases here : id = op.index
  · rw [here, Function.update_self, Function.update_self]
  · have before := TraceOp.mem_of_mem_idsAfter member here
    rw [Function.update_of_ne here, Function.update_of_ne here, ← same id before,
      carries.blocks id before]

include follows

/-- One round of the loop of `eval_mm_speed`. -/
theorem Carries.speedOp (carries : Carries Serves state.machine payload ids position)
    (same : ∀ id ∈ ids, position.blocks id = state.blocks id)
    (formed : op.WellFormed trace.numIds ids) (kinds : kind (op.call position.blocks)) :
    Ensures (speedOp package trace op) state fun passed after =>
      Extends state.machine after.machine ∧
        match allocator.serve position op with
        | none => passed = false
        | some next => passed = true ∧ ∃ payload,
            Carries Serves after.machine payload (op.idsAfter ids) next ∧
            ∀ id ∈ op.idsAfter ids, next.blocks id = after.blocks id := by
  have checked := formed.2
  rcases carries.answer follows formed kinds with ⟨p, machine, outcome, growth, answered⟩
  cases type : op.type with
  | alloc =>
      have sized : op.type ≠ .free := by simp [type]
      simp only [TraceOp.call, type] at outcome
      simp only [Driver.speedOp, type, speedAlloc, ensures_bind, ensures_onMachine]
      refine ⟨p, machine, outcome, ?_⟩
      cases served : allocator.serve position op with
      | none =>
          rw [served] at answered
          rw [if_pos answered.2, ensures_pure]
          exact ⟨growth, rfl⟩
      | some next =>
          rw [served] at answered
          simp only [if_neg (answered.1 sized), setBlock, ensures_bind, ensures_require,
            ensures_change, ensures_pure]
          exact ⟨formed.1, growth, trivial, _, answered.2, carries.stored same sized answered.2⟩
  | realloc =>
      simp only [type] at checked
      have sized : op.type ≠ .free := by simp [type]
      simp only [TraceOp.call, type] at outcome
      rw [same _ checked.1] at outcome
      simp only [Driver.speedOp, type, speedRealloc, blockOf, ensures_bind, ensures_require,
        ensures_view, ensures_onMachine]
      refine ⟨formed.1, p, machine, outcome, ?_⟩
      cases served : allocator.serve position op with
      | none =>
          rw [served] at answered
          rw [if_pos answered.2, ensures_pure]
          exact ⟨growth, rfl⟩
      | some next =>
          rw [served] at answered
          simp only [if_neg (answered.1 sized), setBlock, ensures_bind, ensures_require,
            ensures_change, ensures_pure]
          exact ⟨formed.1, growth, trivial, _, answered.2, carries.stored same sized answered.2⟩
  | free =>
      simp only [type] at checked
      simp only [TraceOp.call, type, Package.answer] at outcome
      rcases Option.bind_eq_some_iff.mp outcome with ⟨⟨value, other⟩, freed, equal⟩
      cases equal
      rw [same _ checked] at freed
      rw [(Allocator.serve_of_free type).mpr rfl] at answered ⊢
      simp only [Driver.speedOp, type, speedFree, blockOf, ensures_bind, ensures_require,
        ensures_view, ensures_onMachine, ensures_pure]
      refine ⟨formed.1, value, _, freed, growth, trivial, _, answered.2, fun id member => ?_⟩
      rw [TraceOp.idsAfter, type] at member
      exact same id (List.mem_of_mem_erase member)

/-- The loop of `eval_mm_speed` on the rest of a well-formed trace. -/
theorem Carries.speedOps (carries : Carries Serves state.machine payload ids position)
    (same : ∀ id ∈ ids, position.blocks id = state.blocks id)
    (formed : WellFormedFrom trace.numIds ids ops)
    (kinds : ∀ op ∈ ops, ∀ blocks, kind (op.call blocks)) :
    Ensures (speedOps package trace ops) state fun passed after =>
      Extends state.machine after.machine ∧
        match allocator.replay position ops with
        | none => passed = false
        | some final => passed = true ∧
            ∃ payload, Carries Serves after.machine payload (idsBehind ids ops) final := by
  induction ops generalizing state position payload ids with
  | nil =>
      rw [Driver.speedOps, ensures_pure]
      exact ⟨.refl _, rfl, payload, carries⟩
  | cons op ops induction =>
      rw [List.forall_mem_cons] at kinds
      rw [Driver.speedOps, ensures_bind, Allocator.replay, List.foldlM_cons]
      refine (carries.speedOp follows same formed.1 (kinds.1 _)).mono fun passed middle => ?_
      cases allocator.serve position op with
      | none =>
          rintro ⟨growth, rfl⟩
          rw [if_neg Bool.false_ne_true, ensures_pure]
          exact ⟨growth, rfl⟩
      | some next =>
          rintro ⟨growth, rfl, payload, later, agrees⟩
          rw [if_pos rfl]
          refine (induction later agrees formed.2 kinds.2).mono fun value after => ?_
          exact fun run => ⟨growth.trans run.1, run.2⟩

/-- On a well-formed trace `eval_mm_speed` ends the driver if and only if the
allocator refuses a request. -/
theorem Follows.evalMmSpeed (ready : start (state.machine.setBrk state.machine.memStartBrk))
    (formed : trace.WellFormed) (kinds : ∀ op ∈ trace.ops, ∀ blocks, kind (op.call blocks)) :
    Ensures (evalMmSpeed package trace) state fun passed after =>
      Extends (state.machine.setBrk state.machine.memStartBrk) after.machine ∧
        match allocator.replay allocator.start trace.ops with
        | none => passed = false
        | some final => passed = true ∧
            ∃ payload, Carries Serves after.machine payload (idsBehind [] trace.ops) final := by
  rcases follows.init ready with ⟨value, machine, outcome, rfl, serves⟩
  have growth := package.init_extends outcome
  have carries : Carries Serves ({ state with machine := machine } : State Statics).machine
      (fun _ => (null, 0)) [] allocator.start := ⟨⟨nofun, .nil⟩, .nil, serves, nofun⟩
  simp only [Driver.evalMmSpeed, ensures_bind, ensures_onMachine, memResetBrk, ensures_change]
  refine ⟨0, machine, outcome, ?_⟩
  simp only [Int.lt_irrefl, if_false]
  refine (carries.speedOps follows nofun formed kinds).mono fun passed after run => ?_
  exact ⟨growth.trans run.1, run.2⟩

end Speed

end MallocLab.Driver
