import MallocLab.Driver.Allocator
import MallocLab.Driver.Main
import MallocLab.Script.Checking
import MallocLab.Script.Generated
import MallocLab.Script.Reading

/-! # From a trace to the driver

The trace is balanced by `checktrace.pl` and read by `read_trace`. What the
driver then replays keeps to the protocol and gives up every block.
-/

namespace MallocLab.Script

open Program Text Driver Checktrace

variable {script : Script} {held final : Finset Nat} {entry : Entry} {entries : List Entry}
  {op : TraceOp} {ops : List TraceOp} {ids : List Nat} {numIds : Nat} {text : List Char}
  {start after : Reading} {trace : Driver.Trace}

/-! ## The trace record -/

/-- A trace as the driver replays it from the record that was read, where it
makes no use of the size of a free. -/
structure Loads (after : Reading) (trace : Driver.Trace) : Prop where
  numIds : after.numIds = trace.numIds
  numOps : after.numOps = trace.ops.length
  type : ∀ i op, trace.ops[i]? = some op → (after.ops i).type = op.type
  index : ∀ i op, trace.ops[i]? = some op → (after.ops i).index = op.index
  size : ∀ i op, trace.ops[i]? = some op → op.type ≠ .free → (after.ops i).size = op.size

/-- What `read_trace` returns with its ids in range is replayed inside of the
arrays. -/
theorem Loads.indexed (loads : Loads after trace) (inRange : InRange after) : trace.Indexed := by
  intro op member
  rcases List.mem_iff_getElem?.mp member with ⟨i, found⟩
  have few : (i : Int) < after.opIndex := by
    rw [inRange.count, loads.numOps]
    exact Int.ofNat_lt.mpr (List.getElem?_eq_some_iff.mp found).1
  have bounded := inRange.ids i (by omega)
  rw [loads.index i op found, loads.numIds] at bounded
  exact Int.ofNat_lt.mp bounded.2

/-- Then the eval functions do what they would do with longer arrays. -/
theorem Loads.evals {Statics : Type} (loads : Loads after trace) (inRange : InRange after)
    (package : Package Statics) (tracenum more : Nat) :
    evalMmValid package (trace.lengthen more) tracenum = evalMmValid package trace tracenum ∧
      evalMmUtil package (trace.lengthen more) = evalMmUtil package trace ∧
      evalMmSpeed package (trace.lengthen more) = evalMmSpeed package trace :=
  (loads.indexed inRange).evals tracenum more

/-- An operation that is a request. -/
structure Matches (entry : Entry) (op : TraceOp) : Prop where
  type : op.type = entry.type
  index : op.index = entry.id
  size : ∀ size ∈ entry.size?, op.size = size

theorem Loads.matches (loads : Loads after trace) (records : Records after script)
    (counted : script.Counted) : List.Forall₂ Matches script.entries trace.ops := by
  have length : script.entries.length = trace.ops.length := by
    have numOps := loads.numOps
    rw [records.numOps, counted.numOps] at numOps
    omega
  refine List.forall₂_iff_get.mpr ⟨length, fun i inside other => ?_⟩
  simp only [List.get_eq_getElem]
  have stored := records.ops i _ (List.getElem?_eq_getElem inside)
  have found := List.getElem?_eq_getElem other
  have index := (loads.index i _ found).symm.trans stored.2.1
  have type := (loads.type i _ found).symm.trans stored.1
  refine ⟨type, by simpa using index, fun size given => ?_⟩
  have sized := Entry.sized_of_mem given
  rw [← type] at sized
  exact (loads.size i _ found sized).symm.trans (stored.2.2 size given)

/-- A request as an operation. -/
def Entry.operation (entry : Entry) (small : entry.Small) : TraceOp where
  type := entry.type
  index := entry.id
  size := (entry.size?.getD 0 : Nat)
  low := by omega
  high := by
    cases given : entry.size? with
    | none => decide
    | some size =>
        have := small.2 size given
        rw [Option.getD_some]
        omega

/-- There is a trace to replay. -/
theorem Records.exists_loads (records : Records after script) (counted : script.Counted)
    (small : script.Small) : ∃ trace, Loads after trace := by
  refine ⟨⟨script.numIds, script.entries.pmap Entry.operation small.entries⟩, records.numIds, ?_, ?_, ?_, ?_⟩
  · rw [List.length_pmap, records.numOps, counted.numOps]
  all_goals
    intro i op listed
    obtain ⟨entry, found, isSmall, rfl⟩ : ∃ entry, script.entries[i]? = some entry ∧
        ∃ isSmall, Entry.operation entry isSmall = op := by
      rw [List.getElem?_pmap, Option.pmap_eq_some_iff] at listed
      rcases listed with ⟨entry, isSmall, found, same⟩
      exact ⟨entry, found, isSmall, same.symm⟩
    have stored := records.ops i entry found
  · exact stored.1
  · exact stored.2.1
  · intro sized
    obtain ⟨size, given⟩ := Entry.exists_size sized
    rw [stored.2.2 size given]
    simp [Entry.operation, given]

/-! ## The protocol -/

/-- The ids with a block as the driver keeps them. -/
def Lists (ids : List Nat) (held : Finset Nat) : Prop := ids.Nodup ∧ ids.toFinset = held

theorem Lists.mem (lists : Lists ids held) {id : Nat} : id ∈ ids ↔ id ∈ held := by
  rw [← lists.2, List.mem_toFinset]

/-- A request that is allowed is a well-formed operation. -/
theorem Matches.wellFormed (matched : Matches entry op) (lists : Lists ids held)
    (step : entry.step held = some final) (inRange : entry.id < numIds)
    (positive : ∀ size ∈ entry.size?, 1 ≤ size) :
    op.WellFormed numIds ids ∧ Lists (op.idsAfter ids) final := by
  rcases matched with ⟨type, index, size⟩
  unfold TraceOp.WellFormed TraceOp.idsAfter
  cases entry with
  | alloc id count =>
      obtain ⟨absent, rfl⟩ : id ∉ held ∧ insert id held = final := by
        simpa [Entry.step] using step
      have given : op.size = count := size count rfl
      have large : 1 ≤ count := positive count rfl
      have fresh : id ∉ ids := mt lists.mem.mp absent
      simp only [type, Entry.type, index, Entry.id]
      refine ⟨⟨inRange, fresh, by omega⟩, List.nodup_cons.mpr ⟨fresh, lists.1⟩, ?_⟩
      rw [List.toFinset_cons, lists.2]
  | realloc id count =>
      obtain ⟨member, rfl⟩ : id ∈ held ∧ held = final := by simpa [Entry.step] using step
      have given : op.size = count := size count rfl
      have large : 1 ≤ count := positive count rfl
      have known : id ∈ ids := lists.mem.mpr member
      simp only [type, Entry.type, index, Entry.id]
      refine ⟨⟨inRange, known, by omega⟩, ?_, ?_⟩
      · exact List.nodup_cons.mpr ⟨lists.1.not_mem_erase, lists.1.erase id⟩
      · rw [← lists.2]
        exact List.toFinset_eq_of_perm _ _ (List.perm_cons_erase known).symm
  | free id =>
      obtain ⟨member, rfl⟩ : id ∈ held ∧ held.erase id = final := by
        simpa [Entry.step] using step
      have known : id ∈ ids := lists.mem.mpr member
      simp only [type, Entry.type, index, Entry.id]
      refine ⟨⟨inRange, known⟩, lists.1.erase id, ?_⟩
      rw [← lists.2]
      ext other
      rw [List.mem_toFinset, lists.1.mem_erase_iff, Finset.mem_erase, List.mem_toFinset]

theorem wellFormedFrom_of_holding (matched : List.Forall₂ Matches entries ops)
    (lists : Lists ids held) (run : holding held entries = some final)
    (inRange : ∀ entry ∈ entries, entry.id < numIds)
    (positive : ∀ entry ∈ entries, ∀ size ∈ entry.size?, 1 ≤ size) :
    WellFormedFrom numIds ids ops ∧ Lists (idsBehind ids ops) final := by
  induction matched generalizing ids held with
  | nil =>
      cases run
      exact ⟨trivial, lists⟩
  | cons first _ induction =>
      rw [List.forall_mem_cons] at inRange positive
      rw [holding_cons] at run
      rcases Option.bind_eq_some_iff.mp run with ⟨next, step, later⟩
      have formed := first.wellFormed lists step inRange.1 positive.1
      have rest := induction formed.2 later inRange.2 positive.2
      exact ⟨⟨formed.1, rest.1⟩, rest.2⟩

/-- A trace that the driver replays request by request, as the protocol asks,
and what it leaves behind. -/
structure Replays (script : Script) (held : Finset Nat) (trace : Driver.Trace) : Prop where
  numIds : trace.numIds = script.numIds
  matched : List.Forall₂ Matches script.entries trace.ops
  formed : trace.WellFormed
  held : Lists (idsBehind [] trace.ops) held

/-- A valid trace without sizes that are zero is read and can be replayed. -/
theorem Valid.read (valid : script.Valid held) (shows : Shows text script)
    (input : start.input = text)
    (positive : ∀ entry ∈ script.entries, ∀ size ∈ entry.size?, 1 ≤ size) :
    Ensures readTrace start fun outcome after => outcome = .returned ∧
      (∃ trace, Loads after trace) ∧ ∀ trace, Loads after trace → Replays script held trace := by
  have few : script.entries.length ≤ script.numOps := Nat.le_of_eq valid.counted.numOps.symm
  refine (readTrace_records shows input valid.small few).mono fun outcome after => ?_
  rintro ⟨returned, records⟩
  refine ⟨returned.mpr valid.counted, records.exists_loads valid.counted valid.small,
    fun trace loads => ?_⟩
  have ids : trace.numIds = script.numIds := by
    have same := loads.numIds
    rw [records.numIds] at same
    exact (Int.ofNat_inj.mp same).symm
  have matched := loads.matches records valid.counted
  have formed := wellFormedFrom_of_holding matched ⟨List.nodup_nil, rfl⟩ valid.run
    (fun entry member => ids ▸ valid.id_lt entry member) positive
  exact ⟨ids, matched, formed.1, formed.2⟩

/-! ## The pipeline -/

/-- Every valid trace without sizes that are zero is balanced by the checker,
which finds nothing wrong with what it printed, and `read_trace` makes of that
a trace with the same requests that gives up every block in the end. -/
theorem trace_pipeline (floating : List Char → Nat → List Char) (valid : script.Valid held)
    (shows : Shows text script) (room : script.numOps + held.card < 2 ^ 31)
    (positive : ∀ entry ∈ script.entries, ∀ size ∈ entry.size?, 1 ≤ size) : ∃ output,
      checktrace floating false text = .ok output ∧
        checktrace floating true output = .ok "Balanced trace.\n".toList ∧
        checktrace floating false output = .ok output ∧
        ∀ start : Reading, start.input = output → Ensures readTrace start fun outcome after =>
          outcome = .returned ∧ (∃ trace, Loads after trace) ∧
            ∀ trace, Loads after trace → Replays (script.balanced held) ∅ trace := by
  have balanced := valid.balanced room
  have inspected : inspect 5 ∅ script.entries = .ok held := inspect_ok_iff.mpr valid.run
  have again : inspect 5 ∅ (script.balanced held).entries = .ok ∅ :=
    inspect_ok_iff.mpr balanced.run
  have printed : Shows (script.balanced held).print (script.balanced held) := .inl rfl
  have large : ∀ entry ∈ (script.balanced held).entries, ∀ size ∈ entry.size?, 1 ≤ size := by
    intro entry member size given
    rcases mem_balanced member with early | ⟨id, rfl⟩
    · exact positive entry early size given
    · cases given
  refine ⟨(script.balanced held).print, checktrace_balanced shows inspected (by omega),
    checktrace_of_ok printed again true, ?_, fun start input =>
      balanced.read printed input large⟩
  have few : (script.balanced held).numOps < 2 ^ 31 := room
  rw [checktrace_balanced printed again (by simp only [Finset.card_empty]; omega), balanced_empty]

theorem twoKept_valid : twoKept.Valid {10, 2} where
  counted := ⟨rfl, rfl⟩
  run := by decide
  numIds := by decide
  numOps := by decide
  sizes := by simp [twoKept, Entry.size?]

theorem trace_pipeline_two_kept : ∃ output,
    checktrace (fun _ _ => []) false twoKept.print = .ok output ∧
      checktrace (fun _ _ => []) true output = .ok "Balanced trace.\n".toList ∧
      checktrace (fun _ _ => []) false output = .ok output ∧
      ∀ start : Reading, start.input = output → Ensures readTrace start fun outcome after =>
        outcome = .returned ∧ (∃ trace, Loads after trace) ∧
          ∀ trace, Loads after trace → Replays (twoKept.balanced {10, 2}) ∅ trace :=
  trace_pipeline _ twoKept_valid (.inl rfl) (by decide) (by simp [twoKept, Entry.size?])

end MallocLab.Script
