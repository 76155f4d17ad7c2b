import MallocLab.Driver.BuddySystem
import MallocLab.Script.Pipeline

/-! # Balanced traces and `buddy.c`

With `buddy.c` every trace has to give up its blocks, or the next one finds split
bits. `checktrace.pl` adds the frees that are missing, so that what it prints is
passed if few small blocks are held at any time.
-/

namespace MallocLab.Script

open Program Text Driver Checktrace

variable {script : Script} {held final : Finset Nat} {entry : Entry} {entries : List Entry}
  {ops : List TraceOp} {ids : List Nat} {numIds most exponent reach n : Nat} {text : List Char}
  {trace : Driver.Trace}

/-- No block is requested while more than `most` ids have one. -/
def FewHeld (most : Nat) : Finset Nat → List Entry → Prop
  | _, [] => True
  | held, entry :: entries =>
      (entry.type = .alloc → held.card ≤ most) ∧
        ∀ next ∈ entry.step held, FewHeld most next entries

/-- A trace that holds few small blocks at any time, and resizes none. -/
structure Light (most exponent : Nat) (script : Script) : Prop where
  kinds : ∀ entry ∈ script.entries, entry.type ≠ .realloc
  sizes : ∀ entry ∈ script.entries, ∀ size ∈ entry.size?,
    1 ≤ size ∧ size + Buddy.headerSize ≤ 2 ^ exponent
  few : FewHeld most ∅ script.entries

/-! ## Balancing -/

theorem fewHeld_frees (most : Nat) (held : Finset Nat) (ids : List Nat) :
    FewHeld most held (ids.map .free) := by
  induction ids generalizing held with
  | nil => trivial
  | cons id ids induction => exact ⟨nofun, fun next _ => induction next⟩

/-- Frees at the end of a trace request no block. -/
theorem FewHeld.append_frees (few : FewHeld most held entries) (ids : List Nat) :
    FewHeld most held (entries ++ ids.map .free) := by
  induction entries generalizing held with
  | nil => exact fewHeld_frees most held ids
  | cons entry entries induction =>
      exact ⟨few.1, fun next step => induction (few.2 next step)⟩

theorem Light.balanced (light : script.Light most exponent) (held : Finset Nat) :
    (script.balanced held).Light most exponent where
  kinds entry member := by
    rcases mem_balanced member with early | ⟨id, rfl⟩
    · exact light.kinds entry early
    · exact OpType.noConfusion
  sizes entry member size given := by
    rcases mem_balanced member with early | ⟨id, rfl⟩
    · exact light.sizes entry early size given
    · cases given
  few := light.few.append_frees _

/-! ## What the driver replays -/

theorem small_of_matches (matched : List.Forall₂ Matches entries ops)
    (kinds : ∀ entry ∈ entries, entry.type ≠ .realloc)
    (sizes : ∀ entry ∈ entries, ∀ size ∈ entry.size?, size + Buddy.headerSize ≤ 2 ^ exponent) :
    ∀ op ∈ ops, op.Small exponent := by
  induction matched with
  | nil => exact fun op member => absurd member List.not_mem_nil
  | @cons entry op _ _ head _ induction =>
      rw [List.forall_mem_cons] at kinds sizes ⊢
      refine ⟨⟨head.type ▸ kinds.1, fun alloc => ?_⟩, induction kinds.2 sizes.2⟩
      rw [head.type] at alloc
      obtain ⟨size, given⟩ := Entry.exists_size (alloc ▸ OpType.noConfusion : entry.type ≠ .free)
      rw [head.size size given, Int.toNat_natCast]
      exact sizes.1 size given

theorem fewFrom_of_fewHeld (matched : List.Forall₂ Matches entries ops) (lists : Lists ids held)
    (run : holding held entries = some final) (inRange : ∀ entry ∈ entries, entry.id < numIds)
    (positive : ∀ entry ∈ entries, ∀ size ∈ entry.size?, 1 ≤ size)
    (few : FewHeld most held entries) : FewFrom most ids ops := by
  induction matched generalizing ids held with
  | nil => trivial
  | cons first _ induction =>
      rw [List.forall_mem_cons] at inRange positive
      rw [holding_cons] at run
      rcases Option.bind_eq_some_iff.mp run with ⟨next, step, later⟩
      have formed := first.wellFormed lists step inRange.1 positive.1
      refine ⟨fun alloc => ?_, induction formed.2 later inRange.2 positive.2 (few.2 next step)⟩
      rw [first.type] at alloc
      have count := few.1 alloc
      rwa [← lists.2, List.toFinset_card_of_nodup lists.1] at count

theorem Replays.light (replays : Replays script ∅ trace) (valid : script.Valid ∅)
    (light : script.Light most exponent) : trace.Light most exponent where
  formed := replays.formed
  small := small_of_matches replays.matched light.kinds fun entry member size given =>
    (light.sizes entry member size given).2
  few := fewFrom_of_fewHeld replays.matched ⟨List.nodup_nil, rfl⟩ valid.run valid.id_lt
    (fun entry member size given => (light.sizes entry member size given).1) light.few
  balanced := List.toFinset_eq_empty_iff _ |>.mp replays.held.2

/-- `checktrace.pl`, `read_trace` and `main` one after the other, linked with
`buddy.c`: a trace that holds few small blocks at any time is passed, any number
of times, even if it keeps some of them. -/
theorem light_pipeline (floating : List Char → Nat → List Char) (valid : script.Valid held)
    (shows : Shows text script) (room : script.numOps + held.card < 2 ^ 31)
    (light : script.Light most exponent) (allows : Buddy.Heap.Allows most exponent reach) :
    ∃ output, checktrace floating false text = .ok output ∧
      ∀ reading : Reading, reading.input = output →
        Ensures readTrace reading fun outcome after => outcome = .returned ∧
          (∃ trace, Loads after trace) ∧
          ∀ traces : List Loaded, (∀ loaded ∈ traces, Loads after loaded.trace) →
            ∀ {state : State Buddy.Statics}, BuddyBegun state →
              Ensures (main linkedBuddy traces) state fun result after => after.errors = [] ∧
                ∃ stats, List.Forall₂ (fun (loaded : Loaded) stat =>
                  Measured (2 ^ reach + 1) loaded.trace stat) traces stats ∧
                  result = some (summary stats 0) := by
  have balanced := valid.balanced room
  have inspected : inspect 5 ∅ script.entries = .ok held := inspect_ok_iff.mpr valid.run
  have kept := light.balanced held
  refine ⟨_, checktrace_balanced shows inspected (by omega), fun reading input => ?_⟩
  have printed : Shows reading.input (script.balanced held) := .inl input
  refine (balanced.read printed rfl fun entry member size given =>
    (kept.sizes entry member size given).1).mono fun outcome after => ?_
  rintro ⟨returned, there, loads⟩
  refine ⟨returned, there, fun traces loaded state begun => ?_⟩
  have each : ∀ loaded ∈ traces, loaded.trace.Light most exponent := fun one member =>
    (loads one.trace (loaded one member)).light balanced kept
  exact settled_main begun (fun one member => (each one member).settles allows)
    fun one member => (each one member).guarded allows

/-! ## The binary traces -/

theorem Entry.card_step {next : Finset Nat} (step : entry.step held = some next) :
    next.card ≤ held.card + 1 := by
  cases entry with
  | alloc id size =>
      obtain ⟨_, rfl⟩ : id ∉ held ∧ insert id held = next := by simpa [Entry.step] using step
      exact Finset.card_insert_le id held
  | realloc id size =>
      obtain ⟨_, rfl⟩ : id ∈ held ∧ held = next := by simpa [Entry.step] using step
      exact Nat.le_succ _
  | free id =>
      obtain ⟨_, rfl⟩ : id ∈ held ∧ held.erase id = next := by simpa [Entry.step] using step
      exact (Finset.card_erase_le).trans (Nat.le_succ _)

/-- A request adds at most one block. -/
theorem card_holding (run : holding held entries = some final) :
    final.card ≤ held.card + entries.length := by
  induction entries generalizing held with
  | nil =>
      cases run
      exact Nat.le_refl _
  | cons entry entries induction =>
      rw [holding_cons] at run
      rcases Option.bind_eq_some_iff.mp run with ⟨next, step, later⟩
      have grown := Entry.card_step step
      have rest := induction later
      rw [List.length_cons]
      omega

/-- Short traces hold few blocks. -/
theorem fewHeld_of_length (short : held.card + entries.length ≤ most) :
    FewHeld most held entries := by
  induction entries generalizing held with
  | nil => trivial
  | cons entry entries induction =>
      rw [List.length_cons] at short
      refine ⟨fun _ => by omega, fun next step => induction ?_⟩
      have grown := Entry.card_step step
      omega

theorem light_binary {blkSize1 blkSize2 : Nat} (some : 0 < n) (short : 4 * n ≤ most)
    (first : 1 ≤ blkSize1) (second : 1 ≤ blkSize2)
    (small : blkSize1 + blkSize2 + Buddy.headerSize ≤ 2 ^ exponent) :
    (binary blkSize1 blkSize2 n).Light most exponent where
  kinds entry member := by
    rcases mem_binary member with ⟨i, _, rfl | rfl⟩ | ⟨i, _, rfl⟩ | ⟨i, _, rfl⟩ <;>
      exact OpType.noConfusion
  sizes entry member size given := by
    have bounded := sizes_binary entry member size given
    refine ⟨?_, (Nat.add_le_add_right bounded _).trans small⟩
    rcases mem_binary member with ⟨i, _, rfl | rfl⟩ | ⟨i, _, rfl⟩ | ⟨i, _, rfl⟩ <;>
      · cases given <;> omega
  few := by
    have length : 4 * n = (binary blkSize1 blkSize2 n).entries.length := (counted_binary some).numOps
    refine fewHeld_of_length ?_
    rwa [Finset.card_empty, Nat.zero_add, ← length]

/-- The trace as `gen_binary.pl` writes it, which keeps two thirds of its blocks. -/
theorem light_pipeline_binary :
    ∃ output, checktrace (fun _ _ => []) false (genBinary 2000).print = .ok output ∧
      ∀ reading : Reading, reading.input = output →
        Ensures readTrace reading fun outcome after => outcome = .returned ∧
          (∃ trace, Loads after trace) ∧
          ∀ traces : List Loaded, (∀ loaded ∈ traces, Loads after loaded.trace) →
            ∀ {state : State Buddy.Statics}, BuddyBegun state →
              Ensures (main linkedBuddy traces) state fun result after => after.errors = [] ∧
                ∃ stats, List.Forall₂ (fun (loaded : Loaded) stat =>
                  Measured (2 ^ 24 + 1) loaded.trace stat) traces stats ∧
                  result = some (summary stats 0) := by
  have allows : Buddy.Heap.Allows 8000 10 24 := ⟨by decide, by decide, by decide, by decide⟩
  have light : (genBinary 2000).Light 8000 10 :=
    light_binary (by decide) (by decide) (by decide) (by decide) (by decide)
  obtain ⟨held, valid⟩ : ∃ held, (genBinary 2000).Valid held :=
    valid_binary (by decide) (by decide) (by decide)
  have few := card_holding valid.run
  rw [← valid.counted.numOps, Finset.card_empty] at few
  have numOps : (genBinary 2000).numOps = 8000 := rfl
  exact light_pipeline _ valid (.inl rfl) (by omega) light allows

end MallocLab.Script
