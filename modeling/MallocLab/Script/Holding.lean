import Mathlib.Data.Char
import Mathlib.Data.Finset.Sort
import Mathlib.Data.List.Lex
import MallocLab.Script.Format

/-! # Which ids have a block

Requests of other ids do not matter to an id. So a block can be given up at any
place behind its last request, and a trace is balanced by frees at its end.
-/

namespace MallocLab.Script

open Text

variable {entry : Entry} {entries first second : List Entry} {script : Script}
  {held middle final : Finset Nat} {id most : Nat} {ids : List Nat}

theorem holding_cons :
    holding held (entry :: entries) = (entry.step held).bind fun next => holding next entries :=
  List.foldlM_cons

theorem holding_append :
    holding held (first ++ second) =
      (holding held first).bind fun middle => holding middle second :=
  List.foldlM_append

/-! ## Requests of other ids -/

theorem Entry.step_erase (unused : entry.id ≠ id) :
    entry.step (held.erase id) = (entry.step held).map fun next => next.erase id := by
  have same : entry.id ∈ held.erase id ↔ entry.id ∈ held := by
    rw [Finset.mem_erase]
    exact and_iff_right unused
  cases entry with
  | alloc other size =>
      simp only [Entry.id] at same unused
      by_cases member : other ∈ held
      · simp [step, same.mpr member, member]
      · simp [step, mt same.mp member, member, Finset.erase_insert_of_ne unused]
  | realloc other size =>
      simp only [Entry.id] at same
      by_cases member : other ∈ held
      · simp [step, same.mpr member, member]
      · simp [step, mt same.mp member, member]
  | free other =>
      simp only [Entry.id] at same
      by_cases member : other ∈ held
      · simp [step, same.mpr member, member, Finset.erase_right_comm]
      · simp [step, mt same.mp member, member]

theorem holding_erase (unused : ∀ entry ∈ entries, entry.id ≠ id) :
    holding (held.erase id) entries = (holding held entries).map fun final => final.erase id := by
  induction entries generalizing held with
  | nil => rfl
  | cons entry entries induction =>
      rw [List.forall_mem_cons] at unused
      rw [holding_cons, holding_cons, Entry.step_erase unused.1]
      cases entry.step held with
      | none => rfl
      | some next => exact induction unused.2

theorem Entry.mem_step (unused : entry.id ≠ id) {next : Finset Nat}
    (step : entry.step held = some next) : id ∈ next ↔ id ∈ held := by
  cases entry with
  | alloc other size =>
      obtain ⟨_, rfl⟩ : other ∉ held ∧ insert other held = next := by simpa [Entry.step] using step
      exact Finset.mem_insert.trans (or_iff_right fun same => unused same.symm)
  | realloc other size =>
      obtain ⟨_, rfl⟩ : other ∈ held ∧ held = next := by simpa [Entry.step] using step
      rfl
  | free other =>
      obtain ⟨_, rfl⟩ : other ∈ held ∧ held.erase other = next := by
        simpa [Entry.step] using step
      exact Finset.mem_erase.trans (and_iff_right fun same => unused same.symm)

theorem mem_of_unused (unused : ∀ entry ∈ entries, entry.id ≠ id)
    (run : holding held entries = some final) : id ∈ final ↔ id ∈ held := by
  induction entries generalizing held with
  | nil =>
      cases run
      rfl
  | cons entry entries induction =>
      rw [List.forall_mem_cons] at unused
      rw [holding_cons] at run
      rcases Option.bind_eq_some_iff.mp run with ⟨next, step, later⟩
      exact (induction unused.2 later).trans (Entry.mem_step unused.1 step)

/-- A block is given up behind the last request for it. -/
theorem holding_insert_free (early : holding held first = some middle) (member : id ∈ middle)
    (late : holding middle second = some final) (unused : ∀ entry ∈ second, entry.id ≠ id) :
    holding held (first ++ .free id :: second) = some (final.erase id) := by
  rw [holding_append, early, Option.bind_some, holding_cons, Entry.step, if_pos member,
    Option.bind_some, holding_erase unused, late]
  rfl

/-- Requests for blocks that are not there yet. -/
theorem holding_allocs (nodup : ids.Nodup) (fresh : ∀ id ∈ ids, id ∉ held) (size : Nat → Nat) :
    holding held (ids.map fun id => .alloc id (size id)) = some (held ∪ ids.toFinset) := by
  induction ids generalizing held with
  | nil => simp [holding]
  | cons id ids induction =>
      rw [List.nodup_cons] at nodup
      rw [List.forall_mem_cons] at fresh
      have others : ∀ other ∈ ids, other ∉ insert id held := by
        intro other member inside
        rcases Finset.mem_insert.mp inside with rfl | inside
        · exact nodup.1 member
        · exact fresh.2 other member inside
      rw [List.map_cons, holding_cons, Entry.step, if_neg fresh.1, Option.bind_some,
        induction nodup.2 others, List.toFinset_cons, Finset.insert_union, Finset.union_insert]

theorem holding_frees (nodup : ids.Nodup) (inside : ∀ id ∈ ids, id ∈ held) :
    holding held (ids.map .free) = some (held \ ids.toFinset) := by
  induction ids generalizing held with
  | nil => simp [holding]
  | cons id ids induction =>
      rw [List.nodup_cons] at nodup
      rw [List.forall_mem_cons] at inside
      have others : ∀ other ∈ ids, other ∈ held.erase id := fun other member =>
        Finset.mem_erase.mpr ⟨fun same => nodup.1 (same ▸ member), inside.2 other member⟩
      rw [List.map_cons, holding_cons, Entry.step, if_pos inside.1, Option.bind_some,
        induction nodup.2 others, List.toFinset_cons, Finset.sdiff_insert,
        Finset.erase_sdiff_comm]

/-! ## The largest id -/

theorem maxIndex_append : maxIndex (first ++ second) = second.foldl Entry.raise (maxIndex first) :=
  List.foldl_append

theorem raise_frees (frees : ∀ entry ∈ entries, entry.type = .free) :
    entries.foldl Entry.raise most = most := by
  induction entries with
  | nil => rfl
  | cons entry entries induction =>
      rw [List.forall_mem_cons] at frees
      rw [List.foldl_cons, Entry.raise, if_pos frees.1]
      exact induction frees.2

theorem le_raises (entries : List Entry) (most : Nat) : most ≤ entries.foldl Entry.raise most := by
  induction entries generalizing most with
  | nil => exact Nat.le_refl _
  | cons entry entries induction =>
      refine Nat.le_trans ?_ (induction _)
      unfold Entry.raise
      split
      · exact Nat.le_refl _
      · exact Nat.le_max_right _ _

theorem raises_le {bound : Nat} (small : most ≤ bound)
    (bounded : ∀ entry ∈ entries, entry.type ≠ .free → entry.id ≤ bound) :
    entries.foldl Entry.raise most ≤ bound := by
  induction entries generalizing most with
  | nil => exact small
  | cons entry entries induction =>
      rw [List.forall_mem_cons] at bounded
      refine induction ?_ bounded.2
      unfold Entry.raise
      split
      · exact small
      · exact Nat.max_le.mpr ⟨bounded.1 ‹_›, small⟩

theorem id_le_raises (member : entry ∈ entries) (sized : entry.type ≠ .free) :
    entry.id ≤ entries.foldl Entry.raise most := by
  induction entries generalizing most with
  | nil => exact absurd member List.not_mem_nil
  | cons first entries induction =>
      rcases List.mem_cons.mp member with rfl | later
      · refine Nat.le_trans ?_ (le_raises entries _)
        rw [Entry.raise, if_neg sized]
        exact Nat.le_max_left _ _
      · exact induction later

/-- The largest id is that of a request which no other one exceeds. -/
theorem maxIndex_eq (bounded : ∀ entry ∈ entries, entry.type ≠ .free → entry.id ≤ most)
    (reached : ∃ entry ∈ entries, entry.type ≠ .free ∧ entry.id = most) :
    maxIndex entries = most := by
  rcases reached with ⟨entry, member, sized, rfl⟩
  exact Nat.le_antisymm (raises_le (Nat.zero_le _) bounded) (id_le_raises member sized)

/-- A block is only requested under an id that was allocated. -/
theorem id_le_of_holding (run : holding held entries = some final)
    (low : ∀ id ∈ held, id ≤ most) : ∀ entry ∈ entries, entry.id ≤ entries.foldl Entry.raise most := by
  induction entries generalizing held most with
  | nil => exact fun entry member => absurd member List.not_mem_nil
  | cons entry entries induction =>
      rw [holding_cons] at run
      rcases Option.bind_eq_some_iff.mp run with ⟨next, step, later⟩
      have own : entry.id ≤ entry.raise most ∧ ∀ id ∈ next, id ≤ entry.raise most := by
        cases entry with
        | alloc id size =>
            obtain ⟨_, rfl⟩ : id ∉ held ∧ insert id held = next := by
              simpa [Entry.step] using step
            refine ⟨Nat.le_max_left _ _, fun other member => ?_⟩
            rcases Finset.mem_insert.mp member with rfl | member
            · exact Nat.le_max_left _ _
            · exact Nat.le_trans (low other member) (Nat.le_max_right _ _)
        | realloc id size =>
            obtain ⟨member, rfl⟩ : id ∈ held ∧ held = next := by simpa [Entry.step] using step
            exact ⟨Nat.le_max_left _ _, fun other member =>
              Nat.le_trans (low other member) (Nat.le_max_right _ _)⟩
        | free id =>
            obtain ⟨member, rfl⟩ : id ∈ held ∧ held.erase id = next := by
              simpa [Entry.step] using step
            exact ⟨low id member, fun other inside => low other (Finset.mem_of_mem_erase inside)⟩
      exact List.forall_mem_cons.mpr
        ⟨Nat.le_trans own.1 (le_raises entries _), induction later own.2⟩

/-! ## Valid traces -/

/-- A trace that keeps to the protocol and to the range of an `int`, with the
counts in its header. -/
structure Valid (script : Script) (held : Finset Nat) : Prop where
  counted : script.Counted
  run : holding ∅ script.entries = some held
  numIds : script.numIds < 2 ^ 31
  numOps : script.numOps < 2 ^ 31
  sizes : ∀ entry ∈ script.entries, ∀ size ∈ entry.size?, size < 2 ^ 31

theorem Valid.id_lt (valid : script.Valid held) :
    ∀ entry ∈ script.entries, entry.id < script.numIds := by
  intro entry member
  rw [valid.counted.numIds]
  exact Nat.lt_succ_of_le (id_le_of_holding valid.run (by simp) entry member)

theorem Valid.small (valid : script.Valid held) : script.Small where
  numIds := valid.numIds
  numOps := valid.numOps
  entries entry member :=
    ⟨Nat.lt_trans (valid.id_lt entry member) valid.numIds, valid.sizes entry member⟩

/-! ## Balanced traces -/

/-- Ids in the order of their texts. -/
def released (held : Finset Nat) : List Nat :=
  (held.sort (· ≤ ·)).insertionSort fun left right => numeral left ≤ numeral right

/-- The trace with a free for every id that still has a block. -/
def balanced (script : Script) (held : Finset Nat) : Script :=
  { script with
    numOps := script.numOps + held.card
    entries := script.entries ++ (released held).map .free }

theorem mem_released : id ∈ released held ↔ id ∈ held := by
  simp [released]

theorem nodup_released (held : Finset Nat) : (released held).Nodup :=
  (List.perm_insertionSort _ _).nodup_iff.mpr (held.sort_nodup (· ≤ ·))

theorem length_released (held : Finset Nat) : (released held).length = held.card := by
  simp [released]

theorem balanced_empty (script : Script) : script.balanced ∅ = script := by
  simp [balanced, released]

theorem mem_balanced (member : entry ∈ (script.balanced held).entries) :
    entry ∈ script.entries ∨ ∃ id, entry = .free id := by
  refine (List.mem_append.mp member).imp_right fun late => ?_
  obtain ⟨id, _, rfl⟩ := List.mem_map.mp late
  exact ⟨id, rfl⟩

/-- Behind a balanced trace no id has a block. -/
theorem holding_balanced (run : holding ∅ script.entries = some held) :
    holding ∅ (script.balanced held).entries = some ∅ := by
  have all : (released held).toFinset = held := by
    ext id
    rw [List.mem_toFinset, mem_released]
  rw [balanced, holding_append, run, Option.bind_some,
    holding_frees (nodup_released held) fun id => mem_released.mp, all, Finset.sdiff_self]

theorem Counted.balanced (counted : script.Counted) (held : Finset Nat) :
    (script.balanced held).Counted where
  numOps := by
    rw [Script.balanced, List.length_append, List.length_map, length_released, counted.numOps]
  numIds := by
    have frees : ∀ entry ∈ (released held).map Entry.free, entry.type = .free := by
      simp [Entry.type]
    rw [Script.balanced, maxIndex_append, raise_frees frees]
    exact counted.numIds

theorem Valid.balanced (valid : script.Valid held) (room : script.numOps + held.card < 2 ^ 31) :
    (script.balanced held).Valid ∅ where
  counted := valid.counted.balanced held
  run := holding_balanced valid.run
  numIds := valid.numIds
  numOps := room
  sizes entry member := by
    rcases mem_balanced member with early | ⟨id, rfl⟩
    · exact valid.sizes entry early
    · exact fun size given => by cases given

end MallocLab.Script
