import Mathlib.Order.Interval.Finset.Nat
import MallocLab.Script.Generators

/-! # What the generators write

Every trace of a generator keeps to the protocol and has the counts of its
header, whatever `rand` gave.
-/

namespace MallocLab.Script

variable {entries : List Entry} {script : Script} {held : Finset Nat} {n i most : Nat}
  {size chosen : Nat → Nat}

/-! ## `gen_binary.pl` -/

section Binary

variable {blkSize1 blkSize2 blkSize12 : Nat}

theorem holding_binaryAllocs :
    holding ∅ (binaryAllocs blkSize1 blkSize2 n) = some (Finset.range (2 * n)) := by
  induction n with
  | zero => rfl
  | succ n induction =>
      have split : binaryAllocs blkSize1 blkSize2 (n + 1) = binaryAllocs blkSize1 blkSize2 n ++
          [.alloc (2 * n) blkSize1, .alloc (2 * n + 1) blkSize2] := by
        simp [binaryAllocs, List.range_succ, List.flatMap_append]
      have ids : 2 * (n + 1) = 2 * n + 1 + 1 := by omega
      rw [split, holding_append, induction, ids, Finset.range_add_one, Finset.range_add_one]
      simp [holding, Entry.step]

theorem holding_binaryFrees :
    ∃ held ⊆ Finset.range (2 * n), holding (Finset.range (2 * n)) (binaryFrees n) = some held := by
  have ids : binaryFrees n = ((List.range n).map fun i => 2 * i + 1).map .free := by
    rw [binaryFrees, List.map_map]
    rfl
  refine ⟨_, Finset.sdiff_subset, ids ▸ holding_frees ?_ ?_⟩
  · exact List.nodup_range.map fun left right same => by simpa using same
  · simp only [List.mem_map, List.mem_range, Finset.mem_range]
    rintro id ⟨i, inside, rfl⟩
    omega

theorem holding_binaryLarge (blkSize12 : Nat) (inside : held ⊆ Finset.range (2 * n)) :
    ∃ final, holding held (binaryLarge n blkSize12) = some final := by
  have ids : binaryLarge n blkSize12 =
      ((List.range n).map fun i => 2 * n + i).map fun id => .alloc id blkSize12 := by
    rw [binaryLarge, List.map_map]
    rfl
  refine ⟨_, ids ▸ holding_allocs ?_ ?_ fun _ => blkSize12⟩
  · exact List.nodup_range.map fun left right same => by simpa using same
  · simp only [List.mem_map, List.mem_range]
    rintro id ⟨i, bound, rfl⟩ member
    have := Finset.mem_range.mp (inside member)
    omega

theorem holding_binary (blkSize1 blkSize2 n : Nat) :
    ∃ held, holding ∅ (binary blkSize1 blkSize2 n).entries = some held := by
  rcases holding_binaryFrees (n := n) with ⟨kept, inside, freed⟩
  rcases holding_binaryLarge (blkSize1 + blkSize2) inside with ⟨final, allocated⟩
  refine ⟨final, ?_⟩
  rw [binary, holding_append, holding_append, holding_binaryAllocs, Option.bind_some, freed,
    Option.bind_some, allocated]

theorem mem_binary {entry : Entry} (member : entry ∈ (binary blkSize1 blkSize2 n).entries) :
    (∃ i < n, entry = .alloc (2 * i) blkSize1 ∨ entry = .alloc (2 * i + 1) blkSize2) ∨
      (∃ i < n, entry = .free (2 * i + 1)) ∨
      ∃ i < n, entry = .alloc (2 * n + i) (blkSize1 + blkSize2) := by
  simp only [binary, binaryAllocs, binaryFrees, binaryLarge, List.mem_append, List.mem_flatMap,
    List.mem_map, List.mem_range, List.mem_cons, List.not_mem_nil, or_false] at member
  rcases member with (⟨i, inside, pair⟩ | ⟨i, inside, rfl⟩) | ⟨i, inside, rfl⟩
  · exact .inl ⟨i, inside, pair⟩
  · exact .inr (.inl ⟨i, inside, rfl⟩)
  · exact .inr (.inr ⟨i, inside, rfl⟩)

theorem counted_binary (some : 0 < n) : (binary blkSize1 blkSize2 n).Counted where
  numOps := by
    have allocs : (binaryAllocs blkSize1 blkSize2 n).length = 2 * n := by
      simp [binaryAllocs, List.length_flatMap, Nat.mul_comm]
    simp only [binary, List.length_append, allocs, binaryFrees, binaryLarge, List.length_map,
      List.length_range]
    omega
  numIds := by
    have highest : maxIndex (binary blkSize1 blkSize2 n).entries = 3 * n - 1 := by
      refine maxIndex_eq (fun entry member sized => ?_)
        ⟨.alloc (3 * n - 1) (blkSize1 + blkSize2), ?_, nofun, rfl⟩
      · rcases mem_binary member with ⟨i, inside, rfl | rfl⟩ | ⟨i, inside, rfl⟩ | ⟨i, inside, rfl⟩ <;>
          · simp only [Entry.id]
            omega
      · have last : 3 * n - 1 = 2 * n + (n - 1) := by omega
        refine List.mem_append_right _ (List.mem_map.mpr ⟨n - 1, ?_, by rw [last]⟩)
        exact List.mem_range.mpr (by omega)
    rw [highest]
    simp only [binary]
    omega

end Binary

/-! ## `gen_coalescing.pl` -/

theorem holding_genCoalescing : holding ∅ (genCoalescing n).entries = some ∅ := by
  simp only [genCoalescing]
  induction n with
  | zero => rfl
  | succ n induction =>
      have freed : (({3 * n + 1, 3 * n} : Finset Nat).erase (3 * n)).erase (3 * n + 1) = ∅ := by
        ext id
        simp only [Finset.mem_erase, Finset.mem_insert, Finset.mem_singleton, Finset.notMem_empty]
        tauto
      have round : holding ∅ (coalescingRound 4095 n) = some ∅ := by
        simp [coalescingRound, holding, Entry.step, freed]
      rw [List.range_succ, List.flatMap_append, holding_append, induction, Option.bind_some,
        List.flatMap_cons, List.flatMap_nil, List.append_nil, round]

theorem counted_genCoalescing (some : 0 < n) : (genCoalescing n).Counted where
  numOps := by simp [genCoalescing, coalescingRound, List.length_flatMap, Nat.mul_comm]
  numIds := by
    have highest : maxIndex (genCoalescing n).entries = 3 * n - 1 := by
      refine maxIndex_eq (fun entry member sized => ?_)
        ⟨.alloc (3 * n - 1) (2 * 4095), ?_, nofun, rfl⟩
      · simp only [genCoalescing, coalescingRound, List.mem_flatMap, List.mem_range, List.mem_cons,
          List.not_mem_nil, or_false] at member
        rcases member with ⟨i, inside, rfl | rfl | rfl | rfl | rfl | rfl⟩ <;>
          · simp only [Entry.id]
            omega
      · have last : 3 * n - 1 = 3 * (n - 1) + 2 := by omega
        refine List.mem_flatMap.mpr ⟨n - 1, List.mem_range.mpr (by omega), ?_⟩
        simp [coalescingRound, last]
    rw [highest]
    simp only [genCoalescing]
    omega

/-! ## `gen_realloc.pl` -/

section Realloc

variable {sizeIncrement mallocSize reallocSize blk rounds : Nat}

theorem holding_reallocLoop (other : blk ≠ 0) :
    holding {0, blk} (reallocLoop sizeIncrement mallocSize rounds blk reallocSize) = some ∅ := by
  induction rounds generalizing blk reallocSize with
  | zero =>
      have freed : (({0, blk} : Finset Nat).erase blk).erase 0 = ∅ := by
        ext id
        simp only [Finset.mem_erase, Finset.mem_insert, Finset.mem_singleton, Finset.notMem_empty]
        tauto
      simp [reallocLoop, holding, Entry.step, freed, other.symm]
  | succ rounds induction =>
      have freed : (insert (blk + 1) {0, blk} : Finset Nat).erase blk = {0, blk + 1} := by
        ext id
        simp only [Finset.mem_erase, Finset.mem_insert, Finset.mem_singleton]
        omega
      have moved : Entry.step {0, blk} (.realloc 0 (reallocSize + sizeIncrement)) =
          some {0, blk} := by simp [Entry.step]
      have allocated : Entry.step {0, blk} (.alloc (blk + 1) mallocSize) =
          some (insert (blk + 1) {0, blk}) := by simp [Entry.step]
      have released : Entry.step (insert (blk + 1) {0, blk}) (.free blk) =
          some {0, blk + 1} := by
        rw [Entry.step, if_pos (by simp), freed]
      rw [reallocLoop, holding_cons, moved, Option.bind_some, holding_cons, allocated,
        Option.bind_some, holding_cons, released, Option.bind_some]
      exact induction (Nat.succ_ne_zero blk)

theorem holding_reallocEntries :
    holding ∅ (reallocEntries sizeIncrement mallocSize reallocSize n) = some ∅ := by
  have both : (insert 1 (insert 0 ∅) : Finset Nat) = {0, 1} := by decide
  have first : Entry.step ∅ (.alloc 0 reallocSize) = some (insert 0 ∅) := by simp [Entry.step]
  have second : Entry.step (insert 0 ∅) (.alloc 1 mallocSize) = some {0, 1} := by
    rw [Entry.step, if_neg (by decide), both]
  rw [reallocEntries, holding_cons, first, Option.bind_some, holding_cons, second,
    Option.bind_some]
  exact holding_reallocLoop one_ne_zero

theorem length_reallocLoop :
    (reallocLoop sizeIncrement mallocSize rounds blk reallocSize).length = 3 * rounds + 2 := by
  induction rounds generalizing blk reallocSize with
  | zero => rfl
  | succ rounds induction =>
      simp only [reallocLoop, List.length_cons, induction]
      omega

theorem length_reallocEntries (some : 0 < n) :
    (reallocEntries sizeIncrement mallocSize reallocSize n).length = 3 * n + 1 := by
  simp only [reallocEntries, List.length_cons, length_reallocLoop]
  omega

/-- The ids and the sizes of the loop. -/
theorem mem_reallocLoop {entry : Entry}
    (member : entry ∈ reallocLoop sizeIncrement mallocSize rounds blk reallocSize) :
    entry.id ≤ blk + rounds ∧
      ∀ size ∈ entry.size?, size ≤ mallocSize ∨ size ≤ reallocSize + sizeIncrement * rounds := by
  induction rounds generalizing blk reallocSize with
  | zero =>
      simp only [reallocLoop, List.mem_cons, List.not_mem_nil, or_false] at member
      rcases member with rfl | rfl <;> simp [Entry.id, Entry.size?]
  | succ rounds induction =>
      simp only [reallocLoop, List.mem_cons] at member
      rcases member with rfl | rfl | rfl | later
      · refine ⟨Nat.zero_le _, fun size given => .inr ?_⟩
        cases given
        rw [Nat.mul_succ]
        omega
      · refine ⟨by simp only [Entry.id]; omega, fun size given => .inl ?_⟩
        cases given
        exact Nat.le_refl _
      · refine ⟨by simp only [Entry.id]; omega, fun size given => by cases given⟩
      · have bounds := induction later
        refine ⟨by omega, fun size given => (bounds.2 size given).imp_right fun small => ?_⟩
        rw [Nat.mul_succ]
        omega

/-- The last block is allocated in the last round, or before the first. -/
theorem alloc_mem_reallocLoop (some : 0 < rounds) : .alloc (blk + rounds) mallocSize ∈
    reallocLoop sizeIncrement mallocSize rounds blk reallocSize := by
  induction rounds generalizing blk reallocSize with
  | zero => exact absurd some (Nat.lt_irrefl 0)
  | succ rounds induction =>
      rw [reallocLoop]
      rcases Nat.eq_zero_or_pos rounds with rfl | more
      · exact List.mem_cons_of_mem _ List.mem_cons_self
      · have shifted : blk + (rounds + 1) = blk + 1 + rounds := by omega
        rw [shifted]
        exact List.mem_cons_of_mem _ (List.mem_cons_of_mem _ (List.mem_cons_of_mem _
          (induction more)))

theorem maxIndex_reallocEntries (some : 0 < n) :
    maxIndex (reallocEntries sizeIncrement mallocSize reallocSize n) = n := by
  refine maxIndex_eq (fun entry member _ => ?_) ⟨.alloc n mallocSize, ?_, nofun, rfl⟩
  · simp only [reallocEntries, List.mem_cons] at member
    rcases member with rfl | rfl | later
    · exact Nat.zero_le n
    · exact some
    · have bounds := mem_reallocLoop later
      omega
  · rw [reallocEntries]
    rcases Nat.eq_or_lt_of_le some with rfl | more
    · exact List.mem_cons_of_mem _ List.mem_cons_self
    · have allocated : .alloc (1 + (n - 1)) mallocSize ∈
          reallocLoop sizeIncrement mallocSize (n - 1) 1 reallocSize :=
        alloc_mem_reallocLoop (Nat.sub_pos_of_lt more)
      rw [Nat.add_sub_cancel' some] at allocated
      exact List.mem_cons_of_mem _ (List.mem_cons_of_mem _ allocated)

theorem counted_genRealloc (some : 0 < n) : (genRealloc n).Counted where
  numOps := by
    simp only [genRealloc, length_reallocEntries some]
    omega
  numIds := by simp only [genRealloc, maxIndex_reallocEntries some]

theorem counted_genRealloc2 (some : 0 < n) : (genRealloc2 n).Counted where
  numOps := by simp only [genRealloc2, length_reallocEntries some]
  numIds := by simp only [genRealloc2, maxIndex_reallocEntries some]

end Realloc

/-! ## `gen_random.pl` -/

section Random

variable {ops : List Entry} {rounds minval k : Nat}

/-- The inner loop stops at the allocation. -/
theorem seek_eq (found : ops[k]? = some (.alloc i (size i))) (from_ : minval ≤ k)
    (only : ∀ j < k, ∀ op ∈ ops[j]?, ¬IsAlloc i op) (enough : k < minval + rounds) :
    seek ops i rounds minval = k := by
  induction rounds generalizing minval with
  | zero => omega
  | succ rounds induction =>
      rw [seek]
      rcases Nat.eq_or_lt_of_le from_ with rfl | before
      · rw [if_pos ⟨_, found, rfl⟩]
      · have other : ¬∃ op ∈ ops[minval]?, IsAlloc i op := by
          rintro ⟨op, given, isAlloc⟩
          exact only minval before op given isAlloc
        rw [if_neg other]
        exact induction before (by omega)

/-- `@trace` in front of a round: the blocks from `i` on are still to be given
up, and no allocation came closer to the beginning. -/
structure Unfreed (n i : Nat) (size : Nat → Nat) (ops : List Entry) : Prop where
  length : ops.length = n + i
  run : holding ∅ ops = some (Finset.Ico i n)
  allocs : ops.filter (fun op => op.type ≠ .free) =
    (List.range n).map fun j => Entry.alloc j (size j)
  once : ∀ j, i ≤ j → j < n → ops.filter (fun op => op.id = j) = [Entry.alloc j (size j)]
  late : ∀ k j size, ops[k]? = some (Entry.alloc j size) → j ≤ k

theorem unfreed_zero (n : Nat) (size : Nat → Nat) :
    Unfreed n 0 size ((List.range n).map fun j => .alloc j (size j)) where
  length := by simp
  run := by
    have ids : (List.range n).toFinset = Finset.Ico 0 n := by
      ext j
      simp
    rw [holding_allocs List.nodup_range (fun _ _ => Finset.notMem_empty _), Finset.empty_union,
      ids]
  allocs := by simp [List.filter_map, Function.comp_def, Entry.type]
  once j _ inside := by
    have single : (List.range n).filter (fun i => i = j) = [j] := by
      rw [List.filter_eq, List.count_eq_one_of_mem List.nodup_range (List.mem_range.mpr inside)]
      rfl
    rw [List.filter_map]
    exact congrArg (List.map _) single
  late k j size given := by
    rw [List.getElem?_map, Option.map_eq_some_iff] at given
    rcases given with ⟨place, found, same⟩
    obtain ⟨_, rfl⟩ := List.getElem?_eq_some_iff.mp found
    cases same
    simp

theorem insertIdx_length_append {first second : List Entry} {entry : Entry} :
    (first ++ second).insertIdx first.length entry = first ++ entry :: second := by
  induction first with
  | nil => rfl
  | cons _ first induction => exact congrArg (List.cons _) induction

/-- A free is put behind the allocation, which is found where it is. -/
theorem Unfreed.split (unfreed : Unfreed n i size ops) (inside : i < n)
    (drawn : chosen i ≤ n + i - seek ops i n i - 1) : ∃ front back,
      ops = front ++ back ∧ insertFree n chosen ops i = front ++ .free i :: back ∧
        ∀ op ∈ back, op.id ≠ i := by
  obtain ⟨before, after, rfl, early, _, late⟩ :=
    List.filter_eq_cons_iff.mp (unfreed.once i (Nat.le_refl i) inside)
  have length := unfreed.length
  rw [List.length_append, List.length_cons] at length
  have found : (before ++ Entry.alloc i (size i) :: after)[before.length]? =
      some (Entry.alloc i (size i)) := by simp
  have place : seek (before ++ Entry.alloc i (size i) :: after) i n i = before.length := by
    refine seek_eq found (unfreed.late _ _ _ found) (fun j inside op given isAlloc => ?_) (by omega)
    rw [List.getElem?_append_left inside] at given
    have other := early op (List.mem_of_getElem? given)
    cases op with
    | alloc seq size =>
        cases isAlloc
        simp [Entry.id] at other
    | realloc seq size => exact isAlloc
    | free seq => exact isAlloc
  rw [place] at drawn
  have whole : before ++ Entry.alloc i (size i) :: after =
      before ++ Entry.alloc i (size i) :: after.take (chosen i) ++ after.drop (chosen i) := by simp
  refine ⟨before ++ Entry.alloc i (size i) :: after.take (chosen i), after.drop (chosen i), whole,
    ?_, fun op member => ?_⟩
  · have front : chosen i + before.length + 1 =
        (before ++ Entry.alloc i (size i) :: after.take (chosen i)).length := by
      rw [List.length_append, List.length_cons, List.length_take]
      omega
    rw [Script.insertFree, place, front, whole]
    exact insertIdx_length_append
  · have other := List.filter_eq_nil_iff.mp late op (List.mem_of_mem_drop member)
    simpa using other

/-- A round leaves one block less to be given up. -/
theorem Unfreed.insertFree (unfreed : Unfreed n i size ops) (inside : i < n)
    (drawn : chosen i ≤ n + i - seek ops i n i - 1) :
    Unfreed n (i + 1) size (insertFree n chosen ops i) := by
  obtain ⟨front, back, rfl, inserted, unused⟩ := unfreed.split inside drawn
  rw [inserted]
  constructor
  · have length := unfreed.length
    rw [List.length_append] at length
    rw [List.length_append, List.length_cons]
    omega
  · have run := unfreed.run
    rw [holding_append] at run
    rcases Option.bind_eq_some_iff.mp run with ⟨middle, early, late⟩
    have member : i ∈ middle := by
      rw [← mem_of_unused unused late]
      exact Finset.mem_Ico.mpr ⟨Nat.le_refl i, inside⟩
    have rest : (Finset.Ico i n).erase i = Finset.Ico (i + 1) n := by
      ext j
      simp only [Finset.mem_erase, Finset.mem_Ico]
      omega
    rw [← rest]
    exact holding_insert_free early member late unused
  · have allocs := unfreed.allocs
    rw [List.filter_append] at allocs
    simp only [List.filter_append, List.filter_cons, Entry.type]
    exact allocs
  · intro j above bound
    have once := unfreed.once j (Nat.le_of_succ_le above) bound
    rw [List.filter_append] at once
    have other : (Entry.free i).id ≠ j := Nat.ne_of_lt above
    rw [List.filter_append, List.filter_cons_of_neg (by simpa using other), once]
  · intro k j size given
    rcases Nat.lt_trichotomy k front.length with before | rfl | behind
    · rw [List.getElem?_append_left before] at given
      refine unfreed.late k j size ?_
      rwa [List.getElem?_append_left before]
    · simp at given
    · obtain ⟨k, rfl⟩ := Nat.exists_eq_succ_of_ne_zero (Nat.ne_of_gt (Nat.zero_lt_of_lt behind))
      have later : front.length ≤ k := Nat.le_of_lt_succ behind
      refine Nat.le_succ_of_le (unfreed.late k j size ?_)
      rw [List.getElem?_append_right later]
      rw [List.getElem?_append_right (Nat.le_of_lt behind), Nat.succ_sub later,
        List.getElem?_cons_succ] at given
      exact given

theorem unfreed_insertFrees (drawn : Drawn n size chosen) (bound : i ≤ n) :
    Unfreed n i size (insertFrees n size chosen i) := by
  induction i with
  | zero => exact unfreed_zero n size
  | succ i induction => exact (induction (Nat.le_of_succ_le bound)).insertFree bound (drawn i bound)

theorem holding_genRandom (drawn : Drawn n size chosen) :
    holding ∅ (genRandom n size chosen).entries = some ∅ := by
  have run := (unfreed_insertFrees drawn (Nat.le_refl n)).run
  rwa [Finset.Ico_self] at run

theorem counted_genRandom (some : 0 < n) (drawn : Drawn n size chosen) :
    (genRandom n size chosen).Counted := by
  have unfreed := unfreed_insertFrees drawn (Nat.le_refl n)
  have highest : maxIndex (genRandom n size chosen).entries = n - 1 := by
    refine maxIndex_eq (fun entry member sized => ?_)
      ⟨.alloc (n - 1) (size (n - 1)), ?_, nofun, rfl⟩
    · have listed : entry ∈ (insertFrees n size chosen n).filter fun op => op.type ≠ .free :=
        List.mem_filter.mpr ⟨member, by simpa using sized⟩
      rw [unfreed.allocs] at listed
      obtain ⟨j, inside, rfl⟩ := List.mem_map.mp listed
      have := List.mem_range.mp inside
      simp only [Entry.id]
      omega
    · have listed : Entry.alloc (n - 1) (size (n - 1)) ∈
          (insertFrees n size chosen n).filter fun op => op.type ≠ .free := by
        rw [unfreed.allocs]
        exact List.mem_map.mpr ⟨n - 1, List.mem_range.mpr (by omega), rfl⟩
      exact (List.mem_filter.mp listed).1
  constructor
  · have length : (genRandom n size chosen).entries.length = n + n := unfreed.length
    rw [length]
    simp only [genRandom]
    omega
  · rw [highest]
    simp only [genRandom]
    omega

theorem sizes_genRandom (sizes : ∀ i < n, size i < 32768) (drawn : Drawn n size chosen) :
    ∀ entry ∈ (genRandom n size chosen).entries, ∀ size ∈ entry.size?, size < 32768 := by
  intro entry member given present
  have sized := Entry.sized_of_mem present
  have listed : entry ∈ (insertFrees n size chosen n).filter fun op => op.type ≠ .free :=
    List.mem_filter.mpr ⟨member, by simpa using sized⟩
  rw [(unfreed_insertFrees drawn (Nat.le_refl n)).allocs] at listed
  obtain ⟨j, inside, rfl⟩ := List.mem_map.mp listed
  cases present
  exact sizes j (List.mem_range.mp inside)

end Random

/-! ## All of them -/

theorem sizes_binary {blkSize1 blkSize2 : Nat} :
    ∀ entry ∈ (binary blkSize1 blkSize2 n).entries, ∀ size ∈ entry.size?,
      size ≤ blkSize1 + blkSize2 := by
  intro entry member size given
  rcases mem_binary member with ⟨i, _, rfl | rfl⟩ | ⟨i, _, rfl⟩ | ⟨i, _, rfl⟩ <;>
    · cases given <;> omega

theorem sizes_genCoalescing :
    ∀ entry ∈ (genCoalescing n).entries, ∀ size ∈ entry.size?, 1 ≤ size ∧ size ≤ 8190 := by
  intro entry member size given
  simp only [genCoalescing, coalescingRound, List.mem_flatMap, List.mem_range, List.mem_cons,
    List.not_mem_nil, or_false] at member
  rcases member with ⟨i, _, rfl | rfl | rfl | rfl | rfl | rfl⟩ <;>
    · cases given <;> decide

theorem sizes_reallocEntries {sizeIncrement mallocSize reallocSize : Nat} :
    ∀ entry ∈ reallocEntries sizeIncrement mallocSize reallocSize n, ∀ size ∈ entry.size?,
      size ≤ mallocSize ∨ size ≤ reallocSize + sizeIncrement * (n - 1) := by
  intro entry member size given
  simp only [reallocEntries, List.mem_cons] at member
  rcases member with rfl | rfl | later
  · cases given
    exact .inr (Nat.le_add_right _ _)
  · cases given
    exact .inl (Nat.le_refl _)
  · exact (mem_reallocLoop later).2 size given

theorem valid_binary {blkSize1 blkSize2 : Nat} (some : 0 < n) (few : n < 2 ^ 23)
    (sizes : blkSize1 + blkSize2 < 2 ^ 31) : ∃ held, (binary blkSize1 blkSize2 n).Valid held := by
  rcases holding_binary blkSize1 blkSize2 n with ⟨held, run⟩
  refine ⟨held, counted_binary some, run, ?_, ?_, fun entry member size given =>
    Nat.lt_of_le_of_lt (sizes_binary entry member size given) sizes⟩ <;>
    · simp only [binary]
      omega

theorem valid_genCoalescing (some : 0 < n) (few : n < 2 ^ 23) : (genCoalescing n).Valid ∅ := by
  refine ⟨counted_genCoalescing some, holding_genCoalescing, ?_, ?_,
    fun entry member size given =>
      Nat.lt_of_le_of_lt (sizes_genCoalescing entry member size given).2 (by omega)⟩ <;>
    · simp only [genCoalescing]
      omega

/-- Whatever `rand` gave, every trace of a generator is valid, and all but
those of `gen_binary.pl` and `gen_binary2.pl` are balanced. -/
theorem generated_valid (generated : Generated script) : ∃ held, script.Valid held ∧
    (held = ∅ ∨ ∃ n, script = genBinary n ∨ script = genBinary2 n) := by
  cases generated with
  | @binary n some few =>
      obtain ⟨held, valid⟩ : ∃ held, (genBinary n).Valid held := valid_binary some few (by decide)
      exact ⟨held, valid, .inr ⟨n, .inl rfl⟩⟩
  | @binary2 n some few =>
      obtain ⟨held, valid⟩ : ∃ held, (genBinary2 n).Valid held := valid_binary some few (by decide)
      exact ⟨held, valid, .inr ⟨n, .inr rfl⟩⟩
  | coalescing some few => exact ⟨∅, valid_genCoalescing some few, .inl rfl⟩
  | realloc some few =>
      refine ⟨∅, ⟨counted_genRealloc some, holding_reallocEntries, ?_, ?_,
        fun entry member size given => ?_⟩, .inl rfl⟩
      · simp only [genRealloc]
        omega
      · simp only [genRealloc]
        omega
      · rcases sizes_reallocEntries entry member size given with small | small <;> omega
  | realloc2 some few =>
      refine ⟨∅, ⟨counted_genRealloc2 some, holding_reallocEntries, ?_, ?_,
        fun entry member size given => ?_⟩, .inl rfl⟩
      · simp only [genRealloc2]
        omega
      · simp only [genRealloc2]
        omega
      · rcases sizes_reallocEntries entry member size given with small | small <;> omega
  | random some few sizes drawn =>
      refine ⟨∅, ⟨counted_genRandom some drawn, holding_genRandom drawn, ?_, ?_,
        fun entry member size given => Nat.lt_trans
          (sizes_genRandom sizes drawn entry member size given) (by omega)⟩, .inl rfl⟩ <;>
        · simp only [genRandom]
          omega

theorem generated_valid_random : ∃ held, (genRandom 2 (fun _ => 8) fun _ => 0).Valid held ∧
    (held = ∅ ∨ ∃ n, genRandom 2 (fun _ => 8) (fun _ => 0) = genBinary n ∨
      genRandom 2 (fun _ => 8) (fun _ => 0) = genBinary2 n) :=
  generated_valid (.random (by decide) (by decide) (by decide) fun _ _ => Nat.zero_le _)

end MallocLab.Script
