import MallocLab.Mm.Package

/-! # `mm_init`

The ring is not yet closed when `mm_init` extends the heap: the backward link
of the prologue points at no block. Nothing follows that link before it is
overwritten.
-/

namespace MallocLab.Mm

open Program Blocks Explicit

variable {machine : State}

/-- The arena after the six words of `mm_init` were written. -/
def opening (machine : State) : State :=
  let start := machine.memStartBrk
  (((((((machine.setBrk (start + 24)).setStatics ⟨start⟩).store start 0).store (start + 4)
    (pack 16 1)).store (start + 8) (start + 12)).store (start + 12) (start + 8)).store
    (start + 16) (pack 16 1)).store (start + 20) (pack 0 1) |>.setStatics ⟨start + 8⟩

theorem opening_load (empty : machine.Empty) :
    (opening machine).load (machine.memStartBrk + 4) = pack 16 1 ∧
      (opening machine).load (machine.memStartBrk + 12) = machine.memStartBrk + 8 ∧
      (opening machine).load (machine.memStartBrk + 16) = pack 16 1 ∧
      (opening machine).load (machine.memStartBrk + 20) = pack 0 1 := by
  have arena := empty.arena
  have addressable := empty.addressable
  unfold maxHeap at arena
  have small : pack 16 1 < 2 ^ 32 ∧ pack 0 1 < 2 ^ 32 := by decide
  refine ⟨?_, ?_, ?_, ?_⟩ <;>
    simp (disch := first | omega | exact small.1 | exact small.2) only [opening,
      Machine.setStatics_load, Machine.load_store_same, Machine.load_store_of_disjoint]

/-- The six words describe an empty heap with an open ring. -/
theorem opening_threaded (empty : machine.Empty) :
    Threaded openLists (opening machine) [prologue] [] := by
  have arena := empty.arena
  have addressable := empty.addressable
  have aligned := empty.startAligned
  rcases opening_load empty with ⟨header, succ, footer, epilogue⟩
  unfold maxHeap at arena
  have tag : pack 16 1 = prologue.tag := rfl
  refine ⟨⟨aligned, empty.arena, addressable, ?_, rfl, ?_, epilogue⟩, ?_, ?_⟩
  · simp only [opening, Machine.setStatics_memBrk, Machine.store_memBrk, Machine.setBrk_memBrk,
      Machine.setStatics_memMaxAddr, Machine.store_memMaxAddr, Machine.setBrk_memMaxAddr]
    omega
  · exact tags_singleton.mpr ⟨header, footer⟩
  · intro node member
    rw [List.mem_singleton.mp member]
    exact ⟨prologue, List.mem_cons_self, Nat.le_refl 16, rfl⟩
  · refine ⟨rfl, by simp, ?_, trivial⟩
    rw [List.nil_append, List.head?_cons, Option.some.injEq]
    exact succ.symm

/-- `mm_init` on an empty arena succeeds and leaves one free chunk. -/
theorem mmInit_holds (empty : machine.Empty) :
    Ensures mmInit machine fun value other => value = 0 ∧
      procedures.Holds other (Layout.initial lifo (procedures.base other) []) ∧
      other.memStartBrk = machine.memStartBrk := by
  have arena := empty.arena
  have addressable := empty.addressable
  have positive := empty.positive
  have threaded := opening_threaded empty
  have start : (opening machine).memStartBrk = machine.memStartBrk := rfl
  have brk : (opening machine).memBrk = machine.memStartBrk + 24 := rfl
  have maxAddr : (opening machine).memMaxAddr = machine.memMaxAddr := rfl
  unfold maxHeap at arena
  have words : chunkSize / wsize = 4096 / 4 := rfl
  have nextBrk : machine.nextBrk (toInt (6 * wsize)) = machine.memStartBrk + 24 := by
    rw [Machine.nextBrk, toInt_of_lt (by decide), empty.noneUsed]
    exact wrap_of_lt (by unfold wsize; omega)
  have granted : ¬machine.memBrk = sbrkFailed := by
    rw [empty.noneUsed]
    unfold sbrkFailed
    omega
  -- the first block is alone between the prologue and the epilogue
  have extended : Ensures (extendHeap (chunkSize / wsize)) (opening machine) fun value other =>
      value = (opening machine).origin + 16 + 4 ∧
        procedures.Holds other (Layout.initial lifo (procedures.base other) []) ∧
        other.memStartBrk = machine.memStartBrk := by
    rw [words, show extendHeap (4096 / 4) = extendHeapWith coalesce chunk.size from
      correct.extends_eq rfl (by decide)]
    refine ensures_extendHeapWith threaded rfl (by decide) rfl (by
      rw [brk, maxAddr]
      simp only [chunk, fresh, Block.ofFree]
      omega) ?_
    intro middle extended preserves
    have position : (opening machine).origin + total [prologue] + 4 =
        middle.origin + total [] + prologue.size + 4 := by
      rw [preserves.origin]
      simp [prologue]
    have around : Around middle ((opening machine).origin + total [prologue] + 4) prologue chunk
        [] := extended.tiled.around rfl position
    apply coalesce_lone around rfl allocField_headTag_nil
    have spot : ((opening machine).origin + total [prologue] + 4, chunk) ∈
        spots middle.origin ([prologue] ++ [chunk]) := by
      rw [position]
      simp
    have absent : (opening machine).origin + total [prologue] + 4 ∉ [sentinel middle] := by
      rw [List.mem_singleton, sentinel, preserves.origin]
      simp [prologue]
    refine (listAdd_threaded extended spot (by decide) rfl absent).mono fun _ other => ?_
    rintro ⟨ring, keeps, _⟩
    have base : procedures.base other = (opening machine).origin + 16 :=
      keeps.first.trans preserves.first
    refine ⟨rfl, ⟨rfl, ?_, ?_⟩, ?_⟩
    · rw [base]
      exact Threaded.comap_iff.mpr ring
    · exact Layout.initial_wellFormed lifo_lawful trivial rfl
    · rw [keeps.arena.memStartBrk, preserves.memStartBrk, start]
  simp only [mmInit, ensures_bind]
  rw [memSbrk_granted (by decide) (by rw [nextBrk]; omega), nextBrk]
  rw [empty.noneUsed] at granted ⊢
  simp only [ensures_setStatics, if_neg granted, ensures_bind, ensures_put]
  have owns : ∀ {changed : State} {address : Nat},
      changed.memStartBrk = machine.memStartBrk → changed.memBrk = machine.memStartBrk + 24 →
      machine.memStartBrk ≤ address → address ≤ machine.memStartBrk + 20 →
      changed.Owns address 4 := by
    intro changed address sameStart sameBrk low high
    constructor <;> omega
  have word : wsize = 4 := rfl
  refine ⟨owns rfl rfl ?_ ?_, owns rfl rfl ?_ ?_, owns rfl rfl ?_ ?_, owns rfl rfl ?_ ?_,
    owns rfl rfl ?_ ?_, owns rfl rfl ?_ ?_, extended.mono fun bp other => ?_⟩
  case refine_13 =>
    rintro ⟨rfl, holds, same⟩
    rw [if_neg (by unfold null; omega), ensures_pure]
    exact ⟨rfl, holds, same⟩
  all_goals omega

end MallocLab.Mm
