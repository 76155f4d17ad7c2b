import MallocLab.BoundaryTag.Links
import MallocLab.BoundaryTag.Threaded
import MallocLab.Mm.Source

/-! # The circular free list of `mm.c` -/

namespace MallocLab.Mm

open Program Blocks

variable {machine : State} {blocks : List Block} {free : List Nat}

/-- The payload of the prologue, which is the sentinel of the list. -/
def sentinel (machine : State) : Nat := machine.origin + 4

/-- The list as a ring through the sentinel. -/
def lists : FreeIndex Statics (List Nat) where
  nodes machine free := sentinel machine :: free
  Holds machine free :=
    machine.statics.heapListp = sentinel machine ∧
      (sentinel machine :: free).Nodup ∧
      Linked machine.pred machine.succ (sentinel machine :: free ++ [sentinel machine])
  nodes_same := by
    intro machine other free same
    simp only [sentinel, Machine.origin, same]
  holds_same := by
    intro machine other free same sameStatics bytes holds
    rcases holds with ⟨listp, nodup, linked⟩
    simp only [sentinel, Machine.origin, same, sameStatics] at *
    refine ⟨listp, nodup, linked.of_same_links fun node member => ?_⟩
    exact bytes node (by simp at member ⊢; tauto)

/-- The list while nothing is known of the backward link of its first node, as
`mm_init` leaves it. -/
def openLists : FreeIndex Statics (List Nat) where
  nodes machine free := sentinel machine :: free
  Holds machine free :=
    machine.statics.heapListp = sentinel machine ∧
      (sentinel machine :: free).Nodup ∧
      (free ++ [sentinel machine]).head? = some (machine.succ (sentinel machine)) ∧
      Linked machine.pred machine.succ (free ++ [sentinel machine])
  nodes_same := by
    intro machine other free same
    simp only [sentinel, Machine.origin, same]
  holds_same := by
    intro machine other free same sameStatics bytes holds
    rcases holds with ⟨listp, nodup, opening, linked⟩
    simp only [sentinel, Machine.origin, same, sameStatics] at *
    refine ⟨listp, nodup, ?_, linked.of_same_links fun node member => ?_⟩
    · rw [(Machine.links_congr (bytes _ (by simp))).2]
      exact opening
    · exact bytes node (by simp at member ⊢; tauto)

theorem opened (threaded : Threaded lists machine blocks free) :
    Threaded openLists machine blocks free := by
  refine ⟨threaded.tiled, threaded.members, ?_⟩
  rcases threaded.holds with ⟨listp, nodup, linked⟩
  refine ⟨listp, nodup, ?_⟩
  cases free with
  | nil => exact ⟨by simp [linked.1], trivial⟩
  | cons first rest => exact ⟨by simp [linked.1], linked.2.2⟩

section Ensures

variable (bp value : Nat)

@[simp] theorem ensures_predP (goal : Nat → State → Prop) :
    Ensures (predP bp) machine goal ↔ machine.Owns bp 4 ∧ goal (machine.pred bp) machine :=
  ensures_get _ _

@[simp] theorem ensures_succP (goal : Nat → State → Prop) :
    Ensures (succP bp) machine goal ↔
      machine.Owns (bp + 4) 4 ∧ goal (machine.succ bp) machine :=
  ensures_get _ _

@[simp] theorem ensures_setPredP (goal : Unit → State → Prop) :
    Ensures (setPredP bp value) machine goal ↔
      machine.Owns bp 4 ∧ goal () (machine.setPred bp value) :=
  ensures_put _ _ _

@[simp] theorem ensures_setSuccP (goal : Unit → State → Prop) :
    Ensures (setSuccP bp value) machine goal ↔
      machine.Owns (bp + 4) 4 ∧ goal () (machine.setSucc bp value) :=
  ensures_put _ _ _

@[simp] theorem ensures_heapListp (goal : Nat → State → Prop) :
    Ensures heapListp machine goal ↔ goal machine.statics.heapListp machine := by
  simp [heapListp]

end Ensures

/-- Every node of the list owns two words of the heap. -/
theorem owns_node (threaded : Threaded openLists machine blocks free) {node : Nat}
    (member : node ∈ sentinel machine :: free) :
    machine.Owns node 4 ∧ machine.Owns (node + 4) 4 := by
  have bounds := threaded.node_bounds member
  constructor <;> constructor <;> omega

/-- `list_remove` takes a member out of the list. -/
theorem listRemove_threaded (threaded : Threaded lists machine blocks free) {p : Nat}
    (member : p ∈ free) :
    Ensures (listRemove p) machine fun _ other =>
      Threaded lists other blocks (free.erase p) ∧ Keeps blocks machine other ∧
        other.statics = machine.statics := by
  rcases List.append_of_mem member with ⟨front, back, rfl⟩
  rcases threaded.holds with ⟨listp, nodup, linked⟩
  have notFront : p ∉ front := fun inside =>
    (List.nodup_append.mp (List.nodup_cons.mp nodup).2).2.2 p inside p (by simp) rfl
  have erased : (front ++ p :: back).erase p = front ++ back := by
    rw [List.erase_append_right _ notFront, List.erase_cons_head]
  have backwardNodup : (front ++ p :: back ++ [sentinel machine]).Nodup :=
    (List.perm_append_singleton _ _).symm.nodup nodup
  rcases linked.remove_member nodup backwardNodup with
    ⟨before, after, beforeMember, afterMember, toNode, fromNode, toAfter, fromAfter, relinked⟩
  have beforeNode : before ∈ sentinel machine :: (front ++ p :: back) := by
    simp only [List.mem_cons, List.mem_append] at beforeMember ⊢
    tauto
  have afterNode : after ∈ sentinel machine :: (front ++ p :: back) := by
    simp only [List.mem_cons, List.mem_append, List.not_mem_nil, or_false] at afterMember ⊢
    tauto
  have distinct : p ≠ before := by
    intro same
    simp only [← same, List.mem_cons] at beforeMember
    rcases beforeMember with isSentinel | inFront
    · exact (List.nodup_cons.mp nodup).1 (isSentinel ▸ member)
    · exact notFront inFront
  have beforeAligned := threaded.node_aligned beforeNode
  have afterAligned := threaded.node_aligned afterNode
  have nodeAligned := threaded.node_aligned (List.mem_cons_of_mem _ member)
  have beforeWord := threaded.node_lt beforeNode
  have afterWord := threaded.node_lt afterNode
  have again : (machine.setSucc before after).succ p = after ∧
      (machine.setSucc before after).pred p = before := by
    constructor
    · rw [Machine.succ_setSucc afterWord beforeAligned nodeAligned, if_neg distinct, toAfter]
    · rw [Machine.pred_setSucc beforeAligned nodeAligned, fromNode]
  have same : SameArena machine ((machine.setSucc before after).setPred after before) :=
    ⟨rfl, rfl, rfl⟩
  have relinkedThreaded :
      Threaded lists ((machine.setSucc before after).setPred after before) blocks
          (front ++ back) ∧
        Keeps blocks machine ((machine.setSucc before after).setPred after before) := by
    apply threaded.relink same [before, after]
    · intro node touched
      simp only [List.mem_cons, List.not_mem_nil, or_false] at touched
      rcases touched with rfl | rfl
      · exact threaded.members _ beforeNode
      · exact threaded.members _ afterNode
    · intro address outside
      rw [Machine.setPred_bytes (outside after (by simp)),
        Machine.setSucc_bytes (outside before (by simp))]
    · intro node touched
      right
      simp only [lists, List.mem_cons, List.mem_append] at touched ⊢
      tauto
    · refine ⟨listp, nodup.sublist ?_, ?_⟩
      · exact ((List.sublist_append_right [p] back).append_left front).cons_cons _
      · apply relinked
        · intro other otherMember different
          have aligned := threaded.node_aligned otherMember
          rw [Machine.succ_setPred afterAligned aligned,
            Machine.succ_setSucc afterWord beforeAligned aligned, if_neg different]
        · intro other otherMember different
          have aligned := threaded.node_aligned
            ((List.perm_append_singleton _ _).mem_iff.mp otherMember)
          rw [Machine.pred_setPred beforeWord afterAligned aligned, if_neg different,
            Machine.pred_setSucc beforeAligned aligned]
        · rw [Machine.succ_setPred afterAligned beforeAligned,
            Machine.succ_setSucc afterWord beforeAligned beforeAligned, if_pos rfl]
        · rw [Machine.pred_setPred beforeWord afterAligned afterAligned, if_pos rfl]
  have nodeOwned := owns_node (opened threaded) (List.mem_cons_of_mem _ member)
  have beforeOwned := owns_node (opened threaded) beforeNode
  have afterOwned := owns_node (opened threaded) afterNode
  simp only [listRemove, ensures_bind, ensures_predP, ensures_succP, ensures_setSuccP,
    ensures_setPredP, fromNode, toAfter, again, erased]
  exact ⟨nodeOwned.1, nodeOwned.2, beforeOwned.2, nodeOwned.2, nodeOwned.1, afterOwned.1,
    relinkedThreaded.1, relinkedThreaded.2, rfl⟩

/-- `list_add` puts a free block in front of the list. -/
theorem listAdd_threaded (threaded : Threaded openLists machine blocks free) {p : Nat}
    {block : Block} (spot : (p, block) ∈ spots machine.origin blocks)
    (large : 16 ≤ block.size) (idle : block.request? = none)
    (absent : p ∉ sentinel machine :: free) :
    Ensures (listAdd p) machine fun _ other =>
      Threaded lists other blocks (p :: free) ∧ Keeps blocks machine other ∧
        other.statics = machine.statics := by
  rcases threaded.holds with ⟨listp, nodup, opening, linked⟩
  let start := sentinel machine
  rcases shape : free ++ [start] with _ | ⟨after, rest⟩
  · simp at shape
  · have succStart : machine.succ start = after := by
      have head := opening
      rw [shape] at head
      simpa using head.symm
    have notStart : p ≠ start := fun same => absent (by simp [same, start])
    have afterNode : after ∈ start :: free := by
      have member : after ∈ free ++ [start] := by simp [shape]
      simpa [or_comm] using member
    have startAligned : start % 8 = 0 := threaded.node_aligned (by simp [openLists, start])
    have afterAligned := threaded.node_aligned afterNode
    have aligned := spot_aligned threaded.tiled.origin_aligned spot
    have afterWord := threaded.node_lt afterNode
    have startWord : start < 2 ^ 32 := threaded.node_lt (by simp [openLists, start])
    have bounds := spot_bounds spot
    have extent := threaded.tiled.extent
    have inArena := threaded.tiled.brkInArena
    have addressable := threaded.tiled.addressable
    have word : p < 2 ^ 32 := by
      unfold Machine.origin at bounds
      omega
    have owned : machine.Owns p 4 ∧ machine.Owns (p + 4) 4 := by
      unfold Machine.origin at bounds
      constructor <;> constructor <;> omega
    let final := (((machine.setSucc p after).setPred p start).setPred after p).setSucc start p
    have same : SameArena machine final := ⟨rfl, rfl, rfl⟩
    -- what the four writes do to the links of an aligned node
    have succFinal : ∀ {other : Nat}, other % 8 = 0 → final.succ other =
        if other = start then p else if other = p then after else machine.succ other := by
      intro other otherAligned
      rw [Machine.succ_setSucc word startAligned otherAligned,
        Machine.succ_setPred afterAligned otherAligned,
        Machine.succ_setPred aligned otherAligned,
        Machine.succ_setSucc afterWord aligned otherAligned]
    have predFinal : ∀ {other : Nat}, other % 8 = 0 → final.pred other =
        if other = after then p else if other = p then start else machine.pred other := by
      intro other otherAligned
      rw [Machine.pred_setSucc startAligned otherAligned,
        Machine.pred_setPred word afterAligned otherAligned,
        Machine.pred_setPred startWord aligned otherAligned,
        Machine.pred_setSucc aligned otherAligned]
    have afterNotNode : p ≠ after := fun same => absent (same ▸ afterNode)
    have relinked : Threaded lists final blocks (p :: free) ∧ Keeps blocks machine final := by
      apply threaded.relink same [p, start, after]
      · intro node touched
        simp only [List.mem_cons, List.not_mem_nil, or_false] at touched
        rcases touched with rfl | rfl | rfl
        · exact ⟨block, spot, large, idle⟩
        · exact threaded.members _ (by simp [openLists, start])
        · exact threaded.members _ afterNode
      · intro address outside
        rw [Machine.setSucc_bytes (outside start (by simp)),
          Machine.setPred_bytes (outside after (by simp)),
          Machine.setPred_bytes (outside p (by simp)),
          Machine.setSucc_bytes (outside p (by simp))]
      · intro node touched
        simp only [lists, openLists, List.mem_cons] at touched ⊢
        tauto
      · refine ⟨listp, ?_, ?_⟩
        · exact (List.Perm.swap _ _ _).nodup (List.nodup_cons.mpr ⟨absent, nodup⟩)
        · have chain : Linked final.pred final.succ ([] ++ start :: p :: after :: rest) := by
            have backwardNodup : (after :: rest).Nodup := by
              rw [← shape]
              exact (List.perm_append_singleton _ _).symm.nodup nodup
            apply Linked.link (by simp) (shape ▸ linked)
            · rw [List.nil_append, ← shape, ← List.cons_append, List.dropLast_concat]
              exact nodup
            · simpa using backwardNodup
            · intro other member different
              rw [List.nil_append, ← shape, ← List.cons_append, List.dropLast_concat] at member
              have absentOther : other ≠ p := fun same => absent (same ▸ member)
              rw [succFinal (threaded.node_aligned member), if_neg different,
                if_neg absentOther]
            · intro other member different
              have node : other ∈ start :: free := by
                have inside : other ∈ free ++ [start] := by simpa [shape] using member
                simpa [or_comm] using inside
              have absentOther : other ≠ p := fun same => absent (same ▸ node)
              rw [predFinal (threaded.node_aligned node), if_neg different,
                if_neg absentOther]
            · rw [succFinal startAligned, if_pos rfl]
            · rw [predFinal aligned, if_neg afterNotNode, if_pos rfl]
            · rw [succFinal aligned, if_neg notStart, if_pos rfl]
            · rw [predFinal afterAligned, if_pos rfl]
          have whole : p :: after :: rest = (p :: free) ++ [start] := by rw [← shape]; rfl
          rw [List.nil_append, whole] at chain
          exact chain
    have startNode : start ∈ start :: free := List.mem_cons_self
    have startOwned := owns_node threaded startNode
    have afterOwned := owns_node threaded afterNode
    have again : ((machine.setSucc p after).setPred p start).succ start = after := by
      rw [Machine.succ_setPred aligned startAligned,
        Machine.succ_setSucc afterWord aligned startAligned, if_neg notStart.symm, succStart]
    change machine.statics.heapListp = start at listp
    simp only [listAdd, ensures_bind, ensures_heapListp, ensures_succP, ensures_setSuccP,
      ensures_setPredP, Machine.setSucc_statics, Machine.setPred_statics, listp, succStart,
      again]
    exact ⟨startOwned.2, owned.2, owned.1, startOwned.2, afterOwned.1, startOwned.2,
      relinked.1, relinked.2, trivial⟩

end MallocLab.Mm
