import MallocLab.BoundaryTag.Links
import MallocLab.BoundaryTag.Threaded
import MallocLab.Refer.Source

/-! # The null-headed free list of `refer.c`

Null stands in front of the first node: its forward pointer is the static
variable, and the backward link of the first node leads to it.
-/

namespace MallocLab.Refer

open Program Blocks

variable {machine : State} {blocks : List Block} {free : List Nat}

/-- The payload of the prologue, where the list ends. -/
def sentinel (machine : State) : Nat := machine.origin + 4

/-- The forward pointers, with the head of the list behind null. -/
def forward (machine : State) (node : Nat) : Nat :=
  if node = null then machine.statics.freeListp else machine.succ node

/-- The list between null and the sentinel. -/
def lists : FreeIndex Statics (List Nat) where
  nodes machine free := sentinel machine :: free
  Holds machine free :=
    (sentinel machine :: free).Nodup ∧
      Linked machine.pred (forward machine) (null :: free ++ [sentinel machine])
  nodes_same := by
    intro machine other free same
    simp only [sentinel, Machine.origin, same]
  holds_same := by
    intro machine other free same sameStatics bytes holds
    rcases holds with ⟨nodup, linked⟩
    simp only [sentinel, Machine.origin, same] at *
    refine ⟨nodup, linked.congr (fun node member => ?_) fun node member => ?_⟩
    · rw [List.dropLast_concat] at member
      unfold forward
      rw [sameStatics]
      split
      · rfl
      · rcases List.mem_cons.mp member with isNull | inside
        · contradiction
        · exact (Machine.links_congr (bytes node (List.mem_cons_of_mem _ inside))).2
    · refine (Machine.links_congr (bytes node ?_)).1
      simp only [List.cons_append, List.tail_cons, List.mem_append, List.mem_singleton] at member
      rcases member with inside | rfl
      · exact List.mem_cons_of_mem _ inside
      · exact List.mem_cons_self

section Ensures

variable (bp value : Nat)

@[simp] theorem ensures_prevFree (goal : Nat → State → Prop) :
    Ensures (prevFree bp) machine goal ↔ machine.Owns bp 4 ∧ goal (machine.pred bp) machine :=
  ensures_get _ _

@[simp] theorem ensures_nextFree (goal : Nat → State → Prop) :
    Ensures (nextFree bp) machine goal ↔
      machine.Owns (bp + 4) 4 ∧ goal (machine.succ bp) machine :=
  ensures_get _ _

@[simp] theorem ensures_setPrevFree (goal : Unit → State → Prop) :
    Ensures (setPrevFree bp value) machine goal ↔
      machine.Owns bp 4 ∧ goal () (machine.setPred bp value) :=
  ensures_put _ _ _

@[simp] theorem ensures_setNextFree (goal : Unit → State → Prop) :
    Ensures (setNextFree bp value) machine goal ↔
      machine.Owns (bp + 4) 4 ∧ goal () (machine.setSucc bp value) :=
  ensures_put _ _ _

@[simp] theorem ensures_freeListp (goal : Nat → State → Prop) :
    Ensures freeListp machine goal ↔ goal machine.statics.freeListp machine := by
  simp [freeListp]

end Ensures

/-- Every node of the list owns two words of the heap and is not null. -/
theorem owns_node (threaded : Threaded lists machine blocks free) {node : Nat}
    (member : node ∈ sentinel machine :: free) :
    machine.Owns node 4 ∧ machine.Owns (node + 4) 4 ∧ node ≠ null := by
  have bounds := threaded.node_bounds member
  refine ⟨⟨by omega, by omega⟩, ⟨by omega, by omega⟩, ?_⟩
  unfold null
  omega

theorem null_not_mem (threaded : Threaded lists machine blocks free) :
    null ∉ sentinel machine :: free := fun member =>
  (owns_node threaded member).2.2 rfl

theorem forward_of_node (machine : State) {node : Nat} (nonzero : node ≠ null) :
    forward machine node = machine.succ node := if_neg nonzero

/-- The head of the list is its first node or the sentinel. -/
theorem head_eq (threaded : Threaded lists machine blocks free) :
    (free ++ [sentinel machine]).head? = some machine.statics.freeListp := by
  have linked := threaded.holds.2
  cases free with
  | nil => simp [← linked.1, forward]
  | cons first rest => simp [← linked.1, forward]

/-- Along the nodes the forward pointers are the links in memory. -/
theorem linked_nodes (threaded : Threaded lists machine blocks free) :
    Linked machine.pred machine.succ (free ++ [sentinel machine]) := by
  have linked := threaded.holds.2
  have tail : Linked machine.pred (forward machine) (free ++ [sentinel machine]) := by
    cases free with
    | nil => trivial
    | cons first rest => exact linked.2.2
  refine tail.congr (fun node member => ?_) fun _ _ => rfl
  rw [List.dropLast_concat] at member
  exact (forward_of_node machine
    (owns_node threaded (List.mem_cons_of_mem _ member)).2.2).symm

/-- What a rewrite of two links and the head needs to show to relink the list
around a node. -/
theorem relink_removed (threaded : Threaded lists machine blocks free) {other : State}
    {remaining : List Nat} (same : SameArena machine other) (touched : List Nat)
    (known : ∀ node ∈ touched, node ∈ sentinel machine :: free)
    (outside : ∀ address, (∀ node ∈ touched, address < node ∨ node + 8 ≤ address) →
      other.bytes address = machine.bytes address)
    (fewer : remaining.Sublist free)
    (linked : Linked other.pred (forward other) (null :: remaining ++ [sentinel machine])) :
    Threaded lists other blocks remaining ∧ Keeps blocks machine other := by
  apply threaded.relink same touched
  · exact fun node member => threaded.members node (known node member)
  · exact outside
  · intro node member
    right
    rcases List.mem_cons.mp member with rfl | inside
    · exact List.mem_cons_self
    · exact List.mem_cons_of_mem _ (fewer.subset inside)
  · have sentinelSame : sentinel other = sentinel machine := by
      simp only [sentinel, same.origin]
    refine ⟨?_, ?_⟩
    · rw [sentinelSame]
      exact threaded.holds.1.sublist (fewer.cons_cons _)
    · rw [sentinelSame]
      exact linked

/-- `remove_block` takes a member out of the list. -/
theorem removeBlock_threaded (threaded : Threaded lists machine blocks free) {p : Nat}
    (member : p ∈ free) :
    Ensures (removeBlock p) machine fun _ other =>
      Threaded lists other blocks (free.erase p) ∧ Keeps blocks machine other := by
  rcases List.append_of_mem member with ⟨front, back, rfl⟩
  rcases threaded.holds with ⟨nodup, linked⟩
  have notNull := null_not_mem threaded
  have head := head_eq threaded
  have notFront : p ∉ front := fun inside =>
    (List.nodup_append.mp (List.nodup_cons.mp nodup).2).2.2 p inside p (by simp) rfl
  have notBack : p ∉ back :=
    (List.nodup_cons.mp (List.nodup_append.mp (List.nodup_cons.mp nodup).2).2.1).1
  have erased : (front ++ p :: back).erase p = front ++ back := by
    rw [List.erase_append_right _ notFront, List.erase_cons_head]
  have fewer : (front ++ back).Sublist (front ++ p :: back) :=
    (List.sublist_cons_self p back).append_left front
  have forwardNodup : (null :: (front ++ p :: back)).Nodup :=
    List.nodup_cons.mpr ⟨fun inside => notNull (List.mem_cons_of_mem _ inside),
      (List.nodup_cons.mp nodup).2⟩
  have backwardNodup : (front ++ p :: back ++ [sentinel machine]).Nodup :=
    (List.perm_append_singleton _ _).symm.nodup nodup
  rcases linked.remove_member forwardNodup backwardNodup with
    ⟨before, after, beforeMember, afterMember, toNode, fromNode, toAfter, fromAfter, relinked⟩
  have afterNode : after ∈ sentinel machine :: (front ++ p :: back) := by
    simp only [List.mem_cons, List.mem_append, List.not_mem_nil, or_false] at afterMember ⊢
    tauto
  have nodeMember : p ∈ sentinel machine :: (front ++ p :: back) :=
    List.mem_cons_of_mem _ member
  have nodeAligned := threaded.node_aligned nodeMember
  have afterAligned := threaded.node_aligned afterNode
  have afterWord := threaded.node_lt afterNode
  have nodeOwned := owns_node threaded nodeMember
  have afterOwned := owns_node threaded afterNode
  rw [forward_of_node machine nodeOwned.2.2] at toAfter
  have notAfter : p ≠ after := by
    rintro rfl
    rcases List.mem_append.mp afterMember with inBack | isSentinel
    · exact notBack inBack
    · exact (List.nodup_cons.mp nodup).1 (List.mem_singleton.mp isSentinel ▸ member)
  have aligned : ∀ {other : Nat}, other ∈ front ++ p :: back ++ [sentinel machine] →
      other % 8 = 0 := fun {other} inside =>
    threaded.node_aligned ((List.perm_append_singleton _ _).mem_iff.mp inside)
  have nonzero : ∀ {other : Nat}, other ∈ front ++ p :: back → other ≠ null :=
    fun {other} inside => (owns_node threaded (List.mem_cons_of_mem _ inside)).2.2
  by_cases isHead : p = machine.statics.freeListp
  · -- the predecessor is null, so only the head and one link change
    have atFront : front = [] := by
      rcases front with _ | ⟨first, front⟩
      · rfl
      · simp only [List.cons_append, List.head?_cons, Option.some.injEq] at head
        exact absurd (by rw [isHead, ← head]; exact List.mem_cons_self) notFront
    have isNull : before = null := by simpa [atFront] using beforeMember
    subst isNull
    let final : State := (machine.setPred after null).setStatics ⟨after⟩
    have same : SameArena machine final := ⟨rfl, rfl, rfl⟩
    have again : (machine.setPred after null).succ p = after := by
      rw [Machine.succ_setPred afterAligned nodeAligned, toAfter]
    have predFinal : ∀ {other : Nat}, other % 8 = 0 → final.pred other =
        if other = after then null else machine.pred other := fun {other} otherAligned =>
      Machine.pred_setPred (by decide) afterAligned otherAligned
    have chain : Linked final.pred (forward final) (null :: (front ++ back) ++
        [sentinel machine]) := by
      apply relinked
      · intro other inside different
        have inFree : other ∈ front ++ p :: back :=
          (List.mem_cons.mp inside).resolve_left different
        rw [forward_of_node _ (nonzero inFree), forward_of_node _ (nonzero inFree)]
        exact Machine.succ_setPred afterAligned (aligned (List.mem_append_left _ inFree))
      · intro other inside different
        rw [predFinal (aligned inside), if_neg different]
      · exact if_pos rfl
      · rw [predFinal afterAligned, if_pos rfl]
    have result := relink_removed threaded same [after] (by simpa using afterNode)
      (fun address outside => Machine.setPred_bytes (outside after (by simp))) fewer chain
    simp only [removeBlock, ensures_bind, ensures_freeListp, ← isHead, if_true,
      ensures_nextFree, ensures_setPrevFree, ensures_setStatics, toAfter, again, erased]
    exact ⟨nodeOwned.2.1, afterOwned.1, nodeOwned.2.1, result⟩
  · have beforeNonzero : before ≠ null := by
      rintro rfl
      rw [forward, if_pos rfl] at toNode
      exact isHead toNode.symm
    have beforeFront : before ∈ front := (List.mem_cons.mp beforeMember).resolve_left beforeNonzero
    have beforeNode : before ∈ sentinel machine :: (front ++ p :: back) := by simp [beforeFront]
    have beforeAligned := threaded.node_aligned beforeNode
    have beforeWord := threaded.node_lt beforeNode
    have beforeOwned := owns_node threaded beforeNode
    let final : State := (machine.setPred after before).setSucc before after
    have same : SameArena machine final := ⟨rfl, rfl, rfl⟩
    have again : (machine.setPred after before).pred p = before ∧
        (machine.setPred after before).succ p = after := by
      constructor
      · rw [Machine.pred_setPred beforeWord afterAligned nodeAligned, if_neg notAfter, fromNode]
      · rw [Machine.succ_setPred afterAligned nodeAligned, toAfter]
    have succFinal : ∀ {other : Nat}, other % 8 = 0 → final.succ other =
        if other = before then after else machine.succ other := by
      intro other otherAligned
      rw [Machine.succ_setSucc afterWord beforeAligned otherAligned,
        Machine.succ_setPred afterAligned otherAligned]
    have predFinal : ∀ {other : Nat}, other % 8 = 0 → final.pred other =
        if other = after then before else machine.pred other := by
      intro other otherAligned
      rw [Machine.pred_setSucc beforeAligned otherAligned,
        Machine.pred_setPred beforeWord afterAligned otherAligned]
    have chain : Linked final.pred (forward final) (null :: (front ++ back) ++
        [sentinel machine]) := by
      apply relinked
      · intro other inside different
        rcases List.mem_cons.mp inside with rfl | inFree
        · rfl
        · rw [forward_of_node _ (nonzero inFree), forward_of_node _ (nonzero inFree),
            succFinal (aligned (List.mem_append_left _ inFree)), if_neg different]
      · intro other inside different
        rw [predFinal (aligned inside), if_neg different]
      · rw [forward_of_node _ beforeNonzero, succFinal beforeAligned, if_pos rfl]
      · rw [predFinal afterAligned, if_pos rfl]
    have result := relink_removed threaded same [before, after]
      (by
        intro node touched
        simp only [List.mem_cons, List.not_mem_nil, or_false] at touched
        rcases touched with rfl | rfl
        · exact beforeNode
        · exact afterNode)
      (fun address outside => by
        rw [Machine.setSucc_bytes (outside before (by simp)),
          Machine.setPred_bytes (outside after (by simp))]) fewer chain
    simp only [removeBlock, ensures_bind, ensures_freeListp, if_neg isHead, ensures_nextFree,
      ensures_prevFree, ensures_setPrevFree, ensures_setNextFree, toAfter, fromNode, again,
      erased]
    exact ⟨nodeOwned.2.1, nodeOwned.1, afterOwned.1, nodeOwned.1, nodeOwned.2.1,
      beforeOwned.2.1, result⟩

/-- `add_block` puts a free block in front of the list. -/
theorem addBlock_threaded (threaded : Threaded lists machine blocks free) {p : Nat}
    {block : Block} (spot : (p, block) ∈ spots machine.origin blocks)
    (large : 16 ≤ block.size) (idle : block.request? = none)
    (absent : p ∉ sentinel machine :: free) :
    Ensures (addBlock p) machine fun _ other =>
      Threaded lists other blocks (p :: free) ∧ Keeps blocks machine other := by
  rcases threaded.holds with ⟨nodup, linked⟩
  have notNull := null_not_mem threaded
  have head := head_eq threaded
  have nodes := linked_nodes threaded
  generalize first : machine.statics.freeListp = after at head
  rcases shape : free ++ [sentinel machine] with _ | ⟨_, rest⟩
  · simp at shape
  · rw [shape] at head nodes
    cases head
    have afterNode : after ∈ sentinel machine :: free := by
      have inside : after ∈ free ++ [sentinel machine] := by simp [shape]
      simpa [or_comm] using inside
    have afterAligned := threaded.node_aligned afterNode
    have aligned := spot_aligned threaded.tiled.origin_aligned spot
    have bounds := spot_bounds spot
    have extent := threaded.tiled.extent
    have inArena := threaded.tiled.brkInArena
    have addressable := threaded.tiled.addressable
    unfold Machine.origin at bounds
    have word : p < 2 ^ 32 := by omega
    have nonzero : p ≠ null := by
      unfold null
      omega
    have afterWord := threaded.node_lt afterNode
    have owned : machine.Owns p 4 ∧ machine.Owns (p + 4) 4 :=
      ⟨⟨by omega, by omega⟩, ⟨by omega, by omega⟩⟩
    have afterOwned := owns_node threaded afterNode
    have notAfter : p ≠ after := fun same => absent (same ▸ afterNode)
    let final : State :=
      (((machine.setSucc p after).setPred p null).setPred after p).setStatics ⟨p⟩
    have same : SameArena machine final := ⟨rfl, rfl, rfl⟩
    have succFinal : ∀ {other : Nat}, other % 8 = 0 → final.succ other =
        if other = p then after else machine.succ other := by
      intro other otherAligned
      refine (Machine.succ_setPred afterAligned otherAligned).trans ?_
      rw [Machine.succ_setPred aligned otherAligned,
        Machine.succ_setSucc afterWord aligned otherAligned]
    have predFinal : ∀ {other : Nat}, other % 8 = 0 → final.pred other =
        if other = after then p else if other = p then null else machine.pred other := by
      intro other otherAligned
      refine (Machine.pred_setPred word afterAligned otherAligned).trans ?_
      rw [Machine.pred_setPred (by decide) aligned otherAligned,
        Machine.pred_setSucc aligned otherAligned]
    have members : ∀ {other : Nat}, other ∈ after :: rest → other ∈ sentinel machine :: free := by
      intro other inside
      rw [← shape] at inside
      simpa [or_comm] using inside
    have chain : Linked final.pred (forward final) ([] ++ null :: p :: after :: rest) := by
      have backwardNodup : (after :: rest).Nodup := by
        rw [← shape]
        exact (List.perm_append_singleton _ _).symm.nodup nodup
      have restForward : Linked machine.pred (forward machine) (after :: rest) := by
        refine nodes.congr (fun node inside => ?_) fun _ _ => rfl
        exact forward_of_node machine
          (owns_node threaded (members (List.dropLast_subset _ inside))).2.2
      have frontShape : ([] ++ null :: after :: rest).dropLast = null :: free := by
        rw [List.nil_append, ← shape, ← List.cons_append, List.dropLast_concat]
      apply Linked.link (by simp) restForward
      · rw [frontShape]
        exact List.nodup_cons.mpr ⟨fun inside => notNull (List.mem_cons_of_mem _ inside),
          (List.nodup_cons.mp nodup).2⟩
      · simpa using backwardNodup
      · intro other inside different
        rw [frontShape] at inside
        have node := List.mem_cons_of_mem (sentinel machine)
          ((List.mem_cons.mp inside).resolve_left different)
        have absentOther : other ≠ p := fun equal => absent (equal ▸ node)
        have otherNonzero := (owns_node threaded node).2.2
        rw [forward_of_node _ otherNonzero, forward_of_node _ otherNonzero,
          succFinal (threaded.node_aligned node), if_neg absentOther]
      · intro other inside different
        have node := members (show other ∈ after :: rest from by simpa using inside)
        have absentOther : other ≠ p := fun equal => absent (equal ▸ node)
        rw [predFinal (threaded.node_aligned node), if_neg different, if_neg absentOther]
      · exact if_pos rfl
      · rw [predFinal aligned, if_neg notAfter, if_pos rfl]
      · rw [forward_of_node _ nonzero, succFinal aligned, if_pos rfl]
      · rw [predFinal afterAligned, if_pos rfl]
    have whole : null :: p :: after :: rest = null :: (p :: free) ++ [sentinel machine] := by
      rw [← shape]
      rfl
    rw [List.nil_append, whole] at chain
    have relinked : Threaded lists final blocks (p :: free) ∧ Keeps blocks machine final := by
      apply threaded.relink same [p, after]
      · intro node touched
        simp only [List.mem_cons, List.not_mem_nil, or_false] at touched
        rcases touched with rfl | rfl
        · exact ⟨block, spot, large, idle⟩
        · exact threaded.members _ afterNode
      · intro address outside
        have away := outside after (by simp)
        have awayNew := outside p (by simp)
        refine (Machine.setPred_bytes away).trans ?_
        rw [Machine.setPred_bytes awayNew, Machine.setSucc_bytes awayNew]
      · intro node inside
        simp only [lists, List.mem_cons, List.not_mem_nil, or_false] at inside ⊢
        tauto
      · exact ⟨(List.Perm.swap _ _ _).nodup (List.nodup_cons.mpr ⟨absent, nodup⟩), chain⟩
    simp only [addBlock, ensures_bind, ensures_freeListp, ensures_setNextFree,
      ensures_setPrevFree, ensures_setStatics, Machine.setSucc_statics, Machine.setPred_statics,
      first]
    exact ⟨owned.2, owned.1, afterOwned.1, relinked⟩

end MallocLab.Refer
