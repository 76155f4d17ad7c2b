import MallocLab.BoundaryTag.Coalesce
import MallocLab.BoundaryTag.Links
import MallocLab.Segregated.Policy

/-! # The group lists of `segregated_list-85.c`

Each group is a list with null at both ends whose head is a static variable.
-/

namespace MallocLab.Segregated

open Program Blocks

variable {machine other : State} {blocks : List Block} {groups : Groups}
  {groupIdx bp size before after : Nat}

theorem group_sublist (groups : Groups) (inside : groupIdx < groupSize) :
    (groups groupIdx).Sublist (entries groups) := by
  rw [entries, List.flatMap_def]
  exact List.sublist_flatten_of_mem
    (List.mem_map_of_mem (List.mem_range.mpr inside))

/-- Every group is a list of its blocks. -/
def lists : FreeIndex Statics Groups where
  nodes _ groups := (entries groups).map Prod.fst
  Holds machine groups :=
    (null :: (entries groups).map Prod.fst).Nodup ∧
      ∀ groupIdx < groupSize, NullTerminated null machine.pred machine.succ
        (machine.statics.groupFreeListp groupIdx) ((groups groupIdx).map Prod.fst)
  nodes_same _ := rfl
  holds_same := by
    intro machine other groups _ sameStatics bytes holds
    refine ⟨holds.1, fun groupIdx inside => ?_⟩
    have member : ∀ {node}, node ∈ (groups groupIdx).map Prod.fst →
        node ∈ (entries groups).map Prod.fst := fun listed =>
      ((group_sublist groups inside).map _).subset listed
    rw [sameStatics]
    apply (holds.2 groupIdx inside).congr
    · exact fun listed => (List.nodup_cons.mp holds.1).1 (member listed)
    · exact fun node listed => (Machine.links_congr (bytes node (member listed))).2
    · exact fun node listed => (Machine.links_congr (bytes node (member listed))).1

section Ensures

variable (bp value : Nat)

@[simp] theorem ensures_prevFree (goal : Nat → State → Prop) :
    Ensures (prevFree bp) machine goal ↔ machine.Owns bp 4 ∧ goal (machine.pred bp) machine :=
  ensures_get _ _

@[simp] theorem ensures_nextFree (goal : Nat → State → Prop) :
    Ensures (nextFree bp) machine goal ↔
      machine.Owns (bp + 4) 4 ∧ goal (machine.succ bp) machine :=
  ensures_get _ _

@[simp] theorem ensures_setPrevFree (goal : Unit → State → Prop) :
    Ensures (setPrevFree bp value) machine goal ↔
      machine.Owns bp 4 ∧ goal () (machine.setPred bp value) :=
  ensures_put _ _ _

@[simp] theorem ensures_setNextFree (goal : Unit → State → Prop) :
    Ensures (setNextFree bp value) machine goal ↔
      machine.Owns (bp + 4) 4 ∧ goal () (machine.setSucc bp value) :=
  ensures_put _ _ _

@[simp] theorem ensures_groupFreeListp (goal : Nat → State → Prop) :
    Ensures (groupFreeListp groupIdx) machine goal ↔
      goal (machine.statics.groupFreeListp groupIdx) machine := by
  simp [groupFreeListp]

/-- The machine with one head replaced. -/
def setHead (machine : State) (groupIdx value : Nat) : State :=
  machine.setStatics ⟨Function.update machine.statics.groupFreeListp groupIdx value⟩

@[simp] theorem ensures_setGroupFreeListp (goal : Unit → State → Prop) :
    Ensures (setGroupFreeListp groupIdx value) machine goal ↔
      goal () (setHead machine groupIdx value) := by
  simp [setGroupFreeListp, setHead]

end Ensures

section Nodes

variable (threaded : Threaded lists machine blocks groups)

include threaded

theorem owns_node {node : Nat} (member : node ∈ (entries groups).map Prod.fst) :
    machine.Owns node 4 ∧ machine.Owns (node + 4) 4 := by
  have bounds := threaded.node_bounds member
  exact ⟨⟨by omega, by omega⟩, ⟨by omega, by omega⟩⟩

/-- A node or null is an aligned word. -/
theorem pointer_facts {node : Nat}
    (member : node = null ∨ node ∈ (entries groups).map Prod.fst) :
    node % 8 = 0 ∧ node < 2 ^ 32 := by
  rcases member with rfl | listed
  · decide
  · exact ⟨threaded.node_aligned listed, threaded.node_lt listed⟩

/-- A change of one group that concerns neither the links nor the heads of the
others. -/
theorem regroup {changed : List (Nat × Nat)} (same : SameArena machine other)
    (touched : List Nat)
    (known : ∀ node ∈ touched, node ≠ null → ∃ block,
      (node, block) ∈ spots machine.origin blocks ∧ 16 ≤ block.size ∧ block.request? = none)
    (outside : ∀ address,
      (∀ node ∈ touched, node ≠ null → address < node ∨ node + 8 ≤ address) →
      other.bytes address = machine.bytes address)
    (heads : ∀ otherIdx, otherIdx ≠ groupIdx →
      other.statics.groupFreeListp otherIdx = machine.statics.groupFreeListp otherIdx)
    (apart : ∀ otherIdx < groupSize, otherIdx ≠ groupIdx → ∀ entry ∈ groups otherIdx,
      entry.1 ∉ touched)
    (members : ∀ entry ∈ changed, entry.1 ∈ touched ∨ entry ∈ groups groupIdx)
    (nodup : (null :: (entries (Function.update groups groupIdx changed)).map Prod.fst).Nodup)
    (terminated : NullTerminated null other.pred other.succ
      (other.statics.groupFreeListp groupIdx) (changed.map Prod.fst)) :
    Threaded lists other blocks (Function.update groups groupIdx changed) ∧
      Keeps blocks machine other := by
  have notNull := (List.nodup_cons.mp nodup).1
  apply threaded.relink same (touched.filter fun node => node ≠ null)
  · intro node member
    have parts := List.mem_filter.mp member
    exact known node parts.1 (by simpa using parts.2)
  · intro address away
    exact outside address fun node member nonzero =>
      away node (List.mem_filter.mpr ⟨member, by simpa using nonzero⟩)
  · intro node member
    have nonzero : node ≠ null := fun isNull => notNull (isNull ▸ member)
    rcases List.mem_map.mp member with ⟨entry, listed, rfl⟩
    rcases mem_entries.mp listed with ⟨otherIdx, inside, inGroup⟩
    by_cases here : otherIdx = groupIdx
    · subst here
      rw [Function.update_self] at inGroup
      rcases members entry inGroup with new | old
      · exact .inl (List.mem_filter.mpr ⟨new, by simpa using nonzero⟩)
      · exact .inr (List.mem_map_of_mem (mem_entries.mpr ⟨_, inside, old⟩))
    · rw [Function.update_of_ne here] at inGroup
      exact .inr (List.mem_map_of_mem (mem_entries.mpr ⟨_, inside, inGroup⟩))
  · refine ⟨nodup, fun otherIdx inside => ?_⟩
    by_cases here : otherIdx = groupIdx
    · subst here
      rwa [Function.update_self]
    · rw [Function.update_of_ne here, heads otherIdx here]
      have listed : ∀ {node}, node ∈ (groups otherIdx).map Prod.fst →
          node ∈ (entries groups).map Prod.fst := fun member =>
        ((group_sublist groups inside).map _).subset member
      have kept : ∀ node ∈ (groups otherIdx).map Prod.fst, ∀ address, node ≤ address →
          address < node + 8 → other.bytes address = machine.bytes address := by
        intro node member address low high
        have aligned := threaded.node_aligned (listed member)
        refine outside address fun changedNode inTouched nonzero => ?_
        rcases known changedNode inTouched nonzero with ⟨_, spot, _⟩
        have changedAligned := spot_aligned threaded.tiled.origin_aligned spot
        have different : node ≠ changedNode := by
          rintro rfl
          rcases List.mem_map.mp member with ⟨entry, inGroup, rfl⟩
          exact apart otherIdx inside here entry inGroup inTouched
        omega
      apply (threaded.holds.2 otherIdx inside).congr
      · exact fun member => (List.nodup_cons.mp threaded.holds.1).1 (listed member)
      · exact fun node member => (Machine.links_congr (kept node member)).2
      · exact fun node member => (Machine.links_congr (kept node member)).1

/-- Nodes of different groups are different. -/
theorem group_apart {otherIdx : Nat} (inside : groupIdx < groupSize)
    (otherInside : otherIdx < groupSize) (different : otherIdx ≠ groupIdx)
    {entry : Nat × Nat} (listed : entry ∈ groups otherIdx) :
    entry.1 ∉ (groups groupIdx).map Prod.fst := by
  have nodup := (List.nodup_cons.mp threaded.holds.1).2
  rw [entries, List.map_flatMap, List.nodup_flatMap] at nodup
  have separated := List.pairwise_iff_getElem.mp nodup.2
  intro member
  have disjoint : ∀ {low high : Nat}, low < high → high < groupSize →
      List.Disjoint ((groups low).map Prod.fst) ((groups high).map Prod.fst) := by
    intro low high order bounded
    have pair := separated low high (by simp; omega) (by simpa using bounded) order
    simpa using pair
  rcases Nat.lt_or_gt_of_ne different with below | above
  · exact disjoint below inside (List.mem_map_of_mem listed) member
  · exact disjoint above otherInside member (List.mem_map_of_mem listed)

end Nodes

/-! ## Removing -/

/-- What `remove_block` does to links and heads: the neighbours of a node point
at each other, and nothing is written at null. -/
structure Bridged (machine other : State) (groupIdx before after : Nat) : Prop where
  arena : SameArena machine other
  succ : ∀ {node : Nat}, node % 8 = 0 → node ≠ null →
    other.succ node = if node = before then after else machine.succ node
  pred : ∀ {node : Nat}, node % 8 = 0 → node ≠ null →
    other.pred node = if node = after then before else machine.pred node
  head : other.statics.groupFreeListp =
    if before = null then Function.update machine.statics.groupFreeListp groupIdx after
    else machine.statics.groupFreeListp
  outside : ∀ address,
    (∀ node ∈ [before, after], node ≠ null → address < node ∨ node + 8 ≤ address) →
    other.bytes address = machine.bytes address

section Bridged

variable (beforeAligned : before % 8 = 0) (beforeWord : before < 2 ^ 32)
  (afterAligned : after % 8 = 0) (afterWord : after < 2 ^ 32)

/-- The only member leaves its group. -/
theorem bridged_only (machine : State) (groupIdx : Nat) :
    Bridged machine (setHead machine groupIdx null) groupIdx null null where
  arena := ⟨rfl, rfl, rfl⟩
  succ _ nonzero := (if_neg nonzero).symm
  pred _ nonzero := (if_neg nonzero).symm
  head := rfl
  outside _ _ := rfl

include beforeAligned in
/-- The last of several members leaves its group. -/
theorem bridged_last (machine : State) (groupIdx : Nat) (nonzero : before ≠ null) :
    Bridged machine (machine.setSucc before null) groupIdx before null where
  arena := ⟨rfl, rfl, rfl⟩
  succ aligned _ := Machine.succ_setSucc (by decide) beforeAligned aligned
  pred aligned isNode := by
    rw [Machine.pred_setSucc beforeAligned aligned, if_neg isNode]
  head := (if_neg nonzero).symm
  outside _ away := Machine.setSucc_bytes (away before (by simp) nonzero)

include afterAligned in
/-- The first of several members leaves its group. -/
theorem bridged_first (machine : State) (groupIdx : Nat) (nonzero : after ≠ null) :
    Bridged machine (setHead (machine.setPred after null) groupIdx after) groupIdx null
      after where
  arena := ⟨rfl, rfl, rfl⟩
  succ aligned isNode := by
    rw [if_neg isNode]
    exact Machine.succ_setPred afterAligned aligned
  pred aligned _ := Machine.pred_setPred (by decide) afterAligned aligned
  head := rfl
  outside _ away := Machine.setPred_bytes (away after (by simp) nonzero)

include beforeAligned beforeWord afterAligned afterWord in
/-- A member between two others leaves its group. -/
theorem bridged_middle (machine : State) (groupIdx : Nat) (nonzero : before ≠ null)
    (afterNonzero : after ≠ null) :
    Bridged machine ((machine.setPred after before).setSucc before after) groupIdx before
      after where
  arena := ⟨rfl, rfl, rfl⟩
  succ aligned _ := by
    rw [Machine.succ_setSucc afterWord beforeAligned aligned,
      Machine.succ_setPred afterAligned aligned]
  pred aligned _ := by
    rw [Machine.pred_setSucc beforeAligned aligned,
      Machine.pred_setPred beforeWord afterAligned aligned]
  head := (if_neg nonzero).symm
  outside _ away := by
    rw [Machine.setSucc_bytes (away before (by simp) nonzero),
      Machine.setPred_bytes (away after (by simp) afterNonzero)]

end Bridged

section Remove

variable (indexed : Indexed segregated lists machine blocks groups)
  (listed : (bp, size) ∈ entries groups)

include indexed listed

/-- The links of a listed node are null or lead to other members of its group. -/
theorem links_of_listed :
    (machine.pred bp = null ∨ machine.pred bp ∈ (groups (groupIndex size)).map Prod.fst) ∧
      (machine.succ bp = null ∨ machine.succ bp ∈ (groups (groupIndex size)).map Prod.fst) ∧
      bp ≠ machine.succ bp := by
  have threaded := indexed.threaded
  have nodup := threaded.holds.1
  have inside := groupIndex_lt size
  have member := mem_group indexed.ordered listed
  rcases List.append_of_mem (List.mem_map_of_mem (f := Prod.fst) member) with ⟨front, back, shape⟩
  have terminated := threaded.holds.2 _ inside
  have sublist := (group_sublist groups inside).map Prod.fst
  rw [shape] at terminated sublist ⊢
  have groupNodup := (List.nodup_cons.mp nodup).2.sublist sublist
  rcases terminated.remove (fun isNull => (List.nodup_cons.mp nodup).1 (sublist.subset isNull))
    groupNodup with ⟨fromNode, toAfter, _⟩
  have behind : bp ∉ back :=
    (List.nodup_cons.mp (List.nodup_append.mp groupNodup).2.1).1
  have nonzero : bp ≠ null := by
    rintro rfl
    exact (List.nodup_cons.mp nodup).1 (List.mem_map_of_mem (f := Prod.fst) listed)
  have apart : bp ≠ machine.succ bp := by
    intro same
    rw [← same] at toAfter
    simp only [List.mem_append, List.mem_singleton] at toAfter
    exact toAfter.elim behind nonzero
  simp only [List.mem_cons, List.mem_append, List.not_mem_nil, or_false] at fromNode toAfter ⊢
  refine ⟨?_, ?_, apart⟩ <;> tauto

theorem Bridged.threaded
    (bridged : Bridged machine other (groupIndex size) (machine.pred bp) (machine.succ bp)) :
    Threaded lists other blocks (segregated.remove groups (bp, size)) ∧
      Keeps blocks machine other := by
  have threaded := indexed.threaded
  have nodup := threaded.holds.1
  have inside := groupIndex_lt size
  have member := mem_group indexed.ordered listed
  have sublist := (group_sublist groups inside).map Prod.fst
  have links := links_of_listed indexed listed
  have groupNodup := (List.nodup_cons.mp nodup).2.sublist sublist
  have notNull : null ∉ (groups (groupIndex size)).map Prod.fst := fun isNull =>
    (List.nodup_cons.mp nodup).1 (sublist.subset isNull)
  have inGroup : ∀ node ∈ [machine.pred bp, machine.succ bp], node ≠ null →
      node ∈ (groups (groupIndex size)).map Prod.fst := by
    intro node touched nonzero
    simp only [List.mem_cons, List.not_mem_nil, or_false] at touched
    rcases touched with rfl | rfl
    · exact links.1.resolve_left nonzero
    · exact links.2.1.resolve_left nonzero
  have facts : ∀ {node}, node ∈ (groups (groupIndex size)).map Prod.fst →
      node % 8 = 0 ∧ node ≠ null := fun {node} here =>
    ⟨threaded.node_aligned (sublist.subset here), fun isNull => notNull (isNull ▸ here)⟩
  apply regroup threaded bridged.arena [machine.pred bp, machine.succ bp]
  · exact fun node touched nonzero =>
      threaded.members node (sublist.subset (inGroup node touched nonzero))
  · exact bridged.outside
  · intro otherIdx different
    rw [bridged.head]
    split
    · rw [Function.update_of_ne different]
    · rfl
  · intro otherIdx otherInside different entry here touched
    have nonzero : entry.1 ≠ null := fun isNull => (List.nodup_cons.mp nodup).1
      (isNull ▸ List.mem_map_of_mem (mem_entries.mpr ⟨otherIdx, otherInside, here⟩))
    exact group_apart threaded inside otherInside different here (inGroup _ touched nonzero)
  · exact fun entry remains => .inr (List.mem_of_mem_erase remains)
  · have fewer := (segregated_lawful.entries_remove indexed.ordered listed).map Prod.fst
    refine (fewer.cons null).symm.nodup (nodup.sublist ?_)
    exact ((List.erase_sublist).map Prod.fst).cons_cons null
  · rcases List.append_of_mem (List.mem_map_of_mem (f := Prod.fst) member) with
      ⟨front, back, shape⟩
    have shrunk : ((groups (groupIndex size)).erase (bp, size)).map Prod.fst = front ++ back := by
      rw [map_erase groupNodup member, shape, List.erase_append_right, List.erase_cons_head]
      intro inFront
      rw [shape] at groupNodup
      exact (List.nodup_append.mp groupNodup).2.2 bp inFront bp (by simp) rfl
    rw [shrunk]
    have terminated := threaded.holds.2 _ inside
    rw [shape] at terminated notNull groupNodup facts
    apply (terminated.remove notNull groupNodup).2.2
    · intro node here different
      rw [bridged.succ (facts here).1 (facts here).2, if_neg different]
    · intro node here different
      rw [bridged.pred (facts here).1 (facts here).2, if_neg different]
    · intro isNull
      rw [bridged.head, if_pos isNull, Function.update_self]
    · intro nonzero
      have here := links.1.resolve_left nonzero
      rw [shape] at here
      rw [bridged.head, if_neg nonzero, bridged.succ (facts here).1 nonzero, if_pos rfl]
      exact ⟨rfl, rfl⟩
    · intro nonzero
      have here := links.2.1.resolve_left nonzero
      rw [shape] at here
      rw [bridged.pred (facts here).1 nonzero, if_pos rfl]

/-- `remove_block` takes a listed block out of the group of its size. -/
theorem removeBlock_threaded :
    Ensures (removeBlock bp) machine fun _ other =>
      Threaded lists other blocks (segregated.remove groups (bp, size)) ∧
        Keeps blocks machine other := by
  have threaded := indexed.threaded
  have nodes : ∀ {node}, node ∈ (groups (groupIndex size)).map Prod.fst →
      node ∈ (entries groups).map Prod.fst := fun here =>
    ((group_sublist groups (groupIndex_lt size)).map Prod.fst).subset here
  have links := links_of_listed indexed listed
  have finished : ∀ other, Bridged machine other (groupIndex size) (machine.pred bp)
        (machine.succ bp) → Threaded lists other blocks (segregated.remove groups (bp, size)) ∧
          Keeps blocks machine other := fun _ bridged => bridged.threaded indexed listed
  have owned := owns_node threaded (List.mem_map_of_mem listed)
  have aligned := threaded.node_aligned (List.mem_map_of_mem listed)
  have before := pointer_facts threaded (links.1.imp_right nodes)
  have after := pointer_facts threaded (links.2.1.imp_right nodes)
  rcases mem_freeSpots.mp (indexed.sized _ listed) with ⟨block, spot, _, rfl⟩
  have here := threaded.tiled.blockAt spot
  simp only [removeBlock, ensures_bind, ensures_getSize, hdrp_eq, here.header, here.size,
    ensures_nextFree]
  refine ⟨here.ownsHeader, owned.2, ?_⟩
  by_cases last : machine.succ bp = null
  · rw [if_pos last, ensures_bind, ensures_prevFree]
    refine ⟨owned.1, ?_⟩
    by_cases first : machine.pred bp = null
    · rw [if_pos first, ensures_setGroupFreeListp]
      apply finished
      rw [first, last]
      exact bridged_only _ _
    · have beforeOwned := owns_node threaded (nodes (links.1.resolve_left first))
      rw [if_neg first]
      simp only [ensures_bind, ensures_prevFree, ensures_setNextFree]
      refine ⟨owned.1, beforeOwned.2, finished _ ?_⟩
      rw [last]
      exact bridged_last before.1 _ _ first
  · have afterOwned := owns_node threaded (nodes (links.2.1.resolve_left last))
    rw [if_neg last, ensures_bind, ensures_prevFree]
    refine ⟨owned.1, ?_⟩
    by_cases first : machine.pred bp = null
    · rw [if_pos first]
      simp only [ensures_bind, ensures_nextFree, ensures_setPrevFree,
        ensures_setGroupFreeListp, Machine.succ_setPred after.1 aligned]
      refine ⟨owned.2, afterOwned.1, owned.2, finished _ ?_⟩
      rw [first]
      exact bridged_first after.1 _ _ last
    · have beforeOwned := owns_node threaded (nodes (links.1.resolve_left first))
      rw [if_neg first]
      simp only [ensures_bind, ensures_nextFree, ensures_prevFree, ensures_setPrevFree,
        ensures_setNextFree, Machine.succ_setPred after.1 aligned,
        Machine.pred_setPred before.2 after.1 aligned, if_neg links.2.2]
      exact ⟨owned.2, owned.1, afterOwned.1, owned.1, owned.2, beforeOwned.2,
        finished _ (bridged_middle before.1 before.2 after.1 after.2 _ _ first last)⟩

end Remove

end MallocLab.Segregated
