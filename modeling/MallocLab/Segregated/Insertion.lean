import MallocLab.Segregated.FreeLists

/-! # Adding to a group

`add_block` looks for the place of a block among the members of its group and
links it in between.
-/

namespace MallocLab.Segregated

open Program Blocks

variable {machine other : State} {blocks : List Block} {groups : Groups}
  {groupIdx bp size before after : Nat}

/-- The members a new block of some size goes behind. -/
def smaller (size : Nat) (entry : Nat × Nat) : Bool := !decide (size ≤ entry.2)

/-- The scan of a group stops at the first member that is not smaller. -/
theorem ensures_scan (tiled : Tiled machine blocks) (size : Nat) {rest : List (Nat × Nat)}
    (sized : ∀ entry ∈ rest, entry ∈ freeSpots machine.origin blocks) {pred : Nat → Nat}
    (linked : Linked pred machine.succ (rest.map Prod.fst ++ [null])) {prev curr fuel : Nat}
    (head : (rest.map Prod.fst ++ [null]).head? = some curr) (enough : rest.length < fuel) :
    Ensures (scan size fuel prev curr) machine fun value other => other = machine ∧
      value = (((rest.takeWhile (smaller size)).map Prod.fst).getLastD prev,
        ((rest.dropWhile (smaller size)).map Prod.fst).headD null) := by
  induction rest generalizing prev curr fuel with
  | nil =>
      obtain ⟨fuel, rfl⟩ := Nat.exists_eq_succ_of_ne_zero (Nat.ne_of_gt enough)
      cases head
      rw [scan, if_pos rfl, ensures_pure]
      exact ⟨rfl, rfl⟩
  | cons entry rest induction =>
      obtain ⟨fuel, rfl⟩ := Nat.exists_eq_succ_of_ne_zero (Nat.ne_of_gt (by omega : 0 < fuel))
      rcases entry with ⟨address, available⟩
      simp only [List.map_cons, List.cons_append, List.head?_cons, Option.some.injEq] at head
      subst head
      rcases mem_freeSpots.mp (sized _ List.mem_cons_self) with ⟨block, spot, isFree, rfl⟩
      have here := tiled.blockAt spot
      have bounds := spot_bounds spot
      have nonzero : address ≠ null := by
        unfold null
        omega
      rw [scan, if_neg nonzero]
      simp only [ensures_bind, ensures_getSize, hdrp_eq, here.header, here.size]
      refine ⟨here.ownsHeader, ?_⟩
      by_cases isSmaller : size > block.size
      · have passed : smaller size (address, block.size) = true := by simp [smaller]; omega
        rw [if_pos isSmaller, ensures_bind, ensures_nextFree, List.takeWhile_cons_of_pos passed,
          List.dropWhile_cons_of_pos passed]
        have roomy := Block.size_ge_of_isFree isFree
        refine ⟨tiled.owns (by omega) (by omega), ?_⟩
        rcases shape : rest.map Prod.fst ++ [null] with _ | ⟨next, others⟩
        · simp at shape
        · simp only [List.map_cons, List.cons_append, shape] at linked
          rw [List.map_cons, List.getLastD_cons]
          exact induction (fun entry member => sized entry (List.mem_cons_of_mem _ member))
            (by rw [shape]; exact linked.2.2) (by rw [shape, List.head?_cons, ← linked.1])
            (by simp only [List.length_cons] at enough; omega)
      · have stopped : ¬smaller size (address, block.size) = true := by simp [smaller]; omega
        rw [if_neg isSmaller, ensures_pure, List.takeWhile_cons_of_neg stopped,
          List.dropWhile_cons_of_neg stopped]
        exact ⟨rfl, rfl⟩

/-- What `add_block` does to links and heads: a node stands between two others,
and nothing is written at null. -/
structure Inserted (machine other : State) (groupIdx bp before after : Nat) : Prop where
  arena : SameArena machine other
  succ : ∀ {node : Nat}, node % 8 = 0 → node ≠ null → other.succ node =
    if node = bp then after else if node = before then bp else machine.succ node
  pred : ∀ {node : Nat}, node % 8 = 0 → node ≠ null → other.pred node =
    if node = bp then before else if node = after then bp else machine.pred node
  head : other.statics.groupFreeListp =
    if before = null then Function.update machine.statics.groupFreeListp groupIdx bp
    else machine.statics.groupFreeListp
  outside : ∀ address,
    (∀ node ∈ [bp, before, after], node ≠ null → address < node ∨ node + 8 ≤ address) →
    other.bytes address = machine.bytes address

section Inserted

variable (aligned : bp % 8 = 0) (word : bp < 2 ^ 32) (positive : bp ≠ null)
  (beforeAligned : before % 8 = 0) (beforeWord : before < 2 ^ 32) (notBefore : bp ≠ before)
  (afterAligned : after % 8 = 0) (afterWord : after < 2 ^ 32) (notAfter : bp ≠ after)

include aligned positive

/-- Case 1: the group was empty. -/
theorem inserted_only (machine : State) (groupIdx : Nat) :
    Inserted machine (setHead ((machine.setSucc bp null).setPred bp null) groupIdx bp) groupIdx
      bp null null where
  arena := ⟨rfl, rfl, rfl⟩
  succ nodeAligned isNode := by
    rw [if_neg isNode]
    refine (Machine.succ_setPred aligned nodeAligned).trans ?_
    exact Machine.succ_setSucc (by decide) aligned nodeAligned
  pred nodeAligned isNode := by
    rw [if_neg isNode]
    refine (Machine.pred_setPred (by decide) aligned nodeAligned).trans ?_
    rw [Machine.pred_setSucc aligned nodeAligned]
  head := rfl
  outside _ away := by
    refine (Machine.setPred_bytes (away bp (by simp) positive)).trans ?_
    exact Machine.setSucc_bytes (away bp (by simp) positive)

include word beforeAligned beforeWord in
/-- Case 2: the block goes behind all others. -/
theorem inserted_last (machine : State) (groupIdx : Nat) (nonzero : before ≠ null) :
    Inserted machine (((machine.setSucc before bp).setPred bp before).setSucc bp null) groupIdx
      bp before null where
  arena := ⟨rfl, rfl, rfl⟩
  succ nodeAligned _ := by
    rw [Machine.succ_setSucc (by decide) aligned nodeAligned,
      Machine.succ_setPred aligned nodeAligned,
      Machine.succ_setSucc word beforeAligned nodeAligned]
  pred nodeAligned isNode := by
    rw [Machine.pred_setSucc aligned nodeAligned,
      Machine.pred_setPred beforeWord aligned nodeAligned,
      Machine.pred_setSucc beforeAligned nodeAligned, if_neg isNode]
  head := (if_neg nonzero).symm
  outside _ away := by
    rw [Machine.setSucc_bytes (away bp (by simp) positive),
      Machine.setPred_bytes (away bp (by simp) positive),
      Machine.setSucc_bytes (away before (by simp) nonzero)]

include word afterAligned afterWord notAfter in
/-- Case 3: the block goes in front of all others. -/
theorem inserted_first (machine : State) (groupIdx : Nat) (nonzero : after ≠ null) :
    Inserted machine (setHead (((machine.setSucc bp after).setPred bp null).setPred after bp)
      groupIdx bp) groupIdx bp null after where
  arena := ⟨rfl, rfl, rfl⟩
  succ nodeAligned isNode := by
    rw [if_neg isNode]
    refine (Machine.succ_setPred afterAligned nodeAligned).trans ?_
    rw [Machine.succ_setPred aligned nodeAligned,
      Machine.succ_setSucc afterWord aligned nodeAligned]
  pred {node} nodeAligned _ := by
    refine (Machine.pred_setPred word afterAligned nodeAligned).trans ?_
    rw [Machine.pred_setPred (by decide) aligned nodeAligned,
      Machine.pred_setSucc aligned nodeAligned]
    by_cases isNew : node = bp
    · rw [if_pos isNew, if_neg (isNew ▸ notAfter), if_pos isNew]
    · rw [if_neg isNew, if_neg isNew]
  head := rfl
  outside _ away := by
    refine (Machine.setPred_bytes (away after (by simp) nonzero)).trans ?_
    rw [Machine.setPred_bytes (away bp (by simp) positive),
      Machine.setSucc_bytes (away bp (by simp) positive)]

include word beforeAligned beforeWord notBefore afterAligned afterWord notAfter in
/-- Case 4: the block goes between two others. -/
theorem inserted_middle (machine : State) (groupIdx : Nat) (nonzero : before ≠ null)
    (afterNonzero : after ≠ null) :
    Inserted machine
      ((((machine.setSucc bp after).setPred bp before).setSucc before bp).setPred after bp)
      groupIdx bp before after where
  arena := ⟨rfl, rfl, rfl⟩
  succ {node} nodeAligned _ := by
    rw [Machine.succ_setPred afterAligned nodeAligned,
      Machine.succ_setSucc word beforeAligned nodeAligned,
      Machine.succ_setPred aligned nodeAligned,
      Machine.succ_setSucc afterWord aligned nodeAligned]
    by_cases isNew : node = bp
    · rw [if_pos isNew, if_neg (isNew ▸ notBefore), if_pos isNew]
    · rw [if_neg isNew, if_neg isNew]
  pred {node} nodeAligned _ := by
    rw [Machine.pred_setPred word afterAligned nodeAligned,
      Machine.pred_setSucc beforeAligned nodeAligned,
      Machine.pred_setPred beforeWord aligned nodeAligned,
      Machine.pred_setSucc aligned nodeAligned]
    by_cases isNew : node = bp
    · rw [if_pos isNew, if_neg (isNew ▸ notAfter), if_pos isNew]
    · rw [if_neg isNew, if_neg isNew]
  head := (if_neg nonzero).symm
  outside _ away := by
    rw [Machine.setPred_bytes (away after (by simp) afterNonzero),
      Machine.setSucc_bytes (away before (by simp) nonzero),
      Machine.setPred_bytes (away bp (by simp) positive),
      Machine.setSucc_bytes (away bp (by simp) positive)]

end Inserted

/-! ### The place of a new block -/

/-- The addresses of the members a block goes behind. -/
def front (groups : Groups) (size : Nat) : List Nat :=
  ((groups (groupIndex size)).takeWhile (smaller size)).map Prod.fst

/-- The addresses of the members a block goes in front of. -/
def back (groups : Groups) (size : Nat) : List Nat :=
  ((groups (groupIndex size)).dropWhile (smaller size)).map Prod.fst

theorem front_append_back (groups : Groups) (size : Nat) :
    front groups size ++ back groups size = (groups (groupIndex size)).map Prod.fst := by
  rw [front, back, ← List.map_append, List.takeWhile_append_dropWhile]

theorem map_add (groups : Groups) (bp size : Nat) :
    (segregated.add groups (bp, size) (groupIndex size)).map Prod.fst =
      front groups size ++ bp :: back groups size := by
  simp only [segregated, Function.update_self, List.orderedInsert_eq_take_drop, List.map_append,
    List.map_cons, front, back]
  simp only [NotLarger, decide_not]
  rfl

theorem getLast?_null_cons (nodes : List Nat) :
    (null :: nodes).getLast? = some (nodes.getLastD null) := by
  rw [List.getLast?_cons, List.getLastD_eq_getLast?]

theorem head?_append_null (nodes : List Nat) :
    (nodes ++ [null]).head? = some (nodes.headD null) := by
  cases nodes <;> simp

theorem getLastD_mem (nodes : List Nat) :
    nodes.getLastD null = null ∨ nodes.getLastD null ∈ nodes := by
  rcases List.eq_nil_or_concat nodes with rfl | ⟨start, last, rfl⟩
  · exact .inl rfl
  · exact .inr (by simp)

theorem headD_mem (nodes : List Nat) :
    nodes.headD null = null ∨ nodes.headD null ∈ nodes := by
  cases nodes with
  | nil => exact .inl rfl
  | cons first rest => exact .inr (by simp)

section Add

variable (indexed : Indexed segregated lists machine blocks groups) {block : Block}
  (spot : (bp, block) ∈ spots machine.origin blocks) (isFree : block.isFree = true)
  (absent : bp ∉ (entries groups).map Prod.fst)

include indexed spot isFree absent

theorem Inserted.threaded
    (inserted : Inserted machine other (groupIndex block.size) bp
      ((front groups block.size).getLastD null) ((back groups block.size).headD null)) :
    Threaded lists other blocks (segregated.add groups (bp, block.size)) ∧
      Keeps blocks machine other := by
  have threaded := indexed.threaded
  have nodup := threaded.holds.1
  have inside := groupIndex_lt block.size
  have sublist := (group_sublist groups inside).map Prod.fst
  have aligned := spot_aligned threaded.tiled.origin_aligned spot
  have bounds := spot_bounds spot
  have positive : bp ≠ null := by
    unfold null
    omega
  have ends : ∀ node ∈ [(front groups block.size).getLastD null,
      (back groups block.size).headD null], node ≠ null →
      node ∈ (groups (groupIndex block.size)).map Prod.fst := by
    intro node touched nonzero
    rw [← front_append_back]
    simp only [List.mem_cons, List.not_mem_nil, or_false] at touched
    rcases touched with rfl | rfl
    · exact List.mem_append_left _ ((getLastD_mem _).resolve_left nonzero)
    · exact List.mem_append_right _ ((headD_mem _).resolve_left nonzero)
  have notNull : null ∉ front groups block.size ++ back groups block.size := fun isNull =>
    (List.nodup_cons.mp nodup).1 (sublist.subset (front_append_back groups _ ▸ isNull))
  have facts : ∀ {node}, node ∈ front groups block.size ++ back groups block.size →
      node % 8 = 0 ∧ node ≠ null ∧ node ≠ bp := by
    intro node here
    have listed := sublist.subset (front_append_back groups _ ▸ here)
    exact ⟨threaded.node_aligned listed, fun isNull => notNull (isNull ▸ here),
      fun isNew => absent (isNew ▸ listed)⟩
  apply regroup threaded inserted.arena
    [bp, (front groups block.size).getLastD null, (back groups block.size).headD null]
  · intro node touched nonzero
    rcases List.mem_cons.mp touched with rfl | atEnd
    · exact ⟨block, spot, Block.size_ge_of_isFree isFree, Block.request?_of_isFree isFree⟩
    · exact threaded.members node (sublist.subset (ends node atEnd nonzero))
  · exact inserted.outside
  · intro otherIdx different
    rw [inserted.head]
    split
    · rw [Function.update_of_ne different]
    · rfl
  · intro otherIdx otherInside different entry here touched
    have listed : entry.1 ∈ (entries groups).map Prod.fst :=
      List.mem_map_of_mem (mem_entries.mpr ⟨otherIdx, otherInside, here⟩)
    have nonzero : entry.1 ≠ null := fun isNull => (List.nodup_cons.mp nodup).1 (isNull ▸ listed)
    rcases List.mem_cons.mp touched with isNew | atEnd
    · exact absent (isNew ▸ listed)
    · exact group_apart threaded inside otherInside different here (ends _ atEnd nonzero)
  · intro entry member
    rcases (List.mem_orderedInsert NotLarger).mp member with rfl | old
    · exact .inl List.mem_cons_self
    · exact .inr old
  · have more := (segregated_lawful.entries_add (bp, block.size) indexed.ordered).map Prod.fst
    refine (more.cons null).symm.nodup ((List.Perm.swap null bp _).nodup ?_)
    refine List.nodup_cons.mpr ⟨?_, nodup⟩
    simp only [List.mem_cons, not_or]
    exact ⟨positive, absent⟩
  · have whole := map_add groups bp block.size
    simp only [segregated, Function.update_self] at whole
    rw [whole]
    have terminated := threaded.holds.2 _ inside
    have groupNodup := (List.nodup_cons.mp nodup).2.sublist sublist
    rw [← front_append_back] at terminated groupNodup
    apply terminated.insert notNull groupNodup positive (getLast?_null_cons _)
      (head?_append_null _)
    · intro node here different
      have node := facts here
      rw [inserted.succ node.1 node.2.1, if_neg node.2.2, if_neg different]
    · intro node here different
      have node := facts here
      rw [inserted.pred node.1 node.2.1, if_neg node.2.2, if_neg different]
    · intro isNull
      rw [inserted.head, if_pos isNull, Function.update_self]
    · intro nonzero
      have node := facts (List.mem_append_left _ ((getLastD_mem _).resolve_left nonzero))
      rw [inserted.head, if_neg nonzero, inserted.succ node.1 nonzero, if_neg node.2.2,
        if_pos rfl]
      exact ⟨rfl, rfl⟩
    · intro nonzero
      have node := facts (List.mem_append_right _ ((headD_mem _).resolve_left nonzero))
      rw [inserted.pred node.1 nonzero, if_neg node.2.2, if_pos rfl]
    · rw [inserted.pred aligned positive, if_pos rfl]
    · rw [inserted.succ aligned positive, if_pos rfl]

/-- `add_block` puts a free block into the group of its size. -/
theorem addBlock_threaded :
    Ensures (addBlock bp block.size) machine fun _ other =>
      Threaded lists other blocks (segregated.add groups (bp, block.size)) ∧
        Keeps blocks machine other := by
  have threaded := indexed.threaded
  have tiled := threaded.tiled
  have nodup := threaded.holds.1
  have inside := groupIndex_lt block.size
  have sublist := (group_sublist groups inside).map Prod.fst
  have finished : ∀ other, Inserted machine other (groupIndex block.size) bp
        ((front groups block.size).getLastD null) ((back groups block.size).headD null) →
      Threaded lists other blocks (segregated.add groups (bp, block.size)) ∧
        Keeps blocks machine other := fun _ inserted =>
    inserted.threaded indexed spot isFree absent
  have aligned := spot_aligned tiled.origin_aligned spot
  have bounds := spot_bounds spot
  have extent := tiled.extent
  have brkInArena := tiled.brkInArena
  have addressable := tiled.addressable
  have large := Block.size_ge_of_isFree isFree
  have positive : bp ≠ null := by
    unfold null
    omega
  have owned : machine.Owns bp 4 ∧ machine.Owns (bp + 4) 4 := by
    unfold Machine.origin at bounds
    exact ⟨⟨by omega, by omega⟩, ⟨by omega, by omega⟩⟩
  have word : bp < 2 ^ 32 := by
    unfold Machine.origin at bounds
    omega
  -- the scan ends at the place of the block
  have terminated := threaded.holds.2 _ inside
  rcases terminated.forward fun isNull => (List.nodup_cons.mp nodup).1 (sublist.subset isNull)
    with ⟨tail, linked⟩
  have short : (groups (groupIndex block.size)).length < machine.heapLength + 1 := by
    have distinct := List.Nodup.of_map _ ((List.nodup_cons.mp nodup).2.sublist sublist)
    have subperm := List.subperm_of_subset distinct fun entry member =>
      indexed.sized entry ((group_sublist groups inside).subset member)
    have length := subperm.length_le
    have bounded := freeSpots_length machine.origin blocks
    unfold Machine.heapLength
    omega
  have scanned : Ensures (scan block.size (machine.heapLength + 1) null _) machine _ :=
    ensures_scan tiled block.size
      (fun entry member => indexed.sized entry ((group_sublist groups inside).subset member))
      linked terminated.head_eq short
  have ends : ∀ {node : Nat}, node = null ∨ node ∈ (groups (groupIndex block.size)).map Prod.fst →
      (node % 8 = 0 ∧ node < 2 ^ 32) ∧ bp ≠ node ∧
        (node ≠ null → machine.Owns node 4 ∧ machine.Owns (node + 4) 4) := by
    intro node known
    refine ⟨pointer_facts threaded (known.imp_right fun member => sublist.subset member), ?_,
      fun nonzero => owns_node threaded (sublist.subset (known.resolve_left nonzero))⟩
    rintro rfl
    exact absent (sublist.subset (known.resolve_left positive))
  have before := ends ((getLastD_mem (front groups block.size)).imp_right fun member =>
    front_append_back groups _ ▸ List.mem_append_left _ member)
  have after := ends ((headD_mem (back groups block.size)).imp_right fun member =>
    front_append_back groups _ ▸ List.mem_append_right _ member)
  simp only [addBlock, ensures_bind, ensures_view, ensures_groupFreeListp]
  refine scanned.mono fun _ middle => ?_
  rintro ⟨rfl, rfl⟩
  change Ensures (if (back groups block.size).headD null = null then _ else _) middle _
  by_cases last : (back groups block.size).headD null = null
  · rw [if_pos last]
    change Ensures (if (front groups block.size).getLastD null = null then _ else _) middle _
    by_cases first : (front groups block.size).getLastD null = null
    · rw [if_pos first]
      simp only [ensures_bind, ensures_setNextFree, ensures_setPrevFree,
        ensures_setGroupFreeListp]
      refine ⟨owned.2, owned.1, finished _ ?_⟩
      rw [first, last]
      exact inserted_only aligned positive _ _
    · rw [if_neg first]
      simp only [ensures_bind, ensures_setNextFree, ensures_setPrevFree]
      refine ⟨(before.2.2 first).2, owned.1, owned.2, finished _ ?_⟩
      rw [last]
      exact inserted_last aligned word positive before.1.1 before.1.2 _ _ first
  · rw [if_neg last]
    change Ensures (if (front groups block.size).getLastD null = null then _ else _) middle _
    by_cases first : (front groups block.size).getLastD null = null
    · rw [if_pos first]
      simp only [ensures_bind, ensures_setNextFree, ensures_setPrevFree,
        ensures_setGroupFreeListp]
      refine ⟨owned.2, owned.1, (after.2.2 last).1, finished _ ?_⟩
      rw [first]
      exact inserted_first aligned word positive after.1.1 after.1.2 after.2.1 _ _ last
    · rw [if_neg first]
      simp only [ensures_bind, ensures_setNextFree, ensures_setPrevFree]
      exact ⟨owned.2, owned.1, (before.2.2 first).2, (after.2.2 last).1, finished _
        (inserted_middle aligned word positive before.1.1 before.1.2 before.2.1 after.1.1
          after.1.2 after.2.1 _ _ first last)⟩

end Add

end MallocLab.Segregated
