import MallocLab.Buddy.Invariant

/-! # What the live blocks determine

The nodes of the live blocks and the root leave no choice for the rest: the free
lists have the maximal nodes apart from them, and the bits follow. So the order
of the calls shows in the order of the lists only.
-/

namespace MallocLab.Buddy

open Program TreeNode

variable {machine after : State} {tree : Tree} {node : TreeNode} {used free otherFree : List TreeNode}
  {client other : Client Statics} {blocks : List (TreeNode × Nat)} {request ptr : Nat}
  {ptrs order : List Nat}

/-- The nodes of the live blocks. -/
def liveNodes (client : Client Statics) : List TreeNode :=
  client.live.map (nodeOf client.machine)

/-- Two machines with one root, the same free nodes and the same bits. -/
structure SameState (machine other : State) (free otherFree : List TreeNode) : Prop where
  limit : other.statics.bucketLimit = machine.statics.bucketLimit
  free : otherFree.Perm free
  bits : ∀ bit < 8 * splitBytes, splitBit other bit = splitBit machine bit

namespace TreeInvariant

section Unused

variable (invariant : TreeInvariant client free)

include invariant

/-- A node is UNUSED when it is part of the root and apart from the live blocks. -/
theorem unused_iff_apart : Unused free node ↔
    node.Within (root client.machine.statics.bucketLimit) ∧
      ∀ used ∈ liveNodes client, node.Apart used :=
  invariant.tiles.covered_iff_apart

/-- The largest UNUSED nodes are in the lists. -/
theorem mem_iff_maximal : node ∈ free ↔ Unused free node ∧ ¬Unused free node.parent := by
  have covered {node : TreeNode} : Unused free node ↔ ∃ other ∈ free, node.Within other :=
    covered_iff invariant.buddies
  constructor
  · intro member
    refine ⟨Covered.of_within member (Within.refl node), fun unused => ?_⟩
    rcases covered.mp unused with ⟨outer, isFree, within⟩
    have inside := (within_parent node).trans within
    have listed {node : TreeNode} (member : node ∈ free) :
        node ∈ free ++ client.live.map (nodeOf client.machine) := List.mem_append_left _ member
    obtain rfl := invariant.tiles.eq_of_mem (listed member) (listed isFree) node.mem_start
      (inside.mem node.mem_start)
    exact absurd within.exponent_le (by simp)
  · rintro ⟨unused, maximal⟩
    rcases covered.mp unused with ⟨outer, isFree, within⟩
    by_cases same : node = outer
    · rwa [same]
    · refine absurd (covered.mpr ⟨outer, isFree, ?_⟩) maximal
      have smaller : node.exponent < outer.exponent := by
        by_contra large
        exact same (within.eq (not_lt.mp large))
      exact within_of_mem ((within_parent node).mem node.mem_start) (within.mem node.mem_start)
        smaller

end Unused

/-- Which nodes are UNUSED decides every bit. -/
theorem bits_of_unused (invariant : TreeInvariant client free)
    (otherInvariant : TreeInvariant other otherFree)
    (limit : other.machine.statics.bucketLimit = client.machine.statics.bucketLimit)
    (same : ∀ node, Unused otherFree node ↔ Unused free node) {bit : Nat}
    (bounded : bit < 8 * splitBytes) : splitBit other.machine bit = splitBit client.machine bit := by
  by_cases ofNode : ∃ node : TreeNode, node.Within (root client.machine.statics.bucketLimit) ∧
      minAllocLog2 < node.exponent ∧ bit = indexOf node
  · rcases ofNode with ⟨node, within, large, rfl⟩
    rw [Bool.eq_iff_iff, invariant.split node within large,
      otherInvariant.split node (limit ▸ within) large, same, same]
  · have noNode : ∀ node : TreeNode, node.Within (root client.machine.statics.bucketLimit) →
        minAllocLog2 < node.exponent → bit ≠ indexOf node :=
      fun node within large isIndex => ofNode ⟨node, within, large, isIndex⟩
    by_cases above : client.machine.statics.bucketLimit ≠ 0 ∧
        bit = parentIndex (root client.machine.statics.bucketLimit)
    · obtain ⟨positive, rfl⟩ := above
      have otherBit := otherInvariant.above (limit ▸ positive)
      rw [limit] at otherBit
      rw [Bool.eq_iff_iff, invariant.above positive, otherBit, same]
    · have notAbove : client.machine.statics.bucketLimit ≠ 0 →
          bit ≠ parentIndex (root client.machine.statics.bucketLimit) :=
        fun positive isParent => above ⟨positive, isParent⟩
      rw [invariant.others bit bounded noNode notAbove,
        otherInvariant.others bit bounded (limit ▸ noNode) (limit ▸ notAbove)]

/-- Two states with one root and the same live nodes are the same but for the
order of the lists. -/
theorem sameState (invariant : TreeInvariant client free)
    (otherInvariant : TreeInvariant other otherFree)
    (limit : other.machine.statics.bucketLimit = client.machine.statics.bucketLimit)
    (live : (liveNodes other).Perm (liveNodes client)) :
    SameState client.machine other.machine free otherFree where
  limit := limit
  free := by
    have tiles := otherInvariant.tiles.perm (live.append_left otherFree)
    rw [limit] at tiles
    exact tiles.merged_perm invariant.tiles otherInvariant.buddies invariant.buddies
  bits bit bounded := by
    refine bits_of_unused invariant otherInvariant limit (fun node => ?_) bounded
    rw [invariant.unused_iff_apart, otherInvariant.unused_iff_apart, limit]
    simp only [live.mem_iff]

end TreeInvariant

/-- In every state of a run a node is UNUSED when it is part of the root and apart
from the live blocks, and the lists have the largest of these nodes. Two states,
of one run or of two, with one root and the same live nodes have the same members
in every list and the same bits. -/
theorem live_blocks_determine :
    (∀ {client}, Reachable client → ∃ free, TreeInvariant client free ∧
      (∀ node, Unused free node ↔ node.Within (root client.machine.statics.bucketLimit) ∧
        ∀ used ∈ liveNodes client, node.Apart used) ∧
      ∀ node, node ∈ free ↔ Unused free node ∧ ¬Unused free node.parent) ∧
    ∀ {client other}, Reachable client → Reachable other →
      other.machine.statics.bucketLimit = client.machine.statics.bucketLimit →
      (liveNodes other).Perm (liveNodes client) → ∃ free otherFree,
        TreeInvariant client free ∧ TreeInvariant other otherFree ∧
          SameState client.machine other.machine free otherFree := by
  constructor
  · intro client reachable
    rcases reachable.serves with ⟨tree, blocks, serves⟩
    have invariant := serves.treeInvariant
    exact ⟨tree.free, invariant, fun _ => invariant.unused_iff_apart,
      fun _ => invariant.mem_iff_maximal⟩
  · intro client other reachable otherReachable limit live
    rcases reachable.serves with ⟨tree, blocks, serves⟩
    rcases otherReachable.serves with ⟨otherTree, otherBlocks, otherServes⟩
    exact ⟨_, _, serves.treeInvariant, otherServes.treeInvariant,
      serves.treeInvariant.sameState otherServes.treeInvariant limit live⟩

/-- After `mm_malloc(8)` and `mm_malloc(8)` both halves of the root are in use. -/
theorem reachable_twoBlocks : ∃ client, Reachable client ∧
    client.live = [(4120, 8), (4104, 8)] ∧
    Serves client ⟨26, []⟩ [(⟨4, 1⟩, 8), (⟨4, 0⟩, 8)] := by
  rcases reachable_firstBlock with ⟨client, reachable, live, serves, start, _⟩
  have found : Tree.malloc maxHeap 8 ⟨27, []⟩ = (some ⟨4, 1⟩, ⟨26, []⟩) := by decide
  rcases serves.malloc (show 8 + headerSize ≤ maxAlloc by decide) (reachable.spans _) with
    ⟨ptr, after, returned, allocated, _, served⟩
  rw [found] at allocated served
  have isPtr : ptr = 4120 := by
    rw [(allocated.found _ rfl).1, addressOf, start]
    rfl
  subst isPtr
  refine ⟨_, reachable.malloc (by decide) returned, ?_, served⟩
  rw [live]
  rfl

theorem live_blocks_determine_two_blocks : ∃ (client : Client Statics) (free otherFree : _),
    client.live = [(4120, 8), (4104, 8)] ∧ TreeInvariant client free ∧
      SameState client.machine client.machine free otherFree := by
  rcases reachable_twoBlocks with ⟨client, reachable, live, _⟩
  rcases live_blocks_determine.2 reachable reachable rfl (.refl _) with
    ⟨free, otherFree, invariant, _, same⟩
  exact ⟨client, free, otherFree, live, invariant, same⟩

/-! ## Any order of frees -/

/-- `mm_free` on one pointer after the other. -/
def freeAll : List Nat → Program State Unit
  | [] => return ()
  | ptr :: rest => do
      mmFree ptr
      freeAll rest

/-- What is live once some blocks were given back. -/
def liveWithout (client : Client Statics) (ptrs : List Nat) : List (Nat × Nat) :=
  client.live.filter fun spot => spot.1 ∉ ptrs

/-- `mm_free` of a live pointer, whose node need not be known. -/
theorem Serves.free_live (serves : Serves client tree blocks)
    (live : ptr ∈ client.live.map Prod.fst) : ∃ block ∈ blocks,
    Ensures (mmFree ptr) client.machine fun _ after =>
      after.memStartBrk = client.machine.memStartBrk ∧
        Serves ⟨after, client.live.filter fun spot => spot.1 ≠ ptr⟩ (tree.release block.1)
          (blocks.erase block) := by
  rcases serves.block_of_live live with ⟨block, member, rfl⟩
  exact ⟨block, member, (serves.free member).mono fun _ _ ⟨kept, _, served⟩ => ⟨kept.start, served⟩⟩

theorem Serves.freeAll (serves : Serves client tree blocks) (nodup : ptrs.Nodup)
    (live : ∀ ptr ∈ ptrs, ptr ∈ client.live.map Prod.fst) :
    Ensures (freeAll ptrs) client.machine fun _ after =>
      after.statics.basePtr = client.machine.statics.basePtr ∧
        after.statics.bucketLimit = client.machine.statics.bucketLimit ∧
        ∃ final rest, Serves ⟨after, liveWithout client ptrs⟩ final rest := by
  induction ptrs generalizing client tree blocks with
  | nil =>
      have all : liveWithout client [] = client.live := by simp [liveWithout]
      rw [Buddy.freeAll, ensures_pure, all]
      exact ⟨rfl, rfl, tree, blocks, serves⟩
  | cons ptr rest induction =>
      have parts := List.nodup_cons.mp nodup
      rcases serves.free_live (live ptr List.mem_cons_self) with
        ⟨block, _, _, middle, outcome, start, served⟩
      have stillLive : ∀ other ∈ rest, other ∈
          (client.live.filter fun spot => spot.1 ≠ ptr).map Prod.fst := by
        intro other inRest
        rcases List.mem_map.mp (live other (List.mem_cons_of_mem _ inRest)) with ⟨spot, isSpot, rfl⟩
        refine List.mem_map_of_mem (List.mem_filter.mpr ⟨isSpot, decide_eq_true fun same => ?_⟩)
        exact parts.1 (same ▸ inRest)
      have remaining : liveWithout ⟨middle, client.live.filter fun spot => spot.1 ≠ ptr⟩ rest =
          liveWithout client (ptr :: rest) := by
        rw [liveWithout, liveWithout, List.filter_filter]
        exact List.filter_congr fun spot _ => by simp [Bool.and_comm]
      have base : middle.statics.basePtr = client.machine.statics.basePtr := by
        rw [served.represents.tracks.lists.storage.base, start,
          serves.represents.tracks.lists.storage.base]
      have limit : middle.statics.bucketLimit = client.machine.statics.bucketLimit := by
        rw [served.represents.tracks.limit, Tree.release_limit, serves.represents.tracks.limit]
      rw [Buddy.freeAll, ensures_bind_of_eq outcome]
      apply (induction served parts.2 stillLive).mono
      rintro _ after ⟨afterBase, afterLimit, final, rest, last⟩
      exact ⟨afterBase.trans base, afterLimit.trans limit, final, rest, remaining ▸ last⟩

/-- Two orders of freeing the same live blocks leave the same root, the same
members of every list and the same bits. -/
theorem releases_commute (reachable : Reachable client) (nodup : ptrs.Nodup)
    (live : ∀ ptr ∈ ptrs, ptr ∈ client.live.map Prod.fst) (same : order.Perm ptrs) :
    ∃ after otherAfter free otherFree, freeAll ptrs client.machine = some ((), after) ∧
      freeAll order client.machine = some ((), otherAfter) ∧
      TreeInvariant ⟨after, liveWithout client ptrs⟩ free ∧
      TreeInvariant ⟨otherAfter, liveWithout client ptrs⟩ otherFree ∧
      SameState after otherAfter free otherFree := by
  rcases reachable.serves with ⟨tree, blocks, serves⟩
  have orderLive : ∀ ptr ∈ order, ptr ∈ client.live.map Prod.fst :=
    fun ptr member => live ptr (same.mem_iff.mp member)
  have remaining : liveWithout client order = liveWithout client ptrs :=
    List.filter_congr fun spot _ => by simp [same.mem_iff]
  rcases serves.freeAll nodup live with ⟨_, after, outcome, base, limit, final, rest, served⟩
  rcases serves.freeAll (same.nodup_iff.mpr nodup) orderLive with
    ⟨_, otherAfter, otherOutcome, otherBase, otherLimit, otherFinal, otherRest, otherServed⟩
  rw [remaining] at otherServed
  refine ⟨after, otherAfter, _, _, outcome, otherOutcome, served.treeInvariant,
    otherServed.treeInvariant, served.treeInvariant.sameState otherServed.treeInvariant
      (otherLimit.trans limit.symm) ?_⟩
  have nodes : nodeOf otherAfter = nodeOf after := by
    funext spot
    rw [nodeOf, nodeOf, otherBase, base]
  rw [liveNodes, liveNodes, nodes]

theorem releases_commute_two_blocks : ∃ (client : Client Statics) (after otherAfter : State)
    (free otherFree : _), client.live = [(4120, 8), (4104, 8)] ∧
      freeAll [4104, 4120] client.machine = some ((), after) ∧
      freeAll [4120, 4104] client.machine = some ((), otherAfter) ∧
      SameState after otherAfter free otherFree := by
  rcases reachable_twoBlocks with ⟨client, reachable, live, _⟩
  have order : List.Perm [4120, 4104] [4104, 4120] := .swap _ _ _
  rcases releases_commute reachable (by decide : [4104, 4120].Nodup) (by simp [live]) order with
    ⟨after, otherAfter, free, otherFree, outcome, otherOutcome, _, _, same⟩
  exact ⟨client, after, otherAfter, free, otherFree, live, outcome, otherOutcome, same⟩

/-! ## A request that is given back -/

namespace Tree

theorem lower_limit_le (room bucket rounds : Nat) (tree : Tree) :
    (lower room bucket rounds tree).2.limit ≤ tree.limit := by
  induction rounds generalizing tree with
  | zero => exact Nat.le_refl _
  | succ rounds induction =>
      rw [lower]
      split
      · split
        · exact (induction _).trans (Nat.sub_le _ _)
        · split
          · exact (induction _).trans (Nat.sub_le _ _)
          · exact Nat.le_refl _
      · exact Nat.le_refl _

theorem use_limit (room original : Nat) (node : TreeNode) (tree : Tree) :
    (use room original node tree).2.limit = tree.limit := by
  rw [use]
  split <;> rfl

theorem search_limit_le (room original rounds : Nat) (tree : Tree) :
    (search room original rounds tree).2.limit ≤ tree.limit := by
  induction rounds generalizing tree with
  | zero => exact Nat.le_refl _
  | succ bucket induction =>
      have first := lower_limit_le room bucket (tree.limit + 1) tree
      rw [search]
      split
      · rename_i lowered lower
        rw [lowerTo] at lower
        rwa [lower] at first
      · rename_i lowered lower
        rw [lowerTo] at lower
        rw [lower] at first
        split
        · rwa [use_limit]
        · split
          · exact (induction _).trans first
          · have second := lower_limit_le room (bucket - 1) (lowered.limit + 1) lowered
            split
            · rename_i again lower
              rw [lowerTo] at lower
              rw [lower] at second
              exact second.trans first
            · rename_i again lower
              rw [lowerTo] at lower
              rw [lower] at second
              split
              · rw [use_limit]
                exact second.trans first
              · exact second.trans first

end Tree

/-- A larger root has the nodes of a smaller one. -/
theorem root_within {limit larger : Nat} (lower : larger ≤ limit) :
    (root limit).Within (root larger) := by
  refine ⟨by simp, ?_⟩
  simp only [TreeNode.limit, root_start, TreeNode.size, root_exponent, Nat.zero_add]
  exact Nat.pow_le_pow_right (by decide) (Nat.sub_le_sub_left lower _)

/-- A state whose root may have grown while no live block was added. -/
structure GrownState (machine after : State) (free final : List TreeNode) : Prop where
  limit_le : after.statics.bucketLimit ≤ machine.statics.bucketLimit
  same : after.statics.bucketLimit = machine.statics.bucketLimit →
    SameState machine after free final
  inside : ∀ node : TreeNode, node.Within (root machine.statics.bucketLimit) →
    (Unused final node ↔ Unused free node)
  beyond : ∀ node : TreeNode, node.Within (root after.statics.bucketLimit) →
    node.Apart (root machine.statics.bucketLimit) → Unused final node

theorem TreeInvariant.grownState (invariant : TreeInvariant client free)
    (otherInvariant : TreeInvariant other otherFree)
    (lower : other.machine.statics.bucketLimit ≤ client.machine.statics.bucketLimit)
    (live : (liveNodes other).Perm (liveNodes client)) :
    GrownState client.machine other.machine free otherFree where
  limit_le := lower
  same limit := invariant.sameState otherInvariant limit live
  inside node within := by
    rw [invariant.unused_iff_apart, otherInvariant.unused_iff_apart,
      and_iff_right within, and_iff_right (within.trans (root_within lower))]
    simp only [live.mem_iff]
  beyond node within apart := by
    refine otherInvariant.unused_iff_apart.mpr ⟨within, fun used isLive => ?_⟩
    have inside := invariant.tiles.within (List.mem_append_right free (live.mem_iff.mp isLive))
    exact (inside.apart apart.symm).symm

/-- A pointer that was just returned is that of no live block. -/
theorem Serves.fresh (serves : Serves ⟨machine, (ptr, request) :: client.live⟩ tree blocks) :
    ptr ∉ client.live.map Prod.fst := by
  have live := serves.live
  have pointers : ((blocks.map (spot machine)).map Prod.fst).Nodup := by
    rw [List.map_map]
    exact serves.blocks_nodup.map_on fun block member other otherMember same =>
      serves.holds.spot_injective member otherMember same
  rw [← live, List.map_cons, List.nodup_cons] at pointers
  exact pointers.1

/-- A block that is given back at once leaves the state that was there before, and
so does a request that is refused, but for the root, which may have grown by
free nodes. -/
theorem release_undoes_malloc (reachable : Reachable client)
    (small : request ≤ maxAlloc - headerSize) : ∃ free, TreeInvariant client free ∧
    Ensures (mmMalloc request) client.machine fun ptr middle => ∃ after final,
      (if ptr = null then after = middle else mmFree ptr middle = some ((), after)) ∧
        TreeInvariant ⟨after, client.live⟩ final ∧ GrownState client.machine after free final := by
  rcases reachable.serves with ⟨tree, blocks, serves⟩
  refine ⟨_, serves.treeInvariant, ?_⟩
  have fits : request + headerSize ≤ maxAlloc := by
    have header : headerSize ≤ maxAlloc := by decide
    omega
  have base : client.machine.statics.basePtr = client.machine.memStartBrk :=
    serves.represents.tracks.lists.storage.base
  have limit : (Tree.malloc maxHeap request tree).2.limit ≤ client.machine.statics.bucketLimit := by
    rw [serves.represents.tracks.limit]
    exact Tree.search_limit_le _ _ _ _
  -- States that serve the same blocks from one address compare.
  have compare : ∀ {after : State} {final : Tree} {rest : List (TreeNode × Nat)},
      Serves ⟨after, client.live⟩ final rest → after.memStartBrk = client.machine.memStartBrk →
      final.limit ≤ client.machine.statics.bucketLimit →
      TreeInvariant ⟨after, client.live⟩ final.free ∧
        GrownState client.machine after tree.free final.free := by
    intro after final rest served start lower
    have invariant := served.treeInvariant
    refine ⟨invariant, serves.treeInvariant.grownState invariant ?_ ?_⟩
    · change after.statics.bucketLimit ≤ _
      rwa [show after.statics.bucketLimit = final.limit from served.represents.tracks.limit]
    · have nodes : nodeOf after = nodeOf client.machine := by
        funext spot
        rw [nodeOf, nodeOf, show after.statics.basePtr = after.memStartBrk from
          served.represents.tracks.lists.storage.base, start, base]
      rw [liveNodes, liveNodes]
      exact .of_eq (congrArg (List.map · client.live) nodes)
  apply (serves.malloc fits (reachable.spans _)).mono
  rintro ptr middle ⟨allocated, _, served⟩
  by_cases refused : ptr = null
  · rw [if_pos refused] at served
    simp only [if_pos refused]
    exact ⟨middle, _, rfl, compare served allocated.kept.start limit⟩
  · rw [if_neg refused] at served
    simp only [if_neg refused]
    have isLive : ptr ∈ ((ptr, request) :: client.live).map Prod.fst := List.mem_cons_self
    rcases served.free_live isLive with ⟨block, _, _, after, outcome, start, freed⟩
    have remaining : (((ptr, request) :: client.live).filter fun spot => spot.1 ≠ ptr) =
        client.live := by
      have fresh := served.fresh
      simp only [ne_eq, decide_not, List.filter_cons, decide_true, Bool.not_true,
        Bool.false_eq_true, if_false]
      refine List.filter_eq_self.mpr fun spot isSpot => ?_
      rw [Bool.not_eq_true', decide_eq_false_iff_not]
      exact fun same => fresh (same ▸ List.mem_map_of_mem isSpot)
    rw [remaining] at freed
    refine ⟨after, _, outcome, compare freed (start.trans allocated.kept.start) ?_⟩
    rw [Tree.release_limit]
    exact limit

theorem release_undoes_malloc_two_blocks : ∃ (client : Client Statics) (free : _),
    client.live = [(4120, 8), (4104, 8)] ∧
      Ensures (mmMalloc 100) client.machine fun ptr middle => ∃ after final,
        (if ptr = null then after = middle else mmFree ptr middle = some ((), after)) ∧
          TreeInvariant ⟨after, client.live⟩ final ∧
          GrownState client.machine after free final := by
  rcases reachable_twoBlocks with ⟨client, reachable, live, _⟩
  rcases release_undoes_malloc reachable (by decide : 100 ≤ maxAlloc - headerSize) with
    ⟨free, _, restored⟩
  exact ⟨client, free, live, restored⟩

end MallocLab.Buddy
