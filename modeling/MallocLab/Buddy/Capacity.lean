import MallocLab.Buddy.Heap

/-! # How much the buddy allocator can serve

The root is only enlarged when every block of the largest size has something in
use. So the arena is not exhausted as long as there are few blocks of bounded
size.
-/

namespace MallocLab.Buddy

open Program TreeNode

variable {machine after : State} {tree final : Tree} {node : TreeNode} {used : List TreeNode}
  {client : Client Statics} {blocks : List (TreeNode × Nat)}
  {bucket original request ptr rounds most exponent reach : Nat}

namespace Tree

/-- The used nodes are so few and so small that a root of some size is enough
even if one more is added. -/
structure Sparse (tree : Tree) (used : List TreeNode) (exponent reach : Nat) : Prop where
  valid : tree.Valid used
  small : ∀ node ∈ used, node.exponent ≤ exponent
  few : used.length * 2 ^ (exponent + 1) ≤ 2 ^ reach
  exponent_le : exponent ≤ reach
  reach_le : reach ≤ 24
  root_le : 31 ≤ tree.limit + reach

theorem lower_reached (enough : tree.limit < rounds)
    (fits : ∀ limit, bucket < limit → limit ≤ tree.limit →
      (root limit).sibling.start + listSize < maxHeap) :
    (lower maxHeap bucket rounds tree).1 = true := by
  induction rounds generalizing tree with
  | zero => omega
  | succ rounds induction =>
      rw [lower]
      by_cases above : bucket < tree.limit
      · rw [if_pos above]
        have next : ∀ limit, bucket < limit → limit ≤ tree.limit - 1 →
            (root limit).sibling.start + listSize < maxHeap :=
          fun limit low high => fits limit low (high.trans (Nat.sub_le _ _))
        split
        · have fewer : tree.relabel.limit < rounds := by
            change tree.limit - 1 < rounds
            omega
          exact induction fewer next
        · rw [if_pos (fits _ above (Nat.le_refl _))]
          have fewer : tree.extend.limit < rounds := by
            change tree.limit - 1 < rounds
            omega
          exact induction fewer next
      · rw [if_neg above]

namespace Sparse

variable (sparse : Sparse tree used exponent reach)

include sparse

/-- The root can be lowered to every bucket within reach. -/
theorem lowerTo (within : 31 ≤ bucket + reach) : ∃ final,
    tree.lowerTo maxHeap bucket = (true, final) ∧ final.limit = min bucket tree.limit ∧
      Sparse final used exponent reach := by
  have reach_le := sparse.reach_le
  have reached : (tree.lowerTo maxHeap bucket).1 = true := by
    refine lower_reached (Nat.lt_succ_self _) fun limit low high => ?_
    have half : 2 ^ (31 - limit) ≤ 2 ^ 23 := Nat.pow_le_pow_right (by decide) (by omega)
    have arena : 2 ^ 23 + listSize < maxHeap := by decide
    rw [sibling_root_start]
    omega
  have lowered := lowerTo_spec maxHeap bucket sparse.valid
  have limit := lowered.limit reached
  have root_le := sparse.root_le
  refine ⟨_, Prod.ext reached rfl, limit, lowered.valid, sparse.small, sparse.few,
    sparse.exponent_le, reach_le, ?_⟩
  rw [limit]
  omega

/-- Every free node has room. -/
theorem use (member : node ∈ tree.free) :
    (tree.use maxHeap original node).1 ≠ none ∧
      31 ≤ (tree.use maxHeap original node).2.limit + reach := by
  have inside := List.mem_append_left used member
  have within := (sparse.valid.within inside).2
  have needed := needed_le original (sparse.valid.large node inside)
  have top : (root tree.limit).limit ≤ 2 ^ 24 := by
    have reach_le := sparse.reach_le
    have root_le := sparse.root_le
    rw [TreeNode.limit, root_start, Nat.zero_add, size, root_exponent]
    exact Nat.pow_le_pow_right (by decide) (by omega)
  have arena : 2 ^ 24 < maxHeap := by decide
  unfold TreeNode.limit at within top
  rw [use_limit, Tree.use, if_pos (by omega)]
  exact ⟨Option.some_ne_none _, sparse.root_le⟩

/-- When nothing is free from some size on that is not too large, then every block
of the largest size has something in use, and there is room for a larger root. -/
theorem root_lt (bounded : 31 ≤ original + exponent)
    (none : ∀ node ∈ tree.free, original < bucketOf node) : 32 ≤ tree.limit + reach := by
  have valid := sparse.valid
  have few := sparse.few
  have limit := valid.limit_lt
  by_cases larger : 31 - tree.limit < exponent
  · have exponent_le := sparse.exponent_le
    omega
  · have smaller : exponent ≤ (root tree.limit).exponent := not_lt.mp larger
    have crowded : 2 ^ ((root tree.limit).exponent - exponent) ≤ used.length := by
      refine length_ge_of_crowded smaller fun block isBlock within => ?_
      by_contra nothing
      have apart : ∀ other ∈ used, block.Apart other := by
        intro other inUse
        have small := sparse.small other inUse
        rcases within_or_apart (small.trans isBlock.ge) with inside | apart
        · exact absurd ⟨other, inUse, inside⟩ nothing
        · exact apart.symm
      rcases valid.unused_iff.mp (valid.tiles.covered_iff_apart.mpr ⟨within, apart⟩) with
        ⟨free, isFree, inside⟩
      have bucket := none free isFree
      have sizes := inside.exponent_le
      have bounds := valid.bucket_bounds (List.mem_append_left used isFree)
      have count : bucketCount = 28 := rfl
      omega
    have room : 2 ^ (31 - tree.limit + 1) ≤ 2 ^ reach := by
      calc 2 ^ (31 - tree.limit + 1)
          = 2 ^ ((root tree.limit).exponent - exponent) * 2 ^ (exponent + 1) := by
            rw [← Nat.pow_add, root_exponent]
            congr 1
            rw [root_exponent] at smaller
            omega
        _ ≤ used.length * 2 ^ (exponent + 1) := Nat.mul_le_mul_right _ crowded
        _ ≤ 2 ^ reach := few
    have exponents := (Nat.pow_le_pow_iff_right (by decide)).mp room
    omega

/-- A search that starts inside of the tree succeeds within reach. -/
theorem search (inside : tree.limit ≤ bucket) (bounded : 31 ≤ original + exponent)
    (empty : ∀ other, bucket < other → other ≤ original → tree.last? other = none) :
    (Tree.search maxHeap original (bucket + 1) tree).1 ≠ none ∧
      31 ≤ (Tree.search maxHeap original (bucket + 1) tree).2.limit + reach := by
  have reach_le := sparse.reach_le
  have root_le := sparse.root_le
  induction bucket with
  | zero => omega
  | succ bucket induction =>
      have reached : tree.lowerTo maxHeap (bucket + 1) = (true, tree) := lower_of_le inside
      rw [Tree.search, reached]
      dsimp only
      cases last : tree.last? (bucket + 1) with
      | some node => exact sparse.use (mem_of_last? last).1
      | none =>
          have emptier : ∀ other, bucket < other → other ≤ original →
              tree.last? other = none := by
            intro other above below
            rcases Nat.eq_or_lt_of_le above with rfl | higher
            · exact last
            · exact empty other higher below
          by_cases below : bucket + 1 ≠ tree.limit ∨ bucket + 1 = 0
          · rw [if_pos below]
            exact induction (by omega) emptier
          · rw [if_neg below]
            have atRoot : bucket + 1 = tree.limit := by omega
            have higher := sparse.root_lt bounded fun node member => by
              by_contra notAbove
              have bounds := sparse.valid.bucket_bounds (List.mem_append_left used member)
              exact not_mem_of_last? (emptier _ (by omega) (not_lt.mp notAbove)) member
            have above : 31 ≤ tree.limit - 1 + reach := by omega
            rcases sparse.lowerTo above with ⟨final, lowered, _, larger⟩
            have found := last?_lowerTo sparse.valid (by omega) (atRoot ▸ last) lowered
            rw [atRoot, lowered]
            simp only [found]
            exact larger.use (mem_of_last? found).1

/-- A request that is not too large is served, with a root within reach. -/
theorem malloc (small : request + headerSize ≤ 2 ^ exponent) (large : minAllocLog2 ≤ exponent) :
    (Tree.malloc maxHeap request tree).1 ≠ none ∧
      31 ≤ (Tree.malloc maxHeap request tree).2.limit + reach := by
  have exponent_le := sparse.exponent_le
  have reach_le := sparse.reach_le
  have bounded : exponentFor request ≤ exponent :=
    max_le large (Nat.clog_le_of_le_pow small)
  have bucket : 31 ≤ bucketFor request + exponent := by
    unfold bucketFor maxAllocLog2
    omega
  have within : 31 ≤ bucketFor request + reach := by omega
  rcases sparse.lowerTo within with ⟨final, lowered, limit, kept⟩
  have again : final.lowerTo maxHeap (bucketFor request) = (true, final) :=
    lower_of_le (limit ▸ min_le_left _ _)
  have same : Tree.malloc maxHeap request tree =
      Tree.search maxHeap (bucketFor request) (bucketFor request + 1) final := by
    rw [Tree.malloc, Tree.search, Tree.search, lowered, again]
  rw [same]
  exact kept.search (limit ▸ min_le_left _ _) bucket fun other above below => by omega

end Sparse

end Tree

/-! ## Heaps -/

namespace Tree

/-- A released node leaves a valid tree. -/
theorem merge_valid (valid : Valid tree (node :: used)) (enough : bucketOf node < rounds) :
    Valid (merge rounds node tree) used := by
  induction rounds generalizing node tree with
  | zero => omega
  | succ rounds induction =>
      rw [merge]
      by_cases joins : bucketOf node ≠ tree.limit ∧ node.sibling ∈ tree.free
      · have bounds := valid.bucket_bounds (List.mem_append_right _ List.mem_cons_self)
        rw [if_pos joins]
        refine induction (valid.join joins.2) ?_
        have parent : bucketOf node.parent = bucketOf node - 1 := by
          unfold bucketOf
          rw [parent_exponent]
          omega
        omega
      · rw [if_neg joins]
        refine valid.give fun free => joins ⟨fun atRoot => ?_, free⟩
        exact valid.root_alone atRoot free

end Tree

namespace Heap

variable {heap : Heap} {live : List (Nat × Nat)} {base : Nat}

/-- The pointer of a block. -/
def pointer (base : Nat) (block : TreeNode × Nat) : Nat := base + block.1.start + headerSize

theorem ServedAt.pointers (served : ServedAt base machine live heap) :
    live.map Prod.fst = heap.blocks.map (pointer base) := by
  rcases served with ⟨rfl, serves⟩
  rw [show live = _ from serves.live, List.map_map]
  rfl

/-- The blocks are small, and the root is within reach. -/
structure Fits (heap : Heap) (exponent reach : Nat) : Prop where
  valid : heap.tree.Valid (heap.blocks.map Prod.fst)
  small : ∀ block ∈ heap.blocks, block.1.exponent ≤ exponent
  root_le : 31 ≤ heap.tree.limit + reach

theorem Fits.extent_le (fits : heap.Fits exponent reach) :
    extentOf heap.tree.limit ≤ 2 ^ reach + 1 := by
  have root_le := fits.root_le
  unfold extentOf
  rw [size, root_exponent]
  exact Nat.succ_le_succ (Nat.pow_le_pow_right (by decide) (by omega))

/-- How many blocks there may be before one more is requested. -/
structure Allows (most exponent reach : Nat) : Prop where
  large : minAllocLog2 ≤ exponent
  exponent_le : exponent ≤ reach
  reach_le : reach ≤ 24
  few : most * 2 ^ (exponent + 1) ≤ 2 ^ reach

variable (allows : Allows most exponent reach)

include allows

theorem initial_fits : initial.Fits exponent reach where
  valid := Tree.Valid.initial
  small := by simp [initial]
  root_le := by
    have large := allows.large
    have exponent_le := allows.exponent_le
    change 31 ≤ 27 + reach
    unfold minAllocLog2 at large
    omega

/-- With few blocks a small request is served. -/
theorem Fits.malloc (base : Nat) (fits : heap.Fits exponent reach) (few : heap.blocks.length ≤ most)
    (small : request + headerSize ≤ 2 ^ exponent) : ∃ block,
    heap.malloc base request = (some (pointer base block),
      ⟨(heap.malloc base request).2.tree, block :: heap.blocks⟩) ∧
      (heap.malloc base request).2.Fits exponent reach := by
  have sparse : Tree.Sparse heap.tree (heap.blocks.map Prod.fst) exponent reach := by
    refine ⟨fits.valid, ?_, ?_, allows.exponent_le, allows.reach_le, fits.root_le⟩
    · intro node member
      rcases List.mem_map.mp member with ⟨block, listed, rfl⟩
      exact fits.small block listed
    · rw [List.length_map]
      exact (Nat.mul_le_mul_right _ few).trans allows.few
  have bounded : exponentFor request ≤ exponent :=
    max_le allows.large (Nat.clog_le_of_le_pow small)
  have inside : Tree.bucketFor request < bucketCount := by
    have large : minAllocLog2 ≤ exponentFor request := le_max_left _ _
    unfold Tree.bucketFor bucketCount
    unfold maxAllocLog2 minAllocLog2 at *
    omega
  have found : Tree.Found heap.tree (Tree.malloc maxHeap request heap.tree).2
      (heap.blocks.map Prod.fst) (Tree.bucketFor request)
      (Tree.malloc maxHeap request heap.tree).1 :=
    Tree.search_spec maxHeap fits.valid (Nat.le_refl _) inside
  rcases sparse.malloc small allows.large with ⟨served, root_le⟩
  rcases Option.ne_none_iff_exists'.mp served with ⟨node, isNode⟩
  rw [isNode] at found
  have bucket := found.bucket node rfl
  have size : node.exponent = exponentFor request := by
    have bounds := found.valid.bucket_bounds
      (List.mem_append_right _ (List.mem_append_left _ (Option.mem_toList.mpr rfl)))
    have exponent_le := allows.exponent_le
    have reach_le := allows.reach_le
    unfold Tree.bucketFor maxAllocLog2 at bucket
    omega
  refine ⟨(node, request), by simp [Heap.malloc, isNode, pointer], ?_, ?_, root_le⟩
  · simpa [Heap.malloc, isNode] using found.valid
  · simp only [Heap.malloc, isNode, Option.toList_some, List.map_cons, List.map_nil,
      List.cons_append, List.nil_append, List.forall_mem_cons]
    exact ⟨size.trans_le bounded, fits.small⟩

omit allows in
/-- Releasing a block leaves the others. -/
theorem Fits.release (fits : heap.Fits exponent reach) (held : ptr ∈ heap.blocks.map (pointer base)) :
    ∃ block ∈ heap.blocks, pointer base block = ptr ∧
      (heap.release base ptr).blocks = heap.blocks.erase block ∧
      (heap.release base ptr).Fits exponent reach := by
  rcases List.mem_map.mp held with ⟨other, listed, pointed⟩
  cases first : heap.block? base ptr with
  | none =>
      have nowhere := List.find?_eq_none.mp first other listed
      exact absurd pointed (by simpa [pointer] using nowhere)
  | some block =>
      have member : block ∈ heap.blocks := List.mem_of_find?_eq_some first
      have same := List.find?_some first
      simp only [decide_eq_true_eq] at same
      have moved := (List.perm_cons_erase member).map Prod.fst
      refine ⟨block, member, same, by rw [Heap.release, first], ?_⟩
      rw [Heap.release, first]
      refine ⟨Tree.merge_valid (fits.valid.perm moved) (Nat.lt_succ_self _), ?_, ?_⟩
      · exact fun left inside => fits.small left (List.mem_of_mem_erase inside)
      · exact (Tree.release_limit block.1 heap.tree).symm ▸ fits.root_le

end Heap

/-! ## Clients -/

/-- In every run the heap ends with the root, or one byte behind it. -/
theorem heap_within_root (reachable : Reachable client) :
    client.machine.heapLength ≤ 2 ^ (31 - client.machine.statics.bucketLimit) + 1 := by
  rcases reachable.serves with ⟨tree, blocks, serves⟩
  have served : Heap.ServedAt client.machine.memStartBrk client.machine client.live ⟨tree, blocks⟩ :=
    ⟨rfl, serves⟩
  have within := served.heapLength_le
  rwa [extentOf, size, root_exponent, ← serves.represents.tracks.limit] at within

theorem heap_within_root_two_sizes : ∃ client : Client Statics,
    client.live = [(4136, 24), (4104, 8)] ∧ client.machine.statics.bucketLimit = 25 ∧
      client.machine.heapLength ≤ 2 ^ (31 - 25) + 1 := by
  rcases reachable_twoSizes with ⟨client, reachable, live, serves⟩
  have limit : client.machine.statics.bucketLimit = 25 := serves.represents.tracks.limit
  exact ⟨client, live, limit, limit ▸ heap_within_root reachable⟩

/-- The clients of a run in which no request needs more than `2 ^ exponent` bytes
with its header, and in which `mm_malloc` is only called while at most `most`
blocks are live. -/
inductive Sparing (most exponent : Nat) : Client Statics → Prop
  | init {machine after : State} : Site machine →
      (∀ byte, machine.statics.nodeIsSplit byte = 0) → mmInit machine = some (0, after) →
      Sparing most exponent ⟨after, []⟩
  | malloc {client : Client Statics} {after : State} {request ptr : Nat} :
      Sparing most exponent client → client.live.length ≤ most →
      request + headerSize ≤ 2 ^ exponent → mmMalloc request client.machine = some (ptr, after) →
      Sparing most exponent
        ⟨after, if ptr = null then client.live else (ptr, request) :: client.live⟩
  | free {client : Client Statics} {after : State} {ptr : Nat} :
      Sparing most exponent client → ptr ∈ client.live.map Prod.fst →
      mmFree ptr client.machine = some ((), after) →
      Sparing most exponent ⟨after, client.live.filter fun spot => spot.1 ≠ ptr⟩
  | write {client : Client Statics} {address : Nat} (value : UInt8) :
      Sparing most exponent client → client.Writable address →
      Sparing most exponent (client.write address value)

section Clients

variable (allows : Heap.Allows most exponent reach)

include allows

theorem Heap.Allows.accepted (small : request + headerSize ≤ 2 ^ exponent) :
    request + headerSize ≤ 2 ^ 26 := by
  have exponent_le := allows.exponent_le.trans allows.reach_le
  exact small.trans ((Nat.pow_le_pow_right (by decide) exponent_le).trans (by decide))

/-- A sparing client has a heap with few small blocks. -/
theorem Sparing.fits (sparing : Sparing most exponent client) : ∃ heap : Heap,
    Heap.ServedAt client.machine.memStartBrk client.machine client.live heap ∧
      heap.Fits exponent reach := by
  induction sparing with
  | init site zeroed returned =>
      rcases (Heap.ensures_mmInit site (marked_zeroed zeroed)).of_eq returned with ⟨_, served, _⟩
      exact ⟨Heap.initial, ⟨rfl, served.2⟩, Heap.initial_fits allows⟩
  | malloc _ few small returned induction =>
      rcases induction with ⟨heap, served, fits⟩
      rcases (served.mmMalloc (allows.accepted small)).of_eq returned with ⟨_, later, _⟩
      have blocks : heap.blocks.length ≤ most := by
        rwa [served.live_eq, List.length_map] at few
      rcases fits.malloc allows _ blocks small with ⟨_, _, kept⟩
      exact ⟨_, ⟨rfl, later.2⟩, kept⟩
  | free _ held returned induction =>
      rcases induction with ⟨heap, served, fits⟩
      rcases (served.mmFree held).of_eq returned with ⟨later, _⟩
      have pointed : _ ∈ heap.blocks.map (Heap.pointer _) := served.pointers ▸ held
      rcases fits.release pointed with ⟨_, _, _, _, kept⟩
      exact ⟨_, ⟨later.1 ▸ rfl, later.1 ▸ later.2⟩, kept⟩
  | write value _ writable induction =>
      rcases induction with ⟨heap, served, fits⟩
      exact ⟨heap, ⟨rfl, served.2.write value writable⟩, fits⟩

/-- Clients with at most `most` blocks of at most `2 ^ exponent` bytes each are
never refused one more, and the heap stays within `2 ^ reach` bytes and one more,
if twice the blocks would fit in them. -/
theorem sparing_served (sparing : Sparing most exponent client) :
    client.machine.heapLength ≤ 2 ^ reach + 1 ∧
      ∀ request, request + headerSize ≤ 2 ^ exponent → client.live.length ≤ most →
        Ensures (mmMalloc request) client.machine fun ptr _ => ptr ≠ null := by
  rcases sparing.fits allows with ⟨heap, served, fits⟩
  refine ⟨served.heapLength_le.trans fits.extent_le, fun request small few => ?_⟩
  refine (served.mmMalloc (allows.accepted small)).mono fun ptr after => ?_
  rintro ⟨_, _, refused, _⟩ isNull
  rw [served.live_eq, List.length_map] at few
  rcases fits.malloc allows client.machine.memStartBrk few small with ⟨_, granted, _⟩
  have none := refused.mp isNull
  rw [granted] at none
  cases none

end Clients

/-- Up to 8192 blocks of 1024 bytes need half of a root of 16 megabytes. -/
theorem sparing_served_first_block : ∃ client : Client Statics, client.live = [(4104, 8)] ∧
    client.machine.heapLength ≤ 2 ^ 24 + 1 ∧
      ∀ request, request + headerSize ≤ 2 ^ 10 → client.live.length ≤ 8192 →
        Ensures (mmMalloc request) client.machine fun ptr _ => ptr ≠ null := by
  rcases ensures_reachable arena_zeroedStart fun _ => rfl with
    ⟨_, started, first, rfl, reachable, serves, kept⟩
  rcases serves.malloc (show 8 + headerSize ≤ maxAlloc by decide) (reachable.spans _) with
    ⟨ptr, after, returned, allocated, _⟩
  have found : Tree.malloc maxHeap 8 Tree.initial = (some ⟨4, 0⟩, ⟨27, []⟩) := by decide
  have isPtr : ptr = 4104 := by
    rw [(allocated.found ⟨4, 0⟩ (found ▸ rfl)).1, addressOf, kept.start]
    rfl
  subst isPtr
  have began : Sparing 8192 10 ⟨started, []⟩ := .init arena_zeroedStart.toSite (fun _ => rfl) first
  have allows : Heap.Allows 8192 10 24 := ⟨by decide, by decide, by decide, by decide⟩
  exact ⟨_, rfl, sparing_served allows (began.malloc (Nat.zero_le _) (by decide) returned)⟩

end MallocLab.Buddy
