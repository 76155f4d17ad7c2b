import MallocLab.Buddy.Init
import MallocLab.Buddy.Release
import MallocLab.Client

/-! # Runs of the buddy allocator -/

namespace MallocLab.Buddy

open Program TreeNode

variable {machine after : State} {tree final : Tree} {node : TreeNode} {used : List TreeNode}
  {client : Client Statics} {blocks : List (TreeNode × Nat)} {block : TreeNode × Nat}
  {request ptr : Nat} {zone : Nat → Prop}

/-- The clients a run can reach: `mm_init` with the static array still zero, and
then `mm_malloc` of any size the allocator can serve, `mm_free` of live pointers
and writes into live blocks in any order. -/
inductive Reachable : Client Statics → Prop
  | init {machine after : State} : Arena machine →
      (∀ byte, machine.statics.nodeIsSplit byte = 0) → mmInit machine = some (0, after) →
      Reachable ⟨after, []⟩
  | malloc {client : Client Statics} {after : State} {request ptr : Nat} :
      Reachable client → request ≤ maxAlloc - headerSize →
      mmMalloc request client.machine = some (ptr, after) →
      Reachable ⟨after, if ptr = null then client.live else (ptr, request) :: client.live⟩
  | free {client : Client Statics} {after : State} {ptr : Nat} :
      Reachable client → ptr ∈ client.live.map Prod.fst →
      mmFree ptr client.machine = some ((), after) →
      Reachable ⟨after, client.live.filter fun spot => spot.1 ≠ ptr⟩
  | write {client : Client Statics} {address : Nat} (value : UInt8) :
      Reachable client → client.Writable address → Reachable (client.write address value)

/-- The pointer and the size of a block with its node. -/
def spot (machine : State) (block : TreeNode × Nat) : Nat × Nat :=
  (addressOf machine block.1 + headerSize, block.2)

/-- The machine represents a tree whose used nodes are those of the live
blocks. -/
structure Serves (client : Client Statics) (tree : Tree) (blocks : List (TreeNode × Nat)) :
    Prop where
  represents : Represents client.machine tree (blocks.map Prod.fst)
  live : client.live = blocks.map (spot client.machine)
  backed : Backed client.machine (blocks.map Prod.fst)
  headers : ∀ block ∈ blocks, client.machine.load (addressOf client.machine block.1) = block.2
  sized : ∀ block ∈ blocks, block.1.exponent = exponentFor block.2 ∧
    block.2 + headerSize ≤ maxAlloc

/-- The same with requests of any size, as long as the header of a node leads
`mm_free` to it. -/
structure Holds (client : Client Statics) (tree : Tree) (blocks : List (TreeNode × Nat)) :
    Prop where
  represents : Represents client.machine tree (blocks.map Prod.fst)
  live : client.live = blocks.map (spot client.machine)
  backed : Backed client.machine (blocks.map Prod.fst)
  headers : ∀ block ∈ blocks, client.machine.load (addressOf client.machine block.1) = block.2
  sized : ∀ block ∈ blocks, firstBucket block.2 = bucketOf block.1 ∧
    wrap (block.2 + headerSize) ≤ maxAlloc

/-- The bytes of a node stay when everything that may be written belongs to nodes
apart from it. -/
theorem Keeps.inside (kept : Keeps zone machine after) (storage : Storage machine)
    (backed : addressOf machine node + node.size ≤ machine.memBrk)
    (apart : ∀ begin, zone begin → ∃ other : TreeNode, other.start = begin ∧
      minAllocLog2 ≤ other.exponent ∧ node.Apart other) :
    SameRange machine after (addressOf machine node) node.size := by
  intro offset inside
  have bounded := storage.bounded
  have arena := storage.arena
  unfold addressOf at backed ⊢
  rw [Nat.add_assoc]
  apply kept.bytes _ (by omega)
  intro begin inZone
  rcases apart begin inZone with ⟨other, rfl, large, away⟩
  have sixteen : 2 ^ 4 ≤ other.size := Nat.pow_le_pow_right (by decide) large
  unfold TreeNode.Apart TreeNode.limit at away
  unfold listSize
  omega

theorem sameRange_load {start count address : Nat} (same : SameRange machine after start count)
    (low : start ≤ address) (high : address + 4 ≤ start + count) :
    after.load address = machine.load address := by
  apply Memory.load_congr
  intro byte first last
  have inRange := same (byte - start) (by omega)
  rwa [Nat.add_sub_cancel' (by omega)] at inRange

theorem exponentFor_le (small : request + headerSize ≤ maxAlloc) :
    exponentFor request ≤ maxAllocLog2 :=
  max_le (by decide) (Nat.clog_le_of_le_pow small)

namespace Holds

variable (holds : Holds client tree blocks)

include holds

theorem range (member : block ∈ blocks) : InRange block.1 :=
  holds.represents.valid.inRange (List.mem_append_right _ (List.mem_map_of_mem member))

/-- Used nodes of different blocks lie apart. -/
theorem blocks_apart {other : TreeNode × Nat} (member : block ∈ blocks) (otherMember : other ∈ blocks)
    (different : block ≠ other) : block.1.Apart other.1 := by
  have tiles := (List.pairwise_append.mp holds.represents.valid.tiles.apart).2.1
  exact (List.pairwise_map.mp tiles).forall member otherMember different

/-- What is known of blocks goes over to other machines on which their nodes are
the same. -/
theorem carried {rest : List (TreeNode × Nat)} (included : rest ⊆ blocks)
    (kept : Keeps zone client.machine after)
    (same : ∀ block ∈ rest, SameRange client.machine after (addressOf client.machine block.1)
      block.1.size) :
    spot after = spot client.machine ∧ Backed after (rest.map Prod.fst) ∧
      ∀ block ∈ rest, after.load (addressOf after block.1) = block.2 := by
  refine ⟨?_, kept.backed fun node inRest => ?_, fun block member => ?_⟩
  · funext block
    rw [spot, kept.addresses.1]
    rfl
  · exact holds.backed node (List.map_subset _ included inRest)
  · have header := holds.headers block (included member)
    have large : 2 ^ 4 ≤ block.1.size :=
      Nat.pow_le_pow_right (by decide) (holds.range (included member)).large
    rw [kept.addresses.1]
    exact (sameRange_load (same block member) (le_refl _) (by omega)).trans header

/-- `mm_malloc` leaves the nodes of live blocks alone. -/
theorem same_of_allocated {result : Option TreeNode × Tree}
    (allocated : Allocated client.machine result (blocks.map Prod.fst) request ptr after) :
    ∀ block ∈ blocks, SameRange client.machine after (addressOf client.machine block.1)
      block.1.size := by
  have storage := holds.represents.tracks.lists.storage
  have finalValid := allocated.represents.valid
  intro block member
  have node := List.mem_map_of_mem (f := Prod.fst) member
  have tiles := List.pairwise_append.mp finalValid.tiles.apart
  apply allocated.kept.inside storage (holds.backed _ node)
  rintro begin (⟨other, free, rfl⟩ | ⟨other, isFound, rfl⟩)
  · exact ⟨other, rfl, finalValid.large other (List.mem_append_left _ free),
      (tiles.2.2 other free block.1 (List.mem_append_right _ node)).symm⟩
  · have listed : other ∈ result.1.toList := Option.mem_toList.mpr isFound
    exact ⟨other, rfl, finalValid.large other (by simp [listed]),
      ((List.pairwise_append.mp tiles.2.1).2.2 other listed block.1 node).symm⟩

/-- A call that found no node leaves the clients with their blocks. -/
theorem refused (allocated : Allocated client.machine (none, final) (blocks.map Prod.fst) request ptr
    after) : Holds ⟨after, client.live⟩ final blocks := by
  have carried := holds.carried (List.Subset.refl _) allocated.kept
    (holds.same_of_allocated allocated)
  exact ⟨allocated.represents, carried.1 ▸ holds.live, carried.2.1, carried.2.2, holds.sized⟩

/-- `mm_malloc` of a request that passes the guard. -/
theorem malloc (word : request < 2 ^ 32) (accepted : wrap (request + headerSize) ≤ maxAlloc)
    (spans : Spans client.machine.memStartBrk (firstBucket request)) :
    Ensures (mmMalloc request) client.machine fun ptr after =>
      Allocated client.machine (Tree.obtain maxHeap request tree) (blocks.map Prod.fst) request ptr
        after ∧
      (∀ block ∈ blocks, SameRange client.machine after (addressOf client.machine block.1)
        block.1.size) ∧
      Holds ⟨after, if ptr = null then client.live else (ptr, request) :: client.live⟩
        (Tree.obtain maxHeap request tree).2
        ((Tree.obtain maxHeap request tree).1.toList.map (fun node => (node, request)) ++ blocks) := by
  have valid := holds.represents.valid
  have found := Tree.search_spec maxHeap valid (le_refl _) (firstBucket_lt request)
  apply (ensures_mmMalloc_guarded holds.represents holds.backed word accepted spans).mono
  intro ptr after allocated
  have kept := allocated.kept
  have same := holds.same_of_allocated allocated
  have carried := holds.carried (List.Subset.refl _) kept same
  refine ⟨allocated, same, ?_⟩
  rcases shape : Tree.obtain maxHeap request tree with ⟨outcome, final⟩
  rw [shape] at allocated
  cases outcome with
  | none =>
      rw [if_pos (allocated.failed rfl)]
      exact holds.refused allocated
  | some node =>
      have facts := allocated.found node rfl
      have notNull : ptr ≠ null := by
        rw [facts.1]
        have positive : addressOf client.machine node ≠ null := holds.represents.address_ne_null
        unfold null at *
        omega
      have bucket := found.bucket node (by
        change node ∈ (Tree.obtain maxHeap request tree).1
        rw [shape]
        rfl)
      rw [if_neg notNull]
      refine ⟨allocated.represents, ?_, ?_, ?_, ?_⟩
      · change (ptr, request) :: client.live = spot after (node, request) :: blocks.map (spot after)
        rw [carried.1, holds.live, facts.1]
        rfl
      · intro other member
        rcases List.mem_cons.mp member with rfl | old
        · rw [kept.addresses.1]
          exact facts.2.2
        · exact carried.2.1 other old
      · intro block member
        rcases List.mem_cons.mp member with rfl | old
        · rw [kept.addresses.1]
          exact facts.2.1
        · exact carried.2.2 block old
      · intro block member
        rcases List.mem_cons.mp member with rfl | old
        · exact ⟨bucket.symm, accepted⟩
        · exact holds.sized block old

/-- The blocks may be listed in any order, as long as the pointers are. -/
theorem spot_injective (member : block ∈ blocks) {other : TreeNode × Nat} (otherMember : other ∈ blocks)
    (same : (spot client.machine block).1 = (spot client.machine other).1) : block = other := by
  by_contra different
  have apart := (holds.blocks_apart member otherMember different).start_ne
  unfold spot addressOf at same
  omega

theorem blocks_nodup : blocks.Nodup :=
  List.Nodup.of_map _ (List.nodup_append.mp holds.represents.valid.tiles.nodup).2.1

theorem free (member : block ∈ blocks) :
    Ensures (mmFree (addressOf client.machine block.1 + headerSize)) client.machine fun _ after =>
      Keeps (fun offset => tree.Begins offset ∨ offset = block.1.start) client.machine after ∧
      (∀ other ∈ blocks, other ≠ block → SameRange client.machine after
        (addressOf client.machine other.1) other.1.size) ∧
      Holds ⟨after, client.live.filter fun spot =>
          spot.1 ≠ addressOf client.machine block.1 + headerSize⟩
        (tree.release block.1) (blocks.erase block) := by
  have moved := (List.perm_cons_erase member).map Prod.fst
  have represents : Represents client.machine tree (block.1 :: (blocks.erase block).map Prod.fst) :=
    ⟨holds.represents.tracks, holds.represents.valid.perm moved⟩
  have backed : Backed client.machine (block.1 :: (blocks.erase block).map Prod.fst) :=
    fun node inUse => holds.backed node (moved.mem_iff.mpr inUse)
  have sized := holds.sized block member
  have storage := holds.represents.tracks.lists.storage
  have nodup := holds.blocks_nodup
  have tiles := List.pairwise_append.mp represents.valid.tiles.apart
  apply (ensures_mmFree represents backed (holds.headers block member) sized.2 sized.1).mono
  rintro _ after ⟨released, kept⟩
  have same : ∀ other ∈ blocks, other ≠ block → SameRange client.machine after
      (addressOf client.machine other.1) other.1.size := by
    intro other otherMember different
    have node : other.1 ∈ (blocks.erase block).map Prod.fst :=
      List.mem_map_of_mem ((List.mem_erase_of_ne different).mpr otherMember)
    apply kept.inside storage (holds.backed _ (List.mem_map_of_mem otherMember))
    rintro begin (⟨free, isFree, rfl⟩ | rfl)
    · exact ⟨free, rfl, represents.valid.large free (List.mem_append_left _ isFree),
        (tiles.2.2 free isFree other.1 (List.mem_cons_of_mem _ node)).symm⟩
    · exact ⟨block.1, rfl, (holds.range member).large,
        holds.blocks_apart otherMember member different⟩
  refine ⟨kept, same, ?_⟩
  have included : blocks.erase block ⊆ blocks := List.erase_subset
  have carried := holds.carried included kept fun other inRest =>
    same other (included inRest) fun isBlock => nodup.not_mem_erase (isBlock ▸ inRest)
  refine ⟨released, ?_, carried.2.1, carried.2.2, fun other inRest => holds.sized other (included inRest)⟩
  change client.live.filter _ = (blocks.erase block).map (spot after)
  rw [carried.1, holds.live, nodup.erase_eq_filter, List.filter_map]
  congr 1
  apply List.filter_congr
  intro other otherMember
  by_cases isBlock : other = block
  · simp [isBlock, spot]
  · have different : (spot client.machine other).1 ≠ (spot client.machine block).1 := fun equal =>
      isBlock (holds.spot_injective otherMember member equal)
    unfold spot at different
    rw [Bool.eq_iff_iff]
    simpa [isBlock, spot] using different

/-- Every live block of the client has a node. -/
theorem block_of_live (member : ptr ∈ client.live.map Prod.fst) :
    ∃ block ∈ blocks, ptr = addressOf client.machine block.1 + headerSize := by
  rw [holds.live, List.map_map] at member
  rcases List.mem_map.mp member with ⟨block, listed, rfl⟩
  exact ⟨block, listed, rfl⟩

/-- The range of a live block lies in its node, behind the header. -/
theorem room (member : block ∈ blocks) (small : block.2 + headerSize ≤ maxAlloc) :
    block.2 + headerSize ≤ block.1.size := by
  have bucket := (holds.sized block member).1
  have range := holds.range member
  have exponent := exponentFor_le small
  rw [firstBucket_of_small small, Tree.bucketFor] at bucket
  rw [size, ← range.exponent_eq, ← bucket, Nat.sub_sub_self exponent, exponentFor]
  exact (Nat.le_pow_clog (by decide) _).trans
    (Nat.pow_le_pow_right (by decide) (le_max_right _ _))

/-- Bytes of a payload may change. -/
theorem written (member : block ∈ blocks) (small : block.2 + headerSize ≤ maxAlloc)
    (start : after.memStartBrk = client.machine.memStartBrk)
    (brk : after.memBrk = client.machine.memBrk) (max : after.memMaxAddr = client.machine.memMaxAddr)
    (statics : after.statics = client.machine.statics)
    (elsewhere : ∀ byte, byte < (spot client.machine block).1 ∨
      (spot client.machine block).1 + block.2 ≤ byte →
      after.bytes byte = client.machine.bytes byte) :
    Holds { client with machine := after } tree blocks := by
  have room := holds.room member small
  have node := List.mem_map_of_mem (f := Prod.fst) member
  have addresses : addressOf after = addressOf client.machine := by
    funext node
    rw [addressOf, start]
    rfl
  unfold spot headerSize at elsewhere
  unfold headerSize at room
  refine ⟨?_, ?_, ?_, ?_, holds.sized⟩
  · refine holds.represents.frame start brk max statics holds.backed fun byte outside => ?_
    apply elsewhere
    by_contra touched
    exact outside ⟨block.1, node, by omega, by omega⟩
  · have spots : spot after = spot client.machine := by
      funext block
      rw [spot, addresses]
      rfl
    exact spots ▸ holds.live
  · intro node inUse
    rw [addresses]
    exact (holds.backed node inUse).trans brk.ge
  · intro other otherMember
    rw [addresses, ← holds.headers other otherMember]
    apply Memory.load_congr
    intro byte first last
    apply elsewhere
    by_cases same : other = block
    · subst same
      omega
    · have apart := holds.blocks_apart otherMember member same
      have large : 2 ^ 4 ≤ other.1.size :=
        Nat.pow_le_pow_right (by decide) (holds.range otherMember).large
      unfold TreeNode.Apart TreeNode.limit at apart
      unfold addressOf at *
      omega

end Holds

theorem Holds.serves (holds : Holds client tree blocks)
    (small : ∀ block ∈ blocks, block.2 + headerSize ≤ maxAlloc) : Serves client tree blocks where
  represents := holds.represents
  live := holds.live
  backed := holds.backed
  headers := holds.headers
  sized block member := by
    have bucket := (holds.sized block member).1
    have exponent := exponentFor_le (small block member)
    rw [firstBucket_of_small (small block member), Tree.bucketFor] at bucket
    refine ⟨?_, small block member⟩
    rw [← (holds.range member).exponent_eq, ← bucket, Nat.sub_sub_self exponent]

namespace Serves

variable (serves : Serves client tree blocks)

include serves

theorem holds : Holds client tree blocks where
  represents := serves.represents
  live := serves.live
  backed := serves.backed
  headers := serves.headers
  sized block member := by
    have sized := serves.sized block member
    constructor
    · rw [firstBucket_of_small sized.2, Tree.bucketFor, bucketOf, sized.1]
    · rw [wrap_of_lt (sized.2.trans_lt (by decide))]
      exact sized.2

theorem range (member : block ∈ blocks) : InRange block.1 := serves.holds.range member

theorem blocks_apart {other : TreeNode × Nat} (member : block ∈ blocks) (otherMember : other ∈ blocks)
    (different : block ≠ other) : block.1.Apart other.1 :=
  serves.holds.blocks_apart member otherMember different

theorem blocks_nodup : blocks.Nodup := serves.holds.blocks_nodup

theorem room (member : block ∈ blocks) : block.2 + headerSize ≤ block.1.size :=
  serves.holds.room member (serves.sized block member).2

theorem block_of_live (member : ptr ∈ client.live.map Prod.fst) :
    ∃ block ∈ blocks, ptr = addressOf client.machine block.1 + headerSize :=
  serves.holds.block_of_live member

theorem refused (allocated : Allocated client.machine (none, final) (blocks.map Prod.fst) request ptr
    after) : Serves ⟨after, client.live⟩ final blocks :=
  (serves.holds.refused allocated).serves fun block member => (serves.sized block member).2

theorem malloc (small : request + headerSize ≤ maxAlloc)
    (spans : Spans client.machine.memStartBrk (firstBucket request)) :
    Ensures (mmMalloc request) client.machine fun ptr after =>
      Allocated client.machine (Tree.malloc maxHeap request tree) (blocks.map Prod.fst) request ptr
        after ∧
      (∀ block ∈ blocks, SameRange client.machine after (addressOf client.machine block.1)
        block.1.size) ∧
      Serves ⟨after, if ptr = null then client.live else (ptr, request) :: client.live⟩
        (Tree.malloc maxHeap request tree).2
        ((Tree.malloc maxHeap request tree).1.toList.map (fun node => (node, request)) ++ blocks) := by
  have word : request < 2 ^ 32 := lt_of_le_of_lt (Nat.le_of_add_right_le small) (by decide)
  have accepted : wrap (request + headerSize) ≤ maxAlloc := by
    rwa [wrap_of_lt (small.trans_lt (by decide))]
  have same : Tree.obtain maxHeap request tree = Tree.malloc maxHeap request tree := by
    rw [Tree.obtain, Tree.malloc, firstBucket_of_small small]
  have outcome := serves.holds.malloc word accepted spans
  rw [same] at outcome
  apply outcome.mono
  rintro ptr after ⟨allocated, kept, holds⟩
  refine ⟨allocated, kept, holds.serves fun block member => ?_⟩
  rcases List.mem_append.mp member with new | old
  · rcases List.mem_map.mp new with ⟨node, _, rfl⟩
    exact small
  · exact (serves.sized block old).2

theorem free (member : block ∈ blocks) :
    Ensures (mmFree (addressOf client.machine block.1 + headerSize)) client.machine fun _ after =>
      Keeps (fun offset => tree.Begins offset ∨ offset = block.1.start) client.machine after ∧
      (∀ other ∈ blocks, other ≠ block → SameRange client.machine after
        (addressOf client.machine other.1) other.1.size) ∧
      Serves ⟨after, client.live.filter fun spot =>
          spot.1 ≠ addressOf client.machine block.1 + headerSize⟩
        (tree.release block.1) (blocks.erase block) := by
  apply (serves.holds.free member).mono
  rintro _ after ⟨kept, same, holds⟩
  exact ⟨kept, same, holds.serves fun other inRest =>
    (serves.sized other (List.mem_of_mem_erase inRest)).2⟩

/-- Bytes of a payload may change. -/
theorem written (member : block ∈ blocks) (start : after.memStartBrk = client.machine.memStartBrk)
    (brk : after.memBrk = client.machine.memBrk) (max : after.memMaxAddr = client.machine.memMaxAddr)
    (statics : after.statics = client.machine.statics)
    (elsewhere : ∀ byte, byte < (spot client.machine block).1 ∨
      (spot client.machine block).1 + block.2 ≤ byte →
      after.bytes byte = client.machine.bytes byte) :
    Serves { client with machine := after } tree blocks :=
  (serves.holds.written member (serves.sized block member).2 start brk max statics
    elsewhere).serves fun other otherMember => (serves.sized other otherMember).2

/-- A write of the client stays inside of a payload. -/
theorem write {address : Nat} (value : UInt8) (writable : client.Writable address) :
    Serves (client.write address value) tree blocks := by
  rcases writable with ⟨live, isLive, low, high⟩
  rw [serves.live] at isLive
  rcases List.mem_map.mp isLive with ⟨block, member, rfl⟩
  change address < (spot client.machine block).1 + block.2 at high
  refine serves.written member rfl rfl rfl rfl ?_
  intro byte outside
  apply if_neg
  rintro rfl
  omega

end Serves

theorem marked_zeroed (zeroed : ∀ byte, machine.statics.nodeIsSplit byte = 0) : Marked machine [] := by
  intro bit _
  rw [splitBit, zeroed]
  exact Nat.zero_testBit _

/-- `mm_init` gives no block to the clients. -/
theorem ensures_served (site : Site machine) (zeroed : Marked machine []) :
    Ensures mmInit machine fun result after => result = 0 ∧
      Serves ⟨after, []⟩ Tree.initial [] ∧ Keeps (fun offset => offset = 0) machine after := by
  apply (ensures_mmInit_zeroed site zeroed).mono
  rintro result after ⟨isZero, represents, kept⟩
  exact ⟨isZero, ⟨represents, rfl, by simp [Backed], by simp, by simp⟩, kept⟩

/-- `mm_init` starts a run. -/
theorem ensures_reachable (arena : Arena machine)
    (zeroed : ∀ byte, machine.statics.nodeIsSplit byte = 0) :
    Ensures mmInit machine fun result after => result = 0 ∧ Reachable ⟨after, []⟩ ∧
      Serves ⟨after, []⟩ Tree.initial [] ∧ Keeps (fun offset => offset = 0) machine after := by
  rcases ensures_served arena.toSite (marked_zeroed zeroed) with
    ⟨result, after, returned, isZero, serves, kept⟩
  subst isZero
  exact ⟨0, after, returned, rfl, .init arena zeroed returned, serves, kept⟩

/-- The tree of a reachable client, whose arena is where it was. -/
theorem Reachable.placed (reachable : Reachable client) :
    (∃ tree blocks, Serves client tree blocks) ∧
      ∀ limit, Spans client.machine.memStartBrk limit := by
  induction reachable with
  | @init machine after arena zeroed returned =>
      have done := (ensures_reachable arena zeroed).of_eq returned
      have start : after.memStartBrk = machine.memStartBrk := done.2.2.2.start
      exact ⟨⟨_, _, done.2.2.1⟩, start ▸ spans_of_maxAlloc arena.empty.startAligned arena.whole⟩
  | @malloc client after request _ _ small returned induction =>
      rcases induction with ⟨⟨tree, blocks, serves⟩, spans⟩
      have done := (serves.malloc (Nat.add_le_of_le_sub (by decide) small) (spans _)).of_eq returned
      have start : after.memStartBrk = client.machine.memStartBrk := done.1.kept.start
      exact ⟨⟨_, _, done.2.2⟩, start ▸ spans⟩
  | @free client after _ _ isLive returned induction =>
      rcases induction with ⟨⟨tree, blocks, serves⟩, spans⟩
      rcases serves.block_of_live isLive with ⟨block, member, rfl⟩
      have done := (serves.free member).of_eq returned
      have start : after.memStartBrk = client.machine.memStartBrk := done.1.start
      exact ⟨⟨_, _, done.2.2⟩, start ▸ spans⟩
  | write value _ writable induction =>
      rcases induction with ⟨⟨tree, blocks, serves⟩, spans⟩
      exact ⟨⟨tree, blocks, serves.write value writable⟩, spans⟩

theorem Reachable.serves (reachable : Reachable client) :
    ∃ tree blocks, Serves client tree blocks := reachable.placed.1

/-- No address that a request leads to wraps. -/
theorem Reachable.spans (reachable : Reachable client) (limit : Nat) :
    Spans client.machine.memStartBrk limit := reachable.placed.2 limit

/-! ## A first run -/

/-- A program start: the arena and the static variables are zero, and the array
lies below the arena. -/
def zeroedStart : State := memInit 4096 (fun _ => 0) ⟨1024, 0, fun _ => 0, 0, 0⟩

theorem arena_zeroedStart : Arena zeroedStart where
  empty := ⟨by decide, by decide, rfl, rfl, by decide⟩
  addressable := by decide
  array := by decide
  arrayEnd := by decide
  apart := .inl (by decide)
  whole := by decide

/-- After `mm_init` and `mm_malloc(8)` one node of 16 bytes is in use, and only its
header is written. -/
theorem reachable_firstBlock : ∃ client, Reachable client ∧ client.live = [(4104, 8)] ∧
    Serves client ⟨27, []⟩ [(⟨4, 0⟩, 8)] ∧ client.machine.memStartBrk = 4096 ∧
    ∀ offset, 8 ≤ offset → offset < maxHeap → client.machine.bytes (4096 + offset) = 0 := by
  rcases ensures_reachable arena_zeroedStart fun _ => rfl with
    ⟨_, started, _, rfl, reachable, serves, kept⟩
  have found : Tree.malloc maxHeap 8 Tree.initial = (some ⟨4, 0⟩, ⟨27, []⟩) := by decide
  rcases serves.malloc (show 8 + headerSize ≤ maxAlloc by decide) (reachable.spans _) with
    ⟨ptr, after, returned, allocated, _, served⟩
  rw [found] at allocated served
  have start : started.memStartBrk = 4096 := kept.start
  have isPtr : ptr = 4104 := by
    rw [(allocated.found _ rfl).1, addressOf, start]
    rfl
  subst isPtr
  refine ⟨_, reachable.malloc (by decide) returned, rfl, served, ?_, fun offset behind inside => ?_⟩
  · exact allocated.kept.start.trans start
  · have late := allocated.kept.bytes offset inside (by
      rintro begin (⟨free, member, _⟩ | ⟨node, isNode, rfl⟩)
      · cases member
      · obtain rfl : node = ⟨4, 0⟩ := (Option.some.inj isNode).symm
        exact .inr behind)
    have early := kept.bytes offset inside (by
      rintro begin rfl
      exact .inr behind)
    rw [start] at late
    exact late.trans early

/-- After `mm_malloc(8)` and `mm_malloc(24)` nodes of both sizes are in use, and the
small one between them is free. -/
theorem reachable_twoSizes : ∃ client, Reachable client ∧
    client.live = [(4136, 24), (4104, 8)] ∧
    Serves client ⟨25, [⟨4, 1⟩]⟩ [(⟨5, 1⟩, 24), (⟨4, 0⟩, 8)] := by
  rcases reachable_firstBlock with ⟨client, reachable, live, serves, start, _⟩
  have found : Tree.malloc maxHeap 24 ⟨27, []⟩ = (some ⟨5, 1⟩, ⟨25, [⟨4, 1⟩]⟩) := by decide
  rcases serves.malloc (show 24 + headerSize ≤ maxAlloc by decide) (reachable.spans _) with
    ⟨ptr, after, returned, allocated, _, served⟩
  rw [found] at allocated served
  have isPtr : ptr = 4136 := by
    rw [(allocated.found _ rfl).1, addressOf, start]
    rfl
  subst isPtr
  refine ⟨_, reachable.malloc (by decide) returned, ?_, served⟩
  rw [live]
  rfl

end MallocLab.Buddy
