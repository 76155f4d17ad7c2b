import MallocLab.Buddy.Invariant

/-! # The size guard of `mm_malloc`

The guard compares `request + HEADER_SIZE`, computed modulo `2 ^ 32`, with
`MAX_ALLOC`. The eight requests at the top of the range wrap, pass the guard and
are served like the smallest ones.
-/

namespace MallocLab.Buddy

open Program TreeNode

variable {machine after : State} {tree final : Tree} {node : TreeNode}
  {client : Client Statics} {blocks : List (TreeNode × Nat)} {request ptr : Nat}

/-- No node of the smallest size can be had: what the search of `mm_malloc` meets
first does not fit into the arena. -/
def Exhausted (client : Client Statics) : Prop :=
  ∀ tree blocks, Serves client tree blocks → (Tree.malloc maxHeap 0 tree).1 = none

/-- The sum that the guard compares does not wrap, or does no harm. -/
def Guarded (client : Client Statics) (request : Nat) : Prop :=
  request + headerSize < 2 ^ 32 ∨ Exhausted client

/-- The clients a run can reach whose requests, of any size, are spanned and
guarded. -/
inductive Steady : Client Statics → Prop
  | init {machine after : State} : Site machine →
      (∀ byte, machine.statics.nodeIsSplit byte = 0) → mmInit machine = some (0, after) →
      Steady ⟨after, []⟩
  | malloc {client : Client Statics} {after : State} {request ptr : Nat} :
      Steady client → request < 2 ^ 32 → Spanned client.machine.memStartBrk request →
      Guarded client request →
      mmMalloc request client.machine = some (ptr, after) →
      Steady ⟨after, if ptr = null then client.live else (ptr, request) :: client.live⟩
  | free {client : Client Statics} {after : State} {ptr : Nat} :
      Steady client → ptr ∈ client.live.map Prod.fst →
      mmFree ptr client.machine = some ((), after) →
      Steady ⟨after, client.live.filter fun spot => spot.1 ≠ ptr⟩
  | write {client : Client Statics} {address : Nat} (value : UInt8) :
      Steady client → client.Writable address → Steady (client.write address value)

/-- `mm_free` computes the bucket of a node from the header before the pointer. -/
def Recomputes (machine : State) (ptr : Nat) (node : TreeNode) : Prop :=
  bucketForRequest (wrap (machine.load (ptr - headerSize) + headerSize)) machine =
    some (bucketOf node, machine)

/-- The pointer belongs to a node of the tree that holds the request with its
header, computed without wrap, and that `mm_free` finds again. -/
def Takes (client : Client Statics) (request ptr : Nat) (after : State) : Prop :=
  ∃ (tree : Tree) (node : TreeNode),
    Represents after tree (node :: client.live.map (nodeOf client.machine)) ∧
      addressOf after node + headerSize = ptr ∧ request + headerSize ≤ node.size ∧
      Recomputes after ptr node

/-- `mm_malloc` ends, and returns NULL or takes a large enough node. -/
def Sound (client : Client Statics) (request : Nat) : Prop :=
  Ensures (mmMalloc request) client.machine fun ptr after =>
    ptr ≠ null → Takes client request ptr after

/-- Beyond `MAX_ALLOC` a sum that does not wrap is refused at once. -/
theorem mmMalloc_large (large : maxAlloc < request + headerSize)
    (noWrap : request + headerSize < 2 ^ 32) (machine : State) :
    mmMalloc request machine = some (null, machine) := by
  rw [mmMalloc, wrap_of_lt noWrap, if_pos large]
  rfl

/-- A sum that wraps is less than `HEADER_SIZE` and gets the smallest bucket. -/
theorem wrapped_total (word : request < 2 ^ 32) (wraps : ¬request + headerSize < 2 ^ 32) :
    wrap (request + headerSize) < headerSize ∧ firstBucket request = Tree.bucketFor 0 := by
  have small : wrap (request + headerSize) < headerSize := by
    unfold wrap headerSize at *
    omega
  have exponent : Nat.clog 2 (wrap (request + headerSize)) ≤ 3 :=
    Nat.clog_le_of_le_pow (le_trans small.le (by decide))
  have least : max minAllocLog2 (Nat.clog 2 (wrap (request + headerSize))) = 4 := by
    rw [max_eq_left (exponent.trans (by decide))]
    rfl
  exact ⟨small, by rw [firstBucket, bucketOfTotal, least]; decide⟩

namespace Serves

variable (serves : Serves client tree blocks)

include serves

theorem nodes : client.live.map (nodeOf client.machine) = blocks.map Prod.fst := by
  rw [serves.live, List.map_map]
  exact List.map_congr_left fun block member => serves.nodeOf_spot member

theorem recomputes (live : Nat × Nat) (isLive : live ∈ client.live) :
    Recomputes client.machine live.1 (nodeOf client.machine live) := by
  rw [serves.live] at isLive
  rcases List.mem_map.mp isLive with ⟨block, member, rfl⟩
  have placed := serves.wellPlaced member
  have sized := serves.sized block member
  have exponent := exponentFor_le sized.2
  have bucket : Tree.bucketFor block.2 = bucketOf block.1 := by
    rw [Tree.bucketFor, bucketOf, sized.1]
  have address : (spot client.machine block).1 - headerSize = addressOf client.machine block.1 :=
    Nat.add_sub_cancel _ _
  rw [serves.nodeOf_spot member, Recomputes, address, serves.headers block member, ← bucket]
  exact placed.bucket

/-- What a request with a wrapped sum does is decided by the search for the
smallest node. -/
theorem wrapped (word : request < 2 ^ 32) (wraps : ¬request + headerSize < 2 ^ 32) :
    Ensures (mmMalloc request) client.machine (Allocated client.machine
      (Tree.malloc maxHeap 0 tree) (blocks.map Prod.fst) request) := by
  have total := wrapped_total word wraps
  have small : 5 ≤ firstBucket request := total.2.symm ▸ (by decide : 5 ≤ Tree.bucketFor 0)
  have outcome := ensures_mmMalloc_guarded serves.represents serves.backed word
    (total.1.le.trans (by decide)) (serves.represents.tracks.lists.storage.spans small)
  rw [Tree.obtain, total.2] at outcome
  exact outcome

theorem sound (spanned : Spanned client.machine.memStartBrk request)
    (noWrap : request + headerSize < 2 ^ 32) : Sound client request := by
  by_cases small : request + headerSize ≤ maxAlloc
  · apply (serves.malloc small (spanned ((wrap_of_lt noWrap).trans_le small))).mono
    rintro ptr after ⟨allocated, _, served⟩ notNull
    rcases shape : Tree.malloc maxHeap request tree with ⟨outcome, final⟩
    rw [shape] at allocated served
    cases outcome with
    | none => exact (notNull (allocated.failed rfl)).elim
    | some node =>
        rw [if_neg notNull] at served
        have isPtr := (allocated.found node rfl).1
        have member : (node, request) ∈ (node, request) :: blocks := List.mem_cons_self
        have same : spot after (node, request) = (ptr, request) := by
          rw [spot, allocated.kept.addresses.1, isPtr]
        have nodeIs : nodeOf after (spot after (node, request)) = node := served.nodeOf_spot member
        have first := served.recomputes (ptr, request) List.mem_cons_self
        rw [same] at nodeIs
        rw [nodeIs] at first
        refine ⟨final, node, ?_, ?_, served.room member, ?_⟩
        · rw [serves.nodes]
          exact allocated.represents
        · exact congrArg Prod.fst same
        · exact first
  · have outcome := mmMalloc_large (not_le.mp small) noWrap client.machine
    exact ⟨null, client.machine, outcome, fun notNull => (notNull rfl).elim⟩

/-- A request with a wrapped sum never gets a node that holds it. -/
theorem sound_wrapped (word : request < 2 ^ 32) (wraps : ¬request + headerSize < 2 ^ 32) :
    Sound client request ↔ (Tree.malloc maxHeap 0 tree).1 = none := by
  have outcome := serves.wrapped word wraps
  constructor
  · intro sound
    rcases outcome.and sound with ⟨ptr, after, _, allocated, takes⟩
    by_contra found
    rcases Option.ne_none_iff_exists'.mp found with ⟨node, isNode⟩
    have notNull : ptr ≠ null := by
      rw [(allocated.found node isNode).1]
      unfold null headerSize
      omega
    rcases takes notNull with ⟨final, taken, represents, _, large, _⟩
    have range := represents.valid.inRange (List.mem_append_right _ List.mem_cons_self)
    have size : taken.size ≤ 2 ^ 31 := Nat.pow_le_pow_right (by decide) range.small
    omega
  · intro none
    apply outcome.mono
    intro ptr after allocated notNull
    exact (notNull (allocated.failed none)).elim

end Serves

theorem Steady.serves (steady : Steady client) : ∃ tree blocks, Serves client tree blocks := by
  induction steady with
  | init site zeroed returned =>
      exact ⟨_, _, ((ensures_served site (marked_zeroed zeroed)).of_eq returned).2.1⟩
  | @malloc client after request ptr _ word spanned guarded returned induction =>
      rcases induction with ⟨tree, blocks, serves⟩
      by_cases noWrap : request + headerSize < 2 ^ 32
      · by_cases small : request + headerSize ≤ maxAlloc
        · have spans := spanned ((wrap_of_lt noWrap).trans_le small)
          exact ⟨_, _, ((serves.malloc small spans).of_eq returned).2.2⟩
        · cases (mmMalloc_large (not_le.mp small) noWrap client.machine).symm.trans returned
          exact ⟨tree, blocks, serves⟩
      · have none := (guarded.resolve_left noWrap) tree blocks serves
        have allocated := (serves.wrapped word noWrap).of_eq returned
        rw [if_pos (allocated.failed none)]
        rcases shape : Tree.malloc maxHeap 0 tree with ⟨outcome, final⟩
        rw [shape] at none allocated
        cases none
        exact ⟨final, blocks, serves.refused allocated⟩
  | free _ isLive returned induction =>
      rcases induction with ⟨tree, blocks, serves⟩
      rcases serves.block_of_live isLive with ⟨block, member, rfl⟩
      exact ⟨_, _, ((serves.free member).of_eq returned).2.2⟩
  | write value _ writable induction =>
      rcases induction with ⟨tree, blocks, serves⟩
      exact ⟨tree, blocks, serves.write value writable⟩

/-- In a run of spanned and guarded requests `mm_free` finds the node of every live
block again, and the next request that is spanned is served soundly exactly when it
is guarded too. -/
theorem size_guard (steady : Steady client) :
    (∀ spot ∈ client.live,
      Recomputes client.machine spot.1 (nodeOf client.machine spot) ∧
        spot.2 + headerSize ≤ (nodeOf client.machine spot).size) ∧
    ∀ request < 2 ^ 32, Spanned client.machine.memStartBrk request →
      (Sound client request ↔ Guarded client request) := by
  rcases steady.serves with ⟨tree, blocks, serves⟩
  constructor
  · intro live isLive
    refine ⟨serves.recomputes live isLive, ?_⟩
    rw [serves.live] at isLive
    rcases List.mem_map.mp isLive with ⟨block, member, rfl⟩
    rw [serves.nodeOf_spot member]
    exact serves.room member
  · intro request word spanned
    constructor
    · intro sound
      by_cases noWrap : request + headerSize < 2 ^ 32
      · exact .inl noWrap
      · exact .inr fun other otherBlocks served => (served.sound_wrapped word noWrap).mp sound
    · intro guarded
      by_cases noWrap : request + headerSize < 2 ^ 32
      · exact serves.sound spanned noWrap
      · exact (serves.sound_wrapped word noWrap).mpr (guarded.resolve_left noWrap tree blocks serves)

/-- The state after the first `mm_init`. -/
theorem steady_first : ∃ client, Steady client ∧ client.machine.memStartBrk = 4096 ∧
    Serves client Tree.initial [] := by
  rcases ensures_reachable arena_zeroedStart fun _ => rfl with
    ⟨_, started, returned, rfl, _, serves, kept⟩
  exact ⟨_, .init arena_zeroedStart.toSite (fun _ => rfl) returned, kept.start, serves⟩

/-- Requests up to the limit are guarded, and spanned where no address wraps. -/
theorem Reachable.steady (reachable : Reachable client) : Steady client := by
  induction reachable with
  | init arena zeroed returned => exact .init arena.toSite zeroed returned
  | @malloc _ _ request _ before small returned induction =>
      have total : request + headerSize ≤ maxAlloc := Nat.add_le_of_le_sub (by decide) small
      have noWrap : request + headerSize < 2 ^ 32 := total.trans_lt (by decide)
      exact .malloc induction (Nat.lt_of_le_of_lt (Nat.le_add_right _ _) noWrap)
        (fun _ => before.spans _) (.inl noWrap) returned
  | free _ isLive returned induction => exact .free induction isLive returned
  | write value _ writable induction => exact .write value induction writable

theorem size_guard_two_sizes : ∃ client, Steady client ∧ client.live = [(4136, 24), (4104, 8)] ∧
    (∀ spot ∈ client.live, Recomputes client.machine spot.1 (nodeOf client.machine spot) ∧
      spot.2 + headerSize ≤ (nodeOf client.machine spot).size) ∧
    (∀ request < 2 ^ 32, Spanned client.machine.memStartBrk request →
      (Sound client request ↔ Guarded client request)) ∧
    Sound client 4294967287 := by
  rcases reachable_twoSizes with ⟨client, reachable, live, _⟩
  rcases size_guard reachable.steady with ⟨recomputed, guarding⟩
  exact ⟨client, reachable.steady, live, recomputed, guarding,
    (guarding 4294967287 (by decide) fun _ => reachable.spans _).mpr (.inl (by decide))⟩

/-- After `mm_init`, `mm_malloc(4294967295)` returns a node of 16 bytes. -/
theorem size_guard_wraps : ∃ client, Steady client ∧
    (Ensures (mmMalloc 4294967295) client.machine fun ptr after => ptr = 4104 ∧
      bucketForRequest (wrap (after.load (ptr - headerSize) + headerSize)) after =
        some (bucketCount - 1, after)) ∧
    ¬Sound client 4294967295 := by
  rcases steady_first with ⟨client, steady, start, serves⟩
  have found : Tree.malloc maxHeap 0 Tree.initial = (some ⟨4, 0⟩, ⟨27, []⟩) := by decide
  have wraps : ¬4294967295 + headerSize < 2 ^ 32 := by decide
  refine ⟨client, steady, ?_, ?_⟩
  · apply (serves.wrapped (by decide) wraps).mono
    intro ptr after allocated
    rw [found] at allocated
    have facts := allocated.found _ rfl
    have address : addressOf client.machine ⟨4, 0⟩ = 4096 := by
      rw [addressOf, start]
      rfl
    rw [address] at facts
    refine ⟨facts.1, ?_⟩
    rw [facts.1, Nat.add_sub_cancel, facts.2.1]
    rfl
  · rw [serves.sound_wrapped (by decide) wraps, found]
    exact Option.some_ne_none _

end MallocLab.Buddy
