import MallocLab.Buddy.Invariant

/-! # `mm_realloc`

The number of bytes to copy is read from the payload, not from the header. So
the client decides how much of its block is moved.
-/

namespace MallocLab.Buddy

open Program TreeNode

variable {machine after : State} {tree : Tree} {node : TreeNode} {used : List TreeNode}
  {client : Client Statics} {blocks : List (TreeNode × Nat)} {block : TreeNode × Nat}
  {request ptr old size : Nat}

/-- What a client expects of a block that was moved: the data is there, and the
node of the old block is free. -/
structure Moved (client : Client Statics) (ptr old size : Nat) (value : Nat) (after : State) :
    Prop where
  data : ∀ offset < min old size,
    after.bytes (value + offset) = client.machine.bytes (ptr + offset)
  freed : ∃ free, TreeInvariant
      ⟨after, (value, size) :: client.live.filter fun spot => spot.1 ≠ ptr⟩ free ∧
    Unused free (nodeOf client.machine (ptr, old))

/-- `mm_realloc` does what a client expects, and its one `memcpy` reads nothing from
behind the node of the block. -/
structure Moves (client : Client Statics) (ptr old size : Nat) : Prop where
  inside : Ensures (mmMalloc size) client.machine fun value middle => value ≠ null →
    Ensures (copySize ptr size) middle fun count counted =>
      mmRealloc ptr size client.machine =
        (do memcpy value ptr count
            mmFree ptr
            return value : Program State Nat) counted ∧
      headerSize + count ≤ extent old
  moved : Ensures (mmRealloc ptr size) client.machine fun value after =>
    value ≠ null → Moved client ptr old size value after

/-- The payload may be moved to the node that `mm_malloc` will find: its first
word, cut to the new size, counts no byte behind the block, and the bytes it does
not count are already there. -/
def Harmless (machine : State) (found : Option TreeNode) (ptr old size : Nat) : Prop :=
  ∀ node ∈ found, headerSize + min size (machine.load ptr) ≤ extent old ∧
    ∀ offset, machine.load ptr ≤ offset → offset < min old size →
      machine.bytes (addressOf machine node + headerSize + offset) = machine.bytes (ptr + offset)

theorem ensures_copySize (goal : Nat → State → Prop) :
    Ensures (copySize ptr size) machine goal ↔
      machine.Owns ptr 4 ∧ goal (min size (machine.load ptr)) machine := by
  have least : (if size < machine.load ptr then size else machine.load ptr) =
      min size (machine.load ptr) := by
    split <;> omega
  simp [copySize, least]

/-- What `mm_realloc` does after `mm_malloc` returned a block. -/
theorem mmRealloc_of_served {value count : Nat} {middle counted : State}
    (outcome : mmMalloc size machine = some (value, middle)) (notNull : value ≠ null)
    (counting : copySize ptr size middle = some (count, counted)) :
    mmRealloc ptr size machine =
      (do memcpy value ptr count
          mmFree ptr
          return value : Program State Nat) counted := by
  change (mmMalloc size machine).bind _ = _
  rw [outcome, Option.bind_some]
  simp only [if_neg notNull]
  change (copySize ptr size middle).bind _ = _
  rw [counting, Option.bind_some]

/-- The payload of a node that `mm_malloc` took is as it was. -/
theorem Allocated.payload {result : Option TreeNode × Tree} {offset : Nat}
    (allocated : Allocated machine result used request ptr after) (isFound : result.1 = some node)
    (behind : headerSize ≤ offset) (inside : offset < node.size) :
    after.bytes (addressOf machine node + offset) = machine.bytes (addressOf machine node + offset) := by
  have kept := allocated.kept
  have facts := allocated.found node isFound
  have storage := allocated.represents.tracks.lists.storage
  have valid := allocated.represents.valid
  have listed : node ∈ result.1.toList := by simp [isFound]
  have bounded := storage.bounded
  have arena := storage.arena
  have brk := facts.2.2
  rw [kept.start] at arena
  unfold addressOf at brk ⊢
  rw [Nat.add_assoc]
  apply kept.bytes _ (by omega)
  rintro begin (⟨other, free, rfl⟩ | ⟨other, isOther, rfl⟩)
  · have apart := (List.pairwise_append.mp valid.tiles.apart).2.2 other free node
      (List.mem_append_left _ listed)
    have large : 2 ^ 4 ≤ other.size :=
      Nat.pow_le_pow_right (by decide) (valid.large other (List.mem_append_left _ free))
    unfold TreeNode.Apart TreeNode.limit at apart
    unfold listSize
    omega
  · have same : node = other := Option.some.inj (isFound.symm.trans isOther)
    subst same
    unfold headerSize at behind
    unfold listSize
    omega

namespace Serves

variable (serves : Serves client tree blocks)

include serves

/-- The payload of a live block belongs to the heap. -/
theorem owns (member : block ∈ blocks) {count : Nat} (inside : headerSize + count ≤ block.1.size) :
    client.machine.Owns (spot client.machine block).1 count := by
  have backed := serves.backed block.1 (List.mem_map_of_mem member)
  have started : client.machine.memStartBrk ≤ addressOf client.machine block.1 := Nat.le_add_right _ _
  unfold Machine.Owns spot
  constructor <;> omega

/-- A block that is given back leaves an UNUSED node. -/
theorem unused_of_free {final : Tree} {next : Client Statics}
    (served : Serves next final (blocks.erase block)) (member : block ∈ blocks)
    (limit : final.limit = tree.limit) : Unused final.free block.1 := by
  intro point inside
  have within := serves.represents.valid.within (List.mem_append_right _ (List.mem_map_of_mem member))
  have inRoot : (root final.limit).Mem point := limit ▸ within.mem inside
  rcases (served.represents.valid.tiles.covers point).mp inRoot with ⟨other, listed, shared⟩
  rcases List.mem_append.mp listed with free | inUse
  · exact ⟨other, free, shared⟩
  · rcases List.mem_map.mp inUse with ⟨otherBlock, otherMember, rfl⟩
    have different : block ≠ otherBlock := fun same =>
      serves.blocks_nodup.not_mem_erase (same ▸ otherMember)
    have apart := serves.blocks_apart member (List.mem_of_mem_erase otherMember) different
    exact absurd shared (apart.not_mem inside)

/-- `memcpy` between the payloads of two blocks, and `mm_free` of the first one. -/
theorem ensures_copyFree {target : TreeNode × Nat} {count : Nat} (member : block ∈ blocks)
    (targetMember : target ∈ blocks) (different : block ≠ target)
    (readable : headerSize + count ≤ block.1.size) (writable : count ≤ target.2) :
    Ensures (do
      memcpy (spot client.machine target).1 (spot client.machine block).1 count
      mmFree (spot client.machine block).1
      return (spot client.machine target).1 : Program State Nat) client.machine
      fun value final => value = (spot client.machine target).1 ∧
        (∀ offset < target.2, final.bytes (value + offset) =
          if offset < count then client.machine.bytes ((spot client.machine block).1 + offset)
          else client.machine.bytes (value + offset)) ∧
        ∃ freed, TreeInvariant
            ⟨final, client.live.filter fun spot => spot.1 ≠ addressOf client.machine block.1 + headerSize⟩
            freed ∧
          Unused freed block.1 := by
  have room := serves.room targetMember
  have apart := serves.blocks_apart member targetMember different
  have disjoint : (spot client.machine target).1 + count ≤ (spot client.machine block).1 ∨
      (spot client.machine block).1 + count ≤ (spot client.machine target).1 := by
    unfold TreeNode.Apart TreeNode.limit at apart
    unfold spot addressOf
    omega
  have copied := @Serves.written (client.machine.copy (spot client.machine target).1
      (spot client.machine block).1 count) _ _ _ _ serves targetMember rfl rfl rfl rfl fun byte outside => by
    apply client.machine.bytes.copy_of_outside
    omega
  rw [ensures_bind, ensures_memcpy]
  refine ⟨serves.owns targetMember (by omega), serves.owns member readable, disjoint, ?_⟩
  rw [ensures_bind]
  apply (copied.free member).mono
  rintro _ final ⟨_, same, served⟩
  rw [ensures_pure]
  refine ⟨rfl, fun offset inside => ?_, _, served.treeInvariant, ?_⟩
  · have stays := copied.payload targetMember (same target targetMember different.symm)
    have unchanged := stays offset inside
    by_cases moved : offset < count
    · rw [if_pos moved]
      exact unchanged.trans (client.machine.bytes.copy_of_inside moved)
    · have outside : client.machine.bytes.copy (spot client.machine target).1
          (spot client.machine block).1 count ((spot client.machine target).1 + offset) =
            client.machine.bytes ((spot client.machine target).1 + offset) :=
        client.machine.bytes.copy_of_outside (by omega)
      rw [if_neg moved]
      exact unchanged.trans outside
  · exact copied.unused_of_free served member (Tree.release_limit _ _)

/-- What `mm_malloc` does to a block does not change what is copied from it. -/
theorem ensures_copySize_after (member : block ∈ blocks)
    (same : SameRange client.machine after (addressOf client.machine block.1) block.1.size)
    (kept : client.machine.memBrk ≤ after.memBrk ∧ after.memStartBrk = client.machine.memStartBrk)
    (goal : Nat → State → Prop) :
    Ensures (copySize (spot client.machine block).1 size) after goal ↔
      goal (min size (client.machine.load (spot client.machine block).1)) after := by
  have large : 2 ^ 4 ≤ block.1.size := Nat.pow_le_pow_right (by decide) (serves.range member).large
  have room : headerSize + 4 ≤ block.1.size := by
    unfold headerSize
    omega
  have owned := serves.owns member room
  have owns : after.Owns (spot client.machine block).1 4 := by
    unfold Machine.Owns at owned ⊢
    omega
  have word : after.load (spot client.machine block).1 =
      client.machine.load (spot client.machine block).1 := by
    apply sameRange_load same (Nat.le_add_right _ _)
    omega
  rw [ensures_copySize, word]
  exact and_iff_right owns

/-- `mm_realloc`, where `mm_malloc` found a node and the copy does not leave the
block. -/
theorem ensures_mmRealloc (member : block ∈ blocks) (small : size + headerSize ≤ maxAlloc)
    (spans : Spans client.machine.memStartBrk (firstBucket size))
    (found : (Tree.malloc maxHeap size tree).1 = some node)
    (readable : headerSize + min size (client.machine.load (spot client.machine block).1) ≤
      block.1.size) :
    Ensures (mmRealloc (spot client.machine block).1 size) client.machine fun value final =>
      value = addressOf client.machine node + headerSize ∧
      (∀ offset < size, final.bytes (value + offset) =
        if offset < min size (client.machine.load (spot client.machine block).1) then
          client.machine.bytes ((spot client.machine block).1 + offset)
        else client.machine.bytes (addressOf client.machine node + headerSize + offset)) ∧
      ∃ freed, TreeInvariant ⟨final, (value, size) ::
          client.live.filter fun spot => spot.1 ≠ addressOf client.machine block.1 + headerSize⟩ freed ∧
        Unused freed block.1 := by
  rw [mmRealloc, ensures_bind]
  apply (serves.malloc small spans).mono
  rintro value middle ⟨allocated, same, served⟩
  have facts := allocated.found node found
  have sameBlock := same block member
  have notNull : value ≠ null := by
    have positive : addressOf client.machine node ≠ null := serves.represents.address_ne_null
    rw [facts.1]
    unfold null at *
    omega
  have addresses := allocated.kept.addresses.1
  have spots : spot middle = spot client.machine := by
    funext block
    rw [spot, addresses]
    rfl
  rw [if_neg notNull, found] at served
  have target : (spot client.machine (node, size)).1 = value := facts.1.symm
  have different : block ≠ (node, size) := by
    rintro rfl
    exact (List.nodup_cons.mp served.blocks_nodup).1 member
  have copying := served.ensures_copyFree (List.mem_cons_of_mem _ member) List.mem_cons_self different
    readable (min_le_left _ _)
  simp only [spots, target, addresses] at copying
  rw [if_neg notNull, ensures_bind, serves.ensures_copySize_after member sameBlock
    ⟨allocated.kept.brk, allocated.kept.start⟩]
  apply copying.mono
  rintro _ final ⟨isValue, data, freed⟩
  rw [isValue] at data ⊢
  have room := served.room (List.mem_cons_self : (node, size) ∈ _)
  refine ⟨facts.1, fun offset inside => ?_, ?_⟩
  · rw [data offset inside]
    split
    · rename_i moved
      have inNode := sameBlock (headerSize + offset) (by omega)
      rwa [← Nat.add_assoc] at inNode
    · have unwritten := allocated.payload found (Nat.le_add_right headerSize offset) (by
        change size + headerSize ≤ node.size at room
        omega)
      rw [facts.1, Nat.add_assoc]
      exact unwritten
  · have apart := served.holds.spot_injective (List.mem_cons_of_mem _ member) List.mem_cons_self
    have elsewhere : value ≠ addressOf client.machine block.1 + headerSize := by
      intro equal
      apply different
      apply apart
      rw [spots, target, equal]
      rfl
    have filtered : ((value, size) :: client.live).filter (fun spot =>
        spot.1 ≠ addressOf client.machine block.1 + headerSize) = (value, size) ::
          client.live.filter fun spot => spot.1 ≠ addressOf client.machine block.1 + headerSize :=
      List.filter_cons_of_pos (decide_eq_true elsewhere)
    rwa [← filtered]

/-- Which payloads `mm_realloc` moves as a client expects. -/
theorem moves_iff (member : block ∈ blocks) (small : size + headerSize ≤ maxAlloc)
    (spans : Spans client.machine.memStartBrk (firstBucket size)) :
    Moves client (spot client.machine block).1 block.2 size ↔
      Harmless client.machine (Tree.malloc maxHeap size tree).1 (spot client.machine block).1
        block.2 size := by
  have extent := serves.extent_eq member
  rcases serves.malloc small spans with ⟨value, middle, outcome, allocated, same, served⟩
  cases found : (Tree.malloc maxHeap size tree).1 with
  | none =>
      have isNull := allocated.failed found
      refine ⟨fun _ => nofun, fun _ => ⟨⟨value, middle, outcome, fun notNull => ?_⟩, ?_⟩⟩
      · exact absurd isNull notNull
      · rw [mmRealloc, ensures_bind_of_eq outcome, if_pos isNull, ensures_pure]
        exact fun notNull => absurd rfl notNull
  | some node =>
      have facts := allocated.found node found
      have notNull : value ≠ null := by
        have positive : addressOf client.machine node ≠ null := serves.represents.address_ne_null
        rw [facts.1]
        unfold null at *
        omega
      have isFound : node ∈ some node := rfl
      have copying := @ensures_copySize_after _ _ _ _ _ size serves member (same block member)
        ⟨allocated.kept.brk, allocated.kept.start⟩
      constructor
      · intro moves
        have readable := moves.inside.of_eq outcome notNull
        rw [copying] at readable
        have readable := readable.2
        have fits := readable
        rw [extent] at fits
        have moving := serves.ensures_mmRealloc member small spans found fits
        rcases moving.and moves.moved with ⟨result, final, _, ⟨isResult, data, _⟩, moved⟩
        have moved := moved (by rw [isResult, ← facts.1]; exact notNull)
        intro other isOther
        obtain rfl : node = other := Option.some.inj isOther
        refine ⟨readable, fun offset uncounted inside => ?_⟩
        have kept := moved.data offset inside
        rw [data offset (lt_of_lt_of_le inside (min_le_right _ _)), if_neg (by omega)] at kept
        exact kept
      · intro harmless
        have harmless := harmless node isFound
        have readable := harmless.1
        rw [extent] at readable
        refine ⟨⟨value, middle, outcome, fun _ => ?_⟩, ?_⟩
        · rw [copying]
          have counted := (copying fun count reached => count = min size
            (client.machine.load (spot client.machine block).1) ∧ reached = middle).mpr ⟨rfl, rfl⟩
          rcases counted with ⟨_, _, counting, rfl, rfl⟩
          exact ⟨mmRealloc_of_served outcome notNull counting, harmless.1⟩
        apply (serves.ensures_mmRealloc member small spans found readable).mono
        rintro value final ⟨_, data, free, isTree, unused⟩ _
        have isNode : nodeOf client.machine ((spot client.machine block).1, block.2) = block.1 :=
          serves.nodeOf_spot member
        refine ⟨fun offset inside => ?_, free, isTree, by rwa [isNode]⟩
        have moved := data offset (lt_of_lt_of_le inside (min_le_right _ _))
        by_cases counted : offset < min size (client.machine.load (spot client.machine block).1)
        · rwa [if_pos counted] at moved
        · rw [if_neg counted] at moved
          exact moved.trans (harmless.2 offset (by omega) inside)

end Serves

/-- In every state of a run `mm_realloc` of a live block does what its client
expects exactly when the word the client stored first does no harm to the node
that `mm_malloc` will find. -/
theorem realloc_moves (reachable : Reachable client) (small : size ≤ maxAlloc - headerSize)
    (isLive : (ptr, old) ∈ client.live) :
    (∃ tree blocks, Serves client tree blocks) ∧
      ∀ tree blocks, Serves client tree blocks → (Moves client ptr old size ↔
        Harmless client.machine (Tree.malloc maxHeap size tree).1 ptr old size) := by
  refine ⟨reachable.serves, fun tree blocks serves => ?_⟩
  have listed := isLive
  rw [serves.live] at listed
  rcases List.mem_map.mp listed with ⟨block, member, isSpot⟩
  have moves := serves.moves_iff member (Nat.add_le_of_le_sub (by decide) small) (reachable.spans _)
  rwa [isSpot, (Prod.mk.inj isSpot).2] at moves

theorem realloc_moves_first_block : ∃ client : Client Statics, client.live = [(4104, 8)] ∧
    Serves client ⟨27, []⟩ [(⟨4, 0⟩, 8)] ∧
    (Moves client 4104 8 8 ↔ Harmless client.machine (some ⟨4, 1⟩) 4104 8 8) := by
  rcases reachable_firstBlock with ⟨client, reachable, live, serves, _⟩
  have isLive : (4104, 8) ∈ client.live := live ▸ List.mem_cons_self
  have small : 8 ≤ maxAlloc - headerSize := by decide
  have found : (Tree.malloc maxHeap 8 ⟨27, []⟩).1 = some ⟨4, 1⟩ := by decide
  exact ⟨client, live, serves, found ▸ (realloc_moves reachable small isLive).2 _ _ serves⟩

/-- A client that stored eight bytes, the first four of which are zero, loses the
others when it asks for eight bytes again. -/
theorem realloc_loses_data : ∃ client : Client Statics, Reachable client ∧ client.live = [(4104, 8)] ∧
    ¬Moves client 4104 8 8 := by
  rcases reachable_firstBlock with ⟨client, reachable, live, serves, start, zero⟩
  have writable : client.Writable 4108 := ⟨(4104, 8), live ▸ List.mem_cons_self, by decide, by decide⟩
  have written := serves.write 1 writable
  have isSpot : spot (client.write 4108 1).machine (⟨4, 0⟩, 8) = (4104, 8) := by
    change (client.machine.memStartBrk + _ + _, 8) = _
    rw [start]
    rfl
  refine ⟨_, .write 1 reachable writable, live, fun moves => ?_⟩
  have harmless := (written.moves_iff List.mem_cons_self (show 8 + headerSize ≤ maxAlloc by decide)
    (reachable.spans _)).mp (by rw [isSpot]; exact moves)
  have found : Tree.malloc maxHeap 8 ⟨27, []⟩ = (some ⟨4, 1⟩, ⟨26, []⟩) := by decide
  rw [found, isSpot] at harmless
  have unchanged : ∀ offset, 8 ≤ offset → offset < maxHeap → offset ≠ 12 →
      (client.write 4108 1).machine.bytes (4096 + offset) = 0 := by
    intro offset behind inside elsewhere
    rw [← zero offset behind inside]
    exact if_neg (by omega)
  have word : (client.write 4108 1).machine.load 4104 = 0 := by
    have same : Memory.load (client.write 4108 1).machine.bytes 4104 = Memory.load (fun _ => 0) 4104 := by
      apply Memory.load_congr
      intro byte low high
      rcases Nat.exists_eq_add_of_le (show 4096 ≤ byte by omega) with ⟨offset, rfl⟩
      exact unchanged offset (by omega) (by unfold maxHeap; omega) (by omega)
    exact same
  have lost := (harmless _ rfl).2 4 (word ▸ by decide) (by decide)
  have stored : (client.write 4108 1).machine.bytes (4104 + 4) = 1 := by
    simp [Client.write, Machine.setByte]
  rw [stored, addressOf] at lost
  change (client.write 4108 1).machine.bytes (client.machine.memStartBrk + 16 + 8 + 4) = 1 at lost
  rw [start] at lost
  have fresh := unchanged 28 (by decide) (by decide) (by decide)
  rw [fresh] at lost
  cases lost

end MallocLab.Buddy
