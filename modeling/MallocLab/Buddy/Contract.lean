import MallocLab.Buddy.Runs

/-! # What clients of the buddy allocator rely on -/

namespace MallocLab.Buddy

open Program TreeNode

variable {machine after : State} {tree : Tree} {client : Client Statics}
  {blocks : List (TreeNode × Nat)} {block : TreeNode × Nat} {request ptr : Nat}

/-- The size of the node that `bucket_for_request` chooses for a request. -/
def extent (request : Nat) : Nat := 2 ^ (maxAllocLog2 - Tree.bucketFor request)

/-- The extents of two live blocks, which begin at their headers, share no byte. -/
def ExtentsApart (first second : Nat × Nat) : Prop :=
  first.1 - headerSize + extent first.2 ≤ second.1 - headerSize ∨
    second.1 - headerSize + extent second.2 ≤ first.1 - headerSize

/-- A live block is aligned, and its extent holds the request and lies in the
heap. -/
structure WellPlaced (machine : State) (spot : Nat × Nat) : Prop where
  aligned : spot.1 % 8 = 0
  bucket : bucketForRequest (wrap (spot.2 + headerSize)) machine =
    some (Tree.bucketFor spot.2, machine)
  holds : spot.2 + headerSize ≤ extent spot.2
  low : machine.statics.basePtr + headerSize ≤ spot.1
  high : spot.1 - headerSize + extent spot.2 ≤ machine.memBrk

namespace Serves

variable (serves : Serves client tree blocks)

include serves

theorem extent_eq (member : block ∈ blocks) : extent block.2 = block.1.size := by
  have sized := serves.sized block member
  have inside := exponentFor_le sized.2
  rw [extent, size, sized.1, Tree.bucketFor]
  congr 1
  omega

theorem wellPlaced (member : block ∈ blocks) :
    WellPlaced client.machine (spot client.machine block) := by
  have sized := serves.sized block member
  have range := serves.range member
  have storage := serves.represents.tracks.lists.storage
  have extent := serves.extent_eq member
  have backed := serves.backed block.1 (List.mem_map_of_mem member)
  have start := range.start_mod
  have aligned := storage.aligned
  refine ⟨?_, ?_, ?_, ?_, ?_⟩
  · unfold spot addressOf headerSize
    omega
  · have computed : Ensures (bucketForRequest (wrap (block.2 + headerSize))) client.machine
        fun bucket final => bucket = Tree.bucketFor block.2 ∧ final = client.machine :=
      (ensures_bucketForRequest sized.2 _).mpr ⟨rfl, rfl⟩
    rcases computed with ⟨_, _, outcome, rfl, rfl⟩
    exact outcome
  · change block.2 + headerSize ≤ Buddy.extent block.2
    rw [extent]
    exact serves.room member
  · rw [storage.base]
    unfold spot addressOf
    omega
  · change addressOf client.machine block.1 + headerSize - headerSize + Buddy.extent block.2 ≤ _
    rw [extent, Nat.add_sub_cancel]
    exact backed

theorem extents_apart : client.live.Pairwise ExtentsApart := by
  have nodup := serves.blocks_nodup
  rw [serves.live, List.pairwise_map]
  apply nodup.imp_of_mem
  intro first second firstMem secondMem different
  have apart := serves.blocks_apart firstMem secondMem different
  have firstExtent := serves.extent_eq firstMem
  have secondExtent := serves.extent_eq secondMem
  unfold ExtentsApart spot
  simp only [firstExtent, secondExtent, Nat.add_sub_cancel]
  unfold TreeNode.Apart TreeNode.limit at apart
  unfold addressOf
  omega

/-- A payload is part of its node. -/
theorem payload (member : block ∈ blocks)
    (same : SameRange client.machine after (addressOf client.machine block.1) block.1.size) :
    SameRange client.machine after (spot client.machine block).1 block.2 := by
  intro offset inside
  have room := serves.room member
  have inNode := same (headerSize + offset) (by omega)
  rwa [← Nat.add_assoc] at inNode

end Serves

/-- `mm_init` starts a run. In every state of the run the live blocks are well
placed and apart, and every call returns without touching a list outside of the
heap and without changing the payload of a block that stays live. -/
theorem client_contract :
    (∀ machine, Arena machine → (∀ byte, machine.statics.nodeIsSplit byte = 0) →
      Ensures mmInit machine fun result after => result = 0 ∧ Reachable ⟨after, []⟩) ∧
    ∀ client, Reachable client →
      (∀ spot ∈ client.live, WellPlaced client.machine spot) ∧
      client.live.Pairwise ExtentsApart ∧
      (∀ request ≤ maxAlloc - headerSize, Ensures (mmMalloc request) client.machine
        fun ptr after => (ptr ≠ null → WellPlaced after (ptr, request) ∧
            ∀ spot ∈ client.live, ExtentsApart (ptr, request) spot) ∧
          ∀ spot ∈ client.live, SameRange client.machine after spot.1 spot.2) ∧
      ∀ spot ∈ client.live, Ensures (mmFree spot.1) client.machine fun _ after =>
        ∀ other ∈ client.live, other ≠ spot → SameRange client.machine after other.1 other.2 := by
  constructor
  · intro machine arena zeroed
    apply (ensures_reachable arena zeroed).mono
    rintro result after ⟨isZero, reachable, _⟩
    exact ⟨isZero, reachable⟩
  intro client reachable
  rcases reachable.serves with ⟨tree, blocks, serves⟩
  have blockOf : ∀ live ∈ client.live, ∃ block ∈ blocks, spot client.machine block = live := by
    intro live member
    rw [serves.live] at member
    exact List.mem_map.mp member
  refine ⟨?_, serves.extents_apart, ?_, ?_⟩
  · intro live isLive
    rcases blockOf live isLive with ⟨block, member, rfl⟩
    exact serves.wellPlaced member
  · intro request small
    apply (serves.malloc (Nat.add_le_of_le_sub (by decide) small) (reachable.spans _)).mono
    rintro ptr after ⟨_, same, served⟩
    refine ⟨fun notNull => ?_, ?_⟩
    · rw [if_neg notNull] at served
      have apart := List.pairwise_cons.mp served.extents_apart
      have lives : (ptr, request) :: client.live = List.map (spot after) _ := served.live
      have first : (ptr, request) ∈ (ptr, request) :: client.live := List.mem_cons_self
      rw [lives] at first
      rcases List.mem_map.mp first with ⟨block, member, isFirst⟩
      rw [← isFirst]
      exact ⟨served.wellPlaced member, isFirst ▸ apart.1⟩
    · intro live isLive
      rcases blockOf live isLive with ⟨block, member, rfl⟩
      exact serves.payload member (same block member)
  · intro live isLive
    rcases blockOf live isLive with ⟨block, member, rfl⟩
    apply (serves.free member).mono
    rintro _ after ⟨_, same, _⟩ other otherLive different
    rcases blockOf other otherLive with ⟨otherBlock, otherMember, rfl⟩
    apply serves.payload otherMember
    apply same otherBlock otherMember
    rintro rfl
    exact different rfl

theorem client_contract_two_sizes : (Ensures mmInit zeroedStart fun result after =>
    result = 0 ∧ Reachable ⟨after, []⟩) ∧
    ∃ client : Client Statics, client.live = [(4136, 24), (4104, 8)] ∧
      WellPlaced client.machine (4136, 24) ∧ WellPlaced client.machine (4104, 8) ∧
      ExtentsApart (4136, 24) (4104, 8) ∧
      Ensures (mmMalloc 8) client.machine (fun ptr after => (ptr ≠ null →
          WellPlaced after (ptr, 8) ∧ ExtentsApart (ptr, 8) (4136, 24) ∧
            ExtentsApart (ptr, 8) (4104, 8)) ∧
        SameRange client.machine after 4136 24 ∧ SameRange client.machine after 4104 8) ∧
      Ensures (mmFree 4104) client.machine fun _ after =>
        SameRange client.machine after 4136 24 := by
  refine ⟨client_contract.1 zeroedStart arena_zeroedStart fun _ => rfl, ?_⟩
  rcases reachable_twoSizes with ⟨client, reachable, live, _⟩
  rcases client_contract.2 client reachable with ⟨placed, apart, serving, freeing⟩
  rw [live] at placed apart serving freeing
  have large : (4136, 24) ∈ [(4136, 24), (4104, 8)] := List.mem_cons_self
  have small : (4104, 8) ∈ [(4136, 24), (4104, 8)] := List.mem_cons_of_mem _ List.mem_cons_self
  refine ⟨client, live, placed _ large, placed _ small, List.rel_of_pairwise_cons apart (by simp),
    (serving 8 (by decide)).mono ?_, (freeing _ small).mono ?_⟩
  · rintro ptr after ⟨fresh, same⟩
    refine ⟨fun notNull => ?_, same _ large, same _ small⟩
    have fresh := fresh notNull
    exact ⟨fresh.1, fresh.2 _ large, fresh.2 _ small⟩
  · intro _ after same
    exact same _ large (by decide)

end MallocLab.Buddy
