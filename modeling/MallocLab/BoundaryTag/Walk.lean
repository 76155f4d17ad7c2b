import MallocLab.BoundaryTag.Clients

/-! # Walking the heap

What can be seen of a heap without knowing how it came about: the blocks that
`NEXT_BLKP` visits, and how they relate to what the client holds.
-/

namespace MallocLab

open Blocks

namespace Machine

variable {Statics : Type} (machine : Machine Statics)

/-- `GET_SIZE(HDRP(bp))`. -/
def headerSize (bp : Nat) : Nat := sizeField (machine.load (bp - 4))

/-- `GET_ALLOC(HDRP(bp))`. -/
def headerAlloc (bp : Nat) : Nat := allocField (machine.load (bp - 4))

/-- `NEXT_BLKP` leads from a block through the visited ones to a header of size
zero, whose payload address would be `last`. -/
inductive Walk : Nat → List Nat → Nat → Prop
  | stop {bp : Nat} : machine.headerSize bp = 0 → Walk bp [] bp
  | step {bp last : Nat} {rest : List Nat} : machine.headerSize bp ≠ 0 →
      Walk (bp + machine.headerSize bp) rest last → Walk bp (bp :: rest) last

/-- A walk begins with the block it starts at. -/
theorem Walk.mem_start {machine : Machine Statics} {bp last : Nat} {visited : List Nat}
    (walk : machine.Walk bp visited last) (nonzero : machine.headerSize bp ≠ 0) :
    bp ∈ visited := by
  cases walk with
  | stop zero => exact absurd zero nonzero
  | step _ _ => exact List.mem_cons_self

/-- There is one walk from a block at most. -/
theorem Walk.unique {machine : Machine Statics} {bp last otherLast : Nat}
    {visited others : List Nat} (walk : machine.Walk bp visited last)
    (other : machine.Walk bp others otherLast) : others = visited ∧ otherLast = last := by
  induction walk generalizing others with
  | stop zero =>
      cases other with
      | stop _ => exact ⟨rfl, rfl⟩
      | step nonzero _ => exact absurd zero nonzero
  | step nonzero _ induction =>
      cases other with
      | stop zero => exact absurd zero nonzero
      | step _ rest =>
          rcases induction rest with ⟨rfl, rfl⟩
          exact ⟨rfl, rfl⟩

/-- The visited blocks tile the heap from the prologue header at
`mem_start_brk + 4` to the epilogue header at `mem_brk - 4`, and the allocated
ones among them are the blocks of the client. -/
structure HeapTiled (heapListp prologueSize : Nat) (live : List (Nat × Nat))
    (visited : List Nat) : Prop where
  prologue : heapListp = machine.memStartBrk + 8
  prologueSize : machine.headerSize heapListp = prologueSize
  walk : machine.Walk heapListp visited machine.memBrk
  epilogue : machine.headerAlloc machine.memBrk = 1
  covers : heapListp + (visited.map machine.headerSize).sum = machine.memBrk
  aligned : ∀ bp ∈ visited, machine.headerSize bp % 8 = 0
  large : ∀ bp ∈ visited, bp ≠ heapListp → 16 ≤ machine.headerSize bp
  footers : ∀ bp ∈ visited,
    machine.load (bp + machine.headerSize bp - dsize) = machine.load (bp - wsize)
  sentinel : machine.headerAlloc heapListp = 1
  allocated : ∀ bp ∈ visited, bp ≠ heapListp →
    (machine.headerAlloc bp = 1 ↔ bp ∈ live.map Prod.fst)
  listed : ∀ spot ∈ live, spot.1 ∈ visited ∧ spot.1 ≠ heapListp
  distinct : (live.map Prod.fst).Nodup
  capacity : ∀ spot ∈ live, spot.2 ≤ machine.headerSize spot.1 - dsize
  disjoint : ∀ first ∈ live, ∀ second ∈ live, first.1 ≠ second.1 →
    first.1 + (machine.headerSize first.1 - dsize) ≤ second.1 ∨
      second.1 + (machine.headerSize second.1 - dsize) ≤ first.1
  coalesced : visited.IsChain fun left right =>
    machine.headerAlloc left = 1 ∨ machine.headerAlloc right = 1

end Machine

/-! ## The walk of a tiled heap -/

section Tiled

variable {Statics : Type} {machine : Machine Statics} {blocks front back : List Block}
  {block : Block} {bp : Nat}

theorem Tiled.headerSize (tiled : Tiled machine blocks)
    (spot : (bp, block) ∈ spots machine.origin blocks) :
    machine.headerSize bp = block.size := by
  have here := tiled.blockAt spot
  rw [Machine.headerSize, here.header, here.size]

theorem Tiled.headerAlloc (tiled : Tiled machine blocks)
    (spot : (bp, block) ∈ spots machine.origin blocks) :
    machine.headerAlloc bp = if block.isFree then 0 else 1 := by
  rw [Machine.headerAlloc, (tiled.blockAt spot).header, block.allocField_tag]

theorem Tiled.headerAlloc_eq_one (tiled : Tiled machine blocks)
    (spot : (bp, block) ∈ spots machine.origin blocks) :
    machine.headerAlloc bp = 1 ↔ block.isFree = false := by
  rw [tiled.headerAlloc spot]
  cases block.isFree <;> simp

theorem Tiled.epilogue_header (tiled : Tiled machine blocks) :
    machine.load (machine.memBrk - 4) = pack 0 1 := by
  rw [← tiled.epilogue, tiled.extent]
  congr 1
  omega

/-- The walk visits the payload addresses of the blocks. -/
theorem Tiled.walk (tiled : Tiled machine (front ++ back)) :
    machine.Walk (machine.origin + total front + 4)
      ((spots (machine.origin + total front) back).map Prod.fst) machine.memBrk := by
  induction back generalizing front with
  | nil =>
      have stop : machine.origin + total front + 4 = machine.memBrk := by
        rw [tiled.extent, List.append_nil, Machine.origin]
        omega
      rw [stop]
      refine .stop ?_
      rw [Machine.headerSize, tiled.epilogue_header]
      rfl
  | cons block back induction =>
      have spot : (machine.origin + total front + 4, block) ∈
          spots machine.origin (front ++ block :: back) :=
        mem_spots.mpr ⟨front, back, rfl, rfl⟩
      have size := tiled.headerSize spot
      have positive := block.size_ge
      have split : front ++ block :: back = (front ++ [block]) ++ back := by simp
      have later := induction (split ▸ tiled)
      simp only [total_append, total_cons, total_nil, Nat.add_zero] at later
      refine .step (by rw [size]; omega) ?_
      have address : machine.origin + total front + 4 + machine.headerSize
          (machine.origin + total front + 4) = machine.origin + (total front + block.size) + 4 := by
        rw [size]
        omega
      rw [address, Nat.add_assoc machine.origin (total front) block.size]
      exact later

theorem Tiled.sizes_sum (tiled : Tiled machine (front ++ back)) :
    (((spots (machine.origin + total front) back).map Prod.fst).map machine.headerSize).sum =
      total back := by
  induction back generalizing front with
  | nil => rfl
  | cons block back induction =>
      have spot : (machine.origin + total front + 4, block) ∈
          spots machine.origin (front ++ block :: back) :=
        mem_spots.mpr ⟨front, back, rfl, rfl⟩
      have split : front ++ block :: back = (front ++ [block]) ++ back := by simp
      have later := induction (split ▸ tiled)
      simp only [total_append, total_cons, total_nil, Nat.add_zero] at later
      rw [spots_cons, List.map_cons, List.map_cons, List.sum_cons, tiled.headerSize spot,
        Nat.add_assoc machine.origin (total front) block.size, later, total_cons]

theorem Tiled.visited_chain (tiled : Tiled machine (front ++ back)) (coalesced : Coalesced back) :
    ((spots (machine.origin + total front) back).map Prod.fst).IsChain fun left right =>
      machine.headerAlloc left = 1 ∨ machine.headerAlloc right = 1 := by
  induction back generalizing front with
  | nil => exact .nil
  | cons block back induction =>
      have split : front ++ block :: back = (front ++ [block]) ++ back := by simp
      have later := induction (split ▸ tiled) (List.isChain_cons.mp coalesced).2
      simp only [total_append, total_cons, total_nil, Nat.add_zero] at later
      rw [spots_cons, List.map_cons, Nat.add_assoc machine.origin (total front) block.size]
      refine later.cons fun next member => ?_
      rcases back with _ | ⟨right, back⟩
      · simp at member
      · simp only [spots_cons, List.map_cons, List.head?_cons, Option.mem_some] at member
        subst member
        have here : (machine.origin + total front + 4, block) ∈
            spots machine.origin (front ++ block :: right :: back) :=
          mem_spots.mpr ⟨front, right :: back, rfl, rfl⟩
        have beside : (machine.origin + (total front + block.size) + 4, right) ∈
            spots machine.origin (front ++ block :: right :: back) :=
          mem_spots.mpr ⟨front ++ [block], back, by simp, by simp⟩
        rw [tiled.headerAlloc_eq_one here, tiled.headerAlloc_eq_one beside]
        exact (List.isChain_cons_cons.mp coalesced).1

end Tiled

namespace Procedures

variable {Statics Index : Type} {package : Procedures Statics Index}
  {client : Client Statics} {layout : Layout Index}

/-- The payload addresses of the blocks a represented heap consists of. -/
def visited (package : Procedures Statics Index) (machine : Machine Statics)
    (layout : Layout Index) : List Nat :=
  (spots machine.origin (package.prologue :: layout.blocks)).map Prod.fst

theorem coalesced_prologue (serves : package.Serves client layout) :
    Coalesced (package.prologue :: layout.blocks) := by
  refine serves.holds.wellFormed.coalesced.cons fun _ _ => .inl ?_
  exact isFree_of_sentinel serves.holds.sentinel

/-- A block that the walk visits is the prologue or one of the represented
blocks, which are free or live. -/
theorem visited_cases {bp : Nat} (machine : Machine Statics)
    (member : bp ∈ package.visited machine layout) :
    bp = machine.origin + 4 ∨
      ∃ block, (bp, block) ∈ spots (package.base machine) layout.blocks := by
  rcases List.mem_map.mp member with ⟨⟨address, block⟩, spot, rfl⟩
  rcases List.mem_cons.mp spot with same | inside
  · cases same
    exact .inl rfl
  · exact .inr ⟨block, inside⟩

/-- What a represented block looks like in memory. -/
theorem Serves.block_facts (serves : package.Serves client layout) {bp : Nat} {block : Block}
    (spot : (bp, block) ∈ spots (package.base client.machine) layout.blocks) :
    client.machine.headerSize bp = block.size ∧ 16 ≤ block.size ∧
      bp ≠ client.machine.memStartBrk + 8 ∧
      (client.machine.headerAlloc bp = 1 ↔ bp ∈ client.live.map Prod.fst) := by
  have tiled := serves.holds.threaded.tiled
  have inHeap : (bp, block) ∈
      spots client.machine.origin (package.prologue :: layout.blocks) :=
    List.mem_cons_of_mem _ spot
  have bounds := spot_bounds spot
  have positive := package.prologue.size_ge
  have proper : block.usage ≠ .sentinel := by
    rcases mem_spots.mp spot with ⟨front, back, shape, _⟩
    exact serves.holds.wellFormed.proper block (by rw [shape]; simp)
  simp only [base, Machine.first, Machine.origin] at bounds
  have isLive : bp ∈ client.live.map Prod.fst ↔ ∃ request, block.request? = some request := by
    constructor
    · intro member
      rcases List.mem_map.mp member with ⟨⟨address, request⟩, listed, rfl⟩
      rcases mem_liveSpots.mp (serves.live.mem_iff.mp listed) with ⟨owner, ownerSpot, live⟩
      exact ⟨request, spot_unique ownerSpot spot ▸ live⟩
    · rintro ⟨request, live⟩
      have listed := mem_liveSpots.mpr ⟨block, spot, live⟩
      exact List.mem_map.mpr ⟨_, serves.live.mem_iff.mpr listed, rfl⟩
  refine ⟨tiled.headerSize inHeap, ?_, by omega, ?_⟩
  · have fits := block.fits
    cases usage : block.usage with
    | free =>
        rw [usage] at fits
        exact fits
    | live request =>
        rw [usage] at fits
        exact (Nat.le_max_left 16 _).trans fits
    | sentinel => exact absurd usage proper
  · rw [tiled.headerAlloc_eq_one inHeap, isLive]
    cases usage : block.usage with
    | free => simp [Block.isFree, Block.request?, usage]
    | live request => simp [Block.isFree, Block.request?, usage]
    | sentinel => exact absurd usage proper

/-- A block of the client is one of the represented blocks. -/
theorem Serves.live_facts (serves : package.Serves client layout) {spot : Nat × Nat}
    (member : spot ∈ client.live) :
    ∃ block, (spot.1, block) ∈ spots (package.base client.machine) layout.blocks ∧
      client.machine.headerSize spot.1 = block.size ∧ spot.2 + 8 ≤ block.size := by
  rcases mem_liveSpots.mp (serves.live.mem_iff.mp member) with ⟨block, inHeap, live⟩
  exact ⟨block, inHeap, (serves.block_facts inHeap).1, (Block.size_ge_of_live live).2⟩

/-- The heap of a served client is tiled by what the walk visits. -/
theorem Serves.heapTiled (serves : package.Serves client layout) :
    client.machine.HeapTiled (client.machine.memStartBrk + 8) package.prologue.size client.live
      (package.visited client.machine layout) := by
  have tiled : Tiled client.machine ([] ++ (package.prologue :: layout.blocks)) :=
    serves.holds.threaded.tiled
  have extent := tiled.extent
  have coalesced := coalesced_prologue serves
  have prologueSpot : (client.machine.origin + 4, package.prologue) ∈
      spots client.machine.origin ([] ++ package.prologue :: layout.blocks) := List.mem_cons_self
  have prologueUsed := isFree_of_sentinel serves.holds.sentinel
  have start : client.machine.origin + total [] + 4 = client.machine.memStartBrk + 8 := rfl
  constructor
  · rfl
  · exact tiled.headerSize prologueSpot
  · exact start ▸ tiled.walk
  · rw [Machine.headerAlloc, tiled.epilogue_header]
    rfl
  · have sum := tiled.sizes_sum
    unfold visited
    rw [total_nil, Nat.add_zero] at sum
    rw [sum, extent]
    rfl
  · intro bp member
    rcases List.mem_map.mp member with ⟨⟨address, block⟩, spot, rfl⟩
    rw [serves.holds.threaded.tiled.headerSize spot]
    exact block.aligned
  · intro bp member notPrologue
    rcases visited_cases client.machine member with rfl | ⟨block, spot⟩
    · exact absurd rfl notPrologue
    · have facts := serves.block_facts spot
      rw [facts.1]
      exact facts.2.1
  · intro bp member
    rcases List.mem_map.mp member with ⟨⟨address, block⟩, spot, rfl⟩
    have here := serves.holds.threaded.tiled.blockAt spot
    rw [serves.holds.threaded.tiled.headerSize spot]
    exact here.footer.trans here.header.symm
  · exact (tiled.headerAlloc_eq_one prologueSpot).mpr prologueUsed
  · intro bp member notPrologue
    rcases visited_cases client.machine member with rfl | ⟨block, spot⟩
    · exact absurd rfl notPrologue
    · exact (serves.block_facts spot).2.2.2
  · intro spot member
    rcases serves.live_facts member with ⟨block, inHeap, _⟩
    refine ⟨List.mem_map.mpr ⟨_, List.mem_cons_of_mem _ inHeap, rfl⟩, ?_⟩
    exact (serves.block_facts inHeap).2.2.1
  · exact serves.nodup
  · intro spot member
    rcases serves.live_facts member with ⟨block, _, size, fits⟩
    rw [size]
    unfold dsize
    omega
  · intro first firstMember second secondMember different
    rcases serves.live_facts firstMember with ⟨left, leftSpot, leftSize, _⟩
    rcases serves.live_facts secondMember with ⟨right, rightSpot, rightSize, _⟩
    have apart := spots_apart leftSpot rightSpot different
    rw [leftSize, rightSize]
    omega
  · have chain := tiled.visited_chain coalesced
    rwa [total_nil, Nat.add_zero] at chain

end Procedures

end MallocLab
