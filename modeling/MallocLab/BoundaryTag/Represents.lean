import MallocLab.BoundaryTag.Settle

/-! # A machine that represents a heap

The invariant of the packages, and how freeing and extending the heap keep it.
-/

namespace MallocLab

open Program Blocks

variable {Statics Index : Type} {policy : Policy Index} {lists : FreeIndex Statics Index}
  {prologue : Block} {machine middle other : Machine Statics} {layout : Layout Index}
  {blocks front back : List Block} {block : Block} {index : Index} {bp : Nat}

/-- The tags and the lists of a machine are those of a well-formed heap behind
the prologue. -/
structure Represents (policy : Policy Index) (lists : FreeIndex Statics Index)
    (prologue : Block) (machine : Machine Statics) (layout : Layout Index) : Prop where
  sentinel : prologue.usage = .sentinel
  threaded : Threaded lists machine (prologue :: layout.blocks) layout.index
  wellFormed : layout.WellFormed policy (machine.first prologue)

/-- The arena and every byte of a live payload stay, wherever the break goes. -/
structure Preserves (blocks : List Block) (machine other : Machine Statics) : Prop where
  memStartBrk : other.memStartBrk = machine.memStartBrk
  memMaxAddr : other.memMaxAddr = machine.memMaxAddr
  live : ∀ address, InLivePayload machine.origin blocks address →
    other.bytes address = machine.bytes address

theorem Keeps.preserves (keeps : Keeps blocks machine other) : Preserves blocks machine other :=
  ⟨keeps.arena.memStartBrk, keeps.arena.memMaxAddr, keeps.live⟩

namespace Preserves

theorem refl (blocks : List Block) (machine : Machine Statics) :
    Preserves blocks machine machine := ⟨rfl, rfl, fun _ _ => rfl⟩

theorem origin (preserves : Preserves blocks machine other) : other.origin = machine.origin := by
  simp [Machine.origin, preserves.memStartBrk]

theorem first (preserves : Preserves blocks machine other) :
    other.first prologue = machine.first prologue := by
  simp [Machine.first, preserves.origin]

theorem trans {after : List Block} (earlier : Preserves blocks machine middle)
    (later : Preserves after middle other)
    (payload : ∀ address, InLivePayload machine.origin blocks address →
      InLivePayload machine.origin after address) : Preserves blocks machine other where
  memStartBrk := later.memStartBrk.trans earlier.memStartBrk
  memMaxAddr := later.memMaxAddr.trans earlier.memMaxAddr
  live := fun address inside => by
    rw [later.live address (by
      rw [earlier.origin]
      exact payload address inside)]
    exact earlier.live address inside

end Preserves

/-- The prologue is no client's. -/
theorem inLivePayload_prologue (sentinel : prologue.usage = .sentinel) {cursor address : Nat} :
    InLivePayload cursor (prologue :: blocks) address ↔
      InLivePayload (cursor + prologue.size) blocks address := by
  have idle : prologue.request? = none := by simp [Block.request?, sentinel]
  simp [InPayload, idle]

theorem Keeps.first (keeps : Keeps blocks machine other) :
    other.first prologue = machine.first prologue := keeps.preserves.first

/-- Settling a loose block gives a machine that represents the settled heap. -/
theorem Loose.represents (lawful : policy.Lawful)
    (loose : Loose policy lists machine prologue front block back index)
    (frontProper : ∀ other ∈ front, other.usage ≠ .sentinel)
    (backProper : ∀ other ∈ back, other.usage ≠ .sentinel)
    (settled : Settled policy lists machine prologue front block back index other) :
    Represents policy lists prologue other
      (Layout.settle policy (machine.first prologue) front block back index) where
  sentinel := loose.sentinel
  threaded := settled.1
  wellFormed := by
    rw [settled.2.first]
    exact Layout.settle_wellFormed lawful loose.isFree frontProper backProper
      loose.frontCoalesced loose.backCoalesced loose.exact loose.ordered

theorem Represents.sized (represents : Represents policy lists prologue machine layout) :
    Indexed policy lists machine (prologue :: layout.blocks) layout.index where
  threaded := represents.threaded
  ordered := represents.wellFormed.ordered
  sized := by
    intro entry member
    rw [freeSpots_prologue represents.sentinel]
    exact represents.wellFormed.exact.mem_iff.mp member

/-- The nodes of the lists lie apart from blocks that are not listed. -/
theorem Represents.apart {addBlock : Nat → Nat → Program (Machine Statics) Unit}
    {removeBlock : Nat → Program (Machine Statics) Unit}
    (implements : Implements policy lists addBlock removeBlock)
    (known : ∀ entry ∈ policy.entries index,
      entry ∈ freeSpots (machine.first prologue) front ++
        freeSpots (machine.first prologue + total front + block.size) back) :
    ∀ node ∈ lists.nodes machine index, ∀ owner,
      (node, owner) ∉ spots (machine.origin + total (prologue :: front)) [block] := by
  intro node member owner spot
  simp only [spots_cons, spots_nil, List.mem_singleton, Prod.mk.injEq, total_cons] at spot
  have positive := prologue.size_ge
  have blockPositive := block.size_ge
  unfold Machine.first at known
  rcases implements.nodes member with rfl | listed
  · omega
  · rcases List.mem_map.mp listed with ⟨⟨address, size⟩, inside, rfl⟩
    simp only at spot
    rcases List.mem_append.mp (known _ inside) with inFront | inBack
    · rcases mem_freeSpots.mp inFront with ⟨free, freeSpot, _, _⟩
      have bounds := spot_bounds freeSpot
      have freePositive := free.size_ge
      omega
    · rcases mem_freeSpots.mp inBack with ⟨free, freeSpot, _, _⟩
      have bounds := spot_bounds freeSpot
      omega

/-! ## Freeing -/

/-- `mm_free` on a live block releases it. -/
theorem Represents.free {coalesce : Nat → Program (Machine Statics) Nat}
    {addBlock : Nat → Nat → Program (Machine Statics) Unit}
    {removeBlock : Nat → Program (Machine Statics) Unit}
    (rules : Coalesces coalesce addBlock removeBlock)
    (lawful : policy.Lawful) (implements : Implements policy lists addBlock removeBlock)
    (represents : Represents policy lists prologue machine layout) {address request : Nat}
    (live : (address, request) ∈ liveSpots (machine.first prologue) layout.blocks) :
    Ensures (freeWith coalesce address) machine fun _ other =>
      Represents policy lists prologue other
          (layout.release policy (machine.first prologue) address) ∧
        Keeps (prologue :: (layout.release policy (machine.first prologue) address).blocks)
          machine other := by
  obtain ⟨front, block, back, shape, position, isLive, released⟩ :
      ∃ front block back, layout.blocks = front ++ block :: back ∧
        address = machine.first prologue + total front + 4 ∧ block.request? = some request ∧
        layout.release policy (machine.first prologue) address =
          Layout.settle policy (machine.first prologue) front block.release back layout.index :=
    Layout.release_shape live
  rcases layout with ⟨blocks, index⟩
  subst shape
  rw [released]
  have wellFormed := represents.wellFormed
  rcases wellFormed.cut_spot with ⟨frontCoalesced, backCoalesced, frontProper, backProper⟩
  have large := (Block.size_ge_of_live isLive).1
  have given := Block.release_of_large large
  have used : block.isFree = false := Block.isFree_of_live isLive
  have exact := wellFormed.used_exact used
  have tiled := represents.threaded.tiled
  have cutBlocks : prologue :: (front ++ block :: back) =
      (prologue :: front) ++ ([block] ++ back) := by simp
  have whole : address = machine.origin + total (prologue :: front) + 4 := by
    rw [position, total_cons, Machine.first]
    omega
  have spot : (address, block) ∈ spots machine.origin (prologue :: (front ++ block :: back)) :=
    mem_spots.mpr ⟨prologue :: front, back, by simp, whole⟩
  have here := tiled.blockAt spot
  have small : block.size < 2 ^ 31 := tiled.size_lt (by simp)
  have stamps : Ensures (do put (hdrp address) (pack block.size 0)
                            put (← ftrp address) (pack block.size 0)) machine
      fun _ other => Stamped machine other address block.release :=
    ensures_stamp (by omega) (by omega) (Block.tag_eq_pack given.2 given.1) here.ownsHeader
      (given.1 ▸ here.ownsFooter)
  simp only [freeWith, ensures_bind, ensures_getSize, hdrp_eq, here.header, here.size,
    ensures_pure] at stamps ⊢
  refine ⟨here.ownsHeader, stamps.mono fun _ first headerDone =>
    headerDone.mono fun _ second footerFound => footerFound.mono fun _ middle stamped => ?_⟩
  have retagged : Threaded lists middle
      ((prologue :: front) ++ ([block.release] ++ back)) index := by
    have threaded := represents.threaded
    rw [cutBlocks] at threaded
    refine threaded.merge stamped whole (by simp [given.1]) ?_
    exact Represents.apart implements fun entry member => exact.mem_iff.mp member
  have keeps : Keeps ((prologue :: front) ++ ([block.release] ++ back)) machine middle := by
    apply Keeps.of_outside stamped.arena
    · simp [Block.request?_of_isFree given.2]
    · intro byte away
      exact (stamped.one whole).outside byte away
  have loose : Loose policy lists middle prologue front block.release back index := by
    refine ⟨represents.sentinel, by simpa using retagged, given.2, frontCoalesced,
      backCoalesced, wellFormed.ordered, ?_⟩
    rw [keeps.first, given.1]
    exact exact
  refine (rules.settles lawful implements loose (by rw [keeps.first, position])).mono
    fun _ final => ?_
  rintro ⟨_, settled⟩
  have result := loose.represents lawful frontProper backProper settled
  rw [keeps.first] at result
  refine ⟨result, ?_⟩
  have combined := keeps.trans settled.2 fun _ inside => by simpa using inside
  refine ⟨combined.arena, fun byte inside => combined.live byte ?_⟩
  rw [inLivePayload_prologue represents.sentinel] at inside
  rw [List.cons_append, inLivePayload_prologue represents.sentinel]
  exact (inLivePayload_settle given.2).mp inside

/-! ## Extending the heap -/

/-- The heap after new space behind it was made a free block. -/
theorem Threaded.extend (threaded : Threaded lists machine blocks index)
    (block : Block) (position : bp = machine.origin + total blocks + 4)
    (room : machine.memBrk + block.size ≤ machine.memMaxAddr) :
    Threaded lists ((((machine.setBrk (machine.memBrk + block.size)).store (bp - 4)
          block.tag).store (bp + block.size - 8) block.tag).store (bp + block.size - 4)
          (pack 0 1)) (blocks ++ [block]) index ∧
      Preserves blocks machine ((((machine.setBrk (machine.memBrk + block.size)).store (bp - 4)
          block.tag).store (bp + block.size - 8) block.tag).store (bp + block.size - 4)
          (pack 0 1)) := by
  have tiled := threaded.tiled
  have extent := tiled.extent
  have inArena := tiled.brkInArena
  have arena := tiled.arena
  have addressable := tiled.addressable
  have positive := block.size_ge
  have word : block.size < 2 ^ 32 := by omega
  have tag := block.tag_lt word
  unfold Machine.origin at position
  generalize changed : ((((machine.setBrk (machine.memBrk + block.size)).store (bp - 4)
    block.tag).store (bp + block.size - 8) block.tag).store (bp + block.size - 4)
    (pack 0 1)) = final
  have start : final.memStartBrk = machine.memStartBrk := by rw [← changed]; rfl
  have below : ∀ address, address < bp - 4 → final.bytes address = machine.bytes address := by
    intro address low
    rw [← changed, Machine.store_bytes_of_outside _ _ (by omega),
      Machine.store_bytes_of_outside _ _ (by omega),
      Machine.store_bytes_of_outside _ _ (by omega), Machine.setBrk_bytes]
  have header : final.load (bp - 4) = block.tag := by
    rw [← changed, Machine.load_store_of_disjoint _ _ (by omega),
      Machine.load_store_of_disjoint _ _ (by omega), Machine.load_store_same _ _ tag]
  have footer : final.load (bp + block.size - 8) = block.tag := by
    rw [← changed, Machine.load_store_of_disjoint _ _ (by omega),
      Machine.load_store_same _ _ tag]
  have epilogue : final.load (bp + block.size - 4) = pack 0 1 := by
    rw [← changed, Machine.load_store_same _ _ (by decide)]
  refine ⟨⟨⟨?_, ?_, ?_, ?_, ?_, ?_, ?_⟩, ?_, ?_⟩, start, ?_, ?_⟩
  · rw [start]
    exact tiled.startAligned
  · rw [← changed]
    exact arena
  · rw [← changed]
    exact addressable
  · rw [← changed]
    exact room
  · rw [← changed]
    simp only [Machine.store_memBrk, Machine.setBrk_memBrk, Machine.store_memStartBrk,
      Machine.setBrk_memStartBrk, total_append, total_cons, total_nil]
    omega
  · rw [start, Tags.append, tags_singleton]
    refine ⟨?_, ?_, ?_⟩
    · exact tiled.tags.congr fun address _ high _ => below address (by omega)
    · rw [← header]
      unfold Machine.load
      congr 1
      omega
    · rw [← footer]
      unfold Machine.load
      congr 1
      omega
  · rw [← epilogue, start]
    congr 1
    simp only [total_append, total_cons, total_nil]
    omega
  · intro node member
    rw [lists.nodes_same start] at member
    rcases threaded.members node member with ⟨owner, spot, rest⟩
    refine ⟨owner, ?_, rest⟩
    simp only [Machine.origin, start, spots_append, List.mem_append]
    exact .inl spot
  · apply lists.holds_same start (by rw [← changed]; rfl) _ threaded.holds
    intro node member address low high
    have bounds := threaded.node_bounds member
    exact below address (by omega)
  · rw [← changed]
    rfl
  · intro address inside
    have bounds := inPayload_bounds inside
    unfold Machine.origin at bounds
    exact below address (by omega)

/-- `extend_heap` makes a free block of the new space and coalesces it. -/
theorem ensures_extendHeapWith {coalesce : Nat → Program (Machine Statics) Nat}
    {goal : Nat → Machine Statics → Prop} (threaded : Threaded lists machine blocks index)
    {block : Block} (isFree : block.isFree = true) (small : block.size < 2 ^ 31)
    (position : bp = machine.origin + total blocks + 4)
    (room : machine.memBrk + block.size ≤ machine.memMaxAddr)
    (coalesced : ∀ middle, Threaded lists middle (blocks ++ [block]) index →
      Preserves blocks machine middle → Ensures (coalesce bp) middle goal) :
    Ensures (extendHeapWith coalesce block.size) machine goal := by
  have extended := threaded.extend block position room
  have tiled := threaded.tiled
  have extent := tiled.extent
  have addressable := tiled.addressable
  have large := Block.size_ge_of_isFree isFree
  have start : bp = machine.memBrk := by
    rw [position, extent, Machine.origin]
    omega
  have nextBrk : machine.nextBrk (toInt block.size) = machine.memBrk + block.size := by
    rw [Machine.nextBrk, toInt_of_lt small, Int.toNat_natCast, wrap_of_lt (by omega)]
  have granted : ¬machine.memBrk = sbrkFailed := by
    unfold sbrkFailed
    omega
  have incr : (0 : Int) ≤ toInt block.size := by
    rw [toInt_of_lt small]
    omega
  have word : block.size < 2 ^ 32 := by omega
  have tagged : pack block.size 0 = block.tag := (Block.tag_of_isFree isFree).symm
  have header : ∀ changed : Machine Statics,
      (changed.store (bp - 4) block.tag).load (bp - 4) = block.tag :=
    fun changed => changed.load_store_same _ (block.tag_lt word)
  have kept : ∀ changed : Machine Statics,
      ((changed.store (bp - 4) block.tag).store (bp + block.size - 8) block.tag).load (bp - 4) =
        block.tag := by
    intro changed
    rw [Machine.load_store_of_disjoint _ _ (by omega), header]
  simp only [extendHeapWith, ensures_bind]
  rw [memSbrk_granted incr (by rw [nextBrk]; exact room), nextBrk, if_neg granted, ← start]
  simp only [ensures_bind, hdrp_eq, ensures_put, ensures_ftrp, ensures_nextBlkp, tagged, header,
    kept, block.sizeField_tag word]
  rw [start] at extended ⊢
  simp only [Machine.Owns, Machine.store_memStartBrk, Machine.setBrk_memStartBrk,
    Machine.store_memBrk, Machine.setBrk_memBrk]
  refine ⟨by omega, by omega, by omega, by omega, by omega, ?_⟩
  have done := coalesced _ extended.1 extended.2
  rwa [start] at done

/-- A size that has no place in the arena leaves the heap as it is. -/
theorem extendHeapWith_refused {coalesce : Nat → Program (Machine Statics) Nat}
    {goal : Nat → Machine Statics → Prop} {size : Nat} (word : size < 2 ^ 32)
    (refused : size < 2147483648 →
      machine.memBrk + size < 2 ^ 32 ∧ machine.memMaxAddr < machine.memBrk + size)
    (unchanged : goal null machine) :
    Ensures (extendHeapWith coalesce size) machine goal := by
  simp only [extendHeapWith, ensures_bind]
  rw [memSbrk_refused]
  · simpa using unchanged
  · rcases Nat.lt_or_ge size 2147483648 with small | large
    · right
      rw [Machine.nextBrk, toInt_of_lt small, Int.toNat_natCast,
        wrap_of_lt (refused small).1]
      exact (refused small).2
    · exact .inl (toInt_neg large word)

end MallocLab
