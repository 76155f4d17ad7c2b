import MallocLab.BoundaryTag.Place

/-! # The packages refine the abstract allocator

A package is a choice of the procedures that the shared ones are built from.
When these are correct, `mm_malloc`, `mm_free` and `mm_realloc` do to memory
what the abstract allocator does to the heap.
-/

namespace MallocLab

open Program Blocks

/-- The procedures and the intended policy of one package. -/
structure Procedures (Statics Index : Type) where
  policy : Policy Index
  lists : FreeIndex Statics Index
  prologue : Block
  addBlock : Nat → Nat → Program (Machine Statics) Unit
  removeBlock : Nat → Program (Machine Statics) Unit
  coalesce : Nat → Program (Machine Statics) Nat
  extendHeap : Nat → Program (Machine Statics) Nat
  findFit : Nat → Program (Machine Statics) Nat
  place : Nat → Nat → Program (Machine Statics) Unit
  adjust : Nat → Nat

namespace Procedures

variable {Statics Index : Type} (package : Procedures Statics Index)

def mmMalloc : Nat → Program (Machine Statics) Nat :=
  mallocWith package.adjust package.findFit package.extendHeap package.place

def mmFree : Nat → Program (Machine Statics) Unit := freeWith package.coalesce

def mmRealloc : Nat → Nat → Program (Machine Statics) Nat :=
  reallocWith package.mmMalloc package.mmFree

/-- The heap a machine of this package represents. -/
abbrev Holds (machine : Machine Statics) (layout : Layout Index) : Prop :=
  Represents package.policy package.lists package.prologue machine layout

/-- The bytes of the arena that are left for blocks. -/
def room : Nat := maxHeap - 8 - package.prologue.size

/-- Where the payload addresses of a machine are counted from. -/
abbrev base (machine : Machine Statics) : Nat := machine.first package.prologue

abbrev malloc (machine : Machine Statics) (layout : Layout Index) (request : Nat) :
    Option Nat × Layout Index :=
  layout.malloc package.policy (package.base machine) package.room request

abbrev release (machine : Machine Statics) (layout : Layout Index) (address : Nat) :
    Layout Index := layout.release package.policy (package.base machine) address

abbrev realloc (machine : Machine Statics) (layout : Layout Index) (address request : Nat) :
    Option Nat × Layout Index :=
  layout.realloc package.policy (package.base machine) package.room address request

/-- What each procedure of a package has to achieve. -/
structure Correct : Prop where
  lawful : package.policy.Lawful
  implements : Implements package.policy package.lists package.addBlock package.removeBlock
  coalesces : Coalesces package.coalesce package.addBlock package.removeBlock
  places : Places package.policy package.lists package.prologue package.place
  extends_eq : ∀ {size : Nat}, size % 8 = 0 → size < 2 ^ 32 →
    package.extendHeap (size / 4) = extendHeapWith package.coalesce size
  finds : ∀ {machine : Machine Statics} {layout : Layout Index} (size : Nat),
    package.Holds machine layout → Ensures (package.findFit size) machine fun value other =>
      value = (package.policy.find layout.index size).getD null ∧ other = machine
  adjusts : ∀ {request : Nat}, 0 < request → request < 2 ^ 31 →
    package.adjust request = roundUp request

variable {package}
variable {machine other : Machine Statics} {layout : Layout Index} {request address : Nat}

/-- The heap ends as far behind its start as its blocks reach. -/
theorem Holds.extent (holds : package.Holds machine layout) :
    machine.memBrk = machine.memStartBrk + 8 + package.prologue.size + total layout.blocks := by
  rw [holds.threaded.tiled.extent, total_cons]
  omega

theorem extension_eq (request : Nat) :
    max' (roundUp request) chunkSize = extension request := by
  have chunk : chunkSize = 4096 := rfl
  rw [chunk, max', extension]
  split <;> omega

/-- `ALIGN(size + DSIZE)` is the size of the block that serves a request. -/
theorem align_eq_roundUp (positive : 0 < request) (small : request < 2 ^ 31) :
    align (request + dsize) = roundUp request := by
  rw [dsize, align_eq (by omega), roundUp]
  omega

/-- An even number of words is not rounded up. -/
theorem even_words {size : Nat} (aligned : size % 8 = 0) (word : size < 2 ^ 32) :
    (if (size / 4) &&& 1 ≠ 0 then wrap (wrap (size / 4 + 1) * wsize)
      else wrap (size / 4 * wsize)) = size := by
  have even : (size / 4) &&& 1 = 0 := by
    rw [Nat.and_one_is_mod]
    omega
  rw [if_neg (by simp [even]), wrap_of_lt (by unfold wsize; omega)]
  unfold wsize
  omega

theorem extension_lt (small : request < 2 ^ 31) : extension request < 2 ^ 32 := by
  unfold extension roundUp
  omega

/-- `extend_heap` in a represented heap grows it. -/
theorem Correct.extend (correct : package.Correct) (holds : package.Holds machine layout)
    {block : Block} (isFree : block.isFree = true)
    (room : machine.memBrk + block.size ≤ machine.memMaxAddr) :
    Ensures (extendHeapWith package.coalesce block.size) machine fun value other =>
      value = layout.growSpot (package.base machine) ∧
        package.Holds other (layout.grow package.policy (package.base machine) block) ∧
        Preserves (package.prologue :: layout.blocks) machine other := by
  have tiled := holds.threaded.tiled
  have arena := tiled.arena
  have extent := tiled.extent
  have small : block.size < 2 ^ 31 := by
    unfold maxHeap at arena
    omega
  apply ensures_extendHeapWith holds.threaded isFree small rfl room
  intro middle threaded preserves
  have base : middle.first package.prologue = package.base machine := preserves.first
  have loose : Loose package.policy package.lists middle package.prologue layout.blocks block []
      layout.index := by
    refine ⟨holds.sentinel, by simpa using threaded, isFree, holds.wellFormed.coalesced, .nil,
      holds.wellFormed.ordered, ?_⟩
    rw [base]
    simpa using holds.wellFormed.exact
  have position : machine.origin + total (package.prologue :: layout.blocks) + 4 =
      middle.first package.prologue + total layout.blocks + 4 := by
    rw [base, total_cons]
    simp only [Procedures.base, Machine.first]
    omega
  refine (correct.coalesces.settles correct.lawful correct.implements loose position).mono
    fun value final => ?_
  rintro ⟨spot, settled⟩
  have result := loose.represents correct.lawful holds.wellFormed.proper (by simp) settled
  rw [base] at result spot
  refine ⟨spot, result, preserves.trans settled.2.preserves fun byte inside => ?_⟩
  rw [inLivePayload_prologue holds.sentinel] at inside ⊢
  exact inPayload_append.mpr (.inl inside)

/-- `mm_init` extends an empty heap by one chunk. -/
theorem Correct.begin (correct : package.Correct) {empty : Index}
    (holds : package.Holds machine ⟨[], empty⟩)
    (room : machine.memBrk + 4096 ≤ machine.memMaxAddr) :
    Ensures (package.extendHeap (chunkSize / wsize)) machine fun value other => value ≠ null ∧
      package.Holds other (Layout.initial package.policy (package.base other) empty) ∧
      other.memStartBrk = machine.memStartBrk := by
  have words : chunkSize / wsize = chunk.size / 4 := rfl
  rw [words, correct.extends_eq chunk.aligned (by decide)]
  refine (correct.extend holds rfl room).mono fun value other => ?_
  rintro ⟨spot, result, preserves⟩
  have base : package.base other = package.base machine := preserves.first
  refine ⟨by rw [spot, Layout.growSpot]; unfold null; omega, ?_, preserves.memStartBrk⟩
  rwa [base, ← Layout.grow_empty]

/-- A request asks for no more space than the address space has left. -/
def NoWrap (package : Procedures Statics Index) (machine : Machine Statics)
    (layout : Layout Index) (request : Nat) : Prop :=
  request ≠ 0 → package.policy.find layout.index (roundUp request) = none →
  extension request < 2147483648 → machine.memBrk + extension request < 2 ^ 32

/-- A request that a listed block can serve. -/
theorem Correct.serve (correct : package.Correct) {front back : List Block} {block : Block}
    (holds : package.Holds machine layout) (shape : layout.blocks = front ++ block :: back)
    (isFree : block.isFree = true) (enough : roundUp request ≤ block.size)
    (position : address = package.base machine + total front + 4) :
    Ensures (do package.place address (roundUp request); return address) machine
      fun value other => value = address ∧
        package.Holds other
          (layout.serveAt package.policy (package.base machine) address request) ∧
        Preserves (package.prologue :: layout.blocks) machine other := by
  rcases layout with ⟨blocks, index⟩
  subst shape position
  have served : (⟨front ++ block :: back, index⟩ : Layout Index).serveAt package.policy
      (package.base machine) (package.base machine + total front + 4) request =
      Layout.allot package.policy (package.base machine) front block back index request := by
    rw [Layout.serveAt, cut_append]
  rw [served, ensures_bind]
  refine (correct.places holds isFree enough).mono fun _ other => ?_
  rintro ⟨represents, keeps⟩
  exact (ensures_pure _ _ _).mpr ⟨rfl, represents, keeps.preserves⟩

/-- A request for which the heap is extended. -/
theorem Correct.serveGrown (correct : package.Correct) (holds : package.Holds machine layout)
    (fits : total layout.blocks + extension request ≤ package.room) :
    Ensures (do
        let bp ← extendHeapWith package.coalesce (extension request)
        if bp = null then return null
        else do
          package.place bp (roundUp request)
          return bp) machine
      fun value other => value = layout.growSpot (package.base machine) ∧
        package.Holds other ((layout.grow package.policy (package.base machine)
          (fresh (extension request) (extension_aligned request)
            (extension_ge request))).serveAt package.policy (package.base machine)
              (layout.growSpot (package.base machine)) request) ∧
        Preserves (package.prologue :: layout.blocks) machine other := by
  generalize isFresh : fresh (extension request) (extension_aligned request)
    (extension_ge request) = block
  have size : block.size = extension request := by rw [← isFresh]; rfl
  have isFree : block.isFree = true := by rw [← isFresh]; rfl
  have arena := holds.threaded.tiled.arena
  have extent := Holds.extent holds
  have ge := extension_ge request
  have roomLeft : machine.memBrk + block.size ≤ machine.memMaxAddr := by
    unfold room maxHeap at fits
    unfold maxHeap at arena
    omega
  rw [← size, ensures_bind]
  refine (correct.extend holds isFree roomLeft).mono fun bp middle => ?_
  rintro ⟨spot, grown, preserves⟩
  have spotPositive : bp ≠ null := by
    rw [spot, Layout.growSpot]
    unfold null
    omega
  have base : package.base middle = package.base machine := preserves.first
  rw [if_neg spotPositive]
  refine (correct.serve grown rfl (by simpa using isFree) ?_ ?_).mono fun value final => ?_
  · rw [Block.absorb_size, size, extension]
    omega
  · rw [spot, Layout.growSpot, base]
  · rintro ⟨rfl, represents, kept⟩
    rw [base, spot] at represents
    refine ⟨spot, represents, preserves.trans kept fun byte inside => ?_⟩
    rw [inLivePayload_prologue holds.sentinel] at inside ⊢
    exact (inLivePayload_settle isFree).mpr (inPayload_append.mpr (.inl inside))

/-- `mm_malloc` does what the abstract allocator does. -/
theorem Correct.mmMalloc (correct : package.Correct) (holds : package.Holds machine layout)
    (small : request < 2 ^ 31) (noWrap : package.NoWrap machine layout request) :
    Ensures (package.mmMalloc request) machine fun value other =>
      value = (package.malloc machine layout request).1.getD null ∧
        package.Holds other (package.malloc machine layout request).2 ∧
        Preserves (package.prologue :: layout.blocks) machine other := by
  rcases Nat.eq_zero_or_pos request with rfl | positive
  · simp only [Procedures.mmMalloc, mallocWith, if_true, ensures_pure, malloc, Layout.malloc]
    exact ⟨rfl, holds, .refl _ _⟩
  · have nonzero : request ≠ 0 := by omega
    simp only [Procedures.mmMalloc, mallocWith, if_neg nonzero, ensures_bind,
      correct.adjusts positive small, extension_eq, malloc, Layout.malloc]
    refine (correct.finds (roundUp request) holds).mono fun value same => ?_
    rintro ⟨rfl, rfl⟩
    cases found : package.policy.find layout.index (roundUp request) with
    | some address =>
        rcases holds.wellFormed.find_some correct.lawful found with
          ⟨front, block, back, shape, position, isFree, enough⟩
        have spotPositive : address ≠ null := by
          unfold null
          omega
        simp only [Option.getD_some, if_pos spotPositive]
        refine (correct.serve holds shape isFree enough position).mono fun value other => ?_
        exact fun outcome => outcome
    | none =>
        simp only [Option.getD_none, ne_eq, not_true_eq_false, if_false, wsize]
        rw [correct.extends_eq (extension_aligned request) (extension_lt small)]
        by_cases fits : total layout.blocks + extension request ≤ package.room
        · rw [if_pos fits]
          exact correct.serveGrown holds fits
        · rw [if_neg fits, ensures_bind]
          have tiled := holds.threaded.tiled
          have extent := Holds.extent holds
          have arena := tiled.arena
          have inside := tiled.brkInArena
          apply extendHeapWith_refused (extension_lt small)
          · intro below
            refine ⟨noWrap nonzero found below, ?_⟩
            unfold room maxHeap at fits
            unfold maxHeap at arena
            omega
          · rw [if_pos rfl, ensures_pure]
            exact ⟨rfl, holds, .refl _ _⟩

/-- `mm_free` on a live block does what the abstract allocator does. -/
theorem Correct.mmFree (correct : package.Correct) (holds : package.Holds machine layout)
    (live : (address, request) ∈ liveSpots (package.base machine) layout.blocks) :
    Ensures (package.mmFree address) machine fun _ other =>
      package.Holds other (package.release machine layout address) ∧
        Keeps (package.prologue :: (package.release machine layout address).blocks)
          machine other :=
  Represents.free correct.coalesces correct.lawful correct.implements holds live

/-! ## Copying to a new block -/

/-- Two live blocks of a represented heap lie apart and inside the heap. -/
theorem Holds.apart (holds : package.Holds machine layout) {first second firstCount
    secondCount : Nat} {left right : Block}
    (firstSpot : (first, left) ∈ spots (package.base machine) layout.blocks)
    (secondSpot : (second, right) ∈ spots (package.base machine) layout.blocks)
    (distinct : first ≠ second) (firstInside : firstCount ≤ left.size)
    (secondInside : secondCount ≤ right.size) :
    machine.Owns first firstCount ∧ machine.Owns second secondCount ∧
      (first + firstCount ≤ second ∨ second + secondCount ≤ first) := by
  have firstBounds := spot_bounds firstSpot
  have secondBounds := spot_bounds secondSpot
  have extent := Holds.extent holds
  have apart := spots_apart firstSpot secondSpot distinct
  simp only [base, Machine.first, Machine.origin] at firstBounds secondBounds
  refine ⟨⟨by omega, by omega⟩, ⟨by omega, by omega⟩, by omega⟩

/-- Writing into live payloads leaves the represented heap as it is. -/
theorem Holds.write (holds : package.Holds machine layout) (same : SameArena machine other)
    (sameStatics : other.statics = machine.statics)
    (outside : ∀ byte, ¬InLivePayload (package.base machine) layout.blocks byte →
      other.bytes byte = machine.bytes byte) : package.Holds other layout := by
  have base : package.base other = package.base machine := by
    simp only [Procedures.base, Machine.first, same.origin]
  have changed : ∀ byte, ¬InLivePayload machine.origin (package.prologue :: layout.blocks) byte →
      other.bytes byte = machine.bytes byte := by
    intro byte notLive
    rw [inLivePayload_prologue holds.sentinel] at notLive
    exact outside byte notLive
  refine ⟨holds.sentinel, holds.threaded.frame same sameStatics ?_ ?_, ?_⟩
  · exact fun byte _ notInside => changed byte fun live => notInside (live.mono fun _ _ => trivial)
  · intro node member byte low high
    refine changed byte fun live => ?_
    have apart := holds.threaded.live_apart member live
    omega
  · rw [show other.first package.prologue = package.base machine from base]
    exact holds.wellFormed

end Procedures

theorem Blocks.live_range {cursor address request offset : Nat} {blocks : List Block}
    (live : (address, request) ∈ liveSpots cursor blocks) (inside : offset < request) :
    InLivePayload cursor blocks (address + offset) := by
  rcases mem_liveSpots.mp live with ⟨block, spot, isLive⟩
  have fits := (Block.size_ge_of_live isLive).2
  exact inPayload_iff.mpr ⟨address, block, spot, by simp [isLive], by omega, by omega⟩

theorem Preserves.sameRange {Statics : Type} {prologue : Block} {blocks : List Block}
    {machine other : Machine Statics} {address request : Nat}
    (preserves : Preserves (prologue :: blocks) machine other)
    (sentinel : prologue.usage = .sentinel)
    (live : (address, request) ∈ liveSpots (machine.first prologue) blocks) :
    SameRange machine other address request := by
  intro offset inside
  apply preserves.live
  rw [inLivePayload_prologue sentinel]
  exact live_range live inside

namespace Procedures

variable {Statics Index : Type} {package : Procedures Statics Index}
  {machine other : Machine Statics} {layout : Layout Index} {request address : Nat}

/-- What `mm_realloc` does to the bytes: the other live blocks keep theirs, and
the new block begins with the old contents as far as both requests reach. -/
structure Moved (machine other : Machine Statics) (live : List (Nat × Nat))
    (address oldRequest request : Nat) (result : Option Nat) : Prop where
  memStartBrk : other.memStartBrk = machine.memStartBrk
  memMaxAddr : other.memMaxAddr = machine.memMaxAddr
  others : ∀ spot ∈ live, spot.1 ≠ address → SameRange machine other spot.1 spot.2
  unmoved : result = none → SameRange machine other address oldRequest
  contents : ∀ moved, result = some moved → ∀ offset, offset < min oldRequest request →
    other.bytes (moved + offset) = machine.bytes (address + offset)

/-- Copying from an old live block to a new one and releasing the old one. -/
theorem Correct.copyOver (correct : package.Correct) (holds : package.Holds machine layout)
    {served oldRequest count : Nat} {oldBlock : Block} (distinct : served ≠ address)
    (new : (served, request) ∈ liveSpots (package.base machine) layout.blocks)
    (oldSpot : (address, oldBlock) ∈ spots (package.base machine) layout.blocks)
    (isOld : oldBlock.request? = some oldRequest) (countRequest : count ≤ request)
    (countOld : count ≤ oldBlock.size) :
    Ensures (do
        memcpy served address count
        package.mmFree address
        return served) machine fun value other =>
      value = served ∧ package.Holds other (package.release machine layout address) ∧
        other.memStartBrk = machine.memStartBrk ∧ other.memMaxAddr = machine.memMaxAddr ∧
        (∀ spot ∈ liveSpots (package.base machine) layout.blocks, spot.1 ≠ served →
          spot.1 ≠ address → SameRange machine other spot.1 spot.2) ∧
        ∀ offset, offset < count →
          other.bytes (served + offset) = machine.bytes (address + offset) := by
  rcases mem_liveSpots.mp new with ⟨newBlock, newSpot, isNew⟩
  have newFits := (Block.size_ge_of_live isNew).2
  have owned := Holds.apart holds newSpot oldSpot distinct
    (show count ≤ newBlock.size by omega) countOld
  have copied : package.Holds (machine.copy served address count) layout := by
    have same : SameArena machine (machine.copy served address count) := ⟨rfl, rfl, rfl⟩
    refine Holds.write holds same rfl fun byte notLive => ?_
    refine machine.bytes.copy_of_outside ?_
    by_contra inside
    apply notLive
    obtain ⟨offset, rfl⟩ := Nat.exists_eq_add_of_le (show served ≤ byte by omega)
    exact live_range new (by omega)
  simp only [ensures_bind, ensures_memcpy]
  refine ⟨owned.1, owned.2.1, owned.2.2, ?_⟩
  have old : (address, oldRequest) ∈ liveSpots (package.base machine) layout.blocks :=
    mem_liveSpots.mpr ⟨oldBlock, oldSpot, isOld⟩
  have old' : (address, oldRequest) ∈
      liveSpots (package.base (machine.copy served address count)) layout.blocks := old
  have released := Layout.release_live correct.lawful holds.wellFormed old
  refine (correct.mmFree copied old').mono fun _ other => ?_
  rintro ⟨holdsOther, keeps⟩
  rw [ensures_pure]
  have still : ∀ spot ∈ liveSpots (package.base machine) layout.blocks, spot.1 ≠ address →
      SameRange (machine.copy served address count) other spot.1 spot.2 := by
    intro spot member different
    refine keeps.preserves.sameRange holds.sentinel ?_
    rcases List.mem_cons.mp (released.2.mem_iff.mp member) with same | remains
    · exact absurd (congrArg Prod.fst same) different
    · exact remains
  refine ⟨rfl, holdsOther, keeps.arena.memStartBrk, keeps.arena.memMaxAddr, ?_, ?_⟩
  · intro spot member notNew different offset inside
    rw [still spot member different offset inside]
    refine machine.bytes.copy_of_outside ?_
    rcases mem_liveSpots.mp member with ⟨block, blockSpot, isLive⟩
    have fits := (Block.size_ge_of_live isLive).2
    have apart := spots_apart newSpot blockSpot notNew.symm
    omega
  · intro offset inside
    rw [still _ new distinct offset (by omega)]
    exact machine.bytes.copy_of_inside inside

/-- The second half of `mm_realloc`: the contents move to a new live block and
the old one is released. -/
theorem Correct.move (correct : package.Correct) (holds : package.Holds machine layout)
    {served oldRequest : Nat} (distinct : served ≠ address)
    (new : (served, request) ∈ liveSpots (package.base machine) layout.blocks)
    (old : (address, oldRequest) ∈ liveSpots (package.base machine) layout.blocks) :
    Ensures (do
        let blockSize ← getSize (hdrp address)
        let copySize := if request < blockSize then request else blockSize
        memcpy served address copySize
        package.mmFree address
        return served) machine fun value other =>
      value = served ∧ package.Holds other (package.release machine layout address) ∧
        Moved machine other
          ((liveSpots (package.base machine) layout.blocks).filter fun spot => spot.1 ≠ served)
          address oldRequest request (some served) := by
  rcases mem_liveSpots.mp old with ⟨oldBlock, oldSpot, isOld⟩
  have oldFits := (Block.size_ge_of_live isOld).2
  have here : BlockAt machine address oldBlock :=
    holds.threaded.tiled.blockAt (List.mem_cons_of_mem _ oldSpot)
  generalize amount : (if request < oldBlock.size then request else oldBlock.size) = count
  have countRequest : count ≤ request := by rw [← amount]; split <;> omega
  have countOld : count ≤ oldBlock.size := by rw [← amount]; split <;> omega
  have enough : min oldRequest request ≤ count := by rw [← amount]; split <;> omega
  have copies := correct.copyOver holds distinct new oldSpot isOld countRequest countOld
  rw [ensures_bind, ensures_getSize, hdrp_eq, here.header, here.size]
  simp only [amount]
  refine ⟨here.ownsHeader, copies.mono fun value other => ?_⟩
  rintro ⟨rfl, holdsOther, start, maxAddr, others, contents⟩
  refine ⟨rfl, holdsOther, start, maxAddr, ?_, ?_, ?_⟩
  · intro spot member different
    rcases List.mem_filter.mp member with ⟨listed, notNew⟩
    exact others spot listed (of_decide_eq_true notNew) different
  · intro impossible
    cases impossible
  · rintro moved result offset inside
    cases result
    exact contents offset (by omega)

/-- `mm_realloc` on a live block does what the abstract allocator does. -/
theorem Correct.mmRealloc (correct : package.Correct) (holds : package.Holds machine layout)
    (small : request < 2 ^ 31) (noWrap : package.NoWrap machine layout request)
    {oldRequest : Nat}
    (live : (address, oldRequest) ∈ liveSpots (package.base machine) layout.blocks) :
    Ensures (package.mmRealloc address request) machine fun value other =>
      value = (package.realloc machine layout address request).1.getD null ∧
        package.Holds other (package.realloc machine layout address request).2 ∧
        Moved machine other (liveSpots (package.base machine) layout.blocks) address oldRequest
          request (package.realloc machine layout address request).1 := by
  simp only [Procedures.mmRealloc, reallocWith, ensures_bind, realloc, Layout.realloc]
  refine (correct.mmMalloc holds small noWrap).mono fun value middle => ?_
  rintro ⟨rfl, holdsMiddle, preserves⟩
  cases outcome : package.malloc machine layout request with
  | mk result after =>
      rw [outcome] at holdsMiddle
      simp only [malloc] at outcome
      simp only [outcome]
      cases result with
      | none =>
          rw [Option.getD_none, if_pos rfl, ensures_pure]
          refine ⟨rfl, holdsMiddle, preserves.memStartBrk, preserves.memMaxAddr, ?_, ?_, ?_⟩
          · exact fun spot member _ => preserves.sameRange holds.sentinel member
          · exact fun _ => preserves.sameRange holds.sentinel live
          · exact fun _ impossible => by cases impossible
      | some served =>
          have base : package.base middle = package.base machine := preserves.first
          have added := (Layout.malloc_served correct.lawful holds.wellFormed outcome).2.1
          have nodup := (added.map Prod.fst).nodup (liveSpots_nodup _ _)
          simp only [List.map_cons, List.nodup_cons, List.mem_map, not_exists, not_and] at nodup
          have servedNew : ∀ spot ∈ liveSpots (package.base machine) layout.blocks,
              spot.1 ≠ served := nodup.1
          have distinct : served ≠ address := (servedNew _ live).symm
          have new : (served, request) ∈ liveSpots (package.base middle) after.blocks := by
            rw [base]
            exact added.mem_iff.mpr List.mem_cons_self
          have kept : ∀ spot ∈ liveSpots (package.base machine) layout.blocks,
              spot ∈ liveSpots (package.base middle) after.blocks := by
            intro spot member
            rw [base]
            exact added.mem_iff.mpr (List.mem_cons_of_mem _ member)
          have positive : served ≠ null := by
            rcases mem_liveSpots.mp new with ⟨block, spot, _⟩
            have bounds := spot_bounds spot
            unfold null
            omega
          rw [Option.getD_some, if_neg positive]
          refine (correct.move holdsMiddle distinct new (kept _ live)).mono fun value other => ?_
          rintro ⟨rfl, holdsOther, moved⟩
          rw [release, base] at holdsOther
          have unchanged : ∀ spot ∈ liveSpots (package.base machine) layout.blocks,
              SameRange machine middle spot.1 spot.2 :=
            fun spot member => preserves.sameRange holds.sentinel member
          refine ⟨rfl, holdsOther, moved.memStartBrk.trans preserves.memStartBrk,
            moved.memMaxAddr.trans preserves.memMaxAddr, ?_, ?_, ?_⟩
          · intro spot member different offset inside
            rw [moved.others spot _ different offset inside]
            · exact unchanged spot member offset inside
            · exact List.mem_filter.mpr ⟨kept spot member, by simpa using servedNew spot member⟩
          · intro impossible
            cases impossible
          · intro result same offset inside
            rw [moved.contents result same offset inside]
            exact unchanged _ live offset (by omega)

end Procedures

end MallocLab
