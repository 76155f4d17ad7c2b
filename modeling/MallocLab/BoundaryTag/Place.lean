import MallocLab.BoundaryTag.Represents

/-! # Placing a request in a free block -/

namespace MallocLab

open Program Blocks

variable {Statics Index : Type} {policy : Policy Index} {lists : FreeIndex Statics Index}
  {prologue : Block} {machine middle other : Machine Statics}
  {front back : List Block} {block live rest : Block} {index : Index} {bp request : Nat}

/-- A package's way to place a request allots the block. -/
def Places (policy : Policy Index) (lists : FreeIndex Statics Index) (prologue : Block)
    (place : Nat → Nat → Program (Machine Statics) Unit) : Prop :=
  ∀ {machine : Machine Statics} {front back : List Block} {block : Block} {index : Index}
    {request : Nat},
    Represents policy lists prologue machine ⟨front ++ block :: back, index⟩ →
    block.isFree = true → roundUp request ≤ block.size →
    Ensures (place (machine.first prologue + total front + 4) (roundUp request)) machine
      fun _ other =>
        Represents policy lists prologue other
            (Layout.allot policy (machine.first prologue) front block back index request) ∧
          Keeps (prologue :: (front ++ block :: back)) machine other

theorem Block.tag_eq_pack_used {size : Nat} (used : block.isFree = false)
    (same : block.size = size) : pack size 1 = block.tag := by
  rw [Block.tag_of_not_isFree used, same]

section Place

variable {addBlock : Nat → Nat → Program (Machine Statics) Unit}
  {removeBlock : Nat → Program (Machine Statics) Unit}

/-- What is known of a heap once the block to place in has left the lists. -/
structure Taken (policy : Policy Index) (lists : FreeIndex Statics Index) (prologue : Block)
    (machine : Machine Statics) (front : List Block) (block : Block) (back : List Block)
    (index : Index) : Prop where
  sentinel : prologue.usage = .sentinel
  threaded : Threaded lists machine ((prologue :: front) ++ ([block] ++ back)) index
  ordered : policy.Ordered index
  exact : (policy.entries index).Perm (freeSpots (machine.first prologue) front ++
    freeSpots (machine.first prologue + total front + block.size) back)

theorem Represents.take (lawful : policy.Lawful)
    (implements : Implements policy lists addBlock removeBlock)
    (represents : Represents policy lists prologue machine ⟨front ++ block :: back, index⟩)
    (isFree : block.isFree = true) (position : bp = machine.first prologue + total front + 4) :
    Ensures (removeBlock bp) machine fun _ middle =>
      Taken policy lists prologue middle front block back
          (policy.remove index (bp, block.size)) ∧
        Keeps (prologue :: (front ++ block :: back)) machine middle := by
  have free := represents.wellFormed.free_exact isFree
  rw [← position] at free
  have ordered := represents.wellFormed.ordered
  refine (represents.sized.remove lawful implements free.1).mono fun _ middle => ?_
  rintro ⟨indexed, keeps⟩
  refine ⟨⟨represents.sentinel, by simpa using indexed.threaded, indexed.ordered, ?_⟩, keeps⟩
  rw [keeps.first]
  exact (lawful.entries_remove ordered free.1).trans free.2

variable {replaced : List Block}

/-- The block to place in gives its space to other blocks. -/
theorem Taken.retag (implements : Implements policy lists addBlock removeBlock)
    (taken : Taken policy lists prologue machine front block back index)
    (size : total replaced = block.size)
    (retagged : Retagged machine other (machine.origin + total (prologue :: front)) replaced) :
    Threaded lists other (prologue :: (front ++ (replaced ++ back))) index := by
  have threaded := taken.threaded.retag_apart retagged.arena retagged.statics
    (by simpa using size) retagged.tags (by simpa [size] using retagged.outside)
    (Represents.apart implements fun entry member => taken.exact.mem_iff.mp member)
  simpa using threaded

/-- The block is split, and its remainder joins the lists. -/
theorem Taken.split (implements : Implements policy lists addBlock removeBlock)
    (taken : Taken policy lists prologue machine front block back index)
    (position : bp = machine.first prologue + total front + 4)
    (size : live.size + rest.size = block.size) (restFree : rest.isFree = true)
    (retagged : Retagged machine other (machine.origin + total (prologue :: front))
      [live, rest]) :
    Ensures (addBlock (bp + live.size) rest.size) other fun _ final =>
      Threaded lists final (prologue :: (front ++ ([live, rest] ++ back)))
          (policy.add index (bp + live.size, rest.size)) ∧
        Keeps (prologue :: (front ++ ([live, rest] ++ back))) other final := by
  have livePositive := live.size_ge
  have restPositive := rest.size_ge
  have arena := retagged.arena
  have threaded := taken.retag implements (by simpa using size) retagged
  have first : machine.first prologue = machine.origin + prologue.size := rfl
  have origin := arena.origin
  have sized : ∀ entry ∈ policy.entries index,
      entry ∈ freeSpots other.origin (prologue :: (front ++ ([live, rest] ++ back))) := by
    intro entry member
    have place := taken.exact.mem_iff.mp member
    rw [origin, freeSpots_prologue taken.sentinel]
    simp only [Machine.first] at place
    simp only [freeSpots_append, total_cons, total_nil, Nat.add_zero, size,
      List.mem_append] at place ⊢
    exact place.imp_right .inr
  have spot : (bp + live.size, rest) ∈
      spots other.origin (prologue :: (front ++ ([live, rest] ++ back))) := by
    refine mem_spots.mpr ⟨prologue :: (front ++ [live]), back, by simp, ?_⟩
    rw [origin, position, Machine.first]
    simp only [total_cons, total_append, total_nil]
    omega
  have absent : bp + live.size ∉ (policy.entries index).map Prod.fst := by
    intro member
    rcases List.mem_map.mp member with ⟨⟨address, available⟩, inside, same⟩
    simp only at same
    rcases List.mem_append.mp (taken.exact.mem_iff.mp inside) with inFront | inBack
    · rcases mem_freeSpots.mp inFront with ⟨owner, ownerSpot, _, _⟩
      have bounds := spot_bounds ownerSpot
      have ownerPositive := owner.size_ge
      omega
    · rcases mem_freeSpots.mp inBack with ⟨owner, ownerSpot, _, _⟩
      have bounds := spot_bounds ownerSpot
      omega
  exact implements.add ⟨threaded, taken.ordered, sized⟩ spot restFree absent
    (by rw [origin]; omega)

/-- The tags of the block to place in, while the block is only taken. -/
theorem Taken.here (taken : Taken policy lists prologue machine front block back index)
    (position : bp = machine.first prologue + total front + 4) :
    BlockAt machine bp block ∧ block.size < 2 ^ 31 ∧ 4 ≤ bp ∧
      machine.memStartBrk ≤ bp ∧ bp + block.size ≤ machine.memBrk := by
  have tiled := taken.threaded.tiled
  have spot : (bp, block) ∈ spots machine.origin ((prologue :: front) ++ ([block] ++ back)) := by
    refine mem_spots.mpr ⟨prologue :: front, back, by simp, ?_⟩
    rw [position, total_cons, Machine.first]
    omega
  have bounds := spot_bounds spot
  have extent := tiled.extent
  unfold Machine.origin at bounds
  exact ⟨tiled.blockAt spot, tiled.size_lt (by simp), by omega, by omega, by omega⟩

/-- Writing tags inside a free block concerns no client. -/
theorem Keeps.of_inside (back : List Block) (isFree : block.isFree = true)
    (position : bp = machine.first prologue + total front + 4)
    (arena : SameArena machine other)
    (outside : ∀ address, (address + 4 < bp ∨ bp + block.size ≤ address + 4) →
      other.bytes address = machine.bytes address) :
    Keeps (prologue :: (front ++ block :: back)) machine other := by
  have kept : Keeps ((prologue :: front) ++ ([block] ++ back)) machine other := by
    apply Keeps.of_outside arena
    · simp [Block.request?_of_isFree isFree]
    · intro address away
      apply outside
      simp only [total_cons, total_nil, Machine.first] at away position
      omega
  simpa using kept

theorem allot_of_split (policy : Policy Index) (back : List Block) (index : Index)
    (enough : roundUp request ≤ block.size)
    (shape : block.serve request = [live, rest])
    (split : roundUp request + 16 ≤ block.size)
    (liveSize : live.size = roundUp request) (restSize : rest.size = block.size - roundUp request)
    {origin : Nat} (position : bp = origin + total front + 4) :
    Layout.allot policy origin front block back index request =
      ⟨front ++ ([live, rest] ++ back),
        policy.add (policy.remove index (bp, block.size)) (bp + live.size, rest.size)⟩ := by
  have address : origin + total front + roundUp request + 4 = bp + live.size := by omega
  rw [Layout.allot, freeSpots_serve enough, if_pos split, shape, address, ← restSize,
    ← position]
  rfl

theorem allot_of_whole (policy : Policy Index) (back : List Block) (index : Index)
    (enough : roundUp request ≤ block.size)
    (shape : block.serve request = [live]) (whole : ¬roundUp request + 16 ≤ block.size)
    {origin : Nat} (position : bp = origin + total front + 4) :
    Layout.allot policy origin front block back index request =
      ⟨front ++ ([live] ++ back), policy.remove index (bp, block.size)⟩ := by
  rw [Layout.allot, freeSpots_serve enough, if_neg whole, shape, ← position]
  rfl

/-- The two pairs of tags a split writes. -/
theorem ensures_stampSplit (ownsHeader : machine.Owns (bp - 4) 4) (low : 4 ≤ bp)
    (small : block.size < 2 ^ 31) (atStart : machine.memStartBrk ≤ bp)
    (inside : bp + block.size ≤ machine.memBrk) (size : live.size + rest.size = block.size)
    (used : live.isFree = false) (restFree : rest.isFree = true) :
    Ensures (do
        put (hdrp bp) (pack live.size 1)
        put (← ftrp bp) (pack live.size 1)
        let bp ← nextBlkp bp
        put (hdrp bp) (pack rest.size 0)
        put (← ftrp bp) (pack rest.size 0)
        return bp) machine
      fun value other => value = bp + live.size ∧ ∃ middle,
        Stamped machine middle bp live ∧ Stamped middle other (bp + live.size) rest := by
  have positive := live.size_ge
  have restPositive := rest.size_ge
  have ownsFooter : machine.Owns (bp + live.size - 8) 4 := by constructor <;> omega
  have stampLive := ensures_stamp low (by omega) (Block.tag_eq_pack_used used rfl)
    ownsHeader ownsFooter
  simp only [ensures_bind, hdrp_eq] at stampLive ⊢
  refine stampLive.mono fun _ _ headerDone => headerDone.mono fun _ _ footerFound =>
    footerFound.mono fun _ changed stamped => ?_
  have ownsRest : changed.Owns (bp + live.size - 4) 4 := by
    rw [stamped.arena.owns]
    constructor <;> omega
  have ownsRestFooter : changed.Owns (bp + live.size + rest.size - 8) 4 := by
    rw [stamped.arena.owns]
    constructor <;> omega
  have stampRest := ensures_stamp (by omega) (by omega) (Block.tag_eq_pack restFree rfl)
    ownsRest ownsRestFooter
  simp only [ensures_bind, ensures_nextBlkp, stamped.header,
    live.sizeField_tag (by omega), hdrp_eq] at stampRest ⊢
  refine ⟨stamped.arena.owns.mpr ownsHeader, stampRest.mono fun _ _ restHeader =>
    restHeader.mono fun _ _ restFooter => restFooter.mono fun _ other restStamped => ?_⟩
  exact (ensures_pure _ _ _).mpr ⟨rfl, changed, stamped, restStamped⟩

/-- The shared `place` allots the block. -/
theorem placeWith_places (lawful : policy.Lawful)
    (implements : Implements policy lists addBlock removeBlock) :
    Places policy lists prologue (placeWith addBlock removeBlock) := by
  intro machine front back block index request represents isFree enough
  generalize position : machine.first prologue + total front + 4 = bp
  have allotted := Layout.allot_wellFormed lawful represents.wellFormed isFree enough
  have spot : (bp, block) ∈ spots machine.origin (prologue :: (front ++ block :: back)) := by
    refine mem_spots.mpr ⟨prologue :: front, back, by simp, ?_⟩
    rw [← position, total_cons, Machine.first]
    omega
  have here := represents.threaded.tiled.blockAt spot
  simp only [placeWith, ensures_bind, ensures_getSize, hdrp_eq, here.header, here.size]
  refine ⟨here.ownsHeader,
    (represents.take lawful implements isFree position.symm).mono fun _ middle => ?_⟩
  rintro ⟨taken, keeps⟩
  have first : bp = middle.first prologue + total front + 4 := by rw [keeps.first, position]
  have whole : bp = middle.origin + total (prologue :: front) + 4 := by
    rw [first, total_cons, Machine.first]
    omega
  rcases taken.here first with ⟨hereMiddle, small, low, atStart, inside⟩
  have difference : wrapSub block.size (roundUp request) = block.size - roundUp request :=
    wrapSub_of_le (by omega) enough
  rw [difference]
  rcases serve_cases block enough with
    ⟨live, rest, shape, liveSize, _, used, restSize, restFree, split⟩ |
    ⟨live, shape, liveSize, _, used, unsplit⟩
  · have size : live.size + rest.size = block.size := by omega
    have shaped := allot_of_split policy back index enough shape split liveSize restSize
      position.symm
    rw [shaped] at allotted ⊢
    rw [if_pos (by unfold dsize; omega), ← restSize, ← liveSize]
    have stamps := ensures_stampSplit hereMiddle.ownsHeader low small atStart inside size used restFree
    simp only [ensures_bind] at stamps ⊢
    refine stamps.mono fun _ _ done => done.mono fun _ _ done => done.mono fun _ _ done =>
      done.mono fun next _ done => done.mono fun _ _ done => done.mono fun _ _ done =>
      done.mono fun _ other done => ?_
    rcases (ensures_pure _ _ _).mp done with ⟨rfl, changed, stamped, restStamped⟩
    have retagged := stamped.two restStamped whole
    refine (taken.split implements first size restFree retagged).mono fun _ final => ?_
    rintro ⟨threaded, addKeeps⟩
    have written := Keeps.of_inside back isFree first retagged.arena fun byte away =>
      retagged.outside byte (by simp only [total_cons, total_nil] at whole ⊢; omega)
    have kept := (keeps.trans written fun _ inside => inside).trans addKeeps
      fun byte inside => by
        rw [inLivePayload_prologue represents.sentinel] at inside ⊢
        rw [← shape]
        exact inLivePayload_serve isFree inside
    refine ⟨⟨represents.sentinel, threaded, ?_⟩, kept⟩
    rw [kept.first]
    exact allotted
  · have shaped := allot_of_whole policy back index enough shape unsplit position.symm
    rw [shaped] at allotted ⊢
    rw [if_neg (by unfold dsize; omega)]
    have positive := live.size_ge
    have ownsFooter : middle.Owns (bp + live.size - 8) 4 := liveSize ▸ hereMiddle.ownsFooter
    have stamps := ensures_stamp low (by omega) (Block.tag_eq_pack_used used liveSize)
      hereMiddle.ownsHeader ownsFooter
    simp only [ensures_bind, hdrp_eq] at stamps ⊢
    refine stamps.mono fun _ _ done => done.mono fun _ _ done => done.mono
      fun _ final stamped => ?_
    have threaded := taken.retag implements (by simpa using liveSize) (stamped.one whole)
    have written := Keeps.of_inside back isFree first stamped.arena
      fun byte away => stamped.outside byte (by omega) (by omega)
    have kept := keeps.trans written fun _ inside => inside
    refine ⟨⟨represents.sentinel, threaded, ?_⟩, kept⟩
    rw [kept.first]
    exact allotted

end Place

end MallocLab
