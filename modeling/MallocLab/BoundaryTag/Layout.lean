import MallocLab.BoundaryTag.Edit

/-! # The boundary-tag allocator, abstractly

The heap behind the prologue is a sequence of blocks, and an index keeps the
free ones in some order. What the packages disagree about is the index: how it
takes up and gives up a block and which of its blocks serves a request. That is
a `Policy`, and everything else is defined and proved here once for all of them.
-/

namespace MallocLab

open Blocks

/-- A way to keep free blocks, each given by its payload address and its size. -/
structure Policy (Index : Type) where
  entries : Index → List (Nat × Nat)
  add : Index → Nat × Nat → Index
  remove : Index → Nat × Nat → Index
  find : Index → Nat → Option Nat
  Ordered : Index → Prop

/-- A policy neither loses nor invents blocks, keeps its order, and finds only
blocks it has. -/
structure Policy.Lawful {Index : Type} (policy : Policy Index) : Prop where
  entries_add : ∀ {index : Index} (entry : Nat × Nat), policy.Ordered index →
    (policy.entries (policy.add index entry)).Perm (entry :: policy.entries index)
  entries_remove : ∀ {index : Index} {entry : Nat × Nat}, policy.Ordered index →
    entry ∈ policy.entries index →
    (policy.entries (policy.remove index entry)).Perm ((policy.entries index).erase entry)
  ordered_add : ∀ {index : Index} (entry : Nat × Nat), policy.Ordered index →
    policy.Ordered (policy.add index entry)
  ordered_remove : ∀ {index : Index} (entry : Nat × Nat), policy.Ordered index →
    policy.Ordered (policy.remove index entry)
  remove_comm : ∀ (index : Index) (first second : Nat × Nat),
    policy.remove (policy.remove index first) second =
      policy.remove (policy.remove index second) first
  find_some : ∀ {index : Index} {size address : Nat}, policy.Ordered index →
    policy.find index size = some address →
    ∃ available, (address, available) ∈ policy.entries index ∧ size ≤ available

variable {Index : Type} {policy : Policy Index}

/-- Without two entries of one address, taking an entry out of a list takes
its address out of the addresses. -/
theorem map_erase {free : List (Nat × Nat)} {entry : Nat × Nat}
    (nodup : (free.map Prod.fst).Nodup) (listed : entry ∈ free) :
    (free.erase entry).map Prod.fst = (free.map Prod.fst).erase entry.1 := by
  induction free with
  | nil => cases listed
  | cons head free induction =>
      rw [List.map_cons, List.nodup_cons] at nodup
      by_cases same : head = entry
      · subst same
        simp
      · have later : entry ∈ free := by
          rcases List.mem_cons.mp listed with rfl | member
          · exact absurd rfl same
          · exact member
        have different : head.1 ≠ entry.1 := by
          intro equal
          exact nodup.1 (equal ▸ List.mem_map_of_mem later)
        rw [List.erase_cons_tail (by simpa using same), List.map_cons, List.map_cons,
          List.erase_cons_tail (by simpa using different), induction nodup.2 later]

/-- Several blocks leave the index. -/
def Policy.removeAll (policy : Policy Index) (index : Index)
    (gone : List (Nat × Nat)) : Index := gone.foldl policy.remove index

theorem Policy.Lawful.removeAll (lawful : policy.Lawful) {index : Index}
    {gone : List (Nat × Nat)} (ordered : policy.Ordered index)
    (present : gone.Subperm (policy.entries index)) :
    policy.Ordered (policy.removeAll index gone) ∧
      (policy.entries (policy.removeAll index gone)).Perm
        ((policy.entries index).diff gone) := by
  induction gone generalizing index with
  | nil => exact ⟨ordered, by simp [Policy.removeAll]⟩
  | cons head gone induction =>
      have member : head ∈ policy.entries index := present.subset (by simp)
      have removed := lawful.entries_remove ordered member
      have remaining : gone.Subperm (policy.entries (policy.remove index head)) := by
        refine List.Subperm.trans ?_ removed.symm.subperm
        simpa using present.erase head
      have later := induction (lawful.ordered_remove head ordered) remaining
      refine ⟨later.1, later.2.trans ?_⟩
      rw [List.diff_cons]
      exact removed.diff_right gone

structure Layout (Index : Type) where
  blocks : List Block
  index : Index

/-- The heap is extended by at least one chunk. -/
def extension (request : Nat) : Nat := max (roundUp request) 4096

theorem extension_aligned (request : Nat) : extension request % 8 = 0 := by
  have aligned := roundUp_aligned request
  unfold extension
  omega

theorem extension_ge (request : Nat) : 16 ≤ extension request := by
  unfold extension
  omega

/-- The free block an extension by some bytes adds. -/
def fresh (size : Nat) (aligned : size % 8 = 0) (large : 16 ≤ size) : Block :=
  Block.ofFree size aligned large

/-- The chunk the heap begins with. -/
def chunk : Block := fresh 4096 rfl (by decide)

namespace Layout

/-- The heap `mm_init` builds: one free chunk, in an index that was empty. -/
def initial (policy : Policy Index) (origin : Nat) (empty : Index) : Layout Index where
  blocks := [chunk]
  index := policy.add empty (origin + 4, 4096)

/-- Blocks are free or live, maximally joined, and the index holds exactly the
free ones. -/
structure WellFormed (policy : Policy Index) (origin : Nat) (layout : Layout Index) :
    Prop where
  proper : ∀ block ∈ layout.blocks, block.usage ≠ .sentinel
  coalesced : Coalesced layout.blocks
  exact : (policy.entries layout.index).Perm (freeSpots origin layout.blocks)
  ordered : policy.Ordered layout.index

variable (policy : Policy Index) (origin : Nat)

/-- A free block between two parts of the heap is joined with its neighbours
and taken up by the index. -/
def settle (front : List Block) (block : Block) (back : List Block) (index : Index) :
    Layout Index where
  blocks := Blocks.settle front block back
  index := policy.add (policy.removeAll index (absorbed origin front block back))
    (origin + total (front.rdropWhile Block.isFree) + 4,
      total (front.rtakeWhile Block.isFree) + block.size +
        total (back.takeWhile Block.isFree))

/-- A listed block between two parts of the heap serves a request. -/
def allot (front : List Block) (block : Block) (back : List Block) (index : Index)
    (request : Nat) : Layout Index where
  blocks := front ++ (block.serve request ++ back)
  index := (freeSpots (origin + total front) (block.serve request)).foldl policy.add
    (policy.remove index (origin + total front + 4, block.size))

def serveAt (layout : Layout Index) (address request : Nat) : Layout Index :=
  match cut address origin layout.blocks with
  | (front, block :: back) => allot policy origin front block back layout.index request
  | _ => layout

def release (layout : Layout Index) (address : Nat) : Layout Index :=
  match cut address origin layout.blocks with
  | (front, block :: back) => settle policy origin front block.release back layout.index
  | _ => layout

/-- The heap after a free block was added at its end. -/
def grow (layout : Layout Index) (block : Block) : Layout Index :=
  settle policy origin layout.blocks block [] layout.index

/-- The payload address of the free block an extension ends in. -/
def growSpot (layout : Layout Index) : Nat :=
  origin + total (layout.blocks.rdropWhile Block.isFree) + 4

/-- The allocator on a heap that may hold `room` bytes of blocks. -/
def malloc (room : Nat) (layout : Layout Index) (request : Nat) :
    Option Nat × Layout Index :=
  if request = 0 then (none, layout)
  else
    match policy.find layout.index (roundUp request) with
    | some address => (some address, layout.serveAt policy origin address request)
    | none =>
        if total layout.blocks + extension request ≤ room then
          let block := fresh (extension request) (extension_aligned request)
            (extension_ge request)
          let address := layout.growSpot origin
          (some address,
            (layout.grow policy origin block).serveAt policy origin address request)
        else (none, layout)

def realloc (room : Nat) (layout : Layout Index) (address request : Nat) :
    Option Nat × Layout Index :=
  match layout.malloc policy origin room request with
  | (none, after) => (none, after)
  | (some served, after) => (some served, after.release policy origin address)

variable {policy} {origin} {layout after : Layout Index} {room address request served : Nat}

/-- The heap `mm_init` builds is what an empty one grows to. -/
theorem grow_empty (empty : Index) :
    grow policy origin ⟨[], empty⟩ chunk = initial policy origin empty := by
  have alone : chunk.absorb [] [] = chunk := by simp [Block.absorb]
  have size : chunk.size = 4096 := rfl
  simp [grow, settle, Blocks.settle, absorbed, Policy.removeAll, initial, alone, size]

theorem realloc_of_none
    (refused : layout.malloc policy origin room request = (none, after)) :
    layout.realloc policy origin room address request = (none, after) := by
  rw [realloc, refused]

theorem realloc_of_some
    (outcome : layout.malloc policy origin room request = (some served, after)) :
    layout.realloc policy origin room address request =
      (some served, after.release policy origin address) := by
  rw [realloc, outcome]

end Layout

/-! ## Operations keep the heap well formed -/

namespace Layout

variable {origin : Nat} {front back : List Block} {block : Block} {index : Index}
  {layout : Layout Index}

theorem settle_wellFormed (lawful : policy.Lawful) (isFree : block.isFree = true)
    (frontProper : ∀ other ∈ front, other.usage ≠ .sentinel)
    (backProper : ∀ other ∈ back, other.usage ≠ .sentinel)
    (frontCoalesced : Coalesced front) (backCoalesced : Coalesced back)
    (exact : (policy.entries index).Perm (freeSpots origin front ++
      freeSpots (origin + total front + block.size) back))
    (ordered : policy.Ordered index) :
    WellFormed policy origin (settle policy origin front block back index) := by
  have present : (absorbed origin front block back).Subperm (policy.entries index) :=
    ((List.sublist_append_left _ _).subperm).trans
      (exact.trans (perm_absorbed origin front block back)).symm.subperm
  rcases lawful.removeAll ordered present with ⟨keptOrder, kept⟩
  constructor
  · intro other member
    simp only [settle, Blocks.settle, List.mem_append, List.mem_cons] at member
    rcases member with inFront | rfl | inBack
    · exact frontProper other ((List.rdropWhile_prefix _ _).subset inFront)
    · simp [Block.absorb, Block.isFree_iff.mp isFree]
    · exact backProper other ((List.dropWhile_suffix _).subset inBack)
  · exact coalesced_settle block frontCoalesced backCoalesced
  · refine (lawful.entries_add _ keptOrder).trans ?_
    exact (kept.cons _).trans (perm_freeSpots_settle isFree exact)
  · exact lawful.ordered_add _ keptOrder

theorem initial_wellFormed (lawful : policy.Lawful) {empty : Index}
    (ordered : policy.Ordered empty) (nothing : policy.entries empty = []) :
    WellFormed policy origin (initial policy origin empty) where
  proper := by
    intro block member
    rw [List.mem_singleton.mp member]
    simp [chunk, fresh, Block.ofFree]
  coalesced := .singleton _
  exact := by
    have added := lawful.entries_add (origin + 4, 4096) ordered
    rw [nothing] at added
    exact added
  ordered := lawful.ordered_add _ ordered

theorem WellFormed.cut_spot
    (wellFormed : WellFormed policy origin ⟨front ++ block :: back, index⟩) :
    Coalesced front ∧ Coalesced back ∧
      (∀ other ∈ front, other.usage ≠ .sentinel) ∧
      (∀ other ∈ back, other.usage ≠ .sentinel) := by
  have coalesced := wellFormed.coalesced
  refine ⟨coalesced.left_of_append, (List.isChain_cons.mp coalesced.right_of_append).2, ?_, ?_⟩
  · exact fun other member => wellFormed.proper other (by simp [member])
  · exact fun other member => wellFormed.proper other (by simp [member])

theorem WellFormed.used_exact
    (wellFormed : WellFormed policy origin ⟨front ++ block :: back, index⟩)
    (used : block.isFree = false) :
    (policy.entries index).Perm (freeSpots origin front ++
      freeSpots (origin + total front + block.size) back) := by
  have exact := wellFormed.exact
  rwa [freeSpots_append, freeSpots_cons_of_not_isFree _ _ used] at exact

theorem WellFormed.free_exact
    (wellFormed : WellFormed policy origin ⟨front ++ block :: back, index⟩)
    (isFree : block.isFree = true) :
    (origin + total front + 4, block.size) ∈ policy.entries index ∧
      ((policy.entries index).erase (origin + total front + 4, block.size)).Perm
        (freeSpots origin front ++ freeSpots (origin + total front + block.size) back) := by
  have exact := wellFormed.exact
  simp only [freeSpots_append] at exact
  rw [freeSpots_cons_of_isFree _ _ isFree] at exact
  have moved := exact.trans List.perm_middle
  refine ⟨moved.mem_iff.mpr (by simp), ?_⟩
  simpa using moved.erase (origin + total front + 4, block.size)

theorem release_wellFormed (lawful : policy.Lawful)
    (wellFormed : WellFormed policy origin ⟨front ++ block :: back, index⟩)
    (used : block.isFree = false) (large : 16 ≤ block.size) :
    WellFormed policy origin (settle policy origin front block.release back index) := by
  rcases wellFormed.cut_spot with ⟨frontCoalesced, backCoalesced, frontProper, backProper⟩
  have released := Block.release_of_large large
  apply settle_wellFormed lawful released.2 frontProper backProper frontCoalesced backCoalesced
  · rw [released.1]
    exact wellFormed.used_exact used
  · exact wellFormed.ordered

theorem grow_wellFormed (lawful : policy.Lawful) (wellFormed : WellFormed policy origin layout)
    (isFree : block.isFree = true) :
    WellFormed policy origin (layout.grow policy origin block) := by
  apply settle_wellFormed lawful isFree wellFormed.proper (by simp) wellFormed.coalesced .nil
  · simpa using wellFormed.exact
  · exact wellFormed.ordered

/-- The remainders an allotment leaves are taken up one by one. -/
theorem addAll (lawful : policy.Lawful) (added : List (Nat × Nat))
    (ordered : policy.Ordered index) :
    policy.Ordered (added.foldl policy.add index) ∧
      (policy.entries (added.foldl policy.add index)).Perm
        (added ++ policy.entries index) := by
  induction added generalizing index with
  | nil => exact ⟨ordered, .refl _⟩
  | cons head added induction =>
      have later := induction (lawful.ordered_add head ordered)
      refine ⟨later.1, later.2.trans ?_⟩
      exact ((lawful.entries_add head ordered).append_left added).trans List.perm_middle

theorem allot_wellFormed (lawful : policy.Lawful)
    (wellFormed : WellFormed policy origin ⟨front ++ block :: back, index⟩)
    (isFree : block.isFree = true) {request : Nat} (enough : roundUp request ≤ block.size) :
    WellFormed policy origin (allot policy origin front block back index request) := by
  have removed := wellFormed.free_exact isFree
  have added := addAll lawful (freeSpots (origin + total front) (block.serve request))
    (lawful.ordered_remove (origin + total front + 4, block.size) wellFormed.ordered)
  constructor
  · intro other member
    simp only [allot, List.mem_append] at member
    rcases member with inFront | inServed | inBack
    · exact wellFormed.proper other (by simp [inFront])
    · exact proper_serve isFree other inServed
    · exact wellFormed.proper other (by simp [inBack])
  · exact coalesced_serve enough isFree wellFormed.coalesced
  · simp only [allot, freeSpots_append, Block.total_serve]
    refine added.2.trans ?_
    have taken := (lawful.entries_remove wellFormed.ordered removed.1).trans removed.2
    refine (List.Perm.append_left _ taken).trans ?_
    exact List.perm_append_comm_assoc _ _ _
  · exact added.1

/-- A block found for a request is free and large enough. -/
theorem WellFormed.find_some (lawful : policy.Lawful)
    (wellFormed : WellFormed policy origin layout) {size address : Nat}
    (found : policy.find layout.index size = some address) :
    ∃ front block back, layout.blocks = front ++ block :: back ∧
      address = origin + total front + 4 ∧ block.isFree = true ∧ size ≤ block.size := by
  rcases lawful.find_some wellFormed.ordered found with ⟨available, listed, large⟩
  rcases mem_freeSpots.mp (wellFormed.exact.mem_iff.mp listed) with
    ⟨block, spot, isFree, rfl⟩
  rcases mem_spots.mp spot with ⟨front, back, shape, rfl⟩
  exact ⟨front, block, back, shape, rfl, isFree, large⟩

/-! ## What clients see -/

theorem allot_live (isFree : block.isFree = true) {request : Nat}
    (enough : roundUp request ≤ block.size) :
    (liveSpots origin (allot policy origin front block back index request).blocks).Perm
      ((origin + total front + 4, request) ::
        liveSpots origin (front ++ block :: back)) := by
  simp only [allot, liveSpots_append, liveSpots_serve enough, Block.total_serve]
  rw [liveSpots_cons_of_not_live _ _ (Block.request?_of_isFree isFree)]
  exact List.perm_middle

/-- Where a request is served from: a listed block or the end of the extended
heap. -/
theorem malloc_source (lawful : policy.Lawful) (wellFormed : WellFormed policy origin layout)
    {room request address : Nat} {after : Layout Index}
    (served : layout.malloc policy origin room request = (some address, after)) :
    ∃ before front block back,
      (before = layout ∨ before = layout.grow policy origin (fresh (extension request)
        (extension_aligned request) (extension_ge request))) ∧
      WellFormed policy origin before ∧ before.blocks = front ++ block :: back ∧
      block.isFree = true ∧ roundUp request ≤ block.size ∧ address = origin + total front + 4 ∧
      after = allot policy origin front block back before.index request := by
  unfold malloc at served
  split at served
  · simp at served
  · split at served
    · rename_i found
      simp only [Prod.mk.injEq, Option.some.injEq] at served
      rcases wellFormed.find_some lawful found with
        ⟨front, block, back, shape, rfl, isFree, enough⟩
      refine ⟨layout, front, block, back, .inl rfl, wellFormed, shape, isFree, enough,
        served.1.symm, ?_⟩
      rw [← served.2, serveAt, shape, cut_append]
    · split at served
      · simp only [Prod.mk.injEq, Option.some.injEq] at served
        have freshFree : (fresh (extension request) (extension_aligned request)
            (extension_ge request)).isFree = true := rfl
        have grown := grow_wellFormed lawful wellFormed freshFree
        refine ⟨_, _, _, _, .inr rfl, grown, rfl, rfl, ?_, served.1.symm, ?_⟩
        · simp only [Block.absorb_size, fresh, Block.ofFree, extension]
          omega
        · rw [← served.2, serveAt, growSpot, grow, settle, Blocks.settle, cut_append]
      · simp at served

theorem malloc_some (lawful : policy.Lawful) (wellFormed : WellFormed policy origin layout)
    {room request address : Nat} {after : Layout Index}
    (served : layout.malloc policy origin room request = (some address, after)) :
    ∃ before front block back, WellFormed policy origin before ∧
      before.blocks = front ++ block :: back ∧ block.isFree = true ∧
      roundUp request ≤ block.size ∧ address = origin + total front + 4 ∧
      after = allot policy origin front block back before.index request ∧
      liveSpots origin before.blocks = liveSpots origin layout.blocks ∧
      (∀ byte, InLivePayload origin layout.blocks byte →
        InLivePayload origin before.blocks byte) := by
  rcases malloc_source lawful wellFormed served with
    ⟨before, front, block, back, source, formed, shape, isFree, enough, position, result⟩
  refine ⟨before, front, block, back, formed, shape, isFree, enough, position, result, ?_⟩
  rcases source with rfl | rfl
  · exact ⟨rfl, fun _ => id⟩
  · simp only [grow, settle]
    constructor
    · rw [liveSpots_settle rfl, liveSpots_append, liveSpots_cons_of_not_live _ _ rfl,
        liveSpots_nil, List.append_nil]
    · intro byte inside
      rw [inLivePayload_settle rfl]
      exact inPayload_append.mpr (.inl inside)

theorem malloc_none {room request : Nat} {after : Layout Index}
    (refused : layout.malloc policy origin room request = (none, after)) :
    after = layout := by
  unfold malloc at refused
  split at refused
  · simpa using refused.symm
  · split at refused
    · simp at refused
    · split at refused
      · simp at refused
      · simpa using refused.symm

/-- A served request adds one live block and keeps all others. -/
theorem malloc_served (lawful : policy.Lawful) (wellFormed : WellFormed policy origin layout)
    {room request address : Nat} {after : Layout Index}
    (served : layout.malloc policy origin room request = (some address, after)) :
    WellFormed policy origin after ∧
      (liveSpots origin after.blocks).Perm
        ((address, request) :: liveSpots origin layout.blocks) ∧
      (∀ byte, InLivePayload origin layout.blocks byte →
        InLivePayload origin after.blocks byte) := by
  rcases malloc_some lawful wellFormed served with
    ⟨before, front, block, back, formed, shape, isFree, enough, rfl, rfl, live, payload⟩
  rcases before with ⟨blocks, index⟩
  subst shape
  refine ⟨allot_wellFormed lawful formed isFree enough, ?_, ?_⟩
  · rw [← live]
    exact allot_live isFree enough
  · exact fun byte inside => inLivePayload_serve isFree (payload byte inside)

/-- A live block is found at its address. -/
theorem release_shape {address request : Nat}
    (live : (address, request) ∈ liveSpots origin layout.blocks) :
    ∃ front block back, layout.blocks = front ++ block :: back ∧
      address = origin + total front + 4 ∧ block.request? = some request ∧
      layout.release policy origin address =
        settle policy origin front block.release back layout.index := by
  rcases mem_liveSpots.mp live with ⟨block, spot, isLive⟩
  rcases mem_spots.mp spot with ⟨front, back, shape, rfl⟩
  refine ⟨front, block, back, shape, rfl, isLive, ?_⟩
  rw [release, shape, cut_append]

/-- A released block is no longer live, and all others stay. -/
theorem release_live (lawful : policy.Lawful) (wellFormed : WellFormed policy origin layout)
    {address request : Nat} (live : (address, request) ∈ liveSpots origin layout.blocks) :
    WellFormed policy origin (layout.release policy origin address) ∧
      (liveSpots origin layout.blocks).Perm ((address, request) ::
        liveSpots origin (layout.release policy origin address).blocks) := by
  rcases release_shape live with ⟨front, block, back, shape, rfl, isLive, released⟩
  rw [released]
  rcases layout with ⟨blocks, index⟩
  subst shape
  have used : block.isFree = false := Block.isFree_of_live isLive
  have large := (Block.size_ge_of_live isLive).1
  have given := Block.release_of_large large
  refine ⟨release_wellFormed lawful wellFormed used large, ?_⟩
  simp only [settle]
  rw [liveSpots_settle given.2]
  simp only [liveSpots_append]
  rw [liveSpots_cons_of_live _ _ isLive,
    liveSpots_cons_of_not_live _ _ (Block.request?_of_isFree given.2), given.1]
  exact List.perm_middle

end Layout

end MallocLab
