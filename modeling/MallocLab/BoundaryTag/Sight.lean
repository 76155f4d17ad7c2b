import MallocLab.BoundaryTag.Walk
import MallocLab.Foundation.Fusion

/-! # What a walk sees

A walk over the heap sees of every block its address, its size and its
allocated bit. Giving blocks back changes the picture in two steps: their bits
are cleared, and then every run of free blocks is fused.
-/

namespace MallocLab

open Blocks

/-- A block as a walk sees it. -/
structure Seen where
  bp : Nat
  size : Nat
  alloc : Nat
  deriving DecidableEq

namespace Seen

/-- Free blocks are joined to one that spans them. -/
def fusion : Fusion Seen where
  joins seen := decide (seen.alloc = 0)
  join first second := ⟨first.bp, first.size + second.size, 0⟩
  joins_join _ _ := rfl
  join_assoc first second third := by simp [Nat.add_assoc]

/-- The walk after the blocks at some addresses were marked free. -/
def mark (ptrs : List Nat) (walk : List Seen) : List Seen :=
  walk.map fun seen => if seen.bp ∈ ptrs then { seen with alloc := 0 } else seen

/-- Every maximal run of free blocks is one free block. -/
def fuse (walk : List Seen) : List Seen := fusion.fuse walk

variable {walk front rest back : List Seen} {first : Seen} {ptrs others : List Nat} {ptr : Nat}

theorem joinAll_eq (first second : Seen) (rest : List Seen) :
    fusion.joinAll first (second :: rest) =
      ⟨first.bp, ((first :: second :: rest).map Seen.size).sum, 0⟩ := by
  induction rest generalizing first second with
  | nil => rfl
  | cons third rest ih =>
      rw [Fusion.joinAll, ih]
      rfl

/-- A run of free blocks between used ones becomes one block that spans it. -/
theorem fuse_run (free : ∀ seen ∈ first :: rest, seen.alloc = 0)
    (before : ∀ last ∈ front.getLast?, last.alloc ≠ 0)
    (after : ∀ next ∈ back.head?, next.alloc ≠ 0) :
    fuse (front ++ (first :: rest ++ back)) =
      fuse front ++ ⟨first.bp, ((first :: rest).map Seen.size).sum, 0⟩ :: fuse back := by
  have whole : fusion.joinAll first rest =
      ⟨first.bp, ((first :: rest).map Seen.size).sum, 0⟩ := by
    cases rest with
    | nil =>
        have isFree := free first List.mem_cons_self
        rw [← isFree]
        rfl
    | cons second rest => exact joinAll_eq first second rest
  rw [← whole]
  apply Fusion.fuse_run
  · exact fun seen member => decide_eq_true (free seen member)
  · exact fun last member => decide_eq_false (before last member)
  · exact fun next member => decide_eq_false (after next member)

theorem fuse_of_fused (fused : fusion.Fused walk) : fuse walk = walk :=
  Fusion.fuse_of_fused fused

/-- Two free neighbours may be joined before fusing. -/
theorem fuse_pair (bp other size otherSize : Nat) (front back : List Seen) :
    fuse (front ++ ⟨bp, size, 0⟩ :: ⟨other, otherSize, 0⟩ :: back) =
      fuse (front ++ ⟨bp, size + otherSize, 0⟩ :: back) :=
  Fusion.fuse_join rfl rfl front back

theorem fuse_cons_of_used (used : fusion.joins first = false) :
    fuse (first :: rest) = first :: fuse rest :=
  Fusion.push_of_apart fun _ _ => .inl used

theorem mark_congr (same : ∀ bp, bp ∈ ptrs ↔ bp ∈ others) (walk : List Seen) :
    mark ptrs walk = mark others walk := by
  simp only [mark, same]

theorem mark_mark (ptrs others : List Nat) (walk : List Seen) :
    mark ptrs (mark others walk) = mark (others ++ ptrs) walk := by
  rw [mark, mark, mark, List.map_map]
  apply List.map_congr_left
  intro seen _
  by_cases marked : seen.bp ∈ others
  · simp [marked]
  · simp [marked]

@[simp] theorem mark_nil (walk : List Seen) : mark [] walk = walk := by
  simp [mark]

/-- Marking leaves free blocks alone, so it may come before or after fusing. -/
theorem fuse_mark_fuse (ptrs : List Nat) (walk : List Seen) :
    fuse (mark ptrs (fuse walk)) = fuse (mark ptrs walk) := by
  apply Fusion.fuse_map_fuse
  intro seen joins
  have free : seen.alloc = 0 := of_decide_eq_true joins
  split
  · cases seen
    simp_all
  · rfl

end Seen

/-! ## The picture of represented blocks -/

namespace Blocks

/-- What a walk sees of blocks. -/
def view (cursor : Nat) (blocks : List Block) : List Seen :=
  (spots cursor blocks).map fun spot => ⟨spot.1, spot.2.size, if spot.2.isFree then 0 else 1⟩

variable {cursor : Nat} {block : Block} {blocks front rest back : List Block}

@[simp] theorem view_nil (cursor : Nat) : view cursor [] = [] := rfl

@[simp] theorem view_cons (cursor : Nat) (block : Block) (rest : List Block) :
    view cursor (block :: rest) =
      ⟨cursor + 4, block.size, if block.isFree then 0 else 1⟩ ::
        view (cursor + block.size) rest := rfl

@[simp] theorem view_append (cursor : Nat) (front back : List Block) :
    view cursor (front ++ back) = view cursor front ++ view (cursor + total front) back := by
  rw [view, spots_append, List.map_append]
  rfl

theorem joins_view (bp size : Nat) (block : Block) :
    Seen.fusion.joins ⟨bp, size, if block.isFree then 0 else 1⟩ = block.isFree := by
  cases free : block.isFree <;> simp [Seen.fusion]

theorem head_view {seen : Seen} (member : seen ∈ (view cursor blocks).head?) :
    ∃ block ∈ blocks.head?, Seen.fusion.joins seen = block.isFree := by
  cases blocks with
  | nil => cases member
  | cons block rest =>
      cases Option.mem_some.mp member
      exact ⟨block, rfl, joins_view _ _ block⟩

theorem last_view {seen : Seen} (member : seen ∈ (view cursor blocks).getLast?) :
    ∃ block ∈ blocks.getLast?, Seen.fusion.joins seen = block.isFree := by
  rcases List.eq_nil_or_concat blocks with rfl | ⟨start, last, rfl⟩
  · cases member
  · rw [List.concat_eq_append, view_append, List.getLast?_append_of_ne_nil _ (by simp)] at member
    cases Option.mem_some.mp member
    exact ⟨last, by simp, joins_view _ _ last⟩

theorem fused_view (coalesced : Coalesced blocks) : Seen.fusion.Fused (view cursor blocks) := by
  induction blocks generalizing cursor with
  | nil => exact List.IsChain.nil
  | cons block rest ih =>
      have parts := List.isChain_cons.mp coalesced
      rw [view_cons]
      apply (ih parts.2).cons
      intro next head
      rcases head_view head with ⟨other, isHead, joins⟩
      rw [joins_view, joins]
      exact parts.1 other isHead

theorem fuse_view (coalesced : Coalesced blocks) : Seen.fuse (view cursor blocks) = view cursor blocks :=
  Fusion.fuse_of_fused (fused_view coalesced)

theorem sizes_view (cursor : Nat) (blocks : List Block) :
    ((view cursor blocks).map Seen.size).sum = total blocks := by
  induction blocks generalizing cursor with
  | nil => rfl
  | cons block rest ih => rw [view_cons, List.map_cons, List.sum_cons, ih, total_cons]

theorem free_view (free : ∀ block ∈ blocks, block.isFree = true) :
    ∀ seen ∈ view cursor blocks, seen.alloc = 0 := by
  intro seen member
  rcases List.mem_map.mp member with ⟨⟨address, block⟩, spot, rfl⟩
  rcases mem_spots.mp spot with ⟨front, back, shape, _⟩
  have isFree : block.isFree = true := free block (by rw [shape]; simp)
  simp [isFree]

/-- Fusing does to the picture what settling a free block does to the heap. -/
theorem fuse_view_settle (isFree : block.isFree = true) (frontCoalesced : Coalesced front)
    (backCoalesced : Coalesced back) :
    Seen.fuse (view cursor (front ++ block :: back)) = view cursor (settle front block back) := by
  have frontTotal := congrArg total (front_split front)
  rw [total_append] at frontTotal
  have keptCoalesced : Coalesced (front.rdropWhile Block.isFree) :=
    frontCoalesced.prefix (List.rdropWhile_prefix _ _)
  have restCoalesced : Coalesced (back.dropWhile Block.isFree) :=
    backCoalesced.suffix (List.dropWhile_suffix _)
  have run : ∀ piece ∈ front.rtakeWhile Block.isFree ++ block :: back.takeWhile Block.isFree,
      piece.isFree = true := by
    intro piece member
    rcases List.mem_append.mp member with inFront | inRest
    · exact rtakeWhile_free front piece inFront
    · rcases List.mem_cons.mp inRest with rfl | inBack
      · exact isFree
      · exact takeWhile_free back piece inBack
  have shape : front ++ block :: back = front.rdropWhile Block.isFree ++
      ((front.rtakeWhile Block.isFree ++ block :: back.takeWhile Block.isFree) ++
        back.dropWhile Block.isFree) := by
    rw [List.append_assoc, List.cons_append, back_split, ← List.append_assoc, front_split]
  rw [shape, view_append, view_append]
  rcases pieces : front.rtakeWhile Block.isFree ++ block :: back.takeWhile Block.isFree with
    _ | ⟨first, rest⟩
  · simp at pieces
  · have sizes := congrArg total pieces
    have begins : view (cursor + total (front.rdropWhile Block.isFree)) (first :: rest) =
        ⟨cursor + total (front.rdropWhile Block.isFree) + 4, first.size,
            if first.isFree then 0 else 1⟩ ::
          view (cursor + total (front.rdropWhile Block.isFree) + first.size) rest := rfl
    rw [pieces] at run
    have runFree := @free_view (cursor + total (front.rdropWhile Block.isFree)) _ run
    have spans := sizes_view (cursor + total (front.rdropWhile Block.isFree)) (first :: rest)
    rw [begins] at runFree spans
    rw [begins, Seen.fuse_run runFree, spans, fuse_view keptCoalesced, fuse_view restCoalesced,
      settle, view_append, view_cons, Block.absorb_isFree, isFree]
    · simp only [total_append, total_cons] at sizes
      simp only [Block.absorb_size, if_true, total_cons, ← sizes, Nat.add_assoc]
    · intro last member
      rcases last_view member with ⟨piece, isLast, joins⟩
      rw [rdropWhile_last_used front piece isLast] at joins
      exact of_decide_eq_false joins
    · intro next member
      rcases head_view member with ⟨piece, isHead, joins⟩
      rw [dropWhile_head_used back piece isHead] at joins
      exact of_decide_eq_false joins

/-- The picture after a block was given back. -/
theorem mark_view (large : 16 ≤ block.size) :
    Seen.mark [cursor + total front + 4] (view cursor (front ++ block :: back)) =
      view cursor (front ++ block.release :: back) := by
  have released := Block.release_of_large large
  have others : ∀ {start : Nat} {pieces : List Block},
      (∀ spot ∈ spots start pieces, spot.1 ≠ cursor + total front + 4) →
      Seen.mark [cursor + total front + 4] (view start pieces) = view start pieces := by
    intro start pieces apart
    rw [Seen.mark, view, List.map_map]
    apply List.map_congr_left
    intro spot member
    simp [apart spot member]
  simp only [view_append, view_cons, released.1, released.2, if_true]
  rw [Seen.mark, List.map_append, List.map_cons, if_pos (by simp), ← Seen.mark, ← Seen.mark,
    others, others]
  · rintro ⟨address, piece⟩ member
    have bounds := spot_bounds member
    have positive := block.size_ge
    change address ≠ cursor + total front + 4
    omega
  · rintro ⟨address, piece⟩ member
    have bounds := spot_bounds member
    have positive := piece.size_ge
    change address ≠ cursor + total front + 4
    omega

end Blocks

/-! ## The picture of a client's heap -/

/-- The walk from a block to the end of the heap. -/
def Machine.Sees {Statics : Type} (machine : Machine Statics) (start : Nat) (walk : List Seen) :
    Prop :=
  ∃ visited, machine.Walk start visited machine.memBrk ∧
    walk = visited.map fun bp => ⟨bp, machine.headerSize bp, machine.headerAlloc bp⟩

namespace Procedures

variable {Statics Index : Type} {package : Procedures Statics Index}
  {client : Client Statics} {layout : Layout Index}

/-- The picture of a represented heap, prologue included. -/
def picture (package : Procedures Statics Index) (machine : Machine Statics)
    (layout : Layout Index) : List Seen :=
  view machine.origin (package.prologue :: layout.blocks)

theorem Serves.sees (serves : package.Serves client layout) :
    client.machine.Sees (client.machine.memStartBrk + 8) (package.picture client.machine layout) := by
  have tiled := serves.holds.threaded.tiled
  refine ⟨package.visited client.machine layout, serves.heapTiled.walk, ?_⟩
  rw [picture, view, visited, List.map_map]
  apply List.map_congr_left
  rintro ⟨bp, block⟩ spot
  simp only [Function.comp_apply, tiled.headerSize spot, tiled.headerAlloc spot]

theorem Serves.picture_fused (serves : package.Serves client layout) :
    Seen.fuse (package.picture client.machine layout) = package.picture client.machine layout :=
  fuse_view (coalesced_prologue serves)

/-- Giving a block back marks it and fuses. -/
theorem Serves.picture_release (serves : package.Serves client layout) {address request : Nat}
    (live : (address, request) ∈ liveSpots (package.base client.machine) layout.blocks) :
    package.picture client.machine (package.release client.machine layout address) =
      Seen.fuse (Seen.mark [address] (package.picture client.machine layout)) := by
  rcases Layout.release_shape live with ⟨front, block, back, shape, position, isLive, released⟩
  have large := (Block.size_ge_of_live isLive).1
  have given := Block.release_of_large large
  have sides := serves.holds.wellFormed.coalesced
  rw [shape] at sides
  have backCoalesced := (List.isChain_cons.mp sides.right_of_append).2
  have whole : address = client.machine.origin + total (package.prologue :: front) + 4 := by
    rw [position, total_cons, base, Machine.first]
    omega
  have prologueUsed := isFree_of_sentinel serves.holds.sentinel
  rw [release, released, picture, picture, shape, whole, ← List.cons_append, mark_view large,
    List.cons_append, view_cons, view_cons, Seen.fuse_cons_of_used (by rw [joins_view, prologueUsed]),
    fuse_view_settle given.2 sides.left_of_append backCoalesced]
  rfl

theorem picture_congr {machine other : Machine Statics} {layout : Layout Index}
    (same : other.memStartBrk = machine.memStartBrk) :
    package.picture other layout = package.picture machine layout := by
  rw [picture, picture, Machine.origin, Machine.origin, same]

end Procedures

/-! ## Giving several blocks back -/

/-- `mm_free` on one pointer after the other. -/
def Interface.freeAll {Statics : Type} (interface : Interface Statics) :
    List Nat → Program (Client Statics) Unit
  | [] => return ()
  | ptr :: rest => do
      let _ ← interface.perform (.free ptr)
      interface.freeAll rest

namespace Procedures

variable {Statics Index : Type} {package : Procedures Statics Index}
  {interface : Interface Statics} {empty : Index} {client : Client Statics} {layout : Layout Index}
  {ptrs : List Nat}

/-- Whatever the order, the given-back blocks are marked and the picture is
fused. -/
theorem Serves.freeAll (correct : package.Correct) (exposes : package.Exposes interface empty)
    (serves : package.Serves client layout) (nodup : ptrs.Nodup)
    (live : ∀ ptr ∈ ptrs, ptr ∈ client.live.map Prod.fst) :
    Program.Ensures (interface.freeAll ptrs) client fun _ after => ∃ final,
      package.Serves after final ∧ after.machine.memStartBrk = client.machine.memStartBrk ∧
        package.picture after.machine final =
          Seen.fuse (Seen.mark ptrs (package.picture client.machine layout)) := by
  induction ptrs generalizing client layout with
  | nil =>
      refine (Program.ensures_pure _ _ _).mpr ⟨layout, serves, rfl, ?_⟩
      rw [Seen.mark_nil, serves.picture_fused]
  | cons ptr rest ih =>
      have parts := List.nodup_cons.mp nodup
      have isLive := live ptr List.mem_cons_self
      rcases List.mem_map.mp isLive with ⟨⟨address, request⟩, member, rfl⟩
      have released := serves.picture_release (serves.live.mem_iff.mp member)
      rcases perform_free correct exposes serves isLive with ⟨result, middle, outcome, performed⟩
      have stillLive : ∀ ptr ∈ rest, ptr ∈ middle.live.map Prod.fst := by
        intro ptr inRest
        rcases List.mem_map.mp (live ptr (List.mem_cons_of_mem _ inRest)) with ⟨spot, isSpot, rfl⟩
        rw [perform_live outcome]
        apply List.mem_map_of_mem
        apply List.mem_filter.mpr
        refine ⟨isSpot, decide_eq_true ?_⟩
        rintro same
        exact parts.1 (same ▸ inRest)
      rw [Interface.freeAll, Program.ensures_bind_of_eq outcome]
      apply (ih performed.serves parts.2 stillLive).mono
      rintro _ after ⟨final, served, start, picture⟩
      refine ⟨final, served, start.trans performed.memStartBrk, ?_⟩
      rw [picture, picture_congr performed.memStartBrk]
      change Seen.fuse (Seen.mark rest (package.picture client.machine
        (package.release client.machine layout address))) = _
      rw [released, Seen.fuse_mark_fuse, Seen.mark_mark]
      rfl

end Procedures

end MallocLab
