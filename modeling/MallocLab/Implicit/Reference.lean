import MallocLab.Client
import MallocLab.BoundaryTag.Settle

/-! # First fit on segments

What an address-ordered first-fit allocator does, told without addresses of
tags: the heap is a list of segments, and the payload address of a segment is
that of the first one plus the sizes in between.
-/

namespace MallocLab.Implicit

structure Segment where
  size : Nat
  alloc : Bool
  deriving DecidableEq, Repr

namespace Reference

/-- The bytes the segments cover. -/
def length : List Segment → Nat
  | [] => 0
  | segment :: rest => segment.size + length rest

/-- A segment in front of others, merged with the next one if both are free. -/
def join (segment : Segment) : List Segment → List Segment
  | [] => [segment]
  | next :: rest =>
      if segment.alloc = false ∧ next.alloc = false then
        ⟨segment.size + next.size, false⟩ :: rest
      else segment :: next :: rest

/-- A free segment of some size, taken by a request for `asize` bytes. -/
def split (size asize : Nat) : List Segment :=
  if asize + 16 ≤ size then [⟨asize, true⟩, ⟨size - asize, false⟩] else [⟨size, true⟩]

/-- Take the first free segment that is large enough. -/
def take (asize : Nat) : Nat → List Segment → Option (Nat × List Segment)
  | _, [] => none
  | address, segment :: rest =>
      if segment.alloc = false ∧ asize ≤ segment.size then
        some (address, split segment.size asize ++ rest)
      else
        (take asize (address + segment.size) rest).map fun taken =>
          (taken.1, segment :: taken.2)

/-- Append free bytes. -/
def extend (heap : List Segment) (size : Nat) : List Segment :=
  heap.foldr join [⟨size, false⟩]

/-- Mark the segment at an address free and merge it with its neighbours. -/
def release (target : Nat) : Nat → List Segment → List Segment
  | _, [] => []
  | address, segment :: rest =>
      if address = target then join ⟨segment.size, false⟩ rest
      else join segment (release target (address + segment.size) rest)

/-- The first segment has its payload at `first`, and there may be `capacity`
bytes of segments at most. -/
def malloc (first capacity : Nat) (heap : List Segment) (size : Nat) : Nat × List Segment :=
  if size = 0 then (null, heap)
  else
    match take (roundUp size) first heap with
    | some taken => taken
    | none =>
        if length heap + extension size ≤ capacity then
          (take (roundUp size) first (extend heap (extension size))).getD (null, heap)
        else (null, heap)

def step (first capacity : Nat) (heap : List Segment) : Request → Nat × List Segment
  | .malloc size => malloc first capacity heap size
  | .free ptr => (null, release ptr first heap)
  | .realloc ptr size =>
      let served := malloc first capacity heap size
      if served.1 = null then (null, heap) else (served.1, release ptr first served.2)

/-- The results and the segments after some requests, the last of which comes
first. A run begins with one free chunk. -/
def run (first capacity : Nat) : List Request → List Nat × List Segment
  | [] => ([], [⟨chunkSize, false⟩])
  | request :: earlier =>
      let before := run first capacity earlier
      let after := step first capacity before.2 request
      (after.1 :: before.1, after.2)

example : run 24 8192 [.free 24, .malloc 50, .malloc 100] =
    ([0, 136, 24], [⟨112, false⟩, ⟨64, true⟩, ⟨3920, false⟩]) := by decide

end Reference

/-! ## Blocks as segments -/

open Blocks

/-- What the tags of a block tell. -/
def Segment.ofBlock (block : Block) : Segment := ⟨block.size, !block.isFree⟩

@[simp] theorem Segment.ofBlock_size (block : Block) : (ofBlock block).size = block.size := rfl

@[simp] theorem Segment.ofBlock_alloc (block : Block) :
    (ofBlock block).alloc = !block.isFree := rfl

abbrev segments (blocks : List Block) : List Segment := blocks.map .ofBlock

variable {front back blocks : List Block} {block : Block} {cursor asize : Nat}

theorem length_segments (blocks : List Block) :
    Reference.length (segments blocks) = total blocks := by
  induction blocks with
  | nil => rfl
  | cons block blocks induction => exact congrArg (block.size + ·) induction

theorem segments_serve {request : Nat} (enough : roundUp request ≤ block.size) :
    segments (block.serve request) = Reference.split block.size (roundUp request) := by
  rcases serve_cases block enough with
    ⟨live, rest, shape, liveSize, _, used, restSize, restFree, fits⟩ |
    ⟨live, shape, liveSize, _, used, whole⟩
  · rw [Reference.split, if_pos fits, shape]
    simp [Segment.ofBlock, liveSize, restSize, used, restFree]
  · rw [Reference.split, if_neg whole, shape]
    simp [Segment.ofBlock, liveSize, used]

/-! ### Taking -/

theorem take_of_find {entry : Nat × Nat}
    (found : (freeSpots cursor blocks).find? (fun entry => asize ≤ entry.2) = some entry) :
    ∃ front block back, blocks = front ++ block :: back ∧ entry.1 = cursor + total front + 4 ∧
      asize ≤ block.size ∧ Reference.take asize (cursor + 4) (segments blocks) =
        some (entry.1, segments front ++ (Reference.split block.size asize ++ segments back)) := by
  induction blocks generalizing cursor with
  | nil => simp at found
  | cons block blocks induction =>
      by_cases fits : block.isFree = true ∧ asize ≤ block.size
      · rw [freeSpots_cons_of_isFree _ _ fits.1, List.find?_cons_of_pos (by simpa using fits.2)]
          at found
        cases found
        refine ⟨[], block, blocks, rfl, rfl, fits.2, ?_⟩
        simp [Reference.take, Segment.ofBlock, fits]
      · have later : (freeSpots (cursor + block.size) blocks).find?
            (fun entry => asize ≤ entry.2) = some entry := by
          cases isFree : block.isFree with
          | false => rwa [freeSpots_cons_of_not_isFree _ _ isFree] at found
          | true =>
              have small : ¬asize ≤ block.size := fun large => fits ⟨isFree, large⟩
              rwa [freeSpots_cons_of_isFree _ _ isFree,
                List.find?_cons_of_neg (by simpa using small)] at found
        rcases induction later with ⟨front, owner, back, shape, address, large, taken⟩
        refine ⟨block :: front, owner, back, by rw [shape]; rfl, ?_, large, ?_⟩
        · rw [address, total_cons]
          omega
        · have next : cursor + 4 + block.size = cursor + block.size + 4 :=
            Nat.add_right_comm _ _ _
          have passed : ¬((Segment.ofBlock block).alloc = false ∧
              asize ≤ (Segment.ofBlock block).size) := by
            simpa [Segment.ofBlock] using fits
          rw [segments, List.map_cons, Reference.take, if_neg passed]
          change (Reference.take asize (cursor + 4 + block.size) (segments blocks)).map _ = _
          rw [next, taken]
          rfl

theorem take_of_none
    (nothing : (freeSpots cursor blocks).find? (fun entry => asize ≤ entry.2) = none) :
    Reference.take asize (cursor + 4) (segments blocks) = none := by
  induction blocks generalizing cursor with
  | nil => rfl
  | cons block blocks induction =>
      have next : cursor + 4 + block.size = cursor + block.size + 4 := Nat.add_right_comm _ _ _
      have passed : ¬(block.isFree = true ∧ asize ≤ block.size) ∧
          (freeSpots (cursor + block.size) blocks).find? (fun entry => asize ≤ entry.2) =
            none := by
        cases isFree : block.isFree with
        | false =>
            rw [freeSpots_cons_of_not_isFree _ _ isFree] at nothing
            exact ⟨by simp, nothing⟩
        | true =>
            rw [freeSpots_cons_of_isFree _ _ isFree, List.find?_cons] at nothing
            split at nothing
            · cases nothing
            · rename_i small
              exact ⟨by simpa using small, nothing⟩
      have skipped : ¬((Segment.ofBlock block).alloc = false ∧
          asize ≤ (Segment.ofBlock block).size) := by
        simpa [Segment.ofBlock] using passed.1
      rw [segments, List.map_cons, Reference.take, if_neg skipped]
      change (Reference.take asize (cursor + 4 + block.size) (segments blocks)).map _ = _
      rw [next, induction passed.2]
      rfl

/-! ### Merging -/

theorem join_of_apart {segment next : Segment} (apart : segment.alloc = true ∨ next.alloc = true)
    (rest : List Segment) :
    Reference.join segment (next :: rest) = segment :: next :: rest := by
  rw [Reference.join, if_neg]
  rintro ⟨isFree, nextFree⟩
  rcases apart with used | used
  · rw [used] at isFree
    cases isFree
  · rw [used] at nextFree
    cases nextFree

theorem join_of_free {segment next : Segment} (isFree : segment.alloc = false)
    (nextFree : next.alloc = false) (rest : List Segment) :
    Reference.join segment (next :: rest) = ⟨segment.size + next.size, false⟩ :: rest := by
  rw [Reference.join, if_pos ⟨isFree, nextFree⟩]

/-- Nothing is merged in front of what cannot be. -/
theorem foldr_join (coalesced : Coalesced (front ++ [block])) {segment : Segment}
    (same : segment.alloc = !block.isFree) (rest : List Segment) :
    (segments front).foldr Reference.join (segment :: rest) = segments front ++ segment :: rest := by
  induction front with
  | nil => rfl
  | cons left front induction =>
      rw [List.cons_append, Coalesced, List.isChain_cons] at coalesced
      rw [segments, List.map_cons, List.foldr_cons, induction coalesced.2]
      cases front with
      | nil =>
          have apart : left.isFree = false ∨ block.isFree = false := coalesced.1 block rfl
          exact join_of_apart (by simpa [same] using apart) _
      | cons next front =>
          have apart : left.isFree = false ∨ next.isFree = false := coalesced.1 next rfl
          exact join_of_apart (by simpa using apart) _

/-- Joining a free block with its neighbours is merging segments. -/
theorem segments_settle (frontCoalesced : Coalesced front) (backCoalesced : Coalesced back)
    (isFree : block.isFree = true) :
    segments (Blocks.settle front block back) =
      (segments front).foldr Reference.join
        (Reference.join ⟨block.size, false⟩ (segments back)) := by
  generalize size : block.size + total (back.takeWhile Block.isFree) = behind
  have joined : Reference.join ⟨block.size, false⟩ (segments back) =
      ⟨behind, false⟩ :: segments (back.dropWhile Block.isFree) := by
    subst size
    rcases back with _ | ⟨right, rest⟩
    · rfl
    · cases rightFree : right.isFree with
      | false =>
          have kept := takeWhile_of_used rest rightFree
          rw [kept.1, kept.2]
          exact join_of_apart (by simp [rightFree]) _
      | true =>
          have taken := takeWhile_of_free backCoalesced rightFree
          rw [taken.1, taken.2]
          exact join_of_free rfl (by simp [rightFree]) _
  have settled : segments (Blocks.settle front block back) =
      segments (front.rdropWhile Block.isFree) ++
        ⟨total (front.rtakeWhile Block.isFree) + behind, false⟩ ::
          segments (back.dropWhile Block.isFree) := by
    simp [Blocks.settle, Segment.ofBlock, isFree, ← size, Nat.add_assoc]
  have last : ∀ start left heap, (segments (start ++ [left])).foldr Reference.join heap =
      (segments start).foldr Reference.join (Reference.join (.ofBlock left) heap) := by
    intro start left heap
    simp
  rw [joined, settled]
  rcases front_cases frontCoalesced with
    ⟨noLeft, kept, rfl | ⟨start, left, rfl, leftUsed⟩⟩ | ⟨start, left, rfl, leftFree, oneLeft, kept⟩
  · simp
  · rw [noLeft, kept, last, join_of_apart (by simp [leftUsed]), foldr_join frontCoalesced rfl]
    simp
  · rw [oneLeft, kept, last, join_of_free (by simp [leftFree]) rfl,
      foldr_join frontCoalesced (by simp [leftFree])]
    simp

theorem release_segments (front : List Block) (block : Block) (back : List Block) (cursor : Nat) :
    Reference.release (cursor + total front + 4) (cursor + 4)
        (segments (front ++ block :: back)) =
      (segments front).foldr Reference.join
        (Reference.join ⟨block.size, false⟩ (segments back)) := by
  induction front generalizing cursor with
  | nil => simp [Reference.release, Segment.ofBlock]
  | cons left front induction =>
      have positive := left.size_ge
      have later := induction (cursor + left.size)
      have target : cursor + total (left :: front) + 4 = cursor + left.size + total front + 4 := by
        rw [total_cons]
        omega
      have next : cursor + 4 + left.size = cursor + left.size + 4 := Nat.add_right_comm _ _ _
      rw [target, List.cons_append, segments, List.map_cons, Reference.release,
        if_neg (by omega)]
      change Reference.join _ (Reference.release _ (cursor + 4 + left.size) (segments _)) = _
      rw [next, later]
      rfl

end MallocLab.Implicit
