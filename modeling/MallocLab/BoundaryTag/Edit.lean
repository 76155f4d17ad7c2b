import MallocLab.BoundaryTag.Block

/-! # Edits of a block sequence

The two changes a package makes to its blocks: a block that became free is
joined with the free blocks around it, and a free block serves a request.
-/

namespace MallocLab

/-- The block size a request is rounded up to: eight bytes of tags, eight-byte
steps, and never less than the smallest block. -/
def roundUp (request : Nat) : Nat := max 16 (8 * ((request + 15) / 8))

theorem roundUp_aligned (request : Nat) : roundUp request % 8 = 0 := by
  unfold roundUp
  omega

theorem roundUp_ge (request : Nat) : 16 ≤ roundUp request := Nat.le_max_left _ _

theorem le_roundUp (request : Nat) : request + 8 ≤ roundUp request := by
  unfold roundUp
  omega

open Blocks

namespace Block

/-- A block grown by its neighbours on both sides. -/
def absorb (left right : List Block) (block : Block) : Block where
  size := total left + block.size + total right
  usage := block.usage
  aligned := by
    have leftAligned := total_aligned left
    have rightAligned := total_aligned right
    have aligned := block.aligned
    omega
  fits := by
    have fits := block.fits
    omega

@[simp] theorem absorb_size (left right : List Block) (block : Block) :
    (block.absorb left right).size = total left + block.size + total right := rfl

@[simp] theorem absorb_isFree (left right : List Block) (block : Block) :
    (block.absorb left right).isFree = block.isFree := rfl

@[simp] theorem absorb_request? (left right : List Block) (block : Block) :
    (block.absorb left right).request? = block.request? := rfl

/-- A block given back. -/
def release (block : Block) : Block :=
  if large : 16 ≤ block.size then ofFree block.size block.aligned large else block

theorem release_of_large {block : Block} (large : 16 ≤ block.size) :
    block.release.size = block.size ∧ block.release.isFree = true := by
  simp [release, large, ofFree, isFree]

/-- What becomes of a free block that serves a request: a live block of the
rounded size and a free remainder where the remainder is large enough, one
live block of the whole size otherwise. -/
def serve (block : Block) (request : Nat) : List Block :=
  if split : roundUp request + 16 ≤ block.size then
    [ofLive (roundUp request) request (roundUp_aligned request) (roundUp_ge request)
        (le_roundUp request),
      ofFree (block.size - roundUp request)
        (by have := block.aligned; have := roundUp_aligned request; omega) (by omega)]
  else if enough : roundUp request ≤ block.size then
    [ofLive block.size request block.aligned ((roundUp_ge request).trans enough)
      ((le_roundUp request).trans enough)]
  else [block]

theorem total_serve (block : Block) (request : Nat) :
    total (block.serve request) = block.size := by
  unfold serve
  split
  · simp only [total_cons, ofLive, ofFree, total_nil]
    omega
  · split <;> simp [ofLive]

end Block

namespace Blocks

variable {front back : List Block} {block : Block} {cursor : Nat}

/-- The sequence after a block was joined with the free blocks next to it. -/
def settle (front : List Block) (block : Block) (back : List Block) : List Block :=
  front.rdropWhile Block.isFree ++
    block.absorb (front.rtakeWhile Block.isFree) (back.takeWhile Block.isFree) ::
      back.dropWhile Block.isFree

theorem front_split (front : List Block) :
    front.rdropWhile Block.isFree ++ front.rtakeWhile Block.isFree = front :=
  List.rdropWhile_append_rtakeWhile

theorem back_split (back : List Block) :
    back.takeWhile Block.isFree ++ back.dropWhile Block.isFree = back :=
  List.takeWhile_append_dropWhile

theorem rtakeWhile_free (front : List Block) :
    ∀ left ∈ front.rtakeWhile Block.isFree, left.isFree = true :=
  fun _ member => List.mem_rtakeWhile_imp member

theorem takeWhile_free (back : List Block) :
    ∀ right ∈ back.takeWhile Block.isFree, right.isFree = true :=
  fun _ member => List.mem_takeWhile_imp member

/-- Before a used block there is nothing to join. -/
theorem rtakeWhile_of_used (front : List Block) (used : block.isFree = false) :
    (front ++ [block]).rtakeWhile Block.isFree = [] ∧
      (front ++ [block]).rdropWhile Block.isFree = front ++ [block] := by
  constructor
  · rw [List.rtakeWhile_concat_neg _ _ _ (by simp [used])]
  · rw [List.rdropWhile_concat_neg _ _ _ (by simp [used])]

/-- In a coalesced sequence a free block has no free block before it. -/
theorem rtakeWhile_of_free (coalesced : Coalesced (front ++ [block]))
    (free : block.isFree = true) :
    (front ++ [block]).rtakeWhile Block.isFree = [block] ∧
      (front ++ [block]).rdropWhile Block.isFree = front := by
  have lastUsed : ∀ nonempty : front ≠ [], ¬(front.getLast nonempty).isFree = true := by
    intro nonempty
    have chain := (List.isChain_append.mp coalesced).2.2 _
      (List.getLast?_eq_some_getLast nonempty) block (by simp)
    rw [free] at chain
    simpa using chain
  constructor
  · rw [List.rtakeWhile_concat_pos _ _ _ free, List.rtakeWhile_eq_nil_iff.mpr lastUsed,
      List.nil_append]
  · rw [List.rdropWhile_concat_pos _ _ _ free, List.rdropWhile_eq_self_iff.mpr lastUsed]

theorem takeWhile_of_used (back : List Block) (used : block.isFree = false) :
    (block :: back).takeWhile Block.isFree = [] ∧
      (block :: back).dropWhile Block.isFree = block :: back := by
  simp [used]

theorem takeWhile_of_free (coalesced : Coalesced (block :: back))
    (free : block.isFree = true) :
    (block :: back).takeWhile Block.isFree = [block] ∧
      (block :: back).dropWhile Block.isFree = back := by
  cases back with
  | nil => simp [free]
  | cons next back =>
      have chain := (List.isChain_cons_cons.mp coalesced).1
      rw [free] at chain
      have used : next.isFree = false := by simpa using chain
      simp [free, used]

theorem total_settle (front : List Block) (block : Block) (back : List Block) :
    total (settle front block back) = total (front ++ block :: back) := by
  conv_rhs => rw [← front_split front, ← back_split back]
  simp only [settle, total_append, total_cons, Block.absorb_size]
  omega

theorem dropWhile_head_used (back : List Block) :
    ∀ next ∈ (back.dropWhile Block.isFree).head?, next.isFree = false := by
  intro next member
  have used := List.head?_dropWhile_not Block.isFree back
  rw [Option.mem_def.mp member] at used
  exact used

theorem rdropWhile_last_used (front : List Block) :
    ∀ last ∈ (front.rdropWhile Block.isFree).getLast?, last.isFree = false := by
  intro last member
  have nonempty : front.rdropWhile Block.isFree ≠ [] := by
    intro empty
    simp [empty] at member
  rw [List.getLast?_eq_some_getLast nonempty, Option.mem_some] at member
  subst member
  simpa using List.rdropWhile_last_not Block.isFree front nonempty

/-- Joining free neighbours leaves a coalesced sequence coalesced. -/
theorem coalesced_settle (block : Block) (frontCoalesced : Coalesced front)
    (backCoalesced : Coalesced back) : Coalesced (settle front block back) := by
  have keptCoalesced : Coalesced (front.rdropWhile Block.isFree) :=
    frontCoalesced.prefix (List.rdropWhile_prefix _ _)
  have restCoalesced : Coalesced (back.dropWhile Block.isFree) :=
    backCoalesced.suffix (List.dropWhile_suffix _)
  apply keptCoalesced.append
  · apply restCoalesced.cons
    exact fun next member => .inr (dropWhile_head_used back next member)
  · exact fun last member _ _ => .inl (rdropWhile_last_used front last member)

/-! ## Free and live blocks of an edited sequence -/

theorem liveSpots_of_free {blocks : List Block}
    (free : ∀ block ∈ blocks, block.isFree = true) : liveSpots cursor blocks = [] := by
  induction blocks generalizing cursor with
  | nil => rfl
  | cons head blocks induction =>
      rw [liveSpots_cons_of_not_live _ _ (Block.request?_of_isFree (free head (by simp)))]
      exact induction fun block member => free block (by simp [member])

theorem not_inLivePayload_of_free {blocks : List Block} {address : Nat}
    (free : ∀ block ∈ blocks, block.isFree = true) :
    ¬InLivePayload cursor blocks address := by
  intro inside
  rcases inPayload_iff.mp inside with ⟨spot, block, member, live, _⟩
  rcases mem_spots.mp member with ⟨front, back, rfl, _⟩
  rw [Block.request?_of_isFree (free block (by simp))] at live
  cases live

/-- Joining free blocks concerns no live block. -/
theorem liveSpots_settle (free : block.isFree = true) :
    liveSpots cursor (settle front block back) = liveSpots cursor (front ++ block :: back) := by
  have idle := Block.request?_of_isFree free
  conv_rhs => rw [← front_split front, ← back_split back]
  simp only [settle, liveSpots_append, total_append,
    liveSpots_of_free (rtakeWhile_free front), List.append_nil]
  rw [liveSpots_cons_of_not_live _ _ (by simpa using idle), liveSpots_cons_of_not_live _ _ idle,
    liveSpots_append, liveSpots_of_free (takeWhile_free back)]
  simp only [Block.absorb_size, List.nil_append, Nat.add_assoc]

theorem inLivePayload_settle (free : block.isFree = true) {address : Nat} :
    InLivePayload cursor (settle front block back) address ↔
      InLivePayload cursor (front ++ block :: back) address := by
  have idle := Block.request?_of_isFree free
  have noLeft : ∀ {start : Nat},
      ¬InLivePayload start (front.rtakeWhile Block.isFree) address :=
    not_inLivePayload_of_free (rtakeWhile_free front)
  have noRight : ∀ {start : Nat},
      ¬InLivePayload start (back.takeWhile Block.isFree) address :=
    not_inLivePayload_of_free (takeWhile_free back)
  conv_rhs => rw [← front_split front, ← back_split back]
  simp only [settle, inPayload_append, InPayload, total_append, Block.absorb_size,
    Block.absorb_request?, idle, noLeft, noRight, Option.isSome_none, Bool.false_eq_true,
    false_and, false_or, or_false, Nat.add_assoc]

/-- Joining free blocks replaces their addresses by that of the joined block. -/
theorem freeSpots_settle (free : block.isFree = true) :
    freeSpots cursor (settle front block back) =
      freeSpots cursor (front.rdropWhile Block.isFree) ++
        (cursor + total (front.rdropWhile Block.isFree) + 4,
            total (front.rtakeWhile Block.isFree) + block.size +
              total (back.takeWhile Block.isFree)) ::
          freeSpots (cursor + total front + block.size + total (back.takeWhile Block.isFree))
            (back.dropWhile Block.isFree) := by
  have frontTotal := congrArg total (front_split front)
  rw [total_append] at frontTotal
  rw [settle, freeSpots_append, freeSpots_cons_of_isFree _ _ (by simpa using free)]
  simp only [Block.absorb_size, ← frontTotal, Nat.add_assoc]

/-- The free blocks that are joined. -/
def absorbed (cursor : Nat) (front : List Block) (block : Block) (back : List Block) :
    List (Nat × Nat) :=
  freeSpots (cursor + total front + block.size) (back.takeWhile Block.isFree) ++
    freeSpots (cursor + total (front.rdropWhile Block.isFree))
      (front.rtakeWhile Block.isFree)

/-- The free blocks on both sides are those that are joined and those that
remain. -/
theorem perm_absorbed (cursor : Nat) (front : List Block) (block : Block)
    (back : List Block) :
    (freeSpots cursor front ++ freeSpots (cursor + total front + block.size) back).Perm
      (absorbed cursor front block back ++
        (freeSpots cursor (front.rdropWhile Block.isFree) ++
          freeSpots (cursor + total front + block.size +
            total (back.takeWhile Block.isFree)) (back.dropWhile Block.isFree))) := by
  have frontSpots : freeSpots cursor front =
      freeSpots cursor (front.rdropWhile Block.isFree) ++
        freeSpots (cursor + total (front.rdropWhile Block.isFree))
          (front.rtakeWhile Block.isFree) := by
    rw [← freeSpots_append, front_split]
  have backSpots : freeSpots (cursor + total front + block.size) back =
      freeSpots (cursor + total front + block.size) (back.takeWhile Block.isFree) ++
        freeSpots (cursor + total front + block.size +
          total (back.takeWhile Block.isFree)) (back.dropWhile Block.isFree) := by
    rw [← freeSpots_append, back_split]
  rw [frontSpots, backSpots, absorbed, List.append_assoc, List.append_assoc]
  refine (List.perm_append_comm_assoc _ _ _).trans ?_
  refine (List.Perm.append_left _ (List.perm_append_comm_assoc _ _ _)).trans ?_
  exact List.perm_append_comm_assoc _ _ _

theorem append_diff_cancel (first second : List (Nat × Nat)) :
    (first ++ second).diff first = second := by
  induction first with
  | nil => simp
  | cons head first induction => simpa using induction

/-- A list of the free blocks becomes one of the joined sequence by dropping
the joined blocks and adding the new one. -/
theorem perm_freeSpots_settle {free : List (Nat × Nat)} (isFree : block.isFree = true)
    (exact : free.Perm (freeSpots cursor front ++
      freeSpots (cursor + total front + block.size) back)) :
    ((cursor + total (front.rdropWhile Block.isFree) + 4,
        total (front.rtakeWhile Block.isFree) + block.size +
          total (back.takeWhile Block.isFree)) ::
        free.diff (absorbed cursor front block back)).Perm
      (freeSpots cursor (settle front block back)) := by
  rw [freeSpots_settle isFree]
  refine (List.Perm.cons _ ?_).trans List.perm_middle.symm
  refine ((exact.trans (perm_absorbed cursor front block back)).diff_right _).trans ?_
  rw [append_diff_cancel]

/-! ## Serving a request -/

/-- A block that is large enough becomes a live block, with or without a free
remainder behind it. -/
theorem serve_cases (block : Block) {request : Nat} (enough : roundUp request ≤ block.size) :
    (∃ live rest : Block, block.serve request = [live, rest] ∧
      live.size = roundUp request ∧ live.request? = some request ∧ live.isFree = false ∧
      rest.size = block.size - roundUp request ∧ rest.isFree = true ∧
      roundUp request + 16 ≤ block.size) ∨
    ∃ live : Block, block.serve request = [live] ∧ live.size = block.size ∧
      live.request? = some request ∧ live.isFree = false ∧
      ¬roundUp request + 16 ≤ block.size := by
  by_cases split : roundUp request + 16 ≤ block.size
  · left
    rw [Block.serve, dif_pos split]
    exact ⟨_, _, rfl, rfl, rfl, rfl, rfl, rfl, split⟩
  · right
    rw [Block.serve, dif_neg split, dif_pos enough]
    exact ⟨_, rfl, rfl, rfl, rfl, split⟩

theorem liveSpots_serve {request : Nat} (enough : roundUp request ≤ block.size) :
    liveSpots cursor (block.serve request) = [(cursor + 4, request)] := by
  rcases serve_cases block enough with
    ⟨live, rest, shape, _, isLive, _, _, isFree, _⟩ | ⟨live, shape, _, isLive, _⟩
  · rw [shape, liveSpots_cons_of_live _ _ isLive,
      liveSpots_cons_of_not_live _ _ (Block.request?_of_isFree isFree), liveSpots_nil]
  · rw [shape, liveSpots_cons_of_live _ _ isLive, liveSpots_nil]

theorem freeSpots_serve {request : Nat} (enough : roundUp request ≤ block.size) :
    freeSpots cursor (block.serve request) =
      if roundUp request + 16 ≤ block.size then
        [(cursor + roundUp request + 4, block.size - roundUp request)] else [] := by
  rcases serve_cases block enough with
    ⟨live, rest, shape, size, _, used, restSize, isFree, split⟩ |
    ⟨live, shape, _, _, used, whole⟩
  · rw [shape, if_pos split, freeSpots_cons_of_not_isFree _ _ used,
      freeSpots_cons_of_isFree _ _ isFree, freeSpots_nil, size, restSize]
  · rw [shape, if_neg whole, freeSpots_cons_of_not_isFree _ _ used, freeSpots_nil]

theorem coalesced_serve {request : Nat} (enough : roundUp request ≤ block.size)
    (isFree : block.isFree = true) (coalesced : Coalesced (front ++ block :: back)) :
    Coalesced (front ++ (block.serve request ++ back)) := by
  rcases List.isChain_append.mp coalesced with ⟨frontCoalesced, tail, _⟩
  rcases List.isChain_cons.mp tail with ⟨nextUsed, backCoalesced⟩
  rcases serve_cases block enough with
    ⟨live, rest, shape, _, _, used, _, _, _⟩ | ⟨live, shape, _, _, used, _⟩
  · rw [shape]
    refine frontCoalesced.append ?_ ?_
    · refine (backCoalesced.cons ?_).cons ?_
      · intro next member
        have apart := nextUsed next member
        rw [isFree] at apart
        exact .inr (by simpa using apart)
      · exact fun _ _ => .inl used
    · intro last _ head headMember
      simp only [List.cons_append, List.head?_cons, Option.mem_some] at headMember
      exact .inr (headMember ▸ used)
  · rw [shape]
    refine frontCoalesced.append (backCoalesced.cons fun _ _ => .inl used) ?_
    intro last _ head headMember
    simp only [List.cons_append, List.head?_cons, Option.mem_some] at headMember
    exact .inr (headMember ▸ used)

/-- Serving from a free block takes no payload from a live one. -/
theorem inLivePayload_serve {request address : Nat} (isFree : block.isFree = true)
    (inside : InLivePayload cursor (front ++ block :: back) address) :
    InLivePayload cursor (front ++ (block.serve request ++ back)) address := by
  simp only [inPayload_append, InPayload, Block.total_serve,
    Block.request?_of_isFree isFree] at inside ⊢
  rcases inside with inFront | ⟨idle, _⟩ | inBack
  · exact .inl inFront
  · cases idle
  · exact .inr (.inr inBack)

theorem proper_serve {request : Nat} (isFree : block.isFree = true) :
    ∀ piece ∈ block.serve request, piece.usage ≠ .sentinel := by
  intro piece member
  unfold Block.serve at member
  split at member
  · simp only [List.mem_cons, List.not_mem_nil, or_false] at member
    rcases member with rfl | rfl <;> simp [Block.ofLive, Block.ofFree]
  · split at member
    · rw [List.mem_singleton.mp member]
      simp [Block.ofLive]
    · rw [List.mem_singleton.mp member, Block.isFree_iff.mp isFree]
      simp

end Blocks

end MallocLab
