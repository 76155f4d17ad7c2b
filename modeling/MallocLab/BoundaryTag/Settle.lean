import MallocLab.BoundaryTag.Coalesce

/-! # Coalescing settles a block

The heap after `coalesce` is the one the abstract allocator settles a free
block in.
-/

namespace MallocLab

open Program Blocks

variable {Statics Index : Type} {machine later other : Machine Statics} {bp : Nat}
  {left block right prologue : Block} {front back : List Block} {index : Index}
  {policy : Policy Index} {lists : FreeIndex Statics Index}
  {addBlock : Nat → Nat → Program (Machine Statics) Unit}
  {removeBlock : Nat → Program (Machine Statics) Unit}

/-- Where the header of the first block behind the prologue is. -/
def Machine.first (machine : Machine Statics) (prologue : Block) : Nat :=
  machine.origin + prologue.size

/-- A free block stands between two coalesced parts of the heap, and the index
holds the free blocks of these parts. -/
structure Loose (policy : Policy Index) (lists : FreeIndex Statics Index)
    (machine : Machine Statics) (prologue : Block) (front : List Block) (block : Block)
    (back : List Block) (index : Index) : Prop where
  sentinel : prologue.usage = .sentinel
  threaded : Threaded lists machine (prologue :: (front ++ block :: back)) index
  isFree : block.isFree = true
  frontCoalesced : Coalesced front
  backCoalesced : Coalesced back
  ordered : policy.Ordered index
  exact : (policy.entries index).Perm (freeSpots (machine.first prologue) front ++
    freeSpots (machine.first prologue + total front + block.size) back)

/-- What `coalesce` leaves of a loose block: the settled heap, with every live
byte as it was. -/
def Settled (policy : Policy Index) (lists : FreeIndex Statics Index)
    (machine : Machine Statics) (prologue : Block) (front : List Block) (block : Block)
    (back : List Block) (index : Index) (final : Machine Statics) : Prop :=
  let layout := Layout.settle policy (machine.first prologue) front block back index
  Threaded lists final (prologue :: layout.blocks) layout.index ∧
    Keeps (prologue :: (front ++ block :: back)) machine final

theorem isFree_of_sentinel (sentinel : prologue.usage = .sentinel) :
    prologue.isFree = false := by
  simp [Block.isFree, sentinel]

theorem freeSpots_prologue (sentinel : prologue.usage = .sentinel) (cursor : Nat)
    (blocks : List Block) :
    freeSpots cursor (prologue :: blocks) = freeSpots (cursor + prologue.size) blocks :=
  freeSpots_cons_of_not_isFree _ _ (isFree_of_sentinel sentinel)

namespace Loose

theorem indexed (loose : Loose policy lists machine prologue front block back index) :
    Indexed policy lists machine (prologue :: (front ++ block :: back)) index where
  threaded := loose.threaded
  ordered := loose.ordered
  sized := by
    intro entry member
    have listed := loose.exact.mem_iff.mp member
    rw [freeSpots_prologue loose.sentinel]
    simp only [freeSpots_append]
    rw [freeSpots_cons_of_isFree _ _ loose.isFree]
    simp only [List.mem_append, List.mem_cons] at listed ⊢
    exact listed.imp_right .inr

/-- What remains in the index when the neighbours have left it. -/
theorem remaining (lawful : policy.Lawful)
    (loose : Loose policy lists machine prologue front block back index) :
    policy.Ordered (policy.removeAll index
        (absorbed (machine.first prologue) front block back)) ∧
      (policy.entries (policy.removeAll index
        (absorbed (machine.first prologue) front block back))).Perm
        (freeSpots (machine.first prologue) (front.rdropWhile Block.isFree) ++
          freeSpots (machine.first prologue + total front + block.size +
            total (back.takeWhile Block.isFree)) (back.dropWhile Block.isFree)) := by
  have parted := loose.exact.trans (perm_absorbed _ front block back)
  have present := ((List.sublist_append_left _ _).subperm).trans parted.symm.subperm
  have removed := lawful.removeAll loose.ordered present
  refine ⟨removed.1, removed.2.trans ((parted.diff_right _).trans ?_)⟩
  rw [append_diff_cancel]

/-- When the neighbours have left the index and the tags of the joined block
are written, adding it to the index settles the heap. -/
theorem finish (lawful : policy.Lawful)
    (implements : Implements policy lists addBlock removeBlock)
    (loose : Loose policy lists machine prologue front block back index)
    (threaded : Threaded lists later (prologue :: (front ++ block :: back))
      (policy.removeAll index (absorbed (machine.first prologue) front block back)))
    (keeps : Keeps (prologue :: (front ++ block :: back)) machine later)
    (position : bp = machine.first prologue + total (front.rdropWhile Block.isFree) + 4)
    (stamped : Stamped later other bp (block.absorb (front.rtakeWhile Block.isFree)
      (back.takeWhile Block.isFree))) :
    Ensures (addBlock bp (total (front.rtakeWhile Block.isFree) + block.size +
        total (back.takeWhile Block.isFree))) other fun _ final =>
      Settled policy lists machine prologue front block back index final := by
  have remaining := loose.remaining lawful
  have frontTotal := congrArg total (front_split front)
  rw [total_append] at frontTotal
  have positive := prologue.size_ge
  have shape : prologue :: (front ++ block :: back) =
      (prologue :: front.rdropWhile Block.isFree) ++
        ((front.rtakeWhile Block.isFree ++ block :: back.takeWhile Block.isFree) ++
          back.dropWhile Block.isFree) := by
    simp only [List.cons_append, List.append_assoc, back_split]
    rw [← List.append_assoc, front_split]
  have settledShape : (prologue :: front.rdropWhile Block.isFree) ++
      ([block.absorb (front.rtakeWhile Block.isFree) (back.takeWhile Block.isFree)] ++
        back.dropWhile Block.isFree) = prologue :: Blocks.settle front block back := by
    simp [Blocks.settle]
  have origin := keeps.arena.origin
  -- no entry that remains lies in the stretch that is joined
  have away : ∀ node ∈ (policy.entries (policy.removeAll index
      (absorbed (machine.first prologue) front block back))).map Prod.fst,
      node < bp ∨ bp + (total (front.rtakeWhile Block.isFree) + block.size +
        total (back.takeWhile Block.isFree)) ≤ node := by
    intro node member
    rcases List.mem_map.mp member with ⟨⟨address, size⟩, inside, rfl⟩
    have place := remaining.2.mem_iff.mp inside
    have blockPositive := block.size_ge
    simp only [List.mem_append] at place
    rcases place with inFront | inBack
    · rcases mem_freeSpots.mp inFront with ⟨owner, spot, _, rfl⟩
      have bounds := spot_bounds spot
      have ownerPositive := owner.size_ge
      left
      simp only
      omega
    · rcases mem_freeSpots.mp inBack with ⟨owner, spot, _, rfl⟩
      have bounds := spot_bounds spot
      right
      simp only
      omega
  rw [shape] at threaded
  have whole : bp = later.origin + total (prologue :: front.rdropWhile Block.isFree) + 4 := by
    rw [origin, position, total_cons, Machine.first]
    omega
  have size : (block.absorb (front.rtakeWhile Block.isFree)
      (back.takeWhile Block.isFree)).size =
      total (front.rtakeWhile Block.isFree ++ block :: back.takeWhile Block.isFree) := by
    simp only [Block.absorb_size, total_append, total_cons]
    omega
  have merged := threaded.merge stamped whole size (by
    intro node member owner spot
    have bounds := spot_bounds spot
    have ownerPositive := owner.size_ge
    simp only [total_append, total_cons] at bounds
    rcases implements.nodes member with rfl | listed
    · omega
    · have apart := away node listed
      rw [total_cons] at whole
      omega)
  have mergedKeeps : Keeps (prologue :: (front ++ block :: back)) later other := by
    rw [shape]
    apply Keeps.of_outside stamped.arena
    · intro member inside
      simp only [List.mem_append, List.mem_cons] at inside
      apply Block.request?_of_isFree
      rcases inside with inLeft | rfl | inRight
      · exact rtakeWhile_free front member inLeft
      · exact loose.isFree
      · exact takeWhile_free back member inRight
    · intro address outside
      apply (stamped.one whole).outside
      rw [← size] at outside
      simpa using outside
  rw [settledShape] at merged
  have otherOrigin : other.origin = machine.origin := by
    rw [mergedKeeps.arena.origin, origin]
  have sized : ∀ entry ∈ policy.entries (policy.removeAll index
      (absorbed (machine.first prologue) front block back)),
      entry ∈ freeSpots other.origin (prologue :: Blocks.settle front block back) := by
    intro entry member
    rw [otherOrigin, freeSpots_prologue loose.sentinel, freeSpots_settle loose.isFree]
    have place := remaining.2.mem_iff.mp member
    simp only [List.mem_append, List.mem_cons] at place ⊢
    exact place.imp_right .inr
  have spot : (bp, block.absorb (front.rtakeWhile Block.isFree)
      (back.takeWhile Block.isFree)) ∈
      spots other.origin (prologue :: Blocks.settle front block back) := by
    refine mem_spots.mpr ⟨prologue :: front.rdropWhile Block.isFree,
      back.dropWhile Block.isFree, by simp [Blocks.settle], ?_⟩
    rw [otherOrigin, ← origin]
    exact whole
  have absent : bp ∉ (policy.entries (policy.removeAll index
      (absorbed (machine.first prologue) front block back))).map Prod.fst := by
    intro member
    have apart := away bp member
    have blockPositive := block.size_ge
    omega
  have added := implements.add ⟨merged, remaining.1, sized⟩ spot
    (by simpa using loose.isFree) absent (by rw [otherOrigin, position, Machine.first]; omega)
  refine added.mono fun _ final => ?_
  rintro ⟨finalThreaded, finalKeeps⟩
  have idle := Block.request?_of_isFree loose.isFree
  have kept := keeps.trans mergedKeeps fun address inside => inside
  refine ⟨?_, kept.trans finalKeeps fun address inside => ?_⟩
  · simpa [Layout.settle, position] using finalThreaded
  · simp only [InPayload] at inside ⊢
    refine inside.imp_right fun later => ?_
    exact (inLivePayload_settle loose.isFree).mpr later

end Loose

/-- A free block that leaves the lists leaves an indexed heap. -/
theorem Indexed.remove (lawful : policy.Lawful)
    (implements : Implements policy lists addBlock removeBlock) {blocks : List Block}
    (indexed : Indexed policy lists machine blocks index) {entry : Nat × Nat}
    (listed : entry ∈ policy.entries index) :
    Ensures (removeBlock entry.1) machine fun _ middle =>
      Indexed policy lists middle blocks (policy.remove index entry) ∧
        Keeps blocks machine middle := by
  refine (implements.remove indexed listed).mono fun _ middle => ?_
  rintro ⟨threaded, keeps⟩
  refine ⟨⟨threaded, lawful.ordered_remove entry indexed.ordered, ?_⟩, keeps⟩
  intro other member
  rw [keeps.arena.origin]
  have removed := lawful.entries_remove indexed.ordered listed
  exact indexed.sized other (List.mem_of_mem_erase (removed.mem_iff.mp member))

/-- Two free blocks leave the lists one after the other. -/
theorem Indexed.remove_two (lawful : policy.Lawful)
    (implements : Implements policy lists addBlock removeBlock) {blocks : List Block}
    (indexed : Indexed policy lists machine blocks index) {first second : Nat × Nat}
    (firstListed : first ∈ policy.entries index)
    (secondListed : second ∈ policy.entries index) (distinct : second ≠ first) :
    Ensures (removeBlock first.1) machine fun _ middle =>
      Threaded lists middle blocks (policy.remove index first) ∧
        Keeps blocks machine middle ∧
        Ensures (removeBlock second.1) middle fun _ later =>
          Threaded lists later blocks (policy.remove (policy.remove index first) second) ∧
            Keeps blocks machine later := by
  refine (indexed.remove lawful implements firstListed).mono fun _ middle => ?_
  rintro ⟨middleIndexed, keeps⟩
  refine ⟨middleIndexed.threaded, keeps, ?_⟩
  have removed := lawful.entries_remove indexed.ordered firstListed
  have still : second ∈ policy.entries (policy.remove index first) :=
    removed.mem_iff.mpr ((List.mem_erase_of_ne distinct).mpr secondListed)
  refine (middleIndexed.remove lawful implements still).mono fun _ later => ?_
  rintro ⟨laterIndexed, laterKeeps⟩
  exact ⟨laterIndexed.threaded, keeps.trans laterKeeps fun _ inside => inside⟩

/-! ## The cases of a coalesced neighbourhood -/

theorem front_cases (coalesced : Coalesced front) :
    (front.rtakeWhile Block.isFree = [] ∧ front.rdropWhile Block.isFree = front ∧
      (front = [] ∨ ∃ start left, front = start ++ [left] ∧ left.isFree = false)) ∨
    ∃ start left, front = start ++ [left] ∧ left.isFree = true ∧
      front.rtakeWhile Block.isFree = [left] ∧ front.rdropWhile Block.isFree = start := by
  rcases List.eq_nil_or_concat front with rfl | ⟨start, left, rfl⟩
  · exact .inl ⟨rfl, rfl, .inl rfl⟩
  · rw [List.concat_eq_append] at coalesced ⊢
    cases isFree : left.isFree with
    | false =>
        have used := rtakeWhile_of_used start isFree
        exact .inl ⟨used.1, used.2, .inr ⟨start, left, rfl, isFree⟩⟩
    | true =>
        have taken := rtakeWhile_of_free coalesced isFree
        exact .inr ⟨start, left, rfl, isFree, taken.1, taken.2⟩

theorem back_cases (coalesced : Coalesced back) :
    (back.takeWhile Block.isFree = [] ∧ allocField (headTag back) = 1) ∨
    ∃ right rest, back = right :: rest ∧ right.isFree = true ∧
      back.takeWhile Block.isFree = [right] := by
  rcases back with _ | ⟨right, rest⟩
  · exact .inl ⟨rfl, allocField_headTag_nil⟩
  · cases isFree : right.isFree with
    | false =>
        refine .inl ⟨(takeWhile_of_used rest isFree).1, ?_⟩
        rw [allocField_headTag_cons, isFree]
        rfl
    | true => exact .inr ⟨right, rest, rfl, isFree, (takeWhile_of_free coalesced isFree).1⟩

theorem absorb_nothing (block : Block) : block.absorb [] [] = block := by
  ext1 <;> simp [Block.absorb]

/-- The last block in front of a loose one, when it cannot be joined. -/
theorem exists_used_left (sentinel : prologue.usage = .sentinel)
    (used : front = [] ∨ ∃ start left, front = start ++ [left] ∧ left.isFree = false) :
    ∃ start left, prologue :: front = start ++ [left] ∧ left.isFree = false := by
  rcases used with rfl | ⟨start, left, rfl, isUsed⟩
  · exact ⟨[], prologue, rfl, isFree_of_sentinel sentinel⟩
  · exact ⟨prologue :: start, left, rfl, isUsed⟩

/-- What surrounds the loose block in any machine that still has its blocks. -/
theorem Tiled.around_loose {start : List Block} (shape : prologue :: front = start ++ [left])
    (position : bp = machine.first prologue + total front + 4)
    (tiled : Tiled later (prologue :: (front ++ block :: back)))
    (origin : later.origin = machine.origin) : Around later bp left block back := by
  have sums := congrArg total shape
  simp only [total_cons, total_append, total_nil] at sums
  have whole : prologue :: (front ++ block :: back) = start ++ left :: block :: back := by
    rw [← List.cons_append, shape]
    simp
  apply tiled.around whole
  rw [origin, position, Machine.first]
  omega

theorem Tiled.blockAt_next {rest : List Block}
    (position : bp = machine.first prologue + total front + 4)
    (tiled : Tiled later (prologue :: (front ++ block :: right :: rest)))
    (origin : later.origin = machine.origin) : BlockAt later (bp + block.size) right := by
  apply tiled.blockAt
  refine mem_spots.mpr ⟨prologue :: (front ++ [block]), rest, by simp, ?_⟩
  rw [origin, position, Machine.first]
  simp only [total_cons, total_append, total_nil]
  omega

section Neighbours

variable {start rest : List Block}

/-- A free block behind a loose one is listed. -/
theorem Loose.right_listed
    (loose : Loose policy lists machine prologue front block (right :: rest) index)
    (rightFree : right.isFree = true)
    (position : bp = machine.first prologue + total front + 4) :
    (bp + block.size, right.size) ∈ policy.entries index := by
  refine loose.exact.mem_iff.mpr (List.mem_append_right _ ?_)
  rw [freeSpots_cons_of_isFree _ _ rightFree]
  have address : machine.first prologue + total front + block.size + 4 = bp + block.size := by
    omega
  rw [address]
  exact List.mem_cons_self

/-- A free block in front of a loose one is listed. -/
theorem Loose.left_listed
    (loose : Loose policy lists machine prologue (start ++ [left]) block back index)
    (leftFree : left.isFree = true)
    (position : bp = machine.first prologue + total (start ++ [left]) + 4) :
    (bp - left.size, left.size) ∈ policy.entries index := by
  refine loose.exact.mem_iff.mpr (List.mem_append_left _ ?_)
  simp only [total_append, total_cons, total_nil] at position
  rw [freeSpots_append, freeSpots_cons_of_isFree _ _ leftFree]
  have address : machine.first prologue + total start + 4 = bp - left.size := by
    omega
  rw [address]
  simp

/-- What the index gives up in each case. -/
theorem absorbed_nothing {cursor : Nat} (noLeft : front.rtakeWhile Block.isFree = [])
    (noRight : back.takeWhile Block.isFree = []) : absorbed cursor front block back = [] := by
  simp [absorbed, noLeft, noRight]

theorem absorbed_right (noLeft : front.rtakeWhile Block.isFree = [])
    (oneRight : back.takeWhile Block.isFree = [right]) (rightFree : right.isFree = true)
    (position : bp = machine.first prologue + total front + 4) :
    absorbed (machine.first prologue) front block back = [(bp + block.size, right.size)] := by
  simp only [absorbed, noLeft, oneRight, freeSpots_cons_of_isFree _ _ rightFree,
    freeSpots_nil, List.append_nil, position]
  congr 2
  omega

theorem absorbed_left (noRight : back.takeWhile Block.isFree = [])
    (oneLeft : front.rtakeWhile Block.isFree = [left])
    (kept : front.rdropWhile Block.isFree = start) (leftFree : left.isFree = true)
    (spot : bp - left.size = machine.first prologue + total start + 4) :
    absorbed (machine.first prologue) front block back = [(bp - left.size, left.size)] := by
  simp only [absorbed, oneLeft, noRight, kept, freeSpots_cons_of_isFree _ _ leftFree,
    freeSpots_nil, List.nil_append, spot]

theorem absorbed_both (oneRight : back.takeWhile Block.isFree = [right])
    (oneLeft : front.rtakeWhile Block.isFree = [left])
    (kept : front.rdropWhile Block.isFree = start) (leftFree : left.isFree = true)
    (rightFree : right.isFree = true)
    (spot : bp - left.size = machine.first prologue + total start + 4)
    (position : bp = machine.first prologue + total front + 4) :
    absorbed (machine.first prologue) front block back =
      [(bp + block.size, right.size), (bp - left.size, left.size)] := by
  have address : machine.first prologue + total front + block.size + 4 = bp + block.size := by
    omega
  simp only [absorbed, oneLeft, oneRight, kept, freeSpots_cons_of_isFree _ _ leftFree,
    freeSpots_cons_of_isFree _ _ rightFree, freeSpots_nil, spot, address,
    List.cons_append, List.nil_append]

end Neighbours

/-! ## The four cases -/

section Cases

variable {coalesce : Nat → Program (Machine Statics) Nat} {start rest : List Block}

/-- What a `coalesce` is to achieve. -/
abbrev Settles (policy : Policy Index) (lists : FreeIndex Statics Index)
    (coalesce : Nat → Program (Machine Statics) Nat) (machine : Machine Statics)
    (prologue : Block) (front : List Block) (block : Block) (back : List Block)
    (index : Index) (bp : Nat) : Prop :=
  Ensures (coalesce bp) machine fun value final =>
    value = machine.first prologue + total (front.rdropWhile Block.isFree) + 4 ∧
      Settled policy lists machine prologue front block back index final

theorem Coalesces.settles_lone (rules : Coalesces coalesce addBlock removeBlock)
    (lawful : policy.Lawful) (implements : Implements policy lists addBlock removeBlock)
    (loose : Loose policy lists machine prologue front block back index)
    (position : bp = machine.first prologue + total front + 4)
    (shape : prologue :: front = start ++ [left]) (leftUsed : left.isFree = false)
    (noLeft : front.rtakeWhile Block.isFree = [])
    (kept : front.rdropWhile Block.isFree = front)
    (noRight : back.takeWhile Block.isFree = []) (rightUsed : allocField (headTag back) = 1) :
    Settles policy lists coalesce machine prologue front block back index bp := by
  have around := loose.threaded.tiled.around_loose shape position rfl
  apply rules.lone around leftUsed rightUsed
  have stamped : Stamped machine machine bp (block.absorb
      (front.rtakeWhile Block.isFree) (back.takeWhile Block.isFree)) := by
    rw [noLeft, noRight, absorb_nothing]
    exact .refl around.here
  have unchanged : Threaded lists machine (prologue :: (front ++ block :: back))
      (policy.removeAll index (absorbed (machine.first prologue) front block back)) := by
    rw [absorbed_nothing noLeft noRight]
    exact loose.threaded
  have finished := loose.finish lawful implements unchanged (.refl _ _)
    (by rw [kept, position]) stamped
  rw [noLeft, noRight, total_nil, Nat.zero_add, Nat.add_zero] at finished
  exact finished.mono fun _ final settled => ⟨by rw [kept, position], settled⟩

theorem Coalesces.settles_next (rules : Coalesces coalesce addBlock removeBlock)
    (lawful : policy.Lawful) (implements : Implements policy lists addBlock removeBlock)
    (loose : Loose policy lists machine prologue front block (right :: rest) index)
    (position : bp = machine.first prologue + total front + 4)
    (shape : prologue :: front = start ++ [left]) (leftUsed : left.isFree = false)
    (noLeft : front.rtakeWhile Block.isFree = [])
    (kept : front.rdropWhile Block.isFree = front) (rightFree : right.isFree = true)
    (oneRight : (right :: rest).takeWhile Block.isFree = [right]) :
    Settles policy lists coalesce machine prologue front block (right :: rest) index bp := by
  have tiled := loose.threaded.tiled
  have small := tiled.total_lt
  simp only [total_cons, total_append] at small
  have size : (block.absorb (front.rtakeWhile Block.isFree)
      ((right :: rest).takeWhile Block.isFree)).size = block.size + right.size := by
    simp [noLeft, oneRight]
  refine rules.next (tiled.around_loose shape position rfl) leftUsed rightFree
    (tiled.blockAt_next position rfl) size (by omega) loose.isFree ?_
  refine (loose.indexed.remove lawful implements
    (loose.right_listed rightFree position)).mono fun _ middle => ?_
  rintro ⟨removed, keeps⟩
  have origin := keeps.arena.origin
  have threaded : Threaded lists middle (prologue :: (front ++ block :: right :: rest))
      (policy.removeAll index
        (absorbed (machine.first prologue) front block (right :: rest))) := by
    rw [absorbed_right noLeft oneRight rightFree position]
    exact removed.threaded
  refine ⟨threaded.tiled.around_loose shape position origin,
    threaded.tiled.blockAt_next position origin, fun other stamped => ?_⟩
  have finished := loose.finish lawful implements threaded keeps (by rw [kept, position]) stamped
  exact finished.mono fun _ final settled => ⟨by rw [kept, position], settled⟩

theorem Coalesces.settles_prev (rules : Coalesces coalesce addBlock removeBlock)
    (lawful : policy.Lawful) (implements : Implements policy lists addBlock removeBlock)
    (loose : Loose policy lists machine prologue (start ++ [left]) block back index)
    (position : bp = machine.first prologue + total (start ++ [left]) + 4)
    (leftFree : left.isFree = true)
    (oneLeft : (start ++ [left]).rtakeWhile Block.isFree = [left])
    (kept : (start ++ [left]).rdropWhile Block.isFree = start)
    (noRight : back.takeWhile Block.isFree = []) (rightUsed : allocField (headTag back) = 1) :
    Settles policy lists coalesce machine prologue (start ++ [left]) block back index bp := by
  have tiled := loose.threaded.tiled
  have small := tiled.total_lt
  have shape : prologue :: (start ++ [left]) = (prologue :: start) ++ [left] := by simp
  have spot : bp - left.size = machine.first prologue + total start + 4 := by
    simp only [total_append, total_cons, total_nil] at position
    omega
  simp only [total_cons, total_append, total_nil] at small
  have size : (block.absorb ((start ++ [left]).rtakeWhile Block.isFree)
      (back.takeWhile Block.isFree)).size = left.size + block.size := by
    simp [oneLeft, noRight]
  refine rules.prev (tiled.around_loose shape position rfl) leftFree rightUsed size (by omega)
    loose.isFree ?_
  refine (loose.indexed.remove lawful implements
    (loose.left_listed leftFree position)).mono fun _ middle => ?_
  rintro ⟨removed, keeps⟩
  have origin := keeps.arena.origin
  have threaded : Threaded lists middle (prologue :: (start ++ [left] ++ block :: back))
      (policy.removeAll index
        (absorbed (machine.first prologue) (start ++ [left]) block back)) := by
    rw [absorbed_left noRight oneLeft kept leftFree spot]
    exact removed.threaded
  refine ⟨threaded.tiled.around_loose shape position origin, fun other stamped => ?_⟩
  have finished := loose.finish lawful implements threaded keeps (by rw [kept, spot]) stamped
  exact finished.mono fun _ final settled => ⟨by rw [kept, spot], settled⟩

theorem Coalesces.settles_both (rules : Coalesces coalesce addBlock removeBlock)
    (lawful : policy.Lawful) (implements : Implements policy lists addBlock removeBlock)
    (loose : Loose policy lists machine prologue (start ++ [left]) block (right :: rest) index)
    (position : bp = machine.first prologue + total (start ++ [left]) + 4)
    (leftFree : left.isFree = true) (rightFree : right.isFree = true)
    (oneLeft : (start ++ [left]).rtakeWhile Block.isFree = [left])
    (kept : (start ++ [left]).rdropWhile Block.isFree = start)
    (oneRight : (right :: rest).takeWhile Block.isFree = [right]) :
    Settles policy lists coalesce machine prologue (start ++ [left]) block (right :: rest)
      index bp := by
  have tiled := loose.threaded.tiled
  have small := tiled.total_lt
  have leftPositive := left.size_ge
  have blockPositive := block.size_ge
  have shape : prologue :: (start ++ [left]) = (prologue :: start) ++ [left] := by simp
  have spot : bp - left.size = machine.first prologue + total start + 4 := by
    simp only [total_append, total_cons, total_nil] at position
    omega
  simp only [total_cons, total_append, total_nil] at small
  have size : (block.absorb ((start ++ [left]).rtakeWhile Block.isFree)
      ((right :: rest).takeWhile Block.isFree)).size =
      left.size + block.size + right.size := by
    simp [oneLeft, oneRight]
  refine rules.both (tiled.around_loose shape position rfl) leftFree rightFree
    (tiled.blockAt_next position rfl) size (by omega) loose.isFree ?_
  -- whichever neighbour leaves the lists first, the index ends up the same
  have either : ∀ first second : Nat × Nat,
      first ∈ policy.entries index → second ∈ policy.entries index → second ≠ first →
      policy.remove (policy.remove index first) second = policy.removeAll index
        (absorbed (machine.first prologue) (start ++ [left]) block (right :: rest)) →
      Ensures (removeBlock first.1) machine fun _ middle =>
        Around middle bp left block (right :: rest) ∧
        Ensures (removeBlock second.1) middle fun _ later =>
          Around later bp left block (right :: rest) ∧
          BlockAt later (bp + block.size) right ∧
          ∀ other, Stamped later other (bp - left.size)
              (block.absorb ((start ++ [left]).rtakeWhile Block.isFree)
                ((right :: rest).takeWhile Block.isFree)) →
            Ensures (addBlock (bp - left.size)
                (block.absorb ((start ++ [left]).rtakeWhile Block.isFree)
                  ((right :: rest).takeWhile Block.isFree)).size) other fun _ final =>
              bp - left.size = machine.first prologue +
                  total ((start ++ [left]).rdropWhile Block.isFree) + 4 ∧
                Settled policy lists machine prologue (start ++ [left]) block
                  (right :: rest) index final := by
    intro first second firstListed secondListed distinct order
    refine (loose.indexed.remove_two lawful implements firstListed secondListed
      distinct).mono fun _ middle => ?_
    rintro ⟨removed, keeps, second⟩
    refine ⟨removed.tiled.around_loose shape position keeps.arena.origin,
      second.mono fun _ later => ?_⟩
    rintro ⟨removedBoth, keepsBoth⟩
    rw [order] at removedBoth
    have origin := keepsBoth.arena.origin
    refine ⟨removedBoth.tiled.around_loose shape position origin,
      removedBoth.tiled.blockAt_next position origin, fun other stamped => ?_⟩
    have finished := loose.finish lawful implements removedBoth keepsBoth
      (by rw [kept, spot]) stamped
    exact finished.mono fun _ final settled => ⟨by rw [kept, spot], settled⟩
  have rightListed := loose.right_listed rightFree position
  have leftListed := loose.left_listed leftFree position
  have gone : absorbed (machine.first prologue) _ block _ =
      [(bp + block.size, right.size), (bp - left.size, left.size)] :=
    absorbed_both oneRight oneLeft kept leftFree rightFree spot position
  have distinct : (bp - left.size, left.size) ≠ (bp + block.size, right.size) := by
    simp only [ne_eq, Prod.mk.injEq, not_and]
    omega
  rintro first second (order | order) <;> cases order
  · apply either _ _ rightListed leftListed distinct
    rw [gone]
    rfl
  · apply either _ _ leftListed rightListed distinct.symm
    rw [gone, lawful.remove_comm]
    rfl

/-- A `coalesce` that obeys the rules settles a loose block and returns the
payload address of the joined one. -/
theorem Coalesces.settles (rules : Coalesces coalesce addBlock removeBlock)
    (lawful : policy.Lawful) (implements : Implements policy lists addBlock removeBlock)
    (loose : Loose policy lists machine prologue front block back index)
    (position : bp = machine.first prologue + total front + 4) :
    Settles policy lists coalesce machine prologue front block back index bp := by
  rcases front_cases loose.frontCoalesced with
    ⟨noLeft, kept, used⟩ | ⟨start, left, rfl, leftFree, oneLeft, kept⟩ <;>
  rcases back_cases loose.backCoalesced with
    ⟨noRight, rightUsed⟩ | ⟨right, rest, rfl, rightFree, oneRight⟩
  · rcases exists_used_left loose.sentinel used with ⟨start, left, shape, leftUsed⟩
    exact rules.settles_lone lawful implements loose position shape leftUsed noLeft kept
      noRight rightUsed
  · rcases exists_used_left loose.sentinel used with ⟨start, left, shape, leftUsed⟩
    exact rules.settles_next lawful implements loose position shape leftUsed noLeft kept
      rightFree oneRight
  · exact rules.settles_prev lawful implements loose position leftFree oneLeft kept noRight
      rightUsed
  · exact rules.settles_both lawful implements loose position leftFree rightFree oneLeft kept
      oneRight

end Cases

end MallocLab
