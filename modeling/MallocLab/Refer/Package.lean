import MallocLab.BoundaryTag.Refinement
import MallocLab.Explicit.FirstFit
import MallocLab.Refer.FreeList

/-! # `refer.c` implements the last-in first-out allocator -/

namespace MallocLab.Refer

open Program Blocks Explicit

/-- The chain of `refer.c`, where the sizes of the listed blocks are known too. -/
def chain : FreeIndex Statics (List (Nat × Nat)) := lists.comap (List.map Prod.fst)

/-- `add_block` as a procedure that is also told the size. -/
def addSized (bp _size : Nat) : Program State Unit := addBlock bp

theorem implements : Implements lifo chain addSized removeBlock where
  nodes := by
    intro machine index node member
    exact List.mem_cons.mp member
  add := by
    intro machine blocks index bp block indexed spot isFree absent above
    have outside : bp ∉ sentinel machine :: index.map Prod.fst := by
      simp only [List.mem_cons, not_or]
      exact ⟨(Nat.ne_of_lt above).symm, absent⟩
    refine (addBlock_threaded (Threaded.comap_iff.mp indexed.threaded) spot
      (Block.size_ge_of_isFree isFree) (Block.request?_of_isFree isFree) outside).mono
      fun _ other => ?_
    rintro ⟨threaded, keeps⟩
    exact ⟨Threaded.comap_iff.mpr threaded, keeps⟩
  remove := by
    intro machine blocks index bp size indexed listed
    have threaded := Threaded.comap_iff.mp indexed.threaded
    have nodup := (List.nodup_cons.mp threaded.holds.1).2
    refine (removeBlock_threaded threaded (List.mem_map_of_mem listed)).mono fun _ other => ?_
    rintro ⟨removed, keeps⟩
    refine ⟨Threaded.comap_iff.mpr ?_, keeps⟩
    rw [show lifo.remove index (bp, size) = index.erase (bp, size) from rfl,
      map_erase nodup listed]
    exact removed

/-! ## Placing before removing -/

section Place

variable {machine middle other : State} {front back : List Block} {block live rest : Block}
  {bp request : Nat} {free : List Nat} {index : List (Nat × Nat)}

/-- A block that is marked allocated while it is still listed. -/
def held (block : Block) : Block :=
  ⟨block.size, .sentinel, block.aligned, block.size_ge⟩

theorem held_tag (used : block.isFree = false) : (held block).tag = block.tag := by
  rw [Block.tag_of_not_isFree used, Block.tag_of_not_isFree rfl]
  rfl

theorem stamped_held (stamped : Stamped machine other bp block) (used : block.isFree = false) :
    Stamped machine other bp (held block) where
  arena := stamped.arena
  statics := stamped.statics
  header := stamped.header.trans (held_tag used).symm
  footer := stamped.footer.trans (held_tag used).symm
  outside := stamped.outside

/-- Once it has left the list, a block that was held is a client's. -/
theorem give_held (threaded : Threaded lists machine (front ++ ([held live] ++ back)) free)
    (used : live.isFree = false) (position : bp = machine.origin + total front + 4)
    (absent : bp ∉ sentinel machine :: free) :
    Threaded lists machine (front ++ ([live] ++ back)) free := by
  refine Threaded.retag_apart threaded (.refl machine) rfl rfl ?_ (fun _ _ => rfl) ?_
  · have tiled := threaded.tiled
    have header := tiled.header
    have footer := tiled.footer
    rw [held_tag used] at header footer
    exact tags_singleton.mpr ⟨header, footer⟩
  · intro node member owner spot
    simp only [spots_cons, spots_nil, List.mem_singleton, Prod.mk.injEq] at spot
    exact absent (by rw [position, ← spot.1]; exact member)

/-- `remove_block` after the tags were written: the held block becomes a
client's. -/
theorem removeBlock_held (threaded : Threaded lists machine (front ++ ([held live] ++ back)) free)
    (used : live.isFree = false) (position : bp = machine.origin + total front + 4)
    (member : bp ∈ free) :
    Ensures (removeBlock bp) machine fun _ other =>
      Threaded lists other (front ++ ([live] ++ back)) (free.erase bp) ∧
        Keeps (front ++ ([held live] ++ back)) machine other := by
  refine (removeBlock_threaded threaded member).mono fun _ other => ?_
  rintro ⟨removed, keeps⟩
  have nodup := (List.nodup_cons.mp threaded.holds.1).2
  have notSentinel : bp ≠ sentinel machine := by
    rintro rfl
    exact (List.nodup_cons.mp threaded.holds.1).1 member
  have origin := keeps.arena.origin
  have place : bp = other.origin + total front + 4 := by rw [origin, position]
  refine ⟨give_held removed used place ?_, keeps⟩
  simp only [List.mem_cons, not_or, sentinel, origin]
  exact ⟨notSentinel, nodup.not_mem_erase⟩

/-- The block is marked allocated while it is listed, its remainder is listed
too, and then it leaves the list. -/
theorem place_split (represents : Represents lifo chain prologue machine
      ⟨front ++ block :: back, index⟩) (isFree : block.isFree = true)
    (position : bp = machine.first prologue + total front + 4)
    (size : live.size + rest.size = block.size) (large : 16 ≤ live.size)
    (used : live.isFree = false) (restFree : rest.isFree = true)
    (first : Stamped machine middle bp live)
    (second : Stamped middle other (bp + live.size) rest) :
    Ensures (do addBlock (bp + live.size); removeBlock bp) other fun _ final =>
      Threaded chain final (prologue :: (front ++ ([live, rest] ++ back)))
          (lifo.add (lifo.remove index (bp, block.size)) (bp + live.size, rest.size)) ∧
        Keeps (prologue :: (front ++ block :: back)) machine final := by
  have restLarge := Block.size_ge_of_isFree restFree
  have whole : bp = machine.origin + total (prologue :: front) + 4 := by
    rw [position, total_cons, Machine.first]
    omega
  have listed := (represents.wellFormed.free_exact isFree).1
  rw [← position] at listed
  have exact : index.Perm (freeSpots (machine.first prologue) (front ++ block :: back)) :=
    represents.wellFormed.exact
  have threaded : Threaded lists machine ((prologue :: front) ++ ([block] ++ back))
      (index.map Prod.fst) := by
    simpa using Threaded.comap_iff.mp represents.threaded
  have nodup := (List.nodup_cons.mp threaded.holds.1).2
  have origin := (first.arena.trans second.arena).origin
  rcases Stamped.two (stamped_held first used) second whole with ⟨arena, statics, tags, outside⟩
  have holding : Threaded lists other ((prologue :: front) ++ ([held live, rest] ++ back))
      (index.map Prod.fst) := by
    have same : total [held live, rest] = block.size := by
      rw [← size]
      simp [held]
    apply threaded.retag_listed arena statics same tags large rfl
    · intro address low high
      rw [second.outside address (by omega) (by omega), first.outside address (by omega) (by omega)]
    · intro address away
      exact outside address (by rw [same]; exact away)
  have spot : (bp + live.size, rest) ∈
      spots other.origin ((prologue :: front) ++ ([held live, rest] ++ back)) := by
    refine mem_spots.mpr ⟨(prologue :: front) ++ [held live], back, by simp, ?_⟩
    rw [origin, whole]
    simp only [total_append, total_cons, total_nil, held]
    omega
  have absent : bp + live.size ∉ sentinel other :: index.map Prod.fst := by
    simp only [List.mem_cons, not_or, sentinel, origin]
    refine ⟨by omega, fun member => ?_⟩
    rcases List.mem_map.mp member with ⟨⟨address, available⟩, inside, same⟩
    simp only at same
    rcases mem_freeSpots.mp (exact.mem_iff.mp inside) with ⟨owner, ownerSpot, _, _⟩
    have apart := spots_apart (mem_spots.mpr ⟨front, back, rfl, position⟩) ownerSpot (by omega)
    omega
  rw [ensures_bind]
  refine (addBlock_threaded holding spot restLarge (Block.request?_of_isFree restFree)
    absent).mono fun _ added => ?_
  rintro ⟨addedThreaded, addKeeps⟩
  have atBlock : bp = added.origin + total (prologue :: front) + 4 := by
    rw [addKeeps.arena.origin, origin, whole]
  have addedHeld : Threaded lists added ((prologue :: front) ++ ([held live] ++ (rest :: back)))
      ((bp + live.size) :: index.map Prod.fst) := addedThreaded
  refine (removeBlock_held addedHeld used atBlock
    (List.mem_cons_of_mem _ (List.mem_map_of_mem listed))).mono fun _ final => ?_
  rintro ⟨removed, removeKeeps⟩
  constructor
  · apply Threaded.comap_iff.mpr
    have distinct : bp + live.size ≠ bp := by omega
    rw [List.erase_cons_tail (by simpa using distinct)] at removed
    have shown : (lifo.add (lifo.remove index (bp, block.size))
        (bp + live.size, rest.size)).map Prod.fst =
        (bp + live.size) :: (index.map Prod.fst).erase bp := by
      rw [← map_erase nodup listed]
      rfl
    rw [shown]
    exact removed
  · have written : Keeps (prologue :: (front ++ block :: back)) machine other :=
      Keeps.of_inside back isFree position arena fun address away => outside address (by
        have same : total [held live, rest] = block.size := by
          rw [← size]
          simp [held]
        omega)
    have exchanged : ∀ byte, InLivePayload machine.origin
          (prologue :: (front ++ block :: back)) byte →
        InLivePayload machine.origin
          ((prologue :: front) ++ ([held live, rest] ++ back)) byte := by
      intro byte inside
      have idle : ∀ member ∈ [block], member.request? = none := by
        simp [Block.request?_of_isFree isFree]
      have same : total [held live, rest] = total [block] := by simp [held, ← size]
      exact inLivePayload_exchange idle same (by simpa using inside)
    exact (written.trans addKeeps exchanged).trans removeKeeps exchanged

/-- The whole block is marked allocated while it is listed, and then it leaves
the list. -/
theorem place_whole (represents : Represents lifo chain prologue machine
      ⟨front ++ block :: back, index⟩) (isFree : block.isFree = true)
    (position : bp = machine.first prologue + total front + 4) (size : live.size = block.size)
    (used : live.isFree = false) (stamped : Stamped machine other bp live) :
    Ensures (removeBlock bp) other fun _ final =>
      Threaded chain final (prologue :: (front ++ ([live] ++ back)))
          (lifo.remove index (bp, block.size)) ∧
        Keeps (prologue :: (front ++ block :: back)) machine final := by
  have large := Block.size_ge_of_isFree isFree
  have whole : bp = machine.origin + total (prologue :: front) + 4 := by
    rw [position, total_cons, Machine.first]
    omega
  have listed := (represents.wellFormed.free_exact isFree).1
  rw [← position] at listed
  have threaded : Threaded lists machine ((prologue :: front) ++ ([block] ++ back))
      (index.map Prod.fst) := by
    simpa using Threaded.comap_iff.mp represents.threaded
  have nodup := (List.nodup_cons.mp threaded.holds.1).2
  have holding : Threaded lists other ((prologue :: front) ++ ([held live] ++ back))
      (index.map Prod.fst) := by
    have same : total [held live] = block.size := by simp [held, size]
    have positive := live.size_ge
    apply threaded.retag_listed stamped.arena stamped.statics same
      ((stamped_held stamped used).tags whole) (by simpa [held, size] using large) rfl
    · intro address low high
      exact stamped.outside address (by omega) (by omega)
    · intro address away
      exact stamped.outside address (by omega) (by omega)
  have atBlock : bp = other.origin + total (prologue :: front) + 4 := by
    rw [stamped.arena.origin, whole]
  refine (removeBlock_held holding used atBlock (List.mem_map_of_mem listed)).mono
    fun _ final => ?_
  rintro ⟨removed, keeps⟩
  constructor
  · apply Threaded.comap_iff.mpr
    rw [show lifo.remove index (bp, block.size) = index.erase (bp, block.size) from rfl,
      map_erase nodup listed]
    exact removed
  · have positive := live.size_ge
    have written : Keeps (prologue :: (front ++ block :: back)) machine other :=
      Keeps.of_inside back isFree position stamped.arena fun address away =>
        stamped.outside address (by omega) (by omega)
    refine written.trans keeps fun byte inside => ?_
    have idle : ∀ member ∈ [block], member.request? = none := by
      simp [Block.request?_of_isFree isFree]
    have same : total [held live] = total [block] := by simp [held, size]
    exact inLivePayload_exchange idle same (by simpa using inside)

/-- `place` and `remove_block` together allot the block. -/
theorem placeAndRemove_places : Places lifo chain prologue placeAndRemove := by
  intro machine front back block index request represents isFree enough
  generalize position : machine.first prologue + total front + 4 = bp
  have allotted := Layout.allot_wellFormed lifo_lawful represents.wellFormed isFree enough
  have whole : bp = machine.origin + total (prologue :: front) + 4 := by
    rw [← position, total_cons, Machine.first]
    omega
  have spot : (bp, block) ∈ spots machine.origin (prologue :: (front ++ block :: back)) :=
    mem_spots.mpr ⟨prologue :: front, back, rfl, whole⟩
  have tiled := represents.threaded.tiled
  have here := tiled.blockAt spot
  have small := tiled.size_lt (by simp : block ∈ prologue :: (front ++ block :: back))
  have bounds := spot_bounds spot
  have extent : machine.memBrk =
      machine.memStartBrk + 8 + total (prologue :: (front ++ block :: back)) := tiled.extent
  unfold Machine.origin at bounds
  have difference : wrapSub block.size (roundUp request) = block.size - roundUp request :=
    wrapSub_of_le (by omega) enough
  simp only [placeAndRemove, place, ensures_bind, ensures_getSize, hdrp_eq, here.header,
    here.size, difference]
  refine ⟨here.ownsHeader, ?_⟩
  rcases serve_cases block enough with
    ⟨live, rest, shape, liveSize, _, used, restSize, restFree, split⟩ |
    ⟨live, shape, liveSize, _, used, unsplit⟩
  · have size : live.size + rest.size = block.size := by omega
    have large : 16 ≤ live.size := by
      rw [liveSize]
      exact roundUp_ge request
    have shaped := allot_of_split lifo back index enough shape split liveSize restSize
      position.symm
    rw [shaped] at allotted ⊢
    rw [if_pos (by unfold dsize; omega), ← restSize, ← liveSize]
    have stamps := ensures_stampSplit here.ownsHeader (by omega) small (by omega) (by omega) size used
      restFree
    simp only [ensures_bind] at stamps ⊢
    refine stamps.mono fun _ _ done => done.mono fun _ _ done => done.mono fun _ _ done =>
      done.mono fun next _ done => done.mono fun _ _ done => done.mono fun _ _ done =>
      done.mono fun _ other done => ?_
    rcases (ensures_pure _ _ _).mp done with ⟨rfl, changed, stamped, restStamped⟩
    have placed := place_split represents isFree position.symm size large used restFree stamped
      restStamped
    rw [ensures_bind] at placed
    refine placed.mono fun _ _ removed => removed.mono fun _ final => ?_
    rintro ⟨threaded, keeps⟩
    refine ⟨⟨rfl, threaded, ?_⟩, keeps⟩
    rw [keeps.first]
    exact allotted
  · have shaped := allot_of_whole lifo back index enough shape unsplit position.symm
    rw [shaped] at allotted ⊢
    rw [if_neg (by unfold dsize; omega)]
    have positive := live.size_ge
    have ownsFooter : machine.Owns (bp + live.size - 8) 4 := liveSize ▸ here.ownsFooter
    have stamps := ensures_stamp (by omega) (by omega) (Block.tag_eq_pack_used used liveSize)
      here.ownsHeader ownsFooter
    simp only [ensures_bind, hdrp_eq] at stamps ⊢
    refine stamps.mono fun _ _ done => done.mono fun _ _ done => done.mono
      fun _ marked stamped => ?_
    refine (place_whole represents isFree position.symm liveSize used stamped).mono
      fun _ final => ?_
    rintro ⟨threaded, keeps⟩
    refine ⟨⟨rfl, threaded, ?_⟩, keeps⟩
    rw [keeps.first]
    exact allotted

end Place

/-! ## The package -/

def procedures : Procedures Statics (List (Nat × Nat)) where
  policy := lifo
  lists := chain
  prologue := prologue
  addBlock := addSized
  removeBlock := removeBlock
  coalesce := coalesce
  extendHeap := extendHeap
  findFit := findFitFirst
  place := placeAndRemove
  adjust := newSize

variable {machine : State} {layout : Layout (List (Nat × Nat))}

/-- `find_fit_first` ends in every represented heap and finds the first fit. -/
theorem findFitFirst_finds (asize : Nat) (holds : procedures.Holds machine layout) :
    Ensures (findFitFirst asize) machine fun value other =>
      value = (lifo.find layout.index asize).getD null ∧ other = machine := by
  have threaded := Threaded.comap_iff.mp holds.threaded
  have stopSpot : (sentinel machine, prologue) ∈
      spots machine.origin (prologue :: layout.blocks) := List.mem_cons_self
  have exact : layout.index.Perm (freeSpots (machine.first prologue) layout.blocks) :=
    holds.wellFormed.exact
  have length : layout.index.length ≤ total layout.blocks :=
    exact.length_eq.trans_le (freeSpots_length _ _)
  have extent := Procedures.Holds.extent holds
  have enough : layout.index.length < machine.heapLength + 1 := by
    unfold Machine.heapLength
    omega
  simp only [findFitFirst, ensures_bind, ensures_view, ensures_freeListp]
  exact ensures_firstFitFrom threaded.tiled stopSpot rfl asize holds.sized.sized
    (linked_nodes threaded) (head_eq threaded) enough

theorem correct : procedures.Correct where
  lawful := lifo_lawful
  implements := implements
  coalesces := coalesceWith_coalesces addSized removeBlock
  places := placeAndRemove_places
  extends_eq := fun aligned word =>
    congrArg (extendHeapWith coalesce) (Procedures.even_words aligned word)
  finds := findFitFirst_finds
  adjusts := Procedures.align_eq_roundUp

end MallocLab.Refer
