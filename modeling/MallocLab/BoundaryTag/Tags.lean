import MallocLab.BoundaryTag.Block
import MallocLab.BoundaryTag.Macros

/-! # Boundary tags in memory

A sequence of blocks describes a heap when every block's header and footer
word is its tag and the epilogue header ends the sequence at the break.
-/

namespace MallocLab

/-- The word in the header and in the footer of a block. -/
def Block.tag (block : Block) : Nat :=
  pack block.size (if block.isFree then 0 else 1)

namespace Block

variable (block : Block)

theorem sizeField_tag (word : block.size < 2 ^ 32) : sizeField block.tag = block.size :=
  sizeField_pack block.aligned (by split <;> omega) word

theorem allocField_tag : allocField block.tag = if block.isFree then 0 else 1 :=
  allocField_pack block.aligned (by split <;> omega)

theorem tag_of_isFree {block : Block} (free : block.isFree = true) :
    block.tag = pack block.size 0 := by
  simp [tag, free]

theorem tag_of_not_isFree {block : Block} (used : block.isFree = false) :
    block.tag = pack block.size 1 := by
  simp [tag, used]

theorem tag_lt (word : block.size < 2 ^ 32) : block.tag < 2 ^ 32 :=
  pack_lt block.aligned (by split <;> omega) word

end Block

open Blocks

/-- Headers and footers of a sequence whose first header is at the cursor. -/
def Tags (memory : Memory) : Nat → List Block → Prop
  | _, [] => True
  | cursor, block :: rest =>
      memory.load cursor = block.tag ∧
        memory.load (cursor + block.size - 4) = block.tag ∧
        Tags memory (cursor + block.size) rest

namespace Tags

variable {memory changed : Memory} {cursor : Nat}

theorem append {front back : List Block} :
    Tags memory cursor (front ++ back) ↔
      Tags memory cursor front ∧ Tags memory (cursor + total front) back := by
  induction front generalizing cursor with
  | nil => simp [Tags]
  | cons head front induction =>
      simp only [List.cons_append, Tags, total_cons]
      rw [induction, Nat.add_assoc]
      tauto

/-- Tags are untouched by changes inside payloads and outside the blocks. -/
theorem congr {blocks : List Block} (tags : Tags memory cursor blocks)
    (same : ∀ address, cursor ≤ address → address < cursor + total blocks →
      ¬InAnyPayload cursor blocks address → changed address = memory address) :
    Tags changed cursor blocks := by
  induction blocks generalizing cursor with
  | nil => trivial
  | cons head blocks induction =>
      have positive := head.size_ge
      -- a tag byte of the first block lies in no payload
      have tagByte : ∀ address, cursor ≤ address → address < cursor + head.size →
          (address < cursor + 4 ∨ cursor + head.size ≤ address + 4) →
          changed address = memory address := by
        intro address low high tag
        refine same address low (by simp only [total_cons]; omega) ?_
        rintro (⟨_, after, before⟩ | later)
        · omega
        · have bounds := inPayload_bounds later
          omega
      refine ⟨?_, ?_, ?_⟩
      · rw [← tags.1]
        exact Memory.load_congr fun address low high =>
          tagByte address low (by omega) (by omega)
      · rw [← tags.2.1]
        exact Memory.load_congr fun address low high =>
          tagByte address (by omega) (by omega) (by omega)
      · refine induction tags.2.2 fun address low high outside => ?_
        refine same address (by omega) (by simp only [total_cons]; omega) ?_
        rintro (⟨_, after, before⟩ | later)
        · omega
        · exact outside later

end Tags

/-- The word in front of which a sequence of blocks ends: the header of the
next block or the epilogue header. -/
def headTag : List Block → Nat
  | [] => pack 0 1
  | block :: _ => block.tag

/-- Two machines with the same arena and break. -/
structure SameArena {Statics : Type} (machine other : Machine Statics) : Prop where
  memStartBrk : other.memStartBrk = machine.memStartBrk
  memBrk : other.memBrk = machine.memBrk
  memMaxAddr : other.memMaxAddr = machine.memMaxAddr

/-- The heap of a machine is tiled by a sequence of blocks, the first of which
is the prologue. -/
structure Tiled {Statics : Type} (machine : Machine Statics) (blocks : List Block) :
    Prop where
  startAligned : machine.memStartBrk % 8 = 0
  arena : machine.memMaxAddr = machine.memStartBrk + maxHeap
  addressable : machine.memMaxAddr < 2 ^ 32
  brkInArena : machine.memBrk ≤ machine.memMaxAddr
  extent : machine.memBrk = machine.memStartBrk + 8 + total blocks
  tags : Tags machine.bytes (machine.memStartBrk + 4) blocks
  epilogue : machine.load (machine.memStartBrk + 4 + total blocks) = pack 0 1

/-- Where the header of the first block is. -/
def Machine.origin {Statics : Type} (machine : Machine Statics) : Nat :=
  machine.memStartBrk + 4

namespace SameArena

variable {Statics : Type} {machine middle other : Machine Statics}

theorem refl (machine : Machine Statics) : SameArena machine machine := ⟨rfl, rfl, rfl⟩

theorem trans (first : SameArena machine middle) (second : SameArena middle other) :
    SameArena machine other :=
  ⟨second.memStartBrk.trans first.memStartBrk, second.memBrk.trans first.memBrk,
    second.memMaxAddr.trans first.memMaxAddr⟩

theorem origin (same : SameArena machine other) : other.origin = machine.origin := by
  simp [Machine.origin, same.memStartBrk]

theorem owns (same : SameArena machine other) {address count : Nat} :
    other.Owns address count ↔ machine.Owns address count := by
  simp [Machine.Owns, same.memStartBrk, same.memBrk]

end SameArena

namespace Tiled

variable {Statics : Type} {machine other : Machine Statics} {front middle back : List Block}
  {block : Block} {blocks : List Block}

theorem origin_aligned (tiled : Tiled machine blocks) : machine.origin % 8 = 4 := by
  have aligned := tiled.startAligned
  unfold Machine.origin
  omega

theorem total_lt (tiled : Tiled machine blocks) : total blocks < 2 ^ 31 := by
  have extent := tiled.extent
  have inArena := tiled.brkInArena
  have arena := tiled.arena
  unfold maxHeap at arena
  omega

theorem size_lt (tiled : Tiled machine blocks) (member : block ∈ blocks) :
    block.size < 2 ^ 31 :=
  lt_of_le_of_lt (size_le_total member) tiled.total_lt

/-- Any word between the prologue header and the break belongs to the heap. -/
theorem owns (tiled : Tiled machine blocks) {address count : Nat}
    (low : machine.origin ≤ address)
    (high : address + count ≤ machine.origin + total blocks + 4) :
    machine.Owns address count := by
  have extent := tiled.extent
  unfold Machine.origin at low high
  constructor <;> omega

theorem header (tiled : Tiled machine (front ++ block :: back)) :
    machine.load (machine.origin + total front) = block.tag :=
  (Tags.append.mp tiled.tags).2.1

theorem footer (tiled : Tiled machine (front ++ block :: back)) :
    machine.load (machine.origin + total front + block.size - 4) = block.tag :=
  (Tags.append.mp tiled.tags).2.2.1

/-- What follows a prefix of the blocks is the header of the next one. -/
theorem following (tiled : Tiled machine (front ++ back)) :
    machine.load (machine.origin + total front) = headTag back := by
  cases back with
  | nil => simpa [headTag, Machine.origin] using tiled.epilogue
  | cons block back => exact tiled.header

/-- Replace the blocks in the middle by others of the same extent. -/
theorem retag (replaced : List Block)
    (tiled : Tiled machine (front ++ (middle ++ back))) (same : SameArena machine other)
    (sameTotal : total replaced = total middle)
    (tags : Tags other.bytes (machine.origin + total front) replaced)
    (outside : ∀ address, machine.origin ≤ address →
      address < machine.origin + total front ∨
        machine.origin + total front + total middle ≤ address →
      ¬InAnyPayload machine.origin front address →
      ¬InAnyPayload (machine.origin + total front + total middle) back address →
      other.bytes address = machine.bytes address) :
    Tiled other (front ++ (replaced ++ back)) := by
  have extent := tiled.extent
  have parts := Tags.append.mp tiled.tags
  have backTags := (Tags.append.mp parts.2).2
  simp only [total_append] at extent
  unfold Machine.origin at *
  constructor
  · rw [same.memStartBrk]
    exact tiled.startAligned
  · rw [same.memMaxAddr, same.memStartBrk]
    exact tiled.arena
  · rw [same.memMaxAddr]
    exact tiled.addressable
  · rw [same.memBrk, same.memMaxAddr]
    exact tiled.brkInArena
  · rw [same.memBrk, same.memStartBrk]
    simp only [total_append]
    omega
  · rw [same.memStartBrk, Tags.append, Tags.append, sameTotal]
    refine ⟨?_, tags, ?_⟩
    · refine parts.1.congr fun address low high notPayload => ?_
      refine outside address low (.inl high) notPayload fun later => ?_
      have bounds := inPayload_bounds later
      omega
    · refine backTags.congr fun address low high notPayload => ?_
      refine outside address (by omega) (.inr low) (fun earlier => ?_) notPayload
      have bounds := inPayload_bounds earlier
      omega
  · rw [same.memStartBrk, ← tiled.epilogue]
    simp only [total_append, sameTotal]
    apply Memory.load_congr
    intro address low high
    refine outside address (by omega) (by omega) (fun earlier => ?_) fun later => ?_
    · have bounds := inPayload_bounds earlier
      omega
    · have bounds := inPayload_bounds later
      omega

/-- Changes inside payloads keep the tiling, and so do changes of the padding before
the prologue. -/
theorem frame (tiled : Tiled machine blocks) (same : SameArena machine other)
    (outside : ∀ address, machine.origin ≤ address →
      ¬InAnyPayload machine.origin blocks address →
      other.bytes address = machine.bytes address) : Tiled other blocks := by
  have cutTiled : Tiled machine (blocks ++ ([] ++ [])) := by simpa using tiled
  have result := retag [] cutTiled same rfl trivial
    fun address low _ notFront _ => outside address low notFront
  simpa using result

end Tiled

end MallocLab
