import MallocLab.BoundaryTag.Threaded

/-! # Reading and rewriting tags

Where the macros find the tags of a block, and what becomes of a heap when a
program writes the header and the footer of a new block over old ones.
-/

namespace MallocLab

open Blocks

variable {Statics Index : Type} {lists : FreeIndex Statics Index}
  {machine middle other : Machine Statics} {bp : Nat} {block left : Block}
  {blocks front back : List Block} {index : Index}

/-- The tags of one block, seen from its payload address. -/
structure BlockAt (machine : Machine Statics) (bp : Nat) (block : Block) : Prop where
  header : machine.load (bp - 4) = block.tag
  footer : machine.load (bp + block.size - 8) = block.tag
  ownsHeader : machine.Owns (bp - 4) 4
  ownsFooter : machine.Owns (bp + block.size - 8) 4
  size : sizeField block.tag = block.size

theorem Tiled.blockAt (tiled : Tiled machine blocks)
    (spot : (bp, block) ∈ spots machine.origin blocks) : BlockAt machine bp block := by
  have bounds := spot_bounds spot
  have positive := block.size_ge
  rcases mem_spots.mp spot with ⟨front, back, rfl, rfl⟩
  have header := tiled.header
  have footer := tiled.footer
  have size : block.size < 2 ^ 31 := tiled.size_lt (by simp)
  constructor
  · rwa [Nat.add_sub_cancel]
  · rw [← footer]
    congr 1
    omega
  · exact tiled.owns (by omega) (by omega)
  · exact tiled.owns (by omega) (by omega)
  · exact block.sizeField_tag (by omega)

/-- The header behind a block: that of the next block or the epilogue. -/
theorem Tiled.next (tiled : Tiled machine (front ++ block :: back))
    (position : bp = machine.origin + total front + 4) :
    machine.load (bp + block.size - 4) = headTag back ∧
      machine.Owns (bp + block.size - 4) 4 := by
  have split : front ++ block :: back = (front ++ [block]) ++ back := by simp
  rw [split] at tiled
  have following := tiled.following
  simp only [total_append, total_cons, total_nil, Nat.add_zero] at following
  have address : bp + block.size - 4 = machine.origin + (total front + block.size) := by omega
  rw [address]
  refine ⟨following, tiled.owns (by omega) ?_⟩
  simp only [total_append, total_cons, total_nil]
  omega

theorem allocField_headTag_cons (block : Block) (back : List Block) :
    allocField (headTag (block :: back)) = if block.isFree then 0 else 1 :=
  block.allocField_tag

theorem allocField_headTag_nil : allocField (headTag []) = 1 := by
  decide

/-! ## Writing the tags of a block -/

/-- The tags of a block were written and nothing else. -/
structure Stamped (machine other : Machine Statics) (bp : Nat) (block : Block) : Prop where
  arena : SameArena machine other
  statics : other.statics = machine.statics
  header : other.load (bp - 4) = block.tag
  footer : other.load (bp + block.size - 8) = block.tag
  outside : ∀ address, (address + 4 < bp ∨ bp ≤ address) →
    (address + 8 < bp + block.size ∨ bp + block.size ≤ address + 4) →
    other.bytes address = machine.bytes address

namespace Stamped

theorem headerFirst (machine : Machine Statics) (low : 4 ≤ bp) (word : block.size < 2 ^ 32) :
    Stamped machine ((machine.store (bp - 4) block.tag).store (bp + block.size - 8) block.tag)
      bp block := by
  have positive := block.size_ge
  have tag := block.tag_lt word
  constructor
  · exact ⟨rfl, rfl, rfl⟩
  · rfl
  · rw [Machine.load_store_of_disjoint _ _ (by omega), Machine.load_store_same _ _ tag]
  · rw [Machine.load_store_same _ _ tag]
  · intro address awayHeader awayFooter
    rw [Machine.store_bytes_of_outside _ _ (by omega),
      Machine.store_bytes_of_outside _ _ (by omega)]

theorem footerFirst (machine : Machine Statics) (low : 4 ≤ bp) (word : block.size < 2 ^ 32) :
    Stamped machine ((machine.store (bp + block.size - 8) block.tag).store (bp - 4) block.tag)
      bp block := by
  have positive := block.size_ge
  have tag := block.tag_lt word
  constructor
  · exact ⟨rfl, rfl, rfl⟩
  · rfl
  · rw [Machine.load_store_same _ _ tag]
  · rw [Machine.load_store_of_disjoint _ _ (by omega), Machine.load_store_same _ _ tag]
  · intro address awayHeader awayFooter
    rw [Machine.store_bytes_of_outside _ _ (by omega),
      Machine.store_bytes_of_outside _ _ (by omega)]

/-- A block whose tags are in memory need not be stamped. -/
theorem refl (here : BlockAt machine bp block) : Stamped machine machine bp block where
  arena := .refl machine
  statics := rfl
  header := here.header
  footer := here.footer
  outside := fun _ _ _ => rfl

theorem tags (stamped : Stamped machine other bp block) {cursor : Nat}
    (position : bp = cursor + 4) : Tags other.bytes cursor [block] := by
  have positive := block.size_ge
  subst position
  refine tags_singleton.mpr ⟨stamped.header, ?_⟩
  have address : cursor + block.size - 4 = cursor + 4 + block.size - 8 := by omega
  rw [address]
  exact stamped.footer

end Stamped

/-- The tags of some blocks were written and nothing outside these blocks. -/
structure Retagged (machine other : Machine Statics) (cursor : Nat) (replaced : List Block) :
    Prop where
  arena : SameArena machine other
  statics : other.statics = machine.statics
  tags : Tags other.bytes cursor replaced
  outside : ∀ address, (address < cursor ∨ cursor + total replaced ≤ address) →
    other.bytes address = machine.bytes address

theorem Stamped.one (stamped : Stamped machine other bp block) {cursor : Nat}
    (position : bp = cursor + 4) : Retagged machine other cursor [block] where
  arena := stamped.arena
  statics := stamped.statics
  tags := stamped.tags position
  outside := fun address away => by
    have positive := block.size_ge
    simp only [total_cons, total_nil] at away
    exact stamped.outside address (by omega) (by omega)

/-- Two blocks are stamped one after the other. -/
theorem Stamped.two {live rest : Block} (first : Stamped machine middle bp live)
    (second : Stamped middle other (bp + live.size) rest) {cursor : Nat}
    (position : bp = cursor + 4) : Retagged machine other cursor [live, rest] := by
  have positive := live.size_ge
  have restPositive := rest.size_ge
  have header : other.load (bp - 4) = live.tag := by
    rw [← first.header]
    exact Memory.load_congr fun address _ _ => second.outside address (by omega) (by omega)
  have footer : other.load (bp + live.size - 8) = live.tag := by
    rw [← first.footer]
    exact Memory.load_congr fun address _ _ => second.outside address (by omega) (by omega)
  have next : bp + live.size = cursor + live.size + 4 := by omega
  have restTags := second.tags next
  subst position
  refine ⟨first.arena.trans second.arena, second.statics.trans first.statics, ?_, ?_⟩
  · refine ⟨header, ?_, restTags⟩
    have address : cursor + live.size - 4 = cursor + 4 + live.size - 8 := by omega
    rw [address]
    exact footer
  · intro address away
    simp only [total_cons, total_nil] at away
    rw [second.outside address (by omega) (by omega),
      first.outside address (by omega) (by omega)]

/-- Bytes outside a stretch of the heap that holds no live block are the only
live ones. -/
theorem Keeps.of_outside {merged : List Block} (same : SameArena machine other)
    (idle : ∀ member ∈ merged, member.request? = none)
    (outside : ∀ address,
      address < machine.origin + total front ∨
        machine.origin + total front + total merged ≤ address →
      other.bytes address = machine.bytes address) :
    Keeps (front ++ (merged ++ back)) machine other := by
  refine ⟨same, ?_⟩
  intro address inside
  simp only [inPayload_append] at inside
  apply outside
  rcases inside with inFront | inMerged | inBack
  · have bounds := inPayload_bounds inFront
    omega
  · rcases inPayload_iff.mp inMerged with ⟨spot, owner, member, live, _⟩
    rcases mem_spots.mp member with ⟨before, after, rfl, _⟩
    rw [idle owner (by simp)] at live
    cases live
  · have bounds := inPayload_bounds inBack
    omega

/-- The blocks of a stretch of the heap are replaced by one block. -/
theorem Threaded.merge {merged : List Block}
    (threaded : Threaded lists machine (front ++ (merged ++ back)) index)
    (stamped : Stamped machine other bp block)
    (position : bp = machine.origin + total front + 4)
    (size : block.size = total merged)
    (apart : ∀ node ∈ lists.nodes machine index, ∀ owner,
      (node, owner) ∉ spots (machine.origin + total front) merged) :
    Threaded lists other (front ++ ([block] ++ back)) index := by
  have retagged := stamped.one position
  apply threaded.retag_apart retagged.arena retagged.statics _ retagged.tags _ apart
  · simpa using size
  · intro address away
    apply retagged.outside
    simpa [size] using away

end MallocLab
