import MallocLab.BoundaryTag.Tags

/-! # Free lists threaded through payloads

A package keeps its free lists in the first eight payload bytes of the blocks
on them and in static variables. How the lists are shaped is the business of a
`FreeIndex`; this file shows how they live together with the tags.
-/

namespace MallocLab

open Blocks

/-- A way to keep free blocks in lists. `Holds` may read the static variables
and the link words of the nodes, and nothing else. -/
structure FreeIndex (Statics Index : Type) where
  nodes : Machine Statics → Index → List Nat
  Holds : Machine Statics → Index → Prop
  nodes_same : ∀ {machine other : Machine Statics} {index : Index},
    other.memStartBrk = machine.memStartBrk → nodes other index = nodes machine index
  holds_same : ∀ {machine other : Machine Statics} {index : Index},
    other.memStartBrk = machine.memStartBrk → other.statics = machine.statics →
    (∀ node ∈ nodes machine index, ∀ address, node ≤ address → address < node + 8 →
      other.bytes address = machine.bytes address) →
    Holds machine index → Holds other index

/-- The same lists for indices that hold more than the lists show. -/
def FreeIndex.comap {Statics Index Shown : Type} (lists : FreeIndex Statics Shown)
    (shown : Index → Shown) : FreeIndex Statics Index where
  nodes machine index := lists.nodes machine (shown index)
  Holds machine index := lists.Holds machine (shown index)
  nodes_same := lists.nodes_same
  holds_same := lists.holds_same

/-- What a step keeps as seen by the clients of the blocks: the arena and every
byte of a live payload. -/
structure Keeps {Statics : Type} (blocks : List Block)
    (machine other : Machine Statics) : Prop where
  arena : SameArena machine other
  live : ∀ address, InLivePayload machine.origin blocks address →
    other.bytes address = machine.bytes address

namespace Keeps

variable {Statics : Type} {blocks after : List Block} {machine middle other : Machine Statics}

theorem refl (blocks : List Block) (machine : Machine Statics) :
    Keeps blocks machine machine := ⟨.refl machine, fun _ _ => rfl⟩

theorem trans (first : Keeps blocks machine middle) (second : Keeps after middle other)
    (livePreserved : ∀ address, InLivePayload machine.origin blocks address →
      InLivePayload machine.origin after address) : Keeps blocks machine other where
  arena := first.arena.trans second.arena
  live := fun address inside => by
    rw [second.live address (by
      rw [first.arena.origin]
      exact livePreserved address inside)]
    exact first.live address inside

end Keeps

/-- The tags of a machine describe the blocks, and its lists hold nodes that
have room for links and belong to no client. -/
structure Threaded {Statics Index : Type} (lists : FreeIndex Statics Index)
    (machine : Machine Statics) (blocks : List Block) (index : Index) : Prop where
  tiled : Tiled machine blocks
  members : ∀ node ∈ lists.nodes machine index, ∃ block,
    (node, block) ∈ spots machine.origin blocks ∧ 16 ≤ block.size ∧ block.request? = none
  holds : lists.Holds machine index

namespace Threaded

variable {Statics Index : Type} {lists : FreeIndex Statics Index}
  {machine other : Machine Statics} {blocks front middle back replaced : List Block}
  {index : Index}

theorem comap_iff {Shown : Type} {lists : FreeIndex Statics Shown} {shown : Index → Shown} :
    Threaded (lists.comap shown) machine blocks index ↔
      Threaded lists machine blocks (shown index) :=
  ⟨fun threaded => ⟨threaded.tiled, threaded.members, threaded.holds⟩,
    fun threaded => ⟨threaded.tiled, threaded.members, threaded.holds⟩⟩

/-- Link words lie apart from live payloads. -/
theorem live_apart (threaded : Threaded lists machine blocks index) {node address : Nat}
    (member : node ∈ lists.nodes machine index)
    (inside : InLivePayload machine.origin blocks address) :
    address < node ∨ node + 8 ≤ address := by
  rcases threaded.members node member with ⟨block, spot, large, idle⟩
  rcases inPayload_iff.mp inside with ⟨start, owner, ownerSpot, live, low, high⟩
  have distinct : start ≠ node := by
    intro same
    subst same
    rw [spot_unique ownerSpot spot, idle] at live
    cases live
  rcases spots_apart ownerSpot spot distinct with before | after <;> omega

theorem node_aligned (threaded : Threaded lists machine blocks index) {node : Nat}
    (member : node ∈ lists.nodes machine index) : node % 8 = 0 := by
  rcases threaded.members node member with ⟨_, spot, _⟩
  exact spot_aligned threaded.tiled.origin_aligned spot

theorem node_bounds (threaded : Threaded lists machine blocks index) {node : Nat}
    (member : node ∈ lists.nodes machine index) :
    machine.memStartBrk + 8 ≤ node ∧ node + 12 ≤ machine.memBrk := by
  rcases threaded.members node member with ⟨block, spot, large, _⟩
  have bounds := spot_bounds spot
  have extent := threaded.tiled.extent
  unfold Machine.origin at bounds
  omega

theorem node_lt (threaded : Threaded lists machine blocks index) {node : Nat}
    (member : node ∈ lists.nodes machine index) : node < 2 ^ 32 := by
  have bounds := threaded.node_bounds member
  have inArena := threaded.tiled.brkInArena
  have addressable := threaded.tiled.addressable
  omega

/-- A change of link words only, after which the nodes are kept in a new way. -/
theorem relink {Target : Type} {target : FreeIndex Statics Target} {changed : Target}
    (threaded : Threaded lists machine blocks index)
    (same : SameArena machine other) (touched : List Nat)
    (known : ∀ node ∈ touched, ∃ block, (node, block) ∈ spots machine.origin blocks ∧
      16 ≤ block.size ∧ block.request? = none)
    (outside : ∀ address, (∀ node ∈ touched, address < node ∨ node + 8 ≤ address) →
      other.bytes address = machine.bytes address)
    (members : ∀ node ∈ target.nodes machine changed, node ∈ touched ∨
      node ∈ lists.nodes machine index)
    (holds : target.Holds other changed) :
    Threaded target other blocks changed ∧ Keeps blocks machine other := by
  refine ⟨⟨?_, ?_, holds⟩, same, ?_⟩
  · refine threaded.tiled.frame same fun address _ notInside => ?_
    refine outside address fun node member => ?_
    rcases known node member with ⟨block, spot, large, _⟩
    by_contra overlap
    exact notInside (inPayload_iff.mpr ⟨node, block, spot, trivial, by omega, by omega⟩)
  · intro node member
    rw [target.nodes_same same.memStartBrk] at member
    rw [same.origin]
    rcases members node member with new | old
    · exact known node new
    · exact threaded.members node old
  · intro address inside
    refine outside address fun node member => ?_
    rcases known node member with ⟨block, spot, large, idle⟩
    rcases inPayload_iff.mp inside with ⟨start, owner, ownerSpot, live, low, high⟩
    have distinct : start ≠ node := by
      intro equal
      subst equal
      rw [spot_unique ownerSpot spot, idle] at live
      cases live
    rcases spots_apart ownerSpot spot distinct with before | after <;> omega

/-- A change inside payloads that leaves every link word as it was. -/
theorem frame (threaded : Threaded lists machine blocks index) (same : SameArena machine other)
    (sameStatics : other.statics = machine.statics)
    (outside : ∀ address, machine.origin ≤ address →
      ¬InAnyPayload machine.origin blocks address →
      other.bytes address = machine.bytes address)
    (links : ∀ node ∈ lists.nodes machine index, ∀ address, node ≤ address →
      address < node + 8 → other.bytes address = machine.bytes address) :
    Threaded lists other blocks index where
  tiled := threaded.tiled.frame same outside
  members := fun node member => by
    rw [lists.nodes_same same.memStartBrk] at member
    rw [same.origin]
    exact threaded.members node member
  holds := lists.holds_same same.memStartBrk sameStatics links threaded.holds

/-- A change of the tags of adjacent blocks, which leaves every link word as it
was. -/
theorem retag (threaded : Threaded lists machine (front ++ (middle ++ back)) index)
    (same : SameArena machine other) (sameStatics : other.statics = machine.statics)
    (sameTotal : total replaced = total middle)
    (tags : Tags other.bytes (machine.origin + total front) replaced)
    (outside : ∀ address,
      address < machine.origin + total front ∨
        machine.origin + total front + total middle ≤ address →
      other.bytes address = machine.bytes address)
    (links : ∀ node ∈ lists.nodes machine index, ∀ address, node ≤ address →
      address < node + 8 → other.bytes address = machine.bytes address)
    (members : ∀ node ∈ lists.nodes machine index, ∃ block,
      (node, block) ∈ spots machine.origin (front ++ (replaced ++ back)) ∧
        16 ≤ block.size ∧ block.request? = none) :
    Threaded lists other (front ++ (replaced ++ back)) index where
  tiled := threaded.tiled.retag replaced same sameTotal tags fun address _ away _ _ =>
    outside address away
  members := fun node member => by
    rw [lists.nodes_same same.memStartBrk] at member
    rw [same.origin]
    exact members node member
  holds := lists.holds_same same.memStartBrk sameStatics links threaded.holds

/-- When no node lies among the rewritten blocks, their links need no care. -/
theorem retag_apart (threaded : Threaded lists machine (front ++ (middle ++ back)) index)
    (same : SameArena machine other) (sameStatics : other.statics = machine.statics)
    (sameTotal : total replaced = total middle)
    (tags : Tags other.bytes (machine.origin + total front) replaced)
    (outside : ∀ address,
      address < machine.origin + total front ∨
        machine.origin + total front + total middle ≤ address →
      other.bytes address = machine.bytes address)
    (apart : ∀ node ∈ lists.nodes machine index, ∀ block,
      (node, block) ∉ spots (machine.origin + total front) middle) :
    Threaded lists other (front ++ (replaced ++ back)) index := by
  have elsewhere : ∀ node ∈ lists.nodes machine index, ∃ block,
      ((node, block) ∈ spots machine.origin front ∨
        (node, block) ∈ spots (machine.origin + total front + total middle) back) ∧
        16 ≤ block.size ∧ block.request? = none := by
    intro node member
    rcases threaded.members node member with ⟨block, spot, rest⟩
    simp only [spots_append, List.mem_append] at spot
    rcases spot with inFront | inMiddle | inBack
    · exact ⟨block, .inl inFront, rest⟩
    · exact absurd inMiddle (apart node member block)
    · exact ⟨block, .inr inBack, rest⟩
  refine threaded.retag same sameStatics sameTotal tags outside ?_ ?_
  · intro node member address low high
    rcases elsewhere node member with ⟨block, inFront | inBack, large, _⟩
    · have bounds := spot_bounds inFront
      exact outside address (.inl (by omega))
    · have bounds := spot_bounds inBack
      exact outside address (.inr (by omega))
  · intro node member
    rcases elsewhere node member with ⟨block, spot, rest⟩
    refine ⟨block, ?_, rest⟩
    simp only [spots_append, List.mem_append, sameTotal]
    tauto

/-- A listed block may be resized in place, with the rest of its space going to
other blocks, as long as its links stay. -/
theorem retag_listed {block first : Block} {others : List Block}
    (threaded : Threaded lists machine (front ++ ([block] ++ back)) index)
    (same : SameArena machine other) (sameStatics : other.statics = machine.statics)
    (sameTotal : total (first :: others) = block.size)
    (tags : Tags other.bytes (machine.origin + total front) (first :: others))
    (large : 16 ≤ first.size) (idle : first.request? = none)
    (linksKept : ∀ address, machine.origin + total front + 4 ≤ address →
      address < machine.origin + total front + 12 →
      other.bytes address = machine.bytes address)
    (outside : ∀ address,
      address < machine.origin + total front ∨
        machine.origin + total front + block.size ≤ address →
      other.bytes address = machine.bytes address) :
    Threaded lists other (front ++ ((first :: others) ++ back)) index := by
  have total : total (first :: others) = total [block] := by
    rw [sameTotal, total_cons, total_nil, Nat.add_zero]
  refine threaded.retag same sameStatics total tags (by simpa using outside) ?_ ?_
  · intro node member address low high
    rcases threaded.members node member with ⟨owner, spot, large, _⟩
    simp only [spots_append, spots_cons, spots_nil, total_cons, total_nil, List.mem_append,
      List.mem_singleton, Nat.add_zero] at spot
    rcases spot with inFront | here | inBack
    · have bounds := spot_bounds inFront
      exact outside address (.inl (by omega))
    · cases here
      exact linksKept address low (by omega)
    · have bounds := spot_bounds inBack
      exact outside address (.inr (by omega))
  · intro node member
    rcases threaded.members node member with ⟨owner, spot, rest⟩
    simp only [spots_append, spots_cons, spots_nil, total_cons, total_nil, List.mem_append,
      List.mem_singleton, Nat.add_zero] at spot
    rcases spot with inFront | here | inBack
    · exact ⟨owner, by simp only [spots_append, List.mem_append, inFront, true_or], rest⟩
    · cases here
      refine ⟨first, ?_, large, idle⟩
      simp only [spots_append, spots_cons, List.mem_append, List.mem_cons, true_or, or_true]
    · refine ⟨owner, ?_, rest⟩
      simp only [spots_append, List.mem_append, sameTotal]
      exact .inr (.inr inBack)

end Threaded

/-- The header and the footer of a one-block sequence. -/
theorem tags_singleton {memory : Memory} {cursor : Nat} {block : Block} :
    Tags memory cursor [block] ↔
      memory.load cursor = block.tag ∧
        memory.load (cursor + block.size - 4) = block.tag := by
  simp [Tags]

end MallocLab
