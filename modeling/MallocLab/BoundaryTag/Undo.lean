import MallocLab.BoundaryTag.Requests
import MallocLab.BoundaryTag.Sight

/-! # Giving back what was just requested

Marking the served part of a block and fusing restores the picture of the block.
Only an extension of the heap remains visible, as free bytes at its end.
-/

namespace MallocLab

open Blocks

namespace Seen

variable {walk : List Seen}

/-- The walk over a heap that became longer: the free block at its end is larger,
or a free block follows. -/
inductive Stretched (walk : List Seen) (brk bytes : Nat) : List Seen → Prop
  | enlarged (front : List Seen) (last : Seen) : walk = front ++ [last] → last.alloc = 0 →
      Stretched walk brk bytes (front ++ [⟨last.bp, last.size + bytes, 0⟩])
  | added : (∀ last ∈ walk.getLast?, last.alloc ≠ 0) →
      Stretched walk brk bytes (walk ++ [⟨brk, bytes, 0⟩])

/-- The free blocks of a stretched walk begin where they began, but for a new one
at the old end. -/
theorem Stretched.members {brk bytes : Nat} {longer : List Seen}
    (stretched : Stretched walk brk bytes longer) (bp : Nat) :
    (∃ seen ∈ longer, seen.bp = bp ∧ seen.alloc = 0) ↔
      (∃ seen ∈ walk, seen.bp = bp ∧ seen.alloc = 0) ∨
        bp = brk ∧ ∀ last ∈ walk.getLast?, last.alloc ≠ 0 := by
  cases stretched with
  | enlarged front last shape free =>
      subst shape
      have notUsed : ¬∀ other ∈ (front ++ [last]).getLast?, other.alloc ≠ 0 := by
        simp [free]
      simp [free, or_and_right, exists_or]
  | added used =>
      rw [and_iff_left used]
      simp [or_and_right, exists_or, eq_comm]

theorem stretched_fuse (fused : fusion.Fused walk) (brk bytes : Nat) :
    Stretched walk brk bytes (fuse (walk ++ [⟨brk, bytes, 0⟩])) := by
  by_cases used : ∀ last ∈ walk.getLast?, last.alloc ≠ 0
  · have apart : fuse (walk ++ [⟨brk, bytes, 0⟩]) = walk ++ [⟨brk, bytes, 0⟩] := by
      have parts : fuse (walk ++ [⟨brk, bytes, 0⟩]) = fuse walk ++ fuse [⟨brk, bytes, 0⟩] :=
        Fusion.fuse_append fun last member => decide_eq_false (used last member)
      rw [parts, fuse_of_fused fused]
      rfl
    rw [apart]
    exact .added used
  · rcases List.eq_nil_or_concat walk with rfl | ⟨front, last, rfl⟩
    · exact (used (by simp)).elim
    · rw [List.concat_eq_append] at used fused ⊢
      have free : last.alloc = 0 := by simpa using used
      have parts := List.isChain_append.mp fused
      have before : ∀ left ∈ front.getLast?, left.alloc ≠ 0 := by
        intro left member
        have apart := parts.2.2 left member last rfl
        exact of_decide_eq_false (apart.resolve_right (by simp [fusion, free]))
      have joined : fuse ((front ++ [last]) ++ [⟨brk, bytes, 0⟩]) =
          front ++ [⟨last.bp, last.size + bytes, 0⟩] := by
        have after : ∀ next ∈ ([] : List Seen).head?, next.alloc ≠ 0 := by simp
        have run : ∀ seen ∈ [last, ⟨brk, bytes, 0⟩], seen.alloc = 0 := by simp [free]
        have whole := fuse_run run before after
        rw [fuse_of_fused parts.1] at whole
        rw [List.append_assoc]
        exact whole
      rw [joined]
      exact .enlarged front last rfl free

end Seen

namespace Blocks

variable {cursor request : Nat} {block : Block} {blocks front back : List Block}

/-- A block that serves a request and is given back at once. -/
theorem view_undo (coalesced : Coalesced (front ++ block :: back)) (isFree : block.isFree = true)
    (enough : roundUp request ≤ block.size) :
    Seen.fuse (Seen.mark [cursor + total front + 4]
      (view cursor (front ++ (block.serve request ++ back)))) =
      view cursor (front ++ block :: back) := by
  rcases serve_cases block enough with
    ⟨live, rest, shape, size, isLive, _, restSize, restFree, _⟩ | ⟨live, shape, size, isLive, _⟩
  · have released := Block.release_of_large (Block.size_ge_of_live isLive).1
    have sum : live.size + rest.size = block.size := by omega
    rw [shape, List.cons_append, List.singleton_append, mark_view (Block.size_ge_of_live isLive).1,
      ← fuse_view coalesced]
    simp only [view_append, view_cons, released.1, released.2, restFree, isFree, if_true]
    rw [Seen.fuse_pair, Nat.add_assoc _ live.size rest.size, sum]
  · have released := Block.release_of_large (Block.size_ge_of_live isLive).1
    rw [shape, List.singleton_append, mark_view (Block.size_ge_of_live isLive).1,
      ← fuse_view coalesced]
    simp only [view_append, view_cons, released.1, released.2, isFree, size]

/-- The picture of a heap that was extended by a free block. -/
theorem view_grow (coalesced : Coalesced blocks) (isFree : block.isFree = true) :
    Seen.Stretched (view cursor blocks) (cursor + total blocks + 4) block.size
      (view cursor (settle blocks block [])) := by
  have fused : Seen.fusion.Fused (view cursor blocks) := fused_view coalesced
  have stretched := Seen.stretched_fuse fused (cursor + total blocks + 4) block.size
  rw [← fuse_view_settle isFree coalesced .nil, view_append, view_cons, isFree]
  exact stretched

end Blocks

namespace Procedures

variable {Statics Index : Type} {package : Procedures Statics Index} {client : Client Statics}
  {layout after : Layout Index} {address size : Nat}

/-- Behind a used prologue the picture of a heap is stretched as the heap is. -/
theorem stretched_cons {first : Seen} {walk longer : List Seen} {brk bytes : Nat}
    (used : first.alloc ≠ 0) (stretched : Seen.Stretched walk brk bytes longer) :
    Seen.Stretched (first :: walk) brk bytes (first :: longer) := by
  cases stretched with
  | enlarged front last shape free =>
      rw [← List.cons_append]
      exact .enlarged (first :: front) last (by rw [shape, List.cons_append]) free
  | added usedLast =>
      rw [← List.cons_append]
      apply Seen.Stretched.added
      intro last member
      cases walk with
      | nil =>
          cases Option.mem_some.mp member
          exact used
      | cons next walk => exact usedLast last member

/-- What remains of a request that is given back at once: nothing, or the
extension of the heap. -/
theorem Serves.picture_undo (lawful : package.policy.Lawful) (serves : package.Serves client layout)
    (served : package.malloc client.machine layout size = (some address, after)) :
    let restored := Seen.fuse (Seen.mark [address] (package.picture client.machine after))
    (total after.blocks = total layout.blocks ∧
        restored = package.picture client.machine layout) ∨
      (total after.blocks = total layout.blocks + extension size ∧
        Seen.Stretched (package.picture client.machine layout) client.machine.memBrk
          (extension size) restored) := by
  rcases Layout.malloc_source lawful serves.holds.wellFormed served with
    ⟨before, front, block, back, source, formed, shape, isFree, enough, position, rfl⟩
  have coalesced : Coalesced (package.prologue :: before.blocks) :=
    formed.coalesced.cons fun _ _ => .inl (isFree_of_sentinel serves.holds.sentinel)
  rw [shape, ← List.cons_append] at coalesced
  have whole : address = client.machine.origin + total (package.prologue :: front) + 4 := by
    simp only [position, total_cons, Machine.first]
    omega
  have restored : Seen.fuse (Seen.mark [address] (package.picture client.machine
      (Layout.allot package.policy (package.base client.machine) front block back before.index
        size))) = package.picture client.machine before := by
    rw [picture, picture, shape, whole]
    exact view_undo coalesced isFree enough
  have length : total (Layout.allot package.policy (package.base client.machine) front block back
      before.index size).blocks = total before.blocks := by
    simp only [Layout.allot, shape, total_append, total_cons, Block.total_serve]
  intro result
  rw [length]
  cases source with
  | inl same => exact .inl ⟨by rw [same], restored.trans (by rw [same])⟩
  | inr grown =>
      right
      have isFresh : (fresh (extension size) (extension_aligned size)
        (extension_ge size)).isFree = true := rfl
      have extent := Holds.extent serves.holds
      have brk : package.base client.machine + total layout.blocks + 4 = client.machine.memBrk := by
        simp only [Machine.first, Machine.origin]
        omega
      have stretched := @view_grow (package.base client.machine) _ _
        serves.holds.wellFormed.coalesced isFresh
      rw [brk] at stretched
      refine ⟨?_, ?_⟩
      · rw [grown, Layout.grow, Layout.settle, total_settle]
        simp [fresh, Block.ofFree]
      · rw [show result = _ from restored, grown]
        exact stretched_cons (by simp [isFree_of_sentinel serves.holds.sentinel]) stretched

end Procedures

end MallocLab
