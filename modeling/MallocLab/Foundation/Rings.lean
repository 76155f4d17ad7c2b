import MallocLab.Foundation.LinkedList
import Mathlib.Logic.Function.Basic

/-! # Families of circular lists

Each ring has a head that belongs to it at all times and any number of members.
No node is shared, so an edit of one ring keeps the others.
-/

namespace MallocLab

variable {Index Node : Type}

/-- Every active index has a ring of its head and its members, in the order of
the forward pointers. -/
structure Rings (pred succ : Node → Node) (active : Index → Prop) (heads : Index → Node)
    (members : Index → List Node) : Prop where
  linked : ∀ index, active index → Linked pred succ (heads index :: members index ++ [heads index])
  nodup : ∀ index, active index → (heads index :: members index).Nodup
  apart : ∀ index other, active index → active other → index ≠ other →
    ∀ node ∈ heads index :: members index, node ∉ heads other :: members other

namespace Rings

variable {pred succ pred' succ' : Node → Node} {active : Index → Prop} {heads : Index → Node}
  {members : Index → List Node} {index : Index} {entry node : Node}

/-- The node belongs to one of the rings. -/
def Has (active : Index → Prop) (heads : Index → Node) (members : Index → List Node)
    (node : Node) : Prop :=
  ∃ index, active index ∧ node ∈ heads index :: members index

section Pointers

variable (rings : Rings pred succ active heads members) (isActive : active index)

include rings isActive

theorem ring_nodup : (members index ++ [heads index]).Nodup :=
  (List.perm_append_singleton _ _).symm.nodup (rings.nodup index isActive)

/-- The backward pointer of a head leads to the last member, or to the head
itself when there is none. -/
theorem pred_head : (heads index :: members index).getLast? = some (pred (heads index)) := by
  have linked := rings.linked index isActive
  rcases List.eq_nil_or_concat (members index) with empty | ⟨front, last, shape⟩
  · rw [empty] at linked ⊢
    exact congrArg some linked.2.1.symm
  · rw [List.concat_eq_append] at shape
    have closed : Linked pred succ ((heads index :: front) ++ last :: heads index :: []) := by
      simpa [shape] using linked
    rw [shape, ← List.cons_append, List.getLast?_concat, closed.neighbours.2]

theorem pred_head_mem : pred (heads index) ∈ heads index :: members index :=
  List.mem_of_getLast? (rings.pred_head isActive)

theorem pred_head_of_empty (empty : members index = []) : pred (heads index) = heads index := by
  have last := rings.pred_head isActive
  rw [empty] at last
  exact (Option.some.inj last).symm

theorem pred_head_of_last {front : List Node} {last : Node}
    (shape : members index = front ++ [last]) :
    pred (heads index) = last ∧ last ≠ heads index := by
  have atEnd := rings.pred_head isActive
  have nodup := List.nodup_cons.mp (rings.nodup index isActive)
  rw [shape, ← List.cons_append, List.getLast?_concat] at atEnd
  refine ⟨(Option.some.inj atEnd).symm, ?_⟩
  rintro rfl
  exact nodup.1 (shape ▸ by simp)

/-- The neighbours of a member belong to its ring. -/
theorem neighbours_mem (member : entry ∈ members index) :
    pred entry ∈ heads index :: members index ∧ succ entry ∈ heads index :: members index := by
  have linked := rings.linked index isActive
  rcases List.append_of_mem member with ⟨front, back, shape⟩
  have nodup := rings.nodup index isActive
  have ringNodup := rings.ring_nodup isActive
  rw [shape] at linked nodup ringNodup ⊢
  rcases linked.remove_member nodup ringNodup with
    ⟨before, after, beforeMem, afterMem, _, toBefore, toAfter, _, _⟩
  rw [toBefore, toAfter]
  simp only [List.mem_cons, List.mem_append, List.not_mem_nil, or_false] at *
  constructor <;> tauto

end Pointers

/-- Nodes of a ring whose pointers do not change keep it. -/
theorem linked_congr (rings : Rings pred succ active heads members) (isActive : active index)
    (forward : ∀ node ∈ heads index :: members index, succ' node = succ node)
    (backward : ∀ node ∈ heads index :: members index, pred' node = pred node) :
    Linked pred' succ' (heads index :: members index ++ [heads index]) := by
  apply (rings.linked index isActive).congr
  · rw [List.dropLast_concat]
    exact forward
  · intro node member
    apply backward
    simpa [or_comm] using member

/-- Pointers outside the rings do not matter. -/
theorem congr (rings : Rings pred succ active heads members)
    (forward : ∀ node, Has active heads members node → succ' node = succ node)
    (backward : ∀ node, Has active heads members node → pred' node = pred node) :
    Rings pred' succ' active heads members where
  linked index isActive := rings.linked_congr isActive
    (fun node member => forward node ⟨index, isActive, member⟩)
    fun node member => backward node ⟨index, isActive, member⟩
  nodup := rings.nodup
  apart := rings.apart

section Edit

variable [DecidableEq Index] (rings : Rings pred succ active heads members)
  (isActive : active index)

include rings isActive

/-- One ring is replaced by one with other members, and the pointers of the
other rings stay. -/
theorem replace {changed : List Node}
    (known : ∀ node ∈ changed, node ∈ members index ∨ ¬Has active heads members node)
    (nodup : (heads index :: changed).Nodup)
    (linked : Linked pred' succ' (heads index :: changed ++ [heads index]))
    (forward : ∀ node, Has active heads members node → node ∉ heads index :: members index →
      succ' node = succ node)
    (backward : ∀ node, Has active heads members node → node ∉ heads index :: members index →
      pred' node = pred node) :
    Rings pred' succ' active heads (Function.update members index changed) := by
  have elsewhere : ∀ {other node}, active other → other ≠ index →
      node ∈ heads other :: members other → node ∉ heads index :: changed := by
    intro other node otherActive different member inChanged
    have outside := rings.apart other index otherActive isActive different node member
    rcases List.mem_cons.mp inChanged with isHead | inside
    · exact outside (isHead ▸ List.mem_cons_self)
    · rcases known node inside with old | new
      · exact outside (List.mem_cons_of_mem _ old)
      · exact new ⟨other, otherActive, member⟩
  refine ⟨fun other otherActive => ?_, fun other otherActive => ?_,
    fun first second firstActive secondActive different node member => ?_⟩
  · by_cases same : other = index
    · rw [same, Function.update_self]
      exact linked
    · rw [Function.update_of_ne same]
      have outside := rings.apart other index otherActive isActive same
      exact rings.linked_congr otherActive
        (fun node member => forward node ⟨other, otherActive, member⟩ (outside node member))
        fun node member => backward node ⟨other, otherActive, member⟩ (outside node member)
  · by_cases same : other = index
    · rw [same, Function.update_self]
      exact nodup
    · rw [Function.update_of_ne same]
      exact rings.nodup other otherActive
  · by_cases firstSame : first = index
    · rw [firstSame, Function.update_self] at member
      have secondOther : second ≠ index := fun same => different (firstSame.trans same.symm)
      rw [Function.update_of_ne secondOther]
      exact fun inSecond => elsewhere secondActive secondOther inSecond member
    · rw [Function.update_of_ne firstSame] at member
      by_cases secondSame : second = index
      · rw [secondSame, Function.update_self]
        exact elsewhere firstActive firstSame member
      · rw [Function.update_of_ne secondSame]
        exact rings.apart first second firstActive secondActive different node member

/-- A new entry becomes the last member. -/
theorem push [DecidableEq Node] (fresh : ¬Has active heads members entry)
    (forward : ∀ node, node = entry ∨ Has active heads members node → succ' node =
      if node = pred (heads index) then entry
      else if node = entry then heads index else succ node)
    (backward : ∀ node, node = entry ∨ Has active heads members node → pred' node =
      if node = heads index then entry
      else if node = entry then pred (heads index) else pred node) :
    Rings pred' succ' active heads (Function.update members index (members index ++ [entry])) := by
  have notInside : entry ∉ heads index :: members index := fun member =>
    fresh ⟨index, isActive, member⟩
  have nodup := rings.nodup index isActive
  have ringNodup := rings.ring_nodup isActive
  have linked := rings.linked index isActive
  have beforeMem := rings.pred_head_mem isActive
  have inRing : ∀ node ∈ heads index :: members index, Has active heads members node :=
    fun node member => ⟨index, isActive, member⟩
  have notEntry : ∀ {node}, node ∈ heads index :: members index → node ≠ entry := fun member same =>
    notInside (same ▸ member)
  apply rings.replace isActive
  · intro node member
    rcases List.mem_append.mp member with old | new
    · exact .inl old
    · exact .inr (List.mem_singleton.mp new ▸ fresh)
  · rw [← List.cons_append]
    exact (List.perm_append_singleton _ _).symm.nodup (List.nodup_cons.mpr ⟨notInside, nodup⟩)
  · rw [← List.append_nil (members index)] at linked nodup ringNodup
    rcases linked.insert_member nodup ringNodup with
      ⟨before, after, isBefore, isAfter, _, behind, relinked⟩
    cases isAfter
    subst behind
    rw [← List.append_nil (members index ++ [entry]), List.append_assoc]
    rw [List.append_nil] at relinked
    apply relinked
    · intro other member different
      rw [forward other (.inr (inRing other member)), if_neg different, if_neg (notEntry member)]
    · intro other member different
      have member' : other ∈ heads index :: members index := by simpa [or_comm] using member
      rw [backward other (.inr (inRing other member')), if_neg different, if_neg (notEntry member')]
    · rw [forward _ (.inr (inRing _ beforeMem)), if_pos rfl]
    · rw [backward entry (.inl rfl), if_neg (notEntry List.mem_cons_self).symm, if_pos rfl]
    · rw [forward entry (.inl rfl), if_neg (notEntry beforeMem).symm, if_pos rfl]
    · rw [backward _ (.inr (inRing _ List.mem_cons_self)), if_pos rfl]
  · intro node known outside
    have notBefore : node ≠ pred (heads index) := fun same => outside (same ▸ beforeMem)
    have different : node ≠ entry := fun same => fresh (same ▸ known)
    rw [forward node (.inr known), if_neg notBefore, if_neg different]
  · intro node known outside
    have notHead : node ≠ heads index := fun same => outside (same ▸ List.mem_cons_self)
    have different : node ≠ entry := fun same => fresh (same ▸ known)
    rw [backward node (.inr known), if_neg notHead, if_neg different]

/-- A member leaves its ring when its neighbours point at each other. -/
theorem remove [DecidableEq Node] (member : entry ∈ members index)
    (forward : ∀ node, Has active heads members node → succ' node =
      if node = pred entry then succ entry else succ node)
    (backward : ∀ node, Has active heads members node → pred' node =
      if node = succ entry then pred entry else pred node) :
    Rings pred' succ' active heads
      (Function.update members index ((members index).erase entry)) := by
  have neighbours := rings.neighbours_mem isActive member
  have nodup := rings.nodup index isActive
  have ringNodup := rings.ring_nodup isActive
  have linked := rings.linked index isActive
  have inRing : ∀ node ∈ heads index :: members index, Has active heads members node :=
    fun node member => ⟨index, isActive, member⟩
  apply rings.replace isActive
  · exact fun node inside => .inl (List.mem_of_mem_erase inside)
  · exact nodup.sublist (List.erase_sublist.cons_cons _)
  · rcases List.append_of_mem member with ⟨front, back, shape⟩
    have erased : (members index).erase entry = front ++ back := by
      rw [shape] at nodup ⊢
      have notInFront : entry ∉ front := fun inFront =>
        (List.nodup_append.mp (List.nodup_cons.mp nodup).2).2.2 entry inFront entry
          List.mem_cons_self rfl
      rw [List.erase_append_right _ notInFront, List.erase_cons_head]
    rw [erased]
    rw [shape] at linked nodup ringNodup inRing neighbours
    rcases linked.remove_member nodup ringNodup with
      ⟨before, after, _, _, _, toBefore, toAfter, _, relinked⟩
    subst toBefore toAfter
    apply relinked
    · intro other otherMem different
      rw [forward other (inRing other otherMem), if_neg different]
    · intro other otherMem different
      have otherMem' : other ∈ heads index :: (front ++ entry :: back) := by
        simp only [List.mem_cons, List.mem_append, List.not_mem_nil, or_false] at otherMem ⊢
        tauto
      rw [backward other (inRing other otherMem'), if_neg different]
    · rw [forward _ (inRing _ neighbours.1), if_pos rfl]
    · rw [backward _ (inRing _ neighbours.2), if_pos rfl]
  · intro node known outside
    have notBefore : node ≠ pred entry := fun same => outside (same ▸ neighbours.1)
    rw [forward node known, if_neg notBefore]
  · intro node known outside
    have notAfter : node ≠ succ entry := fun same => outside (same ▸ neighbours.2)
    rw [backward node known, if_neg notAfter]

end Edit

/-- A head that points at itself is a new ring without members. -/
theorem opened (rings : Rings pred succ active heads members) (empty : members index = [])
    (fresh : ¬Has active heads members (heads index))
    (ownForward : succ' (heads index) = heads index)
    (ownBackward : pred' (heads index) = heads index)
    (forward : ∀ node, Has active heads members node → succ' node = succ node)
    (backward : ∀ node, Has active heads members node → pred' node = pred node) :
    Rings pred' succ' (fun other => other = index ∨ active other) heads members where
  linked other isActive := by
    rcases isActive with rfl | old
    · rw [empty]
      exact ⟨ownForward, ownBackward, trivial⟩
    · exact (rings.congr forward backward).linked other old
  nodup other isActive := by
    rcases isActive with rfl | old
    · rw [empty]
      exact List.nodup_singleton _
    · exact rings.nodup other old
  apart first second firstActive secondActive different node member := by
    rcases firstActive with rfl | firstOld
    · rcases secondActive with rfl | secondOld
      · exact absurd rfl different
      · rw [empty, List.mem_singleton] at member
        exact fun inSecond => fresh ⟨second, secondOld, member ▸ inSecond⟩
    · rcases secondActive with rfl | secondOld
      · rw [empty, List.mem_singleton]
        rintro rfl
        exact fresh ⟨first, firstOld, member⟩
      · exact rings.apart first second firstOld secondOld different node member

end Rings

end MallocLab
