import Mathlib.Data.List.Nodup

/-! # Doubly linked chains

A chain is a list of nodes in which every two neighbours point at each other.
The two pointer fields are functions on nodes, so the theory applies to any
memory in which they can be read. A circular list repeats its sentinel at both
ends of the chain, a null-terminated one has null there.
-/

namespace MallocLab

variable {Node : Type}

/-- Neighbouring nodes point at each other. -/
def Linked (pred succ : Node → Node) : List Node → Prop
  | first :: second :: rest =>
      succ first = second ∧ pred second = first ∧ Linked pred succ (second :: rest)
  | _ => True

namespace Linked

variable {pred succ pred' succ' : Node → Node}

@[simp] theorem nil : Linked pred succ [] := trivial

@[simp] theorem singleton (node : Node) : Linked pred succ [node] := trivial

theorem cons_cons (first second : Node) (rest : List Node) :
    Linked pred succ (first :: second :: rest) ↔
      succ first = second ∧ pred second = first ∧
        Linked pred succ (second :: rest) := Iff.rfl

/-- A chain is cut at one of its nodes, which belongs to both parts. -/
theorem append_cons : ∀ (front : List Node) (node : Node) (back : List Node),
    Linked pred succ (front ++ node :: back) ↔
      Linked pred succ (front ++ [node]) ∧ Linked pred succ (node :: back)
  | [], node, back => by simp
  | [head], node, back => by
      simp only [List.cons_append, List.nil_append, cons_cons, singleton, and_true]
      tauto
  | head :: second :: front, node, back => by
      have induction := append_cons (second :: front) node back
      simp only [List.cons_append, cons_cons] at induction ⊢
      rw [induction]
      tauto

/-- A chain depends on the forward pointers of all nodes but the last and on
the backward pointers of all nodes but the first. -/
theorem congr : ∀ {nodes : List Node}, Linked pred succ nodes →
    (∀ node ∈ nodes.dropLast, succ' node = succ node) →
    (∀ node ∈ nodes.tail, pred' node = pred node) →
    Linked pred' succ' nodes
  | [], _, _, _ => trivial
  | [_], _, _, _ => trivial
  | first :: second :: rest, linked, forward, backward => by
      refine ⟨?_, ?_, ?_⟩
      · rw [forward first (by simp)]
        exact linked.1
      · rw [backward second (by simp)]
        exact linked.2.1
      · apply congr linked.2.2
        · intro node member
          exact forward node (by simp [member])
        · intro node member
          exact backward node (List.mem_cons_of_mem second member)

/-- Neighbours anywhere in a chain point at each other. -/
theorem neighbours {front back : List Node} {left right : Node}
    (linked : Linked pred succ (front ++ left :: right :: back)) :
    succ left = right ∧ pred right = left :=
  ⟨((append_cons _ _ _).mp linked).2.1, ((append_cons _ _ _).mp linked).2.2.1⟩

/-- Around a ring the two pointers are inverse to each other. -/
theorem inverse {start node : Node} {nodes : List Node}
    (linked : Linked pred succ (start :: nodes ++ [start])) (member : node ∈ start :: nodes) :
    pred (succ node) = node ∧ succ (pred node) = node := by
  constructor
  · rcases List.append_of_mem member with ⟨front, back, shape⟩
    rcases next : back ++ [start] with _ | ⟨after, rest⟩
    · simp at next
    · rw [shape, List.append_assoc, List.cons_append, next] at linked
      rw [linked.neighbours.1, linked.neighbours.2]
  · have around : node ∈ nodes ++ [start] := by simpa [or_comm] using member
    rcases List.append_of_mem around with ⟨front, back, shape⟩
    rcases List.eq_nil_or_concat (start :: front) with empty | ⟨rest, before, last⟩
    · simp at empty
    · rw [List.cons_append, shape, ← List.cons_append, last, List.concat_eq_append,
        List.append_assoc] at linked
      rw [linked.neighbours.2, linked.neighbours.1]

section Edit

variable {front back : List Node} {before node after : Node}

/-- What lies on both sides of an edit stays linked when only the forward
pointer of `before` and the backward pointer of `after` change. -/
theorem aside (middle : List Node)
    (linkedFront : Linked pred succ (front ++ [before]))
    (linkedBack : Linked pred succ (after :: back))
    (forwardNodup : (front ++ before :: (middle ++ after :: back)).dropLast.Nodup)
    (backwardNodup : (front ++ before :: (middle ++ after :: back)).tail.Nodup)
    (forward : ∀ other ∈ (front ++ before :: (middle ++ after :: back)).dropLast,
      other ≠ before → succ' other = succ other)
    (backward : ∀ other ∈ (front ++ before :: (middle ++ after :: back)).tail,
      other ≠ after → pred' other = pred other) :
    Linked pred' succ' (front ++ [before]) ∧ Linked pred' succ' (after :: back) := by
  have forwardShape : (front ++ before :: (middle ++ after :: back)).dropLast =
      front ++ before :: (middle ++ (after :: back).dropLast) := by
    rw [← List.cons_append, ← List.append_assoc, List.dropLast_append_cons]
    simp
  have backwardShape : (front ++ before :: (middle ++ after :: back)).tail =
      (front ++ [before]).tail ++ (middle ++ after :: back) := by
    cases front <;> simp
  rw [forwardShape] at forwardNodup forward
  rw [backwardShape] at backwardNodup backward
  have forwardParts := List.nodup_append.mp forwardNodup
  have backwardParts := List.nodup_append.mp backwardNodup
  have middleParts := List.nodup_append.mp backwardParts.2.1
  constructor
  · apply linkedFront.congr
    · intro other member
      have inFront : other ∈ front := by simpa using member
      exact forward other (by simp [inFront])
        (forwardParts.2.2 other inFront before (by simp))
    · intro other member
      exact backward other (by simp only [List.mem_append, member, true_or])
        (backwardParts.2.2 other member after (by simp))
  · apply linkedBack.congr
    · intro other member
      refine forward other (by simp [member]) ?_
      rintro rfl
      exact (List.nodup_cons.mp forwardParts.2.1).1 (by simp [member])
    · intro other member
      have inBack : other ∈ back := by simpa using member
      refine backward other (by simp [inBack]) ?_
      rintro rfl
      exact (List.nodup_cons.mp middleParts.2.1).1 inBack

/-- A node is taken out of a chain by pointing its neighbours at each other. -/
theorem unlink
    (linked : Linked pred succ (front ++ before :: node :: after :: back))
    (forwardNodup : (front ++ before :: node :: after :: back).dropLast.Nodup)
    (backwardNodup : (front ++ before :: node :: after :: back).tail.Nodup)
    (forward : ∀ other ∈ (front ++ before :: node :: after :: back).dropLast,
      other ≠ before → succ' other = succ other)
    (backward : ∀ other ∈ (front ++ before :: node :: after :: back).tail,
      other ≠ after → pred' other = pred other)
    (bridge : succ' before = after) (bridgeBack : pred' after = before) :
    Linked pred' succ' (front ++ before :: after :: back) := by
  have parts := (append_cons _ _ _).mp linked
  have sides := aside [node] parts.1 parts.2.2.2.2.2
    forwardNodup backwardNodup forward backward
  rw [append_cons]
  exact ⟨sides.1, bridge, bridgeBack, sides.2⟩

/-- A node is put between two nodes by redirecting four pointers. Nothing is
required of the backward pointer that is overwritten. -/
theorem link
    (linkedFront : Linked pred succ (front ++ [before]))
    (linkedBack : Linked pred succ (after :: back))
    (forwardNodup : (front ++ before :: after :: back).dropLast.Nodup)
    (backwardNodup : (front ++ before :: after :: back).tail.Nodup)
    (forward : ∀ other ∈ (front ++ before :: after :: back).dropLast,
      other ≠ before → succ' other = succ other)
    (backward : ∀ other ∈ (front ++ before :: after :: back).tail,
      other ≠ after → pred' other = pred other)
    (fromBefore : succ' before = node) (toBefore : pred' node = before)
    (toAfter : succ' node = after) (fromAfter : pred' after = node) :
    Linked pred' succ' (front ++ before :: node :: after :: back) := by
  have sides := aside [] linkedFront linkedBack
    forwardNodup backwardNodup forward backward
  rw [append_cons]
  exact ⟨sides.1, fromBefore, toBefore, toAfter, fromAfter, sides.2⟩

end Edit

/-! ## Members between two ends -/

section Member

variable {first last node : Node} {front back : List Node}

/-- A member of a chain has two neighbours, and pointing these at each other
takes it out. -/
theorem remove_member
    (linked : Linked pred succ (first :: (front ++ node :: back) ++ [last]))
    (forwardNodup : (first :: (front ++ node :: back)).Nodup)
    (backwardNodup : (front ++ node :: back ++ [last]).Nodup) :
    ∃ before after, before ∈ first :: front ∧ after ∈ back ++ [last] ∧
      succ before = node ∧ pred node = before ∧ succ node = after ∧ pred after = node ∧
      ∀ {pred' succ' : Node → Node},
        (∀ other ∈ first :: (front ++ node :: back),
          other ≠ before → succ' other = succ other) →
        (∀ other ∈ front ++ node :: back ++ [last],
          other ≠ after → pred' other = pred other) →
        succ' before = after → pred' after = before →
        Linked pred' succ' (first :: (front ++ back) ++ [last]) := by
  obtain ⟨start, before, startShape⟩ :=
    (List.eq_nil_or_concat (first :: front)).resolve_left (by simp)
  obtain ⟨after, rest, restShape⟩ : ∃ after rest, back ++ [last] = after :: rest := by
    cases back <;> simp
  rw [List.concat_eq_append] at startShape
  have whole : first :: (front ++ node :: back) ++ [last] =
      start ++ before :: node :: after :: rest := by
    rw [← restShape, ← List.cons_append, startShape]
    simp
  have rejoined : first :: (front ++ back) ++ [last] = start ++ before :: after :: rest := by
    rw [← restShape, ← List.cons_append, startShape]
    simp
  have dropped : (start ++ before :: node :: after :: rest).dropLast =
      first :: (front ++ node :: back) := by
    rw [← whole, List.dropLast_concat]
  have tailed : (start ++ before :: node :: after :: rest).tail =
      front ++ node :: back ++ [last] := by
    rw [← whole]
    rfl
  rw [whole] at linked
  have parts := (append_cons _ _ _).mp linked
  refine ⟨before, after, ?_, ?_, parts.2.1, parts.2.2.1, parts.2.2.2.1, parts.2.2.2.2.1, ?_⟩
  · rw [startShape]
    simp
  · rw [restShape]
    simp
  · intro pred' succ' forward backward bridge bridgeBack
    rw [rejoined]
    apply linked.unlink
    · exact dropped ▸ forwardNodup
    · exact tailed ▸ backwardNodup
    · exact dropped ▸ forward
    · exact tailed ▸ backward
    · exact bridge
    · exact bridgeBack

/-- Between any two parts of a chain a new member can be put by redirecting
four pointers. -/
theorem insert_member
    (linked : Linked pred succ (first :: (front ++ back) ++ [last]))
    (forwardNodup : (first :: (front ++ back)).Nodup)
    (backwardNodup : (front ++ back ++ [last]).Nodup) :
    ∃ before after, (first :: front).getLast? = some before ∧
      (back ++ [last]).head? = some after ∧ succ before = after ∧ pred after = before ∧
      ∀ {pred' succ' : Node → Node},
        (∀ other ∈ first :: (front ++ back),
          other ≠ before → succ' other = succ other) →
        (∀ other ∈ front ++ back ++ [last],
          other ≠ after → pred' other = pred other) →
        succ' before = node → pred' node = before →
        succ' node = after → pred' after = node →
        Linked pred' succ' (first :: (front ++ node :: back) ++ [last]) := by
  obtain ⟨start, before, startShape⟩ :=
    (List.eq_nil_or_concat (first :: front)).resolve_left (by simp)
  obtain ⟨after, rest, restShape⟩ : ∃ after rest, back ++ [last] = after :: rest := by
    cases back <;> simp
  rw [List.concat_eq_append] at startShape
  have whole : first :: (front ++ back) ++ [last] = start ++ before :: after :: rest := by
    rw [← restShape, ← List.cons_append, startShape]
    simp
  have enlarged : first :: (front ++ node :: back) ++ [last] =
      start ++ before :: node :: after :: rest := by
    rw [← restShape, ← List.cons_append, startShape]
    simp
  have dropped : (start ++ before :: after :: rest).dropLast = first :: (front ++ back) := by
    rw [← whole, List.dropLast_concat]
  have tailed : (start ++ before :: after :: rest).tail = front ++ back ++ [last] := by
    rw [← whole]
    rfl
  rw [whole] at linked
  have parts := (append_cons _ _ _).mp linked
  refine ⟨before, after, ?_, ?_, parts.2.1, parts.2.2.1, ?_⟩
  · rw [startShape, List.getLast?_concat]
  · rw [restShape, List.head?_cons]
  · intro pred' succ' forward backward fromBefore toBefore toAfter fromAfter
    rw [enlarged]
    apply link parts.1 parts.2.2.2
    · exact dropped ▸ forwardNodup
    · exact tailed ▸ backwardNodup
    · exact dropped ▸ forward
    · exact tailed ▸ backward
    · exact fromBefore
    · exact toBefore
    · exact toAfter
    · exact fromAfter

end Member

end Linked

/-! ## Lists with null at both ends -/

/-- A link function that is continued by a pointer kept elsewhere, such as the
head of a list. -/
def guarded [DecidableEq Node] (null ghost : Node) (link : Node → Node) (node : Node) : Node :=
  if node = null then ghost else link node

/-- The list begins at `head`, and null stands before its first and behind its
last node. -/
def NullTerminated [DecidableEq Node] (null : Node) (pred succ : Node → Node) (head : Node)
    (nodes : List Node) : Prop :=
  ∃ tail, Linked (guarded null tail pred) (guarded null head succ) (null :: nodes ++ [null])

namespace NullTerminated

variable [DecidableEq Node] {null head head' node : Node} {pred succ pred' succ' : Node → Node}
  {nodes front back : List Node}

theorem guarded_null (ghost : Node) (link : Node → Node) : guarded null ghost link null = ghost :=
  if_pos rfl

theorem guarded_node (ghost : Node) (link : Node → Node) (nonzero : node ≠ null) :
    guarded null ghost link node = link node := if_neg nonzero

theorem nil : NullTerminated null pred succ null [] :=
  ⟨null, guarded_null _ _, guarded_null _ _, trivial⟩

theorem congr (terminated : NullTerminated null pred succ head nodes) (nonzero : null ∉ nodes)
    (forward : ∀ node ∈ nodes, succ' node = succ node)
    (backward : ∀ node ∈ nodes, pred' node = pred node) :
    NullTerminated null pred' succ' head nodes := by
  rcases terminated with ⟨tail, linked⟩
  have different : ∀ {node}, node ∈ nodes → node ≠ null := fun member same => nonzero (same ▸ member)
  refine ⟨tail, linked.congr (fun node member => ?_) fun node member => ?_⟩
  · rw [List.dropLast_concat] at member
    rcases List.mem_cons.mp member with rfl | inside
    · rw [guarded_null, guarded_null]
    · rw [guarded_node _ _ (different inside), guarded_node _ _ (different inside),
        forward node inside]
  · simp only [List.cons_append, List.tail_cons, List.mem_append, List.mem_singleton] at member
    rcases member with inside | rfl
    · rw [guarded_node _ _ (different inside), guarded_node _ _ (different inside),
        backward node inside]
    · rw [guarded_null, guarded_null]

theorem head_eq (terminated : NullTerminated null pred succ head nodes) :
    (nodes ++ [null]).head? = some head := by
  rcases terminated with ⟨tail, linked⟩
  have begins : guarded null head succ null = head := guarded_null head succ
  cases nodes with
  | nil => exact congrArg some (linked.1.symm.trans begins)
  | cons first rest => exact congrArg some (linked.1.symm.trans begins)

/-- The forward pointers lead along the nodes to null. -/
theorem forward (terminated : NullTerminated null pred succ head nodes) (nonzero : null ∉ nodes) :
    ∃ tail, Linked (guarded null tail pred) succ (nodes ++ [null]) := by
  rcases terminated with ⟨tail, linked⟩
  have rest : Linked (guarded null tail pred) (guarded null head succ) (nodes ++ [null]) := by
    cases nodes with
    | nil => trivial
    | cons first rest => exact linked.2.2
  refine ⟨tail, rest.congr (fun node member => ?_) fun _ _ => rfl⟩
  rw [List.dropLast_concat] at member
  have different : node ≠ null := by
    rintro rfl
    exact nonzero member
  exact (guarded_node _ _ different).symm

/-- A member is taken out by pointing its neighbours at each other, where the
head takes the part of a neighbour before the first node. -/
theorem remove (terminated : NullTerminated null pred succ head (front ++ node :: back))
    (nonzero : null ∉ front ++ node :: back) (nodup : (front ++ node :: back).Nodup) :
    pred node ∈ null :: front ∧ succ node ∈ back ++ [null] ∧
      ∀ {pred' succ' : Node → Node} {head' : Node},
        (∀ other ∈ front ++ node :: back, other ≠ pred node → succ' other = succ other) →
        (∀ other ∈ front ++ node :: back, other ≠ succ node → pred' other = pred other) →
        (pred node = null → head' = succ node) →
        (pred node ≠ null → head' = head ∧ succ' (pred node) = succ node) →
        (succ node ≠ null → pred' (succ node) = pred node) →
        NullTerminated null pred' succ' head' (front ++ back) := by
  rcases terminated with ⟨tail, linked⟩
  have different : ∀ {other}, other ∈ front ++ node :: back → other ≠ null :=
    fun member same => nonzero (same ▸ member)
  have here : node ≠ null := different (by simp)
  rcases linked.remove_member (List.nodup_cons.mpr ⟨nonzero, nodup⟩)
    ((List.perm_append_singleton _ _).symm.nodup (List.nodup_cons.mpr ⟨nonzero, nodup⟩)) with
    ⟨before, after, beforeMember, afterMember, _, fromNode, toAfter, _, relinked⟩
  rw [guarded_node _ _ here] at fromNode toAfter
  subst fromNode toAfter
  refine ⟨beforeMember, afterMember, fun {pred' succ' head'} forward backward atHead inside
    behind => ⟨if succ node = null then pred node else tail, ?_⟩⟩
  apply relinked
  · intro other member apart
    rcases List.mem_cons.mp member with rfl | inList
    · rw [guarded_null, guarded_null, (inside apart.symm).1]
    · rw [guarded_node _ _ (different inList), guarded_node _ _ (different inList),
        forward other inList apart]
  · intro other member apart
    rcases List.mem_append.mp member with inList | isNull
    · rw [guarded_node _ _ (different inList), guarded_node _ _ (different inList),
        backward other inList apart]
    · rw [List.mem_singleton.mp isNull] at apart ⊢
      rw [guarded_null, guarded_null, if_neg apart.symm]
  · by_cases first : pred node = null
    · rw [first, guarded_null, atHead first]
    · rw [guarded_node _ _ first, (inside first).2]
  · by_cases last : succ node = null
    · rw [last, guarded_null, if_pos rfl]
    · rw [guarded_node _ _ last, behind last]

/-- A node is put between two parts of a list, whose ends are `before` and
`after`. -/
theorem insert {before after : Node}
    (terminated : NullTerminated null pred succ head (front ++ back))
    (nonzero : null ∉ front ++ back) (nodup : (front ++ back).Nodup) (here : node ≠ null)
    (atFront : (null :: front).getLast? = some before)
    (atBack : (back ++ [null]).head? = some after)
    (forward : ∀ other ∈ front ++ back, other ≠ before → succ' other = succ other)
    (backward : ∀ other ∈ front ++ back, other ≠ after → pred' other = pred other)
    (atHead : before = null → head' = node)
    (inside : before ≠ null → head' = head ∧ succ' before = node)
    (behind : after ≠ null → pred' after = node)
    (toBefore : pred' node = before) (toAfter : succ' node = after) :
    NullTerminated null pred' succ' head' (front ++ node :: back) := by
  rcases terminated with ⟨tail, linked⟩
  have different : ∀ {other}, other ∈ front ++ back → other ≠ null :=
    fun member same => nonzero (same ▸ member)
  rcases linked.insert_member (List.nodup_cons.mpr ⟨nonzero, nodup⟩)
    ((List.perm_append_singleton _ _).symm.nodup (List.nodup_cons.mpr ⟨nonzero, nodup⟩)) with
    ⟨left, right, isLeft, isRight, _, _, relinked⟩
  obtain rfl : left = before := Option.some.inj (isLeft.symm.trans atFront)
  obtain rfl : right = after := Option.some.inj (isRight.symm.trans atBack)
  refine ⟨if right = null then node else tail, ?_⟩
  apply relinked
  · intro other member apart
    rcases List.mem_cons.mp member with rfl | inList
    · rw [guarded_null, guarded_null, (inside apart.symm).1]
    · rw [guarded_node _ _ (different inList), guarded_node _ _ (different inList),
        forward other inList apart]
  · intro other member apart
    rcases List.mem_append.mp member with inList | isNull
    · rw [guarded_node _ _ (different inList), guarded_node _ _ (different inList),
        backward other inList apart]
    · rw [List.mem_singleton.mp isNull] at apart ⊢
      rw [guarded_null, guarded_null, if_neg apart.symm]
  · by_cases first : left = null
    · rw [first, guarded_null, atHead first]
    · rw [guarded_node _ _ first, (inside first).2]
  · rw [guarded_node _ _ here, toBefore]
  · rw [guarded_node _ _ here, toAfter]
  · by_cases last : right = null
    · rw [last, guarded_null, if_pos rfl]
    · rw [guarded_node _ _ last, behind last]

end NullTerminated

end MallocLab
