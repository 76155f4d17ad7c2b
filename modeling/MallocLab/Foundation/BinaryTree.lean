import Mathlib.Data.List.Nodup
import Mathlib.Data.List.Pairwise
import Mathlib.Data.Nat.Bitwise
import Mathlib.Tactic.Ring

/-! # The binary tree over the natural numbers

A node is an interval of `2 ^ exponent` numbers that begins at a multiple of its
length, and its two children are its halves. Two of them are nested or apart, and splitting a node or
joining two siblings keeps a tiling a tiling.
-/

namespace MallocLab

structure TreeNode where
  exponent : Nat
  position : Nat
  deriving DecidableEq, Repr

namespace TreeNode

variable {node other root : TreeNode} {nodes rest : List TreeNode} {point : Nat}

def size (node : TreeNode) : Nat := 2 ^ node.exponent

def start (node : TreeNode) : Nat := node.position * node.size

/-- The end of the interval, which does not belong to it. -/
def limit (node : TreeNode) : Nat := node.start + node.size

def Mem (node : TreeNode) (point : Nat) : Prop := node.start ≤ point ∧ point < node.limit

/-- The first interval lies before or behind the second. -/
def Apart (node other : TreeNode) : Prop := node.limit ≤ other.start ∨ other.limit ≤ node.start

/-- The first interval is part of the second. -/
def Within (node other : TreeNode) : Prop := other.start ≤ node.start ∧ node.limit ≤ other.limit

instance (node other : TreeNode) : Decidable (node.Within other) :=
  inferInstanceAs (Decidable (_ ∧ _))

def left (node : TreeNode) : TreeNode := ⟨node.exponent - 1, 2 * node.position⟩

def right (node : TreeNode) : TreeNode := ⟨node.exponent - 1, 2 * node.position + 1⟩

def parent (node : TreeNode) : TreeNode := ⟨node.exponent + 1, node.position / 2⟩

def sibling (node : TreeNode) : TreeNode :=
  ⟨node.exponent, if node.position % 2 = 0 then node.position + 1 else node.position - 1⟩

@[simp] theorem left_exponent (node : TreeNode) : node.left.exponent = node.exponent - 1 := rfl
@[simp] theorem right_exponent (node : TreeNode) : node.right.exponent = node.exponent - 1 := rfl
@[simp] theorem parent_exponent (node : TreeNode) : node.parent.exponent = node.exponent + 1 := rfl
@[simp] theorem sibling_exponent (node : TreeNode) : node.sibling.exponent = node.exponent := rfl
theorem sibling_position (node : TreeNode) : node.sibling.position =
    if node.position % 2 = 0 then node.position + 1 else node.position - 1 := rfl
@[simp] theorem left_position (node : TreeNode) : node.left.position = 2 * node.position := rfl
@[simp] theorem right_position (node : TreeNode) :
    node.right.position = 2 * node.position + 1 := rfl
@[simp] theorem parent_position (node : TreeNode) : node.parent.position = node.position / 2 := rfl

theorem ext_iff : node = other ↔
    node.exponent = other.exponent ∧ node.position = other.position := by
  cases node
  cases other
  simp

theorem size_pos (node : TreeNode) : 0 < node.size := Nat.two_pow_pos _

theorem start_lt_limit (node : TreeNode) : node.start < node.limit :=
  Nat.lt_add_of_pos_right node.size_pos

theorem mem_start (node : TreeNode) : node.Mem node.start := ⟨le_refl _, node.start_lt_limit⟩

theorem size_eq_double (positive : 0 < node.exponent) : node.size = 2 * 2 ^ (node.exponent - 1) := by
  rw [size, ← Nat.pow_succ', Nat.succ_eq_add_one, Nat.sub_add_cancel positive]

/-! ## Halves -/

theorem left_limit (node : TreeNode) : node.left.limit = node.right.start := by
  simp only [limit, start, size, left_position, left_exponent, right_position, right_exponent]
  ring

section Halves

variable (positive : 0 < node.exponent)

include positive

theorem left_start : node.left.start = node.start := by
  rw [start, start, size_eq_double positive, size, left_position, left_exponent]
  ring

theorem right_limit : node.right.limit = node.limit := by
  rw [limit, limit, start, start, size_eq_double positive, size, right_position, right_exponent]
  ring

theorem right_start : node.right.start = node.start + node.size / 2 := by
  rw [start, start, size_eq_double positive, size, right_position, right_exponent,
    Nat.mul_div_cancel_left _ (by decide : 0 < 2)]
  ring

theorem left_size : node.left.size = node.size / 2 := by
  rw [size_eq_double positive, Nat.mul_div_cancel_left _ (by decide : 0 < 2)]
  rfl

theorem mem_halves : node.Mem point ↔ node.left.Mem point ∨ node.right.Mem point := by
  have first := left_start positive
  have middle := left_limit node
  have last := right_limit positive
  have nonempty := node.left.start_lt_limit
  have alsoNonempty := node.right.start_lt_limit
  unfold Mem
  omega

end Halves

theorem left_apart_right (node : TreeNode) : node.left.Apart node.right :=
  .inl (left_limit node).le

theorem parent_left (node : TreeNode) (even : node.position % 2 = 0) : node.parent.left = node := by
  rw [ext_iff]
  constructor
  · simp
  · simp only [left_position, parent_position]
    omega

theorem parent_right (node : TreeNode) (odd : node.position % 2 = 1) : node.parent.right = node := by
  rw [ext_iff]
  constructor
  · simp
  · simp only [right_position, parent_position]
    omega

theorem left_parent (positive : 0 < node.exponent) : node.left.parent = node := by
  rw [ext_iff]
  simp only [parent_exponent, left_exponent, parent_position, left_position]
  omega

theorem right_parent (positive : 0 < node.exponent) : node.right.parent = node := by
  rw [ext_iff]
  simp only [parent_exponent, right_exponent, parent_position, right_position]
  omega

theorem left_sibling (node : TreeNode) : node.left.sibling = node.right := by
  rw [sibling, left_position, if_pos (Nat.mul_mod_right 2 _)]
  rfl

theorem sibling_sibling (node : TreeNode) : node.sibling.sibling = node := by
  rw [ext_iff]
  refine ⟨rfl, ?_⟩
  simp only [sibling]
  split <;> split <;> omega

theorem right_sibling (node : TreeNode) : node.right.sibling = node.left := by
  rw [← left_sibling, sibling_sibling]

theorem sibling_parent (node : TreeNode) : node.sibling.parent = node.parent := by
  simp only [parent, sibling, TreeNode.mk.injEq, true_and]
  split <;> omega

theorem sibling_ne (node : TreeNode) : node.sibling ≠ node := by
  intro same
  have position := congrArg TreeNode.position same
  simp only [sibling] at position
  split at position <;> omega

/-- Two nodes with one parent are equal or siblings. -/
theorem parent_eq_iff : other.parent = node.parent ↔ other = node ∨ other = node.sibling := by
  rw [ext_iff, ext_iff, ext_iff]
  simp only [parent_exponent, parent_position, Nat.add_right_cancel_iff, sibling]
  split <;> omega

/-- A parent begins where its left child does. -/
theorem parent_start (node : TreeNode) :
    node.parent.start = node.start ∨ node.parent.start = node.sibling.start := by
  have start : node.parent.left.start = node.parent.start := left_start (Nat.succ_pos _)
  rcases Nat.mod_two_eq_zero_or_one node.position with even | odd
  · rw [parent_left node even] at start
    exact .inl start.symm
  · have isLeft : node.sibling = node.parent.left := by
      rw [← right_sibling, parent_right node odd]
    rw [isLeft]
    exact .inr start.symm

/-! ## Nested or apart -/

theorem Apart.symm (apart : node.Apart other) : other.Apart node := Or.symm apart

instance : Std.Symm Apart := ⟨fun _ _ => Apart.symm⟩

theorem Apart.ne (apart : node.Apart other) : node ≠ other := by
  rintro rfl
  have nonempty := node.start_lt_limit
  rcases apart with first | second <;> omega

theorem Apart.start_ne (apart : node.Apart other) : node.start ≠ other.start := by
  have nonempty := node.start_lt_limit
  have alsoNonempty := other.start_lt_limit
  rcases apart with first | second <;> omega

theorem Apart.not_mem (apart : node.Apart other) (member : node.Mem point) : ¬other.Mem point := by
  unfold Mem at *
  rcases apart with first | second <;> omega

theorem Within.mem (within : node.Within other) (member : node.Mem point) : other.Mem point :=
  ⟨within.1.trans member.1, member.2.trans_le within.2⟩

theorem Within.refl (node : TreeNode) : node.Within node := ⟨le_refl _, le_refl _⟩

theorem Within.trans {outer : TreeNode} (inner : node.Within other) (outside : other.Within outer) :
    node.Within outer :=
  ⟨outside.1.trans inner.1, inner.2.trans outside.2⟩

theorem Within.apart {apartFrom : TreeNode} (within : node.Within other)
    (apart : other.Apart apartFrom) : node.Apart apartFrom := by
  rcases apart with before | behind
  · exact .inl (within.2.trans before)
  · exact .inr (behind.trans within.1)

theorem Within.not_apart (within : node.Within other) : ¬node.Apart other := fun apart =>
  apart.not_mem node.mem_start (within.mem node.mem_start)

theorem sibling_apart (node : TreeNode) : node.Apart node.sibling := by
  rcases Nat.mod_two_eq_zero_or_one node.position with even | odd
  · have halves := left_apart_right node.parent
    rwa [← left_sibling, parent_left node even] at halves
  · have halves := (left_apart_right node.parent).symm
    rwa [← right_sibling, parent_right node odd] at halves

theorem left_within (positive : 0 < node.exponent) : node.left.Within node := by
  have first := left_start positive
  have middle := left_limit node
  have last := right_limit positive
  have nonempty := node.right.start_lt_limit
  constructor <;> omega

theorem right_within (positive : 0 < node.exponent) : node.right.Within node := by
  have first := left_start positive
  have middle := left_limit node
  have last := right_limit positive
  have nonempty := node.left.start_lt_limit
  constructor <;> omega

/-- A node holds the points whose quotient by its size is its position. -/
theorem mem_iff_div : node.Mem point ↔ point / node.size = node.position := by
  rw [Nat.div_eq_iff node.size_pos, Mem, limit, start]
  have positive := node.size_pos
  omega

/-- Of two nodes that share a point the smaller one is part of the larger. -/
theorem within_of_mem (member : node.Mem point) (alsoMember : other.Mem point)
    (smaller : node.exponent ≤ other.exponent) : node.Within other := by
  obtain ⟨factor, sizes⟩ : ∃ factor, other.size = node.size * factor :=
    ⟨2 ^ (other.exponent - node.exponent), by
      rw [size, size, ← Nat.pow_add, Nat.add_sub_cancel' smaller]⟩
  rw [mem_iff_div] at member alsoMember
  have quotient : node.position / factor = other.position := by
    rw [← member, Nat.div_div_eq_div_mul, ← sizes, alsoMember]
  have factorPos : 0 < factor := Nat.pos_of_mul_pos_left (sizes ▸ other.size_pos)
  have split := Nat.div_add_mod node.position factor
  have below := Nat.mod_lt node.position factorPos
  rw [quotient] at split
  constructor
  · calc other.start = node.size * (factor * other.position) := by rw [start, sizes]; ring
      _ ≤ node.size * node.position := Nat.mul_le_mul_left _ (by omega)
      _ = node.start := Nat.mul_comm _ _
  · calc node.limit = node.size * (node.position + 1) := by rw [limit, start]; ring
      _ ≤ node.size * (factor * other.position + factor) := Nat.mul_le_mul_left _ (by omega)
      _ = other.limit := by rw [limit, start, sizes]; ring

theorem within_or_apart (smaller : node.exponent ≤ other.exponent) :
    node.Within other ∨ node.Apart other := by
  by_cases shared : other.Mem node.start
  · exact .inl (within_of_mem node.mem_start shared smaller)
  · by_cases before : node.start < other.start
    · by_cases reaches : node.limit ≤ other.start
      · exact .inr (.inl reaches)
      · have within := within_of_mem ⟨before.le, by omega⟩ other.mem_start smaller
        have low := within.1
        omega
    · exact .inr (.inr (by
        unfold Mem at shared
        omega))

theorem Within.exponent_le (within : node.Within other) : node.exponent ≤ other.exponent := by
  have sizes : node.size ≤ other.size := by
    have low := within.1
    have high := within.2
    unfold TreeNode.limit at high
    omega
  exact (Nat.pow_le_pow_iff_right (by decide)).mp sizes

theorem Within.eq (within : node.Within other) (same : other.exponent ≤ node.exponent) :
    node = other := by
  have exponents : node.exponent = other.exponent := le_antisymm within.exponent_le same
  have member : other.Mem node.start := within.mem node.mem_start
  rw [mem_iff_div, size, ← exponents, ← size, start, Nat.mul_div_cancel _ node.size_pos] at member
  exact ext_iff.mpr ⟨exponents, member⟩

/-- A node that is part of another one and not equal to it is part of one of
its halves. -/
theorem Within.half (within : node.Within other) (different : node ≠ other) :
    0 < other.exponent ∧ (node.Within other.left ∨ node.Within other.right) := by
  have smaller : node.exponent < other.exponent := by
    have atMost := within.exponent_le
    have notLess : ¬other.exponent ≤ node.exponent := fun same => different (within.eq same)
    omega
  have positive : 0 < other.exponent := by omega
  refine ⟨positive, ?_⟩
  rcases (mem_halves positive).mp (within.mem node.mem_start) with inLeft | inRight
  · exact .inl (within_of_mem node.mem_start inLeft (by simp only [left_exponent]; omega))
  · exact .inr (within_of_mem node.mem_start inRight (by simp only [right_exponent]; omega))

theorem within_parent (node : TreeNode) : node.Within node.parent := by
  have positive : 0 < node.parent.exponent := Nat.succ_pos _
  rcases Nat.mod_two_eq_zero_or_one node.position with even | odd
  · have within := left_within positive
    rwa [parent_left node even] at within
  · have within := right_within positive
    rwa [parent_right node odd] at within

/-! ## Ancestors -/

theorem iterate_parent_exponent (node : TreeNode) (steps : Nat) :
    (parent^[steps] node).exponent = node.exponent + steps := by
  induction steps with
  | zero => rfl
  | succ steps induction =>
      rw [Function.iterate_succ_apply', parent_exponent, induction, Nat.add_assoc]

theorem within_iterate_parent (node : TreeNode) (steps : Nat) :
    node.Within (parent^[steps] node) := by
  induction steps with
  | zero => exact Within.refl node
  | succ steps induction =>
      rw [Function.iterate_succ_apply']
      exact induction.trans (within_parent _)

/-- What a node is part of is reached from it by going from parent to parent. -/
theorem Within.iterate_parent (within : node.Within other) :
    parent^[other.exponent - node.exponent] node = other := by
  have larger := within.exponent_le
  have exponents : (parent^[other.exponent - node.exponent] node).exponent = other.exponent := by
    rw [iterate_parent_exponent]
    omega
  apply Within.eq _ exponents.ge
  apply within_of_mem _ (within.mem node.mem_start) exponents.le
  exact (within_iterate_parent node _).mem node.mem_start

theorem within_iff_ancestor : node.Within other ↔
    node.exponent ≤ other.exponent ∧ parent^[other.exponent - node.exponent] node = other := by
  constructor
  · intro within
    exact ⟨within.exponent_le, within.iterate_parent⟩
  · intro ancestor
    rw [← ancestor.2]
    exact within_iterate_parent node _

/-- Of any two nodes one is part of the other or they are apart. -/
theorem nested_or_apart (node other : TreeNode) :
    node.Within other ∨ other.Within node ∨ node.Apart other := by
  rcases Nat.le_total node.exponent other.exponent with smaller | larger
  · rcases within_or_apart smaller with within | apart
    · exact .inl within
    · exact .inr (.inr apart)
  · rcases within_or_apart larger with within | apart
    · exact .inr (.inl within)
    · exact .inr (.inr apart.symm)

/-- The siblings differ in the bit of their size. -/
theorem sibling_start (node : TreeNode) : node.sibling.start = node.start ^^^ node.size := by
  have positions : node.sibling.position = node.position ^^^ 1 := by
    rw [sibling_position]
    split
    · rename_i even
      exact (Nat.xor_one_of_even (Nat.even_iff.mpr even)).symm
    · rename_i odd
      rw [Nat.xor_one_of_odd (Nat.odd_iff.mpr (by omega))]
  have size : node.size = 1 <<< node.exponent := (Nat.one_shiftLeft _).symm
  calc node.sibling.start = node.sibling.position <<< node.exponent := (Nat.shiftLeft_eq _ _).symm
    _ = node.position <<< node.exponent ^^^ 1 <<< node.exponent := by
      rw [positions, Nat.shiftLeft_xor_distrib]
    _ = node.start ^^^ node.size := by
      rw [size, Nat.shiftLeft_eq node.position]
      rfl

/-! ## Covers -/

/-- Every point of the node lies in one of the nodes. -/
def Covered (nodes : List TreeNode) (node : TreeNode) : Prop :=
  ∀ point, node.Mem point → ∃ other ∈ nodes, other.Mem point

theorem Covered.of_within (member : other ∈ nodes) (within : node.Within other) :
    Covered nodes node := fun _ inside => ⟨other, member, within.mem inside⟩

theorem Covered.mono (covered : Covered nodes other) (within : node.Within other) :
    Covered nodes node := fun point inside => covered point (within.mem inside)

/-- Without siblings among them, nodes cover only what is part of one of them. -/
theorem covered_iff (merged : ∀ node ∈ nodes, node.sibling ∉ nodes) :
    Covered nodes node ↔ ∃ other ∈ nodes, node.Within other := by
  constructor
  · intro covered
    obtain ⟨exponent, same⟩ : ∃ exponent, exponent = node.exponent := ⟨_, rfl⟩
    induction exponent generalizing node with
    | zero =>
        rcases covered node.start node.mem_start with ⟨other, member, inside⟩
        exact ⟨other, member, within_of_mem node.mem_start inside (by omega)⟩
    | succ exponent induction =>
        have positive : 0 < node.exponent := by omega
        have leftWithin := left_within positive
        have rightWithin := right_within positive
        have leftExponent : exponent = node.left.exponent := by
          rw [left_exponent]
          omega
        rcases induction (covered.mono leftWithin) leftExponent with ⟨first, firstMem, inFirst⟩
        rcases induction (covered.mono rightWithin) leftExponent with ⟨second, secondMem, inSecond⟩
        -- A node that holds a half and more holds the whole.
        have whole : ∀ {half other : TreeNode}, half.Within node → half.exponent = exponent →
            half.Within other → half ≠ other → node.Within other := by
          intro half other inNode isHalf inOther different
          apply within_of_mem (inNode.mem half.mem_start) (inOther.mem half.mem_start)
          by_contra small
          exact different (inOther.eq (by omega))
        by_cases isFirst : node.left = first
        · by_cases isSecond : node.right = second
          · rw [← isFirst] at firstMem
            rw [← isSecond, ← left_sibling] at secondMem
            exact absurd secondMem (merged _ firstMem)
          · exact ⟨second, secondMem, whole rightWithin leftExponent.symm inSecond isSecond⟩
        · exact ⟨first, firstMem, whole leftWithin leftExponent.symm inFirst isFirst⟩
  · rintro ⟨other, member, within⟩
    exact Covered.of_within member within

/-! ## Tilings -/

/-- Every point of the root lies in exactly one of the nodes. -/
structure Tiles (root : TreeNode) (nodes : List TreeNode) : Prop where
  apart : nodes.Pairwise Apart
  covers : ∀ point, root.Mem point ↔ ∃ node ∈ nodes, node.Mem point

namespace Tiles

theorem self (root : TreeNode) : Tiles root [root] where
  apart := List.pairwise_singleton _ _
  covers point := by simp

theorem perm (tiles : Tiles root nodes) (same : nodes.Perm rest) : Tiles root rest where
  apart := (same.pairwise_iff Apart.symm).mp tiles.apart
  covers point := by
    rw [tiles.covers point]
    simp only [same.mem_iff]

theorem nodup (tiles : Tiles root nodes) : nodes.Nodup :=
  tiles.apart.imp Apart.ne

theorem within (tiles : Tiles root nodes) (member : node ∈ nodes) : node.Within root := by
  have first := (tiles.covers node.start).mpr ⟨node, member, node.mem_start⟩
  have last := (tiles.covers (node.limit - 1)).mpr ⟨node, member, by
    have nonempty := node.start_lt_limit
    constructor <;> omega⟩
  have nonempty := node.start_lt_limit
  unfold Mem at first last
  constructor <;> omega

theorem apart_of_ne (tiles : Tiles root nodes) (member : node ∈ nodes)
    (otherMember : other ∈ nodes) (different : node ≠ other) : node.Apart other :=
  tiles.apart.forall member otherMember different

/-- Two nodes of a tiling that share a point are the same. -/
theorem eq_of_mem (tiles : Tiles root nodes) (member : node ∈ nodes) (otherMember : other ∈ nodes)
    (shared : node.Mem point) (alsoShared : other.Mem point) : node = other := by
  by_contra different
  exact (tiles.apart_of_ne member otherMember different).not_mem shared alsoShared

/-- When the root belongs to its tiling nothing else does. -/
theorem eq_self (tiles : Tiles root nodes) (member : root ∈ nodes) : nodes = [root] := by
  have all : ∀ node ∈ nodes, node = root := fun node listed =>
    tiles.eq_of_mem listed member node.mem_start ((tiles.within listed).mem node.mem_start)
  cases nodes with
  | nil => cases member
  | cons first rest =>
      obtain rfl := all first List.mem_cons_self
      cases rest with
      | nil => rfl
      | cons second rest =>
          have same := all second (by simp)
          exact absurd same.symm ((List.pairwise_cons.mp tiles.apart).1 second (by simp)).ne

theorem halves (tiles : Tiles root (node :: rest)) (positive : 0 < node.exponent) :
    Tiles root (node.left :: node.right :: rest) where
  apart := by
    have parts := List.pairwise_cons.mp tiles.apart
    simp only [List.pairwise_cons, List.mem_cons]
    refine ⟨?_, fun other member => ?_, parts.2⟩
    · rintro other (rfl | member)
      · exact left_apart_right _
      · exact (left_within positive).apart (parts.1 other member)
    · exact (right_within positive).apart (parts.1 other member)
  covers point := by
    rw [tiles.covers point]
    simp [mem_halves positive, or_assoc]

theorem joined (tiles : Tiles root (node.left :: node.right :: rest))
    (positive : 0 < node.exponent) : Tiles root (node :: rest) where
  apart := by
    have parts := tiles.apart
    simp only [List.pairwise_cons, List.mem_cons] at parts ⊢
    refine ⟨fun other member => ?_, parts.2.2⟩
    have fromLeft := parts.1 other (.inr member)
    have fromRight := parts.2.1 other member
    have first := left_start positive
    have middle := left_limit node
    have last := right_limit positive
    have nonempty := other.start_lt_limit
    unfold Apart at *
    omega
  covers point := by
    rw [tiles.covers point]
    simp [mem_halves positive, or_assoc]

/-- A node and its sibling are joined to their parent. -/
theorem joinSibling (tiles : Tiles root (node :: node.sibling :: rest)) :
    Tiles root (node.parent :: rest) := by
  apply joined _ (Nat.succ_pos _)
  rcases Nat.mod_two_eq_zero_or_one node.position with even | odd
  · rwa [← left_sibling, parent_left node even]
  · rw [← right_sibling, parent_right node odd]
    exact tiles.perm (List.Perm.swap _ _ _)

/-- The right half is added to a tiling of the left half. -/
theorem double (tiles : Tiles root.left nodes) (positive : 0 < root.exponent) :
    Tiles root (root.right :: nodes) where
  apart := List.pairwise_cons.mpr
    ⟨fun _ member => ((tiles.within member).apart (left_apart_right _)).symm, tiles.apart⟩
  covers point := by
    rw [mem_halves positive, tiles.covers point]
    simp [or_comm]

/-! ### What a part of a tiling leaves open -/

variable {used : List TreeNode}

/-- Some nodes of a tiling cover what is part of the root and apart from the
others. -/
theorem covered_iff_apart (tiles : Tiles root (nodes ++ used)) :
    Covered nodes node ↔ node.Within root ∧ ∀ other ∈ used, node.Apart other := by
  have apart := (List.pairwise_append.mp tiles.apart).2.2
  constructor
  · intro covered
    have inside : ∀ point, node.Mem point → root.Mem point := by
      intro point member
      rcases covered point member with ⟨tile, listed, holds⟩
      exact (tiles.covers point).mpr ⟨tile, List.mem_append_left _ listed, holds⟩
    refine ⟨⟨(inside _ node.mem_start).1, ?_⟩, fun other isUsed => ?_⟩
    · have nonempty := node.start_lt_limit
      have last := (inside (node.limit - 1) ⟨by omega, by omega⟩).2
      omega
    · have disjoint : ∀ point, node.Mem point → ¬other.Mem point := by
        intro point member
        rcases covered point member with ⟨tile, listed, holds⟩
        exact (apart tile listed other isUsed).not_mem holds
      rcases nested_or_apart node other with within | within | separate
      · exact absurd (within.mem node.mem_start) (disjoint _ node.mem_start)
      · exact absurd other.mem_start (disjoint _ (within.mem other.mem_start))
      · exact separate
  · rintro ⟨within, separate⟩ point member
    rcases (tiles.covers point).mp (within.mem member) with ⟨tile, listed, holds⟩
    rcases List.mem_append.mp listed with isFree | isUsed
    · exact ⟨tile, isFree, holds⟩
    · exact absurd holds ((separate tile isUsed).not_mem member)

/-- Where no two siblings are left apart, the used nodes of a tiling determine the
others. -/
theorem merged_perm {free other : List TreeNode} (tiles : Tiles root (free ++ used))
    (otherTiles : Tiles root (other ++ used)) (merged : ∀ node ∈ free, node.sibling ∉ free)
    (otherMerged : ∀ node ∈ other, node.sibling ∉ other) : free.Perm other := by
  have same : ∀ node : TreeNode,
      (∃ tile ∈ free, node.Within tile) ↔ ∃ tile ∈ other, node.Within tile := by
    intro node
    rw [← TreeNode.covered_iff merged, ← TreeNode.covered_iff otherMerged, tiles.covered_iff_apart,
      otherTiles.covered_iff_apart]
  -- A node between two nodes of one tiling is both of them.
  have squeezed : ∀ {first second : List TreeNode}, Tiles root (first ++ used) →
      (∀ node : TreeNode, (∃ tile ∈ first, node.Within tile) ↔
        ∃ tile ∈ second, node.Within tile) → ∀ node ∈ first, node ∈ second := by
    intro first second tiling agree node member
    rcases (agree node).mp ⟨node, member, Within.refl node⟩ with ⟨outer, isOuter, inside⟩
    rcases (agree outer).mpr ⟨outer, isOuter, Within.refl outer⟩ with ⟨back, isBack, around⟩
    have point := inside.mem node.mem_start
    obtain rfl := tiling.eq_of_mem (List.mem_append_left _ member) (List.mem_append_left _ isBack)
      node.mem_start (around.mem point)
    rwa [inside.eq around.exponent_le]
  rw [List.perm_ext_iff_of_nodup (List.nodup_append.mp tiles.nodup).1
    (List.nodup_append.mp otherTiles.nodup).1]
  exact fun node => ⟨squeezed tiles same node, squeezed otherTiles (fun tile => (same tile).symm) node⟩

end Tiles

/-! ## Crowded trees -/

/-- If something lies in each block of some size, there are as many things as
blocks. -/
theorem length_ge_of_crowded {exponent : Nat} (smaller : exponent ≤ root.exponent)
    (crowded : ∀ node : TreeNode, node.exponent = exponent → node.Within root →
      ∃ other ∈ nodes, other.Within node) :
    2 ^ (root.exponent - exponent) ≤ nodes.length := by
  obtain ⟨count, isCount⟩ : ∃ count, count = 2 ^ (root.exponent - exponent) := ⟨_, rfl⟩
  have sizes : root.size = count * 2 ^ exponent := by
    rw [isCount, ← Nat.pow_add, Nat.sub_add_cancel smaller, size]
  have blocks : ∀ index < count, ∃ other ∈ nodes,
      other.Within ⟨exponent, root.position * count + index⟩ := by
    intro index inside
    refine crowded _ rfl ⟨?_, ?_⟩
    · rw [start, start, sizes, size, ← Nat.mul_assoc]
      exact Nat.mul_le_mul_right _ (Nat.le_add_right _ _)
    · rw [limit, limit, start, start, sizes, size, ← Nat.mul_assoc, ← Nat.succ_mul,
        ← Nat.add_mul]
      exact Nat.mul_le_mul_right _ (Nat.add_le_add_left inside _)
  have : Inhabited TreeNode := ⟨root⟩
  choose! taken isMember inside using blocks
  -- Nodes in different blocks are different.
  have nodup : ((List.range count).map taken).Nodup := by
    refine List.Nodup.map_on ?_ List.nodup_range
    intro first firstIn second secondIn same
    have left := (inside first (List.mem_range.mp firstIn)).mem (taken first).mem_start
    have right := (inside second (List.mem_range.mp secondIn)).mem (taken second).mem_start
    rw [← same] at right
    rw [mem_iff_div] at left right
    exact Nat.add_left_cancel (left.symm.trans right)
  have included : (List.range count).map taken ⊆ nodes := by
    intro node member
    rcases List.mem_map.mp member with ⟨index, isIndex, rfl⟩
    exact isMember index (List.mem_range.mp isIndex)
  have few := nodup.length_le_of_subset included
  rwa [List.length_map, List.length_range, isCount] at few

end TreeNode

end MallocLab
