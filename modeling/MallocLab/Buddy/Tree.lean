import MallocLab.Buddy.Source
import MallocLab.Foundation.BinaryTree
import Mathlib.Data.Nat.Log

/-! # The buddy allocator without its memory

What the allocator is for, without links and without split bits: the used and
the free nodes tile the current root, and two free siblings are always joined.
Offsets are counted from `base_ptr`, and `room` bytes follow it in the arena.
-/

namespace MallocLab.Buddy

open TreeNode

variable {node : TreeNode} {used : List TreeNode} {room bucket original request rounds : Nat}

/-- The exponent of the smallest node for a request and its header. -/
def exponentFor (request : Nat) : Nat := max minAllocLog2 (Nat.clog 2 (request + headerSize))

def bucketOf (node : TreeNode) : Nat := maxAllocLog2 - node.exponent

def root (limit : Nat) : TreeNode := ⟨maxAllocLog2 - limit, 0⟩

@[simp] theorem root_start (limit : Nat) : (root limit).start = 0 := Nat.zero_mul _

@[simp] theorem root_exponent (limit : Nat) : (root limit).exponent = 31 - limit := rfl

@[simp] theorem root_position (limit : Nat) : (root limit).position = 0 := rfl

/-- The root as the left half of the next root. -/
theorem root_left {limit : Nat} (positive : 0 < limit) (inside : limit ≤ 31) :
    (root (limit - 1)).left = root limit := by
  rw [ext_iff, left_exponent, left_position, root_exponent, root_exponent]
  exact ⟨by omega, rfl⟩

theorem root_right {limit : Nat} (positive : 0 < limit) (inside : limit ≤ 31) :
    (root (limit - 1)).right = (root limit).sibling := by
  rw [← left_sibling, root_left positive inside]

theorem root_parent {limit : Nat} (positive : 0 < limit) (inside : limit ≤ 31) :
    (root limit).parent = root (limit - 1) := by
  rw [ext_iff, parent_exponent, parent_position, root_exponent, root_exponent]
  exact ⟨by omega, Nat.zero_div 2⟩

/-- The state of the tree: the bucket of its root and the free nodes, where the
members of one bucket stand in the order of its list. -/
structure Tree where
  limit : Nat
  free : List TreeNode
  deriving DecidableEq, Repr

namespace Tree

def push (tree : Tree) (node : TreeNode) : Tree := { tree with free := tree.free ++ [node] }

def erase (tree : Tree) (node : TreeNode) : Tree := { tree with free := tree.free.erase node }

/-- The members of one bucket. -/
def listed (tree : Tree) (bucket : Nat) : List TreeNode :=
  tree.free.filter fun node => bucketOf node = bucket

def last? (tree : Tree) (bucket : Nat) : Option TreeNode := (tree.listed bucket).getLast?

/-- An entirely free tree gets a larger root. -/
def relabel (tree : Tree) : Tree :=
  ⟨tree.limit - 1, tree.free.erase (root tree.limit) ++ [root (tree.limit - 1)]⟩

/-- A tree in use becomes the left half of a larger one. -/
def extend (tree : Tree) : Tree := ⟨tree.limit - 1, tree.free ++ [(root tree.limit).sibling]⟩

/-- Lower the root to a bucket, as far as there is room for the links of the
new right halves. -/
def lower (room bucket : Nat) : Nat → Tree → Bool × Tree
  | 0, tree => (true, tree)
  | rounds + 1, tree =>
      if bucket < tree.limit then
        if root tree.limit ∈ tree.free then lower room bucket rounds tree.relabel
        else if (root tree.limit).sibling.start + listSize < room then
          lower room bucket rounds tree.extend
        else (false, tree)
      else (true, tree)

def lowerTo (room bucket : Nat) (tree : Tree) : Bool × Tree :=
  lower room bucket (tree.limit + 1) tree

/-- The right halves that are left over when a node is halved `count` times. -/
def spare : Nat → TreeNode → List TreeNode
  | 0, _ => []
  | count + 1, node => node.right :: spare count node.left

/-- The node that remains. -/
def leftmost : Nat → TreeNode → TreeNode
  | 0, node => node
  | count + 1, node => leftmost count node.left

/-- The bytes from the start of a node that must be there before it is used. -/
def needed (original : Nat) (node : TreeNode) : Nat :=
  if bucketOf node < original then node.size / 2 + listSize else node.size

/-- A free node is taken and split down to a bucket, or stays where it was when
there is no room. -/
def use (room original : Nat) (node : TreeNode) (tree : Tree) : Option TreeNode × Tree :=
  if node.start + needed original node < room then
    (some (leftmost (original - bucketOf node) node),
      ⟨tree.limit, tree.free.erase node ++ spare (original - bucketOf node) node⟩)
  else
    (none, (tree.erase node).push node)

/-- From a bucket on toward larger nodes. The first number is the bucket plus
one. -/
def search (room original : Nat) : Nat → Tree → Option TreeNode × Tree
  | 0, tree => (none, tree)
  | bucket + 1, tree =>
      match tree.lowerTo room bucket with
      | (false, tree) => (none, tree)
      | (true, tree) =>
          match tree.last? bucket with
          | some node => tree.use room original node
          | none =>
              if bucket ≠ tree.limit ∨ bucket = 0 then search room original bucket tree
              else
                match tree.lowerTo room (bucket - 1) with
                | (false, tree) => (none, tree)
                | (true, tree) =>
                    match tree.last? bucket with
                    | some node => tree.use room original node
                    | none => (none, tree)

/-- The bucket of a request. -/
def bucketFor (request : Nat) : Nat := maxAllocLog2 - exponentFor request

def malloc (room request : Nat) (tree : Tree) : Option TreeNode × Tree :=
  search room (bucketFor request) (bucketFor request + 1) tree

/-- A released node is joined with its sibling as long as that is free. -/
def merge : Nat → TreeNode → Tree → Tree
  | 0, node, tree => tree.push node
  | rounds + 1, node, tree =>
      if bucketOf node ≠ tree.limit ∧ node.sibling ∈ tree.free then
        merge rounds node.parent (tree.erase node.sibling)
      else tree.push node

def release (node : TreeNode) (tree : Tree) : Tree := merge (bucketOf node + 1) node tree

/-- The tree of `mm_init`. -/
def initial : Tree := ⟨bucketCount - 1, [root (bucketCount - 1)]⟩

/-! ## Validity -/

/-- The free and the used nodes tile the root, and no two free nodes are
siblings. -/
structure Valid (tree : Tree) (used : List TreeNode) : Prop where
  limit_lt : tree.limit < bucketCount
  tiles : Tiles (root tree.limit) (tree.free ++ used)
  large : ∀ node ∈ tree.free ++ used, minAllocLog2 ≤ node.exponent
  merged : ∀ node ∈ tree.free, node.sibling ∉ tree.free

namespace Valid

theorem initial : Valid initial [] where
  limit_lt := by decide
  tiles := Tiles.self _
  large := by decide
  merged := by decide

variable {tree : Tree}

section Facts

variable (valid : Valid tree used)

include valid

theorem within (member : node ∈ tree.free ++ used) : node.Within (root tree.limit) :=
  valid.tiles.within member

theorem limit_le (member : node ∈ tree.free ++ used) : node.limit ≤ (root tree.limit).size := by
  have inside := (valid.within member).2
  rwa [TreeNode.limit.eq_def (root tree.limit), root_start, Nat.zero_add] at inside

theorem exponent_le (member : node ∈ tree.free ++ used) : node.exponent ≤ 31 - tree.limit :=
  (valid.within member).exponent_le

theorem bucket_bounds (member : node ∈ tree.free ++ used) :
    tree.limit ≤ bucketOf node ∧ bucketOf node < bucketCount ∧
      node.exponent = 31 - bucketOf node := by
  have small := valid.exponent_le member
  have large := valid.large node member
  have limit := valid.limit_lt
  unfold bucketOf bucketCount minAllocLog2 maxAllocLog2 at *
  omega

theorem free_nodup : tree.free.Nodup := (List.nodup_append.mp valid.tiles.nodup).1

/-- The used nodes are given in any order. -/
theorem perm {other : List TreeNode} (same : used.Perm other) : Valid tree other where
  limit_lt := valid.limit_lt
  tiles := valid.tiles.perm (same.append_left _)
  large node member := valid.large node ((same.append_left _).mem_iff.mpr member)
  merged := valid.merged

/-- A free node is taken into use. -/
theorem take (member : node ∈ tree.free) : Valid (tree.erase node) (node :: used) where
  limit_lt := valid.limit_lt
  tiles := valid.tiles.perm <| by
    have moved := (List.perm_cons_erase member).append_right used
    exact moved.trans List.perm_middle.symm
  large other otherMem := by
    apply valid.large
    have moved := (List.perm_cons_erase member).append_right used
    exact (moved.trans List.perm_middle.symm).mem_iff.mpr otherMem
  merged other otherMem siblingMem :=
    valid.merged other (List.mem_of_mem_erase otherMem) (List.mem_of_mem_erase siblingMem)

end Facts

/-- A used node is released when its sibling is not free. -/
theorem give (valid : Valid tree (node :: used)) (alone : node.sibling ∉ tree.free) :
    Valid (tree.push node) used where
  limit_lt := valid.limit_lt
  tiles := valid.tiles.perm (by simp [push])
  large other member := valid.large other (by
    simp only [push, List.mem_append, List.mem_cons, List.not_mem_nil, or_false] at member ⊢
    tauto)
  merged other member siblingMem := by
    simp only [push, List.mem_append, List.mem_cons, List.not_mem_nil, or_false] at member siblingMem
    rcases member with old | rfl
    · rcases siblingMem with oldSibling | same
      · exact valid.merged other old oldSibling
      · exact alone (by rwa [← same, sibling_sibling])
    · rcases siblingMem with oldSibling | same
      · exact alone oldSibling
      · exact sibling_ne other same

/-- A used node and its free sibling become their parent. -/
theorem join (valid : Valid tree (node :: used)) (free : node.sibling ∈ tree.free) :
    Valid (tree.erase node.sibling) (node.parent :: used) := by
  have taken := valid.take free
  refine ⟨taken.limit_lt, ?_, ?_, taken.merged⟩
  · have front : Tiles (root tree.limit)
        (node :: node.sibling :: ((tree.erase node.sibling).free ++ used)) := by
      apply taken.tiles.perm
      exact (List.perm_middle.trans (List.perm_middle.cons _)).trans (List.Perm.swap _ _ _)
    exact front.joinSibling.perm List.perm_middle.symm
  · intro other member
    rcases List.mem_append.mp member with old | new
    · exact taken.large other (List.mem_append_left _ old)
    · rcases List.mem_cons.mp new with rfl | old
      · have large := valid.large node (by simp)
        exact large.trans (Nat.le_succ _)
      · exact taken.large other (by simp [old])

/-- A used node is halved, and its right half becomes free. -/
theorem split (valid : Valid tree (node :: used)) (large : minAllocLog2 < node.exponent) :
    Valid (tree.push node.right) (node.left :: used) := by
  have positive : 0 < node.exponent := by
    unfold minAllocLog2 at large
    omega
  have tiles : Tiles (root tree.limit) (tree.free ++ node.right :: node.left :: used) := by
    have front := valid.tiles.perm List.perm_middle
    exact ((front.halves positive).perm (List.Perm.swap _ _ _)).perm <|
      (List.perm_middle.trans (List.perm_middle.cons _)).symm
  have halves : Valid tree (node.right :: node.left :: used) := by
    refine ⟨valid.limit_lt, tiles, fun other member => ?_, valid.merged⟩
    simp only [List.mem_append, List.mem_cons] at member
    rcases member with old | rfl | rfl | old
    · exact valid.large other (by simp [old])
    · exact Nat.le_sub_one_of_lt large
    · exact Nat.le_sub_one_of_lt large
    · exact valid.large other (by simp [old])
  apply halves.give
  intro inFree
  rw [right_sibling] at inFree
  exact (List.nodup_append.mp tiles.nodup).2.2 _ inFree node.left (by simp) rfl

/-- A tree whose root is free has no other node. -/
theorem of_root_free (valid : Valid tree used) (free : root tree.limit ∈ tree.free) :
    tree.free = [root tree.limit] ∧ used = [] := by
  have whole := valid.tiles.eq_self (List.mem_append_left _ free)
  cases nodes : tree.free with
  | nil => simp [nodes] at free
  | cons first rest =>
      rw [nodes, List.cons_append, List.cons.injEq, List.append_eq_nil_iff] at whole
      rw [whole.1, whole.2.1]
      exact ⟨rfl, whole.2.2⟩

/-- A used root has no free sibling. -/
theorem root_alone (valid : Valid tree (node :: used)) (atRoot : bucketOf node = tree.limit) :
    node.sibling ∉ tree.free := by
  intro siblingMem
  have member : node ∈ tree.free ++ node :: used := by simp
  have bounds := valid.bucket_bounds member
  have whole : node = root tree.limit :=
    (valid.within member).eq (by rw [root_exponent]; omega)
  have only := valid.tiles.eq_self (List.mem_append_right _ (whole ▸ List.mem_cons_self))
  rw [List.append_eq_singleton_iff] at only
  rcases only with ⟨none, _⟩ | ⟨_, none⟩
  · rw [none] at siblingMem
    cases siblingMem
  · cases none

theorem relabel (valid : Valid tree used) (positive : 0 < tree.limit)
    (free : root tree.limit ∈ tree.free) : Valid tree.relabel used := by
  have only := valid.of_root_free free
  have limit := valid.limit_lt
  have shape : tree.relabel = ⟨tree.limit - 1, [root (tree.limit - 1)]⟩ := by
    simp [Tree.relabel, only.1]
  rw [shape, only.2]
  refine ⟨?_, Tiles.self _, ?_, ?_⟩
  · exact (Nat.sub_le _ _).trans_lt limit
  · intro node member
    obtain rfl : node = root (tree.limit - 1) := by simpa using member
    rw [root_exponent]
    unfold bucketCount minAllocLog2 maxAllocLog2 at *
    omega
  · intro node member
    obtain rfl := List.mem_singleton.mp member
    rw [List.mem_singleton]
    exact sibling_ne _

theorem extend (valid : Valid tree used) (positive : 0 < tree.limit)
    (inUse : root tree.limit ∉ tree.free) : Valid tree.extend used := by
  have limit := valid.limit_lt
  have inside : tree.limit ≤ 31 := by
    unfold bucketCount minAllocLog2 maxAllocLog2 at limit
    omega
  have doubled : Tiles (root (tree.limit - 1)) ((root tree.limit).sibling :: (tree.free ++ used)) := by
    rw [← root_right positive inside]
    apply Tiles.double
    · rw [root_left positive inside]
      exact valid.tiles
    · rw [root_exponent]
      omega
  have grown : Valid ⟨tree.limit - 1, tree.free⟩ ((root tree.limit).sibling :: used) := by
    refine ⟨(Nat.sub_le _ _).trans_lt limit, doubled.perm List.perm_middle.symm, ?_, valid.merged⟩
    intro node member
    simp only [List.mem_append, List.mem_cons] at member
    rcases member with old | rfl | old
    · exact valid.large node (by simp [old])
    · rw [sibling_exponent, root_exponent]
      unfold bucketCount minAllocLog2 maxAllocLog2 at *
      omega
    · exact valid.large node (by simp [old])
  exact grown.give (by rwa [sibling_sibling])

end Valid

/-! ## What the operations keep -/

/-- The offsets at which free nodes begin. -/
def Begins (tree : Tree) (offset : Nat) : Prop := ∃ node ∈ tree.free, node.start = offset

section Operations

variable {tree after : Tree} {found : Option TreeNode} {offset count : Nat}

theorem push_begins (begins : tree.Begins offset) : (tree.push node).Begins offset := by
  rcases begins with ⟨other, member, same⟩
  exact ⟨other, List.mem_append_left _ member, same⟩

theorem erase_begins (begins : (tree.erase node).Begins offset) : tree.Begins offset := by
  rcases begins with ⟨other, member, same⟩
  exact ⟨other, List.mem_of_mem_erase member, same⟩

theorem Valid.relabel_begins (valid : Valid tree used) (free : root tree.limit ∈ tree.free)
    (begins : tree.Begins offset) : tree.relabel.Begins offset := by
  rcases begins with ⟨node, member, rfl⟩
  rw [(valid.of_root_free free).1, List.mem_singleton] at member
  refine ⟨root (tree.limit - 1), List.mem_append_right _ (List.mem_singleton_self _), ?_⟩
  rw [member, root_start, root_start]

/-- What lowering the root does, whether it reached the bucket or not. -/
structure Lowered (tree after : Tree) (used : List TreeNode) (bucket : Nat) (reached : Bool) :
    Prop where
  valid : Valid after used
  limit_le : after.limit ≤ tree.limit
  limit : reached = true → after.limit = min bucket tree.limit
  begins : ∀ offset, tree.Begins offset → after.Begins offset

/-- A round that keeps the offsets may come first. -/
theorem Lowered.before {middle : Tree} {reached : Bool}
    (lowered : Lowered middle after used bucket reached) (above : bucket < tree.limit)
    (limit : middle.limit = tree.limit - 1)
    (kept : ∀ offset, tree.Begins offset → middle.Begins offset) :
    Lowered tree after used bucket reached where
  valid := lowered.valid
  limit_le := lowered.limit_le.trans (limit ▸ Nat.sub_le _ _)
  limit isReached := by
    rw [lowered.limit isReached, limit]
    omega
  begins offset begins := lowered.begins offset (kept offset begins)

theorem lower_spec (room bucket : Nat) (valid : Valid tree used) (enough : tree.limit < rounds) :
    Lowered tree (lower room bucket rounds tree).2 used bucket (lower room bucket rounds tree).1 := by
  induction rounds generalizing tree with
  | zero => omega
  | succ rounds induction =>
      rw [lower]
      split
      · rename_i above
        have positive : 0 < tree.limit := by omega
        have shorter : tree.limit - 1 < rounds := by omega
        split
        · rename_i free
          apply (induction (valid.relabel positive free) shorter).before above rfl
          exact fun _ => valid.relabel_begins free
        · split
          · rename_i inUse _
            apply (induction (valid.extend positive inUse) shorter).before above rfl
            exact fun _ => push_begins
          · exact ⟨valid, le_refl _, by simp, fun _ begins => begins⟩
      · rename_i atLeast
        exact ⟨valid, le_refl _, fun _ => (min_eq_right (Nat.not_lt.mp atLeast)).symm,
          fun _ begins => begins⟩

theorem lower_of_le (reached : tree.limit ≤ bucket) :
    lower room bucket rounds tree = (true, tree) := by
  cases rounds with
  | zero => rfl
  | succ rounds => exact if_neg (Nat.not_lt.mpr reached)

theorem lowerTo_spec (room bucket : Nat) (valid : Valid tree used) :
    Lowered tree (tree.lowerTo room bucket).2 used bucket (tree.lowerTo room bucket).1 :=
  lower_spec room bucket valid (Nat.lt_succ_self _)

theorem mem_of_last? (last : tree.last? bucket = some node) :
    node ∈ tree.free ∧ bucketOf node = bucket := by
  have member := List.mem_filter.mp (List.mem_of_getLast? last)
  exact ⟨member.1, of_decide_eq_true member.2⟩

theorem not_mem_of_last? (last : tree.last? (bucketOf node) = none) : node ∉ tree.free := by
  intro member
  have listed : node ∈ tree.listed (bucketOf node) :=
    List.mem_filter.mpr ⟨member, decide_eq_true rfl⟩
  rw [List.getLast?_eq_none_iff.mp last] at listed
  cases listed

/-- When the list of the root is empty, one more level puts the right half of the
next root there. -/
theorem last?_lowerTo {final : Tree} (valid : Valid tree used) (positive : 0 < tree.limit)
    (last : tree.last? tree.limit = none)
    (lowered : tree.lowerTo room (tree.limit - 1) = (true, final)) :
    final.last? tree.limit = some (root tree.limit).sibling := by
  have bucket : bucketOf (root tree.limit) = tree.limit := by
    have limit := valid.limit_lt
    unfold bucketOf root bucketCount minAllocLog2 maxAllocLog2 at *
    simp only
    omega
  have inUse : root tree.limit ∉ tree.free := not_mem_of_last? (by rwa [bucket])
  have siblingBucket : bucketOf (root tree.limit).sibling = tree.limit := bucket
  rw [lowerTo, lower, if_pos (by omega), if_neg inUse] at lowered
  split at lowered
  · rw [lower_of_le (le_refl (tree.limit - 1) : tree.extend.limit ≤ _)] at lowered
    rw [← (Prod.mk.inj lowered).2, Tree.extend, last?, listed, List.filter_append]
    simp [siblingBucket]
  · cases lowered

/-! ### Splitting -/

theorem leftmost_start : ∀ (count : Nat) (node : TreeNode), count ≤ node.exponent →
    (leftmost count node).start = node.start
  | 0, _, _ => rfl
  | count + 1, node, enough => by
      rw [leftmost, leftmost_start count node.left (Nat.le_sub_one_of_lt enough),
        left_start (Nat.zero_lt_of_lt enough)]

theorem leftmost_exponent : ∀ (count : Nat) (node : TreeNode),
    (leftmost count node).exponent = node.exponent - count
  | 0, _ => rfl
  | count + 1, node => by
      rw [leftmost, leftmost_exponent count, left_exponent]
      omega

/-- What is left after splitting is among the bytes that were needed. -/
theorem leftmost_size_le (original : Nat) (node : TreeNode) (small : node.exponent ≤ maxAllocLog2)
    (bounded : original ≤ maxAllocLog2) :
    (leftmost (original - bucketOf node) node).size ≤ needed original node := by
  rw [size, leftmost_exponent, needed]
  split
  · rename_i splits
    have positive : 0 < node.exponent := by
      unfold bucketOf maxAllocLog2 at *
      omega
    rw [size_eq_double positive, Nat.mul_div_cancel_left _ (by decide : 0 < 2)]
    apply Nat.le_add_right_of_le
    exact Nat.pow_le_pow_right (by decide) (by omega)
  · exact Nat.pow_le_pow_right (by decide) (Nat.sub_le _ _)

theorem needed_le (original : Nat) (large : minAllocLog2 ≤ node.exponent) :
    needed original node ≤ node.size := by
  have sixteen : 2 ^ 4 ≤ node.size := Nat.pow_le_pow_right (by decide) large
  unfold needed listSize
  split <;> omega

/-- Halving a used node again and again keeps the tree valid. -/
theorem split_spec : ∀ {count : Nat} {node : TreeNode} {tree : Tree}, Valid tree (node :: used) →
    count + minAllocLog2 ≤ node.exponent →
    Valid ⟨tree.limit, tree.free ++ spare count node⟩ (leftmost count node :: used)
  | 0, node, tree, valid, _ => by
      rw [spare, List.append_nil]
      exact valid
  | count + 1, node, tree, valid, enough => by
      have next := split_spec (valid.split (by omega))
        (show count + minAllocLog2 ≤ node.left.exponent by rw [left_exponent]; omega)
      rw [push, List.append_assoc] at next
      exact next

/-- What the client of a search gets. -/
structure Found (tree after : Tree) (used : List TreeNode) (original : Nat)
    (found : Option TreeNode) : Prop where
  valid : Valid after (found.toList ++ used)
  bucket : ∀ node ∈ found, bucketOf node = original
  begins : ∀ offset, tree.Begins offset →
    after.Begins offset ∨ ∃ node ∈ found, node.start = offset

theorem Found.before {middle : Tree} (found' : Found middle after used original found)
    (kept : ∀ offset, tree.Begins offset → middle.Begins offset) :
    Found tree after used original found where
  valid := found'.valid
  bucket := found'.bucket
  begins offset begins := found'.begins offset (kept offset begins)

theorem Found.none (valid : Valid after used)
    (kept : ∀ offset, tree.Begins offset → after.Begins offset) :
    Found tree after used original none where
  valid := valid
  bucket := by simp
  begins offset begins := .inl (kept offset begins)

theorem use_spec (room : Nat) (valid : Valid tree used) (member : node ∈ tree.free)
    (reachable : bucketOf node ≤ original) (bounded : original < bucketCount) :
    Found tree (tree.use room original node).2 used original (tree.use room original node).1 := by
  have taken := valid.take member
  have bounds := valid.bucket_bounds (List.mem_append_left _ member)
  unfold bucketCount maxAllocLog2 minAllocLog2 at bounded bounds
  rw [use]
  split
  · have enough : original - bucketOf node + minAllocLog2 ≤ node.exponent := by
      unfold minAllocLog2
      omega
    refine ⟨split_spec taken enough, ?_, ?_⟩
    · rintro _ ⟨rfl⟩
      rw [bucketOf, leftmost_exponent]
      unfold maxAllocLog2
      omega
    · rintro offset ⟨other, otherMem, rfl⟩
      by_cases same : other = node
      · refine .inr ⟨_, rfl, ?_⟩
        rw [leftmost_start _ _ (by omega), same]
      · refine .inl ⟨other, List.mem_append_left _ ?_, rfl⟩
        exact (List.mem_erase_of_ne same).mpr otherMem
  · have alone : node.sibling ∉ (tree.erase node).free := fun siblingMem =>
      valid.merged node member (List.mem_of_mem_erase siblingMem)
    apply Found.none (taken.give alone)
    rintro offset ⟨other, otherMem, rfl⟩
    refine ⟨other, ?_, rfl⟩
    exact (List.perm_append_singleton _ _).symm.mem_iff.mp
      ((List.perm_cons_erase member).mem_iff.mp otherMem)

theorem search_spec (room : Nat) (valid : Valid tree used) (reachable : rounds ≤ original + 1)
    (bounded : original < bucketCount) :
    Found tree (search room original rounds tree).2 used original
      (search room original rounds tree).1 := by
  induction rounds generalizing tree with
  | zero => exact Found.none valid fun _ begins => begins
  | succ bucket induction =>
      have lowered := lowerTo_spec room bucket valid
      rw [search]
      rcases shape : tree.lowerTo room bucket with ⟨reached, middle⟩
      rw [shape] at lowered
      cases reached with
      | false => exact Found.none lowered.valid lowered.begins
      | true =>
          rcases last : middle.last? bucket with _ | node
          · simp only [last]
            split
            · exact (induction lowered.valid (by omega)).before lowered.begins
            · have again := lowerTo_spec room (bucket - 1) lowered.valid
              rcases nextShape : middle.lowerTo room (bucket - 1) with ⟨reached, final⟩
              rw [nextShape] at again
              have kept : ∀ offset, tree.Begins offset → final.Begins offset :=
                fun offset begins => again.begins offset (lowered.begins offset begins)
              cases reached with
              | false => exact Found.none again.valid kept
              | true =>
                  rcases finalLast : final.last? bucket with _ | node
                  · simp only [finalLast]
                    exact Found.none again.valid kept
                  · simp only [finalLast]
                    have member := mem_of_last? finalLast
                    exact (use_spec room again.valid member.1 (by omega) bounded).before kept
          · simp only [last]
            have member := mem_of_last? last
            exact (use_spec room lowered.valid member.1 (by omega) bounded).before lowered.begins

/-! ### Merging -/

theorem merge_limit (rounds : Nat) (node : TreeNode) (tree : Tree) :
    (merge rounds node tree).limit = tree.limit := by
  induction rounds generalizing node tree with
  | zero => rfl
  | succ rounds induction =>
      rw [merge]
      split
      · exact induction _ _
      · rfl

theorem release_limit (node : TreeNode) (tree : Tree) :
    (tree.release node).limit = tree.limit := merge_limit _ _ _

end Operations

end Tree

end MallocLab.Buddy
