import MallocLab.Buddy.Geometry

/-! # What a tree has to offer

Extending a tree in use only puts nodes into the lists that a larger request
would put there anyway. So the lists of a tree count as if it had been extended
as far as one likes, and a search on the tree in use is a search in these.
-/

namespace MallocLab.Buddy.Tree

open TreeNode

variable {tree middle after : Tree} {used : List TreeNode} {node : TreeNode}
  {room bucket original rounds : Nat}

/-- Something in the tree is in use. -/
def InUse (tree : Tree) : Prop := root tree.limit ∉ tree.free

/-- The list of a bucket once the tree in use was extended beyond it. -/
def offered (tree : Tree) (bucket : Nat) : List TreeNode :=
  if tree.limit < bucket then tree.listed bucket
  else if bucket = 0 then []
  else [(root bucket).sibling]

/-- The node that a search from a bucket on meets first. -/
def pick (tree : Tree) : Nat → Option TreeNode
  | 0 => none
  | bucket + 1 => (tree.offered (bucket + 1)).getLast?.or (tree.pick bucket)

/-- There is room for what a search needs of a node. -/
def Fits (room original : Nat) (node : TreeNode) : Prop :=
  node.start + needed original node < room

instance (room original : Nat) (node : TreeNode) : Decidable (Fits room original node) :=
  inferInstanceAs (Decidable (_ < _))

theorem listSize_le_needed (original : Nat) (large : minAllocLog2 ≤ node.exponent) :
    listSize ≤ needed original node := by
  have sixteen : 2 ^ 4 ≤ node.size := Nat.pow_le_pow_right (by decide) large
  unfold needed listSize
  split <;> omega

theorem sibling_root_start (bucket : Nat) : (root bucket).sibling.start = 2 ^ (31 - bucket) := by
  rw [start, sibling_position, root_position, if_pos rfl, Nat.zero_add, Nat.one_mul]
  rfl

namespace Valid

variable (valid : Valid tree used)

include valid

/-- A tree in use has nothing in the list of its root. -/
theorem listed_root (inUse : tree.InUse) : tree.listed tree.limit = [] := by
  apply List.filter_eq_nil_iff.mpr
  intro node member isRoot
  have inside := List.mem_append_left used member
  have bounds := valid.bucket_bounds inside
  have bucket := of_decide_eq_true isRoot
  have whole : node = root tree.limit :=
    (valid.within inside).eq (by rw [root_exponent]; omega)
  exact inUse (whole ▸ member)

theorem extend_inUse (positive : 0 < tree.limit) (inUse : tree.InUse) : tree.extend.InUse := by
  intro free
  have only := ((valid.extend positive inUse).of_root_free free).1
  have member : (root tree.limit).sibling ∈ tree.extend.free :=
    List.mem_append_right _ (List.mem_singleton_self _)
  rw [only, List.mem_singleton] at member
  have limit := valid.limit_lt
  have exponents := congrArg exponent member
  simp only [sibling_exponent, root_exponent, Tree.extend] at exponents
  unfold bucketCount minAllocLog2 maxAllocLog2 at limit
  omega

theorem offered_extend (positive : 0 < tree.limit) (inUse : tree.InUse) (bucket : Nat) :
    tree.extend.offered bucket = tree.offered bucket := by
  have limit := valid.limit_lt
  have sibling : bucketOf (root tree.limit).sibling = tree.limit :=
    bucketOf_root valid.limit_lt
  unfold offered
  rcases Nat.lt_trichotomy bucket tree.limit with below | same | above
  · rw [if_neg (show ¬tree.extend.limit < bucket by simp only [Tree.extend]; omega),
      if_neg (show ¬tree.limit < bucket by omega)]
  · have listed : tree.extend.listed bucket = [(root bucket).sibling] := by
      have none := valid.listed_root inUse
      rw [same]
      rw [Tree.listed] at none
      rw [Tree.listed, Tree.extend, List.filter_append, none, List.filter_cons_of_pos (by simp [sibling])]
      rfl
    rw [if_pos (show tree.extend.limit < bucket by simp only [Tree.extend]; omega), if_neg (by omega),
      if_neg (by omega), listed]
  · rw [if_pos (show tree.extend.limit < bucket by simp only [Tree.extend]; omega), if_pos above,
      Tree.listed, Tree.extend, List.filter_append,
      List.filter_cons_of_neg (by simp only [sibling, decide_eq_true_eq]; omega)]
    exact List.append_nil _

end Valid

theorem pick_congr (same : ∀ bucket, after.offered bucket = tree.offered bucket) (bucket : Nat) :
    after.pick bucket = tree.pick bucket := by
  induction bucket with
  | zero => rfl
  | succ bucket induction => rw [pick, pick, same, induction]

/-! ## Lowering the root of a tree in use -/

/-- Lowering the root changes nothing that is offered. If it stops before the
bucket, the arena ends before the right half that the bucket would offer. -/
structure Extended (tree after : Tree) (room bucket : Nat) (reached : Bool) : Prop where
  inUse : after.InUse
  offered : ∀ other, after.offered other = tree.offered other
  stopped : reached = false → bucket < tree.limit ∧ room ≤ (root bucket).sibling.start + listSize

theorem lower_extended (valid : Valid tree used) (inUse : tree.InUse) (enough : tree.limit < rounds) :
    Extended tree (lower room bucket rounds tree).2 room bucket
      (lower room bucket rounds tree).1 := by
  induction rounds generalizing tree with
  | zero => omega
  | succ rounds induction =>
      rw [lower]
      by_cases above : bucket < tree.limit
      · have positive : 0 < tree.limit := by omega
        rw [if_pos above, if_neg inUse]
        by_cases fits : (root tree.limit).sibling.start + listSize < room
        · have later := induction (valid.extend positive inUse)
            (valid.extend_inUse positive inUse) (show tree.limit - 1 < rounds by omega)
          rw [if_pos fits]
          refine ⟨later.inUse, fun other => ?_, fun stopped => ⟨above, (later.stopped stopped).2⟩⟩
          rw [later.offered, valid.offered_extend positive inUse]
        · rw [if_neg fits]
          refine ⟨inUse, fun _ => rfl, fun _ => ⟨above, ?_⟩⟩
          have larger : 2 ^ (31 - tree.limit) ≤ 2 ^ (31 - bucket) :=
            Nat.pow_le_pow_right (by decide) (by omega)
          rw [sibling_root_start] at fits ⊢
          omega
      · rw [if_neg above]
        exact ⟨inUse, fun _ => rfl, by simp⟩

/-! ## Searching in a tree in use -/

/-- A search succeeds when there is room for what is met first. Otherwise it
leaves the offers as they were. -/
structure Searched (tree : Tree) (room original bucket : Nat) (result : Option TreeNode × Tree) :
    Prop where
  found : result.1 ≠ none ↔ ∃ node ∈ tree.pick bucket, Fits room original node
  inUse : result.1 = none → result.2.InUse
  offered : result.1 = none → ∀ other, result.2.offered other = tree.offered other

theorem Searched.before {result : Option TreeNode × Tree}
    (searched : Searched middle room original bucket result)
    (same : ∀ other, middle.offered other = tree.offered other) :
    Searched tree room original bucket result where
  found := by rw [searched.found, pick_congr same]
  inUse := searched.inUse
  offered none other := (searched.offered none other).trans (same other)

theorem Searched.stopped (inUse : tree.InUse)
    (refused : ∀ node ∈ tree.pick bucket, ¬Fits room original node) :
    Searched tree room original bucket (none, tree) where
  found := by
    constructor
    · exact fun found => absurd rfl found
    · rintro ⟨node, picked, fits⟩
      exact absurd fits (refused node picked)
  inUse _ := inUse
  offered _ _ := rfl

/-- The node that was popped last is pushed back to where it was. -/
theorem listed_return (nodup : tree.free.Nodup) (last : tree.last? (bucketOf node) = some node)
    (bucket : Nat) : ((tree.erase node).push node).listed bucket = tree.listed bucket := by
  rw [listed, push, erase, nodup.erase_eq_filter, List.filter_append, List.filter_filter]
  by_cases own : bucketOf node = bucket
  · subst own
    rcases List.getLast?_eq_some_iff.mp last with ⟨front, shape⟩
    have listedNodup : (tree.listed (bucketOf node)).Nodup := nodup.filter _
    have elsewhere : node ∉ front := by
      rw [shape] at listedNodup
      intro inside
      exact (List.nodup_append.mp listedNodup).2.2 node inside node (List.mem_singleton_self _) rfl
    have rest : tree.free.filter (fun other => decide (bucketOf other = bucketOf node) && other != node) =
        (tree.listed (bucketOf node)).filter fun other => other != node := by
      rw [listed, List.filter_filter]
      exact List.filter_congr fun other _ => Bool.and_comm _ _
    have kept : front.filter (fun other => other != node) = front := by
      apply List.filter_eq_self.mpr
      intro other inside
      simpa using fun same : other = node => elsewhere (same ▸ inside)
    rw [rest, shape, List.filter_append, kept]
    simp
  · rw [List.filter_cons_of_neg (by simpa using own), List.filter_nil, List.append_nil, listed]
    apply List.filter_congr
    intro other _
    by_cases inBucket : bucketOf other = bucket
    · have different : other ≠ node := fun same => own (same ▸ inBucket)
      simp [inBucket, different]
    · simp [inBucket]

theorem use_searched (valid : Valid tree used) (inUse : tree.InUse)
    (last : tree.last? (bucketOf node) = some node) (picked : tree.pick bucket = some node) :
    Searched tree room original bucket (tree.use room original node) := by
  rw [use]
  by_cases fits : node.start + needed original node < room
  · rw [if_pos fits]
    refine ⟨⟨fun _ => ⟨node, picked, fits⟩, by simp⟩, by simp, by simp⟩
  · have member := mem_of_last? last
    have same := fun other => listed_return valid.free_nodup last other
    rw [if_neg fits]
    refine ⟨⟨fun found => absurd rfl found, ?_⟩, fun _ => ?_, fun _ other => ?_⟩
    · rintro ⟨other, isPicked, otherFits⟩
      rw [picked] at isPicked
      cases isPicked
      exact absurd otherFits fits
    · intro free
      apply inUse
      rcases List.mem_append.mp free with old | new
      · exact List.mem_of_mem_erase old
      · rw [List.mem_singleton] at new
        exact new ▸ member.1
    · change (if tree.limit < other then ((tree.erase node).push node).listed other else _) = _
      rw [same, offered]

theorem pick_of_le (positive : 0 < bucket) (below : bucket ≤ tree.limit) :
    tree.pick bucket = some (root bucket).sibling := by
  cases bucket with
  | zero => omega
  | succ bucket =>
      rw [pick, offered, if_neg (Nat.not_lt.mpr below), if_neg (Nat.succ_ne_zero _)]
      rfl

theorem pick_of_some (above : tree.limit < bucket) (last : tree.last? bucket = some node) :
    tree.pick bucket = some node := by
  cases bucket with
  | zero => omega
  | succ bucket =>
      rw [last?] at last
      rw [pick, offered, if_pos above, last]
      rfl

theorem pick_of_none (above : tree.limit < bucket + 1) (last : tree.last? (bucket + 1) = none) :
    tree.pick (bucket + 1) = tree.pick bucket := by
  rw [last?] at last
  rw [pick, offered, if_pos above, last, Option.none_or]

/-- One level is one extension. -/
theorem lowerTo_once (positive : 0 < tree.limit) (inUse : tree.InUse) :
    tree.lowerTo room (tree.limit - 1) =
      if (root tree.limit).sibling.start + listSize < room then (true, tree.extend)
      else (false, tree) := by
  rw [lowerTo, lower, if_pos (by omega), if_neg inUse]
  split
  · exact lower_of_le (le_refl (tree.limit - 1))
  · rfl

/-- The search from a bucket on in a tree whose root has come that far. -/
theorem search_searched (valid : Valid tree used) (inUse : tree.InUse) (reachable : bucket ≤ original)
    (bounded : original < bucketCount) :
    Searched tree room original bucket (search room original (bucket + 1) tree) := by
  induction bucket using Nat.strong_induction_on generalizing tree with
  | _ bucket induction =>
      have extended : Extended tree (tree.lowerTo room bucket).2 room bucket
          (tree.lowerTo room bucket).1 := lower_extended valid inUse (Nat.lt_succ_self _)
      have lowered := lowerTo_spec room bucket valid
      rw [search]
      rcases shape : tree.lowerTo room bucket with ⟨reached, middle⟩
      rw [shape] at extended lowered
      have still := extended.inUse
      apply Searched.before _ extended.offered
      cases reached with
      | false =>
          have stopped := extended.stopped rfl
          apply Searched.stopped still
          intro node picked
          rw [pick_congr extended.offered] at picked
          rcases Nat.eq_zero_or_pos bucket with rfl | positive
          · cases picked
          · rw [pick_of_le positive stopped.1.le] at picked
            cases picked
            have small : minAllocLog2 ≤ (root bucket).sibling.exponent := by
              rw [sibling_exponent, root_exponent]
              unfold bucketCount maxAllocLog2 minAllocLog2 at *
              omega
            have least := listSize_le_needed original small
            unfold Fits
            omega
      | true =>
          have limit : middle.limit ≤ bucket := (lowered.limit rfl).le.trans (min_le_left _ _)
          rcases last : middle.last? bucket with _ | node
          · simp only [last]
            by_cases onward : bucket ≠ middle.limit ∨ bucket = 0
            · rw [if_pos onward]
              cases bucket with
              | zero => exact Searched.stopped still (by simp [pick])
              | succ bucket =>
                  have above : middle.limit < bucket + 1 := by omega
                  have next := induction bucket (Nat.lt_succ_self _) lowered.valid still (by omega)
                  exact ⟨by rw [next.found, pick_of_none above last], next.inUse, next.offered⟩
            · have atRoot : bucket = middle.limit ∧ 0 < middle.limit := by omega
              have positive := atRoot.2
              have grown := lowered.valid.extend positive still
              have same := lowered.valid.offered_extend positive still
              have picked := pick_of_le positive (le_refl middle.limit)
              have sibling : bucketOf (root middle.limit).sibling = middle.limit :=
                bucketOf_root lowered.valid.limit_lt
              have large := grown.large (root middle.limit).sibling (by simp [Tree.extend])
              rw [if_neg onward, atRoot.1, lowerTo_once positive still]
              by_cases fits : (root middle.limit).sibling.start + listSize < room
              · have once : middle.lowerTo room (middle.limit - 1) = (true, middle.extend) := by
                  rw [lowerTo_once positive still, if_pos fits]
                have top := last?_lowerTo lowered.valid positive (atRoot.1 ▸ last) once
                rw [if_pos fits]
                simp only [top]
                apply Searched.before _ same
                apply use_searched grown (lowered.valid.extend_inUse positive still)
                · rwa [sibling]
                · rw [pick_congr same, picked]
              · rw [if_neg fits]
                apply Searched.stopped still
                intro node isPicked
                rw [picked] at isPicked
                cases isPicked
                have least := listSize_le_needed original large
                unfold Fits
                omega
          · simp only [last]
            have member := mem_of_last? last
            have above : middle.limit < bucket := by
              apply lt_of_le_of_ne limit
              rintro rfl
              rw [last?, lowered.valid.listed_root still] at last
              cases last
            exact use_searched lowered.valid still (by rwa [member.2]) (pick_of_some above last)

/-! ## Searching in a free tree -/

/-- A tree of one free node. -/
def whole (limit : Nat) : Tree := ⟨limit, [root limit]⟩

theorem initial_eq : initial = whole (bucketCount - 1) := rfl

/-- A tree is in use as long as one of its nodes is. -/
theorem Valid.inUse_iff (valid : Valid tree used) : tree.InUse ↔ used ≠ [] := by
  constructor
  · rintro inUse rfl
    have covered : Covered tree.free (root tree.limit) := by
      intro point inside
      have member := (valid.tiles.covers point).mp inside
      rwa [List.append_nil] at member
    rcases (covered_iff valid.merged).mp covered with ⟨other, free, within⟩
    have inside := valid.within (List.mem_append_left [] free)
    exact inUse (within.eq inside.exponent_le ▸ free)
  · exact fun some free => some (valid.of_root_free free).2

theorem Valid.eq_whole (valid : Valid tree []) : tree = whole tree.limit := by
  have free : root tree.limit ∈ tree.free := by
    by_contra inUse
    exact valid.inUse_iff.mp inUse rfl
  cases tree with
  | mk limit nodes => exact congrArg _ (valid.of_root_free free).1

theorem lower_whole {limit : Nat} (enough : limit < rounds) :
    lower room bucket rounds (whole limit) = (true, whole (min bucket limit)) := by
  induction rounds generalizing limit with
  | zero => omega
  | succ rounds induction =>
      rw [lower]
      by_cases above : bucket < limit
      · have relabeled : (whole limit).relabel = whole (limit - 1) := by
          simp [whole, relabel]
        have free : root (whole limit).limit ∈ (whole limit).free := List.mem_singleton_self _
        rw [if_pos (show bucket < (whole limit).limit from above), if_pos free, relabeled,
          induction (by omega), min_eq_left (by omega), min_eq_left (by omega)]
      · rw [if_neg (show ¬bucket < (whole limit).limit from above), min_eq_right (by omega)]

theorem lowerTo_whole (room bucket limit : Nat) :
    (whole limit).lowerTo room bucket = (true, whole (min bucket limit)) :=
  lower_whole (Nat.lt_succ_self _)

theorem last?_whole {limit : Nat} (inside : limit < bucketCount) :
    (whole limit).last? bucket = if bucket = limit then some (root limit) else none := by
  have own := bucketOf_root inside
  by_cases same : bucket = limit
  · rw [if_pos same, last?, listed, whole, List.filter_cons_of_pos (by simp [own, same])]
    rfl
  · rw [if_neg same, last?, listed, whole,
      List.filter_cons_of_neg (by simpa [own] using Ne.symm same)]
    rfl

/-- Taking the only node, or leaving the tree alone. -/
theorem use_whole (room original limit : Nat) :
    (whole limit).use room original (root limit) =
      if Fits room original (root limit) then
        (some (leftmost (original - bucketOf (root limit)) (root limit)),
          ⟨limit, spare (original - bucketOf (root limit)) (root limit)⟩)
      else (none, whole limit) := by
  have erased : (whole limit).free.erase (root limit) = [] :=
    List.erase_cons_head _ _
  have returned : ((whole limit).erase (root limit)).push (root limit) = whole limit := by
    rw [erase, erased]
    rfl
  rw [use, erased, returned]
  rfl

/-- The first request of a free tree may enlarge its root. -/
theorem search_whole {limit : Nat} (inside : limit < bucketCount) :
    search room original (bucket + 1) (whole limit) =
      (whole (min bucket limit)).use room original (root (min bucket limit)) := by
  induction bucket with
  | zero =>
      rw [search, lowerTo_whole, Nat.zero_min]
      simp only [last?_whole (show 0 < bucketCount by decide), if_true]
  | succ bucket induction =>
      rw [search, lowerTo_whole]
      by_cases reached : bucket + 1 ≤ limit
      · rw [min_eq_left reached]
        simp only [last?_whole (reached.trans_lt inside), if_true]
      · have above : bucket + 1 ≠ limit := by omega
        have onward : bucket + 1 ≠ (whole limit).limit ∨ bucket + 1 = 0 := .inl above
        rw [min_eq_right (by omega)]
        simp only [last?_whole inside, if_neg above, if_pos onward, induction]
        rw [min_eq_right (by omega)]

/-- In an arena of twenty megabytes only some trees have room for their root. -/
theorem fits_root_iff : ∀ original < bucketCount, ∀ bucket ≤ original,
    (Fits maxHeap original (root bucket) ↔ 6 ≤ bucket ∧ 7 ≤ original) := by
  decide

end MallocLab.Buddy.Tree
