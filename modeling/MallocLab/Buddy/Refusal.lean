import MallocLab.Buddy.Offers
import MallocLab.Buddy.Runs

/-! # What a refused request leaves behind

A tree in use offers the same nodes after a refusal. An entirely free tree whose
root was enlarged beyond the arena offers nothing from then on.
-/

namespace MallocLab.Buddy

open Program TreeNode

variable {machine after : State} {tree : Tree} {used : List TreeNode}
  {client : Client Statics} {original other request limit : Nat}

namespace Tree

/-- A search from a bucket finds a node. -/
def Grants (tree : Tree) (original : Nat) : Prop :=
  (search maxHeap original (original + 1) tree).1 ≠ none

theorem grants_whole (inside : limit < bucketCount) (bounded : original < bucketCount) :
    (whole limit).Grants original ↔ 6 ≤ limit ∧ 7 ≤ original := by
  have fits := fits_root_iff original bounded (min original limit) (min_le_left _ _)
  rw [Grants, search_whole inside, use_whole]
  by_cases room : Fits maxHeap original (root (min original limit))
  · rw [if_pos room]
    have large := fits.mp room
    simp only [ne_eq, reduceCtorEq, not_false_eq_true, true_iff]
    omega
  · rw [if_neg room]
    simp only [ne_eq, not_true_eq_false, false_iff]
    rw [fits] at room
    omega

/-- A refusal does not change what a tree in use grants. -/
theorem Valid.grants_of_refused (valid : Valid tree used) (inUse : tree.InUse)
    (bounded : original < bucketCount) (refused : ¬tree.Grants original)
    (otherBounded : other < bucketCount) :
    (search maxHeap original (original + 1) tree).2.Grants other ↔ tree.Grants other := by
  have none : (search maxHeap original (original + 1) tree).1 = none := not_not.mp refused
  have searched : Searched tree maxHeap original original _ :=
    search_searched valid inUse (le_refl _) bounded
  have found := search_spec maxHeap valid (le_refl (original + 1)) bounded
  have before : Searched tree maxHeap other other _ :=
    search_searched valid inUse (le_refl _) otherBounded
  have later : Searched (search maxHeap original (original + 1) tree).2 maxHeap other other _ :=
    search_searched found.valid (searched.inUse none) (le_refl _) otherBounded
  rw [Grants, later.found, pick_congr (searched.offered none), Grants, before.found]

/-- A free tree has its root enlarged to the bucket of the refused request. -/
theorem refused_whole (inside : limit < bucketCount) (refused : ¬(whole limit).Grants original) :
    (search maxHeap original (original + 1) (whole limit)).2 = whole (min original limit) := by
  rw [Grants, search_whole inside, use_whole] at refused
  rw [search_whole inside, use_whole]
  split at refused
  · simp at refused
  · rename_i room
    rw [if_neg room]

/-- Only a free tree that is made too large for the arena has anything to
lose. -/
theorem Valid.nothing_lost_iff (valid : Valid tree used) (bounded : original < bucketCount)
    (refused : ¬tree.Grants original) :
    (∀ other < bucketCount, tree.Grants other →
        (search maxHeap original (original + 1) tree).2.Grants other) ↔
      tree.InUse ∨ tree.limit < 6 ∨ 6 ≤ original := by
  by_cases inUse : tree.InUse
  · simp only [inUse, true_or, iff_true]
    intro other otherBounded
    exact (valid.grants_of_refused inUse bounded refused otherBounded).mpr
  · have limit := valid.limit_lt
    have shape : tree = whole tree.limit := by
      cases unused : used with
      | nil => exact (unused ▸ valid).eq_whole
      | cons node rest => exact absurd (valid.inUse_iff.mpr (by simp [unused])) inUse
    simp only [inUse, false_or]
    rw [shape] at refused ⊢
    have lowered : min original tree.limit < bucketCount := (min_le_left _ _).trans_lt bounded
    rw [refused_whole limit refused]
    rw [grants_whole limit bounded] at refused
    have count : bucketCount = 28 := rfl
    constructor
    · intro harmless
      by_contra harm
      have before : (whole tree.limit).Grants 27 :=
        (grants_whole limit (by decide)).mpr (by simp only [whole] at harm; omega)
      have later := (grants_whole lowered (by decide)).mp (harmless 27 (by decide) before)
      simp only [whole] at harm
      omega
    · intro condition other otherBounded grants
      have before := (grants_whole limit otherBounded).mp grants
      apply (grants_whole lowered otherBounded).mpr
      simp only [whole] at condition
      omega

end Tree

/-! ## The machine -/

/-- `mm_malloc` returns a block. -/
def Obtains (machine : State) (request : Nat) : Prop :=
  Ensures (mmMalloc request) machine fun ptr _ => ptr ≠ null

theorem Represents.obtains_iff (represents : Represents machine tree used)
    (backed : Backed machine used) (spans : ∀ limit, Spans machine.memStartBrk limit)
    (word : request < 2 ^ 32) :
    Obtains machine request ↔
      wrap (request + headerSize) ≤ maxAlloc ∧ tree.Grants (firstBucket request) := by
  by_cases accepted : wrap (request + headerSize) ≤ maxAlloc
  · have outcome := ensures_mmMalloc_guarded represents backed word accepted (spans _)
    simp only [accepted, true_and]
    constructor
    · intro obtains none
      rcases outcome.and obtains with ⟨ptr, after, _, allocated, some⟩
      exact some (allocated.failed none)
    · intro grants
      apply outcome.mono
      intro ptr after allocated
      rcases Option.ne_none_iff_exists'.mp grants with ⟨node, found⟩
      rw [(allocated.found node found).1]
      unfold null headerSize
      omega
  · simp only [accepted, false_and, iff_false]
    rintro ⟨ptr, after, returned, some⟩
    cases (mmMalloc_beyond (Nat.not_le.mp accepted) machine).symm.trans returned
    exact some rfl

/-- The bucket of a total of more than 32 megabytes. -/
theorem bucketOfTotal_lt_six {total : Nat} : 6 ≤ bucketOfTotal total ↔ total ≤ 2 ^ 25 := by
  rw [← Nat.clog_le_iff_le_pow (by decide : 1 < 2)]
  unfold bucketOfTotal maxAllocLog2 minAllocLog2
  omega

/-- The largest request of a bucket. -/
def largestRequest (bucket : Nat) : Nat := 2 ^ (maxAllocLog2 - bucket) - headerSize

theorem largestRequest_spec {bucket : Nat} (bounded : bucket < bucketCount) :
    largestRequest bucket ≤ maxAlloc - headerSize ∧
      firstBucket (largestRequest bucket) = bucket := by
  have count : bucketCount = 28 := rfl
  have low : 2 ^ 4 ≤ 2 ^ (31 - bucket) := Nat.pow_le_pow_right (by decide) (by omega)
  have high : 2 ^ (31 - bucket) ≤ 2 ^ 31 := Nat.pow_le_pow_right (by decide) (Nat.sub_le _ _)
  have total : largestRequest bucket + headerSize = 2 ^ (31 - bucket) := by
    unfold largestRequest maxAllocLog2 headerSize
    omega
  constructor
  · unfold headerSize at *
    rw [maxAlloc_eq]
    omega
  · rw [firstBucket, total, wrap_of_lt (by omega), bucketOfTotal, Nat.clog_pow 2 _ (by decide)]
    unfold maxAllocLog2 minAllocLog2
    omega

theorem largestRequest_accepted {bucket : Nat} (bounded : bucket < bucketCount) :
    largestRequest bucket < 2 ^ 32 ∧ wrap (largestRequest bucket + headerSize) ≤ maxAlloc := by
  have total : largestRequest bucket + headerSize ≤ maxAlloc :=
    Nat.add_le_of_le_sub (by decide) (largestRequest_spec bounded).1
  constructor
  · exact (Nat.le_of_add_right_le total).trans_lt (by decide)
  · rwa [wrap_of_lt (total.trans_lt (by decide))]

/-- A refused `mm_malloc` costs the clients nothing, unless all memory is free
and the request is for more than the arena can ever hold. -/
theorem refusal_iff (reachable : Reachable client) (word : request < 2 ^ 32)
    (refused : mmMalloc request client.machine = some (null, after)) :
    (∀ other < 2 ^ 32, Obtains client.machine other → Obtains after other) ↔
      client.live ≠ [] ∨ client.machine.statics.bucketLimit < 6 ∨
        wrap (request + headerSize) ≤ 2 ^ 25 ∨ maxAlloc < wrap (request + headerSize) := by
  rcases reachable.serves with ⟨tree, blocks, serves⟩
  have valid := serves.represents.valid
  have spans := reachable.spans
  by_cases accepted : wrap (request + headerSize) ≤ maxAlloc
  · have allocated := (ensures_mmMalloc_guarded serves.represents serves.backed word accepted
      (spans _)).of_eq refused
    have bounded : firstBucket request < bucketCount := firstBucket_lt _
    have none : (Tree.obtain maxHeap request tree).1 = none := by
      by_contra some
      rcases Option.ne_none_iff_exists'.mp some with ⟨node, found⟩
      have isNull := (allocated.found node found).1
      unfold null headerSize at isNull
      omega
    have represents : Represents after (Tree.obtain maxHeap request tree).2
        (blocks.map Prod.fst) := by
      have left := allocated.represents
      rwa [none] at left
    have backed := allocated.kept.backed serves.backed
    have later : ∀ limit, Spans after.memStartBrk limit := allocated.kept.start ▸ spans
    have live : client.live ≠ [] ↔ tree.InUse := by
      rw [valid.inUse_iff, serves.live]
      simp
    rw [live, serves.represents.tracks.limit, ← bucketOfTotal_lt_six,
      or_iff_left (Nat.not_lt.mpr accepted), ← firstBucket,
      ← valid.nothing_lost_iff bounded (not_not.mpr none)]
    constructor
    · intro harmless bucket inside grants
      have largest := (largestRequest_spec inside).2
      have accepted := largestRequest_accepted inside
      have obtains := harmless (largestRequest bucket) accepted.1
        ((serves.represents.obtains_iff serves.backed spans accepted.1).mpr
          ⟨accepted.2, largest.symm ▸ grants⟩)
      have still := ((represents.obtains_iff backed later accepted.1).mp obtains).2
      rwa [largest] at still
    · intro harmless other otherWord obtains
      have before := (serves.represents.obtains_iff serves.backed spans otherWord).mp obtains
      exact (represents.obtains_iff backed later otherWord).mpr
        ⟨before.1, harmless _ (firstBucket_lt _) before.2⟩
  · cases (mmMalloc_beyond (Nat.not_le.mp accepted) client.machine).symm.trans refused
    constructor
    · exact fun _ => .inr (.inr (.inr (Nat.not_le.mp accepted)))
    · exact fun _ other _ obtains => obtains

/-- The state after a refused request in a tree. -/
theorem Serves.refused_malloc {blocks : List (TreeNode × Nat)} (serves : Serves client tree blocks)
    (small : request + headerSize ≤ maxAlloc)
    (spans : Spans client.machine.memStartBrk (firstBucket request))
    (none : (Tree.malloc maxHeap request tree).1 = none) :
    ∃ after, mmMalloc request client.machine = some (null, after) ∧
      after.memStartBrk = client.machine.memStartBrk ∧
      Serves ⟨after, client.live⟩ (Tree.malloc maxHeap request tree).2 blocks := by
  rcases serves.malloc small spans with ⟨ptr, after, returned, allocated, _⟩
  obtain rfl := allocated.failed none
  have emptyHanded : Allocated client.machine (.none, (Tree.malloc maxHeap request tree).2)
      (blocks.map Prod.fst) request null after := by
    rw [← none]
    exact allocated
  exact ⟨after, returned, allocated.kept.start, serves.refused emptyHanded⟩

theorem refusal_iff_first_block : ∃ client after, Reachable client ∧ client.live = [(4104, 8)] ∧
    mmMalloc 1073741824 client.machine = some (null, after) ∧
    ∀ other < 2 ^ 32, Obtains client.machine other → Obtains after other := by
  rcases reachable_firstBlock with ⟨client, reachable, live, serves, _⟩
  rcases serves.refused_malloc (show 1073741824 + headerSize ≤ maxAlloc by decide)
    (reachable.spans _) (by decide) with ⟨after, refused, _⟩
  refine ⟨client, after, reachable, live, refused, (refusal_iff reachable (by decide) refused).mpr ?_⟩
  rw [live]
  exact .inl (List.cons_ne_nil _ _)

/-- After `mm_init`, `mm_malloc(1073741824)` returns NULL, and then so does
`mm_malloc(8)`. -/
theorem refusal_loses_all : ∃ client after, Reachable client ∧
    mmMalloc 1073741824 client.machine = some (null, after) ∧
    Obtains client.machine 8 ∧ ¬Obtains after 8 := by
  rcases ensures_reachable arena_zeroedStart fun _ => rfl with
    ⟨_, started, _, rfl, reachable, serves, _⟩
  rcases serves.refused_malloc (show 1073741824 + headerSize ≤ maxAlloc by decide)
    (reachable.spans _) (by decide) with ⟨after, refused, start, served⟩
  refine ⟨_, after, reachable, refused, ?_, ?_⟩
  · apply (serves.represents.obtains_iff serves.backed reachable.spans (by decide)).mpr
    exact ⟨by decide, (Tree.grants_whole (by decide) (by decide)).mpr (by decide)⟩
  · intro obtains
    have later : ∀ limit, Spans after.memStartBrk limit := start ▸ reachable.spans
    have grants := ((served.represents.obtains_iff served.backed later (by decide)).mp obtains).2
    have shape : (Tree.malloc maxHeap 1073741824 Tree.initial).2 = Tree.whole 0 := by decide
    rw [shape] at grants
    exact absurd ((Tree.grants_whole (by decide) (by decide)).mp grants) (by decide)

end MallocLab.Buddy
