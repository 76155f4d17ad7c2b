import MallocLab.Checktrace.Protocol

/-! # The emitted trace and the protocol

The frees the script appends end the last life of every id that is still held.
So the emitted trace keeps to the protocol as soon as no id is allocated twice.
-/

namespace MallocLab.Checktrace

open Text

variable {hash : Hash} {id : List Char} {requests : List (List Char)}

/-- One allocation, then reallocations, then one free. -/
def IsLife (requests : List (List Char)) : Prop :=
  ∃ alloc moves free, requests = alloc :: (moves ++ [free]) ∧ cmdOf alloc = ['a'] ∧
    (∀ move ∈ moves, cmdOf move = ['r']) ∧ cmdOf free = ['f']

/-- The trace protocol: no other requests, and one life for each id. -/
structure Conforms (requests : List (List Char)) : Prop where
  proper : ∀ line ∈ requests, IsProper line
  life : ∀ id ∈ requests.map idOf, IsLife (ofId id requests)

/-- The allocations of an id. -/
def allocs (id : List Char) (requests : List (List Char)) : List (List Char) :=
  (ofId id requests).filter fun line => cmdOf line = ['a']

/-! ## One life -/

theorem Lives.trans {before middle final : Bool} {first second : List (List Char)}
    (early : Lives before first middle) (late : Lives middle second final) :
    Lives before (first ++ second) final := by
  induction early with
  | nil => exact late
  | alloc cmd _ induction => exact .alloc cmd (induction late)
  | move cmd _ induction => exact .move cmd (induction late)
  | free cmd _ induction => exact .free cmd (induction late)

/-- A life without an allocation is over before it began. -/
theorem Lives.eq_nil {final : Bool} (lives : Lives false requests final)
    (none : requests.filter (fun line => cmdOf line = ['a']) = []) : requests = [] := by
  cases lives with
  | nil => rfl
  | alloc cmd =>
      rw [List.filter_cons_of_pos (by simpa using cmd)] at none
      cases none

/-- The rest of a life that is the last one. -/
theorem Lives.rest (lives : Lives true requests false)
    (none : requests.filter (fun line => cmdOf line = ['a']) = []) :
    ∃ moves free, requests = moves ++ [free] ∧ (∀ move ∈ moves, cmdOf move = ['r']) ∧
      cmdOf free = ['f'] := by
  induction requests with
  | nil => cases lives
  | cons first rest induction =>
      cases lives with
      | move cmd later =>
          rw [List.filter_cons_of_neg (by simp [cmd])] at none
          rcases induction later none with ⟨moves, free, rfl, areMoves, isFree⟩
          exact ⟨first :: moves, free, rfl, List.forall_mem_cons.mpr ⟨cmd, areMoves⟩, isFree⟩
      | free cmd later =>
          rw [List.filter_cons_of_neg (by simp [cmd])] at none
          rw [later.eq_nil none]
          exact ⟨[], first, rfl, by simp, cmd⟩

theorem Lives.isLife (lives : Lives false requests false) (occurs : requests ≠ [])
    (once : (requests.filter fun line => cmdOf line = ['a']).length ≤ 1) : IsLife requests := by
  cases lives with
  | nil => exact absurd rfl occurs
  | @alloc first rest _ cmd later =>
      rw [List.filter_cons_of_pos (by simpa using cmd), List.length_cons] at once
      have none : rest.filter (fun line => cmdOf line = ['a']) = [] :=
        List.length_eq_zero_iff.mp (by omega)
      rcases later.rest none with ⟨moves, free, rfl, areMoves, isFree⟩
      exact ⟨first, moves, free, rfl, cmd, areMoves, isFree⟩

theorem IsLife.allocs_length (life : IsLife requests) :
    (requests.filter fun line => cmdOf line = ['a']).length = 1 := by
  rcases life with ⟨alloc, moves, free, rfl, isAlloc, areMoves, isFree⟩
  have none : moves.filter (fun line => cmdOf line = ['a']) = [] := by
    apply List.filter_eq_nil_iff.mpr
    intro move member
    simp [areMoves move member]
  rw [List.filter_cons_of_pos (by simpa using isAlloc), List.filter_append, none,
    List.nil_append, List.filter_cons_of_neg (by simp [isFree])]
  rfl

/-! ## The appended frees -/

theorem words_freeLine (key : List Char) : words (freeLine key) = ['f'] :: words key := by
  have proper : ∀ c ∈ ['f'], isSpace c = false := by
    intro c member
    rw [List.mem_singleton.mp member]
    rfl
  exact words_append_space (List.cons_ne_nil _ _) proper key

theorem cmdOf_freeLine (key : List Char) : cmdOf (freeLine key) = ['f'] := by
  rw [cmdOf, words_freeLine]
  rfl

theorem cmdOf_of_mem_frees {keys : List (List Char)} {line : List Char}
    (member : line ∈ keys.map freeLine) : cmdOf line = ['f'] := by
  rcases List.mem_map.mp member with ⟨key, _, rfl⟩
  exact cmdOf_freeLine key

/-- The script reads back the key it printed. -/
theorem idOf_freeLine {key : List Char} (word : ∀ c ∈ key, isSpace c = false) :
    idOf (freeLine key) = key := by
  rw [idOf, words_freeLine]
  cases key with
  | nil => rfl
  | cons first rest =>
      rw [words_of_proper (List.cons_ne_nil _ _) word]
      rfl

theorem mem_sortedKeys {key : List Char} : key ∈ sortedKeys hash ↔ key ∈ hash := by
  rw [sortedKeys, (List.perm_insertionSort _ _).mem_iff]
  exact AList.mem_keys.symm

theorem nodup_sortedKeys (hash : Hash) : (sortedKeys hash).Nodup :=
  (List.perm_insertionSort _ _).nodup_iff.mpr hash.keys_nodup

/-- An id is freed once if it is still held, and else not at all. -/
theorem ofId_frees (sound : Sound hash) (id : List Char) :
    ofId id ((sortedKeys hash).map freeLine) = if id ∈ hash then [freeLine id] else [] := by
  have own : ∀ key ∈ sortedKeys hash, idOf (freeLine key) = key := fun key member =>
    idOf_freeLine (sound.words key (mem_sortedKeys.mp member))
  have keys : (sortedKeys hash).filter (fun key => idOf (freeLine key) = id) =
      (sortedKeys hash).filter (fun key => key = id) :=
    List.filter_congr fun key member => by rw [own key member]
  rw [ofId, List.filter_map, show ((fun line => decide (idOf line = id)) ∘ freeLine) =
    fun key => decide (idOf (freeLine key) = id) from rfl, keys, List.filter_eq]
  by_cases held : id ∈ hash
  · rw [if_pos held, List.count_eq_one_of_mem (nodup_sortedKeys hash) (mem_sortedKeys.mpr held)]
    rfl
  · rw [if_neg held, List.count_eq_zero_of_not_mem fun member => held (mem_sortedKeys.mp member)]
    rfl

theorem lives_frees (sound : Sound hash) (id : List Char) :
    Lives (decide (id ∈ hash)) (ofId id ((sortedKeys hash).map freeLine)) false := by
  rw [ofId_frees sound]
  by_cases held : id ∈ hash
  · rw [if_pos held, decide_eq_true held]
    exact .free (cmdOf_freeLine id) (.nil false)
  · rw [if_neg held, decide_eq_false held]
    exact .nil false

theorem allocs_frees (sound : Sound hash) (id : List Char) :
    allocs id ((sortedKeys hash).map freeLine) = [] := by
  rw [allocs, ofId_frees sound]
  split <;> simp [cmdOf_freeLine]

/-! ## The whole script -/

variable {floating : List Char → Nat → List Char} {text : List Char} {trace : Trace}

/-- The request lines of the input. -/
def body (text : List Char) : List (List Char) := (Text.lines text).drop 4

theorem balance_ok (emitted : balance floating text = .ok trace) :
    ∃ hash saved, readLines 5 ∅ (body text) = .ok (hash, saved) ∧
      trace = {
        heapSize := (Text.lines text).getD 0 []
        numBlocks := (Text.lines text).getD 1 []
        numOps := newNumOps floating ((Text.lines text).getD 2 []) hash.keys.length
        weight := (Text.lines text).getD 3 []
        requests := saved ++ (sortedKeys hash).map freeLine } := by
  simp only [balance] at emitted
  cases read : readLines 5 ∅ ((Text.lines text).drop 4) with
  | error death =>
      rw [read] at emitted
      cases emitted
  | ok result =>
      rcases result with ⟨hash, saved⟩
      rw [read] at emitted
      simp only [bind, Except.bind, pure, Except.pure] at emitted
      split at emitted
      · cases emitted
      · exact ⟨hash, saved, read, (Except.ok.inj emitted).symm⟩

theorem allocs_append (id : List Char) (first second : List (List Char)) :
    allocs id (first ++ second) = allocs id first ++ allocs id second := by
  simp only [allocs, ofId, List.filter_append]

/-- Every allocation is a request, and none is dropped. -/
theorem allocs_requests (id : List Char) (lines : List (List Char)) :
    allocs id (lines.filter fun line => IsRequest line) = allocs id lines := by
  simp only [allocs, ofId, List.filter_filter]
  apply List.filter_congr
  intro line _
  by_cases cmd : cmdOf line = ['a']
  · have request := IsProper.isRequest (.inl cmd)
    simp [cmd, request]
  · simp [cmd]

/-- An id with an allocation occurs. -/
theorem mem_ids_of_allocs {line : List Char} (member : line ∈ allocs id requests) :
    id ∈ requests.map idOf := by
  have ofId := List.mem_filter.mp (List.mem_filter.mp member).1
  exact List.mem_map.mpr ⟨line, ofId.1, by simpa using ofId.2⟩

/-- The emitted trace keeps to the protocol if and only if the input has no
other requests and allocates no id twice. -/
theorem conforms_iff (emitted : balance floating text = .ok trace) :
    Conforms trace.requests ↔
      (∀ line ∈ body text, IsRequest line → IsProper line) ∧
        ∀ id, (allocs id (body text)).length ≤ 1 := by
  rcases balance_ok emitted with ⟨hash, saved, read, rfl⟩
  have kept := readLines_saved read
  have savedAllocs : ∀ id, allocs id saved = allocs id (body text) := fun id => by
    rw [kept, allocs_requests]
  constructor
  · intro conforms
    constructor
    · intro line member isRequest
      apply conforms.proper
      apply List.mem_append_left
      rw [kept]
      exact List.mem_filter.mpr ⟨member, by simpa using isRequest⟩
    · intro id
      rw [← savedAllocs]
      rcases shape : allocs id saved with _ | ⟨first, others⟩
      · exact Nat.zero_le 1
      · have isAlloc : first ∈ allocs id (saved ++ (sortedKeys hash).map freeLine) := by
          rw [allocs_append, shape]
          exact List.mem_cons_self
        have occurs := mem_ids_of_allocs isAlloc
        have one := (conforms.life id occurs).allocs_length
        change (allocs id (saved ++ (sortedKeys hash).map freeLine)).length = 1 at one
        rw [allocs_append, List.length_append, shape] at one
        omega
  · rintro ⟨proper, once⟩
    rcases readLines_lives sound_empty proper read with ⟨sound, lives⟩
    constructor
    · intro line member
      rcases List.mem_append.mp member with early | late
      · rw [kept] at early
        have parts := List.mem_filter.mp early
        exact proper line parts.1 (by simpa using parts.2)
      · exact .inr (.inr (cmdOf_of_mem_frees late))
    · intro id occurs
      have whole : Lives false (ofId id (saved ++ (sortedKeys hash).map freeLine)) false := by
        have early := lives id
        rw [decide_eq_false (AList.notMem_empty id)] at early
        rw [ofId, List.filter_append]
        exact early.trans (lives_frees sound id)
      apply whole.isLife
      · intro none
        rcases List.mem_map.mp occurs with ⟨line, member, own⟩
        have := List.filter_eq_nil_iff.mp none line member
        simp [own] at this
      · change (allocs id (saved ++ (sortedKeys hash).map freeLine)).length ≤ 1
        rw [allocs_append, allocs_frees sound, List.append_nil, savedAllocs]
        exact once id

theorem conforms_iff_one_life :
    Conforms ["a 0 8".toList, "r 0 9".toList, "f 0".toList] ↔
      (∀ line ∈ body "8\n1\n2\n1\na 0 8\nr 0 9\n".toList, IsRequest line → IsProper line) ∧
        ∀ id, (allocs id (body "8\n1\n2\n1\na 0 8\nr 0 9\n".toList)).length ≤ 1 := by
  have emitted : balance (fun _ _ => []) "8\n1\n2\n1\na 0 8\nr 0 9\n".toList = .ok {
      heapSize := ['8']
      numBlocks := ['1']
      numOps := ['3']
      weight := ['1']
      requests := ["a 0 8".toList, "r 0 9".toList, "f 0".toList] } := by rfl
  exact conforms_iff emitted

/-- An id that was freed may be allocated again. -/
theorem freed_id_reused : ∃ trace,
    balance (fun _ _ => []) "8\n1\n3\n1\na 0 8\nf 0\na 0 8\n".toList = .ok trace ∧
      ¬Conforms trace.requests := by
  have emitted : balance (fun _ _ => []) "8\n1\n3\n1\na 0 8\nf 0\na 0 8\n".toList = .ok {
      heapSize := ['8']
      numBlocks := ['1']
      numOps := ['4']
      weight := ['1']
      requests := ["a 0 8".toList, "f 0".toList, "a 0 8".toList, "f 0".toList] } := by rfl
  apply Exists.intro _
  apply And.intro emitted
  intro conforms
  have one := (conforms.life ['0'] (by decide)).allocs_length
  exact absurd one (by decide)

end MallocLab.Checktrace
