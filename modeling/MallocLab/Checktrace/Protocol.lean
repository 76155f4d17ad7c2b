import MallocLab.Checktrace.Source

/-! # Which traces the checker accepts

What the script knows of an id depends on the lines of that id alone. It
forgets an id when it is freed, so nothing keeps the id from a second life.
-/

namespace MallocLab.Checktrace

open Text

variable {hash after : Hash} {linenum : Nat} {line id key : List Char}
  {lines saved : List (List Char)}

/-! ## One line -/

/-- A line that is not ignored. -/
def IsRequest (line : List Char) : Prop := IsTrue (cmdOf line)

instance (line : List Char) : Decidable (IsRequest line) :=
  inferInstanceAs (Decidable (IsTrue _))

/-- A line with one of the three letters. -/
def IsProper (line : List Char) : Prop :=
  cmdOf line = ['a'] ∨ cmdOf line = ['r'] ∨ cmdOf line = ['f']

instance (line : List Char) : Decidable (IsProper line) :=
  inferInstanceAs (Decidable (_ ∨ _))

theorem IsProper.isRequest (proper : IsProper line) : IsRequest line := by
  unfold IsRequest
  rcases proper with same | same | same <;> rw [same] <;> decide

/-- Every id the table knows was allocated, and is a word. -/
structure Sound (hash : Hash) : Prop where
  values : ∀ id, id ∈ hash → hash.value id = ['a']
  words : ∀ id, id ∈ hash → ∀ c ∈ id, isSpace c = false

theorem value_of_notMem (absent : id ∉ hash) : hash.value id = [] := by
  rw [Hash.value, AList.lookup_eq_none.mpr absent]
  rfl

theorem value_insert (hash : Hash) (id cmd other : List Char) :
    Hash.value (hash.insert id cmd) other = if other = id then cmd else hash.value other := by
  by_cases same : other = id
  · subst same
    simp [Hash.value]
  · simp [Hash.value, same, AList.lookup_insert_ne same]

theorem value_erase_of_ne {other : List Char} (different : other ≠ id) :
    Hash.value (hash.erase id) other = hash.value other := by
  rw [Hash.value, AList.lookup_erase_ne different, Hash.value]

/-- What a proper line does when the script does not die of it. -/
inductive Accepts (hash : Hash) (line : List Char) : Hash → Prop
  | alloc : cmdOf line = ['a'] → idOf line ∉ hash → Accepts hash line (hash.insert (idOf line) ['a'])
  | move : cmdOf line = ['r'] → idOf line ∈ hash → Accepts hash line hash
  | free : cmdOf line = ['f'] → idOf line ∈ hash → Accepts hash line (hash.erase (idOf line))

theorem request_ok_iff (sound : Sound hash) (proper : IsProper line) :
    request linenum hash (cmdOf line) (idOf line) = .ok after ↔ Accepts hash line after := by
  by_cases known : idOf line ∈ hash
  · have value := sound.values _ known
    rcases proper with cmd | cmd | cmd
    · constructor
      · intro accepted
        simp [request, cmd, value] at accepted
      · intro accepts
        cases accepts <;> simp_all
    · have holds : request linenum hash (cmdOf line) (idOf line) = .ok hash := by
        simp [request, cmd, value, IsTrue]
      rw [holds, Except.ok.injEq]
      constructor
      · rintro rfl
        exact .move cmd known
      · intro accepts
        cases accepts <;> simp_all
    · have holds : request linenum hash (cmdOf line) (idOf line) =
          .ok (hash.erase (idOf line)) := by
        simp [request, cmd, value, known, negation, IsTrue]
      rw [holds, Except.ok.injEq]
      constructor
      · rintro rfl
        exact .free cmd known
      · intro accepts
        cases accepts <;> simp_all
  · have value := value_of_notMem known
    rcases proper with cmd | cmd | cmd
    · have holds : request linenum hash (cmdOf line) (idOf line) =
          .ok (hash.insert (idOf line) ['a']) := by
        simp [request, cmd, value]
      rw [holds, Except.ok.injEq]
      constructor
      · rintro rfl
        exact .alloc cmd known
      · intro accepts
        cases accepts <;> simp_all
    · constructor
      · intro accepted
        simp [request, cmd, value, IsTrue] at accepted
      · intro accepts
        cases accepts <;> simp_all
    · constructor
      · intro accepted
        simp [request, cmd, known] at accepted
      · intro accepts
        cases accepts <;> simp_all

theorem idOf_word (line : List Char) : ∀ c ∈ idOf line, isSpace c = false ∧ c ∈ line := by
  intro c inside
  rw [idOf, List.getD_eq_getElem?_getD] at inside
  cases found : (words line)[1]? with
  | none =>
      rw [found] at inside
      cases inside
  | some word =>
      rw [found, Option.getD_some] at inside
      exact (mem_words (List.mem_of_getElem? found)).2 c inside

theorem sound_empty : Sound ∅ where
  values := fun id member => absurd member (AList.notMem_empty id)
  words := fun id member => absurd member (AList.notMem_empty id)

theorem Accepts.sound (accepts : Accepts hash line after) (sound : Sound hash) :
    Sound after := by
  cases accepts with
  | alloc _ absent =>
      refine ⟨fun id member => ?_, fun id member => ?_⟩
      · rw [value_insert]
        by_cases same : id = idOf line
        · rw [if_pos same]
        · rw [if_neg same]
          exact sound.values id ((AList.mem_insert _).mp member |>.resolve_left same)
      · rcases (AList.mem_insert _).mp member with rfl | before
        · exact fun c inside => (idOf_word line c inside).1
        · exact sound.words id before
  | move => exact sound
  | free =>
      refine ⟨fun id member => ?_, fun id member => ?_⟩
      · have kept := AList.mem_erase.mp member
        rw [value_erase_of_ne kept.1]
        exact sound.values id kept.2
      · exact sound.words id (AList.mem_erase.mp member).2

/-! ## All lines -/

theorem readLines_ignored (ignored : ¬IsRequest line) :
    readLines linenum hash (line :: lines) = readLines (linenum + 1) hash lines := by
  have empty : ¬IsTrue (cmdOf line) := ignored
  rw [readLines, if_pos empty]

theorem readLines_request (isRequest : IsRequest line) :
    readLines linenum hash (line :: lines) = .ok (after, saved) ↔
      ∃ middle rest, request linenum hash (cmdOf line) (idOf line) = .ok middle ∧
        readLines (linenum + 1) middle lines = .ok (after, rest) ∧ saved = line :: rest := by
  have full : IsTrue (cmdOf line) := isRequest
  rw [readLines, if_neg (not_not.mpr full)]
  cases request linenum hash (cmdOf line) (idOf line) with
  | error death => simp [bind, Except.bind]
  | ok middle =>
      cases later : readLines (linenum + 1) middle lines with
      | error death => simp [bind, Except.bind, later]
      | ok result =>
          rcases result with ⟨final, rest⟩
          simp [bind, Except.bind, later, pure, Except.pure, eq_comm]

/-- The lines that are not ignored are saved. -/
theorem readLines_saved (read : readLines linenum hash lines = .ok (after, saved)) :
    saved = lines.filter fun line => IsRequest line := by
  induction lines generalizing linenum hash saved with
  | nil =>
      cases read
      rfl
  | cons line rest induction =>
      by_cases isRequest : IsRequest line
      · rcases (readLines_request isRequest).mp read with ⟨middle, later, _, readRest, rfl⟩
        rw [List.filter_cons_of_pos (by simpa using isRequest), induction readRest]
      · rw [readLines_ignored isRequest] at read
        rw [List.filter_cons_of_neg (by simpa using isRequest)]
        exact induction read

/-- A line adds at most one id to the table. -/
theorem request_length {cmd : List Char} (done : request linenum hash cmd id = .ok after) :
    after.keys.length ≤ hash.keys.length + 1 := by
  unfold request at done
  split_ifs at done <;> cases done
  · exact Nat.le_succ _
  · rw [AList.keys_erase]
    exact (@List.length_erase_le _ instBEqOfDecidableEq id _).trans (Nat.le_succ _)
  · rw [AList.keys_insert, List.length_cons]
    exact Nat.succ_le_succ (@List.length_erase_le _ instBEqOfDecidableEq id _)

theorem readLines_length (read : readLines linenum hash lines = .ok (after, saved)) :
    after.keys.length ≤ hash.keys.length + saved.length := by
  induction lines generalizing linenum hash saved with
  | nil =>
      cases read
      exact Nat.le_refl _
  | cons line rest induction =>
      by_cases isRequest : IsRequest line
      · rcases (readLines_request isRequest).mp read with ⟨middle, later, accepted, readRest, rfl⟩
        have first := request_length accepted
        have behind := induction readRest
        rw [List.length_cons]
        omega
      · rw [readLines_ignored isRequest] at read
        exact induction read

/-- The lives of an id, from being held or not to being held or not. -/
inductive Lives : Bool → List (List Char) → Bool → Prop
  | nil (held : Bool) : Lives held [] held
  | alloc {first : List Char} {rest : List (List Char)} {final : Bool} :
      cmdOf first = ['a'] → Lives true rest final → Lives false (first :: rest) final
  | move {first : List Char} {rest : List (List Char)} {final : Bool} :
      cmdOf first = ['r'] → Lives true rest final → Lives true (first :: rest) final
  | free {first : List Char} {rest : List (List Char)} {final : Bool} :
      cmdOf first = ['f'] → Lives false rest final → Lives true (first :: rest) final

/-- The lines of one id. -/
def ofId (id : List Char) (lines : List (List Char)) : List (List Char) :=
  lines.filter fun line => idOf line = id

/-- One line adds to the lives of its own id only. -/
theorem Accepts.lives (accepts : Accepts hash line after) {final : Hash}
    (rest : Lives (decide (id ∈ after)) (ofId id lines) (decide (id ∈ final))) :
    Lives (decide (id ∈ hash)) (ofId id (line :: lines)) (decide (id ∈ final)) := by
  by_cases own : idOf line = id
  · subst own
    rw [ofId, List.filter_cons_of_pos (by simp)]
    cases accepts with
    | alloc cmd absent =>
        rw [decide_eq_false absent]
        rw [decide_eq_true ((AList.mem_insert _).mpr (.inl rfl))] at rest
        exact .alloc cmd rest
    | move cmd known =>
        rw [decide_eq_true known] at rest ⊢
        exact .move cmd rest
    | free cmd known =>
        rw [decide_eq_true known]
        rw [decide_eq_false fun member => (AList.mem_erase.mp member).1 rfl] at rest
        exact .free cmd rest
  · rw [ofId, List.filter_cons_of_neg (by simpa using own)]
    have same : id ∈ after ↔ id ∈ hash := by
      cases accepts with
      | alloc => simp [AList.mem_insert, Ne.symm own]
      | move => exact Iff.rfl
      | free => simp [AList.mem_erase, Ne.symm own]
    rwa [decide_eq_decide.mpr same] at rest

/-- Whatever the script accepts, every id lived its lives one after the other. -/
theorem readLines_lives (sound : Sound hash)
    (proper : ∀ line ∈ lines, IsRequest line → IsProper line)
    (read : readLines linenum hash lines = .ok (after, saved)) :
    Sound after ∧ ∀ id, Lives (decide (id ∈ hash)) (ofId id saved) (decide (id ∈ after)) := by
  induction lines generalizing linenum hash saved with
  | nil =>
      cases read
      exact ⟨sound, fun id => .nil _⟩
  | cons line rest induction =>
      rw [List.forall_mem_cons] at proper
      by_cases isRequest : IsRequest line
      · rcases (readLines_request isRequest).mp read with ⟨middle, later, accepted, readRest, rfl⟩
        have accepts := (request_ok_iff sound (proper.1 isRequest)).mp accepted
        rcases induction (accepts.sound sound) proper.2 readRest with ⟨final, lives⟩
        exact ⟨final, fun id => accepts.lives (lives id)⟩
      · rw [readLines_ignored isRequest] at read
        exact induction sound proper.2 read

end MallocLab.Checktrace
