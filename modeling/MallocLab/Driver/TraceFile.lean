import MallocLab.Driver.ReadTrace

/-! # What `read_trace` stores

Which request lines a file holds is a matter of its text alone. The loop stores
them one after the other, and the assertions behind it look at the indices of
`a` and `r` lines only.
-/

namespace MallocLab.Driver

open Program Text

variable {reading opened : Reading} {fuel index : Nat} {text : List Char} {op : OpType}

/-! ## The lines of a file -/

/-- A line of the file: its first word, and the id it leaves in `index`. -/
structure Line where
  type : List Char
  index : Nat
  deriving DecidableEq

/-- The id behind the letter of a request, or the one before where there is no
number, and the text behind the line. -/
def idBehind (op : OpType) (index : Nat) (text : List Char) : Nat × List Char :=
  match readUnsigned text with
  | (none, rest) => (index, rest)
  | (some value, rest) =>
      (value, if op = .free then readLiteral 'd' rest else (readUnsigned rest).2)

/-- The lines of a text, up to the first one that is not a request. -/
def linesOf : Nat → Nat → List Char → List Line
  | 0, _, _ => []
  | fuel + 1, index, text =>
      let text := skipSpace text
      if text = [] then []
      else
        match kind (word text) with
        | none => [⟨word text, index⟩]
        | some op =>
            let behind := idBehind op index (afterWord text)
            ⟨word text, behind.1⟩ :: linesOf fuel behind.1 behind.2

/-- The lines behind the header. -/
def Reading.lines (opened : Reading) : List Line :=
  linesOf (opened.input.length + 1) 0 opened.input

def Line.IsRequest (line : Line) : Prop := kind line.type ≠ none

instance (line : Line) : Decidable line.IsRequest := inferInstanceAs (Decidable (_ ≠ _))

/-- The request lines among the lines. -/
def requests (lines : List Line) : List Line := lines.filter fun line => line.IsRequest

/-- The largest index of the `a` and `r` lines, and at least a given one. -/
def highest (bound : Nat) (lines : List Line) : Nat :=
  (requests lines).foldl (fun bound line =>
    if kind line.type = some .free then bound else max line.index bound) bound

/-! ## One round of the loop -/

/-- What the loop knows once it has read and stored one request. -/
def Reading.next (reading : Reading) (op : OpType) (text : List Char) : Reading :=
  let behind := idBehind op reading.index text
  let size :=
    if op = .free then reading.size
    else
      match readUnsigned text with
      | (none, _) => reading.size
      | (some _, rest) => (readUnsigned rest).1.getD reading.size
  { reading with
    input := behind.2
    index := behind.1
    size := size
    maxIndex := if op = .free then reading.maxIndex else max behind.1 reading.maxIndex
    ops := Function.update reading.ops reading.opIndex
      ⟨op, toInt behind.1,
        if op = .free then (reading.ops reading.opIndex).size else toInt size⟩
    opIndex := reading.opIndex + 1 }

theorem ensures_scan {Value : Type} (convert : List Char → Option Value × List Char)
    (store : Value → Reading → Reading) (goal : Bool → Reading → Prop) :
    Ensures (scan convert store) reading goal ↔
      match convert reading.input with
      | (none, rest) => goal false { reading with input := rest }
      | (some value, rest) => goal true (store value { reading with input := rest }) := by
  rcases outcome : convert reading.input with ⟨value, rest⟩
  cases value <;> simp [scan, outcome]

theorem ensures_readOp (goal : Unit → Reading → Prop) :
    Ensures (do
        readOp op
        change fun reading => { reading with opIndex := reading.opIndex + 1 }) reading goal ↔
      (reading.opIndex : Int) < reading.numOps ∧ goal () (reading.next op reading.input) := by
  have larger : ∀ left right : Nat, (if left > right then left else right) = max left right := by
    intro left right
    split <;> omega
  rcases first : readUnsigned reading.input with ⟨value, rest⟩
  rcases second : readUnsigned rest with ⟨size, behind⟩
  cases op <;> cases value <;> cases size <;>
    simp [readOp, readSized, readFree, scanIndexSize, scanIndex, ensures_scan, setOp,
      Reading.next, idBehind, first, second, larger]

theorem ensures_round (goal : Option Char → Reading → Prop) :
    Ensures (readOps (fuel + 1)) reading goal ↔
      if skipSpace reading.input = [] then goal none { reading with input := [] }
      else
        (word (skipSpace reading.input)).length < maxLine ∧
          match kind (word (skipSpace reading.input)) with
          | none =>
              goal (word (skipSpace reading.input)).head?
                { reading with input := afterWord (skipSpace reading.input) }
          | some op =>
              (reading.opIndex : Int) < reading.numOps ∧
                Ensures (readOps fuel)
                  (reading.next op (afterWord (skipSpace reading.input))) goal := by
  by_cases ended : skipSpace reading.input = []
  · simp [readOps, scanType, ended]
  · simp only [readOps, scanType, ensures_bind, ensures_view, if_neg ended, ensures_require,
      ensures_change, ensures_pure]
    refine and_congr_right fun _ => ?_
    cases kind (word (skipSpace reading.input)) with
    | none => exact ensures_pure _ _ _
    | some op =>
        have stored := @ensures_readOp
          { reading with input := afterWord (skipSpace reading.input) } op
          fun _ => (Ensures (readOps fuel) · goal)
        simp only [ensures_bind] at stored ⊢
        exact stored

/-! ## The loop -/

/-- What a file must not do while it is read: no first word overflows `type`,
and there are not more requests than `ops` has entries. -/
structure Fits (numOps : Int) (stored : Nat) (lines : List Line) : Prop where
  short : ∀ line ∈ lines, line.type.length < maxLine
  few : (stored + (requests lines).length : Int) ≤ numOps

/-- What the loop leaves behind when it read these lines. -/
structure Stores (before : Reading) (lines : List Line) (after : Reading) : Prop where
  numIds : after.numIds = before.numIds
  numOps : after.numOps = before.numOps
  opIndex : after.opIndex = before.opIndex + (requests lines).length
  maxIndex : after.maxIndex = highest before.maxIndex lines
  earlier : ∀ i < before.opIndex, after.ops i = before.ops i
  stored : ∀ i line, (requests lines)[i]? = some line →
    (after.ops (before.opIndex + i)).index = toInt line.index

variable {line : Line} {rest : List Line} {after : Reading} {ended : Option Char}

theorem requests_cons_of_kind (known : kind line.type = some op) :
    requests (line :: rest) = line :: requests rest := by
  have isRequest : line.IsRequest := by simp [Line.IsRequest, known]
  simp [requests, isRequest]

theorem requests_of_bogus (known : kind line.type = none) : requests [line] = [] := by
  have bogus : ¬line.IsRequest := by simp [Line.IsRequest, known]
  simp [requests, bogus]

theorem Stores.nil (text : List Char) : Stores reading [] { reading with input := text } := by
  constructor <;> simp [requests, highest]

theorem Stores.bogus (known : kind line.type = none) (text : List Char) :
    Stores reading [line] { reading with input := text } := by
  constructor <;> simp [requests_of_bogus known, highest]

/-- One request stored in front of the others. -/
theorem Stores.cons (known : kind line.type = some op)
    (id : line.index = (idBehind op reading.index text).1)
    (later : Stores (reading.next op text) rest after) :
    Stores reading (line :: rest) after where
  numIds := later.numIds
  numOps := later.numOps
  opIndex := by
    rw [later.opIndex, requests_cons_of_kind known, List.length_cons]
    simp only [Reading.next]
    omega
  maxIndex := by
    rw [later.maxIndex, highest, highest, requests_cons_of_kind known, List.foldl_cons, known, id]
    simp [Reading.next]
  earlier := by
    intro i before
    rw [later.earlier i (Nat.lt_succ_of_lt before)]
    exact Function.update_of_ne before.ne _ _
  stored := by
    intro i other found
    rw [requests_cons_of_kind known] at found
    cases i with
    | zero =>
        rw [List.getElem?_cons_zero, Option.some.injEq] at found
        rw [Nat.add_zero, later.earlier _ (Nat.lt_succ_self _), ← found, id]
        simp [Reading.next]
    | succ i =>
        rw [List.getElem?_cons_succ] at found
        have stored := later.stored i other found
        rwa [show reading.opIndex + (i + 1) = (reading.next op text).opIndex + i by
          simp only [Reading.next]
          omega]

theorem Fits.cons_iff (known : kind line.type = some op) {numOps : Int} {stored : Nat} :
    Fits numOps stored (line :: rest) ↔
      line.type.length < maxLine ∧ (stored : Int) < numOps ∧ Fits numOps (stored + 1) rest := by
  have count : (requests (line :: rest)).length = (requests rest).length + 1 := by
    rw [requests_cons_of_kind known, List.length_cons]
  constructor
  · rintro ⟨short, few⟩
    rw [count] at few
    refine ⟨short line List.mem_cons_self, by omega, ?_, by omega⟩
    exact fun other member => short other (List.mem_cons_of_mem _ member)
  · rintro ⟨first, bounded, short, few⟩
    refine ⟨List.forall_mem_cons.mpr ⟨first, short⟩, ?_⟩
    rw [count]
    omega

/-- When the loop comes to an end, the file fitted and its requests are stored. -/
theorem readOps_stores (outcome : readOps fuel reading = some (ended, after))
    (bounded : (reading.opIndex : Int) ≤ reading.numOps) :
    Fits reading.numOps reading.opIndex (linesOf fuel reading.index reading.input) ∧
      (ended = none ↔ ∀ line ∈ linesOf fuel reading.index reading.input, line.IsRequest) ∧
      Stores reading (linesOf fuel reading.index reading.input) after := by
  induction fuel generalizing reading with
  | zero => cases outcome
  | succ fuel induction =>
      have ensured : Ensures (readOps (fuel + 1)) reading fun value final =>
          value = ended ∧ final = after := ⟨_, _, outcome, rfl, rfl⟩
      rw [ensures_round] at ensured
      rw [linesOf]
      by_cases atEnd : skipSpace reading.input = []
      · rw [if_pos atEnd] at ensured
        rcases ensured with ⟨rfl, rfl⟩
        simp only [if_pos atEnd]
        exact ⟨⟨by simp, by simpa [requests] using bounded⟩, by simp, .nil _⟩
      · rw [if_neg atEnd] at ensured
        rcases ensured with ⟨short, ensured⟩
        simp only [if_neg atEnd]
        cases known : kind (word (skipSpace reading.input)) with
        | none =>
            rw [known] at ensured
            rcases ensured with ⟨rfl, rfl⟩
            have line : kind (Line.mk (word (skipSpace reading.input)) reading.index).type = none :=
              known
            refine ⟨⟨by simpa using short, ?_⟩, ?_, .bogus line _⟩
            · simpa [requests_of_bogus line] using bounded
            · simp [List.head?_eq_none_iff, word_ne_nil atEnd, Line.IsRequest, known]
        | some op =>
            rw [known] at ensured
            rcases ensured with ⟨room, value, final, later, rfl, rfl⟩
            rcases induction later (Int.add_one_le_of_lt room) with ⟨fits, verdict, stores⟩
            refine ⟨(Fits.cons_iff known).mpr ⟨short, room, fits⟩, ?_, stores.cons known rfl⟩
            rw [verdict, List.forall_mem_cons]
            simp [Line.IsRequest, known, Reading.next]

theorem length_readUnsigned_le (text : List Char) :
    (readUnsigned text).2.length ≤ text.length := by
  have skipped := length_skipSpace_le text
  have signed := length_sign_le (skipSpace text)
  have read := length_afterDigits_le (sign (skipSpace text)).2
  unfold readUnsigned
  simp only
  split <;> simp only <;> omega

theorem length_readLiteral_le (literal : Char) (text : List Char) :
    (readLiteral literal text).length ≤ text.length := by
  cases text with
  | nil => exact Nat.le_refl _
  | cons c rest =>
      rw [readLiteral]
      split
      · exact Nat.le_succ _
      · exact Nat.le_refl _

theorem length_idBehind_le (op : OpType) (index : Nat) (text : List Char) :
    (idBehind op index text).2.length ≤ text.length := by
  have first := length_readUnsigned_le text
  rcases outcome : readUnsigned text with ⟨value, rest⟩
  rw [outcome] at first
  cases value with
  | none =>
      rw [idBehind, outcome]
      exact first
  | some value =>
      rw [idBehind, outcome]
      simp only at first ⊢
      split
      · exact (length_readLiteral_le _ _).trans first
      · exact (length_readUnsigned_le _).trans first

/-- A file that fits is read to its end. -/
theorem readOps_ends (enough : reading.input.length < fuel)
    (fits : Fits reading.numOps reading.opIndex (linesOf fuel reading.index reading.input)) :
    Ensures (readOps fuel) reading fun _ _ => True := by
  induction fuel generalizing reading with
  | zero => exact absurd enough (Nat.not_lt_zero _)
  | succ fuel induction =>
      rw [ensures_round]
      rw [linesOf] at fits
      by_cases atEnd : skipSpace reading.input = []
      · rw [if_pos atEnd]
        trivial
      · simp only [if_neg atEnd] at fits ⊢
        cases known : kind (word (skipSpace reading.input)) with
        | none =>
            rw [known] at fits
            exact ⟨fits.short _ List.mem_cons_self, trivial⟩
        | some op =>
            rw [known] at fits
            rcases (Fits.cons_iff known).mp fits with ⟨short, room, later⟩
            refine ⟨short, room, induction ?_ later⟩
            have shorter := length_afterWord_lt atEnd
            have behind := length_idBehind_le op reading.index
              (afterWord (skipSpace reading.input))
            simp only [Reading.next]
            omega

/-! ## `read_trace` -/

/-- What is to hold of a trace that `read_trace` returned: as many requests
were stored as the header says, and their ids index the blocks. -/
structure InRange (after : Reading) : Prop where
  count : (after.opIndex : Int) = after.numOps
  ids : ∀ i < after.opIndex, 0 ≤ (after.ops i).index ∧ (after.ops i).index < after.numIds

/-- Both assertions hold of the lines of a file. -/
def Accepted (opened : Reading) : Prop :=
  (∀ line ∈ opened.lines, line.IsRequest) ∧
    (highest 0 opened.lines : Int) = opened.numIds - 1 ∧
    ((requests opened.lines).length : Int) = opened.numOps

/-- The files that `read_trace` reads as it should. Nothing else looks at the
ids of `f` lines. -/
structure Bounded (opened : Reading) : Prop where
  fits : Fits opened.numOps 0 opened.lines
  frees : Accepted opened → ∀ line ∈ opened.lines, kind line.type = some .free →
    (line.index : Int) < opened.numIds

section Accepted

variable {lines : List Line}

theorem readUnsigned_lt {value : Nat} {rest : List Char}
    (read : readUnsigned text = (some value, rest)) : value < 2 ^ 32 := by
  unfold readUnsigned at read
  simp only at read
  split at read
  · cases read
  · simp only [Prod.mk.injEq, Option.some.injEq] at read
    have converted := toSizeT_lt (-(number (digits (sign (skipSpace text)).2) : Int))
    rw [← read.1]
    split
    · decide
    · split <;> omega

theorem idBehind_lt (op : OpType) (text : List Char) (small : index < 2 ^ 32) :
    (idBehind op index text).1 < 2 ^ 32 := by
  rcases outcome : readUnsigned text with ⟨value, rest⟩
  cases value with
  | none =>
      rw [idBehind, outcome]
      exact small
  | some value =>
      rw [idBehind, outcome]
      exact readUnsigned_lt outcome

/-- The ids are values of an `unsigned`. -/
theorem linesOf_index_lt (small : index < 2 ^ 32) :
    ∀ line ∈ linesOf fuel index text, line.index < 2 ^ 32 := by
  induction fuel generalizing index text with
  | zero => simp [linesOf]
  | succ fuel induction =>
      rw [linesOf]
      by_cases atEnd : skipSpace text = []
      · simp [atEnd]
      · simp only [if_neg atEnd]
        cases kind (word (skipSpace text)) with
        | none => simpa using small
        | some op =>
            have behind := idBehind_lt op (afterWord (skipSpace text)) small
            exact List.forall_mem_cons.mpr ⟨behind, induction behind⟩

theorem mem_requests : line ∈ requests lines ↔ line ∈ lines ∧ line.IsRequest := by
  simp [requests]

/-- The indices of `a` and `r` lines count for the largest one. -/
theorem index_le_highest {bound : Nat} (member : line ∈ lines) (isRequest : line.IsRequest)
    (sized : kind line.type ≠ some .free) : line.index ≤ highest bound lines := by
  have grows : ∀ (rest : List Line) (bound : Nat), bound ≤ rest.foldl (fun bound line =>
      if kind line.type = some .free then bound else max line.index bound) bound := by
    intro rest
    induction rest with
    | nil => exact fun bound => Nat.le_refl bound
    | cons other rest induction =>
        intro bound
        refine le_trans ?_ (induction _)
        change bound ≤ ite _ _ _
        split
        · exact Nat.le_refl _
        · exact Nat.le_max_right _ _
  rcases List.append_of_mem (mem_requests.mpr ⟨member, isRequest⟩) with ⟨front, back, shape⟩
  rw [highest, shape, List.foldl_append, List.foldl_cons, if_neg sized]
  exact (Nat.le_max_left _ _).trans (grows back _)

/-- An id read as an `int` is in range exactly when it was in range before. -/
theorem toInt_inRange_iff {id : Nat} {numIds : Int} (word : id < 2 ^ 32)
    (isInt : numIds < 2147483648) :
    (0 ≤ toInt id ∧ toInt id < numIds) ↔ (id : Int) < numIds := by
  by_cases small : id < 2147483648
  · rw [toInt_of_lt small]
    omega
  · have negative := toInt_neg (not_lt.mp small) word
    omega

end Accepted

section

variable {start header : Reading}

/-- The variables of the loop before its first round. -/
def Reading.looping (header : Reading) : Reading :=
  { header with maxIndex := 0, index := 0, opIndex := 0 }

theorem ensures_readTrace (begun : readHeader start = some ((), header))
    (goal : ReadOutcome → Reading → Prop) :
    Ensures readTrace start goal ↔
      Ensures (readOps (header.input.length + 1)) header.looping fun ended after =>
        goal (match ended with
          | some c => .bogusType c
          | none =>
              if after.maxIndex ≠ toSizeT (after.numIds - 1) then .assertionFailed
              else if toSizeT after.numOps ≠ after.opIndex then .assertionFailed
              else .returned) after := by
  rw [readTrace, ensures_bind_of_eq begun]
  simp only [ensures_bind, ensures_change, ensures_view]
  refine exists_congr fun ended => exists_congr fun after => and_congr_right fun _ => ?_
  cases ended with
  | some c => exact ensures_pure _ _ _
  | none =>
      simp only [ensures_bind, ensures_view, id_eq]
      split
      · exact ensures_pure _ _ _
      · split
        · exact ensures_pure _ _ _
        · exact ensures_pure _ _ _

/-- The assertions of `read_trace` on what the loop left behind. -/
theorem asserted_iff (ids : 1 ≤ header.numIds) (idsInt : header.numIds < 2147483648)
    (count : 0 ≤ header.numOps) (countInt : header.numOps < 2147483648) {after : Reading}
    (stores : Stores header.looping header.lines after) :
    (after.maxIndex = toSizeT (after.numIds - 1) ∧ toSizeT after.numOps = after.opIndex) ↔
      (highest 0 header.lines : Int) = header.numIds - 1 ∧
        ((requests header.lines).length : Int) = header.numOps := by
  have sameIds : after.numIds = header.numIds := stores.numIds
  have sameOps : after.numOps = header.numOps := stores.numOps
  have stored : after.opIndex = 0 + (requests header.lines).length := stores.opIndex
  have top : after.maxIndex = highest 0 header.lines := stores.maxIndex
  rw [sameIds, sameOps, stored, top, toSizeT_of_lt (by omega) (by omega),
    toSizeT_of_lt count (by omega)]
  omega

/-- What was stored is in range if and only if the lines of the file are. -/
theorem inRange_iff (idsInt : header.numIds < 2147483648) {after : Reading}
    (stores : Stores header.looping header.lines after)
    (count : ((requests header.lines).length : Int) = header.numOps) :
    InRange after ↔ ∀ line ∈ requests header.lines, (line.index : Int) < header.numIds := by
  have sameIds : after.numIds = header.numIds := stores.numIds
  have sameOps : after.numOps = header.numOps := stores.numOps
  have length : after.opIndex = (requests header.lines).length := by
    rw [stores.opIndex]
    exact Nat.zero_add _
  have words : ∀ line ∈ requests header.lines, line.index < 2 ^ 32 := fun line member =>
    linesOf_index_lt (by decide) line (mem_requests.mp member).1
  have stored : ∀ i line, (requests header.lines)[i]? = some line →
      (after.ops i).index = toInt line.index := by
    intro i line found
    have kept := stores.stored i line found
    rwa [show header.looping.opIndex + i = i from Nat.zero_add i] at kept
  constructor
  · intro inRange line member
    rcases List.getElem?_of_mem member with ⟨i, found⟩
    rcases List.getElem?_eq_some_iff.mp found with ⟨below, _⟩
    have bounds := inRange.ids i (by omega)
    rw [stored i line found, sameIds] at bounds
    exact (toInt_inRange_iff (words line member) idsInt).mp bounds
  · intro bounded
    refine ⟨by rw [sameOps, length, count], fun i below => ?_⟩
    rw [length] at below
    have found := List.getElem?_eq_getElem below
    have member := List.getElem_mem below
    rw [stored i _ found, sameIds]
    exact (toInt_inRange_iff (words _ member) idsInt).mpr (bounded _ member)

/-- For any file whose header is proper, `read_trace` stays inside `ops` and
returns as many requests as the header says, with ids that index the blocks, if
and only if the file is bounded. -/
theorem read_trace_in_range (begun : readHeader start = some ((), header))
    (ids : 1 ≤ header.numIds) (idsInt : header.numIds < 2147483648)
    (count : 0 ≤ header.numOps) (countInt : header.numOps < 2147483648) :
    Ensures readTrace start (fun outcome after => outcome = .returned → InRange after) ↔
      Bounded header := by
  rw [ensures_readTrace begun]
  constructor
  · rintro ⟨ended, after, looped, holds⟩
    rcases readOps_stores looped count with ⟨fits, verdict, stores⟩
    refine ⟨fits, fun accepted line member free => ?_⟩
    have asserted := (asserted_iff ids idsInt count countInt stores).mpr accepted.2
    rw [verdict.mpr accepted.1] at holds
    simp only [asserted.1, asserted.2, ne_eq, not_true_eq_false, if_false] at holds
    exact (inRange_iff idsInt stores accepted.2.2).mp (holds trivial) line
      (mem_requests.mpr ⟨member, accepted.1 line member⟩)
  · intro bounded
    have ends : Ensures (readOps (header.input.length + 1)) header.looping fun _ _ => True :=
      readOps_ends (Nat.lt_succ_self _) bounded.fits
    rcases ends with ⟨ended, after, looped, _⟩
    rcases readOps_stores looped count with ⟨_, verdict, stores⟩
    refine ⟨ended, after, looped, fun returned => ?_⟩
    cases ended with
    | some c => cases returned
    | none =>
        simp only at returned
        split at returned
        · cases returned
        · rename_i first
          split at returned
          · cases returned
          · rename_i second
            have asserted := (asserted_iff ids idsInt count countInt stores).mp
              ⟨not_not.mp first, not_not.mp second⟩
            have accepted : Accepted header := ⟨verdict.mp rfl, asserted⟩
            rw [inRange_iff idsInt stores asserted.2]
            intro line member
            have member := mem_requests.mp member
            by_cases free : kind line.type = some .free
            · exact bounded.frees accepted line member.1 free
            · have below : line.index ≤ highest 0 header.lines :=
                index_le_highest member.1 member.2 free
              have top := asserted.1
              omega

end

/-- A file that was opened, and everything else zero. -/
def opening (text : List Char) : Reading := ⟨text, 0, 0, fun _ => ⟨.alloc, 0, 0⟩, 0, 0, 0, 0⟩

/-- The header of one id and two requests. -/
def twoRequests : List Char := ['0', '\n', '1', '\n', '2', '\n', '1']

/-- One block, allocated and given up. -/
def allocFree : List Char :=
  ['\n', 'a', ' ', '0', ' ', '8', '\n', 'f', ' ', '0', '\n']

/-- One block is allocated, and one that does not exist is given up. -/
def freeUnknown : List Char :=
  ['\n', 'a', ' ', '0', ' ', '8', '\n', 'f', ' ', '5', '\n']

theorem read_trace_in_range_alloc_free :
    Ensures readTrace (opening (twoRequests ++ allocFree))
        (fun outcome after => outcome = .returned → InRange after) ↔
      Bounded { opening allocFree with numIds := 1, numOps := 2 } := by
  have begun : readHeader (opening (twoRequests ++ allocFree)) =
      some ((), { opening allocFree with numIds := 1, numOps := 2 }) := by rfl
  exact read_trace_in_range begun (by decide) (by decide) (by decide) (by decide)

/-- No assertion looks at the id of an `f` line. -/
theorem free_out_of_range : ∃ header,
    readHeader (opening (twoRequests ++ freeUnknown)) = some ((), header) ∧
      header.numIds = 1 ∧ header.numOps = 2 ∧
      ¬Ensures readTrace (opening (twoRequests ++ freeUnknown))
        fun outcome after => outcome = .returned → InRange after := by
  have begun : readHeader (opening (twoRequests ++ freeUnknown)) =
      some ((), { opening freeUnknown with numIds := 1, numOps := 2 }) := by rfl
  refine ⟨_, begun, rfl, rfl, ?_⟩
  rintro ⟨outcome, after, run, holds⟩
  have returned : (readTrace (opening (twoRequests ++ freeUnknown))).map
      (fun result => (result.1, (result.2.ops 1).index, result.2.opIndex, result.2.numIds)) =
        some (.returned, 5, 2, 1) := by
    decide +kernel
  simp only [run, Option.map_some, Option.some.injEq, Prod.mk.injEq] at returned
  rcases returned with ⟨ended, index, count, ids⟩
  have inRange := (holds ended).ids 1 (by omega)
  omega

end MallocLab.Driver
