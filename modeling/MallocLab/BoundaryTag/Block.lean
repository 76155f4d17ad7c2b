import Mathlib.Data.List.Chain
import Mathlib.Data.List.DropRight
import Mathlib.Data.List.Nodup
import Mathlib.Data.List.Perm.Basic

/-! # Blocks in address order

A heap with boundary tags is a sequence of adjacent blocks. A block occupies
`size` bytes from its header on; its payload lies between the four-byte header
and the four-byte footer. Positions are computed by walking the sequence from
the address of the first header, the cursor.
-/

namespace MallocLab

/-- What a block is used for. A sentinel is marked allocated and belongs to
the allocator itself. -/
inductive Usage
  | free
  | live (request : Nat)
  | sentinel
  deriving DecidableEq, Repr

/-- The smallest block for a usage: two tags around two links when it is free,
around the requested bytes when it is live. -/
def Usage.room : Usage → Nat
  | .free => 16
  | .live request => max 16 (request + 8)
  | .sentinel => 8

structure Block where
  size : Nat
  usage : Usage
  aligned : size % 8 = 0
  fits : usage.room ≤ size
  deriving DecidableEq

namespace Block

def isFree (block : Block) : Bool :=
  match block.usage with
  | .free => true
  | _ => false

/-- The request a live block was made for. -/
def request? (block : Block) : Option Nat :=
  match block.usage with
  | .live request => some request
  | _ => none

@[ext] theorem ext {left right : Block} (size : left.size = right.size)
    (usage : left.usage = right.usage) : left = right := by
  cases left
  cases right
  cases size
  cases usage
  rfl

theorem size_ge (block : Block) : 8 ≤ block.size := by
  have fits := block.fits
  cases usage : block.usage <;> simp only [usage, Usage.room] at fits <;> omega

theorem isFree_iff {block : Block} : block.isFree = true ↔ block.usage = .free := by
  cases usage : block.usage <;> simp [isFree, usage]

theorem request?_eq_some {block : Block} {request : Nat} :
    block.request? = some request ↔ block.usage = .live request := by
  cases usage : block.usage <;> simp [request?, usage]

theorem size_ge_of_isFree {block : Block} (free : block.isFree = true) :
    16 ≤ block.size := by
  have fits := block.fits
  rw [isFree_iff.mp free] at fits
  exact fits

theorem size_ge_of_live {block : Block} {request : Nat}
    (live : block.request? = some request) : 16 ≤ block.size ∧ request + 8 ≤ block.size := by
  have fits := block.fits
  rw [request?_eq_some.mp live] at fits
  exact ⟨(Nat.le_max_left _ _).trans fits, (Nat.le_max_right _ _).trans fits⟩

theorem request?_of_isFree {block : Block} (free : block.isFree = true) :
    block.request? = none := by
  simp [request?, isFree_iff.mp free]

theorem isFree_of_live {block : Block} {request : Nat}
    (live : block.request? = some request) : block.isFree = false := by
  cases free : block.isFree with
  | false => rfl
  | true =>
      rw [request?_of_isFree free] at live
      cases live

/-- A free block of a given size. -/
def ofFree (size : Nat) (aligned : size % 8 = 0) (large : 16 ≤ size) : Block :=
  ⟨size, .free, aligned, large⟩

/-- A live block of a given size. -/
def ofLive (size request : Nat) (aligned : size % 8 = 0) (large : 16 ≤ size)
    (fits : request + 8 ≤ size) : Block :=
  ⟨size, .live request, aligned, Nat.max_le.mpr ⟨large, fits⟩⟩

end Block

namespace Blocks

/-- The bytes a sequence of blocks occupies. -/
def total : List Block → Nat
  | [] => 0
  | block :: rest => block.size + total rest

@[simp] theorem total_nil : total [] = 0 := rfl

@[simp] theorem total_cons (block : Block) (rest : List Block) :
    total (block :: rest) = block.size + total rest := rfl

@[simp] theorem total_append (front back : List Block) :
    total (front ++ back) = total front + total back := by
  induction front with
  | nil => simp
  | cons head front induction => simp [induction, Nat.add_assoc]

theorem total_aligned (blocks : List Block) : total blocks % 8 = 0 := by
  induction blocks with
  | nil => rfl
  | cons head blocks induction =>
      have aligned := head.aligned
      simp only [total_cons]
      omega

theorem size_le_total {block : Block} {blocks : List Block} (member : block ∈ blocks) :
    block.size ≤ total blocks := by
  obtain ⟨front, back, rfl⟩ := List.append_of_mem member
  simp only [total_append, total_cons]
  omega

/-- The payload addresses of the blocks, with the blocks. -/
def spots : Nat → List Block → List (Nat × Block)
  | _, [] => []
  | cursor, block :: rest => (cursor + 4, block) :: spots (cursor + block.size) rest

@[simp] theorem spots_nil (cursor : Nat) : spots cursor [] = [] := rfl

@[simp] theorem spots_cons (cursor : Nat) (block : Block) (rest : List Block) :
    spots cursor (block :: rest) =
      (cursor + 4, block) :: spots (cursor + block.size) rest := rfl

@[simp] theorem spots_append (cursor : Nat) (front back : List Block) :
    spots cursor (front ++ back) =
      spots cursor front ++ spots (cursor + total front) back := by
  induction front generalizing cursor with
  | nil => simp
  | cons head front induction => simp [induction, Nat.add_assoc]

/-- A block is found by cutting the sequence in front of it. -/
theorem mem_spots {cursor address : Nat} {block : Block} {blocks : List Block} :
    (address, block) ∈ spots cursor blocks ↔
      ∃ front back, blocks = front ++ block :: back ∧
        address = cursor + total front + 4 := by
  constructor
  · intro member
    induction blocks generalizing cursor with
    | nil => simp at member
    | cons head blocks induction =>
        rcases List.mem_cons.mp member with equal | later
        · cases equal
          exact ⟨[], blocks, by simp, by simp⟩
        · rcases induction later with ⟨front, back, rfl, rfl⟩
          exact ⟨head :: front, back, by simp, by simp only [total_cons]; omega⟩
  · rintro ⟨front, back, rfl, rfl⟩
    simp

theorem spot_bounds {cursor address : Nat} {block : Block} {blocks : List Block}
    (member : (address, block) ∈ spots cursor blocks) :
    cursor + 4 ≤ address ∧ address + block.size ≤ cursor + total blocks + 4 := by
  rcases mem_spots.mp member with ⟨front, back, rfl, rfl⟩
  simp only [total_append, total_cons]
  omega

theorem spot_aligned {cursor address : Nat} {block : Block} {blocks : List Block}
    (aligned : cursor % 8 = 4) (member : (address, block) ∈ spots cursor blocks) :
    address % 8 = 0 := by
  rcases mem_spots.mp member with ⟨front, back, rfl, rfl⟩
  have whole := total_aligned front
  omega

/-- Payload addresses increase along the sequence. -/
theorem spots_sorted (cursor : Nat) (blocks : List Block) :
    ((spots cursor blocks).map Prod.fst).Pairwise (· < ·) := by
  induction blocks generalizing cursor with
  | nil => simp
  | cons head blocks induction =>
      rw [spots_cons, List.map_cons]
      apply List.Pairwise.cons
      · intro address member
        obtain ⟨⟨other, block⟩, inside, rfl⟩ := List.mem_map.mp member
        have bounds := spot_bounds inside
        have positive := head.size_ge
        simp only
        omega
      · exact induction _

/-- At most one block has a given payload address. -/
theorem spot_unique {cursor address : Nat} {left right : Block} {blocks : List Block}
    (leftMember : (address, left) ∈ spots cursor blocks)
    (rightMember : (address, right) ∈ spots cursor blocks) : left = right := by
  induction blocks generalizing cursor with
  | nil => simp at leftMember
  | cons head blocks induction =>
      have positive := head.size_ge
      rcases List.mem_cons.mp leftMember with equalLeft | leftLater <;>
        rcases List.mem_cons.mp rightMember with equalRight | rightLater
      · cases equalLeft
        cases equalRight
        rfl
      · cases equalLeft
        have bounds := spot_bounds rightLater
        omega
      · cases equalRight
        have bounds := spot_bounds leftLater
        omega
      · exact induction leftLater rightLater

/-- Two blocks of a sequence are equal or lie apart. -/
theorem spots_apart {cursor first second : Nat} {left right : Block}
    {blocks : List Block} (leftMember : (first, left) ∈ spots cursor blocks)
    (rightMember : (second, right) ∈ spots cursor blocks) (distinct : first ≠ second) :
    first + left.size ≤ second ∨ second + right.size ≤ first := by
  induction blocks generalizing cursor with
  | nil => simp at leftMember
  | cons head blocks induction =>
      rcases List.mem_cons.mp leftMember with equalLeft | leftLater <;>
        rcases List.mem_cons.mp rightMember with equalRight | rightLater
      · cases equalLeft
        cases equalRight
        exact absurd rfl distinct
      · cases equalLeft
        have bounds := spot_bounds rightLater
        omega
      · cases equalRight
        have bounds := spot_bounds leftLater
        omega
      · exact induction leftLater rightLater

/-! ## Free and live blocks -/

/-- The payload addresses of the free blocks, with their sizes. -/
def freeSpots (cursor : Nat) (blocks : List Block) : List (Nat × Nat) :=
  (spots cursor blocks).filterMap fun spot =>
    if spot.2.isFree then some (spot.1, spot.2.size) else none

/-- The payload addresses of the live blocks, with their requests. -/
def liveSpots (cursor : Nat) (blocks : List Block) : List (Nat × Nat) :=
  (spots cursor blocks).filterMap fun spot => spot.2.request?.map fun request =>
    (spot.1, request)

@[simp] theorem freeSpots_nil (cursor : Nat) : freeSpots cursor [] = [] := rfl

@[simp] theorem liveSpots_nil (cursor : Nat) : liveSpots cursor [] = [] := rfl

@[simp] theorem freeSpots_append (cursor : Nat) (front back : List Block) :
    freeSpots cursor (front ++ back) =
      freeSpots cursor front ++ freeSpots (cursor + total front) back := by
  simp [freeSpots]

@[simp] theorem liveSpots_append (cursor : Nat) (front back : List Block) :
    liveSpots cursor (front ++ back) =
      liveSpots cursor front ++ liveSpots (cursor + total front) back := by
  simp [liveSpots]

theorem freeSpots_cons_of_isFree (cursor : Nat) {block : Block} (rest : List Block)
    (free : block.isFree = true) :
    freeSpots cursor (block :: rest) =
      (cursor + 4, block.size) :: freeSpots (cursor + block.size) rest := by
  simp [freeSpots, free]

theorem freeSpots_cons_of_not_isFree (cursor : Nat) {block : Block} (rest : List Block)
    (used : block.isFree = false) :
    freeSpots cursor (block :: rest) = freeSpots (cursor + block.size) rest := by
  simp [freeSpots, used]

theorem liveSpots_cons_of_live (cursor : Nat) {block : Block} {request : Nat}
    (rest : List Block) (live : block.request? = some request) :
    liveSpots cursor (block :: rest) =
      (cursor + 4, request) :: liveSpots (cursor + block.size) rest := by
  simp [liveSpots, live]

theorem liveSpots_cons_of_not_live (cursor : Nat) {block : Block} (rest : List Block)
    (idle : block.request? = none) :
    liveSpots cursor (block :: rest) = liveSpots (cursor + block.size) rest := by
  simp [liveSpots, idle]

theorem mem_freeSpots {cursor address size : Nat} {blocks : List Block} :
    (address, size) ∈ freeSpots cursor blocks ↔
      ∃ block, (address, block) ∈ spots cursor blocks ∧ block.isFree = true ∧
        block.size = size := by
  simp only [freeSpots, List.mem_filterMap, Option.ite_none_right_eq_some,
    Option.some.injEq, Prod.mk.injEq, Prod.exists]
  constructor
  · rintro ⟨_, block, member, free, rfl, size⟩
    exact ⟨block, member, free, size⟩
  · rintro ⟨block, member, free, size⟩
    exact ⟨address, block, member, free, rfl, size⟩

theorem mem_liveSpots {cursor address request : Nat} {blocks : List Block} :
    (address, request) ∈ liveSpots cursor blocks ↔
      ∃ block, (address, block) ∈ spots cursor blocks ∧
        block.request? = some request := by
  simp only [liveSpots, List.mem_filterMap, Option.map_eq_some_iff, Prod.mk.injEq,
    Prod.exists]
  constructor
  · rintro ⟨_, block, member, _, live, rfl, rfl⟩
    exact ⟨block, member, live⟩
  · rintro ⟨block, member, live⟩
    exact ⟨address, block, member, request, live, rfl, rfl⟩

theorem freeSpots_sublist (cursor : Nat) (blocks : List Block) :
    ((freeSpots cursor blocks).map Prod.fst).Sublist
      ((spots cursor blocks).map Prod.fst) := by
  induction blocks generalizing cursor with
  | nil => simp
  | cons head blocks induction =>
      cases free : head.isFree with
      | true =>
          rw [freeSpots_cons_of_isFree cursor blocks free]
          exact (induction _).cons_cons _
      | false =>
          rw [freeSpots_cons_of_not_isFree cursor blocks free]
          exact (induction _).cons _

/-- There are no more free blocks than bytes. -/
theorem freeSpots_length (cursor : Nat) (blocks : List Block) :
    (freeSpots cursor blocks).length ≤ total blocks := by
  induction blocks generalizing cursor with
  | nil => simp
  | cons head blocks induction =>
      have later := induction (cursor + head.size)
      have positive := head.size_ge
      cases free : head.isFree with
      | true =>
          rw [freeSpots_cons_of_isFree cursor blocks free, List.length_cons, total_cons]
          omega
      | false =>
          rw [freeSpots_cons_of_not_isFree cursor blocks free, total_cons]
          omega

/-- No two live blocks have the same address. -/
theorem liveSpots_nodup (cursor : Nat) (blocks : List Block) :
    ((liveSpots cursor blocks).map Prod.fst).Nodup := by
  refine ((spots_sorted cursor blocks).imp Nat.ne_of_lt).sublist ?_
  induction blocks generalizing cursor with
  | nil => simp
  | cons head blocks induction =>
      cases live : head.request? with
      | none =>
          rw [liveSpots_cons_of_not_live cursor blocks live]
          exact (induction _).cons _
      | some request =>
          rw [liveSpots_cons_of_live cursor blocks live]
          exact (induction _).cons_cons _

/-! ## Payloads -/

/-- An address lies in the payload of one of the blocks a predicate selects. -/
def InPayload (select : Block → Prop) : Nat → List Block → Nat → Prop
  | _, [], _ => False
  | cursor, block :: rest, address =>
      (select block ∧ cursor + 4 ≤ address ∧ address + 4 < cursor + block.size) ∨
        InPayload select (cursor + block.size) rest address

/-- Payloads of every block. -/
abbrev InAnyPayload : Nat → List Block → Nat → Prop := InPayload fun _ => True

/-- Payloads of live blocks. -/
abbrev InLivePayload : Nat → List Block → Nat → Prop :=
  InPayload fun block => block.request?.isSome

variable {select : Block → Prop}

theorem inPayload_append {cursor address : Nat} {front back : List Block} :
    InPayload select cursor (front ++ back) address ↔
      InPayload select cursor front address ∨
        InPayload select (cursor + total front) back address := by
  induction front generalizing cursor with
  | nil => simp [InPayload]
  | cons head front induction =>
      simp only [List.cons_append, InPayload, total_cons]
      rw [induction, or_assoc, Nat.add_assoc]

theorem inPayload_iff {cursor address : Nat} {blocks : List Block} :
    InPayload select cursor blocks address ↔
      ∃ spot block, (spot, block) ∈ spots cursor blocks ∧ select block ∧
        spot ≤ address ∧ address + 8 < spot + block.size := by
  induction blocks generalizing cursor with
  | nil => simp [InPayload]
  | cons head blocks induction =>
      simp only [InPayload, spots_cons, List.mem_cons, Prod.mk.injEq]
      rw [induction]
      constructor
      · rintro (⟨selected, low, high⟩ | ⟨spot, block, member, rest⟩)
        · exact ⟨cursor + 4, head, .inl ⟨rfl, rfl⟩, selected, low, by omega⟩
        · exact ⟨spot, block, .inr member, rest⟩
      · rintro ⟨spot, block, ⟨rfl, rfl⟩ | member, selected, low, high⟩
        · exact .inl ⟨selected, low, by omega⟩
        · exact .inr ⟨spot, block, member, selected, low, high⟩

theorem inPayload_bounds {cursor address : Nat} {blocks : List Block}
    (inside : InPayload select cursor blocks address) :
    cursor + 4 ≤ address ∧ address + 4 < cursor + total blocks := by
  rcases inPayload_iff.mp inside with ⟨spot, block, member, _, low, high⟩
  have bounds := spot_bounds member
  omega

theorem InPayload.mono {weaker : Block → Prop} {cursor address : Nat}
    {blocks : List Block} (inside : InPayload select cursor blocks address)
    (implies : ∀ block, select block → weaker block) :
    InPayload weaker cursor blocks address := by
  rcases inPayload_iff.mp inside with ⟨spot, block, member, selected, bounds⟩
  exact inPayload_iff.mpr ⟨spot, block, member, implies block selected, bounds⟩

/-- Exchanging blocks that are no client's takes no payload from a live one. -/
theorem inLivePayload_exchange {cursor address : Nat} {front middle replaced back : List Block}
    (idle : ∀ block ∈ middle, block.request? = none)
    (sameTotal : total replaced = total middle)
    (inside : InLivePayload cursor (front ++ (middle ++ back)) address) :
    InLivePayload cursor (front ++ (replaced ++ back)) address := by
  simp only [inPayload_append, sameTotal] at inside ⊢
  rcases inside with inFront | inMiddle | inBack
  · exact .inl inFront
  · rcases inPayload_iff.mp inMiddle with ⟨spot, block, member, live, _⟩
    rcases mem_spots.mp member with ⟨before, after, rfl, _⟩
    rw [idle block (by simp)] at live
    cases live
  · exact .inr (.inr inBack)

/-! ## Cutting at an address -/

/-- The blocks in front of a payload address, and the blocks from it on. -/
def cut (address : Nat) : Nat → List Block → List Block × List Block
  | _, [] => ([], [])
  | cursor, block :: rest =>
      if cursor + 4 = address then ([], block :: rest)
      else
        let later := cut address (cursor + block.size) rest
        (block :: later.1, later.2)

theorem cut_append (cursor : Nat) (front : List Block) (block : Block)
    (back : List Block) :
    cut (cursor + total front + 4) cursor (front ++ block :: back) =
      (front, block :: back) := by
  induction front generalizing cursor with
  | nil => simp [cut]
  | cons head front induction =>
      have positive := head.size_ge
      have later := induction (cursor + head.size)
      simp only [total_cons, List.cons_append, cut]
      rw [if_neg (by omega), show cursor + (head.size + total front) + 4 =
        cursor + head.size + total front + 4 by omega, later]

/-! ## Maximal coalescing -/

/-- No two neighbours are both free. -/
def Coalesced (blocks : List Block) : Prop :=
  blocks.IsChain fun left right => left.isFree = false ∨ right.isFree = false

end Blocks

end MallocLab
