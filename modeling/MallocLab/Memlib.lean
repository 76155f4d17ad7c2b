import MallocLab.Foundation.Memory
import MallocLab.Foundation.Program

/-! # The memory system model of `memlib.c`

The machine holds the three private variables of `memlib.c`, the bytes of the
address space and the static variables of one allocator package. Addresses are
those of the 32-bit build.
-/

namespace MallocLab

/-- `MAX_HEAP` of `config.h`, twenty megabytes. -/
def maxHeap : Nat := 20 * 2 ^ 20

structure Machine (Statics : Type) where
  memStartBrk : Nat
  memBrk : Nat
  memMaxAddr : Nat
  bytes : Memory
  statics : Statics

/-- The bytes of a range are the same on two machines. -/
def SameRange {Statics : Type} (machine other : Machine Statics) (start count : Nat) : Prop :=
  ∀ offset, offset < count → other.bytes (start + offset) = machine.bytes (start + offset)

/-- The pointer `(void *) -1`. -/
def sbrkFailed : Nat := 2 ^ 32 - 1

/-- The null pointer. -/
def null : Nat := 0

namespace Machine

variable {Statics : Type}

/-- The word an address holds. -/
def load (machine : Machine Statics) (address : Nat) : Nat :=
  machine.bytes.load address

/-- The machine after a word was written. -/
def store (machine : Machine Statics) (address value : Nat) : Machine Statics :=
  { machine with bytes := machine.bytes.store address value }

/-- The machine after bytes were copied. -/
def copy (machine : Machine Statics) (target source count : Nat) : Machine Statics :=
  { machine with bytes := machine.bytes.copy target source count }

/-- The machine after bytes were set to one value. -/
def fill (machine : Machine Statics) (target : Nat) (value : UInt8) (count : Nat) :
    Machine Statics :=
  { machine with bytes := machine.bytes.fill target value count }

/-- The machine after the static variables were changed. -/
def setStatics (machine : Machine Statics) (statics : Statics) : Machine Statics :=
  { machine with statics := statics }

/-- The machine after the break was moved. -/
def setBrk (machine : Machine Statics) (brk : Nat) : Machine Statics :=
  { machine with memBrk := brk }

/-- `mem_heapsize`. -/
def heapLength (machine : Machine Statics) : Nat :=
  machine.memBrk - machine.memStartBrk

/-- The `count` bytes from an address on are part of the heap. -/
def Owns (machine : Machine Statics) (address count : Nat) : Prop :=
  machine.memStartBrk ≤ address ∧ address + count ≤ machine.memBrk

instance (address count : Nat) :
    DecidablePred fun machine : Machine Statics => machine.Owns address count :=
  fun _ => inferInstanceAs (Decidable (_ ∧ _))

section Fields

variable (machine : Machine Statics) (address value target source count brk : Nat)
  (statics : Statics)

@[simp] theorem store_memStartBrk :
    (machine.store address value).memStartBrk = machine.memStartBrk := rfl
@[simp] theorem store_memBrk :
    (machine.store address value).memBrk = machine.memBrk := rfl
@[simp] theorem store_memMaxAddr :
    (machine.store address value).memMaxAddr = machine.memMaxAddr := rfl
@[simp] theorem store_statics :
    (machine.store address value).statics = machine.statics := rfl
@[simp] theorem copy_memStartBrk :
    (machine.copy target source count).memStartBrk = machine.memStartBrk := rfl
@[simp] theorem copy_memBrk :
    (machine.copy target source count).memBrk = machine.memBrk := rfl
@[simp] theorem copy_memMaxAddr :
    (machine.copy target source count).memMaxAddr = machine.memMaxAddr := rfl
@[simp] theorem copy_statics :
    (machine.copy target source count).statics = machine.statics := rfl
@[simp] theorem fill_memStartBrk (byte : UInt8) :
    (machine.fill target byte count).memStartBrk = machine.memStartBrk := rfl
@[simp] theorem fill_memBrk (byte : UInt8) :
    (machine.fill target byte count).memBrk = machine.memBrk := rfl
@[simp] theorem fill_memMaxAddr (byte : UInt8) :
    (machine.fill target byte count).memMaxAddr = machine.memMaxAddr := rfl
@[simp] theorem setStatics_memStartBrk :
    (machine.setStatics statics).memStartBrk = machine.memStartBrk := rfl
@[simp] theorem setStatics_memBrk :
    (machine.setStatics statics).memBrk = machine.memBrk := rfl
@[simp] theorem setStatics_memMaxAddr :
    (machine.setStatics statics).memMaxAddr = machine.memMaxAddr := rfl
@[simp] theorem setStatics_statics :
    (machine.setStatics statics).statics = statics := rfl
@[simp] theorem setStatics_bytes :
    (machine.setStatics statics).bytes = machine.bytes := rfl
@[simp] theorem setStatics_load :
    (machine.setStatics statics).load address = machine.load address := rfl
@[simp] theorem setBrk_memStartBrk :
    (machine.setBrk brk).memStartBrk = machine.memStartBrk := rfl
@[simp] theorem setBrk_memBrk : (machine.setBrk brk).memBrk = brk := rfl
@[simp] theorem setBrk_memMaxAddr :
    (machine.setBrk brk).memMaxAddr = machine.memMaxAddr := rfl
@[simp] theorem setBrk_statics :
    (machine.setBrk brk).statics = machine.statics := rfl
@[simp] theorem setBrk_bytes : (machine.setBrk brk).bytes = machine.bytes := rfl
@[simp] theorem setBrk_load :
    (machine.setBrk brk).load address = machine.load address := rfl

end Fields

theorem load_lt (machine : Machine Statics) (address : Nat) :
    machine.load address < 2 ^ 32 := machine.bytes.load_lt address

theorem load_store_same (machine : Machine Statics) (address : Nat) {value : Nat}
    (word : value < 2 ^ 32) : (machine.store address value).load address = value :=
  machine.bytes.load_store_same address word

theorem load_store_of_disjoint (machine : Machine Statics) {address other : Nat}
    (value : Nat) (disjoint : other + 4 ≤ address ∨ address + 4 ≤ other) :
    (machine.store address value).load other = machine.load other :=
  machine.bytes.load_store_of_disjoint value disjoint

theorem store_bytes_of_outside (machine : Machine Statics) {address other : Nat}
    (value : Nat) (outside : other < address ∨ address + 4 ≤ other) :
    (machine.store address value).bytes other = machine.bytes other :=
  machine.bytes.store_of_outside value outside

end Machine

variable {Statics : Type}

open Program

/-- The statements of C on the heap. Every access is checked against
`[mem_start_brk, mem_brk)`, so a program with an outcome stayed inside. -/
def get (address : Nat) : Program (Machine Statics) Nat := do
  require fun machine => machine.Owns address 4
  view fun machine => machine.load address

def put (address value : Nat) : Program (Machine Statics) Unit := do
  require fun machine => machine.Owns address 4
  change fun machine => machine.store address value

/-- `memcpy`, which promises nothing on overlapping ranges. -/
def memcpy (target source count : Nat) : Program (Machine Statics) Unit := do
  require fun machine => machine.Owns target count
  require fun machine => machine.Owns source count
  require fun _ => target + count ≤ source ∨ source + count ≤ target
  change fun machine => machine.copy target source count

def getByte (address : Nat) : Program (Machine Statics) UInt8 := do
  require fun machine => machine.Owns address 1
  view fun machine => machine.bytes address

def memset (target value count : Nat) : Program (Machine Statics) Unit := do
  require fun machine => machine.Owns target count
  change fun machine => machine.fill target (UInt8.ofNat value) count

/-- Read the static variables of the package. -/
def statics : Program (Machine Statics) Statics := view Machine.statics

def setStatics (next : Statics) : Program (Machine Statics) Unit :=
  change fun machine => machine.setStatics next

/-- `mem_init` on the arena that `malloc(MAX_HEAP)` returned. -/
def memInit (arena : Nat) (bytes : Memory) (initial : Statics) : Machine Statics where
  memStartBrk := arena
  memBrk := arena
  memMaxAddr := wrap (arena + maxHeap)
  bytes := bytes
  statics := initial

/-- The arena before `mm_init`, whatever it held before: aligned storage that
does not reach the end of the address space. -/
structure Machine.Empty {Statics : Type} (machine : Machine Statics) : Prop where
  positive : 0 < machine.memStartBrk
  startAligned : machine.memStartBrk % 8 = 0
  noneUsed : machine.memBrk = machine.memStartBrk
  arena : machine.memMaxAddr = machine.memStartBrk + maxHeap
  addressable : machine.memMaxAddr < 2 ^ 32

def memResetBrk : Program (Machine Statics) Unit :=
  change fun machine => machine.setBrk machine.memStartBrk

/-- The break `mem_sbrk` computes, in the address arithmetic of the build. -/
def Machine.nextBrk (machine : Machine Statics) (incr : Int) : Nat :=
  wrap (machine.memBrk + incr.toNat)

def memSbrk (incr : Int) : Program (Machine Statics) Nat := do
  let oldBrk ← view Machine.memBrk
  let newBrk ← view fun machine => machine.nextBrk incr
  let maxAddr ← view Machine.memMaxAddr
  if incr < 0 ∨ newBrk > maxAddr then
    return sbrkFailed
  else do
    change fun machine => machine.setBrk newBrk
    return oldBrk

def memHeapLo : Program (Machine Statics) Nat :=
  view Machine.memStartBrk

def memHeapHi : Program (Machine Statics) Nat :=
  view fun machine => machine.memBrk - 1

/-! ## What the statements ensure -/

section Ensures

variable {machine : Machine Statics}

@[simp] theorem ensures_get (address : Nat) (goal : Nat → Machine Statics → Prop) :
    Ensures (get address) machine goal ↔
      machine.Owns address 4 ∧ goal (machine.load address) machine := by
  simp [get]

@[simp] theorem ensures_put (address value : Nat)
    (goal : Unit → Machine Statics → Prop) :
    Ensures (put address value) machine goal ↔
      machine.Owns address 4 ∧ goal () (machine.store address value) := by
  simp [put]

@[simp] theorem ensures_memcpy (target source count : Nat)
    (goal : Unit → Machine Statics → Prop) :
    Ensures (memcpy target source count) machine goal ↔
      machine.Owns target count ∧ machine.Owns source count ∧
        (target + count ≤ source ∨ source + count ≤ target) ∧
        goal () (machine.copy target source count) := by
  simp [memcpy]

@[simp] theorem ensures_getByte (address : Nat) (goal : UInt8 → Machine Statics → Prop) :
    Ensures (getByte address) machine goal ↔
      machine.Owns address 1 ∧ goal (machine.bytes address) machine := by
  simp [getByte]

@[simp] theorem ensures_memset (target value count : Nat)
    (goal : Unit → Machine Statics → Prop) :
    Ensures (memset target value count) machine goal ↔
      machine.Owns target count ∧ goal () (machine.fill target (UInt8.ofNat value) count) := by
  simp [memset]

@[simp] theorem ensures_statics (goal : Statics → Machine Statics → Prop) :
    Ensures statics machine goal ↔ goal machine.statics machine :=
  ensures_view _ _ _

@[simp] theorem ensures_setStatics (next : Statics)
    (goal : Unit → Machine Statics → Prop) :
    Ensures (setStatics next) machine goal ↔ goal () (machine.setStatics next) :=
  ensures_change _ _ _

@[simp] theorem ensures_memHeapLo (goal : Nat → Machine Statics → Prop) :
    Ensures memHeapLo machine goal ↔ goal machine.memStartBrk machine :=
  ensures_view _ _ _

@[simp] theorem ensures_memHeapHi (goal : Nat → Machine Statics → Prop) :
    Ensures memHeapHi machine goal ↔ goal (machine.memBrk - 1) machine :=
  ensures_view _ _ _

/-- An increment that reaches past the arena is refused without any change. -/
theorem memSbrk_refused {incr : Int}
    (refused : incr < 0 ∨ machine.memMaxAddr < machine.nextBrk incr)
    (goal : Nat → Machine Statics → Prop) :
    Ensures (memSbrk incr) machine goal ↔ goal sbrkFailed machine := by
  simp [memSbrk, ensures_ite, refused]

theorem memSbrk_granted {incr : Int} (positive : 0 ≤ incr)
    (granted : machine.nextBrk incr ≤ machine.memMaxAddr)
    (goal : Nat → Machine Statics → Prop) :
    Ensures (memSbrk incr) machine goal ↔
      goal machine.memBrk (machine.setBrk (machine.nextBrk incr)) := by
  have accepted : ¬(incr < 0 ∨ machine.memMaxAddr < machine.nextBrk incr) := by omega
  simp [memSbrk, ensures_ite, accepted]

end Ensures

end MallocLab
