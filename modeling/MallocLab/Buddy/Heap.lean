import MallocLab.Buddy.Canonical
import MallocLab.Buddy.Restart

/-! # The buddy allocator with its blocks

The tree does not know the sizes that were requested, nor the pointers. Together
with the blocks it answers requests as `buddy.c` does.
-/

namespace MallocLab.Buddy

open Program TreeNode

variable {machine after : State} {live : List (Nat × Nat)} {block : TreeNode × Nat}
  {base request ptr : Nat}

/-- A tree, and the blocks of its used nodes with the sizes that were requested. -/
structure Heap where
  tree : Tree
  blocks : List (TreeNode × Nat)
  deriving DecidableEq, Repr

namespace Heap

def initial : Heap := ⟨Tree.initial, []⟩

/-- What `mm_malloc` returns in an arena that begins at an address. -/
def malloc (base request : Nat) (heap : Heap) : Option Nat × Heap :=
  let outcome := Tree.malloc maxHeap request heap.tree
  (outcome.1.map fun node => base + node.start + headerSize,
    ⟨outcome.2, outcome.1.toList.map (fun node => (node, request)) ++ heap.blocks⟩)

/-- The block that a pointer belongs to. -/
def block? (base ptr : Nat) (heap : Heap) : Option (TreeNode × Nat) :=
  heap.blocks.find? fun block => base + block.1.start + headerSize = ptr

/-- What `mm_free` leaves. -/
def release (base ptr : Nat) (heap : Heap) : Heap :=
  match heap.block? base ptr with
  | none => heap
  | some block => ⟨heap.tree.release block.1, heap.blocks.erase block⟩

/-- The machine has the heap, and the client its blocks. -/
def ServedAt (base : Nat) (machine : State) (live : List (Nat × Nat)) (heap : Heap) : Prop :=
  machine.memStartBrk = base ∧ Serves ⟨machine, live⟩ heap.tree heap.blocks

namespace ServedAt

variable {heap : Heap} (served : ServedAt base machine live heap)

include served

theorem live_eq : live = heap.blocks.map (spot machine) := served.2.live

theorem mem_live {other : Nat × Nat} :
    other ∈ live ↔ ∃ block ∈ heap.blocks, spot machine block = other := by
  rw [served.live_eq, List.mem_map]

theorem block?_eq (member : block ∈ heap.blocks) :
    heap.block? base (spot machine block).1 = some block := by
  rcases served with ⟨rfl, serves⟩
  cases first : heap.block? machine.memStartBrk (spot machine block).1 with
  | none =>
      have nowhere := List.find?_eq_none.mp first block member
      simp [spot, addressOf] at nowhere
  | some other =>
      have same := List.find?_some first
      simp only [decide_eq_true_eq] at same
      exact congrArg some
        (serves.holds.spot_injective (List.mem_of_find?_eq_some first) member same)

/-- `mm_malloc` answers as the heap does, and leaves the blocks alone. Sizes of up to
64 megabytes are safe wherever the arena lies. -/
theorem mmMalloc (small : request + headerSize ≤ 2 ^ 26) :
    Ensures (mmMalloc request) machine fun result after =>
      result = (heap.malloc base request).1.getD null ∧
        ServedAt base after (if result = null then live else (result, request) :: live)
          (heap.malloc base request).2 ∧
        (result = null ↔ (heap.malloc base request).1 = none) ∧
        machine.memBrk ≤ after.memBrk ∧
        ∀ spot ∈ live, SameRange machine after spot.1 spot.2 := by
  have blockOf := @served.mem_live
  rcases served with ⟨rfl, serves⟩
  have accepted : request + headerSize ≤ maxAlloc := small.trans (by decide)
  have bucket : 5 ≤ firstBucket request := by
    have exponent : Nat.clog 2 (request + headerSize) ≤ 26 := Nat.clog_le_of_le_pow small
    rw [firstBucket_of_small accepted, Tree.bucketFor, exponentFor]
    unfold maxAllocLog2 minAllocLog2
    omega
  have spans := serves.represents.tracks.lists.storage.spans bucket
  apply (serves.malloc accepted spans).mono
  rintro result after ⟨allocated, same, serves'⟩
  have kept := allocated.kept
  refine ⟨?_, ⟨kept.start, serves'⟩, ?_, kept.brk, ?_⟩
  · cases found : (Tree.malloc maxHeap request heap.tree).1 with
    | none =>
        rw [Heap.malloc, found]
        exact allocated.failed found
    | some node =>
        rw [Heap.malloc, found]
        exact (allocated.found node found).1
  · cases found : (Tree.malloc maxHeap request heap.tree).1 with
    | none => simp [Heap.malloc, found, allocated.failed found]
    | some node =>
        have pointer := (allocated.found node found).1
        unfold addressOf headerSize at pointer
        simp only [Heap.malloc, found, Option.map_some, reduceCtorEq, iff_false]
        unfold null
        omega
  · intro other member
    rcases blockOf.mp member with ⟨block, inUse, rfl⟩
    exact serves.payload inUse (same block inUse)

/-- `mm_free` of a live pointer releases its block. -/
theorem mmFree (held : ptr ∈ live.map Prod.fst) :
    Ensures (mmFree ptr) machine fun _ after =>
      ServedAt base after (live.filter fun spot => spot.1 ≠ ptr) (heap.release base ptr) ∧
        machine.memBrk ≤ after.memBrk ∧
        ∀ spot ∈ live, spot.1 ≠ ptr → SameRange machine after spot.1 spot.2 := by
  rcases List.mem_map.mp held with ⟨⟨_, size⟩, listed, rfl⟩
  rcases served.mem_live.mp listed with ⟨block, member, same⟩
  obtain rfl : (spot machine block).1 = _ := congrArg Prod.fst same
  have found := served.block?_eq member
  have blockOf := @served.mem_live
  rcases served with ⟨rfl, serves⟩
  apply (serves.free member).mono
  rintro _ after ⟨kept, same, serves'⟩
  refine ⟨⟨kept.start, ?_⟩, kept.brk, ?_⟩
  · rw [release, found]
    exact serves'
  · intro other inLive different
    rcases blockOf.mp inLive with ⟨another, inUse, rfl⟩
    exact serves.payload inUse (same another inUse fun isBlock => different (isBlock ▸ rfl))

/-- Clients may write into their blocks. -/
theorem fill {size : Nat} (member : (ptr, size) ∈ live) (value : UInt8) :
    ServedAt base (machine.fill ptr value size) live heap := by
  rcases served.mem_live.mp member with ⟨block, inUse, same⟩
  rcases served with ⟨rfl, serves⟩
  refine ⟨rfl, serves.written inUse rfl rfl rfl rfl fun byte outside => if_neg ?_⟩
  rw [same] at outside
  rintro ⟨low, high⟩
  have size' : block.2 = size := congrArg Prod.snd same
  simp only at outside
  omega

/-- The heap is not longer than the root and one byte. -/
theorem heapLength_le : machine.heapLength ≤ extentOf heap.tree.limit := by
  have extent := served.2.represents.tracks.extent
  simp only at extent
  unfold Machine.heapLength
  omega

/-- The driver may take the break back when nothing is live: `mm_init` then makes
the initial heap. -/
theorem atRest (none : live = []) :
    Site (machine.setBrk machine.memStartBrk) ∧ Marked machine [] := by
  have nothing : heap.blocks = [] := by
    have listed := served.live_eq
    rw [none] at listed
    exact List.map_eq_nil_iff.mp listed.symm
  have represents := served.2.represents
  rw [nothing, List.map_nil] at represents
  have marked := represents.tracks.marked
  rw [represents.valid.eq_whole] at marked
  exact ⟨represents.tracks.lists.storage.site_reset, marked_root.mp marked⟩

end ServedAt

/-- `mm_init` makes the initial heap where no split bit is set. -/
theorem ensures_mmInit (site : Site machine) (zeroed : Marked machine []) :
    Ensures mmInit machine fun result after =>
      result = 0 ∧ ServedAt machine.memStartBrk after [] initial ∧
        machine.memBrk ≤ after.memBrk := by
  apply (ensures_served site zeroed).mono
  rintro result after ⟨isZero, serves, kept⟩
  exact ⟨isZero, ⟨kept.start, serves⟩, kept.brk⟩

end Heap

end MallocLab.Buddy
