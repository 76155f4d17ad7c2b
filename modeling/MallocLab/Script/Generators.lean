import MallocLab.Script.Holding

/-! # The generators of the synthetic traces

The Perl scripts `traces/gen_*.pl` with the number of their rounds as a
parameter. What `rand` gives is one, too.
-/

namespace MallocLab.Script

/-! ## `gen_binary.pl` and `gen_binary2.pl` -/

section Binary

variable (blkSize1 blkSize2 numIters : Nat)

def binaryAllocs : List Entry :=
  (List.range numIters).flatMap fun i =>
    [.alloc (2 * i) blkSize1, .alloc (2 * i + 1) blkSize2]

def binaryFrees : List Entry := (List.range numIters).map fun i => .free (2 * i + 1)

def binaryLarge (blkSize12 : Nat) : List Entry :=
  (List.range numIters).map fun i => .alloc (2 * numIters + i) blkSize12

def binary : Script where
  heapSize := (blkSize1 + blkSize2 + (blkSize1 + blkSize2)) * numIters + 100
  numIds := 3 * numIters
  numOps := 4 * numIters
  weight := 1
  entries := binaryAllocs blkSize1 blkSize2 numIters ++ binaryFrees numIters ++
    binaryLarge numIters (blkSize1 + blkSize2)

end Binary

/-- The script has 2000 rounds. -/
def genBinary (numIters : Nat) : Script := binary 64 (512 - 64) numIters

/-- The script has 4000 rounds. -/
def genBinary2 (numIters : Nat) : Script := binary 16 (128 - 16) numIters

/-! ## `gen_coalescing.pl` -/

/-- A round of the loop. -/
def coalescingRound (blkSize i : Nat) : List Entry :=
  [.alloc (3 * i) blkSize, .alloc (3 * i + 1) blkSize, .free (3 * i), .free (3 * i + 1),
    .alloc (3 * i + 2) (2 * blkSize), .free (3 * i + 2)]

/-- The script has 2400 rounds. -/
def genCoalescing (numIters : Nat) : Script where
  heapSize := 2 * 4095 * numIters + 100
  numIds := 3 * numIters
  numOps := 6 * numIters
  weight := 1
  entries := (List.range numIters).flatMap (coalescingRound 4095)

/-! ## `gen_realloc.pl` and `gen_realloc2.pl` -/

section Realloc

variable (sizeIncrement mallocSize : Nat)

/-- The loop with the values of `$blk` and `$realloc_size`, and the frees
behind it. -/
def reallocLoop : Nat → Nat → Nat → List Entry
  | 0, blk, _ => [.free blk, .free 0]
  | rounds + 1, blk, reallocSize =>
      .realloc 0 (reallocSize + sizeIncrement) :: .alloc (blk + 1) mallocSize :: .free blk ::
        reallocLoop rounds (blk + 1) (reallocSize + sizeIncrement)

def reallocEntries (reallocSize numIters : Nat) : List Entry :=
  .alloc 0 reallocSize :: .alloc 1 mallocSize ::
    reallocLoop sizeIncrement mallocSize (numIters - 1) 1 reallocSize

end Realloc

/-- The script has 4800 rounds. Without its `$`, `num_iters` counts as zero in
the size of the heap. -/
def genRealloc (numIters : Nat) : Script where
  heapSize := 0 * (512 + 128 * 2) + 100
  numIds := numIters + 1
  numOps := numIters * 3 + 1
  weight := 1
  entries := reallocEntries 128 128 512 numIters

/-- The script has 4800 rounds. -/
def genRealloc2 (numIters : Nat) : Script where
  heapSize := 4092 + 5 * (numIters - 1) + 16 * numIters + 100
  numIds := numIters + 1
  numOps := 3 * numIters + 1
  weight := 1
  entries := reallocEntries 5 16 4092 numIters

/-! ## `gen_random.pl` -/

section Random

variable (numBlocks : Nat) (size chosen : Nat → Nat)

/-- The test of the inner loop. -/
def IsAlloc (i : Nat) : Entry → Prop
  | .alloc seq _ => seq = i
  | _ => False

instance (i : Nat) : DecidablePred (IsAlloc i)
  | .alloc seq _ => inferInstanceAs (Decidable (seq = i))
  | .realloc _ _ => inferInstanceAs (Decidable False)
  | .free _ => inferInstanceAs (Decidable False)

/-- The inner loop: `$minval` where it stops within some rounds. -/
def seek (ops : List Entry) (i : Nat) : Nat → Nat → Nat
  | 0, minval => minval
  | rounds + 1, minval =>
      if ∃ op ∈ ops[minval]?, IsAlloc i op then minval else seek ops i rounds (minval + 1)

/-- A round of the outer loop, with the integer part of what `rand` gave. -/
def insertFree (ops : List Entry) (i : Nat) : List Entry :=
  ops.insertIdx (chosen i + seek ops i numBlocks i + 1) (.free i)

/-- `@trace` after some rounds of the outer loop. -/
def insertFrees : Nat → List Entry
  | 0 => (List.range numBlocks).map fun i => .alloc i (size i)
  | i + 1 => insertFree numBlocks chosen (insertFrees i) i

/-- The script has 2400 blocks. -/
def genRandom : Script where
  heapSize := ((List.range numBlocks).map size).sum + 100
  numIds := numBlocks
  numOps := 2 * numBlocks
  weight := 1
  entries := insertFrees numBlocks size chosen numBlocks

/-- What `rand` can give in each round, which is no more than the number of
requests behind the allocation. -/
def Drawn : Prop :=
  ∀ i < numBlocks, chosen i ≤ numBlocks + i -
    seek (insertFrees numBlocks size chosen i) i numBlocks i - 1

end Random

/-- The traces that the scripts write for fewer than `2 ^ 23` rounds. -/
inductive Generated : Script → Prop
  | binary {n : Nat} (some : 0 < n) (few : n < 2 ^ 23) : Generated (genBinary n)
  | binary2 {n : Nat} (some : 0 < n) (few : n < 2 ^ 23) : Generated (genBinary2 n)
  | coalescing {n : Nat} (some : 0 < n) (few : n < 2 ^ 23) : Generated (genCoalescing n)
  | realloc {n : Nat} (some : 0 < n) (few : n < 2 ^ 23) : Generated (genRealloc n)
  | realloc2 {n : Nat} (some : 0 < n) (few : n < 2 ^ 23) : Generated (genRealloc2 n)
  | random {n : Nat} {size chosen : Nat → Nat} (some : 0 < n) (few : n < 2 ^ 23)
      (sizes : ∀ i < n, size i < 32768) (drawn : Drawn n size chosen) :
      Generated (genRandom n size chosen)

end MallocLab.Script
