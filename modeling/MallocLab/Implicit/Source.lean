import MallocLab.BoundaryTag.Procedures

/-! # The allocator of `malloc/implicit-54.c`

There is no list besides the heap itself. `find_fit` walks all blocks in
address order, and `coalesce` and `place` only write tags.
-/

namespace MallocLab.Implicit

open Program

/-- The static variables of `implicit-54.c`. -/
structure Statics where
  heapListp : Nat

abbrev State : Type := Machine Statics

def heapListp : Program State Nat := do return (← statics).heapListp

/-- The place of `add_block` in the shared procedures. -/
def addBlock (_bp _size : Nat) : Program State Unit := return ()

/-- The place of `remove_block` in the shared procedures. -/
def removeBlock (_bp : Nat) : Program State Unit := return ()

def coalesce (bp : Nat) : Program State Nat := coalesceWith addBlock removeBlock bp

def extendHeap (words : Nat) : Program State Nat :=
  extendHeapWith coalesce
    (if words % 2 ≠ 0 then wrap (wrap (words + 1) * wsize) else wrap (words * wsize))

def mmInit : Program State Int := do
  let heapListp ← memSbrk (toInt (4 * wsize))
  setStatics { heapListp }
  if heapListp = sbrkFailed then
    return -1
  else do
    put heapListp 0
    put (heapListp + 1 * wsize) (pack dsize 1)
    put (heapListp + 2 * wsize) (pack dsize 1)
    put (heapListp + 3 * wsize) (pack 0 1)
    setStatics { heapListp := heapListp + 2 * wsize }
    if (← extendHeap (chunkSize / wsize)) = null then
      return -1
    else
      return 0

/-- The loop of `find_fit`. It writes nothing and stops outside the heap, so it
ends within as many steps as the heap has addresses or never. -/
def search (asize : Nat) : Nat → Nat → Program State Nat
  | 0, _ => fault
  | fuel + 1, bp => do
      if (← getSize (hdrp bp)) > 0 then
        if (← getAlloc (hdrp bp)) = 0 ∧ asize ≤ (← getSize (hdrp bp)) then
          return bp
        else
          search asize fuel (← nextBlkp bp)
      else
        return null

def findFit (asize : Nat) : Program State Nat := do
  let fuel ← view Machine.heapLength
  search asize (fuel + 1) (← heapListp)

def place (bp asize : Nat) : Program State Unit := placeWith addBlock removeBlock bp asize

/-- The block size `mm_malloc` computes for a request. -/
def adjustedSize (size : Nat) : Nat :=
  if size ≤ dsize then 2 * dsize
  else wrap (dsize * (wrap (size + dsize + (dsize - 1)) / dsize))

def mmMalloc (size : Nat) : Program State Nat :=
  mallocWith adjustedSize findFit extendHeap place size

def mmFree (bp : Nat) : Program State Unit := freeWith coalesce bp

def mmRealloc (ptr size : Nat) : Program State Nat := reallocWith mmMalloc mmFree ptr size

end MallocLab.Implicit
