import MallocLab.BoundaryTag.Procedures

/-! # The allocator of `malloc/refer/refer.c`

An explicit free list with a head pointer. The first block has a null backward
link, and the list ends at the prologue block.
-/

namespace MallocLab.Refer

open Program

/-- The static variables of `refer.c`. -/
structure Statics where
  freeListp : Nat

abbrev State : Type := Machine Statics

def prevFree (bp : Nat) : Program State Nat := get bp
def nextFree (bp : Nat) : Program State Nat := get (bp + wsize)
def setPrevFree (bp value : Nat) : Program State Unit := put bp value
def setNextFree (bp value : Nat) : Program State Unit := put (bp + wsize) value

def freeListp : Program State Nat := do return (← statics).freeListp

def addBlock (bp : Nat) : Program State Unit := do
  setNextFree bp (← freeListp)
  setPrevFree bp null
  setPrevFree (← freeListp) bp
  setStatics { freeListp := bp }

def removeBlock (bp : Nat) : Program State Unit := do
  if bp = (← freeListp) then do
    setPrevFree (← nextFree bp) null
    setStatics { freeListp := ← nextFree bp }
  else do
    setPrevFree (← nextFree bp) (← prevFree bp)
    setNextFree (← prevFree bp) (← nextFree bp)

def coalesce (bp : Nat) : Program State Nat :=
  coalesceWith (fun bp _ => addBlock bp) removeBlock bp

def extendHeap (words : Nat) : Program State Nat :=
  extendHeapWith coalesce
    (if words &&& 1 ≠ 0 then wrap (wrap (words + 1) * wsize) else wrap (words * wsize))

def mmInit : Program State Int := do
  let heapListp ← memSbrk (toInt (wsize * 6))
  if heapListp = sbrkFailed then
    return -1
  else do
    put heapListp 0
    put (heapListp + wsize) (pack (4 * wsize) 1)
    put (heapListp + 2 * wsize) (pack 0 0)
    put (heapListp + 3 * wsize) (pack 0 0)
    put (heapListp + 4 * wsize) (pack (4 * wsize) 1)
    put (heapListp + 5 * wsize) (pack 0 1)
    setStatics { freeListp := heapListp + 2 * wsize }
    if (← extendHeap (chunkSize / wsize)) = null then
      return -1
    else
      return 0

def findFitFirst (asize : Nat) : Program State Nat := do
  let fuel ← view Machine.heapLength
  firstFitFrom asize (fuel + 1) (← freeListp)

def place (bp asize : Nat) : Program State Unit := do
  let blockSize ← getSize (hdrp bp)
  if wrapSub blockSize asize ≥ 2 * dsize then do
    put (hdrp bp) (pack asize 1)
    put (← ftrp bp) (pack asize 1)
    let bp ← nextBlkp bp
    put (hdrp bp) (pack (wrapSub blockSize asize) 0)
    put (← ftrp bp) (pack (wrapSub blockSize asize) 0)
    addBlock bp
  else do
    put (hdrp bp) (pack blockSize 1)
    put (← ftrp bp) (pack blockSize 1)

/-- `place` and then `remove_block`, as `mm_malloc` calls them. -/
def placeAndRemove (bp asize : Nat) : Program State Unit := do
  place bp asize
  removeBlock bp

/-- `newsize` of `mm_malloc`. -/
def newSize (size : Nat) : Nat := align (size + dsize)

def mmMalloc (size : Nat) : Program State Nat :=
  mallocWith newSize findFitFirst extendHeap placeAndRemove size

def mmFree (ptr : Nat) : Program State Unit := freeWith coalesce ptr

def mmRealloc (ptr size : Nat) : Program State Nat := reallocWith mmMalloc mmFree ptr size

end MallocLab.Refer
