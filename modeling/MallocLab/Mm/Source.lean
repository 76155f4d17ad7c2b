import MallocLab.BoundaryTag.Procedures

/-! # The allocator of `mm.c`

An explicit free list threaded through the payloads of the free blocks. The
list is circular and its sentinel is the prologue block.
-/

namespace MallocLab.Mm

open Program

/-- The static variables of `mm.c`. -/
structure Statics where
  heapListp : Nat

abbrev State : Type := Machine Statics

def predP (bp : Nat) : Program State Nat := get bp
def succP (bp : Nat) : Program State Nat := get (bp + wsize)
def setPredP (bp value : Nat) : Program State Unit := put bp value
def setSuccP (bp value : Nat) : Program State Unit := put (bp + wsize) value

def heapListp : Program State Nat := do return (← statics).heapListp

def listAdd (p : Nat) : Program State Unit := do
  setSuccP p (← succP (← heapListp))
  setPredP p (← heapListp)
  setPredP (← succP (← heapListp)) p
  setSuccP (← heapListp) p

def listRemove (p : Nat) : Program State Unit := do
  setSuccP (← predP p) (← succP p)
  setPredP (← succP p) (← predP p)

def coalesce (bp : Nat) : Program State Nat := do
  let prevAlloc ← getAlloc (← ftrp (← prevBlkp bp))
  let nextAlloc ← getAlloc (hdrp (← nextBlkp bp))
  let size ← getSize (hdrp bp)
  let bp ←
    if prevAlloc ≠ 0 ∧ nextAlloc = 0 then do
      listRemove (← nextBlkp bp)
      let size := wrap (size + (← getSize (hdrp (← nextBlkp bp))))
      put (hdrp bp) (pack size 0)
      put (← ftrp bp) (pack size 0)
      pure bp
    else if prevAlloc = 0 ∧ nextAlloc ≠ 0 then do
      listRemove (← prevBlkp bp)
      let size := wrap (size + (← getSize (hdrp (← prevBlkp bp))))
      put (← ftrp bp) (pack size 0)
      put (hdrp (← prevBlkp bp)) (pack size 0)
      prevBlkp bp
    else if prevAlloc = 0 ∧ nextAlloc = 0 then do
      listRemove (← prevBlkp bp)
      listRemove (← nextBlkp bp)
      let size := wrap (size + wrap ((← getSize (hdrp (← prevBlkp bp))) +
        (← getSize (← ftrp (← nextBlkp bp)))))
      put (hdrp (← prevBlkp bp)) (pack size 0)
      put (← ftrp (← nextBlkp bp)) (pack size 0)
      prevBlkp bp
    else
      pure bp
  listAdd bp
  return bp

def extendHeap (words : Nat) : Program State Nat :=
  extendHeapWith coalesce
    (if words % 2 ≠ 0 then wrap (wrap (words + 1) * wsize) else wrap (words * wsize))

def mmInit : Program State Int := do
  let heapListp ← memSbrk (toInt (6 * wsize))
  setStatics { heapListp }
  if heapListp = sbrkFailed then
    return -1
  else do
    put heapListp 0
    put (heapListp + 1 * wsize) (pack (2 * dsize) 1)
    put (heapListp + 2 * wsize) (heapListp + 3 * wsize)
    put (heapListp + 3 * wsize) (heapListp + 2 * wsize)
    put (heapListp + 4 * wsize) (pack (2 * dsize) 1)
    put (heapListp + 5 * wsize) (pack 0 1)
    setStatics { heapListp := heapListp + 2 * wsize }
    if (← extendHeap (chunkSize / wsize)) = null then
      return -1
    else
      return 0

def findFit (asize : Nat) : Program State Nat := do
  let fuel ← view Machine.heapLength
  firstFitFrom asize (fuel + 1) (← succP (← heapListp))

def place (p size : Nat) : Program State Unit :=
  placeWith (fun bp _ => listAdd bp) listRemove p size

/-- The block size `mm_malloc` computes for a request. -/
def adjustedSize (size : Nat) : Nat :=
  if size ≤ dsize then 2 * dsize
  else wrap (dsize * (wrap (size + dsize + (dsize - 1)) / dsize))

def mmMalloc (size : Nat) : Program State Nat :=
  mallocWith adjustedSize findFit extendHeap place size

def mmFree (ptr : Nat) : Program State Unit := freeWith coalesce ptr

def mmRealloc (ptr size : Nat) : Program State Nat := reallocWith mmMalloc mmFree ptr size

end MallocLab.Mm
