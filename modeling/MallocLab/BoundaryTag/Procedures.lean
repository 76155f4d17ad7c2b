import MallocLab.BoundaryTag.Macros

/-! # Procedures the boundary-tag packages share

`mm.c`, `refer.c` and `segregated_list-85.c` repeat the same procedures around
different lists of free blocks. Each is written here once, over the procedures
it calls.
-/

namespace MallocLab

variable {Statics : Type}

open Program

/-- `coalesce` of `refer.c` and `segregated_list-85.c`. -/
def coalesceWith (addBlock : Nat → Nat → Program (Machine Statics) Unit)
    (removeBlock : Nat → Program (Machine Statics) Unit) (bp : Nat) :
    Program (Machine Statics) Nat := do
  let prevAlloc ← getAlloc (← ftrp (← prevBlkp bp))
  let nextAlloc ← getAlloc (hdrp (← nextBlkp bp))
  let size ← getSize (hdrp bp)
  if prevAlloc ≠ 0 ∧ nextAlloc ≠ 0 then do
    addBlock bp size
    return bp
  else if prevAlloc ≠ 0 ∧ nextAlloc = 0 then do
    let size := wrap (size + (← getSize (hdrp (← nextBlkp bp))))
    removeBlock (← nextBlkp bp)
    put (hdrp bp) (pack size 0)
    put (← ftrp bp) (pack size 0)
    addBlock bp size
    return bp
  else if prevAlloc = 0 ∧ nextAlloc ≠ 0 then do
    let size := wrap (size + (← getSize (hdrp (← prevBlkp bp))))
    removeBlock (← prevBlkp bp)
    put (← ftrp bp) (pack size 0)
    put (hdrp (← prevBlkp bp)) (pack size 0)
    let bp ← prevBlkp bp
    addBlock bp size
    return bp
  else do
    let size := wrap (size + wrap ((← getSize (hdrp (← prevBlkp bp))) +
      (← getSize (← ftrp (← nextBlkp bp)))))
    removeBlock (← nextBlkp bp)
    removeBlock (← prevBlkp bp)
    put (hdrp (← prevBlkp bp)) (pack size 0)
    put (← ftrp (← nextBlkp bp)) (pack size 0)
    let bp ← prevBlkp bp
    addBlock bp size
    return bp

/-- `extend_heap` from the point on where the words are rounded to a size. -/
def extendHeapWith (coalesce : Nat → Program (Machine Statics) Nat) (size : Nat) :
    Program (Machine Statics) Nat := do
  let bp ← memSbrk (toInt size)
  if bp = sbrkFailed then
    return null
  else do
    put (hdrp bp) (pack size 0)
    put (← ftrp bp) (pack size 0)
    put (hdrp (← nextBlkp bp)) (pack 0 1)
    coalesce bp

/-- The loop of `find_fit` in `mm.c` and of `find_fit_first` in `refer.c`. It
writes nothing and stops outside the heap, so it ends within as many steps as
the heap has addresses or never. -/
def firstFitFrom (asize : Nat) : Nat → Nat → Program (Machine Statics) Nat
  | 0, _ => fault
  | fuel + 1, ptr => do
      if (← getAlloc (hdrp ptr)) ≠ 0 then
        return null
      else if asize ≤ (← getSize (hdrp ptr)) then
        return ptr
      else
        firstFitFrom asize fuel (← get (ptr + wsize))

/-- `place` of `mm.c` and `segregated_list-85.c`. -/
def placeWith (addBlock : Nat → Nat → Program (Machine Statics) Unit)
    (removeBlock : Nat → Program (Machine Statics) Unit) (bp asize : Nat) :
    Program (Machine Statics) Unit := do
  let blockSize ← getSize (hdrp bp)
  removeBlock bp
  if wrapSub blockSize asize ≥ 2 * dsize then do
    put (hdrp bp) (pack asize 1)
    put (← ftrp bp) (pack asize 1)
    let bp ← nextBlkp bp
    put (hdrp bp) (pack (wrapSub blockSize asize) 0)
    put (← ftrp bp) (pack (wrapSub blockSize asize) 0)
    addBlock bp (wrapSub blockSize asize)
  else do
    put (hdrp bp) (pack blockSize 1)
    put (← ftrp bp) (pack blockSize 1)

/-- `mm_malloc`. -/
def mallocWith (adjust : Nat → Nat) (findFit extendHeap : Nat → Program (Machine Statics) Nat)
    (place : Nat → Nat → Program (Machine Statics) Unit) (size : Nat) :
    Program (Machine Statics) Nat := do
  let asize := adjust size
  let extendsize := max' asize chunkSize
  if size = 0 then
    return null
  else do
    let bp ← findFit asize
    if bp ≠ null then do
      place bp asize
      return bp
    else do
      let bp ← extendHeap (extendsize / wsize)
      if bp = null then
        return null
      else do
        place bp asize
        return bp

/-- `mm_free`. -/
def freeWith (coalesce : Nat → Program (Machine Statics) Nat) (ptr : Nat) :
    Program (Machine Statics) Unit := do
  let size ← getSize (hdrp ptr)
  put (hdrp ptr) (pack size 0)
  put (← ftrp ptr) (pack size 0)
  let _ ← coalesce ptr

/-- `mm_realloc` of `mm.c` and `refer.c`. -/
def reallocWith (mmMalloc : Nat → Program (Machine Statics) Nat)
    (mmFree : Nat → Program (Machine Statics) Unit) (ptr size : Nat) :
    Program (Machine Statics) Nat := do
  let oldptr := ptr
  let newptr ← mmMalloc size
  if newptr = null then
    return null
  else do
    let blockSize ← getSize (hdrp oldptr)
    let copySize := if size < blockSize then size else blockSize
    memcpy newptr oldptr copySize
    mmFree oldptr
    return newptr

end MallocLab
