import MallocLab.BoundaryTag.Procedures

/-! # The allocator of `malloc/segregated_list-85.c`

Twenty groups of free blocks, each a null-terminated list that is sorted by
size.
-/

namespace MallocLab.Segregated

open Program

/-- `GROUPSIZE`. -/
def groupSize : Nat := 20

/-- The static array `group_free_listp`. -/
structure Statics where
  groupFreeListp : Nat → Nat

abbrev State : Type := Machine Statics

def prevFree (bp : Nat) : Program State Nat := get bp
def nextFree (bp : Nat) : Program State Nat := get (bp + wsize)
def setPrevFree (bp value : Nat) : Program State Unit := put bp value
def setNextFree (bp value : Nat) : Program State Unit := put (bp + wsize) value

def groupFreeListp (groupIdx : Nat) : Program State Nat := do
  return (← statics).groupFreeListp groupIdx

def setGroupFreeListp (groupIdx value : Nat) : Program State Unit := do
  let now ← statics
  setStatics { groupFreeListp := Function.update now.groupFreeListp groupIdx value }

/-- The loop that halves a size and counts up to its group. It takes at most
`GROUPSIZE - 1` rounds. -/
def groupLoop : Nat → Int → Nat → Nat
  | 0, _, groupIdx => groupIdx
  | rounds + 1, size, groupIdx =>
      if groupIdx < groupSize - 1 ∧ size > 1 then
        groupLoop rounds (size.shiftRight 1) (groupIdx + 1)
      else groupIdx

/-- `group_idx` after the loop, for an `int` or a `size_t`. -/
def groupIndex (size : Int) : Nat := groupLoop (groupSize - 1) size 0

/-- The loop over the members of one group, which `add_block` and `find_fit`
share: on to the first block that is not smaller. Only `add_block` uses `prev`. -/
def scan (size : Nat) : Nat → Nat → Nat → Program State (Nat × Nat)
  | 0, _, _ => fault
  | fuel + 1, prev, curr => do
      if curr = null then
        return (prev, curr)
      else if size > (← getSize (hdrp curr)) then do
        scan size fuel curr (← nextFree curr)
      else
        return (prev, curr)

def addBlock (bp size : Nat) : Program State Unit := do
  let groupIdx := groupIndex size
  let fuel ← view Machine.heapLength
  let (prev, curr) ← scan size (fuel + 1) null (← groupFreeListp groupIdx)
  if curr = null then
    if prev = null then do
      setNextFree bp null
      setPrevFree bp null
      setGroupFreeListp groupIdx bp
    else do
      setNextFree prev bp
      setPrevFree bp prev
      setNextFree bp null
  else
    if prev = null then do
      setNextFree bp curr
      setPrevFree bp null
      setPrevFree curr bp
      setGroupFreeListp groupIdx bp
    else do
      setNextFree bp curr
      setPrevFree bp prev
      setNextFree prev bp
      setPrevFree curr bp

def removeBlock (bp : Nat) : Program State Unit := do
  let groupIdx := groupIndex (← getSize (hdrp bp))
  if (← nextFree bp) = null then do
    if (← prevFree bp) = null then
      setGroupFreeListp groupIdx null
    else do
      setNextFree (← prevFree bp) null
  else do
    if (← prevFree bp) = null then do
      setPrevFree (← nextFree bp) null
      setGroupFreeListp groupIdx (← nextFree bp)
    else do
      setPrevFree (← nextFree bp) (← prevFree bp)
      setNextFree (← prevFree bp) (← nextFree bp)

def coalesce (bp : Nat) : Program State Nat := coalesceWith addBlock removeBlock bp

def extendHeap (words : Nat) : Program State Nat :=
  extendHeapWith coalesce
    (if words &&& 1 ≠ 0 then wrap (wrap (words + 1) * wsize) else wrap (words * wsize))

/-- The loop of `mm_init` over the last `left` groups. -/
def clearGroups : Nat → Program State Unit
  | 0 => return ()
  | left + 1 => do
      setGroupFreeListp (groupSize - (left + 1)) null
      clearGroups left

def mmInit : Program State Int := do
  clearGroups groupSize
  let heapListp ← memSbrk (toInt (wsize * 4))
  if heapListp = sbrkFailed then
    return -1
  else do
    put heapListp 0
    put (heapListp + wsize) (pack dsize 1)
    put (heapListp + 2 * wsize) (pack dsize 1)
    put (heapListp + 3 * wsize) (pack 0 1)
    if (← extendHeap (chunkSize / wsize)) = null then
      return -1
    else
      return 0

/-- The groups from one on, `left` of them. -/
def findGroup (asize fuel : Nat) : Nat → Nat → Program State Nat
  | 0, _ => return null
  | left + 1, groupIdx => do
      let (_, curr) ← scan asize (fuel + 1) null (← groupFreeListp groupIdx)
      if curr ≠ null then
        return curr
      else
        findGroup asize fuel left (groupIdx + 1)

/-- The group to begin with is computed from an `int`. -/
def findFit (asize : Nat) : Program State Nat := do
  let fuel ← view Machine.heapLength
  let groupIdx := groupIndex (toInt asize)
  findGroup asize fuel (groupSize - groupIdx) groupIdx

def place (bp asize : Nat) : Program State Unit := placeWith addBlock removeBlock bp asize

/-- `newsize` of `mm_malloc` and `new_size` of `mm_realloc`. -/
def newSize (size : Nat) : Nat := align (size + dsize)

def mmMalloc (size : Nat) : Program State Nat :=
  mallocWith newSize findFit extendHeap place size

def mmFree (bp : Nat) : Program State Unit := freeWith coalesce bp

def mmRealloc (ptr size : Nat) : Program State Nat := do
  if size = 0 then do
    mmFree ptr
    return ptr
  else if ptr = null then
    mmMalloc size
  else do
    let blockSize ← getSize (hdrp ptr)
    if newSize size ≤ blockSize then do
      place ptr (newSize size)
      return ptr
    else do
      let newPtr ← mmMalloc size
      if newPtr = null then
        return null
      else do
        memcpy newPtr ptr size
        mmFree ptr
        return newPtr

end MallocLab.Segregated
