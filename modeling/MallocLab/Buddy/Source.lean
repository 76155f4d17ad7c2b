import MallocLab.Memlib

/-! # The allocator of `malloc/buddy.c`

A binary tree over the address range that follows `base_ptr`. The nodes of one
bucket have one size, the free ones are members of the circular list of their
bucket, and one bit for each parent says whether exactly one child is free.
-/

namespace MallocLab.Buddy

open Program

/-- `HEADER_SIZE`. -/
def headerSize : Nat := 8

/-- `MIN_ALLOC_LOG2`. -/
def minAllocLog2 : Nat := 4

/-- `MIN_ALLOC`. -/
def minAlloc : Nat := 1 <<< minAllocLog2

/-- `MAX_ALLOC_LOG2`. -/
def maxAllocLog2 : Nat := 31

/-- `MAX_ALLOC`. -/
def maxAlloc : Nat := 1 <<< maxAllocLog2

/-- `BUCKET_COUNT`. -/
def bucketCount : Nat := maxAllocLog2 - minAllocLog2 + 1

/-- `sizeof(list_t)`, two pointers. -/
def listSize : Nat := 8

/-- The length of the array `node_is_split`. -/
def splitBytes : Nat := (1 <<< (bucketCount - 1)) / 8

/-- The static variables. The array `buckets` is known by its address, because
the lists are linked through its elements. -/
structure Statics where
  buckets : Nat
  bucketLimit : Nat
  nodeIsSplit : Nat → UInt8
  basePtr : Nat
  maxPtr : Nat

abbrev State : Type := Machine Statics

def setBucketLimit (value : Nat) : Program State Unit := do
  setStatics { ← statics with bucketLimit := value }

def setBasePtr (value : Nat) : Program State Unit := do
  setStatics { ← statics with basePtr := value }

def setMaxPtr (value : Nat) : Program State Unit := do
  setStatics { ← statics with maxPtr := value }

/-- `&buckets[bucket]`. -/
def bucketAt (bucket : Nat) : Program State Nat := do
  return (← statics).buckets + listSize * bucket

def updateMaxPtr (newValue : Nat) : Program State Bool := do
  setMaxPtr (← memHeapHi)
  let maxPtr := (← statics).maxPtr
  if newValue > maxPtr then do
    if (← memSbrk (toInt (wrapSub newValue maxPtr))) = sbrkFailed then
      return false
    else
      return true
  else
    return true

/-! ## Lists -/

/-- A pointer field of a `list_t` lies in the heap or in the array `buckets`. -/
def Linkable (machine : State) (address : Nat) : Prop :=
  machine.Owns address 4 ∨
    machine.statics.buckets ≤ address ∧
      address + 4 ≤ machine.statics.buckets + listSize * bucketCount

instance (address : Nat) : DecidablePred fun machine : State => Linkable machine address :=
  fun _ => inferInstanceAs (Decidable (_ ∨ _))

def getLink (address : Nat) : Program State Nat := do
  require fun machine => Linkable machine address
  view fun machine => machine.load address

def putLink (address value : Nat) : Program State Unit := do
  require fun machine => Linkable machine address
  change fun machine => machine.store address value

def getPrev (list : Nat) : Program State Nat := getLink list
def getNext (list : Nat) : Program State Nat := getLink (list + 4)
def setPrev (list value : Nat) : Program State Unit := putLink list value
def setNext (list value : Nat) : Program State Unit := putLink (list + 4) value

def listInit (list : Nat) : Program State Unit := do
  setPrev list list
  setNext list list

def listPush (list entry : Nat) : Program State Unit := do
  let prev ← getPrev list
  setPrev entry prev
  setNext entry list
  setNext prev entry
  setPrev list entry

def listRemove (entry : Nat) : Program State Unit := do
  let prev ← getPrev entry
  let next ← getNext entry
  setNext prev next
  setPrev next prev

def listPop (list : Nat) : Program State Nat := do
  let back ← getPrev list
  if back = list then
    return null
  else do
    listRemove back
    return back

/-! ## Nodes -/

/-- `ptr_for_node` for any value of `MAX_ALLOC_LOG2`. -/
def ptrForNodeIn (maxAllocLog2 basePtr index bucket : Nat) : Nat :=
  wrap (basePtr +
    wrap (wrap (wrapSub index (1 <<< bucket) + 1) <<< (maxAllocLog2 - bucket)))

/-- `node_for_ptr` for any value of `MAX_ALLOC_LOG2`. The difference of two
pointers is signed. -/
def nodeForPtrIn (maxAllocLog2 basePtr ptr bucket : Nat) : Nat :=
  toSizeT ((toInt (wrapSub ptr basePtr)).shiftRight (maxAllocLog2 - bucket) +
    ((1 <<< bucket : Nat) : Int) - 1)

def ptrForNode (index bucket : Nat) : Program State Nat := do
  return ptrForNodeIn maxAllocLog2 (← statics).basePtr index bucket

def nodeForPtr (ptr bucket : Nat) : Program State Nat := do
  return nodeForPtrIn maxAllocLog2 (← statics).basePtr ptr bucket

/-- The index of the sibling of a node. -/
def siblingIndex (index : Nat) : Nat := wrap ((wrapSub index 1 ^^^ 1) + 1)

def parentIsSplit (index : Nat) : Program State Nat := do
  let index := wrapSub index 1 / 2
  require fun _ => index / 8 < splitBytes
  return ((← statics).nodeIsSplit (index / 8)).toNat >>> (index % 8) &&& 1

def flipParentIsSplit (index : Nat) : Program State Unit := do
  let index := wrapSub index 1 / 2
  require fun _ => index / 8 < splitBytes
  let now ← statics
  setStatics { now with
    nodeIsSplit := Function.update now.nodeIsSplit (index / 8)
      (UInt8.ofNat ((now.nodeIsSplit (index / 8)).toNat ^^^ (1 <<< (index % 8)))) }

/-- Node 0 has no parent. -/
def flipUnlessTop (index : Nat) : Program State Unit :=
  if index ≠ 0 then flipParentIsSplit index else return ()

/-- The loop of `bucket_for_request`. From `2 ^ 32` on the size is zero and the
loop never ends. -/
def bucketLoop (request : Nat) : Nat → Nat → Nat → Program State Nat
  | 0, _, _ => fault
  | rounds + 1, bucket, size =>
      if size < request then
        bucketLoop request rounds (wrapSub bucket 1) (wrap (size * 2))
      else
        return bucket

def bucketForRequest (request : Nat) : Program State Nat :=
  bucketLoop request (bucketCount + 1) (bucketCount - 1) minAlloc

/-! ## Growing the tree -/

/-- The round of `lower_bucket_limit` for an address space that is entirely
free. -/
def relabelRoot (bucketLimit : Nat) : Program State Unit := do
  listRemove (← statics).basePtr
  setBucketLimit (bucketLimit - 1)
  listInit (← bucketAt (bucketLimit - 1))
  listPush (← bucketAt (bucketLimit - 1)) (← statics).basePtr

/-- The round of `lower_bucket_limit` for a tree in use. -/
def extendRoot (root bucketLimit : Nat) : Program State Bool := do
  let rightChild ← ptrForNode (root + 1) bucketLimit
  if ← updateMaxPtr (wrap (rightChild + listSize)) then do
    listPush (← bucketAt bucketLimit) rightChild
    setBucketLimit (bucketLimit - 1)
    listInit (← bucketAt (bucketLimit - 1))
    flipUnlessTop (wrapSub root 1 / 2)
    return true
  else
    return false

/-- The loop of `lower_bucket_limit`. Every round lowers `bucket_limit` by one. -/
def lowerLoop (bucket : Nat) : Nat → Program State Bool
  | 0 => fault
  | rounds + 1 => do
      let bucketLimit := (← statics).bucketLimit
      if bucket < bucketLimit then do
        let root ← nodeForPtr (← statics).basePtr bucketLimit
        if (← parentIsSplit root) = 0 then do
          relabelRoot bucketLimit
          lowerLoop bucket rounds
        else if ← extendRoot root bucketLimit then
          lowerLoop bucket rounds
        else
          return false
      else
        return true

def lowerBucketLimit (bucket : Nat) : Program State Bool := do
  lowerLoop bucket ((← statics).bucketLimit + 1)

/-! ## The package -/

/-- A tree of one free node of the smallest size. `mm_init` and the first
`mm_malloc` begin so. -/
def startTree : Program State Unit := do
  let brk ← memSbrk 0
  setMaxPtr brk
  setBasePtr brk
  setBucketLimit (bucketCount - 1)
  let _ ← updateMaxPtr (wrap ((← statics).basePtr + listSize))
  listInit (← bucketAt (bucketCount - 1))
  listPush (← bucketAt (bucketCount - 1)) (← statics).basePtr

def mmInit : Program State Int := do
  startTree
  return 0

/-- The first call of `mm_malloc` finds no `base_ptr`. -/
def startOnce : Program State Unit := do
  if (← statics).basePtr = null then
    startTree
  else
    return ()

/-- Split the parent of a left child, whose sibling goes to the list. -/
def splitParent (i bucket : Nat) : Program State Unit := do
  flipParentIsSplit i
  listPush (← bucketAt bucket) (← ptrForNode (wrap (i + 1)) bucket)

/-- The loop of `mm_malloc` that splits a node, at most once for each bucket. -/
def splitLoop (originalBucket : Nat) : Nat → Nat → Nat → Program State Unit
  | 0, _, _ => fault
  | rounds + 1, i, bucket =>
      if bucket < originalBucket then do
        splitParent (wrap (i * 2 + 1)) (bucket + 1)
        splitLoop originalBucket rounds (wrap (i * 2 + 1)) (bucket + 1)
      else
        return ()

/-- What `mm_malloc` does with a block from the list of a bucket. -/
def useBlock (request originalBucket bucket ptr : Nat) : Program State Nat := do
  let size := 1 <<< (maxAllocLog2 - bucket)
  let bytesNeeded := if bucket < originalBucket then size / 2 + listSize else size
  if ¬(← updateMaxPtr (wrap (ptr + bytesNeeded))) then do
    listPush (← bucketAt bucket) ptr
    return null
  else do
    let i ← nodeForPtr ptr bucket
    flipUnlessTop i
    splitLoop originalBucket (originalBucket - bucket + 1) i bucket
    put ptr request
    return wrap (ptr + headerSize)

/-- The loop of `mm_malloc`, where the first argument is `bucket + 1`. -/
def searchLoop (request originalBucket : Nat) : Nat → Program State Nat
  | 0 => return null
  | bucket + 1 => do
      if ¬(← lowerBucketLimit bucket) then
        return null
      else do
        let ptr ← listPop (← bucketAt bucket)
        if ptr = null then do
          if bucket ≠ (← statics).bucketLimit ∨ bucket = 0 then
            searchLoop request originalBucket bucket
          else if ¬(← lowerBucketLimit (bucket - 1)) then
            return null
          else do
            let ptr ← listPop (← bucketAt bucket)
            useBlock request originalBucket bucket ptr
        else
          useBlock request originalBucket bucket ptr

def mmMalloc (request : Nat) : Program State Nat := do
  if wrap (request + headerSize) > maxAlloc then
    return null
  else do
    startOnce
    let originalBucket ← bucketForRequest (wrap (request + headerSize))
    searchLoop request originalBucket (originalBucket + 1)

/-- The loop of `mm_free`, which returns `i` and `bucket`. Every round takes one
bucket off. -/
def mergeLoop : Nat → Nat → Nat → Program State (Nat × Nat)
  | 0, _, _ => fault
  | rounds + 1, i, bucket =>
      if i ≠ 0 then do
        flipParentIsSplit i
        if (← parentIsSplit i) ≠ 0 ∨ bucket = (← statics).bucketLimit then
          return (i, bucket)
        else do
          listRemove (← ptrForNode (siblingIndex i) bucket)
          mergeLoop rounds (wrapSub i 1 / 2) (wrapSub bucket 1)
      else
        return (i, bucket)

def mmFree (ptr : Nat) : Program State Unit := do
  if ptr = null then
    return ()
  else do
    let ptr := wrapSub ptr headerSize
    let bucket ← bucketForRequest (wrap ((← get ptr) + headerSize))
    let i ← nodeForPtr ptr bucket
    let (i, bucket) ← mergeLoop (bucket + 1) i bucket
    listPush (← bucketAt bucket) (← ptrForNode i bucket)

/-- `copySize` of `mm_realloc`, the first word of the old payload cut to the new
size. -/
def copySize (oldptr size : Nat) : Program State Nat := do
  let copySize ← get oldptr
  return if size < copySize then size else copySize

def mmRealloc (ptr size : Nat) : Program State Nat := do
  let newptr ← mmMalloc size
  if newptr = null then
    return null
  else do
    memcpy newptr ptr (← copySize ptr size)
    mmFree ptr
    return newptr

end MallocLab.Buddy
