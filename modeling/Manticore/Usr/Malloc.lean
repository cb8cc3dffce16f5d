import Manticore.Base.Word
import Manticore.Base.Memory
import Manticore.Base.Linked

/-!
# The user-space heap: functions

`usr/liblinux/src/malloc.c`.  A segment is 2 MiB and starts with its own metadata; it is
cut into 64 KiB pages, each of which is claimed for one block size and keeps its free
blocks in a list through the blocks themselves.  `malloc_os_alloc` is a stream of answers:
its `n`-th call returns `os n`, and what it returns is filled with zeros.
-/

namespace Manticore

def mallocSegmentSize : ℕ := 0x200000
def mallocPageSize : ℕ := 0x10000
def smallObjSizeMax : ℕ := 1024
def numSizeClasses : ℕ := (smallObjSizeMax + 7) >>> 3
def sizeofMallocPage : ℕ := 40
def sizeofMallocSegment : ℕ := 24
def sizeofMallocHeap : ℕ := 8 * numSizeClasses + 16

/-! ## Structures in memory -/

def blockNext (m : Mem) (block : ℕ) : ℕ := load m block 8

def pageFree (m : Mem) (page : ℕ) : ℕ := load m page 8
def pageUsed (m : Mem) (page : ℕ) : ℕ := load m (page + 8) 8
def pageCapacity (m : Mem) (page : ℕ) : ℕ := load m (page + 16) 8
def pageBlockSize (m : Mem) (page : ℕ) : ℕ := load m (page + 24) 8
def pageIdx (m : Mem) (page : ℕ) : ℕ := load m (page + 32) 1

def segmentPrev (m : Mem) (segment : ℕ) : ℕ := load m segment 8
def segmentNext (m : Mem) (segment : ℕ) : ℕ := load m (segment + 8) 8
def segmentNrPages (m : Mem) (segment : ℕ) : ℕ := load m (segment + 16) 8

/-- `&segment->pages[i]`. -/
def segmentPage (segment i : ℕ) : ℕ := segment + sizeofMallocSegment + sizeofMallocPage * i

/-- `&heap->pages[c]`. -/
def heapSlot (heap c : ℕ) : ℕ := heap + 8 * c

/-- Addresses of `heap->segment_queue.head` and `.tail`. -/
def heapQueueHead (heap : ℕ) : ℕ := heap + 8 * numSizeClasses
def heapQueueTail (heap : ℕ) : ℕ := heap + 8 * numSizeClasses + 8

/-- The memory of a process, and how often it has asked the system for a segment. -/
structure UserMem where
  mem : Mem
  osCalls : ℕ

/-! ## Pages -/

def toBlockSize (objSize : ℕ) : ℕ := add64 objSize 7 &&& not64 7

def toSizeClass (objSize : ℕ) : ℕ := toBlockSize objSize / 8

def mallocPageRemaining (m : Mem) (page : ℕ) : ℕ := sub64 (pageCapacity m page) (pageUsed m page)

def mallocObjToPage (segment obj : ℕ) : ℕ :=
  segmentPage segment (sub64 obj segment / mallocPageSize)

def mallocPageAppendObj (m : Mem) (page obj : ℕ) : Mem :=
  let m := store m obj 8 (pageFree m page)
  store m page 8 obj

/-- Returns `0` if the page has no free block. -/
def mallocPageAllocObj (m : Mem) (page : ℕ) : ℕ × Mem :=
  let block := pageFree m page
  if block ≠ 0 then
    let m := store m page 8 (blockNext m block)
    (block, store m (page + 8) 8 (add64 (pageUsed m page) 1))
  else (0, m)

def mallocObjToSegment (obj : ℕ) : ℕ := obj - obj % mallocSegmentSize

def mallocSegmentMetadataSize (m : Mem) (segment : ℕ) : ℕ :=
  sizeofMallocSegment + sizeofMallocPage * segmentNrPages m segment

def mallocSegmentPageObj (m : Mem) (segment page : ℕ) : ℕ :=
  if pageIdx m page = 0 then segment + mallocSegmentMetadataSize m segment
  else segment + pageIdx m page * mallocPageSize

def mallocSegmentPageSize (m : Mem) (segment page : ℕ) : ℕ :=
  if pageIdx m page = 0 then sub64 mallocPageSize (mallocSegmentMetadataSize m segment)
  else mallocPageSize

/-! ## Segments -/

def mallocSegmentInit (m : Mem) (segment segmentSize : ℕ) : Mem :=
  let m := store m segment 8 0
  let m := store m (segment + 8) 8 0
  let m := store m (segment + 16) 8 (segmentSize / mallocPageSize)
  (List.range (segmentNrPages m segment)).foldl
    (fun m idx => store m (segmentPage segment idx + 32) 1 idx) m

/-- The answers of `malloc_os_alloc`: the address that each call returns, and the bytes that are
there. -/
structure MallocOs where
  addr : ℕ → ℕ
  byte : ℕ → ℕ → UInt8

instance : CoeFun MallocOs fun _ => ℕ → ℕ := ⟨MallocOs.addr⟩

/-- Returns `0` for out of memory. -/
def mallocHeapAllocSegment (os : MallocOs) (s : UserMem) : ℕ × UserMem :=
  let p := os s.osCalls
  let m := memcpy s.mem p (os.byte s.osCalls) mallocSegmentSize
  let s := { s with osCalls := s.osCalls + 1 }
  if p = 0 then (0, s) else (p, { s with mem := mallocSegmentInit m p mallocSegmentSize })

def mallocSegmentQueueRemove (m : Mem) (heap segment : ℕ) : Mem :=
  let m := if segment = load m (heapQueueHead heap) 8 then
    store m (heapQueueHead heap) 8 (segmentNext m segment) else m
  let m := if segment = load m (heapQueueTail heap) 8 then
    store m (heapQueueTail heap) 8 (segmentPrev m segment) else m
  let m := if segmentPrev m segment ≠ 0 then
    store (store m (segmentPrev m segment + 8) 8 (segmentNext m segment)) segment 8 0 else m
  if segmentNext m segment ≠ 0 then
    store (store m (segmentNext m segment) 8 (segmentPrev m segment)) (segment + 8) 8 0 else m

def mallocSegmentQueuePop (m : Mem) (heap : ℕ) : Mem :=
  if load m (heapQueueHead heap) 8 ≠ 0 then
    mallocSegmentQueueRemove m heap (load m (heapQueueHead heap) 8)
  else m

def mallocSegmentQueueEnqueue (m : Mem) (heap segment : ℕ) : Mem :=
  let m := store m segment 8 (load m (heapQueueTail heap) 8)
  let m := store m (segment + 8) 8 0
  if load m (heapQueueTail heap) 8 ≠ 0 then
    let m := store m (load m (heapQueueTail heap) 8 + 8) 8 segment
    store m (heapQueueTail heap) 8 segment
  else
    let m := store m (heapQueueTail heap) 8 segment
    store m (heapQueueHead heap) 8 segment

/-- `none` is a failed `assert`. -/
def mallocSegmentClaimPage (m : Mem) (segment page blockSize : ℕ) : Option Mem :=
  if pageBlockSize m page ≠ 0 then none
  else
    let m := store m (page + 24) 8 blockSize
    let m := store m (page + 8) 8 0
    let m := store m (page + 16) 8 (mallocSegmentPageSize m segment page / blockSize)
    let obj := mallocSegmentPageObj m segment page
    some ((List.range (pageCapacity m page)).foldl (fun m idx =>
      mallocPageAppendObj m page (obj + (pageCapacity m page - idx - 1) * blockSize)) m)

/-- The loop of `malloc_heap_alloc_page` over the pages of a segment; `0` if none of them
will do. -/
def mallocSegmentFindPage (segment blockSize : ℕ) : List ℕ → Mem → Option (ℕ × Mem)
  | [], m => some (0, m)
  | i :: rest, m =>
      let page := segmentPage segment i
      if pageBlockSize m page = 0 then do
        let m ← mallocSegmentClaimPage m segment page blockSize
        if mallocPageRemaining m page ≠ 0 then some (page, m)
        else mallocSegmentFindPage segment blockSize rest m
      else if pageBlockSize m page ≠ blockSize then
        mallocSegmentFindPage segment blockSize rest m
      else if mallocPageRemaining m page ≠ 0 then some (page, m)
      else mallocSegmentFindPage segment blockSize rest m

/-! ## The heap -/

/-- The first segment of the queue, or a new one; `0` for out of memory. -/
def mallocHeapGetSegment (os : MallocOs) (heap : ℕ) (s : UserMem) : ℕ × UserMem :=
  let segment := load s.mem (heapQueueHead heap) 8
  if segment = 0 then
    let (segment, s) := mallocHeapAllocSegment os s
    if segment = 0 then (0, s)
    else (segment, { s with mem := mallocSegmentQueueEnqueue s.mem heap segment })
  else (segment, s)

/-- Returns `0` for out of memory; `none` is a failed `assert` or out of fuel. -/
def mallocHeapAllocPage (os : MallocOs) (heap : ℕ) : ℕ → UserMem → ℕ → Option (ℕ × UserMem)
  | 0, _, _ => none
  | fuel + 1, s, size =>
      let (segment, s) := mallocHeapGetSegment os heap s
      if segment = 0 then some (0, s)
      else do
        let (page, m) ← mallocSegmentFindPage segment (toBlockSize size)
          (List.range (segmentNrPages s.mem segment)) s.mem
        if page ≠ 0 then some (page, { s with mem := m })
        else mallocHeapAllocPage os heap fuel { s with mem := mallocSegmentQueuePop m heap } size

def mallocHeapGetPage (os : MallocOs) (heap fuel : ℕ) (s : UserMem) (size : ℕ) :
    Option (ℕ × UserMem) :=
  let slot := heapSlot heap (toSizeClass size)
  let page := load s.mem slot 8
  if pageFree s.mem page ≠ 0 then some (page, s)
  else do
    let (page, s) ← mallocHeapAllocPage os heap fuel s size
    if page ≠ 0 then some (page, { s with mem := store s.mem slot 8 page }) else some (page, s)

/-- The size `malloc_heap_alloc_small` allocates for a request. -/
def smallSize (size : ℕ) : ℕ := if size = 0 then 8 else size

def mallocHeapAllocSmall (os : MallocOs) (heap fuel : ℕ) (s : UserMem) (size : ℕ) :
    Option (ℕ × UserMem) := do
  let (page, s) ← mallocHeapGetPage os heap fuel s (smallSize size)
  if page = 0 then some (0, s)
  else
    let (obj, m) := mallocPageAllocObj s.mem page
    some (obj, { s with mem := m })

def mallocHeapAlloc (os : MallocOs) (heap fuel : ℕ) (s : UserMem) (size : ℕ) :
    Option (ℕ × UserMem) :=
  if size < smallObjSizeMax then mallocHeapAllocSmall os heap fuel s size else some (0, s)

/-- `none` is a failed `assert`. -/
def mallocHeapFree (s : UserMem) (ptr : ℕ) : Option UserMem :=
  let page := mallocObjToPage (mallocObjToSegment ptr) ptr
  let m := mallocPageAppendObj s.mem page ptr
  if pageUsed m page > 0 then
    some { s with mem := store m (page + 8) 8 (sub64 (pageUsed m page) 1) }
  else none

/-- `free`. -/
def freeObj (s : UserMem) (ptr : ℕ) : Option UserMem :=
  if ptr = 0 then some s else mallocHeapFree s ptr

def mallocHeapInit (m : Mem) (heap emptyPage : ℕ) : Mem :=
  (List.range numSizeClasses).foldl (fun m idx => store m (heapSlot heap idx) 8 emptyPage) m

end Manticore
