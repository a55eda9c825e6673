import Pros.Pmm.Model

/-!
# The kernel heap

Model of `kernel/src/mm/heap.c`. The heap is a singly linked list of blocks. Each block starts with
a header in memory, its payload follows `HEAP_HEADER_SIZE` bytes later, and the size in the header
counts the payload only. Neighbours in the list that are also neighbours in memory are merged when
the second one is free.

`pmm_alloc` is a parameter: `pmm n` is what it answers to a request for `n` pages during the call,
`0` when it fails. As in the page allocator, a walk along the list that does not end within
`walkBound` steps is answered with `none`.
-/

namespace Pros

/-- `HEAP_ALIGNMENT`. -/
abbrev heapAlignment : Word := 16

/-- `SIZE_MAX`. -/
abbrev sizeMax : Word := BitVec.allOnes 64

/-- `HEAP_ALIGN_UP`. -/
def heapAlignUp (size align : Word) : Word := Word.alignUp size align

/-- `sizeof(struct heap_block)`: the size at offset 0, `is_free` at 8 and `next` at 16. -/
abbrev sizeofHeapBlock : Word := 24

/-- `HEAP_HEADER_SIZE`. -/
def heapHeaderSize : Word := heapAlignUp sizeofHeapBlock heapAlignment

/-- Memory and the variables of `heap.c`. `pages` is bookkeeping of the model and not in the
source: the physical pages the heap ever obtained. -/
structure Heap where
  mem : ByteMem
  heapBlockList : Word
  pages : List Word

namespace Heap

variable (s : Heap)

/-- `block->size`. -/
def size (block : Word) : Word := s.mem.load64 block

/-- `block->is_free`. -/
def isFree (block : Word) : Bool := s.mem (block + 8) ≠ 0

/-- `block->next`. -/
def next (block : Word) : Word := s.mem.load64 (block + 16)

/-- `block->size = v`. -/
def setSize (block v : Word) : Heap := { s with mem := s.mem.store64 block v }

/-- `block->is_free = v`. -/
def setIsFree (block : Word) (v : Bool) : Heap :=
  { s with mem := s.mem.store8 (block + 8) (if v then 1 else 0) }

/-- `block->next = v`. -/
def setNext (block v : Word) : Heap := { s with mem := s.mem.store64 (block + 16) v }

end Heap

/-- The loop of `heap_block_coalesce`: absorb the next block while it is free and starts where this
one ends. -/
def heapBlockCoalesceLoop : ℕ → Heap → Word → Option Heap
  | 0, _, _ => none
  | fuel + 1, s, block =>
    let blockEnd := block + heapHeaderSize + s.size block
    if s.next block ≠ 0 ∧ s.isFree (s.next block) ∧ blockEnd = s.next block then
      let s := s.setSize block (s.size block + (heapHeaderSize + s.size (s.next block)))
      let s := s.setNext block (s.next (s.next block))
      heapBlockCoalesceLoop fuel s block
    else some s

/-- `heap_block_coalesce`. -/
def heapBlockCoalesce (s : Heap) (block : Word) : Option Heap :=
  heapBlockCoalesceLoop walkBound s block

/-- `heap_block_split`: cut a free remainder off a block that is large enough for one. -/
def heapBlockSplit (s : Heap) (block size : Word) : Option Heap :=
  if s.size block < size + heapHeaderSize + heapAlignment then some s
  else
    let remainder := block + heapHeaderSize + size
    let s := s.setSize remainder (s.size block - heapHeaderSize - size)
    let s := s.setIsFree remainder true
    let s := s.setNext remainder (s.next block)
    let s := s.setNext block remainder
    let s := s.setSize block size
    -- the remainder may now touch a free block
    heapBlockCoalesce s remainder

/-- The search loop of `kmalloc`: the first free block with room for `size` bytes, or null. -/
def kmallocSearch (s : Heap) (size : Word) : ℕ → Word → Option Word
  | 0, _ => none
  | fuel + 1, search =>
    if search = 0 then some 0
    else if s.isFree search ∧ s.size search ≥ size then some search
    else kmallocSearch s size fuel (s.next search)

/-- The end of `kmalloc`, with the block found or made. -/
def kmallocTake (s : Heap) (block size : Word) : Option (Word × Heap) := do
  let s ← heapBlockSplit s block size
  return (block + heapHeaderSize, s.setIsFree block false)

section

variable (hhdm : Word) (pmm : Word → Word)

/-- A run of pages from the PMM becomes one free block at the head of the list. -/
def heapPushPages (s : Heap) (physAddr pages : Word) : Heap :=
  let block := pmmPhysToVirt hhdm physAddr
  let s := s.setSize block (pages * pageSize - heapHeaderSize)
  let s := s.setIsFree block true
  let s := s.setNext block s.heapBlockList
  { s with heapBlockList := block, pages := pmmBlock physAddr pages.toNat ++ s.pages }

/-- `heap_init`; `none` is the panic when there is no first page. The heap starts with no block, so
the first page is pushed on an empty list. -/
def heapInit (mem : ByteMem) : Option Heap :=
  let physAddr := pmm 1
  if physAddr = 0 then none
  else some (heapPushPages hhdm { mem, heapBlockList := 0, pages := [] } physAddr 1)

/-- `kmalloc`. -/
def kmalloc (s : Heap) (size : Word) : Option (Word × Heap) := do
  -- neither the rounding nor the page count below may wrap
  if size > sizeMax - heapHeaderSize - pageSize - heapAlignment then return (0, s)
  let size := heapAlignUp size heapAlignment
  let size := if size = 0 then heapAlignment else size
  let block ← kmallocSearch s size walkBound s.heapBlockList
  if block ≠ 0 then kmallocTake s block size
  else
    let pages := (heapHeaderSize + size + pageSize - 1) / pageSize
    let physAddr := pmm pages
    if physAddr = 0 then return (0, s)
    kmallocTake (heapPushPages hhdm s physAddr pages) (pmmPhysToVirt hhdm physAddr) size

/-- `kcalloc`. -/
def kcalloc (s : Heap) (num size : Word) : Option (Word × Heap) := do
  if size ≠ 0 ∧ num > sizeMax / size then return (0, s)
  let totalSize := num * size
  let (ptr, s) ← kmalloc hhdm pmm s totalSize
  if ptr = 0 then return (0, s)
  return (ptr, { s with mem := s.mem.memset ptr 0 totalSize.toNat })

/-- `kfree`. -/
def kfree (s : Heap) (virtAddr : Word) : Option Heap :=
  if virtAddr = 0 then some s
  else
    let block := virtAddr - heapHeaderSize
    heapBlockCoalesce (s.setIsFree block true) block

/-- The last case of `krealloc`: allocate, copy and free. -/
def kreallocMove (s : Heap) (virtAddr size : Word) : Option (Word × Heap) := do
  let block := virtAddr - heapHeaderSize
  let (newAddr, s) ← kmalloc hhdm pmm s size
  if newAddr = 0 then return (0, s)
  let s := { s with mem := s.mem.memcpy newAddr virtAddr (s.size block).toNat }
  let s ← kfree s virtAddr
  return (newAddr, s)

/-- `krealloc`. -/
def krealloc (s : Heap) (virtAddr size : Word) : Option (Word × Heap) := do
  if size > sizeMax - (heapAlignment - 1) then return (0, s)
  -- case 1: as `kmalloc`
  if virtAddr = 0 then kmalloc hhdm pmm s size
  -- case 2: as `kfree`
  else if size = 0 then
    let s ← kfree s virtAddr
    return (0, s)
  else
    let size := heapAlignUp size heapAlignment
    let block := virtAddr - heapHeaderSize
    -- case 3: the block is large enough
    if size ≤ s.size block then
      let s ← heapBlockSplit s block size
      return (virtAddr, s)
    else
      -- case 4: it is after absorbing what follows
      let s ← heapBlockCoalesce s block
      if size ≤ s.size block then
        let s ← heapBlockSplit s block size
        return (virtAddr, s)
      else
        -- case 5: move to a new block
        kreallocMove hhdm pmm s virtAddr size

end

end Pros
