import Pros.Fs.File

/-!
# The pages of a ramfs file

Model of the data part of `kernel/src/fs/ramfs/ramfs.c`: a file is an array of page pointers that
doubles when it is too short, and pages that are allocated when they are first written. The array
comes from `krealloc`, the pages come from `pmm_alloc`; both are operations on an abstract state of
the allocators, and both may fail. The allocators count how often that happened; this count has no
counterpart in the source.
-/

namespace Pros

/-- The fields of `struct vfs_node` and of `struct ramfs_node_data` that hold a file. -/
structure RamfsNode where
  flags : BitVec 32
  size : Word
  pages : Word
  pageCount : Word

/-- `krealloc` and `pmm_alloc(1)`: the result, the new memory and the new state, which tells the
number of null results. -/
structure RamfsAlloc (α : Type) where
  krealloc : α → ByteMem → Word → Word → Word × ByteMem × α
  pmmAlloc : α → ByteMem → Word × ByteMem × α
  failures : α → ℕ
  krealloc_failures : ∀ {a mem p n q mem' a'}, krealloc a mem p n = (q, mem', a') →
    failures a' = if q = 0 then failures a + 1 else failures a
  pmmAlloc_failures : ∀ {a mem phys mem' a'}, pmmAlloc a mem = (phys, mem', a') →
    failures a' = if phys = 0 then failures a + 1 else failures a

/-- A file, with the memory and the allocators. -/
structure RamfsState (α : Type) where
  mem : ByteMem
  alloc : α
  node : RamfsNode

section

variable {α : Type} (A : RamfsAlloc α) (hhdm : Word)

/-- The loop that doubles the page count. -/
def growCount (index : Word) : ℕ → Word → Option Word
  | 0, _ => none
  | fuel + 1, newCount => if newCount ≤ index then growCount index fuel (newCount * 2)
      else some newCount

/-- `node_data->pages[index]`. -/
def RamfsState.entry (s : RamfsState α) (index : Word) : Word :=
  s.mem.load64 (s.node.pages + 8 * index)

/-- The part of `ramfs_walk_page` that makes the array long enough; it says whether it did. -/
def ramfsGrow (s : RamfsState α) (index : Word) : Option (Bool × RamfsState α) := do
  let count := s.node.pageCount
  let newCount ← growCount index 65 (if count ≠ 0 then count * 2 else 4)
  let (newPages, mem, alloc) := A.krealloc s.alloc s.mem s.node.pages (newCount * 8)
  if newPages = 0 then return (false, { s with mem, alloc })
  return (true, { s with
    mem := mem.memset (newPages + 8 * count) 0 ((newCount - count) * 8).toNat
    alloc
    node := { s.node with pages := newPages, pageCount := newCount } })

/-- The part of `ramfs_walk_page` that allocates a page for an empty entry. -/
def ramfsNewPage (s : RamfsState α) (index : Word) : Word × RamfsState α :=
  let (physAddr, mem, alloc) := A.pmmAlloc s.alloc s.mem
  if physAddr = 0 then (0, { s with mem, alloc })
  else
    let virtAddr := pmmPhysToVirt hhdm physAddr
    let mem := mem.memset virtAddr 0 pageSize.toNat
    (virtAddr, { s with mem := mem.store64 (s.node.pages + 8 * index) virtAddr, alloc })

/-- The end of `ramfs_walk_page`, with an array that is long enough. -/
def ramfsPageAt (s : RamfsState α) (index : Word) (alloc : Bool) : Word × RamfsState α :=
  if s.entry index = 0 then
    if !alloc then (0, s) else ramfsNewPage A hhdm s index
  else (s.entry index, s)

/-- `ramfs_walk_page`. -/
def ramfsWalkPage (s : RamfsState α) (index : Word) (alloc : Bool) :
    Option (Word × RamfsState α) :=
  if index ≥ s.node.pageCount then
    if !alloc then some (0, s)
    else do
      let (grown, s) ← ramfsGrow A s index
      if !grown then return (0, s)
      return ramfsPageAt A hhdm s index alloc
  else some (ramfsPageAt A hhdm s index alloc)

/-- `ramfs_get_chunk_info`: the size of the chunk, its page and its offset in the page. -/
def ramfsGetChunkInfo (offset remaining : Word) : Word × Word × Word :=
  let pageIndex := offset / pageSize
  let pageOffset := offset % pageSize
  let chunkSize := pageSize - pageOffset
  (if chunkSize > remaining then remaining else chunkSize, pageIndex, pageOffset)

/-- The loop of `ramfs_ops_read`: the bytes of the buffer from here on, and the state. -/
def ramfsReadLoop : ℕ → RamfsState α → Word → Word → Option (List (BitVec 8) × RamfsState α)
  | 0, _, _, _ => none
  | fuel + 1, s, offset, remaining =>
    if remaining = 0 then some ([], s)
    else do
      let (chunkSize, pageIndex, pageOffset) := ramfsGetChunkInfo offset remaining
      let (pageAddr, s) ← ramfsWalkPage A hhdm s pageIndex false
      let chunk :=
        if pageAddr ≠ 0 then s.mem.bytes (pageAddr + pageOffset) chunkSize.toNat
        else List.replicate chunkSize.toNat 0
      let (rest, s) ← ramfsReadLoop fuel s (offset + chunkSize) (remaining - chunkSize)
      return (chunk ++ rest, s)

/-- `ramfs_ops_read`: the bytes read, or a negated error. -/
def ramfsOpsRead (s : RamfsState α) (offset size : Word) :
    Option (Except ℕ (List (BitVec 8)) × RamfsState α) := do
  if s.node.flags &&& vfsFile = 0 then return (.error einval.toNat, s)
  if offset ≥ s.node.size then return (.ok [], s)
  let maxSize := s.node.size - offset
  let size := if size > maxSize then maxSize else size
  let (bytes, s) ← ramfsReadLoop A hhdm (size.toNat + 1) s offset size
  return (.ok bytes, s)

/-- The loop of `ramfs_ops_write` for the rest of the buffer: the number of bytes written by it, the
offset after them and the state. -/
def ramfsWriteLoop : ℕ → RamfsState α → Word → Word → List (BitVec 8) →
    Option (Word × Word × RamfsState α)
  | 0, _, _, _, _ => none
  | fuel + 1, s, offset, actualSize, buffer =>
    if buffer = [] then some (actualSize, offset, s)
    else do
      let (chunkSize, pageIndex, pageOffset) :=
        ramfsGetChunkInfo offset (BitVec.ofNat 64 buffer.length)
      let (pageAddr, s) ← ramfsWalkPage A hhdm s pageIndex true
      if pageAddr = 0 then return (actualSize, offset, s)
      let s := { s with
        mem := s.mem.write (pageAddr + pageOffset) (buffer.take chunkSize.toNat) }
      ramfsWriteLoop fuel s (offset + chunkSize) (actualSize + chunkSize)
        (buffer.drop chunkSize.toNat)

/-- `ramfs_ops_write` of the bytes `buffer`. -/
def ramfsOpsWrite (s : RamfsState α) (offset : Word) (buffer : List (BitVec 8)) :
    Option (Int × RamfsState α) := do
  if s.node.flags &&& vfsFile = 0 then return (-einval, s)
  let (actualSize, offset, s) ← ramfsWriteLoop A hhdm (buffer.length + 1) s offset 0 buffer
  if actualSize > 0 ∧ offset > s.node.size then
    return (actualSize.toInt, { s with node := { s.node with size := offset } })
  return (actualSize.toInt, s)

end

end Pros
