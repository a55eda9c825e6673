import Pros.Lib.Align
import Pros.Lib.ByteMem

/-!
# The physical page allocator

Model of `kernel/src/mm/pmm.c`. Free pages form a last-in first-out list whose links are stored in
the pages themselves: the first word of a free page, read through the higher half direct map
(HHDM), is the address of the next free page. Physical page `p` is seen at `p + hhdm`.

A walk along the list is a loop that the source bounds by nothing. The model bounds it by
`walkBound`, the number of addresses, and answers `none` past it; `Pmm.FreeList` proves that the
bound is never met on a list that ends.
-/

namespace Pros

/-- `PAGE_SIZE`. -/
abbrev pageSize : Word := 4096

/-- Bound of the model for a walk along a linked list: the number of addresses. -/
def walkBound : ℕ := 2 ^ 64

/-- `struct limine_memmap_entry`. -/
structure MemmapEntry where
  /-- Physical address of the first byte. -/
  base : Word
  /-- Number of bytes. -/
  length : Word
  /-- What the memory is used for, `LIMINE_MEMMAP_USABLE` and so on. -/
  type : Word
  deriving DecidableEq, Repr

/-- `LIMINE_MEMMAP_USABLE`. -/
abbrev limineMemmapUsable : Word := 0

/-- Memory together with the variables of `pmm.c`. -/
structure Pmm where
  /-- Kernel memory, addressed through the HHDM. -/
  mem : ByteMem
  /-- `free_list_head`, null when no page is free. -/
  freeListHead : Word
  /-- `max_phys_addr`. -/
  maxPhysAddr : Word

/-- `PMM_ALIGN_UP`. -/
def pmmAlignUp (x align : Word) : Word := Word.alignUp x align

/-- `PMM_ALIGN_DOWN`. -/
def pmmAlignDown (x align : Word) : Word := Word.alignDown x align

/-- `node->next`. -/
def Pmm.next (s : Pmm) (node : Word) : Word := s.mem.load64 node

/-- `node->next = v`. -/
def Pmm.setNext (s : Pmm) (node v : Word) : Pmm := { s with mem := s.mem.store64 node v }

/-- The pages `base`, `base + PAGE_SIZE`, ..., `n` of them. -/
def pmmBlock (base : Word) (n : ℕ) : List Word :=
  (List.range n).map fun i => base + BitVec.ofNat 64 i * pageSize

section

variable (hhdm : Word)

/-- `pmm_phys_to_virt`. -/
def pmmPhysToVirt (physAddr : Word) : Word := physAddr + hhdm

/-- `pmm_virt_to_phys`. -/
def pmmVirtToPhys (virtAddr : Word) : Word := virtAddr - hhdm

/-- `pmm_init`: no page is free, and `max_phys_addr` is the highest end of an entry. `none` is the
panic on an empty memory map. -/
def pmmInit (memmap : List MemmapEntry) (mem : ByteMem) (maxPhysAddr : Word) : Option Pmm :=
  if memmap = [] then none
  else some
    { mem
      freeListHead := 0
      maxPhysAddr := memmap.foldl (fun top e =>
        let entryTop := e.base + e.length
        if top < entryTop then entryTop else top) maxPhysAddr }

/-- The loop of `pmm_free`: push `count` pages, lowest address first. -/
def pmmFreeLoop : ℕ → Pmm → Word → Pmm
  | 0, s, _ => s
  | count + 1, s, nextAddr =>
    let node := pmmPhysToVirt hhdm nextAddr
    let s := s.setNext node s.freeListHead
    pmmFreeLoop count { s with freeListHead := node } (nextAddr + pageSize)

/-- `pmm_free`. Physical address `0` is the failure value of `pmm_alloc`, freeing it does nothing. -/
def pmmFree (s : Pmm) (physAddr count : Word) : Pmm :=
  if physAddr = 0 then s else pmmFreeLoop hhdm count.toNat s physAddr

/-- The page loop of `pmm_claim` over one entry, with the number of pages claimed so far. -/
def pmmClaimLoop (alignedTop : Word) : ℕ → Word → Word × Pmm → Word × Pmm
  | 0, _, r => r
  | fuel + 1, physAddr, r =>
    if physAddr < alignedTop then
      pmmClaimLoop alignedTop fuel (physAddr + pageSize) (r.1 + 1, pmmFree hhdm r.2 physAddr 1)
    else r

/-- What `pmm_claim` does with one entry of the memory map. -/
def pmmClaimEntry (memmapType : Word) (r : Word × Pmm) (e : MemmapEntry) : Word × Pmm :=
  if e.type ≠ memmapType then r
  else
    let alignedBase := pmmAlignUp e.base pageSize
    let alignedTop := pmmAlignDown (e.base + e.length) pageSize
    if alignedBase ≥ alignedTop then r
    else pmmClaimLoop hhdm alignedTop walkBound alignedBase r

/-- `pmm_claim`: push the whole pages of every entry of the given type, and count them. -/
def pmmClaim (memmap : List MemmapEntry) (s : Pmm) (memmapType : Word) : Word × Pmm :=
  memmap.foldl (pmmClaimEntry hhdm memmapType) (0, s)

/-- The inner loop of `pmm_alloc`: each of the next `k` nodes lies one page below the one before. -/
def pmmContiguous (s : Pmm) : ℕ → Word → Bool
  | 0, _ => true
  | k + 1, currNode =>
    if currNode - pageSize = s.next currNode then pmmContiguous s k (s.next currNode) else false

/-- The outer loop of `pmm_alloc`: the first node that starts a run of `k + 1` pages, together with
the node before it. `some none` when the list ends first. -/
def pmmSearch (s : Pmm) (k : ℕ) : ℕ → Word → Word → Option (Option (Word × Word))
  | 0, _, _ => none
  | fuel + 1, prevNode, startNode =>
    if startNode = 0 then some none
    else if pmmContiguous s k startNode then some (some (prevNode, startNode))
    else pmmSearch s k fuel startNode (s.next startNode)

/-- `pmm_alloc`: the lowest address of a run of `count` pages, now off the list, or `0`. -/
def pmmAlloc (s : Pmm) (count : Word) : Option (Word × Pmm) := do
  match ← pmmSearch s (count - 1).toNat walkBound 0 s.freeListHead with
  | none => return (0, s)
  | some (prevNode, startNode) =>
    let endNode := s.next^[(count - 1).toNat] (s.next startNode)
    let s' := if prevNode = 0 then { s with freeListHead := endNode } else s.setNext prevNode endNode
    return (pmmVirtToPhys hhdm startNode - (count - 1) * pageSize, s')

/-- The loop of `pmm_get_free_page_count`. -/
def pmmCountLoop (s : Pmm) : ℕ → Word → Word → Option Word
  | 0, _, _ => none
  | fuel + 1, node, count =>
    if node = 0 then some count else pmmCountLoop s fuel (s.next node) (count + 1)

/-- `pmm_get_free_page_count`. -/
def pmmGetFreePageCount (s : Pmm) : Option Word := pmmCountLoop s walkBound s.freeListHead 0

end

end Pros
