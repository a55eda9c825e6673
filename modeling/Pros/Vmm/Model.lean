import Pros.Pmm.Model

/-!
# Virtual memory

Model of `kernel/src/mm/vmm.c` and of the `arch_vmm_*` functions of both architectures. A page
table is a page of 512 entries, read and written through the HHDM; four levels of tables lead from
a root to the frame of a page. The walk is the same on both architectures, the entries are not.

A context is the value of `struct vmm_context`, and a null pointer to one is `none`. `kmalloc` and
`kfree` are parameters that say what the call does to memory and to the free pages. `none` as the
result of an operation is a walk along the free list that does not end (or, in `vmmInit`, a panic).
-/

namespace Pros

/-- The architectures the kernel is built for. -/
inductive Arch
  | x86_64
  | aarch64
  deriving DecidableEq, Repr

/-- `1ULL << k`. -/
abbrev bit (k : ℕ) : Word := 1#64 <<< k

/-- `VMM_PRESENT`. -/
abbrev vmmPresent : Word := bit 0

/-- `VMM_WRITABLE`. -/
abbrev vmmWritable : Word := bit 1

/-- `VMM_USER`. -/
abbrev vmmUser : Word := bit 2

/-- `VMM_CACHE_DISABLE`. -/
abbrev vmmCacheDisable : Word := bit 3

/-- `VMM_NO_EXECUTE`. -/
abbrev vmmNoExecute : Word := bit 4

/-- `VMM_LEVEL_BITS`. -/
abbrev vmmLevelBits : ℕ := 9

/-- `VMM_LEVELS`. -/
abbrev vmmLevels : ℕ := 4

/-- `VMM_VA_BITS`. -/
abbrev vmmVaBits : ℕ := 12 + vmmLevels * vmmLevelBits

/-- `VMM_ADDR_SPLIT`: addresses below belong to a context, the others to the kernel. -/
abbrev vmmAddrSplit : Word := bit (vmmVaBits - 1)

/-- `VMM_INDEX`. -/
def vmmIndex (virtAddr : Word) (level : ℕ) : Word :=
  (virtAddr >>> (12 + level * vmmLevelBits)) &&& (bit vmmLevelBits - 1)

/-! ## Entries -/

/-- `if (c) x |= bits`. -/
def orIf (c : Prop) [Decidable c] (bits x : Word) : Word := if c then x ||| bits else x

namespace Arch

variable (arch : Arch)

/-- `arch_vmm_make_pte`. -/
def vmmMakePte (physAddr vmmFlags : Word) (isTable : Bool) : Word :=
  match arch with
  | x86_64 =>
    let pte := physAddr &&& ~~~0xFFF
    let pte := orIf (vmmFlags &&& vmmPresent ≠ 0) (bit 0) pte
    let pte := orIf (vmmFlags &&& vmmWritable ≠ 0) (bit 1) pte
    let pte := orIf (vmmFlags &&& vmmUser ≠ 0) (bit 2) pte
    let pte := orIf (vmmFlags &&& vmmCacheDisable ≠ 0) (bit 4) pte
    orIf (vmmFlags &&& vmmNoExecute ≠ 0) (bit 63) pte
  | aarch64 =>
    let pte := physAddr &&& 0x0000FFFFFFFFF000
    if isTable then pte ||| 0x3
    else
      let pte := pte ||| (bit 1)
      let pte := orIf (vmmFlags &&& vmmPresent ≠ 0) (bit 0) pte
      let pte := pte ||| (bit 10)
      let pte := pte ||| (3#64 <<< 8)
      let pte := orIf (vmmFlags &&& vmmCacheDisable ≠ 0) (bit 2) pte
      let pte := orIf (vmmFlags &&& vmmUser ≠ 0) (bit 6) pte
      let pte := orIf (¬ vmmFlags &&& vmmWritable ≠ 0) (bit 7) pte
      orIf (vmmFlags &&& vmmNoExecute ≠ 0) (bit 53) (orIf (vmmFlags &&& vmmNoExecute ≠ 0)
        (bit 54) pte)

/-- `arch_vmm_pte_is_present`. -/
def vmmPteIsPresent (pte : Word) : Bool :=
  match arch with
  | x86_64 => pte &&& (bit 0) ≠ 0
  | aarch64 => pte &&& 0x1 ≠ 0

/-- `arch_vmm_pte_get_phys`. -/
def vmmPteGetPhys (pte : Word) : Word :=
  match arch with
  | x86_64 => pte &&& 0x000FFFFFFFFFF000
  | aarch64 => pte &&& 0x0000FFFFFFFFF000

/-- `arch_vmm_pte_get_flags`. -/
def vmmPteGetFlags (pte : Word) : Word :=
  match arch with
  | x86_64 =>
    let flags := orIf (pte &&& (bit 0) ≠ 0) vmmPresent 0
    let flags := orIf (pte &&& (bit 1) ≠ 0) vmmWritable flags
    let flags := orIf (pte &&& (bit 2) ≠ 0) vmmUser flags
    let flags := orIf (pte &&& (bit 4) ≠ 0) vmmCacheDisable flags
    orIf (pte &&& (bit 63) ≠ 0) vmmNoExecute flags
  | aarch64 =>
    let flags := orIf (pte &&& (bit 0) ≠ 0) vmmPresent 0
    let flags := orIf (¬ pte &&& (bit 7) ≠ 0) vmmWritable flags
    let flags := orIf (pte &&& (bit 6) ≠ 0) vmmUser flags
    let flags := orIf (pte &&& (bit 2) ≠ 0) vmmCacheDisable flags
    orIf (pte &&& (bit 54) ≠ 0) vmmNoExecute flags

/-- `arch_vmm_fault_is_present`. -/
def vmmFaultIsPresent (faultCode : Word) : Bool :=
  match arch with
  | x86_64 => faultCode &&& (bit 0) ≠ 0
  | aarch64 => ¬ (faultCode &&& 0x3F) &&& 0x3C = 0x04

end Arch

/-! ## State -/

/-- `struct vmm_context`. -/
structure VmmContext where
  /-- Physical address of the root page table. -/
  rootPhys : Word
  /-- HHDM address of the root page table. -/
  rootVirt : Word
  /-- Start of the range that is mapped on demand. -/
  demandPageLo : Word
  /-- End of this range; no range when both are zero. -/
  demandPageHi : Word
  deriving DecidableEq, Repr

/-- The page allocator with the variables of `vmm.c` and the root registers. -/
structure Vmm where
  pmm : Pmm
  vmmKernelContext : Option VmmContext
  vmmCurrentContext : Option VmmContext
  /-- `CR3` on x86_64, `TTBR0_EL1` on AArch64. -/
  userRoot : Word
  /-- `TTBR1_EL1`, on AArch64 only. -/
  ttbr1 : Word

/-- `table[index]`. -/
def Pmm.entry (s : Pmm) (table index : Word) : Word := s.mem.load64 (table + 8 * index)

/-- `table[index] = pte`. -/
def Pmm.setEntry (s : Pmm) (table index pte : Word) : Pmm :=
  { s with mem := s.mem.store64 (table + 8 * index) pte }

/-- `memset(table, 0, PAGE_SIZE)`. -/
def Pmm.clearPage (s : Pmm) (table : Word) : Pmm :=
  { s with mem := s.mem.memset table 0 pageSize.toNat }

section

variable (arch : Arch) (hhdm : Word)

/-! ## Roots -/

/-- `arch_vmm_get_kernel_root`. -/
def archVmmGetKernelRoot (v : Vmm) : Word :=
  match arch with
  | .x86_64 => v.userRoot
  | .aarch64 => v.ttbr1 &&& 0x0000FFFFFFFFFFFE

/-- `arch_vmm_set_user_root`. -/
def archVmmSetUserRoot (v : Vmm) (physAddr : Word) : Vmm := { v with userRoot := physAddr }

/-- A new page filled with zeros, or `0`. -/
def newTable (s : Pmm) : Option (Word × Pmm) := do
  let (phys, s) ← pmmAlloc hhdm s 1
  if phys = 0 then return (0, s)
  return (phys, s.clearPage (pmmPhysToVirt hhdm phys))

/-- `arch_vmm_ensure_user_root`. -/
def archVmmEnsureUserRoot (v : Vmm) : Option (Word × Vmm) :=
  match arch with
  | .x86_64 => some (archVmmGetKernelRoot arch v, v)
  | .aarch64 => do
    let rootPhys := v.userRoot &&& 0x0000FFFFFFFFFFFE
    if rootPhys ≠ 0 then return (rootPhys, v)
    let (rootPhys, pmm) ← newTable hhdm v.pmm
    if rootPhys = 0 then return (0, { v with pmm })
    return (rootPhys, archVmmSetUserRoot { v with pmm } rootPhys)

/-- The loop of the x86_64 `arch_vmm_new_context_root` over the entries 256..511. -/
def copyKernelEntries (s : Pmm) (rootVirt kernelRootVirt : Word) : Pmm :=
  (List.range 256).foldl (fun s k =>
    let i := BitVec.ofNat 64 (256 + k)
    s.setEntry rootVirt i (s.entry kernelRootVirt i)) s

/-- `arch_vmm_new_context_root`. -/
def archVmmNewContextRoot (s : Pmm) (kernelRootPhys : Word) : Option (Word × Pmm) := do
  let (rootPhys, s) ← newTable hhdm s
  if rootPhys = 0 then return (0, s)
  match arch with
  | .x86_64 =>
    return (rootPhys,
      copyKernelEntries s (pmmPhysToVirt hhdm rootPhys) (pmmPhysToVirt hhdm kernelRootPhys))
  | .aarch64 => return (rootPhys, s)

/-! ## Contexts -/

/-- `vmm_init`. The kernel stops with a panic when the boot loader chose another paging mode than
the one asked for, when `kmalloc` fails, or when there is no root. -/
def vmmInit (pagingModeOk : Bool) (kmalloc : Pmm → Option (Word × Pmm)) (v : Vmm) :
    Option Vmm := do
  if !pagingModeOk then none
  let (ptr, pmm) ← kmalloc v.pmm
  if ptr = 0 then none
  let (userRoot, v) ← archVmmEnsureUserRoot arch hhdm { v with pmm }
  if userRoot = 0 then none
  let ctx : VmmContext :=
    { rootPhys := userRoot
      rootVirt := pmmPhysToVirt hhdm userRoot
      demandPageLo := 0
      demandPageHi := 0 }
  return { v with vmmKernelContext := some ctx, vmmCurrentContext := some ctx }

/-- `vmm_create_context`. -/
def vmmCreateContext (kmalloc : Pmm → Option (Word × Pmm)) (v : Vmm) :
    Option (Option VmmContext × Vmm) := do
  let (rootPhys, pmm) ← archVmmNewContextRoot arch hhdm v.pmm (archVmmGetKernelRoot arch v)
  if rootPhys = 0 then return (none, { v with pmm })
  let (ptr, pmm) ← kmalloc pmm
  if ptr = 0 then return (none, { v with pmm := pmmFree hhdm pmm rootPhys 1 })
  let ctx : VmmContext :=
    { rootPhys
      rootVirt := pmmPhysToVirt hhdm rootPhys
      demandPageLo := 0
      demandPageHi := 0 }
  return (some ctx, { v with pmm })

/-- The loop that frees what the first `n` entries of a table point to: `below` empties the table
an entry points to, before the page of the entry itself is freed. -/
def vmmFreeEntries (below : Pmm → Word → Pmm) (n : ℕ) (s : Pmm) (table : Word) : Pmm :=
  (List.range n).foldl (fun s i =>
    let pte := s.entry table (BitVec.ofNat 64 i)
    if !arch.vmmPteIsPresent pte then s
    else
      let childPhys := arch.vmmPteGetPhys pte
      pmmFree hhdm (below s (pmmPhysToVirt hhdm childPhys)) childPhys 1) s

/-- `vmm_free_table_recursive`. The entries of level 0 point to frames. -/
def vmmFreeTableRecursive : ℕ → Pmm → Word → Pmm
  | 0 => vmmFreeEntries arch hhdm (fun s _ => s) 512
  | level + 1 => vmmFreeEntries arch hhdm (vmmFreeTableRecursive level) 512

/-- `vmm_destroy_context`. -/
def vmmDestroyContext (kfree : Pmm → Option Pmm) (v : Vmm) : Option VmmContext → Option Vmm
  | none => some v
  | some ctx => do
    let pmm :=
      if ctx.rootPhys ≠ 0 then
        pmmFree hhdm (vmmFreeEntries arch hhdm (vmmFreeTableRecursive arch hhdm (vmmLevels - 2)) 256
          v.pmm ctx.rootVirt) ctx.rootPhys 1
      else v.pmm
    return { v with pmm := ← kfree pmm }

/-- `vmm_switch_context`. -/
def vmmSwitchContext (v : Vmm) : Option VmmContext → Vmm
  | none => v
  | some ctx =>
    if ctx.rootPhys ≠ 0 then archVmmSetUserRoot { v with vmmCurrentContext := some ctx } ctx.rootPhys
    else v

/-! ## Pages -/

/-- `get_root_table`. -/
def getRootTable (v : Vmm) (ctx : VmmContext) (virtAddr : Word) : Word :=
  if virtAddr ≥ vmmAddrSplit then pmmPhysToVirt hhdm (archVmmGetKernelRoot arch v)
  else ctx.rootVirt

/-- `get_or_create_table`: the table an entry points to, made if there is none; null when out of
memory. -/
def getOrCreateTable (s : Pmm) (table index : Word) : Option (Word × Pmm) := do
  if arch.vmmPteIsPresent (s.entry table index) then
    return (pmmPhysToVirt hhdm (arch.vmmPteGetPhys (s.entry table index)), s)
  let (childPhys, s) ← newTable hhdm s
  if childPhys = 0 then return (0, s)
  return (pmmPhysToVirt hhdm childPhys,
    s.setEntry table index
      (arch.vmmMakePte childPhys (vmmPresent ||| vmmWritable ||| vmmUser) true))

/-- The loop of `walk_to_leaf_slot`, from the given level down. -/
def walkToLeafLoop (virtAddr : Word) (create : Bool) : ℕ → Pmm → Word → Option (Word × Pmm)
  | 0, s, table => some (table + 8 * vmmIndex virtAddr 0, s)
  | level + 1, s, table => do
    let index := vmmIndex virtAddr (level + 1)
    let (table, s) ←
      if create then getOrCreateTable arch hhdm s table index
      else if arch.vmmPteIsPresent (s.entry table index) then
        some (pmmPhysToVirt hhdm (arch.vmmPteGetPhys (s.entry table index)), s)
      else some (0, s)
    if table = 0 then return (0, s)
    walkToLeafLoop virtAddr create level s table

/-- `walk_to_leaf_slot`: the address of the entry of a page, or null. -/
def walkToLeafSlot (v : Vmm) (ctx : VmmContext) (virtAddr : Word) (create : Bool) :
    Option (Word × Pmm) :=
  let table := getRootTable arch hhdm v ctx virtAddr
  if table = 0 then some (0, v.pmm)
  else walkToLeafLoop arch hhdm virtAddr create (vmmLevels - 1) v.pmm table

/-- `vmm_map_page`. -/
def vmmMapPage (v : Vmm) (ctx : Option VmmContext) (virtAddr physAddr flags : Word) :
    Option (Int × Vmm) :=
  match ctx with
  | none => some (-1, v)
  | some ctx => do
    let (leaf, pmm) ← walkToLeafSlot arch hhdm v ctx virtAddr true
    if leaf = 0 then return (-1, { v with pmm })
    let pte := arch.vmmMakePte physAddr (flags ||| vmmPresent) false
    return (0, { v with pmm := { pmm with mem := pmm.mem.store64 leaf pte } })

/-- `vmm_unmap_page`. -/
def vmmUnmapPage (v : Vmm) (ctx : Option VmmContext) (virtAddr : Word) : Option (Int × Vmm) :=
  match ctx with
  | none => some (-1, v)
  | some ctx => do
    let (leaf, pmm) ← walkToLeafSlot arch hhdm v ctx virtAddr false
    if leaf = 0 ∨ !arch.vmmPteIsPresent (pmm.mem.load64 leaf) then return (-1, { v with pmm })
    return (0, { v with pmm := { pmm with mem := pmm.mem.store64 leaf 0 } })

/-- `vmm_virt_to_phys`. -/
def vmmVirtToPhys (v : Vmm) (ctx : Option VmmContext) (virtAddr : Word) : Option Word :=
  match ctx with
  | none => some 0
  | some ctx => do
    let (leaf, pmm) ← walkToLeafSlot arch hhdm v ctx virtAddr false
    if leaf = 0 ∨ !arch.vmmPteIsPresent (pmm.mem.load64 leaf) then return 0
    return arch.vmmPteGetPhys (pmm.mem.load64 leaf) ||| (virtAddr &&& (pageSize - 1))

/-! ## Faults -/

/-- `try_handle_hhdm_mmio_fault`. -/
def tryHandleHhdmMmioFault (v : Vmm) (faultAddr errorCode : Word) : Option (Bool × Vmm) :=
  let hhdmTop := hhdm + v.pmm.maxPhysAddr
  if hhdm = 0 ∨ faultAddr < hhdm ∨ faultAddr ≥ hhdmTop then some (false, v)
  else if arch.vmmFaultIsPresent errorCode then some (false, v)
  else do
    let physAddr := faultAddr - hhdm
    let alignedVirt := faultAddr &&& ~~~(pageSize - 1)
    let alignedPhys := physAddr &&& ~~~(pageSize - 1)
    let (r, v) ← vmmMapPage arch hhdm v v.vmmKernelContext alignedVirt alignedPhys
      (vmmWritable ||| vmmCacheDisable)
    return (r == 0, v)

/-- `try_handle_demand_page_fault`. -/
def tryHandleDemandPageFault (v : Vmm) (faultAddr errorCode : Word) : Option (Bool × Vmm) :=
  match v.vmmCurrentContext with
  | none => some (false, v)
  | some ctx =>
    if faultAddr < ctx.demandPageLo ∨ faultAddr ≥ ctx.demandPageHi then some (false, v)
    else if arch.vmmFaultIsPresent errorCode then some (false, v)
    else do
      let (physAddr, pmm) ← newTable hhdm v.pmm
      if physAddr = 0 then return (false, { v with pmm })
      let alignedVirt := faultAddr &&& ~~~(pageSize - 1)
      let (r, v) ← vmmMapPage arch hhdm { v with pmm } (some ctx) alignedVirt physAddr
        (vmmWritable ||| vmmUser)
      if r ≠ 0 then return (false, { v with pmm := pmmFree hhdm v.pmm physAddr 1 })
      return (true, v)

/-- `vmm_handle_page_fault`. -/
def vmmHandlePageFault (v : Vmm) (faultAddr errorCode : Word) : Option (Bool × Vmm) := do
  let (handled, v) ← tryHandleHhdmMmioFault arch hhdm v faultAddr errorCode
  if handled then return (true, v)
  tryHandleDemandPageFault arch hhdm v faultAddr errorCode

end

end Pros
