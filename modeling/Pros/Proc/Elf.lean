import Pros.Fs.Ramfs.Sparse
import Pros.Lib.Loop
import Pros.Vmm.Model

/-!
# The ELF loader

Model of `elf_load` in `kernel/src/proc/elf.c`. The file is the node that `vfs_lookup` found, seen as
its size and its bytes; `ElfFile.read_eq` connects it to the model of ramfs. The function returns the
entry point, or the reason why it returns `-1`.

`allocated` and `stored` are bookkeeping of the model: the frames that the call took from
`pmm_alloc`, and those that it read file bytes into.
-/

namespace Pros

/-! ## The file -/

/-- A regular file. -/
structure ElfFile where
  size : Word
  data : ℕ → BitVec 8

/-- `node->ops->read`: the bytes that are there. -/
def ElfFile.read (file : ElfFile) (offset size : Word) : List (BitVec 8) :=
  dataBytes file.data offset.toNat (min size.toNat (file.size.toNat - offset.toNat))

/-- A ramfs file is read like this. -/
theorem ElfFile.read_eq {α : Type} {A : RamfsAlloc α} {hhdm : Word} {s : RamfsState α}
    {file : ElfFile} (hsize : s.node.size = file.size) (hdata : ReadsAs A hhdm s file.data)
    (offset size : Word) :
    ramfsOpsRead A hhdm s offset size = some (.ok (file.read offset size), s) := by
  rw [hdata, hsize]
  rfl

/-- The little-endian number of `n` bytes at an offset. -/
def leWord (bs : List (BitVec 8)) (offset n : ℕ) : Word :=
  (List.range n).foldl (fun w i => w ||| (bs.getD (offset + i) 0).setWidth 64 <<< (8 * i)) 0

/-- `struct elf64_ehdr`, the fields that are used. -/
structure Elf64Ehdr where
  eIdent : List (BitVec 8)
  eType : BitVec 16
  eMachine : BitVec 16
  eEntry : Word
  ePhoff : Word
  ePhentsize : BitVec 16
  ePhnum : BitVec 16
  deriving DecidableEq, Repr

/-- `struct elf64_phdr`, the fields that are used. -/
structure Elf64Phdr where
  pType : BitVec 32
  pFlags : BitVec 32
  pOffset : Word
  pVaddr : Word
  pFilesz : Word
  pMemsz : Word
  deriving DecidableEq, Repr

/-- `sizeof(struct elf64_ehdr)`. -/
abbrev sizeofElf64Ehdr : ℕ := 64

/-- `sizeof(struct elf64_phdr)`. -/
abbrev sizeofElf64Phdr : ℕ := 56

/-- The bytes of a `struct elf64_ehdr`. -/
def Elf64Ehdr.ofBytes (bs : List (BitVec 8)) : Elf64Ehdr where
  eIdent := bs.take 16
  eType := (leWord bs 16 2).setWidth 16
  eMachine := (leWord bs 18 2).setWidth 16
  eEntry := leWord bs 24 8
  ePhoff := leWord bs 32 8
  ePhentsize := (leWord bs 54 2).setWidth 16
  ePhnum := (leWord bs 56 2).setWidth 16

/-- The bytes of a `struct elf64_phdr`. -/
def Elf64Phdr.ofBytes (bs : List (BitVec 8)) : Elf64Phdr where
  pType := (leWord bs 0 4).setWidth 32
  pFlags := (leWord bs 4 4).setWidth 32
  pOffset := leWord bs 8 8
  pVaddr := leWord bs 16 8
  pFilesz := leWord bs 32 8
  pMemsz := leWord bs 40 8

/-- `PT_LOAD`. -/
abbrev ptLoad : BitVec 32 := 1

/-- `PF_X`. -/
abbrev pfX : BitVec 32 := 1

/-- `PF_W`. -/
abbrev pfW : BitVec 32 := 2

/-- `vaddr_lo`. -/
def Elf64Phdr.vaddrLo (phdr : Elf64Phdr) : Word := phdr.pVaddr &&& ~~~(pageSize - 1)

/-- `vaddr_hi`. -/
def Elf64Phdr.vaddrHi (phdr : Elf64Phdr) : Word :=
  (phdr.pVaddr + phdr.pMemsz + pageSize - 1) &&& ~~~(pageSize - 1)

/-- The permissions of pass 2. -/
def Elf64Phdr.vmmFlags (phdr : Elf64Phdr) : Word :=
  let flags := vmmUser
  let flags := orIf (phdr.pFlags &&& pfW ≠ 0) vmmWritable flags
  orIf (¬ phdr.pFlags &&& pfX ≠ 0) vmmNoExecute flags

/-- `arch_wanted_elf_machine`. -/
def Arch.wantedElfMachine : Arch → BitVec 16
  | x86_64 => 62
  | aarch64 => 183

/-- Why `elf_load` returned `-1`, with the numbers of the message. -/
inductive ElfError
  | notFound
  | tooShort
  | badMagic
  | notClass64
  | badType (eType : BitVec 16)
  | badMachine (eMachine want : BitVec 16)
  | badPhentsize (ePhentsize : BitVec 16)
  | shortPhdr (i : ℕ)
  | outOfMemory (page : Word)
  | mapFailed (page : Word)
  | shortSegment (i : ℕ)
  deriving DecidableEq, Repr

/-- The checks of the header, in the order of the source. -/
def Elf64Ehdr.check (arch : Arch) (ehdr : Elf64Ehdr) : Except ElfError Unit := do
  if ehdr.eIdent.take 4 ≠ [0x7f, 0x45, 0x4c, 0x46] then throw .badMagic
  if ehdr.eIdent.getD 4 0 ≠ 2 then throw .notClass64
  if ehdr.eType ≠ 2 then throw (.badType ehdr.eType)
  if ehdr.eMachine ≠ arch.wantedElfMachine then
    throw (.badMachine ehdr.eMachine arch.wantedElfMachine)
  if ehdr.ePhentsize ≠ BitVec.ofNat 16 sizeofElf64Phdr then throw (.badPhentsize ehdr.ePhentsize)

/-- `ehdr.e_phoff + (uint64_t)i * ehdr.e_phentsize`. -/
def Elf64Ehdr.phdrOffset (ehdr : Elf64Ehdr) (i : ℕ) : Word :=
  ehdr.ePhoff + BitVec.ofNat 64 i * ehdr.ePhentsize.setWidth 64

/-- The bytes of program header `i` that are there. -/
def ElfFile.phdrBytes (file : ElfFile) (ehdr : Elf64Ehdr) (i : ℕ) : List (BitVec 8) :=
  file.read (ehdr.phdrOffset i) (BitVec.ofNat 64 sizeofElf64Phdr)

/-- Program header `i`. -/
def ElfFile.phdr (file : ElfFile) (ehdr : Elf64Ehdr) (i : ℕ) : Elf64Phdr :=
  Elf64Phdr.ofBytes (file.phdrBytes ehdr i)

/-! ## Loading -/

/-- The virtual memory manager during `elf_load`. -/
structure ElfState where
  vmm : Vmm
  allocated : List Word
  stored : List Word

/-- What a statement of `elf_load` leaves behind. -/
abbrev ElfResult (α : Type) := Except ElfError α × ElfState

/-- Change the memory. -/
def ElfState.setMem (st : ElfState) (mem : ByteMem) : ElfState :=
  { st with vmm := { st.vmm with pmm := { st.vmm.pmm with mem } } }

section

variable (arch : Arch) (hhdm : Word) (file : ElfFile) (ctx : VmmContext)

/-- A fresh page, allocated, mapped and zeroed. -/
def elfNewPage (st : ElfState) (page : Word) : Option (ElfResult Word) := do
  let (phys, pmm) ← pmmAlloc hhdm st.vmm.pmm 1
  let st := { st with vmm := { st.vmm with pmm } }
  if phys = 0 then return (.error (.outOfMemory page), st)
  let (r, vmm) ← vmmMapPage arch hhdm st.vmm (some ctx) page phys (vmmUser ||| vmmWritable)
  let st := { st with vmm, allocated := phys :: st.allocated }
  if r ≠ 0 then return (.error (.mapFailed page), st)
  return (.ok phys, st.setMem (st.vmm.pmm.mem.memset (pmmPhysToVirt hhdm phys) 0 pageSize.toNat))

/-- The frame of a page, a fresh one if there is none. -/
def elfPageFrame (st : ElfState) (page : Word) : Option (ElfResult Word) := do
  let phys ← vmmVirtToPhys arch hhdm st.vmm (some ctx) page
  if phys = 0 then elfNewPage arch hhdm ctx st page else return (.ok phys, st)

/-- Start of the part of a page that comes from the file. -/
def Elf64Phdr.start (phdr : Elf64Phdr) (page : Word) : Word :=
  if page > phdr.pVaddr then page else phdr.pVaddr

/-- End of the part of a page that comes from the file. -/
def Elf64Phdr.stop (phdr : Elf64Phdr) (page : Word) : Word :=
  let segFileEnd := phdr.pVaddr + phdr.pFilesz
  if page + pageSize < segFileEnd then page + pageSize else segFileEnd

/-- Read the overlap between a page in frame `phys` and the file part of segment `i`. -/
def elfFillPage (i : ℕ) (phdr : Elf64Phdr) (st : ElfState) (page phys : Word) :
    ElfResult Unit :=
  let start := phdr.start page
  let stop := phdr.stop page
  if stop > start then
    let fileOff := phdr.pOffset + (start - phdr.pVaddr)
    let dest := pmmPhysToVirt hhdm phys + (start - page)
    let bytes := file.read fileOff (stop - start)
    -- a short read still stores what there is
    let st := { st.setMem (st.vmm.pmm.mem.write dest bytes) with stored := phys :: st.stored }
    if bytes.length ≠ (stop - start).toNat then (.error (.shortSegment i), st) else (.ok (), st)
  else (.ok (), st)

/-- One round of the page loop of pass 1. -/
def elfLoadPage (i : ℕ) (phdr : Elf64Phdr) (st : ElfState) (page : Word) : Option (ElfResult Unit) :=
  match elfPageFrame arch hhdm ctx st page with
  | none => none
  | some (.error e, st) => some (.error e, st)
  | some (.ok phys, st) => some (elfFillPage hhdm file i phdr st page phys)

/-- The loop `for (page = vaddr_lo; page < vaddr_hi; page += PAGE_SIZE)`. -/
def forPages (body : ElfState → Word → Option (ElfResult Unit)) (vaddrHi : Word) :
    ℕ → Word → ElfState → Option (ElfResult Unit)
  | 0, _, _ => none
  | fuel + 1, page, st =>
    if page < vaddrHi then
      match body st page with
      | none => none
      | some (.error e, st) => some (.error e, st)
      | some (.ok (), st) => forPages body vaddrHi fuel (page + pageSize) st
    else some (.ok (), st)

/-- One round of pass 1: program header `i`. -/
def elfLoadSegment (ehdr : Elf64Ehdr) (st : ElfState) (i : ℕ) : Option (ElfResult Unit) :=
  if (file.phdrBytes ehdr i).length ≠ sizeofElf64Phdr then some (.error (.shortPhdr i), st)
  else
    let phdr := file.phdr ehdr i
    if phdr.pType ≠ ptLoad then some (.ok (), st)
    else forPages (elfLoadPage arch hhdm file ctx i phdr) phdr.vaddrHi walkBound phdr.vaddrLo st

/-- One round of the page loop of pass 2; the result of `vmm_map_page` is not looked at. -/
def elfProtectPage (phdr : Elf64Phdr) (st : ElfState) (page : Word) : Option (ElfResult Unit) := do
  let phys ← vmmVirtToPhys arch hhdm st.vmm (some ctx) page
  let (_, vmm) ← vmmMapPage arch hhdm st.vmm (some ctx) page phys phdr.vmmFlags
  return (.ok (), { st with vmm })

/-- One round of pass 2. -/
def elfProtectSegment (ehdr : Elf64Ehdr) (st : ElfState) (i : ℕ) : Option (ElfResult Unit) :=
  let phdr := file.phdr ehdr i
  if phdr.pType ≠ ptLoad then some (.ok (), st)
  else forPages (elfProtectPage arch hhdm ctx phdr) phdr.vaddrHi walkBound phdr.vaddrLo st

/-- The two passes. -/
def elfLoadSegments (ehdr : Elf64Ehdr) (st : ElfState) : Option (ElfResult Unit) :=
  let indices := List.range ehdr.ePhnum.toNat
  match Loop.forEach (elfLoadSegment arch hhdm file ctx ehdr) indices st with
  | some (.ok (), st) => Loop.forEach (elfProtectSegment arch hhdm file ctx ehdr) indices st
  | r => r

/-- The header of the file. -/
def ElfFile.ehdr : Elf64Ehdr :=
  Elf64Ehdr.ofBytes (file.read 0 (BitVec.ofNat 64 sizeofElf64Ehdr))

/-- The checks before the first pass. -/
def ElfFile.checkHeader : Except ElfError Unit :=
  if (file.read 0 (BitVec.ofNat 64 sizeofElf64Ehdr)).length ≠ sizeofElf64Ehdr then .error .tooShort
  else file.ehdr.check arch

/-- `elf_load` with the node that `vfs_lookup` returned: the entry point, or an error. -/
def elfLoad (node : Option ElfFile) (v : Vmm) : Option (ElfResult Word) :=
  let st : ElfState := { vmm := v, allocated := [], stored := [] }
  match node with
  | none => some (.error .notFound, st)
  | some file =>
    match file.checkHeader arch with
    | .error e => some (.error e, st)
    | .ok () =>
      match elfLoadSegments arch hhdm file ctx file.ehdr st with
      | none => none
      | some (.error e, st) => some (.error e, st)
      | some (.ok (), st) => some (.ok file.ehdr.eEntry, st)

end

end Pros
