import Pros.Proc.ElfKernel

/-!
# What the ELF loader loads

A context without any mapping in the lower half, and a file whose segments lie in the lower half and
do not overlap (though they may share pages). If `elf_load` succeeds, the context shows the segments:
the bytes of the file, followed by zeros, in pages with the permissions of the segment.

Pass 1 is followed page by page: after some pages are done, the bytes of the file parts that these
pages have are there, and all other bytes of the mapped pages are zero.
-/

namespace Pros

variable {arch : Arch} {hhdm : Word} {roots free free₀ : List Word} {v : Vmm} {ctx : VmmContext}
variable {file : ElfFile} {ehdr : Elf64Ehdr}

/-! ## Segments -/

/-- `i` is the index of a `PT_LOAD` header. -/
structure ElfFile.Segment (file : ElfFile) (ehdr : Elf64Ehdr) (i : ℕ) : Prop where
  lt : i < ehdr.ePhnum.toNat
  readable : (file.phdrBytes ehdr i).length = sizeofElf64Phdr
  load : (file.phdr ehdr i).pType = ptLoad

/-- The address belongs to the segment. -/
def Elf64Phdr.Covers (phdr : Elf64Phdr) (a : ℕ) : Prop :=
  phdr.pVaddr.toNat ≤ a ∧ a < phdr.pVaddr.toNat + phdr.pMemsz.toNat

/-- The address belongs to the part of the segment that comes from the file. -/
def Elf64Phdr.InFile (phdr : Elf64Phdr) (a : ℕ) : Prop :=
  phdr.pVaddr.toNat ≤ a ∧ a < phdr.pVaddr.toNat + phdr.pFilesz.toNat

/-- Page number `n` lies in the rounded range of the segment. -/
def Elf64Phdr.HasPage (phdr : Elf64Phdr) (n : ℕ) : Prop :=
  phdr.pVaddr.toNat / 4096 ≤ n ∧ n < (phdr.pVaddr.toNat + phdr.pMemsz.toNat + 4095) / 4096

/-- The segments fit into the lower half, and no byte belongs to two of them. -/
structure ElfFile.Loadable (file : ElfFile) (ehdr : Elf64Ehdr) : Prop where
  filesz : ∀ i, file.Segment ehdr i → (file.phdr ehdr i).pFilesz ≤ (file.phdr ehdr i).pMemsz
  below : ∀ i, file.Segment ehdr i → (file.phdr ehdr i).pVaddr.toNat +
    (file.phdr ehdr i).pMemsz.toNat + 4095 < vmmAddrSplit.toNat
  disjoint : ∀ i j, file.Segment ehdr i → file.Segment ehdr j → i ≠ j →
    ∀ a, (file.phdr ehdr i).Covers a → ¬ (file.phdr ehdr j).Covers a

section Wrap

variable {phdr : Elf64Phdr} (hlt : phdr.pVaddr.toNat + phdr.pMemsz.toNat + 4095 < 2 ^ 64)

include hlt

/-- The upper bound of the page loops, when it does not wrap. -/
theorem Elf64Phdr.toNat_vaddrHi_of_lt :
    phdr.vaddrHi.toNat = (phdr.pVaddr.toNat + phdr.pMemsz.toNat + 4095) / 4096 * 4096 := by
  have hsum : (phdr.pVaddr + phdr.pMemsz + pageSize - 1).toNat =
      phdr.pVaddr.toNat + phdr.pMemsz.toNat + 4095 := by
    have hsize : (pageSize : Word).toNat = 4096 := rfl
    bv_omega
  rw [Elf64Phdr.vaddrHi, toNat_page_of_addr, hsum]

/-- The pages of the loops are then the pages of the rounded range. -/
theorem Elf64Phdr.exists_page_iff_of_lt {n : ℕ} :
    (∃ page ∈ phdr.pages, pageNumber page = n) ↔ phdr.HasPage n := by
  have hlo : phdr.vaddrLo.toNat = phdr.pVaddr.toNat / 4096 * 4096 := toNat_page_of_addr _
  have hhi := Elf64Phdr.toNat_vaddrHi_of_lt hlt
  rw [Elf64Phdr.HasPage]
  constructor
  · rintro ⟨page, hpage, rfl⟩
    obtain ⟨-, hlo', hhi'⟩ := Elf64Phdr.mem_pages hpage
    rw [pageNumber]
    omega
  · rintro ⟨hlow, hhigh⟩
    have hpage : (phdr.vaddrLo + BitVec.ofNat 64 (n - phdr.pVaddr.toNat / 4096) * pageSize).toNat =
        n * 4096 := by
      rw [toNat_add_pages (by omega), hlo]
      omega
    refine ⟨_, mem_pmmBlock_iff.mpr ⟨n - phdr.pVaddr.toNat / 4096, ?_, rfl⟩, ?_⟩
    · rw [hlo, hhi]
      omega
    · rw [pageNumber, hpage]
      omega

end Wrap

section Phdr

variable {phdr : Elf64Phdr}
  (hbelow : phdr.pVaddr.toNat + phdr.pMemsz.toNat + 4095 < vmmAddrSplit.toNat)

include hbelow

theorem Elf64Phdr.toNat_vaddrHi :
    phdr.vaddrHi.toNat = (phdr.pVaddr.toNat + phdr.pMemsz.toNat + 4095) / 4096 * 4096 :=
  Elf64Phdr.toNat_vaddrHi_of_lt (hbelow.trans vmmAddrSplit.isLt)

theorem Elf64Phdr.pages_lt {page : Word} (h : page ∈ phdr.pages) : page < vmmAddrSplit := by
  obtain ⟨-, -, hhi⟩ := Elf64Phdr.mem_pages h
  rw [Elf64Phdr.toNat_vaddrHi hbelow] at hhi
  rw [BitVec.lt_def]
  omega

/-- The pages of the loops are the pages of the rounded range. -/
theorem Elf64Phdr.exists_page_iff {n : ℕ} :
    (∃ page ∈ phdr.pages, pageNumber page = n) ↔ phdr.HasPage n :=
  Elf64Phdr.exists_page_iff_of_lt (hbelow.trans vmmAddrSplit.isLt)

omit hbelow in
theorem Elf64Phdr.toNat_start (phdr : Elf64Phdr) (page : Word) :
    (phdr.start page).toNat = max page.toNat phdr.pVaddr.toNat := by
  rw [Elf64Phdr.start]
  split
  · rename_i hgt
    have hgt' := BitVec.lt_def.mp hgt
    omega
  · rename_i hle
    have hle' := BitVec.le_def.mp (BitVec.not_lt.mp hle)
    omega

variable (hfile : phdr.pFilesz ≤ phdr.pMemsz) {page : Word} (hpage : page < vmmAddrSplit)

include hfile hpage

theorem Elf64Phdr.toNat_stop :
    (phdr.stop page).toNat = min (page.toNat + 4096) (phdr.pVaddr.toNat + phdr.pFilesz.toNat) := by
  have hsplit : (vmmAddrSplit : Word).toNat = 2 ^ 47 := rfl
  have hfile' := BitVec.le_def.mp hfile
  have hpage' := BitVec.lt_def.mp hpage
  have hnext : (page + pageSize).toNat = page.toNat + 4096 := by
    rw [BitVec.toNat_add, show (pageSize : Word).toNat = 4096 from rfl]
    omega
  have hend : (phdr.pVaddr + phdr.pFilesz).toNat =
      phdr.pVaddr.toNat + phdr.pFilesz.toNat := by
    rw [BitVec.toNat_add]
    omega
  rw [Elf64Phdr.stop]
  split
  · rename_i hlt
    have hlt' := BitVec.lt_def.mp hlt
    omega
  · rename_i hge
    have hge' := BitVec.le_def.mp (BitVec.not_lt.mp hge)
    omega

/-- The bytes of a page that a round reads are those of the file part. -/
theorem Elf64Phdr.inFile_iff {a : ℕ} (ha : page.toNat ≤ a ∧ a < page.toNat + 4096) :
    ((phdr.start page).toNat ≤ a ∧ a < (phdr.stop page).toNat) ↔ phdr.InFile a := by
  rw [phdr.toNat_start, Elf64Phdr.toNat_stop hbelow hfile hpage, Elf64Phdr.InFile]
  omega

end Phdr

/-! ## Offsets -/

/-- The offsets in the file do not wrap: the rounds before have read up to here. -/
theorem Elf64Phdr.toNat_fileOff {phdr : Elf64Phdr}
    (hbelow : phdr.pVaddr.toNat + phdr.pMemsz.toNat + 4095 < vmmAddrSplit.toNat)
    (hfile : phdr.pFilesz ≤ phdr.pMemsz) {k : ℕ}
    (hk : phdr.vaddrLo.toNat + k * 4096 < 2 ^ 47)
    (hdone : ∀ j < k, file.HasOverlap phdr (phdr.vaddrLo + BitVec.ofNat 64 j * pageSize)) {page : Word}
    (hpage : page = phdr.vaddrLo + BitVec.ofNat 64 k * pageSize)
    (hover : phdr.start page < phdr.stop page) :
    (phdr.fileOff page).toNat =
      phdr.pOffset.toNat + ((phdr.start page).toNat - phdr.pVaddr.toNat) := by
  have hlo : phdr.vaddrLo.toNat = phdr.pVaddr.toNat / 4096 * 4096 := toNat_page_of_addr _
  have hsplit : (vmmAddrSplit : Word).toNat = 2 ^ 47 := rfl
  have htoNat : ∀ j ≤ k, (phdr.vaddrLo + BitVec.ofNat 64 j * pageSize).toNat =
      phdr.vaddrLo.toNat + j * 4096 := by
    intro j hj
    have hle := Nat.add_le_add_left (Nat.mul_le_mul_right 4096 hj) phdr.vaddrLo.toNat
    exact toNat_add_pages (lt_of_le_of_lt hle (hk.trans (by decide)))
  induction k generalizing page with
  | zero =>
    have hzero := htoNat 0 le_rfl
    have hfirst : phdr.start page = phdr.pVaddr := by
      rw [Elf64Phdr.start, if_neg]
      rw [gt_iff_lt, BitVec.lt_def, hpage]
      omega
    rw [Elf64Phdr.fileOff, hfirst, BitVec.sub_self, Nat.sub_self]
    simp
  | succ k ih =>
    have hpageNat := hpage ▸ htoNat (k + 1) le_rfl
    have hlast := hdone k (Nat.lt_succ_self k)
    have hqNat := htoNat k (Nat.le_succ k)
    generalize hq : phdr.vaddrLo + BitVec.ofNat 64 k * pageSize = q at hlast hqNat
    have hqlt : q < vmmAddrSplit := by
      rw [BitVec.lt_def, hsplit]
      omega
    have hpagelt : page < vmmAddrSplit := by
      rw [BitVec.lt_def, hsplit]
      omega
    have hover' := BitVec.lt_def.mp hover
    have hstart := phdr.toNat_start page
    have hstartq := phdr.toNat_start q
    have hstop := Elf64Phdr.toNat_stop hbelow hfile hpagelt
    have hstopq := Elf64Phdr.toNat_stop hbelow hfile hqlt
    have hoverq : phdr.start q < phdr.stop q := by
      rw [BitVec.lt_def]
      omega
    have hk' : phdr.vaddrLo.toNat + k * 4096 < 2 ^ 47 := by linarith
    have hoff := ih hk' (fun j hj => hdone j (Nat.lt_succ_of_lt hj)) hq.symm hoverq
      fun j hj => htoNat j (Nat.le_succ_of_le hj)
    have hread := hlast hoverq
    have hsize := file.size.isLt
    have hsub : (phdr.start page - phdr.pVaddr).toNat =
        (phdr.start page).toNat - phdr.pVaddr.toNat := by bv_omega
    rw [Elf64Phdr.fileOff, BitVec.toNat_add, hsub]
    omega

/-- What is read for a byte of the file part of a page that pass 1 gets to. -/
theorem ElfFile.Visits.fileByte {i : ℕ} {page : Word} (h : file.Visits ehdr i page)
    (hbelow : (file.phdr ehdr i).pVaddr.toNat + (file.phdr ehdr i).pMemsz.toNat + 4095 <
      vmmAddrSplit.toNat)
    (hfile : (file.phdr ehdr i).pFilesz ≤ (file.phdr ehdr i).pMemsz) {a : ℕ}
    (ha : ((file.phdr ehdr i).start page).toNat ≤ a ∧
      a < ((file.phdr ehdr i).stop page).toNat) :
    ((file.phdr ehdr i).fileOff page).toNat + (a - ((file.phdr ehdr i).start page).toNat) =
      (file.phdr ehdr i).pOffset.toNat + (a - (file.phdr ehdr i).pVaddr.toNat) := by
  obtain ⟨-, -, done, rest, hsplit, hdone⟩ := h
  have hpages : (file.phdr ehdr i).pages = done ++ page :: rest := by
    rw [ElfFile.loadPages] at hsplit
    split at hsplit
    · exact hsplit
    · simp at hsplit
  -- the pages before are those with a smaller index
  have hget : ∀ j < done.length + 1, (done ++ page :: rest)[j]? =
      some ((file.phdr ehdr i).vaddrLo + BitVec.ofNat 64 j * pageSize) := by
    intro j hj
    have hlen := congrArg List.length hpages
    rw [Elf64Phdr.pages, length_pmmBlock, List.length_append, List.length_cons] at hlen
    rw [← hpages, Elf64Phdr.pages, pmmBlock, List.getElem?_map, List.getElem?_range (by omega)]
    rfl
  have hpage : page = (file.phdr ehdr i).vaddrLo + BitVec.ofNat 64 done.length * pageSize := by
    have h' := hget done.length (Nat.lt_succ_self _)
    rw [List.getElem?_append_right le_rfl, Nat.sub_self] at h'
    exact Option.some.inj h'
  have hbefore : ∀ j < done.length, file.HasOverlap (file.phdr ehdr i)
      ((file.phdr ehdr i).vaddrLo + BitVec.ofNat 64 j * pageSize) := by
    intro j hj
    have h' := hget j (Nat.lt_succ_of_lt hj)
    rw [List.getElem?_append_left hj] at h'
    exact hdone _ (List.mem_of_getElem? h')
  have hk : (file.phdr ehdr i).vaddrLo.toNat + done.length * 4096 < 2 ^ 47 := by
    have hlast := (file.phdr ehdr i).vaddrHi.isLt
    have hhi := Elf64Phdr.toNat_vaddrHi hbelow
    have hlen := congrArg List.length hpages
    rw [Elf64Phdr.pages, length_pmmBlock, List.length_append, List.length_cons] at hlen
    have hsplit : (vmmAddrSplit : Word).toNat = 2 ^ 47 := rfl
    omega
  have hover : (file.phdr ehdr i).start page < (file.phdr ehdr i).stop page := by
    rw [BitVec.lt_def]
    omega
  have hoff := Elf64Phdr.toNat_fileOff hbelow hfile hk hbefore hpage hover
  have hstart := (file.phdr ehdr i).toNat_start page
  omega

/-! ## Bytes -/

/-- The byte that the tables below `root` show at address `a`. -/
def contextByte (arch : Arch) (hhdm : Word) (s : Pmm) (root : Word) (a : ℕ) : Option (BitVec 8) :=
  (vmmLookup arch hhdm s root (a / 4096)).map fun e =>
    s.mem (pmmPhysToVirt hhdm e.1 + BitVec.ofNat 64 (a % 4096))

/-- No frame is mapped twice. -/
def FramesInjective (arch : Arch) (hhdm : Word) (s : Pmm) (root : Word) : Prop :=
  ∀ n < 2 ^ 35, ∀ m < 2 ^ 35, ∀ f fl fl', vmmLookup arch hhdm s root n = some (f, fl) →
    vmmLookup arch hhdm s root m = some (f, fl') → n = m

section Round

variable {st st' : ElfState} {phdr : Elf64Phdr} {page f fl : Word}
variable (hinv : ElfInv arch hhdm roots v ctx free₀ st free)
variable (hinj : FramesInjective arch hhdm st.vmm.pmm ctx.rootPhys)
variable (hlt : page < vmmAddrSplit) (halign : page.toNat % 4096 = 0)
variable (h : PageLoaded arch hhdm v ctx file phdr page st st' f fl)

include hinv hinj hlt h

/-- The frame of another page is another frame. -/
theorem PageLoaded.frame_ne {m : ℕ} (hm : m < 2 ^ 35) (hne : m ≠ pageNumber page) {g fl' : Word}
    (hlook : vmmLookup arch hhdm st.vmm.pmm ctx.rootPhys m = some (g, fl')) : g ≠ f := by
  rintro rfl
  rcases h.found with hfound | ⟨-, -, hfresh⟩
  · exact hne (hinj m hm _ (pageNumber_lt hlt) g fl' fl hlook hfound)
  · exact hfresh (hinv.lookup g ⟨m, hm, fl', hlook⟩)

theorem PageLoaded.framesInjective : FramesInjective arch hhdm st'.vmm.pmm ctx.rootPhys := by
  intro n hn m hm g fl₁ fl₂ hlook hlook'
  rw [h.lookup n hn] at hlook
  rw [h.lookup m hm] at hlook'
  split at hlook
  · rename_i hnp
    split at hlook'
    · rename_i hmp
      rw [hnp, hmp]
    · rename_i hmp
      have hfg := (Prod.mk.inj (Option.some.inj hlook)).1
      exact absurd hfg.symm (h.frame_ne hinv hinj hlt hm hmp hlook')
  · rename_i hnp
    split at hlook'
    · have hfg := (Prod.mk.inj (Option.some.inj hlook')).1
      exact absurd hfg.symm (h.frame_ne hinv hinj hlt hn hnp hlook)
    · exact hinj n hn m hm g fl₁ fl₂ hlook hlook'

include halign

/-- What the context shows after a round of pass 1. -/
theorem PageLoaded.contextByte_eq {a : ℕ} (ha : a / 4096 < 2 ^ 35) :
    contextByte arch hhdm st'.vmm.pmm ctx.rootPhys a =
      if a / 4096 = pageNumber page then
        some (if (phdr.start page).toNat ≤ a ∧ a < (phdr.stop page).toNat then
            file.data ((phdr.fileOff page).toNat + (a - (phdr.start page).toNat))
          else (contextByte arch hhdm st.vmm.pmm ctx.rootPhys a).getD 0)
      else contextByte arch hhdm st.vmm.pmm ctx.rootPhys a := by
  have hmod : a % 4096 < 4096 := Nat.mod_lt a (by decide)
  rw [contextByte, h.lookup _ ha]
  by_cases hn : a / 4096 = pageNumber page
  · have hsum : page.toNat + a % 4096 = a := by
      rw [pageNumber] at hn
      omega
    rw [if_pos hn, if_pos hn, Option.map_some, h.bytes _ hmod, hsum]
    refine congrArg some (if_congr Iff.rfl rfl ?_)
    rw [contextByte, hn]
    rcases h.found with hfound | ⟨hnone, -, -⟩
    · rw [hfound]
      rfl
    · rw [hnone]
      rfl
  · rw [if_neg hn, if_neg hn, contextByte]
    cases hlook : vmmLookup arch hhdm st.vmm.pmm ctx.rootPhys (a / 4096) with
    | none => rfl
    | some e =>
      obtain ⟨g, fl'⟩ := e
      have hown := hinv.lookup g ⟨_, ha, fl', hlook⟩
      have hagree := h.others g hown (h.frame_ne hinv hinj hlt ha hn hlook)
      refine congrArg some (hagree _ ?_)
      rwa [ByteMem.toNat_add_ofNat_sub _ (by omega)]

end Round

/-! ## Pass 1 -/

/-- After the pages `done` of pass 1: these pages are mapped, each to its own frame, and the context
shows the file parts in them and zeros around these. -/
structure ElfImage (arch : Arch) (hhdm : Word) (ctx : VmmContext) (file : ElfFile)
    (ehdr : Elf64Ehdr) (done : List (ℕ × Word)) (st : ElfState) : Prop where
  segment : ∀ e ∈ done, file.Segment ehdr e.1 ∧ e.2 < vmmAddrSplit
  mapped : ∀ n < 2 ^ 35, vmmLookup arch hhdm st.vmm.pmm ctx.rootPhys n ≠ none ↔
    ∃ e ∈ done, pageNumber e.2 = n
  injective : FramesInjective arch hhdm st.vmm.pmm ctx.rootPhys
  data : ∀ e ∈ done, ∀ a, a / 4096 = pageNumber e.2 → (file.phdr ehdr e.1).InFile a →
    contextByte arch hhdm st.vmm.pmm ctx.rootPhys a = some (file.data
      ((file.phdr ehdr e.1).pOffset.toNat + (a - (file.phdr ehdr e.1).pVaddr.toNat)))
  zero : ∀ e ∈ done, ∀ a, a / 4096 = pageNumber e.2 →
    (∀ e' ∈ done, pageNumber e'.2 = a / 4096 → ¬ (file.phdr ehdr e'.1).InFile a) →
    contextByte arch hhdm st.vmm.pmm ctx.rootPhys a = some 0

theorem Elf64Phdr.InFile.covers {phdr : Elf64Phdr} {a : ℕ} (h : phdr.InFile a)
    (hfile : phdr.pFilesz ≤ phdr.pMemsz) : phdr.Covers a := by
  have hfile' := BitVec.le_def.mp hfile
  exact ⟨h.1, by have := h.2; omega⟩

theorem ElfFile.Visits.segment {i : ℕ} {page : Word} (h : file.Visits ehdr i page)
    (hi : i < ehdr.ePhnum.toNat) : file.Segment ehdr i := by
  refine ⟨hi, h.2.1, ?_⟩
  have hmem := h.mem_loadPages
  rw [ElfFile.loadPages] at hmem
  split at hmem
  · assumption
  · cases hmem

/-- A round of pass 1 extends the image by its page. -/
theorem ElfImage.loadPage (hload : file.Loadable ehdr) {prev : List (ℕ × Word)} {i : ℕ}
    {page f fl : Word} {st st' : ElfState} (hinv : ElfInv arch hhdm roots v ctx free₀ st free)
    (h : ElfImage arch hhdm ctx file ehdr prev st) (hi : i < ehdr.ePhnum.toNat)
    (hvisit : file.Visits ehdr i page) (hlt : page < vmmAddrSplit)
    (hdone : PageLoaded arch hhdm v ctx file (file.phdr ehdr i) page st st' f fl) :
    ElfImage arch hhdm ctx file ehdr (prev ++ [(i, page)]) st' := by
  have hseg := hvisit.segment hi
  have hbelow := hload.below i hseg
  have hfilesz := hload.filesz i hseg
  have hn := pageNumber_lt hlt
  have halign := ElfFile.loadPages_aligned hvisit.mem_loadPages
  have hbyte := fun {a : ℕ} (ha : a / 4096 < 2 ^ 35) =>
    hdone.contextByte_eq hinv h.injective hlt halign ha
  have hinFile : ∀ {a : ℕ}, a / 4096 = pageNumber page →
      ((((file.phdr ehdr i).start page).toNat ≤ a ∧ a < ((file.phdr ehdr i).stop page).toNat) ↔
        (file.phdr ehdr i).InFile a) := fun {a} ha => by
    refine Elf64Phdr.inFile_iff hbelow hfilesz hlt ?_
    rw [pageNumber] at ha
    omega
  -- the bytes that this round reads
  have hnew : ∀ {a : ℕ}, a / 4096 = pageNumber page → (file.phdr ehdr i).InFile a →
      contextByte arch hhdm st'.vmm.pmm ctx.rootPhys a = some (file.data
        ((file.phdr ehdr i).pOffset.toNat + (a - (file.phdr ehdr i).pVaddr.toNat))) := by
    intro a ha hin
    have hin' := (hinFile ha).mpr hin
    rw [hbyte (ha ▸ hn), if_pos ha, if_pos hin', hvisit.fileByte hbelow hfilesz hin']
  refine ⟨fun e he => ?_, fun n hn' => ?_, hdone.framesInjective hinv h.injective hlt,
    fun e he a ha hin => ?_, fun e he a ha hout => ?_⟩
  · rcases List.mem_append.mp he with he | he
    · exact h.segment e he
    · rw [List.mem_singleton.mp he]
      exact ⟨hseg, hlt⟩
  · rw [hdone.lookup n hn']
    by_cases hpage : n = pageNumber page
    · rw [if_pos hpage]
      exact ⟨fun _ => ⟨(i, page), by simp, hpage.symm⟩, fun _ => by simp⟩
    · rw [if_neg hpage, h.mapped n hn']
      constructor
      · rintro ⟨e, he, hen⟩
        exact ⟨e, List.mem_append_left _ he, hen⟩
      · rintro ⟨e, he, hen⟩
        rcases List.mem_append.mp he with he | he
        · exact ⟨e, he, hen⟩
        · rw [List.mem_singleton.mp he] at hen
          exact absurd hen.symm hpage
  · rcases List.mem_append.mp he with he | he
    · obtain ⟨hseg', hlt'⟩ := h.segment e he
      have ha' : a / 4096 < 2 ^ 35 := ha ▸ pageNumber_lt hlt'
      have hold := h.data e he a ha hin
      by_cases hpage : a / 4096 = pageNumber page
      · by_cases hin' : (file.phdr ehdr i).InFile a
        · -- only one segment has this byte
          have hsame : e.1 = i := by
            by_contra hne
            exact hload.disjoint e.1 i hseg' hseg hne a
              (hin.covers (hload.filesz e.1 hseg')) (hin'.covers hfilesz)
          rw [hsame]
          exact hnew hpage hin'
        · rw [hbyte ha', if_pos hpage, if_neg (mt (hinFile hpage).mp hin'), hold, Option.getD_some]
      · rw [hbyte ha', if_neg hpage, hold]
    · rw [List.mem_singleton.mp he] at ha hin ⊢
      exact hnew ha hin
  · have hout' : ∀ e' ∈ prev, pageNumber e'.2 = a / 4096 → ¬ (file.phdr ehdr e'.1).InFile a :=
      fun e' he' => hout e' (List.mem_append_left _ he')
    rcases List.mem_append.mp he with he | he
    · obtain ⟨-, hlt'⟩ := h.segment e he
      have ha' : a / 4096 < 2 ^ 35 := ha ▸ pageNumber_lt hlt'
      have hold := h.zero e he a ha hout'
      by_cases hpage : a / 4096 = pageNumber page
      · have hin' := hout (i, page) (by simp) hpage.symm
        rw [hbyte ha', if_pos hpage, if_neg (mt (hinFile hpage).mp hin'), hold, Option.getD_some]
      · rw [hbyte ha', if_neg hpage, hold]
    · rw [List.mem_singleton.mp he] at ha
      have hin' := hout (i, page) (by simp) ha.symm
      rw [hbyte (ha ▸ hn), if_pos ha, if_neg (mt (hinFile ha).mp hin')]
      -- a page that was mapped before had a zero here, a new one is full of zeros
      cases hlook : vmmLookup arch hhdm st.vmm.pmm ctx.rootPhys (pageNumber page) with
      | none => rw [contextByte, ha, hlook]; rfl
      | some e' =>
        obtain ⟨e'', he'', hpage''⟩ := (h.mapped _ hn).mp (by rw [hlook]; simp)
        rw [h.zero e'' he'' a (ha.trans hpage''.symm) hout']
        rfl

/-! ## Pass 2 -/

/-- After the pages `done` of pass 2, which started in `st₁`: the context shows the same bytes, and
a page that is done has the flags of a segment that has it. -/
structure ElfProtected (arch : Arch) (hhdm : Word) (ctx : VmmContext) (file : ElfFile)
    (ehdr : Elf64Ehdr) (st₁ : ElfState) (done : List (ℕ × Word)) (st : ElfState) : Prop where
  mapped : ∀ n < 2 ^ 35, vmmLookup arch hhdm st.vmm.pmm ctx.rootPhys n = none ↔
    vmmLookup arch hhdm st₁.vmm.pmm ctx.rootPhys n = none
  bytes : ∀ a, a / 4096 < 2 ^ 35 → contextByte arch hhdm st.vmm.pmm ctx.rootPhys a =
    contextByte arch hhdm st₁.vmm.pmm ctx.rootPhys a
  flags : ∀ e ∈ done, e.2 < vmmAddrSplit ∧ ∃ e' ∈ done, pageNumber e'.2 = pageNumber e.2 ∧ ∃ f,
    vmmLookup arch hhdm st.vmm.pmm ctx.rootPhys (pageNumber e.2) =
      some (f, ((file.phdr ehdr e'.1).vmmFlags ||| vmmPresent) &&& 31)

theorem ElfProtected.start (st : ElfState) :
    ElfProtected arch hhdm ctx file ehdr st [] st :=
  ⟨fun _ _ => Iff.rfl, fun _ _ => rfl, by simp⟩

/-- A round of pass 2. -/
theorem ElfProtected.protectPage {prev : List (ℕ × Word)} {i : ℕ} {page f fl : Word}
    {st₁ st st' : ElfState} (hinv : ElfInv arch hhdm roots v ctx free₀ st free)
    (h : ElfProtected arch hhdm ctx file ehdr st₁ prev st) (hlt : page < vmmAddrSplit)
    (hdone : PageProtected arch hhdm v ctx (file.phdr ehdr i) page st st' f fl) :
    ElfProtected arch hhdm ctx file ehdr st₁ (prev ++ [(i, page)]) st' := by
  refine ⟨fun n hn => ?_, fun a ha => ?_, fun e he => ?_⟩
  · rw [← h.mapped n hn, hdone.lookup n hn]
    split
    · rename_i hpage
      rw [hpage, hdone.found]
      simp
    · rfl
  · rw [← h.bytes a ha, contextByte, contextByte, hdone.lookup _ ha]
    -- the frame stays the same
    have hframe : ∀ g fl', vmmLookup arch hhdm st.vmm.pmm ctx.rootPhys (a / 4096) =
        some (g, fl') → st'.vmm.pmm.mem (pmmPhysToVirt hhdm g + BitVec.ofNat 64 (a % 4096)) =
          st.vmm.pmm.mem (pmmPhysToVirt hhdm g + BitVec.ofNat 64 (a % 4096)) := by
      intro g fl' hlook
      refine hdone.others g (hinv.lookup g ⟨_, ha, fl', hlook⟩) _ ?_
      have hmod : a % 4096 < 4096 := Nat.mod_lt a (by decide)
      rwa [ByteMem.toNat_add_ofNat_sub _ (by omega)]
    split
    · rename_i hpage
      rw [hpage, hdone.found]
      exact congrArg some (hframe f fl (hpage ▸ hdone.found))
    · cases hlook : vmmLookup arch hhdm st.vmm.pmm ctx.rootPhys (a / 4096) with
      | none => rfl
      | some e => exact congrArg some (hframe e.1 e.2 hlook)
  · have hself : (i, page) ∈ prev ++ [(i, page)] := by simp
    rcases List.mem_append.mp he with he | he
    · obtain ⟨hlt', e', he', hpage', g, hlook⟩ := h.flags e he
      refine ⟨hlt', ?_⟩
      by_cases hpage : pageNumber e.2 = pageNumber page
      · refine ⟨(i, page), hself, hpage.symm, f, ?_⟩
        rw [hdone.lookup _ (pageNumber_lt hlt'), if_pos hpage]
      · refine ⟨e', List.mem_append_left _ he', hpage', g, ?_⟩
        rw [hdone.lookup _ (pageNumber_lt hlt'), if_neg hpage, hlook]
    · rw [List.mem_singleton.mp he]
      refine ⟨hlt, (i, page), hself, rfl, f, ?_⟩
      rw [hdone.lookup _ (pageNumber_lt hlt), if_pos rfl]

/-- The permissions that the flags of pass 2 stand for. -/
theorem Elf64Phdr.vmmFlags_spec (phdr : Elf64Phdr) {fl : Word}
    (hfl : fl = (phdr.vmmFlags ||| vmmPresent) &&& 31) :
    fl &&& vmmUser ≠ 0 ∧ (fl &&& vmmWritable ≠ 0 ↔ phdr.pFlags &&& pfW ≠ 0) ∧
      (fl &&& vmmNoExecute ≠ 0 ↔ phdr.pFlags &&& pfX = 0) := by
  rw [hfl, Elf64Phdr.vmmFlags, orIf, orIf]
  by_cases hw : phdr.pFlags &&& pfW = 0
  · by_cases hx : phdr.pFlags &&& pfX = 0
    · rw [if_neg (not_not.mpr hw), if_pos (not_not.mpr hx)]
      simp only [ne_eq, hw, hx]
      decide
    · rw [if_neg (not_not.mpr hw), if_neg (not_not.mpr hx)]
      simp only [ne_eq, hw, hx]
      decide
  · by_cases hx : phdr.pFlags &&& pfX = 0
    · rw [if_pos hw, if_pos (not_not.mpr hx)]
      simp only [ne_eq, hw, hx]
      decide
    · rw [if_pos hw, if_neg (not_not.mpr hx)]
      simp only [ne_eq, hw, hx]
      decide

/-! ## The whole call -/

/-- The context with the tables below `root` shows the segments of the file. -/
structure ElfLoaded (arch : Arch) (hhdm : Word) (s : Pmm) (root : Word) (file : ElfFile)
    (ehdr : Elf64Ehdr) : Prop where
  /-- Every byte of a segment is the one in the file, or zero past the file part. -/
  bytes : ∀ i, file.Segment ehdr i → ∀ a, (file.phdr ehdr i).Covers a →
    contextByte arch hhdm s root a =
      some (if a < (file.phdr ehdr i).pVaddr.toNat + (file.phdr ehdr i).pFilesz.toNat then
        file.data ((file.phdr ehdr i).pOffset.toNat + (a - (file.phdr ehdr i).pVaddr.toNat))
        else 0)
  /-- The pages of the segments are mapped, and no others. -/
  mapped : ∀ n < 2 ^ 35, vmmLookup arch hhdm s root n ≠ none ↔
    ∃ i, file.Segment ehdr i ∧ (file.phdr ehdr i).HasPage n
  /-- A page that only one segment has gets the permissions of this segment. -/
  flags : ∀ i n, file.Segment ehdr i → (file.phdr ehdr i).HasPage n →
    (∀ j, file.Segment ehdr j → (file.phdr ehdr j).HasPage n → j = i) →
    ∃ f fl, vmmLookup arch hhdm s root n = some (f, fl) ∧ fl &&& vmmUser ≠ 0 ∧
      (fl &&& vmmWritable ≠ 0 ↔ (file.phdr ehdr i).pFlags &&& pfW ≠ 0) ∧
      (fl &&& vmmNoExecute ≠ 0 ↔ (file.phdr ehdr i).pFlags &&& pfX = 0)

section Whole

variable (hload : file.Loadable ehdr)

include hload

/-- The pages that the passes visit are the pages of the segments. -/
theorem ElfFile.Loadable.exists_page_iff (hread : ∀ i < ehdr.ePhnum.toNat, file.SegmentRead ehdr i)
    {i n : ℕ} :
    (∃ page, (i, page) ∈ file.pagesUpTo ehdr ehdr.ePhnum.toNat ∧ pageNumber page = n) ↔
      file.Segment ehdr i ∧ (file.phdr ehdr i).HasPage n := by
  constructor
  · rintro ⟨page, hmem, hpage⟩
    obtain ⟨hi, hmem⟩ := ElfFile.mem_pagesUpTo.mp hmem
    have hseg := (ElfFile.visits_of_segmentRead (fun j hj => hread j (lt_of_le_of_lt hj hi))
      hmem).segment hi
    rw [ElfFile.loadPages, if_pos hseg.load] at hmem
    exact ⟨hseg, (Elf64Phdr.exists_page_iff (hload.below i hseg)).mp ⟨page, hmem, hpage⟩⟩
  · rintro ⟨hseg, hpage⟩
    obtain ⟨page, hmem, hpage⟩ := (Elf64Phdr.exists_page_iff (hload.below i hseg)).mpr hpage
    refine ⟨page, ElfFile.mem_pagesUpTo.mpr ⟨hseg.lt, ?_⟩, hpage⟩
    rw [ElfFile.loadPages, if_pos hseg.load]
    exact hmem

theorem ElfFile.Loadable.visits_lt {i : ℕ} (hi : i < ehdr.ePhnum.toNat) {page : Word}
    (hvisit : file.Visits ehdr i page) : page < vmmAddrSplit := by
  have hseg := hvisit.segment hi
  have hmem := hvisit.mem_loadPages
  rw [ElfFile.loadPages, if_pos hseg.load] at hmem
  exact Elf64Phdr.pages_lt (hload.below i hseg) hmem

theorem ElfFile.Loadable.hasPage_lt {i n : ℕ} (hseg : file.Segment ehdr i)
    (hpage : (file.phdr ehdr i).HasPage n) : n < 2 ^ 35 := by
  have hbelow := hload.below i hseg
  have hsplit : (vmmAddrSplit : Word).toNat = 2 ^ 47 := rfl
  have hlt := hpage.2
  omega

/-- The image of pass 1 with the permissions of pass 2. -/
theorem ElfImage.loaded {st₁ st : ElfState}
    (hread : ∀ i < ehdr.ePhnum.toNat, file.SegmentRead ehdr i)
    (h : ElfImage arch hhdm ctx file ehdr (file.pagesUpTo ehdr ehdr.ePhnum.toNat) st₁)
    (h' : ElfProtected arch hhdm ctx file ehdr st₁ (file.pagesUpTo ehdr ehdr.ePhnum.toNat) st) :
    ElfLoaded arch hhdm st.vmm.pmm ctx.rootPhys file ehdr := by
  have hpages := fun {i n : ℕ} => hload.exists_page_iff hread (i := i) (n := n)
  refine ⟨fun i hseg a ha => ?_, fun n hn => ?_, fun i n hseg hpage honly => ?_⟩
  · have hhas : (file.phdr ehdr i).HasPage (a / 4096) := by
      obtain ⟨hlow, hhigh⟩ := ha
      rw [Elf64Phdr.HasPage]
      omega
    obtain ⟨page, hmem, hpage⟩ := hpages.mpr ⟨hseg, hhas⟩
    rw [h'.bytes a (hload.hasPage_lt hseg hhas)]
    split
    · rename_i hin
      exact h.data (i, page) hmem a hpage.symm ⟨ha.1, hin⟩
    · rename_i hout
      refine h.zero (i, page) hmem a hpage.symm fun e he _ hin => ?_
      obtain ⟨hseg', -⟩ := h.segment e he
      have hsame : e.1 = i := by
        by_contra hne
        exact hload.disjoint e.1 i hseg' hseg hne a (hin.covers (hload.filesz e.1 hseg')) ha
      exact hout (hsame ▸ hin.2)
  · rw [Ne, h'.mapped n hn, ← Ne, h.mapped n hn]
    constructor
    · rintro ⟨e, he, hpage⟩
      exact ⟨e.1, hpages.mp ⟨e.2, he, hpage⟩⟩
    · rintro ⟨i, hi⟩
      obtain ⟨page, hmem, hpage⟩ := hpages.mpr hi
      exact ⟨_, hmem, hpage⟩
  · obtain ⟨page, hmem, hnum⟩ := hpages.mpr ⟨hseg, hpage⟩
    obtain ⟨-, e', he', hnum', f, hlook⟩ := h'.flags _ hmem
    obtain ⟨hseg', hhas'⟩ := hpages.mp ⟨e'.2, he', hnum'.trans hnum⟩
    have hsame := honly e'.1 hseg' hhas'
    rw [hnum, hsame] at hlook
    exact ⟨f, _, hlook, (file.phdr ehdr i).vmmFlags_spec rfl⟩

/-- The two passes over a loadable file, from a context without mappings. -/
theorem ElfInv.loadSegments_image (hh : HhdmOk hhdm) (hctx : ContextIn hhdm roots ctx)
    {st : ElfState} (h : ElfInv arch hhdm roots v ctx free₀ st free)
    (hempty : ∀ n < 2 ^ 35, vmmLookup arch hhdm st.vmm.pmm ctx.rootPhys n = none) :
    Loop.Outcome
      (fun st' => ElfLoaded arch hhdm st'.vmm.pmm ctx.rootPhys file ehdr)
      (fun e st' => (st'.vmm.pmm.freeListHead = 0 ∧ e.OutOfPages) ∨
        ∃ i < ehdr.ePhnum.toNat, ¬ file.SegmentRead ehdr i)
      (elfLoadSegments arch hhdm file ctx ehdr st) := by
  have hstart : ElfImage arch hhdm ctx file ehdr [] st := by
    refine ⟨by simp, fun n hn => by simp [hempty n hn], fun n hn m _ f fl _ hlook => ?_, by simp,
      by simp⟩
    rw [hempty n hn] at hlook
    cases hlook
  rw [elfLoadSegments]
  rcases h.pass1 (K := ElfImage arch hhdm ctx file ehdr) hh hctx
      (fun hinv himage hi hvisit hlt hdone => himage.loadPage hload hinv hi hvisit hlt hdone) hstart
      (fun i hi page hvisit => hload.visits_lt hi hvisit) with
    ⟨st₁, hcall, ⟨free₁, hinv₁⟩, himage, hread⟩ | ⟨e, st', hcall, free', hinv', herr⟩
  · have hmapped : PagesMapped arch hhdm ctx (file.pagesUpTo ehdr ehdr.ePhnum.toNat) st₁ :=
      fun e he => (himage.mapped _ (pageNumber_lt (himage.segment e he).2)).mpr ⟨e, he, rfl⟩
    obtain ⟨st₂, hcall₂, -, hprot⟩ := hinv₁.pass2
      (K := ElfProtected arch hhdm ctx file ehdr st₁) hh hctx
      (fun hinv hprot _ hlt hdone => hprot.protectPage hinv hlt hdone) (ElfProtected.start st₁)
      hmapped fun e he => (himage.segment e he).2
    refine Or.inl ⟨st₂, ?_, himage.loaded hload hread hprot⟩
    rw [hcall]
    exact hcall₂
  · refine Or.inr ⟨e, st', ?_, herr.imp_left (And.imp_left fun hnil => ?_)⟩
    · rw [hcall]
    · subst hnil
      exact hinv'.loaded.tables.list.links

end Whole

/-- ELF loading is faithful. For a file that passes the checks of the header and whose segments fit
into the lower half and are disjoint, loaded into a context that maps nothing: if `elf_load`
succeeds, the context shows the segments, and it succeeds if all that it reads is in the file and no
allocation fails. -/
theorem elf_load_is_faithful (hh : HhdmOk hhdm) (htables : Tables arch hhdm 3 v.pmm roots free)
    (hctx : ContextIn hhdm roots ctx)
    (hempty : ∀ n < 2 ^ 35, vmmLookup arch hhdm v.pmm ctx.rootPhys n = none)
    (hcheck : file.checkHeader arch = .ok ()) (hload : file.Loadable file.ehdr) :
    ∃ res st, elfLoad arch hhdm ctx (some file) v = some (res, st) ∧
      (∀ entry, res = .ok entry → entry = file.ehdr.eEntry ∧
        ElfLoaded arch hhdm st.vmm.pmm ctx.rootPhys file file.ehdr) ∧
      ((∀ i < file.ehdr.ePhnum.toNat, file.SegmentRead file.ehdr i) →
        (∃ entry, res = .ok entry) ∨
        ∃ e, res = .error e ∧ e.OutOfPages ∧ st.vmm.pmm.freeListHead = 0) := by
  have hframes : ∀ f, LowerFrame arch hhdm v.pmm ctx.rootPhys f →
      IsPage hhdm f ∧ f ∉ free ∧ ¬ Node arch hhdm 3 v.pmm roots f := by
    rintro f ⟨n, hn, fl, hlook⟩
    rw [hempty n hn] at hlook
    cases hlook
  rw [elfLoad]
  simp only [hcheck]
  rcases (ElfInv.start htables hframes).loadSegments_image hload hh hctx hempty with
    ⟨st, hcall, hloaded⟩ | ⟨e, st, hcall, herr⟩
  · refine ⟨.ok file.ehdr.eEntry, st, by simp only [hcall], fun entry he => ?_,
      fun _ => Or.inl ⟨_, rfl⟩⟩
    exact ⟨(Except.ok.inj he).symm, hloaded⟩
  · refine ⟨.error e, st, by simp only [hcall], by simp, fun hread => Or.inr ⟨e, rfl, ?_⟩⟩
    rcases herr with ⟨hhead, hkind⟩ | ⟨i, hi, hno⟩
    · exact ⟨hkind, hhead⟩
    · exact absurd (hread i hi) hno

theorem tinyProgram_segment {i : ℕ}
    (hseg : (tinyProgram 0x400000).Segment (tinyProgram 0x400000).ehdr i) : i = 0 := by
  have hone : (tinyProgram 0x400000).ehdr.ePhnum.toNat = 1 := by decide +kernel
  have hlt := hseg.lt
  omega

theorem tinyProgram_loadable : (tinyProgram 0x400000).Loadable (tinyProgram 0x400000).ehdr := by
  refine ⟨fun i hseg => ?_, fun i hseg => ?_, fun i j hi hj hne => ?_⟩
  · rw [tinyProgram_segment hseg]
    decide +kernel
  · rw [tinyProgram_segment hseg]
    decide +kernel
  · exact absurd ((tinyProgram_segment hi).trans (tinyProgram_segment hj).symm) hne

theorem tinyMachine_context : ContextIn exampleHhdm [0x1000] (newContext exampleHhdm 0x1000) :=
  ⟨List.mem_singleton_self _, rfl⟩

/-- The small program is loaded to its address and starts there. -/
theorem elf_load_is_faithful_tiny :
    ∃ st, elfLoad .x86_64 exampleHhdm (newContext exampleHhdm 0x1000)
        (some (tinyProgram 0x400000)) tinyMachine = some (.ok 0x400000, st) ∧
      contextByte .x86_64 exampleHhdm st.vmm.pmm 0x1000 0x400000 = some 0x7f := by
  have hcheck : (tinyProgram 0x400000).checkHeader .x86_64 = .ok () := by decide +kernel
  have hvaddr : ((tinyProgram 0x400000).phdr (tinyProgram 0x400000).ehdr 0).pVaddr = 0x400000 := by
    decide +kernel
  have hmemsz : ((tinyProgram 0x400000).phdr (tinyProgram 0x400000).ehdr 0).pMemsz = 1 := by
    decide +kernel
  have hfilesz : ((tinyProgram 0x400000).phdr (tinyProgram 0x400000).ehdr 0).pFilesz = 1 := by
    decide +kernel
  have hcall : (elfLoad .x86_64 exampleHhdm (newContext exampleHhdm 0x1000)
      (some (tinyProgram 0x400000)) tinyMachine).map (fun r => r.1.toOption) =
      some (some 0x400000) := by decide +kernel
  obtain ⟨⟨res, st⟩, hres, hok⟩ := Option.map_eq_some_iff.mp hcall
  obtain ⟨res', st', hres', hloaded, -⟩ := elf_load_is_faithful exampleHhdm_ok tinyMachine_tables
    tinyMachine_context (fun n hn => tinyMachine_root.lookup hn) hcheck tinyProgram_loadable
  obtain ⟨rfl, rfl⟩ := Prod.mk.inj (Option.some.inj (hres.symm.trans hres'))
  cases res with
  | error e => cases hok
  | ok entry =>
    obtain rfl := Option.some.inj hok
    have hseg : (tinyProgram 0x400000).Segment (tinyProgram 0x400000).ehdr 0 :=
      ⟨by decide +kernel, by decide +kernel, by decide +kernel⟩
    have hbyte := (hloaded _ rfl).2.bytes 0 hseg 0x400000 ⟨by rw [hvaddr]; decide,
      by rw [hvaddr, hmemsz]; decide⟩
    rw [hvaddr, hfilesz, if_pos (by decide)] at hbyte
    refine ⟨st, hres, hbyte.trans ?_⟩
    decide +kernel

end Pros
