import Pros.Proc.ElfRuns
import Pros.Vmm.KernelHalf

/-!
# The passes of the ELF loader in the lower half

The two passes of `elf_load` for a file all of whose pages lie below `VMM_ADDR_SPLIT`, and the files
and machines of the examples.
-/

namespace Pros

variable {arch : Arch} {hhdm : Word} {roots free : List Word} {v : Vmm} {ctx : VmmContext}

/-- A page that pass 1 has mapped stays mapped. -/
theorem PageLoaded.mapped {prev : List (ℕ × Word)} {i : ℕ} {page f fl : Word} {file : ElfFile}
    {phdr : Elf64Phdr} {st st' : ElfState}
    (hdone : PageLoaded arch hhdm v ctx file phdr page st st' f fl) (hlt : page < vmmAddrSplit)
    (h : ∀ e ∈ prev, e.2 < vmmAddrSplit ∧
      vmmLookup arch hhdm st.vmm.pmm ctx.rootPhys (pageNumber e.2) ≠ none) :
    ∀ e ∈ prev ++ [(i, page)], e.2 < vmmAddrSplit ∧
      vmmLookup arch hhdm st'.vmm.pmm ctx.rootPhys (pageNumber e.2) ≠ none := by
  intro e he
  rcases List.mem_append.mp he with he | he
  · obtain ⟨hlt', hlook⟩ := h e he
    refine ⟨hlt', ?_⟩
    rw [hdone.lookup _ (pageNumber_lt hlt')]
    split
    · simp
    · exact hlook
  · rw [List.mem_singleton.mp he]
    refine ⟨hlt, ?_⟩
    rw [hdone.lookup _ (pageNumber_lt hlt), if_pos rfl]
    simp

/-- The two passes, with what is followed through pass 2. -/
theorem ElfInv.loadSegments_rule (hh : HhdmOk hhdm) (hctx : ContextIn hhdm roots ctx)
    {file : ElfFile} {ehdr : Elf64Ehdr} {K : List (ℕ × Word) → ElfState → Prop}
    (hK : ∀ {prev i page st st' f fl}, K prev st →
      PageProtected arch hhdm v ctx (file.phdr ehdr i) page st st' f fl →
      K (prev ++ [(i, page)]) st')
    (hstart : ∀ st, K [] st) {st : ElfState}
    (h : ElfInv arch hhdm roots v ctx free st free)
    (hbelow : ∀ i < ehdr.ePhnum.toNat, ∀ page, file.Visits ehdr i page → page < vmmAddrSplit) :
    Loop.Outcome
      (fun st' => (∃ free', ElfInv arch hhdm roots v ctx free st' free') ∧
        K (file.pagesUpTo ehdr ehdr.ePhnum.toNat) st' ∧
        ∀ i < ehdr.ePhnum.toNat, file.SegmentRead ehdr i)
      (fun _ st' => ∃ free', ElfInv arch hhdm roots v ctx free st' free')
      (elfLoadSegments arch hhdm file ctx ehdr st) := by
  rw [elfLoadSegments]
  -- pass 1 leaves all the pages mapped, as pass 2 needs them
  rcases h.pass1
    (K := fun done st => ∀ e ∈ done, e.2 < vmmAddrSplit ∧
      vmmLookup arch hhdm st.vmm.pmm ctx.rootPhys (pageNumber e.2) ≠ none) hh hctx
    (fun _ hmapped _ _ hlt hdone => hdone.mapped hlt hmapped) (by simp) hbelow with
    ⟨st', hcall, ⟨free', hinv⟩, hmapped, hread⟩ | ⟨e, st', hcall, free', hinv, -⟩
  · obtain ⟨st'', hcall', hinv', hK'⟩ := hinv.pass2 (K := K) hh hctx
      (fun _ hprev _ _ hdone => hK hprev hdone) (hstart st') (fun e he => (hmapped e he).2)
      fun e he => (hmapped e he).1
    refine Or.inl ⟨st'', ?_, hinv', hK', hread⟩
    rw [hcall]
    exact hcall'
  · refine Or.inr ⟨e, st', ?_, free', hinv⟩
    rw [hcall]

/-! ## Files for examples -/

/-- A file with the given bytes. -/
def ElfFile.ofBytes (bytes : List (BitVec 8)) : ElfFile where
  size := BitVec.ofNat 64 bytes.length
  data := fun k => bytes.getD k 0

/-- The bytes of a program header, aligned to pages. -/
def Elf64Phdr.bytes (phdr : Elf64Phdr) : List (BitVec 8) :=
  leBytes 4 (phdr.pType.setWidth 64) ++ leBytes 4 (phdr.pFlags.setWidth 64) ++
    leBytes 8 phdr.pOffset ++ leBytes 8 phdr.pVaddr ++ leBytes 8 0 ++ leBytes 8 phdr.pFilesz ++
    leBytes 8 phdr.pMemsz ++ leBytes 8 4096

/-- A program for x86_64 with the given entry point and program headers. -/
def elfProgram (entry : Word) (phdrs : List Elf64Phdr) : ElfFile :=
  .ofBytes <|
    [0x7f, 0x45, 0x4c, 0x46, 2, 1, 1, 0, 0, 0, 0, 0, 0, 0, 0, 0] ++ leBytes 2 2 ++ leBytes 2 62 ++
    leBytes 4 1 ++ leBytes 8 entry ++ leBytes 8 64 ++ leBytes 8 0 ++ leBytes 4 0 ++ leBytes 2 64 ++
    leBytes 2 56 ++ leBytes 2 (BitVec.ofNat 64 phdrs.length) ++ leBytes 6 0 ++
    phdrs.flatMap Elf64Phdr.bytes

/-- A program for x86_64 with one segment of one byte, the first byte of the file. -/
def tinyProgram (vaddr : Word) : ElfFile := elfProgram vaddr [⟨ptLoad, 5, 0, vaddr, 1, 1⟩]

/-- A machine with an empty root in page 1 and the pages 2 to 6 free. -/
def tinyMachine : Vmm where
  pmm := freePmm exampleHhdm [0x2000, 0x3000, 0x4000, 0x5000, 0x6000]
  vmmKernelContext := some (newContext exampleHhdm 0x1000)
  vmmCurrentContext := some (newContext exampleHhdm 0x1000)
  userRoot := 0x1000
  ttbr1 := 0

/-- The root of the machine is a root with nothing below. -/
theorem tinyMachine_root :
    NewRoot exampleHhdm (freePmm exampleHhdm [0x1000, 0x2000, 0x3000, 0x4000, 0x5000, 0x6000])
      tinyMachine.pmm 0x1000 where
  lower := by decide +kernel
  mem x hx := (ByteMem.store64_apply_of_apart fun hin => hx (by omega)).symm
  maxPhysAddr := rfl

theorem tinyMachine_tables :
    Tables .x86_64 exampleHhdm 3 tinyMachine.pmm [0x1000]
      [0x2000, 0x3000, 0x4000, 0x5000, 0x6000] := by
  have hpage : ∀ p ∈ [0x1000, 0x2000, 0x3000, 0x4000, 0x5000, 0x6000], IsPage exampleHhdm p := by
    simp only [List.forall_mem_cons, List.not_mem_nil, false_implies, implies_true, and_true]
    refine ⟨?_, ?_, ?_, ?_, ?_, ?_⟩ <;> exact ⟨by decide, by decide, by decide⟩
  have hfits : ∀ p ∈ [0x1000, 0x2000, 0x3000, 0x4000, 0x5000, 0x6000],
      Arch.x86_64.FitsPte p := by
    simp only [List.forall_mem_cons, List.not_mem_nil, false_implies, implies_true, and_true]
    refine ⟨?_, ?_, ?_, ?_, ?_, ?_⟩ <;> exact ⟨by decide, by decide⟩
  exact (Tables.empty (freePmm_list exampleHhdm_ok hpage (by decide)) hfits).addRoot exampleHhdm_ok
    le_rfl (by decide) (freePmm_list exampleHhdm_ok (fun p hp => hpage p (List.mem_cons_of_mem _ hp))
      (by decide)) tinyMachine_root

end Pros
