import Pros.Proc.ElfImage
import Pros.Vmm.Spaces

/-!
# Which pages the ELF loader maps

The bounds of the page loops of `elf_load` are computed from `p_vaddr` and `p_memsz`, which the file
chooses, with 64-bit sums that may wrap. A loop whose upper bound wrapped does nothing, or stops
early, and the call goes on: it can succeed without having mapped a segment.

Here the loader is followed in both halves, with the typed tables of `Spaces`: after a successful call
an address is mapped if it was before, or if its page is one that the loops visit. From this the files
whose segments are all mapped are read off.
-/

namespace Pros

variable {arch : Arch} {hhdm page phys : Word} {roots free : List Word} {v w : Vmm}
variable {ctx : VmmContext} {kind : Word → Option ℕ} {T : Word → Prop} {s' : Pmm}

/-! ## Pages -/

/-- The address lies in the page, as far as the tables can tell. -/
structure SamePage (arch : Arch) (v : Vmm) (ctx : VmmContext) (page va : Word) : Prop where
  root : vmmRoot arch v ctx va = vmmRoot arch v ctx page
  number : pageNumber va % 2 ^ 36 = pageNumber page % 2 ^ 36

theorem SamePage.ctxTranslate_eq {va : Word} (h : SamePage arch v ctx page va) :
    ctxTranslate arch hhdm v ctx va = ctxTranslate arch hhdm v ctx page := by
  rw [ctxTranslate, ctxTranslate, h.root]
  exact hwWalk_eq_of_mod h.number _ _

/-- A page of the upper half and an address of the lower half are never the same page. -/
theorem samePage_of_changed {va : Word} (hnumber : pageNumber va % 2 ^ 36 = pageNumber page % 2 ^ 36)
    (hroot : vmmRoot arch v ctx va = vmmRoot arch v ctx page ∨
      (arch = .x86_64 ∧ 256 ≤ (pageIdx (pageNumber page) (vmmLevels - 1)).val)) :
    SamePage arch v ctx page va := by
  refine ⟨?_, hnumber⟩
  rcases hroot with hroot | ⟨-, hupper⟩
  · exact hroot
  -- both addresses have a root index of the upper half, so neither is below the split
  have hidx := pageIdx_eq_of_mod hnumber (le_refl (vmmLevels - 1))
  have habove : ∀ a : Word, 256 ≤ (pageIdx (pageNumber a) (vmmLevels - 1)).val →
      vmmAddrSplit ≤ a := by
    intro a ha
    rw [BitVec.le_def, show vmmAddrSplit.toNat = 2 ^ 47 from rfl]
    simp only [pageIdx, pageNumber, vmmLevels] at ha
    omega
  rw [vmmRoot, vmmRoot, if_pos (habove page hupper), if_pos (habove va (hidx ▸ hupper))]

/-! ## The invariant -/

/-- What holds in a state `w` of the call: the tables are typed, and for the pages that the loops get
to no block is on the path and the frame is one that can be written to. -/
structure ElfSpaces (arch : Arch) (hhdm : Word) (roots : List Word) (v : Vmm) (ctx : VmmContext)
    (T : Word → Prop) (w : Vmm) (kind : Word → Option ℕ) (free : List Word) : Prop where
  spaces : Spaces arch hhdm kind w.pmm roots free
  registers : w = { v with pmm := w.pmm }
  clear : ∀ page, T page →
    NoBlock arch hhdm w.pmm (pageNumber page) (vmmLevels - 1) (vmmRoot arch v ctx page)
  frame : ∀ page, T page → ∀ e, ctxTranslate arch hhdm w ctx page = some e →
    IsPage hhdm (arch.vmmPteGetPhys e.2) ∧ arch.vmmPteGetPhys e.2 ∉ free ∧
      kind (arch.vmmPteGetPhys e.2) = none

namespace ElfSpaces

variable (hh : HhdmOk hhdm) (hroots : ContextRoots arch hhdm v ctx roots)
variable (h : ElfSpaces arch hhdm roots v ctx T w kind free)

include h

theorem vmmRoot_eq (va : Word) : vmmRoot arch w ctx va = vmmRoot arch v ctx va := by
  rw [h.registers]
  exact vmmRoot_setPmm ..

theorem samePage {va : Word} (hsame : SamePage arch v ctx page va) : SamePage arch w ctx page va :=
  ⟨by rw [h.vmmRoot_eq, h.vmmRoot_eq, hsame.root], hsame.number⟩

include hroots in
theorem contextRoots : ContextRoots arch hhdm w ctx roots := by
  rw [h.registers]
  exact hroots.setPmm _

include hroots in
/-- A change that spares the tables changes no translation. -/
theorem elsewhere {free' : List Word} (hlist : FreeList hhdm s' free')
    (hsub : ∀ p ∈ free', p ∈ free)
    (hslots : ∀ t l, kind t = some l → ∀ i, s'.slot hhdm t i = w.pmm.slot hhdm t i) :
    ElfSpaces arch hhdm roots v ctx T { w with pmm := s' } kind free' ∧
      ∀ va, ctxTranslate arch hhdm { w with pmm := s' } ctx va =
        ctxTranslate arch hhdm w ctx va := by
  have hsame : ∀ va, ctxTranslate arch hhdm { w with pmm := s' } ctx va =
      ctxTranslate arch hhdm w ctx va := by
    intro va
    rw [ctxTranslate, ctxTranslate, vmmRoot_setPmm]
    exact h.spaces.hwWalk_eq hslots
      (h.spaces.root _ ((h.contextRoots hroots).root va)) (pageNumber va)
  refine ⟨⟨?_, ?_, fun page hT => ?_, fun page hT e he => ?_⟩, hsame⟩
  · exact h.spaces.congr hslots hlist (fun p hp => h.spaces.fits p (hsub p hp))
      fun t l ht hp => h.spaces.used t l ht (hsub t hp)
  · rw [h.registers]
  · exact h.spaces.noBlock_congr hslots (h.spaces.root _ (hroots.root page)) (h.clear page hT)
  · rw [hsame] at he
    obtain ⟨hpage, hfree, hkind⟩ := h.frame page hT e he
    exact ⟨hpage, fun hp => hfree (hsub _ hp), hkind⟩

include hh hroots in
/-- Mapping a page to a frame that can be written to. -/
theorem vmmMapPage (hT : T page) (hfits : arch.FitsPte phys) (hphys : IsPage hhdm phys)
    (hfree : phys ∉ free) (hkind : kind phys = none) (flags : Word) :
    ∃ res s' kind' free', vmmMapPage arch hhdm w (some ctx) page phys flags =
        some (res, { w with pmm := s' }) ∧
      ElfSpaces arch hhdm roots v ctx T { w with pmm := s' } kind' free' ∧
      phys ∉ free' ∧ kind' phys = none ∧
      ((res = 0 ∧ ∀ va, ctxTranslate arch hhdm { w with pmm := s' } ctx va ≠ none ↔
          ctxTranslate arch hhdm w ctx va ≠ none ∨ SamePage arch v ctx page va) ∨
        (res = -1 ∧ ∀ va, ctxTranslate arch hhdm { w with pmm := s' } ctx va =
          ctxTranslate arch hhdm w ctx va)) := by
  have hroots' := h.contextRoots hroots
  have hclear := h.clear page hT
  rw [← h.vmmRoot_eq] at hclear
  obtain ⟨res, s', kind', free', hmap, hext, -, hcases⟩ :=
    h.spaces.vmmMapPage hh (hroots'.root page) (hroots'.getRootTable page) hclear hfits flags
  -- a frame that can be written to stays one
  have hkeep : ∀ g, g ∉ free → kind g = none → g ∉ free' ∧ kind' g = none := fun g => hext.frame
  have hclear' : ∀ page, T page → NoBlock arch hhdm s' (pageNumber page) (vmmLevels - 1)
      (vmmRoot arch v ctx page) := fun page hT =>
    hext.clear _ _ (h.spaces.root _ (hroots.root page)) _ (h.clear page hT)
  have hreg : ({ w with pmm := s' } : Vmm) = { v with pmm := s' } := by rw [h.registers]
  refine ⟨res, s', kind', free', hmap, ?_⟩
  rcases hcases with ⟨rfl, hset⟩ | ⟨rfl, -, hwalk⟩
  · -- every translation is the old one or that of the page
    have hothers : ∀ va, ctxTranslate arch hhdm { w with pmm := s' } ctx va =
          ctxTranslate arch hhdm w ctx va ∨
        (ctxTranslate arch hhdm { w with pmm := s' } ctx va =
          some (0, arch.vmmMakePte phys (flags ||| vmmPresent) false) ∧
          SamePage arch v ctx page va) := by
      intro va
      rw [ctxTranslate, ctxTranslate, vmmRoot_setPmm]
      refine (hset.others _ (hroots'.root va) (pageNumber va)).imp_right ?_
      rintro ⟨hnew, hnumber, hroot⟩
      rw [h.vmmRoot_eq, h.vmmRoot_eq] at hroot
      exact ⟨hnew, samePage_of_changed hnumber hroot⟩
    have hpage : ctxTranslate arch hhdm { w with pmm := s' } ctx page =
        some (0, arch.vmmMakePte phys (flags ||| vmmPresent) false) := by
      rw [ctxTranslate, vmmRoot_setPmm]
      exact hset.set
    refine ⟨⟨hext.spaces, hreg, hclear', fun page' hT' e he => ?_⟩, (hkeep phys hfree hkind).1,
      (hkeep phys hfree hkind).2, Or.inl ⟨rfl, fun va => ?_⟩⟩
    · rcases hothers page' with hsame | ⟨hnew, -⟩
      · rw [hsame] at he
        obtain ⟨hg, hgfree, hgkind⟩ := h.frame page' hT' e he
        exact ⟨hg, hkeep _ hgfree hgkind⟩
      · rw [← Option.some.inj (hnew.symm.trans he), Arch.vmmPteGetPhys_vmmMakePte hfits]
        exact ⟨hphys, hkeep phys hfree hkind⟩
    · constructor
      · intro hva
        rcases hothers va with hsame | ⟨-, hsame⟩
        · exact Or.inl (hsame ▸ hva)
        · exact Or.inr hsame
      · rintro (hva | hsame)
        · rcases hothers va with heq | ⟨hnew, -⟩
          · rw [heq]
            exact hva
          · rw [hnew]
            simp
        · have hsame' : SamePage arch { w with pmm := s' } ctx page va :=
            ⟨by rw [vmmRoot_setPmm arch w s' ctx va, vmmRoot_setPmm arch w s' ctx page, h.vmmRoot_eq,
              h.vmmRoot_eq, hsame.root], hsame.number⟩
          rw [hsame'.ctxTranslate_eq, hpage]
          simp
  · have hsame : ∀ va, ctxTranslate arch hhdm { w with pmm := s' } ctx va =
        ctxTranslate arch hhdm w ctx va := by
      intro va
      rw [ctxTranslate, ctxTranslate, vmmRoot_setPmm]
      exact hwalk _ (hroots'.root va) _
    refine ⟨⟨hext.spaces, hreg, hclear', fun page' hT' e he => ?_⟩, (hkeep phys hfree hkind).1,
      (hkeep phys hfree hkind).2, Or.inr ⟨rfl, hsame⟩⟩
    rw [hsame] at he
    obtain ⟨hg, hgfree, hgkind⟩ := h.frame page' hT' e he
    exact ⟨hg, hkeep _ hgfree hgkind⟩

include hh in
/-- Writing to a frame that is neither a table nor free spares the tables and the free list. -/
theorem writeFrame {f : Word} (s' : Pmm) (hf : IsPage hhdm f) (hfree : f ∉ free) (hkind : kind f = none)
    (hhead : s'.freeListHead = w.pmm.freeListHead)
    (hmem : ∀ x, ¬ InPage hhdm f x → s'.mem x = w.pmm.mem x) :
    FreeList hhdm s' free ∧
      ∀ t l, kind t = some l → ∀ i, s'.slot hhdm t i = w.pmm.slot hhdm t i :=
  ⟨h.spaces.list.of_write hh hf hfree hhead hmem,
    h.spaces.slot_of_outside hh hf hkind s' hmem⟩

/-! ## The rounds -/

variable {st : ElfState} {file : ElfFile} {i : ℕ} {phdr : Elf64Phdr}

omit h in
/-- The pages that are mapped after a round on `page`: those before, and this one. -/
def Maps (arch : Arch) (hhdm : Word) (v : Vmm) (ctx : VmmContext) (page : Word) (w w' : Vmm) : Prop :=
  ∀ va, ctxTranslate arch hhdm w' ctx va ≠ none ↔
    ctxTranslate arch hhdm w ctx va ≠ none ∨ SamePage arch v ctx page va

/-- A round on a page that is mapped adds none. -/
theorem maps_of_mapped {w' : Vmm} (hmapped : ctxTranslate arch hhdm w ctx page ≠ none)
    (hsame : ∀ va, ctxTranslate arch hhdm w' ctx va = ctxTranslate arch hhdm w ctx va) :
    Maps arch hhdm v ctx page w w' := by
  intro va
  rw [hsame]
  refine ⟨Or.inl, ?_⟩
  rintro (hva | hva)
  · exact hva
  · rw [(h.samePage hva).ctxTranslate_eq]
    exact hmapped

omit h in
include hh hroots in
/-- A new page: out of memory, or the page is mapped to a frame that can be written to. -/
theorem elfNewPage (h : ElfSpaces arch hhdm roots v ctx T st.vmm kind free) (hT : T page) :
    (∃ e st', elfNewPage arch hhdm ctx st page = some (.error e, st')) ∨
    ∃ f st' kind' free', elfNewPage arch hhdm ctx st page = some (.ok f, st') ∧
      ElfSpaces arch hhdm roots v ctx T st'.vmm kind' free' ∧
      IsPage hhdm f ∧ f ∉ free' ∧ kind' f = none ∧
      Maps arch hhdm v ctx page st.vmm st'.vmm := by
  unfold Pros.elfNewPage
  rcases h.spaces.list.alloc_one hh with ⟨-, hnone⟩ | ⟨f, free₁, s₁, rfl, hsome, hlist, -, hmem⟩
  · rw [hnone]
    exact Or.inl ⟨.outOfMemory page, st, rfl⟩
  have hfpage := h.spaces.list.page f List.mem_cons_self
  have hfits := h.spaces.fits f List.mem_cons_self
  have hfkind := h.spaces.kind_of_free (z := f) List.mem_cons_self
  have hfnot : f ∉ free₁ := (List.nodup_cons.mp h.spaces.list.nodup).1
  obtain ⟨-, hslots⟩ := h.spaces.take hh hlist fun x _ => congrFun hmem x
  obtain ⟨h₁, hsame₁⟩ := h.elsewhere hroots hlist (fun p hp => List.mem_cons_of_mem f hp) hslots
  obtain ⟨res, s₂, kind₂, free₂, hmap, h₂, hfree₂, hkind₂, hcases⟩ :=
    h₁.vmmMapPage hh hroots hT hfits hfpage hfnot hfkind (vmmUser ||| vmmWritable)
  simp only [hsome, Option.bind_eq_bind, Option.bind_some, if_neg hfpage.ne_zero, hmap]
  rcases hcases with ⟨rfl, hmaps⟩ | ⟨rfl, -⟩
  · right
    obtain ⟨hlist₃, hslots₃⟩ := h₂.writeFrame hh
      { s₂ with mem := s₂.mem.memset (pmmPhysToVirt hhdm f) 0 pageSize.toNat } hfpage hfree₂
      hkind₂ rfl fun x hx => if_neg hx
    obtain ⟨h₃, hsame₃⟩ := h₂.elsewhere hroots hlist₃ (fun p hp => hp) hslots₃
    refine ⟨f, _, kind₂, free₂, rfl, h₃, hfpage, hfree₂, hkind₂, fun va => ?_⟩
    rw [← hsame₁ va]
    exact (not_congr (by rw [← hsame₃ va]; exact Iff.rfl)).trans (hmaps va)
  · exact Or.inl ⟨_, _, rfl⟩

omit h in
include hh hroots in
/-- One round of the page loop of pass 1. -/
theorem loadPage (h : ElfSpaces arch hhdm roots v ctx T st.vmm kind free) (hT : T page)
    (halign : page.toNat % 4096 = 0) (hpage : page.toNat + 4096 < 2 ^ 64) :
    Loop.Outcome
      (fun st' => (∃ kind' free', ElfSpaces arch hhdm roots v ctx T st'.vmm kind' free') ∧
        Maps arch hhdm v ctx page st.vmm st'.vmm ∧ file.HasOverlap phdr page)
      (fun _ _ => True) (elfLoadPage arch hhdm file ctx i phdr st page) := by
  -- filling the frame of the page, once it is known
  have hfill : ∀ {st₁ : ElfState} {kind₁ free₁ f},
      ElfSpaces arch hhdm roots v ctx T st₁.vmm kind₁ free₁ → IsPage hhdm f → f ∉ free₁ →
      kind₁ f = none → Maps arch hhdm v ctx page st.vmm st₁.vmm →
      Loop.Outcome
        (fun st' => (∃ kind' free', ElfSpaces arch hhdm roots v ctx T st'.vmm kind' free') ∧
          Maps arch hhdm v ctx page st.vmm st'.vmm ∧ file.HasOverlap phdr page)
        (fun _ _ => True) (some (elfFillPage hhdm file i phdr st₁ page f)) := by
    intro st₁ kind₁ free₁ f h₁ hf hfree hkind hmaps
    obtain ⟨mem, stored, hmem, ⟨hover, hcall⟩ | ⟨-, hcall⟩⟩ :=
      elfFillPage_outcome hhdm file i phdr st₁ f hpage
    · rw [hcall]
      obtain ⟨hlist, hslots⟩ := h₁.writeFrame hh { st₁.vmm.pmm with mem } hf hfree hkind
        rfl hmem
      obtain ⟨h₂, hsame⟩ := h₁.elsewhere hroots hlist (fun p hp => hp) hslots
      refine Or.inl ⟨_, rfl, ⟨kind₁, free₁, h₂⟩, fun va => ?_, hover⟩
      rw [← hmaps va]
      exact not_congr (by rw [← hsame va]; exact Iff.rfl)
    · rw [hcall]
      exact Or.inr ⟨_, _, rfl, trivial⟩
  have hvirt := h.spaces.vmmVirtToPhys (h.contextRoots hroots) page
    (by rw [h.vmmRoot_eq]; exact h.clear page hT)
  rw [elfLoadPage, elfPageFrame, hvirt]
  cases htrans : ctxTranslate arch hhdm st.vmm ctx page with
  | none =>
    have hzero : (Option.elim none 0 fun e : ℕ × Word =>
      arch.vmmPteGetPhys e.2 ||| (page &&& (pageSize - 1))) = 0 := rfl
    simp only [Option.bind_eq_bind, Option.bind_some, hzero, if_true]
    rcases h.elfNewPage hh hroots hT with
      ⟨e, st', hnew⟩ | ⟨f, st', kind', free', hnew, h', hf, hfree, hkind, hmaps⟩
    · rw [hnew]
      exact Or.inr ⟨e, st', rfl, trivial⟩
    · rw [hnew]
      exact hfill h' hf hfree hkind hmaps
  | some e =>
    obtain ⟨hf, hfree, hkind⟩ := h.frame page hT e htrans
    have hframe : (Option.elim (some e) 0 fun e : ℕ × Word =>
        arch.vmmPteGetPhys e.2 ||| (page &&& (pageSize - 1))) = arch.vmmPteGetPhys e.2 :=
      or_page_offset halign
    simp only [Option.bind_eq_bind, Option.bind_some, hframe, if_neg hf.ne_zero]
    exact hfill h hf hfree hkind (h.maps_of_mapped (by rw [htrans]; simp) fun _ => rfl)

omit h in
include hh hroots in
/-- One round of the page loop of pass 2, on a page that is mapped. -/
theorem protectPage (h : ElfSpaces arch hhdm roots v ctx T st.vmm kind free) (hT : T page)
    (halign : page.toNat % 4096 = 0) (phdr : Elf64Phdr)
    (hmapped : ctxTranslate arch hhdm st.vmm ctx page ≠ none) :
    ∃ st' kind' free', elfProtectPage arch hhdm ctx phdr st page = some (.ok (), st') ∧
      ElfSpaces arch hhdm roots v ctx T st'.vmm kind' free' ∧
      ∀ va, ctxTranslate arch hhdm st'.vmm ctx va ≠ none ↔
        ctxTranslate arch hhdm st.vmm ctx va ≠ none := by
  obtain ⟨e, htrans⟩ := Option.ne_none_iff_exists'.mp hmapped
  obtain ⟨hf, hfree, hkind⟩ := h.frame page hT e htrans
  have hvirt := h.spaces.vmmVirtToPhys (h.contextRoots hroots) page
    (by rw [h.vmmRoot_eq]; exact h.clear page hT)
  have hframe : (Option.elim (some e) 0 fun e : ℕ × Word =>
      arch.vmmPteGetPhys e.2 ||| (page &&& (pageSize - 1))) = arch.vmmPteGetPhys e.2 :=
    or_page_offset halign
  rw [htrans, hframe] at hvirt
  obtain ⟨res, s', kind', free', hmap, h', -, -, hcases⟩ := h.vmmMapPage hh hroots hT
    (Arch.fitsPte_vmmPteGetPhys arch e.2) hf hfree hkind phdr.vmmFlags
  refine ⟨{ st with vmm := { st.vmm with pmm := s' } }, kind', free', ?_, h', fun va => ?_⟩
  · rw [elfProtectPage, hvirt]
    simp only [Option.bind_eq_bind, Option.bind_some, hmap]
    rfl
  · rcases hcases with ⟨-, hmaps⟩ | ⟨-, hsame⟩
    · rw [hmaps va]
      refine ⟨?_, Or.inl⟩
      rintro (hva | hva)
      · exact hva
      · rw [(h.samePage hva).ctxTranslate_eq]
        exact hmapped
    · rw [hsame va]

end ElfSpaces

/-! ## The whole call -/

/-- The addresses of the segment can be represented. -/
def Elf64Phdr.Representable (phdr : Elf64Phdr) : Prop :=
  phdr.pVaddr.toNat + phdr.pMemsz.toNat ≤ 2 ^ 64

/-- Pass 1 gets to the page for some program header. -/
def ElfFile.Target (file : ElfFile) (page : Word) : Prop :=
  ∃ i < file.ehdr.ePhnum.toNat, file.Visits file.ehdr i page

/-- A page of the loops that was not mapped before is one that the loader maps. -/
def ElfFile.LoopsOver (file : ElfFile) (arch : Arch) (v : Vmm) (ctx : VmmContext) (va : Word) : Prop :=
  ∃ i, file.Segment file.ehdr i ∧ ∃ page ∈ (file.phdr file.ehdr i).pages, SamePage arch v ctx page va

variable {file : ElfFile} {entry : Word} {st : ElfState}

/-- The pages of the loops, when all of the program headers were read. -/
theorem ElfFile.loopsOver_iff
    (hread : ∀ i < file.ehdr.ePhnum.toNat, file.SegmentRead file.ehdr i) {va : Word} :
    file.LoopsOver arch v ctx va ↔
      ∃ e ∈ file.pagesUpTo file.ehdr file.ehdr.ePhnum.toNat, SamePage arch v ctx e.2 va := by
  constructor
  · rintro ⟨i, hseg, page, hpage, hsame⟩
    refine ⟨(i, page), ElfFile.mem_pagesUpTo.mpr ⟨hseg.lt, ?_⟩, hsame⟩
    rw [ElfFile.loadPages, if_pos hseg.load]
    exact hpage
  · rintro ⟨⟨i, page⟩, he, hsame⟩
    obtain ⟨hi, hpage⟩ := ElfFile.mem_pagesUpTo.mp he
    rw [ElfFile.loadPages] at hpage
    split at hpage
    · exact ⟨i, ⟨hi, (hread i hi).1, by assumption⟩, page, hpage, hsame⟩
    · cases hpage

theorem ElfFile.toNat_loadPages_lt {ehdr : Elf64Ehdr} {i : ℕ} (h : page ∈ file.loadPages ehdr i) :
    page.toNat + 4096 < 2 ^ 64 := by
  rw [ElfFile.loadPages] at h
  split at h
  · have := (Elf64Phdr.mem_pages h).2.2
    have := (file.phdr ehdr i).vaddrHi.isLt
    omega
  · cases h

section Call

variable (hh : HhdmOk hhdm) (hroots : ContextRoots arch hhdm v ctx roots)
variable (h : ElfSpaces arch hhdm roots v ctx file.Target v kind free)

include hh hroots h

/-- After pass 1 an address is mapped if it was before, or if its page is one of those done. -/
theorem ElfSpaces.pass1 :
    Loop.Outcome
      (fun st' => ((∃ kind' free', ElfSpaces arch hhdm roots v ctx file.Target st'.vmm kind' free') ∧
        ∀ va, ctxTranslate arch hhdm st'.vmm ctx va ≠ none ↔ ctxTranslate arch hhdm v ctx va ≠ none ∨
          ∃ e ∈ file.pagesUpTo file.ehdr file.ehdr.ePhnum.toNat, SamePage arch v ctx e.2 va) ∧
        ∀ i < file.ehdr.ePhnum.toNat, file.SegmentRead file.ehdr i)
      (fun _ _ => True)
      (Loop.forEach (elfLoadSegment arch hhdm file ctx file.ehdr)
        (List.range file.ehdr.ePhnum.toNat) { vmm := v, allocated := [], stored := [] }) := by
  refine elfLoadSegments_outcome
    (I := fun done st => (∃ kind' free',
        ElfSpaces arch hhdm roots v ctx file.Target st.vmm kind' free') ∧
      ∀ va, ctxTranslate arch hhdm st.vmm ctx va ≠ none ↔ ctxTranslate arch hhdm v ctx va ≠ none ∨
        ∃ e ∈ done, SamePage arch v ctx e.2 va)
    (fun {prev i page st} hs hi hafter => ?_) (fun _ _ _ => trivial)
    ⟨⟨kind, free, h⟩, fun va => by simp⟩
  obtain ⟨⟨kind', free', h'⟩, hmapped⟩ := hs
  have hvisit := hafter.visits
  have hmem := hvisit.mem_loadPages
  refine (h'.loadPage hh hroots ⟨i, hi, hvisit⟩ (ElfFile.loadPages_aligned hmem)
    (ElfFile.toNat_loadPages_lt hmem)).mono (fun st' hst' => ?_) fun _ _ _ => trivial
  obtain ⟨h'', hmaps, hover⟩ := hst'
  refine ⟨⟨h'', fun va => ?_⟩, hover⟩
  rw [hmaps va, hmapped va, or_assoc]
  simp only [List.mem_append, List.mem_singleton, or_and_right, exists_or, exists_eq_left]

omit h in
/-- Pass 2 maps no other pages. -/
theorem ElfSpaces.pass2 (hread : ∀ i < file.ehdr.ePhnum.toNat, file.SegmentRead file.ehdr i)
    (h : ElfSpaces arch hhdm roots v ctx file.Target st.vmm kind free)
    (hmapped : ∀ e ∈ file.pagesUpTo file.ehdr file.ehdr.ePhnum.toNat,
      ctxTranslate arch hhdm st.vmm ctx e.2 ≠ none) :
    ∃ st', Loop.forEach (elfProtectSegment arch hhdm file ctx file.ehdr)
        (List.range file.ehdr.ePhnum.toNat) st = some (.ok (), st') ∧
      ∀ va, ctxTranslate arch hhdm st'.vmm ctx va ≠ none ↔
        ctxTranslate arch hhdm st.vmm ctx va ≠ none := by
  suffices hpage : ∀ {i page st'},
      ((∃ kind' free', ElfSpaces arch hhdm roots v ctx file.Target st'.vmm kind' free') ∧
        ∀ va, ctxTranslate arch hhdm st'.vmm ctx va ≠ none ↔
          ctxTranslate arch hhdm st.vmm ctx va ≠ none) →
      i < file.ehdr.ePhnum.toNat → page ∈ file.loadPages file.ehdr i →
      ∃ st'', elfProtectPage arch hhdm ctx (file.phdr file.ehdr i) st' page = some (.ok (), st'') ∧
        (∃ kind' free', ElfSpaces arch hhdm roots v ctx file.Target st''.vmm kind' free') ∧
        ∀ va, ctxTranslate arch hhdm st''.vmm ctx va ≠ none ↔
          ctxTranslate arch hhdm st.vmm ctx va ≠ none by
    obtain ⟨st', hcall, -, hsame⟩ := elfProtectSegments_ok
      (I := fun _ st' =>
        (∃ kind' free', ElfSpaces arch hhdm roots v ctx file.Target st'.vmm kind' free') ∧
        ∀ va, ctxTranslate arch hhdm st'.vmm ctx va ≠ none ↔
          ctxTranslate arch hhdm st.vmm ctx va ≠ none) hpage
      ⟨⟨kind, free, h⟩, fun _ => Iff.rfl⟩
    exact ⟨st', hcall, hsame⟩
  rintro i page st' ⟨⟨kind', free', h'⟩, hsame⟩ hi hmem
  have hT : file.Target page :=
    ⟨i, hi, ElfFile.visits_of_segmentRead (fun j hj => hread j (lt_of_le_of_lt hj hi)) hmem⟩
  obtain ⟨st'', kind'', free'', hcall, h'', hsame'⟩ := h'.protectPage hh hroots hT
    (ElfFile.loadPages_aligned hmem) (file.phdr file.ehdr i)
    ((hsame page).mpr (hmapped (i, page) (ElfFile.mem_pagesUpTo.mpr ⟨hi, hmem⟩)))
  exact ⟨st'', hcall, ⟨kind'', free'', h''⟩, fun va => (hsame' va).trans (hsame va)⟩

/-- After a successful call an address is mapped if it was before, or if its page is one of those that
the loops visit. -/
theorem ElfSpaces.elfLoad_ok
    (hcall : elfLoad arch hhdm ctx (some file) v = some (.ok entry, st)) :
    ∀ va, ctxTranslate arch hhdm st.vmm ctx va ≠ none ↔
      ctxTranslate arch hhdm v ctx va ≠ none ∨ file.LoopsOver arch v ctx va := by
  rw [elfLoad] at hcall
  rcases hcheck : file.checkHeader arch with e | ⟨⟩
  · rw [hcheck] at hcall
    cases hcall
  rw [hcheck] at hcall
  rcases h.pass1 hh hroots with
    ⟨st₁, hpass1, ⟨⟨kind₁, free₁, h₁⟩, hmapped⟩, hread⟩ | ⟨e, st₁, hpass1, -⟩
  · have hpages : ∀ e ∈ file.pagesUpTo file.ehdr file.ehdr.ePhnum.toNat,
        ctxTranslate arch hhdm st₁.vmm ctx e.2 ≠ none := fun e he =>
      (hmapped e.2).mpr (Or.inr ⟨e, he, rfl, rfl⟩)
    obtain ⟨st₂, hpass2, hsame⟩ := h₁.pass2 hh hroots hread hpages
    simp only [elfLoadSegments, hpass1, hpass2, Option.some.injEq, Prod.mk.injEq] at hcall
    rw [← hcall.2]
    intro va
    rw [hsame va, hmapped va, ElfFile.loopsOver_iff hread]
  · simp only [elfLoadSegments, hpass1] at hcall
    cases hcall

end Call

/-- A segment whose range can be rounded up without wrapping is looped over. -/
theorem ElfFile.Segment.loopsOver {i : ℕ} (hseg : file.Segment file.ehdr i)
    (hlt : (file.phdr file.ehdr i).pVaddr.toNat + (file.phdr file.ehdr i).pMemsz.toNat + 4095 <
      2 ^ 64) {va : Word} (hva : (file.phdr file.ehdr i).Covers va.toNat) :
    file.LoopsOver arch v ctx va := by
  have hhas : (file.phdr file.ehdr i).HasPage (pageNumber va) := by
    rw [Elf64Phdr.HasPage, pageNumber]
    rw [Elf64Phdr.Covers] at hva
    omega
  obtain ⟨page, hpage, hnumber⟩ := (Elf64Phdr.exists_page_iff_of_lt hlt).mpr hhas
  exact ⟨i, hseg, page, hpage, vmmRoot_eq_of_pageNumber hnumber.symm, by rw [hnumber]⟩

/-- Every segment is mapped, whole and without wrapping. -/
def ElfFile.SegmentsMapped (file : ElfFile) (arch : Arch) (hhdm : Word) (w : Vmm)
    (ctx : VmmContext) : Prop :=
  ∀ i, file.Segment file.ehdr i → (file.phdr file.ehdr i).Representable ∧
    ∀ va : Word, (file.phdr file.ehdr i).Covers va.toNat → ctxTranslate arch hhdm w ctx va ≠ none

/-- Every segment is empty; or its end can be rounded up to a page without wrapping; or it ends in
the last page of the address space at the latest, and each of its addresses is mapped or lies in a
page that the loops visit for some segment. -/
def ElfFile.SegmentsReached (file : ElfFile) (arch : Arch) (hhdm : Word) (v : Vmm)
    (ctx : VmmContext) : Prop :=
  ∀ i, file.Segment file.ehdr i →
    (file.phdr file.ehdr i).pMemsz = 0 ∨
    (file.phdr file.ehdr i).pVaddr.toNat + (file.phdr file.ehdr i).pMemsz.toNat + 4095 < 2 ^ 64 ∨
    ((file.phdr file.ehdr i).Representable ∧
      ∀ va : Word, (file.phdr file.ehdr i).Covers va.toNat →
        ctxTranslate arch hhdm v ctx va ≠ none ∨ file.LoopsOver arch v ctx va)

/-- A successful call has mapped the segments exactly when the loops reached all of them. -/
theorem elf_load_maps_segments_iff (hh : HhdmOk hhdm)
    (hroots : ContextRoots arch hhdm v ctx roots)
    (hspaces : Spaces arch hhdm kind v.pmm roots free)
    (hclear : ∀ page, file.Target page →
      NoBlock arch hhdm v.pmm (pageNumber page) (vmmLevels - 1) (vmmRoot arch v ctx page))
    (hframes : ∀ page, file.Target page → ∀ e, ctxTranslate arch hhdm v ctx page = some e →
      IsPage hhdm (arch.vmmPteGetPhys e.2) ∧ arch.vmmPteGetPhys e.2 ∉ free ∧
        kind (arch.vmmPteGetPhys e.2) = none)
    (hcall : elfLoad arch hhdm ctx (some file) v = some (.ok entry, st)) :
    file.SegmentsMapped arch hhdm st.vmm ctx ↔ file.SegmentsReached arch hhdm v ctx := by
  have hmapped := ElfSpaces.elfLoad_ok hh hroots ⟨hspaces, rfl, hclear, hframes⟩ hcall
  constructor
  · intro h i hseg
    obtain ⟨hrep, hcovers⟩ := h i hseg
    exact Or.inr (Or.inr ⟨hrep, fun va hva => (hmapped va).mp (hcovers va hva)⟩)
  · intro h i hseg
    have hvaddr := (file.phdr file.ehdr i).pVaddr.isLt
    rcases h i hseg with hempty | hlt | ⟨hrep, hcovers⟩
    · have hsize : (file.phdr file.ehdr i).pMemsz.toNat = 0 := by rw [hempty]; rfl
      rw [Elf64Phdr.Representable, hsize]
      refine ⟨hvaddr.le, fun va hva => ?_⟩
      rw [Elf64Phdr.Covers] at hva
      omega
    · refine ⟨by rw [Elf64Phdr.Representable]; omega, fun va hva => ?_⟩
      exact (hmapped va).mpr (Or.inr (hseg.loopsOver hlt hva))
    · exact ⟨hrep, fun va hva => (hmapped va).mpr (hcovers va hva)⟩

theorem tinyMachine_spaces :
    Spaces .x86_64 exampleHhdm (fun t => if t = 0x1000 then some 3 else none) tinyMachine.pmm
      [0x1000] [0x2000, 0x3000, 0x4000, 0x5000, 0x6000] := by
  refine freePmm_spaces exampleHhdm_ok ?_ (by decide) ?_ ⟨by decide, by decide, by decide⟩
    (by decide)
  · intro p hp
    fin_cases hp <;> exact ⟨by decide, by decide, by decide⟩
  · intro p hp
    fin_cases hp <;> exact ⟨by decide, by decide⟩

/-- The small program is loaded, and its segment is mapped. -/
theorem elf_load_maps_segments_iff_tiny :
    ∃ st, elfLoad .x86_64 exampleHhdm (newContext exampleHhdm 0x1000)
        (some (tinyProgram 0x400000)) tinyMachine = some (.ok 0x400000, st) ∧
      (tinyProgram 0x400000).Segment (tinyProgram 0x400000).ehdr 0 ∧
      (tinyProgram 0x400000).SegmentsMapped .x86_64 exampleHhdm st.vmm
        (newContext exampleHhdm 0x1000) := by
  have hcall : (elfLoad .x86_64 exampleHhdm (newContext exampleHhdm 0x1000)
      (some (tinyProgram 0x400000)) tinyMachine).map (fun r => (r.1.toOption, ())) =
      some (some 0x400000, ()) := by decide +kernel
  obtain ⟨st, hload, -⟩ : ∃ st, elfLoad .x86_64 exampleHhdm (newContext exampleHhdm 0x1000)
      (some (tinyProgram 0x400000)) tinyMachine = some (.ok 0x400000, st) ∧ () = () :=
    Loop.exists_ok_of_map hcall
  have hslot : ∀ j : Fin 512, tinyMachine.pmm.slot exampleHhdm 0x1000 j = 0 := by decide +kernel
  have hroot : ∀ va, vmmRoot .x86_64 tinyMachine (newContext exampleHhdm 0x1000) va = 0x1000 :=
    fun va => ite_self _
  refine ⟨st, hload, ⟨by decide +kernel, by decide +kernel, by decide +kernel⟩,
    (elf_load_maps_segments_iff exampleHhdm_ok ?_ tinyMachine_spaces ?_ ?_ hload).mpr ?_⟩
  · exact ⟨List.mem_singleton_self _, ⟨List.mem_singleton_self _, rfl⟩⟩
  · intro page _
    rw [hroot]
    exact NoBlock.of_empty hslot _ _
  · intro page _ e he
    rw [ctxTranslate, hroot, hwWalk_of_empty hslot] at he
    cases he
  · intro i hseg
    have hone : (tinyProgram 0x400000).ehdr.ePhnum.toNat = 1 := by decide +kernel
    obtain rfl : i = 0 := by
      have := hseg.lt
      omega
    exact Or.inr (Or.inl (by decide +kernel))

/-- A segment of `2 ^ 64 - 1` bytes: the bound of the loops wraps back to their start, nothing is
mapped, and the call succeeds. -/
theorem elf_load_skips_wrapping_segment :
    ∃ st, elfLoad .x86_64 exampleHhdm (newContext exampleHhdm 0x1000)
        (some (elfProgram 0x400000 [⟨ptLoad, 5, 0, 0x400000, 1, 0xffffffffffffffff⟩])) tinyMachine =
        some (.ok 0x400000, st) ∧
      ctxTranslate .x86_64 exampleHhdm st.vmm (newContext exampleHhdm 0x1000) 0x400000 = none := by
  have hcall : (elfLoad .x86_64 exampleHhdm (newContext exampleHhdm 0x1000)
      (some (elfProgram 0x400000 [⟨ptLoad, 5, 0, 0x400000, 1, 0xffffffffffffffff⟩]))
      tinyMachine).map (fun r => (r.1.toOption,
        ctxTranslate .x86_64 exampleHhdm r.2.vmm (newContext exampleHhdm 0x1000) 0x400000)) =
      some (some 0x400000, none) := by decide +kernel
  exact Loop.exists_ok_of_map hcall

end Pros
