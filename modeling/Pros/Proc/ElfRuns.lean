import Pros.Proc.ElfSteps

/-!
# The two passes of the ELF loader

The rules for the loops of `elf_load` over the program headers and their pages. Both take a property
of the pages that are done and the state, which a round on a page has to keep; `ElfInv` comes on top.
The pages that a pass gets to have to lie in the lower half.
-/

namespace Pros

variable {arch : Arch} {hhdm : Word} {roots free free₀ : List Word} {v : Vmm} {ctx : VmmContext}
variable {file : ElfFile} {ehdr : Elf64Ehdr} {st : ElfState}

/-! ## Pages -/

theorem Elf64Phdr.mem_pages {phdr : Elf64Phdr} {page : Word} (h : page ∈ phdr.pages) :
    page.toNat % 4096 = 0 ∧ phdr.vaddrLo.toNat ≤ page.toNat ∧
      page.toNat + 4096 ≤ phdr.vaddrHi.toNat := by
  have hlo : phdr.vaddrLo.toNat = phdr.pVaddr.toNat / 4096 * 4096 := toNat_page_of_addr _
  have hlt := phdr.vaddrHi.isLt
  obtain ⟨i, hi, hpage⟩ := toNat_of_mem_pmmBlock (by omega) h
  omega

/-- The pages of program header `i` that the passes visit. -/
def ElfFile.loadPages (file : ElfFile) (ehdr : Elf64Ehdr) (i : ℕ) : List Word :=
  if (file.phdr ehdr i).pType = ptLoad then (file.phdr ehdr i).pages else []

/-- The pages that the passes visit for the first `k` program headers. -/
def ElfFile.pagesUpTo (file : ElfFile) (ehdr : Elf64Ehdr) (k : ℕ) : List (ℕ × Word) :=
  (List.range k).flatMap fun i => (file.loadPages ehdr i).map (i, ·)

theorem ElfFile.pagesUpTo_succ (k : ℕ) :
    file.pagesUpTo ehdr (k + 1) =
      file.pagesUpTo ehdr k ++ (file.loadPages ehdr k).map (k, ·) := by
  simp [ElfFile.pagesUpTo, List.range_succ]

theorem ElfFile.mem_pagesUpTo {k : ℕ} {e : ℕ × Word} :
    e ∈ file.pagesUpTo ehdr k ↔ e.1 < k ∧ e.2 ∈ file.loadPages ehdr e.1 := by
  obtain ⟨i, p⟩ := e
  simp only [ElfFile.pagesUpTo, List.mem_flatMap, List.mem_range, List.mem_map, Prod.mk.injEq]
  constructor
  · rintro ⟨j, hj, q, hq, rfl, rfl⟩
    exact ⟨hj, hq⟩
  · rintro ⟨hi, hp⟩
    exact ⟨i, hi, p, hp, rfl, rfl⟩

theorem ElfFile.loadPages_aligned {i : ℕ} {page : Word} (h : page ∈ file.loadPages ehdr i) :
    page.toNat % 4096 = 0 := by
  rw [ElfFile.loadPages] at h
  split at h
  · exact (Elf64Phdr.mem_pages h).1
  · cases h

/-- What pass 1 reads for program header `i` is in the file. -/
def ElfFile.SegmentRead (file : ElfFile) (ehdr : Elf64Ehdr) (i : ℕ) : Prop :=
  (file.phdrBytes ehdr i).length = sizeofElf64Phdr ∧
    ∀ page ∈ file.loadPages ehdr i, file.HasOverlap (file.phdr ehdr i) page

/-- Pass 1 gets to a page of program header `i`, unless memory is used up before: all that it reads
before is in the file. -/
def ElfFile.Visits (file : ElfFile) (ehdr : Elf64Ehdr) (i : ℕ) (page : Word) : Prop :=
  (∀ j < i, file.SegmentRead ehdr j) ∧ (file.phdrBytes ehdr i).length = sizeofElf64Phdr ∧
    ∃ done rest, file.loadPages ehdr i = done ++ page :: rest ∧
      ∀ p ∈ done, file.HasOverlap (file.phdr ehdr i) p

/-- Pass 1 gets to a page of program header `i` when the pages `prev` are done. -/
def ElfFile.VisitsAfter (file : ElfFile) (ehdr : Elf64Ehdr) (prev : List (ℕ × Word)) (i : ℕ)
    (page : Word) : Prop :=
  (∀ j < i, file.SegmentRead ehdr j) ∧ (file.phdrBytes ehdr i).length = sizeofElf64Phdr ∧
    ∃ done rest, file.loadPages ehdr i = done ++ page :: rest ∧
      (∀ p ∈ done, file.HasOverlap (file.phdr ehdr i) p) ∧
      prev = file.pagesUpTo ehdr i ++ done.map (i, ·)

theorem ElfFile.VisitsAfter.visits {prev : List (ℕ × Word)} {i : ℕ} {page : Word}
    (h : file.VisitsAfter ehdr prev i page) : file.Visits ehdr i page := by
  obtain ⟨hread, hlen, done, rest, hsplit, hover, -⟩ := h
  exact ⟨hread, hlen, done, rest, hsplit, hover⟩

/-- If everything is in the file, pass 1 gets to all the pages. -/
theorem ElfFile.visits_of_segmentRead {i : ℕ} {page : Word}
    (hread : ∀ j ≤ i, file.SegmentRead ehdr j) (hpage : page ∈ file.loadPages ehdr i) :
    file.Visits ehdr i page := by
  obtain ⟨done, rest, hsplit⟩ := List.append_of_mem hpage
  refine ⟨fun j hj => hread j hj.le, (hread i le_rfl).1, done, rest, hsplit, fun p hp => ?_⟩
  exact (hread i le_rfl).2 p (by simp [hsplit, hp])

/-- The elements before an element of `List.range n`. -/
theorem range_eq_append_cons {n i : ℕ} {done rest : List ℕ}
    (h : List.range n = done ++ i :: rest) : done = List.range i ∧ i < n := by
  have hlen : done.length < n := by
    have := congrArg List.length h
    simp at this
    omega
  have hi : i = done.length := by
    have hget := congrArg (·[done.length]?) h
    simp [hlen] at hget
    exact hget.symm
  have hdone : done = List.range done.length := by
    have htake := congrArg (List.take done.length) h
    rw [List.take_left, List.take_range, Nat.min_eq_left hlen.le] at htake
    exact htake.symm
  exact ⟨hi ▸ hdone, hi ▸ hlen⟩

/-! ## The loops -/

section Loops

variable {I : List (ℕ × Word) → ElfState → Prop} {E : ElfError → ElfState → Prop} {n : ℕ}

section First

variable (hpage : ∀ {prev i page st}, I prev st → i < n → file.VisitsAfter ehdr prev i page →
  Loop.Outcome
    (fun st' => I (prev ++ [(i, page)]) st' ∧ file.HasOverlap (file.phdr ehdr i) page) E
    (elfLoadPage arch hhdm file ctx i (file.phdr ehdr i) st page))
variable (hphdr : ∀ {i st}, I (file.pagesUpTo ehdr i) st → i < n →
  (file.phdrBytes ehdr i).length ≠ sizeofElf64Phdr → E (.shortPhdr i) st)

include hpage hphdr

theorem elfLoadSegment_outcome {i : ℕ} (h : I (file.pagesUpTo ehdr i) st) (hi : i < n)
    (hread : ∀ j < i, file.SegmentRead ehdr j) :
    Loop.Outcome
      (fun st' => I (file.pagesUpTo ehdr (i + 1)) st' ∧ file.SegmentRead ehdr i)
      E (elfLoadSegment arch hhdm file ctx ehdr st i) := by
  rw [elfLoadSegment, ElfFile.pagesUpTo_succ]
  by_cases hshort : (file.phdrBytes ehdr i).length ≠ sizeofElf64Phdr
  · rw [if_pos hshort]
    exact Or.inr ⟨_, st, rfl, hphdr h hi hshort⟩
  rw [if_neg hshort]
  have hlen := not_not.mp hshort
  by_cases hload : (file.phdr ehdr i).pType ≠ ptLoad
  · have hnil : file.loadPages ehdr i = [] := if_neg hload
    rw [if_pos hload, hnil]
    exact Or.inl ⟨st, rfl, by simpa using h, hlen, by simp [hnil]⟩
  have hpages : file.loadPages ehdr i = (file.phdr ehdr i).pages := if_pos (not_not.mp hload)
  rw [if_neg hload, Elf64Phdr.forPages_eq, ← hpages]
  refine (Loop.forEach_outcome
    (fun done st' => I (file.pagesUpTo ehdr i ++ done.map (i, ·)) st' ∧
      ∀ page ∈ done, file.HasOverlap (file.phdr ehdr i) page)
    (file.loadPages ehdr i) (fun done page rest s hsplit hs => ?_) ⟨by simpa using h, by simp⟩).mono
    (fun st' hst' => ⟨hst'.1, hlen, hst'.2⟩) fun _ _ herr => herr
  obtain ⟨hinv, hover⟩ := hs
  refine (hpage hinv hi ⟨hread, hlen, done, rest, hsplit, hover, rfl⟩).mono (fun st' hst' => ?_)
    fun _ _ herr => herr
  obtain ⟨hinv', hover'⟩ := hst'
  rw [List.append_assoc] at hinv'
  rw [List.map_append, List.map_singleton]
  refine ⟨hinv', fun page' hpage' => ?_⟩
  rcases List.mem_append.mp hpage' with hpage' | hpage'
  · exact hover page' hpage'
  · rw [List.mem_singleton.mp hpage']
    exact hover'

/-- The rule for the loop of pass 1. The invariant speaks about the pages that are done. -/
theorem elfLoadSegments_outcome (h : I [] st) :
    Loop.Outcome
      (fun st' => I (file.pagesUpTo ehdr n) st' ∧ ∀ i < n, file.SegmentRead ehdr i) E
      (Loop.forEach (elfLoadSegment arch hhdm file ctx ehdr) (List.range n) st) := by
  refine (Loop.forEach_outcome
    (fun done st' => I (file.pagesUpTo ehdr done.length) st' ∧
      ∀ i < done.length, file.SegmentRead ehdr i)
    (List.range n) (fun done i rest s hsplit hs => ?_) ⟨h, by simp⟩).mono
    (fun st' hst' => by simpa using hst') fun _ _ herr => herr
  obtain ⟨hinv, hread⟩ := hs
  obtain ⟨rfl, hi⟩ := range_eq_append_cons hsplit
  rw [List.length_range] at hinv hread
  refine (elfLoadSegment_outcome (I := I) hpage hphdr hinv hi hread).mono (fun st' hst' => ?_)
    fun _ _ herr => herr
  obtain ⟨hinv', hread'⟩ := hst'
  rw [List.length_append, List.length_range, List.length_singleton]
  refine ⟨hinv', fun j hj => ?_⟩
  rcases Nat.lt_succ_iff_lt_or_eq.mp hj with hj | rfl
  · exact hread j hj
  · exact hread'

end First

section Second

variable (hpage : ∀ {prev i page st}, I prev st → i < n → page ∈ file.loadPages ehdr i →
  ∃ st', elfProtectPage arch hhdm ctx (file.phdr ehdr i) st page = some (.ok (), st') ∧
    I (prev ++ [(i, page)]) st')

include hpage

theorem elfProtectSegment_outcome {prev : List (ℕ × Word)} {i : ℕ} (h : I prev st) (hi : i < n) :
    Loop.Outcome (fun st' => I (prev ++ (file.loadPages ehdr i).map (i, ·)) st')
      (fun _ _ => False) (elfProtectSegment arch hhdm file ctx ehdr st i) := by
  rw [elfProtectSegment]
  by_cases hload : (file.phdr ehdr i).pType ≠ ptLoad
  · have hnil : file.loadPages ehdr i = [] := if_neg hload
    rw [if_pos hload, hnil]
    exact Or.inl ⟨st, rfl, by simpa using h⟩
  have hpages : file.loadPages ehdr i = (file.phdr ehdr i).pages := if_pos (not_not.mp hload)
  rw [if_neg hload, Elf64Phdr.forPages_eq, ← hpages]
  refine Loop.forEach_outcome (fun done st' => I (prev ++ done.map (i, ·)) st')
    (file.loadPages ehdr i) (fun done page rest s hsplit hs => ?_) (by simpa using h)
  obtain ⟨st', hcall, hinv⟩ := hpage hs hi (show page ∈ file.loadPages ehdr i by simp [hsplit])
  rw [List.append_assoc] at hinv
  rw [List.map_append, List.map_singleton]
  exact Or.inl ⟨st', hcall, hinv⟩

/-- The rule for the loop of pass 2. -/
theorem elfProtectSegments_ok (h : I [] st) :
    ∃ st', Loop.forEach (elfProtectSegment arch hhdm file ctx ehdr) (List.range n) st =
      some (.ok (), st') ∧ I (file.pagesUpTo ehdr n) st' := by
  have hout : Loop.Outcome (fun st' => I (file.pagesUpTo ehdr (List.range n).length) st')
      (fun _ _ => False)
      (Loop.forEach (elfProtectSegment arch hhdm file ctx ehdr) (List.range n) st) := by
    refine Loop.forEach_outcome (fun done st' => I (file.pagesUpTo ehdr done.length) st')
      (List.range n) (fun done i rest s hsplit hs => ?_) h
    obtain ⟨rfl, hi⟩ := range_eq_append_cons hsplit
    rw [List.length_range] at hs
    refine (elfProtectSegment_outcome (I := I) hpage hs hi).mono (fun st' hst' => ?_)
      fun _ _ hfalse => hfalse
    rwa [List.length_append, List.length_range, List.length_singleton, ElfFile.pagesUpTo_succ]
  rcases hout with ⟨st', hcall, hinv⟩ | ⟨_, _, -, hfalse⟩
  · rw [List.length_range] at hinv
    exact ⟨st', hcall, hinv⟩
  · exact hfalse.elim

end Second

end Loops

theorem ElfFile.Visits.mem_loadPages {i : ℕ} {page : Word} (h : file.Visits ehdr i page) :
    page ∈ file.loadPages ehdr i := by
  obtain ⟨-, -, done, rest, hsplit, -⟩ := h
  simp [hsplit]

/-! ## Pass 1 -/

section Passes

variable (hh : HhdmOk hhdm) (hctx : ContextIn hhdm roots ctx)
variable {K : List (ℕ × Word) → ElfState → Prop} {n : ℕ}

include hh hctx

/-- The rule for pass 1 with the invariant on top. -/
theorem ElfInv.pass1
    (hK : ∀ {prev i page st st' free f fl}, ElfInv arch hhdm roots v ctx free₀ st free →
      K prev st → i < n → file.Visits ehdr i page → page < vmmAddrSplit →
      PageLoaded arch hhdm v ctx file (file.phdr ehdr i) page st st' f fl →
      K (prev ++ [(i, page)]) st')
    (h : ElfInv arch hhdm roots v ctx free₀ st free) (hstart : K [] st)
    (hbelow : ∀ i < n, ∀ page, file.Visits ehdr i page → page < vmmAddrSplit) :
    Loop.Outcome
      (fun st' => (∃ free', ElfInv arch hhdm roots v ctx free₀ st' free') ∧
        K (file.pagesUpTo ehdr n) st' ∧ ∀ i < n, file.SegmentRead ehdr i)
      (fun e st' => ∃ free', ElfInv arch hhdm roots v ctx free₀ st' free' ∧
        ((free' = [] ∧ e.OutOfPages) ∨ ∃ i < n, ¬ file.SegmentRead ehdr i))
      (Loop.forEach (elfLoadSegment arch hhdm file ctx ehdr) (List.range n) st) := by
  refine (elfLoadSegments_outcome
    (I := fun prev st => (∃ free, ElfInv arch hhdm roots v ctx free₀ st free) ∧ K prev st)
    (fun {prev i page st} hs hi hafter => ?_) (fun {i st} hs hi hshort => ?_)
    ⟨⟨free, h⟩, hstart⟩).mono
    (fun st' hst' => ⟨hst'.1.1, hst'.1.2, hst'.2⟩) fun _ _ herr => herr
  · obtain ⟨⟨free', hinv⟩, hK'⟩ := hs
    have hvisit := hafter.visits
    have hlt := hbelow i hi page hvisit
    have hmem := hvisit.mem_loadPages
    rcases hinv.loadPage hh hctx hlt (ElfFile.loadPages_aligned hmem) file i (file.phdr ehdr i) with
      ⟨e, st', free'', hcall, hinv', herr⟩ | ⟨st', free'', f, fl, hcall, hinv', hdone⟩
    · refine Or.inr ⟨e, st', hcall, free'', hinv', herr.imp_right fun hno => ⟨i, hi, fun hread => ?_⟩⟩
      exact hno (hread.2 page hmem)
    · exact Or.inl ⟨st', hcall, ⟨⟨free'', hinv'⟩, hK hinv hK' hi hvisit hlt hdone⟩, hdone.overlap⟩
  · obtain ⟨⟨free', hinv⟩, -⟩ := hs
    exact ⟨free', hinv, Or.inr ⟨i, hi, fun hread => hshort hread.1⟩⟩

/-! ## Pass 2 -/

/-- A round of pass 2 on a page: its flags are set and no frame changes. -/
structure PageProtected (arch : Arch) (hhdm : Word) (v : Vmm) (ctx : VmmContext) (phdr : Elf64Phdr)
    (page : Word) (st st' : ElfState) (f fl : Word) : Prop where
  found : vmmLookup arch hhdm st.vmm.pmm ctx.rootPhys (pageNumber page) = some (f, fl)
  lookup : ∀ n < 2 ^ 35, vmmLookup arch hhdm st'.vmm.pmm ctx.rootPhys n =
    if n = pageNumber page then some (f, (phdr.vmmFlags ||| vmmPresent) &&& 31)
    else vmmLookup arch hhdm st.vmm.pmm ctx.rootPhys n
  others : ∀ g, OwnFrame arch hhdm v ctx st g →
    ByteMem.AgreeOn st.vmm.pmm.mem st'.vmm.pmm.mem (pmmPhysToVirt hhdm g) 4096

/-- The pages are mapped. -/
def PagesMapped (arch : Arch) (hhdm : Word) (ctx : VmmContext) (pages : List (ℕ × Word))
    (st : ElfState) : Prop :=
  ∀ e ∈ pages, vmmLookup arch hhdm st.vmm.pmm ctx.rootPhys (pageNumber e.2) ≠ none

/-- The rule for pass 2 with the invariant on top. -/
theorem ElfInv.pass2
    (hK : ∀ {prev i page st st' free f fl}, ElfInv arch hhdm roots v ctx free₀ st free →
      K prev st → page ∈ file.loadPages ehdr i → page < vmmAddrSplit →
      PageProtected arch hhdm v ctx (file.phdr ehdr i) page st st' f fl →
      K (prev ++ [(i, page)]) st')
    (h : ElfInv arch hhdm roots v ctx free₀ st free) (hstart : K [] st)
    (hmapped : PagesMapped arch hhdm ctx (file.pagesUpTo ehdr n) st)
    (hbelow : ∀ e ∈ file.pagesUpTo ehdr n, e.2 < vmmAddrSplit) :
    ∃ st', Loop.forEach (elfProtectSegment arch hhdm file ctx ehdr) (List.range n) st =
        some (.ok (), st') ∧
      (∃ free', ElfInv arch hhdm roots v ctx free₀ st' free') ∧ K (file.pagesUpTo ehdr n) st' := by
  suffices hpage : ∀ {prev i page st}, ((∃ free, ElfInv arch hhdm roots v ctx free₀ st free) ∧
      K prev st ∧ PagesMapped arch hhdm ctx (file.pagesUpTo ehdr n) st) → i < n →
      page ∈ file.loadPages ehdr i →
      ∃ st', elfProtectPage arch hhdm ctx (file.phdr ehdr i) st page = some (.ok (), st') ∧
        (∃ free, ElfInv arch hhdm roots v ctx free₀ st' free) ∧ K (prev ++ [(i, page)]) st' ∧
        PagesMapped arch hhdm ctx (file.pagesUpTo ehdr n) st' by
    obtain ⟨st', hcall, hinv, hK', -⟩ := elfProtectSegments_ok
      (I := fun prev st => (∃ free, ElfInv arch hhdm roots v ctx free₀ st free) ∧ K prev st ∧
        PagesMapped arch hhdm ctx (file.pagesUpTo ehdr n) st) hpage ⟨⟨free, h⟩, hstart, hmapped⟩
    exact ⟨st', hcall, hinv, hK'⟩
  · rintro prev i page st ⟨⟨free', hinv⟩, hK', hmapped'⟩ hi hmem
    have hall : (i, page) ∈ file.pagesUpTo ehdr n := ElfFile.mem_pagesUpTo.mpr ⟨hi, hmem⟩
    have hlt := hbelow _ hall
    obtain ⟨⟨f, fl⟩, hlook⟩ := Option.ne_none_iff_exists'.mp (hmapped' _ hall)
    obtain ⟨st', free'', hcall, hinv', hlookup, hothers⟩ := hinv.protectPage hh hctx hlt
      (ElfFile.loadPages_aligned hmem) (file.phdr ehdr i) hlook
    refine ⟨st', hcall, ⟨free'', hinv'⟩, hK hinv hK' hmem hlt ⟨hlook, hlookup, hothers⟩,
      fun e he => ?_⟩
    rw [hlookup _ (pageNumber_lt (hbelow e he))]
    split
    · simp
    · exact hmapped' e he

end Passes

end Pros
