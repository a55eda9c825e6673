import Pros.Proc.ElfImage

/-!
# Pages that segments share

Segments of a file may share pages, and pass 1 of `elf_load` reads each of them into the same frame.
Pass 2 sets the permissions of the pages header by header, so a shared page ends up with those of the
last header that has it. The page has the permissions of all the segments that it holds bytes of only
if this last header does.
-/

namespace Pros

variable {arch : Arch} {hhdm : Word} {roots free free₀ : List Word} {v : Vmm} {ctx : VmmContext}
variable {file : ElfFile} {ehdr : Elf64Ehdr} {st : ElfState} {entry : Word}

/-! ## The last header of a page -/

/-- The header that was last to do page number `n`. -/
def lastDone (n : ℕ) (done : List (ℕ × Word)) : Option ℕ :=
  done.foldl (fun last e => if pageNumber e.2 = n then some e.1 else last) none

theorem lastDone_concat (n : ℕ) (done : List (ℕ × Word)) (e : ℕ × Word) :
    lastDone n (done ++ [e]) = if pageNumber e.2 = n then some e.1 else lastDone n done := by
  rw [lastDone, List.foldl_append]
  rfl

theorem lastDone_append_map (n i : ℕ) (done : List (ℕ × Word)) (pages : List Word) :
    lastDone n (done ++ pages.map (i, ·)) =
      if ∃ page ∈ pages, pageNumber page = n then some i else lastDone n done := by
  induction pages using List.reverseRecOn with
  | nil => simp
  | append_singleton pages page ih =>
    rw [List.map_append, List.map_singleton, ← List.append_assoc, lastDone_concat, ih]
    by_cases hpage : pageNumber page = n
    · rw [if_pos hpage, if_pos ⟨page, by simp, hpage⟩]
    · rw [if_neg hpage]
      refine if_congr ?_ rfl rfl
      simp [or_and_right, exists_or, hpage]

/-- The passes visit the headers in order, so the last one wins. -/
theorem ElfFile.lastDone_pagesUpTo {k i n : ℕ} (hi : i < k)
    (hpage : ∃ page ∈ file.loadPages ehdr i, pageNumber page = n)
    (hlast : ∀ j, i < j → j < k → ¬ ∃ page ∈ file.loadPages ehdr j, pageNumber page = n) :
    lastDone n (file.pagesUpTo ehdr k) = some i := by
  induction k with
  | zero => exact absurd hi (Nat.not_lt_zero i)
  | succ k ih =>
    rw [ElfFile.pagesUpTo_succ, lastDone_append_map]
    rcases Nat.lt_succ_iff_lt_or_eq.mp hi with hlt | rfl
    · rw [if_neg (hlast k hlt (Nat.lt_succ_self k))]
      exact ih hlt fun j hij hjk => hlast j hij (Nat.lt_succ_of_lt hjk)
    · rw [if_pos hpage]

/-- Header `i` is the last one whose rounded range has page number `n`. -/
structure ElfFile.LastHeader (file : ElfFile) (ehdr : Elf64Ehdr) (i n : ℕ) : Prop where
  segment : file.Segment ehdr i
  hasPage : (file.phdr ehdr i).HasPage n
  last : ∀ j, file.Segment ehdr j → (file.phdr ehdr j).HasPage n → j ≤ i

/-! ## Both passes -/

/-- After the pages `done` of pass 2, a page has the flags of the header that did it last. -/
def LastFlags (arch : Arch) (hhdm : Word) (ctx : VmmContext) (file : ElfFile) (ehdr : Elf64Ehdr)
    (done : List (ℕ × Word)) (st : ElfState) : Prop :=
  ∀ n < 2 ^ 35, ∀ i, lastDone n done = some i → ∃ f,
    vmmLookup arch hhdm st.vmm.pmm ctx.rootPhys n =
      some (f, ((file.phdr ehdr i).vmmFlags ||| vmmPresent) &&& 31)

theorem LastFlags.protectPage {prev : List (ℕ × Word)} {i : ℕ} {page f fl : Word} {st' : ElfState}
    (h : LastFlags arch hhdm ctx file ehdr prev st)
    (hdone : PageProtected arch hhdm v ctx (file.phdr ehdr i) page st st' f fl) :
    LastFlags arch hhdm ctx file ehdr (prev ++ [(i, page)]) st' := by
  intro n hn j hj
  rw [lastDone_concat] at hj
  rw [hdone.lookup n hn]
  by_cases hpage : pageNumber page = n
  · cases (if_pos hpage).symm.trans hj
    exact ⟨f, if_pos hpage.symm⟩
  · rw [if_neg hpage] at hj
    rw [if_neg (Ne.symm hpage)]
    exact h n hn j hj

/-- The last header of a page is the last one to do it. -/
theorem ElfFile.LastHeader.lastDone_eq {i n : ℕ} (h : file.LastHeader ehdr i n)
    (hload : file.Loadable ehdr) (hread : ∀ i < ehdr.ePhnum.toNat, file.SegmentRead ehdr i) :
    lastDone n (file.pagesUpTo ehdr ehdr.ePhnum.toNat) = some i := by
  have hpages : ∀ j < ehdr.ePhnum.toNat, (∃ page ∈ file.loadPages ehdr j, pageNumber page = n) ↔
      file.Segment ehdr j ∧ (file.phdr ehdr j).HasPage n := by
    intro j hj
    rw [← hload.exists_page_iff hread]
    simp only [ElfFile.mem_pagesUpTo, hj, true_and]
  refine ElfFile.lastDone_pagesUpTo h.segment.lt ((hpages i h.segment.lt).mpr ⟨h.segment, h.hasPage⟩)
    fun j hij hj hpage => ?_
  obtain ⟨hseg, hhas⟩ := (hpages j hj).mp hpage
  exact Nat.not_le_of_lt hij (h.last j hseg hhas)

/-- After a successful call every page has the permissions of its last header. -/
theorem elf_load_last_header (hh : HhdmOk hhdm) (htables : Tables arch hhdm 3 v.pmm roots free)
    (hctx : ContextIn hhdm roots ctx)
    (hframes : ∀ f, LowerFrame arch hhdm v.pmm ctx.rootPhys f →
      IsPage hhdm f ∧ f ∉ free ∧ ¬ Node arch hhdm 3 v.pmm roots f)
    (hload : file.Loadable file.ehdr)
    (hcall : elfLoad arch hhdm ctx (some file) v = some (.ok entry, st)) {i n : ℕ}
    (hlast : file.LastHeader file.ehdr i n) :
    ∃ f, vmmLookup arch hhdm st.vmm.pmm ctx.rootPhys n =
      some (f, ((file.phdr file.ehdr i).vmmFlags ||| vmmPresent) &&& 31) := by
  rw [elfLoad] at hcall
  rcases hcheck : file.checkHeader arch with e | ⟨⟩
  · rw [hcheck] at hcall
    cases hcall
  rw [hcheck] at hcall
  rcases (ElfInv.start htables hframes).loadSegments_rule hh hctx
      (K := LastFlags arch hhdm ctx file file.ehdr) (fun hprev hdone => hprev.protectPage hdone)
      (fun _ _ _ _ hnone => by cases hnone) (fun i hi page hvisit => hload.visits_lt hi hvisit) with
    ⟨st₂, hpasses, -, hflags, hread⟩ | ⟨e, st₂, hpasses, -⟩
  · simp only [hpasses, Option.some.injEq, Prod.mk.injEq] at hcall
    rw [← hcall.2]
    exact hflags n (hload.hasPage_lt hlast.segment hlast.hasPage) i (hlast.lastDone_eq hload hread)
  · simp only [hpasses] at hcall
    cases hcall

/-! ## The permissions of shared pages -/

/-- A byte of the segment lies in page number `n`. -/
def Elf64Phdr.CoversPage (phdr : Elf64Phdr) (n : ℕ) : Prop :=
  ∃ a, phdr.Covers a ∧ a / 4096 = n

theorem Elf64Phdr.CoversPage.hasPage {phdr : Elf64Phdr} {n : ℕ} (h : phdr.CoversPage n) :
    phdr.HasPage n := by
  obtain ⟨a, ⟨hlo, hhi⟩, rfl⟩ := h
  rw [Elf64Phdr.HasPage]
  omega

/-- Being writable and being executable are what the segments with bytes in the page ask for. -/
def ElfFile.PagePermissions (file : ElfFile) (ehdr : Elf64Ehdr) (n : ℕ)
    (writable executable : Prop) : Prop :=
  (writable ↔ ∃ i, file.Segment ehdr i ∧ (file.phdr ehdr i).CoversPage n ∧
    (file.phdr ehdr i).pFlags &&& pfW ≠ 0) ∧
  (executable ↔ ∃ i, file.Segment ehdr i ∧ (file.phdr ehdr i).CoversPage n ∧
    (file.phdr ehdr i).pFlags &&& pfX ≠ 0)

theorem ElfFile.Segment.exists_lastHeader {i n : ℕ} (hseg : file.Segment ehdr i)
    (hpage : (file.phdr ehdr i).HasPage n) : ∃ j, file.LastHeader ehdr j n := by
  classical
  let P : ℕ → Prop := fun j => file.Segment ehdr j ∧ (file.phdr ehdr j).HasPage n
  obtain ⟨hseg', hpage'⟩ : P (Nat.findGreatest P ehdr.ePhnum.toNat) :=
    Nat.findGreatest_spec hseg.lt.le ⟨hseg, hpage⟩
  exact ⟨_, hseg', hpage', fun k hk hkpage => Nat.le_findGreatest hk.lt.le ⟨hk, hkpage⟩⟩

/-- After a successful call every page with bytes of a segment has the permissions of all the
segments with bytes in it, exactly when the last header of each such page has these permissions. -/
theorem elf_load_shared_pages_iff (hh : HhdmOk hhdm)
    (htables : Tables arch hhdm 3 v.pmm roots free) (hctx : ContextIn hhdm roots ctx)
    (hframes : ∀ f, LowerFrame arch hhdm v.pmm ctx.rootPhys f →
      IsPage hhdm f ∧ f ∉ free ∧ ¬ Node arch hhdm 3 v.pmm roots f)
    (hload : file.Loadable file.ehdr)
    (hcall : elfLoad arch hhdm ctx (some file) v = some (.ok entry, st)) :
    (∀ i n, file.Segment file.ehdr i → (file.phdr file.ehdr i).CoversPage n → ∃ f fl,
      vmmLookup arch hhdm st.vmm.pmm ctx.rootPhys n = some (f, fl) ∧
      file.PagePermissions file.ehdr n (fl &&& vmmWritable ≠ 0) (fl &&& vmmNoExecute = 0)) ↔
    ∀ i n, file.Segment file.ehdr i → (file.phdr file.ehdr i).CoversPage n →
      ∀ k, file.LastHeader file.ehdr k n →
        file.PagePermissions file.ehdr n ((file.phdr file.ehdr k).pFlags &&& pfW ≠ 0)
          ((file.phdr file.ehdr k).pFlags &&& pfX ≠ 0) := by
  have hlookup := fun {k n} (hlast : file.LastHeader file.ehdr k n) =>
    elf_load_last_header hh htables hctx hframes hload hcall hlast
  -- the flags of a page stand for the permissions of its last header
  have hflags : ∀ k fl, fl = ((file.phdr file.ehdr k).vmmFlags ||| vmmPresent) &&& 31 →
      (fl &&& vmmWritable ≠ 0 ↔ (file.phdr file.ehdr k).pFlags &&& pfW ≠ 0) ∧
      (fl &&& vmmNoExecute = 0 ↔ (file.phdr file.ehdr k).pFlags &&& pfX ≠ 0) := by
    intro k fl hfl
    obtain ⟨-, hwrite, hexec⟩ := (file.phdr file.ehdr k).vmmFlags_spec hfl
    exact ⟨hwrite, not_iff_not.mp (hexec.trans not_not.symm)⟩
  constructor
  · intro h i n hseg hcover k hlast
    obtain ⟨f, fl, hlook, hperm⟩ := h i n hseg hcover
    obtain ⟨f', hlook'⟩ := hlookup hlast
    obtain ⟨-, hfl⟩ := Prod.mk.inj (Option.some.inj (hlook.symm.trans hlook'))
    obtain ⟨hwrite, hexec⟩ := hflags k fl hfl
    exact ⟨hwrite.symm.trans hperm.1, hexec.symm.trans hperm.2⟩
  · intro h i n hseg hcover
    obtain ⟨k, hlast⟩ := hseg.exists_lastHeader hcover.hasPage
    obtain ⟨f, hlook⟩ := hlookup hlast
    obtain ⟨hwrite, hexec⟩ := hflags k _ rfl
    obtain ⟨hwritable, hexecutable⟩ := h i n hseg hcover k hlast
    exact ⟨f, _, hlook, hwrite.trans hwritable, hexec.trans hexecutable⟩

/-- A program with two segments in one page, with the given permissions. -/
def sharedProgram (first second : BitVec 32) : ElfFile :=
  elfProgram 0x400800
    [⟨ptLoad, first, 0, 0x400000, 1, 1⟩, ⟨ptLoad, second, 0, 0x400800, 1, 1⟩]

/-- What is asked of a file with two segments, the first of which ends before the other. -/
theorem ElfFile.Loadable.of_two (htwo : file.ehdr.ePhnum.toNat = 2)
    (hsegment : ∀ i < 2, (file.phdr file.ehdr i).pFilesz ≤ (file.phdr file.ehdr i).pMemsz ∧
      (file.phdr file.ehdr i).pVaddr.toNat + (file.phdr file.ehdr i).pMemsz.toNat + 4095 <
        vmmAddrSplit.toNat)
    (hapart : (file.phdr file.ehdr 0).pVaddr.toNat + (file.phdr file.ehdr 0).pMemsz.toNat ≤
      (file.phdr file.ehdr 1).pVaddr.toNat) : file.Loadable file.ehdr := by
  have hlt : ∀ {i}, file.Segment file.ehdr i → i < 2 := fun hseg => htwo ▸ hseg.lt
  refine ⟨fun i hi => (hsegment i (hlt hi)).1, fun i hi => (hsegment i (hlt hi)).2,
    fun i j hi hj hne a hai haj => ?_⟩
  have hi' := hlt hi
  have hj' := hlt hj
  rw [Elf64Phdr.Covers] at hai haj
  obtain rfl | rfl : i = 0 ∨ i = 1 := by omega
  · obtain rfl : j = 1 := by omega
    omega
  · obtain rfl : j = 0 := by omega
    omega

/-- Two executable segments share a page, and it can be executed and not be written. -/
theorem elf_load_shared_pages_iff_agree :
    (∀ i < 2, (sharedProgram pfX pfX).Segment (sharedProgram pfX pfX).ehdr i ∧
      ((sharedProgram pfX pfX).phdr (sharedProgram pfX pfX).ehdr i).CoversPage 0x400) ∧
    ∃ st, elfLoad .x86_64 exampleHhdm (newContext exampleHhdm 0x1000)
        (some (sharedProgram pfX pfX)) tinyMachine = some (.ok 0x400800, st) ∧
      ∃ f fl, vmmLookup .x86_64 exampleHhdm st.vmm.pmm 0x1000 0x400 = some (f, fl) ∧
        (sharedProgram pfX pfX).PagePermissions (sharedProgram pfX pfX).ehdr 0x400
          (fl &&& vmmWritable ≠ 0) (fl &&& vmmNoExecute = 0) := by
  have hcall : (elfLoad .x86_64 exampleHhdm (newContext exampleHhdm 0x1000)
      (some (sharedProgram pfX pfX)) tinyMachine).map (fun r => (r.1.toOption, ())) =
      some (some 0x400800, ()) := by decide +kernel
  obtain ⟨st, hload, -⟩ : ∃ st, elfLoad .x86_64 exampleHhdm (newContext exampleHhdm 0x1000)
      (some (sharedProgram pfX pfX)) tinyMachine = some (.ok 0x400800, st) ∧ () = () :=
    Loop.exists_ok_of_map hcall
  have hloadable : (sharedProgram pfX pfX).Loadable (sharedProgram pfX pfX).ehdr :=
    .of_two (by decide +kernel) (by decide +kernel) (by decide +kernel)
  have hflags : ∀ i < 2, ((sharedProgram pfX pfX).phdr (sharedProgram pfX pfX).ehdr i).pFlags =
      pfX := by decide +kernel
  have hsegment : ∀ i < 2, (sharedProgram pfX pfX).Segment (sharedProgram pfX pfX).ehdr i := by
    have heval : ∀ i < 2, i < (sharedProgram pfX pfX).ehdr.ePhnum.toNat ∧
        ((sharedProgram pfX pfX).phdrBytes (sharedProgram pfX pfX).ehdr i).length =
          sizeofElf64Phdr ∧
        ((sharedProgram pfX pfX).phdr (sharedProgram pfX pfX).ehdr i).pType = ptLoad := by
      decide +kernel
    exact fun i hi => ⟨(heval i hi).1, (heval i hi).2.1, (heval i hi).2.2⟩
  have hlt : ∀ {i}, (sharedProgram pfX pfX).Segment (sharedProgram pfX pfX).ehdr i → i < 2 :=
    fun hseg => lt_of_lt_of_eq hseg.lt (by decide +kernel)
  have hcovers : ∀ i < 2,
      ((sharedProgram pfX pfX).phdr (sharedProgram pfX pfX).ehdr i).CoversPage 0x400 := by
    have heval : ∀ i < 2, ((sharedProgram pfX pfX).phdr (sharedProgram pfX pfX).ehdr i).pVaddr.toNat
          / 4096 = 0x400 ∧
        0 < ((sharedProgram pfX pfX).phdr (sharedProgram pfX pfX).ehdr i).pMemsz.toNat := by
      decide +kernel
    exact fun i hi => ⟨_, ⟨le_rfl, Nat.lt_add_of_pos_right (heval i hi).2⟩, (heval i hi).1⟩
  refine ⟨fun i hi => ⟨hsegment i hi, hcovers i hi⟩, st, hload,
    (elf_load_shared_pages_iff exampleHhdm_ok tinyMachine_tables tinyMachine_context ?_ hloadable
      hload).mpr ?_ 0 0x400 (hsegment 0 (by decide)) (hcovers 0 (by decide))⟩
  · rintro f ⟨n, hn, fl, hlook⟩
    cases (tinyMachine_root.lookup hn).symm.trans hlook
  · -- all segments ask for the same, so the last header asks for what all of them do
    intro i n hi hcover k hlast
    rw [hflags k (hlt hlast.segment)]
    refine ⟨⟨fun h => absurd rfl h, ?_⟩, ⟨fun _ => ⟨i, hi, hcover, ?_⟩, fun _ => by decide⟩⟩
    · rintro ⟨j, hj, -, h⟩
      rwa [hflags j (hlt hj)] at h
    · rw [hflags i (hlt hi)]
      decide

/-- The executable segment comes last, so the page cannot be written, though the segments are
disjoint and the first one is writable. -/
theorem elf_load_shared_page_loses_write :
    (sharedProgram pfW pfX).Loadable (sharedProgram pfW pfX).ehdr ∧
    (sharedProgram pfW pfX).Segment (sharedProgram pfW pfX).ehdr 0 ∧
    ((sharedProgram pfW pfX).phdr (sharedProgram pfW pfX).ehdr 0).CoversPage 0x400 ∧
    ((sharedProgram pfW pfX).phdr (sharedProgram pfW pfX).ehdr 0).pFlags &&& pfW ≠ 0 ∧
    ∃ st, elfLoad .x86_64 exampleHhdm (newContext exampleHhdm 0x1000)
        (some (sharedProgram pfW pfX)) tinyMachine = some (.ok 0x400800, st) ∧
      (vmmLookup .x86_64 exampleHhdm st.vmm.pmm 0x1000 0x400).map (·.2 &&& vmmWritable) =
        some 0 := by
  have hcall : (elfLoad .x86_64 exampleHhdm (newContext exampleHhdm 0x1000)
      (some (sharedProgram pfW pfX)) tinyMachine).map (fun r => (r.1.toOption,
        (vmmLookup .x86_64 exampleHhdm r.2.vmm.pmm 0x1000 0x400).map (·.2 &&& vmmWritable))) =
      some (some 0x400800, some 0) := by decide +kernel
  exact ⟨.of_two (by decide +kernel) (by decide +kernel) (by decide +kernel),
    ⟨by decide +kernel, by decide +kernel, by decide +kernel⟩,
    ⟨0x400000, ⟨by decide +kernel, by decide +kernel⟩, rfl⟩, by decide +kernel,
    Loop.exists_ok_of_map hcall⟩

end Pros
