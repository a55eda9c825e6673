import Pros.Proc.Elf
import Pros.Vmm.Operations

/-!
# The steps of the ELF loader

What one round of the loops of `elf_load` does to the tables and to memory, for pages in the lower
half. `Loaded` collects what holds between any two states of the call: the tables only grow, by pages
from the free list, and memory changes only in tables and in the frames that are loaded.
-/

namespace Pros

variable {arch : Arch} {hhdm : Word} {roots free free' free'' : List Word} {s s' s'' : Pmm}

/-! ## What the call may change -/

/-- `x` is an address of page `p`. -/
def InPage (hhdm p x : Word) : Prop := (x - pmmPhysToVirt hhdm p).toNat < 4096

/-- From `s` to `s'` tables were added, taken from the free list, and memory changed in the tables
and in the pages `frame` only. -/
structure Loaded (arch : Arch) (hhdm : Word) (s s' : Pmm) (roots free free' : List Word)
    (frame : Word → Prop) : Prop where
  tables : Tables arch hhdm 3 s' roots free'
  taken : ∃ new, free = new ++ free' ∧
    ∀ t, Node arch hhdm 3 s' roots t → Node arch hhdm 3 s roots t ∨ t ∈ new
  tableMono : ∀ t, Node arch hhdm 3 s roots t → Node arch hhdm 3 s' roots t
  upper : ∀ r ∈ roots, ∀ j : Fin 512, 256 ≤ j.val → s'.slot hhdm r j = s.slot hhdm r j
  mem : ∀ x, (∀ t, Node arch hhdm 3 s' roots t → ¬ InPage hhdm t x) →
    (∀ f, frame f → ¬ InPage hhdm f x) → s'.mem x = s.mem x

namespace Loaded

variable {P Q R : Word → Prop}

theorem refl (h : Tables arch hhdm 3 s roots free) : Loaded arch hhdm s s roots free free P :=
  ⟨h, ⟨[], rfl, fun _ ht => Or.inl ht⟩, fun _ ht => ht, fun _ _ _ _ => rfl, fun _ _ _ => rfl⟩

theorem trans (h : Loaded arch hhdm s s' roots free free' P)
    (h' : Loaded arch hhdm s' s'' roots free' free'' Q) (hP : ∀ f, P f → R f)
    (hQ : ∀ f, Q f → R f) : Loaded arch hhdm s s'' roots free free'' R := by
  obtain ⟨new, rfl, hnode⟩ := h.taken
  obtain ⟨new', rfl, hnode'⟩ := h'.taken
  refine ⟨h'.tables, ⟨new ++ new', by simp, fun t ht => ?_⟩, fun t ht => ?_, fun r hr j hj => ?_,
    fun x hx hf => ?_⟩
  · rw [List.mem_append, ← or_assoc]
    exact (hnode' t ht).imp_left (hnode t)
  · exact h'.tableMono t (h.tableMono t ht)
  · exact (h'.upper r hr j hj).trans (h.upper r hr j hj)
  · exact (h'.mem x hx fun f hQf => hf f (hQ f hQf)).trans
      (h.mem x (fun t ht => hx t (h'.tableMono t ht)) fun f hPf => hf f (hP f hPf))

theorem of_extended (h : Extended arch hhdm 3 s s' roots free free') :
    Loaded arch hhdm s s' roots free free' P := by
  obtain ⟨new, hfree, hnode⟩ := h.taken
  exact ⟨h.tables, ⟨new, hfree, fun t => (hnode t).mp⟩, h.tableMono, h.upper, fun x hx _ => h.mem x hx⟩

/-- Memory changed in the pages `P` only, none of which is a table. -/
theorem of_elsewhere (hh : HhdmOk hhdm) (h : Tables arch hhdm 3 s roots free)
    (he : Elsewhere arch hhdm 3 s s' roots free') (new : List Word) (hfree : free = new ++ free')
    (hP : ∀ f, P f → IsPage hhdm f ∧ ¬ Node arch hhdm 3 s roots f)
    (hmem : ∀ x, (∀ f, P f → ¬ InPage hhdm f x) → s'.mem x = s.mem x) :
    Loaded arch hhdm s s' roots free free' P := by
  have hnode : ∀ {t}, Node arch hhdm 3 s' roots t ↔ Node arch hhdm 3 s roots t :=
    he.node (by decide)
  refine ⟨h.congr (by decide) (fun _ hr => hr) he, ⟨new, hfree, fun t ht => Or.inl (hnode.mp ht)⟩,
    fun t ht => hnode.mpr ht, fun r hr j _ => ?_, fun x _ hf => hmem x hf⟩
  have hroot : Node arch hhdm 3 s roots r := ⟨r, hr, [], lowerPath_nil, rfl⟩
  refine slot_congr fun x hx => hmem x fun f hf hxf => ?_
  obtain ⟨hfpage, hfnode⟩ := hP f hf
  exact hfpage.apart hh (h.page r hroot) (fun e => hfnode (e ▸ hroot)) x hxf hx

/-- A page that was in use and is neither a table nor one of the frames keeps its bytes. -/
theorem agreeOn (hh : HhdmOk hhdm) (h : Loaded arch hhdm s s' roots free free' P) {p : Word}
    (hp : IsPage hhdm p) (hfree : p ∉ free) (hnode : ¬ Node arch hhdm 3 s roots p)
    (hP : ∀ f, P f → IsPage hhdm f ∧ f ≠ p) :
    ByteMem.AgreeOn s.mem s'.mem (pmmPhysToVirt hhdm p) 4096 := by
  obtain ⟨new, rfl, htaken⟩ := h.taken
  intro x hx
  refine h.mem x (fun t ht hxt => ?_) fun f hf hxf => ?_
  · have hne : t ≠ p := by
      rintro rfl
      rcases htaken t ht with ht | ht
      · exact hnode ht
      · exact hfree (List.mem_append_left _ ht)
    exact (h.tables.page t ht).apart hh hp hne x hxt hx
  · exact (hP f hf).1.apart hh hp (hP f hf).2 x hxf hx

/-- Pages in use that are no tables do not become free or tables. -/
theorem inUse (h : Loaded arch hhdm s s' roots free free' P) {p : Word} (hfree : p ∉ free)
    (hnode : ¬ Node arch hhdm 3 s roots p) : p ∉ free' ∧ ¬ Node arch hhdm 3 s' roots p := by
  obtain ⟨new, rfl, htaken⟩ := h.taken
  rw [List.mem_append, not_or] at hfree
  exact ⟨hfree.2, fun hp => (htaken p hp).elim hnode hfree.1⟩

end Loaded

/-! ## The page loop -/

/-- The pages of a segment. -/
def Elf64Phdr.pages (phdr : Elf64Phdr) : List Word :=
  pmmBlock phdr.vaddrLo ((phdr.vaddrHi.toNat - phdr.vaddrLo.toNat) / 4096)

theorem forPages_eq (body : ElfState → Word → Option (ElfResult Unit)) {page vaddrHi : Word}
    (hpage : page.toNat % 4096 = 0) (hhi : vaddrHi.toNat % 4096 = 0) (fuel : ℕ)
    (hfuel : (vaddrHi.toNat - page.toNat) / 4096 < fuel) (st : ElfState) :
    forPages body vaddrHi fuel page st =
      Loop.forEach body (pmmBlock page ((vaddrHi.toNat - page.toNat) / 4096)) st := by
  induction fuel generalizing page st with
  | zero => omega
  | succ fuel ih =>
    rw [forPages]
    have hlast := vaddrHi.isLt
    have hsize : (pageSize : Word).toNat = 4096 := rfl
    by_cases hlt : page < vaddrHi
    · have hlt' := BitVec.lt_def.mp hlt
      have hnext : (page + pageSize).toNat = page.toNat + 4096 := by
        rw [BitVec.toNat_add, hsize]
        omega
      have hcount : (vaddrHi.toNat - page.toNat) / 4096 =
          (vaddrHi.toNat - (page + pageSize).toNat) / 4096 + 1 := by omega
      rw [if_pos hlt, hcount, pmmBlock_succ, Loop.forEach]
      rcases body st page with _ | ⟨_ | _, st'⟩
      · rfl
      · rfl
      · exact ih (by omega) (by omega) st'
    · have hge := BitVec.le_def.mp (BitVec.not_lt.mp hlt)
      rw [if_neg hlt, Nat.sub_eq_zero_of_le hge]
      rfl

theorem Elf64Phdr.forPages_eq (phdr : Elf64Phdr)
    (body : ElfState → Word → Option (ElfResult Unit)) (st : ElfState) :
    forPages body phdr.vaddrHi walkBound phdr.vaddrLo st = Loop.forEach body phdr.pages st := by
  have hlo := toNat_page_of_addr phdr.pVaddr
  have hhi := toNat_page_of_addr (phdr.pVaddr + phdr.pMemsz + pageSize - 1)
  refine Pros.forPages_eq body (by rw [Elf64Phdr.vaddrLo, hlo]; omega)
    (by rw [Elf64Phdr.vaddrHi, hhi]; omega) _ ?_ st
  have hlt := phdr.vaddrHi.isLt
  rw [walkBound]
  omega

/-! ## A round of pass 1 -/

/-- An allocation failed: that of a page, or that of a table for it. -/
def ElfError.OutOfPages (e : ElfError) : Prop :=
  ∃ page, e = .outOfMemory page ∨ e = .mapFailed page

/-- An aligned address has no offset in its page. -/
theorem or_page_offset {page f : Word} (halign : page.toNat % 4096 = 0) :
    f ||| page &&& 4095 = f := by
  have hzero : page &&& 4095 = 0 := by
    apply BitVec.eq_of_toNat_eq
    rw [BitVec.toNat_and]
    exact (Nat.and_two_pow_sub_one_eq_mod page.toNat 12).trans halign
  rw [hzero]
  exact BitVec.or_zero

theorem fitsPte_of_vmmLookup {root f fl : Word} {n : ℕ}
    (hlook : vmmLookup arch hhdm s root n = some (f, fl)) : arch.FitsPte f := by
  rw [vmmLookup, Option.bind_eq_some_iff] at hlook
  obtain ⟨t, -, hdecode⟩ := hlook
  rw [Arch.decode] at hdecode
  split at hdecode
  · rw [← (Prod.mk.inj (Option.some.inj hdecode)).1]
    exact arch.fitsPte_vmmPteGetPhys _
  · cases hdecode

theorem length_read (file : ElfFile) (offset size : Word) :
    (file.read offset size).length = min size.toNat (file.size.toNat - offset.toNat) := by
  simp [ElfFile.read, dataBytes]

theorem getD_dataBytes {data : ℕ → BitVec 8} {offset n k : ℕ} (hk : k < n) :
    (dataBytes data offset n).getD k 0 = data (offset + k) := by
  simp [dataBytes, List.getD_eq_getElem?_getD, hk]

/-- The page after a page of the lower half has an address. -/
theorem noWrap_of_lt_split {page : Word} (hpage : page < vmmAddrSplit) :
    page.toNat + 4096 < 2 ^ 64 := by
  have hpage' : page.toNat < 2 ^ 47 := BitVec.lt_def.mp hpage
  omega

/-- The overlap of a page with the file part of a segment lies in the page. -/
theorem Elf64Phdr.overlap (phdr : Elf64Phdr) {page : Word} (hpage : page.toNat + 4096 < 2 ^ 64)
    (hlt : phdr.start page < phdr.stop page) :
    page.toNat ≤ (phdr.start page).toNat ∧
      (phdr.start page).toNat < (phdr.stop page).toNat ∧
      (phdr.stop page).toNat ≤ page.toNat + 4096 := by
  have hlt' := BitVec.lt_def.mp hlt
  have hsize : (page + pageSize).toNat = page.toNat + 4096 := by
    rw [BitVec.toNat_add, show (pageSize : Word).toNat = 4096 from rfl]
    omega
  refine ⟨?_, hlt', ?_⟩
  · rw [Elf64Phdr.start]
    split
    · exact le_rfl
    · rename_i hle
      exact BitVec.le_def.mp (BitVec.not_lt.mp hle)
  · rw [Elf64Phdr.stop]
    split
    · exact hsize.le
    · rename_i hge
      have hge' := BitVec.le_def.mp (BitVec.not_lt.mp hge)
      omega

/-- The place in the file of the overlap. -/
def Elf64Phdr.fileOff (phdr : Elf64Phdr) (page : Word) : Word :=
  phdr.pOffset + (phdr.start page - phdr.pVaddr)

/-- The bytes of the overlap are there. -/
def ElfFile.HasOverlap (file : ElfFile) (phdr : Elf64Phdr) (page : Word) : Prop :=
  phdr.start page < phdr.stop page →
    (phdr.fileOff page).toNat + ((phdr.stop page).toNat - (phdr.start page).toNat) ≤ file.size.toNat

/-- The bytes of the overlap are there when a read finds as many as asked for. -/
theorem ElfFile.hasOverlap_iff (file : ElfFile) (phdr : Elf64Phdr) {page : Word}
    (hlt : phdr.start page < phdr.stop page) :
    file.HasOverlap phdr page ↔
      (file.read (phdr.fileOff page) (phdr.stop page - phdr.start page)).length =
        (phdr.stop page - phdr.start page).toNat := by
  have hlt' := BitVec.lt_def.mp hlt
  have hsub : (phdr.stop page - phdr.start page).toNat =
      (phdr.stop page).toNat - (phdr.start page).toNat := by bv_omega
  rw [length_read, hsub]
  constructor
  · intro hrange
    have := hrange hlt
    omega
  · intro hlen _
    omega

/-- Reading the overlap writes to the frame only. -/
theorem elfFillPage_mem (file : ElfFile) (phdr : Elf64Phdr) (mem : ByteMem) {page f x : Word}
    (hpage : page.toNat + 4096 < 2 ^ 64) (hlt : phdr.start page < phdr.stop page)
    (hx : ¬ InPage hhdm f x) :
    mem.write (pmmPhysToVirt hhdm f + (phdr.start page - page))
      (file.read (phdr.fileOff page) (phdr.stop page - phdr.start page)) x = mem x := by
  obtain ⟨hlow, hmid, hhigh⟩ := phdr.overlap hpage hlt
  have hlen := length_read file (phdr.fileOff page) (phdr.stop page - phdr.start page)
  rw [ByteMem.write, if_neg]
  intro hin
  rw [hlen] at hin
  apply hx
  change (x - pmmPhysToVirt hhdm f).toNat < 4096
  generalize pmmPhysToVirt hhdm f = a at hin ⊢
  generalize phdr.start page = b at hin hlow hmid
  generalize phdr.stop page = c at hin hhigh hmid
  bv_omega

/-- The bytes of the frame after reading the overlap. -/
theorem elfFillPage_bytes (file : ElfFile) (phdr : Elf64Phdr) (mem : ByteMem) {page f : Word}
    (hpage : page < vmmAddrSplit) (hlt : phdr.start page < phdr.stop page)
    (hrange : file.HasOverlap phdr page) {k : ℕ} (hk : k < 4096) :
    mem.write (pmmPhysToVirt hhdm f + (phdr.start page - page))
      (file.read (phdr.fileOff page) (phdr.stop page - phdr.start page))
      (pmmPhysToVirt hhdm f + BitVec.ofNat 64 k) =
    if (phdr.start page).toNat ≤ page.toNat + k ∧ page.toNat + k < (phdr.stop page).toNat then
      file.data ((phdr.fileOff page).toNat + (page.toNat + k - (phdr.start page).toNat))
    else mem (pmmPhysToVirt hhdm f + BitVec.ofNat 64 k) := by
  obtain ⟨hlow, hmid, hhigh⟩ := phdr.overlap (noWrap_of_lt_split hpage) hlt
  have hrange' := hrange hlt
  have hpage' : page.toNat < 2 ^ 47 := BitVec.lt_def.mp hpage
  have hsub : (phdr.stop page - phdr.start page).toNat =
      (phdr.stop page).toNat - (phdr.start page).toNat := by bv_omega
  have hlen := length_read file (phdr.fileOff page) (phdr.stop page - phdr.start page)
  rw [hsub, Nat.min_eq_left (by omega)] at hlen
  rw [ByteMem.write, hlen]
  by_cases hin : (phdr.start page).toNat ≤ page.toNat + k ∧
      page.toNat + k < (phdr.stop page).toNat
  · have hoff : (pmmPhysToVirt hhdm f + BitVec.ofNat 64 k -
        (pmmPhysToVirt hhdm f + (phdr.start page - page))).toNat =
        page.toNat + k - (phdr.start page).toNat := by
      generalize pmmPhysToVirt hhdm f = a
      generalize phdr.start page = b at hlow hmid hin ⊢
      bv_omega
    rw [if_pos hin, hoff, if_pos (by omega), ElfFile.read, hsub, Nat.min_eq_left (by omega),
      getD_dataBytes (by omega)]
  · have hoff : ¬ (pmmPhysToVirt hhdm f + BitVec.ofNat 64 k -
        (pmmPhysToVirt hhdm f + (phdr.start page - page))).toNat <
        (phdr.stop page).toNat - (phdr.start page).toNat := by
      generalize pmmPhysToVirt hhdm f = a
      generalize phdr.start page = b at hlow hmid hin ⊢
      generalize phdr.stop page = c at hmid hin hhigh ⊢
      bv_omega
    rw [if_neg hin, if_neg hoff]

/-- A page is filled: memory changes in the frame only, and an error is a short read. -/
theorem elfFillPage_outcome (hhdm : Word) (file : ElfFile) (i : ℕ) (phdr : Elf64Phdr)
    (st : ElfState) {page : Word} (f : Word) (hpage : page.toNat + 4096 < 2 ^ 64) :
    ∃ mem stored, (∀ x, ¬ InPage hhdm f x → mem x = st.vmm.pmm.mem x) ∧
      ((file.HasOverlap phdr page ∧
          elfFillPage hhdm file i phdr st page f = (.ok (), { st.setMem mem with stored })) ∨
        (¬ file.HasOverlap phdr page ∧ elfFillPage hhdm file i phdr st page f =
          (.error (.shortSegment i), { st.setMem mem with stored }))) := by
  by_cases hlt : phdr.start page < phdr.stop page
  · refine ⟨_, f :: st.stored, fun x hx => elfFillPage_mem file phdr st.vmm.pmm.mem hpage hlt hx, ?_⟩
    by_cases hrange : file.HasOverlap phdr page
    · refine Or.inl ⟨hrange, (if_pos hlt).trans (if_neg ?_)⟩
      exact not_not.mpr ((file.hasOverlap_iff phdr hlt).mp hrange)
    · refine Or.inr ⟨hrange, (if_pos hlt).trans (if_pos ?_)⟩
      exact fun hlen => hrange ((file.hasOverlap_iff phdr hlt).mpr hlen)
  · exact ⟨st.vmm.pmm.mem, st.stored, fun _ _ => rfl,
      Or.inl ⟨fun hlt' => absurd hlt' hlt, if_neg hlt⟩⟩

section Rounds

variable {st : ElfState} {ctx : VmmContext} {page : Word}
variable (hh : HhdmOk hhdm) (h : Tables arch hhdm 3 st.vmm.pmm roots free)
variable (hctx : ContextIn hhdm roots ctx) (hpage : page < vmmAddrSplit)

include hh h hctx hpage

/-- A new page is the first free one, mapped and full of zeros, or memory is used up. -/
theorem Tables.elfNewPage :
    (∃ e st', elfNewPage arch hhdm ctx st page = some (.error e, st') ∧ e.OutOfPages ∧
      st'.vmm = { st.vmm with pmm := st'.vmm.pmm } ∧ st'.stored = st.stored ∧
      (st'.allocated = st.allocated ∨ ∃ z ∈ free, st'.allocated = z :: st.allocated ∧
        ¬ Node arch hhdm 3 st'.vmm.pmm roots z) ∧
      Loaded arch hhdm st.vmm.pmm st'.vmm.pmm roots free [] (fun _ => False) ∧
      ∀ r ∈ roots, ∀ n < 2 ^ 35,
        vmmLookup arch hhdm st'.vmm.pmm r n = vmmLookup arch hhdm st.vmm.pmm r n) ∨
    ∃ f st' free', elfNewPage arch hhdm ctx st page = some (.ok f, st') ∧
      st'.vmm = { st.vmm with pmm := st'.vmm.pmm } ∧ st'.stored = st.stored ∧
      st'.allocated = f :: st.allocated ∧ f ∈ free ∧ f ∉ free' ∧
      ¬ Node arch hhdm 3 st'.vmm.pmm roots f ∧
      Loaded arch hhdm st.vmm.pmm st'.vmm.pmm roots free free' (· = f) ∧
      (∀ r ∈ roots, ∀ n < 2 ^ 35, vmmLookup arch hhdm st'.vmm.pmm r n =
        if r = ctx.rootPhys ∧ n = pageNumber page then some (f, 7)
        else vmmLookup arch hhdm st.vmm.pmm r n) ∧
      ∀ x, InPage hhdm f x → st'.vmm.pmm.mem x = 0 := by
  rcases h.list.alloc_one hh with ⟨rfl, hnone⟩ | ⟨z, free₁, s₁, rfl, hsome, hlist, -, hmem⟩
  · left
    refine ⟨.outOfMemory page, st, ?_, ⟨page, Or.inl rfl⟩, rfl, rfl, Or.inl rfl, Loaded.refl h,
      fun _ _ _ _ => rfl⟩
    rw [Pros.elfNewPage, hnone]
    rfl
  have hz : IsPage hhdm z := h.list.page z List.mem_cons_self
  have hznot : z ∉ free₁ := (List.nodup_cons.mp h.list.nodup).1
  have hznode : ¬ Node arch hhdm 3 st.vmm.pmm roots z := fun hn =>
    h.used z hn List.mem_cons_self
  -- taking the page from the free list changes no byte of memory
  have helse : Elsewhere arch hhdm 3 st.vmm.pmm s₁ roots free₁ :=
    .of_agreeOn hlist (fun p hp => h.fits p (List.mem_cons_of_mem z hp))
      (fun _ _ x _ => congrFun hmem x) fun t ht hin => h.used t ht (List.mem_cons_of_mem z hin)
  have hload₁ : Loaded arch hhdm st.vmm.pmm s₁ roots (z :: free₁) free₁ (fun _ => False) :=
    .of_elsewhere hh h helse [z] rfl (fun _ hf => hf.elim) fun x _ => congrFun hmem x
  have hnode₁ : ¬ Node arch hhdm 3 s₁ roots z := fun hn => hznode ((helse.node (by decide)).mp hn)
  obtain ⟨res, s₂, free', hmap, hext, hcases⟩ := Tables.vmmMapPage (v := { st.vmm with pmm := s₁ })
    hh hload₁.tables hctx hpage (h.fits z List.mem_cons_self) (vmmUser ||| vmmWritable)
  have hload₂ : Loaded arch hhdm st.vmm.pmm s₂ roots (z :: free₁) free' (fun _ => False) :=
    hload₁.trans (.of_extended hext) (fun _ hf => hf) fun _ hf => hf
  obtain ⟨hzfree', hznode₂⟩ := (Loaded.of_extended (P := fun _ => False) hext).inUse hznot hnode₁
  have hcall : Pros.elfNewPage arch hhdm ctx st page =
      if res ≠ 0 then some (.error (.mapFailed page),
        { st with vmm := { st.vmm with pmm := s₂ }, allocated := z :: st.allocated })
      else some (.ok z, { st with
        vmm := { st.vmm with pmm := { s₂ with mem := s₂.mem.memset (pmmPhysToVirt hhdm z) 0 4096 } }
        allocated := z :: st.allocated }) := by
    rw [Pros.elfNewPage, hsome]
    simp only [Option.bind_eq_bind, Option.bind_some, if_neg hz.ne_zero, hmap]
    rfl
  rcases hcases with ⟨rfl, hlookup⟩ | ⟨rfl, rfl, hlookup⟩
  · right
    rw [if_neg (not_not.mpr rfl)] at hcall
    have hout : ∀ x, ¬ (x - pmmPhysToVirt hhdm z).toNat < 4096 →
        s₂.mem.memset (pmmPhysToVirt hhdm z) 0 4096 x = s₂.mem x := fun x hx => if_neg hx
    have helse₂ : Elsewhere arch hhdm 3 s₂
        { s₂ with mem := s₂.mem.memset (pmmPhysToVirt hhdm z) 0 4096 } roots free' :=
      hext.tables.writeFrame hh hz hzfree' hznode₂ rfl hout
    have hload₃ : Loaded arch hhdm s₂ { s₂ with mem := s₂.mem.memset (pmmPhysToVirt hhdm z) 0 4096 }
        roots free' free' (· = z) :=
      .of_elsewhere hh hext.tables helse₂ [] rfl (fun f hf => hf ▸ ⟨hz, hznode₂⟩)
        fun x hx => hout x (hx z rfl)
    refine ⟨z, _, free', hcall, rfl, rfl, rfl, List.mem_cons_self, hzfree', ?_,
      hload₂.trans hload₃ (fun _ hf => hf.elim) fun _ hf => hf, fun r hr n hn => ?_,
      fun x hx => if_pos hx⟩
    · exact fun hn => hznode₂ ((helse₂.node (by decide)).mp hn)
    · rw [helse₂.lookup hr hn, hlookup r hr n hn]
      exact if_congr Iff.rfl rfl (helse.lookup hr hn)
  · left
    rw [if_pos (by decide)] at hcall
    refine ⟨_, _, hcall, ⟨page, Or.inr rfl⟩, rfl, rfl,
      Or.inr ⟨z, List.mem_cons_self, rfl, hznode₂⟩, hload₂, fun r hr n hn => ?_⟩
    exact (hlookup r hr n hn).trans (helse.lookup hr hn)

omit hh in
/-- The frame of a page: the one that is mapped, or a new one. -/
theorem Tables.elfPageFrame (halign : page.toNat % 4096 = 0)
    (hframe : ∀ f fl, vmmLookup arch hhdm st.vmm.pmm ctx.rootPhys (pageNumber page) = some (f, fl) →
      f ≠ 0) :
    (∃ f fl, vmmLookup arch hhdm st.vmm.pmm ctx.rootPhys (pageNumber page) = some (f, fl) ∧
      elfPageFrame arch hhdm ctx st page = some (.ok f, st)) ∨
    (vmmLookup arch hhdm st.vmm.pmm ctx.rootPhys (pageNumber page) = none ∧
      elfPageFrame arch hhdm ctx st page = Pros.elfNewPage arch hhdm ctx st page) := by
  have hvirt := h.vmmVirtToPhys le_rfl hctx hpage
  rw [Pros.elfPageFrame, hvirt]
  cases hlook : vmmLookup arch hhdm st.vmm.pmm ctx.rootPhys (pageNumber page) with
  | none => exact Or.inr ⟨rfl, rfl⟩
  | some e =>
    obtain ⟨f, fl⟩ := e
    refine Or.inl ⟨f, fl, rfl, ?_⟩
    simp only [Option.elim_some, or_page_offset halign, Option.bind_eq_bind, Option.bind_some,
      if_neg (hframe f fl hlook)]
    rfl

/-- A round of pass 2 on a mapped page sets its flags. -/
theorem Tables.elfProtectPage (phdr : Elf64Phdr) (halign : page.toNat % 4096 = 0) {f fl : Word}
    (hlook : vmmLookup arch hhdm st.vmm.pmm ctx.rootPhys (pageNumber page) = some (f, fl)) :
    ∃ st' free', elfProtectPage arch hhdm ctx phdr st page = some (.ok (), st') ∧
      st'.vmm = { st.vmm with pmm := st'.vmm.pmm } ∧ st'.stored = st.stored ∧
      st'.allocated = st.allocated ∧
      Loaded arch hhdm st.vmm.pmm st'.vmm.pmm roots free free' (fun _ => False) ∧
      ∀ r ∈ roots, ∀ n < 2 ^ 35, vmmLookup arch hhdm st'.vmm.pmm r n =
        if r = ctx.rootPhys ∧ n = pageNumber page then
          some (f, (phdr.vmmFlags ||| vmmPresent) &&& 31)
        else vmmLookup arch hhdm st.vmm.pmm r n := by
  have hvirt := h.vmmVirtToPhys le_rfl hctx hpage
  rw [hlook, Option.elim_some, or_page_offset halign] at hvirt
  have hfits : arch.FitsPte f := fitsPte_of_vmmLookup hlook
  obtain ⟨res, s', free', hmap, hext, hcases⟩ :=
    h.vmmMapPage hh hctx hpage hfits phdr.vmmFlags
  obtain ⟨s'', hmapped⟩ := h.vmmMapPage_mapped hctx hpage (by rw [hlook]; simp) f phdr.vmmFlags
  -- the entry is there, so the walk cannot fail
  have hres : res = 0 := (Prod.mk.inj (Option.some.inj (hmap.symm.trans hmapped))).1
  refine ⟨{ st with vmm := { st.vmm with pmm := s' } }, free', ?_, rfl, rfl, rfl,
    .of_extended hext, ?_⟩
  · rw [Pros.elfProtectPage, hvirt]
    simp only [Option.bind_eq_bind, Option.bind_some, hmap]
    rfl
  · rcases hcases with ⟨-, hlookup⟩ | ⟨hneg, -⟩
    · exact hlookup
    · rw [hres] at hneg
      exact absurd hneg (by decide)

omit hctx in
/-- Reading the overlap of a page with the file part of a segment, into a frame that is neither a
table nor free. -/
theorem Tables.elfFillPage (file : ElfFile) (i : ℕ) (phdr : Elf64Phdr) {f : Word}
    (hf : IsPage hhdm f) (hfree : f ∉ free) (hnode : ¬ Node arch hhdm 3 st.vmm.pmm roots f) :
    ∃ r st', elfFillPage hhdm file i phdr st page f = (r, st') ∧
      st'.vmm = { st.vmm with pmm := st'.vmm.pmm } ∧ st'.allocated = st.allocated ∧
      (st'.stored = st.stored ∨ st'.stored = f :: st.stored) ∧
      Loaded arch hhdm st.vmm.pmm st'.vmm.pmm roots free free (· = f) ∧
      (∀ r ∈ roots, ∀ n < 2 ^ 35,
        vmmLookup arch hhdm st'.vmm.pmm r n = vmmLookup arch hhdm st.vmm.pmm r n) ∧
      ((r = .ok () ∧ file.HasOverlap phdr page ∧ ∀ k < 4096,
          st'.vmm.pmm.mem (pmmPhysToVirt hhdm f + BitVec.ofNat 64 k) =
            if (phdr.start page).toNat ≤ page.toNat + k ∧
                page.toNat + k < (phdr.stop page).toNat then
              file.data ((phdr.fileOff page).toNat + (page.toNat + k - (phdr.start page).toNat))
            else st.vmm.pmm.mem (pmmPhysToVirt hhdm f + BitVec.ofNat 64 k)) ∨
        (r = .error (.shortSegment i) ∧ ¬ file.HasOverlap phdr page)) := by
  by_cases hlt : phdr.start page < phdr.stop page
  · have hout : ∀ x, ¬ InPage hhdm f x → _ := fun x hx =>
      elfFillPage_mem file phdr st.vmm.pmm.mem (noWrap_of_lt_split hpage) hlt hx
    generalize hmem : st.vmm.pmm.mem.write (pmmPhysToVirt hhdm f + (phdr.start page - page))
      (file.read (phdr.fileOff page) (phdr.stop page - phdr.start page)) = mem at hout
    have helse : Elsewhere arch hhdm 3 st.vmm.pmm { st.vmm.pmm with mem } roots free :=
      h.writeFrame hh hf hfree hnode rfl hout
    have hload : Loaded arch hhdm st.vmm.pmm { st.vmm.pmm with mem } roots free free (· = f) :=
      .of_elsewhere hh h helse [] rfl (fun g hg => hg ▸ ⟨hf, hnode⟩) fun x hx => hout x (hx f rfl)
    have hcall : Pros.elfFillPage hhdm file i phdr st page f =
        if (file.read (phdr.fileOff page) (phdr.stop page - phdr.start page)).length ≠
            (phdr.stop page - phdr.start page).toNat then
          (.error (.shortSegment i), { st.setMem mem with stored := f :: st.stored })
        else (.ok (), { st.setMem mem with stored := f :: st.stored }) := by
      rw [Pros.elfFillPage, if_pos hlt, ← hmem]
      rfl
    by_cases hshort : (file.read (phdr.fileOff page) (phdr.stop page - phdr.start page)).length ≠
        (phdr.stop page - phdr.start page).toNat
    · rw [if_pos hshort] at hcall
      refine ⟨_, _, hcall, rfl, rfl, Or.inr rfl, hload, fun r hr n hn => helse.lookup hr hn,
        Or.inr ⟨rfl, fun hrange => hshort ((file.hasOverlap_iff phdr hlt).mp hrange)⟩⟩
    · rw [if_neg hshort] at hcall
      have hrange := (file.hasOverlap_iff phdr hlt).mpr (not_not.mp hshort)
      refine ⟨_, _, hcall, rfl, rfl, Or.inr rfl, hload, fun r hr n hn => helse.lookup hr hn,
        Or.inl ⟨rfl, hrange, fun k hk => ?_⟩⟩
      rw [← elfFillPage_bytes file phdr st.vmm.pmm.mem hpage hlt hrange hk, hmem]
      rfl
  · refine ⟨.ok (), st, if_neg hlt, rfl, rfl, Or.inl rfl, Loaded.refl h, fun _ _ _ _ => rfl,
      Or.inl ⟨rfl, fun hlt' => absurd hlt' hlt, fun k _ => ?_⟩⟩
    rw [BitVec.lt_def] at hlt
    rw [if_neg (by omega)]

end Rounds

/-! ## The invariant -/

/-- `f` is the frame of a page in the lower half below `root`. -/
def LowerFrame (arch : Arch) (hhdm : Word) (s : Pmm) (root f : Word) : Prop :=
  ∃ n < 2 ^ 35, ∃ fl, vmmLookup arch hhdm s root n = some (f, fl)

/-- The frames that `elf_load` may write to: those it allocated and those it found. -/
def OwnFrame (arch : Arch) (hhdm : Word) (v : Vmm) (ctx : VmmContext) (st : ElfState) (f : Word) :
    Prop :=
  f ∈ st.allocated ∨ LowerFrame arch hhdm v.pmm ctx.rootPhys f

/-- What holds between the start of the call, with free pages `free₀`, and any later state. -/
structure ElfInv (arch : Arch) (hhdm : Word) (roots : List Word) (v : Vmm) (ctx : VmmContext)
    (free₀ : List Word) (st : ElfState) (free : List Word) : Prop where
  loaded : Loaded arch hhdm v.pmm st.vmm.pmm roots free₀ free (OwnFrame arch hhdm v ctx st)
  registers : st.vmm = { v with pmm := st.vmm.pmm }
  allocated : ∀ f ∈ st.allocated, f ∈ free₀
  frame : ∀ f, OwnFrame arch hhdm v ctx st f →
    IsPage hhdm f ∧ f ∉ free ∧ ¬ Node arch hhdm 3 st.vmm.pmm roots f
  lookup : ∀ f, LowerFrame arch hhdm st.vmm.pmm ctx.rootPhys f → OwnFrame arch hhdm v ctx st f
  stored : ∀ f ∈ st.stored, OwnFrame arch hhdm v ctx st f

/-- A round on a page that did not fail: the frame `f` of the page holds what it held, or zeros if it
is new, with the overlap read over it. -/
structure PageLoaded (arch : Arch) (hhdm : Word) (v : Vmm) (ctx : VmmContext) (file : ElfFile)
    (phdr : Elf64Phdr) (page : Word) (st st' : ElfState) (f fl : Word) : Prop where
  found : vmmLookup arch hhdm st.vmm.pmm ctx.rootPhys (pageNumber page) = some (f, fl) ∨
    (vmmLookup arch hhdm st.vmm.pmm ctx.rootPhys (pageNumber page) = none ∧ fl = 7 ∧
      ¬ OwnFrame arch hhdm v ctx st f)
  lookup : ∀ n < 2 ^ 35, vmmLookup arch hhdm st'.vmm.pmm ctx.rootPhys n =
    if n = pageNumber page then some (f, fl) else vmmLookup arch hhdm st.vmm.pmm ctx.rootPhys n
  overlap : file.HasOverlap phdr page
  bytes : ∀ k < 4096, st'.vmm.pmm.mem (pmmPhysToVirt hhdm f + BitVec.ofNat 64 k) =
    if (phdr.start page).toNat ≤ page.toNat + k ∧ page.toNat + k < (phdr.stop page).toNat then
      file.data ((phdr.fileOff page).toNat + (page.toNat + k - (phdr.start page).toNat))
    else if vmmLookup arch hhdm st.vmm.pmm ctx.rootPhys (pageNumber page) = none then 0
    else st.vmm.pmm.mem (pmmPhysToVirt hhdm f + BitVec.ofNat 64 k)
  others : ∀ g, OwnFrame arch hhdm v ctx st g → g ≠ f →
    ByteMem.AgreeOn st.vmm.pmm.mem st'.vmm.pmm.mem (pmmPhysToVirt hhdm g) 4096

namespace ElfInv

variable {v : Vmm} {ctx : VmmContext} {free₀ : List Word} {st st' : ElfState} {page : Word}
variable (hh : HhdmOk hhdm) (hctx : ContextIn hhdm roots ctx)
variable (h : ElfInv arch hhdm roots v ctx free₀ st free)

include h

/-- A change that took at most one frame. -/
theorem step {P : Word → Prop} (hload : Loaded arch hhdm st.vmm.pmm st'.vmm.pmm roots free free' P)
    (hP : ∀ f, P f → OwnFrame arch hhdm v ctx st' f)
    (hreg : st'.vmm = { st.vmm with pmm := st'.vmm.pmm })
    (halloc : st'.allocated = st.allocated ∨ ∃ z ∈ free, st'.allocated = z :: st.allocated ∧
      z ∉ free' ∧ ¬ Node arch hhdm 3 st'.vmm.pmm roots z)
    (hlookup : ∀ f, LowerFrame arch hhdm st'.vmm.pmm ctx.rootPhys f → OwnFrame arch hhdm v ctx st' f)
    (hstored : ∀ f ∈ st'.stored, OwnFrame arch hhdm v ctx st' f) :
    ElfInv arch hhdm roots v ctx free₀ st' free' := by
  obtain ⟨new, hfree, -⟩ := h.loaded.taken
  have hmono : ∀ f, OwnFrame arch hhdm v ctx st f → OwnFrame arch hhdm v ctx st' f := by
    rintro f (hf | hf)
    · rcases halloc with hall | ⟨z, -, hall, -⟩
      · exact Or.inl (hall ▸ hf)
      · exact Or.inl (hall ▸ List.mem_cons_of_mem z hf)
    · exact Or.inr hf
  have hkeep : ∀ f, OwnFrame arch hhdm v ctx st f →
      IsPage hhdm f ∧ f ∉ free' ∧ ¬ Node arch hhdm 3 st'.vmm.pmm roots f := fun f hf =>
    ⟨(h.frame f hf).1, hload.inUse (h.frame f hf).2.1 (h.frame f hf).2.2⟩
  refine ⟨h.loaded.trans hload hmono hP, ?_, fun f hf => ?_, fun f hf => ?_, hlookup, hstored⟩
  · rw [hreg, h.registers]
  · rcases halloc with hall | ⟨z, hz, hall, -⟩
    · exact h.allocated f (hall ▸ hf)
    · rw [hall] at hf
      rcases List.mem_cons.mp hf with rfl | hf
      · exact hfree ▸ List.mem_append_right new hz
      · exact h.allocated f hf
  · rcases halloc with hall | ⟨z, hz, hall, hzfree, hznode⟩
    · rcases hf with hf | hf
      · exact hkeep f (Or.inl (hall ▸ hf))
      · exact hkeep f (Or.inr hf)
    · rcases hf with hf | hf
      · rw [hall] at hf
        rcases List.mem_cons.mp hf with rfl | hf
        · exact ⟨h.loaded.tables.list.page f hz, hzfree, hznode⟩
        · exact hkeep f (Or.inl hf)
      · exact hkeep f (Or.inr hf)

theorem frame_ne_zero {n : ℕ} (hn : n < 2 ^ 35) {f fl : Word}
    (hlook : vmmLookup arch hhdm st.vmm.pmm ctx.rootPhys n = some (f, fl)) : f ≠ 0 :=
  (h.frame f (h.lookup f ⟨n, hn, fl, hlook⟩)).1.ne_zero

include hh hctx

/-- Reading into the frame of a page, after the frame was found. -/
theorem fillPage (hpage : page < vmmAddrSplit) (file : ElfFile) (i : ℕ) (phdr : Elf64Phdr) {f : Word}
    (hf : OwnFrame arch hhdm v ctx st f) :
    ∃ r st', elfFillPage hhdm file i phdr st page f = (r, st') ∧
      ElfInv arch hhdm roots v ctx free₀ st' free ∧
      (∀ n < 2 ^ 35, vmmLookup arch hhdm st'.vmm.pmm ctx.rootPhys n =
        vmmLookup arch hhdm st.vmm.pmm ctx.rootPhys n) ∧
      (∀ g, OwnFrame arch hhdm v ctx st g → g ≠ f →
        ByteMem.AgreeOn st.vmm.pmm.mem st'.vmm.pmm.mem (pmmPhysToVirt hhdm g) 4096) ∧
      ((r = .ok () ∧ file.HasOverlap phdr page ∧ ∀ k < 4096,
          st'.vmm.pmm.mem (pmmPhysToVirt hhdm f + BitVec.ofNat 64 k) =
            if (phdr.start page).toNat ≤ page.toNat + k ∧
                page.toNat + k < (phdr.stop page).toNat then
              file.data ((phdr.fileOff page).toNat + (page.toNat + k - (phdr.start page).toNat))
            else st.vmm.pmm.mem (pmmPhysToVirt hhdm f + BitVec.ofNat 64 k)) ∨
        (r = .error (.shortSegment i) ∧ ¬ file.HasOverlap phdr page)) := by
  obtain ⟨hfpage, hffree, hfnode⟩ := h.frame f hf
  obtain ⟨r, st', hfill, hreg, halloc, hstored, hload, hlookup, hcases⟩ :=
    h.loaded.tables.elfFillPage hh hpage file i phdr hfpage hffree hfnode
  have hown : ∀ g, OwnFrame arch hhdm v ctx st' g ↔ OwnFrame arch hhdm v ctx st g := fun g => by
    rw [OwnFrame, OwnFrame, halloc]
  refine ⟨r, st', hfill, h.step hload (fun g hg => (hown g).mpr (hg ▸ hf)) hreg (Or.inl halloc)
    (fun g ⟨n, hn, fl, hlook⟩ => (hown g).mpr (h.lookup g ⟨n, hn, fl, ?_⟩)) (fun g hg => ?_),
    fun n hn => hlookup _ hctx.root n hn, fun g hg hne => ?_, hcases⟩
  · rw [← hlookup _ hctx.root n hn]
    exact hlook
  · rw [hown]
    rcases hstored with hst | hst
    · exact h.stored g (hst ▸ hg)
    · rw [hst] at hg
      rcases List.mem_cons.mp hg with rfl | hg
      · exact hf
      · exact h.stored g hg
  · obtain ⟨hgpage, hgfree, hgnode⟩ := h.frame g hg
    exact hload.agreeOn hh hgpage hgfree hgnode fun f' hf' => hf' ▸ ⟨hfpage, hne.symm⟩

/-- One round of the page loop of pass 1. -/
theorem loadPage (hpage : page < vmmAddrSplit) (halign : page.toNat % 4096 = 0) (file : ElfFile)
    (i : ℕ) (phdr : Elf64Phdr) :
    (∃ e st' free', elfLoadPage arch hhdm file ctx i phdr st page = some (.error e, st') ∧
      ElfInv arch hhdm roots v ctx free₀ st' free' ∧
      ((free' = [] ∧ e.OutOfPages) ∨ ¬ file.HasOverlap phdr page)) ∨
    ∃ st' free' f fl, elfLoadPage arch hhdm file ctx i phdr st page = some (.ok (), st') ∧
      ElfInv arch hhdm roots v ctx free₀ st' free' ∧
      PageLoaded arch hhdm v ctx file phdr page st st' f fl := by
  have hn := pageNumber_lt hpage
  rw [elfLoadPage]
  rcases h.loaded.tables.elfPageFrame hctx hpage halign
      (fun f fl hlook => h.frame_ne_zero hn hlook) with ⟨f, fl, hlook, hcall⟩ | ⟨hnone, hcall⟩
  · -- the page is mapped
    have hf : OwnFrame arch hhdm v ctx st f := h.lookup f ⟨_, hn, fl, hlook⟩
    obtain ⟨r, st', hfill, hinv, hlookup, hothers, hcases⟩ :=
      h.fillPage hh hctx hpage file i phdr hf
    simp only [hcall, hfill]
    rcases hcases with ⟨rfl, hover, hbytes⟩ | ⟨rfl, hshort⟩
    · refine Or.inr ⟨st', free, f, fl, rfl, hinv, Or.inl hlook, fun n hn' => ?_, hover,
        fun k hk => ?_, hothers⟩
      · rw [hlookup n hn']
        split
        · rename_i heq
          rw [heq, hlook]
        · rfl
      · rw [hbytes k hk, hlook]
        rfl
    · exact Or.inl ⟨_, st', free, rfl, hinv, Or.inr hshort⟩
  rcases h.loaded.tables.elfNewPage hh hctx hpage with
    ⟨e, st', hnew, hkind, hreg, hstored, halloc, hload, hlookup⟩ |
    ⟨f, st₁, free', hnew, hreg, hstored, halloc, hffree, hffree', hfnode, hload, hlookup, hzero⟩
  · -- out of memory
    have hmono : ∀ g, OwnFrame arch hhdm v ctx st g → OwnFrame arch hhdm v ctx st' g := by
      rintro g (hg | hg)
      · rcases halloc with hall | ⟨z, -, hall, -⟩
        · exact Or.inl (hall ▸ hg)
        · exact Or.inl (hall ▸ List.mem_cons_of_mem z hg)
      · exact Or.inr hg
    simp only [hcall, hnew]
    refine Or.inl ⟨e, st', [], rfl, h.step hload (fun _ hf => hf.elim) hreg ?_
      (fun g ⟨n, hn', fl, hlook⟩ => hmono g (h.lookup g ⟨n, hn', fl, ?_⟩))
      (fun g hg => hmono g (h.stored g (hstored ▸ hg))), Or.inl ⟨rfl, hkind⟩⟩
    · exact halloc.imp_right fun ⟨z, hz, hall, hznode⟩ => ⟨z, hz, hall, by simp, hznode⟩
    · rw [← hlookup _ hctx.root n hn']
      exact hlook
  · -- a new page
    have hmono : ∀ g, OwnFrame arch hhdm v ctx st g → OwnFrame arch hhdm v ctx st₁ g := by
      rintro g (hg | hg)
      · exact Or.inl (halloc ▸ List.mem_cons_of_mem f hg)
      · exact Or.inr hg
    have hf : OwnFrame arch hhdm v ctx st₁ f := Or.inl (halloc ▸ List.mem_cons_self)
    have hfresh : ¬ OwnFrame arch hhdm v ctx st f := fun hold => (h.frame f hold).2.1 hffree
    have hinv₁ : ElfInv arch hhdm roots v ctx free₀ st₁ free' := by
      refine h.step hload (fun g hg => hg ▸ hf) hreg
        (Or.inr ⟨f, hffree, halloc, hffree', hfnode⟩) (fun g ⟨n, hn', fl, hlook⟩ => ?_)
        (fun g hg => hmono g (h.stored g (hstored ▸ hg)))
      rw [hlookup _ hctx.root n hn'] at hlook
      split at hlook
      · rw [← (Prod.mk.inj (Option.some.inj hlook)).1]
        exact hf
      · exact hmono g (h.lookup g ⟨n, hn', fl, hlook⟩)
    obtain ⟨r, st', hfill, hinv, hlookup', hothers, hcases⟩ :=
      hinv₁.fillPage hh hctx hpage file i phdr hf
    simp only [hcall, hnew, hfill]
    rcases hcases with ⟨rfl, hover, hbytes⟩ | ⟨rfl, hshort⟩
    · refine Or.inr ⟨st', free', f, 7, rfl, hinv, Or.inr ⟨hnone, rfl, hfresh⟩, fun n hn' => ?_,
        hover, fun k hk => ?_, fun g hg hne => ?_⟩
      · rw [hlookup' n hn', hlookup _ hctx.root n hn']
        exact if_congr (and_iff_right rfl) rfl rfl
      · have hin : InPage hhdm f (pmmPhysToVirt hhdm f + BitVec.ofNat 64 k) := by
          rw [InPage, ByteMem.toNat_add_ofNat_sub _ (by omega)]
          exact hk
        rw [hbytes k hk, hzero _ hin, if_pos hnone]
      · obtain ⟨hgpage, hgfree, hgnode⟩ := h.frame g hg
        have hagree := hload.agreeOn hh hgpage hgfree hgnode fun f' hf' =>
          hf' ▸ ⟨(hinv₁.frame f hf).1, hne.symm⟩
        exact fun x hx => (hothers g (hmono g hg) hne x hx).trans (hagree x hx)
    · exact Or.inl ⟨_, st', free', rfl, hinv, Or.inr hshort⟩

/-- One round of the page loop of pass 2. -/
theorem protectPage (hpage : page < vmmAddrSplit) (halign : page.toNat % 4096 = 0)
    (phdr : Elf64Phdr) {f fl : Word}
    (hlook : vmmLookup arch hhdm st.vmm.pmm ctx.rootPhys (pageNumber page) = some (f, fl)) :
    ∃ st' free', elfProtectPage arch hhdm ctx phdr st page = some (.ok (), st') ∧
      ElfInv arch hhdm roots v ctx free₀ st' free' ∧
      (∀ n < 2 ^ 35, vmmLookup arch hhdm st'.vmm.pmm ctx.rootPhys n =
        if n = pageNumber page then some (f, (phdr.vmmFlags ||| vmmPresent) &&& 31)
        else vmmLookup arch hhdm st.vmm.pmm ctx.rootPhys n) ∧
      ∀ g, OwnFrame arch hhdm v ctx st g →
        ByteMem.AgreeOn st.vmm.pmm.mem st'.vmm.pmm.mem (pmmPhysToVirt hhdm g) 4096 := by
  have hn := pageNumber_lt hpage
  obtain ⟨st', free', hcall, hreg, hstored, halloc, hload, hlookup⟩ :=
    h.loaded.tables.elfProtectPage hh hctx hpage phdr halign hlook
  have hown : ∀ g, OwnFrame arch hhdm v ctx st' g ↔ OwnFrame arch hhdm v ctx st g := fun g => by
    rw [OwnFrame, OwnFrame, halloc]
  have hlookup' : ∀ n < 2 ^ 35, vmmLookup arch hhdm st'.vmm.pmm ctx.rootPhys n =
      if n = pageNumber page then some (f, (phdr.vmmFlags ||| vmmPresent) &&& 31)
      else vmmLookup arch hhdm st.vmm.pmm ctx.rootPhys n := fun n hn' => by
    rw [hlookup _ hctx.root n hn']
    exact if_congr (and_iff_right rfl) rfl rfl
  refine ⟨st', free', hcall, h.step hload (fun _ hf => hf.elim) hreg (Or.inl halloc)
    (fun g ⟨n, hn', fl', hlook'⟩ => ?_) (fun g hg => (hown g).mpr (h.stored g (hstored ▸ hg))),
    hlookup', fun g hg => ?_⟩
  · rw [hlookup' n hn'] at hlook'
    rw [hown]
    split at hlook'
    · rw [← (Prod.mk.inj (Option.some.inj hlook')).1]
      exact h.lookup f ⟨_, hn, fl, hlook⟩
    · exact h.lookup g ⟨n, hn', fl', hlook'⟩
  · obtain ⟨hgpage, hgfree, hgnode⟩ := h.frame g hg
    exact hload.agreeOn hh hgpage hgfree hgnode fun _ hf => hf.elim

end ElfInv

/-- The invariant holds at the start. -/
theorem ElfInv.start {v : Vmm} {ctx : VmmContext} (h : Tables arch hhdm 3 v.pmm roots free)
    (hframes : ∀ f, LowerFrame arch hhdm v.pmm ctx.rootPhys f →
      IsPage hhdm f ∧ f ∉ free ∧ ¬ Node arch hhdm 3 v.pmm roots f) :
    ElfInv arch hhdm roots v ctx free { vmm := v, allocated := [], stored := [] } free where
  loaded := Loaded.refl h
  registers := rfl
  allocated _ hf := by cases hf
  frame f hf := hf.elim (fun hmem => by cases hmem) (hframes f)
  lookup _ hf := Or.inr hf
  stored _ hf := by cases hf

end Pros
