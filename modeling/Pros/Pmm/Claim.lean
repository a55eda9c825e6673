import Pros.Pmm.FreeList

/-!
# Claiming memory from the memory map

`pmm_claim` rounds every entry of the asked type inwards to whole pages and pushes them one by one.
Page zero is counted but never pushed, since `pmm_free` ignores address zero.
-/

open scoped List

namespace Pros

/-- The number of whole pages inside an entry. -/
def MemmapEntry.pageCount (e : MemmapEntry) : ℕ :=
  ((pmmAlignDown (e.base + e.length) pageSize).toNat - (pmmAlignUp e.base pageSize).toNat) / 4096

/-- The pages that claiming the entry pushes. -/
def MemmapEntry.pages (e : MemmapEntry) : List Word :=
  (pmmBlock (pmmAlignUp e.base pageSize) e.pageCount).filter (· ≠ 0)

/-- The pages that `pmm_claim(type)` pushes, in the order of the memory map. -/
def claimPages (memmap : List MemmapEntry) (type : Word) : List Word :=
  (memmap.filter (·.type = type)).flatMap MemmapEntry.pages

/-- The byte ranges of two entries do not meet. -/
def MemmapEntry.Disjoint (e f : MemmapEntry) : Prop :=
  e.base.toNat + e.length.toNat ≤ f.base.toNat ∨ f.base.toNat + f.length.toNat ≤ e.base.toNat

/-- The entries of the claimable types are disjoint, and the HHDM shows them without wrapping. -/
structure MemmapOk (hhdm : Word) (memmap : List MemmapEntry) (claimable : Word → Prop) : Prop where
  noWrap : ∀ e ∈ memmap, claimable e.type →
    e.base.toNat + e.length.toNat + hhdm.toNat ≤ 2 ^ 64
  disjoint : memmap.Pairwise fun e f => claimable e.type → claimable f.type → e.Disjoint f

variable {hhdm p q : Word} {s : Pmm} {ps : List Word} {memmap : List MemmapEntry}
  {claimable : Word → Prop} {e f : MemmapEntry}

/-! ## The pages of an entry -/

/-- Rounding inwards, on the naturals. -/
theorem MemmapEntry.toNat_bounds (hh : HhdmOk hhdm)
    (hw : e.base.toNat + e.length.toNat + hhdm.toNat ≤ 2 ^ 64) :
    (pmmAlignUp e.base pageSize).toNat = (e.base.toNat + 4095) / 4096 * 4096 ∧
      (pmmAlignDown (e.base + e.length) pageSize).toNat =
        (e.base.toNat + e.length.toNat) / 4096 * 4096 := by
  have hpos : 4096 ≤ hhdm.toNat := by
    have h1 := hh.aligned
    have h2 := hh.ne_zero
    bv_omega
  have hup := Word.toNat_alignUp e.base (k := 12) (by omega) (by omega)
  have hdown := Word.toNat_alignDown (e.base + e.length) (k := 12) (by omega)
  have hsum : (e.base + e.length).toNat = e.base.toNat + e.length.toNat := by bv_omega
  rw [hsum] at hdown
  exact ⟨hup, hdown⟩

/-- A pushed page is a page, and lies inside the entry. -/
theorem MemmapEntry.mem_pages (hh : HhdmOk hhdm)
    (hw : e.base.toNat + e.length.toNat + hhdm.toNat ≤ 2 ^ 64) (hp : p ∈ e.pages) :
    IsPage hhdm p ∧ e.base.toNat ≤ p.toNat ∧ p.toNat + 4096 ≤ e.base.toNat + e.length.toNat := by
  obtain ⟨hup, hdown⟩ := MemmapEntry.toNat_bounds hh hw
  rw [MemmapEntry.pages, List.mem_filter] at hp
  obtain ⟨hmem, hne⟩ := hp
  rw [MemmapEntry.pageCount, hup, hdown] at hmem
  obtain ⟨i, hi, hval⟩ := toNat_of_mem_pmmBlock (by rw [hup]; omega) hmem
  rw [hup] at hval
  refine ⟨⟨by omega, by simpa using hne, by omega⟩, by omega, by omega⟩

/-- The pages that claiming an entry pushes are the whole pages inside it, page zero left out. -/
theorem MemmapEntry.mem_pages_iff (hh : HhdmOk hhdm)
    (hw : e.base.toNat + e.length.toNat + hhdm.toNat ≤ 2 ^ 64) :
    p ∈ e.pages ↔ p ≠ 0 ∧ p.toNat % 4096 = 0 ∧ e.base.toNat ≤ p.toNat ∧
      p.toNat + 4096 ≤ e.base.toNat + e.length.toNat := by
  obtain ⟨hup, hdown⟩ := MemmapEntry.toNat_bounds hh hw
  constructor
  · intro hp
    obtain ⟨hpage, hlo, hhi⟩ := MemmapEntry.mem_pages hh hw hp
    exact ⟨hpage.ne_zero, hpage.aligned, hlo, hhi⟩
  · rintro ⟨hne, haligned, hlo, hhi⟩
    rw [MemmapEntry.pages, List.mem_filter]
    refine ⟨mem_pmmBlock_iff.mpr ⟨(p.toNat - (pmmAlignUp e.base pageSize).toNat) / 4096, ?_, ?_⟩,
      by simpa using hne⟩
    · rw [MemmapEntry.pageCount, hup, hdown]
      omega
    · apply BitVec.eq_of_toNat_eq
      rw [toNat_add_pages] <;> rw [hup] <;> omega

/-- An entry that does not hold page zero is pushed whole. -/
theorem MemmapEntry.length_pages (hh : HhdmOk hhdm)
    (hw : e.base.toNat + e.length.toNat + hhdm.toNat ≤ 2 ^ 64)
    (hzero : ¬ (e.base = 0 ∧ 4096 ≤ e.length.toNat)) : e.pages.length = e.pageCount := by
  obtain ⟨hup, hdown⟩ := MemmapEntry.toNat_bounds hh hw
  rw [MemmapEntry.pages, List.filter_eq_self.mpr, length_pmmBlock]
  intro q hq
  rw [MemmapEntry.pageCount, hup, hdown] at hq
  obtain ⟨i, hi, hval⟩ := toNat_of_mem_pmmBlock (by rw [hup]; omega) hq
  rw [hup] at hval
  have hne : q ≠ 0 := by
    rintro rfl
    have hval : 0 = (e.base.toNat + 4095) / 4096 * 4096 + i * 4096 := hval
    refine hzero ⟨BitVec.eq_of_toNat_eq ?_, by omega⟩
    show e.base.toNat = 0
    omega
  simpa using hne

theorem MemmapEntry.nodup_pages (hh : HhdmOk hhdm)
    (hw : e.base.toNat + e.length.toNat + hhdm.toNat ≤ 2 ^ 64) : e.pages.Nodup := by
  obtain ⟨hup, hdown⟩ := MemmapEntry.toNat_bounds hh hw
  refine List.Nodup.filter _ (nodup_pmmBlock ?_)
  rw [MemmapEntry.pageCount, hup, hdown]
  omega

/-- Disjoint entries have no page in common. -/
theorem MemmapEntry.pages_disjoint (hh : HhdmOk hhdm)
    (he : e.base.toNat + e.length.toNat + hhdm.toNat ≤ 2 ^ 64)
    (hf : f.base.toNat + f.length.toNat + hhdm.toNat ≤ 2 ^ 64) (hd : e.Disjoint f) :
    List.Disjoint e.pages f.pages := by
  intro p hp hp'
  obtain ⟨-, h1, h2⟩ := MemmapEntry.mem_pages hh he hp
  obtain ⟨-, h3, h4⟩ := MemmapEntry.mem_pages hh hf hp'
  rcases hd with hd | hd <;> omega

/-! ## Claiming one entry -/

theorem pmmFree_one_zero (hhdm : Word) (s : Pmm) : pmmFree hhdm s 0 1 = s := by
  simp [pmmFree]

/-- The page loop over one entry pushes the pages from `p` up to the top, page zero left out. -/
theorem FreeList.claimLoop (hh : HhdmOk hhdm) {n fuel : ℕ} {top : Word} (count : Word)
    (h : FreeList hhdm s ps) (htop : p.toNat + n * 4096 = top.toNat) (hfuel : n ≤ fuel)
    (hpage : ∀ q ∈ (pmmBlock p n).filter (· ≠ 0), IsPage hhdm q)
    (hnodup : ((pmmBlock p n).filter (· ≠ 0) ++ ps).Nodup) :
    ∃ s', pmmClaimLoop hhdm top fuel p (count, s) = (count + BitVec.ofNat 64 n, s') ∧
      FreeList hhdm s' (((pmmBlock p n).filter (· ≠ 0)).reverse ++ ps) := by
  have htoplt := top.isLt
  induction n generalizing s ps p fuel count with
  | zero =>
    refine ⟨s, ?_, by simpa [pmmBlock] using h⟩
    have hge : ¬ p < top := by
      rw [BitVec.lt_def]
      omega
    cases fuel with
    | zero => simp [pmmClaimLoop]
    | succ fuel => simp [pmmClaimLoop, hge]
  | succ n ih =>
    obtain ⟨fuel, rfl⟩ : ∃ f, fuel = f + 1 := ⟨fuel - 1, by omega⟩
    have hlt : p < top := by
      rw [BitVec.lt_def]
      omega
    have hnext : (p + pageSize).toNat + n * 4096 = top.toNat := by
      have : (p + pageSize).toNat = p.toNat + 4096 := by bv_omega
      omega
    rw [pmmClaimLoop, if_pos hlt]
    rw [pmmBlock_succ, List.filter_cons] at hpage hnodup ⊢
    by_cases hp0 : p = 0
    · -- page zero is counted, and `pmm_free` drops it
      simp only [hp0, ne_eq, not_true_eq_false, decide_false, Bool.false_eq_true, if_false]
        at hpage hnodup ⊢
      rw [pmmFree_one_zero]
      rw [hp0] at hnext
      obtain ⟨s', hs', hfree⟩ := ih (count + 1) h hnext (Nat.le_of_succ_le_succ hfuel) hpage hnodup
      refine ⟨s', ?_, hfree⟩
      rw [hs', ofNat_succ]
      congr 1
      ring
    · simp only [hp0, ne_eq, not_false_eq_true, decide_true, if_true] at hpage hnodup ⊢
      rw [List.cons_append, List.nodup_cons] at hnodup
      have hpush := h.free_one hh (hpage p List.mem_cons_self)
        fun hmem => hnodup.1 (List.mem_append_right _ hmem)
      obtain ⟨s', hs', hfree⟩ := ih (count + 1) hpush hnext (Nat.le_of_succ_le_succ hfuel)
        (fun q hq => hpage q (List.mem_cons_of_mem _ hq))
        ((List.perm_middle.nodup_iff).mpr (List.nodup_cons.mpr hnodup))
      refine ⟨s', ?_, by simpa using hfree⟩
      rw [hs', ofNat_succ]
      congr 1
      ring

/-! ## Claiming a type -/

theorem FreeList.claimEntry (hh : HhdmOk hhdm) (count : Word) (h : FreeList hhdm s ps)
    (hw : e.base.toNat + e.length.toNat + hhdm.toNat ≤ 2 ^ 64)
    (hnodup : (e.pages ++ ps).Nodup) :
    ∃ s', pmmClaimEntry hhdm e.type (count, s) e = (count + BitVec.ofNat 64 e.pageCount, s') ∧
      FreeList hhdm s' (e.pages.reverse ++ ps) := by
  obtain ⟨hup, hdown⟩ := MemmapEntry.toNat_bounds hh hw
  simp only [pmmClaimEntry, ne_eq, not_true_eq_false, if_false, ge_iff_le]
  by_cases hle : pmmAlignDown (e.base + e.length) pageSize ≤ pmmAlignUp e.base pageSize
  · have hzero : e.pageCount = 0 := by
      rw [BitVec.le_def] at hle
      rw [MemmapEntry.pageCount]
      omega
    refine ⟨s, by rw [if_pos hle, hzero]; simp, ?_⟩
    simpa [MemmapEntry.pages, hzero, pmmBlock] using h
  · rw [if_neg hle]
    rw [BitVec.le_def, hup, hdown] at hle
    refine FreeList.claimLoop hh count h ?_ ?_
      (fun q hq => (MemmapEntry.mem_pages hh hw hq).1) hnodup
    · rw [MemmapEntry.pageCount, hup, hdown]
      omega
    · rw [MemmapEntry.pageCount, hup, hdown, walkBound]
      omega

/-- The number of pages that `pmm_claim(type)` counts, page zero included. -/
def claimCount (memmap : List MemmapEntry) (type : Word) : ℕ :=
  ((memmap.filter (·.type = type)).map MemmapEntry.pageCount).sum

/-- The loop of `pmm_claim` over the memory map, from any count on. -/
theorem FreeList.claimEntries (hh : HhdmOk hhdm) {type : Word} (count : Word)
    (h : FreeList hhdm s ps)
    (hw : ∀ e ∈ memmap, e.type = type → e.base.toNat + e.length.toNat + hhdm.toNat ≤ 2 ^ 64)
    (hnodup : (claimPages memmap type ++ ps).Nodup) :
    ∃ s', memmap.foldl (pmmClaimEntry hhdm type) (count, s) =
        (count + BitVec.ofNat 64 (claimCount memmap type), s') ∧
      FreeList hhdm s' ((claimPages memmap type).reverse ++ ps) := by
  induction memmap generalizing s ps count with
  | nil => exact ⟨s, by simp [claimCount], by simpa [claimPages] using h⟩
  | cons e memmap ih =>
    have hw' := fun e' he' => hw e' (List.mem_cons_of_mem _ he')
    rw [List.foldl_cons]
    by_cases htype : e.type = type
    · have hcons : claimPages (e :: memmap) type = e.pages ++ claimPages memmap type := by
        simp [claimPages, htype]
      have hcount : claimCount (e :: memmap) type = e.pageCount + claimCount memmap type := by
        simp [claimCount, htype]
      rw [hcons] at hnodup ⊢
      have hswap : (claimPages memmap type ++ (e.pages.reverse ++ ps)).Nodup := by
        refine (List.Perm.nodup_iff ?_).mp hnodup
        calc
          e.pages ++ claimPages memmap type ++ ps
            ~ claimPages memmap type ++ e.pages ++ ps := List.perm_append_comm.append_right _
          _ = claimPages memmap type ++ (e.pages ++ ps) := List.append_assoc _ _ _
          _ ~ claimPages memmap type ++ (e.pages.reverse ++ ps) :=
            ((List.reverse_perm _).symm.append_right _).append_left _
      have hfirst : (e.pages ++ ps).Nodup := by
        refine hnodup.sublist ?_
        rw [List.append_assoc]
        exact (List.sublist_append_right _ _).append_left _
      obtain ⟨s', hs', hfree⟩ := h.claimEntry hh count (hw e List.mem_cons_self htype) hfirst
      rw [htype] at hs'
      obtain ⟨s'', hs'', hrest⟩ := ih (count + BitVec.ofNat 64 e.pageCount) hfree hw' hswap
      refine ⟨s'', ?_, by rwa [List.reverse_append, List.append_assoc]⟩
      rw [hs', hs'', hcount, BitVec.ofNat_add, BitVec.add_assoc]
    · have hcons : claimPages (e :: memmap) type = claimPages memmap type := by
        simp [claimPages, htype]
      have hcount : claimCount (e :: memmap) type = claimCount memmap type := by
        simp [claimCount, htype]
      rw [hcons] at hnodup ⊢
      have hskip : pmmClaimEntry hhdm type (count, s) e = (count, s) := by
        simp [pmmClaimEntry, htype]
      rw [hskip, hcount]
      exact ih count h hw' hnodup

/-- `pmm_claim` pushes the pages of the asked type, the last page of the last entry ending up at
the head. -/
theorem FreeList.claim (hh : HhdmOk hhdm) {type : Word} (h : FreeList hhdm s ps)
    (hw : ∀ e ∈ memmap, e.type = type → e.base.toNat + e.length.toNat + hhdm.toNat ≤ 2 ^ 64)
    (hnodup : (claimPages memmap type ++ ps).Nodup) :
    FreeList hhdm (pmmClaim hhdm memmap s type).2 ((claimPages memmap type).reverse ++ ps) := by
  obtain ⟨s', hs', hfree⟩ := h.claimEntries hh 0 hw hnodup
  rwa [pmmClaim, hs']

namespace MemmapOk

variable {t t' : Word}

theorem isPage (hh : HhdmOk hhdm) (hm : MemmapOk hhdm memmap claimable) (ht : claimable t)
    (hp : p ∈ claimPages memmap t) : IsPage hhdm p := by
  simp only [claimPages, List.mem_flatMap, List.mem_filter, decide_eq_true_eq] at hp
  obtain ⟨e, ⟨he, rfl⟩, hp⟩ := hp
  exact (MemmapEntry.mem_pages hh (hm.noWrap e he ht) hp).1

theorem nodup_claimPages (hh : HhdmOk hhdm) (hm : MemmapOk hhdm memmap claimable)
    (ht : claimable t) : (claimPages memmap t).Nodup := by
  rw [claimPages, List.nodup_flatMap]
  constructor
  · intro e he
    obtain ⟨he, htype⟩ := List.mem_filter.mp he
    rw [decide_eq_true_eq] at htype
    exact MemmapEntry.nodup_pages hh (hm.noWrap e he (htype ▸ ht))
  · refine List.Pairwise.imp_of_mem ?_ (hm.disjoint.sublist List.filter_sublist)
    intro e f he hf hd
    obtain ⟨he, hte⟩ := List.mem_filter.mp he
    obtain ⟨hf, htf⟩ := List.mem_filter.mp hf
    rw [decide_eq_true_eq] at hte htf
    have hce : claimable e.type := hte ▸ ht
    have hcf : claimable f.type := htf ▸ ht
    exact MemmapEntry.pages_disjoint hh (hm.noWrap e he hce) (hm.noWrap f hf hcf) (hd hce hcf)

theorem mem_claimPages_iff (hh : HhdmOk hhdm) (hm : MemmapOk hhdm memmap claimable)
    (ht : claimable t) :
    p ∈ claimPages memmap t ↔ p ≠ 0 ∧ p.toNat % 4096 = 0 ∧ ∃ e ∈ memmap, e.type = t ∧
      e.base.toNat ≤ p.toNat ∧ p.toNat + 4096 ≤ e.base.toNat + e.length.toNat := by
  simp only [claimPages, List.mem_flatMap, List.mem_filter, decide_eq_true_eq]
  constructor
  · rintro ⟨e, ⟨he, rfl⟩, hp⟩
    obtain ⟨hne, haligned, hinside⟩ := (MemmapEntry.mem_pages_iff hh (hm.noWrap e he ht)).mp hp
    exact ⟨hne, haligned, e, he, rfl, hinside⟩
  · rintro ⟨hne, haligned, e, he, rfl, hinside⟩
    exact ⟨e, ⟨he, rfl⟩,
      (MemmapEntry.mem_pages_iff hh (hm.noWrap e he ht)).mpr ⟨hne, haligned, hinside⟩⟩

/-- Where no entry of the type holds page zero, every counted page is pushed. -/
theorem length_claimPages (hh : HhdmOk hhdm) (hm : MemmapOk hhdm memmap claimable)
    (ht : claimable t)
    (hzero : ∀ e ∈ memmap, e.type = t → ¬ (e.base = 0 ∧ 4096 ≤ e.length.toNat)) :
    (claimPages memmap t).length = claimCount memmap t := by
  rw [claimPages, claimCount, List.length_flatMap]
  refine congrArg List.sum (List.map_congr_left ?_)
  intro e he
  obtain ⟨he, htype⟩ := List.mem_filter.mp he
  rw [decide_eq_true_eq] at htype
  exact MemmapEntry.length_pages hh (hm.noWrap e he (htype ▸ ht)) (hzero e he htype)

/-- Different types have no page in common. -/
theorem claimPages_disjoint (hh : HhdmOk hhdm) (hm : MemmapOk hhdm memmap claimable)
    (ht : claimable t) (ht' : claimable t') (hne : t ≠ t') :
    List.Disjoint (claimPages memmap t) (claimPages memmap t') := by
  intro p hp hp'
  simp only [claimPages, List.mem_flatMap, List.mem_filter, decide_eq_true_eq] at hp hp'
  obtain ⟨e, ⟨he, rfl⟩, hp⟩ := hp
  obtain ⟨f, ⟨hf, rfl⟩, hp'⟩ := hp'
  have hd : e.Disjoint f ∨ f.Disjoint e := by
    rcases List.pairwise_iff_getElem.mp hm.disjoint with hpair
    obtain ⟨i, hi, rfl⟩ := List.getElem_of_mem he
    obtain ⟨j, hj, rfl⟩ := List.getElem_of_mem hf
    rcases Nat.lt_trichotomy i j with hij | rfl | hij
    · exact Or.inl (hpair i j hi hj hij ht ht')
    · exact absurd rfl hne
    · exact Or.inr (hpair j i hj hi hij ht' ht)
  rcases hd with hd | hd
  · exact MemmapEntry.pages_disjoint hh (hm.noWrap e he ht) (hm.noWrap f hf ht') hd hp hp'
  · exact MemmapEntry.pages_disjoint hh (hm.noWrap f hf ht') (hm.noWrap e he ht) hd hp' hp

end MemmapOk

/-! ## What a claim reports -/

/-- The number of free pages, as the kernel counts them, is the length of the free list. -/
theorem FreeList.pmmGetFreePageCount (h : FreeList hhdm s ps) :
    pmmGetFreePageCount s = some (BitVec.ofNat 64 ps.length) := by
  have hloop : ∀ (l : List Word) (fuel : ℕ) (node count : Word), Links s.next 0 node l →
      l.length < fuel →
      pmmCountLoop s fuel node count = some (count + BitVec.ofNat 64 l.length) := by
    intro l
    induction l with
    | nil =>
      intro fuel node count hl hfuel
      obtain ⟨fuel, rfl⟩ : ∃ f, fuel = f + 1 := ⟨fuel - 1, by omega⟩
      simp [pmmCountLoop, Links.nil_iff.mp hl]
    | cons a l ih =>
      intro fuel node count hl hfuel
      obtain ⟨fuel, rfl⟩ : ∃ f, fuel = f + 1 := ⟨fuel - 1, by omega⟩
      obtain ⟨rfl, hne, hl⟩ := hl
      rw [List.length_cons] at hfuel ⊢
      rw [pmmCountLoop, if_neg hne, ih fuel _ _ hl (by omega), ofNat_succ, BitVec.add_assoc,
        BitVec.add_comm 1]
  have := hloop _ walkBound _ 0 h.links (by rw [List.length_map]; exact h.length_lt)
  simpa [Pros.pmmGetFreePageCount] using this

/-- `pmm_claim` on a type that was not claimed before pushes exactly the aligned pages other than
page zero that lie wholly inside an entry of the type, each once. Where no entry of the type holds
page zero, it returns the increase of the number of free pages. -/
theorem pmmClaim_pushes_whole_pages (hh : HhdmOk hhdm) {type : Word} (h : FreeList hhdm s ps)
    (hm : MemmapOk hhdm memmap (· = type)) (hfresh : ∀ p ∈ claimPages memmap type, p ∉ ps) :
    ∃ pushed, FreeList hhdm (pmmClaim hhdm memmap s type).2 (pushed ++ ps) ∧ pushed.Nodup ∧
      (∀ p, p ∈ pushed ↔ p ≠ 0 ∧ p.toNat % 4096 = 0 ∧ ∃ e ∈ memmap, e.type = type ∧
        e.base.toNat ≤ p.toNat ∧ p.toNat + 4096 ≤ e.base.toNat + e.length.toNat) ∧
      ((∀ e ∈ memmap, e.type = type → ¬ (e.base = 0 ∧ 4096 ≤ e.length.toNat)) →
        ∃ before after, pmmGetFreePageCount s = some before ∧
          pmmGetFreePageCount (pmmClaim hhdm memmap s type).2 = some after ∧
          (pmmClaim hhdm memmap s type).1 = after - before) := by
  have hnodup := hm.nodup_claimPages hh rfl
  obtain ⟨s', hs', hfree⟩ := h.claimEntries hh 0 (fun e he ht => hm.noWrap e he ht)
    (List.nodup_append'.mpr ⟨hnodup, h.nodup, fun p hp hp' => hfresh p hp hp'⟩)
  have hclaim : pmmClaim hhdm memmap s type =
      (0 + BitVec.ofNat 64 (claimCount memmap type), s') := hs'
  rw [hclaim]
  refine ⟨_, hfree, List.nodup_reverse.mpr hnodup, ?_, ?_⟩
  · intro p
    rw [List.mem_reverse]
    exact hm.mem_claimPages_iff hh rfl
  · intro hzero
    refine ⟨_, _, h.pmmGetFreePageCount, hfree.pmmGetFreePageCount, ?_⟩
    rw [List.length_append, List.length_reverse, hm.length_claimPages hh rfl hzero,
      BitVec.ofNat_add, BitVec.add_sub_cancel]
    exact BitVec.zero_add _

/-- At boot, after `pmm_init`, a claim leaves exactly the whole pages of its type free. -/
theorem pmmInit_claim (hh : HhdmOk hhdm) {type maxPhysAddr : Word} {mem : ByteMem}
    (hm : MemmapOk hhdm memmap (· = type)) (hinit : pmmInit memmap mem maxPhysAddr = some s) :
    FreeList hhdm (pmmClaim hhdm memmap s type).2 (claimPages memmap type).reverse := by
  have hempty : FreeList hhdm s [] := by
    rw [pmmInit] at hinit
    split at hinit
    · cases hinit
    · cases hinit
      exact ⟨rfl, by simp⟩
  have hnodup : (claimPages memmap type ++ []).Nodup := by
    rw [List.append_nil]
    exact hm.nodup_claimPages hh rfl
  have h := hempty.claim hh (fun e he ht => hm.noWrap e he ht) hnodup
  rwa [List.append_nil] at h

/-- A map with two entries of one type, the first of which holds no whole page. -/
theorem pmmClaim_pushes_whole_pages_two_entries :
    ∃ pushed before after, FreeList exampleHhdm (pmmClaim exampleHhdm
        [⟨0x1800, 0x1000, 0⟩, ⟨0x5000, 0x2000, 0⟩] ⟨fun _ => 0, 0, 0⟩ 0).2 (pushed ++ []) ∧
      pmmGetFreePageCount ⟨fun _ => 0, 0, 0⟩ = some before ∧
      pmmGetFreePageCount (pmmClaim exampleHhdm
        [⟨0x1800, 0x1000, 0⟩, ⟨0x5000, 0x2000, 0⟩] ⟨fun _ => 0, 0, 0⟩ 0).2 = some after ∧
      (pmmClaim exampleHhdm [⟨0x1800, 0x1000, 0⟩, ⟨0x5000, 0x2000, 0⟩]
        ⟨fun _ => 0, 0, 0⟩ 0).1 = after - before := by
  have hfree : FreeList exampleHhdm ⟨fun _ => 0, 0, 0⟩ [] := ⟨rfl, by simp⟩
  have hmap : MemmapOk exampleHhdm [⟨0x1800, 0x1000, 0⟩, ⟨0x5000, 0x2000, 0⟩] (· = 0) :=
    ⟨by simp, by simp [MemmapEntry.Disjoint]⟩
  obtain ⟨pushed, hpushed, -, -, hcount⟩ :=
    pmmClaim_pushes_whole_pages exampleHhdm_ok hfree hmap (by simp)
  obtain ⟨before, after, hbefore, hafter, heq⟩ := hcount (by simp)
  exact ⟨pushed, before, after, hpushed, hbefore, hafter, heq⟩

/-- A map whose only entry starts at address zero: two pages are counted, one is pushed. -/
theorem pmmClaim_counts_page_zero :
    (pmmClaim exampleHhdm [⟨0, 0x2000, 0⟩] ⟨fun _ => 0, 0, 0⟩ 0).1 = 2 ∧
      pmmGetFreePageCount ⟨fun _ => 0, 0, 0⟩ = some 0 ∧
      pmmGetFreePageCount (pmmClaim exampleHhdm [⟨0, 0x2000, 0⟩] ⟨fun _ => 0, 0, 0⟩ 0).2 =
        some 1 := by
  decide +kernel

end Pros
