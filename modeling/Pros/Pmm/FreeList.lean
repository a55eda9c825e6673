import Pros.Lib.Links
import Pros.Pmm.Model

/-!
# The free list and what each operation does to it

`FreeList hhdm s ps` says that the links in memory hold exactly the physical pages `ps`, in list
order. Each operation of the allocator has one lemma here, stated on `ps`; callers never look at
links again.
-/

namespace Pros

/-- What the kernel relies on about the HHDM offset: it is page aligned and not null. -/
structure HhdmOk (hhdm : Word) : Prop where
  aligned : hhdm.toNat % 4096 = 0
  ne_zero : hhdm ≠ 0

/-- The HHDM offset that the boot loader uses with four-level paging, for examples. -/
abbrev exampleHhdm : Word := 0xffff800000000000

theorem exampleHhdm_ok : HhdmOk exampleHhdm := ⟨by decide, by decide⟩

/-- `p` is the address of a physical page other than page zero, and the HHDM shows all of it. -/
structure IsPage (hhdm p : Word) : Prop where
  aligned : p.toNat % 4096 = 0
  ne_zero : p ≠ 0
  noWrap : p.toNat + 4096 + hhdm.toNat ≤ 2 ^ 64

variable {hhdm p q base : Word} {s s' : Pmm} {ps : List Word}

theorem IsPage.toNat_virt (hp : IsPage hhdm p) :
    (pmmPhysToVirt hhdm p).toNat = p.toNat + hhdm.toNat := by
  have hlt := hp.noWrap
  rw [pmmPhysToVirt, BitVec.toNat_add, Nat.mod_eq_of_lt]
  omega

theorem IsPage.virt_ne_zero (hp : IsPage hhdm p) : pmmPhysToVirt hhdm p ≠ 0 := by
  intro h0
  have hv := hp.toNat_virt
  have hne := hp.ne_zero
  rw [h0] at hv
  bv_omega

/-- A page seen through the HHDM lies at least two pages above null. -/
theorem IsPage.two_pages_le_virt (hh : HhdmOk hhdm) (hp : IsPage hhdm p) :
    8192 ≤ (pmmPhysToVirt hhdm p).toNat := by
  have hv := hp.toNat_virt
  have hne := hp.ne_zero
  have hne' := hh.ne_zero
  have ha := hp.aligned
  have ha' := hh.aligned
  bv_omega

theorem virt_injective : Function.Injective (pmmPhysToVirt hhdm) := by
  intro p q h
  simpa [pmmPhysToVirt] using h

@[simp]
theorem pmmVirtToPhys_physToVirt : pmmVirtToPhys hhdm (pmmPhysToVirt hhdm p) = p := by
  simp [pmmVirtToPhys, pmmPhysToVirt]

/-- The images of two pages do not meet. -/
theorem IsPage.apart (hh : HhdmOk hhdm) (hp : IsPage hhdm p) (hq : IsPage hhdm q) (hne : p ≠ q) :
    ByteMem.Apart (pmmPhysToVirt hhdm p) 4096 (pmmPhysToVirt hhdm q) 4096 := by
  intro x hx hx'
  have h1 := hp.aligned
  have h2 := hq.aligned
  have h3 := hh.aligned
  have h4 := hp.noWrap
  have h5 := hq.noWrap
  simp only [pmmPhysToVirt] at hx hx'
  bv_omega

/-- The free list holds the pages `ps`, in this order. -/
structure FreeList (hhdm : Word) (s : Pmm) (ps : List Word) : Prop where
  links : Links s.next 0 s.freeListHead (ps.map (pmmPhysToVirt hhdm))
  page : ∀ p ∈ ps, IsPage hhdm p

namespace FreeList

theorem nodup (h : FreeList hhdm s ps) : ps.Nodup := h.links.nodup.of_map _

theorem unique {ps' : List Word} (h : FreeList hhdm s ps) (h' : FreeList hhdm s ps') : ps = ps' :=
  List.map_injective_iff.mpr virt_injective (h.links.unique h'.links)

theorem length_lt (h : FreeList hhdm s ps) : ps.length < walkBound := by
  have hlt := h.links.length_lt_two_pow
  rwa [List.length_map] at hlt

/-- Only the first word of the free pages matters to the free list. -/
theorem of_agree (h : FreeList hhdm s ps) (hhead : s'.freeListHead = s.freeListHead)
    (hmem : ∀ p ∈ ps, s'.next (pmmPhysToVirt hhdm p) = s.next (pmmPhysToVirt hhdm p)) :
    FreeList hhdm s' ps := by
  refine ⟨?_, h.page⟩
  rw [hhead]
  refine h.links.congr fun a ha => ?_
  obtain ⟨p, hp, rfl⟩ := List.mem_map.mp ha
  exact hmem p hp

/-- A change that spares the free pages keeps the free list. -/
theorem of_agree_pages (h : FreeList hhdm s ps) (hhead : s'.freeListHead = s.freeListHead)
    (hmem : ∀ p ∈ ps, ByteMem.AgreeOn s.mem s'.mem (pmmPhysToVirt hhdm p) 4096) :
    FreeList hhdm s' ps :=
  h.of_agree hhead fun p hp => ByteMem.AgreeOn.load64_eq fun x hx => hmem p hp x (by omega)

/-- Writes to a page that is not free keep the free list. -/
theorem of_write (hh : HhdmOk hhdm) (h : FreeList hhdm s ps) (hp : IsPage hhdm p) (hnot : p ∉ ps)
    (hhead : s'.freeListHead = s.freeListHead)
    (hmem : ∀ x, ¬ (x - pmmPhysToVirt hhdm p).toNat < 4096 → s'.mem x = s.mem x) :
    FreeList hhdm s' ps := by
  refine h.of_agree_pages hhead fun q hq x hx => hmem x fun hxp => ?_
  exact hp.apart hh (h.page q hq) (fun e => hnot (e ▸ hq)) x hxp hx

/-! ## Freeing -/

/-- Pushing one page that is not on the list. -/
theorem push (hh : HhdmOk hhdm) (h : FreeList hhdm s ps) (hp : IsPage hhdm p) (hnot : p ∉ ps) :
    FreeList hhdm
      { s.setNext (pmmPhysToVirt hhdm p) s.freeListHead with
        freeListHead := pmmPhysToVirt hhdm p } (p :: ps) := by
  refine ⟨?_, fun q hq => ?_⟩
  · refine h.links.push hp.virt_ne_zero ?_ fun a ha => ?_
    · exact ByteMem.load64_store64_self _ _ _
    · obtain ⟨q, hq, rfl⟩ := List.mem_map.mp ha
      have hne : p ≠ q := fun e => hnot (e ▸ hq)
      exact ByteMem.load64_store64_of_apart
        ((hp.apart hh (h.page q hq) hne).mono (by omega) (by omega))
  · rcases List.mem_cons.mp hq with rfl | hq
    · exact hp
    · exact h.page q hq

end FreeList

theorem ofNat_succ (k : ℕ) : BitVec.ofNat 64 (k + 1) = BitVec.ofNat 64 k + 1 :=
  BitVec.ofNat_add _ _

theorem pmmBlock_succ (base : Word) (n : ℕ) :
    pmmBlock base (n + 1) = base :: pmmBlock (base + pageSize) n := by
  simp only [pmmBlock, List.range_succ_eq_map, List.map_cons, List.map_map]
  refine congrArg₂ _ (by simp) (List.map_congr_left fun i _ => ?_)
  simp only [Function.comp_apply, Nat.succ_eq_add_one, ofNat_succ]
  ring

theorem pmmBlock_succ_last (base : Word) (n : ℕ) :
    pmmBlock base (n + 1) = pmmBlock base n ++ [base + BitVec.ofNat 64 n * pageSize] := by
  simp [pmmBlock, List.range_succ]

@[simp]
theorem length_pmmBlock (base : Word) (n : ℕ) : (pmmBlock base n).length = n := by
  simp [pmmBlock]

theorem mem_pmmBlock_iff {n : ℕ} :
    p ∈ pmmBlock base n ↔ ∃ i < n, p = base + BitVec.ofNat 64 i * pageSize := by
  simp [pmmBlock, eq_comm]

theorem toNat_add_pages {i : ℕ} (hw : base.toNat + i * 4096 < 2 ^ 64) :
    (base + BitVec.ofNat 64 i * pageSize).toNat = base.toNat + i * 4096 := by
  have hsize : (pageSize : Word).toNat = 4096 := rfl
  rw [BitVec.toNat_add, BitVec.toNat_mul, BitVec.toNat_ofNat, hsize]
  omega

/-- The pages of a block that does not wrap, on the naturals. -/
theorem toNat_of_mem_pmmBlock {n : ℕ} (hw : base.toNat + n * 4096 ≤ 2 ^ 64)
    (hp : p ∈ pmmBlock base n) : ∃ i < n, p.toNat = base.toNat + i * 4096 := by
  obtain ⟨i, hi, rfl⟩ := mem_pmmBlock_iff.mp hp
  exact ⟨i, hi, toNat_add_pages (by omega)⟩

/-- A run of pages does not wrap: it would contain page zero. -/
theorem noWrap_of_isPage {n : ℕ} (hn : 0 < n) (hpage : ∀ q ∈ pmmBlock base n, IsPage hhdm q) :
    base.toNat + n * 4096 + hhdm.toNat ≤ 2 ^ 64 := by
  have hbase : IsPage hhdm base := hpage base (mem_pmmBlock_iff.mpr ⟨0, hn, by simp⟩)
  have halign := hbase.aligned
  have hlt := base.isLt
  have hrun : base.toNat + n * 4096 ≤ 2 ^ 64 := by
    by_contra hwrap
    -- the page at which the run passes the top of the address space is page zero
    have hzero : base + BitVec.ofNat 64 ((2 ^ 64 - base.toNat) / 4096) * pageSize = 0 := by
      have hsize : (pageSize : Word).toNat = 4096 := rfl
      apply BitVec.eq_of_toNat_eq
      rw [BitVec.toNat_add, BitVec.toNat_mul, BitVec.toNat_ofNat, hsize]
      simp only [BitVec.ofNat_eq_ofNat, BitVec.toNat_ofNat]
      omega
    have hmem : (0 : Word) ∈ pmmBlock base n :=
      mem_pmmBlock_iff.mpr ⟨(2 ^ 64 - base.toNat) / 4096, by omega, hzero.symm⟩
    exact (hpage 0 hmem).ne_zero rfl
  have hlast := (hpage _ (mem_pmmBlock_iff.mpr ⟨n - 1, by omega, rfl⟩)).noWrap
  rw [toNat_add_pages (by omega)] at hlast
  omega

theorem nodup_pmmBlock {n : ℕ} (hw : base.toNat + n * 4096 ≤ 2 ^ 64) : (pmmBlock base n).Nodup := by
  refine List.Nodup.map_on ?_ List.nodup_range
  intro i hi j hj h
  rw [List.mem_range] at hi hj
  have h' := congrArg BitVec.toNat h
  rw [toNat_add_pages (by omega), toNat_add_pages (by omega)] at h'
  omega

/-- The loop of `pmm_free` pushes its pages in ascending order, so the last one ends up first. -/
theorem FreeList.freeLoop (hh : HhdmOk hhdm) {n : ℕ} (h : FreeList hhdm s ps)
    (hpage : ∀ p ∈ pmmBlock base n, IsPage hhdm p) (hnodup : (pmmBlock base n ++ ps).Nodup) :
    FreeList hhdm (pmmFreeLoop hhdm n s base) ((pmmBlock base n).reverse ++ ps) := by
  induction n generalizing s base ps with
  | zero => simpa [pmmBlock, pmmFreeLoop] using h
  | succ n ih =>
    rw [pmmBlock_succ] at hpage hnodup ⊢
    have hbase : IsPage hhdm base := hpage base List.mem_cons_self
    rw [List.cons_append, List.nodup_cons] at hnodup
    have hnot : base ∉ ps := fun hmem => hnodup.1 (List.mem_append_right _ hmem)
    have hpush := h.push hh hbase hnot
    have hrest := ih hpush (fun p hp => hpage p (List.mem_cons_of_mem _ hp))
      ((List.perm_middle.nodup_iff).mpr (List.nodup_cons.mpr hnodup))
    simpa [pmmFreeLoop] using hrest

theorem FreeList.free (hh : HhdmOk hhdm) {n : Word} (h : FreeList hhdm s ps) (hbase : base ≠ 0)
    (hpage : ∀ p ∈ pmmBlock base n.toNat, IsPage hhdm p)
    (hnodup : (pmmBlock base n.toNat ++ ps).Nodup) :
    FreeList hhdm (pmmFree hhdm s base n) ((pmmBlock base n.toNat).reverse ++ ps) := by
  rw [pmmFree, if_neg hbase]
  exact h.freeLoop hh hpage hnodup

theorem pmmFree_one (hp : p ≠ 0) : pmmFree hhdm s p 1 =
    { s.setNext (pmmPhysToVirt hhdm p) s.freeListHead with
      freeListHead := pmmPhysToVirt hhdm p } :=
  if_neg hp

/-- Freeing one page pushes it. -/
theorem FreeList.free_one (hh : HhdmOk hhdm) (h : FreeList hhdm s ps) (hp : IsPage hhdm p)
    (hnot : p ∉ ps) : FreeList hhdm (pmmFree hhdm s p 1) (p :: ps) := by
  rw [pmmFree_one hp.ne_zero]
  exact h.push hh hp hnot

/-- Freeing one page writes to its first word only. -/
theorem pmmFree_one_mem (hp : p ≠ 0) {x : Word} (hx : ¬ (x - pmmPhysToVirt hhdm p).toNat < 8) :
    (pmmFree hhdm s p 1).mem x = s.mem x := by
  rw [pmmFree_one hp]
  exact ByteMem.store64_apply_of_apart hx

/-! ## Allocating -/

/-- From a free page on, the inner loop of `pmm_alloc` accepts exactly when the page starts a
descending run of `k + 1` pages. The lowest of them is `base`. -/
theorem FreeList.contiguous_iff (hh : HhdmOk hhdm) {k : ℕ}
    (hl : Links s.next 0 (pmmPhysToVirt hhdm p) ((p :: ps).map (pmmPhysToVirt hhdm)))
    (hpage : ∀ q ∈ p :: ps, IsPage hhdm q) :
    pmmContiguous s k (pmmPhysToVirt hhdm p) = true ↔
      ∃ post, p :: ps = (pmmBlock (p - BitVec.ofNat 64 k * pageSize) (k + 1)).reverse ++ post := by
  induction k generalizing p ps with
  | zero => simp [pmmContiguous, pmmBlock]
  | succ k ih =>
    obtain ⟨-, -, hrest⟩ := hl
    have hlow : ∀ q : Word, q = p - pageSize →
        q - BitVec.ofNat 64 k * pageSize = p - BitVec.ofNat 64 (k + 1) * pageSize := by
      rintro q rfl
      rw [ofNat_succ]
      ring
    have hhigh : p - BitVec.ofNat 64 (k + 1) * pageSize + BitVec.ofNat 64 (k + 1) * pageSize = p :=
      sub_add_cancel _ _
    rw [pmmBlock_succ_last, hhigh, List.reverse_append, List.reverse_singleton,
      List.singleton_append]
    cases ps with
    | nil =>
      -- the list ends at `p`, and the page below `p` is not null
      have hend : s.next (pmmPhysToVirt hhdm p) = 0 := hrest
      have hbig := (hpage p List.mem_cons_self).two_pages_le_virt hh
      have hne : ¬ pmmPhysToVirt hhdm p - pageSize = s.next (pmmPhysToVirt hhdm p) := by
        rw [hend]
        bv_omega
      rw [pmmContiguous, if_neg hne]
      simp [pmmBlock_succ_last]
    | cons q ps =>
      have hnext : s.next (pmmPhysToVirt hhdm p) = pmmPhysToVirt hhdm q := hrest.1
      have hstep : pmmPhysToVirt hhdm p - pageSize = s.next (pmmPhysToVirt hhdm p) ↔
          q = p - pageSize := by
        rw [hnext]
        simp only [pmmPhysToVirt]
        constructor <;> intro h <;> bv_omega
      rw [pmmContiguous]
      simp only [hstep, List.cons_append, List.cons.injEq, true_and]
      have hq := @ih q ps ⟨rfl, hrest.2.1, hrest.2.2⟩
        fun r hr => hpage r (List.mem_cons_of_mem _ hr)
      by_cases hqp : q = p - pageSize
      · rw [if_pos hqp, hnext, hq, hlow q hqp]
      · rw [if_neg hqp]
        simp only [Bool.false_eq_true, false_iff, not_exists]
        intro post hpost
        rw [pmmBlock_succ_last, List.reverse_append, List.reverse_singleton,
          List.singleton_append, List.cons_append, List.cons.injEq] at hpost
        refine hqp (hpost.1.trans ?_)
        rw [ofNat_succ]
        ring

/-- The outer loop of `pmm_alloc` ends and finds the first run of `k + 1` pages, if there is one. -/
theorem FreeList.search (hh : HhdmOk hhdm) {k fuel : ℕ} {prev start : Word}
    (hl : Links s.next 0 start (ps.map (pmmPhysToVirt hhdm))) (hpage : ∀ q ∈ ps, IsPage hhdm q)
    (hfuel : ps.length < fuel) :
    (pmmSearch s k fuel prev start = some none ∧
      ∀ pre base post, ps ≠ pre ++ ((pmmBlock base (k + 1)).reverse ++ post)) ∨
    ∃ pre base post, ps = pre ++ ((pmmBlock base (k + 1)).reverse ++ post) ∧
      (∀ pre' base' post', ps = pre' ++ ((pmmBlock base' (k + 1)).reverse ++ post') →
        pre.length ≤ pre'.length) ∧
      pmmSearch s k fuel prev start =
        some (some ((pre.map (pmmPhysToVirt hhdm)).getLastD prev,
          pmmPhysToVirt hhdm (base + BitVec.ofNat 64 k * pageSize))) := by
  induction ps generalizing fuel prev start with
  | nil =>
    left
    obtain ⟨fuel, rfl⟩ : ∃ f, fuel = f + 1 := ⟨fuel - 1, by simp at hfuel; omega⟩
    have hstart : start = 0 := hl
    simp [pmmSearch, hstart, pmmBlock_succ]
  | cons p ps ih =>
    obtain ⟨fuel, rfl⟩ : ∃ f, fuel = f + 1 := ⟨fuel - 1, by simp at hfuel; omega⟩
    have hp : IsPage hhdm p := hpage p List.mem_cons_self
    have hstart : start = pmmPhysToVirt hhdm p := hl.1
    subst hstart
    have hiff := FreeList.contiguous_iff hh (k := k) hl hpage
    -- a run at the head of the list is the run the inner loop looks for
    have hhead : ∀ base post, p :: ps = (pmmBlock base (k + 1)).reverse ++ post →
        base = p - BitVec.ofNat 64 k * pageSize := by
      intro base post h
      rw [pmmBlock_succ_last, List.reverse_append, List.reverse_singleton, List.singleton_append,
        List.cons_append, List.cons.injEq] at h
      rw [h.1]
      ring
    rw [pmmSearch, if_neg hp.virt_ne_zero]
    by_cases hc : pmmContiguous s k (pmmPhysToVirt hhdm p) = true
    · right
      obtain ⟨post, hpost⟩ := hiff.mp hc
      refine ⟨[], p - BitVec.ofNat 64 k * pageSize, post, hpost, by simp, ?_⟩
      rw [if_pos hc, sub_add_cancel]
      rfl
    · rw [if_neg hc]
      rcases ih hl.2.2
        (fun q hq => hpage q (List.mem_cons_of_mem _ hq)) (by simpa using hfuel) with
        ⟨hnone, hno⟩ | ⟨pre, base, post, hps, hfirst, hfound⟩
      · left
        refine ⟨hnone, ?_⟩
        rintro (_ | ⟨q, pre⟩) base post h
        · exact hc (hiff.mpr ⟨post, by rw [← hhead base post h]; exact h⟩)
        · exact hno pre base post (List.cons.inj h).2
      · right
        refine ⟨p :: pre, base, post, by rw [hps]; rfl, ?_, ?_⟩
        · rintro (_ | ⟨q, pre'⟩) base' post' h
          · exact absurd (hiff.mpr ⟨post', by rw [← hhead base' post' h]; exact h⟩) hc
          · have := hfirst pre' base' post' (List.cons.inj h).2
            simpa using this
        · rw [hfound]
          cases pre <;> simp [List.getLastD]

/-- Pointing the node before a run, or the head, past the run takes the run off the list. -/
theorem FreeList.cut (hh : HhdmOk hhdm) {pre run post : List Word} {prev endNode : Word}
    (h : FreeList hhdm s (pre ++ (run ++ post)))
    (hprev : prev = (pre.map (pmmPhysToVirt hhdm)).getLastD 0)
    (hend : endNode = (post.map (pmmPhysToVirt hhdm)).headD 0)
    (hs' : s' = if prev = 0 then { s with freeListHead := endNode } else s.setNext prev endNode) :
    FreeList hhdm s' (pre ++ post) ∧ s'.maxPhysAddr = s.maxPhysAddr ∧
      ∀ x, (∀ p ∈ pre, ¬ (x - pmmPhysToVirt hhdm p).toNat < 8) → s'.mem x = s.mem x := by
  have hlinks := h.links
  have hpage : ∀ q ∈ pre ++ post, IsPage hhdm q := fun q hq => h.page q (by
    simp only [List.mem_append] at hq ⊢
    tauto)
  rcases List.eq_nil_or_concat' pre with rfl | ⟨pre, q, rfl⟩
  · -- the run is at the head of the list
    rw [hprev, List.map_nil, List.getLastD_nil, if_pos rfl] at hs'
    subst hs'
    rw [List.nil_append, List.map_append] at hlinks
    refine ⟨⟨?_, hpage⟩, rfl, fun _ _ => rfl⟩
    rw [hend]
    exact hlinks.suffix
  · have hq : prev = pmmPhysToVirt hhdm q := by simpa using hprev
    have hqpage : IsPage hhdm q := hpage q (by simp)
    have hnd := h.nodup
    rw [if_neg (by rw [hq]; exact hqpage.virt_ne_zero), hq] at hs'
    subst hs'
    refine ⟨⟨?_, hpage⟩, rfl, fun x hx => ?_⟩
    · have hcut : Links s.next 0 s.freeListHead
          ((pre.map (pmmPhysToVirt hhdm) ++ [pmmPhysToVirt hhdm q]) ++
            (run.map (pmmPhysToVirt hhdm) ++ post.map (pmmPhysToVirt hhdm))) := by
        simpa using hlinks
      have hgoal : Links (s.setNext (pmmPhysToVirt hhdm q) endNode).next 0 s.freeListHead
          ((pre.map (pmmPhysToVirt hhdm) ++ [pmmPhysToVirt hhdm q]) ++
            post.map (pmmPhysToVirt hhdm)) := by
        refine hcut.unlink ?_ fun a ha => ?_
        · rw [← hend]
          exact ByteMem.load64_store64_self _ _ _
        · -- every other node keeps its link: its page is not the page of `q`
          rw [← List.map_append] at ha
          obtain ⟨r, hr, rfl⟩ := List.mem_map.mp ha
          have hne : q ≠ r := by
            rintro rfl
            simp only [List.append_assoc, List.nodup_append, List.mem_append] at hnd hr
            grind
          have hrpage : IsPage hhdm r := hpage r (by
            simp only [List.mem_append] at hr ⊢
            tauto)
          exact ByteMem.load64_store64_of_apart
            ((hqpage.apart hh hrpage hne).mono (by omega) (by omega))
      change Links _ 0 s.freeListHead _
      simpa using hgoal
    · exact ByteMem.store64_apply_of_apart (hx q (by simp))

/-- `pmm_alloc` on a free list that is seen through any window: it returns. Either no run of `n` pages
is on the list and nothing changed, or the first run was cut out and its lowest page, as the HHDM
numbers it, is the result. Of the memory only link words of pages before the run change. -/
theorem FreeList.alloc_view (hh : HhdmOk hhdm) {n : Word} (hn : n ≠ 0) (h : FreeList hhdm s ps)
    (offset : Word) :
    (pmmAlloc offset s n = some (0, s) ∧
      ∀ pre base post, ps ≠ pre ++ ((pmmBlock base n.toNat).reverse ++ post)) ∨
    ∃ pre base post s', ps = pre ++ ((pmmBlock base n.toNat).reverse ++ post) ∧
      (∀ pre' base' post', ps = pre' ++ ((pmmBlock base' n.toNat).reverse ++ post') →
        pre.length ≤ pre'.length) ∧
      pmmAlloc offset s n = some (pmmVirtToPhys offset (pmmPhysToVirt hhdm base), s') ∧
      FreeList hhdm s' (pre ++ post) ∧
      s'.maxPhysAddr = s.maxPhysAddr ∧
      ∀ x, (∀ p ∈ pre, ¬ (x - pmmPhysToVirt hhdm p).toNat < 8) → s'.mem x = s.mem x := by
  obtain ⟨k, hk⟩ : ∃ k, (n - 1).toNat = k := ⟨_, rfl⟩
  have hnk : n.toNat = k + 1 := by bv_omega
  have hof : n - 1 = BitVec.ofNat 64 k := by bv_omega
  rw [hnk]
  simp only [pmmAlloc, hk]
  rcases FreeList.search hh (k := k) h.links h.page h.length_lt with
    ⟨hnone, hno⟩ | ⟨pre, base, post, hps, hfirst, hfound⟩
  · left
    refine ⟨?_, hno⟩
    rw [hnone]
    rfl
  · right
    rw [hps] at h
    -- the node past the run is the head of what follows it
    have hend : s.next^[k] (s.next (pmmPhysToVirt hhdm (base + BitVec.ofNat 64 k * pageSize))) =
        (post.map (pmmPhysToVirt hhdm)).headD 0 := by
      have hlinks := h.links
      rw [List.map_append] at hlinks
      have hit := hlinks.suffix.iterate (k := k + 1) (by simp)
      have hdrop : List.drop (k + 1) (List.map (pmmPhysToVirt hhdm)
          ((pmmBlock base (k + 1)).reverse ++ post)) = post.map (pmmPhysToVirt hhdm) := by
        rw [List.map_append]
        exact List.drop_left' (by simp)
      rw [hdrop] at hit
      rw [← hit.head_eq, pmmBlock_succ_last]
      simp
    have hres : pmmVirtToPhys offset (pmmPhysToVirt hhdm (base + BitVec.ofNat 64 k * pageSize)) -
        (n - 1) * pageSize = pmmVirtToPhys offset (pmmPhysToVirt hhdm base) := by
      simp only [pmmVirtToPhys, pmmPhysToVirt, hof]
      ring
    refine ⟨pre, base, post, _, hps, hfirst, ?_, h.cut hh rfl rfl rfl⟩
    rw [hfound]
    simp only [Option.bind_eq_bind, Option.bind_some, Option.pure_def, hend, hres]

/-- `pmm_alloc` on a free list, with its result as the HHDM numbers it. -/
theorem FreeList.alloc (hh : HhdmOk hhdm) {n : Word} (hn : n ≠ 0) (h : FreeList hhdm s ps) :
    (pmmAlloc hhdm s n = some (0, s) ∧
      ∀ pre base post, ps ≠ pre ++ ((pmmBlock base n.toNat).reverse ++ post)) ∨
    ∃ pre base post s', ps = pre ++ ((pmmBlock base n.toNat).reverse ++ post) ∧
      (∀ pre' base' post', ps = pre' ++ ((pmmBlock base' n.toNat).reverse ++ post') →
        pre.length ≤ pre'.length) ∧
      pmmAlloc hhdm s n = some (base, s') ∧ FreeList hhdm s' (pre ++ post) ∧
      s'.maxPhysAddr = s.maxPhysAddr ∧
      ∀ x, (∀ p ∈ pre, ¬ (x - pmmPhysToVirt hhdm p).toNat < 8) → s'.mem x = s.mem x := by
  have hview := h.alloc_view hh hn hhdm
  simpa only [pmmVirtToPhys_physToVirt] using hview

/-- A request for one page is served from the head of the list and leaves memory alone. -/
theorem FreeList.alloc_one (hh : HhdmOk hhdm) (h : FreeList hhdm s ps) :
    (ps = [] ∧ pmmAlloc hhdm s 1 = some (0, s)) ∨
    ∃ p ps' s', ps = p :: ps' ∧ pmmAlloc hhdm s 1 = some (p, s') ∧ FreeList hhdm s' ps' ∧
      s'.maxPhysAddr = s.maxPhysAddr ∧ s'.mem = s.mem := by
  have hone : ∀ base : Word, (pmmBlock base (1 : Word).toNat).reverse = [base] := by
    intro base
    simp [pmmBlock]
  rcases h.alloc hh (n := 1) (by decide) with
    ⟨hnone, hno⟩ | ⟨pre, base, post, s', hps, hfirst, hsome, hlist, hmax, hmem⟩
  · cases ps with
    | nil => exact Or.inl ⟨rfl, hnone⟩
    | cons p ps => exact absurd (by rw [hone]; rfl) (hno [] p ps)
  · right
    rw [hone] at hps
    -- the first run of one page is the first page
    cases pre with
    | nil => exact ⟨base, post, s', hps, hsome, hlist, hmax, funext fun x => hmem x (by simp)⟩
    | cons q pre =>
      have hle := hfirst [] q (pre ++ ([base] ++ post)) (by rw [hone]; exact hps)
      simp at hle

/-! ## A list made by hand -/

/-- Empty memory in which the given pages are linked as free pages are. -/
def linkPages (hhdm : Word) : List Word → ByteMem
  | [] => fun _ => 0
  | p :: ps =>
    ByteMem.store64 (linkPages hhdm ps) (pmmPhysToVirt hhdm p) ((ps.map (pmmPhysToVirt hhdm)).headD 0)

/-- The page allocator with the given free pages. -/
def freePmm (hhdm : Word) (ps : List Word) : Pmm where
  mem := linkPages hhdm ps
  freeListHead := (ps.map (pmmPhysToVirt hhdm)).headD 0
  maxPhysAddr := 0

theorem freePmm_list (hh : HhdmOk hhdm) {ps : List Word} (hpage : ∀ p ∈ ps, IsPage hhdm p)
    (hnodup : ps.Nodup) : FreeList hhdm (freePmm hhdm ps) ps := by
  induction ps with
  | nil => exact ⟨rfl, hpage⟩
  | cons p ps ih =>
    have hlist := ih (fun q hq => hpage q (List.mem_cons_of_mem p hq)) (List.nodup_cons.mp hnodup).2
    exact hlist.push hh (hpage p List.mem_cons_self) (List.nodup_cons.mp hnodup).1

end Pros
