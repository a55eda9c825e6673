import Pros.Pmm.Claim

/-!
# Ownership of physical pages over whole runs

A run of the allocator is any sequence of claims, allocations and frees, with the owners of
allocated pages writing into them in between. Next to the allocator's own state, `PmmRun` records
who owns what: the pages of every live allocation, and the pages that were ever claimed. The
invariant is that the free list and the live allocations are a partition of the claimed pages.
-/

open scoped List

namespace Pros

/-- The allocator, with the pages of every live allocation and what was claimed so far. -/
structure PmmRun where
  pmm : Pmm
  live : List (List Word)
  pages : List Word
  claimed : List Word

/-- The state after `pmm_init`, before anything is claimed. -/
def PmmRun.start (mem : ByteMem) (maxPhysAddr : Word) : PmmRun :=
  { pmm := { mem, freeListHead := 0, maxPhysAddr }, live := [], pages := [], claimed := [] }

section

variable (hhdm : Word) (memmap : List MemmapEntry) (claimable : Word → Prop)

/-- One step of a run. -/
inductive PmmStep : PmmRun → PmmRun → Prop
  -- `pmm_claim` of a type that was not claimed before
  | claim (s : PmmRun) (type : Word) : claimable type → type ∉ s.claimed →
      PmmStep s
        { s with
          pmm := (pmmClaim hhdm memmap s.pmm type).2
          pages := claimPages memmap type ++ s.pages
          claimed := type :: s.claimed }
  -- `pmm_alloc` of one page or more; result `0` is a failed allocation
  | alloc (s : PmmRun) (n p : Word) (pmm : Pmm) : n ≠ 0 → pmmAlloc hhdm s.pmm n = some (p, pmm) →
      PmmStep s
        { s with pmm, live := if p = 0 then s.live else pmmBlock p n.toNat :: s.live }
  -- `pmm_free` of any run of allocated pages, whole allocations or parts of them
  | free (s : PmmRun) (p n : Word) : (∀ q ∈ pmmBlock p n.toNat, q ∈ s.live.flatten) →
      PmmStep s
        { s with
          pmm := pmmFree hhdm s.pmm p n
          live := s.live.map fun block => block.filter (· ∉ pmmBlock p n.toNat) }
  -- an owner writes a byte of an allocated page
  | write (s : PmmRun) (q x : Word) (v : BitVec 8) : q ∈ s.live.flatten →
      (x - pmmPhysToVirt hhdm q).toNat < 4096 →
      PmmStep s { s with pmm := { s.pmm with mem := s.pmm.mem.store8 x v } }

/-- The free list and the live allocations are a partition of the claimed pages. -/
structure PmmRun.Owned (s : PmmRun) (ps : List Word) : Prop where
  free : FreeList hhdm s.pmm ps
  perm : ps ++ s.live.flatten ~ s.pages
  nodup : s.pages.Nodup
  page : ∀ p ∈ s.pages, IsPage hhdm p
  origin : ∀ p ∈ s.pages, ∃ t ∈ s.claimed, claimable t ∧ p ∈ claimPages memmap t

end

variable {hhdm : Word} {memmap : List MemmapEntry} {claimable : Word → Prop} {s s' : PmmRun}
  {ps : List Word}

namespace PmmRun.Owned

theorem start (mem : ByteMem) (maxPhysAddr : Word) :
    (PmmRun.start mem maxPhysAddr).Owned hhdm memmap claimable [] where
  free := ⟨rfl, by simp⟩
  perm := by simp [PmmRun.start]
  nodup := by simp [PmmRun.start]
  page := by simp [PmmRun.start]
  origin := by simp [PmmRun.start]

theorem nodup_append (h : s.Owned hhdm memmap claimable ps) : (ps ++ s.live.flatten).Nodup :=
  h.perm.nodup_iff.mpr h.nodup

theorem isPage_of_live (h : s.Owned hhdm memmap claimable ps) {q : Word}
    (hq : q ∈ s.live.flatten) : IsPage hhdm q :=
  h.page q (h.perm.mem_iff.mp (List.mem_append_right _ hq))

/-- A run of allocated pages does not wrap. -/
theorem noWrap_of_live (h : s.Owned hhdm memmap claimable ps) {p : Word} {n : ℕ} (hn : 0 < n)
    (hlive : ∀ q ∈ pmmBlock p n, q ∈ s.live.flatten) : p.toNat + n * 4096 ≤ 2 ^ 64 := by
  have hrun := noWrap_of_isPage hn fun q hq => h.isPage_of_live (hlive q hq)
  omega

/-! ## Every step keeps the invariant -/

theorem claim (hh : HhdmOk hhdm) (hm : MemmapOk hhdm memmap claimable) {type : Word}
    (h : s.Owned hhdm memmap claimable ps) (ht : claimable type) (hnew : type ∉ s.claimed) :
    PmmRun.Owned hhdm memmap claimable
      { s with
        pmm := (pmmClaim hhdm memmap s.pmm type).2
        pages := claimPages memmap type ++ s.pages
        claimed := type :: s.claimed } ((claimPages memmap type).reverse ++ ps) := by
  -- the new pages are new: a claimed page belongs to an entry of an earlier type
  have hnodup : (claimPages memmap type ++ s.pages).Nodup := by
    refine List.Nodup.append (hm.nodup_claimPages hh ht) h.nodup ?_
    intro p hp hp'
    obtain ⟨t, hclaimed, htc, hpt⟩ := h.origin p hp'
    have hne : type ≠ t := fun e => hnew (e ▸ hclaimed)
    exact hm.claimPages_disjoint hh ht htc hne hp hpt
  have hperm : claimPages memmap type ++ (ps ++ s.live.flatten) ~ claimPages memmap type ++ s.pages :=
    h.perm.append_left _
  have hfree : (claimPages memmap type ++ ps).Nodup := by
    refine (hperm.nodup_iff.mpr hnodup).sublist ?_
    exact (List.sublist_append_left _ _).append_left _
  refine ⟨h.free.claim hh (fun e he hte => hm.noWrap e he (hte ▸ ht)) hfree, ?_, hnodup, ?_, ?_⟩
  · calc
      (claimPages memmap type).reverse ++ ps ++ s.live.flatten
        = (claimPages memmap type).reverse ++ (ps ++ s.live.flatten) := List.append_assoc _ _ _
      _ ~ claimPages memmap type ++ (ps ++ s.live.flatten) :=
        (List.reverse_perm _).append_right _
      _ ~ claimPages memmap type ++ s.pages := hperm
  · intro p hp
    rcases List.mem_append.mp hp with hp | hp
    · exact hm.isPage hh ht hp
    · exact h.page p hp
  · intro p hp
    rcases List.mem_append.mp hp with hp | hp
    · exact ⟨type, List.mem_cons_self, ht, hp⟩
    · obtain ⟨t, hclaimed, htc⟩ := h.origin p hp
      exact ⟨t, List.mem_cons_of_mem _ hclaimed, htc⟩

/-- A successful allocation moves its pages from the free list to a new live allocation. -/
theorem alloc {pre post : List Word} {base : Word} {n : ℕ} {pmm : Pmm}
    (h : s.Owned hhdm memmap claimable (pre ++ ((pmmBlock base n).reverse ++ post)))
    (hfree : FreeList hhdm pmm (pre ++ post)) :
    PmmRun.Owned hhdm memmap claimable { s with pmm, live := pmmBlock base n :: s.live }
      (pre ++ post) := by
  refine ⟨hfree, ?_, h.nodup, h.page, h.origin⟩
  refine List.Perm.trans ?_ h.perm
  rw [List.flatten_cons]
  calc
    pre ++ post ++ (pmmBlock base n ++ s.live.flatten)
      = pre ++ (post ++ pmmBlock base n) ++ s.live.flatten := by simp
    _ ~ pre ++ (pmmBlock base n ++ post) ++ s.live.flatten :=
      (List.perm_append_comm.append_left _).append_right _
    _ ~ pre ++ ((pmmBlock base n).reverse ++ post) ++ s.live.flatten :=
      (((List.reverse_perm _).symm.append_right _).append_left _).append_right _

/-- A free moves its pages from the live allocations back to the free list. -/
theorem release (hh : HhdmOk hhdm) {p n : Word} (h : s.Owned hhdm memmap claimable ps)
    (hlive : ∀ q ∈ pmmBlock p n.toNat, q ∈ s.live.flatten) :
    PmmRun.Owned hhdm memmap claimable
      { s with
        pmm := pmmFree hhdm s.pmm p n
        live := s.live.map fun block => block.filter (· ∉ pmmBlock p n.toNat) }
      ((pmmBlock p n.toNat).reverse ++ ps) := by
  have hall := h.nodup_append
  have hliveNodup : s.live.flatten.Nodup := hall.sublist (List.sublist_append_right _ _)
  have hflat : (s.live.map fun block => block.filter (· ∉ pmmBlock p n.toNat)).flatten =
      s.live.flatten.filter (· ∉ pmmBlock p n.toNat) := by
    rw [List.filter_flatten]
  rcases Nat.eq_zero_or_pos n.toNat with hn | hn
  · -- no page is freed
    have hloop : pmmFree hhdm s.pmm p n = s.pmm := by
      rw [pmmFree, hn]
      split <;> rfl
    refine ⟨?_, ?_, h.nodup, h.page, h.origin⟩
    · simpa [hloop, hn, pmmBlock] using h.free
    · have hnone : s.live.flatten.filter (· ∉ pmmBlock p n.toNat) = s.live.flatten :=
        List.filter_eq_self.mpr fun q _ => by simp [hn, pmmBlock]
      rw [hflat, hnone]
      simpa [hn, pmmBlock] using h.perm
  have hw : p.toNat + n.toNat * 4096 ≤ 2 ^ 64 := h.noWrap_of_live hn hlive
  have hblockNodup := nodup_pmmBlock hw
  have hpage : ∀ q ∈ pmmBlock p n.toNat, IsPage hhdm q := fun q hq =>
    h.isPage_of_live (hlive q hq)
  have hp0 : p ≠ 0 := (hpage p (mem_pmmBlock_iff.mpr ⟨0, hn, by simp⟩)).ne_zero
  have hdisj : List.Disjoint ps s.live.flatten := List.disjoint_of_nodup_append hall
  have hfree : (pmmBlock p n.toNat ++ ps).Nodup :=
    hblockNodup.append h.free.nodup fun q hq hqs => hdisj hqs (hlive q hq)
  refine ⟨h.free.free hh hp0 hpage hfree, ?_, h.nodup, h.page, h.origin⟩
  -- the live pages are the freed ones and the rest
  have hsplit : pmmBlock p n.toNat ++ s.live.flatten.filter (· ∉ pmmBlock p n.toNat) ~
      s.live.flatten := by
    rw [List.perm_ext_iff_of_nodup _ hliveNodup]
    · intro q
      simp only [List.mem_append, List.mem_filter, decide_eq_true_eq]
      constructor
      · rintro (hq | hq)
        · exact hlive q hq
        · exact hq.1
      · intro hq
        by_cases hb : q ∈ pmmBlock p n.toNat
        · exact Or.inl hb
        · exact Or.inr ⟨hq, hb⟩
    · refine hblockNodup.append (hliveNodup.filter _) fun q hq hq' => ?_
      simpa [hq] using (List.mem_filter.mp hq').2
  rw [hflat]
  calc
    (pmmBlock p n.toNat).reverse ++ ps ++ s.live.flatten.filter (· ∉ pmmBlock p n.toNat)
      ~ ps ++ pmmBlock p n.toNat ++ s.live.flatten.filter (· ∉ pmmBlock p n.toNat) :=
      (List.perm_append_comm.trans ((List.reverse_perm _).append_left _)).append_right _
    _ = ps ++ (pmmBlock p n.toNat ++ s.live.flatten.filter (· ∉ pmmBlock p n.toNat)) :=
      List.append_assoc _ _ _
    _ ~ ps ++ s.live.flatten := hsplit.append_left _
    _ ~ s.pages := h.perm

/-- A write into an allocated page misses every free page. -/
theorem write (hh : HhdmOk hhdm) {q x : Word} {v : BitVec 8}
    (h : s.Owned hhdm memmap claimable ps) (hq : q ∈ s.live.flatten)
    (hx : (x - pmmPhysToVirt hhdm q).toNat < 4096) :
    PmmRun.Owned hhdm memmap claimable
      { s with pmm := { s.pmm with mem := s.pmm.mem.store8 x v } } ps := by
  refine ⟨h.free.of_agree rfl fun p hp => ?_, h.perm, h.nodup, h.page, h.origin⟩
  have hne : q ≠ p := by
    rintro rfl
    exact List.disjoint_of_nodup_append h.nodup_append hp hq
  have hapart := (h.isPage_of_live hq).apart hh (h.free.page p hp) hne
  refine ByteMem.AgreeOn.load64_eq fun y hy => if_neg ?_
  rintro rfl
  exact hapart y hx (by omega)

end PmmRun.Owned

/-- Every step keeps the invariant. -/
theorem PmmStep.owned (hh : HhdmOk hhdm) (hm : MemmapOk hhdm memmap claimable)
    (hstep : PmmStep hhdm memmap claimable s s') (h : s.Owned hhdm memmap claimable ps) :
    ∃ ps', s'.Owned hhdm memmap claimable ps' := by
  cases hstep with
  | claim type ht hnew => exact ⟨_, h.claim hh hm ht hnew⟩
  | alloc n p pmm hn halloc =>
    rcases h.free.alloc hh hn with ⟨hnone, -⟩ | ⟨pre, base, post, pmm', hps, -, hsome, hfree, -⟩
    · rw [hnone, Option.some.injEq, Prod.mk.injEq] at halloc
      obtain ⟨rfl, rfl⟩ := halloc
      exact ⟨ps, by simpa using h⟩
    · rw [hsome, Option.some.injEq, Prod.mk.injEq] at halloc
      obtain ⟨rfl, rfl⟩ := halloc
      have hbase : base ∈ ps := by
        rw [hps]
        have : base ∈ pmmBlock base n.toNat :=
          mem_pmmBlock_iff.mpr ⟨0, by bv_omega, by simp⟩
        simp [this]
      rw [if_neg (h.free.page base hbase).ne_zero]
      rw [hps] at h
      exact ⟨pre ++ post, h.alloc hfree⟩
  | free p n hlive => exact ⟨_, h.release hh hlive⟩
  | write q x v hq hx => exact ⟨_, h.write hh hq hx⟩

/-- What a run keeps, by induction on its steps. -/
theorem PmmRun.exists_owned (hh : HhdmOk hhdm) (hm : MemmapOk hhdm memmap claimable)
    {mem : ByteMem} {maxPhysAddr : Word}
    (hrun : Relation.ReflTransGen (PmmStep hhdm memmap claimable)
      (PmmRun.start mem maxPhysAddr) s) :
    ∃ ps, s.Owned hhdm memmap claimable ps := by
  induction hrun with
  | refl => exact ⟨[], PmmRun.Owned.start mem maxPhysAddr⟩
  | tail _ hstep ih =>
    obtain ⟨ps, hps⟩ := ih
    exact hstep.owned hh hm hps

/-! ## The property of whole runs -/

/-- In every state of every run in which no type is claimed twice: the links of the free list end
and meet no page twice, and its pages are aligned and not zero. `pmm_alloc(n)` returns; when it
succeeds, its result is the lowest of `n` consecutive pages that were free and are free no longer.
No page is both free and allocated or in two live allocations, and the free and the allocated pages
together are the claimed ones. -/
theorem pmm_ownership (hh : HhdmOk hhdm) (hm : MemmapOk hhdm memmap claimable)
    {mem : ByteMem} {maxPhysAddr : Word}
    (hrun : Relation.ReflTransGen (PmmStep hhdm memmap claimable)
      (PmmRun.start mem maxPhysAddr) s) :
    ∃ ps : List Word,
      Links s.pmm.next 0 s.pmm.freeListHead (ps.map (pmmPhysToVirt hhdm)) ∧ ps.Nodup ∧
      (∀ p ∈ ps, p.toNat % 4096 = 0 ∧ p ≠ 0) ∧
      (∀ n : Word, n ≠ 0 → ∃ p pmm', pmmAlloc hhdm s.pmm n = some (p, pmm') ∧
        (p ≠ 0 → p.toNat + n.toNat * 4096 ≤ 2 ^ 64 ∧
          ∃ ps' : List Word, Links pmm'.next 0 pmm'.freeListHead (ps'.map (pmmPhysToVirt hhdm)) ∧
            ∀ q ∈ pmmBlock p n.toNat, q ∈ ps ∧ q ∉ ps')) ∧
      List.Disjoint ps s.live.flatten ∧ s.live.Pairwise List.Disjoint ∧
      ∀ q, q ∈ ps ∨ q ∈ s.live.flatten ↔ q ∈ s.pages := by
  obtain ⟨ps, h⟩ := PmmRun.exists_owned hh hm hrun
  have hall := h.nodup_append
  refine ⟨ps, h.free.links, h.free.nodup,
    fun p hp => ⟨(h.free.page p hp).aligned, (h.free.page p hp).ne_zero⟩, ?_,
    List.disjoint_of_nodup_append hall, ?_, fun q => ?_⟩
  · intro n hn
    rcases h.free.alloc hh hn with ⟨hnone, -⟩ | ⟨pre, base, post, pmm', hps, -, hsome, hfree, -⟩
    · exact ⟨0, s.pmm, hnone, fun h0 => absurd rfl h0⟩
    · refine ⟨base, pmm', hsome, fun _ => ⟨?_, pre ++ post, hfree.links, fun q hq => ⟨?_, ?_⟩⟩⟩
      · -- once allocated, the run is live and so does not wrap
        have hlive := (hps ▸ h).alloc hfree
        exact hlive.noWrap_of_live (by bv_omega) fun q hq => by simp [hq]
      · rw [hps]
        simp [hq]
      · intro hmem
        have hnd := h.free.nodup
        rw [hps] at hnd
        simp only [List.nodup_append, List.mem_append, List.mem_reverse] at hnd hmem
        grind
  · have hflat : s.live.flatten.Nodup := hall.sublist (List.sublist_append_right _ _)
    exact (List.nodup_flatten.mp hflat).2
  · rw [← h.perm.mem_iff, List.mem_append]

/-- Three usable pages, all claimed and two of them allocated. -/
theorem pmm_ownership_two_of_three :
    ∃ s : PmmRun, s.live = [[0x2000, 0x3000]] ∧ s.pages = [0x1000, 0x2000, 0x3000] ∧
      ∃ ps : List Word, List.Disjoint ps s.live.flatten ∧
        ∀ q, q ∈ ps ∨ q ∈ s.live.flatten ↔ q ∈ s.pages := by
  let memmap : List MemmapEntry := [⟨0x1000, 0x3000, limineMemmapUsable⟩]
  let claimable : Word → Prop := (· = limineMemmapUsable)
  have hm : MemmapOk exampleHhdm memmap claimable := ⟨by decide, by simp [memmap]⟩
  let start := PmmRun.start (fun _ => 0) 0
  let claimed : PmmRun :=
    { start with
      pmm := (pmmClaim exampleHhdm memmap start.pmm limineMemmapUsable).2
      pages := claimPages memmap limineMemmapUsable ++ start.pages
      claimed := limineMemmapUsable :: start.claimed }
  have hclaim : PmmStep exampleHhdm memmap claimable start claimed :=
    PmmStep.claim start limineMemmapUsable rfl (by simp [start, PmmRun.start])
  have halloc : (pmmAlloc exampleHhdm claimed.pmm 2).map Prod.fst = some 0x2000 := by
    decide +kernel
  obtain ⟨⟨p, pmm⟩, hsome, hp⟩ := Option.map_eq_some_iff.mp halloc
  obtain rfl : p = 0x2000 := hp
  have hstep : PmmStep exampleHhdm memmap claimable claimed _ :=
    PmmStep.alloc claimed 2 0x2000 pmm (by decide) hsome
  have hlive : (if (0x2000 : Word) = 0 then [] else [pmmBlock 0x2000 (2 : Word).toNat]) =
      [[0x2000, 0x3000]] := by decide
  have hpages : claimPages memmap limineMemmapUsable ++ [] = [0x1000, 0x2000, 0x3000] := by
    decide +kernel
  obtain ⟨ps, -, -, -, -, hdisj, -, hall⟩ := pmm_ownership exampleHhdm_ok hm
    (Relation.ReflTransGen.tail (Relation.ReflTransGen.single hclaim) hstep)
  exact ⟨_, hlive, hpages, ps, hdisj, hall⟩

/-- Claiming the same page twice makes its link point at itself, so the free list has no end. And
when the HHDM image of a page is address zero, pushing it empties the list: the page claimed before
it is lost. -/
theorem pmm_claim_twice_or_wrapping :
    (let memmap : List MemmapEntry := [⟨0x1000, 0x1000, limineMemmapUsable⟩]
      let once := (pmmClaim exampleHhdm memmap ⟨fun _ => 0, 0, 0⟩ limineMemmapUsable).2
      let twice := (pmmClaim exampleHhdm memmap once limineMemmapUsable).2
      ¬ ∃ nodes, Links twice.next 0 twice.freeListHead nodes) ∧
    (let memmap : List MemmapEntry :=
        [⟨0x1000, 0x1000, limineMemmapUsable⟩, ⟨0x800000000000, 0x1000, limineMemmapUsable⟩]
      let once := (pmmClaim exampleHhdm memmap ⟨fun _ => 0, 0, 0⟩ limineMemmapUsable).2
      Links once.next 0 once.freeListHead [] ∧
        claimPages memmap limineMemmapUsable = [0x1000, 0x800000000000]) := by
  refine ⟨?_, Links.nil_iff.mpr (by decide +kernel), by decide +kernel⟩
  exact Links.not_of_self_loop (by decide +kernel) (by decide +kernel)

end Pros
