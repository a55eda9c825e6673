import Pros.Lib.Loop
import Pros.Pmm.Ownership

/-!
# First fit

Which run of pages `pmm_alloc` takes: of the runs that stand on the free list page by page from the
highest to the lowest, the first. A run of free pages whose pages stand on the list in another order
is not found, so what `pmm_alloc` can serve depends on the order in which pages were freed.
-/

namespace Pros

/-- A page-aligned address in the upper half of the address space. -/
structure UpperPage (v : Word) : Prop where
  upper : 2 ^ 63 ≤ v.toNat
  aligned : v.toNat % 4096 = 0

/-- Each address lies one page below the one before. -/
def Descending (run : List Word) : Prop := run.IsChain fun a b => b = a - pageSize

/-- `L` is `pre`, then the run of length `n`, then `post`, and no such run starts earlier. -/
structure FirstRun (L : List Word) (n : ℕ) (pre run post : List Word) : Prop where
  split : L = pre ++ (run ++ post)
  length : run.length = n
  descending : Descending run
  first : ∀ pre' run' post', L = pre' ++ (run' ++ post') → run'.length = n → Descending run' →
    pre.length ≤ pre'.length

variable {hhdm : Word} {s : Pmm} {L run : List Word} {n : Word}

/-! ## Runs -/

theorem reverse_pmmBlock_succ (base : Word) (k : ℕ) :
    (pmmBlock base (k + 1)).reverse =
      (base + BitVec.ofNat 64 k * pageSize) :: (pmmBlock base k).reverse := by
  rw [pmmBlock_succ_last, List.reverse_append, List.reverse_singleton, List.singleton_append]

/-- A descending run is a block of pages in reverse. -/
theorem descending_iff {k : ℕ} :
    (run.length = k + 1 ∧ Descending run) ↔ ∃ base, run = (pmmBlock base (k + 1)).reverse := by
  induction k generalizing run with
  | zero =>
    constructor
    · rintro ⟨hlen, -⟩
      obtain ⟨a, rfl⟩ := List.length_eq_one_iff.mp hlen
      exact ⟨a, by simp [pmmBlock]⟩
    · rintro ⟨base, rfl⟩
      exact ⟨by simp, by simp [pmmBlock, Descending]⟩
  | succ k ih =>
    constructor
    · rintro ⟨hlen, hrun⟩
      obtain ⟨a, run, rfl⟩ := List.exists_cons_of_length_eq_add_one hlen
      obtain ⟨b, run, rfl⟩ := List.exists_cons_of_length_eq_add_one (Nat.succ.inj hlen)
      obtain ⟨hab, hrest⟩ := List.isChain_cons_cons.mp hrun
      obtain ⟨base, hbase⟩ := ih.mp ⟨by simpa using hlen, hrest⟩
      refine ⟨base, ?_⟩
      rw [reverse_pmmBlock_succ, ← hbase, List.cons.injEq]
      refine ⟨?_, rfl⟩
      rw [reverse_pmmBlock_succ, List.cons.injEq] at hbase
      rw [ofNat_succ, add_mul, ← add_assoc, ← hbase.1, hab]
      ring
    · rintro ⟨base, rfl⟩
      obtain ⟨hlen, hrun⟩ := ih.mpr ⟨base, rfl⟩
      rw [reverse_pmmBlock_succ base (k + 1)]
      refine ⟨by simp, ?_⟩
      rw [reverse_pmmBlock_succ base k] at hrun ⊢
      refine List.isChain_cons_cons.mpr ⟨?_, hrun⟩
      rw [ofNat_succ]
      ring

theorem descending_map_add (c : Word) (l : List Word) :
    Descending (l.map (· + c)) ↔ Descending l := by
  have hstep : ∀ a b : Word, b + c = a + c - pageSize ↔ b = a - pageSize := fun a b => by
    rw [add_sub_right_comm, add_left_inj]
  rw [Descending, List.isChain_map, Descending]
  simp only [hstep]

theorem pmmBlock_injective {k : ℕ} (hk : 0 < k) {base base' : Word}
    (h : (pmmBlock base k).reverse = (pmmBlock base' k).reverse) : base = base' := by
  obtain ⟨k, rfl⟩ : ∃ j, k = j + 1 := ⟨k - 1, by omega⟩
  rw [reverse_pmmBlock_succ, reverse_pmmBlock_succ, List.cons.injEq] at h
  exact add_right_cancel h.1

/-! ## The list as it stands in memory

A list of upper-half pages is a free list through a window of one page, whatever the HHDM offset
is. -/

theorem pageSize_ok : HhdmOk pageSize := ⟨by decide, by decide⟩

theorem UpperPage.isPage {v : Word} (hv : UpperPage v) : IsPage pageSize (v - pageSize) := by
  have h1 := hv.upper
  have h2 := hv.aligned
  constructor <;> bv_omega

theorem map_window (L : List Word) :
    (L.map (· - pageSize)).map (pmmPhysToVirt pageSize) = L := by
  simp [pmmPhysToVirt, Function.comp_def]

theorem freeList_window (hl : Links s.next 0 s.freeListHead L) (hup : ∀ v ∈ L, UpperPage v) :
    FreeList pageSize s (L.map (· - pageSize)) where
  links := by rwa [map_window]
  page := by
    intro q hq
    obtain ⟨v, hv, rfl⟩ := List.mem_map.mp hq
    exact (hup v hv).isPage

theorem pmmFreeLoop_window (k : ℕ) (s : Pmm) (p : Word) :
    pmmFreeLoop hhdm k s p = pmmFreeLoop pageSize k s (p + hhdm - pageSize) := by
  induction k generalizing s p with
  | zero => rfl
  | succ k ih =>
    have hnode : pmmPhysToVirt pageSize (p + hhdm - pageSize) = pmmPhysToVirt hhdm p :=
      sub_add_cancel _ _
    have hnext : p + pageSize + hhdm - pageSize = p + hhdm - pageSize + pageSize := by ring
    rw [pmmFreeLoop, pmmFreeLoop, ih, hnode, hnext]

/-- A descending run on `L` is a block of pages seen through the window. -/
theorem run_window {k : ℕ} {pre run post : List Word} (hsplit : L = pre ++ (run ++ post))
    (hlen : run.length = k + 1) (hrun : Descending run) :
    ∃ base, L.map (· - pageSize) = pre.map (· - pageSize) ++
      ((pmmBlock base (k + 1)).reverse ++ post.map (· - pageSize)) := by
  have hback : Descending (run.map (· - pageSize)) := by
    simpa only [sub_eq_add_neg, descending_map_add] using hrun
  obtain ⟨base, hbase⟩ := descending_iff.mp ⟨(List.length_map _).trans hlen, hback⟩
  exact ⟨base, by rw [hsplit, List.map_append, List.map_append, hbase]⟩

theorem descending_block (base : Word) (k : ℕ) :
    ((pmmBlock base (k + 1)).reverse.map (pmmPhysToVirt pageSize)).length = k + 1 ∧
      Descending ((pmmBlock base (k + 1)).reverse.map (pmmPhysToVirt pageSize)) := by
  obtain ⟨hlen, hrun⟩ := descending_iff.mpr ⟨base, rfl⟩
  exact ⟨(List.length_map _).trans hlen, (descending_map_add _ _).mpr hrun⟩

theorem getLastD_block (base : Word) (k : ℕ) :
    ((pmmBlock base (k + 1)).reverse.map (pmmPhysToVirt pageSize)).getLastD 0 =
      pmmPhysToVirt pageSize base := by
  rw [pmmBlock_succ, List.reverse_cons, List.map_append]
  simp

/-- `pmm_alloc` fails and changes nothing exactly when there is no run, and otherwise takes the first
one. -/
theorem pmmAlloc_firstFit (hhdm : Word) (hl : Links s.next 0 s.freeListHead L) (hup : ∀ v ∈ L, UpperPage v)
    (hn : n ≠ 0) : ∃ r s' L', pmmAlloc hhdm s n = some (r, s') ∧
      Links s'.next 0 s'.freeListHead L' ∧
      ((r = 0 ∧ L' = L) ↔ ∀ pre run post, L = pre ++ (run ++ post) → run.length = n.toNat →
        ¬ Descending run) ∧
      ∀ pre run post, FirstRun L n.toNat pre run post →
        r = pmmVirtToPhys hhdm (run.getLastD 0) ∧ L' = pre ++ post := by
  have hlist := freeList_window hl hup
  obtain ⟨k, hk⟩ : ∃ k, n.toNat = k + 1 := ⟨n.toNat - 1, by bv_omega⟩
  rcases hlist.alloc_view pageSize_ok hn hhdm with
    ⟨hnone, hno⟩ | ⟨pre, base, post, s', hps, hfirst, hsome, hlist', -⟩
  · rw [hk] at hno ⊢
    have hfree : ∀ pre run post, L = pre ++ (run ++ post) → run.length = k + 1 →
        ¬ Descending run := by
      intro pre run post hsplit hlen hrun
      obtain ⟨base, hbase⟩ := run_window hsplit hlen hrun
      exact hno _ base _ hbase
    refine ⟨0, s, L, hnone, hl, ⟨fun _ => hfree, fun _ => ⟨rfl, rfl⟩⟩, fun pre run post hrun => ?_⟩
    exact absurd hrun.descending (hfree pre run post hrun.split hrun.length)
  · rw [hk] at hps hfirst ⊢
    -- what the window shows is what stands in memory
    have hL : L = pre.map (pmmPhysToVirt pageSize) ++
        ((pmmBlock base (k + 1)).reverse.map (pmmPhysToVirt pageSize) ++
          post.map (pmmPhysToVirt pageSize)) := by
      rw [← map_window L, hps, List.map_append, List.map_append]
    obtain ⟨hlen, hdesc⟩ := descending_block base k
    refine ⟨_, s', (pre ++ post).map (pmmPhysToVirt pageSize), hsome, hlist'.links, ?_, ?_⟩
    · constructor
      · rintro ⟨-, hsame⟩
        have := congrArg List.length (hsame.trans hL)
        simp only [List.length_append, List.length_map, hlen] at this
        omega
      · intro hfree
        exact absurd hdesc (hfree _ _ _ hL hlen)
    · intro pre' run' post' hrun
      obtain ⟨base', hbase'⟩ := run_window hrun.split hrun.length hrun.descending
      have hle := hfirst _ base' _ hbase'
      have hge := hrun.first _ _ _ hL hlen hdesc
      rw [List.length_map] at hle hge
      obtain ⟨hpre, hrest⟩ := List.append_inj (hrun.split.symm.trans hL) (by simp; omega)
      obtain ⟨hsame, hpost⟩ := List.append_inj hrest (hrun.length.trans hlen.symm)
      rw [hsame, getLastD_block, hpre, hpost, List.map_append]
      exact ⟨rfl, rfl⟩

/-- What `pmm_free` pushes is what the next `pmm_alloc` of the same size takes. -/
theorem pmmAlloc_pmmFree (hl : Links s.next 0 s.freeListHead L) (hup : ∀ v ∈ L, UpperPage v)
    (hn : n ≠ 0) {p : Word} (hp : p ≠ 0)
    (hblock : ∀ v ∈ pmmBlock (p + hhdm) n.toNat, UpperPage v ∧ v ∉ L) :
    ∃ s', pmmAlloc hhdm (pmmFree hhdm s p n) n = some (p, s') ∧
      Links s'.next 0 s'.freeListHead L := by
  have hlist := freeList_window hl hup
  have hpos : 0 < n.toNat := by bv_omega
  -- the block as the window shows it
  have hmem : ∀ q ∈ pmmBlock (p + hhdm - pageSize) n.toNat,
      q + pageSize ∈ pmmBlock (p + hhdm) n.toNat := by
    intro q hq
    obtain ⟨i, hi, rfl⟩ := mem_pmmBlock_iff.mp hq
    exact mem_pmmBlock_iff.mpr ⟨i, hi, by ring⟩
  have hpage : ∀ q ∈ pmmBlock (p + hhdm - pageSize) n.toNat, IsPage pageSize q := fun q hq => by
    simpa using (hblock _ (hmem q hq)).1.isPage
  have hnodup : (pmmBlock (p + hhdm - pageSize) n.toNat ++ L.map (· - pageSize)).Nodup := by
    refine (nodup_pmmBlock ((Nat.le_add_right _ _).trans (noWrap_of_isPage hpos hpage))).append hlist.nodup ?_
    intro q hq hqL
    obtain ⟨v, hv, rfl⟩ := List.mem_map.mp hqL
    exact (hblock _ (hmem _ hq)).2 (by simpa using hv)
  have hfree : pmmFree hhdm s p n =
      pmmFreeLoop pageSize n.toNat s (p + hhdm - pageSize) := by
    rw [pmmFree, if_neg hp, pmmFreeLoop_window]
  have hpushed := hlist.freeLoop pageSize_ok hpage hnodup
  rw [← hfree] at hpushed
  rcases hpushed.alloc_view pageSize_ok hn hhdm with
    ⟨-, hno⟩ | ⟨pre, base, post, s', hps, hfirst, hsome, hlist', -⟩
  · exact absurd rfl (hno [] _ _)
  · -- the block pushed last is the first run
    have hnil : pre = [] := by
      have := hfirst [] _ _ rfl
      exact List.eq_nil_of_length_eq_zero (by simpa using this)
    subst hnil
    rw [List.nil_append] at hps
    obtain ⟨hsame, hpost⟩ := List.append_inj hps (by simp)
    obtain rfl := pmmBlock_injective hpos hsame
    refine ⟨s', ?_, ?_⟩
    · rw [hsome]
      simp [pmmVirtToPhys, pmmPhysToVirt]
    · have hlinks := hlist'.links
      rwa [List.nil_append, ← hpost, map_window] at hlinks

/-- `pmm_alloc` is first fit over descending runs, for every list of upper-half pages, and a block that
`pmm_free` pushed is what the next `pmm_alloc` of its size returns. -/
theorem pmm_alloc_first_fit {hhdm : Word} {s : Pmm} {L : List Word} {n : Word}
    (hl : Links s.next 0 s.freeListHead L) (hup : ∀ v ∈ L, UpperPage v) (hn : n ≠ 0) :
    (∃ r s' L', pmmAlloc hhdm s n = some (r, s') ∧ Links s'.next 0 s'.freeListHead L' ∧
      ((r = 0 ∧ L' = L) ↔ ∀ pre run post, L = pre ++ (run ++ post) → run.length = n.toNat →
        ¬ Descending run) ∧
      ∀ pre run post, FirstRun L n.toNat pre run post →
        r = pmmVirtToPhys hhdm (run.getLastD 0) ∧ L' = pre ++ post) ∧
    ∀ p, p ≠ 0 → (∀ v ∈ pmmBlock (p + hhdm) n.toNat, UpperPage v ∧ v ∉ L) →
      ∃ s', pmmAlloc hhdm (pmmFree hhdm s p n) n = some (p, s') ∧
        Links s'.next 0 s'.freeListHead L :=
  ⟨pmmAlloc_firstFit hhdm hl hup hn, fun _ hp hblock => pmmAlloc_pmmFree hl hup hn hp hblock⟩

/-- The allocator with an empty free list. -/
def emptyPmm : Pmm := { mem := fun _ => 0, freeListHead := 0, maxPhysAddr := 0 }

theorem pmm_alloc_first_fit_two_pages :
    ∃ s', pmmAlloc exampleHhdm (pmmFree exampleHhdm emptyPmm 0x1000 2) 2 = some (0x1000, s') ∧
      Links s'.next 0 s'.freeListHead [] := by
  have hl : Links emptyPmm.next 0 emptyPmm.freeListHead [] := rfl
  refine (pmm_alloc_first_fit hl (by simp) (by decide)).2 0x1000 (by decide) fun v hv => ?_
  have htwo : pmmBlock (0x1000 + exampleHhdm) (2 : Word).toNat =
      [0xffff800000001000, 0xffff800000002000] := by decide
  rw [htwo] at hv
  simp only [List.mem_cons, List.not_mem_nil, or_false] at hv
  rcases hv with rfl | rfl <;> exact ⟨⟨by decide, by decide⟩, by simp⟩

/-- Pages zero and two are free. -/
def pageZeroPmm : Pmm :=
  { mem := (ByteMem.store64 (fun _ => 0) exampleHhdm (exampleHhdm + 0x2000)).store64
      (exampleHhdm + 0x2000) 0
    freeListHead := exampleHhdm, maxPhysAddr := 0 }

/-- Physical page zero is handed out as address `0`, which `pmm_free` ignores: the page is not pushed
and the next request gets another one. -/
theorem pmm_free_page_zero : ∃ s',
    Links pageZeroPmm.next 0 pageZeroPmm.freeListHead [exampleHhdm, exampleHhdm + 0x2000] ∧
      pmmAlloc exampleHhdm pageZeroPmm 1 = some (0, s') ∧
      Links s'.next 0 s'.freeListHead [exampleHhdm + 0x2000] ∧
      (pmmAlloc exampleHhdm (pmmFree exampleHhdm s' 0 1) 1).map Prod.fst = some 0x2000 := by
  have hl : Links pageZeroPmm.next 0 pageZeroPmm.freeListHead
      [exampleHhdm, exampleHhdm + 0x2000] :=
    ⟨rfl, by decide, by decide +kernel, by decide, Links.nil_iff.mpr (by decide +kernel)⟩
  have hup : ∀ v ∈ [exampleHhdm, exampleHhdm + 0x2000], UpperPage v := by
    intro v hv
    simp only [List.mem_cons, List.not_mem_nil, or_false] at hv
    rcases hv with rfl | rfl <;> exact ⟨by decide, by decide⟩
  have hhead : ∀ v L, FirstRun (v :: L) (1 : Word).toNat [] [v] L := fun v L =>
    ⟨rfl, rfl, List.isChain_singleton v, by simp⟩
  obtain ⟨r, s', L', halloc, hlinks, -, hfirst⟩ :=
    pmmAlloc_firstFit exampleHhdm (n := 1) hl hup (by decide)
  obtain ⟨rfl, rfl⟩ := hfirst _ _ _ (hhead _ _)
  obtain ⟨r', s'', L'', halloc', -, -, hfirst'⟩ := pmmAlloc_firstFit exampleHhdm (n := 1) hlinks
    (fun v hv => hup v (List.mem_cons_of_mem _ hv)) (by decide)
  obtain ⟨rfl, -⟩ := hfirst' _ _ _ (hhead _ _)
  have hfree : pmmFree exampleHhdm s' 0 1 = s' := if_pos rfl
  refine ⟨s', hl, halloc, hlinks, ?_⟩
  rw [hfree, halloc']
  rfl

/-! ## The order of the free list -/

theorem run_infix_iff {ps : List Word} {k : ℕ} :
    (∃ base, (pmmBlock base k).reverse <:+: ps) ↔
      ∃ pre base post, ps = pre ++ ((pmmBlock base k).reverse ++ post) := by
  constructor
  · rintro ⟨base, pre, post, rfl⟩
    exact ⟨pre, base, post, List.append_assoc ..⟩
  · rintro ⟨pre, base, post, rfl⟩
    exact ⟨base, pre, post, List.append_assoc ..⟩

/-- On a free list, `pmm_alloc` succeeds exactly when a run of pages stands on it. -/
theorem FreeList.alloc_succeeds_iff {ps : List Word} (hh : HhdmOk hhdm) (hn : n ≠ 0)
    (h : FreeList hhdm s ps) : ∃ p s', pmmAlloc hhdm s n = some (p, s') ∧
      (p ≠ 0 ↔ ∃ base, (pmmBlock base n.toNat).reverse <:+: ps) := by
  rw [run_infix_iff]
  rcases h.alloc hh hn with ⟨hnone, hno⟩ | ⟨pre, base, post, s', hps, -, hsome, -⟩
  · refine ⟨0, s, hnone, fun hne => absurd rfl hne, ?_⟩
    rintro ⟨pre, base, post, hps⟩
    exact absurd hps (hno pre base post)
  · have hbase : base ∈ ps := by
      obtain ⟨k, hk⟩ : ∃ k, n.toNat = k + 1 := ⟨n.toNat - 1, by bv_omega⟩
      rw [hps, hk, pmmBlock_succ]
      simp
    exact ⟨base, s', hsome, fun _ => ⟨pre, base, post, hps⟩, fun _ => (h.page base hbase).ne_zero⟩

/-- Whether `pmm_alloc(n)` succeeds: the result is not the failure value. -/
def PmmSucceeds (hhdm : Word) (s : Pmm) (n : Word) : Prop :=
  ∃ p s', pmmAlloc hhdm s n = some (p, s') ∧ p ≠ 0

theorem FreeList.pmmSucceeds_iff {ps : List Word} (hh : HhdmOk hhdm) (hn : n ≠ 0)
    (h : FreeList hhdm s ps) :
    PmmSucceeds hhdm s n ↔ ∃ base, (pmmBlock base n.toNat).reverse <:+: ps := by
  obtain ⟨p, s', hrun, hiff⟩ := h.alloc_succeeds_iff hh hn
  rw [← hiff]
  constructor
  · rintro ⟨p', s'', hrun', hp⟩
    cases hrun.symm.trans hrun'
    exact hp
  · exact fun hp => ⟨p, s', hrun, hp⟩

/-- Contiguous allocation depends on the free list: in every state of every run `pmm_alloc(n)`
succeeds exactly when `n` consecutive pages stand on the list one behind the other, the highest
first. So two histories that end with the same list agree on it, and for one page two that end with
the same free pages. -/
theorem pmm_alloc_depends_on_list {hhdm : Word} (hh : HhdmOk hhdm)
    {memmap memmap' : List MemmapEntry} {claimable claimable' : Word → Prop}
    (hm : MemmapOk hhdm memmap claimable) (hm' : MemmapOk hhdm memmap' claimable')
    {mem mem' : ByteMem} {maxPhysAddr maxPhysAddr' : Word} {s s' : PmmRun}
    (hrun : Relation.ReflTransGen (PmmStep hhdm memmap claimable) (.start mem maxPhysAddr) s)
    (hrun' : Relation.ReflTransGen (PmmStep hhdm memmap' claimable') (.start mem' maxPhysAddr')
      s') :
    ∃ ps ps', FreeList hhdm s.pmm ps ∧ FreeList hhdm s'.pmm ps' ∧
      (∀ n, n ≠ 0 →
        (PmmSucceeds hhdm s.pmm n ↔ ∃ base, (pmmBlock base n.toNat).reverse <:+: ps)) ∧
      (ps = ps' → ∀ n, n ≠ 0 → (PmmSucceeds hhdm s.pmm n ↔ PmmSucceeds hhdm s'.pmm n)) ∧
      ((∀ p, p ∈ ps ↔ p ∈ ps') → (PmmSucceeds hhdm s.pmm 1 ↔ PmmSucceeds hhdm s'.pmm 1)) := by
  obtain ⟨ps, h⟩ := PmmRun.exists_owned hh hm hrun
  obtain ⟨ps', h'⟩ := PmmRun.exists_owned hh hm' hrun'
  refine ⟨ps, ps', h.free, h'.free, fun n hn => h.free.pmmSucceeds_iff hh hn, ?_, ?_⟩
  · rintro rfl n hn
    rw [h.free.pmmSucceeds_iff hh hn, h'.free.pmmSucceeds_iff hh hn]
  · intro hsame
    have hone : ∀ l : List Word, (∃ base, (pmmBlock base (1 : Word).toNat).reverse <:+: l) ↔
        ∃ p, p ∈ l := fun l => by simp [pmmBlock, List.singleton_infix_iff]
    rw [h.free.pmmSucceeds_iff hh (by decide), h'.free.pmmSucceeds_iff hh (by decide), hone, hone]
    simp only [hsame]

/-- A machine with two usable pages. -/
def twoPages : List MemmapEntry := [⟨0x1000, 0x2000, limineMemmapUsable⟩]

theorem twoPages_ok : MemmapOk exampleHhdm twoPages (· = limineMemmapUsable) :=
  ⟨by decide, by simp [twoPages]⟩

/-- Both pages are claimed. -/
def twoClaimed : PmmRun :=
  { pmm := (pmmClaim exampleHhdm twoPages emptyPmm limineMemmapUsable).2, live := []
    pages := claimPages twoPages limineMemmapUsable ++ [], claimed := [limineMemmapUsable] }

/-- The allocator after one request for one page, and after two: the first gets page two. -/
def oneTaken : Pmm := ((pmmAlloc exampleHhdm twoClaimed.pmm 1).getD (0, emptyPmm)).2

def twoTaken : Pmm := ((pmmAlloc exampleHhdm oneTaken 1).getD (0, emptyPmm)).2

/-- Both pages are freed again, `p` first. -/
def freedAgain (p q : Word) : Pmm := pmmFree exampleHhdm (pmmFree exampleHhdm twoTaken p 1) q 1

theorem twoClaimed_step : PmmStep exampleHhdm twoPages (· = limineMemmapUsable)
    (.start (fun _ => 0) 0) twoClaimed :=
  .claim _ _ rfl (by simp [PmmRun.start])

theorem freedAgain_run {p q : Word} (hpq : (p = 0x2000 ∧ q = 0x1000) ∨ (p = 0x1000 ∧ q = 0x2000)) :
    ∃ s : PmmRun, s.pmm = freedAgain p q ∧
      Relation.ReflTransGen (PmmStep exampleHhdm twoPages (· = limineMemmapUsable)) twoClaimed s := by
  have hfirst : pmmAlloc exampleHhdm twoClaimed.pmm 1 = some (0x2000, oneTaken) :=
    Loop.eq_some_of_map_fst (by decide +kernel)
  have hsecond : pmmAlloc exampleHhdm oneTaken 1 = some (0x1000, twoTaken) :=
    Loop.eq_some_of_map_fst (by decide +kernel)
  refine ⟨_, rfl, .tail (.tail (.tail (.single (.alloc twoClaimed 1 0x2000 oneTaken (by decide)
    hfirst)) (.alloc _ 1 0x1000 twoTaken (by decide) hsecond)) (.free _ p 1 ?_)) (.free _ q 1 ?_)⟩
  · rcases hpq with ⟨rfl, rfl⟩ | ⟨rfl, rfl⟩ <;> simp [pmmBlock]
  · rcases hpq with ⟨rfl, rfl⟩ | ⟨rfl, rfl⟩ <;> simp [pmmBlock]

/-- A list of both pages. -/
theorem twoPages_list {pmm : Pmm} {p q : Word} (hp : IsPage exampleHhdm p) (hq : IsPage exampleHhdm q)
    (hlinks : pmm.freeListHead = pmmPhysToVirt exampleHhdm p ∧
      pmm.next (pmmPhysToVirt exampleHhdm p) = pmmPhysToVirt exampleHhdm q ∧
      pmm.next (pmmPhysToVirt exampleHhdm q) = 0) : FreeList exampleHhdm pmm [p, q] :=
  ⟨⟨hlinks.1, hp.virt_ne_zero, hlinks.2.1, hq.virt_ne_zero, Links.nil_iff.mpr hlinks.2.2⟩,
    List.forall_mem_cons.mpr ⟨hp, List.forall_mem_singleton.mpr hq⟩⟩

theorem twoPages_isPage : IsPage exampleHhdm 0x1000 ∧ IsPage exampleHhdm 0x2000 :=
  ⟨⟨by decide, by decide, by decide⟩, by decide, by decide, by decide⟩

/-- Two histories of the claimed pages that end with the same list: nothing else happens, or both are
taken and freed again in the order that restores the list. -/
theorem pmm_alloc_depends_on_list_freed_again : ∃ s : PmmRun, s.pmm = freedAgain 0x1000 0x2000 ∧
    Relation.ReflTransGen (PmmStep exampleHhdm twoPages (· = limineMemmapUsable))
      (.start (fun _ => 0) 0) twoClaimed ∧
    Relation.ReflTransGen (PmmStep exampleHhdm twoPages (· = limineMemmapUsable))
      (.start (fun _ => 0) 0) s ∧
    FreeList exampleHhdm twoClaimed.pmm [0x2000, 0x1000] ∧
    FreeList exampleHhdm s.pmm [0x2000, 0x1000] ∧
    PmmSucceeds exampleHhdm twoClaimed.pmm 2 ∧ PmmSucceeds exampleHhdm s.pmm 2 := by
  obtain ⟨hone, htwo⟩ := twoPages_isPage
  obtain ⟨s', hpmm, hrun⟩ := freedAgain_run (p := 0x1000) (q := 0x2000) (Or.inr ⟨rfl, rfl⟩)
  have hlist : FreeList exampleHhdm twoClaimed.pmm [0x2000, 0x1000] :=
    twoPages_list htwo hone (by decide +kernel)
  have hlist' : FreeList exampleHhdm s'.pmm [0x2000, 0x1000] :=
    hpmm ▸ twoPages_list htwo hone (by decide +kernel)
  obtain ⟨ps, ps', hfree, hfree', hiff, hsame, -⟩ := pmm_alloc_depends_on_list exampleHhdm_ok
    twoPages_ok twoPages_ok (.single twoClaimed_step) (.head twoClaimed_step hrun)
  obtain rfl := hfree.unique hlist
  obtain rfl := hfree'.unique hlist'
  have hboth : PmmSucceeds exampleHhdm twoClaimed.pmm 2 :=
    (hiff 2 (by decide)).mpr ⟨0x1000, [], [], by decide⟩
  exact ⟨s', hpmm, .single twoClaimed_step, .head twoClaimed_step hrun, hlist, hlist', hboth,
    (hsame rfl 2 (by decide)).mp hboth⟩

/-- The same two pages are free in both states, but on the second list they stand in ascending order,
and a request for both fails. -/
theorem pmm_alloc_depends_on_order : ∃ s s' : PmmRun,
    Relation.ReflTransGen (PmmStep exampleHhdm twoPages (· = limineMemmapUsable))
      (.start (fun _ => 0) 0) s ∧
    Relation.ReflTransGen (PmmStep exampleHhdm twoPages (· = limineMemmapUsable))
      (.start (fun _ => 0) 0) s' ∧
    FreeList exampleHhdm s.pmm [0x2000, 0x1000] ∧ FreeList exampleHhdm s'.pmm [0x1000, 0x2000] ∧
    PmmSucceeds exampleHhdm s.pmm 2 ∧ ¬ PmmSucceeds exampleHhdm s'.pmm 2 := by
  obtain ⟨hone, htwo⟩ := twoPages_isPage
  obtain ⟨s', hpmm, hrun⟩ := freedAgain_run (p := 0x2000) (q := 0x1000) (Or.inl ⟨rfl, rfl⟩)
  have hdown : FreeList exampleHhdm twoClaimed.pmm [0x2000, 0x1000] :=
    twoPages_list htwo hone (by decide +kernel)
  have hup : FreeList exampleHhdm s'.pmm [0x1000, 0x2000] :=
    hpmm ▸ twoPages_list hone htwo (by decide +kernel)
  refine ⟨twoClaimed, s', .single twoClaimed_step, .head twoClaimed_step hrun, hdown, hup, ?_, ?_⟩
  · rw [hdown.pmmSucceeds_iff exampleHhdm_ok (by decide)]
    exact ⟨0x1000, [], [], by decide⟩
  · rintro ⟨p, pmm, halloc, hp⟩
    have hnull : (pmmAlloc exampleHhdm (freedAgain 0x2000 0x1000) 2).map Prod.fst = some 0 := by decide +kernel
    rw [← hpmm, halloc] at hnull
    exact hp (Option.some.inj hnull)

end Pros
