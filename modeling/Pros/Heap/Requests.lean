import Pros.Heap.Runs
import Pros.Lib.Loop

/-!
# Which requests the heap serves

When `kmalloc` turns to the page allocator, when it fails, and what a resize that fails leaves
behind. All of it is read off the outcomes of the two functions on the list of blocks.

A block that was handed out and freed again has at least the size that was asked for, whatever it
was cut from and merged with. So a request that is made and freed over and over is served from the
list, and the page allocator is not asked again.

A resize first merges the block with the free blocks after it and only then finds out that it needs
a new block. When there is none, the merged blocks are not given back.
-/

namespace Pros

open HeapBlk

/-- The states of the runs of the heap, each from its own `heap_init`. -/
def HeapReachable (hhdm : Word) (s : HeapRun) : Prop :=
  ∃ pmm mem heap, PmmAnswers hhdm [] pmm ∧ heapInit hhdm pmm mem = some heap ∧
    Relation.ReflTransGen (HeapStep hhdm) { heap, live := [] } s

/-- What happens to memory between two calls: owners write into their payloads, and memory outside
the pages of the heap changes at will. -/
inductive OwnersStep (hhdm : Word) : HeapRun → HeapRun → Prop
  | write (s : HeapRun) (p n x : Word) (v : BitVec 8) : (p, n) ∈ s.live →
      (x - p).toNat < n.toNat →
      OwnersStep hhdm s { s with heap := { s.heap with mem := s.heap.mem.store8 x v } }
  | elsewhere (s : HeapRun) (mem : ByteMem) :
      (∀ x, InPages hhdm s.heap.pages x.toNat → mem x = s.heap.mem x) →
      OwnersStep hhdm s { s with heap := { s.heap with mem } }

/-- `kmalloc(size)` returns `p` and `p` is freed, with no other call of the heap in between or
before the state `s'`. -/
def MallocFree (hhdm : Word) (pmm : Word → Word) (size p : Word) (s s' : HeapRun) : Prop :=
  ∃ heap₁ s₁ heap₂, kmalloc hhdm pmm s.heap size = some (p, heap₁) ∧
    Relation.ReflTransGen (OwnersStep hhdm) { heap := heap₁, live := s.afterAlloc p size } s₁ ∧
    kfree s₁.heap p = some heap₂ ∧
    Relation.ReflTransGen (OwnersStep hhdm) { heap := heap₂, live := s₁.drop p } s'

/-- The block lists of both heaps have the same addresses in the same order, with the same sizes
and flags. -/
def SameBlocks (s s' : Heap) : Prop :=
  ∃ as, Links s.next 0 s.heapBlockList as ∧ Links s'.next 0 s'.heapBlockList as ∧
    ∀ a ∈ as, s'.size a = s.size a ∧ s'.isFree a = s.isFree a

/-- The block after `b` is free and starts where `b` ends, but `b` with all that it can take over
is too small for `size` bytes, and there is no other block to be had. -/
def LosesNeighbours (pmm : Word → Word) (pre : List HeapBlk) (b : HeapBlk) (post : List HeapBlk)
    (size : Word) : Prop :=
  (∃ c rest, post = c :: rest ∧ c.free = true ∧ b.stop = c.addr) ∧
    ¬ size > sizeMax - (heapAlignment - 1) ∧ (absorb b post).1.size < roundSize size.toNat ∧
    (BitVec.ofNat 64 (roundSize size.toNat) > kmallocLimit ∨
      (∀ c ∈ pre ++ (absorb b post).2, ¬ Fits (roundSize size.toNat) c) ∧
        pmm (kmallocPages (roundSize size.toNat)) = 0)

variable {hhdm p q size : Word} {pmm : Word → Word} {s s' : HeapRun} {heap heap' : Heap}
  {b : HeapBlk} {bs bs' pre post : List HeapBlk} {n : ℕ}

theorem HeapReachable.exists_inv (hh : HhdmOk hhdm) (h : HeapReachable hhdm s) :
    ∃ bs, s.Inv hhdm bs := by
  obtain ⟨pmm, mem, heap, hpmm, hinit, hrun⟩ := h
  exact HeapRun.exists_inv hh hpmm hinit hrun

theorem HeapReachable.tail (h : HeapReachable hhdm s) (hstep : HeapStep hhdm s s') :
    HeapReachable hhdm s' := by
  obtain ⟨pmm, mem, heap, hpmm, hinit, hrun⟩ := h
  exact ⟨pmm, mem, heap, hpmm, hinit, hrun.tail hstep⟩

/-- A page allocator that always fails answers as it should. -/
theorem pmmAnswers_none (hhdm : Word) (pages : List Word) : PmmAnswers hhdm pages fun _ => 0 :=
  fun _ _ => Or.inl rfl

/-! ## Requests -/

theorem MallocOutcome.null_iff (hout : MallocOutcome hhdm pmm heap bs size p heap' bs')
    (hl : Layout bs) :
    p = 0 ↔ size > kmallocLimit ∨ (∀ b ∈ bs, ¬ Fits (roundSize size.toNat) b) ∧
      pmm (kmallocPages (roundSize size.toNat)) = 0 := by
  cases hout with
  | refused hlim => exact iff_of_true rfl (Or.inl hlim)
  | exhausted hlim hnone hfail => exact iff_of_true rfl (Or.inr ⟨hnone, hfail⟩)
  | found pre b post heap' hlim hbs _ hfit =>
    have hb : b ∈ bs := by simp [hbs]
    refine iff_of_false (hl.ok b hb).payload_ne_zero ?_
    rintro (hlim' | ⟨hnone, -⟩)
    · exact hlim hlim'
    · exact hnone b hb hfit
  | fresh pages b heap₀ heap' hlim _ hpages hne _ _ hinv₀ =>
    refine iff_of_false (hinv₀.layout.ok b List.mem_cons_self).payload_ne_zero ?_
    rintro (hlim' | ⟨-, hfail⟩)
    · exact hlim hlim'
    · exact hne (hpages ▸ hfail)

/-- With a block that fits in the list, or a request beyond the limit, the page allocator plays no
role. -/
theorem HeapInv.kmalloc_congr (h : HeapInv hhdm heap bs)
    (hserved : size > kmallocLimit ∨ ∃ b ∈ bs, Fits (roundSize size.toNat) b)
    (pmm pmm' : Word → Word) :
    Pros.kmalloc hhdm pmm heap size = Pros.kmalloc hhdm pmm' heap size := by
  unfold Pros.kmalloc
  by_cases hlim : size > kmallocLimit
  · rw [if_pos hlim, if_pos hlim]
  obtain ⟨b, hb, hfit⟩ := hserved.resolve_left hlim
  obtain ⟨hround, hbound⟩ := kmalloc_round hlim
  simp only [if_neg hlim, hround]
  rcases HeapInv.search walkBound h.repr.links h.repr.header h.layout.ok
    (show roundSize size.toNat < 2 ^ 64 by omega) h.repr.length_lt with
    ⟨-, hnone⟩ | ⟨pre, c, post, rfl, -, -, hsome⟩
  · exact absurd hfit (hnone b hb)
  · have hne : c.ptr ≠ 0 := (h.layout.ok c (by simp)).ptr_ne_zero
    simp only [hsome, Option.bind_eq_bind, Option.bind_some, if_pos hne]

/-- The page allocator is asked for one number of pages only. -/
theorem kmalloc_congr_pages {pmm' : Word → Word}
    (heq : pmm (kmallocPages (roundSize size.toNat)) = pmm' (kmallocPages (roundSize size.toNat))) :
    kmalloc hhdm pmm heap size = kmalloc hhdm pmm' heap size := by
  unfold kmalloc
  by_cases hlim : size > kmallocLimit
  · rw [if_pos hlim, if_pos hlim]
  obtain ⟨hround, -⟩ := kmalloc_round hlim
  rw [kmallocPages] at heq
  simp only [if_neg hlim, hround, heq]

/-- A request that a block of the list fits is served from the list, and takes no pages. -/
theorem HeapInv.kmalloc_served (hh : HhdmOk hhdm) (h : HeapInv hhdm heap bs)
    (hlim : ¬ size > kmallocLimit) (hfit : ∃ b ∈ bs, Fits (roundSize size.toNat) b)
    (pmm : Word → Word) :
    ∃ p heap' bs', Pros.kmalloc hhdm pmm heap size = some (p, heap') ∧ p ≠ 0 ∧
      heap'.pages = heap.pages ∧ HeapInv hhdm heap' bs' ∧ Kept 0 bs bs' ∧
      Holds bs' p (roundSize size.toNat) ∧ ∀ c ∈ bs, c.free = false → c.payload ≠ p := by
  rw [h.kmalloc_congr (Or.inr hfit) pmm fun _ => 0]
  obtain ⟨p, heap', bs', hsome, hinv, hout⟩ :=
    h.kmalloc_outcome hh (pmmAnswers_none hhdm heap.pages) size
  have hpages : heap'.pages = heap.pages := by
    cases hout with
    | refused => rfl
    | exhausted => rfl
    | found _ _ _ _ _ _ _ _ hw => exact hw.pages
    | fresh _ _ _ _ _ _ _ hne => exact absurd rfl hne
  have hne : p ≠ 0 := by
    rw [Ne, hout.null_iff h.layout]
    rintro (hlim' | ⟨hnone, -⟩)
    · exact hlim hlim'
    · obtain ⟨b, hb, hb'⟩ := hfit
      exact hnone b hb hb'
  rcases hout.allocated h.layout with ⟨h0, -⟩ | ⟨-, hrest⟩
  · exact absurd h0 hne
  · exact ⟨p, heap', bs', hsome, hne, hpages, hinv, hrest⟩

/-- A block that is freed fits whatever it held. -/
theorem HeapInv.kfree_fits (h : HeapInv hhdm heap bs) (hp : Holds bs p n) :
    ∃ heap' bs', Pros.kfree heap p = some heap' ∧ HeapInv hhdm heap' bs' ∧ Kept p bs bs' ∧
      heap'.pages = heap.pages ∧ ∃ b ∈ bs', Fits n b := by
  obtain ⟨b, hb, -, rfl, hn⟩ := hp
  obtain ⟨pre, post, rfl⟩ := List.append_of_mem hb
  obtain ⟨heap', hsome, hinv, hw⟩ := h.kfree_list
  obtain ⟨⟨-, hfree⟩, hsize⟩ := @absorb_fst post { b with free := true }
  exact ⟨heap', _, hsome, hinv, kept_coalesceAt_free, hw.pages, _,
    List.mem_append_right _ List.mem_cons_self, hfree, hn.trans hsize⟩

/-! ## Repeated requests -/

/-- Memory changes between two calls leave the blocks and the pages alone. -/
theorem OwnersStep.run (hrun : Relation.ReflTransGen (OwnersStep hhdm) s s')
    (h : s.Inv hhdm bs) :
    s'.Inv hhdm bs ∧ s'.heap.pages = s.heap.pages ∧ s'.live = s.live := by
  induction hrun with
  | refl => exact ⟨h, rfl, rfl⟩
  | tail _ hstep ih =>
    obtain ⟨hinv, hpages, hlive⟩ := ih
    cases hstep with
    | write p n x v hp hx => exact ⟨hinv.write hp hx, hpages, hlive⟩
    | elsewhere mem hmem => exact ⟨hinv.elsewhere hmem, hpages, hlive⟩

/-- A state in which a request for `size` bytes is served from the list. -/
structure Served (hhdm size : Word) (pages : List Word) (s : HeapRun) : Prop where
  below : ¬ size > kmallocLimit
  pages_eq : s.heap.pages = pages
  fits : ∃ bs, s.Inv hhdm bs ∧ ∃ b ∈ bs, Fits (roundSize size.toNat) b

/-- What is left of a pair of calls once the request was served. -/
theorem HeapRun.Inv.freeAgain (h : s.Inv hhdm bs) (hp : Holds bs p n)
    {s₁ : HeapRun} (hrun : Relation.ReflTransGen (OwnersStep hhdm) s s₁)
    (hfree : kfree s₁.heap p = some heap)
    (hrun' : Relation.ReflTransGen (OwnersStep hhdm) { heap, live := s₁.drop p } s') :
    s'.heap.pages = s.heap.pages ∧ ∃ bs', s'.Inv hhdm bs' ∧ ∃ b ∈ bs', Fits n b := by
  obtain ⟨hinv₁, hpages₁, -⟩ := OwnersStep.run hrun h
  obtain ⟨heap', bs₂, hfree', hinv₂, hkept₂, hpages₂, hfits⟩ := hinv₁.heap.kfree_fits hp
  rw [hfree, Option.some.injEq] at hfree'
  subst hfree'
  have h₂ : HeapRun.Inv hhdm { heap, live := s₁.drop p } bs₂ :=
    ⟨hinv₂, hinv₁.nodup_drop, hinv₁.holds_of_kept hkept₂⟩
  obtain ⟨hinv', hpages', -⟩ := OwnersStep.run hrun' h₂
  exact ⟨hpages'.trans (hpages₂.trans hpages₁), bs₂, hinv', hfits⟩

/-- Once a request was served and freed, the next one is served from the list. -/
theorem HeapRun.Inv.served (hh : HhdmOk hhdm) (h : s.Inv hhdm bs)
    (hpmm : PmmAnswers hhdm s.heap.pages pmm) (hpair : MallocFree hhdm pmm size p s s')
    (hne : p ≠ 0) : Served hhdm size s'.heap.pages s' := by
  obtain ⟨heap₁, s₁, heap₂, hmalloc, hrun₁, hfree, hrun₂⟩ := hpair
  obtain ⟨p', heap₁', bs₁, hsome, hinv, hout⟩ := h.heap.kmalloc_outcome hh hpmm size
  rw [hmalloc, Option.some.injEq, Prod.mk.injEq] at hsome
  obtain ⟨rfl, rfl⟩ := hsome
  have hlim : ¬ size > kmallocLimit := fun hlim =>
    hne ((hout.null_iff h.heap.layout).mpr (Or.inl hlim))
  rcases hout.allocated h.heap.layout with ⟨h0, -⟩ | ⟨-, hkept, hholds, hnew⟩
  · exact absurd h0 hne
  have h₁ := h.allocated hinv hne hkept (hholds.mono (le_roundSize _)) hnew
  exact ⟨hlim, rfl, (h₁.freeAgain hholds hrun₁ hfree hrun₂).2⟩

/-- Another pair of calls changes nothing about that, whatever the page allocator would say. -/
theorem Served.step (hh : HhdmOk hhdm) {pages : List Word} (h : Served hhdm size pages s)
    (hpair : MallocFree hhdm pmm size p s s') : Served hhdm size pages s' := by
  obtain ⟨heap₁, s₁, heap₂, hmalloc, hrun₁, hfree, hrun₂⟩ := hpair
  obtain ⟨bs, hinv, hfits⟩ := h.fits
  obtain ⟨p', heap₁', bs₁, hsome, hne, hpages, hinv₁, hkept, hholds, hnew⟩ :=
    hinv.heap.kmalloc_served hh h.below hfits pmm
  rw [hmalloc, Option.some.injEq, Prod.mk.injEq] at hsome
  obtain ⟨rfl, rfl⟩ := hsome
  have h₁ := hinv.allocated hinv₁ hne hkept (hholds.mono (le_roundSize _)) hnew
  obtain ⟨hpages', hfits'⟩ := h₁.freeAgain hholds hrun₁ hfree hrun₂
  exact ⟨h.below, hpages'.trans (hpages.trans h.pages_eq), hfits'⟩

/-- Any number of pairs, by induction on them. -/
theorem Served.run (hh : HhdmOk hhdm) {pages : List Word} (h : Served hhdm size pages s)
    (hrun : Relation.ReflTransGen (fun s s' => ∃ pmm p, MallocFree hhdm pmm size p s s') s s') :
    Served hhdm size pages s' := by
  induction hrun with
  | refl => exact h
  | tail _ hpair ih =>
    obtain ⟨pmm, p, hpair⟩ := hpair
    exact ih.step hh hpair

/-- In such a state the request is served without pages, and the block can be freed. -/
theorem Served.next (hh : HhdmOk hhdm) {pages : List Word} (h : Served hhdm size pages s)
    (pmm : Word → Word) :
    ∃ p heap, kmalloc hhdm pmm s.heap size = some (p, heap) ∧ p ≠ 0 ∧ heap.pages = pages ∧
      ∀ s', Relation.ReflTransGen (OwnersStep hhdm) { heap, live := s.afterAlloc p size } s' →
        ∃ heap', kfree s'.heap p = some heap' := by
  obtain ⟨bs, hinv, hfits⟩ := h.fits
  obtain ⟨p, heap, bs₁, hsome, hne, hpages, hinv₁, hkept, hholds, hnew⟩ :=
    hinv.heap.kmalloc_served hh h.below hfits pmm
  refine ⟨p, heap, hsome, hne, hpages.trans h.pages_eq, fun s' hrun => ?_⟩
  have h₁ := hinv.allocated hinv₁ hne hkept (hholds.mono (le_roundSize _)) hnew
  obtain ⟨hinv', -, -⟩ := OwnersStep.run hrun h₁
  obtain ⟨heap', -, hfree, -⟩ := hinv'.heap.kfree hholds
  exact ⟨heap', hfree⟩

/-! ## The size computations -/

/-- The computations of `kmalloc` for a request of `size` bytes, each read over the integers: the
sum in `HEAP_ALIGN_UP`, the rounded size, the sum and the quotient of the page count, the size of
the pages and of the payload in them, and the sum in the test of `heap_block_split`. -/
structure KmallocExact (size : Word) : Prop where
  alignUp : size.toNat + heapAlignment.toNat < 2 ^ 64
  round : (if heapAlignUp size heapAlignment = 0 then heapAlignment
    else heapAlignUp size heapAlignment).toNat = roundSize size.toNat
  pageSum : heapHeaderSize.toNat + roundSize size.toNat + pageSize.toNat < 2 ^ 64
  pageCount : (kmallocPages (roundSize size.toNat)).toNat =
    (heapHeaderSize.toNat + roundSize size.toNat + pageSize.toNat - 1) / pageSize.toNat
  pageBytes : (kmallocPages (roundSize size.toNat)).toNat * pageSize.toNat < 2 ^ 64
  payload : heapHeaderSize.toNat + roundSize size.toNat ≤
    (kmallocPages (roundSize size.toNat)).toNat * pageSize.toNat
  splitTest : roundSize size.toNat + heapHeaderSize.toNat + heapAlignment.toNat < 2 ^ 64

theorem kmallocExact (hlim : ¬ size > kmallocLimit) : KmallocExact size := by
  obtain ⟨hround, hbound⟩ := kmalloc_round hlim
  have hlimit : kmallocLimit = 18446744073709547471 := by decide
  have hheader : heapHeaderSize.toNat = 32 := by decide
  have halign : heapAlignment.toNat = 16 := by decide
  have hpage : pageSize.toNat = 4096 := by decide
  have hpages := kmalloc_pages hbound
  rw [hlimit] at hlim
  have hle : size.toNat ≤ 18446744073709547471 := by bv_omega
  have hsum : roundSize size.toNat + 4128 < 2 ^ 64 := by
    simp only [roundSize]
    omega
  refine ⟨by omega, ?_, by omega, ?_, ?_, ?_, by omega⟩
  · rw [hround, BitVec.toNat_ofNat, Nat.mod_eq_of_lt (by omega)]
  all_goals
    simp only [hheader, hpage, hpages]
    omega

/-! ## Requests in every state of every run -/

/-- With `n` the request rounded up to 16, and at least 16: `kmalloc` fails exactly when the request
is beyond its limit, or no block of the list fits `n` bytes and the page allocator has no run of the
computed number of pages. It does not depend on the page allocator when a block fits, and then has
the pages that it had; otherwise it depends on the answer for that number only. None of its
computations wraps: those of the sizes are exact, and the list that cutting and merging leave in
memory is the one computed with natural numbers. After a request was served and freed, any number of
further requests of that size, each freed again, are served without a page. -/
theorem kmalloc_asks_pmm_when_it_must (hh : HhdmOk hhdm) (hs : HeapReachable hhdm s)
    (size : Word) :
    ∃ bs : List HeapBlk, HeapRepr s.heap bs ∧
      (∀ pmm, PmmAnswers hhdm s.heap.pages pmm →
        ∃ p heap, kmalloc hhdm pmm s.heap size = some (p, heap) ∧
          (p = 0 ↔ size > kmallocLimit ∨ (∀ b ∈ bs, ¬ Fits (roundSize size.toNat) b) ∧
            pmm (kmallocPages (roundSize size.toNat)) = 0) ∧
          (p ≠ 0 → ∃ pre b post,
            ((∃ c ∈ bs, Fits (roundSize size.toNat) c) ∧ bs = pre ++ b :: post ∨
              (∀ c ∈ bs, ¬ Fits (roundSize size.toNat) c) ∧ pre = [] ∧ post = bs ∧
                b = pageBlk hhdm (pmm (kmallocPages (roundSize size.toNat)))
                  (kmallocPages (roundSize size.toNat)).toNat) ∧
            Fits (roundSize size.toNat) b ∧ p = b.payload ∧ b.stop ≤ 2 ^ 64 ∧
            HeapRepr heap (pre ++ takeAt b (roundSize size.toNat) post) ∧
            ∀ c ∈ pre ++ takeAt b (roundSize size.toNat) post, c.stop ≤ 2 ^ 64)) ∧
      ((∃ b ∈ bs, Fits (roundSize size.toNat) b) → ∀ pmm pmm' p heap,
        kmalloc hhdm pmm s.heap size = some (p, heap) →
          kmalloc hhdm pmm' s.heap size = some (p, heap) ∧ heap.pages = s.heap.pages) ∧
      (∀ pmm pmm' : Word → Word, pmm (kmallocPages (roundSize size.toNat)) =
          pmm' (kmallocPages (roundSize size.toNat)) →
        kmalloc hhdm pmm s.heap size = kmalloc hhdm pmm' s.heap size) ∧
      (¬ size > kmallocLimit → KmallocExact size) ∧
      ∀ pmm p s₁, PmmAnswers hhdm s.heap.pages pmm → MallocFree hhdm pmm size p s s₁ → p ≠ 0 →
        ∀ s₂, Relation.ReflTransGen (fun s s' => ∃ pmm p, MallocFree hhdm pmm size p s s') s₁ s₂ →
          s₂.heap.pages = s₁.heap.pages ∧
          ∀ pmm', ∃ q heap, kmalloc hhdm pmm' s₂.heap size = some (q, heap) ∧ q ≠ 0 ∧
            heap.pages = s₁.heap.pages ∧
            ∀ s₃, Relation.ReflTransGen (OwnersStep hhdm)
                { heap, live := s₂.afterAlloc q size } s₃ →
              ∃ heap', kfree s₃.heap q = some heap' := by
  obtain ⟨bs, h⟩ := hs.exists_inv hh
  refine ⟨bs, h.heap.repr, fun pmm hpmm => ?_, fun hfits pmm pmm' p heap hsome => ?_,
    fun _ _ => kmalloc_congr_pages, kmallocExact, fun pmm p s₁ hpmm hpair hne s₂ hrun => ?_⟩
  · obtain ⟨p, heap, bs', hsome, hinv, hout⟩ := h.heap.kmalloc_outcome hh hpmm size
    refine ⟨p, heap, hsome, hout.null_iff h.heap.layout, fun hne => ?_⟩
    cases hout with
    | refused => exact absurd rfl hne
    | exhausted => exact absurd rfl hne
    | found pre b post heap _ hbs _ hfit =>
      have hb : b ∈ bs := by simp [hbs]
      exact ⟨pre, b, post, Or.inl ⟨⟨b, hb, hfit⟩, hbs⟩, hfit, rfl, (h.heap.layout.ok b hb).stop_le,
        hinv.repr, fun c hc => (hinv.layout.ok c hc).stop_le⟩
    | fresh pages b heap₀ heap _ hnone hpages _ hb hfit hinv₀ =>
      refine ⟨[], b, bs, Or.inr ⟨hnone, rfl, rfl, hpages ▸ hb⟩, hfit, rfl, ?_,
        hinv.repr, fun c hc => (hinv.layout.ok c hc).stop_le⟩
      exact (hinv₀.layout.ok b List.mem_cons_self).stop_le
  · refine ⟨(h.heap.kmalloc_congr (Or.inr hfits) pmm' pmm).trans hsome, ?_⟩
    by_cases hlim : size > kmallocLimit
    · unfold kmalloc at hsome
      rw [if_pos hlim] at hsome
      cases hsome
      rfl
    · obtain ⟨p', heap', -, hsome', -, hpages, -⟩ := h.heap.kmalloc_served hh hlim hfits pmm
      rw [hsome, Option.some.injEq, Prod.mk.injEq] at hsome'
      rw [hsome'.2, hpages]
  · have hserved := (h.served hh hpmm hpair hne).run hh hrun
    exact ⟨hserved.pages_eq, fun pmm' => hserved.next hh pmm'⟩

theorem onePageHeap_reachable : HeapReachable exampleHhdm { heap := onePageHeap, live := [] } :=
  ⟨onePage, fun _ => 0, onePageHeap, onePage_answers, onePageHeap_init, .refl⟩

/-- 2000 bytes of the one page are requested and freed; then they are requested again, with a page
allocator that has nothing left. -/
theorem kmalloc_asks_pmm_two_thousand :
    ∃ s₁, MallocFree exampleHhdm (fun _ => 0) 2000 0xffff800000001020
        { heap := onePageHeap, live := [] } s₁ ∧
      ∃ q heap, kmalloc exampleHhdm (fun _ => 0) s₁.heap 2000 = some (q, heap) ∧ q ≠ 0 ∧
        heap.pages = s₁.heap.pages := by
  have hmalloc : (kmalloc exampleHhdm (fun _ => 0) onePageHeap 2000).map Prod.fst =
      some 0xffff800000001020 := by decide +kernel
  obtain ⟨⟨p, heap₁⟩, hsome, hp⟩ := Option.map_eq_some_iff.mp hmalloc
  obtain rfl : p = 0xffff800000001020 := hp
  obtain ⟨bs, -, -, -, -, -, hpairs⟩ :=
    kmalloc_asks_pmm_when_it_must exampleHhdm_ok onePageHeap_reachable 2000
  have hfree : ((kmalloc exampleHhdm (fun _ => 0) onePageHeap 2000).bind
      fun r => kfree r.2 r.1).isSome = true := by decide +kernel
  rw [hsome, Option.bind_some, Option.isSome_iff_exists] at hfree
  obtain ⟨heap₂, hheap₂⟩ := hfree
  have hpair : MallocFree exampleHhdm (fun _ => 0) 2000 0xffff800000001020
      { heap := onePageHeap, live := [] } { heap := heap₂, live := _ } :=
    ⟨heap₁, _, heap₂, hsome, Relation.ReflTransGen.refl, hheap₂, Relation.ReflTransGen.refl⟩
  obtain ⟨-, hnext⟩ := hpairs _ _ _ (pmmAnswers_none _ _) hpair (by decide) _
    Relation.ReflTransGen.refl
  obtain ⟨q, heap, hq, hne, hpages, -⟩ := hnext fun _ => 0
  exact ⟨_, hpair, q, heap, hq, hne, hpages⟩

/-! ## Resizes that fail -/

/-- A request for `size` bytes gets a block. -/
def Serves (hhdm : Word) (pmm : Word → Word) (heap : Heap) (size : Word) : Prop :=
  ∃ p heap', kmalloc hhdm pmm heap size = some (p, heap') ∧ p ≠ 0

/-- Merging changes the list exactly when the next block is free and starts where this one ends. -/
theorem HeapBlk.coalesceAt_eq_iff :
    coalesceAt b post = b :: post ↔
      ¬ ∃ c rest, post = c :: rest ∧ c.free = true ∧ b.stop = c.addr := by
  cases post with
  | nil => exact iff_of_true rfl (by simp)
  | cons c post =>
    rw [coalesceAt, absorb]
    by_cases hc : c.free = true ∧ b.stop = c.addr
    · rw [if_pos hc]
      refine iff_of_false (fun heq => ?_) (not_not.mpr ⟨c, post, rfl, hc⟩)
      -- at least one block is gone
      have hlen := congrArg List.length heq
      have hle := (@absorb_snd_suffix post { b with size := b.size + (32 + c.size) }).length_le
      simp only [List.length_cons] at hlen
      omega
    · rw [if_neg hc]
      refine iff_of_true rfl ?_
      rintro ⟨c', rest, heq, hc'⟩
      obtain ⟨rfl, rfl⟩ := List.cons.inj heq
      exact hc hc'

/-- The list in memory is determined by memory. -/
theorem HeapInv.sameBlocks_iff (h : HeapInv hhdm heap bs) (h' : HeapInv hhdm heap' bs') :
    SameBlocks heap heap' ↔ bs = bs' := by
  constructor
  · rintro ⟨as, has, has', heq⟩
    have hptr : bs.map HeapBlk.ptr = bs'.map HeapBlk.ptr := by
      rw [h.repr.links.unique has, h'.repr.links.unique has']
    have has := h.repr.links.unique has
    refine List.ext_getElem (by simpa using congrArg List.length hptr) fun i hi hi' => ?_
    have hb := List.getElem_mem hi
    have hb' := List.getElem_mem hi'
    have hok := h.layout.ok _ hb
    have hok' := h'.layout.ok _ hb'
    have hiptr : bs[i].ptr = bs'[i].ptr := by
      have hget := congrArg (fun l : List Word => l[i]?) hptr
      simpa [hi, hi'] using hget
    obtain ⟨hsize, hfree⟩ := heq bs[i].ptr (has ▸ List.mem_map_of_mem hb)
    have haddr : bs[i].addr = bs'[i].addr := by
      rw [← hok.toNat_ptr, ← hok'.toNat_ptr, hiptr]
    have hsizeNat : bs[i].size = bs'[i].size := by
      rw [← hok.toNat_size, ← hok'.toNat_size, ← (h.repr.header _ hb).size,
        ← (h'.repr.header _ hb').size, ← hsize, hiptr]
    have hfreeEq : bs[i].free = bs'[i].free := by
      rw [← (h.repr.header _ hb).isFree, ← (h'.repr.header _ hb').isFree, ← hfree, hiptr]
    cases hbi : bs[i]
    cases hbi' : bs'[i]
    simp_all
  · rintro rfl
    refine ⟨bs.map HeapBlk.ptr, h.repr.links, h'.repr.links, fun a ha => ?_⟩
    obtain ⟨b, hb, rfl⟩ := List.mem_map.mp ha
    rw [(h.repr.header b hb).size, (h'.repr.header b hb).size, (h.repr.header b hb).isFree,
      (h'.repr.header b hb).isFree]
    exact ⟨rfl, rfl⟩

/-- Heaps with the same blocks serve the same requests. -/
theorem HeapInv.serves_congr (hh : HhdmOk hhdm) (h : HeapInv hhdm heap bs)
    (h' : HeapInv hhdm heap' bs) (hpages : heap'.pages = heap.pages)
    (hpmm : PmmAnswers hhdm heap.pages pmm) (hserves : Serves hhdm pmm heap size) :
    Serves hhdm pmm heap' size := by
  obtain ⟨p, heap₁, hsome, hne⟩ := hserves
  obtain ⟨p₁, heap₁', bs₁, hsome₁, -, hout⟩ := h.kmalloc_outcome hh hpmm size
  obtain ⟨p₂, heap₂, bs₂, hsome₂, -, hout₂⟩ := h'.kmalloc_outcome hh (hpages ▸ hpmm) size
  rw [hsome, Option.some.injEq, Prod.mk.injEq] at hsome₁
  refine ⟨p₂, heap₂, hsome₂, ?_⟩
  rw [Ne, hout₂.null_iff h.layout, ← hout.null_iff h.layout, ← hsome₁.1]
  exact hne

theorem roundSize_roundSize (n : ℕ) : roundSize (roundSize n) = roundSize n := by
  simp only [roundSize]
  omega

/-- The blocks that the nested `kmalloc` can take are those other than the resized one. -/
theorem fits_coalesceAt_iff (hfree : b.free = false) :
    (∀ c ∈ pre ++ coalesceAt b post, ¬ Fits n c) ↔
      ∀ c ∈ pre ++ (absorb b post).2, ¬ Fits n c := by
  have hgfree : (absorb b post).1.free = false := (absorb_fst.1.2).trans hfree
  have hg : ¬ Fits n (absorb b post).1 := fun hfit => by
    rw [hfit.1] at hgfree
    cases hgfree
  simp only [coalesceAt, List.mem_append, List.mem_cons, or_imp, forall_and, forall_eq]
  exact ⟨fun hall => ⟨hall.1, hall.2.2⟩, fun hall => ⟨hall.1, hg, hall.2⟩⟩

/-- A resize that fails leaves the list as it was, or has merged the block with its neighbours. -/
theorem ReallocOutcome.failed (hout : ReallocOutcome hhdm pmm heap pre b post size q heap' bs')
    (hl : Layout (pre ++ b :: post)) (hfree : b.free = false) (hzero : size ≠ 0) :
    (q = 0 → bs' = pre ++ b :: post) ↔ ¬ LosesNeighbours pmm pre b post size := by
  have hbne := (hl.ok b (by simp)).payload_ne_zero
  have hround (hover : ¬ size > sizeMax - (heapAlignment - 1)) :
      (BitVec.ofNat 64 (roundSize size.toNat)).toNat = roundSize size.toNat := by
    rw [BitVec.toNat_ofNat, Nat.mod_eq_of_lt (HeapInv.krealloc_round hover hzero).2]
  cases hout with
  | refused hover => exact iff_of_true (fun _ => rfl) fun hloses => hloses.2.1 hover
  | inPlace heap' _ hfits =>
    refine iff_of_true (fun h0 => absurd h0 hbne) fun hloses => ?_
    have hgrown := (@absorb_fst post b).2
    have hsmall := hloses.2.2.1
    omega
  | grown heap' _ _ hfits =>
    refine iff_of_true (fun h0 => absurd h0 hbne) fun hloses => ?_
    have hsmall := hloses.2.2.1
    omega
  | stuck heap₁ hover hsmall hw hmalloc =>
    have hlost : (pre ++ coalesceAt b post = pre ++ b :: post) ↔
        ¬ ∃ c rest, post = c :: rest ∧ c.free = true ∧ b.stop = c.addr := by
      rw [List.append_cancel_left_eq, coalesceAt_eq_iff]
    have hnull := (hmalloc.null_iff hl.coalesceAt).mp rfl
    rw [hround hover, roundSize_roundSize, fits_coalesceAt_iff hfree] at hnull
    rw [forall_prop_of_true rfl, hlost, not_iff_not]
    exact ⟨fun hnext => ⟨hnext, hover, hsmall, hnull⟩, fun hloses => hloses.1⟩
  | moved heap₁ heap₂ heap' q pre₂ post₂ hover _ hinv₁ _ hmalloc hne =>
    refine iff_of_true (fun h0 => absurd h0 hne) fun hloses => hne ?_
    rw [hmalloc.null_iff hinv₁.layout, hround hover, roundSize_roundSize,
      fits_coalesceAt_iff hfree]
    exact hloses.2.2.2

/-- A resize of a live pointer to a size other than zero that fails leaves the block list as it was,
so that every request that could be served still can be, exactly when it does not lose the
neighbours of the block to it. -/
theorem krealloc_failure_keeps_list_iff (hh : HhdmOk hhdm) (hs : HeapReachable hhdm s)
    {request : Word} (hp : (p, request) ∈ s.live) (hpmm : PmmAnswers hhdm s.heap.pages pmm)
    (hzero : size ≠ 0) :
    ∃ pre b post q heap, HeapInv hhdm s.heap (pre ++ b :: post) ∧ b.payload = p ∧
      krealloc hhdm pmm s.heap p size = some (q, heap) ∧
      ((q = 0 → SameBlocks s.heap heap ∧ ∀ pmm' size', PmmAnswers hhdm s.heap.pages pmm' →
          Serves hhdm pmm' s.heap size' → Serves hhdm pmm' heap size') ↔
        ¬ LosesNeighbours pmm pre b post size) := by
  obtain ⟨bs, h⟩ := hs.exists_inv hh
  obtain ⟨b, hb, hfree, rfl, -⟩ := h.live _ hp
  obtain ⟨pre, post, rfl⟩ := List.append_of_mem hb
  obtain ⟨q, heap, bs', hsome, hinv, hout⟩ := h.heap.krealloc_outcome hh hpmm hfree hzero
  refine ⟨pre, b, post, q, heap, h.heap, rfl, hsome, ?_⟩
  have hpages : q = 0 → heap.pages = s.heap.pages := by
    intro h0
    cases hout with
    | refused => rfl
    | inPlace _ _ _ hw => exact hw.pages
    | grown _ _ _ _ hw => exact hw.pages
    | stuck _ _ _ hw => exact hw.pages
    | moved _ _ _ _ _ _ _ _ _ _ _ hne => exact absurd h0 hne
  rw [← hout.failed h.heap.layout hfree hzero]
  refine forall_congr' fun h0 => ?_
  rw [h.heap.sameBlocks_iff hinv]
  constructor
  · exact fun hsame => hsame.1.symm
  · rintro rfl
    exact ⟨rfl, fun pmm' size' hpmm' hserves =>
      h.heap.serves_congr hh hinv (hpages h0) hpmm' hserves⟩

/-- The heap with one page of which 64 bytes are in use. -/
def oneBlockHeap : Heap :=
  ((kmalloc exampleHhdm (fun _ => 0) onePageHeap 64).getD (0, onePageHeap)).2

theorem oneBlockHeap_step : HeapStep exampleHhdm { heap := onePageHeap, live := [] }
    { heap := oneBlockHeap, live := [(0xffff800000001020, 64)] } := by
  have hmalloc : kmalloc exampleHhdm (fun _ => 0) onePageHeap 64 =
      some (0xffff800000001020, oneBlockHeap) := Loop.eq_some_of_map_fst (by decide +kernel)
  exact HeapStep.kmalloc { heap := onePageHeap, live := [] } _ 64 0xffff800000001020 oneBlockHeap
    (pmmAnswers_none _ _) hmalloc

theorem oneBlockHeap_reachable :
    HeapReachable exampleHhdm { heap := oneBlockHeap, live := [(0xffff800000001020, 64)] } :=
  onePageHeap_reachable.tail oneBlockHeap_step

/-- A resize to 100000 bytes fails when there are no more pages, and leaves a list without the free
block after the one in use. -/
theorem krealloc_oneBlockHeap :
    ∃ heap, krealloc exampleHhdm (fun _ => 0) oneBlockHeap 0xffff800000001020 100000 =
        some (0, heap) ∧ ¬ SameBlocks oneBlockHeap heap ∧
      (kmalloc exampleHhdm (fun _ => 0) heap 100).map Prod.fst = some 0 := by
  let result := krealloc exampleHhdm (fun _ => 0) oneBlockHeap 0xffff800000001020 100000
  have hsome : result = some (0, (result.getD (0, oneBlockHeap)).2) :=
    Loop.eq_some_of_map_fst (by decide +kernel)
  refine ⟨_, hsome, ?_, by decide +kernel⟩
  rintro ⟨as, has, has', -⟩
  have hhead : oneBlockHeap.heapBlockList = 0xffff800000001000 := by decide +kernel
  have hnext : oneBlockHeap.next 0xffff800000001000 ≠ 0 := by decide +kernel
  have hnext' : (result.getD (0, oneBlockHeap)).2.next 0xffff800000001000 = 0 := by
    decide +kernel
  cases as with
  | nil => exact absurd (hhead.symm.trans has) (by decide)
  | cons a as =>
    obtain rfl : 0xffff800000001000 = a := hhead.symm.trans has.1
    have has'' := has'.2.2
    rw [hnext'] at has''
    obtain rfl : as = [] := has''.eq_nil_iff.mpr rfl
    exact hnext has.2.2

/-- The resize that fails loses the neighbours of the block, and leaves another list. -/
theorem krealloc_failure_keeps_list_iff_one_block :
    ∃ pre b post heap, HeapInv exampleHhdm oneBlockHeap (pre ++ b :: post) ∧
      b.payload = 0xffff800000001020 ∧
      krealloc exampleHhdm (fun _ => 0) oneBlockHeap 0xffff800000001020 100000 = some (0, heap) ∧
      LosesNeighbours (fun _ => 0) pre b post 100000 ∧ ¬ SameBlocks oneBlockHeap heap := by
  obtain ⟨heap, hcall, hother, -⟩ := krealloc_oneBlockHeap
  obtain ⟨pre, b, post, q, heap', hinv, hb, hcall', hiff⟩ :=
    krealloc_failure_keeps_list_iff exampleHhdm_ok oneBlockHeap_reachable List.mem_cons_self
      (pmmAnswers_none _ _) (show (100000 : Word) ≠ 0 by decide)
  obtain ⟨rfl, rfl⟩ := Prod.mk.inj (Option.some.inj (hcall.symm.trans hcall'))
  refine ⟨pre, b, post, heap, hinv, hb, hcall, ?_, hother⟩
  by_contra hkeeps
  exact hother (hiff.mpr hkeeps rfl).1

/-- A request for 100 bytes, which was served before the resize, fails after it. -/
theorem krealloc_failure_loses_neighbour :
    HeapReachable exampleHhdm { heap := oneBlockHeap, live := [(0xffff800000001020, 64)] } ∧
    ∃ heap, krealloc exampleHhdm (fun _ => 0) oneBlockHeap 0xffff800000001020 100000 =
        some (0, heap) ∧ ¬ SameBlocks oneBlockHeap heap ∧
      Serves exampleHhdm (fun _ => 0) oneBlockHeap 100 ∧
      ¬ Serves exampleHhdm (fun _ => 0) heap 100 := by
  obtain ⟨heap, hcall, hother, hfails⟩ := krealloc_oneBlockHeap
  refine ⟨oneBlockHeap_reachable, heap, hcall, hother, ?_, ?_⟩
  · have hserved : (kmalloc exampleHhdm (fun _ => 0) oneBlockHeap 100).map Prod.fst =
        some 0xffff800000001080 := by decide +kernel
    exact ⟨_, _, Loop.eq_some_of_map_fst (d := (0, oneBlockHeap)) hserved, by decide⟩
  · rintro ⟨p, heap', hp, hne⟩
    rw [hp, Option.map_some, Option.some.injEq] at hfails
    exact hne hfails

end Pros
