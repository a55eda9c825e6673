import Pros.Heap.Repr
import Pros.Pmm.FreeList

/-!
# What the heap operations do to the blocks

`HeapInv hhdm s bs` is the representation invariant: the list in memory is `bs`, its blocks do not
overlap, and together they are exactly the pages that the heap obtained. Each operation of the heap
has one lemma here that says what it returns and which list of blocks it leaves.

A caller only cares about the blocks in use. `Kept p bs bs'` says that all of those survive, the one
with payload `p` possibly excepted.
-/

namespace Pros

open HeapBlk

/-- Every request to the page allocator fails or is answered with a run of pages that the heap does
not have yet. -/
def PmmAnswers (hhdm : Word) (pages : List Word) (pmm : Word → Word) : Prop :=
  ∀ n, n ≠ 0 → pmm n = 0 ∨ ∀ q ∈ pmmBlock (pmm n) n.toNat, IsPage hhdm q ∧ q ∉ pages

/-- Address `x` lies in the HHDM image of one of the pages. -/
def InPages (hhdm : Word) (pages : List Word) (x : ℕ) : Prop :=
  ∃ q ∈ pages, (pmmPhysToVirt hhdm q).toNat ≤ x ∧ x < (pmmPhysToVirt hhdm q).toNat + 4096

/-- The representation invariant of the heap. -/
structure HeapInv (hhdm : Word) (s : Heap) (bs : List HeapBlk) : Prop where
  repr : HeapRepr s bs
  layout : Layout bs
  cover : ∀ x, Covers bs x ↔ InPages hhdm s.pages x
  page : ∀ q ∈ s.pages, IsPage hhdm q

/-- The blocks in use are still there, except perhaps the one with payload `p`. -/
def Kept (p : Word) (bs bs' : List HeapBlk) : Prop :=
  ∀ c ∈ bs, c.free = false → c.payload ≠ p → c ∈ bs'

/-- The block is free and has room for `n` bytes. -/
def HeapBlk.Fits (n : ℕ) (b : HeapBlk) : Prop := b.free = true ∧ n ≤ b.size

/-- The payload size that `kmalloc` makes of a request for `n` bytes. -/
def roundSize (n : ℕ) : ℕ := max 16 ((n + 15) / 16 * 16)

/-- `p` is the payload of a block in use that has room for `n` bytes. -/
def Holds (bs : List HeapBlk) (p : Word) (n : ℕ) : Prop :=
  ∃ b ∈ bs, b.free = false ∧ p = b.payload ∧ n ≤ b.size

/-- The outcome of an allocation: null and nothing changed, or a new block in use with room for `n`
bytes, next to the blocks that were in use before. -/
def Allocated (hhdm : Word) (s : Heap) (bs : List HeapBlk) (n : ℕ)
    (result : Option (Word × Heap)) : Prop :=
  result = some (0, s) ∨
    ∃ p s' bs', result = some (p, s') ∧ HeapInv hhdm s' bs' ∧ p ≠ 0 ∧ Kept 0 bs bs' ∧
      Holds bs' p n ∧ ∀ c ∈ bs, c.free = false → c.payload ≠ p

/-- A successful resize returns a block in use with room for `new` bytes, in the old place or one
that was not in use; a failed one leaves the old block alone. -/
def Resized (bs bs' : List HeapBlk) (p q : Word) (old new : ℕ) : Prop :=
  (q = 0 ∧ Holds bs' p old) ∨
    (q ≠ 0 ∧ Holds bs' q new ∧ (q = p ∨ ∀ c ∈ bs, c.free = false → c.payload ≠ q))

/-- The largest request that `kmalloc` takes on. -/
abbrev kmallocLimit : Word := sizeMax - heapHeaderSize - pageSize - heapAlignment

/-- The number of pages that `kmalloc` asks for when it needs a payload of `n` bytes. -/
def kmallocPages (n : ℕ) : Word := (heapHeaderSize + BitVec.ofNat 64 n + pageSize - 1) / pageSize

/-- The block that a run of `n` pages becomes. -/
def pageBlk (hhdm base : Word) (n : ℕ) : HeapBlk :=
  { addr := (pmmPhysToVirt hhdm base).toNat, size := n * 4096 - 32, free := true }

section

variable (hhdm : Word) (pmm : Word → Word) (s : Heap)

/-- How `kmalloc(size)` ends on the blocks `bs`, with the pointer, the heap and the blocks that it
leaves. Apart from `s₀`, the heap with the new pages in it, only the headers of the block taken and
of its remainder are written. -/
inductive MallocOutcome (bs : List HeapBlk) (size : Word) : Word → Heap → List HeapBlk → Prop
  | refused : size > kmallocLimit → MallocOutcome bs size 0 s bs
  | exhausted : ¬ size > kmallocLimit → (∀ b ∈ bs, ¬ Fits (roundSize size.toNat) b) →
      pmm (kmallocPages (roundSize size.toNat)) = 0 → MallocOutcome bs size 0 s bs
  | found (pre : List HeapBlk) (b : HeapBlk) (post : List HeapBlk) (s' : Heap) :
      ¬ size > kmallocLimit → bs = pre ++ b :: post →
      (∀ c ∈ pre, ¬ Fits (roundSize size.toNat) c) → Fits (roundSize size.toNat) b →
      HeadersOnly [b.ptr, (b.remainder (roundSize size.toNat)).ptr] s s' →
      MallocOutcome bs size b.payload s' (pre ++ takeAt b (roundSize size.toNat) post)
  | fresh (pages : Word) (b : HeapBlk) (s₀ s' : Heap) :
      ¬ size > kmallocLimit → (∀ b ∈ bs, ¬ Fits (roundSize size.toNat) b) →
      pages = kmallocPages (roundSize size.toNat) → pmm pages ≠ 0 →
      b = pageBlk hhdm (pmm pages) pages.toNat → Fits (roundSize size.toNat) b →
      HeapInv hhdm s₀ (b :: bs) → s₀.pages = pmmBlock (pmm pages) pages.toNat ++ s.pages →
      (∀ x, ¬ (x - b.ptr).toNat < 24 → s₀.mem x = s.mem x) →
      HeadersOnly [b.ptr, (b.remainder (roundSize size.toNat)).ptr] s₀ s' →
      MallocOutcome bs size b.payload s' (takeAt b (roundSize size.toNat) bs)

/-- How `krealloc` ends for the block `b`, which is in use, and a size other than zero. Moving works
on the list in which `b` has already taken over what follows it; there it is freed after its payload
was copied. -/
inductive ReallocOutcome (pre : List HeapBlk) (b : HeapBlk) (post : List HeapBlk) (size : Word) :
    Word → Heap → List HeapBlk → Prop
  | refused : size > sizeMax - (heapAlignment - 1) →
      ReallocOutcome pre b post size 0 s (pre ++ b :: post)
  | inPlace (s' : Heap) : ¬ size > sizeMax - (heapAlignment - 1) → roundSize size.toNat ≤ b.size →
      HeadersOnly [b.ptr, (b.remainder (roundSize size.toNat)).ptr] s s' →
      ReallocOutcome pre b post size b.payload s' (pre ++ splitAt b (roundSize size.toNat) post)
  | grown (s' : Heap) : ¬ size > sizeMax - (heapAlignment - 1) → b.size < roundSize size.toNat →
      roundSize size.toNat ≤ (absorb b post).1.size →
      HeadersOnly [b.ptr, ((absorb b post).1.remainder (roundSize size.toNat)).ptr] s s' →
      ReallocOutcome pre b post size b.payload s'
        (pre ++ splitAt (absorb b post).1 (roundSize size.toNat) (absorb b post).2)
  | stuck (s₁ : Heap) : ¬ size > sizeMax - (heapAlignment - 1) →
      (absorb b post).1.size < roundSize size.toNat → HeadersOnly [b.ptr] s s₁ →
      MallocOutcome hhdm pmm s₁ (pre ++ coalesceAt b post)
        (BitVec.ofNat 64 (roundSize size.toNat)) 0 s₁ (pre ++ coalesceAt b post) →
      ReallocOutcome pre b post size 0 s₁ (pre ++ coalesceAt b post)
  | moved (s₁ s₂ s' : Heap) (q : Word) (pre₂ post₂ : List HeapBlk) :
      ¬ size > sizeMax - (heapAlignment - 1) → (absorb b post).1.size < roundSize size.toNat →
      HeapInv hhdm s₁ (pre ++ coalesceAt b post) → HeadersOnly [b.ptr] s s₁ →
      MallocOutcome hhdm pmm s₁ (pre ++ coalesceAt b post)
        (BitVec.ofNat 64 (roundSize size.toNat)) q s₂ (pre₂ ++ (absorb b post).1 :: post₂) →
      q ≠ 0 → HeapInv hhdm s₂ (pre₂ ++ (absorb b post).1 :: post₂) →
      HeadersOnly [b.ptr]
        { s₂ with mem := s₂.mem.memcpy q b.payload (absorb b post).1.size } s' →
      ReallocOutcome pre b post size q s'
        (pre₂ ++ coalesceAt { (absorb b post).1 with free := true } post₂)

end

variable {hhdm p q base : Word} {pmm : Word → Word} {s s' : Heap} {b c : HeapBlk}
  {bs bs' pre post : List HeapBlk} {n : ℕ}

theorem HeapBlk.Ok.toNat_payload (hb : b.Ok) : b.payload.toNat = b.addr + 32 := by
  have hle := hb.stop_le
  have hpos := hb.size_pos
  have hptr := hb.toNat_ptr
  simp only [stop] at hle
  rw [HeapBlk.payload, heapHeaderSize_eq]
  bv_omega

theorem HeapBlk.Ok.payload_ne_zero (hb : b.Ok) : b.payload ≠ 0 := by
  intro h0
  have hnat := hb.toNat_payload
  rw [h0] at hnat
  simp at hnat

@[simp]
theorem HeapBlk.payload_sub (b : HeapBlk) : b.payload - heapHeaderSize = b.ptr := by
  simp [HeapBlk.payload]

/-- A block of a layout is determined by its payload. -/
theorem Layout.eq_of_payload_eq (h : Layout bs) (hb : b ∈ bs) (hc : c ∈ bs)
    (heq : b.payload = c.payload) : b = c := by
  refine h.eq_of_addr_eq hb hc ?_
  have hb' := (h.ok b hb).toNat_payload
  rw [heq, (h.ok c hc).toNat_payload] at hb'
  omega

theorem payload_eq_of_addr_eq (h : b.addr = c.addr) : b.payload = c.payload := by
  rw [HeapBlk.payload, HeapBlk.payload, HeapBlk.ptr, HeapBlk.ptr, h]

/-- A block of a list is still there when another block and what follows are replaced. -/
theorem mem_replace {mid : List HeapBlk} (hc : c ∈ pre ++ b :: post) (hne : c ≠ b)
    (hpost : c ∈ post → c ∈ mid) : c ∈ pre ++ mid := by
  rcases List.mem_append.mp hc with hc | hc
  · exact List.mem_append_left _ hc
  · exact List.mem_append_right _ (hpost ((List.mem_cons.mp hc).resolve_left hne))

/-! ## New pages -/

theorem pageBlk_ptr : (pageBlk hhdm base n).ptr = pmmPhysToVirt hhdm base := by
  simp [pageBlk, HeapBlk.ptr]

section

variable (hh : HhdmOk hhdm) (hn : 0 < n) (hpage : ∀ q ∈ pmmBlock base n, IsPage hhdm q)

include hn hpage

theorem toNat_virt_run : (pmmPhysToVirt hhdm base).toNat = base.toNat + hhdm.toNat ∧
    (pmmPhysToVirt hhdm base).toNat + n * 4096 ≤ 2 ^ 64 := by
  have hw := noWrap_of_isPage hn hpage
  have hbase : IsPage hhdm base := hpage base (mem_pmmBlock_iff.mpr ⟨0, hn, by simp⟩)
  exact ⟨hbase.toNat_virt, by rw [hbase.toNat_virt]; omega⟩

include hh in
theorem pageBlk_ok : (pageBlk hhdm base n).Ok := by
  have hbase : IsPage hhdm base := hpage base (mem_pmmBlock_iff.mpr ⟨0, hn, by simp⟩)
  obtain ⟨hvirt, hle⟩ := toNat_virt_run hn hpage
  have h1 := hbase.aligned
  have h2 := hh.aligned
  have h3 := hbase.two_pages_le_virt hh
  refine ⟨?_, ?_, ?_, ?_, ?_⟩ <;> simp only [pageBlk, stop] <;> omega

/-- The block covers exactly its pages. -/
theorem covers_pageBlk (x : ℕ) :
    ((pageBlk hhdm base n).addr ≤ x ∧ x < (pageBlk hhdm base n).stop) ↔
      InPages hhdm (pmmBlock base n) x := by
  obtain ⟨hvirt, hle⟩ := toNat_virt_run hn hpage
  have hw := noWrap_of_isPage hn hpage
  simp only [pageBlk, stop, InPages]
  constructor
  · intro hx
    have hi : (x - (pmmPhysToVirt hhdm base).toNat) / 4096 < n := by omega
    have hmem : base + BitVec.ofNat 64 ((x - (pmmPhysToVirt hhdm base).toNat) / 4096) * pageSize ∈
        pmmBlock base n := mem_pmmBlock_iff.mpr ⟨_, hi, rfl⟩
    refine ⟨_, hmem, ?_⟩
    rw [(hpage _ hmem).toNat_virt, toNat_add_pages (by omega)]
    omega
  · rintro ⟨q, hq, hlo, hhi⟩
    rw [(hpage q hq).toNat_virt] at hlo hhi
    obtain ⟨i, hi, hqi⟩ := toNat_of_mem_pmmBlock (by omega) hq
    omega

end

theorem inPages_append {pages pages' : List Word} {x : ℕ} :
    InPages hhdm (pages ++ pages') x ↔ InPages hhdm pages x ∨ InPages hhdm pages' x := by
  simp only [InPages, List.mem_append, or_and_right, exists_or]

/-- Images of different pages have no address in common. -/
theorem InPages.disjoint {pages pages' : List Word} {x : ℕ} (hh : HhdmOk hhdm)
    (hp : ∀ q ∈ pages, IsPage hhdm q) (hp' : ∀ q ∈ pages', IsPage hhdm q)
    (hdisj : ∀ q ∈ pages, q ∉ pages') (hx : InPages hhdm pages x) :
    ¬ InPages hhdm pages' x := by
  rintro ⟨q', hq', hlo', hhi'⟩
  obtain ⟨q, hq, hlo, hhi⟩ := hx
  have h1 := (hp q hq).aligned
  have h2 := (hp' q' hq').aligned
  have h3 := hh.aligned
  rw [(hp q hq).toNat_virt] at hlo hhi
  rw [(hp' q' hq').toNat_virt] at hlo' hhi'
  have heq : q = q' := by
    apply BitVec.eq_of_toNat_eq
    omega
  exact hdisj q hq (heq ▸ hq')

/-- A block none of whose addresses is covered is apart from all blocks. -/
theorem apart_of_not_covers (hb : b.Ok) (hbs : ∀ c ∈ bs, c.Ok)
    (h : ∀ x, b.addr ≤ x → x < b.stop → ¬ Covers bs x) : ∀ c ∈ bs, b.Apart c := by
  intro c hc
  have h1 := hb.size_pos
  have h2 := (hbs c hc).size_pos
  by_contra hmeet
  simp only [HeapBlk.Apart, stop, not_or, not_le] at hmeet
  -- the higher of the two starts belongs to both blocks
  have hstart : max b.addr c.addr < b.stop ∧ max b.addr c.addr < c.stop := by
    simp only [stop]
    omega
  exact h _ (le_max_left _ _) hstart.1 ⟨c, hc, le_max_right _ _, hstart.2⟩

theorem heapPushPages_mem {pages x : Word} (hx : ¬ (x - pmmPhysToVirt hhdm base).toNat < 24) :
    (heapPushPages hhdm s base pages).mem x = s.mem x := by
  show (Heap.setNext _ _ _).mem x = s.mem x
  refine ((headersOnly_setSize.trans headersOnly_setIsFree).trans headersOnly_setNext).mem x ?_
  simpa using hx

namespace HeapInv

/-- A heap without pages has no blocks. -/
theorem empty (mem : ByteMem) : HeapInv hhdm { mem, heapBlockList := 0, pages := [] } [] where
  repr := ⟨rfl, by simp⟩
  layout := ⟨by simp, List.Pairwise.nil⟩
  cover := by simp [Covers, InPages]
  page := by simp

/-- A fresh run of pages becomes a free block at the head of the list. -/
theorem pushPages (hh : HhdmOk hhdm) (h : HeapInv hhdm s bs) {pages : Word}
    (hn : 0 < pages.toNat) (hw : pages.toNat * 4096 < 2 ^ 64)
    (hpage : ∀ q ∈ pmmBlock base pages.toNat, IsPage hhdm q)
    (hfresh : ∀ q ∈ pmmBlock base pages.toNat, q ∉ s.pages) :
    HeapInv hhdm (heapPushPages hhdm s base pages) (pageBlk hhdm base pages.toNat :: bs) := by
  have hok : (pageBlk hhdm base pages.toNat).Ok := pageBlk_ok hh hn hpage
  have hapart : ∀ c ∈ bs, (pageBlk hhdm base pages.toNat).Apart c := by
    refine apart_of_not_covers hok h.layout.ok fun x hlo hhi hcov => ?_
    have hin := (covers_pageBlk hn hpage x).mp ⟨hlo, hhi⟩
    exact hin.disjoint hh hpage h.page hfresh ((h.cover x).mp hcov)
  have hl : Layout (pageBlk hhdm base pages.toNat :: bs) := h.layout.push hok hapart
  refine ⟨?_, hl, fun x => ?_, ?_⟩
  · have hptr : (pageBlk hhdm base pages.toNat).ptr = pmmPhysToVirt hhdm base := pageBlk_ptr
    refine h.repr.push hl hptr.symm (fun x hx => ?_) ⟨?_, ?_⟩ ?_
    · exact heapPushPages_mem (hptr ▸ hx)
    · rw [hptr]
      show Heap.size (Heap.setNext _ _ _) _ = _
      rw [Heap.size_setNext, Heap.size_setIsFree, Heap.size_setSize, heapHeaderSize_eq]
      apply BitVec.eq_of_toNat_eq
      simp only [pageBlk]
      bv_omega
    · rw [hptr]
      show Heap.isFree (Heap.setNext _ _ _) _ = _
      rw [Heap.isFree_setNext, Heap.isFree_setIsFree, pageBlk]
    · rw [hptr]
      exact Heap.next_setNext
  · rw [covers_cons, covers_pageBlk hn hpage, h.cover]
    exact inPages_append.symm
  · intro q hq
    rcases List.mem_append.mp hq with hq | hq
    · exact hpage q hq
    · exact h.page q hq

/-! ## Allocating -/

/-- The search loop ends, and finds the first block of the list that fits. -/
theorem search (fuel : ℕ) {head : Word} (hl : Links s.next 0 head (bs.map HeapBlk.ptr))
    (hheader : ∀ b ∈ bs, Header s b) (hok : ∀ b ∈ bs, b.Ok) (hn : n < 2 ^ 64)
    (hfuel : bs.length < fuel) :
    (kmallocSearch s (BitVec.ofNat 64 n) fuel head = some 0 ∧ ∀ b ∈ bs, ¬ Fits n b) ∨
    ∃ pre b post, bs = pre ++ b :: post ∧ (∀ c ∈ pre, ¬ Fits n c) ∧ Fits n b ∧
      kmallocSearch s (BitVec.ofNat 64 n) fuel head = some b.ptr := by
  induction bs generalizing fuel head with
  | nil =>
    obtain _ | fuel := fuel
    · simp at hfuel
    have hhead : head = 0 := hl
    exact Or.inl ⟨by rw [kmallocSearch, if_pos hhead], by simp⟩
  | cons b bs ih =>
    obtain _ | fuel := fuel
    · simp at hfuel
    obtain ⟨rfl, hne, hrest⟩ := hl
    have hb := hok b List.mem_cons_self
    have htest : (s.isFree b.ptr ∧ s.size b.ptr ≥ BitVec.ofNat 64 n) ↔ Fits n b := by
      have hnat : (BitVec.ofNat 64 n).toNat = n := by
        rw [BitVec.toNat_ofNat, Nat.mod_eq_of_lt hn]
      rw [(hheader b List.mem_cons_self).isFree, (hheader b List.mem_cons_self).size, ge_iff_le,
        BitVec.le_def, hb.toNat_size, hnat, Fits]
    rw [kmallocSearch, if_neg hne]
    by_cases hfit : Fits n b
    · rw [if_pos (htest.mpr hfit)]
      exact Or.inr ⟨[], b, bs, rfl, by simp, hfit, rfl⟩
    · rw [if_neg (mt htest.mp hfit)]
      rcases ih fuel hrest (fun c hc => hheader c (List.mem_cons_of_mem _ hc))
        (fun c hc => hok c (List.mem_cons_of_mem _ hc)) (Nat.lt_of_succ_lt_succ hfuel) with
        ⟨hnone, hall⟩ | ⟨pre, c, post, rfl, hpre, hc, hsome⟩
      · refine Or.inl ⟨hnone, ?_⟩
        simp only [List.mem_cons, forall_eq_or_imp]
        exact ⟨hfit, hall⟩
      · refine Or.inr ⟨b :: pre, c, post, rfl, ?_, hc, hsome⟩
        simp only [List.mem_cons, forall_eq_or_imp]
        exact ⟨hfit, hpre⟩

/-- Rewriting the list in place: what has to be shown about the new one. -/
theorem of_repr (h : HeapInv hhdm s bs) (hrepr : HeapRepr s' bs') (hl : Layout bs')
    (hcover : ∀ x, Covers bs' x ↔ Covers bs x) (hpages : s'.pages = s.pages) :
    HeapInv hhdm s' bs' where
  repr := hrepr
  layout := hl
  cover x := by rw [hcover, hpages, h.cover]
  page := by rw [hpages]; exact h.page

theorem setIsFree (h : HeapInv hhdm s (pre ++ b :: post)) (f : Bool) :
    HeapInv hhdm (s.setIsFree b.ptr f) (pre ++ { b with free := f } :: post) := by
  refine h.of_repr (h.repr.setIsFree h.layout f) (h.layout.setFree f) (fun x => ?_) rfl
  rw [covers_append, covers_append, covers_cons, covers_cons]
  rfl

theorem coalesce (h : HeapInv hhdm s (pre ++ b :: post)) :
    ∃ s', heapBlockCoalesce s b.ptr = some s' ∧ HeapInv hhdm s' (pre ++ coalesceAt b post) ∧
      HeadersOnly [b.ptr] s s' := by
  obtain ⟨s', hs', hrepr, hw⟩ := h.repr.coalesce h.layout
  refine ⟨s', hs', h.of_repr hrepr h.layout.coalesceAt (fun x => ?_) hw.pages, hw⟩
  rw [covers_append, covers_append, covers_coalesceAt]

theorem split (h : HeapInv hhdm s (pre ++ b :: post)) (hmod : n % 16 = 0) (hpos : 0 < n)
    (hle : n ≤ b.size) :
    ∃ s', heapBlockSplit s b.ptr (BitVec.ofNat 64 n) = some s' ∧
      HeapInv hhdm s' (pre ++ splitAt b n post) ∧
      HeadersOnly [b.ptr, (b.remainder n).ptr] s s' := by
  obtain ⟨s', hs', hrepr, hw⟩ := h.repr.split h.layout hmod hpos hle
  refine ⟨s', hs', h.of_repr hrepr (h.layout.splitAt hmod hpos) (fun x => ?_) hw.pages, hw⟩
  rw [covers_append, covers_append, covers_splitAt]

/-- The end of `kmalloc`: the block is cut to size and taken into use. -/
theorem take (h : HeapInv hhdm s (pre ++ b :: post)) (hmod : n % 16 = 0) (hpos : 0 < n)
    (hle : n ≤ b.size) :
    ∃ s', kmallocTake s b.ptr (BitVec.ofNat 64 n) = some (b.payload, s') ∧
      HeapInv hhdm s' (pre ++ takeAt b n post) ∧
      HeadersOnly [b.ptr, (b.remainder n).ptr] s s' := by
  obtain ⟨s₁, hs₁, hinv, hw⟩ := h.split hmod hpos hle
  have hptr : (b.splitHead n).ptr = b.ptr := by rw [HeapBlk.ptr, splitHead_addr, HeapBlk.ptr]
  have htaken := hinv.setIsFree false
  rw [hptr] at htaken
  refine ⟨s₁.setIsFree b.ptr false, ?_, htaken, hw.trans (headersOnly_setIsFree.mono (by simp))⟩
  rw [kmallocTake, hs₁]
  rfl

end HeapInv

theorem toNat_heapAlignUp {size : Word} (h : size.toNat + 15 < 2 ^ 64) :
    (heapAlignUp size heapAlignment).toNat = (size.toNat + 15) / 16 * 16 :=
  Word.toNat_alignUp size (k := 4) (by omega) h

/-- Rounding the request does not wrap below the limit. -/
theorem kmalloc_round {size : Word}
    (hle : ¬ size > kmallocLimit) :
    (if heapAlignUp size heapAlignment = 0 then heapAlignment else heapAlignUp size heapAlignment) =
      BitVec.ofNat 64 (roundSize size.toNat) ∧ roundSize size.toNat + 4127 < 2 ^ 64 := by
  have hlim : kmallocLimit = 18446744073709547471 := by decide
  rw [hlim] at hle
  have hlt : size.toNat + 15 < 2 ^ 64 := by bv_omega
  have hup := toNat_heapAlignUp hlt
  have hbound : roundSize size.toNat + 4127 < 2 ^ 64 := by
    simp only [roundSize]
    bv_omega
  refine ⟨?_, hbound⟩
  apply BitVec.eq_of_toNat_eq
  rw [BitVec.toNat_ofNat, Nat.mod_eq_of_lt (by omega), roundSize]
  split_ifs with h0
  · rw [h0] at hup
    simp only [BitVec.ofNat_eq_ofNat, BitVec.toNat_ofNat] at hup ⊢
    omega
  · have hne : (heapAlignUp size heapAlignment).toNat ≠ 0 := by
      intro hz
      exact h0 (BitVec.eq_of_toNat_eq (by simpa using hz))
    rw [hup] at hne ⊢
    omega

theorem roundSize_mod (n : ℕ) : roundSize n % 16 = 0 := by
  simp only [roundSize]
  omega

theorem roundSize_pos (n : ℕ) : 0 < roundSize n := by
  simp only [roundSize]
  omega

theorem le_roundSize (n : ℕ) : n ≤ roundSize n := by
  simp only [roundSize]
  omega

/-- Neither does the page count, and the pages have room for header and payload. -/
theorem kmalloc_pages (hn : n + 4127 < 2 ^ 64) :
    (kmallocPages n).toNat = (n + 4127) / 4096 := by
  have hsum : (heapHeaderSize + BitVec.ofNat 64 n + pageSize - 1).toNat = n + 4127 := by
    rw [heapHeaderSize_eq]
    bv_omega
  rw [kmallocPages, BitVec.toNat_udiv, hsum]
  rfl

namespace HeapInv

/-- What `kmalloc` does to the list of blocks. -/
theorem kmalloc_outcome (hh : HhdmOk hhdm) (h : HeapInv hhdm s bs)
    (hpmm : PmmAnswers hhdm s.pages pmm) (size : Word) :
    ∃ p s' bs', Pros.kmalloc hhdm pmm s size = some (p, s') ∧ HeapInv hhdm s' bs' ∧
      MallocOutcome hhdm pmm s bs size p s' bs' := by
  unfold Pros.kmalloc
  by_cases hlim : size > kmallocLimit
  · exact ⟨0, s, bs, by rw [if_pos hlim]; rfl, h, .refused hlim⟩
  obtain ⟨hround, hbound⟩ := kmalloc_round hlim
  have hmod := roundSize_mod size.toNat
  have hpos := roundSize_pos size.toNat
  simp only [if_neg hlim, hround]
  have hlt : roundSize size.toNat < 2 ^ 64 := by omega
  rcases search walkBound h.repr.links h.repr.header h.layout.ok hlt h.repr.length_lt with
    ⟨hnone, hall⟩ | ⟨pre, b, post, rfl, hpre, hfit, hsome⟩
  · -- no block fits: ask for pages
    have hpages := kmalloc_pages hbound
    simp only [hnone, Option.bind_eq_bind, Option.bind_some]
    rw [← kmallocPages]
    generalize hcount : kmallocPages (roundSize size.toNat) = pages at *
    by_cases hfail : pmm pages = 0
    · exact ⟨0, s, bs, by simp [hfail], h, .exhausted hlim hall (by rw [hcount, hfail])⟩
    have hpos' : 0 < pages.toNat := by omega
    have hrun : ∀ q ∈ pmmBlock (pmm pages) pages.toNat, IsPage hhdm q ∧ q ∉ s.pages :=
      (hpmm pages (by bv_omega)).resolve_left hfail
    have hinv₀ : HeapInv hhdm (heapPushPages hhdm s (pmm pages) pages)
        ([] ++ pageBlk hhdm (pmm pages) pages.toNat :: bs) :=
      h.pushPages hh hpos' (by omega) (fun q hq => (hrun q hq).1) fun q hq => (hrun q hq).2
    have hroom : roundSize size.toNat ≤ (pageBlk hhdm (pmm pages) pages.toNat).size := by
      simp only [pageBlk]
      omega
    obtain ⟨s', hs', hinv, hw⟩ := hinv₀.take hmod hpos hroom
    refine ⟨_, s', _, ?_, hinv, .fresh pages _ _ s' hlim hall hcount.symm hfail rfl ⟨rfl, hroom⟩
      hinv₀ rfl (fun x hx => heapPushPages_mem (pageBlk_ptr ▸ hx)) hw⟩
    rw [pageBlk_ptr] at hs'
    simp only [ne_eq, not_true_eq_false, if_false, if_neg hfail, hs']
  · -- the first block that fits
    have hne : b.ptr ≠ 0 := (h.layout.ok b (by simp)).ptr_ne_zero
    obtain ⟨s', hs', hinv, hw⟩ := h.take hmod hpos hfit.2
    refine ⟨_, s', _, ?_, hinv, .found pre b post s' hlim rfl hpre hfit hw⟩
    simp only [hsome, Option.bind_eq_bind, Option.bind_some, if_pos hne, hs']

end HeapInv

/-- A block in use is not one that fits. -/
theorem HeapBlk.Fits.ne (hfit : Fits n b) (hfree : c.free = false) : c ≠ b := by
  rintro rfl
  rw [hfit.1] at hfree
  cases hfree

/-- Taking a block that fits keeps the blocks in use and adds one to them. -/
theorem allocated_takeAt (hl : Layout (pre ++ b :: post)) (hfit : Fits n b) :
    b.payload ≠ 0 ∧ Kept 0 (pre ++ b :: post) (pre ++ takeAt b n post) ∧
      Holds (pre ++ takeAt b n post) b.payload n ∧
      ∀ c ∈ pre ++ b :: post, c.free = false → c.payload ≠ b.payload := by
  refine ⟨(hl.ok b (by simp)).payload_ne_zero, fun c hc hfree _ => ?_, ?_, ?_⟩
  · refine mem_replace hc (hfit.ne hfree) fun hpost => ?_
    exact List.mem_cons_of_mem _ (splitTail_keeps hpost hfree)
  · refine ⟨_, List.mem_append_right _ List.mem_cons_self, rfl, ?_, ?_⟩
    · exact (payload_eq_of_addr_eq splitHead_addr).symm
    · exact le_splitHead_size hfit.2
  · intro c hc hfree heq
    exact hfit.ne hfree (hl.eq_of_payload_eq hc (by simp) heq)

/-- What an allocation that succeeds leaves. -/
theorem MallocOutcome.allocated {size : Word} (hout : MallocOutcome hhdm pmm s bs size p s' bs')
    (hl : Layout bs) :
    (p = 0 ∧ s' = s ∧ bs' = bs) ∨
      (p ≠ 0 ∧ Kept 0 bs bs' ∧ Holds bs' p (roundSize size.toNat) ∧
        ∀ c ∈ bs, c.free = false → c.payload ≠ p) := by
  cases hout with
  | refused => exact Or.inl ⟨rfl, rfl, rfl⟩
  | exhausted => exact Or.inl ⟨rfl, rfl, rfl⟩
  | found pre b post s' _ hbs _ hfit =>
    subst hbs
    exact Or.inr (allocated_takeAt hl hfit)
  | fresh pages b s₀ s' _ _ _ _ _ hfit hinv₀ =>
    have hl₀ : Layout ([] ++ b :: bs) := hinv₀.layout
    obtain ⟨hne, hkept, hholds, hnew⟩ := allocated_takeAt hl₀ hfit
    exact Or.inr ⟨hne, fun c hc => hkept c (List.mem_cons_of_mem _ hc), hholds,
      fun c hc => hnew c (List.mem_cons_of_mem _ hc)⟩

namespace HeapInv

/-- What a caller of `kmalloc` knows. -/
theorem kmalloc (hh : HhdmOk hhdm) (h : HeapInv hhdm s bs)
    (hpmm : PmmAnswers hhdm s.pages pmm) (size : Word) :
    Allocated hhdm s bs (roundSize size.toNat) (Pros.kmalloc hhdm pmm s size) := by
  obtain ⟨p, s', bs', hsome, hinv, hout⟩ := h.kmalloc_outcome hh hpmm size
  rcases hout.allocated h.layout with ⟨rfl, rfl, rfl⟩ | ⟨hne, hkept, hholds, hnew⟩
  · exact Or.inl hsome
  · exact Or.inr ⟨p, s', bs', hsome, hinv, hne, hkept, hholds, hnew⟩

/-! ## Zeroing and freeing -/

/-- Bytes outside the headers do not matter to the heap. -/
theorem of_headers (h : HeapInv hhdm s bs) (hhead : s'.heapBlockList = s.heapBlockList)
    (hpages : s'.pages = s.pages) (hmem : ∀ b ∈ bs, ByteMem.AgreeOn s.mem s'.mem b.ptr 24) :
    HeapInv hhdm s' bs where
  repr := h.repr.of_headers hhead hmem
  layout := h.layout
  cover := by rw [hpages]; exact h.cover
  page := by rw [hpages]; exact h.page

/-- A change inside the payload of one block. -/
theorem of_payload (h : HeapInv hhdm s bs) (hb : b ∈ bs) (hhead : s'.heapBlockList = s.heapBlockList)
    (hpages : s'.pages = s.pages)
    (hmem : ∀ x, ¬ (x - b.payload).toNat < b.size → s'.mem x = s.mem x) :
    HeapInv hhdm s' bs := by
  refine h.of_headers hhead hpages fun c hc x hx => hmem x fun hxb => ?_
  have hbok := h.layout.ok b hb
  have hstop := hbok.stop_le
  simp only [stop] at hstop
  have hptr := hbok.toNat_ptr
  rw [HeapBlk.payload, heapHeaderSize_eq] at hxb
  by_cases hbc : b = c
  · subst hbc
    bv_omega
  · have hapart := (h.layout.apart_of_ne hb hc hbc).memory hbok (h.layout.ok c hc)
    exact hapart x (by bv_omega) (by omega)

/-- `kcalloc` is `kmalloc` of the product, if that does not wrap, and zeroes what it got. -/
theorem kcalloc_outcome (hh : HhdmOk hhdm) (h : HeapInv hhdm s bs)
    (hpmm : PmmAnswers hhdm s.pages pmm) (num size : Word) :
    ∃ p s' bs', Pros.kcalloc hhdm pmm s num size = some (p, s') ∧ HeapInv hhdm s' bs' ∧
      ((p = 0 ∧ s' = s ∧ bs' = bs) ∨
        p ≠ 0 ∧ ¬ (size ≠ 0 ∧ num > sizeMax / size) ∧
          ∃ s₁, MallocOutcome hhdm pmm s bs (num * size) p s₁ bs' ∧ HeapInv hhdm s₁ bs' ∧
            s' = { s₁ with mem := s₁.mem.memset p 0 (num * size).toNat }) := by
  unfold Pros.kcalloc
  by_cases hover : size ≠ 0 ∧ num > sizeMax / size
  · exact ⟨0, s, bs, by rw [if_pos hover]; rfl, h, Or.inl ⟨rfl, rfl, rfl⟩⟩
  rw [if_neg hover]
  obtain ⟨p, s₁, bs₁, hsome, hinv, hout⟩ := h.kmalloc_outcome hh hpmm (num * size)
  simp only [hsome, Option.bind_eq_bind, Option.bind_some]
  rcases hout.allocated h.layout with ⟨rfl, rfl, rfl⟩ | ⟨hne, -, ⟨b, hb, -, rfl, hsize⟩, -⟩
  · exact ⟨0, s₁, bs₁, by simp, hinv, Or.inl ⟨rfl, rfl, rfl⟩⟩
  · refine ⟨b.payload, _, bs₁, by rw [if_neg hne]; rfl, ?_, Or.inr ⟨hne, hover, s₁, hout, hinv, rfl⟩⟩
    have hle := le_roundSize (num * size).toNat
    exact hinv.of_payload hb rfl rfl fun x hx => if_neg (by omega)

/-- What a caller of `kcalloc` knows. -/
theorem kcalloc (hh : HhdmOk hhdm) (h : HeapInv hhdm s bs)
    (hpmm : PmmAnswers hhdm s.pages pmm) (num size : Word) :
    Allocated hhdm s bs (roundSize (num * size).toNat) (Pros.kcalloc hhdm pmm s num size) := by
  obtain ⟨p, s', bs', hsome, hinv, ⟨rfl, rfl, rfl⟩ | ⟨hne, -, s₁, hout, -, -⟩⟩ :=
    h.kcalloc_outcome hh hpmm num size
  · exact Or.inl hsome
  · rcases hout.allocated h.layout with ⟨h0, -⟩ | hrest
    · exact absurd h0 hne
    · exact Or.inr ⟨p, s', bs', hsome, hinv, hrest⟩

/-- `kfree` of a block in use merges it with the free blocks that follow. -/
theorem kfree_list (h : HeapInv hhdm s (pre ++ b :: post)) :
    ∃ s', Pros.kfree s b.payload = some s' ∧
      HeapInv hhdm s' (pre ++ coalesceAt { b with free := true } post) ∧
      HeadersOnly [b.ptr] s s' := by
  obtain ⟨s', hs', hinv, hw⟩ := (h.setIsFree true).coalesce
  refine ⟨s', ?_, hinv, headersOnly_setIsFree.trans hw⟩
  rw [Pros.kfree, if_neg (h.layout.ok b (by simp)).payload_ne_zero, HeapBlk.payload_sub]
  exact hs'

/-- What a caller of `kfree` knows. -/
theorem kfree (h : HeapInv hhdm s bs) (hp : Holds bs p n) :
    ∃ s' bs', Pros.kfree s p = some s' ∧ HeapInv hhdm s' bs' ∧ Kept p bs bs' := by
  obtain ⟨b, hb, -, rfl, -⟩ := hp
  obtain ⟨pre, post, rfl⟩ := List.append_of_mem hb
  obtain ⟨s', hs', hinv, -⟩ := h.kfree_list
  refine ⟨s', _, hs', hinv, fun c hc hfree hne => ?_⟩
  have hcb : c ≠ b := fun e => hne (congrArg HeapBlk.payload e)
  exact mem_replace hc hcb fun hpost => coalesceAt_keeps hpost hfree

/-! ## Resizing -/

end HeapInv

theorem Holds.mono {m : ℕ} (h : Holds bs p n) (hle : m ≤ n) : Holds bs p m := by
  obtain ⟨b, hb, hfree, hp, hn⟩ := h
  exact ⟨b, hb, hfree, hp, hle.trans hn⟩

/-- Losing a block twice is losing it once. -/
theorem Kept.trans {bs₁ bs₂ : List HeapBlk} (h : Kept p bs bs₁) (h' : Kept q bs₁ bs₂)
    (hq : ∀ c ∈ bs, c.payload = q → c.payload = p) : Kept p bs bs₂ :=
  fun c hc hfree hne => h' c (h c hc hfree hne) hfree fun heq => hne (hq c hc heq)

/-- Cutting the block with payload `b.payload` keeps the others. -/
theorem kept_splitAt :
    Kept b.payload (pre ++ b :: post) (pre ++ splitAt b n post) := by
  intro c hc hfree hne
  refine mem_replace hc (fun e => hne (congrArg HeapBlk.payload e)) fun hpost => ?_
  exact List.mem_cons_of_mem _ (splitTail_keeps hpost hfree)

theorem holds_splitAt (hfree : b.free = false) (hle : n ≤ b.size) :
    Holds (pre ++ splitAt b n post) b.payload n := by
  refine ⟨b.splitHead n, List.mem_append_right _ List.mem_cons_self, ?_, ?_, le_splitHead_size hle⟩
  · rw [splitHead_free, hfree]
  · exact (payload_eq_of_addr_eq splitHead_addr).symm

namespace HeapInv

/-- Rounding the new size does not wrap below the limit of `krealloc`. -/
theorem krealloc_round {size : Word} (hover : ¬ size > sizeMax - (heapAlignment - 1))
    (hzero : size ≠ 0) :
    heapAlignUp size heapAlignment = BitVec.ofNat 64 (roundSize size.toNat) ∧
      roundSize size.toNat < 2 ^ 64 := by
  have hlim : sizeMax - (heapAlignment - 1) = 18446744073709551600 := by decide
  rw [hlim] at hover
  have hlt : size.toNat + 15 < 2 ^ 64 := by bv_omega
  have hpos : 0 < size.toNat := by bv_omega
  have hround : roundSize size.toNat = (size.toNat + 15) / 16 * 16 := max_eq_right (by omega)
  refine ⟨?_, by omega⟩
  apply BitVec.eq_of_toNat_eq
  rw [toNat_heapAlignUp hlt, BitVec.toNat_ofNat, Nat.mod_eq_of_lt (by omega), hround]

/-- Rounding the rounded size once more, as the nested `kmalloc` does, loses nothing. -/
theorem le_roundSize_ofNat {size : Word} (hover : ¬ size > sizeMax - (heapAlignment - 1)) :
    roundSize size.toNat ≤ roundSize (BitVec.ofNat 64 (roundSize size.toNat)).toNat := by
  by_cases hzero : size = 0
  · subst hzero
    decide
  · rw [BitVec.toNat_ofNat, Nat.mod_eq_of_lt (krealloc_round hover hzero).2]
    exact le_roundSize _

/-- Comparing a size with the one in a header is comparing it with the one of the block. -/
theorem le_size_iff (h : HeapInv hhdm s bs) (hb : b ∈ bs) (hn : n < 2 ^ 64) :
    BitVec.ofNat 64 n ≤ s.size b.ptr ↔ n ≤ b.size := by
  rw [(h.repr.header b hb).size, BitVec.le_def, (h.layout.ok b hb).toNat_size,
    BitVec.toNat_ofNat, Nat.mod_eq_of_lt hn]

/-- The last case of `krealloc`: the block in use does not have the `n` bytes that are wanted. A new
block is allocated and the old contents are copied into its payload before the old block is freed. -/
theorem kreallocMove_outcome (hh : HhdmOk hhdm) (h : HeapInv hhdm s bs)
    (hpmm : PmmAnswers hhdm s.pages pmm) (hb : b ∈ bs) (hfree : b.free = false) {size : Word}
    (hsize : b.size ≤ size.toNat) :
    ∃ q s₂ bs₂, MallocOutcome hhdm pmm s bs size q s₂ bs₂ ∧
      ((q = 0 ∧ s₂ = s ∧ bs₂ = bs ∧
          Pros.kreallocMove hhdm pmm s b.payload size = some (0, s)) ∨
        ∃ pre₂ post₂ s', q ≠ 0 ∧ bs₂ = pre₂ ++ b :: post₂ ∧ HeapInv hhdm s₂ bs₂ ∧
          Pros.kreallocMove hhdm pmm s b.payload size = some (q, s') ∧
          HeapInv hhdm s' (pre₂ ++ coalesceAt { b with free := true } post₂) ∧
          HeadersOnly [b.ptr] { s₂ with mem := s₂.mem.memcpy q b.payload b.size } s') := by
  have hbpay := (h.layout.ok b hb).payload_ne_zero
  obtain ⟨q, s₂, bs₂, hsome, hinv, hout⟩ := h.kmalloc_outcome hh hpmm size
  refine ⟨q, s₂, bs₂, hout, ?_⟩
  unfold Pros.kreallocMove
  rcases hout.allocated h.layout with ⟨rfl, rfl, rfl⟩ | ⟨hne, hkept, hq, hnew⟩
  · refine Or.inl ⟨rfl, rfl, rfl, ?_⟩
    simp only [hsome, Option.bind_eq_bind, Option.bind_some, if_true]
    rfl
  -- the old block is still there, and is not the new one
  have hb₂ : b ∈ bs₂ := hkept b hb hfree hbpay
  obtain ⟨c, hc, -, rfl, hcsize⟩ := hq
  have hbsize : (s₂.size b.ptr).toNat = b.size := by
    rw [(hinv.repr.header b hb₂).size, (hinv.layout.ok b hb₂).toNat_size]
  have hcopy : HeapInv hhdm
      { s₂ with mem := s₂.mem.memcpy c.payload b.payload b.size } bs₂ := by
    refine hinv.of_payload hc rfl rfl fun x hx => if_neg ?_
    have hround := le_roundSize size.toNat
    omega
  obtain ⟨pre₂, post₂, rfl⟩ := List.append_of_mem hb₂
  obtain ⟨s', hs', hinv', hw⟩ := hcopy.kfree_list
  refine Or.inr ⟨pre₂, post₂, s', hne, rfl, hinv, ?_, hinv', hw⟩
  simp only [hsome, Option.bind_eq_bind, Option.bind_some, if_neg hne, HeapBlk.payload_sub, hbsize,
    hs']
  rfl

/-- `krealloc` of a block in use to a size other than zero: it keeps its place when it can, and is
moved when it must. -/
theorem krealloc_outcome (hh : HhdmOk hhdm) (h : HeapInv hhdm s (pre ++ b :: post))
    (hpmm : PmmAnswers hhdm s.pages pmm) (hfree : b.free = false) {size : Word}
    (hzero : size ≠ 0) :
    ∃ q s' bs', Pros.krealloc hhdm pmm s b.payload size = some (q, s') ∧ HeapInv hhdm s' bs' ∧
      ReallocOutcome hhdm pmm s pre b post size q s' bs' := by
  unfold Pros.krealloc
  by_cases hover : size > sizeMax - (heapAlignment - 1)
  · exact ⟨0, s, _, by rw [if_pos hover]; rfl, h, .refused hover⟩
  have hb : b ∈ pre ++ b :: post := by simp
  have hbok := h.layout.ok b hb
  obtain ⟨hround, hlt⟩ := krealloc_round hover hzero
  have hmod := roundSize_mod size.toNat
  have hpos := roundSize_pos size.toNat
  rw [if_neg hover, if_neg hbok.payload_ne_zero]
  simp only [if_neg hzero, hround, HeapBlk.payload_sub]
  by_cases hfits : roundSize size.toNat ≤ b.size
  · -- case 3
    obtain ⟨s', hs', hinv, hw⟩ := h.split hmod hpos hfits
    refine ⟨b.payload, s', _, ?_, hinv, .inPlace s' hover hfits hw⟩
    rw [if_pos ((h.le_size_iff hb hlt).mpr hfits), hs']
    rfl
  -- the block takes over what follows it, and keeps its place and its flag
  obtain ⟨s₁, hs₁, hinv₁, hw⟩ := h.coalesce
  obtain ⟨⟨haddr, hgfree⟩, -⟩ := @absorb_fst post b
  have hpay : (absorb b post).1.payload = b.payload := payload_eq_of_addr_eq haddr
  have hptr : (absorb b post).1.ptr = b.ptr := by rw [HeapBlk.ptr, haddr, HeapBlk.ptr]
  have hg : (absorb b post).1 ∈ pre ++ coalesceAt b post :=
    List.mem_append_right _ List.mem_cons_self
  rw [hfree] at hgfree
  rw [if_neg (mt (h.le_size_iff hb hlt).mp hfits), hs₁]
  simp only [Option.bind_eq_bind, Option.bind_some]
  have htest := hinv₁.le_size_iff hg hlt
  rw [hptr] at htest
  by_cases hfits₁ : roundSize size.toNat ≤ (absorb b post).1.size
  · -- case 4
    obtain ⟨s', hs', hinv, hw'⟩ := hinv₁.split hmod hpos hfits₁
    rw [hptr] at hs' hw'
    refine ⟨b.payload, s', _, ?_, hinv, .grown s' hover (by omega) hfits₁
      ((hw.mono (by simp)).trans hw')⟩
    rw [if_pos (htest.mpr hfits₁), hs']
    rfl
  · -- case 5
    have hnat : (BitVec.ofNat 64 (roundSize size.toNat)).toNat = roundSize size.toNat := by
      rw [BitVec.toNat_ofNat, Nat.mod_eq_of_lt hlt]
    have hsmall : (absorb b post).1.size < roundSize size.toNat := by omega
    have hpmm₁ : PmmAnswers hhdm s₁.pages pmm := by rwa [hw.pages]
    obtain ⟨q, s₂, bs₂, hout, hres⟩ :=
      hinv₁.kreallocMove_outcome hh hpmm₁ hg hgfree (by rw [hnat]; exact hsmall.le)
    rw [hpay] at hres
    rw [if_neg (mt htest.mp hfits₁)]
    rcases hres with ⟨rfl, rfl, rfl, hnone⟩ | ⟨pre₂, post₂, s', hne, rfl, hinv₂, hs', hinv, hw'⟩
    · exact ⟨0, s₂, _, hnone, hinv₁, .stuck s₂ hover hsmall hw hout⟩
    · rw [hptr] at hw'
      exact ⟨q, s', _, hs', hinv,
        .moved s₁ s₂ s' q pre₂ post₂ hover hsmall hinv₁ hw hout hne hinv₂ hw'⟩

end HeapInv

/-- Merging the block with payload `b.payload` keeps the others. -/
theorem kept_coalesceAt : Kept b.payload (pre ++ b :: post) (pre ++ coalesceAt b post) :=
  fun _ hc hfree hne => mem_replace hc (fun e => hne (congrArg HeapBlk.payload e))
    fun hpost => coalesceAt_keeps hpost hfree

/-- Freeing the block with payload `b.payload` keeps the others. -/
theorem kept_coalesceAt_free :
    Kept b.payload (pre ++ b :: post) (pre ++ coalesceAt { b with free := true } post) :=
  fun _ hc hfree hne => mem_replace hc (fun e => hne (congrArg HeapBlk.payload e))
    fun hpost => coalesceAt_keeps hpost hfree

/-- What a resize to a size other than zero leaves. -/
theorem ReallocOutcome.resized {size : Word}
    (hout : ReallocOutcome hhdm pmm s pre b post size q s' bs') (hl : Layout (pre ++ b :: post))
    (hfree : b.free = false) (hn : n ≤ b.size) :
    Kept b.payload (pre ++ b :: post) bs' ∧
      Resized (pre ++ b :: post) bs' b.payload q n size.toNat := by
  have hb : b ∈ pre ++ b :: post := by simp
  have hbne := (hl.ok b hb).payload_ne_zero
  have hle := le_roundSize size.toNat
  obtain ⟨⟨haddr, hgfree⟩, hgrown⟩ := @absorb_fst post b
  have hpay : (absorb b post).1.payload = b.payload := payload_eq_of_addr_eq haddr
  have hg : (absorb b post).1 ∈ pre ++ coalesceAt b post :=
    List.mem_append_right _ List.mem_cons_self
  rw [hfree] at hgfree
  cases hout with
  | refused => exact ⟨fun c hc _ _ => hc, Or.inl ⟨rfl, b, hb, hfree, rfl, hn⟩⟩
  | inPlace s' hover hfits =>
    exact ⟨kept_splitAt, Or.inr ⟨hbne, (holds_splitAt hfree hfits).mono hle, Or.inl rfl⟩⟩
  | grown s' hover _ hfits =>
    have hholds : Holds (pre ++ splitAt (absorb b post).1 (roundSize size.toNat)
        (absorb b post).2) (absorb b post).1.payload _ := holds_splitAt hgfree hfits
    refine ⟨?_, Or.inr ⟨hbne, (hpay ▸ hholds).mono hle, Or.inl rfl⟩⟩
    exact kept_coalesceAt.trans kept_splitAt fun c _ hc => hc.trans hpay
  | stuck s₁ =>
    exact ⟨kept_coalesceAt, Or.inl ⟨rfl, _, hg, hgfree, hpay.symm, hn.trans hgrown⟩⟩
  | moved s₁ s₂ s' q pre₂ post₂ hover hsmall hinv₁ hw hmalloc hne hinv₂ hw' =>
    have hlt := HeapInv.le_roundSize_ofNat hover
    rcases hmalloc.allocated hinv₁.layout with ⟨rfl, -⟩ | ⟨-, hkept, hholds, hnew⟩
    · exact absurd rfl hne
    have hkept' : Kept b.payload (pre ++ coalesceAt b post)
        (pre₂ ++ coalesceAt { (absorb b post).1 with free := true } post₂) := by
      intro c hc hcfree hcne
      refine kept_coalesceAt_free c (hkept c hc hcfree ?_) hcfree (hpay ▸ hcne)
      exact (hinv₁.layout.ok c hc).payload_ne_zero
    refine ⟨kept_coalesceAt.trans hkept' fun c _ hc => hc, Or.inr ⟨hne, ?_, Or.inr ?_⟩⟩
    · obtain ⟨c, hc, hcfree, rfl, hcsize⟩ := hholds
      have hcne : c.payload ≠ (absorb b post).1.payload := (hnew _ hg hgfree).symm
      exact ⟨c, kept_coalesceAt_free c hc hcfree hcne, hcfree, rfl, by omega⟩
    · intro c hc hcfree heq
      by_cases hcb : c.payload = b.payload
      · exact hnew _ hg hgfree (hpay.trans (hcb.symm.trans heq))
      · exact hnew c (kept_coalesceAt c hc hcfree hcb) hcfree heq

namespace HeapInv

/-- What a caller of `krealloc` knows. With size zero the block is freed. -/
theorem krealloc (hh : HhdmOk hhdm) (h : HeapInv hhdm s bs) (hpmm : PmmAnswers hhdm s.pages pmm)
    (hp : Holds bs p n) (size : Word) :
    ∃ q s' bs', Pros.krealloc hhdm pmm s p size = some (q, s') ∧ HeapInv hhdm s' bs' ∧
      Kept p bs bs' ∧ (if size = 0 then q = 0 else Resized bs bs' p q n size.toNat) := by
  by_cases hzero : size = 0
  · obtain ⟨s', bs', hs', hinv, hkept⟩ := h.kfree hp
    refine ⟨0, s', bs', ?_, hinv, hkept, by rw [if_pos hzero]⟩
    obtain ⟨b, hb, -, rfl, -⟩ := hp
    have hover : ¬ (0 : Word) > sizeMax - (heapAlignment - 1) := by decide
    rw [hzero, Pros.krealloc, if_neg hover, if_neg (h.layout.ok b hb).payload_ne_zero, if_pos rfl,
      hs']
    rfl
  · obtain ⟨b, hb, hfree, rfl, hn⟩ := hp
    obtain ⟨pre, post, rfl⟩ := List.append_of_mem hb
    obtain ⟨q, s', bs', hs', hinv, hout⟩ := h.krealloc_outcome hh hpmm hfree hzero
    obtain ⟨hkept, hres⟩ := hout.resized h.layout hfree hn
    exact ⟨q, s', bs', hs', hinv, hkept, by rwa [if_neg hzero]⟩

end HeapInv

end Pros
