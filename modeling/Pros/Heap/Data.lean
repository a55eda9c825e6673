import Pros.Heap.Requests

/-!
# What the heap does to the data in it

The heap writes block headers into memory that was free, or part of a payload, a moment before. Each
call writes them inside the block that it works on, so the payloads of all other blocks in use are
the same bytes afterwards. A resize keeps the first bytes of the payload: in place because the header
of the remainder comes after them, and in a new place because they are copied there.
-/

namespace Pros

open HeapBlk

/-- The payloads of the blocks in use, except the one at `p`, hold the same bytes in both heaps. -/
def PayloadsKept (bs : List HeapBlk) (p : Word) (s s' : Heap) : Prop :=
  ∀ c ∈ bs, c.free = false → c.payload ≠ p → ByteMem.AgreeOn s.mem s'.mem c.payload c.size

variable {hhdm p q size : Word} {pmm : Word → Word} {s s' s'' : Heap} {b c : HeapBlk}
  {bs bs' pre post : List HeapBlk} {hs : List Word} {n : ℕ}

/-! ## Headers and payloads -/

/-- A header that starts in the extent of one block, or right behind it, does not reach into the
payload of another. -/
theorem HeapBlk.Apart.header_payload (h : b.Apart c) (hb : b.Ok) (hc : c.Ok) {a : ℕ}
    (hlo : b.addr ≤ a) (hhi : a ≤ b.stop) :
    ByteMem.Apart (BitVec.ofNat 64 a) 24 c.payload c.size := by
  have hbstop := hb.stop_le
  have hcstop := hc.stop_le
  have hcge := hc.addr_ge
  have hcpay := hc.toNat_payload
  have hbpos := hb.size_pos
  simp only [HeapBlk.Apart, stop] at h hbstop hcstop hhi
  intro x hx hx'
  -- past the end of memory a header would continue at the lowest page, where there are no blocks
  by_cases hend : a = 2 ^ 64
  · subst hend
    bv_omega
  · have hnat : (BitVec.ofNat 64 a).toNat = a := by
      rw [BitVec.toNat_ofNat, Nat.mod_eq_of_lt (by omega)]
    bv_omega

/-- The header of a block is in front of its payload. -/
theorem HeapBlk.Ok.header_apart_payload (hb : b.Ok) :
    ByteMem.Apart b.ptr 24 b.payload b.size := by
  have hstop := hb.stop_le
  have hptr := hb.toNat_ptr
  have hpay := hb.toNat_payload
  simp only [stop] at hstop
  exact ByteMem.apart_of_le (by omega) (by omega)

/-- The header of a remainder comes after the first `n` bytes of the payload. -/
theorem HeapBlk.Ok.remainder_apart_payload (hb : b.Ok) (hn : n ≤ b.size) :
    ByteMem.Apart (b.remainder n).ptr 24 b.payload n := by
  have hstop := hb.stop_le
  have hge := hb.addr_ge
  have hpay := hb.toNat_payload
  simp only [stop] at hstop
  intro x hx hx'
  rw [HeapBlk.ptr, remainder] at hx
  by_cases hend : b.addr + 32 + n = 2 ^ 64
  · rw [hend] at hx
    bv_omega
  · have hnat : (BitVec.ofNat 64 (b.addr + 32 + n)).toNat = b.addr + 32 + n := by
      rw [BitVec.toNat_ofNat, Nat.mod_eq_of_lt (by omega)]
    bv_omega

/-- Writing the headers of a block and of its remainder does not change other payloads. -/
theorem HeadersOnly.agreeOn_payload (hw : HeadersOnly [b.ptr, (b.remainder n).ptr] s s')
    (hl : Layout bs) (hb : b ∈ bs) (hc : c ∈ bs) (hne : b ≠ c) (hn : n ≤ b.size) :
    ByteMem.AgreeOn s.mem s'.mem c.payload c.size := by
  have hapart := hl.apart_of_ne hb hc hne
  have hbok := hl.ok b hb
  have hcok := hl.ok c hc
  refine hw.agreeOn ?_
  simp only [List.mem_cons, List.not_mem_nil, or_false, forall_eq_or_imp, forall_eq]
  refine ⟨?_, ?_⟩
  · exact hapart.header_payload hbok hcok le_rfl (by simp only [stop]; omega)
  · exact hapart.header_payload hbok hcok (show b.addr ≤ b.addr + 32 + n by omega)
      (show b.addr + 32 + n ≤ b.addr + 32 + b.size by omega)

/-- Nor does it change the first `n` bytes of the payload of the block itself. -/
theorem HeadersOnly.agreeOn_own (hw : HeadersOnly [b.ptr, (b.remainder n).ptr] s s') (hb : b.Ok)
    (hn : n ≤ b.size) : ByteMem.AgreeOn s.mem s'.mem b.payload n := by
  refine hw.agreeOn ?_
  simp only [List.mem_cons, List.not_mem_nil, or_false, forall_eq_or_imp, forall_eq]
  exact ⟨hb.header_apart_payload.mono le_rfl hn, hb.remainder_apart_payload hn⟩

/-- The header of one block alone. -/
theorem HeadersOnly.single (hw : HeadersOnly [b.ptr] s s') :
    HeadersOnly [b.ptr, (b.remainder n).ptr] s s' :=
  hw.mono (by simp)

/-- Blocks in use of a layout have different payloads. -/
theorem ne_of_payload_ne (h : c.payload ≠ b.payload) : b ≠ c :=
  fun heq => h (congrArg HeapBlk.payload heq.symm)

/-! ## Allocating and freeing -/

/-- `kmalloc` changes no payload in use. -/
theorem MallocOutcome.payloadsKept (hout : MallocOutcome hhdm pmm s bs size p s' bs')
    (hl : Layout bs) (p₀ : Word) : PayloadsKept bs p₀ s s' := by
  intro c hc hfree _
  cases hout with
  | refused => exact fun _ _ => rfl
  | exhausted => exact fun _ _ => rfl
  | found pre b post s' _ hbs _ hfit hw =>
    exact hw.agreeOn_payload hl (by simp [hbs]) hc (hfit.ne hfree).symm hfit.2
  | fresh pages b s₀ s' _ _ _ _ _ hfit hinv₀ _ hmem hw =>
    -- first the pages are pushed, which writes the header of the new block
    have hne : b ≠ c := (hfit.ne hfree).symm
    have hb : b ∈ b :: bs := List.mem_cons_self
    have hc' : c ∈ b :: bs := List.mem_cons_of_mem _ hc
    have hapart := (hinv₀.layout.apart_of_ne hb hc' hne).header_payload (hinv₀.layout.ok b hb)
      (hinv₀.layout.ok c hc') le_rfl (by simp only [stop]; omega)
    have hpush : ByteMem.AgreeOn s.mem s₀.mem c.payload c.size :=
      fun x hx => hmem x fun hx' => hapart x hx' hx
    exact hpush.trans (hw.agreeOn_payload hinv₀.layout hb hc' hne hfit.2)

/-- Writing the header of the block at `b.payload` changes no other payload. -/
theorem HeadersOnly.payloadsKept (hw : HeadersOnly [b.ptr] s s') (hl : Layout bs) (hb : b ∈ bs) :
    PayloadsKept bs b.payload s s' :=
  fun _ hc _ hne => hw.single.agreeOn_payload hl hb hc (ne_of_payload_ne hne) (Nat.zero_le _)

/-- What is written into one payload leaves the others alone. -/
theorem HeapInv.agreeOn_of_payload (h : HeapInv hhdm s bs) (hb : b ∈ bs) (hc : c ∈ bs)
    (hne : b ≠ c) {m : ByteMem} (hm : ∀ x, ¬ (x - b.payload).toNat < b.size → m x = s.mem x) :
    ByteMem.AgreeOn s.mem m c.payload c.size :=
  fun x hx => hm x fun hx' => (h.payload_apart hb hc).1 hne x hx' hx

/-! ## Resizing -/

theorem HeapBlk.absorb_ptr : (absorb b post).1.ptr = b.ptr := by
  rw [HeapBlk.ptr, absorb_fst.1.1, HeapBlk.ptr]

theorem HeapBlk.absorb_payload : (absorb b post).1.payload = b.payload :=
  payload_eq_of_addr_eq absorb_fst.1.1

theorem mem_coalesceAt_self : (absorb b post).1 ∈ pre ++ coalesceAt b post :=
  List.mem_append_right _ List.mem_cons_self

/-- The block that a move takes, next to the one that is moved. -/
theorem MallocOutcome.moved_block
    (hmalloc : MallocOutcome hhdm pmm s (pre ++ coalesceAt b post)
      (BitVec.ofNat 64 (roundSize size.toNat)) q s' bs')
    (hl : Layout (pre ++ coalesceAt b post)) (hfree : b.free = false) (hq : q ≠ 0)
    (hover : ¬ size > sizeMax - (heapAlignment - 1))
    (hsmall : (absorb b post).1.size < roundSize size.toNat) :
    ∃ d ∈ bs', d.payload = q ∧ (absorb b post).1.size ≤ d.size ∧ (absorb b post).1 ∈ bs' ∧
      (absorb b post).1 ≠ d ∧
      ∀ c ∈ pre ++ coalesceAt b post, c.free = false → c ∈ bs' ∧ d ≠ c := by
  have hle := HeapInv.le_roundSize_ofNat hover
  have hgfree : (absorb b post).1.free = false := absorb_fst.1.2.trans hfree
  rcases hmalloc.allocated hl with ⟨h0, -⟩ | ⟨-, hkept, ⟨d, hd, -, rfl, hsize⟩, hnew⟩
  · exact absurd h0 hq
  have hmem : ∀ c ∈ pre ++ coalesceAt b post, c.free = false → c ∈ bs' ∧ d ≠ c := by
    intro c hc hcfree
    refine ⟨hkept c hc hcfree (hl.ok c hc).payload_ne_zero, ?_⟩
    exact ne_of_payload_ne (hnew c hc hcfree)
  obtain ⟨hg, hne⟩ := hmem _ mem_coalesceAt_self hgfree
  exact ⟨d, hd, rfl, by omega, hg, hne.symm, hmem⟩

/-- `krealloc` changes no payload in use but the one that it is called for. -/
theorem ReallocOutcome.payloadsKept
    (hout : ReallocOutcome hhdm pmm s pre b post size q s' bs')
    (hl : Layout (pre ++ b :: post)) (hfree : b.free = false) :
    PayloadsKept (pre ++ b :: post) b.payload s s' := by
  have hb : b ∈ pre ++ b :: post := by simp
  intro c hc hcfree hne
  cases hout with
  | refused => exact fun _ _ => rfl
  | inPlace s' _ hfits hw => exact hw.agreeOn_payload hl hb hc (ne_of_payload_ne hne) hfits
  | grown s' _ _ hfits hw =>
    rw [← @absorb_ptr b post] at hw
    refine hw.agreeOn_payload hl.coalesceAt mem_coalesceAt_self (kept_coalesceAt c hc hcfree hne)
      (ne_of_payload_ne ?_) hfits
    rwa [absorb_payload]
  | stuck s₁ _ _ hw => exact hw.payloadsKept hl hb c hc hcfree hne
  | moved s₁ s₂ s' q pre₂ post₂ hover hsmall hinv₁ hw hmalloc hq hinv₂ hw' =>
    have hc₁ := kept_coalesceAt c hc hcfree hne
    obtain ⟨d, hd, rfl, hdsize, hg, hgd, hmem⟩ :=
      hmalloc.moved_block hinv₁.layout hfree hq hover hsmall
    obtain ⟨hc₂, hdc⟩ := hmem c hc₁ hcfree
    have h₁ : ByteMem.AgreeOn s.mem s₁.mem c.payload c.size :=
      hw.payloadsKept hl hb c hc hcfree hne
    have h₂ : ByteMem.AgreeOn s₁.mem s₂.mem c.payload c.size :=
      hmalloc.payloadsKept hinv₁.layout _ c hc₁ hcfree hne
    have h₃ : ByteMem.AgreeOn s₂.mem (s₂.mem.memcpy d.payload b.payload (absorb b post).1.size)
        c.payload c.size :=
      hinv₂.agreeOn_of_payload hd hc₂ hdc fun x hx => if_neg (by omega)
    rw [← @absorb_ptr b post] at hw'
    have h₄ := hw'.payloadsKept hinv₂.layout hg c hc₂ hcfree (by rwa [absorb_payload])
    exact ((h₁.trans h₂).trans h₃).trans h₄

/-- The payload itself: all of it is there after a failure, and as much of it as was requested before
and is requested now after a success. -/
theorem ReallocOutcome.data (hout : ReallocOutcome hhdm pmm s pre b post size q s' bs')
    (hl : Layout (pre ++ b :: post)) (hfree : b.free = false) (hn : n ≤ b.size) :
    (q = 0 → ByteMem.AgreeOn s.mem s'.mem b.payload b.size) ∧
      (q ≠ 0 → ∀ i < min n size.toNat,
        s'.mem (q + BitVec.ofNat 64 i) = s.mem (b.payload + BitVec.ofNat 64 i)) := by
  have hb : b ∈ pre ++ b :: post := by simp
  have hbok := hl.ok b hb
  have hbne := hbok.payload_ne_zero
  have hgok := hl.coalesceAt.ok _ mem_coalesceAt_self
  have hround := le_roundSize size.toNat
  have hlt := size.isLt
  have hgrown := (@absorb_fst post b).2
  -- in place: the first bytes of the payload are untouched
  have hsame {m : ByteMem} (h : ByteMem.AgreeOn s.mem m b.payload (roundSize size.toNat)) :
      ∀ i < min n size.toNat, m (b.payload + BitVec.ofNat 64 i) =
        s.mem (b.payload + BitVec.ofNat 64 i) := by
    intro i hi
    refine h _ ?_
    rw [ByteMem.toNat_add_ofNat_sub _ (by omega)]
    omega
  cases hout with
  | refused => exact ⟨fun _ _ _ => rfl, fun h0 => absurd rfl h0⟩
  | inPlace s' _ hfits hw =>
    exact ⟨fun h0 => absurd h0 hbne, fun _ => hsame (hw.agreeOn_own hbok hfits)⟩
  | grown s' _ _ hfits hw =>
    rw [← @absorb_ptr b post] at hw
    have hown := hw.agreeOn_own hgok hfits
    rw [absorb_payload] at hown
    exact ⟨fun h0 => absurd h0 hbne, fun _ => hsame hown⟩
  | stuck s₁ _ _ hw =>
    refine ⟨fun _ => hw.agreeOn fun a ha => ?_, fun h0 => absurd rfl h0⟩
    rw [List.mem_singleton.mp ha]
    exact hbok.header_apart_payload
  | moved s₁ s₂ s' q pre₂ post₂ hover hsmall hinv₁ hw hmalloc hq hinv₂ hw' =>
    refine ⟨fun h0 => absurd h0 hq, fun _ i hi => ?_⟩
    have hgfree : (absorb b post).1.free = false := absorb_fst.1.2.trans hfree
    obtain ⟨d, hd, rfl, hdsize, hg, hgd, -⟩ :=
      hmalloc.moved_block hinv₁.layout hfree hq hover hsmall
    have hi' : i < (absorb b post).1.size := by omega
    have hdi : (d.payload + BitVec.ofNat 64 i - d.payload).toNat = i :=
      ByteMem.toNat_add_ofNat_sub _ (by omega)
    have hbi : (b.payload + BitVec.ofNat 64 i - b.payload).toNat = i :=
      ByteMem.toNat_add_ofNat_sub _ (by omega)
    rw [← @absorb_ptr b post] at hw hw'
    -- backwards: freeing the old block, the copy, the allocation, and the merging before it
    have h₄ : s'.mem (d.payload + BitVec.ofNat 64 i) =
        (s₂.mem.memcpy d.payload b.payload (absorb b post).1.size)
          (d.payload + BitVec.ofNat 64 i) :=
      hw'.single.agreeOn_payload hinv₂.layout hg hd hgd (Nat.zero_le _) _ (by omega)
    have h₃ : (s₂.mem.memcpy d.payload b.payload (absorb b post).1.size)
        (d.payload + BitVec.ofNat 64 i) = s₂.mem (b.payload + BitVec.ofNat 64 i) := by
      have hback : d.payload + BitVec.ofNat 64 i - d.payload = BitVec.ofNat 64 i := by bv_omega
      rw [ByteMem.memcpy, if_pos (by omega), hback]
    have h₂ : s₂.mem (b.payload + BitVec.ofNat 64 i) = s₁.mem (b.payload + BitVec.ofNat 64 i) := by
      have hkept := hmalloc.payloadsKept hinv₁.layout 0 _ mem_coalesceAt_self hgfree
        hgok.payload_ne_zero
      rw [absorb_payload] at hkept
      exact hkept _ (by omega)
    have h₁ : s₁.mem (b.payload + BitVec.ofNat 64 i) = s.mem (b.payload + BitVec.ofNat 64 i) := by
      refine hw.mem _ fun a ha hx => ?_
      rw [List.mem_singleton.mp ha] at hx
      have hapart := hgok.header_apart_payload
      rw [absorb_payload] at hapart
      exact hapart _ hx (by omega)
    rw [h₄, h₃, h₂, h₁]

/-! ## Zeroing -/

/-- The test of `kcalloc` is exactly that the product does not wrap. -/
theorem kcalloc_product {num size : Word} (h : ¬ (size ≠ 0 ∧ num > sizeMax / size)) :
    num.toNat * size.toNat < 2 ^ 64 ∧ (num * size).toNat = num.toNat * size.toNat := by
  have hlt : num.toNat * size.toNat < 2 ^ 64 := by
    by_cases hzero : size = 0
    · simp [hzero]
    · have hpos : 0 < size.toNat := by
        rw [Nat.pos_iff_ne_zero]
        exact fun h0 => hzero (BitVec.eq_of_toNat_eq h0)
      have hle : num.toNat ≤ (2 ^ 64 - 1) / size.toNat := by
        have hnot : ¬ num > sizeMax / size := fun hgt => h ⟨hzero, hgt⟩
        rw [gt_iff_lt, BitVec.lt_def, BitVec.toNat_udiv, BitVec.toNat_allOnes] at hnot
        omega
      have hmul := (Nat.le_div_iff_mul_le hpos).mp hle
      omega
  exact ⟨hlt, by rw [BitVec.toNat_mul, Nat.mod_eq_of_lt hlt]⟩

/-- `kcalloc` changes no payload in use, and what it returns is zeroed. -/
theorem HeapInv.kcalloc_data (hh : HhdmOk hhdm) (h : HeapInv hhdm s bs)
    (hpmm : PmmAnswers hhdm s.pages pmm) (num size : Word) :
    ∃ p s', Pros.kcalloc hhdm pmm s num size = some (p, s') ∧ PayloadsKept bs 0 s s' ∧
      (p ≠ 0 → num.toNat * size.toNat < 2 ^ 64 ∧
        (∀ i < num.toNat * size.toNat, s'.mem (p + BitVec.ofNat 64 i) = 0) ∧
        ∃ bs', HeapInv hhdm s' bs' ∧ Holds bs' p (num.toNat * size.toNat)) := by
  obtain ⟨p, s', bs', hsome, hinv, ⟨rfl, rfl, rfl⟩ | ⟨hne, hover, s₁, hout, hinv₁, rfl⟩⟩ :=
    h.kcalloc_outcome hh hpmm num size
  · exact ⟨0, s', hsome, fun _ _ _ _ _ _ => rfl, fun h0 => absurd rfl h0⟩
  obtain ⟨hlt, hprod⟩ := kcalloc_product hover
  rcases hout.allocated h.layout with ⟨h0, -⟩ | ⟨-, hkept, ⟨b, hb, hbfree, rfl, hsize⟩, hnew⟩
  · exact absurd h0 hne
  have hround := le_roundSize (num * size).toNat
  refine ⟨b.payload, _, hsome, fun c hc hcfree hcne => ?_, fun _ => ⟨hlt, fun i hi => if_pos ?_,
    bs', hinv, b, hb, hbfree, rfl, by omega⟩⟩
  · have hc₁ : c ∈ bs' := hkept c hc hcfree hcne
    have hbc : b ≠ c := ne_of_payload_ne (hnew c hc hcfree)
    exact (hout.payloadsKept h.layout 0 c hc hcfree hcne).trans
      (hinv₁.agreeOn_of_payload hb hc₁ hbc fun x hx => if_neg (by omega))
  · rw [ByteMem.toNat_add_ofNat_sub _ (by omega)]
    omega

/-! ## The data of live pointers in every state of every run -/

/-- The size of the payload at `p`, as its header has it. -/
def Heap.payloadSize (s : Heap) (p : Word) : ℕ := (s.size (p - heapHeaderSize)).toNat

theorem HeapInv.payloadSize_eq (h : HeapInv hhdm s bs) (hb : b ∈ bs) :
    s.payloadSize b.payload = b.size := by
  rw [Heap.payloadSize, HeapBlk.payload_sub, (h.repr.header b hb).size,
    (h.layout.ok b hb).toNat_size]

/-- Payloads in use are what live pointers point at. -/
theorem HeapRun.Inv.agreeOn_live {t : HeapRun} (h : t.Inv hhdm bs)
    (hkept : PayloadsKept bs p t.heap s') {e : Word × Word} (he : e ∈ t.live) (hne : e.1 ≠ p) :
    ByteMem.AgreeOn t.heap.mem s'.mem e.1 (t.heap.payloadSize e.1) := by
  obtain ⟨b, hb, hfree, hp, -⟩ := h.live e he
  rw [hp] at hne ⊢
  rw [h.heap.payloadSize_eq hb]
  exact hkept b hb hfree hne

/-- In every state of every run: `krealloc` of a live pointer either fails and leaves its whole
payload alone, or returns a block with room for the new size that starts with the bytes that were
there, as far as both requests go; when that block is another one, the old one is free. No other
payload in use changes, and neither does any in `kmalloc`, `kfree` and `kcalloc`. What `kcalloc`
returns is as many zero bytes as the product of its arguments, which does not wrap. -/
theorem heap_preserves_data {t : HeapRun} (hh : HhdmOk hhdm) (ht : HeapReachable hhdm t) :
    (∀ pmm p request size, PmmAnswers hhdm t.heap.pages pmm → (p, request) ∈ t.live → size ≠ 0 →
      ∃ q heap, krealloc hhdm pmm t.heap p size = some (q, heap) ∧
        (q ≠ 0 → (∃ bs, HeapInv hhdm heap bs ∧ Holds bs q size.toNat) ∧
          (∀ i < min request.toNat size.toNat,
            heap.mem (q + BitVec.ofNat 64 i) = t.heap.mem (p + BitVec.ofNat 64 i)) ∧
          (q ≠ p → heap.isFree (p - heapHeaderSize) = true ∧
            ∀ n, (p, n) ∉ t.afterRealloc p size q)) ∧
        (q = 0 → ByteMem.AgreeOn t.heap.mem heap.mem p (t.heap.payloadSize p)) ∧
        ∀ e ∈ t.live, e.1 ≠ p →
          ByteMem.AgreeOn t.heap.mem heap.mem e.1 (t.heap.payloadSize e.1)) ∧
    (∀ pmm size, PmmAnswers hhdm t.heap.pages pmm →
      ∃ p heap, kmalloc hhdm pmm t.heap size = some (p, heap) ∧
        ∀ e ∈ t.live, ByteMem.AgreeOn t.heap.mem heap.mem e.1 (t.heap.payloadSize e.1)) ∧
    (∀ p, t.Valid p → ∃ heap, kfree t.heap p = some heap ∧
      ∀ e ∈ t.live, e.1 ≠ p →
        ByteMem.AgreeOn t.heap.mem heap.mem e.1 (t.heap.payloadSize e.1)) ∧
    ∀ pmm num size, PmmAnswers hhdm t.heap.pages pmm →
      ∃ p heap, kcalloc hhdm pmm t.heap num size = some (p, heap) ∧
        (p ≠ 0 → num.toNat * size.toNat < 2 ^ 64 ∧
          (∀ i < num.toNat * size.toNat, heap.mem (p + BitVec.ofNat 64 i) = 0) ∧
          ∃ bs, HeapInv hhdm heap bs ∧ Holds bs p (num.toNat * size.toNat)) ∧
        ∀ e ∈ t.live, ByteMem.AgreeOn t.heap.mem heap.mem e.1 (t.heap.payloadSize e.1) := by
  obtain ⟨bs, h⟩ := ht.exists_inv hh
  have hlive {heap : Heap} (hkept : PayloadsKept bs 0 t.heap heap) :
      ∀ e ∈ t.live, ByteMem.AgreeOn t.heap.mem heap.mem e.1 (t.heap.payloadSize e.1) :=
    fun e he => h.agreeOn_live hkept he (h.payload_ne_zero he)
  refine ⟨fun pmm p request size hpmm hp hzero => ?_, fun pmm size hpmm => ?_, fun p hp => ?_,
    fun pmm num size hpmm => ?_⟩
  · obtain ⟨b, hb, hfree, rfl, hn⟩ := h.live _ hp
    obtain ⟨pre, post, rfl⟩ := List.append_of_mem hb
    obtain ⟨q, heap, bs', hsome, hinv, hout⟩ := h.heap.krealloc_outcome hh hpmm hfree hzero
    obtain ⟨hfail, hdata⟩ := hout.data h.heap.layout hfree hn
    refine ⟨q, heap, hsome, fun hq => ⟨?_, hdata hq, fun hqb => ⟨?_, ?_⟩⟩, fun hq => ?_,
      fun e he hne => h.agreeOn_live (hout.payloadsKept h.heap.layout hfree) he hne⟩
    · rcases (hout.resized h.heap.layout hfree hn).2 with ⟨h0, -⟩ | ⟨-, hholds, -⟩
      · exact absurd h0 hq
      · exact ⟨bs', hinv, hholds⟩
    · -- the block was moved
      cases hout with
      | refused => exact absurd rfl hq
      | inPlace => exact absurd rfl hqb
      | grown => exact absurd rfl hqb
      | stuck => exact absurd rfl hq
      | moved s₁ s₂ s' q pre₂ post₂ =>
        have hheader := (hinv.repr.header _ mem_coalesceAt_self).isFree
        rw [absorb_ptr, absorb_fst.1.2] at hheader
        rw [HeapBlk.payload_sub, ← @absorb_ptr b post]
        exact hheader
    · intro n hmem
      rw [HeapRun.afterRealloc, if_pos hq, List.mem_cons, Prod.mk.injEq] at hmem
      rcases hmem with ⟨heq, -⟩ | hmem
      · exact hqb heq.symm
      · exact of_decide_eq_true (List.mem_filter.mp hmem).2 rfl
    · rw [h.heap.payloadSize_eq hb]
      exact hfail hq
  · obtain ⟨p, heap, bs', hsome, -, hout⟩ := h.heap.kmalloc_outcome hh hpmm size
    exact ⟨p, heap, hsome, hlive (hout.payloadsKept h.heap.layout 0)⟩
  · rcases hp with rfl | ⟨n, hp⟩
    · exact ⟨t.heap, if_pos rfl, fun _ _ _ _ _ => rfl⟩
    · obtain ⟨b, hb, hfree, rfl, -⟩ := h.live _ hp
      obtain ⟨pre, post, rfl⟩ := List.append_of_mem hb
      obtain ⟨heap, hsome, -, hw⟩ := h.heap.kfree_list
      exact ⟨heap, hsome, fun e he hne =>
        h.agreeOn_live (hw.payloadsKept h.heap.layout hb) he hne⟩
  · obtain ⟨p, heap, hsome, hkept, hzeroed⟩ := h.heap.kcalloc_data hh hpmm num size
    exact ⟨p, heap, hsome, hzeroed, hlive hkept⟩

/-- The 64 bytes of the one block in use are resized to 100. -/
theorem heap_preserves_data_one_block :
    ∃ q heap, krealloc exampleHhdm (fun _ => 0) oneBlockHeap 0xffff800000001020 100 =
        some (q, heap) ∧ q = 0xffff800000001020 ∧
      ∀ i < 64, heap.mem (q + BitVec.ofNat 64 i) =
        oneBlockHeap.mem (0xffff800000001020 + BitVec.ofNat 64 i) := by
  obtain ⟨hrealloc, -⟩ := heap_preserves_data exampleHhdm_ok oneBlockHeap_reachable
  obtain ⟨q, heap, hsome, hdata, -⟩ := hrealloc (fun _ => 0) 0xffff800000001020 64 100
    (pmmAnswers_none _ _) List.mem_cons_self (by decide)
  have hq : (krealloc exampleHhdm (fun _ => 0) oneBlockHeap 0xffff800000001020 100).map Prod.fst =
      some 0xffff800000001020 := by decide +kernel
  rw [hsome, Option.map_some, Option.some.injEq] at hq
  obtain rfl : q = 0xffff800000001020 := hq
  obtain ⟨-, hbytes, -⟩ := hdata (by decide)
  exact ⟨_, heap, hsome, rfl, fun i hi => hbytes i (lt_min hi (lt_trans hi (by decide)))⟩

end Pros
