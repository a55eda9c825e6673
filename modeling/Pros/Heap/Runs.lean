import Pros.Heap.Operations

/-!
# The heap over whole runs

A run of the heap starts with `heap_init` and goes on with any sequence of calls whose pointer
arguments are live, that is, returned earlier and not freed since. In between, owners write into
their payloads, and all memory outside the pages of the heap may change at will. At every call the
page allocator may fail; when it does not, it answers with pages that the heap does not have yet.

`HeapRun` pairs the heap with the live pointers and the size each of them was last requested with.
-/

namespace Pros

/-- The heap with its live pointers, each with the size of its last request. -/
structure HeapRun where
  heap : Heap
  live : List (Word × Word)

namespace HeapRun

/-- The live pointers without `p`. -/
def drop (s : HeapRun) (p : Word) : List (Word × Word) := s.live.filter (·.1 ≠ p)

/-- The live pointers after an allocation of `size` bytes returned `p`. -/
def afterAlloc (s : HeapRun) (p size : Word) : List (Word × Word) :=
  if p = 0 then s.live else (p, size) :: s.live

/-- The live pointers after `krealloc(p, size)` returned `q`: a null result means that `p` was freed
if the size was zero, and that nothing happened otherwise. -/
def afterRealloc (s : HeapRun) (p size q : Word) : List (Word × Word) :=
  if q ≠ 0 then (q, size) :: s.drop p
  else if p ≠ 0 ∧ size = 0 then s.drop p
  else s.live

/-- A pointer that may be passed to `kfree` and `krealloc`. -/
def Valid (s : HeapRun) (p : Word) : Prop := p = 0 ∨ ∃ n, (p, n) ∈ s.live

end HeapRun

section

variable (hhdm : Word)

/-- One step of a run. -/
inductive HeapStep : HeapRun → HeapRun → Prop
  | kmalloc (s : HeapRun) (pmm : Word → Word) (size p : Word) (heap : Heap) :
      PmmAnswers hhdm s.heap.pages pmm → kmalloc hhdm pmm s.heap size = some (p, heap) →
      HeapStep s { heap, live := s.afterAlloc p size }
  | kcalloc (s : HeapRun) (pmm : Word → Word) (num size p : Word) (heap : Heap) :
      PmmAnswers hhdm s.heap.pages pmm → kcalloc hhdm pmm s.heap num size = some (p, heap) →
      HeapStep s { heap, live := s.afterAlloc p (num * size) }
  | krealloc (s : HeapRun) (pmm : Word → Word) (p size q : Word) (heap : Heap) :
      PmmAnswers hhdm s.heap.pages pmm → s.Valid p →
      krealloc hhdm pmm s.heap p size = some (q, heap) →
      HeapStep s { heap, live := s.afterRealloc p size q }
  | kfree (s : HeapRun) (p : Word) (heap : Heap) : s.Valid p → kfree s.heap p = some heap →
      HeapStep s { heap, live := s.drop p }
  -- an owner writes one of the bytes it asked for
  | write (s : HeapRun) (p n x : Word) (v : BitVec 8) : (p, n) ∈ s.live →
      (x - p).toNat < n.toNat →
      HeapStep s { s with heap := { s.heap with mem := s.heap.mem.store8 x v } }
  -- memory that is not the heap's
  | elsewhere (s : HeapRun) (mem : ByteMem) :
      (∀ x, InPages hhdm s.heap.pages x.toNat → mem x = s.heap.mem x) →
      HeapStep s { s with heap := { s.heap with mem } }

/-- The invariant of runs: every live pointer is the payload of a block in use that is as large as
requested. -/
structure HeapRun.Inv (s : HeapRun) (bs : List HeapBlk) : Prop where
  heap : HeapInv hhdm s.heap bs
  nodup : (s.live.map Prod.fst).Nodup
  live : ∀ e ∈ s.live, Holds bs e.1 e.2.toNat

end

variable {hhdm p q n size : Word} {pmm : Word → Word} {s s' : HeapRun} {heap : Heap}
  {bs bs' : List HeapBlk}

/-- The header of a block lies in the pages of the heap. -/
theorem HeapInv.header_inPages (h : HeapInv hhdm heap bs) {b : HeapBlk} (hb : b ∈ bs) {x : Word}
    (hx : (x - b.ptr).toNat < 24) : InPages hhdm heap.pages x.toNat := by
  have hok := h.layout.ok b hb
  have hstop := hok.stop_le
  have hptr := hok.toNat_ptr
  have hpos := hok.size_pos
  refine (h.cover _).mp ⟨b, hb, ?_⟩
  simp only [HeapBlk.stop] at hstop ⊢
  bv_omega

/-- Memory outside the pages of the heap does not matter to the heap. -/
theorem HeapInv.elsewhere (h : HeapInv hhdm heap bs) {mem : ByteMem}
    (hmem : ∀ x : Word, InPages hhdm heap.pages x.toNat → mem x = heap.mem x) :
    HeapInv hhdm { heap with mem } bs :=
  h.of_headers rfl rfl fun _ hb x hx => hmem x (h.header_inPages hb hx)

namespace HeapRun.Inv

/-- `heap_init` sets up one free block, the first page. -/
theorem init (hh : HhdmOk hhdm) (hpmm : PmmAnswers hhdm [] pmm) {mem : ByteMem}
    (h : heapInit hhdm pmm mem = some heap) :
    HeapRun.Inv hhdm { heap, live := [] } [pageBlk hhdm (pmm 1) 1] := by
  rw [heapInit] at h
  by_cases hfail : pmm 1 = 0
  · rw [if_pos hfail] at h
    cases h
  rw [if_neg hfail, Option.some.injEq] at h
  have hrun := (hpmm 1 (by decide)).resolve_left hfail
  subst h
  exact ⟨(HeapInv.empty mem).pushPages hh (by decide) (by decide) (fun q hq => (hrun q hq).1) (by simp),
    List.nodup_nil, by simp⟩

theorem payload_ne_zero (h : s.Inv hhdm bs) {e : Word × Word} (he : e ∈ s.live) : e.1 ≠ 0 := by
  obtain ⟨b, hb, -, hp, -⟩ := h.live e he
  rw [hp]
  exact (h.heap.layout.ok b hb).payload_ne_zero

/-- Live pointers other than `p` are kept when the blocks in use are. -/
theorem holds_of_kept (h : s.Inv hhdm bs) (hkept : Kept p bs bs') :
    ∀ e ∈ s.drop p, Holds bs' e.1 e.2.toNat := by
  intro e he
  obtain ⟨hmem, hne⟩ := List.mem_filter.mp he
  obtain ⟨b, hb, hfree, hp, hsize⟩ := h.live e hmem
  refine ⟨b, hkept b hb hfree ?_, hfree, hp, hsize⟩
  rw [← hp]
  exact of_decide_eq_true hne

theorem nodup_drop (h : s.Inv hhdm bs) : ((s.drop p).map Prod.fst).Nodup :=
  h.nodup.sublist (List.filter_sublist.map _)

/-- No live pointer is null, so without null they are all there. -/
theorem drop_zero (h : s.Inv hhdm bs) : s.drop 0 = s.live :=
  List.filter_eq_self.mpr fun _ he => decide_eq_true (h.payload_ne_zero he)

/-- After an allocation that succeeded. -/
theorem allocated (h : s.Inv hhdm bs) (hinv : HeapInv hhdm heap bs') (hne : p ≠ 0)
    (hkept : Kept 0 bs bs') (hholds : Holds bs' p size.toNat)
    (hnew : ∀ c ∈ bs, c.free = false → c.payload ≠ p) :
    HeapRun.Inv hhdm { heap, live := s.afterAlloc p size } bs' := by
  have hlive := h.holds_of_kept hkept
  rw [h.drop_zero] at hlive
  rw [HeapRun.afterAlloc, if_neg hne]
  refine ⟨hinv, List.nodup_cons.mpr ⟨fun hmem => ?_, h.nodup⟩, ?_⟩
  · -- a live pointer belongs to a block that was in use, the new one does not
    obtain ⟨e, he, rfl⟩ := List.mem_map.mp hmem
    obtain ⟨b, hb, hfree, hp, -⟩ := h.live e he
    exact hnew b hb hfree hp.symm
  · simp only [List.mem_cons, forall_eq_or_imp]
    exact ⟨hholds, hlive⟩

/-- After an allocation. -/
theorem alloc (h : s.Inv hhdm bs) {result : Option (Word × Heap)}
    (hres : Allocated hhdm s.heap bs (roundSize size.toNat) result)
    (hret : result = some (p, heap)) :
    ∃ bs', HeapRun.Inv hhdm { heap, live := s.afterAlloc p size } bs' := by
  rcases hres with hnone | ⟨p', heap', bs', hsome, hinv, hne, hkept, hholds, hnew⟩
  · rw [hnone, Option.some.injEq, Prod.mk.injEq] at hret
    obtain ⟨rfl, rfl⟩ := hret
    exact ⟨bs, by simpa [HeapRun.afterAlloc] using h⟩
  · rw [hsome, Option.some.injEq, Prod.mk.injEq] at hret
    obtain ⟨rfl, rfl⟩ := hret
    exact ⟨bs', h.allocated hinv hne hkept (hholds.mono (le_roundSize _)) hnew⟩

/-- After `krealloc` of a live pointer. -/
theorem realloc (h : s.Inv hhdm bs) (hne : p ≠ 0) (hinv : HeapInv hhdm heap bs')
    (hkept : Kept p bs bs') (hp : (p, n) ∈ s.live)
    (hres : if size = 0 then q = 0 else Resized bs bs' p q n.toNat size.toNat) :
    HeapRun.Inv hhdm { heap, live := s.afterRealloc p size q } bs' := by
  have hdrop := h.holds_of_kept hkept
  have hfreed : HeapRun.Inv hhdm { heap, live := s.drop p } bs' := ⟨hinv, h.nodup_drop, hdrop⟩
  rw [HeapRun.afterRealloc]
  by_cases hsize : size = 0
  · rw [if_pos hsize] at hres
    rw [if_neg (not_not.mpr hres), if_pos ⟨hne, hsize⟩]
    exact hfreed
  rw [if_neg hsize] at hres
  rcases hres with ⟨rfl, hold⟩ | ⟨hq, hnew, hfresh⟩
  · -- the resize failed and the pointer is still good
    rw [if_neg (not_not.mpr rfl), if_neg fun hc => hsize hc.2]
    refine ⟨hinv, h.nodup, fun e he => ?_⟩
    by_cases hep : e.1 = p
    · have hen : e = (p, n) := List.inj_on_of_nodup_map h.nodup he hp hep
      rw [hen]
      exact hold
    · exact hdrop e (List.mem_filter.mpr ⟨he, decide_eq_true hep⟩)
  · rw [if_pos hq]
    refine ⟨hinv, List.nodup_cons.mpr ⟨fun hmem => ?_, h.nodup_drop⟩, ?_⟩
    · obtain ⟨e, he, rfl⟩ := List.mem_map.mp hmem
      obtain ⟨hlive, hep⟩ := List.mem_filter.mp he
      rcases hfresh with rfl | hfresh
      · exact of_decide_eq_true hep rfl
      · obtain ⟨b, hb, hfree, hpay, -⟩ := h.live e hlive
        exact hfresh b hb hfree hpay.symm
    · simp only [List.mem_cons, forall_eq_or_imp]
      exact ⟨hnew, hdrop⟩

/-- After `kfree`. -/
theorem release (h : s.Inv hhdm bs) (hp : s.Valid p) (hret : kfree s.heap p = some heap) :
    ∃ bs', HeapRun.Inv hhdm { heap, live := s.drop p } bs' := by
  rcases hp with rfl | ⟨n, hp⟩
  · rw [kfree, if_pos rfl, Option.some.injEq] at hret
    rw [← hret, h.drop_zero]
    exact ⟨bs, h⟩
  · obtain ⟨heap', bs', hs', hinv, hkept⟩ := h.heap.kfree (h.live _ hp)
    rw [hs', Option.some.injEq] at hret
    exact ⟨bs', hret ▸ hinv, h.nodup_drop, h.holds_of_kept hkept⟩

/-- Writing one requested byte. -/
theorem write (h : s.Inv hhdm bs) {x : Word} {v : BitVec 8} (hp : (p, n) ∈ s.live)
    (hx : (x - p).toNat < n.toNat) :
    HeapRun.Inv hhdm { s with heap := { s.heap with mem := s.heap.mem.store8 x v } } bs := by
  obtain ⟨b, hb, -, rfl, hsize⟩ := h.live _ hp
  refine ⟨h.heap.of_payload hb rfl rfl fun y hy => if_neg ?_, h.nodup, h.live⟩
  rintro rfl
  exact hy (lt_of_lt_of_le hx hsize)

/-- Memory outside the pages of the heap. -/
theorem elsewhere (h : s.Inv hhdm bs) {mem : ByteMem}
    (hmem : ∀ x, InPages hhdm s.heap.pages x.toNat → mem x = s.heap.mem x) :
    HeapRun.Inv hhdm { s with heap := { s.heap with mem } } bs :=
  ⟨h.heap.elsewhere hmem, h.nodup, h.live⟩

end HeapRun.Inv

/-- `krealloc` of a null pointer is `kmalloc`, except that it has its own size limit. -/
theorem krealloc_null (hhdm : Word) (pmm : Word → Word) (s : Heap) (size : Word) :
    krealloc hhdm pmm s 0 size = some (0, s) ∨
      krealloc hhdm pmm s 0 size = kmalloc hhdm pmm s size := by
  unfold krealloc
  by_cases hover : size > sizeMax - (heapAlignment - 1)
  · rw [if_pos hover]
    exact Or.inl rfl
  · rw [if_neg hover, if_pos rfl]
    exact Or.inr rfl

/-- Every step keeps the invariant. -/
theorem HeapStep.inv (hh : HhdmOk hhdm) (hstep : HeapStep hhdm s s') (h : s.Inv hhdm bs) :
    ∃ bs', s'.Inv hhdm bs' := by
  cases hstep with
  | kmalloc pmm size p heap hpmm hret => exact h.alloc (h.heap.kmalloc hh hpmm size) hret
  | kcalloc pmm num size p heap hpmm hret => exact h.alloc (h.heap.kcalloc hh hpmm num size) hret
  | krealloc pmm p size q heap hpmm hp hret =>
    rcases hp with rfl | ⟨n, hp⟩
    · -- a null pointer: as `kmalloc`
      rcases krealloc_null hhdm pmm s.heap size with hnull | hnull
      · rw [hnull, Option.some.injEq, Prod.mk.injEq] at hret
        obtain ⟨rfl, rfl⟩ := hret
        exact ⟨bs, by simpa [HeapRun.afterRealloc] using h⟩
      · rw [hnull] at hret
        have hlive : s.afterRealloc 0 size q = s.afterAlloc q size := by
          rw [HeapRun.afterRealloc, HeapRun.afterAlloc, h.drop_zero]
          by_cases hq : q = 0 <;> simp [hq]
        rw [hlive]
        exact h.alloc (h.heap.kmalloc hh hpmm size) hret
    · obtain ⟨q', heap', bs', hs', hinv, hkept, hres⟩ := h.heap.krealloc hh hpmm (h.live _ hp) size
      rw [hs', Option.some.injEq, Prod.mk.injEq] at hret
      obtain ⟨rfl, rfl⟩ := hret
      exact ⟨bs', h.realloc (h.payload_ne_zero hp) hinv hkept hp hres⟩
  | kfree p heap hp hret => exact h.release hp hret
  | write p n x v hp hx => exact ⟨bs, h.write hp hx⟩
  | elsewhere mem hmem => exact ⟨bs, h.elsewhere hmem⟩

/-- What a run keeps, by induction on its steps. -/
theorem HeapRun.exists_inv (hh : HhdmOk hhdm) (hpmm : PmmAnswers hhdm [] pmm) {mem : ByteMem}
    (hinit : heapInit hhdm pmm mem = some heap)
    (hrun : Relation.ReflTransGen (HeapStep hhdm) { heap, live := [] } s) :
    ∃ bs, s.Inv hhdm bs := by
  induction hrun with
  | refl => exact ⟨_, HeapRun.Inv.init hh hpmm hinit⟩
  | tail _ hstep ih =>
    obtain ⟨bs, hbs⟩ := ih
    exact hstep.inv hh hbs

/-! ## The property of whole runs -/

/-- The payload of a block meets neither the extent of another block nor its own header. -/
theorem HeapInv.payload_apart {heap : Heap} (h : HeapInv hhdm heap bs) {b c : HeapBlk}
    (hb : b ∈ bs) (hc : c ∈ bs) :
    (b ≠ c → ByteMem.Apart b.payload b.size c.payload c.size) ∧
      ByteMem.Apart b.payload b.size c.ptr 32 := by
  have hbok := h.layout.ok b hb
  have hcok := h.layout.ok c hc
  have hbnat := hbok.toNat_payload
  have hcnat := hcok.toNat_payload
  have hbptr := hbok.toNat_ptr
  have hcptr := hcok.toNat_ptr
  have hbstop := hbok.stop_le
  have hcstop := hcok.stop_le
  simp only [HeapBlk.stop] at hbstop hcstop
  by_cases hbc : b = c
  · subst hbc
    refine ⟨fun hne => absurd rfl hne, (ByteMem.apart_of_le ?_ ?_).symm⟩ <;> omega
  · rcases h.layout.apart_of_ne hb hc hbc with hd | hd <;> simp only [HeapBlk.stop] at hd
    · refine ⟨fun _ => ByteMem.apart_of_le ?_ ?_, ByteMem.apart_of_le ?_ ?_⟩ <;> omega
    · refine ⟨fun _ => (ByteMem.apart_of_le ?_ ?_).symm, (ByteMem.apart_of_le ?_ ?_).symm⟩ <;> omega

/-- Every call with valid arguments returns. -/
theorem HeapRun.Inv.calls_return (hh : HhdmOk hhdm) (h : s.Inv hhdm bs) :
    (∀ pmm, PmmAnswers hhdm s.heap.pages pmm →
      (∀ size, ∃ r, kmalloc hhdm pmm s.heap size = some r) ∧
      (∀ num size, ∃ r, kcalloc hhdm pmm s.heap num size = some r) ∧
      ∀ p size, s.Valid p → ∃ r, krealloc hhdm pmm s.heap p size = some r) ∧
    ∀ p, s.Valid p → ∃ r, kfree s.heap p = some r := by
  have halloc {n : ℕ} {result : Option (Word × Heap)}
      (hres : Allocated hhdm s.heap bs n result) : ∃ r, result = some r := by
    rcases hres with hnone | ⟨p, heap, bs', hsome, -⟩
    · exact ⟨_, hnone⟩
    · exact ⟨_, hsome⟩
  refine ⟨fun pmm hpmm => ⟨fun size => halloc (h.heap.kmalloc hh hpmm size),
    fun num size => halloc (h.heap.kcalloc hh hpmm num size), fun p size hp => ?_⟩, fun p hp => ?_⟩
  · rcases hp with rfl | ⟨n, hp⟩
    · rcases krealloc_null hhdm pmm s.heap size with hnull | hnull
      · exact ⟨_, hnull⟩
      · rw [hnull]
        exact halloc (h.heap.kmalloc hh hpmm size)
    · obtain ⟨q, heap, -, hs, -⟩ := h.heap.krealloc hh hpmm (h.live _ hp) size
      exact ⟨_, hs⟩
  · rcases hp with rfl | ⟨n, hp⟩
    · exact ⟨s.heap, if_pos rfl⟩
    · obtain ⟨heap, -, hs, -⟩ := h.heap.kfree (h.live _ hp)
      exact ⟨_, hs⟩

/-- In every state of every run the block list ends, its blocks are aligned and have positive sizes,
their extents do not overlap and are together the pages that the heap obtained. Every live pointer
is the payload of exactly one block, which is in use and as large as the last request; so payloads
are aligned and meet neither each other nor any header. Every further call with valid arguments
returns. -/
theorem heap_representation (hh : HhdmOk hhdm) (hpmm : PmmAnswers hhdm [] pmm) {mem : ByteMem}
    (hinit : heapInit hhdm pmm mem = some heap)
    (hrun : Relation.ReflTransGen (HeapStep hhdm) { heap, live := [] } s) :
    (∃ bs : List HeapBlk,
      Links s.heap.next 0 s.heap.heapBlockList (bs.map HeapBlk.ptr) ∧ (bs.map HeapBlk.ptr).Nodup ∧
      (∀ b ∈ bs, s.heap.size b.ptr = BitVec.ofNat 64 b.size ∧ s.heap.isFree b.ptr = b.free ∧
        b.ptr.toNat = b.addr ∧ b.addr % 16 = 0 ∧ 0 < b.size ∧ b.size % 16 = 0 ∧
        b.addr + heapHeaderSize.toNat + b.size ≤ 2 ^ 64) ∧
      bs.Pairwise (fun b c => b.addr + heapHeaderSize.toNat + b.size ≤ c.addr ∨
        c.addr + heapHeaderSize.toNat + c.size ≤ b.addr) ∧
      (∀ x, (∃ b ∈ bs, b.addr ≤ x ∧ x < b.addr + heapHeaderSize.toNat + b.size) ↔
        InPages hhdm s.heap.pages x) ∧
      (∀ e ∈ s.live, ∃ b ∈ bs, b.payload = e.1 ∧ b.free = false ∧ e.2.toNat ≤ b.size ∧
        ∀ c ∈ bs, c.payload = e.1 → c = b) ∧
      ∀ e ∈ s.live, ∀ b ∈ bs,
        ByteMem.Apart e.1 (s.heap.size (e.1 - heapHeaderSize)).toNat b.ptr heapHeaderSize.toNat) ∧
    (∀ e ∈ s.live, e.1.toNat % 16 = 0) ∧
    s.live.Pairwise (fun e e' => ByteMem.Apart e.1 (s.heap.size (e.1 - heapHeaderSize)).toNat
      e'.1 (s.heap.size (e'.1 - heapHeaderSize)).toNat) ∧
    (∀ pmm, PmmAnswers hhdm s.heap.pages pmm →
      (∀ size, ∃ r, kmalloc hhdm pmm s.heap size = some r) ∧
      (∀ num size, ∃ r, kcalloc hhdm pmm s.heap num size = some r) ∧
      ∀ p size, s.Valid p → ∃ r, krealloc hhdm pmm s.heap p size = some r) ∧
    ∀ p, s.Valid p → ∃ r, kfree s.heap p = some r := by
  obtain ⟨bs, h⟩ := HeapRun.exists_inv hh hpmm hinit hrun
  have hheader : heapHeaderSize.toNat = 32 := by decide
  have hsize : ∀ b ∈ bs, (s.heap.size (b.payload - heapHeaderSize)).toNat = b.size := by
    intro b hb
    rw [HeapBlk.payload_sub, (h.heap.repr.header b hb).size, (h.heap.layout.ok b hb).toNat_size]
  simp only [hheader]
  refine ⟨⟨bs, h.heap.repr.links, h.heap.repr.links.nodup, fun b hb => ?_, h.heap.layout.apart,
    h.heap.cover, fun e he => ?_, fun e he b hb => ?_⟩, fun e he => ?_, ?_, h.calls_return hh⟩
  · have hok := h.heap.layout.ok b hb
    exact ⟨(h.heap.repr.header b hb).size, (h.heap.repr.header b hb).isFree, hok.toNat_ptr,
      hok.addr_mod, hok.size_pos, hok.size_mod, hok.stop_le⟩
  · obtain ⟨b, hb, hfree, hp, hn⟩ := h.live e he
    exact ⟨b, hb, hp.symm, hfree, hn, fun c hc hpay =>
      h.heap.layout.eq_of_payload_eq hc hb (hpay.trans hp)⟩
  · obtain ⟨c, hc, -, hp, -⟩ := h.live e he
    rw [hp, hsize c hc]
    exact (h.heap.payload_apart hc hb).2
  · obtain ⟨b, hb, -, hp, -⟩ := h.live e he
    have haddr := (h.heap.layout.ok b hb).addr_mod
    rw [hp, (h.heap.layout.ok b hb).toNat_payload]
    omega
  · -- different live pointers belong to different blocks
    have hpair : s.live.Pairwise (fun e e' => e.1 ≠ e'.1) := List.pairwise_map.mp h.nodup
    refine hpair.imp_of_mem fun {e e'} he he' hne => ?_
    obtain ⟨b, hb, -, hp, -⟩ := h.live e he
    obtain ⟨c, hc, -, hp', -⟩ := h.live e' he'
    have hbc : b ≠ c := fun heq => hne (by rw [hp, hp', heq])
    rw [hp, hp', hsize b hb, hsize c hc]
    exact (h.heap.payload_apart hb hc).1 hbc

/-- A page allocator with one page, for `heap_init`. -/
def onePage (n : Word) : Word := if n = 1 then 0x1000 else 0

theorem onePage_answers : PmmAnswers exampleHhdm [] onePage := by
  intro n _
  by_cases hone : n = 1
  · subst hone
    have hblock : pmmBlock (onePage 1) (1 : Word).toNat = [0x1000] := by decide
    rw [hblock]
    exact Or.inr fun q hq => List.mem_singleton.mp hq ▸
      ⟨⟨by decide, by decide, by decide⟩, by simp⟩
  · exact Or.inl (if_neg hone)

/-- The heap after `heap_init` in empty memory. -/
def onePageHeap : Heap := heapPushPages exampleHhdm ⟨fun _ => 0, 0, []⟩ 0x1000 1

theorem onePageHeap_init : heapInit exampleHhdm onePage (fun _ => 0) = some onePageHeap := by
  have hpage : onePage 1 ≠ 0 := by decide
  rw [heapInit, if_neg hpage]
  rfl

/-- One page at `0x1000`, from which 100 bytes are allocated. -/
theorem heap_representation_one_block :
    ∃ s : HeapRun, s.live = [(0xffff800000001020, 100)] ∧ s.heap.pages = [0x1000] ∧
      ∃ bs : List HeapBlk, Links s.heap.next 0 s.heap.heapBlockList (bs.map HeapBlk.ptr) ∧
        ∀ e ∈ s.live, ∃ b ∈ bs, b.payload = e.1 ∧ b.free = false ∧ e.2.toNat ≤ b.size ∧
          ∀ c ∈ bs, c.payload = e.1 → c = b := by
  -- the page allocator has nothing left
  have hmalloc : (kmalloc exampleHhdm (fun _ => 0) onePageHeap 100).map
      (fun r => (r.1, r.2.pages)) = some (0xffff800000001020, [0x1000]) := by decide +kernel
  obtain ⟨⟨p, heap'⟩, hsome, hp⟩ := Option.map_eq_some_iff.mp hmalloc
  rw [Prod.mk.injEq] at hp
  obtain ⟨rfl, hpages⟩ : p = 0xffff800000001020 ∧ heap'.pages = [0x1000] := hp
  have hstep : HeapStep exampleHhdm ⟨onePageHeap, []⟩ _ :=
    HeapStep.kmalloc ⟨onePageHeap, []⟩ (fun _ => 0) 100 0xffff800000001020 heap'
      (fun _ _ => Or.inl rfl) hsome
  obtain ⟨⟨bs, hlinks, -, -, -, -, hlive, -⟩, -⟩ := heap_representation exampleHhdm_ok
    onePage_answers onePageHeap_init (Relation.ReflTransGen.single hstep)
  exact ⟨_, rfl, hpages, bs, hlinks, hlive⟩

/-- The page allocator answers as the runs above assume, as long as no page of the heap is on its
free list. -/
theorem pmmAlloc_answers (hh : HhdmOk hhdm) {pmm : Pmm} {ps pages : List Word}
    (h : FreeList hhdm pmm ps) (hdisj : List.Disjoint ps pages) :
    PmmAnswers hhdm pages fun n => ((pmmAlloc hhdm pmm n).map Prod.fst).getD 0 := by
  intro n hn
  rcases h.alloc hh hn with ⟨hnone, -⟩ | ⟨pre, base, post, pmm', hps, -, hsome, -⟩
  · exact Or.inl (by simp [hnone])
  · right
    simp only [hsome, Option.map_some, Option.getD_some]
    intro q hq
    have hfree : q ∈ ps := by simp [hps, hq]
    exact ⟨h.page q hfree, hdisj hfree⟩

end Pros
