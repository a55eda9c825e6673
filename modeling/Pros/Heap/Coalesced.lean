import Pros.Heap.Requests

/-!
# How far freed blocks are merged

A block that is freed, cut or grown takes over the free blocks after it, never the one before it. A
list of blocks is coalesced when no two neighbours, in the list and in memory, are both free. Every
call keeps that, with one exception: a block that is freed right behind a free block that it touches
stays a block of its own, whatever is freed later.

So of two neighbouring allocations the second has to be freed first. Then both end up in one block.
-/

namespace Pros

open HeapBlk

/-- No two blocks that are neighbours in the list and in memory are both free. -/
def Coalesced (bs : List HeapBlk) : Prop :=
  bs.IsChain fun b c => ¬ (b.free = true ∧ c.free = true ∧ b.stop = c.addr)

/-- The block with payload `p` follows, in the list and in memory, a free block. -/
def BehindFree (hhdm : Word) (heap : Heap) (p : Word) : Prop :=
  ∃ pre b c post, HeapInv hhdm heap (pre ++ b :: c :: post) ∧ c.payload = p ∧ b.free = true ∧
    b.stop = c.addr

/-- The step freed a live pointer whose block follows a free block. -/
def FreedBehindFree (hhdm : Word) (s s' : HeapRun) : Prop :=
  ∃ p, p ∈ s.live.map Prod.fst ∧ p ∉ s'.live.map Prod.fst ∧ BehindFree hhdm s'.heap p

variable {hhdm p q size : Word} {pmm : Word → Word} {s s' : HeapRun} {heap heap' : Heap}
  {b c : HeapBlk} {bs bs' pre post rest : List HeapBlk} {n : ℕ}

/-! ## Coalesced lists -/

namespace Coalesced

theorem suffix (h : Coalesced (pre ++ post)) : Coalesced post :=
  List.IsChain.right_of_append h

theorem tail (h : Coalesced (b :: bs)) : Coalesced bs := List.IsChain.tail h

/-- A block in use goes before any list. -/
theorem cons_used (h : Coalesced bs) (hfree : b.free = false) : Coalesced (b :: bs) := by
  refine List.isChain_cons.mpr ⟨fun c _ hbc => ?_, h⟩
  rw [hfree] at hbc
  exact Bool.false_ne_true hbc.1

/-- What follows a block may be replaced by a list that starts with a block in use. -/
theorem append_used (h : Coalesced (pre ++ post)) (h' : Coalesced (b :: rest))
    (hfree : b.free = false) : Coalesced (pre ++ b :: rest) := by
  refine List.isChain_append.mpr ⟨List.IsChain.left_of_append h, h', fun a _ c hc hac => ?_⟩
  obtain rfl : b = c := by simpa using hc
  rw [hfree] at hac
  exact Bool.false_ne_true hac.2.1

/-- A block that has taken over all it can may be free. -/
theorem coalesceAt (h : Coalesced post) : Coalesced (coalesceAt b post) := by
  induction post generalizing b with
  | nil => exact List.isChain_singleton _
  | cons c post ih =>
    rw [HeapBlk.coalesceAt, absorb]
    split_ifs with hc
    · exact ih h.tail
    · exact List.isChain_cons_cons.mpr ⟨fun hbc => hc hbc.2, h⟩

theorem splitTail (h : Coalesced post) : Coalesced (b.splitTail n post) := by
  rw [HeapBlk.splitTail]
  split_ifs
  · exact h
  · exact h.coalesceAt

/-- Taking a block into use. -/
theorem takeAt (h : Coalesced (pre ++ b :: post)) : Coalesced (pre ++ takeAt b n post) :=
  h.append_used (h.suffix.tail.splitTail.cons_used rfl) rfl

/-- Cutting a block in use. -/
theorem splitAt (h : Coalesced (pre ++ b :: post)) (hfree : b.free = false) :
    Coalesced (pre ++ splitAt b n post) := by
  have hhead : (b.splitHead n).free = false := splitHead_free.trans hfree
  exact h.append_used (h.suffix.tail.splitTail.cons_used hhead) hhead

/-- Growing a block in use. -/
theorem grow (h : Coalesced (pre ++ b :: post)) (hfree : b.free = false) :
    Coalesced (pre ++ HeapBlk.coalesceAt b post) :=
  h.append_used h.suffix.tail.coalesceAt (absorb_fst.1.2.trans hfree)

/-- Freeing a block keeps the list coalesced exactly when the block before it is not a free one that
it touches. -/
theorem free_iff (h : Coalesced (pre ++ b :: post)) :
    Coalesced (pre ++ HeapBlk.coalesceAt { b with free := true } post) ↔
      ¬ ∃ a ∈ pre.getLast?, a.free = true ∧ a.stop = b.addr := by
  obtain ⟨⟨haddr, hfree⟩, -⟩ := @absorb_fst post { b with free := true }
  rw [Coalesced, List.isChain_append]
  constructor
  · rintro ⟨-, -, hjoin⟩ ⟨a, ha, hafree, hastop⟩
    exact hjoin a ha _ rfl ⟨hafree, hfree, hastop.trans haddr.symm⟩
  · refine fun hnot => ⟨List.IsChain.left_of_append h, h.suffix.tail.coalesceAt, ?_⟩
    intro a ha c hc hac
    obtain rfl : (absorb { b with free := true } post).1 = c := by
      simpa [HeapBlk.coalesceAt] using hc
    exact hnot ⟨a, ha, hac.1, hac.2.2.trans haddr⟩

end Coalesced

/-! ## The calls -/

theorem MallocOutcome.coalesced (hout : MallocOutcome hhdm pmm heap bs size p heap' bs')
    (h : Coalesced bs) : Coalesced bs' := by
  cases hout with
  | refused => exact h
  | exhausted => exact h
  | found pre b post heap' _ hbs =>
    rw [hbs] at h
    exact h.takeAt
  | fresh => exact h.splitTail.cons_used rfl

/-- The list in memory is determined by memory. -/
theorem HeapInv.list_unique (h : HeapInv hhdm heap bs) (h' : HeapInv hhdm heap bs') : bs = bs' := by
  refine (h.sameBlocks_iff h').mp ⟨_, h.repr.links, h.repr.links, fun _ _ => ⟨rfl, rfl⟩⟩

/-- Where a freed block stands in the list. -/
theorem HeapInv.behindFree_iff (h : HeapInv hhdm heap (pre ++ b :: post)) :
    BehindFree hhdm heap b.payload ↔ ∃ a ∈ pre.getLast?, a.free = true ∧ a.stop = b.addr := by
  constructor
  · rintro ⟨pre', a, c, post', h', hpay, hfree, hstop⟩
    have hlist := h.list_unique h'
    have hnodup : (pre ++ b :: post).Nodup := h.repr.links.nodup.of_map
    obtain rfl : c = b := by
      refine h'.layout.eq_of_payload_eq (by simp) ?_ hpay
      rw [← hlist]
      simp
    have hassoc : pre' ++ a :: c :: post' = (pre' ++ [a]) ++ c :: post' := by simp
    rw [hassoc] at hlist
    rw [List.nodup_append, List.nodup_cons] at hnodup
    have hpre : c ∉ pre := fun hc => hnodup.2.2 c hc c List.mem_cons_self rfl
    obtain ⟨rfl, -, -⟩ := (List.append_cons_inj_of_notMem hpre hnodup.2.1.1).mp hlist
    exact ⟨a, by simp, hfree, hstop⟩
  · rintro ⟨a, ha, hfree, hstop⟩
    obtain ⟨pre', rfl⟩ := List.getLast?_eq_some_iff.mp ha
    exact ⟨pre', a, b, post, by simpa using h, rfl, hfree, hstop⟩

/-- Freeing a block, in terms of the pointer. -/
theorem HeapInv.coalesced_free_iff
    (h : HeapInv hhdm heap (pre ++ coalesceAt { b with free := true } post))
    (hc : Coalesced (pre ++ b :: post)) :
    Coalesced (pre ++ coalesceAt { b with free := true } post) ↔
      ¬ BehindFree hhdm heap b.payload := by
  have hbehind := @HeapInv.behindFree_iff hhdm heap _ pre _ h
  rw [absorb_fst.1.1, payload_eq_of_addr_eq absorb_fst.1.1] at hbehind
  rw [hc.free_iff]
  exact (not_congr hbehind).symm

/-- After a resize the list is coalesced, unless the block was moved and left behind a free one. -/
theorem ReallocOutcome.coalesced_iff
    (hout : ReallocOutcome hhdm pmm heap pre b post size q heap' bs')
    (hinv : HeapInv hhdm heap' bs') (h : Coalesced (pre ++ b :: post)) (hfree : b.free = false) :
    Coalesced bs' ↔ ¬ (q ≠ 0 ∧ q ≠ b.payload ∧ BehindFree hhdm heap' b.payload) := by
  have hgfree : (absorb b post).1.free = false := absorb_fst.1.2.trans hfree
  cases hout with
  | refused => exact iff_of_true h fun hq => hq.1 rfl
  | inPlace => exact iff_of_true (h.splitAt hfree) fun hq => hq.2.1 rfl
  | grown => exact iff_of_true ((h.grow hfree).splitAt hgfree) fun hq => hq.2.1 rfl
  | stuck => exact iff_of_true (h.grow hfree) fun hq => hq.1 rfl
  | moved s₁ s₂ s' q pre₂ post₂ hover hsmall hinv₁ hw hmalloc hq =>
    have hpay : (absorb b post).1.payload = b.payload := payload_eq_of_addr_eq absorb_fst.1.1
    have hqb : q ≠ b.payload := by
      rcases hmalloc.allocated hinv₁.layout with ⟨h0, -⟩ | ⟨-, -, -, hnew⟩
      · exact absurd h0 hq
      · rw [← hpay]
        exact (hnew _ (List.mem_append_right _ List.mem_cons_self) hgfree).symm
    rw [hinv.coalesced_free_iff (hmalloc.coalesced (h.grow hfree)), hpay]
    exact not_congr ⟨fun hbehind => ⟨hq, hqb, hbehind⟩, fun hbehind => hbehind.2.2⟩

/-! ## Steps and runs -/

/-- A step that frees no pointer. -/
theorem not_freedBehindFree (hlive : ∀ e ∈ s.live, e.1 ∈ s'.live.map Prod.fst) :
    ¬ FreedBehindFree hhdm s s' := by
  rintro ⟨p, hp, hp', -⟩
  obtain ⟨e, he, rfl⟩ := List.mem_map.mp hp
  exact hp' (hlive e he)

/-- A step that frees one pointer. -/
theorem freedBehindFree_iff (hp : (p, size) ∈ s.live) (hgone : p ∉ s'.live.map Prod.fst)
    (hlive : ∀ e ∈ s.live, e.1 ≠ p → e.1 ∈ s'.live.map Prod.fst) :
    FreedBehindFree hhdm s s' ↔ BehindFree hhdm s'.heap p := by
  refine ⟨?_, fun h => ⟨p, List.mem_map_of_mem hp, hgone, h⟩⟩
  rintro ⟨p', hp', hgone', hbehind⟩
  obtain ⟨e, he, rfl⟩ := List.mem_map.mp hp'
  by_cases hep : e.1 = p
  · rwa [← hep]
  · exact absurd (hlive e he hep) hgone'

namespace HeapRun

theorem mem_drop_fst {e : Word × Word} (he : e ∈ s.live) (hne : e.1 ≠ p) :
    e.1 ∈ (s.drop p).map Prod.fst :=
  List.mem_map_of_mem (List.mem_filter.mpr ⟨he, decide_eq_true hne⟩)

theorem notMem_drop_fst : p ∉ (s.drop p).map Prod.fst := by
  intro hmem
  obtain ⟨e, he, rfl⟩ := List.mem_map.mp hmem
  exact of_decide_eq_true (List.mem_filter.mp he).2 rfl

/-- Allocating frees nothing. -/
theorem mem_afterAlloc_fst {e : Word × Word} (he : e ∈ s.live) :
    e.1 ∈ (s.afterAlloc p size).map Prod.fst := by
  rw [afterAlloc]
  split_ifs
  · exact List.mem_map_of_mem he
  · exact List.mem_map_of_mem (List.mem_cons_of_mem _ he)

end HeapRun

/-- `kmalloc` and its callers keep the list coalesced. -/
theorem HeapInv.coalesced_kmalloc (hh : HhdmOk hhdm) (h : HeapInv hhdm heap bs)
    (hpmm : PmmAnswers hhdm heap.pages pmm) (hc : Coalesced bs)
    (hret : Pros.kmalloc hhdm pmm heap size = some (p, heap')) :
    ∃ bs', HeapInv hhdm heap' bs' ∧ Coalesced bs' := by
  obtain ⟨p', heap₁, bs', hsome, hinv, hout⟩ := h.kmalloc_outcome hh hpmm size
  rw [hret, Option.some.injEq, Prod.mk.injEq] at hsome
  obtain ⟨rfl, rfl⟩ := hsome
  exact ⟨bs', hinv, hout.coalesced hc⟩

/-- `kfree` of a live pointer. -/
theorem HeapRun.Inv.coalesced_kfree (h : s.Inv hhdm bs) (hc : Coalesced bs)
    (hp : (p, size) ∈ s.live) (hret : kfree s.heap p = some heap) :
    ∃ bs', HeapInv hhdm heap bs' ∧
      (Coalesced bs' ↔ ¬ FreedBehindFree hhdm s { heap, live := s.drop p }) := by
  have hfreed : FreedBehindFree hhdm s { heap, live := s.drop p } ↔ BehindFree hhdm heap p :=
    freedBehindFree_iff hp HeapRun.notMem_drop_fst fun e he hne => HeapRun.mem_drop_fst he hne
  obtain ⟨b, hb, -, rfl, -⟩ := h.live _ hp
  obtain ⟨pre, post, rfl⟩ := List.append_of_mem hb
  obtain ⟨heap', hsome, hinv, -⟩ := h.heap.kfree_list
  rw [hret, Option.some.injEq] at hsome
  subst hsome
  exact ⟨_, hinv, (hinv.coalesced_free_iff hc).trans (not_congr hfreed.symm)⟩

/-- `krealloc` of a live pointer to a size other than zero. -/
theorem HeapRun.Inv.coalesced_krealloc (hh : HhdmOk hhdm) (h : s.Inv hhdm bs) (hc : Coalesced bs)
    (hpmm : PmmAnswers hhdm s.heap.pages pmm) {request : Word} (hp : (p, request) ∈ s.live)
    (hzero : size ≠ 0) (hret : krealloc hhdm pmm s.heap p size = some (q, heap)) :
    ∃ bs', HeapInv hhdm heap bs' ∧
      (Coalesced bs' ↔
        ¬ FreedBehindFree hhdm s { heap, live := s.afterRealloc p size q }) := by
  have hfreed : FreedBehindFree hhdm s { heap, live := s.afterRealloc p size q } ↔
      q ≠ 0 ∧ q ≠ p ∧ BehindFree hhdm heap p := by
    by_cases hq : q = 0
    · -- a failure frees nothing
      refine iff_of_false (not_freedBehindFree fun e he => ?_) fun hcond => hcond.1 hq
      rw [HeapRun.afterRealloc, if_neg (not_not.mpr hq), if_neg fun hcond => hzero hcond.2]
      exact List.mem_map_of_mem he
    have hlive : s.afterRealloc p size q = (q, size) :: s.drop p := if_pos hq
    by_cases hqp : q = p
    · -- neither does a resize in place
      refine iff_of_false (not_freedBehindFree fun e he => ?_) fun hcond => hcond.2.1 hqp
      rw [hlive, List.map_cons, List.mem_cons]
      by_cases hep : e.1 = p
      · exact Or.inl (hep.trans hqp.symm)
      · exact Or.inr (HeapRun.mem_drop_fst he hep)
    · rw [freedBehindFree_iff hp]
      · exact ⟨fun hbehind => ⟨hq, hqp, hbehind⟩, fun hcond => hcond.2.2⟩
      · rw [hlive, List.map_cons, List.mem_cons]
        rintro (heq | hmem)
        · exact hqp heq.symm
        · exact HeapRun.notMem_drop_fst hmem
      · intro e he hne
        rw [hlive, List.map_cons]
        exact List.mem_cons_of_mem _ (HeapRun.mem_drop_fst he hne)
  obtain ⟨b, hb, hfree, rfl, -⟩ := h.live _ hp
  obtain ⟨pre, post, rfl⟩ := List.append_of_mem hb
  obtain ⟨q', heap', bs', hsome, hinv, hout⟩ := h.heap.krealloc_outcome hh hpmm hfree hzero
  rw [hret, Option.some.injEq, Prod.mk.injEq] at hsome
  obtain ⟨rfl, rfl⟩ := hsome
  exact ⟨bs', hinv, (hout.coalesced_iff hinv hc hfree).trans (not_congr hfreed.symm)⟩

/-- A step from a coalesced list leaves one, unless it frees a block behind a free one. -/
theorem HeapStep.coalesced_iff (hh : HhdmOk hhdm) (hstep : HeapStep hhdm s s')
    (h : s.Inv hhdm bs) (hc : Coalesced bs) :
    ∃ bs', s'.Inv hhdm bs' ∧ (Coalesced bs' ↔ ¬ FreedBehindFree hhdm s s') := by
  obtain ⟨bs₁, h₁⟩ := hstep.inv hh h
  suffices hlist : ∃ bs', HeapInv hhdm s'.heap bs' ∧
      (Coalesced bs' ↔ ¬ FreedBehindFree hhdm s s') by
    obtain ⟨bs', hinv, hiff⟩ := hlist
    obtain rfl := h₁.heap.list_unique hinv
    exact ⟨bs₁, h₁, hiff⟩
  cases hstep with
  | kmalloc pmm size p heap hpmm hret =>
    obtain ⟨bs', hinv, hc'⟩ := h.heap.coalesced_kmalloc hh hpmm hc hret
    exact ⟨bs', hinv, iff_of_true hc' (not_freedBehindFree fun e he =>
      HeapRun.mem_afterAlloc_fst he)⟩
  | kcalloc pmm num size p heap hpmm hret =>
    obtain ⟨p', heap', bs', hsome, hinv, hcases⟩ := h.heap.kcalloc_outcome hh hpmm num size
    rw [hret, Option.some.injEq, Prod.mk.injEq] at hsome
    obtain ⟨rfl, rfl⟩ := hsome
    refine ⟨bs', hinv, iff_of_true ?_ (not_freedBehindFree fun e he =>
      HeapRun.mem_afterAlloc_fst he)⟩
    rcases hcases with ⟨-, -, rfl⟩ | ⟨-, -, s₁, hout, -, -⟩
    · exact hc
    · exact hout.coalesced hc
  | krealloc pmm p size q heap hpmm hp hret =>
    rcases hp with rfl | ⟨n, hp⟩
    · -- a null pointer: as `kmalloc`, and nothing is freed
      have hfreed : ¬ FreedBehindFree hhdm s { heap, live := s.afterRealloc 0 size q } := by
        refine not_freedBehindFree fun e he => ?_
        rw [HeapRun.afterRealloc, h.drop_zero]
        split_ifs
        · exact List.mem_map_of_mem (List.mem_cons_of_mem _ he)
        · exact List.mem_map_of_mem he
        · exact List.mem_map_of_mem he
      rcases krealloc_null hhdm pmm s.heap size with hnull | hnull
      · rw [hnull, Option.some.injEq, Prod.mk.injEq] at hret
        obtain ⟨rfl, rfl⟩ := hret
        exact ⟨bs, h.heap, iff_of_true hc hfreed⟩
      · obtain ⟨bs', hinv, hc'⟩ := h.heap.coalesced_kmalloc hh hpmm hc (hnull ▸ hret)
        exact ⟨bs', hinv, iff_of_true hc' hfreed⟩
    · by_cases hzero : size = 0
      · -- size zero: as `kfree`
        have hne := h.payload_ne_zero hp
        obtain ⟨heap', hfree⟩ := (h.calls_return hh).2 p (Or.inr ⟨n, hp⟩)
        have hfrees : Pros.krealloc hhdm pmm s.heap p size = some (0, heap') := by
          have hover : ¬ (0 : Word) > sizeMax - (heapAlignment - 1) := by decide
          rw [hzero, Pros.krealloc, if_neg hover, if_neg hne, if_pos rfl, hfree]
          rfl
        rw [hret, Option.some.injEq, Prod.mk.injEq] at hfrees
        obtain ⟨rfl, rfl⟩ := hfrees
        have hlive : s.afterRealloc p size 0 = s.drop p := by
          rw [HeapRun.afterRealloc, if_neg (not_not.mpr rfl), if_pos ⟨hne, hzero⟩]
        rw [hlive]
        exact h.coalesced_kfree hc hp hfree
      · exact h.coalesced_krealloc hh hc hpmm hp hzero hret
  | kfree p heap hp hret =>
    rcases hp with rfl | ⟨n, hp⟩
    · rw [Pros.kfree, if_pos rfl, Option.some.injEq] at hret
      refine ⟨bs, hret ▸ h.heap, iff_of_true hc (not_freedBehindFree fun e he => ?_)⟩
      exact HeapRun.mem_drop_fst he (h.payload_ne_zero he)
    · exact h.coalesced_kfree hc hp hret
  | write p n x v hp hx =>
    exact ⟨bs, (h.write hp hx).heap, iff_of_true hc
      (not_freedBehindFree fun e he => List.mem_map_of_mem he)⟩
  | elsewhere mem hmem =>
    exact ⟨bs, (h.elsewhere hmem).heap, iff_of_true hc
      (not_freedBehindFree fun e he => List.mem_map_of_mem he)⟩

/-- Two neighbours that are freed, the second one first, end up in one block. -/
theorem HeapInv.kfree_neighbours (h : HeapInv hhdm heap (pre ++ b :: c :: post))
    (hstop : b.stop = c.addr) :
    ∃ heap₁ heap₂ bs', Pros.kfree heap c.payload = some heap₁ ∧
      Pros.kfree heap₁ b.payload = some heap₂ ∧ HeapInv hhdm heap₂ bs' ∧
      ∃ d ∈ bs', d.addr = b.addr ∧ d.free = true ∧ b.size + 32 + c.size ≤ d.size := by
  have hassoc : pre ++ b :: c :: post = (pre ++ [b]) ++ c :: post := by simp
  rw [hassoc] at h
  obtain ⟨heap₁, hfree₁, hinv₁, -⟩ := h.kfree_list
  obtain ⟨⟨haddr, hfree⟩, hsize⟩ := @absorb_fst post { c with free := true }
  rw [List.append_assoc, List.singleton_append] at hinv₁
  obtain ⟨heap₂, hfree₂, hinv₂, -⟩ := hinv₁.kfree_list
  refine ⟨heap₁, heap₂, _, hfree₁, hfree₂, hinv₂, _,
    List.mem_append_right _ List.mem_cons_self, ?_⟩
  -- the first block finds the second one free and where it ends
  rw [coalesceAt, absorb, if_pos ⟨hfree, hstop.trans haddr.symm⟩]
  obtain ⟨⟨haddr', hfree'⟩, hsize'⟩ := @absorb_fst (absorb { c with free := true } post).2
    { b with size := b.size + (32 + (absorb { c with free := true } post).1.size), free := true }
  refine ⟨haddr', hfree', le_trans ?_ hsize'⟩
  simp only at hsize ⊢
  omega

/-- In every run in which no block is freed behind a free one that it touches, no two blocks that
are neighbours in the list and in memory are both free; and a further step keeps that exactly when
it does not free such a block. Of two neighbours in use, the second can be freed first, in every
state of every run, and then both end up in one free block. -/
theorem heap_coalesced_forward (hh : HhdmOk hhdm) (hpmm : PmmAnswers hhdm [] pmm) {mem : ByteMem}
    (hinit : heapInit hhdm pmm mem = some heap) :
    (∀ s, Relation.ReflTransGen (fun s s' => HeapStep hhdm s s' ∧ ¬ FreedBehindFree hhdm s s')
        { heap, live := [] } s →
      ∃ bs, HeapInv hhdm s.heap bs ∧ Coalesced bs ∧
        ∀ s', HeapStep hhdm s s' →
          ∃ bs', HeapInv hhdm s'.heap bs' ∧ (Coalesced bs' ↔ ¬ FreedBehindFree hhdm s s')) ∧
    ∀ s, Relation.ReflTransGen (HeapStep hhdm) { heap, live := [] } s →
      ∃ bs, HeapInv hhdm s.heap bs ∧
        ∀ pre b c post, bs = pre ++ b :: c :: post → b.free = false → c.free = false →
          b.stop = c.addr →
          ∃ heap₁ heap₂ bs', kfree s.heap c.payload = some heap₁ ∧
            kfree heap₁ b.payload = some heap₂ ∧ HeapInv hhdm heap₂ bs' ∧
            ∃ d ∈ bs', d.addr = b.addr ∧ Fits (b.size + 32 + c.size) d := by
  refine ⟨fun s hrun => ?_, fun s hrun => ?_⟩
  · suffices hlist : ∃ bs, s.Inv hhdm bs ∧ Coalesced bs by
      obtain ⟨bs, h, hc⟩ := hlist
      refine ⟨bs, h.heap, hc, fun s' hstep => ?_⟩
      obtain ⟨bs', h', hiff⟩ := hstep.coalesced_iff hh h hc
      exact ⟨bs', h'.heap, hiff⟩
    induction hrun with
    | refl => exact ⟨_, HeapRun.Inv.init hh hpmm hinit, List.isChain_singleton _⟩
    | tail _ hstep ih =>
      obtain ⟨bs, h, hc⟩ := ih
      obtain ⟨bs', h', hiff⟩ := hstep.1.coalesced_iff hh h hc
      exact ⟨bs', h', hiff.mpr hstep.2⟩
  · obtain ⟨bs, h⟩ := HeapRun.exists_inv hh hpmm hinit hrun
    refine ⟨bs, h.heap, ?_⟩
    rintro pre b c post rfl - - hstop
    obtain ⟨heap₁, heap₂, bs', h₁, h₂, hinv, d, hd, haddr, hfree, hsize⟩ :=
      h.heap.kfree_neighbours hstop
    exact ⟨heap₁, heap₂, bs', h₁, h₂, hinv, d, hd, haddr, hfree, hsize⟩

/-- The heap of one page with two neighbouring blocks of 64 bytes in use. -/
def twoBlockHeap : Heap :=
  ((kmalloc exampleHhdm (fun _ => 0) oneBlockHeap 64).getD (0, oneBlockHeap)).2

/-- The heap after `kfree` of the two pointers, in this order. -/
def afterFrees (p q : Word) : Heap :=
  ((kfree twoBlockHeap p).bind fun heap => kfree heap q).getD twoBlockHeap

/-- The live pointers then. -/
def twoBlocksLive : List (Word × Word) := [(0xffff800000001080, 64), (0xffff800000001020, 64)]

theorem twoBlockHeap_step : HeapStep exampleHhdm
    { heap := oneBlockHeap, live := [(0xffff800000001020, 64)] }
    { heap := twoBlockHeap, live := twoBlocksLive } := by
  have hmalloc : kmalloc exampleHhdm (fun _ => 0) oneBlockHeap 64 =
      some (0xffff800000001080, twoBlockHeap) := Loop.eq_some_of_map_fst (by decide +kernel)
  exact HeapStep.kmalloc { heap := oneBlockHeap, live := [(0xffff800000001020, 64)] } _ 64
    0xffff800000001080 twoBlockHeap (pmmAnswers_none _ _) hmalloc

/-- The two calls of `kfree`. -/
theorem afterFrees_steps (hp : (p, 64) ∈ twoBlocksLive)
    (hq : HeapRun.drop ⟨twoBlockHeap, twoBlocksLive⟩ p = [(q, 64)])
    (hsome : ((kfree twoBlockHeap p).bind fun heap => kfree heap q).isSome = true) :
    ∃ heap₁, kfree twoBlockHeap p = some heap₁ ∧
      HeapStep exampleHhdm ⟨twoBlockHeap, twoBlocksLive⟩ ⟨heap₁, [(q, 64)]⟩ ∧
      HeapStep exampleHhdm ⟨heap₁, [(q, 64)]⟩ ⟨afterFrees p q, []⟩ := by
  obtain ⟨heap₂, hheap₂⟩ := Option.isSome_iff_exists.mp hsome
  obtain ⟨heap₁, hfree₁, hfree₂⟩ := Option.bind_eq_some_iff.mp hheap₂
  have hafter : afterFrees p q = heap₂ := by rw [afterFrees, hheap₂, Option.getD_some]
  have hstep₁ : HeapStep exampleHhdm ⟨twoBlockHeap, twoBlocksLive⟩ ⟨heap₁, _⟩ :=
    HeapStep.kfree _ p heap₁ (Or.inr ⟨64, hp⟩) hfree₁
  have hstep₂ : HeapStep exampleHhdm ⟨heap₁, [(q, 64)]⟩ ⟨heap₂, _⟩ :=
    HeapStep.kfree _ q heap₂ (Or.inr ⟨64, List.mem_cons_self⟩) hfree₂
  have hnil : HeapRun.drop ⟨heap₁, [(q, 64)]⟩ q = [] := by simp [HeapRun.drop]
  rw [hq] at hstep₁
  rw [hnil, ← hafter] at hstep₂
  exact ⟨heap₁, hfree₁, hstep₁, hstep₂⟩

/-- The headers in memory tell whether the block in front is free. -/
theorem not_behindFree {l : List Word} (hl : Links heap.next 0 heap.heapBlockList l)
    (huse : l.IsChain fun a a' => a' + heapHeaderSize = p → heap.isFree a = false) :
    ¬ BehindFree hhdm heap p := by
  rintro ⟨pre, b, c, post, hinv, rfl, hfree, -⟩
  have hmap := hl.unique hinv.repr.links
  rw [hmap, List.map_append, List.map_cons, List.map_cons] at huse
  have hb := (List.isChain_cons_cons.mp (List.IsChain.right_of_append huse)).1 rfl
  rw [(hinv.repr.header b (by simp)).isFree, hfree] at hb
  cases hb

/-- Of the two neighbours the second one is freed first. -/
theorem heap_coalesced_forward_second_first :
    Relation.ReflTransGen
        (fun s s' => HeapStep exampleHhdm s s' ∧ ¬ FreedBehindFree exampleHhdm s s')
        { heap := onePageHeap, live := [] }
        { heap := afterFrees 0xffff800000001080 0xffff800000001020, live := [] } ∧
      ∃ bs, HeapInv exampleHhdm (afterFrees 0xffff800000001080 0xffff800000001020) bs ∧
        Coalesced bs := by
  obtain ⟨heap₁, hfree₁, hstep₁, hstep₂⟩ := afterFrees_steps (p := 0xffff800000001080)
    (q := 0xffff800000001020) (by simp [twoBlocksLive]) (by decide) (by decide +kernel)
  -- the block in front of the second one is in use, and then only one block is left
  have hone : ¬ BehindFree exampleHhdm heap₁ 0xffff800000001080 := by
    have hheaders : (kfree twoBlockHeap 0xffff800000001080).map (fun heap =>
        (heap.heapBlockList, heap.next 0xffff800000001000, heap.next 0xffff800000001060,
          heap.isFree 0xffff800000001000)) =
        some (0xffff800000001000, 0xffff800000001060, 0, false) := by decide +kernel
    rw [hfree₁, Option.map_some, Option.some.injEq] at hheaders
    simp only [Prod.mk.injEq] at hheaders
    obtain ⟨hhead, hnext, hend, hused⟩ := hheaders
    refine not_behindFree (l := [0xffff800000001000, 0xffff800000001060])
      ⟨hhead, by decide, hnext, by decide, hend⟩ ?_
    simpa using hused
  have htwo : ¬ BehindFree exampleHhdm (afterFrees 0xffff800000001080 0xffff800000001020)
      0xffff800000001020 :=
    not_behindFree (l := [0xffff800000001000])
      ⟨by decide +kernel, by decide, Links.nil_iff.mpr (by decide +kernel)⟩
      (List.isChain_singleton _)
  have hrun : Relation.ReflTransGen
      (fun s s' => HeapStep exampleHhdm s s' ∧ ¬ FreedBehindFree exampleHhdm s s')
      { heap := onePageHeap, live := [] }
      { heap := afterFrees 0xffff800000001080 0xffff800000001020, live := [] } := by
    refine .tail (.tail (.tail (.single ⟨oneBlockHeap_step, ?_⟩) ⟨twoBlockHeap_step, ?_⟩)
      ⟨hstep₁, ?_⟩) ⟨hstep₂, ?_⟩
    · exact not_freedBehindFree (by simp)
    · exact not_freedBehindFree (by simp [twoBlocksLive])
    · rintro ⟨p, hp, hgone, hbehind⟩
      obtain rfl : p = 0xffff800000001080 := by
        simp [twoBlocksLive] at hp hgone
        tauto
      exact hone hbehind
    · rintro ⟨p, hp, -, hbehind⟩
      obtain rfl : p = 0xffff800000001020 := by simpa using hp
      exact htwo hbehind
  obtain ⟨hruns, -⟩ := heap_coalesced_forward exampleHhdm_ok onePage_answers onePageHeap_init
  obtain ⟨bs, hinv, hc, -⟩ := hruns _ hrun
  exact ⟨hrun, bs, hinv, hc⟩

/-- When the first of the two is freed first, they stay apart: the first two blocks of the list
touch and are both free. A request for 4000 bytes then fails, which the other order could serve. -/
theorem heap_neighbours_stay_apart :
    HeapReachable exampleHhdm
      { heap := afterFrees 0xffff800000001020 0xffff800000001080, live := [] } ∧
    (let heap := afterFrees 0xffff800000001020 0xffff800000001080
    let block := heap.heapBlockList
    heap.isFree block ∧ heap.next block ≠ 0 ∧ heap.isFree (heap.next block) ∧
      block + heapHeaderSize + heap.size block = heap.next block) ∧
    ¬ Serves exampleHhdm (fun _ => 0)
      (afterFrees 0xffff800000001020 0xffff800000001080) 4000 ∧
    Serves exampleHhdm (fun _ => 0)
      (afterFrees 0xffff800000001080 0xffff800000001020) 4000 := by
  refine ⟨?_, by decide +kernel, ?_, ?_⟩
  · obtain ⟨heap₁, -, hstep₁, hstep₂⟩ := afterFrees_steps (p := 0xffff800000001020)
      (q := 0xffff800000001080) (by simp [twoBlocksLive]) (by decide) (by decide +kernel)
    exact ((oneBlockHeap_reachable.tail twoBlockHeap_step).tail hstep₁).tail hstep₂
  · rintro ⟨p, heap, hp, hne⟩
    have hfails : (kmalloc exampleHhdm (fun _ => 0)
        (afterFrees 0xffff800000001020 0xffff800000001080) 4000).map Prod.fst = some 0 := by
      decide +kernel
    rw [hp, Option.map_some, Option.some.injEq] at hfails
    exact hne hfails
  · have hserved : (kmalloc exampleHhdm (fun _ => 0)
        (afterFrees 0xffff800000001080 0xffff800000001020) 4000).map Prod.fst =
        some 0xffff800000001020 := by decide +kernel
    exact ⟨_, _, Loop.eq_some_of_map_fst (d := (0, twoBlockHeap)) hserved, by decide⟩

end Pros
