import Pros.Heap.Runs

/-!
# The heap on the page allocator

`heap.c` and `pmm.c` work on one memory: the headers of the heap lie in pages that `pmm_alloc` gave
out, and the links of the free list in pages that it did not. In `Pros.Heap.Model` the answer of
`pmm_alloc` is a parameter; here `kmalloc` calls `pmm_alloc` on the memory that both share. Neither
of them writes to the pages of the other or to any third page, and this is what the rest of the
kernel relies on when it calls `kmalloc` and `kfree`.
-/

namespace Pros

open HeapBlk

/-- The variables of `pmm.c` and `heap.c`, with the memory that they share. -/
structure Allocators where
  pmm : Pmm
  heapBlockList : Word
  pages : List Word

namespace Allocators

/-- What `heap.c` sees. -/
def heap (k : Allocators) : Heap := ⟨k.pmm.mem, k.heapBlockList, k.pages⟩

/-- The state after `heap.c` has left its part as given. -/
def setHeap (k : Allocators) (s : Heap) : Allocators :=
  ⟨{ k.pmm with mem := s.mem }, s.heapBlockList, s.pages⟩

section

variable (hhdm : Word)

/-- `heap_init`; `none` is the panic when there is no first page. -/
def heapInit (pmm : Pmm) : Option Allocators := do
  let (physAddr, pmm) ← pmmAlloc hhdm pmm 1
  if physAddr = 0 then none
  let k : Allocators := ⟨pmm, 0, []⟩
  return k.setHeap (heapPushPages hhdm k.heap physAddr 1)

/-- `kmalloc`. -/
def kmalloc (k : Allocators) (size : Word) : Option (Word × Allocators) := do
  if size > sizeMax - heapHeaderSize - pageSize - heapAlignment then return (0, k)
  let size := heapAlignUp size heapAlignment
  let size := if size = 0 then heapAlignment else size
  let block ← kmallocSearch k.heap size walkBound k.heapBlockList
  if block ≠ 0 then
    let (p, s) ← kmallocTake k.heap block size
    return (p, k.setHeap s)
  else
    let pages := (heapHeaderSize + size + pageSize - 1) / pageSize
    let (physAddr, pmm) ← pmmAlloc hhdm k.pmm pages
    let k := { k with pmm }
    if physAddr = 0 then return (0, k)
    let (p, s) ← kmallocTake (heapPushPages hhdm k.heap physAddr pages)
      (pmmPhysToVirt hhdm physAddr) size
    return (p, k.setHeap s)

/-- `kfree`. -/
def kfree (k : Allocators) (virtAddr : Word) : Option Allocators :=
  (Pros.kfree k.heap virtAddr).map k.setHeap

/-- `kmalloc(size)` as the rest of the kernel calls it, with the variables of `heap.c` from `k`. -/
def kmallocOn (k : Allocators) (size : Word) (pmm : Pmm) : Option (Word × Pmm) :=
  (kmalloc hhdm { k with pmm } size).map fun r => (r.1, r.2.pmm)

/-- `kfree(virt_addr)` as the rest of the kernel calls it. -/
def kfreeOn (k : Allocators) (virtAddr : Word) (pmm : Pmm) : Option Pmm :=
  (kfree { k with pmm } virtAddr).map (·.pmm)

/-- The blocks of the heap are `bs`, the free pages are `free`, and the heap has none of them. -/
structure Inv (k : Allocators) (bs : List HeapBlk) (free : List Word) : Prop where
  heap : HeapInv hhdm k.heap bs
  list : FreeList hhdm k.pmm free
  apart : ∀ p ∈ k.pages, p ∉ free

/-- From `k` to `k'` the heap took the pages `new` from the free list, and memory changed in pages
of the heap and in free pages only. -/
structure Took (k k' : Allocators) (new free free' : List Word) : Prop where
  pages : k'.pages = new ++ k.pages
  perm : free.Perm (new ++ free')
  mem : ∀ x, (∀ q ∈ k'.pages ++ free', ¬ (x - pmmPhysToVirt hhdm q).toNat < 4096) →
    k'.pmm.mem x = k.pmm.mem x

end

end Allocators

variable {hhdm p x : Word} {s s' : Heap} {b : HeapBlk} {bs pre post : List HeapBlk} {n : ℕ}
variable {k k' : Allocators} {free : List Word}

/-! ## What the heap writes to -/

/-- An address in the image of a page, seen from the page. -/
theorem inPages_iff {pages : List Word} (hpage : ∀ q ∈ pages, IsPage hhdm q) :
    InPages hhdm pages x.toNat ↔ ∃ q ∈ pages, (x - pmmPhysToVirt hhdm q).toNat < 4096 := by
  refine exists_congr fun q => and_congr_right fun hq => ?_
  have hvirt := (hpage q hq).toNat_virt
  have hwrap := (hpage q hq).noWrap
  generalize pmmPhysToVirt hhdm q = a at hvirt ⊢
  constructor
  · intro hx
    bv_omega
  · intro hx
    bv_omega

/-- Taking a block writes to the pages of the heap only. -/
theorem HeapInv.take_mem (h : HeapInv hhdm s (pre ++ b :: post)) (hmod : n % 16 = 0) (hpos : 0 < n)
    (hle : n ≤ b.size) (hcall : kmallocTake s b.ptr (BitVec.ofNat 64 n) = some (p, s'))
    (hx : ¬ InPages hhdm s.pages x.toNat) : s'.mem x = s.mem x := by
  have hb : b ∈ pre ++ b :: post := by simp
  have hout : ¬ (x - b.ptr).toNat < 24 := fun hin => hx (h.header_inPages hb hin)
  by_cases hsmall : b.size < n + 48
  · -- nothing is cut off
    have hsplit : heapBlockSplit s b.ptr (BitVec.ofNat 64 n) = some s :=
      if_pos ((h.repr.split_test h.layout hle).mpr hsmall)
    rw [kmallocTake, hsplit] at hcall
    cases hcall
    exact (headersOnly_setIsFree (s := s)).mem x (by simpa using hout)
  · obtain ⟨s₁, hcall', -, hw⟩ := h.take hmod hpos hle
    cases hcall.symm.trans hcall'
    refine hw.mem x ?_
    simp only [List.mem_cons, List.not_mem_nil, or_false, forall_eq_or_imp, forall_eq]
    refine ⟨hout, fun hin => hx ((h.cover _).mp ⟨b, hb, ?_⟩)⟩
    -- the header of the remainder lies in the block
    have hok := h.layout.ok b hb
    have hstop := hok.stop_le
    simp only [HeapBlk.stop] at hstop ⊢
    have hrem : (b.remainder n).ptr.toNat = b.addr + 32 + n := by
      rw [HeapBlk.ptr, BitVec.toNat_ofNat]
      exact Nat.mod_eq_of_lt (show b.addr + 32 + n < 2 ^ 64 by omega)
    generalize (b.remainder n).ptr = a at hin hrem
    bv_omega

/-- After the heap took pages it may write to them. -/
theorem Allocators.Took.trans {k₁ : Allocators} {new free' : List Word}
    (h : Took hhdm k k₁ new free free') (h' : Took hhdm k₁ k' [] free' free') :
    Took hhdm k k' new free free' where
  pages := h'.pages.trans h.pages
  perm := h.perm
  mem x hx := (h'.mem x hx).trans (h.mem x fun q hq => hx q (by rw [h'.pages]; exact hq))

namespace Allocators.Inv

variable (h : k.Inv hhdm bs free)

include h

/-- Pages that are not the heap's may change, be freed and be taken. -/
theorem elsewhere {pmm : Pmm} {free' : List Word} (hlist : FreeList hhdm pmm free')
    (hapart : ∀ p ∈ k.pages, p ∉ free')
    (hmem : ∀ x : Word, InPages hhdm k.pages x.toNat → pmm.mem x = k.pmm.mem x) :
    { k with pmm }.Inv hhdm bs free' :=
  ⟨h.heap.elsewhere hmem, hlist, hapart⟩

/-- A change in the pages of the heap takes no page. -/
theorem took {s' : Heap} (hpages : s'.pages = k.pages)
    (hmem : ∀ x : Word, ¬ InPages hhdm k.pages x.toNat → s'.mem x = k.pmm.mem x) :
    Took hhdm k (k.setHeap s') [] free free := by
  refine ⟨hpages, List.Perm.refl free, fun x hx => hmem x fun hin => ?_⟩
  obtain ⟨q, hq, hxq⟩ := (inPages_iff h.heap.page).mp hin
  have hq' : q ∈ s'.pages := hpages ▸ hq
  exact hx q (List.mem_append_left _ hq') hxq

variable (hh : HhdmOk hhdm)

include hh

/-- A free page and a page of the heap have no address in common. -/
theorem not_inPages {q : Word} (hq : q ∈ free) (hx : (x - pmmPhysToVirt hhdm q).toNat < 4096) :
    ¬ InPages hhdm k.pages x.toNat := by
  intro hin
  obtain ⟨p, hp, hxp⟩ := (inPages_iff h.heap.page).mp hin
  exact (h.heap.page p hp).apart hh (h.list.page q hq) (fun e => h.apart p hp (e ▸ hq)) x hxp hx

/-- When the heap writes to its own pages only, the free list is as before. -/
theorem setHeap {s' : Heap} {bs' : List HeapBlk} (hinv : HeapInv hhdm s' bs')
    (hpages : s'.pages = k.pages)
    (hmem : ∀ x : Word, ¬ InPages hhdm k.pages x.toNat → s'.mem x = k.pmm.mem x) :
    (k.setHeap s').Inv hhdm bs' free where
  heap := hinv
  list := h.list.of_agree rfl fun q hq => ByteMem.load64_congr fun i hi =>
    hmem _ (h.not_inPages hh hq (by rw [ByteMem.toNat_add_ofNat_sub _ (by omega)]; omega))
  apart p hp := h.apart p (hpages ▸ hp)

/-- The end of `kmalloc` with a block of the list. -/
theorem take {pre post : List HeapBlk} {b : HeapBlk} (hbs : bs = pre ++ b :: post)
    (hmod : n % 16 = 0) (hpos : 0 < n) (hle : n ≤ b.size) :
    ∃ s', kmallocTake k.heap b.ptr (BitVec.ofNat 64 n) = some (b.payload, s') ∧
      (k.setHeap s').Inv hhdm (pre ++ takeAt b n post) free ∧
      Took hhdm k (k.setHeap s') [] free free := by
  subst hbs
  obtain ⟨s', hcall, hinv, hw⟩ := h.heap.take hmod hpos hle
  have hmem : ∀ x : Word, ¬ InPages hhdm k.pages x.toNat → s'.mem x = k.pmm.mem x := fun x hx =>
    h.heap.take_mem hmod hpos hle hcall hx
  exact ⟨s', hcall, h.setHeap hh hinv hw.pages hmem, h.took hw.pages hmem⟩

/-- A run of pages that `pmm_alloc` cut out of the free list becomes a block of the heap. -/
theorem grow {base pages : Word} {pmm : Pmm} {pre post : List Word} (hn : 0 < pages.toNat)
    (hw : pages.toNat * 4096 < 2 ^ 64)
    (hfree : free = pre ++ ((pmmBlock base pages.toNat).reverse ++ post))
    (hlist : FreeList hhdm pmm (pre ++ post))
    (hmem : ∀ x, (∀ q ∈ pre, ¬ (x - pmmPhysToVirt hhdm q).toNat < 8) →
      pmm.mem x = k.pmm.mem x) :
    let k' := { k with pmm }.setHeap (heapPushPages hhdm { k with pmm }.heap base pages)
    k'.Inv hhdm (pageBlk hhdm base pages.toNat :: bs) (pre ++ post) ∧
      Took hhdm k k' (pmmBlock base pages.toNat) free (pre ++ post) := by
  have hperm : free.Perm (pmmBlock base pages.toNat ++ (pre ++ post)) := by
    rw [hfree]
    exact (((List.reverse_perm _).append_right post).append_left pre).trans
      (List.perm_append_comm_assoc _ _ _)
  have hrun : ∀ q ∈ pmmBlock base pages.toNat, q ∈ free := fun q hq =>
    hperm.mem_iff.mpr (List.mem_append_left _ hq)
  have hnot : ∀ q ∈ pmmBlock base pages.toNat, q ∉ pre ++ post :=
    (List.nodup_append'.mp (hperm.nodup_iff.mp h.list.nodup)).2.2
  have hbase : base ∈ pmmBlock base pages.toNat := by
    obtain ⟨m, hm⟩ := Nat.exists_eq_add_of_lt hn
    rw [hm, Nat.zero_add, pmmBlock_succ]
    exact List.mem_cons_self
  -- what `pmm_alloc` wrote lies in free pages, so the heap did not see it
  have hheap : HeapInv hhdm { k with pmm }.heap bs := by
    refine h.heap.elsewhere fun x hx => hmem x fun q hq hxq => ?_
    have hqfree : q ∈ free := hfree ▸ List.mem_append_left _ hq
    exact h.not_inPages hh hqfree (by omega) hx
  refine ⟨⟨hheap.pushPages hh hn hw (fun q hq => h.list.page q (hrun q hq)) fun q hq hq' =>
      h.apart q hq' (hrun q hq),
    hlist.of_write hh (h.list.page base (hrun base hbase)) (hnot base hbase) rfl fun x hx =>
      heapPushPages_mem fun hx' => hx (by omega), fun q hq => ?_⟩, rfl, hperm, fun x hx => ?_⟩
  · rcases List.mem_append.mp hq with hq | hq
    · exact hnot q hq
    · exact fun hq' => h.apart q hq (hperm.mem_iff.mpr (List.mem_append_right _ hq'))
  · have hxbase := hx base (List.mem_append_left _ (List.mem_append_left _ hbase))
    refine (heapPushPages_mem fun hx' => hxbase (by omega)).trans (hmem x fun q hq hxq => ?_)
    exact hx q (List.mem_append_right _ (List.mem_append_left _ hq)) (by omega)

/-- `kmalloc` returns. It takes pages from the free list if no block is large enough. -/
theorem kmalloc (size : Word) :
    ∃ p k' bs' new free', k.kmalloc hhdm size = some (p, k') ∧ k'.Inv hhdm bs' free' ∧
      Took hhdm k k' new free free' ∧
      ((p = 0 ∧ bs' = bs) ∨ (p ≠ 0 ∧ Kept 0 bs bs' ∧ Holds bs' p (roundSize size.toNat) ∧
        ∀ c ∈ bs, c.free = false → c.payload ≠ p)) := by
  have hrefl : Took hhdm k k [] free free := ⟨rfl, List.Perm.refl free, fun _ _ => rfl⟩
  unfold Allocators.kmalloc
  by_cases hlim : size > kmallocLimit
  · exact ⟨0, k, bs, [], free, by rw [if_pos hlim]; rfl, h, hrefl, Or.inl ⟨rfl, rfl⟩⟩
  obtain ⟨hround, hbound⟩ := kmalloc_round hlim
  have hmod := roundSize_mod size.toNat
  have hpos := roundSize_pos size.toNat
  simp only [if_neg hlim, hround]
  rcases HeapInv.search walkBound h.heap.repr.links h.heap.repr.header h.heap.layout.ok
    (show roundSize size.toNat < 2 ^ 64 by omega) h.heap.repr.length_lt with
    ⟨hnone, -⟩ | ⟨pre, b, post, hbs, -, hfit, hsome⟩
  · rw [show k.heap.heapBlockList = k.heapBlockList from rfl] at hnone
    simp only [hnone, Option.bind_eq_bind, Option.bind_some, ne_eq, not_true_eq_false, if_false]
    rw [← kmallocPages]
    have hpages := kmalloc_pages hbound
    generalize kmallocPages (roundSize size.toNat) = pages at hpages ⊢
    rcases h.list.alloc hh (show pages ≠ 0 by bv_omega) with
      ⟨halloc, -⟩ | ⟨pre, base, post, pmm', hfree, -, halloc, hlist, -, hmem⟩
    · exact ⟨0, k, bs, [], free, by simp [halloc], h, hrefl, Or.inl ⟨rfl, rfl⟩⟩
    have hbase : base ∈ free := by
      obtain ⟨m, hm⟩ : ∃ m, pages.toNat = m + 1 := ⟨pages.toNat - 1, by omega⟩
      simp [hfree, hm, pmmBlock_succ]
    obtain ⟨hinv, htook⟩ := h.grow hh (by omega) (by omega) hfree hlist hmem
    have hfit : Fits (roundSize size.toNat) (pageBlk hhdm base pages.toNat) :=
      ⟨rfl, by simp only [pageBlk]; omega⟩
    obtain ⟨s', hcall, hinv', htook'⟩ := hinv.take hh (List.nil_append _).symm hmod hpos hfit.2
    rw [pageBlk_ptr] at hcall
    refine ⟨(pageBlk hhdm base pages.toNat).payload, { k with pmm := pmm' }.setHeap s', _,
      pmmBlock base pages.toNat, pre ++ post, ?_,
      hinv', htook.trans htook', Or.inr ?_⟩
    · simp only [halloc, Option.bind_some, if_neg (h.list.page base hbase).ne_zero]
      exact congrArg (Option.bind · _) hcall
    · have hl : Layout ([] ++ pageBlk hhdm base pages.toNat :: bs) := hinv.heap.layout
      obtain ⟨hne, hkept, hholds, hnew⟩ := allocated_takeAt hl hfit
      exact ⟨hne, fun c hc => hkept c (List.mem_cons_of_mem _ hc), hholds,
        fun c hc => hnew c (List.mem_cons_of_mem _ hc)⟩
  · have hne : b.ptr ≠ 0 := (h.heap.layout.ok b (by simp [hbs])).ptr_ne_zero
    obtain ⟨s', hcall, hinv, htook⟩ := h.take hh hbs hmod hpos hfit.2
    have hl := h.heap.layout
    rw [hbs] at hl
    refine ⟨b.payload, k.setHeap s', _, [], free, ?_, hinv, htook, Or.inr ?_⟩
    · rw [show k.heap.heapBlockList = k.heapBlockList from rfl] at hsome
      simp only [hsome, Option.bind_eq_bind, Option.bind_some, if_pos hne, hcall]
      rfl
    · rw [hbs]
      exact allocated_takeAt hl hfit

/-- `kfree` of a live pointer returns and keeps the free list. -/
theorem kfree {q : Word} (hq : Holds bs q n) :
    ∃ k' bs', k.kfree q = some k' ∧ k'.Inv hhdm bs' free ∧ Took hhdm k k' [] free free ∧
      Kept q bs bs' := by
  obtain ⟨s', bs', hcall, hinv, hkept⟩ := h.heap.kfree hq
  obtain ⟨b, hb, -, rfl, -⟩ := hq
  obtain ⟨pre, post, rfl⟩ := List.append_of_mem hb
  obtain ⟨s₁, hcall₁, -, hw⟩ := h.heap.kfree_list
  cases hcall.symm.trans hcall₁
  have hmem : ∀ x : Word, ¬ InPages hhdm k.pages x.toNat → s'.mem x = k.pmm.mem x := fun x hx =>
    hw.mem x (by simpa using fun hin => hx (h.heap.header_inPages hb hin))
  refine ⟨k.setHeap s', bs', by rw [Allocators.kfree, hcall]; rfl, h.setHeap hh hinv hw.pages hmem,
    h.took hw.pages hmem, hkept⟩

end Allocators.Inv

/-- `heap_init` makes a free page the first block. -/
theorem Allocators.heapInit_inv (hh : HhdmOk hhdm) {pmm : Pmm} (h : FreeList hhdm pmm free)
    (hinit : heapInit hhdm pmm = some k) :
    ∃ q free', k.pages = [q] ∧ free.Perm (q :: free') ∧ k.Inv hhdm [pageBlk hhdm q 1] free' := by
  have hempty : Inv hhdm ⟨pmm, 0, []⟩ [] free := ⟨HeapInv.empty _, h, by simp⟩
  rw [heapInit] at hinit
  rcases h.alloc hh (show (1 : Word) ≠ 0 by decide) with
    ⟨halloc, -⟩ | ⟨pre, base, post, pmm', hfree, -, halloc, hlist, -, hmem⟩
  · rw [halloc] at hinit
    cases hinit
  have hbase : base ∈ free := by simp [hfree, pmmBlock]
  simp only [halloc, Option.bind_eq_bind, Option.bind_some,
    if_neg (h.page base hbase).ne_zero] at hinit
  cases hinit
  obtain ⟨hinv, htook⟩ := hempty.grow hh (by decide) (by decide) hfree hlist hmem
  have hone : pmmBlock base (1 : Word).toNat = [base] := by simp [pmmBlock]
  refine ⟨base, pre ++ post, ?_, ?_, hinv⟩
  · exact htook.pages.trans (by rw [hone]; rfl)
  · exact htook.perm.trans (by rw [hone]; rfl)

/-- Seven free pages, for examples. -/
def sevenPages : Pmm :=
  freePmm exampleHhdm [0x1000, 0x2000, 0x3000, 0x4000, 0x5000, 0x6000, 0x7000]

/-- Of these `heap_init` takes the first. -/
theorem sevenPages_heapInit (hinit : Allocators.heapInit exampleHhdm sevenPages = some k) :
    ∃ free, (∀ p, p ∈ free ↔ p ∈ [0x2000, 0x3000, 0x4000, 0x5000, 0x6000, 0x7000]) ∧
      k.Inv exampleHhdm [pageBlk exampleHhdm 0x1000 1] free := by
  have hlist : FreeList exampleHhdm sevenPages
      [0x1000, 0x2000, 0x3000, 0x4000, 0x5000, 0x6000, 0x7000] := by
    refine freePmm_list exampleHhdm_ok (fun p hp => ?_) (by decide)
    simp only [List.mem_cons, List.not_mem_nil, or_false] at hp
    rcases hp with rfl | rfl | rfl | rfl | rfl | rfl | rfl <;>
      exact ⟨by decide, by decide, by decide⟩
  have hfirst : ∃ k ∈ Allocators.heapInit exampleHhdm sevenPages, k.pages = [0x1000] := by
    decide +kernel
  obtain ⟨k₁, hk₁, hpages₁⟩ := hfirst
  cases hinit.symm.trans hk₁
  obtain ⟨q, free, hpages, hperm, hinv⟩ := Allocators.heapInit_inv exampleHhdm_ok hlist hinit
  obtain rfl : q = 0x1000 := by simpa [hpages₁] using hpages.symm
  exact ⟨free, fun p => ((List.perm_cons _).mp hperm).symm.mem_iff, hinv⟩

end Pros
