import Pros.Vmm.Operations

/-!
# Page tables refine a finite map

The lower half of a context is a partial map from page numbers to a frame and flags. Along every
run of the operations on contexts, interleaved with anything else that leaves the lower halves
alone, each operation changes this map as a map operation does, on both architectures.

Between the operations of the run the rest of the kernel may write to all other memory and may take
pages from the free list and give others back (`Elsewhere`); what it may not do is put a page of a
table on the free list.
-/

namespace Pros

variable {arch : Arch} {hhdm : Word}

/-- The virtual memory manager with the contexts that are live. -/
structure VmmRun where
  vmm : Vmm
  contexts : List VmmContext

/-- The roots of the live contexts. -/
def VmmRun.roots (s : VmmRun) : List Word := s.contexts.map (·.rootPhys)

/-- The lower half of a context as a partial map from page numbers to frame and flags. -/
def lowerHalf (arch : Arch) (hhdm : Word) (v : Vmm) (ctx : VmmContext) (n : ℕ) :
    Option (Word × Word) :=
  vmmLookup arch hhdm v.pmm ctx.rootPhys n

/-- A `kmalloc` that, called by `vmm_create_context`, spares the tables and the new root. -/
def KmallocOk (arch : Arch) (hhdm : Word) (s : VmmRun) (kmalloc : Pmm → Option (Word × Pmm)) :
    Prop :=
  ∀ z pmm ptr pmm',
    archVmmNewContextRoot arch hhdm s.vmm.pmm (archVmmGetKernelRoot arch s.vmm) = some (z, pmm) →
    z ≠ 0 → kmalloc pmm = some (ptr, pmm') →
    ∃ free, Elsewhere arch hhdm 3 pmm pmm' (z :: s.roots) free

/-- One step of a run. -/
inductive VmmStep (arch : Arch) (hhdm : Word) : VmmRun → VmmRun → Prop
  | create {s kmalloc c v} (hk : KmallocOk arch hhdm s kmalloc)
      (h : vmmCreateContext arch hhdm kmalloc s.vmm = some (c, v)) :
      VmmStep arch hhdm s ⟨v, c.toList ++ s.contexts⟩
  | map {s ctx va phys flags res v} (hctx : ctx ∈ s.contexts) (hva : va < vmmAddrSplit)
      (hphys : arch.FitsPte phys)
      (h : vmmMapPage arch hhdm s.vmm (some ctx) va phys flags = some (res, v)) :
      VmmStep arch hhdm s ⟨v, s.contexts⟩
  | unmap {s ctx va res v} (hctx : ctx ∈ s.contexts) (hva : va < vmmAddrSplit)
      (h : vmmUnmapPage arch hhdm s.vmm (some ctx) va = some (res, v)) :
      VmmStep arch hhdm s ⟨v, s.contexts⟩
  | elsewhere {s v free} (h : Elsewhere arch hhdm 3 s.vmm.pmm v.pmm s.roots free) :
      VmmStep arch hhdm s ⟨v, s.contexts⟩

/-- The invariant of a run. -/
structure VmmRun.Ok (arch : Arch) (hhdm : Word) (s : VmmRun) (free : List Word) : Prop where
  tables : Tables arch hhdm 3 s.vmm.pmm s.roots free
  fresh : ∀ c ∈ s.contexts, c = newContext hhdm c.rootPhys

variable {s s' : VmmRun} {free : List Word}

theorem VmmRun.Ok.contextIn (h : s.Ok arch hhdm free) {c : VmmContext} (hc : c ∈ s.contexts) :
    ContextIn hhdm s.roots c := by
  refine ⟨List.mem_map_of_mem hc, ?_⟩
  rw [h.fresh c hc]
  rfl

/-- Contexts are told apart by their roots. -/
theorem VmmRun.Ok.rootPhys_inj (h : s.Ok arch hhdm free) {c c' : VmmContext}
    (hc : c ∈ s.contexts) (hc' : c' ∈ s.contexts) : c.rootPhys = c'.rootPhys ↔ c = c' := by
  refine ⟨fun hroot => ?_, fun e => e ▸ rfl⟩
  rw [h.fresh c hc, h.fresh c' hc', hroot]

theorem VmmRun.Ok.mem_roots {c : VmmContext} (hc : c ∈ s.contexts) : c.rootPhys ∈ s.roots :=
  List.mem_map_of_mem hc

/-- Creating a context keeps the invariant and the entries of the others, and the new context is
empty. -/
theorem VmmRun.Ok.create (hh : HhdmOk hhdm) (h : s.Ok arch hhdm free)
    {kmalloc : Pmm → Option (Word × Pmm)} (hk : KmallocOk arch hhdm s kmalloc)
    {c : Option VmmContext} {v : Vmm}
    (hres : vmmCreateContext arch hhdm kmalloc s.vmm = some (c, v)) :
    (∃ free', VmmRun.Ok arch hhdm ⟨v, c.toList ++ s.contexts⟩ free') ∧
      (∀ ctx ∈ s.contexts, ∀ n < 2 ^ 35,
        lowerHalf arch hhdm v ctx n = lowerHalf arch hhdm s.vmm ctx n) ∧
      ∀ ctx ∈ c, ctx ∉ s.contexts ∧ ∀ n < 2 ^ 35, lowerHalf arch hhdm v ctx n = none := by
  rcases h.tables.list.vmmCreateContext hh hres with
    ⟨-, rfl, rfl⟩ | ⟨z, free', pmm, ptr, pmm', rfl, hroot, hlist, hnew, hkm, hcases⟩
  · exact ⟨⟨free, h.tables, h.fresh⟩, fun _ _ _ _ => rfl, by simp⟩
  have hz : IsPage hhdm z := h.tables.list.page z List.mem_cons_self
  obtain ⟨free'', helse⟩ := hk z pmm ptr pmm' hroot hz.ne_zero hkm
  have hadd := h.tables.addRoot hh le_rfl (by decide) hlist hnew
  have hafter : Tables arch hhdm 3 pmm' (z :: s.roots) free'' :=
    hadd.congr (by decide) (fun _ hr => hr) helse
  have hkeep : ∀ r ∈ s.roots, ∀ n < 2 ^ 35,
      vmmLookup arch hhdm pmm' r n = vmmLookup arch hhdm s.vmm.pmm r n := fun r hr n hn => by
    rw [helse.lookup (List.mem_cons_of_mem z hr) hn,
      (h.tables.addRoot_elsewhere hh le_rfl hlist hnew).lookup hr hn]
  have hnotin : z ∉ s.roots := fun hmem =>
    h.tables.ne_of_node ⟨z, hmem, [], lowerPath_nil, rfl⟩ rfl
  rcases hcases with ⟨rfl, rfl⟩ | ⟨rfl, rfl⟩
  · -- `kmalloc` failed: the root goes back to the free list
    have hback := hafter.freeRoot hh le_rfl hnotin (h.tables.fits z List.mem_cons_self)
    refine ⟨⟨_, hafter.congr (by decide) (fun r hr => List.mem_cons_of_mem z hr) hback, h.fresh⟩,
      fun ctx hctx n hn => ?_, by simp⟩
    exact (hback.lookup (VmmRun.Ok.mem_roots hctx) hn).trans
      (hkeep _ (VmmRun.Ok.mem_roots hctx) n hn)
  · refine ⟨⟨free'', hafter, ?_⟩, fun ctx hctx => hkeep _ (VmmRun.Ok.mem_roots hctx), ?_⟩
    · intro ctx hctx
      rcases List.mem_cons.mp hctx with rfl | hctx
      · rfl
      · exact h.fresh ctx hctx
    · rintro ctx ⟨rfl⟩
      refine ⟨fun hmem => hnotin (VmmRun.Ok.mem_roots hmem), fun n hn => ?_⟩
      exact (helse.lookup List.mem_cons_self hn).trans (hnew.lookup hn)

/-- The kernel's own `kmalloc` is one that runs allow, as long as no page of the heap is a table. -/
theorem VmmRun.Ok.kmallocOn (hh : HhdmOk hhdm) (h : s.Ok arch hhdm free) {k : Allocators}
    {bs : List HeapBlk} (hk : k.Inv hhdm bs free) (hpmm : k.pmm = s.vmm.pmm)
    (hapart : ∀ p ∈ k.pages, ¬ Node arch hhdm 3 s.vmm.pmm s.roots p) (size : Word) :
    KmallocOk arch hhdm s (k.kmallocOn hhdm size) := by
  intro z pmm ptr pmm' hroot hz hcall
  rw [← hpmm] at hroot hapart
  have htables : Tables arch hhdm 3 k.pmm s.roots free := hpmm ▸ h.tables
  obtain ⟨k', new, free', -, -, hperm, hlist', hagree⟩ := hk.kmallocOn_newRoot hh hroot hz hcall
  rcases hk.list.archVmmNewContextRoot arch hh (archVmmGetKernelRoot arch s.vmm) with
    ⟨-, hfail⟩ | ⟨z', free₁, pmm₁, rfl, hsome, hlist, hnew⟩
  · cases hfail.symm.trans hroot
    exact absurd rfl hz
  cases hsome.symm.trans hroot
  have hadd := htables.addRoot hh le_rfl (by decide) hlist hnew
  have hfree : ∀ p ∈ free', p ∈ free₁ := fun p hp =>
    (List.perm_cons z).mp hperm |>.mem_iff.mpr (List.mem_append_right _ hp)
  refine ⟨free', .of_agreeOn hlist' (fun p hp => hadd.fits p (hfree p hp)) (fun t ht => ?_)
    fun t ht hmem => hadd.used t ht (hfree t hmem)⟩
  have hpage := hadd.page t ht
  rcases (htables.addRoot_node hh le_rfl (by decide) hlist hnew).mp ht with ht | rfl
  · exact hagree t hpage (fun hmem => hapart t hmem ht) fun hmem => absurd hmem (htables.used t ht)
  · exact hagree t hpage (fun hmem => hk.apart t hmem List.mem_cons_self) fun _ => rfl

theorem VmmRun.Ok.map (hh : HhdmOk hhdm) (h : s.Ok arch hhdm free) {ctx : VmmContext}
    (hctx : ctx ∈ s.contexts) {va phys : Word} (hva : va < vmmAddrSplit)
    (hphys : arch.FitsPte phys) (flags : Word) :
    ∃ res v free', vmmMapPage arch hhdm s.vmm (some ctx) va phys flags = some (res, v) ∧
      VmmRun.Ok arch hhdm ⟨v, s.contexts⟩ free' ∧
      ((res = 0 ∧ ∀ c ∈ s.contexts, ∀ n < 2 ^ 35, lowerHalf arch hhdm v c n =
          if c = ctx ∧ n = pageNumber va then some (phys, (flags ||| vmmPresent) &&& 31)
          else lowerHalf arch hhdm s.vmm c n) ∨
        (res = -1 ∧ v.pmm.freeListHead = 0 ∧ ∀ c ∈ s.contexts, ∀ n < 2 ^ 35,
          lowerHalf arch hhdm v c n = lowerHalf arch hhdm s.vmm c n)) := by
  obtain ⟨res, pmm, free', hmap, hext, hcases⟩ :=
    h.tables.vmmMapPage hh (h.contextIn hctx) hva hphys flags
  refine ⟨res, _, free', hmap, ⟨hext.tables, h.fresh⟩, ?_⟩
  rcases hcases with ⟨hres, hlookup⟩ | ⟨hres, rfl, hlookup⟩
  · refine Or.inl ⟨hres, fun c hc n hn => ?_⟩
    rw [lowerHalf, hlookup _ (VmmRun.Ok.mem_roots hc) n hn]
    exact if_congr (and_congr_left' (h.rootPhys_inj hc hctx)) rfl rfl
  · exact Or.inr ⟨hres, hext.tables.list.links, fun c hc => hlookup _ (VmmRun.Ok.mem_roots hc)⟩

theorem VmmRun.Ok.unmap (hh : HhdmOk hhdm) (h : s.Ok arch hhdm free) {ctx : VmmContext}
    (hctx : ctx ∈ s.contexts) {va : Word} (hva : va < vmmAddrSplit) :
    ∃ res v, vmmUnmapPage arch hhdm s.vmm (some ctx) va = some (res, v) ∧
      VmmRun.Ok arch hhdm ⟨v, s.contexts⟩ free ∧
      ((res = 0 ∧ lowerHalf arch hhdm s.vmm ctx (pageNumber va) ≠ none ∧
          ∀ c ∈ s.contexts, ∀ n < 2 ^ 35, lowerHalf arch hhdm v c n =
            if c = ctx ∧ n = pageNumber va then none else lowerHalf arch hhdm s.vmm c n) ∨
        (res = -1 ∧ lowerHalf arch hhdm s.vmm ctx (pageNumber va) = none ∧ v = s.vmm)) := by
  obtain ⟨res, pmm, hunmap, hext, hcases⟩ := h.tables.vmmUnmapPage hh (h.contextIn hctx) hva
  refine ⟨res, _, hunmap, ⟨hext.tables, h.fresh⟩, ?_⟩
  rcases hcases with ⟨hres, hsome, hlookup⟩ | ⟨hres, hnone, rfl⟩
  · refine Or.inl ⟨hres, hsome, fun c hc n hn => ?_⟩
    rw [lowerHalf, hlookup _ (VmmRun.Ok.mem_roots hc) n hn]
    exact if_congr (and_congr_left' (h.rootPhys_inj hc hctx)) rfl rfl
  · exact Or.inr ⟨hres, hnone, rfl⟩

/-- Every step keeps the forest of tables. -/
theorem VmmStep.ok (hh : HhdmOk hhdm) (h : VmmStep arch hhdm s s') (hs : s.Ok arch hhdm free) :
    ∃ free', s'.Ok arch hhdm free' := by
  cases h with
  | create hk hres => exact (hs.create hh hk hres).1
  | @map ctx va phys flags _ _ hctx hva hphys hres =>
    obtain ⟨res', v', free', hmap, hok, -⟩ := hs.map hh hctx hva hphys flags
    cases hmap.symm.trans hres
    exact ⟨free', hok⟩
  | unmap hctx hva hres =>
    obtain ⟨res', v', hunmap, hok, -⟩ := hs.unmap hh hctx hva
    cases hunmap.symm.trans hres
    exact ⟨free, hok⟩
  | elsewhere hkeep => exact ⟨_, hs.tables.congr (by decide) (fun _ hr => hr) hkeep, hs.fresh⟩

theorem VmmRun.ok_of_run (hh : HhdmOk hhdm) {s₀ : VmmRun}
    (hfree : FreeList hhdm s₀.vmm.pmm free) (hfits : ∀ p ∈ free, arch.FitsPte p)
    (hempty : s₀.contexts = []) (hrun : Relation.ReflTransGen (VmmStep arch hhdm) s₀ s) :
    ∃ free', s.Ok arch hhdm free' := by
  induction hrun with
  | refl =>
    have hroots : s₀.roots = [] := by rw [VmmRun.roots, hempty, List.map_nil]
    refine ⟨free, ?_, by simp [hempty]⟩
    rw [hroots]
    exact Tables.empty hfree hfits
  | tail _ hstep ih =>
    obtain ⟨free', hok⟩ := ih
    exact hstep.ok hh hok

/-- Page tables refine a finite map. In every state of every run that starts without contexts,
mapping a page sets exactly its entry in exactly this context, or fails for lack of memory and
changes no entry; unmapping removes exactly the entry if there was one; translating an address
reads the map; and a new context starts with the empty map. -/
theorem page_tables_refine_map (hh : HhdmOk hhdm) {s₀ : VmmRun}
    (hfree : FreeList hhdm s₀.vmm.pmm free) (hfits : ∀ p ∈ free, arch.FitsPte p)
    (hempty : s₀.contexts = []) (hrun : Relation.ReflTransGen (VmmStep arch hhdm) s₀ s) :
    (∀ ctx ∈ s.contexts, ∀ va < vmmAddrSplit,
      (∀ phys, arch.FitsPte phys → ∀ flags,
        ∃ res v, vmmMapPage arch hhdm s.vmm (some ctx) va phys flags = some (res, v) ∧
          ((res = 0 ∧ ∀ c ∈ s.contexts, ∀ n < 2 ^ 35, lowerHalf arch hhdm v c n =
              if c = ctx ∧ n = pageNumber va then some (phys, (flags ||| vmmPresent) &&& 31)
              else lowerHalf arch hhdm s.vmm c n) ∨
            (res = -1 ∧ v.pmm.freeListHead = 0 ∧ ∀ c ∈ s.contexts, ∀ n < 2 ^ 35,
              lowerHalf arch hhdm v c n = lowerHalf arch hhdm s.vmm c n))) ∧
      (∃ res v, vmmUnmapPage arch hhdm s.vmm (some ctx) va = some (res, v) ∧
        ((res = 0 ∧ lowerHalf arch hhdm s.vmm ctx (pageNumber va) ≠ none ∧
            ∀ c ∈ s.contexts, ∀ n < 2 ^ 35, lowerHalf arch hhdm v c n =
              if c = ctx ∧ n = pageNumber va then none else lowerHalf arch hhdm s.vmm c n) ∨
          (res = -1 ∧ lowerHalf arch hhdm s.vmm ctx (pageNumber va) = none ∧ v = s.vmm))) ∧
      vmmVirtToPhys arch hhdm s.vmm (some ctx) va =
        some ((lowerHalf arch hhdm s.vmm ctx (pageNumber va)).elim 0 fun e =>
          e.1 ||| (va &&& 4095))) ∧
    ∀ kmalloc, KmallocOk arch hhdm s kmalloc → ∀ c v,
      vmmCreateContext arch hhdm kmalloc s.vmm = some (c, v) →
      (∀ ctx ∈ s.contexts, ∀ n < 2 ^ 35,
        lowerHalf arch hhdm v ctx n = lowerHalf arch hhdm s.vmm ctx n) ∧
      ∀ ctx ∈ c, ctx ∉ s.contexts ∧ ∀ n < 2 ^ 35, lowerHalf arch hhdm v ctx n = none := by
  obtain ⟨free', hok⟩ := VmmRun.ok_of_run hh hfree hfits hempty hrun
  refine ⟨fun ctx hctx va hva => ⟨fun phys hphys flags => ?_, ?_, ?_⟩,
    fun kmalloc hk c v hres => (hok.create hh hk hres).2⟩
  · obtain ⟨res, v, -, hmap, -, hcases⟩ := hok.map hh hctx hva hphys flags
    exact ⟨res, v, hmap, hcases⟩
  · obtain ⟨res, v, hunmap, -, hcases⟩ := hok.unmap hh hctx hva
    exact ⟨res, v, hunmap, hcases⟩
  · exact hok.tables.vmmVirtToPhys le_rfl (hok.contextIn hctx) hva

set_option synthInstance.maxSize 2000 in
/-- A heap is set up, a context is created and a page of it is mapped. -/
theorem onePage_life :
    ∃ k ∈ Allocators.heapInit exampleHhdm sevenPages,
    ∃ c ∈ vmmCreateContext .aarch64 exampleHhdm (k.kmallocOn exampleHhdm 32)
      ⟨k.pmm, none, none, 0, 0⟩,
    ∃ m ∈ vmmMapPage .aarch64 exampleHhdm c.2 c.1 0x400000 0x9000 vmmUser,
      c.1 = some (newContext exampleHhdm 0x2000) ∧ m.1 = 0 ∧
      vmmLookup .aarch64 exampleHhdm m.2.pmm 0x2000 (pageNumber 0x400123) = some (0x9000, 5) := by
  decide +kernel

/-- The mapped page is translated to its frame. -/
theorem page_tables_refine_map_one_page :
    ∃ k ∈ Allocators.heapInit exampleHhdm sevenPages,
    ∃ c ∈ vmmCreateContext .aarch64 exampleHhdm (k.kmallocOn exampleHhdm 32)
      ⟨k.pmm, none, none, 0, 0⟩,
    ∃ m ∈ vmmMapPage .aarch64 exampleHhdm c.2 c.1 0x400000 0x9000 vmmUser,
      m.1 = 0 ∧ Relation.ReflTransGen (VmmStep .aarch64 exampleHhdm)
        ⟨⟨k.pmm, none, none, 0, 0⟩, []⟩ ⟨m.2, [newContext exampleHhdm 0x2000]⟩ ∧
      vmmVirtToPhys .aarch64 exampleHhdm m.2 (some (newContext exampleHhdm 0x2000)) 0x400123 =
        some 0x9123 := by
  obtain ⟨k, hk, ⟨c, v⟩, hc, ⟨res, v'⟩, hmap, rfl, rfl, hlookup⟩ := onePage_life
  obtain ⟨free, hmem, hinv⟩ := sevenPages_heapInit hk
  have hfits : ∀ p ∈ free, Arch.aarch64.FitsPte p := fun p hp => by
    have hp' := (hmem p).mp hp
    simp only [List.mem_cons, List.not_mem_nil, or_false] at hp'
    rcases hp' with rfl | rfl | rfl | rfl | rfl | rfl <;> exact ⟨by decide, by decide⟩
  have hok : VmmRun.Ok .aarch64 exampleHhdm ⟨⟨k.pmm, none, none, 0, 0⟩, []⟩ free :=
    ⟨Tables.empty hinv.list hfits, by simp⟩
  have hkmalloc := hok.kmallocOn exampleHhdm_ok hinv rfl (fun _ _ => not_node_nil) 32
  have hrun : Relation.ReflTransGen (VmmStep .aarch64 exampleHhdm)
      ⟨⟨k.pmm, none, none, 0, 0⟩, []⟩ ⟨v', [newContext exampleHhdm 0x2000]⟩ :=
    .tail (.single (.create hkmalloc hc))
      (.map List.mem_cons_self (by decide) ⟨by decide, by decide⟩ hmap)
  have hmain := page_tables_refine_map exampleHhdm_ok hinv.list hfits rfl hrun
  refine ⟨k, hk, _, hc, _, hmap, rfl, hrun, ?_⟩
  rw [(hmain.1 _ List.mem_cons_self 0x400123 (by decide)).2.2]
  exact congrArg (fun e => some (Option.elim e 0 fun e => e.1 ||| (0x400123 &&& 4095))) hlookup

end Pros
