import Pros.Vmm.FreeTables
import Pros.Vmm.Owns

/-!
# Teardown of an address space

From the creation of a context on, callers map frames they hold, change flags, unmap pages, and the
context takes demand-paging faults; meanwhile the rest of the kernel allocates and frees pages of
its own and writes to any memory that is not a table of the context. `vmm_destroy_context` then
pushes the root, the tables and the frames that are still mapped, each once, and nothing else.
-/

namespace Pros

variable {arch : Arch} {hhdm root : Word} {free held heap : List Word} {base : Word → Prop}

/-! ## Demand paging -/

/-- A fault in the lower half, at a page without an entry, maps a new page or changes nothing but
the number of tables. -/
theorem Owns.vmmHandlePageFault (hh : HhdmOk hhdm)
    (hbase : ∀ p, base p → IsPage hhdm p ∧ arch.FitsPte p) {v : Vmm} {ctx : VmmContext}
    (h : Owns arch hhdm root base heap v.pmm held free)
    (hcurrent : v.vmmCurrentContext = some ctx) (hctx : ContextIn hhdm [root] ctx)
    {faultAddr code : Word} (hlow : faultAddr < vmmAddrSplit) (hhhdm : faultAddr < hhdm)
    (hnone : vmmLookup arch hhdm v.pmm root (pageNumber faultAddr) = none) {res : Bool} {v' : Vmm}
    (hres : vmmHandlePageFault arch hhdm v faultAddr code = some (res, v')) :
    ∃ free', Owns arch hhdm root base heap v'.pmm held free' := by
  -- the fault is below the HHDM
  have hmmio : tryHandleHhdmMmioFault arch hhdm v faultAddr code = some (false, v) :=
    if_pos (Or.inr (Or.inl hhhdm))
  unfold Pros.vmmHandlePageFault at hres
  simp only [hmmio, Option.bind_eq_bind, Option.bind_some, Bool.false_eq_true, if_false] at hres
  unfold tryHandleDemandPageFault at hres
  simp only [hcurrent] at hres
  split at hres
  · cases hres
    exact ⟨free, h⟩
  split at hres
  · cases hres
    exact ⟨free, h⟩
  have hlow' : faultAddr &&& ~~~(pageSize - 1) < vmmAddrSplit := page_of_addr_lt hlow
  cases hnew : Pros.newTable hhdm v.pmm with
  | none => simp [hnew] at hres
  | some r =>
    obtain ⟨z, pmm⟩ := r
    simp only [hnew, Option.bind_eq_bind, Option.bind_some] at hres
    by_cases hz : z = 0
    · rcases h.tables.list.newTable hh with ⟨-, hfail⟩ | ⟨z', _, _, hfree, hsome, -⟩
      · rw [if_pos hz] at hres
        cases hres
        cases hfail.symm.trans hnew
        exact ⟨free, h⟩
      · obtain ⟨rfl, -⟩ := Prod.mk.inj (Option.some.inj (hsome.symm.trans hnew))
        exact absurd hz (h.tables.list.page z' (hfree ▸ List.mem_cons_self)).ne_zero
    · -- the new page is held until it is mapped, or given back
      rw [if_neg hz] at hres
      obtain ⟨free₁, hheld, hlookup⟩ := h.newTable hh hnew hz
      have hnone' : vmmLookup arch hhdm pmm root (pageNumber (faultAddr &&& ~~~(pageSize - 1))) =
          none := by
        rw [pageNumber_page_of_addr, hlookup _ (pageNumber_lt hlow), hnone]
      obtain ⟨r, v₂, free₂, hmap, howns⟩ := hheld.vmmMapPage
        (v := ⟨pmm, v.vmmKernelContext, some ctx, v.userRoot, v.ttbr1⟩) hh hbase hctx hlow'
        List.mem_cons_self hnone' (vmmWritable ||| vmmUser)
      simp only [hmap, Option.bind_some] at hres
      by_cases hr : r = 0
      · rw [if_neg (not_not.mpr hr)] at hres
        cases hres
        rw [if_pos hr, List.erase_cons_head] at howns
        exact ⟨free₂, howns⟩
      · rw [if_pos hr] at hres
        cases hres
        rw [if_neg hr] at howns
        have hback := howns.pmmFree hh hbase List.mem_cons_self
        rw [List.erase_cons_head] at hback
        exact ⟨_, hback⟩

/-! ## Runs -/

/-- The virtual memory manager with the pages that callers hold. -/
structure SpaceRun where
  vmm : Vmm
  held : List Word

/-- One step in the life of the context with the given root. -/
inductive SpaceStep (arch : Arch) (hhdm root : Word) : SpaceRun → SpaceRun → Prop
  /-- A caller maps a frame it holds at a page without a mapping. If this fails the caller keeps
  the frame. -/
  | map {s ctx va phys flags res v} (hctx : ContextIn hhdm [root] ctx) (hva : va < vmmAddrSplit)
      (hphys : phys ∈ s.held) (hnone : vmmLookup arch hhdm s.vmm.pmm root (pageNumber va) = none)
      (h : vmmMapPage arch hhdm s.vmm (some ctx) va phys flags = some (res, v)) :
      SpaceStep arch hhdm root s ⟨v, if res = 0 then s.held.erase phys else s.held⟩
  /-- A page is mapped again to its own frame, with other flags. -/
  | remap {s ctx va phys old flags res v} (hctx : ContextIn hhdm [root] ctx)
      (hva : va < vmmAddrSplit)
      (hsome : vmmLookup arch hhdm s.vmm.pmm root (pageNumber va) = some (phys, old))
      (h : vmmMapPage arch hhdm s.vmm (some ctx) va phys flags = some (res, v)) :
      SpaceStep arch hhdm root s ⟨v, s.held⟩
  /-- Any call of `vmm_map_page` that fails. -/
  | mapFail {s ctx va phys flags res v} (hctx : ContextIn hhdm [root] ctx) (hva : va < vmmAddrSplit)
      (h : vmmMapPage arch hhdm s.vmm (some ctx) va phys flags = some (res, v)) (hres : res ≠ 0) :
      SpaceStep arch hhdm root s ⟨v, s.held⟩
  /-- A page is unmapped; its frame goes to the caller. -/
  | unmap {s ctx va res v} (hctx : ContextIn hhdm [root] ctx) (hva : va < vmmAddrSplit)
      (h : vmmUnmapPage arch hhdm s.vmm (some ctx) va = some (res, v)) :
      SpaceStep arch hhdm root s
        ⟨v, ((vmmLookup arch hhdm s.vmm.pmm root (pageNumber va)).map Prod.fst).toList ++ s.held⟩
  /-- The context is current and faults at a lower-half page without a mapping. -/
  | fault {s ctx faultAddr code res v} (hcurrent : s.vmm.vmmCurrentContext = some ctx)
      (hctx : ContextIn hhdm [root] ctx) (hlow : faultAddr < vmmAddrSplit)
      (hhhdm : faultAddr < hhdm)
      (hnone : vmmLookup arch hhdm s.vmm.pmm root (pageNumber faultAddr) = none)
      (h : vmmHandlePageFault arch hhdm s.vmm faultAddr code = some (res, v)) :
      SpaceStep arch hhdm root s ⟨v, s.held⟩
  /-- Somebody allocates pages. -/
  | alloc {s count pageBase pmm} (hcount : count ≠ 0) (hne : pageBase ≠ 0)
      (h : pmmAlloc hhdm s.vmm.pmm count = some (pageBase, pmm)) :
      SpaceStep arch hhdm root s ⟨{ s.vmm with pmm }, pmmBlock pageBase count.toNat ++ s.held⟩
  /-- Somebody frees a page they hold. -/
  | free {s p} (hp : p ∈ s.held) :
      SpaceStep arch hhdm root s
        ⟨{ s.vmm with pmm := pmmFree hhdm s.vmm.pmm p 1 }, s.held.erase p⟩
  /-- Anything else that keeps the free list and the entries below the lower half of the root. -/
  | elsewhere {s v} (hlist : ∀ ps, FreeList hhdm s.vmm.pmm ps → FreeList hhdm v.pmm ps)
      (hkeep : ∀ p j t, LowerPath 4 (p ++ [j]) →
        tableAt arch hhdm s.vmm.pmm root p = some t →
        v.pmm.slot hhdm t j = s.vmm.pmm.slot hhdm t j) :
      SpaceStep arch hhdm root s ⟨v, s.held⟩

variable {s s' : SpaceRun}

/-- Every step keeps the ownership of pages. -/
theorem SpaceStep.owns (hh : HhdmOk hhdm) (hbase : ∀ p, base p → IsPage hhdm p ∧ arch.FitsPte p)
    (hstep : SpaceStep arch hhdm root s s')
    (h : Owns arch hhdm root base heap s.vmm.pmm s.held free) :
    ∃ free', Owns arch hhdm root base heap s'.vmm.pmm s'.held free' := by
  cases hstep with
  | @map ctx va phys flags _ _ hctx hva hphys hnone hres =>
    obtain ⟨res', v', free', hmap, howns⟩ := h.vmmMapPage hh hbase hctx hva hphys hnone flags
    cases hmap.symm.trans hres
    exact ⟨free', howns⟩
  | remap hctx hva hsome hres => exact h.vmmMapPage_remap hh hbase hctx hva hsome hres
  | mapFail hctx hva hres hne => exact h.vmmMapPage_fail hh hctx hva hres hne
  | unmap hctx hva hres =>
    obtain ⟨res', v', hunmap, howns⟩ := h.vmmUnmapPage hh hctx hva
    cases hunmap.symm.trans hres
    exact ⟨free, howns⟩
  | fault hcurrent hctx hlow hhhdm hnone hres =>
    exact h.vmmHandlePageFault hh hbase hcurrent hctx hlow hhhdm hnone hres
  | alloc hcount hne hres => exact h.pmmAlloc hh hcount hne hres
  | free hp => exact ⟨_, h.pmmFree hh hbase hp⟩
  | elsewhere hlist hkeep =>
    have he : Elsewhere arch hhdm 4 s.vmm.pmm _ [root] free :=
      ⟨hlist free h.tables.list, h.tables.fits, fun r hr p j t hp ht => by
        obtain rfl := List.mem_singleton.mp hr
        exact hkeep p j t hp ht, h.tables.used⟩
    exact ⟨free, h.keep (h.tables.congr le_rfl (fun _ hr => hr) he) fun _ => he.node le_rfl⟩

theorem Owns.of_run (hh : HhdmOk hhdm) (hbase : ∀ p, base p → IsPage hhdm p ∧ arch.FitsPte p)
    (hrun : Relation.ReflTransGen (SpaceStep arch hhdm root) s s')
    (h : Owns arch hhdm root base heap s.vmm.pmm s.held free) :
    ∃ free', Owns arch hhdm root base heap s'.vmm.pmm s'.held free' := by
  induction hrun with
  | refl => exact ⟨free, h⟩
  | tail _ hstep ih =>
    obtain ⟨free', howns⟩ := ih
    exact hstep.owns hh hbase howns

/-- A `kmalloc` that, called by `vmm_create_context`, takes the pages `heap` from the free list and
spares the lower half of the new root. -/
def KmallocTakes (arch : Arch) (hhdm : Word) (v : Vmm) (heap : List Word)
    (kmalloc : Pmm → Option (Word × Pmm)) : Prop :=
  ∀ z pmm ptr pmm' ps,
    archVmmNewContextRoot arch hhdm v.pmm (archVmmGetKernelRoot arch v) = some (z, pmm) → z ≠ 0 →
    kmalloc pmm = some (ptr, pmm') → FreeList hhdm pmm ps →
    (∃ ps', FreeList hhdm pmm' ps' ∧ ps.Perm (heap ++ ps')) ∧
      ∀ j : Fin 512, j.val < 256 → pmm'.slot hhdm z j = pmm.slot hhdm z j

/-- The kernel's own `kmalloc` takes those pages that the heap has more afterwards. -/
theorem Allocators.Inv.kmallocTakes (hh : HhdmOk hhdm) {v : Vmm} {k : Allocators}
    {bs : List HeapBlk} (h : k.Inv hhdm bs free) (hpmm : k.pmm = v.pmm) (size : Word) :
    ∃ heap, KmallocTakes arch hhdm v heap (k.kmallocOn hhdm size) ∧
      ∀ z pmm ptr k',
        archVmmNewContextRoot arch hhdm v.pmm (archVmmGetKernelRoot arch v) = some (z, pmm) →
        z ≠ 0 → Allocators.kmalloc hhdm { k with pmm } size = some (ptr, k') →
        k'.pages = heap ++ k.pages := by
  rw [← hpmm]
  rcases h.list.archVmmNewContextRoot arch hh (archVmmGetKernelRoot arch v) with
    ⟨-, hfail⟩ | ⟨z, free₁, pmm, rfl, hroot, hlist, -⟩
  · refine ⟨[], fun z pmm ptr pmm' ps hroot hz => ?_, fun z pmm ptr k' hroot hz => ?_⟩
    · cases hfail.symm.trans (hpmm ▸ hroot)
      exact absurd rfl hz
    · cases hfail.symm.trans hroot
      exact absurd rfl hz
  have hz := h.list.page z List.mem_cons_self
  obtain ⟨_, -, hinv⟩ := h.newRoot hh hroot hz.ne_zero
  obtain ⟨ptr, k', -, -, -, hreturns, -⟩ := hinv.kmalloc hh size
  have hcall : k.kmallocOn hhdm size pmm = some (ptr, k'.pmm) := by
    rw [Allocators.kmallocOn, hreturns]
    rfl
  obtain ⟨k'', new, free', hk, hpages, hperm, hlist', hagree⟩ :=
    h.kmallocOn_newRoot hh hroot hz.ne_zero hcall
  refine ⟨new, fun z' pmm₁ ptr₁ pmm₁' ps hroot' _ hcall' hps => ?_,
    fun z' pmm₁ ptr₁ k₁ hroot' _ hk' => ?_⟩
  · cases hroot.symm.trans (hpmm ▸ hroot')
    cases hcall.symm.trans hcall'
    obtain rfl := hps.unique hlist
    refine ⟨⟨free', hlist', (List.perm_cons z).mp hperm⟩, fun j _ => ?_⟩
    exact slot_congr (hagree z hz (fun hmem => h.apart z hmem List.mem_cons_self) fun _ => rfl)
  · cases hroot.symm.trans hroot'
    cases hk.symm.trans hk'
    exact hpages

/-- A new context owns its root. -/
theorem Owns.of_create (hh : HhdmOk hhdm) {v v' : Vmm} {ctx : VmmContext}
    {kmalloc : Pmm → Option (Word × Pmm)} (hfree : FreeList hhdm v.pmm free)
    (hfits : ∀ p ∈ free, arch.FitsPte p) (hheld : held.Nodup) (hdisj : ∀ p ∈ held, p ∉ free)
    (hk : KmallocTakes arch hhdm v heap kmalloc)
    (hcreate : vmmCreateContext arch hhdm kmalloc v = some (some ctx, v')) :
    ContextIn hhdm [ctx.rootPhys] ctx ∧
      ∃ free', Owns arch hhdm ctx.rootPhys (fun p => p ∈ free ∨ p ∈ held) heap v'.pmm held free' := by
  have hempty : Tables arch hhdm 4 v.pmm [] free := Tables.empty hfree hfits
  rcases hempty.list.vmmCreateContext hh hcreate with
    ⟨-, hnone, -⟩ | ⟨z, free', pmm, ptr, pmm', rfl, hroot, hlist, hnew, hkm, ⟨hnone, -⟩ | ⟨hctx, rfl⟩⟩
  · cases hnone
  · cases hnone
  cases hctx
  have hz := hfree.page z List.mem_cons_self
  have hznot := (List.nodup_cons.mp hfree.nodup).1
  obtain ⟨⟨ps, hps, hperm⟩, hslot⟩ := hk z pmm ptr pmm' free' hroot hz.ne_zero hkm hlist
  have hadd := hempty.addRoot hh (by decide) le_rfl hlist hnew
  have hmem : ∀ p, p ∈ free' ↔ p ∈ heap ∨ p ∈ ps := fun p => by
    rw [hperm.mem_iff, List.mem_append]
  have hnodup := List.nodup_append.mp (hperm.nodup_iff.mp hlist.nodup)
  have hnode : ∀ p, Node arch hhdm 4 pmm [z] p ↔ p = z := fun p => by
    rw [hempty.addRoot_node hh (by decide) le_rfl hlist hnew]
    exact or_iff_right not_node_nil
  have he : Elsewhere arch hhdm 4 pmm pmm' [z] ps := by
    refine ⟨hps, fun p hp => hadd.fits p ((hmem p).mpr (Or.inr hp)), fun r hr p j t hp ht => ?_,
      fun t ht hps => hadd.used t ht ((hmem t).mpr (Or.inr hps))⟩
    obtain rfl := List.mem_singleton.mp hr
    obtain ⟨rfl, rfl⟩ := hnew.tableAt_eq_some hp.shorten ht
    exact hslot j (hp.2 j rfl)
  refine ⟨⟨List.mem_cons_self, rfl⟩, ps, hadd.congr le_rfl (fun _ hr => hr) he, fun p => ?_,
    fun p hp => ?_, fun p hp => ?_, hheld⟩
  · change p ∈ z :: free' ∨ p ∈ held ↔ p ∈ ps ∨ Node arch hhdm 4 pmm' [z] p ∨ p ∈ held ∨ p ∈ heap
    rw [he.node le_rfl, hnode, List.mem_cons, hmem]
    tauto
  · change p ∉ ps ∧ ¬ Node arch hhdm 4 pmm' [z] p
    have hp' := hdisj p hp
    rw [List.mem_cons, hmem] at hp'
    rw [he.node le_rfl, hnode]
    tauto
  · change p ∉ ps ∧ ¬ Node arch hhdm 4 pmm' [z] p ∧ p ∉ held
    have hpfree : p ∈ free' := (hmem p).mpr (Or.inl hp)
    rw [he.node le_rfl, hnode]
    refine ⟨fun hps => hnodup.2.2 p hp p hps rfl, ?_, fun hheld => ?_⟩
    · rintro rfl
      exact hznot hpfree
    · exact hdisj p hheld (List.mem_cons_of_mem z hpfree)

/-- `vmm_destroy_context`, with the kernel's own `kfree` for the struct, leaves the pages free that
neither a caller nor the heap has. -/
theorem Owns.vmmDestroyContext (hh : HhdmOk hhdm) {v : Vmm} {ctx : VmmContext} {k : Allocators}
    {bs : List HeapBlk} {ptr : Word} {n : ℕ}
    (h : Owns arch hhdm ctx.rootPhys base heap v.pmm held free)
    (hctx : ContextIn hhdm [ctx.rootPhys] ctx) (hpmm : k.pmm = v.pmm)
    (hheap : HeapInv hhdm k.heap bs) (hptr : Holds bs ptr n)
    (hpages : ∀ p ∈ k.pages, base p → p ∈ held ∨ p ∈ heap) :
    ∃ w, vmmDestroyContext arch hhdm (k.kfreeOn ptr) v (some ctx) = some w ∧
      FreeList hhdm w.pmm ((ownedPages arch hhdm v.pmm ctx.rootPhys).reverse ++ free) ∧
      ∀ p, p ∈ (ownedPages arch hhdm v.pmm ctx.rootPhys).reverse ++ free ↔
        base p ∧ p ∉ held ∧ p ∉ heap := by
  obtain ⟨pmm, hfreed, hdestroy⟩ := h.tables.vmmDestroyContext hh hctx (k.kfreeOn ptr)
  have hafter : ∀ p, p ∈ (ownedPages arch hhdm v.pmm ctx.rootPhys).reverse ++ free ↔
      base p ∧ p ∉ held ∧ p ∉ heap := fun p => by
    have hheldOnly := h.heldOnly p
    have hheapOnly := h.heapOnly p
    rw [List.mem_append, List.mem_reverse, mem_ownedPages, h.account]
    tauto
  have hapart : ∀ p ∈ k.pages, p ∉ (ownedPages arch hhdm v.pmm ctx.rootPhys).reverse ++ free := by
    intro p hp hmem
    obtain ⟨hb, hnheld, hnheap⟩ := (hafter p).mp hmem
    exact (hpages p hp hb).elim hnheld hnheap
  -- only pages that are free now were written to, and the heap has none of them
  have hinv : Allocators.Inv hhdm { k with pmm } bs
      ((ownedPages arch hhdm v.pmm ctx.rootPhys).reverse ++ free) := by
    refine ⟨hheap.elsewhere fun x hx => ?_, hfreed.list, hapart⟩
    obtain ⟨p, hp, hxp⟩ := (inPages_iff hheap.page).mp hx
    refine (hfreed.mem x fun u hu hxu => ?_).trans (congrArg (·.mem x) hpmm.symm)
    have hfree := List.mem_append_left free (List.mem_reverse.mpr hu)
    exact (hheap.page p hp).apart hh (hfreed.list.page u hfree)
      (fun e => hapart p hp (e ▸ hfree)) x hxp hxu
  obtain ⟨k', bs', hk, hinv', -⟩ := hinv.kfree hh hptr
  refine ⟨{ v with pmm := k'.pmm }, ?_, hinv'.list, hafter⟩
  rw [hdestroy, Allocators.kfreeOn, hk]
  rfl

/-- Teardown frees exactly what the address space owns. Take a context that `vmm_create_context`
returned, and any run of operations on it. Then `vmm_destroy_context` pushes, each exactly once, the
pages that paths through root entries 0..255 reach: the root, the tables and the frames still
mapped. The pages that are free afterwards are those that were free before the creation, or held by
callers then, except the pages that callers still hold and those the heap took for the struct.

`k` has the variables of `heap.c` at the time of the call. The struct is a block in use, and a page
that the heap has got since the creation is one of those it took or that somebody allocated. -/
theorem teardown_frees_what_is_owned (hh : HhdmOk hhdm) {v v' : Vmm} {ctx ctx' : VmmContext}
    {kmalloc : Pmm → Option (Word × Pmm)} {k : Allocators} {bs : List HeapBlk} {ptr : Word} {n : ℕ}
    (hfree : FreeList hhdm v.pmm free) (hfits : ∀ p ∈ free, arch.FitsPte p)
    (hheld : held.Nodup) (hpage : ∀ p ∈ held, p ∉ free ∧ IsPage hhdm p ∧ arch.FitsPte p)
    (hk : KmallocTakes arch hhdm v heap kmalloc)
    (hcreate : vmmCreateContext arch hhdm kmalloc v = some (some ctx, v'))
    (hrun : Relation.ReflTransGen (SpaceStep arch hhdm ctx.rootPhys) ⟨v', held⟩ s)
    (hroot : ctx'.rootPhys = ctx.rootPhys) (hvirt : ctx'.rootVirt = ctx.rootVirt)
    (hpmm : k.pmm = s.vmm.pmm) (hheap : HeapInv hhdm k.heap bs) (hptr : Holds bs ptr n)
    (hpages : ∀ p ∈ k.pages, p ∈ free ∨ p ∈ held → p ∈ s.held ∨ p ∈ heap) :
    ∃ before pushed w, FreeList hhdm s.vmm.pmm before ∧
      vmmDestroyContext arch hhdm (k.kfreeOn ptr) s.vmm (some ctx') = some w ∧
      FreeList hhdm w.pmm (pushed ++ before) ∧ pushed.Nodup ∧
      (∀ p, p ∈ pushed ↔ ∃ path : List (Fin 512), path.length ≤ 4 ∧
        (∀ i ∈ path.head?, i.val < 256) ∧
        tableAt arch hhdm s.vmm.pmm ctx.rootPhys path = some p) ∧
      ∀ p, p ∈ pushed ++ before ↔ (p ∈ free ∨ p ∈ held) ∧ p ∉ s.held ∧ p ∉ heap := by
  obtain ⟨hctx, free₁, howns₁⟩ := Owns.of_create hh hfree hfits hheld
    (fun p hp => (hpage p hp).1) hk hcreate
  have hbase : ∀ p, p ∈ free ∨ p ∈ held → IsPage hhdm p ∧ arch.FitsPte p := by
    rintro p (hp | hp)
    · exact ⟨hfree.page p hp, hfits p hp⟩
    · exact (hpage p hp).2
  obtain ⟨before, howns⟩ := howns₁.of_run hh hbase hrun
  rw [← hroot] at howns ⊢
  have hctx' : ContextIn hhdm [ctx'.rootPhys] ctx' :=
    ⟨List.mem_cons_self, by rw [hvirt, hctx.virt, hroot]⟩
  obtain ⟨w, hdestroy, hlist, hafter⟩ := howns.vmmDestroyContext hh hctx' hpmm hheap hptr hpages
  refine ⟨before, _, w, howns.tables.list, hdestroy, hlist,
    List.nodup_reverse.mpr (nodup_ownedPages howns.tables), fun p => ?_, hafter⟩
  rw [List.mem_reverse, mem_ownedPages]
  constructor
  · rintro ⟨r, hr, q, hq, hp⟩
    obtain rfl := List.mem_singleton.mp hr
    exact ⟨q, hq.1, hq.2, hp⟩
  · rintro ⟨q, hlen, hhead, hp⟩
    exact ⟨_, List.mem_cons_self, q, ⟨hlen, hhead⟩, hp⟩

/-- The blocks of a heap of one page after a request for 32 bytes. -/
def oneUsedBlock : List HeapBlk :=
  [⟨0xffff800000001000, 32, false⟩, ⟨0xffff800000001040, 4000, true⟩]

/-- The headers of these blocks, each with its link, its size and its flag. -/
def oneUsedHeaders (s : Heap) : List (Word × Word × Bool) :=
  [0xffff800000001000, 0xffff800000001040].map fun a => (s.next a, s.size a, s.isFree a)

theorem oneUsedBlock_inv {mem : ByteMem}
    (h : oneUsedHeaders ⟨mem, 0xffff800000001000, [0x1000]⟩ =
      [(0xffff800000001040, 32, false), (0, 4000, true)]) :
    HeapInv exampleHhdm ⟨mem, 0xffff800000001000, [0x1000]⟩ oneUsedBlock := by
  simp only [oneUsedHeaders, List.map_cons, List.map_nil, List.cons.injEq, Prod.mk.injEq,
    and_true] at h
  obtain ⟨⟨hnext, hsize, hfree⟩, hnext', hsize', hfree'⟩ := h
  refine ⟨⟨⟨rfl, by decide, hnext, by decide, hnext'⟩, ?_⟩, ⟨?_, ?_⟩, fun x => ?_, ?_⟩
  · simpa [oneUsedBlock] using ⟨⟨hsize, hfree⟩, hsize', hfree'⟩
  · simpa [oneUsedBlock] using ⟨⟨by decide, by decide, by decide, by decide, by decide⟩,
      by decide, by decide, by decide, by decide, by decide⟩
  · simp [oneUsedBlock, HeapBlk.Apart, HeapBlk.stop]
  · have hvirt : (pmmPhysToVirt exampleHhdm 0x1000).toNat = 0xffff800000001000 := rfl
    simp only [Covers, oneUsedBlock, HeapBlk.stop, InPages, List.mem_cons, List.not_mem_nil,
      or_false, exists_eq_or_imp, exists_eq_left, hvirt]
    omega
  · simpa using ⟨by decide, by decide, by decide⟩

set_option synthInstance.maxSize 2000 in
/-- The life of a context up to its teardown: a heap is set up, the context is created, a caller
gets a page and maps it. The block of the struct is still in use then. -/
theorem oneFrame_life :
    ∃ k ∈ Allocators.heapInit exampleHhdm sevenPages,
    ∃ root ∈ archVmmNewContextRoot .aarch64 exampleHhdm k.pmm 0,
    ∃ ptr ∈ Allocators.kmalloc exampleHhdm { k with pmm := root.2 } 32,
    ∃ c ∈ vmmCreateContext .aarch64 exampleHhdm (k.kmallocOn exampleHhdm 32)
      ⟨k.pmm, none, none, 0, 0⟩,
    ∃ a ∈ pmmAlloc exampleHhdm c.2.pmm 1,
    ∃ m ∈ vmmMapPage .aarch64 exampleHhdm { c.2 with pmm := a.2 } c.1 0x400000 a.1 vmmUser,
      k.pages = [0x1000] ∧ root.1 = 0x2000 ∧ ptr.2.pages = [0x1000] ∧
      c.1 = some (newContext exampleHhdm 0x2000) ∧ a.1 = 0x3000 ∧
      vmmLookup .aarch64 exampleHhdm a.2 0x2000 0x400 = none ∧ m.1 = 0 ∧
      vmmLookup .aarch64 exampleHhdm m.2.pmm 0x2000 0x400 = some (0x3000, 5) ∧
      oneUsedHeaders ⟨m.2.pmm.mem, 0xffff800000001000, [0x1000]⟩ =
        [(0xffff800000001040, 32, false), (0, 4000, true)] := by
  decide +kernel

theorem teardown_frees_what_is_owned_one_frame :
    ∃ k ∈ Allocators.heapInit exampleHhdm sevenPages,
    ∃ c ∈ vmmCreateContext .aarch64 exampleHhdm (k.kmallocOn exampleHhdm 32)
      ⟨k.pmm, none, none, 0, 0⟩,
    ∃ a ∈ pmmAlloc exampleHhdm c.2.pmm 1,
    ∃ m ∈ vmmMapPage .aarch64 exampleHhdm { c.2 with pmm := a.2 } c.1 0x400000 a.1 vmmUser,
    ∃ w ∈ vmmDestroyContext .aarch64 exampleHhdm
      (Allocators.kfreeOn ⟨m.2.pmm, 0xffff800000001000, [0x1000]⟩ 0xffff800000001020) m.2 c.1,
    ∃ free, m.1 = 0 ∧ vmmLookup .aarch64 exampleHhdm m.2.pmm 0x2000 0x400 = some (0x3000, 5) ∧
      FreeList exampleHhdm w.pmm free ∧
      ∀ p, p ∈ free ↔ p ∈ [0x2000, 0x3000, 0x4000, 0x5000, 0x6000, 0x7000] := by
  obtain ⟨k, hk, ⟨z, pmm⟩, hz, ⟨ptr, k'⟩, hkmalloc, ⟨c, v⟩, hc, ⟨phys, pmm₁⟩, halloc, ⟨res, v'⟩, hmap,
    hpages, rfl, hpages', rfl, rfl, hnone, rfl, hlookup, hheaders⟩ := oneFrame_life
  refine ⟨k, hk, _, hc, _, halloc, _, hmap, ?_⟩
  -- the heap took its first page, and no other one for the struct
  obtain ⟨free, hmem, hinv⟩ := sevenPages_heapInit hk
  obtain ⟨heap, htakes, hheap⟩ : ∃ heap, KmallocTakes .aarch64 exampleHhdm
      ⟨k.pmm, none, none, 0, 0⟩ heap (k.kmallocOn exampleHhdm 32) ∧ _ :=
    hinv.kmallocTakes exampleHhdm_ok rfl 32
  obtain rfl : heap = [] := by
    have := hheap _ _ _ _ hz (by decide) hkmalloc
    rw [hpages, show k'.pages = [0x1000] from hpages'] at this
    simpa using this
  have hfits : ∀ p ∈ free, Arch.aarch64.FitsPte p := fun p hp => by
    have hp' := (hmem p).mp hp
    simp only [List.mem_cons, List.not_mem_nil, or_false] at hp'
    rcases hp' with rfl | rfl | rfl | rfl | rfl | rfl <;> exact ⟨by decide, by decide⟩
  have hrun : Relation.ReflTransGen (SpaceStep .aarch64 exampleHhdm 0x2000) ⟨v, []⟩ ⟨v', []⟩ := by
    have hctx : ContextIn exampleHhdm [0x2000] (newContext exampleHhdm 0x2000) :=
      ⟨List.mem_cons_self, rfl⟩
    have hone : pmmBlock 0x3000 (1 : Word).toNat ++ [] = [0x3000] := by decide
    have hgot : SpaceStep .aarch64 exampleHhdm 0x2000 ⟨v, []⟩ ⟨{ v with pmm := pmm₁ }, _⟩ :=
      .alloc (by decide) (by decide) halloc
    rw [hone] at hgot
    rw [show 0x400 = pageNumber 0x400000 by decide] at hnone
    have hmapped : SpaceStep .aarch64 exampleHhdm 0x2000 ⟨{ v with pmm := pmm₁ }, [0x3000]⟩
        ⟨v', _⟩ := .map hctx (by decide) List.mem_cons_self hnone hmap
    rw [if_pos rfl, List.erase_cons_head] at hmapped
    exact .trans (.single hgot) (.single hmapped)
  have hptr : Holds oneUsedBlock 0xffff800000001020 32 :=
    ⟨_, List.mem_cons_self, rfl, by decide, le_rfl⟩
  have hapart : ∀ p ∈ [0x1000], p ∈ free ∨ p ∈ [] → p ∈ [] ∨ p ∈ ([] : List Word) := by
    simp [hmem]
  obtain ⟨before, pushed, w, -, hdestroy, hlist, -, -, hfree⟩ :=
    teardown_frees_what_is_owned (k := ⟨v'.pmm, 0xffff800000001000, [0x1000]⟩) exampleHhdm_ok
      hinv.list hfits List.nodup_nil (by simp) htakes hc hrun
      (show (newContext exampleHhdm 0x2000).rootPhys = _ from rfl) rfl rfl
      (oneUsedBlock_inv hheaders) hptr hapart
  refine ⟨w, hdestroy, pushed ++ before, rfl, hlookup, hlist, fun p => ?_⟩
  rw [hfree]
  simpa using hmem p

end Pros
