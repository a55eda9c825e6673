import Pros.Vmm.KernelHalf
import Pros.Vmm.Refinement

/-!
# Which contexts share the kernel half

Runs on x86_64 of `vmm_create_context`, `vmm_switch_context`, `vmm_map_page` and `vmm_unmap_page` on
upper-half addresses, and of HHDM faults. The contexts translate upper-half addresses alike as long
as no step fills an empty entry of the active root while there is another root: such an entry
stays empty in the other roots, and so does everything mapped below it.
-/

namespace Pros

variable {hhdm r t z : Word} {s s' : Pmm} {k : ℕ} {kind : Word → Option ℕ}
variable {roots free free' : List Word}

/-! ## Changes elsewhere -/

/-- From `s` to `s'` no entry of the kernel half changed, and the free pages are now `free'`. -/
structure KernelElsewhere (hhdm : Word) (s s' : Pmm) (roots free' : List Word) : Prop where
  list : FreeList hhdm s' free'
  fits : ∀ p ∈ free', Arch.x86_64.FitsPte p
  rootUsed : ∀ r ∈ roots, r ∉ free'
  rootKeep : ∀ r ∈ roots, ∀ j : Fin 512, 256 ≤ j.val → s'.slot hhdm r j = s.slot hhdm r j
  used : ∀ r ∈ roots, ∀ k t, KernelTable hhdm s r k t → t ∉ free'
  keep : ∀ r ∈ roots, ∀ k t, KernelTable hhdm s r k t → ∀ j, s'.slot hhdm t j = s.slot hhdm t j

theorem KernelHalf.kind_of_kernelTable (h : KernelHalf hhdm kind s roots free) (hr : r ∈ roots)
    (ht : KernelTable hhdm s r k t) : kind t = some k := by
  induction ht with
  | top hj hc => exact h.top r hr _ hj _ hc
  | down _ hk hc hhuge ih => exact h.down _ _ ih hk _ _ hc hhuge

/-- Memory outside the tables does not matter. Pages that only `kind` takes for tables may change,
so the new typing is the old one on the tables there are. -/
theorem KernelHalf.congr (h : KernelHalf hhdm kind s roots free)
    (he : KernelElsewhere hhdm s s' roots free') :
    ∃ kind', KernelHalf hhdm kind' s' roots free' := by
  classical
  have hkind : ∀ t k, (if ∃ r ∈ roots, ∃ k, KernelTable hhdm s r k t then kind t else none) =
      some k → ∃ r ∈ roots, KernelTable hhdm s r k t := by
    intro t k ht
    split at ht
    · rename_i hex
      obtain ⟨r, hr, k', hk'⟩ := hex
      cases (h.kind_of_kernelTable hr hk').symm.trans ht
      exact ⟨r, hr, hk'⟩
    · cases ht
  have hof : ∀ r ∈ roots, ∀ t k, KernelTable hhdm s r k t →
      (if ∃ r ∈ roots, ∃ k, KernelTable hhdm s r k t then kind t else none) = some k := by
    intro r hr t k ht
    rw [if_pos ⟨r, hr, k, ht⟩]
    exact h.kind_of_kernelTable hr ht
  refine ⟨fun t => if ∃ r ∈ roots, ∃ k, KernelTable hhdm s r k t then kind t else none,
    he.list, he.fits, h.rootPage, he.rootUsed, fun r hr => ?_, fun t k ht => ?_, fun t k ht => ?_,
    fun r hr j hj c hc => ?_, fun t k ht hk j c hc hhuge => ?_, fun r hr r' hr' j hj => ?_⟩
  · simp [h.rootKind r hr]
  · obtain ⟨r, hr, ht⟩ := hkind t k ht
    exact h.page t k (h.kind_of_kernelTable hr ht)
  · obtain ⟨r, hr, ht⟩ := hkind t k ht
    exact he.used r hr k t ht
  · rw [he.rootKeep r hr j hj] at hc
    exact hof r hr c 1 (.top hj hc)
  · obtain ⟨r, hr, ht⟩ := hkind t k ht
    rw [he.keep r hr k t ht] at hc hhuge
    exact hof r hr c (k + 1) (.down ht hk hc hhuge)
  · rw [he.rootKeep r hr j hj, he.rootKeep r' hr' j hj]
    exact h.same r hr r' hr' j hj

/-- Giving the page of a root back. -/
theorem KernelHalf.freeRoot (hh : HhdmOk hhdm) (h : KernelHalf hhdm kind s (z :: roots) free)
    (hnot : z ∉ roots) (hfits : Arch.x86_64.FitsPte z) :
    KernelHalf hhdm kind (pmmFree hhdm s z 1) roots (z :: free) := by
  have hz := h.rootPage z List.mem_cons_self
  have hkz := h.rootKind z List.mem_cons_self
  have hkeep : ∀ u, IsPage hhdm u → u ≠ z → ∀ j,
      (pmmFree hhdm s z 1).slot hhdm u j = s.slot hhdm u j := fun u hu hne j =>
    slot_congr fun x hx => pmmFree_one_mem hz.ne_zero fun hxz =>
      hz.apart hh hu hne.symm x (by omega) hx
  have hroot : ∀ r ∈ roots, ∀ j, (pmmFree hhdm s z 1).slot hhdm r j = s.slot hhdm r j :=
    fun r hr => hkeep r (h.rootPage r (List.mem_cons_of_mem z hr)) fun e => hnot (e ▸ hr)
  have htable : ∀ t k, kind t = some k → t ≠ z := by
    rintro t k ht rfl
    exact absurd (hkz.symm.trans ht) (by simp)
  refine ⟨h.list.free_one hh hz (h.rootUsed z List.mem_cons_self),
    List.forall_mem_cons.mpr ⟨hfits, h.fits⟩, fun r hr => h.rootPage r (List.mem_cons_of_mem z hr),
    fun r hr hmem => ?_, fun r hr => h.rootKind r (List.mem_cons_of_mem z hr), h.page,
    fun t k ht hmem => ?_, fun r hr j hj c hc => ?_, fun t k ht hk j c hc hhuge => ?_,
    fun r hr r' hr' j hj => ?_⟩
  · rcases List.mem_cons.mp hmem with rfl | hmem
    · exact hnot hr
    · exact h.rootUsed r (List.mem_cons_of_mem z hr) hmem
  · rcases List.mem_cons.mp hmem with rfl | hmem
    · exact htable t k ht rfl
    · exact h.used t k ht hmem
  · rw [hroot r hr] at hc
    exact h.top r (List.mem_cons_of_mem z hr) j hj c hc
  · rw [hkeep t (h.page t k ht) (htable t k ht)] at hc hhuge
    exact h.down t k ht hk j c hc hhuge
  · rw [hroot r hr, hroot r' hr']
    exact h.same r (List.mem_cons_of_mem z hr) r' (List.mem_cons_of_mem z hr') j hj

/-! ## Runs -/

/-- A `kmalloc` that, called by `vmm_create_context`, spares the kernel half. -/
def KmallocSpares (hhdm : Word) (s : VmmRun) (kmalloc : Pmm → Option (Word × Pmm)) : Prop :=
  ∀ z pmm ptr pmm',
    archVmmNewContextRoot .x86_64 hhdm s.vmm.pmm (archVmmGetKernelRoot .x86_64 s.vmm) =
      some (z, pmm) →
    z ≠ 0 → kmalloc pmm = some (ptr, pmm') →
    ∃ free, KernelElsewhere hhdm pmm pmm' (z :: s.roots) free

/-- One step of a run. `ok s va create` is asked of a step that walks to the entry of `va`, where
`create` says whether it makes missing tables. -/
inductive KernelStep (hhdm : Word) (ok : VmmRun → Word → Bool → Prop) : VmmRun → VmmRun → Prop
  | create {s kmalloc c v} (hk : KmallocSpares hhdm s kmalloc)
      (h : vmmCreateContext .x86_64 hhdm kmalloc s.vmm = some (c, v)) :
      KernelStep hhdm ok s ⟨v, c.toList ++ s.contexts⟩
  | switch {s ctx} (hctx : ctx ∈ s.contexts) :
      KernelStep hhdm ok s ⟨vmmSwitchContext s.vmm (some ctx), s.contexts⟩
  | map {s ctx va phys flags res v} (hctx : ctx ∈ s.contexts) (hva : vmmAddrSplit ≤ va)
      (hok : ok s va true)
      (h : vmmMapPage .x86_64 hhdm s.vmm (some ctx) va phys flags = some (res, v)) :
      KernelStep hhdm ok s ⟨v, s.contexts⟩
  | unmap {s ctx va res v} (hctx : ctx ∈ s.contexts) (hva : vmmAddrSplit ≤ va)
      (hok : ok s va false)
      (h : vmmUnmapPage .x86_64 hhdm s.vmm (some ctx) va = some (res, v)) :
      KernelStep hhdm ok s ⟨v, s.contexts⟩
  | fault {s faultAddr errorCode res v} (hva : vmmAddrSplit ≤ faultAddr)
      (hok : ok s (faultAddr &&& ~~~(pageSize - 1)) true)
      (h : tryHandleHhdmMmioFault .x86_64 hhdm s.vmm faultAddr errorCode = some (res, v)) :
      KernelStep hhdm ok s ⟨v, s.contexts⟩
  | elsewhere {s v free} (hroot : v.userRoot = s.vmm.userRoot)
      (h : KernelElsewhere hhdm s.vmm.pmm v.pmm s.roots free) :
      KernelStep hhdm ok s ⟨v, s.contexts⟩

/-- The invariant of a run. -/
structure VmmRun.Shared (hhdm : Word) (s : VmmRun) : Prop where
  half : ∃ kind free, KernelHalf hhdm kind s.vmm.pmm s.roots free
  active : s.vmm.userRoot ∈ s.roots

/-- Creating a context keeps the roots alike. -/
theorem VmmRun.Shared.create (hh : HhdmOk hhdm) {s : VmmRun} (h : s.Shared hhdm)
    {kmalloc : Pmm → Option (Word × Pmm)} (hk : KmallocSpares hhdm s kmalloc)
    {c : Option VmmContext} {v : Vmm}
    (hres : vmmCreateContext .x86_64 hhdm kmalloc s.vmm = some (c, v)) :
    VmmRun.Shared hhdm ⟨v, c.toList ++ s.contexts⟩ := by
  obtain ⟨⟨kind, free, hhalf⟩, hactive⟩ := h
  rcases hhalf.list.vmmCreateContext hh hres with
    ⟨-, rfl, rfl⟩ | ⟨z, free', pmm, ptr, pmm', rfl, hroot, -, -, hkm, hcases⟩
  · exact ⟨⟨kind, free, hhalf⟩, hactive⟩
  have hz : IsPage hhdm z := hhalf.list.page z List.mem_cons_self
  obtain ⟨free'', helse⟩ := hk z pmm ptr pmm' hroot hz.ne_zero hkm
  obtain ⟨kind', hafter⟩ := (hhalf.addRoot hh hactive hroot).congr helse
  rcases hcases with ⟨rfl, rfl⟩ | ⟨rfl, rfl⟩
  · have hnot : z ∉ s.roots := fun hmem => hhalf.rootUsed z hmem List.mem_cons_self
    exact ⟨⟨kind', _, hafter.freeRoot hh hnot (hhalf.fits z List.mem_cons_self)⟩, hactive⟩
  · exact ⟨⟨kind', free'', hafter⟩, List.mem_cons_of_mem z hactive⟩

/-- The kernel's own `kmalloc` is one that runs allow, as long as no page of the heap is a root or a
table of the kernel half. -/
theorem KernelHalf.kmallocOn (hh : HhdmOk hhdm) {s : VmmRun} {k : Allocators} {bs : List HeapBlk}
    (h : KernelHalf hhdm kind s.vmm.pmm s.roots free) (hactive : s.vmm.userRoot ∈ s.roots)
    (hk : k.Inv hhdm bs free) (hpmm : k.pmm = s.vmm.pmm)
    (hapart : ∀ p ∈ k.pages, p ∉ s.roots ∧ kind p = none) (size : Word) :
    KmallocSpares hhdm s (k.kmallocOn hhdm size) := by
  intro z pmm ptr pmm' hroot hz hcall
  obtain ⟨k', new, free', -, -, hperm, hlist', hagree⟩ :=
    hk.kmallocOn_newRoot hh (hpmm ▸ hroot) hz hcall
  obtain ⟨free₁, rfl, -⟩ := hk.newRoot hh (hpmm ▸ hroot) hz
  have hadd := h.addRoot hh hactive hroot
  have hfree : ∀ p ∈ free', p ∈ free₁ := fun p hp =>
    ((List.perm_cons z).mp hperm).mem_iff.mpr (List.mem_append_right _ hp)
  refine ⟨free', hlist', fun p hp => hadd.fits p (hfree p hp),
    fun r hr hmem => hadd.rootUsed r hr (hfree r hmem), fun r hr j _ => slot_congr ?_,
    fun r hr d t ht hmem => hadd.used t d (hadd.kind_of_kernelTable hr ht) (hfree t hmem),
    fun r hr d t ht j => slot_congr ?_⟩
  · rcases List.mem_cons.mp hr with rfl | hr'
    · exact hagree r (hadd.rootPage r hr) (fun hmem => hk.apart r hmem List.mem_cons_self)
        fun _ => rfl
    · exact hagree r (hadd.rootPage r hr) (fun hmem => (hapart r hmem).1 hr') fun hmem =>
        absurd hmem (h.rootUsed r hr')
  · have hkind := hadd.kind_of_kernelTable hr ht
    refine hagree t (hadd.page t d hkind) (fun hmem => ?_) fun hmem =>
      absurd hmem (h.used t d hkind)
    rw [(hapart t hmem).2] at hkind
    cases hkind

/-- So is one that returns a pointer and changes nothing. -/
theorem KernelHalf.kmallocSpares_const (hh : HhdmOk hhdm) {s : VmmRun}
    (h : KernelHalf hhdm kind s.vmm.pmm s.roots free) (hactive : s.vmm.userRoot ∈ s.roots)
    (p : Word) : KmallocSpares hhdm s fun pmm => some (p, pmm) := by
  rintro z pmm ptr pmm' hroot hz ⟨rfl, rfl⟩
  rcases h.list.archVmmNewContextRoot .x86_64 hh (archVmmGetKernelRoot .x86_64 s.vmm) with
    ⟨-, hfail⟩ | ⟨z', free', pmm', rfl, hroot', -⟩
  · cases hfail.symm.trans hroot
    exact absurd rfl hz
  cases hroot.symm.trans hroot'
  have hhalf := h.addRoot hh hactive hroot
  exact ⟨_, hhalf.list, hhalf.fits, hhalf.rootUsed, fun _ _ _ _ => rfl,
    fun r hr k t ht => hhalf.used t k (hhalf.kind_of_kernelTable hr ht), fun _ _ _ _ _ _ => rfl⟩

/-- Every step that meets the condition keeps the roots alike. -/
theorem KernelStep.shared (hh : HhdmOk hhdm) {s s' : VmmRun}
    (hstep : KernelStep hhdm (fun s => SharedSlot hhdm s.vmm s.roots) s s')
    (h : s.Shared hhdm) : s'.Shared hhdm := by
  obtain ⟨⟨kind, free, hhalf⟩, hactive⟩ := h
  cases hstep with
  | create hk hres => exact VmmRun.Shared.create hh ⟨⟨kind, free, hhalf⟩, hactive⟩ hk hres
  | @switch ctx hctx =>
    have hroot : ctx.rootPhys ∈ s.roots := List.mem_map_of_mem hctx
    have hne : ctx.rootPhys ≠ 0 := (hhalf.rootPage _ hroot).ne_zero
    rw [vmmSwitchContext, if_pos hne]
    exact ⟨⟨kind, free, hhalf⟩, hroot⟩
  | @map ctx va phys flags _ _ _ hva hok hres =>
    obtain ⟨res', pmm, kind', free', hmap, hhalf'⟩ :=
      hhalf.vmmMapPage hh hactive hva hok (some ctx) phys flags
    cases hmap.symm.trans hres
    exact ⟨⟨kind', free', hhalf'⟩, hactive⟩
  | @unmap ctx va _ _ _ hva hok hres =>
    obtain ⟨res', pmm, kind', free', hunmap, hhalf'⟩ :=
      hhalf.vmmUnmapPage hh hactive hva hok (some ctx)
    cases hunmap.symm.trans hres
    exact ⟨⟨kind', free', hhalf'⟩, hactive⟩
  | @fault faultAddr _ _ _ hva hok hres =>
    unfold tryHandleHhdmMmioFault at hres
    simp only at hres
    split at hres
    · cases hres
      exact ⟨⟨kind, free, hhalf⟩, hactive⟩
    split at hres
    · cases hres
      exact ⟨⟨kind, free, hhalf⟩, hactive⟩
    have hva' : vmmAddrSplit ≤ faultAddr &&& ~~~(pageSize - 1) := by
      have hsplit : vmmAddrSplit.toNat = 2 ^ 47 := rfl
      rw [BitVec.le_def] at hva ⊢
      rw [toNat_page_of_addr]
      omega
    obtain ⟨res', pmm, kind', free', hmap, hhalf'⟩ := hhalf.vmmMapPage hh hactive hva' hok
      s.vmm.vmmKernelContext ((faultAddr - hhdm) &&& ~~~(pageSize - 1))
      (vmmWritable ||| vmmCacheDisable)
    rw [hmap] at hres
    cases hres
    exact ⟨⟨kind', free', hhalf'⟩, hactive⟩
  | elsewhere hroot he =>
    obtain ⟨kind', hhalf'⟩ := hhalf.congr he
    exact ⟨⟨kind', _, hhalf'⟩, hroot ▸ hactive⟩

/-- In every state of every run from the boot root whose mapping steps fill an empty entry of the
active root only while it is the only root, any two contexts translate every upper-half address
alike. -/
theorem kernel_half_shared (hh : HhdmOk hhdm) {s₀ s : VmmRun} {boot : VmmContext}
    (hboot : s₀.contexts = [boot]) (hactive : s₀.vmm.userRoot = boot.rootPhys)
    (hhalf : KernelHalf hhdm kind s₀.vmm.pmm [boot.rootPhys] free)
    (hrun : Relation.ReflTransGen (KernelStep hhdm fun s => SharedSlot hhdm s.vmm s.roots) s₀ s) :
    ∀ c ∈ s.contexts, ∀ c' ∈ s.contexts, ∀ va, vmmAddrSplit ≤ va → UpperIndex va →
      x86Translate hhdm s.vmm.pmm c.rootPhys va = x86Translate hhdm s.vmm.pmm c'.rootPhys va := by
  have hshared : s.Shared hhdm := by
    induction hrun with
    | refl =>
      have hroots : s₀.roots = [boot.rootPhys] := by rw [VmmRun.roots, hboot]; rfl
      exact ⟨⟨kind, free, hroots ▸ hhalf⟩, by rw [hroots, hactive]; exact List.mem_cons_self⟩
    | tail _ hstep ih => exact hstep.shared hh ih
  obtain ⟨⟨kind', free', hhalf'⟩, -⟩ := hshared
  intro c hc c' hc' va _ hupper
  exact hhalf'.x86Translate_eq (List.mem_map_of_mem hc) (List.mem_map_of_mem hc') hupper

/-- `vmm_init` leaves the machine as runs start: the kernel context is the current one, and on x86_64
its root is the active one, which `arch_vmm_ensure_user_root` did not change. -/
theorem vmmInit_boot {pagingModeOk : Bool} {kmalloc : Pmm → Option (Word × Pmm)} {v v' : Vmm}
    (h : vmmInit .x86_64 hhdm pagingModeOk kmalloc v = some v') :
    ∃ boot, v'.vmmKernelContext = some boot ∧ v'.vmmCurrentContext = some boot ∧
      boot = newContext hhdm v.userRoot ∧ v'.userRoot = boot.rootPhys := by
  simp only [vmmInit, Option.bind_eq_bind, archVmmEnsureUserRoot, Option.bind_some] at h
  split at h
  · cases h
  obtain ⟨⟨ptr, pmm⟩, -, h⟩ := Option.bind_eq_some_iff.mp h
  split at h
  · cases h
  split at h
  · cases h
  · cases h
    exact ⟨_, rfl, rfl, rfl, rfl⟩

/-- A machine after boot, with four free pages and an empty root. -/
def bootMachine : Vmm :=
  { pmm :=
      { mem := ByteMem.store64 (ByteMem.store64 (ByteMem.store64 (fun _ => 0)
          (pmmPhysToVirt exampleHhdm 0x2000) (pmmPhysToVirt exampleHhdm 0x3000))
          (pmmPhysToVirt exampleHhdm 0x3000) (pmmPhysToVirt exampleHhdm 0x4000))
          (pmmPhysToVirt exampleHhdm 0x4000) (pmmPhysToVirt exampleHhdm 0x5000)
        freeListHead := pmmPhysToVirt exampleHhdm 0x2000
        maxPhysAddr := 0x6000 }
    vmmKernelContext := some (newContext exampleHhdm 0x1000)
    vmmCurrentContext := some (newContext exampleHhdm 0x1000)
    userRoot := 0x1000
    ttbr1 := 0 }

theorem bootMachine_half : KernelHalf exampleHhdm (fun _ => none) bootMachine.pmm [0x1000]
    [0x2000, 0x3000, 0x4000, 0x5000] := by
  have hempty : ∀ j : Fin 512,
      Arch.x86_64.child (bootMachine.pmm.slot exampleHhdm 0x1000 j) = none := by decide +kernel
  refine ⟨⟨⟨rfl, by decide, rfl, by decide, rfl, by decide, rfl, by decide, rfl⟩, ?_⟩, ?_, ?_,
    ?_, by simp, by simp, by simp, ?_, by simp, ?_⟩
  · simpa using ⟨⟨by decide, by decide, by decide⟩, ⟨by decide, by decide, by decide⟩,
      ⟨by decide, by decide, by decide⟩, ⟨by decide, by decide, by decide⟩⟩
  · simpa using ⟨⟨by decide, by decide⟩, ⟨by decide, by decide⟩, ⟨by decide, by decide⟩,
      ⟨by decide, by decide⟩⟩
  · simpa using (⟨by decide, by decide, by decide⟩ : IsPage exampleHhdm 0x1000)
  · simp
  · intro r hr j _ c hc
    rw [List.mem_singleton.mp hr, hempty j] at hc
    cases hc
  · intro r hr r' hr' j _
    rw [List.mem_singleton.mp hr, List.mem_singleton.mp hr']

/-- A machine after boot whose root has a table below entry 510. -/
def bootTable : Vmm :=
  { pmm := (freePmm exampleHhdm [0x3000, 0x4000, 0x5000]).setSlot exampleHhdm 0x1000 510 0x2003
    vmmKernelContext := some (newContext exampleHhdm 0x1000)
    vmmCurrentContext := some (newContext exampleHhdm 0x1000)
    userRoot := 0x1000
    ttbr1 := 0 }

theorem bootTable_half : KernelHalf exampleHhdm (fun t => if t = 0x2000 then some 1 else none)
    bootTable.pmm [0x1000] [0x3000, 0x4000, 0x5000] := by
  have hpages : ∀ p ∈ [0x3000, 0x4000, 0x5000], IsPage exampleHhdm p := by
    simpa using ⟨⟨by decide, by decide, by decide⟩, ⟨by decide, by decide, by decide⟩,
      ⟨by decide, by decide, by decide⟩⟩
  have hroot : IsPage exampleHhdm 0x1000 := ⟨by decide, by decide, by decide⟩
  have htable : IsPage exampleHhdm 0x2000 := ⟨by decide, by decide, by decide⟩
  -- before the entry is set, the root and the table are empty
  have hempty : KernelHalf exampleHhdm (fun t => if t = 0x2000 then some 1 else none)
      (freePmm exampleHhdm [0x3000, 0x4000, 0x5000]) [0x1000] [0x3000, 0x4000, 0x5000] := by
    refine ⟨freePmm_list exampleHhdm_ok hpages (by decide), ?_, ?_, by simp, by simp, ?_, ?_, ?_, ?_,
      ?_⟩
    · simpa using ⟨⟨by decide, by decide⟩, ⟨by decide, by decide⟩, by decide, by decide⟩
    · simpa using hroot
    · intro t k ht
      split at ht
      · rename_i h
        exact h ▸ htable
      · cases ht
    · intro t k ht
      split at ht
      · rename_i h
        exact h ▸ by decide
      · cases ht
    · intro r hr j _ c hc
      rw [List.mem_singleton.mp hr, freePmm_slot exampleHhdm_ok hpages hroot (by decide),
        Arch.child_zero] at hc
      cases hc
    · intro t k ht _ j c hc
      split at ht
      · rename_i h
        rw [h, freePmm_slot exampleHhdm_ok hpages htable (by decide), Arch.child_zero] at hc
        cases hc
      · cases ht
    · intro r hr r' hr' j _
      rw [List.mem_singleton.mp hr, List.mem_singleton.mp hr']
  refine hempty.setRoot exampleHhdm_ok List.mem_cons_self (fun r hr => List.mem_singleton.mp hr) ?_
  intro c hc
  have hchild : Arch.x86_64.child 0x2003 = some 0x2000 := by decide
  rw [hchild] at hc
  cases hc
  rfl

set_option synthInstance.maxSize 2000 in
/-- A context is created, and a page is mapped through the root entry that both roots have. -/
theorem bootTable_life :
    ∃ c ∈ vmmCreateContext .x86_64 exampleHhdm (fun s => some (16, s)) bootTable,
    ∃ m ∈ vmmMapPage .x86_64 exampleHhdm c.2 (some (newContext exampleHhdm 0x1000))
      0xffffff0000000000 0x100000 vmmWritable,
      c.1 = some (newContext exampleHhdm 0x3000) ∧ c.2.userRoot = 0x1000 ∧
      Arch.x86_64.child (c.2.pmm.slot exampleHhdm 0x1000
        (pageIdx (pageNumber 0xffffff0000000000) 3)) = some 0x2000 ∧
      Arch.x86_64.child (c.2.pmm.slot exampleHhdm 0x2000
        (pageIdx (pageNumber 0xffffff0000000000) 2)) = none ∧
      x86Translate exampleHhdm m.2.pmm 0x1000 0xffffff0000000000 = some (0, 0x100003) := by
  decide +kernel

/-- With two live roots a page is mapped through the active one, and the other translates it too. -/
theorem kernel_half_shared_after_create :
    ∃ v, Relation.ReflTransGen
        (KernelStep exampleHhdm fun s => SharedSlot exampleHhdm s.vmm s.roots)
        ⟨bootTable, [newContext exampleHhdm 0x1000]⟩
        ⟨v, [newContext exampleHhdm 0x3000, newContext exampleHhdm 0x1000]⟩ ∧
      x86Translate exampleHhdm v.pmm 0x1000 0xffffff0000000000 = some (0, 0x100003) ∧
      x86Translate exampleHhdm v.pmm 0x3000 0xffffff0000000000 = some (0, 0x100003) := by
  obtain ⟨⟨c, v⟩, hcreate, ⟨res, v'⟩, hmap, rfl, hactive, hslot, hbelow, htranslate⟩ :=
    bootTable_life
  have hkmalloc : KmallocSpares exampleHhdm ⟨bootTable, [newContext exampleHhdm 0x1000]⟩
      fun s => some (16, s) :=
    bootTable_half.kmallocSpares_const exampleHhdm_ok List.mem_cons_self 16
  have hshared : SharedSlot exampleHhdm v [0x3000, 0x1000] 0xffffff0000000000 true := by
    refine ⟨by decide, fun c hc => ⟨fun hlt => absurd hlt (by decide), fun c' hc' => ?_⟩,
      fun _ hnone => ?_⟩
    · rw [show v.userRoot = 0x1000 from hactive, hslot] at hc
      cases hc
      rw [hbelow] at hc'
      cases hc'
    · rw [show v.userRoot = 0x1000 from hactive, hslot] at hnone
      cases hnone
  have hrun : Relation.ReflTransGen
      (KernelStep exampleHhdm fun s => SharedSlot exampleHhdm s.vmm s.roots)
      ⟨bootTable, [newContext exampleHhdm 0x1000]⟩
      ⟨v', [newContext exampleHhdm 0x3000, newContext exampleHhdm 0x1000]⟩ :=
    .tail (.single (.create hkmalloc hcreate))
      (.map (List.mem_cons_of_mem _ List.mem_cons_self) (by decide) hshared hmap)
  refine ⟨v', hrun, htranslate, ?_⟩
  rw [← htranslate]
  exact kernel_half_shared exampleHhdm_ok rfl rfl bootTable_half hrun
    (newContext exampleHhdm 0x3000) List.mem_cons_self (newContext exampleHhdm 0x1000)
    (List.mem_cons_of_mem _ List.mem_cons_self) 0xffffff0000000000 (by decide) (by decide)

/-- Two contexts that do not agree: after a context is created, a page is mapped through an entry
of the active root that was empty when it was copied. -/
theorem kernel_half_not_shared :
    ∃ v, Relation.ReflTransGen (KernelStep exampleHhdm fun _ _ _ => True)
        ⟨bootMachine, [newContext exampleHhdm 0x1000]⟩
        ⟨v, [newContext exampleHhdm 0x2000, newContext exampleHhdm 0x1000]⟩ ∧
      vmmAddrSplit ≤ 0xffffff0000000000 ∧ UpperIndex 0xffffff0000000000 ∧
      x86Translate exampleHhdm v.pmm 0x1000 0xffffff0000000000 = some (0, 0x100003) ∧
      x86Translate exampleHhdm v.pmm 0x2000 0xffffff0000000000 = none := by
  have heval : ((vmmCreateContext .x86_64 exampleHhdm (fun s => some (16, s)) bootMachine).bind
      fun cv => (vmmMapPage .x86_64 exampleHhdm cv.2 (some (newContext exampleHhdm 0x1000))
        0xffffff0000000000 0x100000 vmmWritable).map fun rv =>
          (cv.1, x86Translate exampleHhdm rv.2.pmm 0x1000 0xffffff0000000000,
            x86Translate exampleHhdm rv.2.pmm 0x2000 0xffffff0000000000)) =
      some (some (newContext exampleHhdm 0x2000), some (0, 0x100003), none) := by decide +kernel
  obtain ⟨⟨c, v₁⟩, hcreate, hrest⟩ := Option.bind_eq_some_iff.mp heval
  obtain ⟨⟨res, v₂⟩, hmap, hpair⟩ := Option.map_eq_some_iff.mp hrest
  obtain ⟨hc, hpair⟩ := Prod.mk.inj hpair
  obtain ⟨hactive, hother⟩ := Prod.mk.inj hpair
  obtain rfl : c = some (newContext exampleHhdm 0x2000) := hc
  have hkmalloc : KmallocSpares exampleHhdm ⟨bootMachine, [newContext exampleHhdm 0x1000]⟩
      fun s => some (16, s) :=
    bootMachine_half.kmallocSpares_const exampleHhdm_ok List.mem_cons_self 16
  refine ⟨v₂, .tail (.single (.create hkmalloc hcreate)) (.map ?_ (by decide) trivial
    hmap), by decide, by decide, hactive, hother⟩
  exact List.mem_cons_of_mem _ List.mem_cons_self

end Pros
