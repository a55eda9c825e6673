import Pros.Vmm.Spaces

/-!
# Page faults

`vmm_handle_page_fault` tries two handlers: a fault in the extent of the HHDM maps the page to the
frame at its offset, for the kernel only, and a fault in the demand range of the active context maps
a fresh page. Both decline a fault on a page that is present, and both only ever fill a hole: with
the typed tables of `Spaces`, the walk adds empty tables and the last write concerns one page.
-/

namespace Pros

variable {arch : Arch} {hhdm r va phys flags : Word} {roots free free' : List Word} {v : Vmm}
variable {kind : Word → Option ℕ} {ctx : VmmContext} {s s' : Pmm} {n : ℕ}

/-! ## Translations -/

/-- The root of the tables for lower-half addresses, as the hardware has it. -/
def hwUserRoot (arch : Arch) (v : Vmm) : Word :=
  match arch with
  | .x86_64 => v.userRoot
  | .aarch64 => v.userRoot &&& 0x0000FFFFFFFFFFFE

/-- The root of the tables that translate an address. -/
def hwRoot (arch : Arch) (v : Vmm) (va : Word) : Word :=
  if vmmAddrSplit ≤ va then archVmmGetKernelRoot arch v else hwUserRoot arch v

/-- The level and the entry that map an address. -/
def vmmTranslate (arch : Arch) (hhdm : Word) (v : Vmm) (va : Word) : Option (ℕ × Word) :=
  hwWalk arch hhdm v.pmm (pageNumber va) (vmmLevels - 1) (hwRoot arch v va)

/-- The page of an address is mapped to the given frame with the given flags. -/
def MapsPage (arch : Arch) (hhdm : Word) (v : Vmm) (va frame flags : Word) : Prop :=
  ∃ pte, vmmTranslate arch hhdm v va = some (0, pte) ∧ arch.decode pte = some (frame, flags)

/-- The kernel root and the root of the active context are among `roots`, and the latter is the one
in the register. -/
structure ActiveRoots (arch : Arch) (hhdm : Word) (v : Vmm) (roots : List Word) : Prop where
  kernel : archVmmGetKernelRoot arch v ∈ roots
  current : ∀ ctx ∈ v.vmmCurrentContext, ContextIn hhdm roots ctx
  active : ∀ ctx ∈ v.vmmCurrentContext, ctx.rootPhys = hwUserRoot arch v

/-- The address lies in the part of the HHDM that shows physical memory. -/
def InHhdm (hhdm : Word) (v : Vmm) (va : Word) : Prop :=
  hhdm.toNat ≤ va.toNat ∧ va.toNat < hhdm.toNat + v.pmm.maxPhysAddr.toNat

/-- The address lies in the demand range of the active context. -/
def InDemandRange (v : Vmm) (va : Word) : Prop :=
  ∃ ctx ∈ v.vmmCurrentContext, ctx.demandPageLo ≤ va ∧ va < ctx.demandPageHi

/-! ## The two handlers -/

/-- What a handler that does not map the page leaves behind. -/
structure FaultDeclined (arch : Arch) (hhdm : Word) (s s' : Pmm) (roots free free' : List Word) :
    Prop where
  sub : ∀ p ∈ free', p ∈ free
  taken : ∀ p ∈ free, p ∈ free' ∨ Reachable arch hhdm s' roots p
  walk : ∀ r ∈ roots, ∀ m,
    hwWalk arch hhdm s' m (vmmLevels - 1) r = hwWalk arch hhdm s m (vmmLevels - 1) r

theorem FaultDeclined.refl (s : Pmm) (roots free : List Word) :
    FaultDeclined arch hhdm s s roots free free :=
  ⟨fun _ hp => hp, fun _ hp => Or.inl hp, fun _ _ _ => rfl⟩

/-- What a handler that maps the page leaves behind. -/
structure FaultHandled (arch : Arch) (hhdm : Word) (s s' : Pmm) (roots free free' : List Word)
    (r : Word) (n : ℕ) (frame flags : Word) : Prop where
  sub : ∀ p ∈ free', p ∈ free
  taken : ∀ p ∈ free, p ∈ free' ∨ Reachable arch hhdm s' roots p
  set : ∃ pte, arch.decode pte = some (frame, flags) ∧ PageSet arch hhdm s s' roots r n pte

section Handlers

variable {code : Word} (hh : HhdmOk hhdm) (hhigh : 2 ^ 64 - 2 ^ 48 ≤ hhdm.toNat)
variable (h : Spaces arch hhdm kind v.pmm roots free) (hactive : ActiveRoots arch hhdm v roots)
variable (hclear : NoBlock arch hhdm v.pmm (pageNumber va) (vmmLevels - 1) (hwRoot arch v va))

include hhigh in
/-- The frames that the HHDM shows fit an entry. -/
theorem fitsPte_of_high (hva : hhdm.toNat ≤ va.toNat) :
    arch.FitsPte ((va - hhdm) &&& ~~~(pageSize - 1)) := by
  have hsub : (va - hhdm).toNat < 2 ^ 48 := by
    have := va.isLt
    rw [BitVec.toNat_sub_of_le (BitVec.le_def.mpr hva)]
    omega
  have hdown := toNat_page_of_addr (va - hhdm)
  refine ⟨by omega, ?_⟩
  cases arch
  · exact lt_of_lt_of_le (show _ < 2 ^ 48 by omega) (by decide)
  · exact lt_of_lt_of_le (show _ < 2 ^ 48 by omega) (by decide)

omit h hclear in
/-- The root that `get_root_table` selects is the one the hardware walks. -/
theorem ActiveRoots.getRootTable (hactive : ActiveRoots arch hhdm v roots) (ctx : VmmContext)
    (va : Word)
    (hctx : vmmAddrSplit ≤ va ∨ ctx ∈ v.vmmCurrentContext) :
    hwRoot arch v va ∈ roots ∧
      getRootTable arch hhdm v ctx va = pmmPhysToVirt hhdm (hwRoot arch v va) := by
  rw [hwRoot, Pros.getRootTable]
  by_cases hva : vmmAddrSplit ≤ va
  · rw [if_pos hva, if_pos hva]
    exact ⟨hactive.kernel, rfl⟩
  · have hctx := hctx.resolve_left hva
    rw [if_neg hva, if_neg hva, ← hactive.active ctx hctx]
    exact ⟨(hactive.current ctx hctx).root, (hactive.current ctx hctx).virt⟩

/-- The handlers map the page of the address. -/
theorem hwRoot_page_of_addr : hwRoot arch v (va &&& ~~~(pageSize - 1)) = hwRoot arch v va := by
  have hiff : vmmAddrSplit ≤ va &&& ~~~(pageSize - 1) ↔ vmmAddrSplit ≤ va := by
    have hdown := toNat_page_of_addr va
    rw [BitVec.le_def, BitVec.le_def, hdown, show vmmAddrSplit.toNat = 2 ^ 47 from rfl]
    omega
  rw [hwRoot, hwRoot]
  simp only [hiff]

omit h hclear in
/-- A fault that the first handler takes up. -/
theorem tryHandleHhdmMmioFault_of_range
    (hrange : ¬ (hhdm = 0 ∨ va < hhdm ∨ va ≥ hhdm + v.pmm.maxPhysAddr))
    (hpres : ¬ arch.vmmFaultIsPresent code = true) :
    tryHandleHhdmMmioFault arch hhdm v va code =
      (vmmMapPage arch hhdm v v.vmmKernelContext (va &&& ~~~(pageSize - 1))
        ((va - hhdm) &&& ~~~(pageSize - 1)) (vmmWritable ||| vmmCacheDisable)).bind
        fun res => some (res.1 == 0, res.2) :=
  (if_neg hrange).trans (if_neg hpres)

omit h hclear in
/-- The second handler declines at once, or asks for a page. -/
theorem tryHandleDemandPageFault_cases (arch : Arch) (hhdm : Word) (v : Vmm) (va code : Word) :
    tryHandleDemandPageFault arch hhdm v va code = some (false, v) ∨
    ∃ ctx ∈ v.vmmCurrentContext, ctx.demandPageLo ≤ va ∧ va < ctx.demandPageHi ∧
      arch.vmmFaultIsPresent code = false ∧
      tryHandleDemandPageFault arch hhdm v va code =
        (newTable hhdm v.pmm).bind fun new =>
          if new.1 = 0 then some (false, { v with pmm := new.2 })
          else (vmmMapPage arch hhdm { v with pmm := new.2 } (some ctx) (va &&& ~~~(pageSize - 1))
            new.1 (vmmWritable ||| vmmUser)).bind fun res =>
              if res.1 ≠ 0 then some (false, { res.2 with pmm := pmmFree hhdm res.2.pmm new.1 1 })
              else some (true, res.2) := by
  obtain ⟨pmm, kctx, cur, userRoot, ttbr1⟩ := v
  cases cur with
  | none => exact Or.inl rfl
  | some ctx =>
    by_cases hrange : va < ctx.demandPageLo ∨ va ≥ ctx.demandPageHi
    · exact Or.inl (if_pos hrange)
    by_cases hpres : arch.vmmFaultIsPresent code = true
    · exact Or.inl ((if_neg hrange).trans (if_pos hpres))
    refine Or.inr ⟨ctx, rfl, ?_, ?_, by simpa using hpres, (if_neg hrange).trans (if_neg hpres)⟩
    · exact BitVec.not_lt.mp fun hlt => hrange (Or.inl hlt)
    · exact BitVec.not_le.mp fun hle => hrange (Or.inr hle)

omit h hclear in
/-- Without free pages the second handler declines. -/
theorem tryHandleDemandPageFault_exhausted (hh : HhdmOk hhdm) (hlist : FreeList hhdm v.pmm []) :
    tryHandleDemandPageFault arch hhdm v va code = some (false, v) := by
  rcases tryHandleDemandPageFault_cases arch hhdm v va code with hno | ⟨ctx, -, -, -, -, hcall⟩
  · exact hno
  · rcases hlist.newTable hh with ⟨-, hnew⟩ | ⟨_, _, _, hne, -⟩
    · rw [hcall, hnew]
      rfl
    · cases hne

include hh hhigh h hactive hclear in
/-- The fault in the extent of the HHDM. A handler that fails has found the free list empty, or has
no context. -/
theorem Spaces.tryHandleHhdmMmioFault (code : Word) :
    tryHandleHhdmMmioFault arch hhdm v va code = some (false, v) ∨
    (arch.vmmFaultIsPresent code = false ∧ InHhdm hhdm v va ∧ ∃ s' kind' free',
      Spaces arch hhdm kind' s' roots free' ∧
      ((tryHandleHhdmMmioFault arch hhdm v va code = some (false, { v with pmm := s' }) ∧
          free' = [] ∧ FaultDeclined arch hhdm v.pmm s' roots free free') ∨
        (tryHandleHhdmMmioFault arch hhdm v va code = some (true, { v with pmm := s' }) ∧
          FaultHandled arch hhdm v.pmm s' roots free free' (hwRoot arch v va) (pageNumber va)
            ((va - hhdm) &&& ~~~(pageSize - 1))
            (vmmPresent ||| vmmWritable ||| vmmCacheDisable)))) := by
  by_cases hrange : hhdm = 0 ∨ va < hhdm ∨ va ≥ hhdm + v.pmm.maxPhysAddr
  · exact Or.inl (if_pos hrange)
  by_cases hpres : arch.vmmFaultIsPresent code = true
  · exact Or.inl ((if_neg hrange).trans (if_pos hpres))
  rw [tryHandleHhdmMmioFault_of_range hrange hpres]
  rw [not_or, not_or] at hrange
  obtain ⟨-, hlo, hhi⟩ := hrange
  have hin : InHhdm hhdm v va := by
    rw [BitVec.lt_def] at hlo
    rw [ge_iff_le, BitVec.le_def, BitVec.toNat_add] at hhi
    have := Nat.mod_le (hhdm.toNat + v.pmm.maxPhysAddr.toNat) (2 ^ 64)
    exact ⟨by omega, by omega⟩
  obtain hkctx | ⟨kctx, hkctx⟩ := Option.eq_none_or_eq_some v.vmmKernelContext
  · rw [hkctx]
    exact Or.inl rfl
  · have hsplit : vmmAddrSplit ≤ va &&& ~~~(pageSize - 1) := by
      have hdown := toNat_page_of_addr va
      have := hin.1
      rw [BitVec.le_def, hdown, show vmmAddrSplit.toNat = 2 ^ 47 from rfl]
      omega
    obtain ⟨hr, hroot⟩ := hactive.getRootTable kctx _ (Or.inl hsplit)
    rw [hwRoot_page_of_addr] at hr hroot
    rw [← pageNumber_page_of_addr va] at hclear
    obtain ⟨res, s', kind', free', hmap, hext, htaken, hres⟩ :=
      h.vmmMapPage hh hr hroot hclear (fitsPte_of_high hhigh hin.1)
        (vmmWritable ||| vmmCacheDisable)
    rw [pageNumber_page_of_addr] at hres
    have hsub : ∀ p ∈ free', p ∈ free := fun p hp => hext.suffix.mem hp
    refine Or.inr ⟨by simpa using hpres, hin, s', kind', free', hext.spaces, ?_⟩
    rw [(congrArg (Pros.vmmMapPage arch hhdm v · _ _ _) hkctx).trans hmap, Option.bind_some]
    rcases hres with ⟨rfl, hset⟩ | ⟨rfl, hnil, hwalk⟩
    · refine Or.inr ⟨rfl, hsub, htaken, _, ?_, hset⟩
      exact Arch.decode_vmmMakePte (fitsPte_of_high hhigh hin.1) (or_vmmPresent _)
    · exact Or.inl ⟨rfl, hnil, hsub, htaken, hwalk⟩

include hh h hactive hclear in
/-- The fault in the demand range. The frame is given back when the page cannot be mapped. -/
theorem Spaces.tryHandleDemandPageFault (code : Word) :
    tryHandleDemandPageFault arch hhdm v va code = some (false, v) ∨
    (arch.vmmFaultIsPresent code = false ∧ InDemandRange v va ∧ ∃ s' kind' free',
      Spaces arch hhdm kind' s' roots free' ∧
      ((tryHandleDemandPageFault arch hhdm v va code = some (false, { v with pmm := s' }) ∧
          FaultDeclined arch hhdm v.pmm s' roots free free') ∨
        ∃ f ∈ free, f ∉ free' ∧ (∀ x, (x - pmmPhysToVirt hhdm f).toNat < 4096 → s'.mem x = 0) ∧
          tryHandleDemandPageFault arch hhdm v va code = some (true, { v with pmm := s' }) ∧
          FaultHandled arch hhdm v.pmm s' roots free free' (hwRoot arch v va) (pageNumber va) f
            (vmmPresent ||| vmmWritable ||| vmmUser))) := by
  rcases tryHandleDemandPageFault_cases arch hhdm v va code with
    hno | ⟨ctx, hcur, hlo, hhi, hpres, hcall⟩
  · exact Or.inl hno
  rw [hcall]
  have hin : InDemandRange v va := ⟨ctx, hcur, hlo, hhi⟩
  rcases h.list.newTable hh with ⟨rfl, hnew⟩ | ⟨f, free₁, s₁, rfl, hnew, hlist, hzero⟩
  · exact Or.inl (by rw [hnew]; rfl)
  have hfpage := h.list.page f List.mem_cons_self
  have hffits := h.fits f List.mem_cons_self
  have hfkind := h.kind_of_free (z := f) List.mem_cons_self
  have hfnot : f ∉ free₁ := (List.nodup_cons.mp h.list.nodup).1
  obtain ⟨hspaces₁, hslots⟩ := h.take hh hlist hzero.mem
  have hwalk₁ : ∀ r ∈ roots, ∀ m, hwWalk arch hhdm s₁ m (vmmLevels - 1) r =
      hwWalk arch hhdm v.pmm m (vmmLevels - 1) r :=
    fun r hr m => h.hwWalk_eq hslots (h.root r hr) m
  obtain ⟨hr, hroot⟩ := hactive.getRootTable ctx (va &&& ~~~(pageSize - 1))
    (Or.inr hcur)
  rw [hwRoot_page_of_addr] at hr hroot
  have hclear₁ : NoBlock arch hhdm s₁ (pageNumber (va &&& ~~~(pageSize - 1))) (vmmLevels - 1)
      (hwRoot arch v va) := by
    rw [pageNumber_page_of_addr]
    exact h.noBlock_congr hslots (h.root _ hr) hclear
  obtain ⟨res, s₂, kind₂, free₂, hmap, hext, htaken, hres⟩ :=
    hspaces₁.vmmMapPage (v := { v with pmm := s₁ }) hh hr hroot hclear₁ hffits
      (vmmWritable ||| vmmUser)
  rw [pageNumber_page_of_addr] at hres
  -- the frame is no table, neither before nor after
  have hfkind₂ : kind₂ f = none := by
    cases hk : kind₂ f with
    | none => rfl
    | some l =>
      rcases hext.new f l hk with hk' | hk'
      · rw [hfkind] at hk'
        cases hk'
      · exact absurd hk' hfnot
  have hsub : ∀ p ∈ free₂, p ∈ free₁ := fun p hp => hext.suffix.mem hp
  have hfnot₂ : f ∉ free₂ := fun hmem => hfnot (hsub f hmem)
  refine Or.inr ⟨hpres, hin, ?_⟩
  rcases hres with ⟨rfl, hset⟩ | ⟨rfl, rfl, hwalk⟩
  · refine ⟨s₂, kind₂, free₂, hext.spaces, Or.inr ⟨f, List.mem_cons_self, hfnot₂, ?_, ?_, ?_⟩⟩
    · intro x hx
      rw [hext.mem x fun t l ht hxt => ?_]
      · exact newTable_zero hnew hfpage.ne_zero x hx
      · refine hfpage.apart hh (hext.spaces.page t l ht) ?_ x hx hxt
        rintro rfl
        rw [hfkind₂] at ht
        cases ht
    · rw [hnew, Option.bind_some, if_neg hfpage.ne_zero, hmap]
      rfl
    · refine ⟨fun p hp => List.mem_cons_of_mem f (hsub p hp), ?_, _,
        Arch.decode_vmmMakePte hffits (or_vmmPresent _), hset.set, ?_⟩
      · intro p hp
        rcases List.mem_cons.mp hp with rfl | hp
        · refine Or.inr ⟨_, hr, _, Or.inr ⟨_, hset.set, ?_⟩⟩
          exact Arch.vmmPteGetPhys_vmmMakePte hffits false
        · exact htaken p hp
      · intro r' hr' m
        have hothers := hset.others r' hr' m
        rwa [hwalk₁ r' hr' m] at hothers
  · obtain ⟨hspaces₃, hslots₃⟩ := hext.spaces.giveBack hh hfpage hffits hfkind₂ hfnot₂
    refine ⟨_, kind₂, [f], hspaces₃, Or.inl ⟨?_, ?_, ?_, ?_⟩⟩
    · rw [hnew, Option.bind_some, if_neg hfpage.ne_zero, hmap]
      rfl
    · intro p hp
      rw [List.mem_singleton.mp hp]
      exact List.mem_cons_self
    · intro p hp
      rcases List.mem_cons.mp hp with rfl | hp
      · exact Or.inl (List.mem_singleton.mpr rfl)
      · refine Or.inr ?_
        obtain ⟨r', hr', n, hreach⟩ := (htaken p hp).resolve_left (List.not_mem_nil)
        refine ⟨r', hr', n, ?_⟩
        rwa [hext.spaces.hwReads_eq hslots₃ (hext.spaces.root r' hr'),
          hext.spaces.hwWalk_eq hslots₃ (hext.spaces.root r' hr')]
    · intro r' hr' m
      rw [hext.spaces.hwWalk_eq hslots₃ (hext.spaces.root r' hr'), hwalk r' hr' m, hwalk₁ r' hr' m]

end Handlers

/-! ## Both handlers -/

/-- What the handling of a fault at `va` did, from `v` with the free pages `free` to `v'` with the
free pages `free'`. -/
structure FaultOutcome (arch : Arch) (hhdm : Word) (v v' : Vmm) (roots free free' : List Word)
    (va : Word) (handled : Bool) : Prop where
  /-- Only a page that is not mapped is handled. -/
  hole : handled = true → vmmTranslate arch hhdm v va = none
  /-- It is then mapped to a fresh page of zeros for the user, in the demand range, or to the frame
  at its offset for the kernel, in the extent of the HHDM. -/
  maps : handled = true →
    (InDemandRange v va ∧ ∃ f ∈ free, f ∉ free' ∧
      (∀ x, (x - pmmPhysToVirt hhdm f).toNat < 4096 → v'.pmm.mem x = 0) ∧
      MapsPage arch hhdm v' va f (vmmPresent ||| vmmWritable ||| vmmUser)) ∨
    (InHhdm hhdm v va ∧
      MapsPage arch hhdm v' va ((va - hhdm) &&& ~~~(pageSize - 1))
        (vmmPresent ||| vmmWritable ||| vmmCacheDisable))
  /-- Below the root of the fault no other page changes. Below other roots nothing does, but for the
  same page where the roots of x86_64 share the kernel half. -/
  others : handled = true → ∀ r ∈ roots, ∀ m,
    hwWalk arch hhdm v'.pmm m (vmmLevels - 1) r = hwWalk arch hhdm v.pmm m (vmmLevels - 1) r ∨
    (hwWalk arch hhdm v'.pmm m (vmmLevels - 1) r = vmmTranslate arch hhdm v' va ∧
      m % 2 ^ 36 = pageNumber va % 2 ^ 36 ∧
      (r = hwRoot arch v va ∨
        (arch = .x86_64 ∧ 256 ≤ (pageIdx (pageNumber va) (vmmLevels - 1)).val)))
  /-- A fault that is not handled changes no translation. -/
  declined : handled = false → ∀ r ∈ roots, ∀ m,
    hwWalk arch hhdm v'.pmm m (vmmLevels - 1) r = hwWalk arch hhdm v.pmm m (vmmLevels - 1) r
  /-- Nothing else is freed. -/
  sub : ∀ p ∈ free', p ∈ free
  /-- No page is lost. -/
  taken : ∀ p ∈ free, p ∈ free' ∨ Reachable arch hhdm v'.pmm roots p
  /-- Outside of both ranges, or on a page that is present, nothing happens. -/
  outside : vmmTranslate arch hhdm v va ≠ none ∨ (¬ InDemandRange v va ∧ ¬ InHhdm hhdm v va) →
    v' = v

theorem FaultDeclined.outcome (hdecl : FaultDeclined arch hhdm v.pmm s' roots free free')
    (hsame : vmmTranslate arch hhdm v va ≠ none ∨ (¬ InDemandRange v va ∧ ¬ InHhdm hhdm v va) →
      s' = v.pmm) :
    FaultOutcome arch hhdm v { v with pmm := s' } roots free free' va false :=
  ⟨nofun, nofun, nofun, fun _ => hdecl.walk, hdecl.sub, hdecl.taken, fun hout => by rw [hsame hout]⟩

theorem FaultHandled.outcome {f flags : Word}
    (hhand : FaultHandled arch hhdm v.pmm s' roots free free' (hwRoot arch v va) (pageNumber va) f
      flags) (hhole : vmmTranslate arch hhdm v va = none)
    (hmaps : (InDemandRange v va ∧ f ∈ free ∧ f ∉ free' ∧
        (∀ x, (x - pmmPhysToVirt hhdm f).toNat < 4096 → s'.mem x = 0) ∧
        flags = vmmPresent ||| vmmWritable ||| vmmUser) ∨
      (InHhdm hhdm v va ∧ f = (va - hhdm) &&& ~~~(pageSize - 1) ∧
        flags = vmmPresent ||| vmmWritable ||| vmmCacheDisable)) :
    FaultOutcome arch hhdm v { v with pmm := s' } roots free free' va true := by
  obtain ⟨hsub, htaken, pte, hdecode, hset⟩ := hhand
  have htrans : vmmTranslate arch hhdm { v with pmm := s' } va = some (0, pte) := hset.set
  refine ⟨fun _ => hhole, fun _ => ?_, fun _ r hr m => ?_, nofun, hsub, htaken, ?_⟩
  · rcases hmaps with ⟨hin, hf, hnot, hzero, rfl⟩ | ⟨hin, rfl, rfl⟩
    · exact Or.inl ⟨hin, f, hf, hnot, hzero, pte, htrans, hdecode⟩
    · exact Or.inr ⟨hin, pte, htrans, hdecode⟩
  · rw [htrans]
    exact hset.others r hr m
  · rintro (hne | ⟨hdemand, hhhdm⟩)
    · exact absurd hhole hne
    · rcases hmaps with ⟨hin, -⟩ | ⟨hin, -⟩
      · exact absurd hin hdemand
      · exact absurd hin hhhdm

/-- A page fault only fills a hole, for every fault address whose path meets no block, and every
fault code whose verdict agrees with the tables. -/
theorem vmmHandlePageFault_fills_hole {code : Word} (hh : HhdmOk hhdm)
    (hhigh : 2 ^ 64 - 2 ^ 48 ≤ hhdm.toNat) (h : Spaces arch hhdm kind v.pmm roots free)
    (hactive : ActiveRoots arch hhdm v roots)
    (hclear : NoBlock arch hhdm v.pmm (pageNumber va) (vmmLevels - 1) (hwRoot arch v va))
    (hverdict : arch.vmmFaultIsPresent code = true ↔ vmmTranslate arch hhdm v va ≠ none) :
    ∃ handled v' kind' free', vmmHandlePageFault arch hhdm v va code = some (handled, v') ∧
      Spaces arch hhdm kind' v'.pmm roots free' ∧
      FaultOutcome arch hhdm v v' roots free free' va handled := by
  have hhole : arch.vmmFaultIsPresent code = false → vmmTranslate arch hhdm v va = none := by
    intro hpres
    by_contra hne
    rw [hverdict.mpr hne] at hpres
    cases hpres
  rcases h.tryHandleHhdmMmioFault hh hhigh hactive hclear code with
    hmmio | ⟨hpres, hin, s', kind', free', hspaces, ⟨hmmio, rfl, hdecl⟩ | ⟨hmmio, hhand⟩⟩
  · -- the first handler did nothing
    have hcall : vmmHandlePageFault arch hhdm v va code =
        tryHandleDemandPageFault arch hhdm v va code := by
      rw [vmmHandlePageFault, hmmio]
      rfl
    rw [hcall]
    rcases h.tryHandleDemandPageFault hh hactive hclear code with
      hdemand | ⟨hpres, hin, s', kind', free', hspaces,
        ⟨hdemand, hdecl⟩ | ⟨f, hf, hnot, hzero, hdemand, hhand⟩⟩
    · exact ⟨false, v, kind, free, hdemand, h, (FaultDeclined.refl v.pmm roots free).outcome
        fun _ => rfl⟩
    · refine ⟨false, _, kind', free', hdemand, hspaces, hdecl.outcome ?_⟩
      rintro (hne | ⟨hnot, -⟩)
      · exact absurd (hhole hpres) hne
      · exact absurd hin hnot
    · exact ⟨true, _, kind', free', hdemand, hspaces,
        hhand.outcome (hhole hpres) (Or.inl ⟨hin, hf, hnot, hzero, rfl⟩)⟩
  · -- it used up the free pages, so the second one has none to map
    refine ⟨false, _, kind', [], ?_, hspaces, hdecl.outcome ?_⟩
    · rw [vmmHandlePageFault, hmmio]
      exact tryHandleDemandPageFault_exhausted hh hspaces.list
    · rintro (hne | ⟨-, hnot⟩)
      · exact absurd (hhole hpres) hne
      · exact absurd hin hnot
  · refine ⟨true, _, kind', free', ?_, hspaces,
      hhand.outcome (hhole hpres) (Or.inr ⟨hin, rfl, rfl⟩)⟩
    rw [vmmHandlePageFault, hmmio]
    rfl

/-- An empty root in page 1, a demand range and four free pages. -/
def demandMachine : Vmm where
  pmm := freePmm exampleHhdm [0x2000, 0x3000, 0x4000, 0x5000]
  vmmKernelContext := some (newContext exampleHhdm 0x1000)
  vmmCurrentContext := some { newContext exampleHhdm 0x1000 with
    demandPageLo := 0x60000000
    demandPageHi := 0x70000000 }
  userRoot := 0x1000
  ttbr1 := 0

theorem demandMachine_spaces :
    Spaces .x86_64 exampleHhdm (fun t => if t = 0x1000 then some 3 else none) demandMachine.pmm
      [0x1000] [0x2000, 0x3000, 0x4000, 0x5000] := by
  refine freePmm_spaces exampleHhdm_ok ?_ (by decide) ?_ ⟨by decide, by decide, by decide⟩
    (by decide)
  · intro p hp
    fin_cases hp <;> exact ⟨by decide, by decide, by decide⟩
  · intro p hp
    fin_cases hp <;> exact ⟨by decide, by decide⟩

/-- A fault in the demand range of this machine. -/
theorem vmmHandlePageFault_fills_hole_demand :
    ∃ v' kind' free', vmmHandlePageFault .x86_64 exampleHhdm demandMachine 0x60000010 6 =
        some (true, v') ∧
      Spaces .x86_64 exampleHhdm kind' v'.pmm [0x1000] free' ∧
      FaultOutcome .x86_64 exampleHhdm demandMachine v' [0x1000] [0x2000, 0x3000, 0x4000, 0x5000]
        free' 0x60000010 true := by
  have hactive : ActiveRoots .x86_64 exampleHhdm demandMachine [0x1000] := by
    refine ⟨by decide, ?_, ?_⟩
    · intro ctx hctx
      rw [← Option.some.inj hctx]
      exact ⟨by decide, rfl⟩
    · intro ctx hctx
      rw [← Option.some.inj hctx]
      rfl
  have hclear : NoBlock .x86_64 exampleHhdm demandMachine.pmm (pageNumber 0x60000010)
      (vmmLevels - 1) (hwRoot .x86_64 demandMachine 0x60000010) := by
    intro c hc
    have hnone : Arch.x86_64.child (demandMachine.pmm.slot exampleHhdm
      (hwRoot .x86_64 demandMachine 0x60000010) (pageIdx (pageNumber 0x60000010) 3)) = none := by
      decide +kernel
    exact absurd (hnone.symm.trans hc) (by simp)
  have hverdict : Arch.x86_64.vmmFaultIsPresent 6 = true ↔
      vmmTranslate .x86_64 exampleHhdm demandMachine 0x60000010 ≠ none := by
    decide +kernel
  obtain ⟨handled, v', kind', free', hcall, hspaces, houtcome⟩ :=
    vmmHandlePageFault_fills_hole exampleHhdm_ok (by decide) demandMachine_spaces hactive hclear
      hverdict
  have hhandled : (vmmHandlePageFault .x86_64 exampleHhdm demandMachine 0x60000010 6).map Prod.fst =
      some true := by
    decide +kernel
  rw [hcall] at hhandled
  obtain rfl : handled = true := Option.some.inj hhandled
  exact ⟨v', kind', free', hcall, hspaces, houtcome⟩

end Pros
