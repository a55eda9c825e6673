import Pros.Vmm.Hardware

/-!
# Operations in either half

What `vmm_map_page` and `vmm_virt_to_phys` do to the typed tables of `Spaces`, for an address of
either half. The root is the one that `get_root_table` selects; the tables may hold blocks, as long
as none is on the path of the page.
-/

namespace Pros

variable {arch : Arch} {hhdm r t va phys flags : Word} {roots free free' : List Word} {v : Vmm}
variable {kind : Word → Option ℕ} {ctx : VmmContext} {s s' : Pmm} {n level : ℕ}

/-! ## Translations -/

/-- The root of the tables that `get_root_table` selects. -/
def vmmRoot (arch : Arch) (v : Vmm) (ctx : VmmContext) (va : Word) : Word :=
  if vmmAddrSplit ≤ va then archVmmGetKernelRoot arch v else ctx.rootPhys

/-- The level and the entry that map an address in a context. -/
def ctxTranslate (arch : Arch) (hhdm : Word) (v : Vmm) (ctx : VmmContext) (va : Word) :
    Option (ℕ × Word) :=
  hwWalk arch hhdm v.pmm (pageNumber va) (vmmLevels - 1) (vmmRoot arch v ctx va)

/-- The kernel root and the root of the context are among `roots`. -/
structure ContextRoots (arch : Arch) (hhdm : Word) (v : Vmm) (ctx : VmmContext)
    (roots : List Word) : Prop where
  kernel : archVmmGetKernelRoot arch v ∈ roots
  context : ContextIn hhdm roots ctx

theorem ContextRoots.root (h : ContextRoots arch hhdm v ctx roots) (va : Word) :
    vmmRoot arch v ctx va ∈ roots := by
  rw [vmmRoot]
  split
  · exact h.kernel
  · exact h.context.root

theorem ContextRoots.getRootTable (h : ContextRoots arch hhdm v ctx roots) (va : Word) :
    getRootTable arch hhdm v ctx va = pmmPhysToVirt hhdm (vmmRoot arch v ctx va) := by
  rw [vmmRoot, Pros.getRootTable]
  by_cases hva : vmmAddrSplit ≤ va
  · rw [if_pos hva, if_pos hva]
  · rw [if_neg hva, if_neg hva]
    exact h.context.virt

/-- The roots are kept in registers. -/
theorem vmmRoot_setPmm (arch : Arch) (v : Vmm) (s : Pmm) (ctx : VmmContext) (va : Word) :
    vmmRoot arch { v with pmm := s } ctx va = vmmRoot arch v ctx va := by
  cases arch <;> rfl

theorem ContextRoots.setPmm (h : ContextRoots arch hhdm v ctx roots) (s : Pmm) :
    ContextRoots arch hhdm { v with pmm := s } ctx roots := by
  refine ⟨?_, h.context⟩
  have heq : archVmmGetKernelRoot arch { v with pmm := s } = archVmmGetKernelRoot arch v := by
    cases arch <;> rfl
  exact heq ▸ h.kernel

/-- The split is the start of a page, so the addresses of a page have one root. -/
theorem vmmRoot_eq_of_pageNumber {va va' : Word} (h : pageNumber va' = pageNumber va) :
    vmmRoot arch v ctx va' = vmmRoot arch v ctx va := by
  have hiff : vmmAddrSplit ≤ va' ↔ vmmAddrSplit ≤ va := by
    rw [BitVec.le_def, BitVec.le_def, show vmmAddrSplit.toNat = 2 ^ 47 from rfl]
    rw [pageNumber, pageNumber] at h
    omega
  rw [vmmRoot, vmmRoot]
  simp only [hiff]

theorem ctxTranslate_eq_of_pageNumber {va va' : Word} (h : pageNumber va' = pageNumber va) :
    ctxTranslate arch hhdm v ctx va' = ctxTranslate arch hhdm v ctx va := by
  rw [ctxTranslate, ctxTranslate, vmmRoot_eq_of_pageNumber h, h]

/-- The page is a table, or the frame of a page, below one of the roots. -/
def Reachable (arch : Arch) (hhdm : Word) (s : Pmm) (roots : List Word) (p : Word) : Prop :=
  ∃ r ∈ roots, ∃ n, (∃ i, (p, i) ∈ hwReads arch hhdm s n (vmmLevels - 1) r) ∨
    ∃ pte, hwWalk arch hhdm s n (vmmLevels - 1) r = some (0, pte) ∧ arch.vmmPteGetPhys pte = p

/-- The indices of two page numbers agree at every level when the page numbers agree in the bits
that are translated. -/
theorem mod_eq_of_pageIdx {m : ℕ} (h : ∀ k ≤ vmmLevels - 1, pageIdx n k = pageIdx m k) :
    m % 2 ^ 36 = n % 2 ^ 36 := by
  have h0 := congrArg Fin.val (h 0 (by decide))
  have h1 := congrArg Fin.val (h 1 (by decide))
  have h2 := congrArg Fin.val (h 2 (by decide))
  have h3 := congrArg Fin.val (h 3 (by decide))
  simp only [pageIdx] at h0 h1 h2 h3
  omega

/-- A new page holds zeros. -/
theorem newTable_zero {z : Word} (hnew : newTable hhdm s = some (z, s')) (hz : z ≠ 0) (x : Word)
    (hx : (x - pmmPhysToVirt hhdm z).toNat < 4096) : s'.mem x = 0 := by
  cases halloc : pmmAlloc hhdm s 1 with
  | none =>
    rw [newTable, halloc] at hnew
    cases hnew
  | some res =>
    obtain ⟨p, s₁⟩ := res
    simp only [newTable, halloc, Option.bind_eq_bind, Option.bind_some] at hnew
    by_cases hp : p = 0
    · rw [if_pos hp] at hnew
      exact absurd (Prod.mk.inj (Option.some.inj hnew)).1.symm hz
    · rw [if_neg hp] at hnew
      cases hnew
      exact if_pos hx

theorem pageIdx_eq_of_mod {m k : ℕ} (h : m % 2 ^ 36 = n % 2 ^ 36) (hk : k ≤ vmmLevels - 1) :
    pageIdx m k = pageIdx n k := by
  have hk : k ≤ 3 := hk
  apply Fin.ext
  simp only [pageIdx]
  interval_cases k <;> omega

/-- Two page numbers that agree in the bits that are translated are one page. -/
theorem hwWalk_eq_of_mod {m : ℕ} (h : m % 2 ^ 36 = n % 2 ^ 36) (s : Pmm) (r : Word) :
    hwWalk arch hhdm s m (vmmLevels - 1) r = hwWalk arch hhdm s n (vmmLevels - 1) r :=
  hwWalk_congr_pageIdx (fun _ hk => pageIdx_eq_of_mod h hk) s r

/-! ## Frames -/

/-- A page that is neither free nor a table stays so when tables are added. -/
theorem SpacesExtended.frame {kind' : Word → Option ℕ} {g : Word}
    (h : SpacesExtended arch hhdm kind kind' s s' roots free free') (hfree : g ∉ free)
    (hkind : kind g = none) : g ∉ free' ∧ kind' g = none := by
  refine ⟨fun hg => hfree (h.suffix.mem hg), ?_⟩
  cases hk : kind' g with
  | none => rfl
  | some l =>
    rcases h.new g l hk with hk' | hk'
    · rw [hkind] at hk'
      cases hk'
    · exact absurd hk' hfree

/-- Its bytes stay as well. -/
theorem SpacesExtended.agreeOn {kind' : Word → Option ℕ} {g : Word} (hh : HhdmOk hhdm)
    (h : SpacesExtended arch hhdm kind kind' s s' roots free free') (hg : IsPage hhdm g)
    (hkind : kind' g = none) : ByteMem.AgreeOn s.mem s'.mem (pmmPhysToVirt hhdm g) 4096 := by
  refine fun x hx => h.mem x fun t l ht hxt => ?_
  refine hg.apart hh (h.spaces.page t l ht) ?_ x hx hxt
  rintro rfl
  rw [hkind] at ht
  cases ht

/-! ## Mapping a page -/

/-- From `s` to `s'` the entry of page number `n` below `r` became `pte`, and no other translation
changed. Below other roots the page may change with it where they share the kernel half. -/
structure PageSet (arch : Arch) (hhdm : Word) (s s' : Pmm) (roots : List Word) (r : Word) (n : ℕ)
    (pte : Word) : Prop where
  set : hwWalk arch hhdm s' n (vmmLevels - 1) r = some (0, pte)
  others : ∀ r' ∈ roots, ∀ m,
    hwWalk arch hhdm s' m (vmmLevels - 1) r' = hwWalk arch hhdm s m (vmmLevels - 1) r' ∨
    (hwWalk arch hhdm s' m (vmmLevels - 1) r' = some (0, pte) ∧ m % 2 ^ 36 = n % 2 ^ 36 ∧
      (r' = r ∨ (arch = .x86_64 ∧ 256 ≤ (pageIdx n (vmmLevels - 1)).val)))

/-- `vmm_map_page` in either half, with no block on the path: it sets the entry of the page, or is
out of memory and changes no translation. In both cases the pages it took are tables on the path. -/
theorem Spaces.vmmMapPage (hh : HhdmOk hhdm) (h : Spaces arch hhdm kind v.pmm roots free)
    (hr : r ∈ roots) (hroot : getRootTable arch hhdm v ctx va = pmmPhysToVirt hhdm r)
    (hclear : NoBlock arch hhdm v.pmm (pageNumber va) (vmmLevels - 1) r)
    (hphys : arch.FitsPte phys) (flags : Word) :
    ∃ res s' kind' free', vmmMapPage arch hhdm v (some ctx) va phys flags =
        some (res, { v with pmm := s' }) ∧
      SpacesExtended arch hhdm kind kind' v.pmm s' roots free free' ∧
      (∀ p ∈ free, p ∈ free' ∨ Reachable arch hhdm s' roots p) ∧
      ((res = 0 ∧ PageSet arch hhdm v.pmm s' roots r (pageNumber va)
          (arch.vmmMakePte phys (flags ||| vmmPresent) false)) ∨
        (res = -1 ∧ free' = [] ∧ ∀ r' ∈ roots, ∀ m,
          hwWalk arch hhdm s' m (vmmLevels - 1) r' =
            hwWalk arch hhdm v.pmm m (vmmLevels - 1) r')) := by
  obtain ⟨leaf, s₁, kind₁, free₁, hwalk, hgrown, htaken, hleaf⟩ :=
    h.walkToLeafLoop hh rfl (h.root r hr) hclear
  have hslot : walkToLeafSlot arch hhdm v ctx va true = some (leaf, s₁) := by
    rw [walkToLeafSlot, hroot, if_neg (h.page r _ (h.root r hr)).virt_ne_zero]
    exact hwalk
  rcases hleaf with ⟨rfl, rfl⟩ | ⟨c, rfl, hc, hread⟩
  · refine ⟨-1, s₁, kind₁, [], ?_, hgrown.toSpacesExtended, fun p hp => ?_,
      Or.inr ⟨rfl, rfl, fun r' hr' m => hgrown.walk r' _ (h.root r' hr') m⟩⟩
    · simp only [Pros.vmmMapPage, hslot]
      rfl
    · exact (htaken p hp).imp_right fun hread => ⟨r, hr, pageNumber va, Or.inl hread⟩
  · have hcpage := hgrown.spaces.page c _ hc
    have hset := hgrown.spaces.setLeaf_extended (i := pageIdx (pageNumber va) 0)
      (w := arch.vmmMakePte phys (flags ||| vmmPresent) false) hh hc
    have hpres : arch.vmmPteIsPresent (arch.vmmMakePte phys (flags ||| vmmPresent) false) = true :=
      Arch.vmmPteIsPresent_vmmMakePte hphys (or_vmmPresent flags) false
    refine ⟨0, s₁.setSlot hhdm c (pageIdx (pageNumber va) 0)
      (arch.vmmMakePte phys (flags ||| vmmPresent) false), kind₁, free₁, ?_,
      hgrown.toSpacesExtended.trans hset, ?_, Or.inl ⟨rfl, ?_, ?_⟩⟩
    · simp only [Pros.vmmMapPage, hslot, Option.bind_eq_bind, Option.bind_some,
        if_neg (hcpage.slotAddr_ne_zero _)]
      rfl
    · intro p hp
      refine (htaken p hp).imp_right fun hread => ⟨r, hr, pageNumber va, Or.inl ?_⟩
      rwa [hgrown.spaces.hwReads_setLeaf hh hc (hgrown.spaces.root r hr)]
    · rw [hset.spaces.hwWalk_of_read hc (hset.spaces.root r hr)
        (by rwa [hgrown.spaces.hwReads_setLeaf hh hc (hgrown.spaces.root r hr)]),
        slot_setSlot_self, if_pos hpres]
    · intro r' hr' m
      rcases hgrown.spaces.hwWalk_setLeaf hh hc hr hread hr' m with hsame | ⟨hnew, hidx, hroots⟩
      · exact Or.inl (hsame.trans (hgrown.walk r' _ (h.root r' hr') m))
      · rw [if_pos hpres] at hnew
        exact Or.inr ⟨hnew, mod_eq_of_pageIdx hidx, hroots⟩

/-! ## Looking up a page -/

/-- The walk that creates no tables, from any level down. -/
theorem Spaces.walkToLeafLoop_find (h : Spaces arch hhdm kind s roots free)
    (hva : pageNumber va = n) (ht : kind t = some level) (hclear : NoBlock arch hhdm s n level t) :
    ∃ leaf, Pros.walkToLeafLoop arch hhdm va false level s (pmmPhysToVirt hhdm t) =
        some (leaf, s) ∧
      ((leaf = 0 ∧ hwWalk arch hhdm s n level t = none) ∨
        ∃ c, leaf = slotAddr hhdm c (pageIdx n 0) ∧ kind c = some 0 ∧
          (c, pageIdx n 0) ∈ hwReads arch hhdm s n level t) := by
  induction level generalizing t with
  | zero =>
    refine ⟨slotAddr hhdm t (pageIdx n 0), ?_, Or.inr ⟨t, rfl, ht, hwReads_head _ _ _ _⟩⟩
    rw [Pros.walkToLeafLoop, vmmIndex_eq, hva]
    rfl
  | succ level ih =>
    rw [Pros.walkToLeafLoop, vmmIndex_eq, hva]
    have hslot : s.entry (pmmPhysToVirt hhdm t) (BitVec.ofNat 64 (pageIdx n (level + 1))) =
        s.slot hhdm t (pageIdx n (level + 1)) := rfl
    cases hchild : arch.child (s.slot hhdm t (pageIdx n (level + 1))) with
    | none =>
      have habsent : arch.vmmPteIsPresent (s.slot hhdm t (pageIdx n (level + 1))) = false := by
        rw [Arch.child] at hchild
        simpa using hchild
      refine ⟨0, ?_, Or.inl ⟨rfl, ?_⟩⟩
      · simp only [hslot, habsent, Bool.false_eq_true, if_false]
        rfl
      · rw [hwWalk, habsent]
        rfl
    | some c =>
      have hsub := hclear.subtable hchild
      have hc := h.down t level ht _ c hsub
      obtain ⟨hpres, hphys⟩ : arch.vmmPteIsPresent (s.slot hhdm t (pageIdx n (level + 1))) = true ∧
          arch.vmmPteGetPhys (s.slot hhdm t (pageIdx n (level + 1))) = c := by
        rw [Arch.child] at hchild
        split at hchild
        · exact ⟨by assumption, Option.some.inj hchild⟩
        · cases hchild
      obtain ⟨leaf, hloop, hleaf⟩ := ih hc (hclear c hchild).2
      refine ⟨leaf, ?_, ?_⟩
      · simp only [hslot, hpres, Bool.false_eq_true, if_false, if_true, hphys,
          Option.bind_eq_bind, Option.bind_some, if_neg (h.page c _ hc).virt_ne_zero, hloop]
      · rw [hwWalk_succ_of_subtable hsub, hwReads_succ_of_subtable hsub]
        refine hleaf.imp_right (Exists.imp fun c' hread => ?_)
        exact ⟨hread.1, hread.2.1, List.mem_cons_of_mem _ hread.2.2⟩

/-- `vmm_virt_to_phys` is the mapped frame with the offset in the page, or zero. -/
theorem Spaces.vmmVirtToPhys (h : Spaces arch hhdm kind v.pmm roots free)
    (hroots : ContextRoots arch hhdm v ctx roots) (va : Word)
    (hclear : NoBlock arch hhdm v.pmm (pageNumber va) (vmmLevels - 1) (vmmRoot arch v ctx va)) :
    Pros.vmmVirtToPhys arch hhdm v (some ctx) va =
      some ((ctxTranslate arch hhdm v ctx va).elim 0 fun e =>
        arch.vmmPteGetPhys e.2 ||| (va &&& (pageSize - 1))) := by
  have hr := hroots.root va
  obtain ⟨leaf, hwalk, hleaf⟩ := h.walkToLeafLoop_find rfl (h.root _ hr) hclear
  have hslot : walkToLeafSlot arch hhdm v ctx va false = some (leaf, v.pmm) := by
    rw [walkToLeafSlot, hroots.getRootTable, if_neg (h.page _ _ (h.root _ hr)).virt_ne_zero]
    exact hwalk
  simp only [Pros.vmmVirtToPhys, hslot, Option.bind_eq_bind, Option.bind_some, ctxTranslate]
  rcases hleaf with ⟨rfl, hnone⟩ | ⟨c, rfl, hc, hread⟩
  · rw [hnone, if_pos (Or.inl rfl)]
    rfl
  · rw [h.hwWalk_of_read hc (h.root _ hr) hread]
    have hload : v.pmm.mem.load64 (slotAddr hhdm c (pageIdx (pageNumber va) 0)) =
        v.pmm.slot hhdm c (pageIdx (pageNumber va) 0) := rfl
    rw [hload]
    by_cases hpres : arch.vmmPteIsPresent (v.pmm.slot hhdm c (pageIdx (pageNumber va) 0)) = true
    · rw [if_neg, if_pos hpres]
      · rfl
      · rintro (hzero | hno)
        · exact (h.page c _ hc).slotAddr_ne_zero _ hzero
        · rw [hpres] at hno
          cases hno
    · rw [if_pos (Or.inr (by simpa using hpres)), if_neg hpres]
      rfl

/-! ## A machine made by hand -/

/-- One empty root beside the free pages. -/
theorem freePmm_spaces (hh : HhdmOk hhdm) {ps : List Word} (hpages : ∀ p ∈ ps, IsPage hhdm p)
    (hnodup : ps.Nodup) (hfits : ∀ p ∈ ps, arch.FitsPte p) (hr : IsPage hhdm r) (hnot : r ∉ ps) :
    Spaces arch hhdm (fun t => if t = r then some 3 else none) (freePmm hhdm ps) [r] ps := by
  have hslot : ∀ i, (freePmm hhdm ps).slot hhdm r i = 0 := freePmm_slot hh hpages hr hnot
  have hroot : ∀ {t : Word} {l : ℕ}, (if t = r then some 3 else none) = some l → t = r := by
    intro t l ht
    split at ht
    · assumption
    · cases ht
  refine ⟨freePmm_list hh hpages hnodup, hfits, ?_, ?_, ?_, ?_, ?_⟩
  · intro t ht
    rw [List.mem_singleton.mp ht]
    exact if_pos rfl
  · intro t l ht
    rw [hroot ht]
    exact hr
  · intro t l ht
    rw [hroot ht]
    exact hnot
  · intro t l ht i c hc
    rw [hroot ht, hslot, Arch.subtable_zero] at hc
    cases hc
  · intro t u l ht hu i j c hc
    rw [hroot ht, hslot, Arch.subtable_zero] at hc
    cases hc

end Pros
