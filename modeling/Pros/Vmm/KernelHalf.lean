import Pros.Vmm.Hardware

/-!
# The kernel half on x86_64

On x86_64 the upper half of a context is part of its own root: `arch_vmm_new_context_root` copies
the entries 256..511 of the active root, and `vmm_map_page` on an upper-half address later goes
through whatever root `CR3` holds. Two contexts translate upper-half addresses alike as long as
their roots hold the same upper entries, since then they share every table below.

The tables below the upper entries are typed by their depth: `kind t = some k` for a table at depth
`k`. Huge pages, which the boot loader uses and the walk of `vmm.c` does not know, point to no
table.
-/

namespace Pros

/-- What the hardware finds for an address when `root` is in `CR3`. -/
def x86Translate (hhdm : Word) (s : Pmm) (root va : Word) : Option (ℕ × Word) :=
  hwWalk .x86_64 hhdm s (pageNumber va) (vmmLevels - 1) root

/-- The root index of the address lies in the upper half. With `va ≥ VMM_ADDR_SPLIT` this leaves
out only addresses that are not canonical, which no hardware translates. -/
def UpperIndex (va : Word) : Prop := 256 ≤ (pageIdx (pageNumber va) 3).val

instance (va : Word) : Decidable (UpperIndex va) := inferInstanceAs (Decidable (256 ≤ _))

/-- `t` is a table of the kernel half of `root`, at the given depth. -/
inductive KernelTable (hhdm : Word) (s : Pmm) (root : Word) : ℕ → Word → Prop
  | top {j c} (hj : 256 ≤ j.val) (h : Arch.x86_64.child (s.slot hhdm root j) = some c) :
      KernelTable hhdm s root 1 c
  | down {k t j c} (ht : KernelTable hhdm s root k t) (hk : k < 3)
      (h : Arch.x86_64.child (s.slot hhdm t j) = some c) (hhuge : Arch.x86_64.vmmPteIsBlock (s.slot hhdm t j) = false) :
      KernelTable hhdm s root (k + 1) c

/-- The roots hold the same upper entries, and the tables below are pages of one depth each. -/
structure KernelHalf (hhdm : Word) (kind : Word → Option ℕ) (s : Pmm) (roots free : List Word) :
    Prop where
  list : FreeList hhdm s free
  fits : ∀ p ∈ free, Arch.x86_64.FitsPte p
  rootPage : ∀ r ∈ roots, IsPage hhdm r
  rootUsed : ∀ r ∈ roots, r ∉ free
  rootKind : ∀ r ∈ roots, kind r = none
  page : ∀ t k, kind t = some k → IsPage hhdm t
  used : ∀ t k, kind t = some k → t ∉ free
  top : ∀ r ∈ roots, ∀ j : Fin 512, 256 ≤ j.val → ∀ c,
    Arch.x86_64.child (s.slot hhdm r j) = some c → kind c = some 1
  down : ∀ t k, kind t = some k → k < 3 → ∀ j c,
    Arch.x86_64.child (s.slot hhdm t j) = some c → Arch.x86_64.vmmPteIsBlock (s.slot hhdm t j) = false →
    kind c = some (k + 1)
  same : ∀ r ∈ roots, ∀ r' ∈ roots, ∀ j : Fin 512, 256 ≤ j.val →
    s.slot hhdm r j = s.slot hhdm r' j

variable {hhdm r t z w va : Word} {s s' : Pmm} {i : Fin 512} {k level n : ℕ}
variable {kind kind' : Word → Option ℕ} {roots free free' : List Word}

theorem KernelHalf.x86Translate_eq (h : KernelHalf hhdm kind s roots free) {r' : Word}
    (hr : r ∈ roots) (hr' : r' ∈ roots) (hva : UpperIndex va) :
    x86Translate hhdm s r va = x86Translate hhdm s r' va := by
  have hslot := h.same r hr r' hr' (pageIdx (pageNumber va) 3) hva
  rw [x86Translate, x86Translate]
  simp only [vmmLevels, hwWalk, hslot]

/-! ## Writes -/

/-- A write to a table of the kernel half. -/
theorem KernelHalf.setSlot (hh : HhdmOk hhdm) (h : KernelHalf hhdm kind s roots free)
    (ht : kind t = some k)
    (hw : k < 3 → ∀ c, Arch.x86_64.child w = some c → kind c = some (k + 1)) :
    KernelHalf hhdm kind (s.setSlot hhdm t i w) roots free := by
  have hpage := h.page t k ht
  have hroot : ∀ r ∈ roots, ∀ j, (s.setSlot hhdm t i w).slot hhdm r j = s.slot hhdm r j :=
    fun r hr j => slot_setSlot_of_ne hh hpage (h.rootPage r hr) fun e =>
      absurd ((h.rootKind r hr).symm.trans (e ▸ ht)) (by simp)
  refine ⟨?_, h.fits, h.rootPage, h.rootUsed, h.rootKind, h.page, h.used, ?_, ?_, ?_⟩
  · exact h.list.of_write hh hpage (h.used t k ht) rfl fun x hx => setSlot_mem_of_not_mem hx
  · intro r hr j hj c hc
    rw [hroot r hr] at hc
    exact h.top r hr j hj c hc
  · intro u ku hu hk j c hc hhuge
    by_cases hsame : u = t ∧ j = i
    · obtain ⟨rfl, rfl⟩ := hsame
      obtain rfl : k = ku := Option.some.inj (ht.symm.trans hu)
      rw [slot_setSlot_self] at hc
      exact hw hk c hc
    · rw [slot_setSlot_of_ne hh hpage (h.page u ku hu) fun e e' => hsame ⟨e, e'⟩] at hc hhuge
      exact h.down u ku hu hk j c hc hhuge
  · intro r hr r' hr' j hj
    rw [hroot r hr, hroot r' hr']
    exact h.same r hr r' hr' j hj

/-- A write to the upper half of the only root. -/
theorem KernelHalf.setRoot (hh : HhdmOk hhdm) (h : KernelHalf hhdm kind s roots free)
    (ht : t ∈ roots) (honly : ∀ r ∈ roots, r = t)
    (hw : ∀ c, Arch.x86_64.child w = some c → kind c = some 1) :
    KernelHalf hhdm kind (s.setSlot hhdm t i w) roots free := by
  have hpage := h.rootPage t ht
  refine ⟨?_, h.fits, h.rootPage, h.rootUsed, h.rootKind, h.page, h.used, ?_, ?_, ?_⟩
  · exact h.list.of_write hh hpage (h.rootUsed t ht) rfl fun x hx => setSlot_mem_of_not_mem hx
  · intro r hr j hj c hc
    by_cases hsame : r = t ∧ j = i
    · obtain ⟨rfl, rfl⟩ := hsame
      rw [slot_setSlot_self] at hc
      exact hw c hc
    · rw [slot_setSlot_of_ne hh hpage (h.rootPage r hr) fun e e' => hsame ⟨e, e'⟩] at hc
      exact h.top r hr j hj c hc
  · intro u ku hu hk j c hc hhuge
    have hne : u = t → j ≠ i := fun e => absurd (hu.symm.trans (e ▸ h.rootKind t ht)) (by simp)
    rw [slot_setSlot_of_ne hh hpage (h.page u ku hu) hne] at hc hhuge
    exact h.down u ku hu hk j c hc hhuge
  · intro r hr r' hr' j _
    rw [honly r hr, honly r' hr']

/-- A page from the free list becomes an empty table at any depth. -/
theorem KernelHalf.take (hh : HhdmOk hhdm) (h : KernelHalf hhdm kind s roots (z :: free))
    (hlist : FreeList hhdm s' free) (hz : Zeroed hhdm s s' z) (k : ℕ) :
    KernelHalf hhdm (Function.update kind z (some k)) s' roots free := by
  have hzpage := h.list.page z List.mem_cons_self
  have hkeep : ∀ u, IsPage hhdm u → u ∉ z :: free → ∀ j,
      s'.slot hhdm u j = s.slot hhdm u j := fun u hu hnot j =>
    slot_congr fun x hx => hz.mem x fun hxz =>
      hzpage.apart hh hu (fun e => hnot (e ▸ List.mem_cons_self)) x hxz hx
  have hroot : ∀ r ∈ roots, ∀ j, s'.slot hhdm r j = s.slot hhdm r j := fun r hr =>
    hkeep r (h.rootPage r hr) (h.rootUsed r hr)
  have hupd : ∀ u ku, kind u = some ku → Function.update kind z (some k) u = some ku := by
    intro u ku hu
    rw [Function.update_of_ne, hu]
    rintro rfl
    exact h.used u ku hu List.mem_cons_self
  refine ⟨hlist, fun p hp => h.fits p (List.mem_cons_of_mem z hp), h.rootPage,
    fun r hr hmem => h.rootUsed r hr (List.mem_cons_of_mem z hmem), fun r hr => ?_, fun t kt ht => ?_,
    fun t kt ht hmem => ?_, fun r hr j hj c hc => ?_, fun t kt ht hk j c hc hhuge => ?_,
    fun r hr r' hr' j hj => ?_⟩
  · rw [Function.update_of_ne, h.rootKind r hr]
    rintro rfl
    exact h.rootUsed r hr List.mem_cons_self
  · by_cases htz : t = z
    · exact htz ▸ hzpage
    · rw [Function.update_of_ne htz] at ht
      exact h.page t kt ht
  · by_cases htz : t = z
    · exact (List.nodup_cons.mp h.list.nodup).1 (htz ▸ hmem)
    · rw [Function.update_of_ne htz] at ht
      exact h.used t kt ht (List.mem_cons_of_mem z hmem)
  · rw [hroot r hr] at hc
    exact hupd c 1 (h.top r hr j hj c hc)
  · by_cases htz : t = z
    · subst htz
      rw [hz.slot, Arch.child_zero] at hc
      cases hc
    · rw [Function.update_of_ne htz] at ht
      rw [hkeep t (h.page t kt ht) (h.used t kt ht)] at hc hhuge
      exact hupd c (kt + 1) (h.down t kt ht hk j c hc hhuge)
  · rw [hroot r hr, hroot r' hr']
    exact h.same r hr r' hr' j hj

/-! ## The walk -/

/-- One round of the walk. What it may write to table `t` is left to the caller: `hlink` says that
the entry that it fills may point to a table of the next depth. -/
theorem KernelHalf.next (hh : HhdmOk hhdm) (h : KernelHalf hhdm kind s roots free) (create : Bool)
    (hkind : ∀ c, Arch.x86_64.child (s.slot hhdm t (pageIdx n (level + 1))) = some c →
      kind c = some k)
    (htpage : IsPage hhdm t) (htfree : t ∉ free)
    (hlink : create = true → Arch.x86_64.child (s.slot hhdm t (pageIdx n (level + 1))) = none →
      ∀ kind' s' free' w, KernelHalf hhdm kind' s' roots free' →
        (∀ u ku, kind u = some ku → kind' u = some ku) →
        (∀ c, Arch.x86_64.child w = some c → kind' c = some k) →
        KernelHalf hhdm kind' (s'.setSlot hhdm t (pageIdx n (level + 1)) w) roots free')
    (hclear : NoBlock .x86_64 hhdm s n (level + 1) t) :
    ∃ table s' kind' free',
      (if create then getOrCreateTable .x86_64 hhdm s (pmmPhysToVirt hhdm t)
          (BitVec.ofNat 64 (pageIdx n (level + 1)))
        else if Arch.x86_64.vmmPteIsPresent (s.slot hhdm t (pageIdx n (level + 1))) then
          some (pmmPhysToVirt hhdm
            (Arch.x86_64.vmmPteGetPhys (s.slot hhdm t (pageIdx n (level + 1)))), s)
        else some (0, s)) = some (table, s') ∧
      KernelHalf hhdm kind' s' roots free' ∧
      (table = 0 ∨ ∃ c, table = pmmPhysToVirt hhdm c ∧ kind' c = some k ∧
        NoBlock .x86_64 hhdm s' n level c) := by
  cases create with
  | false =>
    by_cases hpres :
        Arch.x86_64.vmmPteIsPresent (s.slot hhdm t (pageIdx n (level + 1))) = true
    · have hc : Arch.x86_64.child (s.slot hhdm t (pageIdx n (level + 1))) = some _ := if_pos hpres
      exact ⟨_, s, kind, free, if_pos hpres, h, Or.inr ⟨_, rfl, hkind _ hc, (hclear _ hc).2⟩⟩
    · exact ⟨0, s, kind, free, if_neg hpres, h, Or.inl rfl⟩
  | true =>
    rcases h.list.getOrCreateTable .x86_64 hh t (pageIdx n (level + 1)) with
      ⟨c, hc, hget⟩ | ⟨-, -, hget⟩ | ⟨z, free', s', hnone, rfl, hlist, hz, hget⟩
    · exact ⟨_, s, kind, free, hget, h, Or.inr ⟨c, rfl, hkind c hc, (hclear c hc).2⟩⟩
    · exact ⟨0, s, kind, free, hget, h, Or.inl rfl⟩
    · have htake := h.take hh hlist hz k
      have hchild : Arch.x86_64.child (Arch.x86_64.vmmMakePte z
          (vmmPresent ||| vmmWritable ||| vmmUser) true) = some z :=
        Arch.child_vmmMakePte (h.fits z List.mem_cons_self) (by decide) true
      have hself : Function.update kind z (some k) z = some k := Function.update_self z _ _
      have htz : t ≠ z := fun e => htfree (e ▸ List.mem_cons_self)
      refine ⟨_, _, _, free', hget, hlink rfl hnone _ s' free' _ htake (fun u ku hu => ?_)
        (fun c hc => ?_), Or.inr ⟨z, rfl, hself, NoBlock.of_empty (fun j => ?_) n level⟩⟩
      · rw [Function.update_of_ne, hu]
        rintro rfl
        exact h.used u ku hu List.mem_cons_self
      · cases hchild.symm.trans hc
        exact hself
      · rw [slot_setSlot_of_ne hh htpage (h.list.page z List.mem_cons_self)
          fun e => absurd e.symm htz, hz.slot]

theorem walkToLeafLoop_succ (create : Bool) (hva : pageNumber va = n) :
    walkToLeafLoop .x86_64 hhdm va create (level + 1) s (pmmPhysToVirt hhdm t) =
      (if create then getOrCreateTable .x86_64 hhdm s (pmmPhysToVirt hhdm t)
          (BitVec.ofNat 64 (pageIdx n (level + 1)))
        else if Arch.x86_64.vmmPteIsPresent (s.slot hhdm t (pageIdx n (level + 1))) then
          some (pmmPhysToVirt hhdm
            (Arch.x86_64.vmmPteGetPhys (s.slot hhdm t (pageIdx n (level + 1)))), s)
        else some (0, s)).bind fun next =>
          if next.1 = 0 then some (0, next.2)
          else walkToLeafLoop .x86_64 hhdm va create level next.2 next.1 := by
  rw [walkToLeafLoop, vmmIndex_eq, hva]
  cases create with
  | true => rfl
  | false =>
    by_cases hpres :
        Arch.x86_64.vmmPteIsPresent (s.slot hhdm t (pageIdx n (level + 1))) = true
    · simp only [Bool.false_eq_true, if_false, if_pos hpres,
        if_pos (show Arch.x86_64.vmmPteIsPresent (s.entry _ _) = true from hpres)]
      rfl
    · simp only [Bool.false_eq_true, if_false, if_neg hpres,
        if_neg (show ¬ Arch.x86_64.vmmPteIsPresent (s.entry _ _) = true from hpres)]
      rfl

/-- The walk below the root, with or without creating tables. -/
theorem KernelHalf.walkToLeafLoop (hh : HhdmOk hhdm) (h : KernelHalf hhdm kind s roots free)
    (create : Bool) (hva : pageNumber va = n) (hlevel : level < 3)
    (ht : kind t = some (3 - level)) (hclear : NoBlock .x86_64 hhdm s n level t) :
    ∃ leaf s' kind' free',
      walkToLeafLoop .x86_64 hhdm va create level s (pmmPhysToVirt hhdm t) = some (leaf, s') ∧
      KernelHalf hhdm kind' s' roots free' ∧
      (leaf = 0 ∨ ∃ c, leaf = slotAddr hhdm c (pageIdx n 0) ∧ kind' c = some 3) := by
  induction level generalizing s kind t free with
  | zero =>
    refine ⟨_, s, kind, free, rfl, h, Or.inr ⟨t, ?_, ht⟩⟩
    rw [vmmIndex_eq, hva]
    rfl
  | succ level ih =>
    have hdepth : 3 - (level + 1) + 1 = 3 - level := by omega
    obtain ⟨table, s', kind', free', hnext, h', hcases⟩ := h.next hh create (k := 3 - level)
      (fun c hc => hdepth ▸ h.down t _ ht (by omega) _ c hc ((hclear c hc).1 hlevel))
      (h.page t _ ht) (h.used t _ ht)
      (fun _ _ kind' s' free' w h' hmono hw =>
        h'.setSlot hh (hmono t _ ht) fun _ c hc => hdepth ▸ hw c hc)
      hclear
    rw [walkToLeafLoop_succ create hva, hnext, Option.bind_some]
    rcases hcases with rfl | ⟨c, rfl, hc, hclear'⟩
    · exact ⟨0, s', kind', free', rfl, h', Or.inl rfl⟩
    · simp only [if_neg (h'.page c _ hc).virt_ne_zero]
      exact ih h' (by omega) hc hclear'

/-! ## Operations -/

/-- What keeps the roots alike when the kernel maps or unmaps an upper-half page: the walk meets no
huge page, and it fills an entry of the active root only if there is no other root. -/
structure SharedSlot (hhdm : Word) (v : Vmm) (roots : List Word) (va : Word) (create : Bool) :
    Prop where
  upper : UpperIndex va
  clear : NoBlock .x86_64 hhdm v.pmm (pageNumber va) (vmmLevels - 1) v.userRoot
  slot : create = true →
    Arch.x86_64.child (v.pmm.slot hhdm v.userRoot (pageIdx (pageNumber va) 3)) = none →
    ∀ r ∈ roots, r = v.userRoot

section Page

variable {v : Vmm} {create : Bool} (hh : HhdmOk hhdm) (h : KernelHalf hhdm kind v.pmm roots free)
variable (hroot : v.userRoot ∈ roots) (hva : vmmAddrSplit ≤ va)

include hh h hroot hva

theorem KernelHalf.walkToLeafSlot (hok : SharedSlot hhdm v roots va create) (ctx : VmmContext) :
    ∃ leaf s' kind' free', walkToLeafSlot .x86_64 hhdm v ctx va create = some (leaf, s') ∧
      KernelHalf hhdm kind' s' roots free' ∧
      (leaf = 0 ∨ ∃ c, leaf = slotAddr hhdm c (pageIdx (pageNumber va) 0) ∧ kind' c = some 3) := by
  have hpage := h.rootPage _ hroot
  have htable : getRootTable .x86_64 hhdm v ctx va = pmmPhysToVirt hhdm v.userRoot := if_pos hva
  have hclear : NoBlock .x86_64 hhdm v.pmm (pageNumber va) (2 + 1) v.userRoot := hok.clear
  obtain ⟨table, s', kind', free', hnext, h', hcases⟩ := h.next hh create (k := 1)
    (fun c hc => h.top _ hroot _ hok.upper c hc) hpage (h.rootUsed _ hroot)
    (fun hcreate hnone kind' s' free' w h' _ hw =>
      h'.setRoot hh hroot (hok.slot hcreate hnone) hw)
    hclear
  rw [Pros.walkToLeafSlot, htable, if_neg hpage.virt_ne_zero]
  simp only [vmmLevels]
  rw [walkToLeafLoop_succ create rfl, hnext, Option.bind_some]
  rcases hcases with rfl | ⟨c, rfl, hc, hclear'⟩
  · exact ⟨0, s', kind', free', rfl, h', Or.inl rfl⟩
  · simp only [if_neg (h'.page c _ hc).virt_ne_zero]
    exact h'.walkToLeafLoop hh create rfl (by decide) hc hclear'

/-- `vmm_map_page` keeps the roots alike. -/
theorem KernelHalf.vmmMapPage (hok : SharedSlot hhdm v roots va true) (ctx : Option VmmContext)
    (phys flags : Word) :
    ∃ res s' kind' free', vmmMapPage .x86_64 hhdm v ctx va phys flags =
        some (res, { v with pmm := s' }) ∧ KernelHalf hhdm kind' s' roots free' := by
  cases ctx with
  | none => exact ⟨-1, v.pmm, kind, free, rfl, h⟩
  | some ctx =>
    obtain ⟨leaf, s', kind', free', hwalk, h', hcases⟩ := h.walkToLeafSlot hh hroot hva hok ctx
    unfold Pros.vmmMapPage
    simp only [hwalk, Option.bind_eq_bind, Option.bind_some]
    rcases hcases with rfl | ⟨c, rfl, hc⟩
    · exact ⟨-1, s', kind', free', rfl, h'⟩
    · simp only [if_neg ((h'.page c 3 hc).slotAddr_ne_zero _)]
      exact ⟨0, _, kind', free', rfl, h'.setSlot hh hc fun hlt => absurd hlt (by decide)⟩

/-- `vmm_unmap_page` keeps the roots alike. -/
theorem KernelHalf.vmmUnmapPage (hok : SharedSlot hhdm v roots va false)
    (ctx : Option VmmContext) :
    ∃ res s' kind' free', vmmUnmapPage .x86_64 hhdm v ctx va = some (res, { v with pmm := s' }) ∧
      KernelHalf hhdm kind' s' roots free' := by
  cases ctx with
  | none => exact ⟨-1, v.pmm, kind, free, rfl, h⟩
  | some ctx =>
    obtain ⟨leaf, s', kind', free', hwalk, h', hcases⟩ := h.walkToLeafSlot hh hroot hva hok ctx
    unfold Pros.vmmUnmapPage
    simp only [hwalk, Option.bind_eq_bind, Option.bind_some]
    split
    · exact ⟨-1, s', kind', free', rfl, h'⟩
    · rename_i hpres
      rcases hcases with rfl | ⟨c, rfl, hc⟩
      · exact absurd (Or.inl rfl) hpres
      · exact ⟨0, _, kind', free', rfl, h'.setSlot hh hc fun hlt => absurd hlt (by decide)⟩

end Page

/-! ## New roots -/

/-- The loop of `arch_vmm_new_context_root` copies the upper entries. -/
theorem slot_copyKernelEntries (hh : HhdmOk hhdm) (hz : IsPage hhdm z) (hr : IsPage hhdm r)
    (hne : r ≠ z) {j : Fin 512} (hj : 256 ≤ j.val) :
    (copyKernelEntries s (pmmPhysToVirt hhdm z) (pmmPhysToVirt hhdm r)).slot hhdm z j =
      s.slot hhdm r j := by
  -- after the rounds `ks` the entries `256 + k` with `k` in `ks` are copied
  have hloop : ∀ ks : List ℕ, (∀ k ∈ ks, k < 256) → ∀ s : Pmm,
      (ks.foldl (fun s k => s.setEntry (pmmPhysToVirt hhdm z) (BitVec.ofNat 64 (256 + k))
        (s.entry (pmmPhysToVirt hhdm r) (BitVec.ofNat 64 (256 + k)))) s).slot hhdm z j =
        if j.val - 256 ∈ ks then s.slot hhdm r j else s.slot hhdm z j := by
    intro ks
    induction ks with
    | nil => exact fun _ s => by simp
    | cons k ks ih =>
      intro hrange s
      have hk := hrange k List.mem_cons_self
      have hset : s.setEntry (pmmPhysToVirt hhdm z) (BitVec.ofNat 64 (256 + k))
          (s.entry (pmmPhysToVirt hhdm r) (BitVec.ofNat 64 (256 + k))) =
          s.setSlot hhdm z ⟨256 + k, by omega⟩ (s.slot hhdm r ⟨256 + k, by omega⟩) := rfl
      rw [List.foldl_cons, ih (fun k' hk' => hrange k' (List.mem_cons_of_mem k hk')), hset,
        slot_setSlot_of_ne hh hz hr fun e => absurd e hne]
      by_cases hjk : j.val = 256 + k
      · have hjeq : (⟨256 + k, by omega⟩ : Fin 512) = j := Fin.ext hjk.symm
        rw [hjeq, slot_setSlot_self, ite_self, if_pos]
        exact List.mem_cons.mpr (Or.inl (by omega))
      · have hmem : j.val - 256 ∈ k :: ks ↔ j.val - 256 ∈ ks := by
          rw [List.mem_cons, or_iff_right]
          omega
        rw [slot_setSlot_of_ne hh hz hz fun _ e => hjk (congrArg Fin.val e)]
        exact if_congr hmem.symm rfl rfl
  rw [copyKernelEntries, hloop _ (fun k => List.mem_range.mp), if_pos]
  exact List.mem_range.mpr (by omega)

/-- A new context takes over the upper entries of the active root. -/
theorem KernelHalf.addRoot (hh : HhdmOk hhdm) (h : KernelHalf hhdm kind s roots (z :: free))
    (hr : r ∈ roots) (hres : archVmmNewContextRoot .x86_64 hhdm s r = some (z, s')) :
    KernelHalf hhdm kind s' (z :: roots) free := by
  have hzpage := h.list.page z List.mem_cons_self
  have hrz : ∀ r ∈ roots, r ≠ z := fun r hr e => h.rootUsed r hr (e ▸ List.mem_cons_self)
  obtain ⟨hlist, hmem, hupper⟩ : FreeList hhdm s' free ∧
      (∀ x, ¬ (x - pmmPhysToVirt hhdm z).toNat < 4096 → s'.mem x = s.mem x) ∧
      ∀ j : Fin 512, 256 ≤ j.val → s'.slot hhdm z j = s.slot hhdm r j := by
    rcases h.list.newTable hh with ⟨hnil, -⟩ | ⟨z', free', s₁, heq, hsome, hlist, hz⟩
    · cases hnil
    obtain ⟨rfl, rfl⟩ := List.cons.inj heq
    simp only [archVmmNewContextRoot, hsome, Option.bind_eq_bind, Option.bind_some,
      if_neg hzpage.ne_zero] at hres
    cases hres
    obtain ⟨hhead, -, -, hout⟩ := copyKernelEntries_spec hhdm s₁ z (pmmPhysToVirt hhdm r)
    refine ⟨hlist.of_write hh hzpage (List.nodup_cons.mp h.list.nodup).1 hhead hout,
      fun x hx => (hout x hx).trans (hz.mem x hx), fun j hj => ?_⟩
    rw [slot_copyKernelEntries hh hzpage (h.rootPage r hr) (hrz r hr) hj]
    exact slot_congr fun x hx => hz.mem x fun hxz =>
      hzpage.apart hh (h.rootPage r hr) (hrz r hr).symm x hxz hx
  have hkeep : ∀ u, IsPage hhdm u → u ≠ z → ∀ j, s'.slot hhdm u j = s.slot hhdm u j :=
    fun u hu hne j => slot_congr fun x hx => hmem x fun hxz =>
      hzpage.apart hh hu hne.symm x hxz hx
  have hroot : ∀ r' ∈ z :: roots, ∀ j : Fin 512, 256 ≤ j.val →
      s'.slot hhdm r' j = s.slot hhdm r j := by
    intro r' hr' j hj
    rcases List.mem_cons.mp hr' with rfl | hr'
    · exact hupper j hj
    · rw [hkeep r' (h.rootPage r' hr') (hrz r' hr')]
      exact h.same r' hr' r hr j hj
  have hkind : kind z = none := by
    by_contra hsome
    obtain ⟨kz, hkz⟩ := Option.ne_none_iff_exists'.mp hsome
    exact h.used z kz hkz List.mem_cons_self
  refine ⟨hlist, fun p hp => h.fits p (List.mem_cons_of_mem z hp), ?_, ?_, ?_, h.page,
    fun t kt ht hmem => h.used t kt ht (List.mem_cons_of_mem z hmem), ?_, ?_, ?_⟩
  · exact List.forall_mem_cons.mpr ⟨hzpage, h.rootPage⟩
  · exact List.forall_mem_cons.mpr ⟨(List.nodup_cons.mp h.list.nodup).1,
      fun r hr hmem => h.rootUsed r hr (List.mem_cons_of_mem z hmem)⟩
  · exact List.forall_mem_cons.mpr ⟨hkind, h.rootKind⟩
  · intro r' hr' j hj c hc
    rw [hroot r' hr' j hj] at hc
    exact h.top r hr j hj c hc
  · intro t kt ht hk j c hc hhuge
    have htz : t ≠ z := by
      rintro rfl
      exact absurd (hkind.symm.trans ht) (by simp)
    rw [hkeep t (h.page t kt ht) htz] at hc hhuge
    exact h.down t kt ht hk j c hc hhuge
  · intro r₁ hr₁ r₂ hr₂ j hj
    rw [hroot r₁ hr₁ j hj, hroot r₂ hr₂ j hj]

end Pros
