import Pros.Vmm.Operations

/-!
# The walk of the hardware

`vmm.c` takes every present entry above the last level for a table. The hardware does not: an entry
of level 1 or 2 may map a block of memory. `hwWalk` is what the hardware finds for a page number
below a root, on either architecture and in either half, and `hwReads` lists the entries that it
looks at on the way.

The tables of all contexts and of the kernel are typed by their level, `kind t = some level`, roots
being of level 3. `Spaces` says that entries lead down one level at a time and that every table has
one place: on x86_64 the contexts share the tables of the kernel half, which hang at the same index
below each root, and nothing else is shared.
-/

namespace Pros

variable {arch : Arch} {hhdm : Word} {roots free : List Word}

/-- An entry of level 1 or 2 that maps a block of memory instead of pointing to a table. -/
def Arch.vmmPteIsBlock (arch : Arch) (pte : Word) : Bool :=
  match arch with
  | x86_64 => pte &&& bit 7 ≠ 0
  | aarch64 => pte &&& bit 1 = 0

/-- The walk of the hardware for page number `n`, from the given level down: the level and the entry
that maps the page. -/
def hwWalk (arch : Arch) (hhdm : Word) (s : Pmm) (n : ℕ) : ℕ → Word → Option (ℕ × Word)
  | 0, t =>
    let pte := s.slot hhdm t (pageIdx n 0)
    if arch.vmmPteIsPresent pte then some (0, pte) else none
  | level + 1, t =>
    let pte := s.slot hhdm t (pageIdx n (level + 1))
    if !arch.vmmPteIsPresent pte then none
    else if level + 1 < 3 ∧ arch.vmmPteIsBlock pte then some (level + 1, pte)
    else hwWalk arch hhdm s n level (arch.vmmPteGetPhys pte)

/-- The entries that the walk reads. -/
def hwReads (arch : Arch) (hhdm : Word) (s : Pmm) (n : ℕ) : ℕ → Word → List (Word × Fin 512)
  | 0, t => [(t, pageIdx n 0)]
  | level + 1, t =>
    let pte := s.slot hhdm t (pageIdx n (level + 1))
    (t, pageIdx n (level + 1)) ::
      if !arch.vmmPteIsPresent pte ∨ (level + 1 < 3 ∧ arch.vmmPteIsBlock pte) then []
      else hwReads arch hhdm s n level (arch.vmmPteGetPhys pte)

/-- The walk depends on the entries that it reads only. -/
theorem hwWalk_congr {s s' : Pmm} {n level : ℕ} {t : Word}
    (h : ∀ e ∈ hwReads arch hhdm s n level t, s'.slot hhdm e.1 e.2 = s.slot hhdm e.1 e.2) :
    hwWalk arch hhdm s' n level t = hwWalk arch hhdm s n level t := by
  induction level generalizing t with
  | zero =>
    have hslot : s'.slot hhdm t (pageIdx n 0) = s.slot hhdm t (pageIdx n 0) :=
      h (t, pageIdx n 0) (by simp [hwReads])
    simp only [hwWalk, hslot]
  | succ level ih =>
    have hslot : s'.slot hhdm t (pageIdx n (level + 1)) = s.slot hhdm t (pageIdx n (level + 1)) :=
      h (t, pageIdx n (level + 1)) (by simp [hwReads])
    simp only [hwWalk, hslot]
    split
    · rfl
    · rename_i hpres
      split
      · rfl
      · rename_i hblock
        refine ih fun e he => h e ?_
        rw [hwReads, if_neg (not_or.mpr ⟨hpres, hblock⟩)]
        exact List.mem_cons_of_mem _ he

/-- The table that an entry of the given level points to. -/
def Arch.subtable (arch : Arch) (level : ℕ) (pte : Word) : Option Word :=
  if arch.vmmPteIsPresent pte = false ∨ (level < 3 ∧ arch.vmmPteIsBlock pte = true) then none
  else some (arch.vmmPteGetPhys pte)

variable {s s' : Pmm} {t u c z w r : Word} {i j : Fin 512} {n m level l : ℕ}

@[simp]
theorem Arch.subtable_zero (arch : Arch) (level : ℕ) : arch.subtable level 0 = none :=
  if_pos (Or.inl Arch.vmmPteIsPresent_zero)

theorem Arch.child_of_subtable (h : arch.subtable level w = some c) : arch.child w = some c := by
  unfold Arch.subtable at h
  split at h
  · cases h
  · rename_i hpres
    rw [not_or, Bool.not_eq_false] at hpres
    rw [Arch.child, if_pos hpres.1]
    exact h

theorem Arch.not_block_of_subtable (h : arch.subtable level w = some c) (hlevel : level < 3) :
    arch.vmmPteIsBlock w = false := by
  unfold Arch.subtable at h
  split at h
  · cases h
  · rename_i hno
    rw [not_or] at hno
    exact Bool.eq_false_iff.mpr fun hblock => hno.2 ⟨hlevel, hblock⟩

/-- An entry that `get_or_create_table` makes points to a table at every level. -/
theorem Arch.subtable_vmmMakePte (hz : arch.FitsPte z) (level : ℕ) :
    arch.subtable level
      (arch.vmmMakePte z (vmmPresent ||| vmmWritable ||| vmmUser) true) = some z := by
  have hpres := Arch.vmmPteIsPresent_vmmMakePte hz
    (show (vmmPresent ||| vmmWritable ||| vmmUser) &&& vmmPresent ≠ 0 by decide) true
  have hblock : arch.vmmPteIsBlock
      (arch.vmmMakePte z (vmmPresent ||| vmmWritable ||| vmmUser) true) = false := by
    cases arch with
    | x86_64 =>
      have hbit := Arch.and_bit_vmmMakePte hz (vmmPresent ||| vmmWritable ||| vmmUser) true
        (show 7 < 64 by decide) (by decide)
      rw [Arch.getLsbD_flagBits_x86_64 _ _ (by decide)] at hbit
      simpa [Arch.vmmPteIsBlock] using hbit
    | aarch64 =>
      have hbit := (Arch.and_bit_vmmMakePte hz (vmmPresent ||| vmmWritable ||| vmmUser) true
        (show 1 < 64 by decide) (by decide)).mpr (by decide)
      simpa [Arch.vmmPteIsBlock] using hbit
  rw [Arch.subtable, hpres, hblock, Arch.vmmPteGetPhys_vmmMakePte hz]
  simp

/-! ## One step of the walk -/

theorem hwWalk_zero (s : Pmm) (n : ℕ) (t : Word) :
    hwWalk arch hhdm s n 0 t = if arch.vmmPteIsPresent (s.slot hhdm t (pageIdx n 0)) then
      some (0, s.slot hhdm t (pageIdx n 0)) else none := rfl

theorem hwWalk_succ_of_subtable
    (h : arch.subtable (level + 1) (s.slot hhdm t (pageIdx n (level + 1))) = some c) :
    hwWalk arch hhdm s n (level + 1) t = hwWalk arch hhdm s n level c := by
  unfold Arch.subtable at h
  split at h
  · cases h
  · rename_i hno
    rw [not_or, Bool.not_eq_false] at hno
    rw [hwWalk, if_neg (by simp [hno.1]), if_neg hno.2, Option.some.inj h]

theorem hwReads_succ_of_subtable
    (h : arch.subtable (level + 1) (s.slot hhdm t (pageIdx n (level + 1))) = some c) :
    hwReads arch hhdm s n (level + 1) t =
      (t, pageIdx n (level + 1)) :: hwReads arch hhdm s n level c := by
  unfold Arch.subtable at h
  split at h
  · cases h
  · rename_i hno
    rw [not_or, Bool.not_eq_false] at hno
    rw [hwReads, if_neg (by simpa [hno.1] using hno.2), Option.some.inj h]

theorem hwReads_succ_of_none
    (h : arch.subtable (level + 1) (s.slot hhdm t (pageIdx n (level + 1))) = none) :
    hwReads arch hhdm s n (level + 1) t = [(t, pageIdx n (level + 1))] := by
  unfold Arch.subtable at h
  split at h
  · rename_i hyes
    rw [hwReads, if_pos (by simpa using hyes)]
  · cases h

/-- Below an empty table nothing is mapped. -/
theorem hwWalk_of_empty (h : ∀ j, s.slot hhdm t j = 0) (n level : ℕ) :
    hwWalk arch hhdm s n level t = none := by
  cases level with
  | zero =>
    simp only [hwWalk, h, Arch.vmmPteIsPresent_zero]
    rfl
  | succ level =>
    simp only [hwWalk, h, Arch.vmmPteIsPresent_zero]
    rfl

/-- The walk looks at the indices of the page number only. -/
theorem hwWalk_congr_pageIdx (h : ∀ k ≤ level, pageIdx n k = pageIdx m k) (s : Pmm) (t : Word) :
    hwWalk arch hhdm s n level t = hwWalk arch hhdm s m level t := by
  induction level generalizing t with
  | zero => simp only [hwWalk, h 0 le_rfl]
  | succ level ih =>
    simp only [hwWalk, h (level + 1) le_rfl, ih fun k hk => h k (Nat.le_succ_of_le hk)]

theorem hwReads_head (s : Pmm) (n level : ℕ) (t : Word) :
    (t, pageIdx n level) ∈ hwReads arch hhdm s n level t := by
  cases level with
  | zero => exact List.mem_singleton.mpr rfl
  | succ level => exact List.mem_cons_self

/-! ## The invariant -/

/-- The tables of the roots: each has one level and one place, and none is free. -/
structure Spaces (arch : Arch) (hhdm : Word) (kind : Word → Option ℕ) (s : Pmm)
    (roots free : List Word) : Prop where
  list : FreeList hhdm s free
  fits : ∀ p ∈ free, arch.FitsPte p
  root : ∀ r ∈ roots, kind r = some (vmmLevels - 1)
  page : ∀ t l, kind t = some l → IsPage hhdm t
  used : ∀ t l, kind t = some l → t ∉ free
  down : ∀ t l, kind t = some (l + 1) → ∀ i c,
    arch.subtable (l + 1) (s.slot hhdm t i) = some c → kind c = some l
  once : ∀ t u l, kind t = some (l + 1) → kind u = some (l + 1) → ∀ i j c,
    arch.subtable (l + 1) (s.slot hhdm t i) = some c →
    arch.subtable (l + 1) (s.slot hhdm u j) = some c →
    i = j ∧ (t = u ∨ (arch = .x86_64 ∧ l + 1 = vmmLevels - 1 ∧ 256 ≤ i.val))

variable {kind kind' kind'' : Word → Option ℕ} {free' free'' : List Word} {s'' : Pmm}

section Congr

variable (h : Spaces arch hhdm kind s roots free)
variable (hslots : ∀ t l, kind t = some l → ∀ i, s'.slot hhdm t i = s.slot hhdm t i)

include h hslots

/-- The walk only depends on the entries of the tables. -/
theorem Spaces.hwReads_eq (hu : kind u = some level) (n : ℕ) :
    hwReads arch hhdm s' n level u = hwReads arch hhdm s n level u := by
  induction level generalizing u with
  | zero => rfl
  | succ level ih =>
    have hslot := hslots u _ hu (pageIdx n (level + 1))
    cases hsub : arch.subtable (level + 1) (s.slot hhdm u (pageIdx n (level + 1))) with
    | none => rw [hwReads_succ_of_none hsub, hwReads_succ_of_none (by rw [hslot, hsub])]
    | some c =>
      rw [hwReads_succ_of_subtable hsub, hwReads_succ_of_subtable (by rw [hslot, hsub]),
        ih (h.down u level hu _ c hsub)]

theorem Spaces.hwWalk_eq (hu : kind u = some level) (n : ℕ) :
    hwWalk arch hhdm s' n level u = hwWalk arch hhdm s n level u := by
  induction level generalizing u with
  | zero => simp only [hwWalk, hslots u _ hu]
  | succ level ih =>
    have hslot := hslots u _ hu (pageIdx n (level + 1))
    cases hsub : arch.subtable (level + 1) (s.slot hhdm u (pageIdx n (level + 1))) with
    | none =>
      refine hwWalk_congr fun e he => ?_
      rw [hwReads_succ_of_none hsub, List.mem_singleton] at he
      rw [he, hslot]
    | some c =>
      rw [hwWalk_succ_of_subtable hsub, hwWalk_succ_of_subtable (by rw [hslot, hsub]),
        ih (h.down u level hu _ c hsub)]

theorem Spaces.congr (hlist : FreeList hhdm s' free') (hfits : ∀ p ∈ free', arch.FitsPte p)
    (hused : ∀ t l, kind t = some l → t ∉ free') : Spaces arch hhdm kind s' roots free' := by
  refine ⟨hlist, hfits, h.root, h.page, hused, ?_, ?_⟩
  · intro t l ht i c hc
    rw [hslots t _ ht] at hc
    exact h.down t l ht i c hc
  · intro t u l ht hu i j c hc hc'
    rw [hslots t _ ht] at hc
    rw [hslots u _ hu] at hc'
    exact h.once t u l ht hu i j c hc hc'

end Congr

/-- A page that is no table is given its own bytes: the tables keep theirs. -/
theorem Spaces.slot_of_outside (hh : HhdmOk hhdm) (h : Spaces arch hhdm kind s roots free)
    (hz : IsPage hhdm z) (hkind : kind z = none) (s' : Pmm)
    (hmem : ∀ x, ¬ (x - pmmPhysToVirt hhdm z).toNat < 4096 → s'.mem x = s.mem x) :
    ∀ t l, kind t = some l → ∀ i, s'.slot hhdm t i = s.slot hhdm t i := by
  intro t l ht i
  refine slot_congr fun x hx => hmem x fun hxz => ?_
  refine hz.apart hh (h.page t l ht) ?_ x hxz hx
  rintro rfl
  rw [hkind] at ht
  cases ht

/-- A free page is no table. -/
theorem Spaces.kind_of_free (h : Spaces arch hhdm kind s roots free) (hz : z ∈ free) :
    kind z = none := by
  cases hk : kind z with
  | none => rfl
  | some l => exact absurd hz (h.used z l hk)

/-- The first free page is taken, and memory outside of it is as before. -/
theorem Spaces.take (hh : HhdmOk hhdm) (h : Spaces arch hhdm kind s roots (z :: free))
    (hlist : FreeList hhdm s' free)
    (hmem : ∀ x, ¬ (x - pmmPhysToVirt hhdm z).toNat < 4096 → s'.mem x = s.mem x) :
    Spaces arch hhdm kind s' roots free ∧
      ∀ t l, kind t = some l → ∀ i, s'.slot hhdm t i = s.slot hhdm t i := by
  have hslots := h.slot_of_outside hh (h.list.page z List.mem_cons_self)
    (h.kind_of_free List.mem_cons_self) _ hmem
  refine ⟨h.congr hslots hlist (fun p hp => h.fits p (List.mem_cons_of_mem z hp)) ?_, hslots⟩
  intro t l ht hmem
  exact h.used t l ht (List.mem_cons_of_mem z hmem)

/-- A page that is no table is given back. -/
theorem Spaces.giveBack (hh : HhdmOk hhdm) (h : Spaces arch hhdm kind s roots free)
    (hz : IsPage hhdm z) (hfits : arch.FitsPte z) (hkind : kind z = none) (hnot : z ∉ free) :
    Spaces arch hhdm kind (pmmFree hhdm s z 1) roots (z :: free) ∧
      ∀ t l, kind t = some l → ∀ i,
        (pmmFree hhdm s z 1).slot hhdm t i = s.slot hhdm t i := by
  have hslots := h.slot_of_outside hh hz hkind (pmmFree hhdm s z 1)
    fun x hx => pmmFree_one_mem hz.ne_zero fun hx' => hx (by omega)
  refine ⟨h.congr hslots (h.list.free_one hh hz hnot) ?_ ?_, hslots⟩
  · intro p hp
    rcases List.mem_cons.mp hp with rfl | hp
    · exact hfits
    · exact h.fits p hp
  · intro t l ht hmem
    rcases List.mem_cons.mp hmem with rfl | hmem
    · rw [hkind] at ht
      cases ht
    · exact h.used t l ht hmem

/-! ## Blocks -/

/-- No entry on the path of page number `n` below table `t` maps a block. -/
def NoBlock (arch : Arch) (hhdm : Word) (s : Pmm) (n : ℕ) : ℕ → Word → Prop
  | 0, _ => True
  | level + 1, t => ∀ c, arch.child (s.slot hhdm t (pageIdx n (level + 1))) = some c →
      (level + 1 < 3 → arch.vmmPteIsBlock (s.slot hhdm t (pageIdx n (level + 1))) = false) ∧
        NoBlock arch hhdm s n level c

theorem NoBlock.of_empty (h : ∀ j, s.slot hhdm t j = 0) (n level : ℕ) :
    NoBlock arch hhdm s n level t := by
  cases level with
  | zero => trivial
  | succ level =>
    intro c hc
    rw [h, Arch.child_zero] at hc
    cases hc

/-- Where no block is on the path, a present entry is a table. -/
theorem NoBlock.subtable (h : NoBlock arch hhdm s n (level + 1) t)
    (hc : arch.child (s.slot hhdm t (pageIdx n (level + 1))) = some c) :
    arch.subtable (level + 1) (s.slot hhdm t (pageIdx n (level + 1))) = some c := by
  have hblock := (h c hc).1
  rw [Arch.child] at hc
  split at hc
  · rename_i hpres
    rw [Arch.subtable, if_neg]
    · exact hc
    · rw [not_or, hpres]
      refine ⟨by simp, ?_⟩
      rintro ⟨hlt, hyes⟩
      rw [hblock hlt] at hyes
      cases hyes
  · cases hc

theorem Spaces.noBlock_congr (h : Spaces arch hhdm kind s roots free)
    (hslots : ∀ t l, kind t = some l → ∀ i, s'.slot hhdm t i = s.slot hhdm t i)
    (ht : kind t = some level) (hclear : NoBlock arch hhdm s n level t) :
    NoBlock arch hhdm s' n level t := by
  induction level generalizing t with
  | zero => trivial
  | succ level ih =>
    intro c hc
    rw [hslots t _ ht] at hc ⊢
    exact ⟨(hclear c hc).1, ih (h.down t level ht _ c (hclear.subtable hc)) (hclear c hc).2⟩

/-! ## Growing -/

/-- From `s` to `s'` tables were added, by the first pages of the free list, and memory changed in
tables only. -/
structure SpacesExtended (arch : Arch) (hhdm : Word) (kind kind' : Word → Option ℕ) (s s' : Pmm)
    (roots free free' : List Word) : Prop where
  spaces : Spaces arch hhdm kind' s' roots free'
  mono : ∀ t l, kind t = some l → kind' t = some l
  new : ∀ t l, kind' t = some l → kind t = some l ∨ t ∈ free
  suffix : free' <:+ free
  clear : ∀ t l, kind t = some l → ∀ n, NoBlock arch hhdm s n l t → NoBlock arch hhdm s' n l t
  mem : ∀ x, (∀ t l, kind' t = some l → ¬ (x - pmmPhysToVirt hhdm t).toNat < 4096) →
    s'.mem x = s.mem x
  maxPhysAddr : s'.maxPhysAddr = s.maxPhysAddr

/-- From `s` to `s'` only empty tables were added. -/
structure SpacesGrown (arch : Arch) (hhdm : Word) (kind kind' : Word → Option ℕ) (s s' : Pmm)
    (roots free free' : List Word) : Prop extends
    SpacesExtended arch hhdm kind kind' s s' roots free free' where
  walk : ∀ t l, kind t = some l → ∀ n, hwWalk arch hhdm s' n l t = hwWalk arch hhdm s n l t
  keep : ∀ t l, kind t = some (l + 1) → ∀ i c,
    arch.subtable (l + 1) (s.slot hhdm t i) = some c →
    arch.subtable (l + 1) (s'.slot hhdm t i) = some c

theorem SpacesExtended.refl (h : Spaces arch hhdm kind s roots free) :
    SpacesExtended arch hhdm kind kind s s roots free free :=
  ⟨h, fun _ _ ht => ht, fun _ _ ht => Or.inl ht, List.suffix_refl free, fun _ _ _ _ hn => hn,
    fun _ _ => rfl, rfl⟩

theorem SpacesExtended.trans (h : SpacesExtended arch hhdm kind kind' s s' roots free free')
    (h' : SpacesExtended arch hhdm kind' kind'' s' s'' roots free' free'') :
    SpacesExtended arch hhdm kind kind'' s s'' roots free free'' := by
  refine ⟨h'.spaces, fun t l ht => h'.mono t l (h.mono t l ht), fun t l ht => ?_,
    h'.suffix.trans h.suffix, fun t l ht n hn => ?_, fun x hx => ?_,
    h'.maxPhysAddr.trans h.maxPhysAddr⟩
  · rcases h'.new t l ht with ht | ht
    · exact h.new t l ht
    · exact Or.inr (h.suffix.mem ht)
  · exact h'.clear t l (h.mono t l ht) n (h.clear t l ht n hn)
  · rw [h'.mem x hx, h.mem x fun t l ht => hx t l (h'.mono t l ht)]

theorem SpacesGrown.refl (h : Spaces arch hhdm kind s roots free) :
    SpacesGrown arch hhdm kind kind s s roots free free :=
  ⟨SpacesExtended.refl h, fun _ _ _ _ => rfl, fun _ _ _ _ _ hc => hc⟩

theorem SpacesGrown.trans (h : SpacesGrown arch hhdm kind kind' s s' roots free free')
    (h' : SpacesGrown arch hhdm kind' kind'' s' s'' roots free' free'') :
    SpacesGrown arch hhdm kind kind'' s s'' roots free free'' :=
  ⟨h.toSpacesExtended.trans h'.toSpacesExtended,
    fun t l ht n => (h'.walk t l (h.mono t l ht) n).trans (h.walk t l ht n),
    fun t l ht i c hc => h'.keep t l (h.mono t _ ht) i c (h.keep t l ht i c hc)⟩

/-- A table is no page that is not one. -/
theorem ne_of_kind (ht : kind t = some l) (hz : kind z = none) : t ≠ z := by
  rintro rfl
  rw [hz] at ht
  cases ht

section Link

/-! An empty entry of a table is pointed to a page that is no table yet and filled with zeros. -/

variable (hh : HhdmOk hhdm) (h : Spaces arch hhdm kind s roots free)
variable (ht : kind t = some (level + 1)) (hnone : arch.child (s.slot hhdm t i) = none)
variable (hz : IsPage hhdm z) (hzkind : kind z = none) (hznot : z ∉ free)
variable (hzero : ∀ j, s.slot hhdm z j = 0) (hw : arch.subtable (level + 1) w = some z)

include hh h ht in
theorem Spaces.slot_setSlot (hu : IsPage hhdm u) (hne : u = t → j ≠ i) :
    (s.setSlot hhdm t i w).slot hhdm u j = s.slot hhdm u j :=
  slot_setSlot_of_ne hh (h.page t _ ht) hu hne

include hh h ht hz hzkind hznot hzero hw in
theorem Spaces.link :
    Spaces arch hhdm (Function.update kind z (some level)) (s.setSlot hhdm t i w) roots free := by
  have htz : t ≠ z := ne_of_kind ht hzkind
  have hupd : ∀ u l, kind u = some l → Function.update kind z (some level) u = some l := by
    intro u l hu
    rw [Function.update_of_ne, hu]
    rintro rfl
    rw [hzkind] at hu
    cases hu
  -- the new table is empty, and the entries of the others are the old ones but one
  have hempty : ∀ j l, arch.subtable l ((s.setSlot hhdm t i w).slot hhdm z j) = none := by
    intro j l
    rw [h.slot_setSlot hh ht hz fun e => absurd e.symm htz, hzero, Arch.subtable_zero]
  have hold : ∀ u l, Function.update kind z (some level) u = some (l + 1) → ∀ j c,
      arch.subtable (l + 1) ((s.setSlot hhdm t i w).slot hhdm u j) = some c →
      kind u = some (l + 1) ∧ ((u = t ∧ j = i ∧ l = level ∧ c = z) ∨
        ((u = t → j ≠ i) ∧ arch.subtable (l + 1) (s.slot hhdm u j) = some c)) := by
    intro u l hu j c hc
    by_cases huz : u = z
    · rw [huz, hempty] at hc
      cases hc
    rw [Function.update_of_ne huz] at hu
    refine ⟨hu, ?_⟩
    by_cases hsame : u = t ∧ j = i
    · obtain ⟨rfl, rfl⟩ := hsame
      obtain rfl : l = level := Nat.succ.inj (Option.some.inj (hu.symm.trans ht))
      rw [slot_setSlot_self, hw] at hc
      exact Or.inl ⟨rfl, rfl, rfl, (Option.some.inj hc).symm⟩
    · have hne : u = t → j ≠ i := fun e e' => hsame ⟨e, e'⟩
      rw [h.slot_setSlot hh ht (h.page u _ hu) hne] at hc
      exact Or.inr ⟨hne, hc⟩
  -- no entry pointed to the new table
  have hfresh : ∀ u l j, kind u = some (l + 1) →
      arch.subtable (l + 1) (s.slot hhdm u j) ≠ some z := by
    intro u l j hu hc
    have := h.down u l hu j z hc
    rw [hzkind] at this
    cases this
  refine ⟨?_, h.fits, fun r hr => hupd r _ (h.root r hr), ?_, ?_, ?_, ?_⟩
  · exact h.list.of_write hh (h.page t _ ht) (h.used t _ ht) rfl
      fun x hx => setSlot_mem_of_not_mem hx
  · intro u l hu
    by_cases huz : u = z
    · exact huz ▸ hz
    · rw [Function.update_of_ne huz] at hu
      exact h.page u l hu
  · intro u l hu
    by_cases huz : u = z
    · exact huz ▸ hznot
    · rw [Function.update_of_ne huz] at hu
      exact h.used u l hu
  · intro u l hu j c hc
    obtain ⟨hu, ⟨-, -, hl, hcz⟩ | ⟨-, hc⟩⟩ := hold u l hu j c hc
    · rw [hcz, hl, Function.update_self]
    · exact hupd c l (h.down u l hu j c hc)
  · intro u u' l hu hu' j j' c hc hc'
    obtain ⟨hu, hcases⟩ := hold u l hu j c hc
    obtain ⟨hu', hcases'⟩ := hold u' l hu' j' c hc'
    rcases hcases with ⟨hut, hji, -, hcz⟩ | ⟨-, hc⟩
    · rcases hcases' with ⟨hut', hji', -, -⟩ | ⟨-, hc'⟩
      · exact ⟨hji.trans hji'.symm, Or.inl (hut.trans hut'.symm)⟩
      · exact absurd (hcz ▸ hc') (hfresh u' l j' hu')
    · rcases hcases' with ⟨-, -, -, hcz⟩ | ⟨-, hc'⟩
      · exact absurd (hcz ▸ hc) (hfresh u l j hu)
      · exact h.once u u' l hu hu' j j' c hc hc'

include hh h ht hnone hz hzkind hzero hw in
/-- The walks that ended at the empty entry now end in the new table. -/
theorem Spaces.link_walk (hu : kind u = some l) (n : ℕ) :
    hwWalk arch hhdm (s.setSlot hhdm t i w) n l u = hwWalk arch hhdm s n l u := by
  have htz : t ≠ z := ne_of_kind ht hzkind
  induction l generalizing u with
  | zero =>
    have hne : u = t → pageIdx n 0 ≠ i := by
      rintro rfl
      rw [ht] at hu
      cases hu
    have hslot := h.slot_setSlot (w := w) hh ht (h.page u _ hu) hne
    rw [hwWalk_zero, hwWalk_zero, hslot]
  | succ l ih =>
    by_cases hsame : u = t ∧ pageIdx n (l + 1) = i
    · obtain ⟨rfl, rfl⟩ := hsame
      obtain rfl : l = level := Nat.succ.inj (Option.some.inj (hu.symm.trans ht))
      have hnew : arch.subtable (l + 1)
          ((s.setSlot hhdm u (pageIdx n (l + 1)) w).slot hhdm u (pageIdx n (l + 1))) = some z := by
        rw [slot_setSlot_self, hw]
      have habsent : arch.vmmPteIsPresent (s.slot hhdm u (pageIdx n (l + 1))) = false := by
        rw [Arch.child] at hnone
        simpa using hnone
      rw [hwWalk_succ_of_subtable hnew, hwWalk_of_empty, hwWalk, habsent]
      · rfl
      · intro j
        rw [h.slot_setSlot hh ht hz fun e => absurd e.symm htz, hzero]
    · have hne : u = t → pageIdx n (l + 1) ≠ i := fun e e' => hsame ⟨e, e'⟩
      have hslot := h.slot_setSlot (w := w) hh ht (h.page u _ hu) hne
      cases hsub : arch.subtable (l + 1) (s.slot hhdm u (pageIdx n (l + 1))) with
      | none =>
        refine hwWalk_congr fun e he => ?_
        rw [hwReads_succ_of_none hsub, List.mem_singleton] at he
        rw [he, hslot]
      | some c =>
        rw [hwWalk_succ_of_subtable hsub, hwWalk_succ_of_subtable (c := c) (by rw [hslot, hsub]),
          ih (h.down u l hu _ c hsub)]

include hh h ht hnone in
theorem Spaces.link_keep (hu : kind u = some (l + 1)) {j : Fin 512}
    (hc : arch.subtable (l + 1) (s.slot hhdm u j) = some c) :
    arch.subtable (l + 1) ((s.setSlot hhdm t i w).slot hhdm u j) = some c := by
  have hne : u = t → j ≠ i := by
    rintro rfl rfl
    rw [Arch.child_of_subtable hc] at hnone
    cases hnone
  rw [h.slot_setSlot hh ht (h.page u _ hu) hne, hc]

include hh h ht hz hzkind hzero hw in
theorem Spaces.link_clear (hu : kind u = some l) (hclear : NoBlock arch hhdm s n l u) :
    NoBlock arch hhdm (s.setSlot hhdm t i w) n l u := by
  have htz : t ≠ z := ne_of_kind ht hzkind
  induction l generalizing u with
  | zero => trivial
  | succ l ih =>
    intro c hc
    by_cases hsame : u = t ∧ pageIdx n (l + 1) = i
    · -- the new entry points to an empty table
      obtain ⟨rfl, rfl⟩ := hsame
      obtain rfl : l = level := Nat.succ.inj (Option.some.inj (hu.symm.trans ht))
      rw [slot_setSlot_self] at hc ⊢
      rw [Arch.child_of_subtable hw] at hc
      cases hc
      refine ⟨fun hlt => Arch.not_block_of_subtable hw hlt, NoBlock.of_empty (fun j => ?_) n l⟩
      rw [h.slot_setSlot hh ht hz fun e => absurd e.symm htz, hzero]
    · have hne : u = t → pageIdx n (l + 1) ≠ i := fun e e' => hsame ⟨e, e'⟩
      rw [h.slot_setSlot hh ht (h.page u _ hu) hne] at hc ⊢
      exact ⟨(hclear c hc).1, ih (h.down u l hu _ c (hclear.subtable hc)) (hclear c hc).2⟩

end Link

/-! ## The walk -/

/-- One round of the walk finds a table, makes one, or is out of memory. -/
theorem Spaces.getOrCreateTable (hh : HhdmOk hhdm) (h : Spaces arch hhdm kind s roots free)
    (ht : kind t = some (level + 1)) (hclear : NoBlock arch hhdm s n (level + 1) t) :
    (getOrCreateTable arch hhdm s (pmmPhysToVirt hhdm t)
        (BitVec.ofNat 64 (pageIdx n (level + 1))) = some (0, s) ∧ free = []) ∨
    ∃ c s' kind' free', getOrCreateTable arch hhdm s (pmmPhysToVirt hhdm t)
        (BitVec.ofNat 64 (pageIdx n (level + 1))) = some (pmmPhysToVirt hhdm c, s') ∧
      SpacesGrown arch hhdm kind kind' s s' roots free free' ∧ kind' c = some level ∧
      arch.subtable (level + 1) (s'.slot hhdm t (pageIdx n (level + 1))) = some c ∧
      NoBlock arch hhdm s' n level c ∧ (∀ p ∈ free, p ∈ free' ∨ p = c) := by
  rcases h.list.getOrCreateTable arch hh t (pageIdx n (level + 1)) with
    ⟨c, hc, hres⟩ | ⟨-, hnil, hres⟩ | ⟨z, free', s', hnone, rfl, hlist, hz, hres⟩
  · right
    have hsub := hclear.subtable hc
    exact ⟨c, s, kind, free, hres, SpacesGrown.refl h, h.down t level ht _ c hsub, hsub,
      (hclear c hc).2, fun p hp => Or.inl hp⟩
  · exact Or.inl ⟨hres, hnil⟩
  · right
    have hzpage := h.list.page z List.mem_cons_self
    have hzfits := h.fits z List.mem_cons_self
    have hzkind := h.kind_of_free (z := z) List.mem_cons_self
    obtain ⟨htaken, hslots⟩ := h.take hh hlist hz.mem
    have hznot : z ∉ free' := (List.nodup_cons.mp h.list.nodup).1
    have hnone' : arch.child (s'.slot hhdm t (pageIdx n (level + 1))) = none := by
      rw [hslots t _ ht, hnone]
    have hw := Arch.subtable_vmmMakePte hzfits (level + 1)
    have hlink := htaken.link hh ht (i := pageIdx n (level + 1)) hzpage hzkind hznot hz.slot hw
    refine ⟨z, _, _, free', hres, ⟨⟨hlink, ?_, ?_, List.suffix_cons z free', ?_, ?_,
      hz.maxPhysAddr⟩, ?_, ?_⟩, ?_, ?_, ?_, ?_⟩
    · intro u l hu
      rw [Function.update_of_ne, hu]
      rintro rfl
      rw [hzkind] at hu
      cases hu
    · intro u l hu
      by_cases huz : u = z
      · exact Or.inr (huz ▸ List.mem_cons_self)
      · rw [Function.update_of_ne huz] at hu
        exact Or.inl hu
    · intro u l hu m hm
      exact htaken.link_clear hh ht hzpage hzkind hz.slot hw hu (h.noBlock_congr hslots hu hm)
    · intro x hx
      have hxt : ¬ (x - pmmPhysToVirt hhdm t).toNat < 4096 := by
        refine hx t (level + 1) ?_
        rw [Function.update_of_ne, ht]
        rintro rfl
        rw [hzkind] at ht
        cases ht
      have hxz : ¬ (x - pmmPhysToVirt hhdm z).toNat < 4096 := hx z level (Function.update_self ..)
      rw [setSlot_mem_of_not_mem hxt, hz.mem x hxz]
    · intro u l hu m
      rw [htaken.link_walk hh ht hnone' hzpage hzkind hz.slot hw hu, h.hwWalk_eq hslots hu]
    · intro u l hu j c hc
      rw [← hslots u _ hu] at hc
      exact htaken.link_keep hh ht hnone' hu hc
    · exact Function.update_self ..
    · rw [slot_setSlot_self, hw]
    · refine NoBlock.of_empty (fun j => ?_) n level
      rw [htaken.slot_setSlot hh ht hzpage fun e => absurd e.symm (ne_of_kind ht hzkind),
        hz.slot]
    · intro p hp
      exact (List.mem_cons.mp hp).symm

/-- The walk that creates missing tables, from any level down: it reaches the entry of the page, or
the free list is exhausted. What it takes from the free list is on the path. -/
theorem Spaces.walkToLeafLoop (hh : HhdmOk hhdm) {va : Word} (hva : pageNumber va = n)
    (h : Spaces arch hhdm kind s roots free) (ht : kind t = some level)
    (hclear : NoBlock arch hhdm s n level t) :
    ∃ leaf s' kind' free',
      walkToLeafLoop arch hhdm va true level s (pmmPhysToVirt hhdm t) = some (leaf, s') ∧
      SpacesGrown arch hhdm kind kind' s s' roots free free' ∧
      (∀ p ∈ free, p ∈ free' ∨ ∃ i, (p, i) ∈ hwReads arch hhdm s' n level t) ∧
      ((leaf = 0 ∧ free' = []) ∨ ∃ c, leaf = slotAddr hhdm c (pageIdx n 0) ∧ kind' c = some 0 ∧
        (c, pageIdx n 0) ∈ hwReads arch hhdm s' n level t) := by
  induction level generalizing s t kind free with
  | zero =>
    refine ⟨slotAddr hhdm t (pageIdx n 0), s, kind, free, ?_, SpacesGrown.refl h,
      fun p hp => Or.inl hp, Or.inr ⟨t, rfl, ht, hwReads_head _ _ _ _⟩⟩
    rw [Pros.walkToLeafLoop, vmmIndex_eq, hva]
    rfl
  | succ level ih =>
    rw [Pros.walkToLeafLoop, vmmIndex_eq, hva]
    rcases h.getOrCreateTable hh ht hclear with
      ⟨hres, hnil⟩ | ⟨c, s₁, kind₁, free₁, hres, hgrown, hc, hsub, hclear₁, htaken⟩
    · refine ⟨0, s, kind, free, ?_, SpacesGrown.refl h, fun p hp => Or.inl hp, Or.inl ⟨rfl, hnil⟩⟩
      simp only [if_true, hres]
      rfl
    · obtain ⟨leaf, s₂, kind₂, free₂, hloop, hgrown₂, htaken₂, hleaf⟩ :=
        ih hgrown.spaces hc hclear₁
      -- the entry of this round is still there after the others
      have hsub₂ := hgrown₂.keep t level (hgrown.mono t _ ht) _ c hsub
      have hreads : ∀ e ∈ hwReads arch hhdm s₂ n level c,
          e ∈ hwReads arch hhdm s₂ n (level + 1) t := by
        rw [hwReads_succ_of_subtable hsub₂]
        exact fun e he => List.mem_cons_of_mem _ he
      refine ⟨leaf, s₂, kind₂, free₂, ?_, hgrown.trans hgrown₂, ?_, ?_⟩
      · simp only [if_true, hres, Option.bind_eq_bind, Option.bind_some,
          if_neg (hgrown.spaces.page c _ hc).virt_ne_zero, hloop]
      · intro p hp
        rcases htaken p hp with hp | rfl
        · exact (htaken₂ p hp).imp_right (Exists.imp fun i => hreads _)
        · exact Or.inr ⟨_, hreads _ (hwReads_head _ _ _ _)⟩
      · refine hleaf.imp_right (Exists.imp fun c' hread => ?_)
        exact ⟨hread.1, hread.2.1, hreads _ hread.2.2⟩

/-! ## The entry of a page -/

/-- What a walk reads are entries of tables. -/
theorem Spaces.kind_of_read (h : Spaces arch hhdm kind s roots free) (hu : kind u = some l)
    {e : Word × Fin 512} (he : e ∈ hwReads arch hhdm s n l u) : ∃ k, kind e.1 = some k := by
  induction l generalizing u with
  | zero =>
    rw [List.mem_singleton.mp he]
    exact ⟨_, hu⟩
  | succ l ih =>
    cases hsub : arch.subtable (l + 1) (s.slot hhdm u (pageIdx n (l + 1))) with
    | none =>
      rw [hwReads_succ_of_none hsub, List.mem_singleton] at he
      rw [he]
      exact ⟨_, hu⟩
    | some c =>
      rw [hwReads_succ_of_subtable hsub, List.mem_cons] at he
      rcases he with rfl | he
      · exact ⟨_, hu⟩
      · exact ih (h.down u l hu _ c hsub) he

section Leaf

variable (hh : HhdmOk hhdm) (h : Spaces arch hhdm kind s roots free) (hc : kind c = some 0)

include hh h hc

/-- Writing an entry of the last level changes no table. -/
theorem Spaces.slot_setLeaf (ht : kind t = some (l + 1)) (j : Fin 512) :
    (s.setSlot hhdm c i w).slot hhdm t j = s.slot hhdm t j := by
  refine slot_setSlot_of_ne hh (h.page c _ hc) (h.page t _ ht) ?_
  rintro rfl
  rw [hc] at ht
  cases ht

theorem Spaces.setLeaf : Spaces arch hhdm kind (s.setSlot hhdm c i w) roots free := by
  refine ⟨?_, h.fits, h.root, h.page, h.used, ?_, ?_⟩
  · exact h.list.of_write hh (h.page c _ hc) (h.used c _ hc) rfl
      fun x hx => setSlot_mem_of_not_mem hx
  · intro t l ht j c' hc'
    rw [h.slot_setLeaf hh hc ht] at hc'
    exact h.down t l ht j c' hc'
  · intro t u l ht hu j j' c' hc' hc''
    rw [h.slot_setLeaf hh hc ht] at hc'
    rw [h.slot_setLeaf hh hc hu] at hc''
    exact h.once t u l ht hu j j' c' hc' hc''

theorem Spaces.noBlock_setLeaf (hu : kind u = some l) (hclear : NoBlock arch hhdm s n l u) :
    NoBlock arch hhdm (s.setSlot hhdm c i w) n l u := by
  induction l generalizing u with
  | zero => trivial
  | succ l ih =>
    intro c' hc'
    rw [h.slot_setLeaf hh hc hu] at hc' ⊢
    exact ⟨(hclear c' hc').1, ih (h.down u l hu _ c' (hclear.subtable hc')) (hclear c' hc').2⟩

theorem Spaces.setLeaf_extended :
    SpacesExtended arch hhdm kind kind s (s.setSlot hhdm c i w) roots free free :=
  ⟨h.setLeaf hh hc, fun _ _ ht => ht, fun _ _ ht => Or.inl ht, List.suffix_refl free,
    fun _ _ hu _ hn => h.noBlock_setLeaf hh hc hu hn,
    fun _ hx => setSlot_mem_of_not_mem (hx c 0 hc), rfl⟩

theorem Spaces.hwReads_setLeaf (hu : kind u = some l) (n : ℕ) :
    hwReads arch hhdm (s.setSlot hhdm c i w) n l u = hwReads arch hhdm s n l u := by
  induction l generalizing u with
  | zero => rfl
  | succ l ih =>
    have hslot := h.slot_setLeaf (i := i) (w := w) hh hc hu (pageIdx n (l + 1))
    cases hsub : arch.subtable (l + 1) (s.slot hhdm u (pageIdx n (l + 1))) with
    | none => rw [hwReads_succ_of_none hsub, hwReads_succ_of_none (by rw [hslot, hsub])]
    | some c' =>
      rw [hwReads_succ_of_subtable hsub, hwReads_succ_of_subtable (by rw [hslot, hsub]),
        ih (h.down u l hu _ c' hsub)]

omit hh in
/-- A walk that gets to an entry of the last level does so through a table of each level. -/
theorem Spaces.read_below (hu : kind u = some (l + 1))
    (hread : (c, i) ∈ hwReads arch hhdm s n (l + 1) u) :
    ∃ c', arch.subtable (l + 1) (s.slot hhdm u (pageIdx n (l + 1))) = some c' ∧
      kind c' = some l ∧ (c, i) ∈ hwReads arch hhdm s n l c' := by
  have hcu : (c, i) ≠ (u, pageIdx n (l + 1)) := by
    intro e
    rw [← (Prod.mk.inj e).1, hc] at hu
    cases hu
  cases hsub : arch.subtable (l + 1) (s.slot hhdm u (pageIdx n (l + 1))) with
  | none =>
    rw [hwReads_succ_of_none hsub, List.mem_singleton] at hread
    exact absurd hread hcu
  | some c' =>
    rw [hwReads_succ_of_subtable hsub, List.mem_cons] at hread
    exact ⟨c', rfl, h.down u l hu _ c' hsub, hread.resolve_left hcu⟩

omit hh in
/-- A walk that gets to an entry of the last level finds what the entry holds. -/
theorem Spaces.hwWalk_of_read (hu : kind u = some l)
    (hread : (c, i) ∈ hwReads arch hhdm s n l u) :
    hwWalk arch hhdm s n l u = if arch.vmmPteIsPresent (s.slot hhdm c i) then
      some (0, s.slot hhdm c i) else none := by
  induction l generalizing u with
  | zero =>
    cases List.mem_singleton.mp hread
    rfl
  | succ l ih =>
    obtain ⟨c', hsub, hc', hrest⟩ := h.read_below hc hu hread
    rw [hwWalk_succ_of_subtable hsub, ih hc' hrest]

omit hh in
/-- Two walks that get to the same entry of the last level are for the same page, and below the
roots they went through the same tables. -/
theorem Spaces.eq_of_reads (hu : kind u = some l) (hu' : kind r = some l) (hl : l < vmmLevels - 1)
    (hread : (c, i) ∈ hwReads arch hhdm s n l u) (hread' : (c, i) ∈ hwReads arch hhdm s m l r) :
    u = r ∧ ∀ k ≤ l, pageIdx n k = pageIdx m k := by
  induction l generalizing u r with
  | zero =>
    obtain ⟨rfl, hi⟩ := Prod.mk.inj (List.mem_singleton.mp hread)
    obtain ⟨rfl, hi'⟩ := Prod.mk.inj (List.mem_singleton.mp hread')
    refine ⟨rfl, fun k hk => ?_⟩
    rw [Nat.le_zero.mp hk]
    exact hi.symm.trans hi'
  | succ l ih =>
    obtain ⟨c', hsub, hc', hrest⟩ := h.read_below hc hu hread
    obtain ⟨c'', hsub', hc'', hrest'⟩ := h.read_below hc hu' hread'
    obtain ⟨rfl, hidx⟩ := ih hc' hc'' (by omega) hrest hrest'
    obtain ⟨hi, hsame | ⟨-, htop, -⟩⟩ := h.once u r l hu hu' _ _ c' hsub hsub'
    · refine ⟨hsame, fun k hk => ?_⟩
      rcases Nat.lt_or_eq_of_le hk with hk | rfl
      · exact hidx k (by omega)
      · exact hi
    · omega

omit hh in
/-- From the roots, the walks may differ in the root where the kernel half is shared. -/
theorem Spaces.eq_of_root_reads {r r' : Word} (hr : r ∈ roots) (hr' : r' ∈ roots)
    (hread : (c, i) ∈ hwReads arch hhdm s n (vmmLevels - 1) r)
    (hread' : (c, i) ∈ hwReads arch hhdm s m (vmmLevels - 1) r') :
    (∀ k ≤ vmmLevels - 1, pageIdx n k = pageIdx m k) ∧
      (r' = r ∨ (arch = .x86_64 ∧ 256 ≤ (pageIdx n (vmmLevels - 1)).val)) := by
  obtain ⟨c', hsub, hc', hrest⟩ := h.read_below hc (h.root r hr) hread
  obtain ⟨c'', hsub', hc'', hrest'⟩ := h.read_below hc (h.root r' hr') hread'
  obtain ⟨rfl, hidx⟩ := h.eq_of_reads hc hc' hc'' (by decide) hrest hrest'
  obtain ⟨hi, hsame⟩ := h.once r r' _ (h.root r hr) (h.root r' hr') _ _ c' hsub hsub'
  refine ⟨fun k hk => ?_, hsame.imp Eq.symm fun ⟨harch, _, hupper⟩ => ⟨harch, hupper⟩⟩
  rcases Nat.lt_or_eq_of_le hk with hk | rfl
  · exact hidx k (Nat.le_of_lt_succ hk)
  · exact hi

/-- Writing the entry of a page changes the translation of this page: below the root of the walk,
and below the others as far as they share the kernel half. -/
theorem Spaces.hwWalk_setLeaf {r : Word} (hr : r ∈ roots)
    (hread : (c, i) ∈ hwReads arch hhdm s n (vmmLevels - 1) r) {r' : Word} (hr' : r' ∈ roots)
    (m : ℕ) :
    hwWalk arch hhdm (s.setSlot hhdm c i w) m (vmmLevels - 1) r' =
        hwWalk arch hhdm s m (vmmLevels - 1) r' ∨
      (hwWalk arch hhdm (s.setSlot hhdm c i w) m (vmmLevels - 1) r' =
          (if arch.vmmPteIsPresent w then some (0, w) else none) ∧
        (∀ k ≤ vmmLevels - 1, pageIdx n k = pageIdx m k) ∧
        (r' = r ∨ (arch = .x86_64 ∧ 256 ≤ (pageIdx n (vmmLevels - 1)).val))) := by
  by_cases hread' : (c, i) ∈ hwReads arch hhdm s m (vmmLevels - 1) r'
  · refine Or.inr ⟨?_, h.eq_of_root_reads hc hr hr' hread hread'⟩
    rw [(h.setLeaf hh hc).hwWalk_of_read hc (h.root r' hr')
      (by rwa [h.hwReads_setLeaf hh hc (h.root r' hr')]), slot_setSlot_self]
  · refine Or.inl (hwWalk_congr fun e he => ?_)
    obtain ⟨l, hl⟩ := h.kind_of_read (h.root r' hr') he
    refine slot_setSlot_of_ne hh (h.page c _ hc) (h.page e.1 l hl) fun e₁ e₂ => ?_
    rw [← e₁, ← e₂] at hread'
    exact hread' he

end Leaf

end Pros
