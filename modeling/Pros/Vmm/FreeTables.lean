import Pros.Vmm.Operations

/-!
# Giving a tree of tables back

`vmm_free_table_recursive` frees the pages below a table, each after everything below it. Freeing a
page overwrites its first entry with a link of the free list, so the order matters: an entry is
read before its own page is freed. The pages are freed in the order in which `Radix.below` lists
them.
-/

namespace Pros

open Radix

variable {arch : Arch} {hhdm root t u : Word} {s s' : Pmm} {free D : List Word} {k : ℕ}

/-- All indices of a table. -/
def allIdx : List (Fin 512) := List.finRange 512

/-- The indices of the lower half of a root. -/
def lowerIdx : List (Fin 512) := (List.finRange 256).map (Fin.castLE (by decide))

theorem mem_allIdx (i : Fin 512) : i ∈ allIdx := List.mem_finRange i

theorem nodup_allIdx : allIdx.Nodup := List.nodup_finRange 512

theorem map_val_allIdx : allIdx.map Fin.val = List.range 512 := List.map_coe_finRange_eq_range

theorem mem_lowerIdx (i : Fin 512) : i ∈ lowerIdx ↔ i.val < 256 := by
  rw [lowerIdx, List.mem_map]
  constructor
  · rintro ⟨j, -, rfl⟩
    exact j.isLt
  · exact fun hi => ⟨⟨i.val, hi⟩, List.mem_finRange _, rfl⟩

theorem nodup_lowerIdx : lowerIdx.Nodup :=
  (List.nodup_finRange 256).map (Fin.castLE_injective _)

theorem map_val_lowerIdx : lowerIdx.map Fin.val = List.range 256 := by
  rw [lowerIdx, List.map_map]
  exact List.map_coe_finRange_eq_range

/-- From `s` to `s'` the pages `D` were pushed, in this order, and nothing else was written. -/
structure Freed (hhdm : Word) (s s' : Pmm) (D free : List Word) : Prop where
  list : FreeList hhdm s' (D.reverse ++ free)
  mem : ∀ x, (∀ u ∈ D, ¬ (x - pmmPhysToVirt hhdm u).toNat < 4096) → s'.mem x = s.mem x

/-- The pages `D` can be freed: they are distinct pages that are not free. -/
structure CanFree (hhdm : Word) (D free : List Word) : Prop where
  nodup : D.Nodup
  page : ∀ u ∈ D, IsPage hhdm u
  used : ∀ u ∈ D, u ∉ free

theorem Freed.nil (h : FreeList hhdm s free) : Freed hhdm s s [] free := ⟨h, fun _ _ => rfl⟩

theorem Freed.trans {s'' : Pmm} {D' : List Word} (h : Freed hhdm s s' D free)
    (h' : Freed hhdm s' s'' D' (D.reverse ++ free)) : Freed hhdm s s'' (D ++ D') free := by
  refine ⟨?_, fun x hx => ?_⟩
  · rw [List.reverse_append, List.append_assoc]
    exact h'.list
  · rw [h'.mem x fun u hu => hx u (List.mem_append_right _ hu),
      h.mem x fun u hu => hx u (List.mem_append_left _ hu)]

theorem Freed.one (hh : HhdmOk hhdm) (h : FreeList hhdm s free) (ht : IsPage hhdm t)
    (hnot : t ∉ free) : Freed hhdm s (pmmFree hhdm s t 1) [t] free := by
  refine ⟨h.free_one hh ht hnot, fun x hx => pmmFree_one_mem ht.ne_zero fun hxt => ?_⟩
  exact hx t List.mem_cons_self (by omega)

/-- Pages that were not freed keep their slots. -/
theorem Freed.slot (hh : HhdmOk hhdm) (h : Freed hhdm s s' D free) (hD : ∀ u ∈ D, IsPage hhdm u)
    (ht : IsPage hhdm t) (hnot : t ∉ D) (i : Fin 512) : s'.slot hhdm t i = s.slot hhdm t i := by
  refine slot_congr fun x hx => h.mem x fun u hu hxu => ?_
  exact (hD u hu).apart hh ht (fun e => hnot (e ▸ hu)) x hxu hx

theorem CanFree.append {D' : List Word} :
    CanFree hhdm (D ++ D') free ↔ CanFree hhdm D free ∧ CanFree hhdm D' (D.reverse ++ free) := by
  constructor
  · rintro ⟨hnodup, hpage, hused⟩
    obtain ⟨hD, hD', hdisj⟩ := List.nodup_append.mp hnodup
    refine ⟨⟨hD, fun u hu => hpage u (List.mem_append_left _ hu),
      fun u hu => hused u (List.mem_append_left _ hu)⟩,
      hD', fun u hu => hpage u (List.mem_append_right _ hu), fun u hu hmem => ?_⟩
    rcases List.mem_append.mp hmem with hmem | hmem
    · exact hdisj u (List.mem_reverse.mp hmem) u hu rfl
    · exact hused u (List.mem_append_right _ hu) hmem
  · rintro ⟨⟨hD, hpage, hused⟩, hD', hpage', hused'⟩
    refine ⟨List.nodup_append.mpr ⟨hD, hD', ?_⟩, fun u hu => ?_, fun u hu => ?_⟩
    · rintro u hu _ hu' rfl
      exact hused' u hu' (List.mem_append_left _ (List.mem_reverse.mpr hu))
    · exact (List.mem_append.mp hu).elim (hpage u) (hpage' u)
    · rcases List.mem_append.mp hu with hu | hu
      · exact hused u hu
      · exact fun hmem => hused' u hu (List.mem_append_right _ hmem)

section

variable (arch hhdm)

/-- The pages below table `t`, to depth `k`, in the order in which they are freed. -/
def pagesBelow (s : Pmm) (k : ℕ) (t : Word) : List Word :=
  below arch.child (s.slot hhdm) allIdx k t

/-- The pages below the slots `is` of table `t`. -/
def pagesUnder (s : Pmm) (k : ℕ) (is : List (Fin 512)) (t : Word) : List Word :=
  branches arch.child (s.slot hhdm) (pagesBelow arch hhdm s k) is t

end

theorem pagesBelow_succ :
    pagesBelow arch hhdm s (k + 1) t = pagesUnder arch hhdm s k allIdx t := rfl

/-- The loop over entries, with indices below 512. -/
theorem vmmFreeEntries_eq (sub : Pmm → Word → Pmm) {is : List (Fin 512)} {n : ℕ}
    (his : is.map Fin.val = List.range n) (s : Pmm) :
    vmmFreeEntries arch hhdm sub n s (pmmPhysToVirt hhdm t) =
      is.foldl (fun s i => (arch.child (s.slot hhdm t i)).elim s fun c =>
        pmmFree hhdm (sub s (pmmPhysToVirt hhdm c)) c 1) s := by
  rw [vmmFreeEntries, ← his, List.foldl_map]
  congr 1
  funext s i
  have hslot : s.entry (pmmPhysToVirt hhdm t) (BitVec.ofNat 64 i.val) = s.slot hhdm t i := rfl
  simp only [hslot, Arch.child]
  by_cases hpres : arch.vmmPteIsPresent (s.slot hhdm t i) = true
  · simp [hpres]
  · simp [hpres]

/-- Freeing pages leaves the lists of the pages alone that are not freed. -/
theorem pagesUnder_congr (hh : HhdmOk hhdm) (h : Freed hhdm s s' D free)
    (hD : ∀ u ∈ D, IsPage hhdm u) {is : List (Fin 512)} (ht : IsPage hhdm t) (htD : t ∉ D)
    (hpage : ∀ u ∈ pagesUnder arch hhdm s k is t, IsPage hhdm u)
    (hdisj : ∀ u ∈ pagesUnder arch hhdm s k is t, u ∉ D) :
    pagesUnder arch hhdm s' k is t = pagesUnder arch hhdm s k is t := by
  refine branches_congr (fun i _ => h.slot hh hD ht htD i) fun i hi c hc => ?_
  refine below_congr fun u hu j => ?_
  have hmem : u ∈ pagesUnder arch hhdm s k is t := mem_branches.mpr ⟨i, hi, c, hc, hu.symm⟩
  exact h.slot hh hD (hpage u hmem) (hdisj u hmem) j

/-- The loop over entries frees what is below them, if `sub` does so for the table of each entry. -/
theorem freeEntries_spec (hh : HhdmOk hhdm) (sub : Pmm → Word → Pmm)
    (hsub : ∀ {s free c}, FreeList hhdm s free →
      CanFree hhdm (pagesBelow arch hhdm s k c ++ [c]) free →
      Freed hhdm s (sub s (pmmPhysToVirt hhdm c)) (pagesBelow arch hhdm s k c) free)
    {is : List (Fin 512)} (h : FreeList hhdm s free) (ht : IsPage hhdm t)
    (hnot : t ∉ pagesUnder arch hhdm s k is t)
    (hcan : CanFree hhdm (pagesUnder arch hhdm s k is t) free) :
    Freed hhdm s (is.foldl (fun s i => (arch.child (s.slot hhdm t i)).elim s fun c =>
      pmmFree hhdm (sub s (pmmPhysToVirt hhdm c)) c 1) s)
      (pagesUnder arch hhdm s k is t) free := by
  induction is generalizing s free with
  | nil => exact Freed.nil h
  | cons i is ih =>
    rw [List.foldl_cons]
    cases hc : arch.child (s.slot hhdm t i) with
    | none =>
      have heq : pagesUnder arch hhdm s k (i :: is) t = pagesUnder arch hhdm s k is t :=
        branches_cons_none hc
      rw [heq] at hnot hcan ⊢
      exact ih h hnot hcan
    | some c =>
      have heq : pagesUnder arch hhdm s k (i :: is) t =
          (pagesBelow arch hhdm s k c ++ [c]) ++ pagesUnder arch hhdm s k is t :=
        branches_cons_some hc
      rw [heq] at hnot hcan ⊢
      obtain ⟨hfirst, hrest⟩ := CanFree.append.mp hcan
      -- the subtree of this entry, then its page
      have hbelow := hsub h hfirst
      obtain ⟨-, hone⟩ := CanFree.append.mp hfirst
      have hfreed := hbelow.trans (Freed.one hh hbelow.list (hone.page c List.mem_cons_self)
        (hone.used c List.mem_cons_self))
      -- the remaining entries and what is below them have not changed
      have hsame : pagesUnder arch hhdm
          (pmmFree hhdm (sub s (pmmPhysToVirt hhdm c)) c 1) k is t =
          pagesUnder arch hhdm s k is t := by
        refine pagesUnder_congr hh hfreed hfirst.page ht
          (fun hmem => hnot (List.mem_append_left _ hmem)) hrest.page fun u hu hmem => ?_
        exact hrest.used u hu (List.mem_append_left _ (List.mem_reverse.mpr hmem))
      rw [← hsame] at hrest
      have hnot' : t ∉ pagesUnder arch hhdm
          (pmmFree hhdm (sub s (pmmPhysToVirt hhdm c)) c 1) k is t := by
        rw [hsame]
        exact fun hmem => hnot (List.mem_append_right _ hmem)
      have hloop := ih hfreed.list hnot' hrest
      rw [hsame] at hloop
      exact hfreed.trans hloop

/-- `vmm_free_table_recursive` frees the pages below a table, each once. -/
theorem vmmFreeTableRecursive_spec (hh : HhdmOk hhdm) (level : ℕ) {s : Pmm} {free : List Word}
    {t : Word} (h : FreeList hhdm s free)
    (hcan : CanFree hhdm (pagesBelow arch hhdm s (level + 1) t ++ [t]) free) :
    Freed hhdm s (vmmFreeTableRecursive arch hhdm level s (pmmPhysToVirt hhdm t))
      (pagesBelow arch hhdm s (level + 1) t) free := by
  obtain ⟨hbelow, hself⟩ := CanFree.append.mp hcan
  have ht := hself.page t List.mem_cons_self
  have hnot : t ∉ pagesBelow arch hhdm s (level + 1) t := fun hmem =>
    hself.used t List.mem_cons_self (List.mem_append_left _ (List.mem_reverse.mpr hmem))
  rw [pagesBelow_succ] at hbelow hnot ⊢
  induction level generalizing s free t with
  | zero =>
    rw [vmmFreeTableRecursive, vmmFreeEntries_eq _ map_val_allIdx]
    have hframes : ∀ {s free c}, FreeList hhdm s free →
        CanFree hhdm (pagesBelow arch hhdm s 0 c ++ [c]) free →
        Freed hhdm s s (pagesBelow arch hhdm s 0 c) free := fun h _ => Freed.nil h
    exact freeEntries_spec hh (fun s _ => s) hframes h ht hnot hbelow
  | succ level ih =>
    rw [vmmFreeTableRecursive, vmmFreeEntries_eq _ map_val_allIdx]
    refine freeEntries_spec hh (vmmFreeTableRecursive arch hhdm level) (fun {s free c} h hcan => ?_)
      h ht hnot hbelow
    obtain ⟨hbelow, hself⟩ := CanFree.append.mp hcan
    exact ih h hcan hbelow hself (hself.page c List.mem_cons_self) fun hmem =>
      hself.used c List.mem_cons_self (List.mem_append_left _ (List.mem_reverse.mpr hmem))

/-! ## Destroying a context -/

/-- The pages that `vmm_destroy_context` pushes, in this order. -/
def ownedPages (arch : Arch) (hhdm : Word) (s : Pmm) (root : Word) : List Word :=
  pagesUnder arch hhdm s 3 lowerIdx root ++ [root]

/-- They are the pages of the tree below the root. -/
theorem mem_ownedPages :
    u ∈ ownedPages arch hhdm s root ↔ Node arch hhdm 4 s [root] u := by
  rw [ownedPages, List.mem_append, List.mem_singleton, pagesUnder,
    show pagesBelow arch hhdm s 3 = below arch.child (s.slot hhdm) allIdx 3 from rfl,
    mem_branches_below mem_allIdx]
  constructor
  · rintro (⟨i, p, hi, hp, hdesc⟩ | rfl)
    · exact ⟨root, List.mem_cons_self, i :: p,
        lowerPath_cons.mpr ⟨(mem_lowerIdx i).mp hi, hp⟩, hdesc⟩
    · exact ⟨u, List.mem_cons_self, [], lowerPath_nil, rfl⟩
  · rintro ⟨r, hr, q, hq, hu⟩
    obtain rfl := List.mem_singleton.mp hr
    cases q with
    | nil => exact Or.inr (Option.some.inj hu).symm
    | cons i p =>
      obtain ⟨hi, hp⟩ := lowerPath_cons.mp hq
      exact Or.inl ⟨i, p, (mem_lowerIdx i).mpr hi, hp, hu⟩

theorem nodup_ownedPages (h : Tables arch hhdm 4 s [root] free) :
    (ownedPages arch hhdm s root).Nodup := by
  have hroot : root ∈ [root] := List.mem_cons_self
  have hok : ∀ i p, i ∈ lowerIdx → p.length ≤ 3 → LowerPath 4 (i :: p) := fun i p hi hp =>
    lowerPath_cons.mpr ⟨(mem_lowerIdx i).mp hi, hp⟩
  refine List.nodup_append.mpr ⟨?_, List.nodup_singleton root, ?_⟩
  · refine nodup_branches mem_allIdx nodup_lowerIdx (fun i hi c hc => ?_)
      fun i hi i' hi' p p' c hp hp' hd hd' => ?_
    · refine nodup_below mem_allIdx nodup_allIdx fun p p' d hp hp' hd hd' => ?_
      have heq := (h.forest.unique hroot hroot (hok i p hi hp) (hok i p' hi hp')
        (by rw [descend_cons, hc, Option.bind_some, hd])
        (by rw [descend_cons, hc, Option.bind_some, hd'])).2
      exact (List.cons.inj heq).2
    · exact (List.cons.inj (h.forest.unique hroot hroot (hok i p hi hp) (hok i' p' hi' hp')
        hd hd').2).1
  · rintro u hu _ hmem rfl
    obtain rfl := List.mem_singleton.mp hmem
    obtain ⟨i, p, hi, hp, hdesc⟩ := (mem_branches_below mem_allIdx).mp hu
    have heq := (h.forest.unique hroot hroot (hok i p hi hp) lowerPath_nil hdesc descend_nil).2
    cases heq

/-- `vmm_destroy_context` pushes the pages of the tree, each once, and then frees the struct. -/
theorem Tables.vmmDestroyContext (hh : HhdmOk hhdm) {v : Vmm} {ctx : VmmContext}
    (h : Tables arch hhdm 4 v.pmm [ctx.rootPhys] free) (hctx : ContextIn hhdm [ctx.rootPhys] ctx)
    (kfree : Pmm → Option Pmm) :
    ∃ pmm, Freed hhdm v.pmm pmm (ownedPages arch hhdm v.pmm ctx.rootPhys) free ∧
      vmmDestroyContext arch hhdm kfree v (some ctx) =
        (kfree pmm).map fun pmm' => { v with pmm := pmm' } := by
  have hnode : ∀ {u}, u ∈ ownedPages arch hhdm v.pmm ctx.rootPhys ↔
      Node arch hhdm 4 v.pmm [ctx.rootPhys] u := mem_ownedPages
  have hcan : CanFree hhdm (ownedPages arch hhdm v.pmm ctx.rootPhys) free :=
    ⟨nodup_ownedPages h, fun u hu => h.page u (hnode.mp hu), fun u hu => h.used u (hnode.mp hu)⟩
  obtain ⟨hbelow, hroot⟩ := CanFree.append.mp hcan
  have hpage := hroot.page _ List.mem_cons_self
  have hnot : ctx.rootPhys ∉ pagesUnder arch hhdm v.pmm 3 lowerIdx ctx.rootPhys := fun hmem =>
    hroot.used _ List.mem_cons_self (List.mem_append_left _ (List.mem_reverse.mpr hmem))
  have hloop := freeEntries_spec hh (vmmFreeTableRecursive arch hhdm 2)
    (fun hl hc => vmmFreeTableRecursive_spec hh 2 hl hc) h.list hpage hnot hbelow
  rw [← vmmFreeEntries_eq _ map_val_lowerIdx] at hloop
  refine ⟨_, hloop.trans (Freed.one hh hloop.list hpage (hroot.used _ List.mem_cons_self)), ?_⟩
  unfold Pros.vmmDestroyContext
  simp only [if_pos hpage.ne_zero, hctx.virt]
  cases kfree _ <;> rfl

end Pros
