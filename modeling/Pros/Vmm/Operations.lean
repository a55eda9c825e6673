import Pros.Heap.OnPmm
import Pros.Vmm.Tables

/-!
# What the operations do to the tables

Each operation of `vmm.c` on a lower-half address has one lemma here, stated with `Tables` and
`vmmLookup`. Callers never look at slots again.
-/

namespace Pros

open Radix

variable {arch : Arch} {hhdm r t w z : Word} {s s' : Pmm} {i : Fin 512} {d n : ℕ}
variable {roots roots' free free' : List Word}

/-! ## Changes elsewhere -/

/-- From `s` to `s'` no entry in the lower halves changed, and the free pages are now `free'`. -/
structure Elsewhere (arch : Arch) (hhdm : Word) (d : ℕ) (s s' : Pmm)
    (roots free' : List Word) : Prop where
  list : FreeList hhdm s' free'
  fits : ∀ p ∈ free', arch.FitsPte p
  keep : ∀ r ∈ roots, ∀ p j t, LowerPath 4 (p ++ [j]) → tableAt arch hhdm s r p = some t →
    s'.slot hhdm t j = s.slot hhdm t j
  used : ∀ t, Node arch hhdm d s roots t → t ∉ free'

theorem Elsewhere.tableAt (he : Elsewhere arch hhdm d s s' roots free') (hr : r ∈ roots)
    {q : List (Fin 512)} (hq : LowerPath 4 q) :
    tableAt arch hhdm s' r q = tableAt arch hhdm s r q := by
  refine descend_congr_of fun p j u hp hu => he.keep r hr p j u ?_ hu
  obtain ⟨q', rfl⟩ := hp
  exact hq.shorten

theorem Elsewhere.node {d' : ℕ} (hd' : d' ≤ 4) (he : Elsewhere arch hhdm d s s' roots free') :
    Node arch hhdm d' s' roots t ↔ Node arch hhdm d' s roots t := by
  constructor
  · rintro ⟨r, hr, q, hq, ht⟩
    exact ⟨r, hr, q, hq, by rwa [he.tableAt hr (hq.mono hd')] at ht⟩
  · rintro ⟨r, hr, q, hq, ht⟩
    exact ⟨r, hr, q, hq, by rwa [he.tableAt hr (hq.mono hd')]⟩

theorem Elsewhere.lookup (he : Elsewhere arch hhdm d s s' roots free') (hr : r ∈ roots)
    (hn : n < 2 ^ 35) : vmmLookup arch hhdm s' r n = vmmLookup arch hhdm s r n := by
  rw [vmmLookup, vmmLookup, he.tableAt hr (lowerPath_leaf hn).shorten]
  cases ht : Pros.tableAt arch hhdm s r (tablePath n) with
  | none => rw [Option.bind_none, Option.bind_none]
  | some t => rw [Option.bind_some, Option.bind_some, he.keep r hr _ _ t (lowerPath_leaf hn) ht]

/-- The slots that paths read lie in the tables, so it is enough to keep the bytes of these. -/
theorem Elsewhere.of_agreeOn (hlist : FreeList hhdm s' free') (hfits : ∀ p ∈ free', arch.FitsPte p)
    (hkeep : ∀ t, Node arch hhdm 3 s roots t →
      ByteMem.AgreeOn s.mem s'.mem (pmmPhysToVirt hhdm t) 4096)
    (hused : ∀ t, Node arch hhdm d s roots t → t ∉ free') :
    Elsewhere arch hhdm d s s' roots free' :=
  ⟨hlist, hfits, fun r hr p _ t hp ht => slot_congr (hkeep t ⟨r, hr, p, hp.of_slot, ht⟩), hused⟩

theorem Tables.congr (hd' : d ≤ 4) (h : Tables arch hhdm d s roots free)
    (hsub : ∀ r ∈ roots', r ∈ roots) (he : Elsewhere arch hhdm d s s' roots' free') :
    Tables arch hhdm d s' roots' free' := by
  have hnode : ∀ t, Node arch hhdm d s' roots' t → Node arch hhdm d s roots' t := fun t =>
    (he.node hd').mp
  refine ⟨he.list, he.fits, ?_, fun t ht => ?_, fun t ht => he.used t (hnode t ht)⟩
  · exact h.forest.mono fun r q u hr hq hu =>
      ⟨hsub r hr, (he.tableAt hr (hq.mono hd')).symm.trans hu⟩
  · obtain ⟨r, hr, q, hq, ht⟩ := hnode t ht
    exact h.page t ⟨r, hsub r hr, q, hq, ht⟩

theorem not_node_nil : ¬ Node arch hhdm d s [] t := by
  rintro ⟨r, hr, -⟩
  cases hr

/-- Without roots there are no tables. -/
theorem Tables.empty (hlist : FreeList hhdm s free) (hfits : ∀ p ∈ free, arch.FitsPte p) :
    Tables arch hhdm d s [] free :=
  ⟨hlist, hfits, ⟨fun _ _ => LowerPath.shorten, fun hr => by cases hr⟩,
    fun _ ht => absurd ht not_node_nil, fun _ ht => absurd ht not_node_nil⟩

/-! ## The entry of a page -/

section Leaf

variable (hh : HhdmOk hhdm) (hd : 3 ≤ d) (hd' : d ≤ 4) (h : Tables arch hhdm d s roots free)
variable (hr : r ∈ roots) (hn : n < 2 ^ 35) (ht : tableAt arch hhdm s r (tablePath n) = some t)

include hh hd h hr hn ht in
theorem Tables.leaf_onlySlot :
    OnlySlot arch.child (s.slot hhdm) ((s.setSlot hhdm t i w).slot hhdm) (· ∈ roots)
      (LowerPath 4) t i :=
  h.onlySlot hh hd (h.page t ⟨r, hr, _, (lowerPath_tablePath hn).mono hd, ht⟩) fun _ _ _ => rfl

include hh hd hd' h hr hn ht in
/-- Writing the entry of a page changes this page only. -/
theorem Tables.leaf_lookup {r' : Word} (hr' : r' ∈ roots) {m : ℕ} (hm : m < 2 ^ 35) :
    vmmLookup arch hhdm (s.setSlot hhdm t (pageIdx n 0) w) r' m =
      if r' = r ∧ m = n then arch.decode w else vmmLookup arch hhdm s r' m := by
  have honly := h.leaf_onlySlot (i := pageIdx n 0) (w := w) hh hd hr hn ht
  have hp := (lowerPath_tablePath hn).mono hd
  have hslot : ∀ q, LowerPath d q → LowerPath 4 q := fun q hq => hq.mono hd'
  split
  · rename_i hsame
    obtain ⟨rfl, rfl⟩ := hsame
    rw [vmmLookup, tableAt, h.forest.descend_to hslot honly hr hp ht, Option.bind_some,
      slot_setSlot_self]
  · rename_i hother
    have hoff := h.forest.entry_off hslot honly hr hp ht hr' ((lowerPath_tablePath hm).mono hd)
      (lowerPath_leaf hm) fun hrr hpre => ?_
    · have hmap : ∀ s : Pmm, vmmLookup arch hhdm s r' m =
          ((descend arch.child (s.slot hhdm) r' (tablePath m)).map
            (s.slot hhdm · (pageIdx m 0))).bind arch.decode := fun s => by
        rw [Option.bind_map]
        rfl
      rw [hmap, hoff, ← hmap]
    · have heq := hpre.eq_of_length (by simp [length_tablePath])
      obtain ⟨hpath, hleaf⟩ := List.append_inj heq (by simp [length_tablePath])
      exact hother ⟨hrr, (eq_of_pageIdx_eq hn hm hpath (List.cons.inj hleaf).1).symm⟩

end Leaf

section LeafTables

variable (hh : HhdmOk hhdm) (h : Tables arch hhdm 3 s roots free) (hr : r ∈ roots)
variable (hn : n < 2 ^ 35) (ht : tableAt arch hhdm s r (tablePath n) = some t)

include hh h hr hn ht in
theorem Tables.leaf_tableAt {r' : Word} (hr' : r' ∈ roots) {q : List (Fin 512)}
    (hq : LowerPath 3 q) :
    tableAt arch hhdm (s.setSlot hhdm t (pageIdx n 0) w) r' q = tableAt arch hhdm s r' q := by
  refine h.forest.descend_off (fun q hq => hq.mono (by decide)) (h.leaf_onlySlot hh le_rfl hr hn ht)
    hr (lowerPath_tablePath hn) ht hr' hq fun _ hpre => ?_
  have hlen := hpre.length_le
  have hq3 := hq.1
  rw [List.length_append, length_tablePath, List.length_singleton] at hlen
  omega

include hh h hr hn ht in
/-- The entries of pages are no part of the forest of tables. -/
theorem Tables.setLeaf :
    Extended arch hhdm 3 s (s.setSlot hhdm t (pageIdx n 0) w) roots free free := by
  have htable : ∀ {r' q}, r' ∈ roots → LowerPath 3 q →
      tableAt arch hhdm (s.setSlot hhdm t (pageIdx n 0) w) r' q = tableAt arch hhdm s r' q :=
    fun hr' hq => h.leaf_tableAt hh hr hn ht hr' hq
  have hnode : ∀ u, Node arch hhdm 3 (s.setSlot hhdm t (pageIdx n 0) w) roots u ↔
      Node arch hhdm 3 s roots u := by
    intro u
    constructor
    · rintro ⟨r', hr', q, hq, hu⟩
      exact ⟨r', hr', q, hq, by rwa [htable hr' hq] at hu⟩
    · rintro ⟨r', hr', q, hq, hu⟩
      exact ⟨r', hr', q, hq, by rwa [htable hr' hq]⟩
  have htnode : Node arch hhdm 3 s roots t := ⟨r, hr, _, lowerPath_tablePath hn, ht⟩
  refine ⟨⟨?_, h.fits, ?_, fun u hu => h.page u ((hnode u).mp hu),
    fun u hu => h.used u ((hnode u).mp hu)⟩, ⟨[], rfl, by simp [hnode]⟩, fun x hx => ?_,
    fun u hu j _ => ?_, fun u hu => (hnode u).mpr hu, rfl⟩
  · exact h.list.of_write hh (h.page t htnode) (h.used t htnode) rfl fun x hx =>
      setSlot_mem_of_not_mem hx
  · exact h.forest.mono fun r' q u hr' hq hu => ⟨hr', (htable hr' hq).symm.trans hu⟩
  · exact setSlot_mem_of_not_mem (hx t ((hnode t).mpr htnode))
  · -- the table of a page is no root
    have hunode : Node arch hhdm 3 s roots u := ⟨u, hu, [], lowerPath_nil, rfl⟩
    refine slot_setSlot_of_ne hh (h.page t htnode) (h.page u hunode) ?_
    rintro rfl
    have hpath := (h.forest.unique hr hu (lowerPath_tablePath hn) lowerPath_nil ht rfl).2
    exact absurd hpath (by simp [tablePath_eq])

end LeafTables

/-! ## One page -/

theorem tablePath_root (n : ℕ) : tablePath n = [] ++ pathBelow n (vmmLevels - 1) := rfl

/-- `ctx` is a context with its root in `roots`. -/
structure ContextIn (hhdm : Word) (roots : List Word) (ctx : VmmContext) : Prop where
  root : ctx.rootPhys ∈ roots
  virt : ctx.rootVirt = pmmPhysToVirt hhdm ctx.rootPhys

theorem pageNumber_lt {va : Word} (hva : va < vmmAddrSplit) : pageNumber va < 2 ^ 35 := by
  have hlt : va.toNat < vmmAddrSplit.toNat := hva
  have hsplit : vmmAddrSplit.toNat = 2 ^ 47 := rfl
  rw [pageNumber]
  omega

theorem toNat_page_of_addr (va : Word) :
    (va &&& ~~~(pageSize - 1)).toNat = va.toNat / 4096 * 4096 :=
  Word.toNat_alignDown va (k := 12) (by decide)

theorem pageNumber_page_of_addr (va : Word) :
    pageNumber (va &&& ~~~(pageSize - 1)) = pageNumber va := by
  rw [pageNumber, pageNumber, toNat_page_of_addr, Nat.mul_div_cancel _ (by decide)]

theorem page_of_addr_lt {va top : Word} (h : va < top) : va &&& ~~~(pageSize - 1) < top := by
  rw [BitVec.lt_def] at h ⊢
  rw [toNat_page_of_addr]
  exact lt_of_le_of_lt (Nat.div_mul_le_self _ _) h

section Page

variable {v : Vmm} {ctx : VmmContext} {va phys flags : Word}
variable (hh : HhdmOk hhdm) (hd : 3 ≤ d) (hd' : d ≤ 4)
variable (h : Tables arch hhdm d v.pmm roots free)
variable (hctx : ContextIn hhdm roots ctx) (hva : va < vmmAddrSplit)

include h hctx hva

theorem Tables.walkToLeafSlot_eq (create : Bool) :
    walkToLeafSlot arch hhdm v ctx va create =
      Pros.walkToLeafLoop arch hhdm va create (vmmLevels - 1) v.pmm
        (pmmPhysToVirt hhdm ctx.rootPhys) := by
  have hroot : IsPage hhdm ctx.rootPhys := h.page _ ⟨_, hctx.root, [], lowerPath_nil, rfl⟩
  have htable : getRootTable arch hhdm v ctx va = pmmPhysToVirt hhdm ctx.rootPhys := by
    rw [getRootTable, if_neg (BitVec.not_le.mpr hva), hctx.virt]
  rw [walkToLeafSlot, htable, if_neg hroot.virt_ne_zero]

include hh hd hd' in
/-- `vmm_map_page` runs out of pages for the tables, or writes the entry of the page. -/
theorem Tables.vmmMapPage_walk (phys flags : Word) :
    (∃ s', vmmMapPage arch hhdm v (some ctx) va phys flags = some (-1, { v with pmm := s' }) ∧
      Grown arch hhdm d v.pmm s' roots free []) ∨
    ∃ c s' free', vmmMapPage arch hhdm v (some ctx) va phys flags =
        some (0, { v with pmm := (s'.setSlot hhdm c (pageIdx (pageNumber va) 0)
          (arch.vmmMakePte phys (flags ||| vmmPresent) false)) }) ∧
      Grown arch hhdm d v.pmm s' roots free free' ∧
      tableAt arch hhdm s' ctx.rootPhys (tablePath (pageNumber va)) = some c := by
  have hn := pageNumber_lt hva
  unfold vmmMapPage
  simp only [h.walkToLeafSlot_eq hctx hva]
  rcases h.walkToLeafLoop hh hd hd' rfl hn hctx.root (tablePath_root _) rfl with
    ⟨s', hwalk, hgrown⟩ | ⟨c, s', free', hwalk, hgrown, hc⟩
  · refine Or.inl ⟨s', ?_, hgrown⟩
    simp only [hwalk, Option.bind_eq_bind, Option.bind_some]
    rfl
  · have hpage : IsPage hhdm c := hgrown.tables.page c
      ⟨_, hctx.root, _, (lowerPath_tablePath hn).mono hd, hc⟩
    refine Or.inr ⟨c, s', free', ?_, hgrown, hc⟩
    simp only [hwalk, Option.bind_eq_bind, Option.bind_some, if_neg (hpage.slotAddr_ne_zero _)]
    rfl

include hd in
/-- The walk for `vmm_unmap_page` and `vmm_virt_to_phys`. -/
theorem Tables.walkToLeafSlot_find :
    walkToLeafSlot arch hhdm v ctx va false =
      some ((tableAt arch hhdm v.pmm ctx.rootPhys (tablePath (pageNumber va))).elim 0
        (slotAddr hhdm · (pageIdx (pageNumber va) 0)), v.pmm) := by
  rw [h.walkToLeafSlot_eq hctx hva]
  exact h.walkToLeafLoop_find hd rfl (pageNumber_lt hva) hctx.root (tablePath_root _) rfl

include hd in
theorem Tables.vmmUnmapPage_cases :
    (vmmUnmapPage arch hhdm v (some ctx) va = some (-1, v) ∧
      vmmLookup arch hhdm v.pmm ctx.rootPhys (pageNumber va) = none) ∨
    ∃ c, vmmUnmapPage arch hhdm v (some ctx) va =
        some (0, { v with pmm := v.pmm.setSlot hhdm c (pageIdx (pageNumber va) 0) 0 }) ∧
      tableAt arch hhdm v.pmm ctx.rootPhys (tablePath (pageNumber va)) = some c ∧
      arch.vmmPteIsPresent (v.pmm.slot hhdm c (pageIdx (pageNumber va) 0)) = true := by
  unfold vmmUnmapPage vmmLookup
  simp only [h.walkToLeafSlot_find hd hctx hva, Option.bind_eq_bind, Option.bind_some]
  cases hc : tableAt arch hhdm v.pmm ctx.rootPhys (tablePath (pageNumber va)) with
  | none => exact Or.inl ⟨rfl, Option.bind_none _⟩
  | some c =>
    have hpage : IsPage hhdm c := h.page c
      ⟨_, hctx.root, _, (lowerPath_tablePath (pageNumber_lt hva)).mono hd, hc⟩
    have hne := hpage.slotAddr_ne_zero (pageIdx (pageNumber va) 0)
    have hload : v.pmm.mem.load64 (slotAddr hhdm c (pageIdx (pageNumber va) 0)) =
        v.pmm.slot hhdm c (pageIdx (pageNumber va) 0) := rfl
    rw [Option.elim_some, hload, Option.bind_some]
    by_cases hpres : arch.vmmPteIsPresent (v.pmm.slot hhdm c (pageIdx (pageNumber va) 0)) = true
    · refine Or.inr ⟨c, ?_, rfl, hpres⟩
      rw [if_neg (not_or.mpr ⟨hne, by simp [hpres]⟩)]
      rfl
    · refine Or.inl ⟨?_, if_neg hpres⟩
      rw [if_pos (Or.inr (by simpa using hpres))]
      rfl

include hd in
/-- `vmm_virt_to_phys` is the mapped frame with the offset in the page, or zero. -/
theorem Tables.vmmVirtToPhys :
    vmmVirtToPhys arch hhdm v (some ctx) va =
      some ((vmmLookup arch hhdm v.pmm ctx.rootPhys (pageNumber va)).elim 0 fun e =>
        e.1 ||| (va &&& 4095)) := by
  unfold Pros.vmmVirtToPhys vmmLookup
  simp only [h.walkToLeafSlot_find hd hctx hva, Option.bind_eq_bind, Option.bind_some]
  cases hc : tableAt arch hhdm v.pmm ctx.rootPhys (tablePath (pageNumber va)) with
  | none => rfl
  | some c =>
    have hpage : IsPage hhdm c := h.page c
      ⟨_, hctx.root, _, (lowerPath_tablePath (pageNumber_lt hva)).mono hd, hc⟩
    have hne := hpage.slotAddr_ne_zero (pageIdx (pageNumber va) 0)
    have hload : v.pmm.mem.load64 (slotAddr hhdm c (pageIdx (pageNumber va) 0)) =
        v.pmm.slot hhdm c (pageIdx (pageNumber va) 0) := rfl
    rw [Option.elim_some, hload, Option.bind_some, Arch.decode]
    by_cases hpres : arch.vmmPteIsPresent (v.pmm.slot hhdm c (pageIdx (pageNumber va) 0)) = true
    · rw [if_neg (not_or.mpr ⟨hne, by simp [hpres]⟩), if_pos hpres]
      rfl
    · rw [if_pos (Or.inr (by simpa using hpres)), if_neg hpres]
      rfl

end Page

section TablePage

variable {v : Vmm} {ctx : VmmContext} {va phys flags : Word}
variable (hh : HhdmOk hhdm) (h : Tables arch hhdm 3 v.pmm roots free)
variable (hctx : ContextIn hhdm roots ctx) (hva : va < vmmAddrSplit)

include hh h hctx hva

/-- `vmm_map_page` sets the entry of one page of one context, or is out of memory and changes no
entry. -/
theorem Tables.vmmMapPage (hphys : arch.FitsPte phys) (flags : Word) :
    ∃ res s' free', vmmMapPage arch hhdm v (some ctx) va phys flags =
        some (res, { v with pmm := s' }) ∧
      Extended arch hhdm 3 v.pmm s' roots free free' ∧
      ((res = 0 ∧ ∀ r ∈ roots, ∀ n < 2 ^ 35, vmmLookup arch hhdm s' r n =
          if r = ctx.rootPhys ∧ n = pageNumber va then
            some (phys, (flags ||| vmmPresent) &&& 31)
          else vmmLookup arch hhdm v.pmm r n) ∨
        (res = -1 ∧ free' = [] ∧
          ∀ r ∈ roots, ∀ n < 2 ^ 35,
            vmmLookup arch hhdm s' r n = vmmLookup arch hhdm v.pmm r n)) := by
  rcases h.vmmMapPage_walk hh le_rfl (by decide) hctx hva phys flags with
    ⟨s', hmap, hgrown⟩ | ⟨c, s', free', hmap, hgrown, hc⟩
  · exact ⟨-1, s', [], hmap, hgrown.toExtended, Or.inr ⟨rfl, rfl, hgrown.lookup⟩⟩
  · have hn := pageNumber_lt hva
    have hleaf := hgrown.tables.setLeaf
      (w := arch.vmmMakePte phys (flags ||| vmmPresent) false) hh hctx.root hn hc
    refine ⟨0, _, free', hmap, hgrown.toExtended.trans hleaf, Or.inl ⟨rfl, fun r hr n hn' => ?_⟩⟩
    rw [hgrown.tables.leaf_lookup hh le_rfl (by decide) hctx.root hn hc hr hn', Arch.decode_vmmMakePte hphys
      (or_vmmPresent flags), hgrown.lookup r hr n hn']

/-- `vmm_unmap_page` removes the entry of one page of one context, if there is one. -/
theorem Tables.vmmUnmapPage :
    ∃ res s', vmmUnmapPage arch hhdm v (some ctx) va = some (res, { v with pmm := s' }) ∧
      Extended arch hhdm 3 v.pmm s' roots free free ∧
      ((res = 0 ∧ vmmLookup arch hhdm v.pmm ctx.rootPhys (pageNumber va) ≠ none ∧
          ∀ r ∈ roots, ∀ n < 2 ^ 35, vmmLookup arch hhdm s' r n =
            if r = ctx.rootPhys ∧ n = pageNumber va then none
            else vmmLookup arch hhdm v.pmm r n) ∨
        (res = -1 ∧ vmmLookup arch hhdm v.pmm ctx.rootPhys (pageNumber va) = none ∧
          s' = v.pmm)) := by
  rcases h.vmmUnmapPage_cases le_rfl hctx hva with ⟨hunmap, hnone⟩ | ⟨c, hunmap, hc, hpres⟩
  · exact ⟨-1, v.pmm, hunmap, Extended.refl h, Or.inr ⟨rfl, hnone, rfl⟩⟩
  · have hn := pageNumber_lt hva
    refine ⟨0, _, hunmap, h.setLeaf hh hctx.root hn hc, Or.inl ⟨rfl, ?_, fun r hr n hn' => ?_⟩⟩
    · rw [vmmLookup, hc, Option.bind_some, Arch.decode, if_pos hpres]
      simp
    · rw [h.leaf_lookup hh le_rfl (by decide) hctx.root hn hc hr hn', Arch.decode_zero]

end TablePage

/-- The walk that creates tables creates none if the other walk finds the entry. -/
theorem walkToLeafLoop_create {va leaf : Word} {level : ℕ} {s : Pmm} {table : Word}
    (h : walkToLeafLoop arch hhdm va false level s table = some (leaf, s)) (hleaf : leaf ≠ 0) :
    walkToLeafLoop arch hhdm va true level s table = some (leaf, s) := by
  induction level generalizing table with
  | zero => exact h
  | succ level ih =>
    rw [walkToLeafLoop] at h ⊢
    by_cases hpres : arch.vmmPteIsPresent (s.entry table (vmmIndex va (level + 1))) = true
    · simp only [Bool.false_eq_true, if_false, if_pos hpres, Option.bind_eq_bind, Option.bind_some]
        at h
      simp only [if_true, getOrCreateTable, if_pos hpres, Option.bind_eq_bind, Option.bind_some,
        Option.pure_def]
      split at h
      · rename_i hzero
        cases h
        exact absurd rfl hleaf
      · rename_i hne
        rw [if_neg hne]
        exact ih h
    · simp only [Bool.false_eq_true, if_false, if_neg hpres, Option.bind_eq_bind, Option.bind_some,
        if_true] at h
      cases h
      exact absurd rfl hleaf

/-- Mapping a page that is mapped needs no memory. -/
theorem Tables.vmmMapPage_mapped {v : Vmm} {ctx : VmmContext} {va : Word}
    (h : Tables arch hhdm 3 v.pmm roots free) (hctx : ContextIn hhdm roots ctx)
    (hva : va < vmmAddrSplit)
    (hmapped : vmmLookup arch hhdm v.pmm ctx.rootPhys (pageNumber va) ≠ none) (phys flags : Word) :
    ∃ s', Pros.vmmMapPage arch hhdm v (some ctx) va phys flags = some (0, { v with pmm := s' }) := by
  have hfind := h.walkToLeafSlot_find le_rfl hctx hva
  rw [h.walkToLeafSlot_eq hctx hva] at hfind
  cases hc : tableAt arch hhdm v.pmm ctx.rootPhys (tablePath (pageNumber va)) with
  | none =>
    rw [vmmLookup, hc] at hmapped
    exact absurd rfl hmapped
  | some c =>
    have hpage : IsPage hhdm c := h.page c
      ⟨_, hctx.root, _, lowerPath_tablePath (pageNumber_lt hva), hc⟩
    have hne := hpage.slotAddr_ne_zero (pageIdx (pageNumber va) 0)
    rw [hc, Option.elim_some] at hfind
    have hwalk := walkToLeafLoop_create hfind hne
    rw [← h.walkToLeafSlot_eq hctx hva true] at hwalk
    refine ⟨v.pmm.setSlot hhdm c (pageIdx (pageNumber va) 0)
      (arch.vmmMakePte phys (flags ||| vmmPresent) false), ?_⟩
    rw [Pros.vmmMapPage, hwalk]
    simp only [Option.bind_eq_bind, Option.bind_some, if_neg hne]
    rfl

/-- Writing to a page that is neither a table nor free. -/
theorem Tables.writeFrame (hh : HhdmOk hhdm) (h : Tables arch hhdm 3 s roots free) {f : Word}
    (hf : IsPage hhdm f) (hfree : f ∉ free) (hnode : ¬ Node arch hhdm 3 s roots f)
    (hhead : s'.freeListHead = s.freeListHead)
    (hmem : ∀ x, ¬ (x - pmmPhysToVirt hhdm f).toNat < 4096 → s'.mem x = s.mem x) :
    Elsewhere arch hhdm 3 s s' roots free := by
  refine .of_agreeOn (h.list.of_write hh hf hfree hhead hmem) h.fits (fun t ht x hx => ?_) h.used
  exact hmem x fun hxf => hf.apart hh (h.page t ht) (fun e => hnode (e ▸ ht)) x hxf hx

/-! ## New contexts -/

/-- From `s` to `s'` page `z` became a root with an empty lower half. -/
structure NewRoot (hhdm : Word) (s s' : Pmm) (z : Word) : Prop where
  lower : ∀ j : Fin 512, j.val < 256 → s'.slot hhdm z j = 0
  mem : ∀ x, ¬ (x - pmmPhysToVirt hhdm z).toNat < 4096 → s'.mem x = s.mem x
  maxPhysAddr : s'.maxPhysAddr = s.maxPhysAddr

/-- Copying kernel entries writes to the upper half of one page. -/
theorem copyKernelEntries_spec (hhdm : Word) (s : Pmm) (z kernelRootVirt : Word) :
    (copyKernelEntries s (pmmPhysToVirt hhdm z) kernelRootVirt).freeListHead = s.freeListHead ∧
      (copyKernelEntries s (pmmPhysToVirt hhdm z) kernelRootVirt).maxPhysAddr = s.maxPhysAddr ∧
      (∀ j : Fin 512, j.val < 256 →
        (copyKernelEntries s (pmmPhysToVirt hhdm z) kernelRootVirt).slot hhdm z j =
          s.slot hhdm z j) ∧
      ∀ x, ¬ (x - pmmPhysToVirt hhdm z).toNat < 4096 →
        (copyKernelEntries s (pmmPhysToVirt hhdm z) kernelRootVirt).mem x = s.mem x := by
  rw [copyKernelEntries]
  have hrange : ∀ k ∈ List.range 256, k < 256 := fun k => List.mem_range.mp
  generalize List.range 256 = ks at hrange
  induction ks generalizing s with
  | nil => exact ⟨rfl, rfl, fun _ _ => rfl, fun _ _ => rfl⟩
  | cons k ks ih =>
    have hk := hrange k List.mem_cons_self
    -- one round is a write to slot `256 + k`
    have hset : ∀ w, s.setEntry (pmmPhysToVirt hhdm z) (BitVec.ofNat 64 (256 + k)) w =
        s.setSlot hhdm z ⟨256 + k, by omega⟩ w := fun w => rfl
    obtain ⟨hhead, hmax, hslot, hmem⟩ := ih
      (s.setEntry (pmmPhysToVirt hhdm z) (BitVec.ofNat 64 (256 + k))
        (s.entry kernelRootVirt (BitVec.ofNat 64 (256 + k))))
      fun k' hk' => hrange k' (List.mem_cons_of_mem _ hk')
    refine ⟨hhead, hmax, fun j hj => (hslot j hj).trans ?_, fun x hx => (hmem x hx).trans ?_⟩
    · rw [hset]
      refine ByteMem.load64_store64_of_apart (Pros.apart_slot ?_)
      rintro rfl
      exact absurd hj (by simp)
    · rw [hset]
      exact setSlot_mem_of_not_mem hx

/-- A new root is the first free page. -/
theorem FreeList.archVmmNewContextRoot (arch : Arch) (hh : HhdmOk hhdm)
    (h : FreeList hhdm s free) (kernelRoot : Word) :
    (free = [] ∧ archVmmNewContextRoot arch hhdm s kernelRoot = some (0, s)) ∨
    ∃ z free' s', free = z :: free' ∧
      Pros.archVmmNewContextRoot arch hhdm s kernelRoot = some (z, s') ∧ FreeList hhdm s' free' ∧
      NewRoot hhdm s s' z := by
  unfold Pros.archVmmNewContextRoot
  rcases h.newTable hh with ⟨hnil, hfail⟩ | ⟨z, free', s', rfl, hsome, hlist, hz⟩
  · left
    refine ⟨hnil, ?_⟩
    rw [hfail]
    rfl
  · right
    have hpage := h.page z List.mem_cons_self
    simp only [hsome, Option.bind_eq_bind, Option.bind_some, if_neg hpage.ne_zero]
    cases arch with
    | x86_64 =>
      obtain ⟨hhead, hmax, hslot, hmem⟩ :=
        copyKernelEntries_spec hhdm s' z (pmmPhysToVirt hhdm kernelRoot)
      refine ⟨z, free', _, rfl, rfl, ?_, fun j hj => ?_, fun x hx => ?_, ?_⟩
      · exact hlist.of_write hh hpage (List.nodup_cons.mp h.nodup).1 hhead hmem
      · rw [hslot j hj, hz.slot]
      · rw [hmem x hx, hz.mem x hx]
      · rw [hmax, hz.maxPhysAddr]
    | aarch64 =>
      exact ⟨z, free', s', rfl, rfl, hlist, fun j _ => hz.slot j, hz.mem, hz.maxPhysAddr⟩

/-- Nothing is below the new root. -/
theorem NewRoot.tableAt_eq_some (hnew : NewRoot hhdm s s' z) {q : List (Fin 512)}
    (hq : LowerPath d q) (ht : tableAt arch hhdm s' z q = some t) : q = [] ∧ t = z := by
  cases q with
  | nil => exact ⟨rfl, (Option.some.inj ht).symm⟩
  | cons j q =>
    rw [tableAt, descend_cons, hnew.lower j (hq.2 j rfl), Arch.child_zero] at ht
    cases ht

/-- A new context maps no page. -/
theorem NewRoot.lookup (hnew : NewRoot hhdm s s' z) (hn : n < 2 ^ 35) :
    vmmLookup arch hhdm s' z n = none := by
  have hq := lowerPath_tablePath hn
  rw [vmmLookup]
  cases ht : tableAt arch hhdm s' z (tablePath n) with
  | none => exact Option.bind_none _
  | some t => exact absurd (hnew.tableAt_eq_some hq ht).1 (by simp [tablePath_eq])

section AddRoot

variable (hh : HhdmOk hhdm) (hd : 3 ≤ d) (hd' : d ≤ 4)
variable (h : Tables arch hhdm d s roots (z :: free)) (hlist : FreeList hhdm s' free)
variable (hnew : NewRoot hhdm s s' z)

include hh hd h hlist hnew

theorem Tables.addRoot_elsewhere : Elsewhere arch hhdm d s s' roots free := by
  refine .of_agreeOn hlist (fun p hp => h.fits p (List.mem_cons_of_mem z hp)) (fun t ht x hx => ?_)
    fun t ht hmem => h.used t ht (List.mem_cons_of_mem z hmem)
  exact hnew.mem x fun hxz => (h.list.page z List.mem_cons_self).apart hh
    (h.page t (ht.mono hd)) (h.ne_of_node (ht.mono hd)).symm x hxz hx

include hd'

theorem Tables.addRoot_node :
    Node arch hhdm d s' (z :: roots) t ↔ Node arch hhdm d s roots t ∨ t = z := by
  rw [← (h.addRoot_elsewhere hh hd hlist hnew).node hd']
  constructor
  · rintro ⟨r, hr, q, hq, ht⟩
    rcases List.mem_cons.mp hr with rfl | hr
    · exact Or.inr (hnew.tableAt_eq_some hq ht).2
    · exact Or.inl ⟨r, hr, q, hq, ht⟩
  · rintro (⟨r, hr, q, hq, ht⟩ | rfl)
    · exact ⟨r, List.mem_cons_of_mem z hr, q, hq, ht⟩
    · exact ⟨t, List.mem_cons_self, [], lowerPath_nil, rfl⟩

theorem Tables.addRoot : Tables arch hhdm d s' (z :: roots) free := by
  have hold := h.congr hd' (fun _ hr => hr) (h.addRoot_elsewhere hh hd hlist hnew)
  have hnode := fun {t} => h.addRoot_node (t := t) hh hd hd' hlist hnew
  have hnodup := List.nodup_cons.mp h.list.nodup
  refine ⟨hlist, hold.fits, ?_, fun t ht => ?_, fun t ht hmem => ?_⟩
  · refine (hold.forest.addRoot (z := z) (fun r q hr hq hu => ?_) fun j q hq => ?_).mono
      fun r q u hr _ hu => ⟨List.mem_cons.mp hr, hu⟩
    · exact h.ne_of_node (((h.addRoot_elsewhere hh hd hlist hnew).node hd').mp
        ⟨r, hr, q, hq, hu⟩) rfl
    · rw [hnew.lower j (hq.2 j rfl), Arch.child_zero]
  · rcases hnode.mp ht with ht | rfl
    · exact h.page t ht
    · exact h.list.page t List.mem_cons_self
  · rcases hnode.mp ht with ht | rfl
    · exact h.used t ht (List.mem_cons_of_mem z hmem)
    · exact hnodup.1 hmem

end AddRoot

/-- Giving the page of a root back leaves the other trees alone. -/
theorem Tables.freeRoot (hh : HhdmOk hhdm) (hd : 3 ≤ d) (h : Tables arch hhdm d s (z :: roots) free)
    (hnot : z ∉ roots) (hfits : arch.FitsPte z) :
    Elsewhere arch hhdm d s (pmmFree hhdm s z 1) roots (z :: free) := by
  have hself : tableAt arch hhdm s z [] = some z := rfl
  have hznode : Node arch hhdm d s (z :: roots) z := ⟨z, List.mem_cons_self, [], lowerPath_nil, hself⟩
  have hz := h.page z hznode
  have hup : ∀ t, Node arch hhdm d s roots t → Node arch hhdm d s (z :: roots) t :=
    fun t ⟨r, hr, q, hq, ht⟩ => ⟨r, List.mem_cons_of_mem z hr, q, hq, ht⟩
  have hne : ∀ t, Node arch hhdm d s roots t → t ≠ z := by
    rintro t ⟨r, hr, q, hq, ht⟩ rfl
    obtain ⟨rfl, -⟩ := h.forest.unique (List.mem_cons_of_mem t hr) List.mem_cons_self hq
      lowerPath_nil ht hself
    exact hnot hr
  refine .of_agreeOn (h.list.free_one hh hz (h.used z hznode)) (fun p hp => ?_)
    (fun t ht x hx => ?_) fun t ht hmem => ?_
  · rcases List.mem_cons.mp hp with rfl | hp
    · exact hfits
    · exact h.fits p hp
  · refine pmmFree_one_mem hz.ne_zero fun hxz => ?_
    have ht := ht.mono hd
    exact hz.apart hh (h.page t (hup t ht)) (hne t ht).symm x (by omega) hx
  · rcases List.mem_cons.mp hmem with rfl | hmem
    · exact hne t ht rfl
    · exact h.used t (hup t ht) hmem

/-- The value of a new `struct vmm_context`. -/
def newContext (hhdm root : Word) : VmmContext :=
  { rootPhys := root
    rootVirt := pmmPhysToVirt hhdm root
    demandPageLo := 0
    demandPageHi := 0 }

/-- What a call of `vmm_create_context` that returns did: there was no page, `kmalloc` failed and
the root was given back, or the context is the new root. -/
theorem FreeList.vmmCreateContext (hh : HhdmOk hhdm) {v v' : Vmm} {c : Option VmmContext}
    {kmalloc : Pmm → Option (Word × Pmm)} (h : FreeList hhdm v.pmm free)
    (hres : vmmCreateContext arch hhdm kmalloc v = some (c, v')) :
    (free = [] ∧ c = none ∧ v' = v) ∨
    ∃ z free' pmm ptr pmm', free = z :: free' ∧
      Pros.archVmmNewContextRoot arch hhdm v.pmm (archVmmGetKernelRoot arch v) = some (z, pmm) ∧
      FreeList hhdm pmm free' ∧ NewRoot hhdm v.pmm pmm z ∧
      kmalloc pmm = some (ptr, pmm') ∧
      ((c = none ∧ v' = { v with pmm := pmmFree hhdm pmm' z 1 }) ∨
        (c = some (newContext hhdm z) ∧ v' = { v with pmm := pmm' })) := by
  unfold Pros.vmmCreateContext at hres
  rcases h.archVmmNewContextRoot arch hh (archVmmGetKernelRoot arch v) with
    ⟨hnil, hfail⟩ | ⟨z, free', pmm, rfl, hsome, hlist, hnew⟩
  · left
    rw [hfail] at hres
    cases hres
    exact ⟨hnil, rfl, rfl⟩
  · right
    have hpage := h.page z List.mem_cons_self
    simp only [hsome, Option.bind_eq_bind, Option.bind_some, if_neg hpage.ne_zero] at hres
    cases hk : kmalloc pmm with
    | none => simp [hk] at hres
    | some r =>
      obtain ⟨ptr, pmm'⟩ := r
      refine ⟨z, free', pmm, ptr, pmm', rfl, hsome, hlist, hnew, hk, ?_⟩
      simp only [hk, Option.bind_some] at hres
      by_cases hptr : ptr = 0
      · rw [if_pos hptr] at hres
        cases hres
        exact Or.inl ⟨rfl, rfl⟩
      · rw [if_neg hptr] at hres
        cases hres
        exact Or.inr ⟨rfl, rfl⟩

/-- The page of a new root was free, so the heap does not see it being filled. -/
theorem Allocators.Inv.newRoot (hh : HhdmOk hhdm) {k : Allocators} {bs : List HeapBlk}
    (h : k.Inv hhdm bs free) {kernelRoot : Word}
    (hroot : archVmmNewContextRoot arch hhdm k.pmm kernelRoot = some (z, s)) (hz : z ≠ 0) :
    ∃ free', free = z :: free' ∧ Allocators.Inv hhdm { k with pmm := s } bs free' := by
  rcases h.list.archVmmNewContextRoot arch hh kernelRoot with
    ⟨-, hfail⟩ | ⟨z', free', s', rfl, hsome, hlist, hnew⟩
  · cases hfail.symm.trans hroot
    exact absurd rfl hz
  cases hsome.symm.trans hroot
  refine ⟨free', rfl, h.elsewhere hlist (fun p hp hp' => ?_) fun x hx => hnew.mem x fun hxz => ?_⟩
  · exact h.apart p hp (List.mem_cons_of_mem _ hp')
  · exact h.not_inPages hh List.mem_cons_self hxz hx

/-- What the kernel's own `kmalloc` does when `vmm_create_context` calls it: it takes the pages `new`
from the free list, and it writes neither to the new root nor to any page that is in use elsewhere. -/
theorem Allocators.Inv.kmallocOn_newRoot (hh : HhdmOk hhdm) {k : Allocators} {bs : List HeapBlk}
    (h : k.Inv hhdm bs free) {kernelRoot size ptr : Word}
    (hroot : archVmmNewContextRoot arch hhdm k.pmm kernelRoot = some (z, s)) (hz : z ≠ 0)
    (hcall : k.kmallocOn hhdm size s = some (ptr, s')) :
    ∃ k' new free', Allocators.kmalloc hhdm { k with pmm := s } size = some (ptr, k') ∧
      k'.pages = new ++ k.pages ∧ free.Perm (z :: (new ++ free')) ∧ FreeList hhdm s' free' ∧
      ∀ t, IsPage hhdm t → t ∉ k.pages → (t ∈ free → t = z) →
        ByteMem.AgreeOn s.mem s'.mem (pmmPhysToVirt hhdm t) 4096 := by
  obtain ⟨free₁, rfl, hinv⟩ := h.newRoot hh hroot hz
  have hznot := (List.nodup_cons.mp h.list.nodup).1
  obtain ⟨p, k', bs', new, free', hk, hinv', htook, -⟩ := hinv.kmalloc hh size
  rw [Allocators.kmallocOn, hk] at hcall
  cases hcall
  refine ⟨k', new, free', hk, htook.pages, htook.perm.cons z, hinv'.list, fun t ht hpages hfree => ?_⟩
  refine fun x hx => htook.mem x fun q hq hxq => ?_
  have hne : t ≠ q := by
    rintro rfl
    rw [htook.pages, List.append_assoc, List.mem_append, List.mem_append] at hq
    have htz : t ∈ free₁ → False := fun hmem =>
      hznot (hfree (List.mem_cons_of_mem _ hmem) ▸ hmem)
    rcases hq with hq | hq | hq
    · exact htz (htook.perm.mem_iff.mpr (List.mem_append_left _ hq))
    · exact hpages hq
    · exact htz (htook.perm.mem_iff.mpr (List.mem_append_right _ hq))
  have hqpage : IsPage hhdm q := by
    rcases List.mem_append.mp hq with hq | hq
    · exact hinv'.heap.page q hq
    · exact hinv'.list.page q hq
  exact ht.apart hh hqpage hne x hx hxq

end Pros
