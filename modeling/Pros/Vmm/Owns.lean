import Pros.Vmm.Operations

/-!
# Who owns which page

With the frames of its pages as the last level, a context is a tree of pages. `Owns` says that
every page the page allocator gave out is free, in the tree of the context, held by a caller or
used by the heap, and in one of these only. Each operation moves pages between them: `vmm_map_page`
takes a frame from its caller and tables from the free list, `vmm_unmap_page` gives the frame back.
-/

namespace Pros

open Radix

variable {arch : Arch} {hhdm r root t u w z : Word} {s s' : Pmm} {n : ℕ}
variable {roots free free' held heap : List Word}

/-! ## Frames in the forest -/

section Frame

variable (hh : HhdmOk hhdm) (h : Tables arch hhdm 4 s roots free) (hr : r ∈ roots)
variable (hn : n < 2 ^ 35) (ht : tableAt arch hhdm s r (tablePath n) = some t)

include hn in
theorem lowerPath_table4 : LowerPath 4 (tablePath n) := (lowerPath_leaf hn).shorten

include hh h hr hn ht in
theorem Tables.of_leaf
    (hforest : Forest arch.child ((s.setSlot hhdm t (pageIdx n 0) w).slot hhdm) (· ∈ roots)
      (LowerPath 4))
    (hpage : ∀ u, Node arch hhdm 4 (s.setSlot hhdm t (pageIdx n 0) w) roots u → IsPage hhdm u)
    (hused : ∀ u, Node arch hhdm 4 (s.setSlot hhdm t (pageIdx n 0) w) roots u → u ∉ free) :
    Tables arch hhdm 4 (s.setSlot hhdm t (pageIdx n 0) w) roots free := by
  have hnode : Node arch hhdm 4 s roots t := ⟨r, hr, _, lowerPath_table4 hn, ht⟩
  refine ⟨?_, h.fits, hforest, hpage, hused⟩
  exact h.list.of_write hh (h.page t hnode) (h.used t hnode) rfl fun x hx =>
    setSlot_mem_of_not_mem hx

include hh h hr hn ht in
/-- An entry of a page that gets a frame adds one path. -/
theorem Tables.mapFrame_forest (hnone : arch.child (s.slot hhdm t (pageIdx n 0)) = none)
    (hchild : arch.child w = some z) (hfresh : ¬ Node arch hhdm 4 s roots z) :
    Forest arch.child ((s.setSlot hhdm t (pageIdx n 0) w).slot hhdm) (· ∈ roots) (LowerPath 4) ∧
    ∀ r' ∈ roots, ∀ q, LowerPath 4 q →
      tableAt arch hhdm (s.setSlot hhdm t (pageIdx n 0) w) r' q =
        if r' = r ∧ q = tablePath n ++ [pageIdx n 0] then some z else tableAt arch hhdm s r' q := by
  have honly := h.leaf_onlySlot (i := pageIdx n 0) (w := w) hh (by decide) hr hn ht
  have hslot : ∀ q, LowerPath 4 q → LowerPath 4 q := fun _ hq => hq
  have hp := lowerPath_table4 hn
  have hsome : arch.child ((s.setSlot hhdm t (pageIdx n 0) w).slot hhdm t (pageIdx n 0)) =
      some z := by
    rw [slot_setSlot_self, hchild]
  -- a frame is at the end of its path
  have hleaf : ∀ j q, LowerPath 4 (tablePath n ++ pageIdx n 0 :: j :: q) →
      arch.child ((s.setSlot hhdm t (pageIdx n 0) w).slot hhdm z j) = none := fun j q hq => by
    have hlen := hq.1
    simp only [List.length_append, length_tablePath, List.length_cons] at hlen
    omega
  refine ⟨?_, fun r' hr' q hq =>
    h.forest.descend_link hslot honly hr hp ht hnone hsome hleaf hr' hq⟩
  exact h.forest.link hslot honly hr hp ht hnone hsome hleaf fun r' q hr' hq hu =>
    hfresh ⟨r', hr', q, hq, hu⟩

include hh h hr hn ht in
/-- Mapping a frame that no table and no entry has makes it a page of the forest. -/
theorem Tables.mapFrame (hnone : arch.child (s.slot hhdm t (pageIdx n 0)) = none)
    (hchild : arch.child w = some z) (hz : IsPage hhdm z) (hfree : z ∉ free)
    (hfresh : ¬ Node arch hhdm 4 s roots z) :
    Tables arch hhdm 4 (s.setSlot hhdm t (pageIdx n 0) w) roots free ∧
      ∀ u, Node arch hhdm 4 (s.setSlot hhdm t (pageIdx n 0) w) roots u ↔
        Node arch hhdm 4 s roots u ∨ u = z := by
  obtain ⟨hforest, hdesc⟩ := h.mapFrame_forest hh hr hn ht hnone hchild hfresh
  have hnodes : ∀ u, Node arch hhdm 4 (s.setSlot hhdm t (pageIdx n 0) w) roots u ↔
      Node arch hhdm 4 s roots u ∨ u = z := by
    intro u
    constructor
    · rintro ⟨r', hr', q, hq, hu⟩
      rw [hdesc r' hr' q hq] at hu
      split at hu
      · exact Or.inr (Option.some.inj hu).symm
      · exact Or.inl ⟨r', hr', q, hq, hu⟩
    · rintro (⟨r', hr', q, hq, hu⟩ | rfl)
      · refine ⟨r', hr', q, hq, ?_⟩
        rw [hdesc r' hr' q hq, if_neg, hu]
        rintro ⟨rfl, rfl⟩
        rw [show tableAt arch hhdm s r' _ = none from (descend_concat_of_eq ht).trans hnone] at hu
        cases hu
      · refine ⟨r, hr, _, lowerPath_leaf hn, ?_⟩
        rw [hdesc r hr _ (lowerPath_leaf hn), if_pos ⟨rfl, rfl⟩]
  refine ⟨h.of_leaf hh hr hn ht hforest (fun u hu => ?_) (fun u hu => ?_), hnodes⟩
  · rcases (hnodes u).mp hu with hu | rfl
    · exact h.page u hu
    · exact hz
  · rcases (hnodes u).mp hu with hu | rfl
    · exact h.used u hu
    · exact hfree

include hh h hr hn ht in
/-- Changing the flags of a mapping changes nothing in the forest. -/
theorem Tables.remapFrame (hsame : arch.child w = arch.child (s.slot hhdm t (pageIdx n 0))) :
    Tables arch hhdm 4 (s.setSlot hhdm t (pageIdx n 0) w) roots free ∧
      ∀ u, Node arch hhdm 4 (s.setSlot hhdm t (pageIdx n 0) w) roots u ↔
        Node arch hhdm 4 s roots u := by
  have honly := h.leaf_onlySlot (i := pageIdx n 0) (w := w) hh (by decide) hr hn ht
  have hdesc : ∀ r' ∈ roots, ∀ q, LowerPath 4 q →
      tableAt arch hhdm (s.setSlot hhdm t (pageIdx n 0) w) r' q = tableAt arch hhdm s r' q :=
    fun r' hr' q hq => h.forest.descend_relabel (fun _ hq => hq) honly
      (by rw [slot_setSlot_self, hsame]) hr' hq
  have hnodes : ∀ u, Node arch hhdm 4 (s.setSlot hhdm t (pageIdx n 0) w) roots u ↔
      Node arch hhdm 4 s roots u := by
    intro u
    constructor
    · rintro ⟨r', hr', q, hq, hu⟩
      exact ⟨r', hr', q, hq, by rwa [hdesc r' hr' q hq] at hu⟩
    · rintro ⟨r', hr', q, hq, hu⟩
      exact ⟨r', hr', q, hq, by rwa [hdesc r' hr' q hq]⟩
  refine ⟨h.of_leaf hh hr hn ht ?_ (fun u hu => h.page u ((hnodes u).mp hu))
    (fun u hu => h.used u ((hnodes u).mp hu)), hnodes⟩
  exact h.forest.mono fun r' q u hr' hq hu => ⟨hr', (hdesc r' hr' q hq).symm.trans hu⟩

include hh h hr hn ht in
/-- Clearing the entry of a page takes its frame, and nothing else, out of the forest. -/
theorem Tables.unmapFrame (hsome : arch.child (s.slot hhdm t (pageIdx n 0)) = some z) :
    Tables arch hhdm 4 (s.setSlot hhdm t (pageIdx n 0) 0) roots free ∧
      ∀ u, Node arch hhdm 4 (s.setSlot hhdm t (pageIdx n 0) 0) roots u ↔
        Node arch hhdm 4 s roots u ∧ u ≠ z := by
  have honly := h.leaf_onlySlot (i := pageIdx n 0) (w := 0) hh (by decide) hr hn ht
  have hslot : ∀ q, LowerPath 4 q → LowerPath 4 q := fun _ hq => hq
  have hleaf := lowerPath_leaf hn
  have hz : tableAt arch hhdm s r (tablePath n ++ [pageIdx n 0]) = some z :=
    (descend_concat_of_eq ht).trans hsome
  have hdesc : ∀ r' ∈ roots, ∀ q, LowerPath 4 q →
      tableAt arch hhdm (s.setSlot hhdm t (pageIdx n 0) 0) r' q =
        if r' = r ∧ tablePath n ++ [pageIdx n 0] <+: q then none else tableAt arch hhdm s r' q :=
    fun r' hr' q hq => h.forest.descend_unlink hslot honly hr (lowerPath_table4 hn) ht
      (by rw [slot_setSlot_self, Arch.child_zero]) hr' hq
  have hnodes : ∀ u, Node arch hhdm 4 (s.setSlot hhdm t (pageIdx n 0) 0) roots u ↔
      Node arch hhdm 4 s roots u ∧ u ≠ z := by
    intro u
    constructor
    · rintro ⟨r', hr', q, hq, hu⟩
      rw [hdesc r' hr' q hq] at hu
      split at hu
      · cases hu
      · rename_i hoff
        refine ⟨⟨r', hr', q, hq, hu⟩, ?_⟩
        rintro rfl
        obtain ⟨rfl, rfl⟩ := h.forest.unique hr' hr hq hleaf hu hz
        exact hoff ⟨rfl, List.prefix_rfl⟩
    · rintro ⟨⟨r', hr', q, hq, hu⟩, hne⟩
      refine ⟨r', hr', q, hq, ?_⟩
      rw [hdesc r' hr' q hq, if_neg, hu]
      rintro ⟨rfl, hpre⟩
      have hlen : q.length ≤ (tablePath n ++ [pageIdx n 0]).length := by
        simpa [length_tablePath] using hq.1
      rw [← hpre.eq_of_length_le hlen] at hu
      exact hne (Option.some.inj (hu.symm.trans hz))
  refine ⟨h.of_leaf hh hr hn ht ?_ (fun u hu => h.page u ((hnodes u).mp hu).1)
    (fun u hu => h.used u ((hnodes u).mp hu).1), hnodes⟩
  refine h.forest.mono fun r' q u hr' hq hu => ⟨hr', ?_⟩
  rw [show descend _ _ r' q = _ from hdesc r' hr' q hq] at hu
  split at hu
  · cases hu
  · exact hu

end Frame

/-! ## Who has which page -/

/-- Every page of `base` is free, in the tree below `root`, held by a caller or used by the heap,
and in one of these only. -/
structure Owns (arch : Arch) (hhdm root : Word) (base : Word → Prop) (heap : List Word) (s : Pmm)
    (held free : List Word) : Prop where
  tables : Tables arch hhdm 4 s [root] free
  account : ∀ p, base p ↔ p ∈ free ∨ Node arch hhdm 4 s [root] p ∨ p ∈ held ∨ p ∈ heap
  heldOnly : ∀ p ∈ held, p ∉ free ∧ ¬ Node arch hhdm 4 s [root] p
  heapOnly : ∀ p ∈ heap, p ∉ free ∧ ¬ Node arch hhdm 4 s [root] p ∧ p ∉ held
  nodup : held.Nodup

namespace Owns

variable {base : Word → Prop} (h : Owns arch hhdm root base heap s held free)

include h

/-- Tables are made of free pages. -/
theorem grow (hg : Extended arch hhdm 4 s s' [root] free free') :
    Owns arch hhdm root base heap s' held free' := by
  obtain ⟨new, rfl, hnode⟩ := hg.taken
  refine ⟨hg.tables, fun p => ?_, fun p hp => ?_, fun p hp => ?_, h.nodup⟩
  · rw [h.account, hnode, List.mem_append]
    tauto
  · have hheld := h.heldOnly p hp
    rw [List.mem_append] at hheld
    rw [hnode]
    tauto
  · have hheap := h.heapOnly p hp
    rw [List.mem_append] at hheap
    rw [hnode]
    tauto

/-- Pages `block` go from the free list to a caller. -/
theorem take {block : List Word} (he : Elsewhere arch hhdm 4 s s' [root] free')
    (hfree : ∀ p, p ∈ free ↔ p ∈ block ∨ p ∈ free') (hblock : block.Nodup)
    (hdisj : ∀ p ∈ block, p ∉ free') :
    Owns arch hhdm root base heap s' (block ++ held) free' := by
  have hnode := fun {t} => he.node (t := t) le_rfl
  refine ⟨h.tables.congr le_rfl (fun _ hr => hr) he, fun p => ?_, fun p hp => ?_, fun p hp => ?_, ?_⟩
  · rw [h.account, hnode, hfree, List.mem_append]
    tauto
  · rw [hnode]
    rcases List.mem_append.mp hp with hp | hp
    · exact ⟨hdisj p hp, fun hn => h.tables.used p hn ((hfree p).mpr (Or.inl hp))⟩
    · have hheld := h.heldOnly p hp
      rw [hfree] at hheld
      tauto
  · have hheap := h.heapOnly p hp
    rw [hfree] at hheap
    rw [hnode, List.mem_append]
    tauto
  · refine List.nodup_append.mpr ⟨hblock, h.nodup, ?_⟩
    rintro p hp _ hp' rfl
    exact (h.heldOnly p hp').1 ((hfree p).mpr (Or.inl hp))

/-- A held page goes to the free list. -/
theorem give {z : Word} (hz : z ∈ held) (he : Elsewhere arch hhdm 4 s s' [root] (z :: free)) :
    Owns arch hhdm root base heap s' (held.erase z) (z :: free) := by
  have hnode := fun {t} => he.node (t := t) le_rfl
  refine ⟨h.tables.congr le_rfl (fun _ hr => hr) he, fun p => ?_, fun p hp => ?_, fun p hp => ?_,
    h.nodup.erase z⟩
  · rw [h.account, hnode, List.mem_cons, h.nodup.mem_erase_iff]
    by_cases hpz : p = z
    · subst hpz
      tauto
    · tauto
  · rw [h.nodup.mem_erase_iff] at hp
    have hheld := h.heldOnly p hp.2
    rw [hnode, List.mem_cons]
    tauto
  · have hheap := h.heapOnly p hp
    have hne : p ≠ z := fun e => hheap.2.2 (e ▸ hz)
    rw [hnode, List.mem_cons, h.nodup.mem_erase_iff]
    tauto

/-- A held page becomes a page of the tree. -/
theorem handOver {z : Word} (hz : z ∈ held) (htables : Tables arch hhdm 4 s' [root] free)
    (hnode : ∀ u, Node arch hhdm 4 s' [root] u ↔ Node arch hhdm 4 s [root] u ∨ u = z) :
    Owns arch hhdm root base heap s' (held.erase z) free := by
  refine ⟨htables, fun p => ?_, fun p hp => ?_, fun p hp => ?_, h.nodup.erase z⟩
  · rw [h.account, hnode, h.nodup.mem_erase_iff]
    by_cases hpz : p = z
    · subst hpz
      tauto
    · tauto
  · rw [h.nodup.mem_erase_iff] at hp
    have hheld := h.heldOnly p hp.2
    rw [hnode]
    tauto
  · have hheap := h.heapOnly p hp
    have hne : p ≠ z := fun e => hheap.2.2 (e ▸ hz)
    rw [hnode, h.nodup.mem_erase_iff]
    tauto

/-- A page of the tree goes to a caller. -/
theorem takeBack {z : Word} (hz : Node arch hhdm 4 s [root] z)
    (htables : Tables arch hhdm 4 s' [root] free)
    (hnode : ∀ u, Node arch hhdm 4 s' [root] u ↔ Node arch hhdm 4 s [root] u ∧ u ≠ z) :
    Owns arch hhdm root base heap s' (z :: held) free := by
  refine ⟨htables, fun p => ?_, fun p hp => ?_, fun p hp => ?_, ?_⟩
  · rw [h.account, hnode, List.mem_cons]
    by_cases hpz : p = z
    · subst hpz
      tauto
    · tauto
  · rw [hnode]
    rcases List.mem_cons.mp hp with rfl | hp
    · exact ⟨h.tables.used p hz, by tauto⟩
    · have hheld := h.heldOnly p hp
      tauto
  · have hheap := h.heapOnly p hp
    have hne : p ≠ z := fun e => hheap.2.1 (e ▸ hz)
    rw [hnode, List.mem_cons]
    tauto
  · exact List.nodup_cons.mpr ⟨fun hmem => (h.heldOnly z hmem).2 hz, h.nodup⟩

/-- A change that keeps the nodes and the free pages. -/
theorem keep (htables : Tables arch hhdm 4 s' [root] free)
    (hnode : ∀ u, Node arch hhdm 4 s' [root] u ↔ Node arch hhdm 4 s [root] u) :
    Owns arch hhdm root base heap s' held free := by
  refine ⟨htables, fun p => ?_, fun p hp => ?_, fun p hp => ?_, h.nodup⟩
  · rw [h.account, hnode]
  · rw [hnode]
    exact h.heldOnly p hp
  · rw [hnode]
    exact h.heapOnly p hp

end Owns

/-! ## The operations -/

namespace Owns

variable {base : Word → Prop} {v : Vmm} {ctx : VmmContext} {va phys : Word}
variable (hh : HhdmOk hhdm) (hbase : ∀ p, base p → IsPage hhdm p ∧ arch.FitsPte p)

/-- Memory that is not in the tables may change while pages move between the free list and the
callers. -/
theorem elsewhere (h : Owns arch hhdm root base heap s held free) (hlist : FreeList hhdm s' free')
    (hfits : ∀ p ∈ free', arch.FitsPte p)
    (hmem : ∀ t, Node arch hhdm 3 s [root] t →
      ByteMem.AgreeOn s.mem s'.mem (pmmPhysToVirt hhdm t) 4096)
    (hused : ∀ p ∈ free', p ∈ free ∨ p ∈ held) : Elsewhere arch hhdm 4 s s' [root] free' := by
  refine .of_agreeOn hlist hfits hmem fun t ht hmem => ?_
  rcases hused t hmem with hfree | hheld
  · exact h.tables.used t ht hfree
  · exact (h.heldOnly t hheld).2 ht

include hh in
/-- `pmm_alloc` by anyone. -/
theorem pmmAlloc {count pageBase : Word} {pmm : Pmm}
    (h : Owns arch hhdm root base heap s held free) (hcount : count ≠ 0) (hne : pageBase ≠ 0)
    (hres : pmmAlloc hhdm s count = some (pageBase, pmm)) :
    ∃ free', Owns arch hhdm root base heap pmm (pmmBlock pageBase count.toNat ++ held) free' := by
  rcases h.tables.list.alloc hh hcount with
    ⟨hfail, -⟩ | ⟨pre, b, post, pmm', hfree, -, hsome, hlist, -, hmem⟩
  · cases hfail.symm.trans hres
    exact absurd rfl hne
  · obtain ⟨rfl, rfl⟩ := Prod.mk.inj (Option.some.inj (hsome.symm.trans hres))
    subst hfree
    have hnodup := h.tables.list.nodup
    simp only [List.nodup_append, List.mem_append, List.mem_reverse, List.nodup_reverse] at hnodup
    refine ⟨pre ++ post, h.take (h.elsewhere hlist (fun p hp => h.tables.fits p ?_)
      (fun t ht x hx => hmem x fun p hp hxp => ?_) fun p hp => Or.inl ?_) (fun p => ?_) hnodup.2.1.1
      fun p hp hmem => ?_⟩
    · simp only [List.mem_append] at hp ⊢
      tauto
    · -- the links that change are in free pages
      have hpfree : p ∈ pre ++ ((pmmBlock b count.toNat).reverse ++ post) :=
        List.mem_append_left _ hp
      have ht := ht.mono (show 3 ≤ 4 by decide)
      refine (h.tables.list.page p hpfree).apart hh (h.tables.page t ht) ?_ x (by omega) hx
      rintro rfl
      exact h.tables.used p ht hpfree
    · simp only [List.mem_append] at hp ⊢
      tauto
    · simp only [List.mem_append, List.mem_reverse]
      tauto
    · rcases List.mem_append.mp hmem with hpre | hpost
      · exact hnodup.2.2 p hpre p (Or.inl hp) rfl
      · exact hnodup.2.1.2.2 p hp p hpost rfl

include hh hbase in
/-- `pmm_free` of a held page. -/
theorem pmmFree {z : Word} (h : Owns arch hhdm root base heap s held free) (hz : z ∈ held) :
    Owns arch hhdm root base heap (pmmFree hhdm s z 1) (held.erase z) (z :: free) := by
  obtain ⟨hpage, hfits⟩ := hbase z ((h.account z).mpr (Or.inr (Or.inr (Or.inl hz))))
  obtain ⟨hfree, hnode⟩ := h.heldOnly z hz
  refine h.give hz (h.elsewhere (h.tables.list.free_one hh hpage hfree) (fun p hp => ?_)
    (fun t ht x hx => ?_) fun p hp => ?_)
  · rcases List.mem_cons.mp hp with rfl | hp
    · exact hfits
    · exact h.tables.fits p hp
  · have ht := ht.mono (show 3 ≤ 4 by decide)
    refine pmmFree_one_mem hpage.ne_zero fun hxz => ?_
    exact hpage.apart hh (h.tables.page t ht) (fun e => hnode (e ▸ ht)) x (by omega) hx
  · rcases List.mem_cons.mp hp with rfl | hp
    · exact Or.inr hz
    · exact Or.inl hp

include hh in
/-- A new zeroed page, held by the kernel for the moment. -/
theorem newTable {pmm : Pmm} (h : Owns arch hhdm root base heap s held free)
    (hres : newTable hhdm s = some (z, pmm)) (hz : z ≠ 0) :
    ∃ free', Owns arch hhdm root base heap pmm (z :: held) free' ∧
      ∀ n < 2 ^ 35, vmmLookup arch hhdm pmm root n = vmmLookup arch hhdm s root n := by
  rcases h.tables.list.newTable hh with ⟨-, hfail⟩ | ⟨z', free', pmm', rfl, hsome, hlist, hzero⟩
  · cases hfail.symm.trans hres
    exact absurd rfl hz
  · obtain ⟨rfl, rfl⟩ := Prod.mk.inj (Option.some.inj (hsome.symm.trans hres))
    have hnodup := List.nodup_cons.mp h.tables.list.nodup
    have he : Elsewhere arch hhdm 4 s pmm' [root] free' := by
      refine h.elsewhere hlist (fun p hp => h.tables.fits p (List.mem_cons_of_mem z' hp))
        (fun t ht x hx => hzero.mem x fun hxz => ?_) fun p hp => Or.inl (List.mem_cons_of_mem z' hp)
      have ht := ht.mono (show 3 ≤ 4 by decide)
      exact (h.tables.list.page z' List.mem_cons_self).apart hh (h.tables.page t ht)
        (h.tables.ne_of_node ht).symm x hxz hx
    have htake : Owns arch hhdm root base heap pmm' ([z'] ++ held) free' :=
      h.take he (by simp) (by simp) (by simpa using hnodup.1)
    exact ⟨free', htake, fun n hn => he.lookup List.mem_cons_self hn⟩

/-- A lookup reads the child of the entry. -/
theorem child_of_lookup (ht : tableAt arch hhdm s root (tablePath n) = some t) :
    arch.child (s.slot hhdm t (pageIdx n 0)) = (vmmLookup arch hhdm s root n).map Prod.fst := by
  rw [vmmLookup, ht, Option.bind_some, Arch.child, Arch.decode]
  split <;> rfl

section Page

variable (h : Owns arch hhdm root base heap v.pmm held free) (hctx : ContextIn hhdm [root] ctx)
variable (hva : va < vmmAddrSplit)

include hctx in
theorem rootPhys_eq : ctx.rootPhys = root := List.mem_singleton.mp hctx.root

include hh h hctx hva

include hbase in
/-- `vmm_map_page` hands a held frame over, or fails and leaves it with the caller. -/
theorem vmmMapPage (hphys : phys ∈ held)
    (hnone : vmmLookup arch hhdm v.pmm root (pageNumber va) = none) (flags : Word) :
    ∃ res v' free', vmmMapPage arch hhdm v (some ctx) va phys flags = some (res, v') ∧
      Owns arch hhdm root base heap v'.pmm (if res = 0 then held.erase phys else held) free' := by
  have hn := pageNumber_lt hva
  obtain ⟨hpage, hfits⟩ := hbase phys ((h.account phys).mpr (Or.inr (Or.inr (Or.inl hphys))))
  rcases h.tables.vmmMapPage_walk hh (by decide) le_rfl hctx hva phys flags with
    ⟨s', hmap, hgrown⟩ | ⟨c, s', free', hmap, hgrown, hc⟩
  · exact ⟨-1, _, [], hmap, h.grow hgrown.toExtended⟩
  · rw [rootPhys_eq hctx] at hc
    have hgrow := h.grow hgrown.toExtended
    have hempty : arch.child (s'.slot hhdm c (pageIdx (pageNumber va) 0)) = none := by
      rw [child_of_lookup hc, hgrown.lookup root List.mem_cons_self _ hn, hnone, Option.map_none]
    have hflags : (flags ||| vmmPresent) &&& vmmPresent ≠ 0 := or_vmmPresent flags
    obtain ⟨htables, hnode⟩ := hgrow.tables.mapFrame hh List.mem_cons_self hn hc hempty
      (Arch.child_vmmMakePte hfits hflags false) hpage (hgrow.heldOnly phys hphys).1
      (hgrow.heldOnly phys hphys).2
    exact ⟨0, _, free', hmap, hgrow.handOver hphys htables hnode⟩

/-- A failed `vmm_map_page` only adds tables. -/
theorem vmmMapPage_fail {flags : Word} {res : Int} {v' : Vmm}
    (hres : Pros.vmmMapPage arch hhdm v (some ctx) va phys flags = some (res, v')) (hne : res ≠ 0) :
    ∃ free', Owns arch hhdm root base heap v'.pmm held free' := by
  rcases h.tables.vmmMapPage_walk hh (by decide) le_rfl hctx hva phys flags with
    ⟨s', hmap, hgrown⟩ | ⟨c, s', free', hmap, -⟩
  · cases hmap.symm.trans hres
    exact ⟨[], h.grow hgrown.toExtended⟩
  · cases hmap.symm.trans hres
    exact absurd rfl hne

include hbase in
/-- Mapping a page again to its own frame only changes the flags. -/
theorem vmmMapPage_remap {old flags : Word} {res : Int} {v' : Vmm}
    (hsome : vmmLookup arch hhdm v.pmm root (pageNumber va) = some (phys, old))
    (hres : Pros.vmmMapPage arch hhdm v (some ctx) va phys flags = some (res, v')) :
    ∃ free', Owns arch hhdm root base heap v'.pmm held free' := by
  have hn := pageNumber_lt hva
  rcases h.tables.vmmMapPage_walk hh (by decide) le_rfl hctx hva phys flags with
    ⟨s', hmap, hgrown⟩ | ⟨c, s', free', hmap, hgrown, hc⟩
  · cases hmap.symm.trans hres
    exact ⟨[], h.grow hgrown.toExtended⟩
  · cases hmap.symm.trans hres
    rw [rootPhys_eq hctx] at hc
    have hgrow := h.grow hgrown.toExtended
    have hchild : arch.child (s'.slot hhdm c (pageIdx (pageNumber va) 0)) = some phys := by
      rw [child_of_lookup hc, hgrown.lookup root List.mem_cons_self _ hn, hsome, Option.map_some]
    have hnode : Node arch hhdm 4 s' [root] phys := ⟨root, List.mem_cons_self, _,
      lowerPath_leaf hn, (descend_concat_of_eq hc).trans hchild⟩
    have hfits := (hbase phys ((hgrow.account phys).mpr (Or.inr (Or.inl hnode)))).2
    obtain ⟨htables, hnodes⟩ := hgrow.tables.remapFrame
      (w := arch.vmmMakePte phys (flags ||| vmmPresent) false) hh List.mem_cons_self hn hc
      (by rw [hchild, Arch.child_vmmMakePte hfits (or_vmmPresent flags)])
    exact ⟨free', hgrow.keep htables hnodes⟩

/-- `vmm_unmap_page` hands the frame back to the caller. -/
theorem vmmUnmapPage :
    ∃ res v', vmmUnmapPage arch hhdm v (some ctx) va = some (res, v') ∧
      Owns arch hhdm root base heap v'.pmm
        (((vmmLookup arch hhdm v.pmm root (pageNumber va)).map Prod.fst).toList ++ held) free := by
  have hn := pageNumber_lt hva
  rcases h.tables.vmmUnmapPage_cases (by decide) hctx hva with
    ⟨hunmap, hnone⟩ | ⟨c, hunmap, hc, hpres⟩
  · rw [rootPhys_eq hctx] at hnone
    exact ⟨-1, v, hunmap, by rwa [hnone]⟩
  · rw [rootPhys_eq hctx] at hc
    have hchild : arch.child (v.pmm.slot hhdm c (pageIdx (pageNumber va) 0)) =
        some (arch.vmmPteGetPhys (v.pmm.slot hhdm c (pageIdx (pageNumber va) 0))) := if_pos hpres
    refine ⟨0, _, hunmap, ?_⟩
    rw [← child_of_lookup hc, hchild]
    obtain ⟨htables, hnode⟩ := h.tables.unmapFrame hh List.mem_cons_self hn hc hchild
    refine h.takeBack ⟨root, List.mem_cons_self, _, lowerPath_leaf hn, ?_⟩ htables hnode
    exact (descend_concat_of_eq hc).trans hchild

end Page

end Owns

end Pros
