import Pros.Lib.Radix
import Pros.Pmm.FreeList
import Pros.Vmm.Pte

/-!
# The forest of page tables

The lower halves of all contexts are a forest in the sense of `Radix.Forest`: a node is a physical
page, an index is a number below 512, and a present entry points to a child. Depth 3 reaches the
tables that hold the entries of pages, depth 4 reaches the frames as well; the invariant `Tables`
has the depth as a parameter, since frames may be shared and tables may not.
-/

namespace Pros

open Radix

/-! ## Indices -/

/-- Index of page number `n` in its table at the given level. -/
def pageIdx (n level : ℕ) : Fin 512 := ⟨n / 512 ^ level % 512, Nat.mod_lt _ (by decide)⟩

/-- The indices of page number `n` from the given level down to level 1. -/
def pathBelow (n : ℕ) : ℕ → List (Fin 512)
  | 0 => []
  | level + 1 => pageIdx n (level + 1) :: pathBelow n level

/-- The indices that lead from a root to the table of page number `n`. -/
def tablePath (n : ℕ) : List (Fin 512) := pathBelow n (vmmLevels - 1)

/-- Page number of an address. -/
def pageNumber (va : Word) : ℕ := va.toNat / 4096

/-- A path in the lower half, of at most `d` indices. -/
def LowerPath (d : ℕ) (p : List (Fin 512)) : Prop := p.length ≤ d ∧ ∀ i ∈ p.head?, i.val < 256

theorem vmmIndex_eq (va : Word) (level : ℕ) :
    vmmIndex va level = BitVec.ofNat 64 (pageIdx (pageNumber va) level) := by
  have hmask : ∀ x : Word, (x &&& (bit vmmLevelBits - 1)).toNat = x.toNat % 512 := by
    intro x
    rw [BitVec.toNat_and]
    exact Nat.and_two_pow_sub_one_eq_mod x.toNat 9
  apply BitVec.eq_of_toNat_eq
  have hpow : 2 ^ (12 + level * 9) = 4096 * 512 ^ level := by
    rw [pow_add, mul_comm level 9, pow_mul]
    norm_num
  have hlt : (pageIdx (pageNumber va) level).val < 2 ^ 64 := by omega
  rw [vmmIndex, hmask, BitVec.toNat_ushiftRight, Nat.shiftRight_eq_div_pow, hpow,
    ← Nat.div_div_eq_div_mul, BitVec.toNat_ofNat, Nat.mod_eq_of_lt hlt]
  rfl

theorem tablePath_eq (n : ℕ) : tablePath n = [pageIdx n 3, pageIdx n 2, pageIdx n 1] := rfl

/-- The four indices determine the page number. -/
theorem eq_of_pageIdx_eq {n m : ℕ} (hn : n < 2 ^ 35) (hm : m < 2 ^ 35)
    (hpath : tablePath n = tablePath m) (hleaf : pageIdx n 0 = pageIdx m 0) : n = m := by
  simp only [tablePath_eq, List.cons.injEq, and_true, pageIdx, Fin.mk.injEq] at hpath hleaf
  omega

theorem length_tablePath (n : ℕ) : (tablePath n).length = 3 := rfl

theorem LowerPath.shorten {d : ℕ} {p q : List (Fin 512)} (h : LowerPath d (p ++ q)) :
    LowerPath d p := by
  obtain ⟨hlen, hhead⟩ := h
  rw [List.length_append] at hlen
  refine ⟨by omega, fun i hi => hhead i ?_⟩
  cases p with
  | nil => simp at hi
  | cons j p => simpa using hi

theorem LowerPath.mono {d d' : ℕ} {p : List (Fin 512)} (h : LowerPath d p) (hd : d ≤ d') :
    LowerPath d' p :=
  ⟨h.1.trans hd, h.2⟩

/-- The table of a slot that a path of depth 4 reads lies at depth 3. -/
theorem LowerPath.of_slot {p : List (Fin 512)} {j : Fin 512} (h : LowerPath 4 (p ++ [j])) :
    LowerPath 3 p := by
  refine ⟨?_, h.shorten.2⟩
  have hlen := h.1
  rw [List.length_append, List.length_singleton] at hlen
  omega

theorem lowerPath_cons {d : ℕ} {i : Fin 512} {p : List (Fin 512)} :
    LowerPath (d + 1) (i :: p) ↔ i.val < 256 ∧ p.length ≤ d := by
  simp [LowerPath, and_comm]

theorem lowerPath_nil {d : ℕ} : LowerPath d [] := ⟨Nat.zero_le _, by simp⟩

/-- The path to the entry of a page. -/
theorem lowerPath_leaf {n : ℕ} (hn : n < 2 ^ 35) : LowerPath 4 (tablePath n ++ [pageIdx n 0]) := by
  refine ⟨le_rfl, fun i hi => ?_⟩
  obtain rfl : pageIdx n 3 = i := by simpa [tablePath_eq] using hi
  simp only [pageIdx]
  omega

theorem lowerPath_tablePath {n : ℕ} (hn : n < 2 ^ 35) : LowerPath 3 (tablePath n) :=
  (lowerPath_leaf hn).of_slot

/-! ## Slots -/

/-- The page that an entry points to. -/
def Arch.child (arch : Arch) (pte : Word) : Option Word :=
  if arch.vmmPteIsPresent pte then some (arch.vmmPteGetPhys pte) else none

/-- Entry `i` of the table in page `t`. -/
def Pmm.slot (hhdm : Word) (s : Pmm) (t : Word) (i : Fin 512) : Word :=
  s.entry (pmmPhysToVirt hhdm t) (BitVec.ofNat 64 i)

variable {arch : Arch} {hhdm t u z v : Word} {s s' s'' : Pmm} {i j : Fin 512}

@[simp]
theorem Arch.child_zero : arch.child 0 = none := by
  rw [Arch.child, Arch.vmmPteIsPresent_zero]
  rfl

theorem Arch.child_vmmMakePte {phys flags : Word} (h : arch.FitsPte phys)
    (hflags : flags &&& vmmPresent ≠ 0) (isTable : Bool) :
    arch.child (arch.vmmMakePte phys flags isTable) = some phys := by
  rw [Arch.child, if_pos (Arch.vmmPteIsPresent_vmmMakePte h hflags isTable),
    Arch.vmmPteGetPhys_vmmMakePte h]

/-- The bytes of a slot are bytes of its page. -/
theorem mem_page_of_mem_slot {a x : Word} (i : Fin 512)
    (h : (x - (a + 8 * BitVec.ofNat 64 i)).toNat < 8) : (x - a).toNat < 4096 := by
  have hi := i.isLt
  generalize i.val = k at h hi
  bv_omega

theorem apart_slot {a : Word} (h : j ≠ i) :
    ByteMem.Apart (a + 8 * BitVec.ofNat 64 i) 8 (a + 8 * BitVec.ofNat 64 j) 8 := by
  intro x hx hx'
  have hi := i.isLt
  have hj := j.isLt
  have hne : j.val ≠ i.val := fun e => h (Fin.ext e)
  generalize i.val = k at hx hi hne
  generalize j.val = l at hx' hj hne
  bv_omega

/-- Slots of table pages do not overlap. -/
theorem IsPage.apart_slot (hh : HhdmOk hhdm) (ht : IsPage hhdm t) (hu : IsPage hhdm u)
    (hne : u = t → j ≠ i) :
    ByteMem.Apart (pmmPhysToVirt hhdm t + 8 * BitVec.ofNat 64 i) 8
      (pmmPhysToVirt hhdm u + 8 * BitVec.ofNat 64 j) 8 := by
  by_cases hut : u = t
  · subst hut
    exact Pros.apart_slot (hne rfl)
  · intro x hx hx'
    exact ht.apart hh hu (fun e => hut e.symm) x (mem_page_of_mem_slot i hx)
      (mem_page_of_mem_slot j hx')

/-- Store `v` in slot `i` of page `t`. -/
def Pmm.setSlot (hhdm : Word) (s : Pmm) (t : Word) (i : Fin 512) (v : Word) : Pmm :=
  s.setEntry (pmmPhysToVirt hhdm t) (BitVec.ofNat 64 i) v

@[simp]
theorem slot_setSlot_self : (s.setSlot hhdm t i v).slot hhdm t i = v :=
  ByteMem.load64_store64_self _ _ _

theorem slot_setSlot_of_ne (hh : HhdmOk hhdm) (ht : IsPage hhdm t) (hu : IsPage hhdm u)
    (hne : u = t → j ≠ i) : (s.setSlot hhdm t i v).slot hhdm u j = s.slot hhdm u j :=
  ByteMem.load64_store64_of_apart (ht.apart_slot hh hu hne)

theorem setSlot_mem_of_not_mem {x : Word} (hx : ¬ (x - pmmPhysToVirt hhdm t).toNat < 4096) :
    (s.setSlot hhdm t i v).mem x = s.mem x :=
  ByteMem.store64_apply_of_apart fun h => hx (mem_page_of_mem_slot i h)

theorem slot_clearPage : (s.clearPage (pmmPhysToVirt hhdm t)).slot hhdm t i = 0 := by
  refine ByteMem.load64_memset_zero fun k hk => ?_
  have hslot := mem_page_of_mem_slot i (a := pmmPhysToVirt hhdm t)
    (x := pmmPhysToVirt hhdm t + 8 * BitVec.ofNat 64 i + BitVec.ofNat 64 k)
    (by rw [ByteMem.toNat_add_ofNat_sub _ (by omega)]; exact hk)
  exact hslot

/-- Slots only depend on the bytes of their page. -/
theorem slot_congr (h : ByteMem.AgreeOn s.mem s'.mem (pmmPhysToVirt hhdm t) 4096) :
    s'.slot hhdm t i = s.slot hhdm t i :=
  ByteMem.AgreeOn.load64_eq fun x hx => h x (mem_page_of_mem_slot i hx)

/-- Apart from the links of the free pages, a memory made by hand is empty. -/
theorem freePmm_slot (hh : HhdmOk hhdm) {ps : List Word} (hpage : ∀ p ∈ ps, IsPage hhdm p)
    (ht : IsPage hhdm t) (hnot : t ∉ ps) (i : Fin 512) : (freePmm hhdm ps).slot hhdm t i = 0 := by
  induction ps with
  | nil =>
    simp only [Pmm.slot, Pmm.entry, freePmm, linkPages, ByteMem.load64]
    rfl
  | cons p ps ih =>
    rw [List.mem_cons, not_or] at hnot
    refine Eq.trans ?_ (ih (fun q hq => hpage q (List.mem_cons_of_mem p hq)) hnot.2)
    have hp := hpage p List.mem_cons_self
    refine slot_congr fun x hx => ByteMem.store64_apply_of_apart fun hxp => ?_
    exact hp.apart hh ht (Ne.symm hnot.1) x (by omega) hx

/-- From `s` to `s'` page `z` was filled with zeros. -/
structure Zeroed (hhdm : Word) (s s' : Pmm) (z : Word) : Prop where
  slot : ∀ j, s'.slot hhdm z j = 0
  mem : ∀ x, ¬ (x - pmmPhysToVirt hhdm z).toNat < 4096 → s'.mem x = s.mem x
  maxPhysAddr : s'.maxPhysAddr = s.maxPhysAddr

/-- A new table is the first free page, filled with zeros. -/
theorem FreeList.newTable {ps : List Word} (hh : HhdmOk hhdm) (h : FreeList hhdm s ps) :
    (ps = [] ∧ newTable hhdm s = some (0, s)) ∨
    ∃ z ps' s', ps = z :: ps' ∧ Pros.newTable hhdm s = some (z, s') ∧ FreeList hhdm s' ps' ∧
      Zeroed hhdm s s' z := by
  unfold Pros.newTable
  rcases h.alloc_one hh with ⟨hnil, hnone⟩ | ⟨z, ps', s', rfl, hsome, hlist, hmax, hmem⟩
  · exact Or.inl ⟨hnil, by rw [hnone]; rfl⟩
  · right
    have hz : IsPage hhdm z := h.page z List.mem_cons_self
    have hout : ∀ x, ¬ (x - pmmPhysToVirt hhdm z).toNat < 4096 →
        (s'.clearPage (pmmPhysToVirt hhdm z)).mem x = s.mem x := fun x hx =>
      (if_neg hx).trans (congrFun hmem x)
    refine ⟨z, ps', s'.clearPage (pmmPhysToVirt hhdm z), rfl, ?_, ?_,
      fun j => slot_clearPage, hout, hmax⟩
    · simp only [hsome, Option.bind_eq_bind, Option.bind_some, if_neg hz.ne_zero]
      rfl
    · refine hlist.of_write hh hz (List.nodup_cons.mp h.nodup).1 rfl fun x hx => ?_
      rw [hout x hx, hmem]

/-! ## The invariant -/

/-- The frame and the flags of a present entry. -/
def Arch.decode (arch : Arch) (pte : Word) : Option (Word × Word) :=
  if arch.vmmPteIsPresent pte then some (arch.vmmPteGetPhys pte, arch.vmmPteGetFlags pte) else none

@[simp]
theorem Arch.decode_zero : arch.decode 0 = none := by
  rw [Arch.decode, Arch.vmmPteIsPresent_zero]
  rfl

theorem Arch.decode_vmmMakePte {phys flags : Word} (h : arch.FitsPte phys)
    (hflags : flags &&& vmmPresent ≠ 0) :
    arch.decode (arch.vmmMakePte phys flags false) = some (phys, flags &&& 31) := by
  rw [Arch.decode, if_pos (Arch.vmmPteIsPresent_vmmMakePte h hflags false),
    Arch.vmmPteGetPhys_vmmMakePte h, Arch.vmmPteGetFlags_vmmMakePte h]

section

variable (arch hhdm)

/-- The page reached from `root` along a path. -/
def tableAt (s : Pmm) (root : Word) (path : List (Fin 512)) : Option Word :=
  descend arch.child (s.slot hhdm) root path

/-- The frame and the flags that the tables below `root` hold for page number `n`. -/
def vmmLookup (s : Pmm) (root : Word) (n : ℕ) : Option (Word × Word) :=
  (tableAt arch hhdm s root (tablePath n)).bind fun t => arch.decode (s.slot hhdm t (pageIdx n 0))

/-- `t` is a page of the forest. -/
def Node (d : ℕ) (s : Pmm) (roots : List Word) (t : Word) : Prop :=
  ∃ r ∈ roots, ∃ p, LowerPath d p ∧ tableAt arch hhdm s r p = some t

/-- The lower halves below `roots` are a forest of pages, none of which is free. -/
structure Tables (d : ℕ) (s : Pmm) (roots free : List Word) : Prop where
  list : FreeList hhdm s free
  fits : ∀ p ∈ free, arch.FitsPte p
  forest : Forest arch.child (s.slot hhdm) (· ∈ roots) (LowerPath d)
  page : ∀ t, Node arch hhdm d s roots t → IsPage hhdm t
  used : ∀ t, Node arch hhdm d s roots t → t ∉ free

/-- From `s` to `s'` the forest was extended by the first pages of the free list, and neither memory
outside the tables nor the upper halves of the roots changed. -/
structure Extended (d : ℕ) (s s' : Pmm) (roots free free' : List Word) : Prop where
  tables : Tables arch hhdm d s' roots free'
  taken : ∃ new, free = new ++ free' ∧
    ∀ t, Node arch hhdm d s' roots t ↔ Node arch hhdm d s roots t ∨ t ∈ new
  mem : ∀ x, (∀ t, Node arch hhdm 3 s' roots t → ¬ (x - pmmPhysToVirt hhdm t).toNat < 4096) →
    s'.mem x = s.mem x
  upper : ∀ r ∈ roots, ∀ j : Fin 512, 256 ≤ j.val → s'.slot hhdm r j = s.slot hhdm r j
  tableMono : ∀ t, Node arch hhdm 3 s roots t → Node arch hhdm 3 s' roots t
  maxPhysAddr : s'.maxPhysAddr = s.maxPhysAddr

/-- From `s` to `s'` only empty tables were added. -/
structure Grown (d : ℕ) (s s' : Pmm) (roots free free' : List Word) : Prop extends
    Extended arch hhdm d s s' roots free free' where
  mono : ∀ r ∈ roots, ∀ q t, LowerPath d q → tableAt arch hhdm s r q = some t →
    tableAt arch hhdm s' r q = some t
  lookup : ∀ r ∈ roots, ∀ n < 2 ^ 35, vmmLookup arch hhdm s' r n = vmmLookup arch hhdm s r n

end

variable {d : ℕ} {r : Word} {p : List (Fin 512)} {roots free free' free'' : List Word}

theorem Extended.refl (h : Tables arch hhdm d s roots free) :
    Extended arch hhdm d s s roots free free :=
  ⟨h, ⟨[], rfl, by simp⟩, fun _ _ => rfl, fun _ _ _ _ => rfl, fun _ ht => ht, rfl⟩

theorem Extended.trans (h : Extended arch hhdm d s s' roots free free')
    (h' : Extended arch hhdm d s' s'' roots free' free'') :
    Extended arch hhdm d s s'' roots free free'' := by
  obtain ⟨new, rfl, hnode⟩ := h.taken
  obtain ⟨new', rfl, hnode'⟩ := h'.taken
  refine ⟨h'.tables, ⟨new ++ new', by simp, fun t => ?_⟩, fun x hx => ?_, fun r hr j hj => ?_,
    fun t ht => ?_, ?_⟩
  · rw [hnode', hnode, List.mem_append, or_assoc]
  · exact (h'.mem x hx).trans (h.mem x fun t ht => hx t (h'.tableMono t ht))
  · exact (h'.upper r hr j hj).trans (h.upper r hr j hj)
  · exact h'.tableMono t (h.tableMono t ht)
  · exact h'.maxPhysAddr.trans h.maxPhysAddr

theorem Grown.refl (h : Tables arch hhdm d s roots free) :
    Grown arch hhdm d s s roots free free :=
  ⟨Extended.refl h, fun _ _ _ _ _ ht => ht, fun _ _ _ _ => rfl⟩

theorem Grown.trans (h : Grown arch hhdm d s s' roots free free')
    (h' : Grown arch hhdm d s' s'' roots free' free'') :
    Grown arch hhdm d s s'' roots free free'' :=
  ⟨h.toExtended.trans h'.toExtended,
    fun r hr q t hq ht => h'.mono r hr q t hq (h.mono r hr q t hq ht),
    fun r hr n hn => (h'.lookup r hr n hn).trans (h.lookup r hr n hn)⟩

theorem Node.mono {d' : ℕ} (h : Node arch hhdm d s roots t) (hd : d ≤ d') :
    Node arch hhdm d' s roots t := by
  obtain ⟨r, hr, q, hq, ht⟩ := h
  exact ⟨r, hr, q, hq.mono hd, ht⟩

/-- A change of one slot of a table, and of memory that no path reads, is a change of one slot in
the sense of the forest. -/
theorem Tables.onlySlot (hh : HhdmOk hhdm) (hd : 3 ≤ d) (h : Tables arch hhdm d s roots free)
    (ht : IsPage hhdm t)
    (hkeep : ∀ u, Node arch hhdm 3 s roots u → ∀ j, s'.slot hhdm u j = s.slot hhdm u j) :
    OnlySlot arch.child (s.slot hhdm) ((s'.setSlot hhdm t i v).slot hhdm) (· ∈ roots)
      (LowerPath 4) t i := by
  intro r p u j hr hp hu hne
  have hnode : Node arch hhdm 3 s roots u := ⟨r, hr, p, hp.of_slot, hu⟩
  rw [slot_setSlot_of_ne hh ht (h.page u (hnode.mono hd)) hne]
  exact hkeep u hnode j

/-! ## Growing -/

/-- `t` is the table at path `p` below root `r`, and `i` one of its indices in the lower half. -/
structure TableSite (arch : Arch) (hhdm : Word) (s : Pmm) (roots : List Word) (r : Word)
    (p : List (Fin 512)) (i : Fin 512) (t : Word) : Prop where
  root : r ∈ roots
  path : LowerPath 3 (p ++ [i])
  table : tableAt arch hhdm s r p = some t

theorem TableSite.lowerPath (h : TableSite arch hhdm s roots r p i t) (hd : 3 ≤ d) :
    LowerPath d p :=
  h.path.shorten.mono hd

theorem TableSite.node (h : TableSite arch hhdm s roots r p i t) (hd : 3 ≤ d) :
    Node arch hhdm d s roots t :=
  ⟨r, h.root, p, h.lowerPath hd, h.table⟩

section Link

/-! An empty slot of a table is pointed to the first free page, which was filled with zeros. -/

variable (hh : HhdmOk hhdm) (hd : 3 ≤ d) (hd' : d ≤ 4)
variable (h : Tables arch hhdm d s roots (z :: free))
variable (hsite : TableSite arch hhdm s roots r p i t)
variable (hnone : arch.child (s.slot hhdm t i) = none) (hz : Zeroed hhdm s s' z)
variable (hchild : arch.child v = some z)

include h in
theorem Tables.ne_of_node (hu : Node arch hhdm d s roots u) : u ≠ z := fun e =>
  h.used u hu (e ▸ List.mem_cons_self)

include hh hd h hsite hz in
theorem Tables.link_onlySlot :
    OnlySlot arch.child (s.slot hhdm) ((s'.setSlot hhdm t i v).slot hhdm) (· ∈ roots)
      (LowerPath 4) t i := by
  refine h.onlySlot hh hd (h.page t (hsite.node hd)) fun u hu j =>
    slot_congr fun x hx => hz.mem x fun hxz => ?_
  have hu := hu.mono hd
  exact (h.list.page z List.mem_cons_self).apart hh (h.page u hu) (h.ne_of_node hu).symm x hxz hx

include hh hd h hsite hz in
theorem Tables.link_slot_new (j : Fin 512) : (s'.setSlot hhdm t i v).slot hhdm z j = 0 := by
  rw [slot_setSlot_of_ne hh (h.page t (hsite.node hd)) (h.list.page z List.mem_cons_self)
    fun e => absurd e.symm (h.ne_of_node (hsite.node hd)), hz.slot]

include hh hd hd' h hsite hnone hz hchild in
theorem Tables.link_forest :
    Forest arch.child ((s'.setSlot hhdm t i v).slot hhdm) (· ∈ roots) (LowerPath d) ∧
    ∀ r' ∈ roots, ∀ q, LowerPath d q → tableAt arch hhdm (s'.setSlot hhdm t i v) r' q =
      if r' = r ∧ q = p ++ [i] then some z else tableAt arch hhdm s r' q := by
  have honly := h.link_onlySlot (v := v) hh hd hsite hz
  have hsome : arch.child ((s'.setSlot hhdm t i v).slot hhdm t i) = some z := by
    rw [slot_setSlot_self, hchild]
  have hleaf : ∀ j q, LowerPath d (p ++ i :: j :: q) →
      arch.child ((s'.setSlot hhdm t i v).slot hhdm z j) = none := fun j q _ => by
    rw [h.link_slot_new hh hd hsite hz, Arch.child_zero]
  have hslot : ∀ q, LowerPath d q → LowerPath 4 q := fun q hq => hq.mono hd'
  refine ⟨?_, fun r' hr' q hq => ?_⟩
  · exact h.forest.link hslot honly hsite.root (hsite.lowerPath hd) hsite.table hnone hsome hleaf
      fun r' q hr' hq hu => h.ne_of_node ⟨r', hr', q, hq, hu⟩ rfl
  · exact h.forest.descend_link hslot honly hsite.root (hsite.lowerPath hd) hsite.table hnone hsome
      hleaf hr' hq

include hsite hnone in
theorem TableSite.tableAt_concat_eq_none : tableAt arch hhdm s r (p ++ [i]) = none :=
  (descend_concat_of_eq hsite.table).trans hnone

include hh hd hd' h hsite hnone hz hchild in
theorem Tables.link_tableAt_mono (hr : u ∈ roots) {q : List (Fin 512)} (hq : LowerPath d q)
    {w : Word} (hu : tableAt arch hhdm s u q = some w) :
    tableAt arch hhdm (s'.setSlot hhdm t i v) u q = some w := by
  rw [(h.link_forest hh hd hd' hsite hnone hz hchild).2 u hr q hq, if_neg, hu]
  rintro ⟨rfl, rfl⟩
  rw [hsite.tableAt_concat_eq_none hnone] at hu
  cases hu

include hh hd hd' h hsite hnone hz hchild in
theorem Tables.link_tableAt_new :
    tableAt arch hhdm (s'.setSlot hhdm t i v) r (p ++ [i]) = some z := by
  rw [(h.link_forest hh hd hd' hsite hnone hz hchild).2 r hsite.root _ (hsite.path.mono hd),
    if_pos ⟨rfl, rfl⟩]

include hh hd hd' h hsite hnone hz hchild in
theorem Tables.link_node :
    Node arch hhdm d (s'.setSlot hhdm t i v) roots u ↔ Node arch hhdm d s roots u ∨ u = z := by
  constructor
  · rintro ⟨r', hr', q, hq, hu⟩
    rw [(h.link_forest hh hd hd' hsite hnone hz hchild).2 r' hr' q hq] at hu
    split at hu
    · exact Or.inr (Option.some.inj hu).symm
    · exact Or.inl ⟨r', hr', q, hq, hu⟩
  · rintro (⟨r', hr', q, hq, hu⟩ | rfl)
    · exact ⟨r', hr', q, hq, h.link_tableAt_mono hh hd hd' hsite hnone hz hchild hr' hq hu⟩
    · exact ⟨r, hsite.root, p ++ [i], hsite.path.mono hd,
        h.link_tableAt_new hh hd hd' hsite hnone hz hchild⟩

include hh hd hd' h hsite hnone hz hchild in
/-- The new table is empty, and its slot lies above the tables of pages. -/
theorem Tables.link_lookup (hr : u ∈ roots) {n : ℕ} (hn : n < 2 ^ 35) :
    vmmLookup arch hhdm (s'.setSlot hhdm t i v) u n = vmmLookup arch hhdm s u n := by
  have hq := (lowerPath_tablePath hn).mono hd
  rw [vmmLookup, vmmLookup, (h.link_forest hh hd hd' hsite hnone hz hchild).2 u hr _ hq]
  split
  · rename_i hnew
    rw [hnew.1, hnew.2, hsite.tableAt_concat_eq_none hnone, Option.bind_some,
      h.link_slot_new hh hd hsite hz, Arch.decode_zero, Option.bind_none]
  · cases hw : tableAt arch hhdm s u (tablePath n) with
    | none => rw [Option.bind_none, Option.bind_none]
    | some w =>
      have hkeep := h.link_onlySlot (v := v) hh hd hsite hz u (tablePath n) w (pageIdx n 0) hr
        (lowerPath_leaf hn) hw
      rw [Option.bind_some, Option.bind_some, hkeep fun hwt _ => ?_]
      have hpath := (h.forest.unique hr hsite.root hq (hsite.lowerPath hd) hw
        (hwt ▸ hsite.table)).2
      have hlen := hsite.path.1
      rw [List.length_append, ← hpath, length_tablePath] at hlen
      simp at hlen

include hh hd h hsite hz in
/-- A slot of a table that is a root lies in its lower half. -/
theorem Tables.link_upper (hr : u ∈ roots) (hj : 256 ≤ j.val) :
    (s'.setSlot hhdm t i v).slot hhdm u j = s.slot hhdm u j := by
  have hu : Node arch hhdm d s roots u := ⟨u, hr, [], lowerPath_nil, rfl⟩
  have hne : u = t → j ≠ i := by
    rintro rfl rfl
    obtain ⟨-, rfl⟩ := h.forest.unique hsite.root hr (hsite.lowerPath hd) lowerPath_nil hsite.table
      rfl
    exact absurd (hsite.path.2 j rfl) (not_lt.mpr hj)
  rw [slot_setSlot_of_ne hh (h.page t (hsite.node hd)) (h.page u hu) hne]
  exact slot_congr fun x hx => hz.mem x fun hxz =>
    (h.list.page z List.mem_cons_self).apart hh (h.page u hu) (h.ne_of_node hu).symm x hxz hx

include hh hd hd' h hsite hnone hz hchild in
theorem Tables.link (hlist : FreeList hhdm s' free) :
    Grown arch hhdm d s (s'.setSlot hhdm t i v) roots (z :: free) free := by
  have hnodes := fun {u} => h.link_node (u := u) hh hd hd' hsite hnone hz hchild
  have ht := hsite.node hd
  have htpage := h.page t ht
  have htables : ∀ u, Node arch hhdm 3 s roots u →
      Node arch hhdm 3 (s'.setSlot hhdm t i v) roots u := fun u ⟨r', hr', q, hq, hu⟩ =>
    ⟨r', hr', q, hq, h.link_tableAt_mono hh hd hd' hsite hnone hz hchild hr' (hq.mono hd) hu⟩
  have hznode : Node arch hhdm 3 (s'.setSlot hhdm t i v) roots z :=
    ⟨r, hsite.root, _, hsite.path, h.link_tableAt_new hh hd hd' hsite hnone hz hchild⟩
  refine ⟨⟨⟨?_, ?_, ?_, ?_, ?_⟩, ⟨[z], rfl, fun u => ?_⟩, ?_,
    fun _ hr _ hj => h.link_upper hh hd hsite hz hr hj, htables, hz.maxPhysAddr⟩, ?_, ?_⟩
  · exact hlist.of_write hh htpage (fun hmem => h.used t ht (List.mem_cons_of_mem z hmem)) rfl
      fun x hx => setSlot_mem_of_not_mem hx
  · exact fun q hq => h.fits q (List.mem_cons_of_mem z hq)
  · exact (h.link_forest hh hd hd' hsite hnone hz hchild).1
  · intro u hu
    rcases hnodes.mp hu with hu | rfl
    · exact h.page u hu
    · exact h.list.page u List.mem_cons_self
  · intro u hu hfree
    rcases hnodes.mp hu with hu | rfl
    · exact h.used u hu (List.mem_cons_of_mem z hfree)
    · exact (List.nodup_cons.mp h.list.nodup).1 hfree
  · rw [hnodes, List.mem_singleton]
  · intro x hx
    rw [setSlot_mem_of_not_mem (hx t (htables t (hsite.node le_rfl))), hz.mem x (hx z hznode)]
  · exact fun r' hr' q u hq hu => h.link_tableAt_mono hh hd hd' hsite hnone hz hchild hr' hq hu
  · exact fun r' hr' n hn => h.link_lookup hh hd hd' hsite hnone hz hchild hr' hn

end Link

/-! ## The walk -/

/-- Address of slot `i` of the table in page `t`. -/
def slotAddr (hhdm t : Word) (i : Fin 512) : Word := pmmPhysToVirt hhdm t + 8 * BitVec.ofNat 64 i

theorem IsPage.slotAddr_ne_zero (ht : IsPage hhdm t) (i : Fin 512) : slotAddr hhdm t i ≠ 0 := by
  have hv := ht.toNat_virt
  have hw := ht.noWrap
  have hne := ht.virt_ne_zero
  have hi := i.isLt
  rw [slotAddr]
  generalize pmmPhysToVirt hhdm t = a at hv hne ⊢
  generalize i.val = k at hi ⊢
  bv_omega

/-- `get_or_create_table` finds a table, is out of memory, or makes an empty table. -/
theorem FreeList.getOrCreateTable (arch : Arch) (hh : HhdmOk hhdm) (h : FreeList hhdm s free)
    (t : Word) (i : Fin 512) :
    (∃ c, arch.child (s.slot hhdm t i) = some c ∧
      getOrCreateTable arch hhdm s (pmmPhysToVirt hhdm t) (BitVec.ofNat 64 i) =
        some (pmmPhysToVirt hhdm c, s)) ∨
    (arch.child (s.slot hhdm t i) = none ∧ free = [] ∧
      getOrCreateTable arch hhdm s (pmmPhysToVirt hhdm t) (BitVec.ofNat 64 i) = some (0, s)) ∨
    ∃ z free' s', arch.child (s.slot hhdm t i) = none ∧ free = z :: free' ∧
      FreeList hhdm s' free' ∧ Zeroed hhdm s s' z ∧
      getOrCreateTable arch hhdm s (pmmPhysToVirt hhdm t) (BitVec.ofNat 64 i) =
        some (pmmPhysToVirt hhdm z, s'.setSlot hhdm t i
          (arch.vmmMakePte z (vmmPresent ||| vmmWritable ||| vmmUser) true)) := by
  unfold Pros.getOrCreateTable
  by_cases hpres : arch.vmmPteIsPresent (s.slot hhdm t i) = true
  · exact Or.inl ⟨_, if_pos hpres, if_pos hpres⟩
  · have hnone : arch.child (s.slot hhdm t i) = none := if_neg hpres
    rcases h.newTable hh with ⟨hnil, hfail⟩ | ⟨z, free', s', rfl, hsome, hlist, hz⟩
    · refine Or.inr (Or.inl ⟨hnone, hnil, (if_neg hpres).trans ?_⟩)
      rw [hfail]
      rfl
    · refine Or.inr (Or.inr ⟨z, free', s', hnone, rfl, hlist, hz, (if_neg hpres).trans ?_⟩)
      simp only [hsome, Option.bind_eq_bind, Option.bind_some,
        if_neg (h.page z List.mem_cons_self).ne_zero]
      rfl

/-- `get_or_create_table` fails only when no page is free. -/
theorem Tables.getOrCreateTable (hh : HhdmOk hhdm) (hd : 3 ≤ d) (hd' : d ≤ 4)
    (h : Tables arch hhdm d s roots free) (hsite : TableSite arch hhdm s roots r p i t) :
    (getOrCreateTable arch hhdm s (pmmPhysToVirt hhdm t) (BitVec.ofNat 64 i) = some (0, s) ∧
      free = []) ∨
    ∃ c s' free', getOrCreateTable arch hhdm s (pmmPhysToVirt hhdm t) (BitVec.ofNat 64 i) =
        some (pmmPhysToVirt hhdm c, s') ∧
      Grown arch hhdm d s s' roots free free' ∧ tableAt arch hhdm s' r (p ++ [i]) = some c := by
  rcases h.list.getOrCreateTable arch hh t i with
    ⟨c, hc, hget⟩ | ⟨-, hnil, hget⟩ | ⟨z, free', s', hnone, rfl, hlist, hz, hget⟩
  · exact Or.inr ⟨c, s, free, hget, Grown.refl h, (descend_concat_of_eq hsite.table).trans hc⟩
  · exact Or.inl ⟨hget, hnil⟩
  · have hchild : arch.child (arch.vmmMakePte z (vmmPresent ||| vmmWritable ||| vmmUser) true) =
        some z := Arch.child_vmmMakePte (h.fits z List.mem_cons_self) (by decide) true
    exact Or.inr ⟨z, _, free', hget, h.link hh hd hd' hsite hnone hz hchild hlist,
      h.link_tableAt_new hh hd hd' hsite hnone hz hchild⟩

/-- The walk that creates missing tables, from any level down. -/
theorem Tables.walkToLeafLoop (hh : HhdmOk hhdm) (hd : 3 ≤ d) (hd' : d ≤ 4) {va : Word}
    {n level : ℕ} (hva : pageNumber va = n) (hn : n < 2 ^ 35) (h : Tables arch hhdm d s roots free)
    (hr : r ∈ roots) (hpath : tablePath n = p ++ pathBelow n level)
    (ht : tableAt arch hhdm s r p = some t) :
    (∃ s', walkToLeafLoop arch hhdm va true level s (pmmPhysToVirt hhdm t) = some (0, s') ∧
      Grown arch hhdm d s s' roots free []) ∨
    ∃ c s' free', walkToLeafLoop arch hhdm va true level s (pmmPhysToVirt hhdm t) =
        some (slotAddr hhdm c (pageIdx n 0), s') ∧
      Grown arch hhdm d s s' roots free free' ∧
      tableAt arch hhdm s' r (tablePath n) = some c := by
  induction level generalizing s p t free with
  | zero =>
    right
    rw [pathBelow, List.append_nil] at hpath
    refine ⟨t, s, free, ?_, Grown.refl h, hpath ▸ ht⟩
    rw [Pros.walkToLeafLoop, vmmIndex_eq, hva]
    rfl
  | succ level ih =>
    have hsplit : tablePath n = (p ++ [pageIdx n (level + 1)]) ++ pathBelow n level := by
      rw [hpath, pathBelow, List.append_assoc, List.singleton_append]
    have hsite : TableSite arch hhdm s roots r p (pageIdx n (level + 1)) t :=
      ⟨hr, (hsplit ▸ lowerPath_tablePath hn).shorten, ht⟩
    rw [Pros.walkToLeafLoop, vmmIndex_eq, hva]
    rcases h.getOrCreateTable hh hd hd' hsite with
      ⟨hfail, rfl⟩ | ⟨c, s', free', hget, hgrown, hc⟩
    · refine Or.inl ⟨s, ?_, Grown.refl h⟩
      simp only [if_true, hfail, Option.bind_eq_bind, Option.bind_some]
      rfl
    · have hcnode : Node arch hhdm d s' roots c :=
        ⟨r, hr, _, hsite.path.mono hd, hc⟩
      simp only [if_true, hget, Option.bind_eq_bind, Option.bind_some,
        if_neg (hgrown.tables.page c hcnode).virt_ne_zero]
      rcases ih hgrown.tables hsplit hc with
        ⟨s'', hwalk, hgrown'⟩ | ⟨c', s'', free'', hwalk, hgrown', hc'⟩
      · exact Or.inl ⟨s'', hwalk, hgrown.trans hgrown'⟩
      · exact Or.inr ⟨c', s'', free'', hwalk, hgrown.trans hgrown', hc'⟩

/-- The walk that does not create tables, from any level down. -/
theorem Tables.walkToLeafLoop_find (hd : 3 ≤ d) {va : Word} {n level : ℕ}
    (hva : pageNumber va = n) (hn : n < 2 ^ 35) (h : Tables arch hhdm d s roots free)
    (hr : r ∈ roots) (hpath : tablePath n = p ++ pathBelow n level)
    (ht : tableAt arch hhdm s r p = some t) :
    Pros.walkToLeafLoop arch hhdm va false level s (pmmPhysToVirt hhdm t) =
      some ((tableAt arch hhdm s r (tablePath n)).elim 0 (slotAddr hhdm · (pageIdx n 0)), s) := by
  induction level generalizing p t with
  | zero =>
    rw [pathBelow, List.append_nil] at hpath
    rw [Pros.walkToLeafLoop, vmmIndex_eq, hva, hpath, ht]
    rfl
  | succ level ih =>
    have hsplit : tablePath n = (p ++ [pageIdx n (level + 1)]) ++ pathBelow n level := by
      rw [hpath, pathBelow, List.append_assoc, List.singleton_append]
    have hnext : tableAt arch hhdm s r (p ++ [pageIdx n (level + 1)]) =
        arch.child (s.slot hhdm t (pageIdx n (level + 1))) := descend_concat_of_eq ht
    rw [Pros.walkToLeafLoop, vmmIndex_eq, hva]
    by_cases hpres : arch.vmmPteIsPresent (s.slot hhdm t (pageIdx n (level + 1))) = true
    · rw [Arch.child, if_pos hpres] at hnext
      have hnode : Node arch hhdm d s roots
          (arch.vmmPteGetPhys (s.slot hhdm t (pageIdx n (level + 1)))) :=
        ⟨r, hr, _, (hsplit ▸ lowerPath_tablePath hn).shorten.mono hd, hnext⟩
      rw [← ih hsplit hnext]
      simp only [Bool.false_eq_true, if_false, Option.bind_eq_bind]
      rw [if_pos (show arch.vmmPteIsPresent (s.entry _ _) = true from hpres), Option.bind_some]
      exact if_neg (h.page _ hnode).virt_ne_zero
    · rw [Arch.child, if_neg hpres] at hnext
      have hnone : tableAt arch hhdm s r (tablePath n) = none := by
        rw [hsplit, tableAt, descend_append, show descend _ _ _ _ = _ from hnext, Option.bind_none]
      simp only [Bool.false_eq_true, if_false, Option.bind_eq_bind, hnone, Option.elim_none]
      rw [if_neg (show ¬ arch.vmmPteIsPresent (s.entry _ _) = true from hpres), Option.bind_some]
      rfl

end Pros
