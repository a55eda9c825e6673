import Mathlib

/-!
# Radix trees in a mutable memory

A node `t : P` has one entry `e t i : E` for each index `i : I`, and an entry may point to a child
node. Several trees, one for each root, live in one memory. A tree is followed along a list of
indices; which lists are followed is a parameter `ok`, closed under shortening.

`Forest` says that no node is reached twice. On a forest one write to one slot of one node changes
exactly the paths that go through this slot, which is what the lemmas here say for the three kinds
of write: a slot that keeps its child, a slot that gets a fresh empty child, a slot that loses its
child.

`below` lists a tree with every node after what is below it, the order in which a tree can be given
back node by node.
-/

namespace Radix

variable {P I E : Type*}

/-- The node reached from `t` along a path of indices. -/
def descend (child : E → Option P) (e : P → I → E) : P → List I → Option P
  | t, [] => some t
  | t, i :: path => (child (e t i)).bind fun u => descend child e u path

/-- Every node is reached from one root along one path only. -/
structure Forest (child : E → Option P) (e : P → I → E) (root : P → Prop)
    (ok : List I → Prop) : Prop where
  shorten : ∀ p q, ok (p ++ q) → ok p
  unique : ∀ {r r' p p' t}, root r → root r' → ok p → ok p' → descend child e r p = some t →
    descend child e r' p' = some t → r = r' ∧ p = p'

/-- Of the slots at the end of paths in `slot`, `e'` differs from `e` at most in slot `i` of `t`. -/
def OnlySlot (child : E → Option P) (e e' : P → I → E) (root : P → Prop) (slot : List I → Prop)
    (t : P) (i : I) : Prop :=
  ∀ r p u j, root r → slot (p ++ [j]) → descend child e r p = some u → (u = t → j ≠ i) →
    e' u j = e u j

variable {child : E → Option P} {e e' : P → I → E} {root root' : P → Prop}
variable {ok slot : List I → Prop}
variable {r r₀ t u z : P} {p p₀ q : List I} {i j : I}

@[simp]
theorem descend_nil : descend child e t [] = some t := rfl

theorem descend_cons : descend child e t (i :: p) = (child (e t i)).bind (descend child e · p) :=
  rfl

theorem descend_append :
    descend child e t (p ++ q) = (descend child e t p).bind (descend child e · q) := by
  induction p generalizing t with
  | nil => rfl
  | cons i p ih =>
    rw [List.cons_append, descend_cons, descend_cons, Option.bind_assoc]
    exact congrArg _ (funext fun u => ih)

theorem descend_concat :
    descend child e t (p ++ [i]) = (descend child e t p).bind fun u => child (e u i) := by
  rw [descend_append]
  refine congrArg _ (funext fun u => ?_)
  rw [descend_cons]
  exact Option.bind_fun_some _

theorem descend_concat_of_eq (h : descend child e t p = some u) :
    descend child e t (p ++ [i]) = child (e u i) := by
  rw [descend_concat, h, Option.bind_some]

/-- A path only depends on the entries along it. -/
theorem descend_congr_of
    (h : ∀ p j u, p ++ [j] <+: q → descend child e t p = some u → e' u j = e u j) :
    descend child e' t q = descend child e t q := by
  induction q using List.reverseRecOn with
  | nil => rfl
  | append_singleton q j ih =>
    have hq : descend child e' t q = descend child e t q :=
      ih fun p j' u hp hu => h p j' u (hp.trans (List.prefix_append q [j])) hu
    rw [descend_concat, descend_concat, hq]
    cases hu : descend child e t q with
    | none => rfl
    | some u => rw [Option.bind_some, Option.bind_some, h q j u List.prefix_rfl hu]

namespace Forest

/-! A write to slot `i` of node `t`, which lies at path `p₀` below root `r₀`. -/

section Write

variable (h : Forest child e root ok) (hslot : ∀ p, ok p → slot p)
variable (hw : OnlySlot child e e' root slot t i) (hr₀ : root r₀) (hp₀ : ok p₀)
variable (ht : descend child e r₀ p₀ = some t)

include h hslot hw hr₀ hp₀ ht

/-- Paths that do not go through the written slot stay. -/
theorem descend_off (hr : root r) (hq : ok q) (hoff : r = r₀ → ¬ p₀ ++ [i] <+: q) :
    descend child e' r q = descend child e r q := by
  refine descend_congr_of fun p j u hp hu => ?_
  have hokj : ok (p ++ [j]) := by
    obtain ⟨q', rfl⟩ := hp
    exact h.shorten _ _ hq
  refine hw r p u j hr (hslot _ hokj) hu ?_
  rintro rfl rfl
  obtain ⟨rfl, rfl⟩ := h.unique hr hr₀ (h.shorten _ _ hokj) hp₀ hu ht
  exact hoff rfl hp

/-- The path to the written slot stays. -/
theorem descend_to : descend child e' r₀ p₀ = some t := by
  rw [h.descend_off hslot hw hr₀ hp₀ ht hr₀ hp₀ fun _ hpre => ?_, ht]
  have hlen := hpre.length_le
  simp at hlen

/-- A path through the written slot goes on from the slot's new child. -/
theorem descend_through :
    descend child e' r₀ (p₀ ++ i :: q) = (child (e' t i)).bind (descend child e' · q) := by
  rw [descend_append, h.descend_to hslot hw hr₀ hp₀ ht]
  rfl

/-- Every other entry that is not below the written slot stays. -/
theorem entry_off (hr : root r) (hq : ok q) (hqj : slot (q ++ [j]))
    (hoff : r = r₀ → ¬ p₀ ++ [i] <+: q ++ [j]) :
    (descend child e' r q).map (e' · j) = (descend child e r q).map (e · j) := by
  rw [h.descend_off hslot hw hr₀ hp₀ ht hr hq fun hrr hpre =>
    hoff hrr (hpre.trans (List.prefix_append q [j]))]
  cases hu : descend child e r q with
  | none => rfl
  | some u =>
    refine congrArg some (hw r q u j hr hqj hu ?_)
    rintro rfl rfl
    obtain ⟨rfl, rfl⟩ := h.unique hr hr₀ hq hp₀ hu ht
    exact hoff rfl List.prefix_rfl

/-- Pointing an empty slot to a fresh childless node adds this node, and nothing else. -/
theorem descend_link [DecidableEq P] [DecidableEq I] (hnone : child (e t i) = none)
    (hsome : child (e' t i) = some z)
    (hleaf : ∀ j q, ok (p₀ ++ i :: j :: q) → child (e' z j) = none) (hr : root r) (hq : ok q) :
    descend child e' r q =
      if r = r₀ ∧ q = p₀ ++ [i] then some z else descend child e r q := by
  by_cases hthru : r = r₀ ∧ p₀ ++ [i] <+: q
  · obtain ⟨rfl, q', rfl⟩ := hthru
    rw [List.append_assoc, List.singleton_append] at hq ⊢
    rw [h.descend_through hslot hw hr₀ hp₀ ht, hsome, Option.bind_some]
    cases q' with
    | nil => simp
    | cons j q' =>
      have hold : descend child e r (p₀ ++ i :: j :: q') = none := by
        rw [descend_append, ht, Option.bind_some, descend_cons, hnone, Option.bind_none]
      rw [descend_cons, hleaf j q' hq, Option.bind_none, hold]
      simp
  · rw [h.descend_off hslot hw hr₀ hp₀ ht hr hq fun hrr hpre => hthru ⟨hrr, hpre⟩, if_neg]
    rintro ⟨rfl, rfl⟩
    exact hthru ⟨rfl, List.prefix_rfl⟩

/-- Pointing an empty slot to a fresh childless node keeps the forest. -/
theorem link (hnone : child (e t i) = none) (hsome : child (e' t i) = some z)
    (hleaf : ∀ j q, ok (p₀ ++ i :: j :: q) → child (e' z j) = none)
    (hfresh : ∀ r q, root r → ok q → descend child e r q ≠ some z) :
    Forest child e' root ok := by
  classical
  have hdesc : ∀ {r q}, root r → ok q → descend child e' r q =
      if r = r₀ ∧ q = p₀ ++ [i] then some z else descend child e r q :=
    fun hr hq => h.descend_link hslot hw hr₀ hp₀ ht hnone hsome hleaf hr hq
  refine ⟨h.shorten, fun {r r' q q' u} hr hr' hq hq' hu hu' => ?_⟩
  rw [hdesc hr hq] at hu
  rw [hdesc hr' hq'] at hu'
  split at hu
  · rename_i hnew
    split at hu'
    · rename_i hnew'
      exact ⟨hnew.1.trans hnew'.1.symm, hnew.2.trans hnew'.2.symm⟩
    · exact absurd (hu'.trans hu.symm) (hfresh r' q' hr' hq')
  · split at hu'
    · exact absurd (hu.trans hu'.symm) (hfresh r q hr hq)
    · exact h.unique hr hr' hq hq' hu hu'

/-- Clearing a slot cuts off the paths through it. -/
theorem descend_unlink [DecidableEq P] [DecidableEq I] (hnone : child (e' t i) = none)
    (hr : root r) (hq : ok q) :
    descend child e' r q =
      if r = r₀ ∧ p₀ ++ [i] <+: q then none else descend child e r q := by
  split
  · rename_i hthru
    obtain ⟨rfl, q', rfl⟩ := hthru
    rw [List.append_assoc, List.singleton_append, h.descend_through hslot hw hr₀ hp₀ ht, hnone,
      Option.bind_none]
  · rename_i hthru
    exact h.descend_off hslot hw hr₀ hp₀ ht hr hq fun hrr hpre => hthru ⟨hrr, hpre⟩

end Write

/-- Writing a slot without changing its child changes no path. -/
theorem descend_relabel (h : Forest child e root ok) (hslot : ∀ p, ok p → slot p)
    (hw : OnlySlot child e e' root slot t i) (hchild : child (e' t i) = child (e t i))
    (hr : root r) (hq : ok q) : descend child e' r q = descend child e r q := by
  induction q using List.reverseRecOn with
  | nil => rfl
  | append_singleton q j ih =>
    rw [descend_concat, descend_concat, ih (h.shorten _ _ hq)]
    cases hu : descend child e r q with
    | none => rfl
    | some u =>
      rw [Option.bind_some, Option.bind_some]
      by_cases hsame : u = t ∧ j = i
      · rw [hsame.1, hsame.2, hchild]
      · rw [hw r q u j hr (hslot _ hq) hu fun hut hji => hsame ⟨hut, hji⟩]

/-- A memory in which the forest has no new paths is a forest. -/
theorem mono (h : Forest child e root ok)
    (hsub : ∀ r q u, root' r → ok q → descend child e' r q = some u →
      root r ∧ descend child e r q = some u) : Forest child e' root' ok := by
  refine ⟨h.shorten, fun {r r' p p' t} hr hr' hp hp' ht ht' => ?_⟩
  obtain ⟨hr, ht⟩ := hsub r p t hr hp ht
  obtain ⟨hr', ht'⟩ := hsub r' p' t hr' hp' ht'
  exact h.unique hr hr' hp hp' ht ht'

/-- A fresh childless node is a new root. -/
theorem addRoot (h : Forest child e root ok)
    (hfresh : ∀ r q, root r → ok q → descend child e r q ≠ some z)
    (hleaf : ∀ j q, ok (j :: q) → child (e z j) = none) :
    Forest child e (fun r => r = z ∨ root r) ok := by
  have hz : ∀ q u, ok q → descend child e z q = some u → q = [] ∧ u = z := by
    rintro (_ | ⟨j, q⟩) u hq hu
    · exact ⟨rfl, (Option.some.inj hu).symm⟩
    · rw [descend_cons, hleaf j q hq] at hu
      cases hu
  refine ⟨h.shorten, fun {r r' q q' u} hr hr' hq hq' hu hu' => ?_⟩
  rcases hr with rfl | hr <;> rcases hr' with rfl | hr'
  · exact ⟨rfl, (hz q u hq hu).1.trans (hz q' u hq' hu').1.symm⟩
  · exact absurd ((hz q u hq hu).2 ▸ hu') (hfresh r' q' hr' hq')
  · exact absurd ((hz q' u hq' hu').2 ▸ hu) (hfresh r q hr hq)
  · exact h.unique hr hr' hq hq' hu hu'

end Forest

/-! ## Listing a tree, children before parents -/

/-- What hangs below the slots `is` of `t`, where `sub` lists what is below a child. -/
def branches (child : E → Option P) (e : P → I → E) (sub : P → List P) (is : List I) (t : P) :
    List P :=
  is.flatMap fun i => (child (e t i)).elim [] fun c => sub c ++ [c]

/-- The nodes below `t`, to depth `k`. -/
def below (child : E → Option P) (e : P → I → E) (all : List I) : ℕ → P → List P
  | 0, _ => []
  | k + 1, t => branches child e (below child e all k) all t

variable {sub sub' : P → List P} {is all : List I} {k : ℕ} {c : P}

theorem branches_cons_none (h : child (e t i) = none) :
    branches child e sub (i :: is) t = branches child e sub is t := by
  rw [branches, List.flatMap_cons, h, Option.elim_none, List.nil_append]
  rfl

theorem branches_cons_some (h : child (e t i) = some c) :
    branches child e sub (i :: is) t = (sub c ++ [c]) ++ branches child e sub is t := by
  rw [branches, List.flatMap_cons, h, Option.elim_some]
  rfl

theorem mem_branches :
    c ∈ branches child e sub is t ↔
      ∃ i ∈ is, ∃ u, child (e t i) = some u ∧ (c ∈ sub u ∨ c = u) := by
  rw [branches, List.mem_flatMap]
  refine exists_congr fun i => and_congr_right fun _ => ?_
  cases hu : child (e t i) with
  | none => simp
  | some u => simp

/-- The nodes below `t` are those that a path of at most `k` indices reaches. -/
theorem mem_below (hall : ∀ i, i ∈ all) :
    c ∈ below child e all k t ↔ ∃ i p, p.length < k ∧ descend child e t (i :: p) = some c := by
  induction k generalizing t with
  | zero => simp [below]
  | succ k ih =>
    rw [below, mem_branches]
    constructor
    · rintro ⟨i, -, u, hu, hc | rfl⟩
      · obtain ⟨j, p, hp, hdesc⟩ := ih.mp hc
        exact ⟨i, j :: p, by simpa using hp, by rw [descend_cons, hu, Option.bind_some, hdesc]⟩
      · exact ⟨i, [], Nat.succ_pos k, by rw [descend_cons, hu]; rfl⟩
    · rintro ⟨i, p, hp, hdesc⟩
      rw [descend_cons] at hdesc
      obtain ⟨u, hu, hc⟩ := Option.bind_eq_some_iff.mp hdesc
      refine ⟨i, hall i, u, hu, ?_⟩
      cases p with
      | nil => exact Or.inr (Option.some.inj hc).symm
      | cons j p => exact Or.inl (ih.mpr ⟨j, p, by simpa using hp, hc⟩)

theorem mem_branches_below (hall : ∀ i, i ∈ all) :
    c ∈ branches child e (below child e all k) is t ↔
      ∃ i p, i ∈ is ∧ p.length ≤ k ∧ descend child e t (i :: p) = some c := by
  rw [mem_branches]
  constructor
  · rintro ⟨i, hi, u, hu, hc | rfl⟩
    · obtain ⟨j, p, hp, hdesc⟩ := (mem_below hall).mp hc
      exact ⟨i, j :: p, hi, hp, by rw [descend_cons, hu, Option.bind_some, hdesc]⟩
    · exact ⟨i, [], hi, Nat.zero_le k, by rw [descend_cons, hu]; rfl⟩
  · rintro ⟨i, p, hi, hp, hdesc⟩
    rw [descend_cons] at hdesc
    obtain ⟨u, hu, hc⟩ := Option.bind_eq_some_iff.mp hdesc
    refine ⟨i, hi, u, hu, ?_⟩
    cases p with
    | nil => exact Or.inr (Option.some.inj hc).symm
    | cons j p => exact Or.inl ((mem_below hall).mpr ⟨j, p, hp, hc⟩)

theorem branches_congr (hentry : ∀ i ∈ is, e' t i = e t i)
    (hsub : ∀ i ∈ is, ∀ c, child (e t i) = some c → sub' c = sub c) :
    branches child e' sub' is t = branches child e sub is t := by
  refine List.flatMap_congr fun i hi => ?_
  rw [hentry i hi]
  cases hc : child (e t i) with
  | none => rfl
  | some c => rw [Option.elim_some, Option.elim_some, hsub i hi c hc]

/-- The list below `t` only depends on `t` and on the nodes in the list. -/
theorem below_congr (h : ∀ u, u = t ∨ u ∈ below child e all k t → ∀ i, e' u i = e u i) :
    below child e' all k t = below child e all k t := by
  induction k generalizing t with
  | zero => rfl
  | succ k ih =>
    refine branches_congr (fun i _ => h t (Or.inl rfl) i) fun i hi c hc => ?_
    refine ih fun u hu => h u (Or.inr ?_)
    exact mem_branches.mpr ⟨i, hi, c, hc, hu.symm⟩

/-- If no node is reached along two paths, a list of branches has no duplicates. -/
theorem nodup_branches (hall : ∀ i, i ∈ all) (his : is.Nodup)
    (hsub : ∀ i ∈ is, ∀ c, child (e t i) = some c → (below child e all k c ++ [c]).Nodup)
    (hinj : ∀ i ∈ is, ∀ i' ∈ is, ∀ p p' c, p.length ≤ k → p'.length ≤ k →
      descend child e t (i :: p) = some c → descend child e t (i' :: p') = some c → i = i') :
    (branches child e (below child e all k) is t).Nodup := by
  refine List.nodup_flatMap.mpr ⟨fun i hi => ?_, ?_⟩
  · cases hc : child (e t i) with
    | none => exact List.nodup_nil
    | some c => exact hsub i hi c hc
  · refine his.imp_of_mem fun {i i'} hi hi' hne => ?_
    -- a common node would be reached through both slots
    have hpath : ∀ i c, c ∈ (child (e t i)).elim [] (fun c => below child e all k c ++ [c]) →
        ∃ p, p.length ≤ k ∧ descend child e t (i :: p) = some c := by
      intro i c hc
      have hmem : c ∈ branches child e (below child e all k) [i] t := by simpa [branches] using hc
      obtain ⟨j, p, hj, hp, hdesc⟩ := (mem_branches_below hall).mp hmem
      rw [List.mem_singleton] at hj
      exact ⟨p, hp, hj ▸ hdesc⟩
    intro c hc hc'
    obtain ⟨p, hp, hdesc⟩ := hpath i c hc
    obtain ⟨p', hp', hdesc'⟩ := hpath i' c hc'
    exact hne (hinj i hi i' hi' p p' c hp hp' hdesc hdesc')

theorem nodup_below (hall : ∀ i, i ∈ all) (hnodup : all.Nodup)
    (hinj : ∀ p p' c, p.length ≤ k → p'.length ≤ k → descend child e t p = some c →
      descend child e t p' = some c → p = p') : (below child e all k t ++ [t]).Nodup := by
  induction k generalizing t with
  | zero => simp [below]
  | succ k ih =>
    have hnot : t ∉ below child e all (k + 1) t := fun hmem => by
      obtain ⟨i, p, hp, hdesc⟩ := (mem_below hall).mp hmem
      have := hinj [] (i :: p) t (by simp) (by simpa using hp) rfl hdesc
      cases this
    refine List.nodup_append.mpr ⟨?_, List.nodup_singleton t, fun c hc d hd => ?_⟩
    · refine nodup_branches hall hnodup (fun i _ c hc => ih fun p p' d hp hp' hd hd' => ?_)
        fun i _ i' _ p p' c hp hp' hc hc' => ?_
      · have heq := hinj (i :: p) (i :: p') d (by simpa using hp) (by simpa using hp')
          (by rw [descend_cons, hc, Option.bind_some, hd])
          (by rw [descend_cons, hc, Option.bind_some, hd'])
        exact (List.cons.inj heq).2
      · exact (List.cons.inj (hinj (i :: p) (i' :: p') c (by simpa using hp) (by simpa using hp')
          hc hc')).1
    · rintro rfl
      exact hnot (List.mem_singleton.mp hd ▸ hc)

end Radix
