import Pros.Fs.Lookup
import Pros.Lib.Loop

/-!
# Paths in the tree

What the functions of `vfs.c` are for: a tree of named nodes below one mounted root, in which a path
leads to at most one node and a node is at the end of at most one path.
-/

namespace Pros

namespace VfsTree

variable {t t' : VfsTree} {root d e p c m n : Word} {kids : Word → List Word}
  {name : List (BitVec 8)} {flags : BitVec 32} {q r : List (List (BitVec 8))}

/-- `c` is a child of `d` with this name. -/
def IsChild (t : VfsTree) (d : Word) (name : List (BitVec 8)) (c : Word) : Prop :=
  ∃ l, t.Children d l ∧ c ∈ l ∧ (t.node c).name = name

/-- Following the components from the node `d` leads to the node at the end. -/
inductive Follows (t : VfsTree) : Word → List (List (BitVec 8)) → Word → Prop
  | nil (d : Word) : Follows t d [] d
  | cons {d c n : Word} {name : List (BitVec 8)} {rest : List (List (BitVec 8))}
      (hdir : t.isDir d = true) (hchild : t.IsChild d name c) (hrest : Follows t c rest n) :
      Follows t d (name :: rest) n

/-- One ramfs is mounted at the root, and no directory has two children of one name. -/
structure Rooted (t : VfsTree) (root : Word) (kids : Word → List Word) : Prop
    extends t.Shape root kids where
  names : ∀ d ∈ t.live, ((kids d).map fun c => (t.node c).name).Nodup
  mounts : t.mounts = [newMount [slash] root]

/-! ### Following paths -/

theorem follows_nil_iff : t.Follows d [] n ↔ n = d :=
  ⟨fun h => by cases h; rfl, fun h => h ▸ .nil n⟩

theorem Follows.append (h : t.Follows d q m) (h' : t.Follows m r n) : t.Follows d (q ++ r) n := by
  induction h with
  | nil d => exact h'
  | cons hdir hchild _ ih => exact .cons hdir hchild (ih h')

theorem follows_append_iff : t.Follows d (q ++ r) n ↔ ∃ m, t.Follows d q m ∧ t.Follows m r n := by
  constructor
  · intro h
    induction q generalizing d with
    | nil => exact ⟨d, .nil d, h⟩
    | cons name q ih =>
      cases h with
      | cons hdir hchild hrest =>
        obtain ⟨m, hm, hn⟩ := ih hrest
        exact ⟨m, .cons hdir hchild hm, hn⟩
  · rintro ⟨m, hm, hn⟩
    exact hm.append hn

theorem follows_singleton_iff :
    t.Follows d [name] n ↔ t.isDir d = true ∧ t.IsChild d name n := by
  constructor
  · intro h
    cases h with
    | cons hdir hchild hrest =>
      cases hrest
      exact ⟨hdir, hchild⟩
  · rintro ⟨hdir, hchild⟩
    exact .cons hdir hchild (.nil n)

/-- Paths depend on the nodes only. -/
theorem Follows.congr (h : t.Follows d q n) (heq : t'.node = t.node) : t'.Follows d q n := by
  induction h with
  | nil d => exact .nil d
  | cons hdir hchild _ ih =>
    obtain ⟨l, hl, hc, hname⟩ := hchild
    refine .cons ?_ ⟨l, ?_, hc, ?_⟩ ih
    · rwa [isDir, heq]
    · rwa [Children, heq]
    · rwa [heq]

namespace Shape

variable (h : t.Shape root kids)
include h

theorem isChild_iff (hd : d ∈ t.live) :
    t.IsChild d name c ↔ c ∈ kids d ∧ (t.node c).name = name := by
  constructor
  · rintro ⟨l, hl, hc, hname⟩
    exact ⟨(h.children d hd).unique hl ▸ hc, hname⟩
  · rintro ⟨hc, hname⟩
    exact ⟨kids d, h.children d hd, hc, hname⟩

theorem follows_live (hf : t.Follows d q n) (hd : d ∈ t.live) : n ∈ t.live := by
  induction hf with
  | nil d => exact hd
  | cons _ hchild _ ih => exact ih (h.kids_live _ hd _ ((h.isChild_iff hd).mp hchild).1)

/-- A node is at the end of at most one path. -/
theorem path_unique (hq : t.Follows root q n) (hr : t.Follows root r n) : q = r := by
  induction q using List.reverseRecOn generalizing r n with
  | nil =>
    obtain rfl := follows_nil_iff.mp hq
    rcases List.eq_nil_or_concat' r with rfl | ⟨r, name, rfl⟩
    · rfl
    · -- the root is not a child
      obtain ⟨m, hm, hn⟩ := follows_append_iff.mp hr
      have hm := h.follows_live hm h.root_live
      have := (h.isChild_iff hm).mp (follows_singleton_iff.mp hn).2
      exact absurd this.1 (h.root_not_kid m hm)
  | append_singleton q name ih =>
    obtain ⟨m, hqm, hn⟩ := follows_append_iff.mp hq
    have hm := h.follows_live hqm h.root_live
    obtain ⟨hkid, hname⟩ := (h.isChild_iff hm).mp (follows_singleton_iff.mp hn).2
    rcases List.eq_nil_or_concat' r with rfl | ⟨r, name', rfl⟩
    · obtain rfl := follows_nil_iff.mp hr
      exact absurd hkid (h.root_not_kid m hm)
    · obtain ⟨m', hrm, hn'⟩ := follows_append_iff.mp hr
      have hm' := h.follows_live hrm h.root_live
      obtain ⟨hkid', hname'⟩ := (h.isChild_iff hm').mp (follows_singleton_iff.mp hn').2
      obtain rfl := h.parent_unique m hm m' hm' n hkid hkid'
      rw [ih hqm hrm, ← hname, ← hname']

end Shape

/-- A path leads to at most one node. -/
theorem Rooted.follows_unique (h : t.Rooted root kids) (hd : d ∈ t.live) (hn : t.Follows d q n)
    (hm : t.Follows d q m) : n = m := by
  induction hn with
  | nil d => exact (follows_nil_iff.mp hm).symm
  | @cons d c n name rest _ hchild _ ih =>
    cases hm with
    | @cons _ c' _ _ _ _ hchild' hrest' =>
      obtain ⟨hc, hname⟩ := (h.isChild_iff hd).mp hchild
      obtain ⟨hc', hname'⟩ := (h.isChild_iff hd).mp hchild'
      obtain rfl : c = c' :=
        List.inj_on_of_nodup_map (h.names d hd) hc hc' (hname.trans hname'.symm)
      exact ih (h.kids_live d hd c hc) hrest'

/-- A path goes through directories only. -/
theorem Rooted.isDir_of_lt (h : t.Rooted root kids) (hq : t.Follows root q d)
    (hr : t.Follows root r m) (hsub : q <+: r) (hne : q ≠ r) : t.isDir d = true := by
  obtain ⟨s, rfl⟩ := hsub
  obtain ⟨d', hd', hs⟩ := follows_append_iff.mp hr
  obtain rfl := h.follows_unique h.root_live hd' hq
  cases hs with
  | nil => simp at hne
  | cons hdir _ _ => exact hdir

/-- Where a path leads, its beginnings lead too. -/
theorem Follows.beginning (hr : t.Follows root r m) (hsub : q <+: r) : ∃ d, t.Follows root q d := by
  obtain ⟨s, rfl⟩ := hsub
  obtain ⟨d, hd, -⟩ := follows_append_iff.mp hr
  exact ⟨d, hd⟩

/-! ### Finding and creating a child -/

/-- What `finddir` finds under a name that fits. -/
theorem Rooted.named_eq (h : t.Rooted root kids) (hd : d ∈ t.live) (hfit : name.length < vfsNameSize) :
    (t.named (kids d) name ≠ 0 ∧ t.IsChild d name (t.named (kids d) name)) ∨
      (t.named (kids d) name = 0 ∧ ∀ c, ¬ t.IsChild d name c) := by
  have htake : name.take vfsNameSize = name := List.take_of_length_le hfit.le
  unfold named
  match hfind : (kids d).find? fun c => (t.node c).name = name.take vfsNameSize with
  | some c =>
    have hc := List.mem_of_find?_eq_some hfind
    have hname : (t.node c).name = name.take vfsNameSize := by
      simpa using List.find?_some hfind
    refine .inl ⟨?_, (h.isChild_iff hd).mpr ⟨hc, hname.trans htake⟩⟩
    rintro rfl
    exact h.ne_null (h.kids_live d hd _ hc)
  | none =>
    refine .inr ⟨rfl, fun c hchild => ?_⟩
    obtain ⟨hc, hname⟩ := (h.isChild_iff hd).mp hchild
    simpa [hname, htake] using List.find?_eq_none.mp hfind c hc

section Create

variable (hc : t.Created t' root kids d p name flags)
include hc

theorem Created.flags_of_mem (hn : n ∈ t.live) : (t'.node n).flags = (t.node n).flags :=
  hc.flags_of_ne n fun hnp => hc.notMem (hnp ▸ hn)

theorem Created.isDir_of_mem (hn : n ∈ t.live) : t'.isDir n = t.isDir n := by
  rw [isDir, isDir, hc.flags_of_mem hn]

theorem Created.rooted (h : t.Rooted root kids) (hd : d ∈ t.live)
    (hnew : ∀ c, ¬ t.IsChild d name c) (hname : 0 ∉ name) (hfit : name.length < vfsNameSize) :
    t'.Rooted root (Function.update (Function.update kids p []) d (kids d ++ [p])) where
  toShape := hc.shape
  mounts := hc.mounts.trans h.mounts
  names := by
    have hpd : p ≠ d := fun hpd => hc.notMem (hpd ▸ hd)
    have hkeep : ∀ e ∈ t.live, (kids e).map (fun c => (t'.node c).name) =
        (kids e).map fun c => (t.node c).name := fun e he =>
      List.map_congr_left fun c hck => hc.name_of_ne c fun hcp =>
        hc.notMem (h.kids_live e he p (hcp ▸ hck))
    intro e he
    rw [hc.live] at he
    rcases List.mem_cons.mp he with rfl | he'
    · rw [Function.update_of_ne hpd, Function.update_self]
      exact List.nodup_nil
    · by_cases hed : e = d
      · subst hed
        rw [Function.update_self, List.map_append, hkeep e he', List.map_singleton,
          hc.name_eq, snprintfString_eq hname hfit]
        refine (h.names e he').append (List.nodup_singleton _) ?_
        rw [List.disjoint_singleton]
        intro hmem
        obtain ⟨c, hck, hcn⟩ := List.mem_map.mp hmem
        exact hnew c ((h.isChild_iff he').mpr ⟨hck, hcn⟩)
      · have hep : e ≠ p := fun hep => hc.notMem (hep ▸ he')
        rw [Function.update_of_ne hed, Function.update_of_ne hep, hkeep e he']
        exact h.names e he'

/-- The children after a creation. -/
theorem Created.isChild_iff (h : t.Rooted root kids) (hd : d ∈ t.live) (hname : 0 ∉ name)
    (hfit : name.length < vfsNameSize) {x : List (BitVec 8)} (he : e ∈ t.live) :
    t'.IsChild e x c ↔ t.IsChild e x c ∨ (e = d ∧ x = name ∧ c = p) := by
  have hstored : (t'.node p).name = name := hc.name_eq.trans (snprintfString_eq hname hfit)
  have he' : e ∈ t'.live := hc.live ▸ List.mem_cons_of_mem _ he
  have hold : ∀ c ∈ kids e, (t'.node c).name = (t.node c).name := fun c hck =>
    hc.name_of_ne c fun hcp => hc.notMem (h.kids_live e he p (hcp ▸ hck))
  rw [hc.shape.isChild_iff he', h.isChild_iff he]
  by_cases hed : e = d
  · subst hed
    rw [Function.update_self, List.mem_append, List.mem_singleton]
    constructor
    · rintro ⟨hck | rfl, hx⟩
      · exact .inl ⟨hck, hold c hck ▸ hx⟩
      · exact .inr ⟨rfl, hx.symm.trans hstored, rfl⟩
    · rintro (⟨hck, hx⟩ | ⟨-, rfl, rfl⟩)
      · exact ⟨.inl hck, (hold c hck).trans hx⟩
      · exact ⟨.inr rfl, hstored⟩
  · have hep : e ≠ p := fun hep => hc.notMem (hep ▸ he)
    rw [Function.update_of_ne hed, Function.update_of_ne hep]
    constructor
    · rintro ⟨hck, hx⟩
      exact .inl ⟨hck, hold c hck ▸ hx⟩
    · rintro (⟨hck, hx⟩ | ⟨hed', -⟩)
      · exact ⟨hck, (hold c hck).trans hx⟩
      · exact absurd hed' hed

/-- The new node has no children. -/
theorem Created.not_isChild (hd : d ∈ t.live) {x : List (BitVec 8)} : ¬ t'.IsChild p x c := by
  have hpd : p ≠ d := fun hpd => hc.notMem (hpd ▸ hd)
  rw [hc.shape.isChild_iff (hc.live ▸ List.mem_cons_self), Function.update_of_ne hpd,
    Function.update_self]
  simp

/-- The paths after a creation: the old ones and the one to the new node. -/
theorem Created.follows_iff (h : t.Rooted root kids) (hd : d ∈ t.live) (hdir : t.isDir d = true)
    (hname : 0 ∉ name) (hfit : name.length < vfsNameSize) (hpath : t.Follows root r d) :
    t'.Follows root q n ↔ t.Follows root q n ∨ (q = r ++ [name] ∧ n = p) := by
  induction q using List.reverseRecOn generalizing n with
  | nil => simp [follows_nil_iff]
  | append_singleton q x ih =>
    have hlive : ∀ m, t.Follows root q m → m ∈ t.live := fun m hm =>
      h.follows_live hm h.root_live
    simp only [follows_append_iff, follows_singleton_iff]
    constructor
    · rintro ⟨m, hm, hmdir, hchild⟩
      rcases ih.mp hm with hm | ⟨-, rfl⟩
      · have hmem := hlive m hm
        rw [hc.isDir_of_mem hmem] at hmdir
        rcases (hc.isChild_iff h hd hname hfit hmem).mp hchild with hchild | ⟨rfl, rfl, rfl⟩
        · exact .inl ⟨m, hm, hmdir, hchild⟩
        · exact .inr ⟨by rw [h.path_unique hm hpath], rfl⟩
      · exact absurd hchild (hc.not_isChild hd)
    · rintro (⟨m, hm, hmdir, hchild⟩ | ⟨hq, rfl⟩)
      · have hmem := hlive m hm
        refine ⟨m, ih.mpr (.inl hm), (hc.isDir_of_mem hmem).trans hmdir, ?_⟩
        exact (hc.isChild_iff h hd hname hfit hmem).mpr (.inl hchild)
      · obtain ⟨rfl, hx⟩ := List.append_inj' hq rfl
        obtain rfl : x = name := by simpa using hx
        refine ⟨d, ih.mpr (.inl hpath), (hc.isDir_of_mem hd).trans hdir, ?_⟩
        exact (hc.isChild_iff h hd hname hfit hd).mpr (.inr ⟨rfl, rfl, rfl⟩)

end Create

/-! ### One call -/

/-- Where a node is created that the path `full` asks for: at its end as a file, when the flags ask
for a file, and otherwise as a directory, when they ask for one. -/
def Made (flags : BitVec 32) (full q : List (List (BitVec 8))) (nodeFlags : BitVec 32) : Prop :=
  if q = full ∧ flags &&& vfsFile ≠ 0 then nodeFlags = vfsFile
  else flags &&& vfsDirectory ≠ 0 ∧ nodeFlags = vfsDirectory

/-- Why a path leads nowhere: it goes through a node that is not a directory, or a component is
missing that the flags do not ask for. -/
def Stuck (t : VfsTree) (root : Word) (flags : BitVec 32) (path comps : List (List (BitVec 8))) :
    Prop :=
  (∃ q m, q <+: comps ∧ q ≠ comps ∧ t.Follows root (path ++ q) m ∧ t.isDir m = false) ∨
    ∃ q, q <+: comps ∧ (∀ m, ¬ t.Follows root (path ++ q) m) ∧
      ¬ (q = comps ∧ flags &&& vfsFile ≠ 0) ∧ ¬ flags &&& vfsDirectory ≠ 0

/-- A call that is stuck is not stuck on its way to an existing node. -/
theorem Stuck.not_follows {comps : List (List (BitVec 8))} (hs : t.Stuck root flags [] comps)
    (h : t.Rooted root kids) : ¬ t.Follows root comps m := by
  intro hm
  rcases hs with ⟨q, d, hsub, hne, hd, hdir⟩ | ⟨q, hsub, hmiss, -⟩
  · exact absurd (h.isDir_of_lt hd hm hsub hne) (by simp [hdir])
  · obtain ⟨d, hd⟩ := hm.beginning hsub
    exact hmiss d hd

/-- What a call that has come as far as `path` does for the components still to come: it goes to
`path ++ goal`. -/
structure Outcome (t : VfsTree) (root : Word) (flags : BitVec 32)
    (path comps goal : List (List (BitVec 8))) (n : Word) (t' : VfsTree) : Prop where
  rooted : ∃ kids, t'.Rooted root kids
  fresh : t'.Fresh
  live : t.live ⊆ t'.live
  flags_eq : ∀ m ∈ t.live, (t'.node m).flags = (t.node m).flags
  follows : ∀ q m, t.Follows root q m → t'.Follows root q m
  made : ∀ q m, t'.Follows root q m → t.Follows root q m ∨
    (m ∉ t.live ∧ path <+: q ∧ q <+: path ++ goal ∧ Made flags (path ++ comps) q (t'.node m).flags)
  found : n ≠ 0 → t'.Follows root (path ++ goal) n ∧ (goal ≠ comps → t'.isDir n = true)
  same : (∃ m, t.Follows root (path ++ goal) m) → t' = t
  quiet : ¬ flags &&& vfsFile ≠ 0 → ¬ flags &&& vfsDirectory ≠ 0 → t' = t
  stuck : n = 0 → t'.failures = t.failures → t' = t ∧ Stuck t root flags path comps

/-- Where a call goes: to the end of the path, or to the parent of that. -/
def goal (stopAtParent : Bool) (comps : List (List (BitVec 8))) : List (List (BitVec 8)) :=
  if stopAtParent then comps.dropLast else comps

theorem goal_cons {stopAtParent : Bool} {comps : List (List (BitVec 8))}
    (hgo : ¬ (comps.isEmpty = true ∧ stopAtParent = true)) :
    goal stopAtParent (name :: comps) = name :: goal stopAtParent comps := by
  cases stopAtParent
  · rfl
  · cases comps
    · simp at hgo
    · rfl

section Outcome

variable {path comps : List (List (BitVec 8))}

/-- A call that changes nothing and stops at the parent. -/
theorem Rooted.outcome_stop (h : t.Rooted root kids) (hfresh : t.Fresh)
    (hpath : t.Follows root path d) :
    Outcome t root flags path [name] [] (if t.isDir d then d else 0) t where
  rooted := ⟨kids, h⟩
  fresh := hfresh
  live := List.Subset.refl _
  flags_eq _ _ := rfl
  follows _ _ hq := hq
  made _ _ hq := .inl hq
  found hn := by
    by_cases hdir : t.isDir d = true
    · rw [if_pos hdir, List.append_nil]
      exact ⟨hpath, fun _ => hdir⟩
    · rw [if_neg hdir] at hn
      exact absurd rfl hn
  same _ := rfl
  quiet _ _ := rfl
  stuck hn _ := by
    by_cases hdir : t.isDir d = true
    · rw [if_pos hdir] at hn
      exact absurd (h.follows_live hpath h.root_live) (hn ▸ h.ne_null)
    · exact ⟨rfl, .inl ⟨[], d, by simp, by simp, by simpa using hpath, by simpa using hdir⟩⟩

/-- A call that is stuck and changes nothing. -/
theorem Rooted.outcome_stuck (h : t.Rooted root kids) (hfresh : t.Fresh)
    (hstuck : t.Stuck root flags path comps) (g : List (List (BitVec 8))) :
    Outcome t root flags path comps g 0 t where
  rooted := ⟨kids, h⟩
  fresh := hfresh
  live := List.Subset.refl _
  flags_eq _ _ := rfl
  follows _ _ hq := hq
  made _ _ hq := .inl hq
  found hn := absurd rfl hn
  same _ := rfl
  quiet _ _ := rfl
  stuck _ _ := ⟨rfl, hstuck⟩

/-- No path goes through a missing child. -/
theorem Rooted.not_follows (h : t.Rooted root kids) (hpath : t.Follows root path d)
    (hmiss : ∀ c, ¬ t.IsChild d name c) (g : List (List (BitVec 8))) :
    ¬ t.Follows root (path ++ name :: g) m := by
  intro hm
  obtain ⟨d', hd', hrest⟩ := follows_append_iff.mp hm
  obtain rfl := h.follows_unique h.root_live hd' hpath
  cases hrest with
  | cons _ hchild _ => exact hmiss _ hchild

/-- A call that finds no memory for a missing child. -/
theorem Rooted.outcome_starved (h : t.Rooted root kids) (hfresh : t.Fresh)
    (hpath : t.Follows root path d) (hmiss : ∀ c, ¬ t.IsChild d name c)
    (hasked : flags &&& vfsFile ≠ 0 ∨ flags &&& vfsDirectory ≠ 0) (g : List (List (BitVec 8))) :
    Outcome t root flags path comps (name :: g) 0 t.starved where
  rooted := ⟨kids, { h with }⟩
  fresh := hfresh.starved
  live := List.Subset.refl _
  flags_eq _ _ := rfl
  follows _ _ hq := hq.congr rfl
  made _ _ hq := .inl (hq.congr rfl)
  found hn := absurd rfl hn
  same := fun ⟨_, hm⟩ => absurd hm (h.not_follows hpath hmiss g)
  quiet hfile hdir := absurd hasked (by simp_all)
  stuck _ hfail := absurd hfail (Nat.succ_ne_self _)

/-- A call that goes on from an existing child. -/
theorem Outcome.of_child {rest g : List (List (BitVec 8))}
    (ho : Outcome t root flags (path ++ [name]) rest g n t') :
    Outcome t root flags path (name :: rest) (name :: g) n t' where
  rooted := ho.rooted
  fresh := ho.fresh
  live := ho.live
  flags_eq := ho.flags_eq
  follows := ho.follows
  made q m hq := by
    rcases ho.made q m hq with hold | ⟨hm, hpre, hsub, hmade⟩
    · exact .inl hold
    · refine .inr ⟨hm, (List.prefix_append _ _).trans hpre, ?_, ?_⟩
      · simpa using hsub
      · simpa using hmade
  found hn := by
    obtain ⟨hf, hdir⟩ := ho.found hn
    exact ⟨by simpa using hf, fun hne => hdir fun hg => hne (by rw [hg])⟩
  same := fun ⟨m, hm⟩ => ho.same ⟨m, by simpa using hm⟩
  quiet := ho.quiet
  stuck hn hfail := by
    obtain ⟨heq, hstuck⟩ := ho.stuck hn hfail
    refine ⟨heq, ?_⟩
    rcases hstuck with ⟨q, m, hsub, hne, hf, hdir⟩ | ⟨q, hsub, hmiss, hfile, hdir⟩
    · exact .inl ⟨name :: q, m, by simpa using hsub, by simpa using hne, by simpa using hf, hdir⟩
    · exact .inr ⟨name :: q, by simpa using hsub, by simpa using hmiss, by simpa using hfile, hdir⟩

theorem made_cons_iff {rest : List (List (BitVec 8))} {nodeFlags : BitVec 32} :
    Made flags (path ++ name :: rest) (path ++ [name]) nodeFlags ↔
      if rest = [] ∧ flags &&& vfsFile ≠ 0 then nodeFlags = vfsFile
      else flags &&& vfsDirectory ≠ 0 ∧ nodeFlags = vfsDirectory := by
  have hfull : path ++ [name] = path ++ name :: rest ↔ rest = [] := by
    simp [eq_comm]
  rw [Made]
  simp only [hfull]

/-- A call that goes on from a child that it created. -/
theorem Created.outcome {t1 : VfsTree} {nodeFlags : BitVec 32} {rest g : List (List (BitVec 8))}
    (hc : t.Created t1 root kids d p name nodeFlags) (h : t.Rooted root kids) (hd : d ∈ t.live)
    (hdir : t.isDir d = true) (hname : 0 ∉ name) (hfit : name.length < vfsNameSize)
    (hpath : t.Follows root path d) (hnew : ∀ c, ¬ t.IsChild d name c)
    (hmade : Made flags (path ++ name :: rest) (path ++ [name]) nodeFlags)
    (ho : Outcome t1 root flags (path ++ [name]) rest g n t') :
    Outcome t root flags path (name :: rest) (name :: g) n t' := by
  have h1 := hc.rooted h hd hnew hname hfit
  have hpaths : ∀ q m, t1.Follows root q m ↔ t.Follows root q m ∨ (q = path ++ [name] ∧ m = p) :=
    fun q m => hc.follows_iff h hd hdir hname hfit hpath
  have hp : t1.Follows root (path ++ [name]) p := (hpaths _ _).mpr (.inr ⟨rfl, rfl⟩)
  have hsub : t.live ⊆ t1.live := fun m hm => hc.live ▸ List.mem_cons_of_mem _ hm
  have hpmem : p ∈ t1.live := hc.live ▸ List.mem_cons_self
  have hlast := ho.of_child
  exact {
    rooted := ho.rooted
    fresh := ho.fresh
    live := fun m hm => ho.live (hsub hm)
    flags_eq := fun m hm => (ho.flags_eq m (hsub hm)).trans (hc.flags_of_mem hm)
    follows := fun q m hq => ho.follows q m ((hpaths q m).mpr (.inl hq))
    made := by
      intro q m hq
      rcases hlast.made q m hq with hq | ⟨hm, hmore⟩
      · rcases (hpaths q m).mp hq with hq | ⟨rfl, rfl⟩
        · exact .inl hq
        · refine .inr ⟨hc.notMem, List.prefix_append _ _, by simp, ?_⟩
          rwa [ho.flags_eq m hpmem, hc.flags_eq]
      · exact .inr ⟨fun hmem => hm (hsub hmem), hmore⟩
    found := hlast.found
    same := fun ⟨_, hm⟩ => absurd hm (h.not_follows hpath hnew g)
    quiet := by
      intro hfile hnodir
      rw [made_cons_iff, if_neg fun hr => hfile hr.2] at hmade
      exact absurd hmade.1 hnodir
    stuck := by
      intro hn hfail
      obtain ⟨-, hstuck⟩ := ho.stuck hn (hfail.trans hc.failures.symm)
      exfalso
      rw [made_cons_iff] at hmade
      rcases hstuck with ⟨q, m, hq, hne, hf, hmdir⟩ | ⟨q, hq, hmiss, -, hnodir⟩
      · -- the new node is a directory without children
        have hrest : rest ≠ [] := by
          rintro rfl
          exact hne (List.prefix_nil.mp hq)
        rw [if_neg fun hr => hrest hr.1] at hmade
        obtain ⟨m', hm', hqm⟩ := follows_append_iff.mp hf
        obtain rfl := h1.follows_unique h1.root_live hm' hp
        cases hqm with
        | nil =>
          rw [isDir, hc.flags_eq, hmade.2] at hmdir
          exact absurd hmdir (by decide)
        | cons _ hchild _ => exact hc.not_isChild hd hchild
      · by_cases hrest : rest = []
        · obtain rfl : q = [] := List.prefix_nil.mp (hrest ▸ hq)
          exact hmiss p (by simpa using hp)
        · rw [if_neg fun hr => hrest hr.1] at hmade
          exact hnodir hmade.1 }

end Outcome

/-- One component: the child exists, is missing, could not be created, or was created. -/
theorem Rooted.findOrCreate (h : t.Rooted root kids) (hfresh : t.Fresh) (hd : d ∈ t.live)
    (hdir : t.isDir d = true) (hname : 0 ∉ name) (hfit : name.length < vfsNameSize)
    (isLast : Bool) (flags : BitVec 32) :
    (∃ c, c ≠ 0 ∧ t.IsChild d name c ∧ vfsFindOrCreate t d name isLast flags = some (c, t)) ∨
      ((∀ c, ¬ t.IsChild d name c) ∧
        ((vfsFindOrCreate t d name isLast flags = some (0, t) ∧
            ¬ (isLast = true ∧ flags &&& vfsFile ≠ 0) ∧ ¬ flags &&& vfsDirectory ≠ 0) ∨
          (vfsFindOrCreate t d name isLast flags = some (0, t.starved) ∧
            (flags &&& vfsFile ≠ 0 ∨ flags &&& vfsDirectory ≠ 0)) ∨
          ∃ p t1 nodeFlags, vfsFindOrCreate t d name isLast flags = some (p, t1) ∧
            t.Created t1 root kids d p name nodeFlags ∧
            if isLast = true ∧ flags &&& vfsFile ≠ 0 then nodeFlags = vfsFile
            else flags &&& vfsDirectory ≠ 0 ∧ nodeFlags = vfsDirectory)) := by
  have hd0 : d ≠ 0 := fun h0 => h.ne_null (h0 ▸ hd)
  have hfind := (h.children d hd).finddir hd0 hname
  unfold vfsFindOrCreate
  rw [hfind]
  simp only [Option.bind_eq_bind, Option.bind_some]
  rcases h.named_eq hd hfit with ⟨hne, hchild⟩ | ⟨hnone, hmiss⟩
  · exact .inl ⟨_, hne, hchild, if_pos hne⟩
  · refine .inr ⟨hmiss, ?_⟩
    rw [if_neg (not_not.mpr hnone)]
    have hcreate := h.create hd hdir hname hnone hfresh
    by_cases hfile : isLast = true ∧ flags &&& vfsFile ≠ 0
    · simp only [if_pos hfile]
      rcases hcreate vfsFile with hfail | ⟨p, t1, hok, hc⟩
      · exact .inr (.inl ⟨hfail, .inl hfile.2⟩)
      · exact .inr (.inr ⟨p, t1, vfsFile, hok, hc, rfl⟩)
    · simp only [if_neg hfile]
      by_cases hdirs : flags &&& vfsDirectory ≠ 0
      · simp only [if_pos hdirs]
        rcases hcreate vfsDirectory with hfail | ⟨p, t1, hok, hc⟩
        · exact .inr (.inl ⟨hfail, .inr hdirs⟩)
        · exact .inr (.inr ⟨p, t1, vfsDirectory, hok, hc, hdirs, rfl⟩)
      · exact .inl ⟨if_neg hdirs, hfile, hdirs⟩

/-- The outcome of the loop from the node `d` at the end of `path`. -/
theorem Rooted.walk {stopAtParent : Bool} {comps path : List (List (BitVec 8))}
    (h : t.Rooted root kids) (hfresh : t.Fresh) (hpath : t.Follows root path d)
    (hcomps : ∀ c ∈ comps, 0 ∉ c ∧ c.length < vfsNameSize) :
    ∃ n t', walkComponents stopAtParent flags comps t d = some (n, t') ∧
      Outcome t root flags path comps (goal stopAtParent comps) n t' := by
  induction comps generalizing t d path kids with
  | nil =>
    have hgoal : goal stopAtParent ([] : List (List (BitVec 8))) = [] := by
      cases stopAtParent <;> rfl
    rw [hgoal]
    refine ⟨d, t, rfl, ⟨kids, h⟩, hfresh, fun _ hm => hm, fun _ _ => rfl, fun _ _ hq => hq,
      fun _ _ hq => .inl hq, fun _ => ⟨by simpa using hpath, fun hne => absurd rfl hne⟩,
      fun _ => rfl, fun _ _ => rfl, ?_⟩
    intro hn
    exact absurd (h.follows_live hpath h.root_live) (hn ▸ h.ne_null)
  | cons name rest ih =>
    have hd := h.follows_live hpath h.root_live
    obtain ⟨hname, hfit⟩ := hcomps name (by simp)
    have hrest : ∀ c ∈ rest, 0 ∉ c ∧ c.length < vfsNameSize := fun c hc => hcomps c (by simp [hc])
    rw [walkComponents]
    by_cases hstop : rest.isEmpty = true ∧ stopAtParent = true
    · obtain rfl : rest = [] := by simpa using hstop.1
      obtain rfl := hstop.2
      rw [if_pos hstop]
      exact ⟨_, t, rfl, h.outcome_stop hfresh hpath⟩
    · rw [if_neg hstop, goal_cons hstop]
      by_cases hdir : t.isDir d = true
      · rw [if_neg (not_not.mpr hdir)]
        have hempty : rest.isEmpty = true ↔ rest = [] := List.isEmpty_iff
        rcases h.findOrCreate hfresh hd hdir hname hfit rest.isEmpty flags with
          ⟨c, hc0, hchild, hfind⟩ | ⟨hmiss, ⟨hfind, hfile, hdirs⟩ | ⟨hfind, hasked⟩ |
            ⟨p, t1, f, hfind, hc, hf⟩⟩
        · -- the child exists
          have hpath' : t.Follows root (path ++ [name]) c :=
            hpath.append (follows_singleton_iff.mpr ⟨hdir, hchild⟩)
          obtain ⟨n, t', hrun, ho⟩ := ih h hfresh hpath' hrest
          refine ⟨n, t', ?_, ho.of_child⟩
          rw [hfind]
          exact (if_neg hc0).trans hrun
        · -- it is missing and not asked for
          refine ⟨0, t, by rw [hfind]; rfl, h.outcome_stuck hfresh (.inr ⟨[name], ?_⟩) _⟩
          refine ⟨by simp, fun m hm => ?_, fun hr => hfile ⟨hempty.mpr ?_, hr.2⟩, hdirs⟩
          · exact h.not_follows hpath hmiss [] hm
          · simpa using hr.1
        · -- there is no memory for it
          exact ⟨0, t.starved, by rw [hfind]; rfl,
            h.outcome_starved hfresh hpath hmiss hasked _⟩
        · -- it is created
          have hmade : Made flags (path ++ name :: rest) (path ++ [name]) f := by
            rw [made_cons_iff]
            simpa only [hempty] using hf
          have hpath' : t1.Follows root (path ++ [name]) p :=
            (hc.follows_iff h hd hdir hname hfit hpath).mpr (.inr ⟨rfl, rfl⟩)
          obtain ⟨n, t', hrun, ho⟩ :=
            ih (hc.rooted h hd hmiss hname hfit) hc.fresh hpath' hrest
          refine ⟨n, t', ?_, hc.outcome h hd hdir hname hfit hpath hmiss hmade ho⟩
          rw [hfind]
          exact (if_neg hc.ne_null).trans hrun
      · -- nothing is below a file
        rw [if_pos hdir]
        refine ⟨0, t, rfl, h.outcome_stuck hfresh (.inl ⟨[], d, by simp, by simp, ?_, ?_⟩) _⟩
        · simpa using hpath
        · simpa using hdir

end VfsTree

/-! ## Calls -/

/-- A path that the kernel can be given whose components fit into a name. -/
structure FitPath (path : List (BitVec 8)) : Prop where
  noNul : 0 ∉ path
  fits : ∀ c ∈ components path, c.length < vfsNameSize

/-- An absolute path that is not too long. -/
structure AbsPath (path : List (BitVec 8)) : Prop extends FitPath path where
  absolute : path.head? = some slash
  short : path.length < vfsPathMax

namespace VfsTree

variable {t t' : VfsTree} {root : Word} {kids : Word → List Word} {path : List (BitVec 8)}
  {stopAtParent : Bool} {flags : BitVec 32}

/-- With one mount at the root, the components of a path are those below that mount. -/
theorem getMountpoint_of_absolute (hmounts : t.mounts = [newMount [slash] root])
    (habs : path.head? = some slash) : ∃ rest,
      vfsGetMountpoint t path = (root, rest) ∧ components rest = components path := by
  obtain ⟨path, rfl⟩ : ∃ tail, path = slash :: tail := by
    match path with
    | [] => simp at habs
    | c :: path => exact ⟨path, by simpa using habs⟩
  refine ⟨path.dropWhile (· = slash), ?_, ?_⟩
  · have hbest : bestMatch (slash :: path) t.mounts = some (newMount [slash] root) := by
      rw [hmounts, bestMatch_singleton, newMount_slash_path]
      exact if_pos ⟨rfl, by decide⟩
    rw [vfsGetMountpoint, hbest]
    simp only [newMount_slash_path]
    rfl
  · rw [components_dropWhile, components_slash_cons]

theorem getMountpoint_of_relative (hmounts : t.mounts = [newMount [slash] root]) (hpath : 0 ∉ path)
    (hrel : path.head? ≠ some slash) : vfsGetMountpoint t path = (0, path) := by
  have hcmp : strncmp path [slash] 1 ≠ 0 := by
    rw [Ne, strncmp_eq_zero_iff hpath (by decide)]
    match path with
    | [] => simp
    | c :: path => simpa using hrel
  have hbest : bestMatch path t.mounts = none := by
    rw [hmounts, bestMatch_singleton, newMount_slash_path]
    exact if_neg fun hm => hcmp hm.1
  rw [vfsGetMountpoint, hbest]

/-- The outcome of a call on an absolute path. -/
theorem Rooted.call (h : t.Rooted root kids) (hfresh : t.Fresh) (hpath : AbsPath path)
    (stopAtParent : Bool) (flags : BitVec 32) :
    ∃ n t', vfsInnerFindAndCreate t path stopAtParent flags = some (n, t') ∧
      Outcome t root flags [] (components path) (goal stopAtParent (components path)) n t' := by
  obtain ⟨rest, hmount, hcomps⟩ := getMountpoint_of_absolute h.mounts hpath.absolute
  have hroot : root ≠ 0 := fun h0 => h.ne_null (h0 ▸ h.root_live)
  rw [vfsInnerFindAndCreate_eq hpath.noNul hpath.short hmount hroot, hcomps]
  refine h.walk hfresh (.nil root) fun c hc => ⟨fun h0 => hpath.noNul ?_, hpath.fits c hc⟩
  exact (of_mem_tokens hc).2 h0

/-- A call on any other path returns null and changes nothing. -/
theorem Rooted.call_of_not_absPath (h : t.Rooted root kids) (hpath : FitPath path)
    (hnot : ¬ AbsPath path) (stopAtParent : Bool) (flags : BitVec 32) :
    vfsInnerFindAndCreate t path stopAtParent flags = some (0, t) := by
  by_cases hlong : path.length ≥ vfsPathMax
  · exact if_pos hlong
  · have hrel : path.head? ≠ some slash := fun habs => hnot ⟨hpath, habs, by omega⟩
    rw [vfsInnerFindAndCreate, if_neg hlong, getMountpoint_of_relative h.mounts hpath.noNul hrel]
    rfl

end VfsTree

/-- A call that may change the tree. -/
inductive VfsCall where
  | create (path : List (BitVec 8)) (flags : BitVec 32)
  | mkdirParents (path : List (BitVec 8))

namespace VfsCall

def path : VfsCall → List (BitVec 8)
  | create path _ => path
  | mkdirParents path => path

def run (t : VfsTree) : VfsCall → Option (Word × VfsTree)
  | create path flags => vfsCreate t path flags
  | mkdirParents path => vfsMkdirParents t path

end VfsCall

/-- The tree that `kmain` sets up: a ramfs mounted at the root. -/
def vfsBoot (root : Word) : VfsTree :=
  let empty : VfsTree :=
    { node := fun _ => newNode [] 0, live := [], answers := [root], failures := 0, mounts := [] }
  let (node, t) := ramfsCreateRoot empty
  (vfsMount t [slash] node true).2

/-- One call on a path that satisfies `ok`, with memory as `kcalloc` hands it out. -/
def VfsStep (ok : List (BitVec 8) → Prop) (t t' : VfsTree) : Prop :=
  ∃ (call : VfsCall) (answers : List Word) (n : Word), ok call.path ∧
    { t with answers := answers }.Fresh ∧ call.run { t with answers := answers } = some (n, t')

/-- The trees that calls on such paths lead to, whatever memory the next call will find. -/
def VfsReachable (ok : List (BitVec 8) → Prop) (root : Word) (t : VfsTree) : Prop :=
  root ≠ 0 ∧ ∃ t0 answers, Relation.ReflTransGen (VfsStep ok) (vfsBoot root) t0 ∧
    t = { t0 with answers := answers }

section Runs

variable {t t' : VfsTree} {root m n : Word} {kids : Word → List Word} {path : List (BitVec 8)}
  {flags : BitVec 32} {q : List (List (BitVec 8))}

theorem vfsBoot_eq (hroot : root ≠ 0) : vfsBoot root =
    { node := Function.update (fun _ => newNode [] 0) root (newNode [slash] vfsDirectory)
      live := [root], answers := [], failures := 0, mounts := [newMount [slash] root] } := by
  have hnew : ∀ node, ramfsCreateRoot ⟨node, [], [root], 0, []⟩ =
      (root, ⟨Function.update node root (newNode [slash] vfsDirectory), [root], [], 0, []⟩) :=
    fun node => if_neg hroot
  unfold vfsBoot
  simp only [hnew]
  unfold vfsMount
  rw [if_neg hroot]
  rfl

theorem vfsBoot_rooted (hroot : root ≠ 0) : (vfsBoot root).Rooted root fun _ => [] := by
  rw [vfsBoot_eq hroot]
  constructor
  case names => simp
  case mounts => rfl
  case toShape =>
    constructor
    case children =>
      intro d hd
      obtain rfl : d = root := by simpa using hd
      change (Function.update (fun _ => newNode [] 0) d (newNode [slash] vfsDirectory) d).firstChild
        = 0
      rw [Function.update_self]
      rfl
    case root_live => simp
    case ne_null => simpa using hroot.symm
    all_goals simp

theorem vfsBoot_fresh (hroot : root ≠ 0) : (vfsBoot root).Fresh := by
  rw [vfsBoot_eq hroot]
  exact ⟨List.nodup_nil, by simp⟩

/-- One page of memory that no node is in. -/
theorem VfsTree.fresh_singleton {p : Word} (hp : p ∉ t.live) :
    { t with answers := [p] }.Fresh where
  nodup := (List.nodup_singleton p).filter _
  notMem := by
    intro q hq _
    obtain rfl : q = p := by simpa using hq
    exact hp

/-- What every call on a path that fits does. -/
theorem VfsTree.Rooted.run (h : t.Rooted root kids) (hfresh : t.Fresh) {call : VfsCall}
    (hpath : FitPath call.path) : ∃ n t', call.run t = some (n, t') ∧
      (∃ kids', t'.Rooted root kids') ∧ t'.Fresh ∧
      (∀ q m, t.Follows root q m → t'.Follows root q m) ∧
      (n = 0 → t.Answered t' → t' = t) := by
  have hany : ∀ stop flags, ∃ n t',
      vfsInnerFindAndCreate t call.path stop flags = some (n, t') ∧
      (∃ kids', t'.Rooted root kids') ∧ t'.Fresh ∧
      (∀ q m, t.Follows root q m → t'.Follows root q m) ∧
      (n = 0 → t.Answered t' → t' = t) := by
    intro stop flags
    by_cases habs : AbsPath call.path
    · obtain ⟨n, t', hrun, ho⟩ := h.call hfresh habs stop flags
      refine ⟨n, t', hrun, ho.rooted, ho.fresh, ho.follows, fun hn hgood => ?_⟩
      obtain ⟨used, hasked⟩ := vfsInnerFindAndCreate_asked hrun
      exact (ho.stuck hn (hasked.failures_eq hgood)).1
    · exact ⟨0, t, h.call_of_not_absPath hpath habs stop flags, ⟨kids, h⟩, hfresh, fun _ _ hq => hq,
        fun _ _ => rfl⟩
  cases call with
  | create path flags => exact hany false flags
  | mkdirParents path => exact hany true vfsDirectory

theorem VfsStep.rooted (hstep : VfsStep FitPath t t') (h : t.Rooted root kids) :
    (∃ kids', t'.Rooted root kids') ∧ t'.Fresh ∧
      ∀ q m, t.Follows root q m → t'.Follows root q m := by
  obtain ⟨call, answers, n, hpath, hfresh, hrun⟩ := hstep
  have h0 : { t with answers := answers }.Rooted root kids := { h with }
  obtain ⟨n', t'', hrun', hrooted, hfresh', hfollows, -⟩ := h0.run hfresh hpath
  cases hrun.symm.trans hrun'
  exact ⟨hrooted, hfresh', fun q m hq => hfollows q m (hq.congr rfl)⟩

theorem vfsSteps_rooted (hrun : Relation.ReflTransGen (VfsStep FitPath) t t')
    (h : t.Rooted root kids) (hfresh : t.Fresh) :
    (∃ kids', t'.Rooted root kids') ∧ t'.Fresh ∧
      ∀ q m, t.Follows root q m → t'.Follows root q m := by
  induction hrun with
  | refl => exact ⟨⟨kids, h⟩, hfresh, fun _ _ hq => hq⟩
  | tail _ hstep ih =>
    obtain ⟨⟨kids', h'⟩, -, hfollows⟩ := ih
    obtain ⟨hrooted, hfresh', hfollows'⟩ := hstep.rooted h'
    exact ⟨hrooted, hfresh', fun q m hq => hfollows' q m (hfollows q m hq)⟩

theorem VfsReachable.rooted (ht : VfsReachable FitPath root t) : ∃ kids, t.Rooted root kids := by
  obtain ⟨hroot, t0, answers, hrun, rfl⟩ := ht
  obtain ⟨⟨kids, h⟩, -⟩ := vfsSteps_rooted hrun (vfsBoot_rooted hroot) (vfsBoot_fresh hroot)
  exact ⟨kids, { h with }⟩

theorem VfsReachable.of_run {ok : List (BitVec 8) → Prop} (hroot : root ≠ 0)
    (hrun : Relation.ReflTransGen (VfsStep ok) (vfsBoot root) t) : VfsReachable ok root t :=
  ⟨hroot, t, t.answers, hrun, rfl⟩

theorem vfsBoot_reachable (ok : List (BitVec 8) → Prop) (hroot : root ≠ 0) (answers : List Word) :
    VfsReachable ok root { vfsBoot root with answers := answers } :=
  ⟨hroot, vfsBoot root, answers, .refl, rfl⟩

/-- `vfs_lookup` is following the components of the path. -/
theorem VfsTree.Rooted.lookup (h : t.Rooted root kids) (hfresh : t.Fresh) (hpath : AbsPath path) :
    ∃ n, vfsLookup t path = some (n, t) ∧
      (n ≠ 0 → t.Follows root (components path) n) ∧
      (n = 0 → ∀ m, ¬ t.Follows root (components path) m) := by
  obtain ⟨n, t', hrun, ho⟩ := h.call hfresh hpath false 0
  obtain rfl := ho.quiet (by decide) (by decide)
  exact ⟨n, hrun, fun hn => (ho.found hn).1, fun hn m => (ho.stuck hn rfl).2.not_follows h⟩

theorem VfsTree.Rooted.lookup_eq (h : t.Rooted root kids) (hfresh : t.Fresh) (hpath : AbsPath path)
    (hn : t.Follows root (components path) n) : vfsLookup t path = some (n, t) := by
  obtain ⟨n', hrun, hfound, hnull⟩ := h.lookup hfresh hpath
  have hn' : n' ≠ 0 := fun h0 => hnull h0 n hn
  rw [hrun, h.follows_unique h.root_live (hfound hn') hn]

/-- What `vfs_mkdir_parents` does: with `parent` the path without its last component, `t'` has the
paths of `t` and those to `parent`, which are new directories, and the node returned is `parent`. It
fails when there is a file on the way. -/
structure MkdirSpec (t : VfsTree) (root : Word) (parent : List (List (BitVec 8))) (n : Word)
    (t' : VfsTree) : Prop where
  found : n ≠ 0 → t'.Follows root parent n ∧ t'.isDir n = true
  paths : n ≠ 0 →
    ∀ q, (∃ m, t'.Follows root q m) ↔ (∃ m, t.Follows root q m) ∨ q <+: parent
  made : ∀ q m, t'.Follows root q m → t.Follows root q m ∨
    (q <+: parent ∧ (∀ m', ¬ t.Follows root q m') ∧ (t'.node m).flags = vfsDirectory)
  fails : t.Answered t' →
    (n = 0 ↔ ∃ q m, q <+: parent ∧ t.Follows root q m ∧ t.isDir m = false)

theorem prefix_dropLast {α : Type*} {l l' : List α} (hsub : l <+: l') (hne : l ≠ l') :
    l <+: l'.dropLast := by
  obtain ⟨s, rfl⟩ := hsub
  have hs : s ≠ [] := fun hs => hne (by simp [hs])
  rw [List.dropLast_append_of_ne_nil hs]
  exact List.prefix_append _ _

theorem ne_beginning_dropLast {α : Type*} {l l' : List α} (hl' : l' ≠ []) (hsub : l <+: l'.dropLast) :
    l ≠ l' := by
  rintro rfl
  have hle := hsub.length_le
  have hpos := List.length_pos_of_ne_nil hl'
  rw [List.length_dropLast] at hle
  omega

/-- A node that was made is not at the end of an old path. -/
theorem VfsTree.Outcome.notMem {comps g : List (List (BitVec 8))}
    (ho : VfsTree.Outcome t root flags [] comps g n t') (h : t.Rooted root kids)
    (hq : t'.Follows root q m) (hm : m ∉ t.live) (m' : Word) : ¬ t.Follows root q m' := by
  intro hold
  obtain ⟨kids', h'⟩ := ho.rooted
  obtain rfl := h'.follows_unique h'.root_live (ho.follows q m' hold) hq
  exact hm (h.follows_live hold h.root_live)

theorem VfsTree.Outcome.isDir_eq {comps g : List (List (BitVec 8))}
    (ho : VfsTree.Outcome t root flags [] comps g n t') (hm : m ∈ t.live) :
    t'.isDir m = t.isDir m := by
  rw [isDir, isDir, ho.flags_eq m hm]

theorem VfsTree.Rooted.mkdirParents (h : t.Rooted root kids) (hfresh : t.Fresh)
    (hpath : AbsPath path) (hne : components path ≠ []) :
    ∃ n t', vfsMkdirParents t path = some (n, t') ∧
      MkdirSpec t root (components path).dropLast n t' := by
  obtain ⟨n, t', hrun, ho⟩ := h.call hfresh hpath true vfsDirectory
  have hgoal : goal true (components path) = (components path).dropLast := rfl
  rw [hgoal] at ho
  obtain ⟨kids', h'⟩ := ho.rooted
  have hfound : n ≠ 0 → t'.Follows root (components path).dropLast n ∧ t'.isDir n = true :=
    fun hn => ⟨(ho.found hn).1, (ho.found hn).2 (ne_beginning_dropLast hne List.prefix_rfl)⟩
  obtain ⟨used, hasked⟩ := vfsInnerFindAndCreate_asked hrun
  refine ⟨n, t', hrun, hfound, fun hn q => ?_, fun q m hq => ?_, fun hgood => ?_⟩
  · constructor
    · rintro ⟨m, hm⟩
      rcases ho.made q m hm with hold | ⟨-, -, hsub, -⟩
      · exact .inl ⟨m, hold⟩
      · exact .inr (by simpa using hsub)
    · rintro (⟨m, hm⟩ | hsub)
      · exact ⟨m, ho.follows q m hm⟩
      · exact (hfound hn).1.beginning hsub
  · rcases ho.made q m hq with hold | ⟨hm, -, hsub, hmade⟩
    · exact .inl hold
    · simp only [List.nil_append] at hsub hmade
      rw [VfsTree.Made, if_neg fun hfile => hfile.2 (by decide)] at hmade
      exact .inr ⟨hsub, ho.notMem h hq hm, hmade.2⟩
  · constructor
    · intro hn
      rcases (ho.stuck hn (hasked.failures_eq hgood)).2 with
        ⟨q, m, hsub, hne, hm, hdir⟩ | ⟨q, -, -, -, hno⟩
      · exact ⟨q, m, prefix_dropLast hsub hne, hm, hdir⟩
      · exact absurd (by decide) hno
    · rintro ⟨q, m, hsub, hm, hdir⟩
      by_contra hn
      obtain ⟨hend, hnd⟩ := hfound hn
      have hm' := ho.follows q m hm
      have hmdir : t'.isDir m = false := (ho.isDir_eq (h.follows_live hm h.root_live)).trans hdir
      by_cases hq : q = (components path).dropLast
      · subst hq
        obtain rfl := h'.follows_unique h'.root_live hm' hend
        simp [hmdir] at hnd
      · exact absurd (h'.isDir_of_lt hm' hend hsub hq) (by simp [hmdir])

end Runs

/-- No directory has two children of one name. -/
def VfsTree.NamesUnique (t : VfsTree) : Prop :=
  ∀ d ∈ t.live, ∃ l, t.Children d l ∧ (l.map fun c => (t.node c).name).Nodup

/-- In every tree that calls on paths with components that fit lead to, names are unique, and what
`vfs_create` returns is found under the path, also after further calls. -/
theorem vfs_names_unique {root : Word} {t : VfsTree} (ht : VfsReachable FitPath root t) :
    t.NamesUnique ∧
      ∀ path flags n t', FitPath path → t.Fresh → vfsCreate t path flags = some (n, t') → n ≠ 0 →
        ∀ t'', Relation.ReflTransGen (VfsStep FitPath) t' t'' →
          vfsLookup t'' path = some (n, t'') := by
  obtain ⟨kids, h⟩ := ht.rooted
  refine ⟨fun d hd => ⟨kids d, h.children d hd, h.names d hd⟩, ?_⟩
  intro path flags n t' hfit hfresh hrun hn t'' hsteps
  have hpath : AbsPath path := by
    by_contra hnot
    have hnull := h.call_of_not_absPath hfit hnot false flags
    exact hn (congrArg Prod.fst (Option.some.inj (hrun.symm.trans hnull)))
  obtain ⟨n', t1, hrun', ho⟩ := h.call hfresh hpath false flags
  obtain ⟨rfl, rfl⟩ := Prod.mk.inj (Option.some.inj (hrun.symm.trans hrun'))
  obtain ⟨kids', h'⟩ := ho.rooted
  obtain ⟨⟨kids'', h''⟩, hfresh'', hfollows⟩ := vfsSteps_rooted hsteps h' ho.fresh
  exact h''.lookup_eq hfresh'' hpath (hfollows _ _ (ho.found hn).1)

/-- The tree after the files `/a` and `/b` were created. -/
def abTree1 : VfsTree :=
  ((vfsCreate { vfsBoot 0x1000 with answers := [0x2000] } [slash, 0x61] vfsFile).getD
    (0, vfsBoot 0)).2

def abTree2 : VfsTree :=
  ((vfsCreate { abTree1 with answers := [0x3000] } [slash, 0x62] vfsFile).getD (0, vfsBoot 0)).2

/-- Both files are found, the first also after the second was created. -/
theorem vfs_names_unique_two_files :
    VfsReachable FitPath 0x1000 abTree2 ∧ abTree2.Children 0x1000 [0x2000, 0x3000] ∧
      abTree2.NamesUnique ∧ vfsLookup abTree2 [slash, 0x61] = some (0x2000, abTree2) ∧
      vfsLookup abTree2 [slash, 0x62] = some (0x3000, abTree2) := by
  have ha : FitPath [slash, 0x61] := ⟨by decide, by decide⟩
  have hb : FitPath [slash, 0x62] := ⟨by decide, by decide⟩
  have hfirst : vfsCreate { vfsBoot 0x1000 with answers := [0x2000] } [slash, 0x61] vfsFile =
      some (0x2000, abTree1) := Loop.eq_some_of_map_fst (by decide +kernel)
  have hsecond : vfsCreate { abTree1 with answers := [0x3000] } [slash, 0x62] vfsFile =
      some (0x3000, abTree2) := Loop.eq_some_of_map_fst (by decide +kernel)
  have hfresh1 : { vfsBoot 0x1000 with answers := [0x2000] }.Fresh :=
    VfsTree.fresh_singleton (by decide +kernel)
  have hfresh2 : { abTree1 with answers := [0x3000] }.Fresh :=
    VfsTree.fresh_singleton (by decide +kernel)
  have hstep1 : VfsStep FitPath (vfsBoot 0x1000) abTree1 :=
    ⟨.create [slash, 0x61] vfsFile, [0x2000], _, ha, hfresh1, hfirst⟩
  have hstep2 : VfsStep FitPath abTree1 abTree2 :=
    ⟨.create [slash, 0x62] vfsFile, [0x3000], _, hb, hfresh2, hsecond⟩
  have hreach := VfsReachable.of_run (by decide) (.tail (.single hstep1) hstep2)
  have hreach1 : VfsReachable FitPath 0x1000 { abTree1 with answers := [0x3000] } :=
    ⟨by decide, abTree1, [0x3000], .single hstep1, rfl⟩
  refine ⟨hreach, ?_, (vfs_names_unique hreach).1, ?_, ?_⟩
  · exact ⟨by decide +kernel, by decide, by decide +kernel, by decide,
      Links.nil_iff.mpr (by decide +kernel)⟩
  · exact (vfs_names_unique (vfsBoot_reachable FitPath (by decide) [0x2000])).2 _ _ _ _ ha hfresh1
      hfirst (by decide) abTree2 (.single hstep2)
  · exact (vfs_names_unique hreach1).2 _ _ _ _ hb hfresh2 hsecond (by decide) abTree2 .refl

/-- A path with one component that is one byte too long for a name. -/
def longPath : List (BitVec 8) := slash :: List.replicate vfsNameSize 0x61

/-- The tree after the file at `longPath` was created, and after it was created again. -/
def longTree1 : VfsTree :=
  ((vfsCreate { vfsBoot 0x1000 with answers := [0x2000] } longPath vfsFile).getD (0, vfsBoot 0)).2

def longTree2 : VfsTree :=
  ((vfsCreate { longTree1 with answers := [0x3000] } longPath vfsFile).getD (0, vfsBoot 0)).2

/-- A component that does not fit into a name is not found again, so it is created twice under one
name. -/
theorem vfs_long_name_created_twice :
    vfsCreate { vfsBoot 0x1000 with answers := [0x2000] } longPath vfsFile =
        some (0x2000, longTree1) ∧
      (vfsLookup longTree1 longPath).map Prod.fst = some 0 ∧
      VfsReachable (fun path => 0 ∉ path ∧ path.length < vfsPathMax) 0x1000 longTree2 ∧
      ¬ longTree2.NamesUnique := by
  have hpath : 0 ∉ longPath ∧ longPath.length < vfsPathMax := by decide +kernel
  have hfirst : vfsCreate { vfsBoot 0x1000 with answers := [0x2000] } longPath vfsFile =
      some (0x2000, longTree1) := Loop.eq_some_of_map_fst (by decide +kernel)
  have hsecond : vfsCreate { longTree1 with answers := [0x3000] } longPath vfsFile =
      some (0x3000, longTree2) := Loop.eq_some_of_map_fst (by decide +kernel)
  refine ⟨hfirst, by decide +kernel, .of_run (by decide) ?_, ?_⟩
  · refine .tail (.single ⟨.create longPath vfsFile, [0x2000], _, hpath, ?_, hfirst⟩)
      ⟨.create longPath vfsFile, [0x3000], _, hpath, ?_, hsecond⟩
    · exact VfsTree.fresh_singleton (by decide +kernel)
    · exact VfsTree.fresh_singleton (by decide +kernel)
  · intro hunique
    obtain ⟨l, hl, hnodup⟩ := hunique 0x1000 (by decide +kernel)
    have htwo : longTree2.Children 0x1000 [0x2000, 0x3000] :=
      ⟨by decide +kernel, by decide, by decide +kernel, by decide,
        Links.nil_iff.mpr (by decide +kernel)⟩
    rw [hl.unique htwo] at hnodup
    exact absurd hnodup (by decide +kernel)

end Pros
