import Pros.Fs.Namespace
import Pros.Fs.Ramfs.Files
import Pros.Fs.Tar.Model

/-!
# Where the entries of an archive go

`tar_load` over a ramfs. The path of an entry is built in a buffer of `TAR_PATH_BUF_SIZE` bytes, which
has room for the slash and the NUL but then only for 99 bytes of a name that may have 100.
-/

namespace Pros

section

variable {α : Type} (A : RamfsAlloc α) (hhdm : Word)

/-- The operations of a ramfs that is mounted at the root, where a call whose loop does not end does
nothing. -/
def ramfsTarVfs : TarVfs (RamfsFs α) where
  toVfs := ramfsVfs A hhdm
  mkdirParents fs path :=
    match vfsMkdirParents fs.tree path with
    | none => (0, fs)
    | some (n, t) => (n, fs.setTree t)
  create fs path flags :=
    match vfsCreate fs.tree path flags with
    | none => (0, fs)
    | some (n, t) => (n, fs.setTree t)

end

/-! ## The path of an entry -/

theorem tarPath_absPath (mem : ByteMem) (a : Word) : AbsPath (tarPath mem a) where
  noNul := by
    intro h
    rcases List.mem_cons.mp (List.mem_of_mem_take h) with h | h
    · exact absurd h (by decide)
    · exact zero_notMem_tarName mem a h
  fits c hc := by
    have hlen : (tarPath mem a).length ≤ 100 := List.length_take_le ..
    exact ((length_le_of_mem_tokens hc).trans hlen).trans_lt (by decide)
  absolute := rfl
  short := (List.length_take_le ..).trans_lt (by decide)

/-- One more byte adds a component or makes the last one longer, unless it is a slash. -/
theorem components_concat_eq_iff {u : List (BitVec 8)} {c : BitVec 8} :
    components (u ++ [c]) = components u ↔ c = slash := by
  constructor
  · intro h
    by_contra hc
    have hflat := congrArg List.flatten h
    rw [components, components, flatten_tokens, flatten_tokens, List.filter_append] at hflat
    exact hc (by simpa [isDelim] using hflat)
  · rintro rfl
    rw [components, tokens_append_delim rfl, tokens_nil, List.append_nil]
    rfl

theorem components_concat_inj {u : List (BitVec 8)} {c d : BitVec 8}
    (h : components (u ++ [c]) = components (u ++ [d])) : c = d := by
  have hflat := congrArg List.flatten h
  rw [components, components, flatten_tokens, flatten_tokens, List.filter_append,
    List.filter_append, List.append_cancel_left_eq] at hflat
  by_cases hc : c = slash <;> by_cases hd : d = slash <;>
    simp_all [isDelim]

theorem tarPath_of_short {mem : ByteMem} {a : Word} (h : (tarName mem a).length ≤ 99) :
    tarPath mem a = slash :: tarName mem a :=
  List.take_of_length_le (show (tarName mem a).length + 1 ≤ 100 by omega)

/-- A name of 100 bytes loses the last one. -/
theorem tarPath_of_concat {mem : ByteMem} {a : Word} {u : List (BitVec 8)} {c : BitVec 8}
    (hu : u.length = 99) (h : tarName mem a = u ++ [c]) : tarPath mem a = slash :: u := by
  have hlen : (slash :: u).length = 100 := by rw [List.length_cons, hu]
  rw [tarPath, h, ← List.cons_append]
  exact List.take_left' hlen

theorem tarName_cases (mem : ByteMem) (a : Word) :
    (tarName mem a).length ≤ 99 ∨ ∃ u c, u.length = 99 ∧ tarName mem a = u ++ [c] := by
  have hlen := length_tarName_le mem a
  by_cases hshort : (tarName mem a).length ≤ 99
  · exact Or.inl hshort
  · rcases List.eq_nil_or_concat (tarName mem a) with hnil | ⟨u, c, hname⟩
    · simp [hnil] at hshort
    · rw [List.concat_eq_append] at hname
      rw [hname, List.length_append, List.length_singleton] at hlen hshort
      exact Or.inr ⟨u, c, by omega, hname⟩

/-- The path that is built leads where the full name does. -/
theorem components_tarPath_eq_iff (mem : ByteMem) (a : Word) :
    components (tarPath mem a) = components (slash :: tarName mem a) ↔
      (tarName mem a).length ≤ 99 ∨ (tarName mem a).getLast? = some slash := by
  rcases tarName_cases mem a with hshort | ⟨u, c, hu, hname⟩
  · rw [tarPath_of_short hshort]
    exact ⟨fun _ => Or.inl hshort, fun _ => rfl⟩
  · rw [tarPath_of_concat hu hname, components_slash_cons, components_slash_cons, eq_comm, hname,
      components_concat_eq_iff]
    simp [hu]

/-- Two names that differ in their last byte have the same path just when the last byte is cut. -/
theorem components_tarPath_eq_iff_of_concat {mem : ByteMem} {a b : Word} {u : List (BitVec 8)}
    {c d : BitVec 8} (ha : tarName mem a = u ++ [c]) (hb : tarName mem b = u ++ [d]) (hne : c ≠ d) :
    components (tarPath mem a) = components (tarPath mem b) ↔ ¬ u.length + 1 ≤ 99 := by
  have hlen : ∀ {x e}, tarName mem x = u ++ [e] → (tarName mem x).length = u.length + 1 :=
    fun h => by rw [h, List.length_append, List.length_singleton]
  by_cases hshort : u.length + 1 ≤ 99
  · rw [tarPath_of_short (by rwa [hlen ha]), tarPath_of_short (by rwa [hlen hb]),
      components_slash_cons, components_slash_cons, ha, hb]
    exact ⟨fun h => absurd (components_concat_inj h) hne, fun h => absurd hshort h⟩
  · have hu : u.length = 99 := by
      have := length_tarName_le mem a
      have := hlen ha
      omega
    rw [tarPath_of_concat hu ha, tarPath_of_concat hu hb]
    exact iff_of_true rfl hshort

/-! ## The tree -/

/-- All paths of `t` are paths of `t'`, in which they form a tree too. -/
structure VfsTree.Grows (root : Word) (t t' : VfsTree) : Prop where
  rooted : ∃ kids, t'.Rooted root kids
  fresh : t'.Fresh
  follows : ∀ q m, t.Follows root q m → t'.Follows root q m

namespace VfsTree

variable {t t' u : VfsTree} {root : Word} {kids : Word → List Word}

theorem Grows.trans (h : t.Grows root t') (h' : t'.Grows root u) : t.Grows root u :=
  ⟨h'.rooted, h'.fresh, fun q m hq => h'.follows q m (h.follows q m hq)⟩

theorem Outcome.grows {flags : BitVec 32} {path comps goal : List (List (BitVec 8))} {n : Word}
    (h : Outcome t root flags path comps goal n t') : t.Grows root t' :=
  ⟨h.rooted, h.fresh, h.follows⟩

end VfsTree

section

variable {α : Type} {A : RamfsAlloc α} {hhdm : Word} {fs fs' : RamfsFs α} {root : Word}
  {kids : Word → List Word} {mem : ByteMem} {a : Word}

variable (A hhdm) in
/-- A ramfs has no `open` and no `close`. -/
theorem tarWrite_eq (node : Word) (buffer : List (BitVec 8)) (fs : RamfsFs α) :
    tarWrite (ramfsTarVfs A hhdm) node buffer fs =
      (if ((ramfsVfs A hhdm).write fs node 0 buffer).1 ≠ buffer.length then none else some node,
        ((ramfsVfs A hhdm).write fs node 0 buffer).1.toNat,
        ((ramfsVfs A hhdm).write fs node 0 buffer).2) := by
  have hor : ∀ p : Prop, ((0 : Int) ≠ 0 ∨ p) = p := fun p => by simp
  change (if (0 : Int) ≠ 0 ∨ _ then none else some node, _, _) = _
  simp only [hor]
  rfl

variable (A hhdm) in
/-- Writing does not touch the tree. -/
theorem ramfsVfs_write_tree (node offset : Word) (buffer : List (BitVec 8)) (fs : RamfsFs α) :
    ((ramfsVfs A hhdm).write fs node offset buffer).2.tree = fs.tree := by
  rw [ramfsVfs]
  dsimp only
  split <;> rfl

variable (A hhdm) in
/-- A call of `vfs_mkdir_parents` or `vfs_create` on the path of an entry. -/
theorem ramfsTarVfs_call (h : fs.tree.Rooted root kids) (hfresh : fs.tree.Fresh) (mem : ByteMem)
    (a : Word) :
    (∃ n t, (ramfsTarVfs A hhdm).mkdirParents fs (tarPath mem a) = (n, fs.setTree t) ∧
      fs.tree.failures ≤ t.failures ∧
      VfsTree.Outcome fs.tree root vfsDirectory [] (components (tarPath mem a))
        (components (tarPath mem a)).dropLast n t) ∧
    ∀ flags, ∃ n t, (ramfsTarVfs A hhdm).create fs (tarPath mem a) flags = (n, fs.setTree t) ∧
      fs.tree.failures ≤ t.failures ∧
      VfsTree.Outcome fs.tree root flags [] (components (tarPath mem a))
        (components (tarPath mem a)) n t := by
  constructor
  · obtain ⟨n, t, hcall, ho⟩ := h.call hfresh (tarPath_absPath mem a) true vfsDirectory
    refine ⟨n, t, ?_, (vfsInnerFindAndCreate_asked hcall).choose_spec.le, ho⟩
    simp only [ramfsTarVfs, vfsMkdirParents, hcall]
  · intro flags
    obtain ⟨n, t, hcall, ho⟩ := h.call hfresh (tarPath_absPath mem a) false flags
    refine ⟨n, t, ?_, (vfsInnerFindAndCreate_asked hcall).choose_spec.le, ho⟩
    simp only [ramfsTarVfs, vfsCreate, hcall]

/-- What storing an entry does to the tree. -/
theorem tarStore_grows (h : fs.tree.Rooted root kids) (hfresh : fs.tree.Fresh) {node : Option Word}
    {count : ℕ} (hstore : tarStore (ramfsTarVfs A hhdm) mem a fs = (node, count, fs')) :
    fs.tree.Grows root fs'.tree ∧
      ∀ n, node = some n → fs'.tree.Follows root (components (tarPath mem a)) n := by
  obtain ⟨parent, t₁, hmkdir, -, ho₁⟩ := (ramfsTarVfs_call A hhdm h hfresh mem a).1
  by_cases hparent : parent = 0
  · rw [tarStore_noParent (hparent ▸ hmkdir)] at hstore
    obtain ⟨rfl, -, rfl⟩ := hstore
    exact ⟨ho₁.grows, fun n hn => by cases hn⟩
  obtain ⟨kids₁, h₁⟩ := ho₁.rooted
  have h₁ : (fs.setTree t₁).tree.Rooted root kids₁ := h₁
  have hcreates := (ramfsTarVfs_call A hhdm h₁ ho₁.fresh mem a).2
  by_cases hdir : tarTypeflag mem a = tarTypeDir
  · obtain ⟨n, t, hcreate, -, ho⟩ := hcreates vfsDirectory
    rw [tarStore_dir hmkdir hparent hdir hcreate] at hstore
    obtain ⟨rfl, -, rfl⟩ := hstore
    refine ⟨ho₁.grows.trans ho.grows, fun m hm => ?_⟩
    split at hm
    · cases hm
    · rename_i hn
      cases hm
      exact (ho.found hn).1
  · obtain ⟨n, t, hcreate, -, ho⟩ := hcreates vfsFile
    by_cases hn : n = 0
    · rw [tarStore_noFile hmkdir hparent hdir (hn ▸ hcreate)] at hstore
      obtain ⟨rfl, -, rfl⟩ := hstore
      exact ⟨ho₁.grows.trans ho.grows, fun m hm => by cases hm⟩
    · rw [tarStore_file hmkdir hparent hdir hcreate hn, tarWrite_eq] at hstore
      obtain ⟨rfl, -, rfl⟩ := hstore
      rw [ramfsVfs_write_tree]
      refine ⟨ho₁.grows.trans ho.grows, fun m hm => ?_⟩
      split at hm
      · cases hm
      · cases hm
        exact (ho.found hn).1

/-! ## Runs -/

/-- Every entry of the log is at the end of its path, and the log has an entry for every header that
is stored. -/
structure TarLog.Placed (mem : ByteMem) (root : Word) (t : VfsTree) (log : TarLog) : Prop where
  follows : ∀ a n, (a, n) ∈ log.stored → t.Follows root (components (tarPath mem a)) n
  all : ∀ a ∈ log.headers, TarStores mem a → ∃ n, (a, n) ∈ log.stored

/-- What a run does to the tree. -/
theorem tarLoop_grows {fuel : ℕ} {last : Word} {log log' : TarLog} {res : Int}
    (h : fs.tree.Rooted root kids) (hfresh : fs.tree.Fresh) (hlog : log.Placed mem root fs.tree)
    (hrun : tarLoop (ramfsTarVfs A hhdm) mem last fuel a fs log = some (res, fs', log')) :
    (∃ kids', fs'.tree.Rooted root kids') ∧
      (∀ b n, (b, n) ∈ log'.stored → fs'.tree.Follows root (components (tarPath mem b)) n) ∧
      (res = 0 → ∀ b ∈ log'.headers, TarStores mem b → ∃ n, (b, n) ∈ log'.stored) := by
  induction fuel generalizing a fs log kids with
  | zero => cases hrun
  | succ fuel ih =>
    by_cases hlt : a < last
    swap
    · rw [tarLoop_end hlt] at hrun
      cases hrun
      exact ⟨⟨kids, h⟩, hlog.follows, fun _ => hlog.all⟩
    by_cases hname : mem a = 0
    · rw [tarLoop_zero hlt hname] at hrun
      cases hrun
      exact ⟨⟨kids, h⟩, hlog.follows, fun _ => hlog.all⟩
    by_cases hmagic : mem.bytes (a + 257) 6 = tmagic
    swap
    · rw [tarLoop_magic hlt hname hmagic] at hrun
      cases hrun
      exact ⟨⟨kids, h⟩, hlog.follows, fun hres => by cases hres⟩
    by_cases hversion : mem.bytes (a + 263) 2 = tversion
    swap
    · rw [tarLoop_version hlt hname hmagic hversion] at hrun
      cases hrun
      exact ⟨⟨kids, h⟩, hlog.follows, fun hres => by cases hres⟩
    by_cases hstores : TarStores mem a
    swap
    · -- an entry of another type is skipped
      rw [tarLoop_skip hlt hname hmagic hversion hstores] at hrun
      have hheader : (log.header mem a).Placed mem root fs.tree := by
        refine ⟨hlog.follows, fun b hb hstores' => ?_⟩
        rcases List.mem_cons.mp hb with rfl | hb
        · exact absurd hstores' hstores
        · exact hlog.all b hb hstores'
      exact ih h hfresh hheader hrun
    rw [tarLoop_store hlt hname hmagic hversion hstores] at hrun
    rcases hstore : tarStore (ramfsTarVfs A hhdm) mem a fs with ⟨_ | node, count, fs₁⟩
    · obtain ⟨hgrows, -⟩ := tarStore_grows h hfresh hstore
      rw [hstore] at hrun
      cases hrun
      exact ⟨hgrows.rooted, fun b n hb => hgrows.follows _ _ (hlog.follows b n hb),
        fun hres => by cases hres⟩
    · obtain ⟨hgrows, hnode⟩ := tarStore_grows h hfresh hstore
      obtain ⟨kids₁, h₁⟩ := hgrows.rooted
      rw [hstore] at hrun
      refine ih h₁ hgrows.fresh ⟨fun b n hb => ?_, fun b hb hstores' => ?_⟩ hrun
      · rcases List.mem_cons.mp hb with heq | hb
        · cases heq
          exact hnode node rfl
        · exact hgrows.follows _ _ (hlog.follows b n hb)
      · rcases List.mem_cons.mp hb with rfl | hb
        · exact ⟨node, List.mem_cons_self ..⟩
        · obtain ⟨n, hn⟩ := hlog.all b hb hstores'
          exact ⟨n, List.mem_cons_of_mem _ hn⟩

theorem tarLoad_grows {tarAddr tarSize : Word} {log : TarLog} {res : Int}
    (h : fs.tree.Rooted root kids) (hfresh : fs.tree.Fresh)
    (hload : tarLoad (ramfsTarVfs A hhdm) mem tarAddr tarSize fs = some (res, fs', log)) :
    (∃ kids', fs'.tree.Rooted root kids') ∧
      (∀ b n, (b, n) ∈ log.stored → fs'.tree.Follows root (components (tarPath mem b)) n) ∧
      (res = 0 → ∀ b ∈ log.headers, TarStores mem b → ∃ n, (b, n) ∈ log.stored) := by
  rw [tarLoad] at hload
  split at hload
  · cases hload
    exact ⟨⟨kids, h⟩, fun b n hb => (List.not_mem_nil hb).elim,
      fun _ b hb => (List.not_mem_nil hb).elim⟩
  · exact tarLoop_grows h hfresh
      ⟨fun b n hb => (List.not_mem_nil hb).elim, fun b hb => (List.not_mem_nil hb).elim⟩ hload

/-- In every run of `tar_load` over a ramfs at the root, whatever the archive: all entries are stored
if the result is 0. One that is stored is at the end of its full name just when that has at most 99
bytes or a slash at its end, and two whose names differ in the last byte only are different nodes
just when the names have at most 99 bytes. -/
theorem tar_entry_at_full_name_iff {tarAddr tarSize : Word} {log : TarLog} {res : Int}
    (h : fs.tree.Rooted root kids) (hfresh : fs.tree.Fresh)
    (hload : tarLoad (ramfsTarVfs A hhdm) mem tarAddr tarSize fs = some (res, fs', log)) :
    (res = 0 → ∀ a ∈ log.headers, TarStores mem a → ∃ n, (a, n) ∈ log.stored) ∧
    (∀ a n, (a, n) ∈ log.stored →
      (fs'.tree.Follows root (components (slash :: tarName mem a)) n ↔
        (tarName mem a).length ≤ 99 ∨ (tarName mem a).getLast? = some slash)) ∧
    ∀ a n b m, (a, n) ∈ log.stored → (b, m) ∈ log.stored → ∀ u c d,
      tarName mem a = u ++ [c] → tarName mem b = u ++ [d] → c ≠ d →
        (n ≠ m ↔ (tarName mem a).length ≤ 99) := by
  obtain ⟨⟨kids', h'⟩, hfollows, hall⟩ := tarLoad_grows h hfresh hload
  refine ⟨hall, fun a n ha => ?_, fun a n b m ha hb u c d hua hub hne => ?_⟩
  · rw [← components_tarPath_eq_iff]
    constructor
    · exact fun hfull => h'.path_unique (hfollows a n ha) hfull
    · exact fun heq => heq ▸ hfollows a n ha
  · have hroot : root ∈ fs'.tree.live := h'.root_live
    rw [hua, List.length_append, List.length_singleton, ← not_iff_not, not_ne_iff,
      ← components_tarPath_eq_iff_of_concat hua hub hne]
    constructor
    · rintro rfl
      exact h'.path_unique (hfollows a n ha) (hfollows b n hb)
    · intro heq
      exact h'.follows_unique hroot (hfollows a n ha) (heq ▸ hfollows b m hb)

end

/-- A ramfs with nothing but its root. -/
def freshRamfs (answers : List Word) : RamfsFs Bump where
  tree := { vfsBoot 0x1000 with answers := answers }
  file := fun _ => newFile
  mem := fun _ => 0
  alloc := ⟨exampleHhdm.toNat + 4096, 0⟩

theorem freshRamfs_fresh {answers : List Word} (hnodup : answers.Nodup) (hroot : 0x1000 ∉ answers) :
    (freshRamfs answers).tree.Fresh where
  nodup := hnodup.filter _
  notMem p hp _ hlive := by
    change p ∈ (vfsBoot 0x1000).live at hlive
    rw [vfsBoot_eq (by decide), List.mem_singleton] at hlive
    exact hroot (hlive ▸ hp)

/-- A header at `addr`. -/
def putHeader (mem : ByteMem) (addr : Word) (name size : List (BitVec 8)) (typeflag : BitVec 8) :
    ByteMem :=
  (((mem.write addr name).write (addr + 124) size).write (addr + 156) [typeflag]).write (addr + 257)
    (tmagic ++ tversion)

/-- An empty file `a`. -/
def oneName : ByteMem :=
  let zeros : ByteMem := fun _ => 0
  putHeader zeros 0x1000 [0x61] [0x30] tarTypeReg

theorem tar_entry_at_full_name_iff_one :
    ∃ fs' log, tarLoad (ramfsTarVfs (bumpAlloc exampleHhdm) exampleHhdm) oneName 0x1000 512
        (freshRamfs [0x2000]) = some (0, fs', log) ∧ (0x1000, 0x2000) ∈ log.stored ∧
      fs'.tree.Follows 0x1000 (components (slash :: tarName oneName 0x1000)) 0x2000 := by
  have hrun : (tarLoad (ramfsTarVfs (bumpAlloc exampleHhdm) exampleHhdm) oneName 0x1000 512
      (freshRamfs [0x2000])).map (fun r => (r.1, r.2.2.stored)) = some (0, [(0x1000, 0x2000)]) := by
    decide +kernel
  obtain ⟨⟨res, fs', log⟩, hload, heq⟩ := Option.map_eq_some_iff.mp hrun
  obtain ⟨rfl, hstored⟩ := Prod.mk.inj heq
  have hmem : (0x1000, 0x2000) ∈ log.stored := hstored ▸ List.mem_singleton_self _
  have hroot : (0x1000 : Word) ≠ 0 := by decide
  have hrooted : (freshRamfs [0x2000]).tree.Rooted 0x1000 fun _ => [] :=
    { vfsBoot_rooted hroot with }
  have hfresh : (freshRamfs [0x2000]).tree.Fresh := freshRamfs_fresh (by decide) (by decide)
  obtain ⟨-, hname, -⟩ := tar_entry_at_full_name_iff hrooted hfresh hload
  exact ⟨fs', log, hload, hmem, (hname _ _ hmem).mpr (Or.inl (by decide +kernel))⟩

/-- Two empty files whose names have 100 bytes and differ in the last one. -/
def longNames : ByteMem :=
  let zeros : ByteMem := fun _ => 0
  let name := List.replicate 99 0x61
  putHeader (putHeader zeros 0x1000 (name ++ [0x62]) [0x30] tarTypeReg) 0x1200 (name ++ [0x63])
    [0x30] tarTypeReg

/-- Both are the same node. -/
theorem tar_long_names_collide :
    (tarName longNames 0x1000 = List.replicate 99 0x61 ++ [0x62] ∧
      tarName longNames 0x1200 = List.replicate 99 0x61 ++ [0x63]) ∧
    ∃ fs' log, tarLoad (ramfsTarVfs (bumpAlloc exampleHhdm) exampleHhdm) longNames 0x1000 1024
        (freshRamfs [0x2000, 0x3000]) = some (0, fs', log) ∧
      (0x1000, 0x2000) ∈ log.stored ∧ (0x1200, 0x2000) ∈ log.stored := by
  have hrun : (tarLoad (ramfsTarVfs (bumpAlloc exampleHhdm) exampleHhdm) longNames 0x1000 1024
      (freshRamfs [0x2000, 0x3000])).map (fun r => (r.1, r.2.2.stored)) =
      some (0, [(0x1200, 0x2000), (0x1000, 0x2000)]) := by
    decide +kernel
  obtain ⟨⟨res, fs', log⟩, hload, heq⟩ := Option.map_eq_some_iff.mp hrun
  obtain ⟨rfl, hstored⟩ := Prod.mk.inj heq
  change log.stored = _ at hstored
  refine ⟨by decide +kernel, fs', log, hload, ?_, ?_⟩
  · exact hstored ▸ List.mem_cons_of_mem _ (List.mem_singleton_self _)
  · exact hstored ▸ List.mem_cons_self

end Pros
