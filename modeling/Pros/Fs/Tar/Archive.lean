import Pros.Fs.Tar.Store
import Mathlib.Order.Bounds.Basic

/-!
# Loaded archives

What is in the tree after `tar_load`. An entry whose path exists already finds the node that is there:
a file keeps the bytes beyond the new data, and a directory entry leaves a file as it is.
-/

namespace Pros

/-! ## Files at a path -/

namespace PathTree

variable {T U V : PathTree} {es later earlier : List TarMember} {e : TarMember}
  {flags : BitVec 32} {comps goal p q : List (List (BitVec 8))}

/-- The sizes of the file that was at the end of `p` and of the entries for files there. -/
def fileSizes (T : PathTree) (es : List TarMember) (p : List (List (BitVec 8))) : Set ℕ :=
  { size | (∃ bytes, T p = some (.file size bytes)) ∨
    ∃ e ∈ es, e.path = p ∧ e.isDir = false ∧ e.bytes.length = size }

/-- Making other things makes no file. -/
theorem make_eq_file_iff (hq : ¬ (q = comps ∧ flags &&& vfsFile ≠ 0)) {size : ℕ}
    {bytes : ℕ → BitVec 8} :
    T.make flags comps goal q = some (.file size bytes) ↔ T q = some (.file size bytes) := by
  match hT : T q with
  | some node => rw [make_of_some hT]
  | none =>
    rw [make, hT, Option.getD_none, if_neg hq]
    split <;> simp

theorem store_eq_file_iff (hp : ¬ (e.path = p ∧ e.isDir = false)) {size : ℕ}
    {bytes : ℕ → BitVec 8} :
    T.store e p = some (.file size bytes) ↔ T p = some (.file size bytes) := by
  rw [store]
  by_cases hdir : e.isDir = true
  · rw [if_pos hdir]
    exact make_eq_file_iff fun h => h.2 (by decide)
  · have hne : p ≠ e.path := fun h => hp ⟨h.symm, by simpa using hdir⟩
    rw [if_neg hdir, Function.update_of_ne hne]
    exact make_eq_file_iff fun h => hne h.1

/-- A file entry at a new path. -/
theorem store_file_of_none (hfile : e.isDir = false) (h : T e.path = none) :
    T.store e e.path = some (.file e.bytes.length (overlay (fun _ => 0) 0 e.bytes)) := by
  rw [store, if_neg (by simp [hfile]), Function.update_self, make, if_pos List.prefix_rfl, h,
    Option.getD_none, if_pos ⟨rfl, by decide⟩, Option.map_some, PathNode.write, Nat.zero_max]

/-- A file entry at the path of a file. -/
theorem store_file_of_file (hfile : e.isDir = false) {size : ℕ} {bytes : ℕ → BitVec 8}
    (h : T e.path = some (.file size bytes)) :
    T.store e e.path =
      some (.file (max size e.bytes.length) (overlay bytes 0 e.bytes)) := by
  rw [store, if_neg (by simp [hfile]), Function.update_self, make_of_some h, Option.map_some,
    PathNode.write]

theorem store_dir (hdir : e.isDir = true) : T.store e e.path = some ((T e.path).getD .dir) := by
  rw [store, if_pos hdir, make, if_pos List.prefix_rfl, if_neg fun h => h.2 (by decide)]

/-- What is at a path stays while entries with other paths are stored. -/
theorem Loaded.keeps (h : T.Loaded es U) {node : PathNode} (hT : T p = some node)
    (hother : ∀ e ∈ es, e.path ≠ p) : U p = some node := by
  induction h with
  | nil => exact hT
  | @cons e es U _ _ ih =>
    have hU := ih fun e he => hother e (List.mem_cons_of_mem _ he)
    have hne : p ≠ e.path := Ne.symm (hother e List.mem_cons_self)
    rw [store]
    split
    · exact make_of_some hU
    · rw [Function.update_of_ne hne]
      exact make_of_some hU

theorem Loaded.split (h : T.Loaded (later ++ earlier) V) :
    ∃ U, T.Loaded earlier U ∧ U.Loaded later V := by
  induction later generalizing V with
  | nil => exact ⟨V, h, .nil⟩
  | cons e later ih =>
    cases h with
    | cons h haccepts =>
      obtain ⟨U, hearlier, hlater⟩ := ih h
      exact ⟨U, hearlier, hlater.cons haccepts⟩

theorem fileSizes_cons_of_not (hp : ¬ (e.path = p ∧ e.isDir = false)) :
    T.fileSizes (e :: es) p = T.fileSizes es p := by
  ext size
  simp only [fileSizes, Set.mem_ofPred_eq, List.mem_cons]
  refine or_congr_right ⟨?_, ?_⟩
  · rintro ⟨x, rfl | hx, hpath, hfile, hsize⟩
    · exact absurd ⟨hpath, hfile⟩ hp
    · exact ⟨x, hx, hpath, hfile, hsize⟩
  · rintro ⟨x, hx, hrest⟩
    exact ⟨x, Or.inr hx, hrest⟩

theorem fileSizes_cons (hp : e.path = p) (hfile : e.isDir = false) :
    T.fileSizes (e :: es) p = insert e.bytes.length (T.fileSizes es p) := by
  ext size
  simp only [fileSizes, Set.mem_ofPred_eq, List.mem_cons, Set.mem_insert_iff]
  constructor
  · rintro (hT | ⟨x, rfl | hx, hpath, hxfile, hsize⟩)
    · exact Or.inr (Or.inl hT)
    · exact Or.inl hsize.symm
    · exact Or.inr (Or.inr ⟨x, hx, hpath, hxfile, hsize⟩)
  · rintro (rfl | hT | ⟨x, hx, hrest⟩)
    · exact Or.inr ⟨e, Or.inl rfl, hp, hfile, rfl⟩
    · exact Or.inl hT
    · exact Or.inr ⟨x, Or.inr hx, hrest⟩

/-- A file has the largest of the sizes it was given, and where there is no file there was none. -/
theorem Loaded.fileSizes (h : T.Loaded es U) (p : List (List (BitVec 8))) :
    (∀ size bytes, U p = some (.file size bytes) → IsGreatest (T.fileSizes es p) size) ∧
      ((∀ size bytes, U p ≠ some (.file size bytes)) → T.fileSizes es p = ∅) := by
  induction h with
  | nil =>
    constructor
    · rintro size bytes hT
      refine ⟨Or.inl ⟨bytes, hT⟩, ?_⟩
      rintro size' (⟨bytes', hT'⟩ | ⟨x, hx, -⟩)
      · rw [hT] at hT'
        cases hT'
        exact le_rfl
      · cases hx
    · intro hnone
      refine Set.eq_empty_of_forall_notMem ?_
      rintro size (⟨bytes, hT⟩ | ⟨x, hx, -⟩)
      · exact hnone size bytes hT
      · cases hx
  | @cons e es U _ haccepts ih =>
    by_cases hp : e.path = p ∧ e.isDir = false
    swap
    · rw [fileSizes_cons_of_not hp]
      simp only [store_eq_file_iff hp, ne_eq]
      exact ih
    obtain ⟨rfl, hfile⟩ := hp
    rw [fileSizes_cons rfl hfile]
    match hU : U e.path with
    | none =>
      rw [store_file_of_none hfile hU, ih.2 (by simp [hU])]
      refine ⟨fun size bytes heq => ?_, fun hnone => absurd rfl (hnone _ _)⟩
      cases heq
      simp
    | some .dir => exact absurd hU (haccepts.kind hfile)
    | some (.file size bytes) =>
      rw [store_file_of_file hfile hU]
      refine ⟨fun size' bytes' heq => ?_, fun hnone => absurd rfl (hnone _ _)⟩
      cases heq
      rw [max_comm]
      exact (ih.1 size bytes hU).insert _

/-- What the last entry of a path leaves there. -/
theorem Loaded.last (h : T.Loaded (later ++ e :: earlier) U) (hlast : ∀ x ∈ later, x.path ≠ e.path) :
    (e.isDir = true → (U e.path = some .dir ↔ T.fileSizes earlier e.path = ∅)) ∧
    (e.isDir = false → ∃ size bytes, U e.path = some (.file size (overlay bytes 0 e.bytes)) ∧
      (size = e.bytes.length ↔ ∀ s ∈ T.fileSizes earlier e.path, s ≤ e.bytes.length)) := by
  obtain ⟨V, hfirst, hlater⟩ := h.split
  obtain ⟨W, hearlier, haccepts, rfl⟩ : ∃ W, T.Loaded earlier W ∧ W.Accepts e ∧ V = W.store e := by
    cases hfirst with
    | cons hW haccepts => exact ⟨_, hW, haccepts, rfl⟩
  have hkeeps : ∀ node, W.store e e.path = some node → U e.path = some node := fun node hnode =>
    hlater.keeps hnode hlast
  obtain ⟨hgreatest, hempty⟩ := hearlier.fileSizes e.path
  constructor
  · intro hdir
    rw [hkeeps _ (store_dir hdir)]
    match hW : W e.path with
    | none => exact iff_of_true rfl (hempty (by simp [hW]))
    | some .dir => exact iff_of_true rfl (hempty (by simp [hW]))
    | some (.file size bytes) =>
      refine iff_of_false (by simp) fun hsizes => ?_
      exact Set.notMem_empty size (hsizes ▸ (hgreatest size bytes hW).1)
  · intro hfile
    match hW : W e.path with
    | none =>
      refine ⟨_, _, hkeeps _ (store_file_of_none hfile hW), iff_of_true rfl fun size hsize => ?_⟩
      rw [hempty (by simp [hW])] at hsize
      exact absurd hsize (Set.notMem_empty size)
    | some .dir => exact absurd hW (haccepts.kind hfile)
    | some (.file size bytes) =>
      refine ⟨_, _, hkeeps _ (store_file_of_file hfile hW), ?_⟩
      rw [max_eq_right_iff]
      obtain ⟨hmem, hle⟩ := hgreatest size bytes hW
      exact ⟨fun hsize size' hsize' => (hle hsize').trans hsize, fun hall => hall size hmem⟩

theorem store_isSome_iff : (T.store e q).isSome ↔ (T q).isSome ∨ q <+: e.path := by
  have hmake : ∀ flags, (T.make flags e.path e.path q).isSome ↔ (T q).isSome ∨ q <+: e.path := by
    intro flags
    rw [make]
    split <;> simp [*]
  rw [store]
  split
  · exact hmake _
  · by_cases hq : q = e.path
    · subst hq
      rw [Function.update_self, Option.isSome_map]
      exact hmake _
    · rw [Function.update_of_ne hq]
      exact hmake _

/-- The paths are the old ones and those on the way to an entry. -/
theorem Loaded.isSome_iff (h : T.Loaded es U) :
    (U q).isSome ↔ (T q).isSome ∨ ∃ e ∈ es, q <+: e.path := by
  induction h with
  | nil => simp
  | @cons e es U _ _ ih =>
    rw [store_isSome_iff, ih, List.exists_mem_cons_iff, or_assoc]
    exact or_congr_right or_comm

end PathTree

/-! ## Repeated paths -/

section

variable {α : Type} {A : RamfsAlloc α} {hhdm : Word} {ok : α → ByteMem → (Word → Holding) → Prop}
  {fs fs' : RamfsFs α} {root : Word} {T : PathTree} {e : TarMember} {mem : ByteMem}

/-- The end of the path of an entry is what the entry is: a directory, or a file with its size and
its bytes. -/
def HasMember (A : RamfsAlloc α) (hhdm : Word) (fs : RamfsFs α) (root : Word) (e : TarMember) : Prop :=
  ∃ m, fs.tree.Follows root e.path m ∧
    if e.isDir then (fs.tree.node m).flags = vfsDirectory
    else (fs.tree.node m).flags = vfsFile ∧ (fs.file m).size.toNat = e.bytes.length ∧
      ramfsOpsRead A hhdm (fs.state m) 0 (fs.file m).size = some (.ok e.bytes, fs.state m)

variable (A hhdm) in
theorem Shows.hasMember_dir_iff (h : Shows ok fs root T) (hdir : e.isDir = true) :
    HasMember A hhdm fs root e ↔ T e.path = some .dir := by
  simp only [HasMember, if_pos hdir]
  constructor
  · rintro ⟨m, hm, hflags⟩
    rcases h.of_follows hm with ⟨hT, -⟩ | ⟨-, -, -, hfile⟩
    · exact hT
    · rw [hflags] at hfile
      exact absurd hfile (by decide)
  · intro hT
    obtain ⟨m, hm⟩ := h.exists_follows hT
    rcases h.of_follows hm with ⟨-, hflags⟩ | ⟨size, bytes, hT', -⟩
    · exact ⟨m, hm, hflags⟩
    · rw [hT] at hT'
      cases hT'

theorem dataBytes_overlay (data : ℕ → BitVec 8) (bs : List (BitVec 8)) :
    dataBytes (overlay data 0 bs) 0 bs.length = bs := by
  refine List.ext_getElem (length_dataBytes ..) fun i hi hi' => ?_
  simp [dataBytes, overlay, hi']

variable (A hhdm) in
theorem Shows.hasMember_file_iff (h : Shows ok fs root T) (hfile : e.isDir = false) {size : ℕ}
    {bytes : ℕ → BitVec 8} (hT : T e.path = some (.file size (overlay bytes 0 e.bytes))) :
    HasMember A hhdm fs root e ↔ size = e.bytes.length := by
  obtain ⟨kids, hrooted⟩ := h.rooted
  obtain ⟨entry, data, hok, hnodes⟩ := h.nodes
  have hp := hnodes e.path
  rw [hT] at hp
  obtain ⟨m, hm, hflags, hsize, hdata⟩ := hp
  simp only [HasMember, hfile, Bool.false_eq_true, if_false]
  constructor
  · rintro ⟨m', hm', -, hsize', -⟩
    obtain rfl := hrooted.follows_unique hrooted.root_live hm hm'
    exact hsize.symm.trans hsize'
  · rintro rfl
    refine ⟨m, hm, hflags, hsize, ?_⟩
    have hlive : m ∈ fs.tree.live := hrooted.follows_live hm hrooted.root_live
    have hreads : ReadsAs A hhdm (fs.state m) (data m) :=
      hok.readsAs hlive (by rw [hflags]; decide)
    have hstate : (fs.state m).node.size = (fs.file m).size := rfl
    have hzero : (0 : Word).toNat = 0 := rfl
    rw [hreads, hstate, hsize, hzero, Nat.sub_zero, Nat.min_self, hdata, dataBytes_overlay]

variable (A hhdm) in
/-- When the last entry of a path is what the tree has there. -/
theorem Shows.hasMember_last_iff {U : PathTree} (h : Shows ok fs root U)
    {later earlier : List TarMember} (hloaded : T.Loaded (later ++ e :: earlier) U)
    (hlast : ∀ x ∈ later, x.path ≠ e.path) :
    HasMember A hhdm fs root e ↔
      if e.isDir then T.fileSizes earlier e.path = ∅
      else ∀ size ∈ T.fileSizes earlier e.path, size ≤ e.bytes.length := by
  obtain ⟨hdirs, hfiles⟩ := hloaded.last hlast
  by_cases hdir : e.isDir = true
  · rw [if_pos hdir, h.hasMember_dir_iff A hhdm hdir, hdirs hdir]
  · have hfile : e.isDir = false := by simpa using hdir
    obtain ⟨size, bytes, hU, hsize⟩ := hfiles hfile
    rw [if_neg hdir, h.hasMember_file_iff A hhdm hfile hU, hsize]

/-- With result 0 every entry of a supported type was stored. The last one of a path is what the tree
has there just when it is a directory and no file was there before, or a file and none that was
there before was larger. -/
theorem tar_last_entry_wins_iff (spec : RamfsFilesSpec A hhdm ok) (h : Shows ok fs root T)
    {tarAddr tarSize : Word} {log : TarLog}
    (hload : tarLoad (ramfsTarVfs A hhdm) mem tarAddr tarSize fs = some (0, fs', log)) :
    (∀ b ∈ log.headers, TarStores mem b → ∃ n, (b, n) ∈ log.stored) ∧
    ∀ later a n earlier, log.stored = later ++ (a, n) :: earlier →
      (∀ b ∈ later, (tarMember mem b.1).path ≠ (tarMember mem a).path) →
      (HasMember A hhdm fs' root (tarMember mem a) ↔
        if (tarMember mem a).isDir then
          T.fileSizes (earlier.map fun b => tarMember mem b.1) (tarMember mem a).path = ∅
        else ∀ size ∈ T.fileSizes (earlier.map fun b => tarMember mem b.1) (tarMember mem a).path,
          size ≤ (tarMember mem a).bytes.length) := by
  obtain ⟨kids, hrooted⟩ := h.rooted
  refine ⟨(tarLoad_grows hrooted h.fresh hload).2.2 rfl, fun later a n earlier hstored hlast => ?_⟩
  obtain ⟨U, hloaded, hshows⟩ : ∃ U, T.Loaded (log.stored.map fun b => tarMember mem b.1) U ∧
      Shows ok fs' root U := by
    rw [tarLoad] at hload
    split at hload
    · cases hload
    · obtain ⟨stored, U, hlog, hloaded, hshows⟩ := h.tarLoop spec hload
      rw [List.append_nil] at hlog
      exact ⟨U, hlog ▸ hloaded, hshows rfl⟩
  rw [hstored, List.map_append, List.map_cons] at hloaded
  refine hshows.hasMember_last_iff A hhdm hloaded fun e he => ?_
  obtain ⟨b, hb, rfl⟩ := List.mem_map.mp he
  exact hlast b hb

end

/-! ## A new ramfs -/

/-- Nothing but the root. -/
def PathTree.empty : PathTree := fun q => if q = [] then some .dir else none

/-- A new ramfs at the root is the empty tree. -/
theorem shows_empty {α : Type} {ok : α → ByteMem → (Word → Holding) → Prop} {fs : RamfsFs α}
    {root : Word} {answers : List Word} {entry : Word → ℕ → Word} {data : Word → ℕ → BitVec 8}
    (hroot : root ≠ 0) (htree : fs.tree = { vfsBoot root with answers := answers })
    (hfresh : fs.tree.Fresh) (hok : fs.Ok ok entry data) : Shows ok fs root .empty := by
  have hrooted : fs.tree.Rooted root fun _ => [] := by
    rw [htree]
    exact { vfsBoot_rooted hroot with }
  refine ⟨⟨_, hrooted⟩, hfresh, rfl, entry, data, hok, fun q => ?_⟩
  cases q with
  | nil =>
    have hnode : (vfsBoot root).node root = newNode [slash] vfsDirectory := by
      rw [vfsBoot_eq hroot]
      simp
    refine ⟨root, .nil root, ?_⟩
    rw [htree]
    exact congrArg VfsNode.flags hnode
  | cons name rest =>
    intro m hm
    cases hm with
    | cons _ hchild _ =>
      exact absurd ((hrooted.isChild_iff hrooted.root_live).mp hchild).1 List.not_mem_nil

theorem freshRamfs_shows {answers : List Word} (hfresh : (freshRamfs answers).tree.Fresh) :
    Shows (Bump.FilesOk exampleHhdm) (freshRamfs answers) 0x1000 .empty :=
  shows_empty (by decide) rfl hfresh (RamfsFs.ok_of_no_data fun _ => rfl)

/-- A file `a` with the bytes `first`, and then a file `a` with the bytes `second`, fewer than eight
of each. -/
def repeatedPath (first second : List (BitVec 8)) : ByteMem :=
  let zeros : ByteMem := fun _ => 0
  let digit (bytes : List (BitVec 8)) : BitVec 8 := 0x30 + BitVec.ofNat 8 bytes.length
  let mem := (putHeader zeros 0x1000 [0x61] [digit first] tarTypeReg).write 0x1200 first
  (putHeader mem 0x1400 [0x61] [digit second] tarTypeReg).write 0x1600 second

/-- The second entry is longer than the first one, and the file is the second one. -/
theorem tar_last_entry_wins_iff_longer :
    (tarMember (repeatedPath [0x7a] [0x78, 0x79]) 0x1000 = ⟨[[0x61]], false, [0x7a]⟩ ∧
      tarMember (repeatedPath [0x7a] [0x78, 0x79]) 0x1400 = ⟨[[0x61]], false, [0x78, 0x79]⟩) ∧
    ∃ fs' log, tarLoad (ramfsTarVfs (bumpAlloc exampleHhdm) exampleHhdm)
        (repeatedPath [0x7a] [0x78, 0x79]) 0x1000 2048 (freshRamfs [0x2000]) = some (0, fs', log) ∧
      log.stored = [(0x1400, 0x2000), (0x1000, 0x2000)] ∧
      HasMember (bumpAlloc exampleHhdm) exampleHhdm fs' 0x1000 ⟨[[0x61]], false, [0x78, 0x79]⟩ := by
  have hmembers : tarMember (repeatedPath [0x7a] [0x78, 0x79]) 0x1000 = ⟨[[0x61]], false, [0x7a]⟩ ∧
      tarMember (repeatedPath [0x7a] [0x78, 0x79]) 0x1400 = ⟨[[0x61]], false, [0x78, 0x79]⟩ := by
    decide +kernel
  have hrun : (tarLoad (ramfsTarVfs (bumpAlloc exampleHhdm) exampleHhdm)
      (repeatedPath [0x7a] [0x78, 0x79]) 0x1000 2048 (freshRamfs [0x2000])).map
        (fun r => (r.1, r.2.2.stored)) = some (0, [(0x1400, 0x2000), (0x1000, 0x2000)]) := by
    decide +kernel
  obtain ⟨⟨res, fs', log⟩, hload, heq⟩ := Option.map_eq_some_iff.mp hrun
  obtain ⟨rfl, hstored⟩ := Prod.mk.inj heq
  have hfresh : (freshRamfs [0x2000]).tree.Fresh := freshRamfs_fresh (by decide) (by decide)
  obtain ⟨-, hlast⟩ := tar_last_entry_wins_iff (bumpAlloc_filesSpec exampleHhdm)
    (freshRamfs_shows hfresh) hload
  have hiff := hlast [] 0x1400 0x2000 [(0x1000, 0x2000)] hstored (by simp)
  rw [List.map_singleton, hmembers.1, hmembers.2] at hiff
  refine ⟨hmembers, fs', log, hload, hstored, hiff.mpr ?_⟩
  rw [if_neg (by decide)]
  rintro size (⟨bytes, hT⟩ | ⟨e, he, -, -, rfl⟩)
  · rw [PathTree.empty, if_neg (by decide)] at hT
    cases hT
  · rw [List.mem_singleton.mp he]
    decide

/-- The second byte stays. -/
theorem tar_repeated_path_leftover :
    (tarMember (repeatedPath [0x78, 0x79] [0x7a]) 0x1400 = ⟨[[0x61]], false, [0x7a]⟩ ∧
      tarMember (repeatedPath [0x78, 0x79] [0x7a]) 0x1000 = ⟨[[0x61]], false, [0x78, 0x79]⟩) ∧
    ∃ fs' log, tarLoad (ramfsTarVfs (bumpAlloc exampleHhdm) exampleHhdm) (repeatedPath [0x78, 0x79] [0x7a]) 0x1000 2048
        (freshRamfs [0x2000]) = some (0, fs', log) ∧
      log.stored = [(0x1400, 0x2000), (0x1000, 0x2000)] ∧ (fs'.file 0x2000).size = 2 := by
  have hrun : (tarLoad (ramfsTarVfs (bumpAlloc exampleHhdm) exampleHhdm) (repeatedPath [0x78, 0x79] [0x7a]) 0x1000 2048
      (freshRamfs [0x2000])).map (fun r => (r.1, r.2.2.stored, (r.2.1.file 0x2000).size)) =
      some (0, [(0x1400, 0x2000), (0x1000, 0x2000)], 2) := by
    decide +kernel
  obtain ⟨⟨res, fs', log⟩, hload, heq⟩ := Option.map_eq_some_iff.mp hrun
  obtain ⟨rfl, heq⟩ := Prod.mk.inj heq
  obtain ⟨hstored, hsize⟩ := Prod.mk.inj heq
  exact ⟨by decide +kernel, fs', log, hload, hstored, hsize⟩

end Pros
