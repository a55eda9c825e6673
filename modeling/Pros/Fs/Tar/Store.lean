import Pros.Fs.Tar.Names

/-!
# Storing the entries of an archive

What `tar_load` does to a ramfs, seen as a tree of paths: at the end of a path is nothing, a
directory, or a file with its size and its bytes. An entry makes the directories on its way, and at
its end a directory or a file; what is there already stays what it is, and a file is written over
from its start on.
-/

namespace Pros

/-! ## Trees of paths -/

/-- What is at the end of a path. -/
inductive PathNode
  | dir
  | file (size : ℕ) (bytes : ℕ → BitVec 8)

/-- Writing `bs` at the start of a file. -/
def PathNode.write (bs : List (BitVec 8)) : PathNode → PathNode
  | .dir => .dir
  | .file size bytes => .file (max size bs.length) (overlay bytes 0 bs)

/-- What is at the end of every path. -/
abbrev PathTree := List (List (BitVec 8)) → Option PathNode

/-- An entry of an archive: the components of its path, and the data of a file. -/
structure TarMember where
  path : List (List (BitVec 8))
  isDir : Bool
  bytes : List (BitVec 8)
  deriving DecidableEq

namespace PathTree

variable {T : PathTree} {flags : BitVec 32} {comps goal q : List (List (BitVec 8))}

/-- Everything missing on the way to `goal` is made: a file at the end of `comps` if the flags ask
for one, and directories elsewhere. -/
def make (T : PathTree) (flags : BitVec 32) (comps goal : List (List (BitVec 8))) : PathTree :=
  fun q =>
    if q <+: goal then
      some ((T q).getD (if q = comps ∧ flags &&& vfsFile ≠ 0 then .file 0 fun _ => 0 else .dir))
    else T q

/-- An entry can be stored: no file is on its way, and no directory where it needs a file. -/
structure Accepts (T : PathTree) (e : TarMember) : Prop where
  way : ∀ q, q <+: e.path → q ≠ e.path → ∀ size bytes, T q ≠ some (.file size bytes)
  kind : e.isDir = false → T e.path ≠ some .dir

/-- The tree after the entry was stored. -/
def store (T : PathTree) (e : TarMember) : PathTree :=
  if e.isDir then T.make vfsDirectory e.path e.path
  else Function.update (T.make vfsFile e.path e.path) e.path
    ((T.make vfsFile e.path e.path e.path).map (.write e.bytes))

/-- The tree `T` after the entries of a list were stored, the last of them first. -/
inductive Loaded (T : PathTree) : List TarMember → PathTree → Prop
  | nil : Loaded T [] T
  | cons {e : TarMember} {es : List TarMember} {U : PathTree} (h : Loaded T es U)
    (haccepts : U.Accepts e) : Loaded T (e :: es) (U.store e)

theorem Loaded.trans {es es' : List TarMember} {U V : PathTree} (h : T.Loaded es U)
    (h' : U.Loaded es' V) : T.Loaded (es' ++ es) V := by
  induction h' with
  | nil => exact h
  | cons _ haccepts ih => exact ih.cons haccepts

theorem make_of_some {node : PathNode} (h : T q = some node) :
    T.make flags comps goal q = some node := by
  rw [make, h]
  exact ite_self _

theorem make_of_off_way (h : ¬ q <+: goal) : T.make flags comps goal q = T q := if_neg h

/-- Making the directories above first makes no difference. -/
theorem make_make (hroot : T [] = some .dir) (flags : BitVec 32) :
    (T.make vfsDirectory comps comps.dropLast).make flags comps comps = T.make flags comps comps := by
  funext q
  by_cases hq : q <+: comps
  swap
  · have hq' : ¬ q <+: comps.dropLast := fun h => hq (h.trans (List.dropLast_prefix _))
    rw [make_of_off_way hq, make_of_off_way hq', make_of_off_way hq]
  by_cases hparent : q <+: comps.dropLast
  · by_cases hend : q = comps
    · -- only the empty path is its own parent
      have hnil : q = [] := by
        have := hparent.length_le
        rw [List.length_dropLast, hend] at this
        rw [hend]
        exact List.length_eq_zero_iff.mp (by omega)
      rw [hnil, make_of_some (make_of_some hroot), make_of_some hroot]
    · rw [make, if_pos hq, make, if_pos hparent, make, if_pos hq, if_neg fun h => hend h.1,
        Option.getD_some, if_neg fun h => hend h.1]
  · rw [make, if_pos hq, make_of_off_way hparent, make, if_pos hq]

end PathTree

/-! ## A ramfs as a tree of paths -/

section

variable {α : Type} {A : RamfsAlloc α} {hhdm : Word} {ok : α → ByteMem → (Word → Holding) → Prop}
  {fs fs' : RamfsFs α} {root : Word} {T : PathTree} {data : Word → ℕ → BitVec 8}

/-- The end of the path `q` in a ramfs whose nodes hold the bytes `data`. -/
def ShowsNode (fs : RamfsFs α) (root : Word) (data : Word → ℕ → BitVec 8)
    (q : List (List (BitVec 8))) : Option PathNode → Prop
  | none => ∀ m, ¬ fs.tree.Follows root q m
  | some .dir => ∃ m, fs.tree.Follows root q m ∧ (fs.tree.node m).flags = vfsDirectory
  | some (.file size bytes) => ∃ m, fs.tree.Follows root q m ∧
      (fs.tree.node m).flags = vfsFile ∧ (fs.file m).size.toNat = size ∧ data m = bytes

/-- The ramfs has the contents of the tree of paths. -/
structure Shows (ok : α → ByteMem → (Word → Holding) → Prop) (fs : RamfsFs α) (root : Word)
    (T : PathTree) : Prop where
  rooted : ∃ kids, fs.tree.Rooted root kids
  fresh : fs.tree.Fresh
  top : T [] = some .dir
  nodes : ∃ entry data, fs.Ok ok entry data ∧ ∀ q, ShowsNode fs root data q (T q)

/-- A call that finds what it looks for makes what is missing on the way. -/
theorem Shows.outcome (h : Shows ok fs root T) {flags : BitVec 32}
    {comps goal : List (List (BitVec 8))} {n : Word} {t : VfsTree}
    (ho : VfsTree.Outcome fs.tree root flags [] comps goal n t) (hn : n ≠ 0) :
    Shows ok (fs.setTree t) root (T.make flags comps goal) := by
  obtain ⟨kids, hrooted⟩ := h.rooted
  obtain ⟨entry, data, hok, hnodes⟩ := h.nodes
  have hlive : ∀ {q m}, fs.tree.Follows root q m → m ∈ fs.tree.live := fun hq =>
    hrooted.follows_live hq hrooted.root_live
  have hold : ∀ {m}, m ∈ fs.tree.live → (fs.setTree t).file m = fs.file m := fun hm =>
    if_neg fun hnew => hnew.2 hm
  refine ⟨ho.rooted, ho.fresh, PathTree.make_of_some h.top, _, _, hok.setTree ho.live, fun q => ?_⟩
  have hq := hnodes q
  match hT : T q with
  | some .dir =>
    rw [PathTree.make_of_some hT]
    rw [hT] at hq
    obtain ⟨m, hm, hflags⟩ := hq
    exact ⟨m, ho.follows q m hm, (ho.flags_eq m (hlive hm)).trans hflags⟩
  | some (.file size bytes) =>
    rw [PathTree.make_of_some hT]
    rw [hT] at hq
    obtain ⟨m, hm, hflags, hsize, hdata⟩ := hq
    refine ⟨m, ho.follows q m hm, (ho.flags_eq m (hlive hm)).trans hflags, ?_, ?_⟩
    · rwa [hold (hlive hm)]
    · exact (if_pos (hlive hm)).trans hdata
  | none =>
    rw [hT] at hq
    by_cases hgoal : q <+: goal
    · -- the node is new
      obtain ⟨m, hm⟩ := (ho.found hn).1.beginning hgoal
      obtain ⟨kids', hrooted'⟩ := ho.rooted
      have hm' : m ∈ t.live := hrooted'.follows_live hm hrooted'.root_live
      rcases ho.made q m hm with hbefore | ⟨hnew, -, -, hmade⟩
      · exact absurd hbefore (hq m)
      rw [PathTree.make, if_pos hgoal, hT, Option.getD_none]
      rw [VfsTree.Made] at hmade
      by_cases hfile : q = comps ∧ flags &&& vfsFile ≠ 0
      · rw [List.nil_append, if_pos hfile] at hmade
        rw [if_pos hfile]
        refine ⟨m, hm, hmade, ?_, if_neg hnew⟩
        exact congrArg (fun file : RamfsNode => file.size.toNat) (if_pos ⟨hm', hnew⟩)
      · rw [List.nil_append, if_neg hfile] at hmade
        rw [if_neg hfile]
        exact ⟨m, hm, hmade.2⟩
    · rw [PathTree.make_of_off_way hgoal, hT]
      intro m hm
      rcases ho.made q m hm with hbefore | ⟨-, -, hsub, -⟩
      · exact hq m hbefore
      · exact hgoal hsub

/-- At the end of a path that leads to a node. -/
theorem Shows.of_follows (h : Shows ok fs root T) {q : List (List (BitVec 8))} {m : Word}
    (hm : fs.tree.Follows root q m) :
    (T q = some .dir ∧ (fs.tree.node m).flags = vfsDirectory) ∨
      ∃ size bytes, T q = some (.file size bytes) ∧ (fs.tree.node m).flags = vfsFile := by
  obtain ⟨kids, hrooted⟩ := h.rooted
  obtain ⟨entry, data, -, hnodes⟩ := h.nodes
  have hq := hnodes q
  match hT : T q with
  | none =>
    rw [hT] at hq
    exact absurd hm (hq m)
  | some .dir =>
    rw [hT] at hq
    obtain ⟨m', hm', hflags⟩ := hq
    exact Or.inl ⟨rfl, hrooted.follows_unique hrooted.root_live hm' hm ▸ hflags⟩
  | some (.file size bytes) =>
    rw [hT] at hq
    obtain ⟨m', hm', hflags, -⟩ := hq
    exact Or.inr ⟨size, bytes, rfl, hrooted.follows_unique hrooted.root_live hm' hm ▸ hflags⟩

/-- A path in the tree leads to a node. -/
theorem Shows.exists_follows (h : Shows ok fs root T) {q : List (List (BitVec 8))} {node : PathNode}
    (hT : T q = some node) : ∃ m, fs.tree.Follows root q m := by
  obtain ⟨entry, data, -, hnodes⟩ := h.nodes
  have hq := hnodes q
  rw [hT] at hq
  cases node with
  | dir => exact hq.imp fun m hm => hm.1
  | file size bytes => exact hq.imp fun m hm => hm.1

theorem Shows.exists_follows_iff (h : Shows ok fs root T) {q : List (List (BitVec 8))} :
    (∃ m, fs.tree.Follows root q m) ↔ (T q).isSome := by
  constructor
  · rintro ⟨m, hm⟩
    rcases h.of_follows hm with ⟨hT, -⟩ | ⟨size, bytes, hT, -⟩ <;> rw [hT] <;> rfl
  · intro hsome
    obtain ⟨node, hT⟩ := Option.isSome_iff_exists.mp hsome
    exact h.exists_follows hT

/-- A call that is stuck has a file on its way, or something is missing there. -/
theorem Shows.stuck (h : Shows ok fs root T) {flags : BitVec 32} {comps : List (List (BitVec 8))}
    (hstuck : VfsTree.Stuck fs.tree root flags [] comps) :
    (∃ q size bytes, q <+: comps ∧ q ≠ comps ∧ T q = some (.file size bytes)) ∨
      ∃ q, q <+: comps ∧ T q = none ∧ ¬ (q = comps ∧ flags &&& vfsFile ≠ 0) ∧
        ¬ flags &&& vfsDirectory ≠ 0 := by
  rcases hstuck with ⟨q, m, hsub, hne, hm, hdir⟩ | ⟨q, hsub, hnone, hflags⟩
  · refine Or.inl ?_
    rcases h.of_follows hm with ⟨-, hflags⟩ | ⟨size, bytes, hT, -⟩
    · rw [VfsTree.isDir, hflags] at hdir
      cases hdir
    · exact ⟨q, size, bytes, hsub, hne, hT⟩
  · refine Or.inr ⟨q, hsub, ?_, hflags⟩
    cases hT : T q with
    | none => rfl
    | some node =>
      obtain ⟨m, hm⟩ := h.exists_follows hT
      exact absurd hm (hnone m)

/-- Writing a file from its start on. -/
theorem Shows.write (spec : RamfsFilesSpec A hhdm ok) (h : Shows ok fs root T)
    {p : List (List (BitVec 8))} {n : Word} (hn : fs.tree.Follows root p n) {size : ℕ}
    {bytes : ℕ → BitVec 8} (hT : T p = some (.file size bytes)) {buffer : List (BitVec 8)}
    (hlen : buffer.length < 2 ^ 63) :
    ∃ (count : ℕ) (fs' : RamfsFs α), (ramfsVfs A hhdm).write fs n 0 buffer = ((count : Int), fs') ∧
      fs'.tree = fs.tree ∧ A.failures fs.alloc ≤ A.failures fs'.alloc ∧
      (A.failures fs'.alloc = A.failures fs.alloc → count = buffer.length) ∧
      (count = buffer.length →
        Shows ok fs' root (Function.update T p ((T p).map (.write buffer)))) := by
  obtain ⟨kids, hrooted⟩ := h.rooted
  obtain ⟨entry, data, hok, hnodes⟩ := h.nodes
  have hlive : n ∈ fs.tree.live := hrooted.follows_live hn hrooted.root_live
  obtain ⟨hflags, hsize, hdata⟩ : (fs.tree.node n).flags = vfsFile ∧
      (fs.file n).size.toNat = size ∧ data n = bytes := by
    have hp := hnodes p
    rw [hT] at hp
    obtain ⟨m, hm, hrest⟩ := hp
    exact hrooted.follows_unique hrooted.root_live hm hn ▸ hrest
  have hfile : (fs.tree.node n).flags &&& vfsFile ≠ 0 := by
    rw [hflags]
    decide
  obtain ⟨count, s', entry', hwrite, hcount, hmono, hall, hok', -, hsize'⟩ :=
    hok.write spec hlive hfile (show (0 : Word).toNat + buffer.length < 2 ^ 63 by simpa using hlen)
  refine ⟨count, fs.setState n s', ?_, rfl, hmono, hall, fun hfull => ?_⟩
  · simp only [ramfsVfs, hwrite]
  refine ⟨⟨kids, hrooted⟩, h.fresh, ?_, _, _, hok', fun q => ?_⟩
  · by_cases hp : p = []
    · rw [hp, h.top] at hT
      cases hT
    · rw [Function.update_of_ne (Ne.symm hp)]
      exact h.top
  by_cases hq : q = p
  · subst hq
    rw [Function.update_self, hT]
    refine ⟨n, hn, hflags, ?_, ?_⟩
    · change (Function.update fs.file n s'.node n).size.toNat = _
      rw [Function.update_self, hsize', hsize, hfull]
      split
      · omega
      · simp
    · rw [Function.update_self, hdata, hfull, List.take_length]
      rfl
  · -- the other nodes are what they were
    rw [Function.update_of_ne hq]
    have hother : ∀ {m}, fs.tree.Follows root q m → m ≠ n := by
      rintro m hm rfl
      exact hq (hrooted.path_unique hm hn)
    have hbefore := hnodes q
    rcases hTq : T q with _ | _ | ⟨size', bytes'⟩
    · rw [hTq] at hbefore
      exact hbefore
    · rw [hTq] at hbefore
      exact hbefore
    · rw [hTq] at hbefore
      obtain ⟨m, hm, hflags', hsize'', hdata'⟩ := hbefore
      refine ⟨m, hm, hflags', ?_, ?_⟩
      · change (Function.update fs.file n s'.node m).size.toNat = _
        rwa [Function.update_of_ne (hother hm)]
      · rwa [Function.update_of_ne (hother hm)]

/-! ## One entry -/

/-- The entry of a header, at the path that is built for it. -/
def tarMember (mem : ByteMem) (a : Word) : TarMember where
  path := components (tarPath mem a)
  isDir := tarTypeflag mem a = tarTypeDir
  bytes := mem.bytes (a + tarBlockSize) (tarHeaderSize mem a).toNat

/-- There is no file on a way that leads to a directory. -/
theorem Shows.not_file (h : Shows ok fs root T) {q r : List (List (BitVec 8))} {m : Word}
    (hr : fs.tree.Follows root r m) (hdir : fs.tree.isDir m = true) (hsub : q <+: r) (size : ℕ)
    (bytes : ℕ → BitVec 8) : T q ≠ some (.file size bytes) := by
  intro hT
  obtain ⟨kids, hrooted⟩ := h.rooted
  obtain ⟨d, hd⟩ := hr.beginning hsub
  have hd' : fs.tree.isDir d = true := by
    by_cases hq : q = r
    · subst hq
      exact hrooted.follows_unique hrooted.root_live hr hd ▸ hdir
    · exact hrooted.isDir_of_lt hd hr hsub hq
  rcases h.of_follows hd with ⟨hT', -⟩ | ⟨-, -, -, hflags⟩
  · rw [hT] at hT'
    cases hT'
  · rw [VfsTree.isDir, hflags] at hd'
    cases hd'

variable (A hhdm) in
/-- `vfs_mkdir_parents` on the path of an entry: the directories above it are made, unless there is a
file on the way. -/
theorem Shows.mkdirParents (h : Shows ok fs root T) (mem : ByteMem) (a : Word) :
    ∃ parent t, (ramfsTarVfs A hhdm).mkdirParents fs (tarPath mem a) = (parent, fs.setTree t) ∧
      fs.tree.failures ≤ t.failures ∧
      (parent = 0 → t.failures = fs.tree.failures → ¬ T.Accepts (tarMember mem a)) ∧
      (parent ≠ 0 →
        Shows ok (fs.setTree t) root
          (T.make vfsDirectory (tarMember mem a).path (tarMember mem a).path.dropLast) ∧
        ∀ q, q <+: (tarMember mem a).path → q ≠ (tarMember mem a).path → ∀ size bytes,
          T.make vfsDirectory (tarMember mem a).path (tarMember mem a).path.dropLast q ≠
            some (.file size bytes)) := by
  obtain ⟨kids, hrooted⟩ := h.rooted
  obtain ⟨parent, t, hcall, hmono, ho⟩ := (ramfsTarVfs_call A hhdm hrooted h.fresh mem a).1
  refine ⟨parent, t, hcall, hmono, fun hzero hsame haccepts => ?_, fun hparent => ?_⟩
  · rcases h.stuck (ho.stuck hzero hsame).2 with ⟨q, size, bytes, hsub, hne, hT⟩ | ⟨q, -, -, -, hdir⟩
    · exact haccepts.way q hsub hne size bytes hT
    · exact hdir (by decide)
  · have h₁ := h.outcome ho hparent
    refine ⟨h₁, fun q hsub hne => ?_⟩
    obtain ⟨hfollows, hdir⟩ := ho.found hparent
    have hshort : (tarMember mem a).path.dropLast ≠ (tarMember mem a).path := by
      intro heq
      have hlen := congrArg List.length heq
      have hnil : (tarMember mem a).path = [] := by
        rw [List.length_dropLast] at hlen
        exact List.length_eq_zero_iff.mp (by omega)
      rw [hnil] at hsub hne
      exact hne (List.prefix_nil.mp hsub)
    exact h₁.not_file hfollows (hdir hshort) (prefix_dropLast hsub hne)

variable (A hhdm) in
/-- `vfs_create` on the path of an entry, once the directories above it are there. -/
theorem Shows.create {mem : ByteMem} {a : Word} (htop : T [] = some .dir)
    (h : Shows ok fs root
      (T.make vfsDirectory (tarMember mem a).path (tarMember mem a).path.dropLast))
    (hway : ∀ q, q <+: (tarMember mem a).path → q ≠ (tarMember mem a).path → ∀ size bytes,
      T.make vfsDirectory (tarMember mem a).path (tarMember mem a).path.dropLast q ≠
        some (.file size bytes))
    {flags : BitVec 32} (hflags : flags = vfsDirectory ∨ flags = vfsFile) :
    ∃ n t, (ramfsTarVfs A hhdm).create fs (tarPath mem a) flags = (n, fs.setTree t) ∧
      fs.tree.failures ≤ t.failures ∧ (n = 0 → t.failures ≠ fs.tree.failures) ∧
      (n ≠ 0 →
        Shows ok (fs.setTree t) root (T.make flags (tarMember mem a).path (tarMember mem a).path) ∧
        t.Follows root (tarMember mem a).path n) := by
  obtain ⟨kids, hrooted⟩ := h.rooted
  obtain ⟨n, t, hcall, hmono, ho⟩ := (ramfsTarVfs_call A hhdm hrooted h.fresh mem a).2 flags
  refine ⟨n, t, hcall, hmono, fun hzero hsame => ?_, fun hn => ⟨?_, (ho.found hn).1⟩⟩
  · rcases h.stuck (ho.stuck hzero hsame).2 with
      ⟨q, size, bytes, hsub, hne, hT⟩ | ⟨q, hsub, hT, hend, hdir⟩
    · exact hway q hsub hne size bytes hT
    · -- what is missing above was made, and the end is asked for
      rcases hflags with rfl | rfl
      · exact hdir (by decide)
      · have hne : q ≠ (tarMember mem a).path := fun heq => hend ⟨heq, by decide⟩
        have hparent : q <+: (tarMember mem a).path.dropLast := prefix_dropLast hsub hne
        rw [PathTree.make, if_pos hparent] at hT
        cases hT
  · have hshows := h.outcome ho hn
    rwa [show components (tarPath mem a) = (tarMember mem a).path from rfl,
      PathTree.make_make htop] at hshows

variable (A hhdm) in
theorem ramfsVfs_write_dir {n : Word} (hdir : (fs.tree.node n).flags = vfsDirectory) (offset : Word)
    (buffer : List (BitVec 8)) :
    (ramfsVfs A hhdm).write fs n offset buffer = (-einval, fs.setState n (fs.state n)) := by
  have hflags : (fs.state n).node.flags &&& vfsFile = 0 := by
    change (fs.tree.node n).flags &&& vfsFile = 0
    rw [hdir]
    decide
  have hops : ramfsOpsWrite A hhdm (fs.state n) offset buffer = some (-einval, fs.state n) :=
    if_pos hflags
  simp only [ramfsVfs, hops]

/-- Storing an entry of the archive is storing it in the tree of paths: it succeeds if the tree
accepts the entry and no allocation fails. -/
theorem Shows.tarStore (spec : RamfsFilesSpec A hhdm ok) (h : Shows ok fs root T) {mem : ByteMem}
    {a : Word} {node : Option Word} {count : ℕ}
    (hstore : Pros.tarStore (ramfsTarVfs A hhdm) mem a fs = (node, count, fs')) :
    fs.tree.failures ≤ fs'.tree.failures ∧ A.failures fs.alloc ≤ A.failures fs'.alloc ∧
      (∀ n, node = some n →
        T.Accepts (tarMember mem a) ∧ Shows ok fs' root (T.store (tarMember mem a))) ∧
      (node = none → fs'.tree.failures = fs.tree.failures → A.failures fs'.alloc = A.failures fs.alloc →
        ¬ T.Accepts (tarMember mem a)) := by
  obtain ⟨parent, t₁, hmkdir, hmono₁, hnone, hsome⟩ := h.mkdirParents A hhdm mem a
  by_cases hparent : parent = 0
  · rw [tarStore_noParent (hparent ▸ hmkdir)] at hstore
    obtain ⟨rfl, -, rfl⟩ := hstore
    exact ⟨hmono₁, le_rfl, nofun, fun _ hsame _ => hnone hparent hsame⟩
  obtain ⟨h₁, hway₁⟩ := hsome hparent
  have hway : ∀ q, q <+: (tarMember mem a).path → q ≠ (tarMember mem a).path → ∀ size bytes,
      T q ≠ some (.file size bytes) := fun q hsub hne size bytes hT =>
    hway₁ q hsub hne size bytes (PathTree.make_of_some hT)
  by_cases hdir : tarTypeflag mem a = tarTypeDir
  · have hisDir : (tarMember mem a).isDir = true := decide_eq_true hdir
    obtain ⟨n, t, hcreate, hmono, hzero, hfound⟩ := h₁.create A hhdm h.top hway₁ (Or.inl rfl)
    rw [tarStore_dir hmkdir hparent hdir hcreate] at hstore
    obtain ⟨rfl, -, rfl⟩ := hstore
    refine ⟨hmono₁.trans hmono, le_rfl, fun m hm => ⟨⟨hway, fun hfile => ?_⟩, ?_⟩, ?_⟩
    · rw [hisDir] at hfile
      cases hfile
    · have hn : n ≠ 0 := by
        rintro rfl
        cases hm
      rw [PathTree.store, if_pos hisDir]
      exact (hfound hn).1
    · intro hnone' hsame _ _
      have hn : n = 0 := by
        by_contra hn
        rw [if_neg hn] at hnone'
        cases hnone'
      refine hzero hn (le_antisymm ?_ hmono)
      exact hsame.le.trans hmono₁
  · have hisDir : (tarMember mem a).isDir = false := decide_eq_false hdir
    obtain ⟨n, t, hcreate, hmono, hzero, hfound⟩ := h₁.create A hhdm h.top hway₁ (Or.inr rfl)
    by_cases hn : n = 0
    · rw [tarStore_noFile hmkdir hparent hdir (hn ▸ hcreate)] at hstore
      obtain ⟨rfl, -, rfl⟩ := hstore
      refine ⟨hmono₁.trans hmono, le_rfl, nofun, fun _ hsame _ _ => ?_⟩
      exact hzero hn (le_antisymm (hsame.le.trans hmono₁) hmono)
    obtain ⟨h₂, hfollows⟩ := hfound hn
    rw [tarStore_file hmkdir hparent hdir hcreate hn, tarWrite_eq] at hstore
    rcases h₂.of_follows hfollows with ⟨hT, hflags⟩ | ⟨size, bytes, hT, -⟩
    · -- a directory is not written
      rw [ramfsVfs_write_dir A hhdm hflags, if_pos (by simp [einval])] at hstore
      obtain ⟨rfl, -, rfl⟩ := hstore
      refine ⟨hmono₁.trans hmono, le_rfl, nofun, fun _ _ _ haccepts => ?_⟩
      refine haccepts.kind hisDir ?_
      match hT' : T (tarMember mem a).path with
      | some node =>
        rw [PathTree.make_of_some hT'] at hT
        exact hT
      | none =>
        rw [PathTree.make, if_pos List.prefix_rfl, hT', Option.getD_none,
          if_pos ⟨rfl, by decide⟩] at hT
        cases hT
    · have hlen : (mem.bytes (a + tarBlockSize) (tarHeaderSize mem a).toNat).length < 2 ^ 63 := by
        rw [ByteMem.length_bytes]
        exact (tarHeaderSize_lt mem a).trans (by decide)
      obtain ⟨written, fs₃, hwrite, htree, hmono₃, hfull, hshows⟩ :=
        h₂.write spec hfollows hT hlen
      rw [hwrite] at hstore
      obtain ⟨rfl, -, rfl⟩ := hstore
      refine ⟨htree ▸ hmono₁.trans hmono, hmono₃, fun m hm => ⟨⟨hway, fun _ hT' => ?_⟩, ?_⟩, ?_⟩
      · rw [PathTree.make_of_some hT'] at hT
        cases hT
      · have hcount : written = (mem.bytes (a + tarBlockSize) (tarHeaderSize mem a).toNat).length := by
          by_contra hne
          rw [if_pos fun heq => hne (Int.ofNat_inj.mp heq)] at hm
          cases hm
        rw [PathTree.store, if_neg (by simp [hisDir])]
        exact hshows hcount
      · intro hnone' _ hsame _
        rw [if_neg (not_not.mpr (congrArg Nat.cast (hfull hsame)))] at hnone'
        cases hnone'

/-! ## Runs -/

/-- Loading an archive is storing its entries one after the other. -/
theorem Shows.tarLoop (spec : RamfsFilesSpec A hhdm ok) {mem : ByteMem} {last a : Word} {fuel : ℕ}
    {log log' : TarLog} {res : Int} (h : Shows ok fs root T)
    (hrun : Pros.tarLoop (ramfsTarVfs A hhdm) mem last fuel a fs log = some (res, fs', log')) :
    ∃ stored U, log'.stored = stored ++ log.stored ∧
      T.Loaded (stored.map fun e => tarMember mem e.1) U ∧ (res = 0 → Shows ok fs' root U) := by
  induction fuel generalizing a fs log T with
  | zero => cases hrun
  | succ fuel ih =>
    by_cases hlt : a < last
    swap
    · rw [tarLoop_end hlt] at hrun
      cases hrun
      exact ⟨[], T, rfl, .nil, fun _ => h⟩
    by_cases hname : mem a = 0
    · rw [tarLoop_zero hlt hname] at hrun
      cases hrun
      exact ⟨[], T, rfl, .nil, fun _ => h⟩
    by_cases hmagic : mem.bytes (a + 257) 6 = tmagic
    swap
    · rw [tarLoop_magic hlt hname hmagic] at hrun
      cases hrun
      exact ⟨[], T, rfl, .nil, nofun⟩
    by_cases hversion : mem.bytes (a + 263) 2 = tversion
    swap
    · rw [tarLoop_version hlt hname hmagic hversion] at hrun
      cases hrun
      exact ⟨[], T, rfl, .nil, nofun⟩
    by_cases hstores : TarStores mem a
    swap
    · rw [tarLoop_skip hlt hname hmagic hversion hstores] at hrun
      obtain ⟨stored, U, hlog, hrest⟩ := ih h hrun
      exact ⟨stored, U, hlog, hrest⟩
    rw [tarLoop_store hlt hname hmagic hversion hstores] at hrun
    rcases hstore : Pros.tarStore (ramfsTarVfs A hhdm) mem a fs with ⟨_ | node, count, fs₁⟩
    · rw [hstore] at hrun
      cases hrun
      exact ⟨[], T, rfl, .nil, nofun⟩
    · obtain ⟨-, -, hsome, -⟩ := h.tarStore spec hstore
      obtain ⟨haccepts, h₁⟩ := hsome node rfl
      rw [hstore] at hrun
      obtain ⟨stored, U, hlog, hloaded, hshows⟩ := ih h₁ hrun
      refine ⟨stored ++ [(a, node)], U, ?_, ?_, hshows⟩
      · rw [hlog, List.append_assoc]
        rfl
      · rw [List.map_append]
        exact (PathTree.Loaded.nil.cons haccepts).trans hloaded

end

end Pros
