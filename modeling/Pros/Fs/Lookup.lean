import Pros.Fs.Ramfs.Nodes

/-!
# Path lookup

`kernel/src/fs/vfs/vfs.c`: mounts, and the one loop that looks paths up, creates what they name and
creates the directories above it. A path is the list of its bytes without the NUL.
-/

namespace Pros

/-- The separator of components. -/
abbrev slash : BitVec 8 := 0x2f

/-- The mount that `vfs_mount` fills in: the path is cut to fit. -/
def newMount (path : List (BitVec 8)) (root : Word) : VfsMount where
  path := snprintfString vfsNameSize path
  root := root
  fits := snprintfString_fits path
  noNul := zero_notMem_snprintfString _ path

/-- `vfs_mount`; `allocated` is whether `kmalloc` had memory for the mount. -/
def vfsMount (t : VfsTree) (path : List (BitVec 8)) (rootNode : Word) (allocated : Bool) :
    Int × VfsTree :=
  if rootNode = 0 then (-1, t)
  else if allocated = false then (-1, t)
  else (0, { t with mounts := newMount path rootNode :: t.mounts })

/-- The loop of `vfs_get_mountpoint` over the mounts: the first of the longest whose path the path
starts with. -/
def bestMatch (path : List (BitVec 8)) (mounts : List VfsMount) : Option VfsMount :=
  mounts.foldl (fun best current =>
    if strncmp path current.path current.path.length = 0 ∧
        current.path.length > (best.map (·.path.length)).getD 0 then some current
    else best) none

/-- `vfs_get_mountpoint`: the root of the mount, `0` when there is none, and what is left of the
path. -/
def vfsGetMountpoint (t : VfsTree) (path : List (BitVec 8)) : Word × List (BitVec 8) :=
  match bestMatch path t.mounts with
  | none => (0, path)
  | some best => (best.root, (path.drop best.path.length).dropWhile (· = slash))

/-- One component of `vfs_inner_find_and_create`: the child of `parent`, created when it is missing
and the flags ask for it, or `0`. -/
def vfsFindOrCreate (t : VfsTree) (parent : Word) (token : List (BitVec 8)) (isLast : Bool)
    (flags : BitVec 32) : Option (Word × VfsTree) := do
  let target ← ramfsOpsFinddir t parent token
  if target ≠ 0 then some (target, t)
  else if isLast ∧ flags &&& vfsFile ≠ 0 then ramfsOpsCreate t parent token vfsFile
  else if flags &&& vfsDirectory ≠ 0 then ramfsOpsCreate t parent token vfsDirectory
  else some (0, t)

/-- The loop of `vfs_inner_find_and_create`; at its head the target is the parent. -/
def vfsFindLoop (stopAtParent : Bool) (flags : BitVec 32) :
    ℕ → VfsTree → Strtokr → Word → Option (Word × VfsTree)
  | 0, _, _, _ => none
  | fuel + 1, t, tok, parent =>
    match tok.token with
    | none => some (parent, t)
    | some token => do
      let next ← strtokr tok.buf none [slash] tok.saveptr
      let isLast := next.token.isNone
      if isLast ∧ stopAtParent then some (if t.isDir parent then parent else 0, t)
      else if ¬ t.isDir parent then some (0, t)
      else
        let (target, t) ←
          vfsFindOrCreate t parent (readCStr next.buf walkBound token) isLast flags
        if target = 0 then some (0, t) else vfsFindLoop stopAtParent flags fuel t next target

/-- `vfs_inner_find_and_create`: the node, or `0`. -/
def vfsInnerFindAndCreate (t : VfsTree) (path : List (BitVec 8)) (stopAtParent : Bool)
    (flags : BitVec 32) : Option (Word × VfsTree) :=
  if path.length ≥ vfsPathMax then some (0, t)
  else
    let (target, path) := vfsGetMountpoint t path
    if target = 0 then some (0, t)
    else do
      let pathBuf := fun i => (snprintfString vfsPathMax path).getD i 0
      let tok ← strtokr pathBuf (some 0) [slash] none
      vfsFindLoop stopAtParent flags walkBound t tok target

/-- `vfs_lookup`, which changes nothing but is written as the others are. -/
def vfsLookup (t : VfsTree) (path : List (BitVec 8)) : Option (Word × VfsTree) :=
  vfsInnerFindAndCreate t path false 0

/-- `vfs_create`. -/
def vfsCreate (t : VfsTree) (path : List (BitVec 8)) (flags : BitVec 32) :
    Option (Word × VfsTree) :=
  vfsInnerFindAndCreate t path false flags

/-- `vfs_mkdir_parents`. -/
def vfsMkdirParents (t : VfsTree) (path : List (BitVec 8)) : Option (Word × VfsTree) :=
  vfsInnerFindAndCreate t path true vfsDirectory

/-! ## Components -/

/-- The non-empty components of a path. -/
def components (path : List (BitVec 8)) : List (List (BitVec 8)) :=
  tokens (isDelim · [slash]) path

/-- The loop of `vfs_inner_find_and_create` over a list of components. -/
def walkComponents (stopAtParent : Bool) (flags : BitVec 32) :
    List (List (BitVec 8)) → VfsTree → Word → Option (Word × VfsTree)
  | [], t, parent => some (parent, t)
  | name :: rest, t, parent =>
    if rest.isEmpty ∧ stopAtParent then some (if t.isDir parent then parent else 0, t)
    else if ¬ t.isDir parent then some (0, t)
    else do
      let (target, t) ← vfsFindOrCreate t parent name rest.isEmpty flags
      if target = 0 then some (0, t) else walkComponents stopAtParent flags rest t target

variable {t : VfsTree} {path : List (BitVec 8)} {stopAtParent : Bool} {flags : BitVec 32}

theorem vfsFindLoop_eq {comps : List (List (BitVec 8))} {tok : Strtokr} {parent : Word} {fuel : ℕ}
    (h : Pending [slash] tok comps) (hfuel : comps.length < fuel) :
    vfsFindLoop stopAtParent flags fuel t tok parent =
      walkComponents stopAtParent flags comps t parent := by
  induction comps generalizing t tok parent fuel with
  | nil =>
    obtain _ | fuel := fuel
    · simp at hfuel
    cases h with
    | done htoken => rw [vfsFindLoop, htoken, walkComponents]
  | cons name rest ih =>
    obtain _ | fuel := fuel
    · simp at hfuel
    obtain ⟨k, next, htoken, hcall, hread, hnext⟩ := h.next
    rw [vfsFindLoop, htoken, walkComponents]
    simp only [hcall, hread, hnext.isNone, Option.bind_eq_bind, Option.bind_some]
    have hih : ∀ t' target, vfsFindLoop stopAtParent flags fuel t' next target =
        walkComponents stopAtParent flags rest t' target :=
      fun t' target => ih hnext (by simpa using hfuel)
    simp only [hih]

theorem components_slash_cons (path : List (BitVec 8)) :
    components (slash :: path) = components path :=
  tokens_append_of_forall (p := (isDelim · [slash])) (s := [slash]) (t := path)
    (List.forall_mem_singleton.mpr rfl)

/-- Slashes in front hold no component. -/
theorem components_dropWhile (path : List (BitVec 8)) :
    components (path.dropWhile (· = slash)) = components path := by
  have hslashes : ∀ c ∈ path.takeWhile (· = slash), isDelim c [slash] = true := by
    intro c hc
    obtain rfl : c = slash := by simpa using List.mem_takeWhile_imp hc
    rfl
  have happend := tokens_append_of_forall (t := path.dropWhile (· = slash)) hslashes
  rw [List.takeWhile_append_dropWhile] at happend
  exact happend.symm

theorem newMount_slash_path (root : Word) : (newMount [slash] root).path = [slash] := by
  change snprintfString vfsNameSize [slash] = [slash]
  decide

theorem bestMatch_singleton (path : List (BitVec 8)) (m : VfsMount) :
    bestMatch path [m] =
      if strncmp path m.path m.path.length = 0 ∧ m.path.length > 0 then some m else none :=
  rfl

theorem vfsGetMountpoint_suffix (t : VfsTree) (path : List (BitVec 8)) :
    (vfsGetMountpoint t path).2 <:+ path := by
  unfold vfsGetMountpoint
  split
  · exact List.suffix_rfl
  · exact (List.dropWhile_suffix _).trans (List.drop_suffix ..)

theorem vfsInnerFindAndCreate_eq (hpath : 0 ∉ path) (hlen : path.length < vfsPathMax) {target : Word}
    {rest : List (BitVec 8)} (hmount : vfsGetMountpoint t path = (target, rest))
    (htarget : target ≠ 0) :
    vfsInnerFindAndCreate t path stopAtParent flags =
      walkComponents stopAtParent flags (components rest) t target := by
  have hsuffix : rest <:+ path := by simpa [hmount] using vfsGetMountpoint_suffix t path
  have hrest : 0 ∉ rest := fun h => hpath (hsuffix.subset h)
  have hshort : rest.length < vfsPathMax := lt_of_le_of_lt hsuffix.length_le hlen
  have hbound : vfsPathMax < walkBound := by decide
  -- the copy of the path is a string in the buffer
  have hbuf : CStr (fun i => rest.getD i 0) 0 rest :=
    .of_getD (fun c hc => fun h0 => hrest (h0 ▸ hc)) fun x _ => by simp
  obtain ⟨tok, hcall, hpending⟩ := strtokr_pending [slash] hbuf (by omega) none
  have hcount := length_tokens_le (p := (isDelim · [slash])) rest
  rw [vfsInnerFindAndCreate, if_neg (by omega), hmount]
  simp only [if_neg htarget, snprintfString_eq hrest hshort, hcall, Option.bind_eq_bind,
    Option.bind_some]
  exact vfsFindLoop_eq hpending (lt_of_le_of_lt hcount (hshort.trans hbound))

/-! ## Failed allocations -/

section

variable {t' : VfsTree} {d n : Word} {name : List (BitVec 8)} {isLast : Bool}

theorem vfsFindOrCreate_asked (h : vfsFindOrCreate t d name isLast flags = some (n, t')) :
    ∃ used, t.Asked t' used := by
  simp only [vfsFindOrCreate, Option.bind_eq_bind, Option.bind_eq_some_iff] at h
  obtain ⟨target, -, h⟩ := h
  split at h
  · cases h; exact ⟨[], .refl t⟩
  split at h
  · exact ramfsOpsCreate_asked h
  split at h
  · exact ramfsOpsCreate_asked h
  · cases h; exact ⟨[], .refl t⟩

theorem vfsFindLoop_asked {fuel : ℕ} {tok : Strtokr}
    (h : vfsFindLoop stopAtParent flags fuel t tok d = some (n, t')) :
    ∃ used, t.Asked t' used := by
  induction fuel generalizing t tok d with
  | zero => cases h
  | succ fuel ih =>
    rw [vfsFindLoop] at h
    split at h
    · cases h; exact ⟨[], .refl _⟩
    simp only [Option.bind_eq_bind, Option.bind_eq_some_iff] at h
    obtain ⟨next, -, h⟩ := h
    split at h
    · cases h; exact ⟨[], .refl _⟩
    split at h
    · cases h; exact ⟨[], .refl _⟩
    simp only [Option.bind_eq_some_iff] at h
    obtain ⟨⟨target, t₁⟩, hfind, h⟩ := h
    obtain ⟨used, hstep⟩ := vfsFindOrCreate_asked hfind
    dsimp only at h
    split at h
    · cases h; exact ⟨used, hstep⟩
    · obtain ⟨used', hrest⟩ := ih h
      exact ⟨used ++ used', hstep.trans hrest⟩

/-- A failure is counted for every null answer of `kcalloc` and for nothing else. -/
theorem vfsInnerFindAndCreate_asked
    (h : vfsInnerFindAndCreate t path stopAtParent flags = some (n, t')) :
    ∃ used, t.Asked t' used := by
  rw [vfsInnerFindAndCreate] at h
  split at h
  · cases h; exact ⟨[], .refl _⟩
  dsimp only at h
  split at h
  · cases h; exact ⟨[], .refl _⟩
  simp only [Option.bind_eq_bind, Option.bind_eq_some_iff] at h
  obtain ⟨tok, -, h⟩ := h
  exact vfsFindLoop_asked h

end

end Pros
