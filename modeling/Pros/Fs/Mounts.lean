import Pros.Fs.Lookup

/-!
# Mount points

Which mount a path belongs to: of the mounts whose components the path starts with, the one with the
longest path, and of several such the one mounted last, which is the first in the list.
`vfs_get_mountpoint` compares bytes where components are meant, so that it takes `/foobar` for a
path below `/foo`.
-/

/-! ## The first maximum of a list -/

namespace List

variable {α β : Type*} [LinearOrder β] {f : α → β} {l : List α} {m : α} {p q : α → Bool}

/-- The first maximum stays the first maximum when other elements are dropped. -/
theorem mem_argmax_filter (hm : m ∈ l.argmax f) (hp : p m = true) :
    m ∈ (l.filter p).argmax f := by
  induction l using List.reverseRecOn generalizing m with
  | nil => simp at hm
  | append_singleton l a ih =>
    rw [List.argmax_concat] at hm
    rw [List.filter_append]
    match hl : l.argmax f with
    | none =>
      obtain rfl := List.argmax_eq_none.mp hl
      obtain rfl : a = m := by simpa [hl] using hm
      simp [hp]
    | some c =>
      simp only [hl] at hm
      by_cases hlt : f c < f a
      · -- the new element is the maximum
        obtain rfl : a = m := by simpa [hlt] using hm
        rw [List.filter_singleton, hp, cond_true, List.argmax_concat]
        match hfilter : (l.filter p).argmax f with
        | none => simp
        | some d =>
          have hd : d ∈ l := List.mem_of_mem_filter (List.argmax_mem hfilter)
          have hle : f d ≤ f c := List.le_of_mem_argmax hd hl
          simp [hle.trans_lt hlt]
      · obtain rfl : c = m := by simpa [hlt] using hm
        have hkeep := ih hl hp
        rw [List.filter_singleton]
        cases p a with
        | false => simpa using hkeep
        | true =>
          rw [cond_true, List.argmax_concat, Option.mem_def.mp hkeep]
          simp [hlt]

/-- Two conditions select the same first maximum when the first maximum of the elements that meet
either meets both. -/
theorem argmax_filter_eq_iff :
    (l.filter p).argmax f = (l.filter q).argmax f ↔
      ∀ m ∈ (l.filter fun a => p a || q a).argmax f, p m = true ∧ q m = true := by
  have hp : l.filter p = (l.filter fun a => p a || q a).filter p := by
    rw [List.filter_filter]
    exact List.filter_congr fun a _ => by cases p a <;> simp
  have hq : l.filter q = (l.filter fun a => p a || q a).filter q := by
    rw [List.filter_filter]
    exact List.filter_congr fun a _ => by cases q a <;> simp
  have hof : ∀ r : α → Bool, ∀ m ∈ (l.filter r).argmax f, r m = true := fun r m hm =>
    (List.mem_filter.mp (List.argmax_mem hm)).2
  constructor
  · intro heq m hm
    rcases Bool.or_eq_true_iff.mp (hof _ m hm) with hpm | hqm
    · have hmem : m ∈ (l.filter p).argmax f := hp ▸ mem_argmax_filter hm hpm
      exact ⟨hpm, hof q m (heq ▸ hmem)⟩
    · have hmem : m ∈ (l.filter q).argmax f := hq ▸ mem_argmax_filter hm hqm
      exact ⟨hof p m (heq ▸ hmem), hqm⟩
  · intro hboth
    match hm : (l.filter fun a => p a || q a).argmax f with
    | none =>
      rw [hp, hq, List.argmax_eq_none.mp hm]
      rfl
    | some m =>
      obtain ⟨hpm, hqm⟩ := hboth m hm
      rw [hp, hq, mem_argmax_filter hm hpm, mem_argmax_filter hm hqm]

end List

namespace Pros

/-- The path starts with the bytes of the mount path, as `vfs_get_mountpoint` compares them. -/
def VfsMount.MatchesBytes (path : List (BitVec 8)) (m : VfsMount) : Prop :=
  strncmp path m.path m.path.length = 0 ∧ m.path.length > 0

/-- The path starts with the components of the mount path. -/
def VfsMount.Matches (path : List (BitVec 8)) (m : VfsMount) : Prop :=
  components m.path <+: components path

instance (path : List (BitVec 8)) : DecidablePred (VfsMount.MatchesBytes path) := fun m =>
  inferInstanceAs (Decidable (strncmp path m.path m.path.length = 0 ∧ m.path.length > 0))

instance (path : List (BitVec 8)) : DecidablePred (VfsMount.Matches path) := fun m =>
  inferInstanceAs (Decidable (components m.path <+: components path))

/-- The mount that the path belongs to: the last mounted of the longest that match. -/
def selectMount (path : List (BitVec 8)) (mounts : List VfsMount) : Option VfsMount :=
  (mounts.filter (VfsMount.Matches path ·)).argmax (·.path.length)

theorem bestMatch_eq_argmax (path : List (BitVec 8)) (mounts : List VfsMount) :
    bestMatch path mounts =
      (mounts.filter (VfsMount.MatchesBytes path ·)).argmax (·.path.length) := by
  rw [bestMatch, List.argmax, List.foldl_filter]
  congr 1
  funext best current
  by_cases hcmp : strncmp path current.path current.path.length = 0
  · cases best with
    | none => simp [VfsMount.MatchesBytes, hcmp, List.argAux]
    | some b =>
      by_cases hlt : b.path.length < current.path.length
      · have hpos : 0 < current.path.length := by omega
        simp [VfsMount.MatchesBytes, hcmp, List.argAux, hlt, hpos]
      · simp [VfsMount.MatchesBytes, hcmp, List.argAux, hlt]
  · simp [VfsMount.MatchesBytes, hcmp]

theorem VfsMount.matchesBytes_iff {path : List (BitVec 8)} {m : VfsMount} (hpath : 0 ∉ path) :
    m.MatchesBytes path ↔ m.path <+: path ∧ m.path ≠ [] := by
  rw [MatchesBytes, strncmp_eq_zero_iff hpath m.noNul, List.take_length, List.prefix_iff_eq_take,
    gt_iff_lt, List.length_pos_iff, eq_comm]

/-- The right mount is selected, and what is left of the path are the components below it. -/
def RightMount (t : VfsTree) (path : List (BitVec 8)) : Prop :=
  bestMatch path t.mounts = selectMount path t.mounts ∧
    ∀ m ∈ selectMount path t.mounts, ∃ rest, vfsGetMountpoint t path = (m.root, rest) ∧
      components path = components m.path ++ components rest

/-- `vfs_get_mountpoint` is right exactly when the last mounted of the longest mounts that match in
bytes or in components matches in both. -/
theorem vfs_mount_selection_iff (t : VfsTree) {path : List (BitVec 8)} (hpath : 0 ∉ path) :
    RightMount t path ↔
      ∀ m ∈ (t.mounts.filter fun m =>
          m.MatchesBytes path || m.Matches path).argmax (·.path.length),
        m.MatchesBytes path ∧ m.Matches path := by
  have hiff := List.argmax_filter_eq_iff (l := t.mounts) (f := (·.path.length))
    (p := (VfsMount.MatchesBytes path ·)) (q := (VfsMount.Matches path ·))
  simp only [decide_eq_true_eq] at hiff
  rw [← hiff, RightMount, ← bestMatch_eq_argmax]
  refine ⟨And.left, fun hsame => ⟨hsame, fun m hm => ?_⟩⟩
  have hbest : bestMatch path t.mounts = some m := hsame.trans hm
  have hbytes : m.MatchesBytes path := by
    rw [bestMatch_eq_argmax] at hbest
    simpa using (List.mem_filter.mp (List.argmax_mem hbest)).2
  have hmatch : m.Matches path := by
    simpa using (List.mem_filter.mp (List.argmax_mem hm)).2
  obtain ⟨⟨rest, rfl⟩, -⟩ := (VfsMount.matchesBytes_iff hpath).mp hbytes
  refine ⟨_, by rw [vfsGetMountpoint, hbest], ?_⟩
  rw [components_dropWhile, List.drop_left]
  exact tokens_append_of_whole hmatch

/-- The mounts `/foo` and `/`. -/
def fooMounts : VfsTree :=
  { node := fun _ => newNode [] 0, live := [0x1000, 0x2000], answers := [], failures := 0
    mounts := [newMount [slash, 0x66, 0x6f, 0x6f] 0x2000, newMount [slash] 0x1000] }

/-- `/foo/bar` is found below `/foo`. -/
theorem vfs_mount_selection_foo_bar :
    RightMount fooMounts [slash, 0x66, 0x6f, 0x6f, slash, 0x62, 0x61, 0x72] :=
  (vfs_mount_selection_iff fooMounts (by decide)).mpr (by decide +kernel)

/-- `/foobar` is looked up as `bar` below `/foo`, though it belongs to `/`. -/
theorem vfs_mount_selection_foobar :
    vfsGetMountpoint fooMounts [slash, 0x66, 0x6f, 0x6f, 0x62, 0x61, 0x72] =
        (0x2000, [0x62, 0x61, 0x72]) ∧
      ¬ RightMount fooMounts [slash, 0x66, 0x6f, 0x6f, 0x62, 0x61, 0x72] := by
  refine ⟨by decide +kernel, fun hright => ?_⟩
  exact absurd (congrArg (Option.map VfsMount.root) hright.1) (by decide +kernel)

end Pros
