import Pros.Proc.Task
import Mathlib.Data.Finset.Card
import Mathlib.Data.Fintype.Basic

/-!
# References to open files

A file is shared by slots of the task that opened it, and freed from two places: `sys_close` and
`task_destroy`. Every operation either fills a free slot with a new file, adds a reference to a file
of the same task, or empties a slot; the count of a file is the number of its slots throughout.
-/

namespace Pros

/-! ## Slots -/

namespace Files

variable {s : Files} {t t' f g : Word} {fd i : Fin maxOpenFiles}

/-- How many slots of the task `t` hold `f`. -/
def refs (s : Files) (t f : Word) : ℕ := (Finset.univ.filter fun fd => s.fds t fd = f).card

theorem fds_setFd (s : Files) (t : Word) (fd : Fin maxOpenFiles) (f t' : Word)
    (i : Fin maxOpenFiles) :
    (s.setFd t fd f).fds t' i = if t' = t ∧ i = fd then f else s.fds t' i := by
  by_cases ht : t' = t
  · subst ht
    by_cases hi : i = fd
    · subst hi
      simp [setFd]
    · simp [setFd, hi]
  · simp [setFd, ht]

theorem fds_setFd_self : (s.setFd t fd f).fds t fd = f := by
  rw [fds_setFd, if_pos ⟨rfl, rfl⟩]

theorem fds_setFd_task (ht : t' ≠ t) : (s.setFd t fd f).fds t' i = s.fds t' i := by
  rw [fds_setFd, if_neg fun h => ht h.1]

theorem fds_setFd_slot (hi : i ≠ fd) : (s.setFd t fd f).fds t' i = s.fds t' i := by
  rw [fds_setFd, if_neg fun h => hi h.2]

theorem refs_setFd_task (ht : t' ≠ t) : (s.setFd t fd f).refs t' g = s.refs t' g := by
  simp only [refs, fds_setFd_task ht]

/-- A free slot takes `f`. -/
theorem refs_setFd_fill (hfree : s.fds t fd = 0) (hf : f ≠ 0) (hg : g ≠ 0) :
    (s.setFd t fd f).refs t' g = s.refs t' g + if t' = t ∧ g = f then 1 else 0 := by
  by_cases ht : t' = t
  · subst ht
    by_cases hgf : g = f
    · subst hgf
      have hinsert : (Finset.univ.filter fun i => (s.setFd t' fd g).fds t' i = g) =
          insert fd (Finset.univ.filter fun i => s.fds t' i = g) := by
        ext i
        by_cases hi : i = fd
        · subst hi
          simp [fds_setFd_self]
        · simp [fds_setFd_slot hi, hi]
      have hout : fd ∉ Finset.univ.filter fun i => s.fds t' i = g := by
        simp only [Finset.mem_filter, Finset.mem_univ, true_and, hfree]
        exact hf.symm
      rw [refs, hinsert, Finset.card_insert_of_notMem hout, if_pos ⟨rfl, rfl⟩, refs]
    · rw [if_neg fun h => hgf h.2, Nat.add_zero]
      refine congrArg Finset.card (Finset.filter_congr fun i _ => ?_)
      by_cases hi : i = fd
      · subst hi
        rw [fds_setFd_self, hfree]
        exact iff_of_false (Ne.symm hgf) hg.symm
      · rw [fds_setFd_slot hi]
  · rw [if_neg fun h => ht h.1, refs_setFd_task ht, Nat.add_zero]

/-- A slot that holds `f` is emptied. -/
theorem refs_setFd_clear (hfd : s.fds t fd = f) (hg : g ≠ 0) :
    (s.setFd t fd 0).refs t' g = s.refs t' g - if t' = t ∧ g = f then 1 else 0 := by
  by_cases ht : t' = t
  · subst ht
    by_cases hgf : g = f
    · subst hgf
      have herase : (Finset.univ.filter fun i => (s.setFd t' fd 0).fds t' i = g) =
          (Finset.univ.filter fun i => s.fds t' i = g).erase fd := by
        ext i
        by_cases hi : i = fd
        · subst hi
          simp only [fds_setFd_self, Finset.mem_filter, Finset.mem_erase]
          exact iff_of_false (fun h => hg h.2.symm) fun h => h.1 rfl
        · simp [fds_setFd_slot hi, hi]
      rw [refs, herase, Finset.card_erase_of_mem (by simpa using hfd), if_pos ⟨rfl, rfl⟩, refs]
    · rw [if_neg fun h => hgf h.2, Nat.sub_zero]
      refine congrArg Finset.card (Finset.filter_congr fun i _ => ?_)
      by_cases hi : i = fd
      · subst hi
        rw [fds_setFd_self, hfd]
        exact iff_of_false hg.symm (Ne.symm hgf)
      · rw [fds_setFd_slot hi]
  · rw [if_neg fun h => ht h.1, refs_setFd_task ht, Nat.sub_zero]

theorem refs_pos_iff : 0 < s.refs t f ↔ ∃ fd, s.fds t fd = f := by
  simp [refs, Finset.card_pos, Finset.filter_nonempty_iff]

@[simp]
theorem fds_setRefCount (s : Files) (f : Word) (v : Int) : (s.setRefCount f v).fds = s.fds := rfl

@[simp]
theorem refs_setRefCount (s : Files) (f : Word) (v : Int) :
    (s.setRefCount f v).refs t g = s.refs t g := rfl

@[simp]
theorem file_setFd (s : Files) (t : Word) (fd : Fin maxOpenFiles) (f : Word) :
    (s.setFd t fd f).file = s.file := rfl

theorem refCount_setRefCount_self (s : Files) (f : Word) (v : Int) :
    ((s.setRefCount f v).file f).refCount = v := by
  simp [setRefCount]

theorem file_setRefCount_of_ne (h : g ≠ f) (v : Int) :
    (s.setRefCount f v).file g = s.file g := by
  simp [setRefCount, h]

theorem node_setRefCount (s : Files) (f g : Word) (v : Int) :
    ((s.setRefCount f v).file g).node = (s.file g).node := by
  by_cases hg : g = f
  · subst hg
    simp [setRefCount]
  · rw [file_setRefCount_of_ne hg]

end Files

/-! ## Counts -/

/-- The open files `live` of the tasks `tasks`: a file that a slot holds is open, and an open file
is held by slots of one task, which its count is the number of. -/
structure FilesOk (s : Files) (tasks live : List Word) : Prop where
  tasks_nodup : tasks.Nodup
  task_ne : 0 ∉ tasks
  files_nodup : live.Nodup
  file_ne : 0 ∉ live
  held : ∀ t ∈ tasks, ∀ f ≠ 0, 0 < s.refs t f → f ∈ live
  owner : ∀ f ∈ live, ∃ t ∈ tasks, (s.file f).refCount = s.refs t f ∧ 0 < s.refs t f ∧
    ∀ u ∈ tasks, u ≠ t → s.refs u f = 0

namespace FilesOk

variable {s s' : Files} {tasks live : List Word} {t f : Word} {fd : Fin maxOpenFiles}

theorem nil (s : Files) : FilesOk s [] [] := by
  constructor <;> simp

variable (h : FilesOk s tasks live)
include h

/-- Only the tables and the counts of the open files matter. -/
theorem congr (hfds : s'.fds = s.fds)
    (hcounts : ∀ f ∈ live, (s'.file f).refCount = (s.file f).refCount) :
    FilesOk s' tasks live := by
  have hrefs : ∀ u g, s'.refs u g = s.refs u g := fun u g => by simp only [Files.refs, hfds]
  refine ⟨h.tasks_nodup, h.task_ne, h.files_nodup, h.file_ne, ?_, ?_⟩
  · simp only [hrefs]
    exact h.held
  · intro f hf
    simp only [hrefs, hcounts f hf]
    exact h.owner f hf

theorem ne_zero (hf : f ∈ live) : f ≠ 0 := fun h0 => h.file_ne (h0 ▸ hf)

theorem task_ne_zero (ht : t ∈ tasks) : t ≠ 0 := fun h0 => h.task_ne (h0 ▸ ht)

/-- The owner of a file is the task that holds it. -/
theorem owner_eq (ht : t ∈ tasks) (hf : f ≠ 0) (hpos : 0 < s.refs t f) :
    (s.file f).refCount = s.refs t f ∧ ∀ u ∈ tasks, u ≠ t → s.refs u f = 0 := by
  obtain ⟨u, hu, hcount, -, hothers⟩ := h.owner f (h.held t ht f hf hpos)
  have htu : t = u := by
    by_contra hne
    have := hothers t ht hne
    omega
  subst htu
  exact ⟨hcount, hothers⟩

theorem refs_eq_zero (ht : t ∈ tasks) (hf : f ≠ 0) (hnew : f ∉ live) : s.refs t f = 0 := by
  by_contra hpos
  exact hnew (h.held t ht f hf (Nat.pos_of_ne_zero hpos))

/-- The slots of the task `t` that hold `f` are others, and only the count of `f` changes. -/
theorem change {live' : List Word} (ht : t ∈ tasks) (hf : f ≠ 0)
    (hothers : ∀ u ∈ tasks, u ≠ t → s.refs u f = 0)
    (hrefs : ∀ u g, g ≠ 0 → ¬ (u = t ∧ g = f) → s'.refs u g = s.refs u g)
    (hfiles : ∀ g ≠ f, s'.file g = s.file g)
    (hcount : 0 < s'.refs t f → (s'.file f).refCount = s'.refs t f) (hnodup : live'.Nodup)
    (hlive : ∀ g, g ∈ live' ↔ if g = f then 0 < s'.refs t f else g ∈ live) :
    FilesOk s' tasks live' := by
  refine ⟨h.tasks_nodup, h.task_ne, hnodup, fun h0 => ?_, fun u hu g hg hpos => ?_, fun g hg => ?_⟩
  · rw [hlive, if_neg hf.symm] at h0
    exact h.file_ne h0
  · rw [hlive]
    split
    · rename_i hgf
      subst hgf
      by_cases hut : u = t
      · exact hut ▸ hpos
      · rw [hrefs u g hg fun heq => hut heq.1, hothers u hu hut] at hpos
        exact absurd hpos (Nat.lt_irrefl 0)
    · rename_i hgf
      rw [hrefs u g hg fun heq => hgf heq.2] at hpos
      exact h.held u hu g hg hpos
  · rw [hlive] at hg
    split at hg
    · rename_i hgf
      subst hgf
      refine ⟨t, ht, hcount hg, hg, fun u hu hne => ?_⟩
      rw [hrefs u g hf fun heq => hne heq.1, hothers u hu hne]
    · rename_i hgf
      have hkeep : ∀ u, s'.refs u g = s.refs u g := fun u =>
        hrefs u g (h.ne_zero hg) fun heq => hgf heq.2
      simp only [hkeep, hfiles g hgf]
      exact h.owner g hg

/-- A new file in a free slot. -/
theorem openFile (ht : t ∈ tasks) (hfree : s.fds t fd = 0) (hf : f ≠ 0) (hnew : f ∉ live)
    (hfds : s'.fds = s.fds) (hcount : (s'.file f).refCount = 1)
    (hfiles : ∀ g ≠ f, s'.file g = s.file g) :
    FilesOk (s'.setFd t fd f) tasks (f :: live) := by
  have hrefs : ∀ u g, g ≠ 0 →
      (s'.setFd t fd f).refs u g = s.refs u g + if u = t ∧ g = f then 1 else 0 := by
    intro u g hg
    rw [Files.refs_setFd_fill (by rw [hfds, hfree]) hf hg]
    simp only [Files.refs, hfds]
  have hone : (s'.setFd t fd f).refs t f = 1 := by
    rw [hrefs t f hf, if_pos ⟨rfl, rfl⟩, h.refs_eq_zero ht hf hnew]
  refine h.change ht hf (fun u hu _ => h.refs_eq_zero hu hf hnew)
    (fun u g hg hne => by rw [hrefs u g hg, if_neg hne, Nat.add_zero]) hfiles (fun _ => ?_)
    (List.nodup_cons.mpr ⟨hnew, h.files_nodup⟩) fun g => ?_
  · rw [Files.file_setFd, hcount, hone]
    rfl
  · rw [List.mem_cons]
    split <;> simp [*]

/-- One more reference by the task that holds the file. -/
theorem refFile (ht : t ∈ tasks) (hfree : s.fds t fd = 0) (hf : f ≠ 0) (hpos : 0 < s.refs t f) :
    FilesOk ((s.setRefCount f ((s.file f).refCount + 1)).setFd t fd f) tasks live := by
  obtain ⟨hcount, hothers⟩ := h.owner_eq ht hf hpos
  have hrefs : ∀ u g, g ≠ 0 →
      ((s.setRefCount f ((s.file f).refCount + 1)).setFd t fd f).refs u g =
        s.refs u g + if u = t ∧ g = f then 1 else 0 := by
    intro u g hg
    rw [Files.refs_setFd_fill (by rw [Files.fds_setRefCount, hfree]) hf hg,
      Files.refs_setRefCount]
  have hmore := hrefs t f hf
  rw [if_pos ⟨rfl, rfl⟩] at hmore
  refine h.change ht hf hothers (fun u g hg hne => by rw [hrefs u g hg, if_neg hne, Nat.add_zero])
    (fun g hg => Files.file_setRefCount_of_ne hg _) (fun _ => ?_) h.files_nodup fun g => ?_
  · rw [Files.file_setFd, Files.refCount_setRefCount_self, hmore, hcount]
    rfl
  · split
    · rename_i hgf
      exact iff_of_true (hgf ▸ h.held t ht f hf hpos) (by omega)
    · exact Iff.rfl

/-- A slot gives its reference up, and the last one frees the file. -/
theorem unref (ht : t ∈ tasks) (hf : f ≠ 0) (hfd : s.fds t fd = f) :
    FilesOk ((s.setRefCount f ((s.file f).refCount - 1)).setFd t fd 0) tasks
      (if (s.file f).refCount ≤ 1 then live.erase f else live) := by
  have hpos : 0 < s.refs t f := Files.refs_pos_iff.mpr ⟨fd, hfd⟩
  have hmem : f ∈ live := h.held t ht f hf hpos
  obtain ⟨hcount, hothers⟩ := h.owner_eq ht hf hpos
  have hrefs : ∀ u g, g ≠ 0 →
      ((s.setRefCount f ((s.file f).refCount - 1)).setFd t fd 0).refs u g =
        s.refs u g - if u = t ∧ g = f then 1 else 0 := by
    intro u g hg
    rw [Files.refs_setFd_clear (by rw [Files.fds_setRefCount, hfd]) hg, Files.refs_setRefCount]
  have hless := hrefs t f hf
  rw [if_pos ⟨rfl, rfl⟩] at hless
  refine h.change ht hf hothers (fun u g hg hne => by rw [hrefs u g hg, if_neg hne, Nat.sub_zero])
    (fun g hg => Files.file_setRefCount_of_ne hg _) (fun _ => ?_) ?_ fun g => ?_
  · rw [Files.file_setFd, Files.refCount_setRefCount_self, hless, hcount]
    omega
  · split
    · exact h.files_nodup.erase f
    · exact h.files_nodup
  · by_cases hgf : g = f
    · subst hgf
      rw [if_pos rfl, hless]
      split
      · exact iff_of_false h.files_nodup.not_mem_erase (by omega)
      · exact iff_of_true hmem (by omega)
    · rw [if_neg hgf]
      split
      · exact List.mem_erase_of_ne hgf
      · exact Iff.rfl

/-- A task with an empty table is added. -/
theorem addTask (ht : t ∉ tasks) (ht0 : t ≠ 0) (hfiles : s'.file = s.file)
    (hfds : ∀ u ≠ t, s'.fds u = s.fds u) (hempty : ∀ fd, s'.fds t fd = 0) :
    FilesOk s' (t :: tasks) live := by
  have hne : ∀ u ∈ tasks, u ≠ t := fun u hu heq => ht (heq ▸ hu)
  have hkeep : ∀ u ∈ tasks, ∀ g, s'.refs u g = s.refs u g := fun u hu g => by
    simp only [Files.refs, hfds u (hne u hu)]
  have hzero : ∀ g ≠ 0, s'.refs t g = 0 := fun g hg => by
    rw [Files.refs, Finset.card_eq_zero, Finset.filter_eq_empty_iff]
    exact fun fd _ heq => hg (heq.symm.trans (hempty fd))
  refine ⟨List.nodup_cons.mpr ⟨ht, h.tasks_nodup⟩, ?_, h.files_nodup, h.file_ne, ?_, ?_⟩
  · intro h0
    rcases List.mem_cons.mp h0 with h0 | h0
    · exact ht0 h0.symm
    · exact h.task_ne h0
  · intro u hu g hg hpos
    rcases List.mem_cons.mp hu with rfl | hu
    · rw [hzero g hg] at hpos
      exact absurd hpos (Nat.lt_irrefl 0)
    · rw [hkeep u hu] at hpos
      exact h.held u hu g hg hpos
  · intro g hg
    obtain ⟨u, hu, hcount, hpos, hothers⟩ := h.owner g hg
    refine ⟨u, List.mem_cons_of_mem _ hu, ?_, ?_, fun w hw hwu => ?_⟩
    · rw [hfiles, hcount, hkeep u hu]
    · rwa [hkeep u hu]
    · rcases List.mem_cons.mp hw with rfl | hw
      · exact hzero g (h.ne_zero hg)
      · rw [hkeep w hw, hothers w hw hwu]

/-- A task that holds nothing is removed. -/
theorem removeTask (hempty : ∀ fd, s.fds t fd = 0) : FilesOk s (tasks.erase t) live := by
  have hzero : ∀ g ≠ 0, s.refs t g = 0 := fun g hg => by
    rw [Files.refs, Finset.card_eq_zero, Finset.filter_eq_empty_iff]
    exact fun fd _ heq => hg (heq.symm.trans (hempty fd))
  refine ⟨h.tasks_nodup.erase t, fun h0 => h.task_ne (List.mem_of_mem_erase h0), h.files_nodup,
    h.file_ne, fun u hu => h.held u (List.mem_of_mem_erase hu), fun g hg => ?_⟩
  obtain ⟨u, hu, hcount, hpos, hothers⟩ := h.owner g hg
  have hut : u ≠ t := by
    rintro rfl
    rw [hzero g (h.ne_zero hg)] at hpos
    exact Nat.lt_irrefl 0 hpos
  exact ⟨u, (List.mem_erase_of_ne hut).mpr hu, hcount, hpos,
    fun w hw => hothers w (List.mem_of_mem_erase hw)⟩

end FilesOk

/-! ## Callbacks -/

/-- A call of an operation of a node: `open`, with its success, or `close`. -/
inductive VfsCallback
  | opened (node : Word) (ok : Bool)
  | closed (node : Word)
  deriving DecidableEq

variable {σ : Type}

/-- The same file systems, with a record of the calls of `open` and `close`. -/
def recorded (vfs : Vfs σ) : Vfs (σ × List VfsCallback) where
  lookup s := vfs.lookup s.1
  flags s := vfs.flags s.1
  size s := vfs.size s.1
  hasOpen s := vfs.hasOpen s.1
  hasClose s := vfs.hasClose s.1
  hasRead s := vfs.hasRead s.1
  hasWrite s := vfs.hasWrite s.1
  hasReaddir s := vfs.hasReaddir s.1
  openNode s node :=
    let (res, fs) := vfs.openNode s.1 node
    (res, fs, s.2 ++ [.opened node (res = 0)])
  closeNode s node :=
    let (res, fs) := vfs.closeNode s.1 node
    (res, fs, s.2 ++ [.closed node])
  read s node offset size :=
    let (res, fs) := vfs.read s.1 node offset size
    (res, fs, s.2)
  write s node offset bytes :=
    let (res, fs) := vfs.write s.1 node offset bytes
    (res, fs, s.2)
  readdir s node index :=
    let (res, dirent, fs) := vfs.readdir s.1 node index
    (res, dirent, fs, s.2)
  read_le s node offset size bytes h := vfs.read_le s.1 node offset size bytes h
  write_le s node offset bytes := vfs.write_le s.1 node offset bytes

/-- Which nodes have the operations `open` and `close`. They are those of the driver that made the
node, whatever the state. -/
structure StaticOps (vfs : Vfs σ) (opens closes : Word → Bool) : Prop where
  hasOpen : ∀ fs node, vfs.hasOpen fs node = opens node
  hasClose : ∀ fs node, vfs.hasClose fs node = closes node

/-- The calls of `close` for the nodes of files that are freed. -/
def closings (closes : Word → Bool) (nodes : List Word) : List VfsCallback :=
  (nodes.filter fun node => node ≠ 0 ∧ closes node).map .closed

/-- The calls of `open` for the nodes of files that get their first reference. -/
def openings (opens : Word → Bool) (nodes : List Word) : List VfsCallback :=
  (nodes.filter fun node => node ≠ 0 ∧ opens node).map (.opened · true)

section

variable {vfs : Vfs σ} {opens closes : Word → Bool} (fs : σ × List VfsCallback) (s : Files) {f : Word}

theorem closings_singleton (closes : Word → Bool) (node : Word) : closings closes [node] =
    if node ≠ 0 ∧ closes node = true then [.closed node] else [] := by
  rw [closings, List.filter_singleton]
  by_cases hcall : node ≠ 0 ∧ closes node = true
  · rw [if_pos hcall, decide_eq_true hcall]
    rfl
  · rw [if_neg hcall, decide_eq_false hcall]
    rfl

theorem openings_singleton (opens : Word → Bool) (node : Word) : openings opens [node] =
    if node ≠ 0 ∧ opens node = true then [.opened node true] else [] := by
  rw [openings, List.filter_singleton]
  by_cases hcall : node ≠ 0 ∧ opens node = true
  · rw [if_pos hcall, decide_eq_true hcall]
    rfl
  · rw [if_neg hcall, decide_eq_false hcall]
    rfl

/-- `file_unref` of a file. -/
theorem fileUnref_recorded (hops : StaticOps vfs opens closes) (hf : f ≠ 0) :
    ∃ fs', fileUnref (recorded vfs) fs s f =
        (decide ((s.file f).refCount ≤ 1), fs', s.setRefCount f ((s.file f).refCount - 1)) ∧
      fs'.2 = fs.2 ++ if (s.file f).refCount ≤ 1 then closings closes [(s.file f).node] else [] := by
  have hnode := Files.node_setRefCount s f f ((s.file f).refCount - 1)
  have hclose : ∀ n, (recorded vfs).hasClose fs n = closes n := fun n => hops.hasClose fs.1 n
  simp only [fileUnref, if_neg hf, Files.refCount_setRefCount_self, hnode, hclose]
  by_cases hlast : (s.file f).refCount ≤ 1
  · rw [if_neg (by omega), if_pos hlast, decide_eq_true hlast, closings_singleton]
    by_cases hcall : (s.file f).node ≠ 0 ∧ closes (s.file f).node = true
    · rw [if_pos hcall, if_pos hcall]
      exact ⟨_, rfl, rfl⟩
    · rw [if_neg hcall, if_neg hcall]
      exact ⟨fs, rfl, (List.append_nil _).symm⟩
  · rw [if_pos (by omega), if_neg hlast, decide_eq_false hlast]
    exact ⟨fs, rfl, (List.append_nil _).symm⟩

/-- `file_ref` of a file that has references. -/
theorem fileRef_recorded (hf : f ≠ 0) (hcount : (s.file f).refCount ≠ 0) :
    fileRef (recorded vfs) fs s f = (f, fs, s.setRefCount f ((s.file f).refCount + 1)) := by
  rw [fileRef, if_neg hf, if_neg fun h => hcount h.1]

/-- `file_open_node`: refused, or a file with one reference. -/
theorem fileOpenNode_recorded (hops : StaticOps vfs opens closes) (hf : f ≠ 0) {node : Word}
    (hnode : node ≠ 0) (flags : BitVec 32) :
    ∃ opened fs' s', fileOpenNode (recorded vfs) fs s f node flags = (opened, fs', s') ∧
      s'.fds = s.fds ∧ s'.current = s.current ∧ (∀ g ≠ f, s'.file g = s.file g) ∧
      ((opened = 0 ∧ opens node = true ∧ fs'.2 = fs.2 ++ [.opened node false]) ∨
        (opened = f ∧ (s'.file f).refCount = 1 ∧ (s'.file f).node = node ∧
          fs'.2 = fs.2 ++ openings opens [node])) := by
  have hopen : ∀ n, (recorded vfs).hasOpen fs n = opens n := fun n => hops.hasOpen fs.1 n
  -- the file before its first reference
  generalize hnew : ({ s with file := Function.update s.file f ⟨node, 0, flags, 0⟩ } : Files) = new
  have hfile : new.file f = ⟨node, 0, flags, 0⟩ := by
    rw [← hnew]
    exact Function.update_self _ _ _
  have hothers : ∀ g ≠ f, new.file g = s.file g := fun g hg => by
    rw [← hnew]
    exact Function.update_of_ne hg _ _
  have hrest : new.fds = s.fds ∧ new.current = s.current := by
    rw [← hnew]
    exact ⟨rfl, rfl⟩
  have hcount : ((new.setRefCount f 1).file f).refCount = 1 :=
    Files.refCount_setRefCount_self _ _ _
  have hkeep : ∀ g ≠ f, (new.setRefCount f 1).file g = s.file g := fun g hg => by
    rw [Files.file_setRefCount_of_ne hg, hothers g hg]
  have hnode' : ((new.setRefCount f 1).file f).node = node := by
    rw [Files.node_setRefCount, hfile]
  have heq : fileOpenNode (recorded vfs) fs s f node flags = fileRef (recorded vfs) fs new f := by
    rw [fileOpenNode, if_neg hnode, if_neg hf]
    exact congrArg (fileRef (recorded vfs) fs · f) hnew
  rw [heq, fileRef, if_neg hf, hfile, hopen]
  by_cases hcall : opens node = true
  · rw [if_pos ⟨rfl, hnode, hcall⟩]
    by_cases hres : (vfs.openNode fs.1 node).1 = 0
    · refine ⟨f, _, new.setRefCount f 1, if_neg (not_not.mpr hres), hrest.1, hrest.2, hkeep,
        Or.inr ⟨rfl, hcount, hnode', ?_⟩⟩
      rw [openings_singleton, if_pos ⟨hnode, hcall⟩]
      simp [recorded, hres]
    · refine ⟨0, _, new, if_pos hres, hrest.1, hrest.2, hothers, Or.inl ⟨rfl, hcall, ?_⟩⟩
      simp [recorded, hres]
  · rw [if_neg fun h => hcall h.2.2]
    refine ⟨f, fs, new.setRefCount f 1, rfl, hrest.1, hrest.2, hkeep,
      Or.inr ⟨rfl, hcount, hnode', ?_⟩⟩
    rw [openings_singleton, if_neg fun h => hcall h.2, List.append_nil]

end

end Pros
