import Pros.Proc.TaskRefs

/-!
# Reference counts in every run

The system calls that open and close files, and runs of all calls that touch open files.
-/

namespace Pros

variable {σ : Type}

/-! ## System calls -/

section

variable {vfs : Vfs σ} {opens closes : Word → Bool} {s s' : TaskSys (σ × List VfsCallback)}
  {t : Word}

/-- A slot that was found is free, and no lower one from `i` on is. -/
theorem findSlot_spec {fds : Fin maxOpenFiles → Word} {i : ℕ} {fd : Fin maxOpenFiles}
    (h : findSlot fds i = some fd) :
    fds fd = 0 ∧ i ≤ fd.val ∧ ∀ j : Fin maxOpenFiles, i ≤ j.val → j < fd → fds j ≠ 0 := by
  rw [findSlot, List.find?_eq_some_iff_append] at h
  obtain ⟨hfree, before, after, hlist, hbefore⟩ := h
  have hsorted : ((List.finRange maxOpenFiles).drop i).Pairwise (· < ·) :=
    (List.pairwise_lt_finRange _).sublist (List.drop_sublist _ _)
  have hmem : ∀ j : Fin maxOpenFiles, j ∈ (List.finRange maxOpenFiles).drop i ↔ i ≤ j.val := by
    intro j
    rw [List.mem_drop_iff_getElem]
    constructor
    · rintro ⟨k, hk, hj⟩
      rw [← hj, List.getElem_finRange]
      simp
    · intro hij
      refine ⟨j.val - i, by rw [List.length_finRange]; omega, ?_⟩
      rw [List.getElem_finRange]
      ext
      simp
      omega
  refine ⟨by simpa using hfree, (hmem fd).mp (by rw [hlist]; simp), fun j hij hlt hj => ?_⟩
  have hj' : j ∈ before ++ fd :: after := hlist ▸ (hmem j).mpr hij
  rw [hlist, List.pairwise_append] at hsorted
  rcases List.mem_append.mp hj' with hin | hin
  · simpa [hj] using hbefore j hin
  · rcases List.mem_cons.mp hin with rfl | hin
    · exact lt_irrefl _ hlt
    · exact lt_asymm hlt (List.rel_of_pairwise_cons hsorted.2.1 hin)

/-- An empty slot may be emptied again. -/
theorem Files.setFd_free {files : Files} {fd : Fin maxOpenFiles} (h : files.fds t fd = 0) :
    files.setFd t fd 0 = files := by
  have hfds : (files.setFd t fd 0).fds = files.fds := by
    funext u i
    rw [Files.fds_setFd]
    split
    · rename_i heq
      rw [heq.1, heq.2, h]
    · rfl
  exact congrArg (fun fds => { files with fds }) hfds

theorem TaskSys.setFd_free {fd : Fin maxOpenFiles} (h : s.files.fds t fd = 0) :
    s.setFd t fd 0 = s :=
  congrArg (fun files => { s with files }) (Files.setFd_free h)

/-- The end of `sys_openat` by a task: nothing was opened, or the lowest free slot is used. -/
theorem openPath_cases {σ : Type} {vfs : Vfs σ} {sys sys' : Sys σ} {f node : Word}
    {flags : BitVec 32} {res : Int} (ht : sys.files.current ≠ 0)
    (h : openPath vfs sys f node flags = (res, sys')) :
    (res < 0 ∧ res ≠ -enomem ∧ sys' = sys) ∨
    ∃ fd opened fs files, node ≠ 0 ∧ findSlot (sys.files.fds sys.files.current) 3 = some fd ∧
      fileOpenNode vfs sys.fs sys.files f node flags = (opened, fs, files) ∧
      res = (if opened = 0 then -enomem else (fd.val : ℤ)) ∧
      sys' = { sys with fs, files := files.setFd files.current fd opened } := by
  by_cases hnode : node = 0
  · cases h.symm.trans (if_pos hnode)
    exact Or.inl ⟨by decide, by decide, rfl⟩
  have htable : currentTaskFds sys.files = some (sys.files.fds sys.files.current) := if_neg ht
  rw [openPath, if_neg hnode, htable] at h
  cases hslot : findSlot (sys.files.fds sys.files.current) 3 with
  | none =>
    simp only [hslot] at h
    cases h
    exact Or.inl ⟨by decide, by decide, rfl⟩
  | some fd =>
    simp only [hslot] at h
    refine Or.inr ⟨fd, _, _, _, hnode, rfl, rfl, ?_⟩
    split at h
    · rename_i hopened
      cases h
      exact ⟨(if_pos hopened).symm, rfl⟩
    · rename_i hopened
      cases h
      exact ⟨(if_neg hopened).symm, rfl⟩

/-- `sys_openat`: an error before the path was looked up, or its end. -/
theorem sysOpenat_cases {σ : Type} {vfs : Vfs σ} {sys sys' : Sys σ} {f dirfd path flags : Word}
    {res : Int} (h : sysOpenat vfs f sys dirfd path flags = some (res, sys')) :
    (res < 0 ∧ res ≠ -enomem ∧ sys' = sys) ∨
      ∃ touched node flags, openPath vfs { sys with touched } f node flags = (res, sys') := by
  rw [sysOpenat] at h
  split at h
  · cases h
    exact Or.inl ⟨by decide, by decide, rfl⟩
  split at h
  · cases h
    exact Or.inl ⟨by decide, by decide, rfl⟩
  · obtain ⟨len, -, hret⟩ := Option.bind_eq_some_iff.mp h
    exact Or.inr ⟨_, _, _, Option.some.inj hret⟩

/-- The state in which `sys_openat` by the task `t` looks a path up. -/
def TaskSys.opening (s : TaskSys σ) (t : Word) (touched : List (Word × ℕ)) : TaskSys σ :=
  { s.runningAs t with touched, answers := s.answers.tail }

/-- `sys_openat` by the task `t` fails before it opens a file, or gets none, or notes a new one in the
lowest free slot from 3 on. -/
theorem openatBy_cases {dirfd path flags : Word} {r : Int} (hops : StaticOps vfs opens closes)
    (ht : t ≠ 0) (h : s.openatBy (recorded vfs) t dirfd path flags = some (r, s')) :
    ∃ touched, (r < 0 ∧ s' = s.opening t touched) ∨
      (r = -enomem ∧
        ∃ node, OpenedNode opens t node (s.answers.headD 0) 0 (s.opening t touched) s') ∨
      ∃ node fd f s₁, s.answers.headD 0 = f ∧ f ≠ 0 ∧ findSlot (s.files.fds t) 3 = some fd ∧
        OpenedNode opens t node f f (s.opening t touched) s₁ ∧ r = fd.val ∧
        s' = s₁.setFd t fd f := by
  unfold TaskSys.openatBy TaskSys.kmalloc at h
  obtain ⟨⟨res, sys⟩, hcall, hret⟩ := Option.bind_eq_some_iff.mp h
  simp only at hret
  -- without a file there is nothing to note
  have herror : res < 0 → res ≠ -enomem → r < 0 ∧
      s' = { s with toSys := sys, answers := s.answers.tail } := by
    intro hneg hother
    rw [if_neg (not_le.mpr hneg), if_neg hother] at hret
    cases hret
    exact ⟨hneg, rfl⟩
  rcases sysOpenat_cases hcall with ⟨hneg, hother, rfl⟩ | ⟨touched, node, flags', hpath⟩
  · exact ⟨s.touched, Or.inl (herror hneg hother)⟩
  refine ⟨touched, ?_⟩
  rcases openPath_cases ht hpath with
    ⟨hneg, hother, rfl⟩ | ⟨fd, opened, fs, files, hnode, hslot, hfile, rfl, rfl⟩
  · exact Or.inl (herror hneg hother)
  obtain ⟨opened', fs', files', hfile', hopened⟩ := openedNode t (s := s.opening t touched) hops
    hnode (s.answers.headD 0) flags' s.answers.tail
  cases hfile.symm.trans hfile'
  have hfiles : ({ s.opening t touched with fs, files, answers := s.answers.tail } :
      TaskSys (σ × List VfsCallback)).files = files := rfl
  rw [← TaskSys.noteOpen_files _ t (s.answers.headD 0) opened] at hfiles
  have hcurrent : files.current = t := by
    rw [← hfiles]
    exact hopened.current
  have hnote := TaskSys.noteOpen_setFd
    { s.opening t touched with fs, files, answers := s.answers.tail } t (s.answers.headD 0)
    opened fd opened
  rw [hcurrent] at hret
  right
  rcases hopened.ends with ⟨rfl, -⟩ | ⟨rfl, hf, -⟩
  · left
    rw [if_pos rfl, if_neg (by decide), if_pos rfl] at hret
    obtain ⟨rfl, rfl⟩ := Prod.mk.inj (Option.some.inj hret)
    have hfree : s.files.fds t fd = 0 := (findSlot_spec hslot).1
    refine ⟨rfl, node, ?_⟩
    have hsame := hnote.trans (TaskSys.setFd_free (by rw [hopened.fds]; exact hfree))
    exact hsame ▸ hopened
  · rw [if_neg hf, if_pos (Int.natCast_nonneg _)] at hret
    obtain ⟨rfl, rfl⟩ := Prod.mk.inj (Option.some.inj hret)
    exact Or.inr ⟨node, fd, _, _, rfl, hf, hslot, hopened, rfl, hnote⟩

/-- `sys_openat` by the task `t`: an error leaves every table and every open file as it was; else
the new file is in the lowest free slot from 3 on. -/
theorem openatBy_effect {dirfd path flags : Word} {r : Int} (hops : StaticOps vfs opens closes)
    (h : s.Counted) (ht : t ∈ s.liveTasks) (hfresh : FreshAnswers s)
    (hopen : s.openatBy (recorded vfs) t dirfd path flags = some (r, s')) :
    s'.liveTasks = s.liveTasks ∧ (∀ g ∈ s.liveFiles, s'.files.file g = s.files.file g) ∧
      ((r < 0 ∧ s'.files.fds = s.files.fds ∧ s'.liveFiles = s.liveFiles ∧
          ∃ refused, CallEffect opens closes s s' [] [] refused) ∨
        ∃ fd f, r = (fd.val : ℤ) ∧ findSlot (s.files.fds t) 3 = some fd ∧ f ≠ 0 ∧
          s'.files.fds = (s.files.setFd t fd f).fds ∧
          CallEffect opens closes s s' [f] [] []) := by
  have hhead : s.answers.headD 0 ∉ s.liveFiles := by
    cases hlist : s.answers with
    | nil => exact h.file_ne
    | cons a answers => exact hfresh.files a (by rw [hlist]; exact List.mem_cons_self)
  have h₀ : ∀ touched, (s.opening t touched).Counted := fun _ => FilesOk.congr h rfl fun _ _ => rfl
  have hkeep : ∀ g ∈ s.liveFiles, g ≠ s.answers.headD 0 := fun g hg hgf => hhead (hgf ▸ hg)
  obtain ⟨touched, ⟨hneg, rfl⟩ | ⟨rfl, node, hnode⟩ | ⟨node, fd, f, s₁, hf', hf, hslot, hnode, rfl,
    rfl⟩⟩ := openatBy_cases hops (FilesOk.task_ne_zero h ht) hopen
  · exact ⟨rfl, fun _ _ => rfl, Or.inl ⟨hneg, rfl, rfl, [], .same (h₀ touched) rfl rfl⟩⟩
  · -- no memory, or the node refused
    obtain ⟨hlive, refused, heffect⟩ := hnode.effect_none closes (h₀ touched) hhead
    exact ⟨hnode.tasks, fun g hg => hnode.others g (hkeep g hg),
      Or.inl ⟨by decide, hnode.fds, hlive, refused, heffect.of_start rfl rfl rfl⟩⟩
  · -- the new file is in the slot
    rw [hf'] at hhead hkeep
    obtain ⟨hlive, hcount, hname, hfs, -⟩ := hnode.gained hf
    refine ⟨hnode.tasks, fun g hg => hnode.others g (hkeep g hg),
      Or.inr ⟨fd, f, rfl, hslot, hf, ?_, .opened ?_ hhead hlive ?_⟩⟩
    · simp only [TaskSys.setFd, Files.setFd, hnode.fds]
      rfl
    · rw [TaskSys.Counted, TaskSys.setFd, hlive, hnode.tasks]
      exact FilesOk.openFile (h₀ touched) ht (findSlot_spec hslot).1 hf hhead hnode.fds hcount
        hnode.others
    · exact hfs.trans (by rw [← hname]; rfl)

theorem fileUnref_keeps {σ : Type} (vfs : Vfs σ) (fs : σ) (files : Files) (f : Word) :
    (fileUnref vfs fs files f).2.2.fds = files.fds ∧
      (fileUnref vfs fs files f).2.2.current = files.current := by
  simp only [fileUnref]
  split
  · exact ⟨rfl, rfl⟩
  split
  · exact ⟨rfl, rfl⟩
  split <;> exact ⟨rfl, rfl⟩

/-- Closing a slot empties it and no other. -/
theorem taskCloseFd_fds {σ : Type} (vfs : Vfs σ) (s : TaskSys σ) (t : Word)
    (fd : Fin maxOpenFiles) :
    (taskCloseFd vfs t s fd).files.fds = (s.files.setFd t fd 0).fds := by
  rw [taskCloseFd]
  split
  · rename_i hfree
    rw [Files.setFd_free hfree]
  · have hkeep := (fileUnref_keeps vfs s.fs s.files (s.files.fds t fd)).1
    simp only [TaskSys.setFd, TaskSys.noteUnref, TaskSys.drop]
    split
    · simp only [Files.setFd, hkeep]
    · simp only [Files.setFd, hkeep]

/-- `sys_close` by the task `t` fails and does nothing, or closes a slot as `task_destroy` does. -/
theorem closeBy_cases {σ : Type} (vfs : Vfs σ) (s : TaskSys σ) {t : Word} (ht : t ≠ 0) (fd : Word) :
    s.closeBy vfs t fd = (-ebadf, s.runningAs t) ∨
      ∃ i, fdIndex (toCInt fd) = some i ∧ s.files.fds t i ≠ 0 ∧
        s.closeBy vfs t fd = (0, taskCloseFd vfs t (s.runningAs t) i) := by
  have htable : currentTaskFds (s.runningAs t).files = some (s.files.fds t) := if_neg ht
  cases hindex : fdIndex (toCInt fd) with
  | none =>
    left
    have hclose : sysClose vfs (s.runningAs t).toSys fd = (-ebadf, (s.runningAs t).toSys) := by
      simp only [sysClose, hindex]
    simp only [TaskSys.closeBy, hclose]
    exact if_pos (by decide)
  | some i =>
    by_cases hslot : s.files.fds t i = 0
    · left
      have hclose : sysClose vfs (s.runningAs t).toSys fd = (-ebadf, (s.runningAs t).toSys) := by
        simp only [sysClose, hindex, htable, if_pos hslot]
      simp only [TaskSys.closeBy, hclose]
      exact if_pos (by decide)
    · refine Or.inr ⟨i, rfl, hslot, ?_⟩
      have hcurrent := (fileUnref_keeps vfs s.fs (s.runningAs t).files (s.files.fds t i)).2
      have hslot' : (s.runningAs t).files.fds t i ≠ 0 := hslot
      simp only [TaskSys.closeBy, sysClose, hindex, htable, if_neg hslot, taskCloseFd,
        if_neg hslot', Option.map_some, Option.getD_some]
      simp only [TaskSys.runningAs] at hcurrent ⊢
      cases hunref : fileUnref vfs s.fs { s.files with current := t } (s.files.fds t i) with
      | mk freed rest =>
      obtain ⟨fs, files⟩ := rest
      rw [hunref] at hcurrent
      replace hcurrent : files.current = t := hcurrent
      cases freed <;> simp [TaskSys.noteUnref, TaskSys.drop, TaskSys.setFd, hcurrent]

/-- `sys_close` by the task `t`. -/
theorem closeBy_effect {fd : Word} {r : Int} (hops : StaticOps vfs opens closes) (h : s.Counted)
    (ht : t ∈ s.liveTasks) (hclose : s.closeBy (recorded vfs) t fd = (r, s')) :
    s'.liveTasks = s.liveTasks ∧
      ((r < 0 ∧ s'.files.fds = s.files.fds ∧ s'.files.file = s.files.file ∧
          s'.liveFiles = s.liveFiles ∧ CallEffect opens closes s s' [] [] []) ∨
        (r = 0 ∧ ∃ i lost, fdIndex (toCInt fd) = some i ∧ s.files.fds t i ≠ 0 ∧
          s'.files.fds = (s.files.setFd t i 0).fds ∧
          CallEffect opens closes s s' [] lost [])) := by
  have h₀ : (s.runningAs t).Counted := FilesOk.congr h rfl fun _ _ => rfl
  rcases closeBy_cases (recorded vfs) s (FilesOk.task_ne_zero h ht) fd with
    hfail | ⟨i, hindex, hslot, hdone⟩
  · cases hclose.symm.trans hfail
    exact ⟨rfl, Or.inl ⟨by decide, rfl, rfl, rfl, .same h₀ rfl rfl⟩⟩
  · cases hclose.symm.trans hdone
    obtain ⟨⟨lost, hclosed⟩, -⟩ := taskCloseFd_closed (t := t) hops h₀ ht i
    refine ⟨hclosed.tasks, Or.inr ⟨rfl, i, lost, hindex, hslot, ?_, ?_⟩⟩
    · rw [taskCloseFd_fds]
      rfl
    · exact hclosed.effect.of_start rfl rfl rfl

end

/-! ## Runs -/

/-- One step of the kernel as far as tasks and open files are concerned: a call, with any answers of
the allocator that are in no use, or anything else that leaves the tables, the counts and what the
tasks own alone. -/
inductive TaskStep (vfs : Vfs σ) (arch : Arch) (hhdm : Word) :
    TaskSys (σ × List VfsCallback) → TaskSys (σ × List VfsCallback) → Prop
  | boot {s s' : TaskSys (σ × List VfsCallback)} {answers : List Word} {name stackPointer r : Word}
    (hfresh : FreshAnswers { s with answers })
    (hcall : taskInitBoot (recorded vfs) arch hhdm { s with answers } name stackPointer =
      some (r, s')) : TaskStep vfs arch hhdm s s'
  | create {s s' : TaskSys (σ × List VfsCallback)} {answers : List Word} {name r : Word}
    (hfresh : FreshAnswers { s with answers })
    (hcall : taskCreate (recorded vfs) arch hhdm { s with answers } name = some (r, s')) :
    TaskStep vfs arch hhdm s s'
  | createUser {s s' : TaskSys (σ × List VfsCallback)} {answers : List Word} {name ctx r : Word}
    (hfresh : FreshAnswers { s with answers })
    (hcall : taskCreateUser (recorded vfs) arch hhdm { s with answers } name ctx = some (r, s')) :
    TaskStep vfs arch hhdm s s'
  | destroy {s s' : TaskSys (σ × List VfsCallback)} {t : Word} (ht : t ∈ s.liveTasks)
    (hcall : taskDestroy (recorded vfs) arch hhdm s t = some s') : TaskStep vfs arch hhdm s s'
  | openat {s s' : TaskSys (σ × List VfsCallback)} {answers : List Word}
    {t dirfd path flags : Word} {r : Int} (ht : t ∈ s.liveTasks)
    (hfresh : FreshAnswers { s with answers })
    (hcall : { s with answers }.openatBy (recorded vfs) t dirfd path flags = some (r, s')) :
    TaskStep vfs arch hhdm s s'
  | openFile {s s' : TaskSys (σ × List VfsCallback)} {answers : List Word} {t path flags : Word}
    {r : Int} (ht : t ∈ s.liveTasks) (hfresh : FreshAnswers { s with answers })
    (hcall : { s with answers }.openBy (recorded vfs) t path flags = some (r, s')) :
    TaskStep vfs arch hhdm s s'
  | close {s s' : TaskSys (σ × List VfsCallback)} {t fd : Word} {r : Int} (ht : t ∈ s.liveTasks)
    (hcall : s.closeBy (recorded vfs) t fd = (r, s')) : TaskStep vfs arch hhdm s s'
  | other {s s' : TaskSys (σ × List VfsCallback)} (htasks : s'.liveTasks = s.liveTasks)
    (hlive : s'.liveFiles = s.liveFiles) (hfds : s'.files.fds = s.files.fds)
    (hfiles : ∀ f, (s'.files.file f).refCount = (s.files.file f).refCount ∧
      (s'.files.file f).node = (s.files.file f).node)
    (hrecord : s'.fs.2 = s.fs.2)
    (hbody : ∀ t, (s'.body t).kernelStackBase = (s.body t).kernelStackBase ∧
      (s'.body t).fpuState = (s.body t).fpuState ∧ (s'.body t).vmmContext = (s.body t).vmmContext)
    (hkernel : s'.vmmKernelContext = s.vmmKernelContext) (hlog : s'.log = s.log) :
    TaskStep vfs arch hhdm s s'

section

variable {vfs : Vfs σ} {opens closes : Word → Bool} {s s' s₀ : TaskSys (σ × List VfsCallback)}
  {arch : Arch} {hhdm : Word}

/-- Every step keeps the counts right, and runs the callbacks once. -/
theorem TaskStep.effect (hops : StaticOps vfs opens closes) (h : s.Counted)
    (hstep : TaskStep vfs arch hhdm s s') :
    ∃ gained lost refused, CallEffect opens closes s s' gained lost refused := by
  -- the answers of the allocator play no part
  have hwith : ∀ (answers : List Word) {gained lost refused : List Word},
      CallEffect opens closes { s with answers } s' gained lost refused →
      CallEffect opens closes s s' gained lost refused := fun answers _ _ _ heffect =>
    heffect.of_start rfl rfl rfl
  have hcounted : ∀ answers : List Word,
      ({ s with answers } : TaskSys (σ × List VfsCallback)).Counted := fun _ => h
  have hcreate : ∀ {answers : List Word} {name top ctx r : Word}, FreshAnswers { s with answers } →
      taskInnerCreate (recorded vfs) arch hhdm { s with answers } name top ctx = some (r, s') →
      ∃ gained lost refused, CallEffect opens closes s s' gained lost refused := by
    intro answers name top ctx r hfresh hcall
    obtain ⟨-, ⟨-, -, -, refused, heffect⟩ | ⟨-, -, -, f, heffect⟩⟩ :=
      taskInnerCreate_effect hops (hcounted answers) hfresh hcall
    · exact ⟨_, _, _, hwith answers heffect⟩
    · exact ⟨_, _, _, hwith answers heffect⟩
  have hopen : ∀ {answers : List Word} {t dirfd path flags : Word} {r : Int}, t ∈ s.liveTasks →
      FreshAnswers { s with answers } →
      { s with answers }.openatBy (recorded vfs) t dirfd path flags = some (r, s') →
      ∃ gained lost refused, CallEffect opens closes s s' gained lost refused := by
    intro answers t dirfd path flags r ht hfresh hcall
    obtain ⟨-, -, ⟨-, -, -, refused, heffect⟩ | ⟨fd, f, -, -, -, -, heffect⟩⟩ :=
      openatBy_effect hops (hcounted answers) ht hfresh hcall
    · exact ⟨_, _, _, hwith answers heffect⟩
    · exact ⟨_, _, _, hwith answers heffect⟩
  cases hstep with
  | boot hfresh hcall => exact hcreate hfresh hcall
  | create hfresh hcall => exact hcreate hfresh hcall
  | createUser hfresh hcall => exact hcreate hfresh hcall
  | destroy ht hcall =>
    obtain ⟨⟨lost, heffect⟩, -, -⟩ := taskDestroy_effect hops h ht hcall
    exact ⟨_, _, _, heffect⟩
  | openat ht hfresh hcall => exact hopen ht hfresh hcall
  | openFile ht hfresh hcall => exact hopen ht hfresh hcall
  | close ht hcall =>
    obtain ⟨-, ⟨-, -, -, -, heffect⟩ | ⟨-, i, lost, -, -, -, heffect⟩⟩ :=
      closeBy_effect hops h ht hcall
    · exact ⟨_, _, _, heffect⟩
    · exact ⟨_, _, _, heffect⟩
  | other htasks hlive hfds hfiles hrecord =>
    refine ⟨[], [], [], .same ?_ hlive hrecord⟩
    rw [TaskSys.Counted, htasks, hlive]
    exact FilesOk.congr h hfds fun f _ => (hfiles f).1

/-- The slots of all tasks that hold a file. -/
def TaskSys.slots (s : TaskSys σ) (f : Word) : Finset (Word × Fin maxOpenFiles) :=
  (s.liveTasks.toFinset ×ˢ Finset.univ).filter fun slot => s.files.fds slot.1 slot.2 = f

/-- The count of an open file is the number of its slots. -/
theorem TaskSys.Counted.card_slots {s : TaskSys σ} (h : s.Counted) {f : Word}
    (hf : f ∈ s.liveFiles) :
    (s.files.file f).refCount = ((s.slots f).card : ℤ) ∧ 1 ≤ (s.files.file f).refCount := by
  obtain ⟨t, ht, hcount, hpos, hothers⟩ := h.owner f hf
  have hslots : s.slots f = (Finset.univ.filter fun fd => s.files.fds t fd = f).map
      ⟨fun fd => (t, fd), fun _ _ heq => (Prod.mk.inj heq).2⟩ := by
    ext ⟨u, fd⟩
    simp only [TaskSys.slots, Finset.mem_filter, Finset.mem_product, List.mem_toFinset,
      Finset.mem_univ, and_true, Finset.mem_map, true_and]
    constructor
    · rintro ⟨hu, hfd⟩
      by_cases hut : u = t
      · exact ⟨fd, hut ▸ hfd, Prod.ext hut.symm rfl⟩
      · have hzero := hothers u hu hut
        have hpos' : 0 < s.files.refs u f := Files.refs_pos_iff.mpr ⟨fd, hfd⟩
        omega
    · rintro ⟨fd', hfd, heq⟩
      cases heq
      exact ⟨ht, hfd⟩
  refine ⟨?_, by omega⟩
  rw [hcount, hslots, Finset.card_map]
  rfl

/-- A slot that is not empty holds an open file. -/
theorem TaskSys.Counted.slot_live {s : TaskSys σ} (h : s.Counted) {t : Word} (ht : t ∈ s.liveTasks)
    {fd : Fin maxOpenFiles} (hfd : s.files.fds t fd ≠ 0) : s.files.fds t fd ∈ s.liveFiles :=
  h.held t ht _ hfd (Files.refs_pos_iff.mpr ⟨fd, rfl⟩)

/-- What `sys_openat` by the task `t` may do: with the lowest free slot from 3 on, only that slot
changes; with an error, no table and no count of an open file. -/
structure OpenSpec (s s' : TaskSys σ) (t : Word) (r : Int) : Prop where
  opened : 0 ≤ r → ∃ fd : Fin maxOpenFiles, r = (fd.val : ℤ) ∧ 3 ≤ fd.val ∧
    s.files.fds t fd = 0 ∧ (∀ i : Fin maxOpenFiles, 3 ≤ i.val → i < fd → s.files.fds t i ≠ 0) ∧
    s'.files.fds t fd ≠ 0 ∧ ∀ u i, ¬ (u = t ∧ i = fd) → s'.files.fds u i = s.files.fds u i
  failed : r < 0 → s'.files.fds = s.files.fds ∧ s'.liveFiles = s.liveFiles ∧
    ∀ f ∈ s.liveFiles, (s'.files.file f).refCount = (s.files.file f).refCount

/-- What `sys_close` by the task `t` may do. -/
structure CloseSpec (s s' : TaskSys σ) (t fd : Word) (r : Int) : Prop where
  closed : 0 ≤ r → ∃ i, fdIndex (toCInt fd) = some i ∧ s'.files.fds t i = 0 ∧
    ∀ u j, ¬ (u = t ∧ j = i) → s'.files.fds u j = s.files.fds u j
  failed : r < 0 → s'.files.fds = s.files.fds ∧ s'.liveFiles = s.liveFiles ∧
    ∀ f ∈ s.liveFiles, (s'.files.file f).refCount = (s.files.file f).refCount

theorem openatBy_spec {t dirfd path flags : Word} {r : Int} (hops : StaticOps vfs opens closes)
    (h : s.Counted) (ht : t ∈ s.liveTasks) (hfresh : FreshAnswers s)
    (hopen : s.openatBy (recorded vfs) t dirfd path flags = some (r, s')) : OpenSpec s s' t r := by
  obtain ⟨-, hfiles, ⟨hneg, hfds, hlive, -⟩ | ⟨fd, f, rfl, hslot, hf, hfds, -⟩⟩ :=
    openatBy_effect hops h ht hfresh hopen
  · exact ⟨fun hpos => absurd hneg (not_lt.mpr hpos),
      fun _ => ⟨hfds, hlive, fun f hf => by rw [hfiles f hf]⟩⟩
  · obtain ⟨hfree, hlow, hfirst⟩ := findSlot_spec hslot
    refine ⟨fun _ => ⟨fd, rfl, hlow, hfree, hfirst, ?_, fun u i hne => ?_⟩, fun hneg => by omega⟩
    · rw [hfds, Files.fds_setFd_self]
      exact hf
    · rw [hfds, Files.fds_setFd, if_neg hne]

theorem closeBy_spec {t fd : Word} {r : Int} (hops : StaticOps vfs opens closes) (h : s.Counted)
    (ht : t ∈ s.liveTasks) (hclose : s.closeBy (recorded vfs) t fd = (r, s')) :
    CloseSpec s s' t fd r := by
  obtain ⟨-, ⟨hneg, hfds, hfiles, hlive, -⟩ | ⟨rfl, i, lost, hindex, -, hfds, -⟩⟩ :=
    closeBy_effect hops h ht hclose
  · exact ⟨fun hpos => absurd hneg (not_lt.mpr hpos),
      fun _ => ⟨hfds, hlive, fun f _ => by rw [hfiles]⟩⟩
  · refine ⟨fun _ => ⟨i, hindex, ?_, fun u j hne => ?_⟩, fun hneg => absurd hneg (by decide)⟩
    · rw [hfds, Files.fds_setFd_self]
    · rw [hfds, Files.fds_setFd, if_neg hne]

/-- Open-file reference counts are exact. In every state of every run the count of every open file
is the number of slots that hold it and at least one, and no slot holds a file that was freed. Every
step from there runs `open` once for a file that gets its first reference and `close` once for one
that loses its last; `sys_openat` and `sys_close` change what they should and nothing on an error. -/
theorem open_file_refcounts_exact (hops : StaticOps vfs opens closes) (htasks : s₀.liveTasks = [])
    (hfiles : s₀.liveFiles = []) (hrun : Relation.ReflTransGen (TaskStep vfs arch hhdm) s₀ s) :
    (∀ f ∈ s.liveFiles, (s.files.file f).refCount = ((s.slots f).card : ℤ) ∧
      1 ≤ (s.files.file f).refCount) ∧
    (∀ t ∈ s.liveTasks, ∀ fd, s.files.fds t fd ≠ 0 → s.files.fds t fd ∈ s.liveFiles) ∧
    (∀ s', TaskStep vfs arch hhdm s s' →
      ∃ gained lost refused, CallEffect opens closes s s' gained lost refused) ∧
    (∀ t ∈ s.liveTasks, ∀ (answers : List Word) (path flags : Word) (r : Int)
      (s' : TaskSys (σ × List VfsCallback)), FreshAnswers { s with answers } →
      (∀ dirfd, { s with answers }.openatBy (recorded vfs) t dirfd path flags = some (r, s') →
        OpenSpec s s' t r) ∧
      ({ s with answers }.openBy (recorded vfs) t path flags = some (r, s') →
        OpenSpec s s' t r)) ∧
    ∀ t ∈ s.liveTasks, ∀ (fd : Word) (r : Int) (s' : TaskSys (σ × List VfsCallback)),
      s.closeBy (recorded vfs) t fd = (r, s') → CloseSpec s s' t fd r := by
  have h : s.Counted := by
    induction hrun with
    | refl =>
      rw [TaskSys.Counted, htasks, hfiles]
      exact FilesOk.nil _
    | tail _ hstep ih =>
      obtain ⟨_, _, _, heffect⟩ := hstep.effect hops ih
      exact heffect.counted
  refine ⟨fun f hf => h.card_slots hf, fun t ht fd hfd => h.slot_live ht hfd,
    fun s' hstep => hstep.effect hops h, fun t ht answers path flags r s' hfresh => ?_,
    fun t ht fd r s' hclose => closeBy_spec hops h ht hclose⟩
  have hopen : ∀ dirfd, { s with answers }.openatBy (recorded vfs) t dirfd path flags =
      some (r, s') → OpenSpec s s' t r := fun dirfd hcall => by
    obtain ⟨hopened, hfailed⟩ := openatBy_spec (s := { s with answers }) hops h ht hfresh hcall
    exact ⟨hopened, hfailed⟩
  exact ⟨hopen, hopen _⟩

end

/-! ## A run -/

/-- File systems with the console only, whose driver can be opened and closed. -/
def consoleVfs : Vfs Unit where
  lookup _ path := if path = consolePath then 0x5000 else 0
  flags _ _ := vfsChardevice
  size _ _ := 0
  hasOpen _ _ := true
  hasClose _ _ := true
  hasRead _ _ := false
  hasWrite _ _ := false
  hasReaddir _ _ := false
  openNode fs _ := (0, fs)
  closeNode fs _ := (0, fs)
  read fs _ _ _ := (.ok [], fs)
  write fs _ _ _ := (0, fs)
  readdir fs _ _ := (0, ⟨[], 0, 0, nil_fits⟩, fs)
  read_le _ _ _ _ bytes h := by
    obtain rfl := Except.ok.inj h
    exact Nat.zero_le _
  write_le _ _ _ bytes := Int.natCast_nonneg _

/-- The state before the first task, with an empty memory. -/
def bootSys : TaskSys (Unit × List VfsCallback) where
  mem _ := 0
  touched := []
  fs := ((), [])
  files := { file := fun _ => ⟨0, 0, 0, 0⟩, fds := fun _ _ => 0, current := 0 }
  body _ := TaskBody.zero
  nextPid := 0
  vmm :=
    { pmm := ⟨fun _ => 0, 0, 0⟩, vmmKernelContext := none, vmmCurrentContext := none,
      userRoot := 0, ttbr1 := 0 }
  contexts _ := ⟨0, 0, 0, 0⟩
  vmmKernelContext := 0x100
  answers := []
  liveTasks := []
  liveFiles := []
  log := []

theorem consoleVfs_ops : StaticOps consoleVfs (fun _ => true) (fun _ => true) :=
  ⟨fun _ _ => rfl, fun _ _ => rfl⟩

theorem bootSys_fresh : FreshAnswers { bootSys with answers := [0x1000, 0x2000, 0x3000] } where
  nodup := by decide
  tasks _ _ := List.not_mem_nil
  files _ _ := List.not_mem_nil
  kernel a ha _ := by
    simp only [List.mem_cons, List.not_mem_nil, or_false] at ha
    rcases ha with rfl | rfl | rfl <;> decide

/-- The boot task opens the console and has three references to it. -/
theorem open_file_refcounts_exact_boot :
    StaticOps consoleVfs (fun _ => true) (fun _ => true) ∧
    ∃ s, TaskStep consoleVfs .x86_64 0 bootSys s ∧ s.liveFiles = [0x3000] ∧
      s.fs.2 = [.opened 0x5000 true] ∧ (s.slots 0x3000).card = 3 := by
  have hboot : (taskInitBoot (recorded consoleVfs) .x86_64 0
      { bootSys with answers := [0x1000, 0x2000, 0x3000] } 0x6000 0x7000).map
        (fun r => (r.2.liveFiles, r.2.fs.2, (r.2.files.file 0x3000).refCount)) =
      some ([0x3000], [.opened 0x5000 true], 3) := by
    decide +kernel
  obtain ⟨⟨r, s⟩, hcall, hs⟩ := Option.map_eq_some_iff.mp hboot
  obtain ⟨hlive, hs⟩ := Prod.mk.inj hs
  obtain ⟨hrecord, hcount⟩ := Prod.mk.inj hs
  have hstep : TaskStep consoleVfs .x86_64 0 bootSys s := .boot bootSys_fresh hcall
  obtain ⟨hcounts, -⟩ := open_file_refcounts_exact consoleVfs_ops rfl rfl (.single hstep)
  refine ⟨consoleVfs_ops, s, hstep, hlive, hrecord, ?_⟩
  have hslots := (hcounts 0x3000 (by rw [hlive]; exact List.mem_cons_self)).1
  rw [hcount] at hslots
  exact_mod_cast hslots.symm

end Pros
