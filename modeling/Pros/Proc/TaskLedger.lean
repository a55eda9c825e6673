import Pros.Pmm.FreeList
import Pros.Proc.TaskOpen
import Mathlib.Tactic.Abel

/-!
# Books of the tasks

What a task owns can be read off its struct and its slots: its block, the FPU state, a stack that was
allocated, an address space that is not the kernel's, the files and its references to them. Every call
keeps the books in step with it, so a task that is gone has given everything back.
-/

namespace Pros

open Ledger (balance balance_gain balance_drop)

/-! ## What a task owns -/

section

variable (hhdm kernel t : Word) (b : TaskBody)

/-- The FPU state. -/
def TaskBody.ownedFpu : Resource → ℕ :=
  if b.fpuState = 0 then 0 else Pi.single (.fpu b.fpuState) 1

/-- The stack, unless it was handed to the task. -/
def TaskBody.ownedStack : Resource → ℕ :=
  if b.kernelStackBase = 0 then 0
  else Pi.single (.stack (pmmVirtToPhys hhdm b.kernelStackBase)) 1

/-- The address space, unless it is the kernel's. -/
def TaskBody.ownedContext : Resource → ℕ :=
  if b.vmmContext = 0 ∨ b.vmmContext = kernel then 0 else Pi.single (.context b.vmmContext) 1

/-- What the task `t` owns by its struct, in the order in which it gets it. -/
def TaskBody.owned : Resource → ℕ :=
  Pi.single (.task t) 1 + b.ownedFpu + b.ownedStack hhdm + b.ownedContext kernel

end

/-- The fields that tell what is owned. -/
def TaskBody.holdings (b : TaskBody) : Word × Word × Word :=
  (b.kernelStackBase, b.fpuState, b.vmmContext)

/-- The files of the task `t` and its references to them. -/
def Files.owned (s : Files) (t : Word) : Resource → ℕ
  | .file f => if f ≠ 0 ∧ 0 < s.refs t f then 1 else 0
  | .ref f => if f = 0 then 0 else s.refs t f
  | _ => 0

variable {σ : Type}

/-- What the task `t` owns. -/
def TaskSys.owned (hhdm : Word) (s : TaskSys σ) (t : Word) : Resource → ℕ :=
  (s.body t).owned hhdm s.vmmKernelContext t + s.files.owned t

section

variable {hhdm kernel t : Word} {b b' : TaskBody}

theorem TaskBody.owned_zero (h : b.fpuState = 0) (hbase : b.kernelStackBase = 0)
    (hctx : b.vmmContext = 0) : b.owned hhdm kernel t = Pi.single (.task t) 1 := by
  simp [owned, ownedFpu, ownedStack, ownedContext, h, hbase, hctx]

theorem TaskBody.owned_congr (h : b'.holdings = b.holdings) :
    b'.owned hhdm kernel t = b.owned hhdm kernel t := by
  obtain ⟨hbase, h⟩ := Prod.mk.inj h
  obtain ⟨hfpu, hctx⟩ := Prod.mk.inj h
  simp only [owned, ownedFpu, ownedStack, ownedContext, hbase, hfpu, hctx]

theorem TaskBody.owned_setFpu (h : b.fpuState = 0) {p : Word} (hp : p ≠ 0) :
    { b with fpuState := p }.owned hhdm kernel t =
      b.owned hhdm kernel t + Pi.single (.fpu p) 1 := by
  have hfpu : b.ownedFpu = 0 := if_pos h
  have hfpu' : { b with fpuState := p }.ownedFpu = Pi.single (.fpu p) 1 := if_neg hp
  rw [owned, owned, hfpu, hfpu']
  simp only [ownedStack, ownedContext]
  abel

theorem TaskBody.owned_setStack (h : b.kernelStackBase = 0) {p : Word} (hp : p ≠ 0) (top : Word) :
    { b with kernelStackBase := p, kernelStackTop := top }.owned hhdm kernel t =
      b.owned hhdm kernel t + Pi.single (.stack (pmmVirtToPhys hhdm p)) 1 := by
  have hstack : b.ownedStack hhdm = 0 := if_pos h
  have hstack' : { b with kernelStackBase := p, kernelStackTop := top }.ownedStack hhdm =
      Pi.single (.stack (pmmVirtToPhys hhdm p)) 1 := if_neg hp
  rw [owned, owned, hstack, hstack']
  simp only [ownedFpu, ownedContext]
  abel

theorem TaskBody.owned_setContext (hhdm kernel t : Word) (h : b.vmmContext = 0) (ctx : Word) :
    { b with vmmContext := ctx }.owned hhdm kernel t = b.owned hhdm kernel t +
      if ctx = 0 ∨ ctx = kernel then 0 else Pi.single (.context ctx) 1 := by
  have hctx : b.ownedContext kernel = 0 := if_pos (Or.inl h)
  rw [owned, owned, hctx, add_zero]
  rfl

end

namespace Files

variable {s s' : Files} {t f : Word} {fd : Fin maxOpenFiles}

theorem owned_congr (h : s'.fds t = s.fds t) : s'.owned t = s.owned t := by
  have hrefs : ∀ f, s'.refs t f = s.refs t f := fun f => by rw [refs, refs, h]
  funext r
  cases r with
  | file f | ref f => simp only [owned, hrefs]
  | _ => rfl

theorem owned_of_empty (h : ∀ fd, s.fds t fd = 0) : s.owned t = 0 := by
  have hrefs : ∀ f ≠ 0, s.refs t f = 0 := fun f hf =>
    Nat.eq_zero_of_not_pos fun hpos => by
      obtain ⟨fd, hfd⟩ := refs_pos_iff.mp hpos
      exact hf (hfd.symm.trans (h fd))
  funext r
  cases r with
  | file f =>
    refine if_neg fun hf => ?_
    exact absurd hf.2 (by rw [hrefs f hf.1]; exact lt_irrefl 0)
  | ref f =>
    by_cases hf : f = 0
    · exact if_pos hf
    · exact (if_neg hf).trans (hrefs f hf)
  | _ => rfl

/-- A free slot takes a reference; the first one to a file comes with the file. -/
theorem owned_setFd_fill (hfree : s.fds t fd = 0) (hf : f ≠ 0) :
    (s.setFd t fd f).owned t = s.owned t +
      (if s.refs t f = 0 then Pi.single (.file f) 1 else 0) + Pi.single (.ref f) 1 := by
  have hrefs : ∀ g ≠ 0, (s.setFd t fd f).refs t g = s.refs t g + if g = f then 1 else 0 :=
    fun g hg => by
      rw [refs_setFd_fill hfree hf hg]
      simp only [true_and]
  funext r
  cases r with
  | file g | ref g =>
    have hg := hrefs g
    simp only [owned, Pi.add_apply, ite_apply, Pi.zero_apply, Pi.single_apply, reduceCtorEq,
      Resource.file.injEq, Resource.ref.injEq]
    grind
  | _ => simp [owned, ite_apply]

/-- A slot gives its reference up; the last one to a file takes the file with it. -/
theorem owned_setFd_clear (hfd : s.fds t fd = f) (hf : f ≠ 0) :
    s.owned t = (s.setFd t fd 0).owned t +
      (if s.refs t f ≤ 1 then Pi.single (.file f) 1 else 0) + Pi.single (.ref f) 1 := by
  have hpos : 0 < s.refs t f := refs_pos_iff.mpr ⟨fd, hfd⟩
  have hrefs : ∀ g ≠ 0, (s.setFd t fd 0).refs t g = s.refs t g - if g = f then 1 else 0 :=
    fun g hg => by
      rw [refs_setFd_clear hfd hg]
      simp only [true_and]
  funext r
  cases r with
  | file g | ref g =>
    have hg := hrefs g
    simp only [owned, Pi.add_apply, ite_apply, Pi.zero_apply, Pi.single_apply, reduceCtorEq,
      Resource.file.injEq, Resource.ref.injEq]
    grind
  | _ => simp [owned, ite_apply]

end Files

/-! ## Calls for one task -/

/-- What a call for the task `t` leaves alone: the entries it adds are the task's and about resources
with `P`, and nothing changes that tells what others own. -/
structure ByTask (P : Resource → Prop) (t : Word) (s s' : TaskSys σ) : Prop where
  events : ∃ events : List TaskEvent, s'.log = events ++ s.log ∧
    ∀ e ∈ events, e.owner = t ∧ P e.resource
  body : ∀ u ≠ t, (s'.body u).holdings = (s.body u).holdings
  fds : ∀ u ≠ t, s'.files.fds u = s.files.fds u
  kernel : s'.vmmKernelContext = s.vmmKernelContext

namespace ByTask

variable {P : Resource → Prop} {t u : Word} {s s' s'' : TaskSys σ}

/-- Nothing is entered, and what tells what is owned is the same. -/
theorem of_eq (hlog : s'.log = s.log) (hbody : s'.body = s.body)
    (hfds : s'.files.fds = s.files.fds) (hkernel : s'.vmmKernelContext = s.vmmKernelContext) :
    ByTask P t s s' where
  events := ⟨[], hlog, nofun⟩
  body _ _ := by rw [hbody]
  fds _ _ := by rw [hfds]
  kernel := hkernel

theorem trans (h : ByTask P t s s') (h' : ByTask P t s' s'') : ByTask P t s s'' where
  events := by
    obtain ⟨events, hlog, hevents⟩ := h.events
    obtain ⟨events', hlog', hevents'⟩ := h'.events
    refine ⟨events' ++ events, by rw [hlog', hlog, List.append_assoc], fun e he => ?_⟩
    rcases List.mem_append.mp he with he | he
    · exact hevents' e he
    · exact hevents e he
  body u hu := (h'.body u hu).trans (h.body u hu)
  fds u hu := (h'.fds u hu).trans (h.fds u hu)
  kernel := h'.kernel.trans h.kernel

/-- One more entry. -/
theorem entry {e : TaskEvent} (h : ByTask P t s s') (he : e.owner = t) (hr : P e.resource) :
    ByTask P t s { s' with log := e :: s'.log } where
  events := by
    obtain ⟨events, hlog, hevents⟩ := h.events
    refine ⟨e :: events, by rw [hlog, List.cons_append], fun e' he' => ?_⟩
    rcases List.mem_cons.mp he' with rfl | he'
    · exact ⟨he, hr⟩
    · exact hevents e' he'
  body := h.body
  fds := h.fds
  kernel := h.kernel

theorem gain {r : Resource} (h : ByTask P t s s') (hr : P r) : ByTask P t s (s'.gain t r) :=
  h.entry rfl hr

theorem drop {r : Resource} (h : ByTask P t s s') (hr : P r) : ByTask P t s (s'.drop t r) :=
  h.entry rfl hr

theorem setBody (h : ByTask P t s s') (b : TaskBody) : ByTask P t s (s'.setBody t b) where
  events := h.events
  body u hu := (congrArg TaskBody.holdings (Function.update_of_ne hu _ _)).trans (h.body u hu)
  fds := h.fds
  kernel := h.kernel

theorem setFd (h : ByTask P t s s') (fd : Fin maxOpenFiles) (f : Word) :
    ByTask P t s (s'.setFd t fd f) where
  events := h.events
  body := h.body
  fds u hu := by
    rw [← h.fds u hu]
    funext i
    exact Files.fds_setFd_task hu
  kernel := h.kernel

theorem owned_eq (h : ByTask P t s s') (hu : u ≠ t) (hhdm : Word) :
    s'.owned hhdm u = s.owned hhdm u := by
  rw [TaskSys.owned, TaskSys.owned, TaskBody.owned_congr (h.body u hu), h.kernel,
    Files.owned_congr (h.fds u hu)]

theorem balance_eq (h : ByTask P t s s') (hu : u ≠ t) : balance u s'.log = balance u s.log := by
  obtain ⟨events, hlog, hevents⟩ := h.events
  rw [hlog]
  exact Ledger.balance_append_of_ne fun e he heq => hu (heq.symm.trans (hevents e he).1)

end ByTask

section

variable {vfs : Vfs σ} {arch : Arch} {hhdm t : Word} {s s' : TaskSys σ} {P : Resource → Prop}

/-- The references of `file_unref` are in the books. -/
theorem TaskSys.noteUnref_log (s : TaskSys σ) (t f : Word) (freed : Bool) :
    (s.noteUnref t f freed).log =
      if freed then .drop t (.file f) :: .drop t (.ref f) :: s.log
      else .drop t (.ref f) :: s.log := by
  cases freed <;> rfl

theorem TaskSys.noteUnref_filesOnly (s : TaskSys σ) (t f : Word) (freed : Bool) :
    FilesOnly s (s.noteUnref t f freed) := by
  cases freed <;> exact ⟨rfl, rfl, rfl, rfl⟩

theorem ByTask.noteUnref (h : ByTask P t s s') (hfile : ∀ f, P (.file f)) (href : ∀ f, P (.ref f))
    (f : Word) (freed : Bool) : ByTask P t s (s'.noteUnref t f freed) := by
  have hdrop : ByTask P t s (s'.drop t (.ref f)) := h.drop (href f)
  cases freed with
  | false => exact hdrop
  | true => exact .drop (.trans hdrop (.of_eq rfl rfl rfl rfl)) (hfile f)

theorem taskCloseFd_by (hfile : ∀ f, P (.file f)) (href : ∀ f, P (.ref f))
    (fd : Fin maxOpenFiles) : ByTask P t s (taskCloseFd vfs t s fd) := by
  rw [taskCloseFd]
  split
  · exact .of_eq rfl rfl rfl rfl
  · have hkeeps := (fileUnref_keeps vfs s.fs s.files (s.files.fds t fd)).1
    have hunref : ByTask P t s { s with
        fs := (fileUnref vfs s.fs s.files (s.files.fds t fd)).2.1
        files := (fileUnref vfs s.fs s.files (s.files.fds t fd)).2.2 } := .of_eq rfl rfl hkeeps rfl
    exact (hunref.noteUnref hfile href _ _).setFd fd 0

theorem taskCloseFds_by (hfile : ∀ f, P (.file f)) (href : ∀ f, P (.ref f))
    (fds : List (Fin maxOpenFiles)) : ByTask P t s (fds.foldl (taskCloseFd vfs t) s) := by
  induction fds generalizing s with
  | nil => exact .of_eq rfl rfl rfl rfl
  | cons fd fds ih => exact (taskCloseFd_by hfile href fd).trans ih

theorem taskCloseFd_filesOnly (vfs : Vfs σ) (t : Word) (s : TaskSys σ) (fd : Fin maxOpenFiles) :
    FilesOnly s (taskCloseFd vfs t s fd) := by
  rw [taskCloseFd]
  split
  · exact ⟨rfl, rfl, rfl, rfl⟩
  · have hnote := TaskSys.noteUnref_filesOnly
      { s with
        fs := (fileUnref vfs s.fs s.files (s.files.fds t fd)).2.1
        files := (fileUnref vfs s.fs s.files (s.files.fds t fd)).2.2 }
      t (s.files.fds t fd) (fileUnref vfs s.fs s.files (s.files.fds t fd)).1
    exact ⟨hnote.body, hnote.vmm, hnote.contexts, hnote.kernel⟩

theorem taskCloseFds_filesOnly (vfs : Vfs σ) (t : Word) (s : TaskSys σ)
    (fds : List (Fin maxOpenFiles)) : FilesOnly s (fds.foldl (taskCloseFd vfs t) s) := by
  induction fds generalizing s with
  | nil => exact ⟨rfl, rfl, rfl, rfl⟩
  | cons fd fds ih => exact (taskCloseFd_filesOnly vfs t s fd).trans (ih _)

/-! ## Destroying -/

/-- `task_destroy` of a task, part by part. -/
theorem taskDestroy_cases (ht : t ≠ 0) (h : taskDestroy vfs arch hhdm s t = some s') :
    ∃ s₂, taskDropContext arch hhdm ((List.finRange maxOpenFiles).foldl (taskCloseFd vfs t) s) t =
        some s₂ ∧
      s' = ({ archFpuFree (taskDropStack hhdm s₂ t) t with
        liveTasks := (archFpuFree (taskDropStack hhdm s₂ t) t).liveTasks.erase t }).drop t
          (.task t) := by
  rw [taskDestroy, if_neg ht] at h
  obtain ⟨s₂, hcontext, hret⟩ := Option.bind_eq_some_iff.mp h
  exact ⟨s₂, hcontext, (Option.some.inj hret).symm⟩

theorem taskDropContext_balance {held : Resource → ℕ}
    (hb : balance t s.log = some (held + (s.body t).ownedContext s.vmmKernelContext))
    (h : taskDropContext arch hhdm s t = some s') : balance t s'.log = some held := by
  rw [TaskBody.ownedContext] at hb
  obtain ⟨-, -, ⟨hnot, rfl⟩ | ⟨hown, vmm, rfl⟩⟩ := taskDropContext_cases h
  · rwa [if_pos hnot, add_zero] at hb
  · rw [if_neg hown] at hb
    exact balance_drop hb

theorem taskDropStack_balance {held : Resource → ℕ}
    (hb : balance t s.log = some (held + (s.body t).ownedStack hhdm)) :
    balance t (taskDropStack hhdm s t).log = some held := by
  rw [TaskBody.ownedStack] at hb
  simp only [taskDropStack]
  split
  · rename_i hbase
    rwa [if_pos hbase, add_zero] at hb
  · rename_i hbase
    rw [if_neg hbase] at hb
    have hlog : (kstackFree hhdm s (s.body t).kernelStackBase).log = s.log := by
      rw [kstackFree, if_neg hbase]
    exact balance_drop (by rw [hlog]; exact hb)

theorem taskDropStack_body (hhdm : Word) (s : TaskSys σ) (t : Word) :
    (taskDropStack hhdm s t).body = s.body := by
  simp only [taskDropStack, kstackFree]
  split <;> rfl

theorem archFpuFree_balance {held : Resource → ℕ}
    (hb : balance t s.log = some (held + (s.body t).ownedFpu)) :
    balance t (archFpuFree s t).log = some held := by
  rw [TaskBody.ownedFpu] at hb
  simp only [archFpuFree]
  split
  · rename_i hfpu
    rwa [if_pos hfpu, add_zero] at hb
  · rename_i hfpu
    rw [if_neg hfpu] at hb
    exact balance_drop hb

/-- The end of `task_destroy`: the stack, the FPU state and the block of the task. -/
theorem taskFinish_by (hstack : (s.body t).kernelStackBase ≠ 0 →
      P (.stack (pmmVirtToPhys hhdm (s.body t).kernelStackBase)))
    (hfpu : P (.fpu (s.body t).fpuState)) (htask : P (.task t)) :
    ByTask P t s (({ archFpuFree (taskDropStack hhdm s t) t with
      liveTasks := (archFpuFree (taskDropStack hhdm s t) t).liveTasks.erase t }).drop t
        (.task t)) := by
  have hstacked : ByTask P t s (taskDropStack hhdm s t) := by
    simp only [taskDropStack, kstackFree]
    split
    · exact .of_eq rfl rfl rfl rfl
    · rename_i hbase
      exact .drop (.of_eq rfl rfl rfl rfl) (hstack hbase)
  have hfreed : ByTask P t (taskDropStack hhdm s t)
      (archFpuFree (taskDropStack hhdm s t) t) := by
    simp only [archFpuFree]
    split
    · exact .of_eq rfl rfl rfl rfl
    · refine .setBody (.drop (.of_eq rfl rfl rfl rfl) ?_) _
      rw [taskDropStack_body]
      exact hfpu
  exact .drop (.trans (hstacked.trans hfreed) (.of_eq rfl rfl rfl rfl)) htask

/-- Which resources `task_destroy` is about. -/
theorem taskDestroy_by (ht : t ≠ 0) (hfile : ∀ f, P (.file f)) (href : ∀ f, P (.ref f))
    (hctx : (s.body t).vmmContext ≠ 0 → (s.body t).vmmContext ≠ s.vmmKernelContext →
      P (.context (s.body t).vmmContext))
    (hstack : (s.body t).kernelStackBase ≠ 0 →
      P (.stack (pmmVirtToPhys hhdm (s.body t).kernelStackBase)))
    (hfpu : P (.fpu (s.body t).fpuState)) (htask : P (.task t))
    (h : taskDestroy vfs arch hhdm s t = some s') : ByTask P t s s' := by
  obtain ⟨s₂, hcontext, rfl⟩ := taskDestroy_cases ht h
  have hclosed : ByTask P t s ((List.finRange maxOpenFiles).foldl (taskCloseFd vfs t) s) :=
    taskCloseFds_by hfile href _
  have hsame := taskCloseFds_filesOnly vfs t s (List.finRange maxOpenFiles)
  generalize (List.finRange maxOpenFiles).foldl (taskCloseFd vfs t) s = s₁ at *
  obtain ⟨hbody₂, -, hcases⟩ := taskDropContext_cases hcontext
  have hdropped : ByTask P t s₁ s₂ := by
    rcases hcases with ⟨-, rfl⟩ | ⟨hown, vmm, rfl⟩
    · exact .of_eq rfl rfl rfl rfl
    · refine .drop (.of_eq rfl rfl rfl rfl) ?_
      rw [hsame.body, hsame.kernel] at hown
      rw [hsame.body]
      exact hctx (not_or.mp hown).1 (not_or.mp hown).2
  refine (hclosed.trans hdropped).trans (taskFinish_by ?_ ?_ htask)
  · rw [hbody₂, hsame.body]
    exact hstack
  · rw [hbody₂, hsame.body]
    exact hfpu

end

/-! ## The books of one task -/

/-- The books show what the task `t` owns. -/
def TaskSys.Books (hhdm : Word) (s : TaskSys σ) (t : Word) : Prop :=
  balance t s.log = some (s.owned hhdm t)

section

variable {vfs : Vfs σ} {opens closes : Word → Bool} {s s' : TaskSys (σ × List VfsCallback)}
  {t : Word} {arch : Arch} {hhdm : Word}

theorem taskCloseFd_books (hops : StaticOps vfs opens closes) (h : s.Counted)
    (ht : t ∈ s.liveTasks) (hb : s.Books hhdm t) (fd : Fin maxOpenFiles) :
    (taskCloseFd (recorded vfs) t s fd).Books hhdm t := by
  by_cases hfd : s.files.fds t fd = 0
  · rw [taskCloseFd, if_pos hfd]
    exact hb
  obtain ⟨fs, hunref, -⟩ := fileUnref_recorded s.fs s.files hops hfd
  obtain ⟨hcount, -⟩ := FilesOk.owner_eq h ht hfd (Files.refs_pos_iff.mpr ⟨fd, rfl⟩)
  have hfreed : (s.files.file (s.files.fds t fd)).refCount ≤ 1 ↔
      s.files.refs t (s.files.fds t fd) ≤ 1 := by
    rw [hcount]
    exact_mod_cast Iff.rfl
  have hslot : s.files.fds t fd = s.files.fds t fd := rfl
  have howned := Files.owned_setFd_clear hslot hfd
  rw [TaskSys.Books, TaskSys.owned, howned, ← add_assoc, ← add_assoc] at hb
  have hsame := taskCloseFd_filesOnly (recorded vfs) t s fd
  rw [TaskSys.Books, TaskSys.owned, hsame.body, hsame.kernel,
    Files.owned_congr (congrFun (taskCloseFd_fds (recorded vfs) s t fd) t)]
  -- the reference goes first, then the file with its last reference
  have hlog : (taskCloseFd (recorded vfs) t s fd).log =
      if s.files.refs t (s.files.fds t fd) ≤ 1 then
        .drop t (.file (s.files.fds t fd)) :: .drop t (.ref (s.files.fds t fd)) :: s.log
      else .drop t (.ref (s.files.fds t fd)) :: s.log := by
    rw [taskCloseFd, if_neg hfd]
    simp only [hunref]
    exact (TaskSys.noteUnref_log _ _ _ _).trans (by simp only [decide_eq_true_eq, hfreed])
  rw [hlog]
  split
  · rename_i hlast
    rw [if_pos hlast] at hb
    exact balance_drop (balance_drop hb)
  · rename_i hmore
    rw [if_neg hmore, add_zero] at hb
    exact balance_drop hb

theorem taskCloseFds_books (hops : StaticOps vfs opens closes) (h : s.Counted)
    (ht : t ∈ s.liveTasks) (hb : s.Books hhdm t) (fds : List (Fin maxOpenFiles)) :
    (fds.foldl (taskCloseFd (recorded vfs) t) s).Books hhdm t := by
  induction fds generalizing s with
  | nil => exact hb
  | cons fd fds ih =>
    obtain ⟨⟨lost, hclosed⟩, -⟩ := taskCloseFd_closed hops h ht fd
    exact ih hclosed.counted (by rw [hclosed.tasks]; exact ht)
      (taskCloseFd_books hops h ht hb fd)

/-- A task that was destroyed has given everything back. -/
theorem taskDestroy_balance (hops : StaticOps vfs opens closes) (h : s.Counted)
    (ht : t ∈ s.liveTasks) (hb : s.Books hhdm t)
    (hdestroy : taskDestroy (recorded vfs) arch hhdm s t = some s') :
    balance t s'.log = some 0 := by
  obtain ⟨s₂, hcontext, rfl⟩ := taskDestroy_cases (FilesOk.task_ne_zero h ht) hdestroy
  have hclosed := taskCloseFds_books hops h ht hb (List.finRange maxOpenFiles)
  obtain ⟨-, hempty⟩ := taskCloseFds_closed hops h ht (List.finRange maxOpenFiles)
  generalize (List.finRange maxOpenFiles).foldl (taskCloseFd (recorded vfs) t) s = s₁ at *
  -- no file is left; the rest goes in the reverse order in which it came
  rw [TaskSys.Books, TaskSys.owned, TaskBody.owned,
    Files.owned_of_empty fun fd => hempty fd (List.mem_finRange fd), add_zero] at hclosed
  obtain ⟨hbody₂, hkernel₂, -⟩ := taskDropContext_cases hcontext
  have hb₂ := taskDropContext_balance hclosed hcontext
  rw [← hbody₂] at hb₂
  have hb₃ := taskDropStack_balance hb₂
  rw [← taskDropStack_body hhdm s₂ t] at hb₃
  have hb₄ := archFpuFree_balance hb₃
  rw [← zero_add (Pi.single (Resource.task t) 1)] at hb₄
  exact balance_drop hb₄

end

/-! ## Making -/

section

variable {vfs : Vfs σ} {arch : Arch} {hhdm t : Word} {s s' : TaskSys σ} {P : Resource → Prop}

theorem taskNew_by (htask : P (.task t)) (name : Word) : ByTask P t s (taskNew s t name) := by
  refine .gain ⟨⟨[], rfl, nofun⟩, fun u hu => ?_, fun u hu => ?_, rfl⟩ htask
  · exact congrArg TaskBody.holdings (Function.update_of_ne hu _ _)
  · exact Function.update_of_ne hu _ _

theorem taskNew_books (hzero : balance t s.log = some 0) (name : Word) :
    (taskNew s t name).Books hhdm t := by
  rw [TaskSys.Books, TaskSys.owned, Files.owned_of_empty (taskNew_fds s t name), add_zero,
    taskNew_body, TaskBody.owned_zero rfl rfl rfl, ← zero_add (Pi.single (Resource.task t) 1)]
  exact balance_gain hzero

/-- Nothing that is owned changes. -/
theorem TaskSys.Books.congr (hb : s.Books hhdm t) (hlog : s'.log = s.log)
    (howned : (s'.body t).owned hhdm s.vmmKernelContext t =
      (s.body t).owned hhdm s.vmmKernelContext t)
    (hfds : s'.files.fds t = s.files.fds t) (hkernel : s'.vmmKernelContext = s.vmmKernelContext) :
    s'.Books hhdm t := by
  rw [TaskSys.Books, TaskSys.owned, hlog, hkernel, howned, Files.owned_congr hfds]
  exact hb

end

section

variable {vfs : Vfs σ} {opens closes : Word → Bool} {s s' : TaskSys (σ × List VfsCallback)}
  {t f : Word} {arch : Arch} {hhdm : Word} {P : Resource → Prop}

/-- `task_open_std_fds` in the books. -/
theorem taskOpenStdFds_cases {res : Int} (hops : StaticOps vfs opens closes)
    (hopen : taskOpenStdFds (recorded vfs) s t = (res, s')) :
    FilesOnly s s' ∧
      ((res ≠ 0 ∧ s'.files.fds = s.files.fds ∧
          (s'.log = s.log ∨ ∃ f, s'.log = .drop t (.file f) :: .gain t (.file f) :: s.log)) ∨
        (res = 0 ∧ ∃ f ≠ 0,
          s'.files.fds = (((s.files.setFd t 0 f).setFd t 1 f).setFd t 2 f).fds ∧
          s'.log = .gain t (.ref f) :: .gain t (.ref f) :: .gain t (.ref f) ::
            .gain t (.file f) :: s.log)) := by
  rcases taskOpenStdFds_ends (t := t) (s := s) hops with
    hnone | ⟨node, f, opened, s₁, -, hnode, ⟨rfl, hcall⟩ | ⟨rfl, hf, s₂, hcall, hshare⟩⟩
  · cases hopen.symm.trans hnone
    exact ⟨⟨rfl, rfl, rfl, rfl⟩, Or.inl ⟨by decide, rfl, Or.inl rfl⟩⟩
  · cases hopen.symm.trans hcall
    refine ⟨hnode.only, Or.inl ⟨by decide, hnode.fds, ?_⟩⟩
    rcases hnode.ends with ⟨-, -, -, -, -, -, hlog | hlog⟩ | ⟨hzero, hf, -⟩
    · exact Or.inl hlog
    · exact Or.inr ⟨_, hlog⟩
    · exact absurd hzero.symm hf
  · cases hopen.symm.trans hcall
    obtain ⟨-, -, -, -, hlog⟩ := hnode.gained hf
    refine ⟨hnode.only.trans hshare.only, Or.inr ⟨rfl, opened, hf, ?_, by rw [hshare.log, hlog]⟩⟩
    rw [hshare.fds]
    simp only [Files.setFd, hnode.fds]

/-- An entry that is taken back at once. -/
theorem TaskSys.Books.refused (hb : s.Books hhdm t) (f : Word)
    (hlog : s'.log = .drop t (.file f) :: .gain t (.file f) :: s.log) (hbody : s'.body = s.body)
    (hfds : s'.files.fds = s.files.fds) (hkernel : s'.vmmKernelContext = s.vmmKernelContext) :
    s'.Books hhdm t := by
  rw [TaskSys.Books, TaskSys.owned, hlog, hbody, hkernel, Files.owned_congr (congrFun hfds t)]
  exact balance_drop (balance_gain hb)

theorem taskOpenStdFds_books {res : Int} (hops : StaticOps vfs opens closes)
    (hempty : ∀ fd, s.files.fds t fd = 0) (hb : s.Books hhdm t)
    (hopen : taskOpenStdFds (recorded vfs) s t = (res, s')) : s'.Books hhdm t := by
  obtain ⟨⟨hbody, -, -, hkernel⟩, hcases⟩ := taskOpenStdFds_cases hops hopen
  rcases hcases with ⟨-, hfds, hlog | ⟨f, hlog⟩⟩ | ⟨-, f, hf, hfds, hlog⟩
  · exact hb.congr hlog (by rw [hbody]) (congrFun hfds t) hkernel
  · exact hb.refused f hlog hbody hfds hkernel
  -- the first slot comes with the file
  have hrefs : s.files.refs t f = 0 := Nat.eq_zero_of_not_pos fun hpos => by
    obtain ⟨fd, hfd⟩ := Files.refs_pos_iff.mp hpos
    exact hf (hfd.symm.trans (hempty fd))
  have howned₀ := Files.owned_setFd_fill (hempty 0) hf
  rw [if_pos hrefs] at howned₀
  -- the two others with references only
  have hslot : ∀ fd ≠ 0, (s.files.setFd t 0 f).fds t fd = 0 := fun fd hfd => by
    rw [Files.fds_setFd_slot hfd, hempty]
  have hpos₁ : (s.files.setFd t 0 f).refs t f ≠ 0 := Nat.ne_of_gt
    (Files.refs_pos_iff.mpr ⟨0, Files.fds_setFd_self⟩)
  have howned₁ := Files.owned_setFd_fill (hslot 1 (by decide)) hf
  rw [if_neg hpos₁, add_zero] at howned₁
  have hpos₂ : ((s.files.setFd t 0 f).setFd t 1 f).refs t f ≠ 0 := Nat.ne_of_gt
    (Files.refs_pos_iff.mpr ⟨1, Files.fds_setFd_self⟩)
  have hfree₂ : ((s.files.setFd t 0 f).setFd t 1 f).fds t 2 = 0 := by
    rw [Files.fds_setFd_slot (by decide), hslot 2 (by decide)]
  have howned₂ := Files.owned_setFd_fill hfree₂ hf
  rw [if_neg hpos₂, add_zero] at howned₂
  rw [TaskSys.Books, TaskSys.owned, hlog, hbody, hkernel, Files.owned_congr (congrFun hfds t),
    howned₂, howned₁, howned₀]
  simp only [← add_assoc]
  exact balance_gain (balance_gain (balance_gain (balance_gain hb)))

end

/-- Which resources the making of the task `t` is about. -/
structure MakingScope (P : Resource → Prop) (s : TaskSys σ) (t top ctx : Word) : Prop where
  task : P (.task t)
  fpu : ∀ p, P (.fpu p)
  stack : top = 0 → ∀ p, P (.stack p)
  given : ctx ≠ 0 → ctx ≠ s.vmmKernelContext → P (.context ctx)
  made : ctx = 0 → ∀ a ∈ s.answers, a ≠ 0 → P (.context a)
  file : ∀ f, P (.file f)
  ref : ∀ f, P (.ref f)

/-- The task `t` is being made since `s`: its books are right, and what it owns is in scope. -/
structure Making (P : Resource → Prop) (hhdm t : Word) (s s₁ : TaskSys σ) : Prop where
  byTask : ByTask P t s s₁
  books : s₁.Books hhdm t
  stack : (s₁.body t).kernelStackBase ≠ 0 →
    P (.stack (pmmVirtToPhys hhdm (s₁.body t).kernelStackBase))
  context : (s₁.body t).vmmContext ≠ 0 → (s₁.body t).vmmContext ≠ s₁.vmmKernelContext →
    P (.context (s₁.body t).vmmContext)

section

variable {arch : Arch} {hhdm t name top ctx : Word} {s s₁ s₂ : TaskSys σ} {P : Resource → Prop}

theorem taskNew_making (htask : P (.task t)) (hzero : balance t s.log = some 0) :
    Making P hhdm t s (taskNew s t name) where
  byTask := taskNew_by htask name
  books := taskNew_books hzero name
  stack h := absurd (congrArg TaskBody.kernelStackBase (taskNew_body s t name)) h
  context h := absurd (congrArg TaskBody.vmmContext (taskNew_body s t name)) h

/-- Something is entered and noted in the struct. -/
theorem Making.gain {r : Resource} {b : TaskBody} (h : Making P hhdm t s s₁) (hr : P r)
    (hlog : s₂.log = .gain t r :: s₁.log) (hbody : s₂.body = Function.update s₁.body t b)
    (hfds : s₂.files.fds = s₁.files.fds) (hkernel : s₂.vmmKernelContext = s₁.vmmKernelContext)
    (howned : b.owned hhdm s₁.vmmKernelContext t =
      (s₁.body t).owned hhdm s₁.vmmKernelContext t + Pi.single r 1)
    (hstack : b.kernelStackBase ≠ 0 → P (.stack (pmmVirtToPhys hhdm b.kernelStackBase)))
    (hcontext : b.vmmContext ≠ 0 → b.vmmContext ≠ s₁.vmmKernelContext →
      P (.context b.vmmContext)) : Making P hhdm t s s₂ := by
  have hself : s₂.body t = b := by rw [hbody, Function.update_self]
  refine ⟨h.byTask.trans ⟨⟨[.gain t r], hlog, fun e he => ?_⟩, fun u hu => ?_, fun u _ => ?_,
    hkernel⟩, ?_, by rwa [hself], by rwa [hself, hkernel]⟩
  · obtain rfl := List.mem_singleton.mp he
    exact ⟨rfl, hr⟩
  · rw [hbody, Function.update_of_ne hu]
  · rw [hfds]
  · rw [TaskSys.Books, TaskSys.owned, hlog, hself, hkernel, howned,
      Files.owned_congr (congrFun hfds t), add_right_comm]
    exact balance_gain h.books

/-- Nothing is entered, and what the struct says about what is owned stays. -/
theorem Making.quiet (h : Making P hhdm t s s₁) (hlog : s₂.log = s₁.log)
    (hbody : ∀ u, (s₂.body u).holdings = (s₁.body u).holdings)
    (hfds : s₂.files.fds = s₁.files.fds) (hkernel : s₂.vmmKernelContext = s₁.vmmKernelContext) :
    Making P hhdm t s s₂ where
  byTask := h.byTask.trans ⟨⟨[], hlog, nofun⟩, fun u _ => hbody u, fun u _ => by rw [hfds], hkernel⟩
  books := h.books.congr hlog (TaskBody.owned_congr (hbody t)) (congrFun hfds t) hkernel
  stack := by
    rw [(Prod.mk.inj (hbody t)).1]
    exact h.stack
  context := by
    rw [(Prod.mk.inj (Prod.mk.inj (hbody t)).2).2, hkernel]
    exact h.context

/-- The state after `arch_fpu_init`. -/
theorem Making.fpu (h : Making P hhdm t s s₁) (hfpu : ∀ p, P (.fpu p))
    (hnone : (s₁.body t).fpuState = 0) {res : Int} (hinit : archFpuInit s₁ t = (res, s₂)) :
    Making P hhdm t s s₂ ∧ (s₂.body t).kernelStackBase = (s₁.body t).kernelStackBase ∧
      (s₂.body t).vmmContext = (s₁.body t).vmmContext ∧ s₂.vmm = s₁.vmm := by
  obtain ⟨hvmm, -, ⟨rfl, -⟩ | ⟨hsome, rfl⟩⟩ := archFpuInit_spec hinit
  · exact ⟨h.quiet rfl (fun _ => rfl) rfl rfl, rfl, rfl, rfl⟩
  · have hbody : (Function.update s₁.body t
        { s₁.body t with fpuState := s₁.answers.headD 0 }) t =
        { s₁.body t with fpuState := s₁.answers.headD 0 } := Function.update_self _ _ _
    have hbase := congrArg TaskBody.kernelStackBase hbody
    have hctx := congrArg TaskBody.vmmContext hbody
    exact ⟨h.gain (hfpu _) rfl rfl rfl rfl (TaskBody.owned_setFpu hnone hsome) h.stack h.context,
      hbase, hctx, hvmm⟩

/-- The state after the part for the stack. -/
theorem Making.takeStack (h : Making P hhdm t s s₁) (hstack : top = 0 → ∀ p, P (.stack p))
    (hnone : (s₁.body t).kernelStackBase = 0) {ok : Bool}
    (htake : taskTakeStack hhdm s₁ t top = some (ok, s₂)) :
    Making P hhdm t s s₂ ∧ (s₂.body t).vmmContext = (s₁.body t).vmmContext ∧
      ((top ≠ 0 ∧ ok = true ∧ s₂.vmm = s₁.vmm ∧ (s₂.body t).kernelStackBase = 0) ∨
        (top = 0 ∧ ((s₂.body t).kernelStackBase = 0 ↔ ok = false) ∧
          KstackAllocated hhdm s₁.vmm s₂.vmm (s₂.body t).kernelStackBase)) := by
  rcases taskTakeStack_spec htake with
    ⟨htop, rfl, rfl⟩ | ⟨htop, base, vmm, halloc, ⟨rfl, rfl, rfl⟩ | ⟨hbase, rfl, rfl⟩⟩
  · -- a stack that was handed over is not owned
    have hbody : (Function.update s₁.body t { s₁.body t with kernelStackTop := top }) t =
        { s₁.body t with kernelStackTop := top } := Function.update_self _ _ _
    have hbase := congrArg TaskBody.kernelStackBase hbody
    have hctx := congrArg TaskBody.vmmContext hbody
    refine ⟨h.quiet rfl (fun u => ?_) rfl rfl, hctx, Or.inl ⟨htop, rfl, rfl, hbase.trans hnone⟩⟩
    by_cases hu : u = t
    · subst hu
      have hsame := congrArg TaskBody.holdings hbody
      exact hsame
    · exact congrArg TaskBody.holdings (Function.update_of_ne hu _ _)
  · refine ⟨h.quiet rfl (fun _ => rfl) rfl rfl, rfl,
      Or.inr ⟨htop, ⟨fun _ => rfl, fun _ => hnone⟩, ?_⟩⟩
    simp only [hnone]
    exact halloc
  · have hbody : (Function.update s₁.body t
        { s₁.body t with kernelStackBase := base, kernelStackTop := kstackGetTop base }) t =
        { s₁.body t with kernelStackBase := base, kernelStackTop := kstackGetTop base } :=
      Function.update_self _ _ _
    have hbase' := congrArg TaskBody.kernelStackBase hbody
    have hctx := congrArg TaskBody.vmmContext hbody
    refine ⟨h.gain (hstack htop _) rfl rfl rfl rfl (TaskBody.owned_setStack hnone hbase _)
      (fun _ => hstack htop _) h.context, hctx,
      Or.inr ⟨htop, ⟨fun hzero => absurd (hbase'.symm.trans hzero) hbase, nofun⟩, ?_⟩⟩
    exact hbase' ▸ halloc

/-- The state after the part for the address space. -/
theorem Making.takeContext (h : Making P hhdm t s s₁)
    (hgiven : ctx ≠ 0 → ctx ≠ s₁.vmmKernelContext → P (.context ctx))
    (hmade : ctx = 0 → s₁.answers.headD 0 ≠ 0 → P (.context (s₁.answers.headD 0)))
    (hfresh : s₁.answers.headD 0 ≠ 0 → s₁.answers.headD 0 ≠ s₁.vmmKernelContext)
    (hnone : (s₁.body t).vmmContext = 0) {ok : Bool}
    (htake : taskTakeContext arch hhdm s₁ t ctx = some (ok, s₂)) :
    Making P hhdm t s s₂ ∧ (s₂.body t).kernelStackBase = (s₁.body t).kernelStackBase ∧
      (ctx ≠ 0 → ok = true ∧ (s₂.body t).vmmContext = ctx ∧ s₂.vmm = s₁.vmm) := by
  rcases taskTakeContext_spec htake with
    ⟨hctx, rfl, rfl⟩ | ⟨hctx, made, vmm, hcreate, ⟨rfl, rfl, rfl⟩ | ⟨c, rfl, hptr, rfl, rfl⟩⟩
  · have hbody : (Function.update s₁.body t { s₁.body t with vmmContext := ctx }) t =
        { s₁.body t with vmmContext := ctx } := Function.update_self _ _ _
    have hbase := congrArg TaskBody.kernelStackBase hbody
    have hself := congrArg TaskBody.vmmContext hbody
    have howned := TaskBody.owned_setContext hhdm s₁.vmmKernelContext t hnone ctx
    by_cases hkernel : ctx = s₁.vmmKernelContext
    · -- the kernel's context is not owned
      rw [if_pos (Or.inr hkernel), add_zero] at howned
      rw [if_pos hkernel]
      refine ⟨⟨h.byTask.setBody _, ?_, fun hpos => ?_, fun _ hne => ?_⟩, hbase,
        fun _ => ⟨rfl, hself, rfl⟩⟩
      · exact h.books.congr rfl ((congrArg (TaskBody.owned hhdm _ t) hbody).trans howned) rfl rfl
      · have hstack : ∀ base, base = (s₁.body t).kernelStackBase → base ≠ 0 →
            P (.stack (pmmVirtToPhys hhdm base)) := fun _ heq => heq ▸ h.stack
        exact hstack _ hbase hpos
      · exact absurd (hself.trans hkernel) hne
    · rw [if_neg (not_or.mpr ⟨hctx, hkernel⟩)] at howned
      rw [if_neg hkernel]
      exact ⟨h.gain (hgiven hctx hkernel) rfl rfl rfl rfl howned h.stack hgiven, hbase,
        fun _ => ⟨rfl, hself, rfl⟩⟩
  · exact ⟨h.quiet rfl (fun _ => rfl) rfl rfl, rfl, fun hne => absurd hctx hne⟩
  · have hbody : (Function.update s₁.body t { s₁.body t with vmmContext := s₁.answers.headD 0 }) t =
        { s₁.body t with vmmContext := s₁.answers.headD 0 } := Function.update_self _ _ _
    have howned := TaskBody.owned_setContext hhdm s₁.vmmKernelContext t hnone (s₁.answers.headD 0)
    rw [if_neg (not_or.mpr ⟨hptr, hfresh hptr⟩)] at howned
    have hbase := congrArg TaskBody.kernelStackBase hbody
    exact ⟨h.gain (hmade hctx hptr) rfl rfl rfl rfl howned h.stack fun hne _ => hmade hctx hne,
      hbase, fun hne => absurd hctx hne⟩

end

section

variable {vfs : Vfs σ} {opens closes : Word → Bool} {s s' : TaskSys (σ × List VfsCallback)}
  {t : Word} {arch : Arch} {hhdm name top ctx : Word} {P : Resource → Prop} {done : Bool}

/-- The state after `task_open_std_fds`. -/
theorem Making.openStdFds {s₁ : TaskSys (σ × List VfsCallback)} {res : Int}
    (h : Making P hhdm t s s₁) (hops : StaticOps vfs opens closes) (hfile : ∀ f, P (.file f))
    (href : ∀ f, P (.ref f)) (hempty : ∀ fd, s₁.files.fds t fd = 0)
    (hopen : taskOpenStdFds (recorded vfs) s₁ t = (res, s')) :
    Making P hhdm t s s' ∧ (s'.body t) = s₁.body t ∧ s'.vmm = s₁.vmm := by
  have hbooks := taskOpenStdFds_books hops hempty h.books hopen
  obtain ⟨⟨hbody, hvmm, -, hkernel⟩, hcases⟩ := taskOpenStdFds_cases hops hopen
  refine ⟨⟨h.byTask.trans ⟨?_, fun u _ => by rw [hbody], fun u hu => ?_, hkernel⟩, hbooks, ?_, ?_⟩,
    by rw [hbody], hvmm⟩
  · rcases hcases with ⟨-, -, hlog | ⟨f, hlog⟩⟩ | ⟨-, f, -, -, hlog⟩
    · exact ⟨[], hlog, nofun⟩
    · refine ⟨[_, _], hlog, fun e he => ?_⟩
      simp only [List.mem_cons, List.not_mem_nil, or_false] at he
      rcases he with rfl | rfl
      · exact ⟨rfl, hfile f⟩
      · exact ⟨rfl, hfile f⟩
    · refine ⟨[_, _, _, _], hlog, fun e he => ?_⟩
      simp only [List.mem_cons, List.not_mem_nil, or_false] at he
      rcases he with rfl | rfl | rfl | rfl
      · exact ⟨rfl, href f⟩
      · exact ⟨rfl, href f⟩
      · exact ⟨rfl, href f⟩
      · exact ⟨rfl, hfile f⟩
  · rcases hcases with ⟨-, hfds, -⟩ | ⟨-, f, -, hfds, -⟩
    · rw [hfds]
    · funext fd
      rw [hfds, Files.fds_setFd_task hu, Files.fds_setFd_task hu, Files.fds_setFd_task hu]
  · rw [hbody]
    exact h.stack
  · rw [hbody, hkernel]
    exact h.context

/-- The stack of a task that was made up to some point: none was allocated, because one was handed
or because something else failed before, or `kstack_alloc` was called. -/
def StackPlaced (hhdm top : Word) (v v' : Vmm) (base : Word) (done : Bool) : Prop :=
  (v' = v ∧ base = 0 ∧ (done = true → top ≠ 0)) ∨
    (top = 0 ∧ (done = true → base ≠ 0) ∧ KstackAllocated hhdm v v' base)

/-- `task_inner_create` went wrong before the address space: no memory for the FPU state, or none for
the stack. -/
structure EarlyExit (hhdm top : Word) (s s' : TaskSys σ) (t : Word) : Prop where
  context : (s'.body t).vmmContext = 0
  base : (s'.body t).kernelStackBase = 0
  reason : (s.answers.headD 0 = 0 ∧ s'.vmm = s.vmm) ∨
    (s.answers.headD 0 ≠ 0 ∧ top = 0 ∧ KstackAllocated hhdm s.vmm s'.vmm 0)

/-- `task_inner_create` came to the files, with the address space `ctx` that it was given. -/
structure LateExit (hhdm top ctx : Word) (s s' : TaskSys σ) (t : Word) : Prop where
  context : (s'.body t).vmmContext = ctx
  fpu : s.answers.headD 0 ≠ 0
  stack : StackPlaced hhdm top s.vmm s'.vmm (s'.body t).kernelStackBase true

theorem StackPlaced.weaken {v v' : Vmm} {base : Word} (h : StackPlaced hhdm top v v' base true)
    (done : Bool) : StackPlaced hhdm top v v' base done :=
  h.imp (fun h => ⟨h.1, h.2.1, fun _ => h.2.2 rfl⟩) fun h => ⟨h.1, fun _ => h.2.1 rfl, h.2.2⟩

theorem EarlyExit.stackPlaced (h : EarlyExit hhdm top s s' t) :
    StackPlaced hhdm top s.vmm s'.vmm (s'.body t).kernelStackBase false := by
  rw [h.base]
  rcases h.reason with ⟨-, hvmm⟩ | ⟨-, htop, halloc⟩
  · exact Or.inl ⟨hvmm, rfl, nofun⟩
  · exact Or.inr ⟨htop, nofun, halloc⟩

/-- The end of `task_inner_create` before a failed task is destroyed. -/
theorem TaskBuild.making
    (hbuild : TaskBuild (recorded vfs) arch hhdm s t name top ctx done s')
    (hops : StaticOps vfs opens closes) (hzero : balance t s.log = some 0)
    (hscope : MakingScope P s t top ctx)
    (hfresh : ∀ a ∈ s.answers, a ≠ 0 → a ≠ s.vmmKernelContext) :
    Making P hhdm t s s' ∧ (ctx ≠ 0 →
      (EarlyExit hhdm top s s' t ∧ done = false ∧
          ∀ ctx', TaskBuild (recorded vfs) arch hhdm s t name top ctx' false s') ∨
        LateExit hhdm top ctx s s' t) := by
  have h₀ : Making P hhdm t s (taskNew s t name) := taskNew_making hscope.task hzero
  have hbody := taskNew_body s t name
  -- the parts in turn
  have hfpu : ∀ {res : Int} {s₁ : TaskSys (σ × List VfsCallback)},
      archFpuInit (taskNew s t name) t = (res, s₁) → Making P hhdm t s s₁ ∧
        (s₁.body t).kernelStackBase = 0 ∧ (s₁.body t).vmmContext = 0 ∧ s₁.vmm = s.vmm ∧
        (res = 0 ↔ s.answers.headD 0 ≠ 0) := by
    intro res s₁ hinit
    obtain ⟨h₁, hbase, hctx, hvmm⟩ := h₀.fpu hscope.fpu (by rw [hbody]; rfl) hinit
    exact ⟨h₁, hbase.trans (by rw [hbody]; rfl), hctx.trans (by rw [hbody]; rfl), hvmm,
      (archFpuInit_spec hinit).2.1⟩
  have hstack : ∀ {ok : Bool} {s₁ s₂ : TaskSys (σ × List VfsCallback)},
      archFpuInit (taskNew s t name) t = (0, s₁) →
      taskTakeStack hhdm s₁ t top = some (ok, s₂) → Making P hhdm t s s₂ ∧
        (s₂.body t).vmmContext = 0 ∧ SameFiles (taskNew s t name) s₂ ∧
        (ok = false → EarlyExit hhdm top s s₂ t) ∧
        (ok = true → StackPlaced hhdm top s.vmm s₂.vmm (s₂.body t).kernelStackBase true) := by
    intro ok s₁ s₂ hinit htake
    obtain ⟨h₁, hbase, hctx, hvmm, hfpu⟩ := hfpu hinit
    obtain ⟨h₂, hctx', hplaced⟩ := h₁.takeStack hscope.stack hbase htake
    refine ⟨h₂, hctx'.trans hctx, (archFpuInit_same hinit).trans (taskTakeStack_same htake), ?_⟩
    rw [hvmm] at hplaced
    rcases hplaced with ⟨htop, rfl, hvmm', hnone⟩ | ⟨htop, hok, halloc⟩
    · exact ⟨nofun, fun _ => Or.inl ⟨hvmm', hnone, fun _ => htop⟩⟩
    · refine ⟨fun hfalse => ?_, fun htrue => Or.inr ⟨htop, fun _ hnone => ?_, halloc⟩⟩
      · have hnone := hok.mpr hfalse
        rw [hnone] at halloc
        exact ⟨hctx'.trans hctx, hnone, Or.inr ⟨hfpu.mp rfl, htop, halloc⟩⟩
      · exact absurd ((hok.mp hnone).symm.trans htrue) (by decide)
  have hcontext : ∀ {ok : Bool} {s₁ s₂ s₃ : TaskSys (σ × List VfsCallback)},
      archFpuInit (taskNew s t name) t = (0, s₁) →
      taskTakeStack hhdm s₁ t top = some (true, s₂) →
      taskTakeContext arch hhdm s₂ t ctx = some (ok, s₃) → Making P hhdm t s s₃ ∧
        (∀ fd, s₃.files.fds t fd = 0) ∧
        (ctx ≠ 0 → ok = true ∧ LateExit hhdm top ctx s s₃ t) := by
    intro ok s₁ s₂ s₃ hinit htake hgive
    obtain ⟨h₂, hctx, hsame, -, hplaced⟩ := hstack hinit htake
    -- the next answer of the allocator is one of those that were given
    have hhead : s₂.answers.headD 0 ≠ 0 → s₂.answers.headD 0 ∈ s.answers := fun hne =>
      hsame.answers.subset (mem_of_headD rfl hne)
    have hkernel : s₂.vmmKernelContext = s.vmmKernelContext := h₂.byTask.kernel
    obtain ⟨h₃, hbase, hgiven⟩ := h₂.takeContext (by rw [hkernel]; exact hscope.given)
      (fun hnone hne => hscope.made hnone _ (hhead hne) hne)
      (fun hne => by rw [hkernel]; exact hfresh _ (hhead hne) hne) hctx hgive
    refine ⟨h₃, fun fd => ?_, fun hne => ?_⟩
    · rw [(hsame.trans (taskTakeContext_same hgive)).files]
      exact taskNew_fds s t name fd
    · obtain ⟨hok, hctx', hvmm⟩ := hgiven hne
      have hfpu := (hfpu hinit).2.2.2.2.mp rfl
      exact ⟨hok, hctx', hfpu, by rw [hvmm, hbase]; exact hplaced rfl⟩
  cases hbuild with
  | noFpu hinit hres =>
    obtain ⟨h₁, hbase, hctx, hvmm, hfpu⟩ := hfpu hinit
    refine ⟨h₁, fun _ => Or.inl ⟨⟨hctx, hbase, Or.inl ⟨?_, hvmm⟩⟩, rfl, fun _ => .noFpu hinit hres⟩⟩
    exact not_not.mp fun hne => hres (hfpu.mpr hne)
  | noStack hinit htake =>
    obtain ⟨h₂, -, -, hearly, -⟩ := hstack hinit htake
    exact ⟨h₂, fun _ => Or.inl ⟨hearly rfl, rfl, fun _ => .noStack hinit htake⟩⟩
  | noContext hinit htake hgive =>
    obtain ⟨h₃, -, hgiven⟩ := hcontext hinit htake hgive
    exact ⟨h₃, fun hne => absurd (hgiven hne).1 (by decide)⟩
  | noFiles hinit htake hgive hopen | built hinit htake hgive hopen =>
    obtain ⟨h₃, hnone, hgiven⟩ := hcontext hinit htake hgive
    obtain ⟨h₄, hbody₄, hvmm₄⟩ := h₃.openStdFds hops hscope.file hscope.ref hnone hopen
    refine ⟨h₄, fun hne => Or.inr ?_⟩
    obtain ⟨-, hctx, hfpu, hplaced⟩ := hgiven hne
    exact ⟨by rw [hbody₄, hctx], hfpu, by rw [hbody₄, hvmm₄]; exact hplaced⟩

end

end Pros
