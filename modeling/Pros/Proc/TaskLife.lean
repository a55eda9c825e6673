import Pros.Proc.TaskLedger

/-!
# Lives of tasks

In every state of every run the books show what each task owns, and nothing for a task that is gone.
So everything that was taken for a task is given back once when it is destroyed, or when making it
fails. A task on the kernel's context never gives a context back, and one on a stack that it was
handed no stack.
-/

namespace Pros

open Ledger (balance)

variable {σ : Type}

/-- The books show what the tasks own, and nothing for the others. -/
structure LedgerOk (hhdm : Word) (s : TaskSys σ) : Prop where
  live : ∀ t ∈ s.liveTasks, s.Books hhdm t
  dead : ∀ t ∉ s.liveTasks, balance t s.log = some 0

/-- A call for the task `t` that leaves its books right. -/
theorem LedgerOk.byTask {hhdm t : Word} {P : Resource → Prop} {s s' : TaskSys σ}
    (h : LedgerOk hhdm s) (hby : ByTask P t s s')
    (hothers : ∀ u ≠ t, (u ∈ s'.liveTasks ↔ u ∈ s.liveTasks))
    (hlive : t ∈ s'.liveTasks → s'.Books hhdm t)
    (hdead : t ∉ s'.liveTasks → balance t s'.log = some 0) : LedgerOk hhdm s' := by
  refine ⟨fun u hu => ?_, fun u hu => ?_⟩
  · by_cases hut : u = t
    · subst hut
      exact hlive hu
    · rw [TaskSys.Books, hby.balance_eq hut, hby.owned_eq hut]
      exact h.live u ((hothers u hut).mp hu)
  · by_cases hut : u = t
    · subst hut
      exact hdead hu
    · rw [hby.balance_eq hut]
      exact h.dead u fun hmem => hu ((hothers u hut).mpr hmem)

/-- The resources that opening and closing files is about. -/
def Resource.IsFile (r : Resource) : Prop := ∃ f, r = .file f ∨ r = .ref f

section

variable {vfs : Vfs σ} {opens closes : Word → Bool} {s s' : TaskSys (σ × List VfsCallback)}
  {t : Word} {arch : Arch} {hhdm name top ctx : Word} {P : Resource → Prop}

/-! ## Calls -/

theorem ByTask.mono {Q : Resource → Prop} (h : ByTask P t s s') (himp : ∀ r, P r → Q r) :
    ByTask Q t s s' where
  events := by
    obtain ⟨events, hlog, hevents⟩ := h.events
    exact ⟨events, hlog, fun e he => ⟨(hevents e he).1, himp _ (hevents e he).2⟩⟩
  body := h.body
  fds := h.fds
  kernel := h.kernel

/-- The machine after `task_destroy` gave the stack `base` back. -/
def stackFreed (hhdm : Word) (v : Vmm) (base : Word) : Vmm :=
  if base = 0 then v
  else { v with pmm := pmmFree hhdm v.pmm (pmmVirtToPhys hhdm base) kstackPages }

/-- `task_destroy` of a task without an address space of its own returns. -/
theorem taskDestroy_returns
    (hctx : (s.body t).vmmContext = 0 ∨ (s.body t).vmmContext = s.vmmKernelContext) :
    ∃ s', taskDestroy (recorded vfs) arch hhdm s t = some s' := by
  by_cases ht : t = 0
  · exact ⟨s, if_pos ht⟩
  obtain ⟨hbody, -, -, hkernel⟩ :=
    taskCloseFds_filesOnly (recorded vfs) t s (List.finRange maxOpenFiles)
  rw [taskDestroy, if_neg ht]
  generalize (List.finRange maxOpenFiles).foldl (taskCloseFd (recorded vfs) t) s = s₁ at *
  rw [← hbody, ← hkernel] at hctx
  have hkeeps : taskDropContext arch hhdm s₁ t = some s₁ :=
    if_neg fun hown => hctx.elim hown.1 hown.2
  simp only [hkeeps]
  exact ⟨_, rfl⟩

/-- `task_destroy` of a task without an address space of its own gives its stack back and does nothing
else to the machine. -/
theorem taskDestroy_vmm (ht : t ≠ 0)
    (hctx : (s.body t).vmmContext = 0 ∨ (s.body t).vmmContext = s.vmmKernelContext)
    (h : taskDestroy (recorded vfs) arch hhdm s t = some s') :
    s'.vmm = stackFreed hhdm s.vmm (s.body t).kernelStackBase := by
  obtain ⟨s₂, hcontext, rfl⟩ := taskDestroy_cases ht h
  obtain ⟨hbody, hvmm, -, hkernel⟩ :=
    taskCloseFds_filesOnly (recorded vfs) t s (List.finRange maxOpenFiles)
  generalize (List.finRange maxOpenFiles).foldl (taskCloseFd (recorded vfs) t) s = s₁ at *
  rw [← hbody, ← hkernel] at hctx
  obtain ⟨-, -, ⟨-, rfl⟩ | ⟨hown, -⟩⟩ := taskDropContext_cases hcontext
  swap
  · exact absurd hctx hown
  have hfpu : (archFpuFree (taskDropStack hhdm s₂ t) t).vmm = (taskDropStack hhdm s₂ t).vmm := by
    simp only [archFpuFree]
    split <;> rfl
  refine hfpu.trans ?_
  rw [← hvmm, ← hbody, stackFreed]
  simp only [taskDropStack, kstackFree]
  split <;> rfl

/-- `task_inner_create`: everything is for the new task, which gives it back when it fails. -/
theorem taskInnerCreate_ledger {r : Word} (hops : StaticOps vfs opens closes) (h : s.Counted)
    (hl : LedgerOk hhdm s) (hfresh : FreshAnswers s) (hscope : ∀ t, MakingScope P s t top ctx)
    (hcreate : taskInnerCreate (recorded vfs) arch hhdm s name top ctx = some (r, s')) :
    s'.Counted ∧ ∃ t ∉ s.liveTasks, ByTask P t s s' ∧ LedgerOk hhdm s' ∧
      ((r = 0 ∧ t ∉ s'.liveTasks ∧ (ctx = s.vmmKernelContext → ctx ≠ 0 → ∃ v base,
          StackPlaced hhdm top s.vmm v base false ∧ s'.vmm = stackFreed hhdm v base)) ∨
        (r = t ∧ r ≠ 0 ∧ t ∈ s'.liveTasks ∧ (ctx ≠ 0 → (s'.body t).vmmContext = ctx ∧
          StackPlaced hhdm top s.vmm s'.vmm (s'.body t).kernelStackBase true))) := by
  obtain ⟨-, hends⟩ := taskInnerCreate_effect hops h hfresh hcreate
  have hcounted : s'.Counted := by
    obtain ⟨-, -, -, _, heffect⟩ | ⟨-, -, -, _, heffect⟩ := hends
    · exact heffect.counted
    · exact heffect.counted
  refine ⟨hcounted, ?_⟩
  rcases taskInnerCreate_cases hcreate with ⟨-, rfl, rfl⟩ | ⟨t, s₁, hhead, ht, hcases⟩
  · -- not even a block for the task
    exact ⟨0, h.task_ne, .of_eq rfl rfl rfl rfl, ⟨hl.live, hl.dead⟩,
      Or.inl ⟨rfl, h.task_ne, fun _ _ => ⟨s.vmm, 0, Or.inl ⟨rfl, rfl, nofun⟩, (if_pos rfl).symm⟩⟩⟩
  have hnew := hfresh.tasks t (mem_of_headD hhead ht)
  have hscope' : MakingScope P { s with answers := s.answers.tail } t top ctx :=
    ⟨(hscope t).task, (hscope t).fpu, (hscope t).stack, (hscope t).given,
      fun hctx a ha => (hscope t).made hctx a (List.mem_of_mem_tail ha), (hscope t).file,
      (hscope t).ref⟩
  have hkernel : ∀ a ∈ s.answers.tail, a ≠ 0 → a ≠ s.vmmKernelContext := fun a ha =>
    hfresh.kernel a (List.mem_of_mem_tail ha)
  have hstart : ByTask P t s { s with answers := s.answers.tail } := .of_eq rfl rfl rfl rfl
  refine ⟨t, hnew, ?_⟩
  rcases hcases with ⟨hbuild, rfl, rfl⟩ | ⟨hbuild, rfl, hdestroy⟩
  · -- the task is there
    obtain ⟨hmade, hplaced⟩ := hbuild.making hops (hl.dead r hnew) hscope' hkernel
    have hby : ByTask P r s s' := hstart.trans hmade.byTask
    obtain ⟨hr, -⟩ | ⟨-, -, htasks, -⟩ := hends
    · exact absurd hr ht
    have hlive : r ∈ s'.liveTasks := by
      rw [htasks]
      exact List.mem_cons_self
    refine ⟨hby, hl.byTask hby (fun u hu => ?_) (fun _ => hmade.books)
      fun hgone => absurd hlive hgone,
      Or.inr ⟨rfl, ht, hlive, fun hne => ?_⟩⟩
    · rw [htasks]
      exact List.mem_cons.trans (or_iff_right hu)
    · obtain ⟨-, hfalse, -⟩ | hlate := hplaced hne
      · cases hfalse
      · exact ⟨hlate.context, hlate.stack⟩
  · -- it was destroyed again
    obtain ⟨hmade, hplaced⟩ := hbuild.making hops (hl.dead t hnew) hscope' hkernel
    obtain ⟨-, htasks, -⟩ | ⟨hr, -⟩ := hends
    swap
    · exact absurd rfl hr
    have h₀ : ({ s with answers := s.answers.tail } : TaskSys (σ × List VfsCallback)).Counted := h
    obtain ⟨htasks₁, -, -, hfailed⟩ := hbuild.effect hops h₀ hnew ht
      fun a ha => hfresh.files a (List.mem_of_mem_tail ha)
    obtain ⟨-, -, refused, heffect⟩ := hfailed rfl
    have hmem₁ : t ∈ s₁.liveTasks := by
      rw [htasks₁]
      exact List.mem_cons_self
    have hby : ByTask P t s s' := (hstart.trans hmade.byTask).trans
      (taskDestroy_by ht (hscope t).file (hscope t).ref hmade.context hmade.stack ((hscope t).fpu _)
        (hscope t).task hdestroy)
    refine ⟨hby, hl.byTask hby (fun u _ => by rw [htasks]) (fun hlive => ?_) fun _ => ?_,
      Or.inl ⟨rfl, by rw [htasks]; exact hnew, fun heq hne => ?_⟩⟩
    · rw [htasks] at hlive
      exact absurd hlive hnew
    · exact taskDestroy_balance hops heffect.counted hmem₁ hmade.books hdestroy
    · obtain ⟨hearly, -⟩ | hlate := hplaced hne
      · exact ⟨s₁.vmm, _, hearly.stackPlaced, taskDestroy_vmm ht (Or.inl hearly.context) hdestroy⟩
      · refine ⟨s₁.vmm, _, hlate.stack.weaken false, taskDestroy_vmm ht (Or.inr ?_) hdestroy⟩
        rw [hmade.byTask.kernel, hlate.context]
        exact heq

/-- `task_destroy` of a task. -/
theorem taskDestroy_ledger (hops : StaticOps vfs opens closes) (h : s.Counted)
    (hl : LedgerOk hhdm s) (ht : t ∈ s.liveTasks) (hby : ByTask P t s s')
    (hdestroy : taskDestroy (recorded vfs) arch hhdm s t = some s') :
    LedgerOk hhdm s' ∧ t ∉ s'.liveTasks := by
  obtain ⟨-, htasks, -⟩ := taskDestroy_effect hops h ht hdestroy
  have hgone : t ∉ s'.liveTasks := by
    rw [htasks]
    exact fun hmem => ((List.Nodup.mem_erase_iff h.tasks_nodup).mp hmem).1 rfl
  refine ⟨hl.byTask hby (fun u hu => ?_) (fun hlive => absurd hlive hgone) fun _ =>
    taskDestroy_balance hops h ht (hl.live t ht) hdestroy, hgone⟩
  rw [htasks]
  exact List.mem_erase_of_ne hu

/-- `sys_openat` by the task `t`. -/
theorem openatBy_ledger {dirfd path flags : Word} {r : Int} (hops : StaticOps vfs opens closes)
    (h : s.Counted) (hl : LedgerOk hhdm s) (ht : t ∈ s.liveTasks) (hfresh : FreshAnswers s)
    (hopen : s.openatBy (recorded vfs) t dirfd path flags = some (r, s')) :
    LedgerOk hhdm s' ∧ ByTask Resource.IsFile t s s' ∧ s'.body = s.body := by
  obtain ⟨htasks, -⟩ := openatBy_effect hops h ht hfresh hopen
  have hb := hl.live t ht
  -- it is enough to have the books of the task itself
  have hdone : ∀ events : List TaskEvent, s'.log = events ++ s.log →
      (∀ e ∈ events, e.owner = t ∧ e.resource.IsFile) → s'.body = s.body →
      s'.vmmKernelContext = s.vmmKernelContext → (∀ u ≠ t, s'.files.fds u = s.files.fds u) →
      s'.Books hhdm t → LedgerOk hhdm s' ∧ ByTask Resource.IsFile t s s' ∧ s'.body = s.body := by
    intro events hlog hevents hbody hkernel hfds hb'
    have hby : ByTask Resource.IsFile t s s' :=
      ⟨⟨events, hlog, hevents⟩, fun u _ => by rw [hbody], hfds, hkernel⟩
    refine ⟨hl.byTask hby (fun u _ => by rw [htasks]) (fun _ => hb') fun hgone => ?_, hby, hbody⟩
    exact absurd (by rw [htasks]; exact ht) hgone
  have hfile : ∀ f, Resource.IsFile (.file f) := fun f => ⟨f, Or.inl rfl⟩
  obtain ⟨touched, ⟨-, rfl⟩ | ⟨-, node, hnode⟩ | ⟨node, fd, f, s₁, hhead, hf, hslot, hnode, -,
    rfl⟩⟩ :=
    openatBy_cases hops (FilesOk.task_ne_zero h ht) hopen
  · exact hdone [] rfl (by simp) rfl rfl (fun _ _ => rfl) (hb.congr rfl rfl rfl rfl)
  · -- no memory, or the driver refuses
    have hothers : ∀ u ≠ t, s'.files.fds u = s.files.fds u := fun u _ => congrFun hnode.fds u
    rcases hnode.ends with ⟨-, -, -, -, -, -, hlog | hlog⟩ | ⟨hzero, hf, -⟩
    · exact hdone [] hlog (by simp) hnode.only.body hnode.only.kernel hothers
        (hb.congr hlog (by rw [hnode.only.body]; rfl) (congrFun hnode.fds t) hnode.only.kernel)
    · refine hdone [_, _] hlog (fun e he => ?_) hnode.only.body hnode.only.kernel hothers
        (hb.refused _ hlog hnode.only.body hnode.fds hnode.only.kernel)
      simp only [List.mem_cons, List.not_mem_nil, or_false] at he
      rcases he with rfl | rfl <;> exact ⟨rfl, hfile _⟩
    · exact absurd hzero.symm hf
  · -- a new file in a free slot
    obtain ⟨-, -, -, -, hlog⟩ := hnode.gained hf
    have hfds : (s₁.setFd t fd f).files.fds = (s.files.setFd t fd f).fds := by
      simp only [TaskSys.setFd, Files.setFd, hnode.fds]
      rfl
    refine hdone [_, _] hlog (fun e he => ?_) hnode.only.body hnode.only.kernel
      (fun u hu => ?_) ?_
    · simp only [List.mem_cons, List.not_mem_nil, or_false] at he
      rcases he with rfl | rfl
      · exact ⟨rfl, f, Or.inr rfl⟩
      · exact ⟨rfl, hfile f⟩
    · funext i
      rw [hfds, Files.fds_setFd_task hu]
    · have howned := Files.owned_setFd_fill (findSlot_spec hslot).1 hf
      rw [if_pos (FilesOk.refs_eq_zero h ht hf (hfresh.files f (mem_of_headD hhead hf)))] at howned
      have hbody : (s₁.setFd t fd f).body = s.body := hnode.only.body
      have hkernel : (s₁.setFd t fd f).vmmKernelContext = s.vmmKernelContext := hnode.only.kernel
      have hlog' : (s₁.setFd t fd f).log = _ := hlog
      rw [TaskSys.Books, TaskSys.owned, Files.owned_congr (congrFun hfds t), howned, ← add_assoc,
        ← add_assoc, hbody, hkernel, hlog']
      exact Ledger.balance_gain (Ledger.balance_gain hb)

/-- `sys_close` by the task `t`. -/
theorem closeBy_ledger {fd : Word} {r : Int} (hops : StaticOps vfs opens closes) (h : s.Counted)
    (hl : LedgerOk hhdm s) (ht : t ∈ s.liveTasks)
    (hclose : s.closeBy (recorded vfs) t fd = (r, s')) :
    LedgerOk hhdm s' ∧ ByTask Resource.IsFile t s s' ∧ s'.body = s.body := by
  have h₀ : (s.runningAs t).Counted := FilesOk.congr h rfl fun _ _ => rfl
  rcases closeBy_cases (recorded vfs) s (FilesOk.task_ne_zero h ht) fd with
    hfail | ⟨i, -, -, hdone⟩
  · cases hclose.symm.trans hfail
    exact ⟨⟨hl.live, hl.dead⟩, .of_eq rfl rfl rfl rfl, rfl⟩
  · cases hclose.symm.trans hdone
    have hstart : ByTask Resource.IsFile t s (s.runningAs t) := .of_eq rfl rfl rfl rfl
    have hby : ByTask Resource.IsFile t s (taskCloseFd (recorded vfs) t (s.runningAs t) i) :=
      hstart.trans (taskCloseFd_by (fun f => ⟨f, Or.inl rfl⟩) (fun f => ⟨f, Or.inr rfl⟩) i)
    obtain ⟨⟨lost, hclosed⟩, -⟩ := taskCloseFd_closed (t := t) hops h₀ ht i
    refine ⟨hl.byTask hby (fun u _ => by rw [hclosed.tasks]; rfl) (fun _ => ?_) fun hgone => ?_,
      hby, (taskCloseFd_filesOnly _ t _ i).body⟩
    · exact taskCloseFd_books hops h₀ ht (hl.live t ht) i
    · exact absurd (by rw [hclosed.tasks]; exact ht) hgone

end

/-! ## Runs -/

section

variable {vfs : Vfs σ} {opens closes : Word → Bool} {s s' s₀ s₁ s₂ s₃ : TaskSys (σ × List VfsCallback)}
  {arch : Arch} {hhdm t r name top : Word}

/-- Every step keeps the books and is for one task, which opens and closes files if it is there
before and after. The kernel's context is not in the books. -/
theorem TaskStep.ledger (hops : StaticOps vfs opens closes) (h : s.Counted) (hl : LedgerOk hhdm s)
    (hstep : TaskStep vfs arch hhdm s s') :
    LedgerOk hhdm s' ∧ ∃ t, ByTask (· ≠ .context s.vmmKernelContext) t s s' ∧
      (t ∈ s.liveTasks → t ∈ s'.liveTasks →
        ByTask Resource.IsFile t s s' ∧ (s'.body t).holdings = (s.body t).holdings) := by
  have hfile : ∀ r : Resource, r.IsFile → r ≠ .context s.vmmKernelContext := by
    rintro r ⟨f, rfl | rfl⟩
    · exact nofun
    · exact nofun
  have hcreate : ∀ {answers : List Word} {name top ctx r : Word}, FreshAnswers { s with answers } →
      taskInnerCreate (recorded vfs) arch hhdm { s with answers } name top ctx = some (r, s') →
      LedgerOk hhdm s' ∧ ∃ t, ByTask (· ≠ .context s.vmmKernelContext) t s s' ∧
      (t ∈ s.liveTasks → t ∈ s'.liveTasks →
        ByTask Resource.IsFile t s s' ∧ (s'.body t).holdings = (s.body t).holdings) := by
    intro answers name top ctx r hfresh hcall
    have h₀ : ({ s with answers } : TaskSys (σ × List VfsCallback)).Counted := h
    have hl₀ : LedgerOk hhdm { s with answers } := ⟨hl.live, hl.dead⟩
    have hstart : ∀ t, ByTask (· ≠ .context s.vmmKernelContext) t s { s with answers } := fun t =>
      .of_eq rfl rfl rfl rfl
    have hscope : ∀ t, MakingScope (· ≠ .context s.vmmKernelContext) { s with answers } t top ctx :=
      fun t => ⟨nofun, fun _ => nofun, fun _ _ => nofun,
        fun _ hne heq => hne (Resource.context.inj heq),
        fun _ a ha hne heq => hfresh.kernel a ha hne (Resource.context.inj heq),
        fun _ => nofun, fun _ => nofun⟩
    obtain ⟨-, t, hnew, hby, hl', -⟩ := taskInnerCreate_ledger hops h₀ hl₀ hfresh hscope hcall
    exact ⟨hl', t, (hstart t).trans hby, fun hmem => absurd hmem hnew⟩
  have hopen : ∀ {answers : List Word} {t dirfd path flags : Word} {r : Int}, t ∈ s.liveTasks →
      FreshAnswers { s with answers } →
      { s with answers }.openatBy (recorded vfs) t dirfd path flags = some (r, s') →
      LedgerOk hhdm s' ∧ ∃ t, ByTask (· ≠ .context s.vmmKernelContext) t s s' ∧
      (t ∈ s.liveTasks → t ∈ s'.liveTasks →
        ByTask Resource.IsFile t s s' ∧ (s'.body t).holdings = (s.body t).holdings) := by
    intro answers t dirfd path flags r ht hfresh hcall
    have h₀ : ({ s with answers } : TaskSys (σ × List VfsCallback)).Counted := h
    have hl₀ : LedgerOk hhdm { s with answers } := ⟨hl.live, hl.dead⟩
    have hstart : ByTask Resource.IsFile t s { s with answers } := .of_eq rfl rfl rfl rfl
    obtain ⟨hl', hby, hbody⟩ := openatBy_ledger hops h₀ hl₀ ht hfresh hcall
    exact ⟨hl', t, (hstart.trans hby).mono hfile, fun _ _ => ⟨hstart.trans hby, by rw [hbody]⟩⟩
  cases hstep with
  | boot hfresh hcall => exact hcreate hfresh hcall
  | create hfresh hcall => exact hcreate hfresh hcall
  | createUser hfresh hcall => exact hcreate hfresh hcall
  | openat ht hfresh hcall => exact hopen ht hfresh hcall
  | openFile ht hfresh hcall => exact hopen ht hfresh hcall
  | @destroy t ht hcall =>
    have hby : ByTask (· ≠ .context s.vmmKernelContext) t s s' :=
      taskDestroy_by (FilesOk.task_ne_zero h ht) (fun _ => nofun) (fun _ => nofun)
        (fun _ hne heq => hne (Resource.context.inj heq)) (fun _ => nofun) nofun nofun hcall
    obtain ⟨hl', hgone⟩ := taskDestroy_ledger hops h hl ht hby hcall
    exact ⟨hl', t, hby, fun _ hmem => absurd hmem hgone⟩
  | @close t fd r ht hcall =>
    obtain ⟨hl', hby, hbody⟩ := closeBy_ledger hops h hl ht hcall
    exact ⟨hl', t, hby.mono hfile, fun _ _ => ⟨hby, by rw [hbody]⟩⟩
  | other htasks hlive hfds hfiles hrecord hbody hkernel hlog =>
    have hby : ByTask (· ≠ .context s.vmmKernelContext) 0 s s' :=
      ⟨⟨[], hlog, nofun⟩, fun u _ => Prod.ext (hbody u).1 (Prod.ext (hbody u).2.1 (hbody u).2.2),
        fun u _ => by rw [hfds], hkernel⟩
    refine ⟨hl.byTask hby (fun u _ => by rw [htasks]) (fun hmem => ?_) fun _ => ?_, 0, hby,
      fun hmem => absurd hmem h.task_ne⟩
    · rw [htasks] at hmem
      exact absurd hmem h.task_ne
    · rw [hlog]
      exact hl.dead 0 h.task_ne

theorem TaskSys.start_counted {s : TaskSys σ} (htasks : s.liveTasks = [])
    (hfiles : s.liveFiles = []) : s.Counted := by
  rw [TaskSys.Counted, htasks, hfiles]
  exact FilesOk.nil _

theorem LedgerOk.start {s : TaskSys σ} (htasks : s.liveTasks = []) (hlog : s.log = []) :
    LedgerOk hhdm s := by
  refine ⟨fun t ht => ?_, fun t _ => ?_⟩
  · rw [htasks] at ht
    exact absurd ht List.not_mem_nil
  · rw [hlog]
    rfl

/-- Whole runs. -/
theorem TaskSys.run_ledger (hops : StaticOps vfs opens closes) (h : s₀.Counted)
    (hl : LedgerOk hhdm s₀) (hrun : Relation.ReflTransGen (TaskStep vfs arch hhdm) s₀ s) :
    s.Counted ∧ LedgerOk hhdm s ∧ s.vmmKernelContext = s₀.vmmKernelContext ∧
      ∃ events : List TaskEvent, s.log = events ++ s₀.log ∧
        ∀ e ∈ events, e.resource ≠ .context s₀.vmmKernelContext := by
  induction hrun with
  | refl => exact ⟨h, hl, rfl, [], rfl, nofun⟩
  | tail _ hstep ih =>
    obtain ⟨hc, hl', hkernel, events, hlog, hevents⟩ := ih
    obtain ⟨_, _, _, heffect⟩ := hstep.effect hops hc
    obtain ⟨hl'', t, hby, -⟩ := hstep.ledger hops hc hl'
    obtain ⟨events', hlog', hevents'⟩ := hby.events
    refine ⟨heffect.counted, hl'', hby.kernel.trans hkernel, events' ++ events,
      by rw [hlog', hlog, List.append_assoc], fun e he => ?_⟩
    rcases List.mem_append.mp he with he | he
    · rw [← hkernel]
      exact (hevents' e he).2
    · exact hevents e he

/-- A run in which the task `t` is never destroyed. -/
def RunsWith (vfs : Vfs σ) (arch : Arch) (hhdm t : Word) :
    TaskSys (σ × List VfsCallback) → TaskSys (σ × List VfsCallback) → Prop :=
  Relation.ReflTransGen fun s s' => TaskStep vfs arch hhdm s s' ∧ t ∈ s'.liveTasks

/-- While a task lives, the books of the task are about files, and its struct tells the same. -/
theorem RunsWith.ledger (hops : StaticOps vfs opens closes) (h : s₁.Counted)
    (hl : LedgerOk hhdm s₁) (ht : t ∈ s₁.liveTasks) (hrun : RunsWith vfs arch hhdm t s₁ s₂) :
    s₂.Counted ∧ LedgerOk hhdm s₂ ∧ t ∈ s₂.liveTasks ∧
      s₂.vmmKernelContext = s₁.vmmKernelContext ∧
      (s₂.body t).holdings = (s₁.body t).holdings ∧
      ∃ events : List TaskEvent, s₂.log = events ++ s₁.log ∧
        ∀ e ∈ events, e.owner = t → e.resource.IsFile := by
  induction hrun with
  | refl => exact ⟨h, hl, ht, rfl, rfl, [], rfl, nofun⟩
  | @tail s s' _ hstep ih =>
    obtain ⟨hc, hl', hmem, hkernel, hbody, events, hlog, hevents⟩ := ih
    obtain ⟨hstep, hmem'⟩ := hstep
    obtain ⟨_, _, _, heffect⟩ := hstep.effect hops hc
    obtain ⟨hl'', u, hby, hself⟩ := hstep.ledger hops hc hl'
    -- the step is for another task, or for a file of this one
    obtain ⟨events', hlog', hevents', hbody'⟩ : ∃ events' : List TaskEvent,
        s'.log = events' ++ s.log ∧ (∀ e ∈ events', e.owner = t → e.resource.IsFile) ∧
          (s'.body t).holdings = (s.body t).holdings := by
      by_cases hut : u = t
      · subst hut
        obtain ⟨hby', hbody'⟩ := hself hmem hmem'
        obtain ⟨events', hlog', hevents'⟩ := hby'.events
        exact ⟨events', hlog', fun e he _ => (hevents' e he).2, hbody'⟩
      · obtain ⟨events', hlog', hevents'⟩ := hby.events
        exact ⟨events', hlog', fun e he howner => absurd ((hevents' e he).1.symm.trans howner) hut,
          hby.body t (Ne.symm hut)⟩
    refine ⟨heffect.counted, hl'', hmem', hby.kernel.trans hkernel, hbody'.trans hbody,
      events' ++ events, by rw [hlog', hlog, List.append_assoc], fun e he => ?_⟩
    rcases List.mem_append.mp he with he | he
    · exact hevents' e he
    · exact hevents e he

end

/-! ## Pages of stacks -/

/-- A page outside a block of pages does not meet it. -/
theorem IsPage.apart_block {hhdm p base : Word} {n : ℕ} (hp : IsPage hhdm p) (hn : 0 < n)
    (hblock : ∀ q ∈ pmmBlock base n, IsPage hhdm q) (hnot : p ∉ pmmBlock base n) :
    ByteMem.Apart (pmmPhysToVirt hhdm base) (n * 4096) (pmmPhysToVirt hhdm p) 4096 := by
  have hwrap := noWrap_of_isPage hn hblock
  have hbase : IsPage hhdm base := hblock base (mem_pmmBlock_iff.mpr ⟨0, hn, by simp⟩)
  have hvirt := hbase.toNat_virt
  have hvirt' := hp.toNat_virt
  have haligned := hbase.aligned
  have haligned' := hp.aligned
  have hbound := hp.noWrap
  rcases Nat.lt_or_ge p.toNat base.toNat with hlt | hge
  · refine (ByteMem.apart_of_le ?_ ?_).symm <;> omega
  · by_cases hinside : p.toNat < base.toNat + n * 4096
    · -- then it is one of the pages
      exfalso
      refine hnot (mem_pmmBlock_iff.mpr ⟨(p.toNat - base.toNat) / 4096, by omega, ?_⟩)
      refine BitVec.eq_of_toNat_eq ?_
      rw [toNat_add_pages (by omega)]
      omega
    · exact ByteMem.apart_of_le (by omega) (by omega)

/-- The loop of `pmm_free` writes to the first words of its pages only. -/
theorem pmmFreeLoop_mem {hhdm x : Word} (n : ℕ) : ∀ {s : Pmm} {base : Word},
    (∀ p ∈ pmmBlock base n, ¬ (x - pmmPhysToVirt hhdm p).toNat < 8) →
    (pmmFreeLoop hhdm n s base).mem x = s.mem x := by
  induction n with
  | zero => exact fun _ => rfl
  | succ n ih =>
    intro s base hx
    rw [pmmBlock_succ] at hx
    refine (ih fun p hp => hx p (List.mem_cons_of_mem _ hp)).trans ?_
    exact ByteMem.store64_apply_of_apart (hx base List.mem_cons_self)

/-- An address in a block of pages is in one of them. -/
theorem exists_page_of_block {hhdm x base : Word} {n : ℕ}
    (hx : (x - pmmPhysToVirt hhdm base).toNat < n * 4096) :
    ∃ p ∈ pmmBlock base n, (x - pmmPhysToVirt hhdm p).toNat < 4096 := by
  refine ⟨base + BitVec.ofNat 64 ((x - pmmPhysToVirt hhdm base).toNat / 4096) * pageSize,
    mem_pmmBlock_iff.mpr ⟨_, by omega, rfl⟩, ?_⟩
  have hbound := (x - pmmPhysToVirt hhdm base).isLt
  have hoffset : (BitVec.ofNat 64 ((x - pmmPhysToVirt hhdm base).toNat / 4096) * pageSize).toNat =
      (x - pmmPhysToVirt hhdm base).toNat / 4096 * 4096 := by
    have hsize : pageSize.toNat = 4096 := rfl
    rw [BitVec.toNat_mul, BitVec.toNat_ofNat, hsize]
    omega
  have hsub : x - pmmPhysToVirt hhdm
      (base + BitVec.ofNat 64 ((x - pmmPhysToVirt hhdm base).toNat / 4096) * pageSize) =
      (x - pmmPhysToVirt hhdm base) -
        BitVec.ofNat 64 ((x - pmmPhysToVirt hhdm base).toNat / 4096) * pageSize := by
    simp only [pmmPhysToVirt]
    generalize BitVec.ofNat 64 ((x - (base + hhdm)).toNat / 4096) * pageSize = k
    abel
  rw [hsub, BitVec.toNat_sub_of_le (by rw [BitVec.le_def, hoffset]; omega), hoffset]
  omega

/-- A stack that is given back at once leaves the free pages as they were, up to their order, and
the rest of the memory. -/
theorem KstackAllocated.freed {hhdm base : Word} {v v' : Vmm} {free : List Word} (hh : HhdmOk hhdm)
    (hfree : FreeList hhdm v.pmm free) (h : KstackAllocated hhdm v v' base) :
    (∃ free', FreeList hhdm (stackFreed hhdm v' base).pmm free' ∧ free'.Perm free) ∧
      stackFreed hhdm v' base = { v with pmm := (stackFreed hhdm v' base).pmm } ∧
      ∀ x, (∀ p ∈ free, ¬ (x - pmmPhysToVirt hhdm p).toNat < 4096) →
        (stackFreed hhdm v' base).pmm.mem x = v.pmm.mem x := by
  obtain ⟨phys, pmm, halloc, hcases⟩ := h
  rcases hfree.alloc hh (show kstackPages ≠ 0 by decide) with
    ⟨hnone, -⟩ | ⟨pre, first, post, pmm', rfl, -, hsome, hlist, -, hmem⟩
  · cases halloc.symm.trans hnone
    obtain ⟨-, rfl, rfl⟩ | ⟨hne, -⟩ := hcases
    · rw [stackFreed, if_pos rfl]
      exact ⟨⟨free, hfree, .refl _⟩, rfl, fun _ _ => rfl⟩
    · exact absurd rfl hne
  · cases halloc.symm.trans hsome
    have hsize : kstackPages.toNat = 4 := rfl
    rw [hsize] at *
    -- the pages of the stack are pages and not free
    have hblock : ∀ q ∈ pmmBlock phys 4, IsPage hhdm q := fun q hq =>
      hfree.page q (by simp [hq])
    have hnodup := hfree.nodup
    have hpage : IsPage hhdm phys := hblock phys (mem_pmmBlock_iff.mpr ⟨0, by decide, by simp⟩)
    have hdisjoint : (pmmBlock phys 4 ++ (pre ++ post)).Nodup := by
      refine List.Perm.nodup_iff ?_ |>.mp hnodup
      refine (List.perm_append_comm_assoc pre _ post).trans ?_
      exact (List.reverse_perm _).append_right _
    obtain ⟨hzero, -⟩ | ⟨-, rfl, rfl⟩ := hcases
    · exact absurd hzero hpage.ne_zero
    have hwritten : FreeList hhdm { pmm with
        mem := (pmm.mem.memset (pmmPhysToVirt hhdm phys) 0 kstackSize.toNat).store64
          (pmmPhysToVirt hhdm phys) kstackGuard } (pre ++ post) := by
      refine hlist.of_agree rfl fun p hp => ?_
      have hapart := (hlist.page p hp).apart_block (by decide : 0 < 4) hblock
        fun hmem => (List.nodup_append.mp hdisjoint).2.2 p hmem p hp rfl
      have hset : ByteMem.AgreeOn pmm.mem
          (pmm.mem.memset (pmmPhysToVirt hhdm phys) 0 kstackSize.toNat) (pmmPhysToVirt hhdm p) 8 :=
        ByteMem.agreeOn_memset (hapart.mono le_rfl (by decide))
      have hguard := ByteMem.agreeOn_store64 (v := kstackGuard)
        (m := pmm.mem.memset (pmmPhysToVirt hhdm phys) 0 kstackSize.toNat)
        (hapart.mono (by decide : 8 ≤ 4 * 4096) (by decide : 8 ≤ 4096))
      exact (hset.trans hguard).load64_eq
    rw [stackFreed, if_neg hpage.virt_ne_zero, pmmVirtToPhys_physToVirt]
    refine ⟨⟨(pmmBlock phys 4).reverse ++ (pre ++ post),
      hwritten.free hh hpage.ne_zero hblock hdisjoint, List.perm_append_comm_assoc _ pre post⟩, rfl,
      fun x hx => ?_⟩
    -- the link words, the stack and the guard are all in pages that were free
    have hstack : ∀ p ∈ pmmBlock phys 4, ¬ (x - pmmPhysToVirt hhdm p).toNat < 4096 := fun p hp =>
      hx p (by simp [hp])
    have hfreed : (pmmFree hhdm { pmm with
        mem := (pmm.mem.memset (pmmPhysToVirt hhdm phys) 0 kstackSize.toNat).store64
          (pmmPhysToVirt hhdm phys) kstackGuard } phys kstackPages).mem x =
        (pmm.mem.memset (pmmPhysToVirt hhdm phys) 0 kstackSize.toNat).store64
          (pmmPhysToVirt hhdm phys) kstackGuard x := by
      rw [pmmFree, if_neg hpage.ne_zero]
      exact pmmFreeLoop_mem 4 fun p hp hlt => hstack p hp (by omega)
    have hguard : ¬ (x - pmmPhysToVirt hhdm phys).toNat < 8 := fun hlt =>
      hstack phys (mem_pmmBlock_iff.mpr ⟨0, by decide, by simp⟩) (by omega)
    have hset : ¬ (x - pmmPhysToVirt hhdm phys).toNat < kstackSize.toNat := fun hlt => by
      have hsize : kstackSize.toNat = 4 * 4096 := rfl
      obtain ⟨p, hp, hlt⟩ := exists_page_of_block (hsize ▸ hlt)
      exact hstack p hp hlt
    refine hfreed.trans ((ByteMem.store64_apply_of_apart hguard).trans ?_)
    refine (if_neg hset).trans (hmem x fun p hp hlt => ?_)
    exact hx p (by simp [hp]) (by omega)

/-! ## Lives on the kernel's context -/

/-- The books of the task `t` on the kernel's context, from before it was made until it is gone:
everything that was taken for it is given back once and nothing else, no context is, and no stack if
the task was handed the stack `top`. -/
structure LifeBalanced (t top : Word) (events : List TaskEvent) : Prop where
  balanced : Ledger.Balanced t events
  context : ∀ c, .drop t (.context c) ∉ events
  handed : top ≠ 0 → ∀ p, .drop t (.stack p) ∉ events

/-- What the books of such a task may be about. -/
def KernelScope (top : Word) (r : Resource) : Prop :=
  (∀ c, r ≠ .context c) ∧ (top ≠ 0 → ∀ p, r ≠ .stack p)

theorem LifeBalanced.of_scope {t top : Word} {events log : List TaskEvent}
    (hbefore : balance t log = some 0) (hafter : balance t (events ++ log) = some 0)
    (hscope : ∀ e ∈ events, e.owner = t → KernelScope top e.resource) :
    LifeBalanced t top events where
  balanced := Ledger.balanced_of_balance hbefore hafter
  context c hmem := (hscope _ hmem rfl).1 c rfl
  handed htop p hmem := (hscope _ hmem rfl).2 htop p rfl

section

variable {vfs : Vfs σ} {opens closes : Word → Bool} {s s₀ s₁ : TaskSys (σ × List VfsCallback)}
  {arch : Arch} {hhdm r name top : Word} {answers : List Word}

theorem kernelScope_making (hkernel : s.vmmKernelContext ≠ 0) (t : Word) :
    MakingScope (KernelScope top) s t top s.vmmKernelContext where
  task := ⟨fun _ => nofun, fun _ _ => nofun⟩
  fpu _ := ⟨fun _ => nofun, fun _ _ => nofun⟩
  stack htop _ := ⟨fun _ => nofun, fun hne => absurd htop hne⟩
  given _ hne := absurd rfl hne
  made hnone := absurd hnone hkernel
  file _ := ⟨fun _ => nofun, fun _ _ => nofun⟩
  ref _ := ⟨fun _ => nofun, fun _ _ => nofun⟩

/-- The machine after a task that could not be made. -/
theorem StackPlaced.freed {v v' : Vmm} {base : Word} {done : Bool}
    (h : StackPlaced hhdm top v v' base done) :
    (top ≠ 0 → stackFreed hhdm v' base = v) ∧
      (HhdmOk hhdm → ∀ free, FreeList hhdm v.pmm free →
        ∃ free', FreeList hhdm (stackFreed hhdm v' base).pmm free' ∧ free'.Perm free) := by
  rcases h with ⟨rfl, rfl, -⟩ | ⟨htop, -, halloc⟩
  · rw [stackFreed, if_pos rfl]
    exact ⟨fun _ => rfl, fun _ free hfree => ⟨free, hfree, .refl _⟩⟩
  · exact ⟨fun hne => absurd htop hne, fun hh free hfree => (halloc.freed hh hfree).1⟩

/-- Task lifecycle balances its resources, for tasks on the kernel's context. When making one fails,
everything that was taken for it is given back once and nothing else, and the free pages are the same
up to their order. A task that was made, lived in any run and is destroyed once has given everything
back once: the stack goes back to where it came from, and one that it was handed is left alone. The
kernel's context is never given back. -/
theorem task_lifecycle_balances (hops : StaticOps vfs opens closes) (htasks : s₀.liveTasks = [])
    (hfiles : s₀.liveFiles = []) (hlog : s₀.log = []) (hkernel : s₀.vmmKernelContext ≠ 0)
    (hrun : Relation.ReflTransGen (TaskStep vfs arch hhdm) s₀ s)
    (hfresh : FreshAnswers { s with answers })
    (hcall : (top = 0 ∧
        taskCreate (recorded vfs) arch hhdm { s with answers } name = some (r, s₁)) ∨
      taskInitBoot (recorded vfs) arch hhdm { s with answers } name top = some (r, s₁)) :
    (∀ t, .drop t (.context s₀.vmmKernelContext) ∉ s.log) ∧
    (r = 0 → ∃ t events, s₁.log = events ++ s.log ∧ (∀ e ∈ events, e.owner = t) ∧
      LifeBalanced t top events ∧ (top ≠ 0 → s₁.vmm = s.vmm) ∧
      (HhdmOk hhdm → ∀ free, FreeList hhdm s.vmm.pmm free →
        ∃ free', FreeList hhdm s₁.vmm.pmm free' ∧ free'.Perm free)) ∧
    (r ≠ 0 → ∀ s₂, RunsWith vfs arch hhdm r s₁ s₂ →
      ∃ s₃, taskDestroy (recorded vfs) arch hhdm s₂ r = some s₃ ∧
      (∃ events, s₃.log = events ++ s.log ∧ LifeBalanced r top events) ∧
      (∃ events, s₃.log = events ++ s₂.log ∧ ∀ e ∈ events, e.owner = r) ∧
      ((top ≠ 0 ∧ s₁.vmm = s.vmm ∧ s₃.vmm = s₂.vmm) ∨
        (top = 0 ∧ ∃ phys pmm, pmmAlloc hhdm s.vmm.pmm kstackPages = some (phys, pmm) ∧ phys ≠ 0 ∧
          s₃.vmm = { s₂.vmm with pmm := pmmFree hhdm s₂.vmm.pmm phys kstackPages }))) := by
  replace hcall : taskInnerCreate (recorded vfs) arch hhdm { s with answers } name top
      s.vmmKernelContext = some (r, s₁) := by
    rcases hcall with ⟨rfl, hcall⟩ | hcall
    · exact hcall
    · exact hcall
  obtain ⟨hcounted, hl, hsame, before, hbefore, hnever⟩ := TaskSys.run_ledger hops
    (TaskSys.start_counted htasks hfiles) (LedgerOk.start htasks hlog) hrun
  rw [hlog, List.append_nil] at hbefore
  have hne : s.vmmKernelContext ≠ 0 := hsame ▸ hkernel
  have h₀ : ({ s with answers } : TaskSys (σ × List VfsCallback)).Counted := hcounted
  have hl₀ : LedgerOk hhdm { s with answers } := ⟨hl.live, hl.dead⟩
  obtain ⟨hcounted₁, t, hnew, hby, hl₁, hends⟩ := taskInnerCreate_ledger hops h₀ hl₀ hfresh
    (kernelScope_making (s := { s with answers }) hne) hcall
  obtain ⟨events₁, hlog₁, hevents₁⟩ := hby.events
  refine ⟨fun u hmem => ?_, fun hr => ?_, fun hr s₂ hlife => ?_⟩
  · rw [hbefore] at hmem
    exact hnever _ hmem rfl
  · -- the task was not made
    obtain ⟨-, hgone, hfailed⟩ | ⟨-, hne', -⟩ := hends
    · obtain ⟨v, base, hplaced, hvmm⟩ := hfailed rfl hne
      have hafter := hl₁.dead t hgone
      rw [hlog₁] at hafter
      refine ⟨t, events₁, hlog₁, fun e he => (hevents₁ e he).1,
        .of_scope (hl.dead t hnew) hafter fun e he _ => (hevents₁ e he).2, ?_⟩
      rw [hvmm]
      exact hplaced.freed
    · exact absurd hr hne'
  · -- the task was made and lived
    obtain ⟨hr', -⟩ | ⟨rfl, -, hlive, hplaced⟩ := hends
    · exact absurd hr' hr
    obtain ⟨hctx, hplaced⟩ := hplaced hne
    obtain ⟨hcounted₂, hl₂, hlive₂, hkernel₂, hbody₂, events₂, hlog₂, hevents₂⟩ :=
      hlife.ledger hops hcounted₁ hl₁ hlive
    obtain ⟨hbase₂, hrest₂⟩ := Prod.mk.inj hbody₂
    have hctx₂ : (s₂.body r).vmmContext = s₂.vmmKernelContext := by
      rw [(Prod.mk.inj hrest₂).2, hctx, hkernel₂, hby.kernel]
    obtain ⟨s₃, hdestroy⟩ : ∃ s₃, taskDestroy (recorded vfs) arch hhdm s₂ r = some s₃ :=
      taskDestroy_returns (Or.inr hctx₂)
    refine ⟨s₃, hdestroy, ?_⟩
    -- a stack that it was handed is not noted as its own
    have hown : (s₂.body r).kernelStackBase ≠ 0 → top = 0 := by
      rw [hbase₂]
      rcases hplaced with ⟨-, hnone, -⟩ | ⟨htop, -, -⟩
      · exact fun hbase => absurd hnone hbase
      · exact fun _ => htop
    have hby₃ : ByTask (KernelScope top) r s₂ s₃ :=
      taskDestroy_by hr (fun _ => ⟨fun _ => nofun, fun _ _ => nofun⟩)
        (fun _ => ⟨fun _ => nofun, fun _ _ => nofun⟩) (fun _ hother => absurd hctx₂ hother)
        (fun hbase => ⟨fun _ => nofun, fun htop => absurd (hown hbase) htop⟩)
        ⟨fun _ => nofun, fun _ _ => nofun⟩ ⟨fun _ => nofun, fun _ _ => nofun⟩ hdestroy
    obtain ⟨events₃, hlog₃, hevents₃⟩ := hby₃.events
    have hafter := taskDestroy_balance hops hcounted₂ hlive₂ (hl₂.live r hlive₂) hdestroy
    have hall : s₃.log = (events₃ ++ (events₂ ++ events₁)) ++ s.log := by
      rw [hlog₃, hlog₂, hlog₁, List.append_assoc, List.append_assoc]
    refine ⟨⟨_, hall, .of_scope (hl.dead r hnew) (hall ▸ hafter) fun e he howner => ?_⟩,
      ⟨events₃, hlog₃, fun e he => (hevents₃ e he).1⟩, ?_⟩
    · simp only [List.mem_append] at he
      rcases he with he | he | he
      · exact (hevents₃ e he).2
      · obtain ⟨f, hf | hf⟩ := hevents₂ e he howner
        · rw [hf]
          exact ⟨fun _ => nofun, fun _ _ => nofun⟩
        · rw [hf]
          exact ⟨fun _ => nofun, fun _ _ => nofun⟩
      · exact (hevents₁ e he).2
    · have hvmm := taskDestroy_vmm hr (Or.inr hctx₂) hdestroy
      rw [hbase₂] at hvmm
      rcases hplaced with ⟨hsame₁, hnone, htop⟩ | ⟨htop, hbase, phys, pmm, halloc, hphys⟩
      · rw [hnone, stackFreed, if_pos rfl] at hvmm
        exact Or.inl ⟨htop rfl, hsame₁, hvmm⟩
      · rw [stackFreed, if_neg (hbase rfl)] at hvmm
        obtain ⟨-, hnull, -⟩ | ⟨hphys, hvirt, -⟩ := hphys
        · exact absurd hnull (hbase rfl)
        · rw [hvirt, pmmVirtToPhys_physToVirt] at hvmm
          exact Or.inr ⟨htop, phys, pmm, halloc, hphys, hvmm⟩

end

/-- The boot task is made on the stack of the boot loader and destroyed again. -/
theorem task_lifecycle_balances_boot :
    bootSys.vmmKernelContext ≠ 0 ∧ ∃ s₁ s₃,
      taskInitBoot (recorded consoleVfs) .x86_64 0
        { bootSys with answers := [0x1000, 0x2000, 0x3000] } 0x6000 0x7000 = some (0x1000, s₁) ∧
      taskDestroy (recorded consoleVfs) .x86_64 0 s₁ 0x1000 = some s₃ ∧ s₃.vmm = s₁.vmm ∧
      ∃ events, s₃.log = events ++ bootSys.log ∧ LifeBalanced 0x1000 0x7000 events := by
  have hrun : (taskInitBoot (recorded consoleVfs) .x86_64 0
      { bootSys with answers := [0x1000, 0x2000, 0x3000] } 0x6000 0x7000).map Prod.fst =
        some 0x1000 := by
    decide +kernel
  obtain ⟨⟨r, s₁⟩, hcall, rfl⟩ := Option.map_eq_some_iff.mp hrun
  have hkernel : bootSys.vmmKernelContext ≠ 0 := by decide
  obtain ⟨-, -, hlife⟩ := task_lifecycle_balances consoleVfs_ops rfl rfl rfl hkernel .refl
    bootSys_fresh (Or.inr hcall)
  obtain ⟨s₃, hdestroy, hbalanced, -, hvmm⟩ := hlife (by decide) s₁ .refl
  obtain ⟨-, -, hvmm⟩ | ⟨htop, -⟩ := hvmm
  · exact ⟨hkernel, s₁, s₃, hcall, hdestroy, hvmm, hbalanced⟩
  · exact absurd htop (by decide)

end Pros
