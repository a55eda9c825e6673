import Pros.Proc.TaskFiles

/-!
# Files through the lives of tasks

What `task_destroy` and `task_inner_create` do to the open files of all tasks, and to the record of
the callbacks.
-/

namespace Pros

variable {σ : Type}

/-! ## The parts of `task_inner_create` -/

section

variable {arch : Arch} {hhdm t : Word} {s s' : TaskSys σ}

/-- The part for the address space: it is given back if the task owns one. -/
theorem taskDropContext_cases (h : taskDropContext arch hhdm s t = some s') :
    s'.body = s.body ∧ s'.vmmKernelContext = s.vmmKernelContext ∧
      ((((s.body t).vmmContext = 0 ∨ (s.body t).vmmContext = s.vmmKernelContext) ∧ s' = s) ∨
        (¬ ((s.body t).vmmContext = 0 ∨ (s.body t).vmmContext = s.vmmKernelContext) ∧
          ∃ vmm, s' = { s with vmm }.drop t (.context (s.body t).vmmContext))) := by
  simp only [taskDropContext] at h
  split at h
  · rename_i hown
    obtain ⟨vmm, -, hret⟩ := Option.bind_eq_some_iff.mp h
    cases hret
    exact ⟨rfl, rfl, Or.inr ⟨not_or.mpr hown, vmm, rfl⟩⟩
  · rename_i hnot
    cases h
    refine ⟨rfl, rfl, Or.inl ⟨?_, rfl⟩⟩
    by_contra hown
    exact hnot (not_or.mp hown)

/-- What `arch_fpu_init` does to a task without FPU state. -/
theorem archFpuInit_spec {res : Int} (h : archFpuInit s t = (res, s')) :
    s'.vmm = s.vmm ∧ (res = 0 ↔ s.answers.headD 0 ≠ 0) ∧
      ((s' = { s with answers := s.answers.tail } ∧ s.answers.headD 0 = 0) ∨
        (s.answers.headD 0 ≠ 0 ∧
          s' = ({ s with answers := s.answers.tail }.gain t (.fpu (s.answers.headD 0))).setBody t
            { s.body t with fpuState := s.answers.headD 0 })) := by
  unfold archFpuInit TaskSys.kmalloc at h
  dsimp only at h
  split at h
  · rename_i hnone
    cases h
    exact ⟨rfl, ⟨fun hres => absurd hres (by decide), fun hne => absurd hnone hne⟩,
      Or.inl ⟨rfl, hnone⟩⟩
  · rename_i hsome
    cases h
    exact ⟨rfl, ⟨fun _ => hsome, fun _ => rfl⟩, Or.inr ⟨hsome, rfl⟩⟩

/-- What `kstack_alloc` does to the machine: it returns the base of four pages that are zero up to
the guard, or null. -/
def KstackAllocated (hhdm : Word) (v v' : Vmm) (base : Word) : Prop :=
  ∃ phys pmm, pmmAlloc hhdm v.pmm kstackPages = some (phys, pmm) ∧
    ((phys = 0 ∧ base = 0 ∧ v' = { v with pmm }) ∨
      (phys ≠ 0 ∧ base = pmmPhysToVirt hhdm phys ∧ v' = { v with
        pmm := { pmm with
          mem := (pmm.mem.memset base 0 kstackSize.toNat).store64 base kstackGuard } }))

theorem kstackAlloc_spec {base : Word} (h : kstackAlloc hhdm s = some (base, s')) :
    KstackAllocated hhdm s.vmm s'.vmm base ∧ s' = { s with vmm := s'.vmm } := by
  obtain ⟨⟨phys, pmm⟩, halloc, hret⟩ := Option.bind_eq_some_iff.mp h
  simp only at hret
  split at hret
  · rename_i hphys
    cases hret
    exact ⟨⟨phys, pmm, halloc, Or.inl ⟨hphys, rfl, rfl⟩⟩, rfl⟩
  · rename_i hphys
    cases hret
    exact ⟨⟨phys, pmm, halloc, Or.inr ⟨hphys, rfl, rfl⟩⟩, rfl⟩

/-- The part of `task_inner_create` for the stack: it is handed, or allocated, or there is none. -/
theorem taskTakeStack_spec {top : Word} {ok : Bool}
    (h : taskTakeStack hhdm s t top = some (ok, s')) :
    (top ≠ 0 ∧ ok = true ∧ s' = s.setBody t { s.body t with kernelStackTop := top }) ∨
    (top = 0 ∧ ∃ base vmm, KstackAllocated hhdm s.vmm vmm base ∧
      ((base = 0 ∧ ok = false ∧ s' = { s with vmm }) ∨
        (base ≠ 0 ∧ ok = true ∧
          s' = ({ s with vmm }.gain t (.stack (pmmVirtToPhys hhdm base))).setBody t
            { s.body t with kernelStackBase := base, kernelStackTop := kstackGetTop base }))) := by
  simp only [taskTakeStack] at h
  split at h
  · rename_i htop
    cases h
    exact Or.inl ⟨htop, rfl, rfl⟩
  · rename_i htop
    obtain ⟨⟨base, s₁⟩, halloc, hret⟩ := Option.bind_eq_some_iff.mp h
    obtain ⟨hmachine, hs₁⟩ := kstackAlloc_spec halloc
    refine Or.inr ⟨not_not.mp htop, base, s₁.vmm, hmachine, ?_⟩
    rw [← hs₁]
    simp only at hret
    split at hret
    · rename_i hbase
      cases hret
      exact Or.inl ⟨hbase, rfl, rfl⟩
    · rename_i hbase
      cases hret
      refine Or.inr ⟨hbase, rfl, ?_⟩
      rw [hs₁]

/-- A context is made only with a block for it. -/
theorem ptr_ne_zero_of_vmmCreateContext {ptr : Word} {v v' : Vmm} {made : VmmContext}
    (h : vmmCreateContext arch hhdm (fun pmm => some (ptr, pmm)) v = some (some made, v')) :
    ptr ≠ 0 := by
  intro hptr
  obtain ⟨⟨root, pmm⟩, -, hret⟩ := Option.bind_eq_some_iff.mp h
  simp only [hptr, if_true, Option.bind_eq_bind, Option.bind_some] at hret
  split at hret
  · exact absurd hret (by simp [pure])
  · exact absurd hret (by simp [pure])

/-- The part of `task_inner_create` for the address space: it is given, or made, or there is none. -/
theorem taskTakeContext_spec {ctx : Word} {ok : Bool}
    (h : taskTakeContext arch hhdm s t ctx = some (ok, s')) :
    (ctx ≠ 0 ∧ ok = true ∧ s' = (if ctx = s.vmmKernelContext then s
      else s.gain t (.context ctx)).setBody t { s.body t with vmmContext := ctx }) ∨
    (ctx = 0 ∧ ∃ made vmm, vmmCreateContext arch hhdm
        (fun pmm => some (s.answers.headD 0, pmm)) s.vmm = some (made, vmm) ∧
      ((made = none ∧ ok = false ∧ s' = { s with answers := s.answers.tail, vmm }) ∨
        (∃ c, made = some c ∧ s.answers.headD 0 ≠ 0 ∧ ok = true ∧
          s' = ({ s with
              answers := s.answers.tail, vmm,
              contexts := Function.update s.contexts (s.answers.headD 0) c }.gain t
            (.context (s.answers.headD 0))).setBody t
              { s.body t with vmmContext := s.answers.headD 0 }))) := by
  simp only [taskTakeContext, TaskSys.kmalloc] at h
  split at h
  · rename_i hctx
    cases h
    refine Or.inl ⟨hctx, rfl, ?_⟩
    split <;> rfl
  · rename_i hctx
    obtain ⟨⟨made, vmm⟩, hcreate, hret⟩ := Option.bind_eq_some_iff.mp h
    refine Or.inr ⟨not_not.mp hctx, made, vmm, hcreate, ?_⟩
    cases made with
    | none =>
      cases hret
      exact Or.inl ⟨rfl, rfl, rfl⟩
    | some c =>
      cases hret
      exact Or.inr ⟨c, rfl, ptr_ne_zero_of_vmmCreateContext hcreate, rfl, rfl⟩

end

/-! ## Calls that do not touch the open files -/

/-- The open files and the file systems are as they were, and no answer of `kmalloc` was added. -/
structure SameFiles (s s' : TaskSys σ) : Prop where
  files : s'.files = s.files
  tasks : s'.liveTasks = s.liveTasks
  live : s'.liveFiles = s.liveFiles
  fs : s'.fs = s.fs
  answers : s'.answers <:+ s.answers

namespace SameFiles

variable {s s' s'' : TaskSys σ}

theorem trans (h : SameFiles s s') (h' : SameFiles s' s'') : SameFiles s s'' :=
  ⟨h'.files.trans h.files, h'.tasks.trans h.tasks, h'.live.trans h.live, h'.fs.trans h.fs,
    h'.answers.trans h.answers⟩

/-- Only other fields changed. -/
theorem of_eq (hfiles : s'.files = s.files) (htasks : s'.liveTasks = s.liveTasks)
    (hlive : s'.liveFiles = s.liveFiles) (hfs : s'.fs = s.fs) (hanswers : s'.answers = s.answers) :
    SameFiles s s' :=
  ⟨hfiles, htasks, hlive, hfs, hanswers ▸ List.suffix_refl _⟩

end SameFiles

/-- Only the files, the books and the answers of the allocator may be different. -/
structure FilesOnly (s s' : TaskSys σ) : Prop where
  body : s'.body = s.body
  vmm : s'.vmm = s.vmm
  contexts : s'.contexts = s.contexts
  kernel : s'.vmmKernelContext = s.vmmKernelContext

theorem FilesOnly.trans {s s' s'' : TaskSys σ} (h : FilesOnly s s') (h' : FilesOnly s' s'') :
    FilesOnly s s'' :=
  ⟨h'.body.trans h.body, h'.vmm.trans h.vmm, h'.contexts.trans h.contexts,
    h'.kernel.trans h.kernel⟩

section

variable {arch : Arch} {hhdm : Word} {s s' : TaskSys σ} {t : Word}

theorem taskDropContext_same (h : taskDropContext arch hhdm s t = some s') : SameFiles s s' := by
  obtain ⟨-, -, ⟨-, rfl⟩ | ⟨-, vmm, rfl⟩⟩ := taskDropContext_cases h
  · exact .of_eq rfl rfl rfl rfl rfl
  · exact .of_eq rfl rfl rfl rfl rfl

theorem taskDropStack_same : SameFiles s (taskDropStack hhdm s t) := by
  simp only [taskDropStack, kstackFree]
  split
  · exact .of_eq rfl rfl rfl rfl rfl
  · exact .of_eq rfl rfl rfl rfl rfl

theorem archFpuFree_same : SameFiles s (archFpuFree s t) := by
  simp only [archFpuFree]
  split
  · exact .of_eq rfl rfl rfl rfl rfl
  · exact .of_eq rfl rfl rfl rfl rfl

theorem archFpuInit_same {res : Int} (h : archFpuInit s t = (res, s')) : SameFiles s s' := by
  obtain ⟨-, -, ⟨rfl, -⟩ | ⟨-, rfl⟩⟩ := archFpuInit_spec h
  · exact ⟨rfl, rfl, rfl, rfl, List.tail_suffix _⟩
  · exact ⟨rfl, rfl, rfl, rfl, List.tail_suffix _⟩

theorem taskTakeStack_same {top : Word} {ok : Bool}
    (h : taskTakeStack hhdm s t top = some (ok, s')) : SameFiles s s' := by
  obtain ⟨-, -, rfl⟩ | ⟨-, base, vmm, -, ⟨-, -, rfl⟩ | ⟨-, -, rfl⟩⟩ := taskTakeStack_spec h
  all_goals exact .of_eq rfl rfl rfl rfl rfl

theorem taskTakeContext_same {ctx : Word} {ok : Bool}
    (h : taskTakeContext arch hhdm s t ctx = some (ok, s')) : SameFiles s s' := by
  obtain ⟨-, -, rfl⟩ | ⟨-, made, vmm, -, ⟨-, -, rfl⟩ | ⟨c, -, -, -, rfl⟩⟩ := taskTakeContext_spec h
  · split
    · exact .of_eq rfl rfl rfl rfl rfl
    · exact .of_eq rfl rfl rfl rfl rfl
  · exact ⟨rfl, rfl, rfl, rfl, List.tail_suffix _⟩
  · exact ⟨rfl, rfl, rfl, rfl, List.tail_suffix _⟩

end

/-! ## Emptying slots -/

/-- The open files of the state are counted. -/
def TaskSys.Counted (s : TaskSys σ) : Prop := FilesOk s.files s.liveTasks s.liveFiles

theorem SameFiles.counted {s s' : TaskSys σ} (h : SameFiles s s') (hs : s.Counted) : s'.Counted := by
  rw [TaskSys.Counted, h.files, h.tasks, h.live]
  exact hs

/-- Slots of the task `t` were emptied; the files `lost` were freed, in this order. -/
structure Closed (closes : Word → Bool) (t : Word) (s s' : TaskSys (σ × List VfsCallback))
    (lost : List Word) : Prop where
  counted : s'.Counted
  tasks : s'.liveTasks = s.liveTasks
  slots : ∀ u fd, s'.files.fds u fd = s.files.fds u fd ∨ (u = t ∧ s'.files.fds u fd = 0)
  nodes : ∀ f, (s'.files.file f).node = (s.files.file f).node
  nodup : lost.Nodup
  mem_lost : ∀ f, f ∈ lost ↔ f ∈ s.liveFiles ∧ f ∉ s'.liveFiles
  live : s'.liveFiles ⊆ s.liveFiles
  record : s'.fs.2 = s.fs.2 ++ closings closes (lost.map fun f => (s.files.file f).node)

namespace Closed

variable {closes : Word → Bool} {t : Word} {s s' s'' : TaskSys (σ × List VfsCallback)}
  {lost lost' : List Word}

theorem refl (h : s.Counted) : Closed closes t s s [] where
  counted := h
  tasks := rfl
  slots _ _ := Or.inl rfl
  nodes _ := rfl
  nodup := List.nodup_nil
  mem_lost f := by simp
  live := List.Subset.refl _
  record := by simp [closings]

theorem trans (h : Closed closes t s s' lost) (h' : Closed closes t s' s'' lost') :
    Closed closes t s s'' (lost ++ lost') where
  counted := h'.counted
  tasks := h'.tasks.trans h.tasks
  slots u fd := by
    rcases h'.slots u fd with heq | hzero
    · rw [heq]
      exact h.slots u fd
    · exact Or.inr hzero
  nodes f := (h'.nodes f).trans (h.nodes f)
  nodup := by
    refine h.nodup.append h'.nodup fun f hf hf' => ?_
    exact ((h.mem_lost f).mp hf).2 ((h'.mem_lost f).mp hf').1
  mem_lost f := by
    rw [List.mem_append, h.mem_lost, h'.mem_lost]
    constructor
    · rintro (⟨hin, hout⟩ | ⟨hin, hout⟩)
      · exact ⟨hin, fun hlater => hout (h'.live hlater)⟩
      · exact ⟨h.live hin, hout⟩
    · rintro ⟨hin, hout⟩
      by_cases hmid : f ∈ s'.liveFiles
      · exact Or.inr ⟨hmid, hout⟩
      · exact Or.inl ⟨hin, hmid⟩
  live := fun f hf => h.live (h'.live hf)
  record := by
    have hnodes : (lost'.map fun f => (s'.files.file f).node) =
        lost'.map fun f => (s.files.file f).node :=
      List.map_congr_left fun f _ => h.nodes f
    rw [h'.record, h.record, hnodes, List.append_assoc, List.map_append]
    simp only [closings, List.filter_append, List.map_append]

end Closed

section

variable {vfs : Vfs σ} {opens closes : Word → Bool} {s s' : TaskSys (σ × List VfsCallback)}
  {t : Word}

/-- One slot. -/
theorem taskCloseFd_closed (hops : StaticOps vfs opens closes) (h : s.Counted)
    (ht : t ∈ s.liveTasks) (fd : Fin maxOpenFiles) :
    (∃ lost, Closed closes t s (taskCloseFd (recorded vfs) t s fd) lost) ∧
      (taskCloseFd (recorded vfs) t s fd).files.fds t fd = 0 := by
  by_cases hf : s.files.fds t fd = 0
  · rw [taskCloseFd, if_pos hf]
    exact ⟨⟨[], Closed.refl h⟩, hf⟩
  · obtain ⟨fs', hunref, hrecord⟩ := fileUnref_recorded s.fs s.files hops hf
    have hok := FilesOk.unref h ht hf rfl
    generalize hfile : s.files.fds t fd = f at hf hunref hrecord hok
    have hstate : taskCloseFd (recorded vfs) t s fd =
        (({ s with
            fs := fs'
            files := s.files.setRefCount f ((s.files.file f).refCount - 1) }).noteUnref t f
          (decide ((s.files.file f).refCount ≤ 1))).setFd t fd 0 := by
      rw [taskCloseFd, hfile, if_neg hf]
      simp only [hunref]
    have hmem : f ∈ s.liveFiles := h.held t ht f hf (Files.refs_pos_iff.mpr ⟨fd, hfile⟩)
    rw [hstate]
    simp only [TaskSys.noteUnref, TaskSys.drop, TaskSys.setFd]
    have hslots : ∀ u i, ((s.files.setRefCount f ((s.files.file f).refCount - 1)).setFd t fd
        0).fds u i = s.files.fds u i ∨ (u = t ∧ ((s.files.setRefCount f
          ((s.files.file f).refCount - 1)).setFd t fd 0).fds u i = 0) := by
      intro u i
      rw [Files.fds_setFd]
      split
      · rename_i heq
        exact Or.inr ⟨heq.1, rfl⟩
      · exact Or.inl rfl
    have hnodes : ∀ g, (((s.files.setRefCount f ((s.files.file f).refCount - 1)).setFd t fd
        0).file g).node = (s.files.file g).node := fun g => by
      rw [Files.file_setFd, Files.node_setRefCount]
    by_cases hlast : (s.files.file f).refCount ≤ 1
    · rw [if_pos hlast] at hok hrecord
      simp only [decide_eq_true hlast, if_true]
      refine ⟨⟨[f], hok, rfl, hslots, hnodes, List.nodup_singleton f, fun g => ?_,
        List.erase_subset, hrecord⟩, Files.fds_setFd_self⟩
      simp only [List.mem_singleton, h.files_nodup.mem_erase_iff, not_and]
      constructor
      · rintro rfl
        exact ⟨hmem, fun hne => absurd rfl hne⟩
      · rintro ⟨hg, himp⟩
        by_contra hne
        exact himp hne hg
    · rw [if_neg hlast] at hok hrecord
      simp only [decide_eq_false hlast, Bool.false_eq_true, if_false]
      refine ⟨⟨[], hok, rfl, hslots, hnodes, List.nodup_nil, fun g => ?_,
        List.Subset.refl _, hrecord⟩, Files.fds_setFd_self⟩
      simp

/-- All slots of a list. -/
theorem taskCloseFds_closed (hops : StaticOps vfs opens closes) (h : s.Counted)
    (ht : t ∈ s.liveTasks) (fds : List (Fin maxOpenFiles)) :
    (∃ lost, Closed closes t s (fds.foldl (taskCloseFd (recorded vfs) t) s) lost) ∧
      ∀ fd ∈ fds, (fds.foldl (taskCloseFd (recorded vfs) t) s).files.fds t fd = 0 := by
  induction fds generalizing s with
  | nil => exact ⟨⟨[], Closed.refl h⟩, by simp⟩
  | cons fd fds ih =>
    obtain ⟨⟨lost, hclosed⟩, hempty⟩ := taskCloseFd_closed hops h ht fd
    obtain ⟨⟨lost', hclosed'⟩, hempty'⟩ := ih hclosed.counted (hclosed.tasks ▸ ht)
    rw [List.foldl_cons]
    refine ⟨⟨lost ++ lost', hclosed.trans hclosed'⟩, fun i hi => ?_⟩
    rcases List.mem_cons.mp hi with rfl | hi
    · -- an empty slot stays empty
      rcases hclosed'.slots t i with heq | hzero
      · rw [heq, hempty]
      · exact hzero.2
    · exact hempty' i hi

end

/-! ## Whole calls -/

/-- What a call does to the open files: the files `gained` got their first reference, the files
`lost` lost their last one, and the nodes `refused` did not let themselves be opened. The callbacks
ran once for each of them. -/
structure CallEffect (opens closes : Word → Bool) (s s' : TaskSys (σ × List VfsCallback))
    (gained lost refused : List Word) : Prop where
  counted : s'.Counted
  gained_nodup : gained.Nodup
  mem_gained : ∀ f, f ∈ gained ↔ f ∈ s'.liveFiles ∧ f ∉ s.liveFiles
  lost_nodup : lost.Nodup
  mem_lost : ∀ f, f ∈ lost ↔ f ∈ s.liveFiles ∧ f ∉ s'.liveFiles
  once : gained.length + refused.length ≤ 1
  refused_opens : ∀ node ∈ refused, opens node = true
  record : s'.fs.2 = s.fs.2 ++ closings closes (lost.map fun f => (s.files.file f).node) ++
    openings opens (gained.map fun f => (s'.files.file f).node) ++
    refused.map (.opened · false)

section

variable {vfs : Vfs σ} {opens closes : Word → Bool} {s s' : TaskSys (σ × List VfsCallback)}
  {t : Word} {arch : Arch} {hhdm : Word}

/-- A call that opens and closes nothing; a node may have refused. -/
theorem CallEffect.none {refused : List Word} (h : s'.Counted) (hlive : s'.liveFiles = s.liveFiles)
    (honce : refused.length ≤ 1) (hopens : ∀ node ∈ refused, opens node = true)
    (hfs : s'.fs.2 = s.fs.2 ++ refused.map (.opened · false)) :
    CallEffect opens closes s s' [] [] refused where
  counted := h
  gained_nodup := List.nodup_nil
  mem_gained f := by simp [hlive]
  lost_nodup := List.nodup_nil
  mem_lost f := by simp [hlive]
  once := by simpa using honce
  refused_opens := hopens
  record := by simp [hfs, closings, openings]

/-- A call that does nothing to files and callbacks. -/
theorem CallEffect.same (h : s'.Counted) (hlive : s'.liveFiles = s.liveFiles)
    (hfs : s'.fs.2 = s.fs.2) : CallEffect opens closes s s' [] [] [] :=
  .none h hlive (Nat.zero_le 1) (by simp) (by simpa using hfs)

/-- A call that opens one file. -/
theorem CallEffect.opened {f : Word} (h : s'.Counted) (hnew : f ∉ s.liveFiles)
    (hlive : s'.liveFiles = f :: s.liveFiles)
    (hfs : s'.fs.2 = s.fs.2 ++ openings opens [(s'.files.file f).node]) :
    CallEffect opens closes s s' [f] [] [] where
  counted := h
  gained_nodup := List.nodup_singleton f
  mem_gained g := by
    rw [hlive, List.mem_singleton, List.mem_cons]
    constructor
    · rintro rfl
      exact ⟨Or.inl rfl, hnew⟩
    · rintro ⟨rfl | hg, hout⟩
      · rfl
      · exact absurd hg hout
  lost_nodup := List.nodup_nil
  mem_lost g := by
    rw [hlive]
    simp only [List.not_mem_nil, false_iff, not_and, not_not]
    exact fun hg => List.mem_cons_of_mem _ hg
  once := le_rfl
  refused_opens := by simp
  record := by simp [hfs, closings]

/-- A call that empties slots. -/
theorem Closed.effect {lost : List Word} (h : Closed closes t s s' lost) :
    CallEffect opens closes s s' [] lost [] where
  counted := h.counted
  gained_nodup := List.nodup_nil
  mem_gained f := by
    simp only [List.not_mem_nil, false_iff, not_and, not_not]
    exact fun hf => h.live hf
  lost_nodup := h.nodup
  mem_lost := h.mem_lost
  once := by simp
  refused_opens := by simp
  record := by simp [h.record, openings]

/-- `task_destroy`. -/
theorem taskDestroy_effect (hops : StaticOps vfs opens closes) (h : s.Counted)
    (ht : t ∈ s.liveTasks) (hdestroy : taskDestroy (recorded vfs) arch hhdm s t = some s') :
    (∃ lost, CallEffect opens closes s s' [] lost []) ∧
      s'.liveTasks = s.liveTasks.erase t ∧ ∀ u ≠ t, s'.files.fds u = s.files.fds u := by
  rw [taskDestroy, if_neg (FilesOk.task_ne_zero h ht)] at hdestroy
  obtain ⟨⟨lost, hclosed⟩, hempty⟩ :=
    taskCloseFds_closed hops h ht (List.finRange maxOpenFiles)
  generalize (List.finRange maxOpenFiles).foldl (taskCloseFd (recorded vfs) t) s = s₁
    at hdestroy hclosed hempty
  obtain ⟨s₂, hcontext, hret⟩ := Option.bind_eq_some_iff.mp hdestroy
  cases hret
  -- the rest of the call leaves the files alone
  have hsame : SameFiles s₁ (archFpuFree (taskDropStack hhdm s₂ t) t) :=
    ((taskDropContext_same hcontext).trans taskDropStack_same).trans archFpuFree_same
  generalize archFpuFree (taskDropStack hhdm s₂ t) t = s₃ at hsame
  have hcounted : FilesOk s₃.files (s₃.liveTasks.erase t) s₃.liveFiles := by
    refine FilesOk.removeTask (hsame.counted hclosed.counted) fun fd => ?_
    rw [hsame.files]
    exact hempty fd (List.mem_finRange fd)
  have heffect : CallEffect opens closes s s₁ [] lost [] := hclosed.effect
  refine ⟨⟨lost, hcounted, List.nodup_nil, fun f => ?_, hclosed.nodup, fun f => ?_, by simp,
    by simp, ?_⟩, ?_, fun u hu => ?_⟩
  · have := heffect.mem_gained f
    rwa [← hsame.live] at this
  · have := heffect.mem_lost f
    rwa [← hsame.live] at this
  · have hrecord := heffect.record
    rw [← hsame.fs] at hrecord
    exact hrecord
  · change s₃.liveTasks.erase t = _
    rw [hsame.tasks, hclosed.tasks]
  · change s₃.files.fds u = _
    rw [hsame.files]
    funext fd
    rcases hclosed.slots u fd with heq | ⟨hut, -⟩
    · rw [heq]
    · exact absurd hut hu

/-! ## Opening -/

/-- The state after `file_open_node` on `node` for the task `t`, with the books: `kmalloc` returned
`f`, and the result is `opened`. -/
structure OpenedNode (opens : Word → Bool) (t node f opened : Word)
    (s s₁ : TaskSys (σ × List VfsCallback)) : Prop where
  only : FilesOnly s s₁
  tasks : s₁.liveTasks = s.liveTasks
  fds : s₁.files.fds = s.files.fds
  current : s₁.files.current = s.files.current
  others : ∀ g ≠ f, s₁.files.file g = s.files.file g
  /-- There is no file, perhaps because the node refused, or the file is new. -/
  ends : (opened = 0 ∧ s₁.liveFiles = s.liveFiles ∧ ∃ refused : List Word, refused.length ≤ 1 ∧
      (∀ n ∈ refused, opens n = true) ∧ s₁.fs.2 = s.fs.2 ++ refused.map (.opened · false) ∧
      (s₁.log = s.log ∨ s₁.log = .drop t (.file f) :: .gain t (.file f) :: s.log)) ∨
    (opened = f ∧ f ≠ 0 ∧ s₁.liveFiles = f :: s.liveFiles ∧ (s₁.files.file f).refCount = 1 ∧
      (s₁.files.file f).node = node ∧ s₁.fs.2 = s.fs.2 ++ openings opens [node] ∧
      s₁.log = .gain t (.ref f) :: .gain t (.file f) :: s.log)

variable (t) in
theorem openedNode (hops : StaticOps vfs opens closes) {node : Word} (hnode : node ≠ 0)
    (f : Word) (flags : BitVec 32) (answers : List Word) :
    ∃ opened fs files, fileOpenNode (recorded vfs) s.fs s.files f node flags = (opened, fs, files) ∧
      OpenedNode opens t node f opened s
        ({ s with fs, files, answers }.noteOpen t f opened) := by
  by_cases hf : f = 0
  · -- no memory
    refine ⟨0, s.fs, s.files, ?_, ?_⟩
    · rw [fileOpenNode, if_neg hnode, if_pos hf]
    · rw [TaskSys.noteOpen, if_pos hf]
      exact ⟨⟨rfl, rfl, rfl, rfl⟩, rfl, rfl, rfl, fun _ _ => rfl,
        Or.inl ⟨rfl, rfl, [], Nat.zero_le 1, by simp, by simp, Or.inl rfl⟩⟩
  obtain ⟨opened, fs, files, hopen, hfds, hcurrent, hothers, hcases⟩ :=
    fileOpenNode_recorded s.fs s.files hops hf hnode flags
  refine ⟨opened, fs, files, hopen, ?_⟩
  rcases hcases with ⟨rfl, hopens, hrecord⟩ | ⟨rfl, hcount, hnode', hrecord⟩
  · rw [TaskSys.noteOpen, if_neg hf, if_pos rfl]
    exact ⟨⟨rfl, rfl, rfl, rfl⟩, rfl, hfds, hcurrent, hothers,
      Or.inl ⟨rfl, rfl, [node], le_rfl, by simp [hopens], hrecord, Or.inr rfl⟩⟩
  · rw [TaskSys.noteOpen, if_neg hf, if_neg hf]
    exact ⟨⟨rfl, rfl, rfl, rfl⟩, rfl, hfds, hcurrent, hothers,
      Or.inr ⟨rfl, hf, rfl, hcount, hnode', hrecord, rfl⟩⟩

namespace OpenedNode

variable {node f opened : Word} {s₁ : TaskSys (σ × List VfsCallback)}

/-- What is new with the file. -/
theorem gained (h : OpenedNode opens t node f f s s₁) (hf : f ≠ 0) :
    s₁.liveFiles = f :: s.liveFiles ∧ (s₁.files.file f).refCount = 1 ∧
      (s₁.files.file f).node = node ∧ s₁.fs.2 = s.fs.2 ++ openings opens [node] ∧
      s₁.log = .gain t (.ref f) :: .gain t (.file f) :: s.log := by
  rcases h.ends with ⟨hzero, -⟩ | ⟨-, -, hnew⟩
  · exact absurd hzero hf
  · exact hnew

variable (closes) in
/-- Without a file the open files are as before. -/
theorem effect_none (h : OpenedNode opens t node f 0 s s₁) (hs : s.Counted)
    (hnew : f ∉ s.liveFiles) :
    s₁.liveFiles = s.liveFiles ∧ ∃ refused, CallEffect opens closes s s₁ [] [] refused := by
  rcases h.ends with ⟨-, hlive, refused, honce, hopens, hfs, -⟩ | ⟨hzero, hf, -⟩
  · refine ⟨hlive, refused, .none ?_ hlive honce hopens hfs⟩
    rw [TaskSys.Counted, h.tasks, hlive]
    exact FilesOk.congr hs h.fds fun g hg => by rw [h.others g fun hgf => hnew (hgf ▸ hg)]
  · exact absurd hzero.symm hf

end OpenedNode

variable (vfs) in
theorem taskRefFd_eq {f : Word} (hf : f ≠ 0) (hcount : (s.files.file f).refCount ≠ 0)
    (fd : Fin maxOpenFiles) :
    taskRefFd (recorded vfs) s t fd f =
      (f, ({ s with files := s.files.setRefCount f ((s.files.file f).refCount + 1) }.gain t
        (.ref f)).setFd t fd f) := by
  simp only [taskRefFd, fileRef_recorded s.fs s.files hf hcount, if_neg hf]

/-- Three slots of the task `t` share the file `f`, with two more references. -/
structure SharedStd (t f : Word) (s s' : TaskSys (σ × List VfsCallback)) : Prop where
  only : FilesOnly s s'
  tasks : s'.liveTasks = s.liveTasks
  live : s'.liveFiles = s.liveFiles
  fs : s'.fs = s.fs
  fds : s'.files.fds = (((s.files.setFd t 0 f).setFd t 1 f).setFd t 2 f).fds
  nodes : ∀ g, (s'.files.file g).node = (s.files.file g).node
  log : s'.log = .gain t (.ref f) :: .gain t (.ref f) :: s.log
  counted : (s.setFd t 0 f).Counted → t ∈ s.liveTasks → (∀ fd, s.files.fds t fd = 0) → s'.Counted

variable (vfs) in
theorem taskShareStd_spec {f : Word} (hf : f ≠ 0) (hcount : (s.files.file f).refCount = 1) :
    ∃ s', taskShareStd (recorded vfs) s t f = (0, s') ∧ SharedStd t f s s' := by
  have h₁ := taskRefFd_eq (s := s.setFd t 0 f) (t := t) vfs hf
    (show (s.files.file f).refCount ≠ 0 by omega) 1
  have hcount₁ : ((s.files.setRefCount f ((s.files.file f).refCount + 1)).file f).refCount ≠ 0 := by
    rw [Files.refCount_setRefCount_self]
    omega
  have h₂ := taskRefFd_eq (s := ({ s.setFd t 0 f with
    files := (s.setFd t 0 f).files.setRefCount f (((s.setFd t 0 f).files.file f).refCount + 1)
    }.gain t (.ref f)).setFd t 1 f) (t := t) vfs hf hcount₁ 2
  simp only [taskShareStd, h₁, h₂, if_neg hf]
  refine ⟨_, rfl, ⟨rfl, rfl, rfl, rfl⟩, rfl, rfl, rfl, rfl, fun g => ?_, rfl, fun hs ht hfree => ?_⟩
  · exact (Files.node_setRefCount ..).trans (Files.node_setRefCount ..)
  · have hslot : ∀ fd ≠ 0, (s.files.setFd t 0 f).fds t fd = 0 := fun fd hfd => by
      rw [Files.fds_setFd_slot hfd, hfree]
    have hok := FilesOk.refFile hs ht (hslot 1 (by decide)) hf
      (Files.refs_pos_iff.mpr ⟨0, Files.fds_setFd_self⟩)
    have hlast : ((s.files.setFd t 0 f).setFd t 1 f).fds t 2 = 0 := by
      rw [Files.fds_setFd_slot (by decide)]
      exact hslot 2 (by decide)
    exact FilesOk.refFile hok ht hlast hf (Files.refs_pos_iff.mpr ⟨1, Files.fds_setFd_self⟩)

/-- How `task_open_std_fds` ends: there is no console, it was not opened, or three slots share it. -/
theorem taskOpenStdFds_ends (hops : StaticOps vfs opens closes) :
    taskOpenStdFds (recorded vfs) s t = (-enoent, s) ∨
    ∃ node f opened s₁, s.answers.headD 0 = f ∧ OpenedNode opens t node f opened s s₁ ∧
      ((opened = 0 ∧ taskOpenStdFds (recorded vfs) s t = (-enomem, s₁)) ∨
        (opened = f ∧ f ≠ 0 ∧ ∃ s', taskOpenStdFds (recorded vfs) s t = (0, s') ∧
          SharedStd t f s₁ s')) := by
  by_cases hconsole : (recorded vfs).lookup s.fs consolePath = 0
  · exact Or.inl (if_pos hconsole)
  obtain ⟨opened, fs, files, hopen, hnode⟩ :=
    openedNode t hops hconsole (s.answers.headD 0) oRdwr s.answers.tail
  generalize hnote : TaskSys.noteOpen _ t _ opened = s₁ at hnode
  refine Or.inr ⟨_, _, opened, s₁, rfl, hnode, ?_⟩
  have hcall : taskOpenStdFds (recorded vfs) s t =
      if opened = 0 then (-enomem, s₁) else taskShareStd (recorded vfs) s₁ t opened := by
    simp only [taskOpenStdFds, TaskSys.kmalloc, if_neg hconsole, hopen, hnote]
  rw [hcall]
  rcases hnode.ends with ⟨rfl, -⟩ | ⟨rfl, hf, -, hcount, -⟩
  · exact Or.inl ⟨rfl, if_pos rfl⟩
  · obtain ⟨s', hshare, hshared⟩ := taskShareStd_spec (t := t) vfs hf hcount
    exact Or.inr ⟨rfl, hf, s', (if_neg hf).trans hshare, hshared⟩

/-- `task_open_std_fds` on a task without files. The next block that `kmalloc` returns is none of
the open files. -/
theorem taskOpenStdFds_effect (hops : StaticOps vfs opens closes) (h : s.Counted)
    (ht : t ∈ s.liveTasks) (hempty : ∀ fd, s.files.fds t fd = 0)
    (hfresh : s.answers.headD 0 ∉ s.liveFiles) :
    ∃ res s', taskOpenStdFds (recorded vfs) s t = (res, s') ∧ s'.liveTasks = s.liveTasks ∧
      (∀ u ≠ t, s'.files.fds u = s.files.fds u) ∧
      ((res = 0 ∧ ∃ f, CallEffect opens closes s s' [f] [] []) ∨
        (res ≠ 0 ∧ s'.files.fds = s.files.fds ∧ s'.liveFiles = s.liveFiles ∧
          ∃ refused, CallEffect opens closes s s' [] [] refused)) := by
  rcases taskOpenStdFds_ends (t := t) (s := s) hops with
    hnone | ⟨node, f, opened, s₁, rfl, hnode, ⟨rfl, hcall⟩ | ⟨rfl, hf, s', hcall, hshare⟩⟩
  · exact ⟨-enoent, s, hnone, rfl, fun _ _ => rfl,
      Or.inr ⟨by decide, rfl, rfl, [], .same h rfl rfl⟩⟩
  · exact ⟨_, s₁, hcall, hnode.tasks, fun u _ => by rw [hnode.fds],
      Or.inr ⟨by decide, hnode.fds, hnode.effect_none closes h hfresh⟩⟩
  · generalize s.answers.headD 0 = f at *
    obtain ⟨hlive, hcount, hname, hfs, -⟩ := hnode.gained hf
    -- three references to the new file
    have hfirst : (s₁.setFd t 0 f).Counted := by
      rw [TaskSys.Counted, TaskSys.setFd, hlive, hnode.tasks]
      exact FilesOk.openFile h ht (hempty 0) hf hfresh hnode.fds hcount hnode.others
    refine ⟨0, s', hcall, hshare.tasks.trans hnode.tasks, fun u hu => ?_, Or.inl ⟨rfl, f, .opened
      (hshare.counted hfirst (hnode.tasks ▸ ht) fun fd => by rw [hnode.fds, hempty])
      hfresh (hshare.live.trans hlive) ?_⟩⟩
    · funext fd
      rw [hshare.fds, Files.fds_setFd_task hu, Files.fds_setFd_task hu, Files.fds_setFd_task hu,
        hnode.fds]
    · rw [hshare.fs, hfs, hshare.nodes, hname]

/-- A call that starts where the open files are those of `s`. -/
theorem CallEffect.of_start {s₁ : TaskSys (σ × List VfsCallback)} {gained lost refused : List Word}
    (h : CallEffect opens closes s₁ s' gained lost refused) (hlive : s₁.liveFiles = s.liveFiles)
    (hfile : s₁.files.file = s.files.file) (hfs : s₁.fs = s.fs) :
    CallEffect opens closes s s' gained lost refused := by
  obtain ⟨hcounted, hgained, hmemGained, hlost, hmemLost, honce, hrefused, hrecord⟩ := h
  rw [hfile, hfs] at hrecord
  rw [hlive] at hmemGained hmemLost
  exact ⟨hcounted, hgained, hmemGained, hlost, hmemLost, honce, hrefused, hrecord⟩

/-- A call that goes on without touching the open files. -/
theorem CallEffect.of_end {s₁ : TaskSys (σ × List VfsCallback)} {gained lost refused : List Word}
    (h : CallEffect opens closes s s₁ gained lost refused) (hcounted : s'.Counted)
    (hlive : s'.liveFiles = s₁.liveFiles) (hfiles : s'.files = s₁.files) (hfs : s'.fs = s₁.fs) :
    CallEffect opens closes s s' gained lost refused := by
  obtain ⟨-, hgained, hmemGained, hlost, hmemLost, honce, hrefused, hrecord⟩ := h
  rw [← hfiles, ← hfs] at hrecord
  rw [← hlive] at hmemGained hmemLost
  exact ⟨hcounted, hgained, hmemGained, hlost, hmemLost, honce, hrefused, hrecord⟩

/-- Closing the slots of a task without files does nothing. -/
theorem taskCloseFds_of_empty {σ : Type} {vfs : Vfs σ} {s : TaskSys σ} {t : Word}
    (hempty : ∀ fd, s.files.fds t fd = 0) (fds : List (Fin maxOpenFiles)) :
    fds.foldl (taskCloseFd vfs t) s = s := by
  induction fds with
  | nil => rfl
  | cons fd fds ih => rw [List.foldl_cons, taskCloseFd, if_pos (hempty fd), ih]

/-- `task_destroy` of a task without files. -/
theorem taskDestroy_of_empty (h : s.Counted) (ht : t ∈ s.liveTasks)
    (hempty : ∀ fd, s.files.fds t fd = 0)
    (hdestroy : taskDestroy (recorded vfs) arch hhdm s t = some s') :
    s'.Counted ∧ s'.liveTasks = s.liveTasks.erase t ∧ s'.liveFiles = s.liveFiles ∧
      s'.files = s.files ∧ s'.fs = s.fs := by
  rw [taskDestroy, if_neg (FilesOk.task_ne_zero h ht), taskCloseFds_of_empty hempty] at hdestroy
  obtain ⟨s₂, hcontext, hret⟩ := Option.bind_eq_some_iff.mp hdestroy
  cases hret
  have hsame : SameFiles s (archFpuFree (taskDropStack hhdm s₂ t) t) :=
    ((taskDropContext_same hcontext).trans taskDropStack_same).trans archFpuFree_same
  generalize archFpuFree (taskDropStack hhdm s₂ t) t = s₃ at hsame
  refine ⟨?_, congrArg (·.erase t) hsame.tasks, hsame.live, hsame.files, hsame.fs⟩
  change FilesOk s₃.files (s₃.liveTasks.erase t) s₃.liveFiles
  rw [hsame.files, hsame.tasks, hsame.live]
  exact FilesOk.removeTask h hempty

/-- A block that was returned is one of the answers. -/
theorem mem_of_headD {answers : List Word} {a : Word} (h : answers.headD 0 = a) (ha : a ≠ 0) :
    a ∈ answers := by
  cases answers with
  | nil => exact absurd h.symm ha
  | cons b answers => exact h ▸ List.mem_cons_self

/-- The blocks that `kmalloc` and `kcalloc` return are in no use. -/
structure FreshAnswers (s : TaskSys σ) : Prop where
  nodup : (s.answers.filter (· ≠ 0)).Nodup
  tasks : ∀ a ∈ s.answers, a ∉ s.liveTasks
  files : ∀ a ∈ s.answers, a ∉ s.liveFiles
  kernel : ∀ a ∈ s.answers, a ≠ 0 → a ≠ s.vmmKernelContext

theorem taskNew_body (s : TaskSys σ) (t name : Word) : (taskNew s t name).body t =
    { TaskBody.zero with pid := s.nextPid, state := .ready, name } :=
  Function.update_self t _ s.body

theorem taskNew_fds (s : TaskSys σ) (t name : Word) (fd : Fin maxOpenFiles) :
    (taskNew s t name).files.fds t fd = 0 :=
  congrFun (Function.update_self t _ s.files.fds) fd

theorem taskNew_counted (h : s.Counted) (hnew : t ∉ s.liveTasks) (ht : t ≠ 0) (name : Word) :
    (taskNew s t name).Counted :=
  FilesOk.addTask h hnew ht rfl (fun _ hu => Function.update_of_ne hu _ _) (taskNew_fds s t name)

/-- `task_inner_create` ends before it opens a file, or with `task_open_std_fds`. -/
theorem TaskBuild.before_files {σ : Type} {vfs : Vfs σ} {s s' : TaskSys σ} {name top ctx : Word}
    {done : Bool} (hbuild : TaskBuild vfs arch hhdm s t name top ctx done s') :
    (done = false ∧ SameFiles (taskNew s t name) s') ∨
      ∃ s₃ res, SameFiles (taskNew s t name) s₃ ∧ taskOpenStdFds vfs s₃ t = (res, s') ∧
        (done = true ↔ res = 0) := by
  cases hbuild with
  | noFpu hfpu => exact Or.inl ⟨rfl, archFpuInit_same hfpu⟩
  | noStack hfpu hstack =>
    exact Or.inl ⟨rfl, (archFpuInit_same hfpu).trans (taskTakeStack_same hstack)⟩
  | noContext hfpu hstack hctx =>
    exact Or.inl ⟨rfl, ((archFpuInit_same hfpu).trans (taskTakeStack_same hstack)).trans
      (taskTakeContext_same hctx)⟩
  | noFiles hfpu hstack hctx hfiles hres =>
    exact Or.inr ⟨_, _, ((archFpuInit_same hfpu).trans (taskTakeStack_same hstack)).trans
      (taskTakeContext_same hctx), hfiles, iff_of_false (by decide) hres⟩
  | built hfpu hstack hctx hfiles =>
    exact Or.inr ⟨_, _, ((archFpuInit_same hfpu).trans (taskTakeStack_same hstack)).trans
      (taskTakeContext_same hctx), hfiles, iff_of_true rfl rfl⟩

/-- What `task_inner_create` did to the open files when it ends. -/
theorem TaskBuild.effect {name top ctx : Word} {done : Bool}
    (hops : StaticOps vfs opens closes) (h : s.Counted) (hnew : t ∉ s.liveTasks) (ht : t ≠ 0)
    (hfresh : ∀ a ∈ s.answers, a ∉ s.liveFiles)
    (hbuild : TaskBuild (recorded vfs) arch hhdm s t name top ctx done s') :
    s'.liveTasks = t :: s.liveTasks ∧ (∀ u ≠ t, s'.files.fds u = s.files.fds u) ∧
      (done = true → ∃ f, CallEffect opens closes s s' [f] [] []) ∧
      (done = false → (∀ fd, s'.files.fds t fd = 0) ∧ s'.liveFiles = s.liveFiles ∧
        ∃ refused, CallEffect opens closes s s' [] [] refused) := by
  -- where nothing was opened
  have hquiet : ∀ {s₁ : TaskSys (σ × List VfsCallback)}, SameFiles (taskNew s t name) s₁ →
      (∀ u ≠ t, s₁.files.fds u = s.files.fds u) ∧ (∀ fd, s₁.files.fds t fd = 0) ∧
      s₁.Counted := by
    intro s₁ hsame
    refine ⟨fun u hu => ?_, fun fd => ?_, hsame.counted (taskNew_counted h hnew ht name)⟩
    · rw [hsame.files]
      exact Function.update_of_ne hu _ _
    · rw [hsame.files, taskNew_fds]
  rcases hbuild.before_files with ⟨rfl, hsame⟩ | ⟨s₃, res, hsame, hopen, hdone⟩
  · obtain ⟨hothers, hnone, hcounted⟩ := hquiet hsame
    exact ⟨hsame.tasks, hothers, nofun, fun _ => ⟨hnone, hsame.live, [],
      .same hcounted hsame.live (by rw [hsame.fs]; rfl)⟩⟩
  obtain ⟨hothers, hnone, hcounted⟩ := hquiet hsame
  have hhead : s₃.answers.headD 0 ∉ s₃.liveFiles := by
    cases hlist : s₃.answers with
    | nil => exact hcounted.file_ne
    | cons a answers =>
      rw [hsame.live]
      exact hfresh a (hsame.answers.subset (by rw [hlist]; exact List.mem_cons_self))
  obtain ⟨res', s₄, hopen', htasks, hothers', hcases⟩ := taskOpenStdFds_effect hops hcounted
    (show t ∈ s₃.liveTasks by rw [hsame.tasks]; exact List.mem_cons_self) hnone hhead
  cases hopen.symm.trans hopen'
  have hfile : s₃.files.file = s.files.file := by
    rw [hsame.files]
    rfl
  refine ⟨htasks.trans hsame.tasks, fun u hu => (hothers' u hu).trans (hothers u hu), fun htrue => ?_,
    fun hfalse => ?_⟩
  · rcases hcases with ⟨-, f, heffect⟩ | ⟨hres, -⟩
    · exact ⟨f, heffect.of_start hsame.live hfile hsame.fs⟩
    · exact absurd (hdone.mp htrue) hres
  · rcases hcases with ⟨hres, -⟩ | ⟨-, hfds, hlive, refused, heffect⟩
    · exact absurd ((hdone.mpr hres).symm.trans hfalse) (by decide)
    · exact ⟨fun fd => by rw [hfds, hnone], hlive.trans hsame.live, refused,
        heffect.of_start hsame.live hfile hsame.fs⟩

/-- `task_inner_create`. -/
theorem taskInnerCreate_effect {name top ctx r : Word} (hops : StaticOps vfs opens closes)
    (h : s.Counted) (hfresh : FreshAnswers s)
    (hcreate : taskInnerCreate (recorded vfs) arch hhdm s name top ctx = some (r, s')) :
    (∀ u ∈ s.liveTasks, s'.files.fds u = s.files.fds u) ∧
      ((r = 0 ∧ s'.liveTasks = s.liveTasks ∧ s'.liveFiles = s.liveFiles ∧
          ∃ refused, CallEffect opens closes s s' [] [] refused) ∨
        (r ≠ 0 ∧ r ∉ s.liveTasks ∧ s'.liveTasks = r :: s.liveTasks ∧
          ∃ f, CallEffect opens closes s s' [f] [] [])) := by
  rcases taskInnerCreate_cases hcreate with ⟨-, rfl, rfl⟩ | ⟨t, s₁, hhead, ht, hends⟩
  · exact ⟨fun _ _ => rfl, Or.inl ⟨rfl, rfl, rfl, [], .same h rfl rfl⟩⟩
  have hnew := hfresh.tasks t (mem_of_headD hhead ht)
  have hne : ∀ u ∈ s.liveTasks, u ≠ t := fun u hu hut => hnew (hut ▸ hu)
  have hfiles : ∀ a ∈ s.answers.tail, a ∉ s.liveFiles := fun a ha =>
    hfresh.files a (List.mem_of_mem_tail ha)
  have h₀ : ({ s with answers := s.answers.tail } : TaskSys (σ × List VfsCallback)).Counted := h
  rcases hends with ⟨hbuild, rfl, rfl⟩ | ⟨hbuild, rfl, hdestroy⟩
  · obtain ⟨htasks, hothers, hdone, -⟩ := hbuild.effect hops h₀ hnew ht hfiles
    obtain ⟨f, heffect⟩ := hdone rfl
    exact ⟨fun u hu => hothers u (hne u hu),
      Or.inr ⟨ht, hnew, htasks, f, heffect.of_start rfl rfl rfl⟩⟩
  · obtain ⟨htasks, hothers, -, hfailed⟩ := hbuild.effect hops h₀ hnew ht hfiles
    obtain ⟨hempty, hlive, refused, heffect⟩ := hfailed rfl
    obtain ⟨hcounted, htasks', hlive', hfiles', hfs'⟩ := taskDestroy_of_empty heffect.counted
      (by rw [htasks]; exact List.mem_cons_self) hempty hdestroy
    refine ⟨fun u hu => ?_, Or.inl ⟨rfl, ?_, hlive'.trans hlive, refused,
      (heffect.of_end hcounted hlive' hfiles' hfs').of_start rfl rfl rfl⟩⟩
    · rw [hfiles', hothers u (hne u hu)]
    · rw [htasks', htasks, List.erase_cons_head]

end

end Pros
