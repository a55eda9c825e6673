import Pros.Proc.TaskLife
import Pros.Vmm.Spaces

/-!
# A failed `task_create_user` and the context of its caller

`task_create_user` is given a context, and a task that was made owns it. When something fails before
the context is noted in the task, the destructor does not know of it. When the console is missing or
cannot be opened, the destructor sees a context that is not the kernel's and destroys it, although
the caller still has it.
-/

namespace Pros

open Ledger (balance)

variable {σ : Type}

/-- The context `ctx` is as it was: nobody gave it back, and its struct and all its translations are
the same. -/
structure ContextIntact (arch : Arch) (hhdm : Word) (s s' : TaskSys σ) (ctx : Word) : Prop where
  kept : ∃ events, s'.log = events ++ s.log ∧ ∀ t, .drop t (.context ctx) ∉ events
  struct : s'.contexts ctx = s.contexts ctx
  mappings : ∀ va, ctxTranslate arch hhdm s'.vmm (s'.contexts ctx) va =
    ctxTranslate arch hhdm s.vmm (s.contexts ctx) va

/-- Everything that the call took was for one task, which is not there, and was given back. -/
def CallReleased (s s' : TaskSys σ) : Prop :=
  s'.liveTasks = s.liveTasks ∧ ∃ t ∉ s.liveTasks, ∃ events : List TaskEvent,
    s'.log = events ++ s.log ∧ (∀ e ∈ events, e.owner = t) ∧ Ledger.Balanced t events

/-! ## The structs of contexts -/

section

variable {vfs : Vfs σ} {opens closes : Word → Bool} {s s' : TaskSys (σ × List VfsCallback)}
  {arch : Arch} {hhdm t name top ctx : Word} {done : Bool}

/-- A task on a given context leaves the structs of the contexts alone. -/
theorem TaskBuild.contexts (hops : StaticOps vfs opens closes) (hctx : ctx ≠ 0)
    (h : TaskBuild (recorded vfs) arch hhdm s t name top ctx done s') :
    s'.contexts = s.contexts := by
  have hfpu : ∀ {res : Int} {s₁ : TaskSys (σ × List VfsCallback)},
      archFpuInit (taskNew s t name) t = (res, s₁) → s₁.contexts = s.contexts := by
    intro res s₁ hinit
    obtain ⟨-, -, ⟨rfl, -⟩ | ⟨-, rfl⟩⟩ := archFpuInit_spec hinit
    · rfl
    · rfl
  have hstack : ∀ {ok : Bool} {s₁ s₂ : TaskSys (σ × List VfsCallback)},
      taskTakeStack hhdm s₁ t top = some (ok, s₂) → s₂.contexts = s₁.contexts := by
    intro ok s₁ s₂ htake
    rcases taskTakeStack_spec htake with
      ⟨-, -, rfl⟩ | ⟨-, base, vmm, -, ⟨-, -, rfl⟩ | ⟨-, -, rfl⟩⟩
    · rfl
    · rfl
    · rfl
  have hgiven : ∀ {ok : Bool} {s₂ s₃ : TaskSys (σ × List VfsCallback)},
      taskTakeContext arch hhdm s₂ t ctx = some (ok, s₃) → s₃.contexts = s₂.contexts := by
    intro ok s₂ s₃ htake
    obtain ⟨-, -, rfl⟩ | ⟨hnone, -⟩ := taskTakeContext_spec htake
    · split
      · rfl
      · rfl
    · exact absurd hnone hctx
  cases h with
  | noFpu hinit => exact hfpu hinit
  | noStack hinit htake => exact (hstack htake).trans (hfpu hinit)
  | noContext hinit htake hgive => exact ((hgiven hgive).trans (hstack htake)).trans (hfpu hinit)
  | noFiles hinit htake hgive hopen | built hinit htake hgive hopen =>
    obtain ⟨hsame, -⟩ := taskOpenStdFds_cases hops hopen
    exact ((hsame.contexts.trans (hgiven hgive)).trans (hstack htake)).trans (hfpu hinit)

theorem taskDestroy_contexts (ht : t ≠ 0) (h : taskDestroy (recorded vfs) arch hhdm s t = some s') :
    s'.contexts = s.contexts := by
  obtain ⟨s₂, hcontext, rfl⟩ := taskDestroy_cases ht h
  have hsame := taskCloseFds_filesOnly (recorded vfs) t s (List.finRange maxOpenFiles)
  generalize (List.finRange maxOpenFiles).foldl (taskCloseFd (recorded vfs) t) s = s₁ at *
  have hfinish : (archFpuFree (taskDropStack hhdm s₂ t) t).contexts = s₂.contexts := by
    simp only [archFpuFree, taskDropStack, kstackFree]
    split <;> split <;> rfl
  refine hfinish.trans (Eq.trans ?_ hsame.contexts)
  obtain ⟨-, -, ⟨-, rfl⟩ | ⟨-, vmm, rfl⟩⟩ := taskDropContext_cases hcontext
  · rfl
  · rfl

/-- The destructor gives back a context that is not the kernel's. -/
theorem taskDestroy_drops (ht : t ≠ 0) (hne : (s.body t).vmmContext ≠ 0)
    (hkernel : (s.body t).vmmContext ≠ s.vmmKernelContext)
    (h : taskDestroy (recorded vfs) arch hhdm s t = some s') :
    ∃ events, s'.log = events ++ s.log ∧ .drop t (.context (s.body t).vmmContext) ∈ events := by
  obtain ⟨s₂, hcontext, rfl⟩ := taskDestroy_cases ht h
  have hclosed : ByTask (fun _ => True) t s
      ((List.finRange maxOpenFiles).foldl (taskCloseFd (recorded vfs) t) s) :=
    taskCloseFds_by (fun _ => trivial) (fun _ => trivial) _
  have hsame := taskCloseFds_filesOnly (recorded vfs) t s (List.finRange maxOpenFiles)
  generalize (List.finRange maxOpenFiles).foldl (taskCloseFd (recorded vfs) t) s = s₁ at *
  have hfinish : ByTask (fun _ => True) t s₂ (({ archFpuFree (taskDropStack hhdm s₂ t) t with
      liveTasks := (archFpuFree (taskDropStack hhdm s₂ t) t).liveTasks.erase t }).drop t
        (.task t)) :=
    taskFinish_by (fun _ => trivial) trivial trivial
  obtain ⟨closed, hlog₁, -⟩ := hclosed.events
  obtain ⟨finish, hlog₃, -⟩ := hfinish.events
  obtain ⟨-, -, ⟨hnot, -⟩ | ⟨-, vmm, hs₂⟩⟩ := taskDropContext_cases hcontext
  · rw [hsame.body, hsame.kernel] at hnot
    exact absurd hnot (not_or.mpr ⟨hne, hkernel⟩)
  · refine ⟨finish ++ .drop t (.context (s.body t).vmmContext) :: closed, ?_, by simp⟩
    have hlog₂ : s₂.log = .drop t (.context (s₁.body t).vmmContext) :: s₁.log := by
      rw [hs₂]
      rfl
    rw [hlog₃, hlog₂, hlog₁, hsame.body, List.append_assoc, List.cons_append]

end

/-! ## The machine -/

section

variable {arch : Arch} {hhdm top base : Word} {v v' : Vmm} {kind : Word → Option ℕ}
  {roots free : List Word} {ctx : VmmContext} {done : Bool}

/-- Taking a stack and giving it back changes no translation. -/
theorem StackPlaced.ctxTranslate_eq (hh : HhdmOk hhdm)
    (hspaces : Spaces arch hhdm kind v.pmm roots free) (hroots : ContextRoots arch hhdm v ctx roots)
    (h : StackPlaced hhdm top v v' base done) (va : Word) :
    ctxTranslate arch hhdm (stackFreed hhdm v' base) ctx va = ctxTranslate arch hhdm v ctx va := by
  rcases h with ⟨rfl, rfl, -⟩ | ⟨-, -, halloc⟩
  · rw [stackFreed, if_pos rfl]
  obtain ⟨-, hrest, hmem⟩ := halloc.freed hh hspaces.list
  -- the tables are in no page that was free
  have hslots : ∀ t l, kind t = some l → ∀ i,
      (stackFreed hhdm v' base).pmm.slot hhdm t i = v.pmm.slot hhdm t i := by
    intro t l ht i
    refine slot_congr fun x hx => hmem x fun p hp hlt => ?_
    refine (hspaces.list.page p hp).apart hh (hspaces.page t l ht) ?_ x hlt hx
    rintro rfl
    exact hspaces.used p l ht hp
  rw [ctxTranslate, ctxTranslate, hrest, vmmRoot_setPmm]
  exact hspaces.hwWalk_eq hslots (hspaces.root _ (hroots.root va)) (pageNumber va)

/-- With a list of free pages, `kstack_alloc` fails when `pmm_alloc` does, and then nothing changed. -/
theorem KstackAllocated.eq_zero_iff (hh : HhdmOk hhdm) (hfree : FreeList hhdm v.pmm free)
    (h : KstackAllocated hhdm v v' base) :
    base = 0 ↔ ∃ pmm, pmmAlloc hhdm v.pmm kstackPages = some (0, pmm) := by
  obtain ⟨phys, pmm, halloc, hcases⟩ := h
  constructor
  · intro hbase
    obtain ⟨rfl, -⟩ | ⟨hne, hvirt, -⟩ := hcases
    · exact ⟨pmm, halloc⟩
    · exfalso
      rcases hfree.alloc hh (show kstackPages ≠ 0 by decide) with
        ⟨hnone, -⟩ | ⟨pre, first, post, pmm', rfl, -, hsome, -⟩
      · exact hne (congrArg Prod.fst (Option.some.inj (halloc.symm.trans hnone)))
      · cases halloc.symm.trans hsome
        have hmem : phys ∈ pmmBlock phys kstackPages.toNat :=
          mem_pmmBlock_iff.mpr ⟨0, by decide, by simp⟩
        have hpage := hfree.page phys
          (List.mem_append_right _ (List.mem_append_left _ (List.mem_reverse.mpr hmem)))
        exact hpage.virt_ne_zero (hvirt.symm.trans hbase)
  · rintro ⟨pmm', hzero⟩
    cases halloc.symm.trans hzero
    obtain ⟨-, hbase, -⟩ | ⟨hne, -⟩ := hcases
    · exact hbase
    · exact absurd rfl hne

end

/-! ## The call -/

section

variable {vfs : Vfs σ} {opens closes : Word → Bool} {s s' s₀ : TaskSys (σ × List VfsCallback)}
  {arch : Arch} {hhdm name ctx : Word} {answers : List Word} {kind : Word → Option ℕ}
  {roots free : List Word}

/-- A call that fails has given back what it took. -/
theorem taskInnerCreate_released {top : Word} (hops : StaticOps vfs opens closes) (h : s.Counted)
    (hl : LedgerOk hhdm s) (hfresh : FreshAnswers s)
    (hcall : taskInnerCreate (recorded vfs) arch hhdm s name top ctx = some (0, s')) :
    CallReleased s s' := by
  have hscope : ∀ t, MakingScope (fun _ => True) s t top ctx := fun t =>
    ⟨trivial, fun _ => trivial, fun _ _ => trivial, fun _ _ => trivial, fun _ _ _ _ => trivial,
      fun _ => trivial, fun _ => trivial⟩
  obtain ⟨-, t, hnew, hby, hl', ⟨-, hgone, -⟩ | ⟨-, hne, -⟩⟩ :=
    taskInnerCreate_ledger hops h hl hfresh hscope hcall
  swap
  · exact absurd rfl hne
  obtain ⟨-, ⟨-, htasks, -⟩ | ⟨hne, -⟩⟩ := taskInnerCreate_effect hops h hfresh hcall
  swap
  · exact absurd rfl hne
  obtain ⟨events, hlog, hevents⟩ := hby.events
  have hafter := hl'.dead t hgone
  rw [hlog] at hafter
  exact ⟨htasks, t, hnew, events, hlog, fun e he => (hevents e he).1,
    Ledger.balanced_of_balance (hl.dead t hnew) hafter⟩

/-- The context survives a task that is destroyed without it, or with the kernel's. -/
theorem ContextIntact.of_destroy {s₁ : TaskSys (σ × List VfsCallback)} {t ctx' : Word}
    (hbuild : TaskBuild (recorded vfs) arch hhdm s t name 0 ctx' false s₁)
    (hmade : Making (· ≠ .context ctx) hhdm t s s₁) (hops : StaticOps vfs opens closes)
    (hh : HhdmOk hhdm) (ht : t ≠ 0) (hctx' : ctx' ≠ 0)
    (hspaces : Spaces arch hhdm kind s.vmm.pmm roots free)
    (hroots : ContextRoots arch hhdm s.vmm (s.contexts ctx) roots)
    (hown : (s₁.body t).vmmContext = 0 ∨ (s₁.body t).vmmContext = s₁.vmmKernelContext)
    (hplaced : StackPlaced hhdm 0 s.vmm s₁.vmm (s₁.body t).kernelStackBase false)
    (hdestroy : taskDestroy (recorded vfs) arch hhdm s₁ t = some s') :
    ContextIntact arch hhdm s s' ctx := by
  have hby : ByTask (· ≠ .context ctx) t s s' := hmade.byTask.trans
    (taskDestroy_by ht (fun _ => nofun) (fun _ => nofun) hmade.context hmade.stack nofun nofun
      hdestroy)
  obtain ⟨events, hlog, hevents⟩ := hby.events
  have hcontexts : s'.contexts = s.contexts :=
    (taskDestroy_contexts ht hdestroy).trans (hbuild.contexts hops hctx')
  refine ⟨⟨events, hlog, fun u hmem => (hevents _ hmem).2 rfl⟩, by rw [hcontexts], fun va => ?_⟩
  rw [hcontexts, taskDestroy_vmm ht hown hdestroy]
  exact hplaced.ctxTranslate_eq hh hspaces hroots va

/-- A failed `task_create_user` always gives back what it took. It leaves the caller's context intact
unless it gets as far as the console: then a context other than the kernel's is destroyed. -/
theorem failed_create_user_keeps_context_iff (hops : StaticOps vfs opens closes)
    (hh : HhdmOk hhdm) (htasks : s₀.liveTasks = []) (hfiles : s₀.liveFiles = [])
    (hlog : s₀.log = []) (hkernel : s₀.vmmKernelContext ≠ 0)
    (hrun : Relation.ReflTransGen (TaskStep vfs arch hhdm) s₀ s)
    (hfresh : FreshAnswers { s with answers })
    (hspaces : Spaces arch hhdm kind s.vmm.pmm roots free)
    (hroots : ctx ≠ 0 → ContextRoots arch hhdm s.vmm (s.contexts ctx) roots)
    (hcall : taskCreateUser (recorded vfs) arch hhdm { s with answers } name ctx = some (0, s')) :
    ((ctx ≠ 0 → ContextIntact arch hhdm s s' ctx) ∧ CallReleased s s') ↔
      (ctx = 0 ∨ ctx = s.vmmKernelContext ∨ answers.headD 0 = 0 ∨ answers.tail.headD 0 = 0 ∨
        ∃ pmm, pmmAlloc hhdm s.vmm.pmm kstackPages = some (0, pmm)) := by
  obtain ⟨hcounted, hl, hsame, -⟩ := TaskSys.run_ledger hops
    (TaskSys.start_counted htasks hfiles) (LedgerOk.start htasks hlog) hrun
  have hne : s.vmmKernelContext ≠ 0 := hsame ▸ hkernel
  have h₀ : ({ s with answers } : TaskSys (σ × List VfsCallback)).Counted := hcounted
  have hl₀ : LedgerOk hhdm { s with answers } := ⟨hl.live, hl.dead⟩
  have hreleased := taskInnerCreate_released hops h₀ hl₀ hfresh hcall
  rw [and_iff_left (show CallReleased s s' from hreleased)]
  by_cases hctx : ctx = 0
  · exact ⟨fun _ => Or.inl hctx, fun _ hctx' => absurd hctx hctx'⟩
  rw [forall_prop_of_true hctx, or_iff_right hctx]
  rcases taskInnerCreate_cases hcall with ⟨hhead, -, rfl⟩ | ⟨t, s₁, hhead, ht, hends⟩
  · -- no block for the task
    exact ⟨fun _ => Or.inr (Or.inl hhead),
      fun _ => ⟨⟨[], rfl, fun _ => List.not_mem_nil⟩, rfl, fun _ => rfl⟩⟩
  obtain ⟨-, hr, -⟩ | ⟨hbuild, -, hdestroy⟩ := hends
  · exact absurd hr.symm ht
  have hzero := hl.dead t (hfresh.tasks t (mem_of_headD hhead ht))
  have hnext : ∀ a ∈ answers.tail, a ≠ 0 → a ≠ s.vmmKernelContext := fun a ha =>
    hfresh.kernel a (List.mem_of_mem_tail ha)
  have hany : ∀ ctx', MakingScope (fun _ => True) { s with answers := answers.tail } t 0 ctx' :=
    fun ctx' => ⟨trivial, fun _ => trivial, fun _ _ => trivial, fun _ _ => trivial,
      fun _ _ _ _ => trivial, fun _ => trivial, fun _ => trivial⟩
  -- with the kernel's context, no context is entered
  have hscope : MakingScope (· ≠ .context ctx) { s with answers := answers.tail } t 0
      s.vmmKernelContext :=
    ⟨nofun, fun _ => nofun, fun _ _ => nofun, fun _ hother => absurd rfl hother,
      fun hnone => absurd hnone hne, fun _ => nofun, fun _ => nofun⟩
  have hsurvives : ∀ {ctx' : Word}, ctx' = s.vmmKernelContext →
      TaskBuild (recorded vfs) arch hhdm { s with answers := answers.tail } t name 0 ctx' false s₁ →
      ((s₁.body t).vmmContext = 0 ∨ (s₁.body t).vmmContext = s.vmmKernelContext) →
      StackPlaced hhdm 0 s.vmm s₁.vmm (s₁.body t).kernelStackBase false →
      ContextIntact arch hhdm s s' ctx := by
    rintro _ rfl hbuild' hown hplaced
    obtain ⟨hmade, -⟩ := hbuild'.making hops hzero hscope hnext
    rw [← hmade.byTask.kernel] at hown
    obtain ⟨hkept, hstruct, hmaps⟩ := ContextIntact.of_destroy hbuild' hmade hops hh ht hne hspaces
      (hroots hctx) hown hplaced hdestroy
    exact ⟨hkept, hstruct, hmaps⟩
  obtain ⟨hmade, hexit⟩ := hbuild.making hops hzero (hany ctx) hnext
  rcases hexit hctx with ⟨hearly, -, hbuild'⟩ | hlate
  · -- the destructor does not know of the context
    refine ⟨fun _ => Or.inr (Or.inr ?_), fun _ => hsurvives rfl (hbuild' _) (Or.inl hearly.context)
      hearly.stackPlaced⟩
    rcases hearly.reason with ⟨hfpu, -⟩ | ⟨-, -, halloc⟩
    · exact Or.inl hfpu
    · exact Or.inr ((halloc.eq_zero_iff hh hspaces.list).mp rfl)
  by_cases hsame' : ctx = s.vmmKernelContext
  · -- it knows the kernel's
    exact ⟨fun _ => Or.inl hsame', fun _ => hsurvives hsame' hbuild
      (Or.inr (hlate.context.trans hsame')) (hlate.stack.weaken false)⟩
  -- it destroys any other
  refine ⟨fun hintact => ?_, fun hcond => ?_⟩
  · exfalso
    obtain ⟨events, hevents, hkept⟩ := hintact.kept
    obtain ⟨made, hlog₁, -⟩ := hmade.byTask.events
    have hkernel₁ : s₁.vmmKernelContext = s.vmmKernelContext := hmade.byTask.kernel
    obtain ⟨destroyed, hlog₂, hdrop⟩ := taskDestroy_drops ht
      (by rw [hlate.context]; exact hctx) (by rw [hlate.context, hkernel₁]; exact hsame') hdestroy
    have hlogs : (destroyed ++ made) ++ s.log = events ++ s.log := by
      rw [← hevents, hlog₂, hlog₁, List.append_assoc]
    have hall : destroyed ++ made = events := List.append_cancel_right hlogs
    rw [hlate.context] at hdrop
    exact hkept t (hall ▸ List.mem_append_left _ hdrop)
  · exfalso
    rcases hcond with hcond | hcond | hcond | hcond
    · exact hsame' hcond
    · exact ht (hhead.symm.trans hcond)
    · exact hlate.fpu hcond
    · obtain ⟨-, -, htop⟩ | ⟨-, hbase, halloc⟩ := hlate.stack
      · exact htop rfl rfl
      · exact hbase rfl ((halloc.eq_zero_iff hh hspaces.list).mpr hcond)

end

/-! ## A caller without a console -/

/-- A file system in which no path leads anywhere. -/
def emptyVfs : Vfs Unit := { consoleVfs with lookup := fun _ _ => 0 }

/-- A caller with a context at `0x200`, whose root table is at `0x5000`, and four free pages. -/
def callerSys : TaskSys (Unit × List VfsCallback) :=
  { bootSys with
    vmm :=
      { pmm := freePmm exampleHhdm [0x4000, 0x3000, 0x2000, 0x1000], vmmKernelContext := none,
        vmmCurrentContext := none, userRoot := 0x5000, ttbr1 := 0 }
    contexts := fun _ => newContext exampleHhdm 0x5000 }

/-- Without a console, the context at `0x200` is destroyed, and the caller still has it. -/
theorem failed_create_user_destroys_context :
    ∃ s', taskCreateUser (recorded emptyVfs) .x86_64 exampleHhdm
        { callerSys with answers := [0x1000, 0x2000] } 0x7000 0x200 = some (0, s') ∧
      ¬ ContextIntact .x86_64 exampleHhdm callerSys s' 0x200 := by
  have hrun : (taskCreateUser (recorded emptyVfs) .x86_64 exampleHhdm
      { callerSys with answers := [0x1000, 0x2000] } 0x7000 0x200).map
        (fun r => (r.1, decide (.drop 0x1000 (.context 0x200) ∈ r.2.log))) = some (0, true) := by
    decide +kernel
  obtain ⟨⟨r, s'⟩, hcall, hs'⟩ := Option.map_eq_some_iff.mp hrun
  obtain ⟨rfl, hdrop⟩ := Prod.mk.inj hs'
  refine ⟨s', hcall, fun hintact => ?_⟩
  obtain ⟨events, hlog, hkept⟩ := hintact.kept
  -- the log of the caller is empty, so the entry is of this call
  have hevents : s'.log = events := hlog.trans (List.append_nil events)
  exact hkept 0x1000 (hevents ▸ of_decide_eq_true hdrop)

theorem callerSys_spaces :
    Spaces .x86_64 exampleHhdm (fun t => if t = 0x5000 then some 3 else none) callerSys.vmm.pmm
      [0x5000] [0x4000, 0x3000, 0x2000, 0x1000] := by
  refine freePmm_spaces exampleHhdm_ok ?_ (by decide) ?_ ⟨by decide, by decide, by decide⟩
    (by decide)
  · intro p hp
    fin_cases hp <;> exact ⟨by decide, by decide, by decide⟩
  · intro p hp
    fin_cases hp <;> exact ⟨by decide, by decide⟩

/-- When there is no block for the FPU state, the same caller keeps its context. -/
theorem failed_create_user_keeps_context_iff_caller :
    ∃ s', taskCreateUser (recorded emptyVfs) .x86_64 exampleHhdm
        { callerSys with answers := [0x1000] } 0x7000 0x200 = some (0, s') ∧
      ContextIntact .x86_64 exampleHhdm callerSys s' 0x200 ∧ CallReleased callerSys s' := by
  have hrun : (taskCreateUser (recorded emptyVfs) .x86_64 exampleHhdm
      { callerSys with answers := [0x1000] } 0x7000 0x200).map (fun r => r.1) = some 0 := by
    decide +kernel
  obtain ⟨⟨r, s'⟩, hcall, rfl⟩ := Option.map_eq_some_iff.mp hrun
  have hfresh : FreshAnswers { callerSys with answers := [0x1000] } := by
    refine ⟨by decide, fun _ _ => List.not_mem_nil, fun _ _ => List.not_mem_nil, ?_⟩
    intro a ha _
    rw [List.mem_singleton.mp ha]
    decide
  have hroots : ContextRoots .x86_64 exampleHhdm callerSys.vmm (callerSys.contexts 0x200)
      [0x5000] :=
    ⟨List.mem_singleton.mpr rfl, List.mem_singleton.mpr rfl, rfl⟩
  have hops : StaticOps emptyVfs (fun _ => true) (fun _ => true) :=
    ⟨fun _ _ => rfl, fun _ _ => rfl⟩
  obtain ⟨hintact, hreleased⟩ := (failed_create_user_keeps_context_iff hops exampleHhdm_ok rfl rfl
    rfl (by decide) .refl hfresh callerSys_spaces (fun _ => hroots) hcall).mpr
      (Or.inr (Or.inr (Or.inr (Or.inl rfl))))
  exact ⟨s', hcall, hintact (by decide), hreleased⟩

end Pros
