import Pros.Fs.File
import Pros.Lib.Ledger
import Pros.Sched.Model

/-!
# Making and destroying tasks

Model of `kernel/src/proc/task.c` and `kernel/src/proc/kstack.c` with `arch_fpu_init` and
`arch_fpu_free`, and of the system calls that open and close files, for any number of tasks. Tasks,
files and address spaces are named by the addresses of their structs. `kmalloc` and `kcalloc` answer
from a list that a call is given, so that they may fail at any point.

The state keeps books that the source has not: which tasks and files are in use, and in `log` what a
task becomes responsible for and what is given back for it. The frames that `task_create` and
`task_create_user` build on the new stack are not part of this model.

`none` as a result is a walk along the list of free pages that does not end.
-/

namespace Pros

/-- `KSTACK_PAGES`. -/
abbrev kstackPages : Word := 4

/-- `KSTACK_SIZE`. -/
abbrev kstackSize : Word := kstackPages * pageSize

/-- `KSTACK_GUARD`. -/
abbrev kstackGuard : Word := 0x5041474544414544

/-- `"/dev/console"`. -/
def consolePath : List (BitVec 8) :=
  [0x2f, 0x64, 0x65, 0x76, 0x2f, 0x63, 0x6f, 0x6e, 0x73, 0x6f, 0x6c, 0x65]

/-- What a task is responsible for. -/
inductive Resource
  /-- The block of the `struct task`. -/
  | task (p : Word)
  /-- The block of the FPU state. -/
  | fpu (p : Word)
  /-- The pages of a kernel stack, by the physical address of the first. -/
  | stack (phys : Word)
  /-- An address space. -/
  | context (ctx : Word)
  /-- The block of a `struct file`. -/
  | file (f : Word)
  /-- One reference to a file. -/
  | ref (f : Word)
  deriving DecidableEq

/-- A task takes a resource over, or gives it back. -/
abbrev TaskEvent : Type := Ledger.Entry Word Resource

/-- The fields of `struct task` that `task.c` uses; `fds` is in `Files`. -/
structure TaskBody where
  pid : Word
  state : TaskState
  name : Word
  kernelStackBase : Word
  kernelStackTop : Word
  fpuState : Word
  vmmContext : Word

/-- A `struct task` that `kcalloc` returns. -/
def TaskBody.zero : TaskBody := ⟨0, .dead, 0, 0, 0, 0, 0⟩

/-- The state of all tasks. -/
structure TaskSys (σ : Type) extends Sys σ where
  body : Word → TaskBody
  nextPid : Word
  vmm : Vmm
  /-- What is stored at the address of a `struct vmm_context`. -/
  contexts : Word → VmmContext
  /-- `vmm_kernel_context`. -/
  vmmKernelContext : Word
  /-- What the coming calls of `kmalloc` and `kcalloc` return. -/
  answers : List Word
  liveTasks : List Word
  liveFiles : List Word
  log : List TaskEvent

namespace TaskSys

variable {σ : Type}

/-- `kmalloc` or `kcalloc`. -/
def kmalloc (s : TaskSys σ) : Word × TaskSys σ :=
  (s.answers.headD 0, { s with answers := s.answers.tail })

/-- `t` is responsible for `r`. -/
def gain (s : TaskSys σ) (t : Word) (r : Resource) : TaskSys σ :=
  { s with log := .gain t r :: s.log }

/-- `t` is no longer responsible for `r`. -/
def drop (s : TaskSys σ) (t : Word) (r : Resource) : TaskSys σ :=
  { s with log := .drop t r :: s.log }

/-- Writing fields of a `struct task`. -/
def setBody (s : TaskSys σ) (t : Word) (b : TaskBody) : TaskSys σ :=
  { s with body := Function.update s.body t b }

/-- `task->fds[fd] = f`. -/
def setFd (s : TaskSys σ) (t : Word) (fd : Fin maxOpenFiles) (f : Word) : TaskSys σ :=
  { s with files := s.files.setFd t fd f }

/-- The books after `file_open_node` for the task `t`: `kmalloc` returned `f`, and the result is
`opened`. A file that could not be opened was freed. -/
def noteOpen (s : TaskSys σ) (t f opened : Word) : TaskSys σ :=
  if f = 0 then s
  else if opened = 0 then (s.gain t (.file f)).drop t (.file f)
  else (({ s with liveFiles := f :: s.liveFiles }).gain t (.file f)).gain t (.ref f)

theorem noteOpen_files (s : TaskSys σ) (t f opened : Word) :
    (s.noteOpen t f opened).files = s.files := by
  rw [noteOpen]
  split
  · rfl
  · split <;> rfl

theorem noteOpen_setFd (s : TaskSys σ) (t f opened : Word) (fd : Fin maxOpenFiles) (g : Word) :
    (s.setFd t fd g).noteOpen t f opened = (s.noteOpen t f opened).setFd t fd g := by
  simp only [noteOpen]
  split
  · rfl
  · split <;> rfl

/-- The books after `file_unref`. -/
def noteUnref (s : TaskSys σ) (t f : Word) (freed : Bool) : TaskSys σ :=
  let s := s.drop t (.ref f)
  if freed then ({ s with liveFiles := s.liveFiles.erase f }).drop t (.file f) else s

end TaskSys

section

variable {σ : Type} (vfs : Vfs σ) (arch : Arch) (hhdm : Word)

/-! ## Kernel stacks -/

/-- `kstack_alloc`: the base of the stack, or null. -/
def kstackAlloc (s : TaskSys σ) : Option (Word × TaskSys σ) := do
  let (physAddr, pmm) ← pmmAlloc hhdm s.vmm.pmm kstackPages
  if physAddr = 0 then return (0, { s with vmm := { s.vmm with pmm } })
  let kstack := pmmPhysToVirt hhdm physAddr
  let mem := (pmm.mem.memset kstack 0 kstackSize.toNat).store64 kstack kstackGuard
  return (kstack, { s with vmm := { s.vmm with pmm := { pmm with mem } } })

/-- `kstack_free`. -/
def kstackFree (s : TaskSys σ) (kstack : Word) : TaskSys σ :=
  if kstack = 0 then s
  else { s with vmm := { s.vmm with
    pmm := pmmFree hhdm s.vmm.pmm (pmmVirtToPhys hhdm kstack) kstackPages } }

/-- `kstack_get_top`. -/
def kstackGetTop (kstack : Word) : Word := if kstack = 0 then 0 else kstack + kstackSize

/-! ## Destroying -/

/-- One round of the loop of `task_destroy` over the files. -/
def taskCloseFd (task : Word) (s : TaskSys σ) (fd : Fin maxOpenFiles) : TaskSys σ :=
  if s.files.fds task fd = 0 then s
  else
    let f := s.files.fds task fd
    let (freed, fs, files) := fileUnref vfs s.fs s.files f
    ({ s with fs, files }.noteUnref task f freed).setFd task fd 0

/-- The part of `task_destroy` for the address space. -/
def taskDropContext (s : TaskSys σ) (task : Word) : Option (TaskSys σ) := do
  let ctx := (s.body task).vmmContext
  if ctx ≠ 0 ∧ ctx ≠ s.vmmKernelContext then
    let vmm ← vmmDestroyContext arch hhdm some s.vmm (some (s.contexts ctx))
    return { s with vmm }.drop task (.context ctx)
  return s

/-- The part of `task_destroy` for the kernel stack. -/
def taskDropStack (s : TaskSys σ) (task : Word) : TaskSys σ :=
  let base := (s.body task).kernelStackBase
  if base = 0 then s else (kstackFree hhdm s base).drop task (.stack (pmmVirtToPhys hhdm base))

/-- `arch_fpu_free`. -/
def archFpuFree (s : TaskSys σ) (task : Word) : TaskSys σ :=
  let fpu := (s.body task).fpuState
  if fpu = 0 then s
  else (s.drop task (.fpu fpu)).setBody task { s.body task with fpuState := 0 }

/-- `task_destroy`. -/
def taskDestroy (s : TaskSys σ) (task : Word) : Option (TaskSys σ) := do
  if task = 0 then return s
  let s := (List.finRange maxOpenFiles).foldl (taskCloseFd vfs task) s
  let s ← taskDropContext arch hhdm s task
  let s := archFpuFree (taskDropStack hhdm s task) task
  return { s with liveTasks := s.liveTasks.erase task }.drop task (.task task)

/-! ## Making -/

/-- `arch_fpu_init`. -/
def archFpuInit (s : TaskSys σ) (task : Word) : Int × TaskSys σ :=
  let (fpu, s) := s.kmalloc
  if fpu = 0 then (-enomem, s)
  else (0, (s.gain task (.fpu fpu)).setBody task { s.body task with fpuState := fpu })

/-- One of the further references of `task_open_std_fds`. -/
def taskRefFd (s : TaskSys σ) (task : Word) (fd : Fin maxOpenFiles) (f : Word) : Word × TaskSys σ :=
  let (ref, fs, files) := fileRef vfs s.fs s.files f
  let s := { s with fs, files }
  (ref, (if ref = 0 then s else s.gain task (.ref f)).setFd task fd ref)

/-- The end of `task_open_std_fds`: three slots share the file. -/
def taskShareStd (s : TaskSys σ) (task f : Word) : Int × TaskSys σ :=
  let s := s.setFd task 0 f
  let (ref, s) := taskRefFd vfs s task 1 f
  if ref = 0 then (-ebadf, s)
  else
    let (ref, s) := taskRefFd vfs s task 2 f
    if ref = 0 then (-ebadf, s) else (0, s)

/-- `task_open_std_fds`. -/
def taskOpenStdFds (s : TaskSys σ) (task : Word) : Int × TaskSys σ :=
  let console := vfs.lookup s.fs consolePath
  if console = 0 then (-enoent, s)
  else
    let (f, s) := s.kmalloc
    let (opened, fs, files) := fileOpenNode vfs s.fs s.files f console oRdwr
    let s := { s with fs, files }.noteOpen task f opened
    if opened = 0 then (-enomem, s) else taskShareStd vfs s task opened

/-- The part of `task_inner_create` for the kernel stack: `false` when there is no memory. -/
def taskTakeStack (s : TaskSys σ) (task kernelStackTop : Word) : Option (Bool × TaskSys σ) := do
  if kernelStackTop ≠ 0 then
    return (true, s.setBody task { s.body task with kernelStackTop })
  let (base, s) ← kstackAlloc hhdm s
  if base = 0 then return (false, s)
  return (true, (s.gain task (.stack (pmmVirtToPhys hhdm base))).setBody task
    { s.body task with kernelStackBase := base, kernelStackTop := kstackGetTop base })

/-- The part of `task_inner_create` for the address space: `false` when there is no memory. A
context other than the kernel's becomes the task's. -/
def taskTakeContext (s : TaskSys σ) (task ctx : Word) : Option (Bool × TaskSys σ) := do
  if ctx ≠ 0 then
    let s := if ctx = s.vmmKernelContext then s else s.gain task (.context ctx)
    return (true, s.setBody task { s.body task with vmmContext := ctx })
  let (ptr, s) := s.kmalloc
  let (made, vmm) ← vmmCreateContext arch hhdm (fun pmm => some (ptr, pmm)) s.vmm
  match made with
  | none => return (false, { s with vmm })
  | some made =>
    return (true, ({ s with vmm, contexts := Function.update s.contexts ptr made }.gain task
      (.context ptr)).setBody task { s.body task with vmmContext := ptr })

/-- The zeroed `struct task` that `task_inner_create` starts with. -/
def taskNew (s : TaskSys σ) (task name : Word) : TaskSys σ :=
  { s with
    nextPid := s.nextPid + 1
    body := Function.update s.body task
      { TaskBody.zero with pid := s.nextPid, state := .ready, name }
    files := { s.files with fds := Function.update s.files.fds task fun _ => 0 }
    liveTasks := task :: s.liveTasks }.gain task (.task task)

/-- `task_inner_create`. -/
def taskInnerCreate (s : TaskSys σ) (name kernelStackTop ctx : Word) :
    Option (Word × TaskSys σ) := do
  let (task, s) := s.kmalloc
  if task = 0 then return (0, s)
  let (res, s) := archFpuInit (taskNew s task name) task
  if res ≠ 0 then return (0, ← taskDestroy vfs arch hhdm s task)
  let (ok, s) ← taskTakeStack hhdm s task kernelStackTop
  if !ok then return (0, ← taskDestroy vfs arch hhdm s task)
  let (ok, s) ← taskTakeContext arch hhdm s task ctx
  if !ok then return (0, ← taskDestroy vfs arch hhdm s task)
  let (res, s) := taskOpenStdFds vfs s task
  if res ≠ 0 then return (0, ← taskDestroy vfs arch hhdm s task)
  return (task, s)

/-- Where `task_inner_create` ends for the block `task`: the state in which it returns the task
(`true`) or gives it to `task_destroy` (`false`). -/
inductive TaskBuild (s : TaskSys σ) (task name kernelStackTop ctx : Word) :
    Bool → TaskSys σ → Prop
  | noFpu {res : Int} {s₁ : TaskSys σ} (hfpu : archFpuInit (taskNew s task name) task = (res, s₁))
    (hres : res ≠ 0) : TaskBuild s task name kernelStackTop ctx false s₁
  | noStack {s₁ s₂ : TaskSys σ} (hfpu : archFpuInit (taskNew s task name) task = (0, s₁))
    (hstack : taskTakeStack hhdm s₁ task kernelStackTop = some (false, s₂)) :
    TaskBuild s task name kernelStackTop ctx false s₂
  | noContext {s₁ s₂ s₃ : TaskSys σ} (hfpu : archFpuInit (taskNew s task name) task = (0, s₁))
    (hstack : taskTakeStack hhdm s₁ task kernelStackTop = some (true, s₂))
    (hctx : taskTakeContext arch hhdm s₂ task ctx = some (false, s₃)) :
    TaskBuild s task name kernelStackTop ctx false s₃
  | noFiles {res : Int} {s₁ s₂ s₃ s₄ : TaskSys σ}
    (hfpu : archFpuInit (taskNew s task name) task = (0, s₁))
    (hstack : taskTakeStack hhdm s₁ task kernelStackTop = some (true, s₂))
    (hctx : taskTakeContext arch hhdm s₂ task ctx = some (true, s₃))
    (hfiles : taskOpenStdFds vfs s₃ task = (res, s₄)) (hres : res ≠ 0) :
    TaskBuild s task name kernelStackTop ctx false s₄
  | built {s₁ s₂ s₃ s₄ : TaskSys σ} (hfpu : archFpuInit (taskNew s task name) task = (0, s₁))
    (hstack : taskTakeStack hhdm s₁ task kernelStackTop = some (true, s₂))
    (hctx : taskTakeContext arch hhdm s₂ task ctx = some (true, s₃))
    (hfiles : taskOpenStdFds vfs s₃ task = (0, s₄)) :
    TaskBuild s task name kernelStackTop ctx true s₄

variable {vfs arch hhdm} in
/-- `task_inner_create` has no block for the task, or ends in one of these ways. -/
theorem taskInnerCreate_cases {s s' : TaskSys σ} {name kernelStackTop ctx r : Word}
    (h : taskInnerCreate vfs arch hhdm s name kernelStackTop ctx = some (r, s')) :
    (s.answers.headD 0 = 0 ∧ r = 0 ∧ s' = { s with answers := s.answers.tail }) ∨
    ∃ task s₁, s.answers.headD 0 = task ∧ task ≠ 0 ∧
      ((TaskBuild vfs arch hhdm { s with answers := s.answers.tail } task name kernelStackTop ctx
          true s₁ ∧ r = task ∧ s' = s₁) ∨
        (TaskBuild vfs arch hhdm { s with answers := s.answers.tail } task name kernelStackTop ctx
          false s₁ ∧ r = 0 ∧ taskDestroy vfs arch hhdm s₁ task = some s')) := by
  unfold taskInnerCreate TaskSys.kmalloc at h
  dsimp only at h
  split at h
  · rename_i htask
    cases h
    exact Or.inl ⟨htask, rfl, rfl⟩
  rename_i htask
  -- an exit through the destructor
  have hexit : ∀ {s₁ : TaskSys σ}, (do
      let s ← taskDestroy vfs arch hhdm s₁ (s.answers.headD 0)
      pure ((0 : Word), s)) = some (r, s') →
      r = 0 ∧ taskDestroy vfs arch hhdm s₁ (s.answers.headD 0) = some s' := by
    intro s₁ hexit
    obtain ⟨s₂, hdestroy, hret⟩ := Option.bind_eq_some_iff.mp hexit
    cases hret
    exact ⟨rfl, hdestroy⟩
  refine Or.inr ⟨s.answers.headD 0, ?_⟩
  cases hfpu : archFpuInit (taskNew { s with answers := s.answers.tail } (s.answers.headD 0) name)
    (s.answers.headD 0) with
  | mk res s₁ =>
  simp only [hfpu] at h
  by_cases hres : res ≠ 0
  · rw [if_pos hres] at h
    exact ⟨s₁, rfl, htask, Or.inr ⟨.noFpu hfpu hres, hexit h⟩⟩
  rw [if_neg hres] at h
  obtain rfl := not_not.mp hres
  obtain ⟨⟨ok, s₂⟩, hstack, h⟩ := Option.bind_eq_some_iff.mp h
  cases ok with
  | false => exact ⟨s₂, rfl, htask, Or.inr ⟨.noStack hfpu hstack, hexit h⟩⟩
  | true =>
  obtain ⟨⟨ok, s₃⟩, hctx, h⟩ := Option.bind_eq_some_iff.mp h
  cases ok with
  | false => exact ⟨s₃, rfl, htask, Or.inr ⟨.noContext hfpu hstack hctx, hexit h⟩⟩
  | true =>
  cases hfiles : taskOpenStdFds vfs s₃ (s.answers.headD 0) with
  | mk res s₄ =>
  simp only [Bool.not_true, Bool.false_eq_true, if_false, hfiles] at h
  by_cases hres' : res ≠ 0
  · rw [if_pos hres'] at h
    exact ⟨s₄, rfl, htask, Or.inr ⟨.noFiles hfpu hstack hctx hfiles hres', hexit h⟩⟩
  rw [if_neg hres'] at h
  obtain rfl := not_not.mp hres'
  obtain ⟨rfl, rfl⟩ := Prod.mk.inj (Option.some.inj h)
  exact ⟨s₄, rfl, htask, Or.inl ⟨.built hfpu hstack hctx hfiles, rfl, rfl⟩⟩

/-- `task_init_boot` on the stack that the boot loader provided. -/
def taskInitBoot (s : TaskSys σ) (name stackPointer : Word) : Option (Word × TaskSys σ) :=
  taskInnerCreate vfs arch hhdm s name stackPointer s.vmmKernelContext

/-- `task_create`, up to the frames. -/
def taskCreate (s : TaskSys σ) (name : Word) : Option (Word × TaskSys σ) :=
  taskInnerCreate vfs arch hhdm s name 0 s.vmmKernelContext

/-- `task_create_user`, up to the frames. -/
def taskCreateUser (s : TaskSys σ) (name ctx : Word) : Option (Word × TaskSys σ) :=
  taskInnerCreate vfs arch hhdm s name 0 ctx

/-! ## System calls -/

namespace TaskSys

/-- The running task is `t`. -/
def runningAs (s : TaskSys σ) (t : Word) : TaskSys σ :=
  { s with files := { s.files with current := t } }

/-- `sys_openat` by the task `t`. -/
def openatBy (s : TaskSys σ) (t dirfd path flags : Word) : Option (Int × TaskSys σ) := do
  let (f, s) := (s.runningAs t).kmalloc
  let (res, sys) ← sysOpenat vfs f s.toSys dirfd path flags
  let s := { s with toSys := sys }
  -- only these results come from `file_open_node`
  if 0 ≤ res then return (res, s.noteOpen t f f)
  if res = -enomem then return (res, s.noteOpen t f 0)
  return (res, s)

/-- `sys_open` by the task `t`. -/
def openBy (s : TaskSys σ) (t path flags : Word) : Option (Int × TaskSys σ) :=
  s.openatBy vfs t (BitVec.ofInt 64 atFdcwd) path flags

/-- `sys_close` by the task `t`. -/
def closeBy (s : TaskSys σ) (t fd : Word) : Int × TaskSys σ :=
  let s := s.runningAs t
  let (res, sys) := sysClose vfs s.toSys fd
  if res ≠ 0 then (res, { s with toSys := sys })
  else
    let f := ((fdIndex (toCInt fd)).map (s.files.fds t)).getD 0
    (res, { s with toSys := sys }.noteUnref t f (fileUnref vfs s.fs s.files f).1)

end TaskSys

end

end Pros
