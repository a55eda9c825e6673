import Pros.Fs.File

/-!
# The system call table

Model of `kernel/src/syscall/syscall.c` and of the numbers in `kernel/include/asm/unistd.h`. The
handlers of processes are short: `sys_clone`, `sys_fork` and `sys_wait4` are not implemented, and
what `sys_exit` does to the scheduler is not part of the state here.
-/

namespace Pros

/-- The handlers in `syscall_table`. -/
inductive Syscall
  | read
  | write
  | open
  | openat
  | close
  | getpid
  | exit
  | getdents64
  | clone
  | fork
  | wait4
  deriving DecidableEq, Repr

/-- `NR_SYSCALLS`. -/
abbrev nrSyscalls : Word := 512

/-- `syscall_table`, with the numbers of the architecture. -/
def Arch.syscallTable (arch : Arch) (num : Word) : Option Syscall :=
  match arch with
  | .x86_64 =>
    if num = 0 then some .read
    else if num = 1 then some .write
    else if num = 2 then some .open
    else if num = 257 then some .openat
    else if num = 3 then some .close
    else if num = 39 then some .getpid
    else if num = 60 ∨ num = 231 then some .exit
    else if num = 217 then some .getdents64
    else if num = 56 then some .clone
    else if num = 57 then some .fork
    else if num = 61 then some .wait4
    else none
  | .aarch64 =>
    if num = 63 then some .read
    else if num = 64 then some .write
    else if num = 511 then some .open
    else if num = 56 then some .openat
    else if num = 57 then some .close
    else if num = 172 then some .getpid
    else if num = 93 ∨ num = 94 then some .exit
    else if num = 61 then some .getdents64
    else if num = 220 then some .clone
    else if num = 510 then some .fork
    else if num = 260 then some .wait4
    else none

/-- The six arguments of a system call. -/
structure SyscallArgs where
  a0 : Word
  a1 : Word
  a2 : Word
  a3 : Word
  a4 : Word
  a5 : Word

section

variable {σ : Type} (arch : Arch) (vfs : Vfs σ)

/-- One handler. `f` is what `kmalloc` returns in this call, `pid` belongs to the current task. -/
def Syscall.run (f pid : Word) (args : SyscallArgs) (s : Sys σ) : Syscall → Option (Int × Sys σ)
  | .read => sysRead vfs s args.a0 args.a1 args.a2
  | .write => sysWrite vfs s args.a0 args.a1 args.a2
  | .open => sysOpen vfs f s args.a0 args.a1
  | .openat => sysOpenat vfs f s args.a0 args.a1 args.a2
  | .close => some (sysClose vfs s args.a0)
  | .getpid => some (pid.toInt, s)
  | .exit => some (0, s)
  | .getdents64 => sysGetdents64 vfs s args.a0 args.a1 args.a2
  | .clone | .fork | .wait4 => some (-enosys, s)

/-- `syscall_dispatch`. -/
def syscallDispatch (f pid num : Word) (args : SyscallArgs) (s : Sys σ) :
    Option (Int × Sys σ) :=
  if num ≥ nrSyscalls then some (-enosys, s)
  else match arch.syscallTable num with
    | none => some (-enosys, s)
    | some call => call.run vfs f pid args s

end

end Pros
