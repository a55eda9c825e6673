import Pros.Console.Ldisc
import Pros.Sched.Model

/-!
# One core that reads the console

The code of `kernel/src/drivers/console_dev.c` and of the functions of `kernel/src/proc/sched.c` that
put tasks to sleep and wake them, as a step relation of one core. The program counter says which
statement runs next. Interrupts are taken between any two statements at which they are unmasked: in
user code, in the kernel code of a syscall and in the window that `arch_idle` opens. A task that is
not on the core is stopped at one of two places, recorded in `saved`.

The panics of `sleep`, `sched` and `scheduler` about interrupts and the current task are the program
counter `panic`. The checks of stacks and frames are not part of the model.
-/

namespace Pros

/-- Places at which interrupts are unmasked and that a trap returns to. -/
inductive Place
  -- user code
  | user
  -- kernel code of a syscall
  | syscall
  -- `sys_exit` between its two statements, and after them
  | exitResched
  | exited
  -- the window that `arch_idle` opens in the scheduler
  | idle
  deriving DecidableEq, Repr

/-- What a trap frame says about the interrupted code: where it was, and its interrupt mask. -/
structure Frame where
  place : Place
  irq : Bool
  deriving DecidableEq, Repr

/-- The statements of `console_dev_ops_read`, with `sleep` inlined. -/
inductive ReadPc
  | lock
  | test
  | sleepChan
  | sleepState
  | sleepUnlock
  | sleepSched
  | sleepResume
  | sleepRelock
  | drain
  | unlock
  | restore
  deriving DecidableEq, Repr

/-- The statements of `console_dev_feed`; `ready` is its local variable. -/
inductive FeedPc
  | start
  | lock
  | feed
  | ready
  | unlock (ready : Bool)
  | wakeup (ready : Bool)
  deriving DecidableEq, Repr

/-- The next statement of the core. -/
inductive Pc
  -- code that runs with interrupts unmasked
  | at (place : Place)
  -- syscall entry, before `arch_irq_enable`
  | enter
  -- `console_dev_ops_read` with its saved `flags` and its `size`
  | read (flags : Bool) (size : Word) (pc : ReadPc)
  -- the interrupt handlers
  | uart (frame : Frame)
  | feed (frame : Frame) (byte : BitVec 8) (pc : FeedPc)
  | timer (frame : Frame)
  -- `sched_on_trap_exit`
  | trapExit (frame : Frame)
  -- the scheduler: pick a task, back from a task, nothing is ready, nothing is alive
  | pick
  | returned
  | idle
  | shutdown
  | panic
  deriving DecidableEq, Repr

/-- Where a task continues when it is dispatched: it leaves through a trap frame, as a fresh task and
one that was switched away in `sched_on_trap_exit` do, or it is in `sleep` after `sched`. -/
inductive Resume
  | trapReturn (frame : Frame)
  | sleeping (flags : Bool) (size : Word)
  deriving DecidableEq, Repr

/-- The state of the core. `next` is the local variable of `scheduler`. -/
structure Machine where
  sched : Sched
  ld : Ldisc
  locked : Bool
  irq : Bool
  pc : Pc
  next : Word
  saved : Word → Resume

namespace Machine

variable (s : Machine)

/-- `sched`: hand the core back to the scheduler; the task will continue at `resume`. -/
def yield (resume : Resume) : Machine :=
  if s.irq = true then { s with pc := .panic }
  else { s with pc := .returned, saved := Function.update s.saved s.sched.current resume }

/-- Leave through a trap frame. -/
def trapReturn (frame : Frame) : Machine := { s with pc := .at frame.place, irq := frame.irq }

/-- `sched_on_trap_exit`. -/
def schedOnTrapExit (frame : Frame) : Machine :=
  if s.sched.current = 0 then s.trapReturn frame
  else if s.sched.needResched = false then s.trapReturn frame
  else { s with sched := schedPreempt s.sched }.yield (.trapReturn frame)

/-- The scheduler switches to `next`. -/
def dispatch (next : Word) : Machine :=
  let s := { s with next, sched := { s.sched with current := next }.setState next .running }
  match s.saved next with
  | .trapReturn frame => s.trapReturn frame
  | .sleeping flags size => { s with pc := .read flags size .sleepResume }

end Machine

section

variable (chan : Word)

/-- One step of the core; `chan` is the address of the line discipline. -/
inductive MachineStep : Machine → Machine → Prop
  -- user code enters the kernel with interrupts masked, and the syscall handler unmasks them
  | syscall (s : Machine) : s.pc = .at .user → MachineStep s { s with pc := .enter, irq := false }
  | syscallEnable (s : Machine) : s.pc = .enter →
      MachineStep s { s with pc := .at .syscall, irq := true }
  -- the syscall handler masks them again on the way out
  | syscallLeave (s : Machine) (place : Place) : s.pc = .at place →
      place = .syscall ∨ place = .exited →
      MachineStep s { s with pc := .trapExit { place := .user, irq := true }, irq := false }
  -- `sys_exit`
  | exit (s : Machine) : s.pc = .at .syscall →
      MachineStep s
        { s with pc := .at .exitResched, sched := s.sched.setState s.sched.current .dead }
  | exitResched (s : Machine) : s.pc = .at .exitResched →
      MachineStep s { s with pc := .at .exited, sched := { s.sched with needResched := true } }
  -- `console_dev_ops_read` of at least one byte; `spinlock_lock_irqsave` masks, then locks
  | read (s : Machine) (size : Word) : s.pc = .at .syscall → size ≠ 0 →
      MachineStep s { s with pc := .read s.irq size .lock, irq := false }
  | readLock (s : Machine) (flags : Bool) (size : Word) : s.pc = .read flags size .lock →
      s.locked = false → MachineStep s { s with pc := .read flags size .test, locked := true }
  | readTest (s : Machine) (flags : Bool) (size : Word) : s.pc = .read flags size .test →
      MachineStep s
        { s with pc := .read flags size (if ldiscReady s.ld then .drain else .sleepChan) }
  | readDrain (s : Machine) (flags : Bool) (size : Word) : s.pc = .read flags size .drain →
      MachineStep s { s with pc := .read flags size .unlock, ld := (ldiscDrain s.ld size).1 }
  | readUnlock (s : Machine) (flags : Bool) (size : Word) : s.pc = .read flags size .unlock →
      MachineStep s { s with pc := .read flags size .restore, locked := false }
  | readRestore (s : Machine) (flags : Bool) (size : Word) : s.pc = .read flags size .restore →
      MachineStep s { s with pc := .at .syscall, irq := if flags then true else s.irq }
  -- `sleep`
  | sleepChan (s : Machine) (flags : Bool) (size : Word) : s.pc = .read flags size .sleepChan →
      MachineStep s
        (if s.sched.current = 0 then { s with pc := .panic }
          else { s with
            pc := .read flags size .sleepState
            sched := s.sched.setChan s.sched.current chan })
  | sleepState (s : Machine) (flags : Bool) (size : Word) : s.pc = .read flags size .sleepState →
      MachineStep s
        { s with
          pc := .read flags size .sleepUnlock
          sched := s.sched.setState s.sched.current .blocked }
  | sleepUnlock (s : Machine) (flags : Bool) (size : Word) : s.pc = .read flags size .sleepUnlock →
      MachineStep s { s with pc := .read flags size .sleepSched, locked := false }
  | sleepSched (s : Machine) (flags : Bool) (size : Word) : s.pc = .read flags size .sleepSched →
      MachineStep s (s.yield (.sleeping flags size))
  | sleepResume (s : Machine) (flags : Bool) (size : Word) : s.pc = .read flags size .sleepResume →
      MachineStep s
        { s with
          pc := if s.irq then .panic else .read flags size .sleepRelock
          sched := s.sched.setChan s.sched.current 0 }
  | sleepRelock (s : Machine) (flags : Bool) (size : Word) : s.pc = .read flags size .sleepRelock →
      s.locked = false → MachineStep s { s with pc := .read flags size .test, locked := true }
  -- interrupts, wherever they are unmasked; the entry masks them
  | uartIrq (s : Machine) (place : Place) : s.pc = .at place → s.irq = true →
      MachineStep s { s with pc := .uart { place, irq := s.irq }, irq := false }
  | timerIrq (s : Machine) (place : Place) : s.pc = .at place → s.irq = true →
      MachineStep s { s with pc := .timer { place, irq := s.irq }, irq := false }
  -- a fault of a task that is resolved, for example by mapping a page
  | fault (s : Machine) (place : Place) : s.pc = .at place → place ≠ .idle →
      MachineStep s { s with pc := .trapExit { place, irq := s.irq }, irq := false }
  -- the UART handler feeds bytes while there are any
  | uartByte (s : Machine) (frame : Frame) (byte : BitVec 8) : s.pc = .uart frame →
      MachineStep s { s with pc := .feed frame byte .start }
  | uartDone (s : Machine) (frame : Frame) : s.pc = .uart frame →
      MachineStep s { s with pc := .trapExit frame }
  -- `console_dev_feed`; the byte `0x10` only prints the tasks
  | feedStart (s : Machine) (frame : Frame) (byte : BitVec 8) : s.pc = .feed frame byte .start →
      MachineStep s { s with pc := if byte = 0x10 then .uart frame else .feed frame byte .lock }
  | feedLock (s : Machine) (frame : Frame) (byte : BitVec 8) : s.pc = .feed frame byte .lock →
      s.locked = false → MachineStep s { s with pc := .feed frame byte .feed, locked := true }
  | feedFeed (s : Machine) (frame : Frame) (byte : BitVec 8) : s.pc = .feed frame byte .feed →
      MachineStep s { s with pc := .feed frame byte .ready, ld := (ldiscFeed s.ld byte).1 }
  | feedReady (s : Machine) (frame : Frame) (byte : BitVec 8) : s.pc = .feed frame byte .ready →
      MachineStep s { s with pc := .feed frame byte (.unlock (ldiscReady s.ld)) }
  | feedUnlock (s : Machine) (frame : Frame) (byte : BitVec 8) (ready : Bool) :
      s.pc = .feed frame byte (.unlock ready) →
      MachineStep s { s with pc := .feed frame byte (.wakeup ready), locked := false }
  | feedWakeup (s : Machine) (frame : Frame) (byte : BitVec 8) (ready : Bool) (sched : Sched) :
      s.pc = .feed frame byte (.wakeup ready) →
      (if ready then wakeup s.sched chan else some s.sched) = some sched →
      MachineStep s { s with pc := .uart frame, sched }
  -- the timer handler
  | timerTick (s : Machine) (frame : Frame) : s.pc = .timer frame →
      MachineStep s { s with pc := .trapExit frame, sched := schedOnTimerTick s.sched }
  | trapExit (s : Machine) (frame : Frame) : s.pc = .trapExit frame →
      MachineStep s (s.schedOnTrapExit frame)
  -- the scheduler
  | pick (s : Machine) (task : Word) (sched : Sched) : s.pc = .pick →
      schedPickNext s.sched = some (task, sched) → task ≠ 0 →
      MachineStep s ({ s with sched }.dispatch task)
  | pickNone (s : Machine) (sched : Sched) (alive : Bool) : s.pc = .pick →
      schedPickNext s.sched = some (0, sched) → schedAnyAlive sched = some alive →
      MachineStep s { s with sched, pc := if alive then .idle else .shutdown }
  | returned (s : Machine) : s.pc = .returned →
      MachineStep s
        (if s.sched.current ≠ s.next then { s with pc := .panic }
          else { s with pc := .pick, sched := { s.sched with current := 0 } })
  -- `arch_idle` opens the window and closes it again
  | idleOpen (s : Machine) : s.pc = .idle → MachineStep s { s with pc := .at .idle, irq := true }
  | idleClose (s : Machine) : s.pc = .at .idle → MachineStep s { s with pc := .pick, irq := false }

end

end Pros
