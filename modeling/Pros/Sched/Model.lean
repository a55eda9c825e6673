import Pros.Pmm.Model

/-!
# The run queue

Model of the data of `kernel/src/proc/sched.c`: the ring of tasks linked through `next`, with the
states and wait channels of the tasks, and the variables of the scheduler. Tasks are named by their
addresses, null is `0`. A walk around the ring that does not come back within `walkBound` steps is
answered with `none`.

Of a task only the fields are here that the scheduler decides on. What a switch does with stacks,
frames and address spaces is not part of this model.
-/

namespace Pros

/-- `TASK_DEAD`, `TASK_READY`, `TASK_RUNNING`, `TASK_BLOCKED` and `TASK_ZOMBIE`. -/
inductive TaskState
  | dead
  | ready
  | running
  | blocked
  | zombie
  deriving DecidableEq, Repr

/-- The fields of `struct task` that the scheduler reads. -/
structure Task where
  state : TaskState
  chan : Word
  next : Word
  deriving DecidableEq, Repr

/-- The variables of `sched.c`, with the tasks they point to. -/
structure Sched where
  runQueueHead : Word
  current : Word
  cursor : Word
  needResched : Bool
  task : Word → Task

namespace Sched

variable (s : Sched)

/-- `task->state = v`. -/
def setState (t : Word) (v : TaskState) : Sched :=
  { s with task := Function.update s.task t { s.task t with state := v } }

/-- `task->chan = v`. -/
def setChan (t v : Word) : Sched :=
  { s with task := Function.update s.task t { s.task t with chan := v } }

/-- `task->next = v`. -/
def setNext (t v : Word) : Sched :=
  { s with task := Function.update s.task t { s.task t with next := v } }

/-- `task->next`. -/
def next (t : Word) : Word := (s.task t).next

end Sched

/-- `sched_init`; the remaining variables are static and start out as zero. -/
def schedInit (task : Word → Task) : Sched :=
  { runQueueHead := 0, current := 0, cursor := 0, needResched := false, task }

/-- `sched_add_task`: the first task becomes the head, any other is linked in after it. -/
def schedAddTask (s : Sched) (task : Word) : Sched :=
  if task = 0 then s
  else if s.runQueueHead = 0 then
    { s with runQueueHead := task }.setNext task task
  else
    (s.setNext task (s.next s.runQueueHead)).setNext s.runQueueHead task

/-- The loop of `sched_pick_next`: the first ready task after `task`, looking at `start` last. -/
def schedPickLoop (s : Sched) (start : Word) : ℕ → Word → Option Word
  | 0, _ => none
  | fuel + 1, task =>
    let task := s.next task
    if (s.task task).state = .ready then some task
    else if task = start then some 0
    else schedPickLoop s start fuel task

/-- `sched_pick_next`: the task to run, or null when everything is dead or blocked. -/
def schedPickNext (s : Sched) : Option (Word × Sched) :=
  if s.runQueueHead = 0 then some (0, s)
  else do
    let start := if s.cursor ≠ 0 then s.cursor else s.runQueueHead
    let task ← schedPickLoop s start walkBound start
    if task = 0 then return (0, s)
    -- next round starts looking after this one
    return (task, { s with cursor := task })

/-- The loop of `sched_any_alive`. -/
def schedAnyAliveLoop (s : Sched) : ℕ → Word → Option Bool
  | 0, _ => none
  | fuel + 1, task =>
    if (s.task task).state ≠ .dead then some true
    else if s.next task = s.runQueueHead then some false
    else schedAnyAliveLoop s fuel (s.next task)

/-- `sched_any_alive`. -/
def schedAnyAlive (s : Sched) : Option Bool :=
  if s.runQueueHead = 0 then some false else schedAnyAliveLoop s walkBound s.runQueueHead

/-- The loop of `wakeup`. -/
def wakeupLoop (chan : Word) : ℕ → Sched → Word → Option Sched
  | 0, _, _ => none
  | fuel + 1, s, task =>
    let s := if (s.task task).state = .blocked ∧ (s.task task).chan = chan
      then s.setState task .ready else s
    if s.next task = s.runQueueHead then some s
    else wakeupLoop chan fuel s (s.next task)

/-- `wakeup`: everyone blocked on `chan` becomes ready. -/
def wakeup (s : Sched) (chan : Word) : Option Sched :=
  if chan = 0 then some s
  else if s.runQueueHead = 0 then some s
  else wakeupLoop chan walkBound s s.runQueueHead

/-- `sched_on_timer_tick`. -/
def schedOnTimerTick (s : Sched) : Sched := { s with needResched := true }

/-- What `sched_on_trap_exit` does to the current task before it gives the core back. -/
def schedPreempt (s : Sched) : Sched :=
  let s := { s with needResched := false }
  if (s.task s.current).state = .running then s.setState s.current .ready else s

end Pros
