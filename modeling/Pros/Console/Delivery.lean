import Pros.Console.LineEditor
import Pros.Console.Wakeup
import Pros.Fs.File

/-!
# Console input is delivered exactly once

Any number of tasks call `sys_read` on the console, while the UART delivers bytes and tasks are
preempted and put to sleep. The core of `Pros.Console.Machine` is extended by what `sys_read` does
with each task, and by a history: the lines that were completed, and what the reads took from them.

What a completed line holds is told by the abstract line editor, `typeByte`.
-/

namespace Pros

/-! ## The core with its readers -/

/-- How far a task is in `sys_read` on the console. `count` and `totalCount` are its variables,
`copied` is what it has copied to the caller. -/
inductive ReadCall
  | none
  -- at the test of the loop
  | loop (count totalCount : Word) (copied : List (BitVec 8))
  -- in `console_dev_ops_read`
  | device (count totalCount : Word) (copied : List (BitVec 8))
  -- the line discipline was drained into `chunk`
  | chunk (count totalCount : Word) (copied chunk : List (BitVec 8))
  deriving DecidableEq, Repr

namespace ReadCall

/-- The line discipline is drained. -/
def drained (bytes : List (BitVec 8)) : ReadCall → ReadCall
  | .device count totalCount copied => .chunk count totalCount copied bytes
  | call => call

/-- What was drained and not yet returned. -/
def pending : ReadCall → List (List (BitVec 8))
  | .chunk _ _ _ bytes => [bytes]
  | _ => []

end ReadCall

/-- The core, how far its tasks are in `sys_read`, and a history: the unfinished line, the lines that
were completed, what the reads drained and what they returned, with the tasks that read. -/
structure Console where
  core : Machine
  call : Word → ReadCall
  line : List (BitVec 8)
  lines : List (List (BitVec 8))
  drains : List (Word × List (BitVec 8))
  results : List (Word × List (BitVec 8))

namespace Pc

/-- The next statement drains the line discipline. -/
@[simp]
def drains : Pc → Bool
  | .read _ _ .drain => true
  | _ => false

/-- The next statement feeds the line discipline. -/
@[simp]
def feeds : Pc → Bool
  | .feed _ _ .feed => true
  | _ => false

end Pc

/-- The task that the core runs. -/
abbrev Console.current (s : Console) : Word := s.core.sched.current

/-- `sys_read` of the current task moves on. -/
def Console.setCall (s : Console) (call : ReadCall) : Word → ReadCall :=
  Function.update s.call s.current call

/-- One step of the core, or of `sys_read` in the current task. -/
inductive ConsoleStep (chan : Word) : Console → Console → Prop
  -- statements outside of syscalls that neither feed nor drain
  | core (s : Console) (core : Machine) : MachineStep chan s.core core →
      s.core.pc ≠ .at .syscall → s.core.pc.drains = false → s.core.pc.feeds = false →
      ConsoleStep chan s { s with core }
  -- interrupts and faults in a syscall
  | trap (s : Console) (core : Machine) (frame : Frame) : MachineStep chan s.core core →
      s.core.pc = .at .syscall → frame.place = .syscall →
      core.pc = .uart frame ∨ core.pc = .timer frame ∨ core.pc = .trapExit frame →
      ConsoleStep chan s { s with core }
  -- a task that is not in `sys_read` leaves the syscall, or exits
  | leave (s : Console) (core : Machine) : MachineStep chan s.core core →
      s.core.pc = .at .syscall → s.call s.current = .none →
      (∀ flags size, core.pc ≠ .read flags size .lock) → ConsoleStep chan s { s with core }
  -- `sys_read`: its loop calls the device, which is a char device
  | sysRead (s : Console) (count : Word) : s.core.pc = .at .syscall → s.call s.current = .none →
      count ≠ 0 → ConsoleStep chan s { s with call := s.setCall (.loop count 0 []) }
  | readChunk (s : Console) (count totalCount : Word) (copied : List (BitVec 8)) :
      s.core.pc = .at .syscall → s.call s.current = .loop count totalCount copied →
      totalCount < count →
      ConsoleStep chan s
        { s with
          core := { s.core with
            pc := .read s.core.irq (chunkLen count totalCount) .lock
            irq := false }
          call := s.setCall (.device count totalCount copied) }
  | drain (s : Console) (flags : Bool) (size : Word) : s.core.pc = .read flags size .drain →
      ConsoleStep chan s
        { s with
          core := { s.core with
            pc := .read flags size .unlock
            ld := (ldiscDrain s.core.ld size).1 }
          call := s.setCall ((s.call s.current).drained (ldiscDrain s.core.ld size).2)
          drains := s.drains ++ [(s.current, (ldiscDrain s.core.ld size).2)] }
  -- the chunk is copied to the caller; one read is one line on a char stream
  | copy (s : Console) (count totalCount : Word) (copied chunk : List (BitVec 8)) :
      s.core.pc = .at .syscall → s.call s.current = .chunk count totalCount copied chunk →
      ConsoleStep chan s
        { s with
          call := s.setCall .none
          results := s.results ++ [(s.current, copied ++ chunk)] }
  | readDone (s : Console) (count totalCount : Word) (copied : List (BitVec 8)) :
      s.core.pc = .at .syscall → s.call s.current = .loop count totalCount copied →
      ¬ totalCount < count →
      ConsoleStep chan s
        { s with
          call := s.setCall .none
          results := s.results ++ [(s.current, copied)] }
  -- a byte is typed, unless a line waits
  | feed (s : Console) (frame : Frame) (byte : BitVec 8) : s.core.pc = .feed frame byte .feed →
      ConsoleStep chan s
        { s with
          core := { s.core with
            pc := .feed frame byte .ready
            ld := (ldiscFeed s.core.ld byte).1 }
          line := if s.core.ld.complete then s.line else (typeByte s.line byte).1
          lines := if s.core.ld.complete then s.lines
            else s.lines ++ (typeByte s.line byte).2.toList }

variable {chan : Word} {old : Set Word} {ts : List Word} {s s' : Machine}

theorem chunkLen_ne_zero {count totalCount : Word} (h : totalCount < count) :
    chunkLen count totalCount ≠ 0 := by
  rw [chunkLen]
  split <;> bv_omega

/-- Every step is one of the core, or leaves the core alone. -/
theorem ConsoleStep.machineStep {c c' : Console} (h : ConsoleStep chan c c') :
    c'.core = c.core ∨ MachineStep chan c.core c'.core := by
  cases h with
  | core core hstep | trap core frame hstep | leave core hstep => exact Or.inr hstep
  | sysRead | copy | readDone => exact Or.inl rfl
  | readChunk count totalCount copied hpc _ hlt =>
    exact Or.inr (.read _ _ hpc (chunkLen_ne_zero hlt))
  | drain flags size hpc => exact Or.inr (.readDrain _ flags size hpc)
  | feed frame byte hpc => exact Or.inr (.feedFeed _ frame byte hpc)

/-! ## Who is reading -/

/-- The task is in `console_dev_ops_read` for `size` bytes and has not drained the line. -/
def Machine.Reads (s : Machine) (t size : Word) : Prop :=
  t ≠ 0 ∧
    ((t = s.sched.current ∧ ∃ flags pc, s.pc = .read flags size pc ∧ pc ≠ .unlock ∧ pc ≠ .restore) ∨
      ((t ≠ s.sched.current ∨ s.pc = .returned) ∧ ∃ flags, s.saved t = .sleeping flags size))

/-- What a step of the core that neither feeds nor drains means to the readers. -/
structure Machine.Quiet (s s' : Machine) : Prop where
  ld : s'.ld = s.ld
  reads : ∀ t size, s'.Reads t size → s.Reads t size
  drains : s'.pc.drains = true → s.ld.complete = true

namespace Machine.Quiet

/-- A step to a statement outside of the device. -/
theorem of_pc (hld : s'.ld = s.ld) (hcur : s'.sched.current = s.sched.current)
    (hsaved : s'.saved = s.saved) (hread : ∀ flags size pc, s'.pc ≠ .read flags size pc)
    (hret : s'.pc ≠ .returned) : s.Quiet s' where
  ld := hld
  reads := by
    rintro t size ⟨h0, ⟨-, flags, pc, hpc, -⟩ | ⟨hne, hsleep⟩⟩
    · exact absurd hpc (hread flags size pc)
    · exact ⟨h0, Or.inr ⟨Or.inl (hcur ▸ hne.resolve_right hret), hsaved ▸ hsleep⟩⟩
  drains := by
    intro hdrains
    cases hpc : s'.pc with
    | read flags size pc => exact absurd hpc (hread flags size pc)
    | _ => simp [hpc] at hdrains

/-- A step inside the device. -/
theorem of_read {flags : Bool} {size : Word} {pc pc' : ReadPc} (hld : s'.ld = s.ld)
    (hcur : s'.sched.current = s.sched.current) (hsaved : s'.saved = s.saved)
    (hpc : s.pc = .read flags size pc) (hpc' : s'.pc = .read flags size pc')
    (hbefore : pc ≠ .unlock ∧ pc ≠ .restore) (hdrain : pc' = .drain → s.ld.complete = true) :
    s.Quiet s' where
  ld := hld
  reads := by
    rintro t sz ⟨h0, ⟨ht, flags', rp, hrp, -⟩ | ⟨hne, hsleep⟩⟩
    · rw [hpc', Pc.read.injEq] at hrp
      obtain ⟨-, rfl, -⟩ := hrp
      exact ⟨h0, Or.inl ⟨hcur ▸ ht, flags, pc, hpc, hbefore⟩⟩
    · refine ⟨h0, Or.inr ⟨Or.inl ?_, hsaved ▸ hsleep⟩⟩
      rw [hpc'] at hne
      exact hcur ▸ hne.resolve_right (by simp)
  drains := by
    intro hdrains
    rw [hpc'] at hdrains
    refine hdrain ?_
    cases pc' <;> simp_all

/-- Handing the core back. -/
theorem yield {resume : Resume} (hpc : ∀ flags size, resume = .sleeping flags size →
      ∃ pc, s.pc = .read flags size pc ∧ pc ≠ .unlock ∧ pc ≠ .restore) :
    s.Quiet (s.yield resume) := by
  rw [Machine.yield]
  split_ifs with hirq
  · exact of_pc rfl rfl rfl (by simp) (by simp)
  · refine ⟨rfl, ?_, by simp⟩
    rintro t size ⟨h0, ⟨-, flags, pc, hread, -⟩ | ⟨-, flags, hsleep⟩⟩
    · cases hread
    · by_cases ht : t = s.sched.current
      · subst ht
        obtain ⟨pc, hread⟩ := hpc flags size (by simpa using hsleep)
        exact ⟨h0, Or.inl ⟨rfl, flags, pc, hread⟩⟩
      · exact ⟨h0, Or.inr ⟨Or.inl ht, flags, by simpa [ht] using hsleep⟩⟩

theorem schedOnTrapExit (frame : Frame) : s.Quiet (s.schedOnTrapExit frame) := by
  rw [Machine.schedOnTrapExit]
  split_ifs
  · exact of_pc rfl rfl rfl (by simp [Machine.trapReturn]) (by simp [Machine.trapReturn])
  · exact of_pc rfl rfl rfl (by simp [Machine.trapReturn]) (by simp [Machine.trapReturn])
  · have hyield : ({ s with sched := schedPreempt s.sched } : Machine).Quiet
        ({ s with sched := schedPreempt s.sched }.yield (.trapReturn frame)) := yield (by simp)
    have hcur : (schedPreempt s.sched).current = s.sched.current := by
      rw [schedPreempt]
      split <;> rfl
    refine ⟨hyield.ld, fun t size hreads => ?_, hyield.drains⟩
    have hreads' := hyield.reads t size hreads
    rwa [Machine.Reads, hcur] at hreads'

/-- Switching from the scheduler to a task. -/
theorem dispatch {next : Word} (hcur : s.sched.current = 0) :
    s.Quiet (s.dispatch next) := by
  have hothers : ∀ t size, t ≠ 0 → (∃ flags, s.saved t = .sleeping flags size) → s.Reads t size :=
    fun t size h0 hsleep => ⟨h0, Or.inr ⟨Or.inl (hcur ▸ h0), hsleep⟩⟩
  rw [Machine.dispatch]
  cases hsaved : s.saved next with
  | trapReturn frame =>
    refine ⟨rfl, ?_, by simp [Machine.trapReturn]⟩
    rintro t size ⟨h0, ⟨-, flags, pc, hread, -⟩ | ⟨-, hsleep⟩⟩
    · simp [Machine.trapReturn] at hread
    · exact hothers t size h0 hsleep
  | sleeping flags size =>
    refine ⟨rfl, ?_, by simp⟩
    rintro t sz ⟨h0, ⟨ht, flags', pc, hread, -⟩ | ⟨-, hsleep⟩⟩
    · simp only [Pc.read.injEq] at hread
      obtain rfl : t = next := ht
      exact hothers t sz h0 ⟨flags, hread.2.1 ▸ hsaved⟩
    · exact hothers t sz h0 hsleep

end Machine.Quiet

/-- Steps that neither enter the device nor drain nor feed. -/
theorem MachineStep.quiet (hchan : chan ≠ 0) (hstep : MachineStep chan s s')
    (ht : s.TasksOk old ts) (hl : s.LineOk old chan) (hdrains : s.pc.drains = false) (hfeeds : s.pc.feeds = false)
    (hstart : s.pc = .at .syscall → ∀ flags size, s'.pc ≠ .read flags size .lock) : s.Quiet s' := by
  cases hstep with
  | syscall hpc | syscallEnable hpc | syscallLeave place hpc hplace | exit hpc | exitResched hpc
  | readRestore flags size hpc | uartIrq place hpc | timerIrq place hpc | fault place hpc
  | uartByte frame byte hpc | uartDone frame hpc | feedLock frame byte hpc
  | feedReady frame byte hpc | feedUnlock frame byte ready hpc | timerTick frame hpc | idleOpen hpc
  | idleClose hpc =>
    exact Machine.Quiet.of_pc rfl rfl rfl (by simp) (by simp)
  | feedStart frame byte hpc =>
    refine Machine.Quiet.of_pc rfl rfl rfl (fun flags size pc => ?_) ?_ <;> dsimp only <;>
      split <;> simp
  | feedFeed frame byte hpc | readDrain flags size hpc => simp [hpc] at hdrains hfeeds
  | read size hpc => exact absurd rfl (hstart hpc _ _)
  | readLock flags size hpc | sleepUnlock flags size hpc | sleepRelock flags size hpc
  | sleepState flags size hpc =>
    exact Machine.Quiet.of_read rfl rfl rfl hpc rfl (by simp) (by simp)
  | readTest flags size hpc =>
    refine Machine.Quiet.of_read rfl rfl rfl hpc rfl (by simp) ?_
    split
    · exact fun _ => by assumption
    · simp
  | readUnlock flags size hpc =>
    refine ⟨rfl, ?_, by simp⟩
    rintro t sz ⟨h0, ⟨-, flags', pc, hread, -, hrestore⟩ | ⟨hne, hsleep⟩⟩
    · simp only [Pc.read.injEq] at hread
      exact absurd hread.2.2.symm hrestore
    · exact ⟨h0, Or.inr ⟨Or.inl (hne.resolve_right (by simp)), hsleep⟩⟩
  | sleepChan flags size hpc =>
    rw [if_neg (ht.ring.ne_zero (ht.current (by simp [hpc])).1)]
    exact Machine.Quiet.of_read rfl rfl rfl hpc rfl (by simp) (by simp)
  | sleepSched flags size hpc =>
    refine Machine.Quiet.yield fun flags' size' hsleep => ?_
    cases hsleep
    exact ⟨_, hpc, by simp⟩
  | sleepResume flags size hpc =>
    have hirq := hl.irq_eq_false (by simp [hpc])
    exact Machine.Quiet.of_read rfl rfl rfl hpc (if_neg (by simp [hirq])) (by simp) (by simp)
  | feedWakeup frame byte ready sched hpc hwake =>
    cases ready with
    | false =>
      obtain rfl : s.sched = sched := by simpa using hwake
      exact Machine.Quiet.of_pc rfl rfl rfl (by simp) (by simp)
    | true =>
      obtain rfl : s.sched.wake chan ts = sched := by simpa [ht.ring.wakeup hchan] using hwake
      exact Machine.Quiet.of_pc rfl rfl rfl (by simp) (by simp)
  | trapExit frame hpc => exact Machine.Quiet.schedOnTrapExit frame
  | pick task sched hpc hpick hne =>
    obtain ⟨hpicked, -, -⟩ := ht.pick hpick
    have hcur : s.sched.current = 0 := ht.noTask (by simp [hpc])
    have hcur' : sched.current = 0 := hpicked.noTask (by simp [hpc])
    have hquiet : Machine.Quiet { s with sched } ({ s with sched }.dispatch task) :=
      Machine.Quiet.dispatch hcur'
    refine ⟨hquiet.ld, fun t size hreads => ?_, hquiet.drains⟩
    have hreads' := hquiet.reads t size hreads
    rw [Machine.Reads, hcur'] at hreads'
    rwa [Machine.Reads, hcur]
  | pickNone sched alive hpc hpick halive =>
    obtain ⟨hpicked, -, -⟩ := ht.pick hpick
    have hcur : s.sched.current = 0 := ht.noTask (by simp [hpc])
    have hcur' : sched.current = 0 := hpicked.noTask (by simp [hpc])
    cases alive <;>
      exact Machine.Quiet.of_pc rfl (hcur'.trans hcur.symm) rfl (by simp) (by simp)
  | returned hpc =>
    rw [if_neg (not_not.mpr (ht.current (by simp [hpc])).2)]
    refine ⟨rfl, ?_, by simp⟩
    rintro t size ⟨h0, ⟨-, flags, pc, hread, -⟩ | ⟨-, hsleep⟩⟩
    · cases hread
    · exact ⟨h0, Or.inr ⟨Or.inr hpc, hsleep⟩⟩

/-! ## The history -/

/-- The bytes of the entries of one task. -/
def bytesOf (t : Word) (log : List (Word × List (BitVec 8))) : List (List (BitVec 8)) :=
  (log.filter (·.1 = t)).map Prod.snd

theorem bytesOf_append (t u : Word) (log : List (Word × List (BitVec 8)))
    (bytes : List (BitVec 8)) :
    bytesOf t (log ++ [(u, bytes)]) = bytesOf t log ++ if u = t then [bytes] else [] := by
  by_cases hu : u = t <;> simp [bytesOf, hu]

/-- Nothing has been copied to the caller yet: the loop of `sys_read` never comes back to its test
with something read. -/
def ReadCall.Fresh : ReadCall → Prop
  | .none => True
  | .loop count totalCount copied => totalCount = 0 ∧ copied = [] ∧ count ≠ 0
  | .device _ _ copied | .chunk _ _ copied _ => copied = []

/-- The calls of `sys_read` and the readers of the core. -/
structure Console.CallsOk (ts : List Word) (s : Console) : Prop where
  fresh : ∀ t, (s.call t).Fresh
  reads : ∀ t ∈ ts, ∀ size, s.core.Reads t size →
    size ≠ 0 ∧ ∃ count totalCount copied, s.call t = .device count totalCount copied
  drains : s.core.pc.drains = true → s.core.ld.complete = true

/-- What the history says. -/
structure Console.HistoryOk (s : Console) : Prop where
  ld : s.core.ld.Ok s.line
  bytes : (s.drains.map Prod.snd).flatten ++ s.core.ld.rest = s.lines.flatten
  waits : s.core.ld.complete = true → ∃ line ∈ s.lines, s.core.ld.rest <:+ line
  oneLine : ∀ d ∈ s.drains, d.2 ≠ [] ∧ ∃ line ∈ s.lines, d.2 <:+: line
  returned : ∀ t, bytesOf t s.drains = bytesOf t s.results ++ (s.call t).pending

variable {c c' : Console}

/-- A step of the core that neither feeds nor drains. -/
theorem Console.CallsOk.quiet (h : c.CallsOk ts) {core : Machine} (hquiet : c.core.Quiet core) :
    Console.CallsOk ts { c with core } where
  fresh := h.fresh
  reads := fun t ht size hreads => h.reads t ht size (hquiet.reads t size hreads)
  drains := fun hdrains => by
    rw [hquiet.ld]
    exact hquiet.drains hdrains

theorem Console.HistoryOk.quiet (h : c.HistoryOk) {core : Machine} (hquiet : c.core.Quiet core) :
    Console.HistoryOk { c with core } where
  ld := by rw [hquiet.ld]; exact h.ld
  bytes := by rw [hquiet.ld]; exact h.bytes
  waits := by rw [hquiet.ld]; exact h.waits
  oneLine := h.oneLine
  returned := h.returned

/-- A task in the code of a syscall outside of the device is no reader. -/
theorem Machine.not_reads_current {place : Place} (hpc : s.pc = .at place) (size : Word) :
    ¬ s.Reads s.sched.current size := by
  rintro ⟨-, ⟨-, flags, pc, hread, -⟩ | ⟨hne | hret, -⟩⟩
  · simp [hpc] at hread
  · exact hne rfl
  · simp [hpc] at hret

theorem Console.setCall_current (c : Console) (call : ReadCall) : c.setCall call c.current = call :=
  Function.update_self ..

theorem Console.setCall_of_ne (c : Console) (call : ReadCall) {t : Word} (ht : t ≠ c.current) :
    c.setCall call t = c.call t :=
  Function.update_of_ne ht ..

theorem Console.CallsOk.fresh_setCall (h : c.CallsOk ts) {call : ReadCall} (hcall : call.Fresh)
    (t : Word) : (c.setCall call t).Fresh := by
  by_cases ht : t = c.current
  · rw [ht, Console.setCall_current]
    exact hcall
  · rw [Console.setCall_of_ne c call ht]
    exact h.fresh t

/-- Readers other than the current task go on. -/
theorem Console.CallsOk.reads_setCall (h : c.CallsOk ts) {t size : Word} (call : ReadCall)
    (hmem : t ∈ ts) (ht : t ≠ c.current) (hreads : c.core.Reads t size) :
    size ≠ 0 ∧ ∃ count totalCount copied, c.setCall call t = .device count totalCount copied := by
  rw [Console.setCall_of_ne c call ht]
  exact h.reads t hmem size hreads

/-- `sys_read` of the current task moves on outside of the device. -/
theorem Console.CallsOk.setCall (h : c.CallsOk ts) (hpc : c.core.pc = .at .syscall) (call : ReadCall)
    (hcall : call.Fresh) (results : List (Word × List (BitVec 8))) :
    Console.CallsOk ts { c with call := c.setCall call, results } := by
  refine ⟨h.fresh_setCall hcall, fun t hmem size hreads => h.reads_setCall call hmem ?_ hreads,
    h.drains⟩
  rintro rfl
  exact Machine.not_reads_current hpc size hreads

/-- `sys_read` calls the device. -/
theorem Console.CallsOk.readChunk (h : c.CallsOk ts) {count totalCount : Word}
    (hlt : totalCount < count) :
    Console.CallsOk ts
      { c with
        core := { c.core with
          pc := .read c.core.irq (chunkLen count totalCount) .lock
          irq := false }
        call := c.setCall (.device count totalCount []) } := by
  refine ⟨h.fresh_setCall rfl, ?_, by simp⟩
  rintro t hmem size ⟨h0, ⟨ht, flags, pc, hread, -⟩ | ⟨hne, hsleep⟩⟩
  · simp only [Pc.read.injEq] at hread
    obtain rfl : t = c.current := ht
    exact ⟨hread.2.1 ▸ chunkLen_ne_zero hlt, count, totalCount, [], c.setCall_current _⟩
  · have hne' : t ≠ c.current := hne.resolve_right (by simp)
    exact h.reads_setCall _ hmem hne' ⟨h0, Or.inr ⟨Or.inl hne', hsleep⟩⟩

/-- The reader drains the line. -/
theorem Console.CallsOk.drain (h : c.CallsOk ts) {flags : Bool} {size count totalCount : Word}
    {bytes : List (BitVec 8)} {ld : Ldisc} {drains : List (Word × List (BitVec 8))} :
    Console.CallsOk ts
      { c with
        core := { c.core with pc := .read flags size .unlock, ld }
        call := c.setCall (.chunk count totalCount [] bytes)
        drains } := by
  refine ⟨h.fresh_setCall rfl, ?_, by simp⟩
  rintro t hmem sz ⟨h0, ⟨-, flags', pc, hread, hunlock, -⟩ | ⟨hne, hsleep⟩⟩
  · simp only [Pc.read.injEq] at hread
    exact absurd hread.2.2.symm hunlock
  · have hne' : t ≠ c.current := hne.resolve_right (by simp)
    exact h.reads_setCall _ hmem hne' ⟨h0, Or.inr ⟨Or.inl hne', hsleep⟩⟩

/-- Somebody types. -/
theorem Console.CallsOk.feed (h : c.CallsOk ts) {frame : Frame} {byte : BitVec 8} {ld : Ldisc}
    {line : List (BitVec 8)} {lines : List (List (BitVec 8))} :
    Console.CallsOk ts
      { c with core := { c.core with pc := .feed frame byte .ready, ld }, line, lines } := by
  refine ⟨h.fresh, ?_, by simp⟩
  rintro t hmem size ⟨h0, ⟨-, flags, pc, hread, -⟩ | ⟨hne, hsleep⟩⟩
  · cases hread
  · exact h.reads t hmem size ⟨h0, Or.inr ⟨Or.inl (hne.resolve_right (by simp)), hsleep⟩⟩

/-- What is pending of the other tasks stays pending. -/
theorem Console.HistoryOk.pending_setCall (h : c.HistoryOk) (call : ReadCall)
    (drains results : List (List (BitVec 8))) (hcur : bytesOf c.current c.drains ++ drains =
      bytesOf c.current c.results ++ results ++ call.pending) (t : Word) :
    (bytesOf t c.drains ++ if c.current = t then drains else []) =
      (bytesOf t c.results ++ if c.current = t then results else []) ++
        (c.setCall call t).pending := by
  by_cases ht : t = c.current
  · subst ht
    rw [if_pos rfl, if_pos rfl, Console.setCall_current]
    exact hcur
  · rw [if_neg (Ne.symm ht), if_neg (Ne.symm ht), List.append_nil, List.append_nil,
      Console.setCall_of_ne c call ht]
    exact h.returned t

/-- The current task calls the device, or starts to read: nothing is taken from the line. -/
theorem Console.HistoryOk.setCall (h : c.HistoryOk) {call : ReadCall} {pc : Pc} {irq : Bool}
    (hcall : call.pending = (c.call c.current).pending) :
    Console.HistoryOk { c with core := { c.core with pc, irq }, call := c.setCall call } := by
  refine ⟨h.ld, h.bytes, h.waits, h.oneLine, fun t => ?_⟩
  have hcur := h.returned c.current
  rw [← hcall] at hcur
  have hpending := h.pending_setCall call [] [] (by simpa using hcur) t
  simpa using hpending

/-- The current task takes bytes off the line that waits. -/
theorem Console.HistoryOk.drain (h : c.HistoryOk) {flags : Bool} {size count totalCount : Word}
    (hcomplete : c.core.ld.complete = true) (hsize : size ≠ 0)
    (hpending : (c.call c.current).pending = []) :
    Console.HistoryOk
      { c with
        core := { c.core with
          pc := .read flags size .unlock
          ld := (ldiscDrain c.core.ld size).1 }
        call := c.setCall (.chunk count totalCount [] (ldiscDrain c.core.ld size).2)
        drains := c.drains ++ [(c.current, (ldiscDrain c.core.ld size).2)] } := by
  obtain ⟨hld, hne, hrest⟩ := h.ld.drain hcomplete hsize
  obtain ⟨-, -, hline⟩ := h.ld.finished hcomplete
  obtain ⟨line, hmem, hsuffix⟩ := h.waits hcomplete
  refine ⟨hline ▸ hld, ?_, fun _ => ⟨line, hmem, ?_⟩, fun d hd => ?_, fun t => ?_⟩
  · rw [← h.bytes, ← hrest]
    simp
  · exact (List.IsSuffix.trans ⟨_, hrest⟩ hsuffix)
  · rcases List.mem_append.mp hd with hd | hd
    · exact h.oneLine d hd
    · rw [List.mem_singleton.mp hd]
      exact ⟨hne, line, hmem, (List.IsPrefix.isInfix ⟨_, hrest⟩).trans hsuffix.isInfix⟩
  · have hcur := h.returned c.current
    rw [hpending, List.append_nil] at hcur
    have hall := h.pending_setCall (.chunk count totalCount [] (ldiscDrain c.core.ld size).2)
      [(ldiscDrain c.core.ld size).2] [] (by rw [hcur]; simp [ReadCall.pending]) t
    rw [bytesOf_append, hall]
    simp

/-- `sys_read` returns what it drained. -/
theorem Console.HistoryOk.copy (h : c.HistoryOk) {count totalCount : Word} {bytes : List (BitVec 8)}
    (hchunk : c.call c.current = .chunk count totalCount [] bytes) :
    Console.HistoryOk
      { c with call := c.setCall .none, results := c.results ++ [(c.current, [] ++ bytes)] } := by
  refine ⟨h.ld, h.bytes, h.waits, h.oneLine, fun t => ?_⟩
  have hcur := h.returned c.current
  rw [hchunk] at hcur
  have hall := h.pending_setCall .none [] [bytes]
    (by rw [hcur]; simp [ReadCall.pending]) t
  rw [List.nil_append, bytesOf_append, ← hall]
  simp

/-- Somebody types. -/
theorem Console.HistoryOk.feed (h : c.HistoryOk) {frame : Frame} {byte : BitVec 8} :
    Console.HistoryOk
      { c with
        core := { c.core with
          pc := .feed frame byte .ready
          ld := (ldiscFeed c.core.ld byte).1 }
        line := if c.core.ld.complete then c.line else (typeByte c.line byte).1
        lines := if c.core.ld.complete then c.lines
          else c.lines ++ (typeByte c.line byte).2.toList } := by
  cases hcomplete : c.core.ld.complete with
  | true =>
    -- the byte is dropped
    have hsame : (ldiscFeed c.core.ld byte).1 = c.core.ld := by simp [ldiscFeed, hcomplete]
    simp only [hsame, if_true]
    exact ⟨h.ld, h.bytes, h.waits, h.oneLine, h.returned⟩
  | false =>
    obtain ⟨hld, hrest⟩ := h.ld.feed hcomplete byte
    have hbytes := h.bytes
    rw [Ldisc.rest_of_unfinished hcomplete, List.append_nil] at hbytes
    simp only [Bool.false_eq_true, if_false]
    refine ⟨hld, ?_, fun hfin => ?_, fun d hd => ?_, h.returned⟩
    · rw [hrest, hbytes, List.flatten_append]
      cases (typeByte c.line byte).2 <;> simp
    · -- a line that waits now is the one that was completed
      have hpos : (ldiscFeed c.core.ld byte).1.rest ≠ [] := by
        have hlt := (hld.finished hfin).1
        refine fun hnil => absurd (congrArg List.length hnil) ?_
        rw [Ldisc.rest, if_pos hfin, Ldisc.length_slice, List.length_nil]
        bv_omega
      rw [hrest] at hpos ⊢
      cases hline : (typeByte c.line byte).2 with
      | none => simp [hline] at hpos
      | some line => exact ⟨line, by simp, List.suffix_rfl⟩
    · obtain ⟨hne, line, hmem, hin⟩ := h.oneLine d hd
      exact ⟨hne, line, List.mem_append_left _ hmem, hin⟩

/-- Every step keeps the invariant. -/
theorem ConsoleStep.inv (hchan : chan ≠ 0) (hstep : ConsoleStep chan c c') (h : c.CallsOk ts)
    (hh : c.HistoryOk) (ht : c.core.TasksOk old ts) (hl : c.core.LineOk old chan) :
    c'.CallsOk ts ∧ c'.HistoryOk := by
  cases hstep with
  | core core hstep hpc hdrains hfeeds =>
    have hquiet := hstep.quiet hchan ht hl hdrains hfeeds fun hsys => absurd hsys hpc
    exact ⟨h.quiet hquiet, hh.quiet hquiet⟩
  | trap core frame hstep hpc hplace hcore =>
    have hquiet := hstep.quiet hchan ht hl (by simp [hpc]) (by simp [hpc]) fun _ flags size hread => by
      rcases hcore with hcore | hcore | hcore <;> simp [hcore] at hread
    exact ⟨h.quiet hquiet, hh.quiet hquiet⟩
  | leave core hstep hpc _ hread =>
    have hquiet := hstep.quiet hchan ht hl (by simp [hpc]) (by simp [hpc]) fun _ => hread
    exact ⟨h.quiet hquiet, hh.quiet hquiet⟩
  | sysRead count hpc hnone hcount =>
    exact ⟨h.setCall hpc (.loop count 0 []) ⟨rfl, rfl, hcount⟩ _, hh.setCall (by rw [hnone]; rfl)⟩
  | readChunk count totalCount copied hpc hloop hlt =>
    have hfresh := h.fresh c.current
    rw [hloop] at hfresh
    obtain ⟨-, rfl, -⟩ := hfresh
    exact ⟨h.readChunk hlt, hh.setCall (by rw [hloop]; rfl)⟩
  | drain flags size hpc =>
    have hcur : c.current ∈ ts := (ht.current (by simp [hpc])).1
    obtain ⟨hsize, count, totalCount, copied, hdev⟩ := h.reads c.current hcur size
      ⟨ht.ring.ne_zero hcur, Or.inl ⟨rfl, flags, .drain, hpc, by simp⟩⟩
    have hfresh := h.fresh c.current
    rw [hdev] at hfresh
    obtain rfl : copied = [] := hfresh
    rw [hdev, ReadCall.drained]
    exact ⟨h.drain, hh.drain (h.drains (by simp [hpc])) hsize (by rw [hdev]; rfl)⟩
  | copy count totalCount copied chunk hpc hchunk =>
    have hfresh := h.fresh c.current
    rw [hchunk] at hfresh
    obtain rfl : copied = [] := hfresh
    exact ⟨h.setCall hpc .none trivial _, hh.copy hchunk⟩
  | readDone count totalCount copied hpc hloop hge =>
    have hfresh := h.fresh c.current
    rw [hloop] at hfresh
    obtain ⟨rfl, -, hcount⟩ := hfresh
    exact absurd (by bv_omega) hge
  | feed frame byte hpc => exact ⟨h.feed, hh.feed⟩

/-! ## Whole runs -/

/-- The core when `scheduler` starts; nothing was typed or read. -/
def Console.boot (ts : List Word) (task : Word → Task) (buf : Word → BitVec 8)
    (saved : Word → Resume) : Console where
  core := Machine.boot ts task buf saved
  call := fun _ => .none
  line := []
  lines := []
  drains := []
  results := []

theorem Console.boot_ok (buf : Word → BitVec 8) {task : Word → Task} {saved : Word → Resume}
    {us : List Word} (hfresh : Fresh ts task saved) (hus : ∀ t ∈ us, t ∈ ts) :
    (Console.boot ts task buf saved).CallsOk us ∧ (Console.boot ts task buf saved).HistoryOk := by
  refine ⟨⟨fun _ => trivial, ?_, by simp [Console.boot, Machine.boot]⟩, ⟨?_, rfl, ?_, ?_, ?_⟩⟩
  · rintro t ht size ⟨-, ⟨-, flags, pc, hread, -⟩ | ⟨-, flags, hsleep⟩⟩
    · simp [Console.boot, Machine.boot] at hread
    · obtain ⟨place, -, hsaved⟩ := hfresh.saved t (hus t ht)
      simp [Console.boot, Machine.boot, hsaved] at hsleep
  · exact ⟨fun _ => ⟨rfl, by simp [Console.boot, Machine.boot, ldiscInit], rfl⟩,
      fun hfin => by simp [Console.boot, Machine.boot, ldiscInit] at hfin⟩
  · intro hfin
    simp [Console.boot, Machine.boot, ldiscInit] at hfin
  · simp [Console.boot]
  · exact fun t => rfl

/-- Console input is delivered exactly once. In every state of every run, with any number of tasks
that read: what the reads drained, in the order of the drains, followed by what is left of the line
that waits, is what the completed lines hold; each drain takes bytes of one line only; and the calls
of `sys_read` of a task return what was drained for it, one drain each, in order. -/
theorem console_input_delivered_once (hchan : chan ≠ 0) {task : Word → Task}
    {buf : Word → BitVec 8} {saved : Word → Resume} (hfresh : Fresh ts task saved)
    (hrun : Relation.ReflTransGen (ConsoleStep chan) (Console.boot ts task buf saved) c) :
    (c.drains.map Prod.snd).flatten <+: c.lines.flatten ∧
      (c.drains.map Prod.snd).flatten ++ c.core.ld.rest = c.lines.flatten ∧
      (∀ d ∈ c.drains, d.2 ≠ [] ∧ ∃ line ∈ c.lines, d.2 <:+: line) ∧
      ∀ t, bytesOf t c.drains = bytesOf t c.results ++ (c.call t).pending := by
  obtain ⟨us, ht, hl, hcalls, hh⟩ : ∃ us, c.core.TasksOk {t | (task t).state = .blocked} us ∧
      c.core.LineOk {t | (task t).state = .blocked} chan ∧ c.CallsOk us ∧ c.HistoryOk := by
    induction hrun with
    | refl =>
      obtain ⟨⟨us, hus, ht⟩, hl⟩ := Machine.boot_ok chan buf hfresh
      exact ⟨us, ht, hl, Console.boot_ok buf hfresh hus⟩
    | tail _ hstep ih =>
      obtain ⟨us, ht, hl, hcalls, hh⟩ := ih
      refine ⟨us, ?_, ?_, hstep.inv hchan hcalls hh ht hl⟩
      · rcases hstep.machineStep with heq | hmachine
        · exact heq ▸ ht
        · exact hmachine.tasksOk hchan ht hl
      · rcases hstep.machineStep with heq | hmachine
        · exact heq ▸ hl
        · exact hmachine.lineOk hchan hl ht
  exact ⟨⟨_, hh.bytes⟩, hh.bytes, hh.oneLine, hh.returned⟩

/-- One task types a newline and reads it. -/
theorem console_input_delivered_once_newline :
    ∃ c : Console, c.results = [(0x1000, [0x0a])] ∧ c.lines = [[0x0a]] ∧
      (c.drains.map Prod.snd).flatten <+: c.lines.flatten := by
  let task : Word → Task := fun _ => { state := .ready, chan := 0, next := 0 }
  let saved : Word → Resume := fun _ => .trapReturn { place := .user, irq := true }
  have hfresh : Fresh [0x1000] task saved :=
    ⟨by simp, by decide, fun _ _ => rfl, fun _ _ => ⟨.user, by decide, rfl⟩⟩
  let c₀ := Console.boot [0x1000] task (fun _ => 0) saved
  let user : Frame := { place := .user, irq := true }
  have hpick : schedPickNext c₀.core.sched =
      some (0x1000, { c₀.core.sched with cursor := 0x1000 }) := rfl
  -- the newline arrives in user code
  have htype : ∃ c, Relation.ReflTransGen (ConsoleStep 0x2000) c₀ c ∧ c.core.pc = .at .user ∧
      c.core.locked = false ∧ c.core.sched.current = 0x1000 ∧ c.call 0x1000 = .none ∧
      c.core.ld = (ldiscFeed (ldiscInit fun _ => 0) 0x0a).1 ∧ c.results = [] ∧
      c.lines = [[0x0a]] := by
    refine ⟨_, .head (.core _ _ (.pick c₀.core 0x1000 _ rfl hpick (by decide)) (by decide) rfl rfl) <|
      .head (.core _ _ (.uartIrq _ .user rfl rfl) (fun h => Place.noConfusion (Pc.at.inj h)) rfl rfl) <|
      .head (.core _ _ (.uartByte _ user 0x0a rfl) (by simp) rfl rfl) <|
      .head (.core _ _ (.feedStart _ user 0x0a rfl) (by simp) rfl rfl) <|
      .head (.core _ _ (.feedLock _ user 0x0a rfl rfl) (by simp) rfl rfl) <|
      .head (.feed _ user 0x0a rfl) <|
      .head (.core _ _ (.feedReady _ user 0x0a rfl) (by simp) rfl rfl) <|
      .head (.core _ _ (.feedUnlock _ user 0x0a true rfl) (by simp) rfl rfl) <|
      .head (.core _ _ (.feedWakeup _ user 0x0a true _ rfl rfl) (by simp) rfl rfl) <|
      .head (.core _ _ (.uartDone _ user rfl) (by simp) rfl rfl) <|
      .head (.core _ _ (.trapExit _ user rfl) (by simp) rfl rfl) .refl,
      rfl, rfl, rfl, rfl, rfl, rfl, rfl⟩
  obtain ⟨c₁, hrun₁, hpc, hlocked, hcur, hcall, hld, hresults, hlines⟩ := htype
  have hready : ldiscReady c₁.core.ld = true := by rw [hld]; decide
  have hdrain : (ldiscDrain c₁.core.ld 5).2 = [0x0a] := by rw [hld]; decide
  -- the task reads it
  have hread : ∃ c, Relation.ReflTransGen (ConsoleStep 0x2000) c₁ c ∧
      c.results = [(0x1000, [0x0a])] ∧ c.lines = [[0x0a]] := by
    have hcall' : c₁.call c₁.current = .none := (congrArg c₁.call hcur).trans hcall
    have hself (call : ReadCall) : c₁.setCall call c₁.current = call := c₁.setCall_current call
    refine ⟨_, .head (.core _ _ (.syscall _ hpc) (by simp [hpc]) (by simp [hpc]) (by simp [hpc])) <|
      .head (.core _ _ (.syscallEnable _ rfl) (by simp) rfl rfl) <|
      .head (.sysRead _ 5 rfl hcall' (by decide)) <|
      .head (.readChunk _ 5 0 [] rfl (hself _) (by decide)) <|
      .head (.core _ _ (.readLock _ true 5 rfl hlocked) (by simp) rfl rfl) <|
      .head (.core _ _ (.readTest _ true 5 rfl) (by simp) rfl rfl) <|
      .head (.drain _ true 5 (by simp [hready])) <|
      .head (.core _ _ (.readUnlock _ true 5 rfl) (by simp) rfl rfl) <|
      .head (.core _ _ (.readRestore _ true 5 rfl) (by simp) rfl rfl) <|
      .head (.copy _ 5 0 [] [0x0a] rfl ?_) .refl, ?_, hlines⟩
    · simp only [Console.setCall, Console.current, Function.update_self, ReadCall.drained]
      exact congrArg _ hdrain
    · simp [hresults, Console.current, hcur]
  obtain ⟨c, hrun, hresults, hlines⟩ := hread
  exact ⟨c, hresults, hlines,
    (console_input_delivered_once (by decide) hfresh (hrun₁.trans hrun)).1⟩

end Pros
