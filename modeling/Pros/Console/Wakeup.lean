import Pros.Console.Machine
import Pros.Sched.Ring

/-!
# No lost wakeup

A reader that finds no complete line commits to sleeping under the console lock and keeps interrupts
masked until it is off the core. So a line completes either before the reader looks, or in an
interrupt after it is blocked, and that interrupt wakes it up. The invariant `Machine.Inv` says which
statements hold the lock, that interrupts are unmasked only at the places where traps return to, and
that a task is blocked on the line discipline while a line is complete only inside the interrupt
that completed it.
-/

namespace Pros

namespace Pc

/-- The statement runs with the console lock held. -/
@[simp]
def holdsLock : Pc → Bool
  | .read _ _ .test | .read _ _ .sleepChan | .read _ _ .sleepState | .read _ _ .sleepUnlock
  | .read _ _ .drain | .read _ _ .unlock => true
  | .feed _ _ .feed | .feed _ _ .ready | .feed _ _ (.unlock _) => true
  | _ => false

/-- The core runs on behalf of a task, or is about to note that it no longer does. -/
@[simp]
def onTask : Pc → Bool
  | .at place => place ≠ .idle
  | .uart frame | .feed frame _ _ | .timer frame | .trapExit frame => frame.place ≠ .idle
  | .enter | .read _ _ _ | .returned => true
  | .pick | .idle | .shutdown | .panic => false

/-- The statement belongs to an interrupt handler, or to the trap exit. -/
@[simp]
def inHandler : Pc → Bool
  | .uart _ | .feed _ _ _ | .timer _ | .trapExit _ => true
  | _ => false

/-- A byte was fed and its wakeup is still to come. -/
@[simp]
def delivers : Pc → Bool
  | .feed _ _ .ready | .feed _ _ (.unlock _) | .feed _ _ (.wakeup _) => true
  | _ => false

/-- The statement runs without the lock, and no wakeup is to come. -/
@[simp]
def plain (pc : Pc) : Bool :=
  !pc.holdsLock && !pc.delivers

/-- The reader has seen that no line is complete and is about to block. -/
@[simp]
def commits : Pc → Bool
  | .read _ _ .sleepChan | .read _ _ .sleepState => true
  | _ => false

/-- The value of `ready` in `console_dev_feed`, once it is known. -/
@[simp]
def ready : Pc → Option Bool
  | .feed _ _ (.unlock ready) | .feed _ _ (.wakeup ready) => some ready
  | _ => none

end Pc

/-- The task is blocked on the channel. -/
def Sched.BlockedOn (s : Sched) (chan t : Word) : Prop :=
  (s.task t).state = .blocked ∧ (s.task t).chan = chan

/-- The part of the invariant about tasks. What lies at the addresses `old`, which are of no task, may
look blocked from the start. -/
structure Machine.TasksOk (old : Set Word) (ts : List Word) (s : Machine) : Prop where
  ring : s.sched.Ring ts
  cursor : s.sched.cursor = 0 ∨ s.sched.cursor ∈ ts
  current : s.pc.onTask = true → s.sched.current ∈ ts ∧ s.sched.current = s.next
  noTask : s.pc.onTask = false → s.sched.current = 0
  saved : ∀ t ∈ ts, ∀ frame, s.saved t = .trapReturn frame → frame.place ≠ .idle
  blocked : ∀ t, (s.sched.task t).state = .blocked → t ∈ ts ∨ t ∈ old
  running : s.pc ≠ .panic

/-- The part of the invariant about the lock, the interrupt mask and the line. -/
structure Machine.LineOk (old : Set Word) (chan : Word) (s : Machine) : Prop where
  masked : s.irq = true → ∃ place, s.pc = .at place
  locked : s.locked = true → s.pc.holdsLock = true
  asleep : s.ld.complete = true → ∀ t ∉ old, s.sched.BlockedOn chan t → s.pc.delivers = true
  commits : s.pc.commits = true → s.ld.complete = false
  ready : ∀ ready, s.pc.ready = some ready → ready = s.ld.complete

variable {chan : Word} {old : Set Word} {ts : List Word} {s s' : Machine}

/-- Waking makes nobody blocked, and leaves nobody of the ring blocked on the channel. -/
theorem Sched.blocked_of_wake {s : Sched} {t : Word}
    (h : ((s.wake chan ts).task t).state = .blocked) :
    (s.task t).state = .blocked ∧ (t ∈ ts → ((s.wake chan ts).task t).chan ≠ chan) := by
  simp only [Sched.wake] at h ⊢
  split_ifs at h ⊢ with hwoken
  exact ⟨h, fun ht hc => hwoken ⟨ht, h, hc⟩⟩

/-! ## Tasks -/

namespace Machine.TasksOk

/-- A step that links no tasks and switches to none. -/
theorem of_links (h : s.TasksOk old ts) (hhead : s'.sched.runQueueHead = s.sched.runQueueHead)
    (hlinks : ∀ t, s'.sched.next t = s.sched.next t) (hcursor : s'.sched.cursor = s.sched.cursor)
    (hcurrent : s'.sched.current = s.sched.current)
    (hblocked : ∀ t, (s'.sched.task t).state = .blocked → t ∈ ts ∨ t ∈ old)
    (hsaved : s'.saved = s.saved) (hnext : s'.next = s.next) (hpc : s'.pc.onTask = s.pc.onTask) (hrunning : s'.pc ≠ .panic) :
    s'.TasksOk old ts where
  ring := h.ring.of_next hhead fun t _ => hlinks t
  cursor := by rw [hcursor]; exact h.cursor
  current := by rw [hcurrent, hpc, hnext]; exact h.current
  noTask := by rw [hcurrent, hpc]; exact h.noTask
  saved := hsaved ▸ h.saved
  blocked := hblocked
  running := hrunning

/-- A statement that only moves on. -/
theorem goto (h : s.TasksOk old ts) (hsched : s'.sched = s.sched) (hsaved : s'.saved = s.saved)
    (hnext : s'.next = s.next) (hpc : s'.pc.onTask = s.pc.onTask) (hrunning : s'.pc ≠ .panic) :
    s'.TasksOk old ts :=
  h.of_links (by rw [hsched]) (fun t => by rw [hsched]) (by rw [hsched]) (by rw [hsched])
    (by rw [hsched]; exact h.blocked) hsaved hnext hpc hrunning

/-- Changing the state of the current task. -/
theorem setState (h : s.TasksOk old ts) {pc : Pc} {v : TaskState} (hon : s.pc.onTask = true)
    (hpc : pc.onTask = true) (hrunning : pc ≠ .panic) :
    Machine.TasksOk old ts { s with pc, sched := s.sched.setState s.sched.current v } := by
  refine h.of_links rfl (fun t => Sched.next_setState t v) rfl rfl (fun t ht => ?_) rfl rfl
    (hpc.trans hon.symm) hrunning
  by_cases hcur : t = s.sched.current
  · exact Or.inl (hcur ▸ (h.current hon).1)
  · refine h.blocked t ?_
    simpa [Sched.setState, hcur] using ht

/-- Changing the channel of the current task. -/
theorem setChan (h : s.TasksOk old ts) {pc : Pc} {v : Word} (hpc : pc.onTask = s.pc.onTask)
    (hrunning : pc ≠ .panic) :
    Machine.TasksOk old ts { s with pc, sched := s.sched.setChan s.sched.current v } := by
  refine h.of_links rfl (fun t => Sched.next_setChan t v) rfl rfl (fun t ht => h.blocked t ?_)
    rfl rfl hpc hrunning
  by_cases hcur : t = s.sched.current
  · subst hcur
    simpa [Sched.setChan] using ht
  · simpa [Sched.setChan, hcur] using ht

/-- Handing the core back with interrupts masked. -/
theorem yield (h : s.TasksOk old ts) (hirq : s.irq = false) (hon : s.pc.onTask = true) {resume : Resume}
    (hresume : ∀ frame, resume = .trapReturn frame → frame.place ≠ .idle) :
    (s.yield resume).TasksOk old ts := by
  rw [Machine.yield, if_neg (by simp [hirq])]
  refine ⟨h.ring, h.cursor, fun _ => h.current hon, by simp, fun t ht frame hframe => ?_, h.blocked,
    by simp⟩
  by_cases hcur : t = s.sched.current
  · subst hcur
    exact hresume frame (by simpa using hframe)
  · exact h.saved t ht frame (by simpa [hcur] using hframe)

theorem trapReturn (h : s.TasksOk old ts) {frame : Frame} (hpc : s.pc = .trapExit frame) :
    (s.trapReturn frame).TasksOk old ts :=
  h.goto rfl rfl rfl (by simp [Machine.trapReturn, hpc]) (by simp [Machine.trapReturn])

/-- `sched_on_trap_exit` returns at once, or hands the core back on behalf of a task. -/
theorem schedOnTrapExit (h : s.TasksOk old ts) {frame : Frame} (hpc : s.pc = .trapExit frame)
    (hirq : s.irq = false) : (s.schedOnTrapExit frame).TasksOk old ts := by
  rw [Machine.schedOnTrapExit]
  split_ifs with hcur hneed
  · exact h.trapReturn hpc
  · exact h.trapReturn hpc
  -- there is a current task, so the trap did not come out of the idle loop
  have hon : s.pc.onTask = true := by
    by_contra hoff
    exact hcur (h.noTask (Bool.eq_false_iff.mpr hoff))
  have hplace : frame.place ≠ .idle := by simpa [hpc] using hon
  have hpreempt : Machine.TasksOk old ts { s with sched := schedPreempt s.sched } := by
    rw [schedPreempt]
    split_ifs with hrun
    · exact (h.of_links rfl (fun _ => rfl) rfl rfl h.blocked rfl rfl rfl h.running :
        Machine.TasksOk old ts { s with sched := { s.sched with needResched := false } }).setState hon hon
          h.running
    · exact h.of_links rfl (fun _ => rfl) rfl rfl h.blocked rfl rfl rfl h.running
  refine hpreempt.yield hirq hon fun frame' hframe => ?_
  cases hframe
  exact hplace

/-- Picking changes nothing but the cursor, and yields a task of the ring. -/
theorem pick (h : s.TasksOk old ts) {task : Word} {sched : Sched}
    (hpick : schedPickNext s.sched = some (task, sched)) :
    Machine.TasksOk old ts { s with sched } ∧ sched.task = s.sched.task ∧ (task ≠ 0 → task ∈ ts) := by
  rcases h.ring.pickNext h.cursor with ⟨hnone, -⟩ | ⟨u, hu, -, hsome⟩
  · rw [hnone, Option.some.injEq, Prod.mk.injEq] at hpick
    obtain ⟨rfl, rfl⟩ := hpick
    exact ⟨h, rfl, fun hne => absurd rfl hne⟩
  · rw [hsome, Option.some.injEq, Prod.mk.injEq] at hpick
    obtain ⟨rfl, rfl⟩ := hpick
    exact ⟨⟨h.ring.of_next rfl fun _ _ => rfl, Or.inr hu, h.current, h.noTask, h.saved, h.blocked,
      h.running⟩, rfl, fun _ => hu⟩

/-- Picking blocks nobody. -/
theorem blockedOn_of_pick (h : s.TasksOk old ts) {task : Word} {sched : Sched}
    (hpick : schedPickNext s.sched = some (task, sched)) (t : Word) (hb : sched.BlockedOn chan t) :
    s.sched.BlockedOn chan t := by
  obtain ⟨-, htask, -⟩ := h.pick hpick
  rwa [Sched.BlockedOn, htask] at hb

/-- Dispatching a task of the ring. -/
theorem dispatch (h : s.TasksOk old ts) {t : Word} (ht : t ∈ ts) : (s.dispatch t).TasksOk old ts := by
  have hblocked (u : Word)
      (hu : (({ s.sched with current := t }.setState t .running).task u).state = .blocked) :
      u ∈ ts ∨ u ∈ old := by
    by_cases hut : u = t
    · exact Or.inl (hut ▸ ht)
    · exact h.blocked u (by simpa [Sched.setState, hut] using hu)
  have hring : ({ s.sched with current := t }.setState t .running).Ring ts :=
    h.ring.of_next rfl fun u _ => Sched.next_setState u .running
  rw [Machine.dispatch]
  cases hsaved : s.saved t with
  | trapReturn frame =>
    have hplace := h.saved t ht frame hsaved
    refine ⟨hring, h.cursor, fun _ => ⟨ht, rfl⟩, ?_, h.saved, hblocked, ?_⟩ <;>
      simp [Machine.trapReturn, hplace]
  | sleeping flags size =>
    exact ⟨hring, h.cursor, fun _ => ⟨ht, rfl⟩, by simp, h.saved, hblocked, by simp⟩

end Machine.TasksOk

/-- Interrupts are masked everywhere but at the places that traps return to. -/
theorem Machine.LineOk.irq_eq_false (h : s.LineOk old chan) (hpc : ∀ place, s.pc ≠ .at place) :
    s.irq = false := by
  rw [Bool.eq_false_iff]
  intro hirq
  obtain ⟨place, hplace⟩ := h.masked hirq
  exact hpc place hplace

theorem MachineStep.tasksOk (hchan : chan ≠ 0) (hstep : MachineStep chan s s') (h : s.TasksOk old ts)
    (hl : s.LineOk old chan) : s'.TasksOk old ts := by
  cases hstep with
  | syscall hpc | syscallEnable hpc | read size hpc | readLock flags size hpc
  | readTest flags size hpc | readDrain flags size hpc | readUnlock flags size hpc
  | readRestore flags size hpc | sleepUnlock flags size hpc | sleepRelock flags size hpc
  | uartIrq place hpc | timerIrq place hpc | fault place hpc | uartByte frame byte hpc
  | uartDone frame hpc | feedLock frame byte hpc | feedFeed frame byte hpc | feedReady frame byte hpc
  | feedUnlock frame byte ready hpc | idleOpen hpc | idleClose hpc =>
    exact h.goto rfl rfl rfl (by simp [hpc]) (by simp)
  | syscallLeave place hpc hplace =>
    refine h.goto rfl rfl rfl ?_ (by simp)
    rcases hplace with rfl | rfl <;> simp [hpc]
  | feedStart frame byte hpc =>
    refine h.goto rfl rfl rfl ?_ ?_ <;> dsimp only <;> split <;> simp [hpc]
  | exit hpc => exact h.setState (by simp [hpc]) (by simp) (by simp)
  | exitResched hpc =>
    exact h.of_links rfl (fun _ => rfl) rfl rfl h.blocked rfl rfl (by simp [hpc]) (by simp)
  | sleepChan flags size hpc =>
    have hcur := (h.current (by simp [hpc])).1
    rw [if_neg (h.ring.ne_zero hcur)]
    exact h.setChan (by simp [hpc]) (by simp)
  | sleepState flags size hpc => exact h.setState (by simp [hpc]) (by simp) (by simp)
  | sleepSched flags size hpc =>
    exact h.yield (hl.irq_eq_false (by simp [hpc])) (by simp [hpc]) (by simp)
  | sleepResume flags size hpc =>
    have hirq := hl.irq_eq_false (by simp [hpc])
    exact h.setChan (by simp [hpc, hirq]) (by simp [hirq])
  | feedWakeup frame byte ready sched hpc hwake =>
    cases ready with
    | false =>
      obtain rfl : s.sched = sched := by simpa using hwake
      exact h.goto rfl rfl rfl (by simp [hpc]) (by simp)
    | true =>
      obtain rfl : s.sched.wake chan ts = sched := by simpa [h.ring.wakeup hchan] using hwake
      exact h.of_links rfl Sched.next_wake rfl rfl
        (fun t ht => h.blocked t (Sched.blocked_of_wake ht).1) rfl rfl (by simp [hpc]) (by simp)
  | timerTick frame hpc =>
    exact h.of_links rfl (fun _ => rfl) rfl rfl h.blocked rfl rfl (by simp [hpc]) (by simp)
  | trapExit frame hpc => exact h.schedOnTrapExit hpc (hl.irq_eq_false (by simp [hpc]))
  | pick task sched hpc hpick hne =>
    obtain ⟨hpicked, -, hmem⟩ := h.pick hpick
    exact hpicked.dispatch (hmem hne)
  | pickNone sched alive hpc hpick halive =>
    obtain ⟨hpicked, -, -⟩ := h.pick hpick
    cases alive <;> exact hpicked.goto rfl rfl rfl (by simp [hpc]) (by simp)
  | returned hpc =>
    have hcur := (h.current (by simp [hpc])).2
    rw [if_neg (not_not.mpr hcur)]
    exact ⟨h.ring.of_next rfl fun _ _ => rfl, h.cursor, by simp, fun _ => rfl, h.saved, h.blocked,
      by simp⟩

/-! ## The lock, the mask and the line -/

namespace Machine.LineOk

/-- A step that puts no task to sleep on the line, completes no line and does not end the delivery
of a byte. -/
theorem goto (h : s.LineOk old chan) (hcomplete : s'.ld.complete = true → s.ld.complete = true)
    (hblocked : ∀ t, s'.sched.BlockedOn chan t → s.sched.BlockedOn chan t)
    (hmasked : s'.irq = true → ∃ place, s'.pc = .at place)
    (hlocked : s'.locked = true → s'.pc.holdsLock = true)
    (hdelivers : s.pc.delivers = true → s'.pc.delivers = true)
    (hcommits : s'.pc.commits = false)
    (hready : ∀ ready, s'.pc.ready = some ready → ready = s'.ld.complete) : s'.LineOk old chan where
  masked := hmasked
  locked := hlocked
  asleep := fun hc t hold ht => hdelivers (h.asleep (hcomplete hc) t hold (hblocked t ht))
  commits := fun hc => Bool.noConfusion (hcommits.symm.trans hc)
  ready := hready

/-- While no line is complete it does not matter who sleeps. -/
theorem of_incomplete (hld : s'.ld.complete = false) (hirq : s'.irq = false)
    (hlocked : s'.locked = true → s'.pc.holdsLock = true) (hready : s'.pc.ready = none) :
    s'.LineOk old chan where
  masked := by simp [hirq]
  locked := hlocked
  asleep := by simp [hld]
  commits := fun _ => hld
  ready := by
    intro ready hr
    rw [hready] at hr
    cases hr

/-- A step between statements that run without the lock while no wakeup is to come. -/
theorem move (h : s.LineOk old chan) (hpc : s.pc.plain = true) (hpc' : s'.pc.plain = true)
    (hld : s'.ld = s.ld) (hlocked : s'.locked = s.locked)
    (hmasked : s'.irq = true → ∃ place, s'.pc = .at place)
    (hblocked : ∀ t, s'.sched.BlockedOn chan t → s.sched.BlockedOn chan t) : s'.LineOk old chan := by
  simp only [Pc.plain, Bool.and_eq_true, Bool.not_eq_true'] at hpc hpc'
  have hlater : s'.pc.commits = false ∧ s'.pc.ready = none := by
    revert hpc'
    cases s'.pc with
    | read flags size pc => cases pc <;> simp
    | feed frame byte pc => cases pc <;> simp
    | _ => simp
  refine h.goto (hld ▸ id) hblocked hmasked (fun hl => ?_)
    (fun hd => Bool.noConfusion (hpc.2.symm.trans hd)) hlater.1 fun ready hr => ?_
  · exact Bool.noConfusion (hpc.1.symm.trans (h.locked (hlocked ▸ hl)))
  · rw [hlater.2] at hr
    cases hr

/-- Handing the core back. -/
theorem yield (h : s.LineOk old chan) (hirq : s.irq = false) (hpc : s.pc.plain = true)
    (resume : Resume) : (s.yield resume).LineOk old chan := by
  rw [Machine.yield, if_neg (by simp [hirq])]
  exact h.move hpc rfl rfl rfl (by simp [hirq]) fun _ hb => hb

theorem trapReturn (h : s.LineOk old chan) (hpc : s.pc.plain = true) (frame : Frame) :
    (s.trapReturn frame).LineOk old chan :=
  h.move hpc rfl rfl rfl (fun _ => ⟨_, rfl⟩) fun _ hb => hb

end Machine.LineOk

/-- Changing the state of a task to something else than blocked blocks nobody. -/
theorem Sched.BlockedOn.of_setState {s : Sched} {t u : Word} {v : TaskState} (hv : v ≠ .blocked)
    (h : (s.setState t v).BlockedOn chan u) : s.BlockedOn chan u := by
  by_cases hu : u = t
  · subst hu
    exact absurd (by simpa [Sched.setState] using h.1) hv
  · simpa [Sched.BlockedOn, Sched.setState, hu] using h

theorem Sched.BlockedOn.of_setChan_zero {s : Sched} {t u : Word} (hchan : chan ≠ 0)
    (h : (s.setChan t 0).BlockedOn chan u) : s.BlockedOn chan u := by
  by_cases hu : u = t
  · subst hu
    exact absurd (by simpa [Sched.setChan] using h.2.symm) hchan
  · simpa [Sched.BlockedOn, Sched.setChan, hu] using h

namespace Machine.LineOk

theorem schedOnTrapExit (h : s.LineOk old chan) {frame : Frame} (hpc : s.pc = .trapExit frame) :
    (s.schedOnTrapExit frame).LineOk old chan := by
  have hplain : s.pc.plain = true := by simp [hpc]
  rw [Machine.schedOnTrapExit]
  split_ifs
  · exact h.trapReturn hplain frame
  · exact h.trapReturn hplain frame
  · have hpreempt : Machine.LineOk old chan { s with sched := schedPreempt s.sched } := by
      refine h.move hplain hplain rfl rfl h.masked fun t ht => ?_
      rw [schedPreempt] at ht
      split_ifs at ht
      · exact Sched.BlockedOn.of_setState (by simp) ht
      · exact ht
    exact hpreempt.yield (h.irq_eq_false (by simp [hpc])) hplain _

theorem dispatch (h : s.LineOk old chan) (hpc : s.pc = .pick) (t : Word) :
    (s.dispatch t).LineOk old chan := by
  have hirq := h.irq_eq_false (by simp [hpc])
  have hplain : s.pc.plain = true := by simp [hpc]
  have hblocked (u : Word)
      (hu : ({ s.sched with current := t }.setState t .running).BlockedOn chan u) :
      s.sched.BlockedOn chan u := hu.of_setState (by simp)
  rw [Machine.dispatch]
  cases s.saved t with
  | trapReturn frame => exact h.move hplain rfl rfl rfl (fun _ => ⟨_, rfl⟩) hblocked
  | sleeping flags size => exact h.move hplain rfl rfl rfl (by simp [hirq]) hblocked

/-- The reader tests under the lock: it goes on to drain, or commits to sleeping while no line is
complete. -/
theorem test (h : s.LineOk old chan) {flags : Bool} {size : Word}
    (hpc : s.pc = .read flags size .test) :
    Machine.LineOk old chan
      { s with pc := .read flags size (if ldiscReady s.ld then .drain else .sleepChan) } := by
  have hirq := h.irq_eq_false (by simp [hpc])
  by_cases hcomplete : s.ld.complete = true
  · refine h.goto id (fun _ hb => hb) (by simp [hirq]) ?_ (by simp [hpc]) ?_ ?_ <;>
      simp [ldiscReady, hcomplete]
  · refine Machine.LineOk.of_incomplete (Bool.eq_false_iff.mpr hcomplete) hirq ?_ ?_ <;>
      simp [ldiscReady, hcomplete]

/-- The wakeup ends the delivery of a byte: nobody is left asleep if it completed a line. -/
theorem woken (hchan : chan ≠ 0) (h : s.LineOk old chan) (ht : s.TasksOk old ts) {frame : Frame}
    {byte : BitVec 8} {ready : Bool} {sched : Sched} (hpc : s.pc = .feed frame byte (.wakeup ready))
    (hwake : (if ready then wakeup s.sched chan else some s.sched) = some sched) :
    Machine.LineOk old chan { s with pc := .uart frame, sched } := by
  have hirq := h.irq_eq_false (by simp [hpc])
  have hready := h.ready ready (by simp [hpc])
  have hlocked := h.locked
  rw [hpc] at hlocked
  cases ready with
  | false => exact Machine.LineOk.of_incomplete hready.symm hirq (by simpa using hlocked) rfl
  | true =>
    obtain rfl : s.sched.wake chan ts = sched := by simpa [ht.ring.wakeup hchan] using hwake
    refine ⟨by simp [hirq], by simpa using hlocked, fun _ t hold hb => ?_, by simp, by simp⟩
    obtain ⟨hblocked, hwoken⟩ := Sched.blocked_of_wake hb.1
    exact absurd hb.2 (hwoken ((ht.blocked t hblocked).resolve_right hold))

end Machine.LineOk

theorem MachineStep.lineOk (hchan : chan ≠ 0) (hstep : MachineStep chan s s')
    (h : s.LineOk old chan) (ht : s.TasksOk old ts) : s'.LineOk old chan := by
  cases hstep with
  -- statements that mask or unmask interrupts
  | syscall hpc | syscallEnable hpc | syscallLeave place hpc | read size hpc | exitResched hpc
  | readRestore flags size hpc | uartIrq place hpc | timerIrq place hpc | fault place hpc
  | idleOpen hpc | idleClose hpc =>
    exact h.move (by simp [hpc]) rfl rfl rfl (by simp) fun _ hb => hb
  | exit hpc =>
    exact h.move (by simp [hpc]) rfl rfl rfl (by simp) fun _ hb => hb.of_setState (by simp)
  -- taking and giving back the lock
  | readLock flags size hpc | readUnlock flags size hpc | sleepUnlock flags size hpc
  | sleepRelock flags size hpc | feedLock frame byte hpc =>
    have hirq := h.irq_eq_false (by simp [hpc])
    exact h.goto id (fun _ hb => hb) (by simp [hirq]) (by simp) (by simp [hpc]) rfl (by simp)
  | feedUnlock frame byte ready hpc =>
    have hirq := h.irq_eq_false (by simp [hpc])
    have hready := h.ready ready (by simp [hpc])
    exact h.goto id (fun _ hb => hb) (by simp [hirq]) (by simp) (by simp) rfl (by simpa using hready)
  -- other statements of the handlers and of the scheduler, which run masked
  | uartByte frame byte hpc | uartDone frame hpc | timerTick frame hpc =>
    have hirq := h.irq_eq_false (by simp [hpc])
    exact h.move (by simp [hpc]) rfl rfl rfl (by simp [hirq]) fun _ hb => hb
  | feedStart frame byte hpc =>
    have hirq := h.irq_eq_false (by simp [hpc])
    refine h.move (by simp [hpc]) ?_ rfl rfl (by simp [hirq]) fun _ hb => hb
    dsimp only
    split <;> rfl
  -- the reader tests, commits to sleeping and sleeps
  | readTest flags size hpc => exact h.test hpc
  | sleepChan flags size hpc =>
    have hirq := h.irq_eq_false (by simp [hpc])
    rw [if_neg (ht.ring.ne_zero (ht.current (by simp [hpc])).1)]
    exact Machine.LineOk.of_incomplete (h.commits (by simp [hpc])) hirq (by simp) rfl
  | sleepState flags size hpc =>
    have hirq := h.irq_eq_false (by simp [hpc])
    exact Machine.LineOk.of_incomplete (h.commits (by simp [hpc])) hirq (by simp) rfl
  | sleepSched flags size hpc =>
    exact h.yield (h.irq_eq_false (by simp [hpc])) (by simp [hpc]) _
  | sleepResume flags size hpc =>
    have hirq := h.irq_eq_false (by simp [hpc])
    exact h.move (by simp [hpc]) (by simp [hirq]) rfl rfl (by simp [hirq])
      fun _ hb => hb.of_setChan_zero hchan
  | readDrain flags size hpc =>
    have hirq := h.irq_eq_false (by simp [hpc])
    exact h.goto complete_of_ldiscDrain (fun _ hb => hb) (by simp [hirq]) (by simp) (by simp [hpc])
      rfl (by simp)
  -- the byte is fed: from here on somebody may be asleep although a line is complete
  | feedFeed frame byte hpc =>
    have hirq := h.irq_eq_false (by simp [hpc])
    exact ⟨by simp [hirq], by simp, by simp, by simp, by simp⟩
  | feedReady frame byte hpc =>
    have hirq := h.irq_eq_false (by simp [hpc])
    exact h.goto id (fun _ hb => hb) (by simp [hirq]) (by simp) (by simp) rfl
      (by simp [ldiscReady])
  -- until it is woken up
  | feedWakeup frame byte ready sched hpc hwake => exact h.woken hchan ht hpc hwake
  | trapExit frame hpc => exact h.schedOnTrapExit hpc
  | pick task sched hpc hpick hne =>
    have hplain : s.pc.plain = true := by simp [hpc]
    have hpicked : Machine.LineOk old chan { s with sched } :=
      h.move hplain hplain rfl rfl h.masked (ht.blockedOn_of_pick hpick)
    exact hpicked.dispatch hpc task
  | pickNone sched alive hpc hpick halive =>
    have hirq := h.irq_eq_false (by simp [hpc])
    cases alive <;>
      exact h.move (by simp [hpc]) rfl rfl rfl (by simp [hirq]) (ht.blockedOn_of_pick hpick)
  | returned hpc =>
    have hirq := h.irq_eq_false (by simp [hpc])
    rw [if_neg (not_not.mpr (ht.current (by simp [hpc])).2)]
    exact h.move (by simp [hpc]) rfl rfl rfl (by simp [hirq]) fun _ hb => hb

/-! ## The property of whole runs -/

/-- The core when `scheduler` starts: the tasks `ts` were added to the queue one after the other. -/
def Machine.boot (ts : List Word) (task : Word → Task) (buf : Word → BitVec 8)
    (saved : Word → Resume) : Machine where
  sched := ts.foldl schedAddTask (schedInit task)
  ld := ldiscInit buf
  locked := false
  irq := false
  pc := .pick
  next := 0
  saved := saved

/-- The tasks added at boot are distinct, and fresh: they are ready and will leave through a trap
frame. -/
structure Fresh (ts : List Word) (task : Word → Task) (saved : Word → Resume) : Prop where
  nodup : ts.Nodup
  ne_zero : 0 ∉ ts
  ready : ∀ t ∈ ts, (task t).state = .ready
  saved : ∀ t ∈ ts, ∃ place, place ≠ .idle ∧ saved t = .trapReturn { place, irq := true }

/-- At boot the ring holds the tasks that were added, and no line is complete. -/
theorem Machine.boot_ok (chan : Word) (buf : Word → BitVec 8) {task : Word → Task}
    {saved : Word → Resume} (hfresh : Fresh ts task saved) :
    (∃ us, (∀ t ∈ us, t ∈ ts) ∧
      (Machine.boot ts task buf saved).TasksOk {t | (task t).state = .blocked} us) ∧
      (Machine.boot ts task buf saved).LineOk {t | (task t).state = .blocked} chan := by
  obtain ⟨us, hring, hmem⟩ := (Sched.Ring.init task).foldl_addTask hfresh.nodup hfresh.ne_zero
    (List.disjoint_nil_right ts)
  obtain ⟨hcurrent, hcursor, hstate⟩ := foldl_schedAddTask_fields (schedInit task) ts
  have hus : ∀ t ∈ us, t ∈ ts := fun t ht => by simpa using (hmem t).mp ht
  refine ⟨⟨us, hus, hring, Or.inl hcursor, by simp [Machine.boot], fun _ => hcurrent, ?_, ?_, ?_⟩,
    Machine.LineOk.of_incomplete rfl rfl (by simp [Machine.boot]) rfl⟩
  · intro t ht frame hframe
    obtain ⟨place, hplace, hsaved⟩ := hfresh.saved t (hus t ht)
    obtain rfl : { place, irq := true } = frame := by
      simpa [Machine.boot, hsaved] using hframe
    exact hplace
  · exact fun t ht => Or.inr ((hstate t).symm.trans ht)
  · simp [Machine.boot]

/-- In every state of every run, with any number of tasks: while the console lock is held interrupts
are masked, so `console_dev_feed` always finds the lock free. And when interrupts are unmasked and no
handler runs, nobody is blocked on the line discipline while it holds a complete line, whatever was
not blocked from the start; the tasks, which start ready, are not. -/
theorem console_no_lost_wakeup (hchan : chan ≠ 0) {task : Word → Task} {buf : Word → BitVec 8}
    {saved : Word → Resume} (hfresh : Fresh ts task saved)
    (hrun : Relation.ReflTransGen (MachineStep chan) (Machine.boot ts task buf saved) s) :
    (s.locked = true → s.irq = false) ∧
      (∀ frame byte, s.pc = .feed frame byte .lock → s.locked = false) ∧
      (s.irq = true → s.pc.inHandler = false → ldiscReady s.ld = true →
        ∀ t, t ∈ ts ∨ (task t).state ≠ .blocked →
          ¬ ((s.sched.task t).state = .blocked ∧ (s.sched.task t).chan = chan)) := by
  obtain ⟨us, ht, hl⟩ : ∃ us, s.TasksOk {t | (task t).state = .blocked} us ∧
      s.LineOk {t | (task t).state = .blocked} chan := by
    induction hrun with
    | refl =>
      obtain ⟨⟨us, -, ht⟩, hl⟩ := Machine.boot_ok chan buf hfresh
      exact ⟨us, ht, hl⟩
    | tail _ hstep ih =>
      obtain ⟨us, ht, hl⟩ := ih
      exact ⟨us, hstep.tasksOk hchan ht hl, hstep.lineOk hchan hl ht⟩
  refine ⟨fun hlocked => ?_, fun frame byte hpc => ?_, fun hirq hhandler hready t ht hb => ?_⟩
  · rw [Bool.eq_false_iff]
    intro hirq
    obtain ⟨place, hpc⟩ := hl.masked hirq
    have hholds := hl.locked hlocked
    simp [hpc] at hholds
  · have hlocked := hl.locked
    simpa [hpc] using hlocked
  · have hold : (task t).state ≠ .blocked := ht.elim (fun hmem => by simp [hfresh.ready t hmem]) id
    have hdelivers := hl.asleep hready t hold hb
    obtain ⟨place, hpc⟩ := hl.masked hirq
    simp [hpc] at hdelivers

/-- The only task reads, finds no line and blocks. The UART interrupts the idle core with a newline
and the task is ready again. -/
theorem console_no_lost_wakeup_newline :
    ∃ s₁ s : Machine, (s₁.sched.task 0x1000).state = .blocked ∧
      (s₁.sched.task 0x1000).chan = 0x2000 ∧
      Relation.ReflTransGen (MachineStep 0x2000) s₁ s ∧ s.pc = .at .idle ∧ s.irq = true ∧
      ldiscReady s.ld = true ∧ (s.sched.task 0x1000).state = .ready ∧
      ∀ t, ¬ ((s.sched.task t).state = .blocked ∧ (s.sched.task t).chan = 0x2000) := by
  let task : Word → Task := fun _ => { state := .ready, chan := 0, next := 0 }
  let saved : Word → Resume := fun _ => .trapReturn { place := .user, irq := true }
  have hfresh : Fresh [0x1000] task saved :=
    ⟨by simp, by decide, fun _ _ => rfl, fun _ _ => ⟨.user, by decide, rfl⟩⟩
  let s₀ := Machine.boot [0x1000] task (fun _ => 0) saved
  let idle : Frame := { place := .idle, irq := true }
  have hpick : schedPickNext s₀.sched = some (0x1000, { s₀.sched with cursor := 0x1000 }) := rfl
  have hrun : ∃ s₁ s, Relation.ReflTransGen (MachineStep 0x2000) s₀ s₁ ∧
      Relation.ReflTransGen (MachineStep 0x2000) s₁ s ∧
      (s₁.sched.task 0x1000).state = .blocked ∧ (s₁.sched.task 0x1000).chan = 0x2000 ∧
      s.pc = .at .idle ∧ s.irq = true ∧ ldiscReady s.ld = true ∧
      (s.sched.task 0x1000).state = .ready := by
    refine ⟨_, _, .head (.pick s₀ 0x1000 _ rfl hpick (by decide)) <| .head (.syscall _ rfl) <|
      .head (.syscallEnable _ rfl) <| .head (.read _ 5 rfl (by decide)) <|
      .head (.readLock _ true 5 rfl rfl) <| .head (.readTest _ true 5 rfl) <|
      .head (.sleepChan _ true 5 rfl) <| .head (.sleepState _ true 5 rfl) <|
      .head (.sleepUnlock _ true 5 rfl) <| .head (.sleepSched _ true 5 rfl) <|
      .head (.returned _ rfl) .refl,
      .head (.pickNone _ _ true rfl rfl rfl) <| .head (.idleOpen _ rfl) <|
      .head (.uartIrq _ .idle rfl rfl) <| .head (.uartByte _ idle 0x0a rfl) <|
      .head (.feedStart _ idle 0x0a rfl) <| .head (.feedLock _ idle 0x0a rfl rfl) <|
      .head (.feedFeed _ idle 0x0a rfl) <| .head (.feedReady _ idle 0x0a rfl) <|
      .head (.feedUnlock _ idle 0x0a true rfl) <| .head (.feedWakeup _ idle 0x0a true _ rfl rfl) <|
      .head (.uartDone _ idle rfl) <| .head (.trapExit _ idle rfl) .refl,
      rfl, rfl, rfl, rfl, rfl, rfl⟩
  obtain ⟨s₁, s, hrun₁, hrun, hblocked, hon, hpc, hirq, hready, hstate⟩ := hrun
  have hthm := console_no_lost_wakeup (by decide) hfresh (hrun₁.trans hrun)
  exact ⟨s₁, s, hblocked, hon, hrun, hpc, hirq, hready, hstate, fun t =>
    hthm.2.2 hirq (by simp [hpc]) hready t (Or.inr (by simp [task]))⟩

end Pros
