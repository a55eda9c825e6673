import Pros.Lib.Links
import Pros.Sched.Model

/-!
# The ring of tasks

`s.Ring ts` says that the tasks `ts` are linked into a ring that starts at `run_queue_head`. Every
walk of the scheduler over the ring ends and sees each of its tasks once.
-/

namespace Pros

/-- The run queue is the ring of the tasks `ts`, the head first. -/
def Sched.Ring (s : Sched) : List Word → Prop
  | [] => s.runQueueHead = 0
  | t :: ts => s.runQueueHead = t ∧ 0 ∉ t :: ts ∧ Links s.next t (s.next t) ts

/-- Every task of `ts` that is blocked on `chan` is made ready. -/
def Sched.wake (s : Sched) (chan : Word) (ts : List Word) : Sched :=
  { s with
    task := fun t =>
      if t ∈ ts ∧ (s.task t).state = .blocked ∧ (s.task t).chan = chan then
        { s.task t with state := .ready }
      else s.task t }

variable {s s' : Sched} {t chan : Word} {ts : List Word}

@[simp]
theorem Sched.next_setState (u : Word) (v : TaskState) : (s.setState t v).next u = s.next u := by
  by_cases hu : u = t <;> simp [Sched.next, Sched.setState, hu]

@[simp]
theorem Sched.next_setChan (u v : Word) : (s.setChan t v).next u = s.next u := by
  by_cases hu : u = t <;> simp [Sched.next, Sched.setChan, hu]

@[simp]
theorem Sched.next_wake (u : Word) : (s.wake chan ts).next u = s.next u := by
  simp only [Sched.next, Sched.wake]
  split <;> rfl

/-- What one round of the loop of `wakeup` does. -/
theorem Sched.wake_singleton :
    s.wake chan [t] = if (s.task t).state = .blocked ∧ (s.task t).chan = chan
      then s.setState t .ready else s := by
  split_ifs with hblocked
  · rw [Sched.wake, Sched.setState]
    congr 1
    ext1 u
    by_cases hu : u = t
    · subst hu
      simp [hblocked]
    · simp [hu]
  · rw [Sched.wake]
    congr 1
    ext1 u
    refine if_neg fun hu => hblocked ?_
    rw [List.mem_singleton] at hu
    exact hu.1 ▸ hu.2

theorem Sched.wake_cons : (s.wake chan [t]).wake chan ts = s.wake chan (t :: ts) := by
  simp only [Sched.wake]
  congr 1
  ext1 u
  by_cases hblocked : (s.task u).state = .blocked ∧ (s.task u).chan = chan
  · -- a task that was woken first is not blocked any more
    by_cases hu : u = t
    · simp [hu, hu ▸ hblocked]
    · simp [hu]
  · simp [hblocked]

/-- Linking in a task changes links only. -/
theorem schedAddTask_fields (s : Sched) (t : Word) :
    (schedAddTask s t).current = s.current ∧ (schedAddTask s t).cursor = s.cursor ∧
      ∀ u, ((schedAddTask s t).task u).state = (s.task u).state := by
  have hstate (s : Sched) (t v u : Word) : ((s.setNext t v).task u).state = (s.task u).state := by
    by_cases hu : u = t <;> simp [Sched.setNext, hu]
  rw [schedAddTask]
  split_ifs
  · exact ⟨rfl, rfl, fun _ => rfl⟩
  · exact ⟨rfl, rfl, fun u => by rw [hstate]⟩
  · exact ⟨rfl, rfl, fun u => by rw [hstate, hstate]⟩

theorem foldl_schedAddTask_fields (s : Sched) (us : List Word) :
    (us.foldl schedAddTask s).current = s.current ∧ (us.foldl schedAddTask s).cursor = s.cursor ∧
      ∀ u, ((us.foldl schedAddTask s).task u).state = (s.task u).state := by
  induction us generalizing s with
  | nil => exact ⟨rfl, rfl, fun _ => rfl⟩
  | cons t us ih =>
    obtain ⟨h₁, h₂, h₃⟩ := ih (schedAddTask s t)
    obtain ⟨k₁, k₂, k₃⟩ := schedAddTask_fields s t
    exact ⟨h₁.trans k₁, h₂.trans k₂, fun u => (h₃ u).trans (k₃ u)⟩

namespace Sched.Ring

theorem nodup (h : s.Ring ts) : ts.Nodup := by
  cases ts with
  | nil => exact List.nodup_nil
  | cons t ts =>
    obtain ⟨-, -, hl⟩ := h
    exact List.nodup_cons.mpr ⟨fun hmem => hl.ne_null_of_mem hmem rfl, hl.nodup⟩

theorem ne_zero (h : s.Ring ts) (ht : t ∈ ts) : t ≠ 0 := by
  cases ts with
  | nil => cases ht
  | cons u ts => exact fun h0 => h.2.1 (h0 ▸ ht)

/-- Only the head and the links matter. -/
theorem of_next (h : s.Ring ts) (hhead : s'.runQueueHead = s.runQueueHead)
    (hnext : ∀ t ∈ ts, s'.next t = s.next t) : s'.Ring ts := by
  cases ts with
  | nil => exact hhead.trans h
  | cons t ts =>
    obtain ⟨ht, hzero, hl⟩ := h
    refine ⟨hhead.trans ht, hzero, ?_⟩
    rw [hnext t List.mem_cons_self]
    exact hl.congr fun u hu => hnext u (List.mem_cons_of_mem _ hu)

/-- The empty queue after `sched_init`. -/
theorem init (task : Word → Task) : (schedInit task).Ring [] := rfl

/-- A new task is linked in after the head. -/
theorem addTask (h : s.Ring ts) (ht : t ≠ 0) (hnew : t ∉ ts) :
    ∃ ts', (schedAddTask s t).Ring ts' ∧ ∀ u, u ∈ ts' ↔ u = t ∨ u ∈ ts := by
  rw [schedAddTask, if_neg ht]
  cases ts with
  | nil =>
    have hhead : s.runQueueHead = 0 := h
    rw [if_pos hhead]
    refine ⟨[t], ⟨rfl, by simpa using ht.symm, ?_⟩, by simp⟩
    simp [Sched.next, Sched.setNext]
  | cons head ts =>
    obtain ⟨rfl, hzero, hl⟩ := h
    have hne : t ≠ s.runQueueHead := fun heq => hnew (heq ▸ List.mem_cons_self)
    have hhead : s.runQueueHead ≠ 0 := fun h0 => hzero (h0 ▸ List.mem_cons_self)
    rw [if_neg hhead]
    refine ⟨s.runQueueHead :: t :: ts, ⟨rfl, ?_, ?_⟩, fun u => ?_⟩
    · simp only [List.mem_cons, not_or] at hzero ⊢
      exact ⟨hzero.1, ht.symm, hzero.2⟩
    · -- the head points to the new task, and the new task to what followed the head
      refine ⟨by simp [Sched.next, Sched.setNext], hne, ?_⟩
      have hlink : ((s.setNext t (s.next s.runQueueHead)).setNext s.runQueueHead t).next t =
          s.next s.runQueueHead := by
        simp [Sched.next, Sched.setNext, hne]
      rw [hlink]
      refine hl.congr fun u hu => ?_
      have hut : u ≠ t := fun heq => hnew (List.mem_cons_of_mem _ (heq ▸ hu))
      have huh : u ≠ s.runQueueHead := hl.ne_null_of_mem hu
      simp [Sched.next, Sched.setNext, hut, huh]
    · simp only [List.mem_cons]
      tauto

/-- Adding tasks one after the other builds a ring of exactly those tasks. -/
theorem foldl_addTask {us : List Word} (h : s.Ring ts)
    (hus : us.Nodup) (hzero : 0 ∉ us) (hnew : List.Disjoint us ts) :
    ∃ ts', (us.foldl schedAddTask s).Ring ts' ∧ ∀ t, t ∈ ts' ↔ t ∈ us ∨ t ∈ ts := by
  induction us generalizing s ts with
  | nil => exact ⟨ts, h, by simp⟩
  | cons u us ih =>
    rw [List.nodup_cons] at hus
    rw [List.mem_cons, not_or] at hzero
    rw [List.disjoint_cons_left] at hnew
    obtain ⟨ts₁, h₁, hmem₁⟩ := h.addTask (Ne.symm hzero.1) hnew.1
    have hdisj : List.Disjoint us ts₁ := by
      intro t ht ht'
      rcases (hmem₁ t).mp ht' with rfl | ht'
      · exact hus.1 ht
      · exact hnew.2 ht ht'
    obtain ⟨ts₂, h₂, hmem₂⟩ := ih h₁ hus.2 hzero.2 hdisj
    refine ⟨ts₂, h₂, fun t => ?_⟩
    rw [hmem₂, hmem₁, List.mem_cons]
    tauto

/-! ## Waking -/

/-- The loop of `wakeup`, by induction on the tasks that are left of the ring. -/
theorem wakeupLoop (fuel : ℕ) (hl : Links s.next s.runQueueHead (s.next t) ts)
    (hfuel : ts.length < fuel) :
    Pros.wakeupLoop chan fuel s t = some (s.wake chan (t :: ts)) := by
  induction ts generalizing fuel s t with
  | nil =>
    obtain _ | fuel := fuel
    · simp at hfuel
    have hend : (s.wake chan [t]).next t = s.runQueueHead := by
      rw [Sched.next_wake]
      exact hl
    rw [Pros.wakeupLoop, ← Sched.wake_singleton]
    exact if_pos hend
  | cons u ts ih =>
    obtain _ | fuel := fuel
    · simp at hfuel
    obtain ⟨hnext, hne, hrest⟩ := hl
    rw [Pros.wakeupLoop, ← Sched.wake_singleton]
    have hmore : (s.wake chan [t]).next t ≠ (s.wake chan [t]).runQueueHead := by
      rw [Sched.next_wake, hnext]
      exact hne
    have hlinks : Links (s.wake chan [t]).next (s.wake chan [t]).runQueueHead
        ((s.wake chan [t]).next u) ts := by
      rw [Sched.next_wake]
      exact hrest.congr fun v _ => Sched.next_wake v
    simp only [if_neg hmore]
    rw [Sched.next_wake, hnext, ih fuel hlinks (Nat.lt_of_succ_lt_succ hfuel), Sched.wake_cons]

/-- `wakeup` makes exactly the tasks of the ring ready that are blocked on the channel. -/
theorem wakeup (h : s.Ring ts) (hchan : chan ≠ 0) :
    Pros.wakeup s chan = some (s.wake chan ts) := by
  rw [Pros.wakeup, if_neg hchan]
  cases ts with
  | nil =>
    have hempty : s.runQueueHead = 0 := h
    rw [if_pos hempty]
    simp [Sched.wake]
  | cons t ts =>
    have hne : s.runQueueHead ≠ 0 := h.1 ▸ h.ne_zero List.mem_cons_self
    obtain ⟨rfl, -, hl⟩ := h
    rw [if_neg hne]
    exact wakeupLoop walkBound hl hl.length_lt_two_pow

/-! ## Looking for a task that is alive -/

/-- The loop of `sched_any_alive`, by induction on the tasks that are left of the ring. -/
theorem anyAliveLoop (fuel : ℕ) (hl : Links s.next s.runQueueHead (s.next t) ts)
    (hfuel : ts.length < fuel) :
    schedAnyAliveLoop s fuel t = some (decide (∃ u ∈ t :: ts, (s.task u).state ≠ .dead)) := by
  induction ts generalizing fuel t with
  | nil =>
    obtain _ | fuel := fuel
    · simp at hfuel
    have hend : s.next t = s.runQueueHead := hl
    rw [schedAnyAliveLoop]
    by_cases hdead : (s.task t).state = .dead
    · simp [hdead, hend]
    · simp [hdead]
  | cons u ts ih =>
    obtain _ | fuel := fuel
    · simp at hfuel
    obtain ⟨hnext, hne, hrest⟩ := hl
    rw [schedAnyAliveLoop]
    by_cases hdead : (s.task t).state = .dead
    · rw [if_neg (not_not.mpr hdead), hnext, if_neg hne,
        ih fuel hrest (Nat.lt_of_succ_lt_succ hfuel)]
      simp [hdead]
    · simp [hdead]

/-- `sched_any_alive` tells whether the ring has a task that is not dead. -/
theorem anyAlive (h : s.Ring ts) :
    schedAnyAlive s = some (decide (∃ u ∈ ts, (s.task u).state ≠ .dead)) := by
  rw [schedAnyAlive]
  cases ts with
  | nil =>
    have hempty : s.runQueueHead = 0 := h
    simp [hempty]
  | cons t ts =>
    have hne : s.runQueueHead ≠ 0 := h.1 ▸ h.ne_zero List.mem_cons_self
    obtain ⟨rfl, -, hl⟩ := h
    rw [if_neg hne]
    exact anyAliveLoop walkBound hl hl.length_lt_two_pow

/-! ## Picking -/

/-- The loop of `sched_pick_next`, by induction on the tasks between the one it looks at and the one
it started from. -/
theorem pickLoop (fuel : ℕ) {start : Word} (hl : Links s.next start (s.next t) ts)
    (hfuel : ts.length < fuel) :
    (schedPickLoop s start fuel t = some 0 ∧ ∀ u ∈ ts ++ [start], (s.task u).state ≠ .ready) ∨
      ∃ u ∈ ts ++ [start], (s.task u).state = .ready ∧ schedPickLoop s start fuel t = some u := by
  induction ts generalizing fuel t with
  | nil =>
    obtain _ | fuel := fuel
    · simp at hfuel
    have hend : s.next t = start := hl
    rw [schedPickLoop, hend]
    by_cases hready : (s.task start).state = .ready
    · exact Or.inr ⟨start, by simp, hready, if_pos hready⟩
    · refine Or.inl ⟨?_, by simpa using hready⟩
      simp only [if_neg hready, if_true]
  | cons u ts ih =>
    obtain _ | fuel := fuel
    · simp at hfuel
    obtain ⟨hnext, hne, hrest⟩ := hl
    rw [schedPickLoop, hnext]
    by_cases hready : (s.task u).state = .ready
    · exact Or.inr ⟨u, by simp, hready, if_pos hready⟩
    · simp only [if_neg hready, if_neg hne]
      rcases ih fuel hrest (Nat.lt_of_succ_lt_succ hfuel) with ⟨hnone, hall⟩ | ⟨v, hv, hvr, hsome⟩
      · refine Or.inl ⟨hnone, ?_⟩
        simp only [List.cons_append, List.mem_cons, forall_eq_or_imp]
        exact ⟨hready, hall⟩
      · exact Or.inr ⟨v, List.mem_cons_of_mem _ hv, hvr, hsome⟩

/-- A ring can be walked from any of its tasks, which is then seen last. -/
theorem links_from (h : s.Ring ts) (ht : t ∈ ts) :
    ∃ us, Links s.next t (s.next t) us ∧ ∀ u, u ∈ us ++ [t] ↔ u ∈ ts := by
  cases ts with
  | nil => cases ht
  | cons head ts =>
    obtain ⟨-, -, hl⟩ := h
    rcases List.mem_cons.mp ht with rfl | hmem
    · exact ⟨ts, hl, fun u => by simp [or_comm]⟩
    · obtain ⟨pre, post, rfl⟩ := List.append_of_mem hmem
      refine ⟨_, hl.rotate, fun u => ?_⟩
      simp only [List.mem_append, List.mem_cons, List.not_mem_nil, or_false]
      tauto

/-- `sched_pick_next` returns. Its result is a ready task of the ring, which is where the next round
starts; or it is null, and no task of the ring is ready. -/
theorem pickNext (h : s.Ring ts) (hcursor : s.cursor = 0 ∨ s.cursor ∈ ts) :
    (schedPickNext s = some (0, s) ∧ ∀ u ∈ ts, (s.task u).state ≠ .ready) ∨
      ∃ u ∈ ts, (s.task u).state = .ready ∧ schedPickNext s = some (u, { s with cursor := u }) := by
  rw [schedPickNext]
  cases ts with
  | nil =>
    have hempty : s.runQueueHead = 0 := h
    exact Or.inl ⟨if_pos hempty, by simp⟩
  | cons head ts =>
    have hne : s.runQueueHead ≠ 0 := h.1 ▸ h.ne_zero List.mem_cons_self
    rw [if_neg hne]
    generalize hstart : (if s.cursor ≠ 0 then s.cursor else s.runQueueHead) = start
    have hmem : start ∈ head :: ts := by
      rw [← hstart]
      by_cases hzero : s.cursor = 0
      · rw [if_neg (not_not.mpr hzero), h.1]
        exact List.mem_cons_self
      · rw [if_pos hzero]
        exact hcursor.resolve_left hzero
    obtain ⟨us, hl, hus⟩ := h.links_from hmem
    rcases pickLoop walkBound hl hl.length_lt_two_pow with ⟨hnone, hall⟩ | ⟨u, hu, hready, hsome⟩
    · refine Or.inl ⟨?_, fun u hu => hall u ((hus u).mpr hu)⟩
      simp [hnone]
    · have hu' := (hus u).mp hu
      refine Or.inr ⟨u, hu', hready, ?_⟩
      simp only [hsome, Option.bind_eq_bind, Option.bind_some, if_neg (h.ne_zero hu')]
      rfl

end Sched.Ring

end Pros
