import Mathlib.Logic.Relation
import Pros.Sched.Ring

/-!
# Round robin

The run queue under any sequence of `sched_add_task` calls with new tasks, `sched_pick_next` calls
and changes of the tasks in between. A task that stays ready is overtaken by another task at most
once: after a task was picked, the places where the search resumes lie between this task and the
waiting one, and the search does not get past the waiting one without picking it.
-/

namespace Pros

/-- The run queue, and the tasks that were added so far. -/
structure Queue where
  sched : Sched
  added : List Word

/-- What happens to the run queue; `pick 0` is a call of `sched_pick_next` that returns null. -/
inductive QueueEvent
  | add (t : Word)
  | pick (t : Word)
  | change
  deriving DecidableEq, Repr

/-- One call, or any change of the tasks that leaves their links alone. -/
inductive QueueStep : Queue → QueueEvent → Queue → Prop
  | add (q : Queue) (t : Word) : t ≠ 0 → t ∉ q.added →
      QueueStep q (.add t) { sched := schedAddTask q.sched t, added := t :: q.added }
  | pick (q : Queue) (t : Word) (sched : Sched) : schedPickNext q.sched = some (t, sched) →
      QueueStep q (.pick t) { q with sched }
  | change (q : Queue) (sched : Sched) : sched.runQueueHead = q.sched.runQueueHead →
      sched.cursor = q.sched.cursor → sched.next = q.sched.next →
      QueueStep q .change { q with sched }

/-- The queue after `sched_init` and any number of steps. -/
def QueueReachable (task : Word → Task) : Queue → Prop :=
  Relation.ReflTransGen (fun q q' => ∃ e, QueueStep q e q') { sched := schedInit task, added := [] }

/-- A run in which `t` is always ready and never picked. -/
inductive Waits (t : Word) : Queue → Queue → Prop
  | refl (q : Queue) : (q.sched.task t).state = .ready → Waits t q q
  | step (q q' q'' : Queue) (e : QueueEvent) : Waits t q q' → QueueStep q' e q'' → e ≠ .pick t →
      (q''.sched.task t).state = .ready → Waits t q q''

/-! ## The ring -/

/-- The queue is a ring of the tasks added so far, and the search resumes at one of them. -/
structure QueueInv (q : Queue) (ts : List Word) : Prop where
  ring : q.sched.Ring ts
  perm : ts.Perm q.added
  cursor : q.sched.cursor = 0 ∨ q.sched.cursor ∈ ts

variable {q q' : Queue} {ts : List Word} {e : QueueEvent}

theorem QueueStep.inv (h : QueueInv q ts) (hstep : QueueStep q e q') : ∃ ts', QueueInv q' ts' := by
  cases hstep with
  | add t ht hnew =>
    obtain ⟨ts', hring, hmem⟩ := h.ring.addTask ht fun hmem => hnew (h.perm.mem_iff.mp hmem)
    obtain ⟨-, hcursor, -⟩ := schedAddTask_fields q.sched t
    refine ⟨ts', hring, ?_, ?_⟩
    · refine (List.perm_ext_iff_of_nodup hring.nodup ?_).mpr fun u => ?_
      · exact List.nodup_cons.mpr ⟨hnew, h.perm.nodup_iff.mp h.ring.nodup⟩
      · rw [hmem, List.mem_cons, h.perm.mem_iff]
    · rw [hcursor]
      exact h.cursor.imp_right fun hc => (hmem _).mpr (Or.inr hc)
  | pick t sched hpick =>
    rcases h.ring.pickNext h.cursor with ⟨hnone, -⟩ | ⟨u, hu, -, hsome⟩
    · cases hnone.symm.trans hpick
      exact ⟨ts, h⟩
    · cases hsome.symm.trans hpick
      exact ⟨ts, h.ring.of_next rfl fun _ _ => rfl, h.perm, Or.inr hu⟩
  | change sched hhead hcursor hnext =>
    exact ⟨ts, h.ring.of_next hhead fun u _ => congrFun hnext u, h.perm, hcursor ▸ h.cursor⟩

/-- A task that is picked is one of the ring, and the next search resumes there. -/
theorem QueueInv.of_pick {x : Word} (h : QueueInv q ts) (hx : x ≠ 0)
    (hstep : QueueStep q (.pick x) q') : QueueInv q' ts ∧ x ∈ ts ∧ q'.sched.cursor = x := by
  cases hstep with
  | pick _ sched hcall =>
    rcases h.ring.pickNext h.cursor with ⟨hnone, -⟩ | ⟨u, hu, -, hsome⟩
    · obtain ⟨h0, -⟩ := Prod.mk.inj (Option.some.inj (hnone.symm.trans hcall))
      exact absurd h0.symm hx
    · cases hsome.symm.trans hcall
      exact ⟨⟨h.ring.of_next rfl fun _ _ => rfl, h.perm, Or.inr hu⟩, hu, rfl⟩

theorem QueueReachable.inv {task : Word → Task} (h : QueueReachable task q) :
    ∃ ts, QueueInv q ts := by
  induction h with
  | refl => exact ⟨[], Sched.Ring.init task, List.Perm.nil, Or.inl rfl⟩
  | tail _ hstep ih =>
    obtain ⟨ts, h⟩ := ih
    obtain ⟨e, hstep⟩ := hstep
    exact hstep.inv h

/-! ## The order around the ring -/

/-- On the way around the ring from `x`, the task `t` is met after `c`, or `c` is `x` itself. -/
def Sched.Ahead (s : Sched) (x c t : Word) : Prop :=
  ∃ pre post, Links s.next x (s.next x) (pre ++ t :: post) ∧ (c = x ∨ c ∈ pre)

variable {s s' : Sched} {x c t u : Word}

theorem Sched.Ahead.of_next (h : s.Ahead x c t) (hnext : s'.next = s.next) : s'.Ahead x c t := by
  rw [Sched.Ahead, hnext]
  exact h

/-- The links of `sched_add_task` to a queue that is not empty. -/
theorem next_schedAddTask (ht : t ≠ 0) (hhead : s.runQueueHead ≠ 0) (hne : t ≠ s.runQueueHead) :
    (schedAddTask s t).next t = s.next s.runQueueHead ∧
      (schedAddTask s t).next s.runQueueHead = t ∧
      ∀ u, u ≠ t → u ≠ s.runQueueHead → (schedAddTask s t).next u = s.next u := by
  rw [schedAddTask, if_neg ht, if_neg hhead]
  refine ⟨by simp [Sched.next, Sched.setNext, hne], by simp [Sched.next, Sched.setNext], ?_⟩
  intro u hu hu'
  simp [Sched.next, Sched.setNext, hu, hu']

/-- A task that is linked in keeps the order of the others. -/
theorem Sched.Ahead.addTask (hring : s.Ring ts) (hnew : u ∉ ts) (hu : u ≠ 0) (hx : x ∈ ts)
    (ht : t ∈ ts) (h : s.Ahead x c t) : (schedAddTask s u).Ahead x c t := by
  obtain ⟨pre, post, hl, hc⟩ := h
  obtain ⟨hhead, hmem⟩ : s.runQueueHead ≠ 0 ∧ s.runQueueHead ∈ ts := by
    cases ts with
    | nil => cases ht
    | cons head ts =>
      exact ⟨hring.1 ▸ hring.ne_zero List.mem_cons_self, hring.1 ▸ List.mem_cons_self⟩
  have hne {v : Word} (hv : v ∈ ts) : u ≠ v := fun heq => hnew (heq ▸ hv)
  obtain ⟨hnextu, hnexth, hnext⟩ := next_schedAddTask hu hhead (hne hmem)
  -- the tasks on the way around are those of the ring
  obtain ⟨us, hus, hall⟩ := hring.links_from hx
  obtain rfl := hus.unique hl
  have hin {v : Word} (hv : v ∈ pre ++ t :: post) : v ∈ ts := (hall v).mp (List.mem_append_left _ hv)
  have hnodup := hl.nodup
  have hother {v : Word} (hv : v ∈ pre ++ t :: post) (hvh : v ≠ s.runQueueHead) :
      (schedAddTask s u).next v = s.next v := hnext v (hne (hin hv)).symm hvh
  by_cases hxh : x = s.runQueueHead
  · -- the new task is the first one
    subst hxh
    refine ⟨u :: pre, post, ?_, hc.imp_right (List.mem_cons_of_mem u)⟩
    rw [hnexth]
    exact hl.push (hne hx) hnextu fun v hv => hother hv (hl.ne_null_of_mem hv)
  · have hstart : (schedAddTask s u).next x = s.next x := hnext x (hne hx).symm hxh
    rw [Sched.Ahead, hstart]
    have hway : s.runQueueHead ∈ pre ++ t :: post := by
      rcases List.mem_append.mp ((hall _).mpr hmem) with hway | hway
      · exact hway
      · exact absurd (List.mem_singleton.mp hway).symm hxh
    rcases List.mem_append.mp hway with hpre | hpost
    · -- it comes before `t`
      obtain ⟨l₁, l₂, rfl⟩ := List.append_of_mem hpre
      refine ⟨l₁ ++ s.runQueueHead :: u :: l₂, post, ?_, hc.imp_right fun hmem => ?_⟩
      · rw [List.append_assoc, List.cons_append] at hl hnodup hother
        rw [List.append_assoc, List.cons_append, List.cons_append]
        refine hl.insert (hne hx) hnextu hnexth fun v hv => hother ?_ ?_
        · exact List.perm_middle.mem_iff.mpr (List.mem_cons_of_mem _ hv)
        · rintro rfl
          exact (List.nodup_cons.mp (List.perm_middle.nodup_iff.mp hnodup)).1 hv
      · simp only [List.mem_append, List.mem_cons] at hmem ⊢
        tauto
    · -- it comes after `t`
      obtain ⟨l₁, l₂, hsplit⟩ := List.append_of_mem hpost
      have hwhole : pre ++ t :: post = (pre ++ l₁) ++ s.runQueueHead :: l₂ := by
        rw [hsplit, List.append_assoc]
      rw [hwhole] at hl hnodup hother
      have hlinks := hl.insert (hne hx) hnextu hnexth fun v hv => hother
        (List.perm_middle.mem_iff.mpr (List.mem_cons_of_mem _ hv)) (by
          rintro rfl
          exact (List.nodup_cons.mp (List.perm_middle.nodup_iff.mp hnodup)).1 hv)
      cases l₁ with
      | nil =>
        rw [List.nil_append, List.cons.injEq] at hsplit
        rw [List.append_nil, ← hsplit.1] at hlinks
        exact ⟨pre, u :: l₂, hlinks, hc⟩
      | cons v l₁ =>
        rw [List.cons_append, List.cons.injEq] at hsplit
        rw [← hsplit.1, List.append_assoc, List.cons_append] at hlinks
        exact ⟨pre, l₁ ++ s.runQueueHead :: u :: l₂, hlinks, hc⟩

/-! ## Picking -/

/-- The search walks up to a ready task and no further. -/
theorem schedPickLoop_upto (fuel : ℕ) {start : Word} {way : List Word}
    (hl : Links s.next t (s.next c) way) (hstart : start ∉ way)
    (hready : (s.task t).state = .ready) (hfuel : way.length < fuel) :
    ∃ u ∈ way ++ [t], schedPickLoop s start fuel c = some u := by
  induction way generalizing fuel c with
  | nil =>
    obtain _ | fuel := fuel
    · simp at hfuel
    have hend : s.next c = t := hl
    refine ⟨t, by simp, ?_⟩
    rw [schedPickLoop, hend]
    exact if_pos hready
  | cons v way ih =>
    obtain _ | fuel := fuel
    · simp at hfuel
    obtain ⟨hnext, -, hrest⟩ := hl
    rw [List.mem_cons, not_or] at hstart
    rw [schedPickLoop, hnext]
    by_cases hv : (s.task v).state = .ready
    · exact ⟨v, by simp, if_pos hv⟩
    · obtain ⟨u, hu, hpick⟩ := ih fuel hrest hstart.2 (Nat.lt_of_succ_lt_succ hfuel)
      refine ⟨u, List.mem_cons_of_mem v hu, ?_⟩
      simp only [if_neg hv, if_neg (Ne.symm hstart.1), hpick]

/-- A pick while `t` waits: the search resumes at another place before `t`, which is not `x`. -/
theorem Sched.Ahead.pick (hring : s.Ring ts) (hx : x ∈ ts) (hcursor : s.cursor ∈ ts)
    (h : s.Ahead x s.cursor t) (hready : (s.task t).state = .ready)
    (hpick : schedPickNext s = some (u, s')) (hut : u ≠ t) :
    u ≠ x ∧ u ≠ 0 ∧ s'.Ahead x s'.cursor t := by
  obtain ⟨pre, post, hl, hc⟩ := h
  have hnodup := hl.nodup
  rw [List.nodup_append] at hnodup
  have htpre : t ∉ pre := fun hmem => hnodup.2.2 t hmem t List.mem_cons_self rfl
  -- the way from where the search resumes to `t`
  obtain ⟨way, hway, hsub, hnot⟩ : ∃ way, Links s.next t (s.next s.cursor) way ∧
      (∀ v ∈ way, v ∈ pre) ∧ s.cursor ∉ way := by
    rcases hc with hc | hc
    · rw [hc]
      exact ⟨pre, hl.upto htpre, fun v hv => hv,
        fun hmem => hl.ne_null_of_mem (List.mem_append_left _ hmem) rfl⟩
    · obtain ⟨l₁, l₂, rfl⟩ := List.append_of_mem hc
      have hsuffix : Links s.next x s.cursor (s.cursor :: (l₂ ++ t :: post)) := by
        rw [List.append_assoc] at hl
        exact hl.suffix
      refine ⟨l₂, hsuffix.2.2.upto fun hmem => htpre ?_, fun v hv => ?_, fun hmem => ?_⟩
      · exact List.mem_append_right _ (List.mem_cons_of_mem _ hmem)
      · exact List.mem_append_right _ (List.mem_cons_of_mem _ hv)
      · exact (List.nodup_cons.mp hsuffix.nodup).1 (List.mem_append_left _ hmem)
  have hhead : s.runQueueHead ≠ 0 := by
    cases ts with
    | nil => cases hx
    | cons head ts => exact hring.1 ▸ hring.ne_zero List.mem_cons_self
  obtain ⟨v, hv, hloop⟩ := schedPickLoop_upto walkBound hway hnot hready hway.length_lt_two_pow
  -- the tasks on the way are those of the ring, so the result is no null pointer
  obtain ⟨us, hus, hall⟩ := hring.links_from hx
  obtain rfl := hus.unique hl
  have hvpre : v ∈ pre ∨ v = t := by
    rcases List.mem_append.mp hv with hv | hv
    · exact Or.inl (hsub v hv)
    · exact Or.inr (List.mem_singleton.mp hv)
  have hv0 : v ≠ 0 := by
    refine hring.ne_zero ((hall v).mp (List.mem_append_left _ ?_))
    rcases hvpre with hv | rfl
    · exact List.mem_append_left _ hv
    · simp
  rw [schedPickNext, if_neg hhead] at hpick
  simp only [if_pos (hring.ne_zero hcursor), hloop, Option.bind_eq_bind, Option.bind_some,
    if_neg hv0] at hpick
  obtain ⟨rfl, rfl⟩ := Prod.mk.inj (Option.some.inj hpick)
  have hmem : v ∈ pre := hvpre.resolve_right hut
  refine ⟨hl.ne_null_of_mem (List.mem_append_left _ hmem), hv0, pre, post, ?_, Or.inr hmem⟩
  exact hl

/-! ## Waiting -/

/-- After `x` was picked and while `t` waits: the search resumes between `x` and `t`. -/
theorem Waits.ahead {q₁ q₂ : Queue} (hinv : QueueInv q₁ ts) (hx : x ∈ ts) (ht : t ∈ ts)
    (htx : t ≠ x) (hcursor : q₁.sched.cursor = x) (h : Waits t q₁ q₂) :
    ∃ ts', QueueInv q₂ ts' ∧ x ∈ ts' ∧ t ∈ ts' ∧ q₂.sched.cursor ∈ ts' ∧
      q₂.sched.Ahead x q₂.sched.cursor t ∧ (q₂.sched.task t).state = .ready := by
  induction h with
  | refl hready =>
    obtain ⟨us, hl, hall⟩ := hinv.ring.links_from hx
    have hmem : t ∈ us := by
      rcases List.mem_append.mp ((hall t).mpr ht) with hmem | hmem
      · exact hmem
      · exact absurd (List.mem_singleton.mp hmem) htx
    obtain ⟨pre, post, rfl⟩ := List.append_of_mem hmem
    exact ⟨ts, hinv, hx, ht, hcursor ▸ hx, ⟨pre, post, hl, Or.inl hcursor⟩, hready⟩
  | step q₂ q₃ e _ hstep he hready' ih =>
    obtain ⟨ts₂, hinv₂, hx₂, ht₂, hc₂, hahead, hready⟩ := ih
    obtain ⟨ts₃, hinv₃⟩ := hstep.inv hinv₂
    -- no task leaves the ring
    have hkeep {v : Word} (hv : v ∈ ts₂) : v ∈ ts₃ := by
      refine hinv₃.perm.mem_iff.mpr ?_
      have hv' := hinv₂.perm.mem_iff.mp hv
      cases hstep with
      | add => exact List.mem_cons_of_mem _ hv'
      | pick => exact hv'
      | change => exact hv'
    refine ⟨ts₃, hinv₃, hkeep hx₂, hkeep ht₂, ?_, ?_, hready'⟩
    · rcases hinv₃.cursor with h0 | hmem
      · -- the cursor never becomes null again
        have hc0 := hinv₂.ring.ne_zero hc₂
        cases hstep with
        | add u =>
          rw [(schedAddTask_fields q₂.sched u).2.1] at h0
          exact absurd h0 hc0
        | pick u sched hpick =>
          rcases hinv₂.ring.pickNext hinv₂.cursor with ⟨hnone, -⟩ | ⟨v, hv, -, hsome⟩
          · cases hnone.symm.trans hpick
            exact absurd h0 hc0
          · cases hsome.symm.trans hpick
            exact hkeep hv
        | change sched _ hcur =>
          rw [hcur] at h0
          exact absurd h0 hc0
      · exact hmem
    · cases hstep with
      | add u hu hnew =>
        rw [(schedAddTask_fields q₂.sched u).2.1]
        exact hahead.addTask hinv₂.ring (fun hmem => hnew (hinv₂.perm.mem_iff.mp hmem)) hu hx₂ ht₂
      | pick u sched hpick =>
        have hut : u ≠ t := fun heq => he (heq ▸ rfl)
        exact (Sched.Ahead.pick hinv₂.ring hx₂ hc₂ hahead hready hpick hut).2.2
      | change sched _ hcur hnext =>
        rw [hcur]
        exact hahead.of_next hnext

/-- Round robin. The run queue is a ring with every added task in it once, so all walks around it
end. `sched_pick_next` returns null exactly if no task is ready, and no task `x` is picked twice while
another task `t` of the ring stays ready and is not picked. -/
theorem round_robin_overtakes_once (task : Word → Task) (q : Queue) (hq : QueueReachable task q) :
    (∃ ts, q.sched.Ring ts ∧ ts.Perm q.added ∧ ts.Nodup) ∧
      (schedAnyAlive q.sched).isSome ∧ (∀ chan, (wakeup q.sched chan).isSome) ∧
      (∃ t sched, schedPickNext q.sched = some (t, sched) ∧
        (t = 0 ↔ ∀ u ∈ q.added, (q.sched.task u).state ≠ .ready)) ∧
      ∀ x t q₁ q₂, x ≠ 0 → QueueStep q (.pick x) q₁ → t ∈ q.added → t ≠ x → Waits t q₁ q₂ →
        ¬ ∃ q₃, QueueStep q₂ (.pick x) q₃ := by
  obtain ⟨ts, hinv⟩ := hq.inv
  have hpick := hinv.ring.pickNext hinv.cursor
  refine ⟨⟨ts, hinv.ring, hinv.perm, hinv.ring.nodup⟩, by rw [hinv.ring.anyAlive]; rfl,
    fun chan => ?_, ?_, ?_⟩
  · by_cases hchan : chan = 0
    · rw [wakeup, if_pos hchan]
      rfl
    · rw [hinv.ring.wakeup hchan]
      rfl
  · rcases hpick with ⟨hnone, hall⟩ | ⟨u, hu, hready, hsome⟩
    · exact ⟨0, q.sched, hnone, fun _ v hv => hall v (hinv.perm.mem_iff.mpr hv), fun _ => rfl⟩
    · refine ⟨u, _, hsome, fun h0 => absurd h0 (hinv.ring.ne_zero hu), fun hall => ?_⟩
      exact absurd hready (hall u (hinv.perm.mem_iff.mp hu))
  · rintro x t q₁ q₂ hx0 hstep ht htx hwaits ⟨q₃, hagain⟩
    obtain ⟨hinv₁, hx, hcursor⟩ := hinv.of_pick hx0 hstep
    obtain ⟨ts₂, hinv₂, hx₂, -, hc₂, hahead, hready⟩ :=
      hwaits.ahead hinv₁ hx (hinv.perm.mem_iff.mpr ht) htx hcursor
    cases hagain with
    | pick _ sched hcall =>
      exact (hahead.pick hinv₂.ring hx₂ hc₂ hready hcall htx.symm).1 rfl

/-- Two ready tasks take turns: the second one that was added is picked first, and then not again
before the first one. -/
theorem round_robin_overtakes_once_two :
    ∃ q q₁ : Queue, QueueReachable (fun _ => ⟨.ready, 0, 0⟩) q ∧ q.added = [0x2000, 0x1000] ∧
      QueueStep q (.pick 0x2000) q₁ ∧ ¬ ∃ q₂, QueueStep q₁ (.pick 0x2000) q₂ := by
  let s : Sched := schedAddTask (schedAddTask (schedInit fun _ => ⟨.ready, 0, 0⟩) 0x1000) 0x2000
  have hreach : QueueReachable (fun _ => ⟨.ready, 0, 0⟩) { sched := s, added := [0x2000, 0x1000] } :=
    (Relation.ReflTransGen.refl.tail ⟨_, .add _ 0x1000 (by decide) (by simp)⟩).tail
      ⟨_, .add _ 0x2000 (by decide) (by simp)⟩
  have hpick : QueueStep { sched := s, added := [0x2000, 0x1000] } (.pick 0x2000)
      { sched := { s with cursor := 0x2000 }, added := [0x2000, 0x1000] } := by
    refine .pick _ _ _ ?_
    rfl
  have hmain := (round_robin_overtakes_once _ _ hreach).2.2.2.2
  exact ⟨_, _, hreach, rfl, hpick,
    hmain 0x2000 0x1000 _ _ (by decide) hpick (by simp) (by decide) (.refl _ rfl)⟩

end Pros
