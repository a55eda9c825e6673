import Mathlib

/-!
# Books of what is held

Owners take resources over and give them back, one at a time, and every such event is an entry of a
list, the last one first. Replaying the entries gives what an owner holds, unless it gave something
back that it did not hold.
-/

namespace Ledger

/-- The owner `o` takes one `r` over, or gives one back. -/
inductive Entry (ω ρ : Type)
  | gain (o : ω) (r : ρ)
  | drop (o : ω) (r : ρ)
  deriving DecidableEq

variable {ω ρ : Type}

/-- Whose entry it is. -/
def Entry.owner : Entry ω ρ → ω
  | .gain o _ | .drop o _ => o

/-- What the entry is about. -/
def Entry.resource : Entry ω ρ → ρ
  | .gain _ r | .drop _ r => r

variable [DecidableEq ω] [DecidableEq ρ]

/-- How many of each resource `o` holds after the entries; `none` when it gave back one that it did
not hold. -/
def balance (o : ω) : List (Entry ω ρ) → Option (ρ → ℕ)
  | [] => some 0
  | .gain u r :: log => do
    let held ← balance o log
    return if u = o then held + Pi.single r 1 else held
  | .drop u r :: log => do
    let held ← balance o log
    if u = o then
      if held r = 0 then none else some (held - Pi.single r 1)
    else some held

variable {o : ω} {r : ρ} {log older events : List (Entry ω ρ)} {held : ρ → ℕ}

/-! ## One entry -/

theorem balance_gain (h : balance o log = some held) :
    balance o (.gain o r :: log) = some (held + Pi.single r 1) := by
  simp [balance, h]

theorem balance_drop (h : balance o log = some (held + Pi.single r 1)) :
    balance o (.drop o r :: log) = some held := by
  have hpos : (held + Pi.single r 1 : ρ → ℕ) r ≠ 0 := by simp
  have hsub : held + Pi.single r 1 - Pi.single r 1 = held :=
    funext fun q => Nat.add_sub_cancel _ _
  simp only [balance, h, Option.bind_eq_bind, Option.bind_some, if_true, if_neg hpos, hsub]

/-- Entries of others do not matter. -/
theorem balance_append_of_ne (h : ∀ e ∈ events, e.owner ≠ o) :
    balance o (events ++ log) = balance o log := by
  induction events with
  | nil => rfl
  | cons e events ih =>
    have hrest := ih fun e he => h e (List.mem_cons_of_mem _ he)
    have hne : e.owner ≠ o := h e List.mem_cons_self
    cases e with
    | gain u r =>
      have hu : u ≠ o := hne
      simp [balance, hrest, hu]
    | drop u r =>
      have hu : u ≠ o := hne
      simp [balance, hrest, hu]

/-! ## Counting -/

/-- What was taken and not given back is held. -/
theorem count_gain_of_balance (r : ρ) : ∀ {log : List (Entry ω ρ)} {held : ρ → ℕ},
    balance o log = some held → log.count (.gain o r) = log.count (.drop o r) + held r := by
  intro log
  induction log with
  | nil =>
    intro held h
    cases h
    rfl
  | cons e log ih =>
    intro held h
    cases e with
    | gain u q =>
      obtain ⟨held', hlog, hret⟩ := Option.bind_eq_some_iff.mp h
      cases hret
      have hcount := ih hlog
      by_cases hu : u = o
      · subst hu
        by_cases hq : q = r
        · subst hq
          simp [hcount, Nat.add_assoc]
        · simp [hcount, hq, Ne.symm hq]
      · simp [hcount, hu]
    | drop u q =>
      obtain ⟨held', hlog, hret⟩ := Option.bind_eq_some_iff.mp h
      have hcount := ih hlog
      by_cases hu : u = o
      · subst hu
        rw [if_pos rfl] at hret
        split at hret
        · exact absurd hret nofun
        rename_i hpos
        cases hret
        by_cases hq : q = r
        · subst hq
          simp only [List.count_cons, hcount, Pi.sub_apply, Pi.single_eq_same]
          simp only [beq_iff_eq, reduceCtorEq, if_false, BEq.rfl, if_true]
          omega
        · simp [hcount, hq, Ne.symm hq]
      · rw [if_neg hu] at hret
        cases hret
        simp [hcount, hu]

/-- A replay that does not fail did not fail before. -/
theorem exists_balance_of_suffix (h : balance o log = some held) (hsuffix : older <:+ log) :
    ∃ held', balance o older = some held' := by
  obtain ⟨events, rfl⟩ := hsuffix
  induction events generalizing held with
  | nil => exact ⟨held, h⟩
  | cons e events ih =>
    cases e with
    | gain u q | drop u q =>
      obtain ⟨held', hlog, -⟩ := Option.bind_eq_some_iff.mp h
      exact ih hlog

/-- After entries that end with empty hands, a replay is as from the start. -/
theorem balance_append_of_zero (h : balance o log = some 0) :
    balance o (events ++ log) = balance o events := by
  induction events with
  | nil => exact h
  | cons e events ih =>
    cases e with
    | gain u q | drop u q => simp only [List.cons_append, balance, ih]

/-- Everything that `o` took was given back once, and never something that it did not hold. -/
structure Balanced (o : ω) (events : List (Entry ω ρ)) : Prop where
  once : ∀ r, events.count (.gain o r) = events.count (.drop o r)
  held : ∀ older, older <:+ events → ∀ r, older.count (.drop o r) ≤ older.count (.gain o r)

theorem balanced_of_balance (h : balance o log = some 0) (h' : balance o (events ++ log) = some 0) :
    Balanced o events := by
  rw [balance_append_of_zero h] at h'
  refine ⟨fun r => count_gain_of_balance r h', fun older hsuffix r => ?_⟩
  obtain ⟨held, hheld⟩ := exists_balance_of_suffix h' hsuffix
  rw [count_gain_of_balance r hheld]
  exact Nat.le_add_right _ _

end Ledger
