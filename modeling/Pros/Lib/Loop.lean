import Mathlib.Data.List.Basic

/-!
# Loops that may stop with an error

A loop runs a body on the elements of a list, one after the other, and hands a state from each round
to the next. A round may report an error, which ends the loop, or may not return at all.
-/

namespace Loop

variable {σ α ε : Type*}

/-- Run `body` on the elements of a list until one reports an error. -/
def forEach (body : σ → α → Option (Except ε Unit × σ)) : List α → σ → Option (Except ε Unit × σ)
  | [], s => some (.ok (), s)
  | a :: as, s =>
    match body s a with
    | none => none
    | some (.error e, s) => some (.error e, s)
    | some (.ok (), s) => forEach body as s

/-- The call returned: without an error and with `inv`, or with an error and `err`. -/
def Outcome (inv : σ → Prop) (err : ε → σ → Prop) (r : Option (Except ε Unit × σ)) : Prop :=
  (∃ s, r = some (.ok (), s) ∧ inv s) ∨ ∃ e s, r = some (.error e, s) ∧ err e s

/-- A call returned, given the value it returned; the state is then what it left. -/
theorem eq_some_of_map_fst {r : Option (α × σ)} {d : α × σ} {a : α} (h : r.map Prod.fst = some a) :
    r = some (a, (r.getD d).2) := by
  obtain ⟨b, rfl, rfl⟩ := Option.map_eq_some_iff.mp h
  rfl

/-- A call returned a value, given what can be computed of its result. -/
theorem exists_ok_of_map {β : Type*} {r : Option (Except ε α × σ)} {f : σ → β} {a : α} {b : β}
    (h : r.map (fun x => (x.1.toOption, f x.2)) = some (some a, b)) :
    ∃ s, r = some (.ok a, s) ∧ f s = b := by
  obtain ⟨⟨res, s⟩, rfl, hres⟩ := Option.map_eq_some_iff.mp h
  obtain ⟨hok, hs⟩ := Prod.mk.inj hres
  cases res with
  | error e => cases hok
  | ok c => exact ⟨s, by rw [Option.some.inj hok], hs⟩

variable {body : σ → α → Option (Except ε Unit × σ)} {err : ε → σ → Prop} {s : σ}

theorem Outcome.mono {inv inv' : σ → Prop} {err' : ε → σ → Prop}
    {r : Option (Except ε Unit × σ)} (h : Outcome inv err r) (hinv : ∀ s, inv s → inv' s)
    (herr : ∀ e s, err e s → err' e s) : Outcome inv' err' r := by
  rcases h with ⟨s, hr, hs⟩ | ⟨e, s, hr, hs⟩
  · exact Or.inl ⟨s, hr, hinv s hs⟩
  · exact Or.inr ⟨e, s, hr, herr e s hs⟩

/-- An invariant that may speak about the elements that are done. -/
theorem forEach_outcome (inv : List α → σ → Prop) (as : List α)
    (hstep : ∀ done a rest s, as = done ++ a :: rest → inv done s →
      Outcome (inv (done ++ [a])) err (body s a))
    (hs : inv [] s) : Outcome (inv as) err (forEach body as s) := by
  suffices h : ∀ rest done s, as = done ++ rest → inv done s →
      Outcome (inv as) err (forEach body rest s) from h as [] s rfl hs
  intro rest
  induction rest with
  | nil =>
    intro done s has hs
    rw [List.append_nil] at has
    exact Or.inl ⟨s, rfl, has ▸ hs⟩
  | cons a rest ih =>
    intro done s has hs
    rw [forEach]
    rcases hstep done a rest s has hs with ⟨s', hbody, hs'⟩ | ⟨e, s', hbody, hs'⟩
    · rw [hbody]
      exact ih (done ++ [a]) s' (by rw [has, List.append_assoc]; rfl) hs'
    · rw [hbody]
      exact Or.inr ⟨e, s', rfl, hs'⟩

end Loop
