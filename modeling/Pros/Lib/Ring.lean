import Mathlib

/-!
# Queues in a ring of cells

A queue of at most `n` elements is kept in `n` cells, from the cell `head` on and around the end.
The other cells are unrestricted.
-/

namespace Ring

variable {α : Type*} {cell cell' : ℕ → α} {n head i j : ℕ} {q : List α} {a : α}

/-- The cell that is `i` places after `head`. -/
def place (n head i : ℕ) : ℕ := (head + i) % n

theorem place_lt (hn : 0 < n) (head i : ℕ) : place n head i < n := Nat.mod_lt _ hn

/-- Fewer than `n` places apart means different cells. -/
theorem place_inj (hi : i < n) (hj : j < n) (h : place n head i = place n head j) : i = j :=
  Nat.ModEq.eq_of_lt_of_lt (Nat.ModEq.add_left_cancel' head h) hi hj

theorem place_place_one (n head i : ℕ) : place n (place n head 1) i = place n head (i + 1) := by
  rw [place, place, place, Nat.mod_add_mod]
  congr 1
  omega

theorem place_zero (h : head < n) : place n head 0 = head := Nat.mod_eq_of_lt h

/-- The cells hold the queue `q`, the oldest element in the cell `head`. -/
structure Stores (cell : ℕ → α) (n head : ℕ) (q : List α) : Prop where
  length_le : q.length ≤ n
  cell_eq : ∀ i (h : i < q.length), cell (place n head i) = q[i]

namespace Stores

theorem nil (cell : ℕ → α) (n head : ℕ) : Stores cell n head [] :=
  ⟨Nat.zero_le n, fun i h => absurd h (Nat.not_lt_zero i)⟩

/-- The cell after the last element is free, and writing it appends. -/
theorem push (h : Stores cell n head q) (hroom : q.length < n)
    (hnew : cell' (place n head q.length) = a)
    (hold : ∀ i < n, i ≠ place n head q.length → cell' i = cell i) :
    Stores cell' n head (q ++ [a]) := by
  have hn : 0 < n := Nat.zero_lt_of_lt hroom
  refine ⟨?_, fun i hi => ?_⟩
  · rw [List.length_append, List.length_singleton]
    exact hroom
  · rw [List.length_append, List.length_singleton] at hi
    rcases Nat.lt_succ_iff_lt_or_eq.mp hi with hlt | rfl
    · have hne : place n head i ≠ place n head q.length := fun heq =>
        hlt.ne (place_inj (hlt.trans hroom) hroom heq)
      rw [hold _ (place_lt hn head i) hne, h.cell_eq i hlt, List.getElem_append_left hlt]
    · rw [hnew]
      simp

/-- The oldest element stands in the cell `head`; the others are stored from the next one on. -/
theorem pop (h : Stores cell n head (a :: q)) (hhead : head < n) :
    cell head = a ∧ Stores cell n (place n head 1) q := by
  refine ⟨?_, (Nat.le_succ _).trans h.length_le, fun i hi => ?_⟩
  · have hfirst := h.cell_eq 0 (Nat.succ_pos _)
    rwa [place_zero hhead] at hfirst
  · rw [place_place_one, h.cell_eq (i + 1) (Nat.succ_lt_succ hi)]
    rfl

end Stores

end Ring
