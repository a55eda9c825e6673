import Mathlib

/-!
# Byte memory with 64-bit words

A flat memory is a function from 64-bit addresses to bytes. Words are stored little endian, and
addresses wrap modulo `2 ^ 64`, so a range `[a, a + n)` is the set of `x` with
`(x - a).toNat < n`.
-/

/-- A byte memory over 64-bit addresses. -/
abbrev ByteMem := BitVec 64 → BitVec 8

namespace ByteMem

/-- The little-endian word at `a`. -/
def load64 (m : ByteMem) (a : BitVec 64) : BitVec 64 :=
  m (a + 7) ++ (m (a + 6) ++ (m (a + 5) ++ (m (a + 4) ++
    (m (a + 3) ++ (m (a + 2) ++ (m (a + 1) ++ m a))))))

/-- Store the word `v` little endian at `a`. -/
def store64 (m : ByteMem) (a v : BitVec 64) : ByteMem := fun x =>
  if (x - a).toNat < 8 then v.extractLsb' (8 * (x - a).toNat) 8 else m x

/-- Store one byte. -/
def store8 (m : ByteMem) (a : BitVec 64) (v : BitVec 8) : ByteMem := fun x =>
  if x = a then v else m x

/-- Fill `[a, a + n)` with the byte `c`. -/
def memset (m : ByteMem) (a : BitVec 64) (c : BitVec 8) (n : ℕ) : ByteMem := fun x =>
  if (x - a).toNat < n then c else m x

/-- Copy `n` bytes from `src` to `dst`; the ranges are meant not to meet. -/
def memcpy (m : ByteMem) (dst src : BitVec 64) (n : ℕ) : ByteMem := fun x =>
  if (x - dst).toNat < n then m (src + (x - dst)) else m x

/-- The two memories hold the same bytes in `[a, a + n)`. -/
def AgreeOn (m m' : ByteMem) (a : BitVec 64) (n : ℕ) : Prop :=
  ∀ x, (x - a).toNat < n → m' x = m x

/-- The ranges `[a, a + n)` and `[b, b + k)`, modulo `2 ^ 64`, do not meet. -/
def Apart (a : BitVec 64) (n : ℕ) (b : BitVec 64) (k : ℕ) : Prop :=
  ∀ x, (x - a).toNat < n → ¬ (x - b).toNat < k

theorem AgreeOn.trans {m m' m'' : ByteMem} {a : BitVec 64} {n : ℕ} (h : AgreeOn m m' a n)
    (h' : AgreeOn m' m'' a n) : AgreeOn m m'' a n :=
  fun x hx => (h' x hx).trans (h x hx)

theorem Apart.symm {a b : BitVec 64} {n k : ℕ} (h : Apart a n b k) : Apart b k a n :=
  fun x hb ha => h x ha hb

theorem Apart.mono {a b : BitVec 64} {n n' k k' : ℕ} (h : Apart a n b k) (hn : n' ≤ n)
    (hk : k' ≤ k) : Apart a n' b k' :=
  fun x hx hx' => h x (by omega) (by omega)

/-- Ranges that are apart without wrapping, given by their distance as naturals. -/
theorem apart_of_le {a b : BitVec 64} {n k : ℕ} (h : a.toNat + n ≤ b.toNat)
    (hb : b.toNat + k ≤ 2 ^ 64) : Apart a n b k := by
  intro x ha hx
  bv_omega

/-! ## Words -/

/-- Byte `i` of the word loaded at `a` is the byte at `a + i`. -/
theorem extractLsb'_load64 (m : ByteMem) (a : BitVec 64) {i : ℕ} (hi : i < 8) :
    (m.load64 a).extractLsb' (8 * i) 8 = m (a + BitVec.ofNat 64 i) := by
  apply BitVec.eq_of_getLsbD_eq
  intro j hj
  simp only [BitVec.getLsbD_extractLsb', load64, BitVec.getLsbD_append, hj, decide_true,
    Bool.true_and]
  interval_cases i <;> simp [hj] <;> grind

/-- A load depends only on the eight bytes it reads. -/
theorem load64_congr {m m' : ByteMem} {a b : BitVec 64}
    (h : ∀ i < 8, m' (b + BitVec.ofNat 64 i) = m (a + BitVec.ofNat 64 i)) :
    m'.load64 b = m.load64 a := by
  have h0 : m' b = m a := by simpa using h 0 (by omega)
  have h1 : m' (b + 1) = m (a + 1) := h 1 (by omega)
  have h2 : m' (b + 2) = m (a + 2) := h 2 (by omega)
  have h3 : m' (b + 3) = m (a + 3) := h 3 (by omega)
  have h4 : m' (b + 4) = m (a + 4) := h 4 (by omega)
  have h5 : m' (b + 5) = m (a + 5) := h 5 (by omega)
  have h6 : m' (b + 6) = m (a + 6) := h 6 (by omega)
  have h7 : m' (b + 7) = m (a + 7) := h 7 (by omega)
  simp only [load64, h0, h1, h2, h3, h4, h5, h6, h7]

theorem toNat_add_ofNat_sub (a : BitVec 64) {i : ℕ} (hi : i < 2 ^ 64) :
    (a + BitVec.ofNat 64 i - a).toNat = i := by
  bv_omega

/-- A load sees nothing of a change outside its eight bytes. -/
theorem AgreeOn.load64_eq {m m' : ByteMem} {a : BitVec 64} (h : AgreeOn m m' a 8) :
    m'.load64 a = m.load64 a :=
  load64_congr fun i hi => h _ (by rw [toNat_add_ofNat_sub a (by omega)]; exact hi)

/-- Two words with the same bytes are equal. -/
theorem eq_of_extractLsb'_eq {v w : BitVec 64}
    (h : ∀ i < 8, v.extractLsb' (8 * i) 8 = w.extractLsb' (8 * i) 8) : v = w := by
  apply BitVec.eq_of_getLsbD_eq
  intro j hj
  have hb := congrArg (·.getLsbD (j % 8)) (h (j / 8) (by omega))
  have hlt : j % 8 < 8 := Nat.mod_lt _ (by omega)
  simpa [BitVec.getLsbD_extractLsb', hlt, Nat.div_add_mod] using hb

/-- A stored word reads back. -/
@[simp]
theorem load64_store64_self (m : ByteMem) (a v : BitVec 64) :
    (m.store64 a v).load64 a = v := by
  apply eq_of_extractLsb'_eq
  intro i hi
  rw [extractLsb'_load64 _ _ hi]
  simp only [store64, toNat_add_ofNat_sub a (show i < 2 ^ 64 by omega), hi, if_true]

theorem store64_apply_of_apart {m : ByteMem} {a v x : BitVec 64} (h : ¬ (x - a).toNat < 8) :
    m.store64 a v x = m x :=
  if_neg h

/-- A store leaves every range alone that does not meet the eight bytes it writes. -/
theorem agreeOn_store64 {m : ByteMem} {a b v : BitVec 64} {k : ℕ} (h : Apart a 8 b k) :
    AgreeOn m (m.store64 a v) b k :=
  fun x hx => store64_apply_of_apart fun ha => h x ha hx

/-- A store leaves the words alone that it does not meet. -/
theorem load64_store64_of_apart {m : ByteMem} {a b v : BitVec 64} (h : Apart a 8 b 8) :
    (m.store64 a v).load64 b = m.load64 b :=
  (agreeOn_store64 h).load64_eq

/-! ## Ranges -/

theorem agreeOn_memset {m : ByteMem} {a b : BitVec 64} {c : BitVec 8} {n k : ℕ}
    (h : Apart a n b k) : AgreeOn m (m.memset a c n) b k := by
  intro x hx
  exact if_neg fun ha => h x ha hx

/-- Every word inside a zeroed range is zero. -/
theorem load64_memset_zero {m : ByteMem} {a b : BitVec 64} {n : ℕ}
    (h : ∀ i < 8, (b + BitVec.ofNat 64 i - a).toNat < n) :
    (m.memset a 0 n).load64 b = 0 := by
  apply eq_of_extractLsb'_eq
  intro i hi
  rw [extractLsb'_load64 _ _ hi, memset, if_pos (h i hi)]
  interval_cases i <;> rfl

end ByteMem
