import Pros.Lib.ByteMem

/-!
# Byte strings in memory

Runs of bytes in a byte memory: reading them, storing them, and the predicate that a memory holds
them at an address. A record of several fields is held when each field is held behind the one before
it.
-/

/-- The `n` low bytes of a word, the lowest first. -/
def leBytes (n : ℕ) (v : BitVec 64) : List (BitVec 8) :=
  (List.range n).map fun i => v.extractLsb' (8 * i) 8

@[simp]
theorem length_leBytes (n : ℕ) (v : BitVec 64) : (leBytes n v).length = n := by
  simp [leBytes]

theorem getD_leBytes {n i : ℕ} (v : BitVec 64) (hi : i < n) :
    (leBytes n v).getD i 0 = v.extractLsb' (8 * i) 8 := by
  simp [leBytes, hi]

namespace ByteMem

/-- The bytes of `[a, a + n)`. -/
def bytes (m : ByteMem) (a : BitVec 64) (n : ℕ) : List (BitVec 8) :=
  (List.range n).map fun i => m (a + BitVec.ofNat 64 i)

/-- Store `bs` at `a`. -/
def write (m : ByteMem) (a : BitVec 64) (bs : List (BitVec 8)) : ByteMem := fun x =>
  if (x - a).toNat < bs.length then bs.getD (x - a).toNat 0 else m x

/-- The length of the string at `a`; `none` when there is no NUL within the fuel. -/
def strlen (m : ByteMem) : ℕ → BitVec 64 → Option ℕ
  | 0, _ => none
  | fuel + 1, a => if m a = 0 then some 0 else (strlen m fuel (a + 1)).map (· + 1)

/-- The length of the string at `a`, or `n` when there is no NUL among the first `n` bytes. -/
def strnlen (m : ByteMem) (a : BitVec 64) : ℕ → ℕ
  | 0 => 0
  | n + 1 => if m a = 0 then 0 else strnlen m (a + 1) n + 1

/-- The bytes from `a` on are `bs`. -/
def Holds (m : ByteMem) (a : BitVec 64) (bs : List (BitVec 8)) : Prop :=
  ∀ i < bs.length, m (a + BitVec.ofNat 64 i) = bs.getD i 0

variable {m : ByteMem} {a : BitVec 64} {bs xs ys : List (BitVec 8)}

@[simp]
theorem length_bytes (m : ByteMem) (a : BitVec 64) (n : ℕ) : (m.bytes a n).length = n := by
  rw [bytes, List.length_map, List.length_range]

theorem getD_bytes (m : ByteMem) (a : BitVec 64) {i n : ℕ} (hi : i < n) :
    (m.bytes a n).getD i 0 = m (a + BitVec.ofNat 64 i) := by
  rw [List.getD_eq_getElem _ _ (by rwa [length_bytes])]
  simp only [bytes, List.getElem_map, List.getElem_range]

theorem bytes_add (m : ByteMem) (a : BitVec 64) (n k : ℕ) :
    m.bytes a (n + k) = m.bytes a n ++ m.bytes (a + BitVec.ofNat 64 n) k := by
  simp only [bytes, List.range_add, List.map_append, List.map_map]
  refine congrArg _ (List.map_congr_left fun i _ => ?_)
  rw [Function.comp_apply, BitVec.ofNat_add, BitVec.add_assoc]

theorem Holds.bytes_eq (h : m.Holds a bs) : m.bytes a bs.length = bs := by
  apply List.ext_getElem (length_bytes ..)
  intro i _ hi
  rw [← List.getD_eq_getElem bs 0 hi, ← h i hi]
  simp only [bytes, List.getElem_map, List.getElem_range]

@[simp]
theorem holds_nil : m.Holds a [] := fun _ hi => absurd hi (Nat.not_lt_zero _)

theorem holds_append :
    m.Holds a (xs ++ ys) ↔ m.Holds a xs ∧ m.Holds (a + BitVec.ofNat 64 xs.length) ys := by
  constructor
  · intro h
    constructor
    · intro i hi
      rw [h i (by rw [List.length_append]; omega), List.getD_append _ _ _ _ hi]
    · intro i hi
      rw [BitVec.add_assoc, ← BitVec.ofNat_add,
        h (xs.length + i) (by rw [List.length_append]; omega),
        List.getD_append_right _ _ _ _ (Nat.le_add_right _ _), Nat.add_sub_cancel_left]
  · rintro ⟨hx, hy⟩ i hi
    rw [List.length_append] at hi
    by_cases hlt : i < xs.length
    · rw [hx i hlt, List.getD_append _ _ _ _ hlt]
    · have := hy (i - xs.length) (by omega)
      rw [BitVec.add_assoc, ← BitVec.ofNat_add, Nat.add_sub_cancel' (by omega)] at this
      rw [this, List.getD_append_right _ _ _ _ (by omega)]

theorem holds_cons {b : BitVec 8} :
    m.Holds a (b :: xs) ↔ m a = b ∧ m.Holds (a + 1) xs := by
  have hone : m.Holds a [b] ↔ m a = b := by
    constructor
    · intro h
      simpa using h 0 (by simp)
    · rintro rfl i hi
      obtain rfl : i = 0 := by simpa using hi
      simp
  rw [← List.singleton_append, holds_append, hone]
  rfl

theorem holds_write (m : ByteMem) (a : BitVec 64) (hlen : bs.length ≤ 2 ^ 64) :
    (m.write a bs).Holds a bs := by
  intro i hi
  rw [write, toNat_add_ofNat_sub a (by omega), if_pos hi]

theorem write_nil (m : ByteMem) (a : BitVec 64) : m.write a [] = m :=
  funext fun _ => if_neg (Nat.not_lt_zero _)

theorem write_append (m : ByteMem) (a : BitVec 64) (hlen : xs.length + ys.length ≤ 2 ^ 64) :
    (m.write a xs).write (a + BitVec.ofNat 64 xs.length) ys = m.write a (xs ++ ys) := by
  funext x
  have hsub : x - (a + BitVec.ofNat 64 xs.length) = x - a - BitVec.ofNat 64 xs.length := by
    rw [BitVec.sub_sub]
  simp only [write, List.length_append, hsub]
  generalize x - a = y
  have hy := y.isLt
  by_cases hlt : y.toNat < xs.length
  · -- in the first part; behind it there is no room for the second part to come around
    have hfar : ¬ (y - BitVec.ofNat 64 xs.length).toNat < ys.length := by
      rw [BitVec.toNat_sub, BitVec.toNat_ofNat]
      omega
    rw [if_neg hfar, if_pos hlt, if_pos (by omega), List.getD_append _ _ _ _ hlt]
  · have hat : (y - BitVec.ofNat 64 xs.length).toNat = y.toNat - xs.length := by
      rw [BitVec.toNat_sub, BitVec.toNat_ofNat]
      omega
    rw [hat, if_neg hlt]
    by_cases hin : y.toNat < xs.length + ys.length
    · rw [if_pos (by omega), if_pos hin, List.getD_append_right _ _ _ _ (by omega)]
    · rw [if_neg (by omega), if_neg hin]

/-! ## Strings -/

/-- The length of a string that is held, as far as it is looked for. -/
theorem Holds.strnlen {n : ℕ} (h : m.Holds a (bs ++ [0])) (hbs : 0 ∉ bs) (hn : bs.length < n) :
    m.strnlen a n = bs.length := by
  induction bs generalizing a n with
  | nil =>
    obtain ⟨n, rfl⟩ : ∃ k, n = k + 1 := ⟨n - 1, by simp at hn; omega⟩
    exact if_pos (holds_cons.mp h).1
  | cons b bs ih =>
    obtain ⟨n, rfl⟩ : ∃ k, n = k + 1 := ⟨n - 1, by simp at hn; omega⟩
    obtain ⟨hb, htail⟩ := holds_cons.mp h
    rw [List.mem_cons, not_or] at hbs
    rw [ByteMem.strnlen, hb, if_neg (Ne.symm hbs.1), ih htail hbs.2 (by simpa using hn),
      List.length_cons]

end ByteMem
