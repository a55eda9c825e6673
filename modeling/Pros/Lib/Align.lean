import Mathlib

/-!
# Alignment of 64-bit words

Rounding a word down and up to a multiple of a power of two with the usual masks, and what the
masks compute on the naturals.

* `toNat_alignDown`: masking rounds down to a multiple of `2 ^ k`;
* `toNat_alignUp`: adding `2 ^ k - 1` and masking rounds up, as long as the sum does not wrap.
-/

/-- A 64-bit machine word; also an address. -/
abbrev Word := BitVec 64

instance Word.lawfulBEq : LawfulBEq Word := inferInstance

namespace Word

/-- `x` rounded down to a multiple of the power of two `align`. -/
def alignDown (x align : Word) : Word := x &&& ~~~(align - 1)

/-- `x` rounded up to a multiple of the power of two `align`. -/
def alignUp (x align : Word) : Word := (x + align - 1) &&& ~~~(align - 1)

theorem getLsbD_twoPow_sub_one {k i : ℕ} (hk : k < 64) (hi : i < 64) :
    (BitVec.ofNat 64 (2 ^ k) - 1).getLsbD i = decide (i < k) := by
  have hlt : 2 ^ k < 2 ^ 64 := Nat.pow_lt_pow_right (by omega) hk
  have hpos : 0 < 2 ^ k := Nat.two_pow_pos k
  have heq : BitVec.ofNat 64 (2 ^ k) - 1 = BitVec.ofNat 64 (2 ^ k - 1) := by
    generalize 2 ^ k = p at hlt hpos ⊢
    bv_omega
  rw [heq, BitVec.getLsbD_ofNat, Nat.testBit_two_pow_sub_one]
  simp [hi]

/-- Masking off the low `k` bits is a shift out and back. -/
theorem alignDown_eq_shift (x : Word) {k : ℕ} (hk : k < 64) :
    alignDown x (BitVec.ofNat 64 (2 ^ k)) = (x >>> k) <<< k := by
  apply BitVec.eq_of_getLsbD_eq
  intro i hi
  rw [alignDown, BitVec.getLsbD_and, BitVec.getLsbD_not, getLsbD_twoPow_sub_one hk hi,
    BitVec.getLsbD_shiftLeft, BitVec.getLsbD_ushiftRight]
  by_cases hik : i < k
  · simp [hik]
  · simp [hik, hi, Nat.add_sub_cancel' (Nat.le_of_not_lt hik)]

theorem toNat_alignDown (x : Word) {k : ℕ} (hk : k < 64) :
    (alignDown x (BitVec.ofNat 64 (2 ^ k))).toNat = x.toNat / 2 ^ k * 2 ^ k := by
  rw [alignDown_eq_shift x hk, BitVec.toNat_shiftLeft, BitVec.toNat_ushiftRight,
    Nat.shiftRight_eq_div_pow, Nat.shiftLeft_eq, Nat.mod_eq_of_lt]
  exact lt_of_le_of_lt (Nat.div_mul_le_self _ _) x.isLt

theorem toNat_alignUp (x : Word) {k : ℕ} (hk : k < 64) (hx : x.toNat + (2 ^ k - 1) < 2 ^ 64) :
    (alignUp x (BitVec.ofNat 64 (2 ^ k))).toNat = (x.toNat + (2 ^ k - 1)) / 2 ^ k * 2 ^ k := by
  have hlt : 2 ^ k < 2 ^ 64 := Nat.pow_lt_pow_right (by omega) hk
  have hpos : 0 < 2 ^ k := Nat.two_pow_pos k
  have hsum : (x + BitVec.ofNat 64 (2 ^ k) - 1).toNat = x.toNat + (2 ^ k - 1) := by
    generalize 2 ^ k = p at hlt hpos hx ⊢
    bv_omega
  have hdown := toNat_alignDown (x + BitVec.ofNat 64 (2 ^ k) - 1) hk
  rwa [hsum] at hdown

end Word
