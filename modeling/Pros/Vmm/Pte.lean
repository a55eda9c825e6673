import Pros.Vmm.Model

/-!
# Page-table entries

What the decoders of both architectures read back from an entry that `arch_vmm_make_pte` made, for
a page-aligned physical address that fits the address field of the entry. `flagBits` is what the
encoder adds to the address; it stays outside the address field, and the decoders of the flags look
at single bits of it.
-/

namespace Pros

/-! ## Single bits -/

theorem getLsbD_bit {j k : ℕ} (hk : k < 64) : (bit j).getLsbD k = decide (k = j) := by
  simp only [bit, BitVec.getLsbD_shiftLeft, hk, decide_true, Bool.true_and, BitVec.getLsbD_one]
  grind

theorem bit_ne_zero {k : ℕ} (hk : k < 64) : bit k ≠ 0 := by
  intro h
  have hb := congrArg (·.getLsbD k) h
  simp [getLsbD_bit hk] at hb

theorem and_bit (x : Word) {k : ℕ} (hk : k < 64) :
    x &&& bit k = if x.getLsbD k then bit k else 0 := by
  apply BitVec.eq_of_getLsbD_eq
  intro i hi
  rw [BitVec.getLsbD_and, getLsbD_bit hi]
  by_cases hik : i = k
  · subst hik
    cases hx : x.getLsbD i <;> simp [getLsbD_bit hi]
  · cases hx : x.getLsbD k <;> simp [getLsbD_bit hi, hik]

theorem and_bit_ne_zero (x : Word) {k : ℕ} (hk : k < 64) :
    x &&& bit k ≠ 0 ↔ x.getLsbD k = true := by
  rw [and_bit x hk]
  cases x.getLsbD k
  · simp
  · simpa using bit_ne_zero hk

theorem getLsbD_ite_bit (c : Prop) [Decidable c] {j k : ℕ} (hk : k < 64) :
    (if c then bit j else 0).getLsbD k = (decide c && decide (k = j)) := by
  split
  · rename_i hc
    simp [hc, getLsbD_bit hk]
  · rename_i hc
    simp [hc]

theorem ite_and_eq_zero (c : Prop) [Decidable c] {b m : Word} (h : b &&& m = 0) :
    (if c then b else 0) &&& m = 0 := by
  split
  · exact h
  · exact BitVec.zero_and

theorem or_and_distrib (x y m : Word) : (x ||| y) &&& m = (x &&& m) ||| (y &&& m) := by
  apply BitVec.eq_of_getLsbD_eq
  intro i _
  simp [Bool.and_or_distrib_right]

/-! ## Conditional flags -/

theorem orIf_eq (c : Prop) [Decidable c] (bits x : Word) :
    orIf c bits x = x ||| if c then bits else 0 := by
  rw [orIf]
  split
  · rfl
  · exact BitVec.or_zero.symm

theorem orIf_congr {c d : Prop} [Decidable c] [Decidable d] {bits x y : Word} (h : c ↔ d)
    (hx : x = y) : orIf c bits x = orIf d bits y := by
  simp only [orIf, h, hx]

theorem orIf_and_bit (x y : Word) {k : ℕ} (hk : k < 64) :
    orIf (x &&& bit k ≠ 0) (bit k) y = y ||| (x &&& bit k) := by
  rw [orIf_eq]
  by_cases hx : x.getLsbD k = true
  · rw [if_pos ((and_bit_ne_zero x hk).mpr hx), and_bit x hk, if_pos hx]
  · rw [if_neg (mt (and_bit_ne_zero x hk).mp hx), and_bit x hk, if_neg hx]

theorem or_vmmPresent (flags : Word) : (flags ||| vmmPresent) &&& vmmPresent ≠ 0 := by
  rw [and_bit_ne_zero _ (by decide), BitVec.getLsbD_or, getLsbD_bit (by decide)]
  simp

/-- Collecting the five flags one by one. -/
theorem and_flags (flags : Word) :
    flags &&& 31 = orIf (flags &&& vmmNoExecute ≠ 0) vmmNoExecute
      (orIf (flags &&& vmmCacheDisable ≠ 0) vmmCacheDisable
        (orIf (flags &&& vmmUser ≠ 0) vmmUser
          (orIf (flags &&& vmmWritable ≠ 0) vmmWritable
            (orIf (flags &&& vmmPresent ≠ 0) vmmPresent 0)))) := by
  have hzero : ∀ x : Word, 0 ||| x = x := fun _ => BitVec.zero_or
  rw [orIf_and_bit _ _ (by decide), orIf_and_bit _ _ (by decide), orIf_and_bit _ _ (by decide),
    orIf_and_bit _ _ (by decide), orIf_and_bit _ _ (by decide), hzero]
  simp only [← BitVec.and_or_distrib_left]
  rfl

namespace Arch

/-! ## The address field -/

/-- Width of the physical addresses that an entry can hold. -/
def physBits : Arch → ℕ
  | x86_64 => 52
  | aarch64 => 48

/-- The address field of an entry. -/
def physMask : Arch → Word
  | x86_64 => 0x000FFFFFFFFFF000
  | aarch64 => 0x0000FFFFFFFFF000

/-- A page-aligned physical address that fits the address field of an entry. -/
structure FitsPte (arch : Arch) (phys : Word) : Prop where
  aligned : phys.toNat % 4096 = 0
  lt : phys.toNat < 2 ^ arch.physBits

theorem vmmPteGetPhys_eq (arch : Arch) (pte : Word) :
    arch.vmmPteGetPhys pte = pte &&& arch.physMask := by
  cases arch <;> rfl

theorem vmmPteIsPresent_eq (arch : Arch) (pte : Word) :
    arch.vmmPteIsPresent pte = decide (pte &&& bit 0 ≠ 0) := by
  cases arch <;> rfl

theorem getLsbD_physMask (arch : Arch) (i : Fin 64) :
    arch.physMask.getLsbD i = decide (12 ≤ i.val ∧ i.val < arch.physBits) := by
  cases arch <;> revert i <;> decide

variable {arch : Arch} {phys flags : Word}

theorem FitsPte.and_physMask (h : arch.FitsPte phys) : phys &&& arch.physMask = phys := by
  apply BitVec.eq_of_getLsbD_eq
  intro i hi
  rw [BitVec.getLsbD_and, arch.getLsbD_physMask ⟨i, hi⟩]
  by_cases hin : 12 ≤ i ∧ i < arch.physBits
  · simp [hin]
  · have hbit : phys.getLsbD i = false := by
      rw [BitVec.getLsbD]
      by_cases hlow : i < 12
      · have hmod : (phys.toNat % 2 ^ 12).testBit i = phys.toNat.testBit i := by
          rw [Nat.testBit_mod_two_pow]
          simp [hlow]
        rw [← hmod, show phys.toNat % 2 ^ 12 = 0 from h.aligned, Nat.zero_testBit]
      · refine Nat.testBit_lt_two_pow (h.lt.trans_le ?_)
        exact Nat.pow_le_pow_right (by omega) (by omega)
    simp [hbit]

/-- Whatever the entry, its address field is such an address. -/
theorem fitsPte_vmmPteGetPhys (arch : Arch) (pte : Word) : arch.FitsPte (arch.vmmPteGetPhys pte) := by
  have hmask : arch.physMask &&& 4095 = 0 := by cases arch <;> decide
  have hlt : arch.physMask.toNat < 2 ^ arch.physBits := by cases arch <;> decide
  rw [vmmPteGetPhys_eq]
  constructor
  · have hmod := Nat.and_two_pow_sub_one_eq_mod (pte &&& arch.physMask).toNat 12
    rw [show 2 ^ 12 - 1 = (4095 : Word).toNat from rfl, ← BitVec.toNat_and, BitVec.and_assoc,
      hmask] at hmod
    rw [← hmod, show pte &&& (0 : Word) = 0 from BitVec.and_zero]
    rfl
  · rw [BitVec.toNat_and]
    exact lt_of_le_of_lt Nat.and_le_right hlt

theorem FitsPte.getLsbD_eq_false (h : arch.FitsPte phys) {k : ℕ} (hk : k < 64)
    (hout : ¬ (12 ≤ k ∧ k < arch.physBits)) : phys.getLsbD k = false := by
  rw [← h.and_physMask, BitVec.getLsbD_and, arch.getLsbD_physMask ⟨k, hk⟩]
  simp [hout]

/-! ## The other fields -/

/-- What `arch_vmm_make_pte` adds to the address. -/
def flagBits : Arch → Word → Bool → Word
  | x86_64, flags, _ =>
    (if flags &&& vmmPresent ≠ 0 then bit 0 else 0) |||
    (if flags &&& vmmWritable ≠ 0 then bit 1 else 0) |||
    (if flags &&& vmmUser ≠ 0 then bit 2 else 0) |||
    (if flags &&& vmmCacheDisable ≠ 0 then bit 4 else 0) |||
    (if flags &&& vmmNoExecute ≠ 0 then bit 63 else 0)
  | aarch64, _, true => 0x3
  | aarch64, flags, false =>
    bit 1 |||
    (if flags &&& vmmPresent ≠ 0 then bit 0 else 0) |||
    bit 10 ||| 3#64 <<< 8 |||
    (if flags &&& vmmCacheDisable ≠ 0 then bit 2 else 0) |||
    (if flags &&& vmmUser ≠ 0 then bit 6 else 0) |||
    (if ¬ flags &&& vmmWritable ≠ 0 then bit 7 else 0) |||
    (if flags &&& vmmNoExecute ≠ 0 then bit 54 else 0) |||
    (if flags &&& vmmNoExecute ≠ 0 then bit 53 else 0)

theorem vmmMakePte_eq (h : arch.FitsPte phys) (isTable : Bool) :
    arch.vmmMakePte phys flags isTable = phys ||| arch.flagBits flags isTable := by
  have hmask := h.and_physMask
  cases arch with
  | x86_64 =>
    -- the encoder only masks the offset in the page
    have hphys : phys &&& ~~~0xFFF = phys := by
      rw [← hmask, BitVec.and_assoc]
      rfl
    simp only [vmmMakePte, hphys, orIf_eq, flagBits, BitVec.or_assoc]
  | aarch64 =>
    have hphys : phys &&& 0x0000FFFFFFFFF000 = phys := hmask
    cases isTable <;>
      simp only [vmmMakePte, hphys, orIf_eq, flagBits, BitVec.or_assoc, if_true,
        Bool.false_eq_true, if_false]

theorem flagBits_and_physMask (isTable : Bool) :
    arch.flagBits flags isTable &&& arch.physMask = 0 := by
  cases arch with
  | x86_64 =>
    simp (disch := decide) only [flagBits, physMask, or_and_distrib, ite_and_eq_zero]
    rfl
  | aarch64 =>
    cases isTable with
    | true => simp [flagBits, physMask]
    | false =>
      have h1 : bit 1 &&& physMask aarch64 = 0 := by decide
      have h10 : bit 10 &&& physMask aarch64 = 0 := by decide
      have h8 : 3#64 <<< 8 &&& physMask aarch64 = 0 := by decide
      simp (disch := decide) only [flagBits, h1, h10, h8, or_and_distrib, ite_and_eq_zero]
      rfl

/-- A bit outside the address field is a bit of `flagBits`. -/
theorem and_bit_vmmMakePte (h : arch.FitsPte phys) (flags : Word) (isTable : Bool) {k : ℕ}
    (hk : k < 64) (hout : ¬ (12 ≤ k ∧ k < arch.physBits)) :
    arch.vmmMakePte phys flags isTable &&& bit k ≠ 0 ↔
      (arch.flagBits flags isTable).getLsbD k = true := by
  rw [and_bit_ne_zero _ hk, vmmMakePte_eq h, BitVec.getLsbD_or, h.getLsbD_eq_false hk hout,
    Bool.false_or]

theorem getLsbD_flagBits_x86_64 (flags : Word) (isTable : Bool) {k : ℕ} (hk : k < 64) :
    (flagBits x86_64 flags isTable).getLsbD k =
      (decide (flags &&& vmmPresent ≠ 0 ∧ k = 0) || decide (flags &&& vmmWritable ≠ 0 ∧ k = 1) ||
        decide (flags &&& vmmUser ≠ 0 ∧ k = 2) || decide (flags &&& vmmCacheDisable ≠ 0 ∧ k = 4) ||
        decide (flags &&& vmmNoExecute ≠ 0 ∧ k = 63)) := by
  simp only [flagBits, BitVec.getLsbD_or, getLsbD_ite_bit _ hk, Bool.decide_and]

theorem getLsbD_flagBits_aarch64 (flags : Word) {k : ℕ} (hk : k < 64) :
    (flagBits aarch64 flags false).getLsbD k =
      (decide (k = 1) || decide (flags &&& vmmPresent ≠ 0 ∧ k = 0) || decide (k = 10) ||
        (decide (k = 8) || decide (k = 9)) || decide (flags &&& vmmCacheDisable ≠ 0 ∧ k = 2) ||
        decide (flags &&& vmmUser ≠ 0 ∧ k = 6) || decide (¬ flags &&& vmmWritable ≠ 0 ∧ k = 7) ||
        decide (flags &&& vmmNoExecute ≠ 0 ∧ k = 54) ||
        decide (flags &&& vmmNoExecute ≠ 0 ∧ k = 53)) := by
  have hshare : (3#64 <<< 8).getLsbD k = (decide (k = 8) || decide (k = 9)) := by
    revert k
    decide
  simp only [flagBits, BitVec.getLsbD_or, getLsbD_ite_bit _ hk, Bool.decide_and, getLsbD_bit hk,
    hshare]

/-! ## Decoding -/

/-- The address reads back. -/
theorem vmmPteGetPhys_vmmMakePte (h : arch.FitsPte phys) (isTable : Bool) :
    arch.vmmPteGetPhys (arch.vmmMakePte phys flags isTable) = phys := by
  rw [vmmPteGetPhys_eq, vmmMakePte_eq h, or_and_distrib, h.and_physMask, flagBits_and_physMask]
  exact BitVec.or_zero

/-- An entry made with `VMM_PRESENT` is present. -/
theorem vmmPteIsPresent_vmmMakePte (h : arch.FitsPte phys) (hflags : flags &&& vmmPresent ≠ 0)
    (isTable : Bool) : arch.vmmPteIsPresent (arch.vmmMakePte phys flags isTable) = true := by
  rw [vmmPteIsPresent_eq, decide_eq_true_eq,
    and_bit_vmmMakePte h flags isTable (by decide) (by cases arch <;> decide)]
  cases arch with
  | x86_64 =>
    rw [getLsbD_flagBits_x86_64 _ _ (by decide)]
    simpa using hflags
  | aarch64 =>
    cases isTable with
    | true => simp [flagBits]
    | false =>
      rw [getLsbD_flagBits_aarch64 _ (by decide)]
      simpa using hflags

/-- An entry of a page is present when it was made with `VMM_PRESENT`, and only then. -/
theorem vmmPteIsPresent_page_iff (h : arch.FitsPte phys) :
    arch.vmmPteIsPresent (arch.vmmMakePte phys flags false) = true ↔ flags &&& vmmPresent ≠ 0 := by
  rw [vmmPteIsPresent_eq, decide_eq_true_eq,
    and_bit_vmmMakePte h flags false (by decide) (by cases arch <;> decide)]
  cases arch with
  | x86_64 =>
    rw [getLsbD_flagBits_x86_64 _ _ (by decide)]
    simp
  | aarch64 =>
    rw [getLsbD_flagBits_aarch64 _ (by decide)]
    simp

/-- The flags of a page read back. -/
theorem vmmPteGetFlags_vmmMakePte (h : arch.FitsPte phys) :
    arch.vmmPteGetFlags (arch.vmmMakePte phys flags false) = flags &&& 31 := by
  rw [and_flags]
  cases arch with
  | x86_64 =>
    refine orIf_congr ?_ (orIf_congr ?_ (orIf_congr ?_ (orIf_congr ?_ (orIf_congr ?_ rfl))))
    all_goals
      rw [and_bit_vmmMakePte h flags false (by decide) (by decide),
        getLsbD_flagBits_x86_64 _ _ (by decide)]
      simp
  | aarch64 =>
    refine orIf_congr ?_ (orIf_congr ?_ (orIf_congr ?_ (orIf_congr ?_ (orIf_congr ?_ rfl))))
    all_goals
      rw [and_bit_vmmMakePte h flags false (by decide) (by decide),
        getLsbD_flagBits_aarch64 _ (by decide)]
      simp

@[simp]
theorem vmmPteIsPresent_zero : arch.vmmPteIsPresent 0 = false := by
  cases arch <;> rfl

end Arch

/-- A combination of the five flags has no other bits. -/
theorem and_flags_eq_self {flags : Word} (h : flags.toNat < 32) : flags &&& 31 = flags := by
  refine BitVec.eq_of_toNat_eq ?_
  rw [BitVec.toNat_and, show (31 : Word).toNat = 2 ^ 5 - 1 from rfl, Nat.and_two_pow_sub_one_eq_mod]
  exact Nat.mod_eq_of_lt h

/-- Entries decode to what was encoded, and to the same on both architectures. -/
theorem pte_decodes_to_what_was_encoded {flags : Word} (hflags : flags.toNat < 32) :
    (∀ (arch : Arch) (phys : Word), arch.FitsPte phys →
      let e := arch.vmmMakePte phys flags false
      arch.vmmPteGetPhys e = phys ∧ arch.vmmPteGetFlags e = flags ∧
        (arch.vmmPteIsPresent e = true ↔ flags &&& vmmPresent ≠ 0)) ∧
    (∀ (arch : Arch) (phys : Word), arch.FitsPte phys → flags &&& vmmPresent ≠ 0 →
      let e := arch.vmmMakePte phys flags true
      arch.vmmPteGetPhys e = phys ∧ arch.vmmPteIsPresent e = true) ∧
    ∀ (arch arch' : Arch) (phys : Word), arch.FitsPte phys → arch'.FitsPte phys →
      let e := arch.vmmMakePte phys flags false
      let e' := arch'.vmmMakePte phys flags false
      arch.vmmPteGetFlags e = arch'.vmmPteGetFlags e' ∧
        arch.vmmPteGetPhys e = arch'.vmmPteGetPhys e' ∧
        arch.vmmPteIsPresent e = arch'.vmmPteIsPresent e' := by
  refine ⟨fun arch phys h => ⟨?_, ?_, ?_⟩, fun arch phys h hpresent => ⟨?_, ?_⟩,
    fun arch arch' phys h h' => ⟨?_, ?_, ?_⟩⟩
  · exact Arch.vmmPteGetPhys_vmmMakePte h false
  · rw [Arch.vmmPteGetFlags_vmmMakePte h, and_flags_eq_self hflags]
  · exact Arch.vmmPteIsPresent_page_iff h
  · exact Arch.vmmPteGetPhys_vmmMakePte h true
  · exact Arch.vmmPteIsPresent_vmmMakePte h hpresent true
  · rw [Arch.vmmPteGetFlags_vmmMakePte h, Arch.vmmPteGetFlags_vmmMakePte h']
  · rw [Arch.vmmPteGetPhys_vmmMakePte h, Arch.vmmPteGetPhys_vmmMakePte h']
  · rw [Bool.eq_iff_iff, Arch.vmmPteIsPresent_page_iff h, Arch.vmmPteIsPresent_page_iff h']

/-- The address that the self test of the source tries, with all flags. -/
theorem pte_decodes_test_address :
    Arch.x86_64.FitsPte 0x12345000 ∧ Arch.aarch64.FitsPte 0x12345000 ∧
      Arch.x86_64.vmmPteGetFlags (Arch.x86_64.vmmMakePte 0x12345000 31 false) =
        Arch.aarch64.vmmPteGetFlags (Arch.aarch64.vmmMakePte 0x12345000 31 false) ∧
      Arch.aarch64.vmmPteGetFlags (Arch.aarch64.vmmMakePte 0x12345000 31 false) = 31 := by
  have hx : Arch.x86_64.FitsPte 0x12345000 := ⟨by decide, by decide⟩
  have ha : Arch.aarch64.FitsPte 0x12345000 := ⟨by decide, by decide⟩
  obtain ⟨hleaf, -, hsame⟩ := pte_decodes_to_what_was_encoded (show (31 : Word).toNat < 32 by decide)
  exact ⟨hx, ha, (hsame _ _ _ hx ha).1, (hleaf _ _ ha).2.1⟩

end Pros
