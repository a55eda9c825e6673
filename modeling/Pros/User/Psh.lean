import Pros.Core.Tokenizer

/-!
# The command line of the shell

Model of the part of `user/src/psh/psh.c` that splits a line into arguments, with the copy of
`strtokr` in `user/include/string.h`. The array `argv` is a list; `psh` does not check that an
argument fits.

`none` as a result is a loop that does not end.
-/

namespace Pros

namespace User

/-! ## The copy of `strtokr` -/

/-- `is_delim`: the loop over the delimiters. -/
def isDelim (c : BitVec 8) : List (BitVec 8) → Bool
  | [] => false
  | d :: delim => if c = d then true else isDelim c delim

/-- The loop over leading delimiters. -/
def skipDelims (delim : List (BitVec 8)) (buf : ℕ → BitVec 8) : ℕ → ℕ → Option ℕ
  | 0, _ => none
  | fuel + 1, next =>
    if buf next ≠ 0 ∧ isDelim (buf next) delim then skipDelims delim buf fuel (next + 1)
    else some next

/-- The loop to the end of the token: the array and the place saved for the next call. -/
def scanToken (delim : List (BitVec 8)) (buf : ℕ → BitVec 8) :
    ℕ → ℕ → Option ((ℕ → BitVec 8) × ℕ)
  | 0, _ => none
  | fuel + 1, next =>
    if buf next ≠ 0 then
      if isDelim (buf next) delim then some (Function.update buf next 0, next + 1)
      else scanToken delim buf fuel (next + 1)
    else some (buf, next)

/-- `strtokr`. -/
def strtokr (buf : ℕ → BitVec 8) (str : Option ℕ) (delim : List (BitVec 8))
    (saveptr : Option ℕ) : Option Strtokr :=
  match (if str ≠ none then str else saveptr) with
  | none => some ⟨buf, none, none⟩
  | some next =>
    if buf next = 0 then some ⟨buf, none, none⟩
    else do
      let next ← skipDelims delim buf walkBound next
      if buf next = 0 then return ⟨buf, some next, none⟩
      let (buf, save) ← scanToken delim buf walkBound next
      return ⟨buf, some save, some next⟩

theorem isDelim_eq (c : BitVec 8) (delim : List (BitVec 8)) :
    isDelim c delim = Pros.isDelim c delim := by
  induction delim with
  | nil => rfl
  | cons d delim ih =>
    rw [isDelim, ih, Pros.isDelim, Pros.isDelim, List.contains_cons]
    by_cases hcd : c = d
    · simp [hcd]
    · simp [hcd]

theorem skipDelims_eq (delim : List (BitVec 8)) (buf : ℕ → BitVec 8) (fuel next : ℕ) :
    skipDelims delim buf fuel next = Pros.skipDelims delim buf fuel next := by
  induction fuel generalizing next with
  | zero => rfl
  | succ fuel ih => rw [skipDelims, Pros.skipDelims, isDelim_eq, ih]

theorem scanToken_eq (delim : List (BitVec 8)) (buf : ℕ → BitVec 8) (fuel next : ℕ) :
    scanToken delim buf fuel next = Pros.scanToken delim buf fuel next := by
  induction fuel generalizing next with
  | zero => rfl
  | succ fuel ih =>
    rw [scanToken, Pros.scanToken, isDelim_eq, ih]
    by_cases hzero : buf next = 0
    · rw [if_neg (not_not.mpr hzero), if_pos hzero]
    · rw [if_pos hzero, if_neg hzero]

/-- The copy of the user space agrees with that of the kernel. -/
theorem strtokr_eq (buf : ℕ → BitVec 8) (str : Option ℕ) (delim : List (BitVec 8))
    (saveptr : Option ℕ) : strtokr buf str delim saveptr = Pros.strtokr buf str delim saveptr := by
  have hnext : (if str ≠ none then str else saveptr) = str.or saveptr := by
    cases str with
    | none => rfl
    | some i => rfl
  simp only [strtokr, Pros.strtokr, hnext, skipDelims_eq, scanToken_eq]
  rfl

end User

/-! ## Arguments -/

/-- `PSH_BUF_MAX`. -/
abbrev pshBufMax : ℕ := 512

/-- `PSH_ARGV_MAX`. -/
abbrev pshArgvMax : ℕ := pshBufMax / 2 + 1

/-- `" "`. -/
def pshDelim : List (BitVec 8) := [0x20]

/-- The loop of `psh` over the tokens, with the result of the last call. -/
def pshArgvLoop : ℕ → Strtokr → List ℕ → Option (List ℕ × (ℕ → BitVec 8))
  | 0, _, _ => none
  | fuel + 1, r, argv =>
    match r.token with
    | none => some (argv, r.buf)
    | some token => do
      let r ← User.strtokr r.buf none pshDelim r.saveptr
      pshArgvLoop fuel r (argv ++ [token])

/-- The arguments of a line of `n` bytes that `sys_read` left in `buf`: their indices, and the
buffer. -/
def pshArgv (buf : ℕ → BitVec 8) (n : ℕ) : Option (List ℕ × (ℕ → BitVec 8)) := do
  -- strip the newline
  let buf := Function.update buf (n - 1) 0
  let r ← User.strtokr buf (some 0) pshDelim none
  pshArgvLoop (pshBufMax + 1) r []

/-- The loop ends with all tokens of the string. -/
theorem pshArgvLoop_spec {orig : ℕ → BitVec 8} {i : ℕ} {s : List (BitVec 8)}
    (hlen : s.length < walkBound) (fuel : ℕ) {r : Strtokr} {out : List (ℕ × List (BitVec 8))}
    (h : TokenCall pshDelim orig i s r out)
    (hfuel : (tokens (isDelim · pshDelim) s).length < fuel + out.length) :
    ∃ out' buf saveptr, pshArgvLoop fuel r (out.map Prod.fst) = some (out'.map Prod.fst, buf) ∧
      Handed pshDelim orig i s buf saveptr out' [] := by
  induction fuel generalizing r out with
  | zero =>
    -- more was handed out than there is
    have hle : out.length ≤ (tokens (isDelim · pshDelim) s).length := by
      cases h with
      | done _ h => simp [h.tokens_eq]
      | token k tok rest _ h =>
        simp only [h.tokens_eq, List.map_append, List.length_append, List.length_map]
        omega
    omega
  | succ fuel ih =>
    cases h with
    | done htoken h => exact ⟨out, r.buf, r.saveptr, by simp only [pshArgvLoop, htoken], h⟩
    | token k tok rest htoken h =>
      obtain ⟨c, hc, hcall⟩ := h.next hlen
      obtain ⟨out', buf, saveptr, hloop, hall⟩ := ih hcall (by simp; omega)
      refine ⟨out', buf, saveptr, ?_, hall⟩
      simp only [pshArgvLoop, htoken, User.strtokr_eq, hc, Option.bind_eq_bind, Option.bind_some]
      rw [← hloop, List.map_append]
      rfl

/-- The arguments are the tokens of the line, each with its NUL, and there is room for them. -/
theorem pshArgv_spec (buf : ℕ → BitVec 8) {n : ℕ} (hpos : 0 < n) (hn : n ≤ pshBufMax) :
    ∃ s argv buf', CStr (Function.update buf (n - 1) 0) 0 s ∧ s.length < n ∧
      pshArgv buf n = some (argv, buf') ∧
      List.Forall₂ (CStr buf') argv (tokens (isDelim · pshDelim) s) ∧
      argv.length < pshArgvMax := by
  obtain ⟨s, hs, hle⟩ : ∃ s, CStr (Function.update buf (n - 1) 0) 0 s ∧ s.length ≤ n - 1 :=
    CStr.exists_of_eq_zero (by rw [Nat.zero_add, Function.update_self])
  have hmax : pshBufMax = 512 := rfl
  have hlen : s.length < walkBound := by
    have : walkBound = 2 ^ 64 := rfl
    omega
  have hcount := two_mul_length_tokens_le (p := (isDelim · pshDelim)) s
  obtain ⟨c, hc, hcall⟩ := Handed.first pshDelim hs hlen none
  obtain ⟨out, buf', saveptr, hloop, hall⟩ := pshArgvLoop_spec hlen (pshBufMax + 1) hcall
    (by rw [List.length_nil]; omega)
  have htokens : tokens (isDelim · pshDelim) s = out.map Prod.snd := by
    rw [hall.tokens_eq, tokens_nil, List.append_nil]
  refine ⟨s, out.map Prod.fst, buf', hs, by omega, ?_, ?_, ?_⟩
  · rw [pshArgv, User.strtokr_eq, hc]
    exact hloop
  · rw [htokens, List.forall₂_map_left_iff, List.forall₂_map_right_iff, List.forall₂_same]
    exact fun o ho => (hall.stands o ho).1
  · rw [htokens, List.length_map] at hcount
    rw [List.length_map, show pshArgvMax = 257 from rfl]
    omega

/-! ## Result -/

/-- Splitting a string by `strtokr`: a first call and `n` more return the tokens of the string in
order and then null, each token in its place with a NUL behind it; nothing outside of the string and
its terminator is read or written, and only delimiters are overwritten. The copy of the user space
agrees, and a line that `psh` reads has fewer tokens than `argv` has room for. -/
theorem strtokr_splits_exactly (delim : List (BitVec 8)) {buf : ℕ → BitVec 8} {i : ℕ}
    {s : List (BitVec 8)} (h : CStr buf i s) (hlen : s.length < walkBound) (saveptr : Option ℕ) :
    (∀ n, ∃ r ks, strtokrRun delim buf i saveptr (n + 1) = some r ∧
      List.Forall₂ (fun k tok => CStr r.buf k tok ∧ i ≤ k ∧
        tok = (s.drop (k - i)).take tok.length) ks ((tokens (isDelim · delim) s).take (n + 1)) ∧
      r.results = ks.map some ++
        List.replicate (n + 1 - (tokens (isDelim · delim) s).length) none ∧
      (∀ x ∈ r.touched, i ≤ x ∧ x ≤ i + s.length) ∧
      ∀ x, r.buf x = buf x ∨
        (i ≤ x ∧ x < i + s.length ∧ isDelim (buf x) delim = true ∧ r.buf x = 0)) ∧
    (∀ buf str delim saveptr, User.strtokr buf str delim saveptr = strtokr buf str delim saveptr) ∧
    ∀ (line : ℕ → BitVec 8) (n : ℕ), 0 < n → n ≤ pshBufMax →
      ∃ s argv line', CStr (Function.update line (n - 1) 0) 0 s ∧ s.length < n ∧
        pshArgv line n = some (argv, line') ∧
        List.Forall₂ (CStr line') argv (tokens (isDelim · pshDelim) s) ∧
        argv.length < pshArgvMax :=
  ⟨fun n => strtokrRun_spec delim h hlen saveptr n, User.strtokr_eq,
    fun line _ hpos hn => pshArgv_spec line hpos hn⟩

/-- The string `" a b "`. -/
def spacedString : List (BitVec 8) := [0x20, 0x61, 0x20, 0x20, 0x62, 0x20]

/-- Four calls on a string with leading, doubled and trailing delimiters. -/
theorem strtokr_splits_spacedString :
    CStr (fun x => spacedString.getD x 0) 0 spacedString ∧
      ∃ r, strtokrRun pshDelim (fun x => spacedString.getD x 0) 0 none 4 = some r ∧
        r.results = [some 1, some 4, none, none] := by
  have hstr : CStr (fun x => spacedString.getD x 0) 0 spacedString :=
    CStr.of_getD (by decide) fun x _ => by rw [Nat.zero_add]
  obtain ⟨r, ks, hr, -⟩ := (strtokr_splits_exactly pshDelim hstr (by decide) none).1 3
  refine ⟨hstr, r, hr, ?_⟩
  have hresults : (strtokrRun pshDelim (fun x => spacedString.getD x 0) 0 none 4).map
      StrtokrRun.results = some [some 1, some 4, none, none] := by
    decide +kernel
  rw [hr] at hresults
  exact Option.some.inj hresults

end Pros
