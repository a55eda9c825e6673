import Pros.Lib.CString
import Pros.Pmm.Model

/-!
# Strings

The string functions of `kernel/src/core/memory.c` that path lookup uses. A string that is only
read is the list of its bytes without the NUL; `strtokr` writes into its string, so it acts on a
char array and returns indices into it.
-/

namespace Pros

/-! ## `strncmp` -/

/-- `strncmp` on strings without their NULs. -/
def strncmp : List (BitVec 8) → List (BitVec 8) → ℕ → Int
  | _, _, 0 => 0
  | s1, s2, n + 1 =>
    if s1.headD 0 ≠ 0 ∧ s1.headD 0 = s2.headD 0 then strncmp s1.tail s2.tail n
    else (s1.headD 0).toNat - (s2.headD 0).toNat

theorem strncmp_eq_zero_iff {s1 s2 : List (BitVec 8)} (h1 : 0 ∉ s1) (h2 : 0 ∉ s2) (n : ℕ) :
    strncmp s1 s2 n = 0 ↔ s1.take n = s2.take n := by
  induction n generalizing s1 s2 with
  | zero => simp [strncmp]
  | succ n ih =>
    rw [strncmp]
    match s1, s2 with
    | [], [] => simp
    | [], c :: s2 =>
      have hc : c ≠ 0 := fun h => h2 (by simp [h])
      have : c.toNat ≠ 0 := fun h => hc (BitVec.eq_of_toNat_eq (by simpa using h))
      simp only [List.headD_nil, List.headD_cons]
      simp [this]
    | c :: s1, [] =>
      have hc : c ≠ 0 := fun h => h1 (by simp [h])
      have : c.toNat ≠ 0 := fun h => hc (BitVec.eq_of_toNat_eq (by simpa using h))
      simp only [List.headD_nil, List.headD_cons]
      simp [this]
    | c :: s1, d :: s2 =>
      have hc : c ≠ 0 := fun h => h1 (by simp [h])
      change (if c ≠ 0 ∧ c = d then strncmp s1 s2 n else (c.toNat : Int) - d.toNat) = 0 ↔
        c :: s1.take n = d :: s2.take n
      by_cases hcd : c = d
      · rw [if_pos ⟨hc, hcd⟩, ih (h1 ∘ List.mem_cons_of_mem _) (h2 ∘ List.mem_cons_of_mem _)]
        simp [hcd]
      · rw [if_neg fun h => hcd h.2]
        have : c.toNat ≠ d.toNat := fun h => hcd (BitVec.eq_of_toNat_eq h)
        simp only [List.cons.injEq, hcd, false_and, iff_false]
        omega

/-! ## `snprintf` -/

/-- `snprintf(buf, n, "%s", s)`: the string it leaves in `buf`, cut to fit. -/
def snprintfString (n : ℕ) (s : List (BitVec 8)) : List (BitVec 8) :=
  (s.takeWhile (· != 0)).take (n - 1)

theorem snprintfString_length_lt {n : ℕ} (hn : 0 < n) (s : List (BitVec 8)) :
    (snprintfString n s).length < n := by
  rw [snprintfString, List.length_take]
  omega

theorem zero_notMem_snprintfString (n : ℕ) (s : List (BitVec 8)) : 0 ∉ snprintfString n s := by
  intro h
  simpa using List.mem_takeWhile_imp (List.mem_of_mem_take h)

/-- A string that fits is copied whole. -/
theorem snprintfString_eq {n : ℕ} {s : List (BitVec 8)} (hs : 0 ∉ s) (hn : s.length < n) :
    snprintfString n s = s := by
  have hwhole : s.takeWhile (· != 0) = s :=
    List.takeWhile_eq_self_iff.mpr fun c hc => by
      have hne : c ≠ 0 := fun h => hs (h ▸ hc)
      simpa using hne
  rw [snprintfString, hwhole]
  exact List.take_of_length_le (by omega)

/-! ## `strtokr` -/

/-- `is_delim`: whether the byte is one of the delimiters. -/
def isDelim (c : BitVec 8) (delim : List (BitVec 8)) : Bool := delim.contains c

/-- The loop of `strtokr` over leading delimiters. -/
def skipDelims (delim : List (BitVec 8)) (buf : ℕ → BitVec 8) : ℕ → ℕ → Option ℕ
  | 0, _ => none
  | fuel + 1, next =>
    if buf next ≠ 0 ∧ isDelim (buf next) delim then skipDelims delim buf fuel (next + 1)
    else some next

/-- The loop of `strtokr` to the end of the token: the array and the place saved for the next
call. -/
def scanToken (delim : List (BitVec 8)) (buf : ℕ → BitVec 8) :
    ℕ → ℕ → Option ((ℕ → BitVec 8) × ℕ)
  | 0, _ => none
  | fuel + 1, next =>
    if buf next = 0 then some (buf, next)
    else if isDelim (buf next) delim then some (Function.update buf next 0, next + 1)
    else scanToken delim buf fuel (next + 1)

/-- What `strtokr` leaves: the array, `*saveptr` and the token, both `none` for null. -/
structure Strtokr where
  buf : ℕ → BitVec 8
  saveptr : Option ℕ
  token : Option ℕ

/-- `strtokr` in the array `buf`. -/
def strtokr (buf : ℕ → BitVec 8) (str : Option ℕ) (delim : List (BitVec 8))
    (saveptr : Option ℕ) : Option Strtokr :=
  -- a null string picks up where the last call left off
  match str.or saveptr with
  | none => some ⟨buf, none, none⟩
  | some next =>
    if buf next = 0 then some ⟨buf, none, none⟩
    else do
      let next ← skipDelims delim buf walkBound next
      if buf next = 0 then some ⟨buf, some next, none⟩
      else
        let (buf, save) ← scanToken delim buf walkBound next
        some ⟨buf, some save, some next⟩

section Spec

variable {delim : List (BitVec 8)} {buf : ℕ → BitVec 8} {i : ℕ} {fuel : ℕ}
  {s t tok : List (BitVec 8)}

theorem skipDelims_append (h : CStr buf i (s ++ t)) (hs : ∀ c ∈ s, isDelim c delim = true)
    (ht : ∀ c ∈ t.head?, isDelim c delim = false) (hfuel : s.length < fuel) :
    skipDelims delim buf fuel i = some (i + s.length) := by
  induction s generalizing i fuel with
  | nil =>
    obtain _ | fuel := fuel
    · simp at hfuel
    rw [skipDelims, if_neg]
    · simp
    · match t with
      | [] => exact fun hc => hc.1 h
      | c :: t => rintro ⟨-, hc⟩; simp_all [CStr]
  | cons c s ih =>
    obtain _ | fuel := fuel
    · simp at hfuel
    obtain ⟨hc, hne, htail⟩ := h
    rw [skipDelims, hc, if_pos ⟨hne, hs c (by simp)⟩,
      ih htail (fun d hd => hs d (by simp [hd])) (by simpa using hfuel)]
    simp; omega

theorem scanToken_last (h : CStr buf i tok) (htok : ∀ c ∈ tok, isDelim c delim = false)
    (hfuel : tok.length < fuel) : scanToken delim buf fuel i = some (buf, i + tok.length) := by
  induction tok generalizing i fuel with
  | nil =>
    obtain _ | fuel := fuel
    · simp at hfuel
    exact if_pos h
  | cons c tok ih =>
    obtain _ | fuel := fuel
    · simp at hfuel
    obtain ⟨hc, hne, htail⟩ := h
    rw [scanToken, hc, if_neg hne, htok c (by simp), if_neg (by simp),
      ih htail (fun d hd => htok d (by simp [hd])) (by simpa using hfuel)]
    simp; omega

theorem scanToken_more {c : BitVec 8} (h : CStr buf i (tok ++ c :: t))
    (htok : ∀ c ∈ tok, isDelim c delim = false) (hc : isDelim c delim = true)
    (hfuel : tok.length < fuel) :
    scanToken delim buf fuel i =
      some (Function.update buf (i + tok.length) 0, i + tok.length + 1) := by
  induction tok generalizing i fuel with
  | nil =>
    obtain _ | fuel := fuel
    · simp at hfuel
    obtain ⟨hbuf, hne, -⟩ := h
    rw [scanToken, hbuf, if_neg hne, hc, if_pos rfl]
    simp
  | cons d tok ih =>
    obtain _ | fuel := fuel
    · simp at hfuel
    obtain ⟨hd, hne, htail⟩ := h
    rw [scanToken, hd, if_neg hne, htok d (by simp), if_neg (by simp),
      ih htail (fun e he => htok e (by simp [he])) (by simpa using hfuel)]
    simp only [List.length_cons]
    rw [show i + 1 + tok.length = i + (tok.length + 1) by omega]

/-- A call on a string of delimiters. -/
theorem strtokr_blank {str saveptr : Option ℕ} (hstr : str.or saveptr = some i) (h : CStr buf i s)
    (hs : ∀ c ∈ s, isDelim c delim = true) (hlen : s.length < walkBound) :
    strtokr buf str delim saveptr =
      some ⟨buf, if s = [] then none else some (i + s.length), none⟩ := by
  rw [strtokr, hstr]
  simp only
  by_cases hnil : s = []
  · subst hnil
    exact if_pos h
  · have hskip := skipDelims_append (t := []) (by simpa using h) hs (by simp) hlen
    rw [if_neg (h.ne_zero hnil), hskip, if_neg hnil]
    exact if_pos h.eq_zero

/-- A call on a string whose first token ends with it. -/
theorem strtokr_last {str saveptr : Option ℕ} {pre : List (BitVec 8)}
    (hstr : str.or saveptr = some i) (h : CStr buf i (pre ++ tok))
    (hpre : ∀ c ∈ pre, isDelim c delim = true) (htok : ∀ c ∈ tok, isDelim c delim = false)
    (hne : tok ≠ []) (hlen : (pre ++ tok).length < walkBound) :
    strtokr buf str delim saveptr =
      some ⟨buf, some (i + pre.length + tok.length), some (i + pre.length)⟩ := by
  have htok_at : CStr buf (i + pre.length) tok := h.drop_append
  rw [List.length_append] at hlen
  have hskip := skipDelims_append h hpre
    (fun c hc => htok c (List.mem_of_mem_head? hc)) (show pre.length < walkBound by omega)
  have hscan := scanToken_last htok_at htok (show tok.length < walkBound by omega)
  rw [strtokr, hstr]
  simp only
  rw [if_neg (h.ne_zero (by simp [hne])), hskip]
  simp only [Option.bind_eq_bind, Option.bind_some]
  rw [if_neg (htok_at.ne_zero hne), hscan]
  rfl

/-- A call on a string whose first token ends at a delimiter. -/
theorem strtokr_more {str saveptr : Option ℕ} {pre rest : List (BitVec 8)} {c : BitVec 8}
    (hstr : str.or saveptr = some i) (h : CStr buf i (pre ++ (tok ++ c :: rest)))
    (hpre : ∀ c ∈ pre, isDelim c delim = true) (htok : ∀ c ∈ tok, isDelim c delim = false)
    (hne : tok ≠ []) (hc : isDelim c delim = true)
    (hlen : (pre ++ (tok ++ c :: rest)).length < walkBound) :
    strtokr buf str delim saveptr =
      some ⟨Function.update buf (i + pre.length + tok.length) 0,
        some (i + pre.length + tok.length + 1), some (i + pre.length)⟩ := by
  have htok_at : CStr buf (i + pre.length) (tok ++ c :: rest) := h.drop_append
  simp only [List.length_append] at hlen
  have hskip := skipDelims_append h hpre
    (fun d hd => htok d (by
      match tok, hne with
      | _ :: _, _ => simp_all)) (show pre.length < walkBound by omega)
  have hscan := scanToken_more htok_at htok hc (show tok.length < walkBound by omega)
  rw [strtokr, hstr]
  simp only
  rw [if_neg (h.ne_zero (by simp [hne])), hskip]
  simp only [Option.bind_eq_bind, Option.bind_some]
  rw [if_neg (htok_at.ne_zero (by simp)), hscan]
  rfl

/-- What a call of `strtokr` on the string `s` at `i` leaves when it finds a token: the token `tok`
at `k` with its NUL, and the string `rest` behind it at `j`, where the next call starts. -/
structure NextToken (delim : List (BitVec 8)) (buf : ℕ → BitVec 8) (i : ℕ) (s : List (BitVec 8))
    (buf' : ℕ → BitVec 8) (k j : ℕ) (tok rest : List (BitVec 8)) : Prop where
  tokens_eq : tokens (isDelim · delim) s = tok :: tokens (isDelim · delim) rest
  tok_at : CStr buf' k tok
  rest_at : CStr buf' j rest
  le : i ≤ k
  apart : k + tok.length < j ∨ rest = []
  tok_length_le : tok.length ≤ s.length
  length_lt : rest.length < s.length
  frame : ∀ x < i, buf' x = buf x

/-- One call of `strtokr`: no token is left and the array is as it was, or the first token is cut
off. -/
theorem strtokr_spec (delim : List (BitVec 8)) {str saveptr : Option ℕ} (hstr : str.or saveptr = some i)
    (h : CStr buf i s) (hlen : s.length < walkBound) :
    (tokens (isDelim · delim) s = [] ∧
        ∃ save, strtokr buf str delim saveptr = some ⟨buf, save, none⟩) ∨
      ∃ buf' k j tok rest, strtokr buf str delim saveptr = some ⟨buf', some j, some k⟩ ∧
        NextToken delim buf i s buf' k j tok rest := by
  cases tokenized (p := (isDelim · delim)) s with
  | none _ hpre => exact .inl ⟨tokens_eq_nil hpre, _, strtokr_blank hstr h hpre hlen⟩
  | last pre tok hpre htok hne =>
    have htok_at : CStr buf (i + pre.length) tok := h.drop_append
    refine .inr ⟨_, _, _, tok, [], strtokr_last hstr h hpre htok hne hlen, ?_⟩
    exact {
      tokens_eq := by
        rw [tokens_append_of_forall hpre, tokens_eq_singleton htok hne, tokens_nil]
      tok_at := htok_at
      rest_at := htok_at.eq_zero
      le := by omega
      apart := .inr rfl
      tok_length_le := by simp
      length_lt := by simp [List.length_pos_of_ne_nil hne]
      frame := fun _ _ => rfl }
  | more pre tok c rest hpre htok hne hc =>
    have htok_at : CStr buf (i + pre.length) (tok ++ c :: rest) := h.drop_append
    have hrest_at : CStr buf (i + pre.length + tok.length + 1) rest := htok_at.drop_append.2.2
    refine .inr ⟨_, _, _, tok, rest, strtokr_more hstr h hpre htok hne hc hlen, ?_⟩
    exact {
      tokens_eq := by rw [tokens_append_of_forall hpre, tokens_append_cons htok hne hc]
      tok_at := htok_at.cut
      rest_at := hrest_at.update_of_gt (by omega) 0
      le := by omega
      apart := .inl (by omega)
      tok_length_le := by simp; omega
      length_lt := by simp; omega
      frame := fun x hx => Function.update_of_ne (by omega) _ _ }

/-- Between two calls of `strtokr` these tokens are still to be handed out, the first of them by
the last call. -/
inductive Pending (delim : List (BitVec 8)) (r : Strtokr) : List (List (BitVec 8)) → Prop
  | done (htoken : r.token = none) : Pending delim r []
  | more {k j : ℕ} {tok rest : List (BitVec 8)} (htoken : r.token = some k)
      (hsave : r.saveptr = some j) (htok : CStr r.buf k tok) (hrest : CStr r.buf j rest)
      (hapart : k + tok.length < j ∨ rest = []) (hlen : rest.length < walkBound)
      (htlen : tok.length < walkBound) :
      Pending delim r (tok :: tokens (isDelim · delim) rest)

theorem Pending.isNone {r : Strtokr} {toks : List (List (BitVec 8))} (h : Pending delim r toks) :
    r.token.isNone = toks.isEmpty := by
  cases h with
  | done htoken => simp [htoken]
  | more htoken => simp [htoken]

/-- The first call hands out the tokens of the string. -/
theorem strtokr_pending (delim : List (BitVec 8)) (h : CStr buf i s) (hlen : s.length < walkBound) (saveptr : Option ℕ) :
    ∃ r, strtokr buf (some i) delim saveptr = some r ∧
      Pending delim r (tokens (isDelim · delim) s) := by
  rcases strtokr_spec delim (Option.some_or (o := saveptr)) h hlen with
    ⟨hnil, save, hcall⟩ | ⟨buf', k, j, tok, rest, hcall, hnext⟩
  · exact ⟨_, hcall, hnil ▸ .done rfl⟩
  · have hlt := hnext.length_lt
    have hle := hnext.tok_length_le
    exact ⟨_, hcall, hnext.tokens_eq ▸
      .more rfl rfl hnext.tok_at hnext.rest_at hnext.apart (by omega) (by omega)⟩

/-- A call for the next token leaves the token before it in place. -/
theorem Pending.next {r : Strtokr} {toks : List (List (BitVec 8))}
    (h : Pending delim r (tok :: toks)) : ∃ k r', r.token = some k ∧
      strtokr r.buf none delim r.saveptr = some r' ∧ readCStr r'.buf walkBound k = tok ∧
        Pending delim r' toks := by
  cases h with
  | @more k j _ rest htoken hsave htok hrest hapart hlen htlen =>
    have hstr : none.or r.saveptr = some j := by simpa using hsave
    rcases strtokr_spec delim hstr hrest hlen with ⟨hnil, save, hcall⟩ | ⟨buf', k', j', tok', rest', hcall, hnext⟩
    · exact ⟨k, _, htoken, hcall, readCStr_eq htok htlen, hnil ▸ .done rfl⟩
    · have hlt := hnext.length_lt
      have hle := hnext.tok_length_le
      have hbefore : k + tok.length < j := by
        rcases hapart with hlt | rfl
        · exact hlt
        · simp at hlt
      refine ⟨k, _, htoken, hcall, ?_, hnext.tokens_eq ▸
        .more rfl rfl hnext.tok_at hnext.rest_at hnext.apart (by omega) (by omega)⟩
      exact readCStr_eq (htok.congr fun x _ hx => hnext.frame x (by omega)) htlen

end Spec

end Pros
