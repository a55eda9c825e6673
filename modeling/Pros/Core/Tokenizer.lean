import Pros.Core.Strings

/-!
# Splitting a string by repeated calls

A first call of `strtokr` on a string and further calls with a null string. Between two calls the
saved pointer is null, at the terminator of the string, or behind a delimiter that was overwritten;
`Handed` says in one statement what has been handed out and what is left in each of the three.
-/

namespace Pros

/-! ## Reads and writes -/

/-- The indices that the loop of `strtokr` over leading delimiters reads. -/
def skipTouched (delim : List (BitVec 8)) (buf : ℕ → BitVec 8) : ℕ → ℕ → List ℕ
  | 0, _ => []
  | fuel + 1, next =>
    next :: if buf next ≠ 0 ∧ isDelim (buf next) delim then skipTouched delim buf fuel (next + 1)
      else []

/-- The indices that the loop of `strtokr` to the end of a token reads. The delimiter that it
overwrites is the last of them. -/
def scanTouched (delim : List (BitVec 8)) (buf : ℕ → BitVec 8) : ℕ → ℕ → List ℕ
  | 0, _ => []
  | fuel + 1, next =>
    next :: if buf next = 0 ∨ isDelim (buf next) delim then []
      else scanTouched delim buf fuel (next + 1)

/-- The indices of the array that a call of `strtokr` reads or writes. -/
def strtokrTouched (buf : ℕ → BitVec 8) (str : Option ℕ) (delim : List (BitVec 8))
    (saveptr : Option ℕ) : List ℕ :=
  match str.or saveptr with
  | none => []
  | some next =>
    next :: if buf next = 0 then []
      else skipTouched delim buf walkBound next ++
        match skipDelims delim buf walkBound next with
        | none => []
        | some next => next :: if buf next = 0 then [] else scanTouched delim buf walkBound next

section Touched

variable {delim : List (BitVec 8)} {buf : ℕ → BitVec 8} {i x : ℕ} {s : List (BitVec 8)}

theorem skipTouched_mem (h : CStr buf i s) (fuel : ℕ) (hx : x ∈ skipTouched delim buf fuel i) :
    i ≤ x ∧ x ≤ i + s.length := by
  induction fuel generalizing i s with
  | zero => simp [skipTouched] at hx
  | succ fuel ih =>
    rcases List.mem_cons.mp hx with rfl | hx
    · omega
    · match s, h with
      | [], h =>
        rw [if_neg fun hc => hc.1 h] at hx
        simp at hx
      | c :: s, h =>
        split at hx
        · have := ih h.2.2 hx
          rw [List.length_cons]
          omega
        · simp at hx

theorem scanTouched_mem (h : CStr buf i s) (fuel : ℕ) (hx : x ∈ scanTouched delim buf fuel i) :
    i ≤ x ∧ x ≤ i + s.length := by
  induction fuel generalizing i s with
  | zero => simp [scanTouched] at hx
  | succ fuel ih =>
    rcases List.mem_cons.mp hx with rfl | hx
    · omega
    · match s, h with
      | [], h =>
        rw [if_pos (Or.inl (show buf i = 0 from h))] at hx
        simp at hx
      | c :: s, h =>
        split at hx
        · simp at hx
        · have := ih h.2.2 hx
          rw [List.length_cons]
          omega

/-- The loop over leading delimiters stops at a tail of the string. -/
theorem skipDelims_tail {fuel k : ℕ} (h : CStr buf i s) (hk : skipDelims delim buf fuel i = some k) :
    ∃ pre rest, s = pre ++ rest ∧ k = i + pre.length ∧ CStr buf k rest := by
  induction fuel generalizing i s with
  | zero => simp [skipDelims] at hk
  | succ fuel ih =>
    rw [skipDelims] at hk
    split at hk
    · rename_i hmore
      cases s with
      | nil => exact absurd h hmore.1
      | cons c s =>
        obtain ⟨pre, rest, rfl, rfl, hrest⟩ := ih h.2.2 hk
        refine ⟨c :: pre, rest, rfl, ?_, hrest⟩
        rw [List.length_cons]
        omega
    · cases hk
      exact ⟨[], s, rfl, by simp, h⟩

/-- A call stays within the string and its terminator. -/
theorem strtokrTouched_mem {str saveptr : Option ℕ} (hstr : str.or saveptr = some i)
    (h : CStr buf i s) (hx : x ∈ strtokrTouched buf str delim saveptr) :
    i ≤ x ∧ x ≤ i + s.length := by
  rw [strtokrTouched, hstr] at hx
  rcases List.mem_cons.mp hx with rfl | hx
  · omega
  split at hx
  · simp at hx
  rcases List.mem_append.mp hx with hx | hx
  · exact skipTouched_mem h _ hx
  split at hx
  · simp at hx
  · rename_i k hk
    obtain ⟨pre, rest, rfl, rfl, hrest⟩ := skipDelims_tail h hk
    rw [List.length_append]
    rcases List.mem_cons.mp hx with rfl | hx
    · omega
    · split at hx
      · simp at hx
      · have := scanTouched_mem hrest _ hx
        omega

end Touched

/-! ## Calls -/

/-- What a number of calls leaves: the array, `*saveptr`, the results in order and all indices that
were read or written. -/
structure StrtokrRun where
  buf : ℕ → BitVec 8
  saveptr : Option ℕ
  results : List (Option ℕ)
  touched : List ℕ

/-- A call of `strtokr` on the string at `i`, and further calls with a null string. -/
def strtokrRun (delim : List (BitVec 8)) (buf : ℕ → BitVec 8) (i : ℕ) (saveptr : Option ℕ) :
    ℕ → Option StrtokrRun
  | 0 => some ⟨buf, saveptr, [], []⟩
  | n + 1 => do
    let r ← strtokrRun delim buf i saveptr n
    let str := if n = 0 then some i else none
    let c ← strtokr r.buf str delim r.saveptr
    return ⟨c.buf, c.saveptr, r.results ++ [c.token],
      r.touched ++ strtokrTouched r.buf str delim r.saveptr⟩

/-- The state between two calls on the string `s` that stood in `orig` at `i`: the tokens `out` were
handed out and stand in the array, each with its index, and the string `rest` is left. -/
structure Handed (delim : List (BitVec 8)) (orig : ℕ → BitVec 8) (i : ℕ) (s : List (BitVec 8))
    (buf : ℕ → BitVec 8) (saveptr : Option ℕ) (out : List (ℕ × List (BitVec 8)))
    (rest : List (BitVec 8)) : Prop where
  /-- Where the next call starts, if anywhere. -/
  place : (saveptr = none ∧ rest = []) ∨
    ∃ pre, s = pre ++ rest ∧ saveptr = some (i + pre.length) ∧ CStr buf (i + pre.length) rest
  tokens_eq : tokens (isDelim · delim) s = out.map Prod.snd ++ tokens (isDelim · delim) rest
  /-- A token stands where it was in the string, and before what is left. -/
  stands : ∀ o ∈ out, CStr buf o.1 o.2 ∧ i ≤ o.1 ∧ o.2 = (s.drop (o.1 - i)).take o.2.length ∧
    o.1 + o.2.length + rest.length ≤ i + s.length ∧
    (rest ≠ [] → o.1 + o.2.length + rest.length < i + s.length)
  /-- Only delimiters of the string are overwritten. -/
  frame : ∀ x, buf x = orig x ∨
    (i ≤ x ∧ x < i + s.length ∧ isDelim (orig x) delim = true ∧ buf x = 0)

/-- The outcome of a call: no token is left, or one more is handed out. -/
inductive TokenCall (delim : List (BitVec 8)) (orig : ℕ → BitVec 8) (i : ℕ) (s : List (BitVec 8))
    (c : Strtokr) (out : List (ℕ × List (BitVec 8))) : Prop
  | done (htoken : c.token = none) (h : Handed delim orig i s c.buf c.saveptr out [])
  | token (k : ℕ) (tok rest : List (BitVec 8)) (htoken : c.token = some k)
    (h : Handed delim orig i s c.buf c.saveptr (out ++ [(k, tok)]) rest)

namespace Handed

variable {delim : List (BitVec 8)} {orig buf : ℕ → BitVec 8} {i : ℕ} {s rest : List (BitVec 8)}
  {str saveptr : Option ℕ} {out : List (ℕ × List (BitVec 8))}

/-- One call that starts at what is left. -/
theorem call {pre : List (BitVec 8)} (h : Handed delim orig i s buf saveptr out rest)
    (hs : s = pre ++ rest) (hstr : str.or saveptr = some (i + pre.length))
    (hrest : CStr buf (i + pre.length) rest) (hlen : s.length < walkBound) :
    ∃ c, strtokr buf str delim saveptr = some c ∧ TokenCall delim orig i s c out := by
  have hlen' : rest.length < walkBound := by
    rw [hs, List.length_append] at hlen
    omega
  have htokens := h.tokens_eq
  have hstands := h.stands
  have hframe := h.frame
  clear h
  cases tokenized (p := (isDelim · delim)) rest with
  | none _ hblank =>
    refine ⟨_, strtokr_blank hstr hrest hblank hlen', .done rfl ⟨?_, ?_, ?_, hframe⟩⟩
    · by_cases hnil : rest = []
      · exact Or.inl ⟨if_pos hnil, rfl⟩
      · refine Or.inr ⟨s, (List.append_nil s).symm, ?_, ?_⟩
        · simp only [if_neg hnil, hs, List.length_append, Nat.add_assoc]
        · have hend := hrest.eq_zero
          rwa [Nat.add_assoc, ← List.length_append, ← hs] at hend
    · rw [htokens, tokens_eq_nil hblank, tokens_nil]
    · intro o ho
      obtain ⟨hstand, hge, hplace, hle, -⟩ := hstands o ho
      exact ⟨hstand, hge, hplace, by simp; omega, by simp⟩
  | last blank tok hblank htok hne =>
    have htok_at : CStr buf (i + pre.length + blank.length) tok := hrest.drop_append
    refine ⟨_, strtokr_last hstr hrest hblank htok hne hlen', .token _ tok [] rfl
      ⟨Or.inr ⟨s, (List.append_nil s).symm, ?_, ?_⟩, ?_, ?_, hframe⟩⟩
    · simp only [hs, List.length_append, Nat.add_assoc]
    · have hend : CStr buf (i + pre.length + blank.length + tok.length) [] := htok_at.eq_zero
      simpa only [hs, List.length_append, ← Nat.add_assoc] using hend
    · rw [htokens, tokens_append_of_forall hblank, tokens_eq_singleton htok hne, tokens_nil]
      simp
    · intro o ho
      rcases List.mem_append.mp ho with ho | ho
      · obtain ⟨hstand, hge, hplace, hle, -⟩ := hstands o ho
        exact ⟨hstand, hge, hplace, by simp; omega, by simp⟩
      · obtain rfl := List.mem_singleton.mp ho
        refine ⟨htok_at, by omega, ?_, ?_, by simp⟩
        · rw [hs, show i + pre.length + blank.length - i = (pre ++ blank).length by simp; omega,
            ← List.append_assoc, List.drop_left, List.take_length]
        · simp only [hs, List.length_append, List.length_nil]
          omega
  | more blank tok c last hblank htok hne hc =>
    have htok_at : CStr buf (i + pre.length + blank.length) (tok ++ c :: last) :=
      hrest.drop_append
    have hcut := htok_at.drop_append
    have hlast_at : CStr buf (i + pre.length + blank.length + tok.length + 1) last := hcut.2.2
    have hsplit : s = (pre ++ blank ++ tok ++ [c]) ++ last := by
      rw [hs]
      simp
    have hslen := congrArg List.length hs
    simp only [List.length_append, List.length_cons] at hslen
    refine ⟨_, strtokr_more hstr hrest hblank htok hne hc hlen', .token _ tok last rfl
      ⟨Or.inr ⟨_, hsplit, ?_, ?_⟩, ?_, ?_, ?_⟩⟩
    · simp [Nat.add_assoc]
    · have hkeep := hlast_at.update_of_gt
        (show i + pre.length + blank.length + tok.length < _ by omega) 0
      simpa only [List.length_append, List.length_singleton, ← Nat.add_assoc] using hkeep
    · rw [htokens, tokens_append_of_forall hblank, tokens_append_cons htok hne hc]
      simp
    · intro o ho
      rcases List.mem_append.mp ho with ho | ho
      · obtain ⟨hstand, hge, hplace, -, hlt⟩ := hstands o ho
        have hlt := hlt (by simp)
        simp only [List.length_append, List.length_cons] at hlt
        refine ⟨hstand.update_of_lt (by omega) 0, hge, hplace, by omega, fun _ => by omega⟩
      · obtain rfl := List.mem_singleton.mp ho
        refine ⟨htok_at.cut, by omega, ?_, by simp only; omega, fun _ => by simp only; omega⟩
        rw [hs, show i + pre.length + blank.length - i = (pre ++ blank).length by simp; omega,
          ← List.append_assoc, List.drop_left, List.take_left]
    · intro x
      by_cases hx : x = i + pre.length + blank.length + tok.length
      · subst hx
        right
        refine ⟨by omega, by omega, ?_, Function.update_self _ _ _⟩
        rcases hframe (i + pre.length + blank.length + tok.length) with horig | ⟨-, -, hdelim, -⟩
        · rw [← horig, hcut.1]
          exact hc
        · exact hdelim
      · have hkeep : Function.update buf (i + pre.length + blank.length + tok.length) 0 x = buf x :=
          Function.update_of_ne hx _ _
        simp only [hkeep]
        exact hframe x

/-- One more call with a null string. -/
theorem next (h : Handed delim orig i s buf saveptr out rest) (hlen : s.length < walkBound) :
    ∃ c, strtokr buf none delim saveptr = some c ∧ TokenCall delim orig i s c out := by
  rcases h.place with ⟨rfl, rfl⟩ | ⟨pre, hs, rfl, hrest⟩
  · exact ⟨_, rfl, .done rfl h⟩
  · exact h.call hs rfl hrest hlen

/-- The first call. -/
theorem first (delim : List (BitVec 8)) (h : CStr buf i s) (hlen : s.length < walkBound) (saveptr : Option ℕ) :
    ∃ c, strtokr buf (some i) delim saveptr = some c ∧ TokenCall delim buf i s c [] := by
  -- as if the string were left from an earlier call
  have hstart : Handed delim buf i s buf (some i) [] s :=
    ⟨Or.inr ⟨[], rfl, rfl, h⟩, rfl, by simp, fun x => Or.inl rfl⟩
  have hstr : (some i).or (some i) = some (i + ([] : List (BitVec 8)).length) := rfl
  exact hstart.call rfl hstr h hlen

theorem touched_mem (h : Handed delim orig i s buf saveptr out rest) {x : ℕ}
    (hx : x ∈ strtokrTouched buf none delim saveptr) : i ≤ x ∧ x ≤ i + s.length := by
  rcases h.place with ⟨rfl, rfl⟩ | ⟨pre, rfl, rfl, hrest⟩
  · simp [strtokrTouched] at hx
  · have := strtokrTouched_mem (Option.none_or (o := some (i + pre.length))) hrest hx
    rw [List.length_append]
    omega

end Handed

/-- The state after `n` calls: the tokens that were handed out and then nulls are the results, and no
index outside of the string and its terminator was read or written. -/
structure RunState (delim : List (BitVec 8)) (orig : ℕ → BitVec 8) (i : ℕ) (s : List (BitVec 8))
    (n : ℕ) (r : StrtokrRun) (out : List (ℕ × List (BitVec 8))) (rest : List (BitVec 8)) : Prop where
  handed : Handed delim orig i s r.buf r.saveptr out rest
  length_le : out.length ≤ n
  finished : out.length < n → tokens (isDelim · delim) rest = []
  results : r.results = out.map (fun o => some o.1) ++ List.replicate (n - out.length) none
  touched : ∀ x ∈ r.touched, i ≤ x ∧ x ≤ i + s.length

section Runs

variable {delim : List (BitVec 8)} {buf : ℕ → BitVec 8} {i : ℕ} {s : List (BitVec 8)}

/-- One more call. -/
theorem RunState.call {orig : ℕ → BitVec 8} {n : ℕ} {r : StrtokrRun}
    {out : List (ℕ × List (BitVec 8))} {rest : List (BitVec 8)} {c : Strtokr} {touched : List ℕ}
    (h : RunState delim orig i s n r out rest) (hcall : TokenCall delim orig i s c out)
    (htouched : ∀ x ∈ touched, i ≤ x ∧ x ≤ i + s.length) :
    ∃ out' rest', RunState delim orig i s (n + 1)
      ⟨c.buf, c.saveptr, r.results ++ [c.token], r.touched ++ touched⟩ out' rest' := by
  have hle := h.length_le
  have hall : ∀ x ∈ r.touched ++ touched, i ≤ x ∧ x ≤ i + s.length := fun x hx =>
    (List.mem_append.mp hx).elim (h.touched x) (htouched x)
  cases hcall with
  | done htoken hnext =>
    refine ⟨out, [], hnext, by omega, fun _ => tokens_nil, ?_, hall⟩
    simp only [h.results, htoken]
    rw [List.append_assoc, ← List.replicate_succ', Nat.succ_sub hle]
  | token k tok rest' htoken hnext =>
    -- a token is left, so every call so far handed one out
    have hfull : out.length = n := by
      by_contra hne
      have hlengths := congrArg List.length (h.handed.tokens_eq.symm.trans hnext.tokens_eq)
      rw [h.finished (by omega)] at hlengths
      simp only [List.map_append, List.length_append, List.length_map, List.length_cons,
        List.length_nil] at hlengths
      omega
    refine ⟨out ++ [(k, tok)], rest', hnext, ?_, fun hlt => ?_, ?_, hall⟩
    · simp [hfull]
    · simp [hfull] at hlt
    · simp [h.results, htoken, hfull]

theorem strtokrRun_state (delim : List (BitVec 8)) (h : CStr buf i s) (hlen : s.length < walkBound) (saveptr : Option ℕ)
    (n : ℕ) : ∃ r out rest, strtokrRun delim buf i saveptr (n + 1) = some r ∧
      RunState delim buf i s (n + 1) r out rest := by
  induction n with
  | zero =>
    obtain ⟨c, hc, hcall⟩ := Handed.first delim h hlen saveptr
    -- no call yet
    have hnone : RunState delim buf i s 0 ⟨buf, some i, [], []⟩ [] s :=
      ⟨⟨Or.inr ⟨[], rfl, rfl, h⟩, rfl, by simp, fun x => Or.inl rfl⟩, le_rfl,
        fun hlt => absurd hlt (Nat.lt_irrefl 0), rfl, by simp⟩
    obtain ⟨out, rest, hstate⟩ := hnone.call hcall fun x hx =>
      strtokrTouched_mem (Option.some_or (o := saveptr)) h hx
    refine ⟨_, out, rest, ?_, hstate⟩
    simp only [strtokrRun, Option.bind_eq_bind, Option.bind_some, if_pos, hc]
    rfl
  | succ n ih =>
    obtain ⟨r, out, rest, hr, hstate⟩ := ih
    obtain ⟨c, hc, hcall⟩ := hstate.handed.next hlen
    obtain ⟨out', rest', hstate'⟩ := hstate.call hcall fun x hx => hstate.handed.touched_mem hx
    refine ⟨_, out', rest', ?_, hstate'⟩
    rw [strtokrRun, hr]
    simp only [Option.bind_eq_bind, Option.bind_some, if_neg (Nat.succ_ne_zero n), hc]
    rfl

/-- Any number of calls: the tokens of the string in order, as many as there are calls, each with its
NUL in the place where it stood, and null from then on. -/
theorem strtokrRun_spec (delim : List (BitVec 8)) (h : CStr buf i s) (hlen : s.length < walkBound) (saveptr : Option ℕ)
    (n : ℕ) : ∃ r ks, strtokrRun delim buf i saveptr (n + 1) = some r ∧
      List.Forall₂ (fun k tok => CStr r.buf k tok ∧ i ≤ k ∧
        tok = (s.drop (k - i)).take tok.length) ks ((tokens (isDelim · delim) s).take (n + 1)) ∧
      r.results = ks.map some ++
        List.replicate (n + 1 - (tokens (isDelim · delim) s).length) none ∧
      (∀ x ∈ r.touched, i ≤ x ∧ x ≤ i + s.length) ∧
      ∀ x, r.buf x = buf x ∨
        (i ≤ x ∧ x < i + s.length ∧ isDelim (buf x) delim = true ∧ r.buf x = 0) := by
  obtain ⟨r, out, rest, hr, hstate⟩ := strtokrRun_state delim h hlen saveptr n
  have hle := hstate.length_le
  have htokens := hstate.handed.tokens_eq
  have htake : (tokens (isDelim · delim) s).take (n + 1) = out.map Prod.snd := by
    rcases hle.eq_or_lt with heq | hlt
    · rw [htokens, ← heq]
      exact List.take_left' (by simp)
    · rw [htokens, hstate.finished hlt, List.append_nil]
      exact List.take_of_length_le (by simp; omega)
  have hcount : n + 1 - (tokens (isDelim · delim) s).length = n + 1 - out.length := by
    have hlength := congrArg List.length htokens
    rw [List.length_append, List.length_map] at hlength
    rcases hle.eq_or_lt with heq | hlt
    · omega
    · rw [hstate.finished hlt, List.length_nil] at hlength
      omega
  refine ⟨r, out.map Prod.fst, hr, ?_, ?_, hstate.touched, hstate.handed.frame⟩
  · rw [htake, List.forall₂_map_left_iff, List.forall₂_map_right_iff, List.forall₂_same]
    exact fun o ho => ⟨(hstate.handed.stands o ho).1, (hstate.handed.stands o ho).2.1,
      (hstate.handed.stands o ho).2.2.1⟩
  · rw [hstate.results, hcount, List.map_map]
    rfl

end Runs

end Pros
