import Mathlib

/-!
# NUL-terminated strings and their tokens

A char array is a function from indices to characters, and a string stands in it from an index up
to the first NUL. Splitting a string at delimiters leaves its tokens: the non-empty pieces.
-/

variable {α : Type*}

section Strings

variable [Zero α] {buf buf' : ℕ → α} {i j : ℕ} {s t : List α}

/-- The string `s`, without its NUL, stands in `buf` from index `i` on. -/
def CStr (buf : ℕ → α) (i : ℕ) : List α → Prop
  | [] => buf i = 0
  | c :: s => buf i = c ∧ c ≠ 0 ∧ CStr buf (i + 1) s

/-- The string a reader finds from index `i` on, looking at no more than `fuel` characters. -/
def readCStr [DecidableEq α] (buf : ℕ → α) : ℕ → ℕ → List α
  | 0, _ => []
  | fuel + 1, i => if buf i = 0 then [] else buf i :: readCStr buf fuel (i + 1)

theorem readCStr_eq [DecidableEq α] {fuel : ℕ} (h : CStr buf i s) (hfuel : s.length < fuel) :
    readCStr buf fuel i = s := by
  induction s generalizing i fuel with
  | nil =>
    obtain _ | fuel := fuel
    · simp at hfuel
    exact if_pos h
  | cons c s ih =>
    obtain _ | fuel := fuel
    · simp at hfuel
    obtain ⟨hc, hne, htail⟩ := h
    rw [readCStr, if_neg (hc ▸ hne), hc, ih htail (by simpa using hfuel)]

namespace CStr

/-- A string does not depend on what stands before it or behind its NUL. -/
theorem congr (h : CStr buf i s) (heq : ∀ x, i ≤ x → x ≤ i + s.length → buf' x = buf x) :
    CStr buf' i s := by
  induction s generalizing i with
  | nil => exact (heq i le_rfl (by simp)).trans h
  | cons c s ih =>
    obtain ⟨hc, hne, htail⟩ := h
    refine ⟨(heq i le_rfl (by simp)).trans hc, hne, ih htail fun x hx hx' => ?_⟩
    exact heq x (by omega) (by simp; omega)

/-- A write behind the NUL leaves the string alone. -/
theorem update_of_lt (h : CStr buf i s) (hj : i + s.length < j) (c : α) :
    CStr (Function.update buf j c) i s :=
  h.congr fun x _ hx => Function.update_of_ne (by omega) _ _

/-- A write before the string leaves it alone. -/
theorem update_of_gt (h : CStr buf i s) (hj : j < i) (c : α) :
    CStr (Function.update buf j c) i s :=
  h.congr fun x hx _ => Function.update_of_ne (by omega) _ _

theorem ne_zero (h : CStr buf i s) (hs : s ≠ []) : buf i ≠ 0 := by
  match s, hs with
  | _ :: _, _ => exact h.1 ▸ h.2.1

theorem eq_zero (h : CStr buf i s) : buf (i + s.length) = 0 := by
  induction s generalizing i with
  | nil => exact h
  | cons c s ih =>
    have := ih h.2.2
    rwa [show i + 1 + s.length = i + (c :: s).length by simp; omega] at this

/-- The tail of a string is the string that stands behind its first characters. -/
theorem drop_append (h : CStr buf i (s ++ t)) : CStr buf (i + s.length) t := by
  induction s generalizing i with
  | nil => simpa using h
  | cons c s ih =>
    have := ih h.2.2
    rwa [show i + 1 + s.length = i + (c :: s).length by simp; omega] at this

/-- A NUL written over a character of the string cuts it there. -/
theorem cut (h : CStr buf i (s ++ t)) : CStr (Function.update buf (i + s.length) 0) i s := by
  induction s generalizing i with
  | nil => simp [CStr]
  | cons c s ih =>
    obtain ⟨hc, hne, htail⟩ := h
    refine ⟨?_, hne, ?_⟩
    · rw [Function.update_of_ne (by simp)]
      exact hc
    · have := ih htail
      rwa [show i + 1 + s.length = i + (c :: s).length by simp; omega] at this

/-- Up to a NUL there is a string. -/
theorem exists_of_eq_zero {n : ℕ} (h : buf (i + n) = 0) : ∃ s, CStr buf i s ∧ s.length ≤ n := by
  classical
  induction n generalizing i with
  | zero => exact ⟨[], h, le_rfl⟩
  | succ n ih =>
    by_cases hi : buf i = 0
    · exact ⟨[], hi, Nat.zero_le _⟩
    · obtain ⟨s, hs, hle⟩ := ih (i := i + 1) (by rwa [show i + 1 + n = i + (n + 1) by omega])
      exact ⟨buf i :: s, ⟨rfl, hi, hs⟩, by simpa using hle⟩

/-- An array that reads as a list of characters followed by a NUL holds that string. -/
theorem of_getD (hs : ∀ c ∈ s, c ≠ 0) (hbuf : ∀ x ≤ s.length, buf (i + x) = s.getD x 0) :
    CStr buf i s := by
  induction s generalizing i with
  | nil => simpa [CStr] using hbuf 0 (by simp)
  | cons c s ih =>
    refine ⟨by simpa using hbuf 0 (by simp), hs c (by simp), ih (fun d hd => hs d (by simp [hd])) ?_⟩
    intro x hx
    have := hbuf (x + 1) (by simpa using hx)
    rwa [List.getD_cons_succ, show i + (x + 1) = i + 1 + x by omega] at this

end CStr

end Strings

section Tokens

variable (p : α → Bool)

/-- The non-empty pieces of `s` between the characters that satisfy `p`. -/
def tokens [DecidableEq α] (s : List α) : List (List α) := (s.splitOnP p).filter (· ≠ [])

variable {p} [DecidableEq α] {s t : List α}

theorem tokens_nil : tokens p ([] : List α) = [] := rfl

/-- Delimiters in front add no token. -/
theorem tokens_append_of_forall (hs : ∀ c ∈ s, p c = true) : tokens p (s ++ t) = tokens p t := by
  induction s with
  | nil => rfl
  | cons c s ih =>
    rw [← ih fun d hd => hs d (by simp [hd]), List.cons_append, tokens, tokens,
      List.splitOnP_cons_eq_if_modifyHead, if_pos (hs c (by simp))]
    simp

/-- A string of delimiters has no tokens. -/
theorem tokens_eq_nil (hs : ∀ c ∈ s, p c = true) : tokens p s = [] := by
  simpa [tokens_nil] using tokens_append_of_forall (t := []) hs

/-- A string without delimiters is its only token. -/
theorem tokens_eq_singleton (hs : ∀ c ∈ s, p c = false) (hne : s ≠ []) : tokens p s = [s] := by
  rw [tokens, List.splitOnP_eq_singleton hs]
  simp [hne]

/-- A delimiter parts the tokens before it from those behind it. -/
theorem tokens_append_delim {c : α} (hc : p c = true) :
    tokens p (s ++ c :: t) = tokens p s ++ tokens p t := by
  rw [tokens, List.splitOnP_append_cons _ _ hc, List.filter_append, tokens, tokens]

/-- A token that ends at a delimiter comes before the tokens behind that delimiter. -/
theorem tokens_append_cons (hs : ∀ c ∈ s, p c = false) (hne : s ≠ []) {c : α} (hc : p c = true) :
    tokens p (s ++ c :: t) = s :: tokens p t := by
  rw [tokens_append_delim hc, tokens_eq_singleton hs hne, List.singleton_append]

/-- The tokens hold what is not a delimiter. -/
theorem flatten_tokens (s : List α) : (tokens p s).flatten = s.filter fun c => !p c := by
  rw [tokens, List.flatten_filter_ne_nil]
  induction s with
  | nil => simp
  | cons c s ih =>
    rw [List.splitOnP_cons_eq_if_modifyHead]
    by_cases hc : p c = true
    · simp [hc, ih]
    · match hs : s.splitOnP p with
      | [] => exact absurd hs (List.splitOnP_ne_nil p s)
      | piece :: pieces =>
        rw [hs] at ih
        simpa [hc] using ih

/-- A token is not empty and holds only characters of the string. -/
theorem of_mem_tokens (ht : t ∈ tokens p s) : t ≠ [] ∧ t ⊆ s := by
  obtain ⟨-, hne⟩ := List.mem_filter.mp ht
  refine ⟨by simpa using hne, fun c hc => ?_⟩
  have hmem : c ∈ (tokens p s).flatten := List.mem_flatten.mpr ⟨t, ht, hc⟩
  rw [flatten_tokens] at hmem
  exact List.mem_of_mem_filter hmem

theorem length_le_of_mem_tokens (ht : t ∈ tokens p s) : t.length ≤ s.length := by
  have hle := (List.sublist_flatten_of_mem ht).length_le
  rw [flatten_tokens] at hle
  exact hle.trans (List.length_filter_le _ _)

variable (p) in
/-- How a string starts: with delimiters only, or with a first token behind some delimiters that
ends with the string or at a delimiter. -/
inductive Tokenized : List α → Prop
  | none (pre : List α) (hpre : ∀ c ∈ pre, p c = true) : Tokenized pre
  | last (pre tok : List α) (hpre : ∀ c ∈ pre, p c = true) (htok : ∀ c ∈ tok, p c = false)
      (hne : tok ≠ []) : Tokenized (pre ++ tok)
  | more (pre tok : List α) (c : α) (rest : List α) (hpre : ∀ c ∈ pre, p c = true)
      (htok : ∀ c ∈ tok, p c = false) (hne : tok ≠ []) (hc : p c = true) :
      Tokenized (pre ++ (tok ++ c :: rest))

omit [DecidableEq α] in
theorem tokenized (s : List α) : Tokenized p s := by
  induction s with
  | nil => exact .none [] (by simp)
  | cons c s ih =>
    by_cases hc : p c = true
    · -- one more delimiter in front
      cases ih with
      | none _ hpre => exact .none (c :: s) (by simpa [hc] using hpre)
      | last pre tok hpre htok hne => exact .last (c :: pre) tok (by simpa [hc] using hpre) htok hne
      | more pre tok d rest hpre htok hne hd =>
        exact .more (c :: pre) tok d rest (by simpa [hc] using hpre) htok hne hd
    · have htok : ∀ d ∈ (c :: s).takeWhile (fun d => !p d), p d = false := fun d hd => by
        simpa using List.mem_takeWhile_imp hd
      have hne : (c :: s).takeWhile (fun d => !p d) ≠ [] := by simp [hc]
      have hsplit := List.takeWhile_append_dropWhile (p := fun d => !p d) (l := c :: s)
      match hrest : (c :: s).dropWhile (fun d => !p d) with
      | [] =>
        rw [hrest, List.append_nil] at hsplit
        exact hsplit ▸ .last [] _ (by simp) htok hne
      | d :: rest =>
        have hd : p d = true := by
          have := List.head?_dropWhile_not (fun d => !p d) (c :: s)
          simpa [hrest] using this
        rw [hrest] at hsplit
        exact hsplit ▸ .more [] _ d rest (by simp) htok hne hd

/-- Behind a delimiter a new token starts. -/
theorem tokens_concat_append {c : α} (hc : p c = true) :
    tokens p ((s ++ [c]) ++ t) = tokens p (s ++ [c]) ++ tokens p t := by
  rw [List.append_assoc, List.singleton_append, tokens_append_delim hc, tokens_append_delim hc,
    tokens_nil, List.append_nil]

/-- Text without a delimiter goes on up to the next delimiter. -/
theorem tokens_append_takeWhile (hs : ∀ c ∈ s, p c = false)
    (hne : s ++ t.takeWhile (fun c => !p c) ≠ []) :
    ∃ rest, tokens p (s ++ t) = (s ++ t.takeWhile fun c => !p c) :: rest := by
  have hsu : ∀ c ∈ s ++ t.takeWhile (fun c => !p c), p c = false := fun c hc =>
    (List.mem_append.mp hc).elim (hs c) fun hu => by simpa using List.mem_takeWhile_imp hu
  have hsplit := List.takeWhile_append_dropWhile (p := fun c => !p c) (l := t)
  match hrest : t.dropWhile (fun c => !p c) with
  | [] =>
    rw [hrest, List.append_nil] at hsplit
    exact ⟨[], by rw [hsplit] at hsu hne ⊢; exact tokens_eq_singleton hsu hne⟩
  | d :: rest =>
    have hd : p d = true := by
      have := List.head?_dropWhile_not (fun c => !p c) t
      simpa [hrest] using this
    refine ⟨tokens p rest, ?_⟩
    conv_lhs => rw [← hsplit, hrest, ← List.append_assoc]
    exact tokens_append_cons hsu hne hd

/-- A string that does not end in a delimiter is continued by the first token. -/
theorem exists_tokens_append (hs : ∀ c ∈ s, p c = false) (hne : s ≠ []) :
    ∃ u rest, tokens p (s ++ t) = (s ++ u) :: rest ∧ (t.head?.any fun c => !p c) = !u.isEmpty := by
  obtain ⟨rest, hrest⟩ := tokens_append_takeWhile (t := t) hs (by simp [hne])
  refine ⟨t.takeWhile fun c => !p c, rest, hrest, ?_⟩
  match t with
  | [] => rfl
  | c :: t => by_cases hc : p c = true <;> simp [hc]

/-- Where the tokens of a string stay whole, those of what follows come behind them. -/
theorem tokens_append_of_whole (h : tokens p s <+: tokens p (s ++ t)) :
    tokens p (s ++ t) = tokens p s ++ tokens p t := by
  -- the last piece of the string, which is the only one that can go on
  obtain ⟨a, w, rfl, hw, ha⟩ : ∃ a w, s = a ++ w ∧ (∀ c ∈ w, p c = false) ∧
      ∀ x, tokens p (a ++ x) = tokens p a ++ tokens p x := by
    refine ⟨s.rdropWhile (!p ·), s.rtakeWhile (!p ·), List.rdropWhile_append_rtakeWhile.symm,
      fun c hc => by simpa using List.mem_rtakeWhile_imp hc, fun x => ?_⟩
    by_cases hnil : s.rdropWhile (!p ·) = []
    · simp [hnil, tokens_nil]
    · have hlast := List.rdropWhile_last_not (!p ·) s hnil
      rw [← List.dropLast_append_getLast hnil]
      exact tokens_concat_append (by simpa using hlast)
  rw [List.append_assoc, ha, ha, List.append_assoc] at *
  congr 1
  have hwhole : tokens p w <+: tokens p (w ++ t) := (List.prefix_append_right_inj _).mp h
  by_cases hne : w = []
  · simp [hne, tokens_nil]
  · obtain ⟨u, rest, htok, hu⟩ := exists_tokens_append (t := t) hw hne
    rw [tokens_eq_singleton hw hne, htok] at hwhole
    obtain rfl : u = [] := by simpa using hwhole
    match t with
    | [] => simp [tokens_nil]
    | c :: t =>
      have hc : p c = true := by simpa using hu
      rw [tokens_append_delim hc, ← tokens_append_of_forall (s := [c]) (t := t) (by simpa using hc),
        List.singleton_append]

/-- A token stands somewhere in the string. -/
theorem infix_of_mem_tokens (s : List α) : ∀ t ∈ tokens p s, t <:+: s := by
  cases tokenized (p := p) s with
  | none _ hpre =>
    rw [tokens_eq_nil hpre]
    simp
  | last pre tok hpre htok hne =>
    rw [tokens_append_of_forall hpre, tokens_eq_singleton htok hne]
    intro t ht
    obtain rfl := List.mem_singleton.mp ht
    exact (List.suffix_append pre t).isInfix
  | more pre tok c rest hpre htok hne hc =>
    have hrest : rest <:+ pre ++ (tok ++ c :: rest) :=
      ((List.suffix_cons c rest).trans (List.suffix_append tok _)).trans (List.suffix_append pre _)
    rw [tokens_append_of_forall hpre, tokens_append_cons htok hne hc]
    intro t ht
    rcases List.mem_cons.mp ht with rfl | ht
    · exact List.infix_append' pre t (c :: rest)
    · exact (infix_of_mem_tokens rest t ht).trans hrest.isInfix
termination_by s.length
decreasing_by simp; omega

/-- Two tokens have a delimiter between them. -/
theorem two_mul_length_tokens_le (s : List α) : 2 * (tokens p s).length ≤ s.length + 1 := by
  cases tokenized (p := p) s with
  | none _ hpre => simp [tokens_eq_nil hpre]
  | last pre tok hpre htok hne =>
    have := List.length_pos_of_ne_nil hne
    rw [tokens_append_of_forall hpre, tokens_eq_singleton htok hne, List.length_append]
    simp only [List.length_singleton]
    omega
  | more pre tok c rest hpre htok hne hc =>
    have := two_mul_length_tokens_le rest
    have := List.length_pos_of_ne_nil hne
    rw [tokens_append_of_forall hpre, tokens_append_cons htok hne hc]
    simp only [List.length_append, List.length_cons]
    omega
termination_by s.length
decreasing_by simp; omega

theorem length_tokens_le (s : List α) : (tokens p s).length ≤ s.length := by
  have := two_mul_length_tokens_le (p := p) s
  omega

end Tokens
