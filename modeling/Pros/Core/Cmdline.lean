import Pros.Core.Strings

/-!
# Parameters on the kernel command line

Model of `cmdline_parse_bool` and `cmdline_parse_string` in `kernel/src/core/main.c` with `strstr`.
A parameter is meant to be a token of the line: the name alone, or the name, an equals sign and a
value. The functions look at the first place where the name stands in the line, whatever it is part
of there.
-/

namespace Pros

/-! ## `strstr` -/

/-- The inner loop of `strstr`: whether the needle stands at the start of the string. -/
def strstrMatch : List (BitVec 8) → List (BitVec 8) → Bool
  | _, [] => true
  | [], _ :: _ => false
  | h :: hs, n :: ns => if h = n then strstrMatch hs ns else false

/-- The outer loop of `strstr`. -/
def strstrLoop (needle : List (BitVec 8)) : List (BitVec 8) → Option (List (BitVec 8))
  | [] => none
  | h :: haystack =>
    if strstrMatch (h :: haystack) needle then some (h :: haystack) else strstrLoop needle haystack

/-- `strstr`: the tail of the string that starts with the needle. -/
def strstr (haystack needle : List (BitVec 8)) : Option (List (BitVec 8)) :=
  if needle = [] then some haystack else strstrLoop needle haystack

/-- The inner loop compares a prefix. -/
theorem strstrMatch_iff (s needle : List (BitVec 8)) :
    strstrMatch s needle = true ↔ needle <+: s := by
  induction needle generalizing s with
  | nil => simp [strstrMatch]
  | cons n ns ih =>
    cases s with
    | nil => simp [strstrMatch]
    | cons h hs =>
      rw [strstrMatch, List.cons_prefix_cons]
      by_cases hhn : h = n
      · simp [hhn, ih]
      · simp [hhn, Ne.symm hhn]

/-- The first occurrence of `needle` stands between `pre` and `rest`. -/
structure FirstHit (needle s pre rest : List (BitVec 8)) : Prop where
  eq : s = pre ++ (needle ++ rest)
  first : ∀ pre' rest', s = pre' ++ (needle ++ rest') → pre.length ≤ pre'.length

theorem FirstHit.unique {needle s pre rest pre' rest' : List (BitVec 8)}
    (h : FirstHit needle s pre rest) (h' : FirstHit needle s pre' rest') : rest = rest' := by
  have hlen : pre.length = pre'.length := le_antisymm (h.first _ _ h'.eq) (h'.first _ _ h.eq)
  have hsame := List.append_inj_right (h.eq.symm.trans h'.eq) hlen
  exact List.append_cancel_left hsame

theorem strstrLoop_spec {needle : List (BitVec 8)} (hne : needle ≠ []) (s : List (BitVec 8)) :
    (∃ pre rest, strstrLoop needle s = some (needle ++ rest) ∧ FirstHit needle s pre rest) ∨
      (strstrLoop needle s = none ∧ ¬ needle <:+: s) := by
  induction s with
  | nil => exact Or.inr ⟨rfl, by simp [hne]⟩
  | cons h s ih =>
    by_cases hmatch : needle <+: h :: s
    · obtain ⟨rest, hrest⟩ := hmatch
      refine Or.inl ⟨[], rest, ?_, by simp [hrest], fun _ _ _ => Nat.zero_le _⟩
      rw [strstrLoop, if_pos ((strstrMatch_iff _ _).mpr ⟨rest, hrest⟩), hrest]
    · have hskip : strstrLoop needle (h :: s) = strstrLoop needle s :=
        if_neg fun hm => hmatch ((strstrMatch_iff _ _).mp hm)
      rw [hskip]
      rcases ih with ⟨pre, rest, hloop, hs, hfirst⟩ | ⟨hloop, hnot⟩
      · refine Or.inl ⟨h :: pre, rest, hloop, by rw [hs, List.cons_append], ?_⟩
        intro pre' rest' hs'
        rcases pre' with _ | ⟨c, pre'⟩
        · exact absurd ⟨rest', hs'.symm⟩ hmatch
        · have htail : s = pre' ++ (needle ++ rest') := (List.cons.inj hs').2
          simpa using hfirst pre' rest' htail
      · refine Or.inr ⟨hloop, fun hin => ?_⟩
        rcases List.infix_cons_iff.mp hin with hpre | hin
        · exact hmatch hpre
        · exact hnot hin

/-- `strstr` finds the first occurrence, or there is none. -/
theorem strstr_spec (s needle : List (BitVec 8)) :
    (∃ pre rest, strstr s needle = some (needle ++ rest) ∧ FirstHit needle s pre rest) ∨
      (strstr s needle = none ∧ ¬ needle <:+: s) := by
  by_cases hne : needle = []
  · subst hne
    exact Or.inl ⟨[], s, rfl, rfl, fun _ _ _ => Nat.zero_le _⟩
  · rw [strstr, if_neg hne]
    exact strstrLoop_spec hne s

/-- Where `strstr` finds an occurrence, it is the first one. -/
theorem FirstHit.of_strstr {s needle pre rest : List (BitVec 8)}
    (hs : s = pre ++ (needle ++ rest)) (hhit : strstr s needle = some (needle ++ rest)) :
    FirstHit needle s pre rest := by
  rcases strstr_spec s needle with ⟨pre', rest', hhit', hfirst⟩ | ⟨hmiss, -⟩
  · obtain rfl : rest' = rest :=
      List.append_cancel_left (Option.some.inj (hhit'.symm.trans hhit))
    obtain rfl : pre = pre' := List.append_cancel_right (hs.symm.trans hfirst.eq)
    exact hfirst
  · cases hmiss.symm.trans hhit

theorem FirstHit.occurs {needle s pre rest : List (BitVec 8)} (h : FirstHit needle s pre rest) :
    needle <:+: s :=
  ⟨pre, rest, by rw [h.eq, List.append_assoc]⟩

/-! ## Parameters -/

/-- `' '`. -/
abbrev charSpace : BitVec 8 := 0x20

/-- `'='`. -/
abbrev charEquals : BitVec 8 := 0x3d

/-- `cmdline_parse_bool`: the result, and what is stored through `out` if that is not null. -/
def cmdlineParseBool (cmdline param : Option (List (BitVec 8))) (dflt : Bool) : Bool × Bool :=
  match cmdline, param with
  | some cmdline, some param =>
    if strstr cmdline param = none then (false, dflt) else (true, true)
  | _, _ => (false, dflt)

/-- The loop of `cmdline_parse_string` that copies the value, with room for `n` bytes. -/
def copyValue : ℕ → List (BitVec 8) → List (BitVec 8)
  | 0, _ => []
  | _ + 1, [] => []
  | n + 1, c :: val => if c ≠ charSpace then c :: copyValue n val else []

/-- What `snprintf(out, count, "%s", def)` stores: nothing if `count` is zero. -/
def storeDefault (count : ℕ) (dflt : List (BitVec 8)) : Option (List (BitVec 8)) :=
  if count = 0 then none else some (snprintfString count dflt)

/-- `cmdline_parse_string`: the result, and the string that is stored in `out` if that is not
null. -/
def cmdlineParseString (cmdline param : Option (List (BitVec 8))) (dflt : List (BitVec 8))
    (count : ℕ) : Bool × Option (List (BitVec 8)) :=
  match cmdline, param with
  | some cmdline, some param =>
    if count = 0 then (false, storeDefault count dflt)
    else match strstr cmdline param with
      | none => (false, storeDefault count dflt)
      | some cmd =>
        if cmd.length < param.length + 2 ∨ cmd.getD param.length 0 ≠ charEquals then
          (false, storeDefault count dflt)
        else (true, some (copyValue (count - 1) (cmd.drop (param.length + 1))))
  | _, _ => (false, storeDefault count dflt)

theorem copyValue_eq (n : ℕ) (val : List (BitVec 8)) :
    copyValue n val = (val.takeWhile (· ≠ charSpace)).take n := by
  induction n generalizing val with
  | zero => simp [copyValue]
  | succ n ih =>
    cases val with
    | nil => simp [copyValue]
    | cons c val =>
      by_cases hc : c ≠ charSpace
      · rw [copyValue, if_pos hc, List.takeWhile_cons, if_pos (decide_eq_true hc),
          List.take_succ_cons, ih]
      · rw [copyValue, if_neg hc, List.takeWhile_cons, if_neg (by rwa [decide_eq_true_eq]),
          List.take_nil]

/-- The tokens of a command line. -/
def cmdlineTokens (line : List (BitVec 8)) : List (List (BitVec 8)) :=
  tokens (· == charSpace) line

/-- The first token of the line that gives the parameter a value gives it `v`. -/
def FirstParam (name line v : List (BitVec 8)) : Prop :=
  v ≠ [] ∧ ∃ before after, cmdlineTokens line = before ++ (name ++ charEquals :: v) :: after ∧
    ∀ t ∈ before, ∀ w, w ≠ [] → t ≠ name ++ charEquals :: w

variable {name line : List (BitVec 8)} {count : ℕ} {dflt : List (BitVec 8)}

theorem FirstParam.infix {v : List (BitVec 8)} (h : FirstParam name line v) :
    name ++ charEquals :: v <:+: line := by
  obtain ⟨-, before, after, htokens, -⟩ := h
  refine infix_of_mem_tokens (p := (· == charSpace)) line _ ?_
  change _ ∈ cmdlineTokens line
  rw [htokens]
  simp

theorem FirstParam.occurs {v : List (BitVec 8)} (h : FirstParam name line v) : name <:+: line :=
  (List.prefix_append name _).isInfix.trans h.infix

/-- The parameter has one value. -/
theorem FirstParam.unique {v v' : List (BitVec 8)} (h : FirstParam name line v)
    (h' : FirstParam name line v') : v = v' := by
  obtain ⟨hv, before, after, htokens, hfirst⟩ := h
  obtain ⟨hv', before', after', htokens', hfirst'⟩ := h'
  -- where one of the two tokens came before the other, that one would not be the first
  rcases List.append_eq_append_iff.mp (htokens.symm.trans htokens') with
    ⟨as, hbefore, hrest⟩ | ⟨as, hbefore, hrest⟩
  · cases as with
    | nil => exact (List.cons.inj (List.append_cancel_left (List.cons.inj hrest).1)).2
    | cons a as =>
      exact absurd (List.cons.inj hrest).1.symm (hfirst' a (by simp [hbefore]) v hv)
  · cases as with
    | nil => exact (List.cons.inj (List.append_cancel_left (List.cons.inj hrest).1)).2.symm
    | cons a as =>
      exact absurd (List.cons.inj hrest).1.symm (hfirst a (by simp [hbefore]) v' hv')

/-! ## What the functions return -/

/-- What is left of a token, up to the next space. -/
def tokenEnd (rest : List (BitVec 8)) : List (BitVec 8) := rest.takeWhile (· ≠ charSpace)

theorem eq_of_tokenEnd {e c : BitVec 8} {rest w : List (BitVec 8)}
    (h : tokenEnd (e :: rest) = c :: w) : e = c := by
  rw [tokenEnd, List.takeWhile_cons] at h
  split at h
  · exact (List.cons.inj h).1
  · cases h

/-- Where the name occurs, the text behind an equals sign is returned, up to the end of the token,
unless the sign ends the line. -/
theorem cmdlineParseString_hit (dflt : List (BitVec 8)) {rest : List (BitVec 8)}
    (hcount : count ≠ 0) (hhit : strstr line name = some (name ++ rest)) :
    (∃ w, tokenEnd rest = charEquals :: w ∧ rest ≠ [charEquals] ∧
      cmdlineParseString (some line) (some name) dflt count =
        (true, some (w.take (count - 1)))) ∨
    ((rest = [charEquals] ∨ ∀ w, tokenEnd rest ≠ charEquals :: w) ∧
      cmdlineParseString (some line) (some name) dflt count =
        (false, storeDefault count dflt)) := by
  simp only [cmdlineParseString, if_neg hcount, hhit, List.length_append]
  rcases rest with _ | ⟨e, _ | ⟨c, val⟩⟩
  · exact Or.inr ⟨Or.inr fun w => by simp [tokenEnd], by simp⟩
  · refine Or.inr ⟨or_iff_not_imp_left.mpr fun hne w hw => hne ?_, by simp⟩
    rw [eq_of_tokenEnd hw]
  · have hget : (name ++ e :: c :: val).getD name.length 0 = e := by
      simp [List.getD_eq_getElem?_getD]
    have hdrop : (name ++ e :: c :: val).drop (name.length + 1) = c :: val := by
      rw [List.drop_append]
      simp
    have hlong : ¬ name.length + (e :: c :: val).length < name.length + 2 := by
      simp only [List.length_cons]
      omega
    rw [hget, hdrop, copyValue_eq]
    by_cases he : e = charEquals
    · subst he
      refine Or.inl ⟨tokenEnd (c :: val), ?_, by simp, ?_⟩
      · rw [tokenEnd, List.takeWhile_cons, if_pos (by decide), tokenEnd]
      · rw [if_neg (not_or.mpr ⟨hlong, not_not.mpr rfl⟩), tokenEnd]
    · exact Or.inr ⟨Or.inr fun w hw => he (eq_of_tokenEnd hw), if_pos (Or.inr he)⟩

theorem cmdlineParseString_miss (hmiss : strstr line name = none) :
    cmdlineParseString (some line) (some name) dflt count = (false, storeDefault count dflt) := by
  simp [cmdlineParseString, hmiss]

theorem cmdlineParseBool_iff (dflt : Bool) :
    (cmdlineParseBool (some line) (some name) dflt).1 = true ↔ name <:+: line := by
  rcases strstr_spec line name with ⟨pre, rest, hhit, hfirst⟩ | ⟨hmiss, hnot⟩
  · simp only [cmdlineParseBool, hhit, reduceCtorEq, if_false, true_iff]
    exact hfirst.occurs
  · simp [cmdlineParseBool, hmiss, hnot]

/-! ## Whole tokens -/

/-- `cmdline_parse_bool` reads the parameter: it finds it if and only if it is a token. -/
def BoolReadsToken (name line : List (BitVec 8)) (dflt : Bool) : Prop :=
  (cmdlineParseBool (some line) (some name) dflt).1 = true ↔ name ∈ cmdlineTokens line

/-- `cmdline_parse_string` reads the parameter: the value of the first token that gives it one, cut
to the buffer, or the default if there is none. -/
structure StringReadsToken (name line dflt : List (BitVec 8)) (count : ℕ) : Prop where
  found : ∀ v, FirstParam name line v → cmdlineParseString (some line) (some name) dflt count =
    (true, some (v.take (count - 1)))
  missing : (∀ v, ¬ FirstParam name line v) →
    cmdlineParseString (some line) (some name) dflt count = (false, storeDefault count dflt)

/-! ## The token with the first occurrence of the name -/

/-- A token can start behind `pre`. -/
def TokenStart (pre : List (BitVec 8)) : Prop := ∀ c ∈ pre.getLast?, c = charSpace

/-- When the token with the first occurrence of the name is the right one to look at for a string
parameter. -/
inductive FirstTokenTells (name line : List (BitVec 8)) (count : ℕ) : Prop
  /-- It is the parameter with its value. -/
  | own (pre rest v : List (BitVec 8)) (hcount : count ≠ 0) (hfirst : FirstHit name line pre rest)
      (hstart : TokenStart pre) (htoken : tokenEnd rest = charEquals :: v) (hv : v ≠ [])
  /-- It is another one, with the name at its end or further inside, and the text behind the name is
  an equals sign and the value that a later token gives the parameter, as far as the buffer shows
  it. -/
  | agrees (pre rest v w : List (BitVec 8)) (hcount : count ≠ 0) (hparam : FirstParam name line v)
      (hfirst : FirstHit name line pre rest) (htoken : tokenEnd rest = charEquals :: w)
      (hother : ¬ TokenStart pre ∨ w = []) (hsame : w.take (count - 1) = v.take (count - 1))
  /-- No token gives the parameter a value, and in that token no equals sign stands behind the name,
  or one that ends the line. -/
  | noValue (hnone : ∀ v, ¬ FirstParam name line v)
      (hfirst : count = 0 ∨ ∀ pre rest, FirstHit name line pre rest →
        rest = [charEquals] ∨ ∀ w, tokenEnd rest ≠ charEquals :: w)

/-- What stands before the first occurrence of the name does not hold it. -/
theorem FirstHit.not_infix {pre rest u : List (BitVec 8)} (h : FirstHit name line pre rest)
    (hu : u <:+: pre) (hne : u ≠ []) : ¬ name <:+: u := by
  intro hname
  obtain ⟨a, b, hab⟩ := hname.trans hu
  have hle := h.first a (b ++ (name ++ rest)) (by rw [h.eq, ← hab]; simp)
  have hlength := congrArg List.length hab
  simp only [List.length_append] at hlength
  obtain rfl : name = [] := List.eq_nil_of_length_eq_zero (by omega)
  have hzero := h.first [] line rfl
  obtain rfl : pre = [] := List.eq_nil_of_length_eq_zero (by simpa using hzero)
  exact hne (List.infix_nil.mp hu)

/-- Where the first occurrence starts a token that is a parameter with a value, this token gives the
parameter its value. -/
theorem FirstHit.firstParam {pre rest v : List (BitVec 8)} (h : FirstHit name line pre rest)
    (hspace : charSpace ∉ name) (hstart : TokenStart pre) (htoken : tokenEnd rest = charEquals :: v)
    (hv : v ≠ []) : FirstParam name line v := by
  have hname : ∀ c ∈ name, (c == charSpace) = false := fun c hc =>
    beq_eq_false_iff_ne.mpr fun heq => hspace (heq ▸ hc)
  have hsplit : cmdlineTokens line = cmdlineTokens pre ++ cmdlineTokens (name ++ rest) := by
    rw [h.eq]
    rcases List.eq_nil_or_concat pre with rfl | ⟨a, c, rfl⟩
    · rfl
    · obtain rfl : c = charSpace := hstart c (by simp)
      rw [List.concat_eq_append]
      exact tokens_concat_append (beq_self_eq_true charSpace)
  have hend : rest.takeWhile (fun c => !(c == charSpace)) = charEquals :: v := by
    rw [← htoken, tokenEnd]
    congr 1
    funext c
    rw [decide_not]
    rfl
  obtain ⟨after, hafter⟩ := tokens_append_takeWhile (t := rest) hname
    (by rw [hend]; simp)
  rw [hend] at hafter
  refine ⟨hv, cmdlineTokens pre, after, hsplit.trans (congrArg _ hafter), fun u hu w _ heq => ?_⟩
  refine h.not_infix (infix_of_mem_tokens pre u hu) (of_mem_tokens hu).1 ?_
  rw [heq]
  exact (List.prefix_append name _).isInfix

/-- An equals sign behind the first occurrence does not end the line if a token gives a value. -/
theorem FirstParam.rest_ne {pre rest v : List (BitVec 8)} (h : FirstParam name line v)
    (hfirst : FirstHit name line pre rest) : rest ≠ [charEquals] := by
  rintro rfl
  obtain ⟨a, b, hab⟩ := h.infix
  have hle := hfirst.first a (charEquals :: v ++ b) (by rw [← hab]; simp)
  have hlength := congrArg List.length (hab.trans hfirst.eq)
  simp only [List.length_append, List.length_cons, List.length_nil] at hlength
  exact h.1 (List.eq_nil_of_length_eq_zero (by omega))

/-- Without a value the default is the right answer exactly where the first occurrence shows
none. -/
theorem stringReadsToken_of_default
    (hcall : cmdlineParseString (some line) (some name) dflt count =
      (false, storeDefault count dflt)) :
    StringReadsToken name line dflt count ↔ ∀ v, ¬ FirstParam name line v := by
  refine ⟨fun h v hv => ?_, fun hnone => ⟨fun v hv => absurd hv (hnone v), fun _ => hcall⟩⟩
  cases congrArg Prod.fst (hcall.symm.trans (h.found v hv))

theorem stringReadsToken_iff (hspace : charSpace ∉ name) :
    StringReadsToken name line dflt count ↔ FirstTokenTells name line count := by
  by_cases hcount : count = 0
  · -- nothing is read with an empty buffer
    rw [stringReadsToken_of_default (by simp [cmdlineParseString, hcount])]
    refine ⟨fun hnone => .noValue hnone (Or.inl hcount), ?_⟩
    rintro (⟨_, _, _, hne, -⟩ | ⟨_, _, _, _, hne, -⟩ | ⟨hnone, -⟩)
    · exact absurd hcount hne
    · exact absurd hcount hne
    · exact hnone
  rcases strstr_spec line name with ⟨pre, rest, hhit, hfirst⟩ | ⟨hmiss, hnot⟩
  · rcases cmdlineParseString_hit dflt hcount hhit with ⟨w, hw, hrest, hcall⟩ | ⟨hno, hcall⟩
    · -- a value is returned: the one of the parameter, or one that it does not have
      constructor
      · intro h
        by_cases hparam : ∃ v, FirstParam name line v
        · obtain ⟨v, hv⟩ := hparam
          by_cases hown : ¬ TokenStart pre ∨ w = []
          · have hsame : w.take (count - 1) = v.take (count - 1) := by
              simpa using hcall.symm.trans (h.found v hv)
            exact .agrees pre rest v w hcount hv hfirst hw hown hsame
          · exact .own pre rest w hcount hfirst (by tauto) hw (by tauto)
        · cases congrArg Prod.fst (hcall.symm.trans (h.missing (not_exists.mp hparam)))
      · rintro (⟨_, _, v, -, hfirst', hstart, hw', hv⟩ |
          ⟨_, _, v, w', -, hparam, hfirst', hw', -, hsame⟩ | ⟨-, hnone⟩)
        · have hparam := hfirst'.firstParam hspace hstart hw' hv
          refine ⟨fun v' hv' => ?_, fun hnone => absurd hparam (hnone v)⟩
          rw [hfirst'.unique hfirst, hw] at hw'
          rw [hcall, (List.cons.inj hw').2, hparam.unique hv']
        · refine ⟨fun v' hv' => ?_, fun hnone => absurd hparam (hnone v)⟩
          rw [hfirst'.unique hfirst, hw] at hw'
          rw [hcall, (List.cons.inj hw').2, hsame, hparam.unique hv']
        · rcases (hnone.resolve_left hcount) pre rest hfirst with hend | hno
          · exact absurd hend hrest
          · exact absurd hw (hno w)
    · -- the default is returned, so there must be no value
      have hbad : ∀ {v pre' rest' w}, FirstParam name line v → FirstHit name line pre' rest' →
          tokenEnd rest' ≠ charEquals :: w := by
        intro v pre' rest' w hv hfirst' hw
        rw [hfirst'.unique hfirst] at hw
        exact (hno.resolve_left (hv.rest_ne hfirst)) w hw
      rw [stringReadsToken_of_default hcall]
      refine ⟨fun hnone => .noValue hnone (Or.inr fun pre' rest' hfirst' => ?_), ?_⟩
      · rwa [hfirst'.unique hfirst]
      · rintro (⟨_, _, v, -, hfirst', hstart, hw, hv⟩ | ⟨_, _, v, w, -, hparam, hfirst', hw, -⟩ |
          ⟨hnone, -⟩)
        · exact absurd hw (hbad (hfirst'.firstParam hspace hstart hw hv) hfirst')
        · exact absurd hw (hbad hparam hfirst')
        · exact hnone
  · -- the name does not stand in the line, so neither does a token with it
    rw [stringReadsToken_of_default (cmdlineParseString_miss hmiss)]
    refine iff_of_true (fun v hv => hnot hv.occurs) (.noValue (fun v hv => hnot hv.occurs) ?_)
    exact Or.inr fun pre rest hfirst => absurd hfirst.occurs hnot

/-- The parameters are read as whole tokens exactly where the first occurrence of the name is no
trap: a string parameter where the first token with the name in it is the parameter with its value,
or tells as much as that one; a boolean one where the name stands nowhere in the line or is a token
of it. -/
theorem cmdline_reads_whole_tokens_iff (name line dflt : List (BitVec 8)) (count : ℕ)
    (dfltBool : Bool) (hspace : charSpace ∉ name) :
    (StringReadsToken name line dflt count ↔ FirstTokenTells name line count) ∧
    (BoolReadsToken name line dfltBool ↔ (¬ name <:+: line ∨ name ∈ cmdlineTokens line)) := by
  refine ⟨stringReadsToken_iff hspace, ?_⟩
  rw [BoolReadsToken, cmdlineParseBool_iff]
  have hoccurs : name ∈ cmdlineTokens line → name <:+: line := infix_of_mem_tokens line name
  tauto

/-- `"pros.init"`. -/
def prosInit : List (BitVec 8) :=
  [0x70, 0x72, 0x6f, 0x73, 0x2e, 0x69, 0x6e, 0x69, 0x74]

/-- `"pros.tests"`. -/
def prosTests : List (BitVec 8) :=
  [0x70, 0x72, 0x6f, 0x73, 0x2e, 0x74, 0x65, 0x73, 0x74, 0x73]

/-- `"/bin/init"`. -/
def binInit : List (BitVec 8) :=
  [0x2f, 0x62, 0x69, 0x6e, 0x2f, 0x69, 0x6e, 0x69, 0x74]

/-- `"/bin/psh"`. -/
def binPsh : List (BitVec 8) :=
  [0x2f, 0x62, 0x69, 0x6e, 0x2f, 0x70, 0x73, 0x68]

/-- `"pros.initrd=1"`. -/
def initrdToken : List (BitVec 8) :=
  [0x70, 0x72, 0x6f, 0x73, 0x2e, 0x69, 0x6e, 0x69, 0x74, 0x72, 0x64, 0x3d, 0x31]

/-- `"pros.testsuite"`. -/
def testsuiteToken : List (BitVec 8) :=
  [0x70, 0x72, 0x6f, 0x73, 0x2e, 0x74, 0x65, 0x73, 0x74, 0x73, 0x75, 0x69, 0x74, 0x65]

/-- On the line `"pros.tests pros.init=/bin/psh pros.initrd=1"` both parameters are read: the first
token with `"pros.init"` in it is the parameter, and the other parameter comes behind it. -/
theorem cmdline_reads_whole_tokens_iff_in_order :
    let line := prosTests ++ charSpace ::
      (prosInit ++ charEquals :: binPsh) ++ charSpace :: initrdToken
    FirstParam prosInit line binPsh ∧
    StringReadsToken prosInit line binInit 128 ∧
    cmdlineParseString (some line) (some prosInit) binInit 128 = (true, some binPsh) ∧
    BoolReadsToken prosTests line false ∧
    (cmdlineParseBool (some line) (some prosTests) false).1 = true := by
  intro line
  have hfirst : FirstHit prosInit line (prosTests ++ [charSpace])
      (charEquals :: binPsh ++ charSpace :: initrdToken) :=
    .of_strstr (by decide +kernel) (by decide +kernel)
  have hstart : TokenStart (prosTests ++ [charSpace]) := by simp [TokenStart]
  have hparam : FirstParam prosInit line binPsh :=
    hfirst.firstParam (by decide) hstart (by decide +kernel) (by decide)
  have hinit := cmdline_reads_whole_tokens_iff prosInit line binInit 128 false (by decide)
  have htests := cmdline_reads_whole_tokens_iff prosTests line binInit 128 false (by decide)
  have hread := hinit.1.mpr
    (.own _ _ binPsh (by decide) hfirst hstart (by decide +kernel) (by decide))
  have htoken := htests.2.mpr (Or.inr (by decide +kernel))
  exact ⟨hparam, hread, hread.found binPsh hparam, htoken, htoken.mpr (by decide +kernel)⟩

/-- On the line `"pros.initrd=1 pros.init=/bin/psh"` the first occurrence of `"pros.init"` is part of
another parameter, and the default is returned. On `"pros.init= 1"` an empty value is returned, and
on `"pros.testsuite"` the tests are found to be enabled. -/
theorem cmdline_reads_other_tokens :
    let line := initrdToken ++ charSpace :: (prosInit ++ charEquals :: binPsh)
    let blank := prosInit ++ [charEquals, charSpace, 0x31]
    FirstParam prosInit line binPsh ∧
    cmdlineParseString (some line) (some prosInit) binInit 128 = (false, some binInit) ∧
    (∀ t ∈ cmdlineTokens blank, ∀ v, v ≠ [] → t ≠ prosInit ++ charEquals :: v) ∧
    cmdlineParseString (some blank) (some prosInit) binInit 128 = (true, some []) ∧
    prosTests ∉ cmdlineTokens testsuiteToken ∧
    (cmdlineParseBool (some testsuiteToken) (some prosTests) false).1 = true := by
  refine ⟨⟨by decide, [initrdToken], [], by decide +kernel, ?_⟩, by decide +kernel, ?_,
    by decide +kernel, by decide +kernel, by decide +kernel⟩
  · intro t ht v _ heq
    rw [List.mem_singleton.mp ht] at heq
    -- the byte behind the name is another
    have hbyte := congrArg (·[9]?) heq
    simp [initrdToken, prosInit] at hbyte
  · intro t ht v hv heq
    have htokens : cmdlineTokens (prosInit ++ [charEquals, charSpace, 0x31]) =
        [prosInit ++ [charEquals], [0x31]] := by
      decide +kernel
    rw [htokens, List.mem_cons, List.mem_singleton] at ht
    rcases ht with rfl | rfl
    · have hnil : [charEquals] = charEquals :: v := List.append_cancel_left heq
      exact hv (List.cons.inj hnil).2.symm
    · exact absurd (congrArg List.length heq) (by simp [prosInit])

end Pros
