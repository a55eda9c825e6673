import Pros.Core.Framebuffer

/-!
# The escape sequences of the framebuffer terminal

The parser of `fb_terminal_print_char` is compared with a reading of the whole stream: it is cut into
control sequences `ESC [ p1;...;pk` with their final byte, and a sequence that ends in `m` applies its
parameters, which are numbers without bound. Any other final byte, or the end of the stream, leaves
out the parameter that no `;` has closed.

`ansi_param` is an `int`, so the parser follows this reading as long as every parameter is one.
-/

namespace Pros

/-! ## The reading of a stream -/

/-- A digit or a `;`. -/
def isParamByte (c : BitVec 8) : Bool := decide ((0x30 ≤ c ∧ c ≤ 0x39) ∨ c = 0x3b)

/-- The number that the digits write; nothing stands for 0. -/
def decimalFrom (n : ℕ) (digits : List (BitVec 8)) : ℕ :=
  digits.foldl (fun n c => n * 10 + (c.toNat - 48)) n

/-- A control sequence: what stands between `ESC [` and its final byte. The final byte is missing
where the stream ends. -/
structure CsiSequence where
  body : List (BitVec 8)
  final : Option (BitVec 8)
  deriving DecidableEq, Repr

namespace CsiSequence

/-- The parameters. -/
def params (s : CsiSequence) : List ℕ := (s.body.splitOn 0x3b).map (decimalFrom 0)

/-- The parameters that are applied. -/
def codes (s : CsiSequence) : List ℕ :=
  if s.final = some 0x6d then s.params else s.params.dropLast

end CsiSequence

/-- The control sequences of a stream. A byte other than `[` after `ESC` ends the escape. -/
def csiSequences : List (BitVec 8) → List CsiSequence
  | [] => []
  | c :: rest =>
    if c = 0x1b then
      match rest with
      | [] => []
      | d :: rest =>
        if d = 0x5b then
          ⟨rest.takeWhile isParamByte, (rest.dropWhile isParamByte).head?⟩ ::
            csiSequences (rest.dropWhile isParamByte).tail
        else csiSequences rest
    else csiSequences rest
  termination_by bytes => bytes.length
  decreasing_by
    · have := List.length_dropWhile_le isParamByte rest
      simp only [List.length_tail, List.length_cons]
      omega
    · simp
    · simp

/-- The eight colours and their bright variants. -/
def sgrPalette : List (BitVec 32) :=
  [0x00000000, 0x00AA0000, 0x0000AA00, 0x00AA5500, 0x000000AA, 0x00AA00AA, 0x0000AAAA, 0x00AAAAAA]

@[inherit_doc sgrPalette]
def sgrBright : List (BitVec 32) :=
  [0x00555555, 0x00FF5555, 0x0055FF55, 0x00FFFF55, 0x005555FF, 0x00FF55FF, 0x0055FFFF, 0x00FFFFFF]

/-- What a parameter does to the foreground and the background. -/
def sgrApply (colors : BitVec 32 × BitVec 32) (code : ℕ) : BitVec 32 × BitVec 32 :=
  if code = 0 then (0x00FFFFFF, 0x00000000)
  else if 30 ≤ code ∧ code < 38 then (sgrPalette.getD (code - 30) 0, colors.2)
  else if 90 ≤ code ∧ code < 98 then (sgrBright.getD (code - 90) 0, colors.2)
  else if 40 ≤ code ∧ code < 48 then (colors.1, sgrPalette.getD (code - 40) 0)
  else if 100 ≤ code ∧ code < 108 then (colors.1, sgrBright.getD (code - 100) 0)
  else colors

/-- The colours after a stream. -/
def sgrColors (bytes : List (BitVec 8)) : BitVec 32 × BitVec 32 :=
  ((csiSequences bytes).flatMap CsiSequence.codes).foldl sgrApply (0x00FFFFFF, 0x00000000)

/-! ## The parser -/

/-- The foreground and the background. -/
def FbAnsi.colors (a : FbAnsi) : BitVec 32 × BitVec 32 := (a.fgColor, a.bgColor)

@[inherit_doc FbAnsi.colors]
def FbAnsi.setColors (a : FbAnsi) (colors : BitVec 32 × BitVec 32) : FbAnsi :=
  { a with fgColor := colors.1, bgColor := colors.2 }

/-- The parser reads a stream. -/
def ansiRun (a : FbAnsi) (bytes : List (BitVec 8)) : FbAnsi :=
  bytes.foldl (fun a c => (fbAnsiStep a c).1) a

section Parser

variable {a : FbAnsi} {c : BitVec 8} {body bytes : List (BitVec 8)}

theorem ansiRun_append (a : FbAnsi) (l l' : List (BitVec 8)) :
    ansiRun a (l ++ l') = ansiRun (ansiRun a l) l' := List.foldl_append

theorem fbTerminalPrintChar_ansi (t : FbTerminal) (c : BitVec 8) :
    (fbTerminalPrintChar t c).ansi = (fbAnsiStep t.ansi c).1 := by
  have hput : ∀ t : FbTerminal, (t.put c).ansi = t.ansi := by
    intro t
    rw [FbTerminal.put]
    dsimp only
    split_ifs <;> rfl
  rw [fbTerminalPrintChar]
  dsimp only
  split_ifs
  · rfl
  · exact hput _
  · exact hput _

/-- Drawing has no effect on the parser. -/
theorem fbTerminalPrint_ansi (t : FbTerminal) (bytes : List (BitVec 8)) :
    (fbTerminalPrint t bytes).ansi = ansiRun t.ansi bytes := by
  induction bytes generalizing t with
  | nil => rfl
  | cons c bytes ih =>
    refine (ih (fbTerminalPrintChar t c)).trans ?_
    rw [fbTerminalPrintChar_ansi]
    rfl

/-- `fb_ansi_apply` sets the colours and nothing else. -/
theorem fbAnsiApply_eq (a : FbAnsi) (code : ℕ) :
    fbAnsiApply a code = a.setColors (sgrApply a.colors code) := by
  rw [fbAnsiApply, sgrApply]
  by_cases hzero : code = 0
  · rw [if_pos (by omega), if_pos hzero]
    rfl
  rw [if_neg (by omega), if_neg hzero]
  -- the four ranges of colours, each with its eight codes
  by_cases hfg : 30 ≤ code ∧ code < 38
  · rw [if_pos (by omega), if_pos hfg]
    obtain ⟨hle, hlt⟩ := hfg
    interval_cases code <;> rfl
  rw [if_neg (by omega), if_neg hfg]
  by_cases hbright : 90 ≤ code ∧ code < 98
  · rw [if_pos (by omega), if_pos hbright]
    obtain ⟨hle, hlt⟩ := hbright
    interval_cases code <;> rfl
  rw [if_neg (by omega), if_neg hbright]
  by_cases hbg : 40 ≤ code ∧ code < 48
  · rw [if_pos (by omega), if_pos hbg]
    obtain ⟨hle, hlt⟩ := hbg
    interval_cases code <;> rfl
  rw [if_neg (by omega), if_neg hbg]
  by_cases hbright' : 100 ≤ code ∧ code < 108
  · rw [if_pos (by omega), if_pos hbright']
    obtain ⟨hle, hlt⟩ := hbright'
    interval_cases code <;> rfl
  · rw [if_neg (by omega), if_neg hbright']
    rfl

theorem fbAnsiStep_overflow (h : a.overflow = true) (c : BitVec 8) :
    (fbAnsiStep a c).1.overflow = true := by
  have happly : ∀ code, (fbAnsiApply a code).overflow = true := by
    intro code
    rw [fbAnsiApply]
    split_ifs <;> exact h
  rw [fbAnsiStep]
  split
  · split_ifs <;> exact h
  · split_ifs <;> exact h
  · split_ifs
    · rw [fbAnsiDigit]
      simp [h]
    · exact happly _
    · exact happly _
    · exact h

/-- An overflow is not forgotten. -/
theorem ansiRun_overflow (h : a.overflow = true) (bytes : List (BitVec 8)) :
    (ansiRun a bytes).overflow = true := by
  induction bytes generalizing a with
  | nil => exact h
  | cons c bytes ih => exact ih (fbAnsiStep_overflow h c)

/-! ## Inside of a sequence -/

/-- The parameters that are read when the number `n` was begun. -/
def paramsFrom (n : ℕ) (body : List (BitVec 8)) : List ℕ :=
  decimalFrom n ((body.splitOn 0x3b).headD []) :: (body.splitOn 0x3b).tail.map (decimalFrom 0)

theorem paramsFrom_nil (n : ℕ) : paramsFrom n [] = [n] := by
  rw [paramsFrom, List.splitOn_nil]
  rfl

theorem paramsFrom_zero (body : List (BitVec 8)) :
    paramsFrom 0 body = (body.splitOn 0x3b).map (decimalFrom 0) := by
  rw [paramsFrom]
  cases hsplit : body.splitOn 0x3b with
  | nil => exact absurd hsplit (List.splitOn_ne_nil _ _)
  | cons first rest => rfl

theorem paramsFrom_semicolon (n : ℕ) (body : List (BitVec 8)) :
    paramsFrom n (0x3b :: body) = n :: paramsFrom 0 body := by
  rw [paramsFrom_zero, paramsFrom, List.splitOn_cons_eq_if_modifyHead, if_pos (by decide)]
  rfl

theorem paramsFrom_digit (n : ℕ) (hc : c ≠ 0x3b) (body : List (BitVec 8)) :
    paramsFrom n (c :: body) = paramsFrom (n * 10 + (c.toNat - 48)) body := by
  rw [paramsFrom, paramsFrom, List.splitOn_cons_eq_if_modifyHead, if_neg (by simpa using hc)]
  cases hsplit : body.splitOn 0x3b with
  | nil => exact absurd hsplit (List.splitOn_ne_nil _ _)
  | cons first rest => rfl

theorem le_decimalFrom (n : ℕ) (digits : List (BitVec 8)) : n ≤ decimalFrom n digits := by
  induction digits generalizing n with
  | nil => exact le_rfl
  | cons c digits ih => exact le_trans (by omega) (ih (n * 10 + (c.toNat - 48)))

/-- The number that was begun only grows. -/
theorem exists_le_paramsFrom (n : ℕ) (body : List (BitVec 8)) : ∃ p ∈ paramsFrom n body, n ≤ p :=
  ⟨_, List.mem_cons_self, le_decimalFrom n _⟩

/-- A digit, with its exact value if that is an `int`. -/
theorem fbAnsiStep_digit (hstate : a.state = .csi) {n : ℕ} (hparam : a.param = n)
    (hover : a.overflow = false) (hc : 0x30 ≤ c ∧ c ≤ 0x39) :
    (n * 10 + (c.toNat - 48) < 2 ^ 31 →
      (fbAnsiStep a c).1 = { a with param := (n * 10 + (c.toNat - 48) : ℕ) }) ∧
    (2 ^ 31 ≤ n * 10 + (c.toNat - 48) → (fbAnsiStep a c).1.overflow = true) := by
  have hlow : 48 ≤ c.toNat := hc.1
  have hsum : a.param * 10 + (c.toNat - 48) = ((n * 10 + (c.toNat - 48) : ℕ) : ℤ) := by
    rw [hparam]
    push_cast [Nat.cast_sub hlow]
    rfl
  have hstep : (fbAnsiStep a c).1 = fbAnsiDigit a c := by
    rw [fbAnsiStep, hstate]
    dsimp only
    rw [if_pos hc]
  rw [hstep, fbAnsiDigit, hsum, hover]
  refine ⟨fun hlt => ?_, fun hge => ?_⟩
  · have hmod : Int.bmod ((n * 10 + (c.toNat - 48) : ℕ) : ℤ) (2 ^ 32) =
        ((n * 10 + (c.toNat - 48) : ℕ) : ℤ) := Int.bmod_eq_of_le (by omega) (by omega)
    rw [hmod, Bool.false_or, decide_eq_false (by omega), ← hover]
  · rw [Bool.false_or, decide_eq_true_eq]
    omega

/-- The parser inside of a sequence, after the number `n` was begun: if every parameter is an `int`,
those that are closed are applied and the last one is the new `ansi_param`. -/
theorem ansiRun_body (hbody : ∀ c ∈ body, isParamByte c = true) (hstate : a.state = .csi) {n : ℕ}
    (hparam : a.param = n) (hn : n < 2 ^ 31) (hover : a.overflow = false) :
    ((∃ p ∈ paramsFrom n body, 2 ^ 31 ≤ p) → (ansiRun a body).overflow = true) ∧
    ((∀ p ∈ paramsFrom n body, p < 2 ^ 31) →
      ansiRun a body =
        { a.setColors ((paramsFrom n body).dropLast.foldl sgrApply a.colors) with
          param := ((paramsFrom n body).getLastD 0 : ℕ) }) := by
  induction body generalizing a n with
  | nil =>
    rw [paramsFrom_nil]
    refine ⟨fun ⟨p, hp, hge⟩ => ?_, fun _ => ?_⟩
    · rw [List.mem_singleton.mp hp] at hge
      omega
    · rw [show (([n] : List ℕ).getLastD 0 : ℕ) = n from rfl, ← hparam]
      rfl
  | cons c body ih =>
    have hrest : ∀ d ∈ body, isParamByte d = true := fun d hd => hbody d (List.mem_cons_of_mem c hd)
    have hc : (0x30 ≤ c ∧ c ≤ 0x39) ∨ c = 0x3b := of_decide_eq_true (hbody c List.mem_cons_self)
    by_cases hsemi : c = 0x3b
    · -- the number is closed and applied
      subst hsemi
      have hstep : (fbAnsiStep a 0x3b).1 = { fbAnsiApply a n with param := 0 } := by
        rw [fbAnsiStep, hstate, hparam]
        rfl
      rw [fbAnsiApply_eq] at hstep
      obtain ⟨hbad, hgood⟩ := ih (a := (fbAnsiStep a 0x3b).1) (n := 0) hrest
        (by rw [hstep]; exact hstate) (by rw [hstep]; rfl) (by omega) (by rw [hstep]; exact hover)
      rw [paramsFrom_semicolon]
      refine ⟨fun ⟨p, hp, hge⟩ => ?_, fun hall => ?_⟩
      · rcases List.mem_cons.mp hp with rfl | hp
        · omega
        · exact hbad ⟨p, hp, hge⟩
      · refine (hgood fun p hp => hall p (List.mem_cons_of_mem n hp)).trans ?_
        have hne : paramsFrom 0 body ≠ [] := List.cons_ne_nil _ _
        rw [List.dropLast_cons_of_ne_nil hne, List.foldl_cons, hstep, List.getLastD_cons]
        cases hps : paramsFrom 0 body with
        | nil => exact absurd hps hne
        | cons p ps => rfl
    · have hdigit := hc.resolve_right hsemi
      obtain ⟨hfit, hbig⟩ := fbAnsiStep_digit hstate hparam hover hdigit
      rw [paramsFrom_digit n hsemi]
      by_cases hlt : n * 10 + (c.toNat - 48) < 2 ^ 31
      · have hstep := hfit hlt
        obtain ⟨hbad, hgood⟩ := ih (a := (fbAnsiStep a c).1) (n := n * 10 + (c.toNat - 48)) hrest
          (by rw [hstep]; exact hstate) (by rw [hstep]) hlt (by rw [hstep]; exact hover)
        refine ⟨hbad, fun hall => (hgood hall).trans ?_⟩
        rw [hstep]
        rfl
      · have hover' := ansiRun_overflow (hbig (not_lt.mp hlt)) body
        refine ⟨fun _ => hover', fun hall => ?_⟩
        obtain ⟨p, hp, hle⟩ := exists_le_paramsFrom (n * 10 + (c.toNat - 48)) body
        exact absurd (hall p hp) (by omega)

/-! ## Streams -/

/-- The final byte of a sequence. -/
theorem fbAnsiStep_final (hstate : a.state = .csi) {n : ℕ} (hparam : a.param = n)
    (hc : isParamByte c = false) :
    (fbAnsiStep a c).1 =
      { a.setColors ((if c = 0x6d then [n] else []).foldl sgrApply a.colors) with
        state := .normal } := by
  obtain ⟨hdigit, hsemi⟩ := not_or.mp (of_decide_eq_false hc)
  rw [fbAnsiStep, hstate]
  dsimp only
  rw [if_neg hdigit, if_neg hsemi]
  by_cases hm : c = 0x6d
  · rw [if_pos hm, if_pos hm, hparam, fbAnsiApply_eq]
    rfl
  · rw [if_neg hm, if_neg hm]
    rfl

theorem fbAnsiStep_normal (hstate : a.state = .normal) (c : BitVec 8) :
    (fbAnsiStep a c).1 = if c = 0x1b then { a with state := .esc } else a := by
  rw [fbAnsiStep, hstate]
  dsimp only
  split_ifs <;> rfl

theorem fbAnsiStep_esc (hstate : a.state = .esc) (c : BitVec 8) :
    (fbAnsiStep a c).1 =
      if c = 0x5b then { a with state := .csi, param := 0 } else { a with state := .normal } := by
  rw [fbAnsiStep, hstate]
  dsimp only
  split_ifs <;> rfl

/-- Two bytes after a normal state. -/
theorem ansiRun_esc (hstate : a.state = .normal) (d : BitVec 8) (rest : List (BitVec 8)) :
    ansiRun a (0x1b :: d :: rest) =
      ansiRun (if d = 0x5b then { a with state := .csi, param := 0 } else a) rest := by
  change ansiRun (fbAnsiStep (fbAnsiStep a 0x1b).1 d).1 rest = _
  have hesc : (fbAnsiStep a 0x1b).1 = { a with state := .esc } := by
    rw [fbAnsiStep_normal hstate, if_pos rfl]
  rw [hesc, fbAnsiStep_esc rfl, ← hstate]

/-- A whole sequence, from `ESC [` to its final byte, and what comes after it. -/
theorem ansiRun_sequence (hstate : a.state = .normal) (hover : a.overflow = false)
    (rest : List (BitVec 8)) {s : CsiSequence}
    (hs : s = ⟨rest.takeWhile isParamByte, (rest.dropWhile isParamByte).head?⟩) :
    ((∃ p ∈ s.params, 2 ^ 31 ≤ p) → (ansiRun a (0x1b :: 0x5b :: rest)).overflow = true) ∧
    ((∀ p ∈ s.params, p < 2 ^ 31) →
      ∃ a', ansiRun a (0x1b :: 0x5b :: rest) = ansiRun a' (rest.dropWhile isParamByte).tail ∧
        (a'.state = .normal ∨ (rest.dropWhile isParamByte).tail = []) ∧ a'.overflow = false ∧
        a'.colors = s.codes.foldl sgrApply a.colors) := by
  have hsplit : ansiRun a (0x1b :: 0x5b :: rest) =
      ansiRun (ansiRun { a with state := .csi, param := 0 } (rest.takeWhile isParamByte))
        (rest.dropWhile isParamByte) := by
    rw [ansiRun_esc hstate, if_pos rfl, ← ansiRun_append, List.takeWhile_append_dropWhile]
  have hparams : s.params = paramsFrom 0 (rest.takeWhile isParamByte) := by
    rw [paramsFrom_zero, hs]
    rfl
  obtain ⟨hbad, hgood⟩ := ansiRun_body (a := { a with state := .csi, param := 0 }) (n := 0)
    (fun c hc => List.mem_takeWhile_imp hc) rfl rfl (by decide) hover
  rw [hparams, hsplit]
  refine ⟨fun h => ansiRun_overflow (hbad h) _, fun h => ?_⟩
  have hne : paramsFrom 0 (rest.takeWhile isParamByte) ≠ [] := List.cons_ne_nil _ _
  rw [hgood h, CsiSequence.codes, hparams, hs]
  generalize paramsFrom 0 (rest.takeWhile isParamByte) = ps at hne
  cases hdrop : rest.dropWhile isParamByte with
  | nil =>
    -- the stream ends inside of the sequence
    exact ⟨_, rfl, Or.inr rfl, hover, rfl⟩
  | cons c rest' =>
    have hc : isParamByte c = false := by
      have hhead := List.head?_dropWhile_not isParamByte rest
      rw [hdrop] at hhead
      simpa using hhead
    refine ⟨(fbAnsiStep _ c).1, rfl, Or.inl ?_, ?_, ?_⟩
    all_goals rw [fbAnsiStep_final rfl rfl hc]
    · exact hover
    · have hfinal : (⟨rest.takeWhile isParamByte, (c :: rest').head?⟩ : CsiSequence).final =
          some 0x6d ↔ c = 0x6d := Option.some_inj
      by_cases hm : c = 0x6d
      · rw [if_pos hm, if_pos (hfinal.mpr hm)]
        conv_rhs => rw [← List.dropLast_append_getLast hne, List.foldl_append]
        rw [List.getLastD_eq_getLast?, List.getLast?_eq_some_getLast hne]
        rfl
      · rw [if_neg hm, if_neg fun h => hm (hfinal.mp h)]
        rfl

/-- A stream, from a normal state on. -/
theorem ansiRun_stream (hstate : a.state = .normal) (hover : a.overflow = false)
    (bytes : List (BitVec 8)) :
    ((∃ s ∈ csiSequences bytes, ∃ p ∈ s.params, 2 ^ 31 ≤ p) →
      (ansiRun a bytes).overflow = true) ∧
    ((∀ s ∈ csiSequences bytes, ∀ p ∈ s.params, p < 2 ^ 31) →
      (ansiRun a bytes).overflow = false ∧
        (ansiRun a bytes).colors =
          ((csiSequences bytes).flatMap CsiSequence.codes).foldl sgrApply a.colors) := by
  induction bytes using csiSequences.induct generalizing a with
  | case1 =>
    rw [csiSequences]
    exact ⟨by simp, fun _ => ⟨hover, rfl⟩⟩
  | case2 =>
    rw [csiSequences]
    refine ⟨by simp, fun _ => ?_⟩
    change (fbAnsiStep a 0x1b).1.overflow = false ∧ (fbAnsiStep a 0x1b).1.colors = _
    rw [fbAnsiStep_normal hstate]
    exact ⟨hover, rfl⟩
  | case3 rest ih =>
    have hseqs : csiSequences (0x1b :: 0x5b :: rest) =
        ⟨rest.takeWhile isParamByte, (rest.dropWhile isParamByte).head?⟩ ::
          csiSequences (rest.dropWhile isParamByte).tail := by
      rw [csiSequences, if_pos rfl, if_pos rfl]
    obtain ⟨hbad, hgood⟩ := ansiRun_sequence hstate hover rest rfl
    rw [hseqs]
    refine ⟨?_, fun hall => ?_⟩
    · rintro ⟨s, hs, p, hp, hge⟩
      by_cases hfirst : ∃ p ∈ CsiSequence.params
          ⟨rest.takeWhile isParamByte, (rest.dropWhile isParamByte).head?⟩, 2 ^ 31 ≤ p
      · exact hbad hfirst
      · rcases List.mem_cons.mp hs with rfl | hs
        · exact absurd ⟨p, hp, hge⟩ hfirst
        · obtain ⟨a', hrun, hnormal | hnil, hover', -⟩ :=
            hgood fun p hp => not_le.mp fun hge => hfirst ⟨p, hp, hge⟩
          · rw [hrun]
            exact (ih hnormal hover').1 ⟨s, hs, p, hp, hge⟩
          · rw [hnil, csiSequences] at hs
            cases hs
    · obtain ⟨a', hrun, hnormal, hover', hcolors⟩ := hgood (hall _ List.mem_cons_self)
      rw [hrun, List.flatMap_cons, List.foldl_append, ← hcolors]
      rcases hnormal with hnormal | hnil
      · exact (ih hnormal hover').2 fun s hs => hall s (List.mem_cons_of_mem _ hs)
      · rw [hnil, csiSequences]
        exact ⟨hover', rfl⟩
  | case4 d rest hd ih =>
    have hseqs : csiSequences (0x1b :: d :: rest) = csiSequences rest := by
      rw [csiSequences, if_pos rfl, if_neg hd]
    rw [hseqs, ansiRun_esc hstate, if_neg hd]
    exact ih hstate hover
  | case5 c rest hc ih =>
    have hseqs : csiSequences (c :: rest) = csiSequences rest := by
      rw [csiSequences.eq_def]
      exact if_neg hc
    have hstep : ansiRun a (c :: rest) = ansiRun a rest := by
      change ansiRun (fbAnsiStep a c).1 rest = _
      rw [fbAnsiStep_normal hstate, if_neg hc]
    rw [hseqs, hstep]
    exact ih hstate hover

/-- An overflow in a part of the stream is one of the stream. -/
theorem ansiRun_take_overflow (bytes : List (BitVec 8)) (n : ℕ)
    (h : (ansiRun a bytes).overflow = false) : (ansiRun a (bytes.take n)).overflow = false := by
  rw [Bool.eq_false_iff]
  intro hover
  rw [← List.take_append_drop n bytes, ansiRun_append, ansiRun_overflow hover] at h
  cases h

end Parser

/-- For every stream of bytes printed after `fb_init`: the colours are at all times those of the
reading, and no value of `ansi_param` leaves the range of `int`, exactly when every parameter of the
stream is in that range. -/
theorem fb_follows_sgr_iff (fb : Framebuffer) (pixels : Word → BitVec 32)
    (bytes : List (BitVec 8)) :
    ((∀ n, (fbTerminalPrint (fbInit fb pixels) (bytes.take n)).ansi.colors =
        sgrColors (bytes.take n)) ∧
      (fbTerminalPrint (fbInit fb pixels) bytes).ansi.overflow = false) ↔
    ∀ s ∈ csiSequences bytes, ∀ p ∈ s.params, p < 2 ^ 31 := by
  have hansi : ∀ l, (fbTerminalPrint (fbInit fb pixels) l).ansi =
      ansiRun (fbInit fb pixels).ansi l := fbTerminalPrint_ansi _
  have hrun := ansiRun_stream (a := (fbInit fb pixels).ansi) rfl rfl
  simp only [hansi]
  constructor
  · rintro ⟨-, hover⟩ s hs p hp
    refine not_le.mp fun hge => ?_
    rw [(hrun bytes).1 ⟨s, hs, p, hp, hge⟩] at hover
    cases hover
  · intro hall
    have hover := ((hrun bytes).2 hall).1
    refine ⟨fun n => ?_, hover⟩
    -- no part of the stream has a larger parameter
    have hover' := ansiRun_take_overflow bytes n hover
    refine ((hrun (bytes.take n)).2 fun s hs p hp => not_le.mp fun hge => ?_).2
    rw [(hrun (bytes.take n)).1 ⟨s, hs, p, hp, hge⟩] at hover'
    cases hover'

/-- A screen of 640 by 480 pixels. -/
def vgaFramebuffer : Framebuffer where
  width := 640
  height := 480
  pitch := 2560
  four_dvd := by decide
  le_width := by decide
  width_le := by decide
  le_height := by decide
  size_lt := by decide

/-- `ESC [ 4294967327 m`. The parameter is `2 ^ 32 + 31`. -/
def hugeParam : List (BitVec 8) :=
  [0x1b, 0x5b, 0x34, 0x32, 0x39, 0x34, 0x39, 0x36, 0x37, 0x33, 0x32, 0x37, 0x6d]

/-- The parameter is no colour, but `ansi_param` overflows and the foreground becomes red. -/
theorem fb_overflow_sets_red :
    (fbTerminalPrint (fbInit vgaFramebuffer fun _ => 0) hugeParam).ansi.overflow = true ∧
    (fbTerminalPrint (fbInit vgaFramebuffer fun _ => 0) hugeParam).ansi.colors =
      (0x00AA0000, 0x00000000) ∧
    sgrColors hugeParam = (0x00FFFFFF, 0x00000000) := by
  have hansi := fbTerminalPrint_ansi (fbInit vgaFramebuffer fun _ => 0) hugeParam
  rw [hansi]
  refine ⟨by decide, by decide, ?_⟩
  have hseqs : csiSequences hugeParam =
      [⟨[0x34, 0x32, 0x39, 0x34, 0x39, 0x36, 0x37, 0x33, 0x32, 0x37], some 0x6d⟩] := by
    rw [hugeParam, csiSequences, if_pos rfl, if_pos rfl]
    have hrest : (List.dropWhile isParamByte ([0x34, 0x32, 0x39, 0x34, 0x39, 0x36, 0x37, 0x33, 0x32,
        0x37, 0x6d] : List (BitVec 8))).tail = [] := by decide
    rw [hrest, csiSequences]
    decide
  rw [sgrColors, hseqs]
  decide

end Pros
