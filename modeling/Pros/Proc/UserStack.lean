import Pros.Lib.PushDown
import Pros.Vmm.Spaces

/-!
# The initial user stack

Model of `elf_build_user_stack` in `kernel/src/proc/elf.c`. It fills a new page downwards, through
the direct map: the strings, a gap for the alignment, `AT_NULL`, the pointers of `envp` and `argv`
with their terminators, and `argc`. The page is mapped at the end. Nothing checks that the cursor
stays in the page.

`argv` and `envp` are the strings they point to, without the NULs. They lie outside of the free pages,
so filling the page does not change them.
-/

namespace Pros

/-! ## Model -/

/-- The arguments of a program. -/
structure UserArgs where
  argc : ℤ
  argv : List (List (BitVec 8))
  envp : List (List (BitVec 8))
  /-- `argv` has `argc` strings, none for a negative number. -/
  count : argv.length = argc.toNat
  /-- Strings end at their first NUL. -/
  nul : ∀ s ∈ argv ++ envp, (0 : BitVec 8) ∉ s

/-- The loops over the strings: each one is copied with its NUL, and its user address is kept. -/
def pushStrings (base pageVaddr : Word) : List (List (BitVec 8)) → PushDown → List Word × PushDown
  | [], p => ([], p)
  | s :: ss, p =>
    let p := p.push base (s ++ [0])
    let rest := pushStrings base pageVaddr ss p
    ((pageVaddr + p.cursor) :: rest.1, rest.2)

/-- The loops over the pointers, from the last one to the first. -/
def pushWords (base : Word) (ws : List Word) (p : PushDown) : PushDown :=
  ws.foldr (fun w p => p.pushWord base w) p

/-- `slots`: from `argc` through the two words of `AT_NULL`. -/
def UserArgs.slots (args : UserArgs) : Word :=
  1 + BitVec.ofInt 64 (args.argc + 1) + BitVec.ofNat 64 (args.envp.length + 1) + 2

/-- The boundary between the strings and the words: a multiple of 8, and a word less where `argc`
would not land at a multiple of 16. -/
def alignStack (args : UserArgs) (p : PushDown) : PushDown :=
  let p := { p with cursor := p.cursor &&& ~~~7 }
  if (p.cursor - args.slots * 8) % 16 ≠ 0 then p.move 8 else p

/-- The words, downwards. `AT_NULL` and the terminators are zero already, so the cursor is only
moved. -/
def pushTables (base : Word) (argc : ℤ) (argvVaddrs envpVaddrs : List Word) (p : PushDown) :
    PushDown :=
  let p := p.move 16
  let p := pushWords base envpVaddrs (p.move 8)
  let p := pushWords base argvVaddrs (p.move 8)
  p.pushWord base (BitVec.ofInt 64 argc)

/-- The page at `base`, filled for the user address `pageVaddr`. -/
def buildUserStack (base pageVaddr : Word) (args : UserArgs) (mem : ByteMem) : PushDown :=
  let p := PushDown.start mem base 4096
  let argvVaddrs := pushStrings base pageVaddr args.argv p
  let envpVaddrs := pushStrings base pageVaddr args.envp argvVaddrs.2
  pushTables base args.argc argvVaddrs.1 envpVaddrs.1 (alignStack args envpVaddrs.2)

/-- `elf_build_user_stack`: the stack pointer, or 0. -/
def elfBuildUserStack (arch : Arch) (hhdm : Word) (ctx : VmmContext) (stackTop : Word)
    (args : UserArgs) (v : Vmm) : Option (Word × Vmm) := do
  let (phys, pmm) ← pmmAlloc hhdm v.pmm 1
  if phys = 0 then return (0, { v with pmm })
  let pageVaddr := stackTop - pageSize
  let page := buildUserStack (pmmPhysToVirt hhdm phys) pageVaddr args pmm.mem
  let v := { v with pmm := { pmm with mem := page.mem } }
  let (r, v) ← vmmMapPage arch hhdm v (some ctx) pageVaddr phys
    (vmmUser ||| vmmWritable ||| vmmNoExecute)
  if r ≠ 0 then return (0, v)
  return (pageVaddr + page.cursor, v)

/-! ## Sizes -/

/-- The bytes of strings with their NULs. -/
def stringBytes (ss : List (List (BitVec 8))) : ℕ := (ss.map (·.length + 1)).sum

/-- The bytes between the strings and the words: down to a multiple of 8, and a word more where the
words would not start at a multiple of 16. -/
def UserArgs.padding (args : UserArgs) : ℕ :=
  let rest := 4096 - stringBytes (args.argv ++ args.envp)
  rest % 8 + if ((rest / 8 : ℕ) + args.argc + args.envp.length + 5) % 2 = 0 then 0 else 8

/-- The bytes of the page that are used. -/
def UserArgs.size (args : UserArgs) : ℕ :=
  stringBytes (args.argv ++ args.envp) + args.padding +
    8 * (args.argv.length + args.envp.length + 5)

/-- Everything fits into one page. -/
def UserArgs.Fits (args : UserArgs) : Prop := args.size ≤ 4096

instance (args : UserArgs) : Decidable args.Fits := inferInstanceAs (Decidable (_ ≤ _))

section

variable {base pageVaddr w : Word} {p : PushDown} {mem : ByteMem} {image : List (BitVec 8)} {ws : List Word}
variable {ss : List (List (BitVec 8))} {args : UserArgs}

theorem stringBytes_cons (s : List (BitVec 8)) (ss : List (List (BitVec 8))) :
    stringBytes (s :: ss) = s.length + 1 + stringBytes ss := by
  simp [stringBytes]

theorem stringBytes_append (ss ss' : List (List (BitVec 8))) :
    stringBytes (ss ++ ss') = stringBytes ss + stringBytes ss' := by
  simp [stringBytes]

theorem length_le_stringBytes (ss : List (List (BitVec 8))) : ss.length ≤ stringBytes ss := by
  induction ss with
  | nil => exact Nat.zero_le _
  | cons s ss ih =>
    rw [stringBytes_cons, List.length_cons]
    omega

/-! ## Strings -/

/-- The bytes of strings, as they stand in the page. -/
def stringImage : List (List (BitVec 8)) → List (BitVec 8)
  | [] => []
  | s :: ss => stringImage ss ++ (s ++ [0])

theorem length_stringImage (ss : List (List (BitVec 8))) :
    (stringImage ss).length = stringBytes ss := by
  induction ss with
  | nil => rfl
  | cons s ss ih =>
    simp only [stringImage, List.length_append, List.length_singleton, ih, stringBytes_cons]
    omega

/-- The offsets of strings that are pushed from offset `top` down. -/
def stringOffsets : ℕ → List (List (BitVec 8)) → List ℕ
  | _, [] => []
  | top, s :: ss => (top - (s.length + 1)) :: stringOffsets (top - (s.length + 1)) ss

/-- The user addresses of these strings. -/
def stringAddrs (pageVaddr : Word) (top : ℕ) (ss : List (List (BitVec 8))) : List Word :=
  (stringOffsets top ss).map fun off => pageVaddr + BitVec.ofNat 64 off

theorem length_stringAddrs (top : ℕ) (ss : List (List (BitVec 8))) :
    (stringAddrs pageVaddr top ss).length = ss.length := by
  rw [stringAddrs, List.length_map]
  induction ss generalizing top with
  | nil => rfl
  | cons s ss ih => rw [stringOffsets, List.length_cons, List.length_cons, ih]

/-- Strings that fit stand in the page, the first one highest. -/
theorem pushStrings_shows (pageVaddr : Word) (ss : List (List (BitVec 8)))
    (h : PushDown.Shows mem base 4096 p image)
    (hfit : stringBytes ss + image.length ≤ 4096) :
    PushDown.Shows mem base 4096 (pushStrings base pageVaddr ss p).2 (stringImage ss ++ image) ∧
      (pushStrings base pageVaddr ss p).1 = stringAddrs pageVaddr (4096 - image.length) ss := by
  induction ss generalizing p image with
  | nil => exact ⟨h, rfl⟩
  | cons s ss ih =>
    rw [stringBytes_cons] at hfit
    have hlen : (s ++ [(0 : BitVec 8)]).length = s.length + 1 := by simp
    have hpush : PushDown.Shows mem base 4096 (p.push base (s ++ [0])) ((s ++ [0]) ++ image) :=
      h.push (by decide) (by omega)
    have hcursor : (p.push base (s ++ [0])).cursor =
        BitVec.ofNat 64 (4096 - (s ++ [0] ++ image).length) := by
      rw [← hpush.toNat_cursor, BitVec.ofNat_toNat, BitVec.setWidth_eq]
    obtain ⟨hshows, haddrs⟩ := ih hpush (by rw [List.length_append]; omega)
    have htop : 4096 - (s ++ [0] ++ image).length = 4096 - image.length - (s.length + 1) := by
      rw [List.length_append, hlen]
      omega
    refine ⟨?_, ?_⟩
    · rw [stringImage, List.append_assoc]
      exact hshows
    · rw [pushStrings, stringAddrs, stringOffsets, List.map_cons, ← htop, ← hcursor, haddrs]
      rfl

theorem length_pushStrings (ss : List (List (BitVec 8))) (p : PushDown) :
    (pushStrings base pageVaddr ss p).1.length = ss.length := by
  induction ss generalizing p with
  | nil => rfl
  | cons s ss ih => exact congrArg (· + 1) (ih _)

theorem mem_writes_pushStrings {x : Word × ℕ} (ss : List (List (BitVec 8))) (hx : x ∈ p.writes) :
    x ∈ (pushStrings base pageVaddr ss p).2.writes := by
  induction ss generalizing p with
  | nil => exact hx
  | cons s ss ih => exact ih (PushDown.mem_writes_push hx _)

/-- Of strings that do not fit, one is stored outside. -/
theorem pushStrings_outside (hcursor : p.cursor.toNat ≤ 4096)
    (hfit : p.cursor.toNat < stringBytes ss) :
    ∃ x ∈ (pushStrings base pageVaddr ss p).2.writes, ¬ PushDown.Inside base 4096 x := by
  induction ss generalizing p with
  | nil => exact absurd hfit (Nat.not_lt_zero _)
  | cons s ss ih =>
    rw [stringBytes_cons] at hfit
    have hlen : (s ++ [(0 : BitVec 8)]).length = s.length + 1 := by simp
    rcases Nat.lt_or_ge p.cursor.toNat (s.length + 1) with hlong | hshort
    · obtain ⟨x, hx, hout⟩ := PushDown.exists_outside_push (by decide) hcursor (s ++ [0])
        (by omega)
      exact ⟨x, mem_writes_pushStrings ss hx, hout⟩
    · have hpush := PushDown.toNat_cursor_push (p := p) base (s ++ [0]) (by omega)
      exact ih (by omega) (by omega)

/-! ## Words -/

theorem length_flatMap_wordBytes (ws : List Word) :
    (ws.flatMap PushDown.wordBytes).length = 8 * ws.length := by
  induction ws with
  | nil => rfl
  | cons w ws ih =>
    rw [List.flatMap_cons, List.length_append, PushDown.length_wordBytes, ih, List.length_cons]
    omega

/-- Words that fit stand in the page, the first one lowest. -/
theorem pushWords_shows (h : PushDown.Shows mem base 4096 p image) (ws : List Word)
    (hfit : 8 * ws.length + image.length ≤ 4096) :
    PushDown.Shows mem base 4096 (pushWords base ws p) (ws.flatMap PushDown.wordBytes ++ image) := by
  induction ws with
  | nil => exact h
  | cons w ws ih =>
    rw [List.length_cons] at hfit
    have hpush : PushDown.Shows mem base 4096 ((pushWords base ws p).push base (PushDown.wordBytes w))
        (PushDown.wordBytes w ++ (ws.flatMap PushDown.wordBytes ++ image)) := by
      refine (ih (by omega)).push (by decide) ?_
      rw [PushDown.length_wordBytes, List.length_append, length_flatMap_wordBytes]
      omega
    rw [← PushDown.pushWord_eq, ← List.append_assoc] at hpush
    exact hpush

theorem cursor_pushWords (base : Word) (ws : List Word) (p : PushDown) :
    (pushWords base ws p).cursor = p.cursor - BitVec.ofNat 64 (8 * ws.length) := by
  induction ws with
  | nil => simp [pushWords]
  | cons w ws ih =>
    show (pushWords base ws p).cursor - 8 = _
    rw [ih, List.length_cons]
    bv_omega

/-- The words of the stack. -/
theorem pushTables_shows (argc : ℤ) {argvVaddrs envpVaddrs : List Word}
    (h : PushDown.Shows mem base 4096 p image)
    (hfit : 8 * (argvVaddrs.length + envpVaddrs.length + 5) + image.length ≤ 4096) :
    PushDown.Shows mem base 4096 (pushTables base argc argvVaddrs envpVaddrs p)
      ((BitVec.ofInt 64 argc :: (argvVaddrs ++ 0 :: (envpVaddrs ++ [0, 0, 0]))).flatMap
        PushDown.wordBytes ++ image) := by
  have hnull := h.move (n := 16) (by omega)
  have henvp := pushWords_shows (hnull.move (n := 8) (by simp; omega)) envpVaddrs (by simp; omega)
  have hargv := pushWords_shows (henvp.move (n := 8) (by simp; omega)) argvVaddrs (by simp; omega)
  have hargc := pushWords_shows hargv [BitVec.ofInt 64 argc] (by simp; omega)
  have htwo : List.replicate 16 (0 : BitVec 8) = PushDown.wordBytes 0 ++ PushDown.wordBytes 0 := by
    decide
  rw [htwo, ← PushDown.wordBytes_zero] at hargc
  simp only [List.flatMap_cons, List.flatMap_append, List.flatMap_nil, List.append_assoc,
    List.append_nil] at hargc ⊢
  exact hargc

/-! ## The gap -/

/-- Rounding the cursor down is a gap. -/
theorem alignCursor_eq (p : PushDown) :
    { p with cursor := p.cursor &&& ~~~7 } = p.move (BitVec.ofNat 64 (p.cursor.toNat % 8)) := by
  have halign := Word.toNat_alignDown p.cursor (k := 3) (by decide)
  have heq : p.cursor &&& ~~~7 = p.cursor - BitVec.ofNat 64 (p.cursor.toNat % 8) := by
    apply BitVec.eq_of_toNat_eq
    refine halign.trans ?_
    bv_omega
  rw [heq]
  rfl

/-- When the word for the alignment of `argc` is needed. -/
theorem slots_parity (args : UserArgs) {c : Word} (hc : c.toNat % 8 = 0) :
    (c - args.slots * 8) % 16 ≠ 0 ↔
      ¬ ((c.toNat / 8 : ℕ) + args.argc + args.envp.length + 5) % 2 = 0 := by
  have hslots : args.slots.toNat % 2 = ((args.argc + args.envp.length + 5) % 2).toNat := by
    have hone : (1 : Word).toNat = 1 := rfl
    have htwo : (2 : Word).toNat = 2 := rfl
    simp only [UserArgs.slots, BitVec.toNat_add, BitVec.toNat_ofInt, BitVec.toNat_ofNat, hone, htwo]
    omega
  have hzero : (c - args.slots * 8) % 16 = 0 ↔ (c - args.slots * 8).toNat % 16 = 0 := by
    rw [← BitVec.toNat_inj, BitVec.toNat_umod]
    exact Iff.rfl
  rw [Ne, not_congr hzero]
  have hlt := args.slots.isLt
  have hmul : (args.slots * 8).toNat = args.slots.toNat * 8 % 2 ^ 64 := by
    rw [BitVec.toNat_mul]
    rfl
  rw [BitVec.toNat_sub, hmul]
  omega

theorem alignStack_eq (args : UserArgs)
    (hp : p.cursor.toNat = 4096 - stringBytes (args.argv ++ args.envp)) :
    alignStack args p = p.move (BitVec.ofNat 64 args.padding) := by
  have hcursor : (p.move (BitVec.ofNat 64 (p.cursor.toNat % 8))).cursor.toNat =
      p.cursor.toNat / 8 * 8 := by
    show (p.cursor - BitVec.ofNat 64 (p.cursor.toNat % 8)).toNat = _
    bv_omega
  have hparity := slots_parity args
    (c := (p.move (BitVec.ofNat 64 (p.cursor.toNat % 8))).cursor) (by omega)
  rw [hcursor, Nat.mul_div_cancel _ (by decide)] at hparity
  rw [alignStack, alignCursor_eq, UserArgs.padding, ← hp]
  simp only [hparity]
  by_cases heven : ((p.cursor.toNat / 8 : ℕ) + args.argc + args.envp.length + 5) % 2 = 0
  · rw [if_neg (not_not.mpr heven), if_pos heven, Nat.add_zero]
  · rw [if_pos heven, if_neg heven, BitVec.ofNat_add]
    simp only [PushDown.move, sub_sub]
    rfl

/-! ## The page -/

/-- The words from the stack pointer on. -/
def UserArgs.words (args : UserArgs) (pageVaddr : Word) : List Word :=
  BitVec.ofInt 64 args.argc :: (stringAddrs pageVaddr 4096 args.argv ++
    0 :: (stringAddrs pageVaddr (4096 - stringBytes args.argv) args.envp ++ [0, 0, 0]))

theorem length_words (args : UserArgs) (pageVaddr : Word) :
    (args.words pageVaddr).length = args.argv.length + args.envp.length + 5 := by
  simp only [UserArgs.words, List.length_cons, List.length_append, length_stringAddrs,
    List.length_nil]
  omega

/-- The bytes of the page from the stack pointer on. -/
def UserArgs.page (args : UserArgs) (pageVaddr : Word) : List (BitVec 8) :=
  (args.words pageVaddr).flatMap PushDown.wordBytes ++
    (List.replicate args.padding 0 ++ (stringImage args.envp ++ stringImage args.argv))

/-- The page, if everything fits. -/
theorem buildUserStack_shows (hfit : args.Fits) (mem : ByteMem) :
    PushDown.Shows mem base 4096 (buildUserStack base pageVaddr args mem) (args.page pageVaddr) := by
  have hsize : stringBytes (args.argv ++ args.envp) + args.padding +
    8 * (args.argv.length + args.envp.length + 5) ≤ 4096 := hfit
  have hstrings := hsize
  rw [stringBytes_append] at hstrings
  -- the strings
  have h₀ : PushDown.Shows mem base 4096 (PushDown.start mem base 4096) [] :=
    PushDown.shows_start mem base (by decide)
  obtain ⟨h₁, hargv⟩ := pushStrings_shows pageVaddr args.argv h₀ (by simp; omega)
  rw [List.append_nil] at h₁
  obtain ⟨h₂, henvp⟩ := pushStrings_shows pageVaddr args.envp h₁ (by rw [length_stringImage]; omega)
  rw [length_stringImage] at henvp
  have hlen : (stringImage args.envp ++ stringImage args.argv).length =
      stringBytes (args.argv ++ args.envp) := by
    rw [List.length_append, length_stringImage, length_stringImage, stringBytes_append, add_comm]
  -- the gap
  have h₃ := h₂.move (n := args.padding) (by omega)
  have hcursor := h₂.toNat_cursor
  rw [hlen] at hcursor
  rw [← alignStack_eq args hcursor] at h₃
  -- the words
  have hbuild : buildUserStack base pageVaddr args mem = pushTables base args.argc
      (stringAddrs pageVaddr 4096 args.argv)
      (stringAddrs pageVaddr (4096 - stringBytes args.argv) args.envp)
      (alignStack args (pushStrings base pageVaddr args.envp
        (pushStrings base pageVaddr args.argv (PushDown.start mem base 4096)).2).2) := by
    rw [← henvp, ← show _ = stringAddrs pageVaddr 4096 args.argv from hargv]
    rfl
  rw [hbuild]
  refine pushTables_shows args.argc h₃ ?_
  rw [length_stringAddrs, length_stringAddrs, List.length_append, List.length_replicate, hlen]
  omega

theorem cursor_pushTables (argc : ℤ) (argvVaddrs envpVaddrs : List Word) (p : PushDown) :
    (pushTables base argc argvVaddrs envpVaddrs p).cursor =
      p.cursor - BitVec.ofNat 64 (8 * (argvVaddrs.length + envpVaddrs.length + 5)) := by
  show (pushWords base argvVaddrs ((pushWords base envpVaddrs ((p.move 16).move 8)).move 8)).cursor -
    8 = _
  rw [cursor_pushWords]
  show (pushWords base envpVaddrs ((p.move 16).move 8)).cursor - 8 - _ - 8 = _
  rw [cursor_pushWords]
  show p.cursor - 16 - 8 - _ - 8 - _ - 8 = _
  have hsum : 8 * (argvVaddrs.length + envpVaddrs.length + 5) =
      16 + 8 + 8 * envpVaddrs.length + 8 + 8 * argvVaddrs.length + 8 := by omega
  rw [hsum]
  simp only [BitVec.ofNat_add, sub_sub, add_assoc]
  rfl

theorem mem_writes_pushWords {x : Word × ℕ} (hx : x ∈ p.writes) (ws : List Word) :
    x ∈ (pushWords base ws p).writes := by
  induction ws with
  | nil => exact hx
  | cons w ws ih => exact List.mem_cons_of_mem _ ih

/-- Later writes do not remove a write. -/
theorem mem_writes_pushTables {x : Word × ℕ} (hx : x ∈ p.writes) (argvVaddrs envpVaddrs : List Word) :
    x ∈ (pushTables base args.argc argvVaddrs envpVaddrs (alignStack args p)).writes := by
  have halign : (alignStack args p).writes = p.writes := by
    rw [alignStack]
    split <;> rfl
  have henvp : x ∈ (pushWords base envpVaddrs (((alignStack args p).move 16).move 8)).writes :=
    mem_writes_pushWords (halign ▸ hx) _
  exact List.mem_cons_of_mem _ (mem_writes_pushWords
    (p := (pushWords base envpVaddrs (((alignStack args p).move 16).move 8)).move 8) henvp _)

/-- The last write is that of `argc`. -/
theorem argc_mem_writes (argc : ℤ) (argvVaddrs envpVaddrs : List Word) (p : PushDown) :
    (base + (pushTables base argc argvVaddrs envpVaddrs p).cursor, 8) ∈
      (pushTables base argc argvVaddrs envpVaddrs p).writes :=
  List.mem_cons_self

theorem padding_le (args : UserArgs) : args.padding ≤ 15 := by
  rw [UserArgs.padding]
  split <;> omega

/-- If not everything fits, a string is stored outside of the page, or `argc` is. -/
theorem exists_outside_buildUserStack (base pageVaddr : Word) (hfit : ¬ args.Fits) (mem : ByteMem) :
    ∃ x ∈ (buildUserStack base pageVaddr args mem).writes, ¬ PushDown.Inside base 4096 x := by
  have hsize : 4096 < stringBytes (args.argv ++ args.envp) + args.padding +
    8 * (args.argv.length + args.envp.length + 5) := Nat.lt_of_not_le hfit
  have hstart : PushDown.Shows mem base 4096 (PushDown.start mem base 4096) [] :=
    PushDown.shows_start mem base (by decide)
  have hcursor₀ : (PushDown.start mem base 4096).cursor.toNat = 4096 := rfl
  rcases Nat.lt_or_ge 4096 (stringBytes args.argv) with hargv | hargv
  · obtain ⟨x, hx, hout⟩ := pushStrings_outside
      hcursor₀.le (hcursor₀ ▸ hargv)
    exact ⟨x, mem_writes_pushTables (mem_writes_pushStrings _ hx) _ _, hout⟩
  obtain ⟨h₁, -⟩ := pushStrings_shows pageVaddr args.argv hstart (by simpa using hargv)
  have hcursor₁ := h₁.toNat_cursor
  rw [List.append_nil, length_stringImage] at hcursor₁
  rcases Nat.lt_or_ge (4096 - stringBytes args.argv) (stringBytes args.envp) with henvp | henvp
  · obtain ⟨x, hx, hout⟩ := pushStrings_outside
      (hcursor₁.le.trans (Nat.sub_le _ _)) (hcursor₁ ▸ henvp)
    exact ⟨x, mem_writes_pushTables hx _ _, hout⟩
  -- the strings fit, so they are not many, and `argc` lands just below the page
  obtain ⟨h₂, -⟩ := pushStrings_shows pageVaddr args.envp h₁ (by simp [length_stringImage]; omega)
  have hcursor₂ := h₂.toNat_cursor
  rw [List.append_nil, List.length_append, length_stringImage, length_stringImage] at hcursor₂
  rw [stringBytes_append] at hsize
  refine ⟨_, argc_mem_writes _ _ _ _, fun hinside => ?_⟩
  have hargc := hinside.toNat_lt (by decide)
  have hcount := length_le_stringBytes (args.argv ++ args.envp)
  rw [List.length_append, stringBytes_append] at hcount
  have hpad := padding_le args
  rw [cursor_pushTables, alignStack_eq args (by rw [stringBytes_append]; omega),
    length_pushStrings, length_pushStrings, PushDown.move, sub_sub, ← BitVec.ofNat_add,
    BitVec.toNat_sub, BitVec.toNat_ofNat] at hargc
  omega

end

/-! ## The call -/

variable {arch : Arch} {hhdm stackTop : Word} {free : List Word} {v : Vmm} {ctx : VmmContext}
variable {args : UserArgs}

/-- Without a free page the call returns 0. -/
theorem elfBuildUserStack_of_nil (hh : HhdmOk hhdm) (hlist : FreeList hhdm v.pmm []) :
    elfBuildUserStack arch hhdm ctx stackTop args v = some (0, v) := by
  rcases hlist.alloc_one hh with ⟨-, hnone⟩ | ⟨p, ps, s', hps, -⟩
  · rw [elfBuildUserStack, hnone]
    rfl
  · cases hps

/-- The call stores bytes only into the page that it allocated, and returns 0 where not everything
fits, exactly when everything fits or there is no page. -/
theorem user_stack_stays_in_page_iff (arch : Arch) (ctx : VmmContext) (stackTop : Word)
    (args : UserArgs) (hh : HhdmOk hhdm) (hlist : FreeList hhdm v.pmm free) :
    ((∀ phys pmm, pmmAlloc hhdm v.pmm 1 = some (phys, pmm) → phys ≠ 0 →
        ∀ x ∈ (buildUserStack (pmmPhysToVirt hhdm phys) (stackTop - pageSize) args pmm.mem).writes,
          PushDown.Inside (pmmPhysToVirt hhdm phys) 4096 x) ∧
      (¬ args.Fits → ∃ v', elfBuildUserStack arch hhdm ctx stackTop args v = some (0, v'))) ↔
    args.Fits ∨ free = [] := by
  constructor
  · rintro ⟨hinside, -⟩
    by_contra hnot
    obtain ⟨hfit, hfree⟩ := not_or.mp hnot
    rcases hlist.alloc_one hh with ⟨hnil, -⟩ | ⟨p, ps, s', rfl, hsome, -⟩
    · exact hfree hnil
    · have hp := hlist.page p List.mem_cons_self
      obtain ⟨x, hx, hout⟩ := exists_outside_buildUserStack (pmmPhysToVirt hhdm p)
        (stackTop - pageSize) hfit s'.mem
      exact hout (hinside p s' hsome hp.ne_zero x hx)
  · rintro (hfit | rfl)
    · exact ⟨fun phys pmm _ _ => (buildUserStack_shows hfit pmm.mem).inside,
        fun hnot => absurd hfit hnot⟩
    · refine ⟨fun phys pmm hcall hne => ?_, fun _ => ⟨v, elfBuildUserStack_of_nil hh hlist⟩⟩
      rcases hlist.alloc_one hh with ⟨-, hnone⟩ | ⟨p, ps, s', hps, -⟩
      · obtain ⟨rfl, -⟩ := Prod.mk.inj (Option.some.inj (hnone.symm.trans hcall))
        exact absurd rfl hne
      · cases hps

/-- `ls /` with one variable in the environment. -/
def lsArgs : UserArgs where
  argc := 2
  argv := [[0x6c, 0x73], [0x2f]]
  envp := [[0x50]]
  count := rfl
  nul := by decide

theorem onePage_list : FreeList exampleHhdm (freePmm exampleHhdm [0x1000]) [0x1000] := by
  refine freePmm_list exampleHhdm_ok (fun p hp => ?_) (by decide)
  rw [List.mem_singleton.mp hp]
  exact ⟨by decide, by decide, by decide⟩

/-- The three strings and the words below them are stored into the page. -/
theorem user_stack_stays_in_page_iff_ls :
    FreeList exampleHhdm (freePmm exampleHhdm [0x1000]) [0x1000] ∧ lsArgs.Fits ∧
    ∃ phys pmm, pmmAlloc exampleHhdm (freePmm exampleHhdm [0x1000]) 1 = some (phys, pmm) ∧
      phys ≠ 0 ∧ ∀ x ∈ (buildUserStack (pmmPhysToVirt exampleHhdm phys) (0x800000 - pageSize)
        lsArgs pmm.mem).writes, PushDown.Inside (pmmPhysToVirt exampleHhdm phys) 4096 x := by
  have hfit : lsArgs.Fits := by decide
  have hinside := ((user_stack_stays_in_page_iff
    (v := ⟨freePmm exampleHhdm [0x1000], none, none, 0, 0⟩) .x86_64 (newContext exampleHhdm 0)
    0x800000 lsArgs exampleHhdm_ok onePage_list).mpr (Or.inl hfit)).1
  rcases onePage_list.alloc_one exampleHhdm_ok with ⟨hnil, -⟩ | ⟨p, ps, s', hps, hsome, -⟩
  · cases hnil
  obtain ⟨rfl, -⟩ := List.cons.inj hps
  exact ⟨onePage_list, hfit, _, s', hsome, by decide, hinside _ s' hsome (by decide)⟩

/-- `argc = 1` with one string of 4096 characters, which needs 4097 bytes. -/
def oversizedArgs : UserArgs where
  argc := 1
  argv := [List.replicate 4096 0x41]
  envp := []
  count := rfl
  nul s hs := by
    rw [List.append_nil, List.mem_singleton] at hs
    rw [hs, List.mem_replicate]
    decide

/-- The string does not fit into the page, and one byte of it is stored before the page. -/
theorem user_stack_writes_before_page :
    ∃ phys pmm, pmmAlloc exampleHhdm (freePmm exampleHhdm [0x1000]) 1 = some (phys, pmm) ∧
      phys ≠ 0 ∧ ∃ x ∈ (buildUserStack (pmmPhysToVirt exampleHhdm phys) (0x800000 - pageSize)
        oversizedArgs pmm.mem).writes, ¬ PushDown.Inside (pmmPhysToVirt exampleHhdm phys) 4096 x := by
  rcases onePage_list.alloc_one exampleHhdm_ok with ⟨hnil, -⟩ | ⟨p, ps, s', hps, hsome, -⟩
  · cases hnil
  have hfit : ¬ oversizedArgs.Fits := by
    have hone : ∀ s, stringBytes ([s] ++ []) = s.length + 1 := by simp [stringBytes]
    have hbytes : stringBytes (oversizedArgs.argv ++ oversizedArgs.envp) = 4097 :=
      (hone (List.replicate 4096 0x41)).trans (by rw [List.length_replicate])
    rw [UserArgs.Fits, UserArgs.size, hbytes]
    omega
  obtain ⟨rfl, -⟩ := List.cons.inj hps
  exact ⟨_, s', hsome, by decide, exists_outside_buildUserStack _ _ hfit s'.mem⟩

end Pros
