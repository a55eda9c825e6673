import Pros.Lib.Align

/-!
# The framebuffer terminal

Model of `kernel/src/core/fb.c`: characters are drawn into the pixels of the framebuffer, and SGR
escape sequences set the colours. The static variables of the file are the fields of `FbTerminal`.

The framebuffer is an array of 32-bit pixels. Its pitch is a multiple of four bytes, so that moving
and clearing its bytes moves and clears whole pixels.
-/

namespace Pros

/-! ## Model -/

/-- `FONT_WIDTH` and `FONT_HEIGHT`. -/
abbrev fontWidth : Word := 8

@[inherit_doc fontWidth]
abbrev fontHeight : Word := 16

/-- The initialised part of `font_8x16`: the characters from `' '` to `'~'`. A glyph is its 16 bytes
one after the other, the top row first. -/
def fontGlyphs : List (BitVec 128) :=
  [
    0x00000000000000000000000000000000, 0x0000183C3C3C18181800181800000000,
    0x00006666662400000000000000000000, 0x00006C6CFE6C6CFE6C6C000000000000,
    0x00183E603C067C180000000000000000, 0x00000062660C18306646000000000000,
    0x0000386C3876DCCC7600000000000000, 0x00003030180000000000000000000000,
    0x00000C1830303030180C000000000000, 0x000030180C0C0C0C1830000000000000,
    0x000000663CFF3C660000000000000000, 0x00000018187E18180000000000000000,
    0x00000000000000181818300000000000, 0x00000000007E00000000000000000000,
    0x00000000000000181800000000000000, 0x0000060C183060C08000000000000000,
    0x00003E636B73633E0000000000000000, 0x000018381818187E0000000000000000,
    0x00003C660C18307E0000000000000000, 0x00007E0C180C663C0000000000000000,
    0x00000C1C3C6CFE0C0000000000000000, 0x00007E607C06663C0000000000000000,
    0x00003C607C66663C0000000000000000, 0x00007E060C1830300000000000000000,
    0x00003C663C66663C0000000000000000, 0x00003C663E060C380000000000000000,
    0x00000018180018180000000000000000, 0x00000018180018183000000000000000,
    0x00000C18306030180C00000000000000, 0x0000007E007E00000000000000000000,
    0x000030180C060C183000000000000000, 0x00003C660C1818001800000000000000,
    0x00003C666E6E603E0000000000000000, 0x0000183C66667E666666000000000000,
    0x00007C66667C66667C00000000000000, 0x00003C66606060663C00000000000000,
    0x0000786C6666666C7800000000000000, 0x00007E60607C60607E00000000000000,
    0x00007E60607C60606000000000000000, 0x00003C66606E66663E00000000000000,
    0x00006666667E66666600000000000000, 0x00003E18181818183E00000000000000,
    0x00001E0C0C0C0C6C3800000000000000, 0x0000666C7870786C6600000000000000,
    0x00006060606060607E00000000000000, 0x000063777F6B63636300000000000000,
    0x000066767E7E6E666600000000000000, 0x00003C66666666663C00000000000000,
    0x00007C66667C60606000000000000000, 0x00003C666666663C0E00000000000000,
    0x00007C66667C786C6600000000000000, 0x00003C66301C06663C00000000000000,
    0x00007E18181818181800000000000000, 0x00006666666666663C00000000000000,
    0x000066666666663C1800000000000000, 0x00006363636B7F776300000000000000,
    0x000066663C183C666600000000000000, 0x00006666663C18181800000000000000,
    0x00007E060C1830607E00000000000000, 0x00003C30303030303C00000000000000,
    0x00006030180C06030100000000000000, 0x00003C0C0C0C0C0C3C00000000000000,
    0x00183C66000000000000000000000000, 0x000000000000000000FF000000000000,
    0x000030180C0000000000000000000000, 0x000000003C063E663B00000000000000,
    0x000060607C6666667C00000000000000, 0x000000003C6660663C00000000000000,
    0x000006063E6666663E00000000000000, 0x000000003C667E603C00000000000000,
    0x00001C307C3030303000000000000000, 0x000000003E66663E063C000000000000,
    0x000060606C7666666600000000000000, 0x00001800381818183E00000000000000,
    0x00000C001C0C0C0C0C6C380000000000, 0x00006060666C786C6600000000000000,
    0x00003818181818183E00000000000000, 0x00000000667F7F6B6300000000000000,
    0x000000007C6666666600000000000000, 0x000000003C6666663C00000000000000,
    0x000000007C66667C6060000000000000, 0x000000003E66663E0606000000000000,
    0x000000006E7260606000000000000000, 0x000000003E603C067C00000000000000,
    0x000018187E1818180E00000000000000, 0x00000000666666663E00000000000000,
    0x000000006666663C1800000000000000, 0x00000000636B7F3E3600000000000000,
    0x00000000663C183C6600000000000000, 0x000000006666663E063C000000000000,
    0x000000007E0C18307E00000000000000, 0x00000E18187018180E00000000000000,
    0x00001818180018181800000000000000, 0x00007018180E18187000000000000000,
    0x00003B6E000000000000000000000000]

/-- `font_8x16[c][row]`. -/
def font8x16 (c : BitVec 8) (row : ℕ) : BitVec 8 :=
  if c < 0x20 then 0
  else (fontGlyphs.getD (c.toNat - 0x20) 0).extractLsb' (8 * (15 - row)) 8

/-- `struct limine_framebuffer`: what the terminal uses of it. There is room for a character. -/
structure Framebuffer where
  width : Word
  height : Word
  pitch : Word
  four_dvd : 4 ∣ pitch.toNat
  le_width : 8 ≤ width.toNat
  width_le : width.toNat ≤ pitch.toNat / 4
  le_height : 16 ≤ height.toNat
  size_lt : pitch.toNat * height.toNat < 2 ^ 64

/-- `enum fb_ansi_state`. -/
inductive FbAnsiState
  | normal
  | esc
  | csi
  deriving DecidableEq, Repr

/-- The variables of the parser. `overflow` is not a variable of the source: it tells whether a value
of `ansi_param` was computed that an `int` cannot hold. -/
structure FbAnsi where
  state : FbAnsiState
  param : ℤ
  fgColor : BitVec 32
  bgColor : BitVec 32
  overflow : Bool
  deriving DecidableEq, Repr

/-- The variables of the terminal. `scrolls` is not a variable of the source: it counts how often the
screen was scrolled. -/
structure FbTerminal where
  fb : Framebuffer
  pixels : Word → BitVec 32
  ansi : FbAnsi
  cursorX : Word
  cursorY : Word
  scrolls : ℕ

/-- `fb_ansi_color`. -/
def fbAnsiColor (code : ℤ) : BitVec 32 :=
  if code = 30 ∨ code = 40 then 0x00000000
  else if code = 31 ∨ code = 41 then 0x00AA0000
  else if code = 32 ∨ code = 42 then 0x0000AA00
  else if code = 33 ∨ code = 43 then 0x00AA5500
  else if code = 34 ∨ code = 44 then 0x000000AA
  else if code = 35 ∨ code = 45 then 0x00AA00AA
  else if code = 36 ∨ code = 46 then 0x0000AAAA
  else if code = 37 ∨ code = 47 then 0x00AAAAAA
  else if code = 90 ∨ code = 100 then 0x00555555
  else if code = 91 ∨ code = 101 then 0x00FF5555
  else if code = 92 ∨ code = 102 then 0x0055FF55
  else if code = 93 ∨ code = 103 then 0x00FFFF55
  else if code = 94 ∨ code = 104 then 0x005555FF
  else if code = 95 ∨ code = 105 then 0x00FF55FF
  else if code = 96 ∨ code = 106 then 0x0055FFFF
  else 0x00FFFFFF

/-- `fb_ansi_apply`. -/
def fbAnsiApply (a : FbAnsi) (code : ℤ) : FbAnsi :=
  if code = 0 then { a with fgColor := 0x00FFFFFF, bgColor := 0x00000000 }
  else if 30 ≤ code ∧ code ≤ 37 then { a with fgColor := fbAnsiColor code }
  else if 90 ≤ code ∧ code ≤ 97 then { a with fgColor := fbAnsiColor code }
  else if 40 ≤ code ∧ code ≤ 47 then { a with bgColor := fbAnsiColor code }
  else if 100 ≤ code ∧ code ≤ 107 then { a with bgColor := fbAnsiColor code }
  else a

/-- `ansi_param * 10 + (c - '0')`. The sum is an `int`, and is cut to 32 bits. -/
def fbAnsiDigit (a : FbAnsi) (c : BitVec 8) : FbAnsi :=
  let sum := a.param * 10 + (c.toNat - 48)
  { a with param := Int.bmod sum (2 ^ 32), overflow := a.overflow || decide (2 ^ 31 ≤ sum) }

/-- The switch of `fb_terminal_print_char`: the parser after the byte, and whether the byte goes on to
be drawn. -/
def fbAnsiStep (a : FbAnsi) (c : BitVec 8) : FbAnsi × Bool :=
  match a.state with
  | .normal => if c = 0x1b then ({ a with state := .esc }, false) else (a, true)
  | .esc =>
    if c = 0x5b then ({ a with state := .csi, param := 0 }, false)
    else ({ a with state := .normal }, false)
  | .csi =>
    if 0x30 ≤ c ∧ c ≤ 0x39 then (fbAnsiDigit a c, false)
    else if c = 0x3b then ({ fbAnsiApply a a.param with param := 0 }, false)
    else if c = 0x6d then ({ fbAnsiApply a a.param with state := .normal }, false)
    else ({ a with state := .normal }, false)

/-- `fb_put_pixel`. -/
def fbPutPixel (fb : Framebuffer) (pixels : Word → BitVec 32) (x y : Word) (color : BitVec 32) :
    Word → BitVec 32 :=
  if x ≥ fb.width ∨ y ≥ fb.height then pixels
  else Function.update pixels (y * (fb.pitch / 4) + x) color

/-- The body of the loops of `fb_draw_char`: one pixel of the glyph. -/
def fbDrawPixel (fb : Framebuffer) (x y : Word) (fgColor bgColor : BitVec 32) (byte : BitVec 8)
    (pixels : Word → BitVec 32) (col : ℕ) : Word → BitVec 32 :=
  if byte.getLsbD (7 - col) then fbPutPixel fb pixels (x + BitVec.ofNat 64 col) y fgColor
  else if bgColor ≠ 0 then fbPutPixel fb pixels (x + BitVec.ofNat 64 col) y bgColor
  else pixels

/-- The inner loop of `fb_draw_char`, for one row of the glyph. -/
def fbDrawRow (fb : Framebuffer) (x y : Word) (fgColor bgColor : BitVec 32) (byte : BitVec 8)
    (cols : ℕ) (pixels : Word → BitVec 32) : Word → BitVec 32 :=
  (List.range cols).foldl (fbDrawPixel fb x y fgColor bgColor byte) pixels

/-- The outer loop of `fb_draw_char`. -/
def fbDrawRows (fb : Framebuffer) (x y : Word) (c : BitVec 8) (fgColor bgColor : BitVec 32)
    (rows : ℕ) (pixels : Word → BitVec 32) : Word → BitVec 32 :=
  (List.range rows).foldl (fun pixels row =>
    fbDrawRow fb x (y + BitVec.ofNat 64 row) fgColor bgColor (font8x16 c row) fontWidth.toNat
      pixels) pixels

/-- `fb_draw_char`. -/
def fbDrawChar (fb : Framebuffer) (x y : Word) (c : BitVec 8) (fgColor bgColor : BitVec 32)
    (pixels : Word → BitVec 32) : Word → BitVec 32 :=
  if c ≥ 128 then pixels
  else fbDrawRows fb x y c fgColor bgColor fontHeight.toNat pixels

/-- `fb_init`: `fb_clear` with black, while the static variables have their initial values. -/
def fbInit (fb : Framebuffer) (pixels : Word → BitVec 32) : FbTerminal where
  fb := fb
  pixels := fun i => if i < fb.pitch / 4 * fb.height then 0x00000000 else pixels i
  ansi :=
    { state := .normal, param := 0, fgColor := 0x00FFFFFF, bgColor := 0x00000000,
      overflow := false }
  cursorX := 0
  cursorY := 0
  scrolls := 0

/-- `terminal_scroll`: a `memmove` and a `memset`, in pixels. -/
def terminalScroll (t : FbTerminal) : FbTerminal :=
  let lineBytes := fontHeight * t.fb.pitch
  let bytesToCopy := (t.fb.height - fontHeight) * t.fb.pitch
  let moved : Word → BitVec 32 := fun i =>
    if i < bytesToCopy / 4 then t.pixels (i + lineBytes / 4) else t.pixels i
  let startByteOffset := (t.fb.height - fontHeight) * t.fb.pitch
  let bottomStripBytes := fontHeight * t.fb.pitch
  { t with
    pixels := fun i =>
      if startByteOffset / 4 ≤ i ∧ i < startByteOffset / 4 + bottomStripBytes / 4 then 0 else moved i
    cursorY := t.fb.height - fontHeight
    scrolls := t.scrolls + 1 }

/-- The newline, or the character and the wrap after it. -/
def FbTerminal.put (t : FbTerminal) (c : BitVec 8) : FbTerminal :=
  if c = 0x0a then { t with cursorX := 0, cursorY := t.cursorY + fontHeight }
  else
    let pixels := fbDrawChar t.fb t.cursorX t.cursorY c t.ansi.fgColor t.ansi.bgColor t.pixels
    let cursorX := t.cursorX + fontWidth
    if cursorX + fontWidth > t.fb.width then
      { t with pixels, cursorX := 0, cursorY := t.cursorY + fontHeight }
    else { t with pixels, cursorX }

/-- `fb_terminal_print_char`. -/
def fbTerminalPrintChar (t : FbTerminal) (c : BitVec 8) : FbTerminal :=
  let step := fbAnsiStep t.ansi c
  let t := { t with ansi := step.1 }
  if step.2 = false then t
  else
    let t := t.put c
    if t.cursorY + fontHeight > t.fb.height then terminalScroll t else t

/-- The bytes are printed one after the other. -/
def fbTerminalPrint (t : FbTerminal) (bytes : List (BitVec 8)) : FbTerminal :=
  bytes.foldl fbTerminalPrintChar t

/-! ## Pixels -/

namespace Framebuffer

variable (fb : Framebuffer)

/-- The index of a pixel. -/
def index (x y : ℕ) : Word := BitVec.ofNat 64 (y * (fb.pitch.toNat / 4) + x)

/-- The pixel in column `x` and row `y`. -/
def pixel (pixels : Word → BitVec 32) (x y : ℕ) : BitVec 32 := pixels (fb.index x y)

theorem toNat_stride : (fb.pitch / 4).toNat = fb.pitch.toNat / 4 := BitVec.toNat_udiv

/-- The index that `fb_put_pixel` computes. -/
theorem index_toNat (x y : Word) : y * (fb.pitch / 4) + x = fb.index x.toNat y.toNat := by
  apply BitVec.eq_of_toNat_eq
  rw [index, BitVec.toNat_add, BitVec.toNat_mul, fb.toNat_stride, BitVec.toNat_ofNat,
    Nat.mod_add_mod]

variable {fb} {pixels : Word → BitVec 32} {x y x' y' : ℕ}

/-- The pixels of the screen lie inside of the memory. -/
theorem lt_size (hx : x < fb.width.toNat) (hy : y < fb.height.toNat) :
    y * (fb.pitch.toNat / 4) + x < fb.pitch.toNat / 4 * fb.height.toNat := by
  calc y * (fb.pitch.toNat / 4) + x < y * (fb.pitch.toNat / 4) + fb.pitch.toNat / 4 :=
        Nat.add_lt_add_left (hx.trans_le fb.width_le) _
    _ = (y + 1) * (fb.pitch.toNat / 4) := (Nat.succ_mul _ _).symm
    _ ≤ fb.height.toNat * (fb.pitch.toNat / 4) := Nat.mul_le_mul_right _ hy
    _ = fb.pitch.toNat / 4 * fb.height.toNat := Nat.mul_comm _ _

theorem size_le (fb : Framebuffer) :
    fb.pitch.toNat / 4 * fb.height.toNat ≤ fb.pitch.toNat * fb.height.toNat :=
  Nat.mul_le_mul_right _ (Nat.div_le_self _ _)

theorem toNat_index (hx : x < fb.width.toNat) (hy : y < fb.height.toNat) :
    (fb.index x y).toNat = y * (fb.pitch.toNat / 4) + x := by
  rw [index, BitVec.toNat_ofNat]
  exact Nat.mod_eq_of_lt ((lt_size hx hy).trans_le (fb.size_le.trans fb.size_lt.le))

/-- Different pixels of the screen have different indices. -/
theorem index_inj (hx : x < fb.width.toNat) (hy : y < fb.height.toNat) (hx' : x' < fb.width.toNat)
    (hy' : y' < fb.height.toNat) (h : fb.index x y = fb.index x' y') : x = x' ∧ y = y' := by
  have hnat := congrArg BitVec.toNat h
  rw [toNat_index hx hy, toNat_index hx' hy'] at hnat
  have hlt := hx.trans_le fb.width_le
  have hlt' := hx'.trans_le fb.width_le
  have hmod := congrArg (· % (fb.pitch.toNat / 4)) hnat
  have hdiv := congrArg (· / (fb.pitch.toNat / 4)) hnat
  have hpos : 0 < fb.pitch.toNat / 4 := Nat.zero_lt_of_lt hlt
  simp only [Nat.mul_add_mod_self_right, Nat.mod_eq_of_lt hlt, Nat.mod_eq_of_lt hlt'] at hmod
  simp only [Nat.mul_comm _ (fb.pitch.toNat / 4), Nat.mul_add_div hpos, Nat.div_eq_of_lt hlt,
    Nat.div_eq_of_lt hlt', Nat.add_zero] at hdiv
  exact ⟨hmod, hdiv⟩

end Framebuffer

section Draw

variable {fb : Framebuffer} {pixels : Word → BitVec 32} {x y : Word} {x' y' : ℕ}
variable {fgColor bgColor color : BitVec 32} {byte c : BitVec 8}
variable (hx' : x' < fb.width.toNat) (hy' : y' < fb.height.toNat)

include hx' hy'

theorem fbPutPixel_pixel :
    fb.pixel (fbPutPixel fb pixels x y color) x' y' =
      if x.toNat = x' ∧ y.toNat = y' then color else fb.pixel pixels x' y' := by
  rw [fbPutPixel]
  by_cases hout : x ≥ fb.width ∨ y ≥ fb.height
  · have hne : ¬ (x.toNat = x' ∧ y.toNat = y') := by
      rintro ⟨rfl, rfl⟩
      rcases hout with hout | hout
      · exact absurd hx' (not_lt.mpr hout)
      · exact absurd hy' (not_lt.mpr hout)
    rw [if_pos hout, if_neg hne]
  · obtain ⟨hx, hy⟩ := not_or.mp hout
    have hx : x.toNat < fb.width.toNat := not_le.mp hx
    have hy : y.toNat < fb.height.toNat := not_le.mp hy
    rw [if_neg hout, fb.index_toNat, Framebuffer.pixel, Function.update_apply]
    refine if_congr ⟨fun h => ?_, ?_⟩ rfl rfl
    · exact Framebuffer.index_inj hx hy hx' hy' h.symm
    · rintro ⟨rfl, rfl⟩
      rfl

omit hx' hy' in
/-- What `fb_draw_char` makes of a pixel of the cell. -/
def ink (byte : BitVec 8) (col : ℕ) (fgColor bgColor old : BitVec 32) : BitVec 32 :=
  if byte.getLsbD (7 - col) then fgColor else if bgColor ≠ 0 then bgColor else old

theorem fbDrawPixel_pixel {col : ℕ} (hcol : (x + BitVec.ofNat 64 col).toNat = x.toNat + col) :
    fb.pixel (fbDrawPixel fb x y fgColor bgColor byte pixels col) x' y' =
      if x.toNat + col = x' ∧ y.toNat = y' then
        ink byte col fgColor bgColor (fb.pixel pixels x' y')
      else fb.pixel pixels x' y' := by
  rw [fbDrawPixel, ink]
  by_cases hbit : byte.getLsbD (7 - col)
  · rw [if_pos hbit, if_pos hbit, fbPutPixel_pixel hx' hy', hcol]
  · rw [if_neg hbit, if_neg hbit]
    by_cases hbg : bgColor ≠ 0
    · rw [if_pos hbg, if_pos hbg, fbPutPixel_pixel hx' hy', hcol]
    · rw [if_neg hbg, if_neg hbg, ite_self]

/-- The first `cols` pixels of a row of the glyph are drawn. -/
theorem fbDrawRow_pixel (hx : x.toNat + 8 < 2 ^ 64) {cols : ℕ} (hcols : cols ≤ 8) :
    fb.pixel (fbDrawRow fb x y fgColor bgColor byte cols pixels) x' y' =
      if (x.toNat ≤ x' ∧ x' < x.toNat + cols) ∧ y.toNat = y' then
        ink byte (x' - x.toNat) fgColor bgColor (fb.pixel pixels x' y')
      else fb.pixel pixels x' y' := by
  induction cols with
  | zero =>
    rw [if_neg (by omega)]
    rfl
  | succ cols ih =>
    have hcol : (x + BitVec.ofNat 64 cols).toNat = x.toNat + cols := by
      rw [BitVec.toNat_add, BitVec.toNat_ofNat]
      omega
    rw [fbDrawRow, List.range_succ, List.foldl_append, ← fbDrawRow, List.foldl_cons,
      List.foldl_nil, fbDrawPixel_pixel hx' hy' hcol, ih (by omega)]
    by_cases hplace : x.toNat + cols = x' ∧ y.toNat = y'
    · obtain ⟨rfl, rfl⟩ := hplace
      rw [if_pos ⟨rfl, rfl⟩, if_neg (by omega), if_pos (by omega), Nat.add_sub_cancel_left]
    · rw [if_neg hplace]
      exact if_congr (by omega) rfl rfl

/-- The first `rows` rows of the glyph are drawn. -/
theorem fbDrawRows_pixel (hx : x.toNat + 8 < 2 ^ 64) (hy : y.toNat + 16 < 2 ^ 64) {rows : ℕ}
    (hrows : rows ≤ 16) :
    fb.pixel (fbDrawRows fb x y c fgColor bgColor rows pixels) x' y' =
      if (x.toNat ≤ x' ∧ x' < x.toNat + 8) ∧ y.toNat ≤ y' ∧ y' < y.toNat + rows then
        ink (font8x16 c (y' - y.toNat)) (x' - x.toNat) fgColor bgColor (fb.pixel pixels x' y')
      else fb.pixel pixels x' y' := by
  induction rows with
  | zero =>
    rw [if_neg (by omega)]
    rfl
  | succ rows ih =>
    have hrow : (y + BitVec.ofNat 64 rows).toNat = y.toNat + rows := by
      rw [BitVec.toNat_add, BitVec.toNat_ofNat]
      omega
    rw [fbDrawRows, List.range_succ, List.foldl_append, ← fbDrawRows, List.foldl_cons,
      List.foldl_nil, fbDrawRow_pixel hx' hy' hx (show fontWidth.toNat ≤ 8 from le_rfl), hrow,
      ih (by omega), show fontWidth.toNat = 8 from rfl]
    by_cases hplace : (x.toNat ≤ x' ∧ x' < x.toNat + 8) ∧ y.toNat + rows = y'
    · obtain ⟨hcols, rfl⟩ := hplace
      rw [if_pos ⟨hcols, rfl⟩, if_neg (by omega), if_pos (by omega), Nat.add_sub_cancel_left]
    · rw [if_neg hplace]
      exact if_congr (by omega) rfl rfl

/-- A character is drawn into its cell and nowhere else. -/
theorem fbDrawChar_pixel (hx : x.toNat + 8 < 2 ^ 64) (hy : y.toNat + 16 < 2 ^ 64) :
    fb.pixel (fbDrawChar fb x y c fgColor bgColor pixels) x' y' =
      if c < 128 ∧ (x.toNat ≤ x' ∧ x' < x.toNat + 8) ∧ y.toNat ≤ y' ∧ y' < y.toNat + 16 then
        ink (font8x16 c (y' - y.toNat)) (x' - x.toNat) fgColor bgColor (fb.pixel pixels x' y')
      else fb.pixel pixels x' y' := by
  rw [fbDrawChar]
  by_cases hc : c ≥ 128
  · rw [if_pos hc, if_neg fun h => absurd hc (BitVec.not_le.mpr h.1)]
  · rw [if_neg hc, fbDrawRows_pixel hx' hy' hx hy (show fontHeight.toNat ≤ 16 from le_rfl)]
    have hlt : c < 128 := BitVec.not_le.mp hc
    exact if_congr ⟨fun h => ⟨hlt, h⟩, fun h => h.2⟩ rfl rfl

end Draw

/-! ## The terminal -/

namespace Framebuffer

theorem width_lt (fb : Framebuffer) : fb.width.toNat < 2 ^ 58 := by
  have hsize : fb.pitch.toNat * 16 ≤ fb.pitch.toNat * fb.height.toNat :=
    Nat.mul_le_mul_left _ fb.le_height
  have := fb.size_lt
  have := fb.width_le
  omega

theorem height_lt (fb : Framebuffer) : fb.height.toNat < 2 ^ 59 := by
  have hpitch : 32 ≤ fb.pitch.toNat := by
    have := fb.le_width
    have := fb.width_le
    omega
  have hsize : 32 * fb.height.toNat ≤ fb.pitch.toNat * fb.height.toNat :=
    Nat.mul_le_mul_right _ hpitch
  have := fb.size_lt
  omega

end Framebuffer

namespace FbTerminal

variable {t : FbTerminal}

/-- The pixels after the cursor, in reading order, are blank. -/
def Blank (t : FbTerminal) : Prop :=
  ∀ x < t.fb.width.toNat, ∀ y < t.fb.height.toNat,
    t.cursorY.toNat + 16 ≤ y ∨ (t.cursorY.toNat ≤ y ∧ t.cursorX.toNat ≤ x) →
      t.fb.pixel t.pixels x y = 0

/-- The cursor is at a cell of the screen, and nothing is shown after it. -/
structure Ok (t : FbTerminal) : Prop where
  row : t.cursorY.toNat + 16 ≤ t.fb.height.toNat
  column : t.cursorX.toNat + 8 ≤ t.fb.width.toNat
  cell : 8 ∣ t.cursorX.toNat
  blank : t.Blank

theorem toNat_nextX (hcolumn : t.cursorX.toNat + 8 ≤ t.fb.width.toNat) :
    (t.cursorX + fontWidth).toNat = t.cursorX.toNat + 8 ∧
      (t.cursorX + fontWidth + fontWidth).toNat = t.cursorX.toNat + 16 := by
  have := t.fb.width_lt
  have hwidth : fontWidth.toNat = 8 := rfl
  have hnext : (t.cursorX + fontWidth).toNat = t.cursorX.toNat + 8 := by
    rw [BitVec.toNat_add, hwidth]
    omega
  refine ⟨hnext, ?_⟩
  rw [BitVec.toNat_add, hnext, hwidth]
  omega

theorem toNat_nextY (hrow : t.cursorY.toNat ≤ t.fb.height.toNat) :
    (t.cursorY + fontHeight).toNat = t.cursorY.toNat + 16 := by
  have := t.fb.height_lt
  have hheight : fontHeight.toNat = 16 := rfl
  rw [BitVec.toNat_add, hheight]
  omega

/-- What `put` does with the cursor: a newline and the last cell of a row go on to the next row. -/
theorem put_cursor (h : t.Ok) (c : BitVec 8) :
    (t.put c).fb = t.fb ∧ (t.put c).ansi = t.ansi ∧ (t.put c).scrolls = t.scrolls ∧
      (((t.put c).cursorX = 0 ∧ (t.put c).cursorY.toNat = t.cursorY.toNat + 16 ∧
          (c = 0x0a ∨ t.fb.width.toNat < t.cursorX.toNat + 16)) ∨
        ((t.put c).cursorX.toNat = t.cursorX.toNat + 8 ∧ (t.put c).cursorY = t.cursorY ∧
          c ≠ 0x0a ∧ t.cursorX.toNat + 16 ≤ t.fb.width.toNat)) := by
  have hrow : t.cursorY.toNat ≤ t.fb.height.toNat := (Nat.le_add_right _ _).trans h.row
  obtain ⟨hnext, hnext'⟩ := toNat_nextX h.column
  rw [put]
  by_cases hnewline : c = 0x0a
  · rw [if_pos hnewline]
    exact ⟨rfl, rfl, rfl, Or.inl ⟨rfl, toNat_nextY hrow, Or.inl hnewline⟩⟩
  rw [if_neg hnewline]
  dsimp only
  by_cases hwrap : t.cursorX + fontWidth + fontWidth > t.fb.width
  · rw [if_pos hwrap]
    have hlt : t.fb.width.toNat < (t.cursorX + fontWidth + fontWidth).toNat := hwrap
    exact ⟨rfl, rfl, rfl, Or.inl ⟨rfl, toNat_nextY hrow, Or.inr (hnext' ▸ hlt)⟩⟩
  · rw [if_neg hwrap]
    have hle : (t.cursorX + fontWidth + fontWidth).toNat ≤ t.fb.width.toNat :=
      BitVec.not_lt.mp hwrap
    exact ⟨rfl, rfl, rfl, Or.inr ⟨hnext, rfl, hnewline, hnext' ▸ hle⟩⟩

/-- What `put` does with the pixels. -/
theorem put_pixel (h : t.Ok) (c : BitVec 8) {x y : ℕ} (hx : x < t.fb.width.toNat)
    (hy : y < t.fb.height.toNat) :
    t.fb.pixel (t.put c).pixels x y =
      if (c ≠ 0x0a ∧ c < 128) ∧ (t.cursorX.toNat ≤ x ∧ x < t.cursorX.toNat + 8) ∧
          t.cursorY.toNat ≤ y ∧ y < t.cursorY.toNat + 16 then
        ink (font8x16 c (y - t.cursorY.toNat)) (x - t.cursorX.toNat) t.ansi.fgColor
          t.ansi.bgColor (t.fb.pixel t.pixels x y)
      else t.fb.pixel t.pixels x y := by
  have hwidth := t.fb.width_lt
  have hheight := t.fb.height_lt
  have hcolumn := h.column
  have hrow := h.row
  rw [put]
  by_cases hnewline : c = 0x0a
  · rw [if_pos hnewline, if_neg fun hcond => hcond.1.1 hnewline]
  rw [if_neg hnewline]
  have hdraw : t.fb.pixel (fbDrawChar t.fb t.cursorX t.cursorY c t.ansi.fgColor t.ansi.bgColor
      t.pixels) x y = _ :=
    fbDrawChar_pixel hx hy (by omega) (by omega)
  dsimp only
  split
  all_goals
    refine hdraw.trans (if_congr ?_ rfl rfl)
    exact ⟨fun hcond => ⟨⟨hnewline, hcond.1⟩, hcond.2⟩, fun hcond => ⟨hcond.1.2, hcond.2⟩⟩

/-- After `put` nothing is shown after the cursor either. -/
theorem put_blank (h : t.Ok) (c : BitVec 8) : (t.put c).Blank := by
  obtain ⟨hfb, -, -, hcursor⟩ := put_cursor h c
  intro x hx y hy hafter
  rw [hfb] at hx hy ⊢
  rw [put_pixel h c hx hy]
  rcases hcursor with ⟨hX, hY, -⟩ | ⟨hX, hY, -, -⟩
  · rw [hX, hY] at hafter
    rw [if_neg (by simp at hafter; omega)]
    exact h.blank x hx y hy (Or.inl (by simp at hafter; omega))
  · rw [hX, hY] at hafter
    rw [if_neg (by omega)]
    exact h.blank x hx y hy (by omega)

/-- The bottom row is blank after `terminal_scroll`. -/
theorem terminalScroll_pixel {x y : ℕ} (hx : x < t.fb.width.toNat) (hy : y < t.fb.height.toNat)
    (hbottom : t.fb.height.toNat ≤ y + 16) :
    t.fb.pixel (terminalScroll t).pixels x y = 0 := by
  have hsize := t.fb.size_lt
  have hheight : fontHeight.toNat = 16 := rfl
  have hfour : (4 : Word).toNat = 4 := rfl
  have hle := t.fb.le_height
  obtain ⟨stride, hstride⟩ := t.fb.four_dvd
  have hquot : t.fb.pitch.toNat / 4 = stride := by omega
  have hindex := Framebuffer.toNat_index hx hy
  rw [hquot] at hindex
  have hsub : (t.fb.height - fontHeight).toNat = t.fb.height.toNat - 16 := by
    rw [BitVec.toNat_sub, hheight]
    have := t.fb.height_lt
    omega
  -- the strip in pixels: both products fit into a word
  have hstart : ((t.fb.height - fontHeight) * t.fb.pitch / 4).toNat =
      (t.fb.height.toNat - 16) * stride := by
    have hlt : (t.fb.height.toNat - 16) * t.fb.pitch.toNat < 2 ^ 64 := by
      refine lt_of_le_of_lt ?_ hsize
      rw [Nat.mul_comm]
      exact Nat.mul_le_mul_left _ (Nat.sub_le _ _)
    rw [BitVec.toNat_udiv, BitVec.toNat_mul, hsub, Nat.mod_eq_of_lt hlt, hstride, hfour,
      Nat.mul_left_comm, Nat.mul_div_cancel_left _ (by decide)]
  have hstrip : (fontHeight * t.fb.pitch / 4).toNat = 16 * stride := by
    have hlt : 16 * t.fb.pitch.toNat < 2 ^ 64 := by
      refine lt_of_le_of_lt ?_ hsize
      rw [Nat.mul_comm]
      exact Nat.mul_le_mul_left _ hle
    rw [BitVec.toNat_udiv, BitVec.toNat_mul, hheight, Nat.mod_eq_of_lt hlt, hstride, hfour,
      Nat.mul_left_comm, Nat.mul_div_cancel_left _ (by decide)]
  have htotal : (t.fb.height.toNat - 16) * stride + 16 * stride = t.fb.height.toNat * stride := by
    rw [← Nat.add_mul, Nat.sub_add_cancel hle]
  have hlow : (t.fb.height.toNat - 16) * stride ≤ y * stride + x :=
    (Nat.mul_le_mul_right _ (by omega)).trans (Nat.le_add_right _ _)
  have hhigh := Framebuffer.lt_size hx hy
  rw [hquot, Nat.mul_comm stride] at hhigh
  refine if_pos ⟨?_, ?_⟩
  · rw [BitVec.le_def, hstart, hindex]
    exact hlow
  · have hmul : t.fb.height.toNat * stride < 2 ^ 64 := by
      refine lt_of_le_of_lt ?_ hsize
      rw [hstride, Nat.mul_comm]
      exact Nat.mul_le_mul_right _ (Nat.le_mul_of_pos_left _ (by decide))
    rw [BitVec.lt_def, BitVec.toNat_add, hstart, hstrip, hindex, htotal, Nat.mod_eq_of_lt hmul]
    exact hhigh

/-- `terminal_scroll` leaves the cursor in the bottom row. -/
theorem terminalScroll_cursorY (t : FbTerminal) :
    (terminalScroll t).cursorY.toNat + 16 = t.fb.height.toNat := by
  have hheight : fontHeight.toNat = 16 := rfl
  have := t.fb.le_height
  have := t.fb.height_lt
  change (t.fb.height - fontHeight).toNat + 16 = _
  rw [BitVec.toNat_sub, hheight]
  omega

/-- How the cursor moves when a byte is drawn: to the next cell, or to the beginning of the next row.
The row counts from the top of everything that was ever shown. -/
theorem Ok.print_cursor (h : t.Ok) {c : BitVec 8} (hdrawn : (fbAnsiStep t.ansi c).2 = true) :
    ((fbTerminalPrintChar t c).cursorX = 0 ∧
        t.cursorY.toNat + 16 * t.scrolls <
          (fbTerminalPrintChar t c).cursorY.toNat + 16 * (fbTerminalPrintChar t c).scrolls ∧
        (c = 0x0a ∨ t.fb.width.toNat < t.cursorX.toNat + 16)) ∨
      (fbTerminalPrintChar t c =
          { t with ansi := (fbAnsiStep t.ansi c).1 }.put c ∧
        (fbTerminalPrintChar t c).cursorX.toNat = t.cursorX.toNat + 8 ∧
        (fbTerminalPrintChar t c).cursorY = t.cursorY ∧
        (fbTerminalPrintChar t c).scrolls = t.scrolls) := by
  have h' : { t with ansi := (fbAnsiStep t.ansi c).1 }.Ok := { h with }
  obtain ⟨hfb, -, hscrolls, hcursor⟩ := put_cursor h' c
  rw [fbTerminalPrintChar, hdrawn]
  dsimp only
  rw [if_neg (by decide)]
  rcases hcursor with ⟨hX, hY, hwhy⟩ | ⟨hX, hY, -, -⟩
  · refine Or.inl ?_
    split
    · refine ⟨hX, ?_, hwhy⟩
      have hbottom := terminalScroll_cursorY ({ t with ansi := (fbAnsiStep t.ansi c).1 }.put c)
      rw [hfb] at hbottom
      change _ < _ + 16 * (({ t with ansi := (fbAnsiStep t.ansi c).1 }.put c).scrolls + 1)
      rw [hscrolls]
      have := h.row
      change _ + 16 = t.fb.height.toNat at hbottom
      change _ < _ + 16 * (t.scrolls + 1)
      omega
    · refine ⟨hX, ?_, hwhy⟩
      rw [hY, hscrolls]
      change t.cursorY.toNat + 16 * t.scrolls < t.cursorY.toNat + 16 + 16 * t.scrolls
      omega
  · have hrow := h.row
    have hsame : ¬ ({ t with ansi := (fbAnsiStep t.ansi c).1 }.put c).cursorY + fontHeight >
        ({ t with ansi := (fbAnsiStep t.ansi c).1 }.put c).fb.height := by
      rw [hY, hfb, gt_iff_lt, BitVec.lt_def]
      have := toNat_nextY (t := t) (by omega)
      change ¬ t.fb.height.toNat < (t.cursorY + fontHeight).toNat
      omega
    rw [if_neg hsame]
    exact Or.inr ⟨rfl, hX, hY, hscrolls⟩

/-- Whatever is printed, the cursor stays on the screen, and nothing is shown after it. -/
theorem Ok.print (h : t.Ok) (c : BitVec 8) :
    (fbTerminalPrintChar t c).Ok ∧ (fbTerminalPrintChar t c).fb = t.fb := by
  have h' : { t with ansi := (fbAnsiStep t.ansi c).1 }.Ok := { h with }
  rw [fbTerminalPrintChar]
  dsimp only
  cases hdrawn : (fbAnsiStep t.ansi c).2 with
  | false => exact ⟨h', rfl⟩
  | true =>
    rw [if_neg (by decide)]
    obtain ⟨hfb, -, -, hcursor⟩ := put_cursor h' c
    have hblank := put_blank h' c
    generalize { t with ansi := (fbAnsiStep t.ansi c).1 }.put c = u at hfb hcursor hblank ⊢
    have hfb : u.fb = t.fb := hfb
    have hrow : u.cursorY.toNat ≤ u.fb.height.toNat := by
      have hrow := h.row
      rw [hfb]
      rcases hcursor with ⟨-, hY, -⟩ | ⟨-, hY, -, -⟩
      · rw [hY]
        exact hrow
      · rw [hY]
        exact (Nat.le_add_right _ _).trans hrow
    have hcolumn : u.cursorX.toNat + 8 ≤ u.fb.width.toNat ∧ 8 ∣ u.cursorX.toNat := by
      rw [hfb]
      rcases hcursor with ⟨hX, -, -⟩ | ⟨hX, -, -, hle⟩
      · rw [hX]
        exact ⟨t.fb.le_width, dvd_zero 8⟩
      · rw [hX]
        exact ⟨hle, (Nat.dvd_add_left (dvd_refl 8)).mpr h.cell⟩
    split
    · refine ⟨⟨(terminalScroll_cursorY u).le, hcolumn.1, hcolumn.2, ?_⟩, hfb⟩
      intro x hx y hy hafter
      have hbottom := terminalScroll_cursorY u
      exact terminalScroll_pixel hx hy (by omega)
    · rename_i hfits
      have hle : (u.cursorY + fontHeight).toNat ≤ u.fb.height.toNat := BitVec.not_lt.mp hfits
      rw [toNat_nextY hrow] at hle
      exact ⟨⟨hle, hcolumn.1, hcolumn.2, hblank⟩, hfb⟩

/-- The terminal after `fb_init`. -/
theorem ok_fbInit (fb : Framebuffer) (pixels : Word → BitVec 32) : (fbInit fb pixels).Ok := by
  refine ⟨?_, ?_, dvd_zero 8, fun x hx y hy _ => if_pos ?_⟩
  · change (0 : Word).toNat + 16 ≤ fb.height.toNat
    exact (Nat.zero_add 16).symm ▸ fb.le_height
  · change (0 : Word).toNat + 8 ≤ fb.width.toNat
    exact (Nat.zero_add 8).symm ▸ fb.le_width
  · have hlt := Framebuffer.lt_size hx hy
    have hsize := fb.size_le
    have := fb.size_lt
    rw [BitVec.lt_def, Framebuffer.toNat_index hx hy, BitVec.toNat_mul, fb.toNat_stride,
      Nat.mod_eq_of_lt (by omega)]
    exact hlt

/-- A sequence of bytes is printed. -/
theorem Ok.prints (h : t.Ok) (bytes : List (BitVec 8)) :
    (fbTerminalPrint t bytes).Ok ∧ (fbTerminalPrint t bytes).fb = t.fb := by
  induction bytes generalizing t with
  | nil => exact ⟨h, rfl⟩
  | cons c bytes ih =>
    obtain ⟨hok, hfb⟩ := h.print c
    obtain ⟨hok', hfb'⟩ := ih hok
    exact ⟨hok', hfb'.trans hfb⟩

end FbTerminal

end Pros
