import Pros.Console.LineEditor
import Pros.Core.Sgr

/-!
# The edited line on the framebuffer

The line discipline echoes through `console_putc`, which also prints on the framebuffer terminal. That
terminal knows no backspace: it draws the byte `0x08` as a character without ink, and moves on. So the
unfinished line is shown as long as nothing is erased, and from the first erased character on the
cursor is too far right.
-/

namespace Pros

/-! ## Erasing in the echo -/

/-- `LDISC_BS` or `LDISC_DEL`. -/
abbrev IsErase (byte : BitVec 8) : Prop := byte = ldiscBs ∨ byte = ldiscDel

/-- A byte that is shown. -/
abbrev IsPrintable (byte : BitVec 8) : Prop := 0x20 ≤ byte ∧ byte ≤ 0x7e

/-- An erase byte is only fed while the line is empty. -/
def TypedOnly (bytes : List (BitVec 8)) : Prop :=
  ∀ pre byte post, bytes = pre ++ byte :: post → IsErase byte → editLine pre = []

section Erase

variable {bytes : List (BitVec 8)} {byte : BitVec 8}

theorem typedOnly_nil : TypedOnly [] := fun pre byte post h =>
  absurd h (by simp)

theorem typedOnly_concat :
    TypedOnly (bytes ++ [byte]) ↔ TypedOnly bytes ∧ (IsErase byte → editLine bytes = []) := by
  refine ⟨fun h => ⟨fun pre b post heq herase => ?_, h bytes byte [] rfl⟩, ?_⟩
  · exact h pre b (post ++ [byte]) (by rw [heq]; simp) herase
  · rintro ⟨h, hlast⟩ pre b post heq herase
    rcases List.eq_nil_or_concat post with rfl | ⟨post', last, rfl⟩
    · obtain ⟨rfl, hb⟩ := List.append_inj' heq rfl
      exact hlast (by rw [List.singleton_inj.mp hb]; exact herase)
    · refine h pre b post' ?_ herase
      rw [List.concat_eq_append, ← List.cons_append, ← List.append_assoc] at heq
      exact (List.append_inj' heq rfl).1

/-- A byte of the input, and its echo: it is kept and echoed as it is, it is dropped, or it erases a
character and the echo has three bytes. -/
theorem keepByte_cases (hbyte : IsPrintable byte ∨ IsErase byte) (line : List (BitVec 8)) :
    (IsPrintable byte ∧ keepByte line byte = line ++ [byte] ∧ echoByte line byte = [byte]) ∨
    ((IsErase byte → line = []) ∧ keepByte line byte = line ∧ echoByte line byte = []) ∨
    (IsErase byte ∧ line ≠ [] ∧ keepByte line byte = line.dropLast ∧
      echoByte line byte = [0x08, 0x20, 0x08]) := by
  rw [keepByte, echoByte]
  by_cases herase : byte = ldiscBs ∨ byte = ldiscDel
  · rw [if_pos herase, if_pos herase]
    by_cases hnil : line = []
    · subst hnil
      exact Or.inr (Or.inl ⟨fun _ => rfl, rfl, rfl⟩)
    · rw [if_neg hnil]
      exact Or.inr (Or.inr ⟨herase, hnil, rfl, rfl⟩)
  · have hprint := hbyte.resolve_right herase
    have hcontrol : ¬ byte < 0x20 := BitVec.not_lt.mpr hprint.1
    rw [if_neg herase, if_neg herase, if_neg hcontrol, if_neg hcontrol]
    by_cases hfull : line.length ≥ 255
    · rw [if_pos hfull, if_pos hfull]
      exact Or.inr (Or.inl ⟨fun h => absurd h herase, rfl, rfl⟩)
    · rw [if_neg hfull, if_neg hfull]
      exact Or.inl ⟨hprint, rfl, rfl⟩

variable (hbytes : ∀ byte ∈ bytes, IsPrintable byte ∨ IsErase byte)

include hbytes

/-- Every erased character makes the echo four bytes longer than the line. -/
theorem length_echoFrom :
    ∃ k, (echoFrom [] bytes).length = (editLine bytes).length + 4 * k ∧
      (k = 0 ↔ TypedOnly bytes) := by
  induction bytes using List.reverseRecOn with
  | nil => exact ⟨0, rfl, iff_of_true rfl typedOnly_nil⟩
  | append_singleton bytes byte ih =>
    obtain ⟨k, hlength, htyped⟩ := ih fun b hb => hbytes b (List.mem_append_left _ hb)
    have hline : bytes.foldl keepByte [] = editLine bytes := rfl
    rw [echoFrom_concat, editLine_concat, hline, List.length_append, hlength, typedOnly_concat]
    rcases keepByte_cases (hbytes byte (by simp)) (editLine bytes) with
      ⟨hprint, hkeep, hecho⟩ | ⟨hnil, hkeep, hecho⟩ | ⟨herase, hne, hkeep, hecho⟩
    · have hnot : ¬ IsErase byte := by
        rintro (rfl | rfl)
        · exact absurd hprint (by decide)
        · exact absurd hprint (by decide)
      refine ⟨k, ?_, htyped.trans ⟨fun h => ⟨h, fun h' => absurd h' hnot⟩, fun h => h.1⟩⟩
      rw [hkeep, hecho, List.length_append, List.length_singleton]
      omega
    · refine ⟨k, ?_, htyped.trans ⟨fun h => ⟨h, hnil⟩, fun h => h.1⟩⟩
      rw [hkeep, hecho, List.length_nil]
      rfl
    · refine ⟨k + 1, ?_, iff_of_false (Nat.succ_ne_zero k) fun h => hne (h.2 herase)⟩
      have hpos := List.length_pos_iff.mpr hne
      rw [hkeep, hecho, List.length_dropLast]
      simp only [List.length_cons, List.length_nil]
      omega

/-- Where nothing is erased, the echo is the line. -/
theorem TypedOnly.echoFrom_eq (h : TypedOnly bytes) :
    echoFrom [] bytes = editLine bytes := by
  induction bytes using List.reverseRecOn with
  | nil => rfl
  | append_singleton bytes byte ih =>
    obtain ⟨hbefore, hlast⟩ := typedOnly_concat.mp h
    have hline : bytes.foldl keepByte [] = editLine bytes := rfl
    rw [echoFrom_concat, editLine_concat, hline,
      ih (fun b hb => hbytes b (List.mem_append_left _ hb)) hbefore]
    rcases keepByte_cases (hbytes byte (by simp)) (editLine bytes) with
      ⟨-, hkeep, hecho⟩ | ⟨-, hkeep, hecho⟩ | ⟨herase, hne, -, -⟩
    · rw [hkeep, hecho]
    · rw [hkeep, hecho, List.append_nil]
    · exact absurd (hlast herase) hne

/-- The line has printable characters only. -/
theorem isPrintable_of_mem_editLine : ∀ byte ∈ editLine bytes, IsPrintable byte := by
  induction bytes using List.reverseRecOn with
  | nil => simp [editLine]
  | append_singleton bytes byte ih =>
    have ih := ih fun b hb => hbytes b (List.mem_append_left _ hb)
    rw [editLine_concat]
    intro b hb
    rcases keepByte_cases (hbytes byte (by simp)) (editLine bytes) with
      ⟨hprint, hkeep, -⟩ | ⟨-, hkeep, -⟩ | ⟨-, -, hkeep, -⟩
    · rw [hkeep] at hb
      rcases List.mem_append.mp hb with hb | hb
      · exact ih b hb
      · rw [List.mem_singleton.mp hb]
        exact hprint
    · exact ih b (hkeep ▸ hb)
    · rw [hkeep] at hb
      exact ih b (List.mem_of_mem_dropLast hb)

/-- The echo has no byte that the terminal does not draw. -/
theorem drawn_of_mem_echoFrom : ∀ byte ∈ echoFrom [] bytes, byte ≠ 0x1b ∧ byte ≠ 0x0a := by
  induction bytes using List.reverseRecOn with
  | nil => simp [echoFrom]
  | append_singleton bytes byte ih =>
    have ih := ih fun b hb => hbytes b (List.mem_append_left _ hb)
    rw [echoFrom_concat]
    intro b hb
    rcases List.mem_append.mp hb with hb | hb
    · exact ih b hb
    · rcases keepByte_cases (hbytes byte (by simp)) (bytes.foldl keepByte []) with
        ⟨hprint, -, hecho⟩ | ⟨-, -, hecho⟩ | ⟨-, -, -, hecho⟩
      · rw [hecho, List.mem_singleton] at hb
        subst hb
        refine ⟨?_, ?_⟩
        all_goals
          rintro rfl
          exact absurd hprint (by decide)
      · rw [hecho] at hb
        cases hb
      · rw [hecho] at hb
        fin_cases hb <;> decide

end Erase

/-! ## On the terminal -/

/-- The pixel of a cell of a line, with the default colours. -/
def linePixel (line : List (BitVec 8)) (x row : ℕ) : BitVec 32 :=
  match (line)[x / 8]? with
  | some c => if (font8x16 c row).getLsbD (7 - x % 8) then 0x00FFFFFF else 0
  | none => 0

/-- Since the state `t₀`, the cells from the column of the cursor on show the glyphs of `line`, and
after them blank cells; the cursor is in the same row, right after the line. Rows count from the top
of everything that was ever shown. -/
structure ShowsInput (t₀ t : FbTerminal) (line : List (BitVec 8)) : Prop where
  row : t.cursorY.toNat + 16 * t.scrolls = t₀.cursorY.toNat + 16 * t₀.scrolls
  column : t.cursorX.toNat = t₀.cursorX.toNat + 8 * line.length
  cells : ∀ x row, row < 16 → t₀.cursorX.toNat + x < t₀.fb.width.toNat →
    t.fb.pixel t.pixels (t₀.cursorX.toNat + x) (t.cursorY.toNat + row) = linePixel line x row

section Print

variable {t t₀ : FbTerminal} {bytes line : List (BitVec 8)} {c : BitVec 8}

/-- A byte other than `ESC` in the normal state. -/
theorem fbAnsiStep_drawn (hstate : t.ansi.state = .normal) (hc : c ≠ 0x1b) :
    fbAnsiStep t.ansi c = (t.ansi, true) := by
  rw [fbAnsiStep, hstate]
  dsimp only
  rw [if_neg hc]

/-- Bytes that are drawn leave the parser alone. -/
theorem fbTerminalPrint_drawn (hstate : t.ansi.state = .normal) (hbytes : ∀ c ∈ bytes, c ≠ 0x1b) :
    (fbTerminalPrint t bytes).ansi = t.ansi := by
  rw [fbTerminalPrint_ansi]
  induction bytes with
  | nil => rfl
  | cons c bytes ih =>
    change ansiRun (fbAnsiStep t.ansi c).1 bytes = t.ansi
    rw [fbAnsiStep_drawn hstate (hbytes c List.mem_cons_self)]
    exact ih fun d hd => hbytes d (List.mem_cons_of_mem c hd)

theorem fbTerminalPrint_concat (t : FbTerminal) (bytes : List (BitVec 8)) (c : BitVec 8) :
    fbTerminalPrint t (bytes ++ [c]) = fbTerminalPrintChar (fbTerminalPrint t bytes) c := by
  rw [fbTerminalPrint, List.foldl_append]
  rfl

/-- Every byte that is drawn moves the cursor one cell on; it never comes back to an earlier row. -/
theorem FbTerminal.Ok.prints_cursor (h : t.Ok) (hstate : t.ansi.state = .normal)
    (hbytes : ∀ c ∈ bytes, c ≠ 0x1b ∧ c ≠ 0x0a) :
    t.cursorY.toNat + 16 * t.scrolls <
        (fbTerminalPrint t bytes).cursorY.toNat + 16 * (fbTerminalPrint t bytes).scrolls ∨
      ((fbTerminalPrint t bytes).cursorY.toNat + 16 * (fbTerminalPrint t bytes).scrolls =
          t.cursorY.toNat + 16 * t.scrolls ∧
        (fbTerminalPrint t bytes).cursorX.toNat = t.cursorX.toNat + 8 * bytes.length) := by
  induction bytes using List.reverseRecOn with
  | nil => exact Or.inr ⟨rfl, rfl⟩
  | append_singleton bytes c ih =>
    have hbefore : ∀ d ∈ bytes, d ≠ 0x1b ∧ d ≠ 0x0a := fun d hd =>
      hbytes d (List.mem_append_left _ hd)
    have hansi := fbTerminalPrint_drawn hstate fun d hd => (hbefore d hd).1
    have hdrawn : (fbAnsiStep (fbTerminalPrint t bytes).ansi c).2 = true := by
      rw [fbAnsiStep_drawn (hansi ▸ hstate) (hbytes c (by simp)).1]
    rw [fbTerminalPrint_concat, List.length_append, List.length_singleton]
    have ih := ih hbefore
    rcases (h.prints bytes).1.print_cursor hdrawn with ⟨-, hlt, -⟩ | ⟨-, hX, hY, hscrolls⟩
    · refine Or.inl (lt_of_le_of_lt ?_ hlt)
      rcases ih with ih | ⟨ih, -⟩
      · exact ih.le
      · exact ih.ge
    · rw [hX, hY, hscrolls]
      rcases ih with ih | ⟨ih, ihX⟩
      · exact Or.inl ih
      · exact Or.inr ⟨ih, by omega⟩

theorem linePixel_concat_of_ne {x row : ℕ} (hx : x / 8 ≠ line.length) :
    linePixel (line ++ [c]) x row = linePixel line x row := by
  rw [linePixel, linePixel]
  rcases lt_or_gt_of_ne hx with hlt | hgt
  · rw [List.getElem?_append_left hlt]
  · rw [List.getElem?_eq_none (by rw [List.length_append]; exact hgt),
      List.getElem?_eq_none hgt.le]

/-- A character is drawn after the line, as long as there is room for another one. -/
theorem ShowsInput.print (h : ShowsInput t₀ t line) (hok : t.Ok) (hfb : t.fb = t₀.fb)
    (hstate : t.ansi.state = .normal) (hcolors : t.ansi.colors = (0x00FFFFFF, 0x00000000))
    (hc : IsPrintable c)
    (hfits : t₀.cursorX.toNat + 8 * (line.length + 1) + 8 ≤ t₀.fb.width.toNat) :
    ShowsInput t₀ (fbTerminalPrintChar t c) (line ++ [c]) := by
  have hesc : c ≠ 0x1b := by
    rintro rfl
    exact absurd hc (by decide)
  have hnewline : c ≠ 0x0a := by
    rintro rfl
    exact absurd hc (by decide)
  have hascii : c < 128 := by
    have := hc.2
    bv_omega
  have hstep := fbAnsiStep_drawn hstate hesc
  have hcolumn := h.column
  have hrow := hok.row
  rcases hok.print_cursor (c := c) (by rw [hstep]) with ⟨-, -, hwrap⟩ | ⟨hput, hX, hY, hscrolls⟩
  · rw [hfb] at hwrap
    exact absurd (hwrap.resolve_left hnewline) (by omega)
  rw [hstep] at hput
  have hput : fbTerminalPrintChar t c = t.put c := hput
  have hfg : t.ansi.fgColor = 0x00FFFFFF := congrArg Prod.fst hcolors
  have hbg : t.ansi.bgColor = 0x00000000 := congrArg Prod.snd hcolors
  refine ⟨by rw [hY, hscrolls]; exact h.row, ?_, fun x row hrow16 hx => ?_⟩
  · rw [hX, hcolumn, List.length_append, List.length_singleton]
    omega
  · have hx' : t₀.cursorX.toNat + x < t.fb.width.toNat := by
      rw [hfb]
      exact hx
    rw [hY, (hok.print c).2, hput, FbTerminal.put_pixel hok c hx' (by omega), hfg, hbg]
    by_cases hcell : x / 8 = line.length
    · -- the cell of the character was blank
      rw [if_pos ⟨⟨hnewline, hascii⟩, by omega, by omega⟩,
        hok.blank _ hx' _ (by omega) (Or.inr ⟨by omega, by omega⟩), ink, linePixel, hcell,
        List.getElem?_concat_length]
      have hcol : t₀.cursorX.toNat + x - t.cursorX.toNat = x % 8 := by omega
      rw [hcol, Nat.add_sub_cancel_left]
      simp
    · rw [if_neg (by omega), linePixel_concat_of_ne hcell]
      exact h.cells x row hrow16 hx

/-- A line of characters that fits into the row. -/
theorem FbTerminal.Ok.prints_line (hok : t₀.Ok) (hstate : t₀.ansi.state = .normal)
    (hcolors : t₀.ansi.colors = (0x00FFFFFF, 0x00000000)) (hline : ∀ c ∈ line, IsPrintable c)
    (hfits : t₀.cursorX.toNat + 8 * line.length + 8 ≤ t₀.fb.width.toNat) :
    ShowsInput t₀ (fbTerminalPrint t₀ line) line := by
  induction line using List.reverseRecOn with
  | nil =>
    refine ⟨rfl, rfl, fun x row hrow hx => ?_⟩
    have := hok.row
    change t₀.fb.pixel t₀.pixels (t₀.cursorX.toNat + x) (t₀.cursorY.toNat + row) = 0
    exact hok.blank _ hx _ (by omega) (Or.inr ⟨by omega, by omega⟩)
  | append_singleton line c ih =>
    rw [List.length_append, List.length_singleton] at hfits
    have hbefore : ∀ d ∈ line, IsPrintable d := fun d hd => hline d (List.mem_append_left _ hd)
    have hansi : (fbTerminalPrint t₀ line).ansi = t₀.ansi :=
      fbTerminalPrint_drawn hstate fun d hd => by
        rintro rfl
        exact absurd (hbefore _ hd) (by decide)
    obtain ⟨hok', hfb'⟩ := hok.prints line
    rw [fbTerminalPrint_concat]
    exact (ih hbefore (by omega)).print hok' hfb' (hansi ▸ hstate) (hansi ▸ hcolors)
      (hline c (by simp)) hfits

end Print

/-- In the normal state of the terminal with the default colours, printable and erase bytes are fed to
the line discipline, and the line always fits into the row. Then the framebuffer shows the bytes of
the buffer, with the cursor right after them, exactly if an erase byte was only fed while the buffer
was empty. -/
theorem fb_shows_edit_buffer_iff (fb : Framebuffer) (pixels : Word → BitVec 32)
    (printed : List (BitVec 8)) (buf : Word → BitVec 8) (bytes : List (BitVec 8))
    (hstate : (fbTerminalPrint (fbInit fb pixels) printed).ansi.state = .normal)
    (hcolors : (fbTerminalPrint (fbInit fb pixels) printed).ansi.colors =
      (0x00FFFFFF, 0x00000000))
    (hbytes : ∀ byte ∈ bytes, IsPrintable byte ∨ IsErase byte)
    (hfits : ∀ n, (fbTerminalPrint (fbInit fb pixels) printed).cursorX.toNat +
      8 * (ldiscFeedAll (ldiscInit buf) (bytes.take n)).1.len.toNat + 8 ≤ fb.width.toNat) :
    ShowsInput (fbTerminalPrint (fbInit fb pixels) printed)
        (fbTerminalPrint (fbTerminalPrint (fbInit fb pixels) printed)
          (ldiscFeedAll (ldiscInit buf) bytes).2)
        ((ldiscFeedAll (ldiscInit buf) bytes).1.slice 0
          (ldiscFeedAll (ldiscInit buf) bytes).1.len.toNat) ↔
      TypedOnly bytes := by
  obtain ⟨hok, hfb⟩ := (FbTerminal.ok_fbInit fb pixels).prints printed
  generalize fbTerminalPrint (fbInit fb pixels) printed = t₀ at *
  have hnewline : ∀ byte ∈ bytes, ¬ (byte = 0x0d ∨ byte = 0x0a) := by
    rintro byte hmem (rfl | rfl)
    · exact absurd (hbytes _ hmem) (by decide)
    · exact absurd (hbytes _ hmem) (by decide)
  obtain ⟨hopen, hld, hecho⟩ := ldiscFeedAll_open buf hnewline
  obtain ⟨-, -, hline⟩ := hld.unfinished hopen
  have hlen : (ldiscFeedAll (ldiscInit buf) bytes).1.len.toNat = (editLine bytes).length := by
    rw [← hline, Ldisc.length_slice]
  have hfits := hfits bytes.length
  rw [List.take_length, hlen] at hfits
  rw [hline, hecho]
  obtain ⟨k, hlength, htyped⟩ := length_echoFrom hbytes
  constructor
  · intro hshows
    -- the cursor is where the echo moved it
    rcases hok.prints_cursor hstate (drawn_of_mem_echoFrom hbytes) with hlt | ⟨-, hcolumn⟩
    · exact absurd hshows.row hlt.ne'
    · have := hshows.column
      exact htyped.mp (by omega)
  · intro h
    rw [h.echoFrom_eq hbytes]
    refine hok.prints_line hstate hcolors (isPrintable_of_mem_editLine hbytes) ?_
    rw [hfb]
    exact hfits

/-- One character is typed on an empty screen. -/
theorem fb_shows_edit_buffer_iff_typed :
    TypedOnly [0x61] ∧
    ShowsInput (fbTerminalPrint (fbInit vgaFramebuffer fun _ => 0) [])
      (fbTerminalPrint (fbTerminalPrint (fbInit vgaFramebuffer fun _ => 0) [])
        (ldiscFeedAll (ldiscInit fun _ => 0) [0x61]).2)
      ((ldiscFeedAll (ldiscInit fun _ => 0) [0x61]).1.slice 0
        (ldiscFeedAll (ldiscInit fun _ => 0) [0x61]).1.len.toNat) := by
  have htyped : TypedOnly ([] ++ [0x61]) := typedOnly_concat.mpr ⟨typedOnly_nil, fun _ => rfl⟩
  refine ⟨htyped, (fb_shows_edit_buffer_iff vgaFramebuffer (fun _ => 0) [] (fun _ => 0) [0x61] rfl rfl
    (by decide) fun n => ?_).mpr htyped⟩
  cases n with
  | zero => decide
  | succ n =>
    rw [List.take_of_length_le (by simp)]
    decide

/-- A character is typed and erased: the buffer is empty, and the cursor is in the fifth column. -/
theorem fb_does_not_erase :
    (ldiscFeedAll (ldiscInit fun _ => 0) [0x61, 0x7f]).1.len = 0 ∧
    (fbTerminalPrint (fbTerminalPrint (fbInit vgaFramebuffer fun _ => 0) [])
      (ldiscFeedAll (ldiscInit fun _ => 0) [0x61, 0x7f]).2).cursorX = 32 ∧
    ¬ ShowsInput (fbTerminalPrint (fbInit vgaFramebuffer fun _ => 0) [])
      (fbTerminalPrint (fbTerminalPrint (fbInit vgaFramebuffer fun _ => 0) [])
        (ldiscFeedAll (ldiscInit fun _ => 0) [0x61, 0x7f]).2)
      ((ldiscFeedAll (ldiscInit fun _ => 0) [0x61, 0x7f]).1.slice 0
        (ldiscFeedAll (ldiscInit fun _ => 0) [0x61, 0x7f]).1.len.toNat) := by
  have hlen : (ldiscFeedAll (ldiscInit fun _ => 0) [0x61, 0x7f]).1.len = 0 := by decide
  have hcursor : (fbTerminalPrint (fbTerminalPrint (fbInit vgaFramebuffer fun _ => 0) [])
      (ldiscFeedAll (ldiscInit fun _ => 0) [0x61, 0x7f]).2).cursorX = 32 := by decide +kernel
  refine ⟨hlen, hcursor, fun h => ?_⟩
  have hcolumn := h.column
  rw [hcursor, Ldisc.length_slice, hlen] at hcolumn
  exact absurd hcolumn (by decide)

end Pros
