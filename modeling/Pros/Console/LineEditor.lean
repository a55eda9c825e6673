import Pros.Console.Ldisc

/-!
# The line editor

The line discipline implements a bounded line editor. `typeByte` says what a byte does to the line,
and `LineEditor` what a sequence of calls does: a completed line waits until it is drained, and
everything fed meanwhile is dropped. What is echoed shows the unfinished line on a terminal.
-/

namespace Pros

/-! ## The line editor -/

/-- What a byte other than a newline makes of the characters that are kept. A line has room for 255
of them and the newline. -/
def keepByte (line : List (BitVec 8)) (byte : BitVec 8) : List (BitVec 8) :=
  if byte = ldiscBs ∨ byte = ldiscDel then line.dropLast
  else if byte < 0x20 then line
  else if line.length ≥ 255 then line
  else line ++ [byte]

/-- What typing a byte makes of the unfinished line, and the line that it completes, if any. -/
def typeByte (line : List (BitVec 8)) (byte : BitVec 8) :
    List (BitVec 8) × Option (List (BitVec 8)) :=
  if byte = 0x0d ∨ byte = 0x0a then ([], some (line ++ [0x0a])) else (keepByte line byte, none)

namespace Ldisc

/-- The `n` bytes of the buffer from `i` on. -/
def slice (ld : Ldisc) (i : Word) (n : ℕ) : List (BitVec 8) :=
  (List.range n).map fun k => ld.buf (i + BitVec.ofNat 64 k)

/-- What is left of the line that waits to be drained. -/
def rest (ld : Ldisc) : List (BitVec 8) :=
  if ld.complete then ld.slice ld.consumed (ld.len - ld.consumed).toNat else []

/-- The line discipline holds the unfinished line `line`, or a completed line of which something is
left. -/
structure Ok (ld : Ldisc) (line : List (BitVec 8)) : Prop where
  unfinished : ld.complete = false →
    ld.consumed = 0 ∧ ld.len.toNat ≤ 255 ∧ ld.slice 0 ld.len.toNat = line
  finished : ld.complete = true → ld.consumed < ld.len ∧ ld.len.toNat ≤ 256 ∧ line = []

variable {ld : Ldisc} {line : List (BitVec 8)}

@[simp]
theorem length_slice (i : Word) (n : ℕ) : (ld.slice i n).length = n := by simp [slice]

theorem slice_add (i : Word) (m n : ℕ) :
    ld.slice i (m + n) = ld.slice i m ++ ld.slice (i + BitVec.ofNat 64 m) n := by
  rw [slice, List.range_add, List.map_append, List.map_map]
  refine congrArg₂ _ rfl (List.map_congr_left fun k _ => ?_)
  rw [Function.comp_apply, BitVec.ofNat_add, BitVec.add_assoc]

/-- `ld->buf[ld->len++] = byte` appends to the line. -/
theorem slice_append (hlen : ld.len.toNat < 2 ^ 63) (byte : BitVec 8) :
    (ld.append byte).slice 0 (ld.append byte).len.toNat = ld.slice 0 ld.len.toNat ++ [byte] := by
  have hnat : (ld.append byte).len.toNat = ld.len.toNat + 1 := by
    rw [append]
    bv_omega
  rw [hnat, slice_add]
  refine congrArg₂ _ (List.map_congr_left fun k hk => ?_) ?_
  · have hk : k < ld.len.toNat := List.mem_range.mp hk
    refine if_neg fun heq => ?_
    have := congrArg BitVec.toNat heq
    bv_omega
  · simp [slice, append]

theorem rest_of_unfinished (h : ld.complete = false) : ld.rest = [] := by simp [rest, h]

/-- Erasing takes off the last character. -/
theorem Ok.erase (h : ld.Ok line) (hcomplete : ld.complete = false) (hpos : ld.len > 0) :
    { ld with len := ld.len - 1 }.Ok line.dropLast := by
  obtain ⟨hconsumed, hlen, hline⟩ := h.unfinished hcomplete
  have hnat : ld.len.toNat = (ld.len - 1).toNat + 1 := by bv_omega
  refine ⟨fun _ => ⟨hconsumed, ?_, ?_⟩, fun hfin => ?_⟩
  · change (ld.len - 1).toNat ≤ 255
    omega
  · rw [← hline, hnat, slice_add]
    simp [slice]
  · exact Bool.noConfusion (hcomplete.symm.trans hfin)

/-- Typing a character that fits. -/
theorem Ok.type (h : ld.Ok line) (hcomplete : ld.complete = false) (hroom : line.length < 255)
    (byte : BitVec 8) : (ld.append byte).Ok (line ++ [byte]) := by
  obtain ⟨hconsumed, hlen, hline⟩ := h.unfinished hcomplete
  have hlength : line.length = ld.len.toNat := by rw [← hline, length_slice]
  refine ⟨fun _ => ⟨hconsumed, ?_, ?_⟩, fun hfin => ?_⟩
  · rw [append]
    bv_omega
  · rw [slice_append (by omega), hline]
  · exact Bool.noConfusion (hcomplete.symm.trans hfin)

/-- A newline completes the line; there is always room for it. -/
theorem Ok.complete (h : ld.Ok line) (hcomplete : ld.complete = false) :
    { ld.append 0x0a with complete := true }.Ok [] ∧
      { ld.append 0x0a with complete := true }.rest = line ++ [0x0a] := by
  obtain ⟨hconsumed, hlen, hline⟩ := h.unfinished hcomplete
  have hnat : (ld.append 0x0a).len.toNat = ld.len.toNat + 1 := by
    rw [append]
    bv_omega
  refine ⟨⟨fun hopen => Bool.noConfusion hopen, fun _ => ⟨?_, ?_, rfl⟩⟩, ?_⟩
  · change ld.consumed < (ld.append 0x0a).len
    rw [hconsumed, BitVec.lt_def, hnat]
    exact Nat.succ_pos _
  · change (ld.append 0x0a).len.toNat ≤ 256
    omega
  · change (ld.append 0x0a).slice ld.consumed ((ld.append 0x0a).len - ld.consumed).toNat = _
    have hsub : (ld.append 0x0a).len - 0 = (ld.append 0x0a).len := BitVec.sub_zero _
    rw [hconsumed, hsub, slice_append (by omega), hline]

/-- `ldisc_feed` types a byte, unless a line waits to be drained: then the byte is dropped. -/
theorem Ok.feed (h : ld.Ok line) (hcomplete : ld.complete = false) (byte : BitVec 8) :
    (ldiscFeed ld byte).1.Ok (typeByte line byte).1 ∧
      (ldiscFeed ld byte).1.rest = (typeByte line byte).2.getD [] := by
  obtain ⟨hconsumed, hlen, hline⟩ := h.unfinished hcomplete
  have hlength : line.length = ld.len.toNat := by rw [← hline, length_slice]
  rw [ldiscFeed, if_neg (by simp [hcomplete])]
  by_cases hnewline : byte = 0x0d ∨ byte = 0x0a
  · have hkeep : ¬ (byte = ldiscBs ∨ byte = ldiscDel) := by rcases hnewline with rfl | rfl <;> decide
    have hroom : ld.len < ldiscBufSize := by bv_omega
    rw [typeByte, if_neg hkeep, if_pos hnewline, if_pos hnewline, if_pos hroom]
    exact h.complete hcomplete
  have htype : typeByte line byte = (keepByte line byte, none) := if_neg hnewline
  rw [htype, keepByte]
  by_cases herase : byte = ldiscBs ∨ byte = ldiscDel
  · rw [if_pos herase, if_pos herase]
    by_cases hpos : ld.len > 0
    · rw [if_pos hpos]
      exact ⟨h.erase hcomplete hpos, rest_of_unfinished hcomplete⟩
    · -- nothing to erase
      have hnil : line = [] := List.eq_nil_of_length_eq_zero (by bv_omega)
      subst hnil
      rw [if_neg hpos]
      exact ⟨h, rest_of_unfinished hcomplete⟩
  rw [if_neg herase, if_neg herase, if_neg hnewline]
  by_cases hcontrol : byte < 0x20
  · rw [if_pos hcontrol, if_pos hcontrol]
    exact ⟨h, rest_of_unfinished hcomplete⟩
  rw [if_neg hcontrol, if_neg hcontrol]
  by_cases hfull : line.length ≥ 255
  · have hfull' : ld.len ≥ ldiscBufSize - 1 := by bv_omega
    rw [if_pos hfull, if_pos hfull']
    exact ⟨h, rest_of_unfinished hcomplete⟩
  · have hfull' : ¬ ld.len ≥ ldiscBufSize - 1 := by bv_omega
    rw [if_neg hfull, if_neg hfull']
    exact ⟨h.type hcomplete (by omega) byte, rest_of_unfinished hcomplete⟩

/-- `ldisc_drain` of at least one byte takes bytes off the line that waits, and at least one. -/
theorem Ok.drain (h : ld.Ok line) (hcomplete : ld.complete = true) {size : Word} (hsize : size ≠ 0) :
    (ldiscDrain ld size).1.Ok [] ∧ (ldiscDrain ld size).2 ≠ [] ∧
      (ldiscDrain ld size).2 ++ (ldiscDrain ld size).1.rest = ld.rest := by
  obtain ⟨hconsumed, hlen, rfl⟩ := h.finished hcomplete
  rw [ldiscDrain, if_neg (by simp [hcomplete])]
  dsimp only
  generalize hn : (if size < ld.len - ld.consumed then size else ld.len - ld.consumed) = n
  have hpos : 0 < n.toNat := by
    split at hn <;> bv_omega
  have hle : n.toNat ≤ (ld.len - ld.consumed).toNat := by
    split at hn <;> bv_omega
  have hout : (List.range n.toNat).map (fun i => ld.buf (ld.consumed + BitVec.ofNat 64 i)) ≠ [] := by
    refine fun hnil => absurd (congrArg List.length hnil) ?_
    simp only [List.length_map, List.length_range, List.length_nil]
    omega
  -- what is left splits into what is copied and the new rest
  have hsplit : ld.slice ld.consumed n.toNat ++
      ld.slice (ld.consumed + n) ((ld.len - ld.consumed).toNat - n.toNat) = ld.rest := by
    have hadd : n.toNat + ((ld.len - ld.consumed).toNat - n.toNat) =
        (ld.len - ld.consumed).toNat := by omega
    rw [rest, if_pos hcomplete, ← hadd, slice_add, BitVec.ofNat_toNat, BitVec.setWidth_eq, hadd]
  by_cases hend : ld.consumed + n = ld.len
  · rw [if_pos hend]
    have hall : (ld.len - ld.consumed).toNat - n.toNat = 0 := by bv_omega
    rw [hall] at hsplit
    refine ⟨⟨fun _ => ⟨rfl, by simp, by simp [slice]⟩, fun hfin => Bool.noConfusion hfin⟩, hout, ?_⟩
    exact hsplit
  · rw [if_neg hend]
    refine ⟨⟨fun hopen => Bool.noConfusion (hcomplete.symm.trans hopen), fun _ => ⟨?_, hlen, rfl⟩⟩,
      hout, ?_⟩
    · change ld.consumed + n < ld.len
      bv_omega
    · have hrest : (ld.len - ld.consumed).toNat - n.toNat = (ld.len - (ld.consumed + n)).toNat := by
        bv_omega
      rw [hrest] at hsplit
      rw [← hsplit]
      refine congrArg₂ _ rfl ?_
      simp only [rest, hcomplete, if_true]
      rfl

end Ldisc

/-! ## Sequences of calls -/

/-- The characters that are kept of the bytes fed. -/
def editLine (fed : List (BitVec 8)) : List (BitVec 8) := fed.foldl keepByte []

/-- A call of the line discipline. -/
inductive LdiscCall
  | feed (byte : BitVec 8)
  | drain (size : Word)
  deriving DecidableEq, Repr

/-- The line discipline and the bytes drained so far. -/
structure LdiscTrace where
  ld : Ldisc
  drained : List (BitVec 8)

/-- One call. -/
def LdiscTrace.call (s : LdiscTrace) : LdiscCall → LdiscTrace
  | .feed byte => { s with ld := (ldiscFeed s.ld byte).1 }
  | .drain size =>
    { ld := (ldiscDrain s.ld size).1, drained := s.drained ++ (ldiscDrain s.ld size).2 }

/-- A sequence of calls after `ldisc_init`. -/
def ldiscRun (buf : Word → BitVec 8) (calls : List LdiscCall) : LdiscTrace :=
  calls.foldl LdiscTrace.call ⟨ldiscInit buf, []⟩

/-- The state of the editor: the bytes fed since the last line was drained, the lines that were
completed, and what is left of a line that waits to be drained. -/
structure LineEditor where
  fed : List (BitVec 8)
  lines : List (List (BitVec 8))
  left : List (BitVec 8)
  deriving DecidableEq, Repr

/-- What a call means. -/
def LineEditor.call (e : LineEditor) : LdiscCall → LineEditor
  | .feed byte =>
    if e.left ≠ [] then e
    else if byte = 0x0d ∨ byte = 0x0a then
      { fed := []
        lines := e.lines ++ [editLine e.fed ++ [0x0a]]
        left := editLine e.fed ++ [0x0a] }
    else { e with fed := e.fed ++ [byte] }
  | .drain size => { e with left := e.left.drop size.toNat }

/-- What a sequence of calls means. -/
def lineEditorRun (calls : List LdiscCall) : LineEditor :=
  calls.foldl LineEditor.call ⟨[], [], []⟩

section Calls

variable {ld : Ldisc} {line : List (BitVec 8)} {e : LineEditor} {s : LdiscTrace} {byte : BitVec 8}

/-- Something is left of a line exactly while it waits. -/
theorem Ldisc.Ok.rest_ne_nil_iff (h : ld.Ok line) : ld.rest ≠ [] ↔ ld.complete = true := by
  cases hcomplete : ld.complete with
  | false => simp [Ldisc.rest_of_unfinished hcomplete]
  | true =>
    obtain ⟨hconsumed, -, -⟩ := h.finished hcomplete
    refine iff_of_true (fun hnil => ?_) rfl
    have hlength := congrArg List.length hnil
    rw [Ldisc.rest, if_pos hcomplete, Ldisc.length_slice, List.length_nil] at hlength
    bv_omega

/-- `ldisc_drain` copies as much as it is asked for and as there is. -/
theorem Ldisc.length_drain (ld : Ldisc) (size : Word) :
    (ldiscDrain ld size).2.length = min size.toNat ld.rest.length := by
  cases hcomplete : ld.complete with
  | false => simp [ldiscDrain, hcomplete, Ldisc.rest_of_unfinished hcomplete]
  | true =>
    have hlength : ld.rest.length = (ld.len - ld.consumed).toNat := by
      rw [Ldisc.rest, if_pos hcomplete, Ldisc.length_slice]
    rw [ldiscDrain, if_neg (by simp [hcomplete]), hlength]
    dsimp only
    have hn : (if size < ld.len - ld.consumed then size else ld.len - ld.consumed).toNat =
        min size.toNat (ld.len - ld.consumed).toNat := by
      by_cases hlt : size < ld.len - ld.consumed
      · rw [if_pos hlt]
        exact (min_eq_left (BitVec.lt_def.mp hlt).le).symm
      · rw [if_neg hlt]
        exact (min_eq_right (not_lt.mp fun hlt' => hlt (BitVec.lt_def.mpr hlt'))).symm
    rw [← hn]
    generalize (if size < ld.len - ld.consumed then size else ld.len - ld.consumed) = n
    split <;> simp

/-- Draining nothing changes nothing. -/
theorem Ldisc.Ok.drain_zero (h : ld.Ok line) : ldiscDrain ld 0 = (ld, []) := by
  cases hcomplete : ld.complete with
  | false => rw [ldiscDrain, if_pos hcomplete]
  | true =>
    obtain ⟨hconsumed, -, -⟩ := h.finished hcomplete
    have hn : (if (0 : Word) < ld.len - ld.consumed then 0 else ld.len - ld.consumed) = 0 := by
      split
      · rfl
      · bv_omega
    have hopen : ¬ ld.consumed + 0 = ld.len := by bv_omega
    rw [ldiscDrain, if_neg (by simp [hcomplete])]
    simp only [hn, if_neg hopen]
    simp

/-- What `ldisc_drain` copies is the beginning of what is left, for every size. -/
theorem Ldisc.Ok.drain_eq (h : ld.Ok line) (size : Word) :
    (ldiscDrain ld size).1.Ok line ∧ (ldiscDrain ld size).2 = ld.rest.take size.toNat ∧
      (ldiscDrain ld size).1.rest = ld.rest.drop size.toNat := by
  by_cases hsize : size = 0
  · rw [hsize, h.drain_zero]
    exact ⟨h, rfl, rfl⟩
  cases hcomplete : ld.complete with
  | false =>
    have hcall : ldiscDrain ld size = (ld, []) := by rw [ldiscDrain, if_pos hcomplete]
    rw [hcall]
    refine ⟨h, ?_, ?_⟩ <;> simp [Ldisc.rest_of_unfinished hcomplete]
  | true =>
    obtain ⟨-, -, rfl⟩ := h.finished hcomplete
    obtain ⟨hok, -, hsplit⟩ := h.drain hcomplete hsize
    have hlength := ld.length_drain size
    have htake : ld.rest.take size.toNat = ld.rest.take (ldiscDrain ld size).2.length := by
      rw [hlength, List.take_eq_take_iff]
      omega
    have hdrop : ld.rest.drop size.toNat = ld.rest.drop (ldiscDrain ld size).2.length := by
      rw [hlength]
      rcases le_total size.toNat ld.rest.length with hle | hge
      · rw [min_eq_left hle]
      · rw [min_eq_right hge, List.drop_of_length_le hge, List.drop_of_length_le le_rfl]
    refine ⟨hok, ?_, ?_⟩
    · rw [htake, ← hsplit, List.take_left]
    · rw [hdrop, ← hsplit, List.drop_left]

/-- The line discipline `ld` and the bytes drained are those of the editor `e`. -/
structure LdiscTrace.Follows (s : LdiscTrace) (e : LineEditor) : Prop where
  ok : s.ld.Ok (editLine e.fed)
  left : s.ld.rest = e.left
  drained : s.drained ++ e.left = e.lines.flatten

theorem LdiscTrace.Follows.feed (h : s.Follows e) (byte : BitVec 8) :
    (s.call (.feed byte)).Follows (e.call (.feed byte)) := by
  cases hcomplete : s.ld.complete with
  | true =>
    -- the line waits, and the byte is dropped
    have hleft : e.left ≠ [] := h.left ▸ h.ok.rest_ne_nil_iff.mpr hcomplete
    have hcall : ldiscFeed s.ld byte = (s.ld, true, []) := by rw [ldiscFeed, if_pos hcomplete]
    rw [LdiscTrace.call, LineEditor.call, if_pos hleft, hcall]
    exact h
  | false =>
    have hleft : e.left = [] := h.left ▸ Ldisc.rest_of_unfinished hcomplete
    have hdrained : s.drained = e.lines.flatten := by
      rw [← h.drained, hleft, List.append_nil]
    obtain ⟨hok, hrest⟩ := h.ok.feed hcomplete byte
    rw [LdiscTrace.call, LineEditor.call, if_neg (not_not.mpr hleft)]
    by_cases hnewline : byte = 0x0d ∨ byte = 0x0a
    · rw [typeByte, if_pos hnewline] at hok hrest
      rw [if_pos hnewline]
      refine ⟨hok, hrest, ?_⟩
      change s.drained ++ (editLine e.fed ++ [0x0a]) = _
      simp [hdrained]
    · rw [typeByte, if_neg hnewline] at hok hrest
      rw [if_neg hnewline]
      refine ⟨?_, hrest.trans hleft.symm, h.drained⟩
      rw [editLine, List.foldl_append]
      exact hok

theorem LdiscTrace.Follows.drain (h : s.Follows e) (size : Word) :
    (s.call (.drain size)).Follows (e.call (.drain size)) := by
  obtain ⟨hok, hout, hrest⟩ := h.ok.drain_eq size
  rw [h.left] at hout hrest
  refine ⟨hok, hrest, ?_⟩
  change (s.drained ++ (ldiscDrain s.ld size).2) ++ e.left.drop size.toNat = e.lines.flatten
  rw [hout, List.append_assoc, List.take_append_drop, h.drained]

/-- Every sequence of calls. -/
theorem ldiscRun_follows (buf : Word → BitVec 8) (calls : List LdiscCall) :
    (ldiscRun buf calls).Follows (lineEditorRun calls) := by
  induction calls using List.reverseRecOn with
  | nil =>
    exact ⟨⟨fun _ => ⟨rfl, by simp [ldiscRun, ldiscInit], rfl⟩, fun hfin => Bool.noConfusion hfin⟩,
      rfl, rfl⟩
  | append_singleton calls call ih =>
    rw [ldiscRun, lineEditorRun, List.foldl_append, List.foldl_append]
    cases call with
    | feed byte => exact ih.feed byte
    | drain size => exact ih.drain size

end Calls

/-- After every sequence of calls the indices are in bounds, the buffer holds what the editor makes
of the bytes fed since the last line was drained, and what was drained, followed by what is left, are
the completed lines. A line waits exactly as long as something is left of it, and meanwhile nothing
is fed. -/
theorem ldisc_is_line_editor (buf : Word → BitVec 8) (calls : List LdiscCall) :
    (ldiscRun buf calls).ld.len ≤ ldiscBufSize ∧
    (ldiscRun buf calls).ld.consumed ≤ (ldiscRun buf calls).ld.len ∧
    (ldiscReady (ldiscRun buf calls).ld = false → (ldiscRun buf calls).ld.consumed = 0 ∧
      (ldiscRun buf calls).ld.slice 0 (ldiscRun buf calls).ld.len.toNat =
        editLine (lineEditorRun calls).fed) ∧
    (ldiscRun buf calls).drained ++ (lineEditorRun calls).left =
      (lineEditorRun calls).lines.flatten ∧
    (ldiscReady (ldiscRun buf calls).ld = true ↔ (lineEditorRun calls).left ≠ []) ∧
    (ldiscReady (ldiscRun buf calls).ld = true → ∀ byte,
      ldiscFeed (ldiscRun buf calls).ld byte = ((ldiscRun buf calls).ld, true, [])) := by
  have h := ldiscRun_follows buf calls
  generalize ldiscRun buf calls = s at h ⊢
  have hbounds : s.ld.len ≤ ldiscBufSize ∧ s.ld.consumed ≤ s.ld.len := by
    cases hcomplete : s.ld.complete with
    | false =>
      obtain ⟨hconsumed, hlen, -⟩ := h.ok.unfinished hcomplete
      rw [hconsumed]
      exact ⟨by bv_omega, by bv_omega⟩
    | true =>
      obtain ⟨hconsumed, hlen, -⟩ := h.ok.finished hcomplete
      exact ⟨by bv_omega, by bv_omega⟩
  refine ⟨hbounds.1, hbounds.2, fun hopen => ?_, h.drained, ?_, fun hready byte => ?_⟩
  · obtain ⟨hconsumed, -, hline⟩ := h.ok.unfinished hopen
    exact ⟨hconsumed, hline⟩
  · rw [← h.left, h.ok.rest_ne_nil_iff]
    rfl
  · exact if_pos hready

/-! ## The echo -/

/-- A terminal of one line without end. -/
structure LineTerminal where
  cells : ℕ → BitVec 8
  cursor : ℕ

namespace LineTerminal

/-- All cells are blank. -/
def blank : LineTerminal := ⟨fun _ => 0x20, 0⟩

/-- A backspace moves the cursor, every other byte is shown at the cursor. -/
def print (t : LineTerminal) (byte : BitVec 8) : LineTerminal :=
  if byte = 0x08 then { t with cursor := t.cursor - 1 }
  else { cells := Function.update t.cells t.cursor byte, cursor := t.cursor + 1 }

/-- The line stands to the left of the cursor, and nothing to the right. -/
structure Shows (t : LineTerminal) (line : List (BitVec 8)) : Prop where
  cursor : t.cursor = line.length
  cells : ∀ i, t.cells i = line.getD i 0x20

variable {t : LineTerminal} {line : List (BitVec 8)} {byte : BitVec 8}

/-- A byte that is shown stands at the end of the line. -/
theorem Shows.print (h : t.Shows line) (hbyte : byte ≠ 0x08) :
    (t.print byte).Shows (line ++ [byte]) := by
  rw [LineTerminal.print, if_neg hbyte]
  refine ⟨by simp [h.cursor], fun i => ?_⟩
  change Function.update t.cells t.cursor byte i = _
  rw [Function.update_apply, h.cursor, h.cells i]
  rcases lt_trichotomy i line.length with hlt | rfl | hgt
  · rw [if_neg hlt.ne, List.getD_append _ _ _ _ hlt]
  · simp
  · rw [if_neg hgt.ne', List.getD_eq_default _ _ hgt.le,
      List.getD_eq_default _ _ (by rw [List.length_append]; exact hgt)]

/-- Backing up, painting over and backing up again takes off the last character. -/
theorem Shows.erase (h : t.Shows (line ++ [byte])) :
    (([0x08, 0x20, 0x08] : List (BitVec 8)).foldl LineTerminal.print t).Shows line := by
  have hcursor : t.cursor = line.length + 1 := by simp [h.cursor]
  have hcells : (([0x08, 0x20, 0x08] : List (BitVec 8)).foldl LineTerminal.print t) =
      ⟨Function.update t.cells line.length 0x20, line.length⟩ := by
    simp [LineTerminal.print, hcursor]
  rw [hcells]
  refine ⟨rfl, fun i => ?_⟩
  change Function.update t.cells line.length 0x20 i = _
  rw [Function.update_apply, h.cells i]
  rcases lt_trichotomy i line.length with hlt | rfl | hgt
  · rw [if_neg hlt.ne, List.getD_append _ _ _ _ hlt]
  · rw [if_pos rfl, List.getD_eq_default _ _ le_rfl]
  · rw [if_neg hgt.ne', List.getD_eq_default _ _ hgt.le,
      List.getD_eq_default _ _ (by rw [List.length_append]; exact hgt)]

end LineTerminal

/-- The bytes are fed one after the other; what they make the line discipline echo is collected. -/
def ldiscFeedAll (ld : Ldisc) (bytes : List (BitVec 8)) : Ldisc × List (BitVec 8) :=
  bytes.foldl (fun s byte => ((ldiscFeed s.1 byte).1, s.2 ++ (ldiscFeed s.1 byte).2.2)) (ld, [])

section Echo

variable {ld : Ldisc} {line : List (BitVec 8)} {t : LineTerminal}

theorem ldiscFeedAll_concat (ld : Ldisc) (bytes : List (BitVec 8)) (byte : BitVec 8) :
    ldiscFeedAll ld (bytes ++ [byte]) =
      ((ldiscFeed (ldiscFeedAll ld bytes).1 byte).1,
        (ldiscFeedAll ld bytes).2 ++ (ldiscFeed (ldiscFeedAll ld bytes).1 byte).2.2) := by
  rw [ldiscFeedAll, List.foldl_append]
  rfl

/-- What a byte other than a newline makes the line discipline echo. -/
def echoByte (line : List (BitVec 8)) (byte : BitVec 8) : List (BitVec 8) :=
  if byte = ldiscBs ∨ byte = ldiscDel then if line = [] then [] else [0x08, 0x20, 0x08]
  else if byte < 0x20 then []
  else if line.length ≥ 255 then []
  else [byte]

/-- A byte other than a newline does not complete the line; it is edited and echoed. -/
theorem Ldisc.Ok.echo (h : ld.Ok line) (hopen : ld.complete = false) {byte : BitVec 8}
    (hbyte : ¬ (byte = 0x0d ∨ byte = 0x0a)) :
    (ldiscFeed ld byte).1.complete = false ∧ (ldiscFeed ld byte).1.Ok (keepByte line byte) ∧
      (ldiscFeed ld byte).2.2 = echoByte line byte := by
  obtain ⟨hconsumed, hlen, hline⟩ := h.unfinished hopen
  have hlength : line.length = ld.len.toNat := by rw [← hline, length_slice]
  have hok := (h.feed hopen byte).1
  rw [typeByte, if_neg hbyte] at hok
  suffices hcall : (ldiscFeed ld byte).1.complete = false ∧
      (ldiscFeed ld byte).2.2 = echoByte line byte from ⟨hcall.1, hok, hcall.2⟩
  rw [ldiscFeed, if_neg (by simp [hopen]), echoByte]
  by_cases herase : byte = ldiscBs ∨ byte = ldiscDel
  · rw [if_pos herase, if_pos herase]
    by_cases hpos : ld.len > 0
    · have hne : line ≠ [] := by
        rintro rfl
        rw [List.length_nil] at hlength
        bv_omega
      rw [if_pos hpos, if_neg hne]
      exact ⟨hopen, rfl⟩
    · have hnil : line = [] := List.eq_nil_of_length_eq_zero (by bv_omega)
      rw [if_neg hpos, if_pos hnil]
      exact ⟨hopen, rfl⟩
  rw [if_neg herase, if_neg herase, if_neg hbyte]
  by_cases hcontrol : byte < 0x20
  · rw [if_pos hcontrol, if_pos hcontrol]
    exact ⟨hopen, rfl⟩
  rw [if_neg hcontrol, if_neg hcontrol]
  by_cases hfull : line.length ≥ 255
  · have hfull' : ld.len ≥ ldiscBufSize - 1 := by bv_omega
    rw [if_pos hfull, if_pos hfull']
    exact ⟨hopen, rfl⟩
  · have hfull' : ¬ ld.len ≥ ldiscBufSize - 1 := by bv_omega
    rw [if_neg hfull, if_neg hfull']
    exact ⟨hopen, rfl⟩

/-- The echo makes the terminal follow the line. -/
theorem LineTerminal.Shows.echo (h : t.Shows line) (byte : BitVec 8) :
    ((echoByte line byte).foldl LineTerminal.print t).Shows (keepByte line byte) := by
  rw [echoByte, keepByte]
  by_cases herase : byte = ldiscBs ∨ byte = ldiscDel
  · rw [if_pos herase, if_pos herase]
    by_cases hnil : line = []
    · subst hnil
      exact h
    · rw [if_neg hnil]
      rw [← List.dropLast_append_getLast hnil] at h
      exact h.erase
  rw [if_neg herase, if_neg herase]
  by_cases hcontrol : byte < 0x20
  · rw [if_pos hcontrol, if_pos hcontrol]
    exact h
  rw [if_neg hcontrol, if_neg hcontrol]
  by_cases hfull : line.length ≥ 255
  · rw [if_pos hfull, if_pos hfull]
    exact h
  · rw [if_neg hfull, if_neg hfull]
    exact h.print fun heq => hcontrol (heq ▸ by decide)

/-- The echo of a sequence of bytes after the line `line`. -/
def echoFrom (line : List (BitVec 8)) : List (BitVec 8) → List (BitVec 8)
  | [] => []
  | byte :: bytes => echoByte line byte ++ echoFrom (keepByte line byte) bytes

theorem echoFrom_concat (line bytes : List (BitVec 8)) (byte : BitVec 8) :
    echoFrom line (bytes ++ [byte]) =
      echoFrom line bytes ++ echoByte (bytes.foldl keepByte line) byte := by
  induction bytes generalizing line with
  | nil => exact List.append_nil _
  | cons b bytes ih =>
    rw [List.cons_append, echoFrom, ih, echoFrom, List.append_assoc]
    rfl

theorem editLine_concat (bytes : List (BitVec 8)) (byte : BitVec 8) :
    editLine (bytes ++ [byte]) = keepByte (editLine bytes) byte := by
  rw [editLine, List.foldl_append]
  rfl

/-- Bytes other than newlines, fed to a fresh line discipline. -/
theorem ldiscFeedAll_open (buf : Word → BitVec 8) {bytes : List (BitVec 8)}
    (hbytes : ∀ byte ∈ bytes, ¬ (byte = 0x0d ∨ byte = 0x0a)) :
    (ldiscFeedAll (ldiscInit buf) bytes).1.complete = false ∧
      (ldiscFeedAll (ldiscInit buf) bytes).1.Ok (editLine bytes) ∧
      (ldiscFeedAll (ldiscInit buf) bytes).2 = echoFrom [] bytes := by
  induction bytes using List.reverseRecOn with
  | nil =>
    exact ⟨rfl, ⟨fun _ => ⟨rfl, by simp [ldiscFeedAll, ldiscInit], rfl⟩,
      fun hfin => Bool.noConfusion hfin⟩, rfl⟩
  | append_singleton bytes byte ih =>
    obtain ⟨hopen, hok, hecho⟩ := ih fun b hb => hbytes b (List.mem_append_left _ hb)
    obtain ⟨hopen', hok', hecho'⟩ := hok.echo hopen (hbytes byte (by simp))
    rw [ldiscFeedAll_concat, editLine_concat, echoFrom_concat, hecho, hecho']
    exact ⟨hopen', hok', rfl⟩

end Echo

end Pros
