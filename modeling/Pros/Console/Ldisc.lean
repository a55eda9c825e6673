import Pros.Lib.Align

/-!
# The line discipline

Model of `kernel/src/core/ldisc.c`: bytes are collected into a line that can be edited until a
newline completes it; from then on the line waits to be drained, and everything typed is dropped.

What the echo callback prints is returned as a list of bytes.
-/

namespace Pros

/-- `LDISC_BUF_SIZE`. -/
abbrev ldiscBufSize : Word := 256

/-- `LDISC_BS` and `LDISC_DEL`: both erase. -/
abbrev ldiscBs : BitVec 8 := 0x08

@[inherit_doc ldiscBs]
abbrev ldiscDel : BitVec 8 := 0x7f

/-- `struct ldisc`, without the echo callback. -/
structure Ldisc where
  buf : Word → BitVec 8
  len : Word
  consumed : Word
  complete : Bool

/-- `ldisc_init`; the buffer keeps what it held. -/
def ldiscInit (buf : Word → BitVec 8) : Ldisc := { buf, len := 0, consumed := 0, complete := false }

namespace Ldisc

variable (ld : Ldisc)

/-- `ld->buf[ld->len++] = byte`. -/
def append (byte : BitVec 8) : Ldisc :=
  { ld with buf := fun i => if i = ld.len then byte else ld.buf i, len := ld.len + 1 }

end Ldisc

/-- `ldisc_feed`: the new state, the result and the bytes echoed. -/
def ldiscFeed (ld : Ldisc) (byte : BitVec 8) : Ldisc × Bool × List (BitVec 8) :=
  -- caller must drain before typing more
  if ld.complete then (ld, true, [])
  else if byte = ldiscBs ∨ byte = ldiscDel then
    if ld.len > 0 then ({ ld with len := ld.len - 1 }, false, [0x08, 0x20, 0x08])
    else (ld, false, [])
  else if byte = 0x0d ∨ byte = 0x0a then
    let ld := if ld.len < ldiscBufSize then ld.append 0x0a else ld
    ({ ld with complete := true }, true, [0x0a])
  else if byte < 0x20 then (ld, false, [])
  -- full, keep room for the newline
  else if ld.len ≥ ldiscBufSize - 1 then (ld, false, [])
  else (ld.append byte, false, [byte])

/-- `ldisc_ready`. -/
def ldiscReady (ld : Ldisc) : Bool := ld.complete

/-- `ldisc_drain`: the new state and the bytes copied out. -/
def ldiscDrain (ld : Ldisc) (size : Word) : Ldisc × List (BitVec 8) :=
  if ld.complete = false then (ld, [])
  else
    let avail := ld.len - ld.consumed
    let n := if size < avail then size else avail
    let out := (List.range n.toNat).map fun i => ld.buf (ld.consumed + BitVec.ofNat 64 i)
    let ld := { ld with consumed := ld.consumed + n }
    if ld.consumed = ld.len then
      ({ ld with len := 0, consumed := 0, complete := false }, out)
    else (ld, out)

/-- Draining does not complete a line. -/
theorem complete_of_ldiscDrain {ld : Ldisc} {size : Word}
    (h : (ldiscDrain ld size).1.complete = true) : ld.complete = true := by
  by_contra hopen
  rw [ldiscDrain, if_pos (Bool.eq_false_iff.mpr hopen)] at h
  exact hopen h

end Pros
