import Pros.Lib.Bytes

/-!
# A buffer that is filled downwards

A window of `size` bytes in a byte memory is filled from its end. A push moves the cursor down and
stores its bytes there; the cursor is a machine word, so a push that is too long wraps it. The writes
are recorded, to say whether they stay in the window.
-/

/-- The memory, the offset of the last byte that was pushed, and the writes so far, each with its
address and its length. -/
structure PushDown where
  mem : ByteMem
  cursor : BitVec 64
  writes : List (BitVec 64 × ℕ)

namespace PushDown

/-- The little-endian bytes of a word. -/
def wordBytes (w : BitVec 64) : List (BitVec 8) := leBytes 8 w

/-- A window filled with zeros. -/
def start (mem : ByteMem) (base : BitVec 64) (size : ℕ) : PushDown where
  mem := mem.memset base 0 size
  cursor := BitVec.ofNat 64 size
  writes := [(base, size)]

/-- Leave a gap. -/
def move (p : PushDown) (n : BitVec 64) : PushDown := { p with cursor := p.cursor - n }

/-- Store bytes below those that are there. -/
def push (base : BitVec 64) (p : PushDown) (bs : List (BitVec 8)) : PushDown :=
  let p := p.move (BitVec.ofNat 64 bs.length)
  { p with
    mem := p.mem.write (base + p.cursor) bs
    writes := (base + p.cursor, bs.length) :: p.writes }

/-- Store a word below what is there. -/
def pushWord (base : BitVec 64) (p : PushDown) (w : BitVec 64) : PushDown :=
  let p := p.move 8
  { p with
    mem := p.mem.store64 (base + p.cursor) w
    writes := (base + p.cursor, 8) :: p.writes }

/-- All the bytes of a write lie in the window. -/
def Inside (base : BitVec 64) (size : ℕ) (w : BitVec 64 × ℕ) : Prop :=
  ∀ k < w.2, (w.1 + BitVec.ofNat 64 k - base).toNat < size

/-- The window holds `image` from the cursor on and zeros below, all writes were inside, and the
memory outside is that of `m`. -/
structure Shows (m : ByteMem) (base : BitVec 64) (size : ℕ) (p : PushDown)
    (image : List (BitVec 8)) : Prop where
  length : p.cursor.toNat + image.length = size
  bytes : p.mem.Holds (base + p.cursor) image
  zero : ∀ k < p.cursor.toNat, p.mem (base + BitVec.ofNat 64 k) = 0
  inside : ∀ w ∈ p.writes, Inside base size w
  outside : ∀ x, ¬ (x - base).toNat < size → p.mem x = m x

variable {m : ByteMem} {base : BitVec 64} {size : ℕ} {p : PushDown} {image : List (BitVec 8)}

@[simp]
theorem length_wordBytes (w : BitVec 64) : (wordBytes w).length = 8 := length_leBytes 8 w

theorem getD_wordBytes (w : BitVec 64) {i : ℕ} (hi : i < 8) :
    (wordBytes w).getD i 0 = w.extractLsb' (8 * i) 8 :=
  getD_leBytes w hi

theorem wordBytes_zero : wordBytes 0 = List.replicate 8 0 := by decide

/-- A word is stored as its bytes. -/
theorem pushWord_eq (base : BitVec 64) (p : PushDown) (w : BitVec 64) :
    p.pushWord base w = p.push base (wordBytes w) := by
  have hmem : ∀ (m : ByteMem) (a : BitVec 64), m.store64 a w = m.write a (wordBytes w) := by
    intro m a
    funext x
    rw [ByteMem.store64, ByteMem.write, length_wordBytes]
    split
    · rename_i hx
      rw [getD_wordBytes w hx]
    · rfl
  rw [pushWord, push, length_wordBytes, hmem]
  rfl

/-- The first byte of a write inside the window. -/
theorem Inside.toNat_lt {c : BitVec 64} {n : ℕ} (h : Inside base size (base + c, n)) (hn : 0 < n) :
    c.toNat < size := by
  have hfirst : (base + c + BitVec.ofNat 64 0 - base).toNat < size := h 0 hn
  rwa [add_assoc, add_sub_cancel_left, show c + BitVec.ofNat 64 0 = c from add_zero c] at hfirst

theorem cursor_push (base : BitVec 64) (p : PushDown) (bs : List (BitVec 8)) :
    (p.push base bs).cursor = p.cursor - BitVec.ofNat 64 bs.length := rfl

theorem mem_writes_push {w : BitVec 64 × ℕ} (hw : w ∈ p.writes) (bs : List (BitVec 8)) :
    w ∈ (p.push base bs).writes :=
  List.mem_cons_of_mem _ hw

theorem shows_start (m : ByteMem) (base : BitVec 64) {size : ℕ} (hsize : size < 2 ^ 64) :
    Shows m base size (start m base size) [] := by
  have hcursor : (BitVec.ofNat 64 size).toNat = size := by
    rw [BitVec.toNat_ofNat, Nat.mod_eq_of_lt hsize]
  refine ⟨hcursor, ByteMem.holds_nil, fun k hk => ?_, fun w hw => ?_, fun x hx => if_neg hx⟩
  · have hk' : k < size := lt_of_lt_of_eq hk hcursor
    refine if_pos ?_
    rw [ByteMem.toNat_add_ofNat_sub base (by omega)]
    exact hk'
  · rw [List.mem_singleton.mp hw]
    intro k hk
    rw [ByteMem.toNat_add_ofNat_sub base (lt_trans hk hsize)]
    exact hk

theorem toNat_cursor_push (base : BitVec 64) (bs : List (BitVec 8))
    (hfit : bs.length ≤ p.cursor.toNat) :
    (p.push base bs).cursor.toNat = p.cursor.toNat - bs.length := by
  have hlt := p.cursor.isLt
  rw [cursor_push, BitVec.toNat_sub, BitVec.toNat_ofNat]
  omega

namespace Shows

theorem toNat_cursor (h : Shows m base size p image) : p.cursor.toNat = size - image.length := by
  have := h.length
  omega

/-- Below the cursor everything is zero, so a gap is a push of zeros. -/
theorem move (h : Shows m base size p image) {n : ℕ} (hfit : n + image.length ≤ size) :
    Shows m base size (p.move (BitVec.ofNat 64 n)) (List.replicate n 0 ++ image) := by
  have hlen := h.length
  have hlt := p.cursor.isLt
  have hcursor : (p.move (BitVec.ofNat 64 n)).cursor.toNat = p.cursor.toNat - n := by
    rw [PushDown.move, BitVec.toNat_sub, BitVec.toNat_ofNat]
    omega
  have hback : (p.move (BitVec.ofNat 64 n)).cursor + BitVec.ofNat 64 n = p.cursor :=
    sub_add_cancel _ _
  refine ⟨?_, ?_, fun k hk => h.zero k (by omega), h.inside, h.outside⟩
  · rw [List.length_append, List.length_replicate]
    omega
  · rw [ByteMem.holds_append, List.length_replicate, add_assoc, hback]
    refine ⟨fun k hk => ?_, h.bytes⟩
    rw [List.length_replicate] at hk
    have haddr : (p.move (BitVec.ofNat 64 n)).cursor + BitVec.ofNat 64 k =
        BitVec.ofNat 64 (p.cursor.toNat - n + k) := by
      rw [BitVec.ofNat_add, ← hcursor, BitVec.ofNat_toNat, BitVec.setWidth_eq]
    rw [add_assoc, haddr]
    refine (h.zero _ (by omega)).trans ?_
    simp [hk]

/-- Bytes that fit stand before those that are there. -/
theorem push (h : Shows m base size p image) (hsize : size < 2 ^ 64) {bs : List (BitVec 8)}
    (hfit : bs.length + image.length ≤ size) : Shows m base size (p.push base bs) (bs ++ image) := by
  have hlen := h.length
  have hcursor := toNat_cursor_push (p := p) base bs (by omega)
  -- the bytes of the window outside of the write are as before
  have hkeep : ∀ k < size, (k < p.cursor.toNat - bs.length ∨ p.cursor.toNat ≤ k) →
      (p.push base bs).mem (base + BitVec.ofNat 64 k) = p.mem (base + BitVec.ofNat 64 k) := by
    intro k hk hout
    refine if_neg fun hin => ?_
    have hdiff : (base + BitVec.ofNat 64 k - (base + (p.push base bs).cursor)).toNat < bs.length :=
      hin
    rw [add_sub_add_left_eq_sub, BitVec.toNat_sub, BitVec.toNat_ofNat, hcursor] at hdiff
    omega
  refine ⟨?_, ?_, fun k hk => ?_, fun w hw => ?_, fun x hx => ?_⟩
  · rw [List.length_append, hcursor]
    omega
  · rw [ByteMem.holds_append]
    refine ⟨ByteMem.holds_write _ _ (by omega), fun k hk => ?_⟩
    have hcursor' : (p.push base bs).cursor + BitVec.ofNat 64 bs.length = p.cursor :=
      sub_add_cancel _ _
    have haddr : p.cursor + BitVec.ofNat 64 k = BitVec.ofNat 64 (p.cursor.toNat + k) := by
      rw [BitVec.ofNat_add, BitVec.ofNat_toNat, BitVec.setWidth_eq]
    have hheld := h.bytes k hk
    rw [add_assoc, haddr] at hheld
    rw [add_assoc base, hcursor', add_assoc, haddr, hkeep _ (by omega) (Or.inr (by omega))]
    exact hheld
  · rw [hcursor] at hk
    rw [hkeep k (by omega) (Or.inl hk)]
    exact h.zero k (by omega)
  · rcases List.mem_cons.mp hw with rfl | hw
    · intro k hk
      have hk' : k < bs.length := hk
      show (base + (p.push base bs).cursor + BitVec.ofNat 64 k - base).toNat < size
      rw [add_assoc, add_sub_cancel_left, BitVec.toNat_add, hcursor, BitVec.toNat_ofNat]
      omega
    · exact h.inside w hw
  · refine Eq.trans (if_neg fun hin => hx ?_) (h.outside x hx)
    have hin' : (x - (base + (p.push base bs).cursor)).toNat < bs.length := hin
    rw [← sub_sub, BitVec.toNat_sub, hcursor] at hin'
    have hlt := (x - base).isLt
    omega

end Shows

/-- Bytes that do not fit are not stored inside the window. -/
theorem exists_outside_push (hsize : size ≤ 2 ^ 63) (hcursor : p.cursor.toNat ≤ size)
    (bs : List (BitVec 8)) (hfit : p.cursor.toNat < bs.length) :
    ∃ w ∈ (p.push base bs).writes, ¬ Inside base size w := by
  refine ⟨_, List.mem_cons_self, fun hinside => ?_⟩
  have hinside' : ∀ k < bs.length,
      ((p.push base bs).cursor.toNat + k % 2 ^ 64) % 2 ^ 64 < size := by
    intro k hk
    have hk' : (base + (p.push base bs).cursor + BitVec.ofNat 64 k - base).toNat < size :=
      hinside k hk
    rwa [add_assoc, add_sub_cancel_left, BitVec.toNat_add, BitVec.toNat_ofNat] at hk'
  have hpush : (p.push base bs).cursor.toNat =
      (2 ^ 64 - bs.length % 2 ^ 64 + p.cursor.toNat) % 2 ^ 64 := by
    rw [cursor_push, BitVec.toNat_sub, BitVec.toNat_ofNat]
  -- the first byte lies outside, or the bytes are so many that they come back to the window from
  -- below, and then one lies right behind its end
  have hfirst := hinside' 0 (by omega)
  have hlast := hinside' (size - (p.push base bs).cursor.toNat)
  omega

end PushDown
