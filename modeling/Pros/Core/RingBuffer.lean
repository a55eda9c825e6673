import Pros.Lib.Align
import Pros.Lib.Ring

/-!
# The ring buffer

Model of `kernel/src/core/ring_buffer.c`. The pointers to the buffer are not null; `out` may be.
-/

namespace Pros

/-! ## Model -/

/-- `struct ring_buffer`, with the storage that `buf` points to. -/
structure RingBuffer where
  buf : Word → BitVec 8
  capacity : Word
  head : Word
  tail : Word
  count : Word

/-- `ring_buffer_init`. -/
def ringBufferInit (rb : RingBuffer) (buf : Word → BitVec 8) (capacity : Word) : RingBuffer :=
  if capacity = 0 then rb
  else { buf, capacity, head := 0, tail := 0, count := 0 }

/-- `ring_buffer_push`. -/
def ringBufferPush (rb : RingBuffer) (byte : BitVec 8) : Bool × RingBuffer :=
  if rb.count = rb.capacity then (false, rb)
  else
    (true, { rb with
      buf := Function.update rb.buf rb.tail byte
      tail := (rb.tail + 1) % rb.capacity
      count := rb.count + 1 })

/-- `ring_buffer_pop`. `out` is what the output variable holds before and after the call, `none` for
a null pointer. -/
def ringBufferPop (rb : RingBuffer) (out : Option (BitVec 8)) :
    Bool × Option (BitVec 8) × RingBuffer :=
  if rb.count = 0 then (false, out, rb)
  else
    let byte := rb.buf rb.head
    (true, out.map fun _ => byte,
      { rb with head := (rb.head + 1) % rb.capacity, count := rb.count - 1 })

/-! ## The queue -/

variable {rb : RingBuffer} {queue : List (BitVec 8)} {byte : BitVec 8} {capacity : Word}

/-- The storage by index. -/
def RingBuffer.cell (rb : RingBuffer) (i : ℕ) : BitVec 8 := rb.buf (BitVec.ofNat 64 i)

/-- `queue` are the bytes that were pushed and not yet popped. -/
structure RingBuffer.Holds (rb : RingBuffer) (queue : List (BitVec 8)) : Prop where
  head : rb.head.toNat < rb.capacity.toNat
  count : rb.count.toNat = queue.length
  tail : rb.tail.toNat = Ring.place rb.capacity.toNat rb.head.toNat rb.count.toNat
  stores : Ring.Stores rb.cell rb.capacity.toNat rb.head.toNat queue

namespace RingBuffer.Holds

theorem capacity_pos (h : rb.Holds queue) : 0 < rb.capacity.toNat := Nat.zero_lt_of_lt h.head

theorem count_le (h : rb.Holds queue) : rb.count ≤ rb.capacity := by
  rw [BitVec.le_def, h.count]
  exact h.stores.length_le

theorem tail_lt (h : rb.Holds queue) : rb.tail < rb.capacity := by
  rw [BitVec.lt_def, h.tail]
  exact Ring.place_lt h.capacity_pos _ _

/-- The next index: `i + 1` does not wrap, because `i` is below the capacity. -/
theorem toNat_next {i : Word} (hi : i.toNat < rb.capacity.toNat) :
    ((i + 1) % rb.capacity).toNat = Ring.place rb.capacity.toNat i.toNat 1 := by
  have hlt := rb.capacity.isLt
  have hone : (1 : Word).toNat = 1 := rfl
  rw [BitVec.toNat_umod, BitVec.toNat_add, hone, Nat.mod_eq_of_lt (show i.toNat + 1 < 2 ^ 64 by omega)]
  rfl

theorem init (rb₀ : RingBuffer) (buf : Word → BitVec 8) (hcap : 1 ≤ capacity) :
    (ringBufferInit rb₀ buf capacity).Holds [] ∧
      (ringBufferInit rb₀ buf capacity).capacity = capacity := by
  have hpos : 0 < capacity.toNat := by
    have hone : (1 : Word).toNat ≤ capacity.toNat := hcap
    exact hone
  have hne : capacity ≠ 0 := by
    rintro rfl
    exact absurd hpos (by decide)
  rw [ringBufferInit, if_neg hne]
  exact ⟨⟨hpos, rfl, (Ring.place_zero hpos).symm, Ring.Stores.nil _ _ _⟩, rfl⟩

/-- A push is refused exactly when the buffer is full; the byte is dropped and nothing changes. -/
theorem push_full (h : rb.Holds queue) (hfull : ¬ queue.length < rb.capacity.toNat)
    (byte : BitVec 8) : ringBufferPush rb byte = (false, rb) := by
  have heq : rb.count = rb.capacity := by
    apply BitVec.eq_of_toNat_eq
    rw [h.count]
    exact le_antisymm h.stores.length_le (not_lt.mp hfull)
  rw [ringBufferPush, if_pos heq]

/-- Otherwise it appends. -/
theorem push (h : rb.Holds queue) (hroom : queue.length < rb.capacity.toNat) (byte : BitVec 8) :
    (ringBufferPush rb byte).1 = true ∧ (ringBufferPush rb byte).2.Holds (queue ++ [byte]) ∧
      (ringBufferPush rb byte).2.capacity = rb.capacity := by
  have hne : rb.count ≠ rb.capacity := by
    intro heq
    rw [← h.count, heq] at hroom
    exact lt_irrefl _ hroom
  have hlt := rb.capacity.isLt
  have hone : (1 : Word).toNat = 1 := rfl
  have hcount : (rb.count + 1).toNat = queue.length + 1 := by
    rw [BitVec.toNat_add, h.count, hone, Nat.mod_eq_of_lt (by omega)]
  rw [ringBufferPush, if_neg hne]
  refine ⟨rfl, ⟨h.head, ?_, ?_, ?_⟩, rfl⟩
  · rw [hcount, List.length_append, List.length_singleton]
  · change ((rb.tail + 1) % rb.capacity).toNat =
      Ring.place rb.capacity.toNat rb.head.toNat (rb.count + 1).toNat
    rw [toNat_next h.tail_lt, h.tail, hcount, h.count, Ring.place, Ring.place, Ring.place,
      Nat.mod_add_mod, Nat.add_assoc]
  · have htail : rb.tail = BitVec.ofNat 64
        (Ring.place rb.capacity.toNat rb.head.toNat queue.length) := by
      rw [← h.count, ← h.tail, BitVec.ofNat_toNat, BitVec.setWidth_eq]
    refine h.stores.push hroom ?_ fun i hi hne => ?_
    · rw [cell, ← htail]
      exact Function.update_self _ _ _
    · refine Function.update_of_ne (fun heq => hne ?_) _ _
      have hnat := congrArg BitVec.toNat heq
      rwa [BitVec.toNat_ofNat, Nat.mod_eq_of_lt (hi.trans hlt), h.tail, h.count] at hnat

/-- A pop of the empty buffer fails, and leaves the output alone. -/
theorem pop_empty (h : rb.Holds []) (out : Option (BitVec 8)) :
    ringBufferPop rb out = (false, out, rb) :=
  if_pos (BitVec.eq_of_toNat_eq h.count)

/-- Otherwise it returns the oldest byte. -/
theorem pop (h : rb.Holds (byte :: queue)) (out : Option (BitVec 8)) :
    (ringBufferPop rb out).1 = true ∧ rb.buf rb.head = byte ∧
      (ringBufferPop rb out).2.1 = out.map (fun _ => byte) ∧
      (ringBufferPop rb out).2.2.Holds queue ∧
      (ringBufferPop rb out).2.2.capacity = rb.capacity := by
  have hcount := h.count
  rw [List.length_cons] at hcount
  have hne : rb.count ≠ 0 := by
    intro hzero
    rw [hzero] at hcount
    exact absurd hcount (by simp)
  have hone : (1 : Word).toNat = 1 := rfl
  have hlt := rb.count.isLt
  have hless : (rb.count - 1).toNat = queue.length := by
    rw [BitVec.toNat_sub, hcount, hone]
    omega
  obtain ⟨hfirst, hstores⟩ := h.stores.pop h.head
  rw [cell, BitVec.ofNat_toNat, BitVec.setWidth_eq] at hfirst
  rw [ringBufferPop, if_neg hne, hfirst]
  refine ⟨rfl, rfl, rfl, ⟨?_, hless, ?_, ?_⟩, rfl⟩
  · change ((rb.head + 1) % rb.capacity).toNat < rb.capacity.toNat
    rw [toNat_next h.head]
    exact Ring.place_lt h.capacity_pos _ _
  · change rb.tail.toNat = Ring.place rb.capacity.toNat ((rb.head + 1) % rb.capacity).toNat
      (rb.count - 1).toNat
    rw [toNat_next h.head, Ring.place_place_one, hless, ← hcount, h.tail]
  · change Ring.Stores rb.cell rb.capacity.toNat ((rb.head + 1) % rb.capacity).toNat queue
    rwa [toNat_next h.head]

end RingBuffer.Holds

/-! ## Runs -/

/-- A buffer, the bytes that were accepted by a push and those that were popped. -/
structure RingTrace where
  rb : RingBuffer
  accepted : List (BitVec 8)
  popped : List (BitVec 8)

/-- A call on the buffer. The byte of a successful push is accepted, and a successful pop removes the
byte that `head` points to. -/
inductive RingStep : RingTrace → RingTrace → Prop
  | push (s : RingTrace) (byte : BitVec 8) :
      RingStep s
        { rb := (ringBufferPush s.rb byte).2
          accepted := s.accepted ++ if (ringBufferPush s.rb byte).1 then [byte] else []
          popped := s.popped }
  | pop (s : RingTrace) (out : Option (BitVec 8)) :
      RingStep s
        { rb := (ringBufferPop s.rb out).2.2
          accepted := s.accepted
          popped := s.popped ++ if (ringBufferPop s.rb out).1 then [s.rb.buf s.rb.head] else [] }

/-- The buffer holds what was accepted and not popped. -/
structure RingTrace.Ok (s : RingTrace) (capacity : Word) (queue : List (BitVec 8)) : Prop where
  holds : s.rb.Holds queue
  capacity : s.rb.capacity = capacity
  accepted : s.accepted = s.popped ++ queue

theorem RingTrace.Ok.step {s s' : RingTrace} (h : s.Ok capacity queue) (hstep : RingStep s s') :
    ∃ queue', s'.Ok capacity queue' := by
  cases hstep with
  | push byte =>
    by_cases hroom : queue.length < s.rb.capacity.toNat
    · obtain ⟨hok, hholds, hcap⟩ := h.holds.push hroom byte
      refine ⟨queue ++ [byte], hholds, hcap.trans h.capacity, ?_⟩
      rw [hok, h.accepted, if_pos rfl, List.append_assoc]
    · have hcall := h.holds.push_full hroom byte
      refine ⟨queue, ?_, ?_, ?_⟩
      · rw [hcall]
        exact h.holds
      · rw [hcall]
        exact h.capacity
      · simp [hcall, h.accepted]
  | pop out =>
    cases queue with
    | nil =>
      have hcall := h.holds.pop_empty out
      refine ⟨[], ?_, ?_, ?_⟩
      · rw [hcall]
        exact h.holds
      · rw [hcall]
        exact h.capacity
      · simp [hcall, h.accepted]
    | cons byte queue =>
      obtain ⟨hok, hfirst, -, hholds, hcap⟩ := h.holds.pop out
      refine ⟨queue, hholds, hcap.trans h.capacity, ?_⟩
      rw [hok, hfirst, h.accepted, if_pos rfl, List.append_assoc]
      rfl

/-- In every run from `ring_buffer_init` on, the indices stay below the capacity, and the bytes that
were accepted and not popped are the queue: a push appends to it unless it is full, and a pop removes
its first byte unless it is empty. -/
theorem ring_buffer_is_bounded_fifo (rb₀ : RingBuffer) (buf : Word → BitVec 8)
    (hcap : 1 ≤ capacity) {s : RingTrace}
    (hrun : Relation.ReflTransGen RingStep ⟨ringBufferInit rb₀ buf capacity, [], []⟩ s) :
    s.rb.capacity = capacity ∧ s.rb.head < capacity ∧ s.rb.tail < capacity ∧
    s.rb.count ≤ capacity ∧
    s.rb.tail.toNat = (s.rb.head.toNat + s.rb.count.toNat) % capacity.toNat ∧
    ∃ queue, s.accepted = s.popped ++ queue ∧ queue.length = s.rb.count.toNat ∧
      (∀ byte, (queue.length < capacity.toNat ∧ (ringBufferPush s.rb byte).1 = true) ∨
        (queue.length = capacity.toNat ∧ ringBufferPush s.rb byte = (false, s.rb))) ∧
      (∀ out, (queue = [] ∧ ringBufferPop s.rb out = (false, out, s.rb)) ∨
        ∃ byte rest, queue = byte :: rest ∧ (ringBufferPop s.rb out).1 = true ∧
          (ringBufferPop s.rb out).2.1 = out.map fun _ => byte) := by
  -- the calls keep the queue
  have hok : ∃ queue, s.Ok capacity queue := by
    induction hrun with
    | refl =>
      obtain ⟨hholds, hcapacity⟩ := RingBuffer.Holds.init rb₀ buf hcap
      exact ⟨[], hholds, hcapacity, rfl⟩
    | tail _ hstep ih =>
      obtain ⟨queue, hqueue⟩ := ih
      exact hqueue.step hstep
  obtain ⟨queue, hholds, rfl, haccepted⟩ := hok
  refine ⟨rfl, hholds.head, hholds.tail_lt, hholds.count_le, hholds.tail, queue, haccepted,
    hholds.count.symm, fun byte => ?_, fun out => ?_⟩
  · by_cases hroom : queue.length < s.rb.capacity.toNat
    · exact Or.inl ⟨hroom, (hholds.push hroom byte).1⟩
    · exact Or.inr ⟨le_antisymm hholds.stores.length_le (not_lt.mp hroom),
        hholds.push_full hroom byte⟩
  · cases queue with
    | nil => exact Or.inl ⟨rfl, hholds.pop_empty out⟩
    | cons byte rest =>
      obtain ⟨hok, -, hout, -, -⟩ := hholds.pop out
      exact Or.inr ⟨byte, rest, rfl, hok, hout⟩

/-- A buffer of one byte: the second push is refused, and the byte comes out again. -/
theorem ring_buffer_is_bounded_fifo_one :
    ∃ s : RingTrace, s.accepted = [0x11] ∧ s.popped = [0x11] ∧ s.rb.head < 1 ∧ s.rb.tail < 1 := by
  let rb : RingBuffer := ⟨fun _ => 0, 0, 0, 0, 0⟩
  have hrun : Relation.ReflTransGen RingStep ⟨ringBufferInit rb (fun _ => 0) 1, [], []⟩ _ :=
    .head (.push _ 0x11) (.head (.push _ 0x12) (.head (.pop _ (some 0xaa)) .refl))
  obtain ⟨-, hhead, htail, -⟩ := ring_buffer_is_bounded_fifo rb (fun _ => 0) (by decide) hrun
  exact ⟨_, by decide, by decide, hhead, htail⟩

end Pros
