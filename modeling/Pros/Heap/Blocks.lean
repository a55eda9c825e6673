import Mathlib

/-!
# Lists of memory blocks

What a heap made of blocks with headers does, apart from how the blocks are stored: a block is an
address, a payload size and a flag, and the heap is the list of its blocks. A block occupies its
32-byte header and its payload. Blocks are merged with the free blocks that follow them in the list
and in memory, and cut in two.
-/

namespace Pros

/-- A heap block: where it starts, how large its payload is, and whether it is free. -/
structure HeapBlk where
  addr : ℕ
  size : ℕ
  free : Bool
  deriving DecidableEq, Repr

namespace HeapBlk

/-- The end of the payload. -/
def stop (b : HeapBlk) : ℕ := b.addr + 32 + b.size

/-- The two blocks do not overlap. -/
def Apart (b c : HeapBlk) : Prop := b.stop ≤ c.addr ∨ c.stop ≤ b.addr

/-- Alignment of a block, and that it lies in the address space, above its lowest page. -/
structure Ok (b : HeapBlk) : Prop where
  addr_mod : b.addr % 16 = 0
  addr_ge : 4096 ≤ b.addr
  size_mod : b.size % 16 = 0
  size_pos : 0 < b.size
  stop_le : b.stop ≤ 2 ^ 64

/-- `b` takes over the blocks after it, as long as they are free and start where it ends. -/
def absorb : HeapBlk → List HeapBlk → HeapBlk × List HeapBlk
  | b, [] => (b, [])
  | b, c :: post =>
    if c.free = true ∧ b.stop = c.addr then
      absorb { b with size := b.size + (32 + c.size) } post
    else (b, c :: post)

/-- The list from `b` on, after `b` has been merged with what follows. -/
def coalesceAt (b : HeapBlk) (post : List HeapBlk) : List HeapBlk :=
  (absorb b post).1 :: (absorb b post).2

/-- What is left of `b` when its first `size` payload bytes are cut off. -/
def remainder (b : HeapBlk) (size : ℕ) : HeapBlk :=
  { addr := b.addr + 32 + size, size := b.size - 32 - size, free := true }

/-- The block itself after it has been cut down to `size` bytes, which happens only if that leaves
room for another block. -/
def splitHead (b : HeapBlk) (size : ℕ) : HeapBlk :=
  if b.size < size + 48 then b else { b with size }

/-- The list after `b` when `b` has been cut down to `size` bytes. -/
def splitTail (b : HeapBlk) (size : ℕ) (post : List HeapBlk) : List HeapBlk :=
  if b.size < size + 48 then post else coalesceAt (b.remainder size) post

/-- The list from `b` on, after `b` has been cut down to `size` bytes. -/
def splitAt (b : HeapBlk) (size : ℕ) (post : List HeapBlk) : List HeapBlk :=
  b.splitHead size :: b.splitTail size post

/-- The list from `b` on, after `b` has been cut down to `size` bytes and taken into use. -/
def takeAt (b : HeapBlk) (size : ℕ) (post : List HeapBlk) : List HeapBlk :=
  { b.splitHead size with free := false } :: b.splitTail size post

end HeapBlk

/-- The blocks are aligned and pairwise apart. -/
structure Layout (bs : List HeapBlk) : Prop where
  ok : ∀ b ∈ bs, b.Ok
  apart : bs.Pairwise HeapBlk.Apart

/-- The address belongs to one of the blocks, header included. -/
def Covers (bs : List HeapBlk) (x : ℕ) : Prop := ∃ b ∈ bs, b.addr ≤ x ∧ x < b.stop

open HeapBlk

variable {pre post bs : List HeapBlk} {b c : HeapBlk} {size x : ℕ}

theorem HeapBlk.Apart.symm (h : b.Apart c) : c.Apart b := Or.symm h

instance : Std.Symm HeapBlk.Apart := ⟨fun _ _ h => h.symm⟩

theorem covers_append {bs' : List HeapBlk} : Covers (bs ++ bs') x ↔ Covers bs x ∨ Covers bs' x := by
  simp only [Covers, List.mem_append]
  constructor
  · rintro ⟨b, hb | hb, hx⟩
    · exact Or.inl ⟨b, hb, hx⟩
    · exact Or.inr ⟨b, hb, hx⟩
  · rintro (⟨b, hb, hx⟩ | ⟨b, hb, hx⟩)
    · exact ⟨b, Or.inl hb, hx⟩
    · exact ⟨b, Or.inr hb, hx⟩

theorem covers_cons : Covers (b :: bs) x ↔ (b.addr ≤ x ∧ x < b.stop) ∨ Covers bs x := by
  simp [Covers]

namespace Layout

/-- Two different blocks of a layout are apart. -/
theorem apart_of_ne (h : Layout bs) (hb : b ∈ bs) (hc : c ∈ bs) (hne : b ≠ c) : b.Apart c :=
  h.apart.forall hb hc hne

/-- A block is apart from those before and after it in the list. -/
theorem apart_of_mem (h : Layout (pre ++ b :: post)) (hc : c ∈ pre ++ post) : b.Apart c := by
  have hpair := h.apart
  rw [List.pairwise_append, List.pairwise_cons] at hpair
  rcases List.mem_append.mp hc with hc | hc
  · exact (hpair.2.2 c hc b List.mem_cons_self).symm
  · exact hpair.2.1.1 c hc

/-- A block is determined by its address. -/
theorem eq_of_addr_eq (h : Layout bs) (hb : b ∈ bs) (hc : c ∈ bs) (haddr : b.addr = c.addr) :
    b = c := by
  by_contra hne
  have hb' := h.ok b hb
  rcases h.apart_of_ne hb hc hne with hd | hd <;> simp only [stop] at hd <;> omega

/-- Replace the blocks in the middle of a list by others that lie inside the same addresses. -/
theorem replace (mid mid' : List HeapBlk) (h : Layout (pre ++ (mid ++ post)))
    (hok : ∀ b ∈ mid', b.Ok) (hapart : mid'.Pairwise HeapBlk.Apart)
    (hin : ∀ b ∈ mid', ∀ c, (∀ d ∈ mid, d.Apart c) → b.Apart c) :
    Layout (pre ++ (mid' ++ post)) := by
  obtain ⟨hokAll, hall⟩ := h
  simp only [List.pairwise_append, List.mem_append] at hokAll hall ⊢
  obtain ⟨hpre, ⟨hmid, hpost, hmidpost⟩, hcross⟩ := hall
  refine ⟨?_, ?_⟩
  · simp only [List.mem_append]
    rintro b (hb | hb | hb)
    · exact hokAll b (Or.inl hb)
    · exact hok b hb
    · exact hokAll b (Or.inr (Or.inr hb))
  · simp only [List.pairwise_append, List.mem_append]
    refine ⟨hpre, ⟨hapart, hpost, fun b hb c hc => ?_⟩, ?_⟩
    · exact hin b hb c fun d hd => hmidpost d hd c hc
    · rintro b hb c (hc | hc)
      · exact (hin c hc b fun d hd => (hcross b hb d (Or.inl hd)).symm).symm
      · exact hcross b hb c (Or.inr hc)

/-- Merging two neighbours in memory. -/
theorem merge (h : Layout (pre ++ b :: c :: post)) (hstop : b.stop = c.addr) :
    Layout (pre ++ { b with size := b.size + (32 + c.size) } :: post) := by
  have hb := h.ok b (by simp)
  have hc := h.ok c (by simp)
  obtain ⟨h1, h2, h3, h4, h5⟩ := hb
  obtain ⟨k1, k2, k3, k4, k5⟩ := hc
  simp only [stop] at hstop k5
  refine Layout.replace [b, c] [_] h ?_ (List.pairwise_singleton _ _) ?_
  · simp only [List.mem_singleton, forall_eq]
    exact ⟨h1, h2, by simp only; omega, by simp only; omega, by simp only [stop]; omega⟩
  · simp only [forall_eq, List.mem_cons, List.not_mem_nil, or_false,
      forall_eq_or_imp, HeapBlk.Apart, stop]
    intro d hd
    omega

/-- Cutting a block in two. -/
theorem cut (h : Layout (pre ++ b :: post)) (hsize : size % 16 = 0) (hpos : 0 < size)
    (hle : size + 48 ≤ b.size) :
    Layout (pre ++ { b with size } :: b.remainder size :: post) := by
  obtain ⟨h1, h2, h3, h4, h5⟩ := h.ok b (by simp)
  simp only [stop] at h5
  refine Layout.replace [b] [_, _] h ?_ ?_ ?_
  · simp only [List.mem_cons, List.not_mem_nil, or_false, forall_eq_or_imp, forall_eq]
    refine ⟨⟨h1, h2, hsize, hpos, ?_⟩, ⟨?_, ?_, ?_, ?_, ?_⟩⟩ <;>
      simp only [stop, remainder] <;> omega
  · simp only [List.pairwise_pair, HeapBlk.Apart, stop, remainder]
    omega
  · simp only [forall_eq, List.mem_cons, List.not_mem_nil, or_false,
      forall_eq_or_imp, HeapBlk.Apart, stop, remainder]
    constructor <;> intro d hd <;> omega

/-- The flag of a block plays no role. -/
theorem setFree (h : Layout (pre ++ b :: post)) (free : Bool) :
    Layout (pre ++ { b with free } :: post) := by
  obtain ⟨h1, h2, h3, h4, h5⟩ := h.ok b (by simp)
  refine Layout.replace [b] [_] h ?_ (List.pairwise_singleton _ _) ?_
  · simp only [List.mem_singleton, forall_eq]
    exact ⟨h1, h2, h3, h4, h5⟩
  · simp [HeapBlk.Apart, stop]

/-- A new block in front. -/
theorem push (h : Layout bs) (hb : b.Ok) (hapart : ∀ c ∈ bs, b.Apart c) : Layout (b :: bs) where
  ok := by
    simp only [List.mem_cons, forall_eq_or_imp]
    exact ⟨hb, h.ok⟩
  apart := List.pairwise_cons.2 ⟨hapart, h.apart⟩

/-- The merging loop, one step at a time. -/
theorem coalesceAt (h : Layout (pre ++ b :: post)) : Layout (pre ++ coalesceAt b post) := by
  induction post generalizing b with
  | nil => exact h
  | cons c post ih =>
    rw [HeapBlk.coalesceAt, absorb]
    split_ifs with hc
    · exact ih (h.merge hc.2)
    · exact h

theorem splitAt (h : Layout (pre ++ b :: post)) (hsize : size % 16 = 0) (hpos : 0 < size) :
    Layout (pre ++ splitAt b size post) := by
  rw [HeapBlk.splitAt, splitHead, splitTail]
  split
  · exact h
  · have hcut := h.cut hsize hpos (by omega)
    have hassoc : pre ++ { b with size } :: b.remainder size :: post =
        (pre ++ [{ b with size }]) ++ b.remainder size :: post := by simp
    rw [hassoc] at hcut
    simpa using hcut.coalesceAt

end Layout

/-! ### Which addresses the blocks cover -/

theorem covers_coalesceAt : Covers (coalesceAt b post) x ↔ Covers (b :: post) x := by
  induction post generalizing b with
  | nil => rfl
  | cons c post ih =>
    rw [coalesceAt, absorb]
    split_ifs with hc
    · have hstop := hc.2
      rw [← coalesceAt, ih]
      simp only [covers_cons, stop] at hstop ⊢
      -- the two blocks touch, so together they cover what the merged one does
      rw [← or_assoc]
      refine or_congr_left ?_
      omega
    · rfl

theorem covers_splitAt : Covers (splitAt b size post) x ↔ Covers (b :: post) x := by
  rw [splitAt, splitHead, splitTail]
  split
  · rfl
  · rw [covers_cons, covers_coalesceAt, covers_cons, covers_cons, ← or_assoc]
    refine or_congr_left ?_
    simp only [stop, remainder]
    omega

/-! ### What happens to the single blocks -/

namespace HeapBlk

/-- Merging keeps the place and the flag of the block, and does not make it smaller. -/
theorem absorb_fst : ((absorb b post).1.addr = b.addr ∧ (absorb b post).1.free = b.free) ∧
    b.size ≤ (absorb b post).1.size := by
  induction post generalizing b with
  | nil => exact ⟨⟨rfl, rfl⟩, le_rfl⟩
  | cons c post ih =>
    rw [absorb]
    split
    · obtain ⟨⟨haddr, hfree⟩, hsize⟩ := ih (b := { b with size := b.size + (32 + c.size) })
      exact ⟨⟨haddr, hfree⟩, le_trans (Nat.le_add_right _ _) hsize⟩
    · exact ⟨⟨rfl, rfl⟩, le_rfl⟩

/-- The blocks after the merged one were there before. -/
theorem absorb_snd_suffix : (absorb b post).2 <:+ post := by
  induction post generalizing b with
  | nil => exact List.suffix_rfl
  | cons c post ih =>
    rw [absorb]
    split
    · exact ih.trans (List.suffix_cons c post)
    · exact List.suffix_rfl

/-- Only free blocks are absorbed. -/
theorem mem_absorb_snd (hc : c ∈ post) (hfree : c.free = false) : c ∈ (absorb b post).2 := by
  induction post generalizing b with
  | nil => cases hc
  | cons d post ih =>
    rw [absorb]
    split_ifs with hd
    · rcases List.mem_cons.1 hc with rfl | hc
      · rw [hfree] at hd
        exact absurd hd.1 Bool.false_ne_true
      · exact ih hc
    · exact hc

/-- A block in use survives the merging of another block. -/
theorem coalesceAt_keeps (hc : c ∈ post) (hfree : c.free = false) : c ∈ coalesceAt b post :=
  List.mem_cons_of_mem _ (mem_absorb_snd hc hfree)

/-- Cutting keeps the place and the flag of the block. -/
theorem splitHead_addr : (b.splitHead size).addr = b.addr := by
  rw [splitHead]
  split <;> rfl

theorem splitHead_free : (b.splitHead size).free = b.free := by
  rw [splitHead]
  split <;> rfl

/-- A block large enough for `size` bytes still is after it was cut. -/
theorem le_splitHead_size (h : size ≤ b.size) : size ≤ (b.splitHead size).size := by
  rw [splitHead]
  split
  · exact h
  · exact le_rfl

/-- A block in use survives the cutting of another block. -/
theorem splitTail_keeps (hc : c ∈ post) (hfree : c.free = false) : c ∈ b.splitTail size post := by
  rw [splitTail]
  split
  · exact hc
  · exact coalesceAt_keeps hc hfree

end HeapBlk

end Pros
