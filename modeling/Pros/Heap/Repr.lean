import Pros.Heap.Blocks
import Pros.Heap.Model
import Pros.Lib.Links

/-!
# The block list in memory

`HeapRepr s bs` says that the headers in the memory of `s`, followed from `heap_block_list`, describe
the blocks `bs`, in this order. The functions of the heap that change headers have one lemma each,
stated on the list of blocks: merging is `HeapBlk.coalesceAt`, cutting is `HeapBlk.splitAt`. Each of
the lemmas also says which headers the function wrote, so that all other bytes are known to be
unchanged.
-/

namespace Pros

open HeapBlk

/-- The address of the header. -/
def HeapBlk.ptr (b : HeapBlk) : Word := BitVec.ofNat 64 b.addr

/-- The address of the payload, which is what the heap hands out. -/
def HeapBlk.payload (b : HeapBlk) : Word := b.ptr + heapHeaderSize

/-- The header in memory says what the block says, apart from the link. -/
structure Header (s : Heap) (b : HeapBlk) : Prop where
  size : s.size b.ptr = BitVec.ofNat 64 b.size
  isFree : s.isFree b.ptr = b.free

/-- The memory of the heap holds the blocks `bs`, in list order. -/
structure HeapRepr (s : Heap) (bs : List HeapBlk) : Prop where
  links : Links s.next 0 s.heapBlockList (bs.map HeapBlk.ptr)
  header : ∀ b ∈ bs, Header s b

/-- Every byte outside the headers at the addresses `hs` is the same in both memories, and so is
the head of the list. -/
structure HeadersOnly (hs : List Word) (s s' : Heap) : Prop where
  mem : ∀ x, (∀ h ∈ hs, ¬ (x - h).toNat < 24) → s'.mem x = s.mem x
  head : s'.heapBlockList = s.heapBlockList
  pages : s'.pages = s.pages

variable {s s' s'' : Heap} {b c : HeapBlk} {bs pre post : List HeapBlk} {hs : List Word}
  {a v : Word} {n : ℕ}

@[simp]
theorem heapHeaderSize_eq : heapHeaderSize = 32 := by decide

/-! ## Addresses -/

theorem HeapBlk.Ok.toNat_ptr (hb : b.Ok) : b.ptr.toNat = b.addr := by
  have hle := hb.stop_le
  rw [HeapBlk.ptr, BitVec.toNat_ofNat, Nat.mod_eq_of_lt]
  simp only [stop] at hle
  omega

theorem HeapBlk.Ok.ptr_ne_zero (hb : b.Ok) : b.ptr ≠ 0 := by
  intro h0
  have hge := hb.addr_ge
  have hptr := hb.toNat_ptr
  rw [h0] at hptr
  simp at hptr
  omega

theorem HeapBlk.Ok.toNat_size (hb : b.Ok) : (BitVec.ofNat 64 b.size).toNat = b.size := by
  have hle := hb.stop_le
  rw [BitVec.toNat_ofNat, Nat.mod_eq_of_lt]
  simp only [stop] at hle
  omega

/-- Blocks that are apart occupy ranges of memory that are. -/
theorem HeapBlk.Apart.memory (h : b.Apart c) (hb : b.Ok) (hc : c.Ok) :
    ByteMem.Apart b.ptr (32 + b.size) c.ptr (32 + c.size) := by
  have hb' := hb.stop_le
  have hc' := hc.stop_le
  simp only [stop] at hb' hc'
  rcases h with h | h
  · refine ByteMem.apart_of_le ?_ ?_ <;> rw [hc.toNat_ptr] <;> [rw [hb.toNat_ptr]; skip] <;>
      simp only [stop] at h <;> omega
  · refine (ByteMem.apart_of_le ?_ ?_).symm <;> rw [hb.toNat_ptr] <;> [rw [hc.toNat_ptr]; skip] <;>
      simp only [stop] at h <;> omega

/-- The header of a block does not meet the headers before and after it in the list. -/
theorem Layout.header_apart (h : Layout (pre ++ b :: post)) (hc : c ∈ pre ++ post) :
    ByteMem.Apart b.ptr 24 c.ptr 24 := by
  have hcmem : c ∈ pre ++ b :: post := by
    rcases List.mem_append.mp hc with hc | hc <;> simp [hc]
  have hmem := (h.apart_of_mem hc).memory (h.ok b (by simp)) (h.ok c hcmem)
  exact hmem.mono (by omega) (by omega)

/-! ## Writing one header -/

namespace HeadersOnly

theorem refl (hs : List Word) (s : Heap) : HeadersOnly hs s s := ⟨fun _ _ => rfl, rfl, rfl⟩

theorem trans (h : HeadersOnly hs s s') (h' : HeadersOnly hs s' s'') : HeadersOnly hs s s'' :=
  ⟨fun x hx => (h'.mem x hx).trans (h.mem x hx), h'.head.trans h.head, h'.pages.trans h.pages⟩

theorem mono {hs' : List Word} (h : HeadersOnly hs s s') (hsub : hs ⊆ hs') :
    HeadersOnly hs' s s' :=
  ⟨fun x hx => h.mem x fun a ha => hx a (hsub ha), h.head, h.pages⟩

/-- What a write into a header does not meet is unchanged. -/
theorem agreeOn {k : ℕ} (h : HeadersOnly hs s s') (hapart : ∀ a ∈ hs, ByteMem.Apart a 24 v k) :
    ByteMem.AgreeOn s.mem s'.mem v k :=
  fun x hx => h.mem x fun a ha hxa => hapart a ha x hxa hx

end HeadersOnly

theorem headersOnly_setSize : HeadersOnly [a] s (s.setSize a v) := by
  refine ⟨fun x hx => if_neg ?_, rfl, rfl⟩
  have h24 := hx a List.mem_cons_self
  omega

theorem headersOnly_setIsFree {f : Bool} : HeadersOnly [a] s (s.setIsFree a f) := by
  refine ⟨fun x hx => if_neg ?_, rfl, rfl⟩
  have h24 := hx a List.mem_cons_self
  rintro rfl
  bv_omega

theorem headersOnly_setNext : HeadersOnly [a] s (s.setNext a v) := by
  refine ⟨fun x hx => if_neg ?_, rfl, rfl⟩
  have h24 := hx a List.mem_cons_self
  bv_omega

/-- The fields of a header depend on its bytes only. -/
theorem fields_of_agreeOn (h : ByteMem.AgreeOn s.mem s'.mem a 24) :
    s'.size a = s.size a ∧ s'.isFree a = s.isFree a ∧ s'.next a = s.next a := by
  refine ⟨?_, ?_, ?_⟩
  · exact ByteMem.AgreeOn.load64_eq fun x hx => h x (by omega)
  · rw [Heap.isFree, Heap.isFree, h (a + 8) (by bv_omega)]
  · exact ByteMem.AgreeOn.load64_eq fun x hx => h x (by bv_omega)

/-! The three fields of one header do not meet each other. -/

@[simp]
theorem Heap.size_setSize : (s.setSize a v).size a = v :=
  ByteMem.load64_store64_self _ _ _

@[simp]
theorem Heap.next_setNext : (s.setNext a v).next a = v :=
  ByteMem.load64_store64_self _ _ _

@[simp]
theorem Heap.isFree_setIsFree {f : Bool} : (s.setIsFree a f).isFree a = f := by
  cases f <;> simp [Heap.isFree, Heap.setIsFree, ByteMem.store8]

@[simp]
theorem Heap.next_setSize : (s.setSize a v).next a = s.next a :=
  ByteMem.load64_store64_of_apart fun x hx hx' => by bv_omega

@[simp]
theorem Heap.size_setNext : (s.setNext a v).size a = s.size a :=
  ByteMem.load64_store64_of_apart fun x hx hx' => by bv_omega

@[simp]
theorem Heap.isFree_setSize : (s.setSize a v).isFree a = s.isFree a := by
  have hout : ¬ (a + 8 - a).toNat < 8 := by bv_omega
  simp only [Heap.isFree, Heap.setSize, ByteMem.store64_apply_of_apart hout]

@[simp]
theorem Heap.isFree_setNext : (s.setNext a v).isFree a = s.isFree a := by
  have hout : ¬ (a + 8 - (a + 16)).toNat < 8 := by bv_omega
  simp only [Heap.isFree, Heap.setNext, ByteMem.store64_apply_of_apart hout]

@[simp]
theorem Heap.size_setIsFree {f : Bool} : (s.setIsFree a f).size a = s.size a :=
  ByteMem.AgreeOn.load64_eq fun x hx => if_neg (by rintro rfl; bv_omega)

@[simp]
theorem Heap.next_setIsFree {f : Bool} : (s.setIsFree a f).next a = s.next a :=
  ByteMem.AgreeOn.load64_eq fun x hx => if_neg (by rintro rfl; bv_omega)

/-! ## The list of blocks -/

namespace HeapRepr

theorem length_lt (h : HeapRepr s bs) : bs.length < walkBound := by
  have hlt := h.links.length_lt_two_pow
  rwa [List.length_map] at hlt

/-- Only the headers of the blocks matter. -/
theorem of_headers (h : HeapRepr s bs) (hhead : s'.heapBlockList = s.heapBlockList)
    (hmem : ∀ b ∈ bs, ByteMem.AgreeOn s.mem s'.mem b.ptr 24) : HeapRepr s' bs := by
  have hfields : ∀ b ∈ bs, s'.size b.ptr = s.size b.ptr ∧ s'.isFree b.ptr = s.isFree b.ptr ∧
      s'.next b.ptr = s.next b.ptr := fun b hb => fields_of_agreeOn (hmem b hb)
  refine ⟨?_, fun b hb => ⟨?_, ?_⟩⟩
  · rw [hhead]
    refine h.links.congr fun a ha => ?_
    obtain ⟨b, hb, rfl⟩ := List.mem_map.mp ha
    exact (hfields b hb).2.2
  · rw [(hfields b hb).1, (h.header b hb).size]
  · rw [(hfields b hb).2.1, (h.header b hb).isFree]

/-- The link of a block is the next block of the list. -/
theorem next_eq (h : HeapRepr s (pre ++ b :: post)) : s.next b.ptr = (post.map HeapBlk.ptr).headD 0 := by
  have hlinks := h.links
  rw [List.map_append] at hlinks
  exact hlinks.suffix.2.2.head_eq

/-- The links after a block. -/
theorem links_post (h : HeapRepr s (pre ++ b :: post)) :
    Links s.next 0 (s.next b.ptr) (post.map HeapBlk.ptr) := by
  have hlinks := h.links
  rw [List.map_append] at hlinks
  exact hlinks.suffix.2.2

/-- Rewrite the header of `b`, and with it the list after `b`. -/
theorem splice {b' : HeapBlk} {run : List HeapBlk} (h : HeapRepr s (pre ++ b :: run))
    (hhead : s'.heapBlockList = s.heapBlockList) (hptr : b'.ptr = b.ptr)
    (hpre : ∀ c ∈ pre, s'.size c.ptr = s.size c.ptr ∧ s'.isFree c.ptr = s.isFree c.ptr ∧
      s'.next c.ptr = s.next c.ptr)
    (hlinks : Links s'.next 0 (s'.next b.ptr) (post.map HeapBlk.ptr))
    (hpost : ∀ c ∈ b' :: post, Header s' c) : HeapRepr s' (pre ++ b' :: post) := by
  constructor
  · have hl : Links s.next 0 s.heapBlockList
        ((pre.map HeapBlk.ptr ++ [b.ptr]) ++ run.map HeapBlk.ptr) := by simpa using h.links
    have hl' := hl.splice hlinks fun a ha => by
      obtain ⟨c, hc, rfl⟩ := List.mem_map.mp ha
      exact (hpre c hc).2.2
    rw [hhead]
    simpa [hptr] using hl'
  · intro c hc
    rcases List.mem_append.mp hc with hc | hc
    · have hold := h.header c (List.mem_append_left _ hc)
      exact ⟨by rw [(hpre c hc).1, hold.size], by rw [(hpre c hc).2.1, hold.isFree]⟩
    · exact hpost c hc

/-- Rewrite size and flag of one block, and drop the blocks `run` after it from the list. -/
theorem rewrite (run : List HeapBlk) {b' : HeapBlk} (h : HeapRepr s (pre ++ b :: (run ++ post)))
    (hl : Layout (pre ++ b :: (run ++ post))) (hw : HeadersOnly [b.ptr] s s')
    (hptr : b'.ptr = b.ptr) (hb' : Header s' b')
    (hnext : s'.next b.ptr = (post.map HeapBlk.ptr).headD 0) : HeapRepr s' (pre ++ b' :: post) := by
  -- the header of any other block is apart from the one that is written
  have hother : ∀ c ∈ pre ++ post, s'.size c.ptr = s.size c.ptr ∧
      s'.isFree c.ptr = s.isFree c.ptr ∧ s'.next c.ptr = s.next c.ptr := by
    intro c hc
    refine fields_of_agreeOn (hw.agreeOn fun a ha => ?_)
    rw [List.mem_singleton.mp ha]
    refine hl.header_apart ?_
    rcases List.mem_append.mp hc with hc | hc <;> simp [hc]
  refine h.splice hw.head hptr (fun c hc => hother c (List.mem_append_left _ hc)) ?_ ?_
  · have hsuffix : Links s.next 0 ((post.map HeapBlk.ptr).headD 0) (post.map HeapBlk.ptr) := by
      have hlinks := h.links_post
      rw [List.map_append] at hlinks
      exact hlinks.suffix
    rw [hnext]
    refine hsuffix.congr fun a ha => ?_
    obtain ⟨c, hc, rfl⟩ := List.mem_map.mp ha
    exact (hother c (List.mem_append_right _ hc)).2.2
  · intro c hc
    rcases List.mem_cons.mp hc with rfl | hc
    · exact hb'
    · have hold := h.header c (by simp [hc])
      have hsame := hother c (List.mem_append_right _ hc)
      exact ⟨by rw [hsame.1, hold.size], by rw [hsame.2.1, hold.isFree]⟩

/-- A block in front of the list. -/
theorem push (h : HeapRepr s bs) (hl : Layout (b :: bs)) (hhead : s'.heapBlockList = b.ptr)
    (hmem : ∀ x, ¬ (x - b.ptr).toNat < 24 → s'.mem x = s.mem x) (hb : Header s' b)
    (hnext : s'.next b.ptr = s.heapBlockList) : HeapRepr s' (b :: bs) := by
  have hother : ∀ c ∈ bs, s'.size c.ptr = s.size c.ptr ∧ s'.isFree c.ptr = s.isFree c.ptr ∧
      s'.next c.ptr = s.next c.ptr := by
    intro c hc
    have hapart : ByteMem.Apart b.ptr 24 c.ptr 24 := @Layout.header_apart b c [] bs hl hc
    exact fields_of_agreeOn fun x hx => hmem x (hapart.symm x hx)
  constructor
  · rw [hhead]
    refine h.links.push (hl.ok b (by simp)).ptr_ne_zero hnext fun a ha => ?_
    obtain ⟨c, hc, rfl⟩ := List.mem_map.mp ha
    exact (hother c hc).2.2
  · intro c hc
    rcases List.mem_cons.mp hc with rfl | hc
    · exact hb
    · have hold := h.header c hc
      exact ⟨by rw [(hother c hc).1, hold.size], by rw [(hother c hc).2.1, hold.isFree]⟩

/-- Setting the flag of a block. -/
theorem setIsFree (h : HeapRepr s (pre ++ b :: post)) (hl : Layout (pre ++ b :: post)) (f : Bool) :
    HeapRepr (s.setIsFree b.ptr f) (pre ++ { b with free := f } :: post) := by
  have hb := h.header b (by simp)
  refine rewrite [] h hl headersOnly_setIsFree rfl ⟨?_, ?_⟩ ?_
  · show (s.setIsFree b.ptr f).size b.ptr = _
    rw [Heap.size_setIsFree, hb.size]
  · exact Heap.isFree_setIsFree
  · rw [Heap.next_setIsFree, h.next_eq]

/-! ## Merging -/

/-- The test of the merging loop, read on the list of blocks. -/
theorem coalesce_test (h : HeapRepr s (pre ++ b :: c :: post)) (hl : Layout (pre ++ b :: c :: post)) :
    (s.next b.ptr ≠ 0 ∧ s.isFree (s.next b.ptr) ∧
      b.ptr + heapHeaderSize + s.size b.ptr = s.next b.ptr) ↔ c.free = true ∧ b.stop = c.addr := by
  have hb := hl.ok b (by simp)
  have hc := hl.ok c (by simp)
  have hnext : s.next b.ptr = c.ptr := h.next_eq
  rw [hnext, (h.header c (by simp)).isFree, (h.header b (by simp)).size]
  have hend : b.ptr + heapHeaderSize + BitVec.ofNat 64 b.size = BitVec.ofNat 64 b.stop := by
    simp only [HeapBlk.ptr, stop, BitVec.ofNat_add]
    rfl
  have hiff : BitVec.ofNat 64 b.stop = c.ptr ↔ b.stop = c.addr := by
    -- the end of `b` may be `2 ^ 64`, but then it is the null address and no block starts there
    have h1 := hb.stop_le
    have h2 := hc.stop_le
    have h3 := hc.addr_ge
    simp only [stop] at h2
    constructor
    · intro heq
      have hnat := congrArg BitVec.toNat heq
      rw [hc.toNat_ptr, BitVec.toNat_ofNat] at hnat
      omega
    · intro heq
      rw [heq, HeapBlk.ptr]
  rw [hend, hiff]
  exact ⟨fun hcond => hcond.2, fun hcond => ⟨hc.ptr_ne_zero, hcond⟩⟩

/-- One round of the loop drops the next block from the list. -/
theorem coalesce_step (h : HeapRepr s (pre ++ b :: c :: post)) (hl : Layout (pre ++ b :: c :: post)) :
    HeapRepr ((s.setSize b.ptr (s.size b.ptr + (heapHeaderSize + s.size (s.next b.ptr)))).setNext b.ptr
        ((s.setSize b.ptr (s.size b.ptr + (heapHeaderSize + s.size (s.next b.ptr)))).next
          ((s.setSize b.ptr (s.size b.ptr + (heapHeaderSize + s.size (s.next b.ptr)))).next b.ptr)))
      (pre ++ { b with size := b.size + (32 + c.size) } :: post) := by
  have hb := h.header b (by simp)
  have hc := h.header c (by simp)
  have hnext : s.next b.ptr = c.ptr := h.next_eq
  have hnext' : s.next c.ptr = (post.map HeapBlk.ptr).headD 0 := by
    have h' : HeapRepr s ((pre ++ [b]) ++ c :: post) := by simpa using h
    exact h'.next_eq
  refine rewrite [c] h hl (headersOnly_setSize.trans headersOnly_setNext) rfl ⟨?_, ?_⟩ ?_
  · show Heap.size _ b.ptr = _
    rw [Heap.size_setNext, Heap.size_setSize, hnext, hb.size, hc.size]
    simp [BitVec.ofNat_add]
  · show Heap.isFree _ b.ptr = _
    rw [Heap.isFree_setNext, Heap.isFree_setSize, hb.isFree]
  · -- the link of `c` is read after the size of `b` was written
    rw [Heap.next_setNext, Heap.next_setSize, hnext, ← hnext']
    refine (fields_of_agreeOn (headersOnly_setSize.agreeOn fun a ha => ?_)).2.2
    rw [List.mem_singleton.mp ha]
    exact hl.header_apart (by simp)

/-- The merging loop, by induction on the blocks after `b`; every round uses up one of them. -/
theorem coalesceLoop (fuel : ℕ) (h : HeapRepr s (pre ++ b :: post)) (hl : Layout (pre ++ b :: post))
    (hfuel : post.length < fuel) :
    ∃ s', heapBlockCoalesceLoop fuel s b.ptr = some s' ∧ HeapRepr s' (pre ++ coalesceAt b post) ∧
      HeadersOnly [b.ptr] s s' := by
  induction post generalizing s b fuel with
  | nil =>
    obtain _ | fuel := fuel
    · simp at hfuel
    have hnext : s.next b.ptr = 0 := h.next_eq
    refine ⟨s, ?_, h, HeadersOnly.refl _ _⟩
    rw [heapBlockCoalesceLoop, if_neg fun hcond => hcond.1 hnext]
  | cons c post ih =>
    obtain _ | fuel := fuel
    · simp at hfuel
    rw [heapBlockCoalesceLoop, coalesceAt, absorb]
    by_cases hcond : c.free = true ∧ b.stop = c.addr
    · rw [if_pos ((h.coalesce_test hl).mpr hcond), if_pos hcond]
      obtain ⟨s', hs', hrepr, hw⟩ := ih fuel (h.coalesce_step hl) (hl.merge hcond.2)
        (Nat.lt_of_succ_lt_succ hfuel)
      exact ⟨s', hs', hrepr, (headersOnly_setSize.trans headersOnly_setNext).trans hw⟩
    · rw [if_neg (mt (h.coalesce_test hl).mp hcond), if_neg hcond]
      exact ⟨s, rfl, h, HeadersOnly.refl _ _⟩

/-- `heap_block_coalesce` merges the block with what follows, and writes its header only. -/
theorem coalesce (h : HeapRepr s (pre ++ b :: post)) (hl : Layout (pre ++ b :: post)) :
    ∃ s', heapBlockCoalesce s b.ptr = some s' ∧ HeapRepr s' (pre ++ coalesceAt b post) ∧
      HeadersOnly [b.ptr] s s' := by
  have hlen := h.length_lt
  simp only [List.length_append, List.length_cons] at hlen
  exact h.coalesceLoop walkBound hl (by omega)

/-! ## Cutting -/

/-- The size test of `heap_block_split` does not wrap: the block is known to have room. -/
theorem split_test (h : HeapRepr s (pre ++ b :: post)) (hl : Layout (pre ++ b :: post)) {size : ℕ}
    (hsize : size ≤ b.size) :
    s.size b.ptr < BitVec.ofNat 64 size + heapHeaderSize + heapAlignment ↔ b.size < size + 48 := by
  have hb := hl.ok b (by simp)
  have hle := hb.stop_le
  have hge := hb.addr_ge
  simp only [stop] at hle
  rw [(h.header b (by simp)).size, BitVec.lt_def, hb.toNat_size]
  have hsum : (BitVec.ofNat 64 size + heapHeaderSize + heapAlignment).toNat = size + 48 := by
    rw [heapHeaderSize_eq]
    bv_omega
  rw [hsum]

/-- The header of the remainder, and the link and the size of the block before it. -/
theorem split_headers (h : HeapRepr s (pre ++ b :: post)) (hl : Layout (pre ++ b :: post)) {size : ℕ}
    (hmod : size % 16 = 0) (hpos : 0 < size) (hle : size + 48 ≤ b.size) :
    let rem := (b.remainder size).ptr
    let s₁ := s.setSize rem (s.size b.ptr - heapHeaderSize - BitVec.ofNat 64 size)
    let s₂ := s₁.setIsFree rem true
    let s₃ := s₂.setNext rem (s₂.next b.ptr)
    let s₄ := s₃.setNext b.ptr rem
    let s₅ := s₄.setSize b.ptr (BitVec.ofNat 64 size)
    HeapRepr s₅ (pre ++ { b with size } :: b.remainder size :: post) ∧
      HeadersOnly [b.ptr, rem] s s₅ := by
  intro rem s₁ s₂ s₃ s₄ s₅
  have hcut := hl.cut hmod hpos hle
  have hcut' : Layout ((pre ++ [{ b with size }]) ++ b.remainder size :: post) := by
    simpa using hcut
  have hrem : HeadersOnly [rem] s s₃ :=
    (headersOnly_setSize.trans headersOnly_setIsFree).trans headersOnly_setNext
  have hblk : HeadersOnly [b.ptr] s₃ s₅ := headersOnly_setNext.trans headersOnly_setSize
  have hw : HeadersOnly [b.ptr, rem] s s₅ :=
    (hrem.mono (by simp)).trans (hblk.mono (by simp))
  -- the two headers that are written do not meet, and neither meets any other block's
  have hbr : ByteMem.Apart b.ptr 24 rem 24 := hcut.header_apart (by simp)
  have hother : ∀ c ∈ pre ++ post, s₅.size c.ptr = s.size c.ptr ∧
      s₅.isFree c.ptr = s.isFree c.ptr ∧ s₅.next c.ptr = s.next c.ptr := by
    intro c hc
    refine fields_of_agreeOn (hw.agreeOn ?_)
    simp only [List.mem_cons, List.not_mem_nil, or_false, forall_eq_or_imp, forall_eq]
    refine ⟨hcut.header_apart ?_, hcut'.header_apart ?_⟩ <;>
      rcases List.mem_append.mp hc with hc | hc <;> simp [hc]
  have hremFields : s₅.size rem = s₃.size rem ∧ s₅.isFree rem = s₃.isFree rem ∧
      s₅.next rem = s₃.next rem := by
    refine fields_of_agreeOn (hblk.agreeOn fun a ha => ?_)
    rw [List.mem_singleton.mp ha]
    exact hbr
  have hblkFields : s₃.isFree b.ptr = s.isFree b.ptr ∧ s₂.next b.ptr = s.next b.ptr := by
    have hfields {t : Heap} (ht : HeadersOnly [rem] s t) :=
      fields_of_agreeOn (ht.agreeOn fun a ha => (List.mem_singleton.mp ha) ▸ hbr.symm)
    exact ⟨(hfields hrem).2.1, (hfields (headersOnly_setSize.trans headersOnly_setIsFree)).2.2⟩
  have hremNext : s₅.next rem = s.next b.ptr := by
    rw [hremFields.2.2, Heap.next_setNext, hblkFields.2]
  have hblkNext : s₅.next b.ptr = rem := by
    rw [Heap.next_setSize, Heap.next_setNext]
  refine ⟨h.splice hw.head rfl (fun c hc => hother c (List.mem_append_left _ hc)) ?_ ?_, hw⟩
  · have hr := hcut.ok (b.remainder size) (by simp)
    refine ⟨hblkNext, hr.ptr_ne_zero, ?_⟩
    show Links s₅.next 0 (s₅.next rem) _
    rw [hremNext]
    refine h.links_post.congr fun a ha => ?_
    obtain ⟨c, hc, rfl⟩ := List.mem_map.mp ha
    exact (hother c (List.mem_append_right _ hc)).2.2
  · simp only [List.mem_cons, forall_eq_or_imp]
    refine ⟨⟨?_, ?_⟩, ⟨?_, ?_⟩, fun c hc => ?_⟩
    · exact Heap.size_setSize
    · show s₅.isFree b.ptr = b.free
      rw [Heap.isFree_setSize, Heap.isFree_setNext, hblkFields.1, (h.header b (by simp)).isFree]
    · show s₅.size rem = BitVec.ofNat 64 (b.size - 32 - size)
      rw [hremFields.1, Heap.size_setNext, Heap.size_setIsFree, Heap.size_setSize,
        (h.header b (by simp)).size, heapHeaderSize_eq]
      bv_omega
    · show s₅.isFree rem = true
      rw [hremFields.2.1, Heap.isFree_setNext, Heap.isFree_setIsFree]
    · have hold := h.header c (by simp [hc])
      have hsame := hother c (List.mem_append_right _ hc)
      exact ⟨by rw [hsame.1, hold.size], by rw [hsame.2.1, hold.isFree]⟩

/-- `heap_block_split` cuts the block down to `size` bytes, and writes the headers of the block and
of its remainder only. -/
theorem split (h : HeapRepr s (pre ++ b :: post)) (hl : Layout (pre ++ b :: post)) {size : ℕ}
    (hmod : size % 16 = 0) (hpos : 0 < size) (hle : size ≤ b.size) :
    ∃ s', heapBlockSplit s b.ptr (BitVec.ofNat 64 size) = some s' ∧
      HeapRepr s' (pre ++ splitAt b size post) ∧
      HeadersOnly [b.ptr, (b.remainder size).ptr] s s' := by
  rw [heapBlockSplit, splitAt, splitHead, splitTail]
  by_cases hsmall : b.size < size + 48
  · simp only [if_pos hsmall, if_pos ((h.split_test hl hle).mpr hsmall)]
    exact ⟨s, rfl, h, HeadersOnly.refl _ _⟩
  · simp only [if_neg hsmall, if_neg (mt (h.split_test hl hle).mp hsmall)]
    have hroom : size + 48 ≤ b.size := by omega
    obtain ⟨hrepr, hw⟩ := h.split_headers hl hmod hpos hroom
    have hrem : b.ptr + heapHeaderSize + BitVec.ofNat 64 size = (b.remainder size).ptr := by
      simp only [HeapBlk.ptr, remainder, BitVec.ofNat_add]
      rfl
    rw [hrem]
    have hcut := hl.cut hmod hpos hroom
    have hassoc : pre ++ { b with size } :: b.remainder size :: post =
        (pre ++ [{ b with size }]) ++ b.remainder size :: post := by simp
    rw [hassoc] at hrepr hcut
    obtain ⟨s', hs', hrepr', hw'⟩ := hrepr.coalesce hcut
    exact ⟨s', hs', by simpa using hrepr', hw.trans (hw'.mono (by simp))⟩

end HeapRepr

end Pros
