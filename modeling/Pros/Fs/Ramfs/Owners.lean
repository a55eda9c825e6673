import Pros.Fs.Ramfs.Pages

/-!
# Who owns the memory of the files

What a file system relies on when it asks the allocators for memory, for one file and for many files
at once. Allocators that never take anything back keep to it.
-/

namespace Pros

/-! ## The allocators -/

/-- The addresses of `[a, a + n)`. -/
def byteRange (a : Word) (n : ℕ) : Set Word := { x | (x - a).toNat < n }

/-- What the file system relies on. `ok a mem pages p n` says that the addresses `pages`, which came
from `pmm_alloc`, belong to the caller, and also the heap block `p` with `n` bytes, or that `p` is
null and `n` zero. The allocators leave all of that alone, hand out addresses that do not belong to
the caller, and `krealloc` takes the contents along. -/
structure RamfsAllocSpec {α : Type} (A : RamfsAlloc α) (hhdm : Word)
    (ok : α → ByteMem → Set Word → Word → ℕ → Prop) : Prop where
  write : ∀ {a mem mem' pages p n}, ok a mem pages p n →
    (∀ x, x ∉ pages ∪ byteRange p n → mem' x = mem x) → ok a mem' pages p n
  krealloc : ∀ {a mem pages p old n}, old ≤ n.toNat → n ≠ 0 → ok a mem pages p old →
    ∀ {q mem' a'}, A.krealloc a mem p n = (q, mem', a') →
    (q = 0 ∧ (∀ x ∈ pages ∪ byteRange p old, mem' x = mem x) ∧ ok a' mem' pages p old) ∨
    (q ≠ 0 ∧ q.toNat + n.toNat ≤ 2 ^ 64 ∧ (∀ x ∈ byteRange q n.toNat, x ∉ pages) ∧
      (∀ x ∈ pages, mem' x = mem x) ∧
      (∀ i < old, mem' (q + BitVec.ofNat 64 i) = mem (p + BitVec.ofNat 64 i)) ∧
      ok a' mem' pages q n.toNat)
  pmmAlloc : ∀ {a mem pages p n}, ok a mem pages p n →
    ∀ {phys mem' a'}, A.pmmAlloc a mem = (phys, mem', a') →
    (∀ x ∈ pages ∪ byteRange p n, mem' x = mem x) ∧
    ((phys = 0 ∧ ok a' mem' pages p n) ∨
      (phys ≠ 0 ∧ pmmPhysToVirt hhdm phys ≠ 0 ∧
        (pmmPhysToVirt hhdm phys).toNat + 4096 ≤ 2 ^ 64 ∧
        (∀ x ∈ byteRange (pmmPhysToVirt hhdm phys) 4096, x ∉ pages ∪ byteRange p n) ∧
        ok a' mem' (pages ∪ byteRange (pmmPhysToVirt hhdm phys) 4096) p n))

/-! ## What the nodes own -/

/-- What a node owns: pages that came from `pmm_alloc`, and the array from `krealloc`. -/
structure Holding where
  pages : Set Word
  array : Word
  bytes : ℕ

namespace Holding

/-- The addresses of what a node owns. -/
def owned (h : Holding) : Set Word := h.pages ∪ byteRange h.array h.bytes

/-- What a node without data owns. -/
def empty : Holding := ⟨∅, 0, 0⟩

theorem owned_empty : empty.owned = ∅ :=
  Set.eq_empty_of_forall_notMem fun _ hx => hx.elim id (Nat.not_lt_zero _)

end Holding

/-- What a file system with many nodes relies on: `ok a mem F` says that every node `i` owns `F i`.
No two nodes own the same address, and a call for one node leaves alone what the others own. -/
structure RamfsFilesSpec {α : Type} (A : RamfsAlloc α) (hhdm : Word)
    (ok : α → ByteMem → (Word → Holding) → Prop) : Prop where
  apart : ∀ {a mem F}, ok a mem F → ∀ i j, i ≠ j → ∀ x ∈ (F i).owned, x ∉ (F j).owned
  write : ∀ {a mem mem' F}, ok a mem F → ∀ i,
    (∀ x, x ∉ (F i).owned → mem' x = mem x) → ok a mem' F
  krealloc : ∀ {a mem F}, ok a mem F → ∀ i {n : Word}, (F i).bytes ≤ n.toNat → n ≠ 0 →
    ∀ {q mem' a'}, A.krealloc a mem (F i).array n = (q, mem', a') →
    (∀ j ≠ i, ∀ x ∈ (F j).owned, mem' x = mem x) ∧
    ((q = 0 ∧ (∀ x ∈ (F i).owned, mem' x = mem x) ∧ ok a' mem' F) ∨
      (q ≠ 0 ∧ q.toNat + n.toNat ≤ 2 ^ 64 ∧ (∀ x ∈ byteRange q n.toNat, x ∉ (F i).pages) ∧
        (∀ x ∈ (F i).pages, mem' x = mem x) ∧
        (∀ k < (F i).bytes,
          mem' (q + BitVec.ofNat 64 k) = mem ((F i).array + BitVec.ofNat 64 k)) ∧
        ok a' mem' (Function.update F i ⟨(F i).pages, q, n.toNat⟩)))
  pmmAlloc : ∀ {a mem F}, ok a mem F → ∀ i {phys mem' a'}, A.pmmAlloc a mem = (phys, mem', a') →
    (∀ j, ∀ x ∈ (F j).owned, mem' x = mem x) ∧
    ((phys = 0 ∧ ok a' mem' F) ∨
      (phys ≠ 0 ∧ pmmPhysToVirt hhdm phys ≠ 0 ∧
        (pmmPhysToVirt hhdm phys).toNat + 4096 ≤ 2 ^ 64 ∧
        (∀ x ∈ byteRange (pmmPhysToVirt hhdm phys) 4096, x ∉ (F i).owned) ∧
        ok a' mem' (Function.update F i
          ⟨(F i).pages ∪ byteRange (pmmPhysToVirt hhdm phys) 4096, (F i).array, (F i).bytes⟩)))

section

variable {α : Type} {A : RamfsAlloc α} {hhdm : Word} {ok : α → ByteMem → (Word → Holding) → Prop}

/-- What one node relies on while the others own `F` and have the contents of `mem₀`. -/
def okAt (ok : α → ByteMem → (Word → Holding) → Prop) (F : Word → Holding) (mem₀ : ByteMem)
    (i : Word) (a : α) (mem : ByteMem) (pages : Set Word) (p : Word) (n : ℕ) : Prop :=
  ok a mem (Function.update F i ⟨pages, p, n⟩) ∧ ∀ j ≠ i, ∀ x ∈ (F j).owned, mem x = mem₀ x

/-- For one node, this is what its pages rely on. -/
theorem RamfsFilesSpec.allocSpec (spec : RamfsFilesSpec A hhdm ok) (F : Word → Holding)
    (mem₀ : ByteMem) (i : Word) : RamfsAllocSpec A hhdm (okAt ok F mem₀ i) where
  write {a mem mem' pages p n} h hmem := by
    have hself : Function.update F i ⟨pages, p, n⟩ i = ⟨pages, p, n⟩ := Function.update_self ..
    refine ⟨spec.write h.1 i fun x hx => hmem x (by rwa [hself] at hx), fun j hj x hx => ?_⟩
    have hother : Function.update F i ⟨pages, p, n⟩ j = F j := Function.update_of_ne hj ..
    have hnot := spec.apart h.1 j i hj x (by rwa [hother])
    rw [hself] at hnot
    rw [hmem x hnot, h.2 j hj x hx]
  krealloc {a mem pages p old n} hold hn h {q mem' a'} heq := by
    have hself : Function.update F i ⟨pages, p, old⟩ i = ⟨pages, p, old⟩ :=
      Function.update_self ..
    have hcall := @spec.krealloc a mem _ h.1 i n (by rwa [hself]) hn q mem' a' (by rwa [hself])
    rw [hself, Function.update_idem] at hcall
    obtain ⟨hothers, hcases⟩ := hcall
    have hkeep : ∀ j ≠ i, ∀ x ∈ (F j).owned, mem' x = mem₀ x := by
      intro j hj x hx
      have hother : Function.update F i ⟨pages, p, old⟩ j = F j := Function.update_of_ne hj ..
      rw [hothers j hj x (by rwa [hother]), h.2 j hj x hx]
    rcases hcases with ⟨hq, hmem, hok⟩ | ⟨hq, hend, hnew, hpages, hcopy, hok⟩
    · exact .inl ⟨hq, hmem, hok, hkeep⟩
    · exact .inr ⟨hq, hend, hnew, hpages, hcopy, hok, hkeep⟩
  pmmAlloc {a mem pages p n} h {phys mem' a'} heq := by
    have hself : Function.update F i ⟨pages, p, n⟩ i = ⟨pages, p, n⟩ := Function.update_self ..
    have hcall := spec.pmmAlloc h.1 i heq
    rw [hself, Function.update_idem] at hcall
    obtain ⟨hothers, hcases⟩ := hcall
    have hkeep : ∀ j ≠ i, ∀ x ∈ (F j).owned, mem' x = mem₀ x := by
      intro j hj x hx
      have hother : Function.update F i ⟨pages, p, n⟩ j = F j := Function.update_of_ne hj ..
      rw [hothers j x (by rwa [hother]), h.2 j hj x hx]
    refine ⟨fun x hx => hothers i x (by rwa [hself]), ?_⟩
    rcases hcases with ⟨hp, hok⟩ | ⟨hp, hvirt, hend, hnew, hok⟩
    · exact .inl ⟨hp, hok, hkeep⟩
    · exact .inr ⟨hp, hvirt, hend, hnew, hok, hkeep⟩

end

/-! ## Allocators that never take anything back -/

/-- Allocators that hand out the addresses from `next` on and never take any back. -/
structure Bump where
  next : ℕ
  failures : ℕ

namespace Bump

variable {hhdm : Word} {b b' : Bump} {mem mem' : ByteMem} {F : Word → Holding} {n : ℕ}

/-- There are `n` bytes left, behind the start of the direct map. -/
def Room (hhdm : Word) (b : Bump) (n : ℕ) : Prop := hhdm.toNat < b.next ∧ b.next + n < 2 ^ 64

instance : Decidable (b.Room hhdm n) := inferInstanceAs (Decidable (_ ∧ _))

theorem Room.toNat_next (h : b.Room hhdm n) : (BitVec.ofNat 64 b.next).toNat = b.next := by
  have := h.2
  rw [BitVec.toNat_ofNat]
  omega

theorem Room.next_sub_ne (h : b.Room hhdm n) : BitVec.ofNat 64 b.next - hhdm ≠ 0 := by
  have hlow := h.1
  have hnext := h.toNat_next
  generalize BitVec.ofNat 64 b.next = q at hnext
  bv_omega

theorem Room.next_ne (h : b.Room hhdm n) : BitVec.ofNat 64 b.next ≠ 0 := by
  have hlow := h.1
  have hnext := h.toNat_next
  generalize BitVec.ofNat 64 b.next = q at hnext
  bv_omega

/-- What is handed out. -/
theorem Room.range (h : b.Room hhdm n) {x : Word} (hx : x ∈ byteRange (BitVec.ofNat 64 b.next) n) :
    b.next ≤ x.toNat ∧ x.toNat < b.next + n := by
  have hend := h.2
  have hnext := h.toNat_next
  change (x - BitVec.ofNat 64 b.next).toNat < n at hx
  generalize BitVec.ofNat 64 b.next = q at hx hnext
  bv_omega

/-- What the nodes own lies below `next`, and each address belongs to one node. -/
structure FilesOk (hhdm : Word) (b : Bump) (_ : ByteMem) (F : Word → Holding) : Prop where
  below : ∀ i, ∀ x ∈ (F i).owned, x.toNat < b.next
  apart : ∀ i j, i ≠ j → ∀ x ∈ (F i).owned, x ∉ (F j).owned
  bytes : ∀ i, hhdm.toNat + (F i).bytes ≤ 2 ^ 64

/-- Where no node owns anything, nothing was handed out. -/
theorem FilesOk.of_empty (h : ∀ i, F i = .empty) : FilesOk hhdm b mem F := by
  have hnot : ∀ i x, x ∉ (F i).owned := fun i x => by simp [h i, Holding.owned_empty]
  refine ⟨fun i x hx => absurd hx (hnot i x), fun i _ _ x hx => absurd hx (hnot i x), fun i => ?_⟩
  rw [h i]
  exact hhdm.isLt.le

/-- A node gets new addresses from `next` on. -/
theorem FilesOk.update (h : FilesOk hhdm b mem F) (i : Word) {H : Holding} (hle : b.next ≤ b'.next)
    (hnew : ∀ x ∈ H.owned, x ∈ (F i).owned ∨ (b.next ≤ x.toNat ∧ x.toNat < b'.next))
    (hbytes : hhdm.toNat + H.bytes ≤ 2 ^ 64) :
    FilesOk hhdm b' mem' (Function.update F i H) := by
  have hother : ∀ j ≠ i, ∀ x ∈ H.owned, x ∉ (F j).owned := by
    intro j hj x hx hx'
    rcases hnew x hx with hold | hnext
    · exact h.apart i j hj.symm x hold hx'
    · have := h.below j x hx'
      omega
  refine ⟨fun j x hx => ?_, fun j k hjk x hj hk => ?_, fun j => ?_⟩
  · by_cases hj : j = i
    · rw [hj, Function.update_self] at hx
      rcases hnew x hx with hold | hnext
      · exact (h.below i x hold).trans_le hle
      · exact hnext.2
    · rw [Function.update_of_ne hj] at hx
      exact (h.below j x hx).trans_le hle
  · by_cases hji : j = i
    · rw [hji, Function.update_self] at hj
      rw [Function.update_of_ne fun hki => hjk (hji.trans hki.symm)] at hk
      exact hother k (fun hki => hjk (hji.trans hki.symm)) x hj hk
    · rw [Function.update_of_ne hji] at hj
      by_cases hki : k = i
      · rw [hki, Function.update_self] at hk
        exact hother j hji x hk hj
      · rw [Function.update_of_ne hki] at hk
        exact h.apart j k hjk x hj hk
  · by_cases hj : j = i
    · rwa [hj, Function.update_self]
    · rw [Function.update_of_ne hj]
      exact h.bytes j

end Bump

/-- `krealloc` and `pmm_alloc` of these allocators. -/
def bumpAlloc (hhdm : Word) : RamfsAlloc Bump where
  krealloc b mem p n :=
    if b.Room hhdm n.toNat then
      (BitVec.ofNat 64 b.next, mem.memcpy (BitVec.ofNat 64 b.next) p n.toNat,
        { b with next := b.next + n.toNat })
    else (0, mem, { b with failures := b.failures + 1 })
  pmmAlloc b mem :=
    if b.Room hhdm 4096 then
      (BitVec.ofNat 64 b.next - hhdm, mem, { b with next := b.next + 4096 })
    else (0, mem, { b with failures := b.failures + 1 })
  failures := Bump.failures
  krealloc_failures h := by
    split at h
    · rename_i hroom
      cases h
      exact (if_neg hroom.next_ne).symm
    · cases h
      rfl
  pmmAlloc_failures h := by
    split at h
    · rename_i hroom
      cases h
      exact (if_neg hroom.next_sub_ne).symm
    · cases h
      rfl

theorem bumpAlloc_filesSpec (hhdm : Word) :
    RamfsFilesSpec (bumpAlloc hhdm) hhdm (Bump.FilesOk hhdm) where
  apart h := h.apart
  write h _ _ := ⟨h.below, h.apart, h.bytes⟩
  krealloc {b mem F} h i {n} hold hn {q mem' b'} heq := by
    by_cases hroom : b.Room hhdm n.toNat
    · simp only [bumpAlloc, if_pos hroom, Prod.mk.injEq] at heq
      obtain ⟨rfl, rfl, rfl⟩ := heq
      have hend := hroom.2
      have hlow := hroom.1
      have hnext := hroom.toNat_next
      have hkeep : ∀ j, ∀ x ∈ (F j).owned,
          mem.memcpy (BitVec.ofNat 64 b.next) (F i).array n.toNat x = mem x := fun j x hx =>
        if_neg fun hin => absurd (hroom.range hin).1 (not_le.mpr (h.below j x hx))
      refine ⟨fun j _ => hkeep j, Or.inr ⟨hroom.next_ne, by omega, fun x hx hpages => ?_,
        fun x hx => hkeep i x (Or.inl hx), fun k hk => ?_, h.update i (Nat.le_add_right _ _) ?_ ?_⟩⟩
      · exact absurd (hroom.range hx).1 (not_le.mpr (h.below i x (Or.inl hpages)))
      · have hsub : BitVec.ofNat 64 b.next + BitVec.ofNat 64 k - BitVec.ofNat 64 b.next =
            BitVec.ofNat 64 k := add_sub_cancel_left _ _
        rw [ByteMem.memcpy, hsub, if_pos]
        rw [BitVec.toNat_ofNat]
        omega
      · rintro x (hx | hx)
        · exact Or.inl (Or.inl hx)
        · exact Or.inr (hroom.range hx)
      · change hhdm.toNat + n.toNat ≤ 2 ^ 64
        omega
    · simp only [bumpAlloc, if_neg hroom, Prod.mk.injEq] at heq
      obtain ⟨rfl, rfl, rfl⟩ := heq
      exact ⟨fun _ _ _ _ => rfl, Or.inl ⟨rfl, fun _ _ => rfl, h.below, h.apart, h.bytes⟩⟩
  pmmAlloc {b mem F} h i {phys mem' b'} heq := by
    by_cases hroom : b.Room hhdm 4096
    · simp only [bumpAlloc, if_pos hroom, Prod.mk.injEq] at heq
      obtain ⟨rfl, rfl, rfl⟩ := heq
      have hend := hroom.2
      have hnext := hroom.toNat_next
      have hvirt : pmmPhysToVirt hhdm (BitVec.ofNat 64 b.next - hhdm) = BitVec.ofNat 64 b.next :=
        BitVec.sub_add_cancel _ _
      rw [hvirt]
      refine ⟨fun _ _ _ => rfl, Or.inr ⟨hroom.next_sub_ne, hroom.next_ne, by omega,
        fun x hx hown => ?_, h.update i (Nat.le_add_right _ _) ?_ (h.bytes i)⟩⟩
      · exact absurd (hroom.range hx).1 (not_le.mpr (h.below i x hown))
      · rintro x ((hx | hx) | hx)
        · exact Or.inl (Or.inl hx)
        · exact Or.inr (hroom.range hx)
        · exact Or.inl (Or.inr hx)
    · simp only [bumpAlloc, if_neg hroom, Prod.mk.injEq] at heq
      obtain ⟨rfl, rfl, rfl⟩ := heq
      exact ⟨fun _ _ _ => rfl, Or.inl ⟨rfl, h.below, h.apart, h.bytes⟩⟩

/-- One file has all that was handed out. -/
def BumpOk (hhdm : Word) (b : Bump) (mem : ByteMem) (pages : Set Word) (p : Word) (n : ℕ) : Prop :=
  Bump.FilesOk hhdm b mem (Function.update (fun _ => .empty) 0 ⟨pages, p, n⟩)

theorem bumpAlloc_spec (hhdm : Word) : RamfsAllocSpec (bumpAlloc hhdm) hhdm (BumpOk hhdm) := by
  have hok : okAt (Bump.FilesOk hhdm) (fun _ => .empty) (fun _ => 0) 0 = BumpOk hhdm := by
    funext b mem pages p n
    refine propext (and_iff_left fun j _ x hx => ?_)
    rw [Holding.owned_empty] at hx
    exact absurd hx (Set.notMem_empty x)
  rw [← hok]
  exact (bumpAlloc_filesSpec hhdm).allocSpec _ _ _

theorem bumpOk_empty (hhdm : Word) (b : Bump) (mem : ByteMem) : BumpOk hhdm b mem ∅ 0 0 :=
  .of_empty fun i => by
    rw [Function.update_apply]
    exact ite_self _

end Pros
