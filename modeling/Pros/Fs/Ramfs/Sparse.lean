import Pros.Fs.Ramfs.Owners
import Pros.Pmm.FreeList

/-!
# A ramfs file is a sparse byte array

`RamfsRep s entry data` says that the array of page pointers of the file holds `entry`, and that the
pages hold the bytes `data`, where a missing page is a page of zeros. Every operation on the file has
one lemma stated with it; growing the array and allocating a page change neither `entry` below the
old length nor `data`.
-/

namespace Pros

/-- The bytes `bs` written at `offset` over `data`. -/
def overlay (data : ℕ → BitVec 8) (offset : ℕ) (bs : List (BitVec 8)) (k : ℕ) : BitVec 8 :=
  if offset ≤ k ∧ k < offset + bs.length then bs.getD (k - offset) 0 else data k

theorem overlay_nil (data : ℕ → BitVec 8) (offset : ℕ) : overlay data offset [] = data := by
  ext1 k
  exact if_neg (by simp)

/-- Writing a chunk and then what follows it. -/
theorem overlay_overlay (data : ℕ → BitVec 8) (offset : ℕ) (bs cs : List (BitVec 8)) :
    overlay (overlay data offset bs) (offset + bs.length) cs = overlay data offset (bs ++ cs) := by
  ext1 k
  simp only [overlay, List.length_append]
  by_cases hlow : k < offset
  · rw [if_neg (by omega), if_neg (by omega), if_neg (by omega)]
  by_cases hfirst : k < offset + bs.length
  · rw [if_neg (by omega), if_pos (by omega), if_pos (by omega), List.getD_append _ _ _ _ (by omega)]
  by_cases hsecond : k < offset + bs.length + cs.length
  · rw [if_pos (by omega), if_pos (by omega), List.getD_append_right _ _ _ _ (by omega)]
    congr 1
    omega
  · rw [if_neg (by omega), if_neg (by omega), if_neg (by omega)]

variable {α : Type} {A : RamfsAlloc α} {hhdm : Word} {ok : α → ByteMem → Set Word → Word → ℕ → Prop}
variable {s s' : RamfsState α} {entry : ℕ → Word} {data : ℕ → BitVec 8}

/-- The addresses of the pages of a file. -/
def ramfsPages (entry : ℕ → Word) : Set Word :=
  { x | ∃ i, entry i ≠ 0 ∧ x ∈ byteRange (entry i) 4096 }

theorem ramfsPages_zero : ramfsPages (fun _ => 0) = ∅ :=
  Set.eq_empty_of_forall_notMem fun _ ⟨_, hi, _⟩ => hi rfl

/-- The memory of a file: the pages and the array. -/
def ramfsOwned (node : RamfsNode) (entry : ℕ → Word) : Set Word :=
  ramfsPages entry ∪ byteRange node.pages (8 * node.pageCount.toNat)

/-- The file holds the page pointers `entry` and the bytes `data`. -/
structure RamfsRep (s : RamfsState α) (entry : ℕ → Word) (data : ℕ → BitVec 8) : Prop where
  noWrap : s.node.pages.toNat + 8 * s.node.pageCount.toNat ≤ 2 ^ 64
  link : ∀ i < s.node.pageCount.toNat,
    s.mem.load64 (s.node.pages + 8 * BitVec.ofNat 64 i) = entry i
  beyond : ∀ i, s.node.pageCount.toNat ≤ i → entry i = 0
  page : ∀ i, entry i ≠ 0 → (entry i).toNat + 4096 ≤ 2 ^ 64
  apartArray : ∀ i, entry i ≠ 0 →
    ByteMem.Apart s.node.pages (8 * s.node.pageCount.toNat) (entry i) 4096
  apartPages : ∀ i j, i ≠ j → entry i ≠ 0 → entry j ≠ 0 →
    ByteMem.Apart (entry i) 4096 (entry j) 4096
  data : ∀ k, data k = if entry (k / 4096) = 0 then 0
    else s.mem (entry (k / 4096) + BitVec.ofNat 64 (k % 4096))

theorem mem_byteRange_of_lt {a : Word} {i n : ℕ} (hi : i < n) (hn : n ≤ 2 ^ 64) :
    a + BitVec.ofNat 64 i ∈ byteRange a n := by
  change (a + BitVec.ofNat 64 i - a).toNat < n
  rwa [ByteMem.toNat_add_ofNat_sub _ (by omega)]

theorem toNat_entry_offset {i : ℕ} (hi : 8 * i < 2 ^ 64) :
    (8 * BitVec.ofNat 64 i : Word).toNat = 8 * i := by
  have h8 : (8 : Word).toNat = 8 := rfl
  rw [BitVec.toNat_mul, BitVec.toNat_ofNat, h8]
  omega

/-- The bytes of an entry are bytes of the array. -/
theorem mem_byteRange_of_entry {a x : Word} {i n : ℕ} (hi : i < n) (hn : 8 * n ≤ 2 ^ 64)
    (hx : (x - (a + 8 * BitVec.ofNat 64 i)).toNat < 8) : x ∈ byteRange a (8 * n) := by
  change (x - a).toNat < 8 * n
  have hoff := toNat_entry_offset (i := i) (by omega)
  generalize 8 * BitVec.ofNat 64 i = y at hx hoff
  bv_omega

/-- Two entries of the array are apart. -/
theorem apart_entries {a : Word} {i j n : ℕ} (hi : i < n) (hj : j < n) (hne : i ≠ j)
    (hn : 8 * n ≤ 2 ^ 64) :
    ByteMem.Apart (a + 8 * BitVec.ofNat 64 i) 8 (a + 8 * BitVec.ofNat 64 j) 8 := by
  have hi' := toNat_entry_offset (i := i) (by omega)
  have hj' := toNat_entry_offset (i := j) (by omega)
  intro x hx hx'
  generalize 8 * BitVec.ofNat 64 i = y at hx hi'
  generalize 8 * BitVec.ofNat 64 j = z at hx' hj'
  bv_omega

/-- Byte `j` of entry `i`. -/
theorem entry_byte (a : Word) (i j : ℕ) :
    a + BitVec.ofNat 64 (8 * i + j) = a + 8 * BitVec.ofNat 64 i + BitVec.ofNat 64 j := by
  rw [BitVec.ofNat_add, BitVec.ofNat_mul, BitVec.add_assoc]
  rfl

namespace RamfsRep

theorem entry_eq (h : RamfsRep s entry data) {index : Word} (hi : index < s.node.pageCount) :
    s.entry index = entry index.toNat := by
  have hlink := h.link index.toNat hi
  rwa [BitVec.ofNat_toNat, BitVec.setWidth_eq] at hlink

/-- Only the memory of the file matters. -/
theorem congr (h : RamfsRep s entry data) (hnode : s'.node.pages = s.node.pages)
    (hcount : s'.node.pageCount = s.node.pageCount)
    (hmem : ∀ x ∈ ramfsOwned s.node entry, s'.mem x = s.mem x) : RamfsRep s' entry data := by
  have hwrap := h.noWrap
  refine ⟨by rw [hnode, hcount]; exact h.noWrap, fun i hi => ?_, by rw [hcount]; exact h.beyond,
    h.page, by rw [hnode, hcount]; exact h.apartArray, h.apartPages, fun k => ?_⟩
  · rw [hcount] at hi
    rw [hnode, ← h.link i hi]
    exact ByteMem.AgreeOn.load64_eq fun x hx =>
      hmem x (Or.inr (mem_byteRange_of_entry hi (by omega) hx))
  · rw [h.data k]
    split
    · rfl
    · rename_i hne
      refine (hmem _ (Or.inl ⟨k / 4096, hne, mem_byteRange_of_lt ?_ (by decide)⟩)).symm
      exact Nat.mod_lt k (by decide)

/-- A file without an array is empty. -/
theorem of_empty (hpages : s.node.pages = 0) (hcount : s.node.pageCount = 0) :
    RamfsRep s (fun _ => 0) (fun _ => 0) := by
  have hzero : s.node.pageCount.toNat = 0 := by rw [hcount]; rfl
  refine ⟨?_, fun i hi => ?_, fun _ _ => rfl, fun i hi => absurd rfl hi,
    fun i hi => absurd rfl hi, fun i j _ hi => absurd rfl hi, fun k => rfl⟩
  · rw [hpages, hcount]
    decide
  · rw [hzero] at hi
    exact absurd hi (Nat.not_lt_zero i)

end RamfsRep

/-! ## Growing the array -/

/-- The doubling loop ends with a count above the index, without wrapping, and not above twice the
index unless it did not double. -/
theorem growCount_spec {index : Word} (hindex : index.toNat < 2 ^ 62) (fuel : ℕ) {c : Word}
    (hc : 0 < c.toNat) (hfuel : 2 ^ 62 < c.toNat * 2 ^ fuel) :
    ∃ n k, growCount index (fuel + 1) c = some n ∧ index.toNat < n.toNat ∧
      n.toNat = c.toNat * 2 ^ k ∧ (k = 0 ∨ n.toNat ≤ 2 * index.toNat) := by
  induction fuel generalizing c with
  | zero =>
    have hlt : ¬ c ≤ index := by
      rw [BitVec.le_def]
      omega
    exact ⟨c, 0, if_neg hlt, by rw [BitVec.le_def] at hlt; omega, by omega, Or.inl rfl⟩
  | succ fuel ih =>
    by_cases hmore : c ≤ index
    · have hle' : c.toNat ≤ index.toNat := hmore
      have hdouble : (c * 2).toNat = 2 * c.toNat := by
        rw [BitVec.toNat_mul]
        have h2 : (2 : Word).toNat = 2 := rfl
        rw [h2]
        omega
      obtain ⟨n, k, hn, hlt, hpow, hcases⟩ := ih (c := c * 2) (by omega)
        (by rw [hdouble, mul_comm 2, mul_assoc, ← pow_succ']; exact hfuel)
      refine ⟨n, k + 1, (if_pos hmore).trans hn, hlt, ?_, Or.inr ?_⟩
      · rw [hpow, hdouble, pow_succ', mul_comm 2, mul_assoc]
      · rcases hcases with rfl | hcases
        · omega
        · exact hcases
    · have hlt : index.toNat < c.toNat := by
        rw [BitVec.le_def] at hmore
        omega
      exact ⟨c, 0, if_neg hmore, hlt, by omega, Or.inl rfl⟩

/-- The count that the doubling loop finds for an index beyond an array of `count` entries: nothing
wraps on the way to the size of the new array. -/
structure NewCount (count index n : Word) : Prop where
  grown : growCount index 65 (if count ≠ 0 then count * 2 else 4) = some n
  above : index.toNat < n.toNat
  doubled : ∃ k, n.toNat = (if count.toNat = 0 then 4 else 2 * count.toNat) * 2 ^ k
  bounded : n.toNat ≤ 2 * index.toNat + 4
  bytes : (n * 8).toNat = 8 * n.toNat
  tail : ((n - count) * 8).toNat = 8 * (n.toNat - count.toNat)

theorem exists_newCount {count index : Word} (hi : count ≤ index) (hindex : index.toNat < 2 ^ 52) :
    ∃ n, NewCount count index n := by
  have hcount : count.toNat ≤ index.toNat := hi
  -- where the loop starts
  have hstart : (if count ≠ 0 then count * 2 else 4).toNat =
      if count.toNat = 0 then 4 else 2 * count.toNat := by
    by_cases hzero : count = 0
    · subst hzero
      rfl
    · have hpos : count.toNat ≠ 0 := fun h0 => hzero (BitVec.eq_of_toNat_eq h0)
      have h2 : (2 : Word).toNat = 2 := rfl
      rw [if_pos hzero, if_neg hpos, BitVec.toNat_mul, h2]
      omega
  have hpos : 0 < (if count.toNat = 0 then 4 else 2 * count.toNat) := by
    split <;> omega
  obtain ⟨n, k, hn, hlt, hpow, hcases⟩ := growCount_spec (show index.toNat < 2 ^ 62 by omega) 64
    (by rw [hstart]; exact hpos) (by rw [hstart]; omega)
  rw [hstart] at hpow
  have hbounded : n.toNat ≤ 2 * index.toNat + 4 := by
    rcases hcases with rfl | hcases
    · rw [hpow, pow_zero, mul_one]
      split <;> omega
    · omega
  have h8 : (8 : Word).toNat = 8 := rfl
  have hsub : (n - count).toNat = n.toNat - count.toNat := by bv_omega
  refine ⟨n, hn, hlt, ⟨k, hpow⟩, hbounded, ?_, ?_⟩
  · rw [BitVec.toNat_mul, h8]
    omega
  · rw [BitVec.toNat_mul, h8, hsub]
    omega

/-- What growing the array does, with the answer of `krealloc`. -/
theorem ramfsGrow_eq {index n : Word} (hn : NewCount s.node.pageCount index n) {q : Word}
    {mem : ByteMem} {a : α} (hk : A.krealloc s.alloc s.mem s.node.pages (n * 8) = (q, mem, a)) :
    ramfsGrow A s index =
      if q = 0 then some (false, { s with mem, alloc := a })
      else some (true, { s with
        mem := mem.memset (q + 8 * s.node.pageCount) 0 ((n - s.node.pageCount) * 8).toNat
        alloc := a
        node := { s.node with pages := q, pageCount := n } }) := by
  simp only [ramfsGrow, hn.grown, Option.bind_eq_bind, Option.bind_some, hk]
  rfl

/-- A represented file whose memory belongs to it. -/
structure RamfsOk (ok : α → ByteMem → Set Word → Word → ℕ → Prop) (s : RamfsState α) (entry : ℕ → Word)
    (data : ℕ → BitVec 8) : Prop extends RamfsRep s entry data where
  owns : ok s.alloc s.mem (ramfsPages entry) s.node.pages (8 * s.node.pageCount.toNat)

/-- From `s` to `s'` the size and the flags of the file did not change. -/
structure SameNode (s s' : RamfsState α) : Prop where
  size : s'.node.size = s.node.size
  flags : s'.node.flags = s.node.flags

/-- Making the array longer keeps the contents. -/
theorem RamfsOk.grow (spec : RamfsAllocSpec A hhdm ok) (h : RamfsOk ok s entry data)
    {index : Word} (hi : s.node.pageCount ≤ index) (hindex : index.toNat < 2 ^ 52) :
    ∃ grown s', ramfsGrow A s index = some (grown, s') ∧ RamfsOk ok s' entry data ∧
      SameNode s s' ∧
      ((grown = true ∧ A.failures s'.alloc = A.failures s.alloc ∧ index < s'.node.pageCount) ∨
        (grown = false ∧ A.failures s'.alloc = A.failures s.alloc + 1)) := by
  have hcount : s.node.pageCount.toNat ≤ index.toNat := hi
  obtain ⟨n, hn⟩ := exists_newCount hi hindex
  have hlt := hn.above
  have hn54 := hn.bounded
  have hbytes := hn.bytes
  have hrest := hn.tail
  have hold : (8 * s.node.pageCount).toNat = 8 * s.node.pageCount.toNat := by
    have h8 : (8 : Word).toNat = 8 := rfl
    rw [BitVec.toNat_mul, h8]
    omega
  cases hk : A.krealloc s.alloc s.mem s.node.pages (n * 8) with
  | mk q rest =>
  obtain ⟨mem, a⟩ := rest
  have hgrow := ramfsGrow_eq hn hk
  have hfailures := A.krealloc_failures hk
  rcases spec.krealloc (n := n * 8) (by omega) (by bv_omega) h.owns hk with
    ⟨hq, hkeep, hok'⟩ | ⟨hq, hwrap, hfresh, hkeep, hcopy, hok'⟩
  · rw [if_pos hq] at hgrow hfailures
    exact ⟨false, _, hgrow, ⟨h.congr rfl rfl hkeep, hok'⟩, ⟨rfl, rfl⟩, Or.inr ⟨rfl, hfailures⟩⟩
  · rw [if_neg hq] at hgrow hfailures
    rw [hbytes] at hwrap hfresh hok'
    -- the part that is filled with zeros
    have hnew : ∀ x : Word, (x - (q + 8 * s.node.pageCount)).toNat <
        ((n - s.node.pageCount) * 8).toNat → x ∈ byteRange q (8 * n.toNat) := by
      intro x hx
      change (x - q).toNat < 8 * n.toNat
      rw [hrest] at hx
      generalize 8 * s.node.pageCount = z at hx hold
      bv_omega
    refine ⟨true, _, hgrow, ⟨⟨hwrap, fun i hi' => ?_,
      fun i hi' => h.beyond i ((hcount.trans hlt.le).trans hi'), h.page, fun i hne x hx hx' => ?_,
      h.apartPages, fun k => ?_⟩, ?_⟩, ⟨rfl, rfl⟩, Or.inl ⟨rfl, hfailures, hlt⟩⟩
    · -- an old entry was copied, a new one was filled with zeros
      have hi'' : i < n.toNat := hi'
      have hoff : (8 * BitVec.ofNat 64 i : Word).toNat = 8 * i := toNat_entry_offset (by omega)
      by_cases hlow : i < s.node.pageCount.toNat
      · have hcopied : mem.load64 (q + 8 * BitVec.ofNat 64 i) = entry i := by
          rw [← h.link i hlow]
          refine ByteMem.load64_congr fun j hj => ?_
          have hbyte := hcopy (8 * i + j) (by omega)
          rwa [entry_byte, entry_byte] at hbyte
        rw [← hcopied]
        refine (ByteMem.agreeOn_memset fun x hx hx' => ?_).load64_eq
        rw [hrest] at hx
        generalize 8 * BitVec.ofNat 64 i = y at hx' hoff
        generalize 8 * s.node.pageCount = z at hx hold
        bv_omega
      · rw [h.beyond i (by omega)]
        refine ByteMem.load64_memset_zero fun j hj => ?_
        rw [hrest]
        generalize 8 * BitVec.ofNat 64 i = y at hoff ⊢
        generalize 8 * s.node.pageCount = z at hold ⊢
        bv_omega
    · exact hfresh x hx ⟨i, hne, hx'⟩
    · rw [h.data k]
      split
      · rfl
      · rename_i hne
        have hown : entry (k / 4096) + BitVec.ofNat 64 (k % 4096) ∈
            { x | ∃ i, entry i ≠ 0 ∧ x ∈ byteRange (entry i) 4096 } :=
          ⟨_, hne, mem_byteRange_of_lt (Nat.mod_lt k (by decide)) (by decide)⟩
        rw [← hkeep _ hown]
        exact (if_neg fun hin => hfresh _ (hnew _ hin) hown).symm
    · exact spec.write hok' fun x hx => if_neg fun hin => hx (Or.inr (hnew x hin))

/-! ## Allocating a page -/

theorem ramfsPages_update {i : ℕ} {virt : Word} (hi : entry i = 0) (hvirt : virt ≠ 0) :
    ramfsPages (Function.update entry i virt) = ramfsPages entry ∪ byteRange virt 4096 := by
  ext x
  constructor
  · rintro ⟨j, hj, hx⟩
    by_cases hji : j = i
    · rw [hji, Function.update_self] at hx
      exact Or.inr hx
    · rw [Function.update_of_ne hji] at hj hx
      exact Or.inl ⟨j, hj, hx⟩
  · rintro (⟨j, hj, hx⟩ | hx)
    · have hji : j ≠ i := fun e => hj (e ▸ hi)
      refine ⟨j, ?_, ?_⟩
      · rwa [Function.update_of_ne hji]
      · rwa [Function.update_of_ne hji]
    · refine ⟨i, ?_, ?_⟩
      · rwa [Function.update_self]
      · rwa [Function.update_self]

/-- A new page is a page of zeros in the place of a missing one. -/
theorem RamfsOk.newPage (spec : RamfsAllocSpec A hhdm ok) (h : RamfsOk ok s entry data)
    {index : Word} (hi : index < s.node.pageCount) (he : entry index.toNat = 0) :
    ∃ addr s' entry', ramfsNewPage A hhdm s index = (addr, s') ∧ RamfsOk ok s' entry' data ∧
      SameNode s s' ∧
      ((addr ≠ 0 ∧ A.failures s'.alloc = A.failures s.alloc ∧ entry' = Function.update entry index.toNat addr) ∨
        (addr = 0 ∧ A.failures s'.alloc = A.failures s.alloc + 1 ∧ entry' = entry)) := by
  have hlt : index.toNat < s.node.pageCount.toNat := hi
  have hwrap := h.noWrap
  cases hp : A.pmmAlloc s.alloc s.mem with
  | mk phys rest =>
  obtain ⟨mem, a⟩ := rest
  obtain ⟨hkeep, hcases⟩ := spec.pmmAlloc h.owns hp
  have hfailures := A.pmmAlloc_failures hp
  rcases hcases with ⟨rfl, hok'⟩ | ⟨hphys, hvirt, hvwrap, hfresh, hok'⟩
  · refine ⟨0, { s with mem, alloc := a }, entry, ?_,
      ⟨h.congr rfl rfl hkeep, hok'⟩, ⟨rfl, rfl⟩, Or.inr ⟨rfl, hfailures, rfl⟩⟩
    simp only [ramfsNewPage, hp, if_true]
  rw [if_neg hphys] at hfailures
  generalize hv : pmmPhysToVirt hhdm phys = virt at hvirt hvwrap hfresh hok'
  have hindex : s.node.pages + 8 * BitVec.ofNat 64 index.toNat = s.node.pages + 8 * index := by
    rw [BitVec.ofNat_toNat, BitVec.setWidth_eq]
  -- the store is inside the array, the page is outside of what the file had
  have hstore : ∀ x : Word, (x - (s.node.pages + 8 * index)).toNat < 8 →
      x ∈ byteRange s.node.pages (8 * s.node.pageCount.toNat) := fun x hx =>
    mem_byteRange_of_entry hlt (by omega) (by rwa [hindex])
  have hold : ∀ x ∈ ramfsOwned s.node entry, mem.memset virt 0 4096 x = s.mem x := fun x hx =>
    (if_neg fun hin => hfresh x hin hx).trans (hkeep x hx)
  refine ⟨virt, { s with
      mem := (mem.memset virt 0 4096).store64 (s.node.pages + 8 * index) virt, alloc := a },
    Function.update entry index.toNat virt, ?_, ⟨⟨h.noWrap, fun i hi' => ?_, fun i hi' => ?_,
      fun i hne => ?_, fun i hne x hx hx' => ?_, fun i j hij hne hne' x hx hx' => ?_, fun k => ?_⟩,
      ?_⟩, ⟨rfl, rfl⟩, Or.inl ⟨hvirt, hfailures, rfl⟩⟩
  · simp only [ramfsNewPage, hp, if_neg hphys, hv]
    rfl
  · have hi'' : i < s.node.pageCount.toNat := hi'
    by_cases hii : i = index.toNat
    · rw [hii, Function.update_self]
      change ((mem.memset virt 0 4096).store64 (s.node.pages + 8 * index) virt).load64
        (s.node.pages + 8 * BitVec.ofNat 64 index.toNat) = virt
      rw [hindex, ByteMem.load64_store64_self]
    · rw [Function.update_of_ne hii, ← h.link i hi'']
      change ((mem.memset virt 0 4096).store64 (s.node.pages + 8 * index) virt).load64
        (s.node.pages + 8 * BitVec.ofNat 64 i) = _
      rw [← hindex, ByteMem.load64_store64_of_apart
        (apart_entries hlt hi'' (fun e => hii e.symm) (by omega))]
      exact ByteMem.AgreeOn.load64_eq fun x hx =>
        hold x (Or.inr (mem_byteRange_of_entry hi'' (by omega) hx))
  · have hii : i ≠ index.toNat := by
      rintro rfl
      exact absurd hlt (not_lt.mpr hi')
    rw [Function.update_of_ne hii]
    exact h.beyond i hi'
  · by_cases hii : i = index.toNat
    · rw [hii, Function.update_self]
      exact hvwrap
    · rw [Function.update_of_ne hii] at hne ⊢
      exact h.page i hne
  · by_cases hii : i = index.toNat
    · rw [hii, Function.update_self] at hx'
      exact hfresh x hx' (Or.inr hx)
    · rw [Function.update_of_ne hii] at hne hx'
      exact h.apartArray i hne x hx hx'
  · by_cases hii : i = index.toNat
    · have hji : j ≠ index.toNat := fun e => hij (hii.trans e.symm)
      rw [hii, Function.update_self] at hx
      rw [Function.update_of_ne hji] at hne' hx'
      exact hfresh x hx (Or.inl ⟨j, hne', hx'⟩)
    · rw [Function.update_of_ne hii] at hne hx
      by_cases hji : j = index.toNat
      · rw [hji, Function.update_self] at hx'
        exact hfresh x hx' (Or.inl ⟨i, hne, hx⟩)
      · rw [Function.update_of_ne hji] at hne' hx'
        exact h.apartPages i j hij hne hne' x hx hx'
  · rw [h.data k]
    have hmod : k % 4096 < 4096 := Nat.mod_lt k (by decide)
    by_cases hki : k / 4096 = index.toNat
    · -- the page was missing, so its bytes were zeros before
      have hin : virt + BitVec.ofNat 64 (k % 4096) ∈ byteRange virt 4096 :=
        mem_byteRange_of_lt hmod (by decide)
      have hzero : ((mem.memset virt 0 4096).store64 (s.node.pages + 8 * index) virt)
          (virt + BitVec.ofNat 64 (k % 4096)) = 0 :=
        (if_neg fun hst => hfresh _ hin (Or.inr (hstore _ hst))).trans (if_pos hin)
      rw [hki, he, if_pos rfl, Function.update_self, if_neg hvirt]
      exact hzero.symm
    · rw [Function.update_of_ne hki]
      split
      · rfl
      · rename_i hne
        have hin : entry (k / 4096) + BitVec.ofNat 64 (k % 4096) ∈
            byteRange (entry (k / 4096)) 4096 := mem_byteRange_of_lt hmod (by decide)
        have hkept : ((mem.memset virt 0 4096).store64 (s.node.pages + 8 * index) virt)
            (entry (k / 4096) + BitVec.ofNat 64 (k % 4096)) =
            s.mem (entry (k / 4096) + BitVec.ofNat 64 (k % 4096)) :=
          (if_neg fun hst => h.apartArray _ hne _ (hstore _ hst) hin).trans
            (hold _ (Or.inl ⟨_, hne, hin⟩))
        exact hkept.symm
  · rw [ramfsPages_update he hvirt]
    refine spec.write hok' fun x hx => ?_
    refine (if_neg fun hst => hx (Or.inr (hstore x hst))).trans (if_neg fun hin => ?_)
    exact hx (Or.inl (Or.inr hin))

/-- `ramfs_walk_page` with allocation: the page of the index, or null when an allocation failed. -/
theorem RamfsOk.walkPage (spec : RamfsAllocSpec A hhdm ok) (h : RamfsOk ok s entry data)
    {index : Word} (hindex : index.toNat < 2 ^ 52) :
    ∃ addr s' entry', ramfsWalkPage A hhdm s index true = some (addr, s') ∧
      RamfsOk ok s' entry' data ∧ SameNode s s' ∧
      ((addr ≠ 0 ∧ A.failures s'.alloc = A.failures s.alloc ∧ entry' = Function.update entry index.toNat addr) ∨
        (addr = 0 ∧ A.failures s.alloc < A.failures s'.alloc ∧ entry' = entry)) := by
  -- the end of the function
  have hpage : ∀ {s : RamfsState α}, RamfsOk ok s entry data → index < s.node.pageCount →
      ∃ addr s' entry', ramfsPageAt A hhdm s index true = (addr, s') ∧
        RamfsOk ok s' entry' data ∧ SameNode s s' ∧
        ((addr ≠ 0 ∧ A.failures s'.alloc = A.failures s.alloc ∧
            entry' = Function.update entry index.toNat addr) ∨
          (addr = 0 ∧ A.failures s.alloc < A.failures s'.alloc ∧ entry' = entry)) := by
    intro s h hi
    rw [ramfsPageAt, h.entry_eq hi]
    by_cases hzero : entry index.toNat = 0
    · obtain ⟨addr, s', entry', hnew, h', hsame, hcases⟩ := h.newPage spec hi hzero
      refine ⟨addr, s', entry', (if_pos hzero).trans hnew, h', hsame, hcases.imp id ?_⟩
      exact fun ⟨haddr, hfail, hentry⟩ => ⟨haddr, by omega, hentry⟩
    · exact ⟨_, s, entry, if_neg hzero, h, ⟨rfl, rfl⟩,
        Or.inl ⟨hzero, rfl, (Function.update_eq_self _ _).symm⟩⟩
  rw [ramfsWalkPage]
  by_cases hi : index ≥ s.node.pageCount
  · obtain ⟨grown, s₁, hgrow, h₁, hsame₁, hcases⟩ := h.grow spec hi hindex
    rw [if_pos hi]
    simp only [Bool.not_true, Bool.false_eq_true, if_false, hgrow, Option.bind_eq_bind,
      Option.bind_some]
    rcases hcases with ⟨rfl, hfail, hlt⟩ | ⟨rfl, hfail⟩
    · obtain ⟨addr, s', entry', hat, h', hsame, hcases⟩ := hpage h₁ hlt
      refine ⟨addr, s', entry', congrArg some hat, h',
        ⟨hsame.size.trans hsame₁.size, hsame.flags.trans hsame₁.flags⟩, ?_⟩
      rw [← hfail]
      exact hcases
    · exact ⟨0, s₁, entry, rfl, h₁, hsame₁, Or.inr ⟨rfl, by omega, rfl⟩⟩
  · obtain ⟨addr, s', entry', hat, h', hsame, hcases⟩ := hpage h (BitVec.not_le.mp hi)
    exact ⟨addr, s', entry', (if_neg hi).trans (congrArg some hat), h', hsame, hcases⟩

/-! ## Reading -/

/-- The page, the place in it and the size of a chunk. -/
theorem ramfsGetChunkInfo_spec (offset : Word) {remaining : Word} (hr : remaining ≠ 0) :
    ∃ chunkSize pageIndex pageOffset : Word,
      ramfsGetChunkInfo offset remaining = (chunkSize, pageIndex, pageOffset) ∧
      pageIndex.toNat = offset.toNat / 4096 ∧ pageOffset.toNat = offset.toNat % 4096 ∧
      0 < chunkSize.toNat ∧ chunkSize.toNat ≤ remaining.toNat ∧
      pageOffset.toNat + chunkSize.toNat ≤ 4096 := by
  have hsize : (pageSize : Word).toNat = 4096 := rfl
  have hmod : (offset % pageSize).toNat = offset.toNat % 4096 := BitVec.toNat_umod
  have hmod' : offset.toNat % 4096 < 4096 := Nat.mod_lt _ (by decide)
  have hpos : 0 < remaining.toNat := by bv_omega
  refine ⟨_, _, _, rfl, BitVec.toNat_udiv, hmod, ?_⟩
  have hchunk : (pageSize - offset % pageSize).toNat = 4096 - offset.toNat % 4096 := by
    rw [BitVec.toNat_sub, hmod, hsize]
    omega
  rw [hmod]
  split
  · rename_i hgt
    have hgt' := BitVec.lt_def.mp hgt
    omega
  · rename_i hle
    have hle' := BitVec.le_def.mp (BitVec.not_lt.mp hle)
    omega

/-- `ramfs_walk_page` without allocation returns the entry and changes nothing. -/
theorem RamfsRep.walkPage_read (h : RamfsRep s entry data) (index : Word) :
    ramfsWalkPage A hhdm s index false = some (entry index.toNat, s) := by
  rw [ramfsWalkPage]
  by_cases hi : index ≥ s.node.pageCount
  · rw [if_pos hi, h.beyond index.toNat hi]
    rfl
  · rw [if_neg hi, ramfsPageAt, h.entry_eq (BitVec.not_le.mp hi)]
    split
    · rename_i hzero
      rw [hzero]
      rfl
    · rfl

/-- The bytes `[offset, offset + n)` of a file. -/
def dataBytes (data : ℕ → BitVec 8) (offset n : ℕ) : List (BitVec 8) :=
  (List.range n).map fun i => data (offset + i)

theorem length_dataBytes (data : ℕ → BitVec 8) (offset n : ℕ) :
    (dataBytes data offset n).length = n := by
  rw [dataBytes, List.length_map, List.length_range]

theorem dataBytes_add (data : ℕ → BitVec 8) (offset m n : ℕ) :
    dataBytes data offset (m + n) = dataBytes data offset m ++ dataBytes data (offset + m) n := by
  simp only [dataBytes, List.range_add, List.map_append, List.map_map]
  refine congrArg₂ _ rfl (List.map_congr_left fun i _ => ?_)
  simp only [Function.comp_apply, Nat.add_assoc]

/-- A chunk in one page. -/
theorem RamfsRep.chunk (h : RamfsRep s entry data) {index pageOffset : Word} {offset n : ℕ}
    (hindex : index.toNat = offset / 4096) (hoffset : pageOffset.toNat = offset % 4096)
    (hn : pageOffset.toNat + n ≤ 4096) :
    (if entry index.toNat ≠ 0 then s.mem.bytes (entry index.toNat + pageOffset) n
      else List.replicate n 0) = dataBytes data offset n := by
  have hbyte : ∀ i < n, data (offset + i) = if entry index.toNat = 0 then 0
      else s.mem (entry index.toNat + pageOffset + BitVec.ofNat 64 i) := by
    intro i hi
    have hdiv : (offset + i) / 4096 = index.toNat := by omega
    have hmod : (offset + i) % 4096 = pageOffset.toNat + i := by omega
    rw [h.data, hdiv, hmod, BitVec.ofNat_add, BitVec.ofNat_toNat, BitVec.setWidth_eq,
      BitVec.add_assoc]
  by_cases hzero : entry index.toNat = 0
  · rw [if_neg (not_not.mpr hzero)]
    refine (List.eq_replicate_iff.mpr ⟨by simp [dataBytes], fun b hb => ?_⟩).symm
    obtain ⟨i, hi, rfl⟩ := List.mem_map.mp hb
    rw [hbyte i (List.mem_range.mp hi), if_pos hzero]
  · rw [if_pos hzero]
    refine List.map_congr_left fun i hi => ?_
    rw [hbyte i (List.mem_range.mp hi), if_neg hzero]

/-- The loop of `ramfs_ops_read` returns the bytes of the file and changes nothing. -/
theorem RamfsRep.readLoop (h : RamfsRep s entry data) (fuel : ℕ) {offset remaining : Word}
    (hfuel : remaining.toNat < fuel) (hend : offset.toNat + remaining.toNat < 2 ^ 64) :
    ramfsReadLoop A hhdm fuel s offset remaining =
      some (dataBytes data offset.toNat remaining.toNat, s) := by
  induction fuel generalizing offset remaining with
  | zero => omega
  | succ fuel ih =>
    rw [ramfsReadLoop]
    by_cases hr : remaining = 0
    · rw [if_pos hr, hr]
      rfl
    obtain ⟨chunkSize, index, pageOffset, hinfo, hindex, hoffset, hpos, hle, hn⟩ :=
      ramfsGetChunkInfo_spec offset hr
    have hrest : (remaining - chunkSize).toNat = remaining.toNat - chunkSize.toNat := by bv_omega
    have hnext : (offset + chunkSize).toNat = offset.toNat + chunkSize.toNat := by bv_omega
    have hih : ramfsReadLoop A hhdm fuel s (offset + chunkSize) (remaining - chunkSize) = _ :=
      ih (by omega) (by omega)
    rw [if_neg hr, hinfo]
    simp only [h.walkPage_read, Option.bind_eq_bind, Option.bind_some, hih,
      h.chunk hindex hoffset hn, hrest, hnext, ← dataBytes_add]
    rw [Nat.add_sub_cancel' hle]
    rfl

/-! ## Writing -/

/-- Bytes written to a page. -/
theorem RamfsOk.writeChunk (spec : RamfsAllocSpec A hhdm ok) (h : RamfsOk ok s entry data)
    {index pageOffset : Word} {offset : ℕ} (bs : List (BitVec 8))
    (hindex : index.toNat = offset / 4096) (hoffset : pageOffset.toNat = offset % 4096)
    (hn : pageOffset.toNat + bs.length ≤ 4096) (hne : entry index.toNat ≠ 0) :
    RamfsOk ok { s with mem := s.mem.write (entry index.toNat + pageOffset) bs } entry
      (overlay data offset bs) := by
  have hpageWrap := h.page _ hne
  have hwrap := h.noWrap
  have hinside : ∀ x : Word, (x - (entry index.toNat + pageOffset)).toNat < bs.length →
      x ∈ byteRange (entry index.toNat) 4096 := by
    intro x hx
    change (x - entry index.toNat).toNat < 4096
    bv_omega
  have hkeep : ∀ x : Word, x ∉ byteRange (entry index.toNat) 4096 →
      s.mem.write (entry index.toNat + pageOffset) bs x = s.mem x := fun x hx =>
    if_neg fun hin => hx (hinside x hin)
  refine ⟨⟨h.noWrap, fun i hi => ?_, h.beyond, h.page, h.apartArray, h.apartPages,
    fun k => ?_⟩, ?_⟩
  · rw [← h.link i hi]
    exact ByteMem.AgreeOn.load64_eq fun x hx => hkeep x fun hin =>
      h.apartArray _ hne x (mem_byteRange_of_entry hi (by omega) hx) hin
  · change overlay data offset bs k = if entry (k / 4096) = 0 then 0
      else s.mem.write (entry index.toNat + pageOffset) bs
        (entry (k / 4096) + BitVec.ofNat 64 (k % 4096))
    have hmod : k % 4096 < 4096 := Nat.mod_lt k (by decide)
    by_cases hk : k / 4096 = index.toNat
    · rw [hk, if_neg hne]
      have hold := h.data k
      rw [hk, if_neg hne] at hold
      rw [overlay, ByteMem.write, ← hold]
      by_cases hin : offset ≤ k ∧ k < offset + bs.length
      · have hsub : (entry index.toNat + BitVec.ofNat 64 (k % 4096) -
            (entry index.toNat + pageOffset)).toNat = k - offset := by bv_omega
        rw [if_pos hin, hsub, if_pos (by omega)]
      · have hsub : ¬ (entry index.toNat + BitVec.ofNat 64 (k % 4096) -
            (entry index.toNat + pageOffset)).toNat < bs.length := by bv_omega
        rw [if_neg hin, if_neg hsub]
    · rw [overlay, if_neg (by omega), h.data k]
      split
      · rfl
      · rename_i hk'
        exact (hkeep _ fun hin => h.apartPages _ _ hk hk' hne _
          (mem_byteRange_of_lt hmod (by decide)) hin).symm
  · exact spec.write h.owns fun x hx => hkeep x fun hin => hx (Or.inl ⟨_, hne, hin⟩)

/-- The loop of `ramfs_ops_write` writes a first part of the buffer, and all of it if no allocation
fails. -/
theorem RamfsOk.writeLoop (spec : RamfsAllocSpec A hhdm ok) (h : RamfsOk ok s entry data)
    (fuel : ℕ) {offset actualSize : Word} {buffer : List (BitVec 8)}
    (hfuel : buffer.length < fuel) (hend : offset.toNat + buffer.length < 2 ^ 63) :
    ∃ n s' entry', ramfsWriteLoop A hhdm fuel s offset actualSize buffer =
        some (actualSize + BitVec.ofNat 64 n, offset + BitVec.ofNat 64 n, s') ∧
      n ≤ buffer.length ∧ A.failures s.alloc ≤ A.failures s'.alloc ∧
      (A.failures s'.alloc = A.failures s.alloc → n = buffer.length) ∧
      RamfsOk ok s' entry' (overlay data offset.toNat (buffer.take n)) ∧ SameNode s s' := by
  induction fuel generalizing s entry data offset actualSize buffer with
  | zero => omega
  | succ fuel ih =>
    by_cases hb : buffer = []
    · subst hb
      refine ⟨0, s, entry, ?_, le_rfl, le_rfl, fun _ => rfl, ?_, ⟨rfl, rfl⟩⟩
      · rw [ramfsWriteLoop, if_pos rfl, BitVec.add_zero, BitVec.add_zero]
      · rwa [List.take_nil, overlay_nil]
    have hlen : (BitVec.ofNat 64 buffer.length).toNat = buffer.length := by
      rw [BitVec.toNat_ofNat]
      omega
    have hne : BitVec.ofNat 64 buffer.length ≠ 0 := by
      intro h0
      have hzero : buffer.length = 0 := by rw [← hlen, h0]; rfl
      exact hb (List.length_eq_zero_iff.mp hzero)
    obtain ⟨chunkSize, index, pageOffset, hinfo, hindex, hoffset, hpos, hle, hn⟩ :=
      ramfsGetChunkInfo_spec offset hne
    rw [hlen] at hle
    obtain ⟨addr, s₁, entry₁, hwalk, h₁, hsame₁, hcases⟩ := h.walkPage spec
      (show index.toNat < 2 ^ 52 by omega)
    rw [ramfsWriteLoop, if_neg hb, hinfo]
    simp only [hwalk, Option.bind_eq_bind, Option.bind_some]
    rcases hcases with ⟨haddr, hfail₁, hentry₁⟩ | ⟨rfl, hfail₁, -⟩
    · have hentry : entry₁ index.toNat = addr := by rw [hentry₁, Function.update_self]
      have hchunkLen : (buffer.take chunkSize.toNat).length = chunkSize.toNat := by
        rw [List.length_take]
        omega
      have hnext : (offset + chunkSize).toNat = offset.toNat + chunkSize.toNat := by bv_omega
      clear hentry₁
      subst hentry
      have h₂ := h₁.writeChunk spec (buffer.take chunkSize.toNat) hindex hoffset (by omega) haddr
      obtain ⟨n, s', entry', hloop, hn', hmono, hall, h', hsame⟩ :=
        @ih _ _ _ h₂ (offset + chunkSize) (actualSize + chunkSize) (buffer.drop chunkSize.toNat)
          (by rw [List.length_drop]; omega) (by rw [List.length_drop]; omega)
      rw [List.length_drop] at hn' hall
      have hsum : chunkSize + BitVec.ofNat 64 n = BitVec.ofNat 64 (chunkSize.toNat + n) := by
        rw [BitVec.ofNat_add, BitVec.ofNat_toNat, BitVec.setWidth_eq]
      refine ⟨chunkSize.toNat + n, s', entry', ?_, by omega, hfail₁ ▸ hmono, fun hsf => ?_, ?_,
        ⟨hsame.size.trans hsame₁.size, hsame.flags.trans hsame₁.flags⟩⟩
      · rw [if_neg haddr, hloop, ← hsum, BitVec.add_assoc, BitVec.add_assoc]
      · have hn'' := hall (hsf.trans hfail₁.symm)
        omega
      · have hover := overlay_overlay data offset.toNat (buffer.take chunkSize.toNat)
          ((buffer.drop chunkSize.toNat).take n)
        rw [hchunkLen, ← List.take_add] at hover
        rwa [hnext, hover] at h'
    · refine ⟨0, s₁, entry₁, ?_, Nat.zero_le _, hfail₁.le, fun hsf => by omega, ?_, hsame₁⟩
      · rw [if_pos rfl, BitVec.add_zero, BitVec.add_zero]
        rfl
      · rwa [List.take_zero, overlay_nil]

/-! ## The operations -/

/-- The file reads as the bytes `data`, and reading changes nothing. -/
def ReadsAs (A : RamfsAlloc α) (hhdm : Word) (s : RamfsState α) (data : ℕ → BitVec 8) : Prop :=
  ∀ offset size : Word, ramfsOpsRead A hhdm s offset size =
    some (.ok (dataBytes data offset.toNat (min size.toNat (s.node.size.toNat - offset.toNat))), s)

theorem RamfsRep.readsAs (h : RamfsRep s entry data) (hfile : s.node.flags &&& vfsFile ≠ 0) :
    ReadsAs A hhdm s data := by
  intro offset size
  rw [ramfsOpsRead, if_neg hfile]
  by_cases hend : offset ≥ s.node.size
  · have hend' := BitVec.le_def.mp hend
    rw [if_pos hend, Nat.sub_eq_zero_of_le hend', Nat.min_zero]
    rfl
  have hlt := BitVec.lt_def.mp (BitVec.not_le.mp hend)
  have hsub : (s.node.size - offset).toNat = s.node.size.toNat - offset.toNat := by bv_omega
  have hsize : (if size > s.node.size - offset then s.node.size - offset else size).toNat =
      min size.toNat (s.node.size.toNat - offset.toNat) := by
    split
    · rename_i hgt
      have hgt' := BitVec.lt_def.mp hgt
      omega
    · rename_i hle
      have hle' := BitVec.le_def.mp (BitVec.not_lt.mp hle)
      omega
  generalize hrem : (if size > s.node.size - offset then s.node.size - offset else size) =
    remaining at hsize
  have hloop : ramfsReadLoop A hhdm (remaining.toNat + 1) s offset remaining = _ :=
    h.readLoop _ (Nat.lt_succ_self _) (by have := s.node.size.isLt; omega)
  rw [if_neg hend, ← hsize]
  simp only [hrem, hloop, Option.bind_eq_bind, Option.bind_some]
  rfl

/-- What one `ramfs_ops_write` of `buffer` does to a file with the bytes `data`. -/
theorem RamfsOk.opsWrite (spec : RamfsAllocSpec A hhdm ok) (h : RamfsOk ok s entry data)
    (hfile : s.node.flags &&& vfsFile ≠ 0) {offset : Word} {buffer : List (BitVec 8)}
    (hend : offset.toNat + buffer.length < 2 ^ 63) :
    ∃ (n : ℕ) (s' : RamfsState α) (entry' : ℕ → Word),
      ramfsOpsWrite A hhdm s offset buffer = some ((n : ℤ), s') ∧ n ≤ buffer.length ∧
      A.failures s.alloc ≤ A.failures s'.alloc ∧ (A.failures s'.alloc = A.failures s.alloc → n = buffer.length) ∧
      RamfsOk ok s' entry' (overlay data offset.toNat (buffer.take n)) ∧
      s'.node.flags = s.node.flags ∧
      s'.node.size.toNat =
        if n = 0 then s.node.size.toNat else max s.node.size.toNat (offset.toNat + n) := by
  obtain ⟨n, s', entry', hloop, hn, hmono, hall, h', hsame⟩ :=
    @RamfsOk.writeLoop _ _ _ _ _ _ _ spec h (buffer.length + 1) offset 0 buffer
      (Nat.lt_succ_self _) hend
  rw [show (0 : Word) + BitVec.ofNat 64 n = BitVec.ofNat 64 n from BitVec.zero_add _] at hloop
  have hoff : (offset + BitVec.ofNat 64 n).toNat = offset.toNat + n := by
    rw [BitVec.toNat_add, BitVec.toNat_ofNat]
    omega
  have hnat : (BitVec.ofNat 64 n).toNat = n := by
    rw [BitVec.toNat_ofNat]
    omega
  have hint : (BitVec.ofNat 64 n).toInt = n := by
    rw [BitVec.toInt_eq_toNat_of_lt (by omega), hnat]
  have hpos : BitVec.ofNat 64 n > 0 ↔ 0 < n := by
    rw [gt_iff_lt, BitVec.lt_def, hnat]
    rfl
  have hgrow : offset + BitVec.ofNat 64 n > s'.node.size ↔
      s.node.size.toNat < offset.toNat + n := by
    rw [gt_iff_lt, BitVec.lt_def, hoff, hsame.size]
  by_cases hlonger : BitVec.ofNat 64 n > 0 ∧ offset + BitVec.ofNat 64 n > s'.node.size
  · refine ⟨n, { s' with node := { s'.node with size := offset + BitVec.ofNat 64 n } }, entry', ?_,
      hn, hmono, hall, ⟨h'.toRamfsRep.congr rfl rfl fun _ _ => rfl, h'.owns⟩, hsame.flags, ?_⟩
    · rw [ramfsOpsWrite, if_neg hfile, hloop]
      simp only [Option.bind_eq_bind, Option.bind_some, if_pos hlonger, hint]
      rfl
    · rw [hpos, hgrow] at hlonger
      change (offset + BitVec.ofNat 64 n).toNat = _
      rw [hoff, if_neg (by omega)]
      omega
  · refine ⟨n, s', entry', ?_, hn, hmono, hall, h', hsame.flags, ?_⟩
    · rw [ramfsOpsWrite, if_neg hfile, hloop]
      simp only [Option.bind_eq_bind, Option.bind_some, if_neg hlonger, hint]
      rfl
    · rw [hpos, hgrow] at hlonger
      rw [hsame.size]
      split <;> omega

/-! ## Runs -/

/-- The byte last written at a position, where the writes are listed from the latest on. -/
def written : List (ℕ × List (BitVec 8)) → ℕ → BitVec 8
  | [], _ => 0
  | (offset, bs) :: writes, k =>
    if offset ≤ k ∧ k < offset + bs.length then bs.getD (k - offset) 0 else written writes k

/-- The end of the last byte ever written. -/
def writtenSize : List (ℕ × List (BitVec 8)) → ℕ
  | [] => 0
  | (offset, bs) :: writes =>
    if bs.length = 0 then writtenSize writes else max (writtenSize writes) (offset + bs.length)

/-- A file together with the bytes that were written to it, from the latest write on. -/
structure RamfsRun (α : Type) where
  state : RamfsState α
  writes : List (ℕ × List (BitVec 8))

/-- A step of a run: a write, of which the first `n` bytes are written, a read, or anything else that
leaves the memory of the file alone. -/
inductive RamfsStep (A : RamfsAlloc α) (hhdm : Word) (ok : α → ByteMem → Set Word → Word → ℕ → Prop) :
    RamfsRun α → RamfsRun α → Prop
  | write {r : RamfsRun α} {offset : Word} {buffer : List (BitVec 8)} {n : ℕ} {s : RamfsState α}
    (hend : offset.toNat + buffer.length < 2 ^ 63)
    (hwrite : ramfsOpsWrite A hhdm r.state offset buffer = some ((n : ℤ), s)) :
    RamfsStep A hhdm ok r ⟨s, (offset.toNat, buffer.take n) :: r.writes⟩
  | read {r : RamfsRun α} {offset size : Word} {res : Except ℕ (List (BitVec 8))}
    {s : RamfsState α} (hread : ramfsOpsRead A hhdm r.state offset size = some (res, s)) :
    RamfsStep A hhdm ok r ⟨s, r.writes⟩
  | elsewhere {r : RamfsRun α} {mem : ByteMem} {alloc : α}
    (hkeep : ∀ pages p n, ok r.state.alloc r.state.mem pages p n →
      ok alloc mem pages p n ∧ ∀ x ∈ pages ∪ byteRange p n, mem x = r.state.mem x) :
    RamfsStep A hhdm ok r ⟨{ r.state with mem, alloc }, r.writes⟩

/-- The file of a run holds what was written. -/
structure RamfsRun.Inv (ok : α → ByteMem → Set Word → Word → ℕ → Prop) (r : RamfsRun α) : Prop where
  isFile : r.state.node.flags &&& vfsFile ≠ 0
  size : r.state.node.size.toNat = writtenSize r.writes
  rep : ∃ entry, RamfsOk ok r.state entry (written r.writes)

variable {r r' : RamfsRun α}

theorem written_cons (offset : ℕ) (bs : List (BitVec 8)) (writes : List (ℕ × List (BitVec 8))) :
    written ((offset, bs) :: writes) = overlay (written writes) offset bs := by
  ext1 k
  rfl

theorem RamfsStep.inv (spec : RamfsAllocSpec A hhdm ok) (hstep : RamfsStep A hhdm ok r r')
    (h : r.Inv ok) : r'.Inv ok := by
  obtain ⟨hfile, hsize, entry, hrep⟩ := h
  cases hstep with
  | write hend hwrite =>
    rename_i offset buffer n s
    obtain ⟨m, s', entry', hwrite', hm, -, -, hrep', hflags, hsize'⟩ := hrep.opsWrite spec hfile hend
    rw [hwrite'] at hwrite
    obtain ⟨hnm, rfl⟩ := Prod.mk.inj (Option.some.inj hwrite)
    have hnm' : m = n := Int.ofNat.inj hnm
    subst hnm'
    refine ⟨?_, ?_, entry', ?_⟩
    · change s'.node.flags &&& vfsFile ≠ 0
      rwa [hflags]
    · rw [hsize', hsize, writtenSize, List.length_take, Nat.min_eq_left hm]
    · rw [written_cons]
      exact hrep'
  | read hread =>
    rw [hrep.toRamfsRep.readsAs hfile] at hread
    cases hread
    exact ⟨hfile, hsize, entry, hrep⟩
  | elsewhere hkeep =>
    obtain ⟨hok, hmem⟩ := hkeep _ _ _ hrep.owns
    exact ⟨hfile, hsize, entry, hrep.toRamfsRep.congr rfl rfl hmem, hok⟩

/-- A file as `ramfs_node_new` makes it. -/
structure RamfsState.Fresh (ok : α → ByteMem → Set Word → Word → ℕ → Prop) (s : RamfsState α) : Prop where
  isFile : s.node.flags &&& vfsFile ≠ 0
  size : s.node.size = 0
  pages : s.node.pages = 0
  pageCount : s.node.pageCount = 0
  ok : ok s.alloc s.mem ∅ 0 0

theorem RamfsState.Fresh.inv (h : s.Fresh ok) : RamfsRun.Inv ok ⟨s, []⟩ := by
  refine ⟨h.isFile, by rw [h.size]; rfl, fun _ => 0, .of_empty h.pages h.pageCount, ?_⟩
  rw [ramfsPages_zero, h.pageCount, h.pages]
  exact h.ok

/-- A ramfs file is a sparse byte array. In every state of every run its size is the end of the last
byte written, and a read returns the bytes between the offset and the size that were asked for, each
the one last written there or zero, and changes nothing. A write there returns some `n` up to the
size of the buffer, the size itself if no allocation failed, and leaves a file that reads as before
with the first `n` bytes of the buffer written over. -/
theorem ramfs_file_is_sparse_array (spec : RamfsAllocSpec A hhdm ok) (hfresh : s.Fresh ok)
    (hrun : Relation.ReflTransGen (RamfsStep A hhdm ok) ⟨s, []⟩ r) :
    r.state.node.size.toNat = writtenSize r.writes ∧ ReadsAs A hhdm r.state (written r.writes) ∧
    ∀ (offset : Word) (buffer : List (BitVec 8)), offset.toNat + buffer.length < 2 ^ 63 →
      ∃ (n : ℕ) (s' : RamfsState α),
        ramfsOpsWrite A hhdm r.state offset buffer = some ((n : ℤ), s') ∧ n ≤ buffer.length ∧
        (A.failures s'.alloc = A.failures r.state.alloc → n = buffer.length) ∧
        s'.node.size.toNat = (if n = 0 then r.state.node.size.toNat
          else max r.state.node.size.toNat (offset.toNat + n)) ∧
        ReadsAs A hhdm s' (overlay (written r.writes) offset.toNat (buffer.take n)) := by
  have hinv : r.Inv ok := by
    induction hrun with
    | refl => exact hfresh.inv
    | tail _ hstep ih => exact hstep.inv spec ih
  obtain ⟨hfile, hsize, entry, hrep⟩ := hinv
  refine ⟨hsize, hrep.toRamfsRep.readsAs hfile, fun offset buffer hend => ?_⟩
  obtain ⟨n, s', entry', hwrite, hn, -, hall, hrep', hflags, hsize'⟩ := hrep.opsWrite spec hfile hend
  refine ⟨n, s', hwrite, hn, hall, hsize', hrep'.toRamfsRep.readsAs ?_⟩
  rwa [hflags]

/-- An empty file in a memory full of ones. -/
def emptyFile : RamfsState Bump where
  mem := fun _ => 0xff
  alloc := ⟨exampleHhdm.toNat + 4096, 0⟩
  node := ⟨vfsFile, 0, 0, 0⟩

/-- Three bytes written in the second page of an empty file: the file starts with a hole. -/
theorem ramfs_file_is_sparse_array_hole :
    emptyFile.Fresh (BumpOk exampleHhdm) ∧ ∃ s' : RamfsState Bump,
      ramfsOpsWrite (bumpAlloc exampleHhdm) exampleHhdm emptyFile 5000 [1, 2, 3] = some (3, s') ∧
      ramfsOpsRead (bumpAlloc exampleHhdm) exampleHhdm s' 4998 10 =
        some (.ok [0, 0, 1, 2, 3], s') := by
  have hfresh : emptyFile.Fresh (BumpOk exampleHhdm) :=
    ⟨by decide, rfl, rfl, rfl, bumpOk_empty _ _ _⟩
  obtain ⟨-, -, hwrites⟩ := ramfs_file_is_sparse_array (bumpAlloc_spec exampleHhdm) hfresh
    Relation.ReflTransGen.refl
  obtain ⟨n, s', hwrite, -, -, hsize, hreads⟩ := hwrites 5000 [1, 2, 3] (by decide)
  have hthree : (ramfsOpsWrite (bumpAlloc exampleHhdm) exampleHhdm emptyFile 5000 [1, 2, 3]).map
      Prod.fst = some 3 := by decide +kernel
  rw [hwrite, Option.map_some, Option.some.injEq] at hthree
  obtain rfl : n = 3 := Int.ofNat.inj hthree
  refine ⟨hfresh, s', hwrite, (hreads 4998 10).trans ?_⟩
  rw [hsize]
  exact congrArg (fun bytes => some (Except.ok bytes, s')) (by decide)

end Pros
