import Pros.Fs.Tar.Model

/-!
# What `tar_load` reads

`tar_load` compares the address of a header with the end of the archive, and nothing else: it does
not check that the header or the data of an entry end there. The addresses of the headers do not
depend on the file systems as long as these do what they are asked for.
-/

namespace Pros

/-- The byte at `x` belongs to the archive. -/
def InArchive (tarAddr tarSize x : Word) : Prop :=
  tarAddr.toNat ≤ x.toNat ∧ x.toNat < tarAddr.toNat + tarSize.toNat

/-- Every byte that was read belongs to the archive. -/
def TarLog.Inside (tarAddr tarSize : Word) (log : TarLog) : Prop :=
  ∀ r ∈ log.reads, ∀ i < r.2, InArchive tarAddr tarSize (r.1 + BitVec.ofNat 64 i)

/-- Nothing outside of the archive was read, and if a header or the data of an entry would extend
past its end, the result is -1. -/
structure TarInside (mem : ByteMem) (tarAddr tarSize : Word) (res : Int) (log : TarLog) : Prop where
  reads : log.Inside tarAddr tarSize
  cut : ∀ a ∈ log.headers,
    tarAddr.toNat + tarSize.toNat < a.toNat + 512 + (tarHeaderSize mem a).toNat → res = -1

/-- The addresses where a header is looked for, as long as every entry can be stored. -/
inductive TarWalk (mem : ByteMem) (tarAddr last : Word) : Word → Prop
  | start : TarWalk mem tarAddr last tarAddr
  | next {a : Word} (h : TarWalk mem tarAddr last a) (hlt : a < last) (hname : mem a ≠ 0)
    (hmagic : mem.bytes (a + 257) 6 = tmagic) (hversion : mem.bytes (a + 263) 2 = tversion) :
    TarWalk mem tarAddr last (tarNext a (tarHeaderSize mem a))

/-- A byte of the magic or the version is inside of the archive and wrong. -/
def TarMismatch (mem : ByteMem) (last a : Word) : Prop :=
  ∃ j < 8, a.toNat + 257 + j < last.toNat ∧
    mem (a + 257 + BitVec.ofNat 64 j) ≠ (tmagic ++ tversion).getD j 0

/-- The header at `a` is inside of the archive as far as it is needed: the name is empty, or the
header is refused, or it ends inside together with its data. -/
def TarHeaderOk (mem : ByteMem) (tarAddr last a : Word) : Prop :=
  tarAddr.toNat ≤ a.toNat ∧
    (mem a = 0 ∨ TarMismatch mem last a ∨
      a.toNat + 512 + (tarHeaderSize mem a).toNat ≤ last.toNat)

/-! ## Comparing fields -/

theorem memcmpReads_le (xs ys : List (BitVec 8)) : memcmpReads xs ys ≤ xs.length := by
  induction xs generalizing ys with
  | nil => exact le_rfl
  | cons x xs ih =>
    cases ys with
    | nil => exact Nat.zero_le _
    | cons y ys =>
      rw [memcmpReads, List.length_cons]
      split
      · exact Nat.succ_le_succ (ih ys)
      · omega

/-- `memcmp` reads two fields that differ up to the first difference. -/
theorem memcmpReads_of_ne {xs ys : List (BitVec 8)} (hlen : xs.length = ys.length) (hne : xs ≠ ys) :
    ∃ j < xs.length, memcmpReads xs ys = j + 1 ∧ xs.getD j 0 ≠ ys.getD j 0 ∧
      ∀ i < j, xs.getD i 0 = ys.getD i 0 := by
  induction xs generalizing ys with
  | nil => exact absurd (List.length_eq_zero_iff.mp hlen.symm).symm hne
  | cons x xs ih =>
    cases ys with
    | nil => cases hlen
    | cons y ys =>
      rw [memcmpReads]
      by_cases hxy : x = y
      · subst hxy
        obtain ⟨j, hj, hreads, hdiff, hsame⟩ :=
          ih (Nat.succ.inj hlen) fun h => hne (congrArg (x :: ·) h)
        rw [if_pos rfl]
        refine ⟨j + 1, Nat.succ_lt_succ hj, by rw [hreads], hdiff, fun i hi => ?_⟩
        cases i with
        | zero => rfl
        | succ i => exact hsame i (Nat.lt_of_succ_lt_succ hi)
      · rw [if_neg hxy]
        exact ⟨0, Nat.succ_pos _, rfl, hxy, fun i hi => absurd hi (Nat.not_lt_zero i)⟩

theorem scanReads_le (p : BitVec 8 → Bool) (field : List (BitVec 8)) :
    scanReads p field ≤ field.length := Nat.min_le_left _ _

/-! ## What one entry reads -/

section

variable {σ : Type}

theorem tarWrite_count_le (ops : TarVfs σ) (node : Word) (data : List (BitVec 8)) (fs : σ) :
    (tarWrite ops node data fs).2.1 ≤ data.length := by
  rw [tarWrite]
  split
  · exact Nat.zero_le _
  · generalize tarCallback (ops.hasOpen fs node) (ops.openNode fs node) fs = opened
    obtain ⟨res, fs⟩ := opened
    dsimp only
    split
    · exact Nat.zero_le _
    · exact Int.toNat_le.mpr (ops.write_le fs node 0 data)

/-- No more than the data of the entry is read. -/
theorem tarStore_count_le (ops : TarVfs σ) (mem : ByteMem) (a : Word) (fs : σ) :
    (tarStore ops mem a fs).2.1 ≤ (tarHeaderSize mem a).toNat := by
  rw [tarStore]
  dsimp only
  split
  · exact Nat.zero_le _
  split
  · exact Nat.zero_le _
  split
  · exact Nat.zero_le _
  · exact (tarWrite_count_le ..).trans_eq (ByteMem.length_bytes ..)

end

/-! ## Ranges inside of the archive -/

section

variable {mem : ByteMem} {tarAddr tarSize last a : Word} {log : TarLog}

/-- The archive does not reach the end of the address space, and is no larger than an object. -/
structure TarFits (tarAddr tarSize last : Word) : Prop where
  last : last.toNat = tarAddr.toNat + tarSize.toNat
  size : tarSize.toNat ≤ 2 ^ 63

theorem TarFits.inArchive (h : TarFits tarAddr tarSize last) (hge : tarAddr.toNat ≤ a.toNat) {i : ℕ}
    (hlt : a.toNat + i < last.toNat) : InArchive tarAddr tarSize (a + BitVec.ofNat 64 i) := by
  have hlast := h.last
  have := last.isLt
  have hsum : (a + BitVec.ofNat 64 i).toNat = a.toNat + i := by
    rw [BitVec.toNat_add, BitVec.toNat_ofNat]
    omega
  rw [InArchive, hsum]
  omega

theorem TarLog.Inside.read (hlog : log.Inside tarAddr tarSize) {x : Word} {n : ℕ}
    (hin : ∀ i < n, InArchive tarAddr tarSize (x + BitVec.ofNat 64 i)) :
    (log.read x n).Inside tarAddr tarSize := by
  intro r hr
  rcases List.mem_cons.mp hr with rfl | hr
  · exact hin
  · exact hlog r hr

/-- A range from a field of the header on. -/
theorem TarLog.Inside.field (hlog : log.Inside tarAddr tarSize) (h : TarFits tarAddr tarSize last)
    (hge : tarAddr.toNat ≤ a.toNat) {k n : ℕ} (hend : a.toNat + k + n ≤ last.toNat) :
    (log.read (a + BitVec.ofNat 64 k) n).Inside tarAddr tarSize := by
  refine hlog.read fun i hi => ?_
  rw [BitVec.add_assoc, ← BitVec.ofNat_add]
  exact h.inArchive hge (by omega)

theorem TarLog.Inside.first (hlog : log.Inside tarAddr tarSize) (h : TarFits tarAddr tarSize last)
    (hge : tarAddr.toNat ≤ a.toNat) (hlt : a < last) : (log.read a 1).Inside tarAddr tarSize := by
  have hfield := hlog.field (k := 0) (n := 1) h hge (BitVec.lt_def.mp hlt)
  rwa [show a + BitVec.ofNat 64 0 = a from BitVec.add_zero _] at hfield

/-- The comparisons of a header that is inside. -/
theorem TarLog.Inside.version (hlog : log.Inside tarAddr tarSize) (h : TarFits tarAddr tarSize last)
    (hge : tarAddr.toNat ≤ a.toNat) (hend : a.toNat + 512 ≤ last.toNat) :
    (log.magic mem a).Inside tarAddr tarSize ∧ (log.version mem a).Inside tarAddr tarSize := by
  have hmagic := memcmpReads_le (mem.bytes (a + 257) 6) tmagic
  have hversion := memcmpReads_le (mem.bytes (a + 263) 2) tversion
  rw [ByteMem.length_bytes] at hmagic hversion
  have hfirst : ({ log.read a 1 with headers := a :: log.headers } : TarLog).Inside tarAddr tarSize :=
    hlog.first h hge (BitVec.lt_def.mpr (by omega))
  have hinside : (log.magic mem a).Inside tarAddr tarSize :=
    hfirst.field h hge (k := 257) (by omega)
  exact ⟨hinside, hinside.field h hge (k := 263) (by omega)⟩

/-- An entry that is inside. -/
theorem TarLog.Inside.entry (hlog : log.Inside tarAddr tarSize) (h : TarFits tarAddr tarSize last)
    (hge : tarAddr.toNat ≤ a.toNat) {count : ℕ} (hend : a.toNat + 512 + count ≤ last.toNat) :
    (log.header mem a).Inside tarAddr tarSize ∧ (log.entry mem a count).Inside tarAddr tarSize := by
  have hsize : scanReads isOctal (mem.bytes (a + 124) tarSizeSize) ≤ 12 :=
    (scanReads_le ..).trans_eq (ByteMem.length_bytes ..)
  have hname : scanReads (· != 0) (mem.bytes a tarNameSize) ≤ 100 :=
    (scanReads_le ..).trans_eq (ByteMem.length_bytes ..)
  have hversion : (log.version mem a).Inside tarAddr tarSize := (hlog.version h hge (by omega)).2
  have hheader : (log.header mem a).Inside tarAddr tarSize :=
    (hversion.field h hge (k := 124) (by omega)).field h hge (k := 156) (by omega)
  refine ⟨hheader, TarLog.Inside.field (hheader.read fun i hi => ?_) h hge (k := 512) (by omega)⟩
  exact h.inArchive hge (by omega)

end

/-! ## Headers that are refused -/

section

variable {mem : ByteMem} {tarAddr tarSize last a : Word} {log : TarLog}

theorem getD_version (mem : ByteMem) (a : Word) {i : ℕ} (hi : i < 2) :
    (mem.bytes (a + 263) 2).getD i 0 = mem (a + 257 + BitVec.ofNat 64 (6 + i)) := by
  rw [ByteMem.getD_bytes mem _ hi, BitVec.ofNat_add, ← BitVec.add_assoc, BitVec.add_assoc a 257]
  rfl

theorem getD_magic_version {j : ℕ} (hj : j < 6) :
    (tmagic ++ tversion).getD j 0 = tmagic.getD j 0 := by
  interval_cases j <;> rfl

theorem getD_magic_version_add {i : ℕ} (hi : i < 2) :
    (tmagic ++ tversion).getD (6 + i) 0 = tversion.getD i 0 := by
  interval_cases i <;> rfl

/-- A header whose magic is refused has its first wrong byte at the end of what was read. -/
theorem exists_magic_mismatch (hmagic : mem.bytes (a + 257) 6 ≠ tmagic) :
    ∃ j < 6, memcmpReads (mem.bytes (a + 257) 6) tmagic = j + 1 ∧
      mem (a + 257 + BitVec.ofNat 64 j) ≠ (tmagic ++ tversion).getD j 0 ∧
      ∀ i < j, mem (a + 257 + BitVec.ofNat 64 i) = (tmagic ++ tversion).getD i 0 := by
  have hlen : (mem.bytes (a + 257) 6).length = tmagic.length := ByteMem.length_bytes ..
  obtain ⟨j, hj, hreads, hdiff, hsame⟩ := memcmpReads_of_ne hlen hmagic
  rw [ByteMem.length_bytes] at hj
  refine ⟨j, hj, hreads, ?_, fun i hi => ?_⟩
  · rwa [getD_magic_version hj, ← ByteMem.getD_bytes mem _ hj]
  · rw [getD_magic_version (hi.trans hj), ← ByteMem.getD_bytes mem _ (hi.trans hj)]
    exact hsame i hi

theorem exists_version_mismatch (hversion : mem.bytes (a + 263) 2 ≠ tversion) :
    ∃ i < 2, memcmpReads (mem.bytes (a + 263) 2) tversion = i + 1 ∧
      mem (a + 257 + BitVec.ofNat 64 (6 + i)) ≠ (tmagic ++ tversion).getD (6 + i) 0 ∧
      ∀ k < i, mem (a + 257 + BitVec.ofNat 64 (6 + k)) = (tmagic ++ tversion).getD (6 + k) 0 := by
  have hlen : (mem.bytes (a + 263) 2).length = tversion.length := ByteMem.length_bytes ..
  obtain ⟨i, hi, hreads, hdiff, hsame⟩ := memcmpReads_of_ne hlen hversion
  rw [ByteMem.length_bytes] at hi
  refine ⟨i, hi, hreads, ?_, fun k hk => ?_⟩
  · rwa [getD_magic_version_add hi, ← getD_version mem a hi]
  · rw [getD_magic_version_add (hk.trans hi), ← getD_version mem a (hk.trans hi)]
    exact hsame k hk

theorem eq_of_magic (hmagic : mem.bytes (a + 257) 6 = tmagic) {j : ℕ} (hj : j < 6) :
    mem (a + 257 + BitVec.ofNat 64 j) = (tmagic ++ tversion).getD j 0 := by
  rw [getD_magic_version hj, ← hmagic, ByteMem.getD_bytes mem _ hj]

theorem eq_of_version (hversion : mem.bytes (a + 263) 2 = tversion) {i : ℕ} (hi : i < 2) :
    mem (a + 257 + BitVec.ofNat 64 (6 + i)) = (tmagic ++ tversion).getD (6 + i) 0 := by
  rw [getD_magic_version_add hi, ← hversion, getD_version mem a hi]

/-- A header with a wrong byte is refused. -/
theorem TarMismatch.refused (h : TarMismatch mem last a) (hmagic : mem.bytes (a + 257) 6 = tmagic) :
    mem.bytes (a + 263) 2 ≠ tversion := by
  intro hversion
  obtain ⟨j, hj, -, hne⟩ := h
  by_cases hj6 : j < 6
  · exact hne (eq_of_magic hmagic hj6)
  · obtain ⟨i, rfl⟩ := Nat.exists_eq_add_of_le (not_lt.mp hj6)
    exact hne (eq_of_version hversion (by omega))

/-- A header that is refused for a byte inside is read up to that byte. -/
theorem TarMismatch.inside_magic (h : TarMismatch mem last a) (hfits : TarFits tarAddr tarSize last)
    (hge : tarAddr.toNat ≤ a.toNat) (hlog : log.Inside tarAddr tarSize)
    (hmagic : mem.bytes (a + 257) 6 ≠ tmagic) : (log.magic mem a).Inside tarAddr tarSize := by
  obtain ⟨j, hj, hin, hne⟩ := h
  obtain ⟨k, hk, hreads, -, hsame⟩ := exists_magic_mismatch hmagic
  have hkj : k ≤ j := not_lt.mp fun hlt => hne (hsame j hlt)
  have hfirst : ({ log.read a 1 with headers := a :: log.headers } : TarLog).Inside tarAddr tarSize :=
    hlog.first hfits hge (BitVec.lt_def.mpr (show a.toNat < last.toNat by omega))
  exact hfirst.field hfits hge (k := 257) (by rw [hreads]; omega)

theorem TarMismatch.inside_version (h : TarMismatch mem last a)
    (hfits : TarFits tarAddr tarSize last) (hge : tarAddr.toNat ≤ a.toNat)
    (hlog : log.Inside tarAddr tarSize) (hmagic : mem.bytes (a + 257) 6 = tmagic) :
    (log.version mem a).Inside tarAddr tarSize := by
  have hversion := h.refused hmagic
  obtain ⟨j, hj, hin, hne⟩ := h
  have hj6 : 6 ≤ j := not_lt.mp fun hlt => hne (eq_of_magic hmagic hlt)
  obtain ⟨i, rfl⟩ := Nat.exists_eq_add_of_le hj6
  obtain ⟨k, hk, hreads, -, hsame⟩ := exists_version_mismatch hversion
  have hki : k ≤ i := not_lt.mp fun hlt => hne (hsame i hlt)
  have hread := memcmpReads_le (mem.bytes (a + 257) 6) tmagic
  rw [ByteMem.length_bytes] at hread
  have hfirst : ({ log.read a 1 with headers := a :: log.headers } : TarLog).Inside tarAddr tarSize :=
    hlog.first hfits hge (BitVec.lt_def.mpr (show a.toNat < last.toNat by omega))
  have hinside : (log.magic mem a).Inside tarAddr tarSize :=
    hfirst.field hfits hge (k := 257) (by omega)
  exact hinside.field hfits hge (k := 263) (by rw [hreads]; omega)

end

/-! ## Runs -/

section

variable {σ : Type} {ops : TarVfs σ} {mem : ByteMem} {tarAddr tarSize last a : Word} {fs fs' : σ}
  {log log' : TarLog} {res : Int}

/-- Where the next header is: the address does not wrap, or it falls below the archive. -/
theorem TarFits.toNat_tarNext (h : TarFits tarAddr tarSize last) (hlt : a < last)
    (mem : ByteMem) :
    (tarNext a (tarHeaderSize mem a)).toNat =
        a.toNat + 512 + ((tarHeaderSize mem a).toNat + 511) / 512 * 512 ∨
      (tarNext a (tarHeaderSize mem a)).toNat < tarAddr.toNat := by
  have hsize := tarHeaderSize_lt mem a
  have hlast := h.last
  have hobject := h.size
  have hlt' := BitVec.lt_def.mp hlt
  rw [tarNext, BitVec.toNat_add, toNat_tarBlocks hsize]
  omega

/-- What is read stays in the log. -/
theorem tarLoop_log_subset {fuel : ℕ}
    (h : tarLoop ops mem last fuel a fs log = some (res, fs', log')) :
    log.reads ⊆ log'.reads ∧ log.headers ⊆ log'.headers := by
  induction fuel generalizing a fs log with
  | zero => cases h
  | succ fuel ih =>
    have hmagic : log.reads ⊆ (log.magic mem a).reads ∧ log.headers ⊆ (log.magic mem a).headers :=
      ⟨fun r hr => List.mem_cons_of_mem _ (List.mem_cons_of_mem _ hr), List.subset_cons_self ..⟩
    have hversion : log.reads ⊆ (log.version mem a).reads ∧
        log.headers ⊆ (log.version mem a).headers :=
      ⟨fun r hr => List.mem_cons_of_mem _ (hmagic.1 hr), hmagic.2⟩
    have hheader : log.reads ⊆ (log.header mem a).reads ∧
        log.headers ⊆ (log.header mem a).headers :=
      ⟨fun r hr => List.mem_cons_of_mem _ (List.mem_cons_of_mem _ (hversion.1 hr)), hversion.2⟩
    have hentry : ∀ count, log.reads ⊆ (log.entry mem a count).reads ∧
        log.headers ⊆ (log.entry mem a count).headers := fun count =>
      ⟨fun r hr => List.mem_cons_of_mem _ (List.mem_cons_of_mem _ (hheader.1 hr)), hheader.2⟩
    by_cases hlt : a < last
    swap
    · rw [tarLoop_end hlt] at h
      cases h
      exact ⟨List.Subset.refl _, List.Subset.refl _⟩
    by_cases hname : mem a = 0
    · rw [tarLoop_zero hlt hname] at h
      cases h
      exact ⟨List.subset_cons_self .., List.Subset.refl _⟩
    by_cases hm : mem.bytes (a + 257) 6 = tmagic
    swap
    · rw [tarLoop_magic hlt hname hm] at h
      cases h
      exact hmagic
    by_cases hv : mem.bytes (a + 263) 2 = tversion
    swap
    · rw [tarLoop_version hlt hname hm hv] at h
      cases h
      exact hversion
    by_cases hstores : TarStores mem a
    · rw [tarLoop_store hlt hname hm hv hstores] at h
      rcases hstore : tarStore ops mem a fs with ⟨_ | node, count, fs₁⟩ <;>
        simp only [hstore] at h
      · cases h
        exact hentry count
      · obtain ⟨hreads, hheaders⟩ := ih h
        exact ⟨List.Subset.trans (hentry count).1 hreads, List.Subset.trans (hentry count).2 hheaders⟩
    · rw [tarLoop_skip hlt hname hm hv hstores] at h
      obtain ⟨hreads, hheaders⟩ := ih h
      exact ⟨List.Subset.trans hheader.1 hreads, List.Subset.trans hheader.2 hheaders⟩

/-- From an address of the walk on, nothing outside is read if all headers are as they should be. -/
theorem tarLoop_inside (hfits : TarFits tarAddr tarSize last)
    (hok : ∀ b, TarWalk mem tarAddr last b → b < last → TarHeaderOk mem tarAddr last b)
    (hwalk : TarWalk mem tarAddr last a) {fuel : ℕ} (hfuel : last.toNat - a.toNat < fuel)
    (hlog : log.Inside tarAddr tarSize)
    (hcut : ∀ b ∈ log.headers, b.toNat + 512 + (tarHeaderSize mem b).toNat ≤ last.toNat) :
    ∃ res fs' log', tarLoop ops mem last fuel a fs log = some (res, fs', log') ∧
      TarInside mem tarAddr tarSize res log' := by
  induction fuel generalizing a fs log with
  | zero => omega
  | succ fuel ih =>
    have hlast := hfits.last
    have hdone : ∀ {log₁ : TarLog} {res : Int}, log₁.Inside tarAddr tarSize →
        log₁.headers = log.headers → TarInside mem tarAddr tarSize res log₁ :=
      fun hin heq => ⟨hin, fun b hb hlt => by have := hcut b (heq ▸ hb); omega⟩
    by_cases hlt : a < last
    swap
    · exact ⟨_, _, _, tarLoop_end hlt fuel, hdone hlog rfl⟩
    obtain ⟨hge, hcases⟩ := hok a hwalk hlt
    by_cases hname : mem a = 0
    · exact ⟨_, _, _, tarLoop_zero hlt hname fuel, hdone (hlog.first hfits hge hlt) rfl⟩
    have hcases := hcases.resolve_left hname
    by_cases hm : mem.bytes (a + 257) 6 = tmagic
    swap
    · refine ⟨_, _, _, tarLoop_magic hlt hname hm fuel, ?_, fun _ _ _ => rfl⟩
      rcases hcases with hmismatch | hend
      · exact hmismatch.inside_magic hfits hge hlog hm
      · exact (hlog.version hfits hge (by omega)).1
    by_cases hv : mem.bytes (a + 263) 2 = tversion
    swap
    · refine ⟨_, _, _, tarLoop_version hlt hname hm hv fuel, ?_, fun _ _ _ => rfl⟩
      rcases hcases with hmismatch | hend
      · exact hmismatch.inside_version hfits hge hlog hm
      · exact (hlog.version hfits hge (by omega)).2
    have hend := hcases.resolve_left fun hmismatch => hmismatch.refused hm hv
    -- the walk goes on behind the entry
    have hlt' := BitVec.lt_def.mp hlt
    have hnext := hwalk.next hlt hname hm hv
    have hfuel' : last.toNat - (tarNext a (tarHeaderSize mem a)).toNat < fuel := by
      by_cases hmore : tarNext a (tarHeaderSize mem a) < last
      · rcases hfits.toNat_tarNext hlt mem with heq | hwrap
        · omega
        · have := (hok _ hnext hmore).1
          omega
      · have := BitVec.not_lt.mp hmore
        rw [BitVec.le_def] at this
        omega
    have hheaders : ∀ b ∈ a :: log.headers,
        b.toNat + 512 + (tarHeaderSize mem b).toNat ≤ last.toNat := by
      intro b hb
      rcases List.mem_cons.mp hb with rfl | hb
      · exact hend
      · exact hcut b hb
    by_cases hstores : TarStores mem a
    · rw [tarLoop_store hlt hname hm hv hstores]
      have hcount := tarStore_count_le ops mem a fs
      rcases hstore : tarStore ops mem a fs with ⟨_ | node, count, fs₁⟩ <;> rw [hstore] at hcount
      · exact ⟨_, _, _, rfl, (hlog.entry hfits hge (by dsimp only at hcount; omega)).2, fun _ _ _ => rfl⟩
      · exact ih hnext hfuel' (hlog.entry hfits hge (by dsimp only at hcount; omega)).2 hheaders
    · rw [tarLoop_skip hlt hname hm hv hstores]
      exact ih hnext hfuel' (hlog.entry hfits hge hend).1 hheaders

/-- File systems that do everything they are asked for. -/
def willingVfs : TarVfs Unit where
  lookup _ _ := 1
  flags _ _ := vfsFile
  size _ _ := 0
  hasOpen _ _ := false
  hasClose _ _ := false
  hasRead _ _ := false
  hasWrite _ _ := true
  hasReaddir _ _ := false
  openNode _ _ := (0, ())
  closeNode _ _ := (0, ())
  read _ _ _ _ := (.ok [], ())
  write _ _ _ bytes := (bytes.length, ())
  readdir _ _ _ := (0, ⟨[], 0, 0, by decide⟩, ())
  read_le _ _ _ _ bytes h := by
    cases h
    exact Nat.zero_le _
  write_le _ _ _ _ := le_rfl
  mkdirParents _ _ := (1, ())
  create _ _ _ := (1, ())

theorem tarStore_willingVfs (mem : ByteMem) (a : Word) :
    ∃ count, tarStore willingVfs mem a () = (some 1, count, ()) := by
  by_cases hdir : tarTypeflag mem a = tarTypeDir
  · exact ⟨_, by simp only [tarStore, hdir]; rfl⟩
  · refine ⟨(tarHeaderSize mem a).toNat, ?_⟩
    simp only [tarStore, if_neg hdir, tarWrite, willingVfs, tarCallback]
    simp

/-- A call that everything was done for came by the address `a`. -/
def TarReaches (mem : ByteMem) (last : Word) (res : Int) (log : TarLog) (a : Word) : Prop :=
  ∃ fuel log₀, tarLoop willingVfs mem last (fuel + 1) a () log₀ = some (res, (), log)

/-- Where the header is accepted, the call comes by the next one. -/
theorem TarReaches.next (h : TarReaches mem last res log a) (hlt : a < last) (hname : mem a ≠ 0)
    (hm : mem.bytes (a + 257) 6 = tmagic) (hv : mem.bytes (a + 263) 2 = tversion) :
    TarReaches mem last res log (tarNext a (tarHeaderSize mem a)) ∧ a ∈ log.headers := by
  obtain ⟨fuel, log₀, hloop⟩ := h
  obtain ⟨log₁, hnext, hmem⟩ : ∃ log₁,
      tarLoop willingVfs mem last fuel (tarNext a (tarHeaderSize mem a)) () log₁ =
        some (res, (), log) ∧ a ∈ log₁.headers := by
    by_cases hstores : TarStores mem a
    · obtain ⟨count, hstore⟩ := tarStore_willingVfs mem a
      rw [tarLoop_store hlt hname hm hv hstores, hstore] at hloop
      exact ⟨_, hloop, List.mem_cons_self⟩
    · rw [tarLoop_skip hlt hname hm hv hstores] at hloop
      exact ⟨_, hloop, List.mem_cons_self⟩
  refine ⟨?_, (tarLoop_log_subset hnext).2 hmem⟩
  cases fuel with
  | zero => cases hnext
  | succ fuel => exact ⟨fuel, log₁, hnext⟩

/-- The first byte of a header that the call came by was read. -/
theorem TarReaches.inArchive (h : TarReaches mem last res log a)
    (hinside : TarInside mem tarAddr tarSize res log) (hlt : a < last) :
    InArchive tarAddr tarSize a := by
  obtain ⟨fuel, log₀, hloop⟩ := h
  have hread : (a, 1) ∈ log.reads := by
    by_cases hname : mem a = 0
    · rw [tarLoop_zero hlt hname] at hloop
      cases hloop
      exact List.mem_cons_self
    by_cases hm : mem.bytes (a + 257) 6 = tmagic
    swap
    · rw [tarLoop_magic hlt hname hm] at hloop
      cases hloop
      exact List.mem_cons_of_mem _ List.mem_cons_self
    by_cases hv : mem.bytes (a + 263) 2 = tversion
    swap
    · rw [tarLoop_version hlt hname hm hv] at hloop
      cases hloop
      exact List.mem_cons_of_mem _ (List.mem_cons_of_mem _ List.mem_cons_self)
    have hheader : (a, 1) ∈ (log₀.header mem a).reads :=
      List.mem_cons_of_mem _ (List.mem_cons_of_mem _ (List.mem_cons_of_mem _
        (List.mem_cons_of_mem _ List.mem_cons_self)))
    by_cases hstores : TarStores mem a
    · obtain ⟨count, hstore⟩ := tarStore_willingVfs mem a
      rw [tarLoop_store hlt hname hm hv hstores, hstore] at hloop
      exact (tarLoop_log_subset hloop).1
        (List.mem_cons_of_mem _ (List.mem_cons_of_mem _ hheader))
    · rw [tarLoop_skip hlt hname hm hv hstores] at hloop
      exact (tarLoop_log_subset hloop).1 hheader
  have hbyte := hinside.reads _ hread 0 Nat.one_pos
  rwa [show a + BitVec.ofNat 64 0 = a from BitVec.add_zero _] at hbyte

/-- If nothing outside is read, every header that the call comes by is as it should be. -/
theorem TarReaches.headerOk (hfits : TarFits tarAddr tarSize last)
    (hinside : TarInside mem tarAddr tarSize res log) (h : TarReaches mem last res log a)
    (hlt : a < last) : TarHeaderOk mem tarAddr last a := by
  have hin := h.inArchive hinside hlt
  refine ⟨hin.1, by_contra fun hbad => ?_⟩
  rw [not_or, not_or, not_le] at hbad
  obtain ⟨hname, hmismatch, hcut⟩ := hbad
  have hlast := hfits.last
  have hsize := hfits.size
  -- a byte of a field that was read is inside
  have hbyte : ∀ {k n i : ℕ}, (a + BitVec.ofNat 64 k, n) ∈ log.reads → i < n → k + i < 512 →
      a.toNat + k + i < last.toNat := by
    intro k n i hmem hi hk
    have harch := hinside.reads _ hmem i hi
    rw [InArchive, BitVec.add_assoc, ← BitVec.ofNat_add, BitVec.toNat_add, BitVec.toNat_ofNat] at harch
    have := hin.2
    omega
  by_cases hm : mem.bytes (a + 257) 6 = tmagic
  swap
  · obtain ⟨fuel, log₀, hloop⟩ := h
    rw [tarLoop_magic hlt hname hm] at hloop
    cases hloop
    obtain ⟨j, hj, hreads, hdiff, -⟩ := exists_magic_mismatch hm
    have hend := hbyte (k := 257) (i := j) List.mem_cons_self (by rw [hreads]; omega) (by omega)
    exact hmismatch ⟨j, by omega, hend, hdiff⟩
  by_cases hv : mem.bytes (a + 263) 2 = tversion
  swap
  · obtain ⟨fuel, log₀, hloop⟩ := h
    rw [tarLoop_version hlt hname hm hv] at hloop
    cases hloop
    obtain ⟨i, hi, hreads, hdiff, -⟩ := exists_version_mismatch hv
    have hend := hbyte (k := 263) (i := i) List.mem_cons_self (by rw [hreads]; omega) (by omega)
    exact hmismatch ⟨6 + i, by omega, by omega, hdiff⟩
  -- the entry is cut, and the loop ends with 0 or behind the end of the address space
  obtain ⟨hnext, hheader⟩ := h.next hlt hname hm hv
  have hres := hinside.cut a hheader (by omega)
  by_cases hmore : tarNext a (tarHeaderSize mem a) < last
  · have hin' := hnext.inArchive hinside hmore
    rcases hfits.toNat_tarNext hlt mem with heq | hwrap
    · have := hin'.2
      omega
    · have := hin'.1
      omega
  · obtain ⟨fuel, log₀, hloop⟩ := hnext
    rw [tarLoop_end hmore] at hloop
    cases hloop
    exact absurd hres (by decide)

end

/-- `tar_load` stays inside of the archive, whatever the file systems do, if and only if the size is
less than a block, where nothing is read, or every header on the way is inside of the archive as far
as it is needed: it starts there, and its name is empty, or it is refused for a byte inside, or it
ends inside together with its data. -/
theorem tar_stays_inside_iff {mem : ByteMem} {tarAddr tarSize : Word}
    (hfits : tarAddr.toNat + tarSize.toNat < 2 ^ 64) (hsize : tarSize.toNat ≤ 2 ^ 63) :
    (∀ (σ : Type) (ops : TarVfs σ) (fs : σ), ∃ res fs' log,
      tarLoad ops mem tarAddr tarSize fs = some (res, fs', log) ∧
        TarInside mem tarAddr tarSize res log) ↔
      tarSize < tarBlockSize ∨ ∀ a, TarWalk mem tarAddr (tarAddr + tarSize) a →
        a < tarAddr + tarSize → TarHeaderOk mem tarAddr (tarAddr + tarSize) a := by
  have hfits' : TarFits tarAddr tarSize (tarAddr + tarSize) := by
    refine ⟨?_, hsize⟩
    rw [BitVec.toNat_add]
    omega
  have hempty : TarLog.Inside tarAddr tarSize ⟨[], [], []⟩ := fun r hr => absurd hr List.not_mem_nil
  by_cases hsmall : tarSize < tarBlockSize
  · refine iff_of_true (fun σ ops fs => ⟨-1, fs, _, if_pos hsmall, hempty, fun _ _ _ => rfl⟩) ?_
    exact Or.inl hsmall
  constructor
  · intro hall
    obtain ⟨res, ⟨⟩, log, hload, hinside⟩ := hall Unit willingVfs ()
    rw [tarLoad, if_neg hsmall] at hload
    refine Or.inr fun a hwalk hlt => ?_
    suffices hreach : TarReaches mem (tarAddr + tarSize) res log a from
      hreach.headerOk hfits' hinside hlt
    clear hlt
    induction hwalk with
    | start => exact ⟨walkBound - 1, _, hload⟩
    | next _ hlt hname hm hv ih => exact (ih.next hlt hname hm hv).1
  · intro hok σ ops fs
    rw [tarLoad, if_neg hsmall]
    refine tarLoop_inside hfits' (hok.resolve_left hsmall) .start ?_ hempty ?_
    · have := (tarAddr + tarSize).isLt
      rw [show walkBound = 2 ^ 64 from rfl]
      omega
    · exact fun b hb => absurd hb List.not_mem_nil

/-- The header of a file `a` with one byte. -/
def oneByteHeader : ByteMem :=
  let zeros : ByteMem := fun _ => 0
  (((zeros.write 0x1000 [0x61]).write 0x107c [0x31]).write 0x109c [tarTypeReg]).write 0x1101
    (tmagic ++ tversion)

/-- With a block of data behind it, the header is an archive whose only file ends inside. -/
theorem tar_stays_inside_iff_one_file :
    tarHeaderSize oneByteHeader 0x1000 = 1 ∧
      (∀ (σ : Type) (ops : TarVfs σ) (fs : σ), ∃ res fs' log,
        tarLoad ops oneByteHeader 0x1000 1024 fs = some (res, fs', log) ∧
          TarInside oneByteHeader 0x1000 1024 res log) ∧
      (tarLoad willingVfs oneByteHeader 0x1000 1024 ()).map (fun r => r.2.2.headers) =
        some [0x1000] := by
  have hsize : tarHeaderSize oneByteHeader 0x1000 = 1 := by decide +kernel
  -- behind the file the archive ends
  have hwalk : ∀ a, TarWalk oneByteHeader 0x1000 (0x1000 + 1024) a → a = 0x1000 ∨ a = 0x1400 := by
    intro a ha
    induction ha with
    | start => exact Or.inl rfl
    | next _ hlt _ _ _ ih =>
      rcases ih with rfl | rfl
      · rw [hsize]
        exact Or.inr (by decide)
      · exact absurd hlt (by decide)
  refine ⟨hsize, (tar_stays_inside_iff (by decide) (by decide)).mpr (Or.inr fun a ha hlt => ?_),
    by decide +kernel⟩
  rcases hwalk a ha with rfl | rfl
  · refine ⟨le_rfl, Or.inr (Or.inr ?_)⟩
    rw [hsize]
    decide
  · exact absurd hlt (by decide)

/-- Without its data, the byte after the archive is read. -/
theorem tar_reads_past_end :
    ¬ ∀ (σ : Type) (ops : TarVfs σ) (fs : σ), ∃ res fs' log,
      tarLoad ops oneByteHeader 0x1000 512 fs = some (res, fs', log) ∧
        TarInside oneByteHeader 0x1000 512 res log := by
  intro hall
  obtain ⟨res, fs', log, hload, hinside⟩ := hall Unit willingVfs ()
  have hreads : (tarLoad willingVfs oneByteHeader 0x1000 512 ()).map (fun r => r.2.2.reads.head?) =
      some (some (0x1200, 1)) := by decide +kernel
  rw [hload] at hreads
  have hread : (0x1200, 1) ∈ log.reads := List.mem_of_head? (Option.some.inj hreads)
  have hbyte := hinside.reads _ hread 0 Nat.one_pos
  exact absurd hbyte.2 (by decide)

end Pros
