import Pros.Fs.Namespace
import Pros.Fs.Ramfs.Files

/-!
# Listing a directory

`sys_getdents64` on a ramfs directory, read back as the `ls` of `user/src/psh/psh.c` does it. The
kernel writes records one behind the other, and the reader finds them again by their `d_reclen`.
-/

namespace Pros

/-! ## The reader -/

/-- `struct linux_dirent64`, as it is found in a buffer. -/
structure LinuxDirent64 where
  dIno : Word
  dOff : Word
  dReclen : BitVec 16
  dType : BitVec 8
  dName : List (BitVec 8)
deriving DecidableEq

/-- The record at `a`; the name is what `ls` writes of it. -/
def readDirent (m : ByteMem) (a : Word) : LinuxDirent64 :=
  let dReclen : BitVec 16 := m (a + 17) ++ m (a + 16)
  -- `d_reclen - 19` is an `int` that becomes a `size_t`
  let bound := (BitVec.ofInt 64 (dReclen.toNat - direntNameOffset)).toNat
  { dIno := m.load64 a
    dOff := m.load64 (a + 8)
    dReclen
    dType := m (a + 18)
    dName := m.bytes (a + 19) (m.strnlen (a + 19) bound) }

/-- The loop of `ls` over `len` bytes at `dirp`, from `dirpi` on: the records, and `dirpi` after
it. -/
def lsLoop (m : ByteMem) (dirp : Word) (len : ℕ) : ℕ → ℕ → Option (List LinuxDirent64 × ℕ)
  | 0, _ => none
  | fuel + 1, dirpi =>
    if ¬ dirpi < len then some ([], dirpi)
    else
      let dirent := readDirent m (dirp + BitVec.ofNat 64 dirpi)
      if dirent.dReclen = 0 then some ([dirent], dirpi)
      else do
        let (dirents, last) ← lsLoop m dirp len fuel (dirpi + dirent.dReclen.toNat)
        return (dirent :: dirents, last)

/-- `ls` over a buffer with what `sys_getdents64` returned. -/
def lsBuffer (m : ByteMem) (dirp : Word) (len : Int) : Option (List LinuxDirent64 × ℕ) :=
  lsLoop m dirp len.toNat (len.toNat + 1) 0

/-! ## The records -/

/-- The record of a child with the index `i`. -/
def childRecord (child : VfsNode) (i : ℕ) : LinuxDirent64 where
  dIno := 0
  dOff := BitVec.ofNat 64 (i + 1)
  dReclen := BitVec.ofNat 16 (direntReclen (childDirent child))
  dType := direntType child.flags
  dName := child.name

/-- The records of the children `l`, the first of which has the index `i`. -/
def childRecords (t : VfsTree) (i : ℕ) (l : List Word) : List LinuxDirent64 :=
  (l.zipIdx i).map fun (c, k) => childRecord (t.node c) k

/-- The bytes that are written for the children `l`, the first of which has the index `i`. -/
def childBytes (t : VfsTree) (i : ℕ) (l : List Word) : List (BitVec 8) :=
  (l.zipIdx i).flatMap fun (c, k) => direntChunk (childDirent (t.node c)) (BitVec.ofNat 64 k)

theorem childRecords_cons (t : VfsTree) (i : ℕ) (c : Word) (l : List Word) :
    childRecords t i (c :: l) = childRecord (t.node c) i :: childRecords t (i + 1) l := rfl

theorem childBytes_cons (t : VfsTree) (i : ℕ) (c : Word) (l : List Word) :
    childBytes t i (c :: l) =
      direntChunk (childDirent (t.node c)) (BitVec.ofNat 64 i) ++ childBytes t (i + 1) l := rfl

theorem childRecords_append (t : VfsTree) (i : ℕ) (l l' : List Word) :
    childRecords t i (l ++ l') = childRecords t i l ++ childRecords t (i + l.length) l' := by
  rw [childRecords, List.zipIdx_append, List.map_append]
  rfl

theorem getD_leBytes {i n : ℕ} (hi : i < n) (v : Word) :
    (leBytes n v).getD i 0 = v.extractLsb' (8 * i) 8 := by
  rw [List.getD_eq_getElem _ _ (by rwa [length_leBytes])]
  simp only [leBytes, List.getElem_map, List.getElem_range]

variable {m : ByteMem} {a dirp : Word}

theorem load64_of_leBytes {v : Word} (h : m.Holds a (leBytes 8 v)) : m.load64 a = v := by
  apply ByteMem.eq_of_extractLsb'_eq
  intro i hi
  rw [ByteMem.extractLsb'_load64 m a hi, h i (by rwa [length_leBytes]), getD_leBytes hi]

theorem append_of_leBytes {v : Word} (h : m.Holds a (leBytes 2 v)) :
    (m (a + 1) ++ m a : BitVec 16) = v.setWidth 16 := by
  have h0 : m a = v.extractLsb' 0 8 := by
    have := h 0 (by rw [length_leBytes]; omega)
    rwa [BitVec.add_zero, getD_leBytes (by omega)] at this
  have h1 : m (a + 1) = v.extractLsb' 8 8 := by
    have := h 1 (by rw [length_leBytes]; omega)
    rwa [getD_leBytes (by omega)] at this
  rw [h0, h1]
  apply BitVec.eq_of_getLsbD_eq
  intro j hj
  simp only [BitVec.getLsbD_append, BitVec.getLsbD_extractLsb', BitVec.getLsbD_setWidth]
  by_cases hlt : j < 8
  · simp [hlt, hj]
  · have hsub : j - 8 < 8 := by omega
    have hadd : 8 + (j - 8) = j := by omega
    simp [hlt, hj, hsub, hadd]

/-- The reader finds in a record what the kernel wrote for a child. -/
theorem readDirent_of_holds {child : VfsNode} {i : ℕ}
    (h : m.Holds a (direntChunk (childDirent child) (BitVec.ofNat 64 i))) :
    readDirent m a = childRecord child i := by
  obtain ⟨hroom, -, hsmall⟩ := direntReclen_bounds (childDirent child)
  simp only [direntChunk, ByteMem.holds_append, List.length_append, length_leBytes,
    List.length_singleton] at h
  obtain ⟨⟨⟨⟨⟨⟨hino, hoff⟩, hreclen⟩, htype⟩, hname⟩, hnul⟩, -⟩ := h
  rw [VfsTree.childDirent_name] at hroom hname hnul
  have hfield : (m (a + 17) ++ m (a + 16) : BitVec 16) =
      BitVec.ofNat 16 (direntReclen (childDirent child)) := by
    have := append_of_leBytes hreclen
    rw [BitVec.add_assoc] at this
    exact this.trans (BitVec.setWidth_ofNat_of_le (by decide) _)
  have hnat : (BitVec.ofNat 16 (direntReclen (childDirent child))).toNat =
      direntReclen (childDirent child) := by
    rw [BitVec.toNat_ofNat]
    omega
  have hbound : (BitVec.ofInt 64 ((direntReclen (childDirent child) : ℤ) - direntNameOffset)).toNat
      = direntReclen (childDirent child) - 19 := by
    rw [BitVec.toNat_ofInt]
    change (((direntReclen (childDirent child) : ℤ) - (19 : ℕ)) % (2 ^ 64 : ℕ)).toNat = _
    omega
  have hstring : m.Holds (a + 19) (child.name ++ [0]) := by
    rw [ByteMem.holds_append]
    refine ⟨hname, ?_⟩
    rwa [BitVec.ofNat_add, ← BitVec.add_assoc] at hnul
  have hoff' : BitVec.ofNat 64 i + 1 = BitVec.ofNat 64 (i + 1) := (BitVec.ofNat_add ..).symm
  simp only [readDirent, childRecord, hfield, hnat, hbound, LinuxDirent64.mk.injEq]
  refine ⟨load64_of_leBytes hino, ?_, trivial, (ByteMem.holds_cons.mp htype).1, ?_⟩
  · rw [← hoff']
    exact load64_of_leBytes hoff
  · rw [hstring.strnlen child.noNul (by omega)]
    exact (ByteMem.holds_append.mp hstring).1.bytes_eq

theorem dReclen_childRecord (child : VfsNode) (i : ℕ) :
    (childRecord child i).dReclen.toNat = direntReclen (childDirent child) := by
  obtain ⟨-, -, hsmall⟩ := direntReclen_bounds (childDirent child)
  change (BitVec.ofNat 16 _).toNat = _
  rw [BitVec.toNat_ofNat]
  omega

/-- The reader finds the records that the buffer holds, and stops at its end. -/
theorem lsLoop_of_holds {t : VfsTree} {l : List Word} {i dirpi fuel len : ℕ}
    (h : m.Holds (dirp + BitVec.ofNat 64 dirpi) (childBytes t i l))
    (hlen : len = dirpi + (childBytes t i l).length) (hfuel : (childBytes t i l).length < fuel) :
    lsLoop m dirp len fuel dirpi = some (childRecords t i l, len) := by
  induction l generalizing i dirpi fuel with
  | nil =>
    obtain ⟨fuel, rfl⟩ : ∃ k, fuel = k + 1 := ⟨fuel - 1, by omega⟩
    obtain rfl : len = dirpi := hlen
    exact if_pos (Nat.lt_irrefl _)
  | cons c l ih =>
    obtain ⟨fuel, rfl⟩ : ∃ k, fuel = k + 1 := ⟨fuel - 1, by omega⟩
    obtain ⟨hroom, -, hsmall⟩ := direntReclen_bounds (childDirent (t.node c))
    rw [childBytes_cons, ByteMem.holds_append, length_direntChunk] at h
    rw [childBytes_cons, List.length_append, length_direntChunk] at hlen hfuel
    have hfirst := readDirent_of_holds h.1
    have hnext := h.2
    rw [BitVec.add_assoc, ← BitVec.ofNat_add] at hnext
    have hne : (childRecord (t.node c) i).dReclen ≠ 0 := by
      intro h0
      have := dReclen_childRecord (t.node c) i
      rw [h0] at this
      simp at this
      omega
    rw [lsLoop, if_neg (by omega)]
    simp only [hfirst, if_neg hne, dReclen_childRecord]
    rw [ih hnext (by omega) (by omega)]
    rfl

/-! ## The kernel -/

section

variable {σ : Type} {vfs : Vfs σ} {tree : σ → VfsTree} {fd f d count : Word} {s : Sys σ}
  {l : List Word}

/-- The node `d` is one of the ramfs whose nodes are those of `tree`. -/
structure IsRamfsDir (vfs : Vfs σ) (tree : σ → VfsTree) (d : Word) : Prop where
  flags : ∀ s, vfs.flags s d = ((tree s).node d).flags
  hasReaddir : ∀ s, vfs.hasReaddir s d = true
  readdir : ∀ s index, ∃ out, ∀ res dirent,
    ramfsOpsReaddir (tree s) d index out = some (res, dirent) →
      vfs.readdir s d index = (res, dirent, s)

theorem setOffset_self {files : Files} {v : Word} (h : (files.file f).offset = v) :
    files.setOffset f v = files := by
  rw [Files.setOffset, ← h, Function.update_eq_self]

@[simp]
theorem file_setOffset_self (files : Files) (f v : Word) :
    (files.setOffset f v).file f = { files.file f with offset := v } :=
  Function.update_self ..

theorem setOffset_setOffset (files : Files) (f v w : Word) :
    (files.setOffset f v).setOffset f w = files.setOffset f w := by
  simp only [Files.setOffset, Function.update_self, Function.update_idem]

/-- What `readdir` finds at the offset of the open file: the index has 32 bits. -/
theorem IsRamfsDir.readdir_eq (hvfs : IsRamfsDir vfs tree d) {fs : σ}
    (hkids : (tree fs).Children d l) (hd : d ≠ 0) (o : ℕ) :
    (l[o % 2 ^ 32]? = none → ∃ dirent,
      vfs.readdir fs d ((BitVec.ofNat 64 o).setWidth 32) = (0, dirent, fs)) ∧
    ∀ c, l[o % 2 ^ 32]? = some c → vfs.readdir fs d ((BitVec.ofNat 64 o).setWidth 32) =
      (1, childDirent ((tree fs).node c), fs) := by
  obtain ⟨out, hread⟩ := hvfs.readdir fs ((BitVec.ofNat 64 o).setWidth 32)
  have hindex : ((BitVec.ofNat 64 o).setWidth 32).toNat = o % 2 ^ 32 := by
    rw [BitVec.toNat_setWidth, BitVec.toNat_ofNat]
    omega
  have hfound := hkids.readdir hd ((BitVec.ofNat 64 o).setWidth 32) out
  rw [hindex] at hfound
  refine ⟨fun hnone => ?_, fun c hsome => ?_⟩
  · rw [hnone] at hfound
    exact ⟨out, hread _ _ hfound⟩
  · rw [hsome] at hfound
    exact hread _ _ hfound

/-- The children `v` are those that `readdir` finds from the offset `o` on. After them there is no
more, or they do not fit into `room` bytes. -/
structure DirView (t : VfsTree) (l : List Word) (o room : ℕ) (v : List Word) : Prop where
  child : ∀ i (h : i < v.length), l[(o + i) % 2 ^ 32]? = some v[i]
  last : l[(o + v.length) % 2 ^ 32]? = none ∨ room < (childBytes t o v).length

theorem DirView.tail {t : VfsTree} {o room : ℕ} {c : Word} {v : List Word}
    (h : DirView t l o room (c :: v)) (hfit : direntReclen (childDirent (t.node c)) ≤ room) :
    DirView t l (o + 1) (room - direntReclen (childDirent (t.node c))) v := by
  refine ⟨fun i hi => ?_, ?_⟩
  · have hchild := h.child (i + 1) (Nat.succ_lt_succ hi)
    rwa [← Nat.add_assoc, Nat.add_right_comm] at hchild
  · have hlast := h.last
    rw [List.length_cons, childBytes_cons, List.length_append, length_direntChunk,
      ← Nat.add_assoc, Nat.add_right_comm] at hlast
    exact hlast.imp_right fun hlt => by omega

/-- `readdir` finds nothing more. -/
theorem getdentsLoop_end {n : ℕ} {actualCount : Word} {dirent : VfsDirent}
    (hread : vfs.readdir s.fs (s.files.file f).node ((s.files.file f).offset.setWidth 32) =
      (0, dirent, s.fs)) :
    getdentsLoop vfs f dirp count (n + 1) s actualCount = some (actualCount.toInt, s) := by
  simp only [getdentsLoop, hread]
  rfl

section

variable {n : ℕ} {actualCount : Word} {dirent : VfsDirent}
  (hread : vfs.readdir s.fs (s.files.file f).node ((s.files.file f).offset.setWidth 32) =
    (1, dirent, s.fs))

theorem toNat_add_direntReclen (hle : actualCount.toNat < 2 ^ 63) (dirent : VfsDirent) :
    (actualCount + BitVec.ofNat 64 (direntReclen dirent)).toNat =
      actualCount.toNat + direntReclen dirent := by
  have hsmall := (direntReclen_bounds dirent).2.2
  rw [BitVec.toNat_add, BitVec.toNat_ofNat]
  omega

include hread in
/-- The record of the next child does not fit. -/
theorem getdentsLoop_full (hle : actualCount.toNat < 2 ^ 63)
    (hbig : count.toNat < actualCount.toNat + direntReclen dirent) :
    getdentsLoop vfs f dirp count (n + 1) s actualCount =
      some (if actualCount = 0 then -einval else actualCount.toInt, s) := by
  rw [getdentsLoop]
  simp only [hread, if_neg (show ¬ (1 : ℤ) ≠ 1 by decide)]
  rw [if_pos (by rw [gt_iff_lt, BitVec.lt_def, toNat_add_direntReclen hle]; omega)]
  split <;> rfl

include hread in
/-- The record of the next child fits into the buffer, which lies in the user half. -/
theorem getdentsLoop_next (hfit : actualCount.toNat + direntReclen dirent ≤ count.toNat)
    (hbuf : dirp.toNat + count.toNat ≤ vmmAddrSplit.toNat) :
    ∃ s₁ : Sys σ, getdentsLoop vfs f dirp count (n + 1) s actualCount =
        getdentsLoop vfs f dirp count n s₁
          (actualCount + BitVec.ofNat 64 (direntReclen dirent)) ∧
      s₁.mem = s.mem.write (dirp + actualCount) (direntChunk dirent (s.files.file f).offset) ∧
      s₁.fs = s.fs ∧ s₁.files = s.files.advance f 1 := by
  have hsplit : vmmAddrSplit.toNat = 2 ^ 47 := rfl
  have hdst : (dirp + actualCount).toNat = dirp.toNat + actualCount.toNat := by
    rw [BitVec.toNat_add]
    omega
  rw [getdentsLoop]
  simp only [hread, if_neg (show ¬ (1 : ℤ) ≠ 1 by decide)]
  rw [if_neg (by rw [gt_iff_lt, BitVec.lt_def, toNat_add_direntReclen (by omega)]; omega),
    copyToUser_of_le (by rw [length_direntChunk, hdst]; omega)]
  exact ⟨_, rfl, rfl, rfl, rfl⟩

end

/-- From `s` to `s'` the loop wrote the records of the first `k` of the children `v`, which are found
from the offset `o` on, behind the `n` bytes that were there. That of the next one does not fit. -/
structure Listed (tree : σ → VfsTree) (f dirp count : Word) (v : List Word) (o n k : ℕ)
    (s s' : Sys σ) : Prop where
  le : k ≤ v.length
  mem : s'.mem = s.mem.write (dirp + BitVec.ofNat 64 n) (childBytes (tree s.fs) o (v.take k))
  fs : s'.fs = s.fs
  files : s'.files = s.files.setOffset f (BitVec.ofNat 64 (o + k))
  fits : n + (childBytes (tree s.fs) o (v.take k)).length ≤ count.toNat
  full : ∀ c, v[k]? = some c → count.toNat < n + (childBytes (tree s.fs) o (v.take k)).length +
    direntReclen (childDirent ((tree s.fs).node c))

variable {o n : ℕ}

/-- Nothing is written where nothing is left or the next record does not fit. -/
theorem Listed.zero {v : List Word} (hoffset : (s.files.file f).offset = BitVec.ofNat 64 o)
    (hle : n ≤ count.toNat) (hfull : ∀ c, v[0]? = some c →
      count.toNat < n + direntReclen (childDirent ((tree s.fs).node c))) :
    Listed tree f dirp count v o n 0 s s where
  le := Nat.zero_le _
  mem := (ByteMem.write_nil ..).symm
  fs := rfl
  files := (setOffset_self hoffset).symm
  fits := hle
  full := hfull

/-- Writing one record and then the others. -/
theorem Listed.cons {c : Word} {v : List Word} {s₁ s' : Sys σ} {k : ℕ}
    (h : Listed tree f dirp count v (o + 1) (n + direntReclen (childDirent ((tree s.fs).node c))) k
      s₁ s')
    (hmem : s₁.mem = s.mem.write (dirp + BitVec.ofNat 64 n)
      (direntChunk (childDirent ((tree s.fs).node c)) (BitVec.ofNat 64 o)))
    (hfs : s₁.fs = s.fs) (hfiles : s₁.files = s.files.setOffset f (BitVec.ofNat 64 (o + 1))) :
    Listed tree f dirp count (c :: v) o n (k + 1) s s' := by
  have hchunk := length_direntChunk (childDirent ((tree s.fs).node c)) (BitVec.ofNat 64 o)
  have hbytes : (childBytes (tree s.fs) o ((c :: v).take (k + 1))).length =
      direntReclen (childDirent ((tree s.fs).node c)) +
        (childBytes (tree s.fs) (o + 1) (v.take k)).length := by
    rw [List.take_succ_cons, childBytes_cons, List.length_append, hchunk]
  obtain ⟨hk, hmem', hfs', hfiles', hfits, hfull⟩ := h
  rw [hfs] at hmem' hfits hfull
  refine ⟨Nat.succ_le_succ hk, ?_, hfs'.trans hfs, ?_, by omega, fun c' hc' => ?_⟩
  · have hlong := count.isLt
    rw [hmem', hmem, List.take_succ_cons, childBytes_cons, ← ByteMem.write_append _ _ (by omega),
      hchunk, BitVec.add_assoc, BitVec.ofNat_add]
  · rw [hfiles', hfiles, setOffset_setOffset, Nat.add_right_comm, Nat.add_assoc]
  · have hnext := hfull c' hc'
    omega

/-- The loop writes the records of some of the next children, as many as fit. -/
theorem getdentsLoop_view (hvfs : IsRamfsDir vfs tree d) (hkids : (tree s.fs).Children d l)
    (hd : d ≠ 0) (hnode : (s.files.file f).node = d)
    (hoffset : (s.files.file f).offset = BitVec.ofNat 64 o)
    (hbuf : dirp.toNat + count.toNat ≤ vmmAddrSplit.toNat) {actualCount : Word}
    (hle : actualCount.toNat ≤ count.toNat) {v : List Word}
    (hview : DirView (tree s.fs) l o (count.toNat - actualCount.toNat) v) {fuel : ℕ}
    (hfuel : count.toNat - actualCount.toNat < fuel) :
    ∃ k s', Listed tree f dirp count v o actualCount.toNat k s s' ∧
      getdentsLoop vfs f dirp count fuel s actualCount =
        some (if k = 0 ∧ actualCount = 0 ∧ v ≠ [] then -einval else
          ((actualCount.toNat + (childBytes (tree s.fs) o (v.take k)).length : ℕ) : ℤ), s') := by
  have hsplit : vmmAddrSplit.toNat = 2 ^ 47 := rfl
  induction fuel generalizing s o actualCount v with
  | zero => omega
  | succ fuel ih =>
    have hint : actualCount.toInt = actualCount.toNat :=
      BitVec.toInt_eq_toNat_of_lt (by omega)
    obtain ⟨hend, hchild⟩ := hvfs.readdir_eq hkids hd o
    rw [← hnode, ← hoffset] at hend hchild
    cases v with
    | nil =>
      obtain ⟨dirent, hread⟩ := hend (hview.last.resolve_right (Nat.not_lt_zero _))
      refine ⟨0, s, .zero hoffset hle (by simp), ?_⟩
      rw [getdentsLoop_end hread, if_neg (by simp), hint]
      rfl
    | cons c v =>
      have hread := hchild c (hview.child 0 (Nat.succ_pos _))
      have hroom := (direntReclen_bounds (childDirent ((tree s.fs).node c))).1
      by_cases hfit : actualCount.toNat + direntReclen (childDirent ((tree s.fs).node c)) ≤
          count.toNat
      · -- the record fits
        obtain ⟨s₁, hstep, hmem, hfs, hfiles⟩ := getdentsLoop_next (n := fuel) hread hfit hbuf
        have hnext : _ = actualCount.toNat + direntReclen (childDirent ((tree s.fs).node c)) :=
          toNat_add_direntReclen (by omega) _
        generalize actualCount + BitVec.ofNat 64 (direntReclen (childDirent ((tree s.fs).node c))) =
          next at hnext hstep
        have hview' := hview.tail (by omega)
        rw [Nat.sub_sub, ← hnext] at hview'
        have hadvance : s₁.files = s.files.setOffset f (BitVec.ofNat 64 (o + 1)) := by
          rw [hfiles, Files.advance, hoffset, BitVec.ofNat_add]
          rfl
        obtain ⟨k, s', hlisted, hloop⟩ := ih (s := s₁) (o := o + 1) (hfs ▸ hkids)
          (by rw [hadvance, file_setOffset_self]; exact hnode)
          (by rw [hadvance, file_setOffset_self]) (by omega) (hfs ▸ hview') (by omega)
        have hne : next ≠ 0 := by
          rintro rfl
          simp at hnext
          omega
        rw [hnext] at hlisted hloop
        refine ⟨k + 1, s', hlisted.cons ?_ hfs hadvance, (hstep.trans hloop).trans ?_⟩
        · rw [hmem, BitVec.ofNat_toNat, BitVec.setWidth_eq, ← hoffset]
        · rw [if_neg (by tauto), if_neg (by omega), hfs, List.take_succ_cons, childBytes_cons,
            List.length_append, length_direntChunk, Nat.add_assoc]
      · -- it does not
        refine ⟨0, s, .zero hoffset hle fun c' hc' => ?_, ?_⟩
        · cases hc'
          omega
        · rw [getdentsLoop_full hread (by omega) (by omega), hint]
          by_cases h0 : actualCount = 0
          · rw [if_pos h0, if_pos ⟨rfl, h0, List.cons_ne_nil _ _⟩]
          · rw [if_neg h0, if_neg (by tauto)]
            rfl

/-- A directory of fewer than `2 ^ 32` children is seen as it is, from every index on. -/
theorem DirView.of_lt (t : VfsTree) {o : ℕ} (hlen : l.length < 2 ^ 32) (ho : o < 2 ^ 32)
    (room : ℕ) : DirView t l o room (l.drop o) := by
  refine ⟨fun i hi => ?_, Or.inl ?_⟩
  · rw [List.length_drop] at hi
    rw [Nat.mod_eq_of_lt (by omega), ← List.getElem?_drop, List.getElem?_eq_getElem]
  · rw [List.length_drop]
    refine List.getElem?_eq_none ?_
    rw [Nat.mod_eq_of_lt (by omega)]
    omega

/-- The descriptor `fd` of the running task is open on the directory `d`, through the file `f`. -/
structure OpenDir (tree : σ → VfsTree) (fd f d : Word) (s : Sys σ) : Prop where
  task : s.files.current ≠ 0
  slot : ∃ i, fdIndex (toCInt fd) = some i ∧ s.files.fds s.files.current i = f
  ne_null : f ≠ 0
  node : (s.files.file f).node = d
  live : d ∈ (tree s.fs).live
  isDir : (tree s.fs).isDir d = true
  notDevice : ((tree s.fs).node d).flags &&& vfsChardevice = 0

theorem OpenDir.congr {s' : Sys σ} (h : OpenDir tree fd f d s)
    (hcurrent : s'.files.current = s.files.current)
    (hfds : s'.files.fds s.files.current = s.files.fds s.files.current)
    (hnode : (s'.files.file f).node = (s.files.file f).node) (htree : tree s'.fs = tree s.fs) :
    OpenDir tree fd f d s' := by
  obtain ⟨i, hi, hslot⟩ := h.slot
  refine ⟨hcurrent ▸ h.task, ⟨i, hi, ?_⟩, h.ne_null, hnode.trans h.node, htree ▸ h.live,
    htree ▸ h.isDir, htree ▸ h.notDevice⟩
  rw [hcurrent, hfds, hslot]

/-- Where the open directory has the children `l`, a call of `sys_getdents64` with a buffer in the
user half reports `k` of them from the index `o` on, and moves the offset behind them. It returns 0
when there are none left and `-EINVAL` when the record of the next one does not fit. Otherwise the
reader finds the records, and consumes the buffer as far as it was filled. -/
def ReportsFrom (vfs : Vfs σ) (tree : σ → VfsTree) (fd f : Word) (l : List Word) (o : ℕ)
    (s : Sys σ) : Prop :=
  ∀ dirp count : Word, dirp ≠ 0 → dirp.toNat + count.toNat ≤ vmmAddrSplit.toNat →
    ∃ k res s', sysGetdents64 vfs s fd dirp count = some (res, s') ∧ o + k ≤ l.length ∧
      s'.fs = s.fs ∧ s'.files = s.files.setOffset f (BitVec.ofNat 64 (o + k)) ∧
      (res = 0 ↔ o = l.length) ∧
      ((res = -einval ∧ k = 0 ∧ ∃ c, l[o]? = some c ∧
          count.toNat < direntReclen (childDirent ((tree s.fs).node c))) ∨
        (0 ≤ res ∧ (k = 0 → o = l.length) ∧ lsBuffer s'.mem dirp res =
          some (childRecords (tree s.fs) o ((l.drop o).take k), res.toNat)))

/-- The bytes of no children are none, and those of a child are some. -/
theorem length_childBytes_eq_zero (t : VfsTree) (i : ℕ) (l : List Word) :
    (childBytes t i l).length = 0 ↔ l = [] := by
  cases l with
  | nil => exact iff_of_true rfl rfl
  | cons c l =>
    have hroom := (direntReclen_bounds (childDirent (t.node c))).1
    rw [childBytes_cons, List.length_append, length_direntChunk]
    exact iff_of_false (by omega) (List.cons_ne_nil _ _)

theorem OpenDir.sysGetdents64_eq (hvfs : IsRamfsDir vfs tree d) (h : OpenDir tree fd f d s)
    (hd : d ≠ 0) (hdirp : dirp ≠ 0) (count : Word) :
    sysGetdents64 vfs s fd dirp count = getdentsLoop vfs f dirp count (count.toNat + 1) s 0 := by
  obtain ⟨i, hi, hslot⟩ := h.slot
  have hflags : ¬ vfs.flags s.fs d &&& vfsDirectory = 0 := by
    have := h.isDir
    rw [hvfs.flags]
    rwa [VfsTree.isDir, bne_iff_ne] at this
  have hnull : ¬ (f = 0 ∨ d = 0) := not_or.mpr ⟨h.ne_null, hd⟩
  simp only [sysGetdents64, withFd, hi, if_neg hdirp, currentTaskFds, if_neg h.task, hslot,
    h.node, if_neg hnull, if_neg hflags, hvfs.hasReaddir]
  rfl

/-- A call of `sys_getdents64` writes the records of the children that are seen from the offset on, as
many as fit, and the reader finds them. -/
theorem OpenDir.getdents_view (hvfs : IsRamfsDir vfs tree d) (h : OpenDir tree fd f d s)
    (hkids : (tree s.fs).Children d l) (hd : d ≠ 0)
    (hoffset : (s.files.file f).offset = BitVec.ofNat 64 o) (hdirp : dirp ≠ 0)
    (hbuf : dirp.toNat + count.toNat ≤ vmmAddrSplit.toNat) {v : List Word}
    (hview : DirView (tree s.fs) l o count.toNat v) :
    ∃ k s', Listed tree f dirp count v o 0 k s s' ∧
      sysGetdents64 vfs s fd dirp count = some (if k = 0 ∧ v ≠ [] then -einval else
        ((childBytes (tree s.fs) o (v.take k)).length : ℤ), s') ∧
      lsBuffer s'.mem dirp (childBytes (tree s.fs) o (v.take k)).length =
        some (childRecords (tree s.fs) o (v.take k),
          (childBytes (tree s.fs) o (v.take k)).length) := by
  have hzero : (0 : Word).toNat = 0 := rfl
  obtain ⟨k, s', hlisted, hloop⟩ :=
    @getdentsLoop_view _ _ _ _ _ _ _ s l o hvfs hkids hd h.node hoffset hbuf 0
      (Nat.zero_le _) v hview (count.toNat + 1) (Nat.lt_succ_self _)
  simp only [hzero, Nat.zero_add, true_and] at hlisted hloop
  refine ⟨k, s', hlisted, (h.sysGetdents64_eq hvfs hd hdirp count).trans hloop, ?_⟩
  have hfits := hlisted.fits
  have hlong := count.isLt
  have hheld := ByteMem.holds_write s.mem (dirp + BitVec.ofNat 64 0)
    (show (childBytes (tree s.fs) o (v.take k)).length ≤ 2 ^ 64 by omega)
  rw [← hlisted.mem] at hheld
  rw [lsBuffer, Int.toNat_natCast]
  exact lsLoop_of_holds hheld (Nat.zero_add _).symm (Nat.lt_succ_self _)

/-- `sys_getdents64` reports the children from the offset on. -/
theorem OpenDir.reportsFrom (hvfs : IsRamfsDir vfs tree d) (h : OpenDir tree fd f d s)
    (hkids : (tree s.fs).Children d l) (hd : d ≠ 0) (hlen : l.length < 2 ^ 32) {o : ℕ}
    (hoffset : (s.files.file f).offset = BitVec.ofNat 64 o) (ho : o ≤ l.length) :
    ReportsFrom vfs tree fd f l o s := by
  intro dirp count hdirp hbuf
  obtain ⟨k, s', ⟨hk, -, hfs, hfiles, -, hshort⟩, hcall, hread⟩ :=
    h.getdents_view hvfs hkids hd hoffset hdirp hbuf (DirView.of_lt _ hlen (by omega) _)
  have hmore : l.drop o ≠ [] ↔ o < l.length := by
    rw [Ne, List.drop_eq_nil_iff, not_le]
  rw [List.length_drop] at hk
  have hk : o + k ≤ l.length := by omega
  by_cases hnone : k = 0 ∧ l.drop o ≠ []
  · -- the first record does not fit
    rw [if_pos hnone] at hcall
    obtain ⟨rfl, hlt⟩ := hnone
    rw [hmore] at hlt
    have hget := List.getElem?_eq_getElem hlt
    have hbig := hshort _ (by rw [List.getElem?_drop]; exact hget)
    rw [List.take_zero] at hbig
    refine ⟨0, _, s', hcall, hk, hfs, hfiles, ?_,
      .inl ⟨rfl, rfl, _, hget, hbig.trans_eq (Nat.zero_add _)⟩⟩
    exact iff_of_false (by decide) hlt.ne
  · have hend : k = 0 → o = l.length := fun hk0 => by
      by_contra hne
      exact hnone ⟨hk0, hmore.mpr (by omega)⟩
    rw [if_neg hnone] at hcall
    refine ⟨k, _, s', hcall, hk, hfs, hfiles, ?_, .inr ⟨Int.natCast_nonneg _, hend, hread⟩⟩
    rw [Int.natCast_eq_zero, length_childBytes_eq_zero, List.take_eq_nil_iff, List.drop_eq_nil_iff]
    exact ⟨fun h0 => h0.elim hend fun hle => by omega, fun heq => .inr (by omega)⟩

/-! ## Runs -/

/-- What calls on one descriptor returned so far, read record by record. -/
structure DirRun (σ : Type) where
  sys : Sys σ
  records : List LinuxDirent64

/-- A step of a run: a call of `sys_getdents64` with a buffer in the user half, a creation in some
directory, or anything else that leaves the descriptor and the nodes alone. The directory keeps
fewer than `2 ^ 32` children. -/
inductive DirStep (vfs : Vfs σ) (tree : σ → VfsTree) (fd f d : Word) : DirRun σ → DirRun σ → Prop
  | getdents {r : DirRun σ} {dirp count : Word} {res : Int} {sys : Sys σ}
    {dirents : List LinuxDirent64} {last : ℕ} (hdirp : dirp ≠ 0)
    (hbuf : dirp.toNat + count.toNat ≤ vmmAddrSplit.toNat)
    (hcall : sysGetdents64 vfs r.sys fd dirp count = some (res, sys))
    (hread : lsBuffer sys.mem dirp res = some (dirents, last)) :
    DirStep vfs tree fd f d r ⟨sys, r.records ++ dirents⟩
  | create {r : DirRun σ} {answers : List Word} {dir node : Word} {name : List (BitVec 8)}
    {flags : BitVec 32} {fs : σ} (hfresh : { tree r.sys.fs with answers := answers }.Fresh)
    (hdir : dir ∈ (tree r.sys.fs).live) (hname : 0 ∉ name)
    (hcreate : ramfsOpsCreate { tree r.sys.fs with answers := answers } dir name flags =
      some (node, tree fs))
    (hcount : ∀ l, (tree fs).Children d l → l.length < 2 ^ 32) :
    DirStep vfs tree fd f d r ⟨{ r.sys with fs }, r.records⟩
  | elsewhere {r : DirRun σ} {sys : Sys σ} (hcurrent : sys.files.current = r.sys.files.current)
    (hfds : sys.files.fds r.sys.files.current = r.sys.files.fds r.sys.files.current)
    (hfile : sys.files.file f = r.sys.files.file f) (htree : tree sys.fs = tree r.sys.fs) :
    DirStep vfs tree fd f d r ⟨sys, r.records⟩

/-- The records so far are those of the children up to the offset. -/
structure DirRun.Inv (tree : σ → VfsTree) (fd f d root : Word) (kids : Word → List Word)
    (r : DirRun σ) : Prop where
  isOpen : OpenDir tree fd f d r.sys
  shape : (tree r.sys.fs).Shape root kids
  count : (kids d).length < 2 ^ 32
  seen : ∃ o ≤ (kids d).length, (r.sys.files.file f).offset = BitVec.ofNat 64 o ∧
    r.records = childRecords (tree r.sys.fs) 0 ((kids d).take o)

variable {root : Word} {kids : Word → List Word} {r r' : DirRun σ}

theorem OpenDir.ne_zero (h : OpenDir tree fd f d s) (hshape : (tree s.fs).Shape root kids) :
    d ≠ 0 :=
  fun h0 => hshape.ne_null (h0 ▸ h.live)

/-- A creation changes nothing, or finds no memory, or adds a child. -/
theorem VfsTree.Shape.create_cases {t t' : VfsTree} {dir node : Word} {name : List (BitVec 8)}
    {flags : BitVec 32} (h : t.Shape root kids) (hdir : dir ∈ t.live) (hname : 0 ∉ name)
    (hfresh : t.Fresh) (hcreate : ramfsOpsCreate t dir name flags = some (node, t')) :
    t' = t ∨ t' = t.starved ∨ t.Created t' root kids dir node name flags := by
  by_cases hd : t.isDir dir = true
  · by_cases hnew : t.named (kids dir) name = 0
    · rcases h.create hdir hd hname hnew hfresh flags with hstarved | ⟨p, t₁, hok, hcreated⟩
      · exact .inr (.inl (Prod.mk.inj (Option.some.inj (hcreate.symm.trans hstarved))).2)
      · cases hcreate.symm.trans hok
        exact .inr (.inr hcreated)
    · -- the name exists
      have hd0 : dir ≠ 0 := fun h0 => h.ne_null (h0 ▸ hdir)
      have hnot : ¬ (dir = 0 ∨ ¬ t.isDir dir = true) := by tauto
      unfold ramfsOpsCreate at hcreate
      rw [if_neg hnot, (h.children dir hdir).finddir hd0 hname] at hcreate
      simp only [Option.bind_eq_bind, Option.bind_some, if_pos hnew] at hcreate
      exact .inl (Prod.mk.inj (Option.some.inj hcreate)).2.symm
  · unfold ramfsOpsCreate at hcreate
    rw [if_pos (.inr hd)] at hcreate
    exact .inl (Prod.mk.inj (Option.some.inj hcreate)).2.symm

/-- Records stay what they are when the nodes keep their names and flags. -/
theorem childRecords_congr {t t' : VfsTree} {i : ℕ} {l : List Word}
    (h : ∀ c ∈ l, (t'.node c).name = (t.node c).name ∧ (t'.node c).flags = (t.node c).flags) :
    childRecords t' i l = childRecords t i l := by
  apply List.map_congr_left
  rintro ⟨c, k⟩ hc
  obtain ⟨hname, hflags⟩ := h c (List.fst_mem_of_mem_zipIdx hc)
  have hreclen : direntReclen (childDirent (t'.node c)) = direntReclen (childDirent (t.node c)) := by
    simp only [direntReclen, VfsTree.childDirent_name, hname]
  simp only [childRecord, hname, hflags, hreclen]

/-- Where the nodes change but not the directory, its children or their names and flags. -/
theorem DirRun.Inv.of_tree (h : r.Inv tree fd f d root kids) {fs : σ} {kids' : Word → List Word}
    (hlive : ∀ n ∈ (tree r.sys.fs).live, n ∈ (tree fs).live)
    (hname : ∀ n ∈ (tree r.sys.fs).live, ((tree fs).node n).name = ((tree r.sys.fs).node n).name)
    (hflags : ∀ n ∈ (tree r.sys.fs).live,
      ((tree fs).node n).flags = ((tree r.sys.fs).node n).flags)
    (hshape : (tree fs).Shape root kids') (hkids : kids d <+: kids' d)
    (hcount : (kids' d).length < 2 ^ 32) :
    DirRun.Inv tree fd f d root kids' ⟨{ r.sys with fs }, r.records⟩ := by
  obtain ⟨o, ho, hoffset, hrecords⟩ := h.seen
  have hd := h.isOpen.live
  refine ⟨⟨h.isOpen.task, h.isOpen.slot, h.isOpen.ne_null, h.isOpen.node, hlive d hd, ?_, ?_⟩,
    hshape, hcount, o, ho.trans hkids.length_le, hoffset, ?_⟩
  · have := h.isOpen.isDir
    rwa [VfsTree.isDir, ← hflags d hd] at this
  · rw [hflags d hd]
    exact h.isOpen.notDevice
  · have htake : (kids' d).take o = (kids d).take o := by
      obtain ⟨more, hmore⟩ := hkids
      rw [← hmore, List.take_append_of_le_length ho]
    rw [hrecords, htake]
    refine (childRecords_congr fun c hc => ?_).symm
    have hc' := h.shape.kids_live d hd c (List.mem_of_mem_take hc)
    exact ⟨hname c hc', hflags c hc'⟩

theorem DirStep.inv (hvfs : IsRamfsDir vfs tree d) (hstep : DirStep vfs tree fd f d r r')
    (h : r.Inv tree fd f d root kids) : ∃ kids', r'.Inv tree fd f d root kids' := by
  cases hstep with
  | getdents hdirp hbuf hcall hread =>
    rename_i dirp count res sys dirents last
    obtain ⟨o, ho, hoffset, hrecords⟩ := h.seen
    have hkids := h.shape.children d h.isOpen.live
    obtain ⟨k, res', s', hcall', hk, hfs, hfiles, -, hcases⟩ :=
      h.isOpen.reportsFrom hvfs hkids (h.isOpen.ne_zero h.shape) h.count hoffset ho
        dirp count hdirp hbuf
    cases hcall.symm.trans hcall'
    have hnew : dirents = childRecords (tree r.sys.fs) o (((kids d).drop o).take k) := by
      rcases hcases with ⟨hres, hk0, -⟩ | ⟨-, -, hread'⟩
      · rw [hres] at hread
        have hnil : lsBuffer sys.mem dirp (-einval) = some ([], 0) := rfl
        rw [hk0, (Prod.mk.inj (Option.some.inj (hread.symm.trans hnil))).1]
        rfl
      · exact (Prod.mk.inj (Option.some.inj (hread.symm.trans hread'))).1
    refine ⟨kids, h.isOpen.congr ?_ ?_ ?_ (congrArg tree hfs), ?_, h.count, o + k, hk, ?_, ?_⟩
    · rw [hfiles]
      rfl
    · rw [hfiles]
      rfl
    · rw [hfiles, file_setOffset_self]
    · rw [hfs]
      exact h.shape
    · rw [hfiles, file_setOffset_self]
    · rw [hfs, hrecords, hnew, List.take_add, childRecords_append, List.length_take,
        Nat.min_eq_left ho, Nat.zero_add]
  | create hfresh hdir hname hcreate hcount =>
    rename_i answers dir node name flags fs
    have hshape : { tree r.sys.fs with answers := answers }.Shape root kids := { h.shape with }
    rcases hshape.create_cases hdir hname hfresh hcreate with heq | heq | hcreated
    · refine ⟨kids, h.of_tree ?_ ?_ ?_ (heq ▸ hshape) List.prefix_rfl h.count⟩ <;> rw [heq] <;> simp
    · refine ⟨kids, h.of_tree ?_ ?_ ?_ (heq ▸ { h.shape with }) List.prefix_rfl h.count⟩ <;> rw [heq] <;>
        simp [VfsTree.starved]
    · have hne : ∀ n ∈ (tree r.sys.fs).live, n ≠ node := fun n hn hnode =>
        hcreated.notMem (hnode ▸ hn)
      have hlive : d ∈ (tree fs).live := by
        rw [hcreated.live]
        exact List.mem_cons_of_mem _ h.isOpen.live
      refine ⟨_, h.of_tree (fun n hn => ?_) (fun n hn => hcreated.name_of_ne n (hne n hn))
        (fun n hn => hcreated.flags_of_ne n (hne n hn)) hcreated.shape ?_
        (hcount _ (hcreated.shape.children d hlive))⟩
      · rw [hcreated.live]
        exact List.mem_cons_of_mem _ hn
      · by_cases hdd : d = dir
        · rw [hdd, Function.update_self]
          exact List.prefix_append _ _
        · rw [Function.update_of_ne hdd, Function.update_of_ne (hne d h.isOpen.live)]
  | elsewhere hcurrent hfds hfile htree =>
    obtain ⟨o, ho, hoffset, hrecords⟩ := h.seen
    refine ⟨kids, h.isOpen.congr hcurrent hfds (congrArg File.node hfile) htree, htree ▸ h.shape,
      h.count, o, ho, ?_, ?_⟩
    · rw [hfile, hoffset]
    · rw [htree, hrecords]

/-- `SEEK_SET` sets the offset to any word. -/
theorem OpenDir.sysLseek_eq (hvfs : IsRamfsDir vfs tree d) (h : OpenDir tree fd f d s)
    (offset : Word) :
    sysLseek vfs s fd offset 0 =
      (offset.toInt, { s with files := s.files.setOffset f offset }) := by
  obtain ⟨i, hi, hslot⟩ := h.slot
  have hdevice : isChardevice vfs s f = false := by
    rw [isChardevice, h.node, hvfs.flags, h.notDevice]
    rfl
  simp only [sysLseek, hi, currentTaskFds, if_neg h.task, hslot, if_neg h.ne_null, hdevice]
  rfl

theorem OpenDir.setOffset (h : OpenDir tree fd f d s) (offset : Word) :
    OpenDir tree fd f d { s with files := s.files.setOffset f offset } :=
  h.congr rfl rfl (by rw [file_setOffset_self]) rfl

/-- Seeking to an index makes the next call report from there. -/
theorem OpenDir.lseek (hvfs : IsRamfsDir vfs tree d) (h : OpenDir tree fd f d s)
    (hkids : (tree s.fs).Children d l) (hd : d ≠ 0) (hlen : l.length < 2 ^ 32) {o : ℕ}
    (ho : o ≤ l.length) :
    ∃ s', sysLseek vfs s fd (BitVec.ofNat 64 o) 0 = ((o : ℤ), s') ∧
      ReportsFrom vfs tree fd f l o s' := by
  have hint : (BitVec.ofNat 64 o).toInt = o := by
    rw [BitVec.toInt_eq_toNat_of_lt (by rw [BitVec.toNat_ofNat]; omega), BitVec.toNat_ofNat]
    omega
  refine ⟨_, (h.sysLseek_eq hvfs _).trans (by rw [hint]), ?_⟩
  exact (h.setOffset _).reportsFrom hvfs hkids hd hlen (by rw [file_setOffset_self]) ho

theorem getElem?_childRecords {t : VfsTree} {i o : ℕ} {e : LinuxDirent64}
    (h : (childRecords t 0 (l.take o))[i]? = some e) :
    i < o ∧ i < l.length ∧ e.dOff = BitVec.ofNat 64 (i + 1) := by
  have hlt := (List.getElem?_eq_some_iff.mp h).1
  rw [childRecords, List.length_map, List.length_zipIdx, List.length_take] at hlt
  rw [childRecords, List.getElem?_map, List.getElem?_zipIdx] at h
  obtain ⟨⟨c, k⟩, hc, rfl⟩ := Option.map_eq_some_iff.mp h
  obtain ⟨c', -, hc'⟩ := Option.map_eq_some_iff.mp hc
  cases hc'
  refine ⟨by omega, by omega, ?_⟩
  rw [Nat.zero_add]
  rfl

/-- Each record is a multiple of eight bytes and has room for its name and a NUL. -/
theorem childRecords_wellFormed {t : VfsTree} {i : ℕ} {e : LinuxDirent64}
    (h : e ∈ childRecords t i l) :
    e.dReclen.toNat % 8 = 0 ∧ direntNameOffset + e.dName.length < e.dReclen.toNat := by
  obtain ⟨⟨c, k⟩, -, rfl⟩ := List.mem_map.mp h
  obtain ⟨hroom, hmod, -⟩ := direntReclen_bounds (childDirent (t.node c))
  rw [VfsTree.childDirent_name] at hroom
  rw [dReclen_childRecord]
  exact ⟨hmod, hroom⟩

/-- Listing a ramfs directory reports each child once. In every state of every run that starts at
offset 0, the records found so far are those of the first `o` children, in order, each a multiple of
eight bytes with its name and a NUL in it; the next call reports from there on, and returns 0 only
if all children were reported. Seeking to the `d_off` of any record makes the next call report from
the entry right after that record on. -/
theorem getdents_enumerates_children (hvfs : IsRamfsDir vfs tree d) (hopen : OpenDir tree fd f d s)
    (hshape : (tree s.fs).Shape root kids) (hcount : (kids d).length < 2 ^ 32)
    (hstart : (s.files.file f).offset = 0)
    (hrun : Relation.ReflTransGen (DirStep vfs tree fd f d) ⟨s, []⟩ r) :
    ∃ l o, (tree r.sys.fs).Children d l ∧ l.Nodup ∧ o ≤ l.length ∧
      r.records = childRecords (tree r.sys.fs) 0 (l.take o) ∧
      (∀ e ∈ r.records,
        e.dReclen.toNat % 8 = 0 ∧ direntNameOffset + e.dName.length < e.dReclen.toNat) ∧
      ReportsFrom vfs tree fd f l o r.sys ∧
      (∀ dirp count s', dirp ≠ 0 → dirp.toNat + count.toNat ≤ vmmAddrSplit.toNat →
        sysGetdents64 vfs r.sys fd dirp count = some (0, s') →
          r.records = childRecords (tree r.sys.fs) 0 l) ∧
      ∀ (i : ℕ) (e : LinuxDirent64), r.records[i]? = some e →
        ∃ s', sysLseek vfs r.sys fd e.dOff 0 = (((i + 1 : ℕ) : ℤ), s') ∧
          ReportsFrom vfs tree fd f l (i + 1) s' := by
  have hinv : ∃ kids', r.Inv tree fd f d root kids' := by
    induction hrun with
    | refl => exact ⟨kids, hopen, hshape, hcount, 0, Nat.zero_le _, hstart, rfl⟩
    | tail _ hstep ih =>
      obtain ⟨kids', hinv⟩ := ih
      exact hstep.inv hvfs hinv
  obtain ⟨kids', hinv⟩ := hinv
  obtain ⟨o, ho, hoffset, hrecords⟩ := hinv.seen
  have hkids := hinv.shape.children d hinv.isOpen.live
  have hd := hinv.isOpen.ne_zero hinv.shape
  have hreports := hinv.isOpen.reportsFrom hvfs hkids hd hinv.count hoffset ho
  refine ⟨kids' d, o, hkids, Links.nodup hkids, ho, hrecords, ?_, hreports, ?_, ?_⟩
  · rw [hrecords]
    exact fun e => childRecords_wellFormed
  · intro dirp count s' hdirp hbuf hcall
    obtain ⟨k, res, s'', hcall', -, -, -, hzero, -⟩ := hreports dirp count hdirp hbuf
    obtain ⟨rfl, -⟩ := Prod.mk.inj (Option.some.inj (hcall.symm.trans hcall'))
    rw [hrecords, hzero.mp rfl, List.take_length]
  · intro i e he
    rw [hrecords] at he
    obtain ⟨-, hi, hoff⟩ := getElem?_childRecords he
    rw [hoff]
    exact hinv.isOpen.lseek hvfs hkids hd hinv.count hi

end

/-- A ramfs is one whose nodes are those of its tree. -/
theorem ramfsVfs_isRamfsDir {α : Type} (A : RamfsAlloc α) (hhdm d : Word) :
    IsRamfsDir (ramfsVfs A hhdm) RamfsFs.tree d where
  flags _ := rfl
  hasReaddir _ := rfl
  readdir fs index := by
    refine ⟨⟨[], 0, 0, by decide⟩, fun res dirent h => ?_⟩
    simp only [ramfsVfs, h]

/-- A new ramfs, with descriptor 3 of the running task open on its root. -/
def rootListing : Sys (RamfsFs Bump) where
  mem := fun _ => 0
  touched := []
  fs :=
    { tree := vfsBoot 0x1000
      file := fun _ => newFile
      mem := fun _ => 0
      alloc := ⟨exampleHhdm.toNat + 4096, 0⟩ }
  files :=
    { file := fun _ => { node := 0x1000, offset := 0, flags := 0, refCount := 1 }
      fds := fun _ _ => 0x5000
      current := 0x4000 }

/-- The same after a file `a` was created in the root. -/
def oneFileListing : Sys (RamfsFs Bump) :=
  { rootListing with
    fs := rootListing.fs.setTree
      ((ramfsOpsCreate { vfsBoot 0x1000 with answers := [0x2000] } 0x1000 [0x61] vfsFile).getD
        (0, vfsBoot 0)).2 }

/-- The file `a` is created in the root and a call with a buffer of 64 bytes finds its record; the
next call has nothing to report. -/
theorem getdents_enumerates_children_one_file :
    ∃ sys, Relation.ReflTransGen
        (DirStep (ramfsVfs (bumpAlloc exampleHhdm) exampleHhdm) RamfsFs.tree 3 0x5000 0x1000)
        ⟨rootListing, []⟩
        ⟨sys, [{ dIno := 0, dOff := 1, dReclen := 24, dType := 8, dName := [0x61] }]⟩ ∧
      ReportsFrom (ramfsVfs (bumpAlloc exampleHhdm) exampleHhdm) RamfsFs.tree 3 0x5000 [0x2000] 1
        sys := by
  have hkids : oneFileListing.fs.tree.Children 0x1000 [0x2000] :=
    ⟨by decide +kernel, by decide, Links.nil_iff.mpr (by decide +kernel)⟩
  have hopen : OpenDir RamfsFs.tree 3 0x5000 0x1000 rootListing :=
    ⟨by decide, ⟨⟨3, by decide⟩, by decide +kernel, rfl⟩, by decide, rfl, by decide +kernel,
      by decide +kernel, by decide +kernel⟩
  have hshape : rootListing.fs.tree.Shape 0x1000 fun _ => [] :=
    (vfsBoot_rooted (show (0x1000 : Word) ≠ 0 by decide)).toShape
  have hcreate : ramfsOpsCreate { vfsBoot 0x1000 with answers := [0x2000] } 0x1000 [0x61] vfsFile =
      some (0x2000, oneFileListing.fs.tree) :=
    Loop.eq_some_of_map_fst (d := (0, vfsBoot 0)) (by decide +kernel)
  have hcount : ∀ l, oneFileListing.fs.tree.Children 0x1000 l → l.length < 2 ^ 32 := by
    intro l hl
    rw [hl.unique hkids]
    decide
  have hstep := @DirStep.create _ (ramfsVfs (bumpAlloc exampleHhdm) exampleHhdm) _ 3 0x5000 0x1000
    ⟨rootListing, []⟩ _ _ _ _ _ oneFileListing.fs (VfsTree.fresh_singleton (by decide +kernel))
    (by decide +kernel) (by decide) hcreate hcount
  -- the call returns the 24 bytes of the record
  obtain ⟨⟨res, sys⟩, hcall, hfirst, hlast, hread⟩ : ∃ x ∈ sysGetdents64
      (ramfsVfs (bumpAlloc exampleHhdm) exampleHhdm) oneFileListing 3 0x400000 64,
      (x.2.fs.tree.node 0x1000).firstChild = 0x2000 ∧
      (x.2.fs.tree.node 0x2000).nextSibling = 0 ∧ lsBuffer x.2.mem 0x400000 x.1 =
        some ([{ dIno := 0, dOff := 1, dReclen := 24, dType := 8, dName := [0x61] }], 24) := by
    decide +kernel
  have hrun := Relation.ReflTransGen.tail (.single hstep)
    (.getdents (by decide) (by decide +kernel) hcall hread)
  obtain ⟨l, o, hl, -, ho, hrecords, -, hreports, -⟩ :=
    getdents_enumerates_children (ramfsVfs_isRamfsDir (bumpAlloc exampleHhdm) exampleHhdm 0x1000)
      hopen hshape (by decide) rfl hrun
  obtain rfl : l = [0x2000] := hl.unique ⟨hfirst, by decide, hlast⟩
  obtain rfl : o = 1 := by
    have hlength := congrArg List.length hrecords
    rw [childRecords, List.length_map, List.length_zipIdx, List.length_take] at hlength
    simp at hlength ho
    omega
  exact ⟨sys, hrun, hreports⟩

end Pros
