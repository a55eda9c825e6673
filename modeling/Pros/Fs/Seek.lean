import Pros.Fs.Getdents

/-!
# Positions

What `sys_lseek` does with a position, and what `sys_getdents64` does after it. A position is an
unsigned 64-bit number, the result of `sys_lseek` is signed, and the index of `readdir` has 32 bits.
-/

namespace Pros

section

variable {σ : Type} {vfs : Vfs σ} {tree : σ → VfsTree} {fd f d count offset whence : Word} {s : Sys σ}
  {l : List Word} {o : ℕ}

/-! ## Seeking -/

/-- The descriptor `fd` of the running task is open, through the file `f`, on a node that is no
character device. -/
structure OpenFile (vfs : Vfs σ) (fd f : Word) (s : Sys σ) : Prop where
  task : s.files.current ≠ 0
  slot : ∃ i, fdIndex (toCInt fd) = some i ∧ s.files.fds s.files.current i = f
  ne_null : f ≠ 0
  notDevice : isChardevice vfs s f = false

/-- What the offset is relative to: the start, the position or the size. -/
def seekBase (vfs : Vfs σ) (s : Sys σ) (f whence : Word) : Option Word :=
  if toCInt whence = 0 then some 0
  else if toCInt whence = 1 then some (s.files.file f).offset
  else if toCInt whence = 2 then some (vfs.size s.fs (s.files.file f).node)
  else none

/-- A negative result leaves the position as it is, and any other result is the new position and the
exact sum of the base and the offset. -/
def SeekReports (vfs : Vfs σ) (s : Sys σ) (fd f offset whence : Word) : Prop :=
  ((sysLseek vfs s fd offset whence).1 < 0 →
    ((sysLseek vfs s fd offset whence).2.files.file f).offset = (s.files.file f).offset) ∧
  (0 ≤ (sysLseek vfs s fd offset whence).1 →
    (sysLseek vfs s fd offset whence).1 =
      (((sysLseek vfs s fd offset whence).2.files.file f).offset.toNat : ℤ) ∧
    ∃ base, seekBase vfs s f whence = some base ∧
      (sysLseek vfs s fd offset whence).1 = base.toNat + offset.toInt)

theorem OpenFile.sysLseek_eq (h : OpenFile vfs fd f s) (offset whence : Word) :
    sysLseek vfs s fd offset whence =
      match seekBase vfs s f whence with
      | none => (-einval, s)
      | some base =>
        ((base + offset).toInt, { s with files := s.files.setOffset f (base + offset) }) := by
  obtain ⟨i, hi, hslot⟩ := h.slot
  simp only [sysLseek, hi, currentTaskFds, if_neg h.task, hslot, if_neg h.ne_null, h.notDevice,
    seekBase]
  by_cases h0 : toCInt whence = 0
  · simp only [if_pos h0, show 0 + offset = offset from BitVec.zero_add _]
    rfl
  · by_cases h1 : toCInt whence = 1
    · simp only [if_neg h0, if_pos h1]
      rfl
    · by_cases h2 : toCInt whence = 2
      · simp only [if_neg h0, if_neg h1, if_pos h2]
        rfl
      · simp only [if_neg h0, if_neg h1, if_neg h2]
        rfl

/-- A sum that does not wrap and has no sign bit is exact, and no other is. -/
theorem toInt_add_eq_iff {base : Word} :
    (0 ≤ (base + offset).toInt ∧ (base + offset).toInt = base.toNat + offset.toInt) ↔
      0 ≤ base.toNat + offset.toInt ∧ base.toNat + offset.toInt < 2 ^ 63 := by
  have hsum : (base + offset).toNat = (base.toNat + offset.toNat) % 2 ^ 64 := BitVec.toNat_add ..
  have hbase := base.isLt
  have hoffset := offset.isLt
  rw [BitVec.toInt_eq_toNat_cond, BitVec.toInt_eq_toNat_cond]
  split <;> split <;> omega

/-- `sys_lseek` reports errors without moving, and exact positions, if and only if it refuses
`whence`, or the sum is not negative and below `2 ^ 63`, or the wrapped sum is the position that the
file already has and that position is taken for an error. -/
theorem lseek_reports_iff (h : OpenFile vfs fd f s) (offset whence : Word) :
    SeekReports vfs s fd f offset whence ↔
      seekBase vfs s f whence = none ∨
      ∃ base, seekBase vfs s f whence = some base ∧
        (0 ≤ base.toNat + offset.toInt ∧ base.toNat + offset.toInt < 2 ^ 63 ∨
          base + offset = (s.files.file f).offset ∧ 2 ^ 63 ≤ (s.files.file f).offset.toNat) := by
  rw [SeekReports, h.sysLseek_eq]
  cases hbase : seekBase vfs s f whence with
  | none =>
    have hneg : ¬ 0 ≤ -einval := by decide
    exact iff_of_true ⟨fun _ => rfl, fun h0 => absurd h0 hneg⟩ (Or.inl rfl)
  | some base =>
    simp only [file_setOffset_self, reduceCtorEq, false_or, Option.some.injEq, exists_eq_left',
      ← toInt_add_eq_iff]
    have hneg : (base + offset).toInt < 0 ↔ 2 ^ 63 ≤ (base + offset).toNat := by
      rw [BitVec.toInt_eq_toNat_cond]
      have := (base + offset).isLt
      split <;> omega
    have hpos : 0 ≤ (base + offset).toInt → (base + offset).toInt = (base + offset).toNat := by
      intro h0
      exact BitVec.toInt_eq_toNat_of_lt (by omega)
    constructor
    · rintro ⟨hstay, hmove⟩
      by_cases h0 : 0 ≤ (base + offset).toInt
      · exact Or.inl ⟨h0, (hmove h0).2⟩
      · have heq := hstay (by omega)
        exact Or.inr ⟨heq, heq ▸ hneg.mp (by omega)⟩
    · rintro (⟨h0, hexact⟩ | ⟨heq, hbig⟩)
      · exact ⟨fun hlt => absurd h0 (by omega), fun h0 => ⟨hpos h0, hexact⟩⟩
      · have hlt := hneg.mpr (heq ▸ hbig)
        exact ⟨fun _ => heq, fun h0 => absurd h0 (by omega)⟩

theorem rootListing_openFile :
    OpenFile (ramfsVfs (bumpAlloc exampleHhdm) exampleHhdm) 3 0x5000 rootListing :=
  ⟨by decide, ⟨⟨3, by decide⟩, by decide +kernel, rfl⟩, by decide, by decide +kernel⟩

theorem lseek_reports_iff_start :
    OpenFile (ramfsVfs (bumpAlloc exampleHhdm) exampleHhdm) 3 0x5000 rootListing ∧
      SeekReports (ramfsVfs (bumpAlloc exampleHhdm) exampleHhdm) rootListing 3 0x5000 5 0 :=
  ⟨rootListing_openFile, (lseek_reports_iff rootListing_openFile 5 0).mpr
    (Or.inr ⟨0, rfl, Or.inl (by decide)⟩)⟩

/-- `sys_lseek(3, -1, SEEK_SET)` returns -1 and moves to `2 ^ 64 - 1`. -/
theorem lseek_moves_and_fails :
    OpenFile (ramfsVfs (bumpAlloc exampleHhdm) exampleHhdm) 3 0x5000 rootListing ∧
      ¬ SeekReports (ramfsVfs (bumpAlloc exampleHhdm) exampleHhdm) rootListing 3 0x5000 (-1) 0 := by
  refine ⟨rootListing_openFile, fun hreports => ?_⟩
  have hsame := hreports.1
  rw [rootListing_openFile.sysLseek_eq] at hsame
  revert hsame
  decide +kernel

/-! ## Listing from a position -/

/-- A call of `sys_getdents64` with a buffer in the user half that has room for the records of the
children `l` from the index `o` on returns these records. There are none from the end on, and the
call returns 0. -/
def ListsFrom (vfs : Vfs σ) (tree : σ → VfsTree) (fd : Word) (l : List Word) (o : ℕ) (s : Sys σ) :
    Prop :=
  ∀ dirp count : Word, dirp ≠ 0 → dirp.toNat + count.toNat ≤ vmmAddrSplit.toNat →
    (childBytes (tree s.fs) o (l.drop o)).length ≤ count.toNat →
    ∃ s', sysGetdents64 vfs s fd dirp count =
        some (((childBytes (tree s.fs) o (l.drop o)).length : ℤ), s') ∧
      lsBuffer s'.mem dirp (childBytes (tree s.fs) o (l.drop o)).length =
        some (childRecords (tree s.fs) o (l.drop o),
          (childBytes (tree s.fs) o (l.drop o)).length)

theorem childBytes_append (t : VfsTree) (i : ℕ) (l l' : List Word) :
    childBytes t i (l ++ l') = childBytes t i l ++ childBytes t (i + l.length) l' := by
  rw [childBytes, List.zipIdx_append, List.flatMap_append]
  rfl

/-- A record has at least 24 and at most 152 bytes. -/
theorem length_childBytes_bounds (t : VfsTree) (i : ℕ) (l : List Word) :
    l.length ≤ (childBytes t i l).length ∧ (childBytes t i l).length ≤ 152 * l.length := by
  induction l generalizing i with
  | nil => exact ⟨le_rfl, le_rfl⟩
  | cons c l ih =>
    obtain ⟨hroom, -, hsmall⟩ := direntReclen_bounds (childDirent (t.node c))
    have := ih (i + 1)
    rw [childBytes_cons, List.length_append, length_direntChunk, List.length_cons]
    omega

/-- What `readdir` sees of a directory of fewer than `2 ^ 32` children starts at the truncated
offset. -/
theorem DirView.drop_mod (t : VfsTree) (hlen : l.length < 2 ^ 32) (o room : ℕ) :
    DirView t l o room (l.drop (o % 2 ^ 32)) := by
  have hview := DirView.of_lt t hlen (Nat.mod_lt o (by decide)) room
  refine ⟨fun i hi => ?_, Or.inl ?_⟩
  · rw [← Nat.mod_add_mod]
    exact hview.child i hi
  · rw [List.length_drop, ← Nat.mod_add_mod]
    refine List.getElem?_eq_none ?_
    rw [Nat.mod_eq_of_lt] <;> omega

/-- A directory of at least `2 ^ 32` children has no end for `readdir`. -/
theorem DirView.exists_of_le (t : VfsTree) (hlen : 2 ^ 32 ≤ l.length) (o room : ℕ) :
    ∃ v, DirView t l o room v ∧ room < v.length := by
  let v := (List.range (room + 1)).map fun i => l[(o + i) % 2 ^ 32]?.getD 0
  have hv : v.length = room + 1 := by rw [List.length_map, List.length_range]
  have hbytes : room < (childBytes t o v).length := by
    have := (length_childBytes_bounds t o v).1
    omega
  refine ⟨v, ⟨fun i hi => ?_, Or.inr hbytes⟩, by omega⟩
  have hlt : (o + i) % 2 ^ 32 < l.length := (Nat.mod_lt _ (by decide)).trans_le hlen
  simp only [v, List.getElem_map, List.getElem_range, List.getElem?_eq_getElem hlt, Option.getD_some]

/-- The file system sees `v` from the offset on and the buffer has room for all of it. -/
theorem OpenDir.listsFrom (hvfs : IsRamfsDir vfs tree d) (h : OpenDir tree fd f d s)
    (hkids : (tree s.fs).Children d l) (hd : d ≠ 0)
    (hoffset : (s.files.file f).offset = BitVec.ofNat 64 o)
    (hview : ∀ room, DirView (tree s.fs) l o room (l.drop o)) : ListsFrom vfs tree fd l o s := by
  intro dirp count hdirp hbuf hroom
  obtain ⟨k, s', ⟨hk, -, -, -, -, hshort⟩, hcall, hread⟩ :=
    h.getdents_view hvfs hkids hd hoffset hdirp hbuf (hview count.toNat)
  have hall : k = (l.drop o).length := by
    by_contra hne
    have hlt : k < (l.drop o).length := by omega
    have hover := hshort _ (List.getElem?_eq_getElem hlt)
    have hsplit : l.drop o = (l.drop o).take k ++ (l.drop o)[k] :: (l.drop o).drop (k + 1) := by
      rw [List.getElem_cons_drop, List.take_append_drop]
    have hlength := congrArg (fun v => (childBytes (tree s.fs) o v).length) hsplit
    simp only [childBytes_append, childBytes_cons, List.length_append, length_direntChunk] at hlength
    omega
  subst hall
  rw [List.take_length] at hcall hread
  rw [if_neg (fun hnone => hnone.2 (List.length_eq_zero_iff.mp hnone.1))] at hcall
  exact ⟨s', hcall, hread⟩

/-- What a call that lists the children from `o` on has seen. -/
theorem ListsFrom.view (hlists : ListsFrom vfs tree fd l o s) (hvfs : IsRamfsDir vfs tree d)
    (h : OpenDir tree fd f d s) (hkids : (tree s.fs).Children d l) (hd : d ≠ 0)
    (hoffset : (s.files.file f).offset = BitVec.ofNat 64 o) {room : ℕ} (hlt : room < 2 ^ 47)
    (hroom : (childBytes (tree s.fs) o (l.drop o)).length ≤ room) {v : List Word}
    (hview : DirView (tree s.fs) l o room v) :
    ∃ k ≤ v.length, (k = 0 → v = []) ∧
      childRecords (tree s.fs) o (v.take k) = childRecords (tree s.fs) o (l.drop o) ∧
      ∀ c, v[k]? = some c → room < (childBytes (tree s.fs) o (l.drop o)).length + 152 := by
  have hcount : (BitVec.ofNat 64 room).toNat = room := by
    rw [BitVec.toNat_ofNat]
    omega
  have hone : (1 : Word).toNat = 1 := rfl
  have hsplit : vmmAddrSplit.toNat = 2 ^ 47 := rfl
  have hbuf : (1 : Word).toNat + (BitVec.ofNat 64 room).toNat ≤ vmmAddrSplit.toNat := by omega
  have hdirp : (1 : Word) ≠ 0 := by decide
  obtain ⟨k, s', ⟨hk, -, -, -, -, hshort⟩, hcall, hread⟩ :=
    h.getdents_view hvfs hkids hd hoffset hdirp hbuf (hcount.symm ▸ hview)
  obtain ⟨s'', hcall', hread'⟩ := hlists 1 (BitVec.ofNat 64 room) hdirp hbuf (hcount.symm ▸ hroom)
  obtain ⟨hres, rfl⟩ := Prod.mk.inj (Option.some.inj (hcall.symm.trans hcall'))
  have hsome : ¬ (k = 0 ∧ v ≠ []) := by
    intro hnone
    rw [if_pos hnone, einval] at hres
    omega
  rw [if_neg hsome] at hres
  have hbytes := Int.ofNat_inj.mp hres
  rw [hres] at hread
  refine ⟨k, hk, fun hk0 => by_contra fun hne => hsome ⟨hk0, hne⟩,
    (Prod.mk.inj (Option.some.inj (hread.symm.trans hread'))).1, fun c hc => ?_⟩
  have := hshort c hc
  have := (direntReclen_bounds (childDirent ((tree s.fs).node c))).2.2
  omega

theorem length_childRecords (t : VfsTree) (i : ℕ) (l : List Word) :
    (childRecords t i l).length = l.length := by
  rw [childRecords, List.length_map, List.length_zipIdx]

theorem map_dName_childRecords (t : VfsTree) (i : ℕ) (l : List Word) :
    (childRecords t i l).map LinuxDirent64.dName = l.map fun c => (t.node c).name := by
  induction l generalizing i with
  | nil => rfl
  | cons c l ih => rw [childRecords_cons, List.map_cons, List.map_cons, ih]; rfl

/-- Where `readdir` sees something from the end on, the directory is not listed right. -/
theorem ListsFrom.lt_length (hlists : ListsFrom vfs tree fd l o s) (hvfs : IsRamfsDir vfs tree d)
    (h : OpenDir tree fd f d s) (hkids : (tree s.fs).Children d l) (hd : d ≠ 0)
    (hoffset : (s.files.file f).offset = BitVec.ofNat 64 o) {v : List Word}
    (hview : DirView (tree s.fs) l o 0 v) (hne : v ≠ []) : o < l.length := by
  by_contra hle
  have hnil : l.drop o = [] := List.drop_eq_nil_iff.mpr (by omega)
  have hroom : (childBytes (tree s.fs) o (l.drop o)).length ≤ 0 := by
    rw [hnil]
    exact le_rfl
  obtain ⟨k, hk, hzero, hrecords, -⟩ :=
    hlists.view hvfs h hkids hd hoffset (by decide) hroom hview
  have hlength := congrArg List.length hrecords
  rw [length_childRecords, length_childRecords, hnil, List.length_take] at hlength
  have hk0 : k = 0 := by simpa [Nat.min_eq_left hk] using hlength
  exact hne (hzero hk0)

/-- Where the names of a directory differ, a list of the children from `o` on that is right ends
within the first `2 ^ 32` of them: the last child is seen at its own index, by its name. -/
theorem ListsFrom.length_le (hlists : ListsFrom vfs tree fd l o s) (hvfs : IsRamfsDir vfs tree d)
    (h : OpenDir tree fd f d s) (hkids : (tree s.fs).Children d l) (hd : d ≠ 0)
    (hnames : (l.map fun c => ((tree s.fs).node c).name).Nodup)
    (hoffset : (s.files.file f).offset = BitVec.ofNat 64 o) (ho : o < l.length)
    (hroom : (childBytes (tree s.fs) o (l.drop o)).length < 2 ^ 47) (hlong : 2 ^ 32 ≤ l.length) :
    l.length ≤ 2 ^ 32 := by
  obtain ⟨v, hview, -⟩ := DirView.exists_of_le (tree s.fs) hlong o
    (childBytes (tree s.fs) o (l.drop o)).length
  obtain ⟨k, hk, -, hrecords, -⟩ := hlists.view hvfs h hkids hd hoffset hroom le_rfl hview
  have hlength := congrArg List.length hrecords
  rw [length_childRecords, length_childRecords, List.length_take, List.length_drop,
    Nat.min_eq_left hk] at hlength
  have hmap := congrArg (List.map LinuxDirent64.dName) hrecords
  rw [map_dName_childRecords, map_dName_childRecords] at hmap
  have hlast := congrArg (fun names => names[k - 1]?) hmap
  have hi : k - 1 < v.length := by omega
  have hchild := hview.child (k - 1) hi
  simp only [List.getElem?_map, List.getElem?_take_of_lt (show k - 1 < k by omega),
    List.getElem?_eq_getElem hi, ← hchild, List.getElem?_drop] at hlast
  rw [← List.getElem?_map, ← List.getElem?_map] at hlast
  have hmod : (o + (k - 1)) % 2 ^ 32 < 2 ^ 32 := Nat.mod_lt _ (by decide)
  have hsame := (List.getElem?_inj (by rw [List.length_map]; omega) hnames).mp hlast
  omega

/-- A directory of `2 ^ 32` children or more is not listed right, wherever there is a buffer for the
records: with a buffer that has room for one more record there is one more, and where the user half
has no such buffer the names tell. -/
theorem ListsFrom.length_lt (hlists : ListsFrom vfs tree fd l o s) (hvfs : IsRamfsDir vfs tree d)
    (h : OpenDir tree fd f d s) (hkids : (tree s.fs).Children d l) (hd : d ≠ 0)
    (hnames : 2 ^ 47 ≤ (childBytes (tree s.fs) o (l.drop o)).length + 152 →
      (l.map fun c => ((tree s.fs).node c).name).Nodup)
    (hoffset : (s.files.file f).offset = BitVec.ofNat 64 o) (ho : o < l.length)
    (hroom : (childBytes (tree s.fs) o (l.drop o)).length < 2 ^ 47) : l.length < 2 ^ 32 := by
  by_contra hlong
  have hlong : 2 ^ 32 ≤ l.length := by omega
  have hmore : (childBytes (tree s.fs) o (l.drop o)).length + 152 < 2 ^ 47 := by
    by_contra hfull
    have hshort := hlists.length_le hvfs h hkids hd (hnames (by omega)) hoffset ho hroom hlong
    have hsmall := (length_childBytes_bounds (tree s.fs) o (l.drop o)).2
    rw [List.length_drop] at hsmall
    omega
  obtain ⟨v, hview, hover⟩ := DirView.exists_of_le (tree s.fs) hlong o
    ((childBytes (tree s.fs) o (l.drop o)).length + 152)
  obtain ⟨k, hk, -, hrecords, hnext⟩ :=
    hlists.view hvfs h hkids hd hoffset hmore (Nat.le_add_right _ _) hview
  have hlength := congrArg List.length hrecords
  rw [length_childRecords, length_childRecords, List.length_take, List.length_drop,
    Nat.min_eq_left hk] at hlength
  have hk' : k < v.length := by
    have := (length_childBytes_bounds (tree s.fs) o (l.drop o)).1
    rw [List.length_drop] at this
    omega
  have := hnext _ (List.getElem?_eq_getElem hk')
  omega

/-- After any offset was set with `sys_lseek`, a call of `sys_getdents64` with enough room lists
exactly the children from that offset on if and only if the directory has fewer than `2 ^ 32`
children and the offset has no more than 32 bits or lies behind the children even without its upper
half, or no buffer has room for the records. Only where the records fill the user half up to the
last one does it matter that the names are distinct. -/
theorem getdents_lists_from_iff (hvfs : IsRamfsDir vfs tree d) (h : OpenDir tree fd f d s)
    (hkids : (tree s.fs).Children d l) (hd : d ≠ 0) (offset : Word)
    (hnames : 2 ^ 47 ≤ (childBytes (tree s.fs) offset.toNat (l.drop offset.toNat)).length + 152 →
      (l.map fun c => ((tree s.fs).node c).name).Nodup) :
    ListsFrom vfs tree fd l offset.toNat (sysLseek vfs s fd offset 0).2 ↔
      (l.length < 2 ^ 32 ∧
        (offset.toNat < 2 ^ 32 ∨ l.length ≤ offset.toNat % 2 ^ 32)) ∨
      (offset.toNat < l.length ∧
        2 ^ 47 ≤ (childBytes (tree s.fs) offset.toNat (l.drop offset.toNat)).length) := by
  have hopen := h.setOffset offset
  have hoffset : ((s.files.setOffset f offset).file f).offset = BitVec.ofNat 64 offset.toNat := by
    rw [file_setOffset_self, BitVec.ofNat_toNat, BitVec.setWidth_eq]
  rw [h.sysLseek_eq hvfs]
  constructor
  · intro hlists
    by_cases hlen : l.length < 2 ^ 32
    · refine Or.inl ⟨hlen, by_contra fun hbig => ?_⟩
      have hview := DirView.drop_mod (tree s.fs) hlen offset.toNat 0
      have hlt := hlists.lt_length hvfs hopen hkids hd hoffset hview fun hnil => by
        rw [List.drop_eq_nil_iff] at hnil
        omega
      omega
    · obtain ⟨v, hview, hv⟩ := DirView.exists_of_le (tree s.fs) (not_lt.mp hlen) offset.toNat 0
      have ho := hlists.lt_length hvfs hopen hkids hd hoffset hview
        (List.ne_nil_of_length_pos hv)
      refine Or.inr ⟨ho, not_lt.mp fun hroom => hlen ?_⟩
      exact hlists.length_lt hvfs hopen hkids hd hnames hoffset ho hroom
  · rintro (⟨hlen, hsmall⟩ | ⟨ho, hroom⟩)
    · refine hopen.listsFrom hvfs hkids hd hoffset fun room => ?_
      have hsame : l.drop offset.toNat = l.drop (offset.toNat % 2 ^ 32) := by
        rcases hsmall with hsmall | hend
        · rw [Nat.mod_eq_of_lt hsmall]
        · have := Nat.mod_le offset.toNat (2 ^ 32)
          rw [List.drop_eq_nil_iff.mpr hend, List.drop_eq_nil_iff.mpr (hend.trans this)]
      rw [hsame]
      exact DirView.drop_mod _ hlen _ _
    · -- the records are larger than the user half
      intro dirp count hdirp hbuf hfit
      have hsplit : vmmAddrSplit.toNat = 2 ^ 47 := rfl
      have hpos : 0 < dirp.toNat := Nat.pos_of_ne_zero fun h0 => hdirp (BitVec.eq_of_toNat_eq h0)
      change (childBytes (tree s.fs) _ _).length ≤ _ at hfit
      omega

end

/-- The root is open and has one child. -/
theorem rootListing_openDir :
    OpenDir RamfsFs.tree 3 0x5000 0x1000 oneFileListing ∧
      oneFileListing.fs.tree.Children 0x1000 [0x2000] :=
  ⟨⟨by decide, ⟨⟨3, by decide⟩, by decide +kernel, rfl⟩, by decide, rfl, by decide +kernel,
      by decide +kernel, by decide +kernel⟩,
    by decide +kernel, by decide, Links.nil_iff.mpr (by decide +kernel)⟩

theorem getdents_lists_from_iff_start :
    OpenDir RamfsFs.tree 3 0x5000 0x1000 oneFileListing ∧
      ListsFrom (ramfsVfs (bumpAlloc exampleHhdm) exampleHhdm) RamfsFs.tree 3 [0x2000] 0
        (sysLseek (ramfsVfs (bumpAlloc exampleHhdm) exampleHhdm) oneFileListing 3 0 0).2 := by
  obtain ⟨hopen, hkids⟩ := rootListing_openDir
  refine ⟨hopen, (getdents_lists_from_iff (ramfsVfs_isRamfsDir (bumpAlloc exampleHhdm) exampleHhdm
    0x1000) hopen hkids (by decide) 0 fun _ => List.nodup_singleton _).mpr ?_⟩
  exact Or.inl ⟨by decide, Or.inl (by decide)⟩

/-- At the offset `2 ^ 32` the only child is reported again. -/
theorem getdents_lists_again :
    ¬ ListsFrom (ramfsVfs (bumpAlloc exampleHhdm) exampleHhdm) RamfsFs.tree 3 [0x2000] (2 ^ 32)
      (sysLseek (ramfsVfs (bumpAlloc exampleHhdm) exampleHhdm) oneFileListing 3 (2 ^ 32) 0).2 := by
  obtain ⟨hopen, hkids⟩ := rootListing_openDir
  have hvfs := ramfsVfs_isRamfsDir (bumpAlloc exampleHhdm) exampleHhdm 0x1000
  rw [hopen.sysLseek_eq hvfs]
  intro hlists
  have hview := DirView.drop_mod (l := [0x2000]) oneFileListing.fs.tree (by decide) (2 ^ 32) 0
  have hlt := hlists.lt_length hvfs (hopen.setOffset _) hkids (by decide)
    (by rw [file_setOffset_self]; rfl) hview (by decide)
  exact absurd hlt (by decide)

end Pros
