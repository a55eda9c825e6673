import Pros.Fs.Tar.Archive

/-!
# Images of archives

A list of entries packed into an image: for each entry a header with its name, its type and its size,
and then its data padded to whole blocks. Loading the image into a new ramfs gives the entries back.
-/

namespace Pros

/-- An entry that is packed. -/
structure UstarEntry where
  name : List (BitVec 8)
  isDir : Bool
  bytes : List (BitVec 8)

/-- The entry at the components of its name. -/
def UstarEntry.member (e : UstarEntry) : TarMember := ⟨components e.name, e.isDir, e.bytes⟩

/-- The number that octal digits write. -/
def octalValue (digits : List (BitVec 8)) : ℕ := Nat.ofDigits 8 (digits.reverse.map fun c => c.toNat - 48)

/-- The header of an entry is at `a`: a name that ends in a NUL, a size that is written in octal
digits, the type, the magic, the version and an empty prefix. -/
structure UstarHeader (mem : ByteMem) (a : Word) (e : UstarEntry) : Prop where
  name : e.name ++ [0] <+: mem.bytes a tarNameSize
  noNul : 0 ∉ e.name
  size : ∃ digits rest, mem.bytes (a + 124) tarSizeSize = digits ++ rest ∧
    (∀ c ∈ digits, isOctal c = true) ∧ (∀ c ∈ rest.head?, isOctal c = false) ∧
    octalValue digits = e.bytes.length
  typeflag : if e.isDir then tarTypeflag mem a = tarTypeDir
    else tarTypeflag mem a = tarTypeReg ∨ tarTypeflag mem a = tarTypeRegAlt
  magic : mem.bytes (a + 257) 6 = tmagic
  version : mem.bytes (a + 263) 2 = tversion
  emptyPrefix : mem (a + 345) = 0

/-- How many bytes an entry takes: its header, and its data in whole blocks. -/
def UstarEntry.span (e : UstarEntry) : ℕ := 512 + (e.bytes.length + 511) / 512 * 512

/-- The memory from `a` to `last` is the image of the entries, which ends with them or with a block of
zeros. -/
inductive UstarImage (mem : ByteMem) (last : Word) : Word → List UstarEntry → Prop
  | last : UstarImage mem last last []
  | zeros {a : Word} (hend : a.toNat + 512 ≤ last.toNat)
    (hzeros : mem.bytes a 512 = List.replicate 512 0) : UstarImage mem last a []
  | cons {a : Word} {e : UstarEntry} {es : List UstarEntry} (hheader : UstarHeader mem a e)
    (hdata : mem.bytes (a + tarBlockSize) e.bytes.length = e.bytes)
    (hend : a.toNat + e.span ≤ last.toNat)
    (hrest : UstarImage mem last (a + BitVec.ofNat 64 e.span) es) : UstarImage mem last a (e :: es)

/-- The entries have different paths, which are not empty, and none is below a file. -/
structure Packable (es : List TarMember) : Prop where
  distinct : (es.map (·.path)).Nodup
  ne_nil : ∀ e ∈ es, e.path ≠ []
  below : ∀ e ∈ es, e.isDir = false → ∀ e' ∈ es, e.path <+: e'.path → e'.path = e.path

/-! ## Headers -/

/-- The loop of `tar_parse_octal` up to the end of the digits. -/
theorem toNat_octalLoop {digits rest : List (BitVec 8)} {value : Word} {k : ℕ}
    (hdigits : ∀ c ∈ digits, isOctal c = true) (hrest : ∀ c ∈ rest.head?, isOctal c = false)
    (hlen : digits.length + k ≤ 12) (hvalue : value.toNat < 8 ^ k) :
    (octalLoop value (digits ++ rest)).toNat = value.toNat * 8 ^ digits.length + octalValue digits := by
  induction digits generalizing value k with
  | nil =>
    have hend : octalLoop value rest = value := by
      cases rest with
      | nil => rfl
      | cons c rest => exact if_neg (by simp [hrest c rfl])
    simp [hend, octalValue]
  | cons c digits ih =>
    rw [List.length_cons] at hlen
    have hc := hdigits c List.mem_cons_self
    obtain ⟨hstep, hlt⟩ := octal_step hc (show k ≤ 11 by omega) hvalue
    have hnext : (value * 8 + (c - 0x30).setWidth 64).toNat < 8 ^ (k + 1) := hstep ▸ hlt
    have hrec := ih (fun d hd => hdigits d (List.mem_cons_of_mem _ hd)) (by omega) hnext
    rw [List.cons_append, octalLoop, if_pos hc, hrec, hstep, octalValue, octalValue,
      List.map_reverse, List.map_reverse, List.map_cons, Nat.ofDigits_reverse_cons, List.length_map,
      List.length_cons]
    ring

section

variable {mem : ByteMem} {a : Word} {e : UstarEntry} (h : UstarHeader mem a e)
include h

theorem UstarHeader.tarName_eq : tarName mem a = e.name := by
  obtain ⟨rest, hrest⟩ := h.name
  have hname : ∀ c ∈ e.name, (c != 0) = true := fun c hc =>
    bne_iff_ne.mpr fun h0 => h.noNul (h0 ▸ hc)
  rw [tarName, ← hrest, List.append_assoc, List.takeWhile_append_of_pos hname]
  simp

theorem UstarHeader.length_name_le : e.name.length ≤ 99 := by
  have hlen : (e.name ++ [0]).length ≤ (mem.bytes a 100).length := h.name.length_le
  rw [ByteMem.length_bytes, List.length_append, List.length_singleton] at hlen
  omega

theorem UstarHeader.toNat_tarHeaderSize : (tarHeaderSize mem a).toNat = e.bytes.length := by
  obtain ⟨digits, rest, hfield, hdigits, hrest, hvalue⟩ := h.size
  have hlen : (digits ++ rest).length = 12 := by rw [← hfield, ByteMem.length_bytes]
  rw [List.length_append] at hlen
  rw [tarHeaderSize, tarParseOctal, hfield,
    toNat_octalLoop (k := 0) hdigits hrest (by omega) (by decide), hvalue]
  simp

/-- The next header is behind the entry. -/
theorem UstarHeader.tarNext_eq :
    tarNext a (tarHeaderSize mem a) = a + BitVec.ofNat 64 e.span := by
  have hlt := tarHeaderSize_lt mem a
  refine congrArg (a + ·) (BitVec.eq_of_toNat_eq ?_)
  rw [toNat_tarBlocks hlt, BitVec.toNat_ofNat, h.toNat_tarHeaderSize, UstarEntry.span]
  rw [h.toNat_tarHeaderSize] at hlt
  omega

theorem UstarHeader.tarStores : TarStores mem a := by
  have htype := h.typeflag
  split at htype
  · exact Or.inr (Or.inr htype)
  · exact htype.elim Or.inl fun halt => Or.inr (Or.inl halt)

theorem UstarHeader.first_ne_zero (hname : e.name ≠ []) : mem a ≠ 0 := by
  obtain ⟨rest, hrest⟩ := h.name
  have hfirst := mem.getD_bytes a (show 0 < 100 by decide)
  rw [show a + BitVec.ofNat 64 0 = a from BitVec.add_zero _,
    show mem.bytes a 100 = e.name ++ [0] ++ rest from hrest.symm] at hfirst
  cases hcs : e.name with
  | nil => exact absurd hcs hname
  | cons c cs =>
    rw [hcs] at hfirst
    have hc : c ∈ e.name := hcs ▸ List.mem_cons_self
    exact fun h0 => h.noNul ((hfirst.trans h0) ▸ hc)

/-- `tar_load` reads the entry back. -/
theorem UstarHeader.tarMember_eq
    (hdata : mem.bytes (a + tarBlockSize) e.bytes.length = e.bytes) : tarMember mem a = e.member := by
  have hpath : tarPath mem a = slash :: e.name := by
    rw [tarPath_of_short (by rw [h.tarName_eq]; exact h.length_name_le), h.tarName_eq]
  have hisDir : decide (tarTypeflag mem a = tarTypeDir) = e.isDir := by
    have htype := h.typeflag
    split at htype
    · rename_i hdir
      rw [hdir]
      exact decide_eq_true htype
    · rename_i hfile
      rw [Bool.not_eq_true] at hfile
      rw [hfile]
      refine decide_eq_false fun hdir => ?_
      rcases htype with htype | htype <;> exact absurd (htype.symm.trans hdir) (by decide)
  rw [tarMember, UstarEntry.member, hpath, components_slash_cons, hisDir, h.toNat_tarHeaderSize,
    hdata]

end

/-! ## Lists of entries -/

namespace Packable

variable {done rest : List TarMember} {e : TarMember} {T : PathTree}

/-- Files are where entries for files are. -/
theorem exists_of_file (hloaded : PathTree.empty.Loaded done T) {q : List (List (BitVec 8))} {size : ℕ}
    {bytes : ℕ → BitVec 8} (hT : T q = some (.file size bytes)) :
    ∃ x ∈ done, x.path = q ∧ x.isDir = false := by
  rcases ((hloaded.fileSizes q).1 size bytes hT).1 with ⟨bytes', hempty⟩ | ⟨x, hx, hpath, hfile, -⟩
  · rw [PathTree.empty] at hempty
    split at hempty <;> cases hempty
  · exact ⟨x, hx, hpath, hfile⟩

/-- The next entry can be stored. -/
theorem accepts (h : Packable (done.reverse ++ e :: rest)) (hloaded : PathTree.empty.Loaded done T) :
    T.Accepts e := by
  have he : e ∈ done.reverse ++ e :: rest := by simp
  have hmem : ∀ x ∈ done, x ∈ done.reverse ++ e :: rest := fun x hx => by simp [hx]
  have hne : ∀ x ∈ done, x.path ≠ e.path := by
    intro x hx heq
    have hdistinct := h.distinct
    rw [List.map_append, List.map_cons, List.nodup_append] at hdistinct
    exact hdistinct.2.2 x.path (List.mem_map_of_mem (by simpa using hx)) e.path (by simp) heq
  constructor
  · intro q hsub hq size bytes hT
    obtain ⟨x, hx, rfl, hfile⟩ := exists_of_file hloaded hT
    exact hq (h.below x (hmem x hx) hfile e he hsub).symm
  · intro hfile hT
    have hsome := (hloaded.isSome_iff (q := e.path)).mp (by rw [hT]; rfl)
    rcases hsome with hempty | ⟨x, hx, hsub⟩
    · rw [PathTree.empty, if_neg (h.ne_nil e he)] at hempty
      cases hempty
    · exact hne x hx (h.below e he hfile x (hmem x hx) hsub)

end Packable

/-! ## Loading an image -/

section

variable {α : Type} {A : RamfsAlloc α} {hhdm : Word} {ok : α → ByteMem → (Word → Holding) → Prop}
  {fs fs' : RamfsFs α} {root : Word} {T : PathTree} {mem : ByteMem} {last a : Word}
  {es : List UstarEntry}

/-- Every entry takes a block. -/
theorem UstarImage.length_le (h : UstarImage mem last a es) : a.toNat + es.length ≤ last.toNat := by
  induction h with
  | last => exact le_rfl
  | zeros hend _ => exact (Nat.le_add_right _ 512).trans hend
  | @cons a e es _ _ hend _ ih =>
    have hnext : (a + BitVec.ofNat 64 e.span).toNat = a.toNat + e.span := by
      have := last.isLt
      rw [BitVec.toNat_add, BitVec.toNat_ofNat]
      omega
    rw [hnext] at ih
    have : 512 ≤ e.span := Nat.le_add_right _ _
    rw [List.length_cons]
    omega

/-- Loading the image of entries that can be stored after those that were. -/
theorem UstarImage.tarLoop (spec : RamfsFilesSpec A hhdm ok) (h : UstarImage mem last a es)
    {done : List TarMember} (hloaded : PathTree.empty.Loaded done T) (hshows : Shows ok fs root T)
    (hpack : Packable (done.reverse ++ es.map UstarEntry.member)) {fuel : ℕ}
    (hfuel : es.length < fuel) (log : TarLog) :
    ∃ res fs' log',
      Pros.tarLoop (ramfsTarVfs A hhdm) mem last fuel a fs log = some (res, fs', log') ∧
      fs.tree.failures ≤ fs'.tree.failures ∧ A.failures fs.alloc ≤ A.failures fs'.alloc ∧
      (fs'.tree.failures = fs.tree.failures → A.failures fs'.alloc = A.failures fs.alloc →
        res = 0 ∧ ∃ U, Shows ok fs' root U ∧
          PathTree.empty.Loaded ((es.map UstarEntry.member).reverse ++ done) U) := by
  induction h generalizing T fs done fuel log with
  | last =>
    obtain ⟨fuel, rfl⟩ : ∃ k, fuel = k + 1 := ⟨fuel - 1, by omega⟩
    exact ⟨0, fs, log, tarLoop_end (BitVec.lt_irrefl _) fuel, le_rfl, le_rfl,
      fun _ _ => ⟨rfl, T, hshows, hloaded⟩⟩
  | @zeros a hend hzeros =>
    obtain ⟨fuel, rfl⟩ : ∃ k, fuel = k + 1 := ⟨fuel - 1, by omega⟩
    have hfirst := mem.getD_bytes a (show 0 < 512 by decide)
    rw [hzeros, show a + BitVec.ofNat 64 0 = a from BitVec.add_zero _] at hfirst
    exact ⟨0, fs, _, tarLoop_zero (BitVec.lt_def.mpr (by omega)) hfirst.symm fuel, le_rfl, le_rfl,
      fun _ _ => ⟨rfl, T, hshows, hloaded⟩⟩
  | @cons a e es hheader hdata hend _ ih =>
    obtain ⟨fuel, rfl⟩ : ∃ k, fuel = k + 1 := ⟨fuel - 1, by omega⟩
    have hname : e.name ≠ [] := by
      intro hnil
      refine hpack.ne_nil e.member (by simp) ?_
      rw [UstarEntry.member, hnil]
      rfl
    have hlt : a < last := BitVec.lt_def.mpr (by rw [UstarEntry.span] at hend; omega)
    have hmember := hheader.tarMember_eq hdata
    have haccepts : T.Accepts e.member := hpack.accepts hloaded
    rw [tarLoop_store hlt (hheader.first_ne_zero hname) hheader.magic hheader.version
      hheader.tarStores, hheader.tarNext_eq]
    rcases hstore : Pros.tarStore (ramfsTarVfs A hhdm) mem a fs with ⟨node, count, fs₁⟩
    obtain ⟨htree₁, hdata₁, hsome, hnone⟩ := hshows.tarStore spec hstore
    rw [hmember] at hsome hnone
    cases node with
    | none =>
      refine ⟨-1, fs₁, _, rfl, htree₁, hdata₁, fun htree hdata => ?_⟩
      exact absurd haccepts (hnone rfl htree hdata)
    | some node =>
      obtain ⟨-, hshows₁⟩ := hsome node rfl
      have hpack₁ : Packable ((e.member :: done).reverse ++ es.map UstarEntry.member) := by
        simpa using hpack
      obtain ⟨res, fs', log', hrun, htree, hdata, hend⟩ := ih (hloaded.cons haccepts) hshows₁ hpack₁
        (Nat.lt_of_succ_lt_succ hfuel)
        { log.entry mem a count with stored := (a, node) :: log.stored }
      refine ⟨res, fs', log', hrun, htree₁.trans htree, hdata₁.trans hdata, fun hsame hsame' => ?_⟩
      obtain ⟨hres, U, hU, hall⟩ := hend (by omega) (by omega)
      exact ⟨hres, U, hU, by simpa using hall⟩

/-- After loading, every entry is what it was when it was packed. -/
theorem Packable.hasMember {members : List TarMember} (hpack : Packable members)
    (hloaded : PathTree.empty.Loaded members.reverse T) (hshows : Shows ok fs root T) {e : TarMember}
    (he : e ∈ members) : HasMember A hhdm fs root e := by
  obtain ⟨earlier, later, rfl⟩ := List.append_of_mem he
  have hdistinct := hpack.distinct
  rw [List.map_append, List.map_cons, List.nodup_append, List.nodup_cons] at hdistinct
  obtain ⟨-, ⟨hlater, -⟩, hearlier⟩ := hdistinct
  rw [List.reverse_append, List.reverse_cons, List.append_assoc] at hloaded
  -- no other entry has the path
  have hempty : PathTree.empty.fileSizes earlier.reverse e.path = ∅ := by
    refine Set.eq_empty_of_forall_notMem ?_
    rintro size (⟨bytes, hfile⟩ | ⟨x, hx, hpath, -⟩)
    · rw [PathTree.empty] at hfile
      split at hfile <;> cases hfile
    · exact hearlier x.path (List.mem_map_of_mem (List.mem_reverse.mp hx)) e.path (by simp) hpath
  refine (hshows.hasMember_last_iff A hhdm hloaded fun x hx heq => ?_).mpr ?_
  · exact hlater (heq ▸ List.mem_map_of_mem (List.mem_reverse.mp hx))
  · split
    · exact hempty
    · simp [hempty]

/-- Loading undoes packing: the image of a list of entries that can be files and directories of one
tree, loaded into a new ramfs at the root, gives just these entries and the directories above them.
The image has at least one block, and no allocation fails. -/
theorem tar_load_reproduces_archive (spec : RamfsFilesSpec A hhdm ok) {answers : List Word}
    {entry : Word → ℕ → Word} {data : Word → ℕ → BitVec 8} (hroot : root ≠ 0)
    (htree : fs.tree = { vfsBoot root with answers := answers }) (hfresh : fs.tree.Fresh)
    (hok : fs.Ok ok entry data) {tarAddr tarSize : Word} (hblock : 512 ≤ tarSize.toNat)
    (himage : UstarImage mem (tarAddr + tarSize) tarAddr es)
    (hpack : Packable (es.map UstarEntry.member)) :
    ∃ res fs' log,
      tarLoad (ramfsTarVfs A hhdm) mem tarAddr tarSize fs = some (res, fs', log) ∧
      (fs'.tree.failures = fs.tree.failures → A.failures fs'.alloc = A.failures fs.alloc →
        res = 0 ∧
        (∀ q, (∃ m, fs'.tree.Follows root q m) ↔ q = [] ∨ ∃ e ∈ es, q <+: components e.name) ∧
        (∀ e ∈ es, HasMember A hhdm fs' root e.member) ∧
        ∀ e ∈ es, ∀ q, q <+: components e.name → q ≠ components e.name →
          ∃ m, fs'.tree.Follows root q m ∧ (fs'.tree.node m).flags = vfsDirectory) := by
  have hshows := shows_empty hroot htree hfresh hok
  have hlen := himage.length_le
  have hbound : es.length < walkBound := by
    have := (tarAddr + tarSize).isLt
    rw [show walkBound = 2 ^ 64 from rfl]
    omega
  obtain ⟨res, fs', log, hrun, -, -, hend⟩ :=
    himage.tarLoop spec .nil hshows (by simpa using hpack) hbound ⟨[], [], []⟩
  have hsize : ¬ tarSize < tarBlockSize := by
    have h512 : tarBlockSize.toNat = 512 := rfl
    rw [BitVec.lt_def]
    omega
  refine ⟨res, fs', log, by rw [tarLoad, if_neg hsize]; exact hrun, fun hsame hsame' => ?_⟩
  obtain ⟨hres, U, hU, hloaded⟩ := hend hsame hsame'
  rw [List.append_nil] at hloaded
  have hpaths : ∀ q, (∃ m, fs'.tree.Follows root q m) ↔
      q = [] ∨ ∃ e ∈ es, q <+: components e.name := by
    intro q
    rw [hU.exists_follows_iff, hloaded.isSome_iff]
    refine or_congr ?_ ?_
    · rw [PathTree.empty]
      split <;> simp [*]
    · simp [UstarEntry.member]
  refine ⟨hres, hpaths, fun e he => ?_, fun e he q hsub hne => ?_⟩
  · exact hpack.hasMember hloaded hU (List.mem_map_of_mem he)
  · obtain ⟨m, hm⟩ := (hpaths q).mpr (Or.inr ⟨e, he, hsub⟩)
    rcases hU.of_follows hm with ⟨-, hflags⟩ | ⟨size, bytes, hfile, -⟩
    · exact ⟨m, hm, hflags⟩
    · obtain ⟨x, hx, rfl, hxfile⟩ := Packable.exists_of_file hloaded hfile
      have hbelow := hpack.below x (List.mem_reverse.mp hx) hxfile e.member
        (List.mem_map_of_mem he) hsub
      exact absurd hbelow.symm hne

end

/-- A file `d/a` with one byte, and then its directory `d/`. -/
def packedEntries : List UstarEntry := [⟨[0x64, 0x2f, 0x61], false, [0x78]⟩, ⟨[0x64, 0x2f], true, []⟩]

def packedImage : ByteMem :=
  let zeros : ByteMem := fun _ => 0
  let first := (putHeader zeros 0x1000 [0x64, 0x2f, 0x61] [0x31] tarTypeReg).write 0x1200 [0x78]
  putHeader first 0x1400 [0x64, 0x2f] [0x30] tarTypeDir

theorem packedImage_ustar : UstarImage packedImage (0x1000 + 0x600) 0x1000 packedEntries := by
  have hfile : UstarHeader packedImage 0x1000 ⟨[0x64, 0x2f, 0x61], false, [0x78]⟩ :=
    ⟨by decide +kernel, by decide,
      ⟨[0x31], List.replicate 11 0, by decide +kernel, by decide, by decide, by decide +kernel⟩,
      by decide +kernel, by decide +kernel, by decide +kernel, by decide +kernel⟩
  have hdir : UstarHeader packedImage 0x1400 ⟨[0x64, 0x2f], true, []⟩ :=
    ⟨by decide +kernel, by decide,
      ⟨[0x30], List.replicate 11 0, by decide +kernel, by decide, by decide, by decide +kernel⟩,
      by decide +kernel, by decide +kernel, by decide +kernel, by decide +kernel⟩
  have hnext : (0x1000 : Word) + BitVec.ofNat 64 1024 = 0x1400 := by decide
  have hlast : (0x1400 : Word) + BitVec.ofNat 64 512 = 0x1000 + 0x600 := by decide
  refine .cons hfile (by decide +kernel) (by decide +kernel) ?_
  rw [show UstarEntry.span ⟨[0x64, 0x2f, 0x61], false, [0x78]⟩ = 1024 by decide +kernel, hnext]
  refine .cons hdir (by decide +kernel) (by decide +kernel) ?_
  rw [show UstarEntry.span ⟨[0x64, 0x2f], true, []⟩ = 512 by decide +kernel, hlast]
  exact .last

theorem packedEntries_packable : Packable (packedEntries.map UstarEntry.member) :=
  ⟨by decide +kernel, by decide +kernel, by decide +kernel⟩

theorem tar_load_reproduces_archive_packed :
    UstarImage packedImage (0x1000 + 0x600) 0x1000 packedEntries ∧ ∃ fs' log,
      tarLoad (ramfsTarVfs (bumpAlloc exampleHhdm) exampleHhdm) packedImage 0x1000 0x600
        (freshRamfs [0x2000, 0x3000]) = some (0, fs', log) ∧
      ∀ e ∈ packedEntries,
        HasMember (bumpAlloc exampleHhdm) exampleHhdm fs' 0x1000 e.member := by
  have hfresh : (freshRamfs [0x2000, 0x3000]).tree.Fresh :=
    freshRamfs_fresh (by decide) (by decide)
  have htree : (freshRamfs [0x2000, 0x3000]).tree =
      { vfsBoot 0x1000 with answers := [0x2000, 0x3000] } := rfl
  have hok : (freshRamfs [0x2000, 0x3000]).Ok (Bump.FilesOk exampleHhdm) (fun _ _ => 0) fun _ _ => 0 :=
    RamfsFs.ok_of_no_data fun _ => rfl
  have hrun : (tarLoad (ramfsTarVfs (bumpAlloc exampleHhdm) exampleHhdm) packedImage 0x1000 0x600
      (freshRamfs [0x2000, 0x3000])).map (fun r => (r.2.1.tree.failures, (bumpAlloc exampleHhdm).failures r.2.1.alloc)) =
      some (0, 0) := by
    decide +kernel
  obtain ⟨res, fs', log, hload, hend⟩ := tar_load_reproduces_archive
    (bumpAlloc_filesSpec exampleHhdm) (show (0x1000 : Word) ≠ 0 by decide) htree hfresh hok
    (show 512 ≤ (0x600 : Word).toNat by decide) packedImage_ustar packedEntries_packable
  rw [hload] at hrun
  obtain ⟨hnodes, hdata⟩ := Prod.mk.inj (Option.some.inj hrun)
  obtain ⟨rfl, -, hmembers, -⟩ := hend hnodes hdata
  exact ⟨packedImage_ustar, fs', log, hload, hmembers⟩

/-- The image of no entries that ends at once is refused. -/
theorem tar_empty_image_refused :
    UstarImage (fun _ => 0) (0x1000 + 0) 0x1000 [] ∧ Packable [] ∧
      (tarLoad (ramfsTarVfs (bumpAlloc exampleHhdm) exampleHhdm) (fun _ => 0) 0x1000 0
        (freshRamfs [])).map Prod.fst = some (-1) := by
  refine ⟨?_, ⟨by decide, by decide, by decide⟩, by decide +kernel⟩
  rw [show (0x1000 : Word) + 0 = 0x1000 by decide]
  exact .last

end Pros
