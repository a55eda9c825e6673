import Pros.Fs.Lookup
import Pros.Lib.Bytes

/-!
# Loading an archive

Model of `kernel/src/fs/tar/tar.c`. The archive is memory that nothing changes; what becomes of its
entries is up to the file systems, whose state is `σ`. `TarLog` records what the source does not:
the ranges that were read, the headers that were looked at, and the node of every entry that was
stored.

A loop that does not end is `none`.
-/

namespace Pros

/-- The file systems as `tar_load` uses them. -/
structure TarVfs (σ : Type) extends Vfs σ where
  /-- `vfs_mkdir_parents`: the node, null is `0`. -/
  mkdirParents : σ → List (BitVec 8) → Word × σ
  /-- `vfs_create`: the node, null is `0`. -/
  create : σ → List (BitVec 8) → BitVec 32 → Word × σ

/-! ## Headers -/

/-- `TAR_NAME_SIZE`. -/
abbrev tarNameSize : ℕ := 100

/-- `TAR_SIZE_SIZE`. -/
abbrev tarSizeSize : ℕ := 12

/-- `TAR_PATH_BUF_SIZE`. -/
abbrev tarPathBufSize : ℕ := tarNameSize + 1

/-- `TAR_BLOCK_SIZE`. -/
abbrev tarBlockSize : Word := 512

/-- `TAR_TYPE_REG`, `TAR_TYPE_REG_ALT` and `TAR_TYPE_DIR`. -/
abbrev tarTypeReg : BitVec 8 := 0x30

@[inherit_doc tarTypeReg]
abbrev tarTypeRegAlt : BitVec 8 := 0

@[inherit_doc tarTypeReg]
abbrev tarTypeDir : BitVec 8 := 0x35

/-- `TMAGIC` with its NUL. -/
def tmagic : List (BitVec 8) := [0x75, 0x73, 0x74, 0x61, 0x72, 0]

/-- `TVERSION`. -/
def tversion : List (BitVec 8) := [0x30, 0x30]

/-- Whether the byte is an octal digit. -/
def isOctal (c : BitVec 8) : Bool := 0x30 ≤ c ∧ c ≤ 0x37

/-- The loop of `tar_parse_octal`. -/
def octalLoop : Word → List (BitVec 8) → Word
  | value, [] => value
  | value, c :: field =>
    if isOctal c then octalLoop (value * 8 + (c - 0x30).setWidth 64) field else value

/-- `tar_parse_octal` of a field. -/
def tarParseOctal (field : List (BitVec 8)) : Word := octalLoop 0 field

/-- `header->size`. -/
def tarHeaderSize (mem : ByteMem) (addr : Word) : Word :=
  tarParseOctal (mem.bytes (addr + 124) tarSizeSize)

/-- `header->typeflag`. -/
def tarTypeflag (mem : ByteMem) (addr : Word) : BitVec 8 := mem (addr + 156)

/-- `header->name`, up to its NUL if it has one. -/
def tarName (mem : ByteMem) (addr : Word) : List (BitVec 8) :=
  (mem.bytes addr tarNameSize).takeWhile (· != 0)

/-- `snprintf(path, TAR_PATH_BUF_SIZE, "/%.*s", TAR_NAME_SIZE, header->name)`: the string it leaves
in the buffer, cut to fit. -/
def tarPath (mem : ByteMem) (addr : Word) : List (BitVec 8) :=
  (slash :: tarName mem addr).take (tarPathBufSize - 1)

/-- The address of the next header. -/
def tarNext (addr size : Word) : Word :=
  addr + (tarBlockSize + (size + tarBlockSize - 1) / tarBlockSize * tarBlockSize)

/-! ## What is read -/

/-- The history of a call. -/
structure TarLog where
  /-- The ranges that were read. -/
  reads : List (Word × ℕ)
  /-- The headers whose name is not empty. -/
  headers : List Word
  /-- The headers of entries that were stored, with their nodes. -/
  stored : List (Word × Word)

/-- The range of `n` bytes at `a` was read. -/
def TarLog.read (log : TarLog) (a : Word) (n : ℕ) : TarLog := { log with reads := (a, n) :: log.reads }

/-- How many bytes `memcmp` reads of two fields of the same length: it stops at a difference. -/
def memcmpReads : List (BitVec 8) → List (BitVec 8) → ℕ
  | x :: xs, y :: ys => if x = y then memcmpReads xs ys + 1 else 1
  | _, _ => 0

/-- How many bytes are read of a field that ends at the first byte without `p`. -/
def scanReads (p : BitVec 8 → Bool) (field : List (BitVec 8)) : ℕ :=
  min field.length ((field.takeWhile p).length + 1)

/-! ## The loop -/

section

variable {σ : Type} (ops : TarVfs σ) (mem : ByteMem)

/-- The callback `op` if the node has one. -/
def tarCallback (has : Bool) (op : Int × σ) (fs : σ) : Int × σ := if has then op else (0, fs)

/-- The part of the loop that writes the data into the node of a file: the node, or `none` where
`tar_load` returns -1, how many bytes of the data were read, and the state. -/
def tarWrite (node : Word) (data : List (BitVec 8)) (fs : σ) : Option Word × ℕ × σ :=
  if !ops.hasWrite fs node then (none, 0, fs)
  else
    let (res, fs) := tarCallback (ops.hasOpen fs node) (ops.openNode fs node) fs
    if res ≠ 0 then (none, 0, fs)
    else
      let (count, fs) := ops.write fs node 0 data
      let (res, fs) := tarCallback (ops.hasClose fs node) (ops.closeNode fs node) fs
      (if res ≠ 0 ∨ count ≠ data.length then none else some node, count.toNat, fs)

/-- The body of the loop for a file or a directory. -/
def tarStore (addr : Word) (fs : σ) : Option Word × ℕ × σ :=
  let size := tarHeaderSize mem addr
  let path := tarPath mem addr
  let (parent, fs) := ops.mkdirParents fs path
  if parent = 0 then (none, 0, fs)
  else if tarTypeflag mem addr = tarTypeDir then
    let (dir, fs) := ops.create fs path vfsDirectory
    (if dir = 0 then none else some dir, 0, fs)
  else
    let (node, fs) := ops.create fs path vfsFile
    if node = 0 then (none, 0, fs)
    else tarWrite ops node (mem.bytes (addr + tarBlockSize) size.toNat) fs

/-- The loop of `tar_load`, where `last` is the end of the archive. -/
def tarLoop (last : Word) : ℕ → Word → σ → TarLog → Option (Int × σ × TarLog)
  | 0, _, _, _ => none
  | fuel + 1, addr, fs, log =>
    if ¬ addr < last then some (0, fs, log)
    else
      let log := log.read addr 1
      if mem addr = 0 then some (0, fs, log)
      else
        let log := { log with headers := addr :: log.headers }
        let log := log.read (addr + 257) (memcmpReads (mem.bytes (addr + 257) 6) tmagic)
        if mem.bytes (addr + 257) 6 ≠ tmagic then some (-1, fs, log)
        else
          let log := log.read (addr + 263) (memcmpReads (mem.bytes (addr + 263) 2) tversion)
          if mem.bytes (addr + 263) 2 ≠ tversion then some (-1, fs, log)
          else
            let log := log.read (addr + 124) (scanReads isOctal (mem.bytes (addr + 124) tarSizeSize))
            let log := log.read (addr + 156) 1
            let typeflag := tarTypeflag mem addr
            -- just support file and directory
            if typeflag = tarTypeReg ∨ typeflag = tarTypeRegAlt ∨ typeflag = tarTypeDir then
              let log := log.read addr (scanReads (· != 0) (mem.bytes addr tarNameSize))
              let (node, count, fs) := tarStore ops mem addr fs
              let log := log.read (addr + tarBlockSize) count
              match node with
              | none => some (-1, fs, log)
              | some node =>
                tarLoop last fuel (tarNext addr (tarHeaderSize mem addr)) fs
                  { log with stored := (addr, node) :: log.stored }
            else tarLoop last fuel (tarNext addr (tarHeaderSize mem addr)) fs log

/-- `tar_load`. -/
def tarLoad (tarAddr tarSize : Word) (fs : σ) : Option (Int × σ × TarLog) :=
  if tarSize < tarBlockSize then some (-1, fs, ⟨[], [], []⟩)
  else tarLoop ops mem (tarAddr + tarSize) walkBound tarAddr fs ⟨[], [], []⟩

end

/-! ## Facts about the fields -/

/-- One more digit of a number that has room for it. -/
theorem octal_step {c : BitVec 8} (hc : isOctal c = true) {value : Word} {k : ℕ} (hk : k ≤ 11)
    (hvalue : value.toNat < 8 ^ k) :
    (value * 8 + (c - 0x30).setWidth 64).toNat = value.toNat * 8 + (c.toNat - 48) ∧
      value.toNat * 8 + (c.toNat - 48) < 8 ^ (k + 1) := by
  simp only [isOctal, decide_eq_true_eq, BitVec.le_def] at hc
  have h30 : (0x30 : BitVec 8).toNat = 48 := rfl
  have h37 : (0x37 : BitVec 8).toNat = 55 := rfl
  have hbound : 8 ^ k ≤ 8 ^ 11 := Nat.pow_le_pow_right (by decide) hk
  have hdigit : ((c - 0x30).setWidth 64).toNat = c.toNat - 48 := by
    rw [BitVec.toNat_setWidth, BitVec.toNat_sub]
    omega
  rw [BitVec.toNat_add, BitVec.toNat_mul, hdigit, show (8 : Word).toNat = 8 from rfl, pow_succ]
  omega

theorem octalLoop_lt {field : List (BitVec 8)} {value : Word} {k : ℕ} (hk : field.length + k ≤ 12)
    (hvalue : value.toNat < 8 ^ k) : (octalLoop value field).toNat < 8 ^ 12 := by
  induction field generalizing value k with
  | nil => exact hvalue.trans_le (Nat.pow_le_pow_right (by decide) (by simpa using hk))
  | cons c field ih =>
    rw [List.length_cons] at hk
    rw [octalLoop]
    split
    · rename_i hoctal
      obtain ⟨hstep, hlt⟩ := octal_step hoctal (by omega) hvalue
      exact ih (by omega) (hstep ▸ hlt)
    · exact hvalue.trans_le (Nat.pow_le_pow_right (by decide) (by omega))

/-- A size field has at most twelve octal digits. -/
theorem tarHeaderSize_lt (mem : ByteMem) (addr : Word) :
    (tarHeaderSize mem addr).toNat < 2 ^ 36 :=
  octalLoop_lt (k := 0) (by rw [ByteMem.length_bytes]) (by decide)

theorem zero_notMem_tarName (mem : ByteMem) (addr : Word) : 0 ∉ tarName mem addr := by
  intro h
  simpa using List.mem_takeWhile_imp h

theorem length_tarName_le (mem : ByteMem) (addr : Word) : (tarName mem addr).length ≤ 100 := by
  have := (List.takeWhile_sublist (· != 0) (l := mem.bytes addr tarNameSize)).length_le
  rwa [ByteMem.length_bytes] at this

/-- The size in blocks, as the address of the next header takes it. -/
theorem toNat_tarBlocks {size : Word} (h : size.toNat < 2 ^ 36) :
    (tarBlockSize + (size + tarBlockSize - 1) / tarBlockSize * tarBlockSize).toNat =
      512 + (size.toNat + 511) / 512 * 512 := by
  have h512 : (512 : Word).toNat = 512 := rfl
  have hsum : (size + tarBlockSize - 1).toNat = size.toNat + 511 := by
    rw [BitVec.toNat_sub, BitVec.toNat_add, h512, show (1 : Word).toNat = 1 from rfl]
    omega
  rw [BitVec.toNat_add, BitVec.toNat_mul, BitVec.toNat_udiv, hsum, h512]
  omega

/-! ## One round -/

/-- The log after the magic was compared. -/
def TarLog.magic (log : TarLog) (mem : ByteMem) (a : Word) : TarLog :=
  { log.read a 1 with headers := a :: log.headers }.read (a + 257)
    (memcmpReads (mem.bytes (a + 257) 6) tmagic)

/-- The log after the version was compared. -/
def TarLog.version (log : TarLog) (mem : ByteMem) (a : Word) : TarLog :=
  (log.magic mem a).read (a + 263) (memcmpReads (mem.bytes (a + 263) 2) tversion)

/-- The log after the header was read. -/
def TarLog.header (log : TarLog) (mem : ByteMem) (a : Word) : TarLog :=
  ((log.version mem a).read (a + 124) (scanReads isOctal (mem.bytes (a + 124) tarSizeSize))).read
    (a + 156) 1

/-- The log after `count` bytes of the data were read. -/
def TarLog.entry (log : TarLog) (mem : ByteMem) (a : Word) (count : ℕ) : TarLog :=
  ((log.header mem a).read a (scanReads (· != 0) (mem.bytes a tarNameSize))).read (a + tarBlockSize)
    count

/-- The type of the header is one that is stored. -/
def TarStores (mem : ByteMem) (a : Word) : Prop :=
  tarTypeflag mem a = tarTypeReg ∨ tarTypeflag mem a = tarTypeRegAlt ∨
    tarTypeflag mem a = tarTypeDir

section

variable {σ : Type} {ops : TarVfs σ} {mem : ByteMem} {last a : Word} {fs : σ} {log : TarLog}

theorem tarLoop_end (hend : ¬ a < last) (fuel : ℕ) :
    tarLoop ops mem last (fuel + 1) a fs log = some (0, fs, log) := if_pos hend

theorem tarLoop_zero (hlt : a < last) (hname : mem a = 0) (fuel : ℕ) :
    tarLoop ops mem last (fuel + 1) a fs log = some (0, fs, log.read a 1) := by
  simp only [tarLoop, if_neg (not_not.mpr hlt), if_pos hname]

theorem tarLoop_magic (hlt : a < last) (hname : mem a ≠ 0)
    (hmagic : mem.bytes (a + 257) 6 ≠ tmagic) (fuel : ℕ) :
    tarLoop ops mem last (fuel + 1) a fs log = some (-1, fs, log.magic mem a) := by
  simp only [tarLoop, if_neg (not_not.mpr hlt), if_neg hname, if_pos hmagic]
  rfl

theorem tarLoop_version (hlt : a < last) (hname : mem a ≠ 0)
    (hmagic : mem.bytes (a + 257) 6 = tmagic) (hversion : mem.bytes (a + 263) 2 ≠ tversion)
    (fuel : ℕ) :
    tarLoop ops mem last (fuel + 1) a fs log = some (-1, fs, log.version mem a) := by
  simp only [tarLoop, if_neg (not_not.mpr hlt), if_neg hname, if_neg (not_not.mpr hmagic),
    if_pos hversion]
  rfl

theorem tarLoop_skip (hlt : a < last) (hname : mem a ≠ 0)
    (hmagic : mem.bytes (a + 257) 6 = tmagic) (hversion : mem.bytes (a + 263) 2 = tversion)
    (hskip : ¬ TarStores mem a) (fuel : ℕ) :
    tarLoop ops mem last (fuel + 1) a fs log =
      tarLoop ops mem last fuel (tarNext a (tarHeaderSize mem a)) fs (log.header mem a) := by
  rw [TarStores] at hskip
  simp only [tarLoop, if_neg (not_not.mpr hlt), if_neg hname, if_neg (not_not.mpr hmagic),
    if_neg (not_not.mpr hversion), if_neg hskip]
  rfl

theorem tarLoop_store (hlt : a < last) (hname : mem a ≠ 0)
    (hmagic : mem.bytes (a + 257) 6 = tmagic) (hversion : mem.bytes (a + 263) 2 = tversion)
    (hstores : TarStores mem a) (fuel : ℕ) :
    tarLoop ops mem last (fuel + 1) a fs log =
      match tarStore ops mem a fs with
      | (none, count, fs) => some (-1, fs, log.entry mem a count)
      | (some node, count, fs) =>
        tarLoop ops mem last fuel (tarNext a (tarHeaderSize mem a)) fs
          { log.entry mem a count with stored := (a, node) :: log.stored } := by
  rw [TarStores] at hstores
  simp only [tarLoop, if_neg (not_not.mpr hlt), if_neg hname, if_neg (not_not.mpr hmagic),
    if_neg (not_not.mpr hversion), if_pos hstores]
  rcases tarStore ops mem a fs with ⟨_ | node, count, fs'⟩ <;> rfl

/-! ## One entry -/

section

variable {parent node : Word} {fs₁ fs₂ : σ}

theorem tarStore_noParent (hmkdir : ops.mkdirParents fs (tarPath mem a) = (0, fs₁)) :
    tarStore ops mem a fs = (none, 0, fs₁) := by
  simp only [tarStore, hmkdir, if_pos]

variable (hmkdir : ops.mkdirParents fs (tarPath mem a) = (parent, fs₁)) (hparent : parent ≠ 0)
include hmkdir hparent

theorem tarStore_dir (hdir : tarTypeflag mem a = tarTypeDir)
    (hcreate : ops.create fs₁ (tarPath mem a) vfsDirectory = (node, fs₂)) :
    tarStore ops mem a fs = (if node = 0 then none else some node, 0, fs₂) := by
  simp only [tarStore, hmkdir, if_neg hparent, if_pos hdir, hcreate]

variable (hfile : tarTypeflag mem a ≠ tarTypeDir)
include hfile

theorem tarStore_noFile (hcreate : ops.create fs₁ (tarPath mem a) vfsFile = (0, fs₂)) :
    tarStore ops mem a fs = (none, 0, fs₂) := by
  simp only [tarStore, hmkdir, if_neg hparent, if_neg hfile, hcreate, if_pos]

theorem tarStore_file (hcreate : ops.create fs₁ (tarPath mem a) vfsFile = (node, fs₂))
    (hnode : node ≠ 0) :
    tarStore ops mem a fs =
      tarWrite ops node (mem.bytes (a + tarBlockSize) (tarHeaderSize mem a).toNat) fs₂ := by
  simp only [tarStore, hmkdir, if_neg hparent, if_neg hfile, hcreate, if_neg hnode]

end

end

end Pros
