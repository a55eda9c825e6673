import Pros.Fs.Vfs
import Pros.Lib.Bytes
import Pros.Vmm.Model

/-!
# Open files and the system calls on them

Model of `kernel/src/fs/vfs/file.c` with the user copies of `kernel/src/mm/uaccess.c`. The state has
the memory as the running context sees it, the file systems, and the open files. `touched` records
every range that is read or written through a pointer that came with a system call; it has no
counterpart in the source.

A loop of a system call has fuel, and `none` as its result is a loop that does not end.
-/

namespace Pros

/-- `MAX_OPEN_FILES`. -/
abbrev maxOpenFiles : ℕ := 256

/-- `COPY_BUFFER_SIZE`. -/
abbrev copyBufferSize : Word := 512

/-- `AT_FDCWD`. -/
abbrev atFdcwd : Int := -100

/-- `O_WRONLY`. -/
abbrev oWronly : BitVec 32 := 1

/-- `O_RDWR`. -/
abbrev oRdwr : BitVec 32 := 2

/-- `struct file`. -/
structure File where
  node : Word
  offset : Word
  flags : BitVec 32
  refCount : Int

/-- The open files of all tasks. -/
structure Files where
  /-- What is stored at the address of a `struct file`. -/
  file : Word → File
  /-- `task->fds`, null is `0`. -/
  fds : Word → Fin maxOpenFiles → Word
  /-- `sched_get_current_task()`. -/
  current : Word

/-- The state of the system calls on files. -/
structure Sys (σ : Type) where
  mem : ByteMem
  touched : List (Word × ℕ)
  fs : σ
  files : Files

/-- `f->offset = v`. -/
def Files.setOffset (s : Files) (f v : Word) : Files :=
  { s with file := Function.update s.file f { s.file f with offset := v } }

/-- `f->offset += n`. -/
def Files.advance (s : Files) (f n : Word) : Files := s.setOffset f ((s.file f).offset + n)

/-- `f->ref_count = v`. -/
def Files.setRefCount (s : Files) (f : Word) (v : Int) : Files :=
  { s with file := Function.update s.file f { s.file f with refCount := v } }

/-- `task->fds[fd] = f`. -/
def Files.setFd (s : Files) (task : Word) (fd : Fin maxOpenFiles) (f : Word) : Files :=
  { s with fds := Function.update s.fds task (Function.update (s.fds task) fd f) }

/-- A C `int` in a register. -/
def toCInt (x : Word) : Int := (x.setWidth 32).toInt

/-- The index of a file descriptor that is in range. -/
def fdIndex (fd : Int) : Option (Fin maxOpenFiles) :=
  if h : fd < 0 ∨ fd ≥ maxOpenFiles then none else some ⟨fd.toNat, by omega⟩

section

variable {σ : Type} (vfs : Vfs σ)

/-! ## User copies -/

/-- `copy_from_user`: the result and what was copied. -/
def copyFromUser (s : Sys σ) (userSrc len : Word) : Int × List (BitVec 8) × Sys σ :=
  let last := userSrc + len
  if last < userSrc then (-efault, [], s)
  else if last > vmmAddrSplit then (-efault, [], s)
  else (0, s.mem.bytes userSrc len.toNat, { s with touched := (userSrc, len.toNat) :: s.touched })

/-- `copy_to_user` of the bytes `bs`. -/
def copyToUser (s : Sys σ) (userDst : Word) (bs : List (BitVec 8)) : Int × Sys σ :=
  let last := userDst + BitVec.ofNat 64 bs.length
  if last < userDst then (-efault, s)
  else if last > vmmAddrSplit then (-efault, s)
  else (0, { s with
    mem := s.mem.write userDst bs
    touched := (userDst, bs.length) :: s.touched })

/-- The two checks of the copies pass for the ranges below the split. -/
theorem user_range_iff (ptr len : Word) : ¬ ptr + len < ptr ∧ ¬ ptr + len > vmmAddrSplit ↔
    ptr.toNat + len.toNat ≤ vmmAddrSplit.toNat := by
  have hsplit : vmmAddrSplit.toNat = 2 ^ 47 := rfl
  rw [gt_iff_lt, BitVec.lt_def, BitVec.lt_def, BitVec.toNat_add]
  omega

theorem copyFromUser_eq (s : Sys σ) (userSrc len : Word) : copyFromUser s userSrc len =
    if userSrc.toNat + len.toNat ≤ vmmAddrSplit.toNat then
      (0, s.mem.bytes userSrc len.toNat, { s with touched := (userSrc, len.toNat) :: s.touched })
    else (-efault, [], s) := by
  simp only [copyFromUser, ← user_range_iff, ite_and, ite_not]

theorem copyToUser_eq (s : Sys σ) (userDst : Word) {bs : List (BitVec 8)}
    (hlen : bs.length < 2 ^ 64) : copyToUser s userDst bs =
    if userDst.toNat + bs.length ≤ vmmAddrSplit.toNat then
      (0, { s with
        mem := s.mem.write userDst bs
        touched := (userDst, bs.length) :: s.touched })
    else (-efault, s) := by
  have hrange := user_range_iff userDst (BitVec.ofNat 64 bs.length)
  rw [BitVec.toNat_ofNat, Nat.mod_eq_of_lt hlen] at hrange
  simp only [copyToUser, ← hrange, ite_and, ite_not]

/-- A copy to a buffer below the end of the user half succeeds. -/
theorem copyToUser_of_le {s : Sys σ} {userDst : Word} {bs : List (BitVec 8)}
    (h : userDst.toNat + bs.length ≤ vmmAddrSplit.toNat) : copyToUser s userDst bs = (0, { s with
      mem := s.mem.write userDst bs
      touched := (userDst, bs.length) :: s.touched }) := by
  have hsplit : vmmAddrSplit.toNat = 2 ^ 47 := rfl
  rw [copyToUser_eq _ _ (by omega), if_pos h]

/-- A copy that would pass the end of the user half fails. -/
theorem copyToUser_of_lt {s : Sys σ} {userDst : Word} {bs : List (BitVec 8)}
    (hlen : bs.length < 2 ^ 63) (h : vmmAddrSplit.toNat < userDst.toNat + bs.length) :
    copyToUser s userDst bs = (-efault, s) := by
  rw [copyToUser_eq _ _ (by omega), if_neg (by omega)]

/-- `current_task_fds`, with the task. -/
def currentTaskFds (s : Files) : Option (Fin maxOpenFiles → Word) :=
  if s.current = 0 then none else some (s.fds s.current)

/-! ## Reference counts -/

/-- `file_ref`: the file, or null when the driver refuses to open the node. -/
def fileRef (fs : σ) (s : Files) (f : Word) : Word × σ × Files :=
  if f = 0 then (0, fs, s)
  else if (s.file f).refCount = 0 ∧ (s.file f).node ≠ 0 ∧ vfs.hasOpen fs (s.file f).node then
    let (res, fs) := vfs.openNode fs (s.file f).node
    if res ≠ 0 then (0, fs, s)
    else (f, fs, s.setRefCount f ((s.file f).refCount + 1))
  else (f, fs, s.setRefCount f ((s.file f).refCount + 1))

/-- `file_unref`: also says whether the file was freed. -/
def fileUnref (fs : σ) (s : Files) (f : Word) : Bool × σ × Files :=
  if f = 0 then (false, fs, s)
  else
    let s := s.setRefCount f ((s.file f).refCount - 1)
    if (s.file f).refCount > 0 then (false, fs, s)
    else if (s.file f).node ≠ 0 ∧ vfs.hasClose fs (s.file f).node then
      -- can fail, which is ignored
      (true, (vfs.closeNode fs (s.file f).node).2, s)
    else (true, fs, s)

/-- `file_open_node`, where `f` is what `kmalloc` returns. -/
def fileOpenNode (fs : σ) (s : Files) (f node : Word) (flags : BitVec 32) : Word × σ × Files :=
  if node = 0 then (0, fs, s)
  else if f = 0 then (0, fs, s)
  else
    let s := { s with file := Function.update s.file f { node, offset := 0, flags, refCount := 0 } }
    fileRef vfs fs s f

/-! ## Opening and closing -/

/-- The loop of `sys_openat` that looks for an unused slot, from the given index on. -/
def findSlot (fds : Fin maxOpenFiles → Word) (i : ℕ) : Option (Fin maxOpenFiles) :=
  ((List.finRange maxOpenFiles).drop i).find? fun fd => fds fd = 0

/-- `sys_openat` for a path that was found or not, after the path was read. -/
def openPath (s : Sys σ) (f targetNode : Word) (flags : BitVec 32) : Int × Sys σ :=
  if targetNode = 0 then (-enoent, s)
  else match currentTaskFds s.files with
    | none => (-ebadf, s)
    | some fds =>
      match findSlot fds 3 with
      | none => (-eagain, s)
      | some fd =>
        let (opened, fs, files) := fileOpenNode vfs s.fs s.files f targetNode flags
        let files := files.setFd files.current fd opened
        if opened = 0 then (-enomem, { s with fs, files }) else (fd.val, { s with fs, files })

/-- `sys_openat`, where `f` is what `kmalloc` returns. `vfs_lookup` reads the path where it is, up
to its NUL. -/
def sysOpenat (f : Word) (s : Sys σ) (dirfd path flags : Word) : Option (Int × Sys σ) :=
  if toCInt dirfd ≠ atFdcwd then some (-enosys, s)
  else if path = 0 then some (-enoent, s)
  else do
    let len ← s.mem.strlen (2 ^ 64) path
    let s := { s with touched := (path, len + 1) :: s.touched }
    return openPath vfs s f (vfs.lookup s.fs (s.mem.bytes path len)) (flags.setWidth 32)

/-- `sys_open`. -/
def sysOpen (f : Word) (s : Sys σ) (path flags : Word) : Option (Int × Sys σ) :=
  sysOpenat vfs f s (BitVec.ofInt 64 atFdcwd) path flags

/-- `sys_close`. -/
def sysClose (s : Sys σ) (fd : Word) : Int × Sys σ :=
  match fdIndex (toCInt fd) with
  | none => (-ebadf, s)
  | some fd =>
    match currentTaskFds s.files with
    | none => (-ebadf, s)
    | some fds =>
      if fds fd = 0 then (-ebadf, s)
      else
        let (_, fs, files) := fileUnref vfs s.fs s.files (fds fd)
        (0, { s with fs, files := files.setFd files.current fd 0 })

/-- The checks that `sys_getdents64`, `sys_read` and `sys_write` start with: the descriptor, the
pointer and the table. They go on with what the slot holds. -/
def withFd (s : Sys σ) (fd ptr : Word) (next : Word → Option (Int × Sys σ)) :
    Option (Int × Sys σ) :=
  match fdIndex (toCInt fd) with
  | none => some (-ebadf, s)
  | some fd =>
    if ptr = 0 then some (-efault, s)
    else match currentTaskFds s.files with
      | none => some (-ebadf, s)
      | some fds => next (fds fd)

/-! ## Directories -/

/-- `DIRENT_NAME_OFFSET`. -/
abbrev direntNameOffset : ℕ := 19

/-- `DIRENT_RECLEN_ROUND_UP(DIRENT_NAME_OFFSET + name_len)`. -/
def direntReclen (d : VfsDirent) : ℕ := (direntNameOffset + (d.name.length + 1) + 7) / 8 * 8

/-- `d_type`: `DT_REG`, `DT_DIR`, `DT_CHR` or `DT_UNKNOWN`. -/
def direntType (flags : BitVec 32) : BitVec 8 :=
  if flags &&& vfsFile ≠ 0 then 8
  else if flags &&& vfsDirectory ≠ 0 then 4
  else if flags &&& vfsChardevice ≠ 0 then 2
  else 0

/-- The `struct linux_dirent64` of an entry, with its padding. -/
def direntChunk (d : VfsDirent) (offset : Word) : List (BitVec 8) :=
  let body := leBytes 8 d.inode ++ leBytes 8 (offset + 1) ++
    leBytes 2 (BitVec.ofNat 64 (direntReclen d)) ++ [direntType d.flags] ++ d.name ++ [0]
  body ++ List.replicate (direntReclen d - body.length) 0

/-- A record has room for the header, the name and its NUL, is a multiple of eight and is small. -/
theorem direntReclen_bounds (d : VfsDirent) :
    19 + d.name.length < direntReclen d ∧ direntReclen d % 8 = 0 ∧ direntReclen d ≤ 152 := by
  have hfits : d.name.length < 128 := d.fits
  have hreclen : direntReclen d = (19 + (d.name.length + 1) + 7) / 8 * 8 := rfl
  omega

theorem length_direntChunk (d : VfsDirent) (offset : Word) :
    (direntChunk d offset).length = direntReclen d := by
  have hroom := (direntReclen_bounds d).1
  simp only [direntChunk, List.length_append, length_leBytes, List.length_replicate,
    List.length_cons, List.length_nil]
  omega

/-- The loop of `sys_getdents64`. -/
def getdentsLoop (f dirp count : Word) : ℕ → Sys σ → Word → Option (Int × Sys σ)
  | 0, _, _ => none
  | fuel + 1, s, actualCount =>
    let file := s.files.file f
    let (res, dirent, fs) := vfs.readdir s.fs file.node (file.offset.setWidth 32)
    let s := { s with fs }
    if res ≠ 1 then
      if res = 0 then some (actualCount.toInt, s)
      else if actualCount = 0 then some (-eio, s)
      else some (actualCount.toInt, s)
    else
      let reclen := BitVec.ofNat 64 (direntReclen dirent)
      if actualCount + reclen > count then
        if actualCount = 0 then some (-einval, s) else some (actualCount.toInt, s)
      else
        let (res, s) := copyToUser s (dirp + actualCount) (direntChunk dirent file.offset)
        if res ≠ 0 then
          if actualCount = 0 then some (res, s) else some (actualCount.toInt, s)
        else
          getdentsLoop f dirp count fuel { s with files := s.files.advance f 1 }
            (actualCount + reclen)

/-- `sys_getdents64`. -/
def sysGetdents64 (s : Sys σ) (fd dirp count : Word) : Option (Int × Sys σ) :=
  withFd s fd dirp fun f =>
    if f = 0 ∨ (s.files.file f).node = 0 then some (-ebadf, s)
    else if vfs.flags s.fs (s.files.file f).node &&& vfsDirectory = 0 then some (-enotdir, s)
    else if !vfs.hasReaddir s.fs (s.files.file f).node then some (-enosys, s)
    else getdentsLoop vfs f dirp count (count.toNat + 1) s 0

/-! ## Reading and writing -/

/-- `chunk_len`. -/
def chunkLen (count totalCount : Word) : Word :=
  if count - totalCount < copyBufferSize then count - totalCount else copyBufferSize

theorem toNat_chunkLen {count totalCount : Word} (h : totalCount.toNat ≤ count.toNat) :
    (chunkLen count totalCount).toNat = min (count.toNat - totalCount.toNat) 512 := by
  have hsub : (count - totalCount).toNat = count.toNat - totalCount.toNat := by
    rw [BitVec.toNat_sub]
    have := count.isLt
    have := totalCount.isLt
    omega
  have hsize : copyBufferSize.toNat = 512 := rfl
  rw [chunkLen]
  split <;> rename_i hlt <;> rw [BitVec.lt_def, hsub, hsize] at hlt <;> omega

/-- What the loops know about the bytes transferred so far. -/
structure Transferred (buf count total : Word) : Prop where
  le : total.toNat ≤ count.toNat
  low : total = 0 ∨ buf.toNat + total.toNat ≤ vmmAddrSplit.toNat

namespace Transferred

variable {buf count total : Word}

theorem zero (buf count : Word) : Transferred buf count 0 := ⟨Nat.zero_le _, .inl rfl⟩

variable (h : Transferred buf count total)
include h

theorem toInt_eq : total.toInt = total.toNat := by
  have hsplit : vmmAddrSplit.toNat = 2 ^ 47 := rfl
  rcases h.low with rfl | hlow
  · rfl
  · exact BitVec.toInt_eq_toNat_of_lt (by omega)

/-- Where the next bytes go. -/
theorem toNat_add : (buf + total).toNat = buf.toNat + total.toNat := by
  have hsplit : vmmAddrSplit.toNat = 2 ^ 47 := rfl
  rw [BitVec.toNat_add]
  rcases h.low with rfl | hlow
  · exact Nat.mod_eq_of_lt buf.isLt
  · omega

/-- Another `n` bytes were transferred. -/
theorem add {n : ℕ} (hn : n ≤ count.toNat - total.toNat)
    (hlow : (buf + total).toNat + n ≤ vmmAddrSplit.toNat) :
    Transferred buf count (total + BitVec.ofNat 64 n) ∧
      (total + BitVec.ofNat 64 n).toNat = total.toNat + n := by
  have hle := h.le
  have hcount := count.isLt
  have hsum : (total + BitVec.ofNat 64 n).toNat = total.toNat + n := by
    rw [BitVec.toNat_add, BitVec.toNat_ofNat]
    omega
  refine ⟨⟨by omega, .inr ?_⟩, hsum⟩
  rw [hsum, ← Nat.add_assoc, ← h.toNat_add]
  exact hlow

end Transferred

/-- `f->node->flags & VFS_CHARDEVICE`. -/
def isChardevice (s : Sys σ) (f : Word) : Bool :=
  vfs.flags s.fs (s.files.file f).node &&& vfsChardevice ≠ 0

/-- The loop of `sys_read`. -/
def sysReadLoop (f buf count : Word) : ℕ → Sys σ → Word → Option (Int × Sys σ)
  | 0, _, _ => none
  | fuel + 1, s, totalCount =>
    if ¬ totalCount < count then some (totalCount.toInt, s)
    else
      let file := s.files.file f
      let (res, fs) := vfs.read s.fs file.node file.offset (chunkLen count totalCount)
      let s := { s with fs }
      match res with
      | .ok (b :: bs) =>
        let (res, s) := copyToUser s (buf + totalCount) (b :: bs)
        if res ≠ 0 then
          -- keep what already reached the caller
          some (if totalCount.toInt > 0 then totalCount.toInt else -efault, s)
        else
          let actual := BitVec.ofNat 64 (b :: bs).length
          -- one read is one line on a char stream
          if isChardevice vfs s f then some ((totalCount + actual).toInt, s)
          else
            sysReadLoop f buf count fuel { s with files := s.files.advance f actual }
              (totalCount + actual)
      | .ok [] => some (totalCount.toInt, s)
      | .error e => some (if e > 0 ∧ totalCount = 0 then -e else totalCount.toInt, s)

/-- `sys_read`. -/
def sysRead (s : Sys σ) (fd buf count : Word) : Option (Int × Sys σ) :=
  withFd s fd buf fun f =>
    if f = 0 then some (-ebadf, s)
    else if !vfs.hasRead s.fs (s.files.file f).node then some (-enosys, s)
    else sysReadLoop vfs f buf count (count.toNat + 1) s 0

/-- The loop of `sys_write`. -/
def sysWriteLoop (f buf count : Word) : ℕ → Sys σ → Word → Option (Int × Sys σ)
  | 0, _, _ => none
  | fuel + 1, s, totalCount =>
    if ¬ totalCount < count then some (totalCount.toInt, s)
    else
      let (res, bytes, s) := copyFromUser s (buf + totalCount) (chunkLen count totalCount)
      if res ≠ 0 then
        -- keep what already made it out
        some (if totalCount.toInt > 0 then totalCount.toInt else -efault, s)
      else
        let file := s.files.file f
        let (actual, fs) := vfs.write s.fs file.node file.offset bytes
        let s := { s with fs }
        if actual > 0 then
          if isChardevice vfs s f then some ((totalCount + BitVec.ofInt 64 actual).toInt, s)
          else
            sysWriteLoop f buf count fuel
              { s with files := s.files.advance f (BitVec.ofInt 64 actual) }
              (totalCount + BitVec.ofInt 64 actual)
        else if actual < 0 ∧ totalCount = 0 then some (actual, s)
        else some (totalCount.toInt, s)

/-- `sys_write`. -/
def sysWrite (s : Sys σ) (fd buf count : Word) : Option (Int × Sys σ) :=
  withFd s fd buf fun f =>
    if f = 0 then some (-ebadf, s)
    -- not opened for writing
    else if (s.files.file f).flags &&& oWronly = 0 ∧ (s.files.file f).flags &&& oRdwr = 0 then
      some (-eacces, s)
    else if !vfs.hasWrite s.fs (s.files.file f).node then some (-enosys, s)
    else sysWriteLoop vfs f buf count (count.toNat + 1) s 0

/-- `sys_lseek`. -/
def sysLseek (s : Sys σ) (fd offset whence : Word) : Int × Sys σ :=
  match fdIndex (toCInt fd) with
  | none => (-ebadf, s)
  | some fd =>
    match currentTaskFds s.files with
    | none => (-ebadf, s)
    | some fds =>
      let f := fds fd
      if f = 0 then (-ebadf, s)
      else if isChardevice vfs s f then (-espipe, s)
      else
        let seek (v : Word) : Int × Sys σ := (v.toInt, { s with files := s.files.setOffset f v })
        if toCInt whence = 0 then seek offset
        else if toCInt whence = 1 then seek ((s.files.file f).offset + offset)
        else if toCInt whence = 2 then seek (vfs.size s.fs (s.files.file f).node + offset)
        else (-einval, s)

end

end Pros
