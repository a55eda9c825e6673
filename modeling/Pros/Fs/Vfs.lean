import Pros.Lib.Align

/-!
# File systems and drivers

What `kernel/include/fs/vfs/vfs.h` promises to the system calls: nodes with flags and a size, and
the operations of a node. Nodes are named by their addresses, null is `0`, and all operations act
on one state of the file systems and drivers.
-/

namespace Pros

/-- `VFS_NAME_SIZE`. -/
abbrev vfsNameSize : ℕ := 128

/-- `VFS_PATH_MAX`. -/
abbrev vfsPathMax : ℕ := 256

/-- `VFS_FILE`. -/
abbrev vfsFile : BitVec 32 := 0x01

/-- `VFS_DIRECTORY`. -/
abbrev vfsDirectory : BitVec 32 := 0x02

/-- `VFS_CHARDEVICE`. -/
abbrev vfsChardevice : BitVec 32 := 0x04

/-! ## `errno.h` -/

abbrev enoent : Int := 2
abbrev eio : Int := 5
abbrev ebadf : Int := 9
abbrev eagain : Int := 11
abbrev enomem : Int := 12
abbrev eacces : Int := 13
abbrev efault : Int := 14
abbrev enotdir : Int := 20
abbrev einval : Int := 22
abbrev espipe : Int := 29
abbrev enosys : Int := 38

/-- `struct vfs_dirent`; the name is the string up to its NUL, which is part of the array. -/
structure VfsDirent where
  name : List (BitVec 8)
  flags : BitVec 32
  inode : Word
  fits : name.length < vfsNameSize

theorem nil_fits : ([] : List (BitVec 8)).length < vfsNameSize := by decide

/-- The operations of nodes on the state `σ` of all file systems and drivers. A transfer returns no
more bytes than were asked for. -/
structure Vfs (σ : Type) where
  /-- `vfs_lookup` of a path, `0` when there is no such node. -/
  lookup : σ → List (BitVec 8) → Word
  flags : σ → Word → BitVec 32
  size : σ → Word → Word
  /-- Which operations the node has: `ops` and the function pointer are not null. -/
  hasOpen : σ → Word → Bool
  hasClose : σ → Word → Bool
  hasRead : σ → Word → Bool
  hasWrite : σ → Word → Bool
  hasReaddir : σ → Word → Bool
  openNode : σ → Word → Int × σ
  closeNode : σ → Word → Int × σ
  /-- The bytes read, or a negated error. -/
  read : σ → Word → Word → Word → Except ℕ (List (BitVec 8)) × σ
  write : σ → Word → Word → List (BitVec 8) → Int × σ
  readdir : σ → Word → BitVec 32 → Int × VfsDirent × σ
  read_le : ∀ s node offset size bytes,
    (read s node offset size).1 = .ok bytes → bytes.length ≤ size.toNat
  write_le : ∀ s node offset bytes, (write s node offset bytes).1 ≤ bytes.length

end Pros
