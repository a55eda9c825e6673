import Pros.Console.LineEditor
import Pros.Fs.Transfer

/-!
# The console as a file

Model of the file operations of `kernel/src/drivers/console_dev.c` for `sys_read`: the console is a
node next to those of a ramfs. A read sleeps until a line waits, so a call is modelled from the
moment on when one does.

`console_dev_ops_read` takes the bytes out of the line discipline before `sys_read` finds out whether
it can hand them to the user.
-/

namespace Pros

/-- `console_dev_ops_read`: the bytes and the line discipline, or `none` while no line waits, where
the code sleeps. -/
def consoleDevOpsRead (ld : Ldisc) (size : Word) : Option (List (BitVec 8) × Ldisc) :=
  if size = 0 then some ([], ld)
  else if ldiscReady ld = false then none
  else some ((ldiscDrain ld size).2, (ldiscDrain ld size).1)

/-- A ramfs, and the console with its line discipline. -/
structure DevFs (α : Type) where
  ram : RamfsFs α
  console : Word
  ld : Ldisc

section

variable {α : Type} (A : RamfsAlloc α) (hhdm : Word)

/-- The operations: the console has `read` and `write`, every other node is one of the ramfs. A read
that sleeps returns nothing. -/
def devVfs : Vfs (DevFs α) where
  lookup fs path := (ramfsVfs A hhdm).lookup fs.ram path
  flags fs n := if n = fs.console then vfsChardevice else (ramfsVfs A hhdm).flags fs.ram n
  size fs n := if n = fs.console then 0 else (ramfsVfs A hhdm).size fs.ram n
  hasOpen _ _ := false
  hasClose _ _ := false
  hasRead _ _ := true
  hasWrite _ _ := true
  hasReaddir fs n := !decide (n = fs.console)
  openNode fs _ := (0, fs)
  closeNode fs _ := (0, fs)
  read fs n offset size :=
    if n = fs.console then
      match consoleDevOpsRead fs.ld size with
      | none => (.ok [], fs)
      | some (bytes, ld) => (.ok bytes, { fs with ld })
    else
      let (res, ram) := (ramfsVfs A hhdm).read fs.ram n offset size
      (res, { fs with ram })
  write fs n offset bytes :=
    if n = fs.console then (bytes.length, fs)
    else
      let (res, ram) := (ramfsVfs A hhdm).write fs.ram n offset bytes
      (res, { fs with ram })
  readdir fs n index :=
    let (res, dirent, ram) := (ramfsVfs A hhdm).readdir fs.ram n index
    (res, dirent, { fs with ram })
  read_le fs n offset size bytes h := by
    split at h
    · cases hread : consoleDevOpsRead fs.ld size with
      | none =>
        simp only [hread] at h
        cases h
        exact Nat.zero_le _
      | some out =>
        simp only [hread] at h
        obtain rfl := Except.ok.inj h
        rw [consoleDevOpsRead] at hread
        split at hread
        · cases hread
          exact Nat.zero_le _
        · split at hread
          · cases hread
          · cases hread
            exact (Ldisc.length_drain ..).trans_le (Nat.min_le_left _ _)
    · exact (ramfsVfs A hhdm).read_le _ _ _ _ _ h
  write_le fs n offset bytes := by
    split
    · exact le_rfl
    · exact (ramfsVfs A hhdm).write_le _ _ _ _

end

section

variable {α : Type} {A : RamfsAlloc α} {hhdm : Word} {ok : α → ByteMem → (Word → Holding) → Prop}
variable {s : Sys (DevFs α)} {fd f buf count : Word}
variable {entry : Word → ℕ → Word} {data : Word → ℕ → BitVec 8} {line : List (BitVec 8)}

/-- The descriptor `fd` of the running task is open, through the file `f`, on the console, where a
line waits, or on a regular file. -/
structure OpenNode (fd f : Word) (line : List (BitVec 8)) (s : Sys (DevFs α)) : Prop where
  task : s.files.current ≠ 0
  slot : ∃ i, fdIndex (toCInt fd) = some i ∧ s.files.fds s.files.current i = f
  ne_null : f ≠ 0
  editor : s.fs.ld.Ok line
  node : ((s.files.file f).node = s.fs.console ∧ s.fs.ld.complete = true) ∨
    ((s.files.file f).node ≠ s.fs.console ∧ (s.files.file f).node ∈ s.fs.ram.tree.live ∧
      (s.fs.ram.tree.node (s.files.file f).node).flags &&& vfsFile ≠ 0 ∧
      (s.fs.ram.tree.node (s.files.file f).node).flags &&& vfsChardevice = 0)

/-- A call that fails takes nothing: the offset and the files are as before, and so is the line that
waits. -/
def FailedReadKeeps (A : RamfsAlloc α) (hhdm : Word) (s : Sys (DevFs α)) (fd f buf count : Word) :
    Prop :=
  ∃ r s', sysRead (devVfs A hhdm) s fd buf count = some (r, s') ∧
    (r < 0 → (s'.files.file f).offset = (s.files.file f).offset ∧ s.fs.ram.Same s'.fs.ram ∧
      s'.fs.ld.complete = s.fs.ld.complete ∧ s'.fs.ld.rest = s.fs.ld.rest)

theorem OpenNode.sysRead_eq (h : OpenNode fd f line s) (buf count : Word) :
    sysRead (devVfs A hhdm) s fd buf count =
      if buf = 0 then some (-efault, s)
      else sysReadLoop (devVfs A hhdm) f buf count (count.toNat + 1) s 0 := by
  obtain ⟨i, hi, hslot⟩ := h.slot
  have hread : (devVfs A hhdm).hasRead s.fs (s.files.file f).node = true := rfl
  simp only [sysRead, withFd, hi, currentTaskFds, if_neg h.task, hslot, if_neg h.ne_null, hread,
    Bool.not_true, Bool.false_eq_true, if_false]

/-- A regular file next to the console is read as the bytes that it holds. -/
theorem readsFile_devVfs {fs : DevFs α} {n : Word} (hfs : fs.ram.Ok ok entry data)
    (hn : n ≠ fs.console) (hlive : n ∈ fs.ram.tree.live)
    (hfile : (fs.ram.tree.node n).flags &&& vfsFile ≠ 0)
    (hdevice : (fs.ram.tree.node n).flags &&& vfsChardevice = 0) :
    ReadsFile (devVfs A hhdm)
      (fun fs' => fs.ram.Same fs'.ram ∧ fs'.ld = fs.ld ∧ fs'.console = fs.console) n (data n)
      (fs.ram.file n).size.toNat where
  hasRead _ _ := rfl
  notDevice fs' hsame := by
    have hram : ReadsFile (ramfsVfs A hhdm) fs.ram.Same n (data n) (fs.ram.file n).size.toNat :=
      hfs.readsFile hlive hfile hdevice
    simp only [devVfs, hsame.2.2, if_neg hn]
    exact hram.notDevice _ hsame.1
  read fs' hsame offset len := by
    have hram : ReadsFile (ramfsVfs A hhdm) fs.ram.Same n (data n) (fs.ram.file n).size.toNat :=
      hfs.readsFile hlive hfile hdevice
    obtain ⟨ram, hram, hread⟩ := hram.read _ hsame.1 offset len
    refine ⟨{ fs' with ram }, ⟨hram, hsame.2⟩, ?_⟩
    simp only [devVfs, hsame.2.2, if_neg hn, hread]

/-- The bytes that a call on the console takes: one chunk, or what is left of the line. -/
def consoleTakes (ld : Ldisc) (count : Word) : ℕ := min (min count.toNat 512) ld.rest.length

/-- What the console returns when a line waits. -/
theorem OpenNode.read_eq (h : OpenNode fd f line s) (hnode : (s.files.file f).node = s.fs.console)
    (hready : s.fs.ld.complete = true) (hcount : count ≠ 0) (offset : Word) :
    ∃ bs ld, (devVfs A hhdm).read s.fs (s.files.file f).node offset (chunkLen count 0) =
        (.ok bs, { s.fs with ld }) ∧
      bs ≠ [] ∧ bs.length = consoleTakes s.fs.ld count ∧ ld.rest.length < s.fs.ld.rest.length := by
  have hsize : (chunkLen count 0).toNat = min count.toNat 512 :=
    toNat_chunkLen (Nat.zero_le _)
  have hpos : 0 < count.toNat := Nat.pos_of_ne_zero fun h0 => hcount (BitVec.eq_of_toNat_eq h0)
  have hne : chunkLen count 0 ≠ 0 := by
    intro h0
    rw [h0] at hsize
    simp at hsize
    omega
  obtain ⟨-, hbytes, happend⟩ := h.editor.drain hready hne
  refine ⟨_, (ldiscDrain s.fs.ld (chunkLen count 0)).1, ?_, hbytes, ?_, ?_⟩
  · simp only [devVfs, hnode, if_pos, consoleDevOpsRead, if_neg hne, ldiscReady, hready,
      Bool.true_eq_false, if_false]
  · rw [Ldisc.length_drain, hsize, consoleTakes]
  · rw [← happend, List.length_append]
    have := List.length_pos_of_ne_nil hbytes
    omega

/-- A call that fails takes nothing, except a call on the console with room for at least one byte
whose buffer does not end below the end of the user half where the bytes of the line do. -/
theorem failed_read_keeps_iff (h : OpenNode fd f line s) (hfs : s.fs.ram.Ok ok entry data)
    (buf count : Word) :
    FailedReadKeeps A hhdm s fd f buf count ↔
      ¬ ((s.files.file f).node = s.fs.console ∧ buf ≠ 0 ∧ count ≠ 0 ∧
        vmmAddrSplit.toNat < buf.toNat + consoleTakes s.fs.ld count) := by
  rw [FailedReadKeeps, h.sysRead_eq]
  by_cases hbuf : buf = 0
  · refine iff_of_true ⟨_, s, if_pos hbuf, fun _ => ⟨rfl, ⟨rfl, fun _ => rfl⟩, rfl, rfl⟩⟩ ?_
    exact fun hlost => hlost.2.1 hbuf
  rw [if_neg hbuf]
  rcases h.node with ⟨hconsole, hready⟩ | ⟨hn, hlive, hfile, hdevice⟩
  · by_cases hcount : count = 0
    · subst hcount
      exact iff_of_true ⟨0, s, rfl, fun hneg => absurd hneg (by decide)⟩ fun hlost => hlost.2.2.1 rfl
    have hmore : (0 : Word) < count := BitVec.lt_def.mpr
      (Nat.pos_of_ne_zero fun h0 => hcount (BitVec.eq_of_toNat_eq h0))
    obtain ⟨bs, ld, hread, hne, hlength, hrest⟩ :=
      @OpenNode.read_eq _ A hhdm _ _ _ _ _ h hconsole hready hcount (s.files.file f).offset
    have hsmall : bs.length ≤ 512 := by
      rw [hlength, consoleTakes]
      omega
    rw [sysReadLoop_succ hmore hread hne, show buf + 0 = buf from BitVec.add_zero _]
    by_cases hfit : buf.toNat + bs.length ≤ vmmAddrSplit.toNat
    · -- the line reaches the user
      rw [copyToUser_of_le hfit]
      have hdevice : ∀ mem touched,
          isChardevice (devVfs A hhdm) { s with mem, touched, fs := { s.fs with ld } } f = true := by
        intro mem touched
        simp only [isChardevice, devVfs, hconsole, if_pos]
        decide
      have hlen : ((0 : Word) + BitVec.ofNat 64 bs.length).toInt = bs.length := by
        rw [show (0 : Word) + BitVec.ofNat 64 bs.length = BitVec.ofNat 64 bs.length from
          BitVec.zero_add _, BitVec.toInt_eq_toNat_of_lt] <;> rw [BitVec.toNat_ofNat] <;> omega
      simp only [ne_eq, not_true_eq_false, if_false, hdevice, if_true, hlen]
      refine iff_of_true ⟨_, _, rfl, fun hneg => absurd hneg (by omega)⟩ fun hlost => ?_
      rw [← hlength] at hlost
      omega
    · -- the line is lost
      rw [copyToUser_of_lt (by omega) (by omega)]
      simp only [if_pos (show (-efault : ℤ) ≠ 0 by decide),
        if_neg (show ¬ (0 : Word).toInt > 0 by decide)]
      refine iff_of_false ?_ (not_not.mpr ⟨hconsole, hbuf, hcount, by omega⟩)
      rintro ⟨r, s', hcall, hkeeps⟩
      obtain ⟨rfl, rfl⟩ := Prod.mk.inj (Option.some.inj hcall)
      have hsame := (hkeeps (by decide)).2.2.2
      simp only at hsame
      rw [hsame] at hrest
      exact lt_irrefl _ hrest
  · refine iff_of_true ?_ fun hlost => hn hlost.1
    obtain ⟨k, s', hdelivered, -, -, hloop | ⟨-, rfl, -, hloop⟩⟩ :=
      sysReadLoop_eq (readsFile_devVfs hfs hn hlive hfile hdevice) (BitVec.isLt _)
        ⟨⟨rfl, fun _ => rfl⟩, rfl, rfl⟩ rfl (Nat.zero_le _) (Or.inl rfl) (Nat.lt_succ_self _)
    · exact ⟨_, s', hloop, fun hneg => absurd hneg (by omega)⟩
    · obtain ⟨hsame, hld, -⟩ := hdelivered.fs
      refine ⟨_, s', hloop, fun _ => ⟨?_, hsame, by rw [hld], by rw [hld]⟩⟩
      rw [hdelivered.files, file_setOffset_self]
      exact BitVec.add_zero _

end

/-- The line `a` waits on the console, which is open. -/
def openedConsole : Sys (DevFs Bump) where
  mem := fun _ => 0
  touched := []
  fs :=
    { ram := openedFile.fs
      console := 0x3000
      ld := (ldiscFeed (ldiscFeed (ldiscInit fun _ => 0) 0x61).1 0x0a).1 }
  files :=
    { file := fun _ => { node := 0x3000, offset := 0, flags := oRdwr, refCount := 1 }
      fds := fun _ _ => 0x5000
      current := 0x4000 }

theorem openedConsole_open : OpenNode 3 0x5000 [] openedConsole where
  task := by decide
  slot := ⟨⟨3, by decide⟩, by decide +kernel, rfl⟩
  ne_null := by decide
  editor := ⟨fun h => absurd h (by decide), fun _ => ⟨by decide, by decide, rfl⟩⟩
  node := Or.inl ⟨rfl, rfl⟩

/-- With a null buffer the call fails and keeps the line; with one in the user half it does not fail,
and with one in the kernel half the line is lost. -/
theorem failed_read_keeps_iff_user :
    OpenNode 3 0x5000 [] openedConsole ∧
      (sysRead (devVfs (bumpAlloc exampleHhdm) exampleHhdm) openedConsole 3 0 16).map Prod.fst =
        some (-efault) ∧
      FailedReadKeeps (bumpAlloc exampleHhdm) exampleHhdm openedConsole 3 0x5000 0 16 ∧
      FailedReadKeeps (bumpAlloc exampleHhdm) exampleHhdm openedConsole 3 0x5000 0x1000 16 ∧
      ¬ FailedReadKeeps (bumpAlloc exampleHhdm) exampleHhdm openedConsole 3 0x5000
        0xffff800000000000 16 := by
  have hiff : ∀ buf, FailedReadKeeps (bumpAlloc exampleHhdm) exampleHhdm openedConsole 3 0x5000
      buf 16 ↔ _ := fun buf => failed_read_keeps_iff openedConsole_open openedFile_ok.2 buf 16
  refine ⟨openedConsole_open, by decide +kernel, (hiff 0).mpr fun hlost => hlost.2.1 rfl,
    (hiff 0x1000).mpr fun hlost => absurd hlost.2.2.2 (by decide), fun hkeeps => ?_⟩
  exact (hiff _).mp hkeeps ⟨rfl, by decide, by decide, by decide⟩

/-- A buffer in the kernel half: `-EFAULT`, and the line is gone. -/
theorem failed_read_loses_line :
    OpenNode 3 0x5000 [] openedConsole ∧
      ¬ FailedReadKeeps (bumpAlloc exampleHhdm) exampleHhdm openedConsole 3 0x5000
        0xffff800000000000 16 := by
  refine ⟨openedConsole_open, fun hkeeps => ?_⟩
  obtain ⟨r, s', hcall, hkeeps⟩ := hkeeps
  have hres : (sysRead (devVfs (bumpAlloc exampleHhdm) exampleHhdm) openedConsole 3
      0xffff800000000000 16).map (fun p => (p.1, p.2.fs.ld.rest)) = some (-efault, []) := by
    decide +kernel
  rw [hcall] at hres
  obtain ⟨hneg, hgone⟩ := Prod.mk.inj (Option.some.inj hres)
  have hfails : r < 0 := hneg.trans_lt (by decide)
  have hsame := hgone.symm.trans (hkeeps hfails).2.2.2
  exact absurd hsame (by decide +kernel)

end Pros
