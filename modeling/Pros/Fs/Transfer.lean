import Pros.Fs.Ramfs.Files
import Pros.Fs.Seek

/-!
# Reading and writing in chunks

`sys_read` and `sys_write` go through a buffer of 512 bytes, the file goes through pages of 4096
bytes, and every copy to or from the user can fail on its own. The lemmas about the two loops say
how much is transferred from one round on; a failure in a later round keeps what came before.
-/

namespace Pros

section

variable {σ : Type} {vfs : Vfs σ} {s : Sys σ} {fd f n buf count : Word}

/-! ## Reading -/

/-- One round of the loop of `sys_read` in which the file system returns some bytes. -/
theorem sysReadLoop_succ {totalCount : Word} {bs : List (BitVec 8)} {fs : σ}
    (hmore : totalCount < count)
    (hread : vfs.read s.fs (s.files.file f).node (s.files.file f).offset (chunkLen count totalCount) =
      (.ok bs, fs)) (hne : bs ≠ []) (fuel : ℕ) :
    sysReadLoop vfs f buf count (fuel + 1) s totalCount =
      let (res, s) := copyToUser { s with fs } (buf + totalCount) bs
      if res ≠ 0 then some (if totalCount.toInt > 0 then totalCount.toInt else -efault, s)
      else if isChardevice vfs s f then some ((totalCount + BitVec.ofNat 64 bs.length).toInt, s)
      else sysReadLoop vfs f buf count fuel
        { s with files := s.files.advance f (BitVec.ofNat 64 bs.length) }
        (totalCount + BitVec.ofNat 64 bs.length) := by
  rw [sysReadLoop, if_neg (not_not.mpr hmore)]
  simp only [hread]
  cases bs with
  | nil => exact absurd rfl hne
  | cons b bs => rfl

/-- A round in which the file system returns nothing is the last one. -/
theorem sysReadLoop_nil {totalCount : Word} {fs : σ} (hmore : totalCount < count)
    (hread : vfs.read s.fs (s.files.file f).node (s.files.file f).offset (chunkLen count totalCount) =
      (.ok [], fs)) (fuel : ℕ) :
    sysReadLoop vfs f buf count (fuel + 1) s totalCount =
      some (totalCount.toInt, { s with fs }) := by
  rw [sysReadLoop, if_neg (not_not.mpr hmore)]
  simp only [hread]

/-- In every state with `Q`, the node `n` is a file with the first `size` bytes of `data`, and
reading it keeps `Q`. -/
structure ReadsFile (vfs : Vfs σ) (Q : σ → Prop) (n : Word) (data : ℕ → BitVec 8) (size : ℕ) :
    Prop where
  hasRead : ∀ fs, Q fs → vfs.hasRead fs n = true
  notDevice : ∀ fs, Q fs → vfs.flags fs n &&& vfsChardevice = 0
  read : ∀ fs, Q fs → ∀ offset len : Word, ∃ fs', Q fs' ∧ vfs.read fs n offset len =
    (.ok (dataBytes data offset.toNat (min len.toNat (size - offset.toNat))), fs')

variable {Q : σ → Prop} {data : ℕ → BitVec 8} {size : ℕ}

/-- From `s` to `s'` the next `k` bytes of the file went to the user at `dst`. -/
structure Delivered (Q : σ → Prop) (f dst : Word) (data : ℕ → BitVec 8) (k : ℕ) (s s' : Sys σ) :
    Prop where
  fs : Q s'.fs
  mem : s'.mem = s.mem.write dst (dataBytes data (s.files.file f).offset.toNat k)
  files : s'.files = s.files.setOffset f ((s.files.file f).offset + BitVec.ofNat 64 k)

theorem Delivered.zero {dst : Word} {fs : σ} (hQ : Q fs) :
    Delivered Q f dst data 0 s { s with fs } :=
  ⟨hQ, (ByteMem.write_nil ..).symm, (setOffset_self (BitVec.add_zero _).symm).symm⟩

theorem Delivered.trans {dst : Word} {s₁ s' : Sys σ} {j k : ℕ} (h : Delivered Q f dst data j s s₁)
    (h' : Delivered Q f (dst + BitVec.ofNat 64 j) data k s₁ s')
    (hoffset : (s.files.file f).offset.toNat + (j + k) < 2 ^ 64) :
    Delivered Q f dst data (j + k) s s' := by
  have hnext : ((s₁.files.file f).offset).toNat = (s.files.file f).offset.toNat + j := by
    rw [h.files, file_setOffset_self, BitVec.toNat_add, BitVec.toNat_ofNat]
    omega
  refine ⟨h'.fs, ?_, ?_⟩
  · rw [h'.mem, hnext, h.mem, dataBytes_add, ← ByteMem.write_append, length_dataBytes]
    rw [length_dataBytes, length_dataBytes]
    omega
  · rw [h'.files, h.files, setOffset_setOffset, file_setOffset_self, BitVec.ofNat_add,
      BitVec.add_assoc]

/-- The loop of `sys_read` on a file delivers the next bytes, and all that were asked for and are
there if the buffer is in the user half. Only a failure in the first round is an error. -/
theorem sysReadLoop_eq (hfile : ReadsFile vfs Q n data size) (hsize : size < 2 ^ 64)
    (hQ : Q s.fs) (hnode : (s.files.file f).node = n) {totalCount : Word}
    (hle : totalCount.toNat ≤ count.toNat)
    (hbuf : totalCount = 0 ∨ buf.toNat + totalCount.toNat ≤ vmmAddrSplit.toNat) {fuel : ℕ}
    (hfuel : count.toNat - totalCount.toNat < fuel) :
    ∃ k s', Delivered Q f (buf + totalCount) data k s s' ∧
      k ≤ min (count.toNat - totalCount.toNat) (size - (s.files.file f).offset.toNat) ∧
      (buf.toNat + count.toNat ≤ vmmAddrSplit.toNat →
        k = min (count.toNat - totalCount.toNat) (size - (s.files.file f).offset.toNat)) ∧
      (sysReadLoop vfs f buf count fuel s totalCount =
          some (((totalCount.toNat + k : ℕ) : ℤ), s') ∨
        totalCount = 0 ∧ k = 0 ∧ vmmAddrSplit.toNat < buf.toNat + count.toNat ∧
          sysReadLoop vfs f buf count fuel s totalCount = some (-efault, s')) := by
  have hsplit : vmmAddrSplit.toNat = 2 ^ 47 := rfl
  induction fuel generalizing s totalCount with
  | zero => omega
  | succ fuel ih =>
    have htotal : Transferred buf count totalCount := ⟨hle, hbuf⟩
    have hint := htotal.toInt_eq
    by_cases hmore : totalCount < count
    swap
    · -- everything was transferred
      have hend : count.toNat ≤ totalCount.toNat := BitVec.not_lt.mp hmore
      refine ⟨0, s, .zero hQ, Nat.zero_le _, fun _ => by omega, Or.inl ?_⟩
      rw [sysReadLoop, if_pos hmore, hint]
      rfl
    have hlt := BitVec.lt_def.mp hmore
    obtain ⟨fs', hQ', hread⟩ :=
      hfile.read s.fs hQ (s.files.file f).offset (chunkLen count totalCount)
    obtain ⟨m, hm⟩ : ∃ m, m = min (chunkLen count totalCount).toNat
      (size - (s.files.file f).offset.toNat) := ⟨_, rfl⟩
    rw [← hm, ← hnode] at hread
    rw [toNat_chunkLen hle] at hm
    have hlength := length_dataBytes data (s.files.file f).offset.toNat m
    by_cases hm0 : m = 0
    · -- the end of the file
      rw [List.eq_nil_of_length_eq_zero (hlength.trans hm0)] at hread
      refine ⟨0, { s with fs := fs' }, .zero hQ', Nat.zero_le _, fun _ => by omega, Or.inl ?_⟩
      rw [sysReadLoop_nil hmore hread, hint]
      rfl
    rw [sysReadLoop_succ hmore hread (List.ne_nil_of_length_pos (by omega)), hlength]
    have hdst := htotal.toNat_add
    by_cases hfit : buf.toNat + totalCount.toNat + m ≤ vmmAddrSplit.toNat
    · rw [copyToUser_of_le (by rw [hdst, hlength]; exact hfit), hlength]
      have hdevice : ∀ s' : Sys σ, Q s'.fs → s'.files = s.files → isChardevice vfs s' f = false := by
        intro s' hs' hfiles
        rw [isChardevice, hfiles, hnode, hfile.notDevice _ hs']
        rfl
      simp only [ne_eq, not_true_eq_false, if_false, hdevice, hQ', Bool.false_eq_true]
      obtain ⟨s₁, hs₁⟩ : ∃ s₁ : Sys σ, s₁ = { s with
        mem := s.mem.write (buf + totalCount) (dataBytes data (s.files.file f).offset.toNat m)
        touched := (buf + totalCount, m) :: s.touched
        fs := fs'
        files := s.files.advance f (BitVec.ofNat 64 m) } := ⟨_, rfl⟩
      have hstep : Delivered Q f (buf + totalCount) data m s s₁ := by
        subst hs₁
        exact ⟨hQ', rfl, rfl⟩
      rw [← hs₁]
      obtain ⟨hnext', hnext⟩ := htotal.add (n := m) (by omega) (by omega)
      have hoffset : ((s₁.files.file f).offset).toNat = (s.files.file f).offset.toNat + m := by
        rw [hstep.files, file_setOffset_self, BitVec.toNat_add, BitVec.toNat_ofNat]
        omega
      have hnode₁ : (s₁.files.file f).node = n := by
        rw [hstep.files, file_setOffset_self]
        exact hnode
      obtain ⟨k, s', hrest, hk, hall, hloop⟩ := @ih s₁ hstep.fs hnode₁
        (totalCount + BitVec.ofNat 64 m) hnext'.le hnext'.low (by omega)
      rw [hnext, hoffset] at hk hall
      refine ⟨m + k, s', hstep.trans ?_ (by omega), by omega, fun hin => ?_, Or.inl ?_⟩
      · rwa [BitVec.add_assoc]
      · have := hall hin
        omega
      · -- a later failure is no error
        rcases hloop with hloop | ⟨h0, -⟩
        · rw [hloop, hnext, Nat.add_assoc]
        · rw [h0] at hnext
          simp at hnext
          omega
    · -- the copy fails
      rw [copyToUser_of_lt (by omega) (by rw [hdst, hlength]; omega)]
      simp only [if_pos (show (-efault : ℤ) ≠ 0 by decide)]
      refine ⟨0, { s with fs := fs' }, .zero hQ', Nat.zero_le _, fun hin => by omega, ?_⟩
      by_cases h0 : totalCount = 0
      · refine Or.inr ⟨h0, rfl, by omega, ?_⟩
        rw [if_neg (by rw [h0]; decide)]
      · have hpos' : totalCount.toNat ≠ 0 := fun h => h0 (BitVec.eq_of_toNat_eq h)
        refine Or.inl ?_
        rw [if_pos (by omega), hint]
        rfl

end

/-! ## Writing -/

section

variable {α : Type} {A : RamfsAlloc α} {hhdm : Word} {ok : α → ByteMem → (Word → Holding) → Prop}
variable {s : Sys (RamfsFs α)} {fd f n buf count : Word}
variable {entry : Word → ℕ → Word} {data : Word → ℕ → BitVec 8}

/-- From `s` to `s'` the bytes `bs` were stored at the position of the file `n`, and nothing else
was. -/
structure Stored (A : RamfsAlloc α) (ok : α → ByteMem → (Word → Holding) → Prop) (f n : Word)
    (data : Word → ℕ → BitVec 8) (bs : List (BitVec 8)) (s s' : Sys (RamfsFs α)) : Prop where
  fs : ∃ entry, s'.fs.Ok ok entry
    (Function.update data n (overlay (data n) (s.files.file f).offset.toNat bs))
  tree : s'.fs.tree = s.fs.tree
  mem : s'.mem = s.mem
  files : s'.files = s.files.setOffset f ((s.files.file f).offset + BitVec.ofNat 64 bs.length)
  size : (s'.fs.file n).size.toNat = if bs.length = 0 then (s.fs.file n).size.toNat
    else max (s.fs.file n).size.toNat ((s.files.file f).offset.toNat + bs.length)
  failures : A.failures s.fs.alloc ≤ A.failures s'.fs.alloc

theorem Stored.refl (hfs : s.fs.Ok ok entry data) : Stored A ok f n data [] s s where
  fs := ⟨entry, by rwa [overlay_nil, Function.update_eq_self]⟩
  tree := rfl
  mem := rfl
  files := (setOffset_self (BitVec.add_zero _).symm).symm
  size := rfl
  failures := le_rfl

theorem Stored.trans {s₁ s' : Sys (RamfsFs α)} {bs cs : List (BitVec 8)}
    (h : Stored A ok f n data bs s s₁)
    (h' : Stored A ok f n
      (Function.update data n (overlay (data n) (s.files.file f).offset.toNat bs)) cs s₁ s')
    (hend : (s.files.file f).offset.toNat + (bs.length + cs.length) < 2 ^ 64) :
    Stored A ok f n data (bs ++ cs) s s' := by
  have hnext : (s₁.files.file f).offset.toNat = (s.files.file f).offset.toNat + bs.length := by
    rw [h.files, file_setOffset_self, BitVec.toNat_add, BitVec.toNat_ofNat]
    omega
  refine ⟨?_, h'.tree.trans h.tree, h'.mem.trans h.mem, ?_, ?_, h.failures.trans h'.failures⟩
  · obtain ⟨entry, hfs⟩ := h'.fs
    rw [Function.update_self, hnext, overlay_overlay, Function.update_idem] at hfs
    exact ⟨entry, hfs⟩
  · rw [h'.files, h.files, setOffset_setOffset, file_setOffset_self, List.length_append,
      BitVec.ofNat_add, BitVec.add_assoc]
  · rw [h'.size, h.size, hnext, List.length_append]
    split <;> split <;> split <;> omega

/-- One round of the loop of `sys_write` on a file, whose copy succeeds. -/
theorem sysWriteLoop_succ {σ : Type} {vfs : Vfs σ} {s : Sys σ} {fs : σ} {totalCount : Word} {m : ℕ}
    (hmore : totalCount < count)
    (hcopy : (buf + totalCount).toNat + (chunkLen count totalCount).toNat ≤ vmmAddrSplit.toNat)
    (hwrite : vfs.write s.fs (s.files.file f).node (s.files.file f).offset
      (s.mem.bytes (buf + totalCount) (chunkLen count totalCount).toNat) = ((m : ℤ), fs))
    (hdevice : vfs.flags fs (s.files.file f).node &&& vfsChardevice = 0) (fuel : ℕ) :
    sysWriteLoop vfs f buf count (fuel + 1) s totalCount =
      let s := { s with
        fs
        touched := (buf + totalCount, (chunkLen count totalCount).toNat) :: s.touched
        files := s.files.advance f (BitVec.ofNat 64 m) }
      if m = 0 then some (totalCount.toInt, s)
      else sysWriteLoop vfs f buf count fuel s (totalCount + BitVec.ofNat 64 m) := by
  have hstream : ∀ touched, isChardevice vfs { s with fs, touched } f = false := by
    intro touched
    rw [isChardevice, hdevice]
    rfl
  rw [sysWriteLoop, if_neg (not_not.mpr hmore), copyFromUser_eq, if_pos hcopy]
  simp only [hwrite, ne_eq, not_true_eq_false, if_false, hstream, Bool.false_eq_true]
  by_cases hm : m = 0
  · subst hm
    have hfiles : s.files.advance f (BitVec.ofNat 64 0) = s.files :=
      setOffset_self (BitVec.add_zero _).symm
    rw [if_neg (by decide), if_pos rfl, if_neg fun h => absurd h.1 (by decide), hfiles]
  · rw [if_pos (by omega), if_neg hm, BitVec.ofInt_natCast]

/-- In such a round the file takes a first part of the chunk, and all of it if no allocation
fails. -/
theorem sysWriteLoop_chunk (spec : RamfsFilesSpec A hhdm ok)
    (hmemory : ∀ {a mem F}, ok a mem F → ∀ i, (F i).bytes < 2 ^ 52)
    (hfs : s.fs.Ok ok entry data) (hn : n ∈ s.fs.tree.live)
    (hfile : (s.fs.tree.node n).flags &&& vfsFile ≠ 0)
    (hdevice : (s.fs.tree.node n).flags &&& vfsChardevice = 0)
    (hnode : (s.files.file f).node = n) {totalCount : Word} (hmore : totalCount < count)
    (hfit : (buf + totalCount).toNat + (chunkLen count totalCount).toNat ≤ vmmAddrSplit.toNat)
    (fuel : ℕ) :
    ∃ m s₁, Stored A ok f n data (s.mem.bytes (buf + totalCount) m) s s₁ ∧
      m ≤ (chunkLen count totalCount).toNat ∧
      (m = 0 ∨ (s.files.file f).offset.toNat + m < 2 ^ 63) ∧
      (A.failures s₁.fs.alloc = A.failures s.fs.alloc → m = (chunkLen count totalCount).toNat) ∧
      sysWriteLoop (ramfsVfs A hhdm) f buf count (fuel + 1) s totalCount =
        if m = 0 then some (totalCount.toInt, s₁)
        else sysWriteLoop (ramfsVfs A hhdm) f buf count fuel s₁
          (totalCount + BitVec.ofNat 64 m) := by
  have hlt := BitVec.lt_def.mp hmore
  have hchunk := toNat_chunkLen hlt.le
  obtain ⟨bs, hbs⟩ : ∃ bs, bs = s.mem.bytes (buf + totalCount) (chunkLen count totalCount).toNat :=
    ⟨_, rfl⟩
  have hlength : bs.length = (chunkLen count totalCount).toNat := by
    rw [hbs, ByteMem.length_bytes]
  obtain ⟨m, st, entry', hwrite, hm, hend, hmono, hall, hok, hflags, hsize⟩ :=
    hfs.writeChunk spec hmemory hn hfile (s.files.file f).offset
      (List.ne_nil_of_length_pos (show 0 < bs.length by omega)) (by omega)
  have hvfs : (ramfsVfs A hhdm).write s.fs (s.files.file f).node (s.files.file f).offset
      (s.mem.bytes (buf + totalCount) (chunkLen count totalCount).toNat) =
      ((m : ℤ), s.fs.setState n st) := by
    rw [← hbs, hnode]
    simp only [ramfsVfs, hwrite]
  have htake : bs.take m = s.mem.bytes (buf + totalCount) m := by
    have hsum : (chunkLen count totalCount).toNat = m + (bs.length - m) := by omega
    rw [hbs, hsum, ByteMem.bytes_add, List.take_left' (ByteMem.length_bytes ..)]
  rw [hlength] at hm hall
  refine ⟨m, { s with
      fs := s.fs.setState n st
      touched := (buf + totalCount, (chunkLen count totalCount).toNat) :: s.touched
      files := s.files.advance f (BitVec.ofNat 64 m) },
    ⟨⟨entry', htake ▸ hok⟩, rfl, rfl, ?_, ?_, hmono⟩, hm, hend, hall,
    sysWriteLoop_succ hmore hfit hvfs (by rw [hnode]; exact hdevice) fuel⟩
  · rw [ByteMem.length_bytes]
    rfl
  · rw [ByteMem.length_bytes, ← hsize]
    exact congrArg (fun node => RamfsNode.size node |>.toNat) (Function.update_self ..)

/-- The loop of `sys_write` on a file stores the next bytes of the buffer, and all of them if the
buffer is in the user half and no allocation fails. Only a failed copy in the first round is an
error. -/
theorem sysWriteLoop_eq (spec : RamfsFilesSpec A hhdm ok)
    (hmemory : ∀ {a mem F}, ok a mem F → ∀ i, (F i).bytes < 2 ^ 52)
    (hfs : s.fs.Ok ok entry data) (hn : n ∈ s.fs.tree.live)
    (hfile : (s.fs.tree.node n).flags &&& vfsFile ≠ 0)
    (hdevice : (s.fs.tree.node n).flags &&& vfsChardevice = 0)
    (hnode : (s.files.file f).node = n) {totalCount : Word}
    (hle : totalCount.toNat ≤ count.toNat)
    (hbuf : totalCount = 0 ∨ buf.toNat + totalCount.toNat ≤ vmmAddrSplit.toNat) {fuel : ℕ}
    (hfuel : count.toNat - totalCount.toNat < fuel) :
    ∃ k s', Stored A ok f n data (s.mem.bytes (buf + totalCount) k) s s' ∧
      k ≤ count.toNat - totalCount.toNat ∧ (k = 0 ∨ (s.files.file f).offset.toNat + k < 2 ^ 63) ∧
      (buf.toNat + count.toNat ≤ vmmAddrSplit.toNat →
        A.failures s'.fs.alloc = A.failures s.fs.alloc → k = count.toNat - totalCount.toNat) ∧
      (sysWriteLoop (ramfsVfs A hhdm) f buf count fuel s totalCount =
          some (((totalCount.toNat + k : ℕ) : ℤ), s') ∨
        totalCount = 0 ∧ k = 0 ∧ s' = s ∧ vmmAddrSplit.toNat < buf.toNat + count.toNat ∧
          sysWriteLoop (ramfsVfs A hhdm) f buf count fuel s totalCount = some (-efault, s')) := by
  have hsplit : vmmAddrSplit.toNat = 2 ^ 47 := rfl
  induction fuel generalizing s entry data totalCount with
  | zero => omega
  | succ fuel ih =>
    have htotal : Transferred buf count totalCount := ⟨hle, hbuf⟩
    have hint := htotal.toInt_eq
    have hdst := htotal.toNat_add
    have hchunk := toNat_chunkLen hle
    by_cases hmore : totalCount < count
    swap
    · -- everything was transferred
      have hend : count.toNat ≤ totalCount.toNat := BitVec.not_lt.mp hmore
      refine ⟨0, s, .refl hfs, Nat.zero_le _, Or.inl rfl, fun _ _ => by omega, Or.inl ?_⟩
      rw [sysWriteLoop, if_pos hmore, hint]
      rfl
    have hlt := BitVec.lt_def.mp hmore
    by_cases hfit : (buf + totalCount).toNat + (chunkLen count totalCount).toNat ≤ vmmAddrSplit.toNat
    · obtain ⟨m, s₁, hfirst, hm, hend, hall, hround⟩ :=
        sysWriteLoop_chunk spec hmemory hfs hn hfile hdevice hnode hmore hfit fuel
      rw [hround]
      by_cases hm0 : m = 0
      · -- no page for the first byte
        subst hm0
        refine ⟨0, s₁, hfirst, Nat.zero_le _, hend, fun _ hsf => ?_, Or.inl ?_⟩
        · have := hall hsf
          omega
        · rw [if_pos rfl, hint]
          rfl
      · have hfiles := hfirst.files
        rw [ByteMem.length_bytes] at hfiles
        obtain ⟨hnext', hnext⟩ := htotal.add (n := m) (by omega) (by omega)
        have hoffset₁ : (s₁.files.file f).offset.toNat = (s.files.file f).offset.toNat + m := by
          rw [hfiles, file_setOffset_self, BitVec.toNat_add, BitVec.toNat_ofNat]
          omega
        have hnode₁ : (s₁.files.file f).node = n := by
          rw [hfiles, file_setOffset_self]
          exact hnode
        obtain ⟨entry₁, hfs₁⟩ := hfirst.fs
        obtain ⟨k, s', hrest, hk, hend', hall', hloop⟩ := @ih s₁ entry₁ _ hfs₁
          (by rwa [hfirst.tree]) (by rwa [hfirst.tree]) (by rwa [hfirst.tree]) hnode₁
          (totalCount + BitVec.ofNat 64 m) hnext'.le hnext'.low (by omega)
        rw [hnext] at hk hall'
        rw [hoffset₁] at hend'
        rw [hfirst.mem] at hrest
        rw [if_neg hm0]
        refine ⟨m + k, s', ?_, by omega, by omega, fun hin hsf => ?_, Or.inl ?_⟩
        · rw [ByteMem.bytes_add, BitVec.add_assoc]
          refine hfirst.trans hrest ?_
          rw [ByteMem.length_bytes, ByteMem.length_bytes]
          omega
        · have h₁ := hfirst.failures
          have h₂ := hrest.failures
          have := hall' hin (by omega)
          omega
        · -- a later failure is no error
          rcases hloop with hloop | ⟨h0, -⟩
          · rw [hloop, hnext, Nat.add_assoc]
          · rw [h0] at hnext
            simp at hnext
            omega
    · -- the copy fails
      refine ⟨0, s, .refl hfs, Nat.zero_le _, Or.inl rfl, fun hin => by omega, ?_⟩
      rw [sysWriteLoop, if_neg (not_not.mpr hmore), copyFromUser_eq, if_neg hfit]
      simp only [if_pos (show (-efault : ℤ) ≠ 0 by decide)]
      by_cases h0 : totalCount = 0
      · refine Or.inr ⟨h0, trivial, trivial, by omega, ?_⟩
        rw [if_neg (by rw [h0]; decide)]
      · have hpos' : totalCount.toNat ≠ 0 := fun h => h0 (BitVec.eq_of_toNat_eq h)
        refine Or.inl ?_
        rw [if_pos (by omega), hint]
        rfl

/-! ## The calls -/

/-- The descriptor `fd` of the running task is open, through the file `f`, on the regular file `n` of
the ramfs. -/
structure RegularFile (fd f n : Word) (s : Sys (RamfsFs α)) : Prop where
  task : s.files.current ≠ 0
  slot : ∃ i, fdIndex (toCInt fd) = some i ∧ s.files.fds s.files.current i = f
  ne_null : f ≠ 0
  node : (s.files.file f).node = n
  live : n ∈ s.fs.tree.live
  isFile : (s.fs.tree.node n).flags &&& vfsFile ≠ 0
  notDevice : (s.fs.tree.node n).flags &&& vfsChardevice = 0

/-- The two file systems have the same nodes with the same data. -/
def RamfsFs.Same (fs fs' : RamfsFs α) : Prop := fs'.tree = fs.tree ∧ ∀ m, fs'.state m = fs.state m

theorem RamfsFs.Same.setState {fs fs' : RamfsFs α} (h : fs.Same fs') (n : Word) :
    fs.Same (fs'.setState n (fs'.state n)) := by
  refine ⟨h.1, fun m => ?_⟩
  rw [← h.2 m]
  by_cases hm : m = n
  · subst hm
    exact RamfsFs.state_setState_self _ _ rfl
  · simp only [RamfsFs.state, RamfsFs.setState, Function.update_of_ne hm]

/-- In a ramfs a regular file is read as the bytes that it holds. -/
theorem RamfsFs.Ok.readsFile {fs : RamfsFs α} (h : fs.Ok ok entry data) (hlive : n ∈ fs.tree.live)
    (hfile : (fs.tree.node n).flags &&& vfsFile ≠ 0)
    (hdevice : (fs.tree.node n).flags &&& vfsChardevice = 0) :
    ReadsFile (ramfsVfs A hhdm) fs.Same n (data n) (fs.file n).size.toNat where
  hasRead _ _ := rfl
  notDevice fs' hsame := by
    change (fs'.tree.node n).flags &&& vfsChardevice = 0
    rw [hsame.1, hdevice]
  read fs' hsame offset len := by
    refine ⟨fs'.setState n (fs'.state n), hsame.setState n, ?_⟩
    have hread : ReadsAs A hhdm (fs.state n) (data n) := h.readsAs hlive hfile
    simp only [ramfsVfs, hsame.2 n, hread offset len]
    rfl

theorem RegularFile.withFd_eq (h : RegularFile fd f n s) (ptr : Word)
    (next : Word → Option (Int × Sys (RamfsFs α))) :
    withFd s fd ptr next = if ptr = 0 then some (-efault, s) else next f := by
  obtain ⟨i, hi, hslot⟩ := h.slot
  simp only [withFd, hi, currentTaskFds, if_neg h.task, hslot]

/-- What `sys_read` on a regular file does. -/
theorem RegularFile.sysRead_eq (h : RegularFile fd f n s) (hfs : s.fs.Ok ok entry data)
    (buf count : Word) :
    (buf = 0 ∧ sysRead (ramfsVfs A hhdm) s fd buf count = some (-efault, s)) ∨
    buf ≠ 0 ∧ ∃ k s', Delivered s.fs.Same f buf (data n) k s s' ∧
      k ≤ min count.toNat ((s.fs.file n).size.toNat - (s.files.file f).offset.toNat) ∧
      (buf.toNat + count.toNat ≤ vmmAddrSplit.toNat →
        k = min count.toNat ((s.fs.file n).size.toNat - (s.files.file f).offset.toNat)) ∧
      (sysRead (ramfsVfs A hhdm) s fd buf count = some ((k : ℤ), s') ∨
        k = 0 ∧ vmmAddrSplit.toNat < buf.toNat + count.toNat ∧
          sysRead (ramfsVfs A hhdm) s fd buf count = some (-efault, s')) := by
  rw [sysRead, h.withFd_eq]
  by_cases hbuf : buf = 0
  · exact Or.inl ⟨hbuf, if_pos hbuf⟩
  have hread : (ramfsVfs A hhdm).hasRead s.fs (s.files.file f).node = true := rfl
  obtain ⟨k, s', hdelivered, hk, hall, hloop⟩ :=
    @sysReadLoop_eq _ (ramfsVfs A hhdm) s f n buf count s.fs.Same (data n) _
      (hfs.readsFile h.live h.isFile h.notDevice) (s.fs.file n).size.isLt ⟨rfl, fun _ => rfl⟩ h.node
      0 (Nat.zero_le _) (Or.inl rfl) (count.toNat + 1) (Nat.lt_succ_self _)
  rw [show (0 : Word).toNat = 0 from rfl, Nat.sub_zero] at hk hall
  rw [show (0 : Word).toNat = 0 from rfl, Nat.zero_add] at hloop
  rw [show buf + 0 = buf from BitVec.add_zero _] at hdelivered
  simp only [if_neg hbuf, if_neg h.ne_null, hread, Bool.not_true, Bool.false_eq_true, if_false]
  exact Or.inr ⟨hbuf, k, s', hdelivered, hk, hall, hloop.imp_right fun hfault => hfault.2⟩

/-- What `sys_write` on a regular file that is open for writing does. -/
theorem RegularFile.sysWrite_eq (spec : RamfsFilesSpec A hhdm ok)
    (hmemory : ∀ {a mem F}, ok a mem F → ∀ i, (F i).bytes < 2 ^ 52)
    (h : RegularFile fd f n s) (hfs : s.fs.Ok ok entry data)
    (hflags : (s.files.file f).flags &&& oWronly ≠ 0 ∨ (s.files.file f).flags &&& oRdwr ≠ 0)
    (buf count : Word) :
    (buf = 0 ∧ sysWrite (ramfsVfs A hhdm) s fd buf count = some (-efault, s)) ∨
    buf ≠ 0 ∧ ∃ k s', Stored A ok f n data (s.mem.bytes buf k) s s' ∧ k ≤ count.toNat ∧
      (k = 0 ∨ (s.files.file f).offset.toNat + k < 2 ^ 63) ∧
      (buf.toNat + count.toNat ≤ vmmAddrSplit.toNat →
        A.failures s'.fs.alloc = A.failures s.fs.alloc → k = count.toNat) ∧
      (sysWrite (ramfsVfs A hhdm) s fd buf count = some ((k : ℤ), s') ∨
        k = 0 ∧ s' = s ∧ vmmAddrSplit.toNat < buf.toNat + count.toNat ∧
          sysWrite (ramfsVfs A hhdm) s fd buf count = some (-efault, s')) := by
  rw [sysWrite, h.withFd_eq]
  by_cases hbuf : buf = 0
  · exact Or.inl ⟨hbuf, if_pos hbuf⟩
  have hwrite : (ramfsVfs A hhdm).hasWrite s.fs (s.files.file f).node = true := rfl
  have haccess : ¬ ((s.files.file f).flags &&& oWronly = 0 ∧ (s.files.file f).flags &&& oRdwr = 0) :=
    fun hnone => hflags.elim (fun hne => hne hnone.1) fun hne => hne hnone.2
  obtain ⟨k, s', hstored, hk, hend, hall, hloop⟩ :=
    @sysWriteLoop_eq _ A hhdm ok s f n buf count entry data spec hmemory hfs h.live h.isFile
      h.notDevice h.node 0 (Nat.zero_le _) (Or.inl rfl) (count.toNat + 1) (Nat.lt_succ_self _)
  rw [show (0 : Word).toNat = 0 from rfl, Nat.sub_zero] at hk hall
  rw [show (0 : Word).toNat = 0 from rfl, Nat.zero_add] at hloop
  rw [show buf + 0 = buf from BitVec.add_zero _] at hstored
  simp only [if_neg hbuf, if_neg h.ne_null, if_neg haccess, hwrite, Bool.not_true,
    Bool.false_eq_true, if_false]
  exact Or.inr ⟨hbuf, k, s', hstored, hk, hend, hall, hloop.imp_right fun hfault => hfault.2⟩

/-- A single `ramfs_ops_write` of all the bytes returns, and if it stores them all, which it does if
no allocation fails, it leaves the file that the loop leaves. -/
theorem Stored.same_as_opsWrite {s' : Sys (RamfsFs α)} {bs : List (BitVec 8)}
    (spec : RamfsFilesSpec A hhdm ok) (h : RegularFile fd f n s) (hfs : s.fs.Ok ok entry data)
    (hstored : Stored A ok f n data bs s s')
    (hend : bs.length = 0 ∨ (s.files.file f).offset.toNat + bs.length < 2 ^ 63) :
    ∃ (m : ℕ) (st : RamfsState α),
      ramfsOpsWrite A hhdm (s.fs.state n) (s.files.file f).offset bs = some ((m : ℤ), st) ∧
      (A.failures st.alloc = A.failures s.fs.alloc → m = bs.length) ∧
      (m = bs.length → st.node.size = (s'.fs.file n).size ∧
        ∃ bytes, ReadsAs A hhdm st bytes ∧ ReadsAs A hhdm (s'.fs.state n) bytes) := by
  have hafter : ReadsAs A hhdm (s'.fs.state n)
      (overlay (data n) (s.files.file f).offset.toNat bs) := by
    obtain ⟨entry', hfs'⟩ := hstored.fs
    have hread : ReadsAs A hhdm (s'.fs.state n)
        (Function.update data n (overlay (data n) (s.files.file f).offset.toNat bs) n) :=
      hfs'.readsAs (hstored.tree ▸ h.live) (hstored.tree ▸ h.isFile)
    rwa [Function.update_self] at hread
  by_cases hnil : bs.length = 0
  · obtain rfl := List.length_eq_zero_iff.mp hnil
    have hsize := hstored.size
    rw [if_pos hnil] at hsize
    have hread : ReadsAs A hhdm (s.fs.state n) (data n) := hfs.readsAs h.live h.isFile
    have hfile : ¬ (s.fs.state n).node.flags &&& vfsFile = 0 := h.isFile
    refine ⟨0, s.fs.state n, ?_, fun _ => rfl,
      fun _ => ⟨(BitVec.eq_of_toNat_eq hsize).symm, _, hread, ?_⟩⟩
    · rw [ramfsOpsWrite, if_neg hfile]
      rfl
    · rwa [overlay_nil] at hafter
  · obtain ⟨m, st, entry', hwrite, hm, -, hall, hok, hflags, hsize⟩ :=
      (hfs.ramfsOk h.live).opsWrite (spec.allocSpec _ _ _) h.isFile (hend.resolve_left hnil)
    refine ⟨m, st, hwrite, hall, ?_⟩
    rintro rfl
    rw [List.take_length] at hok
    exact ⟨BitVec.eq_of_toNat_eq (hsize.trans hstored.size.symm), _,
      hok.toRamfsRep.readsAs (hflags ▸ h.isFile), hafter⟩

/-- Input and output in chunks is input and output in one piece. A `sys_read` on a regular file with
a buffer in the user half returns what one `ramfs_ops_read` of `count` bytes returns. Whatever the
buffer is, a result `r` that is not negative says that the bytes of one `ramfs_ops_read` of `r` bytes
went to the buffer and the offset advanced by `r`, and a negative result that nothing changed. A
`sys_write` returns `count` if the buffer is in the user half and no allocation fails. Whatever
fails, a result `r` that is not negative says that the file holds the first `r` bytes of the buffer
over its old contents, as after one `ramfs_ops_write` of them, with the offset advanced by `r`, and a
negative result that nothing changed. -/
theorem chunked_io_is_one_shot (spec : RamfsFilesSpec A hhdm ok)
    (hmemory : ∀ {a mem F}, ok a mem F → ∀ i, (F i).bytes < 2 ^ 52)
    (h : RegularFile fd f n s) (hfs : s.fs.Ok ok entry data) (buf count : Word) :
    (∃ r s', sysRead (ramfsVfs A hhdm) s fd buf count = some (r, s') ∧ s.fs.Same s'.fs ∧
      (buf ≠ 0 → buf.toNat + count.toNat ≤ vmmAddrSplit.toNat → ∃ bs,
        ramfsOpsRead A hhdm (s.fs.state n) (s.files.file f).offset count =
          some (.ok bs, s.fs.state n) ∧
        bs.length = min count.toNat ((s.fs.file n).size.toNat - (s.files.file f).offset.toNat) ∧
        r = bs.length) ∧
      (0 ≤ r → ∃ bs,
        ramfsOpsRead A hhdm (s.fs.state n) (s.files.file f).offset (BitVec.ofInt 64 r) =
          some (.ok bs, s.fs.state n) ∧
        (bs.length : ℤ) = r ∧ s'.mem = s.mem.write buf bs ∧
        s'.files = s.files.setOffset f ((s.files.file f).offset + BitVec.ofInt 64 r)) ∧
      (r < 0 → s'.mem = s.mem ∧ s'.files = s.files)) ∧
    ((s.files.file f).flags &&& oWronly ≠ 0 ∨ (s.files.file f).flags &&& oRdwr ≠ 0 →
      ∃ r s', sysWrite (ramfsVfs A hhdm) s fd buf count = some (r, s') ∧ s'.mem = s.mem ∧
      (buf ≠ 0 → buf.toNat + count.toNat ≤ vmmAddrSplit.toNat →
        A.failures s'.fs.alloc = A.failures s.fs.alloc → r = count.toNat) ∧
      (0 ≤ r → Stored A ok f n data (s.mem.bytes buf r.toNat) s s' ∧
        ∃ m st, ramfsOpsWrite A hhdm (s.fs.state n) (s.files.file f).offset
            (s.mem.bytes buf r.toNat) = some (m, st) ∧
          (A.failures st.alloc = A.failures s.fs.alloc → m = r) ∧
          (m = r → st.node.size = (s'.fs.file n).size ∧
            ∃ bytes, ReadsAs A hhdm st bytes ∧ ReadsAs A hhdm (s'.fs.state n) bytes)) ∧
      (r < 0 → s'.fs = s.fs ∧ s'.files = s.files)) := by
  have hefault : ¬ (0 : ℤ) ≤ -efault := by decide
  have hreads : ReadsAs A hhdm (s.fs.state n) (data n) := hfs.readsAs h.live h.isFile
  constructor
  · rcases @RegularFile.sysRead_eq _ A hhdm _ _ _ _ _ _ _ h hfs buf count with
      ⟨hbuf, hcall⟩ | ⟨hbuf, k, s', hdelivered, hk, hall, hcall | ⟨rfl, hout, hcall⟩⟩
    · exact ⟨_, s, hcall, ⟨rfl, fun _ => rfl⟩, fun hne => absurd hbuf hne,
        fun h0 => absurd h0 hefault, fun _ => ⟨rfl, rfl⟩⟩
    · have hcount : (BitVec.ofInt 64 k).toNat = k := by
        rw [BitVec.ofInt_natCast, BitVec.toNat_ofNat]
        have := count.isLt
        omega
      have hmin : min k ((s.fs.state n).node.size.toNat - (s.files.file f).offset.toNat) = k :=
        Nat.min_eq_left (hk.trans (Nat.min_le_right _ _))
      refine ⟨k, s', hcall, hdelivered.fs, fun _ hin => ⟨_, hreads _ _, length_dataBytes .., ?_⟩,
        fun _ => ⟨_, hreads _ _, ?_, ?_, ?_⟩, fun hneg => absurd hneg (by omega)⟩
      · rw [length_dataBytes]
        exact congrArg _ (hall hin)
      · rw [length_dataBytes, hcount, hmin]
      · rw [hcount, hmin, hdelivered.mem]
      · rw [hdelivered.files, BitVec.ofInt_natCast]
    · refine ⟨_, s', hcall, hdelivered.fs, fun _ hin => by omega, fun h0 => absurd h0 hefault,
        fun _ => ⟨?_, ?_⟩⟩
      · rw [hdelivered.mem]
        exact ByteMem.write_nil ..
      · rw [hdelivered.files]
        exact setOffset_self (BitVec.add_zero _).symm
  · intro hflags
    rcases h.sysWrite_eq spec hmemory hfs hflags buf count with
      ⟨hbuf, hcall⟩ | ⟨hbuf, k, s', hstored, hk, hend, hall, hcall | ⟨-, rfl, hout, hcall⟩⟩
    · exact ⟨_, s, hcall, rfl, fun hne => absurd hbuf hne, fun h0 => absurd h0 hefault,
        fun _ => ⟨rfl, rfl⟩⟩
    · refine ⟨k, s', hcall, hstored.mem, fun _ hin hsf => congrArg _ (hall hin hsf),
        fun _ => ⟨hstored, ?_⟩, fun hneg => absurd hneg (by omega)⟩
      have hlength := s.mem.length_bytes buf k
      obtain ⟨m, st, hwrite, hfull, hsame⟩ :=
        hstored.same_as_opsWrite spec h hfs (by rwa [hlength])
      rw [hlength] at hfull hsame
      exact ⟨m, st, hwrite, fun hsf => congrArg _ (hfull hsf),
        fun hm => hsame (Int.ofNat_inj.mp hm)⟩
    · exact ⟨_, s', hcall, rfl, fun _ hin => by omega, fun h0 => absurd h0 hefault,
        fun _ => ⟨rfl, rfl⟩⟩

end

/-- A file without data, open for reading and writing, and a user memory where every byte tells its
address. -/
def openedFile : Sys (RamfsFs Bump) :=
  { oneFileListing with
    mem := fun x => x.setWidth 8
    files := { oneFileListing.files with
      file := fun _ => { node := 0x2000, offset := 0, flags := oRdwr, refCount := 1 } } }

theorem openedFile_ok :
    RegularFile 3 0x5000 0x2000 openedFile ∧
      openedFile.fs.Ok (Bump.FilesOk exampleHhdm) (fun _ _ => 0) fun _ _ => 0 := by
  refine ⟨⟨by decide, ⟨⟨3, by decide⟩, by decide +kernel, rfl⟩, by decide, rfl, by decide +kernel,
    by decide +kernel, by decide +kernel⟩, ?_⟩
  exact RamfsFs.ok_of_no_data fun n => ite_self _

/-- A write of 600 bytes, in two chunks: no answer of the allocators is null, all the bytes are
written, and the file then holds them. -/
theorem chunked_io_is_one_shot_write :
    RegularFile 3 0x5000 0x2000 openedFile ∧ ∃ s',
      sysWrite (ramfsVfs (bumpAlloc exampleHhdm) exampleHhdm) openedFile 3 0x1000 600 =
        some (600, s') ∧
      (bumpAlloc exampleHhdm).failures s'.fs.alloc = 0 ∧
      Stored (bumpAlloc exampleHhdm) (Bump.FilesOk exampleHhdm) 0x5000 0x2000 (fun _ _ => 0)
        (openedFile.mem.bytes 0x1000 600) openedFile s' ∧
      ramfsOpsRead (bumpAlloc exampleHhdm) exampleHhdm (s'.fs.state 0x2000) 510 4 =
        some (.ok [0xfe, 0xff, 0x00, 0x01], s'.fs.state 0x2000) := by
  obtain ⟨hopen, hfs⟩ := openedFile_ok
  obtain ⟨-, hwrite⟩ := chunked_io_is_one_shot (bumpAlloc_filesSpec exampleHhdm)
    (fun h i => by
      have := h.bytes i
      have hhhdm : exampleHhdm.toNat = 0xffff800000000000 := rfl
      omega) hopen hfs 0x1000 600
  obtain ⟨r, s', hcall, -, hall, hstored, -⟩ := hwrite (Or.inr (by decide))
  have hrun : (sysWrite (ramfsVfs (bumpAlloc exampleHhdm) exampleHhdm) openedFile 3 0x1000 600).map
      (fun r => (bumpAlloc exampleHhdm).failures r.2.fs.alloc) = some 0 := by decide +kernel
  rw [hcall] at hrun
  have hnone : (bumpAlloc exampleHhdm).failures s'.fs.alloc = 0 := Option.some.inj hrun
  obtain rfl : r = 600 := hall (by decide) (by decide) hnone
  have hbytes := (hstored (by decide)).1
  refine ⟨hopen, s', hcall, hnone, hbytes, ?_⟩
  obtain ⟨entry, hfs'⟩ := hbytes.fs
  have hread : ReadsAs (bumpAlloc exampleHhdm) exampleHhdm (s'.fs.state 0x2000) _ :=
    hfs'.readsAs (hbytes.tree ▸ hopen.live) (hbytes.tree ▸ hopen.isFile)
  have hsize := hbytes.size
  rw [ByteMem.length_bytes, if_neg (by decide)] at hsize
  have hsize' : (s'.fs.state 0x2000).node.size.toNat = 600 := hsize.trans (by decide +kernel)
  rw [hread, hsize']
  exact congrArg (fun bs => some (Except.ok bs, s'.fs.state 0x2000)) (by decide +kernel)

end Pros
