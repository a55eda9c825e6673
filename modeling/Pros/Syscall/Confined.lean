import Pros.Syscall.Model

/-!
# User pointers are confined

`copy_from_user` and `copy_to_user` refuse a range that wraps or that reaches the kernel half, and
the loops of the system calls only go through them. So what a call reads or writes through a pointer
argument lies below `VMM_ADDR_SPLIT`, and neither its result nor what it leaves behind depends on
the bytes above. A range that reaches the split is not always an error: what was transferred from
below the split before the copy failed is counted and returned.

`sys_open` and `sys_openat` read their path without these copies.
-/

namespace Pros

variable {σ : Type} {arch : Arch} {vfs : Vfs σ} {s s' t : Sys σ}

/-- From `s` to `s'` only ranges below the split were read or written through user pointers. -/
structure Sys.Confined (s s' : Sys σ) : Prop where
  touched : ∃ new, s'.touched = new ++ s.touched ∧
    ∀ r ∈ new, r.1.toNat + r.2 ≤ vmmAddrSplit.toNat
  mem : ∀ x, vmmAddrSplit ≤ x → s'.mem x = s.mem x

/-- The states differ in the memory above the split only. -/
structure Sys.SameBelow (s t : Sys σ) : Prop where
  mem : ∀ x, x < vmmAddrSplit → t.mem x = s.mem x
  touched : t.touched = s.touched
  fs : t.fs = s.fs
  files : t.files = s.files

/-- The memories agree below the split. -/
def AgreeBelow (m m' : ByteMem) : Prop := ∀ x < vmmAddrSplit, m' x = m x

/-- A call that is confined, whose outcome does not depend on memory above the split, and that
returns a value `res` with `ok res`: with any memory `m` that agrees with that of `s` below the split
it does what it does from `s`. -/
def ConfinedCall (call : Sys σ → Option (Int × Sys σ)) (ok : Int → Prop) (s : Sys σ) : Prop :=
  ∃ res s', s.Confined s' ∧ ok res ∧ ∀ m, AgreeBelow s.mem m →
    ∃ m', call { s with mem := m } = some (res, { s' with mem := m' }) ∧ AgreeBelow s'.mem m' ∧
      (m = s.mem → m' = s'.mem)

theorem Sys.Confined.refl (s : Sys σ) : s.Confined s := ⟨⟨[], rfl, by simp⟩, fun _ _ => rfl⟩

theorem Sys.Confined.trans {s'' : Sys σ} (h : s.Confined s') (h' : s'.Confined s'') :
    s.Confined s'' := by
  obtain ⟨new, hnew, hlow⟩ := h.touched
  obtain ⟨new', hnew', hlow'⟩ := h'.touched
  refine ⟨⟨new' ++ new, by rw [hnew', hnew, List.append_assoc], fun r hr => ?_⟩,
    fun x hx => (h'.mem x hx).trans (h.mem x hx)⟩
  rcases List.mem_append.mp hr with hr | hr
  · exact hlow' r hr
  · exact hlow r hr

/-- The file systems and the open files are not part of the memory here. -/
theorem Sys.Confined.setFiles (h : s.Confined s') (fs : σ) (files : Files) :
    s.Confined { s' with fs, files } := ⟨h.touched, h.mem⟩

namespace ConfinedCall

variable {call : Sys σ → Option (Int × Sys σ)} {ok : Int → Prop}

/-- A call that returns after it looked at the file systems and the open files. -/
theorem done (res : Int) (fs : σ) (files : Files) (hok : ok res)
    (hcall : ∀ m, call { s with mem := m } = some (res, { s with mem := m, fs, files })) :
    ConfinedCall call ok s :=
  ⟨res, { s with fs, files }, (Sys.Confined.refl s).setFiles fs files, hok,
    fun m hm => ⟨m, hcall m, hm, id⟩⟩

/-- A call that goes on as `call'` from a later state. -/
theorem step (s' : Sys σ) (call' : Sys σ → Option (Int × Sys σ)) (h : ConfinedCall call' ok s')
    (hconf : s.Confined s')
    (hcall : ∀ m, AgreeBelow s.mem m → ∃ m', AgreeBelow s'.mem m' ∧ (m = s.mem → m' = s'.mem) ∧
      call { s with mem := m } = call' { s' with mem := m' }) :
    ConfinedCall call ok s := by
  obtain ⟨res, s'', hconf', hok, hsame⟩ := h
  refine ⟨res, s'', hconf.trans hconf', hok, fun m hm => ?_⟩
  obtain ⟨m', hm', hself, hstep⟩ := hcall m hm
  obtain ⟨m'', hres, hm'', hself'⟩ := hsame m' hm'
  exact ⟨m'', hstep.trans hres, hm'', fun hms => hself' (hself hms)⟩

/-- A call that goes on with other file systems and open files. -/
theorem stepFiles {call' : Sys σ → Option (Int × Sys σ)} (fs : σ) (files : Files)
    (h : ConfinedCall call' ok { s with fs, files })
    (hcall : ∀ m, call { s with mem := m } = call' { s with mem := m, fs, files }) :
    ConfinedCall call ok s :=
  .step _ call' h ((Sys.Confined.refl s).setFiles fs files) fun m hm => ⟨m, hm, id, hcall m⟩

end ConfinedCall

/-! ## The copies -/

/-- `copy_to_user` refuses, or writes below the split. -/
theorem copyToUser_spec (s : Sys σ) (dst : Word) (bs : List (BitVec 8))
    (hlen : bs.length < 2 ^ 64) :
    (∀ m, copyToUser { s with mem := m } dst bs = (-efault, { s with mem := m })) ∨
      (dst.toNat + bs.length ≤ vmmAddrSplit.toNat ∧
        ∃ s' : Sys σ, s.Confined s' ∧
          ∀ m, AgreeBelow s.mem m → ∃ m', AgreeBelow s'.mem m' ∧ (m = s.mem → m' = s'.mem) ∧
            copyToUser { s with mem := m } dst bs = (0, { s' with mem := m' })) := by
  by_cases hrange : dst.toNat + bs.length ≤ vmmAddrSplit.toNat
  swap
  · exact Or.inl fun m => (copyToUser_eq _ dst hlen).trans (if_neg hrange)
  refine Or.inr ⟨hrange,
    { s with mem := s.mem.write dst bs, touched := (dst, bs.length) :: s.touched },
    ⟨⟨[(dst, bs.length)], rfl, by simpa using hrange⟩, fun x hx => ?_⟩,
    fun m hm => ⟨m.write dst bs, fun x hx => ?_, fun h => by rw [h],
      (copyToUser_eq _ dst hlen).trans (if_pos hrange)⟩⟩
  · refine if_neg fun hin => ?_
    have hsplit : vmmAddrSplit.toNat = 2 ^ 47 := rfl
    rw [BitVec.le_def] at hx
    bv_omega
  · simp only [ByteMem.write, hm x hx]

/-- `copy_from_user` refuses, or reads below the split. -/
theorem copyFromUser_spec (s : Sys σ) (src len : Word) :
    (∀ m, copyFromUser { s with mem := m } src len = (-efault, [], { s with mem := m })) ∨
      (src.toNat + len.toNat ≤ vmmAddrSplit.toNat ∧
        ∃ (bytes : List (BitVec 8)) (touched : List (Word × ℕ)), bytes.length = len.toNat ∧
          s.Confined { s with touched } ∧
          ∀ m, AgreeBelow s.mem m →
            copyFromUser { s with mem := m } src len = (0, bytes, { s with mem := m, touched })) := by
  have hsplit : vmmAddrSplit.toNat = 2 ^ 47 := rfl
  by_cases hrange : src.toNat + len.toNat ≤ vmmAddrSplit.toNat
  swap
  · exact Or.inl fun m => (copyFromUser_eq _ src len).trans (if_neg hrange)
  refine Or.inr ⟨hrange, s.mem.bytes src len.toNat, (src, len.toNat) :: s.touched,
    by simp [ByteMem.bytes], ⟨⟨[(src, len.toNat)], rfl, by simpa using hrange⟩, fun _ _ => rfl⟩,
    fun m hm => (copyFromUser_eq _ src len).trans ((if_pos hrange).trans ?_)⟩
  have hbytes : m.bytes src len.toNat = s.mem.bytes src len.toNat := by
    refine List.map_congr_left fun i hi => hm _ ?_
    rw [List.mem_range] at hi
    rw [BitVec.lt_def, BitVec.toNat_add, BitVec.toNat_ofNat]
    omega
  simp only [hbytes]

/-! ## The loops -/

/-- The result of a transfer is an error, zero, or a number of bytes that all lie below the
split. -/
def TransferOk (buf count : Word) (res : Int) : Prop :=
  res ≤ 0 ∨ (buf.toNat + res.toNat ≤ vmmAddrSplit.toNat ∧ res ≤ count.toNat)

theorem Transferred.ok {buf count total : Word} (h : Transferred buf count total) :
    TransferOk buf count total.toInt := by
  rw [h.toInt_eq]
  rcases h.low with rfl | hlow
  · exact Or.inl (by simp)
  · exact Or.inr ⟨by simpa using hlow, by exact_mod_cast h.le⟩

/-- The result of a loop that stops because a copy was refused. -/
theorem Transferred.ok_fault {buf count total : Word} (h : Transferred buf count total) :
    TransferOk buf count (if total.toInt > 0 then total.toInt else -efault) := by
  split
  · exact h.ok
  · exact Or.inl (by decide)

theorem chunkLen_bounds {count total : Word} (h : total < count) :
    0 < (chunkLen count total).toNat ∧ (chunkLen count total).toNat ≤ count.toNat - total.toNat := by
  rw [BitVec.lt_def] at h
  rw [toNat_chunkLen h.le]
  omega

/-- The loop of `sys_read`, by induction on the bytes still to read. -/
theorem sysReadLoop_confined (vfs : Vfs σ) (f : Word) {buf count : Word} {fuel : ℕ} {total : Word}
    (htotal : Transferred buf count total) (hfuel : count.toNat - total.toNat < fuel) :
    ConfinedCall (sysReadLoop vfs f buf count fuel · total) (TransferOk buf count) s := by
  induction fuel generalizing s total with
  | zero => omega
  | succ fuel ih =>
    by_cases hmore : total < count
    swap
    · exact .done _ s.fs s.files htotal.ok fun m => by rw [sysReadLoop, if_pos hmore]
    obtain ⟨hpos, hchunk⟩ := chunkLen_bounds hmore
    cases hread : vfs.read s.fs (s.files.file f).node (s.files.file f).offset
        (chunkLen count total) with
    | mk res fs =>
    cases res with
    | error e =>
      refine .done (if e > 0 ∧ total = 0 then -e else total.toInt) fs s.files ?_ fun m => ?_
      · split
        · exact Or.inl (by omega)
        · exact htotal.ok
      · simp only [sysReadLoop, if_neg (not_not.mpr hmore), hread]
    | ok bs =>
      cases bs with
      | nil =>
        exact .done _ fs s.files htotal.ok fun m => by
          simp only [sysReadLoop, if_neg (not_not.mpr hmore), hread]
      | cons b bs =>
        have hlen : (b :: bs).length ≤ (chunkLen count total).toNat :=
          vfs.read_le s.fs _ _ _ _ (by rw [hread])
        have hbound := count.isLt
        rcases copyToUser_spec { s with fs } (buf + total) (b :: bs) (by omega) with
          hfault | ⟨hlow, s₁, hconf, hcopy⟩
        · refine .done _ fs s.files htotal.ok_fault fun m => ?_
          simp only [sysReadLoop, if_neg (not_not.mpr hmore), hread, hfault]
          rfl
        obtain ⟨htotal', hsum⟩ := htotal.add (n := (b :: bs).length) (by omega) hlow
        -- the rest of the round, from the state after the copy
        refine .step s₁ (fun t₁ =>
          if isChardevice vfs t₁ f then
            some ((total + BitVec.ofNat 64 (b :: bs).length).toInt, t₁)
          else sysReadLoop vfs f buf count fuel
            { t₁ with files := t₁.files.advance f (BitVec.ofNat 64 (b :: bs).length) }
            (total + BitVec.ofNat 64 (b :: bs).length)) ?_ ⟨hconf.touched, hconf.mem⟩ ?_
        · by_cases hchar : isChardevice vfs s₁ f = true
          · exact .done _ s₁.fs s₁.files htotal'.ok fun m => if_pos hchar
          · exact .stepFiles s₁.fs (s₁.files.advance f (BitVec.ofNat 64 (b :: bs).length))
              (ih htotal' (by rw [hsum, List.length_cons]; omega)) fun m => if_neg hchar
        · intro m hm
          obtain ⟨m', hm', hself, hcopy'⟩ := hcopy m hm
          refine ⟨m', hm', hself, ?_⟩
          simp only [sysReadLoop, if_neg (not_not.mpr hmore), hread, hcopy', ne_eq,
            not_true_eq_false, if_false]

/-- The loop of `sys_write`, by induction on the bytes still to write. -/
theorem sysWriteLoop_confined (vfs : Vfs σ) (f : Word) {buf count : Word} {fuel : ℕ} {total : Word}
    (htotal : Transferred buf count total) (hfuel : count.toNat - total.toNat < fuel) :
    ConfinedCall (sysWriteLoop vfs f buf count fuel · total) (TransferOk buf count) s := by
  induction fuel generalizing s total with
  | zero => omega
  | succ fuel ih =>
    by_cases hmore : total < count
    swap
    · exact .done _ s.fs s.files htotal.ok fun m => by rw [sysWriteLoop, if_pos hmore]
    obtain ⟨hpos, hchunk⟩ := chunkLen_bounds hmore
    rcases copyFromUser_spec s (buf + total) (chunkLen count total) with
      hfault | ⟨hlow, bytes, touched, hlen, hconf, hcopy⟩
    · refine .done _ s.fs s.files htotal.ok_fault fun m => ?_
      simp only [sysWriteLoop, if_neg (not_not.mpr hmore), hfault]
      rfl
    cases hwrite : vfs.write s.fs (s.files.file f).node (s.files.file f).offset bytes with
    | mk actual fs =>
    have hle : actual ≤ bytes.length := by
      have hle := vfs.write_le s.fs (s.files.file f).node (s.files.file f).offset bytes
      rwa [hwrite] at hle
    -- the rest of the round, from the state after the copy
    refine .step _ (fun t₁ =>
      let t₁ := { t₁ with fs }
      if actual > 0 then
        if isChardevice vfs t₁ f then some ((total + BitVec.ofInt 64 actual).toInt, t₁)
        else sysWriteLoop vfs f buf count fuel
          { t₁ with files := t₁.files.advance f (BitVec.ofInt 64 actual) }
          (total + BitVec.ofInt 64 actual)
      else if actual < 0 ∧ total = 0 then some (actual, t₁)
      else some (total.toInt, t₁)) ?_ hconf fun m hm => ⟨m, hm, id, ?_⟩
    · by_cases hactual : actual > 0
      · obtain ⟨n, rfl⟩ : ∃ n : ℕ, actual = n := ⟨actual.toNat, by omega⟩
        obtain ⟨htotal', hsum⟩ := htotal.add (n := n) (by omega) (by omega)
        rw [← BitVec.ofInt_natCast] at htotal' hsum
        by_cases hchar : isChardevice vfs { s with touched, fs } f = true
        · exact .done _ fs s.files htotal'.ok fun m => (if_pos hactual).trans (if_pos hchar)
        · exact .stepFiles fs (s.files.advance f (BitVec.ofInt 64 n)) (ih htotal' (by omega))
            fun m => (if_pos hactual).trans (if_neg hchar)
      · by_cases herr : actual < 0 ∧ total = 0
        · exact .done actual fs s.files (Or.inl (by omega)) fun m =>
            (if_neg hactual).trans (if_pos herr)
        · exact .done _ fs s.files htotal.ok fun m => (if_neg hactual).trans (if_neg herr)
    · simp only [sysWriteLoop, if_neg (not_not.mpr hmore), hcopy m hm, hwrite, ne_eq,
        not_true_eq_false, if_false]

/-- The loop of `sys_getdents64`; every round but the last writes a record. -/
theorem getdentsLoop_confined (vfs : Vfs σ) (f : Word) {dirp count : Word} {fuel : ℕ} {total : Word}
    (htotal : Transferred dirp count total) (hfuel : count.toNat - total.toNat < fuel) :
    ConfinedCall (getdentsLoop vfs f dirp count fuel · total) (TransferOk dirp count) s := by
  have hsplit : vmmAddrSplit.toNat = 2 ^ 47 := rfl
  induction fuel generalizing s total with
  | zero => omega
  | succ fuel ih =>
    cases hread : vfs.readdir s.fs (s.files.file f).node ((s.files.file f).offset.setWidth 32) with
    | mk res rest =>
    obtain ⟨dirent, fs⟩ := rest
    -- an error counts when nothing was written
    have herror : ∀ e : Int, 0 ≤ e →
        TransferOk dirp count (if total = 0 then -e else total.toInt) := by
      intro e he
      split
      · exact Or.inl (by omega)
      · exact htotal.ok
    by_cases hres : res = 1
    swap
    · refine .done (if res = 0 then total.toInt else if total = 0 then -eio else total.toInt) fs
        s.files ?_ fun m => ?_
      · split
        · exact htotal.ok
        · exact herror eio (by decide)
      · simp only [getdentsLoop, hread, ne_eq, hres, not_false_eq_true, if_true]
        split
        · rfl
        · split <;> rfl
    obtain ⟨hmin, -, hmax⟩ := direntReclen_bounds dirent
    have htotalLt : total.toNat ≤ 2 ^ 47 := by
      rcases htotal.low with rfl | hlow
      · simp
      · omega
    have hsum : (total + BitVec.ofNat 64 (direntReclen dirent)).toNat =
        total.toNat + direntReclen dirent := by
      rw [BitVec.toNat_add, BitVec.toNat_ofNat]
      omega
    by_cases hfit : total + BitVec.ofNat 64 (direntReclen dirent) > count
    · refine .done _ fs s.files (herror einval (by decide)) fun m => ?_
      simp only [getdentsLoop, hread, ne_eq, hres, not_true_eq_false, if_false, if_pos hfit]
      split <;> rfl
    have hfit' : total.toNat + direntReclen dirent ≤ count.toNat := by
      rw [gt_iff_lt, BitVec.lt_def, hsum] at hfit
      omega
    have hlen := length_direntChunk dirent (s.files.file f).offset
    rcases copyToUser_spec { s with fs } (dirp + total)
        (direntChunk dirent (s.files.file f).offset) (by omega) with
      hfault | ⟨hlow, s₁, hconf, hcopy⟩
    · refine .done _ fs s.files (herror efault (by decide)) fun m => ?_
      have hne : (-efault : Int) ≠ 0 := by decide
      simp only [getdentsLoop, hread, ne_eq, hres, not_true_eq_false, if_false, if_neg hfit,
        hfault, hne, not_false_eq_true, if_true]
      split <;> rfl
    rw [hlen] at hlow
    obtain ⟨htotal', -⟩ := htotal.add (n := direntReclen dirent) (by omega) hlow
    refine .step s₁ (fun t₁ => getdentsLoop vfs f dirp count fuel
      { t₁ with files := t₁.files.advance f 1 }
      (total + BitVec.ofNat 64 (direntReclen dirent))) ?_ ⟨hconf.touched, hconf.mem⟩ ?_
    · exact .stepFiles s₁.fs (s₁.files.advance f 1) (ih htotal' (by omega)) fun m => rfl
    · intro m hm
      obtain ⟨m', hm', hself, hcopy'⟩ := hcopy m hm
      refine ⟨m', hm', hself, ?_⟩
      simp only [getdentsLoop, hread, ne_eq, hres, not_true_eq_false, if_false, if_neg hfit, hcopy']

/-! ## The calls -/

/-- A call that returns a value and changes nothing. -/
theorem ConfinedCall.pure {ok : Int → Prop} {res : Int} (hok : ok res) :
    ConfinedCall (fun t => some (res, t)) ok s :=
  .done res s.fs s.files hok fun _ => rfl

theorem transferOk_neg {buf count : Word} {e : Int} (he : 0 ≤ e) : TransferOk buf count (-e) :=
  Or.inl (by omega)

/-- A call that fails at once. -/
theorem ConfinedCall.fail {call : Sys σ → Option (Int × Sys σ)} {buf count : Word} (e : Int)
    (he : 0 ≤ e) (hcall : ∀ m, call { s with mem := m } = some (-e, { s with mem := m })) :
    ConfinedCall call (TransferOk buf count) s :=
  .done (-e) s.fs s.files (transferOk_neg he) hcall

/-- A call that goes on as another one. -/
theorem ConfinedCall.congr {call call' : Sys σ → Option (Int × Sys σ)} {ok : Int → Prop}
    (h : ConfinedCall call' ok s)
    (hcall : ∀ m, call { s with mem := m } = call' { s with mem := m }) :
    ConfinedCall call ok s :=
  .stepFiles s.fs s.files h hcall

/-- The checks at the start of a call; `next` is the rest of it for what the slot holds. -/
theorem withFd_confined {fd buf count : Word} {next : Word → Sys σ → Option (Int × Sys σ)}
    (hnext : ∀ f, ConfinedCall (next f) (TransferOk buf count) s) :
    ConfinedCall (fun t => withFd t fd buf fun f => next f t) (TransferOk buf count) s := by
  cases hfd : fdIndex (toCInt fd) with
  | none => exact .fail ebadf (by decide) fun m => by simp only [withFd, hfd]
  | some i =>
    by_cases hbuf : buf = 0
    · exact .fail efault (by decide) fun m => by simp only [withFd, hfd, if_pos hbuf]
    cases hfds : currentTaskFds s.files with
    | none => exact .fail ebadf (by decide) fun m => by simp only [withFd, hfd, if_neg hbuf, hfds]
    | some fds =>
      exact (hnext (fds i)).congr fun m => by simp only [withFd, hfd, if_neg hbuf, hfds]

theorem sysRead_confined (fd buf count : Word) :
    ConfinedCall (sysRead vfs · fd buf count) (TransferOk buf count) s := by
  refine withFd_confined fun f => ?_
  by_cases hopen : f = 0
  · exact .fail ebadf (by decide) fun m => if_pos hopen
  by_cases hops : (!vfs.hasRead s.fs (s.files.file f).node) = true
  · exact .fail enosys (by decide) fun m => (if_neg hopen).trans (if_pos hops)
  exact (sysReadLoop_confined vfs f (.zero buf count) (Nat.lt_succ_of_le (Nat.sub_le _ _))).congr
    fun m => (if_neg hopen).trans (if_neg hops)

theorem sysWrite_confined (fd buf count : Word) :
    ConfinedCall (sysWrite vfs · fd buf count) (TransferOk buf count) s := by
  refine withFd_confined fun f => ?_
  by_cases hopen : f = 0
  · exact .fail ebadf (by decide) fun m => if_pos hopen
  by_cases hmode : (s.files.file f).flags &&& oWronly = 0 ∧ (s.files.file f).flags &&& oRdwr = 0
  · exact .fail eacces (by decide) fun m => (if_neg hopen).trans (if_pos hmode)
  by_cases hops : (!vfs.hasWrite s.fs (s.files.file f).node) = true
  · exact .fail enosys (by decide) fun m =>
      (if_neg hopen).trans ((if_neg hmode).trans (if_pos hops))
  exact (sysWriteLoop_confined vfs f (.zero buf count) (Nat.lt_succ_of_le (Nat.sub_le _ _))).congr
    fun m => (if_neg hopen).trans ((if_neg hmode).trans (if_neg hops))

theorem sysGetdents64_confined (fd dirp count : Word) :
    ConfinedCall (sysGetdents64 vfs · fd dirp count) (TransferOk dirp count) s := by
  refine withFd_confined fun f => ?_
  by_cases hopen : f = 0 ∨ (s.files.file f).node = 0
  · exact .fail ebadf (by decide) fun m => if_pos hopen
  by_cases hdir : vfs.flags s.fs (s.files.file f).node &&& vfsDirectory = 0
  · exact .fail enotdir (by decide) fun m => (if_neg hopen).trans (if_pos hdir)
  by_cases hops : (!vfs.hasReaddir s.fs (s.files.file f).node) = true
  · exact .fail enosys (by decide) fun m =>
      (if_neg hopen).trans ((if_neg hdir).trans (if_pos hops))
  exact (getdentsLoop_confined vfs f (.zero dirp count) (Nat.lt_succ_of_le (Nat.sub_le _ _))).congr
    fun m => (if_neg hopen).trans ((if_neg hdir).trans (if_neg hops))

/-- `sys_close` does not look at memory. -/
theorem sysClose_confined (fd : Word) :
    ConfinedCall (fun t => some (sysClose vfs t fd)) (fun _ => True) s := by
  refine .done (sysClose vfs s fd).1 (sysClose vfs s fd).2.fs (sysClose vfs s fd).2.files trivial
    fun m => congrArg some ?_
  rw [sysClose, sysClose]
  cases fdIndex (toCInt fd) with
  | none => rfl
  | some i =>
    cases currentTaskFds s.files with
    | none => rfl
    | some fds =>
      by_cases hopen : fds i = 0
      · simp only [if_pos hopen]
      · simp only [if_neg hopen]

/-- The calls that transfer bytes through their second argument, a buffer of the size in their third
argument. -/
def Syscall.transfers : Syscall → Bool
  | .read | .write | .getdents64 => true
  | _ => false

/-- Every system call but the two that take a path returns, reads and writes through its pointer
arguments below the split only, leaves memory above the split alone and does not depend on it. A
call that transfers bytes returns an error, zero, or the number of the bytes that it transferred,
all of them below the split. -/
theorem user_pointers_confined (arch : Arch) (vfs : Vfs σ) (f pid num : Word) (args : SyscallArgs)
    (s : Sys σ)
    (hpath : ∀ call, arch.syscallTable num = some call → call ≠ .open ∧ call ≠ .openat) :
    ∃ res s', syscallDispatch arch vfs f pid num args s = some (res, s') ∧ s.Confined s' ∧
      (∀ t, s.SameBelow t →
        ∃ t', syscallDispatch arch vfs f pid num args t = some (res, t') ∧ s'.SameBelow t') ∧
      ∀ call, arch.syscallTable num = some call → call.transfers = true →
        TransferOk args.a1 args.a2 res := by
  -- all of it for one handler
  have hcall : ∀ call : Syscall, call ≠ .open → call ≠ .openat →
      ConfinedCall (fun t => call.run vfs f pid args t)
        (fun res => call.transfers = true → TransferOk args.a1 args.a2 res) s := by
    have hweak : ∀ {call : Sys σ → Option (Int × Sys σ)} {ok ok' : Int → Prop},
        ConfinedCall call ok s → (∀ res, ok res → ok' res) → ConfinedCall call ok' s :=
      fun ⟨res, s', hconf, hok, hsame⟩ himp => ⟨res, s', hconf, himp res hok, hsame⟩
    intro call hopen hopenat
    cases call with
    | read => exact hweak (sysRead_confined args.a0 args.a1 args.a2) fun _ hok _ => hok
    | write => exact hweak (sysWrite_confined args.a0 args.a1 args.a2) fun _ hok _ => hok
    | getdents64 => exact hweak (sysGetdents64_confined args.a0 args.a1 args.a2) fun _ hok _ => hok
    | «open» => exact absurd rfl hopen
    | openat => exact absurd rfl hopenat
    | close => exact hweak (sysClose_confined args.a0) fun _ _ h => by cases h
    | getpid => exact .pure fun h => by cases h
    | exit => exact .pure fun h => by cases h
    | clone => exact .pure fun h => by cases h
    | fork => exact .pure fun h => by cases h
    | wait4 => exact .pure fun h => by cases h
  unfold syscallDispatch
  by_cases hnum : num ≥ nrSyscalls
  · refine ⟨-enosys, s, if_pos hnum, .refl s, fun t ht => ⟨t, if_pos hnum, ht⟩, fun _ _ _ => ?_⟩
    exact transferOk_neg (by decide)
  · simp only [if_neg hnum]
    cases htable : arch.syscallTable num with
    | none => exact ⟨-enosys, s, rfl, .refl s, fun t ht => ⟨t, rfl, ht⟩, by simp⟩
    | some call =>
      obtain ⟨hopen, hopenat⟩ := hpath call htable
      obtain ⟨res, s', hconf, hok, hsame⟩ := hcall call hopen hopenat
      obtain ⟨m, hres, -, hself⟩ := hsame s.mem fun _ _ => rfl
      obtain rfl := hself rfl
      refine ⟨res, s', hres, hconf, fun t ht => ?_, fun call' hcall' htransfers => ?_⟩
      · obtain ⟨m', hres', hm', -⟩ := hsame t.mem ht.mem
        rw [← ht.fs, ← ht.files, ← ht.touched] at hres'
        exact ⟨_, hres', hm', rfl, rfl, rfl⟩
      · obtain rfl := Option.some.inj hcall'
        exact hok htransfers

theorem exampleVfs_read_le (size : Word) (bytes : List (BitVec 8))
    (h : (Except.ok [] : Except ℕ (List (BitVec 8))) = .ok bytes) :
    bytes.length ≤ size.toNat := by
  obtain rfl := Except.ok.inj h
  exact Nat.zero_le _

theorem exampleVfs_write_le (bytes : List (BitVec 8)) : (bytes.length : Int) ≤ bytes.length :=
  le_refl _

/-- One file `/a`, which takes everything that is written to it and is always at its end. -/
def exampleVfs : Vfs Unit where
  lookup _ path := if path = [0x2f, 0x61] then 0x200 else 0
  flags _ _ := vfsFile
  size _ _ := 0
  hasOpen _ _ := false
  hasClose _ _ := false
  hasRead _ _ := true
  hasWrite _ _ := true
  hasReaddir _ _ := false
  openNode _ _ := (0, ())
  closeNode _ _ := (0, ())
  read _ _ _ _ := (.ok [], ())
  write _ _ _ bytes := (bytes.length, ())
  readdir _ _ _ := (0, { name := [], flags := 0, inode := 0, fits := nil_fits }, ())
  read_le _ _ _ size bytes h := exampleVfs_read_le size bytes h
  write_le _ _ _ bytes := exampleVfs_write_le bytes

/-- A task with the file open as descriptor 1; `path` stands at the address `0xffff800000001000`. -/
def exampleSys (path : List (BitVec 8)) : Sys Unit where
  mem := ByteMem.write (fun _ => 0) 0xffff800000001000 path
  touched := []
  fs := ()
  files :=
    { file := fun _ => { node := 0x200, offset := 0, flags := oRdwr, refCount := 1 }
      fds := fun _ fd => if fd.val = 1 then 0x100 else 0
      current := 0x10 }

/-- Writing from the kernel half is an error. -/
theorem user_pointers_confined_write :
    ∃ s', syscallDispatch .x86_64 exampleVfs 0 0 1 ⟨1, 0xffff800000001000, 2, 0, 0, 0⟩
        (exampleSys [0x2f, 0x61]) = some (-14, s') ∧
      (exampleSys [0x2f, 0x61]).Confined s' := by
  obtain ⟨res, s', hres, hconf, -⟩ := user_pointers_confined .x86_64 exampleVfs 0 0 1
    ⟨1, 0xffff800000001000, 2, 0, 0, 0⟩ (exampleSys [0x2f, 0x61])
    (by rintro call ⟨rfl⟩; exact ⟨by decide, by decide⟩)
  have heval : (syscallDispatch .x86_64 exampleVfs 0 0 1 ⟨1, 0xffff800000001000, 2, 0, 0, 0⟩
      (exampleSys [0x2f, 0x61])).map Prod.fst = some (-14) := by decide +kernel
  rw [hres] at heval
  obtain rfl : res = -14 := Option.some.inj heval
  exact ⟨s', hres, hconf⟩

/-- A write of 1024 bytes whose range reaches the split returns 512, and opening a path in the kernel
half has a result that depends on the bytes there. -/
theorem user_pointers_not_confined :
    (syscallDispatch .x86_64 exampleVfs 0 0 1 ⟨1, vmmAddrSplit - 512, 1024, 0, 0, 0⟩
        (exampleSys [])).map Prod.fst = some 512 ∧
      (syscallDispatch .x86_64 exampleVfs 0x300 0 2 ⟨0xffff800000001000, 0, 0, 0, 0, 0⟩
        (exampleSys [0x2f, 0x61])).map (fun r => (r.1, r.2.touched)) =
          some (3, [(0xffff800000001000, 3)]) ∧
      (syscallDispatch .x86_64 exampleVfs 0x300 0 2 ⟨0xffff800000001000, 0, 0, 0, 0, 0⟩
        (exampleSys [0x2f, 0x62])).map Prod.fst = some (-2) := by
  refine ⟨by decide +kernel, by decide +kernel, by decide +kernel⟩

end Pros
