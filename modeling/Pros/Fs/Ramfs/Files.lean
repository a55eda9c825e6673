import Pros.Fs.Lookup
import Pros.Fs.Ramfs.Sparse

/-!
# The files of a ramfs

The nodes of a ramfs together with the data of all of them, and the file system as the system calls
see it. One write goes to the data of one node; what the allocators promise about all files says
that it leaves the other ones alone.
-/

namespace Pros

/-- A ramfs with the memory and the allocators. The flags of a node are in the tree. -/
structure RamfsFs (α : Type) where
  tree : VfsTree
  file : Word → RamfsNode
  mem : ByteMem
  alloc : α

/-- The data `ramfs_node_new` makes: `kcalloc` clears it. -/
def newFile : RamfsNode := ⟨0, 0, 0, 0⟩

namespace RamfsFs

variable {α : Type}

/-- One node with its data. -/
def state (fs : RamfsFs α) (n : Word) : RamfsState α where
  mem := fs.mem
  alloc := fs.alloc
  node := { fs.file n with flags := (fs.tree.node n).flags }

/-- The file system after an operation on the data of one node. -/
def setState (fs : RamfsFs α) (n : Word) (s : RamfsState α) : RamfsFs α where
  tree := fs.tree
  file := Function.update fs.file n s.node
  mem := s.mem
  alloc := s.alloc

/-- The file system after an operation on the nodes; a node that is new has no data. -/
def setTree (fs : RamfsFs α) (tree : VfsTree) : RamfsFs α where
  tree := tree
  file := fun n => if n ∈ tree.live ∧ n ∉ fs.tree.live then newFile else fs.file n
  mem := fs.mem
  alloc := fs.alloc

end RamfsFs

/-! ## The operations -/

section

variable {α : Type} (A : RamfsAlloc α) (hhdm : Word)

theorem ramfsReadLoop_length {fuel : ℕ} {s s' : RamfsState α} {offset remaining : Word}
    {bytes : List (BitVec 8)}
    (h : ramfsReadLoop A hhdm fuel s offset remaining = some (bytes, s')) :
    bytes.length = remaining.toNat := by
  induction fuel generalizing s s' offset remaining bytes with
  | zero => cases h
  | succ fuel ih =>
    rw [ramfsReadLoop] at h
    by_cases hr : remaining = 0
    · rw [if_pos hr] at h
      cases h
      rw [hr]
      rfl
    · obtain ⟨chunkSize, index, pageOffset, hinfo, -, -, -, hle, -⟩ :=
        ramfsGetChunkInfo_spec offset hr
      rw [if_neg hr, hinfo] at h
      simp only [Option.bind_eq_bind, Option.bind_eq_some_iff] at h
      obtain ⟨⟨pageAddr, s₁⟩, -, ⟨rest, s₂⟩, hrest, heq⟩ := h
      cases heq
      have hlen := ih hrest
      have hsub : (remaining - chunkSize).toNat = remaining.toNat - chunkSize.toNat := by bv_omega
      rw [List.length_append, hlen, hsub]
      split
      · rw [ByteMem.bytes, List.length_map, List.length_range]
        omega
      · rw [List.length_replicate]
        omega

theorem ramfsOpsRead_length_le {s s' : RamfsState α} {offset size : Word}
    {bytes : List (BitVec 8)}
    (h : ramfsOpsRead A hhdm s offset size = some (.ok bytes, s')) :
    bytes.length ≤ size.toNat := by
  rw [ramfsOpsRead] at h
  split at h
  · cases h
  split at h
  · obtain ⟨hnil, -⟩ := Prod.mk.inj (Option.some.inj h)
    obtain rfl := Except.ok.inj hnil
    exact Nat.zero_le _
  · simp only [Option.bind_eq_bind, Option.bind_eq_some_iff] at h
    obtain ⟨⟨bytes', s₁⟩, hloop, heq⟩ := h
    obtain ⟨hbytes, -⟩ := Prod.mk.inj (Option.some.inj heq)
    obtain rfl := Except.ok.inj hbytes
    rw [ramfsReadLoop_length A hhdm hloop]
    split
    · rename_i hgt
      exact (BitVec.lt_def.mp hgt).le
    · exact le_rfl

theorem ramfsWriteLoop_le {fuel : ℕ} {s s' : RamfsState α} {offset offset' actualSize n : Word}
    {buffer : List (BitVec 8)}
    (h : ramfsWriteLoop A hhdm fuel s offset actualSize buffer = some (n, offset', s')) :
    ∃ k ≤ buffer.length, n = actualSize + BitVec.ofNat 64 k := by
  induction fuel generalizing s offset actualSize buffer with
  | zero => cases h
  | succ fuel ih =>
    rw [ramfsWriteLoop] at h
    split at h
    · cases h
      exact ⟨0, Nat.zero_le _, (BitVec.add_zero _).symm⟩
    · generalize hinfo : ramfsGetChunkInfo offset (BitVec.ofNat 64 buffer.length) = info at h
      obtain ⟨chunkSize, index, pageOffset⟩ := info
      simp only [Option.bind_eq_bind, Option.bind_eq_some_iff] at h
      obtain ⟨⟨pageAddr, s₁⟩, -, h⟩ := h
      split at h
      · cases h
        exact ⟨0, Nat.zero_le _, (BitVec.add_zero _).symm⟩
      · obtain ⟨k, hk, rfl⟩ := ih h
        have hchunk : chunkSize.toNat ≤ buffer.length := by
          have hle : chunkSize ≤ BitVec.ofNat 64 buffer.length := by
            have := congrArg Prod.fst hinfo
            simp only [ramfsGetChunkInfo] at this
            split at this
            · exact this ▸ BitVec.le_refl _
            · rename_i hnot
              exact this ▸ BitVec.not_lt.mp hnot
          exact (BitVec.le_def.mp hle).trans (by rw [BitVec.toNat_ofNat]; exact Nat.mod_le _ _)
        rw [List.length_drop] at hk
        refine ⟨chunkSize.toNat + k, by omega, ?_⟩
        rw [BitVec.ofNat_add, BitVec.ofNat_toNat, BitVec.setWidth_eq, BitVec.add_assoc]

theorem ramfsOpsWrite_le {s s' : RamfsState α} {offset : Word} {buffer : List (BitVec 8)} {n : Int}
    (h : ramfsOpsWrite A hhdm s offset buffer = some (n, s')) : n ≤ buffer.length := by
  rw [ramfsOpsWrite] at h
  split at h
  · cases h
    exact (show -einval ≤ 0 by decide).trans (Int.natCast_nonneg _)
  · simp only [Option.bind_eq_bind, Option.bind_eq_some_iff] at h
    obtain ⟨⟨actualSize, offset', s₁⟩, hloop, h⟩ := h
    obtain ⟨k, hk, rfl⟩ := ramfsWriteLoop_le A hhdm hloop
    have hint : (0 + BitVec.ofNat 64 k : Word).toInt ≤ buffer.length := by
      have hle := BitVec.toInt_eq_toNat_cond (0 + BitVec.ofNat 64 k : Word)
      have hnat : (0 + BitVec.ofNat 64 k : Word).toNat ≤ k := by
        rw [show (0 : Word) + BitVec.ofNat 64 k = BitVec.ofNat 64 k from BitVec.zero_add _,
          BitVec.toNat_ofNat]
        exact Nat.mod_le _ _
      split at hle <;> omega
    split at h <;> exact (Prod.mk.inj (Option.some.inj h)).1 ▸ hint

/-- The operations of a ramfs, where an operation whose loop does not end does nothing. No node has
`open` or `close`, and an entry that `readdir` does not fill in is empty. -/
def ramfsVfs : Vfs (RamfsFs α) where
  lookup fs path := ((vfsLookup fs.tree path).map Prod.fst).getD 0
  flags fs n := (fs.tree.node n).flags
  size fs n := (fs.file n).size
  hasOpen _ _ := false
  hasClose _ _ := false
  hasRead _ _ := true
  hasWrite _ _ := true
  hasReaddir _ _ := true
  openNode fs _ := (0, fs)
  closeNode fs _ := (0, fs)
  read fs n offset size :=
    match ramfsOpsRead A hhdm (fs.state n) offset size with
    | none => (.ok [], fs)
    | some (res, s) => (res, fs.setState n s)
  write fs n offset bytes :=
    match ramfsOpsWrite A hhdm (fs.state n) offset bytes with
    | none => (0, fs)
    | some (res, s) => (res, fs.setState n s)
  readdir fs n index :=
    match ramfsOpsReaddir fs.tree n index ⟨[], 0, 0, nil_fits⟩ with
    | none => (0, ⟨[], 0, 0, nil_fits⟩, fs)
    | some (res, out) => (res, out, fs)
  read_le fs n offset size bytes h := by
    split at h
    · obtain rfl := Except.ok.inj h
      exact Nat.zero_le _
    · rename_i res s hread
      obtain rfl : res = .ok bytes := h
      exact ramfsOpsRead_length_le A hhdm hread
  write_le fs n offset bytes := by
    split
    · exact Int.natCast_nonneg _
    · rename_i res s hwrite
      exact ramfsOpsWrite_le A hhdm hwrite

end

section

variable {α : Type} {A : RamfsAlloc α} {hhdm : Word} {ok : α → ByteMem → (Word → Holding) → Prop}

/-- A page from `2 ^ 61` on would need an array of `2 ^ 52` bytes; where there is none, nothing is
written. -/
theorem RamfsOk.opsWrite_far {ok : α → ByteMem → Set Word → Word → ℕ → Prop} {s : RamfsState α}
    {entry : ℕ → Word} {data : ℕ → BitVec 8} (spec : RamfsAllocSpec A hhdm ok)
    (hmemory : ∀ {a mem pages p n}, ok a mem pages p n → n < 2 ^ 52)
    (h : RamfsOk ok s entry data) (hfile : s.node.flags &&& vfsFile ≠ 0) {offset : Word}
    (hfar : 2 ^ 61 ≤ offset.toNat) {buffer : List (BitVec 8)} (hne : buffer ≠ [])
    (hlen : buffer.length < 2 ^ 64) :
    ∃ s' entry', ramfsOpsWrite A hhdm s offset buffer = some (0, s') ∧
      A.failures s.alloc < A.failures s'.alloc ∧ RamfsOk ok s' entry' data ∧ SameNode s s' := by
  have hbuffer : BitVec.ofNat 64 buffer.length ≠ 0 := by
    intro h0
    have h0 := congrArg BitVec.toNat h0
    rw [BitVec.toNat_ofNat, Nat.mod_eq_of_lt hlen] at h0
    exact hne (List.length_eq_zero_iff.mp h0)
  obtain ⟨chunkSize, index, pageOffset, hinfo, hindex, -, -, -, -⟩ :=
    ramfsGetChunkInfo_spec offset hbuffer
  have hoffset := offset.isLt
  obtain ⟨addr, s', entry', hwalk, h', hsame, hcases⟩ :=
    h.walkPage spec (show index.toNat < 2 ^ 52 by omega)
  rcases hcases with ⟨haddr, -, rfl⟩ | ⟨rfl, hfail, -⟩
  · have hentry : Function.update entry index.toNat addr index.toNat = addr :=
      Function.update_self _ _ _
    -- the page would be in an array that is too large
    have hcount : ¬ s'.node.pageCount.toNat ≤ index.toNat := fun hle =>
      haddr (hentry.symm.trans (h'.beyond _ hle))
    have := hmemory h'.owns
    omega
  · refine ⟨s', entry', ?_, hfail, h', hsame⟩
    have hloop : ramfsWriteLoop A hhdm (buffer.length + 1) s offset 0 buffer =
        some (0, offset, s') := by
      rw [ramfsWriteLoop, if_neg hne, hinfo]
      simp only [hwalk, Option.bind_eq_bind, Option.bind_some, if_pos]
      rfl
    rw [ramfsOpsWrite, if_neg hfile, hloop]
    simp only [Option.bind_eq_bind, Option.bind_some,
      if_neg (show ¬ ((0 : Word) > 0 ∧ offset > s'.node.size) from fun hlt => absurd hlt.1 (by decide))]
    rfl

/-! ## The invariant -/

namespace RamfsFs

variable {fs : RamfsFs α} {entry : Word → ℕ → Word} {data : Word → ℕ → BitVec 8}

/-- What the nodes own, with the page pointers `entry`. -/
def holding (fs : RamfsFs α) (entry : Word → ℕ → Word) (n : Word) : Holding :=
  if n ∈ fs.tree.live then
    ⟨ramfsPages (entry n), (fs.file n).pages, 8 * (fs.file n).pageCount.toNat⟩
  else .empty

/-- Every node holds the bytes `data`, in its own memory. -/
structure Ok (ok : α → ByteMem → (Word → Holding) → Prop) (fs : RamfsFs α)
    (entry : Word → ℕ → Word) (data : Word → ℕ → BitVec 8) : Prop where
  rep : ∀ n ∈ fs.tree.live, RamfsRep (fs.state n) (entry n) (data n)
  owns : ok fs.alloc fs.mem (fs.holding entry)

theorem Ok.readsAs (h : fs.Ok ok entry data) {n : Word} (hn : n ∈ fs.tree.live)
    (hfile : (fs.tree.node n).flags &&& vfsFile ≠ 0) : ReadsAs A hhdm (fs.state n) (data n) :=
  (h.rep n hn).readsAs hfile

theorem Ok.ramfsOk (h : fs.Ok ok entry data) {n : Word} (hn : n ∈ fs.tree.live) :
    RamfsOk (okAt ok (fs.holding entry) fs.mem n) (fs.state n) (entry n) (data n) := by
  refine ⟨h.rep n hn, ?_, fun _ _ _ _ => rfl⟩
  have hself : (⟨ramfsPages (entry n), (fs.state n).node.pages,
      8 * (fs.state n).node.pageCount.toNat⟩ : Holding) = fs.holding entry n := by
    rw [holding, if_pos hn]
    rfl
  rw [hself, Function.update_eq_self]
  exact h.owns

theorem state_setState_self (fs : RamfsFs α) (n : Word) {s : RamfsState α}
    (hflags : s.node.flags = (fs.tree.node n).flags) : (fs.setState n s).state n = s := by
  simp only [state, setState, Function.update_self, ← hflags]

/-- An operation on the data of one node leaves the other nodes as they are. -/
theorem Ok.setState (h : fs.Ok ok entry data) {n : Word} (hn : n ∈ fs.tree.live)
    {s' : RamfsState α} {entry' : ℕ → Word} {data' : ℕ → BitVec 8}
    (hflags : s'.node.flags = (fs.tree.node n).flags)
    (h' : RamfsOk (okAt ok (fs.holding entry) fs.mem n) s' entry' data') :
    (fs.setState n s').Ok ok (Function.update entry n entry') (Function.update data n data') := by
  have hheld : (fs.setState n s').holding (Function.update entry n entry') =
      Function.update (fs.holding entry) n
        ⟨ramfsPages entry', s'.node.pages, 8 * s'.node.pageCount.toNat⟩ := by
    ext1 m
    by_cases hm : m = n
    · subst hm
      rw [Function.update_self, holding, if_pos (show m ∈ (fs.setState m s').tree.live from hn),
        Function.update_self]
      simp only [RamfsFs.setState, Function.update_self]
    · rw [Function.update_of_ne hm, holding, holding, Function.update_of_ne hm]
      simp only [RamfsFs.setState, Function.update_of_ne hm]
  constructor
  · intro m hm
    by_cases hmn : m = n
    · subst hmn
      rw [state_setState_self fs m hflags, Function.update_self, Function.update_self]
      exact h'.toRamfsRep
    · rw [Function.update_of_ne hmn, Function.update_of_ne hmn]
      refine (h.rep m hm).congr ?_ ?_ fun x hx => h'.owns.2 m hmn x ?_
      · simp only [state, RamfsFs.setState, Function.update_of_ne hmn]
      · simp only [state, RamfsFs.setState, Function.update_of_ne hmn]
      · rw [holding, if_pos (show m ∈ fs.tree.live from hm)]
        exact hx
  · rw [hheld]
    exact h'.owns.1

/-- New nodes have no data. -/
theorem Ok.setTree (h : fs.Ok ok entry data) {tree : VfsTree}
    (hlive : ∀ n ∈ fs.tree.live, n ∈ tree.live) :
    (fs.setTree tree).Ok ok (fun n => if n ∈ fs.tree.live then entry n else fun _ => 0)
      (fun n => if n ∈ fs.tree.live then data n else fun _ => 0) := by
  have hold : ∀ n ∈ fs.tree.live, (fs.setTree tree).file n = fs.file n := fun n hn =>
    if_neg fun h => h.2 hn
  have hnew : ∀ n ∈ tree.live, n ∉ fs.tree.live → (fs.setTree tree).file n = newFile :=
    fun n hn hnot => if_pos ⟨hn, hnot⟩
  constructor
  · intro n hn
    by_cases hn' : n ∈ fs.tree.live
    · rw [if_pos hn', if_pos hn']
      have hpages := congrArg RamfsNode.pages (hold n hn')
      have hcount := congrArg RamfsNode.pageCount (hold n hn')
      exact (h.rep n hn').congr hpages hcount fun _ _ => rfl
    · rw [if_neg hn', if_neg hn']
      exact .of_empty (congrArg RamfsNode.pages (hnew n hn hn'))
        (congrArg RamfsNode.pageCount (hnew n hn hn'))
  · have hheld : (fs.setTree tree).holding
        (fun n => if n ∈ fs.tree.live then entry n else fun _ => 0) = fs.holding entry := by
      ext1 n
      by_cases hn : n ∈ fs.tree.live
      · rw [holding, holding, if_pos (show n ∈ (fs.setTree tree).tree.live from hlive n hn),
          if_pos hn, if_pos hn, hold n hn]
      · rw [holding, holding, if_neg hn, if_neg hn]
        split
        · rw [hnew n ‹_› hn, ramfsPages_zero]
          rfl
        · rfl
    rw [hheld]
    exact h.owns

/-- Writing `buffer` to a node writes a first part of it, all of it if no allocation fails, and no
other node. -/
theorem Ok.write (spec : RamfsFilesSpec A hhdm ok) (h : fs.Ok ok entry data) {n : Word}
    (hn : n ∈ fs.tree.live) (hfile : (fs.tree.node n).flags &&& vfsFile ≠ 0)
    {offset : Word} {buffer : List (BitVec 8)} (hend : offset.toNat + buffer.length < 2 ^ 63) :
    ∃ (m : ℕ) (s' : RamfsState α) (entry' : Word → ℕ → Word),
      ramfsOpsWrite A hhdm (fs.state n) offset buffer = some ((m : ℤ), s') ∧ m ≤ buffer.length ∧
      A.failures fs.alloc ≤ A.failures s'.alloc ∧ (A.failures s'.alloc = A.failures fs.alloc → m = buffer.length) ∧
      (fs.setState n s').Ok ok entry'
        (Function.update data n (overlay (data n) offset.toNat (buffer.take m))) ∧
      s'.node.flags = (fs.tree.node n).flags ∧
      s'.node.size.toNat =
        if m = 0 then (fs.file n).size.toNat else max (fs.file n).size.toNat (offset.toNat + m) := by
  obtain ⟨m, s', entry', hwrite, hm, hmono, hall, h', hflags, hsize⟩ :=
    (h.ramfsOk hn).opsWrite (spec.allocSpec _ _ _) hfile hend
  exact ⟨m, s', _, hwrite, hm, hmono, hall, h.setState hn hflags h', hflags, hsize⟩

/-- Writing a chunk of `sys_write`, at any offset, where no array has the `2 ^ 52` bytes that a page
from `2 ^ 61` on would take. -/
theorem Ok.writeChunk (spec : RamfsFilesSpec A hhdm ok)
    (hmemory : ∀ {a mem F}, ok a mem F → ∀ i, (F i).bytes < 2 ^ 52) (h : fs.Ok ok entry data)
    {n : Word} (hn : n ∈ fs.tree.live) (hfile : (fs.tree.node n).flags &&& vfsFile ≠ 0)
    (offset : Word) {buffer : List (BitVec 8)} (hne : buffer ≠ []) (hlen : buffer.length ≤ 512) :
    ∃ (m : ℕ) (s' : RamfsState α) (entry' : Word → ℕ → Word),
      ramfsOpsWrite A hhdm (fs.state n) offset buffer = some ((m : ℤ), s') ∧ m ≤ buffer.length ∧
      (m = 0 ∨ offset.toNat + m < 2 ^ 63) ∧
      A.failures fs.alloc ≤ A.failures s'.alloc ∧ (A.failures s'.alloc = A.failures fs.alloc → m = buffer.length) ∧
      (fs.setState n s').Ok ok entry'
        (Function.update data n (overlay (data n) offset.toNat (buffer.take m))) ∧
      s'.node.flags = (fs.tree.node n).flags ∧
      s'.node.size.toNat =
        if m = 0 then (fs.file n).size.toNat else max (fs.file n).size.toNat (offset.toNat + m) := by
  by_cases hend : offset.toNat + buffer.length < 2 ^ 63
  · obtain ⟨m, s', entry', hwrite, hm, hrest⟩ := h.write spec hn hfile hend
    exact ⟨m, s', entry', hwrite, hm, Or.inr (by omega), hrest⟩
  · obtain ⟨s', entry', hwrite, hfail, h', hsame⟩ := (h.ramfsOk hn).opsWrite_far
      (spec.allocSpec _ _ _) (fun howns => by simpa using hmemory howns.1 n) hfile
      (show 2 ^ 61 ≤ offset.toNat by omega) hne (show buffer.length < 2 ^ 64 by omega)
    refine ⟨0, s', Function.update entry n entry', hwrite, Nat.zero_le _, Or.inl rfl, hfail.le,
      fun hsf => absurd hsf hfail.ne', ?_, hsame.flags, ?_⟩
    · rw [List.take_zero, overlay_nil]
      exact h.setState hn hsame.flags h'
    · rw [if_pos rfl, hsame.size]
      rfl

end RamfsFs

end

/-- Where no node has data, none owns anything. -/
theorem RamfsFs.ok_of_no_data {hhdm : Word} {fs : RamfsFs Bump}
    (hfile : ∀ n, fs.file n = newFile) :
    fs.Ok (Bump.FilesOk hhdm) (fun _ _ => 0) fun _ _ => 0 := by
  refine ⟨fun n _ => RamfsRep.of_empty ?_ ?_, .of_empty fun n => ?_⟩
  · exact congrArg RamfsNode.pages (hfile n)
  · exact congrArg RamfsNode.pageCount (hfile n)
  · rw [RamfsFs.holding, hfile, ramfsPages_zero]
    exact ite_self _

end Pros
