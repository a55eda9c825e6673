import Pros.Fs.Ramfs.Sparse

/-!
# Growing the page array of a ramfs file

The page index of a 64-bit offset is below `2 ^ 52`, so the doubling loop of `ramfs_walk_page` stays
far from the width of its counter. This holds for writes at any offset and of any size, also where
the offset wraps in the middle of a write; the rounds of such a write are followed one by one.
-/

namespace Pros

variable {α : Type} {A : RamfsAlloc α} {hhdm : Word} {ok : α → ByteMem → Set Word → Word → ℕ → Prop}
variable {s s' : RamfsState α} {entry : ℕ → Word} {data : ℕ → BitVec 8}

/-! ## The count -/

/-- A page count: zero, or four times a power of two. -/
def CountShape (count : Word) : Prop := count = 0 ∨ ∃ k, count.toNat = 4 * 2 ^ k

/-- Doubling keeps the shape, and the floor of four has it. -/
theorem NewCount.shape {count index n : Word} (hn : NewCount count index n)
    (h : CountShape count) : ∃ k, n.toNat = 4 * 2 ^ k := by
  obtain ⟨k, hk⟩ := hn.doubled
  rcases h with rfl | ⟨j, hj⟩
  · exact ⟨k, hk⟩
  · have hpos : count.toNat ≠ 0 := by
      have := Nat.two_pow_pos j
      omega
    refine ⟨j + 1 + k, ?_⟩
    rw [hk, if_neg hpos, hj, pow_add, pow_succ]
    ring

/-- The bytes that are cleared are those of the new entries. -/
theorem NewCount.byteRange_tail {count index n : Word} (hn : NewCount count index n)
    (hcount : count.toNat < n.toNat) {q : Word} (hq : q.toNat + 8 * n.toNat ≤ 2 ^ 64) :
    byteRange (q + 8 * count) ((n - count) * 8).toNat =
      byteRange q (8 * n.toNat) \ byteRange q (8 * count.toNat) := by
  have hold : (8 * count).toNat = 8 * count.toNat := by
    have h8 : (8 : Word).toNat = 8 := rfl
    have := q.isLt
    rw [BitVec.toNat_mul, h8]
    omega
  rw [hn.tail]
  ext x
  change (x - (q + 8 * count)).toNat < 8 * (n.toNat - count.toNat) ↔
    (x - q).toNat < 8 * n.toNat ∧ ¬ (x - q).toNat < 8 * count.toNat
  have hsub : x - (q + 8 * count) = (x - q) - 8 * count := by
    rw [sub_add_eq_sub_sub]
  have hx := (x - q).isLt
  rw [hsub, BitVec.toNat_sub, hold]
  omega

/-- A call for a write leaves the count alone or replaces it by that of the doubling loop. -/
theorem ramfsWalkPage_count {index addr : Word} (hindex : index.toNat < 2 ^ 52)
    (hwalk : ramfsWalkPage A hhdm s index true = some (addr, s')) :
    s'.node.pageCount = s.node.pageCount ∨ NewCount s.node.pageCount index s'.node.pageCount := by
  have hpage : ∀ {s₁ s₂ : RamfsState α} {addr : Word},
      ramfsPageAt A hhdm s₁ index true = (addr, s₂) → s₂.node = s₁.node := by
    intro s₁ s₂ addr hat
    rw [ramfsPageAt] at hat
    split at hat
    · simp only [Bool.not_true, Bool.false_eq_true, if_false, ramfsNewPage] at hat
      split at hat
      · cases hat
        rfl
      · cases hat
        rfl
    · cases hat
      rfl
  rw [ramfsWalkPage] at hwalk
  split at hwalk
  · rename_i hi
    obtain ⟨n, hn⟩ := exists_newCount hi hindex
    cases hk : A.krealloc s.alloc s.mem s.node.pages (n * 8) with
    | mk q rest =>
    obtain ⟨mem, a⟩ := rest
    simp only [Bool.not_true, Bool.false_eq_true, if_false, ramfsGrow_eq hn hk,
      Option.bind_eq_bind] at hwalk
    split at hwalk
    · cases hwalk
      exact Or.inl rfl
    · right
      rw [hpage (Option.some.inj hwalk)]
      exact hn
  · left
    rw [hpage (Option.some.inj hwalk)]

/-! ## One call -/

/-- What a call of `ramfs_walk_page` for a write at page `index` does to the array. -/
structure PageWalk (A : RamfsAlloc α) (hhdm : Word)
    (ok : α → ByteMem → Set Word → Word → ℕ → Prop) (s : RamfsState α) (index : Word) : Prop where
  /-- The count before the call. -/
  shape : CountShape s.node.pageCount
  /-- If the array is too short, the loop finds a count, the array is asked for with its true size,
  and what is cleared is its new tail. -/
  grows : s.node.pageCount ≤ index → ∃ n, NewCount s.node.pageCount index n ∧
    (∃ k, n.toNat = 4 * 2 ^ k) ∧
    ∀ q mem a, A.krealloc s.alloc s.mem s.node.pages (n * 8) = (q, mem, a) →
      (q = 0 → ramfsWalkPage A hhdm s index true =
        some (0, { s with mem, alloc := a })) ∧
      (q ≠ 0 → ramfsGrow A s index = some (true, { s with
          mem := mem.memset (q + 8 * s.node.pageCount) 0 ((n - s.node.pageCount) * 8).toNat
          alloc := a
          node := { s.node with pages := q, pageCount := n } }) ∧
        byteRange (q + 8 * s.node.pageCount) ((n - s.node.pageCount) * 8).toNat =
          byteRange q (8 * n.toNat) \ byteRange q (8 * s.node.pageCount.toNat))
  /-- The call returns. It leaves an array with the old entries, and with the page it returns. -/
  returns : ∃ addr s' entry entry' data, ramfsWalkPage A hhdm s index true = some (addr, s') ∧
    RamfsOk ok s entry data ∧ RamfsOk ok s' entry' data ∧ CountShape s'.node.pageCount ∧
    (addr ≠ 0 → entry' = Function.update entry index.toNat addr) ∧ (addr = 0 → entry' = entry)

theorem RamfsOk.pageWalk (spec : RamfsAllocSpec A hhdm ok) (h : RamfsOk ok s entry data)
    (hshape : CountShape s.node.pageCount) {index : Word} (hindex : index.toNat < 2 ^ 52) :
    PageWalk A hhdm ok s index where
  shape := hshape
  grows := by
    intro hi
    obtain ⟨n, hn⟩ := exists_newCount hi hindex
    have hcount : s.node.pageCount.toNat < n.toNat := (BitVec.le_def.mp hi).trans_lt hn.above
    have hbytes := hn.bytes
    have habove := hn.above
    refine ⟨n, hn, hn.shape hshape, fun q mem a hk => ⟨fun hq => ?_, fun hq => ⟨?_, ?_⟩⟩⟩
    · rw [ramfsWalkPage, if_pos hi, ramfsGrow_eq hn hk, if_pos hq]
      rfl
    · rw [ramfsGrow_eq hn hk, if_neg hq]
    · rcases spec.krealloc (n := n * 8) (by omega) (by bv_omega) h.owns hk with
        ⟨hq0, -⟩ | ⟨-, hwrap, -⟩
      · exact absurd hq0 hq
      · exact hn.byteRange_tail hcount (by omega)
  returns := by
    obtain ⟨addr, s', entry', hwalk, h', -, hcases⟩ := h.walkPage spec hindex
    refine ⟨addr, s', entry, entry', data, hwalk, h, h', ?_, fun haddr => ?_, fun haddr => ?_⟩
    · rcases ramfsWalkPage_count hindex hwalk with hsame | hn
      · rwa [hsame]
      · exact Or.inr (hn.shape hshape)
    · rcases hcases with ⟨-, -, hentry⟩ | ⟨h0, -⟩
      · exact hentry
      · exact absurd h0 haddr
    · rcases hcases with ⟨hne, -⟩ | ⟨-, -, hentry⟩
      · exact absurd haddr hne
      · exact hentry

/-! ## One write -/

/-- One round of the loop of `ramfs_ops_write` that finds a page: the state, the offset and the rest
of the buffer before and after it. -/
inductive WriteRound (A : RamfsAlloc α) (hhdm : Word) :
    RamfsState α × Word × List (BitVec 8) → RamfsState α × Word × List (BitVec 8) → Prop
  | next {s s' : RamfsState α} {offset chunkSize index pageOffset addr : Word}
    {buffer : List (BitVec 8)} (hne : buffer ≠ [])
    (hinfo : ramfsGetChunkInfo offset (BitVec.ofNat 64 buffer.length) =
      (chunkSize, index, pageOffset))
    (hwalk : ramfsWalkPage A hhdm s index true = some (addr, s')) (haddr : addr ≠ 0) :
    WriteRound A hhdm (s, offset, buffer)
      ({ s' with mem := s'.mem.write (addr + pageOffset) (buffer.take chunkSize.toNat) },
        offset + chunkSize, buffer.drop chunkSize.toNat)

/-- A file with an array of a proper length. -/
structure GrowthOk (ok : α → ByteMem → Set Word → Word → ℕ → Prop) (s : RamfsState α) : Prop where
  isFile : s.node.flags &&& vfsFile ≠ 0
  shape : CountShape s.node.pageCount
  rep : ∃ entry data, RamfsOk ok s entry data

theorem toNat_ofNat_length {buffer : List (BitVec 8)} (hlen : buffer.length < 2 ^ 64) :
    (BitVec.ofNat 64 buffer.length).toNat = buffer.length := by
  rw [BitVec.toNat_ofNat, Nat.mod_eq_of_lt hlen]

theorem ofNat_length_ne_zero {buffer : List (BitVec 8)} (hlen : buffer.length < 2 ^ 64)
    (hne : buffer ≠ []) : BitVec.ofNat 64 buffer.length ≠ 0 := by
  intro h0
  have hzero := congrArg BitVec.toNat h0
  rw [toNat_ofNat_length hlen] at hzero
  exact hne (List.length_eq_zero_iff.mp hzero)

namespace GrowthOk

/-- One round: the call returns, and behind a page the rest of the buffer is shorter. -/
theorem round (spec : RamfsAllocSpec A hhdm ok) (h : GrowthOk ok s) (offset : Word)
    {buffer : List (BitVec 8)} (hne : buffer ≠ []) (hlen : buffer.length < 2 ^ 64) :
    ∃ chunkSize index pageOffset addr s', index = offset / pageSize ∧
      ramfsGetChunkInfo offset (BitVec.ofNat 64 buffer.length) = (chunkSize, index, pageOffset) ∧
      0 < chunkSize.toNat ∧ ramfsWalkPage A hhdm s index true = some (addr, s') ∧
      GrowthOk ok s' ∧
      (addr ≠ 0 → GrowthOk ok
        { s' with mem := s'.mem.write (addr + pageOffset) (buffer.take chunkSize.toNat) }) := by
  obtain ⟨entry, data, hrep⟩ := h.rep
  obtain ⟨chunkSize, index, pageOffset, hinfo, hindex, hoffset, hpos, hle, hn⟩ :=
    ramfsGetChunkInfo_spec offset (ofNat_length_ne_zero hlen hne)
  have hlt : index.toNat < 2 ^ 52 := by
    have := offset.isLt
    omega
  obtain ⟨addr, s', entry', hwalk, h', hsame, hcases⟩ := hrep.walkPage spec hlt
  have hshape : CountShape s'.node.pageCount := by
    rcases ramfsWalkPage_count hlt hwalk with hcount | hcount
    · rw [hcount]
      exact h.shape
    · exact Or.inr (hcount.shape h.shape)
  have hfile : s'.node.flags &&& vfsFile ≠ 0 := by
    rw [hsame.flags]
    exact h.isFile
  refine ⟨chunkSize, index, pageOffset, addr, s', ?_, hinfo, hpos, hwalk,
    ⟨hfile, hshape, entry', data, h'⟩, fun haddr => ⟨hfile, hshape, ?_⟩⟩
  · exact (congrArg (·.2.1) hinfo).symm
  · rcases hcases with ⟨-, -, rfl⟩ | ⟨h0, -⟩
    · have hentry : Function.update entry index.toNat addr index.toNat = addr :=
        Function.update_self _ _ _
      have hwrite := h'.writeChunk spec (buffer.take chunkSize.toNat) hindex hoffset
        (by rw [List.length_take]; omega) (by rwa [hentry])
      rw [hentry] at hwrite
      exact ⟨_, _, hwrite⟩
    · exact absurd h0 haddr

theorem writeRound (spec : RamfsAllocSpec A hhdm ok) {offset offset' : Word}
    {buffer buffer' : List (BitVec 8)} (h : GrowthOk ok s) (hlen : buffer.length < 2 ^ 64)
    (hround : WriteRound A hhdm (s, offset, buffer) (s', offset', buffer')) :
    GrowthOk ok s' ∧ buffer'.length < 2 ^ 64 := by
  cases hround with
  | next hne hinfo hwalk haddr =>
    obtain ⟨chunkSize, index, pageOffset, addr, s₁, -, hinfo', -, hwalk', -, hwrite⟩ :=
      h.round spec offset hne hlen
    obtain ⟨rfl, hrest⟩ := Prod.mk.inj (hinfo'.symm.trans hinfo)
    cases hrest
    cases hwalk'.symm.trans hwalk
    refine ⟨hwrite haddr, ?_⟩
    rw [List.length_drop]
    omega

theorem writeRounds (spec : RamfsAllocSpec A hhdm ok)
    {p p' : RamfsState α × Word × List (BitVec 8)} (h : GrowthOk ok p.1)
    (hlen : p.2.2.length < 2 ^ 64) (hrounds : Relation.ReflTransGen (WriteRound A hhdm) p p') :
    GrowthOk ok p'.1 ∧ p'.2.2.length < 2 ^ 64 := by
  induction hrounds with
  | refl => exact ⟨h, hlen⟩
  | tail _ hround ih => exact ih.1.writeRound spec ih.2 hround

/-- The loop of `ramfs_ops_write` ends, wherever it starts: with the whole buffer written, or at a
page that cannot be allocated. -/
theorem writeLoop (spec : RamfsAllocSpec A hhdm ok) (fuel : ℕ) (h : GrowthOk ok s)
    (offset actualSize : Word) {buffer : List (BitVec 8)} (hlen : buffer.length < 2 ^ 64)
    (hfuel : buffer.length < fuel) :
    ∃ actual last s', ramfsWriteLoop A hhdm fuel s offset actualSize buffer =
        some (actual, last, s') ∧ GrowthOk ok s' ∧
      ∃ t rest, Relation.ReflTransGen (WriteRound A hhdm) (s, offset, buffer) (t, last, rest) ∧
        (rest = [] ∧ s' = t ∨ ramfsWalkPage A hhdm t (last / pageSize) true = some (0, s')) := by
  induction fuel generalizing s offset actualSize buffer with
  | zero => omega
  | succ fuel ih =>
    by_cases hne : buffer = []
    · subst hne
      exact ⟨actualSize, offset, s, if_pos rfl, h, s, [], .refl, Or.inl ⟨rfl, rfl⟩⟩
    · obtain ⟨chunkSize, index, pageOffset, addr, s₁, hindex, hinfo, hpos, hwalk, h₁, hwrite⟩ :=
        h.round spec offset hne hlen
      rw [ramfsWriteLoop, if_neg hne, hinfo]
      simp only [hwalk, Option.bind_eq_bind, Option.bind_some]
      by_cases haddr : addr = 0
      · subst haddr
        exact ⟨actualSize, offset, s₁, if_pos rfl, h₁, s, buffer, .refl, Or.inr (hindex ▸ hwalk)⟩
      · rw [if_neg haddr]
        have hdrop := List.length_drop (i := chunkSize.toNat) (l := buffer)
        have := List.length_pos_of_ne_nil hne
        have hless : (buffer.drop chunkSize.toNat).length < fuel := by omega
        obtain ⟨actual, last, s', hloop, h', t, rest, hrounds, hend⟩ :=
          ih (hwrite haddr) (offset + chunkSize) (actualSize + chunkSize) (by omega) hless
        exact ⟨actual, last, s', hloop, h', t, rest,
          .head (.next hne hinfo hwalk haddr) hrounds, hend⟩

/-- `ramfs_ops_write` returns, whatever the offset and the size. -/
theorem opsWrite (spec : RamfsAllocSpec A hhdm ok) (h : GrowthOk ok s) (offset : Word)
    {buffer : List (BitVec 8)} (hlen : buffer.length < 2 ^ 64) :
    ∃ res s', ramfsOpsWrite A hhdm s offset buffer = some (res, s') ∧ GrowthOk ok s' := by
  obtain ⟨actual, last, s', hloop, h', -⟩ :=
    h.writeLoop spec (buffer.length + 1) offset 0 hlen (Nat.lt_succ_self _)
  rw [ramfsOpsWrite, if_neg h.isFile, hloop]
  simp only [Option.bind_eq_bind, Option.bind_some]
  obtain ⟨hfile, hshape, entry, data, hrep⟩ := h'
  split
  · refine ⟨_, _, rfl, hfile, hshape, entry, data, ⟨hrep.congr rfl rfl fun _ _ => rfl, ?_⟩⟩
    exact hrep.owns
  · exact ⟨_, _, rfl, hfile, hshape, entry, data, hrep⟩

end GrowthOk

/-! ## Runs -/

/-- One call on a file: a write, of any size at any offset, a read, or anything else that leaves the
memory of the file alone. -/
inductive RamfsCall (A : RamfsAlloc α) (hhdm : Word)
    (ok : α → ByteMem → Set Word → Word → ℕ → Prop) : RamfsState α → RamfsState α → Prop
  | write {s s' : RamfsState α} {offset : Word} {buffer : List (BitVec 8)} {res : Int}
    (hlen : buffer.length < 2 ^ 64)
    (hwrite : ramfsOpsWrite A hhdm s offset buffer = some (res, s')) : RamfsCall A hhdm ok s s'
  | read {s s' : RamfsState α} {offset size : Word} {res : Except ℕ (List (BitVec 8))}
    (hread : ramfsOpsRead A hhdm s offset size = some (res, s')) : RamfsCall A hhdm ok s s'
  | elsewhere {s : RamfsState α} {mem : ByteMem} {alloc : α}
    (hkeep : ∀ pages p n, ok s.alloc s.mem pages p n →
      ok alloc mem pages p n ∧ ∀ x ∈ pages ∪ byteRange p n, mem x = s.mem x) :
    RamfsCall A hhdm ok s { s with mem, alloc }

theorem RamfsCall.growthOk (spec : RamfsAllocSpec A hhdm ok) (hcall : RamfsCall A hhdm ok s s')
    (h : GrowthOk ok s) : GrowthOk ok s' := by
  cases hcall with
  | write hlen hwrite =>
    obtain ⟨_, _, hwrite', h'⟩ := h.opsWrite spec _ hlen
    cases hwrite'.symm.trans hwrite
    exact h'
  | read hread =>
    obtain ⟨entry, data, hrep⟩ := h.rep
    have hsame : ReadsAs A hhdm s data := hrep.readsAs h.isFile
    cases (hsame _ _).symm.trans hread
    exact h
  | elsewhere hkeep =>
    obtain ⟨hfile, hshape, entry, data, hrep⟩ := h
    obtain ⟨howns, hmem⟩ := hkeep _ _ _ hrep.owns
    exact ⟨hfile, hshape, entry, data, ⟨hrep.congr rfl rfl hmem, howns⟩⟩

/-- Growing the array of a file ends and never wraps. In every state of every run a write of any size
at any offset returns; in each of its rounds the count is zero or four times a power of two, a count
that is too small is doubled to one above the index without wrapping, what is cleared is the new tail
of the array, and a failed allocation leaves an array with the old entries. -/
theorem ramfs_growth_never_wraps (spec : RamfsAllocSpec A hhdm ok) (hfresh : s.Fresh ok)
    (hrun : Relation.ReflTransGen (RamfsCall A hhdm ok) s s') (offset : Word)
    {buffer : List (BitVec 8)} (hlen : buffer.length < 2 ^ 64) :
    CountShape s'.node.pageCount ∧
    (∃ res t, ramfsOpsWrite A hhdm s' offset buffer = some (res, t)) ∧
    ∀ (t : RamfsState α) (next : Word) (rest : List (BitVec 8)),
      Relation.ReflTransGen (WriteRound A hhdm) (s', offset, buffer) (t, next, rest) → rest ≠ [] →
      PageWalk A hhdm ok t (next / pageSize) := by
  have h : GrowthOk ok s' := by
    induction hrun with
    | refl =>
      have hcount : CountShape s.node.pageCount := Or.inl hfresh.pageCount
      obtain ⟨entry, hrep⟩ := hfresh.inv.rep
      exact ⟨hfresh.isFile, hcount, entry, _, hrep⟩
    | tail _ hcall ih => exact hcall.growthOk spec ih
  obtain ⟨res, t, hwrite, -⟩ := h.opsWrite spec offset hlen
  refine ⟨h.shape, ⟨res, t, hwrite⟩, fun t next rest hrounds _ => ?_⟩
  obtain ⟨⟨-, hshape, entry, data, hrep⟩, -⟩ := GrowthOk.writeRounds spec h hlen hrounds
  have hindex : (next / pageSize).toNat < 2 ^ 52 := by
    have hsize : (pageSize : Word).toNat = 4096 := rfl
    have := next.isLt
    rw [BitVec.toNat_udiv, hsize]
    omega
  exact hrep.pageWalk spec hshape hindex

/-- A byte at the largest offset, in an empty file: the array would have `2 ^ 52` entries. -/
theorem ramfs_growth_never_wraps_last_page :
    emptyFile.Fresh (BumpOk exampleHhdm) ∧ ∃ n : Word,
      NewCount 0 (0xFFFFFFFFFFFFFFFF / pageSize) n ∧ n.toNat = 2 ^ 52 := by
  have hfresh : emptyFile.Fresh (BumpOk exampleHhdm) :=
    ⟨by decide, rfl, rfl, rfl, bumpOk_empty _ _ _⟩
  obtain ⟨-, -, hrounds⟩ := ramfs_growth_never_wraps (bumpAlloc_spec exampleHhdm) hfresh .refl
    0xFFFFFFFFFFFFFFFF (show [(1 : BitVec 8)].length < 2 ^ 64 by decide)
  obtain ⟨n, hn, -, -⟩ := (hrounds _ _ _ .refl (by decide)).grows (by decide)
  refine ⟨hfresh, n, hn, ?_⟩
  have hgrown : growCount (0xFFFFFFFFFFFFFFFF / pageSize) 65 4 = some 0x10000000000000 := by
    decide +kernel
  obtain rfl := Option.some.inj (hn.grown.symm.trans hgrown)
  rfl

end Pros
