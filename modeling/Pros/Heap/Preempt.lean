import Pros.Heap.Runs

/-!
# The heap and preemption

Syscalls run with interrupts unmasked, and the exit of a timer trap may switch to another task. The
heap takes no lock and masks nothing. Here `kmalloc` and `kfree` run statement by statement, and a
switch may come between any two of them.

A switch in the middle of a call can hand one block to two tasks. While no task is switched away
inside a call, the statements of a call are the call of `Pros.Heap.Model`, and what holds for runs of
whole calls holds for these runs too.
-/

namespace Pros

/-! ## The statements -/

/-- The statements of `kmalloc` once it has a block, with `heap_block_split` inlined. -/
inductive BlockPc
  -- the block is new: its header, and the head of the list
  | growFree
  | growNext
  | growHead
  -- `heap_block_split`: the test, the header of the remainder, the links and the new size
  | split
  | splitSize
  | splitFree
  | splitNext
  | splitLink
  | splitTrim
  | mark
  deriving DecidableEq

/-- What follows `heap_block_coalesce`: the marking of the block in `kmalloc`, or the end of
`kfree`. -/
inductive AfterCoalesce
  | kmalloc (request size block : Word)
  | kfree
  deriving DecidableEq

/-- The next statement of a task in the allocator, with its variables. -/
inductive AllocPc
  | out
  -- `kmalloc`
  | enter (request : Word)
  | search (request size search : Word)
  | grow (request size : Word)
  | growSize (request size block pages : Word)
  | block (request size block : Word) (pc : BlockPc)
  | returned (request p : Word)
  -- `kfree`
  | free (p : Word)
  | freed
  -- `heap_block_coalesce`; `blockEnd` is its variable
  | coalesceEnd (after : AfterCoalesce) (block : Word)
  | coalesce (after : AfterCoalesce) (block blockEnd : Word)
  | coalesceSize (after : AfterCoalesce) (block : Word)
  | coalesceNext (after : AfterCoalesce) (block : Word)
  deriving DecidableEq

/-- Where a caller of `heap_block_coalesce` goes on. -/
def AfterCoalesce.pc : AfterCoalesce → AllocPc
  | .kmalloc request size block => .block request size block .mark
  | .kfree => .freed

/-- A statement of `kmalloc` that works on the block. -/
def blockStep (s : Heap) (request size block : Word) : BlockPc → AllocPc × Heap
  | .growFree => (.block request size block .growNext, s.setIsFree block true)
  | .growNext => (.block request size block .growHead, s.setNext block s.heapBlockList)
  | .growHead => (.block request size block .split, { s with heapBlockList := block })
  | .split =>
    if s.size block < size + heapHeaderSize + heapAlignment then
      (.block request size block .mark, s)
    else (.block request size block .splitSize, s)
  | .splitSize =>
    (.block request size block .splitFree,
      s.setSize (block + heapHeaderSize + size) (s.size block - heapHeaderSize - size))
  | .splitFree =>
    (.block request size block .splitNext, s.setIsFree (block + heapHeaderSize + size) true)
  | .splitNext =>
    (.block request size block .splitLink,
      s.setNext (block + heapHeaderSize + size) (s.next block))
  | .splitLink =>
    (.block request size block .splitTrim, s.setNext block (block + heapHeaderSize + size))
  | .splitTrim =>
    (.coalesceEnd (.kmalloc request size block) (block + heapHeaderSize + size),
      s.setSize block size)
  | .mark => (.returned request (block + heapHeaderSize), s.setIsFree block false)

/-- One statement of `kmalloc` or `kfree`; `pmm` is what `pmm_alloc` answers. -/
def allocStep (hhdm : Word) (pmm : Word → Word) (pc : AllocPc) (s : Heap) :
    Option (AllocPc × Heap) :=
  match pc with
  | .out | .returned _ _ | .freed => none
  | .enter request =>
    if request > sizeMax - heapHeaderSize - pageSize - heapAlignment then
      some (.returned request 0, s)
    else
      let size := heapAlignUp request heapAlignment
      let size := if size = 0 then heapAlignment else size
      some (.search request size s.heapBlockList, s)
  | .search request size search =>
    if search = 0 then some (.grow request size, s)
    else if s.isFree search ∧ s.size search ≥ size then some (.block request size search .split, s)
    else some (.search request size (s.next search), s)
  | .grow request size =>
    let pages := (heapHeaderSize + size + pageSize - 1) / pageSize
    let physAddr := pmm pages
    if physAddr = 0 then some (.returned request 0, s)
    else
      some (.growSize request size (pmmPhysToVirt hhdm physAddr) pages,
        { s with pages := pmmBlock physAddr pages.toNat ++ s.pages })
  | .growSize request size block pages =>
    some (.block request size block .growFree,
      s.setSize block (pages * pageSize - heapHeaderSize))
  | .block request size block pc => some (blockStep s request size block pc)
  | .free p =>
    if p = 0 then some (.freed, s)
    else
      some (.coalesceEnd .kfree (p - heapHeaderSize), s.setIsFree (p - heapHeaderSize) true)
  | .coalesceEnd after block =>
    some (.coalesce after block (block + heapHeaderSize + s.size block), s)
  | .coalesce after block blockEnd =>
    if s.next block ≠ 0 ∧ s.isFree (s.next block) ∧ blockEnd = s.next block then
      some (.coalesceSize after block, s)
    else some (after.pc, s)
  | .coalesceSize after block =>
    some (.coalesceNext after block,
      s.setSize block (s.size block + (heapHeaderSize + s.size (s.next block))))
  | .coalesceNext after block =>
    some (.coalesceEnd after block, s.setNext block (s.next (s.next block)))

section Steps

variable {hhdm : Word} {pmm : Word → Word} {s s' : Heap} {a b c : AllocPc × Heap}
variable {request size block p : Word}

/-- Any number of statements. -/
def AllocSteps (hhdm : Word) (pmm : Word → Word) : AllocPc × Heap → AllocPc × Heap → Prop :=
  Relation.ReflTransGen fun a b => allocStep hhdm pmm a.1 a.2 = some b

/-- One statement, and then others. -/
theorem AllocSteps.head (h : allocStep hhdm pmm a.1 a.2 = some b) (h' : AllocSteps hhdm pmm b c) :
    AllocSteps hhdm pmm a c :=
  Relation.ReflTransGen.head h h'

/-- The statements are deterministic: one that is done on the way to the end is on the way. -/
theorem AllocSteps.of_step (h : AllocSteps hhdm pmm a c) (hend : allocStep hhdm pmm c.1 c.2 = none)
    (hstep : allocStep hhdm pmm a.1 a.2 = some b) : AllocSteps hhdm pmm b c := by
  rcases Relation.ReflTransGen.cases_head h with rfl | ⟨b', hb', hrest⟩
  · rw [hend] at hstep
    cases hstep
  · rw [hstep] at hb'
    cases hb'
    exact hrest

/-- `heap_block_coalesce`. -/
theorem coalesce_steps (after : AfterCoalesce) (fuel : ℕ)
    (h : heapBlockCoalesceLoop fuel s block = some s') :
    AllocSteps hhdm pmm (.coalesceEnd after block, s) (after.pc, s') := by
  induction fuel generalizing s with
  | zero => cases h
  | succ fuel ih =>
    rw [heapBlockCoalesceLoop] at h
    refine AllocSteps.head rfl ?_
    by_cases hmore : s.next block ≠ 0 ∧ s.isFree (s.next block) = true ∧
        block + heapHeaderSize + s.size block = s.next block
    · rw [if_pos hmore] at h
      exact AllocSteps.head (if_pos hmore) <| AllocSteps.head rfl <| AllocSteps.head rfl <| ih h
    · rw [if_neg hmore] at h
      cases h
      exact AllocSteps.head (if_neg hmore) Relation.ReflTransGen.refl

/-- A statement that works on the block. -/
theorem AllocSteps.onBlock {pc : BlockPc}
    (h : AllocSteps hhdm pmm (blockStep s request size block pc) c) :
    AllocSteps hhdm pmm (.block request size block pc, s) c :=
  AllocSteps.head rfl h

/-- The end of `kmalloc`. -/
theorem take_steps (h : kmallocTake s block size = some (p, s')) :
    AllocSteps hhdm pmm (.block request size block .split, s) (.returned request p, s') := by
  rw [kmallocTake, heapBlockSplit] at h
  refine AllocSteps.onBlock ?_
  rw [blockStep]
  by_cases hsmall : s.size block < size + heapHeaderSize + heapAlignment
  · rw [if_pos hsmall] at h ⊢
    cases h
    exact AllocSteps.onBlock Relation.ReflTransGen.refl
  · rw [if_neg hsmall] at h ⊢
    obtain ⟨s₁, hs₁, hret⟩ := Option.bind_eq_some_iff.mp h
    cases hret
    refine AllocSteps.onBlock ?_
    refine AllocSteps.onBlock ?_
    refine AllocSteps.onBlock ?_
    refine AllocSteps.onBlock ?_
    refine AllocSteps.onBlock ?_
    rw [heapBlockCoalesce] at hs₁
    refine (coalesce_steps (.kmalloc request size block) walkBound hs₁).trans ?_
    exact AllocSteps.onBlock Relation.ReflTransGen.refl

/-- The search of `kmalloc`. -/
theorem search_steps (fuel : ℕ) {search : Word}
    (h : kmallocSearch s size fuel search = some block) :
    AllocSteps hhdm pmm (.search request size search, s)
      (if block = 0 then .grow request size else .block request size block .split, s) := by
  induction fuel generalizing search with
  | zero => cases h
  | succ fuel ih =>
    rw [kmallocSearch] at h
    by_cases hend : search = 0
    · rw [if_pos hend] at h
      rw [← Option.some.inj h, if_pos rfl]
      exact AllocSteps.head (if_pos hend) Relation.ReflTransGen.refl
    rw [if_neg hend] at h
    by_cases hfits : s.isFree search = true ∧ s.size search ≥ size
    · rw [if_pos hfits] at h
      cases h
      rw [if_neg hend]
      exact AllocSteps.head ((if_neg hend).trans (if_pos hfits)) Relation.ReflTransGen.refl
    · rw [if_neg hfits] at h
      exact AllocSteps.head ((if_neg hend).trans (if_neg hfits)) (ih h)

/-- `kmalloc` makes a new block. -/
theorem grow_steps {pages : Word} (hpages : pages = (heapHeaderSize + size + pageSize - 1) / pageSize)
    (hpmm : pmm pages ≠ 0)
    (h : kmallocTake (heapPushPages hhdm s (pmm pages) pages) (pmmPhysToVirt hhdm (pmm pages)) size =
      some (p, s')) :
    AllocSteps hhdm pmm (.grow request size, s) (.returned request p, s') := by
  subst hpages
  refine AllocSteps.head (if_neg hpmm) ?_
  refine AllocSteps.head rfl ?_
  refine AllocSteps.onBlock ?_
  refine AllocSteps.onBlock ?_
  refine AllocSteps.onBlock ?_
  exact take_steps h

/-- The statements of `kmalloc` do what `kmalloc` does. -/
theorem kmalloc_steps (h : kmalloc hhdm pmm s request = some (p, s')) :
    AllocSteps hhdm pmm (.enter request, s) (.returned request p, s') := by
  unfold kmalloc at h
  by_cases hlarge : request > sizeMax - heapHeaderSize - pageSize - heapAlignment
  · rw [if_pos hlarge] at h
    cases h
    have hstep : allocStep hhdm pmm (.enter request) s = some (.returned request 0, s) := by
      unfold allocStep
      exact if_pos hlarge
    exact AllocSteps.head hstep Relation.ReflTransGen.refl
  rw [if_neg hlarge] at h
  dsimp only at h
  generalize hsize : (if heapAlignUp request heapAlignment = 0 then heapAlignment
      else heapAlignUp request heapAlignment) = size at h
  have hstep : allocStep hhdm pmm (.enter request) s =
      some (.search request size s.heapBlockList, s) := by
    unfold allocStep
    rw [← hsize]
    exact if_neg hlarge
  refine AllocSteps.head hstep ?_
  obtain ⟨block, hsearch, h⟩ := Option.bind_eq_some_iff.mp h
  refine (search_steps walkBound hsearch).trans ?_
  by_cases hblock : block = 0
  · rw [if_neg (not_not.mpr hblock)] at h
    rw [if_pos hblock]
    by_cases hfail : pmm ((heapHeaderSize + size + pageSize - 1) / pageSize) = 0
    · rw [if_pos hfail] at h
      cases h
      exact AllocSteps.head (if_pos hfail) Relation.ReflTransGen.refl
    · rw [if_neg hfail] at h
      exact grow_steps rfl hfail h
  · rw [if_pos hblock] at h
    rw [if_neg hblock]
    exact take_steps h

/-- The statements of `kfree` do what `kfree` does. -/
theorem kfree_steps (h : kfree s p = some s') :
    AllocSteps hhdm pmm (.free p, s) (.freed, s') := by
  rw [kfree] at h
  by_cases hnull : p = 0
  · rw [if_pos hnull] at h
    cases h
    exact AllocSteps.head (if_pos hnull) Relation.ReflTransGen.refl
  · rw [if_neg hnull] at h
    rw [heapBlockCoalesce] at h
    exact AllocSteps.head (if_neg hnull) (coalesce_steps .kfree walkBound h)

end Steps

/-! ## Tasks -/

/-- Tasks that use the heap. `live` are the results that they hold, each with its task and the size
it was requested with. -/
structure AllocRun where
  heap : Heap
  current : ℕ
  pc : ℕ → AllocPc
  live : List (ℕ × Word × Word)

namespace AllocRun

/-- The running task moves on. -/
def setPc (s : AllocRun) (pc : AllocPc) : ℕ → AllocPc := Function.update s.pc s.current pc

/-- After `heap_init`: nobody has called the allocator. -/
def boot (heap : Heap) : AllocRun where
  heap := heap
  current := 0
  pc := fun _ => .out
  live := []

/-- What is left of the live results when the running task frees `p`. -/
def release (s : AllocRun) (p : Word) : List (ℕ × Word × Word) :=
  s.live.filter fun e => ¬ (e.1 = s.current ∧ e.2.1 = p)

/-- When no task is in the allocator the block list is well formed, and no two live results
overlap. -/
def Exclusive (hhdm : Word) (s : AllocRun) : Prop :=
  ((∀ t, s.pc t = .out) → ∃ bs, HeapInv hhdm s.heap bs) ∧
    s.live.Pairwise fun e e' => e.2.1 ≠ e'.2.1 ∧
      ByteMem.Apart e.2.1 e.2.2.toNat e'.2.1 e'.2.2.toNat

end AllocRun

/-- One step: the running task calls the allocator, executes one statement of it, returns from it or
writes to memory that it holds; or a timer trap switches to another task. -/
inductive AllocRunStep (hhdm : Word) : AllocRun → AllocRun → Prop
  | kmalloc (s : AllocRun) (request : Word) : s.pc s.current = .out →
      AllocRunStep hhdm s { s with pc := s.setPc (.enter request) }
  | kfree (s : AllocRun) (p n : Word) : s.pc s.current = .out → (s.current, p, n) ∈ s.live →
      AllocRunStep hhdm s { s with pc := s.setPc (.free p), live := s.release p }
  | statement (s : AllocRun) (pmm : Word → Word) (pc : AllocPc) (heap : Heap) :
      PmmAnswers hhdm s.heap.pages pmm →
      allocStep hhdm pmm (s.pc s.current) s.heap = some (pc, heap) →
      AllocRunStep hhdm s { s with heap, pc := s.setPc pc }
  | returned (s : AllocRun) (request p : Word) : s.pc s.current = .returned request p →
      AllocRunStep hhdm s
        { s with
          pc := s.setPc .out
          live := if p = 0 then s.live else (s.current, p, request) :: s.live }
  | freed (s : AllocRun) : s.pc s.current = .freed →
      AllocRunStep hhdm s { s with pc := s.setPc .out }
  | write (s : AllocRun) (p n x : Word) (v : BitVec 8) : s.pc s.current = .out →
      (s.current, p, n) ∈ s.live → (x - p).toNat < n.toNat →
      AllocRunStep hhdm s { s with heap := { s.heap with mem := s.heap.mem.store8 x v } }
  | switch (s : AllocRun) (t : ℕ) : AllocRunStep hhdm s { s with current := t }

/-- A step that switches only away from a task that is not in the allocator. -/
def PoliteStep (hhdm : Word) (s s' : AllocRun) : Prop :=
  AllocRunStep hhdm s s' ∧ (s'.current ≠ s.current → s.pc s.current = .out)

/-! ## Calls that are not interrupted -/

/-- From here on `kmalloc` and `kfree` change the heap and do not ask for pages any more. -/
def AllocPc.late : AllocPc → Bool
  | .out | .enter _ | .search _ _ _ | .grow _ _ => false
  | _ => true

section Uninterrupted

variable {hhdm : Word} {pmm : Word → Word} {heap heap' heap₀ : Heap} {pc pc' : AllocPc}
variable {s s' : AllocRun} {live₀ : List (Word × Word)} {bs : List HeapBlk}

/-- Only the entry and the search are followed by one of the first statements. -/
theorem late_of_allocStep (h : allocStep hhdm pmm pc heap = some (pc', heap'))
    (henter : ∀ request, pc ≠ .enter request) (hsearch : ∀ request size b, pc ≠ .search request size b) :
    pc'.late = true := by
  cases pc with
  | enter request => exact absurd rfl (henter request)
  | search request size b => exact absurd rfl (hsearch request size b)
  | grow request size | free p =>
    unfold allocStep at h
    dsimp only at h
    split_ifs at h <;> rw [← (Prod.mk.inj (Option.some.inj h)).1] <;> rfl
  | block request size block pc =>
    have hstep : blockStep heap request size block pc = (pc', heap') := Option.some.inj h
    rw [← (Prod.mk.inj hstep).1]
    cases pc with
    | split =>
      dsimp only
      split <;> rfl
    | _ => rfl
  | coalesce after block blockEnd =>
    unfold allocStep at h
    dsimp only at h
    split_ifs at h <;> rw [← (Prod.mk.inj (Option.some.inj h)).1]
    · rfl
    · cases after <;> rfl
  | growSize | coalesceEnd | coalesceSize | coalesceNext =>
    rw [← (Prod.mk.inj (Option.some.inj h)).1]
    rfl
  | out | returned | freed => cases h

/-- Up to the request for pages nothing changes, and the page allocator does not matter. -/
theorem allocStep_early (h : allocStep hhdm pmm pc heap = some (pc', heap'))
    (hearly : pc'.late = false) :
    heap' = heap ∧ ∀ pmm', allocStep hhdm pmm' pc heap = some (pc', heap') := by
  cases pc with
  | enter | search =>
    refine ⟨?_, fun _ => h⟩
    unfold allocStep at h
    dsimp only at h
    split_ifs at h <;> exact (Prod.mk.inj (Option.some.inj h)).2.symm
  | _ => exact Bool.noConfusion (hearly.symm.trans (late_of_allocStep h (by simp) (by simp)))

/-- Later the page allocator does not matter either. -/
theorem allocStep_late (h : allocStep hhdm pmm pc heap = some (pc', heap')) (hlate : pc.late = true) :
    pc'.late = true ∧ ∀ pmm', allocStep hhdm pmm' pc heap = some (pc', heap') := by
  refine ⟨late_of_allocStep h ?_ ?_, fun pmm' => ?_⟩
  · rintro request rfl
    cases hlate
  · rintro request size b rfl
    cases hlate
  · cases pc <;> first | exact h | cases hlate

/-- How far a task is in a call that began with the heap `heap₀` and the live results `live₀`: its
next statement, the heap and the live results now. -/
inductive Doing (hhdm : Word) (heap₀ : Heap) (live₀ : List (Word × Word)) :
    AllocPc → Heap → List (Word × Word) → Prop
  | out : Doing hhdm heap₀ live₀ .out heap₀ live₀
  -- `kmalloc` before it changes the heap; the page allocator has not been asked
  | finding (pc : AllocPc) (request : Word) : pc.late = false →
      (∀ pmm p heap, PmmAnswers hhdm heap₀.pages pmm →
        kmalloc hhdm pmm heap₀ request = some (p, heap) →
        AllocSteps hhdm pmm (pc, heap₀) (.returned request p, heap)) →
      Doing hhdm heap₀ live₀ pc heap₀ live₀
  | taking (pc : AllocPc) (now : Heap) (request : Word) (pmm : Word → Word) (p : Word)
      (heap : Heap) : pc.late = true → PmmAnswers hhdm heap₀.pages pmm →
      kmalloc hhdm pmm heap₀ request = some (p, heap) →
      AllocSteps hhdm pmm (pc, now) (.returned request p, heap) →
      Doing hhdm heap₀ live₀ pc now live₀
  | freeing (pc : AllocPc) (now : Heap) (p n : Word) (heap : Heap) : pc.late = true →
      kfree heap₀ p = some heap → (p, n) ∈ live₀ →
      AllocSteps hhdm (fun _ => 0) (pc, now) (.freed, heap) →
      Doing hhdm heap₀ live₀ pc now (live₀.filter (·.1 ≠ p))

/-- A statement of a call. -/
theorem Doing.statement (hh : HhdmOk hhdm) {live : List (Word × Word)}
    (hbegan : HeapRun.Inv hhdm { heap := heap₀, live := live₀ } bs)
    (h : Doing hhdm heap₀ live₀ pc heap live) (hpmm : PmmAnswers hhdm heap.pages pmm)
    (hstep : allocStep hhdm pmm pc heap = some (pc', heap')) :
    Doing hhdm heap₀ live₀ pc' heap' live := by
  cases h with
  | out => cases hstep
  | finding _ request hearly hfind =>
    cases hlate : pc'.late with
    | false =>
      obtain ⟨rfl, hany⟩ := allocStep_early hstep hlate
      refine .finding pc' request hlate fun pmm' q h hpmm' hcall => ?_
      exact (hfind pmm' q h hpmm' hcall).of_step rfl (hany pmm')
    | true =>
      -- the page allocator may just have answered
      obtain ⟨⟨q, h⟩, hcall⟩ := ((hbegan.calls_return hh).1 pmm hpmm).1 request
      exact .taking pc' heap' request pmm q h hlate hpmm hcall
        ((hfind pmm q h hpmm hcall).of_step rfl hstep)
  | taking _ _ request pmm₀ p h hlate hpmm₀ hcall htake =>
    obtain ⟨hlate', hany⟩ := allocStep_late hstep hlate
    exact .taking pc' heap' request pmm₀ p h hlate' hpmm₀ hcall (htake.of_step rfl (hany pmm₀))
  | freeing _ _ p n h hlate hcall hmem hfree =>
    obtain ⟨hlate', hany⟩ := allocStep_late hstep hlate
    exact .freeing pc' heap' p n h hlate' hcall hmem (hfree.of_step rfl (hany _))

/-- A statement that ends a call is reached with the result of the call. -/
theorem AllocSteps.eq_of_end {a c : AllocPc × Heap} (h : AllocSteps hhdm pmm a c)
    (hend : allocStep hhdm pmm a.1 a.2 = none) : a = c := by
  rcases Relation.ReflTransGen.cases_head h with heq | ⟨b, hb, -⟩
  · exact heq
  · rw [hend] at hb
    cases hb

/-- Only the running task is in the allocator, and its call began with a heap that was in order. -/
structure AllocRun.Inv (hhdm : Word) (s : AllocRun) (heap₀ : Heap) (live₀ : List (Word × Word))
    (bs : List HeapBlk) : Prop where
  began : HeapRun.Inv hhdm { heap := heap₀, live := live₀ } bs
  doing : Doing hhdm heap₀ live₀ (s.pc s.current) s.heap (s.live.map Prod.snd)
  others : ∀ t ≠ s.current, s.pc t = .out

theorem AllocRun.setPc_current (s : AllocRun) (pc : AllocPc) : s.setPc pc s.current = pc :=
  Function.update_self ..

theorem AllocRun.Inv.setPc_others (h : s.Inv hhdm heap₀ live₀ bs) (pc : AllocPc) :
    ∀ t ≠ s.current, s.setPc pc t = .out := by
  intro t ht
  rw [AllocRun.setPc, Function.update_of_ne ht]
  exact h.others t ht

/-- The running task is not in the allocator: the heap is in order. -/
theorem AllocRun.Inv.of_out (hh : HhdmOk hhdm) (h : s.Inv hhdm heap₀ live₀ bs) (hpc : s.pc s.current = .out) :
    HeapRun.Inv hhdm { heap := s.heap, live := s.live.map Prod.snd } bs := by
  have hdoing := h.doing
  rw [hpc] at hdoing
  generalize s.heap = heap at hdoing ⊢
  generalize s.live.map Prod.snd = live at hdoing ⊢
  cases hdoing with
  | out => exact h.began
  | finding _ request _ hfind =>
    have hpmm : PmmAnswers hhdm heap₀.pages fun _ => 0 := fun _ _ => Or.inl rfl
    obtain ⟨⟨q, h'⟩, hcall⟩ := ((h.began.calls_return hh).1 _ hpmm).1 request
    cases (hfind _ q h' hpmm hcall).eq_of_end rfl
  | taking _ _ request pmm p h hlate => cases hlate
  | freeing _ _ p n h hlate => cases hlate

/-- A new state in which the running task is not in the allocator. -/
theorem AllocRun.Inv.idle (h : s.Inv hhdm heap₀ live₀ bs) {heap : Heap}
    {live : List (ℕ × Word × Word)} {bs' : List HeapBlk}
    (hheap : HeapRun.Inv hhdm { heap, live := live.map Prod.snd } bs') :
    AllocRun.Inv hhdm { s with heap, pc := s.setPc .out, live } heap (live.map Prod.snd) bs' := by
  refine ⟨hheap, ?_, h.setPc_others .out⟩
  change Doing _ _ _ (s.setPc .out s.current) _ _
  rw [AllocRun.setPc_current]
  exact .out

/-- `kmalloc` returns. -/
theorem AllocRun.Inv.returned (hh : HhdmOk hhdm) (h : s.Inv hhdm heap₀ live₀ bs) {request p : Word}
    (hpc : s.pc s.current = .returned request p) :
    ∃ bs', HeapRun.Inv hhdm
      { heap := s.heap,
        live := (if p = 0 then s.live else (s.current, p, request) :: s.live).map Prod.snd } bs' := by
  have hdoing := h.doing
  rw [hpc] at hdoing
  have hlive : (if p = 0 then s.live else (s.current, p, request) :: s.live).map Prod.snd =
      HeapRun.afterAlloc { heap := s.heap, live := s.live.map Prod.snd } p request := by
    rw [HeapRun.afterAlloc]
    split <;> rfl
  rw [hlive]
  generalize s.heap = heap at hdoing ⊢
  generalize s.live.map Prod.snd = live at hdoing ⊢
  cases hdoing with
  | finding _ request' hearly => cases hearly
  | taking _ _ request' pmm q h' _ hpmm hcall htake =>
    cases htake.eq_of_end rfl
    exact h.began.alloc (h.began.heap.kmalloc hh hpmm request) hcall
  | freeing _ _ q n h' _ _ _ hfree => cases hfree.eq_of_end rfl

/-- `kfree` returns. -/
theorem AllocRun.Inv.freed (h : s.Inv hhdm heap₀ live₀ bs) (hpc : s.pc s.current = .freed) :
    ∃ bs', HeapRun.Inv hhdm { heap := s.heap, live := s.live.map Prod.snd } bs' := by
  have hdoing := h.doing
  rw [hpc] at hdoing
  generalize s.heap = heap at hdoing ⊢
  generalize s.live.map Prod.snd = live at hdoing ⊢
  cases hdoing with
  | finding _ request' hearly => cases hearly
  | taking _ _ request' pmm q h' _ hpmm hcall htake => cases htake.eq_of_end rfl
  | freeing _ _ p n h' _ hcall hmem hfree =>
    cases hfree.eq_of_end rfl
    exact h.began.release (Or.inr ⟨n, hmem⟩) hcall

/-- What the running task still holds after it freed `p`. -/
theorem AllocRun.map_release {p n : Word} (hnodup : ((s.live.map Prod.snd).map Prod.fst).Nodup)
    (hmem : (s.current, p, n) ∈ s.live) :
    (s.release p).map Prod.snd = (s.live.map Prod.snd).filter (·.1 ≠ p) := by
  rw [List.filter_map, AllocRun.release]
  refine congrArg _ (List.filter_congr fun e he => ?_)
  rw [List.map_map] at hnodup
  simp only [Function.comp_apply, decide_eq_decide, ne_eq, not_iff_not]
  refine ⟨fun h => h.2, fun h => ⟨?_, h⟩⟩
  rw [List.inj_on_of_nodup_map hnodup he hmem h]

/-- Every step that does not switch inside of a call keeps the invariant. -/
theorem PoliteStep.inv (hh : HhdmOk hhdm) (hstep : PoliteStep hhdm s s')
    (h : s.Inv hhdm heap₀ live₀ bs) : ∃ heap₀' live₀' bs', s'.Inv hhdm heap₀' live₀' bs' := by
  obtain ⟨hstep, hpolite⟩ := hstep
  cases hstep with
  | kmalloc request hpc =>
    refine ⟨s.heap, s.live.map Prod.snd, bs, h.of_out hh hpc, ?_, h.setPc_others _⟩
    change Doing _ _ _ (s.setPc (.enter request) s.current) _ _
    rw [AllocRun.setPc_current]
    exact .finding _ request rfl fun _ _ _ _ hcall => kmalloc_steps hcall
  | kfree p n hpc hmem =>
    have hbegan := h.of_out hh hpc
    have hlive : (p, n) ∈ s.live.map Prod.snd := List.mem_map.mpr ⟨_, hmem, rfl⟩
    obtain ⟨heap, hcall⟩ := (hbegan.calls_return hh).2 p (Or.inr ⟨n, hlive⟩)
    refine ⟨s.heap, s.live.map Prod.snd, bs, hbegan, ?_, h.setPc_others _⟩
    change Doing _ _ _ (s.setPc (.free p) s.current) _ ((s.release p).map Prod.snd)
    rw [AllocRun.setPc_current, AllocRun.map_release hbegan.nodup hmem]
    exact .freeing _ _ p n heap rfl hcall hlive (kfree_steps hcall)
  | statement pmm pc heap hpmm hcall =>
    refine ⟨heap₀, live₀, bs, h.began, ?_, h.setPc_others _⟩
    change Doing _ _ _ (s.setPc pc s.current) _ _
    rw [AllocRun.setPc_current]
    exact h.doing.statement hh h.began hpmm hcall
  | returned request p hpc =>
    obtain ⟨bs', hheap⟩ := h.returned hh hpc
    exact ⟨_, _, bs', h.idle hheap⟩
  | freed hpc =>
    obtain ⟨bs', hheap⟩ := h.freed hpc
    exact ⟨_, _, bs', h.idle hheap⟩
  | write p n x v hpc hmem hx =>
    have hheap := (h.of_out hh hpc).write (v := v) (List.mem_map.mpr ⟨_, hmem, rfl⟩) hx
    refine ⟨_, s.live.map Prod.snd, bs, hheap, ?_, h.others⟩
    change Doing _ _ _ (s.pc s.current) _ _
    rw [hpc]
    exact .out
  | switch t =>
    by_cases ht : t = s.current
    · exact ⟨heap₀, live₀, bs, h.began, ht ▸ h.doing, fun u hu => h.others u (ht ▸ hu)⟩
    · have hout := hpolite ht
      refine ⟨s.heap, s.live.map Prod.snd, bs, h.of_out hh hout, ?_, fun u _ => ?_⟩
      · change Doing _ _ _ (s.pc t) _ _
        rw [h.others t ht]
        exact .out
      · by_cases hu : u = s.current
        · exact hu ▸ hout
        · exact h.others u hu

/-- The results that are live do not overlap. -/
theorem HeapRun.Inv.live_apart {s : HeapRun} (h : s.Inv hhdm bs) :
    s.live.Pairwise fun e e' => e.1 ≠ e'.1 ∧ ByteMem.Apart e.1 e.2.toNat e'.1 e'.2.toNat := by
  have hpair : s.live.Pairwise (fun e e' => e.1 ≠ e'.1) := List.pairwise_map.mp h.nodup
  refine hpair.imp_of_mem fun {e e'} he he' hne => ⟨hne, ?_⟩
  obtain ⟨b, hb, -, hp, hn⟩ := h.live e he
  obtain ⟨c, hc, -, hp', hn'⟩ := h.live e' he'
  have hbc : b ≠ c := fun heq => hne (by rw [hp, hp', heq])
  rw [hp, hp']
  exact ((h.heap.payload_apart hb hc).1 hbc).mono hn hn'

/-- What the tasks hold was live when the call of the running task began. -/
theorem Doing.sublist {live : List (Word × Word)} (h : Doing hhdm heap₀ live₀ pc heap live) :
    live.Sublist live₀ := by
  cases h with
  | freeing => exact List.filter_sublist
  | _ => exact List.Sublist.refl _

theorem AllocRun.Inv.exclusive (hh : HhdmOk hhdm) (h : s.Inv hhdm heap₀ live₀ bs) :
    s.Exclusive hhdm := by
  refine ⟨fun hout => ⟨bs, (h.of_out hh (hout s.current)).heap⟩, ?_⟩
  exact List.pairwise_map.mp (h.began.live_apart.sublist h.doing.sublist)

end Uninterrupted

/-- Tasks that are switched only outside of the allocator, in any number and with any calls: in every
state of every run the heap is well formed when no call is under way, and no two results that tasks
hold overlap. -/
theorem allocation_exclusive {hhdm : Word} (hh : HhdmOk hhdm) {pmm : Word → Word}
    (hpmm : PmmAnswers hhdm [] pmm) {mem : ByteMem} {heap : Heap}
    (hinit : heapInit hhdm pmm mem = some heap) {s : AllocRun}
    (hrun : Relation.ReflTransGen (PoliteStep hhdm) (.boot heap) s) : s.Exclusive hhdm := by
  obtain ⟨heap₀, live₀, bs, h⟩ : ∃ heap₀ live₀ bs, s.Inv hhdm heap₀ live₀ bs := by
    induction hrun with
    | refl => exact ⟨heap, [], _, HeapRun.Inv.init hh hpmm hinit, .out, fun _ _ => rfl⟩
    | tail _ hstep ih =>
      obtain ⟨heap₀, live₀, bs, h⟩ := ih
      exact hstep.inv hh h
  exact h.exclusive hh

/-! ## Two tasks and one block -/

namespace AllocRun

/-- The running task executes `n` statements; there are no pages left. -/
def statements (hhdm : Word) : ℕ → AllocRun → Option AllocRun
  | 0, s => some s
  | n + 1, s => do
    let (pc, heap) ← allocStep hhdm (fun _ => 0) (s.pc s.current) s.heap
    statements hhdm n { s with heap, pc := s.setPc pc }

/-- The running task calls `kmalloc` and executes `n` statements of it. -/
def callKmalloc (hhdm request : Word) (n : ℕ) (s : AllocRun) : Option AllocRun :=
  if s.pc s.current = .out then
    statements hhdm n { s with pc := s.setPc (.enter request) }
  else none

/-- The running task executes `n` statements and returns from `kmalloc`. -/
def finishKmalloc (hhdm : Word) (n : ℕ) (s : AllocRun) : Option AllocRun := do
  let s ← statements hhdm n s
  match s.pc s.current with
  | .returned request p =>
    some { s with
      pc := s.setPc .out
      live := if p = 0 then s.live else (s.current, p, request) :: s.live }
  | _ => none

variable {hhdm request : Word} {n : ℕ} {s s' : AllocRun}

theorem statements_steps (h : statements hhdm n s = some s') :
    Relation.ReflTransGen (PoliteStep hhdm) s s' := by
  induction n generalizing s with
  | zero =>
    cases h
    exact .refl
  | succ n ih =>
    obtain ⟨⟨pc, heap⟩, hstep, hrest⟩ := Option.bind_eq_some_iff.mp h
    exact .head ⟨.statement s _ pc heap (fun _ _ => Or.inl rfl) hstep, fun hne => absurd rfl hne⟩
      (ih hrest)

theorem callKmalloc_steps (h : callKmalloc hhdm request n s = some s') :
    Relation.ReflTransGen (PoliteStep hhdm) s s' := by
  rw [callKmalloc] at h
  split_ifs at h with hpc
  exact .head ⟨.kmalloc s request hpc, fun hne => absurd rfl hne⟩ (statements_steps h)

theorem finishKmalloc_steps (h : finishKmalloc hhdm n s = some s') :
    Relation.ReflTransGen (PoliteStep hhdm) s s' := by
  obtain ⟨s₁, hs₁, hret⟩ := Option.bind_eq_some_iff.mp h
  split at hret
  · rename_i request p hpc
    cases hret
    exact (statements_steps hs₁).tail ⟨.returned s₁ request p hpc, fun hne => absurd rfl hne⟩
  · cases hret

/-- Afterwards the task is not in the allocator. -/
theorem finishKmalloc_out (h : finishKmalloc hhdm n s = some s') : s'.pc s'.current = .out := by
  obtain ⟨s₁, -, hret⟩ := Option.bind_eq_some_iff.mp h
  split at hret
  · cases hret
    exact s₁.setPc_current .out
  · cases hret

end AllocRun

/-- Task 0 finds a free block and is switched away before it marks it; task 1 allocates the same
block; then task 0 goes on. -/
def preemptedRun : Option AllocRun := do
  let s ← (AllocRun.boot onePageHeap).callKmalloc exampleHhdm 16 2
  let s ← { s with current := 1 }.callKmalloc exampleHhdm 16 2
  let s ← s.finishKmalloc exampleHhdm 9
  { s with current := 0 }.finishKmalloc exampleHhdm 2

/-- A switch between the search and the marking hands one block to two tasks. -/
theorem allocation_preempted_overlaps :
    ∃ (pmm : Word → Word) (heap : Heap) (s : AllocRun), PmmAnswers exampleHhdm [] pmm ∧
      heapInit exampleHhdm pmm (fun _ => 0) = some heap ∧
      Relation.ReflTransGen (AllocRunStep exampleHhdm) (.boot heap) s ∧
      s.live = [(0, 0xffff800000001020, 16), (1, 0xffff800000001020, 16)] ∧
      ¬ s.Exclusive exampleHhdm := by
  have hlive : preemptedRun.map AllocRun.live =
      some [(0, 0xffff800000001020, 16), (1, 0xffff800000001020, 16)] := by decide +kernel
  obtain ⟨s, hs, hlive⟩ := Option.map_eq_some_iff.mp hlive
  rw [preemptedRun] at hs
  obtain ⟨s₁, hs₁, hs⟩ := Option.bind_eq_some_iff.mp hs
  obtain ⟨s₂, hs₂, hs⟩ := Option.bind_eq_some_iff.mp hs
  obtain ⟨s₃, hs₃, hs⟩ := Option.bind_eq_some_iff.mp hs
  have hmono {a b : AllocRun} (h : Relation.ReflTransGen (PoliteStep exampleHhdm) a b) :
      Relation.ReflTransGen (AllocRunStep exampleHhdm) a b :=
    Relation.ReflTransGen.mono (r := PoliteStep exampleHhdm) (fun _ _ hstep => hstep.1) a b h
  refine ⟨onePage, onePageHeap, s, onePage_answers, onePageHeap_init, ?_, hlive, fun h => ?_⟩
  · have h₁ := hmono (AllocRun.callKmalloc_steps hs₁)
    have h₂ := hmono (AllocRun.callKmalloc_steps hs₂)
    have h₃ := hmono (AllocRun.finishKmalloc_steps hs₃)
    have h₄ := hmono (AllocRun.finishKmalloc_steps hs)
    exact (((h₁.tail (.switch s₁ 1)).trans h₂).trans h₃).tail (.switch s₃ 0) |>.trans h₄
  · have hpair := h.2
    rw [hlive] at hpair
    exact ((List.pairwise_cons.mp hpair).1 _ List.mem_cons_self).1 rfl

/-- Task 0 allocates, and is switched away when its call has returned; then task 1 allocates. -/
def politeRun : Option AllocRun := do
  let s ← (AllocRun.boot onePageHeap).callKmalloc exampleHhdm 16 2
  let s ← s.finishKmalloc exampleHhdm 9
  let s ← { s with current := 1 }.callKmalloc exampleHhdm 16 3
  s.finishKmalloc exampleHhdm 9

/-- A switch between two calls: the tasks get different blocks. -/
theorem allocation_exclusive_two_tasks :
    ∃ s : AllocRun, Relation.ReflTransGen (PoliteStep exampleHhdm) (.boot onePageHeap) s ∧
      s.live = [(1, 0xffff800000001050, 16), (0, 0xffff800000001020, 16)] ∧
      s.Exclusive exampleHhdm := by
  have hlive : politeRun.map AllocRun.live =
      some [(1, 0xffff800000001050, 16), (0, 0xffff800000001020, 16)] := by decide +kernel
  obtain ⟨s, hs, hlive⟩ := Option.map_eq_some_iff.mp hlive
  rw [politeRun] at hs
  obtain ⟨s₁, hs₁, hs⟩ := Option.bind_eq_some_iff.mp hs
  obtain ⟨s₂, hs₂, hs⟩ := Option.bind_eq_some_iff.mp hs
  obtain ⟨s₃, hs₃, hs⟩ := Option.bind_eq_some_iff.mp hs
  have hreturned := (AllocRun.callKmalloc_steps hs₁).trans (AllocRun.finishKmalloc_steps hs₂)
  have hswitch : PoliteStep exampleHhdm s₂ { s₂ with current := 1 } :=
    ⟨.switch s₂ 1, fun _ => AllocRun.finishKmalloc_out hs₂⟩
  have hrun := ((hreturned.tail hswitch).trans (AllocRun.callKmalloc_steps hs₃)).trans
    (AllocRun.finishKmalloc_steps hs)
  exact ⟨s, hrun, hlive,
    allocation_exclusive exampleHhdm_ok onePage_answers onePageHeap_init hrun⟩

end Pros
