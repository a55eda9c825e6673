import Pros.Proc.ElfCovers
import Pros.Proc.UserStack

/-!
# What a program finds on its stack

If the arguments fit into the page and `elf_build_user_stack` succeeds, the context shows them: the
words from the stack pointer on are `argc`, the pointers of `argv`, a NULL, the pointers of `envp`, a
NULL and `AT_NULL`, and the pointers lead to the strings, which stand above the words, one below the
other.
-/

namespace Pros

variable {arch : Arch} {hhdm base pageVaddr stackTop a : Word} {roots free : List Word} {v : Vmm}
variable {kind : Word → Option ℕ} {ctx : VmmContext} {m : ByteMem} {args : UserArgs}

/-! ## The bytes of a context -/

/-- The byte that a context shows at an address. -/
def ctxByte (arch : Arch) (hhdm : Word) (v : Vmm) (ctx : VmmContext) (va : Word) :
    Option (BitVec 8) :=
  (ctxTranslate arch hhdm v ctx va).map fun e =>
    v.pmm.mem (pmmPhysToVirt hhdm (arch.vmmPteGetPhys e.2) +
      BitVec.ofNat 64 (va.toNat % (4096 * 512 ^ e.1)))

/-- The context shows these bytes from an address on. -/
def ShowsBytes (arch : Arch) (hhdm : Word) (v : Vmm) (ctx : VmmContext) (va : Word)
    (bs : List (BitVec 8)) : Prop :=
  ∀ i < bs.length, ctxByte arch hhdm v ctx (va + BitVec.ofNat 64 i) = some (bs.getD i 0)

/-- A mapped page shows the bytes of its frame. -/
theorem showsBytes_of_holds {pte : Word} {off : ℕ} {bs : List (BitVec 8)}
    (htrans : ctxTranslate arch hhdm v ctx pageVaddr = some (0, pte))
    (halign : pageVaddr.toNat % 4096 = 0)
    (hheld : v.pmm.mem.Holds (pmmPhysToVirt hhdm (arch.vmmPteGetPhys pte) + BitVec.ofNat 64 off) bs)
    (hfit : off + bs.length ≤ 4096) :
    ShowsBytes arch hhdm v ctx (pageVaddr + BitVec.ofNat 64 off) bs := by
  intro i hi
  have hlt := pageVaddr.isLt
  have htoNat : (pageVaddr + BitVec.ofNat 64 off + BitVec.ofNat 64 i).toNat =
      pageVaddr.toNat + (off + i) := by
    rw [add_assoc, ← BitVec.ofNat_add, BitVec.toNat_add, BitVec.toNat_ofNat]
    omega
  have hpage : pageNumber (pageVaddr + BitVec.ofNat 64 off + BitVec.ofNat 64 i) =
      pageNumber pageVaddr := by
    rw [pageNumber, pageNumber, htoNat]
    omega
  have hoff : (pageVaddr.toNat + (off + i)) % (4096 * 512 ^ 0) = off + i := by omega
  rw [ctxByte, ctxTranslate_eq_of_pageNumber hpage, htrans, Option.map_some, htoNat, hoff,
    BitVec.ofNat_add, ← add_assoc, hheld i hi]

/-! ## Words and strings in the page -/

/-- Words that are held one behind the other. -/
theorem holds_word {ws : List Word} {w : Word} {rest : List (BitVec 8)} {i : ℕ}
    (h : m.Holds a (ws.flatMap PushDown.wordBytes ++ rest)) (hw : ws[i]? = some w) :
    m.Holds (a + BitVec.ofNat 64 (8 * i)) (PushDown.wordBytes w) := by
  induction ws generalizing a i with
  | nil => cases hw
  | cons w' ws ih =>
    rw [List.flatMap_cons, List.append_assoc, ByteMem.holds_append, PushDown.length_wordBytes] at h
    cases i with
    | zero =>
      cases hw
      exact (add_zero a).symm ▸ h.1
    | succ i =>
      rw [Nat.mul_succ, add_comm (8 * i), BitVec.ofNat_add, ← add_assoc]
      exact ih h.2 hw

/-- Strings lie below offset `top` and above what is below all of them. -/
theorem stringOffsets_bounds {ss : List (List (BitVec 8))} {s : List (BitVec 8)} {top off i : ℕ}
    (hfit : stringBytes ss ≤ top) (hoff : (stringOffsets top ss)[i]? = some off)
    (hs : ss[i]? = some s) : top - stringBytes ss ≤ off ∧ off + (s.length + 1) ≤ top := by
  induction ss generalizing top i with
  | nil => cases hs
  | cons s' ss ih =>
    rw [stringBytes_cons] at hfit ⊢
    cases i with
    | zero =>
      cases hoff
      cases hs
      omega
    | succ i =>
      have htail : (stringOffsets (top - (s'.length + 1)) ss)[i]? = some off := hoff
      have hbounds := ih (by omega) htail hs
      omega

/-- Of two strings the later one stands below the earlier one. -/
theorem stringOffsets_lt {ss : List (List (BitVec 8))} {s : List (BitVec 8)} {top off off' i j : ℕ}
    (hfit : stringBytes ss ≤ top) (hij : i < j) (hoff : (stringOffsets top ss)[i]? = some off)
    (hoff' : (stringOffsets top ss)[j]? = some off') (hs : ss[j]? = some s) :
    off' + (s.length + 1) ≤ off := by
  induction ss generalizing top i j with
  | nil => cases hs
  | cons s' ss ih =>
    rw [stringBytes_cons] at hfit
    obtain ⟨j, rfl⟩ := Nat.exists_eq_succ_of_ne_zero (Nat.ne_zero_of_lt hij)
    cases i with
    | zero =>
      cases hoff
      have htail : (stringOffsets (top - (s'.length + 1)) ss)[j]? = some off' := hoff'
      exact (stringOffsets_bounds (by omega) htail hs).2
    | succ i => exact ih (by omega) (Nat.lt_of_succ_lt_succ hij) hoff hoff' hs

/-- The strings that are held below offset `top` are held at their offsets. -/
theorem holds_string {ss : List (List (BitVec 8))} {s : List (BitVec 8)} {top off i : ℕ}
    (hfit : stringBytes ss ≤ top)
    (h : m.Holds (base + BitVec.ofNat 64 (top - stringBytes ss)) (stringImage ss))
    (hoff : (stringOffsets top ss)[i]? = some off) (hs : ss[i]? = some s) :
    m.Holds (base + BitVec.ofNat 64 off) (s ++ [0]) := by
  induction ss generalizing top i with
  | nil => cases hs
  | cons s' ss ih =>
    rw [stringBytes_cons] at hfit h
    rw [stringImage, ByteMem.holds_append, length_stringImage, add_assoc base,
      ← BitVec.ofNat_add] at h
    cases i with
    | zero =>
      cases hoff
      obtain rfl := Option.some.inj hs
      have heq : top - (s'.length + 1 + stringBytes ss) + stringBytes ss = top - (s'.length + 1) := by
        omega
      rw [heq] at h
      exact h.2
    | succ i =>
      rw [show top - (s'.length + 1 + stringBytes ss) = top - (s'.length + 1) - stringBytes ss by
        omega] at h
      exact ih (by omega) h.1 hoff hs

theorem stringImage_append (ss ss' : List (List (BitVec 8))) :
    stringImage (ss ++ ss') = stringImage ss' ++ stringImage ss := by
  induction ss with
  | nil => exact (List.append_nil _).symm
  | cons s ss ih => rw [List.cons_append, stringImage, ih, stringImage, List.append_assoc]

theorem stringAddrs_append (top : ℕ) (ss ss' : List (List (BitVec 8))) :
    stringAddrs pageVaddr top (ss ++ ss') =
      stringAddrs pageVaddr top ss ++ stringAddrs pageVaddr (top - stringBytes ss) ss' := by
  induction ss generalizing top with
  | nil => rfl
  | cons s ss ih =>
    have htail := ih (top - (s.length + 1))
    rw [Nat.sub_sub, ← stringBytes_cons] at htail
    simp only [stringAddrs, List.cons_append, stringOffsets, List.map_cons] at htail ⊢
    rw [htail]

/-! ## Decoding -/

/-- Reading the stack from `sp` on gives the arguments. -/
structure StackDecodes (arch : Arch) (hhdm : Word) (v : Vmm) (ctx : VmmContext)
    (stackTop sp : Word) (args : UserArgs) (argvPtrs envpPtrs : List Word) : Prop where
  aligned : sp.toNat % 16 = 0
  /-- The stack pointer lies in the page below `stack_top`. -/
  inPage : stackTop.toNat - 4096 ≤ sp.toNat ∧ sp.toNat < stackTop.toNat
  argv : argvPtrs.length = args.argv.length
  envp : envpPtrs.length = args.envp.length
  /-- `argc`, the pointers with their terminators, and `AT_NULL`. -/
  words : ∀ (i : ℕ) w, (BitVec.ofInt 64 args.argc :: (argvPtrs ++ 0 :: (envpPtrs ++ [0, 0, 0])))[i]? =
    some w → ShowsBytes arch hhdm v ctx (sp + BitVec.ofNat 64 (8 * i)) (PushDown.wordBytes w)
  /-- The pointers lead to the strings, which end with a NUL and stand above the words. -/
  strings : ∀ (i : ℕ) ptr s, (argvPtrs ++ envpPtrs)[i]? = some ptr →
    (args.argv ++ args.envp)[i]? = some s →
    ShowsBytes arch hhdm v ctx ptr (s ++ [0]) ∧
      sp.toNat + 8 * (args.argv.length + args.envp.length + 5) ≤ ptr.toNat ∧
      ptr.toNat + (s.length + 1) ≤ stackTop.toNat
  /-- No two strings overlap. -/
  apart : ∀ (i j : ℕ) ptr ptr' s, i < j → (argvPtrs ++ envpPtrs)[i]? = some ptr →
    (argvPtrs ++ envpPtrs)[j]? = some ptr' → (args.argv ++ args.envp)[j]? = some s →
    ptr'.toNat + (s.length + 1) ≤ ptr.toNat

theorem length_page (args : UserArgs) (pageVaddr : Word) :
    (args.page pageVaddr).length = args.size := by
  simp only [UserArgs.page, List.length_append, length_flatMap_wordBytes, length_words,
    List.length_replicate, length_stringImage, UserArgs.size, stringBytes_append]
  omega

/-- The words start at a multiple of 16. -/
theorem size_aligned (hfit : args.Fits) (hargc : 0 ≤ args.argc) : (4096 - args.size) % 16 = 0 := by
  have hcount := args.count
  have hsize : args.size ≤ 4096 := hfit
  rw [UserArgs.size, UserArgs.padding] at hsize ⊢
  by_cases heven : (((4096 - stringBytes (args.argv ++ args.envp)) / 8 : ℕ) + args.argc +
      args.envp.length + 5) % 2 = 0
  · rw [if_pos heven] at hsize ⊢
    omega
  · rw [if_neg heven] at hsize ⊢
    omega

/-- The strings of the page. -/
theorem holds_stringImage (hfit : args.Fits)
    (h : m.Holds (base + BitVec.ofNat 64 (4096 - args.size)) (args.page pageVaddr)) :
    m.Holds (base + BitVec.ofNat 64 (4096 - stringBytes (args.argv ++ args.envp)))
      (stringImage (args.argv ++ args.envp)) := by
  have hsize : stringBytes (args.argv ++ args.envp) + args.padding +
    8 * (args.argv.length + args.envp.length + 5) ≤ 4096 := hfit
  have hwords : args.size = stringBytes (args.argv ++ args.envp) + args.padding +
    8 * (args.argv.length + args.envp.length + 5) := rfl
  have hrest := (ByteMem.holds_append.mp (ByteMem.holds_append.mp h).2).2
  rw [length_flatMap_wordBytes, length_words, List.length_replicate, add_assoc, add_assoc,
    ← BitVec.ofNat_add, ← BitVec.ofNat_add, ← stringImage_append] at hrest
  rwa [show 4096 - args.size + (8 * (args.argv.length + args.envp.length + 5) + args.padding) =
    4096 - stringBytes (args.argv ++ args.envp) by omega] at hrest

theorem exists_offset {ss : List (List (BitVec 8))} {ptr : Word} {top i : ℕ}
    (h : (stringAddrs pageVaddr top ss)[i]? = some ptr) :
    ∃ off, (stringOffsets top ss)[i]? = some off ∧ ptr = pageVaddr + BitVec.ofNat 64 off := by
  rw [stringAddrs, List.getElem?_map, Option.map_eq_some_iff] at h
  obtain ⟨off, hoff, rfl⟩ := h
  exact ⟨off, hoff, rfl⟩

/-- The page, mapped below `stack_top`, shows the arguments. -/
theorem stackDecodes_of_page {pte : Word} {page : PushDown} (hfit : args.Fits)
    (hargc : 0 ≤ args.argc) (halign : stackTop.toNat % 4096 = 0) (htop : 4096 ≤ stackTop.toNat)
    (hpage : PushDown.Shows m (pmmPhysToVirt hhdm (arch.vmmPteGetPhys pte)) 4096 page
      (args.page (stackTop - pageSize)))
    (hmem : ByteMem.AgreeOn page.mem v.pmm.mem (pmmPhysToVirt hhdm (arch.vmmPteGetPhys pte)) 4096)
    (htrans : ctxTranslate arch hhdm v ctx (stackTop - pageSize) = some (0, pte)) :
    StackDecodes arch hhdm v ctx stackTop (stackTop - pageSize + page.cursor) args
      (stringAddrs (stackTop - pageSize) 4096 args.argv)
      (stringAddrs (stackTop - pageSize) (4096 - stringBytes args.argv) args.envp) := by
  set pageVaddr := stackTop - pageSize with hvaddr
  set base := pmmPhysToVirt hhdm (arch.vmmPteGetPhys pte)
  have hsize : args.size ≤ 4096 := hfit
  have hpageVaddr : pageVaddr.toNat = stackTop.toNat - 4096 := by bv_omega
  have haddr : ∀ off ≤ 4096, (pageVaddr + BitVec.ofNat 64 off).toNat = pageVaddr.toNat + off := by
    intro off hoff
    have hlt := stackTop.isLt
    rw [BitVec.toNat_add, BitVec.toNat_ofNat]
    omega
  have hcursor := hpage.toNat_cursor
  rw [length_page] at hcursor
  have hcursor' : page.cursor = BitVec.ofNat 64 (4096 - args.size) := by
    rw [← hcursor, BitVec.ofNat_toNat, BitVec.setWidth_eq]
  -- the bytes of the page in the memory of the machine
  have hheld : v.pmm.mem.Holds (base + BitVec.ofNat 64 (4096 - args.size)) (args.page pageVaddr) := by
    intro i hi
    rw [← hcursor', ← hpage.bytes i hi]
    refine hmem _ ?_
    rw [length_page] at hi
    rw [add_assoc, add_sub_cancel_left, BitVec.toNat_add, hcursor, BitVec.toNat_ofNat]
    omega
  have hshows : ∀ off bs, v.pmm.mem.Holds (base + BitVec.ofNat 64 off) bs → off + bs.length ≤ 4096 →
      ShowsBytes arch hhdm v ctx (pageVaddr + BitVec.ofNat 64 off) bs := fun off bs =>
    showsBytes_of_holds htrans (by omega)
  -- the pointers and the strings, those of argv and envp together
  have hptrs : stringAddrs pageVaddr 4096 args.argv ++
      stringAddrs pageVaddr (4096 - stringBytes args.argv) args.envp =
      stringAddrs pageVaddr 4096 (args.argv ++ args.envp) := (stringAddrs_append _ _ _).symm
  have hwords : args.size = stringBytes (args.argv ++ args.envp) + args.padding +
    8 * (args.argv.length + args.envp.length + 5) := rfl
  have hstrings := holds_stringImage hfit hheld
  refine ⟨?_, ?_, length_stringAddrs _ _, length_stringAddrs _ _, ?_, ?_, ?_⟩
  · rw [hcursor', haddr _ (by omega)]
    have := size_aligned hfit hargc
    omega
  · rw [hcursor', haddr _ (by omega)]
    omega
  · intro i w hw
    have hi : i < args.argv.length + args.envp.length + 5 := by
      rw [← length_words args pageVaddr]
      exact (List.getElem?_eq_some_iff.mp hw).1
    have hword := holds_word hheld hw
    rw [add_assoc, ← BitVec.ofNat_add] at hword
    rw [hcursor', add_assoc, ← BitVec.ofNat_add]
    refine hshows _ _ hword ?_
    rw [PushDown.length_wordBytes]
    omega
  · intro i ptr s hptr hs
    rw [hptrs] at hptr
    obtain ⟨off, hoff, rfl⟩ := exists_offset hptr
    obtain ⟨hlo, hhi⟩ := stringOffsets_bounds (by omega) hoff hs
    rw [hcursor', haddr _ (by omega), haddr _ (by omega)]
    refine ⟨hshows _ _ (holds_string (by omega) hstrings hoff hs) ?_, by omega, by omega⟩
    rw [List.length_append, List.length_singleton]
    omega
  · intro i j ptr ptr' s hij hptr hptr' hs
    rw [hptrs] at hptr hptr'
    obtain ⟨off, hoff, rfl⟩ := exists_offset hptr
    obtain ⟨off', hoff', rfl⟩ := exists_offset hptr'
    have hlt := stringOffsets_lt (by omega) hij hoff hoff' hs
    have hi : i < (args.argv ++ args.envp).length := by
      have := (List.getElem?_eq_some_iff.mp hs).1
      omega
    obtain ⟨-, hhi⟩ := stringOffsets_bounds (by omega) hoff (List.getElem?_eq_getElem hi)
    rw [haddr _ (by omega), haddr _ (by omega)]
    omega

/-! ## The call -/

/-- The initial user stack decodes back to its arguments: if they fit into the page, the call returns
0, or a stack pointer from which reading gives the arguments. -/
theorem user_stack_decodes (stackTop : Word) (args : UserArgs) (hh : HhdmOk hhdm)
    (hroots : ContextRoots arch hhdm v ctx roots)
    (hspaces : Spaces arch hhdm kind v.pmm roots free)
    (hclear : NoBlock arch hhdm v.pmm (pageNumber (stackTop - pageSize)) (vmmLevels - 1)
      (vmmRoot arch v ctx (stackTop - pageSize)))
    (halign : stackTop.toNat % 4096 = 0) (htop : 4096 ≤ stackTop.toNat) (hargc : 0 ≤ args.argc)
    (hfit : args.Fits) :
    ∃ sp v', elfBuildUserStack arch hhdm ctx stackTop args v = some (sp, v') ∧
      (sp ≠ 0 → ∃ argvPtrs envpPtrs,
        StackDecodes arch hhdm v' ctx stackTop sp args argvPtrs envpPtrs) := by
  rcases hspaces.list.alloc_one hh with ⟨rfl, -⟩ | ⟨p, free', s₁, rfl, hsome, hlist, -, hmem⟩
  · exact ⟨0, v, elfBuildUserStack_of_nil hh hspaces.list, fun hne => absurd rfl hne⟩
  have hp := hspaces.list.page p List.mem_cons_self
  have hnot : p ∉ free' := (List.nodup_cons.mp hspaces.list.nodup).1
  have hkind := hspaces.kind_of_free (z := p) List.mem_cons_self
  -- filling the page
  set page := buildUserStack (pmmPhysToVirt hhdm p) (stackTop - pageSize) args s₁.mem with hdef
  have hpage : PushDown.Shows s₁.mem (pmmPhysToVirt hhdm p) 4096 page
      (args.page (stackTop - pageSize)) := buildUserStack_shows hfit s₁.mem
  have hlist₂ : FreeList hhdm { s₁ with mem := page.mem } free' :=
    hlist.of_write hh hp hnot rfl hpage.outside
  obtain ⟨h₂, hslots⟩ := hspaces.take hh hlist₂ fun x hx =>
    (hpage.outside x hx).trans (congrFun hmem x)
  have hroots₂ := hroots.setPmm { s₁ with mem := page.mem }
  -- mapping it
  obtain ⟨res, s₃, kind', free'', hmap, hext, -, hcases⟩ := h₂.vmmMapPage
    (v := { v with pmm := { s₁ with mem := page.mem } }) hh (hroots₂.root (stackTop - pageSize))
    (hroots₂.getRootTable _) (by
      rw [vmmRoot_setPmm]
      exact hspaces.noBlock_congr hslots (hspaces.root _ (hroots.root _)) hclear)
    (hspaces.fits p List.mem_cons_self) (vmmUser ||| vmmWritable ||| vmmNoExecute)
  have hcall : elfBuildUserStack arch hhdm ctx stackTop args v =
      some (if res ≠ 0 then 0 else stackTop - pageSize + page.cursor, { v with pmm := s₃ }) := by
    rw [elfBuildUserStack]
    simp only [hsome, Option.bind_eq_bind, Option.bind_some, if_neg hp.ne_zero, ← hdef, hmap]
    split <;> rfl
  refine ⟨_, _, hcall, fun hne => ?_⟩
  rcases hcases with ⟨rfl, hset⟩ | ⟨rfl, -, -⟩
  · have hphys : arch.vmmPteGetPhys (arch.vmmMakePte p
        (vmmUser ||| vmmWritable ||| vmmNoExecute ||| vmmPresent) false) = p :=
      Arch.vmmPteGetPhys_vmmMakePte (hspaces.fits p List.mem_cons_self) false
    have htrans : ctxTranslate arch hhdm { v with pmm := s₃ } ctx (stackTop - pageSize) =
        some (0, arch.vmmMakePte p (vmmUser ||| vmmWritable ||| vmmNoExecute ||| vmmPresent)
          false) := by
      rw [ctxTranslate, vmmRoot_setPmm]
      exact vmmRoot_setPmm arch v { s₁ with mem := page.mem } ctx _ ▸ hset.set
    refine ⟨_, _, stackDecodes_of_page (m := s₁.mem) hfit hargc halign htop ?_ ?_ htrans⟩
    · rw [hphys]
      exact hpage
    · rw [hphys]
      exact hext.agreeOn hh hp (hext.frame hnot hkind).2
  · exact absurd rfl hne

/-- A program that is started with them finds them below its stack top. -/
theorem user_stack_decodes_ls :
    ∃ v', elfBuildUserStack .x86_64 exampleHhdm (newContext exampleHhdm 0x1000) 0x800000 lsArgs
        tinyMachine = some (0x7fffb0, v') ∧
      ∃ argvPtrs envpPtrs, StackDecodes .x86_64 exampleHhdm v' (newContext exampleHhdm 0x1000)
        0x800000 0x7fffb0 lsArgs argvPtrs envpPtrs := by
  have hslot : ∀ j : Fin 512, tinyMachine.pmm.slot exampleHhdm 0x1000 j = 0 := by decide +kernel
  have hsp : (elfBuildUserStack .x86_64 exampleHhdm (newContext exampleHhdm 0x1000) 0x800000 lsArgs
      tinyMachine).map Prod.fst = some 0x7fffb0 := by decide +kernel
  have hroots : ContextRoots .x86_64 exampleHhdm tinyMachine (newContext exampleHhdm 0x1000)
      [0x1000] := ⟨List.mem_singleton_self _, tinyMachine_context⟩
  obtain ⟨sp, v', hcall, hdecodes⟩ := user_stack_decodes 0x800000 lsArgs exampleHhdm_ok hroots
    tinyMachine_spaces (NoBlock.of_empty hslot _ _) (by decide) (by decide) (by decide) (by decide +kernel)
  rw [hcall] at hsp
  obtain rfl := Option.some.inj hsp
  exact ⟨v', hcall, hdecodes (by decide)⟩

end Pros
