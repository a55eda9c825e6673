import Pros.Core.Strings
import Pros.Fs.Vfs
import Pros.Lib.Links

/-!
# The nodes of a ramfs

Names and directories in `kernel/src/fs/ramfs/ramfs.c`: the children of a directory are linked from
it in the order in which they were created. Nodes are named by their addresses and are never freed.
`kcalloc` answers from a list that a call is given, so that it may fail at any point.
-/

namespace Pros

/-- `struct vfs_node` with its `struct ramfs_node_data`: what names and directories need of them. -/
structure VfsNode where
  name : List (BitVec 8)
  flags : BitVec 32
  firstChild : Word
  nextSibling : Word
  fits : name.length < vfsNameSize
  noNul : 0 ∉ name

/-- `struct vfs_mount`; the path is the string up to its NUL, which is part of the array. -/
structure VfsMount where
  path : List (BitVec 8)
  root : Word
  fits : path.length < vfsNameSize
  noNul : 0 ∉ path

/-- All nodes and mounts. `live` are the nodes handed out, `answers` what the coming calls of
`kcalloc` for a node and its data return, and `failures` counts the calls that failed. -/
structure VfsTree where
  node : Word → VfsNode
  live : List Word
  answers : List Word
  failures : ℕ
  mounts : List VfsMount

namespace VfsTree

/-- Whether the node is a directory. -/
def isDir (t : VfsTree) (n : Word) : Bool := (t.node n).flags &&& vfsDirectory != 0

/-- `dir_data->first_child = child`. -/
def setFirstChild (t : VfsTree) (n child : Word) : VfsTree :=
  { t with node := Function.update t.node n { t.node n with firstChild := child } }

/-- `sibling_data->next_sibling = next`. -/
def setNextSibling (t : VfsTree) (n next : Word) : VfsTree :=
  { t with node := Function.update t.node n { t.node n with nextSibling := next } }

end VfsTree

/-- The loop of `ramfs_ops_finddir` over the children from `child` on. -/
def finddirLoop (t : VfsTree) (name : List (BitVec 8)) : ℕ → Word → Option Word
  | 0, _ => none
  | fuel + 1, child =>
    if child = 0 then some 0
    else if strncmp (t.node child).name name vfsNameSize = 0 then some child
    else finddirLoop t name fuel (t.node child).nextSibling

/-- `ramfs_ops_finddir`. -/
def ramfsOpsFinddir (t : VfsTree) (node : Word) (name : List (BitVec 8)) : Option Word :=
  if node = 0 then some 0
  else finddirLoop t name walkBound (t.node node).firstChild

theorem snprintfString_fits (name : List (BitVec 8)) :
    (snprintfString vfsNameSize name).length < vfsNameSize :=
  snprintfString_length_lt (by decide) name

/-- The node that `ramfs_node_new` fills in: the name is cut to fit. -/
def newNode (name : List (BitVec 8)) (flags : BitVec 32) : VfsNode where
  name := snprintfString vfsNameSize name
  flags := flags
  firstChild := 0
  nextSibling := 0
  fits := snprintfString_fits name
  noNul := zero_notMem_snprintfString _ name

/-- `ramfs_node_new`; one answer of `kcalloc` stands for the node and its data, and a node without
data is freed at once. -/
def ramfsNodeNew (t : VfsTree) (name : List (BitVec 8)) (flags : BitVec 32) : Word × VfsTree :=
  let p := t.answers.headD 0
  let t := { t with answers := t.answers.tail }
  if p = 0 then (0, { t with failures := t.failures + 1 })
  else (p, { t with live := p :: t.live, node := Function.update t.node p (newNode name flags) })

/-- `ramfs_create_root`. -/
def ramfsCreateRoot (t : VfsTree) : Word × VfsTree := ramfsNodeNew t [0x2f] vfsDirectory

/-- The loop of `ramfs_ops_create` to the last child. -/
def lastSibling (t : VfsTree) : ℕ → Word → Option Word
  | 0, _ => none
  | fuel + 1, sibling =>
    if (t.node sibling).nextSibling = 0 then some sibling
    else lastSibling t fuel (t.node sibling).nextSibling

/-- `ramfs_ops_create`: the new node, or `0` where the source returns -1. -/
def ramfsOpsCreate (t : VfsTree) (dir : Word) (name : List (BitVec 8)) (flags : BitVec 32) :
    Option (Word × VfsTree) :=
  if dir = 0 ∨ ¬ t.isDir dir then some (0, t)
  else do
    let found ← ramfsOpsFinddir t dir name
    if found ≠ 0 then some (0, t)
    else
      let (node, t) := ramfsNodeNew t name flags
      if node = 0 then some (0, t)
      else if (t.node dir).firstChild = 0 then some (node, t.setFirstChild dir node)
      else
        let sibling ← lastSibling t walkBound (t.node dir).firstChild
        some (node, t.setNextSibling sibling node)

/-- What `ramfs_ops_readdir` fills in for a child. `ramfs_node_new` leaves the inode zero. -/
def childDirent (child : VfsNode) : VfsDirent where
  name := snprintfString vfsNameSize child.name
  flags := child.flags
  inode := 0
  fits := snprintfString_fits child.name

/-- The loop of `ramfs_ops_readdir` from `child` on, which has the index `i`. -/
def readdirLoop (t : VfsTree) (index : BitVec 32) (out : VfsDirent) :
    ℕ → Word → BitVec 32 → Option (Int × VfsDirent)
  | 0, _, _ => none
  | fuel + 1, child, i =>
    if child = 0 then some (0, out)
    else if i = index then some (1, childDirent (t.node child))
    else readdirLoop t index out fuel (t.node child).nextSibling (i + 1)

/-- `ramfs_ops_readdir`: the result and what is in `out` afterwards. -/
def ramfsOpsReaddir (t : VfsTree) (node : Word) (index : BitVec 32) (out : VfsDirent) :
    Option (Int × VfsDirent) :=
  if node = 0 then some (-1, out)
  else readdirLoop t index out walkBound (t.node node).firstChild 0

/-! ## Directories -/

namespace VfsTree

variable {t t' : VfsTree} {root d p : Word} {l : List Word} {kids : Word → List Word}
  {name : List (BitVec 8)} {flags : BitVec 32}

/-- The children of `d` are the nodes `l`, in this order. -/
def Children (t : VfsTree) (d : Word) (l : List Word) : Prop :=
  Links (fun n => (t.node n).nextSibling) 0 (t.node d).firstChild l

theorem node_setFirstChild (t : VfsTree) (d child n : Word) :
    (t.setFirstChild d child).node n =
      if n = d then { t.node n with firstChild := child } else t.node n := by
  by_cases hn : n = d
  · rw [if_pos hn, hn]
    exact Function.update_self ..
  · rw [if_neg hn]
    exact Function.update_of_ne hn ..

theorem node_setNextSibling (t : VfsTree) (d next n : Word) :
    (t.setNextSibling d next).node n =
      if n = d then { t.node n with nextSibling := next } else t.node n := by
  by_cases hn : n = d
  · rw [if_pos hn, hn]
    exact Function.update_self ..
  · rw [if_neg hn]
    exact Function.update_of_ne hn ..

theorem Children.unique {l' : List Word} (h : t.Children d l) (h' : t.Children d l') : l = l' :=
  Links.unique h h'

/-- The first of the nodes with the name, as far as a name is compared. -/
def named (t : VfsTree) (l : List Word) (name : List (BitVec 8)) : Word :=
  (l.find? fun c => (t.node c).name = name.take vfsNameSize).getD 0

theorem finddirLoop_eq {h : Word} (hl : Links (fun n => (t.node n).nextSibling) 0 h l)
    (hname : 0 ∉ name) {fuel : ℕ} (hfuel : l.length < fuel) :
    finddirLoop t name fuel h = some (t.named l name) := by
  induction l generalizing h fuel with
  | nil =>
    obtain _ | fuel := fuel
    · simp at hfuel
    exact if_pos hl
  | cons c l ih =>
    obtain _ | fuel := fuel
    · simp at hfuel
    obtain ⟨rfl, hne, htail⟩ := hl
    have hcmp := strncmp_eq_zero_iff (t.node h).noNul hname vfsNameSize
    rw [List.take_of_length_le (t.node h).fits.le] at hcmp
    rw [finddirLoop, if_neg hne]
    by_cases hc : (t.node h).name = name.take vfsNameSize
    · rw [if_pos (hcmp.mpr hc)]
      simp [named, hc]
    · rw [if_neg fun h => hc (hcmp.mp h), ih htail (by simpa using hfuel)]
      simp [named, hc]

theorem Children.finddir (h : t.Children d l) (hd : d ≠ 0) (hname : 0 ∉ name) :
    ramfsOpsFinddir t d name = some (t.named l name) := by
  rw [ramfsOpsFinddir, if_neg hd]
  exact finddirLoop_eq h hname h.length_lt_two_pow

theorem childDirent_name (child : VfsNode) : (childDirent child).name = child.name :=
  snprintfString_eq child.noNul child.fits

theorem readdirLoop_eq {h : Word} (hl : Links (fun n => (t.node n).nextSibling) 0 h l)
    {index i : BitVec 32} {fuel : ℕ} (out : VfsDirent) (hfuel : l.length < fuel)
    (hi : i ≤ index) :
    readdirLoop t index out fuel h i =
      some (match l[index.toNat - i.toNat]? with
        | none => (0, out)
        | some c => (1, childDirent (t.node c))) := by
  induction l generalizing h i fuel with
  | nil =>
    obtain _ | fuel := fuel
    · simp at hfuel
    exact if_pos hl
  | cons c l ih =>
    obtain _ | fuel := fuel
    · simp at hfuel
    obtain ⟨rfl, hne, htail⟩ := hl
    rw [List.length_cons] at hfuel
    rw [readdirLoop, if_neg hne]
    by_cases hindex : i = index
    · rw [if_pos hindex, hindex, Nat.sub_self, List.getElem?_cons_zero]
    · have hlt : i.toNat < index.toNat := by bv_omega
      have hnext : (i + 1).toNat = i.toNat + 1 := by bv_omega
      have hskip : index.toNat - i.toNat = index.toNat - (i + 1).toNat + 1 := by omega
      rw [if_neg hindex, ih htail (by omega) (by bv_omega), hskip,
        List.getElem?_cons_succ]

/-- `readdir` finds the child with the index. -/
theorem Children.readdir (h : t.Children d l) (hd : d ≠ 0) (index : BitVec 32) (out : VfsDirent) :
    ramfsOpsReaddir t d index out =
      some (match l[index.toNat]? with
        | none => (0, out)
        | some c => (1, childDirent (t.node c))) := by
  rw [ramfsOpsReaddir, if_neg hd]
  exact readdirLoop_eq h out h.length_lt_two_pow (BitVec.le_def.mpr (Nat.zero_le _))

theorem lastSibling_eq {h last : Word}
    (hl : Links (fun n => (t.node n).nextSibling) 0 h (l ++ [last])) {fuel : ℕ}
    (hfuel : l.length < fuel) : lastSibling t fuel h = some last := by
  induction l generalizing h fuel with
  | nil =>
    obtain _ | fuel := fuel
    · simp at hfuel
    obtain ⟨rfl, -, hend⟩ := hl
    exact if_pos hend
  | cons c l ih =>
    obtain _ | fuel := fuel
    · simp at hfuel
    obtain ⟨rfl, hne, htail⟩ := hl
    have hmore : (t.node h).nextSibling ≠ 0 := by
      rw [Ne, ← htail.eq_nil_iff]
      simp
    rw [lastSibling, if_neg hmore]
    exact ih htail (by simpa using hfuel)

/-- The nodes form a tree below `root`: the lists `kids` are the children, and no node is a child in
two places. -/
structure Shape (t : VfsTree) (root : Word) (kids : Word → List Word) : Prop where
  children : ∀ d ∈ t.live, t.Children d (kids d)
  kids_live : ∀ d ∈ t.live, ∀ c ∈ kids d, c ∈ t.live
  parent_unique : ∀ d ∈ t.live, ∀ e ∈ t.live, ∀ c ∈ kids d, c ∈ kids e → d = e
  root_live : root ∈ t.live
  root_not_kid : ∀ d ∈ t.live, root ∉ kids d
  ne_null : 0 ∉ t.live

/-- `kcalloc` returns no node that is in use, and none twice. -/
structure Fresh (t : VfsTree) : Prop where
  nodup : (t.answers.filter (· ≠ 0)).Nodup
  notMem : ∀ p ∈ t.answers, p ≠ 0 → p ∉ t.live

/-- The tree after a call for a node found no memory. -/
def starved (t : VfsTree) : VfsTree :=
  { t with answers := t.answers.tail, failures := t.failures + 1 }

/-- `t'` is `t` with the new node `p` as the last child of `d`. -/
structure Created (t t' : VfsTree) (root : Word) (kids : Word → List Word) (d p : Word)
    (name : List (BitVec 8)) (flags : BitVec 32) : Prop where
  mounts : t'.mounts = t.mounts
  failures : t'.failures = t.failures
  live : t'.live = p :: t.live
  ne_null : p ≠ 0
  notMem : p ∉ t.live
  fresh : t'.Fresh
  name_eq : (t'.node p).name = snprintfString vfsNameSize name
  flags_eq : (t'.node p).flags = flags
  name_of_ne : ∀ n ≠ p, (t'.node n).name = (t.node n).name
  flags_of_ne : ∀ n ≠ p, (t'.node n).flags = (t.node n).flags
  shape : t'.Shape root (Function.update (Function.update kids p []) d (kids d ++ [p]))

theorem Fresh.starved (h : t.Fresh) : t.starved.Fresh where
  nodup := h.nodup.sublist ((List.tail_sublist _).filter _)
  notMem p hp := h.notMem p (List.mem_of_mem_tail hp)

/-- How linking `p` behind the children of `d` changes the tree. -/
theorem Shape.link (h : t.Shape root kids) (hd : d ∈ t.live) (hp : p ∉ t.live) (hne : p ≠ 0)
    (hlive : t'.live = p :: t.live)
    (hfirst : ∀ n ≠ p, n ≠ d → (t'.node n).firstChild = (t.node n).firstChild)
    (hnext : ∀ n ≠ p, n ∉ kids d → (t'.node n).nextSibling = (t.node n).nextSibling)
    (hleaf : (t'.node p).firstChild = 0) (hkids : t'.Children d (kids d ++ [p])) :
    t'.Shape root (Function.update (Function.update kids p []) d (kids d ++ [p])) := by
  have hpd : p ≠ d := fun h => hp (h ▸ hd)
  have hkid : ∀ e ∈ t.live, p ∉ kids e := fun e he hpe => hp (h.kids_live e he p hpe)
  have hat_d : Function.update (Function.update kids p []) d (kids d ++ [p]) d = kids d ++ [p] :=
    Function.update_self ..
  have hat_p : Function.update (Function.update kids p []) d (kids d ++ [p]) p = [] := by
    rw [Function.update_of_ne hpd, Function.update_self]
  have hat : ∀ e ∈ t.live, e ≠ d →
      Function.update (Function.update kids p []) d (kids d ++ [p]) e = kids e := by
    intro e he hed
    have hep : e ≠ p := fun hep => hp (hep ▸ he)
    rw [Function.update_of_ne hed, Function.update_of_ne hep]
  generalize Function.update (Function.update kids p []) d (kids d ++ [p]) = kids' at *
  have hmem : ∀ e ∈ t'.live, ∀ c ∈ kids' e, (e ∈ t.live ∧ c ∈ kids e) ∨ (e = d ∧ c = p) := by
    intro e he c hc
    rw [hlive] at he
    rcases List.mem_cons.mp he with rfl | he
    · simp [hat_p] at hc
    · by_cases hed : e = d
      · subst hed
        rw [hat_d] at hc
        rcases List.mem_append.mp hc with hc | hc
        · exact .inl ⟨he, hc⟩
        · exact .inr ⟨rfl, by simpa using hc⟩
      · exact .inl ⟨he, hat e he hed ▸ hc⟩
  constructor
  case children =>
    intro e hmem_e
    rw [hlive] at hmem_e
    rcases List.mem_cons.mp hmem_e with rfl | he
    · rw [hat_p]
      exact hleaf
    · by_cases hed : e = d
      · rw [hed, hat_d]
        exact hkids
      · rw [hat e he hed, Children, hfirst e (fun h => hp (h ▸ he)) hed]
        refine (h.children e he).congr fun c hc => hnext c ?_ ?_
        · exact fun hcp => hkid e he (hcp ▸ hc)
        · exact fun hcd => hed (h.parent_unique e he d hd c hc hcd)
  case kids_live =>
    intro e he c hc
    rw [hlive]
    rcases hmem e he c hc with ⟨he, hc⟩ | ⟨-, rfl⟩
    · exact List.mem_cons_of_mem _ (h.kids_live e he c hc)
    · exact List.mem_cons_self
  case parent_unique =>
    intro e he e' he' c hc hc'
    rcases hmem e he c hc with ⟨he, hc⟩ | ⟨hed, hcp⟩ <;>
      rcases hmem e' he' c hc' with ⟨he', hc'⟩ | ⟨hed', hcp'⟩
    · exact h.parent_unique e he e' he' c hc hc'
    · exact absurd (hcp' ▸ hc) (hkid e he)
    · exact absurd (hcp ▸ hc') (hkid e' he')
    · rw [hed, hed']
  case root_live => exact hlive ▸ List.mem_cons_of_mem _ h.root_live
  case root_not_kid =>
    intro e he hc
    rcases hmem e he root hc with ⟨he, hc⟩ | ⟨-, rfl⟩
    · exact h.root_not_kid e he hc
    · exact hp h.root_live
  case ne_null =>
    rw [hlive, List.mem_cons]
    rintro (h0 | h0)
    · exact hne h0.symm
    · exact h.ne_null h0

/-- The tree after `ramfs_node_new` returned `p`, which is not linked yet. -/
def allocated (t : VfsTree) (p : Word) (name : List (BitVec 8)) (flags : BitVec 32) : VfsTree :=
  { t with
    answers := t.answers.tail
    live := p :: t.live
    node := Function.update t.node p (newNode name flags) }

theorem ramfsNodeNew_cases (t : VfsTree) (name : List (BitVec 8)) (flags : BitVec 32) :
    ramfsNodeNew t name flags = (0, t.starved) ∨
      ∃ p, t.answers.head? = some p ∧ p ≠ 0 ∧
        ramfsNodeNew t name flags = (p, t.allocated p name flags) := by
  by_cases hp : t.answers.headD 0 = 0
  · exact .inl (if_pos hp)
  · refine .inr ⟨t.answers.headD 0, ?_, hp, if_neg hp⟩
    match hans : t.answers with
    | [] => exact absurd (by rw [hans]; rfl) hp
    | p :: rest => rfl

theorem Fresh.allocated (h : t.Fresh) (name : List (BitVec 8)) (flags : BitVec 32)
    (hhead : t.answers.head? = some p) (hp : p ≠ 0) :
    (t.allocated p name flags).Fresh := by
  match hans : t.answers with
  | [] => simp [hans] at hhead
  | q :: rest =>
    obtain rfl : q = p := by simpa [hans] using hhead
    have hnodup := h.nodup
    rw [hans, List.filter_cons_of_pos (by simpa using hp)] at hnodup
    constructor
    · change (t.answers.tail.filter (· ≠ 0)).Nodup
      rw [hans]
      exact hnodup.of_cons
    · intro r hr hr0 hmem
      change r ∈ t.answers.tail at hr
      rw [hans] at hr
      rcases List.mem_cons.mp hmem with rfl | hmem
      · exact (List.nodup_cons.mp hnodup).1 (List.mem_filter.mpr ⟨hr, by simpa using hp⟩)
      · exact h.notMem r (by simpa [hans] using .inr hr) hr0 hmem

/-- Once the new node is linked behind the children of `d`, it is created. -/
theorem Shape.created (h : t.Shape root kids) (hd : d ∈ t.live) (hfresh : t.Fresh)
    (hhead : t.answers.head? = some p) (hp0 : p ≠ 0) {node' : Word → VfsNode}
    (hname : ∀ n, (node' n).name = ((t.allocated p name flags).node n).name)
    (hflags : ∀ n, (node' n).flags = ((t.allocated p name flags).node n).flags)
    (hfirst : ∀ n ≠ d, (node' n).firstChild = ((t.allocated p name flags).node n).firstChild)
    (hnext : ∀ n ∉ kids d,
      (node' n).nextSibling = ((t.allocated p name flags).node n).nextSibling)
    (hkids : Children { t.allocated p name flags with node := node' } d (kids d ++ [p])) :
    t.Created { t.allocated p name flags with node := node' } root kids d p name flags := by
  have hp : p ∉ t.live := hfresh.notMem p (List.mem_of_mem_head? hhead) hp0
  have hpd : p ≠ d := fun hpd => hp (hpd ▸ hd)
  have hself : (t.allocated p name flags).node p = newNode name flags := Function.update_self ..
  have hother : ∀ n ≠ p, (t.allocated p name flags).node n = t.node n := fun n hn =>
    Function.update_of_ne hn ..
  have hnew := hfresh.allocated name flags hhead hp0
  exact {
    mounts := rfl
    failures := rfl
    live := rfl
    ne_null := hp0
    notMem := hp
    fresh := ⟨hnew.nodup, hnew.notMem⟩
    name_eq := by rw [hname, hself]; rfl
    flags_eq := by rw [hflags, hself]; rfl
    name_of_ne := fun n hn => by rw [hname, hother n hn]
    flags_of_ne := fun n hn => by rw [hflags, hother n hn]
    shape := by
      refine h.link hd hp hp0 rfl (fun n hn hnd => ?_) (fun n hn hnk => ?_) ?_ hkids
      · rw [hfirst n hnd, hother n hn]
      · rw [hnext n hnk, hother n hn]
      · rw [hfirst p hpd, hself]
        rfl }

/-- `ramfs_ops_create` of a name that the directory does not have. -/
theorem Shape.create (h : t.Shape root kids) (hd : d ∈ t.live) (hdir : t.isDir d = true)
    (hname : 0 ∉ name) (hnew : t.named (kids d) name = 0) (hfresh : t.Fresh)
    (flags : BitVec 32) :
    ramfsOpsCreate t d name flags = some (0, t.starved) ∨
      ∃ p t', ramfsOpsCreate t d name flags = some (p, t') ∧
        t.Created t' root kids d p name flags := by
  have hd0 : d ≠ 0 := fun h0 => h.ne_null (h0 ▸ hd)
  have hcreate : ramfsOpsCreate t d name flags =
      (let (node, t) := ramfsNodeNew t name flags
        if node = 0 then some (0, t)
        else if (t.node d).firstChild = 0 then some (node, t.setFirstChild d node)
        else do
          let sibling ← lastSibling t walkBound (t.node d).firstChild
          some (node, t.setNextSibling sibling node)) := by
    unfold ramfsOpsCreate
    rw [if_neg (by rintro (h0 | hnot); exacts [hd0 h0, hnot hdir]),
      (h.children d hd).finddir hd0 hname, hnew]
    rfl
  rw [hcreate]
  rcases ramfsNodeNew_cases t name flags with hfail | ⟨p, hhead, hp0, hok⟩
  · left
    rw [hfail]
    exact if_pos rfl
  · right
    have hp : p ∉ t.live := hfresh.notMem p (List.mem_of_mem_head? hhead) hp0
    have hdp : d ≠ p := fun hdp => hp (hdp ▸ hd)
    have hat_d : (t.allocated p name flags).node d = t.node d := Function.update_of_ne hdp ..
    have hat_p : (t.allocated p name flags).node p = newNode name flags := Function.update_self ..
    rw [hok]
    simp only [if_neg hp0, hat_d]
    by_cases hfirst : (t.node d).firstChild = 0
    · -- the first child of the directory
      have hnil : kids d = [] := (h.children d hd).eq_nil_iff.mpr hfirst
      rw [if_pos hfirst]
      refine ⟨p, _, rfl, h.created hd hfresh hhead hp0 (fun n => ?_) (fun n => ?_) (fun n hn => ?_)
        (fun n _ => ?_) ?_⟩
      · exact congrArg VfsNode.name (node_setFirstChild ..) |>.trans (by split <;> rfl)
      · exact congrArg VfsNode.flags (node_setFirstChild ..) |>.trans (by split <;> rfl)
      · exact congrArg VfsNode.firstChild (node_setFirstChild ..) |>.trans (by rw [if_neg hn])
      · exact congrArg VfsNode.nextSibling (node_setFirstChild ..) |>.trans (by split <;> rfl)
      · have hnode := node_setFirstChild (t.allocated p name flags) d p
        rw [hnil]
        refine ⟨congrArg VfsNode.firstChild (hnode d) |>.trans (by rw [if_pos rfl]), hp0, ?_⟩
        refine congrArg VfsNode.nextSibling (hnode p) |>.trans ?_
        rw [if_neg hdp.symm, hat_p]
        rfl
    · -- behind the last child
      have hne : kids d ≠ [] := fun hnil => hfirst ((h.children d hd).eq_nil_iff.mp hnil)
      obtain ⟨l, last, hsplit⟩ : ∃ l last, kids d = l ++ [last] :=
        ⟨_, _, (List.dropLast_append_getLast hne).symm⟩
      have hold : ∀ n ∈ kids d, n ≠ p := fun n hn hnp =>
        hp (h.kids_live d hd p (hnp ▸ hn))
      have hlinks : Links (fun n => ((t.allocated p name flags).node n).nextSibling) 0
          (t.node d).firstChild (l ++ [last]) := by
        rw [← hsplit]
        refine (h.children d hd).congr fun n hn => congrArg VfsNode.nextSibling ?_
        exact Function.update_of_ne (hold n hn) ..
      have hlt : l.length < walkBound := by
        have := hlinks.length_lt_two_pow
        simp only [List.length_append] at this
        exact lt_of_le_of_lt (Nat.le_add_right _ _) this
      have hlast : last ∈ kids d := by simp [hsplit]
      rw [if_neg hfirst, lastSibling_eq hlinks hlt]
      refine ⟨p, _, rfl, h.created hd hfresh hhead hp0 (fun n => ?_) (fun n => ?_) (fun n _ => ?_)
        (fun n hn => ?_) ?_⟩
      · exact congrArg VfsNode.name (node_setNextSibling ..) |>.trans (by split <;> rfl)
      · exact congrArg VfsNode.flags (node_setNextSibling ..) |>.trans (by split <;> rfl)
      · exact congrArg VfsNode.firstChild (node_setNextSibling ..) |>.trans (by split <;> rfl)
      · refine congrArg VfsNode.nextSibling (node_setNextSibling ..) |>.trans ?_
        have hnl : n ≠ last := fun hnl => hn (hnl ▸ hlast)
        rw [if_neg hnl]
      · have hnode := node_setNextSibling (t.allocated p name flags) last p
        have hstart : (((t.allocated p name flags).setNextSibling last p).node d).firstChild =
            (t.node d).firstChild := by
          rw [hnode, ← hat_d]
          split <;> rfl
        have hend : ((t.allocated p name flags).node last).nextSibling = 0 := hlinks.suffix.2.2
        have hnotin : last ∉ l := fun hmem => by
          have := hlinks.nodup
          rw [List.nodup_append] at this
          exact this.2.2 last hmem last (by simp) rfl
        rw [Children, hsplit, List.append_assoc]
        refine hstart ▸ hlinks.insert hp0 ?_ ?_ fun n hn => ?_
        · refine congrArg VfsNode.nextSibling (hnode p) |>.trans ?_
          rw [if_neg (hold last hlast).symm, hat_p, hend]
          rfl
        · exact congrArg VfsNode.nextSibling (hnode last) |>.trans (by rw [if_pos rfl])
        · have hnl : n ≠ last := fun hnl => hnotin (by simpa [hnl] using hn)
          exact congrArg VfsNode.nextSibling (hnode n) |>.trans (by rw [if_neg hnl])

end VfsTree

/-! ## Failed allocations -/

/-- From `t` to `t'` `kcalloc` was called once for each of the answers `used`, and `failures` counts
those that are null. A list that is used up answers null as well. -/
structure VfsTree.Asked (t t' : VfsTree) (used : List Word) : Prop where
  answers : t.answers = used ++ t'.answers
  failures : t'.answers ≠ [] → t'.failures = t.failures + used.count 0
  le : t.failures ≤ t'.failures

/-- From `t` to `t'` no call of `kcalloc` failed. -/
def VfsTree.Answered (t t' : VfsTree) : Prop :=
  t'.answers ≠ [] ∧ ∃ used, t.answers = used ++ t'.answers ∧ 0 ∉ used

namespace VfsTree.Asked

variable {t t₁ t' : VfsTree} {used used' : List Word}

theorem refl (t : VfsTree) : t.Asked t [] := ⟨rfl, fun _ => rfl, le_rfl⟩

theorem trans (h : t.Asked t₁ used) (h' : t₁.Asked t' used') : t.Asked t' (used ++ used') where
  answers := by rw [h.answers, h'.answers, List.append_assoc]
  failures hleft := by
    have hleft₁ : t₁.answers ≠ [] := by simp [h'.answers, hleft]
    rw [h'.failures hleft, h.failures hleft₁, List.count_append, Nat.add_assoc]
  le := h.le.trans h'.le

/-- Where all answers were good, no failure was counted. -/
theorem failures_eq (h : t.Asked t' used) (hgood : t.Answered t') : t'.failures = t.failures := by
  obtain ⟨hleft, used', hused', hnot⟩ := hgood
  obtain rfl : used' = used := List.append_cancel_right (hused'.symm.trans h.answers)
  rw [h.failures hleft, List.count_eq_zero_of_not_mem hnot, Nat.add_zero]

end VfsTree.Asked

theorem ramfsNodeNew_asked (t : VfsTree) (name : List (BitVec 8)) (flags : BitVec 32) :
    ∃ used, t.Asked (ramfsNodeNew t name flags).2 used := by
  rw [ramfsNodeNew]
  dsimp only
  cases hanswers : t.answers with
  | nil => exact ⟨[], hanswers, fun hleft => absurd rfl hleft, Nat.le_succ _⟩
  | cons p rest =>
    rw [List.headD_cons, List.tail_cons]
    split
    · rename_i hp
      exact ⟨[p], hanswers, fun _ => by simp [hp], Nat.le_succ _⟩
    · rename_i hp
      have hnot : 0 ∉ [p] := by simpa using Ne.symm hp
      exact ⟨[p], hanswers, fun _ => by rw [List.count_eq_zero_of_not_mem hnot]; rfl, le_rfl⟩

theorem ramfsOpsCreate_asked {t t' : VfsTree} {d n : Word} {name : List (BitVec 8)}
    {flags : BitVec 32} (h : ramfsOpsCreate t d name flags = some (n, t')) :
    ∃ used, t.Asked t' used := by
  rw [ramfsOpsCreate] at h
  obtain ⟨used, hnew⟩ := ramfsNodeNew_asked t name flags
  split at h
  · cases h; exact ⟨[], .refl t⟩
  simp only [Option.bind_eq_bind, Option.bind_eq_some_iff] at h
  obtain ⟨found, -, h⟩ := h
  split at h
  · cases h; exact ⟨[], .refl t⟩
  split at h
  · cases h; exact ⟨used, hnew⟩
  split at h
  · cases h; exact ⟨used, hnew.answers, hnew.failures, hnew.le⟩
  · simp only [Option.bind_eq_some_iff] at h
    obtain ⟨sibling, -, h⟩ := h
    cases h
    exact ⟨used, hnew.answers, hnew.failures, hnew.le⟩

end Pros
