import Mathlib

/-!
# Null-terminated linked lists

A linked list is given by its head, its `next` pointers and the null pointer. `Links next null h l`
says that following `next` from `h` visits the nodes of `l`, in order, and then reaches `null`.
Everything a program does to such a list is read off the list `l`.
-/

variable {α : Type*}

/-- Following `next` from `h` visits the nodes `l` and then reaches `null`. -/
def Links (next : α → α) (null : α) : α → List α → Prop
  | h, [] => h = null
  | h, a :: l => h = a ∧ a ≠ null ∧ Links next null (next a) l

namespace Links

variable {next next' : α → α} {null h a : α} {l l' pre run post : List α}

@[simp]
theorem nil_iff : Links next null h [] ↔ h = null := Iff.rfl

/-- The head of a list is its first node, or null. -/
theorem head_eq (hl : Links next null h l) : h = l.headD null := by
  cases l with
  | nil => exact hl
  | cons a l => exact hl.1

theorem ne_null_of_mem (hl : Links next null h l) (ha : a ∈ l) : a ≠ null := by
  induction l generalizing h with
  | nil => cases ha
  | cons b l ih =>
    rcases List.mem_cons.mp ha with rfl | ha
    · exact hl.2.1
    · exact ih hl.2.2 ha

/-- A list ends at once exactly when its head is null. -/
theorem eq_nil_iff (hl : Links next null h l) : l = [] ↔ h = null := by
  cases l with
  | nil => simpa using hl
  | cons a l =>
    obtain ⟨rfl, hne, -⟩ := hl
    simp [hne]

/-- The nodes of a list are determined by its head. -/
theorem unique (hl : Links next null h l) (hl' : Links next null h l') : l = l' := by
  induction l generalizing h l' with
  | nil => exact ((hl'.eq_nil_iff).mpr hl).symm
  | cons a l ih =>
    cases l' with
    | nil =>
      obtain ⟨rfl, hne, -⟩ := hl
      exact absurd hl' hne
    | cons b l' =>
      obtain ⟨rfl, -, hl⟩ := hl
      obtain ⟨rfl, -, hl'⟩ := hl'
      rw [ih hl hl']

/-- The part of a list from any of its nodes on is the list of that node. -/
theorem suffix (hl : Links next null h (pre ++ post)) :
    Links next null (post.headD null) post := by
  induction pre generalizing h with
  | nil =>
    rw [List.nil_append] at hl
    rw [← hl.head_eq]
    exact hl
  | cons b pre ih => exact ih hl.2.2

/-- No node is met twice: a list that reaches null has no cycle. -/
theorem nodup (hl : Links next null h l) : l.Nodup := by
  induction l generalizing h with
  | nil => exact List.nodup_nil
  | cons a l ih =>
    refine List.nodup_cons.mpr ⟨fun ha => ?_, ih hl.2.2⟩
    -- a second visit of `a` would start the same list again, with fewer nodes
    obtain ⟨pre, post, rfl⟩ := List.append_of_mem ha
    have hagain : Links next null h (a :: post) := by
      have hcut : Links next null h ((a :: pre) ++ (a :: post)) := hl
      rw [hl.1]
      exact hcut.suffix
    have hlen := congrArg List.length (hl.unique hagain)
    simp only [List.length_cons, List.length_append] at hlen
    omega

/-- A node that points at itself starts no list. -/
theorem not_of_self_loop (hne : h ≠ null) (hloop : next h = h) : ¬ ∃ l, Links next null h l := by
  rintro ⟨l, hl⟩
  cases l with
  | nil => exact hne hl
  | cons a l =>
    -- the list would be its own tail
    obtain ⟨rfl, -, htail⟩ := hl
    rw [hloop] at htail
    have hagain : Links next null h (h :: l) := ⟨rfl, hne, by rw [hloop]; exact htail⟩
    simpa using congrArg List.length (htail.unique hagain)

/-- A list only depends on the links of its own nodes. -/
theorem congr (hl : Links next null h l) (heq : ∀ a ∈ l, next' a = next a) :
    Links next' null h l := by
  induction l generalizing h with
  | nil => exact hl
  | cons a l ih =>
    refine ⟨hl.1, hl.2.1, ?_⟩
    rw [heq a List.mem_cons_self]
    exact ih hl.2.2 fun b hb => heq b (List.mem_cons_of_mem _ hb)

/-- Push the node `a` at the head: `a` points at the old head, the other links are kept. -/
theorem push (hl : Links next null h l) (hne : a ≠ null) (ha : next' a = h)
    (heq : ∀ b ∈ l, next' b = next b) : Links next' null a (a :: l) :=
  ⟨rfl, hne, by rw [ha]; exact hl.congr heq⟩

/-- Replace what follows the node `a`: `a` is pointed at the head of the list `post`, and the links
before `a` are kept. -/
theorem splice (hl : Links next null h ((pre ++ [a]) ++ run))
    (hpost : Links next' null (next' a) post) (heq : ∀ b ∈ pre, next' b = next b) :
    Links next' null h ((pre ++ [a]) ++ post) := by
  induction pre generalizing h with
  | nil => exact ⟨hl.1, hl.2.1, hpost⟩
  | cons b pre ih =>
    refine ⟨hl.1, hl.2.1, ?_⟩
    rw [heq b List.mem_cons_self]
    exact ih hl.2.2 fun c hc => heq c (List.mem_cons_of_mem _ hc)

/-- Unlink `run`: the last node before it is pointed past it and the other links are kept. -/
theorem unlink (hl : Links next null h ((pre ++ [a]) ++ (run ++ post)))
    (ha : next' a = post.headD null) (heq : ∀ b ∈ pre ++ post, next' b = next b) :
    Links next' null h ((pre ++ [a]) ++ post) := by
  refine hl.splice ?_ fun b hb => heq b (List.mem_append_left _ hb)
  rw [ha]
  rw [← List.append_assoc] at hl
  exact hl.suffix.congr fun b hb => heq b (List.mem_append_right _ hb)

/-- Insert the node `b` after the node `a`. -/
theorem insert {b : α} {l l' : List α} (hl : Links next null h (l ++ a :: l')) (hne : b ≠ null)
    (hb : next' b = next a) (ha : next' a = b) (heq : ∀ c ∈ l ++ l', next' c = next c) :
    Links next' null h (l ++ a :: b :: l') := by
  rw [List.append_cons] at hl ⊢
  refine hl.splice ?_ fun c hc => heq c (List.mem_append_left _ hc)
  have hrest : Links next null (next a) l' := by
    rw [List.append_assoc] at hl
    exact (hl.suffix).2.2
  rw [ha]
  exact hrest.push hne hb fun c hc => heq c (List.mem_append_right _ hc)

/-- A list is shorter than the number of addresses: null is none of its nodes. -/
theorem length_lt_card [Fintype α] [DecidableEq α] (hl : Links next null h l) :
    l.length < Fintype.card α := by
  have hnull : null ∉ l := fun hmem => hl.ne_null_of_mem hmem rfl
  calc
    l.length = l.toFinset.card := (List.toFinset_card_of_nodup hl.nodup).symm
    _ < (Finset.univ : Finset α).card :=
      Finset.card_lt_card (Finset.ssubset_univ_iff.mpr fun huniv => hnull (by
        rw [← List.mem_toFinset, huniv]
        exact Finset.mem_univ null))
    _ = Fintype.card α := rfl

/-- `k` steps along a list lead to what is left after its first `k` nodes. -/
theorem iterate (hl : Links next null h l) {k : ℕ} (hk : k ≤ l.length) :
    Links next null (next^[k] h) (l.drop k) := by
  induction k generalizing h l with
  | zero => exact hl
  | succ k ih =>
    cases l with
    | nil => simp at hk
    | cons a l =>
      obtain ⟨rfl, -, hl⟩ := hl
      exact ih hl (by simpa using hk)

/-- Over machine words the walk is shorter than the number of addresses. -/
theorem length_lt_two_pow {w : ℕ} {next : BitVec w → BitVec w} {null h : BitVec w}
    {l : List (BitVec w)} (hl : Links next null h l) : l.length < 2 ^ w := by
  have hlt := hl.length_lt_card
  rwa [← FinEnum.card_eq_fintypeCard, FinEnum.card_bitVec] at hlt

/-! ### Rings

A ring through `h` is a list of links from `next h` that ends at `h`, so that `h` is in the place of
null. -/

/-- The links up to a node. -/
theorem upto {c : α} {l l' : List α} (hl : Links next null h (l ++ c :: l')) (hc : c ∉ l) :
    Links next c h l := by
  induction l generalizing h with
  | nil => exact hl.1
  | cons b l ih =>
    rw [List.mem_cons, not_or] at hc
    exact ⟨hl.1, fun hbc => hc.1 hbc.symm, ih hl.2.2 hc.2⟩

/-- Links that end at `m`, continued from there. -/
theorem append {m c : α} {l l' : List α} (hl : Links next m h l) (hl' : Links next c (next m) l')
    (hm : m ≠ c) (hc : c ∉ l) : Links next c h (l ++ m :: l') := by
  induction l generalizing h with
  | nil => exact ⟨hl, hm, hl'⟩
  | cons b l ih =>
    rw [List.mem_cons, not_or] at hc
    exact ⟨hl.1, fun hbc => hc.1 hbc.symm, ih hl.2.2 hc.2⟩

/-- A ring can be walked from any of its nodes. -/
theorem rotate {c : α} {l l' : List α} (hl : Links next h (next h) (l ++ c :: l')) :
    Links next c (next c) (l' ++ h :: l) := by
  have hnodup := hl.nodup
  rw [List.nodup_append, List.nodup_cons] at hnodup
  have hcl : c ∉ l := fun hmem => hnodup.2.2 c hmem c List.mem_cons_self rfl
  have hsuffix : Links next h (next c) l' := hl.suffix.2.2
  have hne : h ≠ c := fun heq => hl.ne_null_of_mem (List.mem_append_right _ List.mem_cons_self) heq.symm
  exact hsuffix.append (hl.upto hcl) hne hnodup.2.1.1

end Links
