import Mathlib.Data.List.Count
import Mathlib.Data.List.Pairwise
import Mathlib.Data.List.Sort
import Mathlib.Order.Lattice

/-! # Searches in ordered lists

    What the searches of the list library find when the list is in order, or when the
    test holds on a front part of the list. -/

namespace OrderedLists

variable {α κ : Type} [Preorder κ] {key : α → κ} {p q : α → Bool} {l : List α} {x : α}

/-- The first element has the least key. -/
theorem least_head (hs : l.Pairwise fun a b => key a ≤ key b) (h : l.head? = some x) :
    x ∈ l ∧ ∀ y ∈ l, key x ≤ key y := by
  obtain ⟨as, rfl⟩ := List.head?_eq_some_iff.mp h
  refine ⟨List.mem_cons_self, List.forall_mem_cons.mpr ⟨le_refl _, ?_⟩⟩
  exact (List.pairwise_cons.mp hs).1

/-- The last element has the greatest key. -/
theorem greatest_last (hs : l.Pairwise fun a b => key a ≤ key b) (h : l.getLast? = some x) :
    x ∈ l ∧ ∀ y ∈ l, key y ≤ key x := by
  obtain ⟨as, rfl⟩ := List.getLast?_eq_some_iff.mp h
  refine ⟨by simp, List.forall_mem_append.mpr ⟨fun y hy => ?_, by simp⟩⟩
  exact (List.pairwise_append.mp hs).2.2 y hy x (List.mem_singleton_self x)

/-- The first element that passes a test has the least key of those that pass. -/
theorem least_find? (hs : l.Pairwise fun a b => key a ≤ key b) (h : l.find? p = some x) :
    x ∈ l ∧ p x = true ∧ ∀ y ∈ l, p y = true → key x ≤ key y := by
  rw [← List.head?_filter] at h
  obtain ⟨hx, hle⟩ := least_head (hs.filter p) h
  exact ⟨(List.mem_filter.mp hx).1, (List.mem_filter.mp hx).2,
    fun y hy hpy => hle y (List.mem_filter.mpr ⟨hy, hpy⟩)⟩

/-- Two elements of an ordered list are in order, one way or the other. -/
theorem pairwise_trichotomy {r : α → α → Prop} (h : l.Pairwise r) {a b : α} (ha : a ∈ l)
    (hb : b ∈ l) : a = b ∨ r a b ∨ r b a := by
  have hsymm : Std.Symm fun a b => r a b ∨ r b a := ⟨fun _ _ => Or.symm⟩
  have hpair : l.Pairwise fun a b => r a b ∨ r b a := h.imp Or.inl
  by_cases hab : a = b
  · exact Or.inl hab
  · exact Or.inr (hpair.forall ha hb hab)

/-- A test that fails after it has failed once cuts the list in two. -/
theorem takeWhile_eq_filter (h : l.Pairwise fun a b => p b = true → p a = true) :
    l.takeWhile p = l.filter p := by
  induction l with
  | nil => rfl
  | cons a l ih =>
    obtain ⟨ha, hl⟩ := List.pairwise_cons.mp h
    rw [List.takeWhile_cons, List.filter_cons]
    split_ifs with hp
    · rw [ih hl]
    · exact (List.filter_eq_nil_iff.mpr fun b hb hpb => hp (ha b hb hpb)).symm

theorem dropWhile_eq_filter (h : l.Pairwise fun a b => p b = true → p a = true) :
    l.dropWhile p = l.filter fun a => !p a := by
  induction l with
  | nil => rfl
  | cons a l ih =>
    obtain ⟨ha, hl⟩ := List.pairwise_cons.mp h
    cases hp : p a with
    | true => rw [List.dropWhile_cons_of_pos hp, List.filter_cons_of_neg (by simp [hp]), ih hl]
    | false =>
      rw [List.dropWhile_cons_of_neg (by simp [hp]), List.filter_eq_self.mpr]
      refine List.forall_mem_cons.mpr ⟨by simp [hp], fun b hb => ?_⟩
      rw [Bool.not_eq_true', ← Bool.not_eq_true]
      exact fun hpb => by rw [ha b hb hpb] at hp; cases hp

/-- Below a bound lie a front part of an ordered list and nothing else. -/
theorem mem_takeWhile_lt {κ : Type} [LinearOrder κ] [DecidableLT κ] {key : α → κ}
    (hs : l.Pairwise fun a b => key a < key b) {b : κ} :
    x ∈ l.takeWhile (fun a => decide (key a < b)) ↔ x ∈ l ∧ key x < b := by
  rw [takeWhile_eq_filter, List.mem_filter, decide_eq_true_eq]
  exact hs.imp fun hlt h => decide_eq_true (lt_trans hlt (of_decide_eq_true h))

theorem mem_dropWhile_lt {κ : Type} [LinearOrder κ] [DecidableLT κ] {key : α → κ}
    (hs : l.Pairwise fun a b => key a < key b) {b : κ} :
    x ∈ l.dropWhile (fun a => decide (key a < b)) ↔ x ∈ l ∧ b ≤ key x := by
  rw [dropWhile_eq_filter, List.mem_filter, Bool.not_eq_true', decide_eq_false_iff_not, not_lt]
  exact hs.imp fun hlt h => decide_eq_true (lt_trans hlt (of_decide_eq_true h))

/-- Increasing lists with the same members are equal. -/
theorem eq_of_increasing {l' : List α} (h : l.Pairwise fun a b => key a < key b)
    (h' : l'.Pairwise fun a b => key a < key b) (hmem : ∀ x, x ∈ l ↔ x ∈ l') : l = l' := by
  have hnodup : ∀ {m : List α}, (m.Pairwise fun a b => key a < key b) → m.Nodup :=
    fun hm => hm.imp fun hlt heq => absurd (congrArg key heq) (ne_of_lt hlt)
  have hperm : l.Perm l' := (List.perm_ext_iff_of_nodup (hnodup h) (hnodup h')).mpr hmem
  exact hperm.eq_of_pairwise (fun a b _ _ hab hba => absurd hba (not_lt_of_gt hab)) h h'

section Insert

variable {κ : Type} [LinearOrder κ] [DecidableLE κ] {key : α → κ}

theorem orderedInsert_le (hs : l.Pairwise fun a b => key a ≤ key b) (x : α) :
    (l.orderedInsert (fun a b => key a ≤ key b) x).Pairwise fun a b => key a ≤ key b := by
  have htotal : Std.Total fun a b : α => key a ≤ key b := ⟨fun _ _ => le_total _ _⟩
  have htrans : IsTrans α fun a b => key a ≤ key b := ⟨fun _ _ _ => le_trans⟩
  exact hs.orderedInsert x l

/-- An element with a key of its own keeps the order strict. -/
theorem orderedInsert_lt (hs : l.Pairwise fun a b => key a < key b)
    (hne : ∀ y ∈ l, key y ≠ key x) :
    (l.orderedInsert (fun a b => key a ≤ key b) x).Pairwise fun a b => key a < key b := by
  have hkeys : (x :: l).Pairwise fun a b => key a ≠ key b :=
    List.pairwise_cons.mpr ⟨fun y hy => (hne y hy).symm, hs.imp ne_of_lt⟩
  exact (orderedInsert_le (hs.imp le_of_lt) x).imp₂ (fun _ _ => lt_of_le_of_ne)
    (((l.perm_orderedInsert _ x).pairwise_iff Ne.symm).mpr hkeys)

end Insert

/-- A weaker test that passes one element more counts more. -/
theorem countP_lt_of_imp (himp : ∀ x ∈ l, p x = true → q x = true)
    (hmore : ∃ x ∈ l, q x = true ∧ p x = false) : l.countP p < l.countP q := by
  obtain ⟨x, hx, hq, hp⟩ := hmore
  have hcount : l.countP p = (l.filter q).countP p := by
    rw [List.countP_filter]
    exact List.countP_congr fun y hy => by simpa using himp y hy
  rw [hcount, List.countP_eq_length_filter (p := q), List.countP_lt_length_iff]
  exact ⟨x, List.mem_filter.mpr ⟨hx, hq⟩, hp⟩

end OrderedLists
