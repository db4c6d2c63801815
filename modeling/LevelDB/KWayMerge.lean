import Mathlib.Data.List.Basic
import Mathlib.Order.Lattice

/-! # Merging sorted lists by their heads

    The k-way merge of a list of sorted lists: repeatedly take the smallest
    head, the first one on ties.  Where the test `before` orders elements by their
    keys, the merge is a permutation of all elements (`merge_perm`) and sorted when
    the lists are (`merge_sorted`). -/

namespace KWayMerge

variable {α : Type} (before : α → α → Bool)

/-- Take the smallest head off the lists, the first one on ties. -/
def popSmallest : List (List α) → Option (α × List (List α))
  | [] => none
  | [] :: cs => (popSmallest cs).map fun p => (p.1, [] :: p.2)
  | (x :: xs) :: cs =>
    match popSmallest cs with
    | none => some (x, xs :: cs)
    | some (e, cs') => if before e x then some (e, (x :: xs) :: cs') else some (x, xs :: cs)

/-- Take `n` smallest heads. -/
def mergeUpTo : Nat → List (List α) → List α
  | 0, _ => []
  | n + 1, cs =>
    match popSmallest before cs with
    | none => []
    | some (e, cs') => e :: mergeUpTo n cs'

/-- The merge of all lists. -/
def merge (cs : List (List α)) : List α := mergeUpTo before cs.flatten.length cs

theorem popSmallest_eq_none :
    ∀ {cs : List (List α)}, popSmallest before cs = none → cs.flatten = [] := by
  intro cs
  induction cs with
  | nil => intro _; rfl
  | cons c cs ih =>
    intro h
    cases c with
    | nil =>
      rw [popSmallest, Option.map_eq_none_iff] at h
      rw [List.flatten_cons, ih h]
      rfl
    | cons x xs =>
      rw [popSmallest] at h
      cases hp : popSmallest before cs with
      | none => simp [hp] at h
      | some p =>
        simp only [hp] at h
        split_ifs at h

variable {K : Type} [LinearOrder K] {key : α → K} {before}
  (hb : ∀ a b, before a b = true ↔ key a < key b)
include hb

/-- **What is taken** is the head of one of the lists, and no other head is smaller. -/
theorem popSmallest_eq_some :
    ∀ {cs : List (List α)} {e : α} {cs' : List (List α)}, popSmallest before cs = some (e, cs') →
      (∃ front xs after, cs = front ++ (e :: xs) :: after ∧ cs' = front ++ xs :: after)
        ∧ ∀ c ∈ cs, ∀ x ∈ c.head?, key e ≤ key x := by
  intro cs
  induction cs with
  | nil => intro e cs' h; cases h
  | cons c cs ih =>
    intro e cs' h
    cases c with
    | nil =>
      rw [popSmallest, Option.map_eq_some_iff] at h
      obtain ⟨⟨e', cs''⟩, hp, heq⟩ := h
      cases heq
      obtain ⟨⟨front, xs, after, rfl, rfl⟩, hle⟩ := ih hp
      exact ⟨⟨[] :: front, xs, after, rfl, rfl⟩, List.forall_mem_cons.mpr ⟨nofun, hle⟩⟩
    | cons x xs =>
      rw [popSmallest] at h
      rcases hp : popSmallest before cs with _ | ⟨e', cs''⟩
      · rw [hp] at h
        cases h
        refine ⟨⟨[], xs, cs, rfl, rfl⟩, List.forall_mem_cons.mpr ⟨by simp, fun c hc y hy => ?_⟩⟩
        rw [List.flatten_eq_nil_iff.mp (popSmallest_eq_none _ hp) c hc] at hy
        cases hy
      · obtain ⟨⟨front, ys, after, rfl, rfl⟩, hle⟩ := ih hp
        simp only [hp] at h
        split_ifs at h with hlt
        · cases h
          exact ⟨⟨(x :: xs) :: front, ys, after, rfl, rfl⟩,
            List.forall_mem_cons.mpr ⟨by simpa using le_of_lt ((hb _ _).mp hlt), hle⟩⟩
        · cases h
          exact ⟨⟨[], xs, _, rfl, rfl⟩, List.forall_mem_cons.mpr
            ⟨by simp, fun c hc y hy => le_trans (le_of_not_gt (mt (hb _ _).mpr hlt)) (hle c hc y hy)⟩⟩

variable {cs cs' : List (List α)} {e : α}

/-- What is left after taking a head is what was there without it. -/
theorem popSmallest_perm (h : popSmallest before cs = some (e, cs')) :
    cs.flatten.Perm (e :: cs'.flatten) := by
  obtain ⟨⟨front, xs, after, rfl, rfl⟩, -⟩ := popSmallest_eq_some hb h
  simp only [List.flatten_append, List.flatten_cons, List.cons_append]
  exact List.perm_middle

/-- The lists left over are sorted when the lists were. -/
theorem popSmallest_sorted (h : popSmallest before cs = some (e, cs'))
    (hs : ∀ c ∈ cs, c.Pairwise fun a b => key a ≤ key b) :
    ∀ c ∈ cs', c.Pairwise fun a b => key a ≤ key b := by
  obtain ⟨⟨front, xs, after, rfl, rfl⟩, -⟩ := popSmallest_eq_some hb h
  intro c hc
  rcases List.mem_append.mp hc with hc | hc
  · exact hs c (List.mem_append_left _ hc)
  · rcases List.mem_cons.mp hc with rfl | hc
    · exact (List.pairwise_cons.mp (hs (e :: c) (by simp))).2
    · exact hs c (by simp [hc])

/-- The head taken is a smallest element of sorted lists. -/
theorem popSmallest_le (h : popSmallest before cs = some (e, cs'))
    (hs : ∀ c ∈ cs, c.Pairwise fun a b => key a ≤ key b) :
    ∀ x ∈ cs.flatten, key e ≤ key x := by
  intro x hx
  obtain ⟨c, hc, hx⟩ := List.mem_flatten.mp hx
  obtain ⟨y, ys, rfl⟩ := List.exists_cons_of_ne_nil (List.ne_nil_of_mem hx)
  have hhead := (popSmallest_eq_some hb h).2 _ hc y rfl
  rcases List.mem_cons.mp hx with rfl | hx
  · exact hhead
  · exact le_trans hhead ((List.pairwise_cons.mp (hs _ hc)).1 x hx)

/-- **The merge loses and invents nothing.** -/
theorem mergeUpTo_perm :
    ∀ (n : Nat) (cs : List (List α)), cs.flatten.length = n →
      (mergeUpTo before n cs).Perm cs.flatten := by
  intro n
  induction n with
  | zero =>
    intro cs h
    rw [List.length_eq_zero_iff.mp h]
    exact List.Perm.refl _
  | succ n ih =>
    intro cs h
    rw [mergeUpTo]
    cases hp : popSmallest before cs with
    | none =>
      rw [popSmallest_eq_none _ hp] at h
      cases h
    | some p =>
      obtain ⟨e, cs'⟩ := p
      have hperm := popSmallest_perm hb hp
      have hlen : cs'.flatten.length = n := Nat.succ.inj (hperm.length_eq.symm.trans h)
      exact ((ih cs' hlen).cons e).trans hperm.symm

theorem merge_perm (cs : List (List α)) : (merge before cs).Perm cs.flatten :=
  mergeUpTo_perm hb _ cs rfl

/-- **The merge of sorted lists is sorted.** -/
theorem merge_sorted {cs : List (List α)} (hs : ∀ c ∈ cs, c.Pairwise fun a b => key a ≤ key b) :
    (merge before cs).Pairwise fun a b => key a ≤ key b := by
  have hgen : ∀ (n : Nat) (cs : List (List α)), cs.flatten.length = n →
      (∀ c ∈ cs, c.Pairwise fun a b => key a ≤ key b) →
      (mergeUpTo before n cs).Pairwise fun a b => key a ≤ key b := by
    intro n
    induction n with
    | zero => intro cs _ _; exact List.Pairwise.nil
    | succ n ih =>
      intro cs h hs
      rw [mergeUpTo]
      cases hp : popSmallest before cs with
      | none => exact List.Pairwise.nil
      | some p =>
        obtain ⟨e, cs'⟩ := p
        have hperm := popSmallest_perm hb hp
        have hlen : cs'.flatten.length = n := Nat.succ.inj (hperm.length_eq.symm.trans h)
        refine List.pairwise_cons.mpr ⟨?_, ih cs' hlen (popSmallest_sorted hb hp hs)⟩
        intro x hx
        have hx' : x ∈ cs'.flatten := (mergeUpTo_perm hb n cs' hlen).subset hx
        exact popSmallest_le hb hp hs x (hperm.symm.subset (List.mem_cons_of_mem _ hx'))
  exact hgen _ cs rfl hs

/-- Elements with keys of their own are merged in strict order. -/
theorem merge_strict {cs : List (List α)} (hs : ∀ c ∈ cs, c.Pairwise fun a b => key a < key b)
    (hne : cs.flatten.Pairwise fun a b => key a ≠ key b) :
    (merge before cs).Pairwise fun a b => key a < key b :=
  (merge_sorted hb fun c hc => (hs c hc).imp le_of_lt).imp₂ (fun _ _ => lt_of_le_of_ne)
    (((merge_perm hb cs).pairwise_iff Ne.symm).mpr hne)

end KWayMerge
