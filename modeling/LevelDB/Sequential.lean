import LevelDB.Invariant

/-! # The sequential model

    What the database is for: a map from keys to values that operations update
    one after another.  `storeAt h s` is that map after the first `s` committed
    operations.

    The committed operations also form a multi-version map, each operation under
    its sequence number.  Reading it at `s` is looking up `storeAt h s`
    (`visible_iff_storeAt`). -/

namespace LdbSequential

open Versioned LdbFormat LdbTable LdbInv

/-! ## Committed operations as versions and tombstones -/

/-- The versions of a set of entries; markers store none. -/
def versOf (S : Entry → Prop) : Set (Ver Slice Slice) :=
  {x | ∃ e, S e ∧ e.isPoint = true ∧ e.ver = x}

/-- The versions of the committed operations. -/
def committedVers (h : List Op) : Set (Ver Slice Slice) := versOf (Committed h)

/-- The tombstones of the committed operations. -/
def committedTombs (h : List Op) : Set (Tomb Slice) := {t | ∃ d, CommittedDel h d ∧ d.tomb = t}

theorem versOf_congr {S S' : Entry → Prop} (h : ∀ e, e.isPoint = true → (S e ↔ S' e)) :
    versOf S = versOf S' := by
  ext x
  constructor
  · rintro ⟨e, he, hp, rfl⟩
    exact ⟨e, (h e hp).mp he, hp, rfl⟩
  · rintro ⟨e, he, hp, rfl⟩
    exact ⟨e, (h e hp).mpr he, hp, rfl⟩

theorem versOf_or (S S' : Entry → Prop) : versOf (fun e => S e ∨ S' e) = versOf S ∪ versOf S' := by
  ext x
  constructor
  · rintro ⟨e, he | he, hp, rfl⟩
    · exact Or.inl ⟨e, he, hp, rfl⟩
    · exact Or.inr ⟨e, he, hp, rfl⟩
  · rintro (⟨e, he, hp, rfl⟩ | ⟨e, he, hp, rfl⟩)
    · exact ⟨e, Or.inl he, hp, rfl⟩
    · exact ⟨e, Or.inr he, hp, rfl⟩

/-! ## Operations committed later -/

/-- The entry of one of the operations committed after `h`. -/
def Added (h ops : List Op) (e : Entry) : Prop :=
  ∃ (i : Nat) (op : Op), ops[i]? = some op ∧ e = op.entry (h.length + i + 1)

/-- The range deletion of one of the operations committed after `h`. -/
def AddedDel (h ops : List Op) (d : RangeDeletion) : Prop :=
  ∃ (i : Nat) (a b : Slice), ops[i]? = some (.deleteRange a b) ∧ d = ⟨a, b, h.length + i + 1⟩

theorem not_added_nil (h : List Op) (e : Entry) : ¬ Added h [] e := by
  rintro ⟨i, op, hi, -⟩
  cases hi

variable {h : List Op}

theorem committed_append {ops : List Op} {e : Entry} :
    Committed (h ++ ops) e ↔ Committed h e ∨ Added h ops e := by
  constructor
  · rintro ⟨i, op, hi, rfl⟩
    rcases Nat.lt_or_ge i h.length with hlt | hge
    · rw [List.getElem?_append_left hlt] at hi
      exact Or.inl ⟨i, op, hi, rfl⟩
    · rw [List.getElem?_append_right hge] at hi
      refine Or.inr ⟨i - h.length, op, hi, ?_⟩
      congr 1
      omega
  · rintro (hc | ⟨i, op, hi, rfl⟩)
    · exact hc.append ops
    · refine ⟨h.length + i, op, ?_, rfl⟩
      rw [List.getElem?_append_right (Nat.le_add_right _ _), Nat.add_sub_cancel_left, hi]

/-- A committed range deletion of `h ++ batch` is one of `h` or one of the batch. -/
theorem committedDel_append {batch : List Op} {d : RangeDeletion} :
    CommittedDel (h ++ batch) d ↔ CommittedDel h d
      ∨ ∃ (i : Nat) (a b : Slice), batch[i]? = some (.deleteRange a b)
          ∧ d = ⟨a, b, h.length + i + 1⟩ := by
  constructor
  · rintro ⟨i, a, b, hi, rfl⟩
    rcases Nat.lt_or_ge i h.length with hlt | hge
    · rw [List.getElem?_append_left hlt] at hi
      exact Or.inl ⟨i, a, b, hi, rfl⟩
    · rw [List.getElem?_append_right hge] at hi
      refine Or.inr ⟨i - h.length, a, b, hi, ?_⟩
      congr 1
      omega
  · rintro (hc | ⟨i, a, b, hi, rfl⟩)
    · exact hc.append batch
    · refine ⟨h.length + i, a, b, ?_, rfl⟩
      rw [List.getElem?_append_right (Nat.le_add_right _ _), Nat.add_sub_cancel_left, hi]

theorem committedVers_append (h ops : List Op) :
    committedVers (h ++ ops) = committedVers h ∪ versOf (Added h ops) := by
  rw [committedVers, committedVers, ← versOf_or]
  exact versOf_congr fun e _ => committed_append

theorem committedTombs_append (h ops : List Op) :
    committedTombs (h ++ ops) = committedTombs h ∪ {t | ∃ d, AddedDel h ops d ∧ d.tomb = t} := by
  ext t
  constructor
  · rintro ⟨d, hd, rfl⟩
    rcases committedDel_append.mp hd with hd | hd
    · exact Or.inl ⟨d, hd, rfl⟩
    · exact Or.inr ⟨d, hd, rfl⟩
  · rintro (⟨d, hd, rfl⟩ | ⟨d, hd, rfl⟩)
    · exact ⟨d, committedDel_append.mpr (Or.inl hd), rfl⟩
    · exact ⟨d, committedDel_append.mpr (Or.inr hd), rfl⟩

theorem committedVers_seq_le : ∀ x ∈ committedVers h, x.seq ≤ h.length := by
  rintro x ⟨e, he, -, rfl⟩
  exact he.sequence_le.2

theorem committedTombs_seq_le : ∀ t ∈ committedTombs h, t.seq ≤ h.length := by
  rintro t ⟨d, hd, rfl⟩
  exact hd.seq_le.2

theorem added_seq_gt {ops : List Op} : ∀ x ∈ versOf (Added h ops), h.length < x.seq := by
  rintro x ⟨e, ⟨i, op, -, rfl⟩, -, rfl⟩
  rw [Entry.ver_seq, Op.entry_sequence]
  omega

theorem addedDel_seq_gt {ops : List Op} :
    ∀ t ∈ {t | ∃ d, AddedDel h ops d ∧ RangeDeletion.tomb d = t}, h.length < t.seq := by
  rintro t ⟨d, ⟨i, a, b, -, rfl⟩, rfl⟩
  show h.length < h.length + i + 1
  omega

/-! ## The map -/

/-- The effect of an operation on the map. -/
def applyOp (store : Slice → Option Slice) : Op → Slice → Option Slice
  | .put k v => Function.update store k (some v)
  | .delete k => Function.update store k none
  | .deleteRange a b => fun k => if a ≤ k ∧ k < b then none else store k

/-- The map after the first `s` operations. -/
def storeAt (h : List Op) (s : Nat) : Slice → Option Slice :=
  (h.take s).foldl applyOp fun _ => none

/-- The operation committed right after `h` adds its entry. -/
theorem added_singleton {op : Op} {e : Entry} :
    Added h [op] e ↔ e = op.entry (h.length + 1) := by
  constructor
  · rintro ⟨i, op', hi, rfl⟩
    cases i with
    | zero => cases hi; rfl
    | succ i => cases hi
  · rintro rfl
    exact ⟨0, op, rfl, rfl⟩

/-- A point operation adds one version. -/
theorem committedVers_point {op : Op} (hp : (op.entry (h.length + 1)).isPoint = true) :
    committedVers (h ++ [op]) = committedVers h ∪ {(op.entry (h.length + 1)).ver} := by
  rw [committedVers_append]
  congr 1
  ext x
  constructor
  · rintro ⟨e, he, -, rfl⟩
    rw [added_singleton.mp he]
    rfl
  · rintro rfl
    exact ⟨_, added_singleton.mpr rfl, hp, rfl⟩

/-- A range deletion adds no version. -/
theorem committedVers_deleteRange (h : List Op) (a b : Slice) :
    committedVers (h ++ [.deleteRange a b]) = committedVers h := by
  rw [committedVers_append]
  refine Set.union_eq_self_of_subset_right ?_
  rintro x ⟨e, he, hp, -⟩
  rw [added_singleton.mp he] at hp
  cases hp

/-- Other operations add no tombstone. -/
theorem committedTombs_point {op : Op} (hop : ∀ a b, op ≠ .deleteRange a b) :
    committedTombs (h ++ [op]) = committedTombs h := by
  rw [committedTombs_append]
  refine Set.union_eq_self_of_subset_right ?_
  rintro t ⟨d, ⟨i, a, b, hi, -⟩, -⟩
  cases i with
  | zero => exact absurd (Option.some.inj hi) (hop a b)
  | succ i => cases hi

/-- A range deletion adds one tombstone. -/
theorem committedTombs_deleteRange (h : List Op) (a b : Slice) :
    committedTombs (h ++ [.deleteRange a b])
      = committedTombs h ∪ {(⟨a, b, h.length + 1⟩ : RangeDeletion).tomb} := by
  rw [committedTombs_append]
  congr 1
  ext t
  constructor
  · rintro ⟨d, ⟨i, a', b', hi, rfl⟩, rfl⟩
    cases i with
    | zero => cases hi; rfl
    | succ i => cases hi
  · rintro rfl
    exact ⟨_, ⟨0, a, b, rfl, rfl⟩, rfl⟩

/-- One operation changes the visible values as it changes the map. -/
theorem visible_snoc (h : List Op) (op : Op) (store : Slice → Option Slice)
    (hstore : ∀ k v, Visible (committedVers h) (committedTombs h) k h.length v ↔ store k = some v)
    (k v : Slice) :
    Visible (committedVers (h ++ [op])) (committedTombs (h ++ [op])) k (h.length + 1) v
      ↔ applyOp store op k = some v := by
  have hpoint : ∀ (k' : Slice) (x : Option Slice), (k' = k ∧ x = some v)
      ∨ (k' ≠ k ∧ store k = some v) ↔ Function.update store k' x k = some v := by
    intro k' x
    by_cases hk : k = k'
    · subst hk
      simp
    · rw [Function.update_of_ne hk, or_iff_right fun h => hk h.1.symm, and_iff_right (Ne.symm hk)]
  cases op with
  | put k' | delete k' =>
    rw [committedVers_point rfl, committedTombs_point (by simp),
      visible_insert committedVers_seq_le committedTombs_seq_le rfl, hstore]
    exact hpoint k' _
  | deleteRange a b =>
    rw [committedVers_deleteRange, committedTombs_deleteRange,
      visible_insert_tomb committedVers_seq_le committedTombs_seq_le rfl, hstore]
    show ¬ (a ≤ k ∧ k < b) ∧ store k = some v
      ↔ (if a ≤ k ∧ k < b then none else store k) = some v
    by_cases hc : a ≤ k ∧ k < b
    · rw [if_pos hc]
      simp [hc]
    · rw [if_neg hc, and_iff_right hc]

/-- What is visible after all of `h` is the map `h` leaves. -/
theorem visible_length_iff (h : List Op) :
    ∀ k v, Visible (committedVers h) (committedTombs h) k h.length v
      ↔ h.foldl applyOp (fun _ => none) k = some v := by
  induction h using List.reverseRecOn with
  | nil =>
    intro k v
    constructor
    · rintro ⟨x, hx, -, -⟩
      obtain ⟨e, ⟨i, op, hi, -⟩, -, -⟩ := hx.1.1
      cases hi
    · nofun
  | append_singleton h op ih =>
    intro k v
    rw [List.length_append, List.foldl_append]
    exact visible_snoc h op _ ih k v

/-- **Reading the committed operations at `s` is looking up the map after the
    first `s` of them.** -/
theorem visible_iff_storeAt {s : Nat} (hs : s ≤ h.length) (k v : Slice) :
    Visible (committedVers h) (committedTombs h) k s v ↔ storeAt h s k = some v := by
  have hlen : (h.take s).length = s := List.length_take_of_le hs
  have happ : h.take s ++ h.drop s = h := List.take_append_drop s h
  have hE := committedVers_append (h.take s) (h.drop s)
  have hT := committedTombs_append (h.take s) (h.drop s)
  rw [happ] at hE hT
  have hread := visible_length_iff (h.take s) k v
  rw [hlen] at hread
  rw [storeAt, ← hread]
  -- what came later is above the number read at
  refine visible_congr ?_ ?_ v
  · intro x _ hx
    rw [hE]
    refine or_iff_left fun h' => ?_
    have := added_seq_gt x h'
    omega
  · intro t ht
    rw [hT]
    refine or_iff_left fun h' => ?_
    have := addedDel_seq_gt t h'
    omega

end LdbSequential
