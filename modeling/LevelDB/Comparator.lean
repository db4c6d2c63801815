import LevelDB.Format

/-! # Comparators

    `include/leveldb/comparator.h` and `util/comparator.cc`. -/

namespace LdbComparator

open LdbFormat

/-- `leveldb::Comparator`. -/
structure Comparator where
  compare : Slice → Slice → Ordering
  findShortestSeparator : Slice → Slice → Slice
  findShortSuccessor : Slice → Slice

/-- How many leading bytes two strings share. -/
def sharedLength : Slice → Slice → Nat
  | a :: as, b :: bs => if a = b then sharedLength as bs + 1 else 0
  | _, _ => 0

/-- `BytewiseComparatorImpl::FindShortestSeparator`: the first byte that differs is
    raised, if that stays below `limit`. -/
def findShortestSeparator (start limit : Slice) : Slice :=
  let diffIndex := sharedLength start limit
  match start[diffIndex]?, limit[diffIndex]? with
  | some a, some b =>
    if a.toNat < 0xff ∧ a.toNat + 1 < b.toNat then start.take diffIndex ++ [a + 1] else start
  | _, _ => start

/-- `BytewiseComparatorImpl::FindShortSuccessor`: the first byte that can be raised
    is; a run of `0xff` is left alone. -/
def findShortSuccessor : Slice → Slice
  | [] => []
  | b :: rest =>
    if b ≠ 0xff then [b + 1]
    else if rest.all (· == 0xff) then b :: rest
    else b :: findShortSuccessor rest

/-- `BytewiseComparator`. -/
def bytewiseComparator : Comparator where
  compare a b := Ord.compare a b
  findShortestSeparator := findShortestSeparator
  findShortSuccessor := findShortSuccessor

instance : Std.TransCmp bytewiseComparator.compare :=
  inferInstanceAs (Std.TransCmp fun a b : Slice => Ord.compare a b)

theorem sharedLength_le_right (a : Slice) : ∀ b, sharedLength a b ≤ b.length := by
  induction a with
  | nil => intro b; exact Nat.zero_le _
  | cons x a ih =>
    intro b
    cases b with
    | nil => exact Nat.le_refl _
    | cons y b =>
      rw [sharedLength]
      by_cases hxy : x = y
      · rw [if_pos hxy]
        exact Nat.succ_le_succ (ih b)
      · rw [if_neg hxy]
        exact Nat.zero_le _

/-- The shared bytes are the same in both. -/
theorem take_sharedLength (a : Slice) :
    ∀ b, a.take (sharedLength a b) = b.take (sharedLength a b) := by
  induction a with
  | nil => intro b; simp [sharedLength]
  | cons x a ih =>
    intro b
    cases b with
    | nil => simp [sharedLength]
    | cons y b =>
      rw [sharedLength]
      by_cases hxy : x = y
      · rw [if_pos hxy, List.take_succ_cons, List.take_succ_cons, hxy, ih b]
      · rw [if_neg hxy, List.take_zero, List.take_zero]

end LdbComparator
