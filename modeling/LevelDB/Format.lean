import Mathlib.Algebra.GroupWithZero.Nat
import Mathlib.Data.List.Lex
import Mathlib.Data.Prod.Lex
import Mathlib.Order.Lex
import LevelDB.Versioned

/-! # Internal keys, range deletions and their order

    `db/dbformat.{h,cc}` and `util/comparator.cc`.  User keys are byte strings
    in the order of `BytewiseComparator` (lexicographic, unsigned bytes).  An
    internal key adds a sequence number and a value type; it sorts by user key
    ascending, then by the packed tag `(sequence << 8) | type` descending, so
    the newest version of a user key comes first.

    Internal keys are kept parsed here; `InternalKey` therefore never is the
    cleared key of the source, which is `none` where a field may hold it. -/

namespace LdbFormat

open Versioned

instance instLinearOrderByte : LinearOrder UInt8 where
  le_refl := UInt8.le_refl
  le_trans _ _ _ := UInt8.le_trans
  lt_iff_le_not_ge _ _ := by
    simp only [UInt8.le_iff_toNat_le, UInt8.lt_iff_toNat_lt]
    omega
  le_antisymm _ _ := UInt8.le_antisymm
  le_total := UInt8.le_total
  toDecidableLE := inferInstance
  toDecidableEq := inferInstance
  toDecidableLT := inferInstance

/-- `leveldb::Slice`: a byte string, ordered as `BytewiseComparator` orders it. -/
abbrev Slice := List UInt8

/-- `enum ValueType`. -/
inductive ValueType where
  | deletion
  | value
  | rangeDeletion
  deriving DecidableEq, Repr

/-- The on-disk code of a value type. -/
def ValueType.code : ValueType → Nat
  | .deletion      => 0x0
  | .value         => 0x1
  | .rangeDeletion => 0x2

/-- `kValueTypeForSeek`: the highest-numbered type, which sorts first. -/
def kValueTypeForSeek : ValueType := .rangeDeletion

/-- `kMaxSequenceNumber`: eight bits are left for the type. -/
def kMaxSequenceNumber : Nat := 2 ^ 56 - 1

/-- `PackSequenceAndType`. -/
def packSequenceAndType (seq : Nat) (t : ValueType) : Nat := seq * 2 ^ 8 + t.code

/-- A parsed internal key. -/
structure InternalKey where
  userKey : Slice
  sequence : Nat
  type : ValueType
  deriving DecidableEq, Repr

/-- The packed tag of an internal key. -/
def InternalKey.tag (a : InternalKey) : Nat := packSequenceAndType a.sequence a.type

theorem ValueType.code_lt (t : ValueType) : t.code < 2 ^ 8 := by
  cases t <;> decide

theorem ValueType.code_inj {t u : ValueType} (h : t.code = u.code) : t = u := by
  cases t <;> cases u <;> first | rfl | exact absurd h (by decide)

/-- The tag determines the sequence and the type. -/
theorem packSequenceAndType_inj {p q : Nat} {t u : ValueType}
    (h : packSequenceAndType p t = packSequenceAndType q u) : p = q ∧ t = u := by
  have ht := t.code_lt
  have hu := u.code_lt
  simp only [packSequenceAndType] at h
  have hp : p = q := by omega
  subst hp
  exact ⟨rfl, ValueType.code_inj (by omega)⟩

/-- The sort position of `InternalKeyComparator::Compare`: user key ascending,
    tag descending. -/
def InternalKey.pos (a : InternalKey) : Slice ×ₗ ℕᵒᵈ :=
  toLex (a.userKey, OrderDual.toDual a.tag)

theorem InternalKey.pos_inj : Function.Injective InternalKey.pos := by
  rintro ⟨k, p, t⟩ ⟨l, q, u⟩ h
  have h2 := congrArg ofLex h
  simp only [InternalKey.pos, ofLex_toLex, Prod.mk.injEq, OrderDual.toDual_inj] at h2
  obtain ⟨hk, htag⟩ := h2
  obtain ⟨hp, ht⟩ := packSequenceAndType_inj htag
  exact InternalKey.mk.injEq .. ▸ ⟨hk, hp, ht⟩

/-- `InternalKeyComparator` is a total order on parsed internal keys. -/
instance : LinearOrder InternalKey := LinearOrder.lift' InternalKey.pos InternalKey.pos_inj

variable {a b : InternalKey}

theorem InternalKey.lt_iff :
    a < b ↔ a.userKey < b.userKey ∨ (a.userKey = b.userKey ∧ b.tag < a.tag) := by
  show a.pos < b.pos ↔ _
  rw [Prod.Lex.lt_iff]
  rfl

theorem InternalKey.le_iff :
    a ≤ b ↔ a.userKey < b.userKey ∨ (a.userKey = b.userKey ∧ b.tag ≤ a.tag) := by
  show a.pos ≤ b.pos ↔ _
  rw [Prod.Lex.le_iff]
  rfl

/-- The order refines the order of user keys. -/
theorem InternalKey.userKey_le (h : a ≤ b) : a.userKey ≤ b.userKey := by
  rcases InternalKey.le_iff.mp h with h | ⟨h, -⟩
  · exact le_of_lt h
  · exact le_of_eq h

theorem InternalKey.lt_of_userKey_lt (h : a.userKey < b.userKey) :
    a < b := InternalKey.lt_iff.mpr (Or.inl h)

/-- A key with tag 0 is the last one of its user key. -/
theorem InternalKey.le_of_tag_eq_zero (hb : b.tag = 0) (h : a.userKey ≤ b.userKey) : a ≤ b := by
  rcases lt_or_eq_of_le h with hlt | heq
  · exact le_of_lt (InternalKey.lt_of_userKey_lt hlt)
  · refine InternalKey.le_iff.mpr (Or.inr ⟨heq, ?_⟩)
    rw [hb]
    exact Nat.zero_le _

theorem InternalKey.tag_zero_deletion (k : Slice) :
    (⟨k, 0, .deletion⟩ : InternalKey).tag = 0 := by
  simp [InternalKey.tag, packSequenceAndType, ValueType.code]

theorem InternalKey.sequence_eq_zero (h : a.tag = 0) : a.sequence = 0 := by
  simp only [InternalKey.tag, packSequenceAndType] at h
  omega

variable {k : Slice}

/-- No key of a user key comes after its deletion at sequence 0. -/
theorem InternalKey.le_zero_deletion (h : a.userKey ≤ k) :
    a ≤ ⟨k, 0, .deletion⟩ :=
  InternalKey.le_of_tag_eq_zero (InternalKey.tag_zero_deletion k) h

/-- Among keys of one user key, a later position has no larger sequence. -/
theorem InternalKey.sequence_le (hk : a.userKey = b.userKey) (h : a ≤ b) :
    b.sequence ≤ a.sequence := by
  rcases InternalKey.le_iff.mp h with h | ⟨-, h⟩
  · exact absurd (hk ▸ h) (lt_irrefl _)
  · have ha := a.type.code_lt
    simp only [InternalKey.tag, packSequenceAndType] at h
    omega

/-- A larger sequence sorts strictly first. -/
theorem InternalKey.lt_of_sequence_lt (hk : a.userKey = b.userKey) (h : b.sequence < a.sequence) :
    a < b := by
  refine InternalKey.lt_iff.mpr (Or.inr ⟨hk, ?_⟩)
  have ha := a.type.code_lt
  have hb := b.type.code_lt
  simp only [InternalKey.tag, packSequenceAndType]
  omega

/-- A stored table or memtable entry. -/
structure Entry where
  key : InternalKey
  value : Slice
  deriving DecidableEq, Repr

/-! ## Comparators

    What compares keys through `user_comparator()` is defined over any comparator;
    `BytewiseComparator` is the one that is meant where none is given. -/

/-- `Slice::compare`. -/
def sliceCompare (a b : Slice) : Ordering := compareOfLessAndEq a b

/-- The comparator of the user. -/
class UserComparator where
  userCompare : Slice → Slice → Ordering

export UserComparator (userCompare)

/-- `BytewiseComparator`. -/
instance bytewise : UserComparator := ⟨sliceCompare⟩

/-- `InternalKeyComparator::Compare`. -/
def internalCompare [UserComparator] (a b : InternalKey) : Ordering :=
  (userCompare a.userKey b.userKey).then (compare b.tag a.tag)

/-- The entry sorts before the other. -/
def entryBefore [UserComparator] (a b : Entry) : Bool := decide (internalCompare a.key b.key = .lt)

section Bytes

variable {k l : Slice}

@[simp] theorem sliceCompare_lt : sliceCompare k l = .lt ↔ k < l :=
  compareOfLessAndEq_eq_lt

@[simp] theorem sliceCompare_eq : sliceCompare k l = .eq ↔ k = l :=
  compareOfLessAndEq_eq_eq le_refl not_le

@[simp] theorem sliceCompare_gt : sliceCompare k l = .gt ↔ l < k :=
  compareOfLessAndEq_eq_gt le_antisymm le_total not_le k l

@[simp] theorem userCompare_lt : userCompare k l = .lt ↔ k < l := sliceCompare_lt

@[simp] theorem userCompare_eq : userCompare k l = .eq ↔ k = l := sliceCompare_eq

@[simp] theorem userCompare_gt : userCompare k l = .gt ↔ l < k := sliceCompare_gt

@[simp] theorem internalCompare_lt : internalCompare a b = .lt ↔ a < b := by
  rw [internalCompare, Ordering.then_eq_lt, userCompare_lt, userCompare_eq, compare_lt_iff_lt,
    InternalKey.lt_iff]

@[simp] theorem internalCompare_eq : internalCompare a b = .eq ↔ a = b := by
  rw [internalCompare, Ordering.then_eq_eq, userCompare_eq, compare_eq_iff_eq]
  refine ⟨fun h => ?_, fun h => h ▸ ⟨rfl, rfl⟩⟩
  exact le_antisymm (InternalKey.le_iff.mpr (Or.inr ⟨h.1, le_of_eq h.2⟩))
    (InternalKey.le_iff.mpr (Or.inr ⟨h.1.symm, le_of_eq h.2.symm⟩))

theorem entryBefore_iff (d e : Entry) : entryBefore d e = true ↔ d.key < e.key := by
  rw [entryBefore, decide_eq_true_eq, internalCompare_lt]

end Bytes

/-- The internal key of a `LookupKey`: the first position a read of `k` at
    `snapshot` may see. -/
def lookupKey (k : Slice) (snapshot : Nat) : InternalKey :=
  ⟨k, snapshot, kValueTypeForSeek⟩

/-- A read at `s` starts at the lookup key and sees exactly the versions
    numbered at most `s`. -/
theorem lookupKey_le_iff {s : Nat} (hk : a.userKey = k) : lookupKey k s ≤ a ↔ a.sequence ≤ s := by
  constructor
  · intro h
    exact InternalKey.sequence_le (a := lookupKey k s) (b := a) hk.symm h
  · intro h
    refine InternalKey.le_iff.mpr (Or.inr ⟨hk.symm, ?_⟩)
    have hcode : a.type.code ≤ kValueTypeForSeek.code := by cases a.type <;> decide
    simp only [InternalKey.tag, packSequenceAndType, lookupKey]
    omega

/-! ## Range deletions -/

/-- `struct RangeDeletion`. -/
structure RangeDeletion where
  startKey : Slice
  endKey : Slice
  seq : Nat
  deriving DecidableEq, Repr

/-- The range deletion an entry of type `kTypeRangeDeletion` encodes. -/
def Entry.rangeDeletion (e : Entry) : RangeDeletion :=
  ⟨e.key.userKey, e.value, e.key.sequence⟩

/-- The deletion's half-open range contains the key. -/
def RangeDeletion.covers (del : RangeDeletion) (key : Slice) : Bool :=
  decide (del.startKey ≤ key) && decide (key < del.endKey)

/-- `RangeDeletionList::IsDeleted`. -/
def isDeleted (deletions : List RangeDeletion) (key : Slice) (foundSeq readSeq : Nat) :
    Bool :=
  deletions.any fun del =>
    del.covers key && (decide (del.seq ≤ readSeq) && decide (foundSeq < del.seq))

variable {deletions : List RangeDeletion}

theorem isDeleted_iff {key : Slice} {foundSeq readSeq : Nat} :
    isDeleted deletions key foundSeq readSeq = true ↔
      ∃ del ∈ deletions, del.covers key = true ∧ foundSeq < del.seq ∧ del.seq ≤ readSeq := by
  simp only [isDeleted, List.any_eq_true, Bool.and_eq_true, decide_eq_true_eq]
  constructor
  · rintro ⟨del, hm, hc, hle, hlt⟩
    exact ⟨del, hm, hc, hlt, hle⟩
  · rintro ⟨del, hm, hc, hlt, hle⟩
    exact ⟨del, hm, hc, hle, hlt⟩

/-- An entry older than a deleted one is deleted too. -/
theorem isDeleted_mono {key : Slice} {q q' s : Nat}
    (h : isDeleted deletions key q s = true) (hq : q' ≤ q) :
    isDeleted deletions key q' s = true := by
  obtain ⟨del, hm, hc, hlt, hle⟩ := isDeleted_iff.mp h
  exact isDeleted_iff.mpr ⟨del, hm, hc, Nat.lt_of_le_of_lt hq hlt, hle⟩

/-! ## What stored entries mean

    The bridge to the multi-version map: point entries are versions, range
    deletions are tombstones. -/

/-- The version a point entry stores. -/
def Entry.ver (e : Entry) : Ver Slice Slice where
  key := e.key.userKey
  seq := e.key.sequence
  val := match e.key.type with
    | .value => some e.value
    | _      => none

/-- A `Put` or `Delete` entry, as opposed to a range-deletion marker. -/
def Entry.isPoint (e : Entry) : Bool := decide (e.key.type ≠ .rangeDeletion)

/-- The versions stored by a list of entries; markers store none. -/
def versions (es : List Entry) : Set (Ver Slice Slice) :=
  {x | ∃ e ∈ es, e.isPoint = true ∧ e.ver = x}

/-- The tombstone a range deletion stores. -/
def RangeDeletion.tomb (del : RangeDeletion) : Tomb Slice :=
  ⟨del.startKey, del.endKey, del.seq⟩

/-- The tombstones of a list of range deletions. -/
def tombs (deletions : List RangeDeletion) : Set (Tomb Slice) :=
  {t | ∃ del ∈ deletions, del.tomb = t}

theorem RangeDeletion.covers_iff {del : RangeDeletion} :
    del.covers k = true ↔ del.tomb.Covers k := by
  simp only [RangeDeletion.covers, RangeDeletion.tomb, Tomb.Covers, Bool.and_eq_true,
    decide_eq_true_eq]

/-- `IsDeleted` decides hiding. -/
theorem isDeleted_iff_hidden {q s : Nat} :
    isDeleted deletions k q s = true ↔ Hidden (tombs deletions) k q s := by
  rw [isDeleted_iff]
  constructor
  · rintro ⟨del, hm, hc, hlt, hle⟩
    exact ⟨del.tomb, ⟨del, hm, rfl⟩, RangeDeletion.covers_iff.mp hc, hlt, hle⟩
  · rintro ⟨t, ⟨del, hm, rfl⟩, hc, hlt, hle⟩
    exact ⟨del, hm, RangeDeletion.covers_iff.mpr hc, hlt, hle⟩

@[simp] theorem Entry.ver_key (e : Entry) : e.ver.key = e.key.userKey := rfl
@[simp] theorem Entry.ver_seq (e : Entry) : e.ver.seq = e.key.sequence := rfl

/-- A list of entries in strictly increasing internal-key order. -/
def Sorted (es : List Entry) : Prop := es.Pairwise (fun a b => a.key < b.key)

instance (es : List Entry) : Decidable (Sorted es) := by
  unfold Sorted; infer_instance

end LdbFormat
