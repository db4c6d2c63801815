import LevelDB.Comparator
import LevelDB.EditCodec
import LevelDB.FilterBlock

/-! # Internal keys as byte strings

    `InternalKeyComparator` and `InternalFilterPolicy` (`db/dbformat.cc`) on the
    encoded form of internal keys, which is what memtables and tables store.  On
    encoded keys the comparator is the order of `InternalKey`
    (`compare_encodeKey_lt`), and the shortened keys of the index are encoded
    internal keys as well (`separator_encodeKey`). -/

namespace LdbInternalKey

open LdbFormat LdbCoding LdbComparator LdbEditCodec LdbFilterBlock

/-! ## The bytewise order -/

/-- **The bytewise comparator is the order of byte strings.** -/
theorem bytewise_lt (a : Slice) : ∀ b, bytewiseComparator.compare a b = .lt ↔ a < b := by
  show ∀ b : Slice, List.compareLex Ord.compare a b = .lt ↔ a < b
  induction a with
  | nil =>
    intro b
    cases b with
    | nil => rw [List.compareLex_nil_nil]; simp
    | cons y b => rw [List.compareLex_nil_cons]; simp
  | cons x a ih =>
    intro b
    cases b with
    | nil => rw [List.compareLex_cons_nil]; simp
    | cons y b =>
      have hbyte : (Ord.compare x y = .lt ↔ x < y) ∧ (Ord.compare x y = .eq ↔ x = y) :=
        ⟨compareOfLessAndEq_eq_lt, compareOfLessAndEq_eq_eq UInt8.le_refl UInt8.not_le⟩
      rw [List.compareLex_cons_cons, List.cons_lt_cons_iff, Ordering.then_eq_lt, ih b,
        hbyte.1, hbyte.2]

theorem bytewise_eq (a b : Slice) : bytewiseComparator.compare a b = .eq ↔ a = b := by
  have hlawful : Std.LawfulEqCmp fun a b : Slice => Ord.compare a b := inferInstance
  exact ⟨hlawful.eq_of_compare, fun h => h ▸ Std.ReflCmp.compare_self⟩

theorem findShortestSeparator_cons (a : UInt8) (as bs : Slice) :
    findShortestSeparator (a :: as) (a :: bs) = a :: findShortestSeparator as bs := by
  rw [findShortestSeparator, findShortestSeparator]
  simp only [sharedLength, if_true, List.getElem?_cons_succ]
  cases as[sharedLength as bs]? with
  | none => rfl
  | some x =>
    cases bs[sharedLength as bs]? with
    | none => rfl
    | some y =>
      simp only
      split_ifs
      · rfl
      · rfl

/-- The separator stays below the limit. -/
theorem findShortestSeparator_lt (start : Slice) :
    ∀ limit, start < limit → findShortestSeparator start limit < limit := by
  induction start with
  | nil => intro limit h; exact h
  | cons a as ih =>
    intro limit h
    cases limit with
    | nil => exact absurd h (List.not_lt_nil _)
    | cons b bs =>
      by_cases hab : a = b
      · subst hab
        rw [findShortestSeparator_cons]
        exact List.cons_lt_cons_self.mpr (ih bs (List.cons_lt_cons_self.mp h))
      · rw [findShortestSeparator, sharedLength, if_neg hab]
        simp only [List.getElem?_cons_zero, List.take_zero, List.nil_append]
        split_ifs with hraise
        · refine List.cons_lt_cons_iff.mpr (Or.inl ?_)
          rw [UInt8.lt_iff_toNat_lt, UInt8.toNat_add]
          show (a.toNat + 1) % 2 ^ 8 < b.toNat
          omega
        · exact h

theorem findShortestSeparator_self (a : Slice) : findShortestSeparator a a = a := by
  induction a with
  | nil => rfl
  | cons x a ih => rw [findShortestSeparator_cons, ih]

/-! ## The comparator -/

/-- `ExtractUserKey`. -/
def extractUserKey (key : Slice) : Slice := key.take (key.length - 8)

/-- The packed sequence and type at the end of an internal key. -/
def extractTag (key : Slice) : Nat := decodeFixed64 (key.drop (key.length - 8))

/-- The key that replaces `key` if its shortened user key is shorter but larger: the
    earliest one of that user key. -/
def shortened (user : Comparator) (key tmp : Slice) : Slice :=
  if tmp.length < (extractUserKey key).length
      ∧ user.compare (extractUserKey key) tmp = .lt then
    tmp ++ encodeFixed64 (packSequenceAndType kMaxSequenceNumber kValueTypeForSeek)
  else key

/-- `InternalKeyComparator`. -/
def internalKeyComparator (user : Comparator) : Comparator where
  compare a b := (user.compare (extractUserKey a) (extractUserKey b)).then
    (Ord.compare (extractTag b) (extractTag a))
  findShortestSeparator start limit :=
    shortened user start
      (user.findShortestSeparator (extractUserKey start) (extractUserKey limit))
  findShortSuccessor key := shortened user key (user.findShortSuccessor (extractUserKey key))

instance instTransCmpInternalKey {user : Comparator} [Std.TransCmp user.compare] :
    Std.TransCmp (internalKeyComparator user).compare :=
  have : Std.TransCmp fun a b : Slice => user.compare (extractUserKey a) (extractUserKey b) :=
    { eq_swap := Std.OrientedCmp.eq_swap
      isLE_trans := Std.TransCmp.isLE_trans }
  have : Std.TransCmp fun a b : Slice => Ord.compare (extractTag b) (extractTag a) :=
    { eq_swap := Std.OrientedCmp.eq_swap
      isLE_trans := fun h1 h2 => Std.TransCmp.isLE_trans h2 h1 }
  inferInstanceAs (Std.TransCmp (compareLex
    (fun a b : Slice => user.compare (extractUserKey a) (extractUserKey b))
    (fun a b : Slice => Ord.compare (extractTag b) (extractTag a))))

/-! ## Encoded internal keys -/

/-- The comparator of the database: internal keys over the bytewise order. -/
def dbComparator : Comparator := internalKeyComparator bytewiseComparator

instance instTransCmpDb : Std.TransCmp dbComparator.compare :=
  inferInstanceAs (Std.TransCmp (internalKeyComparator bytewiseComparator).compare)

@[simp] theorem extractUserKey_encodeKey (k : InternalKey) :
    extractUserKey (encodeKey k) = k.userKey := by
  rw [extractUserKey, encodeKey_length, Nat.add_sub_cancel, encodeKey, List.take_left]

theorem extractTag_encodeKey {k : InternalKey} (h : k.sequence ≤ kMaxSequenceNumber) :
    extractTag (encodeKey k) = k.tag := by
  have hseq : k.sequence ≤ 2 ^ 56 - 1 := h
  have hcode := k.type.code_lt
  have hdrop : (encodeKey k).drop ((encodeKey k).length - 8) = encodeFixed64 k.tag ++ [] := by
    rw [encodeKey_length, Nat.add_sub_cancel, encodeKey, List.drop_left, List.append_nil]
  rw [extractTag, hdrop]
  refine decodeFixed64_encodeFixed64 _ ?_ []
  rw [InternalKey.tag, packSequenceAndType]
  omega

/-- The sequence and the type in the tag. -/
theorem extractTag_parts {k : InternalKey} (h : k.sequence ≤ kMaxSequenceNumber) :
    extractTag (encodeKey k) / 256 = k.sequence
      ∧ extractTag (encodeKey k) % 256 = k.type.code := by
  have hcode := k.type.code_lt
  rw [extractTag_encodeKey h, InternalKey.tag, packSequenceAndType]
  omega

/-- **On encoded keys the comparator is the order of internal keys.** -/
theorem compare_encodeKey_lt {a b : InternalKey} (ha : a.sequence ≤ kMaxSequenceNumber)
    (hb : b.sequence ≤ kMaxSequenceNumber) :
    dbComparator.compare (encodeKey a) (encodeKey b) = .lt ↔ a < b := by
  show Ordering.then _ _ = .lt ↔ _
  rw [Ordering.then_eq_lt, extractUserKey_encodeKey, extractUserKey_encodeKey,
    extractTag_encodeKey ha, extractTag_encodeKey hb, bytewise_lt, bytewise_eq, Nat.compare_eq_lt,
    InternalKey.lt_iff]

variable {last : InternalKey}

/-- The shortened key is an encoded one: the old key, or the earliest key of a larger
    user key. -/
theorem shortened_encodeKey (tmp : Slice) (hl : last.sequence ≤ kMaxSequenceNumber) :
    ∃ s : InternalKey, shortened bytewiseComparator (encodeKey last) tmp = encodeKey s
      ∧ s.sequence ≤ kMaxSequenceNumber
      ∧ (s = last ∨ s = lookupKey tmp kMaxSequenceNumber ∧ last.userKey < tmp
          ∧ tmp.length < last.userKey.length) := by
  rw [shortened, extractUserKey_encodeKey]
  split_ifs with h
  · refine ⟨lookupKey tmp kMaxSequenceNumber, rfl, le_refl _, Or.inr ⟨rfl, ?_, h.1⟩⟩
    exact (bytewise_lt _ _).mp h.2
  · exact ⟨last, rfl, hl, Or.inl rfl⟩

/-- **The separator of two keys** is an encoded key between them. -/
theorem separator_encodeKey {next : InternalKey} (hl : last.sequence ≤ kMaxSequenceNumber)
    (hlt : last < next) :
    ∃ s : InternalKey,
      dbComparator.findShortestSeparator (encodeKey last) (encodeKey next) = encodeKey s
      ∧ s.sequence ≤ kMaxSequenceNumber ∧ last ≤ s ∧ s < next
      ∧ (s = last ∨ s.sequence = kMaxSequenceNumber) := by
  obtain ⟨s, heq, hs, hor⟩ := shortened_encodeKey
    (findShortestSeparator last.userKey next.userKey) hl
  refine ⟨s, ?_, hs, ?_⟩
  · rw [← heq]
    show shortened _ _ (findShortestSeparator _ _) = _
    rw [extractUserKey_encodeKey, extractUserKey_encodeKey]
  · rcases hor with rfl | ⟨rfl, hup, hshort⟩
    · exact ⟨le_refl _, hlt, Or.inl rfl⟩
    · refine ⟨le_of_lt (InternalKey.lt_of_userKey_lt hup), InternalKey.lt_of_userKey_lt ?_,
        Or.inr rfl⟩
      rcases lt_or_eq_of_le (InternalKey.userKey_le (le_of_lt hlt)) with hk | hk
      · exact findShortestSeparator_lt _ _ hk
      · -- versions of one key: the user key is not shortened
        rw [← hk, findShortestSeparator_self] at hshort
        exact absurd hshort (lt_irrefl _)

/-- The successor of a key is an encoded key that is not smaller. -/
theorem successor_encodeKey (hl : last.sequence ≤ kMaxSequenceNumber) :
    ∃ s : InternalKey, dbComparator.findShortSuccessor (encodeKey last) = encodeKey s
      ∧ s.sequence ≤ kMaxSequenceNumber ∧ last ≤ s := by
  obtain ⟨s, heq, hs, hor⟩ := shortened_encodeKey (findShortSuccessor last.userKey) hl
  refine ⟨s, ?_, hs, ?_⟩
  · rw [← heq]
    show shortened _ _ (findShortSuccessor _) = _
    rw [extractUserKey_encodeKey]
  · rcases hor with rfl | ⟨rfl, hup, -⟩
    · exact le_refl _
    · exact le_of_lt (InternalKey.lt_of_userKey_lt hup)

/-- No lookup below the largest sequence falls between the last key of a block and
    its index key, unless the next block begins with a larger user key. -/
theorem lookup_between {s next : InternalKey} {k : Slice} {r : Nat}
    (hr : r < kMaxSequenceNumber) (hor : s = last ∨ s.sequence = kMaxSequenceNumber)
    (hsn : s < next) (hlast : last < lookupKey k r) (hle : lookupKey k r ≤ s) :
    k < next.userKey := by
  rcases hor with rfl | hmax
  · exact absurd hlast (not_lt_of_ge hle)
  · have hks : k ≤ s.userKey := InternalKey.userKey_le hle
    rcases lt_or_eq_of_le hks with hlt | heq
    · exact lt_of_lt_of_le hlt (InternalKey.userKey_le (le_of_lt hsn))
    · have := (lookupKey_le_iff heq.symm).mp hle
      omega

/-! ## Index keys between their neighbours

    The comparator and the shortening of keys on any byte string with room for a tag,
    whatever its eight last bytes are. -/

/-- What `ExtractUserKey` asserts of an internal key: it has room for the tag. -/
def HasTag (key : Slice) : Prop := 8 ≤ key.length

/-- A comparison that is a total order on the keys of a kind. -/
structure TotalOrderOn (P : Slice → Prop) (compare : Slice → Slice → Ordering) : Prop where
  swap : ∀ a b, P a → P b → compare b a = (compare a b).swap
  trans : ∀ a b c, P a → P b → P c → compare a b ≠ .gt → compare b c ≠ .gt → compare a c ≠ .gt
  eq_iff : ∀ a b, P a → P b → (compare a b = .eq ↔ a = b)

variable {x y tmp : Slice}

theorem compare_lt_iff :
    dbComparator.compare x y = .lt ↔ extractUserKey x < extractUserKey y
      ∨ (extractUserKey x = extractUserKey y ∧ extractTag y < extractTag x) := by
  show Ordering.then _ _ = .lt ↔ _
  rw [Ordering.then_eq_lt, bytewise_lt, bytewise_eq, Nat.compare_eq_lt]

theorem littleEndian_inj (a : Slice) :
    ∀ b : Slice, a.length = b.length → littleEndian a = littleEndian b → a = b := by
  induction a with
  | nil =>
    intro b hlen _
    exact (List.length_eq_zero_iff.mp hlen.symm).symm
  | cons p a ih =>
    intro b hlen h
    cases b with
    | nil => cases hlen
    | cons q b =>
      have hp := p.toNat_lt
      have hq := q.toNat_lt
      rw [littleEndian, littleEndian] at h
      have hpq : p = q := UInt8.toNat_inj.mp (by omega)
      rw [hpq, ih b (Nat.succ.inj hlen) (by omega)]

/-- The user key and the tag are the whole key. -/
theorem eq_of_extract (hx : HasTag x) (hy : HasTag y)
    (huser : extractUserKey x = extractUserKey y) (htag : extractTag x = extractTag y) : x = y := by
  have hlast : ∀ z : Slice, HasTag z → (z.drop (z.length - 8)).length = 8 := by
    intro z hz
    have : 8 ≤ z.length := hz
    rw [List.length_drop]
    omega
  have hdrop : x.drop (x.length - 8) = y.drop (y.length - 8) := by
    refine littleEndian_inj _ _ ((hlast x hx).trans (hlast y hy).symm) ?_
    rw [extractTag, extractTag, decodeFixed64, decodeFixed64,
      List.take_of_length_le (hlast x hx).le, List.take_of_length_le (hlast y hy).le] at htag
    exact htag
  rw [← List.take_append_drop (x.length - 8) x, ← List.take_append_drop (y.length - 8) y, hdrop]
  exact congrArg (· ++ _) huser

/-- `InternalKeyComparator::Compare` is a total order. -/
theorem compare_totalOrderOn : TotalOrderOn HasTag dbComparator.compare where
  swap _ _ _ _ := Std.OrientedCmp.eq_swap
  trans a b c _ _ _ hab hbc := by
    have hle : ∀ o : Ordering, o ≠ .gt ↔ o.isLE = true := by decide
    rw [hle] at hab hbc ⊢
    exact Std.TransCmp.isLE_trans hab hbc
  eq_iff a b ha hb := by
    constructor
    · intro h
      obtain ⟨huser, htag⟩ := Ordering.then_eq_eq.mp h
      exact eq_of_extract ha hb ((bytewise_eq _ _).mp huser) (Nat.compare_eq_eq.mp htag).symm
    · intro h
      rw [h]
      exact Std.ReflCmp.compare_self

theorem extractUserKey_append (tmp : Slice) (tag : Nat) :
    extractUserKey (tmp ++ encodeFixed64 tag) = tmp := by
  rw [extractUserKey, List.length_append, encodeFixed64_length, Nat.add_sub_cancel, List.take_left]

/-- The shortened key keeps a tag, does not sort before the old one, and if it is not
    the old one its user key is the shortened one. -/
theorem shortened_spec (tmp : Slice) (hx : HasTag x) :
    HasTag (shortened bytewiseComparator x tmp)
      ∧ dbComparator.compare x (shortened bytewiseComparator x tmp) ≠ .gt
      ∧ (shortened bytewiseComparator x tmp = x
        ∨ extractUserKey (shortened bytewiseComparator x tmp) = tmp
          ∧ tmp.length < (extractUserKey x).length) := by
  rw [shortened]
  split_ifs with h
  · refine ⟨?_, ?_, Or.inr ⟨extractUserKey_append _ _, h.1⟩⟩
    · rw [HasTag, List.length_append, encodeFixed64_length]
      omega
    · have hlt : dbComparator.compare x (tmp ++ encodeFixed64
          (packSequenceAndType kMaxSequenceNumber kValueTypeForSeek)) = .lt := by
        rw [compare_lt_iff, extractUserKey_append]
        exact Or.inl ((bytewise_lt _ _).mp h.2)
      rw [hlt]
      exact nofun
  · refine ⟨hx, ?_, Or.inl rfl⟩
    rw [(compare_totalOrderOn.eq_iff x x hx hx).mpr rfl]
    exact nofun

/-- **Index keys stay between their neighbours**, and the comparator that orders them
    is a total order. -/
theorem index_keys_between :
    (∀ x y, HasTag x → HasTag y → dbComparator.compare x y = .lt →
        HasTag (dbComparator.findShortestSeparator x y)
        ∧ dbComparator.compare x (dbComparator.findShortestSeparator x y) ≠ .gt
        ∧ dbComparator.compare (dbComparator.findShortestSeparator x y) y = .lt)
      ∧ (∀ x, HasTag x →
        HasTag (dbComparator.findShortSuccessor x)
        ∧ dbComparator.compare x (dbComparator.findShortSuccessor x) ≠ .gt)
      ∧ TotalOrderOn HasTag dbComparator.compare := by
  refine ⟨fun x y hx hy hxy => ?_, fun x hx => ?_, compare_totalOrderOn⟩
  · obtain ⟨htag, hge, hor⟩ := shortened_spec
      (findShortestSeparator (extractUserKey x) (extractUserKey y)) hx
    refine ⟨htag, hge, ?_⟩
    show dbComparator.compare (shortened bytewiseComparator x
      (findShortestSeparator (extractUserKey x) (extractUserKey y))) y = .lt
    rcases hor with h | ⟨huser, hshort⟩
    · rw [h]
      exact hxy
    · rw [compare_lt_iff, huser]
      rcases compare_lt_iff.mp hxy with hlt | ⟨heq, -⟩
      · exact Or.inl (findShortestSeparator_lt _ _ hlt)
      · -- versions of one key: the user key is not shortened
        rw [← heq, findShortestSeparator_self] at hshort
        exact absurd hshort (lt_irrefl _)
  · obtain ⟨htag, hge, -⟩ := shortened_spec (findShortSuccessor (extractUserKey x)) hx
    exact ⟨htag, hge⟩

/-- Between `foo` and `hello` stands `g`, with the earliest tag. -/
example : dbComparator.findShortestSeparator (encodeKey ⟨[102, 111, 111], 100, .value⟩)
    (encodeKey ⟨[104, 101, 108, 108, 111], 200, .value⟩)
      = encodeKey ⟨[103], kMaxSequenceNumber, kValueTypeForSeek⟩ := by decide

/-! ## The filter policy -/

/-- `InternalFilterPolicy`: the filter of the user keys. -/
def internalFilterPolicy (user : FilterPolicy) : FilterPolicy where
  name := user.name
  createFilter keys := user.createFilter (keys.map extractUserKey)
  keyMayMatch key filter := user.keyMayMatch (extractUserKey key) filter

/-- A policy without false negatives. -/
def NoFalseNegatives (policy : FilterPolicy) : Prop :=
  ∀ keys, ∀ key ∈ keys, policy.keyMayMatch key (policy.createFilter keys) = true

/-- A key matches a filter that was made of a key with its user key. -/
theorem internalFilterPolicy_matches {user : FilterPolicy} (h : NoFalseNegatives user)
    {keys : List Slice} {key target : Slice} (hkey : key ∈ keys)
    (heq : extractUserKey target = extractUserKey key) :
    (internalFilterPolicy user).keyMayMatch target
      ((internalFilterPolicy user).createFilter keys) = true := by
  show user.keyMayMatch (extractUserKey target) (user.createFilter (keys.map extractUserKey)) = true
  rw [heq]
  exact h _ _ (List.mem_map_of_mem hkey)

end LdbInternalKey
