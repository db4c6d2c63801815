import LevelDB.FilterRoundTrip
import LevelDB.InternalKeyComparator
import LevelDB.TableKeys

/-! # The built-in Bloom filter

    `util/bloom.cc` over `Hash` of `util/hash.cc`, on 32-bit words.  Making a filter
    only ever sets bits, and the probes of a key are the same bits when the filter
    is made and when it is asked, so no key of a filter is turned away
    (`bloom_noFalseNegatives`); nor is any key of a table (`bloom_matches`). -/

namespace LdbBloom

open LdbFormat LdbCoding LdbFilterBlock LdbInternalKey LdbTableBuilder LdbTableLayout
  LdbFilterRoundTrip LdbTableKeys

/-! ## The hash -/

/-- The multiplier `m` of `Hash`. -/
def hashMultiplier : UInt32 := 0xc6a4a793

/-- The loop of `Hash` and the bytes that are left after it. -/
def hashFrom (h : UInt32) : Slice → UInt32
  | a :: b :: c :: d :: rest =>
    let h := (h + UInt32.ofNat (decodeFixed32 [a, b, c, d])) * hashMultiplier
    hashFrom (h ^^^ (h >>> 16)) rest
  | [a, b, c] => last (h + (c.toUInt32 <<< 16) + (b.toUInt32 <<< 8)) a
  | [a, b] => last (h + (b.toUInt32 <<< 8)) a
  | [a] => last h a
  | [] => h
where
  /-- `case 1`, which the cases above it fall through to. -/
  last (h : UInt32) (a : UInt8) : UInt32 :=
    let h := (h + a.toUInt32) * hashMultiplier
    h ^^^ (h >>> 24)

/-- `Hash`. -/
def hash (data : Slice) (seed : UInt32) : UInt32 :=
  hashFrom (seed ^^^ (UInt32.ofNat data.length * hashMultiplier)) data

/-- `BloomHash`. -/
def bloomHash (key : Slice) : UInt32 := hash key 0xbc9f1d34

/-! ## The policy -/

/-- The test of a bit in `KeyMayMatch`. -/
def bitSet (array : Slice) (bitpos : Nat) : Bool :=
  array.getD (bitpos / 8) 0 &&& (1 <<< UInt8.ofNat (bitpos % 8)) != 0

/-- The update of a byte in `CreateFilter`. -/
def setBit (array : Slice) (bitpos : Nat) : Slice :=
  array.modify (bitpos / 8) (· ||| (1 <<< UInt8.ofNat (bitpos % 8)))

/-- `delta`: the hash, rotated right by 17 bits. -/
def probeDelta (h : UInt32) : UInt32 := (h >>> 17) ||| (h <<< 15)

/-- The inner loop of `CreateFilter`. -/
def setProbes (bits : Nat) (delta : UInt32) : Nat → UInt32 → Slice → Slice
  | 0, _, array => array
  | k + 1, h, array => setProbes bits delta k (h + delta) (setBit array (h.toNat % bits))

/-- The loop of `KeyMayMatch`. -/
def testProbes (bits : Nat) (delta : UInt32) : Nat → UInt32 → Slice → Bool
  | 0, _, _ => true
  | k + 1, h, array =>
    if bitSet array (h.toNat % bits) then testProbes bits delta k (h + delta) array else false

/-- `k_`.  The product with the double 0.69 is cut to an integer, which below 44 bits is
    the quotient here, and from there on the bound 30 applies. -/
def probeCount (bitsPerKey : Nat) : Nat := min 30 (max 1 (bitsPerKey * 69 / 100))

/-- `bytes` of `CreateFilter`; the product of two `int`s does not overflow a `size_t`. -/
def filterSize (bitsPerKey n : Nat) : Nat := (max 64 (n * bitsPerKey) + 7) / 8

/-- A turn of the outer loop of `CreateFilter`. -/
def addKey (bits k : Nat) (array key : Slice) : Slice :=
  setProbes bits (probeDelta (bloomHash key)) k (bloomHash key) array

/-- `CreateFilter`. -/
def createFilter (bitsPerKey : Nat) (keys : List Slice) : Slice :=
  let bytes := filterSize bitsPerKey keys.length
  let k := probeCount bitsPerKey
  keys.foldl (addKey (bytes * 8) k) (List.replicate bytes 0) ++ [UInt8.ofNat k]

/-- `KeyMayMatch`. -/
def keyMayMatch (key filter : Slice) : Bool :=
  let len := filter.length
  if len < 2 then false
  else
    let bits := (len - 1) * 8
    let k := (filter.getD (len - 1) 0).toNat
    -- A byte over 127 is negative as a `char` and large as a `size_t`.
    if 30 < k then true
    else testProbes bits (probeDelta (bloomHash key)) k (bloomHash key) filter

/-- `BloomFilterPolicy`. -/
def bloomFilterPolicy (bitsPerKey : Nat) : FilterPolicy where
  name := "leveldb.BuiltinBloomFilter2".toUTF8.toList
  createFilter := createFilter bitsPerKey
  keyMayMatch := keyMayMatch

/-! ## Bits are only set -/

/-- The mask of a bit is not zero. -/
theorem mask_ne_zero (p : Nat) : (1 : UInt8) <<< UInt8.ofNat (p % 8) ≠ 0 := by
  have all : ∀ i : Fin 8, (1 : UInt8) <<< UInt8.ofNat i.val ≠ 0 := by decide
  exact all ⟨p % 8, Nat.mod_lt p (by decide)⟩

/-- The second array has the length of the first, and its bits. -/
structure Grows (a b : Slice) : Prop where
  length : b.length = a.length
  bits : ∀ p, bitSet a p = true → bitSet b p = true

/-- An array grows to itself. -/
theorem Grows.refl (a : Slice) : Grows a a := ⟨rfl, fun _ h => h⟩

/-- Growing goes on. -/
theorem Grows.trans {a b c : Slice} (hab : Grows a b) (hbc : Grows b c) : Grows a c :=
  ⟨hbc.length.trans hab.length, fun p h => hbc.bits p (hab.bits p h)⟩

/-- Setting a bit clears none. -/
theorem grows_setBit (a : Slice) (q : Nat) : Grows a (setBit a q) := by
  refine ⟨List.length_modify _ _ _, fun p h => ?_⟩
  rw [bitSet, bne_iff_ne, List.getD_eq_getElem?_getD] at h
  rw [bitSet, bne_iff_ne, List.getD_eq_getElem?_getD, setBit]
  by_cases hq : q / 8 = p / 8
  · rw [hq, List.getElem?_modify_eq]
    cases hget : a[p / 8]? with
    | none =>
      rw [hget] at h
      exact absurd UInt8.zero_and h
    | some x =>
      rw [hget] at h
      intro hzero
      have hor : (x ||| 1 <<< UInt8.ofNat (q % 8)) &&& 1 <<< UInt8.ofNat (p % 8) = 0 := hzero
      refine h ?_
      show x &&& 1 <<< UInt8.ofNat (p % 8) = 0
      rw [← UInt8.toBitVec_inj] at hor ⊢
      rw [UInt8.toBitVec_and, UInt8.toBitVec_or, BitVec.and_or_distrib_right] at hor
      exact (BitVec.or_eq_zero_iff.mp hor).1
  · rwa [List.getElem?_modify_ne _ _ hq]

/-- A bit inside the array is set by setting it. -/
theorem bitSet_setBit {a : Slice} {p : Nat} (h : p < a.length * 8) : bitSet (setBit a p) p = true := by
  have hin : p / 8 < a.length := by omega
  rw [bitSet, bne_iff_ne, List.getD_eq_getElem?_getD, setBit, List.getElem?_modify_eq,
    List.getElem?_eq_getElem hin]
  show (_ ||| 1 <<< UInt8.ofNat (p % 8)) &&& 1 <<< UInt8.ofNat (p % 8) ≠ 0
  intro hzero
  rw [← UInt8.toBitVec_inj, UInt8.toBitVec_and, UInt8.toBitVec_or, BitVec.and_or_distrib_right,
    BitVec.and_self] at hzero
  exact mask_ne_zero p (UInt8.toBitVec_inj.mp (BitVec.or_eq_zero_iff.mp hzero).2)

/-- The probes of a key clear no bit. -/
theorem grows_setProbes (bits : Nat) (delta : UInt32) (k : Nat) :
    ∀ h a, Grows a (setProbes bits delta k h a) := by
  induction k with
  | zero => exact fun _ a => Grows.refl a
  | succ k ih => exact fun h a => (grows_setBit a _).trans (ih (h + delta) _)

/-- Nor do the keys of a list. -/
theorem grows_foldl (bits k : Nat) (keys : List Slice) :
    ∀ a, Grows a (keys.foldl (addKey bits k) a) := by
  induction keys with
  | nil => exact Grows.refl
  | cons key rest ih => exact fun a => (grows_setProbes bits _ k _ a).trans (ih _)

/-- What an array matches, a grown one matches. -/
theorem Grows.testProbes {a b : Slice} (hg : Grows a b) (bits : Nat) (delta : UInt32) (k : Nat) :
    ∀ h, testProbes bits delta k h a = true → testProbes bits delta k h b = true := by
  induction k with
  | zero => exact fun _ _ => rfl
  | succ k ih =>
    intro h ht
    rw [LdbBloom.testProbes, ite_eq_iff] at ht
    obtain ⟨hbit, ht⟩ | ⟨-, ht⟩ := ht
    · rw [LdbBloom.testProbes, if_pos (hg.bits _ hbit)]
      exact ih _ ht
    · cases ht

/-- **The probes of a key are set by adding it.** -/
theorem testProbes_setProbes {bits : Nat} (hpos : 0 < bits) (delta : UInt32) (k : Nat) :
    ∀ h a, a.length * 8 = bits → testProbes bits delta k h (setProbes bits delta k h a) = true := by
  induction k with
  | zero => exact fun _ _ _ => rfl
  | succ k ih =>
    intro h a hlen
    have hset : bitSet (setBit a (h.toNat % bits)) (h.toNat % bits) = true := by
      refine bitSet_setBit ?_
      rw [hlen]
      exact Nat.mod_lt _ hpos
    rw [testProbes, setProbes, if_pos ((grows_setProbes bits delta k _ _).bits _ hset)]
    exact ih _ _ (by rw [(grows_setBit a _).length, hlen])

/-- The probes of every key of the list are set in the end. -/
theorem testProbes_foldl {bits : Nat} (hpos : 0 < bits) (k : Nat) {key : Slice} (keys : List Slice) :
    ∀ a, a.length * 8 = bits → key ∈ keys →
      testProbes bits (probeDelta (bloomHash key)) k (bloomHash key)
        (keys.foldl (addKey bits k) a) = true := by
  induction keys with
  | nil => exact fun _ _ hmem => nomatch hmem
  | cons first rest ih =>
    intro a hlen hmem
    rcases List.mem_cons.mp hmem with rfl | hrest
    · exact (grows_foldl bits k rest _).testProbes _ _ _ _ (testProbes_setProbes hpos _ k _ a hlen)
    · exact ih _ (by rw [addKey, (grows_setProbes _ _ _ _ a).length, hlen]) hrest

/-! ## No false negatives -/

/-- The byte with the number of probes does not lie among the bits. -/
theorem testProbes_append {bits : Nat} (hpos : 0 < bits) (delta : UInt32) {a : Slice}
    (hlen : a.length * 8 = bits) (tail : Slice) (k : Nat) :
    ∀ h, testProbes bits delta k h (a ++ tail) = testProbes bits delta k h a := by
  induction k with
  | zero => exact fun _ => rfl
  | succ k ih =>
    intro h
    have hin : h.toNat % bits / 8 < a.length := by
      have := Nat.mod_lt h.toNat hpos
      omega
    have hbit : bitSet (a ++ tail) (h.toNat % bits) = bitSet a (h.toNat % bits) := by
      rw [bitSet, bitSet, List.getD_append _ _ _ _ hin]
    rw [testProbes, testProbes, hbit, ih]

/-- **A key matches every filter it was put into.** -/
theorem bloom_noFalseNegatives (bitsPerKey : Nat) : NoFalseNegatives (bloomFilterPolicy bitsPerKey) := by
  intro keys key hmem
  show keyMayMatch key (createFilter bitsPerKey keys) = true
  have hk : probeCount bitsPerKey ≤ 30 := Nat.min_le_left _ _
  have hbytes : 8 ≤ filterSize bitsPerKey keys.length := by
    rw [filterSize]
    omega
  generalize hn : filterSize bitsPerKey keys.length = bytes at hbytes
  have hlen : (keys.foldl (addKey (bytes * 8) (probeCount bitsPerKey))
      (List.replicate bytes 0)).length = bytes := by
    rw [(grows_foldl _ _ _ _).length, List.length_replicate]
  rw [createFilter, hn]
  have htest := testProbes_foldl (by omega : 0 < bytes * 8) (probeCount bitsPerKey) keys
    (List.replicate bytes 0) (by rw [List.length_replicate]) hmem
  generalize keys.foldl (addKey (bytes * 8) (probeCount bitsPerKey))
    (List.replicate bytes 0) = array at hlen htest
  have hbyte : (UInt8.ofNat (probeCount bitsPerKey)).toNat = probeCount bitsPerKey := by
    rw [UInt8.toNat_ofNat', Nat.mod_eq_of_lt (by omega)]
  simp only [keyMayMatch, List.length_append, List.length_singleton, hlen, Nat.add_sub_cancel]
  rw [if_neg (by omega), List.getD_append_right _ _ _ _ (by omega), hlen, Nat.sub_self,
    List.getD_cons_zero, hbyte, if_neg (by omega),
    testProbes_append (by omega) _ (by rw [hlen])]
  exact htest

/-- **The filters of a table turn away no key of its data blocks.**  The table is built
    with a Bloom policy on the user keys; for every data block and every entry of it,
    the filter at the offset of the block matches every key with the entry's user
    key. -/
theorem bloom_matches (o : TableOptions) (bitsPerKey : Nat)
    (hpolicy : o.filterPolicy = some (internalFilterPolicy (bloomFilterPolicy bitsPerKey)))
    (calls : List (Slice × Slice)) :
    ∃ contents,
      filterContents o calls
          = some (internalFilterPolicy (bloomFilterPolicy bitsPerKey), contents)
        ∧ (contents.length < 2 ^ 32 →
            ∀ i g, (tableGroups o calls)[i]? = some g → ∀ e ∈ g,
              ∀ key, extractUserKey key = extractUserKey e.1 →
                (FilterBlockReader.new contents).keyMayMatch
                  (internalFilterPolicy (bloomFilterPolicy bitsPerKey))
                  (dataBytes o ((tableGroups o calls).take i)).length key = true) := by
  obtain ⟨contents, hcontents, hall⟩ := filterContents_matches hpolicy calls
  refine ⟨contents, hcontents, fun hsmall i g hg e he key heq => ?_⟩
  exact hall hsmall hg e he key fun ks hks =>
    internalFilterPolicy_matches (bloom_noFalseNegatives bitsPerKey) hks heq

/-- Options with a Bloom policy of ten bits a key, and blocks of two entries. -/
def sampleOptions : TableOptions :=
  { plainOptions 30 with filterPolicy := some (internalFilterPolicy (bloomFilterPolicy 10)) }

/-- Three keys, the second with two versions. -/
def sampleCalls : List (Slice × Slice) :=
  [(97 :: encodeFixed64 257, [118]), (98 :: encodeFixed64 1025, [119]),
    (98 :: encodeFixed64 513, []), (99 :: encodeFixed64 769, [120])]

/-- The filter of the second block is asked for a key at another sequence number. -/
theorem bloom_matches_sample :
    (tableGroups sampleOptions sampleCalls).map List.length = [2, 2]
      ∧ ∃ contents,
        filterContents sampleOptions sampleCalls
            = some (internalFilterPolicy (bloomFilterPolicy 10), contents)
          ∧ (FilterBlockReader.new contents).keyMayMatch
              (internalFilterPolicy (bloomFilterPolicy 10))
              (dataBytes sampleOptions ((tableGroups sampleOptions sampleCalls).take 1)).length
              (99 :: encodeFixed64 2049) = true := by
  refine ⟨by decide +kernel, ?_⟩
  obtain ⟨contents, hcontents, hall⟩ := bloom_matches sampleOptions 10 rfl sampleCalls
  have hlen : (filterContents sampleOptions sampleCalls).any
      (fun q => decide (q.2.length < 2 ^ 32)) = true := by
    decide +kernel
  rw [hcontents] at hlen
  have hgroup : (tableGroups sampleOptions sampleCalls)[1]? = some (sampleCalls.drop 2) := by
    decide +kernel
  exact ⟨contents, hcontents, hall (of_decide_eq_true hlen) 1 _ hgroup (99 :: encodeFixed64 769, [120])
    (by decide) _ rfl⟩

end LdbBloom
