import LevelDB.EditCodec
import LevelDB.TableRoundTrip

/-! # Tables of internal keys and tables of any keys

    The database stores internal keys in its tables: `Put` and `Delete` entries and
    range deletions.  Direct users of `TableBuilder` store any byte strings, and
    there the type byte of a range deletion is a byte like any other.

    The length of a value is a 32-bit number in a block, so an iterator never shows a
    longer one. -/

namespace LdbTableKeys

open LdbFormat LdbCoding LdbComparator LdbBlock LdbTableFormat LdbTableBuilder LdbTableReader
open LdbTableLayout LdbTableRoundTrip LdbTwoLevel LdbEditCodec Cursors

/-! ## Tables of internal keys -/

/-- The call of `Add` for an entry. -/
def wire (e : Entry) : Slice × Slice := (encodeKey e.key, e.value)

theorem encodeKey_drop (k : InternalKey) :
    (encodeKey k).drop ((encodeKey k).length - 8) = encodeFixed64 k.tag := by
  rw [encodeKey_length, Nat.add_sub_cancel, encodeKey, List.drop_left]

theorem encodeKey_take (k : InternalKey) :
    (encodeKey k).take ((encodeKey k).length - 8) = k.userKey := by
  rw [encodeKey_length, Nat.add_sub_cancel, encodeKey, List.take_left]

theorem decodeFixed64_tag {k : InternalKey} (h : k.sequence ≤ kMaxSequenceNumber) :
    decodeFixed64 (encodeFixed64 k.tag) = k.sequence * 2 ^ 8 + k.type.code := by
  have hseq : k.sequence ≤ 2 ^ 56 - 1 := h
  have hcode := k.type.code_lt
  rw [← List.append_nil (encodeFixed64 _)]
  refine decodeFixed64_encodeFixed64 _ ?_ []
  rw [InternalKey.tag, packSequenceAndType]
  omega

theorem isRangeDeletionKey_encodeKey {e : Entry} (h : e.key.sequence ≤ kMaxSequenceNumber) :
    isRangeDeletionKey (encodeKey e.key) = !e.isPoint := by
  have hcode := e.key.type.code_lt
  have hmod : (e.key.sequence * 2 ^ 8 + e.key.type.code) % 2 ^ 8 = e.key.type.code := by omega
  have hlen : 8 ≤ (encodeKey e.key).length := by
    rw [encodeKey_length]
    omega
  rw [isRangeDeletionKey, encodeKey_drop, decodeFixed64_tag h, hmod, Entry.isPoint]
  cases htype : e.key.type with
  | deletion => simp [ValueType.code]
  | value => simp [ValueType.code]
  | rangeDeletion => simp [hlen]

theorem rangeDeletionOf_encodeKey {e : Entry} (h : e.key.sequence ≤ kMaxSequenceNumber) :
    rangeDeletionOf (encodeKey e.key) e.value = some e.rangeDeletion := by
  have hcode := e.key.type.code_lt
  have hlen : ¬(encodeKey e.key).length < 8 := by
    rw [encodeKey_length]
    omega
  have hshift : (e.key.sequence * 2 ^ 8 + e.key.type.code) >>> 8 = e.key.sequence := by
    rw [Nat.shiftRight_eq_div_pow]
    omega
  rw [rangeDeletionOf, if_neg hlen, encodeKey_drop, encodeKey_take, decodeFixed64_tag h, hshift]
  rfl

theorem points_wire {calls : List Entry}
    (h : ∀ e ∈ calls, e.key.sequence ≤ kMaxSequenceNumber) :
    points (calls.map wire) = (calls.filter fun e => e.isPoint).map wire := by
  rw [points, List.filter_map]
  congr 1
  refine List.filter_congr fun e he => ?_
  show (!isRangeDeletionKey (encodeKey e.key)) = _
  rw [isRangeDeletionKey_encodeKey (h e he), Bool.not_not]

theorem tombstones_wire {calls : List Entry}
    (h : ∀ e ∈ calls, e.key.sequence ≤ kMaxSequenceNumber) :
    (tombstones (calls.map wire)).getD []
      = (calls.filter fun e => !e.isPoint).map Entry.rangeDeletion := by
  have hdels : rangeDels (calls.map wire) = (calls.filter fun e => !e.isPoint).map wire := by
    rw [rangeDels, List.filter_map]
    congr 1
    exact List.filter_congr fun e he => isRangeDeletionKey_encodeKey (h e he)
  have hmap : ((calls.filter fun e => !e.isPoint).map wire).filterMap
        (fun e => rangeDeletionOf e.1 e.2)
      = (calls.filter fun e => !e.isPoint).map Entry.rangeDeletion := by
    rw [List.filterMap_map, ← List.filterMap_eq_map]
    refine List.filterMap_congr fun e he => ?_
    exact rangeDeletionOf_encodeKey (h e (List.mem_filter.mp he).1)
  rw [tombstones, hdels, hmap]
  by_cases hnil : (calls.filter fun e => !e.isPoint).map wire = []
  · rw [if_pos hnil, List.map_eq_nil_iff.mp hnil]
    rfl
  · rw [if_neg hnil]
    rfl

/-- **A table of internal keys is read back**: the table opens, its iterator shows
    the `Put` and `Delete` entries in order, and its range deletions are those it was
    given, in order. -/
theorem table_of_internal_keys {o : TableOptions} {calls : List Entry}
    (hint : 1 ≤ o.blockRestartInterval) (hs : o.codecs.Sound o.compression)
    (hseq : ∀ e ∈ calls, e.key.sequence ≤ kMaxSequenceNumber)
    (hfits : Fits o (calls.map wire)) :
    (build o (calls.map wire)).status = .ok
      ∧ ∃ t, Table.openTable o (fileOf (build o (calls.map wire)).file.contents)
          (build o (calls.map wire)).file.contents.length = .ok t
        ∧ (∀ verify, Yields (TwoLevelIterator.ops (t.levels verify)) .ok
            ((TwoLevelIterator.ops (t.levels verify)).seekToFirst (t.newIterator verify))
            ((calls.filter fun e => e.isPoint).map wire))
        ∧ t.getRangeDeletions.getD []
          = (calls.filter fun e => !e.isPoint).map Entry.rangeDeletion := by
  obtain ⟨hstatus, hfile⟩ := build_file o (calls.map wire)
  obtain ⟨t, hopen, hyields, hdels⟩ := openTable_build hint hs hfits
  refine ⟨hstatus, t, ?_, ?_, ?_⟩
  · rw [hfile]
    exact hopen
  · rw [← points_wire hseq]
    exact hyields
  · rw [hdels]
    exact tombstones_wire hseq

/-- Options without compression and without a filter. -/
def plainOptions (blockSize : Nat) : TableOptions where
  comparator := bytewiseComparator
  blockSize := blockSize
  blockRestartInterval := 16
  compression := .noCompression
  filterPolicy := none
  paranoidChecks := true
  codecs := ⟨⟨fun _ => none, fun _ => none, fun _ => none⟩,
    ⟨fun _ => none, fun _ => none, fun _ => none⟩⟩

theorem plainOptions_sound (blockSize : Nat) :
    (plainOptions blockSize).codecs.Sound (plainOptions blockSize).compression :=
  nofun

/-- Two entries in blocks of their own, and a range deletion between them. -/
def sampleCalls : List Entry :=
  [⟨⟨[97], 3, .value⟩, [1]⟩, ⟨⟨[97], 2, .rangeDeletion⟩, [99]⟩, ⟨⟨[98], 1, .deletion⟩, []⟩]

theorem sampleCalls_fit : Fits (plainOptions 1) (sampleCalls.map wire) where
  data := by decide +kernel
  rangeDel := by decide +kernel
  metaindex := by decide +kernel
  index := by decide +kernel
  file := by decide +kernel

theorem table_of_internal_keys_sample :
    ∃ t, Table.openTable (plainOptions 1)
        (fileOf (build (plainOptions 1) (sampleCalls.map wire)).file.contents)
        (build (plainOptions 1) (sampleCalls.map wire)).file.contents.length = .ok t
      ∧ t.getRangeDeletions.getD [] = [⟨[97], [99], 2⟩] := by
  obtain ⟨-, t, hopen, -, hdels⟩ := table_of_internal_keys (by decide)
    (plainOptions_sound 1) (by decide) sampleCalls_fit
  exact ⟨t, hopen, hdels⟩

/-! ## Values of 4 GiB -/

theorem decodeEntry_value_lt {input : Slice} {shared nonShared valueLength : Nat} {rest : Slice}
    (h : decodeEntry input = some (shared, nonShared, valueLength, rest)) :
    valueLength < 2 ^ 32 :=
  (decodeHeader_bounds (decodeEntry_eq_some.mp h).1).2.2

/-- What a block iterator shows after it has parsed an entry. -/
theorem parseNextKey_value_lt {it : BlockIter} (h : it.valueSize < 2 ^ 32) :
    it.parseNextKey.2.valueSize < 2 ^ 32 := by
  rw [BlockIter.parseNextKey]
  by_cases hend : it.restarts ≤ it.nextEntryOffset
  · rw [if_pos hend]
    exact h
  · rw [if_neg hend]
    rcases hd : decodeEntry ((it.data.take it.restarts).drop it.nextEntryOffset)
      with _ | ⟨shared, nonShared, valueLength, rest⟩
    · exact Nat.two_pow_pos 32
    · simp only
      by_cases hkey : it.key.length < shared
      · rw [if_pos hkey]
        exact Nat.two_pow_pos 32
      · rw [if_neg hkey]
        exact decodeEntry_value_lt hd

theorem seekToFirst_value_lt (cmp : Comparator) (a : AnyIter) :
    ((iterOps cmp).value ((iterOps cmp).seekToFirst a)).length < 2 ^ 32 := by
  cases a with
  | empty s => exact Nat.two_pow_pos 32
  | block it =>
    have hsize : (it.seekToRestartPoint 0).parseNextKey.2.valueSize < 2 ^ 32 :=
      parseNextKey_value_lt (Nat.two_pow_pos 32)
    show (((it.seekToRestartPoint 0).parseNextKey.2.data.drop _).take _).length < 2 ^ 32
    rw [List.length_take]
    exact lt_of_le_of_lt (Nat.min_le_left _ _) hsize

/-- **The first value a table shows is shorter than 4 GiB.** -/
theorem first_value_lt (t : Table) (verify : Bool) :
    ((TwoLevelIterator.ops (t.levels verify)).value
      ((TwoLevelIterator.ops (t.levels verify)).seekToFirst (t.newIterator verify))).length
      < 2 ^ 32 := by
  show (((((t.newIterator verify).seekToFirst (t.levels verify)).data).map
    (iterOps t.options.comparator).value).getD []).length < 2 ^ 32
  cases hdata : ((t.newIterator verify).seekToFirst (t.levels verify)).data with
  | none => exact Nat.two_pow_pos 32
  | some d =>
    obtain ⟨a, rfl⟩ := TwoLevelIterator.seekToFirst_data _ d hdata
    exact seekToFirst_value_lt _ a

/-- A `Put` of a value of 4 GiB. -/
def largePut : Entry := ⟨⟨[97], 1, .value⟩, List.replicate (2 ^ 32) 0⟩

/-- A table with one `Put` of a value of 4 GiB does not show it. -/
theorem large_value_not_shown :
    (plainOptions 4096).codecs.Sound (plainOptions 4096).compression
      ∧ ∀ t, Table.openTable (plainOptions 4096)
          (fileOf (build (plainOptions 4096) [wire largePut]).file.contents)
          (build (plainOptions 4096) [wire largePut]).file.contents.length = .ok t →
        ¬Yields (TwoLevelIterator.ops (t.levels false)) .ok
          ((TwoLevelIterator.ops (t.levels false)).seekToFirst (t.newIterator false))
          [wire largePut] := by
  refine ⟨plainOptions_sound 4096, fun t _ hyields => ?_⟩
  have hvalue := congrArg Prod.snd hyields.2.1
  have hlt := first_value_lt t false
  simp only at hvalue
  rw [hvalue, wire, largePut, List.length_replicate] at hlt
  exact Nat.lt_irrefl _ hlt

/-! ## Tables of any keys -/

/-- The eighth byte from the end of a key is that of a range deletion. -/
def LooksLikeRangeDeletion (key : Slice) : Prop :=
  8 ≤ key.length ∧ key[key.length - 8]? = some 2

instance (key : Slice) : Decidable (LooksLikeRangeDeletion key) := instDecidableAnd

theorem littleEndian_mod (b : UInt8) (rest : Slice) :
    littleEndian (b :: rest) % 2 ^ 8 = b.toNat := by
  have hb := b.toNat_lt
  rw [littleEndian]
  omega

theorem isRangeDeletionKey_iff (key : Slice) :
    isRangeDeletionKey key = true ↔ LooksLikeRangeDeletion key := by
  rw [isRangeDeletionKey, decide_eq_true_iff, LooksLikeRangeDeletion]
  refine and_congr_right fun hlen => ?_
  have hi : key.length - 8 < key.length := by omega
  rw [List.getElem?_eq_getElem hi, decodeFixed64, List.drop_eq_getElem_cons hi,
    List.take_succ_cons, littleEndian_mod, Option.some.injEq]
  constructor
  · intro h
    exact UInt8.toNat_inj.mp h
  · intro h
    rw [h]
    rfl

theorem points_eq_iff (calls : List (Slice × Slice)) :
    points calls = calls ↔ ∀ e ∈ calls, ¬LooksLikeRangeDeletion e.1 := by
  rw [points, List.filter_eq_self]
  refine forall₂_congr fun e _ => ?_
  rw [← isRangeDeletionKey_iff, Bool.not_eq_true', Bool.not_eq_true]

/-- **A table of any keys shows exactly what it was given just when no key looks
    like that of a range deletion.** -/
theorem table_of_any_keys_iff {o : TableOptions} {calls : List (Slice × Slice)}
    (hint : 1 ≤ o.blockRestartInterval) (hs : o.codecs.Sound o.compression)
    (hfits : Fits o calls) :
    (∃ t, Table.openTable o (fileOf (build o calls).file.contents)
        (build o calls).file.contents.length = .ok t
      ∧ ∀ verify, Yields (TwoLevelIterator.ops (t.levels verify)) .ok
          ((TwoLevelIterator.ops (t.levels verify)).seekToFirst (t.newIterator verify)) calls)
      ↔ ∀ e ∈ calls, ¬LooksLikeRangeDeletion e.1 := by
  obtain ⟨t, hopen, hyields, -⟩ := openTable_build hint hs hfits
  rw [(build_file o calls).2, ← points_eq_iff]
  constructor
  · rintro ⟨t', hopen', hyields'⟩
    rw [hopen] at hopen'
    cases hopen'
    exact (hyields false).unique _ (hyields' false)
  · intro hpoints
    refine ⟨t, hopen, fun verify => ?_⟩
    have h := hyields verify
    rw [hpoints] at h
    exact h

/-- Two keys of eight bytes, in order. -/
def plainCalls : List (Slice × Slice) :=
  [([1, 0, 0, 0, 0, 0, 0, 0], [1]), ([3, 0, 0, 0, 0, 0, 0, 0], [3])]

theorem plainCalls_fit : Fits (plainOptions 4096) plainCalls where
  data := by decide +kernel
  rangeDel := by decide +kernel
  metaindex := by decide +kernel
  index := by decide +kernel
  file := by decide +kernel

theorem table_of_any_keys_plain :
    (∀ e ∈ plainCalls, ¬LooksLikeRangeDeletion e.1)
      ∧ ∃ t, Table.openTable (plainOptions 4096)
          (fileOf (build (plainOptions 4096) plainCalls).file.contents)
          (build (plainOptions 4096) plainCalls).file.contents.length = .ok t
        ∧ ∀ verify, Yields (TwoLevelIterator.ops (t.levels verify)) .ok
            ((TwoLevelIterator.ops (t.levels verify)).seekToFirst (t.newIterator verify))
            plainCalls :=
  ⟨by decide, (table_of_any_keys_iff (by decide) (plainOptions_sound 4096) plainCalls_fit).mpr
    (by decide)⟩

/-- One key of eight bytes, whose first byte is that of a range deletion. -/
def lostCalls : List (Slice × Slice) := [([2, 0, 0, 0, 0, 0, 0, 0], [7])]

theorem lostCalls_fit : Fits (plainOptions 4096) lostCalls where
  data := by decide +kernel
  rangeDel := by decide +kernel
  metaindex := by decide +kernel
  index := by decide +kernel
  file := by decide +kernel

/-- The table with this key opens and shows nothing. -/
theorem lost_key :
    ∃ t, Table.openTable (plainOptions 4096)
        (fileOf (build (plainOptions 4096) lostCalls).file.contents)
        (build (plainOptions 4096) lostCalls).file.contents.length = .ok t
      ∧ Yields (TwoLevelIterator.ops (t.levels true)) .ok
          ((TwoLevelIterator.ops (t.levels true)).seekToFirst (t.newIterator true)) []
      ∧ ¬Yields (TwoLevelIterator.ops (t.levels true)) .ok
          ((TwoLevelIterator.ops (t.levels true)).seekToFirst (t.newIterator true)) lostCalls := by
  obtain ⟨t, hopen, hyields, -⟩ :=
    openTable_build (by decide) (plainOptions_sound 4096) lostCalls_fit
  have hpoints : points lostCalls = [] := by decide
  have hnone := hyields true
  rw [hpoints] at hnone
  refine ⟨t, ?_, hnone, fun hall => ?_⟩
  · rw [(build_file (plainOptions 4096) lostCalls).2]
    exact hopen
  · cases hnone.unique _ hall

end LdbTableKeys
