import LevelDB.InternalKeyComparator
import LevelDB.Invariant
import LevelDB.SkipList

/-! # The memtable as it is stored

    `MemTable` (`db/memtable.cc`) over its skip list of encoded entries: a length,
    the internal key, a length, the value.  Both lengths are varint32s, so the
    lengths of `Add` are narrowed to 32 bits.

    Entries whose lengths fit are compared and decoded as the entries of
    `LdbTable.MemTable` (`Holds`), so a lookup finds what it finds there, whatever
    heights the nodes of the skip list have (`get_eq`). -/

namespace LdbMemTableBytes

open Versioned Tiered LdbFormat LdbCoding LdbComparator LdbEditCodec LdbInternalKey LdbTable
open LdbInv SkipLists

/-! ## Entries -/

/-- The entry `MemTable::Add` puts into the arena. -/
def encodeEntry (e : Entry) : Slice :=
  putLengthPrefixedSlice (encodeKey e.key) ++ putLengthPrefixedSlice e.value

/-- `LookupKey::memtable_key`. -/
def memtableKey (k : Slice) (readSeq : Nat) : Slice :=
  putLengthPrefixedSlice (encodeKey (lookupKey k readSeq))

/-- The slice that starts with its length, and what follows it. -/
def splitLengthPrefixed (data : Slice) : Slice × Slice :=
  match getVarint32 data with
  | some (len, p) => (p.take len, p.drop len)
  | none => ([], [])

/-- `MemTable::KeyComparator`: is the first entry's key smaller? -/
def keyLt (a b : Slice) : Bool :=
  dbComparator.compare (splitLengthPrefixed a).1 (splitLengthPrefixed b).1 == .lt

/-! ## The memtable -/

/-- `MemTable`: the skip list of encoded entries and the range deletions. -/
structure EncodedMemTable where
  table : SkipList Slice
  rangeDeletions : List RangeDeletion

/-- A fresh memtable. -/
def EncodedMemTable.empty : EncodedMemTable := ⟨SkipList.empty Slice, []⟩

/-- `MemTable::Add`; `top` is the highest level of the new node, which `RandomHeight`
    draws below `kMaxHeight`. -/
def EncodedMemTable.add (m : EncodedMemTable) (e : Entry) (top : Fin 12) : EncodedMemTable where
  table := m.table.insert keyLt ⟨encodeEntry e, top + 1⟩ (Nat.succ_pos _)
  rangeDeletions :=
    if e.key.type = .rangeDeletion then m.rangeDeletions ++ [e.rangeDeletion]
    else m.rangeDeletions

/-- The loop of `MemTable::Get` over the entries the iterator passes. -/
def EncodedMemTable.getLoop (dels : List RangeDeletion) (key : Slice) (readSeq : Nat) :
    List Slice → Lookup Slice
  | [] => coveredOrAbsent dels key readSeq
  | entry :: rest =>
    if bytewiseComparator.compare (extractUserKey (splitLengthPrefixed entry).1) key = .eq then
      if isDeleted dels key (extractTag (splitLengthPrefixed entry).1 / 256) readSeq then
        .deleted
      else if extractTag (splitLengthPrefixed entry).1 % 256 = ValueType.value.code then
        .found (splitLengthPrefixed (splitLengthPrefixed entry).2).1
      else if extractTag (splitLengthPrefixed entry).1 % 256 = ValueType.deletion.code then
        .deleted
      -- a tombstone marker; `Add` stores no other type
      else EncodedMemTable.getLoop dels key readSeq rest
    else coveredOrAbsent dels key readSeq

/-- `MemTable::Get`. -/
def EncodedMemTable.get (m : EncodedMemTable) (key : Slice) (readSeq : Nat) : Lookup Slice :=
  EncodedMemTable.getLoop m.rangeDeletions key readSeq
    ((m.table.seek keyLt (memtableKey key readSeq)).map (·.key))

/-! ## Entries that fit -/

/-- The lengths of the entry fit the widths of the format. -/
structure Sized (e : Entry) : Prop where
  key : e.key.userKey.length + 8 < 2 ^ 32
  value : e.value.length < 2 ^ 32
  sequence : e.key.sequence ≤ kMaxSequenceNumber

variable {value : Slice}

theorem splitLengthPrefixed_put (h : value.length < 2 ^ 32) (rest : Slice) :
    splitLengthPrefixed (putLengthPrefixedSlice value ++ rest) = (value, rest) := by
  have hread : getVarint32 (putLengthPrefixedSlice value ++ rest)
      = some (value.length, value ++ rest) := by
    rw [putLengthPrefixedSlice, Nat.mod_eq_of_lt h, List.append_assoc,
      getVarint32_putVarint32 _ h]
  rw [splitLengthPrefixed, hread]
  simp only [List.take_left, List.drop_left]

variable {e : Entry}

theorem splitLengthPrefixed_entry (h : Sized e) :
    splitLengthPrefixed (encodeEntry e)
      = (encodeKey e.key, putLengthPrefixedSlice e.value) := by
  refine splitLengthPrefixed_put ?_ _
  rw [encodeKey_length]
  exact h.key

theorem splitLengthPrefixed_value (h : Sized e) :
    (splitLengthPrefixed (splitLengthPrefixed (encodeEntry e)).2).1 = e.value := by
  rw [splitLengthPrefixed_entry h]
  show (splitLengthPrefixed (putLengthPrefixedSlice e.value)).1 = _
  rw [← List.append_nil (putLengthPrefixedSlice e.value), splitLengthPrefixed_put h.value]

theorem splitLengthPrefixed_memtableKey {k : Slice} (h : k.length + 8 < 2 ^ 32) (r : Nat) :
    (splitLengthPrefixed (memtableKey k r)).1 = encodeKey (lookupKey k r) := by
  have hlen : (encodeKey (lookupKey k r)).length < 2 ^ 32 := by
    rw [encodeKey_length]
    exact h
  rw [memtableKey, ← List.append_nil (putLengthPrefixedSlice _), splitLengthPrefixed_put hlen]

theorem keyLt_trans (a b c : Slice) (hab : keyLt a b = true) (hbc : keyLt b c = true) :
    keyLt a c = true := by
  rw [keyLt, beq_iff_eq] at hab hbc ⊢
  exact Std.TransCmp.lt_trans hab hbc

/-- Encoded keys compare as the keys do. -/
theorem keyLt_eq {x y : Slice} {a b : InternalKey} (hx : (splitLengthPrefixed x).1 = encodeKey a)
    (hy : (splitLengthPrefixed y).1 = encodeKey b) (ha : a.sequence ≤ kMaxSequenceNumber)
    (hb : b.sequence ≤ kMaxSequenceNumber) : keyLt x y = decide (a < b) := by
  rw [keyLt, hx, hy, Bool.eq_iff_iff, beq_iff_eq, decide_eq_true_eq, compare_encodeKey_lt ha hb]

/-- The type and the sequence in the tag of an entry. -/
theorem tag_entry (h : Sized e) :
    extractTag (splitLengthPrefixed (encodeEntry e)).1 / 256 = e.key.sequence
      ∧ extractTag (splitLengthPrefixed (encodeEntry e)).1 % 256 = e.key.type.code := by
  rw [splitLengthPrefixed_entry h]
  exact extractTag_parts h.sequence

/-! ## The entries behind the bytes -/

theorem takeWhile_congr {α : Type} {p q : α → Bool} {l : List α} (h : ∀ x ∈ l, p x = q x) :
    l.takeWhile p = l.takeWhile q := by
  induction l with
  | nil => rfl
  | cons x l ih =>
    rw [List.takeWhile_cons, List.takeWhile_cons, h x List.mem_cons_self,
      ih fun y hy => h y (List.mem_cons_of_mem _ hy)]

theorem dropWhile_congr {α : Type} {p q : α → Bool} {l : List α} (h : ∀ x ∈ l, p x = q x) :
    l.dropWhile p = l.dropWhile q := by
  induction l with
  | nil => rfl
  | cons x l ih =>
    rw [List.dropWhile_cons, List.dropWhile_cons, h x List.mem_cons_self,
      ih fun y hy => h y (List.mem_cons_of_mem _ hy)]

/-- **The skip list holds the entries of `m`**, encoded and in their order. -/
structure Holds (b : EncodedMemTable) (m : MemTable) : Prop where
  entries : b.table.nodes.map (·.key) = m.table.map encodeEntry
  dels : b.rangeDeletions = m.rangeDeletions
  sized : ∀ e ∈ m.table, Sized e
  sorted : Sorted m.table

theorem holds_empty : Holds EncodedMemTable.empty MemTable.empty where
  entries := rfl
  dels := rfl
  sized _ he := nomatch he
  sorted := List.Pairwise.nil

variable {b : EncodedMemTable} {m : MemTable}

theorem Holds.sorted_nodes (h : Holds b m) :
    b.table.nodes.Pairwise fun x y => keyLt x.key y.key = true := by
  have hkeys : (b.table.nodes.map (·.key)).Pairwise fun x y => keyLt x y = true := by
    rw [h.entries, List.pairwise_map]
    refine h.sorted.imp_of_mem fun {x y} hx hy hlt => ?_
    have hxs := h.sized x hx
    have hys := h.sized y hy
    rw [keyLt_eq (by rw [splitLengthPrefixed_entry hxs]) (by rw [splitLengthPrefixed_entry hys])
      hxs.sequence hys.sequence]
    exact decide_eq_true hlt
  exact List.pairwise_map.mp hkeys

/-- The place of a key among the nodes is its place among the entries. -/
theorem Holds.place (h : Holds b m) {y : Slice} {k : InternalKey}
    (hy : (splitLengthPrefixed y).1 = encodeKey k) (hk : k.sequence ≤ kMaxSequenceNumber) :
    (b.table.nodes.takeWhile fun n => keyLt n.key y).map (·.key)
        = (m.table.takeWhile fun e => decide (e.key < k)).map encodeEntry
      ∧ (b.table.nodes.dropWhile fun n => keyLt n.key y).map (·.key)
        = (m.table.dropWhile fun e => decide (e.key < k)).map encodeEntry := by
  have hsame : ∀ e ∈ m.table, keyLt (encodeEntry e) y = decide (e.key < k) := fun e he =>
    keyLt_eq (by rw [splitLengthPrefixed_entry (h.sized e he)]) hy (h.sized e he).sequence hk
  have htake : (b.table.nodes.map (·.key)).takeWhile (keyLt · y) = _ := List.takeWhile_map
  have hdrop : (b.table.nodes.map (·.key)).dropWhile (keyLt · y) = _ := List.dropWhile_map
  rw [h.entries, List.takeWhile_map] at htake
  rw [h.entries, List.dropWhile_map] at hdrop
  constructor
  · refine htake.symm.trans (congrArg _ ?_)
    exact takeWhile_congr hsame
  · refine hdrop.symm.trans (congrArg _ ?_)
    exact dropWhile_congr hsame

/-- **`Add` on bytes is `Add` on entries**, for a new key and whatever the height. -/
theorem Holds.add (h : Holds b m) (he : Sized e)
    (hne : ∀ x ∈ m.table, x.key ≠ e.key) (top : Fin 12) : Holds (b.add e top) (m.add e) where
  entries := by
    obtain ⟨htake, hdrop⟩ := h.place (y := encodeEntry e) (k := e.key)
      (by rw [splitLengthPrefixed_entry he]) he.sequence
    have hpred : (fun x : Entry => decide (x.key < e.key))
        = fun x : Entry => decide (¬ e.key ≤ x.key) := by
      funext x
      exact decide_eq_decide.mpr not_le.symm
    rw [MemTable.add_table]
    show (b.table.insert keyLt ⟨encodeEntry e, top + 1⟩ (Nat.succ_pos _)).nodes.map _ = _
    rw [SkipList.insert_nodes keyLt_trans _ _ _ h.sorted_nodes, List.orderedInsert_eq_take_drop,
      List.map_append, List.map_append, List.map_cons, List.map_cons, htake, hdrop, hpred]
  dels := by
    show (if _ then b.rangeDeletions ++ _ else b.rangeDeletions) = _
    rw [h.dels]
    rfl
  sized x hx := by
    rcases mem_add_table.mp hx with rfl | hx
    · exact he
    · exact h.sized x hx
  sorted := by
    rw [MemTable.add_table]
    exact OrderedLists.orderedInsert_lt h.sorted hne

/-- The loop on bytes is the loop on entries. -/
theorem getLoop_entries (dels : List RangeDeletion) (k : Slice) (r : Nat) (es : List Entry)
    (h : ∀ e ∈ es, Sized e) :
    EncodedMemTable.getLoop dels k r (es.map encodeEntry) = MemTable.getLoop dels k r es := by
  induction es with
  | nil => rfl
  | cons e es ih =>
    have he := h e List.mem_cons_self
    obtain ⟨hseq, htype⟩ := tag_entry he
    rw [List.map_cons, EncodedMemTable.getLoop, MemTable.getLoop, hseq, htype,
      splitLengthPrefixed_value he, ih fun x hx => h x (List.mem_cons_of_mem _ hx)]
    have huser : extractUserKey (splitLengthPrefixed (encodeEntry e)).1 = e.key.userKey := by
      rw [splitLengthPrefixed_entry he, extractUserKey_encodeKey]
    simp only [huser, bytewise_eq, userCompare_eq]
    cases e.key.type with
    | value => rfl
    | deletion => rfl
    | rangeDeletion => rfl

/-- **`Get` on bytes is `Get` on entries.** -/
theorem Holds.get_eq (h : Holds b m) {k : Slice} (hk : k.length + 8 < 2 ^ 32) {r : Nat}
    (hr : r ≤ kMaxSequenceNumber) : b.get k r = m.get k r := by
  obtain ⟨-, hdrop⟩ := h.place (splitLengthPrefixed_memtableKey hk r) hr
  rw [EncodedMemTable.get, MemTable.get, SkipList.seek_eq keyLt_trans _ h.sorted_nodes, hdrop,
    h.dels, seekEntries_eq]
  refine getLoop_entries _ _ _ _ fun e he => ?_
  exact h.sized e ((List.dropWhile_suffix _).subset he)

/-! ## Lookups -/

/-- The memtable after the calls of `Add`, each with the level its node is drawn. -/
def added (adds : List (Entry × Fin 12)) : EncodedMemTable :=
  adds.foldl (fun b a => b.add a.1 a.2) EncodedMemTable.empty

/-- What the entries of `es`, added in any order, leave in a memtable. -/
structure Added (es : List Entry) (m : MemTable) : Prop where
  mem : ∀ e, e ∈ m.table ↔ e ∈ es
  dels : ∀ d, d ∈ m.rangeDeletions ↔ ∃ e ∈ es, e.key.type = .rangeDeletion ∧ d = e.rangeDeletion

theorem Added.add {es : List Entry} (h : Added es m) (e : Entry) : Added (es ++ [e]) (m.add e) where
  mem x := by
    rw [mem_add_table, h.mem, List.mem_append, List.mem_singleton]
    exact or_comm
  dels d := by
    have hnew : d ∈ (m.add e).rangeDeletions ↔
        d ∈ m.rangeDeletions ∨ e.key.type = .rangeDeletion ∧ d = e.rangeDeletion := by
      by_cases ht : e.key.type = .rangeDeletion
      · simp [MemTable.add, ht]
      · simp [MemTable.add, ht]
    rw [hnew, h.dels]
    simp only [List.mem_append, List.mem_singleton]
    constructor
    · rintro (⟨x, hx, hxt⟩ | hxt)
      · exact ⟨x, Or.inl hx, hxt⟩
      · exact ⟨e, Or.inr rfl, hxt⟩
    · rintro ⟨x, hx | rfl, hxt⟩
      · exact Or.inl ⟨x, hx, hxt⟩
      · exact Or.inr hxt

/-- Distinct entries that fit are all held, and nothing else. -/
theorem holds_added (adds : List (Entry × Fin 12))
    (hdistinct : (adds.map (·.1.key.sequence)).Nodup) (hsized : ∀ a ∈ adds, Sized a.1) :
    ∃ m, Holds (added adds) m ∧ Added (adds.map (·.1)) m := by
  induction adds using List.reverseRecOn with
  | nil =>
    refine ⟨MemTable.empty, holds_empty, fun e => Iff.rfl, fun d => ?_⟩
    simp [MemTable.empty]
  | append_singleton adds a ih =>
    rw [List.map_append, List.nodup_append] at hdistinct
    obtain ⟨m, hm, hadded⟩ := ih hdistinct.1 fun x hx => hsized x (List.mem_append_left _ hx)
    refine ⟨m.add a.1, ?_, ?_⟩
    · rw [added, List.foldl_append]
      refine hm.add (hsized a (by simp)) (fun x hx heq => ?_) a.2
      obtain ⟨y, hy, rfl⟩ := List.mem_map.mp ((hadded.mem x).mp hx)
      exact hdistinct.2.2 _ (List.mem_map_of_mem hy) a.1.key.sequence List.mem_cons_self
        (congrArg InternalKey.sequence heq)
    · rw [List.map_append]
      exact hadded.add a.1

section Spec

variable {es : List Entry} {k : Slice} {r : Nat}

theorem Added.hidden_iff (h : Added es m) {q : Nat} :
    Hidden (tombs m.rangeDeletions) k q r ↔ CoveredAbove es k q r := by
  rw [← isDeleted_iff_hidden, isDeleted_iff]
  constructor
  · rintro ⟨d, hd, hc, hlt, hle⟩
    obtain ⟨t, ht, htype, rfl⟩ := (h.dels d).mp hd
    obtain ⟨hstart, hend⟩ := RangeDeletion.covers_iff.mp hc
    exact ⟨t, ht, htype, hstart, hend, hlt, hle⟩
  · rintro ⟨t, ht, htype, hstart, hend, hlt, hle⟩
    exact ⟨t.rangeDeletion, (h.dels _).mpr ⟨t, ht, htype, rfl⟩,
      RangeDeletion.covers_iff.mpr ⟨hstart, hend⟩, hlt, hle⟩

theorem Added.newest_iff (h : Added es m) {v : Ver Slice Slice} :
    Newest (versions m.table) k r v ↔ ∃ p, NewestPoint es k r p ∧ p.ver = v := by
  constructor
  · rintro ⟨⟨⟨p, hp, hpoint, rfl⟩, hk, hle⟩, hmax⟩
    refine ⟨p, ⟨(h.mem p).mp hp, hpoint, hk, hle, fun q hq hqp hqk hqr => ?_⟩, rfl⟩
    exact hmax q.ver ⟨q, (h.mem q).mpr hq, hqp, rfl⟩ hqk hqr
  · rintro ⟨p, hp, rfl⟩
    refine ⟨⟨⟨p, (h.mem p).mpr hp.mem, hp.point, rfl⟩, hp.key, hp.readable⟩, ?_⟩
    rintro _ ⟨q, hq, hqp, rfl⟩ hqk hqr
    exact hp.newest q ((h.mem q).mp hq) hqp hqk hqr

theorem Added.has_iff (h : Added es m) :
    (sourceOf m.table m.rangeDeletions).Has k r ↔ ∃ p, NewestPoint es k r p := by
  constructor
  · rintro ⟨v, hv, hk, hr⟩
    obtain ⟨x, hx, -⟩ := exists_newest hv hk hr
    obtain ⟨p, hp, -⟩ := h.newest_iff.mp hx
    exact ⟨p, hp⟩
  · rintro ⟨p, hp⟩
    exact ⟨p.ver, ⟨p, (h.mem p).mpr hp.mem, hp.point, rfl⟩, hp.key, hp.readable⟩

theorem newestPoint_unique (hdistinct : (es.map (·.key.sequence)).Nodup) {p q : Entry}
    (hp : NewestPoint es k r p) (hq : NewestPoint es k r q) : p = q := by
  refine List.inj_on_of_nodup_map hdistinct hp.mem hq.mem (le_antisymm ?_ ?_)
  · exact hq.newest p hp.mem hp.point hp.key hp.readable
  · exact hp.newest q hq.mem hq.point hq.key hq.readable

/-- The answer for a key with a newest entry. -/
theorem Added.get_point (h : Added es m) (hs : Sorted m.table)
    (hdistinct : (es.map (·.key.sequence)).Nodup) {p : Entry} (hp : NewestPoint es k r p) :
    (CoveredAbove es k p.key.sequence r → m.get k r = .deleted)
      ∧ (¬ CoveredAbove es k p.key.sequence r →
          m.get k r = if p.key.type = .value then .found p.value else .deleted) := by
  have hans := memTableGet_answers hs k r
  have hhas : (sourceOf m.table m.rangeDeletions).Has k r := h.has_iff.mpr ⟨p, hp⟩
  have hval : p.ver.val = if p.key.type = .value then some p.value else none := by
    rw [Entry.ver]
    cases p.key.type with
    | value => rfl
    | deletion => rfl
    | rangeDeletion => rfl
  -- the version that answers is the one of `p`
  have hsame : ∀ v, Newest (versions m.table) k r v → v = p.ver := by
    intro v hv
    obtain ⟨q, hq, rfl⟩ := h.newest_iff.mp hv
    rw [newestPoint_unique hdistinct hq hp]
  generalize m.get k r = res at hans ⊢
  cases hans with
  | found hnew hv hclear =>
    obtain rfl := hsame _ hnew
    rw [hval] at hv
    refine ⟨fun hcov => absurd (h.hidden_iff.mpr hcov) hclear, fun _ => ?_⟩
    split_ifs at hv ⊢ with ht
    rw [Option.some.inj hv]
  | dead hnew hdead =>
    obtain rfl := hsame _ hnew
    refine ⟨fun _ => rfl, fun hcov => ?_⟩
    rcases hdead with hnone | hhid
    · rw [hval] at hnone
      split_ifs at hnone ⊢ with ht
      rfl
    · exact absurd (h.hidden_iff.mp hhid) hcov
  | covered hno => exact absurd hhas hno
  | absent hno => exact absurd hhas hno

/-- The answer for a key without an entry. -/
theorem Added.get_none (h : Added es m) (hs : Sorted m.table)
    (hno : ¬ ∃ p, NewestPoint es k r p) :
    (CoveredAbove es k 0 r → m.get k r = .deleted)
      ∧ (¬ CoveredAbove es k 0 r → m.get k r = .absent) := by
  have hans := memTableGet_answers hs k r
  have hnone : ∀ v, ¬ Newest (versions m.table) k r v := by
    intro v hv
    obtain ⟨p, hp, -⟩ := h.newest_iff.mp hv
    exact hno ⟨p, hp⟩
  generalize m.get k r = res at hans ⊢
  cases hans with
  | found hnew | dead hnew => exact absurd hnew (hnone _)
  | covered _ hhid => exact ⟨fun _ => rfl, absurd (h.hidden_iff.mp hhid)⟩
  | absent _ hclear => exact ⟨fun hcov => absurd (h.hidden_iff.mpr hcov) hclear, fun _ => rfl⟩

end Spec

/-- **Memtable lookup is exact.**  The memtable is the one on bytes, after any calls of
    `Add` with distinct sequences and sizes that fit, whatever heights were drawn. -/
theorem get_exact (adds : List (Entry × Fin 12))
    (hdistinct : (adds.map (·.1.key.sequence)).Nodup) (hsized : ∀ a ∈ adds, Sized a.1)
    (k : Slice) (hk : k.length + 8 < 2 ^ 32) (r : Nat) (hr : r ≤ kMaxSequenceNumber) :
    (∀ p, NewestPoint (adds.map (·.1)) k r p →
      (CoveredAbove (adds.map (·.1)) k p.key.sequence r → (added adds).get k r = .deleted)
        ∧ (¬ CoveredAbove (adds.map (·.1)) k p.key.sequence r →
            (added adds).get k r = if p.key.type = .value then .found p.value else .deleted))
    ∧ ((¬ ∃ p, NewestPoint (adds.map (·.1)) k r p) → CoveredAbove (adds.map (·.1)) k 0 r →
        (added adds).get k r = .deleted)
    ∧ ((added adds).get k r = .absent ↔
        (¬ ∃ p, NewestPoint (adds.map (·.1)) k r p) ∧ ¬ CoveredAbove (adds.map (·.1)) k 0 r) := by
  obtain ⟨m, hm, hadded⟩ := holds_added adds hdistinct hsized
  have hdist : ((adds.map (·.1)).map (·.key.sequence)).Nodup := by
    rw [List.map_map]
    exact hdistinct
  rw [hm.get_eq hk hr]
  refine ⟨fun p hp => hadded.get_point hm.sorted hdist hp,
    fun hno hcov => (hadded.get_none hm.sorted hno).1 hcov, fun habs => ?_, fun hno => ?_⟩
  · have hno : ¬ ∃ p, NewestPoint (adds.map (·.1)) k r p := by
      rintro ⟨p, hp⟩
      obtain ⟨hdel, hval⟩ := hadded.get_point hm.sorted hdist hp
      by_cases hcov : CoveredAbove (adds.map (·.1)) k p.key.sequence r
      · rw [hdel hcov] at habs
        cases habs
      · rw [hval hcov] at habs
        split_ifs at habs
    refine ⟨hno, fun hcov => ?_⟩
    rw [(hadded.get_none hm.sorted hno).1 hcov] at habs
    cases habs
  · exact (hadded.get_none hm.sorted hno.1).2 hno.2

/-- A Put, a tombstone that starts at its key, and a newer Put. -/
def sampleAdds : List (Entry × Fin 12) :=
  [(⟨⟨[97], 1, .value⟩, [7]⟩, 0), (⟨⟨[97], 2, .rangeDeletion⟩, [99]⟩, 3),
    (⟨⟨[97], 3, .value⟩, [8]⟩, 1)]

theorem sampleAdds_sized : ∀ a ∈ sampleAdds, Sized a.1 := by
  have hall : ∀ a ∈ sampleAdds, a.1.key.userKey.length + 8 < 2 ^ 32 ∧ a.1.value.length < 2 ^ 32
      ∧ a.1.key.sequence ≤ kMaxSequenceNumber := by decide
  exact fun a ha => ⟨(hall a ha).1, (hall a ha).2.1, (hall a ha).2.2⟩

theorem get_exact_sample :
    (added sampleAdds).get [97] 3 = .found [8] ∧ (added sampleAdds).get [97] 2 = .deleted := by
  constructor
  · refine ((get_exact sampleAdds (by decide) sampleAdds_sized [97] (by decide) 3
      (by decide)).1 ⟨⟨[97], 3, .value⟩, [8]⟩ ⟨by decide, rfl, rfl, by decide, by decide⟩).2 ?_
    rw [CoveredAbove]
    decide
  · refine ((get_exact sampleAdds (by decide) sampleAdds_sized [97] (by decide) 2
      (by decide)).1 ⟨⟨[97], 1, .value⟩, [7]⟩ ⟨by decide, rfl, rfl, by decide, by decide⟩).1 ?_
    rw [CoveredAbove]
    decide

/-! ## Lengths that do not fit -/

/-- The lookup in a memtable of one entry starts at it or behind it. -/
theorem get_only (e : Entry) (k : Slice) (r : Nat) :
    (added [(e, 0)]).get k r = EncodedMemTable.getLoop (added [(e, 0)]).rangeDeletions k r
      (if keyLt (encodeEntry e) (memtableKey k r) = true then [] else [encodeEntry e]) := by
  have hnodes : (added [(e, 0)]).table.nodes = [⟨encodeEntry e, 1⟩] :=
    SkipList.insert_nodes keyLt_trans _ (Nat.succ_pos _) (SkipList.empty Slice) List.Pairwise.nil
  have hsorted : (added [(e, 0)]).table.nodes.Pairwise fun x y => keyLt x.key y.key = true := by
    rw [hnodes]
    exact List.pairwise_singleton _ _
  rw [EncodedMemTable.get, SkipList.seek_eq keyLt_trans _ hsorted, hnodes, List.dropWhile_cons]
  split_ifs with hlt
  · rfl
  · rfl

/-- A value of 2^32 bytes is stored with length 0. -/
theorem splitLengthPrefixed_long (h : value.length = 2 ^ 32) :
    (splitLengthPrefixed (putLengthPrefixedSlice value)).1 = [] := by
  rw [splitLengthPrefixed, putLengthPrefixedSlice, h, Nat.mod_self,
    getVarint32_putVarint32 0 (by decide)]
  rfl

/-- A Put of a value of 2^32 bytes reads as an empty value. -/
theorem get_long_value (h : value.length = 2 ^ 32) :
    (added [(⟨⟨[97], 1, .value⟩, value⟩, 0)]).get [97] 1 = .found [] := by
  have hsplit : splitLengthPrefixed (encodeEntry ⟨⟨[97], 1, .value⟩, value⟩)
      = (encodeKey ⟨[97], 1, .value⟩, putLengthPrefixedSlice value) := by
    refine splitLengthPrefixed_put ?_ _
    rw [encodeKey_length]
    exact (by decide : 1 + 8 < 2 ^ 32)
  have hlt : ¬ keyLt (encodeEntry ⟨⟨[97], 1, .value⟩, value⟩) (memtableKey [97] 1) = true := by
    rw [keyLt_eq (by rw [hsplit]) (splitLengthPrefixed_memtableKey (by decide) 1) (by decide)
      (by decide)]
    decide
  have hdels : (added [(⟨⟨[97], 1, .value⟩, value⟩, 0)]).rangeDeletions = [] := rfl
  have huser : bytewiseComparator.compare (extractUserKey (encodeKey ⟨[97], 1, .value⟩)) [97]
      = .eq := by decide
  have hclear : ¬ isDeleted [] [97] (extractTag (encodeKey ⟨[97], 1, .value⟩) / 256) 1 = true := by
    decide
  have htype : extractTag (encodeKey ⟨[97], 1, .value⟩) % 256 = ValueType.value.code := by decide
  rw [get_only, if_neg hlt, EncodedMemTable.getLoop, hsplit, splitLengthPrefixed_long h, hdels,
    if_pos huser, if_neg hclear, if_pos htype]

/-- A key of 2^32 bytes is stored with the length of its tag. -/
theorem extractUserKey_long {key : InternalKey} (h : key.userKey.length = 2 ^ 32) (rest : Slice) :
    extractUserKey (splitLengthPrefixed (putLengthPrefixedSlice (encodeKey key) ++ rest)).1
      = [] := by
  have hlen : (encodeKey key).length = 2 ^ 32 + 8 := by
    rw [encodeKey_length, h]
  rw [splitLengthPrefixed, putLengthPrefixedSlice, List.append_assoc, hlen,
    show (2 ^ 32 + 8) % 2 ^ 32 = 8 from rfl, getVarint32_putVarint32 8 (by decide)]
  show ((encodeKey key ++ rest).take 8).take (((encodeKey key ++ rest).take 8).length - 8) = []
  have htake : ((encodeKey key ++ rest).take 8).length ≤ 8 := List.length_take_le _ _
  rw [Nat.sub_eq_zero_of_le htake, List.take_zero]

/-- A Put under a key of 2^32 bytes is not found. -/
theorem get_long_key {k : Slice} (h : k.length = 2 ^ 32) (value : Slice) :
    (added [(⟨⟨k, 1, .value⟩, value⟩, 0)]).get k 1 = .absent := by
  have hentry : extractUserKey (splitLengthPrefixed (encodeEntry ⟨⟨k, 1, .value⟩, value⟩)).1 = [] :=
    extractUserKey_long h _
  have hne : ¬ bytewiseComparator.compare [] k = .eq := by
    rw [bytewise_eq]
    rintro rfl
    rw [List.length_nil] at h
    omega
  rw [get_only]
  split_ifs with hlt
  · rfl
  · rw [EncodedMemTable.getLoop, hentry, if_neg hne]
    rfl

theorem newestPoint_only {r : Nat} (hp : e.isPoint = true)
    (hr : e.key.sequence ≤ r) : NewestPoint [e] e.key.userKey r e where
  mem := List.mem_singleton_self e
  point := hp
  key := rfl
  readable := hr
  newest q hq _ _ _ := by rw [List.mem_singleton.mp hq]

/-- **Lengths of 2^32 bytes are lost**: the value reads as empty, and the key is not
    found at all. -/
theorem long_entries_not_found :
    (NewestPoint [⟨⟨[97], 1, .value⟩, List.replicate (2 ^ 32) 0⟩] [97] 1
        ⟨⟨[97], 1, .value⟩, List.replicate (2 ^ 32) 0⟩
      ∧ ¬ CoveredAbove [⟨⟨[97], 1, .value⟩, List.replicate (2 ^ 32) 0⟩] [97] 1 1
      ∧ (added [(⟨⟨[97], 1, .value⟩, List.replicate (2 ^ 32) 0⟩, 0)]).get [97] 1
          ≠ .found (List.replicate (2 ^ 32) 0))
    ∧ NewestPoint [⟨⟨List.replicate (2 ^ 32) 0, 1, .value⟩, [7]⟩] (List.replicate (2 ^ 32) 0) 1
        ⟨⟨List.replicate (2 ^ 32) 0, 1, .value⟩, [7]⟩
    ∧ (added [(⟨⟨List.replicate (2 ^ 32) 0, 1, .value⟩, [7]⟩, 0)]).get
        (List.replicate (2 ^ 32) 0) 1 = .absent := by
  have hlen : (List.replicate (2 ^ 32) (0 : UInt8)).length = 2 ^ 32 := List.length_replicate
  generalize List.replicate (2 ^ 32) (0 : UInt8) = long at hlen ⊢
  refine ⟨⟨newestPoint_only rfl (le_refl _), ?_, ?_⟩, newestPoint_only rfl (le_refl _),
    get_long_key hlen _⟩
  · rintro ⟨t, ht, htype, -⟩
    rw [List.mem_singleton.mp ht] at htype
    cases htype
  · rw [get_long_value hlen]
    intro heq
    cases heq
    cases hlen

end LdbMemTableBytes
