import Mathlib.Data.List.Sort
import Mathlib.Data.List.TakeWhile
import LevelDB.Tiered
import LevelDB.Version

/-! # Tables and memtables

    `MemTable` (`db/memtable.cc`), the table a `TableBuilder` writes
    (`table/table_builder.cc`), `Table::InternalGet` (`table/table.cc`) and
    `BuildTable` (`db/builder.cc`).  Blocks, filters and compression are below
    the model: a table is its sorted data entries and its list of range
    deletions.

    Both lookups are shown to answer from their own contents in the sense of
    `Tiered.Answers`. -/

namespace LdbTable

open Versioned Tiered LdbFormat LdbVersion

/-! ## Write operations -/

/-- One operation of a `WriteBatch`. -/
inductive Op where
  | put (key value : Slice)
  | delete (key : Slice)
  | deleteRange (startKey endKey : Slice)
  deriving DecidableEq, Repr

/-- The entry `MemTableInserter` hands to `MemTable::Add` for the operation. -/
def Op.entry (op : Op) (sequence : Nat) : Entry :=
  match op with
  | .put k v => ⟨⟨k, sequence, .value⟩, v⟩
  | .delete k => ⟨⟨k, sequence, .deletion⟩, []⟩
  | .deleteRange a b => ⟨⟨a, sequence, .rangeDeletion⟩, b⟩

@[simp] theorem Op.entry_sequence (op : Op) (n : Nat) : (op.entry n).key.sequence = n := by
  cases op <;> rfl

/-! ## Memtables -/

/-- `MemTable`: the skip list in key order and the range deletions in arrival
    order. -/
structure MemTable where
  table : List Entry
  rangeDeletions : List RangeDeletion
  deriving DecidableEq, Repr

/-- A fresh memtable. -/
def MemTable.empty : MemTable := ⟨[], []⟩

/-- `MemTable::Add`. -/
def MemTable.add [UserComparator] (m : MemTable) (e : Entry) : MemTable where
  table := m.table.orderedInsert (fun a b => internalCompare b.key a.key ≠ .lt) e
  rangeDeletions :=
    if e.key.type = .rangeDeletion then m.rangeDeletions ++ [e.rangeDeletion]
    else m.rangeDeletions

/-- `WriteBatchInternal::InsertInto`: the operations get consecutive sequence
    numbers from `sequence` on. -/
def insertInto [UserComparator] : List Op → Nat → MemTable → MemTable
  | [], _, m => m
  | op :: rest, sequence, m => insertInto rest (sequence + 1) (m.add (op.entry sequence))

/-- The check made when no point entry answers: is the key covered at all? -/
def coveredOrAbsent (dels : List RangeDeletion) (key : Slice) (readSeq : Nat) : Lookup Slice :=
  if isDeleted dels key 0 readSeq then .deleted else .absent

/-- The loop of `MemTable::Get` over the entries from the lookup key on. -/
def MemTable.getLoop [UserComparator] (dels : List RangeDeletion) (key : Slice) (readSeq : Nat) :
    List Entry → Lookup Slice
  | [] => coveredOrAbsent dels key readSeq
  | e :: rest =>
    if userCompare e.key.userKey key = .eq then
      if isDeleted dels key e.key.sequence readSeq then .deleted
      else
        match e.key.type with
        | .value => .found e.value
        | .deletion => .deleted
        -- a tombstone marker is not a point entry
        | .rangeDeletion => MemTable.getLoop dels key readSeq rest
    else coveredOrAbsent dels key readSeq

/-- An iterator over sorted entries after `Seek(target)`. -/
def seekEntries [UserComparator] (target : InternalKey) (es : List Entry) : List Entry :=
  es.dropWhile fun e => decide (internalCompare e.key target = .lt)

/-- `MemTable::Get`. -/
def MemTable.get [UserComparator] (m : MemTable) (key : Slice) (readSeq : Nat) : Lookup Slice :=
  MemTable.getLoop m.rangeDeletions key readSeq
    (seekEntries (lookupKey key readSeq) m.table)

/-! ## Tables -/

/-- A table file: data entries in key order, range deletions in their block. -/
structure Table where
  entries : List Entry
  rangeDeletions : List RangeDeletion
  deriving DecidableEq, Repr

/-- The table written by a sequence of `TableBuilder::Add` calls: entries of type
    `kTypeRangeDeletion` go to the range-deletion block. -/
def tableOfAdds (adds : List Entry) : Table where
  entries := adds.filter (·.isPoint)
  rangeDeletions := (adds.filter (!·.isPoint)).map (·.rangeDeletion)

/-- Entries of one user key are newer in the first table. -/
def Newer (t u : Table) : Prop :=
  ∀ e ∈ t.entries, ∀ e' ∈ u.entries, e.key.userKey = e'.key.userKey →
    e'.key.sequence < e.key.sequence

/-- All entries of the first table come before those of the second. -/
def Precedes (t u : Table) : Prop :=
  ∀ e ∈ t.entries, ∀ e' ∈ u.entries, e.key < e'.key

/-- `SaveValue`. -/
def saveValue [UserComparator] (key : Slice) (e : Entry) : Lookup Slice :=
  if userCompare e.key.userKey key = .eq then
    match e.key.type with
    | .value => .found e.value
    | .deletion => .deleted
    | .rangeDeletion => .deleted
  else .absent

/-- `Table::InternalGet` with the callback `SaveValue`.  That the entry found is the one
    sought is a test of the bytes. -/
def Table.internalGet [UserComparator] (t : Table) (key : Slice) (readSeq : Nat) : Lookup Slice :=
  match (seekEntries (lookupKey key readSeq) t.entries).head? with
  | none => coveredOrAbsent t.rangeDeletions key readSeq
  | some e =>
    if e.key.userKey = key then
      if isDeleted t.rangeDeletions key e.key.sequence readSeq then .deleted else saveValue key e
    else coveredOrAbsent t.rangeDeletions key readSeq

/-- `BuildTable`: the file and its table, or nothing for an empty memtable. -/
def buildTable (o : Options) (number : Nat) (entries : List Entry) :
    Option (FileMetaData × Table) :=
  match entries.head?, entries.getLast? with
  | some first, some last =>
    some (⟨number, o.finishedSize entries, first.key, last.key⟩, tableOfAdds entries)
  | _, _ => none

/-! ## Lookups answer from their own contents -/

/-- The contents of a table or memtable as a source of reads. -/
def sourceOf (entries : List Entry) (dels : List RangeDeletion) : Source Slice Slice :=
  ⟨versions entries, tombs dels⟩

variable {dels : List RangeDeletion} {entries : List Entry} {s : Nat}

theorem MemTable.add_table (m : MemTable) (e : Entry) :
    (m.add e).table = m.table.orderedInsert (fun a b => a.key ≤ b.key) e := by
  simp only [MemTable.add, ne_eq, internalCompare_lt, not_lt]

theorem seekEntries_eq (target : InternalKey) (es : List Entry) :
    seekEntries target es = es.dropWhile fun e => decide (e.key < target) := by
  simp only [seekEntries, internalCompare_lt]

/-- The entry a table finds for a lookup key. -/
theorem head?_seekEntries (target : InternalKey) (es : List Entry) :
    (seekEntries target es).head? = es.find? fun e => decide (target ≤ e.key) := by
  rw [seekEntries_eq, List.find?_eq_head?_dropWhile_not]
  simp only [← decide_not, not_le]

theorem saveValue_self (e : Entry) :
    saveValue e.key.userKey e = match e.key.type with
      | .value => .found e.value
      | .deletion => .deleted
      | .rangeDeletion => .deleted :=
  if_pos (userCompare_eq.mpr rfl)

theorem has_sourceOf {k : Slice} :
    (sourceOf entries dels).Has k s ↔
      ∃ e ∈ entries, e.isPoint = true ∧ e.key.userKey = k ∧ e.key.sequence ≤ s := by
  constructor
  · rintro ⟨-, ⟨e, he, hp, rfl⟩, hk, hs⟩
    exact ⟨e, he, hp, hk, hs⟩
  · rintro ⟨e, he, hp, hk, hs⟩
    exact ⟨e.ver, ⟨e, he, hp, rfl⟩, hk, hs⟩

theorem coveredOrAbsent_answers {k : Slice} (hno : ¬ (sourceOf entries dels).Has k s) :
    Answers (sourceOf entries dels) k s (coveredOrAbsent dels k s) := by
  rw [coveredOrAbsent]
  split_ifs with h
  · exact .covered hno (isDeleted_iff_hidden.mp h)
  · exact .absent hno fun hh => h (isDeleted_iff_hidden.mpr hh)

/-- In a sorted list the first entry of the key at or after the lookup key is
    the newest readable one. -/
theorem newest_head {e : Entry} {rest : List Entry} (hs : Sorted (e :: rest))
    (hp : e.isPoint = true) (hle : e.key.sequence ≤ s) :
    Newest (versions (e :: rest)) e.key.userKey s e.ver := by
  refine ⟨⟨⟨e, by simp, hp, rfl⟩, rfl, hle⟩, ?_⟩
  rintro _ ⟨q, hq, -, rfl⟩ hk -
  rcases List.mem_cons.mp hq with rfl | hq'
  · exact le_refl _
  · have hlt : e.key < q.key := (List.pairwise_cons.mp hs).1 q hq'
    exact InternalKey.sequence_le hk.symm (le_of_lt hlt)

/-- The answer of the first point entry of the key. -/
theorem point_answers {e : Entry}
    (hnew : Newest (versions entries) e.key.userKey s e.ver) (hp : e.isPoint = true)
    {r : Lookup Slice}
    (hr : r = if isDeleted dels e.key.userKey e.key.sequence s then .deleted
      else match e.key.type with
        | .value => .found e.value
        | .deletion => .deleted
        | .rangeDeletion => r) :
    Answers (sourceOf entries dels) e.key.userKey s r := by
  by_cases hd : isDeleted dels e.key.userKey e.key.sequence s = true
  · rw [if_pos hd] at hr
    rw [hr]
    exact .dead hnew (Or.inr (isDeleted_iff_hidden.mp hd))
  · rw [if_neg hd] at hr
    cases ht : e.key.type with
    | value =>
      rw [ht] at hr
      rw [hr]
      refine .found hnew ?_ fun hh => hd (isDeleted_iff_hidden.mpr hh)
      simp [Entry.ver, ht]
    | deletion =>
      rw [ht] at hr
      rw [hr]
      exact .dead hnew (Or.inl (by simp [Entry.ver, ht]))
    | rangeDeletion => simp [Entry.isPoint, ht] at hp

/-- **`Table::InternalGet` answers from the table's own contents.** -/
theorem internalGet_answers {t : Table} (hs : Sorted t.entries)
    (hp : ∀ e ∈ t.entries, e.isPoint = true) (k : Slice) (s : Nat) :
    Answers (sourceOf t.entries t.rangeDeletions) k s (t.internalGet k s) := by
  rw [Table.internalGet, head?_seekEntries]
  cases hf : t.entries.find? (fun e => decide (lookupKey k s ≤ e.key)) with
  | none =>
    refine coveredOrAbsent_answers ?_
    rw [has_sourceOf]
    rintro ⟨e, he, -, hk, hle⟩
    have := List.find?_eq_none.mp hf e he
    rw [decide_eq_true_eq, lookupKey_le_iff hk] at this
    exact this hle
  | some e =>
    obtain ⟨hmem, hle, hleast⟩ := OrderedLists.least_find? (hs.imp le_of_lt) hf
    have hle' : lookupKey k s ≤ e.key := of_decide_eq_true hle
    have hepos : e.isPoint = true := hp e hmem
    -- a readable entry of the key is not before the entry found
    have hge : ∀ q ∈ t.entries, q.key.userKey = k → q.key.sequence ≤ s → e.key ≤ q.key :=
      fun q hq hk hqs => hleast q hq (decide_eq_true ((lookupKey_le_iff hk).mpr hqs))
    by_cases hk : e.key.userKey = k
    · simp only [if_pos hk]
      subst hk
      refine point_answers (e := e) ⟨⟨⟨e, hmem, hepos, rfl⟩, rfl,
        (lookupKey_le_iff rfl).mp hle'⟩, ?_⟩ hepos ?_
      · rintro _ ⟨q, hq, -, rfl⟩ hqk hqs
        exact InternalKey.sequence_le hqk.symm (hge q hq hqk hqs)
      · rw [saveValue_self]
        cases ht : e.key.type with
        | rangeDeletion => simp [Entry.isPoint, ht] at hepos
        | value => rfl
        | deletion => rfl
    · simp only [if_neg hk]
      refine coveredOrAbsent_answers ?_
      rw [has_sourceOf]
      rintro ⟨q, hq, -, hqk, hqs⟩
      have h1 : e.key.userKey ≤ k := hqk ▸ InternalKey.userKey_le (hge q hq hqk hqs)
      have h2 : k ≤ e.key.userKey := InternalKey.userKey_le hle'
      exact hk (le_antisymm h1 h2)

/-- The loop of `MemTable::Get` answers from the entries it is given. -/
theorem getLoop_answers (dels : List RangeDeletion) (k : Slice) (s : Nat) :
    ∀ l : List Entry, Sorted l → (∀ e ∈ l, lookupKey k s ≤ e.key) →
      Answers (sourceOf l dels) k s (MemTable.getLoop dels k s l) := by
  intro l
  induction l with
  | nil =>
    intro _ _
    refine coveredOrAbsent_answers ?_
    rw [has_sourceOf]
    rintro ⟨e, he, -⟩
    cases he
  | cons e rest ih =>
    intro hs hge
    have hsr : Sorted rest := (List.pairwise_cons.mp hs).2
    have hrest := ih hsr (List.forall_mem_cons.mp hge).2
    have hle := hge e (by simp)
    rw [MemTable.getLoop]
    by_cases hk : e.key.userKey = k
    · rw [if_pos (userCompare_eq.mpr hk)]
      subst hk
      have hes : e.key.sequence ≤ s := (lookupKey_le_iff rfl).mp hle
      cases ht : e.key.type with
      | value | deletion =>
        have hp : e.isPoint = true := by simp [Entry.isPoint, ht]
        exact point_answers (newest_head hs hp hes) hp (by simp only [ht])
      | rangeDeletion =>
        have hp : e.isPoint = false := by simp [Entry.isPoint, ht]
        have hsame : versions (e :: rest) = versions rest := by
          ext x
          constructor
          · rintro ⟨q, hq, hqp, rfl⟩
            rcases List.mem_cons.mp hq with rfl | hq'
            · rw [hp] at hqp
              exact Bool.noConfusion hqp
            · exact ⟨q, hq', hqp, rfl⟩
          · rintro ⟨q, hq, hqp, rfl⟩
            exact ⟨q, List.mem_cons_of_mem _ hq, hqp, rfl⟩
        have hsrc : sourceOf (e :: rest) dels = sourceOf rest dels := by
          rw [sourceOf, hsame, sourceOf]
        rw [hsrc]
        by_cases hd : isDeleted dels e.key.userKey e.key.sequence s = true
        · -- a tombstone above the marker hides everything below it
          rw [if_pos hd]
          have hh := isDeleted_iff_hidden.mp hd
          by_cases hhas : (sourceOf rest dels).Has e.key.userKey s
          · obtain ⟨x, hx, hxk, hxs⟩ := hhas
            obtain ⟨m, hm, -⟩ := exists_newest hx hxk hxs
            refine .dead hm (Or.inr (hh.mono ?_))
            obtain ⟨q, hq, -, rfl⟩ := hm.1.1
            exact InternalKey.sequence_le hm.1.2.1.symm
              (le_of_lt ((List.pairwise_cons.mp hs).1 q hq))
          · exact .covered hhas (hh.mono (Nat.zero_le _))
        · rw [if_neg hd]
          exact hrest
    · rw [if_neg (mt userCompare_eq.mp hk)]
      refine coveredOrAbsent_answers ?_
      rw [has_sourceOf]
      have h2 : k ≤ e.key.userKey := InternalKey.userKey_le hle
      rintro ⟨q, hq, -, hqk, -⟩
      rcases List.mem_cons.mp hq with rfl | hq'
      · exact hk hqk
      · have hlt := (List.pairwise_cons.mp hs).1 q hq'
        exact hk (le_antisymm (hqk ▸ InternalKey.userKey_le (le_of_lt hlt)) h2)

/-- **`MemTable::Get` answers from the memtable's own contents.** -/
theorem memTableGet_answers {m : MemTable} (hs : Sorted m.table) (k : Slice) (s : Nat) :
    Answers (sourceOf m.table m.rangeDeletions) k s (m.get k s) := by
  rw [MemTable.get, seekEntries_eq]
  have hmem : ∀ {e}, e ∈ m.table.dropWhile (fun e => decide (e.key < lookupKey k s)) ↔
      e ∈ m.table ∧ lookupKey k s ≤ e.key := OrderedLists.mem_dropWhile_lt hs
  refine (getLoop_answers m.rangeDeletions k s _ (hs.sublist (List.dropWhile_sublist _))
    fun e he => (hmem.mp he).2).congr ?_
  intro x hxk hxs
  constructor
  · rintro ⟨q, hq, hqp, rfl⟩
    exact ⟨q, (hmem.mp hq).1, hqp, rfl⟩
  · rintro ⟨q, hq, hqp, rfl⟩
    exact ⟨q, hmem.mpr ⟨hq, (lookupKey_le_iff hxk).mpr hxs⟩, hqp, rfl⟩

/-! ## What a lookup should find -/

/-- `p` is the newest Put or Delete of `k` among the entries, as of sequence `r`. -/
structure NewestPoint (es : List Entry) (k : Slice) (r : Nat) (p : Entry) : Prop where
  mem : p ∈ es
  point : p.isPoint = true
  key : p.key.userKey = k
  readable : p.key.sequence ≤ r
  newest : ∀ q ∈ es, q.isPoint = true → q.key.userKey = k → q.key.sequence ≤ r →
    q.key.sequence ≤ p.key.sequence

/-- A tombstone among the entries covers `k` with a sequence above `q`, as of `r`. -/
def CoveredAbove (es : List Entry) (k : Slice) (q r : Nat) : Prop :=
  ∃ t ∈ es, t.key.type = .rangeDeletion ∧ t.key.userKey ≤ k ∧ k < t.value
    ∧ q < t.key.sequence ∧ t.key.sequence ≤ r

/-- The check of the tombstones among some entries. -/
theorem isDeleted_iff_coveredAbove {es : List Entry} {k : Slice} {q r : Nat} :
    isDeleted ((es.filter (!·.isPoint)).map (·.rangeDeletion)) k q r = true ↔
      CoveredAbove es k q r := by
  have htype : ∀ e : Entry, (!e.isPoint) = true ↔ e.key.type = .rangeDeletion := by
    intro e
    rw [Entry.isPoint]
    cases e.key.type <;> simp
  rw [isDeleted_iff]
  constructor
  · rintro ⟨d, hd, hc, hlt, hle⟩
    obtain ⟨t, ht, rfl⟩ := List.mem_map.mp hd
    obtain ⟨hmem, hpoint⟩ := List.mem_filter.mp ht
    obtain ⟨hstart, hend⟩ := RangeDeletion.covers_iff.mp hc
    exact ⟨t, hmem, (htype t).mp hpoint, hstart, hend, hlt, hle⟩
  · rintro ⟨t, ht, hrange, hstart, hend, hlt, hle⟩
    exact ⟨t.rangeDeletion, List.mem_map_of_mem (List.mem_filter.mpr ⟨ht, (htype t).mpr hrange⟩),
      RangeDeletion.covers_iff.mpr ⟨hstart, hend⟩, hlt, hle⟩

end LdbTable
