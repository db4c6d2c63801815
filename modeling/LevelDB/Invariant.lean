import LevelDB.DbImpl

/-! # The structural invariant of the database

    What holds in every state of a run as long as the versions it installs are
    disjoint above level 0: every entry was committed, files hold their entries
    between their user keys, and entries of a user key get older from the
    memtables down the levels.

    The invariant is split by component (`FileOK`, `VersionOK`, `MemOK`,
    `RunningOK`) and assembled in `Inv`.  This file states it and proves what
    does not involve a change of version. -/

namespace LdbInv

open LdbFormat LdbVersion LdbEdit LdbTable LdbClosure

/-! ## Committed operations -/

/-- The entry is one of the committed operations under its sequence number. -/
def Committed (h : List Op) (e : Entry) : Prop :=
  ∃ (i : Nat) (op : Op), h[i]? = some op ∧ e = op.entry (i + 1)

/-- The tombstone is one of the committed `DeleteRange` operations. -/
def CommittedDel (h : List Op) (d : RangeDeletion) : Prop :=
  ∃ (i : Nat) (a b : Slice), h[i]? = some (.deleteRange a b) ∧ d = ⟨a, b, i + 1⟩

variable {e : Entry} {h : List Op} {d : RangeDeletion} {f : FileMetaData} {next : Nat} {v : Version}
  {tables : Nat → Table} {m : MemTable}

theorem Committed.append (hc : Committed h e) (ops : List Op) : Committed (h ++ ops) e := by
  obtain ⟨i, op, hi, he⟩ := hc
  obtain ⟨hlt, -⟩ := List.getElem?_eq_some_iff.mp hi
  exact ⟨i, op, by rw [List.getElem?_append_left hlt, hi], he⟩

theorem CommittedDel.append (hc : CommittedDel h d) (ops : List Op) :
    CommittedDel (h ++ ops) d := by
  obtain ⟨i, a, b, hi, hd⟩ := hc
  obtain ⟨hlt, -⟩ := List.getElem?_eq_some_iff.mp hi
  exact ⟨i, a, b, by rw [List.getElem?_append_left hlt, hi], hd⟩

/-- A sequence number identifies the entry. -/
theorem Committed.eq_of_sequence {e' : Entry} (hc : Committed h e) (hc' : Committed h e')
    (hs : e.key.sequence = e'.key.sequence) : e = e' := by
  obtain ⟨i, op, hi, rfl⟩ := hc
  obtain ⟨i', op', hi', rfl⟩ := hc'
  have heq : i = i' := by simpa using hs
  subst heq
  rw [hi, Option.some.injEq] at hi'
  rw [hi']

theorem Committed.sequence_le (hc : Committed h e) :
    0 < e.key.sequence ∧ e.key.sequence ≤ h.length := by
  obtain ⟨i, op, hi, rfl⟩ := hc
  obtain ⟨hlt, -⟩ := List.getElem?_eq_some_iff.mp hi
  rw [Op.entry_sequence]
  omega

/-- The tombstone of a committed marker is committed. -/
theorem Committed.rangeDeletion (hc : Committed h e) (ht : e.key.type = .rangeDeletion) :
    CommittedDel h e.rangeDeletion := by
  obtain ⟨i, op, hi, rfl⟩ := hc
  cases op with
  | put | delete => exact ValueType.noConfusion ht
  | deleteRange a b => exact ⟨i, a, b, hi, rfl⟩

theorem CommittedDel.eq_of_seq {d' : RangeDeletion} (hc : CommittedDel h d)
    (hc' : CommittedDel h d') (hs : d.seq = d'.seq) : d = d' := by
  obtain ⟨i, a, b, hi, rfl⟩ := hc
  obtain ⟨i', a', b', hi', rfl⟩ := hc'
  have heq : i = i' := by simpa using hs
  subst heq
  rw [hi, Option.some.injEq] at hi'
  cases hi'
  rfl

theorem CommittedDel.seq_le (hc : CommittedDel h d) : 0 < d.seq ∧ d.seq ≤ h.length := by
  obtain ⟨i, a, b, hi, rfl⟩ := hc
  obtain ⟨hlt, -⟩ := List.getElem?_eq_some_iff.mp hi
  show 0 < i + 1 ∧ i + 1 ≤ h.length
  omega

/-! ## Files and versions -/

/-- A file and its table: sorted committed point entries between the file's
    user keys, none before its smallest key. -/
structure FileOK (h : List Op) (f : FileMetaData) (t : Table) : Prop where
  sorted : Sorted t.entries
  points : ∀ e ∈ t.entries, e.isPoint = true
  committed : ∀ e ∈ t.entries, Committed h e
  dels : ∀ d ∈ t.rangeDeletions, CommittedDel h d
  ordered : f.Ordered
  lower : ∀ e ∈ t.entries, f.smallest ≤ e.key
  upper : ∀ e ∈ t.entries, e.key.userKey ≤ f.largest.userKey
  bounded : f.largest.sequence ≤ kMaxSequenceNumber

theorem FileOK.append {t : Table} (hf : FileOK h f t) (ops : List Op) : FileOK (h ++ ops) f t :=
  { hf with
    committed := fun e he => (hf.committed e he).append ops
    dels := fun d hd => (hf.dels d hd).append ops }

/-- The file holds the user key of each of its entries. -/
theorem FileOK.holds {t : Table} (hf : FileOK h f t) (he : e ∈ t.entries) :
    f.smallest.userKey ≤ e.key.userKey ∧ e.key.userKey ≤ f.largest.userKey :=
  ⟨InternalKey.userKey_le (hf.lower e he), hf.upper e he⟩

/-- Two files with entries of one user key meet. -/
theorem meets_of_userKey {g : FileMetaData} {t u : Table} (hf : FileOK h f t) (hg : FileOK h g u)
    {e' : Entry} (he : e ∈ t.entries) (he' : e' ∈ u.entries) (hk : e.key.userKey = e'.key.userKey) :
    Meets f g := by
  obtain ⟨h1, h2⟩ := hf.holds he
  obtain ⟨h3, h4⟩ := hg.holds he'
  exact ⟨le_trans h1 (hk ▸ h4), le_trans h3 (hk ▸ h2)⟩

/-- A version as a list of numbered files: numbers below the next one identify
    the files, and every level is in the order of `BySmallestKey`. -/
structure Listed (v : Version) (next : Nat) : Prop where
  number : ∀ l, ∀ f ∈ v.files l, f.number < next
  unique : ∀ l l' f g, f ∈ v.files l → g ∈ v.files l' → f.number = g.number → l = l' ∧ f = g
  sorted : ∀ l, (v.files l).Pairwise bySmallestKey
  levels : ∀ l, kNumLevels ≤ l → v.files l = []

theorem Listed.mono {next' : Nat} (hv : Listed v next) (hle : next ≤ next') :
    Listed v next' :=
  { hv with number := fun l f hf => Nat.lt_of_lt_of_le (hv.number l f hf) hle }

theorem Listed.level_lt {l : Nat} {f : FileMetaData} (hv : Listed v next) (hf : f ∈ v.files l) :
    l < kNumLevels := by
  by_contra hge
  rw [hv.levels l (Nat.le_of_not_lt hge)] at hf
  cases hf

/-- **A version and its tables.** -/
structure VersionOK (h : List Op) (v : Version) (tables : Nat → Table) (next : Nat) : Prop
    extends Listed v next where
  file : ∀ l, ∀ f ∈ v.files l, FileOK h f (tables f.number)
  disjoint : ∀ l, 0 < l → DisjointFiles (v.files l)
  order : ∀ l, 0 < l → ∀ f ∈ v.files l, ∀ g ∈ v.files l, f.largest < g.smallest →
    Precedes (tables f.number) (tables g.number)
  recent : ∀ i j, i < j → ∀ f ∈ v.files i, ∀ g ∈ v.files j,
    Newer (tables f.number) (tables g.number)
  recent0  : ∀ f ∈ v.files 0, ∀ g ∈ v.files 0, g.number < f.number →
    Newer (tables f.number) (tables g.number)

section

variable (hv : VersionOK h v tables next)
include hv

theorem VersionOK.append (ops : List Op) :
    VersionOK (h ++ ops) v tables next :=
  { hv with file := fun l f hf => (hv.file l f hf).append ops }

theorem VersionOK.mono {next' : Nat} (hle : next ≤ next') :
    VersionOK h v tables next' :=
  { hv with toListed := hv.toListed.mono hle }

/-- The levels above 0 are sorted and disjoint. -/
theorem VersionOK.sortedLevel {l : Nat} (hl : 0 < l) :
    SortedLevel (v.files l) :=
  ⟨fun f hf => (hv.file l f hf).ordered, hv.disjoint l hl⟩

theorem VersionOK.searchable : v.Searchable :=
  ⟨fun _ hl => hv.sortedLevel hl, fun l f hf => (hv.file l f hf).bounded⟩

theorem VersionOK.pickable : Pickable v where
  zero := by
    refine ⟨fun f hf => (hv.file 0 f hf).ordered, (hv.sorted 0).imp ?_⟩
    rintro f g hfg rfl
    exact bySmallestKey.irrefl _ hfg
  sorted _ hl := hv.sortedLevel hl

/-- Different files of a version share no entry. -/
theorem VersionOK.key_ne {l l' : Nat} {g : FileMetaData} (hf : f ∈ v.files l) (hg : g ∈ v.files l')
    (hne : f.number ≠ g.number) {e' : Entry} (he : e ∈ (tables f.number).entries)
    (he' : e' ∈ (tables g.number).entries) : e.key ≠ e'.key := by
  intro hkey
  have huk : e.key.userKey = e'.key.userKey := by rw [hkey]
  rcases Nat.lt_trichotomy l l' with hl | rfl | hl
  · have := hv.recent l l' hl f hf g hg e he e' he' huk
    rw [hkey] at this
    omega
  · rcases Nat.eq_zero_or_pos l with rfl | hl
    · rcases Nat.lt_or_gt_of_ne hne with hn | hn
      · have := hv.recent0 g hg f hf hn e' he' e he huk.symm
        rw [hkey] at this
        omega
      · have := hv.recent0 f hf g hg hn e he e' he' huk
        rw [hkey] at this
        omega
    · rcases (hv.sortedLevel hl).trichotomy hf hg with rfl | h1 | h1
      · exact hne rfl
      · exact absurd hkey (ne_of_lt (hv.order l hl f hf g hg h1 e he e' he'))
      · exact absurd hkey.symm (ne_of_lt (hv.order l hl g hg f hf h1 e' he' e he))
  · have := hv.recent l' l hl g hg f hf e' he' e he huk.symm
    rw [hkey] at this
    omega

end

/-! ## Memtables -/

/-- A memtable: sorted committed entries, and the range deletions of its
    markers. -/
structure MemOK (h : List Op) (m : MemTable) : Prop where
  sorted : Sorted m.table
  committed : ∀ e ∈ m.table, Committed h e
  dels : ∀ d, d ∈ m.rangeDeletions ↔
    ∃ e ∈ m.table, e.key.type = .rangeDeletion ∧ d = e.rangeDeletion

theorem memOK_empty (h : List Op) : MemOK h MemTable.empty where
  sorted := List.Pairwise.nil
  committed e he := nomatch he
  dels d := by simp [MemTable.empty]

theorem MemOK.append (hm : MemOK h m) (ops : List Op) :
    MemOK (h ++ ops) m :=
  { hm with committed := fun e he => (hm.committed e he).append ops }

theorem MemOK.committedDel (hm : MemOK h m) (hd : d ∈ m.rangeDeletions) : CommittedDel h d := by
  obtain ⟨e, he, ht, rfl⟩ := (hm.dels d).mp hd
  exact (hm.committed e he).rangeDeletion ht

theorem mem_add_table {x : Entry} : x ∈ (m.add e).table ↔ x = e ∨ x ∈ m.table := by
  rw [MemTable.add_table]
  exact List.mem_orderedInsert _

/-- **`Add` keeps a memtable well-formed.** -/
theorem MemOK.add (hm : MemOK h m) (he : Committed h e)
    (hne : ∀ x ∈ m.table, x.key.sequence ≠ e.key.sequence) : MemOK h (m.add e) where
  sorted := by
    rw [MemTable.add_table]
    exact OrderedLists.orderedInsert_lt hm.sorted fun x hx heq =>
      hne x hx (congrArg InternalKey.sequence heq)
  committed x hx := by
    rcases mem_add_table.mp hx with rfl | hx
    · exact he
    · exact hm.committed x hx
  dels d := by
    have hd : d ∈ (m.add e).rangeDeletions ↔ d ∈ m.rangeDeletions
        ∨ e.key.type = .rangeDeletion ∧ d = e.rangeDeletion := by
      by_cases ht : e.key.type = .rangeDeletion <;> simp [MemTable.add, ht]
    rw [hd, hm.dels]
    constructor
    · rintro (⟨x, hx, hxt, rfl⟩ | ⟨ht, rfl⟩)
      · exact ⟨x, mem_add_table.mpr (Or.inr hx), hxt, rfl⟩
      · exact ⟨e, mem_add_table.mpr (Or.inl rfl), ht, rfl⟩
    · rintro ⟨x, hx, hxt, rfl⟩
      rcases mem_add_table.mp hx with rfl | hx
      · exact Or.inr ⟨hxt, rfl⟩
      · exact Or.inl ⟨x, hx, hxt, rfl⟩

/-- **`InsertInto` keeps a memtable well-formed** and adds exactly the entries of
    the batch. -/
theorem insertInto_spec (h : List Op) (batch : List Op) :
    ∀ (done : List Op) (m : MemTable), MemOK (h ++ done) m →
      (∀ x ∈ m.table, x.key.sequence ≤ h.length + done.length) →
      MemOK (h ++ (done ++ batch)) (insertInto batch (h.length + done.length + 1) m)
      ∧ ∀ x, x ∈ (insertInto batch (h.length + done.length + 1) m).table ↔ x ∈ m.table ∨
          ∃ (i : Nat) (op : Op), batch[i]? = some op ∧ x = op.entry (h.length + done.length + i + 1) := by
  induction batch with
  | nil =>
    intro done m hm _
    refine ⟨by simpa [insertInto] using hm, fun x => ?_⟩
    simp [insertInto]
  | cons op rest ih =>
    intro done m hm hle
    have hc : Committed (h ++ (done ++ [op])) (op.entry (h.length + done.length + 1)) := by
      refine ⟨h.length + done.length, op, ?_, rfl⟩
      rw [← List.append_assoc, ← List.length_append, List.getElem?_append_right (le_refl _)]
      simp
    have hm' : MemOK (h ++ (done ++ [op])) (m.add (op.entry (h.length + done.length + 1))) := by
      rw [← List.append_assoc] at hc ⊢
      refine (hm.append [op]).add hc fun x hx => ?_
      rw [Op.entry_sequence]
      have := hle x hx
      omega
    obtain ⟨h1, h2⟩ := ih (done ++ [op]) _ hm' (by
      intro x hx
      rw [List.length_append, List.length_singleton]
      rcases mem_add_table.mp hx with rfl | hx
      · rw [Op.entry_sequence]
        omega
      · have := hle x hx
        omega)
    have hlen : h.length + (done ++ [op]).length + 1 = h.length + done.length + 1 + 1 := by
      rw [List.length_append, List.length_singleton]
      omega
    rw [hlen] at h1 h2
    rw [insertInto]
    refine ⟨by simpa using h1, fun x => ?_⟩
    rw [h2, mem_add_table]
    constructor
    · rintro ((rfl | hx) | ⟨i, op', hi, rfl⟩)
      · exact Or.inr ⟨0, op, rfl, by rw [Nat.add_zero]⟩
      · exact Or.inl hx
      · refine Or.inr ⟨i + 1, op', hi, ?_⟩
        rw [List.length_append, List.length_singleton]
        congr 1
        omega
    · rintro (hx | ⟨i, op', hi, rfl⟩)
      · exact Or.inl (Or.inr hx)
      · cases i with
        | zero =>
          simp only [List.getElem?_cons_zero, Option.some.injEq] at hi
          subst hi
          exact Or.inl (Or.inl rfl)
        | succ i =>
          refine Or.inr ⟨i, op', hi, ?_⟩
          rw [List.length_append, List.length_singleton]
          congr 1
          omega

end LdbInv
