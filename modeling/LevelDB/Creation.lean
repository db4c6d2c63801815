import LevelDB.ReverseIteration

/-! # Creating an iterator while the database goes on

    `NewIterator` has two critical sections (`db/db_impl.cc`, `db/db_iter.cc`).
    `NewInternalIterator` takes `LastSequence`, the memtables and the current
    version; later the constructor of `DBIter` collects the range deletions of the
    memtables and the version that are current by then.  In between the database
    may take any steps.

    A range deletion is never lost and never loses its sequence number, so up to
    the sequence number of the iterator the second section finds what was
    committed at the first.  What the iterator shows is then what was visible there,
    as far as its calls are those of a cursor at all (`LdbReverse`). -/

namespace LdbCreation

open Versioned Cursors LdbFormat LdbVersion LdbTable LdbDb LdbInv LdbRun LdbCore LdbBounds
open LdbSequential LdbVisibility LdbScan LdbDbIter LdbReverse

/-- A writer has inserted some operations of a group that is not yet committed. -/
def inserting (db : DB) (part : List Op) : DB :=
  { db with mem := insertInto part (db.lastSequence + 1) db.mem }

/-! ## What `NewInternalIterator` makes of a database -/

/-- The children of `NewInternalIterator` after `MergingIterator::SeekToFirst`. -/
def firstChildren (db : DB) : List (List Entry) :=
  [db.mem.table] ++ db.imm.toList.map (·.table) ++ (db.current.files 0).map (entriesOf db)
    ++ (deepLevels db).map fun l => (db.current.files l).flatMap (entriesOf db)

theorem firstChildren_flatten (db : DB) : (firstChildren db).flatten = allEntries db := by
  rw [firstChildren, allEntries, allFiles, List.flatMap_assoc, List.flatMap_cons,
    List.flatten_append, List.flatten_append, List.flatten_append, List.flatten_singleton,
    ← List.append_assoc, ← List.flatMap_def, ← List.flatMap_def, ← List.flatMap_def]

theorem firstChildren_sorted {db : DB} {h : List Op} (hi : Inv db h) :
    ∀ c ∈ firstChildren db, Sorted c := by
  simp only [firstChildren, List.forall_mem_append, List.forall_mem_singleton, List.forall_mem_map]
  refine ⟨⟨⟨hi.mem.sorted, fun m hm => ?_⟩, fun f hf => ?_⟩, fun l hl => ?_⟩
  · exact (hi.imm m (Option.mem_toList.mp hm)).sorted
  · exact (hi.version.file 0 f hf).sorted
  · exact level_sorted hi (pos_of_deep hl)

/-- The entries of the merging iterator, in its order. -/
def mergedChildren (db : DB) : List Entry := KWayMerge.merge entryBefore (firstChildren db)

section Merged

variable {db : DB} {h : List Op}

/-- **The merged children are the stored entries**, one for each number. -/
theorem mem_mergedChildren (hc : Core db h) {e : Entry} : e ∈ mergedChildren db ↔ Stored db e := by
  have hperm := KWayMerge.merge_perm entryBefore_iff (firstChildren db)
  rw [firstChildren_flatten] at hperm
  exact hperm.mem_iff.trans (mem_allEntries hc)

theorem mergedChildren_numbered (hc : Core db h) : Numbered (mergedChildren db) :=
  fun _ ha _ hb _ hseq => (Stored.committed hc ((mem_mergedChildren hc).mp ha)).eq_of_sequence
    (Stored.committed hc ((mem_mergedChildren hc).mp hb)) hseq

theorem mergedChildren_sorted (hi : Inv db h) : Sorted (mergedChildren db) := by
  refine KWayMerge.merge_strict entryBefore_iff (firstChildren_sorted hi) ?_
  rw [firstChildren_flatten]
  exact allEntries_pairwise hi

/-- `NewIterator` on a database: the iterator stands nowhere yet. -/
def newIterator (db : DB) : DBIter := DBIter.new ⟨[], mergedChildren db⟩

/-- `MergingIterator::Seek`: every child seeks for itself, a level by the recorded
    bounds of its files; what no child has ahead then lies behind. -/
def seekMerged (db : DB) (target : InternalKey) : Cursor Entry :=
  ⟨((mergedChildren db).filter fun e => decide (e ∉ seekInternal db target)).reverse,
    seekInternal db target⟩

/-- `DBIter::Seek` of an iterator over a database. -/
def seekOver (db : DB) (dels : List RangeDeletion) (s : Nat) (target : Slice) (it : DBIter) :
    DBIter :=
  it.seekAt dels s target (seekMerged db (lookupKey target s))

/-- **Seeking by the recorded bounds is seeking in the merged entries**, if the bounds
    contain the entries. -/
theorem seekMerged_eq (hi : Inv db h) (hall : AllContain db) {c : Cursor Entry}
    (hc : c.contents = mergedChildren db) (target : InternalKey) :
    seekMerged db target = c.seek fun e => decide (e.key < target) := by
  have hs := mergedChildren_sorted hi
  obtain ⟨hsorted, hmem⟩ := seekInternal_spec hi hall target
  have hahead : ∀ e, e ∈ seekInternal db target ↔ e ∈ mergedChildren db ∧ target ≤ e.key := by
    intro e
    rw [hmem e, mem_mergedChildren hi.toCore]
  have hright : seekInternal db target
      = (mergedChildren db).dropWhile fun e => decide (e.key < target) := by
    refine OrderedLists.eq_of_increasing hsorted (hs.sublist (List.dropWhile_sublist _)) fun e => ?_
    rw [hahead e, OrderedLists.mem_dropWhile_lt hs]
  have hleft : (mergedChildren db).filter (fun e => decide (e ∉ seekInternal db target))
      = (mergedChildren db).takeWhile fun e => decide (e.key < target) := by
    rw [OrderedLists.takeWhile_eq_filter]
    · refine List.filter_congr fun e he => decide_eq_decide.mpr ?_
      rw [hahead e, not_and, not_le]
      exact ⟨fun hlt => hlt he, fun hlt _ => hlt⟩
    · exact hs.imp fun hab hb => decide_eq_true (lt_trans hab (of_decide_eq_true hb))
  rw [seekMerged, Cursor.seek, hc, hleft, hright]

theorem seekOver_eq (hi : Inv db h) (hall : AllContain db) (dels : List RangeDeletion) (s : Nat)
    {it : DBIter} (hit : it.iter.contents = mergedChildren db) (target : Slice) :
    seekOver db dels s target it = it.seek dels s target := by
  rw [seekOver, seekMerged_eq hi hall hit, DBIter.seek]

end Merged

section Tombstones

variable {o : Options} {db db' : DB} {h ops : List Op}

/-- Operations after `s` add no tombstone numbered at most `s`. -/
theorem committedDel_append_le {d : RangeDeletion} (hd : d.seq ≤ h.length) :
    CommittedDel (h ++ ops) d ↔ CommittedDel h d := by
  rw [committedDel_append]
  refine ⟨fun hc => hc.resolve_right ?_, Or.inl⟩
  rintro ⟨i, a, b, -, rfl⟩
  exact absurd hd (by show ¬ h.length + i + 1 ≤ h.length; omega)

/-- **The second section finds the tombstones of the first**, up to the sequence
    number taken there. -/
theorem mem_later_getRangeDeletions (hc : Core db h) (hc' : Core db' (h ++ ops)) (part : List Op)
    (hpart : db'.lastSequence + part.length ≤ kMaxSequenceNumber) {d : RangeDeletion}
    (hd : d.seq ≤ db.lastSequence) :
    d ∈ getRangeDeletions (inserting db' part) ↔ CommittedDel h d := by
  -- the group counts as committed for the moment: its numbers are too large to matter
  have hmem : d ∈ getRangeDeletions (inserting db' part) ↔ CommittedDel (h ++ ops ++ part) d :=
    mem_getRangeDeletions (core_write hc' part hpart)
  rw [hc.length] at hd
  rw [hmem, List.append_assoc, committedDel_append_le hd]

end Tombstones

/-! ## What the iterator shows -/

theorem visits_congr {dels : List RangeDeletion} {s : Nat} {it : DBIter}
    {P Q : Slice → Slice → Prop} (h : ∀ k v, P k v ↔ Q k v) (hv : Visits dels s it P) :
    Visits dels s it Q := by
  obtain ⟨shown, hp, hm, hy⟩ := hv
  exact ⟨shown, hp, fun k v => (hm k v).trans (h k v), hy⟩

/-- Reads at `s` from the merged children are reads of what was stored, also when the
    memtable has grown since. -/
theorem visible_mergedChildren {db : DB} {h later : List Op} (hc : Core db h)
    (hlater : db.lastSequence + later.length ≤ kMaxSequenceNumber)
    {dels : List RangeDeletion} {s : Nat} (hs : s ≤ db.lastSequence)
    (hdels : ∀ d, d.seq ≤ s → (d ∈ dels ↔ CommittedDel h d)) (k v : Slice) :
    Visible (versions (mergedChildren (inserting db later))) (tombs dels) k s v
      ↔ Visible (storedVers db) (committedTombs h) k s v := by
  -- what was added since has larger numbers
  have hstored : ∀ e, e.key.sequence ≤ s →
      (e ∈ mergedChildren (inserting db later) ↔ Stored db e) := by
    intro e hes
    refine (mem_mergedChildren (core_write hc later hlater)).trans ?_
    rw [stored_write hc later e]
    refine or_iff_left fun hadded => ?_
    obtain ⟨i, op, -, rfl⟩ := hadded
    rw [Op.entry_sequence] at hes
    have := hc.length
    omega
  refine visible_congr (fun x _ hxs => ?_) (fun t hts => ?_) v
  · constructor
    · rintro ⟨e, he, hp, rfl⟩
      exact ⟨e, (hstored e hxs).mp he, hp, rfl⟩
    · rintro ⟨e, he, hp, rfl⟩
      exact ⟨e, (hstored e hxs).mpr he, hp, rfl⟩
  · constructor
    · rintro ⟨d, hd, rfl⟩
      exact ⟨d, (hdels d hts).mp hd, rfl⟩
    · rintro ⟨d, hd, rfl⟩
      exact ⟨d, (hdels d hts).mpr hd, rfl⟩

/-- **What the two sections of iterator creation see.**  `db` is the state in which
    `NewInternalIterator` runs, `db'` the state after any steps, in which the range
    deletions are collected while a group may be half inserted; the iterator reads
    at `s`, and the memtable it holds has grown by `later` when it is used.

    The tombstones numbered at most `s` are the `DeleteRange` operations committed at
    the first section.  If the recorded bounds of `db` can be trusted, moving forward
    shows what was visible at `s` there, whatever was done with the iterator before;
    and every mix of calls, `SeekToLast` and `Prev` among them, is that of a cursor
    over those pairs exactly if no marker of a range deletion shows. -/
theorem creation_is_snapshot {o : Options} {db db' : DB} {h : List Op}
    (hreach : Reach o (fun _ _ => True) db h) (window : List Action)
    (hrun : run o (fun _ _ => True) db window = some db') (part : List Op)
    (hpart : db'.lastSequence + part.length ≤ kMaxSequenceNumber) {s : Nat}
    (hs : s ≤ db.lastSequence) :
    (∀ d, d.seq ≤ s →
        (d ∈ getRangeDeletions (inserting db' part) ↔ CommittedDel h d))
      ∧ (Reach o (UntornInstalls o) db h → ∀ later : List Op,
          db.lastSequence + later.length ≤ kMaxSequenceNumber →
          (∀ it : DBIter, it.iter.contents = mergedChildren (inserting db later) →
            Visits (getRangeDeletions (inserting db' part)) s
                (it.seekToFirst (getRangeDeletions (inserting db' part)) s)
                (fun k v => Visible (storedVers db) (committedTombs h) k s v)
              ∧ ∀ target, Visits (getRangeDeletions (inserting db' part)) s
                  (seekOver (inserting db later) (getRangeDeletions (inserting db' part)) s target it)
                  fun k v => target ≤ k ∧ Visible (storedVers db) (committedTombs h) k s v)
          ∧ ∃ shown : List (Slice × Slice), shown.Pairwise (fun p q => p.1 < q.1)
            ∧ (∀ k v, (k, v) ∈ shown ↔ Visible (storedVers db) (committedTombs h) k s v)
            ∧ ((∀ calls, Follows (dbIterBy (getRangeDeletions (inserting db' part)) s
                  (seekOver (inserting db later) (getRangeDeletions (inserting db' part)) s))
                (fun a b => decide (a < b)) () calls (newIterator (inserting db later))
                ⟨shown.reverse, []⟩)
              ↔ MarkersAside (getRangeDeletions (inserting db' part)) s
                  (mergedChildren (inserting db later)))) := by
  have hc := core_reach hreach
  have hdels : ∀ d, d.seq ≤ s →
      (d ∈ getRangeDeletions (inserting db' part) ↔ CommittedDel h d) := fun d hd =>
    mem_later_getRangeDeletions hc (core_reach (Reach.run window hreach hrun)) part hpart
      (le_trans hd hs)
  refine ⟨hdels, fun huntorn later hlater => ?_⟩
  generalize getRangeDeletions (inserting db' part) = dels at hdels ⊢
  have hi := inv_write (inv_reach soundInstall_of_untorn huntorn) later hlater
  have hall : AllContain db := allContain_reach id huntorn
  have hsorted : Sorted (mergedChildren (inserting db later)) := (mergedChildren_sorted hi :)
  have hn : Numbered (mergedChildren (inserting db later)) :=
    (mergedChildren_numbered hi.toCore :)
  have hvisible := visible_mergedChildren hc hlater hs hdels
  have hseek : ∀ it : DBIter, it.iter.contents = mergedChildren (inserting db later) →
      ∀ target, seekOver (inserting db later) dels s target it = it.seek dels s target :=
    fun it hit target => (seekOver_eq hi hall dels s hit target :)
  refine ⟨fun it hit => ⟨?_, fun target => ?_⟩, ?_⟩
  · refine visits_congr hvisible ?_
    rw [← hit] at hsorted hn ⊢
    exact seekToFirst_visits hsorted hn
  · refine visits_congr (fun k v => and_congr_right fun _ => hvisible k v) ?_
    rw [hseek it hit]
    rw [← hit] at hsorted hn ⊢
    exact seek_visits hsorted hn target
  · obtain ⟨hinc, hmem⟩ := userEntries_spec dels s _ none hsorted hn (by simp)
    refine ⟨_, hinc, fun k v => ?_, followsBy_iff dels s (newIterator (inserting db later)) hsorted hn
      rfl hseek⟩
    rw [hmem k v, ← hvisible k v]
    simp

/-- The operations of a sample: the range deletion hides the second put. -/
def sampleOps : List Op := [.put [0] [6], .put [1] [7], .deleteRange [1] [5], .put [2] [8]]

/-- A new database after one group. -/
def sampleDb : DB := { DB.init with mem := insertInto sampleOps 1 MemTable.empty, lastSequence := 4 }

/-- The memtable is switched and flushed between the sections, a later range deletion is
    half committed, and the memtable that the iterator holds has grown. -/
theorem creation_is_snapshot_flushed :
    ∃ db', run sampleOptions (fun _ _ => True) sampleDb [.switchMemTable, .compactMemTable] = some db'
      ∧ db'.mem.table = []
      ∧ (∀ d, d.seq ≤ 4 → (d ∈ getRangeDeletions (inserting db' [.deleteRange [2] [3]])
          ↔ CommittedDel sampleOps d))
      ∧ ∃ shown : List (Slice × Slice),
          (∀ k v, (k, v) ∈ shown ↔ Visible (storedVers sampleDb) (committedTombs sampleOps) k 4 v)
          ∧ ∀ calls, Follows (dbIterBy (getRangeDeletions (inserting db' [.deleteRange [2] [3]])) 4
                (seekOver (inserting sampleDb [.delete [2]])
                  (getRangeDeletions (inserting db' [.deleteRange [2] [3]])) 4))
              (fun a b => decide (a < b)) () calls (newIterator (inserting sampleDb [.delete [2]]))
              ⟨shown.reverse, []⟩ := by
  have hsample : (run sampleOptions (fun _ _ => True) sampleDb [.switchMemTable, .compactMemTable]).any
      (fun db' => decide (db'.mem.table = [] ∧ db'.lastSequence = 4
        ∧ getRangeDeletions (inserting db' [.deleteRange [2] [3]])
          = [⟨[2], [3], 5⟩, ⟨[1], [5], 3⟩])) = true := by
    decide +kernel
  obtain ⟨db', hrun, hcheck⟩ := (Option.any_eq_true _ _).mp hsample
  obtain ⟨hmem, hlast, hdels⟩ := of_decide_eq_true hcheck
  have hpart : db'.lastSequence + [Op.deleteRange [2] [3]].length ≤ kMaxSequenceNumber := by
    rw [hlast]
    decide
  have hreach : ∀ {P : DB → Action → Prop}, P DB.init (.write sampleOps) →
      Reach sampleOptions P sampleDb sampleOps := fun hp =>
    Reach.step (a := .write sampleOps) Reach.init hp rfl
  obtain ⟨h1, h2⟩ := creation_is_snapshot (s := 4) (hreach trivial) _ hrun _ hpart (Nat.le_refl 4)
  obtain ⟨-, shown, -, hshown, hiff⟩ := h2 (hreach (by decide)) [.delete [2]] (by decide)
  refine ⟨db', hrun, hmem, h1, shown, hshown, hiff.mpr ?_⟩
  rw [hdels]
  exact ⟨by decide, by decide⟩

/-- A new database after a `DeleteRange` of `a` to `b`. -/
def markerDb : DB :=
  { DB.init with mem := insertInto [.deleteRange [97] [98]] 1 MemTable.empty, lastSequence := 1 }

/-- **A new iterator shows a marker**: nothing is visible, and `SeekToLast` stands on an
    empty key. -/
theorem created_shows_marker :
    Reach sampleOptions (UntornInstalls sampleOptions) markerDb [.deleteRange [97] [98]]
      ∧ (∀ k v, ¬ Visible (storedVers markerDb) (committedTombs [.deleteRange [97] [98]]) k 1 v)
      ∧ ((newIterator markerDb).seekToLast (getRangeDeletions markerDb) 1).valid = true
      ∧ ((newIterator markerDb).seekToLast (getRangeDeletions markerDb) 1).key = [] := by
  refine ⟨Reach.step (a := .write [.deleteRange [97] [98]]) Reach.init (by decide) rfl, ?_,
    by decide, by decide⟩
  rintro k v ⟨x, hx, -⟩
  obtain ⟨e, he, hp, -⟩ := hx.1.1
  rcases he with he | ⟨m, hm, -⟩ | ⟨l, f, hf, -⟩
  · cases List.mem_singleton.mp he
    cases hp
  · cases hm
  · cases hf

end LdbCreation
