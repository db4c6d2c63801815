import LevelDB.RepairScan
import LevelDB.CrashRecovery

/-! # Reads after a repair

    Repair puts every table and every converted log on level 0, where `Get` takes
    the number of a file for its age.  A reopened database answers from the last
    file that has an entry for the key: tables in the order of their numbers, then
    logs in the order in which the directory lists them.  Reads stay as they were
    just when that file has the entry the database answered from. -/

namespace LdbRepairReads

open LdbFormat LdbVersion LdbEdit LdbEditCodec LdbLog LdbTable LdbVersionSet LdbManifest LdbDb
open LdbDurable LdbRepair LdbRepairScan Tiered
open LdbRecovery (RecoveryOptions)

/-! ## The last file of a key -/

/-- The newest entry of a table for the key: entries of one key are stored newest
    first. -/
def newestEntry (k : Slice) (t : Table) : Option Entry :=
  t.entries.find? fun e => decide (e.key.userKey = k)

/-- The tables of the repaired database in the order of their numbers: those of the
    directory, then those of its logs as they are listed. -/
def tablesInOrder (children : List (FileType × Nat)) (d : Disk) : List Table :=
  ((numbersOf .tableFile children).insertionSort (· ≤ ·)).filterMap d.tables
    ++ logTables children d

/-- **The entry repair makes the current one**: the newest of the last table that
    has the key. -/
def lastEntry (children : List (FileType × Nat)) (d : Disk) (k : Slice) : Option Entry :=
  (tablesInOrder children d).reverse.findSome? (newestEntry k)

/-- What a lookup says that finds this entry. -/
def lookupOf : Option Entry → Lookup Slice
  | none => .absent
  | some e =>
    match e.key.type with
    | .value => .found e.value
    | .deletion => .deleted
    | .rangeDeletion => .deleted

/-- The first table that has the key decides; tables without it may be left out. -/
theorem firstAnswer_filter {α : Type} {holds : α → Bool} {answer : α → Lookup Slice}
    {entry : α → Option Entry} (l : List α)
    (hanswer : ∀ x ∈ l, answer x = lookupOf (entry x))
    (hout : ∀ x ∈ l, holds x = false → entry x = none) :
    firstAnswer ((l.filter holds).map answer) = (l.findSome? entry).bind fun e => e.ver.val := by
  induction l with
  | nil => rfl
  | cons x l ih =>
    have ih := ih (List.forall_mem_cons.mp hanswer).2
      (List.forall_mem_cons.mp hout).2
    cases hx : entry x with
    | none =>
      rw [List.findSome?_cons, hx]
      cases hh : holds x with
      | false =>
        rw [List.filter_cons_of_neg (by rw [hh]; decide)]
        exact ih
      | true =>
        rw [List.filter_cons_of_pos hh, List.map_cons, hanswer x List.mem_cons_self, hx]
        exact ih
    | some e =>
      have hh : holds x = true := by
        cases hh : holds x with
        | true => rfl
        | false =>
          have := hout x List.mem_cons_self hh
          rw [hx] at this
          cases this
      rw [List.findSome?_cons, hx, List.filter_cons_of_pos hh, List.map_cons,
        hanswer x List.mem_cons_self, hx, lookupOf]
      rcases e with ⟨⟨uk, seq, _ | _ | _⟩, v⟩ <;> rfl

variable {t : Table}

/-- `Table::InternalGet` above all sequence numbers of a table without tombstones
    finds the newest entry of the key. -/
theorem internalGet_eq (hord : Ordered t.entries) (hdels : t.rangeDeletions = [])
    {s : Nat} (hseq : ∀ e ∈ t.entries, e.key.sequence ≤ s) (k : Slice) :
    t.internalGet k s = lookupOf (newestEntry k t) := by
  have hnone : coveredOrAbsent t.rangeDeletions k s = .absent := by
    rw [hdels]
    rfl
  rw [Table.internalGet, head?_seekEntries]
  cases hf : t.entries.find? (fun e => decide (lookupKey k s ≤ e.key)) with
  | none =>
    have hno : newestEntry k t = none := by
      refine List.find?_eq_none.mpr fun e he hk => ?_
      have hk := of_decide_eq_true hk
      refine List.find?_eq_none.mp hf e he (decide_eq_true ?_)
      exact (lookupKey_le_iff hk).mpr (hseq e he)
    rw [hno]
    exact hnone
  | some e =>
    obtain ⟨hle, as, bs, hsplit, has⟩ := List.find?_eq_some_iff_append.mp hf
    -- the entries in front of the one found are of other keys
    have hbefore : ∀ q ∈ as, q.key.userKey ≠ k := by
      intro q hq hk
      have hq' : q ∈ t.entries := hsplit ▸ List.mem_append_left _ hq
      have := has q hq
      rw [Bool.not_eq_true', decide_eq_false_iff_not, lookupKey_le_iff hk] at this
      exact this (hseq q hq')
    simp only
    by_cases hk : e.key.userKey = k
    · have hnew : newestEntry k t = some e := by
        refine List.find?_eq_some_iff_append.mpr ⟨decide_eq_true hk, as, bs, hsplit, ?_⟩
        intro q hq
        rw [Bool.not_eq_true', decide_eq_false_iff_not]
        exact hbefore q hq
      rw [if_pos hk, hdels, hnew, ← hk, saveValue_self]
      rfl
    · have hno : newestEntry k t = none := by
        refine List.find?_eq_none.mpr fun q hq hqk => ?_
        have hqk := of_decide_eq_true hqk
        have heq : e.key ≤ q.key := (OrderedLists.least_find? hord hf).2.2 q hq
          (decide_eq_true ((lookupKey_le_iff hqk).mpr (hseq q hq)))
        exact hk (le_antisymm (hqk ▸ InternalKey.userKey_le heq)
          (InternalKey.userKey_le (of_decide_eq_true hle)))
      rw [if_neg hk, hno]
      exact hnone

/-! ## The numbers repair gives -/

/-- From one repairer to a later one: the new tables have the numbers `ns`, in
    order, above those given before, and the tables below are untouched. -/
structure Extends (r r' : Repairer) (ns : List Nat) (ts : List Table) : Prop where
  numbers : r'.tableNumbers = r.tableNumbers ++ ns
  sorted : ns.Pairwise (· < ·)
  above : ∀ n ∈ ns, r.nextFileNumber ≤ n ∧ n < r'.nextFileNumber
  next : r.nextFileNumber ≤ r'.nextFileNumber
  old : ∀ n < r.nextFileNumber, r'.disk.tables n = r.disk.tables n
  tables : ns.filterMap r'.disk.tables = ts

theorem Extends.refl (r : Repairer) : Extends r r [] [] where
  numbers := (List.append_nil _).symm
  sorted := List.Pairwise.nil
  above := nofun
  next := Nat.le_refl _
  old := fun _ _ => rfl
  tables := rfl

theorem Extends.trans {r r' r'' : Repairer} {ns ns' : List Nat} {ts ts' : List Table}
    (h : Extends r r' ns ts) (h' : Extends r' r'' ns' ts') :
    Extends r r'' (ns ++ ns') (ts ++ ts') where
  numbers := by rw [h'.numbers, h.numbers, List.append_assoc]
  sorted := by
    refine List.pairwise_append.mpr ⟨h.sorted, h'.sorted, fun a ha b hb => ?_⟩
    exact lt_of_lt_of_le (h.above a ha).2 (h'.above b hb).1
  above := by
    intro n hn
    rcases List.mem_append.mp hn with hn | hn
    · exact ⟨(h.above n hn).1, lt_of_lt_of_le (h.above n hn).2 h'.next⟩
    · exact ⟨le_trans h.next (h'.above n hn).1, (h'.above n hn).2⟩
  next := le_trans h.next h'.next
  old := fun n hn => (h'.old n (lt_of_lt_of_le hn h.next)).trans (h.old n hn)
  tables := by
    rw [List.filterMap_append, h'.tables, ← h.tables]
    refine congrArg (· ++ ts') (List.filterMap_congr fun n hn => ?_)
    exact h'.old n (h.above n hn).2

/-- One log is put away, and its table, if it has one, gets the next number. -/
theorem convertLogToTable_extends (o : Options) (r : Repairer) (log : Nat) :
    (∃ ns, Extends r (r.convertLogToTable o log) ns
        ((r.disk.logs.lookup log).bind logTable).toList)
      ∧ ∀ n, (r.convertLogToTable o log).disk.logs.lookup n
          = if n = log then none else r.disk.logs.lookup n := by
  rw [Repairer.convertLogToTable]
  cases hlog : r.disk.logs.lookup log with
  | none =>
    refine ⟨⟨[], Extends.refl r⟩, fun n => ?_⟩
    by_cases hn : n = log
    · rw [if_pos hn, hn]
      exact hlog
    · rw [if_neg hn]
  | some file =>
    have herase : ∀ n, (r.disk.logs.erase log).lookup n
        = if n = log then none else r.disk.logs.lookup n := by
      intro n
      by_cases hn : n = log
      · rw [if_pos hn, hn]
        exact AList.lookup_erase _ _
      · rw [if_neg hn]
        exact AList.lookup_erase_ne hn
    simp only [Option.bind_some, logTable]
    rcases buildTable_eq o r.nextFileNumber (replayLog file).table
      with ⟨hnil, hbuild⟩ | ⟨hne, f, hbuild⟩
    · rw [hbuild, if_pos hnil]
      refine ⟨⟨[], ⟨(List.append_nil _).symm, List.Pairwise.nil, List.forall_mem_nil _,
        Nat.le_succ _, fun _ _ => rfl, rfl⟩⟩, herase⟩
    · rw [hbuild, if_neg hne]
      refine ⟨⟨[r.nextFileNumber], ⟨rfl, List.pairwise_singleton _ _, fun n hn => ?_,
        Nat.le_succ _, fun n hn => ?_, ?_⟩⟩, herase⟩
      · rw [List.mem_singleton.mp hn]
        exact ⟨Nat.le_refl _, Nat.lt_succ_self _⟩
      · exact Function.update_of_ne (Nat.ne_of_lt hn) _ _
      · exact List.filterMap_cons_some (Function.update_self ..)

/-- **All logs become tables, numbered in the order of the list**, and none is left. -/
theorem convertLogs_extends (o : Options) (logs : List Nat) :
    ∀ r : Repairer, logs.Nodup →
      (∃ ns, Extends r (logs.foldl (Repairer.convertLogToTable o) r) ns
          (logs.filterMap fun n => (r.disk.logs.lookup n).bind logTable))
        ∧ ∀ n, (logs.foldl (Repairer.convertLogToTable o) r).disk.logs.lookup n
            = if n ∈ logs then none else r.disk.logs.lookup n := by
  induction logs with
  | nil =>
    intro r _
    exact ⟨⟨[], Extends.refl r⟩, fun n => (if_neg List.not_mem_nil).symm⟩
  | cons log logs ih =>
    intro r hnodup
    obtain ⟨hnot, hnodup⟩ := List.nodup_cons.mp hnodup
    obtain ⟨⟨ns, hext⟩, hlogs⟩ := convertLogToTable_extends o r log
    obtain ⟨⟨ns', hext'⟩, hlogs'⟩ := ih (r.convertLogToTable o log) hnodup
    have hsame : (logs.filterMap fun n =>
          ((r.convertLogToTable o log).disk.logs.lookup n).bind logTable)
        = logs.filterMap fun n => (r.disk.logs.lookup n).bind logTable := by
      refine List.filterMap_congr fun n hn => ?_
      rw [hlogs n, if_neg fun heq : n = log => hnot (heq ▸ hn)]
    have hlist : ((log :: logs).filterMap fun n => (r.disk.logs.lookup n).bind logTable)
        = ((r.disk.logs.lookup log).bind logTable).toList
          ++ logs.filterMap fun n => (r.disk.logs.lookup n).bind logTable := by
      rw [List.filterMap_cons]
      cases (r.disk.logs.lookup log).bind logTable <;> rfl
    rw [List.foldl_cons]
    refine ⟨⟨ns ++ ns', ?_⟩, fun n => ?_⟩
    · rw [hlist, ← hsame]
      exact hext.trans hext'
    · rw [hlogs' n, hlogs n]
      by_cases hn : n ∈ logs
      · rw [if_pos hn, if_pos (List.mem_cons_of_mem _ hn)]
      · rw [if_neg hn]
        by_cases heq : n = log
        · rw [if_pos heq, if_pos (heq ▸ List.mem_cons_self)]
        · rw [if_neg heq, if_neg fun hc => (List.mem_cons.mp hc).elim heq hn]

/-- What `scanned` leaves of the directory. -/
theorem scanned_extends (o : Options) (fileSize : Nat → Nat) (d : Disk)
    {children : List (FileType × Nat)} (hnodup : children.Nodup) :
    (∃ ns, Extends (findFiles children d) (scanned o fileSize children d) ns (logTables children d))
      ∧ ∀ n, (scanned o fileSize children d).disk.logs.lookup n
          = if n ∈ numbersOf .logFile children then none else d.logs.lookup n := by
  obtain ⟨-, hlogs, -, hdisk, -⟩ := findFiles_spec children ⟨[], [], [], [], 1, d⟩
  have hd : (findFiles children d).disk = d := hdisk
  have hl : (findFiles children d).logs = numbersOf .logFile children := hlogs
  obtain ⟨⟨ns, hext⟩, hlook⟩ := convertLogs_extends o (findFiles children d).logs
    (findFiles children d) (hl ▸ numbersOf_nodup hnodup .logFile)
  have htables : ((findFiles children d).logs.filterMap fun n =>
      ((findFiles children d).disk.logs.lookup n).bind logTable) = logTables children d := by
    rw [hd, hl, filterMap_numbersOf]
    rfl
  refine ⟨⟨ns, ⟨hext.numbers, hext.sorted, hext.above, hext.next, hext.old,
    hext.tables.trans htables⟩⟩, fun n => ?_⟩
  rw [← hl, ← congrArg Disk.logs hd]
  exact hlook n

/-- **The numbers of the repaired tables, in order.** -/
theorem scanned_inOrder (o : Options) (fileSize : Nat → Nat) (d : Disk)
    {children : List (FileType × Nat)} (hnodup : children.Nodup) :
    ∃ N : List Nat, N.Perm (scanned o fileSize children d).tableNumbers ∧ N.Pairwise (· < ·)
      ∧ N.filterMap (scanned o fileSize children d).disk.tables = tablesInOrder children d := by
  obtain ⟨⟨ns, hext⟩, -⟩ := scanned_extends o fileSize d hnodup
  obtain ⟨htables, -, -, hdisk, -, hlt⟩ := findFiles_spec children ⟨[], [], [], [], 1, d⟩
  have ht : (findFiles children d).tableNumbers = numbersOf .tableFile children := htables
  have hperm := List.perm_insertionSort (· ≤ ·) (numbersOf .tableFile children)
  have hmem : ∀ n ∈ (numbersOf .tableFile children).insertionSort (· ≤ ·),
      n < (findFiles children d).nextFileNumber := fun n hn => hlt n (hperm.mem_iff.mp hn)
  refine ⟨(numbersOf .tableFile children).insertionSort (· ≤ ·) ++ ns, ?_, ?_, ?_⟩
  · rw [hext.numbers, ht]
    exact hperm.append_right ns
  · have hle := List.pairwise_insertionSort (· ≤ ·) (numbersOf .tableFile children)
    have hne := hperm.nodup_iff.mpr (numbersOf_nodup hnodup .tableFile)
    refine List.pairwise_append.mpr ⟨?_, hext.sorted, fun a ha b hb => ?_⟩
    · exact (hle.and hne).imp fun hab => lt_of_le_of_ne hab.1 hab.2
    · exact lt_of_lt_of_le (hmem a ha) (hext.above b hb).1
  · rw [List.filterMap_append, hext.tables, tablesInOrder]
    refine congrArg (· ++ logTables children d) (List.filterMap_congr fun n hn => ?_)
    exact (hext.old n (hmem n hn)).trans (congrFun (congrArg Disk.tables hdisk) n)

/-! ## Reading level 0 -/

/-- The file repair lists for a table. -/
def fileOf (fileSize : Nat → Nat) (p : Nat × Table) : FileMetaData :=
  ofWireFile ⟨p.1, fileSize p.1, encodeOptional (p.2.entries.head?.map (·.key)),
    encodeOptional (p.2.entries.getLast?.map (·.key))⟩

/-- A table of point entries, in order. -/
structure PointTable (t : Table) : Prop where
  ordered : Ordered t.entries
  fits : ∀ e ∈ t.entries, FitsKey e.key
  nonempty : t.entries ≠ []
  points : t.rangeDeletions = []

/-- The bounds of such a file are its first and its last key. -/
theorem fileOf_spec (ht : PointTable t) (fileSize : Nat → Nat) (n : Nat) :
    ∃ a ∈ t.entries, ∃ b ∈ t.entries, fileOf fileSize (n, t) = ⟨n, fileSize n, a.key, b.key⟩
      ∧ (∀ e ∈ t.entries, a.key ≤ e.key ∧ e.key ≤ b.key)
      ∧ t.entries.head? = some a ∧ t.entries.getLast? = some b := by
  obtain ⟨a, ha⟩ : ∃ a, t.entries.head? = some a :=
    Option.isSome_iff_exists.mp (List.isSome_head?.mpr ht.nonempty)
  obtain ⟨b, hb⟩ : ∃ b, t.entries.getLast? = some b :=
    Option.isSome_iff_exists.mp (List.getLast?_isSome.mpr ht.nonempty)
  obtain ⟨ham, hale⟩ := OrderedLists.least_head ht.ordered ha
  obtain ⟨hbm, hbge⟩ := OrderedLists.greatest_last ht.ordered hb
  refine ⟨a, ham, b, hbm, ?_, fun e he => ⟨hale e he, hbge e he⟩, ha, hb⟩
  show (⟨n, fileSize n, parseKey (encodeOptional (t.entries.head?.map (·.key))),
    parseKey (encodeOptional (t.entries.getLast?.map (·.key)))⟩ : FileMetaData) = _
  rw [ha, hb]
  show (⟨n, fileSize n, parseKey (encodeKey a.key), parseKey (encodeKey b.key)⟩ : FileMetaData) = _
  rw [parseKey_encodeKey (ht.fits a ham).1, parseKey_encodeKey (ht.fits b hbm).1]

/-- A file that does not hold the key has no entry for it. -/
theorem newestEntry_of_not_holds (ht : PointTable t) {fileSize : Nat → Nat} {n : Nat}
    {k : Slice} (hout : (fileOf fileSize (n, t)).holds k = false) : newestEntry k t = none := by
  obtain ⟨a, -, b, -, hfile, hbounds, -⟩ := fileOf_spec ht fileSize n
  refine List.find?_eq_none.mpr fun e he hk => ?_
  have hk := of_decide_eq_true hk
  obtain ⟨hlo, hhi⟩ := hbounds e he
  have hholds : (fileOf fileSize (n, t)).holds k = true := by
    rw [hfile, FileMetaData.holds_iff, ← hk]
    exact ⟨InternalKey.userKey_le hlo, InternalKey.userKey_le hhi⟩
  rw [hholds] at hout
  cases hout

instance : Std.Total fun a b : FileMetaData => b.number ≤ a.number :=
  ⟨fun a b => Nat.le_total b.number a.number⟩

instance : IsTrans FileMetaData fun a b => b.number ≤ a.number :=
  ⟨fun _ _ _ hab hbc => le_trans hbc hab⟩

/-- Newest first is the reverse of the order of the numbers. -/
theorem newestFirst_eq {files : List FileMetaData} {L : List (Nat × Table)}
    (hL : L.Pairwise fun p q => p.1 < q.1) {fileSize : Nat → Nat}
    (hfiles : files.Perm (L.map (fileOf fileSize))) (holds : FileMetaData → Bool) :
    (files.filter holds).insertionSort (fun a b => b.number ≤ a.number)
      = (L.reverse.filter fun p => holds (fileOf fileSize p)).map (fileOf fileSize) := by
  have hperm : ((files.filter holds).insertionSort fun a b => b.number ≤ a.number).Perm
      ((L.reverse.filter fun p => holds (fileOf fileSize p)).map (fileOf fileSize)) := by
    refine (List.perm_insertionSort _ _).trans ((hfiles.filter holds).trans ?_)
    rw [List.filter_map]
    exact ((List.reverse_perm L).symm.filter _).map _
  have hsorted : ((L.reverse.filter fun p => holds (fileOf fileSize p)).map (fileOf fileSize)).Pairwise
      fun a b => b.number < a.number := by
    refine List.pairwise_map.mpr (List.Pairwise.filter _ ?_)
    exact List.pairwise_reverse.mpr hL
  refine hperm.eq_of_pairwise (fun a b ha hb hab hba => ?_) (List.pairwise_insertionSort _ _)
    (hsorted.imp le_of_lt)
  have hnodup : (((L.reverse.filter fun p => holds (fileOf fileSize p)).map
      (fileOf fileSize)).map (·.number)).Nodup :=
    List.pairwise_map.mpr (hsorted.imp Nat.ne_of_gt)
  exact List.inj_on_of_nodup_map hnodup (hperm.mem_iff.mp ha) hb (le_antisymm hba hab)

section Answers

variable {fileSize : Nat → Nat} {db : DB} {L : List (Nat × Table)} {s : Nat}

/-- **A database whose tables are all on level 0** answers from the last table that
    has the key. -/
theorem get_level0 (hmem : db.mem = MemTable.empty) (himm : db.imm = none)
    (hlevels : ∀ l, 0 < l → db.current.files l = [])
    (hfiles : (db.current.files 0).Perm (L.map (fileOf fileSize)))
    (hL : L.Pairwise fun p q => p.1 < q.1) (htables : ∀ p ∈ L, db.tables p.1 = p.2)
    (hpoint : ∀ p ∈ L, PointTable p.2)
    (hseq : ∀ p ∈ L, ∀ e ∈ p.2.entries, e.key.sequence ≤ s) (k : Slice) :
    db.get k s
      = ((L.map Prod.snd).reverse.findSome? (newestEntry k)).bind fun e => e.ver.val := by
  have hvisits : db.current.forEachOverlapping k (lookupKey k s)
      = (L.reverse.filter fun p => (fileOf fileSize p).holds k).map
          fun p => (0, fileOf fileSize p) := by
    have hdeeper : ((List.range' 1 (kNumLevels - 1)).filterMap fun level =>
        (visitedAt (db.current.files level) k (lookupKey k s)).map fun f => (level, f)) = [] := by
      refine List.filterMap_eq_nil_iff.mpr fun l hl => ?_
      rw [hlevels l (List.mem_range'_1.mp hl).1]
      rfl
    rw [Version.forEachOverlapping, hdeeper, List.append_nil,
      newestFirst_eq hL hfiles (fun f => f.holds k), List.map_map]
    rfl
  have hanswer : ∀ p ∈ L.reverse, (db.tables (fileOf fileSize p).number).internalGet k s
      = lookupOf (newestEntry k p.2) := by
    intro p hp
    have hp := List.mem_reverse.mp hp
    show (db.tables p.1).internalGet k s = _
    rw [htables p hp]
    exact internalGet_eq (hpoint p hp).ordered (hpoint p hp).points (hseq p hp) k
  have hout : ∀ p ∈ L.reverse, (fileOf fileSize p).holds k = false → newestEntry k p.2 = none :=
    fun p hp hh => newestEntry_of_not_holds (hpoint p (List.mem_reverse.mp hp)) hh
  have hempty : (MemTable.empty.get k s) = .absent := rfl
  rw [DB.get, hmem, himm, hempty, hvisits, List.map_map]
  refine (firstAnswer_filter L.reverse hanswer hout).trans ?_
  rw [← List.map_reverse, List.findSome?_map]
  rfl

end Answers

/-! ## Opening the repaired database -/

/-- The directory of an undamaged database that was written with `Put` and `Delete`
    alone: its tables, and those its logs become, hold point entries and nothing
    else, and every log is listed. -/
structure Undamaged (o : Options) (name : Slice) (fileSize : Nat → Nat)
    (children : List (FileType × Nat)) (d : Disk) : Prop extends
    Intact o name fileSize children d where
  nonempty : ∀ t ∈ contents children d, t.entries ≠ []
  points : ∀ t ∈ contents children d, t.rangeDeletions = []
  logs : ∀ n, d.logs.lookup n ≠ none → (.logFile, n) ∈ children

/-- The tables that are scanned, with their numbers. -/
def numbered (r : Repairer) (numbers : List Nat) : List (Nat × Table) :=
  numbers.filterMap fun n => (r.disk.tables n).map fun t => (n, t)

theorem mem_numbered {r : Repairer} {numbers : List Nat} {p : Nat × Table} :
    p ∈ numbered r numbers ↔ p.1 ∈ numbers ∧ r.disk.tables p.1 = some p.2 := by
  simp only [numbered, List.mem_filterMap, Option.map_eq_some_iff]
  constructor
  · rintro ⟨n, hn, t, ht, rfl⟩
    exact ⟨hn, ht⟩
  · rintro ⟨hn, ht⟩
    exact ⟨p.1, hn, p.2, ht, rfl⟩

theorem numbered_snd (r : Repairer) (numbers : List Nat) :
    (numbered r numbers).map Prod.snd = numbers.filterMap r.disk.tables := by
  rw [numbered, List.map_filterMap]
  refine List.filterMap_congr fun n _ => ?_
  cases r.disk.tables n <;> rfl

theorem numbered_fst_sublist (r : Repairer) (numbers : List Nat) :
    ((numbered r numbers).map Prod.fst).Sublist numbers := by
  rw [numbered, List.map_filterMap]
  induction numbers with
  | nil => exact List.Sublist.slnil
  | cons n numbers ih =>
    rw [List.filterMap_cons]
    cases r.disk.tables n with
    | none => exact ih.cons n
    | some t => exact ih.cons_cons n

section Opened

variable {o : Options} {name : Slice} {fileSize : Nat → Nat} {children : List (FileType × Nat)}
variable {d : Disk}

theorem Undamaged.pointTable (h : Undamaged o name fileSize children d)
    (ht : t ∈ contents children d) : PointTable t :=
  ⟨h.toIntact.ordered t ht, h.keys t ht, h.nonempty t ht, h.points t ht⟩

/-- The numbered tables are those of the directory. -/
theorem Undamaged.numbered (h : Undamaged o name fileSize children d) {p : Nat × Table}
    (hp : p ∈ numbered (scanned o fileSize children d) (scanned o fileSize children d).tableNumbers) :
    p.2 ∈ contents children d :=
  (mem_contents h.toIntact p.2).mpr ⟨p.1, mem_numbered.mp hp⟩

/-- The edit of the descriptor, with its keys parsed. -/
def parsedEdit (o : Options) (name : Slice) (fileSize : Nat → Nat)
    (children : List (FileType × Nat)) (d : Disk) : VersionEdit :=
  ofWire ((scanned o fileSize children d).edit name)

/-- The files of the edit. -/
theorem parsedEdit_newFiles : (parsedEdit o name fileSize children d).newFiles
    = (numbered (scanned o fileSize children d) (scanned o fileSize children d).tableNumbers).map
        fun p => (0, fileOf fileSize p) := by
  show ((((scanned o fileSize children d).tableNumbers.filterMap fun n =>
    ((scanned o fileSize children d).disk.tables n).map (scanTable n (fileSize n))).map _).map _) = _
  rw [LdbRepairReads.numbered, List.map_filterMap, List.map_filterMap, List.map_filterMap]
  refine List.filterMap_congr fun n _ => ?_
  cases (scanned o fileSize children d).disk.tables n <;> rfl

/-- No file has two numbers. -/
theorem tableNumbers_nodup (hnodup : children.Nodup) :
    (scanned o fileSize children d).tableNumbers.Nodup := by
  obtain ⟨N, hperm, hsorted, -⟩ := scanned_inOrder o fileSize d hnodup
  exact hperm.nodup_iff.mp (hsorted.imp Nat.ne_of_lt)

/-- The edit repair writes is the parsed one, encoded. -/
theorem toWire_parsedEdit (h : Undamaged o name fileSize children d) :
    toWire (parsedEdit o name fileSize children d)
      = (scanned o fileSize children d).edit name := by
  have hfiles : (toWire (parsedEdit o name fileSize children d)).newFiles
      = ((scanned o fileSize children d).edit name).newFiles := by
    show (((scanned o fileSize children d).edit name).newFiles.map _).map _ = _
    rw [List.map_map]
    refine (List.map_congr_left fun p hp => ?_).trans (List.map_id _)
    obtain ⟨n, hn, t, ht, rfl⟩ := (mem_newFiles name rfl p).mp hp
    have hpoint := h.pointTable ((mem_contents h.toIntact t).mpr ⟨n, hn, ht⟩)
    obtain ⟨a, -, b, -, hfile, -, ha, hb⟩ := fileOf_spec hpoint fileSize n
    show (0, toWireFile (fileOf fileSize (n, t))) = _
    rw [hfile, ha, hb]
    rfl
  rw [toWire] at hfiles ⊢
  simp only at hfiles
  rw [hfiles]
  rfl

theorem readable_parsedEdit (h : Undamaged o name fileSize children d) :
    Readable name (parsedEdit o name fileSize children d) := by
  refine ⟨⟨?_, ?_, ?_, ?_, ?_, ?_, ?_, ?_, List.Pairwise.nil⟩, ?_⟩
  · intro c hc
    cases hc
    exact h.name
  · intro n hn
    cases hn
    decide
  · nofun
  · intro n hn
    cases hn
    exact h.next
  · intro n hn
    cases hn
    rcases (lastSequence_spec (r := scanned o fileSize children d) rfl).2
      with h0 | ⟨n, hn, t, ht, e, he, hseq⟩
    · rw [h0]
      decide
    · have hle : e.key.sequence ≤ 2 ^ 56 - 1 :=
        (h.keys t ((mem_contents h.toIntact t).mpr ⟨n, hn, ht⟩) e he).1
      rw [hseq]
      omega
  · nofun
  · nofun
  · intro p hp
    rw [parsedEdit_newFiles] at hp
    obtain ⟨⟨n, t⟩, hmem, rfl⟩ := List.mem_map.mp hp
    have hpoint := h.pointTable (h.numbered hmem)
    obtain ⟨a, ha, b, hb, hfile, -⟩ := fileOf_spec hpoint fileSize n
    have hnumber : n < 2 ^ 64 := lt_trans
      ((scanned_tables o fileSize d h.nodup).2.1 n (mem_numbered.mp hmem).1) h.next
    rw [hfile]
    exact ⟨show 0 < kNumLevels by decide, hnumber, h.sizes n, hpoint.fits a ha, hpoint.fits b hb⟩
  · intro c hc
    cases hc
    rfl

/-- The version of the repaired database. -/
def repairedVersion (o : Options) (name : Slice) (fileSize : Nat → Nat)
    (children : List (FileType × Nat)) (d : Disk) : Version :=
  applyEdit Version.empty (parsedEdit o name fileSize children d)

theorem fresh_parsedEdit (hnodup : children.Nodup) :
    Fresh (Builder.new Version.empty) (parsedEdit o name fileSize children d) := by
  refine ⟨fun level => ?_, nofun⟩
  have hsub : (((parsedEdit o name fileSize children d).addedAt level).map (·.number)).Sublist
      (scanned o fileSize children d).tableNumbers := by
    refine List.Sublist.trans ?_ (numbered_fst_sublist (scanned o fileSize children d) _)
    rw [VersionEdit.addedAt, List.map_map, parsedEdit_newFiles, List.filter_map, List.map_map]
    exact (List.filter_sublist ..).map Prod.fst
  exact (tableNumbers_nodup hnodup).sublist hsub

theorem mem_repairedVersion (hnodup : children.Nodup) {l : Nat} {f : FileMetaData} :
    f ∈ (repairedVersion o name fileSize children d).files l
      ↔ l = 0 ∧ f ∈ (numbered (scanned o fileSize children d)
          (scanned o fileSize children d).tableNumbers).map (fileOf fileSize) := by
  have hnew : Fresh (Builder.new Version.empty) (parsedEdit o name fileSize children d) :=
    fresh_parsedEdit hnodup
  rw [repairedVersion, mem_applyEdit (inStep_new.freshFor hnew), parsedEdit_newFiles]
  simp only [List.mem_map, Prod.mk.injEq]
  constructor
  · rintro (⟨hf, -⟩ | ⟨p, hp, rfl, rfl⟩)
    · cases hf
    · exact ⟨rfl, p, hp, rfl⟩
  · rintro ⟨rfl, p, hp, rfl⟩
    exact Or.inr ⟨p, hp, rfl, rfl⟩

/-- **All files of the repaired database are on level 0.** -/
theorem repairedVersion_files (hnodup : children.Nodup) :
    (∀ l, 0 < l → (repairedVersion o name fileSize children d).files l = [])
      ∧ ((repairedVersion o name fileSize children d).files 0).Perm
          ((numbered (scanned o fileSize children d)
            (scanned o fileSize children d).tableNumbers).map (fileOf fileSize)) := by
  have hnew : Fresh (Builder.new Version.empty) (parsedEdit o name fileSize children d) :=
    fresh_parsedEdit hnodup
  refine ⟨fun l hl => List.eq_nil_iff_forall_not_mem.mpr fun f hf => ?_, ?_⟩
  · exact Nat.ne_of_gt hl ((mem_repairedVersion hnodup).mp hf).1
  · have hsorted := (inStep_new.apply hnew).current 0
    refine (List.perm_ext_iff_of_nodup hsorted.nodup ?_).mpr fun f => ?_
    · refine List.Nodup.of_map (·.number) ?_
      rw [List.map_map]
      exact (tableNumbers_nodup hnodup).sublist (numbered_fst_sublist _ _)
    · exact (mem_repairedVersion hnodup).trans ⟨And.right, fun hf => ⟨rfl, hf⟩⟩

/-- The directory repair leaves. -/
def repaired (o : Options) (name : Slice) (fileSize : Nat → Nat)
    (children : List (FileType × Nat)) (d : Disk) : Disk :=
  (scanned o fileSize children d).writeDescriptor name

theorem repairDB_eq (hne : children ≠ []) :
    repairDB o name fileSize children d = (.ok, repaired o name fileSize children d) :=
  if_neg hne

section

variable (h : Undamaged o name fileSize children d)
include h

/-- The bytes of its MANIFEST. -/
theorem repaired_manifest :
    (repaired o name fileSize children d).manifests.current = some 1
      ∧ (repaired o name fileSize children d).manifests.files 1
        = some (encodeAll 0 ([parsedEdit o name fileSize children d].map encodeTo)) := by
  refine ⟨rfl, ?_⟩
  have hrecord : encodeTo (parsedEdit o name fileSize children d)
      = ((scanned o fileSize children d).edit name).encodeTo := by
    rw [encodeTo, toWire_parsedEdit h]
  obtain ⟨w, -, hadd⟩ := after_new.addRecord ((scanned o fileSize children d).edit name).encodeTo
  have hfile : (Writer.new.addRecord ⟨[], []⟩
      ((scanned o fileSize children d).edit name).encodeTo).2.2.contents
      = encodeAll 0 [((scanned o fileSize children d).edit name).encodeTo] :=
    congrArg (fun x => x.2.2.contents) hadd
  rw [repaired, Repairer.writeDescriptor, hfile, List.map_singleton, hrecord]
  exact Manifests.put_files
    ((scanned o fileSize children d).manifests.foldl (fun m n => m.remove n)
      (scanned o fileSize children d).disk.manifests) 1 _

/-- What `VersionSet::Recover` makes of it. -/
theorem recover_repaired (mo : ManifestOptions) :
    ∃ vs save, VersionSet.new.recover mo name (repaired o name fileSize children d).manifests
        = (.ok, vs, save)
      ∧ vs.current = repairedVersion o name fileSize children d
      ∧ vs.lastSequence
        = (scanned o fileSize children d).tables.foldl (fun m t => max m t.maxSequence) 0
      ∧ (save = true → vs.descriptorLog = none) := by
  obtain ⟨hcurrent, hbytes⟩ := repaired_manifest h
  have hread : ∀ e ∈ [parsedEdit o name fileSize children d], Readable name e := by
    intro e he
    rw [List.mem_singleton.mp he]
    exact readable_parsedEdit h
  have hnew : Fresh (Builder.new Version.empty) (parsedEdit o name fileSize children d) :=
    fresh_parsedEdit h.nodup
  have hsaved : (recovered [parsedEdit o name fileSize children d]).current
      = repairedVersion o name fileSize children d := (inStep_new.apply hnew).saveTo
  have hrecover : VersionSet.new.recover mo name (repaired o name fileSize children d).manifests
      = (.ok, ((recovered [parsedEdit o name fileSize children d]).reuseManifest mo 1
          (encodeAll 0 ([parsedEdit o name fileSize children d].map encodeTo))).2,
        !((recovered [parsedEdit o name fileSize children d]).reuseManifest mo 1
          (encodeAll 0 ([parsedEdit o name fileSize children d].map encodeTo))).1) := by
    rw [VersionSet.recover]
    simp only [hcurrent, hbytes, replay_eq hread]
    rfl
  refine ⟨_, _, hrecover, ?_⟩
  rcases reuseManifest_cases mo (recovered [parsedEdit o name fileSize children d]) 1
    (encodeAll 0 ([parsedEdit o name fileSize children d].map encodeTo)) with heq | heq
  · rw [heq]
    exact ⟨hsaved, rfl, fun _ => rfl⟩
  · rw [heq]
    exact ⟨hsaved, rfl, Bool.noConfusion⟩

omit h in
/-- A new MANIFEST does not change the files. -/
theorem logAndApply_current {vs : VersionSet} (hnone : vs.descriptorLog = none)
    (disk : Manifests) {edit : VersionEdit} (hnew : edit.newFiles = [])
    (hdel : edit.deletedFiles = []) :
    (vs.logAndApply name {} disk edit).2.1.current = vs.current
      ∧ (vs.logAndApply name {} disk edit).2.1.lastSequence = vs.lastSequence := by
  obtain ⟨w, hw, hsnapshot⟩ := after_new.addRecord (encodeTo ((pointed vs edit).snapshot name))
  obtain ⟨w', -, hrecord⟩ := hw.addRecord (encodeTo (vs.complete edit))
  rw [logAndApply_new hnone hsnapshot hrecord]
  exact ⟨LdbRunning.applyEdit_noFiles hnew hdel, rfl⟩

omit h in
theorem manifestOps_tables (vs : VersionSet) (disk : Manifests) (edit : VersionEdit) (d : Disk) :
    (d.applyAll (manifestOps name vs disk edit)).tables = d.tables := by
  rw [manifestOps]
  cases vs.descriptorLog <;> rfl

/-- No log is left for `DBImpl::Recover`, and no file is missing. -/
theorem repaired_complete :
    (∀ vs, (repaired o name fileSize children d).neededLogs vs = [])
      ∧ (repaired o name fileSize children d).missing
          (repairedVersion o name fileSize children d) = [] := by
  constructor
  · intro vs
    have hkeys : (repaired o name fileSize children d).logs.keys = [] := by
      refine List.eq_nil_iff_forall_not_mem.mpr fun n hn => ?_
      have hlook : (repaired o name fileSize children d).logs.lookup n = none := by
        refine ((scanned_extends o fileSize d h.nodup).2 n).trans ?_
        by_cases hlog : n ∈ numbersOf .logFile children
        · exact if_pos hlog
        · rw [if_neg hlog]
          by_contra hsome
          exact hlog (List.mem_filterMap.mpr ⟨(.logFile, n), h.logs n hsome, if_pos rfl⟩)
      exact AList.lookup_eq_none.mp hlook (AList.mem_keys.mpr hn)
    rw [Disk.neededLogs, hkeys]
    rfl
  · rw [Disk.missing, List.filter_eq_nil_iff.mpr]
    · rfl
    · intro n hn
      obtain ⟨l, -, hn⟩ := List.mem_flatMap.mp hn
      obtain ⟨f, hf, rfl⟩ := List.mem_map.mp hn
      obtain ⟨p, hp, rfl⟩ := List.mem_map.mp ((mem_repairedVersion h.nodup).mp hf).2
      have htable : (repaired o name fileSize children d).tables p.1 = some p.2 :=
        (mem_numbered.mp hp).2
      intro hc
      cases htable.symm.trans (of_decide_eq_true hc).1

/-- **The repaired database opens**, with the version of the descriptor, no entry in
    its memtable, and its tables as repair left them. -/
theorem open_repaired (ro : RecoveryOptions) :
    ∃ s, openDB ⟨o, ro⟩ name (repaired o name fileSize children d) = s
      ∧ s.status = .ok ∧ s.mem = some MemTable.empty
      ∧ s.vs.current = repairedVersion o name fileSize children d
      ∧ s.vs.lastSequence
        = (scanned o fileSize children d).tables.foldl (fun m t => max m t.maxSequence) 0
      ∧ ((repaired o name fileSize children d).applyAll s.ops).tables
        = (repaired o name fileSize children d).tables := by
  obtain ⟨vs, save, hrecover, hcurrent, hseq, hsave⟩ :=
    recover_repaired h (⟨o, ro⟩ : OpenOptions).manifest
  obtain ⟨hlogs, hmissing⟩ := repaired_complete h
  have hrec : recover ⟨o, ro⟩ name (repaired o name fileSize children d)
      = ⟨.ok, vs, {}, save, 0, none, 0, Writer.new, []⟩ := by
    rw [recover, hrecover]
    simp only
    rw [if_neg (fun hc => hc rfl), hcurrent, if_neg (fun hc => hc hmissing), hlogs]
    exact if_neg fun hc => Nat.not_lt_zero _ hc.2
  refine ⟨_, rfl, ?_⟩
  rw [openDB, hrec]
  simp only [if_true]
  cases save with
  | false => exact ⟨rfl, rfl, hcurrent, hseq, rfl⟩
  | true =>
    have hkeep := @logAndApply_current name vs.newFileNumber.2 (hsave rfl)
      (repaired o name fileSize children d).manifests
      { ({} : VersionEdit) with prevLogNumber := some 0, logNumber := some vs.nextFileNumber }
      rfl rfl
    refine ⟨rfl, rfl, hkeep.1.trans hcurrent, hkeep.2.trans hseq, ?_⟩
    exact manifestOps_tables vs.newFileNumber.2 (repaired o name fileSize children d).manifests _
      ((repaired o name fileSize children d).apply (.putLog vs.nextFileNumber []))

end

/-- The process that has the repaired database open. -/
def reopened (o : OpenOptions) (name : Slice) (d : Disk) : Process :=
  (openDB o name d).process (d.applyAll (openDB o name d).ops)

/-- **What `Get` returns after a repair**: the newest entry of the last file that has
    the key. -/
theorem get_repaired (h : Undamaged o name fileSize children d) (ro : RecoveryOptions) (k : Slice) :
    (reopened ⟨o, ro⟩ name (repaired o name fileSize children d)).db.get k
        (reopened ⟨o, ro⟩ name (repaired o name fileSize children d)).db.lastSequence
      = (lastEntry children d k).bind fun e => e.ver.val := by
  obtain ⟨s, hs, -, hmem, hcurrent, hseq, htables⟩ := open_repaired h ro
  obtain ⟨N, hperm, hsorted, hN⟩ := scanned_inOrder o fileSize d h.nodup
  obtain ⟨hlevels, hfiles⟩ := @repairedVersion_files o name fileSize children d h.nodup
  rw [reopened, hs]
  have hnumbered : ∀ p ∈ numbered (scanned o fileSize children d) N,
      p.1 ∈ (scanned o fileSize children d).tableNumbers
        ∧ (scanned o fileSize children d).disk.tables p.1 = some p.2 := by
    intro p hp
    obtain ⟨hn, ht⟩ := mem_numbered.mp hp
    exact ⟨hperm.mem_iff.mp hn, ht⟩
  rw [lastEntry, ← hN, ← numbered_snd]
  refine @get_level0 fileSize _ _ _ ?_ rfl ?_ ?_ ?_ ?_ ?_ ?_ k
  · show s.mem.getD MemTable.empty = _
    rw [hmem]
    rfl
  · intro l hl
    show s.vs.current.files l = []
    rw [hcurrent]
    exact hlevels l hl
  · show (s.vs.current.files 0).Perm _
    rw [hcurrent]
    exact hfiles.trans ((hperm.symm.filterMap _).map _)
  · have hfst : ((numbered (scanned o fileSize children d) N).map Prod.fst).Pairwise (· < ·) :=
      hsorted.sublist (numbered_fst_sublist _ _)
    exact List.pairwise_map.mp hfst
  · intro p hp
    show (((repaired o name fileSize children d).applyAll s.ops).tables p.1).getD _ = _
    rw [htables]
    show ((scanned o fileSize children d).disk.tables p.1).getD _ = _
    rw [(hnumbered p hp).2]
    rfl
  · intro p hp
    exact h.pointTable ((mem_contents h.toIntact p.2).mpr ⟨p.1, hnumbered p hp⟩)
  · intro p hp e he
    show e.key.sequence ≤ s.vs.lastSequence
    rw [hseq]
    exact (lastSequence_spec rfl).1 p.1 (hnumbered p hp).1 p.2 (hnumbered p hp).2 e he

/-- **When repair keeps every read**: just when for every key the newest entry of the
    last file that has it, tables in the order of their numbers and then the logs as
    they are listed, is what `Get` found before. -/
theorem repair_keeps_gets_iff (h : Undamaged o name fileSize children d) (hne : children ≠ [])
    (ro : RecoveryOptions) (db : DB) :
    (repairDB o name fileSize children d).1 = .ok
      ∧ (openDB ⟨o, ro⟩ name (repairDB o name fileSize children d).2).status = .ok
      ∧ ((∀ k, (reopened ⟨o, ro⟩ name (repairDB o name fileSize children d).2).db.get k
              (reopened ⟨o, ro⟩ name (repairDB o name fileSize children d).2).db.lastSequence
            = db.get k db.lastSequence)
        ↔ ∀ k, ((lastEntry children d k).bind fun e => e.ver.val) = db.get k db.lastSequence) := by
  rw [repairDB_eq hne]
  obtain ⟨s, hs, hstatus, -⟩ := open_repaired h ro
  refine ⟨rfl, hs ▸ hstatus, forall_congr' fun k => ?_⟩
  rw [get_repaired h ro k]

end Opened

/-! ## Two databases -/

/-- The directory of a sample after a repair. -/
def sampleRepaired (children : List (FileType × Nat)) (d : Disk) : Disk :=
  (repairDB LdbCrash.sampleOptions.db [108] (fun _ => 1) children d).2

/-- The database opened on it. -/
def sampleReopened (children : List (FileType × Nat)) (d : Disk) : DB :=
  (reopened ⟨LdbCrash.sampleOptions.db, LdbCrash.sampleOptions.recovery⟩ [108]
    (sampleRepaired children d)).db

theorem firstAnswer_absent {l : List (Lookup Slice)} (h : ∀ r ∈ l, r = .absent) :
    firstAnswer l = none := by
  induction l with
  | nil => rfl
  | cons r l ih =>
    obtain ⟨hr, hl⟩ := List.forall_mem_cons.mp h
    rw [hr]
    exact ih hl

/-- The entries are of keys in `K`, and there is no tombstone. -/
def PointsIn (K : List Slice) (es : List Entry) (dels : List RangeDeletion) : Prop :=
  dels = [] ∧ ∀ e ∈ es, e.key.userKey ∈ K

instance (K : List Slice) (es : List Entry) (dels : List RangeDeletion) :
    Decidable (PointsIn K es dels) := inferInstanceAs (Decidable (_ ∧ _))

section Absent

variable {K : List Slice} {k : Slice} (hk : k ∉ K)
include hk

/-- A memtable has no answer for a key that none of its entries has. -/
theorem PointsIn.memTable_get {m : MemTable} (h : PointsIn K m.table m.rangeDeletions) (s : Nat) :
    m.get k s = .absent := by
  rw [MemTable.get, h.1]
  cases hes : seekEntries (lookupKey k s) m.table with
  | nil => rfl
  | cons e rest =>
    have he : e ∈ m.table :=
      (List.dropWhile_sublist _).subset (hes ▸ List.mem_cons_self : e ∈ seekEntries _ _)
    have hne : userCompare e.key.userKey k ≠ .eq := fun hc => hk (userCompare_eq.mp hc ▸ h.2 e he)
    rw [MemTable.getLoop, if_neg hne]
    rfl

/-- Nor has a table. -/
theorem PointsIn.table_internalGet {t : Table} (h : PointsIn K t.entries t.rangeDeletions) (s : Nat) :
    t.internalGet k s = .absent := by
  rw [Table.internalGet, h.1]
  cases hes : (seekEntries (lookupKey k s) t.entries).head? with
  | none => rfl
  | some e =>
    have he : e ∈ t.entries := (List.dropWhile_sublist _).subset (List.mem_of_head? hes)
    have hne : e.key.userKey ≠ k := fun hek => hk (hek ▸ h.2 e he)
    exact if_neg hne

/-- A key that no entry has is not found. -/
theorem get_of_absent {db : DB} (hmem : PointsIn K db.mem.table db.mem.rangeDeletions)
    (himm : db.imm = none)
    (hfiles : ∀ l < kNumLevels, ∀ f ∈ db.current.files l,
      PointsIn K (db.tables f.number).entries (db.tables f.number).rangeDeletions)
    (s : Nat) : db.get k s = none := by
  rw [DB.get, himm]
  refine firstAnswer_absent (List.forall_mem_cons.mpr
    ⟨hmem.memTable_get hk s, List.forall_mem_map.mpr fun p hp => ?_⟩)
  obtain ⟨l, f⟩ := p
  rcases mem_forEachOverlapping.mp hp with ⟨rfl, hf, -⟩ | ⟨-, hl, hat⟩
  · exact (hfiles 0 (by decide) f hf).table_internalGet hk s
  · exact (hfiles l hl f (mem_of_visitedAt hat)).table_internalGet hk s

end Absent

/-- The files of the first sample. -/
def flushedFiles : List (FileType × Nat) :=
  [(.descriptorFile, 2), (.logFile, 4), (.tableFile, 5)]

/-- The keys of the first sample. -/
def sampleKeys : List Slice := [[1], [2], [3]]

/-- What the first sample holds: its reads and its files concern `sampleKeys`, and the
    directory is in order. -/
def FlushedSample (p : LdbDurable.Process) (d : LdbDurable.Disk) : Prop :=
  (p.inflight = none ∧ p.db.imm = none
    ∧ PointsIn sampleKeys p.db.mem.table p.db.mem.rangeDeletions
    ∧ (∀ l < kNumLevels, ∀ f ∈ p.db.current.files l,
        PointsIn sampleKeys (p.db.tables f.number).entries (p.db.tables f.number).rangeDeletions)
    ∧ ∀ k ∈ sampleKeys, ((lastEntry flushedFiles d k).bind fun e => e.ver.val)
        = p.db.get k p.db.lastSequence)
  ∧ d.logs.keys = [4]
    ∧ (∀ t ∈ tablesInOrder flushedFiles d, PointsIn sampleKeys t.entries t.rangeDeletions)
    ∧ (∀ t ∈ contents flushedFiles d, Sorted t.entries ∧ (∀ e ∈ t.entries, FitsKey e.key)
        ∧ t.entries ≠ [] ∧ t.rangeDeletions = [])
    ∧ (scanned LdbCrash.sampleOptions.db (fun _ => 1) flushedFiles d).nextFileNumber < 2 ^ 64

instance (p : LdbDurable.Process) (d : LdbDurable.Disk) : Decidable (FlushedSample p d) :=
  inferInstanceAs (Decidable (_ ∧ _))

/-- The first sample: two keys are in a table; one of them is deleted, and a third is
    written, in the log alone. -/
theorem flushed_sample :
    ∃ p d, LdbDurable.Reach LdbCrash.sampleOptions.db [108] p d
        [.put [1] [7], .put [2] [9], .delete [1], .put [3] [8]]
      ∧ FlushedSample p d := by
  have hsample : (LdbCrash.sampleRun [.appendLog [.put [1] [7], .put [2] [9]], .insertBatch,
      .switchMemTable, .buildTable, .installTable, .removeLog 3, .appendLog [.delete [1], .put [3] [8]],
      .insertBatch]).any (fun q => decide
        (q.2.2 = [.put [1] [7], .put [2] [9], .delete [1], .put [3] [8]]
        ∧ FlushedSample q.1 q.2.1)) = true := by
    decide +kernel
  obtain ⟨⟨p, d, h⟩, hrun, hcheck⟩ := (Option.any_eq_true _ _).mp hsample
  obtain ⟨hh, hholds⟩ := of_decide_eq_true hcheck
  have hreach := LdbCrash.reach_sampleRun hrun
  simp only at hh
  rw [hh] at hreach
  exact ⟨p, d, hreach, hholds⟩

/-- It is read after the repair as before. -/
theorem repair_keeps_gets_flushed :
    ∃ p d, LdbDurable.Reach LdbCrash.sampleOptions.db [108] p d
        [.put [1] [7], .put [2] [9], .delete [1], .put [3] [8]]
      ∧ p.inflight = none
      ∧ Undamaged LdbCrash.sampleOptions.db [108] (fun _ => 1) flushedFiles d
      ∧ ∀ k, (sampleReopened flushedFiles d).get k (sampleReopened flushedFiles d).lastSequence
          = p.db.get k p.db.lastSequence := by
  obtain ⟨p, d, hreach, ⟨hidle, himm, hmem, hfiles, hgets⟩, hkeys, htables, hcontents, hnext⟩ :=
    flushed_sample
  have hintact : Undamaged LdbCrash.sampleOptions.db [108] (fun _ => 1) flushedFiles d :=
    { nodup := by decide
      sorted := fun t ht => (hcontents t (List.mem_append_left _ ht)).1
      keys := fun t ht => (hcontents t ht).2.1
      name := by decide
      next := hnext
      sizes := fun _ => by decide
      nonempty := fun t ht => (hcontents t ht).2.2.1
      points := fun t ht => (hcontents t ht).2.2.2
      logs := fun n hn => by
        have hmem : n ∈ d.logs.keys := by
          by_contra hc
          exact hn (AList.lookup_eq_none.mpr fun hin => hc (AList.mem_keys.mp hin))
        rw [hkeys] at hmem
        rw [List.mem_singleton.mp hmem]
        decide }
  refine ⟨p, d, hreach, hidle, hintact, ?_⟩
  unfold sampleReopened sampleRepaired
  refine (repair_keeps_gets_iff hintact (List.cons_ne_nil _ _) LdbCrash.sampleOptions.recovery
    p.db).2.2.mpr fun k => ?_
  by_cases hk : k ∈ sampleKeys
  · exact hgets k hk
  · have hlast : lastEntry flushedFiles d k = none := by
      refine List.findSome?_eq_none_iff.mpr fun t ht => List.find?_eq_none.mpr fun e he hek => hk ?_
      rw [← of_decide_eq_true hek]
      exact (htables t (List.mem_reverse.mp ht)).2 e he
    rw [hlast, get_of_absent hk hmem himm hfiles]
    rfl

/-- The files of the second sample: an empty log, the table of a flush, and the
    output of the compaction that was running meanwhile. -/
def nestedFiles : List (FileType × Nat) :=
  [(.otherFile, 0), (.descriptorFile, 2), (.logFile, 6), (.tableFile, 7), (.tableFile, 8)]

/-- A key is written and flushed, written again, and flushed while a compaction of
    the first table runs; the output gets the larger number.  Before the repair `Get`
    returns the second value, after it the first. -/
theorem nested_flush_stale :
    ∃ p d, LdbDurable.Reach LdbCrash.sampleOptions.db [108] p d [.put [1] [7], .put [1] [8]]
      ∧ p.inflight = none ∧ p.db.imm = none ∧ p.db.running = none
      ∧ d.logs.keys = [6] ∧ (∀ n < p.db.nextFileNumber, (d.tables n).isSome = true ↔ n = 7 ∨ n = 8)
      ∧ p.db.get [1] p.db.lastSequence = some [8]
      ∧ (openDB LdbCrash.sampleOptions [108] (sampleRepaired nestedFiles d)).status = .ok
      ∧ (sampleReopened nestedFiles d).get [1] (sampleReopened nestedFiles d).lastSequence
        = some [7] := by
  have hsample : (LdbCrash.sampleRun [.appendLog [.put [1] [7]], .insertBatch, .switchMemTable,
      .buildTable, .installTable, .appendLog [.put [1] [8]], .insertBatch,
      .manualCompaction 2 none none false, .switchMemTable, .buildTable, .installTable,
      .openOutput, .finishOutput 0, .installResults, .removeTable 5, .removeLog 3, .removeLog 4,
      .removeManifest 1]).any (fun q => decide
        (q.2.2 = [.put [1] [7], .put [1] [8]] ∧ q.1.inflight = none ∧ q.1.db.imm = none
          ∧ q.1.db.running = none ∧ q.2.1.logs.keys = [6]
          ∧ (∀ n < q.1.db.nextFileNumber, (q.2.1.tables n).isSome = true ↔ n = 7 ∨ n = 8)
          ∧ q.1.db.get [1] q.1.db.lastSequence = some [8]
          ∧ (openDB LdbCrash.sampleOptions [108] (sampleRepaired nestedFiles q.2.1)).status = .ok
          ∧ (sampleReopened nestedFiles q.2.1).get [1]
              (sampleReopened nestedFiles q.2.1).lastSequence = some [7])) = true := by
    decide +kernel
  obtain ⟨⟨p, d, h⟩, hrun, hcheck⟩ := (Option.any_eq_true _ _).mp hsample
  obtain ⟨hh, hrest⟩ := of_decide_eq_true hcheck
  have hreach := LdbCrash.reach_sampleRun hrun
  simp only at hh
  rw [hh] at hreach
  exact ⟨p, d, hreach, hrest⟩

end LdbRepairReads
