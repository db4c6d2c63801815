import LevelDB.Repair

/-! # What repair writes into the descriptor

    Repair looks at the point entries of the tables alone.  The descriptor it writes
    can be read, and covers what the tables hold, just when every table has a point
    entry, its tombstones lie between its point keys, and no tombstone is newer than
    all point entries. -/

namespace LdbRepairScan

open LdbFormat LdbCoding LdbVersion LdbEdit LdbEditCodec LdbLog LdbTable LdbVersionSet LdbDurable
open LdbRepair

/-! ## The tables repair works on -/

/-- The table a log is turned into, unless it holds nothing. -/
def logTable (file : Slice) : Option Table :=
  if (replayLog file).table = [] then none else some (tableOfAdds (replayLog file).table)

/-- The tables of a directory. -/
def listedTables (children : List (FileType × Nat)) (d : Disk) : List Table :=
  children.filterMap fun c => if c.1 = .tableFile then d.tables c.2 else none

/-- The tables the logs of a directory are turned into. -/
def logTables (children : List (FileType × Nat)) (d : Disk) : List Table :=
  children.filterMap fun c => if c.1 = .logFile then (d.logs.lookup c.2).bind logTable else none

/-- The tables of the repaired database. -/
def contents (children : List (FileType × Nat)) (d : Disk) : List Table :=
  listedTables children d ++ logTables children d

/-- A number of the given kind. -/
def numbersOf (kind : FileType) (children : List (FileType × Nat)) : List Nat :=
  children.filterMap fun c => if c.1 = kind then some c.2 else none

/-! ## The steps of repair -/

/-- `FindFiles` sorts the files by type, and its next number is above those of the
    tables. -/
theorem findFiles_spec (children : List (FileType × Nat)) :
    ∀ r : Repairer,
      (children.foldl Repairer.note r).tableNumbers
          = r.tableNumbers ++ numbersOf .tableFile children
        ∧ (children.foldl Repairer.note r).logs = r.logs ++ numbersOf .logFile children
        ∧ (children.foldl Repairer.note r).manifests
          = r.manifests ++ numbersOf .descriptorFile children
        ∧ (children.foldl Repairer.note r).disk = r.disk
        ∧ r.nextFileNumber ≤ (children.foldl Repairer.note r).nextFileNumber
        ∧ ∀ n ∈ numbersOf .tableFile children,
            n < (children.foldl Repairer.note r).nextFileNumber := by
  induction children with
  | nil =>
    intro r
    refine ⟨?_, ?_, ?_, rfl, Nat.le_refl _, nofun⟩
    · exact (List.append_nil _).symm
    · exact (List.append_nil _).symm
    · exact (List.append_nil _).symm
  | cons c children ih =>
    intro r
    obtain ⟨kind, number⟩ := c
    obtain ⟨htables, hlogs, hmanifests, hdisk, hnext, hlt⟩ := ih (r.note (kind, number))
    rw [List.foldl_cons, htables, hlogs, hmanifests, hdisk]
    cases kind with
    | descriptorFile =>
      exact ⟨rfl, rfl, List.append_assoc .., rfl, hnext, hlt⟩
    | logFile =>
      exact ⟨rfl, List.append_assoc .., rfl, rfl, le_trans (le_max_left ..) hnext, hlt⟩
    | tableFile =>
      refine ⟨List.append_assoc .., rfl, rfl, rfl, le_trans (le_max_left ..) hnext, ?_⟩
      intro n hn
      rcases List.mem_cons.mp hn with rfl | hn
      · exact lt_of_lt_of_le (Nat.lt_succ_self n) (le_trans (le_max_right ..) hnext)
      · exact hlt n hn
    | otherFile =>
      exact ⟨rfl, rfl, rfl, rfl, le_trans (le_max_left ..) hnext, hlt⟩

theorem buildTable_eq (o : Options) (number : Nat) (es : List Entry) :
    (es = [] ∧ buildTable o number es = none)
      ∨ (es ≠ [] ∧ ∃ f, buildTable o number es = some (f, tableOfAdds es)) := by
  rw [buildTable]
  cases es with
  | nil => exact Or.inl ⟨rfl, rfl⟩
  | cons e es =>
    refine Or.inr ⟨List.cons_ne_nil _ _, ?_⟩
    cases hlast : (e :: es).getLast? with
    | none => exact absurd (List.getLast?_eq_none_iff.mp hlast) (List.cons_ne_nil _ _)
    | some last => exact ⟨_, rfl⟩

variable {r : Repairer}

/-- One log: its table, if it has one, is a new file. -/
theorem convertLogToTable_spec (o : Options) (log : Nat)
    (hlt : ∀ n ∈ r.tableNumbers, n < r.nextFileNumber) :
    ((r.convertLogToTable o log).tableNumbers.filterMap (r.convertLogToTable o log).disk.tables
        = r.tableNumbers.filterMap r.disk.tables
          ++ ((r.disk.logs.lookup log).bind logTable).toList)
      ∧ (∀ n ∈ (r.convertLogToTable o log).tableNumbers,
          n < (r.convertLogToTable o log).nextFileNumber)
      ∧ (∀ n, n ≠ log → (r.convertLogToTable o log).disk.logs.lookup n = r.disk.logs.lookup n)
      ∧ (r.convertLogToTable o log).manifests = r.manifests
      ∧ (r.convertLogToTable o log).disk.manifests = r.disk.manifests := by
  rw [Repairer.convertLogToTable]
  cases hlog : r.disk.logs.lookup log with
  | none => exact ⟨(List.append_nil _).symm, hlt, fun n _ => rfl, rfl, rfl⟩
  | some file =>
    have herase : ∀ n, n ≠ log → (r.disk.logs.erase log).lookup n = r.disk.logs.lookup n :=
      fun n hn => AList.lookup_erase_ne hn
    have hkeep : ∀ t, r.tableNumbers.filterMap
        (Function.update r.disk.tables r.nextFileNumber t)
        = r.tableNumbers.filterMap r.disk.tables := by
      intro t
      refine List.filterMap_congr fun n hn => ?_
      exact Function.update_of_ne (Nat.ne_of_lt (hlt n hn)) _ _
    simp only [Option.bind_some, logTable]
    rcases buildTable_eq o r.nextFileNumber (replayLog file).table
      with ⟨hnil, hbuild⟩ | ⟨hne, f, hbuild⟩
    · rw [hbuild, if_pos hnil]
      exact ⟨(List.append_nil _).symm, fun n hn => Nat.lt_succ_of_lt (hlt n hn), herase, rfl, rfl⟩
    · rw [hbuild, if_neg hne]
      refine ⟨?_, ?_, herase, rfl, rfl⟩
      · show (r.tableNumbers ++ [r.nextFileNumber]).filterMap
            (Function.update r.disk.tables r.nextFileNumber (some _)) = _
        rw [List.filterMap_append, hkeep, List.filterMap_cons_some (Function.update_self ..)]
        rfl
      · intro n hn
        rcases List.mem_append.mp hn with hn | hn
        · exact Nat.lt_succ_of_lt (hlt n hn)
        · rw [List.mem_singleton.mp hn]
          exact Nat.lt_succ_self _

/-- **All logs become tables**, after the tables of the directory. -/
theorem convertLogs_spec (o : Options) (logs : List Nat) :
    ∀ {r : Repairer}, logs.Nodup → (∀ n ∈ r.tableNumbers, n < r.nextFileNumber) →
      ((logs.foldl (Repairer.convertLogToTable o) r).tableNumbers.filterMap
          (logs.foldl (Repairer.convertLogToTable o) r).disk.tables
        = r.tableNumbers.filterMap r.disk.tables
          ++ logs.filterMap fun n => (r.disk.logs.lookup n).bind logTable)
      ∧ (∀ n ∈ (logs.foldl (Repairer.convertLogToTable o) r).tableNumbers,
          n < (logs.foldl (Repairer.convertLogToTable o) r).nextFileNumber)
      ∧ (logs.foldl (Repairer.convertLogToTable o) r).manifests = r.manifests
      ∧ (logs.foldl (Repairer.convertLogToTable o) r).disk.manifests = r.disk.manifests := by
  induction logs with
  | nil =>
    intro r _ hlt
    exact ⟨(List.append_nil _).symm, hlt, rfl, rfl⟩
  | cons log logs ih =>
    intro r hnodup hlt
    obtain ⟨hnot, hnodup⟩ := List.nodup_cons.mp hnodup
    obtain ⟨htables, hlt', hlogs, hm, hdm⟩ := convertLogToTable_spec o log hlt
    obtain ⟨htables', hlt'', hm', hdm'⟩ := ih hnodup hlt'
    have hsame : (logs.filterMap fun n =>
          ((r.convertLogToTable o log).disk.logs.lookup n).bind logTable)
        = logs.filterMap fun n => (r.disk.logs.lookup n).bind logTable := by
      refine List.filterMap_congr fun n hn => ?_
      rw [hlogs n fun heq => hnot (heq ▸ hn)]
    rw [List.foldl_cons]
    refine ⟨?_, hlt'', hm'.trans hm, hdm'.trans hdm⟩
    rw [htables', htables, hsame, List.append_assoc, List.filterMap_cons]
    cases (r.disk.logs.lookup log).bind logTable <;> rfl

theorem numbersOf_nodup {children : List (FileType × Nat)} (h : children.Nodup)
    (kind : FileType) : (numbersOf kind children).Nodup := by
  refine List.Nodup.filterMap (fun c c' n hc hc' => ?_) h
  obtain ⟨k, m⟩ := c
  obtain ⟨k', m'⟩ := c'
  simp only [Option.mem_def, Option.ite_none_right_eq_some, Option.some.injEq] at hc hc'
  rw [hc.1, hc.2, hc'.1, hc'.2]

theorem filterMap_numbersOf {α : Type} (kind : FileType) (f : Nat → Option α)
    (children : List (FileType × Nat)) :
    (numbersOf kind children).filterMap f
      = children.filterMap fun c => if c.1 = kind then f c.2 else none := by
  rw [numbersOf, List.filterMap_filterMap]
  refine List.filterMap_congr fun c _ => ?_
  by_cases hk : c.1 = kind
  · rw [if_pos hk, if_pos hk]
    rfl
  · rw [if_neg hk, if_neg hk]
    rfl

section Scanned

variable {o : Options} {fileSize : Nat → Nat} {children : List (FileType × Nat)} {d : Disk}

/-- **The tables that are scanned** are those of the directory and of its logs. -/
theorem scanned_tables (o : Options) (fileSize : Nat → Nat) (d : Disk)
    (hnodup : children.Nodup) :
    ((scanned o fileSize children d).tableNumbers.filterMap
        (scanned o fileSize children d).disk.tables = contents children d)
      ∧ (∀ n ∈ (scanned o fileSize children d).tableNumbers,
          n < (scanned o fileSize children d).nextFileNumber)
      ∧ (scanned o fileSize children d).manifests = numbersOf .descriptorFile children
      ∧ (scanned o fileSize children d).disk.manifests = d.manifests := by
  obtain ⟨htables, hlogs, hmanifests, hdisk, -, hlt⟩ :=
    findFiles_spec children ⟨[], [], [], [], 1, d⟩
  rw [List.nil_append] at htables hlogs hmanifests
  have hlt' : ∀ n ∈ (findFiles children d).tableNumbers,
      n < (findFiles children d).nextFileNumber := by
    intro n hn
    exact hlt n (htables ▸ hn)
  have hconvert := convertLogs_spec o (findFiles children d).logs
    (hlogs ▸ numbersOf_nodup hnodup .logFile) hlt'
  obtain ⟨htabs, hbelow, hm, hdm⟩ := hconvert
  refine ⟨?_, hbelow, hm.trans hmanifests, hdm.trans (congrArg Disk.manifests hdisk)⟩
  refine htabs.trans ?_
  have hd : (findFiles children d).disk = d := hdisk
  have ht : (findFiles children d).tableNumbers = numbersOf .tableFile children := htables
  have hl : (findFiles children d).logs = numbersOf .logFile children := hlogs
  rw [hd, ht, hl, filterMap_numbersOf, filterMap_numbersOf]
  rfl

end Scanned

/-! ## Reading the descriptor -/

/-- A file without a smallest key stops `DecodeFrom`. -/
theorem readField_cleared {level : Nat} {f : WireFile} (hlevel : level < kNumLevels)
    (hnumber : f.number < 2 ^ 64) (hsize : f.fileSize < 2 ^ 64) (hnil : f.smallest = [])
    (rest : Slice) : readField 7 ((Field.newFile level f).body ++ rest) = none := by
  show (getLevel (putVarint32 level ++ (putVarint64 f.number ++ (putVarint64 f.fileSize ++
    (putLengthPrefixedSlice f.smallest ++ putLengthPrefixedSlice f.largest))) ++ rest)).bind _ = _
  simp only [List.append_assoc]
  rw [getLevel_put hlevel, Option.bind_some, getVarint64_putVarint64 f.number hnumber,
    Option.bind_some, getVarint64_putVarint64 f.fileSize hsize, Option.bind_some, hnil,
    getInternalKey, getLengthPrefixedSlice_put [] (by decide), Option.bind_some,
    if_neg (fun h => h rfl), Option.bind_none]

/-- A field that cannot be read back. -/
def Stuck (g : Field) : Prop := ∀ rest, readField g.tag (g.body ++ rest) = none

/-- One field that cannot be read back stops `DecodeFrom` with an error. -/
theorem decodeLoop_stuck (fs : List Field) :
    ∀ (n : Nat) (e : WireEdit), (∀ f ∈ fs, f.Fits ∨ Stuck f) → (∃ g ∈ fs, Stuck g) →
      (fs.flatMap Field.encode).length < n →
      (decodeLoop n e (fs.flatMap Field.encode)).2 ≠ none := by
  induction fs with
  | nil =>
    rintro n e _ ⟨g, hg, -⟩
    cases hg
  | cons f fs ih =>
    intro n e hall hex hn
    rw [List.flatMap_cons, List.length_append] at hn
    obtain ⟨m, rfl⟩ : ∃ m, n = m + 1 := ⟨n - 1, by omega⟩
    have hpos := f.encode_length_pos
    have htag : f.tag < 2 ^ 32 := lt_trans f.tag_lt (by decide)
    rw [List.flatMap_cons, decodeLoop, Field.encode, List.append_assoc,
      getVarint32_putVarint32 f.tag htag]
    rcases hall f List.mem_cons_self with hfits | hstuck
    · simp only [readField_encode hfits]
      obtain ⟨g, hg, hgs⟩ := hex
      rcases List.mem_cons.mp hg with rfl | hg
      · have := hgs []
        rw [readField_encode hfits] at this
        cases this
      · exact ih m (e.set f) (List.forall_mem_cons.mp hall).2 ⟨g, hg, hgs⟩
          (by omega)
    · simp only
      rw [show readField f.tag (f.body ++ fs.flatMap Field.encode) = none from hstuck _]
      exact Option.some_ne_none _

/-! ## Sequence numbers and bounds -/

theorem foldl_max_le {α : Type} (f : α → Nat) (l : List α) {k : Nat} :
    ∀ m, l.foldl (fun m x => max m (f x)) m ≤ k ↔ m ≤ k ∧ ∀ x ∈ l, f x ≤ k := by
  induction l with
  | nil => simp
  | cons y l ih =>
    intro m
    rw [List.foldl_cons, ih, max_le_iff, List.forall_mem_cons, and_assoc]

theorem foldl_max_mem {α : Type} (f : α → Nat) (l : List α) :
    ∀ m, l.foldl (fun m x => max m (f x)) m = m
      ∨ ∃ x ∈ l, l.foldl (fun m x => max m (f x)) m = f x := by
  induction l with
  | nil => intro m; exact Or.inl rfl
  | cons y l ih =>
    intro m
    rcases ih (max m (f y)) with h | ⟨x, hx, h⟩
    · rcases max_choice m (f y) with hmax | hmax
      · exact Or.inl (h.trans hmax)
      · exact Or.inr ⟨y, List.mem_cons_self, h.trans hmax⟩
    · exact Or.inr ⟨x, List.mem_cons_of_mem _ hx, h⟩

/-- The entries of a table that repair finds are in order. -/
def Ordered (es : List Entry) : Prop := es.Pairwise fun a b => a.key ≤ b.key

variable {es : List Entry}

theorem ordered_insertInto (ops : List Op) :
    ∀ (n : Nat) {m : MemTable}, Ordered m.table → Ordered (LdbTable.insertInto ops n m).table := by
  induction ops with
  | nil => intro n m h; exact h
  | cons op ops ih =>
    intro n m h
    refine ih (n + 1) ?_
    rw [LdbTable.MemTable.add_table]
    exact OrderedLists.orderedInsert_le h _

theorem ordered_replayLoop (n : Nat) :
    ∀ (r : Reader) {m : MemTable}, Ordered m.table →
      Ordered (LdbRepair.replayLoop n r m).table := by
  induction n with
  | zero => intro r m h; exact h
  | succ n ih =>
    intro r m h
    rw [LdbRepair.replayLoop]
    rcases r.readRecord with ⟨_ | record, r'⟩
    · exact h
    · simp only
      split_ifs
      · exact ih r' h
      · exact ih r' (ordered_insertInto _ _ h)

/-- The table of a log is in order. -/
theorem ordered_logTable {file : Slice} {t : Table} (h : logTable file = some t) :
    Ordered t.entries := by
  rw [logTable] at h
  split_ifs at h
  cases h
  have hempty : Ordered MemTable.empty.table := List.Pairwise.nil
  exact (ordered_replayLoop _ _ hempty).filter _

/-! ## The descriptor -/

/-- What the descriptor must say of a file: its sequence number is not below those
    of the table, and its bounds contain the keys of the table and the ranges of its
    tombstones. -/
def Describes (lastSequence : Nat) (f : WireFile) (t : Table) : Prop :=
  (∀ e ∈ t.entries, e.key.sequence ≤ lastSequence
      ∧ (parseKey f.smallest).userKey ≤ e.key.userKey
      ∧ e.key.userKey ≤ (parseKey f.largest).userKey)
    ∧ ∀ del ∈ t.rangeDeletions, del.seq ≤ lastSequence
      ∧ ∀ k, del.startKey ≤ k → k < del.endKey →
        (parseKey f.smallest).userKey ≤ k ∧ k ≤ (parseKey f.largest).userKey

/-- **A descriptor that can be opened and covers the tables**: the MANIFEST that
    `CURRENT` names holds one record, `DecodeFrom` accepts it, and it describes every
    file it lists. -/
def DescriptorOK (d : Disk) : Prop :=
  ∃ m file record e lastSequence, d.manifests.current = some m
    ∧ d.manifests.files m = some file ∧ (logRecords file (file.length + 1)).1 = [record]
    ∧ WireEdit.decodeFrom record = (e, .ok) ∧ e.lastSequence = some lastSequence
    ∧ ∀ p ∈ e.newFiles, ∀ t, d.tables p.2.number = some t → Describes lastSequence p.2 t

/-- **The tables hold nothing that their point entries do not show**: each has a
    point entry, its tombstones lie between its point keys, and no tombstone is newer
    than all point entries. -/
def PointsCover (ts : List Table) : Prop :=
  ∀ t ∈ ts, t.entries ≠ [] ∧ ∀ del ∈ t.rangeDeletions,
    (∃ u ∈ ts, ∃ e ∈ u.entries, del.seq ≤ e.key.sequence)
      ∧ ∀ k, del.startKey ≤ k → k < del.endKey →
        (∃ e ∈ t.entries, e.key.userKey ≤ k) ∧ ∃ e ∈ t.entries, k ≤ e.key.userKey

/-- A directory of intact files: no file is listed twice, the entries of a table are
    in order, and keys, numbers and sizes are in the range of their types. -/
structure Intact (o : Options) (name : Slice) (fileSize : Nat → Nat)
    (children : List (FileType × Nat)) (d : Disk) : Prop where
  nodup : children.Nodup
  sorted : ∀ t ∈ listedTables children d, Sorted t.entries
  keys : ∀ t ∈ contents children d, ∀ e ∈ t.entries, FitsKey e.key
  name : name.length < 2 ^ 32
  next : (scanned o fileSize children d).nextFileNumber < 2 ^ 64
  sizes : ∀ n, fileSize n < 2 ^ 64

section Descriptor

variable {o : Options} {name : Slice} {fileSize : Nat → Nat} {children : List (FileType × Nat)}
variable {d : Disk}

section

variable (h : Intact o name fileSize children d)
include h

theorem Intact.ordered : ∀ t ∈ contents children d, Ordered t.entries := by
  intro t ht
  rcases List.mem_append.mp ht with ht | ht
  · exact (h.sorted t ht).imp le_of_lt
  · obtain ⟨c, -, hc⟩ := List.mem_filterMap.mp ht
    split_ifs at hc
    obtain ⟨file, -, htable⟩ := Option.bind_eq_some_iff.mp hc
    exact ordered_logTable htable

omit h in
/-- The record repair writes is the one that is read. -/
theorem writeDescriptor_manifest (name : Slice) (r : Repairer) :
    ∃ file, (r.writeDescriptor name).manifests.current = some 1
      ∧ (r.writeDescriptor name).manifests.files 1 = some file
      ∧ (logRecords file (file.length + 1)).1 = [(r.edit name).encodeTo] := by
  obtain ⟨w, -, hadd⟩ := after_new.addRecord (r.edit name).encodeTo
  obtain ⟨es, hscan, hassemble⟩ := encodeAll_scan [(r.edit name).encodeTo]
  have hfile : (Writer.new.addRecord ⟨[], []⟩ (r.edit name).encodeTo).2.2.contents
      = encodeAll 0 [(r.edit name).encodeTo] := congrArg (fun x => x.2.2.contents) hadd
  refine ⟨encodeAll 0 [(r.edit name).encodeTo], rfl, ?_, ?_⟩
  · rw [Repairer.writeDescriptor, hfile]
    exact Manifests.put_files (r.manifests.foldl (fun m n => m.remove n) r.disk.manifests) 1 _
  · rw [logRecords_eq hscan (Nat.lt_succ_self _), hassemble]

omit h in
/-- The files of the descriptor. -/
theorem mem_newFiles (name : Slice) (hr : r.tables
      = r.tableNumbers.filterMap fun n => (r.disk.tables n).map (scanTable n (fileSize n)))
    (p : Nat × WireFile) :
    p ∈ (r.edit name).newFiles ↔ ∃ n ∈ r.tableNumbers, ∃ t, r.disk.tables n = some t
      ∧ p = (0, ⟨n, fileSize n, encodeOptional (t.entries.head?.map (·.key)),
          encodeOptional (t.entries.getLast?.map (·.key))⟩) := by
  rw [Repairer.edit, hr]
  simp only [List.mem_map, List.mem_filterMap, Option.map_eq_some_iff]
  constructor
  · rintro ⟨info, ⟨n, hn, t, ht, rfl⟩, rfl⟩
    exact ⟨n, hn, t, ht, rfl⟩
  · rintro ⟨n, hn, t, ht, rfl⟩
    exact ⟨_, ⟨n, hn, t, ht, rfl⟩, rfl⟩

omit h in
/-- The sequence number of the descriptor is the largest of all point entries. -/
theorem lastSequence_spec (hr : r.tables
      = r.tableNumbers.filterMap fun n => (r.disk.tables n).map (scanTable n (fileSize n))) :
    (∀ n ∈ r.tableNumbers, ∀ t, r.disk.tables n = some t → ∀ e ∈ t.entries,
        e.key.sequence ≤ r.tables.foldl (fun m t => max m t.maxSequence) 0)
      ∧ (r.tables.foldl (fun m t => max m t.maxSequence) 0 = 0
        ∨ ∃ n ∈ r.tableNumbers, ∃ t, r.disk.tables n = some t ∧ ∃ e ∈ t.entries,
          r.tables.foldl (fun m t => max m t.maxSequence) 0 = e.key.sequence) := by
  have hmem : ∀ info, info ∈ r.tables ↔ ∃ n ∈ r.tableNumbers, ∃ t, r.disk.tables n = some t
      ∧ info = scanTable n (fileSize n) t := by
    intro info
    rw [hr, List.mem_filterMap]
    simp only [Option.map_eq_some_iff]
    constructor
    · rintro ⟨n, hn, t, ht, rfl⟩
      exact ⟨n, hn, t, ht, rfl⟩
    · rintro ⟨n, hn, t, ht, rfl⟩
      exact ⟨n, hn, t, ht, rfl⟩
  constructor
  · intro n hn t ht e he
    have hinfo := (hmem (scanTable n (fileSize n) t)).mpr ⟨n, hn, t, ht, rfl⟩
    exact le_trans (((foldl_max_le (fun e : Entry => e.key.sequence) t.entries 0).mp le_rfl).2 e he)
      (((foldl_max_le TableInfo.maxSequence r.tables 0).mp le_rfl).2 _ hinfo)
  · rcases foldl_max_mem TableInfo.maxSequence r.tables 0 with h0 | ⟨info, hinfo, heq⟩
    · exact Or.inl h0
    · obtain ⟨n, hn, t, ht, rfl⟩ := (hmem info).mp hinfo
      rcases foldl_max_mem (fun e : Entry => e.key.sequence) t.entries 0 with h0 | ⟨e, he, hseq⟩
      · exact Or.inl (heq.trans h0)
      · exact Or.inr ⟨n, hn, t, ht, e, he, heq.trans hseq⟩

theorem mem_contents (t : Table) :
    t ∈ contents children d ↔ ∃ n ∈ (scanned o fileSize children d).tableNumbers,
      (scanned o fileSize children d).disk.tables n = some t := by
  rw [← (scanned_tables o fileSize d h.nodup).1, List.mem_filterMap]

/-- The fields of the descriptor fit, except that a table without point entries has
    no keys. -/
theorem edit_fields :
    ∀ f ∈ ((scanned o fileSize children d).edit name).fields, f.Fits
      ∨ ∃ n ∈ (scanned o fileSize children d).tableNumbers, ∃ t,
        (scanned o fileSize children d).disk.tables n = some t ∧ t.entries = [] ∧ Stuck f := by
  have hr : (scanned o fileSize children d).tables
      = (scanned o fileSize children d).tableNumbers.filterMap fun n =>
        ((scanned o fileSize children d).disk.tables n).map (scanTable n (fileSize n)) := rfl
  intro f hf
  simp only [WireEdit.fields, List.mem_append, List.mem_map, Option.mem_toList] at hf
  rcases hf with ⟨n, hn, rfl⟩ | ⟨n, hn, rfl⟩ | ⟨n, hn, rfl⟩ | ⟨n, hn, rfl⟩ | ⟨n, hn, rfl⟩
    | ⟨p, hp, rfl⟩ | ⟨p, hp, rfl⟩ | ⟨p, hp, rfl⟩
  · cases hn
    exact Or.inl h.name
  · cases hn
    exact Or.inl (show 0 < 2 ^ 64 by decide)
  · cases hn
  · cases hn
    exact Or.inl h.next
  · cases hn
    refine Or.inl ?_
    rcases (lastSequence_spec hr).2 with h0 | ⟨n, hn, t, ht, e, he, hseq⟩
    · show _ < 2 ^ 64
      rw [h0]
      decide
    · have hle : e.key.sequence ≤ 2 ^ 56 - 1 :=
        (h.keys t ((mem_contents h t).mpr ⟨n, hn, ht⟩) e he).1
      show _ < 2 ^ 64
      rw [hseq]
      omega
  · cases hp
  · cases hp
  · obtain ⟨n, hn, t, ht, rfl⟩ := (mem_newFiles name hr p).mp hp
    have hnumber : n < 2 ^ 64 :=
      lt_trans ((scanned_tables o fileSize d h.nodup).2.1 n hn) h.next
    by_cases hnil : t.entries = []
    · refine Or.inr ⟨n, hn, t, ht, hnil, ?_⟩
      exact readField_cleared (show 0 < kNumLevels by decide) hnumber (h.sizes n) (by rw [hnil]; rfl)
    · refine Or.inl ⟨show 0 < kNumLevels by decide, hnumber, h.sizes n, ?_⟩
      obtain ⟨a, ha⟩ : ∃ a, t.entries.head? = some a :=
        Option.isSome_iff_exists.mp (List.isSome_head?.mpr hnil)
      obtain ⟨b, hb⟩ : ∃ b, t.entries.getLast? = some b :=
        Option.isSome_iff_exists.mp (List.getLast?_isSome.mpr hnil)
      have hord := h.ordered t ((mem_contents h t).mpr ⟨n, hn, ht⟩)
      have hkeys := h.keys t ((mem_contents h t).mpr ⟨n, hn, ht⟩)
      show (encodeOptional (t.entries.head?.map (·.key)) ≠ [] ∧ _) ∧ _
      rw [ha, hb]
      exact ⟨(hkeys a (List.mem_of_head? ha)).encoded, (hkeys b (List.mem_of_getLast? hb)).encoded⟩

/-- With a point entry in every table the descriptor is read back as it is. -/
theorem edit_accepted (hall : ∀ t ∈ contents children d, t.entries ≠ []) :
    WireEdit.decodeFrom ((scanned o fileSize children d).edit name).encodeTo
      = ((scanned o fileSize children d).edit name, .ok) := by
  refine decodeFrom_encodeTo (fun f hf => ?_) List.Pairwise.nil
  rcases edit_fields h f hf with hfits | ⟨n, hn, t, ht, hnil, -⟩
  · exact hfits
  · exact absurd hnil (hall t ((mem_contents h t).mpr ⟨n, hn, ht⟩))

/-- Without one in some table it is not. -/
theorem edit_rejected {t : Table} (ht : t ∈ contents children d) (hnil : t.entries = []) :
    (WireEdit.decodeFrom ((scanned o fileSize children d).edit name).encodeTo).2 ≠ .ok := by
  obtain ⟨n, hn, htable⟩ := (mem_contents h t).mp ht
  have hnumber : n < 2 ^ 64 := lt_trans ((scanned_tables o fileSize d h.nodup).2.1 n hn) h.next
  have hfile := (mem_newFiles name (r := scanned o fileSize children d) rfl _).mpr
    ⟨n, hn, t, htable, rfl⟩
  have hstuck := decodeLoop_stuck ((scanned o fileSize children d).edit name).fields
    (((scanned o fileSize children d).edit name).encodeTo.length + 1) {}
    (fun f hf => (edit_fields h f hf).imp_right fun ⟨_, _, _, _, _, hs⟩ => hs)
    ⟨.newFile 0 _, by
      simp only [WireEdit.fields, List.mem_append, List.mem_map]
      exact Or.inr (Or.inr (Or.inr (Or.inr (Or.inr (Or.inr (Or.inr ⟨_, hfile, rfl⟩)))))),
      readField_cleared (show 0 < kNumLevels by decide) hnumber (h.sizes n) (by rw [hnil]; rfl)⟩
    (Nat.lt_succ_self _)
  exact WireEdit.decodeFrom_ne_ok hstuck

end

/-- What it takes to describe a table with point entries. -/
theorem describes_iff {t : Table} (hord : Ordered t.entries)
    (hkeys : ∀ e ∈ t.entries, FitsKey e.key) (hne : t.entries ≠ []) (last n size : Nat) :
    Describes last ⟨n, size, encodeOptional (t.entries.head?.map (·.key)),
        encodeOptional (t.entries.getLast?.map (·.key))⟩ t
      ↔ (∀ e ∈ t.entries, e.key.sequence ≤ last)
        ∧ ∀ del ∈ t.rangeDeletions, del.seq ≤ last ∧ ∀ k, del.startKey ≤ k → k < del.endKey →
          (∃ e ∈ t.entries, e.key.userKey ≤ k) ∧ ∃ e ∈ t.entries, k ≤ e.key.userKey := by
  obtain ⟨a, ha⟩ : ∃ a, t.entries.head? = some a :=
    Option.isSome_iff_exists.mp (List.isSome_head?.mpr hne)
  obtain ⟨b, hb⟩ : ∃ b, t.entries.getLast? = some b :=
    Option.isSome_iff_exists.mp (List.getLast?_isSome.mpr hne)
  obtain ⟨ham, hale⟩ := OrderedLists.least_head hord ha
  obtain ⟨hbm, hbge⟩ := OrderedLists.greatest_last hord hb
  have hsmall : parseKey (encodeOptional (t.entries.head?.map (·.key))) = a.key := by
    rw [ha]
    exact parseKey_encodeKey (hkeys a ham).1
  have hlarge : parseKey (encodeOptional (t.entries.getLast?.map (·.key))) = b.key := by
    rw [hb]
    exact parseKey_encodeKey (hkeys b hbm).1
  rw [Describes]
  simp only [hsmall, hlarge]
  constructor
  · rintro ⟨hentries, hdels⟩
    refine ⟨fun e he => (hentries e he).1, fun del hdel => ⟨(hdels del hdel).1, fun k hlo hhi => ?_⟩⟩
    obtain ⟨h1, h2⟩ := (hdels del hdel).2 k hlo hhi
    exact ⟨⟨a, ham, h1⟩, b, hbm, h2⟩
  · rintro ⟨hentries, hdels⟩
    refine ⟨fun e he => ⟨hentries e he, InternalKey.userKey_le (hale e he),
      InternalKey.userKey_le (hbge e he)⟩,
      fun del hdel => ⟨(hdels del hdel).1, fun k hlo hhi => ?_⟩⟩
    obtain ⟨⟨x, hx, hxk⟩, y, hy, hky⟩ := (hdels del hdel).2 k hlo hhi
    exact ⟨le_trans (InternalKey.userKey_le (hale x hx)) hxk,
      le_trans hky (InternalKey.userKey_le (hbge y hy))⟩

/-- **When repair writes a descriptor that can be opened and covers the tables**:
    just when the point entries show everything the tables hold. -/
theorem repair_describes_iff (h : Intact o name fileSize children d) (hne : children ≠ []) :
    (repairDB o name fileSize children d).1 = .ok
      ∧ (DescriptorOK (repairDB o name fileSize children d).2
        ↔ PointsCover (contents children d)) := by
  have hdb : repairDB o name fileSize children d
      = (.ok, (scanned o fileSize children d).writeDescriptor name) := if_neg hne
  have hr : (scanned o fileSize children d).tables
      = (scanned o fileSize children d).tableNumbers.filterMap fun n =>
        ((scanned o fileSize children d).disk.tables n).map (scanTable n (fileSize n)) := rfl
  obtain ⟨file, hcurrent, hfile, hrecords⟩ :=
    writeDescriptor_manifest name (scanned o fileSize children d)
  obtain ⟨hseq, hmax⟩ := lastSequence_spec hr
  rw [hdb]
  refine ⟨rfl, ?_, ?_⟩
  · rintro ⟨m, file', record, e, lastSequence, hm, hf, hrec, hdecode, hlast, hall⟩
    cases hcurrent.symm.trans hm
    cases hfile.symm.trans hf
    cases hrecords.symm.trans hrec
    have hpoints : ∀ t ∈ contents children d, t.entries ≠ [] := fun t ht hnil =>
      edit_rejected h ht hnil (congrArg Prod.snd hdecode)
    rw [edit_accepted h hpoints] at hdecode
    cases hdecode
    cases hlast
    intro t ht
    refine ⟨hpoints t ht, fun del hdel => ?_⟩
    obtain ⟨n, hn, htable⟩ := (mem_contents h t).mp ht
    have hdesc := hall _ ((mem_newFiles name hr _).mpr ⟨n, hn, t, htable, rfl⟩) t htable
    obtain ⟨hle, hrange⟩ :=
      ((describes_iff (h.ordered t ht) (h.keys t ht) (hpoints t ht) _ _ _).mp hdesc).2 del hdel
    refine ⟨?_, hrange⟩
    rcases hmax with h0 | ⟨n', hn', u, hu, e, he, heq⟩
    · obtain ⟨e, he⟩ := List.exists_mem_of_ne_nil _ (hpoints t ht)
      rw [h0, Nat.le_zero] at hle
      exact ⟨t, ht, e, he, hle ▸ Nat.zero_le _⟩
    · exact ⟨u, (mem_contents h u).mpr ⟨n', hn', hu⟩, e, he, heq ▸ hle⟩
  · intro hcover
    have hpoints : ∀ t ∈ contents children d, t.entries ≠ [] := fun t ht => (hcover t ht).1
    refine ⟨1, file, _, _, _, hcurrent, hfile, hrecords, edit_accepted h hpoints, rfl, ?_⟩
    intro p hp t ht
    obtain ⟨n, hn, t', ht', rfl⟩ := (mem_newFiles name hr p).mp hp
    cases ht'.symm.trans ht
    have hmem := (mem_contents h t).mpr ⟨n, hn, ht⟩
    refine (describes_iff (h.ordered t hmem) (h.keys t hmem) (hpoints t hmem) _ _ _).mpr
      ⟨hseq n hn t ht, fun del hdel => ?_⟩
    obtain ⟨⟨u, hu, e, he, hle⟩, hrange⟩ := (hcover t hmem).2 del hdel
    obtain ⟨n', hn', hu'⟩ := (mem_contents h u).mp hu
    exact ⟨le_trans hle (hseq n' hn' u hu' e he), hrange⟩

end Descriptor

/-! ## Two directories -/

/-- A directory with one table. -/
def oneTable (t : Table) : Disk := ⟨Manifests.empty, ∅, fun n => if n = 5 then some t else none⟩

/-- Two point entries with a tombstone between them. -/
def coveredTable : Table :=
  ⟨[⟨⟨[97], 3, .value⟩, [1]⟩, ⟨⟨[99], 2, .value⟩, [2]⟩], [⟨[97], [98], 1⟩]⟩

theorem repair_describes_covered :
    PointsCover (contents [(.tableFile, 5)] (oneTable coveredTable))
      ∧ DescriptorOK (repairDB LdbDb.sampleOptions [99] (fun _ => 100) [(.tableFile, 5)]
        (oneTable coveredTable)).2 := by
  have hcontents : contents [(.tableFile, 5)] (oneTable coveredTable) = [coveredTable] := rfl
  have hcover : PointsCover (contents [(.tableFile, 5)] (oneTable coveredTable)) := by
    rw [hcontents]
    intro t ht
    rw [List.mem_singleton.mp ht]
    refine ⟨by decide, fun del hdel => ?_⟩
    rw [List.mem_singleton.mp hdel]
    refine ⟨⟨coveredTable, List.mem_singleton_self _, _, List.mem_cons_self, by decide⟩,
      fun k hlo hhi => ⟨⟨_, List.mem_cons_self, hlo⟩, _,
        List.mem_cons_of_mem _ List.mem_cons_self, ?_⟩⟩
    exact le_of_lt (lt_trans hhi (by decide))
  have hintact : Intact LdbDb.sampleOptions [99] (fun _ => 100) [(.tableFile, 5)]
      (oneTable coveredTable) :=
    { nodup := by decide
      sorted := by
        intro t ht
        rw [List.mem_singleton.mp ht]
        decide
      keys := by
        intro t ht
        rw [List.mem_singleton.mp ht]
        decide
      name := by decide
      next := by decide
      sizes := fun _ => by decide }
  exact ⟨hcover, (repair_describes_iff hintact (by decide)).2.mpr hcover⟩

/-- The table of a memtable that holds one `DeleteRange`. -/
def tombstoneTable : Table := tableOfAdds [⟨⟨[97], 1, .rangeDeletion⟩, [98]⟩]

/-- Repair of a directory with this table reports success, and its descriptor is
    rejected. -/
theorem tombstoneTable_rejected :
    (repairDB LdbDb.sampleOptions [99] (fun _ => 100) [(.tableFile, 5)] (oneTable tombstoneTable)).1 = .ok
      ∧ ¬DescriptorOK (repairDB LdbDb.sampleOptions [99] (fun _ => 100) [(.tableFile, 5)]
        (oneTable tombstoneTable)).2 := by
  refine ⟨rfl, ?_⟩
  obtain ⟨file, hcurrent, hfile, hrecords⟩ := writeDescriptor_manifest [99]
    (scanned LdbDb.sampleOptions (fun _ => 100) [(.tableFile, 5)] (oneTable tombstoneTable))
  rintro ⟨m, file', record, e, lastSequence, hm, hf, hrec, hdecode, -⟩
  cases hcurrent.symm.trans hm
  cases hfile.symm.trans hf
  cases hrecords.symm.trans hrec
  have hreject : (WireEdit.decodeFrom ((scanned LdbDb.sampleOptions (fun _ => 100) [(.tableFile, 5)]
      (oneTable tombstoneTable)).edit [99]).encodeTo).2
      = .corruption "VersionEdit: new-file entry" := by decide +kernel
  rw [hdecode] at hreject
  cases hreject

end LdbRepairScan
