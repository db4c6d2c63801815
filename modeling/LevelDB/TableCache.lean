import LevelDB.DbIter
import LevelDB.TableKeys

/-! # Tombstones that cannot be read

    `db/table_cache.cc`, and what `DBImpl` does with the range deletions it gets
    there.  The tombstones of a table are read when the table is opened, on the same
    best effort as the filter: `ReadMeta` and `ReadRangeDeletions` return nothing, and
    a table opened without its tombstones stays in the cache like any other.
    `TableCache::GetRangeDeletions` drops the status of `FindTable`.

    An operation reads point entries and tombstones apart.  It reports the errors of
    the former only, so an operation that meets nothing but unreadable tombstones
    completes as if there were none (`ignored_unless_points_fail`). -/

namespace LdbTableCache

open Tiered Cursors LdbFormat LdbEnv LdbBlock LdbVersion LdbTable LdbWork LdbDb LdbDbIter
open LdbTableFormat LdbTableBuilder LdbTableReader

/-! ## `FindTable` -/

/-- What `FindTable` meets when it looks a file up: the table the cache holds, and
    what the environment opens under the file's name and under its old name. -/
structure Access where
  cached : Option LdbTableReader.Table
  file : Except Status RandomAccessFile
  sstFile : Except Status RandomAccessFile
  fileSize : Nat

/-- The file `FindTable` opens; the error is that of the first name. -/
def Access.openFile (a : Access) : Except Status RandomAccessFile :=
  match a.file with
  | .ok file => .ok file
  | .error s =>
    match a.sstFile with
    | .ok file => .ok file
    | .error _ => .error s

/-- `TableCache::FindTable`. -/
def findTable (o : TableOptions) (a : Access) : Except Status LdbTableReader.Table :=
  match a.cached with
  | some t => .ok t
  | none =>
    match a.openFile with
    | .error s => .error s
    | .ok file => Table.openTable o file a.fileSize

/-- The range deletions of the table `FindTable` returns; a table without any has
    no list. -/
def load (o : TableOptions) (a : Access) : Except Status (List RangeDeletion) :=
  match findTable o a with
  | .error s => .error s
  | .ok t => .ok (t.getRangeDeletions.getD [])

/-! ## How the tombstones fail to be read -/

/-- `Table::Open` up to `ReadMeta`. -/
def openIndex (o : TableOptions) (file : RandomAccessFile) (size : Nat) :
    Except Status (LdbTableReader.Table × Footer) :=
  if size < kFooterLength then .error (.corruption "file is too short to be an sstable")
  else
    match file (size - kFooterLength) kFooterLength with
    | .error s => .error s
    | .ok input =>
      match Footer.decodeFrom input with
      | .error s => .error s
      | .ok footer =>
        match readBlock o.codecs file o.paranoidChecks footer.indexHandle with
        | .error s => .error s
        | .ok contents =>
          .ok (⟨o, file, none, footer.metaindexHandle, Block.new contents, none⟩, footer)

/-- The handle of the range deletions, as `ReadMeta` finds it in the metaindex. -/
def rangeDelHandle (t : LdbTableReader.Table) (contents : Slice) : Option Slice :=
  (Table.lookUpMeta (t.readMetaFilter (Block.new contents).newIterator).2
    TableBuilder.rangeDelKey).1

/-- **The failures of `ReadMeta`** on its way to the tombstones: the metaindex cannot
    be read, or the handle found there is bad or leads to a block that cannot be
    read.  A checksum that does not match is such an error if checksums are
    verified. -/
inductive MetaFails (t : LdbTableReader.Table) (footer : Footer) : Prop where
  | metaindex {s : Status}
      (hread : readBlock t.options.codecs t.file t.options.paranoidChecks footer.metaindexHandle
        = .error s) : MetaFails t footer
  | rangeDeletions {contents value : Slice} {s : Status}
      (hread : readBlock t.options.codecs t.file t.options.paranoidChecks footer.metaindexHandle
        = .ok contents)
      (hfound : rangeDelHandle t contents = some value)
      (hblock : Table.readMetaBlock t.options t.file value = .error s) : MetaFails t footer

/-- The failures can be computed. -/
instance (t : LdbTableReader.Table) (footer : Footer) : Decidable (MetaFails t footer) :=
  match hread : readBlock t.options.codecs t.file t.options.paranoidChecks
      footer.metaindexHandle with
  | .error _ => .isTrue (.metaindex hread)
  | .ok contents =>
    match hfound : rangeDelHandle t contents with
    | none => .isFalse fun h => by
      cases h with
      | metaindex h => rw [hread] at h; cases h
      | rangeDeletions h hf hb => rw [hread] at h; cases h; rw [hfound] at hf; cases hf
    | some value =>
      match hblock : Table.readMetaBlock t.options t.file value with
      | .error _ => .isTrue (.rangeDeletions hread hfound hblock)
      | .ok _ => .isFalse fun h => by
        cases h with
        | metaindex h => rw [hread] at h; cases h
        | rangeDeletions h hf hb =>
          rw [hread] at h
          cases h
          rw [hfound] at hf
          cases hf
          rw [hblock] at hb
          cases hb

/-- **The tombstones of a file are not read**: `FindTable` fails, or the table it
    returns was opened, now or earlier, when `ReadMeta` failed to read them. -/
inductive Unread (o : TableOptions) (a : Access) : Prop where
  | findTable {s : Status} (h : findTable o a = .error s) : Unread o a
  | readMeta {file : RandomAccessFile} {t : LdbTableReader.Table} {footer : Footer}
      (hopen : openIndex o file a.fileSize = .ok (t, footer)) (hfails : MetaFails t footer)
      (h : findTable o a = .ok (t.readMeta footer)) : Unread o a

theorem openTable_eq (o : TableOptions) (file : RandomAccessFile) (size : Nat) :
    Table.openTable o file size = (openIndex o file size).map fun p => p.1.readMeta p.2 := by
  rw [Table.openTable, openIndex]
  split
  · rfl
  · cases file (size - kFooterLength) kFooterLength with
    | error s => rfl
    | ok input =>
      cases hfooter : Footer.decodeFrom input with
      | error s => simp only [hfooter, Except.map]
      | ok footer =>
        cases hindex : readBlock o.codecs file o.paranoidChecks footer.indexHandle with
        | error | ok => simp only [hfooter, hindex, Except.map]

theorem openIndex_rangeDeletions {o : TableOptions} {file : RandomAccessFile} {size : Nat}
    {t : LdbTableReader.Table} {footer : Footer}
    (h : openIndex o file size = .ok (t, footer)) : t.rangeDeletions = none := by
  rw [openIndex] at h
  split at h
  · cases h
  · split at h
    · cases h
    · split at h
      · cases h
      · split at h
        · cases h
        · cases h
          rfl

theorem readMetaFilter_rangeDeletions (t : LdbTableReader.Table) (it : AnyIter) :
    (t.readMetaFilter it).1.rangeDeletions = t.rangeDeletions
      ∧ (t.readMetaFilter it).1.options = t.options ∧ (t.readMetaFilter it).1.file = t.file := by
  have hfilter : ∀ value, (t.readFilter value).rangeDeletions = t.rangeDeletions
      ∧ (t.readFilter value).options = t.options ∧ (t.readFilter value).file = t.file := by
    intro value
    rw [Table.readFilter]
    cases Table.readMetaBlock t.options t.file value <;> exact ⟨rfl, rfl, rfl⟩
  rw [Table.readMetaFilter]
  cases t.options.filterPolicy with
  | none => exact ⟨rfl, rfl, rfl⟩
  | some policy =>
    simp only
    split
    · exact ⟨rfl, rfl, rfl⟩
    · exact hfilter _

/-- **A failed `ReadMeta` leaves the table without tombstones**, and says nothing. -/
theorem readMeta_of_fails {t : LdbTableReader.Table} {footer : Footer} (h : MetaFails t footer)
    (hnone : t.rangeDeletions = none) : (t.readMeta footer).rangeDeletions = none := by
  rw [Table.readMeta]
  cases h with
  | metaindex hread =>
    rw [hread]
    exact hnone
  | rangeDeletions hread hfound hblock =>
    rename_i contents value s
    obtain ⟨hdels, hopts, hfile⟩ :=
      readMetaFilter_rangeDeletions t (Block.new contents).newIterator
    rw [rangeDelHandle] at hfound
    rw [hread]
    simp only [hfound]
    rw [Table.readRangeDeletions, hopts, hfile, hblock]
    exact hdels.trans hnone

/-- Tombstones that are not read are an error of `FindTable`, or an empty list. -/
theorem load_of_unread {o : TableOptions} {a : Access} (h : Unread o a) :
    (∃ s, load o a = .error s) ∨ load o a = .ok [] := by
  cases h with
  | findTable h =>
    rename_i s
    refine Or.inl ⟨s, ?_⟩
    rw [load, h]
  | readMeta hopen hfails h =>
    refine Or.inr ?_
    rw [load, h]
    simp only
    rw [Table.getRangeDeletions, readMeta_of_fails hfails (openIndex_rangeDeletions hopen)]
    rfl

/-! ## Operations -/

/-- The reads of an operation, by file number: what it loads of the tombstones of a
    file, and the point entries it is shown or the error it meets there. -/
structure Reads where
  loaded : Nat → Except Status (List RangeDeletion)
  points : Nat → Except Status (List Entry)

/-- The tables as the operation sees them; `TableCache::GetRangeDeletions` passes
    over a file that fails. -/
def Reads.tables (R : Reads) (number : Nat) : LdbTable.Table :=
  ⟨(R.points number).toOption.getD [], (R.loaded number).toOption.getD []⟩

/-- The same reads of a file that opens and has no tombstones. -/
def Reads.ignoring (R : Reads) (number : Nat) : Reads :=
  { R with loaded := Function.update R.loaded number (.ok []) }

/-- `TableCache::Get` with `InternalGet` and `SaveValue`. -/
def Reads.get (R : Reads) (key : Slice) (snapshot : Nat) (f : FileMetaData) :
    Except Status (Lookup Slice) :=
  match R.loaded f.number with
  | .error s => .error s
  | .ok dels =>
    match R.points f.number with
    | .error s => .error s
    | .ok entries => .ok ((⟨entries, dels⟩ : LdbTable.Table).internalGet key snapshot)

/-- `Version::Get` over the files it visits. -/
def Reads.versionGet (R : Reads) (key : Slice) (snapshot : Nat) :
    List FileMetaData → Except Status (Lookup Slice)
  | [] => .ok .absent
  | f :: rest =>
    match R.get key snapshot f with
    | .error s => .error s
    | .ok .absent => R.versionGet key snapshot rest
    | .ok answer => .ok answer

/-- The error an iterator over the point entries of some files has, if any: the
    first among them. -/
def Reads.pointError (R : Reads) (files : List FileMetaData) : Option Status :=
  files.findSome? fun f =>
    match R.points f.number with
    | .error s => some s
    | .ok _ => none

/-- The operations.  The internal iterator under a `DBIter` is given with the files it
    has opened when its status is asked for. -/
inductive Operation where
  | get (key : Slice) (snapshot : Nat)
  | iterator (internal : Cursor Entry) (opened : List FileMetaData)
  | compaction (r : Running)

/-- What an operation completes with: the answer of the files, an iterator with
    `global_range_dels_`, or the outputs it installs. -/
inductive Result where
  | answer (found : Lookup Slice)
  | iterator (dels : List RangeDeletion) (iter : DBIter)
  | installed (outputs : List Output)

/-- The files `Version::Get` visits. -/
def visited (db : DB) (key : Slice) (snapshot : Nat) : List FileMetaData :=
  (db.current.forEachOverlapping key (lookupKey key snapshot)).map (·.2)

/-- The work of a compaction on the tables as it sees them. -/
def Reads.job (R : Reads) (r : Running) : Job :=
  ⟨r.compaction, r.inputVersion, R.tables, r.smallestSnapshot⟩

/-- The operations with their status.  A `DBIter` collects the tombstones when it is
    made and has the status of the internal iterator; a compaction installs its
    outputs if the status of its input iterator is OK. -/
def Reads.perform (o : Options) (R : Reads) (db : DB) : Operation → Except Status Result
  | .get key snapshot =>
    match R.versionGet key snapshot (visited db key snapshot) with
    | .error s => .error s
    | .ok found => .ok (.answer found)
  | .iterator internal opened =>
    match R.pointError opened with
    | some s => .error s
    | none =>
      .ok (.iterator (getRangeDeletions { db with tables := R.tables }) (DBIter.new internal))
  | .compaction r =>
    match R.pointError (R.job r).inputs with
    | some s => .error s
    | none => .ok (.installed ((R.job r).doCompactionWork o))

/-- `Version::Get` asks the file `f`: the files before it have no answer. -/
def Reads.Asks (R : Reads) (key : Slice) (snapshot : Nat) (files : List FileMetaData)
    (f : FileMetaData) : Prop :=
  ∃ before after, files = before ++ f :: after
    ∧ ∀ g ∈ before, R.get key snapshot g = .ok .absent

/-- The operation involves the file with this number. -/
def Reads.Involves (R : Reads) (db : DB) (number : Nat) : Operation → Prop
  | .get key snapshot => ∃ f, f.number = number ∧ R.Asks key snapshot (visited db key snapshot) f
  | .iterator _ _ => ∃ l < kNumLevels, ∃ f ∈ db.current.files l, f.number = number
  | .compaction r => ∃ f ∈ (R.job r).inputs, f.number = number

/-- **A read of point entries fails**: of a file that `Version::Get` asks, or of one
    that an iterator has opened or a compaction merges. -/
def Reads.PointsFail (R : Reads) (db : DB) : Operation → Prop
  | .get key snapshot => ∃ f, R.Asks key snapshot (visited db key snapshot) f
      ∧ ∃ s, R.loaded f.number = .error s ∨ R.points f.number = .error s
  | .iterator _ opened => ∃ f ∈ opened, ∃ s, R.points f.number = .error s
  | .compaction r => ∃ f ∈ (R.job r).inputs, ∃ s, R.points f.number = .error s

/-- **The operation ignores the tombstones of a file**: it completes, with the result
    it has for the file without tombstones. -/
def Reads.Ignores (o : Options) (R : Reads) (db : DB) (number : Nat) (op : Operation) : Prop :=
  ∃ result, R.perform o db op = .ok result ∧ (R.ignoring number).perform o db op = .ok result

/-! ## What the operations do -/

section Operations

variable {R : Reads} {key : Slice} {snapshot : Nat}

theorem pointError_iff (files : List FileMetaData) :
    (∃ s, R.pointError files = some s) ↔ ∃ f ∈ files, ∃ s, R.points f.number = .error s := by
  rw [← Option.isSome_iff_exists, Reads.pointError, List.findSome?_isSome_iff]
  refine exists_congr fun f => and_congr_right fun _ => ?_
  cases R.points f.number with
  | error s => simp
  | ok entries => simp

/-- The answer of a file is an error exactly if one of the two reads is. -/
theorem get_error_iff (f : FileMetaData) :
    (∃ s, R.get key snapshot f = .error s)
      ↔ ∃ s, R.loaded f.number = .error s ∨ R.points f.number = .error s := by
  rw [Reads.get]
  cases R.loaded f.number with
  | error s => simp
  | ok dels =>
    cases R.points f.number with
    | error s => simp
    | ok entries => simp

/-- The search fails exactly if a file it asks fails. -/
theorem versionGet_error_iff (files : List FileMetaData) :
    (∃ s, R.versionGet key snapshot files = .error s)
      ↔ ∃ f, R.Asks key snapshot files f ∧ ∃ s, R.get key snapshot f = .error s := by
  induction files with
  | nil =>
    constructor
    · rintro ⟨s, hs⟩
      cases hs
    · rintro ⟨f, ⟨before, after, hsplit, -⟩, -⟩
      exact absurd hsplit.symm (by simp)
  | cons g rest ih =>
    -- the files asked are `g`, and those asked behind it if it has no answer
    have hasks : ∀ f, R.Asks key snapshot (g :: rest) f
        ↔ f = g ∨ (R.get key snapshot g = .ok .absent ∧ R.Asks key snapshot rest f) := by
      intro f
      constructor
      · rintro ⟨before, after, hsplit, habsent⟩
        cases before with
        | nil =>
          cases hsplit
          exact Or.inl rfl
        | cons b before =>
          cases hsplit
          exact Or.inr ⟨habsent g (List.mem_cons_self ..), before, after, rfl,
            fun g hg => habsent g (List.mem_cons_of_mem _ hg)⟩
      · rintro (rfl | ⟨hg, before, after, rfl, habsent⟩)
        · exact ⟨[], rest, rfl, nofun⟩
        · refine ⟨g :: before, after, rfl, fun b hb => ?_⟩
          rcases List.mem_cons.mp hb with rfl | hb
          · exact hg
          · exact habsent b hb
    rw [Reads.versionGet]
    cases hg : R.get key snapshot g with
    | error s => simp [hasks, hg]
    | ok answer =>
      cases answer with
      | absent => simp [hasks, hg, ih]
      | found v => simp [hasks, hg]
      | deleted => simp [hasks, hg]

/-- **An operation fails exactly if a read of point entries does.** -/
theorem perform_error_iff (o : Options) (R : Reads) (db : DB) (op : Operation) :
    (∃ s, R.perform o db op = .error s) ↔ R.PointsFail db op := by
  cases op with
  | get key snapshot =>
    rw [Reads.PointsFail]
    simp only [← @get_error_iff R key snapshot]
    rw [← versionGet_error_iff, Reads.perform]
    cases R.versionGet key snapshot (visited db key snapshot) with
    | error s => simp
    | ok found => simp
  | iterator internal opened =>
    rw [Reads.PointsFail, ← pointError_iff, Reads.perform]
    cases R.pointError opened with
    | some s => simp
    | none => simp
  | compaction r =>
    rw [Reads.PointsFail, ← pointError_iff, Reads.perform]
    cases R.pointError (R.job r).inputs with
    | some s => simp
    | none => simp

/-- Where nothing was loaded, ignoring the file changes no table. -/
theorem tables_ignoring {number : Nat}
    (h : (∃ s, R.loaded number = .error s) ∨ R.loaded number = .ok []) :
    (R.ignoring number).tables = R.tables := by
  have hnone : (R.loaded number).toOption.getD [] = [] := by
    rcases h with ⟨s, hs⟩ | hok
    · rw [hs]
      rfl
    · rw [hok]
      rfl
  funext n
  rw [Reads.tables, Reads.tables, Reads.ignoring]
  simp only
  by_cases hn : n = number
  · subst hn
    rw [Function.update_self, hnone]
    rfl
  · rw [Function.update_of_ne hn]

/-- An operation that involves the file and completes has the result it has for the
    file without tombstones. -/
theorem perform_ignoring {o : Options} {db : DB} {number : Nat} {op : Operation} {result : Result}
    (h : (∃ s, R.loaded number = .error s) ∨ R.loaded number = .ok [])
    (hinv : R.Involves db number op) (hok : R.perform o db op = .ok result) :
    (R.ignoring number).perform o db op = .ok result := by
  have htables := tables_ignoring h
  cases op with
  | get key snapshot =>
    rcases h with ⟨s, hs⟩ | hnil
    · -- the file is asked, so the search ends with the error of `FindTable`
      obtain ⟨f, hf, hasks⟩ := hinv
      have hfail : R.PointsFail db (.get key snapshot) :=
        ⟨f, hasks, s, Or.inl (by rw [hf, hs])⟩
      obtain ⟨s', hs'⟩ := (perform_error_iff o R db _).mpr hfail
      rw [hs'] at hok
      cases hok
    · have hsame : R.ignoring number = R := by
        rw [Reads.ignoring, ← hnil, Function.update_eq_self]
      rw [hsame]
      exact hok
  | iterator internal opened =>
    rw [Reads.perform, htables]
    exact hok
  | compaction r =>
    have hjob : (R.ignoring number).job r = R.job r := by
      rw [Reads.job, htables]
      rfl
    rw [Reads.perform, hjob]
    exact hok

end Operations

/-- **Unreadable tombstones are ignored in silence**, by every `Get`, iterator and
    compaction that involves the file, unless a read of point entries fails in the
    same operation. -/
theorem ignored_unless_points_fail (o : Options) (tableOptions : TableOptions) (R : Reads) (db : DB)
    (number : Nat) (a : Access) (hload : R.loaded number = load tableOptions a)
    (hunread : Unread tableOptions a) (op : Operation) (hinv : R.Involves db number op) :
    ¬R.Ignores o db number op ↔ R.PointsFail db op := by
  have h := load_of_unread hunread
  rw [← hload] at h
  rw [← perform_error_iff o R db op]
  constructor
  · intro hnot
    cases hok : R.perform o db op with
    | error s => exact ⟨s, rfl⟩
    | ok result => exact absurd ⟨result, hok, perform_ignoring h hinv hok⟩ hnot
  · rintro ⟨s, hs⟩ ⟨result, hok, -⟩
    rw [hs] at hok
    cases hok

/-! ## A file whose range deletions cannot be read -/

/-- A `Put` and the range deletion that covers it. -/
def sampleCalls : List Entry := [⟨⟨[97], 2, .rangeDeletion⟩, [99]⟩, ⟨⟨[97], 1, .value⟩, [1]⟩]

/-- The calls of `Add` for them. -/
def sampleWire : List (Slice × Slice) := sampleCalls.map LdbTableKeys.wire

/-- The table file, read with an I/O error at its range deletions. -/
def sampleFile : RandomAccessFile := fun offset n =>
  if offset = LdbTableLayout.rangeDelOffset (LdbTableKeys.plainOptions 1) sampleWire then
    .error (.ioError "read")
  else fileOf (build (LdbTableKeys.plainOptions 1) sampleWire).file.contents offset n

/-- The first lookup of the file. -/
def sampleAccess : Access where
  cached := none
  file := .ok sampleFile
  sstFile := .error (.ioError "no such file")
  fileSize := (build (LdbTableKeys.plainOptions 1) sampleWire).file.contents.length

/-- A database with this table alone. -/
def sampleDB : DB :=
  { DB.init with
    current := ⟨fun l => if l = 1 then [⟨5, 2, ⟨[97], 2, .rangeDeletion⟩, ⟨[99], 0, .deletion⟩⟩]
      else []⟩
    tables := fun _ => tableOfAdds sampleCalls
    nextFileNumber := 6
    lastSequence := 2 }

/-- The reads of an operation on it when nothing else fails. -/
def sampleReads : Reads where
  loaded := fun _ => load (LdbTableKeys.plainOptions 1) sampleAccess
  points := fun _ => .ok (tableOfAdds sampleCalls).entries

/-- The compaction of the file into the next level. -/
def sampleRunning : Running :=
  ⟨⟨1, sampleDB.current.files 1, [], [], ⟨[99], 0, .deletion⟩⟩, sampleDB.current, 2, [6]⟩

theorem sampleAccess_unread : Unread (LdbTableKeys.plainOptions 1) sampleAccess := by
  have hfails : (match openIndex (LdbTableKeys.plainOptions 1) sampleFile sampleAccess.fileSize with
      | .ok p => decide (MetaFails p.1 p.2)
      | .error _ => false) = true := by decide +kernel
  rcases hopen : openIndex (LdbTableKeys.plainOptions 1) sampleFile sampleAccess.fileSize
    with s | ⟨t, footer⟩
  · rw [hopen] at hfails
    cases hfails
  · rw [hopen] at hfails
    refine .readMeta hopen (of_decide_eq_true hfails) ?_
    rw [findTable]
    show Table.openTable (LdbTableKeys.plainOptions 1) sampleFile sampleAccess.fileSize = _
    rw [openTable_eq, hopen]
    rfl

theorem sampleReads_eq :
    sampleReads = ⟨fun _ => .ok [], fun _ => .ok (tableOfAdds sampleCalls).entries⟩ := by
  have hload : load (LdbTableKeys.plainOptions 1) sampleAccess = .ok [] := by
    rcases load_of_unread sampleAccess_unread with ⟨s, hs⟩ | hok
    · have hfound : (load (LdbTableKeys.plainOptions 1) sampleAccess).toBool = true := by
        decide +kernel
      rw [hs] at hfound
      cases hfound
    · exact hok
  rw [sampleReads, hload]

/-- The reads of an operation that meets an error at the point entries too. -/
def failingReads : Reads := { sampleReads with points := fun _ => .error (.ioError "read") }

theorem failed_points_reported :
    failingReads.PointsFail sampleDB (.compaction sampleRunning)
      ∧ ¬failingReads.Ignores sampleOptions sampleDB 5 (.compaction sampleRunning) := by
  have hload : failingReads.loaded 5 = load (LdbTableKeys.plainOptions 1) sampleAccess := by
    rw [failingReads, sampleReads]
  have hfail : failingReads.PointsFail sampleDB (.compaction sampleRunning) :=
    ⟨_, List.mem_singleton_self _, .ioError "read", by rw [failingReads]⟩
  exact ⟨hfail, (ignored_unless_points_fail sampleOptions (LdbTableKeys.plainOptions 1)
    failingReads sampleDB 5 sampleAccess hload sampleAccess_unread (.compaction sampleRunning)
    ⟨_, List.mem_singleton_self _, rfl⟩).mpr hfail⟩

/-- **The range deletion is lost.**  `Get` finds the deleted value, a new iterator has
    no tombstones, and the compaction installs a table without the tombstone, while
    the table on disk hides the value. -/
theorem deleted_value_returns :
    Unread (LdbTableKeys.plainOptions 1) sampleAccess
      ∧ sampleReads.perform sampleOptions sampleDB (.get [97] 2) = .ok (.answer (.found [1]))
      ∧ (sampleDB.tables 5).internalGet [97] 2 = .deleted
      ∧ (sampleReads.job sampleRunning).rangeDels = []
      ∧ ∀ op ∈ [Operation.get [97] 2, .iterator ⟨[], []⟩ (sampleDB.current.files 1),
            .compaction sampleRunning],
          sampleReads.Involves sampleDB 5 op ∧ sampleReads.Ignores sampleOptions sampleDB 5 op := by
  have hinv : sampleReads.Involves sampleDB 5 (.get [97] 2)
      ∧ sampleReads.Involves sampleDB 5 (.iterator ⟨[], []⟩ (sampleDB.current.files 1))
      ∧ sampleReads.Involves sampleDB 5 (.compaction sampleRunning) := by
    refine ⟨⟨_, rfl, [], [], rfl, nofun⟩,
      ⟨1, by decide, _, List.mem_singleton_self _, rfl⟩, ⟨_, List.mem_singleton_self _, rfl⟩⟩
  have hignores : ∀ op result, sampleReads.Involves sampleDB 5 op →
      sampleReads.perform sampleOptions sampleDB op = .ok result →
      sampleReads.Involves sampleDB 5 op ∧ sampleReads.Ignores sampleOptions sampleDB 5 op :=
    fun op result hinv hok =>
      ⟨hinv, result, hok, perform_ignoring (Or.inr (by rw [sampleReads_eq])) hinv hok⟩
  rw [sampleReads_eq] at hinv hignores ⊢
  refine ⟨sampleAccess_unread, rfl, rfl, rfl, fun op hop => ?_⟩
  simp only [List.mem_cons, List.not_mem_nil, or_false] at hop
  rcases hop with rfl | rfl | rfl
  · exact hignores _ _ hinv.1 rfl
  · exact hignores _ _ hinv.2.1 rfl
  · exact hignores _ _ hinv.2.2 rfl

end LdbTableCache
