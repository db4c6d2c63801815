import LevelDB.Durable

/-! # Repair

    `db/repair.cc` on a directory whose files are intact: the logs are turned into
    tables, the tables are scanned for their bounds and sequence numbers, and a new
    MANIFEST lists them all on level 0.

    `children` is what `GetChildren` lists, in its order, with the names parsed; a
    name that does not parse is left out.  The path for tables that cannot be read
    (`RepairTable`) is not modelled.  No call on a file fails. -/

namespace LdbRepair

open LdbFormat LdbVersion LdbEditCodec LdbEnv LdbLog LdbTable LdbVersionSet LdbDurable

/-- `FileType`, as far as `FindFiles` tells the types apart. -/
inductive FileType where
  | descriptorFile
  | logFile
  | tableFile
  | otherFile
  deriving DecidableEq

/-- `TableInfo`; the keys of a table without point entries stay cleared. -/
structure TableInfo where
  number : Nat
  fileSize : Nat
  smallest : Option InternalKey
  largest : Option InternalKey
  maxSequence : Nat

/-- `Repairer`, with the directory it works on. -/
structure Repairer where
  manifests : List Nat
  tableNumbers : List Nat
  logs : List Nat
  tables : List TableInfo
  nextFileNumber : Nat
  disk : Disk

/-- What `FindFiles` does with one file. -/
def Repairer.note (r : Repairer) (file : FileType × Nat) : Repairer :=
  match file.1 with
  | .descriptorFile => { r with manifests := r.manifests ++ [file.2] }
  | .logFile =>
    { r with nextFileNumber := max r.nextFileNumber (file.2 + 1), logs := r.logs ++ [file.2] }
  | .tableFile =>
    { r with
      nextFileNumber := max r.nextFileNumber (file.2 + 1)
      tableNumbers := r.tableNumbers ++ [file.2] }
  | .otherFile => { r with nextFileNumber := max r.nextFileNumber (file.2 + 1) }

/-- `FindFiles` for a directory with files. -/
def findFiles (children : List (FileType × Nat)) (d : Disk) : Repairer :=
  children.foldl Repairer.note ⟨[], [], [], [], 1, d⟩

/-- The loop of `ConvertLogToTable`, at most `n` times: records that are too short
    are passed over, and so are errors of `InsertInto`. -/
def replayLoop : Nat → Reader → MemTable → MemTable
  | 0, _, mem => mem
  | n + 1, r, mem =>
    match r.readRecord with
    | (none, _) => mem
    | (some record, r) =>
      if record.length < LdbBatch.kHeader then replayLoop n r mem
      else replayLoop n r (LdbBatch.insertInto record mem).1

/-- The memtable `ConvertLogToTable` makes of a log; checksums are off, and every
    record takes bytes. -/
def replayLog (file : Slice) : MemTable :=
  replayLoop (file.length + 1) (Reader.new ⟨file, none⟩ false 0) MemTable.empty

/-- `ConvertLogToTable`, and `ArchiveFile` for the log. -/
def Repairer.convertLogToTable (o : Options) (r : Repairer) (log : Nat) : Repairer :=
  match r.disk.logs.lookup log with
  | none => r
  | some file =>
    let r := { r with disk := { r.disk with logs := r.disk.logs.erase log } }
    match buildTable o r.nextFileNumber (replayLog file).table with
    | none => { r with nextFileNumber := r.nextFileNumber + 1 }
    | some (_, t) =>
      { r with
        nextFileNumber := r.nextFileNumber + 1
        tableNumbers := r.tableNumbers ++ [r.nextFileNumber]
        disk := r.disk.apply (.putTable r.nextFileNumber t) }

/-- `ConvertLogFilesToTables`. -/
def Repairer.convertLogFilesToTables (o : Options) (r : Repairer) : Repairer :=
  r.logs.foldl (Repairer.convertLogToTable o) r

/-- What `ScanTable` finds out about a table: its iterator shows the point entries
    only. -/
def scanTable (number fileSize : Nat) (t : Table) : TableInfo where
  number := number
  fileSize := fileSize
  smallest := t.entries.head?.map (·.key)
  largest := t.entries.getLast?.map (·.key)
  maxSequence := t.entries.foldl (fun m e => max m e.key.sequence) 0

/-- `ExtractMetaData`; a table that is not there is dropped. -/
def Repairer.extractMetaData (fileSize : Nat → Nat) (r : Repairer) : Repairer :=
  { r with
    tables := r.tableNumbers.filterMap fun n =>
      (r.disk.tables n).map (scanTable n (fileSize n)) }

/-- An `InternalKey` as bytes; a cleared one has none. -/
def encodeOptional (k : Option InternalKey) : Slice := (k.map encodeKey).getD []

/-- The edit of `WriteDescriptor`. -/
def Repairer.edit (name : Slice) (r : Repairer) : WireEdit where
  comparator := some name
  logNumber := some 0
  nextFileNumber := some r.nextFileNumber
  lastSequence := some (r.tables.foldl (fun m t => max m t.maxSequence) 0)
  newFiles := r.tables.map fun t =>
    (0, ⟨t.number, t.fileSize, encodeOptional t.smallest, encodeOptional t.largest⟩)

/-- `WriteDescriptor`: the old MANIFEST files are put away before the new one gets
    the number 1. -/
def Repairer.writeDescriptor (name : Slice) (r : Repairer) : Disk :=
  let record := (Writer.new.addRecord ⟨[], []⟩ (r.edit name).encodeTo).2.2.contents
  let old := r.manifests.foldl (fun m n => m.remove n) r.disk.manifests
  { r.disk with manifests := (old.put 1 record).setCurrent 1 }

/-- The repairer when the tables are scanned. -/
def scanned (o : Options) (fileSize : Nat → Nat) (children : List (FileType × Nat)) (d : Disk) :
    Repairer :=
  ((findFiles children d).convertLogFilesToTables o).extractMetaData fileSize

/-- `RepairDB`. -/
def repairDB (o : Options) (name : Slice) (fileSize : Nat → Nat)
    (children : List (FileType × Nat)) (d : Disk) : Status × Disk :=
  if children = [] then (.ioError "repair found no files", d)
  else (.ok, (scanned o fileSize children d).writeDescriptor name)

end LdbRepair
