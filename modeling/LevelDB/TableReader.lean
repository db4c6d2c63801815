import LevelDB.TableBuilder
import LevelDB.TwoLevel

/-! # Reading a table

    `table/table.cc`.  `Open` reads the footer and the index block; the metaindex,
    the filter and the range deletions are read on a best effort, and an error there
    leaves the table without them.  The block cache is left out: a block is read from
    the file each time. -/

namespace LdbTableReader

open LdbFormat LdbCoding LdbComparator LdbEnv LdbBlock LdbFilterBlock LdbTableFormat LdbTableBuilder
open LdbTwoLevel

/-- `Table::Rep`. -/
structure Table where
  options : TableOptions
  file : RandomAccessFile
  filter : Option FilterBlockReader
  metaindexHandle : BlockHandle
  indexBlock : Block
  rangeDeletions : Option (List RangeDeletion)

/-- The range deletion an entry of the block encodes; a key without a tag is
    skipped. -/
def rangeDeletionOf (key value : Slice) : Option RangeDeletion :=
  if key.length < 8 then none
  else some ⟨key.take (key.length - 8), value,
    decodeFixed64 (key.drop (key.length - 8)) >>> 8⟩

/-- The loop of `ReadRangeDeletions`. -/
def collectRangeDeletions : Nat → AnyIter → List RangeDeletion
  | 0, _ => []
  | fuel + 1, it =>
    let I := iterOps bytewiseComparator
    if I.valid it = true then
      (rangeDeletionOf (I.key it) (I.value it)).toList ++ collectRangeDeletions fuel (I.next it)
    else []

namespace Table

/-- A block a handle leads to, read as `Open` and what it calls read it. -/
def readMetaBlock (o : TableOptions) (file : RandomAccessFile) (handleValue : Slice) :
    Except Status Slice :=
  match BlockHandle.decodeFrom handleValue with
  | .error s => .error s
  | .ok (handle, _) => readBlock o.codecs file o.paranoidChecks handle

/-- `ReadFilter`. -/
def readFilter (t : Table) (handleValue : Slice) : Table :=
  match readMetaBlock t.options t.file handleValue with
  | .error _ => t
  | .ok contents => { t with filter := some (FilterBlockReader.new contents) }

/-- `ReadRangeDeletions`.  A round of its loop takes three bytes of the block at
    least. -/
def readRangeDeletions (t : Table) (handleValue : Slice) : Table :=
  match readMetaBlock t.options t.file handleValue with
  | .error _ => t
  | .ok contents =>
    { t with
      rangeDeletions := some (collectRangeDeletions (contents.length + 1)
        ((iterOps bytewiseComparator).seekToFirst (Block.new contents).newIterator)) }

/-- What the metaindex says of a key, and the iterator after the search. -/
def lookUpMeta (it : AnyIter) (key : Slice) : Option Slice × AnyIter :=
  let I := iterOps bytewiseComparator
  let it := I.seek key it
  if I.valid it = true ∧ I.key it = key then (some (I.value it), it) else (none, it)

/-- The part of `ReadMeta` that finds the filter, with the iterator after it. -/
def readMetaFilter (t : Table) (it : AnyIter) : Table × AnyIter :=
  match t.options.filterPolicy with
  | none => (t, it)
  | some policy =>
    match lookUpMeta it (TableBuilder.filterKey policy) with
    | (none, it) => (t, it)
    | (some value, it) => (t.readFilter value, it)

/-- `ReadMeta`. -/
def readMeta (t : Table) (footer : Footer) : Table :=
  match readBlock t.options.codecs t.file t.options.paranoidChecks footer.metaindexHandle with
  | .error _ => t
  | .ok contents =>
    let r := t.readMetaFilter (Block.new contents).newIterator
    match (lookUpMeta r.2 TableBuilder.rangeDelKey).1 with
    | none => r.1
    | some value => r.1.readRangeDeletions value

/-- `Table::Open`. -/
def openTable (o : TableOptions) (file : RandomAccessFile) (size : Nat) : Except Status Table :=
  if size < kFooterLength then .error (.corruption "file is too short to be an sstable")
  else
    match file (size - kFooterLength) kFooterLength with
    | .error s => .error s
    | .ok input =>
      match Footer.decodeFrom input with
      | .error s => .error s
      | .ok footer =>
        match readBlock o.codecs file o.paranoidChecks footer.indexHandle with
        | .error s => .error s
        | .ok contents =>
          .ok (readMeta
            { options := o
              file := file
              filter := none
              metaindexHandle := footer.metaindexHandle
              indexBlock := Block.new contents
              rangeDeletions := none } footer)

/-- `Table::BlockReader`; an error becomes an iterator that has it. -/
def blockReader (t : Table) (verifyChecksums : Bool) (indexValue : Slice) : AnyIter :=
  match BlockHandle.decodeFrom indexValue with
  | .error s => .empty s
  | .ok (handle, _) =>
    match readBlock t.options.codecs t.file verifyChecksums handle with
    | .error s => .empty s
    | .ok contents => (Block.new contents).newIterator

/-- The two levels of `Table::NewIterator`. -/
def levels (t : Table) (verifyChecksums : Bool) :
    Levels AnyIter AnyIter Slice Slice Slice Status where
  index := iterOps t.options.comparator
  data := iterOps t.options.comparator
  blockFunction := t.blockReader verifyChecksums
  ok := .ok
  fuel := t.indexBlock.data.length + 1

/-- `Table::NewIterator`. -/
def newIterator (t : Table) (verifyChecksums : Bool) :
    TwoLevelIterator AnyIter AnyIter Slice Status :=
  .new (t.levels verifyChecksums) t.indexBlock.newIterator

/-- `Table::GetRangeDeletions`. -/
def getRangeDeletions (t : Table) : Option (List RangeDeletion) := t.rangeDeletions

end Table

end LdbTableReader
