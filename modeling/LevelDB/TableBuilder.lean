import LevelDB.FilterBlock
import LevelDB.TableFormat

/-! # Building a table

    `table/table_builder.cc`.  Entries go into data blocks; an entry whose key ends
    in a tag of type `kTypeRangeDeletion` goes into a block of its own.  The index
    entry of a data block is written when the first key of the next one is known. -/

namespace LdbTableBuilder

open LdbFormat LdbCoding LdbComparator LdbEnv LdbBlock LdbFilterBlock LdbTableFormat

/-- The fields of `Options` that a table uses, with the compressors of the build. -/
structure TableOptions where
  comparator : Comparator
  blockSize : Nat
  blockRestartInterval : Nat
  compression : CompressionType
  filterPolicy : Option FilterPolicy
  paranoidChecks : Bool
  codecs : Codecs

/-- `TableBuilder::Rep`. -/
structure TableBuilder where
  file : WritableFile
  offset : Nat
  status : Status
  dataBlock : BlockBuilder
  indexBlock : BlockBuilder
  rangeDelBlock : BlockBuilder
  lastKey : Slice
  numEntries : Nat
  filterBlock : FilterBlockBuilder
  pendingIndexEntry : Bool
  pendingHandle : BlockHandle

/-- The type byte of a key that is long enough to have a tag is that of a range
    deletion. -/
def isRangeDeletionKey (key : Slice) : Bool :=
  decide (8 ≤ key.length
    ∧ decodeFixed64 (key.drop (key.length - 8)) % 2 ^ 8 = ValueType.rangeDeletion.code)

namespace TableBuilder

/-- `TableBuilder::TableBuilder`; the filter builder of a table without a policy is
    never used. -/
def new (file : WritableFile) : TableBuilder where
  file := file
  offset := 0
  status := .ok
  dataBlock := .new
  indexBlock := .new
  rangeDelBlock := .new
  lastKey := []
  numEntries := 0
  filterBlock := {}
  pendingIndexEntry := false
  pendingHandle := ⟨0, 0⟩

variable (o : TableOptions)

/-- `WriteRawBlock`, with the handle it sets. -/
def writeRawBlock (r : TableBuilder) (contents : Slice) (type : CompressionType) :
    TableBuilder × BlockHandle :=
  let a := ifOk (r.file.append contents) (·.append (trailer contents type))
  ({ r with
      file := a.2
      status := a.1
      offset := if a.1 = .ok then r.offset + contents.length + kBlockTrailerSize else r.offset },
   ⟨r.offset, contents.length⟩)

/-- `WriteBlock`, with the handle it sets; the caller resets the block. -/
def writeBlock (r : TableBuilder) (block : BlockBuilder) : TableBuilder × BlockHandle :=
  let form := storedForm o.codecs o.compression block.finish
  r.writeRawBlock form.1 form.2

/-- The call of the filter builder when there is a policy. -/
def withFilter (r : TableBuilder)
    (f : FilterPolicy → FilterBlockBuilder → FilterBlockBuilder) : TableBuilder :=
  match o.filterPolicy with
  | none => r
  | some policy => { r with filterBlock := f policy r.filterBlock }

/-- `Flush`. -/
def flush (r : TableBuilder) : TableBuilder :=
  if r.status ≠ .ok then r
  else if r.dataBlock.empty = true then r
  else
    let w := r.writeBlock o r.dataBlock
    let r : TableBuilder := { w.1 with dataBlock := .new, pendingHandle := w.2 }
    let r :=
      if r.status = .ok then
        let f := r.file.flush
        { r with pendingIndexEntry := true, file := f.2, status := f.1 }
      else r
    r.withFilter o fun policy b => b.startBlock policy r.offset

/-- The index entry that waits for the next key; the index has a restart point at
    every entry. -/
def addIndexEntry (r : TableBuilder) (key : Slice) : TableBuilder :=
  { r with
    lastKey := key
    indexBlock := r.indexBlock.add 1 key r.pendingHandle.encode
    pendingIndexEntry := false }

/-- `Add`. -/
def add (r : TableBuilder) (key value : Slice) : TableBuilder :=
  if r.status ≠ .ok then r
  else if isRangeDeletionKey key = true then
    { r with
      rangeDelBlock := r.rangeDelBlock.add o.blockRestartInterval key value
      numEntries := r.numEntries + 1 }
  else
    let r :=
      if r.pendingIndexEntry = true then
        r.addIndexEntry (o.comparator.findShortestSeparator r.lastKey key)
      else r
    let r := r.withFilter o fun _ b => b.addKey key
    let r :=
      { r with
        lastKey := key
        numEntries := r.numEntries + 1
        dataBlock := r.dataBlock.add o.blockRestartInterval key value }
    if o.blockSize ≤ r.dataBlock.currentSizeEstimate then r.flush o else r

/-- The bytes of an ASCII text. -/
def ascii (s : String) : Slice := s.toList.map fun c => UInt8.ofNat c.toNat

/-- The key of the filter block in the metaindex. -/
def filterKey (policy : FilterPolicy) : Slice := ascii "filter." ++ policy.name

/-- The key of the range deletions in the metaindex. -/
def rangeDelKey : Slice := ascii "leveldb.range_deletions"

/-- A part of `Finish` that is done only while the status is good. -/
def whenOk (r : TableBuilder) (f : TableBuilder → TableBuilder × BlockHandle) :
    TableBuilder × BlockHandle :=
  if r.status = .ok then f r else (r, ⟨2 ^ 64 - 1, 2 ^ 64 - 1⟩)

/-- The entries of the metaindex. -/
def metaEntries (filter : Option (FilterPolicy × BlockHandle)) (rangeDel : Option BlockHandle) :
    List (Slice × Slice) :=
  (filter.map fun f => (filterKey f.1, f.2.encode)).toList
    ++ (rangeDel.map fun h => (rangeDelKey, h.encode)).toList

/-- The part of `Finish` that writes the range deletions. -/
def finishRangeDels (r : TableBuilder) : TableBuilder × Option BlockHandle :=
  if r.rangeDelBlock.empty = true then (r, none)
  else
    let w := r.whenOk fun r => r.writeBlock o r.rangeDelBlock
    (w.1, some w.2)

/-- The part of `Finish` that writes the filter block. -/
def finishFilter (r : TableBuilder) : TableBuilder × Option (FilterPolicy × BlockHandle) :=
  match o.filterPolicy with
  | none => (r, none)
  | some policy =>
    let w := r.whenOk fun r => r.writeRawBlock (r.filterBlock.finish policy) .noCompression
    (w.1, some (policy, w.2))

/-- The part of `Finish` that writes the metaindex block. -/
def finishMetaindex (r : TableBuilder) (filter : Option (FilterPolicy × BlockHandle))
    (rangeDel : Option BlockHandle) : TableBuilder × BlockHandle :=
  r.whenOk fun r =>
    r.writeBlock o (BlockBuilder.new.addAll o.blockRestartInterval (metaEntries filter rangeDel))

/-- The part of `Finish` that writes the index block. -/
def finishIndex (r : TableBuilder) : TableBuilder × BlockHandle :=
  r.whenOk fun r =>
    let r :=
      if r.pendingIndexEntry = true then
        r.addIndexEntry (o.comparator.findShortSuccessor r.lastKey)
      else r
    r.writeBlock o r.indexBlock

/-- The part of `Finish` that writes the footer. -/
def finishFooter (r : TableBuilder) (footer : Footer) : TableBuilder :=
  if r.status = .ok then
    let a := r.file.append footer.encode
    { r with
      file := a.2
      status := a.1
      offset := if a.1 = .ok then r.offset + footer.encode.length else r.offset }
  else r

/-- `Finish`; its result is the status. -/
def finish (r : TableBuilder) : TableBuilder :=
  let r := r.flush o
  let rangeDel := r.finishRangeDels o
  let filter := rangeDel.1.finishFilter o
  let metaindex := filter.1.finishMetaindex o filter.2 rangeDel.2
  let index := metaindex.1.finishIndex o
  index.1.finishFooter ⟨metaindex.2, index.2⟩

/-- The builder after some calls of `Add`. -/
def addAll (r : TableBuilder) (calls : List (Slice × Slice)) : TableBuilder :=
  calls.foldl (fun r e => r.add o e.1 e.2) r

end TableBuilder

/-- A table built by these calls of `Add` and by `Finish`, in a file that takes what
    is appended. -/
def build (o : TableOptions) (calls : List (Slice × Slice)) : TableBuilder :=
  ((TableBuilder.new ⟨[], []⟩).addAll o calls).finish o

end LdbTableBuilder
