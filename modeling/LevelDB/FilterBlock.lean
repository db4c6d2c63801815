import LevelDB.Coding

/-! # The filter block of a table

    `table/filter_block.cc`.  The policy is a parameter; a filter is made for every
    2 KiB of data. -/

namespace LdbFilterBlock

open LdbFormat LdbCoding

/-- `FilterPolicy`. -/
structure FilterPolicy where
  name : Slice
  createFilter : List Slice → Slice
  keyMayMatch : Slice → Slice → Bool

/-- `kFilterBaseLg`. -/
def kFilterBaseLg : Nat := 11

/-- `kFilterBase`. -/
def kFilterBase : Nat := 2 ^ kFilterBaseLg

/-- `FilterBlockBuilder`; the keys of the filter under construction stand in a list
    rather than end to end. -/
structure FilterBlockBuilder where
  keys : List Slice := []
  result : Slice := []
  filterOffsets : List Nat := []
  deriving DecidableEq

namespace FilterBlockBuilder

/-- `AddKey`. -/
def addKey (b : FilterBlockBuilder) (key : Slice) : FilterBlockBuilder :=
  { b with keys := b.keys ++ [key] }

/-- `GenerateFilter`. -/
def generateFilter (policy : FilterPolicy) (b : FilterBlockBuilder) : FilterBlockBuilder :=
  if b.keys = [] then { b with filterOffsets := b.filterOffsets ++ [b.result.length % 2 ^ 32] }
  else
    { keys := []
      result := b.result ++ policy.createFilter b.keys
      filterOffsets := b.filterOffsets ++ [b.result.length % 2 ^ 32] }

/-- `StartBlock`: each round of the loop adds one offset. -/
def startBlock (policy : FilterPolicy) (b : FilterBlockBuilder) (blockOffset : Nat) :
    FilterBlockBuilder :=
  (generateFilter policy)^[blockOffset / kFilterBase - b.filterOffsets.length] b

/-- `Finish`. -/
def finish (policy : FilterPolicy) (b : FilterBlockBuilder) : Slice :=
  let b := if b.keys = [] then b else b.generateFilter policy
  b.result ++ b.filterOffsets.flatMap encodeFixed32 ++ encodeFixed32 (b.result.length % 2 ^ 32)
    ++ [lowByte kFilterBaseLg]

end FilterBlockBuilder

/-- `FilterBlockReader`; `num` is 0 if the contents are not those of a filter
    block. -/
structure FilterBlockReader where
  data : Slice
  offset : Nat
  num : Nat
  baseLg : Nat
  deriving DecidableEq

/-- `FilterBlockReader::FilterBlockReader`. -/
def FilterBlockReader.new (contents : Slice) : FilterBlockReader :=
  let n := contents.length
  if n < 5 then ⟨[], 0, 0, 0⟩
  else
    let baseLg := (contents.getD (n - 1) 0).toNat
    let lastWord := decodeFixed32 (contents.drop (n - 5))
    if n - 5 < lastWord then ⟨[], 0, 0, baseLg⟩
    else ⟨contents, lastWord, (n - 5 - lastWord) / 4, baseLg⟩

/-- `FilterBlockReader::KeyMayMatch`. -/
def FilterBlockReader.keyMayMatch (policy : FilterPolicy) (r : FilterBlockReader)
    (blockOffset : Nat) (key : Slice) : Bool :=
  let index := blockOffset / 2 ^ r.baseLg
  if index < r.num then
    let start := decodeFixed32 (r.data.drop (r.offset + index * 4))
    let limit := decodeFixed32 (r.data.drop (r.offset + index * 4 + 4))
    if start ≤ limit ∧ limit ≤ r.offset then
      policy.keyMayMatch key ((r.data.drop start).take (limit - start))
    else decide (start ≠ limit)
  else true

end LdbFilterBlock
