import LevelDB.Coding
import LevelDB.Comparator
import LevelDB.Cursor
import LevelDB.Env

/-! # Blocks of a table

    `BlockBuilder` (`table/block_builder.cc`) and `Block` with its iterator
    (`table/block.cc`).  A block is a run of entries, each of which omits the bytes
    its key shares with the key before it, then the offsets of the restart points,
    at which nothing is shared, and their number.

    Offsets are 32-bit numbers.  A loop over entries makes one round per entry, and
    each takes three bytes at least. -/

namespace LdbBlock

open LdbFormat LdbCoding LdbComparator LdbEnv Cursors

/-! ## Building -/

/-- `BlockBuilder`. -/
structure BlockBuilder where
  buffer : Slice
  restarts : List Nat
  counter : Nat
  lastKey : Slice
  deriving DecidableEq

/-- A new builder, and one after `Reset`. -/
def BlockBuilder.new : BlockBuilder := ⟨[], [0], 0, []⟩

/-- `BlockBuilder::empty`. -/
def BlockBuilder.empty (b : BlockBuilder) : Bool := b.buffer.isEmpty

/-- `BlockBuilder::CurrentSizeEstimate`. -/
def BlockBuilder.currentSizeEstimate (b : BlockBuilder) : Nat :=
  b.buffer.length + b.restarts.length * 4 + 4

/-- An entry whose key shares its first `shared` bytes with the key before it. -/
def encodeEntry (shared : Nat) (key value : Slice) : Slice :=
  putVarint32 (shared % 2 ^ 32) ++ putVarint32 ((key.length - shared) % 2 ^ 32)
    ++ putVarint32 (value.length % 2 ^ 32) ++ key.drop shared ++ value

/-- `BlockBuilder::Add`. -/
def BlockBuilder.add (interval : Nat) (b : BlockBuilder) (key value : Slice) : BlockBuilder :=
  if b.counter < interval then
    let shared := sharedLength b.lastKey key
    { b with
      buffer := b.buffer ++ encodeEntry shared key value
      counter := b.counter + 1
      lastKey := b.lastKey.take shared ++ key.drop shared }
  else
    { buffer := b.buffer ++ encodeEntry 0 key value
      restarts := b.restarts ++ [b.buffer.length % 2 ^ 32]
      counter := 1
      lastKey := b.lastKey.take 0 ++ key.drop 0 }

/-- `BlockBuilder::Finish`. -/
def BlockBuilder.finish (b : BlockBuilder) : Slice :=
  b.buffer ++ b.restarts.flatMap encodeFixed32 ++ encodeFixed32 b.restarts.length

/-- The builder after some calls of `Add`. -/
def BlockBuilder.addAll (interval : Nat) (b : BlockBuilder) (es : List (Slice × Slice)) :
    BlockBuilder :=
  es.foldl (fun b e => b.add interval e.1 e.2) b

/-! ## Reading -/

/-- `Block`; the size is 0 if the contents are too short for their restart array. -/
structure Block where
  data : Slice
  size : Nat
  restartOffset : Nat
  deriving DecidableEq

/-- `Block::NumRestarts` for contents of four bytes at least. -/
def numRestarts (data : Slice) : Nat := decodeFixed32 (data.drop (data.length - 4))

/-- `Block::Block`. -/
def Block.new (contents : Slice) : Block :=
  if contents.length < 4 then ⟨contents, 0, 0⟩
  else if (contents.length - 4) / 4 < numRestarts contents then ⟨contents, 0, 0⟩
  else ⟨contents, contents.length,
    (contents.length - (1 + numRestarts contents) * 4) % 2 ^ 32⟩

/-- `DecodeEntry` on the bytes from an entry to the restart array: the lengths in its
    header, and what follows the header.  The sum of the two lengths is a 32-bit
    number. -/
def decodeEntry : Slice → Option (Nat × Nat × Nat × Slice)
  | a :: b :: c :: rest =>
    let header : Option (Nat × Nat × Nat × Slice) :=
      if (a ||| b ||| c).toNat < 128 then some (a.toNat, b.toNat, c.toNat, rest)
      else
        match getVarint32 (a :: b :: c :: rest) with
        | none => none
        | some (shared, p) =>
          match getVarint32 p with
          | none => none
          | some (nonShared, p) =>
            match getVarint32 p with
            | none => none
            | some (valueLength, p) => some (shared, nonShared, valueLength, p)
    match header with
    | none => none
    | some (shared, nonShared, valueLength, p) =>
      if p.length % 2 ^ 32 < (nonShared + valueLength) % 2 ^ 32 then none
      else some (shared, nonShared, valueLength, p)
  | _ => none

/-- `Block::Iter`.  The value is a slice of the block, given by its offset and its
    size. -/
structure BlockIter where
  data : Slice
  restarts : Nat
  numRestarts : Nat
  current : Nat
  restartIndex : Nat
  key : Slice
  valueOffset : Nat
  valueSize : Nat
  status : Status
  deriving DecidableEq

namespace BlockIter

/-- `Block::Iter::Iter`. -/
def new (data : Slice) (restarts numRestarts : Nat) : BlockIter :=
  ⟨data, restarts, numRestarts, restarts, numRestarts, [], 0, 0, .ok⟩

/-- `Valid`. -/
def valid (it : BlockIter) : Bool := decide (it.current < it.restarts)

/-- `value`. -/
def value (it : BlockIter) : Slice := (it.data.drop it.valueOffset).take it.valueSize

/-- `NextEntryOffset`. -/
def nextEntryOffset (it : BlockIter) : Nat := (it.valueOffset + it.valueSize) % 2 ^ 32

/-- `GetRestartPoint`. -/
def getRestartPoint (it : BlockIter) (index : Nat) : Nat :=
  decodeFixed32 (it.data.drop (it.restarts + index * 4))

/-- `SeekToRestartPoint`. -/
def seekToRestartPoint (it : BlockIter) (index : Nat) : BlockIter :=
  { it with
    key := []
    restartIndex := index
    valueOffset := it.getRestartPoint index
    valueSize := 0 }

/-- `CorruptionError`. -/
def corruptionError (it : BlockIter) : BlockIter :=
  { it with
    current := it.restarts
    restartIndex := it.numRestarts
    status := .corruption "bad entry in block"
    key := []
    valueOffset := 0
    valueSize := 0 }

/-- The loop of `ParseNextKey` over the restart points up to the current entry. -/
def advanceRestart (it : BlockIter) (current : Nat) : Nat → Nat → Nat
  | 0, index => index
  | fuel + 1, index =>
    if index + 1 < it.numRestarts ∧ it.getRestartPoint (index + 1) < current then
      advanceRestart it current fuel (index + 1)
    else index

/-- `ParseNextKey`, with its result. -/
def parseNextKey (it : BlockIter) : Bool × BlockIter :=
  let current := it.nextEntryOffset
  if it.restarts ≤ current then
    (false, { it with current := it.restarts, restartIndex := it.numRestarts })
  else
    match decodeEntry ((it.data.take it.restarts).drop current) with
    | none => (false, it.corruptionError)
    | some (shared, nonShared, valueLength, rest) =>
      if it.key.length < shared then (false, it.corruptionError)
      else
        let p := (it.data.take it.restarts).length - rest.length
        (true, { it with
          current := current
          key := it.key.take shared ++ (it.data.drop p).take nonShared
          valueOffset := p + nonShared
          valueSize := valueLength
          restartIndex := it.advanceRestart current it.numRestarts it.restartIndex })

/-- `Next`. -/
def next (it : BlockIter) : BlockIter := it.parseNextKey.2

/-- The loop of `Prev` over restart points: the last one before `original`, if
    there is one. -/
def restartBefore (it : BlockIter) (original : Nat) : Nat → Option Nat
  | 0 => if original ≤ it.getRestartPoint 0 then none else some 0
  | index + 1 =>
    if original ≤ it.getRestartPoint (index + 1) then restartBefore it original index
    else some (index + 1)

/-- The loops over entries that go on while the end of the entry is before
    `limit`. -/
def parseUpTo (limit : Nat) : Nat → BlockIter → BlockIter
  | 0, it => it
  | fuel + 1, it =>
    let r := it.parseNextKey
    if r.1 = true ∧ r.2.nextEntryOffset < limit then parseUpTo limit fuel r.2 else r.2

/-- `Prev`. -/
def prev (it : BlockIter) : BlockIter :=
  match it.restartBefore it.current it.restartIndex with
  | none => { it with current := it.restarts, restartIndex := it.numRestarts }
  | some index => parseUpTo it.current (it.restarts + 1) (it.seekToRestartPoint index)

/-- `SeekToFirst`. -/
def seekToFirst (it : BlockIter) : BlockIter := (it.seekToRestartPoint 0).next

/-- `SeekToLast`. -/
def seekToLast (it : BlockIter) : BlockIter :=
  parseUpTo it.restarts (it.restarts + 1) (it.seekToRestartPoint (it.numRestarts - 1))

section Seek

variable (cmp : Comparator)

/-- The binary search of `Seek` in the restart array; `none` stands for a bad
    entry. -/
def searchRestarts (it : BlockIter) (target : Slice) : Nat → Nat → Nat → Option Nat
  | 0, left, _ => some left
  | fuel + 1, left, right =>
    if left < right then
      let mid := (left + right + 1) / 2
      let regionOffset := it.getRestartPoint mid
      match decodeEntry ((it.data.take it.restarts).drop regionOffset) with
      | none => none
      | some (shared, nonShared, _, rest) =>
        if shared ≠ 0 then none
        else
          let p := (it.data.take it.restarts).length - rest.length
          if cmp.compare ((it.data.drop p).take nonShared) target = .lt then
            searchRestarts it target fuel mid right
          else searchRestarts it target fuel left (mid - 1)
    else some left

/-- The linear search of `Seek`. -/
def parseToKey (target : Slice) : Nat → BlockIter → BlockIter
  | 0, it => it
  | fuel + 1, it =>
    let r := it.parseNextKey
    if r.1 = true ∧ cmp.compare r.2.key target = .lt then parseToKey target fuel r.2 else r.2

/-- `Seek` from the part of the restart array it has to look at; `compared` is how
    the current key compares, if there is one. -/
def seekBetween (it : BlockIter) (target : Slice) (compared : Ordering) (left right : Nat) :
    BlockIter :=
  match it.searchRestarts cmp target it.numRestarts left right with
  | none => it.corruptionError
  | some left =>
    if left = it.restartIndex ∧ compared = .lt then parseToKey cmp target (it.restarts + 1) it
    else parseToKey cmp target (it.restarts + 1) (it.seekToRestartPoint left)

/-- `Seek`. -/
def seek (target : Slice) (it : BlockIter) : BlockIter :=
  if it.valid = true then
    match cmp.compare it.key target with
    | .lt => it.seekBetween cmp target .lt it.restartIndex (it.numRestarts - 1)
    | .gt => it.seekBetween cmp target .gt 0 it.restartIndex
    | .eq => it
  else it.seekBetween cmp target .eq 0 (it.numRestarts - 1)

end Seek

end BlockIter

/-- What `Block::NewIterator` returns: an iterator over the entries, or one without
    entries that has a status. -/
inductive AnyIter where
  | empty (status : Status)
  | block (it : BlockIter)
  deriving DecidableEq

/-- `Block::NewIterator`. -/
def Block.newIterator (b : Block) : AnyIter :=
  if b.size < 4 then .empty (.corruption "bad block contents")
  else if numRestarts b.data = 0 then .empty .ok
  else .block (BlockIter.new b.data b.restartOffset (numRestarts b.data))

/-- The calls of these iterators. -/
def iterOps (cmp : Comparator) : IteratorOps AnyIter Slice Slice Status where
  valid | .empty _ => false | .block it => it.valid
  key | .empty _ => [] | .block it => it.key
  value | .empty _ => [] | .block it => it.value
  status | .empty s => s | .block it => it.status
  seekToFirst | .empty s => .empty s | .block it => .block it.seekToFirst
  seekToLast | .empty s => .empty s | .block it => .block it.seekToLast
  seek target | .empty s => .empty s | .block it => .block (it.seek cmp target)
  next | .empty s => .empty s | .block it => .block it.next
  prev | .empty s => .empty s | .block it => .block it.prev

end LdbBlock
