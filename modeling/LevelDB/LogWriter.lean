import LevelDB.Blocked
import LevelDB.Crc32c
import LevelDB.Env

/-! # The log writer

    `db/log_format.h` and `db/log_writer.cc`.  A record is cut into fragments
    that fit into the blocks of the file; each is written with a header of
    checksum, length and type. -/

namespace LdbLog

open LdbFormat LdbCoding LdbEnv

/-- `enum RecordType`. -/
inductive RecordType where
  | zero
  | full
  | first
  | middle
  | last
  deriving DecidableEq, Repr

/-- The byte of a record type. -/
def RecordType.code : RecordType → Nat
  | .zero   => 0
  | .full   => 1
  | .first  => 2
  | .middle => 3
  | .last   => 4

/-- `kBlockSize`. -/
def kBlockSize : Nat := 32768

/-- `kHeaderSize`: checksum (4 bytes), length (2 bytes), type (1 byte). -/
def kHeaderSize : Nat := 4 + 2 + 1

/-- `log::Writer`, its destination apart. -/
structure Writer where
  blockOffset : Nat
  deriving DecidableEq, Repr

/-- The writer of a new file. -/
def Writer.new : Writer := ⟨0⟩

/-- The writer of a file that holds `destLength` bytes already. -/
def Writer.resume (destLength : Nat) : Writer := ⟨destLength % kBlockSize⟩

/-- `type_crc_`: the checksum of the type byte. -/
def typeCrc (t : RecordType) : UInt32 := LdbCrc32c.value [lowByte t.code]

/-- The header `EmitPhysicalRecord` puts before `data`. -/
def header (t : RecordType) (data : Slice) : Slice :=
  encodeFixed32 (LdbCrc32c.mask (LdbCrc32c.extend (typeCrc t) data)).toNat
    ++ [lowByte (data.length % 2 ^ 8), lowByte (data.length >>> 8), lowByte t.code]

/-- `Writer::EmitPhysicalRecord`: header, payload and flush, each only if the
    call before it succeeded.  `block_offset_` advances also on failure. -/
def Writer.emitPhysicalRecord (w : Writer) (dest : WritableFile) (t : RecordType) (data : Slice) :
    Status × Writer × WritableFile :=
  let r := ifOk (ifOk (dest.append (header t data)) (·.append data)) (·.flush)
  (r.1, ⟨w.blockOffset + kHeaderSize + data.length⟩, r.2)

/-- The type of a fragment, by whether it is the first and the last of its record. -/
def fragmentType (begin_ end_ : Bool) : RecordType :=
  if begin_ && end_ then .full
  else if begin_ then .first
  else if end_ then .last
  else .middle

/-- The head of the loop of `AddRecord`: a tail of the block too short for a
    header is filled with zeros, whose `Append` goes unchecked, and a new block
    begins. -/
def Writer.switchBlock (w : Writer) (dest : WritableFile) : Writer × WritableFile :=
  let leftover := kBlockSize - w.blockOffset
  if leftover < kHeaderSize then
    (⟨0⟩, if 0 < leftover then (dest.append (List.replicate leftover 0)).2 else dest)
  else (w, dest)

/-- The loop of `Writer::AddRecord`, at most `n` times.  Only the first fragment
    can be empty, so a record of `m` bytes has at most `m + 2` of them. -/
def Writer.addRecordLoop : Nat → Bool → Slice → Writer → WritableFile →
    Status × Writer × WritableFile
  | 0, _, _, w, dest => (.ok, w, dest)
  | n + 1, begin_, left, w, dest =>
    let (w, dest) := w.switchBlock dest
    let avail := kBlockSize - w.blockOffset - kHeaderSize
    let fragment := left.take avail
    let end_ : Bool := left.length = fragment.length
    let (s, w, dest) := w.emitPhysicalRecord dest (fragmentType begin_ end_) fragment
    let left := left.drop fragment.length
    if s = .ok ∧ left ≠ [] then addRecordLoop n false left w dest else (s, w, dest)

/-- `Writer::AddRecord`. -/
def Writer.addRecord (w : Writer) (dest : WritableFile) (slice : Slice) :
    Status × Writer × WritableFile :=
  w.addRecordLoop (slice.length + 2) true slice dest

end LdbLog
