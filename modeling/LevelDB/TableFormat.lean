import LevelDB.Block
import LevelDB.Crc32c

/-! # The frame of a table file

    `table/format.{h,cc}`: handles of blocks, the footer, and the trailer of a block
    with its compression type and checksum.

    A `RandomAccessFile` answers a read at an offset with at most the bytes asked
    for, or with an error. -/

namespace LdbTableFormat

open LdbFormat LdbCoding LdbEnv LdbBlock

/-! ## Handles and the footer -/

/-- `BlockHandle`. -/
structure BlockHandle where
  offset : Nat
  size : Nat
  deriving DecidableEq

/-- `BlockHandle::EncodeTo`. -/
def BlockHandle.encode (h : BlockHandle) : Slice := putVarint64 h.offset ++ putVarint64 h.size

/-- `BlockHandle::DecodeFrom`. -/
def BlockHandle.decodeFrom (input : Slice) : Except Status (BlockHandle × Slice) :=
  match getVarint64 input with
  | none => .error (.corruption "bad block handle")
  | some (offset, input) =>
    match getVarint64 input with
    | none => .error (.corruption "bad block handle")
    | some (size, input) => .ok (⟨offset, size⟩, input)

/-- `kTableMagicNumber`. -/
def kTableMagicNumber : Nat := 0xdb4775248b80fb57

/-- `Footer::kEncodedLength`. -/
def kFooterLength : Nat := 48

/-- `Footer`. -/
structure Footer where
  metaindexHandle : BlockHandle
  indexHandle : BlockHandle
  deriving DecidableEq

/-- `std::string::resize`. -/
def resize (s : Slice) (n : Nat) : Slice := s.take n ++ List.replicate (n - s.length) 0

/-- `Footer::EncodeTo`. -/
def Footer.encode (f : Footer) : Slice :=
  resize (f.metaindexHandle.encode ++ f.indexHandle.encode) 40
    ++ encodeFixed32 (kTableMagicNumber % 2 ^ 32) ++ encodeFixed32 (kTableMagicNumber / 2 ^ 32)

/-- `Footer::DecodeFrom`. -/
def Footer.decodeFrom (input : Slice) : Except Status Footer :=
  if input.length < kFooterLength then .error (.corruption "not an sstable (footer too short)")
  else if decodeFixed32 (input.drop 44) * 2 ^ 32 + decodeFixed32 (input.drop 40)
      ≠ kTableMagicNumber then
    .error (.corruption "not an sstable (bad magic number)")
  else
    match BlockHandle.decodeFrom input with
    | .error s => .error s
    | .ok (metaindex, rest) =>
      match BlockHandle.decodeFrom rest with
      | .error s => .error s
      | .ok (index, _) => .ok ⟨metaindex, index⟩

/-! ## Compression -/

/-- `CompressionType`. -/
inductive CompressionType where
  | noCompression
  | snappyCompression
  | zstdCompression
  deriving DecidableEq

/-- The byte that stands for the type. -/
def CompressionType.code : CompressionType → UInt8
  | .noCompression     => 0
  | .snappyCompression => 1
  | .zstdCompression   => 2

/-- A compressor of `port/port.h`; `none` stands for a call that returns false. -/
structure Compressor where
  compress : Slice → Option Slice
  uncompressedLength : Slice → Option Nat
  uncompress : Slice → Option Slice

/-- Decompression inverts compression. -/
def Compressor.Inverts (c : Compressor) : Prop :=
  ∀ raw compressed, c.compress raw = some compressed →
    c.uncompressedLength compressed = some raw.length ∧ c.uncompress compressed = some raw

/-- The compressors of the build. -/
structure Codecs where
  snappy : Compressor
  zstd : Compressor

/-- The compressor of a type, if it has one. -/
def Codecs.compressor (codecs : Codecs) : CompressionType → Option Compressor
  | .noCompression     => none
  | .snappyCompression => some codecs.snappy
  | .zstdCompression   => some codecs.zstd

/-- What `WriteBlock` stores for a block, and under which type: the compressed form
    if there is one that saves an eighth. -/
def storedForm (codecs : Codecs) (type : CompressionType) (raw : Slice) : Slice × CompressionType :=
  match codecs.compressor type with
  | none => (raw, .noCompression)
  | some c =>
    match c.compress raw with
    | none => (raw, .noCompression)
    | some compressed =>
      if compressed.length < raw.length - raw.length / 8 then (compressed, type)
      else (raw, .noCompression)

/-! ## Blocks in a file -/

/-- `kBlockTrailerSize`. -/
def kBlockTrailerSize : Nat := 5

/-- The trailer of a block: its type, and the checksum of both. -/
def trailer (contents : Slice) (type : CompressionType) : Slice :=
  type.code :: encodeFixed32
    (LdbCrc32c.mask (LdbCrc32c.extend (LdbCrc32c.value contents) [type.code])).toNat

/-- A block as it stands in the file. -/
def rawBlock (contents : Slice) (type : CompressionType) : Slice := contents ++ trailer contents type

/-- `RandomAccessFile::Read`, by offset and number of bytes. -/
abbrev RandomAccessFile := Nat → Nat → Except Status Slice

/-- A file that returns what is in it. -/
def fileOf (contents : Slice) : RandomAccessFile := fun offset n =>
  .ok ((contents.drop offset).take n)

/-- The part of `ReadBlock` that takes a compressed block apart. -/
def uncompressBlock (c : Compressor) (name : String) (data : Slice) : Except Status Slice :=
  match c.uncompressedLength data with
  | none => .error (.corruption ("corrupted " ++ name ++ " compressed block length"))
  | some ulength =>
    match c.uncompress data with
    | none => .error (.corruption ("corrupted " ++ name ++ " compressed block contents"))
    | some raw => .ok (raw.take ulength)

/-- `ReadBlock`.  The sums of the size and the trailer's parts are 64-bit numbers. -/
def readBlock (codecs : Codecs) (file : RandomAccessFile) (verifyChecksums : Bool)
    (handle : BlockHandle) : Except Status Slice :=
  let n := handle.size
  match file handle.offset ((n + kBlockTrailerSize) % 2 ^ 64) with
  | .error s => .error s
  | .ok contents =>
    if contents.length ≠ (n + kBlockTrailerSize) % 2 ^ 64 then
      .error (.corruption "truncated block read")
    else if verifyChecksums = true
        ∧ LdbCrc32c.value (contents.take ((n + 1) % 2 ^ 64))
          ≠ LdbCrc32c.unmask
            (UInt32.ofNat (decodeFixed32 (contents.drop ((n + 1) % 2 ^ 64)))) then
      .error (.corruption "block checksum mismatch")
    else if contents.getD n 0 = CompressionType.noCompression.code then .ok (contents.take n)
    else if contents.getD n 0 = CompressionType.snappyCompression.code then
      uncompressBlock codecs.snappy "snappy" (contents.take n)
    else if contents.getD n 0 = CompressionType.zstdCompression.code then
      uncompressBlock codecs.zstd "zstd" (contents.take n)
    else .error (.corruption "bad block type")

/-! ## What is read back -/

theorem BlockHandle.decodeFrom_encode {h : BlockHandle} (ho : h.offset < 2 ^ 64)
    (hs : h.size < 2 ^ 64) (rest : Slice) :
    BlockHandle.decodeFrom (h.encode ++ rest) = .ok (h, rest) := by
  rw [BlockHandle.decodeFrom, BlockHandle.encode, List.append_assoc,
    getVarint64_putVarint64 _ ho]
  simp only
  rw [getVarint64_putVarint64 _ hs]

theorem putVarintLoop_length (n : Nat) : ∀ v, (putVarintLoop n v).length ≤ n + 1 := by
  induction n with
  | zero => intro v; exact Nat.le_refl _
  | succ n ih =>
    intro v
    rw [putVarintLoop]
    split_ifs
    · exact Nat.succ_le_succ (ih _)
    · exact Nat.succ_le_succ (Nat.zero_le _)

theorem BlockHandle.encode_length (h : BlockHandle) : h.encode.length ≤ 20 := by
  have h1 := putVarintLoop_length 9 h.offset
  have h2 := putVarintLoop_length 9 h.size
  rw [encode, List.length_append, putVarint64, putVarint64]
  omega

theorem Footer.encode_length (f : Footer) : f.encode.length = kFooterLength := by
  rw [encode, resize]
  simp only [List.length_append, List.length_take, List.length_replicate, encodeFixed32_length]
  rw [kFooterLength]
  omega

/-- **The footer is read back.** -/
theorem Footer.decodeFrom_encode {f : Footer}
    (hm : f.metaindexHandle.offset < 2 ^ 64 ∧ f.metaindexHandle.size < 2 ^ 64)
    (hi : f.indexHandle.offset < 2 ^ 64 ∧ f.indexHandle.size < 2 ^ 64) :
    Footer.decodeFrom f.encode = .ok f := by
  have h1 := f.metaindexHandle.encode_length
  have h2 := f.indexHandle.encode_length
  have hlen : (f.metaindexHandle.encode ++ f.indexHandle.encode).length ≤ 40 := by
    rw [List.length_append]
    omega
  have hpad : (resize (f.metaindexHandle.encode ++ f.indexHandle.encode) 40).length = 40 := by
    rw [resize, List.length_append, List.length_take, List.length_replicate]
    omega
  have hmagic : decodeFixed32 (f.encode.drop 44) * 2 ^ 32 + decodeFixed32 (f.encode.drop 40)
      = kTableMagicNumber := by
    have h40 : f.encode.drop 40 = encodeFixed32 (kTableMagicNumber % 2 ^ 32)
        ++ encodeFixed32 (kTableMagicNumber / 2 ^ 32) := by
      rw [encode, List.append_assoc]
      exact List.drop_left' hpad
    have h44 : f.encode.drop 44 = encodeFixed32 (kTableMagicNumber / 2 ^ 32) ++ [] := by
      rw [show 44 = 40 + 4 from rfl, ← List.drop_drop, h40, List.append_nil]
      exact List.drop_left' (encodeFixed32_length _)
    rw [h40, h44, decodeFixed32_encodeFixed32 _ (by decide),
      decodeFixed32_encodeFixed32 _ (by decide)]
    decide
  rw [decodeFrom, if_neg (by rw [f.encode_length]; exact Nat.lt_irrefl _),
    if_neg (fun hne => hne hmagic), encode, resize, List.take_of_length_le hlen]
  simp only [List.append_assoc]
  rw [BlockHandle.decodeFrom_encode hm.1 hm.2]
  simp only
  rw [BlockHandle.decodeFrom_encode hi.1 hi.2]

theorem trailer_length (contents : Slice) (type : CompressionType) :
    (trailer contents type).length = kBlockTrailerSize := by
  rw [trailer, List.length_cons, encodeFixed32_length, kBlockTrailerSize]

theorem rawBlock_length (contents : Slice) (type : CompressionType) :
    (rawBlock contents type).length = contents.length + kBlockTrailerSize := by
  rw [rawBlock, List.length_append, trailer_length]

theorem checksum_rawBlock (contents : Slice) (type : CompressionType) :
    LdbCrc32c.value ((rawBlock contents type).take (contents.length + 1))
      = LdbCrc32c.unmask
        (UInt32.ofNat (decodeFixed32 ((rawBlock contents type).drop (contents.length + 1)))) := by
  have htake : (rawBlock contents type).take (contents.length + 1) = contents ++ [type.code] := by
    rw [rawBlock, List.take_length_add_append, trailer]
    rfl
  have hdrop : (rawBlock contents type).drop (contents.length + 1)
      = encodeFixed32 (LdbCrc32c.mask
          (LdbCrc32c.extend (LdbCrc32c.value contents) [type.code])).toNat ++ [] := by
    rw [rawBlock, List.drop_length_add_append, trailer, List.append_nil]
    rfl
  rw [htake, hdrop, decodeFixed32_encodeFixed32 _ (UInt32.toNat_lt _), UInt32.ofNat_toNat,
    LdbCrc32c.unmask_mask, LdbCrc32c.value, LdbCrc32c.extend_append, LdbCrc32c.value]

/-- The contents of a block that is stored under a type. -/
def restoredForm (codecs : Codecs) (contents : Slice) : CompressionType → Except Status Slice
  | .noCompression     => .ok contents
  | .snappyCompression => uncompressBlock codecs.snappy "snappy" contents
  | .zstdCompression   => uncompressBlock codecs.zstd "zstd" contents

/-- What `ReadBlock` makes of a block that arrives as it was written. -/
theorem readBlock_rawBlock (codecs : Codecs) {file : RandomAccessFile} (verify : Bool)
    {offset : Nat} {contents : Slice} {type : CompressionType}
    (hlen : contents.length + kBlockTrailerSize < 2 ^ 64)
    (hread : file offset (contents.length + kBlockTrailerSize) = .ok (rawBlock contents type)) :
    readBlock codecs file verify ⟨offset, contents.length⟩ = restoredForm codecs contents type := by
  have htype : (rawBlock contents type).getD contents.length 0 = type.code := by
    rw [rawBlock, List.getD_eq_getElem?_getD, List.getElem?_append_right (Nat.le_refl _),
      Nat.sub_self]
    rfl
  have htake : (rawBlock contents type).take contents.length = contents := by
    rw [rawBlock, List.take_left]
  have hnext : contents.length + 1 < 2 ^ 64 := by
    rw [kBlockTrailerSize] at hlen
    omega
  rw [readBlock]
  simp only [Nat.mod_eq_of_lt hlen, Nat.mod_eq_of_lt hnext, hread, htype, htake]
  rw [if_neg (fun h => h (rawBlock_length contents type)),
    if_neg (fun h => h.2 (checksum_rawBlock contents type))]
  cases type <;> rfl

theorem uncompressBlock_compress {c : Compressor} (hc : c.Inverts) (name : String)
    {raw compressed : Slice} (h : c.compress raw = some compressed) :
    uncompressBlock c name compressed = .ok raw := by
  obtain ⟨hlen, hun⟩ := hc raw compressed h
  rw [uncompressBlock, hlen]
  simp only
  rw [hun]
  simp only [List.take_length]

/-- The compressor in use inverts, if there is one. -/
def Codecs.Sound (codecs : Codecs) (type : CompressionType) : Prop :=
  ∀ c, codecs.compressor type = some c → c.Inverts

/-- The two cases of the stored form. -/
theorem storedForm_cases (codecs : Codecs) (type : CompressionType) (raw : Slice) :
    storedForm codecs type raw = (raw, .noCompression)
      ∨ ∃ c compressed, codecs.compressor type = some c ∧ c.compress raw = some compressed
        ∧ storedForm codecs type raw = (compressed, type) := by
  rw [storedForm]
  cases hc : codecs.compressor type with
  | none => exact Or.inl rfl
  | some c =>
    cases hcomp : c.compress raw with
    | none => exact Or.inl (by simp only [hcomp])
    | some compressed =>
      simp only [hcomp]
      by_cases hlt : compressed.length < raw.length - raw.length / 8
      · rw [if_pos hlt]
        exact Or.inr ⟨c, compressed, rfl, hcomp, rfl⟩
      · rw [if_neg hlt]
        exact Or.inl rfl

/-- **A block is read back as it was before it was compressed.** -/
theorem readBlock_storedForm {codecs : Codecs} {type : CompressionType}
    (hc : codecs.Sound type) {file : RandomAccessFile} (verify : Bool) {offset : Nat}
    {raw : Slice}
    (hlen : (storedForm codecs type raw).1.length + kBlockTrailerSize < 2 ^ 64)
    (hread : file offset ((storedForm codecs type raw).1.length + kBlockTrailerSize)
      = .ok (rawBlock (storedForm codecs type raw).1 (storedForm codecs type raw).2)) :
    readBlock codecs file verify ⟨offset, (storedForm codecs type raw).1.length⟩ = .ok raw := by
  rw [readBlock_rawBlock codecs verify hlen hread]
  rcases storedForm_cases codecs type raw with h | ⟨c, compressed, htype, hcomp, h⟩
  · rw [h]
    rfl
  · have hinv := hc c htype
    rw [h]
    cases type with
    | noCompression => cases htype
    | snappyCompression =>
      cases htype
      exact uncompressBlock_compress hinv "snappy" hcomp
    | zstdCompression =>
      cases htype
      exact uncompressBlock_compress hinv "zstd" hcomp

end LdbTableFormat
