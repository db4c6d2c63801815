import LevelDB.TableFormat

/-! # Reading a block through an untrusted handle

    `ReadBlock` (`table/format.cc`) for a handle that was decoded from arbitrary
    bytes, with every access to the read buffer checked: `readBlockChecked` is
    `none` when the code looks at a byte outside what `Read` returned.

    The size of a handle is any 64-bit number, and the length check of `ReadBlock`
    adds the trailer's five bytes to it in 64 bits.  `readBlock_safe_iff` says for
    which inputs the accesses stay inside: for all with a sum below 2^64, and
    otherwise only where the read fails or the checksum is wrong. -/

namespace LdbUntrusted

open LdbFormat LdbCoding LdbEnv LdbTableFormat

/-! ## Accesses -/

/-- `n` bytes of a buffer from an offset; `none` if they are not all in it. -/
def bytesAt (buffer : Slice) (offset n : Nat) : Option Slice :=
  if offset + n ≤ buffer.length then some ((buffer.drop offset).take n) else none

/-- The checksum test of `ReadBlock`: the stored checksum, then the bytes it
    covers. -/
def checksumMatches (contents : Slice) (n : Nat) : Option Bool :=
  match bytesAt contents ((n + 1) % 2 ^ 64) 4 with
  | none => none
  | some stored =>
    match bytesAt contents 0 ((n + 1) % 2 ^ 64) with
    | none => none
    | some covered =>
      some (decide (LdbCrc32c.value covered
        = LdbCrc32c.unmask (UInt32.ofNat (decodeFixed32 stored))))

/-- The switch of `ReadBlock` over the type byte.  An uncompressed block is returned
    without being looked at. -/
def restoreChecked (codecs : Codecs) (contents : Slice) (n : Nat) :
    Option (Except Status Slice) :=
  match bytesAt contents n 1 with
  | none => none
  | some type =>
    if type.getD 0 0 = CompressionType.noCompression.code then some (.ok (contents.take n))
    else if type.getD 0 0 = CompressionType.snappyCompression.code then
      (bytesAt contents 0 n).map (uncompressBlock codecs.snappy "snappy")
    else if type.getD 0 0 = CompressionType.zstdCompression.code then
      (bytesAt contents 0 n).map (uncompressBlock codecs.zstd "zstd")
    else some (.error (.corruption "bad block type"))

/-- `ReadBlock` with its accesses to the read buffer checked. -/
def readBlockChecked (codecs : Codecs) (file : RandomAccessFile) (verifyChecksums : Bool)
    (handle : BlockHandle) : Option (Except Status Slice) :=
  match file handle.offset ((handle.size + kBlockTrailerSize) % 2 ^ 64) with
  | .error s => some (.error s)
  | .ok contents =>
    if contents.length ≠ (handle.size + kBlockTrailerSize) % 2 ^ 64 then
      some (.error (.corruption "truncated block read"))
    else
      match (if verifyChecksums = true then checksumMatches contents handle.size
        else some true) with
      | none => none
      | some false => some (.error (.corruption "block checksum mismatch"))
      | some true => restoreChecked codecs contents handle.size

variable {n : Nat} {contents : Slice} {codecs : Codecs} {file : RandomAccessFile}
  {handle : BlockHandle}

theorem bytesAt_eq_some {buffer bytes : Slice} {offset : Nat} :
    bytesAt buffer offset n = some bytes ↔
      offset + n ≤ buffer.length ∧ (buffer.drop offset).take n = bytes := by
  rw [bytesAt]
  split_ifs with h
  · rw [Option.some.injEq]
    exact ⟨fun heq => ⟨h, heq⟩, And.right⟩
  · exact ⟨fun hno => absurd hno (by simp), fun hle => absurd hle.1 h⟩

theorem decodeFixed32_take (s : Slice) : decodeFixed32 (s.take 4) = decodeFixed32 s := by
  rw [decodeFixed32, decodeFixed32, List.take_take, Nat.min_self]

/-- What the checksum test finds when it stays inside. -/
theorem checksumMatches_eq_some {b : Bool} (h : checksumMatches contents n = some b) :
    b = decide (LdbCrc32c.value (contents.take ((n + 1) % 2 ^ 64))
      = LdbCrc32c.unmask
        (UInt32.ofNat (decodeFixed32 (contents.drop ((n + 1) % 2 ^ 64))))) := by
  rw [checksumMatches] at h
  cases hstored : bytesAt contents ((n + 1) % 2 ^ 64) 4 with
  | none =>
    rw [hstored] at h
    cases h
  | some stored =>
    cases hcovered : bytesAt contents 0 ((n + 1) % 2 ^ 64) with
    | none =>
      simp only [hstored, hcovered] at h
      cases h
    | some covered =>
      simp only [hstored, hcovered, Option.some.injEq] at h
      obtain ⟨-, rfl⟩ := bytesAt_eq_some.mp hstored
      obtain ⟨-, rfl⟩ := bytesAt_eq_some.mp hcovered
      rw [← h, decodeFixed32_take, List.drop_zero]

/-- The checked switch is the switch of the model wherever it stays inside. -/
theorem restoreChecked_eq_some {r : Except Status Slice}
    (h : restoreChecked codecs contents n = some r) :
    n < contents.length
      ∧ r = if contents.getD n 0 = CompressionType.noCompression.code then .ok (contents.take n)
        else if contents.getD n 0 = CompressionType.snappyCompression.code then
          uncompressBlock codecs.snappy "snappy" (contents.take n)
        else if contents.getD n 0 = CompressionType.zstdCompression.code then
          uncompressBlock codecs.zstd "zstd" (contents.take n)
        else .error (.corruption "bad block type") := by
  rw [restoreChecked] at h
  cases htype : bytesAt contents n 1 with
  | none =>
    rw [htype] at h
    cases h
  | some type =>
    obtain ⟨hle, rfl⟩ := bytesAt_eq_some.mp htype
    have hbyte : ((contents.drop n).take 1).getD 0 0 = contents.getD n 0 := by
      simp [List.getD_eq_getElem?_getD]
    have hall : bytesAt contents 0 n = some (contents.take n) :=
      bytesAt_eq_some.mpr ⟨by omega, by rw [List.drop_zero]⟩
    simp only [htype, hbyte, hall, Option.map_some] at h
    refine ⟨by omega, ?_⟩
    split_ifs at h ⊢ <;> exact (Option.some.inj h).symm

variable {verify : Bool}

/-- **The checked function is the model** wherever its accesses stay inside. -/
theorem readBlock_of_checked {r : Except Status Slice}
    (h : readBlockChecked codecs file verify handle = some r) :
    readBlock codecs file verify handle = r := by
  rw [readBlockChecked] at h
  rw [readBlock]
  cases hread : file handle.offset ((handle.size + kBlockTrailerSize) % 2 ^ 64) with
  | error s =>
    rw [hread] at h
    exact Option.some.inj h
  | ok contents =>
    simp only [hread] at h ⊢
    by_cases hlen : contents.length ≠ (handle.size + kBlockTrailerSize) % 2 ^ 64
    · rw [if_pos hlen] at h ⊢
      exact Option.some.inj h
    · rw [if_neg hlen] at h ⊢
      cases verify with
      | false =>
        simp only [Bool.false_eq_true, if_false, false_and] at h ⊢
        exact (restoreChecked_eq_some h).2.symm
      | true =>
        simp only [if_true, true_and] at h ⊢
        cases hsum : checksumMatches contents handle.size with
        | none =>
          rw [hsum] at h
          cases h
        | some b =>
          have hb := checksumMatches_eq_some hsum
          rw [hsum] at h
          cases b with
          | false =>
            rw [if_pos (of_decide_eq_false hb.symm)]
            exact Option.some.inj h
          | true =>
            rw [if_neg (not_not.mpr (of_decide_eq_true hb.symm))]
            exact (restoreChecked_eq_some h).2.symm

/-! ## Handles and files -/

/-- A handle that `BlockHandle::DecodeFrom` or `Footer::DecodeFrom` made of some
    bytes. -/
def Decoded (handle : BlockHandle) : Prop :=
  (∃ input rest, BlockHandle.decodeFrom input = .ok (handle, rest))
    ∨ ∃ input footer, Footer.decodeFrom input = .ok footer
      ∧ (handle = footer.metaindexHandle ∨ handle = footer.indexHandle)

theorem decodeFrom_size_lt {input rest : Slice}
    (h : BlockHandle.decodeFrom input = .ok (handle, rest)) : handle.size < 2 ^ 64 := by
  rw [BlockHandle.decodeFrom] at h
  rcases hoff : getVarint64 input with _ | ⟨offset, p⟩
  · rw [hoff] at h
    cases h
  · simp only [hoff] at h
    rcases hsize : getVarint64 p with _ | ⟨size, q⟩
    · rw [hsize] at h
      cases h
    · rw [hsize] at h
      cases h
      exact getVarint64_lt hsize

/-- The size of a decoded handle is a 64-bit number. -/
theorem Decoded.size_lt (h : Decoded handle) : handle.size < 2 ^ 64 := by
  rcases h with ⟨input, rest, h⟩ | ⟨input, footer, h, hor⟩
  · exact decodeFrom_size_lt h
  · rw [Footer.decodeFrom] at h
    split_ifs at h
    split at h
    · cases h
    · rename_i metaindex rest hmeta
      split at h
      · cases h
      · rename_i index rest' hindex
        cases h
        rcases hor with rfl | rfl
        · exact decodeFrom_size_lt hmeta
        · exact decodeFrom_size_lt hindex

/-- A file that answers a read with at most the bytes asked for, taken from where it
    was asked; it may also answer with fewer or with an error. -/
def Serves (contents : Slice) (file : RandomAccessFile) : Prop :=
  ∀ offset n bytes, file offset n = .ok bytes → bytes.length ≤ n ∧ bytes <+: contents.drop offset

/-! ## When the accesses stay inside -/

/-- The condition on file, option and handle: the size and the trailer's add up to
    less than 2^64, or the few bytes that are asked for instead do not arrive, or the
    size is the largest one and the checksum of no bytes at all does not match. -/
def WithinBuffer (file : RandomAccessFile) (verify : Bool) (handle : BlockHandle) : Prop :=
  handle.size + kBlockTrailerSize < 2 ^ 64
    ∨ ∀ bytes, file handle.offset ((handle.size + kBlockTrailerSize) % 2 ^ 64) = .ok bytes →
        bytes.length = (handle.size + kBlockTrailerSize) % 2 ^ 64 →
        verify = true ∧ handle.size = 2 ^ 64 - 1
          ∧ LdbCrc32c.value [] ≠ LdbCrc32c.unmask (UInt32.ofNat (decodeFixed32 bytes))

/-- All accesses are inside a buffer of the full length. -/
theorem readBlockChecked_isSome_of_lt (hsum : handle.size + kBlockTrailerSize < 2 ^ 64) :
    (readBlockChecked codecs file verify handle).isSome = true := by
  have hnext : handle.size + 1 < 2 ^ 64 := by
    rw [kBlockTrailerSize] at hsum
    omega
  rw [readBlockChecked, Nat.mod_eq_of_lt hsum]
  cases hread : file handle.offset (handle.size + kBlockTrailerSize) with
  | error s => rfl
  | ok contents =>
    simp only
    by_cases hlen : contents.length ≠ handle.size + kBlockTrailerSize
    · rw [if_pos hlen]
      rfl
    · rw [if_neg hlen]
      rw [not_not, kBlockTrailerSize] at hlen
      have hrestore : (restoreChecked codecs contents handle.size).isSome = true := by
        rw [restoreChecked, bytesAt, if_pos (by omega), bytesAt, if_pos (by omega)]
        simp only [Option.map_some]
        split_ifs <;> rfl
      have hsum' : (checksumMatches contents handle.size).isSome = true := by
        rw [checksumMatches, Nat.mod_eq_of_lt hnext, bytesAt, if_pos (by omega), bytesAt,
          if_pos (by omega)]
        rfl
      obtain ⟨b, hb⟩ := Option.isSome_iff_exists.mp hsum'
      cases verify with
      | false => exact hrestore
      | true =>
        simp only [if_true, hb]
        cases b with
        | false => rfl
        | true => exact hrestore

/-- With a sum of 2^64 or more the type byte lies outside the buffer. -/
theorem restoreChecked_eq_none (hsize : n < 2 ^ 64) (hsum : 2 ^ 64 ≤ n + kBlockTrailerSize)
    (hlen : contents.length = (n + kBlockTrailerSize) % 2 ^ 64) :
    restoreChecked codecs contents n = none := by
  rw [kBlockTrailerSize] at hsum hlen
  rw [restoreChecked, bytesAt, if_neg (by omega)]

/-- With a sum of 2^64 or more the checksum test stays inside only at the largest
    size, where it covers nothing. -/
theorem checksumMatches_wrapped (hsize : n < 2 ^ 64) (hsum : 2 ^ 64 ≤ n + kBlockTrailerSize)
    (hlen : contents.length = (n + kBlockTrailerSize) % 2 ^ 64) :
    checksumMatches contents n = if n = 2 ^ 64 - 1 then
      some (decide (LdbCrc32c.value []
        = LdbCrc32c.unmask (UInt32.ofNat (decodeFixed32 contents)))) else none := by
  rw [kBlockTrailerSize] at hsum hlen
  by_cases hmax : n = 2 ^ 64 - 1
  · have hzero : (n + 1) % 2 ^ 64 = 0 := by omega
    rw [if_pos hmax, checksumMatches, hzero, bytesAt, if_pos (by omega), bytesAt,
      if_pos (by omega)]
    simp only [List.drop_zero, List.take_zero, decodeFixed32_take]
  · rw [if_neg hmax, checksumMatches, bytesAt, if_neg (by omega)]

/-- **The accesses stay inside exactly under the condition.** -/
theorem readBlockChecked_isSome_iff (hsize : handle.size < 2 ^ 64) :
    (readBlockChecked codecs file verify handle).isSome = true
      ↔ WithinBuffer file verify handle := by
  by_cases hsum : handle.size + kBlockTrailerSize < 2 ^ 64
  · exact ⟨fun _ => Or.inl hsum, fun _ => readBlockChecked_isSome_of_lt hsum⟩
  · rw [WithinBuffer, or_iff_right hsum, readBlockChecked]
    cases hread : file handle.offset ((handle.size + kBlockTrailerSize) % 2 ^ 64) with
    | error s => simp
    | ok contents =>
      simp only [Except.ok.injEq]
      by_cases hlen : contents.length = (handle.size + kBlockTrailerSize) % 2 ^ 64
      · rw [if_neg (not_not.mpr hlen), checksumMatches_wrapped hsize (not_lt.mp hsum) hlen,
          restoreChecked_eq_none hsize (not_lt.mp hsum) hlen]
        cases verify with
        | false =>
          refine ⟨fun h => absurd h (by simp), fun h => ?_⟩
          exact absurd (h contents rfl hlen).1 (by simp)
        | true =>
          by_cases hmax : handle.size = 2 ^ 64 - 1
          · by_cases hcrc : LdbCrc32c.value []
                = LdbCrc32c.unmask (UInt32.ofNat (decodeFixed32 contents))
            · refine ⟨fun h => absurd h (by simp [hmax, hcrc]), fun h => ?_⟩
              exact absurd hcrc (h contents rfl hlen).2.2
            · refine ⟨fun _ bytes hb _ => ?_, fun _ => by simp [hmax, hcrc]⟩
              rw [← hb]
              exact ⟨rfl, hmax, hcrc⟩
          · rw [if_pos rfl, if_neg hmax]
            refine ⟨fun h => absurd h (by simp), fun h => ?_⟩
            exact absurd (h contents rfl hlen).2.1 hmax
      · rw [if_pos hlen]
        refine ⟨fun _ bytes hb hlen' => ?_, fun _ => rfl⟩
        rw [← hb] at hlen'
        exact absurd hlen' hlen

/-! ## The result -/

/-- What a read has to be: no byte outside the buffer is looked at, and an
    uncompressed block that passes the checksum test is what stands in the file. -/
structure SafeRead (codecs : Codecs) (contents : Slice) (file : RandomAccessFile) (verify : Bool)
    (handle : BlockHandle) : Prop where
  inside : (readBlockChecked codecs file verify handle).isSome = true
  stored : verify = true → ∀ data, readBlock codecs file verify handle = .ok data →
    contents.getD (handle.offset + handle.size) 0 = CompressionType.noCompression.code →
    data.length = handle.size ∧ data = (contents.drop handle.offset).take handle.size
      ∧ LdbCrc32c.value (data ++ [CompressionType.noCompression.code])
        = LdbCrc32c.unmask (UInt32.ofNat
            (decodeFixed32 (contents.drop (handle.offset + handle.size + 1))))

/-- What a successful read of a block with a small enough size returns. -/
theorem readBlock_stored (hfile : Serves contents file)
    (hsum : handle.size + kBlockTrailerSize < 2 ^ 64) {data : Slice}
    (h : readBlock codecs file true handle = .ok data)
    (htype : contents.getD (handle.offset + handle.size) 0 = CompressionType.noCompression.code) :
    data.length = handle.size ∧ data = (contents.drop handle.offset).take handle.size
      ∧ LdbCrc32c.value (data ++ [CompressionType.noCompression.code])
        = LdbCrc32c.unmask (UInt32.ofNat
            (decodeFixed32 (contents.drop (handle.offset + handle.size + 1)))) := by
  have hnext : handle.size + 1 < 2 ^ 64 := by
    rw [kBlockTrailerSize] at hsum
    omega
  rw [readBlock] at h
  simp only [Nat.mod_eq_of_lt hsum, Nat.mod_eq_of_lt hnext] at h
  cases hread : file handle.offset (handle.size + kBlockTrailerSize) with
  | error s =>
    rw [hread] at h
    cases h
  | ok bytes =>
    simp only [hread] at h
    by_cases hlen : bytes.length ≠ handle.size + kBlockTrailerSize
    · rw [if_pos hlen] at h
      cases h
    rw [if_neg hlen] at h
    rw [not_not, kBlockTrailerSize] at hlen
    -- the bytes read are those of the file
    obtain ⟨-, rest, hrest⟩ := hfile _ _ _ hread
    have hbyte : bytes.getD handle.size 0 = CompressionType.noCompression.code := by
      rw [← htype, List.getD_eq_getElem?_getD, List.getD_eq_getElem?_getD, ← List.getElem?_drop,
        ← hrest, List.getElem?_append_left (by omega)]
    rw [if_pos hbyte] at h
    split_ifs at h with hcrc
    rw [true_and, not_not] at hcrc
    cases h
    have htake : bytes.take handle.size = (contents.drop handle.offset).take handle.size := by
      rw [← hrest, List.take_append_of_le_length (by omega)]
    have hcovered : bytes.take (handle.size + 1)
        = bytes.take handle.size ++ [CompressionType.noCompression.code] := by
      rw [List.take_add_one, ← hbyte, List.getD_eq_getElem?_getD,
        List.getElem?_eq_getElem (by omega)]
      rfl
    have hstored : decodeFixed32 (bytes.drop (handle.size + 1))
        = decodeFixed32 (contents.drop (handle.offset + handle.size + 1)) := by
      have hdrop : contents.drop (handle.offset + handle.size + 1)
          = bytes.drop (handle.size + 1) ++ rest := by
        rw [← List.drop_append_of_le_length (by omega), hrest, List.drop_drop, Nat.add_assoc]
      rw [hdrop, decodeFixed32, decodeFixed32,
        List.take_append_of_le_length (by rw [List.length_drop]; omega)]
    refine ⟨by rw [List.length_take]; omega, htake, ?_⟩
    rw [← hcovered, hcrc, hstored]

/-- A read whose sum is 2^64 or more does not succeed under the condition. -/
theorem readBlock_wrapped (hwithin : WithinBuffer file true handle)
    (hsum : ¬ handle.size + kBlockTrailerSize < 2 ^ 64) (data : Slice) :
    readBlock codecs file true handle ≠ .ok data := by
  intro h
  rw [readBlock] at h
  cases hread : file handle.offset ((handle.size + kBlockTrailerSize) % 2 ^ 64) with
  | error s =>
    rw [hread] at h
    cases h
  | ok bytes =>
    simp only [hread] at h
    by_cases hlen : bytes.length ≠ (handle.size + kBlockTrailerSize) % 2 ^ 64
    · rw [if_pos hlen] at h
      cases h
    · obtain ⟨-, hmax, hcrc⟩ := hwithin.resolve_left hsum bytes hread (not_not.mp hlen)
      have hzero : (handle.size + 1) % 2 ^ 64 = 0 := by omega
      rw [if_neg hlen, hzero, List.take_zero, List.drop_zero, if_pos ⟨trivial, hcrc⟩] at h
      cases h

/-- **Reading a block is safe exactly under the condition.**  For every handle that
    was decoded from some bytes and every file that returns at most what is asked
    for. -/
theorem readBlock_safe_iff (codecs : Codecs) {contents : Slice} {file : RandomAccessFile}
    (hfile : Serves contents file) (verify : Bool) {handle : BlockHandle}
    (hdecoded : Decoded handle) :
    SafeRead codecs contents file verify handle ↔ WithinBuffer file verify handle := by
  constructor
  · intro h
    exact (readBlockChecked_isSome_iff hdecoded.size_lt).mp h.inside
  · intro hwithin
    have hinside : (readBlockChecked codecs file verify handle).isSome = true :=
      (readBlockChecked_isSome_iff hdecoded.size_lt).mpr hwithin
    refine ⟨hinside, ?_⟩
    rintro rfl data hok htype
    by_cases hsum : handle.size + kBlockTrailerSize < 2 ^ 64
    · exact readBlock_stored hfile hsum hok htype
    · exact absurd hok (readBlock_wrapped hwithin hsum data)

theorem fileOf_serves (contents : Slice) : Serves contents (fileOf contents) := by
  rintro offset n bytes h
  cases h
  exact ⟨by rw [List.length_take]; omega, List.take_prefix _ _⟩

theorem decoded_of_lt (ho : handle.offset < 2 ^ 64) (hs : handle.size < 2 ^ 64) : Decoded handle :=
  Or.inl ⟨handle.encode ++ [], [], BlockHandle.decodeFrom_encode ho hs []⟩

/-- Codecs that compress nothing. -/
def noCodecs : Codecs :=
  ⟨⟨fun _ => none, fun _ => none, fun _ => none⟩, ⟨fun _ => none, fun _ => none, fun _ => none⟩⟩

/-- A block of two bytes, read with its checksum verified. -/
theorem readBlock_safe_iff_sample :
    SafeRead noCodecs (rawBlock [1, 2] .noCompression)
        (fileOf (rawBlock [1, 2] .noCompression)) true ⟨0, 2⟩
      ∧ readBlock noCodecs (fileOf (rawBlock [1, 2] .noCompression)) true ⟨0, 2⟩ = .ok [1, 2] := by
  refine ⟨(readBlock_safe_iff noCodecs (fileOf_serves _) true
    (decoded_of_lt (by decide) (by decide))).mpr (Or.inl (by decide)), ?_⟩
  exact @readBlock_rawBlock noCodecs _ true 0 [1, 2] .noCompression (by decide) rfl

/-- **A size of 2^64 - 5 is accepted for an empty file**: no byte is read, as many as
    were asked for, and the type byte is looked for outside the buffer. -/
theorem readBlock_leaves_buffer :
    Decoded ⟨0, 2 ^ 64 - 5⟩ ∧ Serves [] (fileOf [])
      ∧ ¬ SafeRead noCodecs [] (fileOf []) false ⟨0, 2 ^ 64 - 5⟩ := by
  refine ⟨decoded_of_lt (by decide) (by decide), fileOf_serves [], fun h => ?_⟩
  have hnone : readBlockChecked noCodecs (fileOf []) false ⟨0, 2 ^ 64 - 5⟩ = none := by
    rw [readBlockChecked]
    rfl
  have hinside := h.inside
  rw [hnone] at hinside
  cases hinside

end LdbUntrusted
