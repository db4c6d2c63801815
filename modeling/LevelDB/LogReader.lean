import LevelDB.LogWriter

/-! # The log reader

    `db/log_reader.cc`.  `ReadPhysicalRecord` takes fragments out of blocks of
    32 KiB, `ReadRecord` joins them to records.  Drops of bytes go to the
    reporter; its calls are collected in `reports`.

    The second half says what repeated calls of `ReadRecord` return, in terms of
    the fragments a block reader meets (`Blocked.Scan`) and of how they are
    joined (`assemble`). -/

namespace LdbLog

open LdbFormat LdbCoding LdbEnv Blocked

/-- A call of `Reporter::Corruption`. -/
abbrev Report := Nat × Status

/-- `log::Reader` with the calls its reporter received. -/
structure Reader where
  file : SequentialFile
  checksum : Bool
  buffer : Slice
  eof : Bool
  lastRecordOffset : Nat
  endOfBufferOffset : Nat
  initialOffset : Nat
  resyncing : Bool
  reports : List Report
  deriving DecidableEq, Repr

/-- The constructor. -/
def Reader.new (file : SequentialFile) (checksum : Bool) (initialOffset : Nat) : Reader :=
  ⟨file, checksum, [], false, 0, 0, initialOffset, decide (0 < initialOffset), []⟩

/-- `kEof`, one past the last record type. -/
def kEof : Nat := 5

/-- `kBadRecord`. -/
def kBadRecord : Nat := 6

/-- Subtraction of `uint64_t`. -/
def sub64 (a b : Nat) : Nat := (a + (2 ^ 64 - b % 2 ^ 64)) % 2 ^ 64

/-- A `char` as `unsigned int`: bytes from 128 on are negative. -/
def charToUnsigned (b : UInt8) : Nat := if b.toNat < 128 then b.toNat else b.toNat + (2 ^ 32 - 256)

/-- `Reader::ReportDrop`. -/
def Reader.reportDrop (r : Reader) (bytes : Nat) (reason : Status) : Reader :=
  if r.initialOffset ≤ sub64 (sub64 r.endOfBufferOffset r.buffer.length) bytes then
    { r with reports := r.reports ++ [(bytes, reason)] }
  else r

/-- `Reader::ReportCorruption`. -/
def Reader.reportCorruption (r : Reader) (bytes : Nat) (reason : String) : Reader :=
  r.reportDrop bytes (.corruption reason)

/-- The two length bytes of a header. -/
def lengthField (header : Slice) : Nat := (header.getD 4 0).toNat ||| ((header.getD 5 0).toNat <<< 8)

/-- The tests of `ReadPhysicalRecord` on a buffer that holds a header, in order:
    the length fits; the record is not one of a preallocated region; the checksum
    matches. -/
def checkHeader (checksum : Bool) (buffer : Slice) : Verdict (Nat × Slice) (Option Report) :=
  let type := charToUnsigned (buffer.getD 6 0)
  let length := lengthField buffer
  if buffer.length < kHeaderSize + length then .beyond
  else if type = RecordType.zero.code ∧ length = 0 then .reject none
  else if checksum = true ∧ LdbCrc32c.value ((buffer.drop 6).take (1 + length))
      ≠ LdbCrc32c.unmask (UInt32.ofNat (decodeFixed32 buffer)) then
    .reject (some (buffer.length, .corruption "checksum mismatch"))
  else .frame (type, (buffer.drop kHeaderSize).take length) (kHeaderSize + length)

/-- `ReadPhysicalRecord` once its buffer holds a header. -/
def Reader.parseRecord (r : Reader) : Nat × Slice × Reader :=
  match checkHeader r.checksum r.buffer with
  | .beyond =>
    -- at the end of the file the writer is assumed to have died in this record
    if r.eof then (kEof, [], { r with buffer := [] })
    else (kBadRecord, [],
      { r with buffer := [] }.reportCorruption r.buffer.length "bad record length")
  | .reject none => (kBadRecord, [], { r with buffer := [] })
  | .reject (some (bytes, reason)) =>
    (kBadRecord, [], { r with buffer := [] }.reportDrop bytes reason)
  | .frame (type, fragment) size =>
    let r := { r with buffer := r.buffer.drop size }
    -- a physical record that started before the initial offset is skipped
    if sub64 (sub64 r.endOfBufferOffset r.buffer.length) size < r.initialOffset then
      (kBadRecord, [], r)
    else (type, fragment, r)

/-- The reading of a block in `ReadPhysicalRecord`: what is left of the last one
    is a trailer to skip. -/
def Reader.fill (r : Reader) : Status × Reader :=
  match r.file.read kBlockSize with
  | .error s => (s, { ({ r with buffer := [] }.reportDrop kBlockSize s) with eof := true })
  | .ok (data, file) => (.ok, { r with
      file := file
      buffer := data
      endOfBufferOffset := r.endOfBufferOffset + data.length
      eof := decide (data.length < kBlockSize) })

/-- `Reader::ReadPhysicalRecord`: the record type or `kEof` or `kBadRecord`, and
    the fragment. -/
def Reader.readPhysicalRecord (r : Reader) : Nat × Slice × Reader :=
  if r.buffer.length < kHeaderSize then
    if r.eof then (kEof, [], { r with buffer := [] })
    else
      match r.fill with
      | (.ok, r) =>
        -- second time round the loop: a read this short has set `eof_`
        if r.buffer.length < kHeaderSize then (kEof, [], { r with buffer := [] })
        else r.parseRecord
      | (_, r) => (kEof, [], r)
  else r.parseRecord

/-- `Reader::SkipToInitialBlock`; false if the skip fails. -/
def Reader.skipToInitialBlock (r : Reader) : Bool × Reader :=
  let offsetInBlock := r.initialOffset % kBlockSize
  let start := r.initialOffset - offsetInBlock
  -- don't search a block if we'd be in the trailer
  let start := if kBlockSize - 6 < offsetInBlock then start + kBlockSize else start
  let r := { r with endOfBufferOffset := start }
  if 0 < start then
    match r.file.skip start with
    | .error s => (false, r.reportDrop start s)
    | .ok file => (true, { r with file := file })
  else (true, r)

/-- How a round of the loop of `ReadRecord` ends: with another one, or with the
    result of the call. -/
inductive Round where
  | again (scratch : Slice) (inFragmented : Bool) (prospective : Nat) (r : Reader)
  | done (record : Option Slice) (r : Reader)

/-- The `switch` of `ReadRecord` on a physical record that ends at the position
    of `r`; `offset` is where it began. -/
def Reader.dispatch (r : Reader) (type : Nat) (fragment : Slice) (offset : Nat) (scratch : Slice)
    (inFragmented : Bool) (prospective : Nat) : Round :=
  if type = RecordType.full.code then
    -- an empty first fragment before a full one came from old writers
    let r := if inFragmented = true ∧ scratch ≠ [] then
      r.reportCorruption scratch.length "partial record without end(1)" else r
    .done (some fragment) { r with lastRecordOffset := offset }
  else if type = RecordType.first.code then
    let r := if inFragmented = true ∧ scratch ≠ [] then
      r.reportCorruption scratch.length "partial record without end(2)" else r
    .again fragment true offset r
  else if type = RecordType.middle.code then
    if inFragmented then .again (scratch ++ fragment) true prospective r
    else .again scratch false prospective
      (r.reportCorruption fragment.length "missing start of fragmented record(1)")
  else if type = RecordType.last.code then
    if inFragmented then .done (some (scratch ++ fragment)) { r with lastRecordOffset := prospective }
    else .again scratch false prospective
      (r.reportCorruption fragment.length "missing start of fragmented record(2)")
  else if type = kEof then .done none r
  else if type = kBadRecord then
    if inFragmented then .again [] false prospective
      (r.reportCorruption scratch.length "error in middle of record")
    else .again scratch false prospective r
  else .again [] false prospective
    (r.reportCorruption (fragment.length + if inFragmented then scratch.length else 0)
      ("unknown record type " ++ toString type))

/-- `physical_record_offset`: where a fragment just read began. -/
def Reader.physicalRecordOffset (r : Reader) (fragment : Slice) : Nat :=
  sub64 (sub64 (sub64 r.endOfBufferOffset r.buffer.length) kHeaderSize) fragment.length

/-- A round of the loop of `ReadRecord`.  While resyncing, fragments of a record
    that began before the initial offset are passed over. -/
def Reader.round (r : Reader) (scratch : Slice) (inFragmented : Bool) (prospective : Nat) : Round :=
  let (type, fragment, r) := r.readPhysicalRecord
  let offset := r.physicalRecordOffset fragment
  if r.resyncing = true ∧ type = RecordType.middle.code then
    .again scratch inFragmented prospective r
  else if r.resyncing = true ∧ type = RecordType.last.code then
    .again scratch inFragmented prospective { r with resyncing := false }
  else { r with resyncing := false }.dispatch type fragment offset scratch inFragmented prospective

/-- The loop of `Reader::ReadRecord`, at most `n` times; every round but the last
    consumes bytes. -/
def Reader.readRecordLoop : Nat → Slice → Bool → Nat → Reader → Option Slice × Reader
  | 0, _, _, _, r => (none, r)
  | n + 1, scratch, inFragmented, prospective, r =>
    match r.round scratch inFragmented prospective with
    | .again scratch inFragmented prospective r =>
      readRecordLoop n scratch inFragmented prospective r
    | .done record r => (record, r)

/-- The bytes a reader has not consumed. -/
def Reader.unread (r : Reader) : Slice := r.buffer ++ r.file.unread

/-- `Reader::ReadRecord`; `none` stands for the result false. -/
def Reader.readRecord (r : Reader) : Option Slice × Reader :=
  if r.lastRecordOffset < r.initialOffset then
    match r.skipToInitialBlock with
    | (false, r) => (none, r)
    | (true, r) => r.readRecordLoop (r.unread.length + 1) [] false 0
  else r.readRecordLoop (r.unread.length + 1) [] false 0

/-- `ReadRecord` called until it returns false, at most `n` times; every record
    takes bytes. -/
def Reader.readRecords : Nat → Reader → List Slice × Reader
  | 0, r => ([], r)
  | n + 1, r =>
    match r.readRecord with
    | (none, r) => ([], r)
    | (some record, r) => (record :: (readRecords n r).1, (readRecords n r).2)

/-- What recovery reads of a log file with at most `calls` calls of `ReadRecord`:
    the records, and what was reported. -/
def logRecords (file : Slice) (calls : Nat) : List Slice × List Report :=
  (((Reader.new ⟨file, none⟩ true 0).readRecords calls).1,
    ((Reader.new ⟨file, none⟩ true 0).readRecords calls).2.reports)

/-! ## What repeated calls return -/

/-- The log as a format of frames in blocks. -/
def format : Format UInt8 (Nat × Slice) (Option Report) where
  block := kBlockSize
  header := kHeaderSize
  header_pos := by decide
  header_lt := by decide
  check := checkHeader true
  overrun := fun buffer => some (buffer.length, .corruption "bad record length")

/-- What a block reader meets in a log. -/
abbrev LogEvent := Event (Nat × Slice) (Option Report)

/-- The report of a record that was begun and never ended, if it had any bytes. -/
def unfinished (scratch : Slice) (inFragmented : Bool) (reason : String) : List Report :=
  if inFragmented = true ∧ scratch ≠ [] then [(scratch.length, .corruption reason)] else []

/-- The records and reports that `ReadRecord` makes of physical records, from a
    point where it has collected `scratch`. -/
def assemble : Slice → Bool → List LogEvent → List Slice × List Report
  | _, _, [] => ([], [])
  | scratch, inFragmented, .reject e :: es =>
    if inFragmented then
      ((assemble [] false es).1, e.toList ++
        (scratch.length, .corruption "error in middle of record") :: (assemble [] false es).2)
    else ((assemble scratch false es).1, e.toList ++ (assemble scratch false es).2)
  | scratch, inFragmented, .frame (type, fragment) :: es =>
    if type = RecordType.full.code then
      (fragment :: (assemble [] false es).1,
        unfinished scratch inFragmented "partial record without end(1)"
          ++ (assemble [] false es).2)
    else if type = RecordType.first.code then
      ((assemble fragment true es).1,
        unfinished scratch inFragmented "partial record without end(2)"
          ++ (assemble fragment true es).2)
    else if type = RecordType.middle.code then
      if inFragmented then assemble (scratch ++ fragment) true es
      else ((assemble scratch false es).1,
        (fragment.length, .corruption "missing start of fragmented record(1)")
          :: (assemble scratch false es).2)
    else if type = RecordType.last.code then
      if inFragmented then
        ((scratch ++ fragment) :: (assemble [] false es).1, (assemble [] false es).2)
      else ((assemble scratch false es).1,
        (fragment.length, .corruption "missing start of fragmented record(2)")
          :: (assemble scratch false es).2)
    else if type = kEof then ([], [])
    else if type = kBadRecord then
      if inFragmented then
        ((assemble [] false es).1,
          (scratch.length, .corruption "error in middle of record") :: (assemble [] false es).2)
      else assemble scratch false es
    else ((assemble [] false es).1,
      (fragment.length + (if inFragmented then scratch.length else 0),
        .corruption ("unknown record type " ++ toString type)) :: (assemble [] false es).2)

/-- A reader as recovery makes it: checksums on, from the start of the file, and
    no read fails. -/
structure Plain (r : Reader) : Prop where
  fault : r.file.fault = none
  checksum : r.checksum = true
  initialOffset : r.initialOffset = 0
  resyncing : r.resyncing = false

variable {r r' : Reader}

theorem Plain.check_eq (h : Plain r) : checkHeader r.checksum r.buffer = format.check r.buffer := by
  rw [h.checksum]
  rfl

/-- The buffer of `r` is the unread part of a block with `room` bytes left, and
    the last block is known as such. -/
def InBlock (r : Reader) (room : Nat) : Prop :=
  (r.eof = true ∧ r.file.unread = [] ∧ r.buffer.length < room)
    ∨ (r.eof = false ∧ r.buffer.length = room)

/-- The reader that has yet to meet `es`. -/
structure Ready (r : Reader) (es : List LogEvent) : Prop where
  plain : Plain r
  scan : ∃ room, InBlock r room ∧ Scan format room r.unread es

/-- What `ReadPhysicalRecord` does when `es` lies ahead. -/
def Meets (r : Reader) : List LogEvent → Prop
  | [] => ∃ r', r.readPhysicalRecord = (kEof, [], r') ∧ r'.reports = r.reports
  | .frame a :: es => ∃ r', r.readPhysicalRecord = (a.1, a.2, r') ∧ r'.reports = r.reports
      ∧ Ready r' es ∧ r'.unread.length < r.unread.length
  | .reject e :: es => ∃ r', r.readPhysicalRecord = (kBadRecord, [], r')
      ∧ r'.reports = r.reports ++ e.toList ∧ Ready r' es ∧ r'.unread.length < r.unread.length

theorem Reader.reportDrop_plain (h : r.initialOffset = 0) (bytes : Nat) (reason : Status) :
    r.reportDrop bytes reason = { r with reports := r.reports ++ [(bytes, reason)] } := by
  rw [Reader.reportDrop, if_pos (by omega)]

theorem Reader.reportCorruption_plain (h : r.initialOffset = 0) (bytes : Nat) (reason : String) :
    r.reportCorruption bytes reason
      = { r with reports := r.reports ++ [(bytes, .corruption reason)] } :=
  Reader.reportDrop_plain h bytes _

/-- An accepted record has its header and lies in the buffer. -/
theorem checkHeader_frame {checksum : Bool} {buffer : Slice} {a : Nat × Slice} {size : Nat}
    (h : checkHeader checksum buffer = .frame a size) :
    kHeaderSize ≤ size ∧ size ≤ buffer.length := by
  rw [checkHeader] at h
  split_ifs at h with h1 h2 h3
  cases h
  omega

/-- Reading the next block changes nothing else. -/
theorem Reader.fill_plain (h : r.file.fault = none) :
    r.fill = (.ok, { r with
      file := ⟨r.file.unread.drop kBlockSize, none⟩
      buffer := r.file.unread.take kBlockSize
      endOfBufferOffset := r.endOfBufferOffset + (r.file.unread.take kBlockSize).length
      eof := decide ((r.file.unread.take kBlockSize).length < kBlockSize) }) := by
  have hfile : r.file = ⟨r.file.unread, none⟩ := by
    rw [← h]
  rw [Reader.fill, hfile, SequentialFile.read_none]

variable {room : Nat} {frag : Bool} {scratch : Slice}

/-- Short of the end of its block, the reader is in the last one. -/
theorem InBlock.last (h : InBlock r room) (hlt : r.unread.length < room) :
    r.eof = true ∧ r.unread = r.buffer := by
  rcases h with ⟨heof, hfile, -⟩ | ⟨-, hlen⟩
  · refine ⟨heof, ?_⟩
    rw [Reader.unread, hfile, List.append_nil]
  · rw [Reader.unread, List.length_append] at hlt
    omega

/-- With a whole block ahead, the reader is not in the last one. -/
theorem InBlock.inner (h : InBlock r room) (hle : room ≤ r.unread.length) :
    r.eof = false ∧ r.buffer.length = room := by
  rcases h with ⟨-, hfile, hlen⟩ | h
  · rw [Reader.unread, hfile, List.append_nil] at hle
    omega
  · exact h

/-- The buffer is what is left of the block. -/
theorem InBlock.chunk_eq (h : InBlock r room) : chunk room r.unread = r.buffer := by
  rw [chunk, Reader.unread]
  rcases h with ⟨-, hfile, hlen⟩ | ⟨-, hlen⟩
  · rw [hfile, List.append_nil, List.take_of_length_le (by omega)]
  · rw [← hlen, List.take_left]

/-- With a header in the buffer no block is read. -/
theorem Reader.readPhysicalRecord_parse (h : kHeaderSize ≤ r.buffer.length) :
    r.readPhysicalRecord = r.parseRecord := by
  rw [Reader.readPhysicalRecord, if_neg (by omega)]

/-- A block read in `ReadPhysicalRecord` might as well have been there before. -/
theorem Reader.readPhysicalRecord_fill (hp : Plain r) (heof : r.eof = false)
    (hlen : r.buffer.length < kHeaderSize) :
    r.readPhysicalRecord = r.fill.2.readPhysicalRecord := by
  rw [Reader.readPhysicalRecord, if_pos hlen, heof, Reader.fill_plain hp.fault]
  show (if (r.file.unread.take kBlockSize).length < kHeaderSize then _ else _) = _
  by_cases h : (r.file.unread.take kBlockSize).length < kHeaderSize
  · have hblock : (r.file.unread.take kBlockSize).length < kBlockSize :=
      Nat.lt_trans h format.header_lt
    rw [if_pos h, Reader.readPhysicalRecord, if_pos h, if_pos (decide_eq_true hblock)]
  · rw [if_neg h, Reader.readPhysicalRecord, if_neg h]

variable {es : List LogEvent}

/-- After the rest of a block is dropped, the next block lies ahead. -/
theorem ready_skip (hp : Plain r) (hb : InBlock r room)
    (h : Scan format kBlockSize (r.unread.drop room) es) (rs : List Report) :
    Ready { r with buffer := [], reports := rs } es := by
  refine ⟨{ hp with }, ?_⟩
  have hunread : ({ r with buffer := [], reports := rs } : Reader).unread = r.file.unread := rfl
  rcases hb with ⟨heof, hfile, hlen⟩ | ⟨heof, hlen⟩
  · refine ⟨kBlockSize, Or.inl ⟨heof, hfile, format.header_pos.trans format.header_lt⟩, ?_⟩
    rw [Reader.unread, hfile, List.append_nil, List.drop_of_length_le (by omega)] at h
    rw [hunread, hfile]
    exact h
  · refine ⟨0, Or.inr ⟨heof, rfl⟩, ?_⟩
    rw [Reader.unread, ← hlen, List.drop_left] at h
    rw [hunread]
    exact scan_zero h

/-- Dropping a buffer with a header in it is progress. -/
theorem unread_skip_lt (h : kHeaderSize ≤ r.buffer.length) (rs : List Report) :
    ({ r with buffer := [], reports := rs } : Reader).unread.length < r.unread.length := by
  have hpos : 0 < kHeaderSize := format.header_pos
  show r.file.unread.length < (r.buffer ++ r.file.unread).length
  rw [List.length_append]
  omega

/-- The reader with the next block in its buffer. -/
theorem fill_spec (hp : Plain r) :
    Plain r.fill.2 ∧ InBlock r.fill.2 kBlockSize ∧ r.fill.2.unread = r.file.unread
      ∧ r.fill.2.reports = r.reports := by
  rw [Reader.fill_plain hp.fault]
  refine ⟨⟨rfl, hp.checksum, hp.initialOffset, hp.resyncing⟩, ?_,
    List.take_append_drop kBlockSize r.file.unread, rfl⟩
  by_cases hshort : (r.file.unread.take kBlockSize).length < kBlockSize
  · refine Or.inl ⟨decide_eq_true hshort, ?_, hshort⟩
    rw [List.length_take] at hshort
    exact List.drop_of_length_le (by omega)
  · refine Or.inr ⟨decide_eq_false hshort, ?_⟩
    show (r.file.unread.take kBlockSize).length = kBlockSize
    rw [List.length_take] at hshort ⊢
    omega

/-- What is met after the next block is read is met before. -/
theorem Meets.of_fill (h : Meets r.fill.2 es) (hp : Plain r) (heof : r.eof = false)
    (hlen : r.buffer.length < kHeaderSize) : Meets r es := by
  have hfill := Reader.readPhysicalRecord_fill hp heof hlen
  obtain ⟨-, -, hunread, hreports⟩ := fill_spec hp
  have hle : r.fill.2.unread.length ≤ r.unread.length := by
    rw [hunread, Reader.unread, List.length_append]
    omega
  cases es with
  | nil =>
    obtain ⟨r', hr', hrep⟩ := h
    exact ⟨r', hfill.trans hr', hrep.trans hreports⟩
  | cons e es =>
    cases e with
    | frame a =>
      obtain ⟨r', hr', hrep, hready, hlt⟩ := h
      exact ⟨r', hfill.trans hr', hrep.trans hreports, hready, by omega⟩
    | reject e =>
      obtain ⟨r', hr', hrep, hready, hlt⟩ := h
      exact ⟨r', hfill.trans hr', hrep.trans (by rw [hreports]), hready, by omega⟩

/-- **One call of `ReadPhysicalRecord`** meets the next event of the block reader. -/
theorem meets_of_scan {bytes : List UInt8} (h : Scan format room bytes es) :
    ∀ {r : Reader}, Plain r → InBlock r room → r.unread = bytes → Meets r es := by
  induction h with
  | ends hroom hhead =>
    rintro r hp hb rfl
    obtain ⟨heof, hbuf⟩ := hb.last hroom
    have hshort : r.buffer.length < kHeaderSize := by
      rw [← hbuf]
      exact hhead
    refine ⟨{ r with buffer := [] }, ?_, rfl⟩
    rw [Reader.readPhysicalRecord, if_pos hshort, if_pos heof]
  | torn hroom hhead hcheck =>
    rintro r hp hb rfl
    obtain ⟨heof, hbuf⟩ := hb.last hroom
    rw [hbuf] at hhead hcheck
    have hbeyond : checkHeader r.checksum r.buffer = .beyond := hp.check_eq.trans hcheck
    refine ⟨{ r with buffer := [] }, ?_, rfl⟩
    rw [Reader.readPhysicalRecord_parse hhead, Reader.parseRecord, hbeyond]
    exact if_pos heof
  | pad hroom hhead _ ih =>
    rintro r hp hb rfl
    obtain ⟨heof, hlen⟩ := hb.inner hroom
    obtain ⟨hplain, hblock, hunread, hreports⟩ := fill_spec hp
    have hdrop : r.unread.drop r.buffer.length = r.file.unread := by
      rw [Reader.unread, List.drop_left]
    rw [hlen] at hdrop
    refine (ih hplain hblock (hunread.trans hdrop.symm)).of_fill hp heof ?_
    rw [hlen]
    exact hhead
  | @overrun room bytes es hroom hhead hcheck hnext _ =>
    rintro r hp hb rfl
    obtain ⟨heof, hlen⟩ := hb.inner hroom
    rw [hb.chunk_eq] at hcheck ⊢
    have hheader : kHeaderSize ≤ r.buffer.length := by
      rw [hlen]
      exact hhead
    have hbeyond : checkHeader r.checksum r.buffer = .beyond := hp.check_eq.trans hcheck
    refine ⟨_, ?_, rfl, ready_skip hp hb hnext _, unread_skip_lt hheader _⟩
    rw [Reader.readPhysicalRecord_parse hheader, Reader.parseRecord, hbeyond]
    show (if r.eof = true then _ else _) = _
    rw [if_neg (by rw [heof]; exact Bool.false_ne_true)]
    rw [Reader.reportCorruption_plain (r := { r with buffer := [] }) hp.initialOffset]
    rfl
  | @reject room bytes e es hhead hcheck hnext _ =>
    rintro r hp hb rfl
    rw [hb.chunk_eq] at hcheck hhead
    have hreject : checkHeader r.checksum r.buffer = .reject e := hp.check_eq.trans hcheck
    refine ⟨_, ?_, rfl, ready_skip hp hb hnext _, unread_skip_lt hhead _⟩
    rw [Reader.readPhysicalRecord_parse hhead, Reader.parseRecord, hreject]
    cases e with
    | none =>
      rw [Option.toList_none, List.append_nil]
    | some rep =>
      show (kBadRecord, [], Reader.reportDrop _ rep.1 rep.2) = _
      rw [Reader.reportDrop_plain (r := { r with buffer := [] }) hp.initialOffset]
      rfl
  | @frame room bytes a size es hhead hcheck hnext _ =>
    rintro r hp hb rfl
    rw [hb.chunk_eq] at hcheck hhead
    obtain ⟨hsize, hle⟩ := checkHeader_frame hcheck
    have hpos : 0 < kHeaderSize := format.header_pos
    have hframe : checkHeader r.checksum r.buffer = .frame a size := hp.check_eq.trans hcheck
    have hunread : ({ r with buffer := r.buffer.drop size } : Reader).unread
        = r.unread.drop size := by
      show r.buffer.drop size ++ r.file.unread = (r.buffer ++ r.file.unread).drop size
      rw [List.drop_append_of_le_length hle]
    refine ⟨{ r with buffer := r.buffer.drop size }, ?_, rfl, ⟨{ hp with }, room - size, ?_, ?_⟩, ?_⟩
    · rw [Reader.readPhysicalRecord_parse hhead, Reader.parseRecord, hframe]
      show (if _ < r.initialOffset then _ else _) = _
      rw [if_neg (by rw [hp.initialOffset]; exact Nat.not_lt_zero _)]
    · rcases hb with ⟨heof, hfile, hlen⟩ | ⟨heof, hlen⟩
      · refine Or.inl ⟨heof, hfile, ?_⟩
        show (r.buffer.drop size).length < room - size
        rw [List.length_drop]
        omega
      · refine Or.inr ⟨heof, ?_⟩
        show (r.buffer.drop size).length = room - size
        rw [List.length_drop]
        omega
    · rw [hunread]
      exact hnext
    · have hbuf : r.buffer.length ≤ r.unread.length := by
        rw [Reader.unread, List.length_append]
        omega
      rw [hunread, List.length_drop]
      omega

/-- The next event, however far ahead its block is. -/
theorem Ready.meets (h : Ready r es) : Meets r es := by
  obtain ⟨room, hb, hscan⟩ := h.scan
  exact meets_of_scan hscan h.plain hb rfl

/-- What one call of `ReadRecord` does with `es` ahead, once it has collected
    `scratch`: it returns the first record `assemble` finds and leaves the rest. -/
def Reads (scratch : Slice) (inFragmented : Bool) (es : List LogEvent) (r : Reader)
    (result : Option Slice × Reader) : Prop :=
  match (assemble scratch inFragmented es).1 with
  | [] => result.1 = none
      ∧ result.2.reports = r.reports ++ (assemble scratch inFragmented es).2
  | record :: rest => result.1 = some record ∧ result.2.unread.length < r.unread.length
      ∧ ∃ es' reps, Ready result.2 es' ∧ rest = (assemble [] false es').1
        ∧ (assemble scratch inFragmented es).2 = reps ++ (assemble [] false es').2
        ∧ result.2.reports = r.reports ++ reps

theorem Ready.set_reports (h : Ready r es) (rs : List Report) : Ready { r with reports := rs } es :=
  ⟨{ h.plain with }, h.scan⟩

theorem Ready.set_lastRecordOffset (h : Ready r es) (offset : Nat) :
    Ready { r with lastRecordOffset := offset } es :=
  ⟨{ h.plain with }, h.scan⟩

/-- One round of the loop that goes on: `reps` are its reports. -/
theorem Reads.cons {scratch' : Slice} {frag' : Bool} {e : LogEvent} {result : Option Slice × Reader}
    {reps : List Report} (h : Reads scratch' frag' es r' result)
    (hrec : (assemble scratch frag (e :: es)).1 = (assemble scratch' frag' es).1)
    (hrep : (assemble scratch frag (e :: es)).2 = reps ++ (assemble scratch' frag' es).2)
    (hr : r'.reports = r.reports ++ reps) (hlt : r'.unread.length < r.unread.length) :
    Reads scratch frag (e :: es) r result := by
  rw [Reads, hrec, hrep]
  rw [Reads] at h
  cases hs : (assemble scratch' frag' es).1 with
  | nil =>
    rw [hs] at h
    obtain ⟨hnone, hreports⟩ := h
    refine ⟨hnone, ?_⟩
    rw [hreports, hr, List.append_assoc]
  | cons record rest =>
    rw [hs] at h
    obtain ⟨hsome, hunread, es', reps', hready, hrest, hreps, hreports⟩ := h
    refine ⟨hsome, hunread.trans hlt, es', reps ++ reps', hready, hrest, ?_, ?_⟩
    · rw [hreps, List.append_assoc]
    · rw [hreports, hr, List.append_assoc]

/-- The round of the loop that returns a record. -/
theorem Reads.record {record : Slice} {e : LogEvent} {reps : List Report} (hready : Ready r' es)
    (hrec : (assemble scratch frag (e :: es)).1 = record :: (assemble [] false es).1)
    (hrep : (assemble scratch frag (e :: es)).2 = reps ++ (assemble [] false es).2)
    (hr : r'.reports = r.reports ++ reps) (hlt : r'.unread.length < r.unread.length) :
    Reads scratch frag (e :: es) r (some record, r') := by
  rw [Reads, hrec]
  exact ⟨rfl, hlt, es, reps, hready, rfl, hrep, hr⟩

/-- The reports of an unfinished record are the conditional report of the loop. -/
theorem report_unfinished (h : r.initialOffset = 0) (scratch : Slice) (frag : Bool)
    (reason : String) :
    (if frag = true ∧ scratch ≠ [] then r.reportCorruption scratch.length reason else r)
      = { r with reports := r.reports ++ unfinished scratch frag reason } := by
  rw [unfinished]
  by_cases hc : frag = true ∧ scratch ≠ []
  · rw [if_pos hc, if_pos hc, Reader.reportCorruption_plain h]
  · rw [if_neg hc, if_neg hc, List.append_nil]

/-- A round on a reader that is not resyncing. -/
theorem Reader.round_eq {type : Nat} {fragment : Slice}
    (h : r.readPhysicalRecord = (type, fragment, r')) (hr : r'.resyncing = false) (scratch : Slice)
    (frag : Bool) (prospective : Nat) :
    r.round scratch frag prospective = r'.dispatch type fragment
      (r'.physicalRecordOffset fragment) scratch frag prospective := by
  have hsame : { r' with resyncing := false } = r' := by
    rw [← hr]
  have hne : ¬ r'.resyncing = true := by
    rw [hr]
    exact Bool.false_ne_true
  rw [Reader.round, h]
  show (if r'.resyncing = true ∧ _ then _ else if r'.resyncing = true ∧ _ then _ else _) = _
  rw [if_neg (fun hc => hne hc.1), if_neg (fun hc => hne hc.1), hsame]

/-- What a round must do with event `e` before `es`: return the record
    `assemble` finds there, or go on in the state `assemble` goes on in. -/
def RoundSpec (scratch : Slice) (frag : Bool) (e : LogEvent) (es : List LogEvent) (r : Reader) :
    Round → Prop
  | .again scratch' frag' _ r' => ∃ reps, Ready r' es ∧ r'.reports = r.reports ++ reps
      ∧ r'.unread.length < r.unread.length
      ∧ (assemble scratch frag (e :: es)).1 = (assemble scratch' frag' es).1
      ∧ (assemble scratch frag (e :: es)).2 = reps ++ (assemble scratch' frag' es).2
  | .done record r' => ∃ reps, r'.reports = r.reports ++ reps
      ∧ match record with
        | some x => Ready r' es ∧ r'.unread.length < r.unread.length
            ∧ (assemble scratch frag (e :: es)).1 = x :: (assemble [] false es).1
            ∧ (assemble scratch frag (e :: es)).2 = reps ++ (assemble [] false es).2
        | none => (assemble scratch frag (e :: es)).1 = []
            ∧ (assemble scratch frag (e :: es)).2 = reps

/-- A rejected record in `ReadRecord`. -/
theorem dispatch_reject {e : Option Report} (hready : Ready r' es)
    (hrep : r'.reports = r.reports ++ e.toList) (hlt : r'.unread.length < r.unread.length)
    (offset prospective : Nat) :
    RoundSpec scratch frag (.reject e) es r
      (r'.dispatch kBadRecord [] offset scratch frag prospective) := by
  have hdispatch : r'.dispatch kBadRecord [] offset scratch frag prospective
      = if frag then .again [] false prospective
          (r'.reportCorruption scratch.length "error in middle of record")
        else .again scratch false prospective r' := rfl
  rw [hdispatch, Reader.reportCorruption_plain hready.plain.initialOffset]
  cases frag with
  | true =>
    refine ⟨e.toList ++ [(scratch.length, .corruption "error in middle of record")],
      hready.set_reports _, ?_, hlt, rfl, ?_⟩
    · show r'.reports ++ _ = _
      rw [hrep, List.append_assoc]
    · rw [List.append_assoc]
      rfl
  | false => exact ⟨e.toList, hready, hrep, hlt, rfl, rfl⟩

/-- An accepted record in `ReadRecord`, one case for each arm of the `switch`. -/
theorem dispatch_frame {type : Nat} {fragment : Slice} (hready : Ready r' es)
    (hrep : r'.reports = r.reports) (hlt : r'.unread.length < r.unread.length)
    (offset prospective : Nat) :
    RoundSpec scratch frag (.frame (type, fragment)) es r
      (r'.dispatch type fragment offset scratch frag prospective) := by
  have h0 := hready.plain.initialOffset
  have ha := Eq.refl (assemble scratch frag (.frame (type, fragment) :: es))
  conv_rhs at ha => rw [assemble]
  rw [Reader.dispatch]
  by_cases hfull : type = RecordType.full.code
  · rw [if_pos hfull] at ha
    rw [if_pos hfull, report_unfinished h0]
    refine ⟨unfinished scratch frag "partial record without end(1)", by rw [← hrep],
      (hready.set_reports _).set_lastRecordOffset _, hlt, ?_, ?_⟩ <;> rw [ha]
  rw [if_neg hfull] at ha ⊢
  by_cases hfirst : type = RecordType.first.code
  · rw [if_pos hfirst] at ha
    rw [if_pos hfirst, report_unfinished h0]
    refine ⟨unfinished scratch frag "partial record without end(2)", hready.set_reports _,
      by rw [← hrep], hlt, ?_, ?_⟩ <;> rw [ha]
  rw [if_neg hfirst] at ha ⊢
  by_cases hmiddle : type = RecordType.middle.code
  · rw [if_pos hmiddle] at ha
    rw [if_pos hmiddle, Reader.reportCorruption_plain h0]
    cases frag with
    | true => refine ⟨[], hready, by rw [hrep, List.append_nil], hlt, ?_, ?_⟩ <;> rw [ha] <;> rfl
    | false =>
      refine ⟨[(fragment.length, .corruption "missing start of fragmented record(1)")],
        hready.set_reports _, by rw [← hrep], hlt, ?_, ?_⟩ <;> rw [ha] <;> rfl
  rw [if_neg hmiddle] at ha ⊢
  by_cases hlast : type = RecordType.last.code
  · rw [if_pos hlast] at ha
    rw [if_pos hlast, Reader.reportCorruption_plain h0]
    cases frag with
    | true =>
      refine ⟨[], by rw [← hrep, List.append_nil], hready.set_lastRecordOffset _, hlt, ?_, ?_⟩ <;>
      rw [ha] <;> rfl
    | false =>
      refine ⟨[(fragment.length, .corruption "missing start of fragmented record(2)")],
        hready.set_reports _, by rw [← hrep], hlt, ?_, ?_⟩ <;> rw [ha] <;> rfl
  rw [if_neg hlast] at ha ⊢
  by_cases heof : type = kEof
  · rw [if_pos heof] at ha ⊢
    refine ⟨[], by rw [hrep, List.append_nil], ?_, ?_⟩ <;> rw [ha]
  rw [if_neg heof] at ha ⊢
  by_cases hbad : type = kBadRecord
  · rw [if_pos hbad] at ha
    rw [if_pos hbad, Reader.reportCorruption_plain h0]
    cases frag with
    | true =>
      refine ⟨[(scratch.length, .corruption "error in middle of record")],
        hready.set_reports _, by rw [← hrep], hlt, ?_, ?_⟩ <;> rw [ha] <;> rfl
    | false => refine ⟨[], hready, by rw [hrep, List.append_nil], hlt, ?_, ?_⟩ <;> rw [ha] <;> rfl
  rw [if_neg hbad] at ha
  rw [if_neg hbad, Reader.reportCorruption_plain h0]
  refine ⟨[(fragment.length + (if frag then scratch.length else 0),
    .corruption ("unknown record type " ++ toString type))], hready.set_reports _,
    by rw [← hrep], hlt, ?_, ?_⟩ <;> rw [ha]
  rfl

/-- **One call of `ReadRecord`**, by induction on what lies ahead: each round of
    the loop takes one event. -/
theorem readRecordLoop_reads (es : List LogEvent) :
    ∀ (n : Nat) (scratch : Slice) (frag : Bool) (prospective : Nat) (r : Reader),
      Ready r es → r.unread.length < n →
      Reads scratch frag es r (r.readRecordLoop n scratch frag prospective) := by
  induction es with
  | nil =>
    intro n scratch frag prospective r hready hn
    obtain ⟨m, rfl⟩ : ∃ m, n = m + 1 := ⟨n - 1, by omega⟩
    obtain ⟨r', hr', hrep⟩ := hready.meets
    have hround : r.round scratch frag prospective
        = .done none { r' with resyncing := false } := by
      rw [Reader.round, hr']
      show (if _ ∧ kEof = _ then _ else if _ ∧ kEof = _ then _ else _) = _
      rw [if_neg (fun h => absurd h.2 (by decide)), if_neg (fun h => absurd h.2 (by decide))]
      rfl
    rw [Reader.readRecordLoop, hround]
    refine ⟨rfl, ?_⟩
    show r'.reports = r.reports ++ []
    rw [hrep, List.append_nil]
  | cons e es ih =>
    intro n scratch frag prospective r hready hn
    obtain ⟨m, rfl⟩ : ∃ m, n = m + 1 := ⟨n - 1, by omega⟩
    have hspec : RoundSpec scratch frag e es r (r.round scratch frag prospective) := by
      cases e with
      | reject e =>
        obtain ⟨r', hr', hrep, hready', hlt⟩ := hready.meets
        rw [Reader.round_eq hr' hready'.plain.resyncing]
        exact dispatch_reject hready' hrep hlt _ _
      | frame a =>
        obtain ⟨r', hr', hrep, hready', hlt⟩ := hready.meets
        rw [Reader.round_eq hr' hready'.plain.resyncing]
        exact dispatch_frame hready' hrep hlt _ _
    rw [Reader.readRecordLoop]
    cases hround : r.round scratch frag prospective with
    | again scratch' frag' prospective' r' =>
      rw [hround] at hspec
      obtain ⟨reps, hready', hreps, hlt, hrec, hrep⟩ := hspec
      exact (ih m scratch' frag' prospective' r' hready' (by omega)).cons hrec hrep hreps hlt
    | done record r' =>
      rw [hround] at hspec
      obtain ⟨reps, hreps, hspec⟩ := hspec
      cases record with
      | none =>
        rw [Reads, hspec.1]
        exact ⟨rfl, by rw [hreps, hspec.2]⟩
      | some x =>
        obtain ⟨hready', hlt, hrec, hrep⟩ := hspec
        exact Reads.record hready' hrec hrep hreps hlt

/-- The call of `ReadRecord` that recovery makes. -/
theorem readRecord_reads (h : Ready r es) : Reads [] false es r r.readRecord := by
  have hoffset : ¬ r.lastRecordOffset < r.initialOffset := by
    rw [h.plain.initialOffset]
    exact Nat.not_lt_zero _
  rw [Reader.readRecord, if_neg hoffset]
  exact readRecordLoop_reads es (r.unread.length + 1) [] false 0 r h (Nat.lt_succ_self _)

/-- The reader that recovery opens has the whole file ahead. -/
theorem ready_new {file : Slice} (h : Scan format kBlockSize file es) :
    Ready (Reader.new ⟨file, none⟩ true 0) es :=
  ⟨⟨rfl, rfl, rfl, rfl⟩, 0, Or.inr ⟨rfl, rfl⟩, scan_zero h⟩

/-- Repeated calls of `ReadRecord` return the records `assemble` finds, and make
    its reports. -/
theorem readRecords_eq (n : Nat) :
    ∀ (r : Reader) (es : List LogEvent), Ready r es → r.unread.length < n →
      (r.readRecords n).1 = (assemble [] false es).1
        ∧ (r.readRecords n).2.reports = r.reports ++ (assemble [] false es).2 := by
  induction n with
  | zero =>
    intro r es _ hn
    exact absurd hn (Nat.not_lt_zero _)
  | succ n ih =>
    intro r es hready hn
    have hread := readRecord_reads hready
    rw [Reads] at hread
    rw [Reader.readRecords]
    cases hs : (assemble [] false es).1 with
    | nil =>
      rw [hs] at hread
      obtain ⟨hnone, hreports⟩ := hread
      rcases hpair : r.readRecord with ⟨x, r'⟩
      rw [hpair] at hnone hreports
      obtain rfl : x = none := hnone
      exact ⟨rfl, hreports⟩
    | cons record rest =>
      rw [hs] at hread
      obtain ⟨hsome, hlt, es', reps, hready', hrest, hreps, hreports⟩ := hread
      rcases hpair : r.readRecord with ⟨x, r'⟩
      rw [hpair] at hsome hlt hready' hreports
      obtain rfl : x = some record := hsome
      have hlt' : r'.unread.length < r.unread.length := hlt
      obtain ⟨hrec, hrep⟩ := ih r' es' hready' (by omega)
      refine ⟨?_, ?_⟩
      · show record :: (r'.readRecords n).1 = record :: rest
        rw [hrec, hrest]
      · show (r'.readRecords n).2.reports = _
        rw [hrep, hreports, hreps, List.append_assoc]

/-- **Reading a log file**: scan its blocks for fragments, and join these.  Any
    number of calls above the length of the file will do. -/
theorem logRecords_eq {file : Slice} (h : Scan format kBlockSize file es) {calls : Nat}
    (hcalls : file.length < calls) : logRecords file calls = assemble [] false es := by
  obtain ⟨hrec, hrep⟩ := readRecords_eq calls _ es (ready_new h) hcalls
  exact Prod.ext hrec hrep

/-- **A loop over `ReadRecord` folds its body over the records of the log**, if the
    body may be entered with every record, and the reports made on the way are of
    no consequence. -/
theorem loop_eq_foldl {σ : Type} {loop : Nat → Reader → σ → σ} {body : σ → Slice → σ}
    {good : σ → Prop} {quiet : List Report → Prop} {accept : Slice → Prop}
    (hquiet : ∀ a b, quiet (a ++ b) → quiet a ∧ quiet b)
    (hend : ∀ n r r' reps s, r.readRecord = (none, r') → r'.reports = r.reports ++ reps →
      quiet reps → good s → loop (n + 1) r s = s)
    (hnext : ∀ n r r' reps s record, r.readRecord = (some record, r') →
      r'.reports = r.reports ++ reps → quiet reps → good s → accept record →
      loop (n + 1) r s = loop n r' (body s record) ∧ good (body s record)) (n : Nat) :
    ∀ (r : Reader) (es : List LogEvent) (s : σ), Ready r es → r.unread.length < n →
      quiet (assemble [] false es).2 → (∀ record ∈ (assemble [] false es).1, accept record) →
      good s → loop n r s = (assemble [] false es).1.foldl body s := by
  induction n with
  | zero =>
    intro r es s _ hn
    exact absurd hn (Nat.not_lt_zero _)
  | succ n ih =>
    intro r es s hready hn hreps hrecords hs
    have hread := readRecord_reads hready
    rw [Reads] at hread
    cases hrec : (assemble [] false es).1 with
    | nil =>
      rw [hrec] at hread
      rcases hpair : r.readRecord with ⟨x, r'⟩
      rw [hpair] at hread
      obtain ⟨rfl, hreports⟩ := hread
      exact hend n r r' _ s hpair hreports hreps hs
    | cons record rest =>
      rw [hrec] at hread hrecords
      obtain ⟨hsome, hlt, es', reps, hready', hrest, hsplit, hreports⟩ := hread
      rcases hpair : r.readRecord with ⟨x, r'⟩
      rw [hpair] at hsome hlt hready' hreports
      obtain rfl : x = some record := hsome
      have hlt' : r'.unread.length < r.unread.length := hlt
      obtain ⟨hnow, hlater⟩ := hquiet _ _ (hsplit ▸ hreps)
      obtain ⟨hstep, hgood⟩ := hnext n r r' reps s record hpair hreports hnow hs
        (hrecords record List.mem_cons_self)
      rw [hstep, List.foldl_cons, hrest]
      refine ih r' es' _ hready' (by omega) hlater ?_ hgood
      intro x hx
      exact hrecords x (List.mem_cons_of_mem _ (hrest ▸ hx))

/-! ## Joining in two parts -/

/-- What `ReadRecord` has collected after some physical records. -/
def pending : Slice → Bool → List LogEvent → Slice × Bool
  | scratch, inFragmented, [] => (scratch, inFragmented)
  | scratch, inFragmented, .reject _ :: es =>
    pending (if inFragmented then [] else scratch) false es
  | scratch, inFragmented, .frame (type, fragment) :: es =>
    if type = RecordType.full.code then pending [] false es
    else if type = RecordType.first.code then pending fragment true es
    else if type = RecordType.middle.code then
      if inFragmented then pending (scratch ++ fragment) true es else pending scratch false es
    else if type = RecordType.last.code then
      pending (if inFragmented then [] else scratch) false es
    else if type = kBadRecord then pending (if inFragmented then [] else scratch) false es
    else pending [] false es

/-- No physical record carries the number that stands for the end of the file. -/
def Unended (es : List LogEvent) : Prop := ∀ data, Event.frame (kEof, data) ∉ es

/-- **Records are joined from left to right**: what comes later is joined from
    what was collected before. -/
theorem assemble_append (es : List LogEvent) :
    ∀ (scratch : Slice) (frag : Bool) (es' : List LogEvent), Unended es →
      assemble scratch frag (es ++ es')
        = ((assemble scratch frag es).1
            ++ (assemble (pending scratch frag es).1 (pending scratch frag es).2 es').1,
          (assemble scratch frag es).2
            ++ (assemble (pending scratch frag es).1 (pending scratch frag es).2 es').2) := by
  induction es with
  | nil =>
    intro scratch frag es' _
    rfl
  | cons e es ih =>
    intro scratch frag es' hend
    have hend' : Unended es := fun data h => hend data (List.mem_cons_of_mem _ h)
    rw [List.cons_append]
    cases e with
    | reject e =>
      cases frag <;> simp [assemble, pending, ih _ _ es' hend']
    | frame a =>
      obtain ⟨type, fragment⟩ := a
      have heof : type ≠ kEof := fun h => hend fragment (by rw [h]; exact List.mem_cons_self)
      simp only [assemble, pending, if_neg heof]
      split_ifs <;> simp [ih _ _ es' hend']

end LdbLog
