import LevelDB.LogRoundTrip

/-! # The log reader makes nothing up

    Whatever bytes a log file holds, repeated calls of `ReadRecord` come to an end,
    and every record they return stands in the file: in physical records with a
    checksum that matches, one behind the other (`records_sound`). -/

namespace LdbLog

open LdbFormat LdbCoding LdbEnv Blocked

/-- `ReadRecord` returns these records, and then false. -/
inductive Returns : Reader → List Slice → Prop where
  | done {r r' : Reader} : r.readRecord = (none, r') → Returns r []
  | next {r r' : Reader} {record : Slice} {records : List Slice} :
      r.readRecord = (some record, r') → Returns r' records → Returns r (record :: records)

/-- A physical record of type `t` with the payload `data` stands at offset `p`, inside one
    block, and its checksum is that of the type and the payload. -/
structure PhysicalAt (file : Slice) (p t : Nat) (data : Slice) : Prop where
  inFile   : p + kHeaderSize + data.length ≤ file.length
  inBlock  : p % kBlockSize + kHeaderSize + data.length ≤ kBlockSize
  length   : lengthField (file.drop p) = data.length
  type     : charToUnsigned ((file.drop p).getD 6 0) = t
  payload  : (file.drop (p + kHeaderSize)).take data.length = data
  checksum : LdbCrc32c.value ((file.drop (p + 6)).take (1 + data.length))
    = LdbCrc32c.unmask (UInt32.ofNat (decodeFixed32 (file.drop p)))

/-- Where the physical record that follows offset `pos` begins: there, or in the next block
    if only a trailer is left. -/
def place (pos : Nat) : Nat :=
  if kBlockSize - pos % kBlockSize < kHeaderSize then (pos / kBlockSize + 1) * kBlockSize else pos

/-- Physical records that follow each other, from the first offset to the second. -/
inductive Chain (file : Slice) : Nat → List (Nat × Slice) → Nat → Prop where
  | one {p t : Nat} {data : Slice} : PhysicalAt file p t data →
      Chain file p [(t, data)] (p + kHeaderSize + data.length)
  | snoc {p q t : Nat} {fs : List (Nat × Slice)} {data : Slice} : Chain file p fs q →
      PhysicalAt file (place q) t data →
      Chain file p (fs ++ [(t, data)]) (place q + kHeaderSize + data.length)

/-- The beginning of a record in fragments: `FIRST`, then any number of `MIDDLE`. -/
inductive Begun : Slice → List (Nat × Slice) → Prop where
  | first (data : Slice) : Begun data [(RecordType.first.code, data)]
  | middle {scratch : Slice} {fs : List (Nat × Slice)} (data : Slice) : Begun scratch fs →
      Begun (scratch ++ data) (fs ++ [(RecordType.middle.code, data)])

/-- A whole record: `FULL`, or a beginning and `LAST`. -/
inductive Whole : Slice → List (Nat × Slice) → Prop where
  | full (data : Slice) : Whole data [(RecordType.full.code, data)]
  | last {scratch : Slice} {fs : List (Nat × Slice)} (data : Slice) : Begun scratch fs →
      Whole (scratch ++ data) (fs ++ [(RecordType.last.code, data)])

/-- The record stands in the file. -/
def Stands (file record : Slice) : Prop := ∃ p fs q, Chain file p fs q ∧ Whole record fs

/-! ## The calls come to an end -/

theorem returns_assemble (n : Nat) :
    ∀ (r : Reader) (es : List LogEvent), Ready r es → r.unread.length < n →
      Returns r (assemble [] false es).1 := by
  induction n with
  | zero => exact fun _ _ _ hn => absurd hn (Nat.not_lt_zero _)
  | succ n ih =>
    intro r es hready hn
    have hread := readRecord_reads hready
    rw [Reads] at hread
    rcases hpair : r.readRecord with ⟨x, r'⟩
    rw [hpair] at hread
    cases hs : (assemble [] false es).1 with
    | nil =>
      rw [hs] at hread
      obtain ⟨rfl, -⟩ := hread
      exact .done hpair
    | cons record rest =>
      rw [hs] at hread
      obtain ⟨rfl, hlt, es', reps, hready', rfl, -, -⟩ := hread
      exact .next hpair (ih r' es' hready' (lt_of_lt_of_le hlt (Nat.le_of_lt_succ hn)))

/-! ## The records stand in the file -/

variable {file : Slice} {pos room : Nat}

theorem RoomAt.place_eq (h : RoomAt pos room) (hroom : kHeaderSize ≤ room) : place pos = pos := by
  have hle := h.room_le
  have hmod := h.sum_mod
  simp only [kBlockSize, kHeaderSize] at *
  rw [place, if_neg]
  simp only [kBlockSize, kHeaderSize]
  omega

theorem RoomAt.place_pad (h : RoomAt pos room) (hroom : room < kHeaderSize) :
    place (pos + room) = place pos := by
  have hmod := h.sum_mod
  have hstart : place (pos + room) = pos + room := by
    rw [place, h.sum_mod, if_neg (by decide)]
  rw [hstart]
  by_cases hlt : kBlockSize - pos % kBlockSize < kHeaderSize
  · rw [place, if_pos hlt]
    simp only [kBlockSize, kHeaderSize] at *
    omega
  · rw [place, if_neg hlt]
    simp only [kBlockSize, kHeaderSize] at *
    omega

theorem RoomAt.next_block (h : RoomAt pos room) : RoomAt (pos + room) kBlockSize :=
  ⟨Nat.le_refl _, by rw [Nat.add_mod_right]; exact h.sum_mod⟩

/-- A frame that the reader accepts is a physical record of the file. -/
theorem physicalAt_of_frame (h : RoomAt pos room) {t size : Nat} {data : Slice}
    (hcheck : format.check (chunk room (file.drop pos)) = .frame (t, data) size) :
    PhysicalAt file pos t data ∧ size = kHeaderSize + data.length ∧ size ≤ room := by
  have hlen : (chunk room (file.drop pos)).length = min room (file.length - pos) := by
    rw [chunk, List.length_take, List.length_drop]
  obtain ⟨hhead, hsize⟩ := checkHeader_frame hcheck
  have hget : ∀ i < size, (chunk room (file.drop pos)).getD i 0 = (file.drop pos).getD i 0 := by
    intro i hi
    rw [chunk, List.getD_eq_getElem?_getD, List.getD_eq_getElem?_getD,
      List.getElem?_take_of_lt (by omega)]
  have hlf : lengthField (chunk room (file.drop pos)) = lengthField (file.drop pos) := by
    simp only [kHeaderSize] at hhead
    rw [lengthField, lengthField, hget 4 (by omega), hget 5 (by omega)]
  have htake : ∀ i n, i + n ≤ size →
      ((chunk room (file.drop pos)).drop i).take n = (file.drop (pos + i)).take n := by
    intro i n hin
    rw [chunk, List.drop_take, List.drop_drop, List.take_take, Nat.min_eq_left (by omega)]
  have h4 : decodeFixed32 (chunk room (file.drop pos)) = decodeFixed32 (file.drop pos) := by
    simp only [kHeaderSize] at hhead
    exact congrArg littleEndian (htake 0 4 (by omega))
  change checkHeader true (chunk room (file.drop pos)) = _ at hcheck
  rw [checkHeader, hlf] at hcheck
  simp only [true_and] at hcheck
  split_ifs at hcheck with hbeyond hzero hcrc
  injection hcheck with hframe hsum
  injection hframe with htype hdata
  have hdlen : data.length = lengthField (file.drop pos) := by
    rw [← hdata, List.length_take, List.length_drop]
    omega
  rw [← hsum, ← hdlen] at hsize hhead htake
  rw [← hdlen, htake _ _ (Nat.le_refl _)] at hdata
  rw [← hdlen, htake 6 _ (by simp only [kHeaderSize]; omega), h4] at hcrc
  have hmod := h.sum_mod
  have hle := h.room_le
  refine ⟨⟨?_, ?_, hdlen.symm, ?_, hdata, not_not.mp hcrc⟩, by rw [← hsum, hdlen], by omega⟩
  · simp only [kHeaderSize] at *
    omega
  · simp only [kBlockSize, kHeaderSize] at *
    omega
  · rw [← htype, hget 6 (by rw [← hsum]; simp only [kHeaderSize]; omega)]

/-- **Every record that is joined stands in the file.**  By induction on what the reader
    meets: what it has collected is the beginning of a record that ends where it is. -/
theorem stands_of_scan {bytes : Slice} {es : List LogEvent} (h : Scan format room bytes es) :
    ∀ {pos : Nat} {scratch : Slice} {frag : Bool}, file.drop pos = bytes → RoomAt pos room →
      (frag = true → ∃ p fs q, Chain file p fs q ∧ Begun scratch fs ∧ place q = place pos) →
      ∀ record ∈ (assemble scratch frag es).1, Stands file record := by
  induction h with
  | ends _ _ => exact nofun
  | torn _ _ _ => exact nofun
  | pad _ hlt _ ih =>
    intro pos scratch frag heq hat hopen
    refine ih (by rw [← heq, List.drop_drop]) hat.next_block fun hf => ?_
    obtain ⟨p, fs, q, hchain, hbegun, hq⟩ := hopen hf
    exact ⟨p, fs, q, hchain, hbegun, by rw [hq, hat.place_pad hlt]⟩
  | overrun _ _ _ _ ih | reject _ _ _ ih =>
    intro pos scratch frag heq hat _ record hr
    have hfresh : ∀ kept, ∀ record ∈ _, _ := fun kept =>
      @ih (pos + _) kept false (by rw [← heq, List.drop_drop]) hat.next_block nofun
    cases frag with
    | false => exact hfresh scratch record hr
    | true => exact hfresh [] record hr
  | @frame room bytes a size es hhead hcheck _ ih =>
    intro pos scratch frag heq hat hopen record hr
    obtain ⟨t, data⟩ := a
    rw [← heq] at hcheck
    obtain ⟨hphys, hsize, hroom⟩ := physicalAt_of_frame hat hcheck
    have hplace : place pos = pos := hat.place_eq (by omega)
    have hend : pos + size = pos + kHeaderSize + data.length := by omega
    have hat' : RoomAt (pos + size) (room - size) := by
      refine ⟨le_trans (Nat.sub_le _ _) hat.room_le, ?_⟩
      rw [show pos + size + (room - size) = pos + room by omega]
      exact hat.sum_mod
    have hnext := fun kept begun => @ih (pos + size) kept begun (by rw [← heq, List.drop_drop]) hat'
    have hfresh := fun kept => hnext kept false nofun
    -- the fragment after what has been collected
    have hsnoc : frag = true → ∃ p fs q, Chain file p (fs ++ [(t, data)]) q ∧ Begun scratch fs
        ∧ place q = place (pos + size) := by
      intro hf
      obtain ⟨p, fs, q, hchain, hbegun, hq⟩ := hopen hf
      rw [← hplace, ← hq] at hphys
      refine ⟨p, fs, _, .snoc hchain hphys, hbegun, ?_⟩
      rw [hq, hplace, hend]
    rw [assemble] at hr
    split_ifs at hr with hfull hfirst hmiddle hf hlast hf heof hbad hf
    · rcases List.mem_cons.mp hr with rfl | hr
      · exact ⟨pos, _, _, .one hphys, hfull ▸ .full record⟩
      · exact hfresh [] record hr
    · refine hnext data true (fun _ => ⟨pos, _, _, .one hphys, hfirst ▸ .first data, ?_⟩) record hr
      rw [hend]
    · refine hnext _ true (fun _ => ?_) record hr
      obtain ⟨p, fs, q, hchain, hbegun, hq⟩ := hsnoc hf
      exact ⟨p, _, q, hchain, hmiddle ▸ .middle data hbegun, hq⟩
    · exact hfresh scratch record hr
    · rcases List.mem_cons.mp hr with rfl | hr
      · obtain ⟨p, fs, q, hchain, hbegun, -⟩ := hsnoc hf
        exact ⟨p, _, q, hchain, hlast ▸ .last data hbegun⟩
      · exact hfresh [] record hr
    · exact hfresh scratch record hr
    · cases hr
    · exact hfresh [] record hr
    · exact hfresh scratch record hr
    · exact hfresh [] record hr
    · exact hfresh [] record hr

/-- **The reader returns what stands in the file, and comes to an end.**  For all bytes as
    a log file, read with checksums and from its start. -/
theorem records_sound (file : Slice) :
    ∃ records, Returns (Reader.new ⟨file, none⟩ true 0) records
      ∧ ∀ record ∈ records, Stands file record := by
  have hsize : ∀ b a n, format.check b = .frame a n → 0 < n := fun b a n hcheck =>
    lt_of_lt_of_le format.header_pos (checkHeader_frame hcheck).1
  obtain ⟨es, hscan⟩ := exists_scan hsize (file.length + 1) kBlockSize file (Nat.lt_succ_self _)
  refine ⟨_, returns_assemble _ _ es (ready_new hscan) (Nat.lt_succ_self _), ?_⟩
  exact stands_of_scan hscan List.drop_zero roomAt_zero nofun

end LdbLog
