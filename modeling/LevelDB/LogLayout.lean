import LevelDB.LogReader

/-! # What the log writer lays down

    A record that `AddRecord` writes lies in the file as one fragment for each
    block it touches.  Each is read back by `ReadPhysicalRecord`, and all together
    give the record in `ReadRecord`.  After a failed call the file has a first
    part of these bytes. -/

namespace LdbLog

open LdbFormat LdbCoding LdbEnv Blocked

/-! ## Physical records -/

/-- A physical record on disk. -/
def physical (t : RecordType) (data : Slice) : Slice := header t data ++ data

theorem header_length (t : RecordType) (data : Slice) : (header t data).length = kHeaderSize := rfl

theorem physical_length (t : RecordType) (data : Slice) :
    (physical t data).length = kHeaderSize + data.length := by
  rw [physical, List.length_append, header_length]

theorem charToUnsigned_code (t : RecordType) : charToUnsigned (lowByte t.code) = t.code := by
  cases t <;> decide

variable {n b room : Nat} {data : Slice} {begin_ : Bool} {fs : List (Nat × Slice)}

/-- Two bytes hold the length of a fragment. -/
theorem length_bytes (h : n < 2 ^ 16) :
    (lowByte (n % 2 ^ 8)).toNat ||| ((lowByte (n >>> 8)).toNat <<< 8) = n := by
  have hlow : (lowByte (n % 2 ^ 8)).toNat = n % 256 := by
    rw [lowByte_toNat]
    omega
  have hhigh : (lowByte (n >>> 8)).toNat = n / 256 := by
    rw [lowByte_toNat, Nat.shiftRight_eq_div_pow]
    omega
  have hlt : n % 256 < 2 ^ 8 := Nat.mod_lt _ (by decide)
  rw [hlow, hhigh, Nat.or_comm, ← Nat.shiftLeft_add_eq_or_of_lt hlt, Nat.shiftLeft_eq]
  omega

variable {t : RecordType}

/-- The length field of a header, whatever follows. -/
theorem lengthField_header (h : data.length < 2 ^ 16) (rest : Slice) :
    lengthField (header t data ++ rest) = data.length :=
  length_bytes h

/-- **A header with enough bytes behind it**: the checksum of these decides. -/
theorem checkHeader_header (ht : t ≠ .zero) (h : data.length < 2 ^ 16) {tail : Slice}
    (hle : data.length ≤ tail.length) :
    checkHeader true (header t data ++ tail)
      = if LdbCrc32c.value (lowByte t.code :: tail.take data.length)
          = LdbCrc32c.value (lowByte t.code :: data)
        then .frame (t.code, tail.take data.length) (physical t data).length
        else .reject (some ((header t data ++ tail).length, .corruption "checksum mismatch")) := by
  have hlength : lengthField (header t data ++ tail) = data.length := lengthField_header h tail
  have htype : charToUnsigned ((header t data ++ tail).getD 6 0) = t.code := charToUnsigned_code t
  have hpayload : ((header t data ++ tail).drop kHeaderSize).take data.length
      = tail.take data.length := rfl
  have hchecked : ((header t data ++ tail).drop 6).take (1 + data.length)
      = lowByte t.code :: tail.take data.length := by
    show (lowByte t.code :: tail).take (1 + data.length) = _
    rw [Nat.add_comm, List.take_succ_cons]
  have hstored : LdbCrc32c.unmask (UInt32.ofNat (decodeFixed32 (header t data ++ tail)))
      = LdbCrc32c.value (lowByte t.code :: data) := by
    rw [header, List.append_assoc, decodeFixed32_encodeFixed32 _ (UInt32.toNat_lt _),
      UInt32.ofNat_toNat, LdbCrc32c.unmask_mask, typeCrc, LdbCrc32c.extend_value]
  have hlen : ¬ (header t data ++ tail).length < kHeaderSize + data.length := by
    rw [List.length_append, header_length]
    omega
  have hzero : ¬ (t.code = RecordType.zero.code ∧ data.length = 0) := by
    rintro ⟨h0, -⟩
    cases t <;> first | exact ht rfl | exact absurd h0 (by decide)
  rw [checkHeader]
  simp only [hlength, htype, hpayload, hchecked, hstored]
  rw [if_neg hlen, if_neg hzero, physical_length]
  by_cases hcrc : LdbCrc32c.value (lowByte t.code :: tail.take data.length)
      = LdbCrc32c.value (lowByte t.code :: data)
  · rw [if_neg (fun h => h.2 hcrc), if_pos hcrc]
  · rw [if_pos ⟨trivial, hcrc⟩, if_neg hcrc]

theorem physical_take {k : Nat} (hk : kHeaderSize ≤ k) :
    (physical t data).take k = header t data ++ data.take (k - kHeaderSize) := by
  rw [physical, List.take_append, header_length,
    List.take_of_length_le (by rw [header_length]; exact hk)]

/-- **A physical record is read back** whatever follows, and recognised when cut. -/
theorem framed_physical (ht : t ≠ .zero) (h : data.length < 2 ^ 16) :
    Framed format (physical t data) (t.code, data) := by
  refine ⟨?_, ?_, ?_⟩
  · rw [physical_length]
    exact Nat.le_add_right _ _
  · intro rest
    have hle : data.length ≤ (data ++ rest).length := by
      rw [List.length_append]
      omega
    show checkHeader true (header t data ++ data ++ rest) = _
    rw [List.append_assoc, checkHeader_header ht h hle, List.take_left, if_pos rfl]
  · intro k hk hlt
    rw [physical_length] at hlt
    have hk' : kHeaderSize ≤ k := hk
    have hlength : lengthField ((physical t data).take k) = data.length := by
      rw [physical_take hk']
      exact lengthField_header h _
    have hshort : ((physical t data).take k).length < kHeaderSize + data.length := by
      rw [List.length_take]
      omega
    show checkHeader true ((physical t data).take k) = _
    rw [checkHeader]
    simp only [hlength]
    rw [if_pos hshort]

/-! ## Fragments -/

/-- The fragments of a record with contents `data`, from its first one or from a
    later one on. -/
inductive Fragments : Bool → Slice → List (Nat × Slice) → Prop
  | stop (begin_ : Bool) (data : Slice) :
      Fragments begin_ data [((fragmentType begin_ true).code, data)]
  | more {begin_ : Bool} {p data : Slice} {fs : List (Nat × Slice)} : Fragments false data fs →
      Fragments begin_ (p ++ data) (((fragmentType begin_ false).code, p) :: fs)

/-- Fragments after the first end the record that was begun. -/
theorem Fragments.assemble_rest (h : Fragments begin_ data fs) :
    begin_ = false → ∀ (scratch : Slice) (es : List LogEvent),
      assemble scratch true (fs.map .frame ++ es)
        = ((scratch ++ data) :: (assemble [] false es).1, (assemble [] false es).2) := by
  induction h with
  | stop begin_ data =>
    rintro rfl scratch es
    rfl
  | @more begin_ p data fs _ ih =>
    rintro rfl scratch es
    show assemble (scratch ++ p) true (fs.map .frame ++ es) = _
    rw [ih rfl, List.append_assoc]

/-- **All fragments of a record** give the record, whatever was begun before; what
    was begun and never ended is reported, if it had any bytes. -/
theorem Fragments.assemble_all (h : Fragments true data fs) (scratch : Slice) (frag : Bool) :
    ∃ reason, ∀ es : List LogEvent, assemble scratch frag (fs.map .frame ++ es)
      = (data :: (assemble [] false es).1,
          unfinished scratch frag reason ++ (assemble [] false es).2) := by
  cases h with
  | stop => exact ⟨"partial record without end(1)", fun es => rfl⟩
  | @more _ p data fs h =>
    refine ⟨"partial record without end(2)", ?_⟩
    intro es
    show ((assemble p true (fs.map .frame ++ es)).1,
      unfinished scratch frag _ ++ (assemble p true (fs.map .frame ++ es)).2) = _
    rw [h.assemble_rest rfl]

/-- Some fragments after the first leave the record open. -/
theorem Fragments.assemble_more {begin_ : Bool} (h : Fragments begin_ data fs) :
    begin_ = false → ∀ (scratch : Slice) (fs₁ fs₂ : List (Nat × Slice)), fs = fs₁ ++ fs₂ →
      fs₂ ≠ [] → ∃ scratch', ∀ es : List LogEvent,
        assemble scratch true (fs₁.map .frame ++ es) = assemble scratch' true es := by
  induction h with
  | stop begin_ data =>
    rintro rfl scratch (_ | ⟨f, fs₁⟩) fs₂ hfs hne
    · exact ⟨scratch, fun es => rfl⟩
    · exact absurd (List.append_eq_nil_iff.mp (List.cons.inj hfs).2.symm).2 hne
  | @more begin_ p data fs _ ih =>
    rintro rfl scratch (_ | ⟨f, fs₁⟩) fs₂ hfs hne
    · exact ⟨scratch, fun es => rfl⟩
    · obtain ⟨rfl, hrest⟩ := List.cons.inj hfs
      exact ih rfl (scratch ++ p) fs₁ fs₂ hrest hne

/-- After some of the fragments of a record, before its fragment `f`: nothing has
    been returned or reported, and only if `f` is the first no record is open. -/
theorem Fragments.assemble_before {fs₁ fs₂ : List (Nat × Slice)} {f : Nat × Slice}
    (h : Fragments true data fs) (hfs : fs = fs₁ ++ f :: fs₂) {scratch : Slice} {frag : Bool}
    (hidle : ¬ (frag = true ∧ scratch ≠ [])) :
    ∃ scratch' frag', (∀ es : List LogEvent,
        assemble scratch frag (fs₁.map .frame ++ es) = assemble scratch' frag' es)
      ∧ (frag' = false → scratch' = scratch) ∧ (f.1 = RecordType.last.code → frag' = true) := by
  cases fs₁ with
  | nil =>
    refine ⟨scratch, frag, fun es => rfl, fun _ => rfl, ?_⟩
    intro hlast
    cases h with
    | stop | more =>
      rw [← (List.cons.inj hfs).1] at hlast
      exact absurd hlast (by simp [fragmentType, RecordType.code])
  | cons g fs₁ =>
    cases h with
    | stop =>
      rw [List.cons_append, List.cons.injEq] at hfs
      exact absurd (List.append_eq_nil_iff.mp hfs.2.symm).2 (List.cons_ne_nil _ _)
    | @more _ p data fs h =>
      rw [List.cons_append, List.cons.injEq] at hfs
      obtain ⟨rfl, hfs⟩ := hfs
      obtain ⟨scratch', hscratch⟩ := h.assemble_more rfl p fs₁ (f :: fs₂) hfs
        (List.cons_ne_nil _ _)
      have hnone : ∀ reason, unfinished scratch frag reason = [] := fun reason => if_neg hidle
      refine ⟨scratch', true, ?_, nofun, fun _ => rfl⟩
      intro es
      show ((assemble p true (fs₁.map .frame ++ es)).1,
        unfinished scratch frag _ ++ (assemble p true (fs₁.map .frame ++ es)).2) = _
      rw [hscratch, hnone, List.nil_append]

theorem not_unfinished : ¬ (false = true ∧ ([] : Slice) ≠ []) := nofun

/-- A record cut off after some of its fragments gives nothing. -/
theorem Fragments.assemble_cut {fs₁ fs₂ : List (Nat × Slice)} (h : Fragments true data fs)
    (hfs : fs = fs₁ ++ fs₂) (hne : fs₂ ≠ []) {scratch : Slice} {frag : Bool}
    (hidle : ¬ (frag = true ∧ scratch ≠ [])) :
    assemble scratch frag (fs₁.map .frame) = ([], []) := by
  obtain ⟨f, fs₂, rfl⟩ := List.exists_cons_of_ne_nil hne
  obtain ⟨_, _, hopen, -, -⟩ := h.assemble_before hfs hidle
  rw [← List.append_nil (fs₁.map _), hopen]
  rfl

/-! ## What `AddRecord` lays down -/

/-- Fragments on disk, one after another. -/
def onDisk (fs : List (RecordType × Slice)) : Slice := fs.flatMap fun f => physical f.1 f.2

/-- Fragments as the reader sees them. -/
def coded (fs : List (RecordType × Slice)) : List (Nat × Slice) := fs.map fun f => (f.1.code, f.2)

theorem onDisk_cons (t : RecordType) (data : Slice) (fs : List (RecordType × Slice)) :
    onDisk ((t, data) :: fs) = physical t data ++ onDisk fs := List.flatMap_cons

theorem coded_cons (t : RecordType) (data : Slice) (fs : List (RecordType × Slice)) :
    coded ((t, data) :: fs) = (t.code, data) :: coded fs := rfl

/-- The fragments that the loop of `AddRecord` makes of `left` from offset `b`
    on. -/
def fragmentsOf : Nat → Bool → Slice → Nat → List (RecordType × Slice)
  | 0, _, _, _ => []
  | n + 1, begin_, left, b =>
    let b := if b = kBlockSize then 0 else b
    let avail := kBlockSize - b - kHeaderSize
    if left.length ≤ avail then [(fragmentType begin_ true, left)]
    else (fragmentType begin_ false, left.take avail) ::
      fragmentsOf n false (left.drop avail) kBlockSize

/-- `room` bytes are left in the block of the file; none left is a new block. -/
def nextRoom (room : Nat) : Nat := if room = 0 then kBlockSize else room

/-- Every physical record that the loop of `AddRecord` is about to write, with
    `block_offset_ = b` and `left` bytes to go, lies within one block of a file
    that has `room` bytes left in its own block. -/
def landsLoop : Nat → Nat → Nat → Nat → Bool
  | 0, _, _, _ => true
  | n + 1, left, b, room =>
    let b := if b = kBlockSize then 0 else b
    let len := min left (kBlockSize - b - kHeaderSize)
    decide (kHeaderSize + len ≤ nextRoom room) &&
      (decide (left ≤ len) ||
        landsLoop n (left - len) (b + (kHeaderSize + len)) (nextRoom room - (kHeaderSize + len)))

/-- A writer whose offset is that of the file lands every record. -/
theorem landsLoop_aligned (n : Nat) :
    ∀ left b room : Nat, b ≤ kBlockSize → (b = kBlockSize ∨ b + kHeaderSize ≤ kBlockSize) →
      nextRoom room = nextRoom (kBlockSize - b) → landsLoop n left b room = true := by
  have hsize : kHeaderSize < kBlockSize := format.header_lt
  induction n with
  | zero =>
    intro left b room _ _ _
    rfl
  | succ n ih =>
    intro left b room hb hfit hroom
    -- offset and room of the block the record goes to
    obtain ⟨b₀, hb₀, hfit₀, hroom₀⟩ : ∃ b₀, (if b = kBlockSize then 0 else b) = b₀
        ∧ b₀ + kHeaderSize ≤ kBlockSize ∧ nextRoom room = kBlockSize - b₀ := by
      rw [hroom, nextRoom]
      by_cases h : b = kBlockSize
      · refine ⟨0, if_pos h, by omega, ?_⟩
        rw [if_pos (by omega)]
        rfl
      · refine ⟨b, if_neg h, by omega, ?_⟩
        rw [if_neg (by omega)]
    rw [landsLoop]
    simp only [hb₀, hroom₀, Bool.and_eq_true, Bool.or_eq_true, decide_eq_true_eq]
    refine ⟨by omega, ?_⟩
    by_cases hleft : left ≤ min left (kBlockSize - b₀ - kHeaderSize)
    · exact Or.inl hleft
    · refine Or.inr (ih _ _ _ (by omega) (Or.inl (by omega)) ?_)
      congr 1
      omega

/-- `EmitPhysicalRecord` adds a first part of the physical record, and all of it
    if it succeeds; the offset advances in any case. -/
theorem emitPhysicalRecord_spec (w : Writer) (dest : WritableFile) (t : RecordType)
    (data : Slice) :
    (w.emitPhysicalRecord dest t data).2.1 = ⟨w.blockOffset + kHeaderSize + data.length⟩
      ∧ ∃ k, (w.emitPhysicalRecord dest t data).2.2.contents
            = dest.contents ++ (physical t data).take k
        ∧ ((w.emitPhysicalRecord dest t data).1 = .ok → (physical t data).length ≤ k) := by
  obtain ⟨k₁, hc₁, hok₁⟩ := dest.append_spec (header t data)
  rw [Writer.emitPhysicalRecord]
  refine ⟨rfl, ?_⟩
  by_cases h₁ : (dest.append (header t data)).1 = .ok
  · have hheader : (dest.append (header t data)).2.contents = dest.contents ++ header t data := by
      rw [hc₁, List.take_of_length_le (hok₁ h₁)]
    obtain ⟨k₂, hc₂, hok₂⟩ := (dest.append (header t data)).2.append_spec data
    have hc : ((dest.append (header t data)).2.append data).2.contents
        = dest.contents ++ (physical t data).take (kHeaderSize + k₂) := by
      rw [hc₂, hheader, physical, ← header_length t data, List.take_length_add_append,
        List.append_assoc]
    refine ⟨kHeaderSize + k₂, ?_⟩
    rw [ifOk, ifOk, if_pos h₁]
    by_cases h₂ : ((dest.append (header t data)).2.append data).1 = .ok
    · rw [if_pos h₂]
      refine ⟨?_, fun _ => ?_⟩
      · rw [WritableFile.flush_contents, hc]
      · rw [physical_length]
        exact Nat.add_le_add_left (hok₂ h₂) _
    · rw [if_neg h₂]
      exact ⟨hc, fun h => absurd h h₂⟩
  · -- a header that was not written well ends the call
    refine ⟨min k₁ kHeaderSize, ?_⟩
    rw [ifOk, ifOk, if_neg h₁, if_neg h₁]
    refine ⟨?_, fun h => absurd h h₁⟩
    rw [hc₁, physical, List.take_append_of_le_length (by rw [header_length]; omega),
      ← header_length t data, ← List.take_take, List.take_length]

/-- Without failures the physical record is appended. -/
theorem emitPhysicalRecord_ok (w : Writer) (c : Slice) (t : RecordType) (data : Slice) :
    w.emitPhysicalRecord ⟨c, []⟩ t data
      = (.ok, ⟨w.blockOffset + kHeaderSize + data.length⟩, ⟨c ++ physical t data, []⟩) := by
  rw [physical, ← List.append_assoc]
  rfl

/-- A physical record laid in the current block of the file, or in the next one
    if the current one is full. -/
theorem laid_physical (room : Nat) {r : Nat} {e bytes : Slice} {a : Nat × Slice}
    {as : List (Nat × Slice)} (he : Framed format e a) (hfit : e.length ≤ nextRoom room)
    (h : Laid format (nextRoom room - e.length) bytes as r) :
    Laid format room (e ++ bytes) (a :: as) r := by
  rw [nextRoom] at hfit h
  by_cases h0 : room = 0
  · rw [if_pos h0] at hfit h
    exact Laid.pad (p := []) h0.symm (h0 ▸ format.header_pos) he hfit h
  · rw [if_neg h0] at hfit h
    exact Laid.frame he hfit h

/-- Each fragment lies in the block of the file it starts in. -/
def Fits : Nat → List (RecordType × Slice) → Prop
  | _, [] => True
  | room, (t, data) :: rest => t ≠ .zero ∧ data.length < 2 ^ 16
      ∧ kHeaderSize + data.length ≤ nextRoom room
      ∧ Fits (nextRoom room - (kHeaderSize + data.length)) rest

/-- The room left after fragments. -/
def roomAfter : Nat → List (RecordType × Slice) → Nat
  | room, [] => room
  | room, (_, data) :: rest => roomAfter (nextRoom room - (kHeaderSize + data.length)) rest

/-- Fragments that fit are laid. -/
theorem Fits.laid (fs : List (RecordType × Slice)) :
    ∀ {room : Nat}, Fits room fs → Laid format room (onDisk fs) (coded fs) (roomAfter room fs) := by
  induction fs with
  | nil =>
    intro room _
    exact Laid.nil room
  | cons f fs ih =>
    intro room hfits
    obtain ⟨t, data⟩ := f
    obtain ⟨ht, hsize, hfit, hrest⟩ := hfits
    have hlaid := ih hrest
    rw [onDisk_cons, coded_cons, roomAfter]
    rw [← physical_length t data] at hfit hlaid ⊢
    exact laid_physical room (framed_physical ht hsize) hfit hlaid

theorem fragmentType_ne_zero (begin_ end_ : Bool) : fragmentType begin_ end_ ≠ .zero := by
  cases begin_ <;> cases end_ <;> decide

theorem fragmentsOf_succ {b₀ : Nat} (hb₀ : (if b = kBlockSize then 0 else b) = b₀) (left : Slice) :
    fragmentsOf (n + 1) begin_ left b
      = if left.length ≤ kBlockSize - b₀ - kHeaderSize then [(fragmentType begin_ true, left)]
        else (fragmentType begin_ false, left.take (kBlockSize - b₀ - kHeaderSize)) ::
          fragmentsOf n false (left.drop (kBlockSize - b₀ - kHeaderSize)) kBlockSize := by
  rw [fragmentsOf]
  simp only [hb₀]

/-- The fragments of a record that lands fit. -/
theorem fragmentsOf_fits (n : Nat) :
    ∀ (begin_ : Bool) (left : Slice) (b room : Nat),
      (b = kBlockSize ∨ b + kHeaderSize ≤ kBlockSize) → landsLoop n left.length b room = true →
      Fits room (fragmentsOf n begin_ left b) := by
  have hsize : kHeaderSize < kBlockSize := format.header_lt
  have hblock : kBlockSize = 32768 := rfl
  induction n with
  | zero =>
    intro begin_ left b room _ _
    trivial
  | succ n ih =>
    intro begin_ left b room hb hlands
    obtain ⟨b₀, hb₀⟩ : ∃ b₀, (if b = kBlockSize then 0 else b) = b₀ := ⟨_, rfl⟩
    have hhead : b₀ + kHeaderSize ≤ kBlockSize := by
      rw [← hb₀]
      split_ifs <;> omega
    rw [landsLoop] at hlands
    simp only [hb₀, Bool.and_eq_true, Bool.or_eq_true, decide_eq_true_eq] at hlands
    obtain ⟨hroom, hrest⟩ := hlands
    rw [fragmentsOf_succ hb₀]
    by_cases hfit : left.length ≤ kBlockSize - b₀ - kHeaderSize
    · rw [if_pos hfit]
      rw [Nat.min_eq_left hfit] at hroom
      exact ⟨fragmentType_ne_zero _ _, by omega, hroom, trivial⟩
    · rw [if_neg hfit]
      rw [Nat.min_eq_right (by omega)] at hroom hrest
      have hlen : (left.take (kBlockSize - b₀ - kHeaderSize)).length
          = kBlockSize - b₀ - kHeaderSize := by
        rw [List.length_take]
        omega
      have hlands := hrest.resolve_left hfit
      rw [show b₀ + (kHeaderSize + (kBlockSize - b₀ - kHeaderSize)) = kBlockSize by omega,
        ← List.length_drop] at hlands
      rw [Fits, hlen]
      exact ⟨fragmentType_ne_zero _ _, by omega, hroom, ih false _ _ _ (Or.inl rfl) hlands⟩

/-- The block switch of a writer that has no trailer to fill. -/
theorem switchBlock_eq (h : b = kBlockSize ∨ b + kHeaderSize ≤ kBlockSize) (dest : WritableFile) :
    (⟨b⟩ : Writer).switchBlock dest = (⟨if b = kBlockSize then 0 else b⟩, dest) := by
  have hsize : 0 < kHeaderSize := format.header_pos
  simp only [Writer.switchBlock]
  rcases h with rfl | h
  · rw [Nat.sub_self, if_pos hsize, if_neg (Nat.lt_irrefl 0), if_pos rfl]
  · have hroom : ¬ kBlockSize - b < kHeaderSize := by omega
    have hne : ¬ b = kBlockSize := by omega
    rw [if_neg hroom, if_neg hne]

theorem switchBlock_zero (dest : WritableFile) :
    (⟨0⟩ : Writer).switchBlock dest = (⟨0⟩, dest) := by
  rw [switchBlock_eq (Or.inr (by decide)), if_neg (by decide)]

/-- What the loop of `AddRecord` does: it appends `bytes`, with the fragments `frames`
    of what is left, and ends at offset `b'`; after a failure the file has a first
    part of `bytes`. -/
structure Lays (n : Nat) (begin_ : Bool) (left : Slice) (b : Nat) (bytes : Slice)
    (frames : List (Nat × Slice)) (b' : Nat) : Prop where
  frags : Fragments begin_ left frames
  offset : b' ≤ kBlockSize ∧ b' % kBlockSize = (b + bytes.length) % kBlockSize
  ok : ∀ c, Writer.addRecordLoop n begin_ left ⟨b⟩ ⟨c, []⟩ = (.ok, ⟨b'⟩, ⟨c ++ bytes, []⟩)
  part : ∀ dest, ∃ k, (Writer.addRecordLoop n begin_ left ⟨b⟩ dest).2.2.contents
            = dest.contents ++ bytes.take k
        ∧ ((Writer.addRecordLoop n begin_ left ⟨b⟩ dest).1 = .ok → bytes.length ≤ k
          ∧ (Writer.addRecordLoop n begin_ left ⟨b⟩ dest).2.1 = ⟨b'⟩)

section Rounds

variable {b₀ avail : Nat} {left : Slice} (hb : b = kBlockSize ∨ b + kHeaderSize ≤ kBlockSize)
  (hb₀ : (if b = kBlockSize then 0 else b) = b₀)
include hb hb₀

/-- The last round of the loop of `AddRecord`: all that is left fits into the block. -/
theorem addRecordLoop_last (hfit : left.length ≤ kBlockSize - b₀ - kHeaderSize)
    (dest : WritableFile) :
    Writer.addRecordLoop (n + 1) begin_ left ⟨b⟩ dest
      = (⟨b₀⟩ : Writer).emitPhysicalRecord dest (fragmentType begin_ true) left := by
  rw [Writer.addRecordLoop, switchBlock_eq hb, hb₀]
  simp only [List.take_of_length_le hfit, List.drop_length, decide_true]
  exact if_neg fun h => h.2 rfl

/-- A round of the loop that fills its block. -/
theorem addRecordLoop_more (havail : b₀ + kHeaderSize + avail = kBlockSize)
    (hmore : avail < left.length) (dest : WritableFile) :
    Writer.addRecordLoop (n + 1) begin_ left ⟨b⟩ dest
      = if ((⟨b₀⟩ : Writer).emitPhysicalRecord dest (fragmentType begin_ false)
            (left.take avail)).1 = .ok then
          Writer.addRecordLoop n false (left.drop avail) ⟨kBlockSize⟩
            ((⟨b₀⟩ : Writer).emitPhysicalRecord dest (fragmentType begin_ false)
              (left.take avail)).2.2
        else (⟨b₀⟩ : Writer).emitPhysicalRecord dest (fragmentType begin_ false)
          (left.take avail) := by
  have hlen : (left.take avail).length = avail := List.length_take_of_le (Nat.le_of_lt hmore)
  have hne : left.drop avail ≠ [] := mt List.drop_eq_nil_iff.mp (Nat.not_le_of_lt hmore)
  have hoff : ((⟨b₀⟩ : Writer).emitPhysicalRecord dest (fragmentType begin_ false)
      (left.take avail)).2.1 = ⟨kBlockSize⟩ := by
    rw [(emitPhysicalRecord_spec _ _ _ _).1, hlen, ← havail]
  rw [Writer.addRecordLoop, switchBlock_eq hb, hb₀]
  simp only [show kBlockSize - b₀ - kHeaderSize = avail by omega, hlen,
    decide_eq_false (Nat.ne_of_gt hmore), and_iff_left hne]
  split_ifs
  · rw [hoff]
  · rfl

theorem lays_last (hfit : left.length ≤ kBlockSize - b₀ - kHeaderSize)
    (hhead : b₀ + kHeaderSize ≤ kBlockSize) :
    Lays (n + 1) begin_ left b (physical (fragmentType begin_ true) left)
      [((fragmentType begin_ true).code, left)] (b₀ + kHeaderSize + left.length) := by
  refine ⟨Fragments.stop begin_ left, ⟨by omega, ?_⟩, ?_, ?_⟩
  · rw [physical_length]
    by_cases h : b = kBlockSize
    · rw [if_pos h] at hb₀
      rw [← hb₀, h, Nat.add_mod_left, Nat.zero_add]
    · rw [if_neg h] at hb₀
      rw [← hb₀, Nat.add_assoc]
  · intro c
    rw [addRecordLoop_last hb hb₀ hfit, emitPhysicalRecord_ok]
  · intro dest
    obtain ⟨hoff, k, hc, hok⟩ := emitPhysicalRecord_spec ⟨b₀⟩ dest (fragmentType begin_ true) left
    rw [addRecordLoop_last hb hb₀ hfit]
    exact ⟨k, hc, fun h => ⟨hok h, hoff⟩⟩

theorem lays_more {b' : Nat} {bytes : Slice} {frames : List (Nat × Slice)}
    (havail : b₀ + kHeaderSize + avail = kBlockSize) (hmore : avail < left.length)
    (h : Lays n false (left.drop avail) kBlockSize bytes frames b') :
    Lays (n + 1) begin_ left b (physical (fragmentType begin_ false) (left.take avail) ++ bytes)
      (((fragmentType begin_ false).code, left.take avail) :: frames) b' := by
  have hphys : (physical (fragmentType begin_ false) (left.take avail)).length
      = kHeaderSize + avail := by
    rw [physical_length, List.length_take_of_le (Nat.le_of_lt hmore)]
  refine ⟨?_, ?_, ?_, ?_⟩
  · have hfrags : Fragments begin_ (left.take avail ++ left.drop avail) _ :=
      Fragments.more h.frags
    rw [List.take_append_drop] at hfrags
    exact hfrags
  · refine ⟨h.offset.1, ?_⟩
    rw [h.offset.2, List.length_append, hphys]
    by_cases h' : b = kBlockSize
    · rw [if_pos h'] at hb₀
      simp only [kBlockSize] at h' havail ⊢
      omega
    · rw [if_neg h'] at hb₀
      simp only [kBlockSize] at havail ⊢
      omega
  · intro c
    rw [addRecordLoop_more hb hb₀ havail hmore, emitPhysicalRecord_ok, if_pos rfl, h.ok,
      List.append_assoc]
  · intro dest
    obtain ⟨-, k, hc, hok⟩ := emitPhysicalRecord_spec ⟨b₀⟩ dest (fragmentType begin_ false)
      (left.take avail)
    rw [addRecordLoop_more hb hb₀ havail hmore]
    split_ifs with hs
    · obtain ⟨k', hc', hok'⟩ := h.part ((⟨b₀⟩ : Writer).emitPhysicalRecord dest
        (fragmentType begin_ false) (left.take avail)).2.2
      refine ⟨kHeaderSize + avail + k', ?_, ?_⟩
      · rw [hc', hc, List.take_of_length_le (hok hs), ← hphys, List.take_length_add_append,
          List.append_assoc]
      · intro h'
        obtain ⟨hk', hw⟩ := hok' h'
        refine ⟨?_, hw⟩
        rw [List.length_append, hphys]
        omega
    · refine ⟨min k (kHeaderSize + avail), ?_, fun h' => absurd h' hs⟩
      rw [hc, List.take_append_of_le_length (by rw [hphys]; omega), ← hphys, ← List.take_take,
        List.take_length]

end Rounds

/-- **The loop of `AddRecord`** appends the fragments of what is left of a record. -/
theorem addRecordLoop_lays (n : Nat) :
    ∀ (begin_ : Bool) (left : Slice) (b : Nat), (b = kBlockSize ∨ b + kHeaderSize ≤ kBlockSize) →
      left.length + (if b + kHeaderSize = kBlockSize then 1 else 0) < n →
      ∃ b', Lays n begin_ left b (onDisk (fragmentsOf n begin_ left b))
        (coded (fragmentsOf n begin_ left b)) b' := by
  have hsize : kHeaderSize < kBlockSize := format.header_lt
  induction n with
  | zero =>
    intro begin_ left b _ hn
    exact absurd hn (Nat.not_lt_zero _)
  | succ n ih =>
    intro begin_ left b hb hn
    obtain ⟨b₀, hb₀⟩ : ∃ b₀, (if b = kBlockSize then 0 else b) = b₀ := ⟨_, rfl⟩
    have hhead : b₀ + kHeaderSize ≤ kBlockSize := by
      rw [← hb₀]
      split_ifs <;> omega
    rw [fragmentsOf_succ hb₀]
    by_cases hfit : left.length ≤ kBlockSize - b₀ - kHeaderSize
    · rw [if_pos hfit, onDisk_cons, show onDisk [] = [] from rfl, List.append_nil]
      exact ⟨_, lays_last hb hb₀ hfit hhead⟩
    · -- only the first fragment can be empty, so the rest is shorter or its block is new
      have hn' : (left.drop (kBlockSize - b₀ - kHeaderSize)).length
          + (if kBlockSize + kHeaderSize = kBlockSize then 1 else 0) < n := by
        have hpos : 0 < kHeaderSize := format.header_pos
        rw [List.length_drop, if_neg (by omega)]
        by_cases h7 : b + kHeaderSize = kBlockSize
        · rw [if_pos h7] at hn
          omega
        · rw [if_neg h7] at hn
          have hb₀' : b₀ + kHeaderSize ≠ kBlockSize := by
            rw [← hb₀]
            split_ifs <;> omega
          omega
      obtain ⟨b', hlays⟩ := ih false _ kBlockSize (Or.inl rfl) hn'
      rw [if_neg hfit, onDisk_cons, coded_cons]
      exact ⟨_, lays_more hb hb₀ (by omega) (by omega) hlays⟩

/-! ## `AddRecord` -/

theorem Fragments.ne_nil (h : Fragments begin_ data fs) : fs ≠ [] := by
  cases h <;> exact List.cons_ne_nil _ _

/-- Filling the trailer first, then writing from the start of the new block. -/
theorem addRecordLoop_pad (hpos : 0 < kBlockSize - b) (hlt : kBlockSize - b < kHeaderSize)
    (begin_ : Bool) (left : Slice) (dest : WritableFile) :
    Writer.addRecordLoop (n + 1) begin_ left ⟨b⟩ dest
      = Writer.addRecordLoop (n + 1) begin_ left ⟨0⟩
          (dest.append (List.replicate (kBlockSize - b) 0)).2 := by
  have hswitch : (⟨b⟩ : Writer).switchBlock dest
      = (⟨0⟩, (dest.append (List.replicate (kBlockSize - b) 0)).2) := by
    simp only [Writer.switchBlock]
    rw [if_pos hlt, if_pos hpos]
  rw [Writer.addRecordLoop, Writer.addRecordLoop, hswitch, switchBlock_zero]

/-- The writer is at the offset of a file with `room` bytes left in its block. -/
structure Aligned (b room : Nat) : Prop where
  offset_le : b ≤ kBlockSize
  room_le : room ≤ kBlockSize
  sum_mod : (b + room) % kBlockSize = 0

theorem Aligned.nextRoom_eq (h : Aligned b room) : nextRoom room = nextRoom (kBlockSize - b) := by
  obtain ⟨hb, hroom, hsum⟩ := h
  have hblock : kBlockSize = 32768 := rfl
  have hcases : room = kBlockSize - b ∨ (room = 0 ∧ b = 0) ∨ (room = kBlockSize ∧ b = kBlockSize) := by
    rw [hblock] at hb hroom hsum ⊢
    omega
  rw [nextRoom, nextRoom]
  rcases hcases with rfl | ⟨rfl, rfl⟩ | ⟨rfl, rfl⟩
  · rfl
  · rfl
  · rfl

/-- Bytes counted on both sides keep writer and file in step. -/
theorem Aligned.after {b' room' k : Nat} (h : Aligned b room) (hb' : b' ≤ kBlockSize)
    (hroom' : room' ≤ kBlockSize) (hoffset : b' % kBlockSize = (b + k) % kBlockSize)
    (hcount : (room' + k) % kBlockSize = room % kBlockSize) : Aligned b' room' := by
  obtain ⟨hb, hroom, hsum⟩ := h
  refine ⟨hb', hroom', ?_⟩
  simp only [kBlockSize] at *
  omega

/-- The zeros `AddRecord` fills a block with that has no room for a header. -/
def padding (b : Nat) : Nat := if kBlockSize - b < kHeaderSize then kBlockSize - b else 0

/-- The fragments of a record written from offset `b` on. -/
def recordFragments (b : Nat) (record : Slice) : List (RecordType × Slice) :=
  fragmentsOf (record.length + 2) true record (if kBlockSize - b < kHeaderSize then 0 else b)

/-- What `AddRecord` appends for a record, from offset `b` on. -/
def encodeRecord (b : Nat) (record : Slice) : Slice :=
  List.replicate (padding b) 0 ++ onDisk (recordFragments b record)

/-- The writer forgets full blocks. -/
theorem encodeRecord_mod (h : b ≤ kBlockSize) (record : Slice) :
    encodeRecord b record = encodeRecord (b % kBlockSize) record
      ∧ recordFragments b record = recordFragments (b % kBlockSize) record := by
  by_cases hb : b = kBlockSize
  · subst hb
    exact ⟨rfl, rfl⟩
  · rw [Nat.mod_eq_of_lt (by omega)]
    exact ⟨rfl, rfl⟩

/-- **A record written without failure** to a file in step with its writer is laid
    as its fragments. -/
theorem addRecord_laid (h : Aligned b room) (record : Slice) :
    ∃ b' room', Laid format room (encodeRecord b record) (coded (recordFragments b record)) room'
      ∧ Fragments true record (coded (recordFragments b record)) ∧ Aligned b' room'
      ∧ b' % kBlockSize = (b + (encodeRecord b record).length) % kBlockSize
      ∧ ∀ c, (⟨b⟩ : Writer).addRecord ⟨c, []⟩ record
        = (.ok, ⟨b'⟩, ⟨c ++ encodeRecord b record, []⟩) := by
  have hsize : kHeaderSize < kBlockSize := format.header_lt
  have hb := h.offset_le
  have hafter : ∀ {bytes : Slice} {frames : List (Nat × Slice)} {b' room' : Nat},
      Laid format room bytes frames room' → b' ≤ kBlockSize →
      b' % kBlockSize = (b + bytes.length) % kBlockSize → Aligned b' room' := by
    intro bytes frames b' room' hlaid hb' hmod
    obtain ⟨hle, hcount⟩ := hlaid.room_mod h.room_le
    exact h.after hb' hle hmod hcount
  by_cases hpad : 0 < kBlockSize - b ∧ kBlockSize - b < kHeaderSize
  · obtain ⟨hpos, hlt⟩ := hpad
    have hroom' : room = kBlockSize - b := by
      have hsum := h.sum_mod
      have hle := h.room_le
      simp only [kBlockSize, kHeaderSize] at *
      omega
    rw [encodeRecord, padding, recordFragments, if_pos hlt, if_pos hlt]
    obtain ⟨b', hlays⟩ := addRecordLoop_lays (record.length + 2) true record
      0 (Or.inr (by omega)) (by split_ifs <;> omega)
    have hnew := (fragmentsOf_fits (record.length + 2) true record 0 kBlockSize (Or.inr (by omega))
      (landsLoop_aligned _ _ _ _ (by omega) (Or.inr (by omega)) rfl)).laid
    obtain ⟨fs, hfs⟩ : ∃ fs, fragmentsOf (record.length + 2) true record 0 = fs := ⟨_, rfl⟩
    rw [hfs] at hlays hnew ⊢
    have hlaid : Laid format room (List.replicate (kBlockSize - b) 0 ++ onDisk fs) (coded fs) _ :=
      Laid.after_pad (by rw [List.length_replicate, hroom']) (by rw [hroom']; exact hlt)
        hlays.frags.ne_nil hnew
    have hmod : b' % kBlockSize
        = (b + (List.replicate (kBlockSize - b) 0 ++ onDisk fs : Slice).length) % kBlockSize := by
      rw [hlays.offset.2, List.length_append, List.length_replicate,
        show b + (kBlockSize - b + (onDisk fs).length) = kBlockSize + (onDisk fs).length by omega,
        Nat.add_mod_left, Nat.zero_add]
    refine ⟨b', _, hlaid, hlays.frags, hafter hlaid hlays.offset.1 hmod, hmod, ?_⟩
    intro c
    rw [Writer.addRecord, addRecordLoop_pad hpos hlt, WritableFile.append_nil]
    show Writer.addRecordLoop _ true record ⟨0⟩ ⟨_, []⟩ = _
    rw [hlays.ok, List.append_assoc]
  · have hfit : b = kBlockSize ∨ b + kHeaderSize ≤ kBlockSize := by omega
    have hpad0 : padding b = 0 := by
      rw [padding]
      split_ifs <;> omega
    obtain ⟨b', hlays⟩ := addRecordLoop_lays (record.length + 2) true record
      b hfit (by split_ifs <;> omega)
    have hlaid := (fragmentsOf_fits (record.length + 2) true record b room hfit
      (landsLoop_aligned _ _ _ _ hb hfit h.nextRoom_eq)).laid
    have hfs : recordFragments b record = fragmentsOf (record.length + 2) true record b := by
      rw [recordFragments]
      rcases hfit with rfl | hfit
      · rfl
      · rw [if_neg (by omega)]
    rw [encodeRecord, hpad0, hfs, List.replicate_zero, List.nil_append]
    exact ⟨b', _, hlaid, hlays.frags, hafter hlaid hlays.offset.1 hlays.offset.2, hlays.offset.2,
      hlays.ok⟩

end LdbLog
