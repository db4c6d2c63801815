import LevelDB.LogLayout

/-! # What the log writer writes, the log reader reads

    Records written in any number of sessions are read back.  A file cut anywhere
    loses the record it is cut in and the ones after it, and nothing is reported:
    a cut looks like a writer that died. -/

namespace LdbLog

open LdbFormat LdbEnv Blocked

/-! ## Sessions -/

/-- `AddRecord` for each record in turn. -/
def Writer.addRecords (w : Writer) (dest : WritableFile) : List Slice → Writer × WritableFile
  | [] => (w, dest)
  | record :: rest =>
    addRecords (w.addRecord dest record).2.1 (w.addRecord dest record).2.2 rest

/-- A session: a writer opened on a file of the given length appends records. -/
def session (file : Slice) (records : List Slice) : Slice :=
  ((Writer.resume file.length).addRecords ⟨file, []⟩ records).2.contents

/-- The file after some sessions; the first one starts with an empty file. -/
def sessions (file : Slice) : List (List Slice) → Slice
  | [] => file
  | records :: rest => sessions (session file records) rest

/-- The records of a session with the lengths of the file after each of them, one
    past their last bytes. -/
def recordEnds (w : Writer) (dest : WritableFile) : List Slice → List (Slice × Nat)
  | [] => []
  | record :: rest => (record, (w.addRecord dest record).2.2.contents.length) ::
      recordEnds (w.addRecord dest record).2.1 (w.addRecord dest record).2.2 rest

/-- The records of all sessions with their ends. -/
def sessionEnds (file : Slice) : List (List Slice) → List (Slice × Nat)
  | [] => []
  | records :: rest => recordEnds (Writer.resume file.length) ⟨file, []⟩ records
      ++ sessionEnds (session file records) rest

/-- The records that end within the first `n` bytes. -/
def within (n : Nat) (ends : List (Slice × Nat)) : List Slice :=
  (ends.filter fun p => p.2 ≤ n).map Prod.fst

/-! ## The file as a function of its records -/

/-- The bytes of records written from position `pos` of a file on. -/
def encodeAll : Nat → List Slice → Slice
  | _, [] => []
  | pos, record :: rest => encodeRecord (pos % kBlockSize) record
      ++ encodeAll (pos + (encodeRecord (pos % kBlockSize) record).length) rest

/-- The records with the positions after them. -/
def endsOf : Nat → List Slice → List (Slice × Nat)
  | _, [] => []
  | pos, record :: rest => (record, pos + (encodeRecord (pos % kBlockSize) record).length) ::
      endsOf (pos + (encodeRecord (pos % kBlockSize) record).length) rest

theorem encodeAll_append (a b : List Slice) :
    ∀ pos, encodeAll pos (a ++ b) = encodeAll pos a ++ encodeAll (pos + (encodeAll pos a).length) b := by
  induction a with
  | nil =>
    intro pos
    rfl
  | cons record rest ih =>
    intro pos
    rw [List.cons_append, encodeAll, encodeAll, ih, List.append_assoc, List.length_append,
      Nat.add_assoc]

theorem endsOf_append (a b : List Slice) :
    ∀ pos, endsOf pos (a ++ b) = endsOf pos a ++ endsOf (pos + (encodeAll pos a).length) b := by
  induction a with
  | nil =>
    intro pos
    rfl
  | cons record rest ih =>
    intro pos
    rw [List.cons_append, endsOf, endsOf, encodeAll, ih, List.length_append, Nat.add_assoc,
      List.cons_append]

theorem endsOf_fst (records : List Slice) :
    ∀ pos, (endsOf pos records).map Prod.fst = records := by
  induction records with
  | nil =>
    intro pos
    rfl
  | cons record rest ih =>
    intro pos
    rw [endsOf, List.map_cons, ih]

/-- Records end between the position they are written from and the end of the
    file. -/
theorem endsOf_bounds (records : List Slice) :
    ∀ pos, ∀ p ∈ endsOf pos records, pos ≤ p.2 ∧ p.2 ≤ pos + (encodeAll pos records).length := by
  induction records with
  | nil => nofun
  | cons record rest ih =>
    intro pos p hp
    rw [encodeAll, List.length_append]
    rcases List.mem_cons.mp hp with rfl | hp
    · show pos ≤ pos + _ ∧ pos + _ ≤ _
      omega
    · have := ih _ p hp
      omega

/-- `room` bytes are left in the block of position `pos`. -/
structure RoomAt (pos room : Nat) : Prop where
  room_le : room ≤ kBlockSize
  sum_mod : (pos + room) % kBlockSize = 0

theorem roomAt_zero : RoomAt 0 kBlockSize := ⟨Nat.le_refl _, by decide⟩

/-- A writer opened at a position is in step with it. -/
theorem RoomAt.aligned {pos room : Nat} (h : RoomAt pos room) :
    Aligned (pos % kBlockSize) room := by
  refine ⟨Nat.le_of_lt (Nat.mod_lt _ (by decide)), h.room_le, ?_⟩
  rw [Nat.mod_add_mod]
  exact h.sum_mod

theorem RoomAt.after {pos room room' : Nat} {bytes : Slice} {frames : List (Nat × Slice)}
    (h : RoomAt pos room) (hlaid : Laid format room bytes frames room') :
    RoomAt (pos + bytes.length) room' := by
  obtain ⟨hle, hcount⟩ := hlaid.room_mod h.room_le
  have hcount' : (room' + bytes.length) % kBlockSize = room % kBlockSize := hcount
  refine ⟨hle, ?_⟩
  rw [Nat.add_assoc, Nat.add_comm bytes.length, Nat.add_mod, hcount', ← Nat.add_mod]
  exact h.sum_mod

/-- Every position has its room. -/
theorem exists_roomAt (pos : Nat) : ∃ room, RoomAt pos room := by
  refine ⟨kBlockSize - pos % kBlockSize, Nat.sub_le _ _, ?_⟩
  simp only [kBlockSize]
  omega

/-- **Reading records cut anywhere** gives the records that end before the cut,
    without a report. -/
theorem encodeAll_scan_take (records : List Slice) :
    ∀ {pos room : Nat}, RoomAt pos room → ∀ n, ∃ es,
      Scan format room ((encodeAll pos records).take n) es
        ∧ assemble [] false es = (within (pos + n) (endsOf pos records), []) := by
  induction records with
  | nil =>
    intro pos room _ n
    refine ⟨[], ?_, rfl⟩
    rw [encodeAll, List.take_nil]
    exact scan_nil room
  | cons record rest ih =>
    intro pos room hroom n
    obtain ⟨b', room', hlaid, hfrags, -, -, -⟩ := addRecord_laid hroom.aligned record
    have hnext := ih (hroom.after hlaid)
    have hle := endsOf_bounds rest (pos + (encodeRecord (pos % kBlockSize) record).length)
    rw [encodeAll, endsOf]
    generalize encodeRecord (pos % kBlockSize) record = bytes at *
    generalize coded (recordFragments (pos % kBlockSize) record) = frames at *
    by_cases hn : n < bytes.length
    · -- the cut is in this record: neither it nor a later one is whole
      obtain ⟨fs₁, fs₂, hfs, hne, hcut⟩ := hlaid.scan_take n
      refine ⟨fs₁.map .frame, ?_, ?_⟩
      · rw [List.take_append_of_le_length (by omega)]
        exact hcut
      · rw [hfrags.assemble_cut hfs (hne hn) not_unfinished, within, List.filter_eq_nil_iff.mpr]
        · rfl
        · intro p hp
          have hend : pos + bytes.length ≤ p.2 := by
            rcases List.mem_cons.mp hp with rfl | hp
            · exact Nat.le_refl _
            · exact (hle p hp).1
          rw [decide_eq_true_eq]
          omega
    · obtain ⟨es, hes, hassemble⟩ := hnext (n - bytes.length)
      obtain ⟨reason, hall⟩ := hfrags.assemble_all [] false
      refine ⟨frames.map .frame ++ es, ?_, ?_⟩
      · rw [List.take_append, List.take_of_length_le (by omega)]
        exact hlaid.scan hes
      · have hcount : pos + bytes.length + (n - bytes.length) = pos + n := by omega
        have hin : pos + bytes.length ≤ pos + n := by omega
        rw [hall, hassemble, hcount, within, within, List.filter_cons_of_pos
          (by rw [decide_eq_true_eq]; exact hin)]
        rfl

/-- **Reading whole records** gives them all, without a report. -/
theorem encodeAll_scan (records : List Slice) :
    ∃ es, Scan format kBlockSize (encodeAll 0 records) es
      ∧ assemble [] false es = (records, []) := by
  obtain ⟨es, hscan, hassemble⟩ :=
    encodeAll_scan_take records roomAt_zero (encodeAll 0 records).length
  rw [List.take_length] at hscan
  refine ⟨es, hscan, ?_⟩
  rw [hassemble, within, List.filter_eq_self.mpr, endsOf_fst]
  intro p hp
  have hle := (endsOf_bounds records 0 p hp).2
  rw [decide_eq_true_eq]
  omega

/-- Only a log without records is empty. -/
theorem encodeAll_eq_nil {records : List Slice} (h : encodeAll 0 records = []) : records = [] := by
  obtain ⟨es, hscan, hassemble⟩ := encodeAll_scan records
  rw [h] at hscan
  rw [hscan.unique (scan_nil _)] at hassemble
  exact (congrArg Prod.fst hassemble).symm

/-- A writer in step with its file appends the encoding of a record, and stays in
    step. -/
theorem addRecord_inStep {b : Nat} {file : Slice} (hb : b ≤ kBlockSize)
    (hmod : b % kBlockSize = file.length % kBlockSize) (record : Slice) :
    ∃ b', b' ≤ kBlockSize
      ∧ b' % kBlockSize
        = (file ++ encodeRecord (file.length % kBlockSize) record).length % kBlockSize
      ∧ (⟨b⟩ : Writer).addRecord ⟨file, []⟩ record
        = (.ok, ⟨b'⟩, ⟨file ++ encodeRecord (file.length % kBlockSize) record, []⟩) := by
  obtain ⟨room, hroom⟩ := exists_roomAt file.length
  have haligned : Aligned b room := by
    refine ⟨hb, hroom.room_le, ?_⟩
    rw [Nat.add_mod, hmod, ← Nat.add_mod]
    exact hroom.sum_mod
  obtain ⟨b', room', -, -, haligned', hoffset, hok⟩ := addRecord_laid haligned record
  have hbytes : encodeRecord b record = encodeRecord (file.length % kBlockSize) record := by
    rw [(encodeRecord_mod hb record).1, hmod]
  rw [hbytes] at hoffset hok
  refine ⟨b', haligned'.offset_le, ?_, hok file⟩
  rw [hoffset, List.length_append, Nat.add_mod, hmod, ← Nat.add_mod]

/-- The writer is in step with a file of these records. -/
def Writer.After (w : Writer) (records : List Slice) : Prop :=
  w.blockOffset ≤ kBlockSize
    ∧ w.blockOffset % kBlockSize = (encodeAll 0 records).length % kBlockSize

theorem after_new : Writer.new.After [] := ⟨Nat.zero_le _, rfl⟩

theorem after_resume (records : List Slice) :
    (Writer.resume (encodeAll 0 records).length).After records :=
  ⟨Nat.le_of_lt (Nat.mod_lt _ (by decide)), Nat.mod_mod _ _⟩

/-- One more record in a file of records. -/
theorem Writer.After.addRecord {w : Writer} {records : List Slice} (h : w.After records)
    (record : Slice) :
    ∃ w' : Writer, w'.After (records ++ [record])
      ∧ w.addRecord ⟨encodeAll 0 records, []⟩ record
        = (.ok, w', ⟨encodeAll 0 (records ++ [record]), []⟩) := by
  have hsnoc : encodeAll 0 (records ++ [record]) = encodeAll 0 records
      ++ encodeRecord ((encodeAll 0 records).length % kBlockSize) record := by
    rw [encodeAll_append, Nat.zero_add, encodeAll, encodeAll, List.append_nil]
  obtain ⟨b', hb', hmod', hok⟩ := addRecord_inStep h.1 h.2 record
  rw [← hsnoc] at hmod' hok
  exact ⟨⟨b'⟩, ⟨hb', hmod'⟩, hok⟩

/-- The records of a session are appended to the file. -/
theorem addRecords_eq (records : List Slice) :
    ∀ {b : Nat} {file : Slice}, b ≤ kBlockSize → b % kBlockSize = file.length % kBlockSize →
      ((⟨b⟩ : Writer).addRecords ⟨file, []⟩ records).2
          = ⟨file ++ encodeAll file.length records, []⟩
        ∧ recordEnds ⟨b⟩ ⟨file, []⟩ records = endsOf file.length records := by
  induction records with
  | nil =>
    intro b file _ _
    rw [encodeAll, List.append_nil]
    exact ⟨rfl, rfl⟩
  | cons record rest ih =>
    intro b file hb hmod
    obtain ⟨b', hb', hmod', hok⟩ := addRecord_inStep hb hmod record
    obtain ⟨hfile, hends⟩ := ih hb' hmod'
    rw [List.length_append] at hfile hends
    refine ⟨?_, ?_⟩
    · rw [Writer.addRecords, hok, hfile, encodeAll, List.append_assoc]
    · rw [recordEnds, hok, hends, endsOf, List.length_append]

/-- **A session appends the encoding of its records.** -/
theorem session_eq (file : Slice) (records : List Slice) :
    session file records = file ++ encodeAll file.length records := by
  have hlt : file.length % kBlockSize < kBlockSize := Nat.mod_lt _ (by decide)
  rw [session, Writer.resume, (addRecords_eq records (Nat.le_of_lt hlt) (Nat.mod_mod _ _)).1]

/-- Sessions make no difference to the file. -/
theorem sessions_eq (ss : List (List Slice)) :
    ∀ file : Slice, sessions file ss = file ++ encodeAll file.length ss.flatten
      ∧ sessionEnds file ss = endsOf file.length ss.flatten := by
  induction ss with
  | nil =>
    intro file
    exact ⟨(List.append_nil file).symm, rfl⟩
  | cons records rest ih =>
    intro file
    have hlt : file.length % kBlockSize < kBlockSize := Nat.mod_lt _ (by decide)
    obtain ⟨hfile, hends⟩ := ih (session file records)
    have hrecord := (addRecords_eq records (Nat.le_of_lt hlt)
      (Nat.mod_mod file.length kBlockSize)).2
    rw [session_eq, List.length_append] at hfile hends
    refine ⟨?_, ?_⟩
    · rw [sessions, session_eq, hfile, List.flatten_cons, encodeAll_append, List.append_assoc]
    · rw [sessionEnds, session_eq, hends, List.flatten_cons, endsOf_append, Writer.resume,
        hrecord]

/-- **The log round trip.**  Records written in any number of sessions are read
    back in order and without a report; a file cut after `n` bytes gives exactly
    the records that end within them, again without a report.  Reading ends by
    itself: any number of calls above the length of the file gives this. -/
theorem logRecords_sessions (ss : List (List Slice)) (calls : Nat)
    (hcalls : (sessions [] ss).length < calls) :
    logRecords (sessions [] ss) calls = (ss.flatten, [])
      ∧ ∀ n, logRecords ((sessions [] ss).take n) calls = (within n (sessionEnds [] ss), []) := by
  obtain ⟨hfile, hends⟩ := sessions_eq ss []
  rw [List.nil_append, List.length_nil] at hfile
  rw [List.length_nil] at hends
  have hcut : ∀ n, logRecords ((sessions [] ss).take n) calls
      = (within n (sessionEnds [] ss), []) := by
    intro n
    obtain ⟨es, hes, hassemble⟩ := encodeAll_scan_take ss.flatten roomAt_zero n
    have hlen : ((sessions [] ss).take n).length < calls := by
      rw [List.length_take]
      omega
    rw [← hfile] at hes
    rw [logRecords_eq hes hlen, hassemble, hends, Nat.zero_add]
  refine ⟨?_, hcut⟩
  obtain ⟨es, hes, hassemble⟩ := encodeAll_scan ss.flatten
  rw [← hfile] at hes
  rw [logRecords_eq hes hcalls, hassemble]

/-- Two sessions of three and one records, and every cut of their file. -/
theorem logRecords_sessions_sample :
    logRecords (sessions [] [[[1, 2, 3], [], [4]], [[5, 6]]]) 100
        = ([[1, 2, 3], [], [4], [5, 6]], [])
      ∧ ∀ n, logRecords ((sessions [] [[[1, 2, 3], [], [4]], [[5, 6]]]).take n) 100
        = (within n (sessionEnds [] [[[1, 2, 3], [], [4]], [[5, 6]]]), []) :=
  logRecords_sessions [[[1, 2, 3], [], [4]], [[5, 6]]] 100 (by decide +kernel)

end LdbLog
