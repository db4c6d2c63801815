import LevelDB.LogLayout
import LevelDB.Recovery

/-! # Writes after a failed append

    `DBImpl::Write` on one log file whose `Append` and `Flush` calls may fail
    after any part of their data (`db/log_writer.cc`, `db/db_impl.cc`).  A failed
    call leaves a part of its record behind, and `block_offset_` is advanced as if
    all of it were there; no background error is recorded, so later writes go on.

      * `Safe` — when a write may follow what is in the file: the log reader will
        be at the end of a physical record there, and every fragment of the new
        record falls into one block of the file.
      * `acked_writes_restored` — in a run of safe writes, recovery restores every
        acknowledged batch from every state.
      * `torn_header_loses_write` — a header cut off after three bytes costs the
        next write. -/

namespace LdbLogFailure

open LdbFormat LdbEnv LdbTable LdbLog LdbBatch LdbRecovery Blocked

/-- A call of `Write`: the operations of its batch, and the outcomes of the calls
    on the log file. -/
structure Call where
  ops : List Op
  outcomes : List Outcome
  fits : ∀ op ∈ ops, FitsOp op
  count_lt : ops.length < 2 ^ 32

/-- The log file with its writer, `LastSequence`, and the batches whose `Write`
    returned OK. -/
structure LogState where
  writer : Writer
  contents : Slice
  lastSequence : Nat
  acked : List Slice

/-- A new log file. -/
def LogState.new (lastSequence : Nat) : LogState := ⟨Writer.new, [], lastSequence, []⟩

/-- The batch as `Write` hands it to `AddRecord`. -/
def LogState.record (s : LogState) (c : Call) : Slice := batchRep (s.lastSequence + 1) c.ops

/-- `AddRecord` in a call of `Write`. -/
def LogState.added (s : LogState) (c : Call) : Status × Writer × WritableFile :=
  s.writer.addRecord ⟨s.contents, c.outcomes⟩ (s.record c)

/-- `Write`: the batch is acknowledged if `AddRecord` succeeds (`InsertInto` does
    on a batch made of operations); `LastSequence` advances in any case. -/
def LogState.write (s : LogState) (c : Call) : LogState where
  writer := (s.added c).2.1
  contents := (s.added c).2.2.contents
  lastSequence := s.lastSequence + c.ops.length
  acked := if (s.added c).1 = .ok then s.acked ++ [s.record c] else s.acked

/-- Several calls of `Write`. -/
def LogState.writes (s : LogState) (cs : List Call) : LogState := cs.foldl LogState.write s

/-! ## When a write is safe -/

/-- The zeros that get into the file when the trailer of a block is filled. -/
def trailerWritten (b : Nat) : List Outcome → Nat
  | .fail n _ :: _ => min n (padding b)
  | _ => padding b

/-- The outcomes of the calls whose status `AddRecord` looks at: not that for the
    trailer. -/
def checkedOutcomes (b : Nat) (outcomes : List Outcome) : List Outcome :=
  if 0 < padding b then outcomes.drop 1 else outcomes

/-- All calls on the file succeed, that for the trailer apart: header, payload and
    flush for each fragment. -/
def Succeeds (b : Nat) (record : Slice) (outcomes : List Outcome) : Prop :=
  ∀ o ∈ (checkedOutcomes b outcomes).take (3 * (recordFragments b record).length), o = .ok

/-- The offset after the trailer is filled. -/
def startOffset (b : Nat) : Nat := if kBlockSize - b < kHeaderSize then 0 else b

/-- The room in the block of the file after `k` zeros: they complete its trailer,
    or there are none. -/
def roomAfterTrailer (room k : Nat) : Option Nat :=
  if k = 0 then some room
  else if k = room then some kBlockSize
  else none

/-- With `room` bytes left in its block, the file has each fragment of the record
    in one block. -/
def Lands (b room : Nat) (record : Slice) (outcomes : List Outcome) : Prop :=
  ∃ room', roomAfterTrailer room (trailerWritten b outcomes) = some room'
    ∧ landsLoop (record.length + 2) record.length (startOffset b) room' = true

/-- After the file the log reader is at the end of a physical record, or of a
    block, with `room` bytes left in the block.  With `paranoid_checks` it must
    not have collected a part of a record there, for which the next one would be
    reported. -/
def ReaderAt (o : RecoveryOptions) (contents : Slice) (room : Nat) : Prop :=
  ∃ es : List LogEvent, Resumes format kBlockSize contents es room ∧ Unended es
    ∧ (o.paranoidChecks = true →
        ¬ ((pending [] false es).2 = true ∧ (pending [] false es).1 ≠ []))

/-- A write is safe.  Without `paranoid_checks` a write that fails always is. -/
def Safe (o : RecoveryOptions) (s : LogState) (c : Call) : Prop :=
  (o.paranoidChecks = true ∨ Succeeds s.writer.blockOffset (s.record c) c.outcomes) →
    ∃ room, ReaderAt o s.contents room
      ∧ Lands s.writer.blockOffset room (s.record c) c.outcomes

/-- Every write of a run is safe in the state it is made in. -/
def SafeRun (o : RecoveryOptions) : LogState → List Call → Prop
  | _, [] => True
  | s, c :: cs => Safe o s c ∧ SafeRun o (s.write c) cs

/-! ## One call of `AddRecord` -/

/-- A fragment that is written well takes three good outcomes. -/
theorem emitPhysicalRecord_outcomes {w : Writer} {dest : WritableFile} {t : RecordType}
    {data : Slice} (h : (w.emitPhysicalRecord dest t data).1 = .ok) :
    (∀ o ∈ dest.outcomes.take 3, o = .ok)
      ∧ (w.emitPhysicalRecord dest t data).2.2.outcomes = dest.outcomes.drop 3 := by
  have hcalls : (ifOk (ifOk (dest.append (header t data)) (·.append data)) (·.flush)).1 = .ok := h
  show _ ∧ (ifOk (ifOk (dest.append (header t data)) (·.append data)) (·.flush)).2.outcomes = _
  obtain ⟨h2, heq2⟩ := ifOk_ok hcalls
  obtain ⟨h1, heq1⟩ := ifOk_ok h2
  rw [heq2] at hcalls ⊢
  rw [heq1] at h2 hcalls ⊢
  obtain ⟨hgood1, hrest1⟩ := WritableFile.append_outcomes h1
  obtain ⟨hgood2, hrest2⟩ := WritableFile.append_outcomes h2
  obtain ⟨hgood3, hrest3⟩ := WritableFile.flush_outcomes hcalls
  rw [hrest1] at hgood2 hrest2
  rw [hrest2, List.drop_drop] at hgood3 hrest3
  refine ⟨?_, by rw [hrest3, List.drop_drop]⟩
  intro o ho
  rw [show 3 = 1 + (1 + 1) from rfl, List.take_add, List.mem_append, List.take_add,
    List.mem_append, List.drop_drop] at ho
  rcases ho with ho | ho | ho
  · exact hgood1 o ho
  · exact hgood2 o ho
  · exact hgood3 o ho

/-- A record that is written well takes three good outcomes for each fragment. -/
theorem addRecordLoop_outcomes (n : Nat) :
    ∀ (begin_ : Bool) (left : Slice) (b : Nat) (dest : WritableFile),
      (b = kBlockSize ∨ b + kHeaderSize ≤ kBlockSize) →
      (Writer.addRecordLoop n begin_ left ⟨b⟩ dest).1 = .ok →
      ∀ o ∈ dest.outcomes.take (3 * (fragmentsOf n begin_ left b).length), o = .ok := by
  have hsize : kHeaderSize < kBlockSize := format.header_lt
  induction n with
  | zero => nofun
  | succ n ih =>
    intro begin_ left b dest hb hok
    obtain ⟨b₀, hb₀⟩ : ∃ b₀, (if b = kBlockSize then 0 else b) = b₀ := ⟨_, rfl⟩
    have hhead : b₀ + kHeaderSize ≤ kBlockSize := by
      rw [← hb₀]
      split_ifs <;> omega
    rw [fragmentsOf]
    simp only [hb₀]
    by_cases hfit : left.length ≤ kBlockSize - b₀ - kHeaderSize
    · rw [if_pos hfit]
      rw [addRecordLoop_last hb hb₀ hfit] at hok
      exact (emitPhysicalRecord_outcomes hok).1
    · rw [addRecordLoop_more hb hb₀ (show _ + (kBlockSize - b₀ - kHeaderSize) = _ by omega)
        (by omega)] at hok
      split_ifs at hok with hs
      · obtain ⟨hgood, hrest⟩ := emitPhysicalRecord_outcomes hs
        have hlater := ih false _ kBlockSize _ (Or.inl rfl) hok
        rw [hrest] at hlater
        intro o ho
        rw [if_neg hfit, List.length_cons, Nat.mul_succ, Nat.add_comm, List.take_add,
          List.mem_append] at ho
        rcases ho with ho | ho
        · exact hgood o ho
        · exact hlater o ho
      · exact absurd hok hs

/-- `AddRecord` fills the trailer of a block first, and goes on whatever became of
    it. -/
theorem addRecord_eq (b : Nat) (c record : Slice) (outcomes : List Outcome) :
    (⟨b⟩ : Writer).addRecord ⟨c, outcomes⟩ record
      = Writer.addRecordLoop (record.length + 2) true record ⟨startOffset b⟩
          ⟨c ++ List.replicate (trailerWritten b outcomes) 0, checkedOutcomes b outcomes⟩ := by
  rw [Writer.addRecord, startOffset, checkedOutcomes]
  by_cases hlt : kBlockSize - b < kHeaderSize
  · have hpad : padding b = kBlockSize - b := if_pos hlt
    rw [if_pos hlt]
    by_cases hpos : 0 < kBlockSize - b
    · rw [addRecordLoop_pad hpos hlt, if_pos (by rw [hpad]; exact hpos)]
      congr 1
      rcases outcomes with _ | ⟨_ | ⟨n, msg⟩, rest⟩
      · rw [show trailerWritten b [] = kBlockSize - b from hpad]
        rfl
      · rw [show trailerWritten b (.ok :: rest) = kBlockSize - b from hpad]
        rfl
      · rw [trailerWritten, hpad, ← List.take_replicate]
        rfl
    · -- the block is full
      have hzero : kBlockSize - b = 0 := by omega
      have hnone : trailerWritten b outcomes = 0 := by
        rw [hzero] at hpad
        rcases outcomes with _ | ⟨_ | ⟨n, msg⟩, rest⟩ <;> simp [trailerWritten, hpad]
      have hswitch : ∀ d, (⟨b⟩ : Writer).switchBlock d = (⟨0⟩ : Writer).switchBlock d := by
        intro d
        rw [switchBlock_zero]
        simp only [Writer.switchBlock, hzero]
        rw [if_pos (show 0 < kHeaderSize from format.header_pos), if_neg (Nat.lt_irrefl 0)]
      rw [if_neg (by rw [hpad]; exact hpos), hnone, List.replicate_zero, List.append_nil,
        Writer.addRecordLoop, Writer.addRecordLoop, hswitch]
  · have hpad : padding b = 0 := if_neg hlt
    have hnone : trailerWritten b outcomes = 0 := by
      rcases outcomes with _ | ⟨_ | ⟨n, msg⟩, rest⟩ <;> simp [trailerWritten, hpad]
    rw [if_neg hlt, if_neg (by rw [hpad]; exact Nat.lt_irrefl 0), hnone, List.replicate_zero,
      List.append_nil]

theorem startOffset_fits (b : Nat) :
    startOffset b = kBlockSize ∨ startOffset b + kHeaderSize ≤ kBlockSize := by
  have hsize : kHeaderSize < kBlockSize := format.header_lt
  have hpos : 0 < kHeaderSize := format.header_pos
  rw [startOffset]
  split_ifs <;> omega

variable {record : Slice} {es : List LogEvent} {o : RecoveryOptions}

/-- `AddRecord` succeeds only if the calls it looks at do. -/
theorem succeeds_of_ok {b : Nat} {c : Slice} {outcomes : List Outcome}
    (h : ((⟨b⟩ : Writer).addRecord ⟨c, outcomes⟩ record).1 = .ok) : Succeeds b record outcomes := by
  rw [addRecord_eq] at h
  exact addRecordLoop_outcomes _ true record _ _ (startOffset_fits b) h

/-! ## What a safe call leaves in the file -/

theorem fragments_unended {begin_ : Bool} {data : Slice} {fs : List (Nat × Slice)}
    (h : Fragments begin_ data fs) : Unended (fs.map Event.frame) := by
  have htype : ∀ begin_ end_ : Bool, (fragmentType begin_ end_).code ≠ kEof := by decide
  induction h with
  | stop begin_ data =>
    intro data' hmem
    simp only [List.map_cons, List.map_nil, List.mem_singleton, Event.frame.injEq,
      Prod.mk.injEq] at hmem
    exact htype begin_ true hmem.1.symm
  | @more begin_ p data fs _ ih =>
    intro data' hmem
    simp only [List.map_cons, List.mem_cons, Event.frame.injEq, Prod.mk.injEq] at hmem
    rcases hmem with hmem | hmem
    · exact htype begin_ false hmem.1.symm
    · exact ih data' hmem

theorem unended_append {es' : List LogEvent} (h : Unended es) (h' : Unended es') :
    Unended (es ++ es') := by
  intro data hmem
  rcases List.mem_append.mp hmem with hmem | hmem
  · exact h data hmem
  · exact h' data hmem

/-- Zeros that complete a trailer lead to the next block. -/
theorem resumes_trailer {b room room' : Nat} {outcomes : List Outcome}
    (h : roomAfterTrailer room (trailerWritten b outcomes) = some room') :
    Resumes format room (List.replicate (trailerWritten b outcomes) 0) [] room' := by
  rw [roomAfterTrailer] at h
  split_ifs at h with h0 hroom
  · cases h
    rw [h0]
    exact leads_nil room
  · cases h
    have hpad : padding b < kHeaderSize := by
      have hpos : 0 < kHeaderSize := format.header_pos
      rw [padding]
      split_ifs <;> omega
    have hle : trailerWritten b outcomes ≤ padding b := by
      rcases outcomes with _ | ⟨_ | ⟨n, msg⟩, rest⟩
      · exact Nat.le_refl _
      · exact Nat.le_refl _
      · exact Nat.min_le_right _ _
    have hlt : room < kHeaderSize := by omega
    exact leads_pad (by rw [List.length_replicate, hroom]) hlt

/-- **A call on a file where the record lands**: the reader meets a first part of
    its fragments behind what it met before, and after a success all of them. -/
theorem addRecord_lands {b room : Nat} {c : Slice} {outcomes : List Outcome}
    (hres : Resumes format kBlockSize c es room) (hlands : Lands b room record outcomes) :
    ∃ (fs fs₁ fs₂ : List (Nat × Slice)) (room' : Nat), Fragments true record fs ∧ fs = fs₁ ++ fs₂
      ∧ Scan format kBlockSize ((⟨b⟩ : Writer).addRecord ⟨c, outcomes⟩ record).2.2.contents
          (es ++ fs₁.map .frame)
      ∧ (((⟨b⟩ : Writer).addRecord ⟨c, outcomes⟩ record).1 = .ok →
          Resumes format kBlockSize ((⟨b⟩ : Writer).addRecord ⟨c, outcomes⟩ record).2.2.contents
            (es ++ fs.map .frame) room') := by
  obtain ⟨room₀, hroom₀, hloop⟩ := hlands
  obtain ⟨b', hlays⟩ := addRecordLoop_lays (record.length + 2) true record (startOffset b)
    (startOffset_fits b) (by split_ifs <;> omega)
  have hlaid := (fragmentsOf_fits _ true record _ room₀ (startOffset_fits b) hloop).laid
  obtain ⟨bytes, hbytes⟩ : ∃ bytes, onDisk (fragmentsOf (record.length + 2) true record
    (startOffset b)) = bytes := ⟨_, rfl⟩
  obtain ⟨fs, hfs⟩ : ∃ fs, coded (fragmentsOf (record.length + 2) true record (startOffset b)) = fs :=
    ⟨_, rfl⟩
  rw [hbytes, hfs] at hlays hlaid
  generalize roomAfter room₀ _ = room' at hlaid
  -- up to the place where the fragments begin
  have hstart := hres.trans (resumes_trailer hroom₀)
  rw [List.append_nil] at hstart
  obtain ⟨k, hcontents, hok⟩ := hlays.part
    ⟨c ++ List.replicate (trailerWritten b outcomes) 0, checkedOutcomes b outcomes⟩
  rw [addRecord_eq, hcontents]
  obtain ⟨fs₁, fs₂, hsplit, -, hscan⟩ := hlaid.scan_take k
  refine ⟨fs, fs₁, fs₂, room', hlays.frags, hsplit, hstart _ _ hscan, ?_⟩
  intro h
  rw [List.take_of_length_le (hok h).1]
  exact hstart.trans hlaid.leads.resumes

/-- Some of the fragments of a record, met when no part of another was collected:
    nothing is reported, and nothing is returned but the record. -/
theorem assemble_part {fs fs₁ fs₂ : List (Nat × Slice)} (h : Fragments true record fs)
    (hfs : fs = fs₁ ++ fs₂) {scratch : Slice} {frag : Bool} (hidle : ¬ (frag = true ∧ scratch ≠ [])) :
    (assemble scratch frag (fs₁.map .frame)).2 = []
      ∧ ∀ x ∈ (assemble scratch frag (fs₁.map .frame)).1, x = record := by
  have hnone : ∀ reason, unfinished scratch frag reason = [] := fun reason => if_neg hidle
  by_cases hne : fs₂ = []
  · rw [hne, List.append_nil] at hfs
    obtain ⟨reason, hall⟩ := h.assemble_all scratch frag
    have hall' := hall []
    rw [List.append_nil, hfs] at hall'
    rw [hall', hnone]
    exact ⟨rfl, fun x hx => List.mem_singleton.mp hx⟩
  · rw [h.assemble_cut hfs hne hidle]
    exact ⟨rfl, List.forall_mem_nil _⟩

/-! ## Runs -/

/-- A batch that some call of `Write` logs. -/
def IsBatch (record : Slice) : Prop :=
  ∃ (seq : Nat) (c : Call), record = batchRep seq c.ops

theorem IsBatch.accepted (h : IsBatch record) :
    kHeader ≤ record.length ∧ (iterate record).2 = .ok := by
  obtain ⟨seq, c, rfl⟩ := h
  refine ⟨?_, ?_⟩
  · rw [batchRep_length]
    omega
  · rw [iterate_batchRep seq c.fits]

/-- **What a run of safe writes keeps**: a first part of the file from which
    reading resumes holds every acknowledged batch; with `paranoid_checks` the
    whole file has nothing but batches and gives no report. -/
structure Kept (o : RecoveryOptions) (s : LogState) : Prop where
  batches : ∀ record ∈ s.acked, IsBatch record
  held : ∃ (pre tail : Slice) (es : List LogEvent) (room : Nat), s.contents = pre ++ tail
    ∧ Resumes format kBlockSize pre es room ∧ Unended es
    ∧ ∀ record ∈ s.acked, record ∈ (assemble [] false es).1
  strict : o.paranoidChecks = true → ∃ es : List LogEvent, Scan format kBlockSize s.contents es
    ∧ (assemble [] false es).2 = [] ∧ ∀ record ∈ (assemble [] false es).1, IsBatch record

theorem kept_new (o : RecoveryOptions) (lastSequence : Nat) :
    Kept o (LogState.new lastSequence) where
  batches _ h := absurd h List.not_mem_nil
  held := ⟨[], [], [], kBlockSize, rfl, leads_nil kBlockSize, nofun,
    nofun⟩
  strict _ := ⟨[], scan_nil _, rfl, nofun⟩

/-- The loop of `AddRecord` only appends. -/
theorem addRecordLoop_appends (n : Nat) :
    ∀ (begin_ : Bool) (left : Slice) (w : Writer) (dest : WritableFile),
      ∃ tail, (Writer.addRecordLoop n begin_ left w dest).2.2.contents = dest.contents ++ tail := by
  induction n with
  | zero =>
    intro begin_ left w dest
    exact ⟨[], (List.append_nil _).symm⟩
  | succ n ih =>
    intro begin_ left w dest
    have hswitch : ∃ tail, (w.switchBlock dest).2.contents = dest.contents ++ tail := by
      rw [Writer.switchBlock]
      split_ifs
      · obtain ⟨k, hk, -⟩ := dest.append_spec (List.replicate (kBlockSize - w.blockOffset) 0)
        exact ⟨_, hk⟩
      · exact ⟨[], (List.append_nil _).symm⟩
      · exact ⟨[], (List.append_nil _).symm⟩
    obtain ⟨tail₁, h₁⟩ := hswitch
    rw [Writer.addRecordLoop]
    simp only
    obtain ⟨-, k, h₂, -⟩ := emitPhysicalRecord_spec (w.switchBlock dest).1 (w.switchBlock dest).2
      (fragmentType begin_ (decide (left.length = (left.take (kBlockSize
        - (w.switchBlock dest).1.blockOffset - kHeaderSize)).length)))
      (left.take (kBlockSize - (w.switchBlock dest).1.blockOffset - kHeaderSize))
    split_ifs
    · obtain ⟨tail₃, h₃⟩ := ih false _ _ _
      rw [h₃, h₂, h₁, List.append_assoc, List.append_assoc]
      exact ⟨_, rfl⟩
    · rw [h₂, h₁, List.append_assoc]
      exact ⟨_, rfl⟩

/-- The acknowledged batches of the first part of a file are found in all of it. -/
theorem mem_assemble_append (h : Unended es) (es' : List LogEvent)
    (hmem : record ∈ (assemble [] false es).1) : record ∈ (assemble [] false (es ++ es')).1 := by
  rw [assemble_append es [] false es' h]
  exact List.mem_append_left _ hmem

/-- A record whose fragments come last is found. -/
theorem mem_assemble_last (h : Unended es) {fs : List (Nat × Slice)}
    (hfs : Fragments true record fs) : record ∈ (assemble [] false (es ++ fs.map .frame)).1 := by
  obtain ⟨reason, hall⟩ := hfs.assemble_all (pending [] false es).1 (pending [] false es).2
  have hlast := hall []
  rw [List.append_nil] at hlast
  rw [assemble_append es [] false _ h, hlast]
  exact List.mem_append_right _ List.mem_cons_self

variable {s : LogState}

/-- The first part with the acknowledged batches, after a call. -/
theorem held_write {c : Call} (hk : Kept o s) (hsafe : Safe o s c) :
    ∃ (pre tail : Slice) (es : List LogEvent) (room : Nat), (s.write c).contents = pre ++ tail
      ∧ Resumes format kBlockSize pre es room ∧ Unended es
      ∧ ∀ record ∈ (s.write c).acked, record ∈ (assemble [] false es).1 := by
  obtain ⟨pre, tail, es, room, hcontents, hres, hend, hheld⟩ := hk.held
  by_cases hok : (s.added c).1 = .ok
  · -- all of the file, with the new record at its end
    obtain ⟨room₂, ⟨es₂, hres₂, hend₂, -⟩, hlands⟩ := hsafe (Or.inr (succeeds_of_ok hok))
    obtain ⟨fs, -, -, room', hfs, -, -, hafter⟩ := addRecord_lands hres₂ hlands
    refine ⟨(s.write c).contents, [], es₂ ++ fs.map Event.frame, room', (List.append_nil _).symm,
      hafter hok, unended_append hend₂ (fragments_unended hfs), ?_⟩
    intro record hmem
    have hacked : (s.write c).acked = s.acked ++ [s.record c] := if_pos hok
    rw [hacked, List.mem_append, List.mem_singleton] at hmem
    rcases hmem with hmem | rfl
    · rw [hcontents] at hres₂
      obtain ⟨es₃, hes₃⟩ := hres.extends (fun b a n h => by
        have := (checkHeader_frame h).1
        have hpos : 0 < kHeaderSize := format.header_pos
        omega) hres₂
      rw [hes₃, List.append_assoc]
      exact mem_assemble_append hend _ (hheld record hmem)
    · exact mem_assemble_last hend₂ hfs
  · -- whatever was appended, the first part is as it was
    obtain ⟨tail', htail'⟩ := addRecordLoop_appends ((s.record c).length + 2) true (s.record c)
      s.writer ⟨s.contents, c.outcomes⟩
    refine ⟨pre, tail ++ tail', es, room, ?_, hres, hend, ?_⟩
    · rw [← List.append_assoc, ← hcontents]
      exact htail'
    · have hacked : (s.write c).acked = s.acked := if_neg hok
      rw [hacked]
      exact hheld

/-- The whole file after a call, for recovery with `paranoid_checks`. -/
theorem strict_write {c : Call} (hk : Kept o s) (hsafe : Safe o s c) (hp : o.paranoidChecks = true) :
    ∃ es : List LogEvent, Scan format kBlockSize (s.write c).contents es
      ∧ (assemble [] false es).2 = [] ∧ ∀ record ∈ (assemble [] false es).1, IsBatch record := by
  obtain ⟨es, hscan, hquiet, hall⟩ := hk.strict hp
  obtain ⟨room₂, ⟨es₂, hres₂, hend₂, hidle⟩, hlands⟩ := hsafe (Or.inl hp)
  obtain ⟨fs, fs₁, fs₂, room', hfs, hsplit, hscan', -⟩ := addRecord_lands hres₂ hlands
  obtain rfl : es = es₂ := hscan.unique hres₂.scan
  obtain ⟨hnone, honly⟩ := assemble_part hfs hsplit (hidle hp)
  refine ⟨es ++ fs₁.map Event.frame, hscan', ?_, ?_⟩
  · rw [assemble_append es [] false _ hend₂, hquiet, hnone]
    rfl
  · intro record hmem
    rw [assemble_append es [] false _ hend₂, List.mem_append] at hmem
    rcases hmem with hmem | hmem
    · exact hall record hmem
    · rw [honly record hmem]
      exact ⟨_, c, rfl⟩

/-- **One safe write.** -/
theorem kept_write {c : Call} (hk : Kept o s) (hsafe : Safe o s c) : Kept o (s.write c) where
  batches record h := by
    by_cases hok : (s.added c).1 = .ok
    · have hacked : (s.write c).acked = s.acked ++ [s.record c] := if_pos hok
      rw [hacked, List.mem_append, List.mem_singleton] at h
      rcases h with h | rfl
      · exact hk.batches record h
      · exact ⟨_, c, rfl⟩
    · have hacked : (s.write c).acked = s.acked := if_neg hok
      rw [hacked] at h
      exact hk.batches record h
  held := held_write hk hsafe
  strict := strict_write hk hsafe

/-- A run of safe writes. -/
theorem kept_writes (cs : List Call) :
    ∀ {s : LogState}, Kept o s → SafeRun o s cs → Kept o (s.writes cs) := by
  induction cs with
  | nil =>
    intro s hk _
    exact hk
  | cons c cs ih =>
    intro s hk hsafe
    exact ih (kept_write hk hsafe.1) hsafe.2

/-- Recovery of a log that keeps its acknowledged batches. -/
theorem Kept.restored (hk : Kept o s) (lastLog : Bool) (maxSequence : Nat) :
    (recoverLogFile o lastLog maxSequence s.contents).1.status = .ok
      ∧ ∀ record ∈ s.acked, ∀ e ∈ batchEntries record,
          (recoverLogFile o lastLog maxSequence s.contents).1.Holds e := by
  have hsize : ∀ b a n, format.check b = .frame a n → 0 < n := fun b a n h => by
    have := (checkHeader_frame h).1
    have hpos : 0 < kHeaderSize := format.header_pos
    omega
  obtain ⟨pre, tail, es, room, hcontents, hres, hend, hheld⟩ := hk.held
  obtain ⟨es', htail⟩ := exists_scan hsize (tail.length + 1) room tail (Nat.lt_succ_self _)
  have hscan : Scan format kBlockSize s.contents (es ++ es') := by
    rw [hcontents]
    exact hres _ _ htail
  have hstrict : o.paranoidChecks = true → (assemble [] false (es ++ es')).2 = []
      ∧ ∀ record ∈ (assemble [] false (es ++ es')).1, IsBatch record := by
    intro hp
    obtain ⟨es₂, hscan₂, hquiet, hall⟩ := hk.strict hp
    rw [hscan.unique hscan₂]
    exact ⟨hquiet, hall⟩
  obtain ⟨hok, hholds⟩ := recoverLogFile_restores hscan (fun hp => (hstrict hp).1)
    (fun record hmem hp => ((hstrict hp).2 record hmem).accepted) lastLog maxSequence
  refine ⟨hok, fun record hmem e he => (hholds e).mpr ⟨record, ?_, ?_, he⟩⟩
  · exact mem_assemble_append hend es' (hheld record hmem)
  · exact (hk.batches record hmem).accepted.1

/-- **Acknowledged writes survive earlier failures**: from every state of a run of
    safe writes, `RecoverLogFile` succeeds and restores every batch whose `Write`
    returned OK. -/
theorem acked_writes_restored (o : RecoveryOptions) (lastLog : Bool)
    (maxSequence lastSequence : Nat) (cs : List Call)
    (hsafe : SafeRun o (LogState.new lastSequence) cs) :
    (recoverLogFile o lastLog maxSequence ((LogState.new lastSequence).writes cs).contents).1.status
        = .ok
      ∧ ∀ record ∈ ((LogState.new lastSequence).writes cs).acked, ∀ e ∈ batchEntries record,
          (recoverLogFile o lastLog maxSequence
            ((LogState.new lastSequence).writes cs).contents).1.Holds e :=
  (kept_writes cs (kept_new o lastSequence) hsafe).restored lastLog maxSequence

/-- Two writes of one key; of the first one only `written` bytes of the header get
    into the file. -/
def retried (written : Nat) : List Call :=
  [⟨[.put [107] [1]], [.fail written "disk full"], by decide, by decide⟩,
    ⟨[.put [107] [2]], [], by decide, by decide⟩]

/-- Recovery with the default buffer size. -/
def recoveryOptions (paranoidChecks : Bool) : RecoveryOptions :=
  ⟨paranoidChecks, false, 4 * 1024 * 1024, fun m => m.table.length⟩

/-- A failure before the first byte does no harm to the write that follows. -/
theorem acked_writes_restored_retried :
    ((LogState.new 0).writes (retried 0)).acked = [batchRep 2 [.put [107] [2]]]
      ∧ (recoverLogFile (recoveryOptions true) true 0
            ((LogState.new 0).writes (retried 0)).contents).1.status = .ok
      ∧ ∀ record ∈ ((LogState.new 0).writes (retried 0)).acked, ∀ e ∈ batchEntries record,
          (recoverLogFile (recoveryOptions true) true 0
            ((LogState.new 0).writes (retried 0)).contents).1.Holds e := by
  refine ⟨by decide +kernel, acked_writes_restored _ true 0 0 _ ?_⟩
  -- the file is empty before both writes, and their fragments fit into its first block
  have hreader : ReaderAt (recoveryOptions true) [] kBlockSize :=
    ⟨[], leads_nil kBlockSize, nofun, fun _ h => by cases h.1⟩
  refine ⟨fun _ => ⟨kBlockSize, hreader, kBlockSize, by decide, by decide +kernel⟩,
    fun _ => ⟨kBlockSize, ?_, kBlockSize, by decide +kernel, by decide +kernel⟩, trivial⟩
  have hempty : ((LogState.new 0).write ((retried 0).get ⟨0, by decide⟩)).contents = [] := by
    decide +kernel
  show ReaderAt _ ((LogState.new 0).write ((retried 0).get ⟨0, by decide⟩)).contents _
  rw [hempty]
  exact hreader

/-- Three bytes of a header stay in the file: the write that follows is
    acknowledged and not restored. -/
theorem torn_header_loses_write :
    ((LogState.new 0).writes (retried 3)).acked = [batchRep 2 [.put [107] [2]]]
      ∧ ¬ ∀ record ∈ ((LogState.new 0).writes (retried 3)).acked, ∀ e ∈ batchEntries record,
          (recoverLogFile (recoveryOptions false) true 0
            ((LogState.new 0).writes (retried 3)).contents).1.Holds e := by
  decide +kernel

end LdbLogFailure
