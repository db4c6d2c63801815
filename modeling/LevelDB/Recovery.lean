import LevelDB.Invariant
import LevelDB.LogReader
import LevelDB.WriteBatch

/-! # Replaying a log

    `DBImpl::RecoverLogFile` (`db/db_impl.cc`): the records of a log are read back
    as batches and inserted into memtables, which are flushed when they grow too
    large.  No call on a table fails here.

    With `paranoid_checks` the first report of the log reader ends recovery with
    an error; without, reports and malformed batches are passed over. -/

namespace LdbRecovery

open LdbFormat LdbEnv LdbTable LdbLog Blocked

/-- What `RecoverLogFile` reads of `Options`, and the measure of a memtable. -/
structure RecoveryOptions where
  paranoidChecks : Bool
  reuseLogs : Bool
  writeBufferSize : Nat
  approximateMemoryUsage : MemTable → Nat

/-- The local state of `RecoverLogFile`; `flushed` are the memtables handed to
    `WriteLevel0Table`. -/
structure Recovery where
  status : Status
  mem : Option MemTable
  flushed : List MemTable
  maxSequence : Nat

/-- `LogReporter::Corruption`; its status is the one of the caller only with
    `paranoid_checks`. -/
def corruption (o : RecoveryOptions) (status reason : Status) : Status :=
  if o.paranoidChecks = true ∧ status = .ok then reason else status

/-- The calls of `LogReporter::Corruption` that the reader made. -/
def reported (o : RecoveryOptions) (status : Status) (reports : List Report) : Status :=
  reports.foldl (fun s report => corruption o s report.2) status

/-- `DBImpl::MaybeIgnoreError`. -/
def maybeIgnoreError (o : RecoveryOptions) (s : Status) : Status :=
  if s = .ok ∨ o.paranoidChecks = true then s else .ok

/-- The body of the loop for a record that holds a batch header.  `last_seq` is
    computed in 64 bits. -/
def Recovery.insert (o : RecoveryOptions) (s : Recovery) (record : Slice) : Recovery :=
  let (mem, status) := LdbBatch.insertInto record (s.mem.getD MemTable.empty)
  let status := maybeIgnoreError o status
  if status ≠ .ok then { s with status := status, mem := some mem }
  else
    let lastSeq := sub64 (LdbBatch.sequence record + LdbBatch.count record) 1
    if o.writeBufferSize < o.approximateMemoryUsage mem then
      ⟨status, none, s.flushed ++ [mem], max s.maxSequence lastSeq⟩
    else ⟨status, some mem, s.flushed, max s.maxSequence lastSeq⟩

/-- The loop of `RecoverLogFile`, at most `n` times. -/
def recoverLoop (o : RecoveryOptions) : Nat → Reader → Recovery → Recovery
  | 0, _, s => s
  | n + 1, r, s =>
    let (record, r') := r.readRecord
    let s := { s with status := reported o s.status (r'.reports.drop r.reports.length) }
    match record with
    | none => s
    | some record =>
      if s.status ≠ .ok then s
      else if record.length < LdbBatch.kHeader then
        recoverLoop o n r'
          { s with status := corruption o s.status (.corruption "log record too small") }
      else
        let s := s.insert o record
        if s.status ≠ .ok then s else recoverLoop o n r' s

/-- What `RecoverLogFile` does after its loop: the last log may be used further,
    with its memtable as `mem_`; otherwise the memtable is flushed.  The second
    component says whether the log is used further. -/
def Recovery.finish (o : RecoveryOptions) (lastLog : Bool) (s : Recovery) : Recovery × Bool :=
  if s.status = .ok ∧ o.reuseLogs = true ∧ lastLog = true ∧ s.flushed = [] then
    ({ s with mem := some (s.mem.getD MemTable.empty) }, true)
  else
    match s.mem with
    | none => (s, false)
    | some mem =>
      if s.status = .ok then ({ s with mem := none, flushed := s.flushed ++ [mem] }, false)
      else ({ s with mem := none }, false)

/-- `DBImpl::RecoverLogFile` on the bytes of a log; every record takes bytes, so
    the loop ends by itself. -/
def recoverLogFile (o : RecoveryOptions) (lastLog : Bool) (maxSequence : Nat) (file : Slice) :
    Recovery × Bool :=
  (recoverLoop o (file.length + 1) (Reader.new ⟨file, none⟩ true 0)
    ⟨.ok, none, [], maxSequence⟩).finish o lastLog

/-- The entries of operations with consecutive sequence numbers. -/
def opEntries : List Op → Nat → List Entry
  | [], _ => []
  | op :: rest, sequence => op.entry sequence :: opEntries rest (sequence + 1)

/-- The entries `InsertInto` adds for a batch. -/
def batchEntries (record : Slice) : List Entry :=
  opEntries (LdbBatch.iterate record).1 (LdbBatch.sequence record)

/-- An entry is in one of the memtables that came out of recovery. -/
def Recovery.Holds (s : Recovery) (e : Entry) : Prop :=
  ∃ m ∈ s.flushed ++ s.mem.toList, e ∈ m.table

instance (s : Recovery) (e : Entry) : Decidable (s.Holds e) :=
  inferInstanceAs (Decidable (∃ m ∈ s.flushed ++ s.mem.toList, e ∈ m.table))

/-! ## What is restored -/

theorem mem_insertInto (ops : List Op) :
    ∀ (n : Nat) (m : MemTable) (e : Entry),
      e ∈ (insertInto ops n m).table ↔ e ∈ m.table ∨ e ∈ opEntries ops n := by
  induction ops with
  | nil =>
    intro n m e
    simp [insertInto, opEntries]
  | cons op rest ih =>
    intro n m e
    rw [insertInto, ih, LdbInv.mem_add_table, opEntries, List.mem_cons]
    constructor
    · rintro ((h | h) | h)
      · exact Or.inr (Or.inl h)
      · exact Or.inl h
      · exact Or.inr (Or.inr h)
    · rintro (h | h | h)
      · exact Or.inl (Or.inr h)
      · exact Or.inl (Or.inl h)
      · exact Or.inr h

/-- One batch adds exactly its entries, whether its memtable is flushed or not. -/
theorem Recovery.holds_insert (o : RecoveryOptions) (s : Recovery) (record : Slice) (e : Entry) :
    (s.insert o record).Holds e ↔ s.Holds e ∨ e ∈ batchEntries record := by
  have hmem : e ∈ (LdbBatch.insertInto record (s.mem.getD MemTable.empty)).1.table
      ↔ (∃ m ∈ s.mem.toList, e ∈ m.table) ∨ e ∈ batchEntries record := by
    rw [LdbBatch.insertInto, mem_insertInto, batchEntries]
    cases s.mem <;> simp [MemTable.empty]
  have hsplit : ∀ (ms : List MemTable), (∃ m ∈ s.flushed ++ ms, e ∈ m.table)
      ↔ (∃ m ∈ s.flushed, e ∈ m.table) ∨ ∃ m ∈ ms, e ∈ m.table := by
    intro ms
    simp only [List.mem_append, or_and_right, exists_or]
  have hone : ∀ m : MemTable, (∃ m' ∈ [m], e ∈ m'.table) ↔ e ∈ m.table := by
    intro m
    simp
  -- all three ways out of the body keep the flushed memtables and add the new one
  have hall : (∃ m ∈ s.flushed ++ [(LdbBatch.insertInto record (s.mem.getD MemTable.empty)).1],
      e ∈ m.table) ↔ s.Holds e ∨ e ∈ batchEntries record := by
    rw [hsplit, hone, hmem, Recovery.Holds, hsplit, or_assoc]
  rw [← hall, Recovery.insert, Recovery.Holds]
  simp only
  split_ifs
  · rfl
  · simp
  · rfl

theorem Recovery.insert_status (o : RecoveryOptions) (s : Recovery) (record : Slice) :
    (s.insert o record).status = maybeIgnoreError o (LdbBatch.iterate record).2 := by
  rw [Recovery.insert]
  simp only
  split
  · rfl
  · split <;> rfl

/-- Recovery passes over a record or accepts it as a batch. -/
def Acceptable (o : RecoveryOptions) (record : Slice) : Prop :=
  o.paranoidChecks = true → LdbBatch.kHeader ≤ record.length ∧ (LdbBatch.iterate record).2 = .ok

/-- What the loop does with an acceptable record. -/
def consume (o : RecoveryOptions) (s : Recovery) (record : Slice) : Recovery :=
  if record.length < LdbBatch.kHeader then s else s.insert o record

variable {o : RecoveryOptions}

theorem reported_tolerant (h : o.paranoidChecks = false) (s : Status) (reports : List Report) :
    reported o s reports = s := by
  induction reports with
  | nil => rfl
  | cons r rest ih =>
    rw [reported, List.foldl_cons, corruption, if_neg (by rw [h]; exact fun hc => by cases hc.1)]
    exact ih

variable {s : Recovery}

theorem consume_ok {record : Slice} (h : Acceptable o record) (hs : s.status = .ok) :
    (consume o s record).status = .ok := by
  rw [consume]
  split_ifs with hlen
  · exact hs
  · rw [Recovery.insert_status, maybeIgnoreError]
    cases hp : o.paranoidChecks with
    | true =>
      rw [(h hp).2, if_pos (Or.inl rfl)]
    | false =>
      by_cases hc : (LdbBatch.iterate record).2 = .ok
      · rw [if_pos (Or.inl hc), hc]
      · rw [if_neg (fun h => hc (h.resolve_right Bool.false_ne_true))]

/-- One round of the loop on an acceptable record, when nothing was reported that
    counts. -/
theorem recoverLoop_some {n : Nat} {r r' : Reader} {record : Slice}
    (h : r.readRecord = (some record, r'))
    (hreport : reported o s.status (r'.reports.drop r.reports.length) = .ok) (hs : s.status = .ok)
    (hacc : Acceptable o record) :
    recoverLoop o (n + 1) r s = recoverLoop o n r' (consume o s record) := by
  have hok := consume_ok hacc hs
  obtain ⟨status, mem, flushed, maxSequence⟩ := s
  obtain rfl : status = .ok := hs
  have hquiet : reported o .ok (r'.reports.drop r.reports.length) = .ok := hreport
  rw [recoverLoop, h]
  simp only [hquiet]
  rw [if_neg (fun h => h rfl)]
  by_cases hlen : record.length < LdbBatch.kHeader
  · have hp : ¬ o.paranoidChecks = true := fun hp => by
      have := (hacc hp).1
      omega
    rw [if_pos hlen, consume, if_pos hlen, corruption, if_neg (fun h => hp h.1)]
  · rw [consume, if_neg hlen] at hok
    rw [if_neg hlen, consume, if_neg hlen, if_neg (fun h => h hok)]

/-- Reports that do not count. -/
def Quiet (o : RecoveryOptions) (reports : List Report) : Prop :=
  o.paranoidChecks = true → reports = []

theorem quiet_append (a b : List Report) (h : Quiet o (a ++ b)) :
    Quiet o a ∧ Quiet o b :=
  ⟨fun hp => (List.append_eq_nil_iff.mp (h hp)).1,
    fun hp => (List.append_eq_nil_iff.mp (h hp)).2⟩

theorem reported_quiet {reports : List Report} (h : Quiet o reports) (s : Status) :
    reported o s reports = s := by
  cases hp : o.paranoidChecks with
  | false => exact reported_tolerant hp s reports
  | true =>
    rw [h hp]
    rfl

/-- **The loop consumes every record of the log**, if with `paranoid_checks`
    nothing is reported and every record is a batch. -/
theorem recoverLoop_eq (o : RecoveryOptions) (n : Nat) :
    ∀ (r : Reader) (es : List LogEvent) (s : Recovery), Ready r es → r.unread.length < n →
      Quiet o (assemble [] false es).2 →
      (∀ record ∈ (assemble [] false es).1, Acceptable o record) → s.status = .ok →
      recoverLoop o n r s = (assemble [] false es).1.foldl (consume o) s := by
  refine loop_eq_foldl quiet_append ?_ ?_ n
  · intro n r r' reps s hread hreports hquiet hs
    rw [recoverLoop, hread]
    show { s with status := reported o s.status (r'.reports.drop r.reports.length) } = s
    rw [hreports, List.drop_left, reported_quiet hquiet]
  · intro n r r' reps s record hread hreports hquiet hs hacc
    refine ⟨recoverLoop_some hread ?_ hs hacc, consume_ok hacc hs⟩
    rw [hreports, List.drop_left, reported_quiet hquiet, hs]

/-- What the records of a log leave in the memtables. -/
theorem foldl_consume (records : List Slice) :
    ∀ s : Recovery, s.status = .ok → (∀ record ∈ records, Acceptable o record) →
      (records.foldl (consume o) s).status = .ok
        ∧ ∀ e, (records.foldl (consume o) s).Holds e ↔ s.Holds e
            ∨ ∃ record ∈ records, LdbBatch.kHeader ≤ record.length ∧ e ∈ batchEntries record := by
  induction records with
  | nil =>
    intro s hs _
    exact ⟨hs, fun e => by simp⟩
  | cons record rest ih =>
    intro s hs hacc
    obtain ⟨hok, hholds⟩ := ih (consume o s record) (consume_ok (hacc record List.mem_cons_self) hs)
      (List.forall_mem_cons.mp hacc).2
    refine ⟨hok, fun e => ?_⟩
    have hone : (consume o s record).Holds e
        ↔ s.Holds e ∨ (LdbBatch.kHeader ≤ record.length ∧ e ∈ batchEntries record) := by
      rw [consume]
      split_ifs with hlen
      · exact ⟨Or.inl, fun h => h.resolve_right fun h => absurd hlen (by omega)⟩
      · rw [Recovery.holds_insert]
        exact or_congr_right ⟨fun h => ⟨by omega, h⟩, fun h => h.2⟩
    rw [List.foldl_cons, hholds, hone, or_assoc]
    simp only [List.mem_cons, exists_eq_or_imp]

/-- Keeping or flushing the last memtable loses nothing. -/
theorem Recovery.holds_finish (o : RecoveryOptions) (lastLog : Bool)
    (hs : s.status = .ok) (e : Entry) : (s.finish o lastLog).1.Holds e ↔ s.Holds e := by
  rw [Recovery.finish, Recovery.Holds, Recovery.Holds]
  by_cases hreuse : s.status = .ok ∧ o.reuseLogs = true ∧ lastLog = true ∧ s.flushed = []
  · rw [if_pos hreuse]
    cases s.mem <;> simp [MemTable.empty]
  · rw [if_neg hreuse]
    cases hmem : s.mem with
    | none => simp [hmem]
    | some mem => simp [hs]

theorem Recovery.finish_status (o : RecoveryOptions) (lastLog : Bool) (s : Recovery) :
    (s.finish o lastLog).1.status = s.status := by
  rw [Recovery.finish]
  split
  · rfl
  · cases s.mem with
    | none => rfl
    | some mem =>
      simp only
      split <;> rfl

/-- **`RecoverLogFile` restores the batches the log holds**: exactly their entries
    are in the memtables it makes.  With `paranoid_checks` this needs a log about
    which there is nothing to report. -/
theorem recoverLogFile_restores {file : Slice} {es : List LogEvent}
    (hscan : Scan format kBlockSize file es)
    (hquiet : o.paranoidChecks = true → (assemble [] false es).2 = [])
    (hacc : ∀ record ∈ (assemble [] false es).1, Acceptable o record) (lastLog : Bool)
    (maxSequence : Nat) :
    (recoverLogFile o lastLog maxSequence file).1.status = .ok
      ∧ ∀ e, (recoverLogFile o lastLog maxSequence file).1.Holds e
          ↔ ∃ record ∈ (assemble [] false es).1,
              LdbBatch.kHeader ≤ record.length ∧ e ∈ batchEntries record := by
  have hloop := recoverLoop_eq o (file.length + 1) _ es ⟨.ok, none, [], maxSequence⟩
    (ready_new hscan) (Nat.lt_succ_self _) hquiet hacc rfl
  obtain ⟨hok, hholds⟩ := foldl_consume (assemble [] false es).1
    ⟨.ok, none, [], maxSequence⟩ rfl hacc
  rw [← hloop] at hok hholds
  refine ⟨?_, fun e => ?_⟩
  · rw [recoverLogFile, Recovery.finish_status, hok]
  · rw [recoverLogFile, Recovery.holds_finish o lastLog hok, hholds]
    simp [Recovery.Holds]

end LdbRecovery
