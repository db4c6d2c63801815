import Mathlib.Data.List.AList
import LevelDB.Manifest
import LevelDB.Recovery

/-! # The database and its directory

    The database of `DbImpl` together with the files it keeps: write-ahead logs,
    tables, MANIFEST files and `CURRENT` (`DBImpl::Write`, `MakeRoomForWrite`,
    `CompactMemTable`, `RemoveObsoleteFiles`, `DBImpl::Recover` and `DB::Open` in
    `db/db_impl.cc`).  A process may end between any two steps; what the next one
    finds is the directory.  No call on a file fails.

    A step that changes a file and the state in memory stands for two: a process
    that ends between them leaves the same directory as one that ends after both,
    and the memory is gone. -/

namespace LdbDurable

open LdbFormat LdbVersion LdbEdit LdbEditCodec LdbEnv LdbLog LdbTable LdbCompaction LdbWork LdbDb
open LdbVersionSet LdbRecovery

/-! ## The directory -/

/-- The files of a database, by number. -/
structure Disk where
  manifests : Manifests
  logs : AList fun _ : Nat => Slice
  tables : Nat → Option Table

/-- What a process does to the directory while it opens the database. -/
inductive DiskOp where
  | putManifest (number : Nat) (contents : Slice)
  | setCurrent (number : Nat)
  | putLog (number : Nat) (contents : Slice)
  | putTable (number : Nat) (t : Table)

/-- One such operation. -/
def Disk.apply (d : Disk) : DiskOp → Disk
  | .putManifest number contents => { d with manifests := d.manifests.put number contents }
  | .setCurrent number => { d with manifests := d.manifests.setCurrent number }
  | .putLog number contents => { d with logs := d.logs.insert number contents }
  | .putTable number t => { d with tables := Function.update d.tables number (some t) }

/-- Some of them in a row. -/
def Disk.applyAll (d : Disk) (ops : List DiskOp) : Disk := ops.foldl Disk.apply d

/-- The table of a file that exists. -/
def Disk.tableAt (d : Disk) (number : Nat) : Table := (d.tables number).getD ⟨[], []⟩

/-- The directory after `NewDB`. -/
def newDisk (name : Slice) : Disk := ⟨newDB name Manifests.empty, ∅, fun _ => none⟩

/-! ## Opening -/

/-- What `DB::Open` reads of `Options`. -/
structure OpenOptions where
  db : Options
  recovery : RecoveryOptions

/-- The part `VersionSet::Recover` reads. -/
def OpenOptions.manifest (o : OpenOptions) : ManifestOptions :=
  ⟨o.recovery.reuseLogs, o.db.maxFileSize⟩

/-- The state of `DB::Open`: the version set, the edit it collects, `save_manifest`
    and `max_sequence`, the memtable and the log it will go on with, and what it
    has done to the directory. -/
structure Opening where
  status : Status
  vs : VersionSet
  edit : VersionEdit
  saveManifest : Bool
  maxSequence : Nat
  mem : Option MemTable
  logFileNumber : Nat
  log : Writer
  ops : List DiskOp

/-- `WriteLevel0Table` without a base version: the file goes to level 0. -/
def Opening.writeLevel0Table (o : Options) (s : Opening) (m : MemTable) : Opening :=
  match buildTable o s.vs.nextFileNumber m.table with
  | none => { s with vs := s.vs.newFileNumber.2, saveManifest := true }
  | some (f, t) =>
    { s with
      vs := s.vs.newFileNumber.2
      saveManifest := true
      edit := s.edit.addFile 0 (m.rangeDeletions.foldl widenBounds f)
      ops := s.ops ++ [.putTable s.vs.nextFileNumber t] }

/-- One log: `RecoverLogFile`, then `MarkFileNumberUsed`. -/
def Opening.recoverLog (o : OpenOptions) (lastLog : Bool) (s : Opening) (number : Nat)
    (file : Slice) : Opening :=
  let (r, reused) := recoverLogFile o.recovery lastLog s.maxSequence file
  let s := r.flushed.foldl (Opening.writeLevel0Table o.db) s
  let s := { s with status := r.status, maxSequence := r.maxSequence }
  let s :=
    if reused = true then
      { s with mem := r.mem, logFileNumber := number, log := Writer.resume file.length }
    else s
  if s.status = .ok then { s with vs := s.vs.markFileNumberUsed number } else s

/-- The loop of `DBImpl::Recover` over the logs. -/
def Opening.recoverLogs (o : OpenOptions) (s : Opening) : List (Nat × Slice) → Opening
  | [] => s
  | (number, file) :: rest =>
    let s := s.recoverLog o rest.isEmpty number file
    if s.status = .ok then recoverLogs o s rest else s

/-- The logs `DBImpl::Recover` replays, in the order of their numbers. -/
def Disk.neededLogs (d : Disk) (vs : VersionSet) : List (Nat × Slice) :=
  ((d.logs.keys.filter fun n => vs.logNumber ≤ n ∨ n = vs.prevLogNumber).insertionSort (· ≤ ·)).map
    fun n => (n, (d.logs.lookup n).getD [])

/-- The numbers of the version's files for which the directory has no file of that
    number, of whatever kind. -/
def Disk.missing (d : Disk) (v : Version) : List Nat :=
  (((List.range kNumLevels).flatMap fun l => (v.files l).map (·.number)).filter fun n =>
    d.tables n = none ∧ d.logs.lookup n = none ∧ d.manifests.files n = none).dedup

/-- `DBImpl::Recover` for an existing database. -/
def recover (o : OpenOptions) (name : Slice) (d : Disk) : Opening :=
  let (status, vs, save) := VersionSet.new.recover o.manifest name d.manifests
  let s : Opening := ⟨status, vs, {}, save, 0, none, 0, Writer.new, []⟩
  if status ≠ .ok then s
  else if d.missing vs.current ≠ [] then
    { s with status := .corruption (toString (d.missing vs.current).length ++ " missing files; e.g.") }
  else
    let s := s.recoverLogs o (d.neededLogs vs)
    if s.status = .ok ∧ s.vs.lastSequence < s.maxSequence then
      { s with vs := s.vs.setLastSequence s.maxSequence }
    else s

/-- The part of `DB::Open` that creates a log and a memtable if none is used
    further. -/
def Opening.createLog (s : Opening) : Opening :=
  match s.mem with
  | some _ => s
  | none =>
    { s with
      vs := s.vs.newFileNumber.2
      mem := some MemTable.empty
      logFileNumber := s.vs.nextFileNumber
      log := Writer.new
      ops := s.ops ++ [.putLog s.vs.nextFileNumber []] }

/-- The edit `DB::Open` logs in the end: no older logs are needed. -/
def Opening.finalEdit (s : Opening) : VersionEdit :=
  { s.edit with prevLogNumber := some 0, logNumber := some s.logFileNumber }

/-- What a `LogAndApply` does to the directory: a new MANIFEST is written before
    `CURRENT` names it. -/
def manifestOps (name : Slice) (vs : VersionSet) (disk : Manifests) (edit : VersionEdit) :
    List DiskOp :=
  let number := vs.manifestFileNumber
  let written := ((vs.logAndApply name {} disk edit).2.2.files number).getD []
  match vs.descriptorLog with
  | some _ => [.putManifest number written]
  | none =>
    let snapshot := ({ vs with compactPointer := applyPointers vs.compactPointer edit } :
      VersionSet).descriptor name {} disk
    [.putManifest number snapshot.2.2.contents, .putManifest number written, .setCurrent number]

/-- The part of `DB::Open` that logs the edit. -/
def Opening.logEdit (name : Slice) (d : Disk) (s : Opening) : Opening :=
  if s.saveManifest = true then
    { s with
      vs := (s.vs.logAndApply name {} d.manifests s.finalEdit).2.1
      ops := s.ops ++ manifestOps name s.vs d.manifests s.finalEdit }
  else s

/-- `DB::Open` up to the removal of obsolete files. -/
def openDB (o : OpenOptions) (name : Slice) (d : Disk) : Opening :=
  let s := recover o name d
  if s.status = .ok then s.createLog.logEdit name d else s

/-! ## A running process -/

/-- A process that has the database open.  `inflight` is the batch group that has
    been logged and is not yet in the memtable; `flushing` says that the table of
    the immutable memtable has been built. -/
structure Process where
  db : DB
  manifestFileNumber : Nat
  logNumber : Nat
  prevLogNumber : Nat
  descriptorLog : Option Writer
  logFileNumber : Nat
  log : Writer
  inflight : Option (List Op)
  flushing : Bool

/-- `versions_`. -/
def Process.versions (p : Process) : VersionSet where
  current := p.db.current
  compactPointer := p.db.compactPointer
  nextFileNumber := p.db.nextFileNumber
  manifestFileNumber := p.manifestFileNumber
  lastSequence := p.db.lastSequence
  logNumber := p.logNumber
  prevLogNumber := p.prevLogNumber
  descriptorLog := p.descriptorLog

/-- The process that `DB::Open` returns. -/
def Opening.process (s : Opening) (d : Disk) : Process where
  db :=
    { mem := s.mem.getD MemTable.empty
      imm := none
      current := s.vs.current
      tables := d.tableAt
      nextFileNumber := s.vs.nextFileNumber
      lastSequence := s.vs.lastSequence
      snapshots := []
      compactPointer := s.vs.compactPointer
      running := none }
  manifestFileNumber := s.vs.manifestFileNumber
  logNumber := s.vs.logNumber
  prevLogNumber := s.vs.prevLogNumber
  descriptorLog := s.vs.descriptorLog
  logFileNumber := s.logFileNumber
  log := s.log
  inflight := none
  flushing := false

/-! ## Steps -/

/-- The slices of an operation have lengths for which 32 bits are enough, also
    with the tag of an internal key. -/
def Storable : Op → Prop
  | .put key value => key.length + 8 < 2 ^ 32 ∧ value.length < 2 ^ 32
  | .delete key => key.length + 8 < 2 ^ 32
  | .deleteRange startKey endKey => startKey.length + 8 < 2 ^ 32 ∧ endKey.length + 8 < 2 ^ 32

instance : DecidablePred Storable
  | .put _ _ => inferInstanceAs (Decidable (_ ∧ _))
  | .delete _ => inferInstanceAs (Decidable (_ < _))
  | .deleteRange _ _ => inferInstanceAs (Decidable (_ ∧ _))

/-- A batch group that can be logged after sequence number `lastSequence`. -/
def Loggable (lastSequence : Nat) (batch : List Op) : Prop :=
  lastSequence + batch.length ≤ kMaxSequenceNumber ∧ batch.length < 2 ^ 32
    ∧ ∀ op ∈ batch, Storable op

instance (lastSequence : Nat) (batch : List Op) : Decidable (Loggable lastSequence batch) :=
  inferInstanceAs (Decidable (_ ∧ _ ∧ _))

/-- The numbers, sizes and keys of an edit are in the range of their types. -/
def InRange (e : VersionEdit) : Prop :=
  (∀ n ∈ LdbManifest.numbersOf e, n < 2 ^ 64) ∧ (∀ n ∈ e.lastSequence, n < 2 ^ 64)
    ∧ (∀ p ∈ e.compactPointers, FitsKey p.2) ∧ ∀ p ∈ e.newFiles, FitsFile p.2

instance (e : VersionEdit) : Decidable (InRange e) :=
  inferInstanceAs (Decidable (_ ∧ _ ∧ _ ∧ _))

/-- `LogAndApply` of an edit that takes the database to `db`. -/
def Process.commit (name : Slice) (p : Process) (db : DB) (edit : VersionEdit) (d : Disk) :
    Option (Process × Disk) :=
  let vs := { p.versions with nextFileNumber := db.nextFileNumber }
  if InRange (vs.complete edit) then
    let r := vs.logAndApply name {} d.manifests edit
    some ({ p with
      db := db
      manifestFileNumber := r.2.1.manifestFileNumber
      logNumber := r.2.1.logNumber
      prevLogNumber := r.2.1.prevLogNumber
      descriptorLog := r.2.1.descriptorLog }, { d with manifests := r.2.2 })
  else none

/-- The edit of `CompactMemTable`. -/
def Process.flushEdit (o : Options) (p : Process) (m : MemTable) : VersionEdit :=
  let edit : VersionEdit :=
    match writeLevel0Table o p.db.current p.db.nextFileNumber m with
    | none => {}
    | some (f, _, level) => ({} : VersionEdit).addFile level f
  { edit with prevLogNumber := some 0, logNumber := some p.logFileNumber }

/-- `BackgroundCompaction` on picked inputs: a trivial move is logged at once. -/
def Process.compact (o : Options) (name : Slice) (p : Process) (c : Compaction) (mayMove : Bool)
    (d : Disk) : Option (Process × Disk) :=
  match c.inputs0, mayMove && c.isTrivialMove o with
  | [f], true =>
    p.commit name (p.db.startCompaction o c mayMove)
      ((moveEdit c f).setCompactPointer c.level c.largest) d
  | _, _ => some ({ p with db := p.db.startCompaction o c mayMove }, d)

/-- The steps of a running process.  Background work is done by one thread: while
    it flushes the immutable memtable it does nothing else. -/
inductive Action where
  | appendLog (batch : List Op)
  | insertBatch
  | switchMemTable
  | getSnapshot
  | releaseSnapshot (s : Nat)
  | buildTable
  | installTable
  | autoCompaction (t : Trigger)
  | manualCompaction (level : Nat) (begin_ end_ : Option InternalKey) (forceFull : Bool)
  | openOutput
  | finishOutput (i : Nat)
  | installResults
  | removeLog (number : Nat)
  | removeManifest (number : Nat)
  | removeTable (number : Nat)

/-- The test of `RemoveObsoleteFiles` for a table: `pending_outputs_` holds the
    numbers of the tables under construction. -/
def Process.keepsTable (p : Process) (number : Nat) : Prop :=
  (p.flushing = true ∧ number = p.db.nextFileNumber)
    ∨ (∃ r ∈ p.db.running, number ∈ r.outputNumbers)
    ∨ ∃ l < kNumLevels, ∃ f ∈ p.db.current.files l, f.number = number

instance (p : Process) (number : Nat) : Decidable (p.keepsTable number) :=
  inferInstanceAs (Decidable (_ ∨ _ ∨ _))

/-- One step; `none` when the action is not enabled. -/
def step (o : Options) (name : Slice) (p : Process) (d : Disk) : Action → Option (Process × Disk)
  | .appendLog batch =>
    if p.inflight = none ∧ Loggable p.db.lastSequence batch then
      let r := p.log.addRecord ⟨(d.logs.lookup p.logFileNumber).getD [], []⟩
        (LdbBatch.batchRep (p.db.lastSequence + 1) batch)
      some ({ p with log := r.2.1, inflight := some batch },
        { d with logs := d.logs.insert p.logFileNumber r.2.2.contents })
    else none
  | .insertBatch =>
    match p.inflight with
    | none => none
    | some batch => (LdbDb.step o p.db (.write batch)).map fun db =>
      ({ p with db := db, inflight := none }, d)
  | .switchMemTable =>
    if p.inflight = none then
      (LdbDb.step o p.db .switchMemTable).map fun db =>
        ({ p with db := db, logFileNumber := p.db.nextFileNumber, log := Writer.new },
          { d with logs := d.logs.insert p.db.nextFileNumber [] })
    else none
  | .getSnapshot => (LdbDb.step o p.db .getSnapshot).map fun db => ({ p with db := db }, d)
  | .releaseSnapshot s =>
    (LdbDb.step o p.db (.releaseSnapshot s)).map fun db => ({ p with db := db }, d)
  | .buildTable =>
    match p.db.imm with
    | none => none
    | some m =>
      match writeLevel0Table o p.db.current p.db.nextFileNumber m with
      | none => some ({ p with flushing := true }, d)
      | some (f, t, _) =>
        some ({ p with flushing := true }, d.apply (.putTable f.number t))
  | .installTable =>
    match p.db.imm with
    | none => none
    | some m =>
      if p.flushing = true then
        { p with flushing := false }.commit name (p.db.compactMemTable o m) (p.flushEdit o m) d
      else none
  | .autoCompaction t =>
    match p.flushing, p.db.imm, p.db.running,
        pickCompaction o p.db.current p.db.compactPointer t with
    | false, none, none, some c => p.compact o name c true d
    | _, _, _, _ => none
  | .manualCompaction level b e forceFull =>
    if level + 1 < kNumLevels then
      match p.flushing, p.db.imm, p.db.running, compactRange o p.db.current level b e with
      | false, none, none, some c => p.compact o name c forceFull d
      | _, _, _, _ => none
    else none
  | .openOutput =>
    if p.flushing = false then
      (LdbDb.step o p.db .openOutput).map fun db =>
        ({ p with db := db }, d.apply (.putTable p.db.nextFileNumber ⟨[], []⟩))
    else none
  | .finishOutput i =>
    match p.db.running with
    | none => none
    | some r => (p.db.outputs o r)[i]?.map fun out =>
      (p, d.apply (.putTable out.2 (tableOfAdds out.1.adds)))
  | .installResults =>
    match p.db.running with
    | none => none
    | some r =>
      if p.flushing = false ∧ r.outputNumbers.length = ((p.db.job r).doCompactionWork o).length
          ∧ ∀ out ∈ p.db.outputs o r, d.tables out.2 = some (tableOfAdds out.1.adds) then
        p.commit name (p.db.installResults o r)
          ((installEdit o r.compaction (p.db.outputs o r)).setCompactPointer
            r.compaction.level r.compaction.largest) d
      else none
  | .removeLog number =>
    if number < p.logNumber ∧ number ≠ p.prevLogNumber then
      some (p, { d with logs := d.logs.erase number })
    else none
  | .removeManifest number =>
    if number < p.manifestFileNumber then some (p, { d with manifests := d.manifests.remove number })
    else none
  | .removeTable number =>
    if p.keepsTable number then none
    else some (p, { d with tables := Function.update d.tables number none })

/-! ## Runs -/

/-- The directory after any number of processes that died while they opened the
    database: each did some of its operations on the directory. -/
inductive Crashed (o : Options) (name : Slice) (d : Disk) : Disk → Prop
  | here : Crashed o name d d
  | opening {d' : Disk} (ro : RecoveryOptions) (k : Nat) : Crashed o name d d' →
      (openDB ⟨o, ro⟩ name d').vs.nextFileNumber < 2 ^ 64 →
      Crashed o name d (d'.applyAll ((openDB ⟨o, ro⟩ name d').ops.take k))

/-- The operations a step commits. -/
def Action.ops (p : Process) : Action → List Op
  | .insertBatch => p.inflight.getD []
  | _ => []

/-- The states of all runs, with the operations committed in order.  A process may
    end at any time; the group it was inserting counts as committed once it is in
    the log.  File numbers are assumed not to overflow. -/
inductive Reach (o : Options) (name : Slice) : Process → Disk → List Op → Prop
  | create (ro : RecoveryOptions) :
      Reach o name
        ((openDB ⟨o, ro⟩ name (newDisk name)).process
          ((newDisk name).applyAll (openDB ⟨o, ro⟩ name (newDisk name)).ops))
        ((newDisk name).applyAll (openDB ⟨o, ro⟩ name (newDisk name)).ops) []
  | step {p p' : Process} {d d' : Disk} {h : List Op} {a : Action} : Reach o name p d h →
      step o name p d a = some (p', d') → Reach o name p' d' (h ++ a.ops p)
  | reopen {p : Process} {d d' : Disk} {h : List Op} (ro : RecoveryOptions) : Reach o name p d h →
      Crashed o name d d' → (openDB ⟨o, ro⟩ name d').vs.nextFileNumber < 2 ^ 64 →
      Reach o name
        ((openDB ⟨o, ro⟩ name d').process (d'.applyAll (openDB ⟨o, ro⟩ name d').ops))
        (d'.applyAll (openDB ⟨o, ro⟩ name d').ops) (h ++ p.inflight.getD [])

end LdbDurable
