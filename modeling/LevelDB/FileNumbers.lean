import LevelDB.Manifest

/-! # File numbers

    Every log, table and MANIFEST gets its number from one counter of the version set.
    The counter is kept in the MANIFEST only: each logged edit records it.  What this
    module follows is the numbers alone, through openings, log replay, memtable
    switches, flushes, compactions and `LogAndApply` with the mutex released
    (`db/version_set.{h,cc}`, `db/db_impl.cc`), over processes that end at any point.

    A MANIFEST is the list of its edits; a record that is torn or damaged is lost for
    good, and recovery passes over it.  What tables and logs hold is left out, and so
    are the reasons for which a process builds tables while it replays a log, starts a
    compaction, goes on with an old log or gives up; all of them may happen at any time.

    `Creates` and `State.Referenced` say which files a state creates next and which are
    in use. -/

namespace LdbFileNumbers

open LdbFormat LdbVersion LdbEdit LdbLog LdbVersionSet LdbManifest

/-! ## The directory -/

/-- The kinds of files that carry a number. -/
inductive FileKind where
  | log
  | table
  | manifest
  deriving DecidableEq

/-- The directory: MANIFEST files by number, what `CURRENT` names, and the logs. -/
structure Directory where
  manifests : Nat → Option (List VersionEdit)
  current : Option Nat
  logs : List Nat

/-- An empty directory. -/
def Directory.empty : Directory := ⟨fun _ => none, none, []⟩

/-- A MANIFEST with new contents. -/
def Directory.putManifest (d : Directory) (number : Nat) (edits : List VersionEdit) : Directory :=
  { d with manifests := Function.update d.manifests number (some edits) }

/-- `RemoveFile` of a MANIFEST. -/
def Directory.dropManifest (d : Directory) (number : Nat) : Directory :=
  { d with manifests := Function.update d.manifests number none }

/-- The logs `DBImpl::Recover` replays, in the order of their numbers. -/
def Directory.neededLogs (d : Directory) (vs : VersionSet) : List Nat :=
  (d.logs.filter fun n => vs.logNumber ≤ n ∨ n = vs.prevLogNumber).insertionSort (· ≤ ·)

/-! ## The process -/

/-- `VersionSet::ReuseFileNumber`. -/
def reuseFileNumber (vs : VersionSet) (number : Nat) : VersionSet :=
  if vs.nextFileNumber = number + 1 then { vs with nextFileNumber := number } else vs

/-- How far `DB::Open` is: replaying logs, past them, or done. -/
inductive Stage where
  | recovering
  | opening
  | running
  deriving DecidableEq

/-- How far a `LogAndApply` is: the edit is complete, a new MANIFEST exists, the
    MANIFEST can take the edit, has it, or is named by `CURRENT`. -/
inductive LogStage where
  | begun
  | created
  | ready
  | written
  | pointed
  deriving DecidableEq

/-- A process that has the database open or opens it.  `older` lists the versions in
    use behind the current one, `log` is `logfile_number_` once there is a memtable,
    `logsLeft`, `edit` and `saveManifest` belong to `DB::Open`, `flush` and `outputs`
    are the tables that `WriteLevel0Table` and a compaction are building, and
    `logging` is the edit that `LogAndApply` is about. -/
structure Process where
  vs : VersionSet
  older : List Version
  pendingOutputs : List Nat
  log : Option Nat
  stage : Stage
  logsLeft : List Nat
  edit : VersionEdit
  saveManifest : Bool
  flush : Option Nat
  outputs : Option (List Nat)
  logging : Option (VersionEdit × LogStage)

/-- The version set of `Recover`; `reuse` is the size of MANIFEST `number` if it is
    used further. -/
def recoveredSet (number : Nat) (edits : List VersionEdit) (reuse : Option Nat) : VersionSet :=
  match reuse with
  | none => (replayed edits).install
  | some size =>
    { (replayed edits).install with
      manifestFileNumber := number
      descriptorLog := some (Writer.resume size) }

/-- The process after `VersionSet::Recover`. -/
def openProcess (d : Directory) (number : Nat) (edits : List VersionEdit) (reuse : Option Nat) :
    Process where
  vs := recoveredSet number edits reuse
  older := []
  pendingOutputs := []
  log := none
  stage := .recovering
  logsLeft := d.neededLogs (recoveredSet number edits reuse)
  edit := {}
  saveManifest := reuse.isNone
  flush := none
  outputs := none
  logging := none

/-- The head of `LogAndApply`; the mutex is released behind it. -/
def Process.beginLogAndApply (p : Process) (edit : VersionEdit) : Process :=
  { p with
    vs := { p.vs with compactPointer := applyPointers p.vs.compactPointer edit }
    logging := some (p.vs.complete edit,
      if p.vs.descriptorLog = none then .begun else .ready) }

/-- The end of `WriteLevel0Table`. -/
def Process.endTable (p : Process) : Process :=
  { p with
    pendingOutputs := p.pendingOutputs.filter fun n => p.flush ≠ some n
    flush := none }

/-- The edit of `CompactMemTable`; an empty memtable makes no file. -/
def Process.flushEdit (p : Process) (file : Option (Nat × FileMetaData)) : VersionEdit :=
  { newFiles := file.toList, prevLogNumber := some 0, logNumber := p.log }

/-! ## Steps -/

/-- The steps of a process. -/
inductive Action where
  | writeLevel0Table (created : Bool)
  | builtTable (file : Option (Nat × FileMetaData))
  | tableFailed
  | recoveredLog (reused : Bool)
  | createLog
  | keepLog
  | logOpenEdit
  | makeRoomForWrite (created : Bool)
  | startCompaction
  | openOutput (created : Bool)
  | installResults (edit : VersionEdit)
  | trivialMove (edit : VersionEdit)
  | cleanupCompaction
  | createManifest
  | writeSnapshot
  | appendEdit
  | setCurrent
  | installVersion
  | failLogAndApply
  | unrefVersion (i : Nat)
  | removeLog (number : Nat)
  | removeManifest (number : Nat)

/-- The background thread is between two pieces of work. -/
def Process.Free (p : Process) : Prop := p.stage = .running ∧ p.flush = none ∧ p.logging = none

/-- When a step can be taken. -/
def Process.Enabled (p : Process) : Action → Prop
  | .writeLevel0Table _ => p.flush = none ∧ p.logging = none ∧ p.stage ≠ .opening
  | .builtTable file => p.logging = none ∧ p.flush ≠ none ∧ ∀ q ∈ file, p.flush = some q.2.number
  | .tableFailed => p.flush ≠ none
  | .recoveredLog reused => p.stage = .recovering ∧ p.flush = none ∧ p.logsLeft ≠ []
      ∧ (reused = true → p.logsLeft.tail = [])
  | .createLog => p.stage = .recovering ∧ p.flush = none ∧ p.logsLeft = [] ∧ p.log = none
  | .keepLog => p.stage = .recovering ∧ p.flush = none ∧ p.logsLeft = [] ∧ p.log ≠ none
  | .logOpenEdit => p.stage = .opening ∧ p.logging = none
  | .makeRoomForWrite _ => p.stage = .running
  | .startCompaction => p.Free ∧ p.outputs = none
  | .openOutput _ => p.Free ∧ p.outputs ≠ none
  | .installResults edit => p.Free ∧ edit.logNumber = none
      ∧ ∃ outs ∈ p.outputs, ∀ q ∈ edit.newFiles, q.2.number ∈ outs
  | .trivialMove edit => p.Free ∧ p.outputs = none ∧ edit.logNumber = none
      ∧ ∀ q ∈ edit.newFiles, ∃ level, q.2 ∈ p.vs.current.files level
  | .cleanupCompaction => p.Free ∧ p.outputs ≠ none
  | .createManifest => ∃ e, p.logging = some (e, .begun)
  | .writeSnapshot => ∃ e, p.logging = some (e, .created)
  | .appendEdit => ∃ e, p.logging = some (e, .ready)
  | .setCurrent => ∃ e, p.logging = some (e, .written) ∧ p.vs.descriptorLog = none
  | .installVersion => ∃ e, p.logging = some (e, .pointed)
      ∨ (p.logging = some (e, .written) ∧ p.vs.descriptorLog ≠ none)
  | .failLogAndApply => ∃ e st, p.logging = some (e, st) ∧ st ≠ .pointed
  | .unrefVersion _ => True
  | .removeLog number => p.stage = .running ∧ number < p.vs.logNumber ∧ number ≠ p.vs.prevLogNumber
  | .removeManifest number => p.stage = .running ∧ number < p.vs.manifestFileNumber

/-- What a step does.  `NewWritableFile` may fail: a log number is then given back,
    and the number of a table stays with the work it was taken for. -/
def Process.next (name : Slice) (p : Process) (d : Directory) : Action → Process × Directory
  | .writeLevel0Table _ =>
    ({ p with
      vs := p.vs.newFileNumber.2
      pendingOutputs := p.vs.newFileNumber.1 :: p.pendingOutputs
      flush := some p.vs.newFileNumber.1 }, d)
  | .builtTable file =>
    if p.stage = .recovering then
      ({ p.endTable with
        edit := file.elim p.edit fun q => p.edit.addFile 0 q.2
        saveManifest := true }, d)
    else (p.endTable.beginLogAndApply (p.flushEdit file), d)
  | .tableFailed => (p.endTable, d)
  | .recoveredLog reused =>
    ({ p with
      vs := p.vs.markFileNumberUsed (p.logsLeft.headD 0)
      logsLeft := p.logsLeft.tail
      log := if reused = true then p.logsLeft.head? else p.log }, d)
  | .createLog =>
    ({ p with vs := p.vs.newFileNumber.2, log := some p.vs.newFileNumber.1, stage := .opening },
      { d with logs := p.vs.newFileNumber.1 :: d.logs })
  | .keepLog => ({ p with stage := .opening }, d)
  | .logOpenEdit =>
    if p.saveManifest = true then
      (p.beginLogAndApply { p.edit with prevLogNumber := some 0, logNumber := p.log }, d)
    else ({ p with stage := .running }, d)
  | .makeRoomForWrite created =>
    if created = true then
      ({ p with vs := p.vs.newFileNumber.2, log := some p.vs.newFileNumber.1 },
        { d with logs := p.vs.newFileNumber.1 :: d.logs })
    else ({ p with vs := reuseFileNumber p.vs.newFileNumber.2 p.vs.newFileNumber.1 }, d)
  | .startCompaction => ({ p with outputs := some [] }, d)
  | .openOutput _ =>
    ({ p with
      vs := p.vs.newFileNumber.2
      pendingOutputs := p.vs.newFileNumber.1 :: p.pendingOutputs
      outputs := p.outputs.map (· ++ [p.vs.newFileNumber.1]) }, d)
  | .installResults edit => (p.beginLogAndApply edit, d)
  | .trivialMove edit => (p.beginLogAndApply edit, d)
  | .cleanupCompaction =>
    ({ p with
      pendingOutputs := p.pendingOutputs.filter fun n => n ∉ p.outputs.getD []
      outputs := none }, d)
  | .createManifest =>
    ({ p with logging := p.logging.map fun l => (l.1, .created) },
      d.putManifest p.vs.manifestFileNumber [])
  | .writeSnapshot =>
    ({ p with logging := p.logging.map fun l => (l.1, .ready) },
      d.putManifest p.vs.manifestFileNumber [p.vs.snapshot name])
  | .appendEdit =>
    ({ p with logging := p.logging.map fun l => (l.1, .written) },
      d.putManifest p.vs.manifestFileNumber
        ((d.manifests p.vs.manifestFileNumber).getD [] ++ p.logging.toList.map (·.1)))
  | .setCurrent =>
    ({ p with logging := p.logging.map fun l => (l.1, .pointed) },
      { d with current := some p.vs.manifestFileNumber })
  | .installVersion =>
    let edit := (p.logging.map (·.1)).getD {}
    ({ p with
      vs := { p.vs with
        current := applyEdit p.vs.current edit
        logNumber := edit.logNumber.getD 0
        prevLogNumber := edit.prevLogNumber.getD 0
        descriptorLog := some (p.vs.descriptorLog.getD Writer.new) }
      older := p.vs.current :: p.older
      stage := .running
      logging := none }, d)
  | .failLogAndApply =>
    ({ p with logging := none },
      if p.vs.descriptorLog = none then d.dropManifest p.vs.manifestFileNumber else d)
  | .unrefVersion i => ({ p with older := p.older.eraseIdx i }, d)
  | .removeLog number => (p, { d with logs := d.logs.filter (· ≠ number) })
  | .removeManifest number => (p, d.dropManifest number)

/-- The file a step creates. -/
def Process.created (p : Process) : Action → Option (FileKind × Nat)
  | .writeLevel0Table true => some (.table, p.vs.newFileNumber.1)
  | .openOutput true => some (.table, p.vs.newFileNumber.1)
  | .createLog => some (.log, p.vs.newFileNumber.1)
  | .makeRoomForWrite true => some (.log, p.vs.newFileNumber.1)
  | .createManifest => some (.manifest, p.vs.manifestFileNumber)
  | _ => none

/-! ## Runs -/

/-- A directory no process works on, or a process with its directory. -/
inductive State where
  | closed (d : Directory)
  | live (p : Process) (d : Directory)

/-- The states of all runs.  `NewDB` writes the first MANIFEST; a process ends at any
    time, also while it opens the database, and the next one recovers from what it
    finds.  Between them a MANIFEST may lose records. -/
inductive Reach (name : Slice) : State → Prop
  | empty : Reach name (.closed Directory.empty)
  | newManifest {d : Directory} : Reach name (.closed d) → d.current = none →
      Reach name (.closed (d.putManifest 1 []))
  | newRecord {d : Directory} : Reach name (.closed d) → d.current = none →
      Reach name (.closed (d.putManifest 1 [newDBEdit name]))
  | newCurrent {d : Directory} : Reach name (.closed d) → d.current = none →
      d.manifests 1 = some [newDBEdit name] → Reach name (.closed { d with current := some 1 })
  | damage {d : Directory} {number : Nat} {edits left : List VersionEdit} :
      Reach name (.closed d) → d.manifests number = some edits → left.Sublist edits →
      Reach name (.closed (d.putManifest number left))
  | recover {d : Directory} {number : Nat} {edits : List VersionEdit} (reuse : Option Nat) :
      Reach name (.closed d) → d.current = some number → d.manifests number = some edits →
      (replayed edits).check = .ok → Reach name (.live (openProcess d number edits reuse) d)
  | step {p : Process} {d : Directory} {a : Action} : Reach name (.live p d) → p.Enabled a →
      Reach name (.live (p.next name d a).1 (p.next name d a).2)
  | crash {p : Process} {d : Directory} : Reach name (.live p d) → Reach name (.closed d)

/-- **The program creates a file**: `NewDB` its MANIFEST, or a process in a step. -/
inductive Creates : State → FileKind → Nat → Prop
  | newDB {d : Directory} : d.current = none → Creates (.closed d) .manifest 1
  | step {p : Process} {d : Directory} {a : Action} {kind : FileKind} {number : Nat} :
      p.Enabled a → p.created a = some (kind, number) → Creates (.live p d) kind number

/-- The version has a file of this number. -/
def HasFile (v : Version) (number : Nat) : Prop := ∃ level, ∃ f ∈ v.files level, f.number = number

/-- **A file is in use**: a table by the current version, a version in the list or
    `pending_outputs_`; a log by being in the directory, needed for recovery or not; a
    MANIFEST by `CURRENT`. -/
def State.Referenced : State → FileKind → Nat → Prop
  | .closed d, .manifest, number => d.current = some number
  | .closed d, .log, number => number ∈ d.logs
  | .closed _, .table, _ => False
  | .live _ d, .manifest, number => d.current = some number
  | .live _ d, .log, number => number ∈ d.logs
  | .live p _, .table, number => HasFile p.vs.current number
      ∨ (∃ v ∈ p.older, HasFile v number) ∨ number ∈ p.pendingOutputs

end LdbFileNumbers
