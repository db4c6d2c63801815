import LevelDB.EditCodec
import LevelDB.LogReader

/-! # The version set and its MANIFEST

    `VersionSet::LogAndApply`, `WriteSnapshot`, `Recover` and `ReuseManifest`
    (`db/version_set.cc`) and `DBImpl::NewDB`.  The version set logs every edit
    in the MANIFEST file it has open; a version set that has none open starts a
    new one with a snapshot of its version.  Recovery folds all edits of the
    MANIFEST that `CURRENT` names through one builder.

    `Finalize` and the list of older versions belong to scheduling and are not
    here.  A file is named by its number; `CURRENT` holds the number of a
    MANIFEST. -/

namespace LdbVersionSet

open LdbFormat LdbVersion LdbEdit LdbEditCodec LdbEnv LdbLog

/-- `VersionSet`.  `descriptorLog` is the writer of the open MANIFEST. -/
structure VersionSet where
  current : Version
  compactPointer : Nat → Option InternalKey
  nextFileNumber : Nat
  manifestFileNumber : Nat
  lastSequence : Nat
  logNumber : Nat
  prevLogNumber : Nat
  descriptorLog : Option Writer

/-- The constructor. -/
def VersionSet.new : VersionSet where
  current := Version.empty
  compactPointer := fun _ => none
  nextFileNumber := 2
  manifestFileNumber := 0
  lastSequence := 0
  logNumber := 0
  prevLogNumber := 0
  descriptorLog := none

/-- The MANIFEST files of a directory and its `CURRENT` file. -/
structure Manifests where
  files : Nat → Option Slice
  current : Option Nat

/-- An empty directory. -/
def Manifests.empty : Manifests := ⟨fun _ => none, none⟩

/-- A MANIFEST with new contents. -/
def Manifests.put (disk : Manifests) (number : Nat) (contents : Slice) : Manifests :=
  { disk with files := Function.update disk.files number (some contents) }

@[simp] theorem Manifests.put_files (disk : Manifests) (number : Nat) (contents : Slice) :
    (disk.put number contents).files number = some contents := by
  rw [Manifests.put]
  exact Function.update_self ..

/-- `RemoveFile` of a MANIFEST. -/
def Manifests.remove (disk : Manifests) (number : Nat) : Manifests :=
  { disk with files := Function.update disk.files number none }

theorem Manifests.put_put (disk : Manifests) (number : Nat) (a b : Slice) :
    (disk.put number a).put number b = disk.put number b := by
  rw [Manifests.put, Manifests.put, Manifests.put, Function.update_idem]

/-- `SetCurrentFile`. -/
def Manifests.setCurrent (disk : Manifests) (number : Nat) : Manifests :=
  { disk with current := some number }

/-- How the calls of one `LogAndApply` on its files end: `NewWritableFile`, the
    calls on the MANIFEST, and `SetCurrentFile`. -/
structure ManifestIO where
  create : Status := .ok
  calls : List Outcome := []
  setCurrent : Status := .ok

/-! ## Creating a database -/

/-- The edit of `NewDB`. -/
def newDBEdit (name : Slice) : VersionEdit :=
  { comparator := some name, logNumber := some 0, nextFileNumber := some 2, lastSequence := some 0 }

/-- `DBImpl::NewDB`, when no call fails: MANIFEST 1, then `CURRENT`. -/
def newDB (name : Slice) (disk : Manifests) : Manifests :=
  (disk.put 1 (Writer.new.addRecord ⟨[], []⟩ (encodeTo (newDBEdit name))).2.2.contents).setCurrent 1

/-! ## File numbers -/

/-- `VersionSet::NewFileNumber`. -/
def VersionSet.newFileNumber (vs : VersionSet) : Nat × VersionSet :=
  (vs.nextFileNumber, { vs with nextFileNumber := vs.nextFileNumber + 1 })

/-- `VersionSet::MarkFileNumberUsed`. -/
def VersionSet.markFileNumberUsed (vs : VersionSet) (number : Nat) : VersionSet :=
  if vs.nextFileNumber ≤ number then { vs with nextFileNumber := number + 1 } else vs

/-- `VersionSet::SetLastSequence`. -/
def VersionSet.setLastSequence (vs : VersionSet) (s : Nat) : VersionSet :=
  { vs with lastSequence := s }

/-! ## Applying an edit -/

/-- The head of `LogAndApply`: the edit gets the log numbers it lacks, the next
    file number and the last sequence number. -/
def VersionSet.complete (vs : VersionSet) (edit : VersionEdit) : VersionEdit :=
  { edit with
    logNumber := some (edit.logNumber.getD vs.logNumber)
    prevLogNumber := some (edit.prevLogNumber.getD vs.prevLogNumber)
    nextFileNumber := some vs.nextFileNumber
    lastSequence := some vs.lastSequence }

/-- The compaction pointers after `Builder::Apply`. -/
def applyPointers (ptr : Nat → Option InternalKey) (edit : VersionEdit) :
    Nat → Option InternalKey :=
  edit.compactPointers.foldl (fun ptr p => Function.update ptr p.1 (some p.2)) ptr

/-- The edit of `WriteSnapshot`. -/
def VersionSet.snapshot (name : Slice) (vs : VersionSet) : VersionEdit :=
  { comparator := some name
    compactPointers := (List.range kNumLevels).filterMap fun level =>
      (vs.compactPointer level).map fun key => (level, key)
    newFiles := (List.range kNumLevels).flatMap fun level =>
      (vs.current.files level).map fun f => (level, f) }

/-- The MANIFEST `LogAndApply` writes to: the open one, or a new one that begins
    with a snapshot. -/
def VersionSet.descriptor (name : Slice) (io : ManifestIO) (vs : VersionSet) (disk : Manifests) :
    Status × Writer × WritableFile :=
  match vs.descriptorLog with
  | some w => (.ok, w, ⟨(disk.files vs.manifestFileNumber).getD [], io.calls⟩)
  | none =>
    if io.create = .ok then Writer.new.addRecord ⟨[], io.calls⟩ (encodeTo (vs.snapshot name))
    else (io.create, Writer.new, ⟨[], io.calls⟩)

/-- `AddRecord` of an edit and `Sync`. -/
def writeEdit (w : Writer) (file : WritableFile) (edit : VersionEdit) :
    Status × Writer × WritableFile :=
  let (s, w, file) := w.addRecord file (encodeTo edit)
  if s = .ok then (file.flush.1, w, file.flush.2) else (s, w, file)

/-- `VersionSet::LogAndApply`.  The compaction pointers of the edit are taken over
    before anything is written, also when a call fails then; the version and the
    log numbers only at the end. -/
def VersionSet.logAndApply (name : Slice) (io : ManifestIO) (vs : VersionSet) (disk : Manifests)
    (edit : VersionEdit) : Status × VersionSet × Manifests :=
  let edit := vs.complete edit
  let v := applyEdit vs.current edit
  let vs := { vs with compactPointer := applyPointers vs.compactPointer edit }
  let number := vs.manifestFileNumber
  let (s, w, file) := vs.descriptor name io disk
  let (s, w, file) := if s = .ok then writeEdit w file edit else (s, w, file)
  match vs.descriptorLog with
  | some _ =>
    let disk := disk.put number file.contents
    if s = .ok then
      (s, { vs with
        current := v, logNumber := edit.logNumber.getD 0
        prevLogNumber := edit.prevLogNumber.getD 0, descriptorLog := some w }, disk)
    else (s, { vs with descriptorLog := some w }, disk)
  | none =>
    let s := if s = .ok then io.setCurrent else s
    if s = .ok then
      (s, { vs with
        current := v, logNumber := edit.logNumber.getD 0
        prevLogNumber := edit.prevLogNumber.getD 0, descriptorLog := some w },
        (disk.put number file.contents).setCurrent number)
    else (s, vs, disk.remove number)

/-! ## Recovery -/

/-- The local state of `Recover`. -/
structure Replay where
  status : Status
  builder : Builder
  compactPointer : Nat → Option InternalKey
  logNumber : Option Nat
  prevLogNumber : Option Nat
  nextFile : Option Nat
  lastSequence : Option Nat

/-- `Recover` before its loop. -/
def Replay.new (vs : VersionSet) : Replay :=
  ⟨.ok, Builder.new vs.current, vs.compactPointer, none, none, none, none⟩

/-- `LogReporter::Corruption` for the reports of the reader: the first one stays. -/
def Replay.reported (s : Replay) (reports : List Report) : Replay :=
  { s with status := reports.foldl (fun st report => if st = .ok then report.2 else st) s.status }

/-- A byte string in a message. -/
def text (s : Slice) : String := String.ofList (s.map fun b => Char.ofNat b.toNat)

/-- The status of an edit: `DecodeFrom`, then the name of the comparator. -/
def editStatus (name : Slice) (decoded : VersionEdit × Status) : Status :=
  if decoded.2 = .ok then
    match decoded.1.comparator with
    | none => .ok
    | some c =>
      if c ≠ name then
        .invalidArgument (text c ++ " does not match existing comparator : " ++ text name)
      else .ok
  else decoded.2

/-- The body of the loop of `Recover`.  The numbers of an edit are taken over even
    if the edit is refused. -/
def Replay.apply (name : Slice) (s : Replay) (record : Slice) : Replay :=
  let decoded := decodeFrom record
  let status := editStatus name decoded
  let edit := decoded.1
  { status := status
    builder := if status = .ok then s.builder.apply edit else s.builder
    compactPointer := if status = .ok then applyPointers s.compactPointer edit else s.compactPointer
    logNumber := edit.logNumber.or s.logNumber
    prevLogNumber := edit.prevLogNumber.or s.prevLogNumber
    nextFile := edit.nextFileNumber.or s.nextFile
    lastSequence := edit.lastSequence.or s.lastSequence }

/-- The loop of `Recover`, at most `n` times. -/
def replayLoop (name : Slice) : Nat → Reader → Replay → Replay
  | 0, _, s => s
  | n + 1, r, s =>
    let (record, r') := r.readRecord
    let s := s.reported (r'.reports.drop r.reports.length)
    match record with
    | none => s
    | some record => if s.status = .ok then replayLoop name n r' (s.apply name record) else s

/-- What `Recover` checks after its loop. -/
def Replay.check (s : Replay) : Status :=
  if s.status ≠ .ok then s.status
  else if s.nextFile = none then .corruption "no meta-nextfile entry in descriptor"
  else if s.logNumber = none then .corruption "no meta-lognumber entry in descriptor"
  else if s.lastSequence = none then .corruption "no last-sequence-number entry in descriptor"
  else .ok

/-- The version set `Recover` installs.  The file numbers it marked as used before
    have no effect: `next_file_number_` is set afterwards. -/
def Replay.install (s : Replay) : VersionSet where
  current := s.builder.saveTo
  compactPointer := s.compactPointer
  nextFileNumber := s.nextFile.getD 0 + 1
  manifestFileNumber := s.nextFile.getD 0
  lastSequence := s.lastSequence.getD 0
  logNumber := s.logNumber.getD 0
  prevLogNumber := s.prevLogNumber.getD 0
  descriptorLog := none

/-- What `Recover` reads of `Options`. -/
structure ManifestOptions where
  reuseLogs : Bool
  maxFileSize : Nat

/-- `VersionSet::ReuseManifest`, when the file can be opened: a MANIFEST that is
    not too large is used further. -/
def VersionSet.reuseManifest (o : ManifestOptions) (vs : VersionSet) (number : Nat) (file : Slice) :
    Bool × VersionSet :=
  if o.reuseLogs = true ∧ file.length < o.maxFileSize then
    (true, { vs with manifestFileNumber := number, descriptorLog := some (Writer.resume file.length) })
  else (false, vs)

/-- The edits of a MANIFEST, folded by `Recover`; every record takes bytes, so the
    loop ends by itself. -/
def replay (name : Slice) (vs : VersionSet) (file : Slice) : Replay :=
  replayLoop name (file.length + 1) (Reader.new ⟨file, none⟩ true 0) (Replay.new vs)

/-- `VersionSet::Recover`; the last component is `save_manifest`. -/
def VersionSet.recover (o : ManifestOptions) (name : Slice) (vs : VersionSet) (disk : Manifests) :
    Status × VersionSet × Bool :=
  match disk.current with
  | none => (.notFound "CURRENT", vs, false)
  | some number =>
    match disk.files number with
    | none => (.corruption "CURRENT points to a non-existent file", vs, false)
    | some file =>
      let s := replay name vs file
      if s.check = .ok then
        let (reused, vs) := s.install.reuseManifest o number file
        (.ok, vs, !reused)
      else (s.check, vs, false)

end LdbVersionSet
