import LevelDB.CompactionWork

/-! # The database as a state machine

    `DBImpl` (`db/db_impl.cc`) as it runs with the mutex held: writes, memtable
    switches, snapshots, memtable flushes (`CompactMemTable`, also while a
    compaction is running), and background compactions in three steps: pick,
    open outputs, install.  No call fails.

    `step` is executable; `Reach` collects the states of all runs whose steps
    meet a condition, together with the operations committed so far. -/

namespace LdbDb

open Tiered LdbFormat LdbVersion LdbEdit LdbTable LdbCompaction LdbWork

/-- A compaction between `MakeInputIterator` and `InstallCompactionResults`. -/
structure Running where
  compaction : Compaction
  inputVersion : Version
  smallestSnapshot : Nat
  outputNumbers : List Nat

/-- The state guarded by `DBImpl::mutex_`, with the tables on disk. -/
structure DB where
  mem : MemTable
  imm : Option MemTable
  current : Version
  tables : Nat → Table
  nextFileNumber : Nat
  lastSequence : Nat
  snapshots : List Nat
  compactPointer : Nat → Option InternalKey
  running : Option Running

/-- A new database; file number 2 is its first free one. -/
def DB.init : DB where
  mem := MemTable.empty
  imm := none
  current := Version.empty
  tables := fun _ => ⟨[], []⟩
  nextFileNumber := 2
  lastSequence := 0
  snapshots := []
  compactPointer := fun _ => none
  running := none

/-! ## Flushing a memtable -/

/-- The widening loop of `WriteLevel0Table` for one range deletion. -/
def widenBounds [UserComparator] (f : FileMetaData) (del : RangeDeletion) : FileMetaData where
  number := f.number
  fileSize := f.fileSize
  smallest :=
    if userCompare del.startKey f.smallest.userKey = .lt then ⟨del.startKey, del.seq, .rangeDeletion⟩
    else f.smallest
  largest :=
    if userCompare del.endKey f.largest.userKey = .gt then ⟨del.endKey, 0, .deletion⟩ else f.largest

/-- `WriteLevel0Table`: the new file with its table and level, or nothing for an
    empty memtable. -/
def writeLevel0Table [UserComparator] (o : Options) (base : Version) (number : Nat)
    (m : MemTable) : Option (FileMetaData × Table × Nat) :=
  match buildTable o number m.table with
  | none => none
  | some (f, t) =>
    let f := m.rangeDeletions.foldl widenBounds f
    some (f, t, base.pickLevelForMemTableOutput o f.smallest.userKey f.largest.userKey)

/-- `CompactMemTable` on the immutable memtable. -/
def DB.compactMemTable [UserComparator] (o : Options) (db : DB) (m : MemTable) : DB :=
  match writeLevel0Table o db.current db.nextFileNumber m with
  | none => { db with imm := none, nextFileNumber := db.nextFileNumber + 1 }
  | some (f, t, level) =>
    { db with
      imm := none
      nextFileNumber := db.nextFileNumber + 1
      tables := Function.update db.tables f.number t
      current := applyEdit db.current (({} : VersionEdit).addFile level f) }

theorem DB.compactMemTable_none {o : Options} {db : DB} {m : MemTable}
    (h : writeLevel0Table o db.current db.nextFileNumber m = none) :
    db.compactMemTable o m = { db with imm := none, nextFileNumber := db.nextFileNumber + 1 } := by
  rw [DB.compactMemTable, h]

theorem DB.compactMemTable_some {o : Options} {db : DB} {m : MemTable} {f : FileMetaData}
    {t : Table} {level : Nat}
    (h : writeLevel0Table o db.current db.nextFileNumber m = some (f, t, level)) :
    db.compactMemTable o m =
      { db with
        imm := none
        nextFileNumber := db.nextFileNumber + 1
        tables := Function.update db.tables f.number t
        current := applyEdit db.current (({} : VersionEdit).addFile level f) } := by
  rw [DB.compactMemTable, h]

/-! ## Compactions -/

/-- `smallest_snapshot` as `DoCompactionWork` reads it. -/
def DB.smallestSnapshot (db : DB) : Nat := db.snapshots.head?.getD db.lastSequence

/-- The edit of a trivial move. -/
def moveEdit (c : Compaction) (f : FileMetaData) : VersionEdit :=
  (({} : VersionEdit).removeFile c.level f.number).addFile (c.level + 1) f

/-- The rest of `BackgroundCompaction` once inputs are picked: a trivial move, or
    the start of the compaction work. -/
def DB.startCompaction (o : Options) (db : DB) (c : Compaction) (mayMove : Bool) : DB :=
  let db := { db with compactPointer := Function.update db.compactPointer c.level (some c.largest) }
  match c.inputs0, mayMove && c.isTrivialMove o with
  | [f], true => { db with current := applyEdit db.current (moveEdit c f) }
  | _, _ => { db with running := some ⟨c, db.current, db.smallestSnapshot, []⟩ }

/-- The two outcomes of a picked compaction. -/
theorem DB.startCompaction_cases (o : Options) (db : DB) (c : Compaction) (mayMove : Bool) :
    (∃ f, c.inputs0 = [f] ∧ c.isTrivialMove o = true ∧ mayMove = true
      ∧ db.startCompaction o c mayMove = { db with
          compactPointer := Function.update db.compactPointer c.level (some c.largest)
          current := applyEdit db.current (moveEdit c f) })
    ∨ db.startCompaction o c mayMove = { db with
        compactPointer := Function.update db.compactPointer c.level (some c.largest)
        running := some ⟨c, db.current, db.smallestSnapshot, []⟩ } := by
  rw [DB.startCompaction]
  split
  · rename_i f h0 hmove
    rw [Bool.and_eq_true] at hmove
    exact Or.inl ⟨f, h0, hmove.2, hmove.1, rfl⟩
  · exact Or.inr rfl

/-- An empty `InternalKey`. -/
def emptyKey : InternalKey := ⟨[], 0, .deletion⟩

/-- The metadata of an output under its number. -/
def outputFile (o : Options) (out : Output) (number : Nat) : FileMetaData :=
  ⟨number, o.finishedSize out.adds, out.smallest.getD emptyKey, out.largest.getD emptyKey⟩

/-- The work of a running compaction; the input tables are those on disk. -/
def DB.job (db : DB) (r : Running) : Job :=
  ⟨r.compaction, r.inputVersion, db.tables, r.smallestSnapshot⟩

/-- The outputs of a running compaction with the numbers they were opened under. -/
def DB.outputs (o : Options) (db : DB) (r : Running) : List (Output × Nat) :=
  ((db.job r).doCompactionWork o).zip r.outputNumbers

/-- The metadata of these outputs. -/
def DB.outputFiles (o : Options) (db : DB) (r : Running) : List FileMetaData :=
  (db.outputs o r).map fun p => outputFile o p.1 p.2

/-- The edit of `InstallCompactionResults`. -/
def installEdit (o : Options) (c : Compaction) (outs : List (Output × Nat)) : VersionEdit :=
  outs.foldl (fun e p => e.addFile (c.level + 1) (outputFile o p.1 p.2))
    (c.addInputDeletions {})

/-- `InstallCompactionResults`, with the output tables on disk. -/
def DB.installResults (o : Options) (db : DB) (r : Running) : DB :=
  { db with
    running := none
    tables := (db.outputs o r).foldl
      (fun t p => Function.update t p.2 (tableOfAdds p.1.adds)) db.tables
    current := applyEdit db.current (installEdit o r.compaction (db.outputs o r)) }

section InstallResults

variable (o : Options) (db : DB) (r : Running)

-- everything but the version, the tables and the running compaction stays

@[simp] theorem DB.installResults_mem : (db.installResults o r).mem = db.mem := by
  rw [DB.installResults]

@[simp] theorem DB.installResults_imm : (db.installResults o r).imm = db.imm := by
  rw [DB.installResults]

@[simp] theorem DB.installResults_nextFileNumber :
    (db.installResults o r).nextFileNumber = db.nextFileNumber := by
  rw [DB.installResults]

@[simp] theorem DB.installResults_lastSequence :
    (db.installResults o r).lastSequence = db.lastSequence := by
  rw [DB.installResults]

@[simp] theorem DB.installResults_snapshots :
    (db.installResults o r).snapshots = db.snapshots := by
  rw [DB.installResults]

@[simp] theorem DB.installResults_running : (db.installResults o r).running = none := by
  rw [DB.installResults]

end InstallResults

/-! ## Steps and runs -/

/-- The atomic steps of the database. -/
inductive Action where
  | write (batch : List Op)
  | switchMemTable
  | getSnapshot
  | releaseSnapshot (s : Nat)
  | compactMemTable
  | autoCompaction (t : Trigger)
  | manualCompaction (level : Nat) (begin_ end_ : Option InternalKey) (forceFull : Bool)
  | openOutput
  | installResults
  deriving DecidableEq, Repr

/-- The operations an action commits. -/
def Action.ops : Action → List Op
  | .write batch => batch
  | _ => []

/-- One step; `none` when the action is not enabled.  `PackSequenceAndType`
    asserts that sequence numbers fit into 56 bits. -/
def step (o : Options) (db : DB) : Action → Option DB
  | .write batch =>
    if db.lastSequence + batch.length ≤ kMaxSequenceNumber then
      some { db with
        mem := insertInto batch (db.lastSequence + 1) db.mem
        lastSequence := db.lastSequence + batch.length }
    else none
  | .switchMemTable =>
    match db.imm with
    | some _ => none
    | none => some { db with
        imm := some db.mem
        mem := MemTable.empty
        -- the new log file takes a number
        nextFileNumber := db.nextFileNumber + 1 }
  | .getSnapshot => some { db with snapshots := db.snapshots ++ [db.lastSequence] }
  | .releaseSnapshot s => some { db with snapshots := db.snapshots.erase s }
  | .compactMemTable =>
    match db.imm with
    | none => none
    | some m => some (db.compactMemTable o m)
  | .autoCompaction t =>
    match db.imm, db.running, pickCompaction o db.current db.compactPointer t with
    | none, none, some c => some (db.startCompaction o c true)
    | _, _, _ => none
  | .manualCompaction level b e forceFull =>
    if level + 1 < kNumLevels then
      match db.imm, db.running, compactRange o db.current level b e with
      | none, none, some c => some (db.startCompaction o c forceFull)
      | _, _, _ => none
    else none
  | .openOutput =>
    match db.running with
    | none => none
    | some r => some { db with
        running := some { r with outputNumbers := r.outputNumbers ++ [db.nextFileNumber] }
        nextFileNumber := db.nextFileNumber + 1 }
  | .installResults =>
    match db.running with
    | none => none
    | some r =>
      if r.outputNumbers.length = ((db.job r).doCompactionWork o).length then
        some (db.installResults o r)
      else none

/-- The compaction an action picks, and whether it may end as a trivial move. -/
def Picks (o : Options) (db : DB) (c : Compaction) (mayMove : Bool) : Action → Prop
  | .autoCompaction t =>
    pickCompaction o db.current db.compactPointer t = some c ∧ mayMove = true
  | .manualCompaction level b e forceFull =>
    level + 1 < kNumLevels ∧ compactRange o db.current level b e = some c ∧ mayMove = forceFull
  | _ => False

theorem Picks.ops {o : Options} {db : DB} {c : Compaction} {mayMove : Bool} {a : Action}
    (h : Picks o db c mayMove a) : a.ops = [] := by
  cases a with
  | write batch => exact absurd h id
  | _ => rfl

/-- **What an enabled step does.** -/
inductive Steps (o : Options) (db : DB) : Action → DB → Prop
  | write (batch : List Op) (hle : db.lastSequence + batch.length ≤ kMaxSequenceNumber) :
      Steps o db (.write batch) { db with
        mem := insertInto batch (db.lastSequence + 1) db.mem
        lastSequence := db.lastSequence + batch.length }
  | switchMemTable (himm : db.imm = none) : Steps o db .switchMemTable { db with
        imm := some db.mem
        mem := MemTable.empty
        nextFileNumber := db.nextFileNumber + 1 }
  | getSnapshot : Steps o db .getSnapshot { db with
        snapshots := db.snapshots ++ [db.lastSequence] }
  | releaseSnapshot (s : Nat) : Steps o db (.releaseSnapshot s) { db with
        snapshots := db.snapshots.erase s }
  | compactMemTable (m : MemTable) (hm : db.imm = some m) :
      Steps o db .compactMemTable (db.compactMemTable o m)
  | start {a : Action} {c : Compaction} {mayMove : Bool} (hrun : db.running = none)
      (hpick : Picks o db c mayMove a) : Steps o db a (db.startCompaction o c mayMove)
  | openOutput (r : Running) (hr : db.running = some r) : Steps o db .openOutput { db with
        running := some { r with outputNumbers := r.outputNumbers ++ [db.nextFileNumber] }
        nextFileNumber := db.nextFileNumber + 1 }
  | installResults (r : Running) (hr : db.running = some r)
      (hlen : r.outputNumbers.length = ((db.job r).doCompactionWork o).length) :
      Steps o db .installResults (db.installResults o r)

theorem steps_of_step {o : Options} {db db' : DB} {a : Action} (h : step o db a = some db') :
    Steps o db a db' := by
  unfold step at h
  -- one goal for each way through `step`; those that end in `none` are closed by `cases`
  split at h <;> (try split at h) <;> (try split at h) <;> cases h
  · exact .write _ (by assumption)
  · exact .switchMemTable (by assumption)
  · exact .getSnapshot
  · exact .releaseSnapshot _
  · exact .compactMemTable _ (by assumption)
  · exact .start (by assumption) ⟨by assumption, rfl⟩
  · exact .start (by assumption) ⟨by assumption, by assumption, rfl⟩
  · exact .openOutput _ (by assumption)
  · exact .installResults _ (by assumption) (by assumption)

/-- The install step spelled out. -/
theorem step_installResults {o : Options} {db db' : DB}
    (h : step o db .installResults = some db') :
    ∃ r, db.running = some r
      ∧ r.outputNumbers.length = ((db.job r).doCompactionWork o).length
      ∧ db' = db.installResults o r := by
  cases steps_of_step h with
  | start hrun hpick => exact absurd hpick id
  | installResults r hr hlen => exact ⟨r, hr, hlen, rfl⟩

/-- The states reached by runs whose steps all meet `P`, with the operations
    committed in order: operation number `i` carries sequence `i + 1`. -/
inductive Reach (o : Options) (P : DB → Action → Prop) : DB → List Op → Prop
  | init : Reach o P DB.init []
  | step {db db' : DB} {h : List Op} {a : Action} : Reach o P db h → P db a →
      step o db a = some db' → Reach o P db' (h ++ a.ops)

/-- A sequence of actions, if each is enabled and meets `P`. -/
def run (o : Options) (P : DB → Action → Prop) [∀ db a, Decidable (P db a)] (db : DB) :
    List Action → Option DB
  | [] => some db
  | a :: rest =>
    if P db a then
      match step o db a with
      | none => none
      | some db' => run o P db' rest
    else none

/-- The operations of a sequence of actions. -/
def opsOf (as : List Action) : List Op := as.flatMap Action.ops

theorem Reach.run {o : Options} {P : DB → Action → Prop} [∀ db a, Decidable (P db a)]
    (as : List Action) :
    ∀ {db db' : DB} {h : List Op}, Reach o P db h → LdbDb.run o P db as = some db' →
      Reach o P db' (h ++ opsOf as) := by
  induction as with
  | nil =>
    intro db db' h hr hrun
    cases hrun
    rw [opsOf, List.flatMap_nil, List.append_nil]
    exact hr
  | cons a rest ih =>
    intro db db' h hr hrun
    rw [LdbDb.run] at hrun
    split_ifs at hrun with hp
    split at hrun
    · cases hrun
    · rename_i db₁ hstep
      have h1 := ih (Reach.step hr hp hstep) hrun
      rw [opsOf, List.flatMap_cons, ← List.append_assoc]
      exact h1

/-- Every state a run ends in is reachable. -/
theorem reach_of_run {o : Options} {P : DB → Action → Prop} [∀ db a, Decidable (P db a)]
    {as : List Action} {Q : DB → Prop} [∀ db, Decidable (Q db)]
    (h : (LdbDb.run o P DB.init as).any (fun db => decide (Q db)) = true) :
    ∃ db, Reach o P db (opsOf as) ∧ Q db := by
  obtain ⟨db, hdb, hq⟩ := (Option.any_eq_true _ _).mp h
  exact ⟨db, Reach.run as Reach.init hdb, of_decide_eq_true hq⟩

/-- Options with the default `max_file_size` where every `Add` takes one byte. -/
def sampleOptions : Options := ⟨2 * 1024 * 1024, List.length, List.length⟩

/-- Writing a batch and flushing it. -/
def flushOf (batch : List Op) : List Action := [.write batch, .switchMemTable, .compactMemTable]

/-! ## Reads -/

/-- `DBImpl::Get` of `key` at sequence `snapshot`; `none` is `NotFound`. -/
def DB.get [UserComparator] (db : DB) (key : Slice) (snapshot : Nat) : Option Slice :=
  firstAnswer (db.mem.get key snapshot ::
    ((db.imm.toList.map fun m => m.get key snapshot) ++
      (db.current.forEachOverlapping key (lookupKey key snapshot)).map fun p =>
        (db.tables p.2.number).internalGet key snapshot))

/-- `DBImpl::GetRangeDeletions`. -/
def getRangeDeletions (db : DB) : List RangeDeletion :=
  db.mem.rangeDeletions ++ db.imm.toList.flatMap (·.rangeDeletions)
    ++ (List.range kNumLevels).flatMap fun l =>
        (db.current.files l).flatMap fun f => (db.tables f.number).rangeDeletions

end LdbDb
