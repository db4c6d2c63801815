import LevelDB.Running

/-! # Crashes and range deletions over whole runs

    Runs of processes on one directory: each may end between any two of its steps,
    or while it opens the database, and the next one takes over the directory.

    * `tombstones_kept`: in every state of every run the range deletions are the
      committed ones.
    * `open_recovers`: the process after a crash holds the entries of the one
      before it, and the batch group that one had logged. -/

namespace LdbCrash

open LdbFormat LdbVersion LdbLog LdbTable LdbDb LdbInv LdbVersionSet LdbManifest LdbRecovery
open LdbDurable LdbStored LdbRecoverable LdbOpening LdbRunning

variable {o : Options} {name : Slice}

/-! ## A new database -/

/-- What `NewDB` leaves. -/
def newView (name : Slice) : View :=
  ⟨{ VersionSet.new with manifestFileNumber := 2, nextFileNumber := 3 }, 1, [newDBEdit name], 2, 0,
    [], 0, []⟩

theorem recoverable_newDisk (hname : name.length < 2 ^ 32) :
    Recoverable name (newDisk name) [] (fun _ => False) (newView name) where
  consistent := consistent_newDB hname
  descends := ⟨nofun, nofun⟩
  prev := rfl
  noLog := rfl
  listed := ⟨nofun, nofun,
    fun _ => List.Pairwise.nil, fun _ _ => rfl⟩
  tables _ _ hf := nomatch hf
  points _ _ hf := nomatch hf
  needed := by
    refine ⟨List.Pairwise.nil, fun n file => ⟨nofun, ?_⟩⟩
    rintro ⟨hlook, -⟩
    cases hlook
  start := Nat.le_refl _
  logs := LogsHold.nil 0
  contents e := by
    refine ⟨False.elim, ?_⟩
    rintro (⟨l, f, hf, -⟩ | he)
    · cases hf
    · cases he
  complete := by
    refine ⟨fun e he => he.elim, fun e he _ => ?_⟩
    obtain ⟨i, op, hi, -⟩ := he
    cases hi
  bound := Nat.zero_le _
  recorded := Nat.le_refl _
  counted := Or.inl rfl

variable {h : List Op}

/-- `Open` without logs hands out one number for its own log, after the one
    `Recover` has kept for a MANIFEST. -/
theorem openDB_next {oo : OpenOptions} {d : Disk} {S : Entry → Prop} {w : View}
    (hr : Recoverable name d h S w) (hls : w.ls = []) :
    (openDB oo name d).vs.nextFileNumber = w.next + 2 := by
  obtain ⟨v₀, save, hrec, hv, -⟩ := reopened hr oo.manifest
  have hmissing := missing_eq_nil hr
  rw [← hv.current] at hmissing
  have hlogs : d.neededLogs v₀ = [] := by
    rw [← hls]
    exact neededLogs_eq (hv.logNumber.symm ▸ hr.needed) hv.prev hr.noLog
  have heq : LdbDurable.recover oo name d = ⟨.ok, v₀, {}, save, 0, none, 0, Writer.new, []⟩ := by
    rw [LdbDurable.recover, hrec]
    simp only [hmissing, hlogs, ne_eq, not_true_eq_false, if_false, Opening.recoverLogs]
    exact if_neg fun hc => Nat.not_lt_zero _ hc.2
  rw [openDB, heq, if_pos rfl, Opening.logEdit]
  split
  · show (VersionSet.logAndApply name {} _ _ _).2.1.nextFileNumber = _
    rw [logAndApply_next, Opening.createLog]
    show v₀.nextFileNumber + 1 = _
    rw [hv.next]
  · show v₀.nextFileNumber + 1 = _
    rw [hv.next]

/-! ## Runs -/

/-- A process that dies while it opens the database leaves it recoverable. -/
theorem recoverable_crashed (hname : name.length < 2 ^ 32)
    (hsize : ∀ es, o.finishedSize es < 2 ^ 64) {d d' : Disk} {S : Entry → Prop}
    {w : View} (hr : Recoverable name d h S w) (hc : Crashed o name d d') :
    ∃ w', Recoverable name d' h S w' := by
  induction hc with
  | here => exact ⟨w, hr⟩
  | opening ro k _ hroom ih =>
    obtain ⟨w', hr'⟩ := ih
    exact (openDB_spec hname hsize hr' hroom).prefixes k

/-- **Every process of every run agrees with its directory.** -/
theorem live_reach (hname : name.length < 2 ^ 32) (hsize : ∀ es, o.finishedSize es < 2 ^ 64)
    {p : Process} {d : Disk} (hreach : LdbDurable.Reach o name p d h) :
    ∃ w, Live o name p d h w := by
  induction hreach with
  | create ro =>
    have hr := recoverable_newDisk hname
    refine (openDB_spec (o := ⟨o, ro⟩) hname hsize hr ?_).live
    rw [openDB_next hr rfl]
    show 2 + 2 < 2 ^ 64
    decide
  | step _ hstep ih =>
    obtain ⟨w, hl⟩ := ih
    exact live_step hl hstep
  | reopen ro _ hcrash hroom ih =>
    obtain ⟨w, hl⟩ := ih
    obtain ⟨w', hr⟩ := recoverable_crashed hname hsize hl.recoverable hcrash
    exact (openDB_spec hname hsize hr hroom).live

/-- A sequence of steps from a state, with the operations committed before. -/
def run (o : Options) (name : Slice) : Process × Disk × List Op → List LdbDurable.Action →
    Option (Process × Disk × List Op)
  | q, [] => some q
  | (p, d, h), a :: rest =>
    match LdbDurable.step o name p d a with
    | none => none
    | some (p', d') => run o name (p', d', h ++ a.ops p) rest

theorem reach_run (as : List LdbDurable.Action) :
    ∀ {p p' : Process} {d d' : Disk} {h h' : List Op}, LdbDurable.Reach o name p d h →
      run o name (p, d, h) as = some (p', d', h') → LdbDurable.Reach o name p' d' h' := by
  induction as with
  | nil =>
    intro p p' d d' h h' hr hrun
    cases hrun
    exact hr
  | cons a rest ih =>
    intro p p' d d' h h' hr hrun
    rw [run] at hrun
    split at hrun
    · cases hrun
    · rename_i hstep
      exact ih (hr.step hstep) hrun

/-- Options for samples: tables of one byte, no log is used further. -/
def sampleOptions : OpenOptions :=
  ⟨⟨2 * 1024 * 1024, List.length, fun _ => 1⟩, ⟨true, false, 4096, fun m => m.table.length⟩⟩

theorem sampleOptions_size (es : List Entry) : sampleOptions.db.finishedSize es < 2 ^ 64 := by
  show 1 < 2 ^ 64
  decide

/-- The first process of a sample, after some steps. -/
def sampleRun (as : List LdbDurable.Action) : Option (Process × Disk × List Op) :=
  let s := openDB sampleOptions [108] (newDisk [108])
  let d := (newDisk [108]).applyAll s.ops
  run sampleOptions.db [108] (s.process d, d, []) as

theorem reach_sampleRun {as : List LdbDurable.Action} {p : Process} {d : Disk}
    (hrun : sampleRun as = some (p, d, h)) : LdbDurable.Reach sampleOptions.db [108] p d h :=
  reach_run as (LdbDurable.Reach.create sampleOptions.recovery) hrun

/-- **No file in use is removed**: in every state of every run the directory holds the
    tables of the current version and of the inputs of a running compaction, as the
    process has them, and the log it writes. -/
theorem files_in_use_kept (hname : name.length < 2 ^ 32)
    (hsize : ∀ es, o.finishedSize es < 2 ^ 64) {p : Process} {d : Disk}
    (hreach : LdbDurable.Reach o name p d h) :
    (∀ l, ∀ f ∈ p.db.current.files l, d.tables f.number = some (p.db.tables f.number))
      ∧ (∀ r ∈ p.db.running, ∀ x ∈ r.compaction.inputs,
          d.tables x.number = some (p.db.tables x.number))
      ∧ d.logs.lookup p.logFileNumber ≠ none := by
  obtain ⟨w, hl⟩ := live_reach hname hsize hreach
  refine ⟨hl.tables, fun r hr x hx => ?_, ?_⟩
  · have hp := hl.core.pending r hr
    rcases List.mem_append.mp hx with hx | hx
    · exact hl.tables _ x (hp.sub0 x hx)
    · exact hl.tables _ x (hp.sub1 x hx)
  · have hlog := (hl.logged.needed.mem _ _).mp (List.mem_append_right _ List.mem_cons_self)
    rw [hlog.1]
    exact Option.some_ne_none _

/-- Two tables are being compacted, an output is open, and both flushed logs have been
    removed. -/
theorem files_in_use_kept_compacting :
    ∃ p d h, LdbDurable.Reach sampleOptions.db [108] p d h
      ∧ (p.db.running.map fun r => r.compaction.inputs.length) = some 2
      ∧ (∀ l, ∀ f ∈ p.db.current.files l, d.tables f.number = some (p.db.tables f.number))
      ∧ (∀ r ∈ p.db.running, ∀ x ∈ r.compaction.inputs,
          d.tables x.number = some (p.db.tables x.number))
      ∧ d.logs.lookup p.logFileNumber ≠ none := by
  have hsample : (sampleRun [.appendLog [.put [1] [7]], .insertBatch, .switchMemTable, .buildTable,
      .installTable, .removeLog 3, .appendLog [.put [1] [8]], .insertBatch, .switchMemTable,
      .buildTable, .installTable, .removeLog 4, .manualCompaction 1 none none false,
      .openOutput]).any (fun q => decide
        ((q.1.db.running.map fun r => r.compaction.inputs.length) = some 2)) = true := by
    decide +kernel
  obtain ⟨⟨p, d, h⟩, hrun, hcheck⟩ := (Option.any_eq_true _ _).mp hsample
  have hreach := reach_sampleRun hrun
  exact ⟨p, d, h, hreach, of_decide_eq_true hcheck,
    files_in_use_kept (by decide) sampleOptions_size hreach⟩

/-- **No range deletion is lost or invented**, over writes, flushes, moves, all
    kinds of compactions, and processes that end and start again. -/
theorem tombstones_kept (hname : name.length < 2 ^ 32) (hsize : ∀ es, o.finishedSize es < 2 ^ 64)
    {p : Process} {d : Disk} {h : List Op} (hreach : LdbDurable.Reach o name p d h)
    (del : RangeDeletion) : del ∈ getRangeDeletions p.db ↔ CommittedDel h del := by
  obtain ⟨w, hl⟩ := live_reach hname hsize hreach
  exact LdbCore.mem_getRangeDeletions hl.core

/-- The directory of a sample, opened again. -/
def sampleReopened (d : Disk) : Opening := openDB sampleOptions [108] d

/-- A range deletion is flushed and its process ends; the next one has it in a
    table. -/
theorem tombstones_kept_reopened :
    ∃ p d, LdbDurable.Reach sampleOptions.db [108] p d [.put [1] [7], .deleteRange [1] [5]]
      ∧ p.db.mem.rangeDeletions = []
      ∧ ∀ del, del ∈ getRangeDeletions p.db
          ↔ CommittedDel [.put [1] [7], .deleteRange [1] [5]] del := by
  have hsample : (sampleRun [.appendLog [.put [1] [7], .deleteRange [1] [5]], .insertBatch,
      .switchMemTable, .buildTable, .installTable]).any (fun q => decide
        (q.2.2 = [.put [1] [7], .deleteRange [1] [5]] ∧ q.1.inflight = none
          ∧ (sampleReopened q.2.1).vs.nextFileNumber < 2 ^ 64
          ∧ ((sampleReopened q.2.1).process
              (q.2.1.applyAll (sampleReopened q.2.1).ops)).db.mem.rangeDeletions = [])) = true := by
    decide +kernel
  obtain ⟨⟨p, d, h⟩, hrun, hcheck⟩ := (Option.any_eq_true _ _).mp hsample
  obtain ⟨hh, hidle, hroom, hmem⟩ := of_decide_eq_true hcheck
  have hreach := (reach_sampleRun hrun).reopen sampleOptions.recovery Crashed.here hroom
  simp only at hh hidle
  rw [hidle, hh] at hreach
  exact ⟨_, _, hreach, hmem, tombstones_kept (by decide) sampleOptions_size hreach⟩

/-- **Crash recovery keeps exactly the acknowledged writes.**  Whenever the process
    ends, and however many processes die while they open the database, `Open`
    succeeds, its memtable and tables hold the entries of the process and the batch
    group it had logged, and no entry is newer than `LastSequence`. -/
theorem open_recovers (hname : name.length < 2 ^ 32) (hsize : ∀ es, o.finishedSize es < 2 ^ 64)
    {p : Process} {d d' : Disk} {h : List Op} (hreach : LdbDurable.Reach o name p d h)
    (hcrash : Crashed o name d d') (ro : RecoveryOptions)
    (hroom : (openDB ⟨o, ro⟩ name d').vs.nextFileNumber < 2 ^ 64) :
    (openDB ⟨o, ro⟩ name d').status = .ok
      ∧ (∀ e, Has ((openDB ⟨o, ro⟩ name d').process
            (d'.applyAll (openDB ⟨o, ro⟩ name d').ops)).db e
          ↔ Has p.db e ∨ e ∈ opEntries (p.inflight.getD []) (p.db.lastSequence + 1))
      ∧ ∀ e, Has ((openDB ⟨o, ro⟩ name d').process
            (d'.applyAll (openDB ⟨o, ro⟩ name d').ops)).db e →
          e.key.sequence ≤ (openDB ⟨o, ro⟩ name d').vs.lastSequence := by
  obtain ⟨w, hl⟩ := live_reach hname hsize hreach
  obtain ⟨w', hr⟩ := recoverable_crashed hname hsize hl.recoverable hcrash
  have hopen := openDB_spec hname hsize hr hroom
  rw [← hl.core.length] at hopen
  refine ⟨hopen.status, hopen.has, fun e he => ?_⟩
  obtain ⟨w'', hl''⟩ := hopen.live
  obtain ⟨i, op, hi, rfl⟩ := (complete_of_core hl''.core).committed e he
  have hlen : (openDB ⟨o, ro⟩ name d').vs.lastSequence = _ := hl''.core.length
  rw [hlen]
  have hlt := (List.getElem?_eq_some_iff.mp hi).1
  cases op with
  | put key value => exact hlt
  | delete key => exact hlt
  | deleteRange a b => exact hlt

/-- A process ends with a put in its memtable and a delete only in its log; both
    are there afterwards. -/
theorem open_recovers_inflight :
    ∃ p d, LdbDurable.Reach sampleOptions.db [108] p d [.put [1] [7]]
      ∧ p.inflight = some [.delete [3]]
      ∧ (sampleReopened d).status = .ok
      ∧ (∀ e, Has ((sampleReopened d).process (d.applyAll (sampleReopened d).ops)).db e
          ↔ Has p.db e ∨ e ∈ opEntries (p.inflight.getD []) (p.db.lastSequence + 1))
      ∧ ∀ e, Has ((sampleReopened d).process (d.applyAll (sampleReopened d).ops)).db e →
          e.key.sequence ≤ (sampleReopened d).vs.lastSequence := by
  have hsample : (sampleRun [.appendLog [.put [1] [7]], .insertBatch,
      .appendLog [.delete [3]]]).any (fun q => decide
        (q.2.2 = [.put [1] [7]] ∧ q.1.inflight = some [.delete [3]]
          ∧ (sampleReopened q.2.1).vs.nextFileNumber < 2 ^ 64)) = true := by
    decide +kernel
  obtain ⟨⟨p, d, h⟩, hrun, hcheck⟩ := (Option.any_eq_true _ _).mp hsample
  obtain ⟨hh, hinflight, hroom⟩ := of_decide_eq_true hcheck
  have hreach := reach_sampleRun hrun
  simp only at hh hinflight
  rw [hh] at hreach
  exact ⟨p, d, hreach, hinflight, open_recovers (by decide) sampleOptions_size hreach Crashed.here
    sampleOptions.recovery hroom⟩

end LdbCrash
