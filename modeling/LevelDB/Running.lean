import LevelDB.Opening

/-! # Steps of a running process

    Every step of a process keeps `Live`: logs, MANIFEST and tables go on to hold
    what the process holds.  A step that logs an edit is treated once for all
    edits (`commit_spec`), with what the edit has to satisfy in `Suits`. -/

namespace LdbRunning

open LdbFormat LdbVersion LdbEdit LdbEditCodec LdbLog LdbTable LdbCompaction LdbWork LdbDb LdbInv
open LdbSteps LdbVersionSet LdbManifest LdbDurable LdbContents LdbRecoverable LdbClosure

variable {o : Options} {name : Slice} {p p' : Process} {d d' : Disk} {h : List Op} {w : LiveView}

/-! ## The logs -/

/-- A step that neither touches the logs nor the memtables. -/
structure SameLogs (p p' : Process) (d d' : Disk) : Prop where
  logs : d'.logs = d.logs
  next : p.db.nextFileNumber ≤ p'.db.nextFileNumber
  logNumber : p'.logNumber = p.logNumber
  logFileNumber : p'.logFileNumber = p.logFileNumber
  log : p'.log = p.log
  inflight : p'.inflight = p.inflight
  imm : p'.db.imm = p.db.imm
  mem : p'.db.mem = p.db.mem

theorem SameLogs.logged (hs : SameLogs p p' d d') (hg : Logged p d h w) : Logged p' d' h w := by
  have hcur : w.current p' = w.current p := by
    rw [LiveView.current, LiveView.current, hs.logFileNumber]
  refine
    { noLog := hs.logs ▸ hg.noLog
      number := fun n hn => Nat.lt_of_lt_of_le (hg.number n (hs.logs ▸ hn)) hs.next
      needed := ?_
      old := hg.old
      imm := ?_
      seam := hg.seam
      split := hg.split
      start := hg.start
      mem := hs.mem ▸ hg.mem
      batches := ?_
      loggable := hg.loggable
      after := hs.log ▸ hg.after
      recorded := hg.recorded
      counted := ?_ }
  · rw [hs.logs, hs.logNumber, hcur]
    exact hg.needed
  · rw [hs.imm]
    exact hg.imm
  · rw [hs.inflight]
    exact hg.batches
  · rw [hs.inflight, hcur]
    exact hg.counted

/-- The group in flight is in the log. -/
theorem logged_counted (hg : Logged p d h w) :
    h.length = h.length + (p.inflight.getD []).length ∨ (w.current p).2 ≠ [] := by
  by_cases hin : p.inflight.getD [] = []
  · rw [hin]
    exact Or.inl rfl
  · refine Or.inr fun hnil => ?_
    have hflat := hg.batches
    rw [logBytes_eq_nil.mp hnil, List.flatten_nil] at hflat
    exact hin (List.append_eq_nil_iff.mp hflat.symm).2

/-- The sequence number that an edit records now. -/
theorem logged_recorded (hg : Logged p d h w) (m : Nat) (es : List VersionEdit) (next : Nat)
    (added : List (Nat × Nat)) :
    Logged p d h { w with m := m, es := es, next := next, recorded := h.length, added := added } := by
  refine { hg with recorded := Nat.le_refl _, counted := ?_ }
  rcases logged_counted hg with hc | hne
  · exact Or.inl hc
  · exact Or.inr ⟨w.current p, List.mem_append_right _ (List.mem_singleton.mpr rfl), hne⟩

/-- The current log. -/
theorem logged_lookup (hg : Logged p d h w) :
    d.logs.lookup p.logFileNumber = some (logBytes w.memStart w.batches)
      ∧ p.logNumber ≤ p.logFileNumber ∧ p.logFileNumber < p.db.nextFileNumber := by
  obtain ⟨hlook, hle⟩ := (hg.needed.mem _ _).mp
    (List.mem_append_right w.old (List.mem_singleton.mpr (rfl : w.current p = _)))
  exact ⟨hlook, hle, hg.number _ (by rw [hlook]; exact Option.some_ne_none _)⟩

variable {db : DB} {n : Nat} {edit : VersionEdit} {v : Version} {c : Compaction}

/-- A step that commits nothing keeps the database in order. -/
theorem core_step_idle {db' : DB} {a : LdbDb.Action} (hc : LdbCore.Core db h)
    (hstep : LdbDb.step o db a = some db') (ha : a.ops = []) : LdbCore.Core db' h := by
  have hcore := LdbCore.core_step hc hstep
  rw [ha, List.append_nil] at hcore
  exact hcore

/-! ## Writes -/

section

variable (hl : Live o name p d h w)
include hl

/-- A batch group goes to the log. -/
theorem live_appendLog {batch : List Op}
    (hstep : LdbDurable.step o name p d (.appendLog batch) = some (p', d')) :
    ∃ w', Live o name p' d' h w' := by
  rw [LdbDurable.step] at hstep
  split_ifs at hstep with hc
  obtain ⟨hidle, hbound, hlength, hstorable⟩ := hc
  have hg := hl.logged
  obtain ⟨hlook, -, -⟩ := logged_lookup hg
  have hflat := hg.flatten hidle
  have hseq : w.memStart + w.batches.flatten.length = p.db.lastSequence := by
    rw [hflat, hg.end_eq, hl.core.length]
  have hrecords : records w.memStart (w.batches ++ [batch])
      = records w.memStart w.batches ++ [LdbBatch.batchRep (p.db.lastSequence + 1) batch] := by
    rw [records_append, hseq]
    rfl
  obtain ⟨log', hafter, hadd⟩ :=
    hg.after.addRecord (LdbBatch.batchRep (p.db.lastSequence + 1) batch)
  rw [← hrecords] at hafter hadd
  rw [hlook, Option.getD_some, logBytes, hadd] at hstep
  cases hstep
  refine ⟨{ w with batches := w.batches ++ [batch] }, ?_⟩
  have hneeded := hg.needed.replace (logBytes w.memStart (w.batches ++ [batch]))
  refine { hl with logged := ?_ }
  refine
    { hg with
      noLog := ?_
      number := fun n hn => ?_
      needed := hneeded
      batches := ?_
      loggable := ?_
      after := hafter
      counted := ?_ }
  · by_cases h0 : 0 = p.logFileNumber
    · rw [← h0, hg.noLog] at hlook
      cases hlook
    · rw [AList.lookup_insert_ne h0]
      exact hg.noLog
  · by_cases hn' : n = p.logFileNumber
    · subst hn'
      exact hg.number _ (by rw [hlook]; exact Option.some_ne_none _)
    · rw [AList.lookup_insert_ne hn'] at hn
      exact hg.number n hn
  · show (w.batches ++ [batch]).flatten = h.drop w.memStart ++ batch
    rw [List.flatten_append, hflat, List.flatten_singleton]
  · refine ⟨?_, List.forall_mem_append.mpr ⟨hg.loggable.length, List.forall_mem_singleton.mpr hlength⟩,
      List.forall_mem_append.mpr ⟨hg.loggable.storable, List.forall_mem_singleton.mpr hstorable⟩⟩
    rw [List.flatten_append, List.flatten_singleton, List.length_append, ← Nat.add_assoc, hseq]
    exact hbound
  · refine Or.inr ⟨_, List.mem_append_right _ (List.mem_singleton.mpr rfl), fun hnil => ?_⟩
    have := logBytes_eq_nil.mp hnil
    simp at this

/-- A logged batch group goes to the memtable. -/
theorem live_insertBatch (hstep : LdbDurable.step o name p d .insertBatch = some (p', d')) :
    Live o name p' d' (h ++ p.inflight.getD []) w := by
  rw [LdbDurable.step] at hstep
  cases hin : p.inflight with
  | none =>
    rw [hin] at hstep
    cases hstep
  | some batch =>
    rw [hin] at hstep
    obtain ⟨db, hdb, heq⟩ := Option.map_eq_some_iff.mp hstep
    have hcore := LdbCore.core_step hl.core hdb
    rw [LdbDb.step] at hdb
    split_ifs at hdb with hle
    cases hdb
    cases heq
    have hg := hl.logged
    have hdrop : (h ++ batch).drop w.memStart = h.drop w.memStart ++ batch :=
      List.drop_append_of_le_length hg.start
    have himm : w.immStart ≤ h.length := by
      have := hg.seam
      have := hg.start
      omega
    refine { hl with core := hcore, consistent := ?_, logged := ?_ }
    · exact hl.consistent.mono (Nat.le_refl _) (p.db.lastSequence + batch.length)
    · refine
        { hg with
          split := ?_
          start := ?_
          mem := ?_
          batches := ?_
          recorded := ?_
          counted := ?_ }
      · rw [Option.getD_some, hdrop, List.drop_append_of_le_length himm, hg.split, List.append_assoc]
      · rw [List.length_append]
        exact Nat.le_add_right_of_le hg.start
      · show insertInto batch (p.db.lastSequence + 1) p.db.mem = _
        rw [Option.getD_some, hdrop, ← memOf_append, hg.end_eq, hl.core.length, hg.mem]
      · show w.batches.flatten = (h ++ batch).drop w.memStart ++ []
        rw [List.append_nil, hdrop, hg.batches, hin, Option.getD_some]
      · rw [List.length_append]
        exact Nat.le_add_right_of_le hg.recorded
      · have hcounted := hg.counted
        rw [hin, Option.getD_some, ← List.length_append] at hcounted
        exact hcounted

/-- A new memtable and a new log. -/
theorem live_switchMemTable (hstep : LdbDurable.step o name p d .switchMemTable = some (p', d')) :
    ∃ w', Live o name p' d' h w' := by
  rw [LdbDurable.step] at hstep
  split_ifs at hstep with hidle
  obtain ⟨db, hdb, heq⟩ := Option.map_eq_some_iff.mp hstep
  have hcore := core_step_idle hl.core hdb rfl
  rw [LdbDb.step] at hdb
  cases himm : p.db.imm with
  | some m =>
    rw [himm] at hdb
    cases hdb
  | none =>
    rw [himm] at hdb
    cases hdb
    cases heq
    have hg := hl.logged
    obtain ⟨-, hfirst, hlater⟩ := logged_lookup hg
    have hnone : w.immOps = [] := by
      rcases hg.imm with ⟨-, hnil⟩ | hsome
      · exact hnil
      · rw [himm] at hsome
        cases hsome
    have hstart : w.memStart = w.immStart := by
      rw [hg.seam, hnone]
      rfl
    have hflat := hg.flatten hidle
    have hlen := hg.end_eq
    have hbelow : ∀ q ∈ w.old ++ [w.current p], q.1 < p.db.nextFileNumber := by
      intro q hq
      obtain ⟨hlook, -⟩ := (hg.needed.mem q.1 q.2).mp hq
      exact hg.number q.1 (by rw [hlook]; exact Option.some_ne_none _)
    refine ⟨{ w with
      immStart := w.memStart
      immOps := h.drop w.memStart
      old := w.old ++ [w.current p]
      memStart := h.length
      batches := [] }, ?_⟩
    refine
      { hl with
        core := hcore
        consistent := ?_
        flushing := fun _ => Option.some_ne_none _
        flushed := fun hf => absurd himm (hl.flushing hf)
        logged := ?_ }
    · exact hl.consistent.mono (Nat.le_succ _) p.db.lastSequence
    · refine
        { noLog := ?_
          number := fun n hn => ?_
          needed := hg.needed.insert hbelow (Nat.le_trans hfirst hlater.le) []
          old := ?_
          imm := Or.inr (congrArg some hg.mem)
          seam := hlen.symm
          split := ?_
          start := Nat.le_refl _
          mem := ?_
          batches := ?_
          loggable := ⟨hl.core.bound, nofun, nofun⟩
          after := after_new
          recorded := hg.recorded
          counted := ?_ }
      · rw [AList.lookup_insert_ne (by omega)]
        exact hg.noLog
      · show n < p.db.nextFileNumber + 1
        by_cases hn' : n = p.db.nextFileNumber
        · exact hn' ▸ Nat.lt_succ_self _
        · rw [AList.lookup_insert_ne hn'] at hn
          exact Nat.lt_succ_of_lt (hg.number n hn)
      · have hold := hg.old
        rw [hnone] at hold
        have hsnoc := hold.snoc p.logFileNumber (hstart ▸ hg.loggable)
        rw [List.nil_append, List.length_nil, Nat.add_zero, ← hstart, hflat] at hsnoc
        exact hsnoc
      · show h.drop w.memStart = h.drop w.memStart ++ h.drop h.length
        rw [List.drop_length, List.append_nil]
      · show MemTable.empty = memOf h.length (h.drop h.length)
        rw [List.drop_length]
        rfl
      · show [] = h.drop h.length ++ p.inflight.getD []
        rw [List.drop_length, hidle]
        rfl
      · rcases hg.counted with hc | ⟨q, hq, hne⟩
        · exact Or.inl hc
        · exact Or.inr ⟨q, List.mem_append_left _ hq, hne⟩

/-! ## Files -/

/-- Writing a table under a number that neither the version nor a finished flush
    uses. -/
theorem live_putTable (t : Table) (hversion : ∀ l, ∀ f ∈ p.db.current.files l, f.number ≠ n)
    (hflush : p.flushing = true → n ≠ p.db.nextFileNumber) :
    Live o name p (d.apply (.putTable n t)) h w := by
  refine { hl with tables := fun l f hf => ?_, flushed := fun hf m hm f t' level hw => ?_,
                   logged := { hl.logged with } }
  · exact (Function.update_of_ne (hversion l f hf) _ _).trans (hl.tables l f hf)
  · have hnumber := (writeLevel0Table_spec (hl.core.imm m hm).sorted hw).1.number
    refine (Function.update_of_ne ?_ _ _).trans (hl.flushed hf m hm f t' level hw)
    rw [hnumber]
    exact (hflush hf).symm

/-- Snapshots leave no trace in the directory. -/
theorem live_snapshots (snapshots : List Nat) :
    Live o name { p with db := { p.db with snapshots := snapshots } } d h w := by
  exact { hl with core := LdbCore.core_snapshots hl.core snapshots, logged := { hl.logged with } }

/-- The table of the immutable memtable. -/
theorem live_buildTable (hstep : LdbDurable.step o name p d .buildTable = some (p', d')) :
    Live o name p' d' h w := by
  rw [LdbDurable.step] at hstep
  cases himm : p.db.imm with
  | none =>
    rw [himm] at hstep
    cases hstep
  | some m =>
    have hsome : p.db.imm ≠ none := by
      rw [himm]
      exact Option.some_ne_none _
    simp only [himm] at hstep
    cases hw : writeLevel0Table o p.db.current p.db.nextFileNumber m with
    | none =>
      rw [hw] at hstep
      cases hstep
      refine { hl with flushing := fun _ => hsome, flushed := fun _ m' hm' f t level hw' => ?_,
                       logged := { hl.logged with } }
      rw [himm] at hm'
      cases hm'
      rw [hw] at hw'
      cases hw'
    | some q =>
      obtain ⟨f, t, level⟩ := q
      rw [hw] at hstep
      cases hstep
      have hnumber := (writeLevel0Table_spec (hl.core.imm m himm).sorted hw).1.number
      refine { hl with tables := fun l g hg => ?_, flushing := fun _ => hsome,
                       flushed := fun _ m' hm' f' t' level' hw' => ?_,
                       logged := { hl.logged with } }
      · refine (Function.update_of_ne ?_ _ _).trans (hl.tables l g hg)
        rw [hnumber]
        exact Nat.ne_of_lt (hl.core.listed.number l g hg)
      · rw [himm] at hm'
        cases hm'
        rw [hw] at hw'
        cases hw'
        exact Function.update_self _ _ _

/-- An output file of the compaction is created. -/
theorem live_openOutput (hstep : LdbDurable.step o name p d .openOutput = some (p', d')) :
    Live o name p' d' h w := by
  rw [LdbDurable.step] at hstep
  split_ifs at hstep with hflush
  obtain ⟨db, hdb, heq⟩ := Option.map_eq_some_iff.mp hstep
  have hcore := core_step_idle hl.core hdb rfl
  rw [LdbDb.step] at hdb
  cases hrun : p.db.running with
  | none =>
    rw [hrun] at hdb
    cases hdb
  | some r =>
    rw [hrun] at hdb
    cases hdb
    cases heq
    have hput := live_putTable hl (n := p.db.nextFileNumber) ⟨[], []⟩
      (fun l f hf => Nat.ne_of_lt (hl.core.listed.number l f hf))
      (fun hf => by rw [hflush] at hf; cases hf)
    refine { hput with core := hcore, consistent := ?_, outputs := fun r' hr' n hn q hq => ?_,
                       flushed := fun hf => ?_, logged := ?_ }
    · exact hput.consistent.mono (Nat.le_succ _) p.db.lastSequence
    · cases hr'
      rcases List.mem_append.mp hn with hn | hn
      · exact hl.outputs r hrun n hn q hq
      · rw [List.mem_singleton.mp hn]
        exact Nat.ne_of_lt (Nat.lt_of_lt_of_le (hl.descends.bound q hq) hl.consistent.next_le)
    · rw [hflush] at hf
      cases hf
    · refine SameLogs.logged ?_ hput.logged
      exact ⟨rfl, Nat.le_succ _, rfl, rfl, rfl, rfl, rfl, rfl⟩

/-- An output file of the compaction gets its contents. -/
theorem live_finishOutput {i : Nat}
    (hstep : LdbDurable.step o name p d (.finishOutput i) = some (p', d')) :
    Live o name p' d' h w := by
  rw [LdbDurable.step] at hstep
  cases hrun : p.db.running with
  | none =>
    rw [hrun] at hstep
    cases hstep
  | some r =>
    rw [hrun] at hstep
    obtain ⟨out, hout, heq⟩ := Option.map_eq_some_iff.mp hstep
    cases heq
    have hpending := hl.core.pending r hrun
    have hnum : out.2 ∈ r.outputNumbers := (List.of_mem_zip (List.mem_of_getElem? hout)).2
    exact live_putTable hl _ (hpending.fresh out.2 hnum)
      (fun _ => Nat.ne_of_lt (hpending.numbers out.2 hnum))

/-! ## Obsolete files -/

theorem live_removeLog (hstep : LdbDurable.step o name p d (.removeLog n) = some (p', d')) :
    Live o name p' d' h w := by
  rw [LdbDurable.step] at hstep
  split_ifs at hstep with hc
  cases hstep
  have hg := hl.logged
  refine { hl with logged := { hg with noLog := ?_, number := fun k hk => ?_, needed := ?_ } }
  · by_cases h0 : 0 = n
    · rw [h0]
      exact AList.lookup_erase _ _
    · rw [AList.lookup_erase_ne h0]
      exact hg.noLog
  · by_cases hkn : k = n
    · rw [hkn, AList.lookup_erase] at hk
      exact absurd rfl hk
    · rw [AList.lookup_erase_ne hkn] at hk
      exact hg.number k hk
  · exact hg.needed.erase hc.1

theorem live_removeManifest
    (hstep : LdbDurable.step o name p d (.removeManifest n) = some (p', d')) :
    Live o name p' d' h w := by
  rw [LdbDurable.step] at hstep
  split_ifs at hstep with hc
  cases hstep
  have hm : w.m ≠ n := by
    obtain ⟨wr, hw⟩ := Option.ne_none_iff_exists'.mp hl.attached
    have hattached := hl.consistent.attached
    have hw' : p.versions.descriptorLog = some wr := hw
    rw [Attached, hw'] at hattached
    have : p.manifestFileNumber = w.m := hattached.1
    omega
  refine { hl with consistent := { hl.consistent with bytes := ?_ }, logged := { hl.logged with } }
  exact (Function.update_of_ne hm _ _).trans hl.consistent.bytes

theorem live_removeTable (hstep : LdbDurable.step o name p d (.removeTable n) = some (p', d')) :
    Live o name p' d' h w := by
  rw [LdbDurable.step] at hstep
  split_ifs at hstep with hkeep
  cases hstep
  refine { hl with tables := fun l f hf => ?_, flushed := fun hf m hm f t level hw => ?_,
                   logged := { hl.logged with } }
  · refine (Function.update_of_ne (fun heq => hkeep ?_) _ _).trans (hl.tables l f hf)
    exact Or.inr (Or.inr ⟨l, hl.core.listed.level_lt hf, f, hf, heq⟩)
  · have hnumber := (writeLevel0Table_spec (hl.core.imm m hm).sorted hw).1.number
    refine (Function.update_of_ne (fun heq => hkeep ?_) _ _).trans (hl.flushed hf m hm f t level hw)
    exact Or.inl ⟨hf, heq ▸ hnumber⟩

end

/-! ## Edits -/

/-- An edit that the process may log when the next file number is `next`: a new
    file either has a number that no file had before, or moves down from where it
    is. -/
structure Suits (p : Process) (added : List (Nat × Nat)) (next : Nat) (edit : VersionEdit) :
    Prop where
  comparator : edit.comparator = none
  log : ∀ n ∈ edit.logNumber, p.logNumber ≤ n ∧ n < next
  prevLog : ∀ n ∈ edit.prevLogNumber, n = 0
  pointers : ∀ x ∈ edit.compactPointers, x.1 < kNumLevels
  deleted : ∀ x ∈ edit.deletedFiles, x.1 < kNumLevels ∧ x.2 < next
  sorted : SortedPairs edit.deletedFiles
  new : ∀ x ∈ edit.newFiles, x.1 < kNumLevels ∧ x.2.number < next
  nodup : (edit.newFiles.map fun x => (x.1, x.2.number)).Nodup
  origin : ∀ x ∈ edit.newFiles,
    (∀ q ∈ added, q.2 ≠ x.2.number) ∨ ∃ l < x.1, x.2 ∈ p.db.current.files l

/-- The version set that logs the edit. -/
def versionsAt (p : Process) (next : Nat) : VersionSet := { p.versions with nextFileNumber := next }

theorem Suits.admissible {next : Nat} (hs : Suits p w.added next edit) (hl : Live o name p d h w)
    (hpos : 0 < next) (hrange : InRange ((versionsAt p next).complete edit)) :
    Admissible name w.added (versionsAt p next) edit := by
  obtain ⟨hnums, hseq, hptrs, hfiles⟩ := hrange
  refine
    { fits := ⟨?_, fun n hn => hnums n ?_, fun n hn => hnums n ?_, fun n hn => hnums n ?_, hseq,
        fun x hx => ⟨hs.pointers x hx, hptrs x hx⟩,
        fun x hx => ⟨(hs.deleted x hx).1, hnums x.2 ?_⟩,
        fun x hx => ⟨(hs.new x hx).1, hfiles x hx⟩, hs.sorted⟩
      name := ?_
      log := hs.log
      prevLog := fun n hn => ?_
      deleted := fun x hx => (hs.deleted x hx).2
      new := fun x hx => (hs.new x hx).2
      nodup := hs.nodup
      once := fun x hx hin => ?_ }
  · intro c hc
    have hc' : c ∈ edit.comparator := hc
    rw [hs.comparator] at hc'
    cases hc'
  · exact mem_numbersOf.mpr (Or.inl hn)
  · exact mem_numbersOf.mpr (Or.inr (Or.inl hn))
  · exact mem_numbersOf.mpr (Or.inr (Or.inr (Or.inl hn)))
  · exact mem_numbersOf.mpr (Or.inr (Or.inr (Or.inr (Or.inl ⟨x, hx, rfl⟩))))
  · intro c hc
    rw [hs.comparator] at hc
    cases hc
  · rw [hs.prevLog n hn]
    exact hpos
  · rcases hs.origin x hx with hfresh | ⟨l, hlt, hf⟩
    · exact hfresh _ hin rfl
    · have := hl.descends.down _ hin l x.2 hf rfl
      simp only at this
      omega

/-- Other compaction pointers. -/
theorem consistent_pointer {added : List (Nat × Nat)} {vs : VersionSet} {disk : Manifests} {m : Nat}
    {es : List VersionEdit} {next recorded : Nat}
    (hc : Consistent name added vs disk m es next recorded) {ptr : Nat → Option InternalKey}
    (hptr : ∀ l, ∀ k ∈ ptr l, FitsKey k) :
    Consistent name added { vs with compactPointer := ptr } disk m es next recorded :=
  { hc with replays := { hc.replays with }, storable := { hc.storable with pointers := hptr } }

/-- The process after an edit is logged. -/
abbrev committed (p : Process) (db : DB) (edit : VersionEdit) (wr : Writer) : Process :=
  { p with
    db := db
    logNumber := edit.logNumber.getD p.logNumber
    prevLogNumber := edit.prevLogNumber.getD p.prevLogNumber
    descriptorLog := some wr }

section

variable (hl : Live o name p d h w) (hs : Suits p w.added db.nextFileNumber edit)
  (hnext : p.db.nextFileNumber ≤ db.nextFileNumber)
include hl hs hnext

/-- **Logging an edit.**  The process and the directory after `commit`, with the
    MANIFEST still in agreement. -/
theorem commit_spec (hcore : LdbCore.Core db h) (hcur : db.current = applyEdit p.db.current edit)
    (hptr : ∀ l, ∀ k ∈ db.compactPointer l, FitsKey k)
    (hcommit : p.commit name db edit d = some (p', d')) :
    ∃ wr disk es, p' = committed p db edit wr ∧ d' = { d with manifests := disk }
      ∧ Consistent name (addedBy edit ++ w.added) p'.versions disk w.m es db.nextFileNumber h.length
      ∧ edit.FreshFor p.db.current := by
  rw [Process.commit] at hcommit
  split_ifs at hcommit with hrange
  have hpos : 0 < db.nextFileNumber :=
    Nat.lt_of_le_of_lt (Nat.zero_le _)
      (Nat.lt_of_lt_of_le (logged_lookup hl.logged).2.2 hnext)
  have hadm := hs.admissible hl hpos hrange
  have hc : Consistent name w.added (versionsAt p db.nextFileNumber) d.manifests w.m w.es w.next
      w.recorded := hl.consistent.mono hnext p.db.lastSequence
  obtain ⟨wr, hw⟩ := Option.ne_none_iff_exists'.mp hl.attached
  obtain ⟨wr', heq, hc'⟩ := hc.append hadm hw
  generalize d.manifests.put w.m _ = disk at heq hc'
  rw [versionsAt] at heq
  rw [heq] at hcommit
  cases hcommit
  refine ⟨wr', disk, w.es ++ [(versionsAt p db.nextFileNumber).complete edit], rfl, rfl, ?_, ?_⟩
  · have hversions : (committed p db edit wr').versions
        = { applied (versionsAt p db.nextFileNumber) edit wr' with
            compactPointer := db.compactPointer } := by
      rw [applied, Process.versions, hcur, hcore.length, ← hl.core.length]
      rfl
    have hlast : (versionsAt p db.nextFileNumber).lastSequence = h.length := hl.core.length
    have hpointed := consistent_pointer hc' hptr
    rw [← hversions, hlast] at hpointed
    exact hpointed
  · have hfresh := hc.replays.inStep.freshFor (hadm.fresh hc.added)
    exact ⟨hfresh.nodup, hfresh.fresh⟩

/-- What an edit leaves of the order in which files come down. -/
theorem descends_edit (hlisted : Listed db.current db.nextFileNumber)
    (hcur : db.current = applyEdit p.db.current edit) (hfresh : edit.FreshFor p.db.current) :
    Descends (addedBy edit ++ w.added) db.current db.nextFileNumber := by
  have hmem : ∀ {l f}, f ∈ db.current.files l ↔
      (f ∈ p.db.current.files l ∧ (l, f.number) ∉ edit.deletedFiles) ∨ (l, f) ∈ edit.newFiles := by
    intro l f
    rw [hcur]
    exact mem_applyEdit hfresh
  refine ⟨fun q hq => ?_, fun q hq l f hf heq => ?_⟩
  · rcases List.mem_append.mp hq with hq | hq
    · obtain ⟨x, hx, rfl⟩ := List.mem_map.mp hq
      exact (hs.new x hx).2
    · exact Nat.lt_of_lt_of_le (hl.descends.bound q hq) (Nat.le_trans hl.consistent.next_le hnext)
  · rcases List.mem_append.mp hq with hq | hq
    · -- the file that was just added has this number, on the level of the edit
      obtain ⟨x, hx, rfl⟩ := List.mem_map.mp hq
      have hx' : x.2 ∈ db.current.files x.1 := hmem.mpr (Or.inr hx)
      exact Nat.le_of_eq (hlisted.unique _ _ f x.2 hf hx' heq).1.symm
    · rcases hmem.mp hf with ⟨hf, -⟩ | hx
      · exact hl.descends.down q hq l f hf heq
      · rcases hs.origin (l, f) hx with hnew | ⟨l', hlt, hf'⟩
        · exact absurd heq.symm (hnew q hq)
        · exact Nat.le_trans (hl.descends.down q hq l' f hf' heq) (Nat.le_of_lt hlt)

/-- **Steps that log an edit keep `Live`**, whatever becomes of the logs. -/
theorem live_commit (hcore : LdbCore.Core db h) (hcur : db.current = applyEdit p.db.current edit)
    (hptr : ∀ l, ∀ k ∈ db.compactPointer l, FitsKey k) (hflush : p.flushing = false)
    (hrun : ∀ r ∈ db.running, r ∈ p.db.running ∧ ∀ x ∈ edit.newFiles, x.2.number ∉ r.outputNumbers)
    (htables : ∀ l, ∀ f ∈ db.current.files l, d.tables f.number = some (db.tables f.number))
    (hcommit : p.commit name db edit d = some (p', d')) :
    ∃ wr disk es, p' = committed p db edit wr ∧ d' = { d with manifests := disk }
      ∧ ∀ immStart immOps old memStart batches,
        Logged p' d' h ⟨w.m, es, db.nextFileNumber, h.length, addedBy edit ++ w.added, immStart,
          immOps, old, memStart, batches⟩ →
        Live o name p' d' h ⟨w.m, es, db.nextFileNumber, h.length, addedBy edit ++ w.added, immStart,
          immOps, old, memStart, batches⟩ := by
  obtain ⟨wr, disk, es, hp', hd', hc, hfresh⟩ := commit_spec hl hs hnext hcore hcur hptr hcommit
  refine ⟨wr, disk, es, hp', hd', fun immStart immOps old memStart batches hlogged => ?_⟩
  subst hp' hd'
  have hnot : ¬p.flushing = true := by simp [hflush]
  refine
    { core := hcore
      consistent := hc
      attached := Option.some_ne_none _
      descends := descends_edit hl hs hnext hcore.listed hcur hfresh
      outputs := fun r hr n hn q hq => ?_
      prev := ?_
      tables := htables
      flushing := fun hf => absurd hf hnot
      flushed := fun hf => absurd hf hnot
      logged := hlogged }
  · obtain ⟨hr', hnew⟩ := hrun r hr
    rcases List.mem_append.mp hq with hq | hq
    · obtain ⟨x, hx, rfl⟩ := List.mem_map.mp hq
      rintro rfl
      exact hnew x hx hn
    · exact hl.outputs r hr' n hn q hq
  · show edit.prevLogNumber.getD p.prevLogNumber = 0
    cases hprev : edit.prevLogNumber with
    | none => exact hl.prev
    | some n => exact hs.prevLog n hprev

end

/-! ## Flushes -/

/-- An edit without files does not change the version. -/
theorem applyEdit_noFiles (hnew : edit.newFiles = []) (hdel : edit.deletedFiles = []) :
    applyEdit v edit = v := by
  have hfiles : (applyEdit v edit).files = v.files := by
    funext level
    rw [applyEdit_level, VersionEdit.addedAt, VersionEdit.deletedAt, hnew, hdel]
    show (v.files level).filter _ = _
    rw [List.filter_eq_self]
    intro f _
    exact decide_eq_true fun hc => absurd hc.1 List.not_mem_nil
  exact congrArg Version.mk hfiles

section

variable (hl : Live o name p d h w)
include hl

/-- What the edit of `CompactMemTable` does. -/
theorem flushEdit_spec {m : MemTable} (himm : p.db.imm = some m) :
    Suits p w.added (p.db.compactMemTable o m).nextFileNumber (p.flushEdit o m)
      ∧ (p.db.compactMemTable o m).nextFileNumber = p.db.nextFileNumber + 1
      ∧ (p.db.compactMemTable o m).current = applyEdit p.db.current (p.flushEdit o m)
      ∧ (p.db.compactMemTable o m).compactPointer = p.db.compactPointer
      ∧ (p.db.compactMemTable o m).running = p.db.running
      ∧ (p.db.compactMemTable o m).imm = none
      ∧ (p.db.compactMemTable o m).mem = p.db.mem
      ∧ (p.flushEdit o m).logNumber = some p.logFileNumber
      ∧ ∀ x ∈ (p.flushEdit o m).newFiles, x.2.number = p.db.nextFileNumber := by
  obtain ⟨-, hfirst, hlater⟩ := logged_lookup hl.logged
  have hlog : ∀ n ∈ some p.logFileNumber, p.logNumber ≤ n ∧ n < p.db.nextFileNumber + 1 := by
    intro n hn
    cases hn
    exact ⟨hfirst, Nat.lt_succ_of_lt hlater⟩
  have hzero : ∀ n ∈ some 0, n = 0 := by
    intro n hn
    cases hn
    rfl
  rw [Process.flushEdit]
  cases hw : writeLevel0Table o p.db.current p.db.nextFileNumber m with
  | none =>
    rw [DB.compactMemTable_none hw]
    exact ⟨⟨rfl, hlog, hzero, nofun, nofun, List.Pairwise.nil, nofun, List.nodup_nil, nofun⟩, rfl,
      (applyEdit_noFiles rfl rfl).symm, rfl, rfl, rfl, rfl, rfl, nofun⟩
  | some q =>
    obtain ⟨f, t, level⟩ := q
    rw [DB.compactMemTable_some hw]
    obtain ⟨hfl, hlevel⟩ := writeLevel0Table_spec (hl.core.imm m himm).sorted hw
    refine ⟨⟨rfl, hlog, hzero, nofun, nofun, List.Pairwise.nil,
      List.forall_mem_singleton.mpr ⟨?_, ?_⟩, List.nodup_singleton _,
      List.forall_mem_singleton.mpr (Or.inl fun q hq => ?_)⟩, rfl, rfl, rfl, rfl, rfl, rfl, rfl,
      List.forall_mem_singleton.mpr hfl.number⟩
    · show level < kNumLevels
      rw [hlevel]
      exact Version.pickLevelForMemTableOutput_lt _ _ _ _
    · show f.number < p.db.nextFileNumber + 1
      rw [hfl.number]
      exact Nat.lt_succ_self _
    · show q.2 ≠ f.number
      rw [hfl.number]
      exact Nat.ne_of_lt (Nat.lt_of_lt_of_le (hl.descends.bound q hq) hl.consistent.next_le)

/-- The tables after `CompactMemTable`. -/
theorem flush_tables {m : MemTable} (himm : p.db.imm = some m) (hflush : p.flushing = true) :
    ∀ l, ∀ f ∈ (p.db.compactMemTable o m).current.files l,
      d.tables f.number = some ((p.db.compactMemTable o m).tables f.number) := by
  cases hw : writeLevel0Table o p.db.current p.db.nextFileNumber m with
  | none =>
    rw [DB.compactMemTable_none hw]
    exact hl.tables
  | some q =>
    obtain ⟨f, t, level⟩ := q
    rw [DB.compactMemTable_some hw]
    have hfl := (writeLevel0Table_spec (hl.core.imm m himm).sorted hw).1
    intro l g hg
    show d.tables g.number = some (Function.update p.db.tables f.number t g.number)
    rcases ((LdbCore.adds_of_flush hl.core.listed hfl.number level).mem l g).mp hg with
      hg | ⟨-, rfl⟩
    · have hne : g.number ≠ f.number := by
        rw [hfl.number]
        exact Nat.ne_of_lt (hl.core.listed.number l g hg)
      rw [Function.update_of_ne hne]
      exact hl.tables l g hg
    · rw [Function.update_self]
      exact hl.flushed hflush m himm g t level hw

/-- **`CompactMemTable`** installs the table and gives up the old logs. -/
theorem live_installTable (hstep : LdbDurable.step o name p d .installTable = some (p', d')) :
    ∃ w', Live o name p' d' h w' := by
  rw [LdbDurable.step] at hstep
  cases himm : p.db.imm with
  | none =>
    rw [himm] at hstep
    cases hstep
  | some m =>
    simp only [himm] at hstep
    split_ifs at hstep with hflush
    have hl₀ : Live o name { p with flushing := false } d h w :=
      { hl with
        flushing := fun hf => absurd hf Bool.false_ne_true
        flushed := fun hf => absurd hf Bool.false_ne_true
        logged := { hl.logged with } }
    obtain ⟨hs, hnext, hcur, hptr, hrun, himm', hmem, hlog, hnums⟩ := flushEdit_spec hl himm
    have hcore := LdbCore.core_compactMemTable hl.core o himm
    have hs₀ : Suits { p with flushing := false } w.added
        (p.db.compactMemTable o m).nextFileNumber (p.flushEdit o m) := { hs with }
    have hrunning : ∀ r ∈ (p.db.compactMemTable o m).running, r ∈ p.db.running
        ∧ ∀ x ∈ (p.flushEdit o m).newFiles, x.2.number ∉ r.outputNumbers := by
      intro r hr
      rw [hrun] at hr
      refine ⟨hr, fun x hx hin => ?_⟩
      have := (hl.core.pending r hr).numbers _ hin
      rw [hnums x hx] at this
      exact absurd this (Nat.lt_irrefl _)
    obtain ⟨wr, disk, es, rfl, rfl, hlive⟩ := live_commit hl₀ hs₀
      (by rw [hnext]; exact Nat.le_succ _) hcore hcur
      (by rw [hptr]; exact hl.consistent.storable.pointers) rfl hrunning
      (flush_tables hl himm hflush) hstep
    refine ⟨_, hlive w.memStart [] [] w.memStart w.batches ?_⟩
    have hg := hl.logged
    refine
      { noLog := hg.noLog
        number := fun n hn => ?_
        needed := ?_
        old := LogsHold.nil _
        imm := Or.inl ⟨himm', rfl⟩
        seam := rfl
        split := rfl
        start := hg.start
        mem := hmem.trans hg.mem
        batches := hg.batches
        loggable := hg.loggable
        after := hg.after
        recorded := Nat.le_refl _
        counted := ?_ }
    · show n < (p.db.compactMemTable o m).nextFileNumber
      rw [hnext]
      exact Nat.lt_succ_of_lt (hg.number n hn)
    · show Needed d.logs ((p.flushEdit o m).logNumber.getD p.logNumber) _
      rw [hlog]
      exact hg.needed.last
    · rcases logged_counted hg with hc | hne
      · exact Or.inl hc
      · exact Or.inr ⟨_, List.mem_singleton.mpr rfl, hne⟩

/-! ## Compactions -/

omit hl in
/-- The compaction pointer is the largest key of an input. -/
theorem setupOtherInputs_largest {level : Nat} {inputs : List FileMetaData}
    (hc : setupOtherInputs o v level inputs = some c) : ∃ f ∈ c.inputs0, f.largest = c.largest := by
  obtain ⟨r, -, hfin | ⟨all, new, -, -, hfin⟩⟩ := setupOtherInputs_cases hc
  all_goals
    have hf := finishInputs_finished hfin
    rw [hf.inputs0]
    exact hf.largest

omit hl in
theorem pickCompaction_largest {ptr : Nat → Option InternalKey} {t : Trigger}
    (hc : pickCompaction o v ptr t = some c) : ∃ f ∈ c.inputs0, f.largest = c.largest := by
  rw [pickCompaction] at hc
  split at hc
  · cases hc
  · split_ifs at hc <;> exact setupOtherInputs_largest hc

omit hl in
theorem compactRange_largest {level : Nat} {b e : Option InternalKey}
    (hc : compactRange o v level b e = some c) : ∃ f ∈ c.inputs0, f.largest = c.largest := by
  rw [compactRange] at hc
  split_ifs at hc <;> exact setupOtherInputs_largest hc

omit hl in
/-- Inserting keeps the set of deleted files in order. -/
theorem sortedPairs_insertPair {q : Nat × Nat} {ps : List (Nat × Nat)} (hs : SortedPairs ps) :
    SortedPairs (insertPair q ps) := by
  induction ps with
  | nil => exact List.pairwise_singleton _ _
  | cons a rest ih =>
    obtain ⟨ha, hrest⟩ := List.pairwise_cons.mp hs
    rw [insertPair]
    split_ifs with hlt heq
    · refine List.pairwise_cons.mpr ⟨fun b hb => ?_, hs⟩
      rcases List.mem_cons.mp hb with rfl | hb
      · exact hlt
      · exact lt_trans hlt (ha b hb)
    · exact hs
    · refine List.pairwise_cons.mpr ⟨fun b hb => ?_, ih hrest⟩
      rcases mem_insertPair.mp hb with rfl | hb
      · exact lt_of_le_of_ne (not_lt.mp hlt) fun hc => heq (toLex.injective hc).symm
      · exact ha b hb

/-- A step that logs an edit without log numbers. -/
theorem live_commit_same (hcore : LdbCore.Core db h) (hs : Suits p w.added db.nextFileNumber edit)
    (hnext : db.nextFileNumber = p.db.nextFileNumber)
    (hcur : db.current = applyEdit p.db.current edit)
    (hptr : ∀ l, ∀ k ∈ db.compactPointer l, FitsKey k) (hflush : p.flushing = false)
    (hrun : db.running = none)
    (htables : ∀ l, ∀ f ∈ db.current.files l, d.tables f.number = some (db.tables f.number))
    (hlog : edit.logNumber = none) (himm : db.imm = p.db.imm) (hmem : db.mem = p.db.mem)
    (hcommit : p.commit name db edit d = some (p', d')) : ∃ w', Live o name p' d' h w' := by
  obtain ⟨wr, disk, es, rfl, rfl, hlive⟩ := live_commit hl hs (Nat.le_of_eq hnext.symm) hcore hcur
    hptr hflush (fun r hr => by rw [hrun] at hr; cases hr) htables hcommit
  refine ⟨_, hlive w.immStart w.immOps w.old w.memStart w.batches ?_⟩
  have hsame : SameLogs p (committed p db edit wr) d { d with manifests := disk } :=
    ⟨rfl, Nat.le_of_eq hnext.symm, by simp [hlog], rfl, rfl, rfl, himm, hmem⟩
  exact logged_recorded (hsame.logged hl.logged) _ _ _ _

/-- The pointer of a picked compaction. -/
theorem pointer_fits (hfrom : LdbCore.FromVersion c p.db.current)
    (hlargest : ∃ f ∈ c.inputs0, f.largest = c.largest) :
    ∀ l, ∀ k ∈ Function.update p.db.compactPointer c.level (some c.largest) l, FitsKey k := by
  intro l k hk
  by_cases hlevel : l = c.level
  · subst hlevel
    rw [Function.update_self] at hk
    cases hk
    obtain ⟨f, hf, heq⟩ := hlargest
    rw [← heq]
    exact (hl.consistent.storable.files c.level f (hfrom.sub0 f hf)).largest
  · rw [Function.update_of_ne hlevel] at hk
    exact hl.consistent.storable.pointers l k hk

/-- The edit of a trivial move. -/
theorem moveEdit_suits {f : FileMetaData} (hf : f ∈ p.db.current.files c.level)
    (hdeep : c.level + 1 < kNumLevels) :
    Suits p w.added p.db.nextFileNumber
      ((moveEdit c f).setCompactPointer c.level c.largest) := by
  have hnum := hl.core.listed.number c.level f hf
  exact
    { comparator := rfl
      log := nofun
      prevLog := nofun
      pointers := List.forall_mem_singleton.mpr (Nat.lt_of_succ_lt hdeep)
      deleted := List.forall_mem_singleton.mpr ⟨Nat.lt_of_succ_lt hdeep, hnum⟩
      sorted := List.pairwise_singleton _ _
      new := List.forall_mem_singleton.mpr ⟨hdeep, hnum⟩
      nodup := List.nodup_singleton _
      origin := List.forall_mem_singleton.mpr (Or.inr ⟨c.level, Nat.lt_succ_self _, hf⟩) }

omit hl in
/-- The two outcomes of a picked compaction. -/
theorem compact_cases (o : Options) (name : Slice) (p : Process) (c : Compaction) (mayMove : Bool)
    (d : Disk) :
    (∃ f, c.inputs0 = [f]
      ∧ p.db.startCompaction o c mayMove = { p.db with
          compactPointer := Function.update p.db.compactPointer c.level (some c.largest)
          current := applyEdit p.db.current (moveEdit c f) }
      ∧ p.compact o name c mayMove d = p.commit name (p.db.startCompaction o c mayMove)
          ((moveEdit c f).setCompactPointer c.level c.largest) d)
    ∨ (p.db.startCompaction o c mayMove = { p.db with
          compactPointer := Function.update p.db.compactPointer c.level (some c.largest)
          running := some ⟨c, p.db.current, p.db.smallestSnapshot, []⟩ }
      ∧ p.compact o name c mayMove d
        = some ({ p with db := p.db.startCompaction o c mayMove }, d)) := by
  rw [Process.compact]
  split
  · rename_i f h0 hmove
    refine Or.inl ⟨f, h0, ?_, rfl⟩
    rw [DB.startCompaction, h0, hmove]
  · rename_i hno
    refine Or.inr ⟨?_, rfl⟩
    rw [DB.startCompaction]
    split
    · rename_i f h0 hmove
      exact absurd hmove (hno f h0)
    · rfl

/-- **`BackgroundCompaction`** on picked inputs. -/
theorem live_compact (hfrom : LdbCore.FromVersion c p.db.current)
    (hdeep : c.level + 1 < kNumLevels) (hlargest : ∃ f ∈ c.inputs0, f.largest = c.largest)
    (hrun : p.db.running = none) (hflush : p.flushing = false) {mayMove : Bool}
    (hstep : p.compact o name c mayMove d = some (p', d')) : ∃ w', Live o name p' d' h w' := by
  have hfits := pointer_fits hl hfrom hlargest
  have hcore := LdbCore.core_startCompaction hl.core o hrun hfrom hdeep mayMove
  rcases compact_cases o name p c mayMove d with ⟨f, h0, hdb, heq⟩ | ⟨hdb, heq⟩
  · -- a trivial move
    rw [heq, hdb] at hstep
    rw [hdb] at hcore
    have hf : f ∈ p.db.current.files c.level :=
      hfrom.sub0 f (by rw [h0]; exact List.mem_singleton_self f)
    refine live_commit_same hl hcore (moveEdit_suits hl hf hdeep) rfl rfl hfits hflush hrun
      (fun l g hg => ?_) rfl rfl rfl hstep
    rcases ((LdbCore.replaces_of_move hl.core.listed hf hdeep).mem l g).mp hg with
      ⟨hg, -⟩ | ⟨-, hg⟩
    · exact hl.tables l g hg
    · rw [List.mem_singleton.mp hg]
      exact hl.tables c.level f hf
  · rw [heq, hdb] at hstep
    rw [hdb] at hcore
    cases hstep
    refine ⟨w, { hl with core := hcore, consistent := consistent_pointer hl.consistent hfits,
                         outputs := fun r hr n hn => ?_, logged := { hl.logged with } }⟩
    cases hr
    cases hn

theorem live_autoCompaction {t : Trigger}
    (hstep : LdbDurable.step o name p d (.autoCompaction t) = some (p', d')) :
    ∃ w', Live o name p' d' h w' := by
  rw [LdbDurable.step] at hstep
  split at hstep
  · rename_i c hflush himm hrun hpick
    obtain ⟨hfrom, hdeep⟩ := LdbCore.pickCompaction_sub hpick
    exact live_compact hl hfrom hdeep (pickCompaction_largest hpick) hrun hflush hstep
  · cases hstep

theorem live_manualCompaction {level : Nat} {b e : Option InternalKey} {forceFull : Bool}
    (hstep : LdbDurable.step o name p d (.manualCompaction level b e forceFull) = some (p', d')) :
    ∃ w', Live o name p' d' h w' := by
  rw [LdbDurable.step] at hstep
  split_ifs at hstep with hlevel
  split at hstep
  · rename_i c hflush himm hrun hpick
    obtain ⟨hfrom, hl'⟩ := LdbCore.compactRange_sub hpick
    exact live_compact hl hfrom (hl' ▸ hlevel) (compactRange_largest hpick) hrun hflush hstep
  · cases hstep

end

/-- An edit that only deletes and adds files. -/
structure OnlyFiles (e : VersionEdit) : Prop where
  comparator : e.comparator = none
  log : e.logNumber = none
  prevLog : e.prevLogNumber = none
  pointers : e.compactPointers = []
  sorted : SortedPairs e.deletedFiles

theorem OnlyFiles.removeFile {e : VersionEdit} (h : OnlyFiles e) (level n : Nat) :
    OnlyFiles (e.removeFile level n) :=
  ⟨h.comparator, h.log, h.prevLog, h.pointers, sortedPairs_insertPair h.sorted⟩

theorem OnlyFiles.addFile {e : VersionEdit} (h : OnlyFiles e) (level : Nat) (f : FileMetaData) :
    OnlyFiles (e.addFile level f) :=
  ⟨h.comparator, h.log, h.prevLog, h.pointers, h.sorted⟩

theorem installEdit_onlyFiles (o : Options) (c : Compaction) (outs : List (Output × Nat)) :
    OnlyFiles (installEdit o c outs) := by
  have h0 : OnlyFiles (c.inputs0.foldl (fun e f => e.removeFile c.level f.number) {}) :=
    List.foldlRecOn c.inputs0 _ ⟨rfl, rfl, rfl, rfl, List.Pairwise.nil⟩ fun e he f _ => he.removeFile _ _
  have h1 : OnlyFiles (c.addInputDeletions {}) :=
    List.foldlRecOn c.inputs1 _ h0 fun e he f _ => he.removeFile _ _
  exact List.foldlRecOn outs _ h1 fun e he q _ => he.addFile _ _

/-- The edit of `InstallCompactionResults`. -/
theorem installEdit_suits (hl : Live o name p d h w) {r : Running} (hr : p.db.running = some r)
    (hn : LdbCore.Numbered o p.db r) :
    Suits p w.added p.db.nextFileNumber
      ((installEdit o r.compaction (p.db.outputs o r)).setCompactPointer
        r.compaction.level r.compaction.largest) := by
  have hpending := hl.core.pending r hr
  obtain ⟨hnew, hdel⟩ := LdbCore.installEdit_spec o r.compaction (p.db.outputs o r)
  obtain ⟨hcomp, hlog, hprev, hptr, hsorted⟩ := installEdit_onlyFiles o r.compaction (p.db.outputs o r)
  have hout : ∀ x ∈ (installEdit o r.compaction (p.db.outputs o r)).newFiles,
      x.1 = r.compaction.level + 1 ∧ x.2.number ∈ r.outputNumbers := by
    intro x hx
    rw [hnew] at hx
    obtain ⟨q, hq, rfl⟩ := List.mem_map.mp hx
    exact ⟨rfl, hn.mem_snd hq⟩
  refine
    { comparator := hcomp
      log := fun n hn => ?_
      prevLog := fun n hn => ?_
      pointers := by
        show ∀ x ∈ VersionEdit.compactPointers _ ++ [_], _
        rw [hptr]
        exact List.forall_mem_singleton.mpr (Nat.lt_of_succ_lt hpending.deep)
      deleted := fun x hx => ?_
      sorted := hsorted
      new := fun x hx => ?_
      nodup := ?_
      origin := fun x hx => Or.inl fun q hq => ?_ }
  · have hn' : n ∈ (installEdit o r.compaction (p.db.outputs o r)).logNumber := hn
    rw [hlog] at hn'
    cases hn'
  · have hn' : n ∈ (installEdit o r.compaction (p.db.outputs o r)).prevLogNumber := hn
    rw [hprev] at hn'
    cases hn'
  · obtain ⟨l, n⟩ := x
    rcases (hdel l n).mp hx with ⟨rfl, f, hf, rfl⟩ | ⟨rfl, f, hf, rfl⟩
    · exact ⟨Nat.lt_of_succ_lt hpending.deep, hl.core.listed.number _ f (hpending.sub0 f hf)⟩
    · exact ⟨hpending.deep, hl.core.listed.number _ f (hpending.sub1 f hf)⟩
  · rw [(hout x hx).1]
    exact ⟨hpending.deep, hpending.numbers _ (hout x hx).2⟩
  · show ((installEdit o r.compaction (p.db.outputs o r)).newFiles.map _).Nodup
    have hnodup := hn.nodup.map (Prod.mk_right_injective (r.compaction.level + 1))
    rw [List.map_map] at hnodup
    rw [hnew, List.map_map]
    exact hnodup
  · exact hl.outputs r hr _ (hout x hx).2 q hq

/-- **`InstallCompactionResults`.** -/
theorem live_installResults (hl : Live o name p d h w)
    (hstep : LdbDurable.step o name p d .installResults = some (p', d')) :
    ∃ w', Live o name p' d' h w' := by
  rw [LdbDurable.step] at hstep
  cases hrun : p.db.running with
  | none =>
    rw [hrun] at hstep
    cases hstep
  | some r =>
    simp only [hrun] at hstep
    split_ifs at hstep with hc
    obtain ⟨hflush, hlen, hdisk⟩ := hc
    have hn := LdbCore.numbered hl.core hrun hlen
    have hwritten := LdbCore.written hl.core hrun hn
    have hcore := LdbCore.core_installResults hl.core hrun hwritten
    have hlog := (installEdit_onlyFiles o r.compaction (p.db.outputs o r)).log
    have hsuits := installEdit_suits hl hrun hn
    have hcur : (p.db.installResults o r).current
        = applyEdit p.db.current (installEdit o r.compaction (p.db.outputs o r)) := by
      rw [DB.installResults]
    have hptr : (p.db.installResults o r).compactPointer = p.db.compactPointer := by
      rw [DB.installResults]
    rw [← p.db.installResults_nextFileNumber o r] at hsuits
    refine live_commit_same hl hcore hsuits (p.db.installResults_nextFileNumber o r) hcur
      (hptr ▸ hl.consistent.storable.pointers) hflush (p.db.installResults_running o r)
      (fun l f hf => ?_) hlog (p.db.installResults_imm o r) (p.db.installResults_mem o r) hstep
    rcases (hwritten.replaces.mem l f).mp hf with ⟨hf, -, -⟩ | ⟨-, hf⟩
    · rw [hwritten.tables l f hf]
      exact hl.tables l f hf
    · obtain ⟨q, hq, rfl⟩ := List.mem_map.mp hf
      have htable := hn.table hq
      exact (hdisk q hq).trans (congrArg some htable.symm)

/-! ## All steps -/

/-- **Every step keeps a process and its directory in agreement.** -/
theorem live_step (hl : Live o name p d h w) {a : LdbDurable.Action}
    (hstep : LdbDurable.step o name p d a = some (p', d')) :
    ∃ w', Live o name p' d' (h ++ a.ops p) w' := by
  have hnil : h = h ++ [] := (List.append_nil h).symm
  cases a with
  | insertBatch => exact ⟨w, live_insertBatch hl hstep⟩
  | appendLog batch => exact hnil ▸ live_appendLog hl hstep
  | switchMemTable => exact hnil ▸ live_switchMemTable hl hstep
  | getSnapshot | releaseSnapshot =>
    cases hstep
    exact ⟨w, hnil ▸ live_snapshots hl _⟩
  | buildTable => exact ⟨w, hnil ▸ live_buildTable hl hstep⟩
  | installTable => exact hnil ▸ live_installTable hl hstep
  | autoCompaction t => exact hnil ▸ live_autoCompaction hl hstep
  | manualCompaction level b e forceFull =>
    exact hnil ▸ live_manualCompaction hl hstep
  | openOutput => exact ⟨w, hnil ▸ live_openOutput hl hstep⟩
  | finishOutput i => exact ⟨w, hnil ▸ live_finishOutput hl hstep⟩
  | installResults => exact hnil ▸ live_installResults hl hstep
  | removeLog n => exact ⟨w, hnil ▸ live_removeLog hl hstep⟩
  | removeManifest n => exact ⟨w, hnil ▸ live_removeManifest hl hstep⟩
  | removeTable n => exact ⟨w, hnil ▸ live_removeTable hl hstep⟩

end LdbRunning
