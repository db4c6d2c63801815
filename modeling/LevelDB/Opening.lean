import LevelDB.Recoverable

/-! # Opening a database

    `DB::Open` on a recoverable directory: it succeeds, the process it returns
    holds the entries of the directory, and a process that dies on the way leaves
    a directory that still holds them. -/

namespace LdbOpening

open LdbFormat LdbVersion LdbEdit LdbEditCodec LdbLog LdbTable LdbDb LdbInv LdbSteps LdbVersionSet
open LdbManifest LdbRecovery LdbDurable LdbContents LdbStored LdbRecoverable

/-! ## Replaying the logs -/

/-- `Open` has flushed the operations `done`, committed after sequence number
    `start`, into the tables `files`. -/
structure Progress (v₀ : VersionSet) (start : Nat) (done : List Op) (s : Opening)
    (files : List (FileMetaData × Table)) : Prop where
  status : s.status = .ok
  vs : s.vs = { v₀ with nextFileNumber := s.vs.nextFileNumber }
  le : v₀.nextFileNumber ≤ s.vs.nextFileNumber
  edit : s.edit = { newFiles := files.map fun p => (0, p.1) }
  ops : s.ops = files.map fun p => .putTable p.1.number p.2
  increasing : files.Pairwise fun p q => p.1.number < q.1.number
  range : ∀ p ∈ files, v₀.nextFileNumber ≤ p.1.number ∧ p.1.number < s.vs.nextFileNumber
  fits : ∀ p ∈ files, p.1.number < 2 ^ 64 → FitsFile p.1
  points : ∀ p ∈ files, ∀ e ∈ p.2.entries, e.isPoint = true
  save : s.saveManifest = false → v₀.descriptorLog ≠ none ∧ files = [] ∧ done = []
  has : ∀ e, (∃ p ∈ files, TableHas p.2 e) ↔ e ∈ opEntries done (start + 1)

section Flush

variable {o : Options} {v₀ : VersionSet} {pre done : List Op} {s : Opening}
  {files : List (FileMetaData × Table)}

/-- More file numbers are handed out. -/
theorem Progress.later {start n : Nat} (hp : Progress v₀ start done s files)
    (hle : s.vs.nextFileNumber ≤ n) :
    Progress v₀ start done { s with vs := { s.vs with nextFileNumber := n } } files :=
  { hp with
    vs := by rw [hp.vs]
    le := Nat.le_trans hp.le hle
    range := fun p hpf => ⟨(hp.range p hpf).1, Nat.lt_of_lt_of_le (hp.range p hpf).2 hle⟩ }

/-- Flushing one more segment. -/
theorem Progress.flush (hsize : ∀ es, o.finishedSize es < 2 ^ 64)
    (hp : Progress v₀ pre.length done s files) (seg post : List Op)
    (hbound : (pre ++ done ++ seg ++ post).length ≤ kMaxSequenceNumber)
    (hops : ∀ op ∈ seg, Storable op) :
    ∃ files', Progress v₀ pre.length (done ++ seg)
      (s.writeLevel0Table o (memOf (pre.length + done.length) seg)) files' := by
  have hmem : MemOK (pre ++ done ++ seg ++ post) (memOf (pre.length + done.length) seg) := by
    rw [← List.length_append]
    exact memOK_memOf (pre ++ done) seg post
  have hentries : ∀ e ∈ (memOf (pre.length + done.length) seg).table, FitsEntry e := by
    intro e he
    rw [mem_memOf] at he
    refine opEntries_fits seg hops ?_ e he
    simp only [List.length_append] at hbound
    omega
  have hhas : ∀ e, e ∈ opEntries (done ++ seg) (pre.length + 1)
      ↔ e ∈ opEntries done (pre.length + 1) ∨ e ∈ (memOf (pre.length + done.length) seg).table := by
    intro e
    rw [opEntries_append, List.mem_append, mem_memOf, Nat.add_right_comm]
  generalize memOf (pre.length + done.length) seg = m at hmem hentries hhas ⊢
  have hlater := hp.later (Nat.le_succ s.vs.nextFileNumber)
  rw [Opening.writeLevel0Table]
  cases hb : buildTable o s.vs.nextFileNumber m.table with
  | none =>
    have hw : writeLevel0Table o Version.empty s.vs.nextFileNumber m = none := by
      rw [writeLevel0Table, hb]
    refine ⟨files, { hlater with save := Bool.noConfusion, has := fun e => ?_ }⟩
    rw [hp.has e, hhas e, LdbCore.writeLevel0Table_none hw]
    simp
  | some q =>
    obtain ⟨f, t⟩ := q
    obtain ⟨level, hw⟩ : ∃ level, writeLevel0Table o Version.empty s.vs.nextFileNumber m
        = some (m.rangeDeletions.foldl widenBounds f, t, level) := by
      rw [writeLevel0Table, hb]
      exact ⟨_, rfl⟩
    have hfl := (writeLevel0Table_spec hmem.sorted hw).1
    have hnumber := hfl.number
    refine ⟨files ++ [(m.rangeDeletions.foldl widenBounds f, t)], ?_⟩
    refine
      { status := hp.status
        vs := hlater.vs
        le := hlater.le
        edit := ?_
        ops := ?_
        increasing := List.pairwise_append.mpr ⟨hp.increasing, List.pairwise_singleton _ _, ?_⟩
        range := List.forall_mem_append.mpr ⟨hlater.range, List.forall_mem_singleton.mpr ?_⟩
        fits := List.forall_mem_append.mpr ⟨hp.fits, List.forall_mem_singleton.mpr fun hlt => ?_⟩
        points := List.forall_mem_append.mpr ⟨hp.points, List.forall_mem_singleton.mpr ?_⟩
        save := Bool.noConfusion
        has := fun e => ?_ }
    · show s.edit.addFile 0 _ = _
      rw [hp.edit, VersionEdit.addFile, List.map_append]
      rfl
    · show s.ops ++ [_] = _
      rw [hp.ops, List.map_append, List.map_singleton, hnumber]
    · intro p hpf q hq
      rw [List.mem_singleton.mp hq, hnumber]
      exact (hp.range p hpf).2
    · rw [hnumber]
      exact ⟨hp.le, Nat.lt_succ_self _⟩
    · rw [hnumber] at hlt
      exact flushed_fits hsize hmem hentries hw hlt
    · exact (hfl.fileOK hmem hbound).points
    · rw [hhas e, ← hp.has e, ← flushed_has hfl]
      simp only [List.mem_append, List.mem_singleton, or_and_right, exists_or, exists_eq_left]

/-- Flushing some segments. -/
theorem Progress.flushAll (hsize : ∀ es, o.finishedSize es < 2 ^ 64) {ms : List MemTable} {n : Nat}
    {seg post : List Op} (hs : Segments n seg ms) :
    ∀ {done : List Op} {s : Opening} {files : List (FileMetaData × Table)},
      n = pre.length + done.length → Progress v₀ pre.length done s files →
      (pre ++ done ++ seg ++ post).length ≤ kMaxSequenceNumber → (∀ op ∈ seg, Storable op) →
      ∃ files', Progress v₀ pre.length (done ++ seg)
        (ms.foldl (Opening.writeLevel0Table o) s) files' := by
  induction hs with
  | nil n =>
    intro done s files _ hp _ _
    rw [List.append_nil]
    exact ⟨files, hp⟩
  | @cons n rest ms seg _ ih =>
    intro done s files hn hp hbound hops
    subst hn
    obtain ⟨files', hp'⟩ := hp.flush hsize seg (rest ++ post)
      (by simpa only [List.append_assoc] using hbound)
      (fun op hop => hops op (List.mem_append_left _ hop))
    rw [← List.append_assoc, List.foldl_cons]
    refine ih ?_ hp' (by simpa only [List.append_assoc] using hbound)
      (fun op hop => hops op (List.mem_append_right _ hop))
    rw [List.length_append, Nat.add_assoc]

/-- What flushing leaves alone. -/
theorem writeLevel0Table_frame (s : Opening) (m : MemTable) :
    (s.writeLevel0Table o m).mem = s.mem
      ∧ (s.writeLevel0Table o m).vs.nextFileNumber = s.vs.nextFileNumber + 1 := by
  rw [Opening.writeLevel0Table]
  split
  · exact ⟨rfl, rfl⟩
  · exact ⟨rfl, rfl⟩

theorem flushAll_mem (ms : List MemTable) :
    ∀ s : Opening, (ms.foldl (Opening.writeLevel0Table o) s).mem = s.mem := by
  induction ms with
  | nil =>
    intro s
    rfl
  | cons m ms ih =>
    intro s
    rw [List.foldl_cons, ih, (writeLevel0Table_frame s m).1]

theorem flushAll_next (ms : List MemTable) :
    ∀ s : Opening, s.vs.nextFileNumber
      ≤ (ms.foldl (Opening.writeLevel0Table o) s).vs.nextFileNumber := by
  induction ms with
  | nil =>
    intro s
    exact Nat.le_refl _
  | cons m ms ih =>
    intro s
    refine Nat.le_trans ?_ (ih (s.writeLevel0Table o m))
    rw [(writeLevel0Table_frame s m).2]
    exact Nat.le_succ _

/-- A larger next file number. -/
theorem Progress.markUsed (hp : Progress v₀ pre.length done s files) (n : Nat) :
    Progress v₀ pre.length done { s with vs := s.vs.markFileNumberUsed n } files
      ∧ n < (s.vs.markFileNumberUsed n).nextFileNumber
      ∧ s.vs.nextFileNumber ≤ (s.vs.markFileNumberUsed n).nextFileNumber := by
  rw [VersionSet.markFileNumberUsed]
  split
  · rename_i hle
    have hle := Nat.le_succ_of_le hle
    exact ⟨hp.later hle, Nat.lt_succ_self n, hle⟩
  · rename_i hlt
    exact ⟨hp, Nat.lt_of_not_le hlt, Nat.le_refl _⟩

end Flush

section Logs

variable {o : OpenOptions} {v₀ : VersionSet} {pre : List Op}

/-- **One log.**  Either its operations are flushed, or it is used further with
    them in the memtable. -/
theorem recoverLog_spec (hsize : ∀ es, o.db.finishedSize es < 2 ^ 64) {done : List Op}
    {s : Opening} {files : List (FileMetaData × Table)}
    (hp : Progress v₀ pre.length done s files) {bs : List (List Op)} {k : Nat}
    (hk : k = pre.length + done.length) (hlog : LoggableAll k bs) (post : List Op)
    (hbound : (pre ++ done ++ bs.flatten ++ post).length ≤ kMaxSequenceNumber) (lastLog : Bool)
    (n : Nat) :
    n < (s.recoverLog o lastLog n (logBytes k bs)).vs.nextFileNumber
      ∧ s.vs.nextFileNumber ≤ (s.recoverLog o lastLog n (logBytes k bs)).vs.nextFileNumber
      ∧ (bs = [] → (s.recoverLog o lastLog n (logBytes k bs)).maxSequence = s.maxSequence)
      ∧ (bs ≠ [] → (s.recoverLog o lastLog n (logBytes k bs)).maxSequence
          = max s.maxSequence (k + bs.flatten.length))
      ∧ ((∃ files', Progress v₀ pre.length (done ++ bs.flatten)
            (s.recoverLog o lastLog n (logBytes k bs)) files'
          ∧ (s.recoverLog o lastLog n (logBytes k bs)).mem = s.mem)
        ∨ (lastLog = true
          ∧ Progress v₀ pre.length done (s.recoverLog o lastLog n (logBytes k bs)) files
          ∧ (s.recoverLog o lastLog n (logBytes k bs)).mem = some (memOf k bs.flatten)
          ∧ (s.recoverLog o lastLog n (logBytes k bs)).logFileNumber = n
          ∧ (s.recoverLog o lastLog n (logBytes k bs)).log.After (records k bs))) := by
  obtain ⟨hstatus, hnone, hsome, hcases⟩ :=
    recoverLogFile_logBytes o.recovery lastLog s.maxSequence hlog
  rw [Opening.recoverLog]
  rcases hr : recoverLogFile o.recovery lastLog s.maxSequence (logBytes k bs) with ⟨r, reused⟩
  rw [hr] at hstatus hnone hsome hcases
  simp only at hstatus hnone hsome hcases
  rcases hcases with ⟨rfl, hlast, hflushed, hmem⟩ | ⟨rfl, hsegs⟩
  · simp only [hflushed, List.foldl_nil, hstatus, if_true]
    have hp' : Progress v₀ pre.length done
        { s with status := .ok, maxSequence := r.maxSequence, mem := r.mem, logFileNumber := n
                 log := Writer.resume (logBytes k bs).length } files :=
      { hp with status := rfl }
    obtain ⟨hmark, hlt, hle⟩ := hp'.markUsed n
    exact ⟨hlt, hle, hnone, hsome, Or.inr ⟨hlast, hmark, hmem, trivial, after_resume _⟩⟩
  · simp only [hstatus, if_true, Bool.false_eq_true, if_false]
    obtain ⟨files', hp'⟩ := Progress.flushAll hsize hsegs hk hp hbound (fun op hop => by
      obtain ⟨b, hb, hop⟩ := List.mem_flatten.mp hop
      exact hlog.storable b hb op hop)
    have hp'' : Progress v₀ pre.length (done ++ bs.flatten)
        { r.flushed.foldl (Opening.writeLevel0Table o.db) s with
          status := .ok, maxSequence := r.maxSequence } files' :=
      { hp' with status := rfl }
    obtain ⟨hmark, hlt, hle⟩ := hp''.markUsed n
    exact ⟨hlt, Nat.le_trans (flushAll_next _ _) hle, hnone, hsome,
      Or.inl ⟨files', hmark, flushAll_mem _ _⟩⟩

/-- The last log is used further: its batches are in the memtable, the operations
    of the logs before it have been flushed. -/
structure Continued (k : Nat) (flushed rest : List Op) (ls : List (Nat × Slice)) (s : Opening)
    (old : List (Nat × Slice)) (bs : List (List Op)) : Prop where
  logs : ls = old ++ [(s.logFileNumber, logBytes (k + flushed.length) bs)]
  old : LogsHold k old flushed
  batches : bs.flatten = rest
  loggable : LoggableAll (k + flushed.length) bs
  mem : s.mem = some (memOf (k + flushed.length) rest)
  after : s.log.After (records (k + flushed.length) bs)

theorem Continued.cons {k : Nat} {flushed rest : List Op} {ls old : List (Nat × Slice)}
    {s : Opening} {bs cs : List (List Op)} (n : Nat) (hcs : LoggableAll k cs)
    (h : Continued (k + cs.flatten.length) flushed rest ls s old bs) :
    Continued k (cs.flatten ++ flushed) rest ((n, logBytes k cs) :: ls) s
      ((n, logBytes k cs) :: old) bs := by
  have hk : k + (cs.flatten ++ flushed).length = k + cs.flatten.length + flushed.length := by
    rw [List.length_append, Nat.add_assoc]
  refine ⟨?_, LogsHold.cons n cs hcs h.old, h.batches, ?_, ?_, ?_⟩
  · rw [hk, List.cons_append, ← h.logs]
  · rw [hk]
    exact h.loggable
  · rw [hk]
    exact h.mem
  · rw [hk]
    exact h.after

/-- **All logs.** -/
theorem recoverLogs_spec (hsize : ∀ es, o.db.finishedSize es < 2 ^ 64) {k : Nat}
    {ls : List (Nat × Slice)} {ops : List Op} (hl : LogsHold k ls ops) :
    ∀ {done : List Op} {s : Opening} {files : List (FileMetaData × Table)},
      k = pre.length + done.length → Progress v₀ pre.length done s files → s.mem = none →
      (pre ++ done ++ ops).length ≤ kMaxSequenceNumber →
      ∃ flushed rest files', ops = flushed ++ rest
        ∧ Progress v₀ pre.length (done ++ flushed) (s.recoverLogs o ls) files'
        ∧ s.vs.nextFileNumber ≤ (s.recoverLogs o ls).vs.nextFileNumber
        ∧ (∀ p ∈ ls, p.1 < (s.recoverLogs o ls).vs.nextFileNumber)
        ∧ ((∀ p ∈ ls, p.2 = []) → (s.recoverLogs o ls).maxSequence = s.maxSequence)
        ∧ ((∃ p ∈ ls, p.2 ≠ []) → (s.recoverLogs o ls).maxSequence
            = max s.maxSequence (k + ops.length))
        ∧ ((s.recoverLogs o ls).mem = none ∧ rest = []
          ∨ ∃ old bs, Continued k flushed rest ls (s.recoverLogs o ls) old bs) := by
  induction hl with
  | nil k =>
    intro done s files _ hp hmem _
    refine ⟨[], [], files, rfl, ?_, Nat.le_refl _, List.forall_mem_nil _,
      fun _ => rfl, fun ⟨p, hp, _⟩ => absurd hp List.not_mem_nil, Or.inl ⟨hmem, rfl⟩⟩
    rw [List.append_nil]
    exact hp
  | @cons k rest ops n bs hbs hrest ih =>
    intro done s files hk hp hmem hbound
    obtain ⟨hlt, hle, hnone, hsome, hcases⟩ := recoverLog_spec hsize hp hk hbs
      ops (by simpa only [List.append_assoc] using hbound) rest.isEmpty n
    rw [Opening.recoverLogs]
    generalize s.recoverLog o rest.isEmpty n (logBytes k bs) = s' at *
    rcases hcases with ⟨files', hp', hmem'⟩ | ⟨hlast, hp', hmem', hnumber, hafter⟩
    · rw [if_pos hp'.status]
      obtain ⟨flushed, rest', files'', hops, hp'', hle', hnums, hquiet, hloud, hend⟩ :=
        ih (by rw [List.length_append, hk, Nat.add_assoc]) hp' (hmem'.trans hmem)
          (by simpa only [List.append_assoc] using hbound)
      refine ⟨bs.flatten ++ flushed, rest', files'', by rw [hops, List.append_assoc], ?_,
        Nat.le_trans hle hle', ?_, ?_, ?_, ?_⟩
      · rw [← List.append_assoc]
        exact hp''
      · intro p hpm
        rcases List.mem_cons.mp hpm with rfl | hpm
        · exact Nat.lt_of_lt_of_le hlt hle'
        · exact hnums p hpm
      · intro hall
        rw [hquiet fun p hpm => hall p (List.mem_cons_of_mem _ hpm)]
        exact hnone (logBytes_eq_nil.mp (hall _ List.mem_cons_self))
      · intro hloudly
        by_cases hall : ∀ p ∈ rest, p.2 = []
        · -- the last batch is in this log
          have hops' : ops = [] := hrest.empty hall
          have hbs' : bs ≠ [] := by
            obtain ⟨p, hpm, hne⟩ := hloudly
            rcases List.mem_cons.mp hpm with rfl | hpm
            · exact fun hnil => hne (logBytes_eq_nil.mpr hnil)
            · exact absurd (hall p hpm) hne
          rw [hquiet hall, hsome hbs', hops', List.append_nil]
        · have hex : ∃ p ∈ rest, p.2 ≠ [] := by
            simpa only [not_forall, exists_prop] using hall
          rw [hloud hex, List.length_append]
          by_cases hbs' : bs = []
          · rw [hnone hbs', hbs', List.flatten_nil, List.length_nil, Nat.add_zero, Nat.zero_add]
          · rw [hsome hbs']
            omega
      · rcases hend with hend | ⟨old, cs, hcont⟩
        · exact Or.inl hend
        · exact Or.inr ⟨_, cs, hcont.cons n hbs⟩
    · obtain rfl : rest = [] := List.isEmpty_iff.mp hlast
      obtain rfl : ops = [] := hrest.empty nofun
      rw [if_pos hp'.status]
      refine ⟨[], bs.flatten, files, by rw [List.append_nil, List.nil_append], ?_, hle, ?_, ?_, ?_,
        Or.inr ⟨[], bs, ?_⟩⟩
      · rw [List.append_nil]
        exact hp'
      · intro p hpm
        rw [List.mem_singleton.mp hpm]
        exact hlt
      · intro hall
        exact hnone (logBytes_eq_nil.mp (hall _ List.mem_cons_self))
      · rintro ⟨p, hpm, hne⟩
        rw [List.mem_singleton.mp hpm] at hne
        rw [List.append_nil]
        exact hsome fun hnil => hne (logBytes_eq_nil.mpr hnil)
      · refine ⟨?_, LogsHold.nil k, rfl, hbs, hmem', hafter⟩
        show [(n, logBytes k bs)] = [] ++ [(s'.logFileNumber, logBytes k bs)]
        rw [hnumber, List.nil_append]

end Logs

/-! ## Recovery -/

section Recover

variable {o : OpenOptions} {name : Slice} {d : Disk} {h : List Op} {S : Entry → Prop} {w : View}

/-- No table of the version is missing. -/
theorem missing_eq_nil (hr : Recoverable name d h S w) : d.missing w.vs.current = [] := by
  rw [Disk.missing, List.filter_eq_nil_iff.mpr]
  · rfl
  · intro n hn
    obtain ⟨l, -, hn⟩ := List.mem_flatMap.mp hn
    obtain ⟨f, hf, rfl⟩ := List.mem_map.mp hn
    simp [hr.tables l f hf]

/-- What `VersionSet::Recover` makes of the directory. -/
structure Reopened (name : Slice) (d : Disk) (w : View) (v₀ : VersionSet) : Prop where
  consistent : Consistent name w.added v₀ d.manifests w.m w.es w.next w.recorded
  current : v₀.current = w.vs.current
  logNumber : v₀.logNumber = w.vs.logNumber
  prev : v₀.prevLogNumber = 0
  next : v₀.nextFileNumber = w.next + 1
  sequence : v₀.lastSequence = w.recorded

theorem reopened (hr : Recoverable name d h S w) (mo : ManifestOptions) :
    ∃ v₀ save, VersionSet.new.recover mo name d.manifests = (.ok, v₀, save)
      ∧ Reopened name d w v₀ ∧ (save = false → v₀.descriptorLog ≠ none) := by
  have hc := hr.consistent
  have hreopen := hc.reopen mo
  obtain ⟨hcur, hlog, hprev, hnext, -, hseq, -⟩ := recovered_spec hc
  rw [hr.prev] at hprev
  rw [recover_eq hc] at hreopen ⊢
  refine ⟨_, _, rfl, ?_⟩
  rcases reuseManifest_cases mo (recovered w.es) w.m (encodeAll 0 (w.es.map encodeTo)) with he | he
  · rw [he] at hreopen ⊢
    exact ⟨⟨hreopen, hcur, hlog, hprev, hnext, hseq⟩, nofun⟩
  · rw [he] at hreopen ⊢
    exact ⟨⟨hreopen, hcur, hlog, hprev, hnext, hseq⟩, fun _ => Option.some_ne_none _⟩

/-- **`DBImpl::Recover`** on a recoverable directory. -/
theorem recover_spec (hsize : ∀ es, o.db.finishedSize es < 2 ^ 64)
    (hr : Recoverable name d h S w) :
    ∃ v₀ flushed rest files, Reopened name d w v₀ ∧ h.drop w.start = flushed ++ rest
      ∧ Progress { v₀ with lastSequence := h.length } w.start flushed (LdbDurable.recover o name d) files
      ∧ (∀ p ∈ w.ls, p.1 < (LdbDurable.recover o name d).vs.nextFileNumber)
      ∧ ((LdbDurable.recover o name d).mem = none ∧ rest = []
        ∨ ∃ old bs, Continued w.start flushed rest w.ls (LdbDurable.recover o name d) old bs) := by
  obtain ⟨v₀, save, hrec, hv, hsave⟩ := reopened hr o.manifest
  have hmissing := missing_eq_nil hr
  rw [← hv.current] at hmissing
  have hlogs : d.neededLogs v₀ = w.ls :=
    neededLogs_eq (hv.logNumber.symm ▸ hr.needed) hv.prev hr.noLog
  have hpre : (h.take w.start).length = w.start := List.length_take_of_le hr.start
  have hstart : Progress v₀ (h.take w.start).length []
      ⟨.ok, v₀, {}, save, 0, none, 0, Writer.new, []⟩ [] :=
    { status := rfl
      vs := rfl
      le := Nat.le_refl _
      edit := rfl
      ops := rfl
      increasing := List.Pairwise.nil
      range := nofun
      fits := nofun
      points := nofun
      save := fun hf => ⟨hsave hf, rfl, rfl⟩
      has := fun e => by simp [opEntries] }
  obtain ⟨flushed, rest, files, hops, hp, -, hnums, hquiet, hloud, hend⟩ :=
    recoverLogs_spec hsize hr.logs (by rw [hpre]; rfl) hstart rfl (by
      rw [List.append_nil, List.take_append_drop]
      exact hr.bound)
  rw [hpre, List.nil_append] at hp
  generalize hs : (⟨.ok, v₀, {}, save, 0, none, 0, Writer.new, []⟩ : Opening).recoverLogs o w.ls = s
    at hp hnums hquiet hloud hend
  -- the last sequence number is that of the last batch, in a log or recorded
  have hseq : max w.recorded s.maxSequence = h.length := by
    have htotal : w.start + (h.drop w.start).length = h.length := by
      have := hr.start
      rw [List.length_drop]
      omega
    have hle := hr.recorded
    by_cases hall : ∀ p ∈ w.ls, p.2 = []
    · rw [hquiet hall]
      rcases hr.counted with hc | ⟨p, hpm, hne⟩
      · rw [hc]
        exact Nat.max_zero _
      · exact absurd (hall p hpm) hne
    · rw [hloud (by simpa only [not_forall, exists_prop] using hall), htotal]
      show max w.recorded (max 0 h.length) = h.length
      omega
  have heq : LdbDurable.recover o name d
      = { s with vs := { s.vs with lastSequence := h.length } } := by
    rw [LdbDurable.recover, hrec]
    simp only [hmissing, hlogs, ne_eq, not_true_eq_false, if_false, hs]
    have hlast : s.vs.lastSequence = w.recorded := by rw [hp.vs, ← hv.sequence]
    obtain ⟨status, ⟨current, ptr, nextFile, manifest, last, log, prev, desc⟩, edit, sv, mx, mem,
      ln, lg, ops⟩ := s
    obtain rfl : last = w.recorded := hlast
    by_cases hlt : w.recorded < mx
    · rw [if_pos ⟨hp.status, hlt⟩, VersionSet.setLastSequence, ← hseq, Nat.max_eq_right hlt.le]
    · rw [if_neg (fun hc => hlt hc.2), ← hseq, Nat.max_eq_left (Nat.le_of_not_lt hlt)]
  rw [heq]
  refine ⟨v₀, flushed, rest, files, hv, hops, { hp with vs := ?_ }, hnums, ?_⟩
  · rw [hp.vs]
  · rcases hend with hend | ⟨old, bs, hcont⟩
    · exact Or.inl hend
    · exact Or.inr ⟨old, bs, { hcont with }⟩

end Recover

/-! ## The tables and the log that `Open` writes -/

/-- The operations that write tables. -/
def tableOps (files : List (FileMetaData × Table)) : List DiskOp :=
  files.map fun p => .putTable p.1.number p.2

theorem applyAll_append (d : Disk) (a b : List DiskOp) :
    d.applyAll (a ++ b) = (d.applyAll a).applyAll b := List.foldl_append

/-- What holds of every prefix of a list, and of it with every prefix of another. -/
theorem prefixes_append {P : List DiskOp → Prop} {a b : List DiskOp} (ha : ∀ k, P (a.take k))
    (hb : ∀ j, P (a ++ b.take j)) (k : Nat) : P ((a ++ b).take k) := by
  rw [List.take_append]
  by_cases hk : k ≤ a.length
  · rw [Nat.sub_eq_zero_of_le hk, List.take_zero, List.append_nil]
    exact ha k
  · rw [List.take_of_length_le (Nat.le_of_not_le hk)]
    exact hb _

/-- Writing tables leaves everything else alone. -/
theorem applyAll_tableOps (files : List (FileMetaData × Table)) :
    ∀ d : Disk, (d.applyAll (tableOps files)).logs = d.logs
      ∧ (d.applyAll (tableOps files)).manifests = d.manifests
      ∧ ∀ n, (∀ p ∈ files, p.1.number ≠ n) → (d.applyAll (tableOps files)).tables n = d.tables n := by
  induction files with
  | nil =>
    intro d
    exact ⟨rfl, rfl, fun _ _ => rfl⟩
  | cons p rest ih =>
    intro d
    obtain ⟨hlogs, hmanifests, htables⟩ := ih (d.apply (.putTable p.1.number p.2))
    refine ⟨hlogs, hmanifests, fun n hn => ?_⟩
    refine (htables n fun q hq => hn q (List.mem_cons_of_mem _ hq)).trans ?_
    exact Function.update_of_ne (Ne.symm (hn p List.mem_cons_self)) _ _

/-- Tables with increasing numbers are all there in the end. -/
theorem applyAll_tableOps_mem (files : List (FileMetaData × Table)) :
    ∀ d : Disk, files.Pairwise (fun p q => p.1.number < q.1.number) →
      ∀ p ∈ files, (d.applyAll (tableOps files)).tables p.1.number = some p.2 := by
  induction files with
  | nil => nofun
  | cons q rest ih =>
    intro d hinc p hp
    obtain ⟨hq, hrest⟩ := List.pairwise_cons.mp hinc
    rcases List.mem_cons.mp hp with rfl | hp
    · refine ((applyAll_tableOps rest (d.apply (.putTable p.1.number p.2))).2.2 p.1.number
        fun r hr => Nat.ne_of_gt (hq r hr)).trans ?_
      exact Function.update_self _ _ _
    · exact ih _ hrest p hp

theorem recoverable_tableOps {name : Slice} {h : List Op} {S : Entry → Prop} {w : View}
    (files : List (FileMetaData × Table)) :
    ∀ {d : Disk}, Recoverable name d h S w → (∀ p ∈ files, w.next < p.1.number) →
      Recoverable name (d.applyAll (tableOps files)) h S w := by
  induction files with
  | nil =>
    intro d hr _
    exact hr
  | cons p rest ih =>
    intro d hr hn
    exact ih (hr.putTable (hn p List.mem_cons_self) p.2)
      fun q hq => hn q (List.mem_cons_of_mem _ hq)

/-! ## The process that `Open` returns -/

section Opened

variable {name : Slice} {d : Disk} {h : List Op} {S : Entry → Prop} {w : View}
  {flushed rest : List Op} {files : List (FileMetaData × Table)}

/-- The version with the flushed tables on level 0. -/
structure WithFiles (v v' : Version) (files : List (FileMetaData × Table)) : Prop where
  mem : ∀ l f, f ∈ v'.files l ↔ f ∈ v.files l ∨ (l = 0 ∧ ∃ p ∈ files, p.1 = f)
  sorted : ∀ l, (v'.files l).Pairwise bySmallestKey

/-- The tables of the new version in the new directory. -/
structure TablesThere (d d' : Disk) (v : Version) (files : List (FileMetaData × Table)) : Prop where
  old : ∀ l, ∀ f ∈ v.files l, d'.tables f.number = d.tables f.number
  new : ∀ p ∈ files, d'.tables p.1.number = some p.2

theorem withFiles_listed {v v' : Version} {n n' : Nat} (hv : Listed v n)
    (hw : WithFiles v v' files) (hinc : files.Pairwise fun p q => p.1.number < q.1.number)
    (hrange : ∀ p ∈ files, n ≤ p.1.number ∧ p.1.number < n') (hle : n ≤ n') : Listed v' n' := by
  refine ⟨fun l f hf => ?_, fun l l' f g hf hg heq => ?_, hw.sorted, fun l hl => ?_⟩
  · rcases (hw.mem l f).mp hf with hf | ⟨-, p, hp, rfl⟩
    · exact Nat.lt_of_lt_of_le (hv.number l f hf) hle
    · exact (hrange p hp).2
  · rcases (hw.mem l f).mp hf with hf | ⟨rfl, p, hp, rfl⟩ <;>
      rcases (hw.mem l' g).mp hg with hg | ⟨rfl, q, hq, rfl⟩
    · exact hv.unique l l' f g hf hg heq
    · have h1 := hv.number l f hf
      have h2 := (hrange q hq).1
      omega
    · have h1 := hv.number l' g hg
      have h2 := (hrange p hp).1
      omega
    · refine ⟨rfl, ?_⟩
      rcases OrderedLists.pairwise_trichotomy hinc hp hq with rfl | hlt | hlt
      · rfl
      · exact absurd heq (Nat.ne_of_lt hlt)
      · exact absurd heq (Nat.ne_of_gt hlt)
  · refine List.eq_nil_iff_forall_not_mem.mpr fun f hf => ?_
    rcases (hw.mem l f).mp hf with hf | ⟨rfl, -⟩
    · rw [hv.levels l hl] at hf
      cases hf
    · exact absurd hl (by decide)

variable {d' : Disk}

/-- **The contents after `Open`**: flushed tables, old tables and memtable together
    hold what the directory held. -/
theorem opened_has (hr : Recoverable name d h S w) {v' : Version} {db : DB}
    (hops : h.drop w.start = flushed ++ rest) (hw : WithFiles w.vs.current v' files)
    (ht : TablesThere d d' w.vs.current files)
    (hhas : ∀ e, (∃ p ∈ files, TableHas p.2 e) ↔ e ∈ opEntries flushed (w.start + 1))
    (hcur : db.current = v') (htab : db.tables = d'.tableAt) (himm : db.imm = none)
    (hmem : db.mem = memOf (w.start + flushed.length) rest) (e : Entry) : Has db e ↔ S e := by
  have hversion : VersionHas d'.tableAt v' e
      ↔ VersionHas d.tableAt w.vs.current e ∨ e ∈ opEntries flushed (w.start + 1) := by
    rw [← hhas e]
    constructor
    · rintro ⟨l, f, hf, he⟩
      rcases (hw.mem l f).mp hf with hf | ⟨rfl, p, hp, rfl⟩
      · rw [Disk.tableAt, ht.old l f hf] at he
        exact Or.inl ⟨l, f, hf, he⟩
      · rw [Disk.tableAt, ht.new p hp] at he
        exact Or.inr ⟨p, hp, he⟩
    · rintro (⟨l, f, hf, he⟩ | ⟨p, hp, he⟩)
      · refine ⟨l, f, (hw.mem l f).mpr (Or.inl hf), ?_⟩
        rw [Disk.tableAt, ht.old l f hf]
        exact he
      · refine ⟨0, p.1, (hw.mem 0 p.1).mpr (Or.inr ⟨rfl, p, hp, rfl⟩), ?_⟩
        rw [Disk.tableAt, ht.new p hp]
        exact he
  have hend : w.start + 1 + flushed.length = w.start + flushed.length + 1 := Nat.add_right_comm ..
  rw [Has, hcur, htab, himm, hmem, mem_memOf, hversion, hr.contents e, hops, opEntries_append,
    List.mem_append, hend]
  constructor
  · rintro (hm | ⟨m, hm, -⟩ | hv | hf)
    · exact Or.inr (Or.inr hm)
    · cases hm
    · exact Or.inl hv
    · exact Or.inr (Or.inl hf)
  · rintro (hv | hf | hm)
    · exact Or.inr (Or.inr (Or.inl hv))
    · exact Or.inr (Or.inr (Or.inr hf))
    · exact Or.inl hm

/-- `Open` before it logs its edit: the logs have been replayed, and there is a log
    to go on with, the last one or a new one. -/
structure Ready (name : Slice) (d : Disk) (h : List Op) (S : Entry → Prop) (w : View)
    (v₀ : VersionSet) (flushed rest : List Op) (files : List (FileMetaData × Table)) (s : Opening)
    (ls old : List (Nat × Slice)) (bs : List (List Op)) : Prop where
  reopened : Reopened name d w v₀
  operations : h.drop w.start = flushed ++ rest
  progress : Progress { v₀ with lastSequence := h.length } w.start flushed
    { s with ops := tableOps files } files
  continued : Continued w.start flushed rest ls s old bs
  numbers : ∀ p ∈ ls, p.1 < s.vs.nextFileNumber
  tables : TablesThere d (d.applyAll s.ops) w.vs.current files
  manifests : (d.applyAll s.ops).manifests = d.manifests
  recoverable : Recoverable name (d.applyAll s.ops) h S { w with ls := ls }
  prefixes : ∀ k, ∃ w', Recoverable name (d.applyAll (s.ops.take k)) h S w'

/-- Every prefix of the table operations leaves the directory recoverable. -/
theorem recoverable_tableOps_take (hr : Recoverable name d h S w)
    (hn : ∀ p ∈ files, w.next < p.1.number) (k : Nat) :
    Recoverable name (d.applyAll ((tableOps files).take k)) h S w := by
  rw [tableOps, ← List.map_take]
  exact recoverable_tableOps (files.take k) hr fun p hp => hn p (List.mem_of_mem_take hp)

/-- **`Open` gets ready.** -/
theorem createLog_spec {o : OpenOptions} (hsize : ∀ es, o.db.finishedSize es < 2 ^ 64)
    (hr : Recoverable name d h S w) :
    ∃ v₀ flushed rest files ls old bs, Ready name d h S w v₀ flushed rest files
      (LdbDurable.recover o name d).createLog ls old bs := by
  obtain ⟨v₀, flushed, rest, files, hv, hops, hp, hnums, hend⟩ := recover_spec hsize hr
  generalize LdbDurable.recover o name d = s at hp hnums hend ⊢
  have hnext : ∀ p ∈ files, w.next < p.1.number := by
    intro p hpf
    have := (hp.range p hpf).1
    rw [hv.next] at this
    exact this
  have htab := recoverable_tableOps files hr hnext
  have hlater : w.next < s.vs.nextFileNumber := by
    have := hp.le
    rw [hv.next] at this
    exact this
  obtain ⟨hlogs, hman, hother⟩ := applyAll_tableOps files d
  have hthere : TablesThere d (d.applyAll (tableOps files)) w.vs.current files := by
    refine ⟨fun l f hf => hother _ fun p hpf => ?_, applyAll_tableOps_mem files d hp.increasing⟩
    have := hr.consistent.replays.number_le hf
    have := hnext p hpf
    omega
  have hsops : s.ops = tableOps files := hp.ops
  refine ⟨v₀, flushed, rest, files, ?_⟩
  rcases hend with ⟨hmem, rfl⟩ | ⟨old, bs, hcont⟩
  · -- no log is used further
    rw [Opening.createLog, hmem]
    have hfirst : w.vs.logNumber ≤ s.vs.nextFileNumber :=
      Nat.le_trans hr.consistent.replays.logs_le.1 hlater.le
    have hlog := htab.putLog hnums hfirst (Nat.lt_of_le_of_lt (Nat.zero_le _) hlater)
    have hbound : w.start + flushed.length ≤ kMaxSequenceNumber := by
      have hlen := congrArg List.length hops
      rw [List.length_drop, List.append_nil] at hlen
      have := hr.start
      have := hr.bound
      omega
    refine ⟨w.ls ++ [(s.vs.nextFileNumber, [])], w.ls, [], ?_⟩
    refine ⟨hv, hops, ?_, ?_, ?_, ?_, ?_, ?_, ?_⟩
    · exact { hp.later (Nat.le_succ _) with ops := rfl }
    · refine ⟨rfl, ?_, rfl, ?_, rfl, after_new⟩
      · have := hr.logs
        rw [hops, List.append_nil] at this
        exact this
      · exact ⟨hbound, nofun, nofun⟩
    · exact List.forall_mem_append.mpr ⟨fun p hpm => Nat.lt_succ_of_lt (hnums p hpm),
        List.forall_mem_singleton.mpr (Nat.lt_succ_self _)⟩
    · rw [hsops, applyAll_append]
      exact ⟨hthere.old, hthere.new⟩
    · rw [hsops, applyAll_append]
      exact hman
    · rw [hsops, applyAll_append]
      exact hlog
    · refine prefixes_append (P := fun ops => ∃ w', Recoverable name (d.applyAll ops) h S w')
        (fun k => ?_) fun j => ?_
      · rw [hsops]
        exact ⟨w, recoverable_tableOps_take hr hnext k⟩
      · rw [hsops, applyAll_append]
        cases j with
        | zero => exact ⟨w, htab⟩
        | succ j =>
          rw [List.take_succ_cons, List.take_nil]
          exact ⟨_, hlog⟩
  · rw [Opening.createLog, hcont.mem]
    refine ⟨w.ls, old, bs, ?_⟩
    refine ⟨hv, hops, { hp with ops := rfl }, hcont, hnums, ?_, ?_, ?_, ?_⟩
    · rw [hsops]
      exact hthere
    · rw [hsops]
      exact hman
    · rw [hsops]
      exact htab
    · intro k
      rw [hsops]
      exact ⟨w, recoverable_tableOps_take hr hnext k⟩

/-- `LogAndApply` hands out no file number. -/
theorem logAndApply_next (vs : VersionSet) (name : Slice) (io : ManifestIO) (disk : Manifests)
    (edit : VersionEdit) :
    (vs.logAndApply name io disk edit).2.1.nextFileNumber = vs.nextFileNumber := by
  unfold VersionSet.logAndApply
  dsimp only
  repeat' split
  all_goals rfl

variable {disk : Manifests}

/-- What `Open` does to the directory when it goes on with the MANIFEST. -/
theorem manifestOps_open {vs vs' : VersionSet} {edit : VersionEdit} {wr : Writer}
    {bytes : Slice} (hw : vs.descriptorLog = some wr)
    (heq : vs.logAndApply name {} disk edit = (.ok, vs', disk.put vs.manifestFileNumber bytes)) :
    manifestOps name vs disk edit = [.putManifest vs.manifestFileNumber bytes] := by
  rw [manifestOps, heq]
  simp only [hw, Manifests.put_files, Option.getD_some]

/-- And when it starts a new one. -/
theorem manifestOps_new {vs vs' : VersionSet} {edit : VersionEdit} {bytes : Slice}
    (hw : vs.descriptorLog = none)
    (heq : vs.logAndApply name {} disk edit
      = (.ok, vs', (disk.put vs.manifestFileNumber bytes).setCurrent vs.manifestFileNumber)) :
    ∃ snapshot, manifestOps name vs disk edit = [.putManifest vs.manifestFileNumber snapshot,
      .putManifest vs.manifestFileNumber bytes, .setCurrent vs.manifestFileNumber] := by
  have hbytes : ((disk.put vs.manifestFileNumber bytes).setCurrent vs.manifestFileNumber).files
      vs.manifestFileNumber = some bytes := Manifests.put_files _ _ _
  rw [manifestOps, heq]
  simp only [hw, hbytes, Option.getD_some]
  exact ⟨_, rfl⟩

/-- **What `Open` achieves**: the process it returns holds the entries of the
    directory, and wherever a process dies on the way, the directory still holds
    them. -/
structure Opened (o : Options) (name : Slice) (d : Disk) (h : List Op) (S : Entry → Prop)
    (s : Opening) : Prop where
  status : s.status = .ok
  has : ∀ e, Has (s.process (d.applyAll s.ops)).db e ↔ S e
  live : ∃ w', Live o name (s.process (d.applyAll s.ops)) (d.applyAll s.ops) h w'
  prefixes : ∀ k, ∃ w', Recoverable name (d.applyAll (s.ops.take k)) h S w'

section Serve

variable {v₀ : VersionSet} {s : Opening} {ls old : List (Nat × Slice)} {bs : List (List Op)}

/-- The tables of the version are in the directory. -/
theorem tables_eq (hr : Recoverable name d h S w) {v : Version}
    (hw : WithFiles w.vs.current v files) (ht : TablesThere d d' w.vs.current files) :
    ∀ l, ∀ f ∈ v.files l, d'.tables f.number = some (d'.tableAt f.number) := by
  intro l f hf
  rcases (hw.mem l f).mp hf with hf | ⟨-, p, hp, rfl⟩
  · obtain ⟨t, ht'⟩ := Option.ne_none_iff_exists'.mp (hr.tables l f hf)
    rw [Disk.tableAt, ht.old l f hf, ht', Option.getD_some]
  · rw [Disk.tableAt, ht.new p hp, Option.getD_some]

variable (hr : Recoverable name d h S w)
  (hy : Ready name d h S w v₀ flushed rest files s ls old bs)

include hy

/-- What is left for the memtable. -/
theorem Ready.rest_eq : h.drop (w.start + flushed.length) = rest := by
  rw [← List.drop_drop, hy.operations, List.drop_left]

theorem Ready.lastSequence_eq : s.vs.lastSequence = h.length :=
  congrArg VersionSet.lastSequence hy.progress.vs

theorem Ready.current_eq : s.vs.current = w.vs.current :=
  (congrArg VersionSet.current hy.progress.vs).trans hy.reopened.current

theorem Ready.logNumber_eq : s.vs.logNumber = w.vs.logNumber :=
  (congrArg VersionSet.logNumber hy.progress.vs).trans hy.reopened.logNumber

theorem Ready.next_lt : w.next < s.vs.nextFileNumber := by
  rw [← Nat.succ_le_iff, Nat.succ_eq_add_one, ← hy.reopened.next]
  exact hy.progress.le

theorem Ready.range (p) (hp : p ∈ files) :
    w.next < p.1.number ∧ p.1.number < s.vs.nextFileNumber := by
  rw [← Nat.succ_le_iff, Nat.succ_eq_add_one, ← hy.reopened.next]
  exact hy.progress.range p hp

/-- The version set before the edit is logged. -/
theorem Ready.consistent :
    Consistent name w.added s.vs d.manifests w.m w.es w.next w.recorded := by
  have hmono := hy.reopened.consistent.mono hy.progress.le h.length
  have hvs := hy.progress.vs
  simp only at hvs
  rw [hvs]
  exact hmono

theorem Ready.finalEdit_eq :
    s.finalEdit = { newFiles := files.map fun p => (0, p.1), prevLogNumber := some 0,
                    logNumber := some s.logFileNumber } := by
  have hedit : s.edit = { newFiles := files.map fun p => (0, p.1) } := hy.progress.edit
  rw [Opening.finalEdit, hedit]

include hr

theorem Ready.length : w.start + flushed.length + rest.length = h.length := by
  have hlen := congrArg List.length hy.operations
  rw [List.length_drop, List.length_append] at hlen
  have := hr.start
  omega

/-- **The database that `Open` returns.** -/
theorem Ready.core {vs : VersionSet}
    (hw : WithFiles w.vs.current vs.current files) (ht : TablesThere d d' w.vs.current files)
    (hnext : vs.nextFileNumber = s.vs.nextFileNumber) (hlast : vs.lastSequence = h.length) :
    (∀ e, Has ({ s with vs := vs }.process d').db e ↔ S e)
      ∧ LdbCore.Core ({ s with vs := vs }.process d').db h := by
  have hmem : ({ s with vs := vs }.process d').db.mem = memOf (w.start + flushed.length) rest := by
    show s.mem.getD MemTable.empty = _
    rw [hy.continued.mem, Option.getD_some]
  have hhas : ∀ e, Has ({ s with vs := vs }.process d').db e ↔ S e :=
    opened_has hr hy.operations hw ht hy.progress.has rfl rfl rfl hmem
  refine ⟨hhas, core_of_complete hlast hr.bound ?_ ?_ ?_ rfl rfl ?_⟩
  · show Listed vs.current vs.nextFileNumber
    rw [hnext]
    exact withFiles_listed hr.listed hw hy.progress.increasing hy.range hy.next_lt
  · intro l f hf
    show ∀ e ∈ (d'.tableAt f.number).entries, e.isPoint = true
    rcases (hw.mem l f).mp hf with hf | ⟨-, p, hp, rfl⟩
    · rw [Disk.tableAt, ht.old l f hf]
      exact hr.points l f hf
    · rw [Disk.tableAt, ht.new p hp]
      exact hy.progress.points p hp
  · have hsplit : h = (h.take w.start ++ flushed) ++ rest ++ [] := by
      rw [List.append_nil, List.append_assoc, ← hy.operations, List.take_append_drop]
    have hpre : (h.take w.start ++ flushed).length = w.start + flushed.length := by
      rw [List.length_append, List.length_take_of_le hr.start]
    rw [hmem, ← hpre]
    nth_rewrite 1 [hsplit]
    exact memOK_memOf _ _ _
  · exact hr.complete.congr hhas

/-- The logs of the process that `Open` returns, from any of the logs on that the
    MANIFEST still needs. -/
theorem Ready.logged (vs : VersionSet) (d' : Disk)
    (hlogs : d'.logs = (d.applyAll s.ops).logs) (hnext : vs.nextFileNumber = s.vs.nextFileNumber)
    {m : Nat} {es : List VersionEdit} {next recorded : Nat} {added : List (Nat × Nat)}
    {immStart : Nat} {immOps : List Op} {old' : List (Nat × Slice)}
    (hneeded : Needed d'.logs vs.logNumber
      (old' ++ [(s.logFileNumber, logBytes (w.start + flushed.length) bs)]))
    (hold : LogsHold immStart old' immOps) (hnone : immOps = [])
    (hseam : w.start + flushed.length = immStart + immOps.length) (hrec : recorded ≤ h.length)
    (hcount : recorded = h.length
      ∨ ∃ q ∈ old' ++ [(s.logFileNumber, logBytes (w.start + flushed.length) bs)], q.2 ≠ []) :
    Logged ({ s with vs := vs }.process d') d' h
      ⟨m, es, next, recorded, added, immStart, immOps, old', w.start + flushed.length, bs⟩ := by
  have hlen := hy.length hr
  refine
    { noLog := ?_
      number := fun n hn => ?_
      needed := hneeded
      old := hold
      imm := Or.inl ⟨rfl, hnone⟩
      seam := hseam
      split := ?_
      start := ?_
      mem := ?_
      batches := ?_
      loggable := hy.continued.loggable
      after := hy.continued.after
      recorded := hrec
      counted := hcount }
  · rw [hlogs]
    exact hy.recoverable.noLog
  · show n < vs.nextFileNumber
    rw [hnext]
    rw [hlogs] at hn
    obtain ⟨file, hfile⟩ := Option.ne_none_iff_exists'.mp hn
    by_cases hle : w.vs.logNumber ≤ n
    · exact hy.numbers (n, file) ((hy.recoverable.needed.mem n file).mpr ⟨hfile, hle⟩)
    · have h1 := hr.consistent.replays.logs_le.1
      have h2 := hy.next_lt
      omega
  · subst hnone
    rw [hseam]
    rfl
  · show w.start + flushed.length ≤ h.length
    omega
  · show s.mem.getD MemTable.empty = memOf _ (h.drop (w.start + flushed.length))
    rw [hy.continued.mem, Option.getD_some, hy.rest_eq]
  · show bs.flatten = h.drop (w.start + flushed.length) ++ []
    rw [hy.continued.batches, List.append_nil, hy.rest_eq]

/-- `Open` without an edit to log. -/
theorem Ready.live_kept (hsave : s.saveManifest = false) (o : Options) :
    (∀ e, Has (s.process (d.applyAll s.ops)).db e ↔ S e)
      ∧ ∃ w', Live o name (s.process (d.applyAll s.ops)) (d.applyAll s.ops) h w' := by
  obtain ⟨hdesc, hfiles, hflushed⟩ := hy.progress.save hsave
  subst hfiles hflushed
  have hvs := hy.progress.vs
  have hwith : WithFiles w.vs.current s.vs.current [] := by
    rw [hy.current_eq]
    refine ⟨fun l f => ⟨Or.inl, ?_⟩, hr.listed.sorted⟩
    rintro (hf | ⟨-, p, hp, -⟩)
    · exact hf
    · cases hp
  obtain ⟨hhas, hcore⟩ := hy.core hr hwith hy.tables rfl hy.lastSequence_eq
  refine ⟨hhas, ⟨w.m, w.es, w.next, w.recorded, w.added, w.start, [], old, w.start, bs⟩, ?_⟩
  refine
    { core := hcore
      consistent := ?_
      attached := (congrArg VersionSet.descriptorLog hvs).trans_ne hdesc
      descends := ?_
      outputs := nofun
      prev := (congrArg VersionSet.prevLogNumber hvs).trans hy.reopened.prev
      tables := tables_eq hr hwith hy.tables
      flushing := nofun
      flushed := nofun
      logged := ?_ }
  · show Consistent name w.added s.vs (d.applyAll s.ops).manifests w.m w.es w.next w.recorded
    rw [hy.manifests]
    exact hy.consistent
  · show Descends w.added s.vs.current w.next
    rw [hy.current_eq]
    exact hr.descends
  · refine hy.logged hr s.vs _ rfl rfl ?_ hy.continued.old rfl rfl hr.recorded ?_
    · rw [hy.logNumber_eq, ← hy.continued.logs]
      exact hy.recoverable.needed
    · rw [← hy.continued.logs]
      exact hy.recoverable.counted

/-- The edit of `Open` may be logged. -/
theorem Ready.admissible (hroom : s.vs.nextFileNumber < 2 ^ 64) :
    Admissible name w.added s.vs s.finalEdit := by
  have hcurrent : (s.logFileNumber, logBytes (w.start + flushed.length) bs) ∈ ls := by
    rw [hy.continued.logs]
    exact List.mem_append_right _ (List.mem_singleton.mpr rfl)
  have hlog := hy.numbers _ hcurrent
  have hfirst : w.vs.logNumber ≤ s.logFileNumber := ((hy.recoverable.needed.mem _ _).mp hcurrent).2
  rw [hy.finalEdit_eq]
  refine
    { fits := ⟨nofun, ?_, ?_, ?_, ?_, nofun, nofun, ?_,
        List.Pairwise.nil⟩
      name := nofun
      log := ?_
      prevLog := ?_
      deleted := nofun
      new := fun p hp => ?_
      nodup := ?_
      once := fun p hp hin => ?_ }
  · intro n hn
    cases hn
    exact Nat.lt_trans hlog hroom
  · intro n hn
    cases hn
    exact Nat.two_pow_pos 64
  · intro n hn
    cases hn
    exact hroom
  · intro n hn
    cases hn
    rw [hy.lastSequence_eq]
    exact Nat.lt_of_le_of_lt hr.bound (by decide)
  · intro p hp
    obtain ⟨q, hq, rfl⟩ := List.mem_map.mp hp
    exact ⟨Nat.succ_pos 6, hy.progress.fits q hq (Nat.lt_trans (hy.range q hq).2 hroom)⟩
  · intro n hn
    cases hn
    rw [hy.logNumber_eq]
    exact ⟨hfirst, hlog⟩
  · intro n hn
    cases hn
    exact Nat.lt_of_le_of_lt (Nat.zero_le _) hlog
  · obtain ⟨q, hq, rfl⟩ := List.mem_map.mp hp
    exact (hy.range q hq).2
  · rw [List.map_map]
    refine List.pairwise_map.mpr (hy.progress.increasing.imp fun {p q} hlt heq => ?_)
    exact Nat.ne_of_lt hlt (Prod.mk.inj heq).2
  · obtain ⟨q, hq, rfl⟩ := List.mem_map.mp hp
    exact Nat.lt_asymm (hr.descends.bound _ hin) (hy.range q hq).1

section

variable (hadm : Admissible name w.added s.vs s.finalEdit)
include hadm

/-- The version after the edit of `Open`. -/
theorem Ready.withFiles (wr : Writer) :
    WithFiles w.vs.current (applied s.vs s.finalEdit wr).current files := by
  have hfresh := hy.consistent.replays.inStep.freshFor (hadm.fresh hy.consistent.added)
  refine ⟨fun l f => ?_, fun l => ?_⟩
  · show f ∈ (applyEdit s.vs.current (s.vs.complete s.finalEdit)).files l ↔ _
    rw [mem_applyEdit hfresh, hy.current_eq, hy.finalEdit_eq]
    show (_ ∧ (l, f.number) ∉ []) ∨ (l, f) ∈ (files.map fun p => ((0, p.1) : Nat × FileMetaData)) ↔ _
    simp only [List.not_mem_nil, not_false_eq_true, and_true, List.mem_map, Prod.mk.injEq]
    refine or_congr_right ⟨?_, ?_⟩
    · rintro ⟨p, hp, rfl, rfl⟩
      exact ⟨rfl, p, hp, rfl⟩
    · rintro ⟨rfl, p, hp, rfl⟩
      exact ⟨p, hp, rfl, rfl⟩
  · refine applyEdit_sorted hfresh ?_
    rw [hy.current_eq]
    exact hr.listed.sorted l

/-- `Open` after its edit has been logged. -/
theorem Ready.live_logged {wr : Writer} {m : Nat} {es : List VersionEdit}
    (hc : Consistent name (addedBy s.finalEdit ++ w.added) (applied s.vs s.finalEdit wr) disk m es
      s.vs.nextFileNumber s.vs.lastSequence) (o : Options)
    (hd' : d' = { d.applyAll s.ops with manifests := disk }) :
    (∀ e, Has ({ s with vs := applied s.vs s.finalEdit wr }.process d').db e ↔ S e)
      ∧ ∃ w', Live o name ({ s with vs := applied s.vs s.finalEdit wr }.process d') d' h w' := by
  subst hd'
  have hwith := hy.withFiles hr hadm wr
  have ht : TablesThere d { d.applyAll s.ops with manifests := disk } w.vs.current files :=
    ⟨hy.tables.old, hy.tables.new⟩
  have hlast := hy.lastSequence_eq
  obtain ⟨hhas, hcore⟩ := hy.core hr hwith ht rfl hlast
  refine ⟨hhas, ⟨m, es, s.vs.nextFileNumber, s.vs.lastSequence, addedBy s.finalEdit ++ w.added,
    w.start + flushed.length, [], [], w.start + flushed.length, bs⟩, ?_⟩
  have hby : ∀ q ∈ addedBy s.finalEdit, q.1 = 0 ∧ q.2 < s.vs.nextFileNumber := by
    rw [hy.finalEdit_eq]
    intro q hq
    obtain ⟨p, hp, rfl⟩ := List.mem_map.mp hq
    obtain ⟨p, hpf, rfl⟩ := List.mem_map.mp hp
    exact ⟨rfl, (hy.range p hpf).2⟩
  refine
    { core := hcore
      consistent := hc
      attached := Option.some_ne_none _
      descends := ⟨fun q hq => ?_, fun q hq l f hf heq => ?_⟩
      outputs := nofun
      prev := ?_
      tables := tables_eq hr hwith ht
      flushing := nofun
      flushed := nofun
      logged := ?_ }
  · rcases List.mem_append.mp hq with hq | hq
    · exact (hby q hq).2
    · exact Nat.lt_trans (hr.descends.bound q hq) hy.next_lt
  · rcases List.mem_append.mp hq with hq | hq
    · rw [(hby q hq).1]
      exact Nat.zero_le _
    · rcases (hwith.mem l f).mp hf with hf | ⟨-, p, hp, rfl⟩
      · exact hr.descends.down q hq l f hf heq
      · exact absurd heq (Nat.ne_of_gt (Nat.lt_trans (hr.descends.bound q hq) (hy.range p hp).1))
  · show s.finalEdit.prevLogNumber.getD s.vs.prevLogNumber = 0
    rw [hy.finalEdit_eq]
    rfl
  · refine hy.logged hr (applied s.vs s.finalEdit wr)
      { d.applyAll s.ops with manifests := disk } rfl rfl ?_ (LogsHold.nil _) rfl rfl
      (Nat.le_of_eq hlast) (Or.inl hlast)
    have hneeded := hy.recoverable.needed
    simp only at hneeded
    rw [hy.continued.logs] at hneeded
    show Needed (d.applyAll s.ops).logs (s.finalEdit.logNumber.getD s.vs.logNumber) _
    rw [hy.finalEdit_eq]
    exact hneeded.last

/-- Logging the edit in the MANIFEST there is. -/
theorem Ready.append (hsave : s.saveManifest = true) {wr : Writer}
    (hw : s.vs.descriptorLog = some wr) (o : Options) : Opened o name d h S (s.logEdit name d) := by
  obtain ⟨wr', heq, hc⟩ := hy.consistent.append hadm hw
  have hm : s.vs.manifestFileNumber = w.m := by
    have hattached := hy.consistent.attached
    rw [Attached, hw] at hattached
    exact hattached.1
  rw [← hm] at heq hc
  rw [Opening.logEdit, if_pos hsave, manifestOps_open hw heq, heq]
  generalize encodeAll 0 ((w.es ++ [s.vs.complete s.finalEdit]).map encodeTo) = bytes at hc ⊢
  have hd' : d.applyAll (s.ops ++ [.putManifest s.vs.manifestFileNumber bytes])
      = { d.applyAll s.ops with manifests := d.manifests.put s.vs.manifestFileNumber bytes } := by
    rw [applyAll_append, ← hy.manifests]
    rfl
  obtain ⟨hhas, w', hlive⟩ := hy.live_logged hr hadm hc o hd'
  refine ⟨hy.progress.status, hhas, ⟨w', hlive⟩, ?_⟩
  refine prefixes_append (P := fun ops => ∃ w', Recoverable name (d.applyAll ops) h S w')
    hy.prefixes fun j => ?_
  cases j with
  | zero =>
    rw [List.take_zero, List.append_nil]
    exact ⟨_, hy.recoverable⟩
  | succ j =>
    rw [List.take_succ_cons, List.take_nil]
    exact hlive.recoverable_idle rfl hhas

end

/-- Logging the edit in a new MANIFEST. -/
theorem Ready.restart (hname : name.length < 2 ^ 32)
    (hadm : Admissible name w.added s.vs s.finalEdit) (hsave : s.saveManifest = true)
    (hw : s.vs.descriptorLog = none) (o : Options) : Opened o name d h S (s.logEdit name d) := by
  obtain ⟨wr', bytes, heq, hc⟩ := hy.consistent.restart hname hadm hw
  have hm : w.m ≠ s.vs.manifestFileNumber := by
    have hattached := hy.consistent.attached
    rw [Attached, hw] at hattached
    exact Nat.ne_of_lt hattached.1
  obtain ⟨snapshot, hops⟩ := manifestOps_new hw heq
  rw [Opening.logEdit, if_pos hsave, hops, heq]
  have hd' : d.applyAll (s.ops ++ [.putManifest s.vs.manifestFileNumber snapshot,
        .putManifest s.vs.manifestFileNumber bytes, .setCurrent s.vs.manifestFileNumber])
      = { d.applyAll s.ops with
          manifests := (d.manifests.put s.vs.manifestFileNumber bytes).setCurrent
            s.vs.manifestFileNumber } := by
    rw [applyAll_append, ← hy.manifests,
      ← Manifests.put_put (d.applyAll s.ops).manifests s.vs.manifestFileNumber snapshot bytes]
    rfl
  obtain ⟨hhas, w', hlive⟩ := hy.live_logged hr hadm hc o hd'
  refine ⟨hy.progress.status, hhas, ⟨w', hlive⟩, ?_⟩
  refine prefixes_append (P := fun ops => ∃ w', Recoverable name (d.applyAll ops) h S w')
    hy.prefixes fun j => ?_
  -- until `CURRENT` names it, the new MANIFEST is not looked at
  rcases j with _ | _ | _ | j
  · rw [List.take_zero, List.append_nil]
    exact ⟨_, hy.recoverable⟩
  · rw [applyAll_append]
    exact ⟨_, hy.recoverable.putManifest hm snapshot⟩
  · rw [applyAll_append]
    exact ⟨_, (hy.recoverable.putManifest hm snapshot).putManifest hm bytes⟩
  · rw [List.take_of_length_le (by simp)]
    exact hlive.recoverable_idle rfl hhas

end Serve

/-- **`DB::Open` on a recoverable directory.** -/
theorem openDB_spec {o : OpenOptions} (hname : name.length < 2 ^ 32)
    (hsize : ∀ es, o.db.finishedSize es < 2 ^ 64) (hr : Recoverable name d h S w)
    (hroom : (openDB o name d).vs.nextFileNumber < 2 ^ 64) :
    Opened o.db name d h S (openDB o name d) := by
  have hstatus : (LdbDurable.recover o name d).status = .ok := by
    obtain ⟨_, _, _, _, _, _, hp, _⟩ := recover_spec hsize hr
    exact hp.status
  obtain ⟨v₀, flushed, rest, files, ls, old, bs, hy⟩ := createLog_spec hsize hr
  rw [openDB, if_pos hstatus] at hroom ⊢
  generalize (LdbDurable.recover o name d).createLog = s at hroom hy ⊢
  cases hsave : s.saveManifest with
  | false =>
    have hedit : s.logEdit name d = s := if_neg (by rw [hsave]; exact Bool.false_ne_true)
    rw [hedit]
    obtain ⟨hhas, hlive⟩ := hy.live_kept hr hsave o.db
    exact ⟨hy.progress.status, hhas, hlive, hy.prefixes⟩
  | true =>
    rw [Opening.logEdit, if_pos hsave, logAndApply_next] at hroom
    have hadm := hy.admissible hr hroom
    cases hw : s.vs.descriptorLog with
    | some wr => exact hy.append hr hadm hsave hw o.db
    | none => exact hy.restart hr hname hadm hsave hw o.db

end Opened

end LdbOpening
