import LevelDB.FileNumbers

/-! # No file number is used twice

    The counter of the version set stays above every number in use.  Across processes
    this rests on what the edits of a MANIFEST record (`Recorded`): the counter of an
    edit is above all that it and the edits before it name, so that the last edit read
    back, whichever it is, gives a counter that is high enough.  Logs are newer than
    that; recovery raises the counter as it comes to them.

    `created_not_referenced` is the result, for every run. -/

namespace LdbFreshNumbers

open LdbFormat LdbVersion LdbEdit LdbLog LdbVersionSet LdbManifest LdbFileNumbers

/-! ## Bounds -/

/-- The files of a version have numbers below `n`. -/
def Below (v : Version) (n : Nat) : Prop := ∀ level, ∀ f ∈ v.files level, f.number < n

/-- The numbers an edit names are below `n`, and the counter it records is not above. -/
structure EditBelow (e : VersionEdit) (n : Nat) : Prop where
  log : ∀ k ∈ e.logNumber, k < n
  files : ∀ q ∈ e.newFiles, q.2.number < n
  next : ∀ k ∈ e.nextFileNumber, k ≤ n

/-- **The edits of MANIFEST `number`**: the counter an edit records is above the number
    of the MANIFEST and above all that it and the edits before it name.  Only the
    first record, the snapshot, may lack it. -/
structure Recorded (number : Nat) (edits : List VersionEdit) : Prop where
  ordered : edits.Pairwise fun e e' => ∀ n ∈ e'.nextFileNumber, EditBelow e n
  each : ∀ e ∈ edits, ∀ n ∈ e.nextFileNumber, EditBelow e n ∧ number < n
  numbered : ∀ e ∈ edits.tail, e.nextFileNumber ≠ none

variable {n number : Nat} {e : VersionEdit} {edits : List VersionEdit}

theorem Below.mono {v : Version} {m : Nat} (h : Below v n) (hle : n ≤ m) : Below v m :=
  fun level f hf => lt_of_lt_of_le (h level f hf) hle

theorem EditBelow.mono {m : Nat} (h : EditBelow e n) (hle : n ≤ m) :
    EditBelow e m where
  log := fun k hk => lt_of_lt_of_le (h.log k hk) hle
  files := fun q hq => lt_of_lt_of_le (h.files q hq) hle
  next := fun k hk => le_trans (h.next k hk) hle

variable {f : FileMetaData}

/-- The files of a saved version come from the base or were added. -/
theorem mem_saveTo_subset {b : Builder} {level : Nat} (h : f ∈ b.saveTo.files level) :
    f ∈ b.base.files level ∨ f ∈ (b.levels level).addedFiles := by
  rw [Builder.saveTo] at h
  exact (mem_mergeFiles _ _).mp (List.mem_filter.mp h).1

theorem mem_addedFiles_subset {b : Builder} {level : Nat}
    (h : f ∈ ((b.apply e).levels level).addedFiles) :
    (level, f) ∈ e.newFiles ∨ f ∈ (b.levels level).addedFiles := by
  rw [Builder.apply_levels, foldl_add_addedFiles, foldl_delete_addedFiles] at h
  rcases mem_addedSet_subset _ _ h with hnew | hold
  · exact Or.inl (VersionEdit.mem_addedAt.mp hnew)
  · exact Or.inr hold

theorem below_applyEdit {v : Version} (hv : Below v n) (he : EditBelow e n) :
    Below (applyEdit v e) n := by
  intro level f hf
  rcases mem_saveTo_subset hf with hbase | hadded
  · exact hv level f hbase
  · rcases mem_addedFiles_subset hadded with hnew | hnil
    · exact he.files _ hnew
    · cases hnil

theorem fold_base (edits : List VersionEdit) : (fold edits).base = Version.empty := by
  induction edits using List.reverseRecOn with
  | nil => rfl
  | append_singleton es e ih =>
    rw [fold_snoc]
    exact ih

/-- The value `Recover` keeps of a field stands in one of the edits. -/
theorem mem_latest {field : VersionEdit → Option Nat} (h : latest field edits = some n) :
    ∃ e ∈ edits, field e = some n := by
  induction edits using List.reverseRecOn with
  | nil => cases h
  | append_singleton es e ih =>
    rw [latest_snoc] at h
    cases he : field e with
    | some k =>
      rw [he] at h
      cases h
      exact ⟨e, by simp, he⟩
    | none =>
      rw [he] at h
      obtain ⟨e', he', hf⟩ := ih h
      exact ⟨e', by simp [he'], hf⟩

/-! ## What the edits of a MANIFEST say -/

theorem Recorded.sublist {read : List VersionEdit} (h : Recorded number edits)
    (hs : read.Sublist edits) : Recorded number read where
  ordered := h.ordered.sublist hs
  each := fun e he => h.each e (hs.subset he)
  numbered := fun e he => h.numbered e (hs.tail.subset he)

theorem Recorded.snoc (h : Recorded number edits) (hall : ∀ e' ∈ edits, EditBelow e' n)
    (hnext : e.nextFileNumber = some n) (he : EditBelow e n) (hn : number < n) :
    Recorded number (edits ++ [e]) where
  ordered := by
    refine List.pairwise_append.mpr ⟨h.ordered, List.pairwise_singleton .., fun e' he' => ?_⟩
    refine List.forall_mem_singleton.mpr fun k hk => ?_
    cases hnext.symm.trans hk
    exact hall e' he'
  each := by
    refine List.forall_mem_append.mpr ⟨h.each, List.forall_mem_singleton.mpr fun k hk => ?_⟩
    cases hnext.symm.trans hk
    exact ⟨he, hn⟩
  numbered := by
    cases edits with
    | nil => exact nofun
    | cons y rest =>
      refine List.forall_mem_append.mpr ⟨h.numbered, List.forall_mem_singleton.mpr ?_⟩
      rw [hnext]
      exact Option.some_ne_none n

/-- **The last counter bounds all edits.** -/
theorem Recorded.latest_bounds (h : Recorded number edits)
    (hn : latest (·.nextFileNumber) edits = some n) : number < n ∧ ∀ e ∈ edits, EditBelow e n := by
  cases edits using List.reverseRecOn with
  | nil => cases hn
  | append_singleton es e =>
    cases hnext : e.nextFileNumber with
    | some k =>
      have hk : k = n := by
        rw [latest_snoc, hnext] at hn
        exact Option.some.inj hn
      subst hk
      obtain ⟨he, hlt⟩ := h.each e (by simp) k hnext
      refine ⟨hlt, List.forall_mem_append.mpr ⟨fun e' he' => ?_, List.forall_mem_singleton.mpr he⟩⟩
      exact (List.pairwise_append.mp h.ordered).2.2 e' he' e (by simp) k hnext
    | none =>
      -- only a snapshot lacks the counter, and it stands alone
      cases es with
      | nil =>
        rw [latest_snoc, hnext] at hn
        cases hn
      | cons y rest => exact absurd hnext (h.numbered e (by simp))

/-! ## The invariant -/

/-- What the process holds has numbers below its counter. -/
structure Counted (p : Process) : Prop where
  current : Below p.vs.current p.vs.nextFileNumber
  older : ∀ v ∈ p.older, Below v p.vs.nextFileNumber
  pending : ∀ n ∈ p.pendingOutputs, n < p.vs.nextFileNumber
  flush : ∀ n ∈ p.flush, n < p.vs.nextFileNumber
  outputs : ∀ outs ∈ p.outputs, ∀ n ∈ outs, n < p.vs.nextFileNumber
  log : ∀ n ∈ p.log, n < p.vs.nextFileNumber
  edit : ∀ q ∈ p.edit.newFiles, q.2.number < p.vs.nextFileNumber
  logNumber : p.vs.logNumber < p.vs.nextFileNumber
  manifest : p.vs.manifestFileNumber < p.vs.nextFileNumber

/-- The MANIFEST that `CURRENT` names can be recovered from. -/
def Sound (d : Directory) : Prop :=
  ∀ number ∈ d.current, ∃ edits, d.manifests number = some edits ∧ Recorded number edits

/-- MANIFEST `number` exists and its edits are below `n`. -/
def ManifestBelow (d : Directory) (number n : Nat) : Prop :=
  ∃ edits, d.manifests number = some edits ∧ Recorded number edits ∧ ∀ e ∈ edits, EditBelow e n

/-- The MANIFEST under a `LogAndApply`, by how far it is; `n` is the counter that the
    edit records. -/
def LoggingAt (vs : VersionSet) (d : Directory) (n : Nat) : LogStage → Prop
  | .begun => vs.descriptorLog = none
  | .created => vs.descriptorLog = none
  | .ready => ManifestBelow d vs.manifestFileNumber n
  | .written => ManifestBelow d vs.manifestFileNumber vs.nextFileNumber
  | .pointed => d.current = some vs.manifestFileNumber
      ∧ ManifestBelow d vs.manifestFileNumber vs.nextFileNumber

/-- The edit of a `LogAndApply` under way. -/
structure Logging (vs : VersionSet) (d : Directory) (e : VersionEdit) (st : LogStage) (n : Nat) :
    Prop where
  next : e.nextFileNumber = some n
  le : n ≤ vs.nextFileNumber
  edit : EditBelow e n
  current : Below vs.current n
  manifest : vs.manifestFileNumber < n
  stage : LoggingAt vs d n st

/-- **The invariant of a process and its directory.**  Logs that recovery has not come
    to may have any number. -/
structure Live (p : Process) (d : Directory) : Prop extends Counted p where
  logs : ∀ n ∈ d.logs, n < p.vs.nextFileNumber ∨ (p.stage = .recovering ∧ n ∈ p.logsLeft)
  sound : Sound d
  attached : p.vs.descriptorLog ≠ none → d.current = some p.vs.manifestFileNumber
    ∧ ManifestBelow d p.vs.manifestFileNumber p.vs.nextFileNumber
  fresh : p.vs.descriptorLog = none → ∀ number ∈ d.current,
    number < p.vs.manifestFileNumber ∨ ∃ e, p.logging = some (e, .pointed)
  saved : p.saveManifest = false ∨ p.stage = .running → p.vs.descriptorLog ≠ none
  logging : ∀ e st, p.logging = some (e, st) →
    p.stage ≠ .recovering ∧ ∃ n, Logging p.vs d e st n

/-- The invariant of a state. -/
def Good : State → Prop
  | .closed d => Sound d
  | .live p d => Live p d

/-! ## Steps keep the invariant -/

section Steps

variable {name : Slice} {p : Process} {d : Directory}

variable {n : Nat}

theorem ManifestBelow.mono {number m : Nat} (h : ManifestBelow d number n) (hle : n ≤ m) :
    ManifestBelow d number m := by
  obtain ⟨edits, hd, hr, hall⟩ := h
  exact ⟨edits, hd, hr, fun e he => (hall e he).mono hle⟩

/-- What a directory says of a `LogAndApply` is in its MANIFEST and in `CURRENT`. -/
theorem Logging.frame {vs : VersionSet} {d' : Directory} {e : VersionEdit} {st : LogStage}
    (h : Logging vs d e st n)
    (hm : d'.manifests vs.manifestFileNumber = d.manifests vs.manifestFileNumber)
    (hc : d'.current = d.current) : Logging vs d' e st n := by
  have hstage := h.stage
  refine { h with stage := ?_ }
  cases st with
  | begun | created => exact hstage
  | ready | written =>
    rw [LoggingAt, ManifestBelow, hm]
    exact hstage
  | pointed =>
    rw [LoggingAt, ManifestBelow, hm, hc]
    exact hstage

/-- The counter goes up. -/
theorem Live.raise (h : Live p d) (hn : p.vs.nextFileNumber ≤ n) :
    Live { p with vs := { p.vs with nextFileNumber := n } } d where
  current := h.current.mono hn
  older := fun v hv => (h.older v hv).mono hn
  pending := fun k hk => lt_of_lt_of_le (h.pending k hk) hn
  flush := fun k hk => lt_of_lt_of_le (h.flush k hk) hn
  outputs := fun outs ho k hk => lt_of_lt_of_le (h.outputs outs ho k hk) hn
  log := fun k hk => lt_of_lt_of_le (h.log k hk) hn
  edit := fun q hq => lt_of_lt_of_le (h.edit q hq) hn
  logNumber := lt_of_lt_of_le h.logNumber hn
  manifest := lt_of_lt_of_le h.manifest hn
  logs := fun k hk => (h.logs k hk).imp (fun hlt => lt_of_lt_of_le hlt hn) id
  sound := h.sound
  attached := fun ho => ⟨(h.attached ho).1, (h.attached ho).2.mono hn⟩
  fresh := h.fresh
  saved := h.saved
  logging := by
    intro e st hl
    obtain ⟨hrec, k, hk⟩ := h.logging e st hl
    refine ⟨hrec, k, { hk with le := le_trans hk.le hn, stage := ?_ }⟩
    have hstage := hk.stage
    cases st with
    | begun => exact hstage
    | created => exact hstage
    | ready => exact hstage
    | written => exact ManifestBelow.mono hstage hn
    | pointed => exact ⟨hstage.1, hstage.2.mono hn⟩

/-- The end of `WriteLevel0Table` forgets a number. -/
theorem Live.endTable (h : Live p d) : Live p.endTable d :=
  { h with
    pending := fun k hk => h.pending k (List.mem_filter.mp hk).1
    flush := nofun }

variable {edit : VersionEdit}

section

variable (h : Live p d)
include h

/-- **The head of `LogAndApply`**: the edit records the counter. -/
theorem Live.beginLogAndApply (hst : p.stage ≠ .recovering) (hnone : p.logging = none)
    (hlog : ∀ k ∈ edit.logNumber, k < p.vs.nextFileNumber)
    (hfiles : ∀ q ∈ edit.newFiles, q.2.number < p.vs.nextFileNumber) :
    Live (p.beginLogAndApply edit) d :=
  { h with
    fresh := by
      intro hd number hc
      rcases h.fresh hd number hc with hlt | ⟨e, he⟩
      · exact Or.inl hlt
      · rw [hnone] at he
        cases he
    logging := by
      intro e st hl
      obtain ⟨he, hstage⟩ := Prod.mk.injEq .. ▸ Option.some.inj hl
      subst he
      have hbelow : EditBelow (p.vs.complete edit) p.vs.nextFileNumber := by
        refine ⟨fun k hk => ?_, hfiles, fun k hk => ?_⟩
        · cases hk
          cases he : edit.logNumber with
          | none => exact h.logNumber
          | some k => exact hlog k he
        · cases hk
          exact le_refl _
      refine ⟨hst, p.vs.nextFileNumber, rfl, le_refl _, hbelow, h.current, h.manifest, ?_⟩
      by_cases hopen : p.vs.descriptorLog = none
      · rw [if_pos hopen] at hstage
        subst hstage
        exact hopen
      · rw [if_neg hopen] at hstage
        subst hstage
        exact (h.attached hopen).2 }

theorem live_writeLevel0Table (created : Bool) :
    Live (p.next name d (.writeLevel0Table created)).1 d :=
  { h.raise (Nat.le_succ p.vs.nextFileNumber) with
    pending := fun k hk => by
      rcases List.mem_cons.mp hk with rfl | hk
      · exact Nat.lt_succ_self _
      · exact Nat.lt_succ_of_lt (h.pending k hk)
    flush := fun k hk => by
      cases hk
      exact Nat.lt_succ_self _ }

theorem live_builtTable {file : Option (Nat × FileMetaData)} (hen : p.Enabled (.builtTable file)) :
    Live (p.next name d (.builtTable file)).1 d := by
  obtain ⟨hlogging, -, hfile⟩ := hen
  have hnumber : ∀ q ∈ file, q.2.number < p.vs.nextFileNumber := fun q hq =>
    h.flush _ (hfile q hq)
  rw [Process.next]
  by_cases hst : p.stage = .recovering
  · rw [if_pos hst]
    exact { h.endTable with
      edit := by
        intro q hq
        cases file with
        | none => exact h.edit q hq
        | some f =>
          rcases List.mem_append.mp hq with hq | hq
          · exact h.edit q hq
          · rw [List.mem_singleton.mp hq]
            exact hnumber f rfl
      saved := by
        rintro (hs | hs)
        · cases hs
        · exact absurd (hst.symm.trans hs) (by decide) }
  · rw [if_neg hst]
    refine h.endTable.beginLogAndApply hst hlogging h.log fun q hq => ?_
    exact hnumber q (Option.mem_toList.mp hq)

theorem live_recoveredLog {reused : Bool} (hen : p.Enabled (.recoveredLog reused)) :
    Live (p.next name d (.recoveredLog reused)).1 d := by
  obtain ⟨-, -, hne, -⟩ := hen
  obtain ⟨n, rest, hleft⟩ := List.exists_cons_of_ne_nil hne
  have hmark : ∃ k, p.vs.nextFileNumber ≤ k ∧ n < k
      ∧ p.vs.markFileNumberUsed n = { p.vs with nextFileNumber := k } := by
    rw [VersionSet.markFileNumberUsed]
    by_cases hle : p.vs.nextFileNumber ≤ n
    · rw [if_pos hle]
      exact ⟨n + 1, by omega, by omega, rfl⟩
    · rw [if_neg hle]
      exact ⟨p.vs.nextFileNumber, le_refl _, by omega, rfl⟩
  obtain ⟨k, hk, hn, heq⟩ := hmark
  rw [Process.next, hleft, List.headD_cons, heq]
  exact { h.raise hk with
    log := by
      intro m hm
      cases reused with
      | true =>
        cases hm
        exact hn
      | false => exact lt_of_lt_of_le (h.log m hm) hk
    logs := by
      intro m hm
      rcases h.logs m hm with hlt | ⟨hst, hmem⟩
      · exact Or.inl (lt_of_lt_of_le hlt hk)
      · rw [hleft] at hmem
        rcases List.mem_cons.mp hmem with rfl | hmem
        · exact Or.inl hn
        · exact Or.inr ⟨hst, hmem⟩ }

/-- A new log with the next number, once recovery has come to all others. -/
theorem Live.newLog (hleft : p.stage = .recovering → p.logsLeft = []) {st : Stage}
    (hrec : st ≠ .recovering) (hst : st = .running → p.vs.descriptorLog ≠ none) :
    Live { p with vs := p.vs.newFileNumber.2, log := some p.vs.newFileNumber.1, stage := st }
      { d with logs := p.vs.newFileNumber.1 :: d.logs } :=
  { h.raise (Nat.le_succ p.vs.nextFileNumber) with
    log := fun k hk => by
      cases hk
      exact Nat.lt_succ_self _
    logs := fun k hk => by
      refine Or.inl ?_
      rcases List.mem_cons.mp hk with rfl | hk
      · exact Nat.lt_succ_self _
      · rcases h.logs k hk with hlt | ⟨hrec, hmem⟩
        · exact Nat.lt_succ_of_lt hlt
        · rw [hleft hrec] at hmem
          cases hmem
    saved := fun hs => hs.elim (fun hsave => h.saved (Or.inl hsave)) hst
    logging := fun e st hl => by
      obtain ⟨-, n, hn⟩ := (h.raise (Nat.le_succ p.vs.nextFileNumber)).logging e st hl
      exact ⟨hrec, n, hn.frame rfl rfl⟩ }

/-- The next stage of `DB::Open`, once recovery has come to all logs. -/
theorem Live.proceed (hleft : p.stage = .recovering → p.logsLeft = []) {st : Stage}
    (hrec : st ≠ .recovering) (hst : st = .running → p.vs.descriptorLog ≠ none) :
    Live { p with stage := st } d :=
  { h with
    logs := fun k hk => by
      rcases h.logs k hk with hlt | ⟨hrec, hmem⟩
      · exact Or.inl hlt
      · rw [hleft hrec] at hmem
        cases hmem
    saved := fun hs => hs.elim (fun hsave => h.saved (Or.inl hsave)) hst
    logging := fun e st hl => ⟨hrec, (h.logging e st hl).2⟩ }

theorem live_logOpenEdit (hen : p.Enabled .logOpenEdit) :
    Live (p.next name d .logOpenEdit).1 d := by
  obtain ⟨hst, hlogging⟩ := hen
  rw [Process.next]
  by_cases hsave : p.saveManifest = true
  · rw [if_pos hsave]
    exact h.beginLogAndApply (hst ▸ by decide) hlogging h.log h.edit
  · rw [if_neg hsave]
    refine h.proceed (fun hrec => absurd (hst.symm.trans hrec) (by decide)) (by decide) fun _ => ?_
    exact h.saved (Or.inl (Bool.not_eq_true _ ▸ hsave))

omit h in
/-- A number that is given back at once was never taken. -/
theorem reuse_newFileNumber (vs : VersionSet) :
    reuseFileNumber vs.newFileNumber.2 vs.newFileNumber.1 = vs := by
  rw [reuseFileNumber]
  exact if_pos rfl

theorem live_makeRoomForWrite {created : Bool} (hen : p.Enabled (.makeRoomForWrite created)) :
    Live (p.next name d (.makeRoomForWrite created)).1
      (p.next name d (.makeRoomForWrite created)).2 := by
  have hst : p.stage = .running := hen
  rw [Process.next]
  by_cases hc : created = true
  · rw [if_pos hc]
    exact h.newLog (fun hrec => absurd (hst.symm.trans hrec) (by decide)) (hst ▸ by decide)
      fun _ => h.saved (Or.inr hst)
  · rw [if_neg hc, reuse_newFileNumber]
    exact h

theorem live_openOutput (created : Bool) :
    Live (p.next name d (.openOutput created)).1 d :=
  { h.raise (Nat.le_succ p.vs.nextFileNumber) with
    pending := fun k hk => by
      rcases List.mem_cons.mp hk with rfl | hk
      · exact Nat.lt_succ_self _
      · exact Nat.lt_succ_of_lt (h.pending k hk)
    outputs := fun outs ho k hk => by
      obtain ⟨outs', ho', rfl⟩ := Option.mem_map.mp ho
      rcases List.mem_append.mp hk with hk | hk
      · exact Nat.lt_succ_of_lt (h.outputs outs' ho' k hk)
      · rw [List.mem_singleton.mp hk]
        exact Nat.lt_succ_self _ }

theorem live_installResults (hen : p.Enabled (.installResults edit)) :
    Live (p.next name d (.installResults edit)).1 d := by
  obtain ⟨⟨hst, -, hlogging⟩, hlog, outs, hout, hfiles⟩ := hen
  refine h.beginLogAndApply (hst ▸ by decide) hlogging (fun k hk => ?_) fun q hq =>
    h.outputs outs hout _ (hfiles q hq)
  rw [hlog] at hk
  cases hk

theorem live_trivialMove (hen : p.Enabled (.trivialMove edit)) :
    Live (p.next name d (.trivialMove edit)).1 d := by
  obtain ⟨⟨hst, -, hlogging⟩, -, hlog, hfiles⟩ := hen
  refine h.beginLogAndApply (hst ▸ by decide) hlogging (fun k hk => ?_) fun q hq => ?_
  · rw [hlog] at hk
    cases hk
  · obtain ⟨level, hmem⟩ := hfiles q hq
    exact h.current level q.2 hmem

/-! ## `LogAndApply` behind its head -/

omit h in
theorem Sound.update_ne (h : Sound d) {number : Nat} (hne : d.current ≠ some number)
    (x : Option (List VersionEdit)) :
    Sound { d with manifests := Function.update d.manifests number x } := by
  intro m hm
  obtain ⟨edits, he, hr⟩ := h m hm
  have hm' : m ≠ number := by
    rintro rfl
    exact hne hm
  exact ⟨edits, (Function.update_of_ne hm' ..).trans he, hr⟩

/-- A new MANIFEST is not the one `CURRENT` names, until it is made so. -/
theorem Live.not_current (hopen : p.vs.descriptorLog = none) {e : VersionEdit} {st : LogStage}
    (hl : p.logging = some (e, st)) (hst : st ≠ .pointed) :
    d.current ≠ some p.vs.manifestFileNumber := by
  intro hc
  rcases h.fresh hopen _ hc with hlt | ⟨e', he'⟩
  · exact lt_irrefl _ hlt
  · rw [hl] at he'
    cases he'
    exact hst rfl

/-- What is left to show for a step on a new MANIFEST. -/
theorem Live.onNewManifest (hopen : p.vs.descriptorLog = none) {e : VersionEdit}
    {st st' : LogStage} (hl : p.logging = some (e, st)) (hst : st ≠ .pointed)
    (edits : List VersionEdit) (hnew : ∀ n, Logging p.vs d e st n →
      LoggingAt p.vs (d.putManifest p.vs.manifestFileNumber edits) n st') :
    Live { p with logging := some (e, st') } (d.putManifest p.vs.manifestFileNumber edits) :=
  { h with
    sound := h.sound.update_ne (h.not_current hopen hl hst) _
    attached := absurd hopen
    fresh := fun _ number hc => by
      rcases h.fresh hopen number hc with hlt | ⟨e', he'⟩
      · exact Or.inl hlt
      · rw [hl] at he'
        cases he'
        exact absurd rfl hst
    logging := by
      intro e' st'' hl'
      cases hl'
      obtain ⟨hrec, n, hn⟩ := h.logging e st hl
      exact ⟨hrec, n, { hn with stage := hnew n hn }⟩ }

theorem live_createManifest (hen : p.Enabled .createManifest) :
    Live (p.next name d .createManifest).1 (p.next name d .createManifest).2 := by
  obtain ⟨e, hl⟩ := hen
  obtain ⟨-, n, hn⟩ := h.logging e _ hl
  have hopen : p.vs.descriptorLog = none := hn.stage
  rw [Process.next, hl]
  exact h.onNewManifest hopen hl (by decide) [] fun _ _ => hopen

omit h in
theorem snapshot_below {vs : VersionSet} (h : Below vs.current n) :
    EditBelow (vs.snapshot name) n where
  log := nofun
  files := by
    intro q hq
    obtain ⟨level, -, hq⟩ := List.mem_flatMap.mp hq
    obtain ⟨f, hf, rfl⟩ := List.mem_map.mp hq
    exact h level f hf
  next := nofun

theorem live_writeSnapshot (hen : p.Enabled .writeSnapshot) :
    Live (p.next name d .writeSnapshot).1 (p.next name d .writeSnapshot).2 := by
  obtain ⟨e, hl⟩ := hen
  obtain ⟨-, n, hn⟩ := h.logging e _ hl
  have hopen : p.vs.descriptorLog = none := hn.stage
  rw [Process.next, hl]
  refine h.onNewManifest hopen hl (by decide) _ fun k hk =>
    ⟨[p.vs.snapshot name], Function.update_self .., ⟨List.pairwise_singleton .., ?_, ?_⟩, ?_⟩
  · intro e' he' m hm
    rw [List.mem_singleton.mp he'] at hm
    cases hm
  · intro e' he'
    cases he'
  · intro e' he'
    rw [List.mem_singleton.mp he']
    exact snapshot_below hk.current

theorem live_appendEdit (hen : p.Enabled .appendEdit) :
    Live (p.next name d .appendEdit).1 (p.next name d .appendEdit).2 := by
  obtain ⟨e, hl⟩ := hen
  obtain ⟨hrec, n, hn⟩ := h.logging e _ hl
  obtain ⟨edits, hedits, hr, hall⟩ := hn.stage
  have hr' := hr.snoc hall hn.next hn.edit hn.manifest
  have hbelow : ManifestBelow
      (d.putManifest p.vs.manifestFileNumber (edits ++ [e])) p.vs.manifestFileNumber
      p.vs.nextFileNumber := by
    refine ⟨edits ++ [e], Function.update_self .., hr', List.forall_mem_append.mpr ⟨?_, ?_⟩⟩
    · exact fun e' he' => (hall e' he').mono hn.le
    · exact List.forall_mem_singleton.mpr (hn.edit.mono hn.le)
  rw [Process.next, hl, hedits]
  by_cases hopen : p.vs.descriptorLog = none
  · exact h.onNewManifest hopen hl (by decide) _ fun _ _ => hbelow
  · have hcurrent := (h.attached hopen).1
    exact { h with
      sound := by
        intro m hm
        cases hcurrent.symm.trans hm
        exact ⟨edits ++ [e], Function.update_self .., hr'⟩
      attached := fun _ => ⟨hcurrent, hbelow⟩
      fresh := fun hnone => absurd hnone hopen
      logging := by
        intro e' st hl'
        cases hl'
        exact ⟨hrec, n, { hn with stage := hbelow }⟩ }

theorem live_setCurrent (hen : p.Enabled .setCurrent) :
    Live (p.next name d .setCurrent).1 (p.next name d .setCurrent).2 := by
  obtain ⟨e, hl, hopen⟩ := hen
  obtain ⟨hrec, n, hn⟩ := h.logging e _ hl
  have hbelow : ManifestBelow d p.vs.manifestFileNumber p.vs.nextFileNumber := hn.stage
  rw [Process.next, hl]
  exact { h with
    sound := by
      intro m hm
      cases hm
      obtain ⟨edits, hedits, hr, -⟩ := hbelow
      exact ⟨edits, hedits, hr⟩
    attached := absurd hopen
    fresh := fun _ _ _ => Or.inr ⟨e, rfl⟩
    logging := by
      intro e' st hl'
      cases hl'
      exact ⟨hrec, n, { hn with stage := ⟨rfl, hbelow⟩ }⟩ }

/-- Before it ends, `CURRENT` names the MANIFEST that has the edit. -/
theorem Live.logged (hen : p.Enabled .installVersion) :
    ∃ e st n, p.logging = some (e, st) ∧ p.stage ≠ .recovering ∧ Logging p.vs d e st n
      ∧ d.current = some p.vs.manifestFileNumber
      ∧ ManifestBelow d p.vs.manifestFileNumber p.vs.nextFileNumber := by
  obtain ⟨e, hl | ⟨hl, hopen⟩⟩ := hen
  · obtain ⟨hrec, n, hn⟩ := h.logging e _ hl
    exact ⟨e, _, n, hl, hrec, hn, hn.stage⟩
  · obtain ⟨hrec, n, hn⟩ := h.logging e _ hl
    exact ⟨e, _, n, hl, hrec, hn, h.attached hopen⟩

theorem live_installVersion (hen : p.Enabled .installVersion) :
    Live (p.next name d .installVersion).1 d := by
  obtain ⟨e, st, n, hl, hrec, hn, hcurrent, hbelow⟩ := h.logged hen
  have he : EditBelow e p.vs.nextFileNumber := hn.edit.mono hn.le
  rw [Process.next, hl]
  exact { h with
    current := below_applyEdit h.current he
    older := fun v hv => by
      rcases List.mem_cons.mp hv with rfl | hv
      · exact h.current
      · exact h.older v hv
    logNumber := by
      show e.logNumber.getD 0 < p.vs.nextFileNumber
      cases hlog : e.logNumber with
      | none => exact Nat.zero_lt_of_lt h.logNumber
      | some k => exact he.log k hlog
    logs := fun k hk => (h.logs k hk).imp_right fun hleft => absurd hleft.1 hrec
    attached := fun _ => ⟨hcurrent, hbelow⟩
    fresh := nofun
    saved := nofun
    logging := nofun }

theorem live_failLogAndApply (hen : p.Enabled .failLogAndApply) :
    Live (p.next name d .failLogAndApply).1 (p.next name d .failLogAndApply).2 := by
  obtain ⟨e, st, hl, hst⟩ := hen
  have hfresh : p.vs.descriptorLog = none → ∀ number ∈ d.current,
      number < p.vs.manifestFileNumber ∨ ∃ e', (none : Option (VersionEdit × LogStage))
        = some (e', .pointed) := by
    intro hopen number hc
    rcases h.fresh hopen number hc with hlt | ⟨e', he'⟩
    · exact Or.inl hlt
    · rw [hl] at he'
      cases he'
      exact absurd rfl hst
  rw [Process.next]
  by_cases hopen : p.vs.descriptorLog = none
  · rw [if_pos hopen]
    exact { h with
      sound := h.sound.update_ne (h.not_current hopen hl hst) none
      attached := absurd hopen
      fresh := hfresh
      logging := nofun }
  · rw [if_neg hopen]
    exact { h with
      fresh := hfresh
      logging := nofun }

theorem live_removeManifest {number : Nat} (hen : p.Enabled (.removeManifest number)) :
    Live p (d.dropManifest number) := by
  obtain ⟨hst, hlt⟩ := hen
  have hopen := h.saved (Or.inr hst)
  obtain ⟨hcurrent, edits, hedits, hr, hall⟩ := h.attached hopen
  have hsame : (d.dropManifest number).manifests p.vs.manifestFileNumber
      = d.manifests p.vs.manifestFileNumber := Function.update_of_ne (by omega) ..
  exact { h with
    sound := by
      refine h.sound.update_ne (fun hc => ?_) none
      cases hcurrent.symm.trans hc
      exact lt_irrefl _ hlt
    attached := fun _ => ⟨hcurrent, edits, hsame.trans hedits, hr, hall⟩
    fresh := fun hnone => absurd hnone hopen
    logging := fun e st hl => by
      obtain ⟨hrec, n, hn⟩ := h.logging e st hl
      exact ⟨hrec, n, hn.frame hsame rfl⟩ }

/-- **Every step keeps the invariant.** -/
theorem live_step {a : LdbFileNumbers.Action} (hen : p.Enabled a) :
    Live (p.next name d a).1 (p.next name d a).2 := by
  cases a with
  | writeLevel0Table created => exact live_writeLevel0Table h created
  | builtTable file =>
    have hsame : (p.next name d (.builtTable file)).2 = d := by
      rw [Process.next]
      split <;> rfl
    rw [hsame]
    exact live_builtTable h hen
  | tableFailed => exact h.endTable
  | recoveredLog reused => exact live_recoveredLog h hen
  | createLog =>
    obtain ⟨-, -, hleft, -⟩ := hen
    exact h.newLog (fun _ => hleft) (by decide) fun hst => absurd hst (by decide)
  | keepLog =>
    obtain ⟨-, -, hleft, -⟩ := hen
    exact h.proceed (fun _ => hleft) (by decide) fun hst => absurd hst (by decide)
  | logOpenEdit =>
    have hsame : (p.next name d .logOpenEdit).2 = d := by
      rw [Process.next]
      split <;> rfl
    rw [hsame]
    exact live_logOpenEdit h hen
  | makeRoomForWrite created => exact live_makeRoomForWrite h hen
  | startCompaction =>
    exact { h with
      outputs := fun outs ho k hk => by
        cases ho
        cases hk }
  | openOutput created => exact live_openOutput h created
  | installResults edit => exact live_installResults h hen
  | trivialMove edit => exact live_trivialMove h hen
  | cleanupCompaction =>
    exact { h with
      pending := fun k hk => h.pending k (List.mem_filter.mp hk).1
      outputs := nofun }
  | createManifest => exact live_createManifest h hen
  | writeSnapshot => exact live_writeSnapshot h hen
  | appendEdit => exact live_appendEdit h hen
  | setCurrent => exact live_setCurrent h hen
  | installVersion => exact live_installVersion h hen
  | failLogAndApply => exact live_failLogAndApply h hen
  | unrefVersion i =>
    exact { h with older := fun v hv => h.older v (List.mem_of_mem_eraseIdx hv) }
  | removeLog number =>
    exact { h with
      logs := fun k hk => h.logs k (List.mem_filter.mp hk).1
      logging := fun e st hl => by
        obtain ⟨hrec, n, hn⟩ := h.logging e st hl
        exact ⟨hrec, n, hn.frame rfl rfl⟩ }
  | removeManifest number => exact live_removeManifest h hen

end

end Steps

/-! ## Recovery -/

/-- **What recovery takes from the edits it reads**: the counter is above everything
    they name. -/
theorem replayed_bounds (h : Recorded number edits) (hcheck : (replayed edits).check = .ok) :
    ∃ n, (replayed edits).nextFile = some n ∧ number < n
      ∧ (replayed edits).logNumber.getD 0 < n ∧ Below (replayed edits).builder.saveTo n := by
  obtain ⟨hstatus, hbuilder, hlog, -, hnext, -⟩ := replayed_spec edits
  have hsome : (replayed edits).nextFile ≠ none := by
    intro hnone
    rw [Replay.check, if_neg (fun hne => hne hstatus), if_pos hnone] at hcheck
    cases hcheck
  obtain ⟨n, hn⟩ := Option.ne_none_iff_exists'.mp hsome
  obtain ⟨hlt, hall⟩ := h.latest_bounds (hnext ▸ hn)
  refine ⟨n, hn, hlt, ?_, ?_⟩
  · rw [hlog]
    cases hl : latest (·.logNumber) edits with
    | none => exact Nat.zero_lt_of_lt hlt
    | some k =>
      obtain ⟨e, he, hk⟩ := mem_latest hl
      exact (hall e he).log k hk
  · intro level f hf
    rw [hbuilder] at hf
    rcases mem_saveTo_subset hf with hbase | hadded
    · rw [fold_base] at hbase
      cases hbase
    · obtain ⟨e, he, hnew⟩ := mem_fold_addedFiles edits hadded
      exact (hall e he).files _ hnew

/-- Whether the MANIFEST is used further changes its number and nothing else here. -/
theorem recoveredSet_bounds (reuse : Option Nat) (h : Recorded number edits)
    (hcheck : (replayed edits).check = .ok) :
    ∃ n, (replayed edits).nextFile = some n ∧ number < n
      ∧ (recoveredSet number edits reuse).nextFileNumber = n + 1
      ∧ (recoveredSet number edits reuse).logNumber < n
      ∧ (recoveredSet number edits reuse).manifestFileNumber ≤ n
      ∧ Below (recoveredSet number edits reuse).current n := by
  obtain ⟨n, hn, hlt, hlog, hbelow⟩ := replayed_bounds h hcheck
  refine ⟨n, hn, hlt, ?_⟩
  cases reuse with
  | none => exact ⟨by rw [recoveredSet, Replay.install, hn]; rfl, hlog,
      by rw [recoveredSet, Replay.install, hn]; exact le_refl n, hbelow⟩
  | some size => exact ⟨by rw [recoveredSet, Replay.install, hn]; rfl, hlog, le_of_lt hlt, hbelow⟩

theorem live_recover {d : Directory} (reuse : Option Nat) (hsound : Sound d)
    (hcurrent : d.current = some number) (hedits : d.manifests number = some edits)
    (hcheck : (replayed edits).check = .ok) : Live (openProcess d number edits reuse) d := by
  have hr : Recorded number edits := by
    obtain ⟨edits', hedits', hr⟩ := hsound number hcurrent
    cases hedits.symm.trans hedits'
    exact hr
  obtain ⟨n, hn, hlt, hnext, hlogNumber, hmanifest, hfiles⟩ := recoveredSet_bounds reuse hr hcheck
  have hall : ManifestBelow d number (n + 1) := by
    obtain ⟨-, hall⟩ := hr.latest_bounds ((replayed_spec edits).2.2.2.2.1 ▸ hn)
    exact ⟨edits, hedits, hr, fun e he => (hall e he).mono (Nat.le_succ n)⟩
  refine
    { current := ?_
      older := nofun
      pending := nofun
      flush := nofun
      outputs := nofun
      log := nofun
      edit := nofun
      logNumber := ?_
      manifest := ?_
      logs := ?_
      sound := hsound
      attached := ?_
      fresh := ?_
      saved := ?_
      logging := nofun }
  · show Below _ (recoveredSet number edits reuse).nextFileNumber
    rw [hnext]
    exact hfiles.mono (Nat.le_succ n)
  · show _ < (recoveredSet number edits reuse).nextFileNumber
    rw [hnext]
    exact Nat.lt_succ_of_lt hlogNumber
  · show _ < (recoveredSet number edits reuse).nextFileNumber
    rw [hnext]
    exact Nat.lt_succ_of_le hmanifest
  · intro k hk
    show k < (recoveredSet number edits reuse).nextFileNumber ∨ _
    rw [hnext]
    by_cases hneeded : (recoveredSet number edits reuse).logNumber ≤ k
        ∨ k = (recoveredSet number edits reuse).prevLogNumber
    · refine Or.inr ⟨rfl, ?_⟩
      show k ∈ d.neededLogs _
      rw [Directory.neededLogs, List.mem_insertionSort, List.mem_filter]
      exact ⟨hk, decide_eq_true hneeded⟩
    · exact Or.inl (by omega)
  · intro hopen
    cases reuse with
    | none => exact absurd rfl hopen
    | some size =>
      show _ ∧ ManifestBelow d number (recoveredSet number edits (some size)).nextFileNumber
      rw [hnext]
      exact ⟨hcurrent, hall⟩
  · intro hopen m hm
    cases hcurrent.symm.trans hm
    cases reuse with
    | none =>
      refine Or.inl ?_
      show number < (recoveredSet number edits none).manifestFileNumber
      rw [recoveredSet, Replay.install, hn]
      exact hlt
    | some size => cases hopen
  · rintro (hsave | hst) hopen
    · cases reuse with
      | none => cases hsave
      | some size => cases hopen
    · cases hst

/-- **The invariant holds in every run.** -/
theorem good_reach {name : Slice} {s : State} (h : Reach name s) : Good s := by
  induction h with
  | empty => exact nofun
  | newManifest _ hnone ih | newRecord _ hnone ih => exact fun number hc => by cases hnone.symm.trans hc
  | newCurrent _ hnone hrecord ih =>
    intro number hc
    cases hc
    refine ⟨_, hrecord, List.pairwise_singleton .., ?_, nofun⟩
    intro e he n hn
    rw [List.mem_singleton.mp he] at hn ⊢
    cases hn
    refine ⟨⟨fun k hk => ?_, nofun, fun k hk => ?_⟩, by decide⟩
    · cases hk
      decide
    · cases hk
      decide
  | @damage d number edits left _ hedits hleft ih =>
    intro m hm
    by_cases heq : m = number
    · subst heq
      obtain ⟨edits', hedits', hr⟩ := ih m hm
      cases hedits.symm.trans hedits'
      exact ⟨left, Function.update_self .., hr.sublist hleft⟩
    · obtain ⟨edits', hedits', hr⟩ := ih m hm
      exact ⟨edits', (Function.update_of_ne heq ..).trans hedits', hr⟩
  | recover reuse _ hcurrent hedits hcheck ih => exact live_recover reuse ih hcurrent hedits hcheck
  | step _ hen ih => exact live_step ih hen
  | crash _ ih => exact ih.sound

/-! ## No number is used twice -/

/-- Tables and logs take the next number, a MANIFEST the one set aside for it. -/
theorem created_cases {p : Process} {a : LdbFileNumbers.Action} {kind : FileKind}
    (h : p.created a = some (kind, number)) :
    (kind = .table ∧ number = p.vs.nextFileNumber)
      ∨ (kind = .log ∧ number = p.vs.nextFileNumber
        ∧ (a = .createLog ∨ a = .makeRoomForWrite true))
      ∨ (kind = .manifest ∧ number = p.vs.manifestFileNumber ∧ a = .createManifest) := by
  rw [Process.created.eq_def] at h
  split at h
  · cases h
    exact Or.inl ⟨rfl, rfl⟩
  · cases h
    exact Or.inl ⟨rfl, rfl⟩
  · cases h
    exact Or.inr (Or.inl ⟨rfl, rfl, Or.inl rfl⟩)
  · cases h
    exact Or.inr (Or.inl ⟨rfl, rfl, Or.inr rfl⟩)
  · cases h
    exact Or.inr (Or.inr ⟨rfl, rfl, rfl⟩)
  · cases h

/-- **No file is created under a number that is in use**: for every run with openings,
    ends of the process at any step, failed creations and damaged MANIFEST records. -/
theorem created_not_referenced (name : Slice) (s : State) (h : Reach name s) (kind : FileKind)
    (number : Nat) (hcreates : Creates s kind number) : ¬s.Referenced kind number := by
  have hgood := good_reach h
  cases hcreates with
  | newDB hnone =>
    intro hc
    cases hnone.symm.trans hc
  | @step p d a _ _ hen hcreated =>
    have hlive : Live p d := hgood
    rcases created_cases hcreated with ⟨rfl, rfl⟩ | ⟨rfl, rfl, ha⟩ | ⟨rfl, rfl, rfl⟩
    · -- all that the process holds is below its counter
      rintro (⟨level, f, hf, hn⟩ | ⟨v, hv, level, f, hf, hn⟩ | hp)
      · exact absurd hn (Nat.ne_of_lt (hlive.current level f hf))
      · exact absurd hn (Nat.ne_of_lt (hlive.older v hv level f hf))
      · exact lt_irrefl _ (hlive.pending _ hp)
    · -- logs are created when recovery has come to all others
      have hleft : p.stage = .recovering → p.logsLeft = [] := by
        rcases ha with rfl | rfl
        · exact fun _ => hen.2.2.1
        · intro hrec
          have hst : p.stage = .running := hen
          exact absurd (hst.symm.trans hrec) (by decide)
      intro hmem
      rcases hlive.logs _ hmem with hlt | ⟨hrec, hin⟩
      · exact lt_irrefl _ hlt
      · rw [hleft hrec] at hin
        cases hin
    · obtain ⟨e, hl⟩ := hen
      obtain ⟨-, n, hn⟩ := hlive.logging e _ hl
      exact hlive.not_current hn.stage hl (by decide)

/-- The directory that `NewDB` leaves. -/
def newDirectory (name : Slice) : Directory :=
  { Directory.empty.putManifest 1 [newDBEdit name] with current := some 1 }

theorem reach_newDirectory (name : Slice) : Reach name (.closed (newDirectory name)) :=
  .newCurrent (.newRecord .empty rfl) rfl rfl

/-- The first process dies behind its log 3 with nothing recorded.  The next one finds
    the log, creates log 4 and MANIFEST 2, and gives a number back that no file could be
    created for: its next log takes it. -/
theorem later_log_not_referenced :
    ∃ p d, Reach [] (.live p d) ∧ d.logs = [4, 3] ∧ d.current = some 2
      ∧ Creates (.live p d) .log 5 ∧ ¬(State.live p d).Referenced .log 5 := by
  have hfirst := Reach.recover none (reach_newDirectory []) rfl rfl rfl
  have hdied := (hfirst.step (a := .createLog) ⟨rfl, rfl, rfl, rfl⟩).crash
  have hlogs := (Reach.recover none hdied rfl rfl rfl).step (a := .recoveredLog false)
    ⟨rfl, rfl, by decide, nofun⟩
  have hopen := (hlogs.step (a := .createLog) ⟨rfl, rfl, rfl, rfl⟩).step (a := .logOpenEdit) ⟨rfl, rfl⟩
  have hwritten := ((hopen.step (a := .createManifest) ⟨_, rfl⟩).step (a := .writeSnapshot)
    ⟨_, rfl⟩).step (a := .appendEdit) ⟨_, rfl⟩
  have hrunning := (hwritten.step (a := .setCurrent) ⟨_, rfl, rfl⟩).step (a := .installVersion)
    ⟨_, Or.inl rfl⟩
  have hfailed := hrunning.step (a := .makeRoomForWrite false) rfl
  refine ⟨_, _, hfailed, rfl, rfl, .step (a := .makeRoomForWrite true) rfl rfl, ?_⟩
  exact created_not_referenced [] _ hfailed .log 5 (.step (a := .makeRoomForWrite true) rfl rfl)

end LdbFreshNumbers
