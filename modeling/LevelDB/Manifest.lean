import Mathlib.Data.List.Induction
import LevelDB.LogRoundTrip
import LevelDB.VersionSet

/-! # The MANIFEST replays to the version in memory

    In memory every edit gets a builder of its own over the version before it;
    recovery folds all edits of a MANIFEST through one builder over the empty
    version, whose sets of deleted and added files are shared by all edits.
    `InStep` relates the two, `Consistent` the bytes of a MANIFEST to the version
    set that writes it, and `manifest_replays` draws the conclusion for every run
    of the version set. -/

namespace LdbManifest

open LdbFormat LdbVersion LdbEdit LdbEditCodec LdbLog LdbVersionSet

/-! ## One builder for all edits -/

instance : Std.Irrefl bySmallestKey := ⟨bySmallestKey.irrefl⟩

instance : Std.Asymm bySmallestKey :=
  ⟨fun f _ hfg hgf => bySmallestKey.irrefl f (hfg.trans hgf)⟩

/-- The files of one level of a builder over the empty version. -/
def kept (st : LevelState) : List FileMetaData :=
  st.addedFiles.filter fun f => decide (f.number ∉ st.deletedFiles)

variable {f : FileMetaData}

theorem mem_kept {st : LevelState} :
    f ∈ kept st ↔ f ∈ st.addedFiles ∧ f.number ∉ st.deletedFiles := by
  rw [kept, List.mem_filter, decide_eq_true_eq]

theorem mergeFiles_nil (added : List FileMetaData) : mergeFiles [] added = added := by
  induction added with
  | nil => rfl
  | cons a added ih =>
    rw [mergeFiles, List.takeWhile_nil, List.dropWhile_nil, ih]
    rfl

/-- A builder over the empty version is in step with a version: its files, those
    added and not deleted since, are the files of the version. -/
structure InStep (b : Builder) (v : Version) : Prop where
  base : b.base = Version.empty
  sorted : ∀ level, (b.levels level).addedFiles.Pairwise bySmallestKey
  files : ∀ level, v.files level = kept (b.levels level)

theorem inStep_new : InStep (Builder.new Version.empty) Version.empty where
  base := rfl
  sorted := fun _ => List.Pairwise.nil
  files := fun _ => rfl

variable {b : Builder} {v : Version} {e : VersionEdit} {name : Slice} {vs : VersionSet}
  {es : List VersionEdit}

/-- The version such a builder saves. -/
theorem InStep.saveTo (h : InStep b v) : b.saveTo = v := by
  have hfiles : b.saveTo.files = v.files := by
    funext level
    rw [h.files level, kept, Builder.saveTo, h.base]
    show (mergeFiles [] _).filter _ = _
    rw [mergeFiles_nil]
  exact congrArg Version.mk hfiles

theorem InStep.mem_files (h : InStep b v) {level : Nat} : f ∈ v.files level
      ↔ f ∈ (b.levels level).addedFiles ∧ f.number ∉ (b.levels level).deletedFiles := by
  rw [h.files level, mem_kept]

theorem InStep.current (h : InStep b v) (level : Nat) : (v.files level).Pairwise bySmallestKey := by
  rw [h.files level]
  exact (h.sorted level).filter _

/-- The new files of an edit have numbers that no file added to their level had. -/
structure Fresh (b : Builder) (e : VersionEdit) : Prop where
  nodup : ∀ level, ((e.addedAt level).map (·.number)).Nodup
  fresh : ∀ level, ∀ f ∈ e.addedAt level, ∀ g ∈ (b.levels level).addedFiles, g.number ≠ f.number

theorem InStep.freshFor (h : InStep b v) (hf : Fresh b e) : e.FreshFor v where
  nodup := hf.nodup
  fresh := fun level f hfe g hg => hf.fresh level f hfe g (h.mem_files.mp hg).1

theorem Fresh.mem_addedFiles (hf : Fresh b e) {level : Nat} :
    f ∈ ((b.apply e).levels level).addedFiles
      ↔ f ∈ e.addedAt level ∨ f ∈ (b.levels level).addedFiles := by
  rw [Builder.apply_levels, foldl_add_addedFiles, foldl_delete_addedFiles]
  exact mem_addedSet _ _ (hf.nodup level) (hf.fresh level)

theorem mem_deletedFiles_apply {level n : Nat} :
    n ∈ ((b.apply e).levels level).deletedFiles
      ↔ (n ∈ e.deletedAt level ∨ n ∈ (b.levels level).deletedFiles)
        ∧ ∀ f ∈ e.addedAt level, f.number ≠ n := by
  rw [Builder.apply_levels, foldl_add_deletedFiles, foldl_delete_deletedFiles]

/-- **One more edit keeps the one builder in step** with the builder per edit. -/
theorem InStep.apply (h : InStep b v) (hf : Fresh b e) : InStep (b.apply e) (applyEdit v e) := by
  have hsorted : ∀ level, ((b.apply e).levels level).addedFiles.Pairwise bySmallestKey := by
    intro level
    rw [Builder.apply_levels, foldl_add_addedFiles, foldl_delete_addedFiles]
    exact addedSet_sorted _ _ (h.sorted level)
  refine ⟨h.base, hsorted, fun level => ?_⟩
  refine (applyEdit_sorted (h.freshFor hf) (h.current level)).eq_of_mem_iff
    ((hsorted level).filter _) fun f => ?_
  rw [mem_applyEdit (h.freshFor hf), h.mem_files, ← VersionEdit.mem_deletedAt,
    ← VersionEdit.mem_addedAt, mem_kept, hf.mem_addedFiles, mem_deletedFiles_apply]
  constructor
  · rintro (⟨⟨hb, hnd⟩, hne⟩ | ha)
    · exact ⟨Or.inr hb, fun hd => hd.1.elim hne hnd⟩
    · exact ⟨Or.inl ha, fun hd => hd.2 f ha rfl⟩
  · rintro ⟨ha | hb, hno⟩
    · exact Or.inr ha
    · -- the number of an older file is none of the new ones
      have hold : ∀ g ∈ e.addedAt level, g.number ≠ f.number :=
        fun g hg => (hf.fresh level g hg f hb).symm
      exact Or.inl ⟨⟨hb, fun hd => hno ⟨Or.inr hd, hold⟩⟩, fun hd => hno ⟨Or.inl hd, hold⟩⟩

/-- The builder of all edits of a MANIFEST. -/
def fold (es : List VersionEdit) : Builder := es.foldl Builder.apply (Builder.new Version.empty)

theorem fold_snoc (es : List VersionEdit) (e : VersionEdit) :
    fold (es ++ [e]) = (fold es).apply e := by
  rw [fold, List.foldl_append]
  rfl

/-! ## Snapshots -/

theorem flatMap_addedAt (v : Version) (level : Nat) :
    ∀ levels : List Nat, levels.Nodup →
      (((levels.flatMap fun l => (v.files l).map fun f => (l, f)).filter
        fun p => p.1 = level).map Prod.snd) = if level ∈ levels then v.files level else [] := by
  intro levels
  induction levels with
  | nil =>
    intro _
    rfl
  | cons l rest ih =>
    intro hnd
    obtain ⟨hl, hrest⟩ := List.nodup_cons.mp hnd
    rw [List.flatMap_cons, List.filter_append, List.map_append, ih hrest, List.filter_map,
      List.map_map]
    by_cases h : l = level
    · subst h
      rw [if_neg hl, if_pos List.mem_cons_self, List.append_nil, List.filter_eq_self.mpr
        (fun f _ => by simp)]
      exact List.map_id _
    · rw [List.filter_eq_nil_iff.mpr (fun f _ => by simpa using h)]
      simp [Ne.symm h]

/-- A snapshot adds the files of every level. -/
theorem snapshot_addedAt (hlevels : ∀ l, kNumLevels ≤ l → vs.current.files l = []) (level : Nat) :
    (vs.snapshot name).addedAt level = vs.current.files level := by
  refine (flatMap_addedAt vs.current level _ List.nodup_range).trans ?_
  by_cases h : level < kNumLevels
  · rw [if_pos (List.mem_range.mpr h)]
  · rw [if_neg (fun hm => h (List.mem_range.mp hm)), hlevels level (Nat.le_of_not_lt h)]

/-- Files of one level with equal numbers are equal. -/
def Numbered (v : Version) : Prop :=
  ∀ level, ∀ f ∈ v.files level, ∀ g ∈ v.files level, f.number = g.number → f = g

/-- **A snapshot alone replays to its version.** -/
theorem inStep_snapshot (hlevels : ∀ l, kNumLevels ≤ l → vs.current.files l = [])
    (hsorted : ∀ l, (vs.current.files l).Pairwise bySmallestKey) (hnum : Numbered vs.current) :
    InStep (fold [vs.snapshot name]) vs.current := by
  have hfresh : Fresh (Builder.new Version.empty) (vs.snapshot name) := by
    refine ⟨fun level => ?_, fun _ _ _ => nofun⟩
    rw [snapshot_addedAt hlevels level]
    exact List.Nodup.map_on (hnum level) (hsorted level).nodup
  have happly := inStep_new.apply hfresh
  have heq : applyEdit Version.empty (vs.snapshot name) = vs.current := by
    refine congrArg Version.mk (funext fun level => ?_)
    refine (happly.current level).eq_of_mem_iff (hsorted level) fun f => ?_
    rw [mem_applyEdit (inStep_new.freshFor hfresh), ← VersionEdit.mem_addedAt,
      snapshot_addedAt hlevels level]
    exact ⟨fun h => h.resolve_left fun h => absurd h.1 List.not_mem_nil, Or.inr⟩
  rw [← heq]
  exact happly

/-! ## Reading the edits back -/

/-- The last value a number of the edits has, if any. -/
def latest (field : VersionEdit → Option Nat) (es : List VersionEdit) : Option Nat :=
  es.foldl (fun acc e => (field e).or acc) none

theorem latest_snoc (field : VersionEdit → Option Nat) (es : List VersionEdit) (e : VersionEdit) :
    latest field (es ++ [e]) = (field e).or (latest field es) := by
  rw [latest, List.foldl_append]
  rfl

/-- The edit is accepted by recovery under this comparator name. -/
structure Readable (name : Slice) (e : VersionEdit) : Prop where
  fits : FitsEdit e
  name : ∀ c ∈ e.comparator, c = name

/-- What the loop of `Recover` does with an edit it accepts. -/
def Replay.take (s : Replay) (e : VersionEdit) : Replay where
  status := .ok
  builder := s.builder.apply e
  compactPointer := applyPointers s.compactPointer e
  logNumber := e.logNumber.or s.logNumber
  prevLogNumber := e.prevLogNumber.or s.prevLogNumber
  nextFile := e.nextFileNumber.or s.nextFile
  lastSequence := e.lastSequence.or s.lastSequence

theorem Readable.apply (h : Readable name e) (s : Replay) :
    s.apply name (encodeTo e) = Replay.take s e := by
  have hstatus : editStatus name (e, .ok) = .ok := by
    rw [editStatus, if_pos rfl]
    cases hc : e.comparator with
    | none => rfl
    | some c => exact if_neg (fun hne => hne (h.name c hc))
  rw [Replay.apply, decodeFrom_encode h.fits]
  simp only [hstatus]
  rfl

/-- The loop of `Recover` on the records of readable edits. -/
theorem replayLoop_eq (n : Nat) :
    ∀ (r : Reader) (es : List LogEvent) (s : Replay), Ready r es → r.unread.length < n →
      (assemble [] false es).2 = [] →
      (∀ record ∈ (assemble [] false es).1, ∃ e, Readable name e ∧ record = encodeTo e) →
      s.status = .ok →
      replayLoop name n r s = (assemble [] false es).1.foldl (Replay.apply name) s := by
  refine @loop_eq_foldl _ _ _ _ (· = []) _ (fun a b h => List.append_eq_nil_iff.mp h) ?_ ?_ n
  · intro n r r' reps s hread hreports hquiet _
    rw [replayLoop, hread]
    show s.reported (r'.reports.drop r.reports.length) = s
    rw [hreports, List.drop_left, hquiet]
    rfl
  · intro n r r' reps s record hread hreports hquiet hs hacc
    obtain ⟨e, he, rfl⟩ := hacc
    refine ⟨?_, by rw [he.apply]; rfl⟩
    have hsame : s.reported (r'.reports.drop r.reports.length) = s := by
      rw [hreports, List.drop_left, hquiet]
      rfl
    rw [replayLoop, hread]
    simp only [hsame]
    exact if_pos hs

/-- **Recovery folds the edits of a MANIFEST.** -/
theorem replay_eq (h : ∀ e ∈ es, Readable name e) (vs : VersionSet) :
    replay name vs (encodeAll 0 (es.map encodeTo)) = es.foldl Replay.take (Replay.new vs) := by
  obtain ⟨events, hscan, hassemble⟩ := encodeAll_scan (es.map encodeTo)
  have hloop := @replayLoop_eq name _ _ _ (Replay.new vs) (ready_new hscan)
    (Nat.lt_succ_self _) (by rw [hassemble]) (fun record hr => by
      rw [hassemble] at hr
      obtain ⟨e, he, rfl⟩ := List.mem_map.mp hr
      exact ⟨e, h e he, rfl⟩) rfl
  rw [replay]
  refine hloop.trans ?_
  rw [hassemble, List.foldl_map]
  refine List.foldl_ext _ _ _ fun s e he => ?_
  exact (h e he).apply s

/-- The edits of a MANIFEST, folded by `Recover`. -/
abbrev replayed (edits : List VersionEdit) : Replay :=
  edits.foldl Replay.take (Replay.new VersionSet.new)

/-- What this fold is made of. -/
theorem replayed_spec (es : List VersionEdit) :
    (replayed es).status = .ok ∧ (replayed es).builder = fold es
      ∧ (replayed es).logNumber = latest (·.logNumber) es
      ∧ (replayed es).prevLogNumber = latest (·.prevLogNumber) es
      ∧ (replayed es).nextFile = latest (·.nextFileNumber) es
      ∧ (replayed es).lastSequence = latest (·.lastSequence) es := by
  induction es using List.reverseRecOn with
  | nil => exact ⟨rfl, rfl, rfl, rfl, rfl, rfl⟩
  | append_singleton es e ih =>
    obtain ⟨-, hb, hl, hp, hn, hs⟩ := ih
    rw [replayed, List.foldl_append, fold_snoc, latest_snoc, latest_snoc, latest_snoc, latest_snoc,
      ← hb, ← hl, ← hp, ← hn, ← hs]
    exact ⟨rfl, rfl, rfl, rfl, rfl, rfl⟩

theorem applyPointers_fits {ptr : Nat → Option InternalKey} (he : FitsEdit e)
    (h : ∀ level, ∀ k ∈ ptr level, FitsKey k) :
    ∀ level, ∀ k ∈ applyPointers ptr e level, FitsKey k := by
  have hall := he.compactPointers
  rw [applyPointers]
  generalize e.compactPointers = ps at hall
  induction ps generalizing ptr with
  | nil => exact h
  | cons p rest ih =>
    refine ih (fun level k hk => ?_) (List.forall_mem_cons.mp hall).2
    simp only at hk
    by_cases hl : level = p.1
    · subst hl
      rw [Function.update_self, Option.mem_some_iff] at hk
      exact hk ▸ (hall p List.mem_cons_self).2
    · rw [Function.update_of_ne hl] at hk
      exact h level k hk

/-- The compaction pointers that come out of edits fit. -/
theorem replayed_pointers (es : List VersionEdit) (h : ∀ e ∈ es, FitsEdit e) :
    ∀ level, ∀ k ∈ (replayed es).compactPointer level, FitsKey k := by
  induction es using List.reverseRecOn with
  | nil => nofun
  | append_singleton es e ih =>
    rw [replayed, List.foldl_append]
    exact applyPointers_fits (h e (by simp)) (ih fun e' he' => h e' (by simp [he']))

/-! ## A version set and its MANIFEST -/

/-- The file and log numbers an edit names. -/
def numbersOf (e : VersionEdit) : List Nat :=
  e.logNumber.toList ++ e.prevLogNumber.toList ++ e.nextFileNumber.toList
    ++ e.deletedFiles.map Prod.snd ++ e.newFiles.map fun p => p.2.number

theorem mem_numbersOf {n : Nat} :
    n ∈ numbersOf e ↔ n ∈ e.logNumber ∨ n ∈ e.prevLogNumber ∨ n ∈ e.nextFileNumber
      ∨ (∃ p ∈ e.deletedFiles, p.2 = n) ∨ ∃ p ∈ e.newFiles, p.2.number = n := by
  simp only [numbersOf, List.mem_append, Option.mem_toList, Option.mem_def, List.mem_map, or_assoc]

/-- The version of a version set can be written as a snapshot. -/
structure Storable (vs : VersionSet) : Prop where
  levels : ∀ l, kNumLevels ≤ l → vs.current.files l = []
  numbered : Numbered vs.current
  number : ∀ l, ∀ f ∈ vs.current.files l, f.number < vs.nextFileNumber
  files : ∀ l, ∀ f ∈ vs.current.files l, FitsFile f
  pointers : ∀ l, ∀ k ∈ vs.compactPointer l, FitsKey k

/-- Edits that replay to the version and the log numbers of a version set; the last
    of them recorded the next file number and the last sequence number. -/
structure Replays (name : Slice) (es : List VersionEdit) (vs : VersionSet) (next recorded : Nat) :
    Prop where
  readable : ∀ e ∈ es, Readable name e
  inStep : InStep (fold es) vs.current
  logNumber : latest (·.logNumber) es = some vs.logNumber
  prevLogNumber : (latest (·.prevLogNumber) es).getD 0 = vs.prevLogNumber
  nextFile : latest (·.nextFileNumber) es = some next
  lastSequence : latest (·.lastSequence) es = some recorded
  numbers : ∀ e ∈ es, ∀ n ∈ numbersOf e, n ≤ next

/-- The descriptor of a version set: the writer of the MANIFEST `m` that `CURRENT`
    names, or none and a number for the next one. -/
def Attached (vs : VersionSet) (m : Nat) (es : List VersionEdit) : Prop :=
  match vs.descriptorLog with
  | some w => vs.manifestFileNumber = m ∧ w.After (es.map encodeTo)
  | none => m < vs.manifestFileNumber ∧ vs.manifestFileNumber < vs.nextFileNumber

/-- **The version set and the directory agree.**  `added` lists the levels and
    numbers of the files added so far. -/
structure Consistent (name : Slice) (added : List (Nat × Nat)) (vs : VersionSet) (disk : Manifests)
    (m : Nat) (es : List VersionEdit) (next recorded : Nat) : Prop where
  current : disk.current = some m
  bytes : disk.files m = some (encodeAll 0 (es.map encodeTo))
  replays : Replays name es vs next recorded
  storable : Storable vs
  attached : Attached vs m es
  before : m < next
  next_le : next ≤ vs.nextFileNumber
  added : ∀ l, ∀ f ∈ ((fold es).levels l).addedFiles, (l, f.number) ∈ added

/-- What `LogAndApply` may be called with: values in the range of their types, file
    numbers that were handed out before, log numbers as the code asserts them, and
    no file number added to a level again. -/
@[mk_iff]
structure Admissible (name : Slice) (added : List (Nat × Nat)) (vs : VersionSet)
    (edit : VersionEdit) : Prop where
  fits : FitsEdit (vs.complete edit)
  name : ∀ c ∈ edit.comparator, c = name
  log : ∀ n ∈ edit.logNumber, vs.logNumber ≤ n ∧ n < vs.nextFileNumber
  prevLog : ∀ n ∈ edit.prevLogNumber, n < vs.nextFileNumber
  deleted : ∀ p ∈ edit.deletedFiles, p.2 < vs.nextFileNumber
  new : ∀ p ∈ edit.newFiles, p.2.number < vs.nextFileNumber
  nodup : (edit.newFiles.map fun p => (p.1, p.2.number)).Nodup
  once : ∀ p ∈ edit.newFiles, (p.1, p.2.number) ∉ added

instance (name : Slice) (added : List (Nat × Nat)) (vs : VersionSet) (edit : VersionEdit) :
    Decidable (Admissible name added vs edit) :=
  decidable_of_iff' _ (admissible_iff name added vs edit)

section LogAndApply

variable {name : Slice} {added : List (Nat × Nat)} {vs : VersionSet} {disk : Manifests} {m : Nat}
  {es : List VersionEdit} {next recorded : Nat} {edit : VersionEdit}

theorem complete_addedAt (vs : VersionSet) (edit : VersionEdit) (level : Nat) :
    (vs.complete edit).addedAt level = edit.addedAt level := rfl

/-- New files of an admissible edit are fresh for the builder of the MANIFEST. -/
theorem Admissible.fresh (h : Admissible name added vs edit) {b : Builder}
    (hadded : ∀ l, ∀ f ∈ (b.levels l).addedFiles, (l, f.number) ∈ added) :
    Fresh b (vs.complete edit) := by
  refine ⟨fun level => ?_, fun level f hf g hg heq => ?_⟩
  · have hsub : ((edit.newFiles.filter fun p => p.1 = level).map
        fun p => (p.1, p.2.number)).Nodup :=
      h.nodup.sublist (List.filter_sublist.map _)
    rw [complete_addedAt, VersionEdit.addedAt, List.map_map]
    refine List.Nodup.map_on (fun p hp q hq hpq => ?_) (List.Nodup.of_map _ hsub)
    have hp1 : p.1 = level := of_decide_eq_true (List.mem_filter.mp hp).2
    have hq1 : q.1 = level := of_decide_eq_true (List.mem_filter.mp hq).2
    exact List.inj_on_of_nodup_map hsub hp hq (Prod.ext (hp1.trans hq1.symm) hpq)
  · have hin := hadded level g hg
    rw [heq] at hin
    exact h.once (level, f) (VersionEdit.mem_addedAt.mp hf) hin

/-- The version set after a successful `LogAndApply`. -/
def applied (vs : VersionSet) (edit : VersionEdit) (w : Writer) : VersionSet :=
  { vs with
    current := applyEdit vs.current (vs.complete edit)
    compactPointer := applyPointers vs.compactPointer (vs.complete edit)
    logNumber := edit.logNumber.getD vs.logNumber
    prevLogNumber := edit.prevLogNumber.getD vs.prevLogNumber
    descriptorLog := some w }

/-- The version set as `WriteSnapshot` finds it. -/
def pointed (vs : VersionSet) (edit : VersionEdit) : VersionSet :=
  { vs with compactPointer := applyPointers vs.compactPointer (vs.complete edit) }

/-- `LogAndApply` with an open MANIFEST. -/
theorem logAndApply_open {w w' : Writer} {bytes bytes' : Slice} (hw : vs.descriptorLog = some w)
    (hbytes : disk.files vs.manifestFileNumber = some bytes)
    (hrecord : w.addRecord ⟨bytes, []⟩ (encodeTo (vs.complete edit)) = (.ok, w', ⟨bytes', []⟩)) :
    vs.logAndApply name {} disk edit
      = (.ok, applied vs edit w', disk.put vs.manifestFileNumber bytes') := by
  rw [VersionSet.logAndApply, VersionSet.descriptor]
  simp only [hw, hbytes, Option.getD_some, if_true, writeEdit, hrecord]
  rfl

/-- `LogAndApply` that starts a new MANIFEST. -/
theorem logAndApply_new {w w' : Writer} {bytes bytes' : Slice} (hw : vs.descriptorLog = none)
    (hsnapshot : Writer.new.addRecord ⟨[], []⟩ (encodeTo ((pointed vs edit).snapshot name))
      = (.ok, w, ⟨bytes, []⟩))
    (hrecord : w.addRecord ⟨bytes, []⟩ (encodeTo (vs.complete edit)) = (.ok, w', ⟨bytes', []⟩)) :
    vs.logAndApply name {} disk edit = (.ok, applied vs edit w',
      (disk.put vs.manifestFileNumber bytes').setCurrent vs.manifestFileNumber) := by
  have hdescriptor : (pointed vs edit).descriptor name {} disk = (.ok, w, ⟨bytes, []⟩) := by
    rw [VersionSet.descriptor]
    simp only [pointed, hw]
    exact hsnapshot
  rw [pointed] at hdescriptor
  rw [VersionSet.logAndApply]
  simp only [hdescriptor, if_true, writeEdit, hrecord]
  simp only [hw]
  rfl

theorem Admissible.readable (h : Admissible name added vs edit) :
    Readable name (vs.complete edit) :=
  ⟨h.fits, h.name⟩

/-- The numbers of a completed edit have been handed out. -/
theorem Admissible.numbers (h : Admissible name added vs edit)
    (hlog : vs.logNumber ≤ vs.nextFileNumber) (hprev : vs.prevLogNumber ≤ vs.nextFileNumber) :
    ∀ n ∈ numbersOf (vs.complete edit), n ≤ vs.nextFileNumber := by
  intro n hn
  simp only [mem_numbersOf, VersionSet.complete, Option.mem_some_iff] at hn
  rcases hn with rfl | rfl | rfl | ⟨p, hp, rfl⟩ | ⟨p, hp, rfl⟩
  · cases hl : edit.logNumber with
    | none => exact hlog
    | some n => exact Nat.le_of_lt (h.log n hl).2
  · cases hl : edit.prevLogNumber with
    | none => exact hprev
    | some n => exact Nat.le_of_lt (h.prevLog n hl)
  · exact Nat.le_refl _
  · exact Nat.le_of_lt (h.deleted p hp)
  · exact Nat.le_of_lt (h.new p hp)

/-- A completed edit after edits that replay to the version. -/
theorem replays_complete (hread : ∀ e ∈ es, Readable name e) (hstep : InStep (fold es) vs.current)
    (hnumbers : ∀ e ∈ es, ∀ n ∈ numbersOf e, n ≤ vs.nextFileNumber)
    (h : Admissible name added vs edit)
    (hnew : ∀ n ∈ numbersOf (vs.complete edit), n ≤ vs.nextFileNumber)
    (hfresh : Fresh (fold es) (vs.complete edit)) (w : Writer) :
    Replays name (es ++ [vs.complete edit]) (applied vs edit w) vs.nextFileNumber
      vs.lastSequence where
  readable := List.forall_mem_append.mpr ⟨hread, List.forall_mem_singleton.mpr h.readable⟩
  inStep := by
    rw [fold_snoc]
    exact hstep.apply hfresh
  logNumber := latest_snoc _ _ _
  prevLogNumber := by
    rw [latest_snoc]
    rfl
  nextFile := latest_snoc _ _ _
  lastSequence := latest_snoc _ _ _
  numbers := List.forall_mem_append.mpr ⟨hnumbers, List.forall_mem_singleton.mpr hnew⟩

/-- The next version can be written as a snapshot again. -/
theorem Storable.apply (hs : Storable vs) {b : Builder} (hstep : InStep b vs.current)
    (h : Admissible name added vs edit) (hfresh : Fresh b (vs.complete edit)) (w : Writer) :
    Storable (applied vs edit w) := by
  have hmem : ∀ {l f}, f ∈ (applyEdit vs.current (vs.complete edit)).files l →
      f ∈ vs.current.files l ∨ (l, f) ∈ edit.newFiles := by
    intro l f hf
    rcases (mem_applyEdit (hstep.freshFor hfresh)).mp hf with hf | hf
    · exact Or.inl hf.1
    · exact Or.inr hf
  refine ⟨fun l hl => ?_, fun l f hf g hg heq => ?_, fun l f hf => ?_, fun l f hf => ?_,
    applyPointers_fits h.fits hs.pointers⟩
  · refine List.eq_nil_iff_forall_not_mem.mpr fun f hf => ?_
    rcases hmem hf with hf | hf
    · rw [hs.levels l hl] at hf
      cases hf
    · exact absurd (h.fits.newFiles (l, f) hf).1 (Nat.not_lt.mpr hl)
  · rcases hmem hf with hf | hf <;> rcases hmem hg with hg | hg
    · exact hs.numbered l f hf g hg heq
    · exact absurd heq ((hstep.freshFor hfresh).fresh l g (VersionEdit.mem_addedAt.mpr hg) f hf)
    · exact absurd heq.symm
        ((hstep.freshFor hfresh).fresh l f (VersionEdit.mem_addedAt.mpr hf) g hg)
    · exact List.inj_on_of_nodup_map (hfresh.nodup l) (VersionEdit.mem_addedAt.mpr hf)
        (VersionEdit.mem_addedAt.mpr hg) heq
  · rcases hmem hf with hf | hf
    · exact hs.number l f hf
    · exact h.new (l, f) hf
  · rcases hmem hf with hf | hf
    · exact hs.files l f hf
    · exact (h.fits.newFiles (l, f) hf).2

theorem Storable.pointed (hs : Storable vs) (h : Admissible name added vs edit) :
    Storable (pointed vs edit) :=
  { hs with pointers := applyPointers_fits h.fits hs.pointers }

theorem mem_snapshot_newFiles {p : Nat × FileMetaData} :
    p ∈ (vs.snapshot name).newFiles ↔ p.1 < kNumLevels ∧ p.2 ∈ vs.current.files p.1 := by
  obtain ⟨l, f⟩ := p
  simp only [VersionSet.snapshot, List.mem_flatMap, List.mem_range, List.mem_map, Prod.mk.injEq]
  constructor
  · rintro ⟨l', hl, g, hg, rfl, rfl⟩
    exact ⟨hl, hg⟩
  · rintro ⟨hl, hf⟩
    exact ⟨l, hl, f, hf, rfl, rfl⟩

/-- A snapshot can be read back. -/
theorem Storable.readable (hs : Storable vs) (hname : name.length < 2 ^ 32) :
    Readable name (vs.snapshot name) := by
  refine ⟨⟨?_, nofun, nofun, nofun, nofun, ?_, nofun, ?_, List.Pairwise.nil⟩, ?_⟩
  · intro c hc
    cases hc
    exact hname
  · intro p hp
    obtain ⟨l, hl, hkey⟩ := List.mem_filterMap.mp hp
    obtain ⟨k, hk, rfl⟩ := Option.map_eq_some_iff.mp hkey
    exact ⟨List.mem_range.mp hl, hs.pointers l k hk⟩
  · intro p hp
    obtain ⟨hl, hf⟩ := mem_snapshot_newFiles.mp hp
    exact ⟨hl, hs.files p.1 p.2 hf⟩
  · intro c hc
    cases hc
    rfl

theorem Storable.numbers (hs : Storable vs) :
    ∀ n ∈ numbersOf (vs.snapshot name), n ≤ vs.nextFileNumber := by
  intro n hn
  have hn' : n ∈ (vs.snapshot name).newFiles.map fun p => p.2.number := hn
  obtain ⟨p, hp, rfl⟩ := List.mem_map.mp hn'
  exact Nat.le_of_lt (hs.number p.1 p.2 (mem_snapshot_newFiles.mp hp).2)

/-- Log numbers that were recorded are below the recorded next file number. -/
theorem Replays.logs_le (h : Replays name es vs next recorded) :
    vs.logNumber ≤ next ∧ vs.prevLogNumber ≤ next := by
  have hlast : ∀ (field : VersionEdit → Option Nat), (∀ e, ∀ n ∈ field e, n ∈ numbersOf e) →
      ∀ n ∈ latest field es, n ≤ next := by
    intro field hfield
    have hnumbers := h.numbers
    clear h
    induction es using List.reverseRecOn with
    | nil => nofun
    | append_singleton es e ih =>
      intro n hn
      rw [latest_snoc] at hn
      cases hf : field e with
      | none =>
        rw [hf, Option.none_or] at hn
        exact ih (fun e' he' => hnumbers e' (List.mem_append_left _ he')) n hn
      | some k =>
        rw [hf, Option.some_or, Option.mem_some_iff] at hn
        exact hn ▸ hnumbers e (by simp) k (hfield e k hf)
  have hlog := hlast (·.logNumber) (fun e n hn => mem_numbersOf.mpr (Or.inl hn)) _ h.logNumber
  have hprev := hlast (·.prevLogNumber) fun e n hn => mem_numbersOf.mpr (Or.inr (Or.inl hn))
  refine ⟨hlog, ?_⟩
  rw [← h.prevLogNumber]
  cases hp : latest (·.prevLogNumber) es with
  | none => exact Nat.zero_le _
  | some n => exact hprev n hp

/-- The levels and numbers of the files an edit adds. -/
def addedBy (edit : VersionEdit) : List (Nat × Nat) :=
  edit.newFiles.map fun p => (p.1, p.2.number)

theorem mem_addedBy {l : Nat} (h : f ∈ edit.addedAt l) :
    (l, f.number) ∈ addedBy edit :=
  List.mem_map.mpr ⟨(l, f), VersionEdit.mem_addedAt.mp h, rfl⟩

/-- The files added with one more edit. -/
theorem added_snoc (hfresh : Fresh (fold es) (vs.complete edit))
    (hadded : ∀ l, ∀ f ∈ ((fold es).levels l).addedFiles, (l, f.number) ∈ added) (l : Nat)
    (f : FileMetaData) (hf : f ∈ ((fold (es ++ [vs.complete edit])).levels l).addedFiles) :
    (l, f.number) ∈ addedBy edit ++ added := by
  rw [fold_snoc, hfresh.mem_addedFiles] at hf
  rcases hf with hf | hf
  · exact List.mem_append_left _ (mem_addedBy hf)
  · exact List.mem_append_right _ (hadded l f hf)

/-- One more edit in an open MANIFEST. -/
theorem Consistent.append (hc : Consistent name added vs disk m es next recorded)
    (h : Admissible name added vs edit) {w : Writer} (hw : vs.descriptorLog = some w) :
    ∃ w', vs.logAndApply name {} disk edit = (.ok, applied vs edit w',
        disk.put m (encodeAll 0 ((es ++ [vs.complete edit]).map encodeTo)))
      ∧ Consistent name (addedBy edit ++ added) (applied vs edit w')
        (disk.put m (encodeAll 0 ((es ++ [vs.complete edit]).map encodeTo))) m
        (es ++ [vs.complete edit]) vs.nextFileNumber vs.lastSequence := by
  have hlogs := hc.replays.logs_le
  have hnew := h.numbers (Nat.le_trans hlogs.1 hc.next_le) (Nat.le_trans hlogs.2 hc.next_le)
  have hfresh := h.fresh hc.added
  have hattached := hc.attached
  rw [Attached, hw] at hattached
  obtain ⟨rfl, hafter⟩ := hattached
  obtain ⟨w', hafter', hrecord⟩ := hafter.addRecord (encodeTo (vs.complete edit))
  rw [← List.map_singleton, ← List.map_append] at hafter' hrecord
  refine ⟨w', logAndApply_open hw hc.bytes hrecord, ?_⟩
  refine ⟨hc.current, Manifests.put_files _ _ _, ?_,
    hc.storable.apply hc.replays.inStep h hfresh w', ⟨rfl, hafter'⟩,
    Nat.lt_of_lt_of_le hc.before hc.next_le, Nat.le_refl _, added_snoc hfresh hc.added⟩
  exact replays_complete hc.replays.readable hc.replays.inStep
    (fun e he n hn => Nat.le_trans (hc.replays.numbers e he n hn) hc.next_le) h hnew hfresh w'

/-- A new MANIFEST: a snapshot of the version before the edit, then the edit. -/
theorem Consistent.restart (hname : name.length < 2 ^ 32)
    (hc : Consistent name added vs disk m es next recorded) (h : Admissible name added vs edit)
    (hw : vs.descriptorLog = none) :
    ∃ w' bytes, vs.logAndApply name {} disk edit = (.ok, applied vs edit w',
        (disk.put vs.manifestFileNumber bytes).setCurrent vs.manifestFileNumber)
      ∧ Consistent name (addedBy edit ++ added) (applied vs edit w')
        ((disk.put vs.manifestFileNumber bytes).setCurrent vs.manifestFileNumber)
        vs.manifestFileNumber [(pointed vs edit).snapshot name, vs.complete edit]
        vs.nextFileNumber vs.lastSequence := by
  have hlogs := hc.replays.logs_le
  have hnew := h.numbers (Nat.le_trans hlogs.1 hc.next_le) (Nat.le_trans hlogs.2 hc.next_le)
  have hattached := hc.attached
  rw [Attached, hw] at hattached
  have hpointed := hc.storable.pointed h
  have hsnap : InStep (fold [(pointed vs edit).snapshot name]) vs.current := by
    have hcurrent : vs.current = (pointed vs edit).current := rfl
    rw [hcurrent]
    exact inStep_snapshot hpointed.levels hc.replays.inStep.current hpointed.numbered
  -- the snapshot adds no file that was not added before
  have hadded : ∀ l, ∀ f ∈ ((fold [(pointed vs edit).snapshot name]).levels l).addedFiles,
      (l, f.number) ∈ added := by
    intro l f hf
    rw [fold, List.foldl_cons, List.foldl_nil, Builder.apply_levels, foldl_add_addedFiles,
      foldl_delete_addedFiles, snapshot_addedAt hpointed.levels] at hf
    rcases mem_addedSet_subset _ _ hf with hf | hf
    · exact hc.added l f (hc.replays.inStep.mem_files.mp hf).1
    · cases hf
  have hfresh := h.fresh hadded
  obtain ⟨w, hafter, hsnapshot⟩ := after_new.addRecord (encodeTo ((pointed vs edit).snapshot name))
  obtain ⟨w', hafter', hrecord⟩ := hafter.addRecord (encodeTo (vs.complete edit))
  refine ⟨w', _, logAndApply_new hw hsnapshot hrecord, ?_⟩
  refine ⟨rfl, Manifests.put_files _ _ _, ?_, hc.storable.apply hsnap h hfresh w',
    ⟨rfl, hafter'⟩, hattached.2, Nat.le_refl _, added_snoc hfresh hadded⟩
  exact replays_complete (List.forall_mem_singleton.mpr (hpointed.readable hname)) hsnap
    (List.forall_mem_singleton.mpr hpointed.numbers) h hnew hfresh w'

/-- **`LogAndApply` keeps the version set and the directory in agreement.** -/
theorem Consistent.logAndApply (hname : name.length < 2 ^ 32)
    (hc : Consistent name added vs disk m es next recorded) (h : Admissible name added vs edit) :
    ∃ w' disk' m' es', vs.logAndApply name {} disk edit = (.ok, applied vs edit w', disk')
      ∧ Consistent name (addedBy edit ++ added) (applied vs edit w') disk' m' es'
        vs.nextFileNumber vs.lastSequence := by
  cases hw : vs.descriptorLog with
  | some w =>
    obtain ⟨w', heq, hcons⟩ := hc.append h hw
    exact ⟨w', _, _, _, heq, hcons⟩
  | none =>
    obtain ⟨w', bytes, heq, hcons⟩ := hc.restart hname h hw
    exact ⟨w', _, _, _, heq, hcons⟩

end LogAndApply

/-! ## Recovery -/

section Recover

variable {name : Slice} {added : List (Nat × Nat)} {vs : VersionSet} {disk : Manifests} {m : Nat}
  {es : List VersionEdit} {next recorded : Nat}

/-- The version set that recovery installs, before it looks at the size of the
    MANIFEST. -/
def recovered (es : List VersionEdit) : VersionSet :=
  (es.foldl Replay.take (Replay.new VersionSet.new)).install

theorem recover_eq (hc : Consistent name added vs disk m es next recorded) (o : ManifestOptions) :
    VersionSet.new.recover o name disk
      = (.ok, ((recovered es).reuseManifest o m (encodeAll 0 (es.map encodeTo))).2,
          !((recovered es).reuseManifest o m (encodeAll 0 (es.map encodeTo))).1) := by
  obtain ⟨hstatus, -, hlog, -, hnext, hseq⟩ := replayed_spec es
  have hcheck : (replayed es).check = .ok := by
    rw [Replay.check, hstatus, hlog, hnext, hseq, hc.replays.logNumber, hc.replays.nextFile,
      hc.replays.lastSequence]
    rfl
  rw [VersionSet.recover]
  simp only [hc.current, hc.bytes, replay_eq hc.replays.readable, hcheck, if_true]
  rfl

/-- The recovered numbers. -/
theorem recovered_spec (hc : Consistent name added vs disk m es next recorded) :
    (recovered es).current = vs.current ∧ (recovered es).logNumber = vs.logNumber
      ∧ (recovered es).prevLogNumber = vs.prevLogNumber
      ∧ (recovered es).nextFileNumber = next + 1 ∧ (recovered es).manifestFileNumber = next
      ∧ (recovered es).lastSequence = recorded ∧ (recovered es).descriptorLog = none := by
  obtain ⟨-, hbuilder, hlog, hprev, hnext, hseq⟩ := replayed_spec es
  refine ⟨?_, ?_, ?_, ?_, ?_, ?_, rfl⟩
  · exact (congrArg Builder.saveTo hbuilder).trans hc.replays.inStep.saveTo
  · rw [recovered, Replay.install, hlog, hc.replays.logNumber, Option.getD_some]
  · rw [recovered, Replay.install, hprev, hc.replays.prevLogNumber]
  · rw [recovered, Replay.install, hnext, hc.replays.nextFile, Option.getD_some]
  · rw [recovered, Replay.install, hnext, hc.replays.nextFile, Option.getD_some]
  · rw [recovered, Replay.install, hseq, hc.replays.lastSequence, Option.getD_some]

/-- A file the builder holds was added by one of the edits. -/
theorem mem_fold_addedFiles {l : Nat} (es : List VersionEdit)
    (hf : f ∈ ((fold es).levels l).addedFiles) : ∃ e ∈ es, (l, f) ∈ e.newFiles := by
  induction es using List.reverseRecOn with
  | nil => cases hf
  | append_singleton es e ih =>
    rw [fold_snoc, Builder.apply_levels, foldl_add_addedFiles, foldl_delete_addedFiles] at hf
    rcases mem_addedSet_subset _ _ hf with hf | hf
    · exact ⟨e, by simp, VersionEdit.mem_addedAt.mp hf⟩
    · obtain ⟨e', he', hnew⟩ := ih hf
      exact ⟨e', List.mem_append_left _ he', hnew⟩

/-- The files of the version were recorded below the recorded next file number. -/
theorem Replays.number_le (h : Replays name es vs next recorded) {l : Nat}
    (hf : f ∈ vs.current.files l) : f.number ≤ next := by
  obtain ⟨e, he, hnew⟩ := mem_fold_addedFiles es (h.inStep.mem_files.mp hf).1
  refine h.numbers e he f.number (mem_numbersOf.mpr ?_)
  exact Or.inr (Or.inr (Or.inr (Or.inr ⟨(l, f), hnew, rfl⟩)))

/-- What `ReuseManifest` may change. -/
theorem reuseManifest_cases (o : ManifestOptions) (vs : VersionSet) (m : Nat) (file : Slice) :
    vs.reuseManifest o m file = (false, vs)
      ∨ vs.reuseManifest o m file = (true, { vs with
          manifestFileNumber := m, descriptorLog := some (Writer.resume file.length) }) := by
  rw [VersionSet.reuseManifest]
  split
  · exact Or.inr rfl
  · exact Or.inl rfl

/-- **After a reopening the version set and the directory agree again.** -/
theorem Consistent.reopen (hc : Consistent name added vs disk m es next recorded)
    (o : ManifestOptions) :
    Consistent name added (VersionSet.new.recover o name disk).2.1 disk m es next recorded := by
  obtain ⟨hcur, hlog, hprev, hnext, hman, hseq, hnone⟩ := recovered_spec hc
  have hstorable : Storable (recovered es) := by
    refine ⟨?_, ?_, ?_, ?_, replayed_pointers es fun e he => (hc.replays.readable e he).fits⟩ <;>
      rw [hcur]
    · exact hc.storable.levels
    · exact hc.storable.numbered
    · intro l f hf
      rw [hnext]
      exact Nat.lt_succ_of_le (hc.replays.number_le hf)
    · exact hc.storable.files
  have hreplays : Replays name es (recovered es) next recorded :=
    { hc.replays with
      inStep := hcur.symm ▸ hc.replays.inStep
      logNumber := hlog.symm ▸ hc.replays.logNumber
      prevLogNumber := hprev.symm ▸ hc.replays.prevLogNumber }
  have hle : next ≤ (recovered es).nextFileNumber := by
    rw [hnext]
    exact Nat.le_succ _
  rw [recover_eq hc]
  rcases reuseManifest_cases o (recovered es) m (encodeAll 0 (es.map encodeTo)) with h | h
  · rw [h]
    refine ⟨hc.current, hc.bytes, hreplays, hstorable, ?_, hc.before, hle, hc.added⟩
    rw [Attached, hnone, hman, hnext]
    exact ⟨hc.before, Nat.lt_succ_self _⟩
  · rw [h]
    exact ⟨hc.current, hc.bytes, { hreplays with }, { hstorable with },
      ⟨rfl, after_resume _⟩, hc.before, hle, hc.added⟩

end Recover

/-! ## Runs of the version set -/

/-- A version set at work on its directory.  The last two components are kept for
    the statements: the levels and numbers of the files added so far, and the last
    sequence number recorded. -/
structure World where
  vs : VersionSet
  disk : Manifests
  added : List (Nat × Nat)
  recorded : Nat

/-- What happens to a version set; `reopen` stands for a new process. -/
inductive Action where
  | newFileNumber
  | markFileNumberUsed (number : Nat)
  | setLastSequence (s : Nat)
  | logAndApply (edit : VersionEdit)
  | reopen (o : ManifestOptions)

/-- One action. -/
def step (name : Slice) (w : World) : Action → World
  | .newFileNumber => { w with vs := w.vs.newFileNumber.2 }
  | .markFileNumberUsed number => { w with vs := w.vs.markFileNumberUsed number }
  | .setLastSequence s => { w with vs := w.vs.setLastSequence s }
  | .logAndApply edit =>
    { vs := (w.vs.logAndApply name {} w.disk edit).2.1
      disk := (w.vs.logAndApply name {} w.disk edit).2.2
      added := addedBy edit ++ w.added
      recorded := w.vs.lastSequence }
  | .reopen o => { w with vs := (VersionSet.new.recover o name w.disk).2.1 }

/-- The condition on an action. -/
def Allowed (name : Slice) (w : World) : Action → Prop
  | .logAndApply edit => Admissible name w.added w.vs edit
  | _ => True

instance (name : Slice) (w : World) (a : Action) : Decidable (Allowed name w a) :=
  match a with
  | .logAndApply edit => inferInstanceAs (Decidable (Admissible name w.added w.vs edit))
  | .newFileNumber | .markFileNumberUsed _ | .setLastSequence _ | .reopen _ =>
    inferInstanceAs (Decidable True)

/-- A new database, just opened. -/
def World.create (name : Slice) (o : ManifestOptions) : World :=
  step name ⟨VersionSet.new, newDB name Manifests.empty, [], 0⟩ (.reopen o)

/-- The states of all runs. -/
inductive Reach (name : Slice) : World → Prop
  | create (o : ManifestOptions) : Reach name (World.create name o)
  | step {w : World} {a : Action} : Reach name w → Allowed name w a → Reach name (step name w a)

/-- The directory of a new database agrees with the version set that recovery will
    make of it. -/
theorem consistent_newDB (hname : name.length < 2 ^ 32) :
    Consistent name [] { VersionSet.new with manifestFileNumber := 2, nextFileNumber := 3 }
      (newDB name Manifests.empty) 1 [newDBEdit name] 2 0 := by
  have hfits : FitsEdit (newDBEdit name) := by
    refine ⟨fun c hc => ?_, fun n hn => ?_, nofun, fun n hn => ?_, fun n hn => ?_, nofun, nofun,
      nofun, List.Pairwise.nil⟩
    · cases hc
      exact hname
    all_goals
      cases hn
      decide
  obtain ⟨w, -, hrecord⟩ := after_new.addRecord (encodeTo (newDBEdit name))
  refine ⟨rfl, ?_, ?_, ?_, ⟨by decide, by decide⟩, by decide, by decide, ?_⟩
  · have hbytes : (Writer.new.addRecord ⟨[], []⟩ (encodeTo (newDBEdit name))).2.2.contents
        = encodeAll 0 ([newDBEdit name].map encodeTo) := congrArg (·.2.2.contents) hrecord
    rw [newDB, hbytes]
    exact Manifests.put_files Manifests.empty 1 _
  · refine ⟨List.forall_mem_singleton.mpr ⟨hfits, fun c hc => ?_⟩,
      inStep_new.apply ⟨fun _ => List.nodup_nil, nofun⟩, rfl, rfl, rfl, rfl,
      List.forall_mem_singleton.mpr fun n hn => ?_⟩
    · cases hc
      rfl
    · simp [numbersOf, newDBEdit] at hn
      omega
  · exact ⟨fun _ _ => rfl, nofun, nofun, nofun, nofun⟩
  · nofun

/-- A larger next file number keeps the agreement. -/
theorem Consistent.mono {added : List (Nat × Nat)} {disk : Manifests} {m : Nat}
    {next recorded : Nat} (hc : Consistent name added vs disk m es next recorded) {n : Nat}
    (hle : vs.nextFileNumber ≤ n) (s : Nat) :
    Consistent name added { vs with nextFileNumber := n, lastSequence := s } disk m es next
      recorded := by
  refine ⟨hc.current, hc.bytes, { hc.replays with }, { hc.storable with
    number := fun l f hf => Nat.lt_of_lt_of_le (hc.storable.number l f hf) hle }, ?_, hc.before,
    Nat.le_trans hc.next_le hle, hc.added⟩
  have hattached := hc.attached
  rw [Attached] at hattached ⊢
  cases hw : vs.descriptorLog <;> rw [hw] at hattached
  case some => exact hattached
  case none => exact ⟨hattached.1, Nat.lt_of_lt_of_le hattached.2 hle⟩

/-- Opening a directory, whatever the version set before was. -/
theorem consistent_opened {w : World} {m : Nat} {next : Nat}
    (hc : Consistent name w.added vs w.disk m es next w.recorded) (o : ManifestOptions) :
    Consistent name (step name w (.reopen o)).added (step name w (.reopen o)).vs
      (step name w (.reopen o)).disk m es next (step name w (.reopen o)).recorded :=
  hc.reopen o

/-- **One action keeps the agreement.** -/
theorem consistent_step (hname : name.length < 2 ^ 32) {w : World} {m : Nat} {next : Nat}
    (hc : Consistent name w.added w.vs w.disk m es next w.recorded) {a : Action}
    (ha : Allowed name w a) :
    ∃ m' es' next', Consistent name (step name w a).added (step name w a).vs (step name w a).disk
      m' es' next' (step name w a).recorded := by
  cases a with
  | newFileNumber => exact ⟨m, es, next, hc.mono (Nat.le_succ _) w.vs.lastSequence⟩
  | markFileNumberUsed number =>
    refine ⟨m, es, next, ?_⟩
    show Consistent name w.added (w.vs.markFileNumberUsed number) w.disk m es next w.recorded
    rw [VersionSet.markFileNumberUsed]
    split
    · rename_i hle
      exact hc.mono (Nat.le_succ_of_le hle) w.vs.lastSequence
    · exact hc
  | setLastSequence s => exact ⟨m, es, next, hc.mono (Nat.le_refl _) s⟩
  | logAndApply edit =>
    obtain ⟨w', disk', m', es', heq, hcons⟩ := hc.logAndApply hname ha
    refine ⟨m', es', w.vs.nextFileNumber, ?_⟩
    show Consistent name (addedBy edit ++ w.added) (w.vs.logAndApply name {} w.disk edit).2.1
      (w.vs.logAndApply name {} w.disk edit).2.2 m' es' _ w.vs.lastSequence
    rw [heq]
    exact hcons
  | reopen o => exact ⟨m, es, next, consistent_opened hc o⟩

/-- **Every run keeps the agreement.** -/
theorem consistent_reach (hname : name.length < 2 ^ 32) {w : World} (h : Reach name w) :
    ∃ m es next, Consistent name w.added w.vs w.disk m es next w.recorded := by
  induction h with
  | create o =>
    exact ⟨1, [newDBEdit name], 2, consistent_opened (consistent_newDB hname) o⟩
  | step _ ha ih =>
    obtain ⟨m, es, next, hc⟩ := ih
    exact consistent_step hname hc ha

/-- **The MANIFEST replays to the version in memory.**  In every state of every run,
    recovery from the directory succeeds and finds, level by level, the files of
    the current version in their order, its log numbers, the last sequence number
    recorded, and a next file number above every number in the MANIFEST. -/
theorem manifest_replays {name : Slice} (hname : name.length < 2 ^ 32) {w : World}
    (h : Reach name w) (o : ManifestOptions) :
    ∃ vs save m file, VersionSet.new.recover o name w.disk = (.ok, vs, save)
      ∧ (∀ level, vs.current.files level = w.vs.current.files level)
      ∧ vs.logNumber = w.vs.logNumber ∧ vs.prevLogNumber = w.vs.prevLogNumber
      ∧ vs.lastSequence = w.recorded
      ∧ w.disk.current = some m ∧ w.disk.files m = some file
      ∧ ∀ record ∈ (logRecords file (file.length + 1)).1,
          ∀ n ∈ numbersOf (decodeFrom record).1, n < vs.nextFileNumber := by
  obtain ⟨m, es, next, hc⟩ := consistent_reach hname h
  obtain ⟨hcur, hlog, hprev, hnext, -, hseq, -⟩ := recovered_spec hc
  obtain ⟨events, hscan, hassemble⟩ := encodeAll_scan (es.map encodeTo)
  have hnumbers : ∀ record ∈ (logRecords (encodeAll 0 (es.map encodeTo))
      ((encodeAll 0 (es.map encodeTo)).length + 1)).1,
      ∀ n ∈ numbersOf (decodeFrom record).1, n < (recovered es).nextFileNumber := by
    intro record hr n hn
    rw [logRecords_eq hscan (Nat.lt_succ_self _), hassemble] at hr
    obtain ⟨e, he, rfl⟩ := List.mem_map.mp hr
    rw [decodeFrom_encode (hc.replays.readable e he).fits] at hn
    rw [hnext]
    exact Nat.lt_succ_of_le (hc.replays.numbers e he n hn)
  refine ⟨_, _, m, encodeAll 0 (es.map encodeTo), recover_eq hc o, ?_⟩
  rcases reuseManifest_cases o (recovered es) m (encodeAll 0 (es.map encodeTo)) with hr | hr <;>
    rw [hr] <;>
    exact ⟨fun l => by rw [hcur], hlog, hprev, hseq, hc.current, hc.bytes, hnumbers⟩

/-- The condition on a sequence of actions. -/
def AllAllowed (name : Slice) (w : World) : List Action → Bool
  | [] => true
  | a :: rest => decide (Allowed name w a) && AllAllowed name (step name w a) rest

theorem Reach.run (as : List Action) :
    ∀ {w : World}, Reach name w → AllAllowed name w as = true →
      Reach name (as.foldl (LdbManifest.step name) w) := by
  induction as with
  | nil =>
    intro w h _
    exact h
  | cons a rest ih =>
    intro w h hall
    rw [AllAllowed, Bool.and_eq_true, decide_eq_true_eq] at hall
    exact ih (Reach.step h hall.1) hall.2

/-- A file is added, moved down in a MANIFEST used further, and a snapshot is taken
    of it when the database is opened once more. -/
def sampleRun : List Action :=
  [.newFileNumber, .setLastSequence 5,
    .logAndApply { logNumber := some 3, newFiles := [(0, ⟨3, 40, ⟨[1], 2, .value⟩, ⟨[9], 1, .value⟩⟩)] },
    .reopen ⟨true, 1000⟩,
    .logAndApply {
      compactPointers := [(0, ⟨[9], 1, .value⟩)]
      deletedFiles := [(0, 3)]
      newFiles := [(1, ⟨3, 40, ⟨[1], 2, .value⟩, ⟨[9], 1, .value⟩⟩)] },
    .reopen ⟨false, 1000⟩, .setLastSequence 9, .logAndApply {}]

/-- The sample run, recovered. -/
theorem manifest_replays_moved :
    let w := sampleRun.foldl (step [108]) (World.create [108] ⟨false, 1000⟩)
    ∃ vs save m file, VersionSet.new.recover ⟨true, 1000⟩ [108] w.disk = (.ok, vs, save)
      ∧ (∀ level, vs.current.files level = w.vs.current.files level)
      ∧ vs.logNumber = w.vs.logNumber ∧ vs.prevLogNumber = w.vs.prevLogNumber
      ∧ vs.lastSequence = w.recorded
      ∧ w.disk.current = some m ∧ w.disk.files m = some file
      ∧ ∀ record ∈ (logRecords file (file.length + 1)).1,
          ∀ n ∈ numbersOf (decodeFrom record).1, n < vs.nextFileNumber :=
  manifest_replays (by decide) (Reach.run sampleRun (Reach.create ⟨false, 1000⟩) (by decide +kernel))
    ⟨true, 1000⟩

end LdbManifest
