import LevelDB.Core

/-! # The structural invariant along runs

    `Inv` holds of the empty database and is kept by every step, as long as each
    installed compaction leaves the levels above 0 disjoint and does not write a
    fallback output with its bounds the wrong way round.  Whether a step meets
    these two conditions is the subject of other files; here they are the
    hypothesis of `inv_step`. -/

namespace LdbRun

open LdbFormat LdbVersion LdbEdit LdbTable LdbCompaction LdbClosure LdbWork LdbOutputs LdbDb LdbInv
open LdbSteps LdbCore

/-! ## The invariant -/

/-- A running compaction. -/
structure RunningOK (db : DB) (r : Running) : Prop where
  closed : Closed r.compaction r.inputVersion
  grown : GrownSince r.compaction r.inputVersion db.current db.tables
  pickable : Pickable r.inputVersion
  snapshot : r.smallestSnapshot ≤ db.lastSequence ∧ ∀ s ∈ db.snapshots, r.smallestSnapshot ≤ s

/-- Tables hold sequences up to `n₁`, of entries and of range deletions; the
    immutable memtable holds those up to `n₂`, and the memtable the rest. -/
structure Windows (db : DB) (n₁ n₂ : Nat) : Prop where
  le : n₁ ≤ n₂
  tables : ∀ l, ∀ f ∈ db.current.files l, ∀ e ∈ (db.tables f.number).entries,
    e.key.sequence ≤ n₁
  dels : ∀ l, ∀ f ∈ db.current.files l, ∀ d ∈ (db.tables f.number).rangeDeletions, d.seq ≤ n₁
  imm : ∀ m ∈ db.imm, ∀ e ∈ m.table, n₁ < e.key.sequence ∧ e.key.sequence ≤ n₂
  mem : ∀ e ∈ db.mem.table, n₂ < e.key.sequence

/-- **The structural invariant** of a database that has committed `h`. -/
structure Inv (db : DB) (h : List Op) : Prop extends Core db h where
  version : VersionOK h db.current db.tables db.nextFileNumber
  windows : ∃ n₁ n₂, n₂ ≤ h.length ∧ Windows db n₁ n₂
  snapshots : db.snapshots.Pairwise (· ≤ ·) ∧ ∀ s ∈ db.snapshots, s ≤ db.lastSequence
  running : ∀ r ∈ db.running, RunningOK db r

theorem inv_init : Inv DB.init [] where
  toCore := core_init
  version :=
    { file := nofun
      number := nofun
      unique := nofun
      sorted := fun _ => List.Pairwise.nil
      levels := fun _ _ => rfl
      disjoint := fun _ _ => List.Pairwise.nil
      order := fun _ _ => nofun
      recent := fun _ _ _ => nofun
      recent0 := nofun }
  windows := ⟨0, 0, le_refl _,
    { le := le_refl _
      tables := fun _ => nofun
      dels := fun _ => nofun
      imm := nofun
      mem := nofun }⟩
  snapshots := ⟨List.Pairwise.nil, nofun⟩
  running r hr := by cases hr

/-! ## Steps that leave the version alone -/

variable {db : DB} {h : List Op} {r : Running} {o : Options} {a : Action}

theorem inv_write (hi : Inv db h) (batch : List Op)
    (hle : db.lastSequence + batch.length ≤ kMaxSequenceNumber) :
    Inv { db with
      mem := insertInto batch (db.lastSequence + 1) db.mem
      lastSequence := db.lastSequence + batch.length } (h ++ batch) := by
  have hcore := core_write hi.toCore batch hle
  obtain ⟨n₁, n₂, hn, hw⟩ := hi.windows
  have hmemle : ∀ x ∈ db.mem.table, x.key.sequence ≤ h.length := fun x hx =>
    (hi.mem.committed x hx).sequence_le.2
  obtain ⟨-, hmem⟩ := insertInto_spec h batch [] db.mem (by simpa using hi.mem) (by
    simpa using hmemle)
  simp only [List.length_nil, Nat.add_zero] at hmem
  rw [hi.length] at hle
  simp only [hi.length] at hcore ⊢
  refine { toCore := hcore, version := hi.version.append batch, windows := ?_, snapshots := ?_,
           running := ?_ }
  · refine ⟨n₁, n₂, ?_, hw.le, hw.tables, hw.dels, hw.imm, ?_⟩
    · rw [List.length_append]
      omega
    · intro e he
      rcases (hmem e).mp he with he | ⟨i, op, -, rfl⟩
      · exact hw.mem e he
      · rw [Op.entry_sequence]
        omega
  · refine ⟨hi.snapshots.1, fun s hs => ?_⟩
    have := hi.snapshots.2 s hs
    rw [hi.length] at this
    exact le_trans this (Nat.le_add_right _ _)
  · intro r hr
    have hro := hi.running r hr
    refine { hro with snapshot := ⟨?_, hro.snapshot.2⟩ }
    have := hro.snapshot.1
    rw [hi.length] at this
    exact le_trans this (Nat.le_add_right _ _)

theorem inv_switch (hi : Inv db h) (himm : db.imm = none) :
    Inv { db with
      imm := some db.mem
      mem := MemTable.empty
      nextFileNumber := db.nextFileNumber + 1 } h := by
  obtain ⟨n₁, n₂, hn, hw⟩ := hi.windows
  refine { toCore := core_switch hi.toCore himm, version := hi.version.mono (Nat.le_succ _),
           windows := ?_, snapshots := hi.snapshots, running := fun r hr => ?_ }
  · refine ⟨n₁, h.length, le_refl _, le_trans hw.le hn, hw.tables, hw.dels, ?_,
      nofun⟩
    intro m hm e he
    cases hm
    have := hw.mem e he
    have := hw.le
    exact ⟨by omega, (hi.mem.committed e he).sequence_le.2⟩
  · exact { hi.running r hr with }

theorem inv_getSnapshot (hi : Inv db h) :
    Inv { db with snapshots := db.snapshots ++ [db.lastSequence] } h := by
  refine { toCore := core_snapshots hi.toCore _, version := hi.version,
           windows := hi.windows.imp fun n₁ => Exists.imp fun n₂ hw => ⟨hw.1, { hw.2 with }⟩,
           snapshots := ⟨?_, ?_⟩, running := fun r hr => ?_ }
  · refine List.pairwise_append.mpr ⟨hi.snapshots.1, List.pairwise_singleton _ _, ?_⟩
    exact fun a ha => List.forall_mem_singleton.mpr (hi.snapshots.2 a ha)
  · exact List.forall_mem_append.mpr ⟨hi.snapshots.2, List.forall_mem_singleton.mpr (le_refl _)⟩
  · have hro := hi.running r hr
    exact { hro with snapshot := ⟨hro.snapshot.1, List.forall_mem_append.mpr
      ⟨hro.snapshot.2, List.forall_mem_singleton.mpr hro.snapshot.1⟩⟩ }

theorem inv_releaseSnapshot (hi : Inv db h) (s : Nat) :
    Inv { db with snapshots := db.snapshots.erase s } h := by
  have hsub : (db.snapshots.erase s).Sublist db.snapshots := List.erase_sublist
  refine { toCore := core_snapshots hi.toCore _, version := hi.version,
           windows := hi.windows.imp fun n₁ => Exists.imp fun n₂ hw => ⟨hw.1, { hw.2 with }⟩,
           snapshots := ⟨?_, ?_⟩, running := ?_ }
  · exact hi.snapshots.1.sublist hsub
  · intro x hx
    exact hi.snapshots.2 x (hsub.subset hx)
  · intro r hr
    have hro := hi.running r hr
    exact { hro with snapshot := ⟨hro.snapshot.1, fun x hx => hro.snapshot.2 x (hsub.subset hx)⟩ }

theorem inv_openOutput (hi : Inv db h) (hr : db.running = some r) :
    Inv { db with
      running := some { r with outputNumbers := r.outputNumbers ++ [db.nextFileNumber] }
      nextFileNumber := db.nextFileNumber + 1 } h := by
  have hro := hi.running r hr
  refine { toCore := core_openOutput hi.toCore hr, version := hi.version.mono (Nat.le_succ _),
           windows := hi.windows.imp fun n₁ => Exists.imp fun n₂ hw => ⟨hw.1, { hw.2 with }⟩,
           snapshots := hi.snapshots, running := fun r' hr' => ?_ }
  cases hr'
  exact { hro with }

/-! ## Flushes -/

variable {f : FileMetaData}

/-- A flush that found its level: the new version is well-formed, and it met no
    file at or above that level unless it stayed on level 0. -/
theorem flush_spec (hi : Inv db h) {m : MemTable} (hm : db.imm = some m) {t : Table} {level : Nat}
    (hw : writeLevel0Table o db.current db.nextFileNumber m = some (f, t, level)) :
    Flushed m db.nextFileNumber f t ∧ level < kNumLevels
      ∧ Adds db.current (applyEdit db.current (({} : VersionEdit).addFile level f)) level f
      ∧ (0 < level → ∀ l ≤ level, ∀ g ∈ db.current.files l, ¬ Meets f g)
      ∧ (∀ l, ∀ g ∈ db.current.files l, ∀ e ∈ t.entries, ∀ e' ∈ (db.tables g.number).entries,
          e'.key.sequence < e.key.sequence) := by
  have hmo := hi.imm m hm
  obtain ⟨hfl, hlev⟩ := writeLevel0Table_spec hmo.sorted hw
  have hno := db.current.pickLevelForMemTableOutput_spec hi.version.searchable o
    f.smallest.userKey f.largest.userKey
  have hlt := db.current.pickLevelForMemTableOutput_lt o f.smallest.userKey f.largest.userKey
  rw [← hlev] at hno hlt
  refine ⟨hfl, hlt, adds_of_flush hi.listed hfl.number level, ?_, ?_⟩
  · intro hpos l hl g hg hmeets
    have hov := hno (Nat.pos_iff_ne_zero.mp hpos) l hl g hg
    have := overlaps_some.mpr ⟨hmeets.1, hmeets.2⟩
    rw [hov] at this
    cases this
  · intro l g hg e he e' he'
    obtain ⟨n₁, n₂, -, hwin⟩ := hi.windows
    rw [hfl.entries] at he
    have h1 := hwin.tables l g hg e' he'
    have h2 := (hwin.imm m hm e (List.mem_filter.mp he).1).1
    omega

theorem inv_compactMemTable (hi : Inv db h) (o : Options) {m : MemTable} (hm : db.imm = some m) :
    Inv (db.compactMemTable o m) h := by
  have hcore := core_compactMemTable hi.toCore o hm
  obtain ⟨n₁, n₂, hn, hwin⟩ := hi.windows
  cases hw : writeLevel0Table o db.current db.nextFileNumber m with
  | none =>
    rw [DB.compactMemTable_none hw] at hcore ⊢
    refine { toCore := hcore, version := hi.version.mono (Nat.le_succ _), windows := ?_,
             snapshots := hi.snapshots, running := fun r hr => { hi.running r hr with } }
    exact ⟨n₁, n₂, hn, { hwin with imm := nofun }⟩
  | some p =>
    obtain ⟨f, t, level⟩ := p
    rw [DB.compactMemTable_some hw] at hcore ⊢
    obtain ⟨hfl, hlev, hadds, hapart, hnewer⟩ := flush_spec hi hm hw
    have hself : Function.update db.tables f.number t f.number = t := Function.update_self ..
    have hother : ∀ n < db.nextFileNumber, Function.update db.tables f.number t n
        = db.tables n := by
      intro n hlt
      rw [Function.update_of_ne]
      have := hfl.number
      omega
    have htab : ∀ l, ∀ g ∈ db.current.files l,
        Function.update db.tables f.number t g.number = db.tables g.number :=
      fun l g hg => hother g.number (hi.version.number l g hg)
    have hex := exists_table_flush hi.listed db.tables hfl.number t level
    refine { toCore := hcore, version := ?_, windows := ?_, snapshots := hi.snapshots,
             running := ?_ }
    · refine versionOK_add hi.version hadds hlev hfl.number hother ?_ ?_ hapart
      · simp only [hself]
        exact hfl.fileOK (hi.imm m hm) hi.bound
      · intro l g hg e he e' he' _
        simp only [hself] at he
        exact hnewer l g hg e he e' he'
    · refine ⟨n₂, n₂, hn, le_refl _, ?_, ?_, nofun, hwin.mem⟩
      · intro l g hg e he
        rcases (hex fun t => e ∈ t.entries).mp ⟨l, g, hg, he⟩ with he | ⟨l', g', hg', he⟩
        · rw [hfl.entries] at he
          exact (hwin.imm m hm e (List.mem_filter.mp he).1).2
        · exact le_trans (hwin.tables l' g' hg' e he) hwin.le
      · intro l g hg d hd
        rcases (hex fun t => d ∈ t.rangeDeletions).mp ⟨l, g, hg, hd⟩ with hd | ⟨l', g', hg', hd⟩
        · obtain ⟨e, he, -, rfl⟩ := ((hi.imm m hm).dels d).mp ((hfl.mem_dels (hi.imm m hm)).mp hd)
          exact (hwin.imm m hm e he).2
        · exact le_trans (hwin.dels l' g' hg' d hd) hwin.le
    · intro r hr
      have hro := hi.running r hr
      have hin : ∀ x ∈ r.compaction.inputs,
          Function.update db.tables f.number t x.number = db.tables x.number := by
        intro x hx
        obtain ⟨l, -, hl⟩ := inputs_mem hro.closed hro.grown hx
        exact htab l x hl
      refine { hro with grown := ⟨fun l g hg =>
        (hadds.mem l g).mpr (Or.inl (hro.grown.sub l g hg)), ?_, ?_, ?_⟩ }
      · intro l g hg hgn x hx
        simp only [hin x hx]
        rcases (hadds.mem l g).mp hg with hg | ⟨rfl, rfl⟩
        · simp only [htab l g hg]
          exact hro.grown.newer l g hg hgn x hx
        · simp only [hself]
          obtain ⟨l', -, hl'⟩ := inputs_mem hro.closed hro.grown hx
          intro e he e' he' _
          exact hnewer l' x hl' e he e' he'
      · intro l g hg hgn x hx
        rcases (hadds.mem l g).mp hg with hg | ⟨rfl, rfl⟩
        · exact hro.grown.later l g hg hgn x hx
        · obtain ⟨l', -, hl'⟩ := inputs_mem hro.closed hro.grown hx
          exact hfl.number ▸ hi.version.number l' x hl'
      · intro l hl g hg hgn l' hl' x hx
        rcases (hadds.mem l g).mp hg with hg | ⟨rfl, rfl⟩
        · exact hro.grown.apart l hl g hg hgn l' hl' x hx
        · exact hapart hl l' hl' x (hro.grown.sub l' x hx)

/-! ## Starting a compaction -/

theorem grownSince_refl (c : Compaction) (v : Version) (tables : Nat → Table) :
    GrownSince c v v tables :=
  ⟨fun _ _ hf => hf, fun _ _ hg hgn => absurd hg hgn, fun _ _ hg hgn => absurd hg hgn,
    fun _ _ _ hg hgn => absurd hg hgn⟩

variable {c : Compaction}

/-- **A trivial move keeps the version well-formed.** -/
theorem versionOK_move {v : Version} {tables : Nat → Table} {next : Nat}
    (hv : VersionOK h v tables next) (hc : Closed c v)
    (h0 : c.inputs0 = [f]) (h1 : c.inputs1 = []) (hdeep : c.level + 1 < kNumLevels) :
    VersionOK h (applyEdit v (moveEdit c f)) tables next := by
  have hf : f ∈ v.files c.level := hc.run0.sub f (by rw [h0]; simp)
  have hfo := hv.file _ f hf
  have hr := replaces_of_move hv.toListed hf hdeep
  have hbeside : ∀ g ∈ v.files (c.level + 1), f.largest.userKey < g.smallest.userKey
      ∨ g.largest.userKey < f.smallest.userKey := by
    intro g hg
    rcases hc.beside g hg (by rw [h1]; exact List.not_mem_nil) with hb | hb
    · exact Or.inl (hb f (by rw [h0]; simp))
    · exact Or.inr (hb.1 f (by rw [h0]; simp))
  have hold : ∀ l, ∀ g ∈ (applyEdit v (moveEdit c f)).files l, g = f ∨ (g ∈ v.files l) := by
    intro l g hg
    rcases (hr.mem l g).mp hg with ⟨hg, -, -⟩ | ⟨-, hg⟩
    · exact Or.inr hg
    · exact Or.inl (List.mem_singleton.mp hg)
  refine versionOK_replace hv hr ?_ (le_refl _) (fun _ _ _ => rfl) ?_ ?_ ?_ ?_
  · refine { file := ?_, number := ?_, source := ?_, unique := ?_, order := ?_ }
    · exact List.forall_mem_singleton.mpr hfo
    · exact List.forall_mem_singleton.mpr (hv.number _ f hf)
    · exact List.forall_mem_singleton.mpr fun e he => ⟨f, by simp, he⟩
    · intro l x hx g hg hnum
      rw [List.mem_singleton.mp hx] at hnum ⊢
      rcases hold l g hg with rfl | hg
      · rfl
      · exact (hv.unique _ _ f g hf hg hnum).2
    · intro x hx y hy hlt
      rw [List.mem_singleton.mp hx, List.mem_singleton.mp hy] at hlt
      exact absurd hlt (not_lt_of_ge hfo.ordered)
  · intro l g hg hgf
    rcases (hr.mem l g).mp hg with ⟨hg, hn, -⟩ | ⟨hl, -⟩
    · have hgf' := List.mem_singleton.mp hgf
      have := (hv.unique _ _ g f hg hf (by rw [hgf'])).1
      exact absurd ⟨this, hgf⟩ hn
    · exact hl
  · intro l hl
    refine disjointFiles_of_sorted (hr.sorted l) ?_ ?_
    · intro g hg
      rcases hold l g hg with rfl | hg
      · exact hfo.ordered
      · exact (hv.file l g hg).ordered
    · intro g hg g' hg' hne
      rcases (hr.mem l g).mp hg with ⟨hgo, -, -⟩ | ⟨rfl, hgo⟩ <;>
        rcases (hr.mem _ g').mp hg' with ⟨hgo', -, -⟩ | ⟨hl', hgo'⟩
      · rcases (hv.sortedLevel hl).trichotomy hgo hgo' with h2 | h2
        · exact absurd h2 hne
        · exact h2
      · rw [List.mem_singleton.mp hgo']
        exact (hbeside g (hl' ▸ hgo)).symm.imp InternalKey.lt_of_userKey_lt
          InternalKey.lt_of_userKey_lt
      · rw [List.mem_singleton.mp hgo]
        exact (hbeside g' hgo').imp InternalKey.lt_of_userKey_lt InternalKey.lt_of_userKey_lt
      · exact absurd ((List.mem_singleton.mp hgo).trans (List.mem_singleton.mp hgo').symm) hne
  · intro g hg hgn x hx
    have := stay_newer hv hc (grownSince_refl c v tables) g hg (by rwa [h0]) x (by rwa [h0])
    exact this
  · intro g hg _ x hx
    rw [List.mem_singleton.mp hx]
    have hgo := hv.file _ g hg
    exact ⟨precedes_of_apart hfo hgo (hbeside g hg), precedes_of_apart hgo hfo (hbeside g hg).symm⟩

/-- `smallest_snapshot` is at most every snapshot and the last sequence. -/
theorem smallestSnapshot_le (hs : db.snapshots.Pairwise (· ≤ ·))
    (hle : ∀ s ∈ db.snapshots, s ≤ db.lastSequence) :
    db.smallestSnapshot ≤ db.lastSequence ∧ ∀ s ∈ db.snapshots, db.smallestSnapshot ≤ s := by
  rw [DB.smallestSnapshot]
  cases hd : db.snapshots with
  | nil => exact ⟨le_refl _, nofun⟩
  | cons a rest =>
    rw [hd] at hs hle
    refine ⟨hle a (by simp), fun s hsm => ?_⟩
    rcases List.mem_cons.mp hsm with rfl | hsm
    · exact le_refl _
    · exact (List.pairwise_cons.mp hs).1 s hsm

theorem inv_startCompaction (hi : Inv db h) (o : Options) (hrun : db.running = none)
    (hc : Closed c db.current) (hdeep : c.level + 1 < kNumLevels) (mayMove : Bool) :
    Inv (db.startCompaction o c mayMove) h := by
  have hcore := core_startCompaction hi.toCore o hrun ⟨hc.run0.sub, hc.run1.sub⟩ hdeep mayMove
  obtain ⟨n₁, n₂, hn, hwin⟩ := hi.windows
  rcases db.startCompaction_cases o c mayMove with ⟨f, h0, hmove, -, heq⟩ | heq
  · rw [heq] at hcore ⊢
    have h1 := isTrivialMove_inputs1 hmove
    have hf : f ∈ db.current.files c.level := hc.run0.sub f (by rw [h0]; simp)
    refine { toCore := hcore, version := versionOK_move hi.version hc h0 h1 hdeep,
             windows := ?_, snapshots := hi.snapshots, running := ?_ }
    · exact ⟨n₁, n₂, hn, { hwin with tables := forall_file_move hi.listed hf hdeep hwin.tables
                                     dels := forall_file_move hi.listed hf hdeep hwin.dels }⟩
    · intro r hr
      simp [hrun] at hr
  · rw [heq] at hcore ⊢
    refine { toCore := hcore, version := hi.version,
             windows := ⟨n₁, n₂, hn, { hwin with }⟩, snapshots := hi.snapshots, running := ?_ }
    intro r hr
    cases hr
    exact { closed := hc
            grown := grownSince_refl c _ _
            pickable := hi.version.pickable
            snapshot := smallestSnapshot_le hi.snapshots.1 hi.snapshots.2 }

/-- What an action picks is closed. -/
theorem picks_closed {mayMove : Bool} (hv : Pickable db.current)
    (h : Picks o db c mayMove a) : Closed c db.current ∧ c.level + 1 < kNumLevels := by
  refine ⟨?_, (picks_sub h).2⟩
  cases a with
  | autoCompaction t => exact (pickCompaction_closed hv h.1).1
  | manualCompaction level b e forceFull => exact (compactRange_closed hv h.2.1).1
  | _ => exact absurd h id

/-! ## The work of a running compaction -/

section Work

variable {db : DB} {h : List Op} {r : Running}

theorem Inv.merged_sorted (hi : Inv db h) (hr : db.running = some r) :
    Sorted (db.job r).merged :=
  LdbSteps.merged_sorted hi.version (hi.running r hr).closed (hi.running r hr).grown _

end Work

/-! ## Installing a compaction -/

/-- **What `InstallCompactionResults` installs** when its input came in order: on
    top of what it writes, pieces of the kept entries one after another. -/
structure Installed (o : Options) (db : DB) (r : Running) : Prop extends Written o db r where
  output : ∀ f ∈ db.outputFiles o r, ∃ out ∈ (db.job r).doCompactionWork o,
    out.smallest = some f.smallest ∧ out.largest = some f.largest
      ∧ (db.installResults o r).tables f.number = tableOfAdds out.adds
  files : ∀ out ∈ (db.job r).doCompactionWork o, ∃ f ∈ db.outputFiles o r,
    out.smallest = some f.smallest ∧ out.largest = some f.largest
  piece : ∀ f ∈ db.outputFiles o r, ∃ seg,
    (db.installResults o r).tables f.number = ⟨seg, (db.job r).dels⟩ ∧ Sorted seg
      ∧ (∀ e ∈ seg, e ∈ (db.job r).kept) ∧ (seg = [] → (db.job r).kept = [])
      ∧ Piece (db.job r).dels seg f.smallest f.largest
  order : ∀ f ∈ db.outputFiles o r, ∀ g ∈ db.outputFiles o r, f ≠ g →
    (f.largest < g.smallest ∧ Precedes ((db.installResults o r).tables f.number)
      ((db.installResults o r).tables g.number))
    ∨ (g.largest < f.smallest ∧ Precedes ((db.installResults o r).tables g.number)
      ((db.installResults o r).tables f.number))

/-- Outputs in order make files in order. -/
theorem outputFile_before (hn : Numbered o db r)
    (hbounds : ∀ p ∈ db.outputs o r, ∃ lo hi, p.1.smallest = some lo ∧ p.1.largest = some hi)
    {p q : Output × Nat} (hp : p ∈ db.outputs o r) (hq : q ∈ db.outputs o r) (hb : Before p.1 q.1) :
    (outputFile o p.1 p.2).largest < (outputFile o q.1 q.2).smallest
      ∧ Precedes ((db.installResults o r).tables p.2) ((db.installResults o r).tables q.2) := by
  obtain ⟨lo, hi₁, -, hhi⟩ := hbounds p hp
  obtain ⟨lo₂, hi₂, hlo, -⟩ := hbounds q hq
  rw [hn.table hp, hn.table hq]
  refine ⟨?_, hb.2⟩
  simp only [outputFile, hhi, hlo, Option.getD_some]
  exact hb.1 _ _ hhi hlo

theorem installed (hi : Inv db h) (hr : db.running = some r)
    (hlen : r.outputNumbers.length = ((db.job r).doCompactionWork o).length) :
    Installed o db r := by
  have hn := numbered hi.toCore hr hlen
  obtain ⟨hpiece, hbefore⟩ :=
    doCompactionWork_spec (db.job r) o (hi.merged_sorted hr) (hi.toCore.merged_points hr)
  have hbounds : ∀ out ∈ (db.job r).doCompactionWork o, ∃ lo hi, out.smallest = some lo
      ∧ out.largest = some hi := by
    intro out hout
    obtain ⟨seg, ⟨lo, hi', hlo, hhi, -⟩, -⟩ := hpiece out hout
    exact ⟨lo, hi', hlo, hhi⟩
  have hpair : (db.outputs o r).Pairwise fun p q => Before p.1 q.1 :=
    List.pairwise_map.mp (hn.fst ▸ hbefore)
  refine { toWritten := written hi.toCore hr hn, output := ?_, files := ?_, piece := ?_,
           order := ?_ }
  · intro f hf
    obtain ⟨p, hp, rfl⟩ := List.mem_map.mp hf
    obtain ⟨lo, hi', hlo, hhi⟩ := hbounds p.1 (hn.mem_fst hp)
    refine ⟨p.1, hn.mem_fst hp, ?_, ?_, hn.table hp⟩
    · simp [outputFile, hlo]
    · simp [outputFile, hhi]
  · intro out hout
    obtain ⟨lo, hi', hlo, hhi⟩ := hbounds out hout
    rw [← hn.fst] at hout
    obtain ⟨p, hp, rfl⟩ := List.mem_map.mp hout
    refine ⟨outputFile o p.1 p.2, List.mem_map_of_mem hp, ?_, ?_⟩
    · simp [outputFile, hlo]
    · simp [outputFile, hhi]
  · intro f hf
    obtain ⟨p, hp, rfl⟩ := List.mem_map.mp hf
    obtain ⟨seg, ⟨lo, hi', hlo, hhi, hadds, hpc⟩, hss, hsk, hsn, ht⟩ := hpiece p.1 (hn.mem_fst hp)
    refine ⟨seg, (hn.table hp).trans ht, hss, hsk, hsn, ?_⟩
    simp only [outputFile, hlo, hhi, Option.getD_some]
    exact hpc
  · intro f hf g hg hfg
    obtain ⟨p, hp, rfl⟩ := List.mem_map.mp hf
    obtain ⟨q, hq, rfl⟩ := List.mem_map.mp hg
    have hb' : ∀ p ∈ db.outputs o r, _ := fun p hp => hbounds p.1 (hn.mem_fst hp)
    rcases OrderedLists.pairwise_trichotomy hpair hp hq with rfl | hb | hb
    · exact absurd rfl hfg
    · exact Or.inl (outputFile_before hn hb' hp hq hb)
    · exact Or.inr (outputFile_before hn hb' hq hp hb)

/-- The fallback output, written when nothing survives, has its bounds in order.
    They are not when the only tombstones are empty ranges, written through a
    `WriteBatch`. -/
def FallbackOrdered (j : Job) : Prop :=
  j.kept = [] → ∀ p ∈ minStart j.dels, ∀ e ∈ maxEnd j.dels, p.1 ≤ e

instance (j : Job) : Decidable (FallbackOrdered j) :=
  inferInstanceAs (Decidable (_ → _))

section

variable (hi : Inv db h) (hr : db.running = some r) (hin : Installed o db r)
include hi hr hin

/-- Every output is a well-formed file. -/
theorem Installed.fileOK (hfb : FallbackOrdered (db.job r)) :
    ∀ f ∈ db.outputFiles o r, FileOK h f ((db.installResults o r).tables f.number) := by
  intro f hf
  have hnew := (hin.replaces.mem _ f).mpr (Or.inr ⟨rfl, hf⟩)
  have hpoints := hin.forall_entries hi.toCore hr hi.points _ f hnew
  have hcom := hin.forall_entries hi.toCore hr hi.entries _ f hnew
  have hdels := hin.forall_dels hi.toCore hr (fun l x hx => (hi.version.file l x hx).dels) _ f hnew
  obtain ⟨seg, ht, hss, hsk, hsn, hpc⟩ := hin.piece f hf
  rw [ht] at hpoints hcom hdels ⊢
  refine { sorted := hss, points := hpoints, committed := hcom, dels := hdels, ordered := ?_,
           lower := hpc.lo_le, upper := hpc.hi_ge, bounded := ?_ }
  · by_cases hnil : seg = []
    · obtain ⟨k, q, hmin, hlo⟩ := hpc.fallback hnil
      rcases hpc.hi_mem with ⟨b, hb, -⟩ | ⟨e, hmax, hhi⟩
      · rw [hnil] at hb
        cases hb
      · show f.smallest ≤ f.largest
        rw [hlo, hhi]
        exact InternalKey.le_zero_deletion (hfb (hsn hnil) (k, q) hmin e hmax)
    · obtain ⟨b, hb, hbk⟩ := hpc.hi_some hnil
      exact le_trans (hpc.lo_le b hb) hbk
  · rcases hpc.hi_mem with ⟨b, hb, hbk⟩ | ⟨e, -, hhi⟩
    · rw [← hbk]
      exact le_trans (hcom b hb).sequence_le.2 hi.bound
    · rw [hhi]
      exact Nat.zero_le _

/-- **Installing a compaction keeps the version well-formed**, if it leaves the
    levels disjoint. -/
theorem versionOK_install (hfb : FallbackOrdered (db.job r))
    (hdis : ∀ l, 0 < l → DisjointFiles ((db.installResults o r).current.files l)) :
    VersionOK h (db.installResults o r).current (db.installResults o r).tables
      db.nextFileNumber := by
  have hro := hi.running r hr
  have hfile := hin.fileOK hi hr hfb
  refine versionOK_replace hi.version hin.replaces ?_ (le_refl _) hin.tables ?_ hdis
    (stay_newer hi.version hro.closed hro.grown) ?_
  · refine { file := hfile, number := ?_, source := hin.toWritten.source, unique := ?_, order := ?_ }
    · intro f hf
      exact (hi.pending r hr).numbers _ (hin.number f hf)
    · intro l f hf g hg hn
      exact (hin.toWritten.unique_number hi.toCore hr l f hf g hg hn).1
    · intro f hf g hg hlt
      by_cases hfg : f = g
      · rw [hfg] at hlt
        exact absurd hlt (not_lt_of_ge (hfile g hg).ordered)
      · rcases hin.order f hf g hg hfg with h1 | h1
        · exact h1.2
        · exact absurd hlt (not_lt_of_gt (lt_of_le_of_lt (hfile g hg).ordered
            (lt_of_lt_of_le h1.1 (hfile f hf).ordered)))
  · intro l g hg hgo
    exact (hin.toWritten.unique_number hi.toCore hr l g hgo g hg rfl).2
  · intro g hg hgn f hf
    obtain ⟨seg, ht, -, -, -, hpc⟩ := hin.piece f hf
    refine side_precedes hi.version hro.closed hro.grown (hfile f hf) (hin.toWritten.source f hf) ?_ ?_
      g hg hgn
    · rw [ht]
      exact hpc.lo_mem
    · rw [ht]
      exact hpc.hi_some

theorem inv_installResults (hfb : FallbackOrdered (db.job r))
    (hdis : ∀ l, 0 < l → DisjointFiles ((db.installResults o r).current.files l)) :
    Inv (db.installResults o r) h := by
  obtain ⟨n₁, n₂, hn, hwin⟩ := hi.windows
  have htab := hin.forall_entries hi.toCore hr hwin.tables
  have hdel := hin.forall_dels hi.toCore hr hwin.dels
  have hv := versionOK_install hi hr hin hfb hdis
  refine { toCore := core_installResults hi.toCore hr hin.toWritten, version := by simpa using hv,
           windows := ?_, snapshots := by simpa using hi.snapshots, running := by simp }
  · refine ⟨n₁, n₂, hn, hwin.le, htab, hdel, ?_, ?_⟩
    · simpa using hwin.imm
    · simpa using hwin.mem

end

/-! ## All steps -/

/-- An installed compaction is sound if its fallback is in order and it leaves
    the levels above 0 disjoint. -/
def SoundInstall (o : Options) (db : DB) (a : Action) : Prop :=
  a = .installResults → ∀ r ∈ db.running, FallbackOrdered (db.job r)
    ∧ ∀ l, 0 < l → DisjointFiles ((db.installResults o r).current.files l)

/-- **Every step keeps the structural invariant.** -/
theorem inv_step {db' : DB} (hi : Inv db h) (hsound : SoundInstall o db a)
    (hstep : step o db a = some db') : Inv db' (h ++ a.ops) := by
  have hsame : ∀ {db'}, a.ops = [] → Inv db' h → Inv db' (h ++ a.ops) := by
    intro db' ha hi'
    rwa [ha, List.append_nil]
  cases steps_of_step hstep with
  | write batch hle => exact inv_write hi batch hle
  | switchMemTable himm => exact hsame rfl (inv_switch hi himm)
  | getSnapshot => exact hsame rfl (inv_getSnapshot hi)
  | releaseSnapshot s => exact hsame rfl (inv_releaseSnapshot hi s)
  | compactMemTable m hm => exact hsame rfl (inv_compactMemTable hi o hm)
  | start hrun hpick =>
    obtain ⟨hc, hdeep⟩ := picks_closed hi.version.pickable hpick
    exact hsame hpick.ops (inv_startCompaction hi o hrun hc hdeep _)
  | openOutput r hr => exact hsame rfl (inv_openOutput hi hr)
  | installResults r hr hlen =>
    obtain ⟨hfb, hdis⟩ := hsound rfl r hr
    exact hsame rfl (inv_installResults hi hr (installed hi hr hlen) hfb hdis)

/-- **The structural invariant holds in every run of sound installs.** -/
theorem inv_reach {P : DB → Action → Prop}
    (hP : ∀ {db a h db'}, Inv db h → P db a → step o db a = some db' → SoundInstall o db a)
    (hreach : Reach o P db h) : Inv db h := by
  induction hreach with
  | init => exact inv_init
  | step _ hp hstep ih => exact inv_step ih (hP ih hp hstep) hstep

/-! ## What a step does to the version -/

/-- **The ways a step changes the current version**: not at all, by the file of a
    flush, by moving one file down, or by installing a compaction. -/
inductive Changes (o : Options) (db db' : DB) (a : Action) : Prop
  | same (hcur : db'.current = db.current) (htab : db'.tables = db.tables)
  | flush {m : MemTable} {f : FileMetaData} {t : Table} {level : Nat} (hm : db.imm = some m)
      (hw : writeLevel0Table o db.current db.nextFileNumber m = some (f, t, level))
      (hcur : db'.current = applyEdit db.current (({} : VersionEdit).addFile level f))
      (htab : db'.tables = Function.update db.tables f.number t)
  | move {c : Compaction} {f : FileMetaData} (hc : Closed c db.current)
      (hdeep : c.level + 1 < kNumLevels) (h0 : c.inputs0 = [f]) (h1 : c.inputs1 = [])
      (hcur : db'.current = applyEdit db.current (moveEdit c f)) (htab : db'.tables = db.tables)
  | install {r : Running} (ha : a = .installResults) (hr : db.running = some r)
      (hin : Installed o db r) (heq : db' = db.installResults o r)

theorem changes_step {db' : DB} (hi : Inv db h) (hstep : step o db a = some db') :
    Changes o db db' a := by
  cases steps_of_step hstep with
  | compactMemTable m hm =>
    cases hw : writeLevel0Table o db.current db.nextFileNumber m with
    | none =>
      rw [DB.compactMemTable_none hw]
      exact .same rfl rfl
    | some p =>
      rw [DB.compactMemTable_some hw]
      exact .flush hm hw rfl rfl
  | @start a c mayMove hrun hpick =>
    obtain ⟨hc, hdeep⟩ := picks_closed hi.version.pickable hpick
    rcases db.startCompaction_cases o c mayMove with ⟨f, h0, hmove, -, heq⟩ | heq
    · rw [heq]
      exact .move hc hdeep h0 (isTrivialMove_inputs1 hmove) rfl rfl
    · rw [heq]
      exact .same rfl rfl
  | installResults r hr hlen => exact .install rfl hr (installed hi hr hlen) rfl
  | _ => exact .same rfl rfl

/-- The files of a state after one step: old ones, perhaps moved down, with their
    tables; the file of a flush; or an output of the installed compaction. -/
theorem files_step {db' : DB} (hi : Inv db h) (hstep : step o db a = some db') {l : Nat}
    (hf : f ∈ db'.current.files l) :
    (∃ l' ≤ l, f ∈ db.current.files l' ∧ db'.tables f.number = db.tables f.number)
      ∨ (∃ m, db.imm = some m ∧ Flushed m db.nextFileNumber f (db'.tables f.number))
      ∨ ∃ r, a = .installResults ∧ db.running = some r ∧ db' = db.installResults o r
          ∧ Installed o db r ∧ f ∈ db.outputFiles o r ∧ l = r.compaction.level + 1 := by
  cases changes_step hi hstep with
  | same hcur htab =>
    rw [hcur] at hf
    exact Or.inl ⟨l, le_refl _, hf, by rw [htab]⟩
  | @flush m g t level hm hw hcur htab =>
    obtain ⟨hfl, -, hadds, -, -⟩ := flush_spec hi hm hw
    rw [hcur] at hf
    rcases (hadds.mem l f).mp hf with hf | ⟨-, rfl⟩
    · refine Or.inl ⟨l, le_refl _, hf, ?_⟩
      rw [htab, Function.update_of_ne]
      rw [hfl.number]
      exact Nat.ne_of_lt (hi.version.number l f hf)
    · refine Or.inr (Or.inl ⟨m, hm, ?_⟩)
      rw [htab, Function.update_self]
      exact hfl
  | @move c g hc hdeep h0 h1 hcur htab =>
    have hg : g ∈ db.current.files c.level := hc.run0.sub g (by rw [h0]; simp)
    rw [hcur] at hf
    rcases ((replaces_of_move hi.listed hg hdeep).mem l f).mp hf with ⟨hf, -, -⟩ | ⟨hl, hf⟩
    · exact Or.inl ⟨l, le_refl _, hf, by rw [htab]⟩
    · exact Or.inl ⟨c.level, hl ▸ Nat.le_succ _, List.mem_singleton.mp hf ▸ hg, by rw [htab]⟩
  | @install r ha hr hin heq =>
    subst heq
    rcases (hin.replaces.mem l f).mp hf with ⟨hf, -, -⟩ | ⟨hl, hf⟩
    · exact Or.inl ⟨l, le_refl _, hf, hin.tables l f hf⟩
    · exact Or.inr (Or.inr ⟨r, ha, hr, rfl, hin, hf, hl⟩)

end LdbRun
