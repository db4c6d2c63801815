import LevelDB.VersionSteps
import LevelDB.Sequential

/-! # What every run keeps

    Compactions may leave a level with overlapping files, or a file whose bounds
    miss some of its entries.  Whatever they do to the bounds, file numbers stay
    unique, everything stored was committed, and no range deletion gets lost.

    `Core` is this part of the invariant.  No condition on the run is needed:
    `core_step` holds for every enabled action. -/

namespace LdbCore

open LdbFormat LdbVersion LdbEdit LdbTable LdbCompaction LdbClosure LdbWork LdbOutputs LdbDb LdbInv
open LdbSteps LdbSequential

/-! ## Inputs come from the version -/

variable {level next : Nat} {v : Version} {c : Compaction} {o : Options} {f : FileMetaData}

variable {files : List FileMetaData}

theorem overlapLoop_sub :
    ∀ (fuel : Nat) (b e : Option Slice), ∀ f ∈ overlapLoop level files fuel b e, f ∈ files := by
  intro fuel
  induction fuel with
  | zero => intro b e f hf; cases hf
  | succ fuel ih =>
    intro b e f hf
    rw [overlapLoop] at hf
    split at hf
    · rename_i inputs hpass
      rw [(overlapPass_done hpass).1] at hf
      exact (List.mem_filter.mp hf).1
    · exact ih _ _ f hf

theorem addBoundaryLoop_sub :
    ∀ (fuel : Nat) (S : List FileMetaData) (k : InternalKey), (∀ f ∈ S, f ∈ files) →
      ∀ f ∈ addBoundaryLoop files fuel S k, f ∈ files := by
  intro fuel
  induction fuel with
  | zero => intro S k hS f hf; exact hS f hf
  | succ fuel ih =>
    intro S k hS f hf
    rw [addBoundaryLoop] at hf
    have hspec := findSmallestBoundaryFile_spec files k
    split at hf
    · exact hS f hf
    · rename_i b hb
      rw [hb] at hspec
      exact ih _ _ (List.forall_mem_append.mpr ⟨hS, List.forall_mem_singleton.mpr hspec.1⟩) f hf

theorem addBoundaryInputs_sub {S : List FileMetaData} (hS : ∀ f ∈ S, f ∈ files) :
    ∀ f ∈ addBoundaryInputs files S, f ∈ files := by
  rw [addBoundaryInputs]
  split
  · exact hS
  · exact addBoundaryLoop_sub _ _ _ hS

theorem overlappingWithBoundary_sub {r : InternalKey × InternalKey} :
    ∀ f ∈ overlappingWithBoundary v level r, f ∈ v.files level :=
  addBoundaryInputs_sub (overlapLoop_sub _ _ _)

/-- The inputs are files of the version on the two levels of the compaction. -/
structure FromVersion (c : Compaction) (v : Version) : Prop where
  sub0 : ∀ x ∈ c.inputs0, x ∈ v.files c.level
  sub1 : ∀ x ∈ c.inputs1, x ∈ v.files (c.level + 1)

theorem FromVersion.input (h : FromVersion c v) {x : FileMetaData} (hx : x ∈ c.inputs) :
    ∃ l, x ∈ v.files l := by
  rcases List.mem_append.mp hx with hx | hx
  · exact ⟨_, h.sub0 x hx⟩
  · exact ⟨_, h.sub1 x hx⟩

theorem setupOtherInputs_sub {inputs : List FileMetaData} (hin : ∀ f ∈ inputs, f ∈ v.files level)
    (hc : setupOtherInputs o v level inputs = some c) : FromVersion c v ∧ c.level = level := by
  obtain ⟨r, -, hfin | ⟨all, new, -, -, hfin⟩⟩ := setupOtherInputs_cases hc
  · obtain ⟨rfl, h0, h1, -, -⟩ := finishInputs_finished hfin
    exact ⟨⟨h0 ▸ addBoundaryInputs_sub hin, h1 ▸ overlappingWithBoundary_sub⟩, rfl⟩
  · obtain ⟨rfl, h0, h1, -, -⟩ := finishInputs_finished hfin
    exact ⟨⟨h0 ▸ overlappingWithBoundary_sub, h1 ▸ overlappingWithBoundary_sub⟩, rfl⟩

/-- **Automatic compactions** take their inputs from the version. -/
theorem pickCompaction_sub {ptr : Nat → Option InternalKey} {t : Trigger}
    (hc : pickCompaction o v ptr t = some c) : FromVersion c v ∧ c.level + 1 < kNumLevels := by
  rw [pickCompaction] at hc
  split at hc
  · cases hc
  · rename_i level f hp
    obtain ⟨hf, hlt⟩ := pickFirst_spec hp
    split_ifs at hc with h0
    · obtain ⟨h1, h2⟩ := setupOtherInputs_sub (overlapLoop_sub _ _ _) hc
      exact ⟨h1, by rw [h2]; omega⟩
    · obtain ⟨h1, h2⟩ := setupOtherInputs_sub
        (fun g hg => List.mem_singleton.mp hg ▸ hf) hc
      exact ⟨h1, by rw [h2]; exact hlt⟩

/-- **Manual compactions** take their inputs from the version. -/
theorem compactRange_sub {b e : Option InternalKey} (hc : compactRange o v level b e = some c) :
    FromVersion c v ∧ c.level = level := by
  rw [compactRange] at hc
  split_ifs at hc with hnil h0
  · exact setupOtherInputs_sub (overlapLoop_sub _ _ _) hc
  · exact setupOtherInputs_sub
      (fun f hf => overlapLoop_sub _ _ _ f ((takeUpTo_initial _ _ _).subset hf)) hc

/-- What an action picks comes from the current version. -/
theorem picks_sub {db : DB} {mayMove : Bool} {a : Action} (h : Picks o db c mayMove a) :
    FromVersion c db.current ∧ c.level + 1 < kNumLevels := by
  cases a with
  | autoCompaction t => exact pickCompaction_sub h.1
  | manualCompaction level b e forceFull =>
    obtain ⟨hfrom, hl⟩ := compactRange_sub h.2.1
    exact ⟨hfrom, hl ▸ h.1⟩
  | _ => exact absurd h id

/-! ## What the edits do -/

/-- The edit of a flush adds its file. -/
theorem adds_of_flush (hv : Listed v next) (hf : f.number = next) (level : Nat) :
    Adds v (applyEdit v (({} : VersionEdit).addFile level f)) level f := by
  have hfresh : (({} : VersionEdit).addFile level f).FreshFor v := by
    refine ⟨fun l => ?_, fun l g hg x hx => ?_⟩
    · by_cases hl : level = l <;> simp [VersionEdit.addedAt, VersionEdit.addFile, hl]
    · rw [VersionEdit.mem_addedAt] at hg
      have hgf : g = f := by
        have : (l, g) = (level, f) := by simpa [VersionEdit.addFile] using hg
        exact (Prod.mk.injEq _ _ _ _ ▸ this).2
      have := hv.number l x hx
      rw [hgf, hf]
      omega
  refine ⟨fun l g => ?_, fun l => applyEdit_sorted hfresh (hv.sorted l)⟩
  rw [mem_applyEdit hfresh]
  simp [VersionEdit.addFile]

theorem isTrivialMove_inputs1 (h : c.isTrivialMove o = true) : c.inputs1 = [] := by
  rw [Compaction.isTrivialMove, Bool.and_eq_true, Bool.and_eq_true] at h
  exact List.eq_nil_of_length_eq_zero (of_decide_eq_true h.1.2)

section

variable (hv : Listed v next) (hf : f ∈ v.files c.level) (hdeep : c.level + 1 < kNumLevels)
include hv hf hdeep

/-- The edit of a trivial move replaces the file by itself one level down. -/
theorem replaces_of_move : Replaces v (applyEdit v (moveEdit c f)) c.level [f] [] [f] := by
  have hnew : (moveEdit c f).newFiles = [(c.level + 1, f)] := rfl
  have hdel : (moveEdit c f).deletedFiles = [(c.level, f.number)] := rfl
  have hfresh : (moveEdit c f).FreshFor v := by
    refine ⟨fun l => ?_, fun l g hg x hx hnum => ?_⟩
    · by_cases hl : c.level + 1 = l <;> simp [VersionEdit.addedAt, hnew, hl]
    · rw [VersionEdit.mem_addedAt, hnew, List.mem_singleton, Prod.mk.injEq] at hg
      obtain ⟨rfl, rfl⟩ := hg
      have := (hv.unique _ _ x g hx hf hnum).1
      omega
  refine { mem := fun l g => ?_, sorted := fun l => applyEdit_sorted hfresh (hv.sorted l),
           sub0 := fun x hx => List.mem_singleton.mp hx ▸ hf,
           sub1 := List.forall_mem_nil _, deep := hdeep }
  rw [mem_applyEdit hfresh, hnew, hdel]
  simp only [List.mem_singleton, Prod.mk.injEq, List.not_mem_nil, and_false, not_false_eq_true,
    and_true]
  constructor
  · rintro (⟨hg, hn⟩ | hg)
    · refine Or.inl ⟨hg, ?_⟩
      rintro ⟨rfl, rfl⟩
      exact hn ⟨rfl, rfl⟩
    · exact Or.inr hg
  · rintro (⟨hg, hn⟩ | hg)
    · refine Or.inl ⟨hg, ?_⟩
      rintro ⟨rfl, hnum⟩
      exact hn ⟨rfl, (hv.unique _ _ g f hg hf hnum).2⟩
    · exact Or.inr hg

omit hv hf hdeep in
/-- The tables after a flush are the old ones and the new one. -/
theorem exists_table_flush (hv : Listed v next) (tables : Nat → Table) (hf : f.number = next)
    (t : Table) (level : Nat) (P : Table → Prop) :
    (∃ l, ∃ g ∈ (applyEdit v (({} : VersionEdit).addFile level f)).files l,
        P (Function.update tables f.number t g.number)) ↔
      P t ∨ ∃ l, ∃ g ∈ v.files l, P (tables g.number) := by
  have hadds := adds_of_flush hv hf level
  have hold : ∀ l, ∀ g ∈ v.files l,
      Function.update tables f.number t g.number = tables g.number := fun l g hg =>
    Function.update_of_ne (hf ▸ Nat.ne_of_lt (hv.number l g hg)) _ _
  constructor
  · rintro ⟨l, g, hg, hp⟩
    rcases (hadds.mem l g).mp hg with hg | ⟨-, rfl⟩
    · exact Or.inr ⟨l, g, hg, hold l g hg ▸ hp⟩
    · exact Or.inl (by rwa [Function.update_self] at hp)
  · rintro (hp | ⟨l, g, hg, hp⟩)
    · refine ⟨level, f, (hadds.mem level f).mpr (Or.inr ⟨rfl, rfl⟩), ?_⟩
      rwa [Function.update_self]
    · exact ⟨l, g, (hadds.mem l g).mpr (Or.inl hg), (hold l g hg).symm ▸ hp⟩


/-- The files after a move are the old ones. -/
theorem exists_file_move (P : FileMetaData → Prop) :
    (∃ l, ∃ g ∈ (applyEdit v (moveEdit c f)).files l, P g) ↔ ∃ l, ∃ g ∈ v.files l, P g := by
  have hr := replaces_of_move hv hf hdeep
  constructor
  · rintro ⟨l, g, hg, hp⟩
    rcases (hr.mem l g).mp hg with ⟨hg, -, -⟩ | ⟨-, hg⟩
    · exact ⟨l, g, hg, hp⟩
    · exact ⟨c.level, g, List.mem_singleton.mp hg ▸ hf, hp⟩
  · rintro ⟨l, g, hg, hp⟩
    by_cases hgf : g = f
    · exact ⟨c.level + 1, g, (hr.mem _ g).mpr (Or.inr ⟨rfl, by simp [hgf]⟩), hp⟩
    · exact ⟨l, g, (hr.mem l g).mpr (Or.inl ⟨hg, by simp [hgf], by simp⟩), hp⟩

theorem forall_file_move {P : FileMetaData → Prop} (hold : ∀ l, ∀ g ∈ v.files l, P g) :
    ∀ l, ∀ g ∈ (applyEdit v (moveEdit c f)).files l, P g := by
  intro l g hg
  obtain ⟨l', g', hg', rfl⟩ := (exists_file_move hv hf hdeep (· = g)).mp ⟨l, g, hg, rfl⟩
  exact hold l' g' hg'

end

theorem foldl_removeFile (level : Nat) (fs : List FileMetaData) :
    ∀ (edit : VersionEdit) (l n : Nat),
      (fs.foldl (fun e f => e.removeFile level f.number) edit).newFiles = edit.newFiles
      ∧ ((l, n) ∈ (fs.foldl (fun e f => e.removeFile level f.number) edit).deletedFiles ↔
          (l, n) ∈ edit.deletedFiles ∨ (l = level ∧ ∃ f ∈ fs, f.number = n)) := by
  induction fs with
  | nil => intro edit l n; simp
  | cons f rest ih =>
    intro edit l n
    obtain ⟨h1, h2⟩ := ih (edit.removeFile level f.number) l n
    rw [List.foldl_cons]
    refine ⟨h1, ?_⟩
    rw [h2]
    have hmem : (l, n) ∈ (edit.removeFile level f.number).deletedFiles ↔
        (l = level ∧ f.number = n) ∨ (l, n) ∈ edit.deletedFiles := by
      rw [VersionEdit.removeFile, mem_insertPair, Prod.mk.injEq]
      exact or_congr (and_congr_right fun _ => eq_comm) Iff.rfl
    rw [hmem]
    constructor
    · rintro ((⟨hl, hn⟩ | hd) | ⟨hl, g, hg, hn⟩)
      · exact Or.inr ⟨hl, f, by simp, hn⟩
      · exact Or.inl hd
      · exact Or.inr ⟨hl, g, List.mem_cons_of_mem _ hg, hn⟩
    · rintro (hd | ⟨hl, g, hg, hn⟩)
      · exact Or.inl (Or.inr hd)
      · rcases List.mem_cons.mp hg with rfl | hg
        · exact Or.inl (Or.inl ⟨hl, hn⟩)
        · exact Or.inr ⟨hl, g, hg, hn⟩

theorem foldl_addFile (o : Options) (level : Nat) (outs : List (Output × Nat)) :
    ∀ edit : VersionEdit,
      (outs.foldl (fun e p => e.addFile level (outputFile o p.1 p.2)) edit).deletedFiles
        = edit.deletedFiles
      ∧ (outs.foldl (fun e p => e.addFile level (outputFile o p.1 p.2)) edit).newFiles
        = edit.newFiles ++ outs.map fun p => (level, outputFile o p.1 p.2) := by
  induction outs with
  | nil => intro edit; simp
  | cons p rest ih =>
    intro edit
    obtain ⟨h1, h2⟩ := ih (edit.addFile level (outputFile o p.1 p.2))
    rw [List.foldl_cons]
    refine ⟨h1, ?_⟩
    rw [h2, VersionEdit.addFile, List.append_assoc]
    rfl

/-- What the edit of `InstallCompactionResults` deletes and adds. -/
theorem installEdit_spec (o : Options) (c : Compaction) (outs : List (Output × Nat)) :
    (installEdit o c outs).newFiles = outs.map (fun p => (c.level + 1, outputFile o p.1 p.2))
    ∧ ∀ l n, (l, n) ∈ (installEdit o c outs).deletedFiles ↔
        (l = c.level ∧ ∃ f ∈ c.inputs0, f.number = n)
          ∨ (l = c.level + 1 ∧ ∃ f ∈ c.inputs1, f.number = n) := by
  obtain ⟨hd, hn⟩ := foldl_addFile o (c.level + 1) outs (c.addInputDeletions {})
  rw [installEdit, hn]
  constructor
  · rw [Compaction.addInputDeletions, (foldl_removeFile _ _ _ 0 0).1,
      (foldl_removeFile _ _ _ 0 0).1]
    rfl
  · intro l n
    rw [hd, Compaction.addInputDeletions, (foldl_removeFile _ _ _ l n).2,
      (foldl_removeFile _ _ _ l n).2]
    simp

/-- Writing the output tables changes exactly their numbers. -/
theorem foldl_update_tables (outs : List (Output × Nat)) :
    ∀ tables : Nat → Table, (outs.map (·.2)).Nodup →
      (∀ n, n ∉ outs.map (·.2) →
        outs.foldl (fun t p => Function.update t p.2 (tableOfAdds p.1.adds)) tables n = tables n)
      ∧ ∀ p ∈ outs,
        outs.foldl (fun t p => Function.update t p.2 (tableOfAdds p.1.adds)) tables p.2
          = tableOfAdds p.1.adds := by
  induction outs with
  | nil => intro tables _; exact ⟨fun _ _ => rfl, nofun⟩
  | cons q rest ih =>
    intro tables hnd
    obtain ⟨hq, hrest⟩ := List.nodup_cons.mp hnd
    obtain ⟨h1, h2⟩ := ih (Function.update tables q.2 (tableOfAdds q.1.adds)) hrest
    rw [List.foldl_cons]
    constructor
    · intro n hn
      rw [List.map_cons, List.mem_cons, not_or] at hn
      rw [h1 n hn.2, Function.update_of_ne hn.1]
    · intro p hp
      rcases List.mem_cons.mp hp with rfl | hp
      · rw [h1 _ hq, Function.update_self]
      · exact h2 p hp

/-! ## The invariant -/

/-- A range deletion held by a memtable or a table of the current version. -/
def HasDel (db : DB) (d : RangeDeletion) : Prop :=
  d ∈ db.mem.rangeDeletions ∨ (∃ m ∈ db.imm, d ∈ m.rangeDeletions)
    ∨ ∃ l, ∃ f ∈ db.current.files l, d ∈ (db.tables f.number).rangeDeletions

/-- A running compaction: its inputs are still there, and its output numbers are
    its own. -/
structure Pending (db : DB) (r : Running) : Prop extends FromVersion r.compaction db.current where
  deep : r.compaction.level + 1 < kNumLevels
  nodup : r.outputNumbers.Nodup
  numbers : ∀ n ∈ r.outputNumbers, n < db.nextFileNumber
  fresh : ∀ n ∈ r.outputNumbers, ∀ l, ∀ f ∈ db.current.files l, f.number ≠ n

/-- **What every run keeps** of a database that has committed `h`. -/
structure Core (db : DB) (h : List Op) : Prop where
  length : db.lastSequence = h.length
  bound : h.length ≤ kMaxSequenceNumber
  listed : Listed db.current db.nextFileNumber
  points : ∀ l, ∀ f ∈ db.current.files l, ∀ e ∈ (db.tables f.number).entries, e.isPoint = true
  entries : ∀ l, ∀ f ∈ db.current.files l, ∀ e ∈ (db.tables f.number).entries, Committed h e
  mem : MemOK h db.mem
  imm : ∀ m ∈ db.imm, MemOK h m
  dels : ∀ d, HasDel db d ↔ CommittedDel h d
  pending : ∀ r ∈ db.running, Pending db r

theorem core_init : Core DB.init [] where
  length := rfl
  bound := Nat.zero_le _
  listed := ⟨nofun, nofun, fun _ => List.Pairwise.nil, fun _ _ => rfl⟩
  points := nofun
  entries := nofun
  mem := memOK_empty _
  imm := nofun
  dels d := by
    constructor
    · rintro (hd | ⟨m, hm, -⟩ | ⟨l, f, hf, -⟩)
      · cases hd
      · cases hm
      · cases hf
    · rintro ⟨i, a, b, hi, -⟩
      cases hi
  pending := nofun

/-! ## Steps that leave the version alone -/

section Steps

variable {db : DB} {h : List Op}

theorem core_write (hc : Core db h) (batch : List Op)
    (hle : db.lastSequence + batch.length ≤ kMaxSequenceNumber) :
    Core { db with
      mem := insertInto batch (db.lastSequence + 1) db.mem
      lastSequence := db.lastSequence + batch.length } (h ++ batch) := by
  have hmemle : ∀ x ∈ db.mem.table, x.key.sequence ≤ h.length := fun x hx =>
    (hc.mem.committed x hx).sequence_le.2
  obtain ⟨hm, hmem⟩ := insertInto_spec h batch [] db.mem (by simpa using hc.mem) (by
    simpa using hmemle)
  simp only [List.length_nil, Nat.add_zero, List.nil_append] at hm hmem
  rw [hc.length] at hle ⊢
  refine { length := by rw [List.length_append], bound := by rwa [List.length_append],
           listed := hc.listed, points := hc.points,
           entries := fun l f hf e he => (hc.entries l f hf e he).append batch, mem := hm,
           imm := fun m hmm => (hc.imm m hmm).append batch, dels := ?_,
           pending := fun r hr => { hc.pending r hr with } }
  intro d
  -- the memtable's range deletions are those of its markers, old and new
  have hnew : d ∈ (insertInto batch (h.length + 1) db.mem).rangeDeletions ↔
      d ∈ db.mem.rangeDeletions ∨ ∃ (i : Nat) (a b : Slice), batch[i]? = some (.deleteRange a b)
        ∧ d = ⟨a, b, h.length + i + 1⟩ := by
    rw [hm.dels, hc.mem.dels]
    constructor
    · rintro ⟨e, he, ht, rfl⟩
      rcases (hmem e).mp he with he | ⟨i, op, hi, rfl⟩
      · exact Or.inl ⟨e, he, ht, rfl⟩
      · cases op with
        | put k v => cases ht
        | delete k => cases ht
        | deleteRange a b => exact Or.inr ⟨i, a, b, hi, rfl⟩
    · rintro (⟨e, he, ht, rfl⟩ | ⟨i, a, b, hi, rfl⟩)
      · exact ⟨e, (hmem e).mpr (Or.inl he), ht, rfl⟩
      · exact ⟨_, (hmem _).mpr (Or.inr ⟨i, _, hi, rfl⟩), rfl, rfl⟩
  rw [committedDel_append, ← hc.dels d]
  show (d ∈ (insertInto batch (h.length + 1) db.mem).rangeDeletions
    ∨ (∃ m ∈ db.imm, d ∈ m.rangeDeletions)
    ∨ ∃ l, ∃ f ∈ db.current.files l, d ∈ (db.tables f.number).rangeDeletions) ↔ _
  rw [hnew]
  exact or_right_comm

theorem core_switch (hc : Core db h) (himm : db.imm = none) :
    Core { db with
      imm := some db.mem
      mem := MemTable.empty
      nextFileNumber := db.nextFileNumber + 1 } h := by
  refine { hc with listed := hc.listed.mono (Nat.le_succ _), mem := memOK_empty h, imm := ?_,
                   dels := ?_, pending := ?_ }
  · intro m hm
    cases hm
    exact hc.mem
  · intro d
    rw [← hc.dels d, HasDel, HasDel]
    simp [himm, MemTable.empty]
  · intro r hr
    have hp := hc.pending r hr
    exact { hp with numbers := fun n hn => Nat.lt_succ_of_lt (hp.numbers n hn) }

theorem core_snapshots (hc : Core db h) (snapshots : List Nat) :
    Core { db with snapshots := snapshots } h :=
  { hc with dels := hc.dels, pending := fun r hr => { hc.pending r hr with } }

variable {r : Running} {o : Options}

theorem core_openOutput (hc : Core db h) (hr : db.running = some r) :
    Core { db with
      running := some { r with outputNumbers := r.outputNumbers ++ [db.nextFileNumber] }
      nextFileNumber := db.nextFileNumber + 1 } h := by
  have hp := hc.pending r hr
  refine { hc with listed := hc.listed.mono (Nat.le_succ _), dels := hc.dels,
                   pending := ?_ }
  intro r' hr'
  cases hr'
  refine { hp with nodup := ?_, numbers := List.forall_mem_append.mpr ⟨fun n hn => ?_, ?_⟩,
                   fresh := List.forall_mem_append.mpr ⟨hp.fresh, ?_⟩ }
  · refine List.nodup_append.mpr ⟨hp.nodup, List.nodup_singleton _, ?_⟩
    intro a ha b hb hab
    rw [List.mem_singleton.mp hb] at hab
    have := hp.numbers a ha
    omega
  · exact Nat.lt_succ_of_lt (hp.numbers n hn)
  · exact List.forall_mem_singleton.mpr (Nat.lt_succ_self _)
  · exact List.forall_mem_singleton.mpr fun l f hf => Nat.ne_of_lt (hc.listed.number l f hf)

/-! ## Flushes -/

theorem writeLevel0Table_none {base : Version} {number : Nat} {m : MemTable}
    (hw : writeLevel0Table o base number m = none) : m.table = [] := by
  rw [writeLevel0Table] at hw
  split at hw
  · rename_i hb
    rw [buildTable] at hb
    split at hb
    · cases hb
    · rename_i hno
      by_contra hne
      obtain ⟨a, ha⟩ := Option.isSome_iff_exists.mp (List.isSome_head?.mpr hne)
      exact hno a _ ha (List.getLast?_eq_some_getLast hne)
  · cases hw

theorem core_compactMemTable (hc : Core db h) (o : Options) {m : MemTable}
    (hm : db.imm = some m) : Core (db.compactMemTable o m) h := by
  have hmo := hc.imm m hm
  cases hw : writeLevel0Table o db.current db.nextFileNumber m with
  | none =>
    rw [DB.compactMemTable_none hw]
    refine { hc with listed := hc.listed.mono (Nat.le_succ _), imm := nofun,
                     dels := ?_, pending := ?_ }
    · intro d
      have hnil : d ∉ m.rangeDeletions := by
        rw [hmo.dels, writeLevel0Table_none hw]
        rintro ⟨e, he, -⟩
        cases he
      rw [← hc.dels d, HasDel, HasDel]
      simp [hm, hnil]
    · intro r hr
      have hp := hc.pending r hr
      exact { hp with numbers := fun n hn => Nat.lt_succ_of_lt (hp.numbers n hn) }
  | some p =>
    obtain ⟨f, t, level⟩ := p
    rw [DB.compactMemTable_some hw]
    obtain ⟨hfl, hlev⟩ := writeLevel0Table_spec hmo.sorted hw
    have hadds := adds_of_flush hc.listed hfl.number level
    have htab := exists_table_flush hc.listed db.tables hfl.number t level
    have hok := hfl.fileOK hmo hc.bound
    have hlt : level < kNumLevels :=
      hlev ▸ db.current.pickLevelForMemTableOutput_lt o _ _
    refine { hc with listed := Listed.add hc.listed hadds hlt hfl.number, points := ?_,
                     entries := ?_, imm := nofun, dels := ?_, pending := ?_ }
    · intro l g hg e he
      rcases (htab fun t => e ∈ t.entries).mp ⟨l, g, hg, he⟩ with he | ⟨l', g', hg', he⟩
      · exact hok.points e he
      · exact hc.points l' g' hg' e he
    · intro l g hg e he
      rcases (htab fun t => e ∈ t.entries).mp ⟨l, g, hg, he⟩ with he | ⟨l', g', hg', he⟩
      · exact hok.committed e he
      · exact hc.entries l' g' hg' e he
    · intro d
      have hd := htab fun t => d ∈ t.rangeDeletions
      rw [hfl.mem_dels hmo] at hd
      rw [← hc.dels d, HasDel, HasDel, hd]
      simp [hm]
    · intro r hr
      have hp := hc.pending r hr
      refine { hp with sub0 := ?_, sub1 := ?_, numbers := ?_, fresh := ?_ }
      · exact fun x hx => (hadds.mem _ x).mpr (Or.inl (hp.sub0 x hx))
      · exact fun x hx => (hadds.mem _ x).mpr (Or.inl (hp.sub1 x hx))
      · exact fun n hn => Nat.lt_succ_of_lt (hp.numbers n hn)
      · intro n hn l g hg
        rcases (hadds.mem l g).mp hg with hg | ⟨-, rfl⟩
        · exact hp.fresh n hn l g hg
        · rw [hfl.number]
          exact Nat.ne_of_gt (hp.numbers n hn)

/-! ## Starting a compaction -/

theorem core_startCompaction (hc : Core db h) (o : Options) (hrun : db.running = none)
    {c : Compaction} (hfrom : FromVersion c db.current) (hdeep : c.level + 1 < kNumLevels)
    (mayMove : Bool) : Core (db.startCompaction o c mayMove) h := by
  rcases db.startCompaction_cases o c mayMove with ⟨f, h0, hmove, -, heq⟩ | heq
  · rw [heq]
    have hf : f ∈ db.current.files c.level := hfrom.sub0 f (by rw [h0]; simp)
    have hr := replaces_of_move hc.listed hf hdeep
    -- the files are the same, one of them a level deeper
    have hold := exists_file_move hc.listed hf hdeep
    refine { hc with
      listed := ?_
      points := forall_file_move hc.listed hf hdeep hc.points
      entries := forall_file_move hc.listed hf hdeep hc.entries
      dels := ?_
      pending := ?_ }
    · refine Listed.replace hc.listed hr (le_refl _) ?_ ?_ ?_
      · exact List.forall_mem_singleton.mpr (hc.listed.number _ f hf)
      · intro l x hx g hg hnum
        rw [List.mem_singleton.mp hx] at hnum ⊢
        obtain ⟨l', g', hg', rfl⟩ := (hold (· = g)).mp ⟨l, g, hg, rfl⟩
        exact (hc.listed.unique _ _ f g' hf hg' hnum).2
      · intro l g hg hgf
        rcases (hr.mem l g).mp hg with ⟨hg, hn, -⟩ | ⟨hl, -⟩
        · have hgf' := List.mem_singleton.mp hgf
          exact absurd ⟨(hc.listed.unique _ _ g f hg hf (by rw [hgf'])).1, hgf⟩ hn
        · exact hl
    · intro d
      rw [← hc.dels d]
      exact or_congr Iff.rfl (or_congr Iff.rfl (hold _))
    · intro r hr
      simp [hrun] at hr
  · rw [heq]
    refine { hc with dels := hc.dels, pending := ?_ }
    intro r hr
    cases hr
    exact { toFromVersion := hfrom
            deep := hdeep
            nodup := List.nodup_nil
            numbers := nofun
            fresh := nofun }

/-! ## Installing a compaction -/

/-- Every output carries exactly the tombstones of the inputs. -/
theorem Core.mem_dels (hc : Core db h) (hr : db.running = some r) {d : RangeDeletion} :
    d ∈ (db.job r).dels ↔ ∃ x ∈ r.compaction.inputs,
      d ∈ (db.tables x.number).rangeDeletions := by
  have hcom : ∀ a ∈ (db.job r).rangeDels, CommittedDel h a := by
    intro a ha
    obtain ⟨y, hy, hay⟩ := List.mem_flatMap.mp ha
    obtain ⟨l, hyl⟩ := (hc.pending r hr).input hy
    exact (hc.dels a).mp (Or.inr (Or.inr ⟨l, y, hyl, hay⟩))
  refine (mem_sortedDels fun a ha b hb hab => ?_).trans List.mem_flatMap
  exact (hcom a ha).eq_of_seq (hcom b hb) hab.2

/-- The files added by the edit of `InstallCompactionResults`. -/
theorem installEdit_addedAt (o : Options) (db : DB) (r : Running) (l : Nat) :
    (installEdit o r.compaction (db.outputs o r)).addedAt l
      = if r.compaction.level + 1 = l then db.outputFiles o r else [] := by
  rw [VersionEdit.addedAt, (installEdit_spec o _ _).1, List.filter_map, List.map_map]
  by_cases hl : r.compaction.level + 1 = l
  · rw [if_pos hl, DB.outputFiles]
    congr 1
    rw [List.filter_eq_self]
    intro p _
    simp [hl]
  · rw [if_neg hl, List.map_eq_nil_iff, List.filter_eq_nil_iff]
    intro p _
    simp [hl]

/-- The installed outputs and their numbers. -/
structure Numbered (o : Options) (db : DB) (r : Running) : Prop where
  fst : (db.outputs o r).map (·.1) = (db.job r).doCompactionWork o
  snd : (db.outputs o r).map (·.2) = r.outputNumbers
  nodup : ((db.outputs o r).map (·.2)).Nodup

theorem numbered (hc : Core db h) (hr : db.running = some r)
    (hlen : r.outputNumbers.length = ((db.job r).doCompactionWork o).length) : Numbered o db r := by
  have hsnd : (db.outputs o r).map (·.2) = r.outputNumbers := List.map_snd_zip (le_of_eq hlen)
  exact ⟨List.map_fst_zip (le_of_eq hlen.symm), hsnd, hsnd ▸ (hc.pending r hr).nodup⟩

variable {p : Output × Nat}

theorem Numbered.mem_fst (hn : Numbered o db r) (hp : p ∈ db.outputs o r) :
    p.1 ∈ (db.job r).doCompactionWork o :=
  hn.fst ▸ List.mem_map_of_mem hp

theorem Numbered.mem_snd (hn : Numbered o db r) (hp : p ∈ db.outputs o r) :
    p.2 ∈ r.outputNumbers :=
  hn.snd ▸ List.mem_map_of_mem hp

/-- The edit of `InstallCompactionResults` replaces the inputs by the outputs. -/
theorem replaces_of_install (hc : Core db h) (hr : db.running = some r) (hn : Numbered o db r) :
    Replaces db.current (db.installResults o r).current r.compaction.level
      r.compaction.inputs0 r.compaction.inputs1 (db.outputFiles o r) := by
  have hp := hc.pending r hr
  have hfresh : (installEdit o r.compaction (db.outputs o r)).FreshFor db.current := by
    refine ⟨fun l => ?_, fun l f hf g hg => ?_⟩
    · rw [installEdit_addedAt]
      split_ifs with hl
      · rw [DB.outputFiles, List.map_map]
        exact hn.nodup
      · exact List.nodup_nil
    · rw [installEdit_addedAt] at hf
      split_ifs at hf with hl
      · obtain ⟨p, hpo, rfl⟩ := List.mem_map.mp hf
        exact hp.fresh p.2 (hn.mem_snd hpo) l g hg
      · cases hf
  -- numbers name files, so deleting by number deletes the inputs
  have hdel : ∀ {l level : Nat} {g : FileMetaData} {ins : List FileMetaData},
      (∀ x ∈ ins, x ∈ db.current.files level) → g ∈ db.current.files l →
      ((l = level ∧ ∃ f ∈ ins, f.number = g.number) ↔ (l = level ∧ g ∈ ins)) := by
    intro l level g ins hsub hg
    refine and_congr_right fun _ => ⟨?_, fun hg => ⟨g, hg, rfl⟩⟩
    rintro ⟨f, hf, hnum⟩
    exact (hc.listed.unique _ _ f g (hsub f hf) hg hnum).2 ▸ hf
  refine { mem := fun l g => ?_, sorted := fun l => applyEdit_sorted hfresh (hc.listed.sorted l),
           sub0 := hp.sub0, sub1 := hp.sub1, deep := hp.deep }
  show g ∈ (applyEdit db.current (installEdit o r.compaction (db.outputs o r))).files l ↔ _
  rw [mem_applyEdit hfresh, (installEdit_spec o _ _).2, ← VersionEdit.mem_addedAt,
    installEdit_addedAt]
  refine or_congr (and_congr_right fun hg => ?_) ?_
  · rw [hdel hp.sub0 hg, hdel hp.sub1 hg, not_or]
  · split_ifs with hl
    · simp [hl]
    · simp [Ne.symm hl]

/-- **What `InstallCompactionResults` writes**, in whatever order the input came. -/
structure Written (o : Options) (db : DB) (r : Running) : Prop where
  replaces : Replaces db.current (db.installResults o r).current r.compaction.level
    r.compaction.inputs0 r.compaction.inputs1 (db.outputFiles o r)
  tables : ∀ l, ∀ g ∈ db.current.files l,
    (db.installResults o r).tables g.number = db.tables g.number
  table : ∀ f ∈ db.outputFiles o r, ∃ seg,
    (db.installResults o r).tables f.number = ⟨seg, (db.job r).dels⟩
      ∧ ∀ e ∈ seg, e ∈ (db.job r).kept
  kept : ∀ e ∈ (db.job r).kept, ∃ f ∈ db.outputFiles o r,
    e ∈ ((db.installResults o r).tables f.number).entries
  nonempty : (db.job r).dels ≠ [] → db.outputFiles o r ≠ []
  number : ∀ f ∈ db.outputFiles o r, f.number ∈ r.outputNumbers
  unique : ∀ f ∈ db.outputFiles o r, ∀ g ∈ db.outputFiles o r, f.number = g.number → f = g

section

variable (hc : Core db h) (hr : db.running = some r)
include hc hr

theorem Core.merged_points : ∀ e ∈ (db.job r).merged, e.isPoint = true := by
  intro e he
  obtain ⟨f, hf, hef⟩ := mem_merged.mp he
  obtain ⟨l, hfl⟩ := (hc.pending r hr).input hf
  exact hc.points l f hfl e hef

omit hc hr in
/-- The table of an installed output. -/
theorem Numbered.table (hn : Numbered o db r) (hp : p ∈ db.outputs o r) :
    (db.installResults o r).tables p.2 = tableOfAdds p.1.adds :=
  (foldl_update_tables (db.outputs o r) db.tables hn.nodup).2 p hp

theorem written (hn : Numbered o db r) : Written o db r := by
  obtain ⟨htable, hkept, hne⟩ := doCompactionWork_tables (db.job r) o (hc.merged_points hr)
  refine { replaces := replaces_of_install hc hr hn, tables := ?_, table := ?_, kept := ?_,
           nonempty := ?_, number := ?_, unique := ?_ }
  · intro l g hg
    refine (foldl_update_tables (db.outputs o r) db.tables hn.nodup).1 g.number ?_
    rw [hn.snd]
    intro hmem
    exact (hc.pending r hr).fresh _ hmem l g hg rfl
  · intro f hf
    obtain ⟨p, hp, rfl⟩ := List.mem_map.mp hf
    obtain ⟨seg, ht, hseg⟩ := htable p.1 (hn.mem_fst hp)
    exact ⟨seg, (hn.table hp).trans ht, hseg⟩
  · intro e he
    obtain ⟨out, hout, heo⟩ := hkept e he
    rw [← hn.fst] at hout
    obtain ⟨p, hp, rfl⟩ := List.mem_map.mp hout
    refine ⟨outputFile o p.1 p.2, List.mem_map_of_mem hp, ?_⟩
    have : (db.installResults o r).tables (outputFile o p.1 p.2).number = _ := hn.table hp
    rw [this]
    exact heo
  · intro hd hnil
    refine hne hd ?_
    rw [DB.outputFiles, List.map_eq_nil_iff] at hnil
    rw [← hn.fst, hnil]
    rfl
  · intro f hf
    obtain ⟨p, hp, rfl⟩ := List.mem_map.mp hf
    exact hn.mem_snd hp
  · intro f hf g hg hnum
    obtain ⟨p, hp, rfl⟩ := List.mem_map.mp hf
    obtain ⟨q, hq, rfl⟩ := List.mem_map.mp hg
    rw [List.inj_on_of_nodup_map hn.nodup hp hq hnum]

/-- The files of the new version under an output's number. -/
theorem Written.unique_number (hw : Written o db r) (l : Nat) :
    ∀ f ∈ db.outputFiles o r, ∀ g ∈ (db.installResults o r).current.files l,
      f.number = g.number → f = g ∧ l = r.compaction.level + 1 := by
  intro f hf g hg hnum
  rcases (hw.replaces.mem l g).mp hg with ⟨hgo, -, -⟩ | ⟨hl, hgo⟩
  · exact absurd hnum.symm ((hc.pending r hr).fresh _ (hw.number f hf) l g hgo)
  · exact ⟨hw.unique f hf g hgo hnum, hl⟩

omit hc hr in
/-- Every entry of an output comes from an input. -/
theorem Written.source (hw : Written o db r) :
    ∀ f ∈ db.outputFiles o r, ∀ e ∈ ((db.installResults o r).tables f.number).entries,
      ∃ x ∈ r.compaction.inputs, e ∈ (db.tables x.number).entries := by
  intro f hf e he
  obtain ⟨seg, ht, hsk⟩ := hw.table f hf
  rw [ht] at he
  exact mem_merged.mp ((kept_sublist _).subset (hsk e he))

/-- The entries of the new version were in the old one. -/
theorem Written.forall_entries (hw : Written o db r) {P : Entry → Prop}
    (hold : ∀ l, ∀ g ∈ db.current.files l, ∀ e ∈ (db.tables g.number).entries, P e) :
    ∀ l, ∀ g ∈ (db.installResults o r).current.files l,
      ∀ e ∈ ((db.installResults o r).tables g.number).entries, P e := by
  intro l g hg e he
  rcases (hw.replaces.mem l g).mp hg with ⟨hg, -, -⟩ | ⟨-, hg⟩
  · rw [hw.tables l g hg] at he
    exact hold l g hg e he
  · obtain ⟨x, hx, hex⟩ := hw.source g hg e he
    obtain ⟨l', hxl⟩ := (hc.pending r hr).input hx
    exact hold l' x hxl e hex

/-- So were its range deletions. -/
theorem Written.forall_dels (hw : Written o db r) {P : RangeDeletion → Prop}
    (hold : ∀ l, ∀ g ∈ db.current.files l, ∀ d ∈ (db.tables g.number).rangeDeletions, P d) :
    ∀ l, ∀ g ∈ (db.installResults o r).current.files l,
      ∀ d ∈ ((db.installResults o r).tables g.number).rangeDeletions, P d := by
  intro l g hg d hd
  rcases (hw.replaces.mem l g).mp hg with ⟨hg, -, -⟩ | ⟨-, hg⟩
  · rw [hw.tables l g hg] at hd
    exact hold l g hg d hd
  · obtain ⟨seg, ht, -⟩ := hw.table g hg
    rw [ht] at hd
    obtain ⟨x, hx, hdx⟩ := (hc.mem_dels hr).mp hd
    obtain ⟨l', hxl⟩ := (hc.pending r hr).input hx
    exact hold l' x hxl d hdx

theorem core_installResults (hw : Written o db r) : Core (db.installResults o r) h := by
  have hp := hc.pending r hr
  have hdels : ∀ d, HasDel (db.installResults o r) d ↔ HasDel db d := by
    intro d
    rw [HasDel, HasDel, DB.installResults_mem, DB.installResults_imm]
    refine or_congr Iff.rfl (or_congr Iff.rfl ⟨?_, ?_⟩)
    · rintro ⟨l, g, hg, hd⟩
      exact hw.forall_dels hc hr (P := fun d => ∃ l, ∃ f ∈ db.current.files l,
        d ∈ (db.tables f.number).rangeDeletions) (fun l g hg d hd => ⟨l, g, hg, hd⟩) l g hg d hd
    · rintro ⟨l, g, hg, hd⟩
      by_cases hin : g ∈ r.compaction.inputs
      · -- the tombstone of an input is in every output, and there is one
        have hdj := (hc.mem_dels hr).mpr ⟨g, hin, hd⟩
        obtain ⟨f, hf⟩ := List.exists_mem_of_ne_nil _ (hw.nonempty (List.ne_nil_of_mem hdj))
        obtain ⟨seg, ht, -⟩ := hw.table f hf
        refine ⟨_, f, (hw.replaces.mem _ f).mpr (Or.inr ⟨rfl, hf⟩), ?_⟩
        rw [ht]
        exact hdj
      · rw [List.mem_append, not_or] at hin
        refine ⟨l, g, (hw.replaces.mem l g).mpr (Or.inl ⟨hg, ?_, ?_⟩), ?_⟩
        · exact fun hc => hin.1 hc.2
        · exact fun hc => hin.2 hc.2
        · rw [hw.tables l g hg]
          exact hd
  have hlist : Listed (db.installResults o r).current db.nextFileNumber := by
    refine Listed.replace hc.listed hw.replaces (le_refl _) ?_ ?_ ?_
    · exact fun f hf => hp.numbers _ (hw.number f hf)
    · exact fun l f hf g hg hnum => (hw.unique_number hc hr l f hf g hg hnum).1
    · exact fun l g hg hgo => (hw.unique_number hc hr l g hgo g hg rfl).2
  constructor
  · simpa using hc.length
  · exact hc.bound
  · simpa using hlist
  · exact hw.forall_entries hc hr hc.points
  · exact hw.forall_entries hc hr hc.entries
  · simpa using hc.mem
  · simpa using hc.imm
  · intro d
    rw [hdels d]
    exact hc.dels d
  · simp

end

/-! ## All steps -/

/-- **Every step keeps `Core`.** -/
theorem core_step {db' : DB} {a : Action} (hc : Core db h) (hstep : step o db a = some db') :
    Core db' (h ++ a.ops) := by
  have hsame : ∀ {db'}, a.ops = [] → Core db' h → Core db' (h ++ a.ops) := by
    intro db' ha hc'
    rwa [ha, List.append_nil]
  cases steps_of_step hstep with
  | write batch hle => exact core_write hc batch hle
  | switchMemTable himm => exact hsame rfl (core_switch hc himm)
  | getSnapshot | releaseSnapshot => exact hsame rfl (core_snapshots hc _)
  | compactMemTable m hm => exact hsame rfl (core_compactMemTable hc o hm)
  | start hrun hpick =>
    obtain ⟨hfrom, hdeep⟩ := picks_sub hpick
    exact hsame hpick.ops (core_startCompaction hc o hrun hfrom hdeep _)
  | openOutput r hr => exact hsame rfl (core_openOutput hc hr)
  | installResults r hr hlen =>
    exact hsame rfl (core_installResults hc hr (written hc hr (numbered hc hr hlen)))

/-- **Every run keeps `Core`.** -/
theorem core_reach {P : DB → Action → Prop} (hreach : Reach o P db h) : Core db h := by
  induction hreach with
  | init => exact core_init
  | step _ _ hstep ih => exact core_step ih hstep

end Steps

/-- The collected range deletions are the committed ones. -/
theorem mem_getRangeDeletions {db : DB} {h : List Op} (hc : Core db h) {d : RangeDeletion} :
    d ∈ getRangeDeletions db ↔ CommittedDel h d := by
  rw [← hc.dels d, getRangeDeletions, List.mem_append, List.mem_append, or_assoc, HasDel]
  refine or_congr Iff.rfl (or_congr ?_ ?_)
  · rw [List.mem_flatMap]
    exact exists_congr fun m => and_congr_left fun _ => Option.mem_toList
  · rw [List.mem_flatMap]
    constructor
    · rintro ⟨l, -, hd⟩
      obtain ⟨f, hf, hd⟩ := List.mem_flatMap.mp hd
      exact ⟨l, f, hf, hd⟩
    · rintro ⟨l, f, hf, hd⟩
      exact ⟨l, List.mem_range.mpr (hc.listed.level_lt hf), List.mem_flatMap.mpr ⟨f, hf, hd⟩⟩

theorem tombs_getRangeDeletions {db : DB} {h : List Op} (hc : Core db h) :
    tombs (getRangeDeletions db) = committedTombs h := by
  ext t
  constructor
  · rintro ⟨d, hd, rfl⟩
    exact ⟨d, (mem_getRangeDeletions hc).mp hd, rfl⟩
  · rintro ⟨d, hd, rfl⟩
    exact ⟨d, (mem_getRangeDeletions hc).mpr hd, rfl⟩

end LdbCore
