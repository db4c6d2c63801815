import LevelDB.Creation
import LevelDB.Get
import LevelDB.Recency

/-! # Reads over whole runs

    In runs of answerable installs lookups, scans and iterators read one map, and a
    snapshot answers the same while it is held.

    Runs of `Put` and `Delete` whose compactions start while no snapshot is held are
    such runs: the drop rules leave one version of each user key, so no output is
    torn, and there are no tombstones. -/

namespace LdbReads

open Versioned LdbFormat LdbVersion LdbEdit LdbTable LdbDrop LdbWork LdbOutputs LdbDb LdbInv
open LdbSteps LdbCore LdbRun LdbDisjoint LdbBounds LdbSequential LdbVisibility LdbScan LdbGet
open LdbDbIter LdbCreation LdbRecency

variable {o : Options} {db db' : DB} {h : List Op} {s : Nat}

/-! ## One map behind all reads -/

section Answerable

variable (hreach : Reach o (AnswerableInstalls o) db h) (hs : Live db s)
include hreach hs

theorem live_le : s ≤ db.lastSequence := by
  rcases hs with hs | rfl
  · exact (readInv_reach hreach).1.snapshots.2 s hs
  · exact Nat.le_refl _

theorem visible_eq_storeAt (k v : Slice) :
    Visible (storedVers db) (committedTombs h) k s v ↔ storeAt h s k = some v := by
  obtain ⟨hi, hvis⟩ := visInv_reach (fun hp => ⟨hp.1.1.1, hp.1.2⟩) hreach
  rw [hvis s hs k v]
  exact visible_iff_storeAt (hi.length ▸ live_le hreach hs) k v

/-- `Get` looks up the map after `s` operations. -/
theorem get_eq_storeAt (k : Slice) : db.get k s = storeAt h s k := by
  obtain ⟨hi, hinv⟩ := readInv_reach hreach
  refine Option.ext fun v => ?_
  exact (get_iff_visible hi hinv (hs.imp id fun hs => le_of_eq hs.symm) k v).trans
    (visible_eq_storeAt hreach hs k v)

/-- `Scan` lists a range of it. -/
theorem scan_storeAt {startKey endKey : Slice} (hlt : startKey < endKey) :
    (scan db s startKey endKey).Pairwise (fun p q => p.1 < q.1)
      ∧ ∀ k v, (k, v) ∈ scan db s startKey endKey ↔
          startKey ≤ k ∧ k < endKey ∧ storeAt h s k = some v := by
  obtain ⟨hi, hinv⟩ := readInv_reach hreach
  obtain ⟨hpair, hmem⟩ := scan_iff_visible hi hinv.contains s hlt
  refine ⟨hpair, fun k v => ?_⟩
  rw [hmem k v, visible_eq_storeAt hreach hs k v]

end Answerable

/-- **Iterators show what lookups find**: moving forward from any key, a new iterator at
    a live sequence number shows exactly the keys `Get` finds, with their values.
    `Seek` goes by the recorded bounds of the files (`seekOver`). -/
theorem iterator_shows_gets (hreach : Reach o (AnswerableInstalls o) db h) (hs : Live db s) :
    Visits (getRangeDeletions db) s ((newIterator db).seekToFirst (getRangeDeletions db) s)
        (fun k v => db.get k s = some v)
      ∧ ∀ target, Visits (getRangeDeletions db) s
          (seekOver db (getRangeDeletions db) s target (newIterator db))
          fun k v => target ≤ k ∧ db.get k s = some v := by
  obtain ⟨hi, hinv⟩ := readInv_reach hreach
  have hsorted : Sorted (newIterator db).iter.contents := mergedChildren_sorted hi
  have hn : LdbReverse.Numbered (newIterator db).iter.contents := mergedChildren_numbered hi.toCore
  have hvisible : ∀ k v, Visible (versions (mergedChildren db)) (tombs (getRangeDeletions db)) k s v
      ↔ db.get k s = some v := by
    intro k v
    have hall : ∀ d, d.seq ≤ s → (d ∈ getRangeDeletions db ↔ CommittedDel h d) :=
      fun d _ => mem_getRangeDeletions hi.toCore
    rw [get_eq_storeAt hreach hs, ← visible_eq_storeAt hreach hs]
    have hbound : db.lastSequence + ([] : List Op).length ≤ kMaxSequenceNumber :=
      le_of_eq_of_le hi.length hi.bound
    exact visible_mergedChildren hi.toCore hbound (live_le hreach hs) hall k v
  refine ⟨visits_congr hvisible (seekToFirst_visits hsorted hn), fun target => ?_⟩
  rw [seekOver_eq hi hinv.contains _ s rfl]
  exact visits_congr (fun k v => and_congr_right fun _ => hvisible k v)
    (seek_visits hsorted hn target)

/-- Two compactions have been installed, and a range deletion hides a key on level 3. -/
theorem iterator_shows_gets_guardRun :
    ∃ db, Reach sampleOptions (AnswerableInstalls sampleOptions) db (opsOf guardRun)
      ∧ (db.current.files 2).length = 1 ∧ (db.current.files 3).length = 1
      ∧ db.get [97] 4 = some [3] ∧ db.get [98] 4 = none
      ∧ Visits (getRangeDeletions db) 4 ((newIterator db).seekToFirst (getRangeDeletions db) 4)
          (fun k v => db.get k 4 = some v)
      ∧ ∀ target, Visits (getRangeDeletions db) 4
          (seekOver db (getRangeDeletions db) 4 target (newIterator db))
          fun k v => target ≤ k ∧ db.get k 4 = some v := by
  have hrun : (run sampleOptions (AnswerableInstalls sampleOptions) DB.init guardRun).any
      (fun db => Live db 4 ∧ (db.current.files 2).length = 1 ∧ (db.current.files 3).length = 1
        ∧ db.get [97] 4 = some [3] ∧ db.get [98] 4 = none) = true := by
    decide +kernel
  obtain ⟨db, hreach, hs, h2, h3, hfound, hnone⟩ := reach_of_run hrun
  exact ⟨db, hreach, h2, h3, hfound, hnone, iterator_shows_gets hreach hs⟩

theorem answerable_sampleDb :
    Reach sampleOptions (AnswerableInstalls sampleOptions) sampleDb sampleOps :=
  Reach.step (a := .write sampleOps) Reach.init (by decide) rfl

/-- **Reads at a snapshot are repeatable**: whatever happens between two states in
    which the sequence number is live, lookups at it give the same. -/
theorem snapshot_gets_stable (hreach : Reach o (AnswerableInstalls o) db h) {as : List Action}
    (hrun : run o (AnswerableInstalls o) db as = some db') (hs : Live db s) (hs' : Live db' s)
    (k : Slice) : db'.get k s = db.get k s := by
  have hlen : s ≤ h.length := (readInv_reach hreach).1.length ▸ live_le hreach hs
  rw [get_eq_storeAt (Reach.run as hreach hrun) hs', get_eq_storeAt hreach hs]
  -- the operations after `s` do not count
  rw [storeAt, List.take_append_of_le_length hlen]
  rfl

/-- The key is deleted and flushed. -/
theorem snapshot_gets_stable_sample :
    ∃ db' : DB, db'.get [2] 5 = none ∧ ∀ k, db'.get k 4 = sampleDb.get k 4 := by
  have hsample : (run sampleOptions (AnswerableInstalls sampleOptions) sampleDb
      ([.getSnapshot] ++ flushOf [.delete [2]])).any
      (fun db' => decide (Live db' 4 ∧ db'.get [2] 5 = none)) = true := by
    decide +kernel
  obtain ⟨db', hrun, hcheck⟩ := (Option.any_eq_true _ _).mp hsample
  obtain ⟨hs', hnone⟩ := of_decide_eq_true hcheck
  exact ⟨db', hnone, snapshot_gets_stable answerable_sampleDb hrun (Or.inr rfl) hs'⟩

/-! ## Runs of `Put` and `Delete` -/

/-- A compaction is picked. -/
def startsCompaction : Action → Bool
  | .autoCompaction _ => true
  | _ => false

/-- Point writes, and compactions that start while no snapshot is held, below the
    largest sequence number. -/
def PlainRun (db : DB) (a : Action) : Prop :=
  PointRun db a ∧ (startsCompaction a = true →
    db.snapshots.isEmpty = true ∧ db.lastSequence < kMaxSequenceNumber)

instance (db : DB) (a : Action) : Decidable (PlainRun db a) :=
  inferInstanceAs (Decidable (_ ∧ _))

/-- The inputs of a compaction hold nothing newer than its smallest snapshot. -/
def Settled (db : DB) : Prop :=
  ∀ r ∈ db.running, r.smallestSnapshot < kMaxSequenceNumber
    ∧ ∀ x ∈ r.compaction.inputs, ∀ e ∈ (db.tables x.number).entries,
        e.key.sequence ≤ r.smallestSnapshot

theorem settled_step {a : Action} (hi : Inv db h) (hset : Settled db) (ha : PlainRun db a)
    (hstep : step o db a = some db') : Settled db' := by
  cases steps_of_step hstep with
  | compactMemTable m hm =>
    cases hw : writeLevel0Table o db.current db.nextFileNumber m with
    | none =>
      rw [DB.compactMemTable_none hw]
      exact hset
    | some p =>
      obtain ⟨f, t, level⟩ := p
      rw [DB.compactMemTable_some hw]
      intro r hr
      refine ⟨(hset r hr).1, fun x hx => ?_⟩
      -- the flushed table has a new number
      have hro := hi.running r hr
      obtain ⟨l, -, hl⟩ := inputs_mem hro.closed hro.grown hx
      have hlt := hi.version.number l x hl
      have hnum := (writeLevel0Table_spec (hi.imm m hm).sorted hw).1.number
      show ∀ e ∈ (Function.update db.tables f.number t x.number).entries, _
      rw [Function.update_of_ne (by omega)]
      exact (hset r hr).2 x hx
  | @start _ c mayMove hrun hpick =>
    rcases db.startCompaction_cases o c mayMove with ⟨f, -, -, -, heq⟩ | heq
    · rw [heq]
      intro r hr
      rw [hrun] at hr
      cases hr
    · rw [heq]
      intro r hr
      cases hr
      cases a with
      | autoCompaction t =>
        obtain ⟨hno, hmax⟩ := ha.2 rfl
        have hlast : db.smallestSnapshot = db.lastSequence := by
          rw [DB.smallestSnapshot, List.isEmpty_iff.mp hno]
          rfl
        refine ⟨lt_of_eq_of_lt hlast hmax, fun x hx e he => ?_⟩
        have hc := (picks_closed hi.version.pickable hpick).1
        obtain ⟨l, hl⟩ : ∃ l, x ∈ db.current.files l := by
          rcases List.mem_append.mp hx with hx | hx
          · exact ⟨_, hc.run0.sub x hx⟩
          · exact ⟨_, hc.run1.sub x hx⟩
        show e.key.sequence ≤ db.smallestSnapshot
        rw [hlast, hi.length]
        exact ((hi.version.file l x hl).committed e he).sequence_le.2
      | manualCompaction level b e forceFull => exact absurd ha.1 id
      | _ => exact absurd hpick id
  | openOutput r hr =>
    intro r' hr'
    cases hr'
    exact hset r hr
  | installResults r hr hlen =>
    intro r' hr'
    rw [DB.installResults_running] at hr'
    cases hr'
  | _ => exact hset

/-- A settled compaction leaves one version of each user key. -/
theorem kept_once (hi : Inv db h) {r : Running} (hr : db.running = some r) (hset : Settled db)
    {a b : Entry} (ha : a ∈ (db.job r).kept) (hb : b ∈ (db.job r).kept)
    (hk : a.key.userKey = b.key.userKey) : a = b := by
  obtain ⟨hmax, hle⟩ := hset r hr
  -- no entry of the input is above the snapshot, so none is newer than a kept one
  have hfirst : ∀ x ∈ (db.job r).kept, ∀ y ∈ (db.job r).merged,
      y.key.userKey = x.key.userKey → ¬ y.key < x.key := by
    intro x hx y hy hyx hlt
    rw [kept_eq_filter hi hr hmax, List.mem_filter, survives_iff] at hx
    obtain ⟨f, hf, hfe⟩ := mem_merged.mp hy
    exact absurd (hx.2.2.1 y hy hyx hlt) (Nat.not_lt.mpr (hle f hf y hfe))
  have hsub := (kept_sublist (db.job r)).subset
  rcases OrderedLists.pairwise_trichotomy (hi.merged_sorted hr) (hsub ha) (hsub hb) with he | hlt | hlt
  · exact he
  · exact absurd hlt (hfirst b hb a (hsub ha) hk)
  · exact absurd hlt (hfirst a ha b (hsub hb) hk.symm)

theorem untorn_of_settled (hi : Inv db h) {r : Running} (hr : db.running = some r)
    (hset : Settled db) : Untorn (db.job r) o := by
  have honce : ∀ seg, (∀ e ∈ seg, e ∈ (db.job r).kept) → LastKeyOnce seg :=
    fun seg hseg b hb e he hk =>
      kept_once hi hr hset (hseg e he) (hseg b (List.mem_of_getLast? hb)) hk
  have hflat := segments_flatten (db.job r) o
  refine ⟨fun seg hseg => honce seg fun e he => ?_, Or.inl (honce _ fun e he => ?_)⟩
  · rw [← hflat]
    exact List.mem_append_left _ (List.mem_flatten.mpr ⟨seg, hseg, he⟩)
  · rw [← hflat]
    exact List.mem_append_right _ he

/-- **Every step of these runs is answerable.** -/
theorem answerable_of_plain {a : Action} (hp : PointInv db h) (hset : Settled db)
    (ha : PlainRun db a) (hstep : step o db a = some db') : AnswerableInstalls o db a := by
  have hrange : ProperWrites a := by
    intro op hop
    cases a with
    | write batch =>
      have hpoint := ha.1 op hop
      cases op with
      | put | delete => exact trivial
      | deleteRange => cases hpoint
    | _ => cases hop
  have hinstall : a = .installResults → ∀ r ∈ db.running,
      (FallbackOrdered (db.job r) ∧ saveToChecks (db.installResults o r).current)
        ∧ KeepsAnswers o db r := by
    rintro rfl r hr
    obtain ⟨r', hr', hlen, -⟩ := step_installResults hstep
    rw [hr', Option.mem_def, Option.some.injEq] at hr
    subst hr
    have hnone := hp.rangeDels hr'
    obtain ⟨hfb, hdis⟩ := sound_of_covers hp.inv hr' hlen (hp.covers r' hr') hnone
    refine ⟨⟨hfb, saveToChecks_of_disjoint hdis⟩, fun s _ l _ g _ e _ _ => ⟨?_, fun _ hdel => ?_⟩⟩
    · rintro ⟨x, hx, -, hdel⟩
      obtain ⟨d, hd, -⟩ := isDeleted_iff.mp hdel
      have hmem : d ∈ (db.job r').rangeDels := List.mem_flatMap.mpr ⟨x, hx, hd⟩
      rw [hnone] at hmem
      cases hmem
    · rw [Job.dels, sortedDels_eq_nil.mpr hnone] at hdel
      cases hdel
  exact ⟨⟨⟨fun he r hr => (hinstall he r hr).1, fun _ r hr => untorn_of_settled hp.inv hr hset⟩,
    fun _ r hr => (hset r hr).1⟩, hrange, fun he r hr => (hinstall he r hr).2⟩

theorem answerable_reach (hreach : Reach o PlainRun db h) :
    Reach o (AnswerableInstalls o) db h ∧ PointInv db h ∧ Settled db := by
  induction hreach with
  | init => exact ⟨.init, ⟨inv_init, nofun, nofun⟩, nofun⟩
  | step _ ha hstep ih =>
    obtain ⟨hr, hp, hset⟩ := ih
    exact ⟨.step hr (answerable_of_plain hp hset ha hstep) hstep, pointInv_step hp ha.1 hstep,
      settled_step hp.inv hset ha hstep⟩

/-- **A database without range deletions is a map.**  In every state of every run of
    `Put` and `Delete`, flushes and automatic compactions that start while no snapshot
    is held, `Get` and `Scan` at a live sequence number `s` read the map that the first
    `s` operations leave. -/
theorem point_reads (hreach : Reach o PlainRun db h) (hs : Live db s) :
    (∀ k, db.get k s = storeAt h s k)
      ∧ ∀ startKey endKey, startKey < endKey →
          (scan db s startKey endKey).Pairwise (fun p q => p.1 < q.1)
            ∧ ∀ k v, (k, v) ∈ scan db s startKey endKey ↔
                startKey ≤ k ∧ k < endKey ∧ storeAt h s k = some v :=
  have hreach' := (answerable_reach hreach).1
  ⟨get_eq_storeAt hreach' hs, fun _ _ hlt => scan_storeAt hreach' hs hlt⟩

/-- Two versions of a key are compacted; a third comes under a snapshot. -/
def plainRun : List Action :=
  flushOf [.put [97] [1]] ++ flushOf [.put [97] [2]]
    ++ [.autoCompaction (.size 1), .openOutput, .installResults, .getSnapshot, .write [.delete [97]]]

theorem point_reads_plainRun :
    ∃ db, Reach sampleOptions PlainRun db (opsOf plainRun) ∧ db.get [97] 2 = some [2]
      ∧ ∀ k, db.get k 2 = storeAt (opsOf plainRun) 2 k := by
  have hrun : (run sampleOptions PlainRun DB.init plainRun).any
      (fun db => Live db 2 ∧ db.get [97] 2 = some [2]) = true := by
    decide +kernel
  obtain ⟨db, hreach, hs, hget⟩ := reach_of_run hrun
  exact ⟨db, hreach, hget, (point_reads hreach hs).1⟩

end LdbReads
