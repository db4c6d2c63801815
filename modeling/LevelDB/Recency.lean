import LevelDB.Disjoint

/-! # Recency order of the tree

    Runs of point writes with flushes, trivial moves and the compactions
    `PickCompaction` chooses.  Such a compaction covers the key range between its
    inputs without a hole, so that a flush while it runs cannot end up under its
    outputs; and without range deletions no output is stretched.  Its installs
    are therefore always sound, and the structural invariant, with the recency
    order in it, holds in every state. -/

namespace LdbRecency

open LdbFormat LdbVersion LdbTable LdbClosure LdbWork LdbOutputs LdbDb LdbSteps LdbRun LdbDisjoint

/-- The operation is a `Put` or a `Delete`. -/
def isPointOp : Op → Bool
  | .put _ _ => true
  | .delete _ => true
  | .deleteRange _ _ => false

/-- The steps of such runs: point writes, and no manual compactions. -/
def PointRun (_ : DB) : Action → Prop
  | .write batch => ∀ op ∈ batch, isPointOp op = true
  | .manualCompaction _ _ _ _ => False
  | _ => True

instance (db : DB) (a : Action) : Decidable (PointRun db a) := by
  cases a <;> unfold PointRun <;> infer_instance

variable {db : DB} {o : Options} {h : List Op}

/-- Where a running compaction comes from. -/
theorem running_step {db' : DB} {a : Action} (hstep : step o db a = some db') {r' : Running}
    (hr' : db'.running = some r') :
    (∃ r, db.running = some r ∧ r'.compaction = r.compaction
        ∧ r'.inputVersion = r.inputVersion)
      ∨ (∃ mayMove, Picks o db r'.compaction mayMove a) ∧ r'.inputVersion = db.current := by
  cases steps_of_step hstep with
  | compactMemTable m hm =>
    refine Or.inl ⟨r', ?_, rfl, rfl⟩
    rw [DB.compactMemTable] at hr'
    split at hr' <;> exact hr'
  | @start a c mayMove hrun hpick =>
    rcases db.startCompaction_cases o c mayMove with ⟨f, -, -, -, heq⟩ | heq
    · rw [heq, hrun] at hr'
      cases hr'
    · rw [heq, Option.some.injEq] at hr'
      subst hr'
      exact Or.inr ⟨⟨mayMove, hpick⟩, rfl⟩
  | openOutput r hr =>
    rw [Option.some.injEq] at hr'
    exact Or.inl ⟨r, hr, by rw [← hr'], by rw [← hr']⟩
  | installResults r hr hlen =>
    rw [DB.installResults_running] at hr'
    cases hr'
  | _ => exact Or.inl ⟨r', hr', rfl, rfl⟩

/-! ## Automatic compactions leave no hole -/

/-- **Installing a compaction without holes and without tombstones is sound.** -/
theorem sound_of_covers (hi : Inv db h) {r : Running} (hr : db.running = some r)
    (hlen : r.outputNumbers.length = ((db.job r).doCompactionWork o).length)
    (hcov : Covers r.compaction.inputs)
    (hdels : (db.job r).rangeDels = []) :
    FallbackOrdered (db.job r)
      ∧ ∀ l, 0 < l → DisjointFiles ((db.installResults o r).current.files l) := by
  have hro := hi.running r hr
  have hin := installed hi hr hlen
  have hnil : (db.job r).dels = [] := sortedDels_eq_nil.mpr hdels
  have hfb : FallbackOrdered (db.job r) := by
    intro _ p hp
    rw [hnil] at hp
    cases hp
  refine ⟨hfb, disjoint_install hi hr hin hfb ?_⟩
  intro g hg hgn f hf
  obtain ⟨seg, -, -, hsk, -, hpc⟩ := hin.piece f hf
  have hsrc : ∀ e ∈ seg, ∃ x ∈ r.compaction.inputs,
      x.smallest ≤ e.key ∧ e.key.userKey ≤ x.largest.userKey := by
    intro e he
    obtain ⟨x, hx, hex⟩ := mem_merged.mp ((kept_sublist _).subset (hsk e he))
    obtain ⟨l, -, hl⟩ := inputs_mem hro.closed hro.grown hx
    exact ⟨x, hx, (hi.version.file l x hl).lower e hex, (hi.version.file l x hl).upper e hex⟩
  -- without tombstones both bounds are keys of entries
  obtain ⟨b, hb, hbk⟩ : ∃ b ∈ seg, b.key = f.largest := by
    rcases hpc.hi_mem with hb | ⟨k, hmax, -⟩
    · exact hb
    · rw [hnil] at hmax
      cases hmax
  obtain ⟨a, ha, hak⟩ := hpc.lo_mem (List.ne_nil_of_mem hb)
  obtain ⟨x, hx, hxa, -⟩ := hsrc a ha
  obtain ⟨y, hy, -, hyb⟩ := hsrc b hb
  rw [← hbk, ← hak]
  by_cases h0 : g ∈ r.inputVersion.files (r.compaction.level + 1)
  · rcases hro.closed.beside g h0 hgn with hleft | ⟨hr0, hr1⟩
    · exact Or.inl (InternalKey.lt_of_userKey_lt (lt_of_le_of_lt hyb (hleft y hy)))
    · right
      rcases List.mem_append.mp hx with hx0 | hx1
      · exact lt_of_lt_of_le (InternalKey.lt_of_userKey_lt (hr0 x hx0)) hxa
      · exact lt_of_lt_of_le (hr1 x hx1) hxa
  · -- a flush since: if it met the output, it would meet the input over a common key
    have hnot : ∀ c ∈ r.compaction.inputs, ¬ Meets g c := by
      intro c hc
      rcases List.mem_append.mp hc with hc | hc
      · exact hro.grown.apart _ (Nat.succ_pos _) g hg h0 _ (Nat.le_succ _) c
          (hro.closed.run0.sub c hc)
      · exact hro.grown.apart _ (Nat.succ_pos _) g hg h0 _ (le_refl _) c
          (hro.closed.run1.sub c hc)
    have hgo := (hi.version.file _ g hg).ordered.userKey_le
    by_contra hmeet
    rw [not_or] at hmeet
    have h1 : g.smallest.userKey ≤ b.key.userKey := by
      by_contra hc
      exact hmeet.1 (InternalKey.lt_of_userKey_lt (lt_of_not_ge hc))
    have h2 : a.key.userKey ≤ g.largest.userKey := by
      by_contra hc
      exact hmeet.2 (InternalKey.lt_of_userKey_lt (lt_of_not_ge hc))
    have hab : a.key.userKey ≤ b.key.userKey :=
      le_trans (InternalKey.userKey_le (hak ▸ hpc.lo_le b hb)) (le_refl _)
    obtain ⟨c, hc, hck⟩ := hcov (max a.key.userKey g.smallest.userKey)
      ⟨x, hx, le_trans (InternalKey.userKey_le hxa) (le_max_left _ _)⟩
      ⟨y, hy, le_trans (max_le hab h1) hyb⟩
    obtain ⟨hc1, hc2⟩ := FileMetaData.holds_iff.mp hck
    exact hnot c hc ⟨le_trans (le_max_right _ _) hc2, le_trans hc1 (max_le h2 hgo)⟩

/-! ## Runs -/

/-- What such runs keep besides the structural invariant. -/
structure PointInv (db : DB) (h : List Op) : Prop where
  inv : Inv db h
  points : ∀ op ∈ h, isPointOp op = true
  covers : ∀ r ∈ db.running, Covers (r.compaction.inputs0 ++ r.compaction.inputs1)

/-- Without a committed range deletion no table holds one. -/
theorem PointInv.rangeDels (hp : PointInv db h) {r : Running} (hr : db.running = some r) :
    (db.job r).rangeDels = [] := by
  have hro := hp.inv.running r hr
  refine List.eq_nil_iff_forall_not_mem.mpr fun d hd => ?_
  obtain ⟨x, hx, hdx⟩ := List.mem_flatMap.mp hd
  obtain ⟨l, -, hl⟩ := inputs_mem hro.closed hro.grown hx
  obtain ⟨i, a, b, hi, -⟩ := (hp.inv.version.file l x hl).dels d hdx
  exact Bool.false_ne_true (hp.points _ (List.mem_of_getElem? hi))

theorem pointInv_step {db' : DB} {a : Action} (hp : PointInv db h) (ha : PointRun db a)
    (hstep : step o db a = some db') :
    PointInv db' (h ++ a.ops) where
  inv := by
    refine inv_step hp.inv ?_ hstep
    rintro rfl r hr
    obtain ⟨r', hr', hlen, -⟩ := step_installResults hstep
    rw [hr', Option.mem_def, Option.some.injEq] at hr
    subst hr
    exact sound_of_covers hp.inv hr' hlen (hp.covers r' hr') (hp.rangeDels hr')
  points op hop := by
    rcases List.mem_append.mp hop with hop | hop
    · exact hp.points op hop
    · cases a with
      | write batch => exact ha op hop
      | _ => cases hop
  covers r' hr' := by
    rcases running_step hstep hr' with ⟨r, hr, hc, -⟩ | ⟨⟨mayMove, hpick⟩, -⟩
    · rw [hc]
      exact hp.covers r hr
    · cases a with
      | autoCompaction t => exact pickCompaction_covers hp.inv.version.pickable hpick.1
      | manualCompaction level b e forceFull => exact absurd ha id
      | _ => exact absurd hpick id

theorem pointInv_reach (hreach : Reach o PointRun db h) : PointInv db h := by
  induction hreach with
  | init =>
    exact ⟨inv_init, nofun, nofun⟩
  | step _ ha hstep ih => exact pointInv_step ih ha hstep

/-- **Recency order**: in every state of a run of point writes and automatic
    compactions, the entries of a user key get older from `mem_` to `imm_` to the
    tables, among level-0 files with falling file numbers, and level by level. -/
theorem recency_order {o : Options} {db : DB} {h : List Op} (hreach : Reach o PointRun db h)
    (k : Slice) :
    (∀ m ∈ db.imm, ∀ e ∈ db.mem.table, ∀ e' ∈ m.table, e.key.userKey = k →
        e'.key.userKey = k → e'.key.sequence < e.key.sequence)
    ∧ (∀ m ∈ db.mem :: db.imm.toList, ∀ l, ∀ f ∈ db.current.files l, ∀ e ∈ m.table,
        ∀ e' ∈ (db.tables f.number).entries, e.key.userKey = k → e'.key.userKey = k →
        e'.key.sequence < e.key.sequence)
    ∧ (∀ f ∈ db.current.files 0, ∀ g ∈ db.current.files 0, g.number < f.number →
        ∀ e ∈ (db.tables f.number).entries, ∀ e' ∈ (db.tables g.number).entries,
        e.key.userKey = k → e'.key.userKey = k → e'.key.sequence < e.key.sequence)
    ∧ (∀ i j, i < j → ∀ f ∈ db.current.files i, ∀ g ∈ db.current.files j,
        ∀ e ∈ (db.tables f.number).entries, ∀ e' ∈ (db.tables g.number).entries,
        e.key.userKey = k → e'.key.userKey = k → e'.key.sequence < e.key.sequence) := by
  have hi := (pointInv_reach hreach).inv
  obtain ⟨n₁, n₂, -, hw⟩ := hi.windows
  refine ⟨?_, ?_, ?_, ?_⟩
  · intro m hm e he e' he' _ _
    exact Nat.lt_of_le_of_lt (hw.imm m hm e' he').2 (hw.mem e he)
  · intro m hm l f hf e he e' he' _ _
    have h1 := hw.tables l f hf e' he'
    rcases List.mem_cons.mp hm with rfl | hm
    · have h2 := hw.mem e he
      have h3 := hw.le
      omega
    · have h2 := (hw.imm m (Option.mem_toList.mp hm) e he).1
      omega
  · intro f hf g hg hlt e he e' he' hk hk'
    exact hi.version.recent0 f hf g hg hlt e he e' he' (hk.trans hk'.symm)
  · intro i j hij f hf g hg e he e' he' hk hk'
    exact hi.version.recent i j hij f hf g hg e he e' he' (hk.trans hk'.symm)

/-- A run with a flush in the middle of an automatic compaction, and with
    versions of one key in `mem_`, `imm_` and two levels at its end. -/
def recencyRun : List Action :=
  flushOf [.put [97] [1]] ++ flushOf [.put [97] [2]] ++ [.getSnapshot]
    ++ [.autoCompaction (.size 1)] ++ flushOf [.put [98] [3]] ++ [.openOutput, .installResults]
    ++ flushOf [.put [97] [4]] ++ [.write [.delete [97]], .switchMemTable, .write [.put [97] [5]]]

theorem recency_order_recencyRun :
    ∃ db h, Reach sampleOptions PointRun db h ∧ (db.current.files 1).length = 1
      ∧ (db.current.files 2).length = 2
      ∧ ∀ i j, i < j → ∀ f ∈ db.current.files i, ∀ g ∈ db.current.files j,
          ∀ e ∈ (db.tables f.number).entries, ∀ e' ∈ (db.tables g.number).entries,
          e.key.userKey = [97] → e'.key.userKey = [97] →
          e'.key.sequence < e.key.sequence := by
  have hrun : (run sampleOptions PointRun DB.init recencyRun).any (fun db =>
      (db.current.files 1).length = 1 ∧ (db.current.files 2).length = 2) = true := by
    decide +kernel
  obtain ⟨db, hreach, hlen⟩ := reach_of_run hrun
  obtain ⟨h1, h2⟩ := hlen
  exact ⟨db, _, hreach, h1, h2, (recency_order hreach [97]).2.2.2⟩

end LdbRecency
