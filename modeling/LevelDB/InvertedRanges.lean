import LevelDB.Run

/-! # Empty and inverted range deletions

    `DBImpl::DeleteRange` refuses a range that does not end behind its start;
    `WriteBatch::DeleteRange` does not.  Such a tombstone covers no key, and the
    bounds of a flushed file and of a compaction output with a surviving entry stay in
    order.  The output written when nothing survives takes its bounds from the
    tombstones alone, and is recorded with its bounds the wrong way round when every
    range of the compaction ends before the smallest start. -/

namespace LdbInverted

open LdbFormat LdbVersion LdbTable LdbWork LdbOutputs LdbDb LdbCore LdbSteps LdbRun

/-! ## What a tombstone hides -/

/-- **A range that does not end behind its start covers nothing.** -/
theorem covers_of_inverted {d : RangeDeletion} (h : d.endKey ≤ d.startKey) (k : Slice) :
    d.covers k = false := by
  rw [Bool.eq_false_iff, ne_eq, RangeDeletion.covers_iff]
  rintro ⟨hstart, hend⟩
  exact absurd (lt_of_le_of_lt hstart hend) (not_lt_of_ge h)

theorem isDeleted_of_inverted {d : RangeDeletion} (h : d.endKey ≤ d.startKey)
    (before after : List RangeDeletion) (k : Slice) (q s : Nat) :
    isDeleted (before ++ d :: after) k q s = isDeleted (before ++ after) k q s := by
  rw [isDeleted, isDeleted, List.any_append, List.any_append, List.any_cons,
    covers_of_inverted h, Bool.false_and, Bool.false_or]

/-! ## Outputs with an entry -/

/-- The bounds of an output that has an entry are in order, in whatever order its
    entries came. -/
def BoundsOrdered (out : Output) : Prop :=
  ∃ lo hi, out.smallest = some lo ∧ out.largest = some hi
    ∧ (lo = hi ∨ lo.userKey < hi.userKey)

variable {out : Output}

theorem boundsOrdered_first (h : out.smallest = none ∧ out.largest = none)
    (e : Entry) : BoundsOrdered (out.addPoint e) := by
  refine ⟨e.key, e.key, ?_, ?_, Or.inl rfl⟩
  · simp only [Output.addPoint, h.1]
  · simp only [Output.addPoint, h.2]

theorem BoundsOrdered.addPoint (h : BoundsOrdered out) (e : Entry) :
    BoundsOrdered (out.addPoint e) := by
  obtain ⟨lo, hi, hlo, hhi, hor⟩ := h
  have hle : lo.userKey ≤ hi.userKey := by
    rcases hor with rfl | hlt
    · exact le_refl _
    · exact le_of_lt hlt
  refine ⟨if e.key.userKey < lo.userKey then e.key else lo,
    if hi.userKey < e.key.userKey then e.key else hi, ?_, ?_, ?_⟩
  · simp only [Output.addPoint, hlo]
    split_ifs
    · rfl
    · rfl
  · simp only [Output.addPoint, hhi]
    split_ifs
    · rfl
    · rfl
  · split_ifs with hlow hhigh hhigh
    · exact Or.inl rfl
    · exact Or.inr (lt_of_lt_of_le hlow hle)
    · exact Or.inr (lt_of_le_of_lt hle hhigh)
    · exact hor

/-- **An output with an entry has its bounds in order.** -/
theorem outputOf_ordered (dels : List RangeDeletion) (seg : List Entry) :
    seg ≠ [] → BoundsOrdered (outputOf dels seg) := by
  induction seg using List.reverseRecOn with
  | nil => exact fun hne => absurd rfl hne
  | append_singleton seg e ih =>
    intro _
    rw [outputOf_snoc]
    by_cases hnil : seg = []
    · rw [hnil]
      exact boundsOrdered_first ⟨rfl, rfl⟩ e
    · exact (ih hnil).addPoint e

theorem BoundsOrdered.stretch (h : BoundsOrdered out) (dels : List RangeDeletion) :
    BoundsOrdered (out.stretch dels) := by
  obtain ⟨lo, hi, hlo, hhi, hor⟩ := h
  have hle : lo.userKey ≤ hi.userKey := by
    rcases hor with rfl | hlt
    · exact le_refl _
    · exact le_of_lt hlt
  rw [Output.stretch]
  cases maxEnd dels with
  | none => exact ⟨lo, hi, hlo, hhi, hor⟩
  | some k =>
    simp only [hhi]
    split_ifs with hlt
    · exact ⟨lo, ⟨k, 0, .deletion⟩, hlo, rfl, Or.inr (lt_of_le_of_lt hle hlt)⟩
    · exact ⟨lo, hi, hlo, hhi, hor⟩

theorem BoundsOrdered.file (h : BoundsOrdered out) (o : Options) (number : Nat) :
    (outputFile o out number).Ordered := by
  obtain ⟨lo, hi, hlo, hhi, hor⟩ := h
  show out.smallest.getD _ ≤ out.largest.getD _
  rw [hlo, hhi, Option.getD_some, Option.getD_some]
  rcases hor with rfl | hlt
  · exact le_refl _
  · exact le_of_lt (InternalKey.lt_of_userKey_lt hlt)

/-! ## The output without an entry -/

/-- The fallback output is in order just when its tombstones do not all end before the
    smallest start. -/
theorem fallbackOutput_ordered_iff (o : Options) (dels : List RangeDeletion) :
    (∀ out ∈ fallbackOutput dels, ∀ number, (outputFile o out number).Ordered) ↔
      ∀ p ∈ minStart dels, ∀ e ∈ maxEnd dels, p.1 ≤ e := by
  rw [fallbackOutput]
  rcases minStart dels with _ | ⟨k, seq⟩
  · refine ⟨fun _ p hp => ?_, fun _ => List.forall_mem_nil _⟩
    cases hp
  · cases maxEnd dels with
    | none =>
      refine ⟨fun _ p _ e he => ?_, fun _ => List.forall_mem_nil _⟩
      cases he
    | some e =>
      constructor
      · rintro h p hp e' he'
        cases hp
        cases he'
        exact InternalKey.userKey_le (h _ (List.mem_singleton_self _) 0)
      · intro h out hout number
        rw [List.mem_singleton.mp hout]
        exact InternalKey.le_zero_deletion (h (k, seq) rfl e rfl)

/-- **The outputs of a compaction are in order just when its fallback is.** -/
theorem doCompactionWork_ordered_iff (j : Job) (o : Options) :
    (∀ out ∈ j.doCompactionWork o, ∀ number, (outputFile o out number).Ordered) ↔
      FallbackOrdered j := by
  rw [doCompactionWork_eq, FallbackOrdered, segments_nil_iff j o]
  constructor
  · intro h hnil
    exact (fallbackOutput_ordered_iff o j.dels).mp fun out hout =>
      h out (mem_outputsOf.mpr (Or.inl ⟨hnil, hout⟩))
  · intro h out hout
    rcases mem_outputsOf.mp hout with ⟨hnil, hout⟩ | ⟨seg, hseg, rfl⟩ | ⟨hcur, rfl⟩
    · exact (fallbackOutput_ordered_iff o j.dels).mpr (h hnil) out hout
    · exact (outputOf_ordered j.dels seg (segments_ne_nil j o seg hseg)).file o
    · exact ((outputOf_ordered j.dels _ hcur).stretch j.dels).file o

/-! ## Recorded files -/

/-- The files a step records: the one of `WriteLevel0Table`, or the outputs of
    `DoCompactionWork`. -/
def recorded (o : Options) (db : DB) : Action → List FileMetaData
  | .compactMemTable =>
    ((db.imm.bind (writeLevel0Table o db.current db.nextFileNumber)).map (·.1)).toList
  | .installResults => (db.running.map (db.outputFiles o)).getD []
  | _ => []

/-- The files recorded by a sequence of steps. -/
def recordedIn (o : Options) : DB → List Action → List FileMetaData
  | _, [] => []
  | db, a :: rest =>
    recorded o db a ++
      match step o db a with
      | none => []
      | some db' => recordedIn o db' rest

/-- A compaction that is installed with nothing left but tombstones has a range that
    ends no earlier than the smallest start. -/
def OrderedInstall (db : DB) (a : Action) : Prop :=
  a = .installResults → ∀ r ∈ db.running, FallbackOrdered (db.job r)

instance instDecidableOrderedInstall (db : DB) (a : Action) : Decidable (OrderedInstall db a) :=
  inferInstanceAs (Decidable (_ → _))

/-- **A flushed file has its bounds in order.** -/
theorem writeLevel0Table_ordered {o : Options} {base : Version} {number : Nat} {m : MemTable}
    (hs : Sorted m.table) {f : FileMetaData} {t : Table} {level : Nat}
    (hw : writeLevel0Table o base number m = some (f, t, level)) : f.Ordered := by
  obtain ⟨hflushed, -⟩ := writeLevel0Table_spec hs hw
  obtain ⟨e, he⟩ := List.exists_mem_of_ne_nil _ hflushed.nonempty
  exact le_trans (hflushed.lower e he) (hflushed.upper e he)

/-- **A step records files in order just when it meets the condition**, in every state
    of every run. -/
theorem recorded_ordered_iff {o : Options} {db db' : DB} {h : List Op} {a : Action}
    (hcore : Core db h) (hstep : step o db a = some db') :
    (∀ f ∈ recorded o db a, f.Ordered) ↔ OrderedInstall db a := by
  have hnone : ∀ {a : Action}, a ≠ .installResults → OrderedInstall db a :=
    fun hne heq => absurd heq hne
  cases a with
  | compactMemTable =>
    refine ⟨fun _ => hnone (by simp), fun _ f hf => ?_⟩
    obtain ⟨⟨g, t, level⟩, hw, rfl⟩ := Option.map_eq_some_iff.mp (Option.mem_toList.mp hf)
    obtain ⟨m, hm, hw⟩ := Option.bind_eq_some_iff.mp hw
    exact writeLevel0Table_ordered (hcore.imm m hm).sorted hw
  | installResults =>
    obtain ⟨r, hr, hlen, -⟩ := step_installResults hstep
    have hfiles : recorded o db .installResults = db.outputFiles o r := by
      rw [recorded, hr]
      rfl
    have hcond : OrderedInstall db .installResults ↔ FallbackOrdered (db.job r) := by
      constructor
      · intro h
        exact h rfl r hr
      · intro h _ r' hr'
        rw [hr, Option.mem_def, Option.some.injEq] at hr'
        exact hr' ▸ h
    rw [hfiles, hcond, ← doCompactionWork_ordered_iff _ o]
    constructor
    · intro hall out hout number
      -- the order of the bounds does not depend on the number
      obtain ⟨i, hi, rfl⟩ := List.mem_iff_getElem.mp hout
      have hmem : (((db.job r).doCompactionWork o)[i], r.outputNumbers[i]) ∈ db.outputs o r := by
        rw [DB.outputs, List.mem_iff_getElem]
        exact ⟨i, by rw [List.length_zip]; omega, List.getElem_zip⟩
      have hfile : (outputFile o ((db.job r).doCompactionWork o)[i] r.outputNumbers[i]).Ordered :=
        hall _ (List.mem_map_of_mem hmem)
      exact hfile
    · intro hall f hf
      obtain ⟨p, hp, rfl⟩ := List.mem_map.mp hf
      exact hall p.1 (List.of_mem_zip hp).1 p.2
  | _ => exact ⟨fun _ => hnone (by simp), fun _ => nofun⟩

/-- The files of a run, from any state of a run. -/
theorem recordedIn_ordered_iff {o : Options} (as : List Action) :
    ∀ {db : DB} {h : List Op}, Core db h → (run o (fun _ _ => True) db as).isSome = true →
      ((∀ f ∈ recordedIn o db as, f.Ordered) ↔ (run o OrderedInstall db as).isSome = true) := by
  induction as with
  | nil => exact fun _ _ => ⟨fun _ => rfl, fun _ => nofun⟩
  | cons a rest ih =>
    intro db h hcore hrun
    rw [run, if_pos trivial] at hrun
    rw [recordedIn, run]
    cases hstep : step o db a with
    | none =>
      rw [hstep] at hrun
      cases hrun
    | some db' =>
      rw [hstep] at hrun
      have hrest := ih (core_step hcore hstep) hrun
      have hhead := recorded_ordered_iff hcore hstep
      by_cases hord : OrderedInstall db a
      · rw [if_pos hord]
        simp only
        rw [← hrest]
        constructor
        · exact fun hall f hf => hall f (List.mem_append_right _ hf)
        · intro hall f hf
          rcases List.mem_append.mp hf with hf | hf
          · exact hhead.mpr hord f hf
          · exact hall f hf
      · rw [if_neg hord]
        refine ⟨fun hall => absurd (hhead.mp fun f hf => ?_) hord, Bool.noConfusion⟩
        exact hall f (List.mem_append_left _ hf)

/-- **Inverted ranges and recorded files.**  All files recorded in a run have their
    bounds in order just when each of its installs meets the condition; a range that
    does not end behind its start never hides a key. -/
theorem ranges_and_metadata (o : Options) (as : List Action)
    (hrun : (run o (fun _ _ => True) DB.init as).isSome = true) :
    ((∀ f ∈ recordedIn o DB.init as, f.Ordered) ↔
        (run o OrderedInstall DB.init as).isSome = true)
      ∧ ∀ d : RangeDeletion, d.endKey ≤ d.startKey → ∀ before after k q s,
          isDeleted (before ++ d :: after) k q s = isDeleted (before ++ after) k q s :=
  ⟨recordedIn_ordered_iff as core_init hrun, fun _ h => isDeleted_of_inverted h⟩

/-- A `Put` and an inverted range, and a compaction that keeps the `Put`. -/
def keptRun : List Action :=
  flushOf [.put [97] [1], .deleteRange [122] [98]]
    ++ [.manualCompaction 2 none none false, .openOutput, .installResults]

theorem ranges_and_metadata_keptRun :
    (run sampleOptions (fun _ _ => True) DB.init keptRun).isSome = true
      ∧ ∀ f ∈ recordedIn sampleOptions DB.init keptRun, f.Ordered := by
  have hrun : (run sampleOptions (fun _ _ => True) DB.init keptRun).isSome = true := by
    decide +kernel
  refine ⟨hrun, (ranges_and_metadata sampleOptions keptRun hrun).1.mpr ?_⟩
  decide +kernel

/-- Two batches with nothing but an inverted range, each flushed, and a manual
    compaction of both. -/
def invertedRun : List Action :=
  flushOf [.deleteRange [122] [98]] ++ flushOf [.deleteRange [122] [98]]
    ++ [.manualCompaction 1 none none false, .openOutput, .installResults]

/-- **The compaction of an inverted range records a file with its bounds the wrong way
    round.** -/
theorem invertedRun_records :
    (run sampleOptions (fun _ _ => True) DB.init invertedRun).isSome = true
      ∧ ∃ f ∈ recordedIn sampleOptions DB.init invertedRun,
          f.smallest = ⟨[122], 2, .rangeDeletion⟩ ∧ f.largest = ⟨[98], 0, .deletion⟩
            ∧ ¬ f.Ordered := by
  decide +kernel

end LdbInverted
