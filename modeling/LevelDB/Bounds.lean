import LevelDB.Disjoint

/-! # Recorded bounds and the entries of a file

    `FindFile`, `LevelFileNumIterator` and `VersionEdit::AddFile` take the
    recorded bounds of a file to contain its entries in internal-key order.
    Flushes keep to that.  A compaction does unless an output ends with several
    versions of its last user key: `largest` then stays at the newest of them
    (`outputOf_contains_iff`), except when the tombstones push it further. -/

namespace LdbBounds

open LdbFormat LdbVersion LdbTable LdbDrop LdbWork LdbOutputs LdbDb LdbSteps LdbRun LdbDisjoint

/-- Every entry lies between the bounds of the file, in internal-key order. -/
def Contains (f : FileMetaData) (t : Table) : Prop :=
  ∀ e ∈ t.entries, f.smallest ≤ e.key ∧ e.key ≤ f.largest

/-! ## One output -/

/-- The last user key of a segment occurs in it once. -/
def LastKeyOnce (seg : List Entry) : Prop :=
  ∀ b ∈ seg.getLast?, ∀ e ∈ seg, e.key.userKey = b.key.userKey → e = b

instance (seg : List Entry) : Decidable (LastKeyOnce seg) :=
  inferInstanceAs (Decidable (∀ b ∈ seg.getLast?, _))

/-- **When the bounds of an unstretched output contain its entries**: exactly when
    its last user key occurs once. -/
theorem outputOf_contains_iff {dels : List RangeDeletion} {seg : List Entry} (hs : Sorted seg)
    (hne : seg ≠ []) :
    (∀ hi ∈ (outputOf dels seg).largest, ∀ e ∈ seg, e.key ≤ hi) ↔ LastKeyOnce seg := by
  obtain ⟨lo, hi, -, hhi, hb⟩ := outputOf_bounds dels seg hs hne
  rw [hhi]
  simp only [Option.mem_def, Option.some.injEq, forall_eq']
  constructor
  · intro hall b hlast e he hk
    obtain ⟨hbm, hbk, hle⟩ := hb.last hs hlast
    -- both are at or after `largest`, which is at or after both
    have h1 : e.key = hi := le_antisymm (hall e he) (hb.hi_le e he (hk.trans hbk))
    have h2 : b.key = hi := le_antisymm (hall b hbm) (hb.hi_le b hbm hbk)
    rcases OrderedLists.pairwise_trichotomy hs he hbm with h | h | h
    · exact h
    · exact absurd (h1.trans h2.symm) (ne_of_lt h)
    · exact absurd (h2.trans h1.symm) (ne_of_lt h)
  · intro honce e he
    obtain ⟨b, hlast⟩ : ∃ b, seg.getLast? = some b := by
      cases hg : seg.getLast? with
      | none => exact absurd (List.getLast?_eq_none_iff.mp hg) hne
      | some b => exact ⟨b, rfl⟩
    obtain ⟨hbm, hbk, hle⟩ := hb.last hs hlast
    obtain ⟨x, hx, hxk⟩ := hb.hi_mem
    have hxb : x = b := honce b hlast x hx (by rw [hxk, hbk])
    rw [← hxk, hxb]
    exact hle e he

/-- No output of the compaction ends with several versions of its last user key,
    unless it is the last one and the tombstones reach beyond that key. -/
def Untorn (j : Job) (o : Options) : Prop :=
  (∀ seg ∈ (j.segments o).1, LastKeyOnce seg)
    ∧ (LastKeyOnce (j.segments o).2
      ∨ ∃ k ∈ maxEnd j.dels, ∀ e ∈ (j.segments o).2, e.key.userKey < k)

instance (j : Job) (o : Options) : Decidable (Untorn j o) :=
  inferInstanceAs (Decidable (_ ∧ _))

variable {o : Options} {db : DB} {h : List Op}

/-- The outputs of an untorn compaction contain their entries. -/
theorem untorn_contains {j : Job} (hs : Sorted j.merged) (hu : Untorn j o) :
    ∀ out ∈ j.doCompactionWork o, ∀ hi ∈ out.largest,
      ∀ e ∈ out.adds, e.isPoint = true → e.key ≤ hi := by
  obtain ⟨hs1, hs2, -⟩ := List.pairwise_append.mp (segments_sorted hs o)
  have htomb : ∀ {seg : List Entry} {e : Entry},
      e ∈ j.dels.map tombstoneEntry ++ seg → e.isPoint = true → e ∈ seg := by
    intro seg e he hp
    rcases List.mem_append.mp he with he | he
    · obtain ⟨d, -, rfl⟩ := List.mem_map.mp he
      cases hp
    · exact he
  have hclosed : ∀ seg ∈ (j.segments o).1, ∀ hi ∈ (outputOf j.dels seg).largest,
      ∀ e ∈ (outputOf j.dels seg).adds, e.isPoint = true → e.key ≤ hi := by
    intro seg hseg hi hhi e he hp
    rw [outputOf_adds] at he
    exact (outputOf_contains_iff ((List.pairwise_flatten.mp hs1).1 seg hseg)
      (segments_ne_nil j o seg hseg)).mpr (hu.1 seg hseg) hi hhi e (htomb he hp)
  intro out hout hi hhi e he hp
  rw [doCompactionWork_eq] at hout
  rcases mem_outputsOf.mp hout with ⟨-, hout⟩ | ⟨seg, hseg, rfl⟩ | ⟨h2, rfl⟩
  · -- the fallback holds no entries
    obtain ⟨lo, hi', -, -, hadds, -⟩ := fallback_isPiece hout
    rw [hadds] at he
    exact absurd (htomb he hp) List.not_mem_nil
  · exact hclosed seg hseg hi hhi e he hp
  · rw [stretch_adds, outputOf_adds] at he
    have hes := htomb he hp
    obtain ⟨lo, hi₀, -, hhi₀, hb⟩ := outputOf_bounds j.dels _ hs2 h2
    rw [stretch_largest hhi₀, Option.mem_def, Option.some.injEq] at hhi
    rw [← hhi]
    cases hm : maxEnd j.dels with
    | none =>
      rcases hu.2 with honce | ⟨k, hk, -⟩
      · exact (outputOf_contains_iff hs2 h2).mpr honce hi₀ hhi₀ e hes
      · rw [hm] at hk
        cases hk
    | some k =>
      simp only
      split_ifs with hlt
      · exact le_of_lt (InternalKey.lt_of_userKey_lt (lt_of_le_of_lt (hb.hi_ge e hes) hlt))
      · rcases hu.2 with honce | ⟨k', hk', hbeyond⟩
        · exact (outputOf_contains_iff hs2 h2).mpr honce hi₀ hhi₀ e hes
        · rw [hm, Option.mem_def, Option.some.injEq] at hk'
          obtain ⟨x, hx, hxk⟩ := hb.hi_mem
          exact absurd (hxk ▸ hk' ▸ hbeyond x hx) hlt

/-! ## Runs -/

/-- Every installed compaction passes the check of `SaveTo`, writes no fallback
    with its bounds the wrong way round, and is untorn. -/
def UntornInstalls (o : Options) (db : DB) (a : Action) : Prop :=
  CheckedInstalls o db a
    ∧ (a = .installResults → ∀ r ∈ db.running, Untorn (db.job r) o)

instance (o : Options) (db : DB) (a : Action) : Decidable (UntornInstalls o db a) :=
  inferInstanceAs (Decidable (_ ∧ _))

theorem soundInstall_of_untorn {db' : DB} {a : Action} (hi : Inv db h) (hp : UntornInstalls o db a)
    (hstep : step o db a = some db') :
    SoundInstall o db a :=
  soundInstall_of_checked hi hp.1 hstep

/-- The output files of an untorn compaction contain their entries. -/
theorem installed_contains {r : Running} (hi : Inv db h) (hr : db.running = some r)
    (hin : Installed o db r) (hu : Untorn (db.job r) o) :
    ∀ f ∈ db.outputFiles o r, Contains f ((db.installResults o r).tables f.number) := by
  intro f hf
  obtain ⟨seg, ht, -, -, -, hpc⟩ := hin.piece f hf
  obtain ⟨out, hout, -, hhi, hto⟩ := hin.output f hf
  intro e he
  refine ⟨hpc.lo_le e (by rwa [ht] at he), ?_⟩
  rw [hto, tableOfAdds] at he
  obtain ⟨hea, hep⟩ := List.mem_filter.mp he
  exact untorn_contains (hi.merged_sorted hr) hu out hout f.largest hhi e hea hep

/-- Every file of the current version contains its entries. -/
def AllContain (db : DB) : Prop :=
  ∀ l, ∀ f ∈ db.current.files l, Contains f (db.tables f.number)

/-- A step keeps every file's bounds around its entries, unless it installs a torn
    compaction. -/
theorem allContain_step {db' : DB} {a : Action} (hi : Inv db h) (hall : AllContain db)
    (hp : UntornInstalls o db a) (hstep : step o db a = some db') : AllContain db' := by
  intro l f hf
  rcases files_step hi hstep hf with ⟨l', -, hf', ht⟩ | ⟨m, -, hfl⟩ |
    ⟨r, rfl, hrun, rfl, hin, hfo, -⟩
  · rw [ht]
    exact hall l' f hf'
  · intro e he
    rw [hfl.entries] at he
    have hem := (List.mem_filter.mp he).1
    exact ⟨hfl.lower e hem, hfl.upper e hem⟩
  · exact installed_contains hi hrun hin (hp.2 rfl r hrun) f hfo

theorem allContain_reach {P : DB → Action → Prop} (hP : ∀ {db a}, P db a → UntornInstalls o db a)
    (hreach : Reach o P db h) : AllContain db := by
  induction hreach with
  | init => intro l f hf; cases hf
  | step hr hp hstep ih =>
    exact allContain_step (inv_reach (fun hi hp hs => soundInstall_of_untorn hi (hP hp) hs) hr)
      ih (hP hp) hstep

/-- **Recorded bounds contain every point entry**, in every run whose compactions
    are untorn and pass the check of `SaveTo`. -/
theorem bounds_contain_entries {o : Options} {db : DB} {h : List Op}
    (hreach : Reach o (UntornInstalls o) db h) :
    ∀ l, ∀ f ∈ db.current.files l, ∀ e ∈ (db.tables f.number).entries,
      f.smallest ≤ e.key ∧ e.key ≤ f.largest :=
  allContain_reach id hreach

/-- A compaction that keeps two versions of a key for a snapshot, but not of the
    last key of its output. -/
def untornRun : List Action :=
  flushOf [.put [97] [1], .put [122] [1]] ++ [.getSnapshot] ++ flushOf [.put [97] [2]]
    ++ [.manualCompaction 1 none none false, .openOutput, .installResults]

theorem bounds_contain_entries_untornRun :
    ∃ db, Reach sampleOptions (UntornInstalls sampleOptions) db (opsOf untornRun)
      ∧ (∃ f ∈ db.current.files 2, (db.tables f.number).entries.length = 3)
      ∧ ∀ l, ∀ f ∈ db.current.files l, ∀ e ∈ (db.tables f.number).entries,
          f.smallest ≤ e.key ∧ e.key ≤ f.largest := by
  have hrun : (run sampleOptions (UntornInstalls sampleOptions) DB.init untornRun).any
      (fun db => ∃ f ∈ db.current.files 2, (db.tables f.number).entries.length = 3) = true := by
    decide +kernel
  obtain ⟨db, hreach, hlen⟩ := reach_of_run hrun
  exact ⟨db, hreach, hlen, bounds_contain_entries hreach⟩

/-- Three versions of one key, the oldest held by a snapshot, compacted into one
    file. -/
def tornRun : List Action :=
  [.write [.put [107] [1]], .getSnapshot] ++ flushOf [.put [107] [2]] ++ flushOf [.put [107] [3]]
    ++ [.manualCompaction 1 none none false, .openOutput, .installResults]

/-- **An output ending with several versions of a key** records the newest of them
    as `largest`: the others lie outside its bounds. -/
theorem tornRun_escapes :
    ∃ db h, Reach sampleOptions (fun _ _ => True) db h
      ∧ ∃ f ∈ db.current.files 2, ∃ e ∈ (db.tables f.number).entries,
          ¬ (f.smallest ≤ e.key ∧ e.key ≤ f.largest) := by
  have hrun : (run sampleOptions (fun _ _ => True) DB.init tornRun).any (fun db =>
      ∃ f ∈ db.current.files 2, ∃ e ∈ (db.tables f.number).entries,
        ¬ (f.smallest ≤ e.key ∧ e.key ≤ f.largest)) = true := by
    decide +kernel
  obtain ⟨db, hreach, hesc⟩ := reach_of_run hrun
  exact ⟨db, _, hreach, hesc⟩

end LdbBounds
