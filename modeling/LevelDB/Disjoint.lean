import LevelDB.Run

/-! # Disjoint levels

    When a version installed by `LogAndApply` passes the check at the end of
    `Builder::SaveTo`.  Flushes and trivial moves always do.  A compaction does
    if the files it leaves on its output level are clear of what it writes
    (`Clear`): outputs reach from the first to the last input key, and on to the
    end of the input tombstones. -/

namespace LdbDisjoint

open LdbFormat LdbVersion LdbEdit LdbTable LdbWork LdbOutputs LdbDb LdbSteps LdbRun

/-- Pairwise disjoint levels pass the check of `SaveTo`. -/
theorem saveToChecks_of_disjoint {v : Version} (h : ∀ l, 0 < l → DisjointFiles (v.files l)) :
    saveToChecks v :=
  fun l _ hl => List.Pairwise.isChain (h l hl)

/-- The check of `SaveTo` compares neighbours; with ordered files it separates
    all pairs. -/
theorem disjoint_of_saveToChecks {v : Version} (hord : ∀ l, ∀ f ∈ v.files l, f.Ordered)
    (hdeep : ∀ l, kNumLevels ≤ l → v.files l = []) (h : saveToChecks v) :
    ∀ l, 0 < l → DisjointFiles (v.files l) := by
  intro l hl
  rcases Nat.lt_or_ge l kNumLevels with hlt | hge
  · have htrans : IsTrans FileMetaData fun f g => f.largest < g.smallest ∧ g.Ordered :=
      ⟨fun _ _ _ hab hbc => ⟨lt_trans hab.1 (lt_of_le_of_lt hab.2 hbc.1), hbc.2⟩⟩
    have hchain := (h l hlt hl).imp_of_mem_imp fun f g _ hg hfg => And.intro hfg (hord l g hg)
    exact hchain.pairwise.imp And.left
  · rw [hdeep l hge]
    exact List.Pairwise.nil

/-! ## Installing beside other files -/

variable {h : List Op} {o : Options}

/-- **The new levels are disjoint** if every file left on the output level is
    apart from every output. -/
theorem disjoint_install {db : DB} (hi : Inv db h) {r : Running}
    (hr : db.running = some r) (hin : Installed o db r) (hfb : FallbackOrdered (db.job r))
    (hapart : ∀ g ∈ db.current.files (r.compaction.level + 1), g ∉ r.compaction.inputs1 →
      ∀ f ∈ db.outputFiles o r, f.largest < g.smallest ∨ g.largest < f.smallest) :
    ∀ l, 0 < l → DisjointFiles ((db.installResults o r).current.files l) := by
  intro l hl
  have hfile := hin.fileOK hi hr hfb
  refine disjointFiles_of_sorted (hin.replaces.sorted l) ?_ ?_
  · intro f hf
    rcases (hin.replaces.mem l f).mp hf with ⟨hf, -, -⟩ | ⟨-, hf⟩
    · exact (hi.version.file l f hf).ordered
    · exact (hfile f hf).ordered
  · intro f hf g hg hne
    rcases (hin.replaces.mem l f).mp hf with ⟨hfo, -, hfn⟩ | ⟨rfl, hfo⟩
    · rcases (hin.replaces.mem l g).mp hg with ⟨hgo, -, -⟩ | ⟨rfl, hgo⟩
      · rcases (hi.version.sortedLevel hl).trichotomy hfo hgo with h1 | h1
        · exact absurd h1 hne
        · exact h1
      · exact (hapart f hfo (fun hc => hfn ⟨rfl, hc⟩) g hgo).symm
    · rcases (hin.replaces.mem _ g).mp hg with ⟨hgo, -, hgn⟩ | ⟨-, hgo⟩
      · exact hapart g hgo (fun hc => hgn ⟨rfl, hc⟩) f hfo
      · rcases hin.order f hfo g hgo hne with h1 | h1
        · exact Or.inl h1.1
        · exact Or.inr h1.1

/-- A file on the output level is clear of what a compaction writes.  If some
    entry survives: it lies before all inputs, or after all of them and after the
    end of every input tombstone.  If none does: it lies outside the hull of the
    tombstones, which the fallback output covers. -/
def Clear (j : Job) (g : FileMetaData) : Prop :=
  if j.kept = [] then
    ∀ p ∈ minStart j.dels, ∀ e ∈ maxEnd j.dels,
      g.largest < ⟨p.1, p.2, .rangeDeletion⟩ ∨ (⟨e, 0, .deletion⟩ : InternalKey) < g.smallest
  else
    (∀ x ∈ j.inputs, g.largest < x.smallest)
      ∨ ((∀ x ∈ j.inputs, x.largest.userKey < g.smallest.userKey)
          ∧ ∀ d ∈ j.rangeDels, (⟨d.endKey, 0, .deletion⟩ : InternalKey) < g.smallest)

instance (j : Job) (g : FileMetaData) : Decidable (Clear j g) := by
  unfold Clear
  infer_instance

/-- A clear file is apart from every output. -/
theorem apart_of_clear {db : DB} (hi : Inv db h) {r : Running}
    (hr : db.running = some r) (hin : Installed o db r) {g : FileMetaData}
    (hclear : Clear (db.job r) g) :
    ∀ f ∈ db.outputFiles o r, f.largest < g.smallest ∨ g.largest < f.smallest := by
  intro f hf
  have hro := hi.running r hr
  obtain ⟨seg, -, -, hsk, hsn, hpc⟩ := hin.piece f hf
  have hsrc : ∀ e ∈ seg, ∃ x ∈ (db.job r).inputs, x.smallest ≤ e.key
      ∧ e.key.userKey ≤ x.largest.userKey := by
    intro e he
    obtain ⟨x, hx, hex⟩ := mem_merged.mp ((kept_sublist _).subset (hsk e he))
    obtain ⟨l, -, hl⟩ := inputs_mem hro.closed hro.grown hx
    exact ⟨x, hx, (hi.version.file l x hl).lower e hex, (hi.version.file l x hl).upper e hex⟩
  rw [Clear] at hclear
  split_ifs at hclear with hk
  · -- nothing survives: the output is the fallback
    have hnil : seg = [] := by
      refine List.eq_nil_iff_forall_not_mem.mpr fun e he => ?_
      have := hsk e he
      rw [hk] at this
      cases this
    obtain ⟨k, q, hmin, hlo⟩ := hpc.fallback hnil
    rcases hpc.hi_mem with ⟨b, hb, -⟩ | ⟨e, hmax, hhi⟩
    · rw [hnil] at hb
      cases hb
    · rw [hlo, hhi]
      exact (hclear (k, q) hmin e hmax).symm
  · have hne : seg ≠ [] := fun hnil => hk (hsn hnil)
    rcases hclear with hleft | ⟨hright, hdels⟩
    · right
      obtain ⟨a, ha, hak⟩ := hpc.lo_mem hne
      obtain ⟨x, hx, hxa, -⟩ := hsrc a ha
      rw [← hak]
      exact lt_of_lt_of_le (hleft x hx) hxa
    · left
      rcases hpc.hi_mem with ⟨b, hb, hbk⟩ | ⟨e, hmax, hhi⟩
      · obtain ⟨x, hx, -, hxb⟩ := hsrc b hb
        rw [← hbk]
        exact InternalKey.lt_of_userKey_lt (lt_of_le_of_lt hxb (hright x hx))
      · obtain ⟨d, hd, rfl⟩ := (maxEnd_spec hmax).2
        rw [hhi]
        exact hdels d (mem_of_mem_sortedDels hd)

/-! ## Runs -/

/-- Every compaction is installed clear of the files it leaves on its output
    level, and its fallback output is in order. -/
def ClearInstalls (db : DB) (a : Action) : Prop :=
  a = .installResults → ∀ r ∈ db.running, FallbackOrdered (db.job r)
    ∧ ∀ g ∈ db.current.files (r.compaction.level + 1), g ∉ r.compaction.inputs1 →
        Clear (db.job r) g

instance (db : DB) (a : Action) : Decidable (ClearInstalls db a) :=
  inferInstanceAs (Decidable (_ → _))

theorem soundInstall_of_clear {db db' : DB} {a : Action}
    (hi : Inv db h) (hp : ClearInstalls db a) (hstep : step o db a = some db') :
    SoundInstall o db a := by
  rintro rfl r hr
  obtain ⟨hfb, hclear⟩ := hp rfl r hr
  obtain ⟨r', hr', hlen, -⟩ := step_installResults hstep
  rw [hr', Option.mem_def, Option.some.injEq] at hr
  subst hr
  have hin := installed hi hr' hlen
  exact ⟨hfb, disjoint_install hi hr' hin hfb fun g hg hgn =>
    apart_of_clear hi hr' hin (hclear g hg hgn)⟩

/-- Every compaction passes the check of `SaveTo` when it is installed, and
    writes no fallback with its bounds the wrong way round. -/
def CheckedInstalls (o : Options) (db : DB) (a : Action) : Prop :=
  a = .installResults → ∀ r ∈ db.running, FallbackOrdered (db.job r)
    ∧ saveToChecks (db.installResults o r).current

instance (o : Options) (db : DB) (a : Action) : Decidable (CheckedInstalls o db a) :=
  inferInstanceAs (Decidable (_ → _))

/-- An install that passes the check of `SaveTo` is sound. -/
theorem soundInstall_of_checked {db db' : DB} {a : Action}
    (hi : Inv db h) (hp : CheckedInstalls o db a) (hstep : step o db a = some db') :
    SoundInstall o db a := by
  rintro rfl r hr
  obtain ⟨hfb, hsave⟩ := hp rfl r hr
  obtain ⟨r', hr', hlen, -⟩ := step_installResults hstep
  rw [hr', Option.mem_def, Option.some.injEq] at hr
  subst hr
  have hin := installed hi hr' hlen
  refine ⟨hfb, disjoint_of_saveToChecks ?_ ?_ hsave⟩
  · intro l f hf
    rcases (hin.replaces.mem l f).mp hf with ⟨hf, -, -⟩ | ⟨-, hf⟩
    · exact (hi.version.file l f hf).ordered
    · exact (hin.fileOK hi hr' hfb f hf).ordered
  · intro l hl
    refine List.eq_nil_iff_forall_not_mem.mpr fun f hf => ?_
    rcases (hin.replaces.mem l f).mp hf with ⟨hf, -, -⟩ | ⟨hl', -⟩
    · rw [hi.version.levels l hl] at hf
      cases hf
    · have := hin.replaces.deep
      omega

/-- **Levels above 0 stay disjoint** in every run whose compactions are installed
    clear of the other files of their output level: files are sorted by their
    smallest keys and the abort in `SaveTo` is unreachable. -/
theorem levels_disjoint {o : Options} {db : DB} {h : List Op}
    (hreach : Reach o ClearInstalls db h) :
    saveToChecks db.current ∧ ∀ l, (db.current.files l).Pairwise bySmallestKey := by
  have hi := inv_reach soundInstall_of_clear hreach
  exact ⟨saveToChecks_of_disjoint hi.version.disjoint, hi.version.sorted⟩

/-- A manual compaction of the first of two files on level 1, with a tombstone. -/
def clearRun : List Action :=
  flushOf [.put [97] [1], .deleteRange [98] [100]] ++ flushOf [.put [122] [1]]
    ++ flushOf [.put [97] [2]] ++ flushOf [.put [122] [2]]
    ++ [.manualCompaction 1 none (some ⟨[98], 0, .value⟩) false, .openOutput, .installResults]

/-- The condition is met by a compaction that carries a tombstone and leaves a
    file beside it. -/
theorem levels_disjoint_clearRun :
    ∃ db, Reach sampleOptions ClearInstalls db (opsOf clearRun)
      ∧ (db.current.files 2).length = 2
      ∧ saveToChecks db.current ∧ ∀ l, (db.current.files l).Pairwise bySmallestKey := by
  have hrun : (run sampleOptions ClearInstalls DB.init clearRun).any
      (fun db => (db.current.files 2).length = 2) = true := by
    decide +kernel
  obtain ⟨db, hreach, hlen⟩ := reach_of_run hrun
  exact ⟨db, hreach, hlen, levels_disjoint hreach⟩

/-- Two files on level 1 are compacted into level 2 by one manual compaction;
    while it runs, a memtable between them is flushed to level 2. -/
def gapRun : List Action :=
  flushOf [.put [97] [1]] ++ flushOf [.put [122] [1]]
    ++ flushOf [.put [97] [2]] ++ flushOf [.put [122] [2]]
    ++ [.manualCompaction 1 none none false] ++ flushOf [.put [109] [3]]
    ++ [.openOutput, .installResults]

/-- **A flush into the gap of a running compaction** ends up under the output:
    the check of `SaveTo` fails. -/
theorem gapRun_overlaps :
    ∃ db h, Reach sampleOptions (fun _ _ => True) db h ∧ ¬ saveToChecks db.current := by
  have hrun : (run sampleOptions (fun _ _ => True) DB.init gapRun).any
      (fun db => ¬ saveToChecks db.current) = true := by
    decide +kernel
  obtain ⟨db, hreach, hbad⟩ := reach_of_run hrun
  exact ⟨db, _, hreach, hbad⟩

end LdbDisjoint
