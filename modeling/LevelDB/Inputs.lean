import LevelDB.Closure
import LevelDB.HullClosure

/-! # What the pickers take

    Three results about the inputs of a compaction (`db/version_set.cc`).  The
    search of `GetOverlappingInputs` on level 0 ends and returns the least set of
    files closed under growing the hull (`getOverlappingInputs_exact`).  What
    `PickCompaction` and `CompactRange` return is closed in the version it comes
    from (`inputs_closed`).  The rounds of a manual compaction end and leave no file
    of the range on the level (`manualRounds_finish`). -/

namespace LdbInputs

open LdbFormat LdbVersion LdbCompaction LdbClosure HullClosure

/-! ## The overlap search -/

/-- The restarts of `GetOverlappingInputs` as the source runs them, with no bound on
    their number: from the range `[b, e]` the search ends with `inputs`. -/
inductive Search (level : Nat) (files : List FileMetaData) :
    Option Slice → Option Slice → List FileMetaData → Prop where
  | done {b e : Option Slice} {inputs : List FileMetaData} :
      overlapPass level b e files = .done inputs → Search level files b e inputs
  | restart {b e b' e' : Option Slice} {inputs : List FileMetaData} :
      overlapPass level b e files = .restart b' e' → Search level files b' e' inputs →
      Search level files b e inputs

/-- **The search ends**: every restart brings a bound of a file into the range. -/
theorem overlapLoop_search (level : Nat) (files : List FileMetaData) (fuel : Nat) :
    ∀ b e : Option Slice, boundsOutside files b e < fuel →
      Search level files b e (overlapLoop level files fuel b e) := by
  induction fuel with
  | zero => intro b e hlt; omega
  | succ fuel ih =>
    intro b e hlt
    rw [overlapLoop]
    cases hp : overlapPass level b e files with
    | done inputs => exact .done hp
    | restart b' e' =>
      obtain ⟨-, f, hf, -, hcase⟩ := overlapPass_restart hp
      refine .restart hp (ih b' e' ?_)
      rcases hcase with ⟨hsb, rfl, rfl⟩ | ⟨hea, rfl, rfl⟩
      · have := boundsOutside_start e' hf hsb
        omega
      · have := boundsOutside_end b' hf hea
        omega

/-- The lower end of a file, in user keys. -/
def lowKey (f : FileMetaData) : Slice := f.smallest.userKey

/-- The upper end of a file, in user keys. -/
def highKey (f : FileMetaData) : Slice := f.largest.userKey

variable {f : FileMetaData} {v v' : Version} {b e : Option InternalKey} {level : Nat}
  {c : Compaction} {o : Options}

theorem overlaps_iff_overlaps {b e : Option Slice} :
    overlaps b e f = true ↔ Overlaps lowKey highKey b e f := by
  rw [overlaps_iff]
  exact ⟨fun h => ⟨h.1, h.2⟩, fun h => ⟨h.low, h.high⟩⟩

/-- The level-0 files to be reached from the range `[b, e]`. -/
def reachedFiles (v : Version) (b e : Option Slice) : Set FileMetaData :=
  reached lowKey highKey {f | f ∈ v.files 0} b e

theorem mem_reachedFiles {b e : Option Slice} (hf : f ∈ v.files 0)
    (h : OverlapsHull lowKey highKey b e (reachedFiles v b e) f) : f ∈ reachedFiles v b e :=
  mem_reached (show f ∈ {f | f ∈ v.files 0} from hf) h

theorem startsBefore_iff {b : Option Slice} :
    startsBefore b f = true ↔ ∃ k, b = some k ∧ lowKey f < k := by
  cases b with
  | none => simp [startsBefore]
  | some k => simp [startsBefore_some, lowKey]

theorem endsAfter_iff {e : Option Slice} :
    endsAfter e f = true ↔ ∃ k, e = some k ∧ k < highKey f := by
  cases e with
  | none => simp [endsAfter]
  | some k => simp [endsAfter_some, highKey]

/-- **The search on level 0 finds the reached files.** -/
theorem mem_getOverlappingInputs_zero :
    ∃ p : FileMetaData → Bool, v.getOverlappingInputs 0 b e = (v.files 0).filter p
      ∧ ∀ f ∈ v.files 0, p f = true ↔
          f ∈ reachedFiles v (b.map (·.userKey)) (e.map (·.userKey)) := by
  -- the range only ever moves out to the ends of reached files
  obtain ⟨ub, ue, hwide, heq, hin⟩ := getOverlappingInputs_zero v b e
    (Widened (reachedFiles v (b.map (·.userKey)) (e.map (·.userKey))) lowKey highKey
      (b.map (·.userKey)) (e.map (·.userKey)))
    (by
      intro ub ue f hf hov hsb hw
      have hmem := mem_reachedFiles hf (hw.overlapsHull (overlaps_iff_overlaps.mp hov))
      exact hw.moveLow hmem (startsBefore_iff.mp hsb))
    (by
      intro ub ue f hf hov hea hw
      have hmem := mem_reachedFiles hf (hw.overlapsHull (overlaps_iff_overlaps.mp hov))
      exact hw.moveHigh hmem (endsAfter_iff.mp hea))
    (Widened.refl _ _ _)
  have hset := reached_eq_overlapping hwide
    (fun f hf hov k hk => by
      by_contra hlt
      have hout := startsBefore_iff.mpr ⟨k, hk, not_le.mp hlt⟩
      rw [(hin f hf (overlaps_iff_overlaps.mpr hov)).1] at hout
      cases hout)
    (fun f hf hov k hk => by
      by_contra hlt
      have hout := endsAfter_iff.mpr ⟨k, hk, not_le.mp hlt⟩
      rw [(hin f hf (overlaps_iff_overlaps.mpr hov)).2] at hout
      cases hout)
  refine ⟨overlaps ub ue, heq, fun f hf => ?_⟩
  rw [reachedFiles, hset, overlaps_iff_overlaps]
  exact ⟨fun hov => ⟨hf, hov⟩, fun h => h.2⟩

open Classical in
/-- **`GetOverlappingInputs` is exact.**  It ends; on level 0 it returns the files
    of the least set that is closed under growing the hull of the range, on the
    other levels the files that overlap the range, each where the level lists it. -/
theorem getOverlappingInputs_exact (v : Version) (level : Nat) (b e : Option InternalKey) :
    Search level (v.files level) (b.map (·.userKey)) (e.map (·.userKey))
        (v.getOverlappingInputs level b e)
      ∧ (level = 0 → v.getOverlappingInputs level b e
          = (v.files level).filter
              (fun f => f ∈ reachedFiles v (b.map (·.userKey)) (e.map (·.userKey))))
      ∧ (level ≠ 0 → v.getOverlappingInputs level b e
          = (v.files level).filter (overlaps (b.map (·.userKey)) (e.map (·.userKey)))) := by
  refine ⟨?_, ?_, fun hl => getOverlappingInputs_pos v hl b e⟩
  · exact overlapLoop_search _ _ _ _ _ (Nat.lt_succ_of_le (boundsOutside_le _ _ _))
  · rintro rfl
    obtain ⟨p, heq, hp⟩ := mem_getOverlappingInputs_zero (v := v) (b := b) (e := e)
    rw [heq]
    refine List.filter_congr fun f hf => ?_
    rw [Bool.eq_iff_iff, hp f hf, decide_eq_true_eq]

/-! ## Closed inputs -/

/-- **The inputs of a compaction are closed**: nothing that stays behind holds a
    user key in a place where it would come to lie above or below an older or newer
    entry of the same key. -/
structure InputsClosed (v : Version) (c : Compaction) : Prop where
  /-- no other level-0 file overlaps the hull of the level-0 inputs -/
  hull0 : c.level = 0 → ∀ g ∈ v.files 0,
    (∃ a ∈ c.inputs0, a.smallest.userKey ≤ g.largest.userKey) →
    (∃ a ∈ c.inputs0, g.smallest.userKey ≤ a.largest.userKey) → g ∈ c.inputs0
  /-- no other file of the level shares a user key with an input it sorts after -/
  boundary0 : 0 < c.level → ∀ a ∈ c.inputs0, ∀ g ∈ v.files c.level,
    Meets a g → a.largest < g.smallest → g ∈ c.inputs0
  /-- every file of the next level that overlaps the hull is an input -/
  hull1 : ∀ g ∈ v.files (c.level + 1),
    (∃ a ∈ c.inputs0, a.smallest.userKey ≤ g.largest.userKey) →
    (∃ a ∈ c.inputs0, g.smallest.userKey ≤ a.largest.userKey) → g ∈ c.inputs1
  /-- no other file of the next level shares a user key with an input it sorts after -/
  boundary1 : ∀ a ∈ c.inputs1, ∀ g ∈ v.files (c.level + 1),
    Meets a g → a.largest < g.smallest → g ∈ c.inputs1
  /-- no file is an input twice -/
  once : (c.inputs0 ++ c.inputs1).Nodup

/-- A file that sorts after an input does not lie before it. -/
theorem ClosedRun.boundary {files S : List FileMetaData} (h : ClosedRun level files S)
    (hord : ∀ f ∈ files, f.Ordered) (hsub : ∀ f ∈ S, f ∈ files) {a g : FileMetaData} (ha : a ∈ S)
    (hg : g ∈ files) (hm : Meets a g) (hafter : a.largest < g.smallest) : g ∈ S := by
  by_contra hgn
  obtain ⟨-, hbefore⟩ := h a ha g hg hgn hm
  have hao : a.smallest ≤ a.largest := hord a (hsub a ha)
  have hgo : g.smallest ≤ g.largest := hord g hg
  exact lt_irrefl _ (lt_of_le_of_lt hao (lt_trans hafter (lt_of_le_of_lt hgo hbefore)))

/-- A file beside the inputs does not overlap the hull of the first input set. -/
theorem Beside.not_hull {inputs0 inputs1 : List FileMetaData} {g : FileMetaData}
    (h : Beside inputs0 inputs1 g)
    (hlow : ∃ a ∈ inputs0, a.smallest.userKey ≤ g.largest.userKey)
    (hhigh : ∃ a ∈ inputs0, g.smallest.userKey ≤ a.largest.userKey) : False := by
  rcases h with hafter | ⟨hbefore, -⟩
  · obtain ⟨a, ha, hle⟩ := hhigh
    exact absurd (hafter a (List.mem_append_left _ ha)) (not_lt_of_ge hle)
  · obtain ⟨a, ha, hle⟩ := hlow
    exact absurd (hbefore a ha) (not_lt_of_ge hle)

/-- What the search on level 0 returns leaves no file in the hull. -/
theorem getOverlappingInputs_zero_hull {g : FileMetaData} (hg : g ∈ v.files 0)
    (hlow : ∃ a ∈ v.getOverlappingInputs 0 b e, a.smallest.userKey ≤ g.largest.userKey)
    (hhigh : ∃ a ∈ v.getOverlappingInputs 0 b e, g.smallest.userKey ≤ a.largest.userKey) :
    g ∈ v.getOverlappingInputs 0 b e := by
  obtain ⟨p, heq, hp⟩ := mem_getOverlappingInputs_zero (v := v) (b := b) (e := e)
  have hmem : ∀ f, f ∈ v.getOverlappingInputs 0 b e →
      f ∈ reachedFiles v (b.map (·.userKey)) (e.map (·.userKey)) := by
    intro f hf
    rw [heq, List.mem_filter] at hf
    exact (hp f hf.1).mp hf.2
  obtain ⟨a, ha, hag⟩ := hlow
  obtain ⟨a', ha', hga⟩ := hhigh
  rw [heq, List.mem_filter, hp g hg]
  exact ⟨hg, mem_reached_of_between (show g ∈ {f | f ∈ v.files 0} from hg) (hmem a ha)
    (hmem a' ha') hag hga⟩

/-- The level-0 inputs are what some search on level 0 returned. -/
theorem setupOtherInputs_zero (hv : Pickable v)
    (hc : setupOtherInputs o v 0 (v.getOverlappingInputs 0 b e) = some c) :
    ∃ b' e', c.inputs0 = v.getOverlappingInputs 0 b' e' := by
  obtain ⟨-, -, hadd, -⟩ := overlapping_zero hv.zero b e
  obtain ⟨r, -, hfin | ⟨all, new, -, -, hfin⟩⟩ := setupOtherInputs_cases hc
  · exact ⟨b, e, (finishInputs_finished hfin).inputs0.trans hadd⟩
  · obtain ⟨-, -, hall, -⟩ := overlapping_zero hv.zero (some all.1) (some all.2)
    exact ⟨some all.1, some all.2, (finishInputs_finished hfin).inputs0.trans hall⟩

/-- A compaction of one of the two pickers. -/
def Picked (o : Options) (v : Version) (c : Compaction) : Prop :=
  (∃ ptr t, pickCompaction o v ptr t = some c) ∨ ∃ level b e, compactRange o v level b e = some c

theorem Picked.closed (hv : Pickable v) (hc : Picked o v c) : Closed c v := by
  rcases hc with ⟨ptr, t, hc⟩ | ⟨level, b, e, hc⟩
  · exact (pickCompaction_closed hv hc).1
  · exact (compactRange_closed hv hc).1

theorem Picked.zero (hv : Pickable v) (hc : Picked o v c) (h0 : c.level = 0) :
    ∃ b e, c.inputs0 = v.getOverlappingInputs 0 b e := by
  rcases hc with ⟨ptr, t, hc⟩ | ⟨level, b, e, hc⟩
  · rw [pickCompaction] at hc
    split at hc
    · cases hc
    · rename_i level f hp
      split_ifs at hc with hl
      · exact setupOtherInputs_zero hv hc
      · obtain ⟨r, -, hfin | ⟨all, new, -, -, hfin⟩⟩ := setupOtherInputs_cases hc
        · exact absurd ((finishInputs_finished hfin).level.symm.trans h0) hl
        · exact absurd ((finishInputs_finished hfin).level.symm.trans h0) hl
  · obtain rfl : level = 0 := (compactRange_closed hv hc).2.symm.trans h0
    rw [compactRange] at hc
    split_ifs at hc with hnil hl
    · exact setupOtherInputs_zero hv hc
    · exact absurd rfl hl

/-- **Compaction inputs are closed.**  For every version whose levels above 0 are
    sorted and which lists every file once. -/
theorem inputs_closed {o : Options} {v : Version} (hv : Pickable v)
    (hlevel : ∀ l l' f, f ∈ v.files l → f ∈ v.files l' → l = l') {c : Compaction}
    (hc : Picked o v c) : InputsClosed v c := by
  have hcl := hc.closed hv
  refine ⟨fun h0 g hg hlow hhigh => ?_, fun _ a ha g hg => ?_, fun g hg hlow hhigh => ?_,
    fun a ha g hg => ?_, ?_⟩
  · obtain ⟨b, e, heq⟩ := hc.zero hv h0
    rw [heq] at hlow hhigh ⊢
    exact getOverlappingInputs_zero_hull hg hlow hhigh
  · exact ClosedRun.boundary hcl.closed0 (hv.ordered _) hcl.run0.sub ha hg
  · by_contra hgn
    exact Beside.not_hull (hcl.beside g hg hgn) hlow hhigh
  · exact ClosedRun.boundary hcl.closed1 (hv.ordered _) hcl.run1.sub ha hg
  · refine List.nodup_append.mpr ⟨hcl.run0.nodup, hcl.run1.nodup, ?_⟩
    rintro f hf0 g hg1 rfl
    have := hlevel _ _ f (hcl.run0.sub f hf0) (hcl.run1.sub f hg1)
    omega

/-- Two level-0 files that overlap each other, and two files of level 1 that share a
    user key. -/
def sampleVersion : Version where
  files level :=
    if level = 0 then
      [⟨7, 10, ⟨[1], 5, .value⟩, ⟨[3], 4, .value⟩⟩, ⟨8, 10, ⟨[2], 9, .value⟩, ⟨[6], 8, .value⟩⟩]
    else if level = 1 then
      [⟨4, 10, ⟨[1], 3, .value⟩, ⟨[4], 3, .value⟩⟩, ⟨5, 10, ⟨[4], 2, .value⟩, ⟨[9], 1, .value⟩⟩]
    else []

/-- Limits of the samples: a manual compaction takes one file at a time. -/
def sampleOptions : Options := ⟨10, fun _ => 10, fun _ => 10⟩

theorem sampleVersion_pickable : Pickable sampleVersion where
  zero := ⟨by decide, by decide⟩
  sorted level hl := by
    by_cases h1 : level = 1
    · subst h1
      exact ⟨by decide, by decide⟩
    · have hnil : sampleVersion.files level = [] := by
        simp [sampleVersion, h1, Nat.ne_of_gt hl]
      rw [hnil]
      exact ⟨by simp, List.Pairwise.nil⟩

theorem sampleVersion_level : ∀ l l' f, f ∈ sampleVersion.files l → f ∈ sampleVersion.files l' →
    l = l' := by
  have hnumber : ∀ l f, f ∈ sampleVersion.files l →
      (l = 0 ∧ 7 ≤ f.number) ∨ (l = 1 ∧ f.number ≤ 5) := by
    intro l f hf
    simp only [sampleVersion] at hf
    split_ifs at hf with h0 h1
    · refine Or.inl ⟨h0, ?_⟩
      simp only [List.mem_cons, List.not_mem_nil, or_false] at hf
      rcases hf with rfl | rfl <;> decide
    · refine Or.inr ⟨h1, ?_⟩
      simp only [List.mem_cons, List.not_mem_nil, or_false] at hf
      rcases hf with rfl | rfl <;> decide
    · cases hf
  intro l l' f hf hf'
  rcases hnumber l f hf with ⟨rfl, h⟩ | ⟨rfl, h⟩ <;>
    rcases hnumber l' f hf' with ⟨rfl, h'⟩ | ⟨rfl, h'⟩ <;> omega

/-- A manual compaction of level 0 in the sample takes all four files. -/
theorem inputs_closed_sample : ∃ c, compactRange sampleOptions sampleVersion 0 none
      (some ⟨[1], 0, .deletion⟩) = some c
    ∧ c.inputs0.length = 2 ∧ c.inputs1.length = 2 ∧ InputsClosed sampleVersion c := by
  obtain ⟨c, hc, h0, h1⟩ : ∃ c, compactRange sampleOptions sampleVersion 0 none
      (some ⟨[1], 0, .deletion⟩) = some c ∧ c.inputs0.length = 2 ∧ c.inputs1.length = 2 :=
    ⟨_, rfl, by decide +kernel, by decide +kernel⟩
  exact ⟨c, hc, h0, h1,
    inputs_closed sampleVersion_pickable sampleVersion_level (Or.inr ⟨0, none, _, hc⟩)⟩

/-! ## The rounds of a manual compaction -/

/-- The inputs `SetupOtherInputs` starts from stay inputs. -/
theorem setupOtherInputs_keeps (hv : Pickable v) {inputs : List FileMetaData}
    (hrun : InputRun level (v.files level) (addBoundaryInputs (v.files level) inputs))
    (hc : setupOtherInputs o v level inputs = some c) :
    ∀ f ∈ addBoundaryInputs (v.files level) inputs, f ∈ c.inputs0 := by
  intro f hf
  obtain ⟨r, -, hfin | ⟨all, new, hall, -, hfin⟩⟩ := setupOtherInputs_cases hc
  · rw [(finishInputs_finished hfin).inputs0]
    exact hf
  · rw [(finishInputs_finished hfin).inputs0]
    exact mem_overlappingWithBoundary hv hall (List.mem_append_left _ hf) (hrun.sub f hf)

theorem setupOtherInputs_isSome (o : Options) (v : Version) (level : Nat)
    {inputs : List FileMetaData} (hne : addBoundaryInputs (v.files level) inputs ≠ []) :
    ∃ c, setupOtherInputs o v level inputs = some c := by
  obtain ⟨r, hr⟩ := getRange_isSome hne
  rw [setupOtherInputs]
  simp only [hr]
  split_ifs
  · exact finishInputs_isSome _ hne
  · rcases expandInputs_cases o v level (addBoundaryInputs (v.files level) inputs)
      (overlappingWithBoundary v (level + 1) r) with h | ⟨all, new, -, hnew, h⟩
    · rw [h]
      exact finishInputs_isSome _ hne
    · rw [h]
      refine finishInputs_isSome _ ?_
      rintro (hnil : overlappingWithBoundary v level all = [])
      rw [hnil] at hnew
      cases hnew

/-- The files a manual compaction of the range starts from: all overlapping files on
    level 0, a first part of them on the other levels. -/
structure StartsFrom (o : Options) (v : Version) (level : Nat) (b e : Option InternalKey)
    (S : List FileMetaData) : Prop where
  setup : compactRange o v level b e
    = if v.getOverlappingInputs level b e = [] then none else setupOtherInputs o v level S
  run : InputRun level (v.files level) (addBoundaryInputs (v.files level) S)
  keeps : ∀ f ∈ S, f ∈ addBoundaryInputs (v.files level) S
  ne : v.getOverlappingInputs level b e ≠ [] → S ≠ []
  first : S <+: v.getOverlappingInputs level b e
  whole : level = 0 → S = v.getOverlappingInputs level b e

theorem compactRange_startsFrom (hv : Pickable v) (level : Nat) (b e : Option InternalKey) :
    ∃ S, StartsFrom o v level b e S := by
  rcases Nat.eq_zero_or_pos level with rfl | hl
  · obtain ⟨hrun, -, hadd, -⟩ := overlapping_zero hv.zero b e
    refine ⟨v.getOverlappingInputs 0 b e, ?_, hadd.symm ▸ hrun, ?_, id, List.prefix_refl _,
      fun _ => rfl⟩
    · rw [compactRange, if_pos rfl]
    · intro f hf
      rwa [hadd]
  · have hpos := getOverlappingInputs_pos v (Nat.ne_of_gt hl) b e
    obtain ⟨hrun, -, hkeep, -⟩ := addBoundaryInputs_pos hl (hv.sorted level hl)
      (inputRun_of_initial (hv.sorted level hl) (takeUpTo_initial o.maxFileSize 0 _))
    rw [← hpos] at hrun hkeep
    refine ⟨takeUpTo o.maxFileSize 0 (v.getOverlappingInputs level b e), ?_, hrun, hkeep,
      takeUpTo_ne_nil _, takeUpTo_initial _ _ _, fun h0 => absurd h0 (Nat.ne_of_gt hl)⟩
    rw [compactRange, if_neg (Nat.ne_of_gt hl)]

theorem mem_getOverlappingInputs (hv : Pickable v) (hf : f ∈ v.files level)
    (hov : overlaps (b.map (·.userKey)) (e.map (·.userKey)) f = true) :
    f ∈ v.getOverlappingInputs level b e := by
  rcases Nat.eq_zero_or_pos level with rfl | hl
  · exact (overlapping_zero hv.zero b e).2.2.2 f hf hov
  · rw [getOverlappingInputs_pos v (Nat.ne_of_gt hl)]
    exact List.mem_filter.mpr ⟨hf, hov⟩

/-- **A manual compaction has nothing to do only when no file overlaps its range.** -/
theorem compactRange_none (hv : Pickable v) (hnone : compactRange o v level b e = none) :
    ∀ f ∈ v.files level, overlaps (b.map (·.userKey)) (e.map (·.userKey)) f = false := by
  obtain ⟨S, hS⟩ := compactRange_startsFrom (o := o) hv level b e
  intro f hf
  rw [Bool.eq_false_iff]
  intro hov
  have hne := List.ne_nil_of_mem (mem_getOverlappingInputs hv hf hov)
  obtain ⟨g, hg⟩ := List.exists_mem_of_ne_nil _ (hS.ne hne)
  obtain ⟨c, hc⟩ := setupOtherInputs_isSome o v level (List.ne_nil_of_mem (hS.keeps g hg))
  rw [hS.setup, if_neg hne, hc] at hnone
  cases hnone

/-- The first files of the range are inputs of the round. -/
theorem StartsFrom.inputs (hv : Pickable v) {S : List FileMetaData}
    (hS : StartsFrom o v level b e S) (hc : compactRange o v level b e = some c) :
    S ≠ [] ∧ ∀ f ∈ S, f ∈ c.inputs0 := by
  rw [hS.setup] at hc
  split_ifs at hc with hnil
  exact ⟨hS.ne hnil, fun f hf => setupOtherInputs_keeps hv hS.run hc f (hS.keeps f hf)⟩

/-- The key the next round starts from. -/
def manualEnd (c : Compaction) : Option InternalKey := c.inputs0.getLast?.map (·.largest)

/-- Every file of the level that overlaps `[b, e]` overlaps `[b', e]`: what the
    rounds so far have left of the range lies at `b'` or after it. -/
def Left (v : Version) (level : Nat) (e b b' : Option Slice) : Prop :=
  ∀ f ∈ v.files level, overlaps b e f = true → overlaps b' e f = true

/-- **One round.**  What it leaves of the range ends at or after the key the next
    round starts from. -/
theorem Left.round (hv : Pickable v) {b : Option Slice} {b' : Option InternalKey}
    (hleft : Left v level (e.map (·.userKey)) b (b'.map (·.userKey)))
    (hc : compactRange o v level b' e = some c)
    (hrest : ∀ f ∈ v'.files level, f ∈ v.files level ∧ f ∉ c.inputs0) :
    Left v' level (e.map (·.userKey)) b ((manualEnd c).map (·.userKey)) := by
  intro f hf hov
  obtain ⟨hfv, hfc⟩ := hrest f hf
  have hov' := hleft f hfv hov
  have hmem := mem_getOverlappingInputs hv hfv hov'
  obtain ⟨S, hS⟩ := compactRange_startsFrom (o := o) hv level b' e
  obtain ⟨hne, hin⟩ := hS.inputs hv hc
  have hlevel := (compactRange_closed hv hc).2
  rcases Nat.eq_zero_or_pos level with h0 | hl
  · -- on level 0 the round took every file of the range
    exact absurd (hin f (hS.whole h0 ▸ hmem)) hfc
  refine overlaps_iff.mpr ⟨fun k hk => ?_, (overlaps_iff.mp hov').2⟩
  -- the round took a file before `f`, and leaves no hole before its last input
  obtain ⟨a, haS⟩ := List.exists_mem_of_ne_nil _ hne
  have haf : a.largest < f.smallest := by
    obtain ⟨R, hR⟩ := hS.first
    have hdis : (S ++ R).Pairwise fun f g => f.largest < g.smallest := by
      rw [hR, getOverlappingInputs_pos v (Nat.ne_of_gt hl)]
      exact (hv.sorted level hl).disjoint.filter _
    rw [← hR] at hmem
    rcases List.mem_append.mp hmem with hfS | hfR
    · exact absurd (hin f hfS) hfc
    · exact (List.pairwise_append.mp hdis).2.2 a haS f hfR
  simp only [manualEnd, Option.map_map, Option.map_eq_some_iff, Function.comp_apply] at hk
  obtain ⟨m, hlast, rfl⟩ := hk
  have hm : m ∈ c.inputs0 := List.mem_of_getLast? hlast
  have hrun := (compactRange_closed hv hc).1.run0
  rw [hlevel] at hrun
  have hfo : f.smallest ≤ f.largest := hv.ordered level f hfv
  rcases (hv.sorted level hl).trichotomy hfv (hrun.sub m hm) with rfl | hfm | hmf
  · exact absurd hm hfc
  · exact absurd (hrun.convex hl a (hin a haS) m hm f hfv haf hfm) hfc
  · exact InternalKey.userKey_le (le_trans (le_of_lt hmf) hfo)


/-- What a round of `BackgroundCompaction` does to the version: its inputs leave
    the level, and whatever it writes goes to the next level. -/
structure Round (level : Nat) (c : Compaction) (v v' : Version) : Prop where
  removed : v'.files level = (v.files level).filter fun f => decide (f ∉ c.inputs0)
  output : SortedLevel (v'.files (level + 1))
  others : ∀ l, l ≠ level → l ≠ level + 1 → v'.files l = v.files l

theorem Round.pickable (h : Round level c v v') (hv : Pickable v) : Pickable v' where
  zero := by
    rcases Nat.eq_zero_or_pos level with rfl | hl
    · rw [h.removed]
      exact ⟨fun f hf => hv.zero.ordered f (List.mem_of_mem_filter hf), hv.zero.nodup.filter _⟩
    · rw [h.others 0 (Nat.ne_of_lt hl) (Nat.ne_of_lt (Nat.succ_pos level))]
      exact hv.zero
  sorted l hl := by
    by_cases hlev : l = level
    · subst hlev
      rw [h.removed]
      exact ⟨fun f hf => (hv.sorted l hl).ordered f (List.mem_of_mem_filter hf),
        (hv.sorted l hl).disjoint.filter _⟩
    · by_cases hnext : l = level + 1
      · subst hnext
        exact h.output
      · rw [h.others l hlev hnext]
        exact hv.sorted l hl

/-- Every round takes a file away from the level. -/
theorem Round.shrinks (h : Round level c v v') (hf : f ∈ c.inputs0) (hfv : f ∈ v.files level) :
    (v'.files level).length < (v.files level).length := by
  rw [h.removed]
  refine lt_of_le_of_ne (List.length_filter_le _ _) fun heq => ?_
  have hall := List.filter_eq_self.mp (List.filter_sublist.eq_of_length heq) f hfv
  exact of_decide_eq_true hall hf

/-- `n` rounds of the loop of `TEST_CompactRange`, each driven by
    `BackgroundCompaction` and started from the last input of the one before, lead
    from `b` and `v` to `b'` and `v'`. -/
inductive Rounds (o : Options) (level : Nat) (e b : Option InternalKey) (v : Version) :
    Nat → Option InternalKey → Version → Prop where
  | start : Rounds o level e b v 0 b v
  | round {n : Nat} {b' : Option InternalKey} {v' v'' : Version} {c : Compaction} :
      Rounds o level e b v n b' v' → compactRange o v' level b' e = some c →
      Round level c v' v'' → Rounds o level e b v (n + 1) (manualEnd c) v''

/-- The begin key `TEST_CompactRange` makes of a user key. -/
def rangeBegin (b : Option Slice) : Option InternalKey :=
  b.map fun k => ⟨k, kMaxSequenceNumber, kValueTypeForSeek⟩

/-- The end key `TEST_CompactRange` makes of a user key. -/
def rangeEnd (e : Option Slice) : Option InternalKey := e.map fun k => ⟨k, 0, .deletion⟩

@[simp] theorem rangeBegin_userKey (b : Option Slice) :
    (rangeBegin b).map (·.userKey) = b := by
  cases b <;> rfl

@[simp] theorem rangeEnd_userKey (e : Option Slice) : (rangeEnd e).map (·.userKey) = e := by
  cases e <;> rfl

/-- What the rounds keep: a version the pickers work on, less files than rounds ago,
    and the rest of the range at or after the current begin key. -/
theorem Rounds.invariant (hv : Pickable v) {n : Nat} {b' : Option InternalKey}
    (hr : Rounds o level e b v n b' v') :
    Pickable v' ∧ n + (v'.files level).length ≤ (v.files level).length
      ∧ Left v' level (e.map (·.userKey)) (b.map (·.userKey)) (b'.map (·.userKey)) := by
  induction hr with
  | start => exact ⟨hv, by omega, fun f _ hov => hov⟩
  | round _ hc hround ih =>
    obtain ⟨hv', hlen, hleft⟩ := ih
    obtain ⟨hcl, hlevel⟩ := compactRange_closed hv' hc
    obtain ⟨f, hf⟩ := List.exists_mem_of_ne_nil _ hcl.ne0
    have hshrink := hround.shrinks hf (hlevel ▸ hcl.run0.sub f hf)
    refine ⟨hround.pickable hv', by omega, hleft.round hv' hc fun g hg => ?_⟩
    rw [hround.removed, List.mem_filter] at hg
    exact ⟨hg.1, of_decide_eq_true hg.2⟩

/-- **A manual compaction finishes its range.**  The loop makes at most as many
    rounds as the level had files, and when it stops, which it does when
    `CompactRange` finds nothing, no file of the level overlaps the range. -/
theorem manualRounds_finish {o : Options} {v : Version} (hv : Pickable v) {level : Nat}
    {b e : Option Slice} {n : Nat} {b' : Option InternalKey} {v' : Version}
    (hr : Rounds o level (rangeEnd e) (rangeBegin b) v n b' v') :
    n ≤ (v.files level).length
      ∧ (compactRange o v' level b' (rangeEnd e) = none →
          ∀ f ∈ v'.files level, overlaps b e f = false) := by
  obtain ⟨hv', hlen, hleft⟩ := hr.invariant hv
  refine ⟨by omega, fun hnone f hf => ?_⟩
  have hclear := compactRange_none hv' hnone f hf
  rw [rangeEnd_userKey] at hleft hclear
  rw [rangeBegin_userKey] at hleft
  rw [Bool.eq_false_iff] at hclear ⊢
  exact fun hov => hclear (hleft f hf hov)

/-- A version with files on the levels 1 and 2 only. -/
def twoLevels (ones twos : List FileMetaData) : Version where
  files level := if level = 1 then ones else if level = 2 then twos else []

/-- A file of one version of each of two keys. -/
def sampleFile (number : Nat) (first last : UInt8) : FileMetaData :=
  ⟨number, 10, ⟨[first], 1, .value⟩, ⟨[last], 1, .value⟩⟩

/-- The compaction of one file of level 1 that overlaps nothing below. -/
def sampleTake (f : FileMetaData) : Compaction := ⟨1, [f], [], [], f.largest⟩

theorem sampleTake_round {ones twos twos' : List FileMetaData} (hf : f ∉ ones)
    (hs : SortedLevel twos') :
    Round 1 (sampleTake f) (twoLevels (f :: ones) twos) (twoLevels ones twos') where
  removed := by
    show ones = (f :: ones).filter fun g => decide (g ∉ [f])
    rw [List.filter_cons_of_neg (by simp)]
    refine (List.filter_eq_self.mpr fun g hg => ?_).symm
    have hne : g ≠ f := fun h => hf (h ▸ hg)
    simp [hne]
  output := hs
  others l h1 h2 := by simp only [twoLevels, if_neg h1, if_neg h2]

/-- The range `[1, 5]` of three files takes two rounds, and the third file stays. -/
theorem manualRounds_finish_sample : ∃ b' v',
    Rounds sampleOptions 1 (rangeEnd (some [5])) (rangeBegin (some [1]))
        (twoLevels [sampleFile 3 1 2, sampleFile 4 3 4, sampleFile 5 8 9] []) 2 b' v'
      ∧ compactRange sampleOptions v' 1 b' (rangeEnd (some [5])) = none
      ∧ v'.files 1 = [sampleFile 5 8 9]
      ∧ ∀ f ∈ v'.files 1, overlaps (some [1]) (some [5]) f = false := by
  have hv : Pickable (twoLevels [sampleFile 3 1 2, sampleFile 4 3 4, sampleFile 5 8 9] []) := by
    refine ⟨⟨by decide, by decide⟩, fun level _ => ?_⟩
    simp only [twoLevels]
    split_ifs <;> exact ⟨by decide, by decide⟩
  have h1 : Rounds sampleOptions 1 (rangeEnd (some [5])) (rangeBegin (some [1]))
      (twoLevels [sampleFile 3 1 2, sampleFile 4 3 4, sampleFile 5 8 9] []) 1
      (manualEnd (sampleTake (sampleFile 3 1 2)))
      (twoLevels [sampleFile 4 3 4, sampleFile 5 8 9] [sampleFile 6 1 2]) :=
    .round .start rfl (sampleTake_round (by decide) ⟨by decide, by decide⟩)
  have h2 : Rounds sampleOptions 1 (rangeEnd (some [5])) (rangeBegin (some [1]))
      (twoLevels [sampleFile 3 1 2, sampleFile 4 3 4, sampleFile 5 8 9] []) 2
      (manualEnd (sampleTake (sampleFile 4 3 4)))
      (twoLevels [sampleFile 5 8 9] [sampleFile 6 1 2, sampleFile 7 3 4]) :=
    .round h1 rfl (sampleTake_round (by decide) ⟨by decide, by decide⟩)
  exact ⟨_, _, h2, rfl, rfl, (manualRounds_finish hv h2).2 rfl⟩

end LdbInputs
