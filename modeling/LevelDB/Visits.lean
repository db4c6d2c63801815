import LevelDB.Run

/-! # Which files a lookup opens

    `Version::ForEachOverlapping` opens every file of level 0 that holds the user
    key, newest first, and at most one file of each deeper level.  Here its visits
    are described file by file (`visited_iff`) and followed through the changes of
    a version: a file that stays is opened after the change exactly if it was
    before, provided no file that comes or goes ends in the user key it begins
    with (`visited_adds`, `visited_replaces`). -/

namespace LdbVisits

open LdbFormat LdbVersion LdbEdit LdbTable LdbClosure LdbInv LdbSteps

/-- The lookup of `k` at `s` opens the file, on its level. -/
def Visited (v : Version) (k : Slice) (s : Nat) (p : Nat × FileMetaData) : Prop :=
  p ∈ v.forEachOverlapping k (lookupKey k s)

/-- The first file is opened before the second one. -/
def Earlier (p q : Nat × FileMetaData) : Prop :=
  p.1 < q.1 ∨ (p.1 = 0 ∧ q.1 = 0 ∧ q.2.number < p.2.number)

/-- `x` ends, before `f`, in the user key that `f` begins with. -/
def Butts (x f : FileMetaData) : Prop :=
  x.largest.userKey = f.smallest.userKey ∧ x.largest < f.smallest

theorem Earlier.asymm {p q : Nat × FileMetaData} (h : Earlier p q) : ¬ Earlier q p := by
  rintro (h' | h') <;> rcases h with h | h <;> omega

/-- Off level 0 the order is that of the levels. -/
theorem Earlier.lt {p q : Nat × FileMetaData} (h : Earlier p q) (hpos : 0 < p.1 ∨ 0 < q.1) :
    p.1 < q.1 := by
  rcases h with h | h <;> omega

theorem Earlier.le {p q : Nat × FileMetaData} (h : p = q ∨ Earlier p q) : p.1 ≤ q.1 := by
  rcases h with rfl | h | h <;> omega

/-- A lookup that finds `x` in front of `f` looks for the user key in which `x`
    ends and `f` begins. -/
theorem butts_of_blocked {x f : FileMetaData} {k : Slice} {s : Nat}
    (hx : lookupKey k s ≤ x.largest) (hlt : x.largest < f.smallest) (hf : f.smallest.userKey ≤ k) :
    Butts x f ∧ x.largest.userKey = k := by
  have h1 : k ≤ x.largest.userKey := InternalKey.userKey_le hx
  have h2 : x.largest.userKey ≤ f.smallest.userKey := InternalKey.userKey_le (le_of_lt hlt)
  exact ⟨⟨le_antisymm h2 (le_trans hf h1), hlt⟩, le_antisymm (le_trans h2 hf) h1⟩

theorem Butts.meets {x f : FileMetaData} (h : Butts x f) (hx : x.Ordered) (hf : f.Ordered) :
    Meets x f :=
  ⟨le_trans hx.userKey_le (le_trans (le_of_eq h.1) hf.userKey_le), le_of_eq h.1.symm⟩

section Version

variable {h h' : List Op} {v v' : Version} {tables tables' : Nat → Table} {next next' : Nat}
variable {k : Slice} {s l : Nat} {f : FileMetaData}

/-- **What a lookup opens**: the files that hold the user key; deeper than level 0
    only one that reaches to the lookup key and has none in front that does. -/
theorem visited_iff (hv : VersionOK h v tables next) :
    Visited v k s (l, f) ↔ f ∈ v.files l ∧ (f.smallest.userKey ≤ k ∧ k ≤ f.largest.userKey)
      ∧ (0 < l → lookupKey k s ≤ f.largest
          ∧ ∀ g ∈ v.files l, lookupKey k s ≤ g.largest → ¬ g.largest < f.smallest) := by
  rw [Visited, mem_forEachOverlapping]
  constructor
  · rintro (⟨rfl, hf, hk⟩ | ⟨hl, -, hat⟩)
    · exact ⟨hf, FileMetaData.holds_iff.mp hk, fun h0 => absurd h0 (lt_irrefl _)⟩
    · obtain ⟨hf, hlo, hhi, hmin⟩ := (visitedAt_eq_some (hv.sortedLevel hl)).mp hat
      refine ⟨hf, ⟨hlo, InternalKey.userKey_le hhi⟩, fun _ => ⟨hhi, fun g hg hgk hlt => ?_⟩⟩
      exact absurd (lt_of_le_of_lt (hmin g hg hgk) hlt) (not_lt_of_ge (hv.file l f hf).ordered)
  · rintro ⟨hf, hk, hpos⟩
    rcases Nat.eq_zero_or_pos l with rfl | hl
    · exact Or.inl ⟨rfl, hf, FileMetaData.holds_iff.mpr hk⟩
    · obtain ⟨hhi, hfirst⟩ := hpos hl
      refine Or.inr ⟨hl, hv.level_lt hf, (visitedAt_eq_some (hv.sortedLevel hl)).mpr
        ⟨hf, hk.1, hhi, fun g hg hgk => ?_⟩⟩
      rcases (hv.sortedLevel hl).trichotomy hf hg with rfl | hlt | hlt
      · exact le_refl _
      · exact le_trans (le_of_lt hlt) (hv.file l g hg).ordered
      · exact absurd hlt (hfirst g hg hgk)

/-- A visited file holds the user key. -/
theorem visited_holds (hv : VersionOK h v tables next) (hvis : Visited v k s (l, f)) :
    f ∈ v.files l ∧ f.smallest.userKey ≤ k ∧ k ≤ f.largest.userKey :=
  ⟨((visited_iff hv).mp hvis).1, ((visited_iff hv).mp hvis).2.1⟩

/-- Deeper than level 0 at most one file is opened. -/
theorem visited_unique {g : FileMetaData} (hl : 0 < l) (hf : Visited v k s (l, f))
    (hg : Visited v k s (l, g)) : f = g := by
  rcases mem_forEachOverlapping.mp hf with ⟨h0, -⟩ | ⟨-, -, hf⟩
  · exact absurd h0 (Nat.pos_iff_ne_zero.mp hl)
  · rcases mem_forEachOverlapping.mp hg with ⟨h0, -⟩ | ⟨-, -, hg⟩
    · exact absurd h0 (Nat.pos_iff_ne_zero.mp hl)
    · rw [hf] at hg
      exact Option.some.inj hg

/-- **The visits come in order.** -/
theorem forEachOverlapping_earlier (hv : Listed v next) (k : Slice) (ik : InternalKey) :
    (v.forEachOverlapping k ik).Pairwise Earlier := by
  rw [Version.forEachOverlapping]
  refine List.pairwise_append.mpr ⟨?_, ?_, ?_⟩
  · have hperm := List.perm_insertionSort (fun a b : FileMetaData => b.number ≤ a.number)
      ((v.files 0).filter (·.holds k))
    have hne : ((v.files 0).filter (·.holds k)).Pairwise (· ≠ ·) := by
      refine ((hv.sorted 0).filter _).imp ?_
      rintro f g hfg rfl
      exact bySmallestKey.irrefl _ hfg
    have hnum : (((v.files 0).filter (·.holds k)).insertionSort
        (fun a b => b.number ≤ a.number)).Pairwise fun a b => b.number ≤ a.number := by
      have : Std.Total fun a b : FileMetaData => b.number ≤ a.number :=
        ⟨fun a b => Nat.le_total b.number a.number⟩
      have : IsTrans FileMetaData fun a b => b.number ≤ a.number :=
        ⟨fun a b c h1 h2 => Nat.le_trans h2 h1⟩
      exact List.pairwise_insertionSort _ _
    have hmem : ∀ g ∈ ((v.files 0).filter (·.holds k)).insertionSort
        (fun a b => b.number ≤ a.number), g ∈ v.files 0 :=
      fun g hg => (List.mem_filter.mp (hperm.mem_iff.mp hg)).1
    refine List.pairwise_map.mpr ((hnum.and (hperm.symm.pairwise hne (fun h => h.symm))).imp_of_mem
      ?_)
    intro f g hf hg hfg
    refine Or.inr ⟨rfl, rfl, lt_of_le_of_ne hfg.1 fun heq => hfg.2 ?_⟩
    exact (hv.unique 0 0 f g (hmem f hf) (hmem g hg) heq.symm).2
  · refine List.pairwise_filterMap.mpr ((List.pairwise_lt_range' ..).imp ?_)
    intro l l' hlt p hp q hq
    obtain ⟨f, -, rfl⟩ := Option.map_eq_some_iff.mp hp
    obtain ⟨g, -, rfl⟩ := Option.map_eq_some_iff.mp hq
    exact Or.inl hlt
  · intro p hp q hq
    obtain ⟨f, -, rfl⟩ := List.mem_map.mp hp
    obtain ⟨l, hl, hq⟩ := List.mem_filterMap.mp hq
    obtain ⟨g, -, rfl⟩ := Option.map_eq_some_iff.mp hq
    exact Or.inl (List.mem_range'_1.mp hl).1

/-- A file added beside `f` does not change whether `f` is opened. -/
theorem visited_adds (hv : VersionOK h v tables next) (hv' : VersionOK h' v' tables' next')
    {level : Nat} {F : FileMetaData} (ha : Adds v v' level F)
    (hapart : 0 < level → ∀ l ≤ level, ∀ g ∈ v.files l, ¬ Meets F g) (hf : f ∈ v.files l) :
    Visited v' k s (l, f) ↔ Visited v k s (l, f) := by
  have hf' : f ∈ v'.files l := (ha.mem l f).mpr (Or.inl hf)
  rw [visited_iff hv, visited_iff hv', and_iff_right hf, and_iff_right hf']
  refine and_congr_right fun hk => ⟨fun hpos hl => ?_, fun hpos hl => ?_⟩
  · obtain ⟨hhi, hfirst⟩ := hpos hl
    exact ⟨hhi, fun g hg => hfirst g ((ha.mem l g).mpr (Or.inl hg))⟩
  · obtain ⟨hhi, hfirst⟩ := hpos hl
    refine ⟨hhi, fun g hg hgk hlt => ?_⟩
    rcases (ha.mem l g).mp hg with hg0 | ⟨rfl, rfl⟩
    · exact hfirst g hg0 hgk hlt
    · exact hapart hl l (le_refl _) f hf ((butts_of_blocked hgk hlt hk.1).1.meets
        (hv'.file l g hg).ordered (hv.file l f hf).ordered)

/-- **Files replaced beside `f` do not change whether `f` is opened**, if none of
    them ends in the user key `f` begins with. -/
theorem visited_replaces (hv : VersionOK h v tables next) (hv' : VersionOK h' v' tables' next')
    {level : Nat} {ins0 ins1 outs : List FileMetaData} (hr : Replaces v v' level ins0 ins1 outs)
    (hf : f ∈ v.files l) (hn0 : f ∉ ins0) (hn1 : f ∉ ins1)
    (h0 : l = level → 0 < l → ∀ x ∈ ins0, ¬ Butts x f)
    (h1 : l = level + 1 → ∀ x ∈ ins1, ¬ Butts x f)
    (hout : l = level + 1 → ∀ x ∈ outs, ¬ Butts x f) :
    Visited v' k s (l, f) ↔ Visited v k s (l, f) := by
  have hf' : f ∈ v'.files l :=
    (hr.mem l f).mpr (Or.inl ⟨hf, fun hc => hn0 hc.2, fun hc => hn1 hc.2⟩)
  rw [visited_iff hv, visited_iff hv', and_iff_right hf, and_iff_right hf']
  refine and_congr_right fun hk => ⟨fun hpos hl => ?_, fun hpos hl => ?_⟩
  · obtain ⟨hhi, hfirst⟩ := hpos hl
    refine ⟨hhi, fun g hg hgk hlt => ?_⟩
    have hb := (butts_of_blocked hgk hlt hk.1).1
    by_cases hg0 : l = level ∧ g ∈ ins0
    · exact h0 hg0.1 hl g hg0.2 hb
    · by_cases hg1 : l = level + 1 ∧ g ∈ ins1
      · exact h1 hg1.1 g hg1.2 hb
      · exact hfirst g ((hr.mem l g).mpr (Or.inl ⟨hg, hg0, hg1⟩)) hgk hlt
  · obtain ⟨hhi, hfirst⟩ := hpos hl
    refine ⟨hhi, fun g hg hgk hlt => ?_⟩
    rcases (hr.mem l g).mp hg with ⟨hg, -, -⟩ | ⟨hl', hg⟩
    · exact hfirst g hg hgk hlt
    · exact hout hl' g hg (butts_of_blocked hgk hlt hk.1).1

end Version

end LdbVisits
