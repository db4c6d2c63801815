import LevelDB.Disjoint
import LevelDB.Visits

/-! # The reach of tombstones through a compaction

    Every output of a compaction carries all tombstones of the inputs, but a
    lookup only opens an output whose recorded bounds hold the key.  The bounds
    follow the surviving entries: a key in front of the first of them, in a gap
    between two outputs, or behind the last output when that was closed by its
    size, is no longer in reach of a tombstone that covers it.

    `tombstone_reach_iff` says exactly when a lookup that opened an input still
    opens an output. -/

namespace LdbTombstoneReach

open LdbFormat LdbVersion LdbEdit LdbTable LdbClosure LdbWork LdbOutputs LdbDb LdbInv LdbSteps
open LdbRun LdbDisjoint LdbVisits

/-! ## Keys in reach of the surviving entries -/

/-- The newest version of the last user key of a segment. -/
def newestOfLast (seg : List Entry) : Option Entry :=
  match seg.getLast? with
  | none => none
  | some b => seg.find? fun e => decide (e.key.userKey = b.key.userKey)

/-- The lookup of `k` at `s` falls between the first user key of the segment and
    the newest version of its last one. -/
def Spans (seg : List Entry) (k : Slice) (s : Nat) : Prop :=
  (∃ a ∈ seg.head?, a.key.userKey ≤ k) ∧ ∃ b ∈ newestOfLast seg, lookupKey k s ≤ b.key

instance (seg : List Entry) (k : Slice) (s : Nat) : Decidable (Spans seg k s) :=
  inferInstanceAs (Decidable (_ ∧ _))

/-- The surviving entries keep `k` in reach at `s`: none survives, or the output
    still open after the loop begins at or before `k`, or the lookup falls in the
    span of an output closed before. -/
def InReach (j : Job) (o : Options) (k : Slice) (s : Nat) : Prop :=
  j.kept = [] ∨ (∃ a ∈ (j.segments o).2.head?, a.key.userKey ≤ k)
    ∨ ∃ seg ∈ (j.segments o).1, Spans seg k s

instance (j : Job) (o : Options) (k : Slice) (s : Nat) : Decidable (InReach j o k s) :=
  inferInstanceAs (Decidable (_ ∨ _))

/-- The lower bound of an output is the key of its first entry. -/
theorem head_key {seg : List Entry} {lo hi : InternalKey} (hs : Sorted seg)
    (hb : Bounds seg lo hi) : ∃ a, seg.head? = some a ∧ a.key = lo := by
  obtain ⟨x, hx, hxk⟩ := hb.lo_mem
  obtain ⟨a, ha⟩ := Option.isSome_iff_exists.mp (List.isSome_head?.mpr (List.ne_nil_of_mem hx))
  obtain ⟨hmem, hle⟩ := OrderedLists.least_head (hs.imp le_of_lt) ha
  exact ⟨a, ha, le_antisymm (hxk ▸ hle x hx) (hb.lo_le a hmem)⟩

/-- The upper bound of an unstretched output is the newest version of its last
    user key. -/
theorem newestOfLast_key {seg : List Entry} {lo hi : InternalKey} (hs : Sorted seg)
    (hb : Bounds seg lo hi) : ∃ b, newestOfLast seg = some b ∧ b.key = hi := by
  obtain ⟨x, hx, hxk⟩ := hb.hi_mem
  obtain ⟨b, hlast⟩ :=
    Option.isSome_iff_exists.mp (List.getLast?_isSome.mpr (List.ne_nil_of_mem hx))
  have hbk : b.key.userKey = hi.userKey := (hb.last hs hlast).2.1
  have hxp : decide (x.key.userKey = b.key.userKey) = true := by simp [hxk, hbk]
  simp only [newestOfLast, hlast]
  obtain ⟨y, hy⟩ : ∃ y, seg.find? (fun e => decide (e.key.userKey = b.key.userKey)) = some y :=
    Option.isSome_iff_exists.mp (List.find?_isSome.mpr ⟨x, hx, hxp⟩)
  obtain ⟨hym, hyb, hle⟩ := OrderedLists.least_find? (hs.imp le_of_lt) hy
  exact ⟨y, hy, le_antisymm (hxk ▸ hle x hx hxp)
    (hb.hi_le y hym ((of_decide_eq_true hyb).trans hbk))⟩

/-! ## Outputs that hold the key -/

/-- The lookup of `k` at `s` falls between the bounds of an output. -/
def Holds (out : Output) (k : Slice) (s : Nat) : Prop :=
  ∃ lo hi, out.smallest = some lo ∧ out.largest = some hi ∧ lo.userKey ≤ k ∧ lookupKey k s ≤ hi

variable {k : Slice}

/-- A lookup of a smaller user key precedes any key. -/
theorem lookupKey_le_of_lt {s : Nat} {a : InternalKey} (h : k < a.userKey) :
    lookupKey k s ≤ a :=
  le_of_lt (InternalKey.lt_of_userKey_lt h)

/-- **Some output holds the key exactly if it is in reach**, for a key below the
    end of the tombstones. -/
theorem holds_iff_inReach {j : Job} {o : Options} (hs : Sorted j.merged) {d : RangeDeletion}
    (hd : d ∈ j.dels) (hlo : d.startKey ≤ k) (hhi : k < d.endKey) (s : Nat) :
    (∃ out ∈ j.doCompactionWork o, Holds out k s) ↔ InReach j o k s := by
  obtain ⟨hs1, hs2, -⟩ := List.pairwise_append.mp (segments_sorted hs o)
  have hne := segments_ne_nil j o
  -- the ends of the tombstones
  obtain ⟨x, rest, hdels⟩ := List.exists_cons_of_ne_nil (List.ne_nil_of_mem hd)
  obtain ⟨e, he⟩ : ∃ e, maxEnd j.dels = some e := ⟨_, by rw [hdels]; rfl⟩
  have hke : k < e := lt_of_lt_of_le hhi ((maxEnd_spec he).1 d hd)
  obtain ⟨p, hp⟩ : ∃ p, minStart j.dels = some p := ⟨_, by rw [hdels]; rfl⟩
  have hpk : p.1 ≤ k := le_trans ((minStart_spec hp).1 d hd) hlo
  have hclosed : ∀ seg ∈ (j.segments o).1, Holds (outputOf j.dels seg) k s ↔ Spans seg k s := by
    intro seg hseg
    have hss := (List.pairwise_flatten.mp hs1).1 seg hseg
    obtain ⟨lo, hi, hlo', hhi', hb⟩ := outputOf_bounds j.dels seg hss (hne seg hseg)
    obtain ⟨a, ha, rfl⟩ := head_key hss hb
    obtain ⟨b, hbl, rfl⟩ := newestOfLast_key hss hb
    rw [Holds, Spans, hlo', hhi', ha, hbl]
    simp
  have hopen : (j.segments o).2 ≠ [] → (Holds ((outputOf j.dels (j.segments o).2).stretch j.dels) k s
      ↔ ∃ a ∈ (j.segments o).2.head?, a.key.userKey ≤ k) := by
    intro h2
    obtain ⟨lo, hi, hlo', hhi', hb⟩ := outputOf_bounds j.dels _ hs2 h2
    obtain ⟨a, ha, rfl⟩ := head_key hs2 hb
    have hreach : lookupKey k s ≤ (if hi.userKey < e then ⟨e, 0, .deletion⟩ else hi) := by
      split_ifs with hlt
      · exact lookupKey_le_of_lt hke
      · exact lookupKey_le_of_lt (lt_of_lt_of_le hke (le_of_not_gt hlt))
    rw [Holds, stretch_same.1, stretch_largest hhi', hlo', ha, he]
    simp [hreach]
  rw [doCompactionWork_eq, InReach, segments_nil_iff j o]
  constructor
  · rintro ⟨out, hout, hh⟩
    rcases mem_outputsOf.mp hout with ⟨hnil, -⟩ | ⟨seg, hseg, rfl⟩ | ⟨h2, rfl⟩
    · exact Or.inl hnil
    · exact Or.inr (Or.inr ⟨seg, hseg, (hclosed seg hseg).mp hh⟩)
    · exact Or.inr (Or.inl ((hopen h2).mp hh))
  · rintro (hnil | hh | ⟨seg, hseg, hh⟩)
    · -- the fallback holds every key a tombstone covers
      obtain ⟨out, hout, hlo', hhi'⟩ : ∃ out ∈ fallbackOutput j.dels,
          out.smallest = some ⟨p.1, p.2, .rangeDeletion⟩ ∧ out.largest = some ⟨e, 0, .deletion⟩ := by
        rw [fallbackOutput, hp, he]
        exact ⟨_, List.mem_singleton_self _, rfl, rfl⟩
      exact ⟨out, mem_outputsOf.mpr (Or.inl ⟨hnil, hout⟩), _, _, hlo', hhi', hpk,
        lookupKey_le_of_lt hke⟩
    · have h2 : (j.segments o).2 ≠ [] := by
        rintro h2
        obtain ⟨a, ha, -⟩ := hh
        rw [h2] at ha
        cases ha
      exact ⟨_, mem_outputsOf.mpr (Or.inr (Or.inr ⟨h2, rfl⟩)), (hopen h2).mpr hh⟩
    · exact ⟨_, mem_outputsOf.mpr (Or.inr (Or.inl ⟨seg, hseg, rfl⟩)), (hclosed seg hseg).mpr hh⟩

variable {f : FileMetaData}

/-- On a sorted level some file is visited or begins after the key, once one does
    not end before the lookup. -/
theorem exists_firstLargest {files : List FileMetaData} (hs : SortedLevel files)
    {ik : InternalKey} (hf : f ∈ files) (hik : ik ≤ f.largest) :
    ∃ g ∈ files, ik ≤ g.largest ∧ (∀ x ∈ files, ik ≤ x.largest → g.largest ≤ x.largest)
      ∧ (g = f ∨ g.largest < f.smallest) := by
  obtain ⟨g, hg, hgk, hmin⟩ := exists_first (P := fun x => ik ≤ x.largest) ⟨f, hf, hik⟩
  have hle : ∀ x ∈ files, ik ≤ x.largest → g = x ∨ g.largest < x.smallest := by
    intro x hx hxk
    rcases hs.trichotomy hg hx with h | h | h
    · exact Or.inl h
    · exact Or.inr h
    · exact absurd (hmin x hx hxk) (not_le_of_gt (lt_of_le_of_lt (hs.ordered x hx) h))
  refine ⟨g, hg, hgk, fun x hx hxk => ?_, hle f hf hik⟩
  rcases hle x hx hxk with rfl | h
  · exact le_refl _
  · exact le_trans (le_of_lt h) (hs.ordered x hx)

/-! ## Lookups after the install -/

section Install

variable {o : Options} {db : DB} {h : List Op} {r : Running}

variable {g : FileMetaData}

/-- An input does not end in the user key a file left on its level begins with. -/
theorem not_butts_input (hi : Inv db h) (hr : db.running = some r) {level l : Nat}
    {ins : List FileMetaData} (hc : ClosedRun level (r.inputVersion.files level) ins)
    (hsub : ∀ x ∈ ins, x ∈ r.inputVersion.files level) (hl : l = level) (hpos : 0 < l)
    (hg : g ∈ db.current.files l) (hgn : g ∉ ins) :
    ∀ x ∈ ins, ¬ Butts x g := by
  intro x hx hb
  subst hl
  have hgrown := (hi.running r hr).grown
  have hxo := (hi.version.file l x (hgrown.sub l x (hsub x hx))).ordered
  have hgo := (hi.version.file l g hg).ordered
  have hm := hb.meets hxo hgo
  by_cases h0 : g ∈ r.inputVersion.files l
  · have hlt := (hc x hx g h0 hgn hm).2
    exact absurd (lt_of_le_of_lt hgo (lt_of_lt_of_le hlt (le_trans hxo (le_of_lt hb.2))))
      (lt_irrefl _)
  · exact hgrown.apart l hpos g hg h0 l (le_refl _) x (hsub x hx) hm.symm

/-- An input of the upper level shares no user key with a file left on the lower
    level. -/
theorem not_meets_beside (hi : Inv db h) (hr : db.running = some r)
    (hg : g ∈ db.current.files (r.compaction.level + 1)) (hgn : g ∉ r.compaction.inputs1) :
    ∀ x ∈ r.compaction.inputs0, ¬ Meets x g := by
  intro x hx hm
  have hro := hi.running r hr
  by_cases h0 : g ∈ r.inputVersion.files (r.compaction.level + 1)
  · rcases hro.closed.beside g h0 hgn with hb | ⟨hb, -⟩
    · exact absurd hm.2 (not_le_of_gt (hb x (List.mem_append.mpr (Or.inl hx))))
    · exact absurd hm.1 (not_le_of_gt (hb x hx))
  · exact hro.grown.apart _ (Nat.succ_pos _) g hg h0 _ (Nat.le_succ _) x
      (hro.closed.run0.sub x hx) hm.symm

/-- An output does not end in the user key a file left on its level begins with. -/
theorem not_butts_output (hi : Inv db h) (hr : db.running = some r) (hin : Installed o db r)
    (hg : g ∈ db.current.files (r.compaction.level + 1))
    (hgn : g ∉ r.compaction.inputs1) : ∀ f ∈ db.outputFiles o r, ¬ Butts f g := by
  intro f hf hb
  have hro := hi.running r hr
  have hgo := (hi.version.file _ g hg).ordered
  obtain ⟨seg, -, -, hsk, -, hpc⟩ := hin.piece f hf
  rcases hpc.hi_mem with ⟨b, hbs, hbk⟩ | ⟨k, -, hbk⟩
  · -- `f` ends with an input entry of the user key
    obtain ⟨x, hx, hbx⟩ := mem_merged.mp ((kept_sublist _).subset (hsk b hbs))
    obtain ⟨l, -, hxl⟩ := inputs_mem hro.closed hro.grown hx
    have hxf := hi.version.file l x hxl
    obtain ⟨h1, h2⟩ := hxf.holds hbx
    have hbg : b.key.userKey = g.smallest.userKey := by rw [hbk, hb.1]
    have hlt : b.key < g.smallest := hbk ▸ hb.2
    have hm : Meets x g := by
      refine ⟨le_trans h1 (hbg ▸ hgo.userKey_le), ?_⟩
      rw [← hbg]
      exact h2
    rcases List.mem_append.mp hx with hx0 | hx1
    · exact not_meets_beside hi hr hg hgn x hx0 hm
    · by_cases h0 : g ∈ r.inputVersion.files (r.compaction.level + 1)
      · have hgx := (hro.closed.closed1 x hx1 g h0 hgn hm).2
        exact absurd (lt_of_le_of_lt hgo (lt_of_lt_of_le hgx (le_trans (hxf.lower b hbx)
          (le_of_lt hlt)))) (lt_irrefl _)
      · exact hro.grown.apart _ (Nat.succ_pos _) g hg h0 _ (le_refl _) x
          (hro.closed.run1.sub x hx1) hm.symm
  · -- nothing of the user key comes after a stretched bound
    refine absurd hb.2 (not_lt_of_ge (InternalKey.le_of_tag_eq_zero ?_ (le_of_eq hb.1.symm)))
    rw [hbk]
    exact InternalKey.tag_zero_deletion k

variable {tables : Nat → Table}

section

variable (hi : Inv db h) (hr : db.running = some r) (hin : Installed o db r)
include hi hr hin

/-- **A file that stays is opened after the install exactly if it was before.** -/
theorem visited_install {next : Nat}
    (hv' : VersionOK h (db.installResults o r).current tables next) {l : Nat}
    (hg : g ∈ db.current.files l) (hgn : g ∉ r.compaction.inputs) (k : Slice) (s : Nat) :
    Visited (db.installResults o r).current k s (l, g) ↔ Visited db.current k s (l, g) := by
  have hcl := (hi.running r hr).closed
  rw [List.mem_append, not_or] at hgn
  refine visited_replaces hi.version hv' hin.replaces hg hgn.1 hgn.2 ?_ ?_ ?_
  · intro hl hpos
    exact not_butts_input hi hr hcl.closed0 hcl.run0.sub hl hpos hg hgn.1
  · intro hl
    exact not_butts_input hi hr hcl.closed1 hcl.run1.sub hl (hl ▸ Nat.succ_pos _) hg hgn.2
  · intro hl
    subst hl
    exact not_butts_output hi hr hin hg hgn.2

/-- A file of the installed version is an output on the output level, or stayed. -/
theorem files_install {l : Nat} (hg : g ∈ (db.installResults o r).current.files l) :
    (g ∈ db.current.files l ∧ g ∉ r.compaction.inputs)
      ∨ (l = r.compaction.level + 1 ∧ g ∈ db.outputFiles o r) := by
  have hro := hi.running r hr
  rcases (hin.replaces.mem l g).mp hg with ⟨hg, hn0, hn1⟩ | hg
  · refine Or.inl ⟨hg, fun hgin => ?_⟩
    rcases List.mem_append.mp hgin with h0 | h1
    · exact hn0 ⟨(hi.version.unique _ _ g g hg (inputs0_mem hro.closed hro.grown g h0) rfl).1, h0⟩
    · exact hn1 ⟨(hi.version.unique _ _ g g hg (inputs1_mem hro.closed hro.grown g h1) rfl).1, h1⟩
  · exact Or.inr hg

omit hi hr hin in
/-- An output the lookup opens holds the key. -/
theorem holds_of_visited {next : Nat} (hin : Installed o db r)
    (hv' : VersionOK h (db.installResults o r).current tables next) {s : Nat}
    (hf : f ∈ db.outputFiles o r)
    (hvis : Visited (db.installResults o r).current k s (r.compaction.level + 1, f)) :
    ∃ out ∈ (db.job r).doCompactionWork o, Holds out k s := by
  obtain ⟨out, hout, hsm, hla, -⟩ := hin.output f hf
  obtain ⟨-, hk, hpos⟩ := (visited_iff hv').mp hvis
  exact ⟨out, hout, _, _, hsm, hla, hk.1, (hpos (Nat.succ_pos _)).1⟩

/-- If some output holds the key, a lookup that opened an input opens an output. -/
theorem visited_of_holds {next : Nat}
    (hv' : VersionOK h (db.installResults o r).current tables next) {s l : Nat} {x : FileMetaData}
    (hvis : Visited db.current k s (l, x)) (hx : x ∈ r.compaction.inputs)
    (hh : ∃ out ∈ (db.job r).doCompactionWork o, Holds out k s) :
    ∃ f ∈ db.outputFiles o r,
      Visited (db.installResults o r).current k s (r.compaction.level + 1, f) := by
  have hro := hi.running r hr
  have hs' := hv'.sortedLevel (Nat.succ_pos r.compaction.level)
  obtain ⟨out, hout, lo, hi', hsm, hla, h1, h2⟩ := hh
  obtain ⟨f, hf, hsm', hla'⟩ := hin.files out hout
  rw [hsm, Option.some.injEq] at hsm'
  rw [hla, Option.some.injEq] at hla'
  subst hsm' hla'
  obtain ⟨g, hg, hgk, hmin, hgf⟩ := exists_firstLargest hs'
    ((hin.replaces.mem _ f).mpr (Or.inr ⟨rfl, hf⟩)) h2
  have hg1 : g.smallest.userKey ≤ k := by
    rcases hgf with rfl | hlt
    · exact h1
    · exact le_trans (hs'.ordered g hg).userKey_le
        (le_trans (InternalKey.userKey_le (le_of_lt hlt)) h1)
  have hvg : Visited (db.installResults o r).current k s (r.compaction.level + 1, g) :=
    mem_forEachOverlapping.mpr (Or.inr ⟨Nat.succ_pos _, (hi.pending r hr).deep,
      (visitedAt_eq_some hs').mpr ⟨hg, hg1, hgk, hmin⟩⟩)
  rcases files_install hi hr hin hg with ⟨hgo, hgn⟩ | ⟨-, hgo⟩
  · -- a file that stayed was opened instead of the input, or shares no key with it
    exfalso
    have hvg0 := (visited_install hi hr hin hv' hgo hgn k s).mp hvg
    obtain ⟨hxl, hx1, hx2⟩ := visited_holds hi.version hvis
    rcases List.mem_append.mp hx with hx0 | hx0
    · exact not_meets_beside hi hr hgo (fun hc => hgn (List.mem_append.mpr (Or.inr hc))) x hx0
        ⟨le_trans hx1 (InternalKey.userKey_le hgk), le_trans hg1 hx2⟩
    · have hl := (hi.version.unique _ _ x x hxl (inputs1_mem hro.closed hro.grown x hx0) rfl).1
      subst hl
      exact hgn (visited_unique (Nat.succ_pos _) hvis hvg0 ▸ hx)
  · exact ⟨g, hgo, hvg⟩

end

/-- Every output carries all range deletions of the inputs. -/
theorem output_dels (hin : Installed o db r) (hf : f ∈ db.outputFiles o r) :
    ((db.installResults o r).tables f.number).rangeDeletions = (db.job r).dels := by
  obtain ⟨seg, ht, -⟩ := hin.piece f hf
  rw [ht]

end Install

/-- **When a compaction keeps a tombstone in reach**, in runs whose installs, this one
    included, pass the check of `SaveTo` and write no inverted fallback.  A lookup of `k`
    at `s` that opened an input with a tombstone covering `k` opens an output with it in
    the installed version exactly if the surviving entries keep `k` in reach. -/
theorem tombstone_reach_iff {o : Options} {db db' : DB} {h : List Op} {r : Running}
    (hreach : Reach o (CheckedInstalls o) db h) (hr : db.running = some r)
    (hstep : step o db .installResults = some db') (hsave : saveToChecks db'.current)
    {k : Slice} {s l : Nat} {x : FileMetaData} {t : RangeDeletion}
    (hvis : (l, x) ∈ db.current.forEachOverlapping k (lookupKey k s))
    (hx : x ∈ r.compaction.inputs0 ++ r.compaction.inputs1)
    (ht : t ∈ (db.tables x.number).rangeDeletions) (hlo : t.startKey ≤ k) (hhi : k < t.endKey) :
    (∃ f ∈ db.outputFiles o r,
        (r.compaction.level + 1, f) ∈ db'.current.forEachOverlapping k (lookupKey k s)
          ∧ t ∈ (db'.tables f.number).rangeDeletions)
      ↔ InReach (db.job r) o k s := by
  have hi := inv_reach soundInstall_of_checked hreach
  obtain ⟨r', hr', hlen, rfl⟩ := step_installResults hstep
  rw [hr, Option.some.injEq] at hr'
  subst hr'
  have hin := installed hi hr hlen
  have htd : t ∈ (db.job r).dels := (hi.mem_dels hr).mpr ⟨x, hx, ht⟩
  -- a tombstone that covers a key keeps the fallback in order
  have hfb : FallbackOrdered (db.job r) := by
    intro _ p hp e he
    exact le_trans ((minStart_spec hp).1 t htd)
      (le_trans (le_of_lt (lt_of_le_of_lt hlo hhi)) ((maxEnd_spec he).1 t htd))
  have hsound := soundInstall_of_checked hi (fun _ r' hr'' => by
    rw [hr, Option.mem_def, Option.some.injEq] at hr''
    exact hr'' ▸ ⟨hfb, hsave⟩) hstep rfl r hr
  have hv' := versionOK_install hi hr hin hfb hsound.2
  rw [← holds_iff_inReach (hi.merged_sorted hr) htd hlo hhi s]
  constructor
  · rintro ⟨f, hf, hvf, -⟩
    exact holds_of_visited hin hv' hf hvf
  · intro hh
    obtain ⟨f, hf, hvf⟩ := visited_of_holds hi hr hin hv' hvis hx hh
    exact ⟨f, hf, hvf, (output_dels hin hf).symm ▸ htd⟩

/-- A tombstone `[a, z)` over an older `b`, with a newer `m`, about to be compacted
    into one output that holds `m` alone. -/
def coverRun : List Action :=
  flushOf [.put [98] [1]] ++ flushOf [.deleteRange [97] [122], .put [109] [2]]
    ++ [.manualCompaction 1 none none false, .openOutput]

/-- The key `n`, after the surviving `m`, stays in reach of the tombstone. -/
theorem tombstone_reach_iff_coverRun :
    ∃ db db' f, Reach sampleOptions (CheckedInstalls sampleOptions) db (opsOf coverRun)
      ∧ step sampleOptions db .installResults = some db'
      ∧ (2, f) ∈ db'.current.forEachOverlapping [110] (lookupKey [110] 3)
      ∧ ⟨[97], [122], 2⟩ ∈ (db'.tables f.number).rangeDeletions := by
  have hrun : (run sampleOptions (CheckedInstalls sampleOptions) DB.init coverRun).any (fun db =>
      ∃ r ∈ db.running, ∃ db' ∈ step sampleOptions db .installResults, saveToChecks db'.current
        ∧ r.compaction.level = 1 ∧ InReach (db.job r) sampleOptions [110] 3
        ∧ ∃ p ∈ db.current.forEachOverlapping [110] (lookupKey [110] 3),
            p.2 ∈ r.compaction.inputs0 ++ r.compaction.inputs1
            ∧ (⟨[97], [122], 2⟩ : RangeDeletion) ∈ (db.tables p.2.number).rangeDeletions)
      = true := by
    decide +kernel
  obtain ⟨db, hreach, hq⟩ := reach_of_run hrun
  obtain ⟨r, hr, db', hstep, hsave, hl, hin, ⟨l, x⟩, hvis, hx, ht⟩ := hq
  obtain ⟨f, -, hvf, htf⟩ := (tombstone_reach_iff hreach hr hstep hsave hvis hx ht (by decide)
    (by decide)).mpr hin
  rw [hl] at hvf
  exact ⟨db, db', f, hreach, hstep, hvf, htf⟩

/-- **The key `b`, in front of the surviving `m`, falls out of reach**: the lookup
    that opened the input with the tombstone opens no output. -/
theorem coverRun_loses_reach :
    ∃ db db' h r l x t, Reach sampleOptions (CheckedInstalls sampleOptions) db h
      ∧ db.running = some r ∧ step sampleOptions db .installResults = some db'
      ∧ saveToChecks db'.current
      ∧ (l, x) ∈ db.current.forEachOverlapping [98] (lookupKey [98] 3)
      ∧ x ∈ r.compaction.inputs0 ++ r.compaction.inputs1
      ∧ t ∈ (db.tables x.number).rangeDeletions ∧ t.startKey ≤ [98] ∧ [98] < t.endKey
      ∧ ¬ ∃ f ∈ db.outputFiles sampleOptions r, (r.compaction.level + 1, f) ∈
            db'.current.forEachOverlapping [98] (lookupKey [98] 3)
          ∧ t ∈ (db'.tables f.number).rangeDeletions := by
  have hrun : (run sampleOptions (CheckedInstalls sampleOptions) DB.init coverRun).any (fun db =>
      ∃ r ∈ db.running, ∃ db' ∈ step sampleOptions db .installResults, saveToChecks db'.current
        ∧ (∃ p ∈ db.current.forEachOverlapping [98] (lookupKey [98] 3),
            p.2 ∈ r.compaction.inputs0 ++ r.compaction.inputs1
            ∧ (⟨[97], [122], 2⟩ : RangeDeletion) ∈ (db.tables p.2.number).rangeDeletions)
        ∧ ∀ f ∈ db.outputFiles sampleOptions r, (r.compaction.level + 1, f) ∉
            db'.current.forEachOverlapping [98] (lookupKey [98] 3)) = true := by
    decide +kernel
  obtain ⟨db, hreach, hq⟩ := reach_of_run hrun
  obtain ⟨r, hr, db', hstep, hsave, ⟨⟨l, x⟩, hvis, hx, ht⟩, hno⟩ := hq
  refine ⟨db, db', _, r, l, x, _, hreach, hr, hstep, hsave, hvis, hx, ht, by decide, by decide, ?_⟩
  rintro ⟨f, hf, hvf, -⟩
  exact hno f hf hvf

end LdbTombstoneReach
