import LevelDB.Invariant
import LevelDB.Outputs

/-! # What flushes, moves and compactions do to a version

    Two changes of version exist: a flush adds one new file, and a compaction
    replaces input files by outputs one level down (a trivial move is the case
    where the output is the input itself).  Each is described once, as a relation
    between versions, with what it needs to keep `VersionOK`. -/

namespace LdbSteps

open LdbFormat LdbVersion LdbEdit LdbTable LdbCompaction LdbClosure LdbWork LdbDb LdbInv

variable {f : FileMetaData} {h : List Op} {t : Table} {level next : Nat} {v v' : Version}

variable {g : FileMetaData}

/-- Internal-key order makes earlier entries of a user key the newer ones. -/
theorem newer_of_precedes {u : Table} (ht : FileOK h f t) (hu : FileOK h g u)
    (hp : Precedes t u) : Newer t u := by
  intro e he e' he' hk
  have hlt := hp e he e' he'
  have hle := InternalKey.sequence_le hk (le_of_lt hlt)
  refine lt_of_le_of_ne hle ?_
  intro heq
  have := (ht.committed e he).eq_of_sequence (hu.committed e' he') heq.symm
  exact absurd (this ▸ hlt) (lt_irrefl _)

/-- A file whose user keys end before another's begin precedes it. -/
theorem precedes_of_userKey_lt {u : Table} (ht : FileOK h f t)
    (hu : FileOK h g u) (hlt : f.largest.userKey < g.smallest.userKey) : Precedes t u := by
  intro e he e' he'
  exact InternalKey.lt_of_userKey_lt (lt_of_le_of_lt (ht.holds he).2
    (lt_of_lt_of_le hlt (hu.holds he').1))

/-- Of two files that are apart in user keys, the one in front precedes the other. -/
theorem precedes_of_apart {u : Table} (ht : FileOK h f t) (hu : FileOK h g u)
    (hapart : f.largest.userKey < g.smallest.userKey ∨ g.largest.userKey < f.smallest.userKey)
    (hlt : f.largest < g.smallest) : Precedes t u := by
  refine precedes_of_userKey_lt ht hu (hapart.resolve_right fun hgf => ?_)
  exact absurd hlt (not_lt_of_gt (lt_of_le_of_lt hu.ordered
    (lt_of_lt_of_le (InternalKey.lt_of_userKey_lt hgf) ht.ordered)))

/-! ## Flushes -/

/-- The widening of `WriteLevel0Table` only moves the bounds outwards, to the
    range deletions. -/
theorem foldl_widenBounds (dels : List RangeDeletion) :
    ∀ f : FileMetaData, (dels.foldl widenBounds f).number = f.number
      ∧ (dels.foldl widenBounds f).smallest ≤ f.smallest
      ∧ f.largest ≤ (dels.foldl widenBounds f).largest
      ∧ ((dels.foldl widenBounds f).largest = f.largest
          ∨ (dels.foldl widenBounds f).largest.tag = 0)
      ∧ ∀ d ∈ dels, (dels.foldl widenBounds f).smallest.userKey ≤ d.startKey
          ∧ d.endKey ≤ (dels.foldl widenBounds f).largest.userKey := by
  induction dels with
  | nil =>
    intro f
    exact ⟨rfl, le_refl _, le_refl _, Or.inl rfl, nofun⟩
  | cons d rest ih =>
    intro f
    obtain ⟨h1, h2, h3, h4, h5⟩ := ih (widenBounds f d)
    have hsm : (widenBounds f d).smallest ≤ f.smallest
        ∧ (widenBounds f d).smallest.userKey ≤ d.startKey := by
      show (if _ then _ else _) ≤ _ ∧ InternalKey.userKey (if _ then _ else _) ≤ _
      split_ifs with hlt
      · exact ⟨le_of_lt (InternalKey.lt_of_userKey_lt (userCompare_lt.mp hlt)), le_refl _⟩
      · exact ⟨le_refl _, le_of_not_gt (userCompare_lt.not.mp hlt)⟩
    have hla : f.largest ≤ (widenBounds f d).largest
        ∧ d.endKey ≤ (widenBounds f d).largest.userKey
        ∧ ((widenBounds f d).largest = f.largest ∨ (widenBounds f d).largest.tag = 0) := by
      show _ ≤ (if _ then _ else _) ∧ _ ≤ InternalKey.userKey (if _ then _ else _)
        ∧ ((if _ then _ else _) = _ ∨ InternalKey.tag (if _ then _ else _) = 0)
      split_ifs with hlt
      · exact ⟨le_of_lt (InternalKey.lt_of_userKey_lt (userCompare_gt.mp hlt)), le_refl _,
          Or.inr (InternalKey.tag_zero_deletion _)⟩
      · exact ⟨le_refl _, le_of_not_gt (userCompare_gt.not.mp hlt), Or.inl rfl⟩
    rw [List.foldl_cons]
    refine ⟨h1, le_trans h2 hsm.1, le_trans hla.1 h3, ?_, ?_⟩
    · rcases h4 with h4 | h4
      · rw [h4]
        exact hla.2.2
      · exact Or.inr h4
    · intro x hx
      rcases List.mem_cons.mp hx with rfl | hx
      · exact ⟨le_trans (InternalKey.userKey_le h2) hsm.2,
          le_trans hla.2.1 (InternalKey.userKey_le h3)⟩
      · exact h5 x hx

/-- What a flushed file and its table look like: all of the memtable, between
    bounds that contain its keys and its range deletions. -/
structure Flushed (m : MemTable) (number : Nat) (f : FileMetaData) (t : Table) : Prop where
  number : f.number = number
  entries : t.entries = m.table.filter (·.isPoint)
  dels : t.rangeDeletions = (m.table.filter (!·.isPoint)).map (·.rangeDeletion)
  lower : ∀ e ∈ m.table, f.smallest ≤ e.key
  upper : ∀ e ∈ m.table, e.key ≤ f.largest
  nonempty : m.table ≠ []
  last : (∃ e ∈ m.table, f.largest = e.key) ∨ f.largest.tag = 0
  reach : ∀ d ∈ m.rangeDeletions, f.smallest.userKey ≤ d.startKey
    ∧ d.endKey ≤ f.largest.userKey

variable {number : Nat} {m : MemTable}

/-- **`WriteLevel0Table`.** -/
theorem writeLevel0Table_spec {o : Options} {base : Version}
    (hs : Sorted m.table) (hw : writeLevel0Table o base number m = some (f, t, level)) :
    Flushed m number f t
      ∧ level = base.pickLevelForMemTableOutput o f.smallest.userKey f.largest.userKey := by
  rw [writeLevel0Table] at hw
  cases hb : buildTable o number m.table with
  | none => simp [hb] at hw
  | some p =>
    obtain ⟨g, u⟩ := p
    simp only [hb, Option.some.injEq, Prod.mk.injEq] at hw
    obtain ⟨rfl, rfl, rfl⟩ := hw
    refine ⟨?_, rfl⟩
    rw [buildTable] at hb
    split at hb
    · rename_i first last hfirst hlast
      simp only [Option.some.injEq, Prod.mk.injEq] at hb
      obtain ⟨rfl, rfl⟩ := hb
      obtain ⟨h1, h2, h3, h4, h5⟩ := foldl_widenBounds m.rangeDeletions
        ⟨number, o.finishedSize m.table, first.key, last.key⟩
      obtain ⟨-, hleast⟩ := OrderedLists.least_head (hs.imp le_of_lt) hfirst
      obtain ⟨hlastm, hgreatest⟩ := OrderedLists.greatest_last (hs.imp le_of_lt) hlast
      exact { number := h1, entries := rfl, dels := rfl, nonempty := List.ne_nil_of_mem hlastm
              lower := fun e he => le_trans h2 (hleast e he)
              upper := fun e he => le_trans (hgreatest e he) h3
              last := h4.imp_left fun h4 => ⟨last, hlastm, h4⟩, reach := h5 }
    · cases hb

theorem Flushed.fileOK (hf : Flushed m number f t) (hm : MemOK h m)
    (hle : h.length ≤ kMaxSequenceNumber) :
    FileOK h f t where
  sorted := by
    rw [hf.entries]
    exact hm.sorted.filter _
  points e he := by
    rw [hf.entries] at he
    exact (List.mem_filter.mp he).2
  committed e he := by
    rw [hf.entries] at he
    exact hm.committed e (List.mem_filter.mp he).1
  dels d hd := by
    rw [hf.dels] at hd
    obtain ⟨e, he, rfl⟩ := List.mem_map.mp hd
    obtain ⟨he, hp⟩ := List.mem_filter.mp he
    refine (hm.committed e he).rangeDeletion ?_
    simpa [Entry.isPoint] using hp
  ordered := by
    obtain ⟨e, he⟩ := List.exists_mem_of_ne_nil _ hf.nonempty
    exact le_trans (hf.lower e he) (hf.upper e he)
  lower e he := by
    rw [hf.entries] at he
    exact hf.lower e (List.mem_filter.mp he).1
  upper e he := by
    rw [hf.entries] at he
    exact InternalKey.userKey_le (hf.upper e (List.mem_filter.mp he).1)
  bounded := by
    rcases hf.last with ⟨e, he, heq⟩ | heq
    · rw [heq]
      exact le_trans (hm.committed e he).sequence_le.2 hle
    · rw [InternalKey.sequence_eq_zero heq]
      exact Nat.zero_le _

/-- A flushed table holds the range deletions of its memtable. -/
theorem Flushed.mem_dels (hf : Flushed m number f t) (hm : MemOK h m)
    {d : RangeDeletion} : d ∈ t.rangeDeletions ↔ d ∈ m.rangeDeletions := by
  rw [hf.dels, hm.dels, List.mem_map]
  constructor
  · rintro ⟨e, he, rfl⟩
    obtain ⟨he, hp⟩ := List.mem_filter.mp he
    exact ⟨e, he, by simpa [Entry.isPoint] using hp, rfl⟩
  · rintro ⟨e, he, ht, rfl⟩
    exact ⟨e, List.mem_filter.mpr ⟨he, by simp [Entry.isPoint, ht]⟩, rfl⟩

/-- A version with one more file. -/
structure Adds (v v' : Version) (level : Nat) (f : FileMetaData) : Prop where
  mem : ∀ l g, g ∈ v'.files l ↔ g ∈ v.files l ∨ (l = level ∧ g = f)
  sorted : ∀ l, (v'.files l).Pairwise bySmallestKey

theorem Listed.add (hv : Listed v next) (ha : Adds v v' level f) (hlevel : level < kNumLevels)
    (hnum : f.number = next) : Listed v' (next + 1) := by
  refine ⟨?_, ?_, ha.sorted, ?_⟩
  · intro l g hg
    rcases (ha.mem l g).mp hg with hg | ⟨-, rfl⟩
    · exact Nat.lt_succ_of_lt (hv.number l g hg)
    · omega
  · intro l l' g g' hg hg' heq
    rcases (ha.mem l g).mp hg with hg | ⟨rfl, rfl⟩ <;>
      rcases (ha.mem l' g').mp hg' with hg' | ⟨rfl, rfl⟩
    · exact hv.unique l l' g g' hg hg' heq
    · have := hv.number l g hg
      omega
    · have := hv.number l' g' hg'
      omega
    · exact ⟨rfl, rfl⟩
  · intro l hl
    refine List.eq_nil_iff_forall_not_mem.mpr fun g hg => ?_
    rcases (ha.mem l g).mp hg with hg | ⟨rfl, -⟩
    · rw [hv.levels l hl] at hg
      cases hg
    · omega

/-- Two files that do not meet are apart in user keys. -/
theorem apart_of_not_meets (h : ¬ Meets f g) :
    f.largest.userKey < g.smallest.userKey ∨ g.largest.userKey < f.smallest.userKey := by
  by_cases h1 : f.smallest.userKey ≤ g.largest.userKey
  · left
    by_contra h2
    exact h ⟨h1, le_of_not_gt h2⟩
  · right
    exact lt_of_not_ge h1

/-- **A flush keeps `VersionOK`**: the new file is newer than all tables, and
    below level 0 it meets nothing at or above its level. -/
theorem versionOK_add {tables tables' : Nat → Table} (hv : VersionOK h v tables next)
    (ha : Adds v v' level f) (hlevel : level < kNumLevels) (hnum : f.number = next)
    (htab : ∀ n < next, tables' n = tables n) (hf : FileOK h f (tables' f.number))
    (hnew : ∀ l, ∀ g ∈ v.files l, Newer (tables' f.number) (tables g.number))
    (hapart : 0 < level → ∀ l ≤ level, ∀ g ∈ v.files l, ¬ Meets f g) :
    VersionOK h v' tables' (next + 1) := by
  have htab' : ∀ l, ∀ g ∈ v.files l, tables' g.number = tables g.number := fun l g hg =>
    htab g.number (hv.number l g hg)
  have hfile : ∀ l, ∀ g ∈ v'.files l, FileOK h g (tables' g.number) := by
    intro l g hg
    rcases (ha.mem l g).mp hg with hg | ⟨-, rfl⟩
    · rw [htab' l g hg]
      exact hv.file l g hg
    · exact hf
  refine { toListed := Listed.add hv.toListed ha hlevel hnum, file := hfile,
           disjoint := ?_, order := ?_, recent := ?_, recent0 := ?_ }
  · intro l hl
    refine disjointFiles_of_sorted (ha.sorted l) (fun g hg => (hfile l g hg).ordered) ?_
    have hpair : ∀ g ∈ v.files level, level = l →
        f.largest < g.smallest ∨ g.largest < f.smallest := by
      rintro g hg rfl
      exact (apart_of_not_meets (hapart hl level (le_refl _) g hg)).imp
        InternalKey.lt_of_userKey_lt InternalKey.lt_of_userKey_lt
    intro g hg g' hg' hne
    rcases (ha.mem l g).mp hg with hg | ⟨rfl, rfl⟩ <;>
      rcases (ha.mem l g').mp hg' with hg' | ⟨hl', rfl⟩
    · rcases (hv.sortedLevel hl).trichotomy hg hg' with h1 | h1
      · exact absurd h1 hne
      · exact h1
    · exact (hpair g (hl' ▸ hg) hl'.symm).symm
    · exact hpair g' hg' rfl
    · exact absurd rfl hne
  · intro l hl g hg g' hg' hlt
    rcases (ha.mem l g).mp hg with hgo | ⟨rfl, rfl⟩ <;>
      rcases (ha.mem l g').mp hg' with hgo' | ⟨hl', rfl⟩
    · rw [htab' l g hgo, htab' l g' hgo']
      exact hv.order l hl g hgo g' hgo' hlt
    · subst hl'
      exact precedes_of_apart (hfile l g hg) hf
        (apart_of_not_meets (hapart hl l (le_refl _) g hgo)).symm hlt
    · exact precedes_of_apart hf (hfile l g' hg')
        (apart_of_not_meets (hapart hl l (le_refl _) g' hgo')) hlt
    · exact absurd hlt (not_lt_of_ge hf.ordered)
  · intro i j hij g hg g' hg'
    rcases (ha.mem i g).mp hg with hgo | ⟨rfl, rfl⟩ <;>
      rcases (ha.mem j g').mp hg' with hgo' | ⟨rfl, rfl⟩
    · rw [htab' i g hgo, htab' j g' hgo']
      exact hv.recent i j hij g hgo g' hgo'
    · -- no file above the pushed-down one shares a user key with it
      intro e he e' he' hk
      exact absurd (meets_of_userKey hf (hfile i g hg) he' he hk.symm)
        (hapart (by omega) i (le_of_lt hij) g hgo)
    · rw [htab' j g' hgo']
      exact hnew j g' hgo'
    · omega
  · intro g hg g' hg' hlt
    rcases (ha.mem 0 g).mp hg with hgo | ⟨h0, rfl⟩ <;>
      rcases (ha.mem 0 g').mp hg' with hgo' | ⟨h0', rfl⟩
    · rw [htab' 0 g hgo, htab' 0 g' hgo']
      exact hv.recent0 g hgo g' hgo' hlt
    · have := hv.number 0 g hgo
      omega
    · rw [htab' 0 g' hgo']
      exact hnew 0 g' hgo'
    · omega

/-! ## Compactions and moves -/

/-- A version where the files `ins0` of a level and `ins1` of the next one are
    replaced by `outs` on the next one. -/
structure Replaces (v v' : Version) (level : Nat) (ins0 ins1 outs : List FileMetaData) :
    Prop where
  mem : ∀ l g, g ∈ v'.files l ↔
    (g ∈ v.files l ∧ ¬ (l = level ∧ g ∈ ins0) ∧ ¬ (l = level + 1 ∧ g ∈ ins1))
      ∨ (l = level + 1 ∧ g ∈ outs)
  sorted : ∀ l, (v'.files l).Pairwise bySmallestKey
  sub0   : ∀ x ∈ ins0, x ∈ v.files level
  sub1   : ∀ x ∈ ins1, x ∈ v.files (level + 1)
  deep : level + 1 < kNumLevels

theorem Listed.replace {next' : Nat} {ins0 ins1 outs : List FileMetaData} (hv : Listed v next)
    (hr : Replaces v v' level ins0 ins1 outs) (hnext : next ≤ next')
    (hnum : ∀ f ∈ outs, f.number < next')
    (huniq : ∀ l, ∀ f ∈ outs, ∀ g ∈ v'.files l, f.number = g.number → f = g)
    (hlev : ∀ l, ∀ g ∈ v'.files l, g ∈ outs → l = level + 1) : Listed v' next' := by
  refine ⟨?_, ?_, hr.sorted, ?_⟩
  · intro l g hg
    rcases (hr.mem l g).mp hg with ⟨hg, -, -⟩ | ⟨-, hg⟩
    · exact Nat.lt_of_lt_of_le (hv.number l g hg) hnext
    · exact hnum g hg
  · intro l l' g g' hg hg' heq
    rcases (hr.mem l g).mp hg with ⟨hgo, -, -⟩ | ⟨rfl, hgo⟩
    · rcases (hr.mem l' g').mp hg' with ⟨hgo', -, -⟩ | ⟨rfl, hgo'⟩
      · exact hv.unique l l' g g' hgo hgo' heq
      · have hsame := huniq l g' hgo' g hg heq.symm
        subst hsame
        exact ⟨hlev l g' hg hgo', rfl⟩
    · have hsame := huniq l' g hgo g' hg' heq
      subst hsame
      exact ⟨(hlev l' g hg' hgo).symm, rfl⟩
  · intro l hl
    refine List.eq_nil_iff_forall_not_mem.mpr fun g hg => ?_
    rcases (hr.mem l g).mp hg with ⟨hg, -, -⟩ | ⟨rfl, -⟩
    · rw [hv.levels l hl] at hg
      cases hg
    · have := hr.deep
      omega

/-- What the outputs must satisfy: well-formed files under numbers of their own,
    in order, holding only entries of the inputs. -/
structure OutputsOK (h : List Op) (v' : Version) (tables tables' : Nat → Table) (next' : Nat)
    (ins0 ins1 outs : List FileMetaData) : Prop where
  file : ∀ f ∈ outs, FileOK h f (tables' f.number)
  number : ∀ f ∈ outs, f.number < next'
  source : ∀ f ∈ outs, ∀ e ∈ (tables' f.number).entries,
    ∃ x ∈ ins0 ++ ins1, e ∈ (tables x.number).entries
  unique : ∀ l, ∀ f ∈ outs, ∀ g ∈ v'.files l, f.number = g.number → f = g
  order : ∀ f ∈ outs, ∀ g ∈ outs, f.largest < g.smallest →
    Precedes (tables' f.number) (tables' g.number)

/-- **Replacing inputs by outputs keeps `VersionOK`**, given that files left on
    the input level are newer than the inputs, that files left on the output
    level lie beside the outputs, and that the new levels are disjoint. -/
theorem versionOK_replace {tables tables' : Nat → Table} {next' : Nat}
    {ins0 ins1 outs : List FileMetaData} (hv : VersionOK h v tables next)
    (hr : Replaces v v' level ins0 ins1 outs)
    (ho : OutputsOK h v' tables tables' next' ins0 ins1 outs) (hnext : next ≤ next')
    (htab : ∀ l, ∀ g ∈ v.files l, tables' g.number = tables g.number)
    (hlev : ∀ l, ∀ g ∈ v'.files l, g ∈ outs → l = level + 1)
    (hdis : ∀ l, 0 < l → DisjointFiles (v'.files l))
    (hstay : ∀ g ∈ v.files level, g ∉ ins0 → ∀ x ∈ ins0, Newer (tables g.number) (tables x.number))
    (hside : ∀ g ∈ v.files (level + 1), g ∉ ins1 → ∀ f ∈ outs,
      (f.largest < g.smallest → Precedes (tables' f.number) (tables g.number))
        ∧ (g.largest < f.smallest → Precedes (tables g.number) (tables' f.number))) :
    VersionOK h v' tables' next' := by
  have hfile : ∀ l, ∀ g ∈ v'.files l, FileOK h g (tables' g.number) := by
    intro l g hg
    rcases (hr.mem l g).mp hg with ⟨hg, -, -⟩ | ⟨-, hg⟩
    · rw [htab l g hg]
      exact hv.file l g hg
    · exact ho.file g hg
  refine { toListed := Listed.replace hv.toListed hr hnext ho.number ho.unique hlev,
           file := hfile, disjoint := hdis, order := ?_, recent := ?_, recent0 := ?_ }
  · intro l hl g hg g' hg' hlt
    rcases (hr.mem l g).mp hg with ⟨hgo, -, hgn⟩ | ⟨rfl, hgo⟩
    · rcases (hr.mem l g').mp hg' with ⟨hgo', -, -⟩ | ⟨rfl, hgo'⟩
      · rw [htab l g hgo, htab l g' hgo']
        exact hv.order l hl g hgo g' hgo' hlt
      · rw [htab _ g hgo]
        exact (hside g hgo (fun hc => hgn ⟨rfl, hc⟩) g' hgo').2 hlt
    · rcases (hr.mem _ g').mp hg' with ⟨hgo', -, hgn'⟩ | ⟨-, hgo'⟩
      · rw [htab _ g' hgo']
        exact (hside g' hgo' (fun hc => hgn' ⟨rfl, hc⟩) g hgo).1 hlt
      · exact ho.order g hgo g' hgo' hlt
  · intro i j hij g hg g' hg'
    rcases (hr.mem i g).mp hg with ⟨hgo, hgn, -⟩ | ⟨rfl, hgo⟩
    · rcases (hr.mem j g').mp hg' with ⟨hgo', -, -⟩ | ⟨rfl, hgo'⟩
      · rw [htab i g hgo, htab j g' hgo']
        exact hv.recent i j hij g hgo g' hgo'
      · -- an old file above an output: compare with the input the entry comes from
        rw [htab i g hgo]
        intro e he e' he' hk
        obtain ⟨x, hx, hex⟩ := ho.source g' hgo' e' he'
        rcases List.mem_append.mp hx with hx | hx
        · rcases Nat.lt_succ_iff_lt_or_eq.mp hij with hlt | rfl
          · exact hv.recent i level hlt g hgo x (hr.sub0 x hx) e he e' hex hk
          · exact hstay g hgo (fun hc => hgn ⟨rfl, hc⟩) x hx e he e' hex hk
        · exact hv.recent i (level + 1) hij g hgo x (hr.sub1 x hx) e he e' hex hk
    · rcases (hr.mem j g').mp hg' with ⟨hgo', -, -⟩ | ⟨rfl, hgo'⟩
      · rw [htab j g' hgo']
        intro e he e' he' hk
        obtain ⟨x, hx, hex⟩ := ho.source g hgo e he
        rcases List.mem_append.mp hx with hx | hx
        · exact hv.recent level j (by omega) x (hr.sub0 x hx) g' hgo' e hex e' he' hk
        · exact hv.recent (level + 1) j hij x (hr.sub1 x hx) g' hgo' e hex e' he' hk
      · omega
  · intro g hg g' hg' hlt
    rcases (hr.mem 0 g).mp hg with ⟨hgo, -, -⟩ | ⟨h0, -⟩
    · rcases (hr.mem 0 g').mp hg' with ⟨hgo', -, -⟩ | ⟨h0, -⟩
      · rw [htab 0 g hgo, htab 0 g' hgo']
        exact hv.recent0 g hgo g' hgo' hlt
      · omega
    · omega

/-! ## Files left beside a running compaction -/

/-- `v` is the version `v₀` a compaction picked its inputs from, with flushes
    since: they have larger numbers and newer entries than the inputs, and
    pushed-down ones met no file. -/
structure GrownSince (c : Compaction) (v₀ v : Version) (tables : Nat → Table) : Prop where
  sub : ∀ l, ∀ f ∈ v₀.files l, f ∈ v.files l
  newer : ∀ l, ∀ g ∈ v.files l, g ∉ v₀.files l → ∀ x ∈ c.inputs0 ++ c.inputs1,
    Newer (tables g.number) (tables x.number)
  later : ∀ l, ∀ g ∈ v.files l, g ∉ v₀.files l → ∀ x ∈ c.inputs0 ++ c.inputs1,
    x.number < g.number
  apart : ∀ l, 0 < l → ∀ g ∈ v.files l, g ∉ v₀.files l → ∀ l' ≤ l, ∀ x ∈ v₀.files l',
    ¬ Meets g x

section Beside

variable {h : List Op} {c : Compaction} {v₀ v : Version} {tables : Nat → Table} {next : Nat}

section

variable (hc : Closed c v₀) (hg : GrownSince c v₀ v tables)
include hc hg

theorem inputs0_mem :
    ∀ x ∈ c.inputs0, x ∈ v.files c.level :=
  fun x hx => hg.sub c.level x (hc.run0.sub x hx)

theorem inputs1_mem :
    ∀ x ∈ c.inputs1, x ∈ v.files (c.level + 1) :=
  fun x hx => hg.sub (c.level + 1) x (hc.run1.sub x hx)

theorem inputs_mem {x : FileMetaData} (hx : x ∈ c.inputs) :
    ∃ l, (l = c.level ∨ l = c.level + 1) ∧ x ∈ v.files l := by
  rcases List.mem_append.mp hx with hx | hx
  · exact ⟨c.level, Or.inl rfl, inputs0_mem hc hg x hx⟩
  · exact ⟨c.level + 1, Or.inr rfl, inputs1_mem hc hg x hx⟩

end

/-- Files left on the input level are newer than the inputs. -/
theorem stay_newer (hv : VersionOK h v tables next) (hc : Closed c v₀)
    (hg : GrownSince c v₀ v tables) :
    ∀ g ∈ v.files c.level, g ∉ c.inputs0 → ∀ x ∈ c.inputs0,
      Newer (tables g.number) (tables x.number) := by
  intro g hgv hgn x hx
  by_cases h0 : g ∈ v₀.files c.level
  · have hxv := inputs0_mem hc hg x hx
    intro e he e' he' hk
    have hm := meets_of_userKey (hv.file _ x hxv) (hv.file _ g hgv) he' he hk.symm
    obtain ⟨hl, hlt⟩ := hc.closed0 x hx g h0 hgn hm
    exact newer_of_precedes (hv.file _ g hgv) (hv.file _ x hxv)
      (hv.order c.level hl g hgv x hxv hlt) e he e' he' hk
  · exact hg.newer c.level g hgv h0 x (List.mem_append.mpr (Or.inl hx))

/-- Files left on the output level lie beside an output that is built from input
    entries, on the side its bounds say. -/
theorem side_precedes (hv : VersionOK h v tables next) (hc : Closed c v₀)
    (hg : GrownSince c v₀ v tables) {f : FileMetaData} {t : Table} (hf : FileOK h f t)
    (hsrc : ∀ e ∈ t.entries, ∃ x ∈ c.inputs, e ∈ (tables x.number).entries)
    (hlo : t.entries ≠ [] → ∃ a ∈ t.entries, a.key = f.smallest)
    (hhi : t.entries ≠ [] → ∃ b ∈ t.entries, b.key ≤ f.largest) :
    ∀ g ∈ v.files (c.level + 1), g ∉ c.inputs1 →
      (f.largest < g.smallest → Precedes t (tables g.number))
        ∧ (g.largest < f.smallest → Precedes (tables g.number) t) := by
  intro g hgv hgn
  have hgf := hv.file _ g hgv
  have hxf : ∀ x ∈ c.inputs, FileOK h x (tables x.number) := by
    intro x hx
    obtain ⟨l, -, hl⟩ := inputs_mem hc hg hx
    exact hv.file l x hl
  by_cases h0 : g ∈ v₀.files (c.level + 1)
  · rcases hc.beside g h0 hgn with hleft | ⟨hr0, hr1⟩
    · -- all inputs end before `g`
      constructor
      · intro _ e he e' he'
        obtain ⟨x, hx, hex⟩ := hsrc e he
        exact precedes_of_userKey_lt (hxf x hx) hgf (hleft x hx) e hex e' he'
      · intro hlt e he e' he'
        exfalso
        obtain ⟨a, ha, hak⟩ := hlo (List.ne_nil_of_mem he')
        obtain ⟨x, hx, hax⟩ := hsrc a ha
        have h1 : g.largest.userKey ≤ a.key.userKey :=
          InternalKey.userKey_le (le_of_lt (hak ▸ hlt))
        have h2 : a.key.userKey < g.smallest.userKey :=
          lt_of_le_of_lt ((hxf x hx).holds hax).2 (hleft x hx)
        exact absurd (lt_of_le_of_lt h1 h2) (not_lt_of_ge hgf.ordered.userKey_le)
    · -- all inputs begin after `g`
      constructor
      · intro hlt e he e' he'
        exfalso
        obtain ⟨b, hb, hbk⟩ := hhi (List.ne_nil_of_mem he)
        obtain ⟨x, hx, hbx⟩ := hsrc b hb
        have hbg : b.key < g.largest :=
          lt_of_le_of_lt hbk (lt_of_lt_of_le hlt hgf.ordered)
        rcases List.mem_append.mp hx with hx0 | hx1
        · have := lt_of_lt_of_le (hr0 x hx0) ((hxf x hx).holds hbx).1
          exact absurd (InternalKey.userKey_le (le_of_lt hbg)) (not_le_of_gt this)
        · have := lt_of_lt_of_le (hr1 x hx1) ((hxf x hx).lower b hbx)
          exact absurd hbg (not_lt_of_gt this)
      · intro _ e he e' he'
        obtain ⟨x, hx, hex⟩ := hsrc e' he'
        rcases List.mem_append.mp hx with hx0 | hx1
        · exact precedes_of_userKey_lt hgf (hxf x hx) (hr0 x hx0) e he e' hex
        · exact hv.order _ (Nat.succ_pos _) g hgv x (inputs1_mem hc hg x hx1) (hr1 x hx1)
            e he e' hex
  · -- a flush since: every input is apart from it in user keys
    have hap : ∀ x ∈ c.inputs, g.largest.userKey < x.smallest.userKey
        ∨ x.largest.userKey < g.smallest.userKey := by
      intro x hx
      refine apart_of_not_meets ?_
      rcases List.mem_append.mp hx with hx | hx
      · exact hg.apart _ (Nat.succ_pos _) g hgv h0 c.level (Nat.le_succ _) x (hc.run0.sub x hx)
      · exact hg.apart _ (Nat.succ_pos _) g hgv h0 _ (le_refl _) x (hc.run1.sub x hx)
    constructor
    · intro hlt e he e' he'
      obtain ⟨x, hx, hex⟩ := hsrc e he
      rcases hap x hx with h1 | h1
      · exfalso
        have h2 : e.key.userKey ≤ g.smallest.userKey :=
          le_trans (hf.upper e he) (InternalKey.userKey_le (le_of_lt hlt))
        have h3 := lt_of_lt_of_le h1 ((hxf x hx).holds hex).1
        exact absurd (le_trans h2 hgf.ordered.userKey_le) (not_le_of_gt h3)
      · exact precedes_of_userKey_lt (hxf x hx) hgf h1 e hex e' he'
    · intro hlt e he e' he'
      obtain ⟨x, hx, hex⟩ := hsrc e' he'
      rcases hap x hx with h1 | h1
      · exact precedes_of_userKey_lt hgf (hxf x hx) h1 e he e' hex
      · exfalso
        have h2 : g.largest.userKey ≤ e'.key.userKey :=
          InternalKey.userKey_le (le_of_lt (lt_of_lt_of_le hlt (hf.lower e' he')))
        have h3 := lt_of_le_of_lt ((hxf x hx).holds hex).2 h1
        exact absurd (le_trans hgf.ordered.userKey_le h2) (not_le_of_gt h3)

end Beside

/-! ## The input iterator -/

section Merged

variable {h : List Op} {c : Compaction} {v₀ v : Version} {tables : Nat → Table} {next : Nat}

/-- The children yield the entries of all inputs. -/
theorem children_flatten (j : Job) :
    j.children.flatten = j.inputs.flatMap fun f => (j.tables f.number).entries := by
  rw [Job.children, Job.inputs, List.flatMap_append]
  split_ifs with hl
  · rw [List.flatten_append, List.flatten_singleton, ← List.flatMap_def]
  · rw [List.flatten_append, List.flatten_singleton, List.flatten_singleton]

theorem merged_perm (j : Job) :
    j.merged.Perm (j.inputs.flatMap fun f => (j.tables f.number).entries) := by
  rw [← children_flatten]
  exact KWayMerge.merge_perm entryBefore_iff _

theorem mem_merged {j : Job} {e : Entry} :
    e ∈ j.merged ↔ ∃ f ∈ j.inputs, e ∈ (j.tables f.number).entries := by
  rw [(merged_perm j).mem_iff, List.mem_flatMap]

/-- Different inputs have different numbers. -/
theorem inputs_pairwise (hv : VersionOK h v tables next) (hc : Closed c v₀)
    (hg : GrownSince c v₀ v tables) :
    c.inputs.Pairwise fun f g => f.number ≠ g.number := by
  refine List.pairwise_append.mpr ⟨?_, ?_, ?_⟩
  · refine hc.run0.nodup.imp_of_mem ?_
    intro f g hf hgm hne heq
    exact hne (hv.unique _ _ f g (inputs0_mem hc hg f hf) (inputs0_mem hc hg g hgm) heq).2
  · refine hc.run1.nodup.imp_of_mem ?_
    intro f g hf hgm hne heq
    exact hne (hv.unique _ _ f g (inputs1_mem hc hg f hf) (inputs1_mem hc hg g hgm) heq).2
  · intro f hf g hgm heq
    have := (hv.unique _ _ f g (inputs0_mem hc hg f hf) (inputs1_mem hc hg g hgm) heq).1
    omega

/-- Concatenated files of a level above 0 are sorted. -/
theorem flatMap_sorted (hv : VersionOK h v tables next) {level : Nat} (hl : 0 < level)
    {S : List FileMetaData} (hS : DisjointFiles S) (hsub : ∀ f ∈ S, f ∈ v.files level) :
    Sorted (S.flatMap fun f => (tables f.number).entries) := by
  refine List.pairwise_flatMap.mpr ⟨fun f hf => (hv.file _ f (hsub f hf)).sorted, ?_⟩
  refine hS.imp_of_mem ?_
  intro f g hf hgm hlt
  exact hv.order level hl f (hsub f hf) g (hsub g hgm) hlt

/-- **The input iterator yields strictly increasing internal keys.** -/
theorem merged_sorted (hv : VersionOK h v tables next) (hc : Closed c v₀)
    (hg : GrownSince c v₀ v tables) (s₀ : Nat) : Sorted (Job.mk c v₀ tables s₀).merged := by
  refine KWayMerge.merge_strict entryBefore_iff ?_ ?_
  · simp only [Job.children, List.forall_mem_append, List.forall_mem_singleton]
    refine ⟨?_, flatMap_sorted hv (Nat.succ_pos _) (hc.run1.order (Nat.succ_pos _))
      (inputs1_mem hc hg)⟩
    split_ifs with h0
    · exact List.forall_mem_map.mpr fun f hf => (hv.file _ f (inputs0_mem hc hg f hf)).sorted
    · have hpos : 0 < c.level := Nat.pos_of_ne_zero h0
      exact List.forall_mem_singleton.mpr
        (flatMap_sorted hv hpos (hc.run0.order hpos) (inputs0_mem hc hg))
  · rw [children_flatten]
    refine List.pairwise_flatMap.mpr ⟨fun f hf => ?_, ?_⟩
    · obtain ⟨l, -, hfl⟩ := inputs_mem hc hg hf
      exact (hv.file l f hfl).sorted.imp ne_of_lt
    · refine (inputs_pairwise hv hc hg).imp_of_mem ?_
      intro f g hf hgm hnum e he e' he'
      obtain ⟨l, -, hfl⟩ := inputs_mem hc hg hf
      obtain ⟨l', -, hgl⟩ := inputs_mem hc hg hgm
      exact hv.key_ne hfl hgl hnum he he'

end Merged

end LdbSteps
