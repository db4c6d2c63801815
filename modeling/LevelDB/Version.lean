import Mathlib.Data.List.Pairwise
import Mathlib.Data.List.Sort
import LevelDB.Format
import LevelDB.OrderedLists

/-! # Versions — files per level and the searches over them

    `FileMetaData`, the level lists of a `Version`, and the pure searches of
    `db/version_set.cc`: `FindFile`, `SomeFileOverlapsRange`,
    `GetOverlappingInputs`, `PickLevelForMemTableOutput` and the visiting order
    of `ForEachOverlapping`.

    Every search gets one specification over sorted, disjoint levels; later
    modules use the specifications and never unfold a loop. -/

namespace LdbVersion

open LdbFormat

/-- `config::kNumLevels`. -/
def kNumLevels : Nat := 7

/-- `config::kMaxMemCompactLevel`. -/
def kMaxMemCompactLevel : Nat := 2

/-- The part of `Options` the modelled code reads.  `fileSize` and
    `finishedSize` stand for `TableBuilder::FileSize` before and after `Finish`,
    as functions of the `Add` calls made so far. -/
structure Options where
  maxFileSize : Nat
  fileSize : List Entry → Nat
  finishedSize : List Entry → Nat

/-- `FileMetaData`, without the reference and seek counters. -/
structure FileMetaData where
  number : Nat
  fileSize : Nat
  smallest : InternalKey
  largest : InternalKey
  deriving DecidableEq, Repr

/-- `Version`: the files of each level. -/
structure Version where
  files : Nat → List FileMetaData

/-- The version of an empty database. -/
def Version.empty : Version := ⟨fun _ => []⟩

/-- `TotalFileSize`. -/
def totalFileSize (files : List FileMetaData) : Nat := (files.map (·.fileSize)).sum

/-- `MaxGrandParentOverlapBytes`. -/
def maxGrandParentOverlapBytes (o : Options) : Nat := 10 * o.maxFileSize

/-- `ExpandedCompactionByteSizeLimit`. -/
def expandedCompactionByteSizeLimit (o : Options) : Nat := 25 * o.maxFileSize

/-! ## Well-formed levels -/

/-- The recorded bounds of a file are in order. -/
def FileMetaData.Ordered (f : FileMetaData) : Prop := f.smallest ≤ f.largest

instance (f : FileMetaData) : Decidable f.Ordered :=
  inferInstanceAs (Decidable (f.smallest ≤ f.largest))

/-- Each file ends before the next ones begin, in internal-key order. -/
def DisjointFiles (files : List FileMetaData) : Prop :=
  files.Pairwise fun f g => f.largest < g.smallest

instance (files : List FileMetaData) : Decidable (DisjointFiles files) :=
  inferInstanceAs (Decidable (files.Pairwise _))

/-- A level whose files are ordered and disjoint. -/
structure SortedLevel (files : List FileMetaData) : Prop where
  ordered : ∀ f ∈ files, f.Ordered
  disjoint : DisjointFiles files

/-- Every sequence number of a recorded bound fits its 56 bits. -/
def BoundedFiles (files : List FileMetaData) : Prop :=
  ∀ f ∈ files, f.largest.sequence ≤ kMaxSequenceNumber

variable {f : FileMetaData} {files : List FileMetaData}

theorem FileMetaData.Ordered.userKey_le (h : f.Ordered) :
    f.smallest.userKey ≤ f.largest.userKey :=
  InternalKey.userKey_le h

/-- Recorded largest keys increase along a sorted level. -/
theorem SortedLevel.largest_lt (h : SortedLevel files) :
    files.Pairwise fun f g => f.largest < g.largest := by
  refine h.disjoint.imp_of_mem ?_
  intro f g _ hg hlt
  exact lt_of_lt_of_le hlt (h.ordered g hg)

/-- Two files of a sorted level are equal or one ends before the other begins. -/
theorem SortedLevel.trichotomy (h : SortedLevel files) {g : FileMetaData} (hf : f ∈ files)
    (hg : g ∈ files) : f = g ∨ f.largest < g.smallest ∨ g.largest < f.smallest :=
  OrderedLists.pairwise_trichotomy h.disjoint hf hg

/-! ## `FindFile` -/

/-- The loop of `FindFile`: `left`, `right` are the bounds of the search. -/
def findFileLoop [UserComparator] (files : List FileMetaData) (key : InternalKey) :
    Nat → Nat → Nat → Nat
  | 0, _, right => right
  | fuel + 1, left, right =>
    if left < right then
      match files[(left + right) / 2]? with
      | none => right
      | some f =>
        if internalCompare f.largest key = .lt then
          findFileLoop files key fuel ((left + right) / 2 + 1) right
        else findFileLoop files key fuel left ((left + right) / 2)
    else right

/-- `FindFile`: the index of the first file whose largest key is at or after
    `key`, the number of files if there is none. -/
def findFile [UserComparator] (files : List FileMetaData) (key : InternalKey) : Nat :=
  findFileLoop files key files.length 0 files.length

section

variable (hs : SortedLevel files) (key : InternalKey)
include hs key

/-- In an ordered level, the files that do not end before the key are those from the
    first of them on. -/
theorem le_largest_iff {i : Nat} {f : FileMetaData} (hi : files[i]? = some f) :
    key ≤ f.largest ↔ (files.findIdx fun f => decide (key ≤ f.largest)) ≤ i := by
  obtain ⟨hlen, rfl⟩ := List.getElem?_eq_some_iff.mp hi
  constructor
  · intro hle
    by_contra hlt
    exact absurd hle (of_decide_eq_false (List.not_of_lt_findIdx (Nat.lt_of_not_le hlt)))
  · intro hle
    have hfirst : key ≤ (files[files.findIdx fun f => decide (key ≤ f.largest)]).largest :=
      of_decide_eq_true (List.findIdx_getElem (w := lt_of_le_of_lt hle hlen))
    rcases Nat.lt_or_eq_of_le hle with hlt | heq
    · exact le_trans hfirst (le_of_lt (List.pairwise_iff_getElem.mp hs.largest_lt _ _ _ hlen hlt))
    · exact heq ▸ hfirst

/-- The loop invariant of the binary search: the file it looks for stays between the
    bounds. -/
theorem findFileLoop_eq :
    ∀ fuel left right, right - left ≤ fuel → right ≤ files.length →
      left ≤ (files.findIdx fun f => decide (key ≤ f.largest)) →
      (files.findIdx fun f => decide (key ≤ f.largest)) ≤ right →
      findFileLoop files key fuel left right
        = files.findIdx fun f => decide (key ≤ f.largest) := by
  intro fuel
  induction fuel with
  | zero =>
    intro left right hfuel _ hlo hhi
    rw [findFileLoop]
    omega
  | succ fuel ih =>
    intro left right hfuel hlen hlo hhi
    rw [findFileLoop]
    by_cases hlt : left < right
    · have hget : files[(left + right) / 2]? = some _ := List.getElem?_eq_getElem (by omega)
      have hmid := le_largest_iff hs key hget
      simp only [if_pos hlt, hget]
      split_ifs with hcmp
      · refine ih _ _ (by omega) hlen (Nat.lt_of_not_le (mt hmid.mpr ?_)) hhi
        exact not_le.mpr (internalCompare_lt.mp hcmp)
      · exact ih _ _ (by omega) (by omega) hlo (hmid.mp (not_lt.mp (mt internalCompare_lt.mpr hcmp)))
    · rw [if_neg hlt]
      omega

/-- **The position `FindFile` returns**: the smallest index of a file that does not end
    before the key, the number of files if there is none. -/
theorem findFile_eq_findIdx :
    findFile files key = files.findIdx fun f => decide (key ≤ f.largest) :=
  findFileLoop_eq hs key _ _ _ (Nat.sub_le _ _) (Nat.le_refl _) (Nat.zero_le _)
    List.findIdx_le_length

/-- The two halves of the file list around the position `FindFile` returns. -/
theorem findFile_bounds :
    (∀ i f, files[i]? = some f → i < findFile files key → f.largest < key) ∧
    (∀ i f, files[i]? = some f → findFile files key ≤ i → key ≤ f.largest) := by
  rw [findFile_eq_findIdx hs key]
  refine ⟨fun i f hi hlt => ?_, fun i f hi => (le_largest_iff hs key hi).mpr⟩
  exact not_le.mp fun hle => absurd ((le_largest_iff hs key hi).mp hle) (Nat.not_le_of_lt hlt)

/-- **`FindFile` finds the first file that does not end before the key.** -/
theorem getElem?_findFile :
    files[findFile files key]? = files.find? fun f => decide (key ≤ f.largest) := by
  rw [findFile_eq_findIdx hs key, List.find?_eq_getElem?_findIdx]

end

/-! ## Overlap with a user-key range -/

/-- `AfterFile`: the key lies after every key of the file. -/
def afterFile [UserComparator] (userKey : Option Slice) (f : FileMetaData) : Bool :=
  match userKey with
  | none => false
  | some k => decide (userCompare k f.largest.userKey = .gt)

/-- `BeforeFile`: the key lies before every key of the file. -/
def beforeFile [UserComparator] (userKey : Option Slice) (f : FileMetaData) : Bool :=
  match userKey with
  | none => false
  | some k => decide (userCompare k f.smallest.userKey = .lt)

/-- The file's user-key range meets `[lo, hi]`; `none` is an open end. -/
def overlaps [UserComparator] (lo hi : Option Slice) (f : FileMetaData) : Bool :=
  !afterFile lo f && !beforeFile hi f

theorem overlaps_some {lo hi : Slice} :
    overlaps (some lo) (some hi) f = true ↔
      lo ≤ f.largest.userKey ∧ f.smallest.userKey ≤ hi := by
  simp only [overlaps, afterFile, beforeFile, Bool.and_eq_true, Bool.not_eq_true',
    decide_eq_false_iff_not, userCompare_lt, userCompare_gt, not_lt]

theorem overlaps_iff {lo hi : Option Slice} :
    overlaps lo hi f = true ↔
      (∀ k, lo = some k → k ≤ f.largest.userKey)
      ∧ (∀ k, hi = some k → f.smallest.userKey ≤ k) := by
  cases lo <;> cases hi <;>
    simp [overlaps, afterFile, beforeFile, decide_eq_false_iff_not, not_lt]

/-- `SomeFileOverlapsRange`. -/
def someFileOverlapsRange [UserComparator] (disjointSortedFiles : Bool) (files : List FileMetaData)
    (smallestUserKey largestUserKey : Option Slice) : Bool :=
  if disjointSortedFiles = false then
    files.any fun f => !(afterFile smallestUserKey f || beforeFile largestUserKey f)
  else
    let index := match smallestUserKey with
      | none => 0
      | some k => findFile files ⟨k, kMaxSequenceNumber, kValueTypeForSeek⟩
    match files[index]? with
    | none => false
    | some f => !beforeFile largestUserKey f

variable {k : Slice}

/-- The earliest internal key of a user key is at or before an internal key
    exactly when the user keys are in that order. -/
theorem earliest_le_iff {x : InternalKey} (hx : x.sequence ≤ kMaxSequenceNumber) :
    (⟨k, kMaxSequenceNumber, kValueTypeForSeek⟩ : InternalKey) ≤ x ↔ k ≤ x.userKey := by
  constructor
  · intro h
    exact InternalKey.userKey_le h
  · intro h
    rcases lt_or_eq_of_le h with hlt | heq
    · exact le_of_lt (InternalKey.lt_of_userKey_lt hlt)
    · rw [InternalKey.le_iff]
      refine Or.inr ⟨heq, ?_⟩
      have hcode : x.type.code ≤ kValueTypeForSeek.code := by
        cases x.type <;> decide
      simp only [InternalKey.tag, packSequenceAndType]
      omega

/-- **`SomeFileOverlapsRange` on level 0** looks at every file. -/
theorem someFileOverlapsRange_false {lo hi : Option Slice} :
    someFileOverlapsRange false files lo hi = true ↔ ∃ f ∈ files, overlaps lo hi f = true := by
  simp only [someFileOverlapsRange, if_true, List.any_eq_true, overlaps, Bool.not_or]

/-- The file that the binary search of `SomeFileOverlapsRange` looks at. -/
theorem someFileOverlapsRange_search (hs : SortedLevel files) (hb : BoundedFiles files)
    (lo hi : Option Slice) :
    someFileOverlapsRange true files lo hi =
      match files.find? fun f => !afterFile lo f with
      | none => false
      | some f => !beforeFile hi f := by
  simp only [someFileOverlapsRange, Bool.true_eq_false, if_false]
  cases lo with
  | none =>
    cases files with
    | nil => rfl
    | cons f rest => rfl
  | some k =>
    have hcongr : (files.find? fun f => decide
        ((⟨k, kMaxSequenceNumber, kValueTypeForSeek⟩ : InternalKey) ≤ f.largest))
        = files.find? fun f => !afterFile (some k) f := by
      rw [← List.head?_filter, ← List.head?_filter]
      refine congrArg List.head? (List.filter_congr fun f hf => ?_)
      rw [Bool.eq_iff_iff, decide_eq_true_eq, earliest_le_iff (hb f hf), afterFile,
        Bool.not_eq_true', decide_eq_false_iff_not, userCompare_gt, not_lt]
    simp only [getElem?_findFile hs, hcongr]

/-- **`SomeFileOverlapsRange` on a sorted level**: one binary search decides. -/
theorem someFileOverlapsRange_true (hs : SortedLevel files) (hb : BoundedFiles files)
    {lo hi : Option Slice} :
    someFileOverlapsRange true files lo hi = true ↔ ∃ f ∈ files, overlaps lo hi f = true := by
  rw [someFileOverlapsRange_search hs hb]
  cases hfind : files.find? (fun f => !afterFile lo f) with
  | none =>
    simp only [Bool.false_eq_true, false_iff]
    rintro ⟨f, hf, hov⟩
    exact List.find?_eq_none.mp hfind f hf (Bool.and_eq_true_iff.mp hov).1
  | some f =>
    have hstarts : files.Pairwise fun f g => f.smallest.userKey ≤ g.smallest.userKey :=
      hs.disjoint.imp_of_mem fun hf _ hlt =>
        le_trans (hs.ordered _ hf).userKey_le (InternalKey.userKey_le (le_of_lt hlt))
    obtain ⟨hf, hlo, hleast⟩ := OrderedLists.least_find? hstarts hfind
    simp only
    constructor
    · intro hhi
      exact ⟨f, hf, Bool.and_eq_true_iff.mpr ⟨hlo, hhi⟩⟩
    · rintro ⟨g, hg, hov⟩
      -- the file found is the overlapping file or one before it
      have hfg := hleast g hg (Bool.and_eq_true_iff.mp hov).1
      obtain ⟨-, hhi⟩ := overlaps_iff.mp hov
      have hall : overlaps none hi f = true :=
        overlaps_iff.mpr ⟨nofun, fun k hk => le_trans hfg (hhi k hk)⟩
      exact (Bool.and_eq_true_iff.mp hall).2

/-- **The binary search and the scan over all files agree**, and the search finds the
    first file that does not end before its key. -/
theorem searches_agree (hs : SortedLevel files) (hb : BoundedFiles files) :
    (∀ lo hi : Option Slice,
        someFileOverlapsRange true files lo hi = someFileOverlapsRange false files lo hi)
      ∧ ∀ key, findFile files key = files.findIdx fun f => decide (key ≤ f.largest) := by
  refine ⟨fun lo hi => ?_, findFile_eq_findIdx hs⟩
  rw [Bool.eq_iff_iff, someFileOverlapsRange_true hs hb, someFileOverlapsRange_false]

/-- Two files that share the user key `b`. -/
def sharedFiles : List FileMetaData :=
  [⟨1, 10, ⟨[97], 9, .value⟩, ⟨[98], 8, .value⟩⟩, ⟨2, 10, ⟨[98], 7, .value⟩, ⟨[99], 5, .value⟩⟩]

theorem searches_agree_sharedFiles :
    someFileOverlapsRange true sharedFiles (some [98]) none
        = someFileOverlapsRange false sharedFiles (some [98]) none
      ∧ findFile sharedFiles ⟨[98], 7, .value⟩ = 1 := by
  have hb : BoundedFiles sharedFiles := by
    show ∀ f ∈ sharedFiles, f.largest.sequence ≤ kMaxSequenceNumber
    decide
  obtain ⟨h1, h2⟩ := searches_agree ⟨by decide, by decide⟩ hb
  refine ⟨h1 _ _, ?_⟩
  rw [h2]
  decide

/-! ## `GetOverlappingInputs` -/

/-- The file sticks out of the range at its lower end. -/
def startsBefore [UserComparator] (userBegin : Option Slice) (f : FileMetaData) : Bool :=
  match userBegin with
  | none => false
  | some b => decide (userCompare f.smallest.userKey b = .lt)

/-- The file sticks out of the range at its upper end. -/
def endsAfter [UserComparator] (userEnd : Option Slice) (f : FileMetaData) : Bool :=
  match userEnd with
  | none => false
  | some e => decide (userCompare f.largest.userKey e = .gt)

/-- The outcome of one pass over the level: the inputs, or a restart with a
    wider user-key range. -/
inductive Pass where
  | done (inputs : List FileMetaData)
  | restart (userBegin userEnd : Option Slice)

/-- One pass of the loop of `GetOverlappingInputs`.  On level 0 a file that
    sticks out of the range widens it and restarts the search. -/
def overlapPass [UserComparator] (level : Nat) (userBegin userEnd : Option Slice) :
    List FileMetaData → Pass
  | [] => .done []
  | f :: rest =>
    if overlaps userBegin userEnd f = false then
      overlapPass level userBegin userEnd rest
    else if level = 0 ∧ startsBefore userBegin f = true then
      .restart (some f.smallest.userKey) userEnd
    else if level = 0 ∧ endsAfter userEnd f = true then
      .restart userBegin (some f.largest.userKey)
    else
      match overlapPass level userBegin userEnd rest with
      | .done inputs => .done (f :: inputs)
      | r => r

/-- The restarts.  Every restart moves an end of the range to the bound of a
    file, so `2 * n` restarts are enough for `n` files. -/
def overlapLoop [UserComparator] (level : Nat) (files : List FileMetaData) :
    Nat → Option Slice → Option Slice → List FileMetaData
  | 0, _, _ => []
  | fuel + 1, userBegin, userEnd =>
    match overlapPass level userBegin userEnd files with
    | .done inputs => inputs
    | .restart b e => overlapLoop level files fuel b e

/-- `Version::GetOverlappingInputs`. -/
def Version.getOverlappingInputs [UserComparator] (v : Version) (level : Nat)
    (begin_ end_ : Option InternalKey) : List FileMetaData :=
  overlapLoop level (v.files level) (2 * (v.files level).length + 1)
    (begin_.map (·.userKey)) (end_.map (·.userKey))

/-- A pass that ends has collected the overlapping files; on level 0 none of
    them sticks out. -/
theorem overlapPass_done {level : Nat} {ub ue : Option Slice} :
    ∀ {files l : List FileMetaData}, overlapPass level ub ue files = .done l →
      l = files.filter (overlaps ub ue)
      ∧ (level = 0 → ∀ f ∈ l, startsBefore ub f = false ∧ endsAfter ue f = false) := by
  intro files
  induction files with
  | nil =>
    intro l h
    rw [overlapPass] at h
    cases h
    exact ⟨rfl, fun _ => nofun⟩
  | cons f rest ih =>
    intro l h
    rw [overlapPass] at h
    split_ifs at h with h1 h2 h3
    · obtain ⟨hl, hin⟩ := ih h
      refine ⟨?_, hin⟩
      rw [List.filter_cons_of_neg (by simp [h1])]
      exact hl
    · have hov : overlaps ub ue f = true := by simpa using h1
      cases hp : overlapPass level ub ue rest with
      | restart b e => simp [hp] at h
      | done inputs =>
        simp only [hp, Pass.done.injEq] at h
        obtain ⟨hl, hin⟩ := ih hp
        subst h
        refine ⟨by rw [List.filter_cons_of_pos hov, ← hl], ?_⟩
        intro h0 g hg
        rcases List.mem_cons.mp hg with rfl | hg'
        · exact ⟨by simpa [h0] using h2, by simpa [h0] using h3⟩
        · exact hin h0 g hg'

/-- A pass restarts only on level 0, at an overlapping file that sticks out. -/
theorem overlapPass_restart {level : Nat} {ub ue b e : Option Slice} :
    ∀ {files : List FileMetaData}, overlapPass level ub ue files = .restart b e →
      level = 0 ∧ ∃ f ∈ files, overlaps ub ue f = true ∧
        ((startsBefore ub f = true ∧ b = some f.smallest.userKey ∧ e = ue)
          ∨ (endsAfter ue f = true ∧ b = ub ∧ e = some f.largest.userKey)) := by
  intro files
  induction files with
  | nil =>
    intro h
    rw [overlapPass] at h
    exact Pass.noConfusion h
  | cons f rest ih =>
    intro h
    rw [overlapPass] at h
    split_ifs at h with h1 h2 h3
    · obtain ⟨h0, g, hg, hrest⟩ := ih h
      exact ⟨h0, g, List.mem_cons_of_mem _ hg, hrest⟩
    · cases h
      exact ⟨h2.1, f, by simp, by simpa using h1, Or.inl ⟨h2.2, rfl, rfl⟩⟩
    · cases h
      exact ⟨h3.1, f, by simp, by simpa using h1, Or.inr ⟨h3.2, rfl, rfl⟩⟩
    · cases hp : overlapPass level ub ue rest with
      | done inputs => simp [hp] at h
      | restart b' e' =>
        simp only [hp] at h
        obtain ⟨h0, g, hg, hrest⟩ := ih (hp.trans h)
        exact ⟨h0, g, List.mem_cons_of_mem _ hg, hrest⟩

theorem startsBefore_some {k : Slice} : startsBefore (some k) f = true ↔ f.smallest.userKey < k := by
  simp [startsBefore]

theorem endsAfter_some {k : Slice} : endsAfter (some k) f = true ↔ k < f.largest.userKey := by
  simp [endsAfter]

/-- How many file bounds still lie outside the range. -/
def boundsOutside (files : List FileMetaData) (ub ue : Option Slice) : Nat :=
  files.countP (startsBefore ub) + files.countP (endsAfter ue)

theorem boundsOutside_start {ub : Option Slice} (ue : Option Slice) (hf : f ∈ files)
    (h : startsBefore ub f = true) :
    boundsOutside files (some f.smallest.userKey) ue < boundsOutside files ub ue := by
  refine Nat.add_lt_add_right (OrderedLists.countP_lt_of_imp ?_ ⟨f, hf, h, by simp [startsBefore]⟩) _
  intro g _ hg
  cases ub with
  | none => exact Bool.noConfusion h
  | some b =>
    rw [startsBefore_some] at h hg ⊢
    exact lt_trans hg h

theorem boundsOutside_end (ub : Option Slice) {ue : Option Slice} (hf : f ∈ files)
    (h : endsAfter ue f = true) :
    boundsOutside files ub (some f.largest.userKey) < boundsOutside files ub ue := by
  refine Nat.add_lt_add_left (OrderedLists.countP_lt_of_imp ?_ ⟨f, hf, h, by simp [endsAfter]⟩) _
  intro g _ hg
  cases ue with
  | none => exact Bool.noConfusion h
  | some e =>
    rw [endsAfter_some] at h hg ⊢
    exact lt_trans h hg

/-- **The restarts end**: with fuel above the number of bounds outside the
    range, the result is the set of files that overlap some final range, none
    of which sticks out on level 0.  Whatever holds of the first range and
    survives a widening holds of the final one. -/
theorem overlapLoop_spec (level : Nat) (files : List FileMetaData)
    (Q : Option Slice → Option Slice → Prop)
    (hstart : ∀ ub ue, ∀ f ∈ files, overlaps ub ue f = true → startsBefore ub f = true →
      Q ub ue → Q (some f.smallest.userKey) ue)
    (hend : ∀ ub ue, ∀ f ∈ files, overlaps ub ue f = true → endsAfter ue f = true →
      Q ub ue → Q ub (some f.largest.userKey)) :
    ∀ (fuel : Nat) (ub ue : Option Slice), boundsOutside files ub ue < fuel → Q ub ue →
      ∃ ub' ue', Q ub' ue' ∧ overlapLoop level files fuel ub ue = files.filter (overlaps ub' ue')
        ∧ (level = 0 → ∀ f ∈ files, overlaps ub' ue' f = true →
            startsBefore ub' f = false ∧ endsAfter ue' f = false)
        ∧ (level ≠ 0 → ub' = ub ∧ ue' = ue) := by
  intro fuel
  induction fuel with
  | zero =>
    intro ub ue hlt
    exact absurd hlt (Nat.not_lt_zero _)
  | succ fuel ih =>
    intro ub ue hlt hQ
    rw [overlapLoop]
    cases hp : overlapPass level ub ue files with
    | done inputs =>
      obtain ⟨hl, hin⟩ := overlapPass_done hp
      refine ⟨ub, ue, hQ, hl, fun h0 f hf hov => ?_, fun _ => ⟨rfl, rfl⟩⟩
      exact hin h0 f (hl ▸ List.mem_filter.mpr ⟨hf, hov⟩)
    | restart b e =>
      obtain ⟨h0, f, hf, hov, hcase⟩ := overlapPass_restart hp
      have hnext : boundsOutside files b e < boundsOutside files ub ue ∧ Q b e := by
        rcases hcase with ⟨hsb, rfl, rfl⟩ | ⟨hea, rfl, rfl⟩
        · exact ⟨boundsOutside_start e hf hsb, hstart _ _ f hf hov hsb hQ⟩
        · exact ⟨boundsOutside_end b hf hea, hend _ _ f hf hov hea hQ⟩
      obtain ⟨ub', ue', h1, h2, h3, -⟩ := ih b e (by omega) hnext.2
      exact ⟨ub', ue', h1, h2, h3, absurd h0⟩

theorem boundsOutside_le (files : List FileMetaData) (ub ue : Option Slice) :
    boundsOutside files ub ue ≤ 2 * files.length := by
  have h1 : files.countP (startsBefore ub) ≤ files.length := List.countP_le_length
  have h2 : files.countP (endsAfter ue) ≤ files.length := List.countP_le_length
  simp only [boundsOutside]
  omega

/-- **`GetOverlappingInputs` above level 0** is a filter. -/
theorem getOverlappingInputs_pos (v : Version) {level : Nat} (hl : level ≠ 0)
    (b e : Option InternalKey) :
    v.getOverlappingInputs level b e
      = (v.files level).filter (overlaps (b.map (·.userKey)) (e.map (·.userKey))) := by
  obtain ⟨ub', ue', -, heq, -, hsame⟩ := overlapLoop_spec level (v.files level)
    (fun _ _ => True) (fun _ _ _ _ _ _ _ => trivial)
    (fun _ _ _ _ _ _ _ => trivial) (2 * (v.files level).length + 1) (b.map (·.userKey))
    (e.map (·.userKey)) (Nat.lt_succ_of_le (boundsOutside_le _ _ _)) trivial
  obtain ⟨rfl, rfl⟩ := hsame hl
  exact heq

/-- **`GetOverlappingInputs` on level 0**: the files that overlap some range
    wide enough to hold all of them. -/
theorem getOverlappingInputs_zero (v : Version) (b e : Option InternalKey)
    (Q : Option Slice → Option Slice → Prop)
    (hstart : ∀ ub ue, ∀ f ∈ v.files 0, overlaps ub ue f = true → startsBefore ub f = true →
      Q ub ue → Q (some f.smallest.userKey) ue)
    (hend : ∀ ub ue, ∀ f ∈ v.files 0, overlaps ub ue f = true → endsAfter ue f = true →
      Q ub ue → Q ub (some f.largest.userKey))
    (hQ : Q (b.map (·.userKey)) (e.map (·.userKey))) :
    ∃ ub ue, Q ub ue ∧ v.getOverlappingInputs 0 b e = (v.files 0).filter (overlaps ub ue)
      ∧ ∀ f ∈ v.files 0, overlaps ub ue f = true →
          startsBefore ub f = false ∧ endsAfter ue f = false := by
  obtain ⟨ub, ue, h1, h2, h3, -⟩ := overlapLoop_spec 0 (v.files 0) Q hstart hend
    (2 * (v.files 0).length + 1) _ _ (Nat.lt_succ_of_le (boundsOutside_le _ _ _)) hQ
  exact ⟨ub, ue, h1, h2, h3 rfl⟩

/-! ## `PickLevelForMemTableOutput` -/

/-- `Version::OverlapInLevel`. -/
def Version.overlapInLevel [UserComparator] (v : Version) (level : Nat)
    (smallestUserKey largestUserKey : Option Slice) : Bool :=
  someFileOverlapsRange (decide (0 < level)) (v.files level) smallestUserKey largestUserKey

/-- The loop of `PickLevelForMemTableOutput`, from `level` on. -/
def Version.pickLevelLoop [UserComparator] (v : Version) (o : Options)
    (smallestUserKey largestUserKey : Slice) : Nat → Nat → Nat
  | 0, level => level
  | fuel + 1, level =>
    if level < kMaxMemCompactLevel then
      if v.overlapInLevel (level + 1) (some smallestUserKey) (some largestUserKey) then level
      else if level + 2 < kNumLevels ∧ maxGrandParentOverlapBytes o <
          totalFileSize (v.getOverlappingInputs (level + 2)
            (some ⟨smallestUserKey, kMaxSequenceNumber, kValueTypeForSeek⟩)
            (some ⟨largestUserKey, 0, .deletion⟩)) then level
      else v.pickLevelLoop o smallestUserKey largestUserKey fuel (level + 1)
    else level

/-- `Version::PickLevelForMemTableOutput`. -/
def Version.pickLevelForMemTableOutput [UserComparator] (v : Version) (o : Options)
    (smallestUserKey largestUserKey : Slice) : Nat :=
  if v.overlapInLevel 0 (some smallestUserKey) (some largestUserKey) then 0
  else v.pickLevelLoop o smallestUserKey largestUserKey kMaxMemCompactLevel 0

/-- All levels of a version that the binary searches rely on. -/
structure Version.Searchable (v : Version) : Prop where
  sorted : ∀ level, 0 < level → SortedLevel (v.files level)
  bounded : ∀ level, BoundedFiles (v.files level)

variable {v : Version}

theorem Version.Searchable.overlapInLevel_iff (hv : v.Searchable) (level : Nat) {lo hi : Slice} :
    v.overlapInLevel level (some lo) (some hi) = true ↔
      ∃ f ∈ v.files level, overlaps (some lo) (some hi) f = true := by
  by_cases h0 : 0 < level
  · simp only [Version.overlapInLevel, h0, decide_true]
    exact someFileOverlapsRange_true (hv.sorted level h0) (hv.bounded level)
  · simp only [Version.overlapInLevel, h0, decide_false]
    exact someFileOverlapsRange_false

/-- The loop stops at or above `kMaxMemCompactLevel`. -/
theorem Version.pickLevelLoop_le (v : Version) (o : Options) (lo hi : Slice) :
    ∀ fuel level, level ≤ kMaxMemCompactLevel →
      v.pickLevelLoop o lo hi fuel level ≤ kMaxMemCompactLevel := by
  intro fuel
  induction fuel with
  | zero => intro level hle; exact hle
  | succ fuel ih =>
    intro level hle
    rw [Version.pickLevelLoop]
    split_ifs with h1 h2 h3
    · exact hle
    · exact hle
    · exact ih (level + 1) h1
    · exact hle

theorem Version.pickLevelForMemTableOutput_lt (v : Version) (o : Options) (lo hi : Slice) :
    v.pickLevelForMemTableOutput o lo hi < kNumLevels := by
  refine Nat.lt_of_le_of_lt ?_ (show kMaxMemCompactLevel < kNumLevels by decide)
  rw [Version.pickLevelForMemTableOutput]
  split_ifs with h
  · exact Nat.zero_le _
  · exact v.pickLevelLoop_le o lo hi _ _ (Nat.zero_le _)

/-- The loop only passes levels without overlap. -/
theorem Version.pickLevelLoop_spec (hv : v.Searchable) (o : Options) (lo hi : Slice) :
    ∀ fuel level, (∀ l ≤ level, ∀ f ∈ v.files l, overlaps (some lo) (some hi) f = false) →
      ∀ l ≤ v.pickLevelLoop o lo hi fuel level, ∀ f ∈ v.files l,
        overlaps (some lo) (some hi) f = false := by
  intro fuel
  induction fuel with
  | zero => intro level hno; exact hno
  | succ fuel ih =>
    intro level hno
    rw [Version.pickLevelLoop]
    split_ifs with h1 h2 h3
    · exact hno
    · exact hno
    · refine ih (level + 1) ?_
      intro l hl f hf
      rcases Nat.lt_or_ge level l with hlt | hge
      · have heq : l = level + 1 := by omega
        subst heq
        cases hov : overlaps (some lo) (some hi) f with
        | false => rfl
        | true => exact absurd ((hv.overlapInLevel_iff _).mpr ⟨f, hf, hov⟩) h2
      · exact hno l hge f hf
    · exact hno

/-- **A pushed-down flush overlaps nothing at or above its level.** -/
theorem Version.pickLevelForMemTableOutput_spec (hv : v.Searchable) (o : Options) (lo hi : Slice)
    (hpos : v.pickLevelForMemTableOutput o lo hi ≠ 0) :
    ∀ l ≤ v.pickLevelForMemTableOutput o lo hi, ∀ f ∈ v.files l,
      overlaps (some lo) (some hi) f = false := by
  rw [Version.pickLevelForMemTableOutput] at hpos ⊢
  split_ifs at hpos ⊢ with h
  · exact absurd rfl hpos
  · refine Version.pickLevelLoop_spec hv o lo hi kMaxMemCompactLevel 0 ?_
    intro l hl f hf
    have h0 : l = 0 := by omega
    subst h0
    cases hov : overlaps (some lo) (some hi) f with
    | false => rfl
    | true => exact absurd ((hv.overlapInLevel_iff 0).mpr ⟨f, hf, hov⟩) h

/-! ## `ForEachOverlapping` -/

/-- The user key lies between the file's recorded user keys. -/
def FileMetaData.holds [UserComparator] (f : FileMetaData) (k : Slice) : Bool :=
  decide (userCompare k f.smallest.userKey ≠ .lt) && decide (userCompare k f.largest.userKey ≠ .gt)

theorem FileMetaData.holds_iff :
    f.holds k = true ↔ f.smallest.userKey ≤ k ∧ k ≤ f.largest.userKey := by
  simp only [FileMetaData.holds, Bool.and_eq_true, decide_eq_true_eq, ne_eq, userCompare_lt,
    userCompare_gt, not_lt]

/-- The file `ForEachOverlapping` visits on a level above 0, if any. -/
def visitedAt [UserComparator] (files : List FileMetaData) (userKey : Slice)
    (internalKey : InternalKey) : Option FileMetaData :=
  match files[findFile files internalKey]? with
  | none => none
  | some f => if userCompare userKey f.smallest.userKey = .lt then none else some f

/-- `Version::ForEachOverlapping`: the files handed to the callback, in order,
    as long as it asks for more. -/
def Version.forEachOverlapping [UserComparator] (v : Version) (userKey : Slice)
    (internalKey : InternalKey) : List (Nat × FileMetaData) :=
  (((v.files 0).filter (·.holds userKey)).insertionSort
      (fun a b => b.number ≤ a.number)).map (fun f => (0, f))
    ++ (List.range' 1 (kNumLevels - 1)).filterMap fun level =>
        (visitedAt (v.files level) userKey internalKey).map fun f => (level, f)

theorem mem_of_visitedAt {ik : InternalKey} (h : visitedAt files k ik = some f) : f ∈ files := by
  rw [visitedAt] at h
  split at h
  · cases h
  · rename_i g hg
    split_ifs at h
    cases h
    exact List.mem_of_getElem? hg

/-- The file visited above level 0 is the first one that does not end before the
    internal key, if it does not begin after the user key. -/
theorem visitedAt_eq_some (hs : SortedLevel files) {ik : InternalKey} :
    visitedAt files k ik = some f ↔ f ∈ files ∧ f.smallest.userKey ≤ k ∧ ik ≤ f.largest
      ∧ ∀ g ∈ files, ik ≤ g.largest → f.largest ≤ g.largest := by
  rw [visitedAt, getElem?_findFile hs]
  constructor
  · intro h
    split at h
    · cases h
    · rename_i g hg
      split_ifs at h with hlt
      cases h
      obtain ⟨hf, hp, hmin⟩ := OrderedLists.least_find? (hs.largest_lt.imp le_of_lt) hg
      exact ⟨hf, le_of_not_gt (mt userCompare_lt.mpr hlt), of_decide_eq_true hp,
        fun x hx hxk => hmin x hx (decide_eq_true hxk)⟩
  · rintro ⟨hf, hle, hik, hmin⟩
    cases hg : files.find? (fun f => decide (ik ≤ f.largest)) with
    | none =>
      exact absurd (decide_eq_true hik) (List.find?_eq_none.mp hg f hf)
    | some g =>
      -- both are first, so they are equal
      obtain ⟨hgm, hp, hgmin⟩ := OrderedLists.least_find? (hs.largest_lt.imp le_of_lt) hg
      rcases OrderedLists.pairwise_trichotomy hs.largest_lt hf hgm with rfl | hlt | hlt
      · simp only
        rw [if_neg (mt userCompare_lt.mp (not_lt_of_ge hle))]
      · exact absurd (hgmin f hf (decide_eq_true hik)) (not_le_of_gt hlt)
      · exact absurd (hmin g hgm (of_decide_eq_true hp)) (not_le_of_gt hlt)

/-- What `ForEachOverlapping` visits. -/
theorem mem_forEachOverlapping {ik : InternalKey} {l : Nat} :
    (l, f) ∈ v.forEachOverlapping k ik ↔ (l = 0 ∧ f ∈ v.files 0 ∧ f.holds k = true)
      ∨ (0 < l ∧ l < kNumLevels ∧ visitedAt (v.files l) k ik = some f) := by
  rw [Version.forEachOverlapping, List.mem_append, List.mem_map, List.mem_filterMap]
  refine or_congr ?_ ?_
  · constructor
    · rintro ⟨g, hg, heq⟩
      rw [Prod.mk.injEq] at heq
      obtain ⟨rfl, rfl⟩ := heq
      rw [List.mem_insertionSort, List.mem_filter] at hg
      exact ⟨rfl, hg⟩
    · rintro ⟨rfl, hf, hk⟩
      exact ⟨f, by rw [List.mem_insertionSort, List.mem_filter]; exact ⟨hf, hk⟩, rfl⟩
  · constructor
    · rintro ⟨l', hl', heq⟩
      obtain ⟨g, hg, heq'⟩ := Option.map_eq_some_iff.mp heq
      rw [Prod.mk.injEq] at heq'
      obtain ⟨rfl, rfl⟩ := heq'
      rw [List.mem_range'_1] at hl'
      have : kNumLevels = 7 := rfl
      exact ⟨by omega, by omega, hg⟩
    · rintro ⟨h0, hl, hv⟩
      refine ⟨l, ?_, by rw [hv]; rfl⟩
      rw [List.mem_range'_1]
      have : kNumLevels = 7 := rfl
      omega

end LdbVersion
