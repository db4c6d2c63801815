import Mathlib.Data.List.Sort
import Mathlib.Data.List.TakeWhile
import Mathlib.Data.Prod.Lex
import LevelDB.Version

/-! # Version edits and the builder that applies them

    `VersionEdit` (`db/version_edit.h`) and `VersionSet::Builder`
    (`db/version_set.cc`): a builder collects the deleted and added files of
    any number of edits over a base version, and `SaveTo` merges the added
    files into the base files of each level.

    The file lists are characterised by their members
    (`Builder.mem_saveTo`) and their order (`Builder.saveTo_sorted`). -/

namespace LdbEdit

open LdbFormat LdbVersion

/-- `VersionEdit`.  A `has_` flag and its value are one `Option`. -/
structure VersionEdit where
  comparator : Option Slice := none
  logNumber : Option Nat := none
  prevLogNumber : Option Nat := none
  nextFileNumber : Option Nat := none
  lastSequence : Option Nat := none
  compactPointers : List (Nat × InternalKey) := []
  deletedFiles : List (Nat × Nat) := []
  newFiles : List (Nat × FileMetaData) := []
  deriving DecidableEq, Repr

/-- `VersionEdit::AddFile`. -/
def VersionEdit.addFile (edit : VersionEdit) (level : Nat) (f : FileMetaData) : VersionEdit :=
  { edit with newFiles := edit.newFiles ++ [(level, f)] }

/-- Insertion into a `std::set` of pairs. -/
def insertPair (p : Nat × Nat) : List (Nat × Nat) → List (Nat × Nat)
  | [] => [p]
  | q :: rest =>
    if toLex p < toLex q then p :: q :: rest
    else if p = q then q :: rest
    else q :: insertPair p rest

/-- `VersionEdit::RemoveFile`. -/
def VersionEdit.removeFile (edit : VersionEdit) (level number : Nat) : VersionEdit :=
  { edit with deletedFiles := insertPair (level, number) edit.deletedFiles }

/-- `VersionEdit::SetCompactPointer`. -/
def VersionEdit.setCompactPointer (edit : VersionEdit) (level : Nat) (key : InternalKey) :
    VersionEdit :=
  { edit with compactPointers := edit.compactPointers ++ [(level, key)] }

theorem mem_insertPair {p q : Nat × Nat} :
    ∀ {l : List (Nat × Nat)}, q ∈ insertPair p l ↔ q = p ∨ q ∈ l := by
  intro l
  induction l with
  | nil => simp [insertPair]
  | cons r rest ih =>
    rw [insertPair]
    split_ifs with h1 h2
    · simp
    · subst h2
      simp
    · rw [List.mem_cons, ih, List.mem_cons]
      tauto

/-! ## The builder -/

/-- `Builder::BySmallestKey`: by smallest key, ties by number. -/
def bySmallestKey [UserComparator] (f g : FileMetaData) : Prop :=
  internalCompare f.smallest g.smallest = .lt
    ∨ (internalCompare f.smallest g.smallest = .eq ∧ f.number < g.number)

instance [UserComparator] (f g : FileMetaData) : Decidable (bySmallestKey f g) :=
  inferInstanceAs (Decidable (_ ∨ _))

variable {f g : FileMetaData} {level : Nat}

theorem bySmallestKey_iff : bySmallestKey f g ↔
    f.smallest < g.smallest ∨ (f.smallest = g.smallest ∧ f.number < g.number) := by
  rw [bySmallestKey, internalCompare_lt, internalCompare_eq]

theorem bySmallestKey.trans {h : FileMetaData} (hfg : bySmallestKey f g) (hgh : bySmallestKey g h) :
    bySmallestKey f h := by
  rw [bySmallestKey_iff] at hfg hgh ⊢
  rcases hfg with h1 | ⟨h1, h1'⟩ <;> rcases hgh with h2 | ⟨h2, h2'⟩
  · exact Or.inl (lt_trans h1 h2)
  · exact Or.inl (h2 ▸ h1)
  · exact Or.inl (h1 ▸ h2)
  · exact Or.inr ⟨h1.trans h2, lt_trans h1' h2'⟩

theorem bySmallestKey.irrefl (f : FileMetaData) : ¬ bySmallestKey f f := by
  rw [bySmallestKey_iff]
  rintro (h | ⟨-, h⟩)
  · exact lt_irrefl _ h
  · exact lt_irrefl _ h

/-- Files with different numbers are comparable. -/
theorem bySmallestKey.total (hne : f.number ≠ g.number) :
    bySmallestKey f g ∨ bySmallestKey g f := by
  rw [bySmallestKey_iff, bySmallestKey_iff]
  rcases lt_trichotomy f.smallest g.smallest with h | h | h
  · exact Or.inl (Or.inl h)
  · rcases Nat.lt_or_gt_of_ne hne with hn | hn
    · exact Or.inl (Or.inr ⟨h, hn⟩)
    · exact Or.inr (Or.inr ⟨h.symm, hn⟩)
  · exact Or.inr (Or.inl h)

/-- `Builder::LevelState`. -/
structure LevelState where
  deletedFiles : List Nat := []
  addedFiles : List FileMetaData := []

/-- Insertion into the `FileSet`: an equivalent file already there wins. -/
def insertFile [UserComparator] (f : FileMetaData) : List FileMetaData → List FileMetaData
  | [] => [f]
  | g :: rest =>
    if bySmallestKey f g then f :: g :: rest
    else if bySmallestKey g f then g :: insertFile f rest
    else g :: rest

/-- The effect of one deleted file on its level. -/
def LevelState.delete (st : LevelState) (number : Nat) : LevelState :=
  { st with deletedFiles := number :: st.deletedFiles }

/-- The effect of one new file on its level. -/
def LevelState.add [UserComparator] (st : LevelState) (f : FileMetaData) : LevelState where
  deletedFiles := st.deletedFiles.filter (· ≠ f.number)
  addedFiles := insertFile f st.addedFiles

/-- `VersionSet::Builder`. -/
structure Builder where
  base : Version
  levels : Nat → LevelState

/-- A fresh builder over a base version. -/
def Builder.new (base : Version) : Builder := ⟨base, fun _ => {}⟩

/-- `Builder::Apply`, without the compaction pointers, which belong to the
    version set. -/
def Builder.apply [UserComparator] (b : Builder) (edit : VersionEdit) : Builder where
  base := b.base
  levels :=
    let deleted := edit.deletedFiles.foldl
      (fun lv p => Function.update lv p.1 ((lv p.1).delete p.2)) b.levels
    edit.newFiles.foldl (fun lv p => Function.update lv p.1 ((lv p.1).add p.2)) deleted

/-- The merge of `SaveTo`: before each added file come the base files up to its
    `upper_bound`. -/
def mergeFiles [UserComparator] : List FileMetaData → List FileMetaData → List FileMetaData
  | base, [] => base
  | base, a :: added =>
    base.takeWhile (fun b => !decide (bySmallestKey a b)) ++
      a :: mergeFiles (base.dropWhile fun b => !decide (bySmallestKey a b)) added

/-- `Builder::SaveTo`, with `MaybeAddFile` as the filter. -/
def Builder.saveTo [UserComparator] (b : Builder) : Version where
  files level :=
    (mergeFiles (b.base.files level) (b.levels level).addedFiles).filter
      fun f => decide (f.number ∉ (b.levels level).deletedFiles)

/-- The version `LogAndApply` installs for one edit. -/
def applyEdit [UserComparator] (v : Version) (edit : VersionEdit) : Version :=
  ((Builder.new v).apply edit).saveTo

/-- The overlap check at the end of `SaveTo` (`std::abort` when it fails). -/
def saveToChecks (v : Version) : Prop :=
  ∀ level < kNumLevels, 0 < level → (v.files level).IsChain fun f g => f.largest < g.smallest

instance (v : Version) : Decidable (saveToChecks v) :=
  inferInstanceAs (Decidable (∀ level < kNumLevels, _))

/-! ## What an edit does to one level -/

theorem foldl_update_level {α : Type} (f : LevelState → α → LevelState) (level : Nat) :
    ∀ (ps : List (Nat × α)) (lv : Nat → LevelState),
      (ps.foldl (fun lv p => Function.update lv p.1 (f (lv p.1) p.2)) lv) level
        = ((ps.filter fun p => p.1 = level).map (·.2)).foldl f (lv level) := by
  intro ps
  induction ps with
  | nil => intro lv; rfl
  | cons p rest ih =>
    intro lv
    rw [List.foldl_cons, ih]
    by_cases h : p.1 = level
    · subst h
      simp [Function.update_self]
    · rw [Function.update_of_ne (Ne.symm h), List.filter_cons_of_neg (by simpa using h)]

/-- The numbers an edit deletes from a level. -/
def VersionEdit.deletedAt (edit : VersionEdit) (level : Nat) : List Nat :=
  (edit.deletedFiles.filter fun p => p.1 = level).map (·.2)

/-- The files an edit adds to a level. -/
def VersionEdit.addedAt (edit : VersionEdit) (level : Nat) : List FileMetaData :=
  (edit.newFiles.filter fun p => p.1 = level).map (·.2)

variable {edit : VersionEdit}

theorem VersionEdit.mem_deletedAt {n : Nat} :
    n ∈ edit.deletedAt level ↔ (level, n) ∈ edit.deletedFiles := by
  simp only [VersionEdit.deletedAt, List.mem_map, List.mem_filter, decide_eq_true_eq]
  constructor
  · rintro ⟨⟨l, m⟩, ⟨h, rfl⟩, rfl⟩
    exact h
  · intro h
    exact ⟨(level, n), ⟨h, rfl⟩, rfl⟩

theorem VersionEdit.mem_addedAt : f ∈ edit.addedAt level ↔ (level, f) ∈ edit.newFiles := by
  simp only [VersionEdit.addedAt, List.mem_map, List.mem_filter, decide_eq_true_eq]
  constructor
  · rintro ⟨⟨l, m⟩, ⟨h, rfl⟩, rfl⟩
    exact h
  · intro h
    exact ⟨(level, f), ⟨h, rfl⟩, rfl⟩

/-- **`Apply`, level by level**: first the deletions, then the additions. -/
theorem Builder.apply_levels (b : Builder) (edit : VersionEdit) (level : Nat) :
    (b.apply edit).levels level
      = (edit.addedAt level).foldl LevelState.add
          ((edit.deletedAt level).foldl LevelState.delete (b.levels level)) := by
  simp only [Builder.apply]
  rw [foldl_update_level, foldl_update_level]
  rfl

theorem foldl_delete_deletedFiles (ns : List Nat) :
    ∀ (st : LevelState) (n : Nat),
      n ∈ (ns.foldl LevelState.delete st).deletedFiles ↔ n ∈ ns ∨ n ∈ st.deletedFiles := by
  induction ns with
  | nil => intro st n; simp
  | cons m rest ih =>
    intro st n
    rw [List.foldl_cons, ih]
    simp only [LevelState.delete, List.mem_cons]
    tauto

theorem foldl_delete_addedFiles (ns : List Nat) :
    ∀ st : LevelState, (ns.foldl LevelState.delete st).addedFiles = st.addedFiles := by
  induction ns with
  | nil => intro st; rfl
  | cons m rest ih =>
    intro st
    rw [List.foldl_cons, ih]
    rfl

theorem foldl_add_deletedFiles (fs : List FileMetaData) :
    ∀ (st : LevelState) (n : Nat), n ∈ (fs.foldl LevelState.add st).deletedFiles ↔
      n ∈ st.deletedFiles ∧ ∀ f ∈ fs, f.number ≠ n := by
  induction fs with
  | nil => intro st n; simp
  | cons g rest ih =>
    intro st n
    rw [List.foldl_cons, ih]
    simp only [LevelState.add, List.mem_filter, decide_eq_true_eq, List.forall_mem_cons]
    constructor
    · rintro ⟨⟨h1, h2⟩, h3⟩
      exact ⟨h1, Ne.symm h2, h3⟩
    · rintro ⟨h1, h2, h3⟩
      exact ⟨⟨h1, Ne.symm h2⟩, h3⟩

theorem foldl_add_addedFiles (fs : List FileMetaData) :
    ∀ st : LevelState,
      (fs.foldl LevelState.add st).addedFiles = fs.foldl (fun l f => insertFile f l) st.addedFiles := by
  induction fs with
  | nil => intro st; rfl
  | cons g rest ih =>
    intro st
    rw [List.foldl_cons, ih]
    rfl

/-! ## The added set -/

theorem mem_insertFile_subset : ∀ {l : List FileMetaData}, g ∈ insertFile f l → g = f ∨ g ∈ l := by
  intro l
  induction l with
  | nil => simp [insertFile]
  | cons h rest ih =>
    rw [insertFile]
    split_ifs with h1 h2
    · simp
    · intro hg
      rcases List.mem_cons.mp hg with rfl | hg
      · exact Or.inr (by simp)
      · rcases ih hg with h | h
        · exact Or.inl h
        · exact Or.inr (List.mem_cons_of_mem _ h)
    · exact Or.inr

theorem mem_insertFile_of_mem : ∀ {l : List FileMetaData}, g ∈ l → g ∈ insertFile f l := by
  intro l
  induction l with
  | nil => intro h; cases h
  | cons h rest ih =>
    intro hg
    rw [insertFile]
    split_ifs with h1 h2
    · exact List.mem_cons_of_mem _ hg
    · rcases List.mem_cons.mp hg with rfl | hg
      · simp
      · exact List.mem_cons_of_mem _ (ih hg)
    · exact hg

/-- A file whose number is new to the set is inserted. -/
theorem mem_insertFile_self :
    ∀ {l : List FileMetaData}, (∀ g ∈ l, g.number ≠ f.number) → f ∈ insertFile f l := by
  intro l
  induction l with
  | nil => simp [insertFile]
  | cons h rest ih =>
    intro hne
    rw [insertFile]
    split_ifs with h1 h2
    · simp
    · exact List.mem_cons_of_mem _ (ih fun g hg => hne g (List.mem_cons_of_mem _ hg))
    · rcases bySmallestKey.total (hne h (by simp)) with h' | h'
      · exact absurd h' h2
      · exact absurd h' h1

/-- Insertion keeps the set in order. -/
theorem insertFile_sorted :
    ∀ {l : List FileMetaData}, l.Pairwise bySmallestKey → (insertFile f l).Pairwise bySmallestKey := by
  intro l
  induction l with
  | nil => intro _; simp [insertFile]
  | cons h rest ih =>
    intro hs
    obtain ⟨hh, hrest⟩ := List.pairwise_cons.mp hs
    rw [insertFile]
    split_ifs with h1 h2
    · refine List.pairwise_cons.mpr ⟨?_, hs⟩
      intro g hg
      rcases List.mem_cons.mp hg with rfl | hg
      · exact h1
      · exact h1.trans (hh g hg)
    · refine List.pairwise_cons.mpr ⟨?_, ih hrest⟩
      intro g hg
      rcases mem_insertFile_subset hg with rfl | hg
      · exact h2
      · exact hh g hg
    · exact hs

/-- The added set of a list of files. -/
def addedSet (l fs : List FileMetaData) : List FileMetaData :=
  fs.foldl (fun l f => insertFile f l) l

theorem addedSet_sorted (fs : List FileMetaData) :
    ∀ l : List FileMetaData, l.Pairwise bySmallestKey → (addedSet l fs).Pairwise bySmallestKey := by
  induction fs with
  | nil => intro l h; exact h
  | cons f rest ih =>
    intro l h
    exact ih _ (insertFile_sorted h)

theorem mem_addedSet_subset (fs : List FileMetaData) :
    ∀ l : List FileMetaData, g ∈ addedSet l fs → g ∈ fs ∨ g ∈ l := by
  induction fs with
  | nil => intro l h; exact Or.inr h
  | cons f rest ih =>
    intro l h
    rcases ih _ h with h | h
    · exact Or.inl (List.mem_cons_of_mem _ h)
    · rcases mem_insertFile_subset h with rfl | h
      · exact Or.inl (by simp)
      · exact Or.inr h

/-- With distinct numbers, nothing is lost in the added set. -/
theorem mem_addedSet (fs : List FileMetaData) :
    ∀ l : List FileMetaData, (fs.map (·.number)).Nodup →
      (∀ f ∈ fs, ∀ h ∈ l, h.number ≠ f.number) → (g ∈ addedSet l fs ↔ g ∈ fs ∨ g ∈ l) := by
  induction fs with
  | nil => intro l _ _; simp [addedSet]
  | cons f rest ih =>
    intro l hnd hne
    obtain ⟨hf, hnd'⟩ := List.nodup_cons.mp hnd
    have hfl : ∀ h ∈ l, h.number ≠ f.number := hne f (by simp)
    have hrec := ih (insertFile f l) hnd' (by
      intro f' hf' h hh
      rcases mem_insertFile_subset hh with rfl | hh
      · intro heq
        exact hf (List.mem_map.mpr ⟨f', hf', heq.symm⟩)
      · exact hne f' (List.mem_cons_of_mem _ hf') h hh)
    show g ∈ addedSet (insertFile f l) rest ↔ _
    rw [hrec, List.mem_cons]
    constructor
    · rintro (h | h)
      · exact Or.inl (Or.inr h)
      · rcases mem_insertFile_subset h with h | h
        · exact Or.inl (Or.inl h)
        · exact Or.inr h
    · rintro ((rfl | h) | h)
      · exact Or.inr (mem_insertFile_self hfl)
      · exact Or.inl h
      · exact Or.inr (mem_insertFile_of_mem h)

/-! ## The merge of `SaveTo` -/

theorem mem_mergeFiles (added : List FileMetaData) :
    ∀ base : List FileMetaData, g ∈ mergeFiles base added ↔ g ∈ base ∨ g ∈ added := by
  induction added with
  | nil => intro base; simp [mergeFiles]
  | cons a added ih =>
    intro base
    have hbase : g ∈ base ↔ g ∈ base.takeWhile (fun b => !decide (bySmallestKey a b)) ∨
        g ∈ base.dropWhile (fun b => !decide (bySmallestKey a b)) := by
      rw [← List.mem_append, List.takeWhile_append_dropWhile]
    rw [mergeFiles, List.mem_append, List.mem_cons, ih, List.mem_cons, hbase]
    tauto

/-- Merging two ordered lists of comparable files gives an ordered list. -/
theorem mergeFiles_sorted (added : List FileMetaData) :
    ∀ base : List FileMetaData, base.Pairwise bySmallestKey → added.Pairwise bySmallestKey →
      (∀ a ∈ added, ∀ b ∈ base, bySmallestKey a b ∨ bySmallestKey b a) →
      (mergeFiles base added).Pairwise bySmallestKey := by
  induction added with
  | nil => intro base hb _ _; exact hb
  | cons a added ih =>
    intro base hb ha hcmp
    obtain ⟨haa, ha'⟩ := List.pairwise_cons.mp ha
    have hlow : ∀ b ∈ base.takeWhile (fun b => !decide (bySmallestKey a b)),
        bySmallestKey b a := by
      intro b hbm
      have hnot : ¬ bySmallestKey a b := by
        have := List.mem_takeWhile_imp hbm
        simpa using this
      rcases hcmp a (by simp) b ((List.takeWhile_subset _) hbm) with h | h
      · exact absurd h hnot
      · exact h
    have hdsub : (base.dropWhile fun b => !decide (bySmallestKey a b)).Sublist base :=
      (List.dropWhile_suffix _).sublist
    have hhigh : ∀ b ∈ base.dropWhile (fun b => !decide (bySmallestKey a b)),
        bySmallestKey a b := by
      have hcut : base.Pairwise fun b c =>
          (!decide (bySmallestKey a c)) = true → (!decide (bySmallestKey a b)) = true := by
        refine hb.imp fun hbc => ?_
        simp only [Bool.not_eq_true', decide_eq_false_iff_not]
        exact fun hac hab => hac (hab.trans hbc)
      intro b hbm
      rw [OrderedLists.dropWhile_eq_filter hcut] at hbm
      simpa using (List.mem_filter.mp hbm).2
    rw [mergeFiles, List.pairwise_append]
    refine ⟨hb.sublist (List.takeWhile_sublist _), List.pairwise_cons.mpr ⟨?_, ?_⟩, ?_⟩
    · intro g hg
      rcases (mem_mergeFiles added _).mp hg with h | h
      · exact hhigh g h
      · exact haa g h
    · exact ih _ (hb.sublist hdsub) ha' fun a' ha'' b hbm =>
        hcmp a' (List.mem_cons_of_mem _ ha'') b (hdsub.subset hbm)
    · intro b hbm g hg
      have hba := hlow b hbm
      rcases List.mem_cons.mp hg with rfl | hg
      · exact hba
      · rcases (mem_mergeFiles added _).mp hg with h | h
        · exact hba.trans (hhigh g h)
        · exact hba.trans (haa g h)

/-! ## One edit on one version -/

/-- The new files of an edit carry numbers of their own: distinct, and not in
    use on the level they are added to. -/
structure VersionEdit.FreshFor (edit : VersionEdit) (v : Version) : Prop where
  nodup : ∀ level, ((edit.addedAt level).map (·.number)).Nodup
  fresh : ∀ level, ∀ f ∈ edit.addedAt level, ∀ g ∈ v.files level, g.number ≠ f.number

theorem applyEdit_level (v : Version) (edit : VersionEdit) (level : Nat) :
    (applyEdit v edit).files level
      = (mergeFiles (v.files level) (addedSet [] (edit.addedAt level))).filter
          fun f => decide (¬ (f.number ∈ edit.deletedAt level
            ∧ ∀ g ∈ edit.addedAt level, g.number ≠ f.number)) := by
  have hadd : (((Builder.new v).apply edit).levels level).addedFiles
      = addedSet [] (edit.addedAt level) := by
    rw [Builder.apply_levels, foldl_add_addedFiles, foldl_delete_addedFiles]
    rfl
  have hdel : ∀ n, n ∈ (((Builder.new v).apply edit).levels level).deletedFiles ↔
      n ∈ edit.deletedAt level ∧ ∀ g ∈ edit.addedAt level, g.number ≠ n := by
    intro n
    rw [Builder.apply_levels, foldl_add_deletedFiles, foldl_delete_deletedFiles]
    simp [Builder.new]
  show (mergeFiles (v.files level) _).filter _ = _
  rw [hadd]
  refine List.filter_congr fun f _ => ?_
  rw [decide_eq_decide, hdel]

/-- **The files after an edit**: the base files it does not delete and the files
    it adds. -/
theorem mem_applyEdit {v : Version} (hf : edit.FreshFor v) :
    f ∈ (applyEdit v edit).files level ↔
      (f ∈ v.files level ∧ (level, f.number) ∉ edit.deletedFiles) ∨ (level, f) ∈ edit.newFiles := by
  rw [applyEdit_level, List.mem_filter, mem_mergeFiles,
    mem_addedSet _ _ (hf.nodup level) (fun _ _ => List.forall_mem_nil _),
    decide_eq_true_eq, VersionEdit.mem_deletedAt, ← VersionEdit.mem_addedAt]
  simp only [List.not_mem_nil, or_false]
  constructor
  · rintro ⟨hb | ha, hno⟩
    · refine Or.inl ⟨hb, fun hd => hno ⟨hd, fun g hg => ?_⟩⟩
      exact (hf.fresh level g hg f hb).symm
    · exact Or.inr ha
  · rintro (⟨hb, hd⟩ | ha)
    · exact ⟨Or.inl hb, fun h => hd h.1⟩
    · exact ⟨Or.inr ha, fun h => h.2 f ha rfl⟩

/-- **The order after an edit**: each level stays sorted by smallest key. -/
theorem applyEdit_sorted {v : Version} (hf : edit.FreshFor v)
    (hs : (v.files level).Pairwise bySmallestKey) :
    ((applyEdit v edit).files level).Pairwise bySmallestKey := by
  rw [applyEdit_level]
  refine List.Pairwise.filter _ (mergeFiles_sorted _ _ hs (addedSet_sorted _ _ List.Pairwise.nil) ?_)
  intro a ha b hb
  have ha' : a ∈ edit.addedAt level := by
    rcases mem_addedSet_subset _ _ ha with h | h
    · exact h
    · cases h
  exact bySmallestKey.total (hf.fresh level a ha' b hb).symm

/-- A sorted level whose files do not meet is a chain of disjoint files. -/
theorem disjointFiles_of_sorted {files : List FileMetaData}
    (hs : files.Pairwise bySmallestKey) (hord : ∀ f ∈ files, f.Ordered)
    (hd : ∀ f ∈ files, ∀ g ∈ files, f ≠ g → f.largest < g.smallest ∨ g.largest < f.smallest) :
    DisjointFiles files := by
  refine hs.imp_of_mem ?_
  intro f g hf hg hfg
  have hne : f ≠ g := by
    rintro rfl
    exact bySmallestKey.irrefl _ hfg
  rcases hd f hf g hg hne with h | h
  · exact h
  · exfalso
    have hlt : g.smallest < f.smallest := lt_of_le_of_lt (hord g hg) h
    rcases bySmallestKey_iff.mp hfg with h' | ⟨h', -⟩
    · exact lt_asymm hlt h'
    · exact absurd (h' ▸ hlt) (lt_irrefl _)

end LdbEdit
