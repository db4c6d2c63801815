import Mathlib.Data.List.MinMax
import LevelDB.VersionEdit

/-! # Choosing the inputs of a compaction

    `GetRange`, `AddBoundaryInputs`, `SetupOtherInputs`, `PickCompaction` and
    `CompactRange` of `db/version_set.cc`.  The trigger of an automatic
    compaction (the score or the file charged with seeks) is left open: any
    level or file that `PickCompaction` could be asked for.

    The result that everything later rests on is `Compaction.Closed`: which
    files outside the inputs may still share user keys with them. -/

namespace LdbCompaction

open LdbFormat LdbVersion LdbEdit

/-! ## Ranges of files -/

/-- The running minimum of smallest keys. -/
def keepSmaller (k : InternalKey) (g : FileMetaData) : InternalKey :=
  if g.smallest < k then g.smallest else k

/-- The running maximum of largest keys. -/
def keepLarger (k : InternalKey) (g : FileMetaData) : InternalKey :=
  if k < g.largest then g.largest else k

/-- `VersionSet::GetRange`; `none` for no files. -/
def getRange : List FileMetaData → Option (InternalKey × InternalKey)
  | [] => none
  | f :: rest => some (rest.foldl keepSmaller f.smallest, rest.foldl keepLarger f.largest)

/-- `FindLargestKey`. -/
def findLargestKey : List FileMetaData → Option InternalKey
  | [] => none
  | f :: rest => some (rest.foldl keepLarger f.largest)

/-- `FindSmallestBoundaryFile`: the first file after `largestKey` that shares its
    user key. -/
def findSmallestBoundaryFile (levelFiles : List FileMetaData) (largestKey : InternalKey) :
    Option FileMetaData :=
  levelFiles.foldl
    (fun best f =>
      if largestKey < f.smallest ∧ f.smallest.userKey = largestKey.userKey then
        match best with
        | none => some f
        | some b => if f.smallest < b.smallest then some f else some b
      else best) none

/-- The loop of `AddBoundaryInputs`. -/
def addBoundaryLoop (levelFiles : List FileMetaData) :
    Nat → List FileMetaData → InternalKey → List FileMetaData
  | 0, files, _ => files
  | fuel + 1, files, largestKey =>
    match findSmallestBoundaryFile levelFiles largestKey with
    | none => files
    | some b => addBoundaryLoop levelFiles fuel (files ++ [b]) b.largest

/-- `AddBoundaryInputs`.  Every round moves the largest key past a file of the
    level, so one round per file is enough. -/
def addBoundaryInputs (levelFiles compactionFiles : List FileMetaData) : List FileMetaData :=
  match findLargestKey compactionFiles with
  | none => compactionFiles
  | some k => addBoundaryLoop levelFiles (levelFiles.length + 1) compactionFiles k

/-- The larger half of `SetupOtherInputs` that both input sets go through: the
    files of the level that overlap the range, and their boundary files. -/
def overlappingWithBoundary (v : Version) (level : Nat) (range : InternalKey × InternalKey) :
    List FileMetaData :=
  addBoundaryInputs (v.files level) (v.getOverlappingInputs level (some range.1) (some range.2))

/-! ## Compactions -/

/-- `Compaction`: the chosen inputs.  `largest` is the new compaction pointer. -/
structure Compaction where
  level : Nat
  inputs0 : List FileMetaData
  inputs1 : List FileMetaData
  grandparents : List FileMetaData
  largest : InternalKey

/-- The input files of both levels. -/
abbrev Compaction.inputs (c : Compaction) : List FileMetaData := c.inputs0 ++ c.inputs1

/-- The grandparents and the compaction pointer for the final inputs. -/
def finishInputs (v : Version) (level : Nat) (inputs0 inputs1 : List FileMetaData) :
    Option Compaction :=
  match getRange inputs0, getRange (inputs0 ++ inputs1) with
  | some r0, some all =>
    some { level := level, inputs0 := inputs0, inputs1 := inputs1,
           grandparents := if level + 2 < kNumLevels then
             v.getOverlappingInputs (level + 2) (some all.1) (some all.2) else [],
           largest := r0.2 }
  | _, _ => none

/-- The expanded inputs `SetupOtherInputs` tries when it found files on the next
    level: more files of `level` without more files of `level + 1`. -/
def expandInputs (o : Options) (v : Version) (level : Nat)
    (inputs0 inputs1 : List FileMetaData) : List FileMetaData × List FileMetaData :=
  match getRange (inputs0 ++ inputs1) with
  | none => (inputs0, inputs1)
  | some all =>
    let expanded0 := overlappingWithBoundary v level all
    if inputs0.length < expanded0.length ∧
        totalFileSize inputs1 + totalFileSize expanded0 < expandedCompactionByteSizeLimit o then
      match getRange expanded0 with
      | none => (inputs0, inputs1)
      | some new =>
        let expanded1 := overlappingWithBoundary v (level + 1) new
        if expanded1.length = inputs1.length then (expanded0, expanded1)
        else (inputs0, inputs1)
    else (inputs0, inputs1)

/-- `VersionSet::SetupOtherInputs`. -/
def setupOtherInputs (o : Options) (v : Version) (level : Nat) (inputs : List FileMetaData) :
    Option Compaction :=
  let inputs0 := addBoundaryInputs (v.files level) inputs
  match getRange inputs0 with
  | none => none
  | some r =>
    let inputs1 := overlappingWithBoundary v (level + 1) r
    if inputs1 = [] then finishInputs v level inputs0 inputs1
    else
      let e := expandInputs o v level inputs0 inputs1
      finishInputs v level e.1 e.2

/-- What triggers an automatic compaction. -/
inductive Trigger where
  | size (level : Nat)
  | seek (level : Nat) (file : FileMetaData)
  deriving DecidableEq, Repr

/-- The level and first input file of `PickCompaction`. -/
def pickFirst (v : Version) (compactPointer : Nat → Option InternalKey) :
    Trigger → Option (Nat × FileMetaData)
  | .size level =>
    if level + 1 < kNumLevels then
      match (v.files level).find? (fun f =>
          match compactPointer level with
          | none => true
          | some p => decide (p < f.largest)) with
      | some f => some (level, f)
      -- wrap around to the beginning of the key space
      | none => (v.files level).head?.map fun f => (level, f)
    else none
  | .seek level file =>
    if level + 1 < kNumLevels ∧ file ∈ v.files level then some (level, file) else none

/-- `VersionSet::PickCompaction`. -/
def pickCompaction (o : Options) (v : Version) (compactPointer : Nat → Option InternalKey)
    (t : Trigger) : Option Compaction :=
  match pickFirst v compactPointer t with
  | none => none
  | some (level, f) =>
    if level = 0 then
      setupOtherInputs o v 0 (v.getOverlappingInputs 0 (some f.smallest) (some f.largest))
    else setupOtherInputs o v level [f]

/-- The truncation of `CompactRange`: the files up to the one that reaches the
    size limit. -/
def takeUpTo (limit : Nat) : Nat → List FileMetaData → List FileMetaData
  | _, [] => []
  | total, f :: rest =>
    if limit ≤ total + f.fileSize then [f] else f :: takeUpTo limit (total + f.fileSize) rest

/-- `VersionSet::CompactRange`. -/
def compactRange (o : Options) (v : Version) (level : Nat) (begin_ end_ : Option InternalKey) :
    Option Compaction :=
  let inputs := v.getOverlappingInputs level begin_ end_
  if inputs = [] then none
  else if level = 0 then setupOtherInputs o v level inputs
  else setupOtherInputs o v level (takeUpTo o.maxFileSize 0 inputs)

/-- `Compaction::IsTrivialMove`. -/
def Compaction.isTrivialMove (c : Compaction) (o : Options) : Bool :=
  decide (c.inputs0.length = 1) && decide (c.inputs1.length = 0)
    && decide (totalFileSize c.grandparents ≤ maxGrandParentOverlapBytes o)

/-- `Compaction::AddInputDeletions`. -/
def Compaction.addInputDeletions (c : Compaction) (edit : VersionEdit) : VersionEdit :=
  let e0 := c.inputs0.foldl (fun e f => e.removeFile c.level f.number) edit
  c.inputs1.foldl (fun e f => e.removeFile (c.level + 1) f.number) e0

/-! ## Specifications of the small searches -/

variable {files : List FileMetaData}

theorem keepLarger_eq_max (k : InternalKey) (g : FileMetaData) :
    keepLarger k g = max k g.largest :=
  (max_def_lt k g.largest).symm

theorem keepSmaller_eq_min (k : InternalKey) (g : FileMetaData) :
    keepSmaller k g = min k g.smallest := by
  rw [min_comm, min_def_lt, keepSmaller]

theorem findLargestKey_eq_max? (files : List FileMetaData) :
    findLargestKey files = (files.map (·.largest)).max? := by
  cases files with
  | nil => rfl
  | cons f rest =>
    rw [findLargestKey, funext₂ keepLarger_eq_max, List.map_cons, List.max?_cons', List.foldl_map]

theorem getRange_eq_min? (files : List FileMetaData) :
    (getRange files).map Prod.fst = (files.map (·.smallest)).min? := by
  cases files with
  | nil => rfl
  | cons f rest =>
    rw [getRange, funext₂ keepSmaller_eq_min, List.map_cons, List.min?_cons', List.foldl_map,
      Option.map_some]

/-- **`FindLargestKey`** returns the attained maximum. -/
theorem findLargestKey_spec {k : InternalKey} (h : findLargestKey files = some k) :
    (∀ f ∈ files, f.largest ≤ k) ∧ ∃ f ∈ files, f.largest = k := by
  rw [findLargestKey_eq_max?, List.max?_eq_some_iff, List.forall_mem_map, List.mem_map] at h
  exact ⟨h.2, h.1⟩

/-- **`GetRange`** returns attained bounds of all files. -/
theorem getRange_spec {r : InternalKey × InternalKey} (h : getRange files = some r) :
    (∀ f ∈ files, r.1 ≤ f.smallest ∧ f.largest ≤ r.2)
      ∧ (∃ f ∈ files, f.smallest = r.1) ∧ (∃ f ∈ files, f.largest = r.2) := by
  have hmin := getRange_eq_min? files
  rw [h, Option.map_some, eq_comm, List.min?_eq_some_iff, List.forall_mem_map, List.mem_map] at hmin
  have hlast : findLargestKey files = some r.2 := by
    cases files with
    | nil => cases h
    | cons f rest =>
      cases h
      rfl
  obtain ⟨hmax, hin⟩ := findLargestKey_spec hlast
  exact ⟨fun f hf => ⟨hmin.2 f hf, hmax f hf⟩, hmin.1, hin⟩

theorem getRange_isSome (h : files ≠ []) :
    ∃ r, getRange files = some r := by
  cases files with
  | nil => exact absurd rfl h
  | cons f rest => exact ⟨_, rfl⟩

/-- The file is a boundary file for `k`: it begins after `k`, at the same user
    key. -/
def IsBoundary (k : InternalKey) (f : FileMetaData) : Prop :=
  k < f.smallest ∧ f.smallest.userKey = k.userKey

instance (k : InternalKey) : DecidablePred (IsBoundary k) :=
  fun _ => inferInstanceAs (Decidable (_ ∧ _))

theorem findSmallestBoundaryFile_eq_argmin (files : List FileMetaData) (k : InternalKey) :
    findSmallestBoundaryFile files k
      = (files.filter (IsBoundary k ·)).argmin (·.smallest) := by
  rw [List.argmin, List.foldl_filter, findSmallestBoundaryFile]
  simp only [decide_eq_true_eq]
  congr 1
  funext best f
  cases best <;> rfl

/-- **`FindSmallestBoundaryFile`** returns the first boundary file. -/
theorem findSmallestBoundaryFile_spec (files : List FileMetaData) (k : InternalKey) :
    match findSmallestBoundaryFile files k with
    | none => ∀ f ∈ files, ¬ IsBoundary k f
    | some b => b ∈ files ∧ IsBoundary k b ∧
        ∀ f ∈ files, IsBoundary k f → b.smallest ≤ f.smallest := by
  rw [findSmallestBoundaryFile_eq_argmin]
  have hmem : ∀ {f}, f ∈ files.filter (IsBoundary k ·) ↔ f ∈ files ∧ IsBoundary k f := by
    simp only [List.mem_filter, decide_eq_true_eq, implies_true]
  cases hb : (files.filter (IsBoundary k ·)).argmin (·.smallest) with
  | none =>
    intro f hf hfb
    have hnil := List.argmin_eq_none.mp hb
    exact absurd (hmem.mpr ⟨hf, hfb⟩) (hnil ▸ List.not_mem_nil)
  | some b =>
    obtain ⟨hm, hbb⟩ := hmem.mp (List.argmin_mem hb)
    exact ⟨hm, hbb, fun f hf hfb => List.le_of_mem_argmin (hmem.mpr ⟨hf, hfb⟩) hb⟩

end LdbCompaction
