import LevelDB.Drop
import LevelDB.Table
import LevelDB.Closure
import LevelDB.KWayMerge

/-! # The compaction loop and its output files

    `DoCompactionWork` (`db/db_impl.cc`), with `MakeInputIterator`,
    `ShouldStopBefore` and `IsBaseLevelForKey` (`db/version_set.cc`).  The loop
    is read as it is: outputs are opened, filled, closed by size or by overlap
    with the grandparents, and their bounds are maintained entry by entry.

    `doCompactionWork_eq` gives the closed form: the kept entries are cut into
    consecutive segments, every output is one segment with all tombstones, and
    only the last open output, or the output written when nothing survives, is
    stretched to the tombstones. -/

namespace LdbWork

open LdbFormat LdbVersion LdbTable LdbDrop LdbCompaction

/-! ## Tombstones of the inputs -/

/-- The order of the `std::sort` call: start keys ascending, sequences
    descending. -/
def delBefore (a b : RangeDeletion) : Prop :=
  a.startKey < b.startKey ∨ (a.startKey = b.startKey ∧ b.seq ≤ a.seq)

instance (a b : RangeDeletion) : Decidable (delBefore a b) :=
  inferInstanceAs (Decidable (_ ∨ _))

/-- The equality of the `std::unique` call. -/
def sameTombstone (a b : RangeDeletion) : Prop := a.startKey = b.startKey ∧ a.seq = b.seq

instance (a b : RangeDeletion) : Decidable (sameTombstone a b) :=
  inferInstanceAs (Decidable (_ ∧ _))

/-- `std::unique` after a first element `d`. -/
def uniqueFrom (d : RangeDeletion) : List RangeDeletion → List RangeDeletion
  | [] => [d]
  | e :: rest => if sameTombstone d e then uniqueFrom d rest else d :: uniqueFrom e rest

/-- The sorted, de-duplicated tombstones written to every output. -/
def sortedDels (dels : List RangeDeletion) : List RangeDeletion :=
  match dels.insertionSort delBefore with
  | [] => []
  | d :: rest => uniqueFrom d rest

/-- The entry written for a tombstone. -/
def tombstoneEntry (d : RangeDeletion) : Entry := ⟨⟨d.startKey, d.seq, .rangeDeletion⟩, d.endKey⟩

/-- The smallest start key with its sequence, over non-empty `dels`. -/
def minStart : List RangeDeletion → Option (Slice × Nat)
  | [] => none
  | d :: rest => some (rest.foldl
      (fun m x => if x.startKey < m.1 then (x.startKey, x.seq) else m) (d.startKey, d.seq))

/-- The largest end key, over non-empty `dels`. -/
def maxEnd : List RangeDeletion → Option Slice
  | [] => none
  | d :: rest => some (rest.foldl (fun m x => if m < x.endKey then x.endKey else m) d.endKey)

/-! ## Output files -/

/-- `CompactionState::Output` with the calls made on its builder.  An empty
    `InternalKey` is `none`. -/
structure Output where
  smallest : Option InternalKey
  largest : Option InternalKey
  adds : List Entry
  deriving DecidableEq, Repr

/-- Opening an output: `OpenCompactionOutputFile`, the tombstones, and the
    stretching of `smallest` meant for the first file.  The new output has been
    pushed when `outputs.empty()` is asked. -/
def openOutput (dels : List RangeDeletion) (outputs : List Output) : Output :=
  let out : Output := ⟨none, none, dels.map tombstoneEntry⟩
  if (outputs ++ [out]).isEmpty then
    match minStart dels with
    | none => out
    | some (k, seq) => { out with smallest := some ⟨k, seq, .rangeDeletion⟩ }
  else out

/-- The bounds update and `Add` for a kept entry. -/
def Output.addPoint (out : Output) (e : Entry) : Output where
  smallest :=
    match out.smallest with
    | none => some e.key
    | some k => if e.key.userKey < k.userKey then some e.key else some k
  largest :=
    match out.largest with
    | none => some e.key
    | some k => if k.userKey < e.key.userKey then some e.key else some k
  adds := out.adds ++ [e]

/-- The stretching of `largest` on the output still open after the loop. -/
def Output.stretch (out : Output) (dels : List RangeDeletion) : Output :=
  match maxEnd dels with
  | none => out
  | some k =>
    match out.largest with
    | none => { out with largest := some ⟨k, 0, .deletion⟩ }
    | some l => if l.userKey < k then { out with largest := some ⟨k, 0, .deletion⟩ } else out

/-- The output written when no point entry survives. -/
def fallbackOutput (dels : List RangeDeletion) : List Output :=
  match minStart dels, maxEnd dels with
  | some (k, seq), some e =>
    [⟨some ⟨k, seq, .rangeDeletion⟩, some ⟨e, 0, .deletion⟩, dels.map tombstoneEntry⟩]
  | _, _ => []

/-! ## `ShouldStopBefore` and `IsBaseLevelForKey` -/

/-- `grandparent_index_`, `overlapped_bytes_` and `seen_key_`. -/
structure StopState where
  index : Nat
  overlapped : Nat
  seen : Bool

/-- The scan of `ShouldStopBefore` over the grandparents from the index on. -/
def skipGrandparents (key : InternalKey) (seen : Bool) :
    List FileMetaData → Nat → Nat → Nat × Nat
  | [], index, overlapped => (index, overlapped)
  | g :: rest, index, overlapped =>
    if g.largest < key then
      skipGrandparents key seen rest (index + 1)
        (if seen then overlapped + g.fileSize else overlapped)
    else (index, overlapped)

/-- `Compaction::ShouldStopBefore`. -/
def shouldStopBefore (o : Options) (grandparents : List FileMetaData) (key : InternalKey)
    (st : StopState) : Bool × StopState :=
  let r := skipGrandparents key st.seen (grandparents.drop st.index) st.index st.overlapped
  if maxGrandParentOverlapBytes o < r.2 then (true, ⟨r.1, 0, true⟩)
  else (false, ⟨r.1, r.2, true⟩)

/-- The inner loop of `IsBaseLevelForKey` on one level, from its pointer on: the
    new pointer, and whether the key falls in a file. -/
def scanLevel (userKey : Slice) : List FileMetaData → Nat → Nat × Bool
  | [], ptr => (ptr, false)
  | f :: rest, ptr =>
    if userKey ≤ f.largest.userKey then (ptr, decide (f.smallest.userKey ≤ userKey))
    else scanLevel userKey rest (ptr + 1)

/-- The outer loop of `IsBaseLevelForKey` over the remaining levels. -/
def scanLevels (v : Version) (userKey : Slice) : List Nat → (Nat → Nat) → Bool × (Nat → Nat)
  | [], ptrs => (true, ptrs)
  | l :: rest, ptrs =>
    let r := scanLevel userKey ((v.files l).drop (ptrs l)) (ptrs l)
    if r.2 then (false, Function.update ptrs l r.1)
    else scanLevels v userKey rest (Function.update ptrs l r.1)

/-- The levels below the output level. -/
def deeperLevels (level : Nat) : List Nat := List.range' (level + 2) (kNumLevels - (level + 2))

/-- `Compaction::IsBaseLevelForKey`. -/
def isBaseLevelForKey (v : Version) (level : Nat) (userKey : Slice) (ptrs : Nat → Nat) :
    Bool × (Nat → Nat) :=
  scanLevels v userKey (deeperLevels level) ptrs

/-! ## The loop -/

/-- What a compaction has fixed when it releases the mutex. -/
structure Job where
  compaction : Compaction
  inputVersion : Version
  tables : Nat → Table
  smallestSnapshot : Nat

/-- All input files. -/
def Job.inputs (j : Job) : List FileMetaData := j.compaction.inputs0 ++ j.compaction.inputs1

/-- `compaction_range_dels`. -/
def Job.rangeDels (j : Job) : List RangeDeletion :=
  j.inputs.flatMap fun f => (j.tables f.number).rangeDeletions

/-- The tombstones written to the outputs. -/
def Job.dels (j : Job) : List RangeDeletion := sortedDels j.rangeDels

/-- The children of `MakeInputIterator`: level-0 files one by one, other levels
    concatenated. -/
def Job.children (j : Job) : List (List Entry) :=
  let entries := fun f : FileMetaData => (j.tables f.number).entries
  (if j.compaction.level = 0 then j.compaction.inputs0.map entries
    else [j.compaction.inputs0.flatMap entries]) ++ [j.compaction.inputs1.flatMap entries]

/-- The entries the input iterator yields. -/
def Job.merged (j : Job) : List Entry := KWayMerge.merge entryBefore j.children

/-- The loop-carried state. -/
structure WorkState where
  drop : DropState (Nat → Nat)
  stop : StopState
  outputs : List Output
  current : Option Output

/-- The state before the first entry. -/
def WorkState.init : WorkState := ⟨DropState.init fun _ => 0, ⟨0, 0, false⟩, [], none⟩

/-- `FinishCompactionOutputFile` on the current output, if one is open. -/
def WorkState.finishOutput (st : WorkState) : WorkState :=
  match st.current with
  | none => st
  | some out => { st with outputs := st.outputs ++ [out], current := none }

/-- One round of the loop. -/
def Job.processEntry (j : Job) (o : Options) (st : WorkState) (e : Entry) : WorkState :=
  let s := shouldStopBefore o j.compaction.grandparents e.key st.stop
  let st := if s.1 then { st with stop := s.2 }.finishOutput else { st with stop := s.2 }
  let d := dropEntry j.rangeDels j.smallestSnapshot
    (isBaseLevelForKey j.inputVersion j.compaction.level) e st.drop
  let st := { st with drop := d.2 }
  if d.1 then st
  else
    let out := (match st.current with
      | none => openOutput j.dels st.outputs
      | some out => out).addPoint e
    if o.maxFileSize ≤ o.fileSize out.adds then { st with current := some out }.finishOutput
    else { st with current := some out }

/-- What happens after the loop. -/
def Job.finishLoop (j : Job) (st : WorkState) : List Output :=
  match st.current with
  | some out => st.outputs ++ [out.stretch j.dels]
  | none => if st.outputs = [] then fallbackOutput j.dels else st.outputs

/-- `DBImpl::DoCompactionWork`: the outputs handed to
    `InstallCompactionResults`. -/
def Job.doCompactionWork (j : Job) (o : Options) : List Output :=
  j.finishLoop (j.merged.foldl (j.processEntry o) WorkState.init)

/-! ## The closed form: cutting the kept entries -/

/-- The entries with the loop's verdicts. -/
def Job.flagged (j : Job) : List (Entry × Bool) :=
  flagEntries j.rangeDels j.smallestSnapshot
    (isBaseLevelForKey j.inputVersion j.compaction.level) (DropState.init fun _ => 0) j.merged

/-- The entries that reach an output. -/
def Job.kept (j : Job) : List Entry :=
  keptEntries j.rangeDels j.smallestSnapshot
    (isBaseLevelForKey j.inputVersion j.compaction.level) (DropState.init fun _ => 0) j.merged

/-- What one entry does to the cut: the segments it closes, the next stop state
    and the next open segment. -/
structure Cut where
  closed : List (List Entry)
  stop : StopState
  cur : List Entry

/-- One step of the cut.  `p.2` says whether the entry is kept, `cur` is the open
    segment. -/
def cutStep (o : Options) (dels : List RangeDeletion) (grandparents : List FileMetaData)
    (p : Entry × Bool) (st : StopState) (cur : List Entry) : Cut :=
  let s := shouldStopBefore o grandparents p.1.key st
  let closed := if s.1 ∧ cur ≠ [] then [cur] else []
  let cur := if s.1 then [] else cur
  if p.2 then
    if o.maxFileSize ≤ o.fileSize (dels.map tombstoneEntry ++ (cur ++ [p.1])) then
      ⟨closed ++ [cur ++ [p.1]], s.2, []⟩
    else ⟨closed, s.2, cur ++ [p.1]⟩
  else ⟨closed, s.2, cur⟩

/-- How the kept entries are cut into segments: the closed ones, and the one
    still open at the end. -/
def cutLoop (o : Options) (dels : List RangeDeletion) (grandparents : List FileMetaData) :
    List (Entry × Bool) → StopState → List Entry → List (List Entry) × List Entry
  | [], _, cur => ([], cur)
  | p :: rest, st, cur =>
    let c := cutStep o dels grandparents p st cur
    let q := cutLoop o dels grandparents rest c.stop c.cur
    (c.closed ++ q.1, q.2)

/-- The segments of a compaction: closed ones and the last open one. -/
def Job.segments (j : Job) (o : Options) : List (List Entry) × List Entry :=
  cutLoop o j.dels j.compaction.grandparents j.flagged ⟨0, 0, false⟩ []

/-- The output of a segment, before any stretching. -/
def outputOf (dels : List RangeDeletion) (seg : List Entry) : Output :=
  seg.foldl Output.addPoint ⟨none, none, dels.map tombstoneEntry⟩

/-- The open output of a possibly empty segment. -/
def openOf (dels : List RangeDeletion) (cur : List Entry) : Option Output :=
  if cur = [] then none else some (outputOf dels cur)

section

variable (dels : List RangeDeletion)
include dels

theorem openOutput_eq (outputs : List Output) :
    openOutput dels outputs = ⟨none, none, dels.map tombstoneEntry⟩ := by
  rw [openOutput, if_neg (by simp)]

theorem outputOf_snoc (seg : List Entry) (e : Entry) :
    outputOf dels (seg ++ [e]) = (outputOf dels seg).addPoint e := by
  rw [outputOf, outputOf, List.foldl_append]
  rfl

theorem outputOf_adds (seg : List Entry) :
    (outputOf dels seg).adds = dels.map tombstoneEntry ++ seg := by
  induction seg using List.reverseRecOn with
  | nil => simp [outputOf]
  | append_singleton seg e ih =>
    rw [outputOf_snoc]
    show (outputOf dels seg).adds ++ [e] = _
    rw [ih, List.append_assoc]

/-- The open output after one more kept entry. -/
theorem openOf_addPoint (outputs : List Output) (cur : List Entry) (e : Entry) :
    (match openOf dels cur with
      | none => openOutput dels outputs
      | some out => out).addPoint e = outputOf dels (cur ++ [e]) := by
  rw [outputOf_snoc]
  by_cases h : cur = []
  · subst h
    rw [openOf, if_pos rfl]
    show (openOutput dels outputs).addPoint e = _
    rw [openOutput_eq]
    rfl
  · rw [openOf, if_neg h]

theorem openOf_snoc (cur : List Entry) (e : Entry) :
    openOf dels (cur ++ [e]) = some (outputOf dels (cur ++ [e])) := by
  rw [openOf, if_neg (by simp)]

end

/-- Closing the current output moves it to the finished ones. -/
theorem finishOutput_openOf (st : WorkState) {dels : List RangeDeletion} {cur : List Entry}
    (h : st.current = openOf dels cur) :
    st.finishOutput = { st with
      outputs := st.outputs ++ (if cur ≠ [] then [cur] else []).map (outputOf dels),
      current := none } := by
  by_cases hc : cur = []
  · rw [openOf, if_pos hc] at h
    rw [WorkState.finishOutput, h]
    simp [hc, ← h]
  · rw [openOf, if_neg hc] at h
    rw [WorkState.finishOutput, h]
    simp [hc]

/-- One round of the loop is one step of the cut. -/
theorem processEntry_cut (j : Job) (o : Options) {st : WorkState} {cur : List Entry} (e : Entry)
    (hcur : st.current = openOf j.dels cur) :
    let d := dropEntry j.rangeDels j.smallestSnapshot
      (isBaseLevelForKey j.inputVersion j.compaction.level) e st.drop
    let c := cutStep o j.dels j.compaction.grandparents (e, !d.1) st.stop cur
    j.processEntry o st e
      = ⟨d.2, c.stop, st.outputs ++ c.closed.map (outputOf j.dels), openOf j.dels c.cur⟩ := by
  intro d c
  -- the state after the `ShouldStopBefore` test
  have hstop : (if (shouldStopBefore o j.compaction.grandparents e.key st.stop).1 then
        { st with stop := (shouldStopBefore o j.compaction.grandparents e.key st.stop).2
          }.finishOutput
      else { st with stop := (shouldStopBefore o j.compaction.grandparents e.key st.stop).2 })
      = ⟨st.drop, (shouldStopBefore o j.compaction.grandparents e.key st.stop).2,
          st.outputs ++ (if (shouldStopBefore o j.compaction.grandparents e.key st.stop).1
            ∧ cur ≠ [] then [cur] else []).map (outputOf j.dels),
          openOf j.dels (if (shouldStopBefore o j.compaction.grandparents e.key st.stop).1
            then [] else cur)⟩ := by
    by_cases hs : (shouldStopBefore o j.compaction.grandparents e.key st.stop).1 = true
    · rw [if_pos hs, finishOutput_openOf { st with
        stop := (shouldStopBefore o j.compaction.grandparents e.key st.stop).2 } hcur]
      simp [hs, openOf]
    · rw [if_neg hs]
      simp [hs, hcur]
  rw [Job.processEntry]
  simp only [hstop]
  rw [openOf_addPoint, outputOf_adds]
  show (if d.1 = true then _ else _) = _
  cases hd : d.1 with
  | true =>
    have hc : c = cutStep o j.dels j.compaction.grandparents (e, false) st.stop cur := by
      rw [← Bool.not_true, ← hd]
    rw [hc, cutStep]
    simp only [if_true, Bool.false_eq_true, if_false]
    rfl
  | false =>
    have hc : c = cutStep o j.dels j.compaction.grandparents (e, true) st.stop cur := by
      rw [← Bool.not_false, ← hd]
    rw [hc, cutStep]
    simp only [Bool.false_eq_true, if_false, if_true]
    by_cases hsz : o.maxFileSize ≤ o.fileSize (j.dels.map tombstoneEntry ++
        ((if (shouldStopBefore o j.compaction.grandparents e.key st.stop).1 then []
          else cur) ++ [e]))
    · have hne : ∀ l : List Entry, l ++ [e] ≠ [] := fun l => by simp
      rw [if_pos hsz, if_pos hsz, finishOutput_openOf _ (openOf_snoc _ _ _).symm,
        if_pos (hne _)]
      simp only [List.map_append, List.append_assoc]
      rfl
    · rw [if_neg hsz, if_neg hsz, openOf_snoc]

/-- **The loop cuts the kept entries**: its state after any number of rounds is
    the state of the cut. -/
theorem foldl_processEntry (j : Job) (o : Options) (rest : List Entry) :
    ∀ (st : WorkState) (cur : List Entry), st.current = openOf j.dels cur →
      let q := cutLoop o j.dels j.compaction.grandparents
        (flagEntries j.rangeDels j.smallestSnapshot
          (isBaseLevelForKey j.inputVersion j.compaction.level) st.drop rest) st.stop cur
      (rest.foldl (j.processEntry o) st).outputs = st.outputs ++ q.1.map (outputOf j.dels)
      ∧ (rest.foldl (j.processEntry o) st).current = openOf j.dels q.2 := by
  induction rest with
  | nil =>
    intro st cur hcur
    simp [cutLoop, flagEntries, hcur]
  | cons e rest ih =>
    intro st cur hcur
    have hstep := processEntry_cut j o e hcur
    rw [List.foldl_cons, flagEntries, cutLoop]
    simp only at hstep ⊢
    rw [hstep]
    generalize dropEntry j.rangeDels j.smallestSnapshot
      (isBaseLevelForKey j.inputVersion j.compaction.level) e st.drop = d
    generalize cutStep o j.dels j.compaction.grandparents (e, !d.1) st.stop cur = c
    obtain ⟨h1, h2⟩ := ih ⟨d.2, c.stop, st.outputs ++ c.closed.map (outputOf j.dels),
      openOf j.dels c.cur⟩ c.cur rfl
    refine ⟨?_, h2⟩
    rw [h1, List.map_append, List.append_assoc]

/-- The outputs of a cut: one per closed segment, the last open one stretched,
    and the fallback when there is none at all. -/
def outputsOf (dels : List RangeDeletion) (segs : List (List Entry) × List Entry) :
    List Output :=
  if segs.2 = [] then
    if segs.1 = [] then fallbackOutput dels else segs.1.map (outputOf dels)
  else segs.1.map (outputOf dels) ++ [(outputOf dels segs.2).stretch dels]

theorem mem_outputsOf {dels : List RangeDeletion} {segs : List (List Entry) × List Entry}
    {out : Output} : out ∈ outputsOf dels segs ↔
      ((segs.1 = [] ∧ segs.2 = []) ∧ out ∈ fallbackOutput dels)
        ∨ (∃ seg ∈ segs.1, outputOf dels seg = out)
        ∨ (segs.2 ≠ [] ∧ (outputOf dels segs.2).stretch dels = out) := by
  rw [outputsOf]
  split_ifs with h2 h1
  · simp [h1, h2]
  · simp [h1, h2]
  · simp [h2, eq_comm]

/-- **`DoCompactionWork` in closed form.** -/
theorem doCompactionWork_eq (j : Job) (o : Options) :
    j.doCompactionWork o = outputsOf j.dels (j.segments o) := by
  obtain ⟨h1, h2⟩ := foldl_processEntry j o j.merged WorkState.init [] rfl
  have hseg : cutLoop o j.dels j.compaction.grandparents
      (flagEntries j.rangeDels j.smallestSnapshot
        (isBaseLevelForKey j.inputVersion j.compaction.level) WorkState.init.drop j.merged)
      WorkState.init.stop [] = j.segments o := rfl
  rw [hseg] at h1 h2
  rw [Job.doCompactionWork, Job.finishLoop, outputsOf, h2]
  by_cases hc : (j.segments o).2 = []
  · rw [openOf, if_pos hc, if_pos hc]
    simp only [h1]
    show (if [] ++ (j.segments o).1.map (outputOf j.dels) = [] then _ else _) = _
    rw [List.nil_append]
    by_cases hs : (j.segments o).1 = []
    · rw [hs]
      rfl
    · rw [if_neg (by simpa using hs), if_neg hs]
      rfl
  · rw [openOf, if_neg hc, if_neg hc]
    simp only [h1]
    rfl

section

variable (o : Options) (dels : List RangeDeletion) (gps : List FileMetaData)
include o dels gps

/-- One step of the cut moves entries from the open segment to closed ones and
    appends the entry if it is kept. -/
theorem cutStep_flatten (p : Entry × Bool) (st : StopState) (cur : List Entry) :
    (cutStep o dels gps p st cur).closed.flatten ++ (cutStep o dels gps p st cur).cur
      = cur ++ if p.2 then [p.1] else [] := by
  have hcl : (if (shouldStopBefore o gps p.1.key st).1 ∧ cur ≠ [] then [cur] else []).flatten
      ++ (if (shouldStopBefore o gps p.1.key st).1 then [] else cur) = cur := by
    by_cases hs : (shouldStopBefore o gps p.1.key st).1 = true
    · by_cases hc : cur = []
      · simp [hc]
      · simp [hs, hc]
    · simp [hs]
  rw [cutStep]
  generalize (if (shouldStopBefore o gps p.1.key st).1 ∧ cur ≠ [] then [cur] else []) = X at hcl ⊢
  generalize (if (shouldStopBefore o gps p.1.key st).1 then [] else cur) = Y at hcl ⊢
  split_ifs with hp hsz
  · rw [List.flatten_append, List.flatten_singleton, ← List.append_assoc, hcl, List.append_nil]
  · rw [← List.append_assoc, hcl]
  · rw [hcl, List.append_nil]

/-- The cut loses and reorders nothing. -/
theorem cutLoop_flatten (ps : List (Entry × Bool)) :
    ∀ (st : StopState) (cur : List Entry),
      (cutLoop o dels gps ps st cur).1.flatten ++ (cutLoop o dels gps ps st cur).2
        = cur ++ (ps.filter (·.2)).map (·.1) := by
  induction ps with
  | nil => intro st cur; simp [cutLoop]
  | cons p rest ih =>
    intro st cur
    rw [cutLoop]
    simp only
    rw [List.flatten_append, List.append_assoc, ih, ← List.append_assoc, cutStep_flatten,
      List.append_assoc]
    cases hp : p.2 with
    | false => simp [hp]
    | true => simp [hp]

omit o dels gps in
/-- **The segments are the kept entries.** -/
theorem segments_flatten (j : Job) (o : Options) :
    (j.segments o).1.flatten ++ (j.segments o).2 = j.kept := by
  rw [Job.segments, cutLoop_flatten, Job.kept, keptEntries_eq_flagged]
  rfl

theorem cutStep_ne_nil (p : Entry × Bool) (st : StopState) (cur : List Entry) :
    ∀ seg ∈ (cutStep o dels gps p st cur).closed, seg ≠ [] := by
  have hcl : ∀ seg ∈ (if (shouldStopBefore o gps p.1.key st).1 ∧ cur ≠ [] then [cur] else []),
      seg ≠ [] := by
    intro seg hs
    split_ifs at hs with hc
    · rw [List.mem_singleton.mp hs]
      exact hc.2
    · cases hs
  intro seg hseg
  rw [cutStep] at hseg
  generalize (if (shouldStopBefore o gps p.1.key st).1 ∧ cur ≠ [] then [cur] else []) = X at hcl hseg
  generalize (if (shouldStopBefore o gps p.1.key st).1 then [] else cur) = Y at hseg
  split_ifs at hseg with hp hsz
  · rcases List.mem_append.mp hseg with h | h
    · exact hcl seg h
    · rw [List.mem_singleton.mp h]
      simp
  · exact hcl seg hseg
  · exact hcl seg hseg

/-- Closed segments are never empty. -/
theorem cutLoop_ne_nil (ps : List (Entry × Bool)) :
    ∀ (st : StopState) (cur : List Entry), ∀ seg ∈ (cutLoop o dels gps ps st cur).1, seg ≠ [] := by
  induction ps with
  | nil => intro st cur seg h; simp [cutLoop] at h
  | cons p rest ih =>
    intro st cur seg h
    rw [cutLoop] at h
    rcases List.mem_append.mp h with h | h
    · exact cutStep_ne_nil o dels gps p st cur seg h
    · exact ih _ _ seg h

end

theorem segments_ne_nil (j : Job) (o : Options) : ∀ seg ∈ (j.segments o).1, seg ≠ [] :=
  cutLoop_ne_nil o j.dels j.compaction.grandparents j.flagged _ _

/-! ## The base-level test

    `IsBaseLevelForKey` keeps one pointer per deeper level and never moves it
    back.  Asked about non-decreasing user keys it answers as if it looked at
    every file. -/

/-- No file below the output level holds the user key. -/
def baseAt (v : Version) (level : Nat) (userKey : Slice) : Bool :=
  decide (∀ l ∈ deeperLevels level, ∀ f ∈ v.files l, f.holds userKey = false)

/-- The files a pointer has passed end before the user key. -/
def Passed (v : Version) (level : Nat) (ptrs : Nat → Nat) (userKey : Slice) : Prop :=
  ∀ l ∈ deeperLevels level, ∀ f ∈ (v.files l).take (ptrs l), f.largest.userKey < userKey

/-- The scan of one level stops at the first file that does not end before the
    key. -/
theorem scanLevel_spec (userKey : Slice) {files : List FileMetaData} :
    ∀ ptr, SortedLevel files →
      ∃ n, (scanLevel userKey files ptr).1 = ptr + n
        ∧ (∀ f ∈ files.take n, f.largest.userKey < userKey)
        ∧ ((scanLevel userKey files ptr).2 = true ↔ ∃ f ∈ files, f.holds userKey = true) := by
  induction files with
  | nil =>
    intro ptr _
    exact ⟨0, rfl, nofun, by simp [scanLevel]⟩
  | cons f rest ih =>
    intro ptr hs
    obtain ⟨hfirst, hrest⟩ := List.pairwise_cons.mp hs.disjoint
    have hs' : SortedLevel rest := ⟨fun g hg => hs.ordered g (List.mem_cons_of_mem _ hg), hrest⟩
    by_cases hle : userKey ≤ f.largest.userKey
    · rw [scanLevel, if_pos hle]
      refine ⟨0, rfl, nofun, ?_⟩
      rw [decide_eq_true_eq]
      constructor
      · intro hsm
        exact ⟨f, by simp, FileMetaData.holds_iff.mpr ⟨hsm, hle⟩⟩
      · rintro ⟨g, hg, hk⟩
        rcases List.mem_cons.mp hg with rfl | hg
        · exact (FileMetaData.holds_iff.mp hk).1
        · -- a later file begins at or after the end of `f`
          have h1 := InternalKey.userKey_le (le_of_lt (hfirst g hg))
          exact le_trans (hs.ordered f (by simp)).userKey_le
            (le_trans h1 (FileMetaData.holds_iff.mp hk).1)
    · rw [scanLevel, if_neg hle]
      obtain ⟨n, h1, h2, h3⟩ := ih (ptr + 1) hs'
      refine ⟨n + 1, by rw [h1]; omega, ?_, ?_⟩
      · intro g hg
        rw [List.take_succ_cons] at hg
        rcases List.mem_cons.mp hg with rfl | hg
        · exact lt_of_not_ge hle
        · exact h2 g hg
      · rw [h3]
        constructor
        · rintro ⟨g, hg, hk⟩
          exact ⟨g, List.mem_cons_of_mem _ hg, hk⟩
        · rintro ⟨g, hg, hk⟩
          rcases List.mem_cons.mp hg with rfl | hg
          · exact absurd (FileMetaData.holds_iff.mp hk).2 hle
          · exact ⟨g, hg, hk⟩

/-- The scan of all levels: the answer, and that pointers only pass files that end
    before the key. -/
theorem scanLevels_spec {v : Version} (userKey : Slice) {ls : List Nat}
    (hs : ∀ l ∈ ls, SortedLevel (v.files l)) :
    ∀ ptrs, (∀ l ∈ ls, ∀ f ∈ (v.files l).take (ptrs l), f.largest.userKey < userKey) →
      ((scanLevels v userKey ls ptrs).1 = true ↔
          ∀ l ∈ ls, ∀ f ∈ v.files l, f.holds userKey = false)
        ∧ ∀ l, ∀ f ∈ (v.files l).take ((scanLevels v userKey ls ptrs).2 l),
            f ∈ (v.files l).take (ptrs l) ∨ f.largest.userKey < userKey := by
  induction ls with
  | nil =>
    intro ptrs _
    exact ⟨by simp [scanLevels], fun l f hf => Or.inl hf⟩
  | cons l rest ih =>
    intro ptrs hp
    have hsl := hs l (by simp)
    have hdrop : SortedLevel ((v.files l).drop (ptrs l)) :=
      ⟨fun f hf => hsl.ordered f (List.mem_of_mem_drop hf),
        hsl.disjoint.sublist (List.drop_sublist _ _)⟩
    obtain ⟨n, h1, h2, h3⟩ := scanLevel_spec userKey (ptrs l) hdrop
    -- the pointer of this level has passed only files that end before the key
    have hpass : ∀ f ∈ (v.files l).take (ptrs l + n), f.largest.userKey < userKey := by
      intro f hf
      rw [List.take_add] at hf
      rcases List.mem_append.mp hf with hf | hf
      · exact hp l (by simp) f hf
      · exact h2 f hf
    have hupd : ∀ l', ∀ f ∈ (v.files l').take
        (Function.update ptrs l (scanLevel userKey ((v.files l).drop (ptrs l)) (ptrs l)).1 l'),
        f ∈ (v.files l').take (ptrs l') ∨ f.largest.userKey < userKey := by
      intro l' f hf
      by_cases hl : l' = l
      · subst hl
        rw [Function.update_self, h1] at hf
        exact Or.inr (hpass f hf)
      · rw [Function.update_of_ne hl] at hf
        exact Or.inl hf
    rw [scanLevels]
    by_cases hb : (scanLevel userKey ((v.files l).drop (ptrs l)) (ptrs l)).2 = true
    · simp only [hb, if_true]
      refine ⟨⟨Bool.noConfusion, fun h => ?_⟩, hupd⟩
      obtain ⟨f, hf, hk⟩ := h3.mp hb
      rw [h l (by simp) f (List.mem_of_mem_drop hf)] at hk
      cases hk
    · simp only [hb, if_false, Bool.false_eq_true]
      obtain ⟨ih1, ih2⟩ := ih (fun l' hl' => hs l' (List.mem_cons_of_mem _ hl')) _
        (fun l' hl' f hf => (hupd l' f hf).elim
          (hp l' (List.mem_cons_of_mem _ hl') f) id)
      refine ⟨?_, fun l' f hf => (ih2 l' f hf).elim (hupd l' f) Or.inr⟩
      rw [ih1]
      constructor
      · intro hall l' hl' f hf
        rcases List.mem_cons.mp hl' with rfl | hl'
        · rw [Bool.eq_false_iff]
          intro hk
          rw [← List.take_append_drop (ptrs l') (v.files l')] at hf
          rcases List.mem_append.mp hf with hf | hf
          · exact absurd (hp l' (by simp) f hf) (not_lt_of_ge (FileMetaData.holds_iff.mp hk).2)
          · exact hb (h3.mpr ⟨f, hf, hk⟩)
        · exact hall l' hl' f hf
      · intro hall l' hl'
        exact hall l' (List.mem_cons_of_mem _ hl')

/-- **`IsBaseLevelForKey` answers `baseAt`** on the non-decreasing user keys of the
    loop. -/
theorem isBaseLevelForKey_answers {v : Version} {level : Nat}
    (hs : ∀ l, 0 < l → SortedLevel (v.files l)) :
    AnswersBase (isBaseLevelForKey v level) (fun _ => 0) (baseAt v level) (Passed v level) := by
  have hdeep : ∀ l ∈ deeperLevels level, SortedLevel (v.files l) := by
    intro l hl
    rw [deeperLevels, List.mem_range'_1] at hl
    exact hs l (by omega)
  have hmono : ∀ b k k', Passed v level b k → k ≤ k' → Passed v level b k' :=
    fun b k k' hr hk l hl f hf => lt_of_lt_of_le (hr l hl f hf) hk
  refine ⟨?_, ?_, ?_, hmono⟩
  · intro k l _ f hf
    rw [List.take_zero] at hf
    cases hf
  · intro b k hr
    rw [Bool.eq_iff_iff, baseAt, decide_eq_true_eq]
    exact (scanLevels_spec k hdeep b hr).1
  · intro b k k' hr hk l hl f hf
    rcases (scanLevels_spec k hdeep b hr).2 l f hf with hf | hlt
    · exact hmono b k k' hr hk l hl f hf
    · exact lt_of_lt_of_le hlt hk

/-- The answers to a sequence of calls of `IsBaseLevelForKey`, which hand the pointers
    on from one to the next. -/
def baseAnswers (v : Version) (level : Nat) : List Slice → (Nat → Nat) → List Bool
  | [], _ => []
  | k :: ks, ptrs =>
    (isBaseLevelForKey v level k ptrs).1
      :: baseAnswers v level ks (isBaseLevelForKey v level k ptrs).2

theorem baseAnswers_eq {v : Version} {level : Nat} (hs : ∀ l, 0 < l → SortedLevel (v.files l))
    (ks : List Slice) :
    ∀ ptrs, ks.Pairwise (· ≤ ·) → (∀ k ∈ ks, Passed v level ptrs k) →
      baseAnswers v level ks ptrs = ks.map (baseAt v level) := by
  have hb := @isBaseLevelForKey_answers v level hs
  induction ks with
  | nil => intro ptrs _ _; rfl
  | cons k ks ih =>
    intro ptrs hks hpassed
    obtain ⟨hle, hks⟩ := List.pairwise_cons.mp hks
    have hk := hpassed k (by simp)
    rw [baseAnswers, hb.answer ptrs k hk, List.map_cons]
    -- the pointers the call leaves are good for every later key
    rw [ih _ hks fun k' hk' => hb.next ptrs k k' hk (hle k' hk')]

/-- **The incremental base-level test is the full one**: whatever the sequence of
    non-decreasing user keys, each call answers whether no file below the output level
    has the key in its range. -/
theorem baseAnswers_full {v : Version} {level : Nat} (hs : ∀ l, 0 < l → SortedLevel (v.files l))
    {ks : List Slice} (hks : ks.Pairwise (· ≤ ·)) :
    baseAnswers v level ks (fun _ => 0) = ks.map fun k =>
      decide (∀ l < kNumLevels, level + 2 ≤ l → ∀ f ∈ v.files l,
        ¬ (f.smallest.userKey ≤ k ∧ k ≤ f.largest.userKey)) := by
  have hb := @isBaseLevelForKey_answers v level hs
  rw [baseAnswers_eq hs ks _ hks fun k _ => hb.init k]
  refine List.map_congr_left fun k _ => ?_
  rw [baseAt, decide_eq_decide]
  constructor
  · intro h l hl hlevel f hf hk
    have hmem : l ∈ deeperLevels level := by
      rw [deeperLevels, List.mem_range'_1]
      omega
    have hno := h l hmem f hf
    rw [FileMetaData.holds_iff.mpr hk] at hno
    cases hno
  · intro h l hmem f hf
    rw [deeperLevels, List.mem_range'_1] at hmem
    rw [Bool.eq_false_iff]
    intro hk
    exact h l (by omega) hmem.1 f hf (FileMetaData.holds_iff.mp hk)

/-- Two files of level 2 that share the user key `c`, and one of level 3. -/
def baseVersion : Version where
  files l :=
    if l = 2 then [⟨1, 10, ⟨[98], 9, .value⟩, ⟨[99], 9, .value⟩⟩,
      ⟨2, 10, ⟨[99], 8, .value⟩, ⟨[100], 9, .value⟩⟩]
    else if l = 3 then [⟨3, 10, ⟨[97], 1, .value⟩, ⟨[97], 1, .value⟩⟩]
    else []

theorem baseAnswers_full_baseVersion :
    baseAnswers baseVersion 0 [[97], [98], [99], [99], [101]] (fun _ => 0)
      = [false, false, false, false, true] := by
  have hs : ∀ l, 0 < l → SortedLevel (baseVersion.files l) := by
    intro l _
    rw [baseVersion]
    dsimp only
    split_ifs
    · exact ⟨by decide, by decide⟩
    · exact ⟨by decide, by decide⟩
    · exact ⟨nofun, List.Pairwise.nil⟩
  rw [baseAnswers_full hs (by decide)]
  decide

end LdbWork
