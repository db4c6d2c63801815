import Mathlib.Data.List.Induction
import LevelDB.BlockLayout
import LevelDB.TableBuilder

/-! # What a table file looks like

    The entries of the calls of `Add` are cut into groups, one for each data block.
    The file is made of the data blocks, the block of range deletions, the filter
    block, the metaindex, the index and the footer, one after the other, and that is
    what `TableBuilder` writes. -/

namespace LdbTableLayout

open LdbFormat LdbComparator LdbEnv LdbBlock LdbFilterBlock LdbTableFormat LdbTableBuilder

/-! ## The layout -/

/-- The calls of `Add` whose entries go into data blocks. -/
def points (calls : List (Slice × Slice)) : List (Slice × Slice) :=
  calls.filter fun e => !isRangeDeletionKey e.1

/-- The calls of `Add` whose entries go into the block of range deletions. -/
def rangeDels (calls : List (Slice × Slice)) : List (Slice × Slice) :=
  calls.filter fun e => isRangeDeletionKey e.1

section Layout

variable (o : TableOptions)

/-- The builder of a block with the given entries. -/
def blockOf (es : List (Slice × Slice)) : BlockBuilder :=
  BlockBuilder.new.addAll o.blockRestartInterval es

/-- The groups of entries that become data blocks, when `open_` is the group under
    construction. -/
def groups : List (Slice × Slice) → List (Slice × Slice) → List (List (Slice × Slice))
  | open_, [] => if open_ = [] then [] else [open_]
  | open_, e :: es =>
    if o.blockSize ≤ (blockOf o (open_ ++ [e])).currentSizeEstimate then
      (open_ ++ [e]) :: groups [] es
    else groups (open_ ++ [e]) es

/-- A block with the given contents as it stands in the file. -/
def storedBlock (raw : Slice) : Slice :=
  rawBlock (storedForm o.codecs o.compression raw).1 (storedForm o.codecs o.compression raw).2

/-- The handle of a block with the given contents. -/
def handleOf (offset : Nat) (raw : Slice) : BlockHandle :=
  ⟨offset, (storedForm o.codecs o.compression raw).1.length⟩

/-- The data blocks, one after the other. -/
def dataBytes (gs : List (List (Slice × Slice))) : Slice :=
  gs.flatMap fun g => storedBlock o (blockOf o g).finish

/-- The first key of a group. -/
def firstKey (g : List (Slice × Slice)) : Option Slice := g.head?.map (·.1)

/-- The last key of a group. -/
def lastKeyOf (g : List (Slice × Slice)) : Slice := (g.getLast?.map (·.1)).getD []

/-- The key of a block in the index: it separates the block from the next key, if
    there is one. -/
def indexKey (g : List (Slice × Slice)) : Option Slice → Slice
  | some next => o.comparator.findShortestSeparator (lastKeyOf g) next
  | none => o.comparator.findShortSuccessor (lastKeyOf g)

/-- The first key of some groups, or `next` if there are none. -/
def keyAfter (gs : List (List (Slice × Slice))) (next : Option Slice) : Option Slice :=
  match gs with
  | [] => next
  | g :: _ => firstKey g

/-- The entries of the index for some groups that start at `offset`; `next` is the
    first key behind them. -/
def indexEntries (next : Option Slice) :
    Nat → List (List (Slice × Slice)) → List (Slice × Slice)
  | _, [] => []
  | offset, g :: gs =>
    (indexKey o g (keyAfter gs next), (handleOf o offset (blockOf o g).finish).encode)
      :: indexEntries next (offset + (storedBlock o (blockOf o g).finish).length) gs

variable (calls : List (Slice × Slice))

/-- The data blocks of the table. -/
def tableGroups : List (List (Slice × Slice)) := groups o [] (points calls)

/-- The part of the file with the range deletions; there is none without them. -/
def rangeDelBytes : Slice :=
  if rangeDels calls = [] then [] else storedBlock o (blockOf o (rangeDels calls)).finish

/-- The contents of the filter block, if there is a policy. -/
def filterContents : Option (FilterPolicy × Slice) :=
  o.filterPolicy.map fun policy =>
    (policy, ((((TableBuilder.new ⟨[], []⟩).addAll o calls).flush o).filterBlock.finish policy))

/-- The part of the file with the filter block. -/
def filterBytes : Slice :=
  match filterContents o calls with
  | none => []
  | some (_, contents) => rawBlock contents .noCompression

/-- The offset of the range deletions. -/
def rangeDelOffset : Nat := (dataBytes o (tableGroups o calls)).length

/-- The offset of the filter block. -/
def filterOffset : Nat := rangeDelOffset o calls + (rangeDelBytes o calls).length

/-- The offset of the metaindex. -/
def metaindexOffset : Nat := filterOffset o calls + (filterBytes o calls).length

/-- The entries of the metaindex. -/
def tableMetaEntries : List (Slice × Slice) :=
  TableBuilder.metaEntries
    ((filterContents o calls).map fun f => (f.1, ⟨filterOffset o calls, f.2.length⟩))
    (if rangeDels calls = [] then none
     else some (handleOf o (rangeDelOffset o calls) (blockOf o (rangeDels calls)).finish))

/-- The contents of the metaindex. -/
def metaindexContents : Slice := (blockOf o (tableMetaEntries o calls)).finish

/-- The offset of the index. -/
def indexOffset : Nat :=
  metaindexOffset o calls + (storedBlock o (metaindexContents o calls)).length

/-- The contents of the index. -/
def indexContents : Slice :=
  (BlockBuilder.new.addAll 1 (indexEntries o none 0 (tableGroups o calls))).finish

/-- The footer. -/
def tableFooter : Footer :=
  ⟨handleOf o (metaindexOffset o calls) (metaindexContents o calls),
   handleOf o (indexOffset o calls) (indexContents o calls)⟩

/-- **The file.** -/
def tableBytes : Slice :=
  dataBytes o (tableGroups o calls) ++ rangeDelBytes o calls ++ filterBytes o calls
    ++ storedBlock o (metaindexContents o calls) ++ storedBlock o (indexContents o calls)
    ++ (tableFooter o calls).encode

/-- **The sizes of the table can be represented**: offsets in a block are 32-bit
    numbers, and those in the file 64-bit numbers. -/
structure Fits : Prop where
  data : ∀ g ∈ tableGroups o calls, (blockOf o g).finish.length < 2 ^ 32
  rangeDel : (blockOf o (rangeDels calls)).finish.length < 2 ^ 32
  metaindex : (metaindexContents o calls).length < 2 ^ 32
  index : (indexContents o calls).length < 2 ^ 32
  file : (tableBytes o calls).length < 2 ^ 64

end Layout

/-! ## Small facts about the layout -/

section Facts

variable (o : TableOptions)

theorem points_snoc (calls : List (Slice × Slice)) (e : Slice × Slice) :
    points (calls ++ [e]) = points calls ++ if isRangeDeletionKey e.1 = true then [] else [e] := by
  rw [points, List.filter_append, List.filter_singleton, ← points]
  cases isRangeDeletionKey e.1 <;> rfl

theorem rangeDels_snoc (calls : List (Slice × Slice)) (e : Slice × Slice) :
    rangeDels (calls ++ [e])
      = rangeDels calls ++ if isRangeDeletionKey e.1 = true then [e] else [] := by
  rw [rangeDels, List.filter_append, List.filter_singleton, ← rangeDels]
  cases isRangeDeletionKey e.1 <;> rfl

theorem addAll_snoc (interval : Nat) (b : BlockBuilder) (es : List (Slice × Slice))
    (e : Slice × Slice) :
    b.addAll interval (es ++ [e]) = (b.addAll interval es).add interval e.1 e.2 := by
  rw [BlockBuilder.addAll, List.foldl_append]
  rfl

theorem blockOf_snoc (es : List (Slice × Slice)) (e : Slice × Slice) :
    blockOf o (es ++ [e]) = (blockOf o es).add o.blockRestartInterval e.1 e.2 :=
  addAll_snoc _ _ _ _

theorem add_buffer (interval : Nat) (b : BlockBuilder) (key value : Slice) :
    (b.add interval key value).buffer ≠ [] := by
  have hne : ∀ shared, b.buffer ++ encodeEntry shared key value ≠ [] := by
    intro shared hnil
    have hlen := encodeEntry_length shared key value
    rw [(List.append_eq_nil_iff.mp hnil).2, List.length_nil] at hlen
    omega
  rw [BlockBuilder.add]
  split_ifs
  · exact hne _
  · exact hne 0

theorem blockOf_empty_iff (es : List (Slice × Slice)) :
    (blockOf o es).empty = true ↔ es = [] := by
  rw [BlockBuilder.empty, List.isEmpty_iff]
  rcases List.eq_nil_or_concat es with rfl | ⟨init, e, rfl⟩
  · exact ⟨fun _ => rfl, fun _ => rfl⟩
  · rw [List.concat_eq_append, blockOf_snoc]
    exact ⟨fun h => absurd h (add_buffer _ _ _ _), fun h => absurd h (by simp)⟩

theorem dataBytes_cons (g : List (Slice × Slice)) (gs : List (List (Slice × Slice))) :
    dataBytes o (g :: gs) = storedBlock o (blockOf o g).finish ++ dataBytes o gs :=
  List.flatMap_cons

theorem dataBytes_snoc (gs : List (List (Slice × Slice))) (g : List (Slice × Slice)) :
    dataBytes o (gs ++ [g]) = dataBytes o gs ++ storedBlock o (blockOf o g).finish := by
  rw [dataBytes, List.flatMap_append, List.flatMap_singleton]
  rfl

theorem storedBlock_length (raw : Slice) :
    (storedBlock o raw).length
      = (storedForm o.codecs o.compression raw).1.length + kBlockTrailerSize :=
  rawBlock_length _ _

theorem keyAfter_snoc (gs : List (List (Slice × Slice))) (g : List (Slice × Slice))
    (next : Option Slice) : keyAfter (gs ++ [g]) next = keyAfter gs (firstKey g) := by
  cases gs <;> rfl

/-- The last entry of the index is the only one that depends on the next key. -/
theorem indexEntries_snoc (next : Option Slice) (g : List (Slice × Slice))
    (gs : List (List (Slice × Slice))) :
    ∀ offset, indexEntries o next offset (gs ++ [g])
      = indexEntries o (firstKey g) offset gs
        ++ [(indexKey o g next,
             (handleOf o (offset + (dataBytes o gs).length) (blockOf o g).finish).encode)] := by
  induction gs with
  | nil => intro offset; rfl
  | cons g' gs ih =>
    intro offset
    rw [List.cons_append, indexEntries, ih, indexEntries, keyAfter_snoc, dataBytes_cons,
      List.length_append, Nat.add_assoc]
    rfl

theorem lastKeyOf_snoc (es : List (Slice × Slice)) (e : Slice × Slice) :
    lastKeyOf (es ++ [e]) = e.1 := by
  rw [lastKeyOf, List.getLast?_concat]
  rfl

end Facts

/-! ## The builder between two calls -/

section Builder

variable {o : TableOptions} {dels : List (Slice × Slice)} {r : TableBuilder}
variable {gs : List (List (Slice × Slice))} {cur : List (Slice × Slice)}

/-- What the builder knows of the index: either the last block waits for the next
    key, or the keys of all blocks are there and the next block has begun. -/
def IndexOK (o : TableOptions) (r : TableBuilder) (gs : List (List (Slice × Slice)))
    (cur : List (Slice × Slice)) : Prop :=
  (r.pendingIndexEntry = true ∧ cur = [] ∧ ∃ before g, gs = before ++ [g]
      ∧ r.indexBlock = BlockBuilder.new.addAll 1 (indexEntries o (firstKey g) 0 before)
      ∧ r.pendingHandle = handleOf o (dataBytes o before).length (blockOf o g).finish
      ∧ r.lastKey = lastKeyOf g)
    ∨ (r.pendingIndexEntry = false ∧ (cur = [] → gs = [])
      ∧ r.indexBlock = BlockBuilder.new.addAll 1 (indexEntries o (firstKey cur) 0 gs)
      ∧ (cur ≠ [] → r.lastKey = lastKeyOf cur))

/-- **The builder has written the groups `gs`** and has `cur` in its data block. -/
structure Written (o : TableOptions) (dels : List (Slice × Slice)) (r : TableBuilder)
    (gs : List (List (Slice × Slice))) (cur : List (Slice × Slice)) : Prop where
  file : r.file = ⟨dataBytes o gs, []⟩
  offset : r.offset = (dataBytes o gs).length
  status : r.status = .ok
  data : r.dataBlock = blockOf o cur
  rangeDel : r.rangeDelBlock = blockOf o dels
  index : IndexOK o r gs cur

theorem written_new : Written o [] (TableBuilder.new ⟨[], []⟩) [] [] where
  file := rfl
  offset := rfl
  status := rfl
  data := rfl
  rangeDel := rfl
  index := Or.inr ⟨rfl, fun _ => rfl, rfl, absurd rfl⟩

theorem withFilter_eq (o : TableOptions) (r : TableBuilder)
    (f : FilterPolicy → FilterBlockBuilder → FilterBlockBuilder) :
    ∃ b, r.withFilter o f = { r with filterBlock := b } := by
  rw [TableBuilder.withFilter]
  cases o.filterPolicy with
  | none => exact ⟨r.filterBlock, rfl⟩
  | some policy => exact ⟨f policy r.filterBlock, rfl⟩

/-- The filter builder is no part of this. -/
theorem Written.withFilter (h : Written o dels r gs cur)
    (f : FilterPolicy → FilterBlockBuilder → FilterBlockBuilder) :
    Written o dels (r.withFilter o f) gs cur := by
  obtain ⟨b, hb⟩ := withFilter_eq o r f
  rw [hb]
  exact { h with }

theorem writeRawBlock_eq {c : Slice} (hfile : r.file = ⟨c, []⟩) (contents : Slice)
    (type : CompressionType) :
    r.writeRawBlock contents type
      = ({ r with
            file := ⟨c ++ rawBlock contents type, []⟩
            status := .ok
            offset := r.offset + (rawBlock contents type).length },
         ⟨r.offset, contents.length⟩) := by
  rw [TableBuilder.writeRawBlock, hfile]
  simp only [WritableFile.append_nil, ifOk, if_pos, rawBlock, List.append_assoc,
    List.length_append, trailer_length, Nat.add_assoc]

theorem writeBlock_eq {c : Slice} (hfile : r.file = ⟨c, []⟩) (block : BlockBuilder) :
    r.writeBlock o block
      = ({ r with
            file := ⟨c ++ storedBlock o block.finish, []⟩
            status := .ok
            offset := r.offset + (storedBlock o block.finish).length },
         handleOf o r.offset block.finish) :=
  writeRawBlock_eq hfile _ _

/-- **`Flush` closes the group.** -/
theorem written_flush (h : Written o dels r gs cur) (hcur : cur ≠ [])
    (hpending : r.pendingIndexEntry = false) :
    Written o dels (r.flush o) (gs ++ [cur]) [] := by
  have hdata : ¬(r.dataBlock.empty = true) := by
    rw [h.data, blockOf_empty_iff]
    exact hcur
  obtain ⟨-, -, hindex, hlast⟩ : r.pendingIndexEntry = false ∧ _ :=
    h.index.resolve_left fun hc => by
      rw [hpending] at hc
      exact absurd hc.1 Bool.false_ne_true
  rw [TableBuilder.flush, if_neg (fun hne => hne h.status), if_neg hdata,
    writeBlock_eq h.file]
  simp only [if_pos, WritableFile.flush_nil]
  refine Written.withFilter ?_ _
  refine ⟨?_, ?_, rfl, rfl, h.rangeDel,
    Or.inl ⟨rfl, rfl, gs, cur, rfl, hindex, ?_, hlast hcur⟩⟩
  · rw [dataBytes_snoc, h.data]
  · rw [dataBytes_snoc, List.length_append, h.offset, h.data]
  · rw [h.offset, h.data]

/-- The entry that waits goes into the index when the next key is known. -/
theorem IndexOK.settle (h : IndexOK o r gs cur) (key : Slice) :
    let r' := if r.pendingIndexEntry = true then
        r.addIndexEntry (o.comparator.findShortestSeparator r.lastKey key) else r
    r'.pendingIndexEntry = false
      ∧ r'.indexBlock
        = BlockBuilder.new.addAll 1 (indexEntries o (some ((firstKey cur).getD key)) 0 gs) := by
  rcases h with ⟨hp, rfl, before, g, rfl, hindex, hhandle, hlast⟩ | ⟨hp, hnil, hindex, -⟩
  · intro r'
    have hr : r' = r.addIndexEntry (o.comparator.findShortestSeparator r.lastKey key) := if_pos hp
    rw [hr]
    refine ⟨rfl, ?_⟩
    show r.indexBlock.add 1 _ _ = _
    rw [hindex, hhandle, hlast, indexEntries_snoc, addAll_snoc, Nat.zero_add]
    rfl
  · intro r'
    have hr : r' = r := if_neg (by rw [hp]; exact Bool.false_ne_true)
    rw [hr]
    refine ⟨hp, ?_⟩
    rw [hindex]
    cases cur with
    | nil => rw [hnil rfl]; rfl
    | cons e cur => rfl

/-- The builder once an entry is in the data block, before its size is looked at. -/
def joined (o : TableOptions) (r : TableBuilder) (e : Slice × Slice) : TableBuilder :=
  let r :=
    if r.pendingIndexEntry = true then
      r.addIndexEntry (o.comparator.findShortestSeparator r.lastKey e.1)
    else r
  let r := r.withFilter o fun _ b => b.addKey e.1
  { r with
    lastKey := e.1
    numEntries := r.numEntries + 1
    dataBlock := r.dataBlock.add o.blockRestartInterval e.1 e.2 }

variable {e : Slice × Slice}

/-- `Add` of an entry for a data block. -/
theorem add_point_eq (hstatus : r.status = .ok) (he : isRangeDeletionKey e.1 = false) :
    r.add o e.1 e.2 =
      if o.blockSize ≤ (joined o r e).dataBlock.currentSizeEstimate then (joined o r e).flush o
      else joined o r e := by
  rw [TableBuilder.add, if_neg (fun hne => hne hstatus),
    if_neg (by rw [he]; exact Bool.false_ne_true)]
  rfl

/-- An entry for a data block joins the group. -/
theorem written_joined (h : Written o dels r gs cur) (e : Slice × Slice) :
    Written o dels (joined o r e) gs (cur ++ [e])
      ∧ (joined o r e).pendingIndexEntry = false := by
  obtain ⟨hpending, hindex⟩ := h.index.settle e.1
  rw [joined]
  generalize hr' : (if r.pendingIndexEntry = true then
      r.addIndexEntry (o.comparator.findShortestSeparator r.lastKey e.1) else r) = r'
    at hpending hindex
  have hsame : r'.file = r.file ∧ r'.offset = r.offset ∧ r'.status = r.status
      ∧ r'.dataBlock = r.dataBlock ∧ r'.rangeDelBlock = r.rangeDelBlock := by
    rw [← hr']
    split_ifs
    · exact ⟨rfl, rfl, rfl, rfl, rfl⟩
    · exact ⟨rfl, rfl, rfl, rfl, rfl⟩
  obtain ⟨hfile, hoffset, hstatus, hdata, hdel⟩ := hsame
  have hfirst : some ((firstKey cur).getD e.1) = firstKey (cur ++ [e]) := by
    cases cur <;> rfl
  obtain ⟨b, hb⟩ := withFilter_eq o r' fun _ b => b.addKey e.1
  simp only [hb]
  refine ⟨⟨hfile.trans h.file, hoffset.trans h.offset, hstatus.trans h.status, ?_,
    hdel.trans h.rangeDel, Or.inr ⟨hpending, fun hnil => absurd hnil (by simp), ?_, fun _ => ?_⟩⟩,
    hpending⟩
  · rw [blockOf_snoc, ← h.data, ← hdata]
  · rw [← hfirst, ← hindex]
  · rw [lastKeyOf_snoc]

/-- A range deletion goes into its own block. -/
theorem written_add_rangeDel (h : Written o dels r gs cur) (he : isRangeDeletionKey e.1 = true) :
    Written o (dels ++ [e]) (r.add o e.1 e.2) gs cur := by
  rw [TableBuilder.add, if_neg (fun hne => hne h.status), if_pos he]
  refine { h with rangeDel := ?_ }
  rw [blockOf_snoc, ← h.rangeDel]

/-- **A property of the builder that its steps keep**; it may speak of the groups that
    are written and of the group in the data block. -/
structure Kept (o : TableOptions)
    (Q : TableBuilder → List (List (Slice × Slice)) → List (Slice × Slice) → Prop) : Prop where
  new : Q (TableBuilder.new ⟨[], []⟩) [] []
  rangeDel : ∀ {dels r gs cur} {e : Slice × Slice}, Written o dels r gs cur →
    isRangeDeletionKey e.1 = true → Q r gs cur → Q (r.add o e.1 e.2) gs cur
  join : ∀ {dels r gs cur} {e : Slice × Slice}, Written o dels r gs cur → Q r gs cur →
    Q (joined o r e) gs (cur ++ [e])
  flush : ∀ {dels r gs cur}, Written o dels r gs cur → cur ≠ [] →
    r.pendingIndexEntry = false → Q r gs cur → Q (r.flush o) (gs ++ [cur]) []

variable {Q : TableBuilder → List (List (Slice × Slice)) → List (Slice × Slice) → Prop}

/-- An entry for a data block joins the group; the group is closed if it is large
    enough. -/
theorem Kept.add_point (hQ : Kept o Q) (h : Written o dels r gs cur) (hr : Q r gs cur)
    (he : isRangeDeletionKey e.1 = false) :
    if o.blockSize ≤ (blockOf o (cur ++ [e])).currentSizeEstimate then
      Written o dels (r.add o e.1 e.2) (gs ++ [cur ++ [e]]) []
        ∧ Q (r.add o e.1 e.2) (gs ++ [cur ++ [e]]) []
    else Written o dels (r.add o e.1 e.2) gs (cur ++ [e])
      ∧ Q (r.add o e.1 e.2) gs (cur ++ [e]) := by
  obtain ⟨hw, hpending⟩ := written_joined h e
  have hjoin := hQ.join (e := e) h hr
  rw [add_point_eq h.status he, hw.data]
  by_cases hsize : o.blockSize ≤ (blockOf o (cur ++ [e])).currentSizeEstimate
  · rw [if_pos hsize, if_pos hsize]
    exact ⟨written_flush hw (by simp) hpending, hQ.flush hw (by simp) hpending hjoin⟩
  · rw [if_neg hsize, if_neg hsize]
    exact ⟨hw, hjoin⟩

/-- **After any calls of `Add`** the groups that are closed have been written. -/
theorem Kept.addAll (hQ : Kept o Q) (calls : List (Slice × Slice)) :
    ∃ gs cur, Written o (rangeDels calls) ((TableBuilder.new ⟨[], []⟩).addAll o calls) gs cur
      ∧ (∀ more, groups o [] (points calls ++ more) = gs ++ groups o cur more)
      ∧ Q ((TableBuilder.new ⟨[], []⟩).addAll o calls) gs cur := by
  induction calls using List.reverseRecOn with
  | nil => exact ⟨[], [], written_new, fun more => rfl, hQ.new⟩
  | append_singleton calls e ih =>
    obtain ⟨gs, cur, h, hgroups, hr⟩ := ih
    have hadd : (TableBuilder.new ⟨[], []⟩).addAll o (calls ++ [e])
        = ((TableBuilder.new ⟨[], []⟩).addAll o calls).add o e.1 e.2 := by
      rw [TableBuilder.addAll, List.foldl_append]
      rfl
    rw [hadd, rangeDels_snoc, points_snoc]
    cases he : isRangeDeletionKey e.1 with
    | true =>
      refine ⟨gs, cur, written_add_rangeDel h he, fun more => ?_, hQ.rangeDel h he hr⟩
      rw [if_pos rfl, List.append_nil]
      exact hgroups more
    | false =>
      have hpoint := hQ.add_point h hr he
      have hstep : ∀ more, groups o [] ((points calls ++ [e]) ++ more)
          = gs ++ groups o cur (e :: more) := fun more => by
        rw [List.append_assoc]
        exact hgroups (e :: more)
      rw [if_neg Bool.false_ne_true, if_neg Bool.false_ne_true, List.append_nil]
      by_cases hsize : o.blockSize ≤ (blockOf o (cur ++ [e])).currentSizeEstimate
      · rw [if_pos hsize] at hpoint
        refine ⟨_, _, hpoint.1, fun more => ?_, hpoint.2⟩
        rw [hstep, groups, if_pos hsize, List.append_assoc]
        rfl
      · rw [if_neg hsize] at hpoint
        refine ⟨_, _, hpoint.1, fun more => ?_, hpoint.2⟩
        rw [hstep, groups, if_neg hsize]

/-- The first step of `Finish` closes the last group. -/
theorem Kept.finish (hQ : Kept o Q) (calls : List (Slice × Slice)) :
    Written o (rangeDels calls) (((TableBuilder.new ⟨[], []⟩).addAll o calls).flush o)
        (tableGroups o calls) []
      ∧ Q (((TableBuilder.new ⟨[], []⟩).addAll o calls).flush o) (tableGroups o calls) [] := by
  obtain ⟨gs, cur, h, hgroups, hr⟩ := hQ.addAll calls
  have hall : tableGroups o calls = gs ++ groups o cur [] := by
    rw [← hgroups, List.append_nil]
    rfl
  rw [hall, groups]
  by_cases hcur : cur = []
  · have hempty : ((TableBuilder.new ⟨[], []⟩).addAll o calls).dataBlock.empty = true := by
      rw [h.data, blockOf_empty_iff]
      exact hcur
    rw [if_pos hcur, List.append_nil, TableBuilder.flush, if_neg (fun hne => hne h.status),
      if_pos hempty]
    rw [hcur] at h hr
    exact ⟨h, hr⟩
  · have hpending : ((TableBuilder.new ⟨[], []⟩).addAll o calls).pendingIndexEntry = false := by
      rcases h.index with ⟨-, hnil, -⟩ | ⟨hp, -⟩
      · exact absurd hnil hcur
      · exact hp
    rw [if_neg hcur]
    exact ⟨written_flush h hcur hpending, hQ.flush h hcur hpending hr⟩

end Builder

/-! ## The finished file -/

section Finish

variable {o : TableOptions} {calls : List (Slice × Slice)} {r : TableBuilder}

/-- The builder when the data blocks are written. -/
theorem written_finish (o : TableOptions) (calls : List (Slice × Slice)) :
    Written o (rangeDels calls) (((TableBuilder.new ⟨[], []⟩).addAll o calls).flush o)
      (tableGroups o calls) [] :=
  (Kept.finish (Q := fun _ _ _ => True) ⟨trivial, fun _ _ _ => trivial, fun _ _ => trivial,
    fun _ _ _ _ => trivial⟩ calls).1

theorem whenOk_eq (h : r.status = .ok) (f : TableBuilder → TableBuilder × BlockHandle) :
    r.whenOk f = f r := if_pos h

theorem finishRangeDels_eq (h : Written o (rangeDels calls) r (tableGroups o calls) []) :
    r.finishRangeDels o
      = ({ r with
            file := ⟨dataBytes o (tableGroups o calls) ++ rangeDelBytes o calls, []⟩
            status := .ok
            offset := filterOffset o calls },
         if rangeDels calls = [] then none
         else some (handleOf o (rangeDelOffset o calls) (blockOf o (rangeDels calls)).finish)) := by
  rw [TableBuilder.finishRangeDels]
  by_cases hnil : rangeDels calls = []
  · have hempty : r.rangeDelBlock.empty = true := by
      rw [h.rangeDel, blockOf_empty_iff]
      exact hnil
    rw [if_pos hempty, if_pos hnil, rangeDelBytes, if_pos hnil, filterOffset, rangeDelBytes,
      if_pos hnil, List.append_nil, ← h.file, ← h.status, rangeDelOffset, ← h.offset]
    rfl
  · have hempty : ¬(r.rangeDelBlock.empty = true) := by
      rw [h.rangeDel, blockOf_empty_iff]
      exact hnil
    rw [if_neg hempty, if_neg hnil, whenOk_eq h.status, writeBlock_eq h.file, h.rangeDel,
      h.offset, rangeDelBytes, if_neg hnil, filterOffset, rangeDelBytes, if_neg hnil]
    rfl

variable {c : Slice}

section

variable (hfile : r.file = ⟨c, []⟩) (hstatus : r.status = .ok)
include hfile hstatus

theorem finishFilter_eq (hoffset : r.offset = filterOffset o calls) (hfilter : r.filterBlock
      = (((TableBuilder.new ⟨[], []⟩).addAll o calls).flush o).filterBlock) :
    r.finishFilter o
      = ({ r with
            file := ⟨c ++ filterBytes o calls, []⟩
            status := .ok
            offset := metaindexOffset o calls },
         (filterContents o calls).map fun f => (f.1, ⟨filterOffset o calls, f.2.length⟩)) := by
  rw [TableBuilder.finishFilter, metaindexOffset, filterBytes, filterContents]
  cases o.filterPolicy with
  | none =>
    simp only [Option.map_none, List.append_nil, List.length_nil, Nat.add_zero]
    rw [← hfile, ← hstatus, ← hoffset]
  | some policy =>
    simp only [Option.map_some]
    rw [whenOk_eq hstatus, writeRawBlock_eq hfile, hfilter, hoffset]

theorem finishMetaindex_eq (filter : Option (FilterPolicy × BlockHandle))
    (rangeDel : Option BlockHandle) :
    r.finishMetaindex o filter rangeDel
      = let raw := (blockOf o (TableBuilder.metaEntries filter rangeDel)).finish
        ({ r with
            file := ⟨c ++ storedBlock o raw, []⟩
            status := .ok
            offset := r.offset + (storedBlock o raw).length },
         handleOf o r.offset raw) := by
  rw [TableBuilder.finishMetaindex, whenOk_eq hstatus, writeBlock_eq hfile]
  rfl

/-- The index when the table is finished. -/
theorem finishIndex_eq (hindex : IndexOK o r (tableGroups o calls) []) :
    (r.finishIndex o).1.file = ⟨c ++ storedBlock o (indexContents o calls), []⟩
      ∧ (r.finishIndex o).1.status = .ok
      ∧ (r.finishIndex o).2 = handleOf o r.offset (indexContents o calls) := by
  rw [TableBuilder.finishIndex, whenOk_eq hstatus, indexContents]
  rcases hindex with ⟨hp, -, before, g, hgs, hblock, hhandle, hlast⟩ | ⟨hp, hnil, hblock, -⟩
  · have hadd : (r.addIndexEntry (o.comparator.findShortSuccessor r.lastKey)).indexBlock
        = BlockBuilder.new.addAll 1 (indexEntries o none 0 (tableGroups o calls)) := by
      show r.indexBlock.add 1 _ _ = _
      rw [hgs, indexEntries_snoc, addAll_snoc, Nat.zero_add, hblock, hhandle, hlast]
      rfl
    simp only [if_pos hp, hadd]
    rw [writeBlock_eq (r := r.addIndexEntry _) hfile]
    exact ⟨rfl, rfl, rfl⟩
  · have hall : r.indexBlock
        = BlockBuilder.new.addAll 1 (indexEntries o none 0 (tableGroups o calls)) := by
      rw [hblock, hnil rfl]
      rfl
    simp only [hp, Bool.false_eq_true, if_false, hall]
    rw [writeBlock_eq hfile]
    exact ⟨rfl, rfl, rfl⟩

theorem finishFooter_eq (footer : Footer) :
    (r.finishFooter footer).status = .ok
      ∧ (r.finishFooter footer).file = ⟨c ++ footer.encode, []⟩ := by
  rw [TableBuilder.finishFooter, if_pos hstatus, hfile]
  exact ⟨rfl, rfl⟩

end

/-- **`TableBuilder` writes this file.** -/
theorem build_file (o : TableOptions) (calls : List (Slice × Slice)) :
    (build o calls).status = .ok ∧ (build o calls).file = ⟨tableBytes o calls, []⟩ := by
  have h := written_finish o calls
  rw [build, TableBuilder.finish]
  generalize hr : ((TableBuilder.new ⟨[], []⟩).addAll o calls).flush o = r at h
  simp only [finishRangeDels_eq h]
  rw [finishFilter_eq rfl rfl rfl (by rw [hr])]
  simp only
  rw [finishMetaindex_eq rfl rfl]
  simp only
  -- the builder once the metaindex is written
  generalize hlast : ({ r with
      file := ⟨dataBytes o (tableGroups o calls) ++ rangeDelBytes o calls ++ filterBytes o calls
        ++ storedBlock o (metaindexContents o calls), []⟩
      status := .ok
      offset := indexOffset o calls } : TableBuilder) = last
  obtain ⟨hfile, hstatus, hhandle⟩ := finishIndex_eq
    (show last.file = _ by rw [← hlast]) (by rw [← hlast])
    (show IndexOK o last (tableGroups o calls) [] by rw [← hlast]; exact h.index)
  have hoffset : last.offset = indexOffset o calls := by rw [← hlast]
  suffices hend : ((last.finishIndex o).1.finishFooter
        ⟨(tableFooter o calls).metaindexHandle, (last.finishIndex o).2⟩).status = .ok
      ∧ ((last.finishIndex o).1.finishFooter
        ⟨(tableFooter o calls).metaindexHandle, (last.finishIndex o).2⟩).file
        = ⟨tableBytes o calls, []⟩ by
    rw [← hlast] at hend
    exact hend
  rw [hhandle, hoffset]
  exact finishFooter_eq hfile hstatus (tableFooter o calls)

end Finish

end LdbTableLayout
