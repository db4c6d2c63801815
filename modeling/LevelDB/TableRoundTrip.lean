import LevelDB.BlockCursor
import LevelDB.TableLayout
import LevelDB.TableReader

/-! # A table is read back

    A table that is built, finished and opened shows the entries of its data blocks
    in the order of the calls of `Add`, and has the range deletions it was given, as
    long as its sizes can be represented. -/

namespace LdbTableRoundTrip

open LdbFormat LdbComparator LdbBlock LdbFilterBlock LdbTableFormat LdbTableBuilder LdbTableReader
open LdbTableLayout LdbTwoLevel Cursors

/-! ## Parts of the file -/

theorem fileOf_middle (before middle after : Slice) :
    fileOf (before ++ middle ++ after) before.length middle.length = .ok middle := by
  rw [fileOf, List.append_assoc, List.drop_left, List.take_left]

variable {after before file raw : Slice}

/-- **A block in the file is read back.** -/
theorem readBlock_storedBlock {o : TableOptions} (hs : o.codecs.Sound o.compression)
    (hfile : file = before ++ storedBlock o raw ++ after) (hlen : file.length < 2 ^ 64)
    (verify : Bool) :
    readBlock o.codecs (fileOf file) verify (handleOf o before.length raw) = .ok raw := by
  have hblock := storedBlock_length o raw
  have hle : (storedBlock o raw).length ≤ file.length := by
    rw [hfile, List.length_append, List.length_append]
    omega
  refine readBlock_storedForm hs verify (by omega) ?_
  rw [hfile, ← hblock]
  exact fileOf_middle _ _ _

/-- A block in the file has a handle that can be encoded. -/
theorem handleOf_fits {o : TableOptions} (hfile : file = before ++ storedBlock o raw ++ after)
    (hlen : file.length < 2 ^ 64) :
    (handleOf o before.length raw).offset < 2 ^ 64
      ∧ (handleOf o before.length raw).size < 2 ^ 64 := by
  have hblock := storedBlock_length o raw
  rw [hfile, List.length_append, List.length_append] at hlen
  rw [handleOf]
  constructor
  · show before.length < 2 ^ 64
    omega
  · show (storedForm o.codecs o.compression raw).1.length < 2 ^ 64
    omega

/-- The block a handle in another block leads to. -/
theorem readMetaBlock_storedBlock {o : TableOptions} (hs : o.codecs.Sound o.compression)
    (hfile : file = before ++ storedBlock o raw ++ after) (hlen : file.length < 2 ^ 64) :
    Table.readMetaBlock o (fileOf file) (handleOf o before.length raw).encode = .ok raw := by
  obtain ⟨ho, hsz⟩ := handleOf_fits hfile hlen
  rw [Table.readMetaBlock, ← List.append_nil (BlockHandle.encode _),
    BlockHandle.decodeFrom_encode ho hsz]
  exact readBlock_storedBlock hs hfile hlen _

theorem blockReader_storedBlock {t : Table} (hs : t.options.codecs.Sound t.options.compression)
    (ht : t.file = fileOf file) (hfile : file = before ++ storedBlock t.options raw ++ after)
    (hlen : file.length < 2 ^ 64) (verify : Bool) :
    t.blockReader verify (handleOf t.options before.length raw).encode
      = (Block.new raw).newIterator := by
  obtain ⟨ho, hsz⟩ := handleOf_fits hfile hlen
  rw [Table.blockReader, ← List.append_nil (BlockHandle.encode _),
    BlockHandle.decodeFrom_encode ho hsz]
  simp only
  rw [ht, readBlock_storedBlock hs hfile hlen]

section Parts

variable (o : TableOptions) (calls : List (Slice × Slice))

/-- What stands before the metaindex. -/
def tableFront : Slice :=
  dataBytes o (tableGroups o calls) ++ rangeDelBytes o calls ++ filterBytes o calls

theorem metaindexOffset_eq : metaindexOffset o calls = (tableFront o calls).length := by
  rw [metaindexOffset, filterOffset, rangeDelOffset, tableFront, List.length_append,
    List.length_append]

theorem indexOffset_eq : indexOffset o calls
    = (tableFront o calls ++ storedBlock o (metaindexContents o calls)).length := by
  rw [indexOffset, metaindexOffset_eq, List.length_append]

theorem tableBytes_metaindex : tableBytes o calls
    = tableFront o calls ++ storedBlock o (metaindexContents o calls)
      ++ (storedBlock o (indexContents o calls) ++ (tableFooter o calls).encode) := by
  rw [tableBytes, tableFront, List.append_assoc (_ ++ storedBlock o (metaindexContents o calls))]

theorem tableBytes_index : tableBytes o calls
    = (tableFront o calls ++ storedBlock o (metaindexContents o calls))
      ++ storedBlock o (indexContents o calls) ++ (tableFooter o calls).encode := rfl

end Parts

/-! ## Sizes -/

/-- Every entry takes a byte at least. -/
theorem length_le_finish (interval : Nat) (es : List (Slice × Slice)) :
    es.length ≤ (BlockBuilder.new.addAll interval es).finish.length := by
  have hbuffer : ∀ (es : List (Slice × Slice)) (b : BlockBuilder),
      b.buffer.length + es.length ≤ (b.addAll interval es).buffer.length := by
    intro es
    induction es with
    | nil => intro b; exact Nat.le_refl _
    | cons e es ih =>
      intro b
      have hstep := ih (b.add interval e.1 e.2)
      have hadd : b.buffer.length + 1 ≤ (b.add interval e.1 e.2).buffer.length := by
        have hlen := fun shared => encodeEntry_length shared e.1 e.2
        rw [BlockBuilder.add]
        split_ifs
        · have := hlen (sharedLength b.lastKey e.1)
          show b.buffer.length + 1 ≤ (b.buffer ++ _).length
          rw [List.length_append]
          omega
        · have := hlen 0
          show b.buffer.length + 1 ≤ (b.buffer ++ _).length
          rw [List.length_append]
          omega
      rw [List.length_cons]
      show _ ≤ ((b.add interval e.1 e.2).addAll interval es).buffer.length
      omega
  have h := hbuffer es BlockBuilder.new
  rw [BlockBuilder.finish, List.length_append, List.length_append]
  exact Nat.le_trans (by omega) (Nat.le_trans h (by omega))

theorem block_data (contents : Slice) : (Block.new contents).data = contents := by
  rw [Block.new]
  split_ifs <;> rfl

/-! ## The index -/

section Index

variable {o : TableOptions}

theorem flatten_groups (es : List (Slice × Slice)) :
    ∀ open_, (groups o open_ es).flatten = open_ ++ es := by
  induction es with
  | nil =>
    intro open_
    rw [groups]
    by_cases hopen : open_ = []
    · rw [if_pos hopen, hopen]
      rfl
    · rw [if_neg hopen, List.flatten_singleton, List.append_nil]
  | cons e es ih =>
    intro open_
    rw [groups]
    split_ifs
    · rw [List.flatten_cons, ih, List.append_assoc]
      rfl
    · rw [ih, List.append_assoc]
      rfl

theorem indexEntries_length (next : Option Slice) (gs : List (List (Slice × Slice))) :
    ∀ offset, (indexEntries o next offset gs).length = gs.length := by
  induction gs with
  | nil => intro offset; rfl
  | cons g gs ih =>
    intro offset
    rw [indexEntries, List.length_cons, ih, List.length_cons]

/-- Entry number `i` of the index has the handle of block number `i`. -/
theorem indexEntries_handle (next : Option Slice) (gs : List (List (Slice × Slice))) :
    ∀ {offset i : Nat} {p : Slice × Slice} {g : List (Slice × Slice)},
      (indexEntries o next offset gs)[i]? = some p → gs[i]? = some g →
      p.2 = (handleOf o (offset + (dataBytes o (gs.take i)).length) (blockOf o g).finish).encode := by
  induction gs with
  | nil => intro offset i p g hp hg; cases hg
  | cons g' gs ih =>
    intro offset i p g hp hg
    rw [indexEntries] at hp
    cases i with
    | zero =>
      rw [List.getElem?_cons_zero] at hp hg
      rw [← Option.some.inj hp, ← Option.some.inj hg]
      rfl
    | succ i =>
      rw [List.getElem?_cons_succ] at hp hg
      rw [ih hp hg, List.take_succ_cons, dataBytes_cons, List.length_append, Nat.add_assoc]

theorem dataBytes_split (gs : List (List (Slice × Slice))) {i : Nat} {g : List (Slice × Slice)}
    (hg : gs[i]? = some g) :
    dataBytes o gs = dataBytes o (gs.take i) ++ storedBlock o (blockOf o g).finish
      ++ dataBytes o (gs.drop (i + 1)) := by
  obtain ⟨hi, rfl⟩ := List.getElem?_eq_some_iff.mp hg
  conv_lhs => rw [← List.take_append_drop i gs, List.drop_eq_getElem_cons hi]
  rw [dataBytes, List.flatMap_append, List.flatMap_cons, ← List.append_assoc]
  rfl

variable {gs : List (List (Slice × Slice))}

/-- Blocks further on start further on. -/
theorem dataBytes_take_lt {i j : Nat} (hij : i < j) (hj : j ≤ gs.length) :
    (dataBytes o (gs.take i)).length < (dataBytes o (gs.take j)).length := by
  obtain ⟨g, hg⟩ : ∃ g, (gs.take j)[i]? = some g :=
    ⟨_, List.getElem?_eq_getElem (by rw [List.length_take]; omega)⟩
  have hblock := storedBlock_length o (blockOf o g).finish
  have htrailer : kBlockTrailerSize = 5 := rfl
  rw [dataBytes_split (gs.take j) hg, List.take_take, Nat.min_eq_left (Nat.le_of_lt hij),
    List.length_append, List.length_append]
  omega

theorem encode_injective {h h' : BlockHandle} (ho : h.offset < 2 ^ 64) (hs : h.size < 2 ^ 64)
    (ho' : h'.offset < 2 ^ 64) (hs' : h'.size < 2 ^ 64) (heq : h.encode = h'.encode) : h = h' := by
  have h1 := BlockHandle.decodeFrom_encode ho hs []
  rw [heq, BlockHandle.decodeFrom_encode ho' hs' []] at h1
  exact (Prod.mk.inj (Except.ok.inj h1)).1.symm

/-- The handles of the index are distinct. -/
theorem indexEntries_nodup (next : Option Slice) {file after : Slice}
    (hfile : file = dataBytes o gs ++ after) (hlen : file.length < 2 ^ 64) :
    ((indexEntries o next 0 gs).map (·.2)).Nodup := by
  have hhandle : ∀ i g, gs[i]? = some g →
      ((indexEntries o next 0 gs).map (·.2))[i]?
        = some (handleOf o (dataBytes o (gs.take i)).length (blockOf o g).finish).encode := by
    intro i g hg
    have hi : i < (indexEntries o next 0 gs).length := by
      rw [indexEntries_length]
      exact (List.getElem?_eq_some_iff.mp hg).1
    have hp := indexEntries_handle next gs (List.getElem?_eq_getElem hi) hg
    rw [Nat.zero_add] at hp
    rw [List.getElem?_map, List.getElem?_eq_getElem hi, Option.map_some, hp]
  have hfits : ∀ i g, gs[i]? = some g →
      (handleOf o (dataBytes o (gs.take i)).length (blockOf o g).finish).offset < 2 ^ 64
        ∧ (handleOf o (dataBytes o (gs.take i)).length (blockOf o g).finish).size < 2 ^ 64 := by
    intro i g hg
    have hat : file = dataBytes o (gs.take i) ++ storedBlock o (blockOf o g).finish
        ++ (dataBytes o (gs.drop (i + 1)) ++ after) := by
      rw [hfile, dataBytes_split gs hg, List.append_assoc]
    exact handleOf_fits hat hlen
  rw [List.Nodup, List.pairwise_iff_getElem]
  intro i j hi hj hij heq
  have hj' := hj
  rw [List.length_map, indexEntries_length] at hj'
  obtain ⟨g, hg⟩ : ∃ g, gs[i]? = some g := ⟨_, List.getElem?_eq_getElem (by omega)⟩
  obtain ⟨g', hg'⟩ : ∃ g, gs[j]? = some g := ⟨_, List.getElem?_eq_getElem hj'⟩
  have hsame := hhandle i g hg
  rw [List.getElem?_eq_getElem hi, heq, ← List.getElem?_eq_getElem hj, hhandle j g' hg'] at hsame
  have hoffset := congrArg BlockHandle.offset
    (encode_injective (hfits j g' hg').1 (hfits j g' hg').2 (hfits i g hg).1 (hfits i g hg).2
      (Option.some.inj hsame))
  have hlt := dataBytes_take_lt (o := o) hij (Nat.le_of_lt hj')
  simp only [handleOf] at hoffset
  omega

/-- The entries of a block, by its handle. -/
def blockAt (hs : List (Slice × Slice)) (gs : List (List (Slice × Slice))) (handle : Slice) :
    List (Slice × Slice) :=
  (gs[(hs.map (·.2)).idxOf handle]?).getD []

theorem blockAt_eq {hs : List (Slice × Slice)} (hnodup : (hs.map (·.2)).Nodup) {i : Nat}
    {p : Slice × Slice} {g : List (Slice × Slice)} (hp : hs[i]? = some p) (hg : gs[i]? = some g) :
    blockAt hs gs p.2 = g := by
  obtain ⟨hi, rfl⟩ := List.getElem?_eq_some_iff.mp hp
  have hidx : (hs.map (·.2)).idxOf hs[i].2 = i := by
    have h := hnodup.idxOf_getElem i (by rw [List.length_map]; exact hi)
    rw [List.getElem_map] at h
    exact h
  rw [blockAt, hidx, hg]
  rfl

theorem entriesIn_blockAt {hs : List (Slice × Slice)} (hnodup : (hs.map (·.2)).Nodup)
    (hlen : hs.length = gs.length) : entriesIn (blockAt hs gs) hs = gs.flatten := by
  have hmap : hs.map (fun p => blockAt hs gs p.2) = gs := by
    refine List.ext_getElem? fun i => ?_
    rw [List.getElem?_map]
    by_cases hi : i < hs.length
    · obtain ⟨p, hp⟩ : ∃ p, hs[i]? = some p := ⟨_, List.getElem?_eq_getElem hi⟩
      obtain ⟨g, hg⟩ : ∃ g, gs[i]? = some g := ⟨_, List.getElem?_eq_getElem (by omega)⟩
      rw [hp, hg, Option.map_some, blockAt_eq hnodup hp hg]
    · rw [List.getElem?_eq_none (by omega), List.getElem?_eq_none (by omega)]
      rfl
  rw [entriesIn, List.flatMap_def, hmap]

end Index

/-! ## The iterator -/

section Iterate

variable {o : TableOptions} {calls : List (Slice × Slice)} {t : Table}

theorem tableBytes_data (o : TableOptions) (calls : List (Slice × Slice)) :
    ∃ after, tableBytes o calls = dataBytes o (tableGroups o calls) ++ after :=
  ⟨_, by rw [tableBytes, List.append_assoc, List.append_assoc, List.append_assoc,
    List.append_assoc]⟩

/-- **The handle in the index leads to the block.** -/
theorem blockReader_group (hs : o.codecs.Sound o.compression) (hfits : Fits o calls)
    (ho : t.options = o) (hfile : t.file = fileOf (tableBytes o calls)) (verify : Bool) {i : Nat}
    {p : Slice × Slice} {g : List (Slice × Slice)}
    (hp : (indexEntries o none 0 (tableGroups o calls))[i]? = some p)
    (hg : (tableGroups o calls)[i]? = some g) :
    t.blockReader verify p.2 = (Block.new (blockOf o g).finish).newIterator := by
  obtain ⟨after, hsplit⟩ := tableBytes_data o calls
  have hhandle := indexEntries_handle none (tableGroups o calls) hp hg
  rw [Nat.zero_add] at hhandle
  rw [hhandle]
  subst ho
  have hat : tableBytes t.options calls
      = dataBytes t.options ((tableGroups t.options calls).take i)
        ++ storedBlock t.options (blockOf t.options g).finish
        ++ (dataBytes t.options ((tableGroups t.options calls).drop (i + 1)) ++ after) := by
    rw [hsplit, dataBytes_split _ hg, List.append_assoc]
  exact blockReader_storedBlock hs hfile hat hfits.file verify

/-- **The iterator of the table** shows the entries of the data blocks. -/
theorem newIterator_yields (hint : 1 ≤ o.blockRestartInterval)
    (hs : o.codecs.Sound o.compression) (hfits : Fits o calls) (ho : t.options = o)
    (hfile : t.file = fileOf (tableBytes o calls))
    (hindex : t.indexBlock = Block.new (indexContents o calls)) (verify : Bool) :
    Yields (TwoLevelIterator.ops (t.levels verify)) .ok
      ((TwoLevelIterator.ops (t.levels verify)).seekToFirst (t.newIterator verify))
      (points calls) := by
  obtain ⟨after, hsplit⟩ := tableBytes_data o calls
  have hnodup := indexEntries_nodup (o := o) none hsplit hfits.file
  have hlen := indexEntries_length (o := o) none (tableGroups o calls) 0
  obtain ⟨c, hc⟩ := opened_finish (Nat.le_refl 1) hfits.index
  have hopens : Opens (t.levels verify)
      (fun h => Opened (blockAt (indexEntries o none 0 (tableGroups o calls))
        (tableGroups o calls) h))
      (blockAt (indexEntries o none 0 (tableGroups o calls)) (tableGroups o calls))
      (indexEntries o none 0 (tableGroups o calls)) := by
    refine ⟨fun p _ => forward_opened _ _, fun p hp => ?_, hnodup⟩
    obtain ⟨i, hi⟩ := List.mem_iff_getElem?.mp hp
    obtain ⟨g, hg⟩ : ∃ g, (tableGroups o calls)[i]? = some g :=
      ⟨_, List.getElem?_eq_getElem (by rw [← hlen]; exact (List.getElem?_eq_some_iff.mp hi).1)⟩
    obtain ⟨d, hd⟩ := opened_finish hint (hfits.data g (List.mem_iff_getElem?.mpr ⟨i, hg⟩))
    have hblock := blockReader_group hs hfits ho hfile verify hi hg
    refine ⟨d, ?_, ?_⟩
    · show Opened _ (t.blockReader verify p.2) d
      rw [hblock, blockAt_eq hnodup hi hg]
      exact hd
    · rw [blockAt_eq hnodup hi hg]
      exact hd.contents
  have hfuel : (indexEntries o none 0 (tableGroups o calls)).length ≤ (t.levels verify).fuel := by
    show _ ≤ t.indexBlock.data.length + 1
    rw [hindex, block_data]
    exact Nat.le_succ_of_le (length_le_finish 1 _)
  have hyields := TwoLevelIterator.twoLevel_yields hopens
    (forward_opened t.options.comparator _) hc hc.contents hfuel
  rw [entriesIn_blockAt hnodup hlen, tableGroups, flatten_groups] at hyields
  rw [Table.newIterator, hindex]
  exact hyields

end Iterate

/-! ## The metaindex and the range deletions -/

/-- A search among sorted entries for a key. -/
theorem dropWhile_find {key : Slice} (es : List (Slice × Slice))
    (hsorted : es.Pairwise fun a b => bytewiseComparator.compare a.1 b.1 = .lt) :
    ((es.dropWhile fun e => bytewiseComparator.compare e.1 key == .lt).head?.filter
        fun e => decide (e.1 = key))
      = es.find? fun e => decide (e.1 = key) := by
  induction es with
  | nil => rfl
  | cons e es ih =>
    rw [List.pairwise_cons] at hsorted
    rw [List.dropWhile_cons]
    by_cases hlt : bytewiseComparator.compare e.1 key = .lt
    · have hne : e.1 ≠ key := by
        rintro rfl
        have hself : bytewiseComparator.compare e.1 e.1 = .eq := Std.ReflCmp.compare_self
        rw [hself] at hlt
        cases hlt
      rw [if_pos (by rw [hlt]; rfl), List.find?_cons_of_neg (by simpa using hne)]
      exact ih hsorted.2
    · rw [if_neg (by simpa using hlt), List.head?_cons]
      by_cases hkey : e.1 = key
      · rw [List.find?_cons_of_pos (by simpa using hkey), Option.filter_some,
          if_pos (by simpa using hkey)]
      · rw [List.find?_cons_of_neg (by simpa using hkey), Option.filter_some,
          if_neg (by simpa using hkey), List.find?_eq_none.mpr]
        -- a later entry with the key would put this one before it
        intro x hx heq
        rw [decide_eq_true_eq] at heq
        exact hlt (heq ▸ hsorted.1 x hx)

theorem lookUpMeta_eq {es : List (Slice × Slice)}
    (hsorted : es.Pairwise fun a b => bytewiseComparator.compare a.1 b.1 = .lt) {it : AnyIter}
    {c : Cursor (Slice × Slice)} (h : Opened es it c) (key : Slice) :
    (∃ c', Opened es (Table.lookUpMeta it key).2 c')
      ∧ (Table.lookUpMeta it key).1 = (es.find? fun e => decide (e.1 = key)).map (·.2) := by
  have hR := refines_opened hsorted
  have hseek := hR.seek h key
  have hv := hR.valid hseek
  have hright : (c.seek fun e => bytewiseComparator.compare e.1 key == .lt).right
      = es.dropWhile fun e => bytewiseComparator.compare e.1 key == .lt := by
    rw [Cursor.seek_right, h.contents]
  rw [← dropWhile_find es hsorted, ← hright]
  generalize hcur : (c.seek fun e => bytewiseComparator.compare e.1 key == .lt) = c' at hseek hv
  rw [Table.lookUpMeta]
  rcases c' with ⟨left, _ | ⟨e, right⟩⟩
  · rw [if_neg (by rw [hv]; simp [Cursor.valid])]
    exact ⟨⟨_, hseek⟩, rfl⟩
  · obtain ⟨hk, hval⟩ := hR.current (k := e.1) (v := e.2) hseek rfl
    by_cases hkey : e.1 = key
    · rw [if_pos ⟨hv, hk.trans hkey⟩]
      refine ⟨⟨_, hseek⟩, ?_⟩
      rw [List.head?_cons, Option.filter_some, if_pos (by simpa using hkey), hval]
      rfl
    · rw [if_neg (fun hc => hkey (hk.symm.trans hc.2))]
      refine ⟨⟨_, hseek⟩, ?_⟩
      rw [List.head?_cons, Option.filter_some, if_neg (by simpa using hkey)]
      rfl

/-- The loop over the range deletions collects them all. -/
theorem collectRangeDeletions_eq (es : List (Slice × Slice)) :
    ∀ {it : AnyIter} {fuel : Nat}, Yields (iterOps bytewiseComparator) .ok it es →
      es.length < fuel →
      collectRangeDeletions fuel it = es.filterMap fun e => rangeDeletionOf e.1 e.2 := by
  induction es with
  | nil =>
    intro it fuel h hfuel
    obtain ⟨fuel, rfl⟩ : ∃ m, fuel = m + 1 := ⟨fuel - 1, by omega⟩
    rw [collectRangeDeletions]
    exact if_neg (by rw [h.1]; exact Bool.false_ne_true)
  | cons e es ih =>
    intro it fuel h hfuel
    obtain ⟨hv, hkv, hnext⟩ := h
    obtain ⟨fuel, rfl⟩ : ∃ m, fuel = m + 1 := ⟨fuel - 1, by omega⟩
    rw [List.length_cons] at hfuel
    rw [collectRangeDeletions, if_pos hv, ih hnext (by omega), ← hkv, List.filterMap_cons]
    cases rangeDeletionOf ((iterOps bytewiseComparator).key it)
      ((iterOps bytewiseComparator).value it) <;> rfl

section Open

variable {o : TableOptions} {calls : List (Slice × Slice)}

theorem filterKey_lt (policy : FilterPolicy) :
    bytewiseComparator.compare (TableBuilder.filterKey policy) TableBuilder.rangeDelKey = .lt := rfl

theorem metaEntries_sorted (filter : Option (FilterPolicy × BlockHandle))
    (rangeDel : Option BlockHandle) :
    (TableBuilder.metaEntries filter rangeDel).Pairwise
      fun a b => bytewiseComparator.compare a.1 b.1 = .lt := by
  rw [TableBuilder.metaEntries]
  cases filter with
  | none => cases rangeDel <;> simp
  | some f =>
    cases rangeDel with
    | none => simp
    | some h => simpa using filterKey_lt f.1

theorem filterKey_ne (policy : FilterPolicy) :
    ¬(TableBuilder.filterKey policy = TableBuilder.rangeDelKey) := by
  intro heq
  have hlt := filterKey_lt policy
  have hself : bytewiseComparator.compare TableBuilder.rangeDelKey TableBuilder.rangeDelKey
      = .eq := Std.ReflCmp.compare_self
  rw [heq, hself] at hlt
  cases hlt

theorem metaEntries_find (filter : Option (FilterPolicy × BlockHandle))
    (rangeDel : Option BlockHandle) :
    ((TableBuilder.metaEntries filter rangeDel).find?
        fun e => decide (e.1 = TableBuilder.rangeDelKey)).map (·.2)
      = rangeDel.map BlockHandle.encode := by
  rw [TableBuilder.metaEntries]
  cases filter with
  | none => cases rangeDel <;> simp
  | some f => cases rangeDel <;> simp [filterKey_ne f.1]

theorem metaEntries_find_filter (policy : FilterPolicy) (handle : BlockHandle)
    (rangeDel : Option BlockHandle) :
    ((TableBuilder.metaEntries (some (policy, handle)) rangeDel).find?
        fun e => decide (e.1 = TableBuilder.filterKey policy)).map (·.2)
      = some handle.encode := by
  rw [TableBuilder.metaEntries]
  simp

/-- The range deletions of the table. -/
def tombstones (calls : List (Slice × Slice)) : Option (List RangeDeletion) :=
  if rangeDels calls = [] then none
  else some ((rangeDels calls).filterMap fun e => rangeDeletionOf e.1 e.2)

variable {t : Table}

theorem readRangeDeletions_eq (hint : 1 ≤ o.blockRestartInterval)
    (hs : o.codecs.Sound o.compression) (hfits : Fits o calls) (ho : t.options = o)
    (hfile : t.file = fileOf (tableBytes o calls)) (hne : rangeDels calls ≠ []) :
    t.readRangeDeletions
        (handleOf o (rangeDelOffset o calls) (blockOf o (rangeDels calls)).finish).encode
      = { t with rangeDeletions := tombstones calls } := by
  have hat : tableBytes o calls = dataBytes o (tableGroups o calls)
      ++ storedBlock o (blockOf o (rangeDels calls)).finish
      ++ (filterBytes o calls ++ storedBlock o (metaindexContents o calls)
        ++ storedBlock o (indexContents o calls) ++ (tableFooter o calls).encode) := by
    rw [tableBytes, rangeDelBytes, if_neg hne]
    simp only [List.append_assoc]
  obtain ⟨c, hc⟩ := opened_finish hint hfits.rangeDel
  have hyields := (forward_opened bytewiseComparator _).yields hc
  rw [hc.contents] at hyields
  rw [Table.readRangeDeletions, ho, hfile, rangeDelOffset,
    readMetaBlock_storedBlock hs hat hfits.file, tombstones, if_neg hne]
  simp only
  rw [blockOf, collectRangeDeletions_eq _ hyields
    (Nat.lt_succ_of_le (length_le_finish o.blockRestartInterval (rangeDels calls)))]

/-- The filter of the table. -/
def tableFilter (o : TableOptions) (calls : List (Slice × Slice)) : Option FilterBlockReader :=
  (filterContents o calls).map fun f => FilterBlockReader.new f.2

theorem readFilter_eq (hfits : Fits o calls) (ho : t.options = o)
    (hfile : t.file = fileOf (tableBytes o calls)) {policy : FilterPolicy} {contents : Slice}
    (hcontents : filterContents o calls = some (policy, contents)) :
    t.readFilter (BlockHandle.encode ⟨filterOffset o calls, contents.length⟩)
      = { t with filter := tableFilter o calls } := by
  have hoffset : filterOffset o calls
      = (dataBytes o (tableGroups o calls) ++ rangeDelBytes o calls).length := by
    rw [filterOffset, rangeDelOffset, List.length_append]
  have hat : tableBytes o calls = dataBytes o (tableGroups o calls) ++ rangeDelBytes o calls
      ++ rawBlock contents .noCompression
      ++ (storedBlock o (metaindexContents o calls) ++ storedBlock o (indexContents o calls)
        ++ (tableFooter o calls).encode) := by
    have hbytes : filterBytes o calls = rawBlock contents .noCompression := by
      rw [filterBytes, hcontents]
    rw [tableBytes, hbytes]
    simp only [List.append_assoc]
  have hlen := hfits.file
  rw [hat, List.length_append, List.length_append, rawBlock_length] at hlen
  have hread : readBlock o.codecs (fileOf (tableBytes o calls)) o.paranoidChecks
      ⟨filterOffset o calls, contents.length⟩ = .ok contents := by
    have hbytes : fileOf (tableBytes o calls) (filterOffset o calls)
        (contents.length + kBlockTrailerSize) = .ok (rawBlock contents .noCompression) := by
      rw [hat, hoffset, ← rawBlock_length contents .noCompression]
      exact fileOf_middle _ _ _
    rw [readBlock_rawBlock o.codecs _ (by omega) hbytes]
    rfl
  rw [Table.readFilter, Table.readMetaBlock, ho, hfile, ← List.append_nil (BlockHandle.encode _),
    BlockHandle.decodeFrom_encode (by simp only; omega) (by simp only; omega)]
  simp only [hread]
  rw [tableFilter, hcontents]
  rfl

/-- The first search of `ReadMeta` finds the filter. -/
theorem readMetaFilter_eq (hfits : Fits o calls) (ho : t.options = o)
    (hfile : t.file = fileOf (tableBytes o calls)) (hnone : t.filter = none)
    (hsorted : (tableMetaEntries o calls).Pairwise
      fun a b => bytewiseComparator.compare a.1 b.1 = .lt) {it : AnyIter}
    {c : Cursor (Slice × Slice)} (hc : Opened (tableMetaEntries o calls) it c) :
    ∃ it', (∃ c, Opened (tableMetaEntries o calls) it' c)
      ∧ t.readMetaFilter it = ({ t with filter := tableFilter o calls }, it') := by
  subst ho
  rw [Table.readMetaFilter]
  cases hpolicy : t.options.filterPolicy with
  | none =>
    have hsame : tableFilter t.options calls = t.filter := by
      rw [tableFilter, filterContents, hpolicy, hnone]
      rfl
    exact ⟨it, ⟨c, hc⟩, by rw [hsame]⟩
  | some policy =>
    obtain ⟨contents, hcontents⟩ : ∃ contents,
        filterContents t.options calls = some (policy, contents) := by
      rw [filterContents, hpolicy]
      exact ⟨_, rfl⟩
    obtain ⟨hopened, hfound⟩ := lookUpMeta_eq hsorted hc (TableBuilder.filterKey policy)
    rw [tableMetaEntries, hcontents, Option.map_some, metaEntries_find_filter] at hfound
    rcases hlook : Table.lookUpMeta it (TableBuilder.filterKey policy) with ⟨found, it'⟩
    rw [hlook] at hopened hfound
    simp only at hfound
    refine ⟨it', hopened, ?_⟩
    simp only [hlook, hfound]
    rw [readFilter_eq hfits rfl hfile hcontents]

/-- **`ReadMeta` finds the filter and the range deletions.** -/
theorem readMeta_eq (hint : 1 ≤ o.blockRestartInterval) (hs : o.codecs.Sound o.compression)
    (hfits : Fits o calls) (ho : t.options = o) (hfile : t.file = fileOf (tableBytes o calls))
    (hfilter : t.filter = none) (hnone : t.rangeDeletions = none) :
    t.readMeta (tableFooter o calls)
      = { t with filter := tableFilter o calls, rangeDeletions := tombstones calls } := by
  have hread : readBlock t.options.codecs t.file t.options.paranoidChecks
      (tableFooter o calls).metaindexHandle = .ok (metaindexContents o calls) := by
    rw [ho, hfile, tableFooter, metaindexOffset_eq]
    exact readBlock_storedBlock hs (tableBytes_metaindex o calls) hfits.file _
  have hsorted : (tableMetaEntries o calls).Pairwise
      fun a b => bytewiseComparator.compare a.1 b.1 = .lt := metaEntries_sorted _ _
  obtain ⟨c, hc⟩ := opened_finish hint hfits.metaindex
  obtain ⟨it', ⟨c', hc'⟩, hmeta⟩ := readMetaFilter_eq hfits ho hfile hfilter hsorted hc
  obtain ⟨-, hlook⟩ := lookUpMeta_eq hsorted hc' TableBuilder.rangeDelKey
  rw [tableMetaEntries, metaEntries_find] at hlook
  rw [Table.readMeta, hread]
  simp only
  rw [metaindexContents, blockOf, hmeta]
  simp only [hlook]
  by_cases hnil : rangeDels calls = []
  · rw [if_pos hnil, tombstones, if_pos hnil, ← hnone]
    rfl
  · rw [if_neg hnil]
    exact readRangeDeletions_eq (t := { t with filter := tableFilter o calls }) hint hs hfits ho
      hfile hnil

/-- The table as it is opened. -/
def openedTable (o : TableOptions) (calls : List (Slice × Slice)) : Table where
  options := o
  file := fileOf (tableBytes o calls)
  filter := tableFilter o calls
  metaindexHandle := (tableFooter o calls).metaindexHandle
  indexBlock := Block.new (indexContents o calls)
  rangeDeletions := tombstones calls

/-- **The table opens.** -/
theorem openTable_eq (hint : 1 ≤ o.blockRestartInterval) (hs : o.codecs.Sound o.compression)
    (hfits : Fits o calls) :
    Table.openTable o (fileOf (tableBytes o calls)) (tableBytes o calls).length
      = .ok (openedTable o calls) := by
  have hlen : (tableBytes o calls).length
      = (tableFront o calls ++ storedBlock o (metaindexContents o calls)
          ++ storedBlock o (indexContents o calls)).length + kFooterLength := by
    rw [← Footer.encode_length (tableFooter o calls), ← List.length_append]
    rfl
  have hfooter : fileOf (tableBytes o calls) ((tableBytes o calls).length - kFooterLength)
      kFooterLength = .ok (tableFooter o calls).encode := by
    rw [hlen, Nat.add_sub_cancel, ← Footer.encode_length (tableFooter o calls)]
    have h := fileOf_middle (tableFront o calls ++ storedBlock o (metaindexContents o calls)
      ++ storedBlock o (indexContents o calls)) (tableFooter o calls).encode []
    rw [List.append_nil] at h
    exact h
  have hdecode : Footer.decodeFrom (tableFooter o calls).encode = .ok (tableFooter o calls) := by
    refine Footer.decodeFrom_encode ?_ ?_
    · rw [tableFooter, metaindexOffset_eq]
      exact handleOf_fits (tableBytes_metaindex o calls) hfits.file
    · rw [tableFooter, indexOffset_eq]
      exact handleOf_fits (tableBytes_index o calls) hfits.file
  have hindex : readBlock o.codecs (fileOf (tableBytes o calls)) o.paranoidChecks
      (tableFooter o calls).indexHandle = .ok (indexContents o calls) := by
    rw [tableFooter, indexOffset_eq]
    exact readBlock_storedBlock hs (tableBytes_index o calls) hfits.file _
  have hmeta := readMeta_eq
    (t := ⟨o, fileOf (tableBytes o calls), none, (tableFooter o calls).metaindexHandle,
      Block.new (indexContents o calls), none⟩) hint hs hfits rfl rfl rfl rfl
  rw [Table.openTable, if_neg (by omega), hfooter]
  simp only
  rw [hdecode]
  simp only
  rw [hindex]
  simp only
  rw [hmeta]
  rfl

/-- **A table is read back**: it opens, its iterator shows the entries of its data
    blocks in order, and it has the range deletions it was given. -/
theorem openTable_build (hint : 1 ≤ o.blockRestartInterval) (hs : o.codecs.Sound o.compression)
    (hfits : Fits o calls) :
    ∃ t, Table.openTable o (fileOf (tableBytes o calls)) (tableBytes o calls).length = .ok t
      ∧ (∀ verify, Yields (TwoLevelIterator.ops (t.levels verify)) .ok
          ((TwoLevelIterator.ops (t.levels verify)).seekToFirst (t.newIterator verify))
          (points calls))
      ∧ t.getRangeDeletions = tombstones calls := by
  exact ⟨openedTable o calls, openTable_eq hint hs hfits,
    newIterator_yields hint hs hfits rfl rfl rfl, rfl⟩

end Open

end LdbTableRoundTrip
