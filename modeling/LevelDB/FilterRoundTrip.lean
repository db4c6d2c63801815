import Mathlib.Logic.Function.Iterate
import LevelDB.TableLayout

/-! # The filters of a table

    A filter block holds one filter for every 2 KiB of the file; the keys of a data
    block are in the filter of the place where the block starts.  A table that is
    built with a policy and opened again asks that filter, so a key of the block is
    never turned away by a policy that matches the keys its filters are made of
    (`filterContents_matches`). -/

namespace LdbFilterRoundTrip

open LdbFormat LdbCoding LdbEnv LdbBlock LdbFilterBlock LdbTableBuilder LdbTableLayout

/-! ## What a filter block holds -/

section Contents

variable (policy : FilterPolicy)

/-- The filter of some keys; none is made without keys. -/
def filterOf (ks : List Slice) : Slice := if ks = [] then [] else policy.createFilter ks

/-- The filters, one after the other. -/
def filters (kss : List (List Slice)) : Slice := kss.flatMap (filterOf policy)

/-- Where filter number `i` starts. -/
def filterStart (kss : List (List Slice)) (i : Nat) : Nat := (filters policy (kss.take i)).length

/-- The offsets the builder keeps. -/
def filterStarts (kss : List (List Slice)) (n : Nat) : List Nat :=
  (List.range n).map fun i => filterStart policy kss i % 2 ^ 32

/-- The filter block. -/
def filterBlock (kss : List (List Slice)) : Slice :=
  filters policy kss ++ (filterStarts policy kss (kss.length + 1)).flatMap encodeFixed32
    ++ [lowByte kFilterBaseLg]

/-- **The builder has made the filters of `kss`.** -/
structure Made (b : FilterBlockBuilder) (kss : List (List Slice)) : Prop where
  result : b.result = filters policy kss
  offsets : b.filterOffsets = filterStarts policy kss kss.length

variable {policy} {b : FilterBlockBuilder} {kss : List (List Slice)}

theorem filterStart_append {i : Nat} (hi : i ≤ kss.length) (more : List (List Slice)) :
    filterStart policy (kss ++ more) i = filterStart policy kss i := by
  rw [filterStart, List.take_append_of_le_length hi, filterStart]

theorem filterStarts_succ (ks : List Slice) :
    filterStarts policy (kss ++ [ks]) (kss.length + 1)
      = filterStarts policy kss kss.length ++ [(filters policy kss).length % 2 ^ 32] := by
  rw [filterStarts, List.range_succ, List.map_append, filterStarts]
  congr 1
  · refine List.map_congr_left fun i hi => ?_
    rw [filterStart_append (Nat.le_of_lt (List.mem_range.mp hi))]
  · rw [List.map_singleton, filterStart_append (Nat.le_refl _), filterStart, List.take_length]

theorem made_new : Made policy {} [] := ⟨rfl, rfl⟩

/-- `GenerateFilter` makes the filter of the keys that wait. -/
theorem Made.generate (h : Made policy b kss) :
    Made policy (b.generateFilter policy) (kss ++ [b.keys])
      ∧ (b.generateFilter policy).keys = [] := by
  have hoffsets : b.filterOffsets ++ [b.result.length % 2 ^ 32]
      = filterStarts policy (kss ++ [b.keys]) (kss ++ [b.keys]).length := by
    rw [List.length_append, List.length_singleton, filterStarts_succ, h.offsets, h.result]
  have hfilters : filters policy (kss ++ [b.keys]) = b.result ++ filterOf policy b.keys := by
    rw [filters, List.flatMap_append, List.flatMap_singleton, h.result, filters]
  rw [FilterBlockBuilder.generateFilter]
  by_cases hkeys : b.keys = []
  · rw [if_pos hkeys]
    refine ⟨⟨?_, hoffsets⟩, hkeys⟩
    rw [hfilters, filterOf, if_pos hkeys, List.append_nil]
  · rw [if_neg hkeys]
    refine ⟨⟨?_, hoffsets⟩, rfl⟩
    rw [hfilters, filterOf, if_neg hkeys]

/-- The rounds of `StartBlock`: the keys that wait, then filters without keys. -/
theorem Made.iterate (h : Made policy b kss) (n : Nat) :
    ∃ kss', Made policy ((FilterBlockBuilder.generateFilter policy)^[n] b) kss'
      ∧ kss'.length = kss.length + n
      ∧ kss' ++ [((FilterBlockBuilder.generateFilter policy)^[n] b).keys]
        = kss ++ [b.keys] ++ List.replicate n [] := by
  induction n with
  | zero => exact ⟨kss, h, rfl, by rw [List.replicate_zero, List.append_nil]; rfl⟩
  | succ n ih =>
    obtain ⟨kss', hmade, hlen, hall⟩ := ih
    obtain ⟨hnext, hkeys⟩ := hmade.generate
    rw [Function.iterate_succ_apply']
    refine ⟨_, hnext, ?_, ?_⟩
    · rw [List.length_append, hlen, List.length_singleton, Nat.add_assoc]
    · rw [hkeys, hall, List.replicate_succ', List.append_assoc]

/-- **`StartBlock`** brings the filters up to the one of the offset. -/
theorem Made.startBlock (h : Made policy b kss) {offset : Nat}
    (hle : kss.length ≤ offset / kFilterBase) :
    ∃ kss' n, Made policy (b.startBlock policy offset) kss'
      ∧ kss'.length = offset / kFilterBase
      ∧ kss' ++ [(b.startBlock policy offset).keys] = kss ++ [b.keys] ++ List.replicate n [] := by
  have hcount : b.filterOffsets.length = kss.length := by
    rw [h.offsets, filterStarts, List.length_map, List.length_range]
  obtain ⟨kss', hmade, hlen, hall⟩ := h.iterate (offset / kFilterBase - b.filterOffsets.length)
  refine ⟨kss', _, hmade, ?_, hall⟩
  rw [hlen, hcount]
  omega

/-- **`Finish`** makes the filter of the keys that wait, and writes the block. -/
theorem Made.finish (h : Made policy b kss) :
    ∃ all : List (List Slice), b.finish policy = filterBlock policy all
      ∧ ∀ (i : Nat) (ks : List Slice), (kss ++ [b.keys])[i]? = some ks → ks ≠ [] →
          all[i]? = some ks := by
  have hwrite : ∀ {b' : FilterBlockBuilder} {all : List (List Slice)}, Made policy b' all →
      b'.result ++ b'.filterOffsets.flatMap encodeFixed32
        ++ encodeFixed32 (b'.result.length % 2 ^ 32) ++ [lowByte kFilterBaseLg]
        = filterBlock policy all := by
    intro b' all hm
    have hlast : filterStarts policy all (all.length + 1)
        = filterStarts policy all all.length ++ [(filters policy all).length % 2 ^ 32] := by
      rw [filterStarts, List.range_succ, List.map_append, List.map_singleton, filterStarts,
        filterStart, List.take_length]
    rw [filterBlock, hlast, List.flatMap_append, List.flatMap_singleton, hm.result, hm.offsets]
    simp only [List.append_assoc]
  rw [FilterBlockBuilder.finish]
  by_cases hkeys : b.keys = []
  · simp only [if_pos hkeys]
    refine ⟨kss, hwrite h, fun i ks hi hne => ?_⟩
    rcases Nat.lt_or_ge i kss.length with hlt | hge
    · rw [List.getElem?_append_left hlt] at hi
      exact hi
    · -- the filter in the making has no keys
      rw [List.getElem?_append_right hge, hkeys, List.getElem?_singleton] at hi
      split_ifs at hi
      exact absurd (Option.some.inj hi).symm hne
  · simp only [if_neg hkeys]
    exact ⟨_, hwrite h.generate.1, fun i ks hi _ => hi⟩

/-! ## Reading it -/

theorem filterBlock_length (policy : FilterPolicy) (kss : List (List Slice)) :
    (filterBlock policy kss).length = (filters policy kss).length + kss.length * 4 + 5 := by
  rw [filterBlock, List.length_append, List.length_append, flatMap_encodeFixed32_length,
    filterStarts, List.length_map, List.length_range, List.length_singleton]
  omega

theorem filterStart_le (policy : FilterPolicy) (kss : List (List Slice)) (i : Nat) :
    filterStart policy kss i ≤ (filters policy kss).length := by
  have hsplit : filters policy kss
      = filters policy (kss.take i) ++ filters policy (kss.drop i) := by
    rw [filters, filters, filters, ← List.flatMap_append, List.take_append_drop]
  rw [filterStart, hsplit, List.length_append]
  omega

section

variable (hsmall : (filterBlock policy kss).length < 2 ^ 32)
include hsmall

/-- A word of the array of offsets. -/
theorem filterBlock_word {i : Nat} (hi : i ≤ kss.length) :
    decodeFixed32 ((filterBlock policy kss).drop ((filters policy kss).length + i * 4))
      = filterStart policy kss i := by
  have hlen := filterBlock_length policy kss
  have hle := filterStart_le policy kss i
  have hget : (filterStarts policy kss (kss.length + 1))[i]?
      = some (filterStart policy kss i) := by
    rw [filterStarts, List.getElem?_map, List.getElem?_range (by omega), Option.map_some,
      Nat.mod_eq_of_lt (by omega)]
  obtain ⟨more, hmore⟩ := drop_restarts (filterStarts policy kss (kss.length + 1))
    [lowByte kFilterBaseLg] i _ hget
  rw [filterBlock, List.append_assoc, ← List.drop_drop, List.drop_left, hmore]
  exact decodeFixed32_encodeFixed32 _ (by omega) more

/-- **The reader finds the array of offsets.** -/
theorem reader_new :
    FilterBlockReader.new (filterBlock policy kss)
      = ⟨filterBlock policy kss, (filters policy kss).length, kss.length, kFilterBaseLg⟩ := by
  have hlen := filterBlock_length policy kss
  have hbase : (filterBlock policy kss).getD ((filterBlock policy kss).length - 1) 0
      = lowByte kFilterBaseLg := by
    rw [List.getD_eq_getElem?_getD, ← List.getLast?_eq_getElem?, filterBlock, List.getLast?_concat]
    rfl
  have hword : decodeFixed32 ((filterBlock policy kss).drop ((filterBlock policy kss).length - 5))
      = (filters policy kss).length := by
    rw [hlen, Nat.add_sub_cancel, filterBlock_word hsmall (Nat.le_refl _), filterStart,
      List.take_length]
  rw [FilterBlockReader.new]
  simp only [hbase, hword]
  rw [if_neg (by omega), if_neg (by omega), hlen]
  congr 1
  omega

/-- **The reader asks the filter** of the place where the block starts. -/
theorem reader_keyMayMatch {offset : Nat} {ks : List Slice}
    (hks : kss[offset / kFilterBase]? = some ks) (key : Slice) :
    (FilterBlockReader.new (filterBlock policy kss)).keyMayMatch policy offset key
      = policy.keyMayMatch key (filterOf policy ks) := by
  obtain ⟨hi, hget⟩ := List.getElem?_eq_some_iff.mp hks
  generalize hidx : offset / kFilterBase = i at hi hget
  have hnext : filterStart policy kss (i + 1)
      = filterStart policy kss i + (filterOf policy ks).length := by
    rw [filterStart, List.take_succ_eq_append_getElem hi, hget, filters, List.flatMap_append,
      List.flatMap_singleton, List.length_append, filterStart, filters]
  have hle := filterStart_le policy kss (i + 1)
  -- the bytes of the filter
  have hslice : ((filterBlock policy kss).drop (filterStart policy kss i)).take
      (filterStart policy kss (i + 1) - filterStart policy kss i) = filterOf policy ks := by
    have hsplit : filters policy kss = filters policy (kss.take i)
        ++ (filterOf policy ks ++ filters policy (kss.drop (i + 1))) := by
      conv_lhs => rw [← List.take_append_drop i kss, List.drop_eq_getElem_cons hi, hget]
      rw [filters, List.flatMap_append, List.flatMap_cons]
      rfl
    rw [hnext, Nat.add_sub_cancel_left, filterBlock, hsplit, List.append_assoc, List.append_assoc,
      List.append_assoc, filterStart, List.drop_left, List.take_left]
  have hword : decodeFixed32
      ((filterBlock policy kss).drop ((filters policy kss).length + i * 4 + 4))
      = filterStart policy kss (i + 1) := by
    rw [Nat.add_assoc, ← Nat.succ_mul]
    exact filterBlock_word hsmall hi
  rw [reader_new hsmall, FilterBlockReader.keyMayMatch]
  simp only [show (2 : Nat) ^ kFilterBaseLg = kFilterBase from rfl, hidx, hword,
    filterBlock_word hsmall (Nat.le_of_lt hi)]
  rw [if_pos hi, if_pos ⟨by omega, hle⟩, hslice]

end

end Contents

/-! ## The filters of the data blocks -/

section Table

variable {o : TableOptions} {policy : FilterPolicy}

/-- **The keys of a data block are in the filter of its offset**; `kss` are the filters
    that are made, and the keys of the group under construction wait. -/
structure FiltersKeys (o : TableOptions) (policy : FilterPolicy) (r : TableBuilder)
    (gs : List (List (Slice × Slice))) (cur : List (Slice × Slice)) (kss : List (List Slice)) :
    Prop where
  made : Made policy r.filterBlock kss
  length : kss.length = (dataBytes o gs).length / kFilterBase
  waits : ∀ e ∈ cur, e.1 ∈ r.filterBlock.keys
  keys : ∀ {i : Nat} {g : List (Slice × Slice)}, gs[i]? = some g → ∀ e ∈ g, ∃ ks,
    (kss ++ [r.filterBlock.keys])[(dataBytes o (gs.take i)).length / kFilterBase]? = some ks
      ∧ e.1 ∈ ks

section

variable (hpolicy : o.filterPolicy = some policy)
include hpolicy

theorem joined_filterBlock (r : TableBuilder) (e : Slice × Slice) :
    (joined o r e).filterBlock = r.filterBlock.addKey e.1 := by
  rw [joined]
  simp only [TableBuilder.withFilter, hpolicy]
  split_ifs
  · rfl
  · rfl

theorem flush_filterBlock {dels : List (Slice × Slice)} {r : TableBuilder}
    {gs : List (List (Slice × Slice))} {cur : List (Slice × Slice)} (h : Written o dels r gs cur)
    (hcur : cur ≠ []) :
    (r.flush o).filterBlock
      = r.filterBlock.startBlock policy (dataBytes o (gs ++ [cur])).length := by
  have hdata : ¬(r.dataBlock.empty = true) := by
    rw [h.data, blockOf_empty_iff]
    exact hcur
  rw [TableBuilder.flush, if_neg (fun hne => hne h.status), if_neg hdata, writeBlock_eq h.file]
  simp only [if_pos, TableBuilder.withFilter, hpolicy, WritableFile.flush_nil]
  rw [dataBytes_snoc, List.length_append, h.offset, h.data]

omit hpolicy in
/-- A key that joins is in the filter under construction. -/
theorem getElem?_addKey {kss : List (List Slice)} {keys ks : List Slice} {i : Nat} (key : Slice)
    (h : (kss ++ [keys])[i]? = some ks) :
    ∃ ks', (kss ++ [keys ++ [key]])[i]? = some ks' ∧ ∀ k ∈ ks, k ∈ ks' := by
  rcases Nat.lt_or_ge i kss.length with hlt | hge
  · rw [List.getElem?_append_left hlt] at h
    exact ⟨ks, by rw [List.getElem?_append_left hlt]; exact h, fun k hk => hk⟩
  · rw [List.getElem?_append_right hge, List.getElem?_singleton] at h
    split_ifs at h with hi
    refine ⟨keys ++ [key], ?_, fun k hk => ?_⟩
    · rw [List.getElem?_append_right hge, List.getElem?_singleton, if_pos hi]
    · rw [← Option.some.inj h] at hk
      exact List.mem_append_left _ hk

/-- **The steps of the builder keep the keys of its blocks in their filters.** -/
theorem kept_filtersKeys :
    Kept o fun r gs cur => ∃ kss, FiltersKeys o policy r gs cur kss where
  new := by
    refine ⟨[], made_new, (Nat.zero_div _).symm, nofun, ?_⟩
    intro i g hg
    cases hg
  rangeDel := by
    rintro dels r gs cur e h he ⟨kss, hk⟩
    have hsame : (r.add o e.1 e.2).filterBlock = r.filterBlock := by
      rw [TableBuilder.add, if_neg (fun hne => hne h.status), if_pos he]
    exact ⟨kss, hsame ▸ hk.made, hk.length, hsame ▸ hk.waits, hsame ▸ hk.keys⟩
  join := by
    rintro dels r gs cur e h ⟨kss, hk⟩
    have hnew := joined_filterBlock hpolicy r e
    refine ⟨kss, ?_, hk.length, fun x hx => ?_, fun {i g} hg x hx => ?_⟩
    · rw [hnew]
      exact ⟨hk.made.result, hk.made.offsets⟩
    · rw [hnew]
      rcases List.mem_append.mp hx with hx | hx
      · exact List.mem_append_left _ (hk.waits x hx)
      · rw [List.mem_singleton.mp hx]
        exact List.mem_append_right _ (List.mem_singleton_self _)
    · obtain ⟨ks, hks, hmem⟩ := hk.keys hg x hx
      obtain ⟨ks', hks', hsub⟩ := getElem?_addKey e.1 hks
      rw [hnew]
      exact ⟨ks', hks', hsub _ hmem⟩
  flush := by
    rintro dels r gs cur h hcur - ⟨kss, hk⟩
    have hle : kss.length ≤ (dataBytes o (gs ++ [cur])).length / kFilterBase := by
      rw [hk.length, dataBytes_snoc, List.length_append]
      exact Nat.div_le_div_right (Nat.le_add_right _ _)
    obtain ⟨kss', n, hmade, hlen, hall⟩ := hk.made.startBlock hle
    have hold : ∀ {j : Nat} {ks : List Slice}, (kss ++ [r.filterBlock.keys])[j]? = some ks →
        (kss ++ [r.filterBlock.keys] ++ List.replicate n [])[j]? = some ks := by
      intro j ks hj
      rw [List.getElem?_append_left (List.getElem?_eq_some_iff.mp hj).1]
      exact hj
    rw [← flush_filterBlock hpolicy h hcur] at hmade hall
    refine ⟨kss', hmade, hlen, nofun, fun {i g} hg e he => ?_⟩
    rw [hall]
    rcases Nat.lt_or_ge i gs.length with hlt | hge
    · rw [List.getElem?_append_left hlt] at hg
      rw [List.take_append_of_le_length (Nat.le_of_lt hlt)]
      obtain ⟨ks, hks, hmem⟩ := hk.keys hg e he
      exact ⟨ks, hold hks, hmem⟩
    · -- the group that is closed waits in the filter of its offset
      have hi : i = gs.length := by
        have := (List.getElem?_eq_some_iff.mp hg).1
        rw [List.length_append, List.length_singleton] at this
        omega
      rw [hi, List.getElem?_concat_length] at hg
      rw [hi, List.take_left, ← hk.length]
      refine ⟨r.filterBlock.keys, hold List.getElem?_concat_length, hk.waits e ?_⟩
      rw [Option.some.inj hg]
      exact he

/-- **The filter block of a table lets the keys of a data block pass.** -/
theorem filterContents_matches (calls : List (Slice × Slice)) :
    ∃ contents, filterContents o calls = some (policy, contents)
      ∧ (contents.length < 2 ^ 32 → ∀ {i g}, (tableGroups o calls)[i]? = some g → ∀ e ∈ g,
          ∀ key, (∀ ks, e.1 ∈ ks → policy.keyMayMatch key (policy.createFilter ks) = true) →
            (FilterBlockReader.new contents).keyMayMatch policy
              (dataBytes o ((tableGroups o calls).take i)).length key = true) := by
  obtain ⟨-, kss, hk⟩ := (kept_filtersKeys hpolicy).finish calls
  obtain ⟨all, hfinish, hsame⟩ := hk.made.finish
  refine ⟨filterBlock policy all, ?_, fun hsmall {i g} hg e he key hkey => ?_⟩
  · rw [filterContents, hpolicy, Option.map_some, hfinish]
  · obtain ⟨ks, hks, hmem⟩ := hk.keys hg e he
    have hne : ks ≠ [] := List.ne_nil_of_mem hmem
    rw [reader_keyMayMatch hsmall (hsame _ ks hks hne), filterOf, if_neg hne]
    exact hkey ks hmem

end

end Table

end LdbFilterRoundTrip
