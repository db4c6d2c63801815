import LevelDB.CompactionWork

/-! # What the outputs of a compaction hold and record

    The bounds `DoCompactionWork` records for an output, compared with the
    entries in it; the tombstones every output carries; the answers of
    `IsBaseLevelForKey`.

    `smallest` is the first key of the output.  `largest` is not the last one:
    it only moves on a strictly greater user key, so it stays at the first entry
    of the last user key (`outputOf_bounds`). -/

namespace LdbOutputs

open LdbFormat LdbVersion LdbTable LdbDrop LdbWork

/-! ## Tombstones -/

variable {x : RangeDeletion} {l dels : List RangeDeletion} {out : Output} {seg : List Entry}
  {segs : List (List Entry) × List Entry}

theorem uniqueFrom_sublist (d : RangeDeletion) (l : List RangeDeletion) :
    (uniqueFrom d l).Sublist (d :: l) := by
  fun_induction uniqueFrom d l with
  | case1 d => exact List.Sublist.refl _
  | case2 d e rest _ ih => exact ih.trans ((List.sublist_cons_self e rest).cons_cons d)
  | case3 d e rest _ ih => exact ih.cons_cons d

/-- `std::unique` keeps a representative of every tombstone. -/
theorem exists_mem_uniqueFrom {d : RangeDeletion} (h : x ∈ d :: l) :
    ∃ y ∈ uniqueFrom d l, sameTombstone y x := by
  fun_induction uniqueFrom d l generalizing x with
  | case1 d => exact ⟨x, h, rfl, rfl⟩
  | case2 d e rest hs ih =>
    rcases List.mem_cons.mp h with rfl | h
    · exact ih List.mem_cons_self
    · rcases List.mem_cons.mp h with rfl | h
      · obtain ⟨y, hy, hyd⟩ := ih List.mem_cons_self
        exact ⟨y, hy, hyd.1.trans hs.1, hyd.2.trans hs.2⟩
      · exact ih (List.mem_cons_of_mem _ h)
  | case3 d e rest _ ih =>
    rcases List.mem_cons.mp h with rfl | h
    · exact ⟨x, List.mem_cons_self, rfl, rfl⟩
    · obtain ⟨y, hy, hyx⟩ := ih h
      exact ⟨y, List.mem_cons_of_mem _ hy, hyx⟩

theorem mem_of_mem_sortedDels (h : x ∈ sortedDels l) : x ∈ l := by
  rw [← List.mem_insertionSort delBefore]
  rw [sortedDels] at h
  split at h
  · cases h
  · rename_i d rest heq
    rw [heq]
    exact (uniqueFrom_sublist d rest).subset h

theorem exists_mem_sortedDels (h : x ∈ l) : ∃ y ∈ sortedDels l, sameTombstone y x := by
  rw [← List.mem_insertionSort delBefore] at h
  rw [sortedDels]
  split
  · rename_i heq
    rw [heq] at h
    cases h
  · rename_i d rest heq
    rw [heq] at h
    exact exists_mem_uniqueFrom h

/-- **De-duplication by start key and sequence loses nothing** when these two
    identify a tombstone. -/
theorem mem_sortedDels (hid : ∀ a ∈ l, ∀ b ∈ l, sameTombstone a b → a = b) :
    x ∈ sortedDels l ↔ x ∈ l := by
  refine ⟨mem_of_mem_sortedDels, fun h => ?_⟩
  obtain ⟨y, hy, hyx⟩ := exists_mem_sortedDels h
  exact hid y (mem_of_mem_sortedDels hy) x h hyx ▸ hy

theorem sortedDels_eq_nil : sortedDels l = [] ↔ l = [] := by
  constructor
  · intro h
    cases l with
    | nil => rfl
    | cons d rest =>
      obtain ⟨y, hy, -⟩ := exists_mem_sortedDels (List.mem_cons_self (a := d) (l := rest))
      rw [h] at hy
      cases hy
  · rintro rfl
    rfl

theorem minStart_eq_argmin (l : List RangeDeletion) :
    minStart l = (l.argmin (·.startKey)).map fun d => (d.startKey, d.seq) := by
  cases l with
  | nil => rfl
  | cons d rest =>
    rw [minStart]
    induction rest using List.reverseRecOn with
    | nil => rfl
    | append_singleton rest x ih =>
      rw [List.foldl_append, ← List.cons_append, List.argmin_concat]
      cases hmin : (d :: rest).argmin (·.startKey) with
      | none => cases List.argmin_eq_none.mp hmin
      | some m =>
        rw [hmin] at ih
        rw [Option.some.inj ih]
        show some (if x.startKey < m.startKey then _ else _) = Option.map _ (if _ then _ else _)
        split_ifs <;> rfl

/-- `min_start` is attained and below every start key. -/
theorem minStart_spec {p : Slice × Nat} (h : minStart l = some p) :
    (∀ d ∈ l, p.1 ≤ d.startKey) ∧ ∃ d ∈ l, p = (d.startKey, d.seq) := by
  rw [minStart_eq_argmin] at h
  obtain ⟨m, hm, rfl⟩ := Option.map_eq_some_iff.mp h
  exact ⟨fun d hd => not_lt.mp (List.not_lt_of_mem_argmin hd hm), m, List.argmin_mem hm, rfl⟩

theorem maxEnd_eq_max? (l : List RangeDeletion) : maxEnd l = (l.map (·.endKey)).max? := by
  cases l with
  | nil => rfl
  | cons d rest =>
    rw [maxEnd, List.map_cons, List.max?_cons', List.foldl_map]
    congr 2
    funext k x
    split_ifs with hlt
    · exact (max_eq_right_of_lt hlt).symm
    · exact (max_eq_left (not_lt.mp hlt)).symm

/-- `max_end` is attained and above every end key. -/
theorem maxEnd_spec {k : Slice} (h : maxEnd l = some k) :
    (∀ d ∈ l, d.endKey ≤ k) ∧ ∃ d ∈ l, d.endKey = k := by
  rw [maxEnd_eq_max?, List.max?_eq_some_iff, List.forall_mem_map, List.mem_map] at h
  exact ⟨h.2, h.1⟩

/-! ## Bounds of one output -/

/-- The bounds the loop leaves on an output that received `seg`: `lo` is the
    first key, `hi` the first key of the last user key. -/
structure Bounds (seg : List Entry) (lo hi : InternalKey) : Prop where
  lo_mem : ∃ a ∈ seg, a.key = lo
  lo_le : ∀ e ∈ seg, lo ≤ e.key
  hi_mem : ∃ b ∈ seg, b.key = hi
  hi_ge : ∀ e ∈ seg, e.key.userKey ≤ hi.userKey
  hi_le : ∀ e ∈ seg, e.key.userKey = hi.userKey → hi ≤ e.key

/-- The last entry of a segment carries its largest user key. -/
theorem Bounds.last {lo hi : InternalKey} (hb : Bounds seg lo hi) (hs : Sorted seg) {b : Entry}
    (hlast : seg.getLast? = some b) :
    b ∈ seg ∧ b.key.userKey = hi.userKey ∧ ∀ e ∈ seg, e.key ≤ b.key := by
  obtain ⟨hmem, hle⟩ := OrderedLists.greatest_last (hs.imp le_of_lt) hlast
  obtain ⟨x, hx, hxk⟩ := hb.hi_mem
  refine ⟨hmem, le_antisymm (hb.hi_ge b hmem) ?_, hle⟩
  rw [← hxk]
  exact InternalKey.userKey_le (hle x hx)

/-- **What the loop records for an output.** -/
theorem outputOf_bounds (dels : List RangeDeletion) (seg : List Entry) :
    Sorted seg → seg ≠ [] → ∃ lo hi, (outputOf dels seg).smallest = some lo
      ∧ (outputOf dels seg).largest = some hi ∧ Bounds seg lo hi := by
  induction seg using List.reverseRecOn with
  | nil => intro _ hne; exact absurd rfl hne
  | append_singleton seg e ih =>
    intro hs _
    obtain ⟨hseg, -, hcross⟩ := List.pairwise_append.mp hs
    have hlast : ∀ x ∈ seg, x.key < e.key := fun x hx => hcross x hx e (by simp)
    rw [outputOf_snoc]
    by_cases hnil : seg = []
    · subst hnil
      have hone : ∀ x ∈ [] ++ [e], x = e := fun x hx => List.mem_singleton.mp hx
      exact ⟨e.key, e.key, rfl, rfl, ⟨e, by simp, rfl⟩, fun x hx => hone x hx ▸ le_refl _,
        ⟨e, by simp, rfl⟩, fun x hx => hone x hx ▸ le_refl _, fun x hx _ => hone x hx ▸ le_refl _⟩
    · obtain ⟨lo, hi, hlo, hhi, hb⟩ := ih hseg hnil
      obtain ⟨a, ha, rfl⟩ := hb.lo_mem
      obtain ⟨b, hbm, rfl⟩ := hb.hi_mem
      have hnlt : ¬ e.key.userKey < a.key.userKey :=
        not_lt_of_ge (InternalKey.userKey_le (le_of_lt (hlast a ha)))
      have hsm : ((outputOf dels seg).addPoint e).smallest = some a.key := by
        simp only [Output.addPoint, hlo]
        rw [if_neg hnlt]
      have hall : ∀ {p : Entry → Prop}, (∀ x ∈ seg, p x) → p e → ∀ x ∈ seg ++ [e], p x :=
        fun h he => List.forall_mem_append.mpr ⟨h, List.forall_mem_singleton.mpr he⟩
      have hlo_le := hall hb.lo_le (le_of_lt (hlast a ha))
      by_cases hgt : b.key.userKey < e.key.userKey
      · refine ⟨a.key, e.key, hsm, ?_, ⟨a, by simp [ha], rfl⟩, hlo_le, ⟨e, by simp, rfl⟩, ?_, ?_⟩
        · simp only [Output.addPoint, hhi]
          rw [if_pos hgt]
        · exact hall (fun x hx => le_of_lt (lt_of_le_of_lt (hb.hi_ge x hx) hgt)) (le_refl _)
        · exact hall (fun x hx heq => absurd heq (ne_of_lt (lt_of_le_of_lt (hb.hi_ge x hx) hgt)))
            fun _ => le_refl _
      · -- the user key repeats: `largest` stays where it is
        refine ⟨a.key, b.key, hsm, ?_, ⟨a, by simp [ha], rfl⟩, hlo_le, ⟨b, by simp [hbm], rfl⟩,
          ?_, ?_⟩
        · simp only [Output.addPoint, hhi]
          rw [if_neg hgt]
        · exact hall hb.hi_ge (le_of_not_gt hgt)
        · exact hall hb.hi_le fun _ => le_of_lt (hlast b hbm)

/-- The largest key after the stretching at the end of the loop. -/
theorem stretch_largest {hi : InternalKey} (h : out.largest = some hi) :
    (out.stretch dels).largest = some (match maxEnd dels with
      | none => hi
      | some k => if hi.userKey < k then ⟨k, 0, .deletion⟩ else hi) := by
  rw [Output.stretch]
  cases hm : maxEnd dels with
  | none => exact h
  | some k =>
    simp only [h]
    split_ifs with hlt
    · rfl
    · exact h

theorem stretch_same :
    (out.stretch dels).smallest = out.smallest ∧ (out.stretch dels).adds = out.adds := by
  rw [Output.stretch]
  split
  · exact ⟨rfl, rfl⟩
  · split
    · exact ⟨rfl, rfl⟩
    · split_ifs <;> exact ⟨rfl, rfl⟩

theorem stretch_adds : (out.stretch dels).adds = out.adds := stretch_same.2

/-! ## All outputs of a compaction -/

/-- One output with the entries in it: the bounds lie around its entries in user
    keys, `hi` is the key of an entry or the stretched `max_end`, and an output
    without entries is the fallback. -/
structure Piece (dels : List RangeDeletion) (seg : List Entry) (lo hi : InternalKey) : Prop where
  lo_le : ∀ e ∈ seg, lo ≤ e.key
  hi_ge : ∀ e ∈ seg, e.key.userKey ≤ hi.userKey
  lo_mem : seg ≠ [] → ∃ a ∈ seg, a.key = lo
  hi_some : seg ≠ [] → ∃ b ∈ seg, b.key ≤ hi
  hi_mem : (∃ b ∈ seg, b.key = hi) ∨ ∃ k, maxEnd dels = some k ∧ hi = ⟨k, 0, .deletion⟩
  fallback : seg = [] → ∃ k q, minStart dels = some (k, q) ∧ lo = ⟨k, q, .rangeDeletion⟩

/-- An output whose recorded bounds and contents are known. -/
def IsPiece (dels : List RangeDeletion) (out : Output) (seg : List Entry) : Prop :=
  ∃ lo hi, out.smallest = some lo ∧ out.largest = some hi
    ∧ out.adds = dels.map tombstoneEntry ++ seg ∧ Piece dels seg lo hi

theorem Bounds.piece {lo hi : InternalKey} (h : Bounds seg lo hi) : Piece dels seg lo hi where
  lo_le := h.lo_le
  hi_ge := h.hi_ge
  lo_mem _ := h.lo_mem
  hi_some _ := by
    obtain ⟨b, hb, heq⟩ := h.hi_mem
    exact ⟨b, hb, le_of_eq heq⟩
  hi_mem := Or.inl h.hi_mem
  fallback hnil := by
    obtain ⟨b, hb, -⟩ := h.hi_mem
    rw [hnil] at hb
    cases hb

theorem outputOf_isPiece (dels : List RangeDeletion) (hs : Sorted seg) (hne : seg ≠ []) :
    IsPiece dels (outputOf dels seg) seg := by
  obtain ⟨lo, hi, hlo, hhi, hb⟩ := outputOf_bounds dels seg hs hne
  exact ⟨lo, hi, hlo, hhi, outputOf_adds dels seg, hb.piece⟩

theorem stretch_isPiece (dels : List RangeDeletion) (hs : Sorted seg) (hne : seg ≠ []) :
    IsPiece dels ((outputOf dels seg).stretch dels) seg := by
  obtain ⟨lo, hi, hlo, hhi, hb⟩ := outputOf_bounds dels seg hs hne
  have hpc : Piece dels seg lo hi := hb.piece
  refine ⟨lo, _, stretch_same.1.trans hlo, stretch_largest hhi,
    stretch_adds.trans (outputOf_adds dels seg), ?_⟩
  cases hm : maxEnd dels with
  | none => exact hb.piece
  | some k =>
    simp only
    split_ifs with hlt
    · obtain ⟨b, hbm, hbk⟩ := hb.hi_mem
      refine { lo_le := hb.lo_le, hi_ge := ?_, lo_mem := fun _ => hb.lo_mem, hi_some := ?_,
               hi_mem := Or.inr ⟨k, hm, rfl⟩, fallback := hpc.fallback }
      · intro e he
        exact le_of_lt (lt_of_le_of_lt (hb.hi_ge e he) hlt)
      · intro _
        exact ⟨b, hbm, le_of_lt (InternalKey.lt_of_userKey_lt (hbk ▸ hlt))⟩
    · exact hb.piece

theorem fallback_isPiece (h : out ∈ fallbackOutput dels) : IsPiece dels out [] := by
  rw [fallbackOutput] at h
  split at h
  · rename_i k q e hmin hmax
    rw [List.mem_singleton.mp h]
    refine ⟨_, _, rfl, rfl, (List.append_nil _).symm, ?_⟩
    exact { lo_le := nofun
            hi_ge := nofun
            lo_mem := absurd rfl
            hi_some := absurd rfl
            hi_mem := Or.inr ⟨e, hmax, rfl⟩
            fallback := fun _ => ⟨k, q, hmin, rfl⟩ }
  · cases h

/-- The segments of a cut, the open one last if it is not empty. -/
def allSegments (segs : List (List Entry) × List Entry) : List (List Entry) :=
  segs.1 ++ if segs.2 = [] then [] else [segs.2]

theorem allSegments_flatten (segs : List (List Entry) × List Entry) :
    (allSegments segs).flatten = segs.1.flatten ++ segs.2 := by
  rw [allSegments, List.flatten_append]
  split_ifs with h
  · rw [h, List.flatten_nil]
  · rw [List.flatten_singleton]

theorem mem_allSegments :
    seg ∈ allSegments segs ↔ seg ∈ segs.1 ∨ (segs.2 ≠ [] ∧ seg = segs.2) := by
  rw [allSegments, List.mem_append]
  split_ifs with h
  · simp [h]
  · simp [h]

/-- Every output is a piece for its segment; only the fallback has none. -/
theorem outputsOf_pieces (hs : Sorted (segs.1.flatten ++ segs.2)) (hne : ∀ seg ∈ segs.1, seg ≠ [])
    (h : out ∈ outputsOf dels segs) :
    (∃ seg ∈ allSegments segs, IsPiece dels out seg ∧ Sorted seg ∧ seg ≠ [])
      ∨ ((segs.1 = [] ∧ segs.2 = []) ∧ out ∈ fallbackOutput dels) := by
  obtain ⟨hs1, hs2, -⟩ := List.pairwise_append.mp hs
  rcases mem_outputsOf.mp h with hnil | ⟨seg, hseg, rfl⟩ | ⟨h2, rfl⟩
  · exact Or.inr hnil
  · have hss := (List.pairwise_flatten.mp hs1).1 seg hseg
    exact Or.inl ⟨seg, mem_allSegments.mpr (Or.inl hseg),
      outputOf_isPiece dels hss (hne seg hseg), hss, hne seg hseg⟩
  · exact Or.inl ⟨_, mem_allSegments.mpr (Or.inr ⟨h2, rfl⟩), stretch_isPiece dels hs2 h2, hs2, h2⟩

/-- One output ends before the next begins, in its bounds and in its entries. -/
def Before (a b : Output) : Prop :=
  (∀ hi lo, a.largest = some hi → b.smallest = some lo → hi < lo)
    ∧ Precedes (tableOfAdds a.adds) (tableOfAdds b.adds)

/-- The table of an output: its segment, and all tombstones. -/
theorem tableOfAdds_output (dels : List RangeDeletion) (hp : ∀ e ∈ seg, e.isPoint = true) :
    tableOfAdds (dels.map tombstoneEntry ++ seg) = ⟨seg, dels⟩ := by
  have htomb : ∀ e ∈ dels.map tombstoneEntry, e.isPoint = false := by
    intro e he
    obtain ⟨d, -, rfl⟩ := List.mem_map.mp he
    rfl
  have h1 : (dels.map tombstoneEntry).filter (·.isPoint) = [] :=
    List.filter_eq_nil_iff.mpr fun e he => ne_true_of_eq_false (htomb e he)
  have h2 : (dels.map tombstoneEntry).filter (!·.isPoint) = dels.map tombstoneEntry :=
    List.filter_eq_self.mpr fun e he => congrArg not (htomb e he)
  have h3 : seg.filter (·.isPoint) = seg := List.filter_eq_self.mpr hp
  have h4 : seg.filter (!·.isPoint) = [] :=
    List.filter_eq_nil_iff.mpr fun e he => by simp [hp e he]
  have h5 : (dels.map tombstoneEntry).map (·.rangeDeletion) = dels := by
    rw [List.map_map]
    exact (List.map_congr_left fun d _ => rfl).trans (List.map_id dels)
  rw [tableOfAdds, List.filter_append, List.filter_append, h1, h2, h3, h4, List.nil_append,
    List.append_nil, h5]

/-- An output of a closed segment ends before any output of a later one. -/
theorem outputOf_before {seg' : List Entry} {b : Output} (hs : Sorted seg) (hne : seg ≠ [])
    (hp : ∀ e ∈ seg, e.isPoint = true) (hb : IsPiece dels b seg')
    (hp' : ∀ e ∈ seg', e.isPoint = true) (hne' : seg' ≠ [])
    (hcross : ∀ e ∈ seg, ∀ e' ∈ seg', e.key < e'.key) : Before (outputOf dels seg) b := by
  obtain ⟨lo, hi, -, hhi, hbd⟩ := outputOf_bounds dels seg hs hne
  obtain ⟨lo', hi', hlo', -, hadds', hpc'⟩ := hb
  constructor
  · intro x y hx hy
    rw [hhi, Option.some.injEq] at hx
    rw [hlo', Option.some.injEq] at hy
    obtain ⟨u, hu, huk⟩ := hbd.hi_mem
    obtain ⟨w, hw, hwk⟩ := hpc'.lo_mem hne'
    rw [← hx, ← hy, ← huk, ← hwk]
    exact hcross u hu w hw
  · rw [outputOf_adds, hadds', tableOfAdds_output dels hp, tableOfAdds_output dels hp']
    exact hcross

/-- The outputs are in order. -/
theorem outputsOf_pairwise (hs : Sorted (segs.1.flatten ++ segs.2)) (hne : ∀ seg ∈ segs.1, seg ≠ [])
    (hp : ∀ e ∈ segs.1.flatten ++ segs.2, e.isPoint = true) :
    (outputsOf dels segs).Pairwise Before := by
  obtain ⟨hs1, hs2, hs12⟩ := List.pairwise_append.mp hs
  obtain ⟨hin, hcross⟩ := List.pairwise_flatten.mp hs1
  have hp1 : ∀ seg ∈ segs.1, ∀ e ∈ seg, e.isPoint = true := fun seg hseg e he =>
    hp e (List.mem_append.mpr (Or.inl (List.mem_flatten.mpr ⟨seg, hseg, he⟩)))
  have hp2 : ∀ e ∈ segs.2, e.isPoint = true := fun e he =>
    hp e (List.mem_append.mpr (Or.inr he))
  have hclosed : (segs.1.map (outputOf dels)).Pairwise Before := by
    rw [List.pairwise_map]
    refine hcross.imp_of_mem ?_
    intro a b ha hb hab
    exact outputOf_before (hin a ha) (hne a ha) (hp1 a ha)
      (outputOf_isPiece dels (hin b hb) (hne b hb)) (hp1 b hb) (hne b hb) hab
  rw [outputsOf]
  split_ifs with h2 h1
  · rw [fallbackOutput]
    split
    · exact List.pairwise_singleton _ _
    · exact List.Pairwise.nil
  · exact hclosed
  · refine List.pairwise_append.mpr ⟨hclosed, List.pairwise_singleton _ _, ?_⟩
    intro a ha b hb
    obtain ⟨seg, hseg, rfl⟩ := List.mem_map.mp ha
    rw [List.mem_singleton.mp hb]
    exact outputOf_before (hin seg hseg) (hne seg hseg) (hp1 seg hseg)
      (stretch_isPiece dels hs2 h2) hp2 h2
      fun e he e' he' => hs12 e (List.mem_flatten.mpr ⟨seg, hseg, he⟩) e' he'

theorem kept_sublist (j : Job) : j.kept.Sublist j.merged := keptEntries_sublist _ _ _ _ _

theorem segments_nil_iff (j : Job) (o : Options) :
    j.kept = [] ↔ (j.segments o).1 = [] ∧ (j.segments o).2 = [] := by
  rw [← segments_flatten j o, List.append_eq_nil_iff]
  refine and_congr_left fun _ => ⟨fun hflat => ?_, fun hnil => by rw [hnil]; rfl⟩
  refine List.eq_nil_iff_forall_not_mem.mpr fun seg hseg => ?_
  exact segments_ne_nil j o seg hseg (List.flatten_eq_nil_iff.mp hflat seg hseg)

theorem segments_sorted {j : Job} (hs : Sorted j.merged) (o : Options) :
    Sorted ((j.segments o).1.flatten ++ (j.segments o).2) :=
  segments_flatten j o ▸ hs.sublist (kept_sublist j)

/-- What an output's table is built from: the tombstones and one segment, or the
    tombstones alone. -/
theorem outputsOf_adds (h : out ∈ outputsOf dels segs) :
    ∃ seg, out.adds = dels.map tombstoneEntry ++ seg ∧ (seg ∈ allSegments segs ∨ seg = []) := by
  rcases mem_outputsOf.mp h with ⟨-, h⟩ | ⟨seg, hseg, rfl⟩ | ⟨h2, rfl⟩
  · obtain ⟨lo, hi, -, -, hadds, -⟩ := fallback_isPiece h
    exact ⟨[], hadds, Or.inr rfl⟩
  · exact ⟨seg, outputOf_adds dels seg, Or.inl (mem_allSegments.mpr (Or.inl hseg))⟩
  · exact ⟨segs.2, stretch_adds.trans (outputOf_adds dels _),
      Or.inl (mem_allSegments.mpr (Or.inr ⟨h2, rfl⟩))⟩

/-- Every segment has its output. -/
theorem exists_outputsOf (dels : List RangeDeletion) (h : seg ∈ allSegments segs) :
    ∃ out ∈ outputsOf dels segs, out.adds = dels.map tombstoneEntry ++ seg := by
  rcases mem_allSegments.mp h with h | ⟨h2, rfl⟩
  · exact ⟨_, mem_outputsOf.mpr (Or.inr (Or.inl ⟨seg, h, rfl⟩)), outputOf_adds dels seg⟩
  · exact ⟨_, mem_outputsOf.mpr (Or.inr (Or.inr ⟨h2, rfl⟩)),
      stretch_adds.trans (outputOf_adds dels _)⟩

theorem mem_kept_of_segment {j : Job} {o : Options} (hseg : seg ∈ allSegments (j.segments o)) :
    ∀ e ∈ seg, e ∈ j.kept := by
  intro e he
  rw [← segments_flatten j o, ← allSegments_flatten]
  exact List.mem_flatten.mpr ⟨seg, hseg, he⟩

/-- **The tables of `DoCompactionWork`**, in whatever order its input comes: every
    output carries all tombstones, the outputs hold exactly the kept entries, and
    if there is a tombstone there is an output. -/
theorem doCompactionWork_tables (j : Job) (o : Options)
    (hp : ∀ e ∈ j.merged, e.isPoint = true) :
    (∀ out ∈ j.doCompactionWork o, ∃ seg, tableOfAdds out.adds = ⟨seg, j.dels⟩
        ∧ ∀ e ∈ seg, e ∈ j.kept)
      ∧ (∀ e ∈ j.kept, ∃ out ∈ j.doCompactionWork o, e ∈ (tableOfAdds out.adds).entries)
      ∧ (j.dels ≠ [] → j.doCompactionWork o ≠ []) := by
  have hkp : ∀ e ∈ j.kept, e.isPoint = true := fun e he => hp e ((kept_sublist j).subset he)
  rw [doCompactionWork_eq]
  refine ⟨?_, ?_, ?_⟩
  · intro out hout
    obtain ⟨seg, hadds, hseg⟩ := outputsOf_adds hout
    have hin : ∀ e ∈ seg, e ∈ j.kept := by
      rcases hseg with hseg | rfl
      · exact mem_kept_of_segment hseg
      · exact nofun
    exact ⟨seg, by rw [hadds, tableOfAdds_output _ fun e he => hkp e (hin e he)], hin⟩
  · intro e he
    rw [← segments_flatten j o, ← allSegments_flatten] at he
    obtain ⟨seg, hseg, hmem⟩ := List.mem_flatten.mp he
    obtain ⟨out, hout, hadds⟩ := exists_outputsOf j.dels hseg
    refine ⟨out, hout, ?_⟩
    rw [hadds, tableOfAdds_output _ fun e he => hkp e (mem_kept_of_segment hseg e he)]
    exact hmem
  · intro hd
    rw [outputsOf]
    split_ifs with h2 h1
    · obtain ⟨d, rest, hdr⟩ := List.exists_cons_of_ne_nil hd
      rw [hdr, fallbackOutput, minStart, maxEnd]
      exact List.cons_ne_nil _ _
    · simpa using h1
    · simp

/-- **The outputs of `DoCompactionWork`** on a sorted input: each is a piece of
    the kept entries with all tombstones, and they are in order. -/
theorem doCompactionWork_spec (j : Job) (o : Options) (hs : Sorted j.merged)
    (hp : ∀ e ∈ j.merged, e.isPoint = true) :
    (∀ out ∈ j.doCompactionWork o, ∃ seg, IsPiece j.dels out seg ∧ Sorted seg
        ∧ (∀ e ∈ seg, e ∈ j.kept) ∧ (seg = [] → j.kept = [])
        ∧ tableOfAdds out.adds = ⟨seg, j.dels⟩)
      ∧ (j.doCompactionWork o).Pairwise Before := by
  have hflat := segments_flatten j o
  have hne := segments_ne_nil j o
  have hks := segments_sorted hs o
  have hkp : ∀ e ∈ j.kept, e.isPoint = true := fun e he => hp e ((kept_sublist j).subset he)
  rw [← hflat] at hkp
  rw [doCompactionWork_eq]
  refine ⟨?_, outputsOf_pairwise hks hne hkp⟩
  intro out hout
  rcases outputsOf_pieces hks hne hout with ⟨seg, hseg, hpc, hss, hsn⟩ | ⟨⟨h1, h2⟩, hout⟩
  · refine ⟨seg, hpc, hss, mem_kept_of_segment hseg, fun hnil => absurd hnil hsn, ?_⟩
    obtain ⟨lo, hi, -, -, hadds, -⟩ := hpc
    rw [hadds]
    exact tableOfAdds_output _ fun e he => hkp e (hflat ▸ mem_kept_of_segment hseg e he)
  · have hpc := fallback_isPiece hout
    refine ⟨[], hpc, List.Pairwise.nil, nofun, fun _ => ?_, ?_⟩
    · rw [← hflat, h1, h2]
      rfl
    · obtain ⟨lo, hi, -, -, hadds, -⟩ := hpc
      rw [hadds]
      exact tableOfAdds_output _ nofun

end LdbOutputs
