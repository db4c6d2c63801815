import LevelDB.FilterRoundTrip
import LevelDB.InternalKeyComparator
import LevelDB.Table
import LevelDB.TableKeys

/-! # Looking up a key in a table file

    `Table::InternalGet` (`table/table.cc`) on the bytes of a table.  The index leads
    to one data block, the filter may turn the key away, and the block is searched;
    the range deletions of the table are asked once for the entry found, and once
    more if none was found.

    The keys of the index are shortened, so the block they lead to need not hold a
    key that is not smaller than the one looked up; it is then the last block before a
    larger user key (`Separates`). -/

namespace LdbTableGet

open LdbFormat LdbComparator LdbEnv LdbBlock LdbFilterBlock LdbTableFormat LdbTableBuilder
open LdbTableReader LdbTableLayout LdbTableRoundTrip LdbFilterRoundTrip LdbInternalKey LdbEditCodec
open LdbTableKeys LdbTable Tiered Cursors

/-! ## The lookup -/

/-- What the search of the data blocks came to: a status, the calls of
    `handle_result`, and whether an entry of the key was found. -/
structure Found where
  status : Status
  results : List (Slice × Slice)
  pointKeyFound : Bool

section InternalGet

variable (t : LdbTableReader.Table)

/-- `IsDeleted` of the range deletions of the table, if it has any. -/
def rangeDeleted (userKey : Slice) (foundSeq readSeq : Nat) : Bool :=
  match t.rangeDeletions with
  | none => false
  | some dels => isDeleted dels userKey foundSeq readSeq

/-- The filter of the table turns the key away from the block of an index entry. -/
def filterRejects (k handleValue : Slice) : Bool :=
  match t.filter, t.options.filterPolicy with
  | some filter, some policy =>
    match BlockHandle.decodeFrom handleValue with
    | .ok (handle, _) => !filter.keyMayMatch policy handle.offset k
    | .error _ => false
  | _, _ => false

/-- The part of `InternalGet` that looks at the position of the block iterator. -/
def foundAt (k : Slice) (it : AnyIter) : Found :=
  if (iterOps t.options.comparator).valid it = true
      ∧ extractUserKey ((iterOps t.options.comparator).key it) = extractUserKey k then
    if rangeDeleted t (extractUserKey ((iterOps t.options.comparator).key it))
        (extractTag ((iterOps t.options.comparator).key it) / 256) (extractTag k / 256) = true then
      ⟨.notFound "", [], true⟩
    else
      ⟨(iterOps t.options.comparator).status it,
        [((iterOps t.options.comparator).key it, (iterOps t.options.comparator).value it)], true⟩
  else ⟨(iterOps t.options.comparator).status it, [], false⟩

/-- The part of `InternalGet` that follows the index. -/
def searchBlock (verifyChecksums : Bool) (k : Slice) (iiter : AnyIter) : Found :=
  if (iterOps t.options.comparator).valid iiter = true then
    if filterRejects t k ((iterOps t.options.comparator).value iiter) = true then ⟨.ok, [], false⟩
    else
      foundAt t k ((iterOps t.options.comparator).seek k
        (t.blockReader verifyChecksums ((iterOps t.options.comparator).value iiter)))
  else ⟨.ok, [], false⟩

/-- The end of `InternalGet`: without an entry the key may still be covered. -/
def conclude (k : Slice) (found : Found) (indexStatus : Status) :
    Status × List (Slice × Slice) :=
  (if found.status ≠ .ok then found.status
   else if indexStatus ≠ .ok then indexStatus
   else if found.pointKeyFound = false
      ∧ rangeDeleted t (extractUserKey k) 0 (extractTag k / 256) = true then .notFound ""
   else .ok,
   found.results)

/-- `Table::InternalGet`: its status, and the calls of `handle_result`. -/
def internalGet (verifyChecksums : Bool) (k : Slice) : Status × List (Slice × Slice) :=
  conclude t k
    (searchBlock t verifyChecksums k
      ((iterOps t.options.comparator).seek k t.indexBlock.newIterator))
    ((iterOps t.options.comparator).status
      ((iterOps t.options.comparator).seek k t.indexBlock.newIterator))

end InternalGet

/-! ## The groups of a table of entries -/

section Groups

variable {o : TableOptions}

theorem exists_unflatten {α β : Type} {f : α → β} (gs : List (List β)) :
    ∀ es : List α, gs.flatten = es.map f →
      ∃ G : List (List α), gs = G.map (List.map f) ∧ G.flatten = es := by
  induction gs with
  | nil =>
    intro es h
    exact ⟨[], rfl, (List.map_eq_nil_iff.mp h.symm).symm⟩
  | cons g gs ih =>
    intro es h
    rw [List.flatten_cons] at h
    obtain ⟨es₁, es₂, rfl, hg, hrest⟩ := List.map_eq_append_iff.mp h.symm
    obtain ⟨G, rfl, hG⟩ := ih es₂ hrest.symm
    exact ⟨es₁ :: G, by rw [List.map_cons, hg], by rw [List.flatten_cons, hG]⟩

theorem groups_ne_nil (es : List (Slice × Slice)) :
    ∀ open_, ∀ g ∈ groups o open_ es, g ≠ [] := by
  induction es with
  | nil =>
    intro open_ g hg
    rw [groups] at hg
    split_ifs at hg with hopen
    · cases hg
    · rw [List.mem_singleton.mp hg]
      exact hopen
  | cons e es ih =>
    intro open_ g hg
    rw [groups] at hg
    split_ifs at hg
    · rcases List.mem_cons.mp hg with rfl | hg
      · simp
      · exact ih _ g hg
    · exact ih _ g hg

/-- The data blocks of a table of entries are groups of its points. -/
theorem exists_groups {calls : List Entry}
    (hseq : ∀ e ∈ calls, e.key.sequence ≤ kMaxSequenceNumber) :
    ∃ G : List (List Entry), tableGroups o (calls.map wire) = G.map (List.map wire)
      ∧ G.flatten = calls.filter (·.isPoint) ∧ ∀ g ∈ G, g ≠ [] := by
  obtain ⟨G, hG, hflat⟩ := exists_unflatten (f := wire) (tableGroups o (calls.map wire))
    (calls.filter (·.isPoint)) (by
      rw [tableGroups, flatten_groups, List.nil_append, points_wire hseq])
  refine ⟨G, hG, hflat, fun g hg hnil => ?_⟩
  refine groups_ne_nil (o := o) (points (calls.map wire)) [] (g.map wire) ?_ (by rw [hnil]; rfl)
  show g.map wire ∈ tableGroups o (calls.map wire)
  rw [hG]
  exact List.mem_map_of_mem hg

end Groups

/-! ## The index -/

section Index

variable {o : TableOptions}

/-- **The index key `s` separates a group from what follows it.**  A lookup between the
    group and its index key is for a user key that no later entry has. -/
structure Separates (s : InternalKey) (g later : List Entry) : Prop where
  sequence : s.sequence ≤ kMaxSequenceNumber
  upper : ∀ e ∈ g, e.key ≤ s
  lower : ∀ e ∈ later, s < e.key
  gap : ∀ {k r}, r < kMaxSequenceNumber → (∀ e ∈ g, e.key < lookupKey k r) →
    lookupKey k r ≤ s → ∀ e ∈ later, k < e.key.userKey

theorem lastKeyOf_wire (g : List Entry) (e : Entry) :
    lastKeyOf ((g ++ [e]).map wire) = encodeKey e.key := by
  rw [List.map_append, List.map_singleton, lastKeyOf_snoc]
  rfl

/-- The index key of a group, before the next one or at the end. -/
theorem indexKey_separates (hcmp : o.comparator = dbComparator) {g : List Entry} (hg : g ≠ [])
    {G : List (List Entry)} (hne : ∀ g' ∈ G, g' ≠ []) (hsorted : Sorted (g ++ G.flatten))
    (hseq : ∀ e ∈ g ++ G.flatten, e.key.sequence ≤ kMaxSequenceNumber) :
    ∃ s, indexKey o (g.map wire) (keyAfter (G.map (List.map wire)) none) = encodeKey s
      ∧ Separates s g G.flatten := by
  obtain ⟨init, last, rfl⟩ : ∃ init last, g = init ++ [last] :=
    ⟨_, _, (List.dropLast_append_getLast hg).symm⟩
  have hlast : last.key.sequence ≤ kMaxSequenceNumber := hseq last (by simp)
  have hinit : ∀ e ∈ init ++ [last], e.key ≤ last.key :=
    (OrderedLists.greatest_last ((List.pairwise_append.mp hsorted).1.imp le_of_lt) (by simp)).2
  cases G with
  | nil =>
    obtain ⟨s, heq, hs, hle⟩ := successor_encodeKey hlast
    refine ⟨s, ?_, hs, fun e he => le_trans (hinit e he) hle,
      nofun, fun _ _ _ => nofun⟩
    show o.comparator.findShortSuccessor (lastKeyOf _) = _
    rw [lastKeyOf_wire, hcmp, heq]
  | cons g' G =>
    obtain ⟨next, rest, rfl⟩ := List.exists_cons_of_ne_nil (hne g' List.mem_cons_self)
    have hafter : ∀ e ∈ (next :: rest) ++ G.flatten, next.key ≤ e.key :=
      (OrderedLists.least_head ((List.pairwise_append.mp hsorted).2.1.imp le_of_lt) rfl).2
    have hlt : last.key < next.key :=
      (List.pairwise_append.mp hsorted).2.2 last (by simp) next List.mem_cons_self
    obtain ⟨s, heq, hs, hle, hsn, hor⟩ := separator_encodeKey hlast hlt
    refine ⟨s, ?_, hs, fun e he => le_trans (hinit e he) hle,
      fun e he => lt_of_lt_of_le hsn (hafter e he), fun hr hbelow hles e he => ?_⟩
    · show o.comparator.findShortestSeparator (lastKeyOf _) (encodeKey next.key) = _
      rw [lastKeyOf_wire, hcmp, heq]
    · exact lt_of_lt_of_le (lookup_between hr hor hsn (hbelow last (by simp)) hles)
        (InternalKey.userKey_le (hafter e he))

/-- **The entries `ps` of the index lead to the groups `G`**, with `later` behind
    them. -/
inductive Indexed (later : List Entry) : List (Slice × Slice) → List (List Entry) → Prop
  | nil : Indexed later [] []
  | cons {p : Slice × Slice} {s : InternalKey} {g : List Entry} {ps : List (Slice × Slice)}
      {G : List (List Entry)} (hkey : p.1 = encodeKey s)
      (hsep : Separates s g (G.flatten ++ later)) (hrest : Indexed later ps G) :
      Indexed later (p :: ps) (g :: G)

theorem indexEntries_indexed (hcmp : o.comparator = dbComparator) (G : List (List Entry)) :
    ∀ offset, (∀ g ∈ G, g ≠ []) → Sorted G.flatten →
      (∀ e ∈ G.flatten, e.key.sequence ≤ kMaxSequenceNumber) →
      Indexed [] (indexEntries o none offset (G.map (List.map wire))) G := by
  induction G with
  | nil => exact fun _ _ _ _ => .nil
  | cons g G ih =>
    intro offset hne hsorted hseq
    rw [List.flatten_cons] at hsorted hseq
    obtain ⟨hg, hne⟩ := List.forall_mem_cons.mp hne
    obtain ⟨s, hkey, hsep⟩ := indexKey_separates hcmp hg hne hsorted hseq
    exact .cons hkey ((List.append_nil _).symm ▸ hsep)
      (ih _ hne (List.pairwise_append.mp hsorted).2.1 fun e he =>
        hseq e (List.mem_append_right _ he))

section Indexed

variable {later : List Entry} {ps : List (Slice × Slice)} {G : List (List Entry)}

/-- The key of an index entry bounds one of the groups. -/
theorem Indexed.bound (h : Indexed later ps G) :
    ∀ p ∈ ps, ∃ s, p.1 = encodeKey s ∧ s.sequence ≤ kMaxSequenceNumber
      ∧ ∃ g ∈ G, ∀ e ∈ g, e.key ≤ s := by
  induction h with
  | nil => exact nofun
  | @cons p s g ps G hkey hsep _ ih =>
    refine List.forall_mem_cons.mpr
      ⟨⟨s, hkey, hsep.sequence, g, List.mem_cons_self, hsep.upper⟩, fun q hq => ?_⟩
    obtain ⟨s', hkey', hseq, g', hg', hle⟩ := ih q hq
    exact ⟨s', hkey', hseq, g', List.mem_cons_of_mem _ hg', hle⟩

/-- The keys of the index are in order. -/
theorem Indexed.sorted (h : Indexed later ps G) (hne : ∀ g ∈ G, g ≠ []) :
    ps.Pairwise fun a b => dbComparator.compare a.1 b.1 = .lt := by
  induction h with
  | nil => exact List.Pairwise.nil
  | cons hkey hsep hrest ih =>
    obtain ⟨-, hne⟩ := List.forall_mem_cons.mp hne
    refine List.pairwise_cons.mpr ⟨fun q hq => ?_, ih hne⟩
    obtain ⟨s', hkey', hseq', g', hg', hle⟩ := hrest.bound q hq
    obtain ⟨e, he⟩ := List.exists_mem_of_ne_nil _ (hne g' hg')
    have hlt := hsep.lower e (List.mem_append_left _ (List.mem_flatten.mpr ⟨g', hg', he⟩))
    rw [hkey, hkey', compare_encodeKey_lt hsep.sequence hseq']
    exact lt_of_lt_of_le hlt (hle e he)

/-- Groups whose index keys are all smaller than the target hold smaller keys only. -/
theorem Indexed.smaller (h : Indexed later ps G) {target : InternalKey}
    (ht : target.sequence ≤ kMaxSequenceNumber)
    (hall : ∀ p ∈ ps, dbComparator.compare p.1 (encodeKey target) = .lt) :
    ∀ e ∈ G.flatten, e.key < target := by
  induction h with
  | nil => exact nofun
  | cons hkey hsep _ ih =>
    obtain ⟨hfirst, hall⟩ := List.forall_mem_cons.mp hall
    rw [hkey, compare_encodeKey_lt hsep.sequence ht] at hfirst
    rw [List.flatten_cons]
    exact List.forall_mem_append.mpr
      ⟨fun e he => lt_of_le_of_lt (hsep.upper e he) hfirst, ih hall⟩

/-- An entry of the index, and the group it leads to. -/
theorem Indexed.split {p : Slice × Slice} {after : List (Slice × Slice)}
    (before : List (Slice × Slice)) :
    ∀ {G : List (List Entry)}, Indexed later (before ++ p :: after) G →
      ∃ G₁ s g G₂, G = G₁ ++ g :: G₂ ∧ before.length = G₁.length ∧ p.1 = encodeKey s
        ∧ Separates s g (G₂.flatten ++ later)
        ∧ Indexed (g ++ (G₂.flatten ++ later)) before G₁ := by
  induction before with
  | nil =>
    rintro _ (_ | ⟨hkey, hsep, -⟩)
    exact ⟨[], _, _, _, rfl, rfl, hkey, hsep, .nil⟩
  | cons q before ih =>
    rintro _ (_ | ⟨hkey, hsep, hrest⟩)
    obtain ⟨G₁, s, g, G₂, rfl, hlen, hp, hs, hfront⟩ := ih hrest
    refine ⟨_ :: G₁, s, g, G₂, rfl, congrArg Nat.succ hlen, hp, hs, .cons hkey ?_ hfront⟩
    rw [List.flatten_append, List.flatten_cons, List.append_assoc, List.append_assoc] at hsep
    exact hsep

end Indexed

end Index

/-! ## A search in a block -/

variable {c : Cursor (Slice × Slice)}

/-- **`Seek` in a block**: behind all entries, or at the first whose key is not
    smaller. -/
theorem seek_opened {es : List (Slice × Slice)}
    (hes : es.Pairwise fun a b => dbComparator.compare a.1 b.1 = .lt) (target : Slice)
    {it : AnyIter} (h : Opened es it c) :
    (iterOps dbComparator).status ((iterOps dbComparator).seek target it) = .ok
      ∧ (((iterOps dbComparator).valid ((iterOps dbComparator).seek target it) = false
            ∧ ∀ e ∈ es, dbComparator.compare e.1 target = .lt)
        ∨ ∃ before p after, es = before ++ p :: after
            ∧ (∀ e ∈ before, dbComparator.compare e.1 target = .lt)
            ∧ dbComparator.compare p.1 target ≠ .lt
            ∧ (iterOps dbComparator).valid ((iterOps dbComparator).seek target it) = true
            ∧ (iterOps dbComparator).key ((iterOps dbComparator).seek target it) = p.1
            ∧ (iterOps dbComparator).value ((iterOps dbComparator).seek target it) = p.2) := by
  have hR := refines_opened hes
  have hseek := hR.seek h target
  have hvalid := hR.valid hseek
  refine ⟨hR.status hseek, ?_⟩
  cases hdrop : es.dropWhile fun e => dbComparator.compare e.1 target == .lt with
  | nil =>
    rw [Cursor.valid, Cursor.seek_right, h.contents, hdrop] at hvalid
    refine Or.inl ⟨hvalid, fun e he => ?_⟩
    exact beq_iff_eq.mp (List.dropWhile_eq_nil_iff.mp hdrop e he)
  | cons p after =>
    rw [Cursor.valid, Cursor.seek_right, h.contents, hdrop] at hvalid
    have hcur := hR.current (k := p.1) (v := p.2) hseek (by
      rw [Cursor.current, Cursor.seek_right, h.contents, hdrop]
      rfl)
    refine Or.inr ⟨es.takeWhile fun e => dbComparator.compare e.1 target == .lt, p, after, ?_,
      fun e he => ?_, fun hlt => ?_, hvalid, hcur.1, hcur.2⟩
    · rw [← hdrop, List.takeWhile_append_dropWhile]
    · have hpass := List.mem_takeWhile_imp he
      exact beq_iff_eq.mp hpass
    · have hhead := List.head?_dropWhile_not
        (fun e : Slice × Slice => dbComparator.compare e.1 target == .lt) es
      rw [hdrop] at hhead
      simp [hlt] at hhead

/-! ## The lookup finds the newest entry -/

/-- **What the lookups need of a table**: the comparator of the database, a policy without
    false negatives if there is one, points in their order, and sizes that can be
    represented. -/
structure Stored (o : TableOptions) (calls : List Entry) : Prop where
  comparator : o.comparator = dbComparator
  policy : ∀ policy, o.filterPolicy = some policy →
    ∃ user, policy = internalFilterPolicy user ∧ NoFalseNegatives user
  interval : 1 ≤ o.blockRestartInterval
  codecs : o.codecs.Sound o.compression
  sequences : ∀ e ∈ calls, e.key.sequence ≤ kMaxSequenceNumber
  sorted : Sorted (calls.filter (·.isPoint))
  fits : Fits o (calls.map wire)
  filter : ∀ f, filterContents o (calls.map wire) = some f → f.2.length < 2 ^ 32

section Lookup

variable {o : TableOptions} {calls : List Entry} {k : Slice} {r : Nat}

/-- The check of the range deletions of the table. -/
theorem rangeDeleted_iff (h : Stored o calls) {q : Nat} :
    rangeDeleted (openedTable o (calls.map wire)) k q r = true ↔ CoveredAbove calls k q r := by
  have hdels := tombstones_wire h.sequences
  rw [← isDeleted_iff_coveredAbove, ← hdels, rangeDeleted]
  show (match tombstones (calls.map wire) with
    | none => false
    | some dels => isDeleted dels k q r) = true ↔ _
  cases tombstones (calls.map wire) with
  | none => exact Iff.rfl
  | some dels => exact Iff.rfl

/-- **The filter does not turn away a key of the block.** -/
theorem filterRejects_false (h : Stored o calls) {i : Nat} {p : Slice × Slice}
    {g : List (Slice × Slice)}
    (hp : (indexEntries o none 0 (tableGroups o (calls.map wire)))[i]? = some p)
    (hg : (tableGroups o (calls.map wire))[i]? = some g) {e : Entry} (he : wire e ∈ g)
    (hk : e.key.userKey = k) :
    filterRejects (openedTable o (calls.map wire)) (encodeKey (lookupKey k r)) p.2 = false := by
  cases hpolicy : o.filterPolicy with
  | none =>
    have hnone : (openedTable o (calls.map wire)).filter = none := by
      show tableFilter o (calls.map wire) = none
      rw [tableFilter, filterContents, hpolicy]
      rfl
    rw [filterRejects, hnone]
  | some policy =>
    obtain ⟨user, huser, hnofalse⟩ := h.policy policy hpolicy
    obtain ⟨contents, hcontents, hmatch⟩ := filterContents_matches hpolicy (calls.map wire)
    have hfilter : (openedTable o (calls.map wire)).filter
        = some (FilterBlockReader.new contents) := by
      show tableFilter o (calls.map wire) = _
      rw [tableFilter, hcontents]
      rfl
    have hopt : (openedTable o (calls.map wire)).options.filterPolicy = some policy := hpolicy
    obtain ⟨after, hsplit⟩ := tableBytes_data o (calls.map wire)
    have hat : tableBytes o (calls.map wire)
        = dataBytes o ((tableGroups o (calls.map wire)).take i)
          ++ storedBlock o (blockOf o g).finish
          ++ (dataBytes o ((tableGroups o (calls.map wire)).drop (i + 1)) ++ after) := by
      rw [hsplit, dataBytes_split _ hg, List.append_assoc]
    obtain ⟨hoffset, hsize⟩ := handleOf_fits hat h.fits.file
    have hhandle := indexEntries_handle none (tableGroups o (calls.map wire)) hp hg
    rw [Nat.zero_add] at hhandle
    have hpass := hmatch (h.filter _ hcontents) hg (wire e) he (encodeKey (lookupKey k r))
      fun ks hmem => by
        rw [huser]
        refine internalFilterPolicy_matches hnofalse hmem ?_
        rw [extractUserKey_encodeKey]
        exact hk.symm.trans (extractUserKey_encodeKey e.key).symm
    rw [filterRejects, hfilter, hopt, hhandle, ← List.append_nil (BlockHandle.encode _),
      BlockHandle.decodeFrom_encode hoffset hsize]
    simp only [handleOf]
    rw [hpass]
    rfl

/-- `p` is the newest Put or Delete of `k` as of sequence `r`: the first one in the order
    of internal keys. -/
structure NewestEntry (es : List Entry) (k : Slice) (r : Nat) (p : Entry) : Prop where
  mem : p ∈ es
  point : p.isPoint = true
  key : p.key.userKey = k
  readable : p.key.sequence ≤ r
  newest : ∀ q ∈ es, q.isPoint = true → q.key.userKey = k → q.key.sequence ≤ r →
    p.key ≤ q.key

/-- The first entry of a list from the lookup key on, if it is one of the key. -/
structure First (es : List Entry) (k : Slice) (r : Nat) (p : Entry) : Prop where
  mem : p ∈ es
  key : p.key.userKey = k
  from_ : lookupKey k r ≤ p.key
  least : ∀ e ∈ es, lookupKey k r ≤ e.key → p.key ≤ e.key

/-- No entry of the list is one of the key that can be read. -/
def NoneFrom (es : List Entry) (k : Slice) (r : Nat) : Prop :=
  ∀ e ∈ es, lookupKey k r ≤ e.key → e.key.userKey ≠ k

/-- What is found for an entry of the key. -/
def foundFor (o : TableOptions) (calls : List Entry) (k : Slice) (r : Nat) (e : Entry) : Found :=
  if rangeDeleted (openedTable o (calls.map wire)) k e.key.sequence r = true then
    ⟨.notFound "", [], true⟩
  else ⟨.ok, [wire e], true⟩

/-- What a search comes to that looks at these entries. -/
def FoundIn (o : TableOptions) (calls es : List Entry) (k : Slice) (r : Nat) (found : Found) :
    Prop :=
  (NoneFrom es k r ∧ found = ⟨.ok, [], false⟩)
    ∨ ∃ e, First es k r e ∧ found = foundFor o calls k r e

/-- **The search of one block.** -/
theorem foundAt_block (h : Stored o calls) (hr : r < kMaxSequenceNumber) {g : List Entry}
    (hsorted : Sorted g) (hseq : ∀ e ∈ g, e.key.sequence ≤ kMaxSequenceNumber) {block : AnyIter}
    (hc : Opened (g.map wire) block c) :
    FoundIn o calls g k r (foundAt (openedTable o (calls.map wire)) (encodeKey (lookupKey k r))
      ((iterOps o.comparator).seek (encodeKey (lookupKey k r)) block)) := by
  have htarget : (lookupKey k r).sequence ≤ kMaxSequenceNumber := Nat.le_of_lt hr
  have hes : (g.map wire).Pairwise fun a b => dbComparator.compare a.1 b.1 = .lt :=
    List.pairwise_map.mpr (hsorted.imp_of_mem fun ha hb hab =>
      (compare_encodeKey_lt (hseq _ ha) (hseq _ hb)).mpr hab)
  have hlt : ∀ e ∈ g, dbComparator.compare (wire e).1 (encodeKey (lookupKey k r)) = .lt ↔
      e.key < lookupKey k r := fun e he => compare_encodeKey_lt (hseq e he) htarget
  obtain ⟨hstatus, hpos⟩ := seek_opened hes (encodeKey (lookupKey k r)) hc
  have hopt : (openedTable o (calls.map wire)).options.comparator = dbComparator := h.comparator
  rw [h.comparator, foundAt, hopt]
  generalize (iterOps dbComparator).seek (encodeKey (lookupKey k r)) block = it at hstatus hpos
  rcases hpos with ⟨hinvalid, hall⟩ | ⟨before, p, after, hsplit, hbefore, hat, hvalid, hkey, hvalue⟩
  · refine Or.inl ⟨fun e he hle => ?_, by rw [if_neg (by rw [hinvalid]; simp), hstatus]⟩
    exact absurd ((hlt e he).mp (hall _ (List.mem_map_of_mem he))) (not_lt_of_ge hle)
  · -- the iterator stands on an entry of the group
    obtain ⟨g₁, rest, rfl, rfl, hrest⟩ := List.map_eq_append_iff.mp hsplit
    obtain ⟨e, g₂, rfl, rfl, -⟩ := List.map_eq_cons_iff.mp hrest
    have hmem : e ∈ g₁ ++ e :: g₂ := by simp
    have hfrom : lookupKey k r ≤ e.key := le_of_not_gt fun hk => hat ((hlt e hmem).mpr hk)
    have hleast : ∀ x ∈ g₁ ++ e :: g₂, lookupKey k r ≤ x.key → e.key ≤ x.key := by
      refine List.forall_mem_append.mpr ⟨fun x hx hle => ?_, List.forall_mem_cons.mpr
        ⟨fun _ => le_refl _, fun x hx _ => ?_⟩⟩
      · have hxl := (hlt x (List.mem_append_left _ hx)).mp (hbefore _ (List.mem_map_of_mem hx))
        exact absurd hxl (not_lt_of_ge hle)
      · exact le_of_lt ((List.pairwise_cons.mp (List.pairwise_append.mp hsorted).2.1).1 x hx)
    have huser : extractUserKey ((iterOps dbComparator).key it) = e.key.userKey := by
      rw [hkey]
      exact extractUserKey_encodeKey e.key
    rw [huser, extractUserKey_encodeKey]
    by_cases hk : e.key.userKey = k
    · refine Or.inr ⟨e, ⟨hmem, hk, hfrom, hleast⟩, ?_⟩
      rw [if_pos ⟨hvalid, hk⟩, hkey, hvalue, hstatus]
      show (if rangeDeleted _ e.key.userKey (extractTag (encodeKey e.key) / 256)
        (extractTag (encodeKey (lookupKey k r)) / 256) = true then _ else _) = _
      rw [(extractTag_parts (hseq e hmem)).1, (extractTag_parts htarget).1, foundFor, hk]
      rfl
    · refine Or.inl ⟨fun x hx hle heq => ?_, ?_⟩
      · have hle' := InternalKey.userKey_le (hleast x hx hle)
        rw [heq] at hle'
        exact hk (le_antisymm hle' (InternalKey.userKey_le hfrom))
      · rw [if_neg (fun hand => hk hand.2), hstatus]

/-- The block the index leads to decides for the whole table. -/
theorem Separates.lift {s : InternalKey} {before g later : List Entry} (hsep : Separates s g later)
    (hr : r < kMaxSequenceNumber)
    (hbefore : ∀ e ∈ before, e.key < lookupKey k r) (hs : lookupKey k r ≤ s) :
    (NoneFrom g k r → NoneFrom (before ++ (g ++ later)) k r)
      ∧ ∀ e, First g k r e → First (before ++ (g ++ later)) k r e := by
  constructor
  · intro hnone x hx hle
    rcases List.mem_append.mp hx with hx | hx
    · exact absurd (hbefore x hx) (not_lt_of_ge hle)
    rcases List.mem_append.mp hx with hx | hx
    · exact hnone x hx hle
    by_cases hall : ∀ e ∈ g, e.key < lookupKey k r
    · -- the lookup falls between the group and its index key
      exact (ne_of_lt (hsep.gap hr hall hs x hx)).symm
    · push Not at hall
      obtain ⟨e, he, hle'⟩ := hall
      have hex : e.key.userKey ≤ x.key.userKey := InternalKey.userKey_le
        (le_of_lt (lt_of_le_of_lt (hsep.upper e he) (hsep.lower x hx)))
      have hke : k < e.key.userKey :=
        lt_of_le_of_ne (InternalKey.userKey_le hle') (hnone e he hle').symm
      exact (ne_of_lt (lt_of_lt_of_le hke hex)).symm
  · intro e he
    refine ⟨by simp [he.mem], he.key, he.from_, fun x hx hle => ?_⟩
    rcases List.mem_append.mp hx with hx | hx
    · exact absurd (hbefore x hx) (not_lt_of_ge hle)
    rcases List.mem_append.mp hx with hx | hx
    · exact he.least x hx hle
    · exact le_of_lt (lt_of_le_of_lt (hsep.upper e he.mem) (hsep.lower x hx))

/-- **The search of the table.** -/
theorem searchBlock_cases (h : Stored o calls) (hr : r < kMaxSequenceNumber) (verify : Bool)
    {iiter : AnyIter}
    (hc : Opened (indexEntries o none 0 (tableGroups o (calls.map wire))) iiter c) :
    (iterOps o.comparator).status
        ((iterOps o.comparator).seek (encodeKey (lookupKey k r)) iiter) = .ok
      ∧ FoundIn o calls (calls.filter (·.isPoint)) k r
          (searchBlock (openedTable o (calls.map wire)) verify (encodeKey (lookupKey k r))
            ((iterOps o.comparator).seek (encodeKey (lookupKey k r)) iiter)) := by
  obtain ⟨G, hG, hflat, hne⟩ := exists_groups (o := o) h.sequences
  have hseq : ∀ e ∈ G.flatten, e.key.sequence ≤ kMaxSequenceNumber := by
    intro e he
    rw [hflat] at he
    exact h.sequences e (List.mem_filter.mp he).1
  have hsorted : Sorted G.flatten := hflat ▸ h.sorted
  have hindex := indexEntries_indexed h.comparator G 0 hne hsorted hseq
  rw [← hG] at hindex
  have htarget : (lookupKey k r).sequence ≤ kMaxSequenceNumber := Nat.le_of_lt hr
  obtain ⟨hstatus, hpos⟩ := seek_opened (hindex.sorted hne) (encodeKey (lookupKey k r)) hc
  have hopt : (openedTable o (calls.map wire)).options.comparator = dbComparator := h.comparator
  rw [h.comparator, ← hflat, searchBlock, hopt]
  generalize (iterOps dbComparator).seek (encodeKey (lookupKey k r)) iiter = it at hstatus hpos
  refine ⟨hstatus, ?_⟩
  rcases hpos with ⟨hinvalid, hall⟩ | ⟨before, p, after, hsplit, hbefore, hat, hvalid, -, hvalue⟩
  · refine Or.inl ⟨fun e he hle => ?_, by rw [if_neg (by rw [hinvalid]; exact Bool.false_ne_true)]⟩
    exact absurd (hindex.smaller htarget hall e he) (not_lt_of_ge hle)
  · rw [hsplit] at hindex
    obtain ⟨G₁, s, g, G₂, rfl, hlen, hkey, hsep, hfront⟩ := hindex.split
    have hentry : (indexEntries o none 0 (tableGroups o (calls.map wire)))[G₁.length]? = some p := by
      rw [hsplit, ← hlen]
      simp
    have hgroup : (tableGroups o (calls.map wire))[G₁.length]? = some (g.map wire) := by
      rw [hG]
      simp
    have hs : lookupKey k r ≤ s := le_of_not_gt fun hlt =>
      hat (by rw [hkey]; exact (compare_encodeKey_lt hsep.sequence htarget).mpr hlt)
    obtain ⟨hnone, hfirst⟩ := hsep.lift hr (hfront.smaller htarget hbefore) hs
    have hall : G₁.flatten ++ (g ++ (G₂.flatten ++ [])) = (G₁ ++ g :: G₂).flatten := by simp
    rw [hall] at hnone hfirst
    rw [← hall] at hsorted hseq
    rw [if_pos hvalid, hvalue]
    by_cases hrej : filterRejects (openedTable o (calls.map wire)) (encodeKey (lookupKey k r)) p.2
        = true
    · refine Or.inl ⟨hnone fun e he _ hk => ?_, by rw [if_pos hrej]⟩
      have hpass := filterRejects_false h (r := r) hentry hgroup (List.mem_map_of_mem he) hk
      rw [hrej] at hpass
      cases hpass
    · rw [if_neg hrej, blockReader_group h.codecs h.fits rfl rfl verify hentry hgroup]
      obtain ⟨d, hd⟩ := opened_finish h.interval (h.fits.data _ (List.mem_of_getElem? hgroup))
      have hgsorted : Sorted g := (List.pairwise_append.mp (List.pairwise_append.mp hsorted).2.1).1
      have hblock := foundAt_block h (k := k) hr hgsorted (fun e he => hseq e (by simp [he])) hd
      rw [h.comparator] at hblock
      rcases hblock with ⟨hnoneg, heq⟩ | ⟨e, he, heq⟩
      · exact Or.inl ⟨hnone hnoneg, heq⟩
      · exact Or.inr ⟨e, hfirst e he, heq⟩

theorem First.newestEntry {e : Entry} (he : First (calls.filter (·.isPoint)) k r e) :
    NewestEntry calls k r e where
  mem := (List.mem_filter.mp he.mem).1
  point := (List.mem_filter.mp he.mem).2
  key := he.key
  readable := (lookupKey_le_iff he.key).mp he.from_
  newest q hq hpoint hk hle :=
    he.least q (List.mem_filter.mpr ⟨hq, hpoint⟩) ((lookupKey_le_iff hk).mpr hle)

theorem NewestEntry.eq_first (hsorted : Sorted (calls.filter (·.isPoint))) {p e : Entry}
    (hp : NewestEntry calls k r p) (he : First (calls.filter (·.isPoint)) k r e) : p = e := by
  have hnodup : ((calls.filter (·.isPoint)).map (·.key)).Nodup :=
    (List.pairwise_map.mpr hsorted).imp ne_of_lt
  have hmem : p ∈ calls.filter (·.isPoint) := List.mem_filter.mpr ⟨hp.mem, hp.point⟩
  have hfirst := he.newestEntry
  refine List.inj_on_of_nodup_map hnodup hmem he.mem (le_antisymm ?_ ?_)
  · exact hp.newest e hfirst.mem hfirst.point hfirst.key hfirst.readable
  · exact hfirst.newest p hp.mem hp.point hp.key hp.readable

theorem NoneFrom.not_newestEntry (hnone : NoneFrom (calls.filter (·.isPoint)) k r) :
    ¬ ∃ p, NewestEntry calls k r p := by
  rintro ⟨p, hp⟩
  exact hnone p (List.mem_filter.mpr ⟨hp.mem, hp.point⟩) ((lookupKey_le_iff hp.key).mpr hp.readable)
    hp.key

/-- The end of the lookup once an entry was found. -/
theorem conclude_foundFor (h : Stored o calls) (key : Slice) (e : Entry) :
    (CoveredAbove calls k e.key.sequence r →
        conclude (openedTable o (calls.map wire)) key (foundFor o calls k r e) .ok
          = (.notFound "", []))
      ∧ (¬ CoveredAbove calls k e.key.sequence r →
        conclude (openedTable o (calls.map wire)) key (foundFor o calls k r e) .ok
          = (.ok, [wire e])) := by
  rw [← rangeDeleted_iff h]
  constructor
  · intro hcov
    rw [foundFor, if_pos hcov]
    rfl
  · intro hcov
    rw [foundFor, if_neg hcov, conclude]
    simp

/-- The end of the lookup without an entry. -/
theorem conclude_none (h : Stored o calls) (hr : r < kMaxSequenceNumber) :
    (CoveredAbove calls k 0 r →
        conclude (openedTable o (calls.map wire)) (encodeKey (lookupKey k r)) ⟨.ok, [], false⟩ .ok
          = (.notFound "", []))
      ∧ (¬ CoveredAbove calls k 0 r →
        conclude (openedTable o (calls.map wire)) (encodeKey (lookupKey k r)) ⟨.ok, [], false⟩ .ok
          = (.ok, [])) := by
  have hseq : extractTag (encodeKey (lookupKey k r)) / 256 = r :=
    (extractTag_parts (Nat.le_of_lt hr : (lookupKey k r).sequence ≤ _)).1
  have huser : extractUserKey (encodeKey (lookupKey k r)) = k := extractUserKey_encodeKey _
  rw [← rangeDeleted_iff h, conclude, huser, hseq]
  constructor
  · intro hcov
    simp [hcov]
  · intro hcov
    simp [hcov]

/-- **The lookup**, by what the points of the table hold for the key. -/
theorem internalGet_cases (h : Stored o calls) (hr : r < kMaxSequenceNumber) (verify : Bool) :
    (NoneFrom (calls.filter (·.isPoint)) k r
        ∧ internalGet (openedTable o (calls.map wire)) verify (encodeKey (lookupKey k r))
          = conclude (openedTable o (calls.map wire)) (encodeKey (lookupKey k r))
            ⟨.ok, [], false⟩ .ok)
      ∨ ∃ e, First (calls.filter (·.isPoint)) k r e
        ∧ internalGet (openedTable o (calls.map wire)) verify (encodeKey (lookupKey k r))
          = conclude (openedTable o (calls.map wire)) (encodeKey (lookupKey k r))
            (foundFor o calls k r e) .ok := by
  obtain ⟨c, hc⟩ := opened_finish (Nat.le_refl 1) h.fits.index
  obtain ⟨hstatus, hcases⟩ := searchBlock_cases h (k := k) hr verify hc
  have hget : internalGet (openedTable o (calls.map wire)) verify (encodeKey (lookupKey k r))
      = conclude (openedTable o (calls.map wire)) (encodeKey (lookupKey k r))
        (searchBlock (openedTable o (calls.map wire)) verify (encodeKey (lookupKey k r))
          ((iterOps o.comparator).seek (encodeKey (lookupKey k r))
            (Block.new (indexContents o (calls.map wire))).newIterator)) .ok :=
    congrArg (conclude _ _ _) hstatus
  rw [hget, indexContents]
  rcases hcases with ⟨hnone, heq⟩ | ⟨e, he, heq⟩
  · exact Or.inl ⟨hnone, by rw [heq]⟩
  · exact Or.inr ⟨e, he, by rw [heq]⟩

end Lookup

/-! ## The table of the model -/

/-- What `SaveValue` and the callers of `InternalGet` make of it. -/
def saved : Status × List (Slice × Slice) → Lookup Slice
  | (_, (key, value) :: _) =>
    if extractTag key % 256 = ValueType.value.code then .found value else .deleted
  | (.ok, []) => .absent
  | (_, []) => .deleted

/-- **The lookup in the file is the lookup in the table of entries.** -/
theorem internalGet_refines {o : TableOptions} {calls : List Entry} (h : Stored o calls)
    {k : Slice} {r : Nat} (hr : r < kMaxSequenceNumber) (verify : Bool) :
    saved (internalGet (openedTable o (calls.map wire)) verify (encodeKey (lookupKey k r)))
      = (tableOfAdds calls).internalGet k r := by
  have hcov : ∀ q, isDeleted (tableOfAdds calls).rangeDeletions k q r = true ↔
      CoveredAbove calls k q r := fun q => isDeleted_iff_coveredAbove
  rw [LdbTable.Table.internalGet, head?_seekEntries]
  rcases internalGet_cases h (k := k) hr verify with ⟨hnone, heq⟩ | ⟨e, he, heq⟩
  · have hres : saved (internalGet (openedTable o (calls.map wire)) verify
        (encodeKey (lookupKey k r))) = coveredOrAbsent (tableOfAdds calls).rangeDeletions k r := by
      obtain ⟨hyes, hno⟩ := conclude_none h (k := k) hr
      rw [heq, coveredOrAbsent]
      split_ifs with hdel
      · rw [hyes ((hcov 0).mp hdel)]
        rfl
      · rw [hno fun hc => hdel ((hcov 0).mpr hc)]
        rfl
    rw [hres]
    cases hfind : (tableOfAdds calls).entries.find? (fun e => decide (lookupKey k r ≤ e.key)) with
    | none => rfl
    | some x =>
      have hx := List.find?_some hfind
      simp only
      rw [if_neg (hnone x (List.mem_of_find?_eq_some hfind) (of_decide_eq_true hx))]
  · -- the first entry from the lookup key on is the one found
    have hfind : (tableOfAdds calls).entries.find? (fun e => decide (lookupKey k r ≤ e.key))
        = some e := by
      cases hx : (tableOfAdds calls).entries.find? (fun e => decide (lookupKey k r ≤ e.key)) with
      | none =>
        exact absurd (decide_eq_true he.from_) (List.find?_eq_none.mp hx e he.mem)
      | some x =>
        obtain ⟨hmem, hle, hleast⟩ := OrderedLists.least_find? (h.sorted.imp le_of_lt) hx
        have hxe : ∀ q ∈ calls.filter (·.isPoint), lookupKey k r ≤ q.key → x.key ≤ q.key :=
          fun q hq hqle => hleast q hq (decide_eq_true hqle)
        have hkey : x.key = e.key :=
          le_antisymm (hxe e he.mem he.from_) (he.least x hmem (of_decide_eq_true hle))
        have hfirst : First (calls.filter (·.isPoint)) k r x :=
          ⟨hmem, by rw [hkey, he.key], of_decide_eq_true hle, hxe⟩
        rw [hfirst.newestEntry.eq_first h.sorted he]
    have hseq := h.sequences e (List.mem_filter.mp he.mem).1
    have htype := (extractTag_parts hseq).2
    obtain ⟨hyes, hno⟩ := conclude_foundFor h (k := k) (r := r) (encodeKey (lookupKey k r)) e
    rw [heq, hfind]
    simp only
    rw [if_pos he.key]
    by_cases hdel : isDeleted (tableOfAdds calls).rangeDeletions k e.key.sequence r = true
    · rw [if_pos hdel, hyes ((hcov _).mp hdel)]
      rfl
    · rw [if_neg hdel, hno fun hc => hdel ((hcov _).mpr hc)]
      show (if extractTag (encodeKey e.key) % 256 = ValueType.value.code then Lookup.found e.value
        else Lookup.deleted) = _
      rw [htype, ← he.key, saveValue_self]
      cases e.key.type with
      | value => rfl
      | deletion => rfl
      | rangeDeletion => rfl

/-! ## Exactness -/

/-- **Table lookup is exact.**  The table opens, and a lookup of a user key at a sequence
    calls `handle_result` with the newest entry of the key unless a tombstone of the
    table covers it, finds nothing if one does, and is silent otherwise. -/
theorem internalGet_exact {o : TableOptions} {calls : List Entry} (h : Stored o calls) :
    ∃ t, Table.openTable o (fileOf (build o (calls.map wire)).file.contents)
        (build o (calls.map wire)).file.contents.length = .ok t
      ∧ ∀ (verify : Bool) (k : Slice) (r : Nat), r < kMaxSequenceNumber →
        (∀ p, NewestEntry calls k r p →
          (CoveredAbove calls k p.key.sequence r →
            internalGet t verify (encodeKey (lookupKey k r)) = (.notFound "", []))
          ∧ (¬ CoveredAbove calls k p.key.sequence r →
            internalGet t verify (encodeKey (lookupKey k r)) = (.ok, [wire p])))
        ∧ ((¬ ∃ p, NewestEntry calls k r p) →
          (CoveredAbove calls k 0 r →
            internalGet t verify (encodeKey (lookupKey k r)) = (.notFound "", []))
          ∧ (¬ CoveredAbove calls k 0 r →
            internalGet t verify (encodeKey (lookupKey k r)) = (.ok, []))) := by
  refine ⟨openedTable o (calls.map wire), ?_, fun verify k r hr => ?_⟩
  · rw [(build_file o (calls.map wire)).2]
    exact openTable_eq h.interval h.codecs h.fits
  rcases internalGet_cases h (k := k) hr verify with ⟨hnone, heq⟩ | ⟨e, he, heq⟩
  · refine ⟨fun p hp => absurd ⟨p, hp⟩ hnone.not_newestEntry, fun _ => ?_⟩
    rw [heq]
    exact conclude_none h hr
  · refine ⟨fun p hp => ?_, fun hno => absurd ⟨e, he.newestEntry⟩ hno⟩
    rw [heq, hp.eq_first h.sorted he]
    exact conclude_foundFor h _ e

/-- A policy that keeps the first byte of each key. -/
def firstBytePolicy : FilterPolicy where
  name := [102]
  createFilter keys := keys.flatMap (·.take 1)
  keyMayMatch key filter := (key.take 1).all (filter.contains ·)

theorem firstBytePolicy_noFalseNegatives : NoFalseNegatives firstBytePolicy := by
  intro keys key hkey
  show (key.take 1).all (fun b => (keys.flatMap (·.take 1)).contains b) = true
  rw [List.all_eq_true]
  intro b hb
  rw [List.contains_iff_mem]
  exact List.mem_flatMap.mpr ⟨key, hkey, hb⟩

/-- Options of the database, with that policy and a data block for each entry. -/
def sampleOptions : TableOptions :=
  { plainOptions 1 with
    comparator := dbComparator
    filterPolicy := some (internalFilterPolicy firstBytePolicy) }

theorem sampleCalls_stored : Stored sampleOptions sampleCalls where
  comparator := rfl
  policy policy hpolicy := ⟨firstBytePolicy, (Option.some.inj hpolicy).symm,
    firstBytePolicy_noFalseNegatives⟩
  interval := by decide
  codecs := plainOptions_sound 1
  sequences := by decide
  sorted := by decide
  fits := by
    refine ⟨?_, ?_, ?_, ?_, ?_⟩ <;> decide +kernel
  filter f hf := by
    have hlen : (filterContents sampleOptions (sampleCalls.map wire)).map (·.2.length)
        = some 11 := by decide +kernel
    rw [hf] at hlen
    have heq : f.2.length = 11 := Option.some.inj hlen
    omega

theorem internalGet_exact_sample :
    ∃ t, Table.openTable sampleOptions
        (fileOf (build sampleOptions (sampleCalls.map wire)).file.contents)
        (build sampleOptions (sampleCalls.map wire)).file.contents.length = .ok t
      ∧ internalGet t true (encodeKey (lookupKey [97] 3))
          = (.ok, [(encodeKey ⟨[97], 3, .value⟩, [1])])
      ∧ internalGet t true (encodeKey (lookupKey [98] 5)) = (.notFound "", [])
      ∧ internalGet t true (encodeKey (lookupKey [99] 5)) = (.ok, []) := by
  obtain ⟨t, hopen, hget⟩ := internalGet_exact sampleCalls_stored
  refine ⟨t, hopen, ?_, ?_, ?_⟩
  · refine ((hget true [97] 3 (by decide)).1 ⟨⟨[97], 3, .value⟩, [1]⟩
      ⟨by decide, rfl, rfl, by decide, by decide⟩).2 ?_
    rw [CoveredAbove]
    decide
  · refine ((hget true [98] 5 (by decide)).1 ⟨⟨[98], 1, .deletion⟩, []⟩
      ⟨by decide, rfl, rfl, by decide, by decide⟩).1 ?_
    rw [CoveredAbove]
    decide
  · refine ((hget true [99] 5 (by decide)).2 ?_).2 ?_
    · rintro ⟨p, hp⟩
      have hno : ∀ e ∈ sampleCalls, e.key.userKey ≠ [99] := by decide
      exact hno p hp.mem hp.key
    · rw [CoveredAbove]
      decide

theorem internalGet_refines_sample :
    saved (internalGet (openedTable sampleOptions (sampleCalls.map wire)) true
        (encodeKey (lookupKey [98] 5))) = (tableOfAdds sampleCalls).internalGet [98] 5 :=
  internalGet_refines sampleCalls_stored (by decide) true

/-! ## Values of 4 GiB -/

section

variable (cmp : Comparator) (target : Slice)
include cmp target

theorem parseToKey_value_lt (fuel : Nat) :
    ∀ {it : BlockIter}, it.valueSize < 2 ^ 32 →
      (BlockIter.parseToKey cmp target fuel it).valueSize < 2 ^ 32 := by
  induction fuel with
  | zero => exact fun h => h
  | succ fuel ih =>
    intro it h
    have hnext := parseNextKey_value_lt h
    rw [BlockIter.parseToKey]
    split_ifs
    · exact ih hnext
    · exact hnext

theorem seekBetween_value_lt (compared : Ordering) (left right : Nat) {it : BlockIter}
    (h : it.valueSize < 2 ^ 32) :
    (it.seekBetween cmp target compared left right).valueSize < 2 ^ 32 := by
  rw [BlockIter.seekBetween]
  cases it.searchRestarts cmp target it.numRestarts left right with
  | none => exact Nat.two_pow_pos 32
  | some left =>
    simp only
    split_ifs
    · exact parseToKey_value_lt _ _ _ h
    · exact parseToKey_value_lt _ _ _ (Nat.two_pow_pos 32)

theorem seek_value_lt {it : BlockIter} (h : it.valueSize < 2 ^ 32) :
    (it.seek cmp target).valueSize < 2 ^ 32 := by
  rw [BlockIter.seek]
  split_ifs
  · cases cmp.compare it.key target with
    | lt | gt => exact seekBetween_value_lt _ _ _ _ _ h
    | eq => exact h
  · exact seekBetween_value_lt _ _ _ _ _ h

/-- A new iterator over a block, once it has searched, shows no value of 4 GiB. -/
theorem newIterator_seek_value_lt (b : Block) :
    ((iterOps cmp).value ((iterOps cmp).seek target b.newIterator)).length < 2 ^ 32 := by
  rw [Block.newIterator]
  split_ifs
  · exact Nat.two_pow_pos 32
  · exact Nat.two_pow_pos 32
  · generalize hit : BlockIter.new b.data b.restartOffset (numRestarts b.data) = it
    have hzero : it.valueSize < 2 ^ 32 := by
      rw [← hit]
      exact Nat.two_pow_pos 32
    show (((it.seek cmp target).data.drop _).take _).length < 2 ^ 32
    rw [List.length_take]
    exact lt_of_le_of_lt (Nat.min_le_left _ _) (seek_value_lt cmp target hzero)

end

theorem blockReader_seek_value_lt (t : LdbTableReader.Table) (verify : Bool)
    (target indexValue : Slice) :
    ((iterOps t.options.comparator).value ((iterOps t.options.comparator).seek target
      (t.blockReader verify indexValue))).length < 2 ^ 32 := by
  rw [Table.blockReader]
  rcases BlockHandle.decodeFrom indexValue with s | ⟨handle, rest⟩
  · exact Nat.two_pow_pos 32
  · simp only
    cases readBlock t.options.codecs t.file verify handle with
    | error s => exact Nat.two_pow_pos 32
    | ok contents => exact newIterator_seek_value_lt _ _ _

/-- **A lookup hands over no value of 4 GiB.** -/
theorem internalGet_value_lt (t : LdbTableReader.Table) (verify : Bool) (k : Slice) :
    ∀ p ∈ (internalGet t verify k).2, p.2.length < 2 ^ 32 := by
  intro p hp
  change p ∈ (searchBlock t verify k _).results at hp
  rw [searchBlock] at hp
  split_ifs at hp
  · cases hp
  · rw [foundAt] at hp
    split_ifs at hp
    · cases hp
    · rw [List.mem_singleton.mp hp]
      exact blockReader_seek_value_lt _ _ _ _
    · cases hp
  · cases hp

/-- The options of the database, without a filter. -/
def dbOptions : TableOptions := { plainOptions 4096 with comparator := dbComparator }

/-- A `Put` of a value of 4 GiB is not what a lookup of its key hands over. -/
theorem large_value_not_handed_over :
    dbOptions.codecs.Sound dbOptions.compression
      ∧ NewestEntry [largePut] [97] 1 largePut
      ∧ ¬ CoveredAbove [largePut] [97] 1 1
      ∧ ∀ t, Table.openTable dbOptions (fileOf (build dbOptions [wire largePut]).file.contents)
          (build dbOptions [wire largePut]).file.contents.length = .ok t →
        internalGet t true (encodeKey (lookupKey [97] 1)) ≠ (.ok, [wire largePut]) := by
  refine ⟨plainOptions_sound 4096, ?_, ?_, fun t _ heq => ?_⟩
  · refine ⟨List.mem_singleton_self _, rfl, rfl, le_refl _, fun q hq _ _ _ => ?_⟩
    rw [List.mem_singleton.mp hq]
  · rintro ⟨e, he, htype, -⟩
    rw [List.mem_singleton.mp he] at htype
    cases htype
  · have hlt := internalGet_value_lt t true (encodeKey (lookupKey [97] 1)) (wire largePut)
      (by rw [heq]; exact List.mem_singleton_self _)
    rw [wire, largePut, List.length_replicate] at hlt
    exact Nat.lt_irrefl _ hlt

end LdbTableGet
