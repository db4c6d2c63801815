import LevelDB.Bounds
import LevelDB.Visibility

/-! # Range reads

    `DBIter` (`db/db_iter.cc`) on top of `NewInternalIterator`: the memtables,
    every level-0 file and one concatenating iterator per deeper level
    (`LevelFileNumIterator` under a `TwoLevelIterator`), merged by
    `MergingIterator`.  `DBImpl::Scan` drives it forward from a start key.

    The internal iterator after a `Seek` is the list of entries it has yet to
    yield.  `userEntries` is what the user iterator makes of such a list; on a
    sorted one it yields every visible key once (`userEntries_spec`).  What the
    internal iterator yields depends on the recorded bounds: a level is entered
    at the file `FindFile` returns. -/

namespace LdbScan

open Versioned LdbFormat LdbVersion LdbEdit LdbTable LdbOutputs LdbDb LdbSteps LdbCore LdbRun
open LdbBounds LdbSequential LdbVisibility

/-! ## The internal iterator -/

/-- A concatenating iterator after `Seek(target)`: the file `FindFile` returns
    from `target` on, then the files after it. -/
def seekLevel [UserComparator] (entries : FileMetaData → List Entry) (files : List FileMetaData)
    (target : InternalKey) : List Entry :=
  match files.drop (findFile files target) with
  | [] => []
  | f :: rest => seekEntries target (entries f) ++ rest.flatMap entries

/-- The entries of a file's table. -/
def entriesOf (db : DB) (f : FileMetaData) : List Entry := (db.tables f.number).entries

/-- The children of `NewInternalIterator` after `MergingIterator::Seek(target)`. -/
def seekChildren [UserComparator] (db : DB) (target : InternalKey) : List (List Entry) :=
  [seekEntries target db.mem.table] ++ db.imm.toList.map (fun m => seekEntries target m.table)
    ++ (db.current.files 0).map (fun f => seekEntries target (entriesOf db f))
    ++ ((List.range' 1 (kNumLevels - 1)).filter fun l => !(db.current.files l).isEmpty).map
        fun l => seekLevel (entriesOf db) (db.current.files l) target

/-- What the internal iterator yields after `Seek(target)`. -/
def seekInternal [UserComparator] (db : DB) (target : InternalKey) : List Entry :=
  KWayMerge.merge entryBefore (seekChildren db target)

/-! ## The user iterator -/

/-- The body of the loop of `DBIter::FindNextUserEntry`: `none` if it returns at
    the entry, else the key skipped from here on.  `skip` is that key before the
    entry, if any. -/
def visitEntry [UserComparator] (dels : List RangeDeletion) (sequence : Nat)
    (skip : Option Slice) (e : Entry) : Option (Option Slice) :=
  if e.key.sequence ≤ sequence then
    match e.key.type with
    | .deletion => some (some e.key.userKey)
    | .rangeDeletion => some skip
    | .value =>
      if isDeleted dels e.key.userKey e.key.sequence sequence then some skip
      else if skip.any (fun k => decide (userCompare e.key.userKey k ≠ .gt)) then some skip
      else none
  else some skip

/-- `DBIter::FindNextUserEntry`: the entries from the next visible one on. -/
def findNextUserEntry [UserComparator] (dels : List RangeDeletion) (sequence : Nat) :
    Option Slice → List Entry → List Entry
  | _, [] => []
  | skip, e :: rest =>
    match visitEntry dels sequence skip e with
    | some skip => findNextUserEntry dels sequence skip rest
    | none => e :: rest

/-- `DBIter::Seek`. -/
def iterSeek [UserComparator] (db : DB) (sequence : Nat) (target : Slice) : List Entry :=
  findNextUserEntry (getRangeDeletions db) sequence none
    (seekInternal db (lookupKey target sequence))

/-- `DBIter::Next`. -/
def iterNext [UserComparator] (dels : List RangeDeletion) (sequence : Nat) :
    List Entry → List Entry
  | [] => []
  | e :: rest => findNextUserEntry dels sequence (some e.key.userKey) rest

/-- The loop of `Scan`; every round moves the iterator forward, so one round per
    entry is enough. -/
def scanLoop [UserComparator] (dels : List RangeDeletion) (sequence : Nat) (endKey : Slice) :
    Nat → List Entry → List (Slice × Slice)
  | 0, _ => []
  | _ + 1, [] => []
  | fuel + 1, e :: rest =>
    if e.key.userKey < endKey then
      (e.key.userKey, e.value) ::
        scanLoop dels sequence endKey fuel (iterNext dels sequence (e :: rest))
    else []

/-- `DBImpl::Scan` at a sequence number. -/
def scan [UserComparator] (db : DB) (sequence : Nat) (startKey endKey : Slice) :
    List (Slice × Slice) :=
  if endKey ≤ startKey then []
  else
    let it := iterSeek db sequence startKey
    scanLoop (getRangeDeletions db) sequence endKey it.length it

/-! ## What the user iterator yields -/

/-- All keys and values the iterator yields from a list of entries on. -/
def userEntries (dels : List RangeDeletion) (sequence : Nat) :
    Option Slice → List Entry → List (Slice × Slice)
  | _, [] => []
  | skip, e :: rest =>
    match visitEntry dels sequence skip e with
    | some skip => userEntries dels sequence skip rest
    | none => (e.key.userKey, e.value) :: userEntries dels sequence (some e.key.userKey) rest

section Yield

variable {dels : List RangeDeletion} {s : Nat}

theorem findNextUserEntry_length (L : List Entry) :
    ∀ skip, (findNextUserEntry dels s skip L).length ≤ L.length := by
  induction L with
  | nil => intro skip; exact le_refl _
  | cons e rest ih =>
    intro skip
    rw [findNextUserEntry]
    split
    · exact Nat.le_succ_of_le (ih _)
    · exact le_refl _

/-- The loop of `Scan` takes what the iterator yields, up to the end key. -/
theorem scanLoop_eq (endKey : Slice) (L : List Entry) :
    ∀ (fuel : Nat) (skip : Option Slice),
      (findNextUserEntry dels s skip L).length ≤ fuel →
      scanLoop dels s endKey fuel (findNextUserEntry dels s skip L)
        = (userEntries dels s skip L).takeWhile fun p => decide (p.1 < endKey) := by
  -- the entries the iterator passes over cost no round
  induction L with
  | nil =>
    intro fuel skip _
    cases fuel <;> rfl
  | cons e rest ih =>
    intro fuel skip hfuel
    rw [findNextUserEntry] at hfuel ⊢
    rw [userEntries]
    cases hv : visitEntry dels s skip e with
    | some skip' =>
      simp only [hv] at hfuel ⊢
      exact ih fuel skip' hfuel
    | none =>
      simp only [hv] at hfuel ⊢
      cases fuel with
      | zero => exact absurd hfuel (by simp)
      | succ fuel =>
        have hrest : (findNextUserEntry dels s (some e.key.userKey) rest).length ≤ fuel :=
          le_trans (findNextUserEntry_length rest _) (Nat.le_of_succ_le_succ hfuel)
        rw [scanLoop, List.takeWhile_cons]
        by_cases hend : e.key.userKey < endKey
        · rw [if_pos hend, if_pos (decide_eq_true hend)]
          exact congrArg _ (ih fuel _ hrest)
        · rw [if_neg hend, if_neg (by simpa using hend)]

variable {e : Entry}

/-- Why the loop goes past an entry. -/
theorem visitEntry_some {skip skip' : Option Slice} (h : visitEntry dels s skip e = some skip') :
    (skip' = skip ∧ (s < e.key.sequence ∨ e.isPoint = false
        ∨ isDeleted dels e.key.userKey e.key.sequence s = true
        ∨ ∃ k ∈ skip, e.key.userKey ≤ k))
      ∨ (skip' = some e.key.userKey ∧ e.key.sequence ≤ s ∧ e.key.type = .deletion) := by
  rw [visitEntry] at h
  by_cases hseq : e.key.sequence ≤ s
  · rw [if_pos hseq] at h
    cases ht : e.key.type with
    | deletion =>
      simp only [ht, Option.some.injEq] at h
      exact Or.inr ⟨h.symm, hseq, rfl⟩
    | rangeDeletion =>
      simp only [ht, Option.some.injEq] at h
      exact Or.inl ⟨h.symm, Or.inr (Or.inl (by simp [Entry.isPoint, ht]))⟩
    | value =>
      simp only [ht] at h
      split_ifs at h with hdel hskip
      · exact Or.inl ⟨(Option.some.inj h).symm, Or.inr (Or.inr (Or.inl hdel))⟩
      · obtain ⟨k, hk, hle⟩ := (Option.any_eq_true _ _).mp hskip
        exact Or.inl ⟨(Option.some.inj h).symm,
          Or.inr (Or.inr (Or.inr ⟨k, hk, by simpa using hle⟩))⟩
  · rw [if_neg hseq] at h
    exact Or.inl ⟨(Option.some.inj h).symm, Or.inl (lt_of_not_ge hseq)⟩

/-- Where the loop returns. -/
theorem visitEntry_none {skip : Option Slice} (h : visitEntry dels s skip e = none) :
    e.key.sequence ≤ s ∧ e.key.type = .value
      ∧ isDeleted dels e.key.userKey e.key.sequence s = false
      ∧ ∀ k ∈ skip, k < e.key.userKey := by
  rw [visitEntry] at h
  by_cases hseq : e.key.sequence ≤ s
  · rw [if_pos hseq] at h
    cases ht : e.key.type with
    | deletion => simp [ht] at h
    | rangeDeletion => simp [ht] at h
    | value =>
      simp only [ht] at h
      split_ifs at h with hdel hskip
      refine ⟨hseq, rfl, by simpa using hdel, fun k hk => lt_of_not_ge fun hle => hskip ?_⟩
      exact (Option.any_eq_true _ _).mpr ⟨k, hk, by simpa using hle⟩
  · rw [if_neg hseq] at h
    cases h

variable {T : Set (Tomb Slice)}

/-- Versions of another key do not depend on the first entry. -/
theorem visible_cons_of_ne {rest : List Entry} {k : Slice}
    (hne : e.key.userKey ≠ k ∨ s < e.key.sequence ∨ e.isPoint = false) (v : Slice) :
    Visible (versions (e :: rest)) T k s v ↔ Visible (versions rest) T k s v := by
  refine visible_congr (fun x hxk hxs => ⟨?_, ?_⟩) (fun _ _ => Iff.rfl) v
  · rintro ⟨e', he', hp, rfl⟩
    rcases List.mem_cons.mp he' with rfl | he'
    · rcases hne with h | h | h
      · exact absurd hxk h
      · exact absurd hxs (Nat.not_le_of_lt h)
      · rw [h] at hp
        cases hp
    · exact ⟨e', he', hp, rfl⟩
  · rintro ⟨e', he', hp, rfl⟩
    exact ⟨e', List.mem_cons_of_mem _ he', hp, rfl⟩

/-- The first entry of a key that is readable decides the read of that key. -/
theorem visible_cons_self {rest : List Entry} (hs : Sorted (e :: rest))
    (hinj : ∀ a ∈ e :: rest, ∀ b ∈ e :: rest,
      a.key.userKey = b.key.userKey → a.key.sequence = b.key.sequence → a = b)
    (hseq : e.key.sequence ≤ s) (hp : e.isPoint = true) (v : Slice) :
    Visible (versions (e :: rest)) T e.key.userKey s v ↔
      e.ver.val = some v ∧ ¬ Hidden T e.key.userKey e.key.sequence s := by
  refine visible_iff_of_newest ?_ (newest_head hs hp hseq) v
  rintro _ ⟨a, ha, -, rfl⟩ _ ⟨b, hb, -, rfl⟩ hkey heq
  rw [hinj a ha b hb hkey heq]

/-- No value of a key below all entries is visible. -/
theorem not_visible_of_lt {L : List Entry} {k : Slice}
    (h : ∀ e ∈ L, k < e.key.userKey) (v : Slice) : ¬ Visible (versions L) T k s v := by
  refine not_visible_of_none ?_ v
  rintro _ ⟨e, he, -, rfl⟩ hk
  exact absurd hk.symm (ne_of_lt (h e he))

/-- **The iterator yields every visible key behind `skip` once, in order.** -/
theorem userEntries_spec (dels : List RangeDeletion) (s : Nat) (L : List Entry) :
    ∀ skip : Option Slice, Sorted L →
      (∀ a ∈ L, ∀ b ∈ L,
        a.key.userKey = b.key.userKey → a.key.sequence = b.key.sequence → a = b) →
      (∀ q ∈ skip, ∀ e ∈ L, q ≤ e.key.userKey) →
      (userEntries dels s skip L).Pairwise (fun a b => a.1 < b.1)
        ∧ ∀ k v, (k, v) ∈ userEntries dels s skip L ↔
            (∀ q ∈ skip, q < k) ∧ Visible (versions L) (tombs dels) k s v := by
  induction L with
  | nil =>
    intro skip _ _ _
    refine ⟨List.Pairwise.nil, fun k v => ⟨nofun, ?_⟩⟩
    rintro ⟨-, hv⟩
    exact absurd hv (not_visible_of_lt (List.forall_mem_nil _) v)
  | cons e rest ih =>
    intro skip hs hinj hskip
    obtain ⟨hfirst, hrest⟩ := List.pairwise_cons.mp hs
    have hinj' : ∀ a ∈ rest, ∀ b ∈ rest,
        a.key.userKey = b.key.userKey → a.key.sequence = b.key.sequence → a = b :=
      fun a ha b hb => hinj a (List.mem_cons_of_mem _ ha) b (List.mem_cons_of_mem _ hb)
    have hafter : ∀ x ∈ rest, e.key.userKey ≤ x.key.userKey := fun x hx =>
      InternalKey.userKey_le (le_of_lt (hfirst x hx))
    have hbehind : ∀ q ∈ (some e.key.userKey : Option Slice), ∀ x ∈ rest, q ≤ x.key.userKey := by
      intro q hq
      cases hq
      exact hafter
    -- the same reads behind the key of `e`
    have hdone : ∀ k v, e.key.userKey < k →
        (((∀ q ∈ skip, q < k) ∧ Visible (versions (e :: rest)) (tombs dels) k s v) ↔
          (∀ q ∈ (some e.key.userKey : Option Slice), q < k)
            ∧ Visible (versions rest) (tombs dels) k s v) := by
      intro k v hlt
      rw [visible_cons_of_ne (Or.inl (ne_of_lt hlt))]
      refine and_congr_left fun _ => iff_of_true ?_ ?_
      · exact fun q hq => lt_of_le_of_lt (hskip q hq e (by simp)) hlt
      · intro q hq
        cases hq
        exact hlt
    rw [userEntries]
    cases hv : visitEntry dels s skip e with
    | none =>
      obtain ⟨hseq, ht, hdel, hbe⟩ := visitEntry_none hv
      obtain ⟨hp, hm⟩ := ih (some e.key.userKey) hrest hinj' hbehind
      have hpt : e.isPoint = true := by simp [Entry.isPoint, ht]
      have hself := visible_cons_self (T := tombs dels) hs hinj hseq hpt
      refine ⟨List.pairwise_cons.mpr ⟨fun p hp' => ?_, hp⟩, fun k v => ?_⟩
      · exact ((hm p.1 p.2).mp hp').1 _ rfl
      · rw [List.mem_cons, hm k v, Prod.mk.injEq]
        rcases lt_trichotomy e.key.userKey k with hlt | rfl | hgt
        · rw [hdone k v hlt]
          exact ⟨fun h => h.resolve_left fun h => (ne_of_lt hlt) h.1.symm, Or.inr⟩
        · rw [hself v, ← isDeleted_iff_hidden, hdel]
          have hval : e.ver.val = some e.value := by simp [Entry.ver, ht]
          rw [hval, Option.some.injEq]
          constructor
          · rintro (⟨-, rfl⟩ | ⟨hlt, -⟩)
            · exact ⟨hbe, rfl, Bool.false_ne_true⟩
            · exact absurd (hlt _ rfl) (lt_irrefl _)
          · rintro ⟨-, rfl, -⟩
            exact Or.inl ⟨rfl, rfl⟩
        · have hno := not_visible_of_lt (L := e :: rest) (T := tombs dels) (s := s) (k := k)
            (fun x hx => by
              rcases List.mem_cons.mp hx with rfl | hx
              · exact hgt
              · exact lt_of_lt_of_le hgt (hafter x hx)) v
          constructor
          · rintro (⟨rfl, -⟩ | ⟨hlt, -⟩)
            · exact absurd hgt (lt_irrefl _)
            · exact absurd (hlt _ rfl) (not_lt_of_gt hgt)
          · rintro ⟨-, hvis⟩
            exact absurd hvis hno
    | some skip' =>
      rcases visitEntry_some hv with ⟨rfl, hwhy⟩ | ⟨rfl, hseq, ht⟩
      · obtain ⟨hp, hm⟩ := ih skip' hrest hinj' (fun q hq x hx =>
          hskip q hq x (List.mem_cons_of_mem _ hx))
        refine ⟨hp, fun k v => ?_⟩
        rw [hm k v]
        refine and_congr_right fun hq => ?_
        -- the entry shows no value of its key, and neither does an older one
        by_cases hk : e.key.userKey = k
        · subst hk
          by_cases hread : s < e.key.sequence ∨ e.isPoint = false
          · rw [visible_cons_of_ne (Or.inr hread)]
          · push Not at hread
            have hpt : e.isPoint = true := by simpa using hread.2
            rcases hwhy with h | h | h | ⟨q, hqs, hle⟩
            · exact absurd h (Nat.not_lt_of_le hread.1)
            · exact absurd h hread.2
            · have hhid := isDeleted_iff_hidden.mp h
              rw [visible_cons_self hs hinj hread.1 hpt]
              refine iff_of_false ?_ fun h => h.2 hhid
              rintro ⟨x, hx, -, hnh⟩
              obtain ⟨e', he', -, rfl⟩ := hx.1.1
              refine hnh (hhid.mono ?_)
              exact InternalKey.sequence_le hx.1.2.1.symm (le_of_lt (hfirst e' he'))
            · exact absurd (hq q hqs) (not_lt_of_ge hle)
        · rw [visible_cons_of_ne (Or.inl hk)]
      · obtain ⟨hp, hm⟩ := ih (some e.key.userKey) hrest hinj' hbehind
        refine ⟨hp, fun k v => ?_⟩
        rw [hm k v]
        rcases lt_trichotomy e.key.userKey k with hlt | rfl | hgt
        · exact (hdone k v hlt).symm
        · have hpt : e.isPoint = true := by simp [Entry.isPoint, ht]
          rw [visible_cons_self hs hinj hseq hpt]
          refine iff_of_false (fun h => lt_irrefl _ (h.1 _ rfl)) ?_
          rintro ⟨-, hval, -⟩
          simp [Entry.ver, ht] at hval
        · refine iff_of_false (fun h => not_lt_of_gt hgt (h.1 _ rfl)) ?_
          rintro ⟨-, hvis⟩
          refine not_visible_of_lt ?_ v hvis
          intro x hx
          rcases List.mem_cons.mp hx with rfl | hx
          · exact hgt
          · exact lt_of_lt_of_le hgt (hafter x hx)

end Yield

/-! ## What the internal iterator yields -/

theorem seekEntries_sublist (target : InternalKey) (es : List Entry) :
    (seekEntries target es).Sublist es :=
  List.dropWhile_sublist _

theorem mem_seekEntries {target : InternalKey} {es : List Entry} (hs : Sorted es) {e : Entry} :
    e ∈ seekEntries target es ↔ e ∈ es ∧ target ≤ e.key := by
  rw [seekEntries_eq]
  exact OrderedLists.mem_dropWhile_lt hs

theorem seekLevel_sublist (entries : FileMetaData → List Entry) (files : List FileMetaData)
    (target : InternalKey) : (seekLevel entries files target).Sublist (files.flatMap entries) := by
  rw [seekLevel]
  split
  · exact List.nil_sublist _
  · rename_i f rest hd
    have h1 : (seekEntries target (entries f) ++ rest.flatMap entries).Sublist
        ((f :: rest).flatMap entries) := by
      rw [List.flatMap_cons]
      exact (seekEntries_sublist target (entries f)).append (List.Sublist.refl _)
    refine h1.trans ?_
    rw [← hd, ← List.take_append_drop (findFile files target) files, List.flatMap_append,
      List.take_append_drop]
    exact List.sublist_append_right _ _

/-- **A level iterator positioned by `FindFile` misses nothing**, if the recorded
    bounds of its files contain their entries. -/
theorem mem_seekLevel {entries : FileMetaData → List Entry} {files : List FileMetaData}
    (hs : SortedLevel files) (hsorted : ∀ f ∈ files, Sorted (entries f))
    (hcont : ∀ f ∈ files, ∀ e ∈ entries f, f.smallest ≤ e.key ∧ e.key ≤ f.largest)
    {target : InternalKey} {e : Entry} :
    e ∈ seekLevel entries files target ↔ ∃ f ∈ files, e ∈ entries f ∧ target ≤ e.key := by
  obtain ⟨hlo, hhi⟩ := findFile_bounds hs target
  have hsplit := List.take_append_drop (findFile files target) files
  -- files before the position end before the target
  have hbefore : ∀ f ∈ files.take (findFile files target), f.largest < target := by
    intro f hf
    obtain ⟨i, hi, rfl⟩ := List.getElem_of_mem hf
    rw [List.length_take] at hi
    refine hlo i _ ?_ (by omega)
    rw [List.getElem_take, List.getElem?_eq_getElem]
  rw [seekLevel]
  cases hd : files.drop (findFile files target) with
  | nil =>
    simp only
    refine iff_of_false List.not_mem_nil ?_
    rintro ⟨f, hf, he, hle⟩
    rw [hd, List.append_nil] at hsplit
    rw [← hsplit] at hf
    have := hbefore f hf
    rw [hsplit] at hf
    exact absurd (le_trans hle (hcont f hf e he).2) (not_le_of_gt this)
  | cons g rest =>
    rw [hd] at hsplit
    have hg : g ∈ files := by rw [← hsplit]; simp
    have hrest : ∀ f ∈ rest, f ∈ files ∧ g.largest < f.smallest := by
      intro f hf
      have hdis := hs.disjoint
      rw [← hsplit] at hdis ⊢
      exact ⟨by simp [hf], (List.pairwise_cons.mp (List.pairwise_append.mp hdis).2.1).1 f hf⟩
    have htg : target ≤ g.largest := by
      refine hhi (findFile files target) g ?_ (le_refl _)
      rw [← List.head?_drop, hd]
      rfl
    rw [List.mem_append, mem_seekEntries (hsorted g hg), List.mem_flatMap]
    constructor
    · rintro (⟨he, hle⟩ | ⟨f, hf, he⟩)
      · exact ⟨g, hg, he, hle⟩
      · obtain ⟨hf', hlt⟩ := hrest f hf
        exact ⟨f, hf', he, le_trans htg (le_trans (le_of_lt hlt) (hcont f hf' e he).1)⟩
    · rintro ⟨f, hf, he, hle⟩
      have hf' := hf
      rw [← hsplit] at hf'
      rcases List.mem_append.mp hf' with hf' | hf'
      · have := hbefore f hf'
        exact absurd (le_trans hle (hcont f hf e he).2) (not_le_of_gt this)
      · rcases List.mem_cons.mp hf' with rfl | hf'
        · exact Or.inl ⟨he, hle⟩
        · exact Or.inr ⟨f, hf', he⟩

/-- The levels that have a concatenating iterator. -/
def deepLevels (db : DB) : List Nat :=
  (List.range' 1 (kNumLevels - 1)).filter fun l => !(db.current.files l).isEmpty

/-- All files, level by level. -/
def allFiles (db : DB) : List FileMetaData :=
  (0 :: deepLevels db).flatMap fun l => db.current.files l

/-- Everything the children range over. -/
def allEntries (db : DB) : List Entry :=
  db.mem.table ++ db.imm.toList.flatMap (·.table) ++ (allFiles db).flatMap (entriesOf db)

theorem flatMap_sublist {α β : Type} {f g : α → List β} {l : List α}
    (h : ∀ x ∈ l, (f x).Sublist (g x)) : (l.flatMap f).Sublist (l.flatMap g) := by
  induction l with
  | nil => exact List.Sublist.refl _
  | cons x rest ih =>
    rw [List.flatMap_cons, List.flatMap_cons]
    exact (h x (by simp)).append (ih fun y hy => h y (List.mem_cons_of_mem _ hy))

theorem seekChildren_flatten (db : DB) (target : InternalKey) :
    (seekChildren db target).flatten.Sublist (allEntries db) := by
  rw [seekChildren, allEntries, allFiles, List.flatMap_assoc, List.flatMap_cons,
    List.flatten_append, List.flatten_append, List.flatten_append, List.flatten_singleton,
    ← List.append_assoc, ← List.flatMap_def, ← List.flatMap_def, ← List.flatMap_def]
  refine List.Sublist.append (List.Sublist.append (List.Sublist.append ?_ ?_) ?_) ?_
  · exact seekEntries_sublist _ _
  · exact flatMap_sublist fun m _ => seekEntries_sublist _ _
  · exact flatMap_sublist fun f _ => seekEntries_sublist _ _
  · exact flatMap_sublist fun l _ => seekLevel_sublist _ _ _

section Internal

variable {db : DB} {h : List Op}

/-- All files have different numbers. -/
theorem allFiles_pairwise (hc : Core db h) :
    (allFiles db).Pairwise fun f g => f.number ≠ g.number := by
  have hlist := hc.listed
  refine List.pairwise_flatMap.mpr ⟨fun l _ => ?_, ?_⟩
  · refine (hlist.sorted l).imp_of_mem ?_
    intro f g hf hg hlt heq
    rw [(hlist.unique l l f g hf hg heq).2] at hlt
    exact bySmallestKey.irrefl _ hlt
  · have hnd : (0 :: deepLevels db).Nodup := by
      refine List.nodup_cons.mpr ⟨fun hmem => ?_, List.Nodup.filter _ (List.nodup_range' ..)⟩
      have := List.mem_range'_1.mp (List.mem_filter.mp hmem).1
      omega
    refine hnd.imp ?_
    intro l l' hne f hf g hg heq
    exact hne (hlist.unique l l' f g hf hg heq).1

theorem mem_allFiles (hc : Core db h) {f : FileMetaData} :
    f ∈ allFiles db ↔ ∃ l, f ∈ db.current.files l := by
  rw [allFiles, List.mem_flatMap]
  constructor
  · rintro ⟨l, -, hf⟩
    exact ⟨l, hf⟩
  · rintro ⟨l, hf⟩
    refine ⟨l, ?_, hf⟩
    rcases Nat.eq_zero_or_pos l with rfl | hl
    · exact List.mem_cons_self
    · have hlt := hc.listed.level_lt hf
      refine List.mem_cons_of_mem _ (List.mem_filter.mpr ⟨?_, ?_⟩)
      · rw [List.mem_range'_1]
        omega
      · simpa using List.ne_nil_of_mem hf

theorem mem_allEntries (hc : Core db h) {e : Entry} : e ∈ allEntries db ↔ Stored db e := by
  rw [allEntries, List.mem_append, List.mem_append, or_assoc, Stored, List.mem_flatMap,
    List.mem_flatMap]
  refine or_congr Iff.rfl (or_congr ?_ ?_)
  · exact exists_congr fun m => and_congr_left fun _ => Option.mem_toList
  · constructor
    · rintro ⟨f, hf, he⟩
      obtain ⟨l, hfl⟩ := (mem_allFiles hc).mp hf
      exact ⟨l, f, hfl, he⟩
    · rintro ⟨l, f, hf, he⟩
      exact ⟨f, (mem_allFiles hc).mpr ⟨l, hf⟩, he⟩

/-- Different places hold different keys. -/
theorem allEntries_pairwise (hi : Inv db h) :
    (allEntries db).Pairwise fun a b => a.key ≠ b.key := by
  obtain ⟨n₁, n₂, -, hwin⟩ := hi.windows
  have hle := hwin.le
  have htab : ∀ e ∈ (allFiles db).flatMap (entriesOf db), e.key.sequence ≤ n₁ := by
    intro e he
    obtain ⟨f, hf, hef⟩ := List.mem_flatMap.mp he
    obtain ⟨l, hfl⟩ := (mem_allFiles hi.toCore).mp hf
    exact hwin.tables l f hfl e hef
  have himm : ∀ e ∈ db.imm.toList.flatMap (·.table), n₁ < e.key.sequence
      ∧ e.key.sequence ≤ n₂ := by
    intro e he
    obtain ⟨m, hm, hem⟩ := List.mem_flatMap.mp he
    exact hwin.imm m (Option.mem_toList.mp hm) e hem
  have hne : ∀ {a b : Entry}, b.key.sequence < a.key.sequence → a.key ≠ b.key := by
    intro a b hlt heq
    rw [heq] at hlt
    exact lt_irrefl _ hlt
  refine List.pairwise_append.mpr ⟨List.pairwise_append.mpr ⟨?_, ?_, ?_⟩, ?_, ?_⟩
  · exact hi.mem.sorted.imp ne_of_lt
  · cases him : db.imm with
    | none => exact List.Pairwise.nil
    | some m =>
      simp only [Option.toList_some, List.flatMap_cons, List.flatMap_nil, List.append_nil]
      exact (hi.imm m him).sorted.imp ne_of_lt
  · intro a ha b hb
    exact hne (lt_of_le_of_lt (himm b hb).2 (hwin.mem a ha))
  · refine List.pairwise_flatMap.mpr ⟨fun f hf => ?_, ?_⟩
    · obtain ⟨l, hfl⟩ := (mem_allFiles hi.toCore).mp hf
      exact (hi.version.file l f hfl).sorted.imp ne_of_lt
    · refine (allFiles_pairwise hi.toCore).imp_of_mem ?_
      intro f g hf hg hnum a ha b hb
      obtain ⟨l, hfl⟩ := (mem_allFiles hi.toCore).mp hf
      obtain ⟨l', hgl⟩ := (mem_allFiles hi.toCore).mp hg
      exact hi.version.key_ne hfl hgl hnum ha hb
  · intro a ha b hb
    refine hne (lt_of_le_of_lt (htab b hb) ?_)
    rcases List.mem_append.mp ha with ha | ha
    · exact lt_of_le_of_lt hle (hwin.mem a ha)
    · exact (himm a ha).1

/-- The concatenated files of a level are sorted. -/
theorem level_sorted (hi : Inv db h) {l : Nat} (hl : 0 < l) :
    Sorted ((db.current.files l).flatMap (entriesOf db)) :=
  flatMap_sorted hi.version hl (hi.version.disjoint l hl) fun _ hf => hf

theorem pos_of_deep {l : Nat} (hl : l ∈ deepLevels db) : 0 < l :=
  (List.mem_range'_1.mp (List.mem_filter.mp hl).1).1

/-- **The internal iterator** yields the stored entries from the target on, in
    strictly increasing order. -/
theorem seekInternal_spec (hi : Inv db h) (hall : AllContain db) (target : InternalKey) :
    Sorted (seekInternal db target)
      ∧ ∀ e, e ∈ seekInternal db target ↔ Stored db e ∧ target ≤ e.key := by
  have hperm := KWayMerge.merge_perm entryBefore_iff (seekChildren db target)
  have hfile : ∀ l, ∀ f ∈ db.current.files l, Sorted (entriesOf db f) := fun l f hf =>
    (hi.version.file l f hf).sorted
  constructor
  · refine KWayMerge.merge_strict entryBefore_iff ?_
      ((allEntries_pairwise hi).sublist (seekChildren_flatten db target))
    simp only [seekChildren, List.forall_mem_append, List.forall_mem_singleton, List.forall_mem_map]
    refine ⟨⟨⟨?_, fun m hm => ?_⟩, fun f hf => ?_⟩, fun l hl => ?_⟩
    · exact hi.mem.sorted.sublist (seekEntries_sublist _ _)
    · exact (hi.imm m (Option.mem_toList.mp hm)).sorted.sublist (seekEntries_sublist _ _)
    · exact (hfile 0 f hf).sublist (seekEntries_sublist _ _)
    · exact (level_sorted hi (pos_of_deep hl)).sublist (seekLevel_sublist _ _ _)
  · intro e
    rw [seekInternal, hperm.mem_iff, seekChildren]
    simp only [List.flatten_append, List.flatten_singleton, List.mem_append]
    rw [← List.flatMap_def, ← List.flatMap_def, ← List.flatMap_def,
      mem_seekEntries hi.mem.sorted, List.mem_flatMap, List.mem_flatMap, List.mem_flatMap]
    constructor
    · rintro (((⟨he, hle⟩ | ⟨m, hm, he⟩) | ⟨f, hf, he⟩) | ⟨l, hl, he⟩)
      · exact ⟨Or.inl he, hle⟩
      · have hm' := Option.mem_toList.mp hm
        obtain ⟨he, hle⟩ := (mem_seekEntries (hi.imm m hm').sorted).mp he
        exact ⟨Or.inr (Or.inl ⟨m, hm', he⟩), hle⟩
      · obtain ⟨he, hle⟩ := (mem_seekEntries (hfile 0 f hf)).mp he
        exact ⟨Or.inr (Or.inr ⟨0, f, hf, he⟩), hle⟩
      · obtain ⟨f, hf, he, hle⟩ := (mem_seekLevel (hi.version.sortedLevel (pos_of_deep hl)) (hfile l)
          (hall l)).mp he
        exact ⟨Or.inr (Or.inr ⟨l, f, hf, he⟩), hle⟩
    · rintro ⟨he | ⟨m, hm, he⟩ | ⟨l, f, hf, he⟩, hle⟩
      · exact Or.inl (Or.inl (Or.inl ⟨he, hle⟩))
      · exact Or.inl (Or.inl (Or.inr ⟨m, Option.mem_toList.mpr hm,
          (mem_seekEntries (hi.imm m hm).sorted).mpr ⟨he, hle⟩⟩))
      · have hmem := (mem_allFiles hi.toCore).mpr ⟨l, hf⟩
        obtain ⟨l', hl', hf'⟩ := List.mem_flatMap.mp hmem
        rcases List.mem_cons.mp hl' with rfl | hl'
        · exact Or.inl (Or.inr ⟨f, hf', (mem_seekEntries (hfile 0 f hf')).mpr ⟨he, hle⟩⟩)
        · exact Or.inr ⟨l', hl', (mem_seekLevel (hi.version.sortedLevel (pos_of_deep hl')) (hfile l')
            (hall l')).mpr ⟨f, hf', he, hle⟩⟩

end Internal

/-! ## Scans -/

/-- From the start key on, a read sees the same versions. -/
theorem visible_from {P Q : Entry → Prop} {T : Set (Tomb Slice)} {start k v : Slice} {s : Nat}
    (hPQ : ∀ e, P e ↔ Q e ∧ lookupKey start s ≤ e.key) :
    Visible (versOf P) T k s v ↔ start ≤ k ∧ Visible (versOf Q) T k s v := by
  have hcongr : start ≤ k → ∀ v, Visible (versOf P) T k s v ↔ Visible (versOf Q) T k s v := by
    intro hle
    refine visible_congr (fun x hxk hxs => ⟨?_, ?_⟩) fun _ _ => Iff.rfl
    · rintro ⟨e, he, hp, rfl⟩
      exact ⟨e, ((hPQ e).mp he).1, hp, rfl⟩
    · rintro ⟨e, he, hp, rfl⟩
      refine ⟨e, (hPQ e).mpr ⟨he, ?_⟩, hp, rfl⟩
      rw [Entry.ver_key] at hxk
      rcases lt_or_eq_of_le hle with hlt | rfl
      · exact le_of_lt (InternalKey.lt_of_userKey_lt (hxk ▸ hlt))
      · exact (lookupKey_le_iff hxk).mpr hxs
  constructor
  · intro hv
    have hle : start ≤ k := by
      obtain ⟨x, hx, -⟩ := hv
      obtain ⟨e, he, -, rfl⟩ := hx.1.1
      exact hx.1.2.1 ▸ InternalKey.userKey_le ((hPQ e).mp he).2
    exact ⟨hle, (hcongr hle v).mp hv⟩
  · rintro ⟨hle, hv⟩
    exact (hcongr hle v).mpr hv

/-- **A scan reads what is stored.** -/
theorem scan_iff_visible {db : DB} {h : List Op} (hi : Inv db h) (hall : AllContain db) (s : Nat)
    {startKey endKey : Slice} (hlt : startKey < endKey) :
    (scan db s startKey endKey).Pairwise (fun p q => p.1 < q.1)
      ∧ ∀ k v, (k, v) ∈ scan db s startKey endKey ↔
          startKey ≤ k ∧ k < endKey ∧ Visible (storedVers db) (committedTombs h) k s v := by
  obtain ⟨hsorted, hmem⟩ := seekInternal_spec hi hall (lookupKey startKey s)
  obtain ⟨hpair, hyield⟩ := userEntries_spec (getRangeDeletions db) s
    (seekInternal db (lookupKey startKey s)) none hsorted
    (fun a ha b hb _ heq => (Stored.committed hi.toCore ((hmem a).mp ha).1).eq_of_sequence
      (Stored.committed hi.toCore ((hmem b).mp hb).1) heq)
    nofun
  have hscan : scan db s startKey endKey
      = (userEntries (getRangeDeletions db) s none
          (seekInternal db (lookupKey startKey s))).takeWhile fun p => decide (p.1 < endKey) := by
    rw [scan, if_neg (not_le_of_gt hlt)]
    exact scanLoop_eq endKey _ _ none (le_refl _)
  rw [hscan]
  refine ⟨hpair.sublist (List.takeWhile_sublist _), fun k v => ?_⟩
  have hvisible : Visible (versions (seekInternal db (lookupKey startKey s))) (committedTombs h)
      k s v ↔ startKey ≤ k ∧ Visible (storedVers db) (committedTombs h) k s v := visible_from hmem
  rw [OrderedLists.mem_takeWhile_lt hpair, hyield k v, tombs_getRangeDeletions hi.toCore, hvisible]
  constructor
  · rintro ⟨⟨-, hle, hv⟩, hend⟩
    exact ⟨hle, hend, hv⟩
  · rintro ⟨hle, hend, hv⟩
    exact ⟨⟨nofun, hle, hv⟩, hend⟩

/-- Every installed compaction passes the check of `SaveTo`, is untorn, and was
    started below the largest sequence number. -/
def ReadableInstalls (o : Options) (db : DB) (a : Action) : Prop :=
  UntornInstalls o db a ∧ BelowMax db a

instance (o : Options) (db : DB) (a : Action) : Decidable (ReadableInstalls o db a) :=
  inferInstanceAs (Decidable (_ ∧ _))

/-- **Range reads refine the sequential model**, in every run of readable
    installs: at a live sequence number, `Scan` returns exactly the visible keys of
    the range with their values, in strictly increasing order. -/
theorem scan_refines {o : Options} {db : DB} {h : List Op}
    (hreach : Reach o (ReadableInstalls o) db h) {s : Nat} (hs : Live db s)
    {startKey endKey : Slice} (hlt : startKey < endKey) :
    (scan db s startKey endKey).Pairwise (fun p q => p.1 < q.1)
      ∧ ∀ k v, (k, v) ∈ scan db s startKey endKey ↔
          startKey ≤ k ∧ k < endKey ∧ Visible (committedVers h) (committedTombs h) k s v := by
  obtain ⟨hi, hvis⟩ := visInv_reach (fun hp => ⟨hp.1.1, hp.2⟩) hreach
  have hall := allContain_reach (fun hp => hp.1) hreach
  obtain ⟨hpair, hmem⟩ := scan_iff_visible hi hall s hlt
  refine ⟨hpair, fun k v => ?_⟩
  rw [hmem k v, hvis s hs k v]

/-- A scan at the snapshot of `untornRun` reads the old version of `[97]`. -/
theorem scan_refines_untornRun :
    ∃ db, Reach sampleOptions (ReadableInstalls sampleOptions) db (opsOf untornRun)
      ∧ scan db 2 [97] [123] = [([97], [1]), ([122], [1])]
      ∧ (scan db 2 [97] [123]).Pairwise (fun p q => p.1 < q.1)
      ∧ ∀ k v, (k, v) ∈ scan db 2 [97] [123] ↔ [97] ≤ k ∧ k < [123]
          ∧ Visible (committedVers (opsOf untornRun)) (committedTombs (opsOf untornRun)) k 2 v := by
  have hrun : (run sampleOptions (ReadableInstalls sampleOptions) DB.init untornRun).any
      (fun db => Live db 2 ∧ scan db 2 [97] [123] = [([97], [1]), ([122], [1])]) = true := by
    decide +kernel
  obtain ⟨db, hreach, hs, hscan⟩ := reach_of_run hrun
  exact ⟨db, hreach, hscan, scan_refines hreach hs (by decide)⟩

/-- **A scan at a snapshot loses a key** of an output that ends with several
    versions of it: the level's file is skipped because its `largest` comes before
    the version sought. -/
theorem tornRun_scan_loses :
    ∃ db h, Reach sampleOptions (fun _ _ => True) db h ∧ Live db 1
      ∧ Visible (committedVers h) (committedTombs h) [107] 1 [1]
      ∧ ([107], [1]) ∉ scan db 1 [107] [108] := by
  have hrun : (run sampleOptions (fun _ _ => True) DB.init tornRun).any
      (fun db => Live db 1 ∧ scan db 1 [107] [108] = []) = true := by
    decide +kernel
  obtain ⟨db, hreach, hs, hscan⟩ := reach_of_run hrun
  refine ⟨db, _, hreach, hs, (visible_iff_storeAt (by decide) _ _).mpr (by decide), ?_⟩
  rw [hscan]
  exact List.not_mem_nil

end LdbScan
