import LevelDB.CustomComparator
import LevelDB.Get

/-! # When the database follows the comparator of the user

    Under a comparator that orders keys as `Slice::compare` does, the database is the
    one over byte strings, whose reads are right.  Under any other comparator two keys
    show the difference: if they compare equal and differ, a table does not find the one
    under the name of the other; if they compare in the other order, `DeleteRange` from
    one to the other does nothing. -/

namespace LdbCustomReads

open Versioned Tiered LdbFormat LdbVersion LdbTable LdbDb LdbEdit LdbSequential LdbVisibility
open LdbCustom

/-! ## Runs under the order of bytes -/

theorem inRange_bytes {a b k : Slice} : InRange sliceCompare a b k ↔ a ≤ k ∧ k < b := by
  rw [InRange, sliceCompare_lt]
  exact and_congr_left' (sliceCompare_gt.not.trans not_lt)

theorem storeAt_snoc (h : List Op) (op : Op) :
    storeAt (h ++ [op]) (h ++ [op]).length = LdbSequential.applyOp (storeAt h h.length) op := by
  rw [storeAt, storeAt, List.take_length, List.take_length, List.foldl_append]
  rfl

theorem entryOf_snoc (cmp : Slice → Slice → Ordering) (h : List Op) (op : Op) :
    entryOf cmp (h ++ [op]) = LdbCustom.applyOp cmp (entryOf cmp h) op := by
  rw [entryOf, entryOf, List.foldl_append]
  rfl

/-- The map of entries holds what the map of values holds. -/
def Agrees (store : Slice → Option (Slice × Slice)) (values : Slice → Option Slice) : Prop :=
  ∀ k, store k = (values k).map fun v => (k, v)

/-- One operation keeps the two maps in agreement. -/
theorem Agrees.applyOp {store : Slice → Option (Slice × Slice)} {values : Slice → Option Slice}
    (h : Agrees store values) (op : Op) :
    Agrees (LdbCustom.applyOp sliceCompare store op) (LdbSequential.applyOp values op) := by
  intro k
  -- a write of one key
  have hkey : ∀ key v, (if sliceCompare key k = .eq then v.map (key, ·) else store k)
      = (Function.update values key v k).map (k, ·) := by
    intro key v
    by_cases hk : key = k
    · subst hk
      rw [if_pos (sliceCompare_eq.mpr rfl), Function.update_self]
    · rw [if_neg fun hc => hk (sliceCompare_eq.mp hc), Function.update_of_ne (Ne.symm hk)]
      exact h k
  cases op with
  | put key value => exact hkey key (some value)
  | delete key => exact hkey key none
  | deleteRange a b =>
    show (if InRange sliceCompare a b k then none else store k)
      = (if a ≤ k ∧ k < b then none else values k).map _
    by_cases hk : a ≤ k ∧ k < b
    · rw [if_pos (inRange_bytes.mpr hk), if_pos hk]
      rfl
    · rw [if_neg fun hc => hk (inRange_bytes.mp hc), if_neg hk]
      exact h k

variable {o : Options}

/-- A step without a compaction needs its range deletions in order and nothing
    else. -/
theorem answerable {db : DB} {a : LdbDb.Action} (hne : a ≠ .installResults)
    (hp : LdbGet.ProperWrites a) : LdbGet.AnswerableInstalls o db a :=
  ⟨⟨⟨fun hc => absurd hc hne, fun hc => absurd hc hne⟩, fun hc => absurd hc hne⟩, hp,
    fun hc => absurd hc hne⟩

/-- **A run under the order of bytes is a run of the database**; the range deletions
    it leaves out are empty. -/
theorem reach_bytes {db : DB} {h : List Op} (hreach : LdbCustom.Reach sliceCompare o db h) :
    ∃ hc, LdbDb.Reach o (LdbGet.AnswerableInstalls o) db hc
      ∧ Agrees (entryOf sliceCompare h) (storeAt hc hc.length) := by
  induction hreach with
  | init => exact ⟨[], .init, fun k => rfl⟩
  | @step db db' h a _ hstep ih =>
    obtain ⟨hc, hr, hagree⟩ := ih
    -- a write of one operation, in both machines
    have hwrite : ∀ op, LdbGet.RangeInOrder op → LdbCustom.write sliceCompare db [op] = some db' →
        ∃ hc, LdbDb.Reach o (LdbGet.AnswerableInstalls o) db' hc
          ∧ Agrees (entryOf sliceCompare (h ++ [op])) (storeAt hc hc.length) := by
      intro op hop hw
      refine ⟨hc ++ [op], hr.step (a := .write [op]) (answerable nofun ?_) hw, ?_⟩
      · intro op' hop'
        rw [List.mem_singleton.mp hop']
        exact hop
      · rw [entryOf_snoc, storeAt_snoc]
        exact hagree.applyOp op
    -- a step that writes nothing
    have hidle : ∀ a : LdbDb.Action, a ≠ .installResults → a.ops = [] →
        LdbDb.step o db a = some db' → ∃ hc, LdbDb.Reach o (LdbGet.AnswerableInstalls o) db' hc
          ∧ Agrees (entryOf sliceCompare (h ++ [])) (storeAt hc hc.length) := by
      intro a hne hops hstep
      have hproper : LdbGet.ProperWrites a := fun op hop => absurd hop (hops ▸ List.not_mem_nil)
      refine ⟨_, hr.step (answerable hne hproper) hstep, ?_⟩
      rw [hops, List.append_nil, List.append_nil]
      exact hagree
    cases a with
    | put | delete => exact hwrite _ trivial hstep
    | deleteRange a b =>
      rw [LdbCustom.step] at hstep
      by_cases hlt : a < b
      · rw [if_neg (not_not_intro (sliceCompare_lt.mpr hlt))] at hstep
        exact hwrite _ hlt hstep
      · rw [if_pos fun hc => hlt (sliceCompare_lt.mp hc)] at hstep
        cases hstep
        refine ⟨hc, hr, fun k => ?_⟩
        show entryOf sliceCompare (h ++ [.deleteRange a b]) k = _
        rw [entryOf_snoc]
        show (if InRange sliceCompare a b k then none else entryOf sliceCompare h k) = _
        rw [if_neg fun hin => hlt (lt_of_le_of_lt (inRange_bytes.mp hin).1
          (inRange_bytes.mp hin).2)]
        exact hagree k
    | switchMemTable => exact hidle .switchMemTable nofun rfl hstep
    | compactMemTable =>
      have hsame : LdbDb.step o db .compactMemTable
          = LdbCustom.step sliceCompare o db .compactMemTable := by
        unfold LdbDb.step LdbCustom.step
        cases db.imm with
        | none => rfl
        | some m => rfl
      exact hidle .compactMemTable nofun rfl (hsame.trans hstep)

/-- Reads under the order of bytes. -/
theorem reads_bytes {db : DB} {h : List Op} (hreach : LdbCustom.Reach sliceCompare o db h) :
    (∀ k, LdbCustom.get sliceCompare db k = (entryOf sliceCompare h k).map Prod.snd)
      ∧ ∀ a b, (LdbCustom.scan sliceCompare db a b).Pairwise (fun p q => p.1 < q.1)
        ∧ ∀ p, p ∈ LdbCustom.scan sliceCompare db a b
          ↔ (a ≤ p.1 ∧ p.1 < b) ∧ entryOf sliceCompare h p.1 = some p := by
  obtain ⟨hc, hr, hagree⟩ := reach_bytes hreach
  obtain ⟨hi, hinv⟩ := LdbGet.readInv_reach hr
  obtain ⟨-, hvis⟩ := visInv_reach (fun hp => ⟨hp.1.1.1, hp.1.2⟩) hr
  have hlen : db.lastSequence = hc.length := hi.toCore.length
  have hstored : ∀ k v, Visible (storedVers db) (committedTombs hc) k db.lastSequence v
      ↔ storeAt hc hc.length k = some v := by
    intro k v
    rw [hvis db.lastSequence (Or.inr rfl) k v, hlen]
    exact visible_iff_storeAt (Nat.le_refl _) k v
  constructor
  · intro k
    rw [hagree k, Option.map_map]
    refine Option.ext fun v => ?_
    show db.get k db.lastSequence = _ ↔ _
    rw [LdbGet.get_iff_visible hi hinv (Or.inr (Nat.le_refl _)) k v, hstored k v]
    simp
  · intro a b
    show (LdbScan.scan db db.lastSequence a b).Pairwise _
      ∧ ∀ p, p ∈ LdbScan.scan db db.lastSequence a b ↔ _
    by_cases hlt : a < b
    · obtain ⟨hpair, hmem⟩ := LdbScan.scan_iff_visible hi hinv.contains db.lastSequence hlt
      refine ⟨hpair, fun p => ?_⟩
      obtain ⟨k, v⟩ := p
      rw [hmem k v, hstored k v, hagree k, and_assoc]
      simp
    · rw [LdbScan.scan, if_pos (le_of_not_gt hlt)]
      refine ⟨List.Pairwise.nil, fun p => iff_of_false List.not_mem_nil ?_⟩
      rintro ⟨⟨h1, h2⟩, -⟩
      exact hlt (lt_of_le_of_lt h1 h2)

/-- The database follows the order of bytes. -/
theorem follows_bytes (o : Options) : Follows sliceCompare o where
  get hreach := (reads_bytes hreach).1
  scan hreach a b := by
    obtain ⟨hpair, hmem⟩ := (reads_bytes hreach).2 a b
    refine ⟨hpair.imp sliceCompare_lt.mpr, fun p => ?_⟩
    rw [hmem p, inRange_bytes]
  deleteRange hreach a b db' hstep k := by
    rw [(reads_bytes hreach).1 k, (reads_bytes (hreach.step hstep)).1 k]
    show (entryOf sliceCompare (_ ++ [.deleteRange a b]) k).map _ = _
    rw [entryOf_snoc]
    show (if InRange sliceCompare a b k then none else entryOf sliceCompare _ k).map _ = _
    by_cases hin : InRange sliceCompare a b k
    · rw [if_pos hin, if_pos hin]
      rfl
    · rw [if_neg hin, if_neg hin]

/-! ## Two keys that show the difference -/

section Differ

variable {cmp : Slice → Slice → Ordering} {x y : Slice}

/-- A database with one entry. -/
theorem reach_put (cmp : Slice → Slice → Ordering) (o : Options) (x : Slice) :
    LdbCustom.Reach cmp o
      { DB.init with mem := ⟨[⟨⟨x, 1, .value⟩, [7]⟩], []⟩, lastSequence := 1 } [.put x [7]] := by
  refine Reach.step (a := .put x [7]) Reach.init ?_
  show LdbCustom.write cmp DB.init [.put x [7]] = _
  have hroom : DB.init.lastSequence + [Op.put x [7]].length ≤ kMaxSequenceNumber :=
    show 0 + 1 ≤ kMaxSequenceNumber by decide
  rw [LdbCustom.write, if_pos hroom]
  rfl

theorem pickLevel_empty [UserComparator] (o : Options) (lo hi : Slice) :
    Version.empty.pickLevelForMemTableOutput o lo hi = 2 := by
  have hoverlap : ∀ level,
      Version.empty.overlapInLevel level (some lo) (some hi) = false := by
    intro level
    rw [Version.overlapInLevel, someFileOverlapsRange]
    split_ifs <;> rfl
  have hsize : ∀ level b e,
      totalFileSize (Version.empty.getOverlappingInputs level b e) = 0 := fun _ _ _ => rfl
  rw [Version.pickLevelForMemTableOutput, hoverlap]
  simp [Version.pickLevelLoop, hoverlap, hsize, kMaxMemCompactLevel]

theorem applyEdit_empty [UserComparator] (level : Nat) (f : FileMetaData) :
    applyEdit Version.empty (({} : VersionEdit).addFile level f)
      = ⟨Function.update (fun _ => []) level [f]⟩ := by
  refine congrArg Version.mk (funext fun l => ?_)
  simp only [Builder.apply, Builder.new, VersionEdit.addFile, Version.empty, List.nil_append,
    List.foldl_nil, List.foldl_cons]
  by_cases hl : l = level
  · subst hl
    simp [LevelState.add, insertFile, mergeFiles]
  · simp [hl, mergeFiles]

/-- The file of the entry. -/
def entryFile (o : Options) (x : Slice) : FileMetaData :=
  ⟨3, o.finishedSize [⟨⟨x, 1, .value⟩, [7]⟩], ⟨x, 1, .value⟩, ⟨x, 1, .value⟩⟩

/-- The database when the entry is in a table. -/
def flushedDB (o : Options) (x : Slice) : DB :=
  { DB.init with
    current := ⟨Function.update (fun _ => []) 2 [entryFile o x]⟩
    tables := Function.update (fun _ => ⟨[], []⟩) 3 ⟨[⟨⟨x, 1, .value⟩, [7]⟩], []⟩
    nextFileNumber := 4
    lastSequence := 1 }

theorem reach_flushed (cmp : Slice → Slice → Ordering) (o : Options) (x : Slice) :
    LdbCustom.Reach cmp o (flushedDB o x) [.put x [7]] := by
  have hswitch := Reach.step (a := .switchMemTable) (reach_put cmp o x) rfl
  refine Reach.step (a := .compactMemTable) hswitch ?_
  let _ : UserComparator := ⟨cmp⟩
  show some (DB.compactMemTable o _ _) = _
  rw [DB.compactMemTable, writeLevel0Table]
  simp only [buildTable, List.head?_cons, List.getLast?_singleton, List.foldl_nil]
  have hlevel : DB.init.current.pickLevelForMemTableOutput o x x = 2 := pickLevel_empty o x x
  rw [hlevel]
  exact congrArg (fun v => some { flushedDB o x with current := v }) (applyEdit_empty 2 _)

/-- A table does not find an entry under another name of its key. -/
theorem flushed_get [UserComparator] (o : Options) (hxy : userCompare x y = .eq)
    (hyx : userCompare y x = .eq) (hne : x ≠ y) : (flushedDB o x).get y 1 = none := by
  have hseek : internalCompare ⟨x, 1, .value⟩ (lookupKey y 1) ≠ .lt := by
    show (userCompare x y).then (compare (packSequenceAndType 1 .rangeDeletion)
      (packSequenceAndType 1 .value)) ≠ .lt
    rw [hxy]
    decide
  have hvisits : (flushedDB o x).current.forEachOverlapping y (lookupKey y 1)
      = [(2, entryFile o x)] := by
    have hfind : findFile [entryFile o x] (lookupKey y 1) = 0 := by
      rw [findFile, List.length_singleton, findFileLoop, if_pos Nat.one_pos]
      exact if_neg hseek
    have hat : visitedAt [entryFile o x] y (lookupKey y 1) = some (entryFile o x) := by
      rw [visitedAt, hfind]
      show (if userCompare y x = .lt then none else some (entryFile o x)) = _
      rw [hyx, if_neg (by decide)]
    show [] ++ [1, 2, 3, 4, 5, 6].filterMap (fun level =>
      (visitedAt (Function.update (fun _ => []) 2 [entryFile o x] level) y
        (lookupKey y 1)).map fun f => (level, f)) = _
    have hnil : visitedAt [] y (lookupKey y 1) = none := rfl
    simp [hat, hnil]
  have hget : Table.internalGet ⟨[⟨⟨x, 1, .value⟩, [7]⟩], []⟩ y 1 = .absent := by
    rw [Table.internalGet, seekEntries, List.dropWhile_cons_of_neg]
    · exact if_neg hne
    · simpa using hseek
  rw [DB.get]
  show firstAnswer (.absent :: ([] ++ ((flushedDB o x).current.forEachOverlapping y
    (lookupKey y 1)).map _)) = none
  rw [hvisits]
  show firstAnswer [.absent, Table.internalGet ⟨[⟨⟨x, 1, .value⟩, [7]⟩], []⟩ y 1] = none
  rw [hget]
  rfl

/-- A database that follows the comparator finds an entry under every name of its
    key, so keys that compare equal are equal. -/
theorem eq_of_follows [Std.TransCmp cmp] (hf : Follows cmp o) (hxy : cmp x y = .eq) : x = y := by
  by_contra hne
  have hyx : cmp y x = .eq := Std.OrientedCmp.eq_symm hxy
  have hget := hf.get (reach_flushed cmp o x) y
  have hnone : LdbCustom.get cmp (flushedDB o x) y = none := @flushed_get _ _ ⟨cmp⟩ o hxy hyx hne
  have hentry : entryOf cmp [.put x [7]] y = some (x, [7]) := if_pos hxy
  rw [hnone, hentry] at hget
  cases hget

/-- In such a database `DeleteRange` up to a larger key deletes, so the key is larger
    in the order of bytes. -/
theorem lt_of_follows [Std.TransCmp cmp] (hf : Follows cmp o) (hxy : cmp x y = .lt) : x < y := by
  by_contra hnot
  have hself : cmp x x = .eq := Std.ReflCmp.compare_self
  have hreach := reach_put cmp o x
  -- the guard of `DeleteRange` compares bytes
  have hstep : LdbCustom.step cmp o
      { DB.init with mem := ⟨[⟨⟨x, 1, .value⟩, [7]⟩], []⟩, lastSequence := 1 } (.deleteRange x y)
      = some { DB.init with mem := ⟨[⟨⟨x, 1, .value⟩, [7]⟩], []⟩, lastSequence := 1 } :=
    if_pos fun hc => hnot (sliceCompare_lt.mp hc)
  have hin : InRange cmp x y x := ⟨by rw [hself]; decide, hxy⟩
  have hdel := hf.deleteRange hreach x y _ hstep x
  have hentry : entryOf cmp [.put x [7]] x = some (x, [7]) := if_pos hself
  rw [if_pos hin, hf.get hreach x, hentry] at hdel
  cases hdel

/-- **When the database follows the comparator of the user**: just when it orders
    keys as `Slice::compare` does. -/
theorem follows_iff_bytes (cmp : Slice → Slice → Ordering) [Std.TransCmp cmp] (o : Options) :
    Follows cmp o ↔ ∀ x y, cmp x y = sliceCompare x y := by
  constructor
  · intro hf x y
    cases hxy : cmp x y with
    | lt => exact (sliceCompare_lt.mpr (lt_of_follows hf hxy)).symm
    | eq => exact (sliceCompare_eq.mpr (eq_of_follows hf hxy)).symm
    | gt => exact (sliceCompare_gt.mpr (lt_of_follows hf (Std.OrientedCmp.lt_of_gt hxy))).symm
  · intro heq
    have hcmp : cmp = sliceCompare := funext fun x => funext fun y => heq x y
    rw [hcmp]
    exact follows_bytes o

end Differ

instance : Std.TransCmp sliceCompare where
  eq_swap {a b} := by
    rcases lt_trichotomy a b with h | h | h
    · rw [sliceCompare_lt.mpr h, sliceCompare_gt.mpr h]
      rfl
    · rw [sliceCompare_eq.mpr h, sliceCompare_eq.mpr h.symm]
      rfl
    · rw [sliceCompare_gt.mpr h, sliceCompare_lt.mpr h]
      rfl
  isLE_trans {a b c} hab hbc := by
    have hle : ∀ {x y : Slice}, (sliceCompare x y).isLE = true ↔ x ≤ y :=
      Ordering.isLE_iff_ne_gt.trans (sliceCompare_gt.not.trans not_lt)
    exact hle.mpr (le_trans (hle.mp hab) (hle.mp hbc))

/-- The order of bytes itself is followed. -/
theorem follows_sliceCompare : Follows sliceCompare sampleOptions :=
  (follows_iff_bytes sliceCompare sampleOptions).mpr fun _ _ => rfl

/-- A comparator under which keys of one length are equal. -/
def byLength (a b : Slice) : Ordering := compare a.length b.length

instance : Std.TransCmp byLength :=
  inferInstanceAs (Std.TransCmp (compareOn List.length))

/-- **A table does not find the key**: an entry is written under one name of its key
    and read under another; it is found in the memtable and not after the flush. -/
theorem byLength_not_found :
    entryOf byLength [.put [1] [7]] [2] = some ([1], [7])
      ∧ (∃ db, LdbCustom.Reach byLength sampleOptions db [.put [1] [7]]
        ∧ LdbCustom.get byLength db [2] = some [7])
      ∧ ∃ db, LdbCustom.Reach byLength sampleOptions db [.put [1] [7]]
        ∧ LdbCustom.get byLength db [2] = none :=
  ⟨by decide, ⟨_, reach_put byLength sampleOptions [1], by decide⟩,
    ⟨_, reach_flushed byLength sampleOptions [1],
      @flushed_get _ _ ⟨byLength⟩ sampleOptions (by decide) (by decide) (by decide)⟩⟩

end LdbCustomReads
