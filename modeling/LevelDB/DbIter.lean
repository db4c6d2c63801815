import LevelDB.Cursor
import LevelDB.Scan
import LevelDB.EditCodec

/-! # The user iterator

    `DBIter` (`db/db_iter.cc`) over an internal iterator: the fields it keeps
    between calls, and its calls as the source has them.  The internal iterator is
    a cursor over the merged entries, with keys that parse; `dels` are the
    tombstones the constructor collected and `sequence` is the sequence number it
    reads at.  Read sampling changes nothing here and is left out. -/

namespace LdbDbIter

open Versioned Cursors LdbFormat LdbEditCodec LdbTable LdbScan

/-- `DBIter::Direction`. -/
inductive Direction where
  | forward
  | reverse
  deriving DecidableEq

/-- The fields of a `DBIter` that change. -/
structure DBIter where
  iter : Cursor Entry
  savedKey : Slice
  savedValue : Slice
  direction : Direction
  valid : Bool
  deriving DecidableEq

/-- A new iterator stands nowhere. -/
def DBIter.new (iter : Cursor Entry) : DBIter := ⟨iter, [], [], .forward, false⟩

/-- `DBIter::key`. -/
def DBIter.key (it : DBIter) : Slice :=
  match it.direction with
  | .forward => (it.iter.current.map (·.key.userKey)).getD []
  | .reverse => it.savedKey

/-- `DBIter::value`. -/
def DBIter.value (it : DBIter) : Slice :=
  match it.direction with
  | .forward => (it.iter.current.map (·.value)).getD []
  | .reverse => it.savedValue

section Calls

variable (dels : List RangeDeletion) (sequence : Nat)

/-- The loop of `FindNextUserEntry` from an internal position `left`, `right` on.
    `skip` is `saved_key_` in every call. -/
def DBIter.findNextLoop : DBIter → Bool → List Entry → List Entry → DBIter
  | it, _, left, [] => { it with iter := ⟨left, []⟩, savedKey := [], valid := false }
  | it, skipping, left, e :: rest =>
    if e.key.sequence ≤ sequence then
      match e.key.type with
      | .deletion =>
        DBIter.findNextLoop { it with savedKey := e.key.userKey } true (e :: left) rest
      | .rangeDeletion => DBIter.findNextLoop it skipping (e :: left) rest
      | .value =>
        if isDeleted dels e.key.userKey e.key.sequence sequence = true then
          DBIter.findNextLoop it skipping (e :: left) rest
        else if skipping = true ∧ e.key.userKey ≤ it.savedKey then
          DBIter.findNextLoop it skipping (e :: left) rest
        else
          { it with
            iter := ⟨left, e :: rest⟩
            savedKey := e.key.userKey
            savedValue := e.value
            valid := true }
    else DBIter.findNextLoop it skipping (e :: left) rest

/-- `DBIter::FindNextUserEntry`. -/
def DBIter.findNextUserEntry (it : DBIter) (skipping : Bool) : DBIter :=
  it.findNextLoop dels sequence skipping it.iter.left it.iter.right

/-- The end of `Seek` and `SeekToFirst`. -/
def DBIter.findFirst (it : DBIter) : DBIter :=
  if it.iter.valid = true then it.findNextUserEntry dels sequence false
  else { it with valid := false }

/-- `DBIter::Seek`, when `iter_->Seek` leaves the internal iterator at `iter`. -/
def DBIter.seekAt (it : DBIter) (target : Slice) (iter : Cursor Entry) : DBIter :=
  DBIter.findFirst dels sequence { it with
    direction := .forward
    savedValue := []
    savedKey := encodeKey (lookupKey target sequence)
    iter := iter }

/-- `DBIter::Seek` over a cursor. -/
def DBIter.seek (it : DBIter) (target : Slice) : DBIter :=
  it.seekAt dels sequence target
    (it.iter.seek fun e => decide (e.key < lookupKey target sequence))

/-- `DBIter::SeekToFirst`. -/
def DBIter.seekToFirst (it : DBIter) : DBIter :=
  DBIter.findFirst dels sequence
    { it with direction := .forward, savedValue := [], iter := it.iter.seekToFirst }

/-- What `Next` does first: in the reverse direction the internal iterator stands
    before the entries of the current key, or nowhere. -/
def DBIter.leaveKey (it : DBIter) : DBIter :=
  match it.direction with
  | .reverse => { it with
      direction := .forward
      iter := if it.iter.valid = true then it.iter.next else it.iter.seekToFirst }
  | .forward => { it with savedKey := it.key, iter := it.iter.next }

/-- The end of `Next`. -/
def DBIter.findAfter (it : DBIter) : DBIter :=
  if it.iter.valid = true then it.findNextUserEntry dels sequence true
  else { it with valid := false, savedKey := [] }

/-- `DBIter::Next`. -/
def DBIter.next (it : DBIter) : DBIter := it.leaveKey.findAfter dels sequence

/-- What `FindPrevUserEntry` takes an entry for: under a tombstone it is treated as
    a deletion. -/
def foundType (e : Entry) : ValueType :=
  if isDeleted dels e.key.userKey e.key.sequence sequence = true then .deletion else e.key.type

/-- What the loop of `FindPrevUserEntry` keeps of an entry. -/
def DBIter.save (it : DBIter) (e : Entry) : DBIter :=
  match foundType dels sequence e with
  | .value => { it with savedKey := e.key.userKey, savedValue := e.value }
  | .deletion | .rangeDeletion => { it with savedKey := [], savedValue := [] }

/-- The loop of `FindPrevUserEntry` over the entries from the current one backwards,
    with `after` behind them; `found` is `value_type`. -/
def DBIter.findPrevLoop : DBIter → ValueType → List Entry → List Entry → DBIter × ValueType
  | it, found, [], after => ({ it with iter := Cursor.prev ⟨[], after⟩ }, found)
  | it, found, e :: before, after =>
    if e.key.sequence ≤ sequence then
      if found ≠ .deletion ∧ e.key.userKey < it.savedKey then
        ({ it with iter := ⟨before, e :: after⟩ }, found)
      else
        DBIter.findPrevLoop (it.save dels sequence e) (foundType dels sequence e) before
          (e :: after)
    else DBIter.findPrevLoop it found before (e :: after)

/-- The end of `FindPrevUserEntry`. -/
def DBIter.conclude (it : DBIter) (found : ValueType) : DBIter :=
  if found = .deletion then
    { it with valid := false, savedKey := [], savedValue := [], direction := .forward }
  else { it with valid := true }

/-- `DBIter::FindPrevUserEntry`. -/
def DBIter.findPrevUserEntry (it : DBIter) : DBIter :=
  match it.iter.right with
  | [] => it.conclude .deletion
  | e :: after =>
    DBIter.conclude (it.findPrevLoop dels sequence .deletion (e :: it.iter.left) after).1
      (it.findPrevLoop dels sequence .deletion (e :: it.iter.left) after).2

/-- `DBIter::SeekToLast`. -/
def DBIter.seekToLast (it : DBIter) : DBIter :=
  DBIter.findPrevUserEntry dels sequence
    { it with direction := .reverse, savedValue := [], iter := it.iter.seekToLast }

/-- The loop of `Prev` that leaves the entries of the saved key, from an internal
    position `left`, `right`. -/
def DBIter.prevLoop : DBIter → List Entry → List Entry → DBIter
  | it, [], right =>
    { it with iter := Cursor.prev ⟨[], right⟩, valid := false, savedKey := [], savedValue := [] }
  | it, e :: left, right =>
    if e.key.userKey < it.savedKey then
      DBIter.findPrevUserEntry dels sequence
        { it with iter := ⟨left, e :: right⟩, direction := .reverse }
    else DBIter.prevLoop it left (e :: right)

/-- `DBIter::Prev`. -/
def DBIter.prev (it : DBIter) : DBIter :=
  match it.direction with
  | .forward =>
    DBIter.prevLoop dels sequence { it with savedKey := it.key } it.iter.left it.iter.right
  | .reverse => it.findPrevUserEntry dels sequence

/-- The calls of a `DBIter` that seeks by `seek`.  Its status stays good: every key
    parses. -/
def dbIterBy (seek : Slice → DBIter → DBIter) : IteratorOps DBIter Slice Slice Unit where
  valid := DBIter.valid
  key := DBIter.key
  value := DBIter.value
  status _ := ()
  seekToFirst := DBIter.seekToFirst dels sequence
  seekToLast := DBIter.seekToLast dels sequence
  seek := seek
  next := DBIter.next dels sequence
  prev := DBIter.prev dels sequence

/-- The calls of a `DBIter` over a cursor. -/
def dbIter : IteratorOps DBIter Slice Slice Unit :=
  dbIterBy dels sequence fun target it => it.seek dels sequence target

/-- What a caller sees that moves forward until the iterator is not valid: a pair
    at each position. -/
def Yields : DBIter → List (Slice × Slice) → Prop
  | it, [] => it.valid = false
  | it, p :: rest => it.valid = true ∧ (it.key, it.value) = p
      ∧ Yields (it.next dels sequence) rest

/-- Moving forward from here visits the pairs of `P` in strictly increasing order
    of their keys, each once, and ends. -/
def Visits (it : DBIter) (P : Slice → Slice → Prop) : Prop :=
  ∃ shown : List (Slice × Slice), shown.Pairwise (fun p q => p.1 < q.1)
    ∧ (∀ k v, (k, v) ∈ shown ↔ P k v) ∧ Yields dels sequence it shown

end Calls

/-! ## The loop -/

section Forward

variable {dels : List RangeDeletion} {s : Nat}

/-- The key that `FindNextUserEntry` skips, if any. -/
def skipKey (skipping : Bool) (savedKey : Slice) : Option Slice :=
  if skipping = true then some savedKey else none

/-- A forward iterator shows what its internal iterator stands on. -/
structure Forward (it : DBIter) : Prop where
  direction : it.direction = .forward
  valid : it.valid = it.iter.valid

/-- **What the loop does**: it stops at the first entry that `visitEntry` does not
    pass over. -/
theorem findNextLoop_spec (right : List Entry) :
    ∀ (it : DBIter) (skipping : Bool) (left : List Entry), it.direction = .forward →
      Forward (it.findNextLoop dels s skipping left right)
        ∧ (it.findNextLoop dels s skipping left right).iter.right
            = findNextUserEntry dels s (skipKey skipping it.savedKey) right := by
  induction right with
  | nil =>
    intro it skipping left hdir
    exact ⟨⟨hdir, rfl⟩, rfl⟩
  | cons e rest ih =>
    intro it skipping left hdir
    rw [DBIter.findNextLoop, findNextUserEntry, visitEntry]
    by_cases hseq : e.key.sequence ≤ s
    · rw [if_pos hseq, if_pos hseq]
      cases ht : e.key.type with
      | deletion => exact ih { it with savedKey := e.key.userKey } true (e :: left) hdir
      | rangeDeletion => exact ih it skipping (e :: left) hdir
      | value =>
        simp only
        by_cases hdel : isDeleted dels e.key.userKey e.key.sequence s = true
        · rw [if_pos hdel, if_pos hdel]
          exact ih it skipping (e :: left) hdir
        · rw [if_neg hdel, if_neg hdel]
          by_cases hskip : skipping = true ∧ e.key.userKey ≤ it.savedKey
          · have hany : (skipKey skipping it.savedKey).any
                (fun k => decide (userCompare e.key.userKey k ≠ .gt)) = true := by
              rw [skipKey, if_pos hskip.1]
              simpa using hskip.2
            rw [if_pos hskip, if_pos hany]
            exact ih it skipping (e :: left) hdir
          · have hany : ¬ (skipKey skipping it.savedKey).any
                (fun k => decide (userCompare e.key.userKey k ≠ .gt)) = true := by
              intro h
              obtain ⟨k, hk, hle⟩ := (Option.any_eq_true _ _).mp h
              rw [skipKey] at hk
              split_ifs at hk with hs
              cases hk
              exact hskip ⟨hs, by simpa using hle⟩
            rw [if_neg hskip, if_neg hany]
            exact ⟨⟨hdir, rfl⟩, rfl⟩
    · rw [if_neg hseq, if_neg hseq]
      exact ih it skipping (e :: left) hdir

/-- The loop after the test whether the internal iterator is valid. -/
theorem findNext_or_end (dels : List RangeDeletion) (s : Nat) (it : DBIter)
    (hdir : it.direction = .forward) (skipping : Bool) (key : Slice) :
    let it' := if it.iter.valid = true then it.findNextUserEntry dels s skipping
      else { it with valid := false, savedKey := key }
    Forward it' ∧ it'.iter.right
      = findNextUserEntry dels s (skipKey skipping it.savedKey) it.iter.right := by
  by_cases hv : it.iter.valid = true
  · simp only [if_pos hv]
    exact findNextLoop_spec it.iter.right it skipping it.iter.left hdir
  · simp only [if_neg hv]
    have hnil : it.iter.right = [] := by simpa [Cursor.valid] using hv
    refine ⟨⟨hdir, by simpa using hv⟩, ?_⟩
    rw [hnil]
    rfl

theorem findNextLoop_contents (right : List Entry) :
    ∀ (it : DBIter) (skipping : Bool) (left : List Entry),
      (it.findNextLoop dels s skipping left right).iter.contents = left.reverse ++ right := by
  induction right with
  | nil => intro it skipping left; rfl
  | cons e rest ih =>
    intro it skipping left
    have hstep : (e :: left).reverse ++ rest = left.reverse ++ e :: rest := by simp
    rw [DBIter.findNextLoop, ← hstep]
    by_cases hseq : e.key.sequence ≤ s
    · rw [if_pos hseq]
      cases e.key.type with
      | deletion => exact ih _ _ _
      | rangeDeletion => exact ih _ _ _
      | value =>
        simp only
        split_ifs
        · exact ih _ _ _
        · exact ih _ _ _
        · exact hstep.symm
    · rw [if_neg hseq]
      exact ih _ _ _

theorem findFirst_contents (it : DBIter) :
    (it.findFirst dels s).iter.contents = it.iter.contents := by
  rw [DBIter.findFirst]
  split_ifs
  · exact findNextLoop_contents _ _ _ _
  · rfl

theorem next_contents (it : DBIter) : (it.next dels s).iter.contents = it.iter.contents := by
  have hleave : it.leaveKey.iter.contents = it.iter.contents := by
    rw [DBIter.leaveKey]
    cases it.direction with
    | forward => exact Cursor.next_contents _
    | reverse =>
      show (if it.iter.valid = true then it.iter.next else it.iter.seekToFirst).contents = _
      split_ifs
      · exact Cursor.next_contents _
      · rfl
  rw [← hleave, DBIter.next, DBIter.findAfter]
  split_ifs
  · exact findNextLoop_contents _ _ _ _
  · rfl

variable {it : DBIter}

/-- **`Next` from a forward position** skips the key it stands on. -/
theorem next_forward (dels : List RangeDeletion) (s : Nat) (h : Forward it)
    {e : Entry} {rest : List Entry}
    (hright : it.iter.right = e :: rest) :
    Forward (it.next dels s)
      ∧ (it.next dels s).iter.right = findNextUserEntry dels s (some e.key.userKey) rest := by
  have hkey : it.key = e.key.userKey := by
    rw [DBIter.key, h.direction]
    simp [Cursor.current, hright]
  have hnext : it.iter.next.right = rest := by
    obtain ⟨⟨left, right⟩, _, _, _, _⟩ := it
    simp only at hright
    subst hright
    rfl
  have hstep := findNext_or_end dels s { it with savedKey := it.key, iter := it.iter.next }
    h.direction true []
  simp only [hnext, hkey, h.direction] at hstep
  rw [DBIter.next, DBIter.leaveKey, h.direction]
  simp only [hkey]
  exact hstep

/-- **`Next` from a reverse position** skips the saved key. -/
theorem next_reverse (dels : List RangeDeletion) (s : Nat)
    (hdir : it.direction = .reverse) {before after : List Entry}
    (hiter : it.iter = Cursor.prev ⟨before, after⟩) :
    Forward (it.next dels s)
      ∧ (it.next dels s).iter.right = findNextUserEntry dels s (some it.savedKey) after := by
  have hleave : it.leaveKey = { it with direction := .forward, iter := ⟨before, after⟩ } := by
    rw [DBIter.leaveKey, hdir, hiter]
    simp only [Cursor.next_or_first_prev]
  rw [DBIter.next, hleave]
  exact findNext_or_end dels s { it with direction := .forward, iter := ⟨before, after⟩ } rfl true []

/-- The iterator stands on the first entry it yields. -/
theorem head?_userEntries (L : List Entry) :
    ∀ skip, (userEntries dels s skip L).head?
      = (findNextUserEntry dels s skip L).head?.map fun e => (e.key.userKey, e.value) := by
  induction L with
  | nil => intro skip; rfl
  | cons e rest ih =>
    intro skip
    rw [userEntries, findNextUserEntry]
    cases visitEntry dels s skip e with
    | some skip' => exact ih skip'
    | none => rfl

/-- **A forward iterator yields what `userEntries` makes of the entries in front of
    it.** -/
theorem yields_of_forward (right : List Entry) :
    ∀ (it : DBIter) (skip : Option Slice), Forward it →
      it.iter.right = findNextUserEntry dels s skip right →
      Yields dels s it (userEntries dels s skip right) := by
  -- the entries the loop passes over leave both sides as they are
  induction right with
  | nil =>
    intro it skip hf hright
    show it.valid = false
    rw [hf.valid, Cursor.valid, hright]
    rfl
  | cons e rest ih =>
    intro it skip hf hright
    rw [findNextUserEntry] at hright
    rw [userEntries]
    cases hv : visitEntry dels s skip e with
    | some skip' =>
      simp only [hv] at hright ⊢
      exact ih it skip' hf hright
    | none =>
      simp only [hv] at hright ⊢
      obtain ⟨hf', hright'⟩ := next_forward dels s hf hright
      refine ⟨?_, ?_, ih _ _ hf' hright'⟩
      · rw [hf.valid, Cursor.valid, hright]
        rfl
      · simp [DBIter.key, DBIter.value, hf.direction, Cursor.current, hright]

theorem seekToFirst_yields (it : DBIter) :
    Yields dels s (it.seekToFirst dels s) (userEntries dels s none it.iter.contents) := by
  obtain ⟨hf, hright⟩ := findNext_or_end dels s
    { it with direction := .forward, savedValue := [], iter := it.iter.seekToFirst }
    rfl false it.savedKey
  exact yields_of_forward _ _ _ hf hright

theorem seekAt_spec (dels : List RangeDeletion) (s : Nat) (it : DBIter) (target : Slice)
    (iter : Cursor Entry) :
    Forward (it.seekAt dels s target iter)
      ∧ (it.seekAt dels s target iter).iter.right = findNextUserEntry dels s none iter.right :=
  findNext_or_end dels s
    { it with
      direction := .forward
      savedValue := []
      savedKey := encodeKey (lookupKey target s)
      iter := iter }
    rfl false (encodeKey (lookupKey target s))

theorem seekAt_yields (it : DBIter) (target : Slice) (iter : Cursor Entry) :
    Yields dels s (it.seekAt dels s target iter) (userEntries dels s none iter.right) := by
  obtain ⟨hf, hright⟩ := seekAt_spec dels s it target iter
  exact yields_of_forward _ _ _ hf hright

/-- A seek to `(target, s)` keeps what a read of a key from `target` on sees. -/
theorem visible_seekEntries {E : List Entry} (hs : Sorted E) {T : Set (Tomb Slice)}
    {target k v : Slice} :
    Visible (versions (seekEntries (lookupKey target s) E)) T k s v
      ↔ target ≤ k ∧ Visible (versions E) T k s v :=
  visible_from fun _ => mem_seekEntries hs

section

variable (hs : Sorted it.iter.contents)
  (hinj : ∀ a ∈ it.iter.contents, ∀ b ∈ it.iter.contents,
    a.key.userKey = b.key.userKey → a.key.sequence = b.key.sequence → a = b)
include hs hinj

/-- **`SeekToFirst` and then forward**: every visible key, whatever was done with
    the iterator before. -/
theorem seekToFirst_visits :
    Visits dels s (it.seekToFirst dels s)
      (Visible (versions it.iter.contents) (tombs dels) · s ·) := by
  obtain ⟨hp, hm⟩ := userEntries_spec dels s it.iter.contents none hs hinj (by simp)
  refine ⟨_, hp, fun k v => ?_, seekToFirst_yields it⟩
  rw [hm k v]
  simp

/-- **`Seek` and then forward**: every visible key from the target on. -/
theorem seek_visits (target : Slice) :
    Visits dels s (it.seek dels s target)
      fun k v => target ≤ k ∧ Visible (versions it.iter.contents) (tombs dels) k s v := by
  have hsub := seekEntries_sublist (lookupKey target s) it.iter.contents
  obtain ⟨hp, hm⟩ := userEntries_spec dels s (seekEntries (lookupKey target s) it.iter.contents)
    none (hs.sublist hsub)
    (fun a ha b hb => hinj a (hsub.subset ha) b (hsub.subset hb)) (by simp)
  rw [seekEntries_eq] at hp hm
  refine ⟨_, hp, fun k v => ?_, seekAt_yields it target _⟩
  rw [hm k v, ← seekEntries_eq, visible_seekEntries hs]
  simp

end

end Forward

/-- **Forward iteration shows exactly the visible keys.**  Whatever was done with
    the iterator before, after `SeekToFirst`, and after `Seek(target)`, moving
    forward visits in strictly increasing order the keys whose newest `Put` or
    `Delete` numbered at most `s` is a `Put` that no tombstone numbered at most
    `s` is newer than, each with its value, and then the iterator is not valid. -/
theorem forward_visits_visible (dels : List RangeDeletion) (s : Nat) (it : DBIter)
    (hs : Sorted it.iter.contents)
    (hinj : ∀ a ∈ it.iter.contents, ∀ b ∈ it.iter.contents,
      a.key.userKey = b.key.userKey → a.key.sequence = b.key.sequence → a = b) :
    Visits dels s (it.seekToFirst dels s)
        (fun k v => Visible (versions it.iter.contents) (tombs dels) k s v)
      ∧ ∀ target, Visits dels s (it.seek dels s target)
          fun k v => target ≤ k ∧ Visible (versions it.iter.contents) (tombs dels) k s v :=
  ⟨seekToFirst_visits hs hinj, seek_visits hs hinj⟩

/-- An internal iterator with several versions of a key, a deleted key, a marker
    and a value under a tombstone. -/
def sampleIter : DBIter := DBIter.new ⟨[],
  [⟨⟨[1], 9, .value⟩, [90]⟩, ⟨⟨[1], 4, .value⟩, [40]⟩, ⟨⟨[2], 5, .deletion⟩, []⟩,
    ⟨⟨[2], 3, .value⟩, [30]⟩, ⟨⟨[3], 6, .rangeDeletion⟩, [5]⟩, ⟨⟨[3], 2, .value⟩, [20]⟩,
    ⟨⟨[5], 7, .value⟩, [70]⟩]⟩

theorem forward_visits_visible_sample :
    Visits [⟨[3], [5], 6⟩] 8 (sampleIter.seekToFirst [⟨[3], [5], 6⟩] 8)
        (fun k v => Visible (versions sampleIter.iter.contents) (tombs [⟨[3], [5], 6⟩]) k 8 v)
      ∧ Yields [⟨[3], [5], 6⟩] 8 (sampleIter.seekToFirst [⟨[3], [5], 6⟩] 8)
          [([1], [40]), ([5], [70])] :=
  ⟨(forward_visits_visible _ 8 sampleIter (by decide) (by decide)).1,
    ⟨by decide, by decide, by decide, by decide, show _ = false by decide⟩⟩

end LdbDbIter
