import LevelDB.DbIter

/-! # Iterating backwards

    `FindPrevUserEntry` (`db/db_iter.cc`) walks back over the internal entries and
    settles a user key when it meets a readable entry of a smaller one: by then it
    has seen the newest readable entry of the key, whatever its type.  Forward
    iteration ignores the markers of range deletions; this walk does not.  A marker
    that no tombstone hides is the newest entry of its key like any other, so the
    value under it is not shown, and when it is the last entry the walk meets, the
    iterator ends valid with an empty key.

    `walked` is what a walk back shows (`walk_back`), and the calls of the iterator
    are those of a cursor over the visible pairs exactly if that is the visible
    pairs in reverse, which the markers decide (`MarkersAside`). -/

namespace LdbReverse

open Versioned Cursors LdbFormat LdbEditCodec LdbTable LdbScan LdbDbIter

section Walk

variable (dels : List RangeDeletion) (s : Nat)

/-- What is still to be shown when the loop has found `found` with the pair `p`
    saved, `before` lies before it, and the walk over `before` shows `rest`.  A
    readable entry of the same key replaces a value, and any readable entry a
    marker. -/
def pending (found : ValueType) (p : Slice × Slice) (before : List Entry)
    (rest : List (Slice × Slice)) : List (Slice × Slice) :=
  if found = .deletion ∨ ∃ x ∈ before, x.key.sequence ≤ s ∧ (found = .value → x.key.userKey = p.1)
  then rest else p :: rest

/-- The pair the loop keeps of an entry. -/
def savedPair (e : Entry) : Slice × Slice :=
  match foundType dels s e with
  | .value => (e.key.userKey, e.value)
  | .deletion | .rangeDeletion => ([], [])

/-- **What a walk back shows**, over the entries from the current one backwards. -/
def walked : List Entry → List (Slice × Slice)
  | [] => []
  | e :: before =>
    if e.key.sequence ≤ s then
      pending s (foundType dels s e) (savedPair dels s e) before (walked before)
    else walked before

end Walk

variable {dels : List RangeDeletion} {s : Nat}

/-! ## The loop -/

theorem save_pair (it : DBIter) (e : Entry) :
    ((it.save dels s e).savedKey, (it.save dels s e).savedValue) = savedPair dels s e := by
  rw [DBIter.save, savedPair]
  cases foundType dels s e <;> rfl

theorem save_direction (dels : List RangeDeletion) (s : Nat) (it : DBIter) (e : Entry) :
    (it.save dels s e).direction = it.direction := by
  rw [DBIter.save]
  cases foundType dels s e <;> rfl

variable {before es : List Entry} {e : Entry}

/-- The user keys from an entry on. -/
theorem le_userKey_of_sorted (hs : Sorted (e :: es)) :
    ∀ x ∈ e :: es, e.key.userKey ≤ x.key.userKey :=
  List.forall_mem_cons.mpr ⟨le_refl _, fun x hx =>
    InternalKey.userKey_le (le_of_lt ((List.pairwise_cons.mp hs).1 x hx))⟩

/-- The user keys before an entry. -/
theorem userKey_le_of_sorted (hs : Sorted (before.reverse ++ e :: es)) (x : Entry)
    (hx : x ∈ before) : x.key.userKey ≤ e.key.userKey :=
  InternalKey.userKey_le (le_of_lt ((List.pairwise_append.mp hs).2.2 x (List.mem_reverse.mpr hx) e
    List.mem_cons_self))

variable {p : Slice × Slice}

/-- An entry that cannot be read changes nothing. -/
theorem pending_unreadable {found : ValueType} {rest : List (Slice × Slice)}
    (h : ¬ e.key.sequence ≤ s) :
    pending s found p (e :: before) rest = pending s found p before rest := by
  have hany : (∃ x ∈ e :: before, x.key.sequence ≤ s ∧ (found = .value → x.key.userKey = p.1))
      ↔ ∃ x ∈ before, x.key.sequence ≤ s ∧ (found = .value → x.key.userKey = p.1) := by
    simp [h]
  simp only [pending, hany]

/-- What the loop keeps between two entries: a marker has no key saved, the keys
    before a saved one are not larger, and between the saved key and the position
    nothing can be read. -/
structure Saved (s : Nat) (found : ValueType) (key : Slice) (before after : List Entry) : Prop where
  marker : found = .rangeDeletion → key = []
  upper : found = .value → ∀ x ∈ before, x.key.userKey ≤ key
  gap : found ≠ .deletion → ∀ x ∈ after, x.key.userKey < key → s < x.key.sequence

/-- Where the walk leaves the iterator that shows `shown`: nowhere, or on its first
    pair in the reverse direction with the rest before it. -/
def StandsOn (dels : List RangeDeletion) (s : Nat) (it : DBIter) (contents : List Entry) :
    List (Slice × Slice) → Prop
  | [] => it.valid = false ∧ it.iter.contents = contents
  | p :: rest => it.valid = true ∧ it.direction = .reverse ∧ (it.savedKey, it.savedValue) = p
      ∧ ∃ before after, it.iter = Cursor.prev ⟨before, after⟩
        ∧ before.reverse ++ after = contents ∧ walked dels s before = rest
        ∧ (∀ x ∈ before, x.key.userKey < p.1)
        ∧ ∀ x ∈ after, x.key.userKey < p.1 → s < x.key.sequence

/-- **What the loop does**: it ends on the first pair that is pending. -/
theorem findPrevLoop_spec (before : List Entry) :
    ∀ (it : DBIter) (found : ValueType) (after : List Entry), it.direction = .reverse →
      Sorted (before.reverse ++ after) → Saved s found it.savedKey before after →
      StandsOn dels s ((it.findPrevLoop dels s found before after).1.conclude
          (it.findPrevLoop dels s found before after).2) (before.reverse ++ after)
        (pending s found (it.savedKey, it.savedValue) before (walked dels s before)) := by
  induction before with
  | nil =>
    intro it found after hdir _ hsaved
    rw [DBIter.findPrevLoop, DBIter.conclude, pending]
    by_cases hfound : found = .deletion
    · rw [if_pos hfound, if_pos (Or.inl hfound)]
      exact ⟨rfl, Cursor.prev_contents _⟩
    · rw [if_neg hfound, if_neg (by simp [hfound])]
      exact ⟨rfl, hdir, rfl, [], after, rfl, rfl, rfl, by simp, hsaved.gap hfound⟩
  | cons e before ih =>
    intro it found after hdir hs hsaved
    have hsplit : (e :: before).reverse ++ after = before.reverse ++ (e :: after) := by simp
    have hlow := userKey_le_of_sorted (hsplit ▸ hs)
    have hhigh := le_userKey_of_sorted (List.pairwise_append.mp (hsplit ▸ hs)).2.1
    rw [DBIter.findPrevLoop]
    by_cases hseq : e.key.sequence ≤ s
    · rw [if_pos hseq]
      by_cases hbreak : found ≠ .deletion ∧ e.key.userKey < it.savedKey
      · rw [if_pos hbreak]
        have hbelow : ∀ x ∈ e :: before, x.key.userKey < it.savedKey :=
          List.forall_mem_cons.mpr ⟨hbreak.2, fun x hx => lt_of_le_of_lt (hlow x hx) hbreak.2⟩
        -- only a value has a key saved that another one can be below
        have hval : found = .value := by
          cases found with
          | deletion => exact absurd rfl hbreak.1
          | value => rfl
          | rangeDeletion =>
            rw [hsaved.marker rfl] at hbreak
            exact absurd hbreak.2 (List.not_lt_nil _)
        have hlast : ¬ (found = .deletion ∨ ∃ x ∈ e :: before, x.key.sequence ≤ s
            ∧ (found = .value → x.key.userKey = it.savedKey)) := by
          rintro (hdel | ⟨x, hx, -, hk⟩)
          · exact hbreak.1 hdel
          · exact absurd (hk hval) (ne_of_lt (hbelow x hx))
        rw [DBIter.conclude, if_neg hbreak.1, pending, if_neg hlast]
        exact ⟨rfl, hdir, rfl, e :: before, after, rfl, rfl, rfl, hbelow, hsaved.gap hbreak.1⟩
      · rw [if_neg hbreak, hsplit]
        -- the entry replaces what was saved: it is an entry of the saved key
        have hreplace : pending s found (it.savedKey, it.savedValue) (e :: before)
            (walked dels s (e :: before)) = walked dels s (e :: before) := by
          refine if_pos (or_iff_not_imp_left.mpr fun hdel => ⟨e, List.mem_cons_self, hseq, ?_⟩)
          intro hval
          exact le_antisymm (hsaved.upper hval e List.mem_cons_self)
            (le_of_not_gt fun hlt => hbreak ⟨hdel, hlt⟩)
        rw [hreplace, walked, if_pos hseq, ← save_pair it e]
        refine ih _ _ _ ((save_direction dels s it e).trans hdir) (hsplit ▸ hs) ?_
        rw [DBIter.save]
        cases foundType dels s e with
        | deletion => exact ⟨by simp, by simp, by simp⟩
        | value =>
          exact ⟨by simp, fun _ => hlow, fun _ x hx hlt => absurd hlt (not_lt_of_ge (hhigh x hx))⟩
        | rangeDeletion =>
          exact ⟨fun _ => rfl, by simp, fun _ x _ hlt => absurd hlt (List.not_lt_nil _)⟩
    · rw [if_neg hseq, hsplit, pending_unreadable hseq, walked, if_neg hseq]
      refine ih it found (e :: after) hdir (hsplit ▸ hs) ⟨hsaved.marker, fun h x hx => ?_, ?_⟩
      · exact hsaved.upper h x (List.mem_cons_of_mem _ hx)
      · exact fun h => List.forall_mem_cons.mpr ⟨fun _ => lt_of_not_ge hseq, hsaved.gap h⟩

/-- **`FindPrevUserEntry`** ends on the first pair of the walk from the position
    backwards. -/
theorem findPrevUserEntry_spec (dels : List RangeDeletion) (s : Nat) (it : DBIter)
    {after : List Entry} (hiter : it.iter = Cursor.prev ⟨before, after⟩)
    (hdir : it.direction = .reverse) (hs : Sorted (before.reverse ++ after)) :
    StandsOn dels s (it.findPrevUserEntry dels s) (before.reverse ++ after)
      (walked dels s before) := by
  rw [DBIter.findPrevUserEntry, hiter]
  cases before with
  | nil => exact ⟨rfl, (congrArg Cursor.contents hiter).trans (Cursor.prev_contents _)⟩
  | cons e before =>
    refine findPrevLoop_spec (e :: before) it .deletion after hdir hs ⟨?_, ?_, ?_⟩
    · nofun
    · nofun
    · exact fun h => absurd rfl h

/-! ## The walk -/

variable {seek : Slice → DBIter → DBIter}

/-- **Moving backwards shows what `walked` says**, and then the iterator is not
    valid. -/
theorem walk_back (shown : List (Slice × Slice)) :
    ∀ (it : DBIter) {before after : List Entry}, it.iter = Cursor.prev ⟨before, after⟩ →
      it.direction = .reverse → Sorted (before.reverse ++ after) →
      walked dels s before = shown →
      Cursors.Yields (dbIterBy dels s seek).reversed () (it.findPrevUserEntry dels s) shown := by
  induction shown with
  | nil =>
    intro it before after hiter hdir hs hw
    have hstands := findPrevUserEntry_spec dels s it hiter hdir hs
    rw [hw] at hstands
    exact ⟨hstands.1, rfl⟩
  | cons p shown ih =>
    intro it before after hiter hdir hs hw
    have hstands := findPrevUserEntry_spec dels s it hiter hdir hs
    rw [hw] at hstands
    obtain ⟨hv, hdir', hp, before', after', hiter', hsplit, hrest, -, -⟩ := hstands
    have hshow : ((it.findPrevUserEntry dels s).key, (it.findPrevUserEntry dels s).value) = p := by
      rw [DBIter.key, DBIter.value, hdir']
      exact hp
    have hprev : (it.findPrevUserEntry dels s).prev dels s
        = (it.findPrevUserEntry dels s).findPrevUserEntry dels s := by
      rw [DBIter.prev, hdir']
    refine ⟨hv, hshow, ?_⟩
    show Cursors.Yields _ () ((it.findPrevUserEntry dels s).prev dels s) shown
    rw [hprev]
    exact ih _ hiter' hdir' (hsplit ▸ hs) hrest

theorem seekToLast_walks (it : DBIter) (hs : Sorted it.iter.contents) :
    Cursors.Yields (dbIterBy dels s seek).reversed () (it.seekToLast dels s)
      (walked dels s it.iter.contents.reverse) :=
  walk_back _ { it with direction := .reverse, savedValue := [], iter := it.iter.seekToLast }
    (Cursor.seekToLast_eq_prev it.iter) rfl (by simpa using hs) rfl

/-! ## What the walk shows -/

/-- The walk settles on an entry: no tombstone hides it, and it is the first readable
    entry of its user key, or, if it is a marker, of all. -/
def Settles (dels : List RangeDeletion) (s : Nat) (es : List Entry) (e : Entry) : Prop :=
  e ∈ es ∧ e.key.sequence ≤ s ∧ foundType dels s e ≠ .deletion
    ∧ ∀ x ∈ es, x.key.sequence ≤ s →
        (foundType dels s e = .value → x.key.userKey = e.key.userKey) → e.key ≤ x.key

/-- One more entry settles if no entry before it replaces it. -/
theorem settles_cons (hlt : ∀ x ∈ before, x.key < e.key) (x : Entry) :
    Settles dels s (e :: before) x ↔ Settles dels s before x
      ∨ (x = e ∧ e.key.sequence ≤ s ∧ ¬ (foundType dels s e = .deletion ∨ ∃ y ∈ before,
          y.key.sequence ≤ s ∧ (foundType dels s e = .value → y.key.userKey = e.key.userKey))) := by
  constructor
  · rintro ⟨hx, hseq, hfound, hfirst⟩
    rcases List.mem_cons.mp hx with rfl | hx
    · refine Or.inr ⟨rfl, hseq, ?_⟩
      rintro (hdel | ⟨y, hy, hys, hyk⟩)
      · exact hfound hdel
      · exact absurd (hfirst y (List.mem_cons_of_mem _ hy) hys hyk) (not_le_of_gt (hlt y hy))
    · exact Or.inl ⟨hx, hseq, hfound, fun y hy => hfirst y (List.mem_cons_of_mem _ hy)⟩
  · rintro (⟨hx, hseq, hfound, hfirst⟩ | ⟨rfl, hseq, hno⟩)
    · exact ⟨List.mem_cons_of_mem _ hx, hseq, hfound,
        List.forall_mem_cons.mpr ⟨fun _ _ => le_of_lt (hlt x hx), hfirst⟩⟩
    · exact ⟨List.mem_cons_self, hseq, fun hdel => hno (Or.inl hdel),
        List.forall_mem_cons.mpr ⟨fun _ _ => le_refl _, fun y hy hys hk =>
          absurd (Or.inr ⟨y, hy, hys, hk⟩) hno⟩⟩

theorem savedPair_of_value (h : foundType dels s e = .value) :
    savedPair dels s e = (e.key.userKey, e.value) := by
  rw [savedPair, h]

theorem savedPair_of_marker (h : foundType dels s e = .rangeDeletion) :
    savedPair dels s e = ([], []) := by
  rw [savedPair, h]

theorem savedPair_le (e : Entry) : (savedPair dels s e).1 ≤ e.key.userKey := by
  rw [savedPair]
  cases foundType dels s e with
  | value => exact le_refl _
  | deletion | rangeDeletion => exact le_of_not_gt (List.not_lt_nil _)

/-- The pair saved has the key of the entry, as far as one is compared with it. -/
theorem replaced_iff :
    (foundType dels s e = .deletion ∨ ∃ y ∈ before, y.key.sequence ≤ s
        ∧ (foundType dels s e = .value → y.key.userKey = (savedPair dels s e).1))
      ↔ foundType dels s e = .deletion ∨ ∃ y ∈ before, y.key.sequence ≤ s
        ∧ (foundType dels s e = .value → y.key.userKey = e.key.userKey) := by
  refine or_congr_right (exists_congr fun y => and_congr_right fun _ => and_congr_right fun _ =>
    forall_congr' fun h => ?_)
  rw [savedPair_of_value h]

/-- **The members of the walk** are the pairs of the entries it settles on. -/
theorem mem_walked (hs : before.Pairwise fun a b => b.key < a.key) (p : Slice × Slice) :
    p ∈ walked dels s before ↔ ∃ e, Settles dels s before e ∧ savedPair dels s e = p := by
  induction before with
  | nil =>
    refine iff_of_false List.not_mem_nil ?_
    rintro ⟨e, he, -⟩
    exact nomatch he.1
  | cons e before ih =>
    obtain ⟨hlt, hs'⟩ := List.pairwise_cons.mp hs
    simp only [settles_cons hlt, or_and_right, exists_or, ← ih hs', and_assoc, exists_eq_left]
    rw [walked]
    by_cases hseq : e.key.sequence ≤ s
    · rw [if_pos hseq, pending]
      split_ifs with hold <;> rw [replaced_iff] at hold
      · simp [hold]
      · simp only [List.mem_cons, hseq, hold, not_false_eq_true, true_and]
        rw [or_comm, eq_comm]
    · simp [hseq]

/-- **The walk goes down.** -/
theorem walked_decreasing (hs : before.Pairwise fun a b => b.key < a.key) :
    (walked dels s before).Pairwise fun p q => q.1 < p.1 := by
  induction before with
  | nil => exact List.Pairwise.nil
  | cons e before ih =>
    obtain ⟨hlt, hs'⟩ := List.pairwise_cons.mp hs
    rw [walked]
    by_cases hseq : e.key.sequence ≤ s
    · rw [if_pos hseq, pending]
      split_ifs with hold <;> rw [replaced_iff] at hold
      · exact ih hs'
      · refine List.pairwise_cons.mpr ⟨fun q hq => ?_, ih hs'⟩
        obtain ⟨x, hx, rfl⟩ := (mem_walked hs' q).mp hq
        -- the entry is a value, and a readable entry before it has a smaller user key
        have hval : foundType dels s e = .value := by
          by_contra hne
          exact hold (Or.inr ⟨x, hx.1, hx.2.1, fun h => absurd h hne⟩)
        have hbelow : x.key.userKey < e.key.userKey := by
          refine lt_of_le_of_ne (InternalKey.userKey_le (le_of_lt (hlt x hx.1))) fun hk => ?_
          exact hold (Or.inr ⟨x, hx.1, hx.2.1, fun _ => hk⟩)
        rw [savedPair_of_value hval]
        exact lt_of_le_of_lt (savedPair_le x) hbelow
    · rw [if_neg hseq]
      exact ih hs'

/-! ## Markers -/

/-- The entry is a `Put` that a read at `s` sees: the newest readable `Put` or
    `Delete` of its key, with no readable tombstone over it. -/
def VisiblePut (dels : List RangeDeletion) (s : Nat) (es : List Entry) (p : Entry) : Prop :=
  p ∈ es ∧ p.key.type = .value ∧ p.key.sequence ≤ s
    ∧ isDeleted dels p.key.userKey p.key.sequence s = false
    ∧ ∀ x ∈ es, x.isPoint = true → x.key.userKey = p.key.userKey → x.key.sequence ≤ s →
        x.key.sequence ≤ p.key.sequence

instance instDecidableVisiblePut (dels : List RangeDeletion) (s : Nat) (es : List Entry)
    (p : Entry) : Decidable (VisiblePut dels s es p) := inferInstanceAs (Decidable (_ ∧ _))

/-- **The markers do not show in a walk back**: no visible `Put` lies under a newer
    readable marker of its own key, and the first readable entry is not a marker,
    unless a tombstone hides it.  The pair of an empty key and an empty value is
    what a walk ends on wrongly, so where it is visible it is shown either way. -/
structure MarkersAside (dels : List RangeDeletion) (s : Nat) (es : List Entry) : Prop where
  spared : ∀ p ∈ es, ∀ m ∈ es, VisiblePut dels s es p → m.key.type = .rangeDeletion →
    m.key.userKey = p.key.userKey → p.key.sequence < m.key.sequence → m.key.sequence ≤ s →
    p.key.userKey = [] ∧ p.value = []
  front : ∀ m ∈ es, m.key.type = .rangeDeletion → m.key.sequence ≤ s →
    isDeleted dels m.key.userKey m.key.sequence s = false →
    (∀ x ∈ es, x.key.sequence ≤ s → m.key ≤ x.key) →
    ∃ p ∈ es, VisiblePut dels s es p ∧ p.key.userKey = [] ∧ p.value = []

theorem visible_iff_put {k v : Slice} :
    Visible (versions es) (tombs dels) k s v ↔
      ∃ p, VisiblePut dels s es p ∧ (p.key.userKey, p.value) = (k, v) := by
  constructor
  · rintro ⟨_, ⟨⟨⟨p, hp, -, rfl⟩, rfl, hseq⟩, hnew⟩, hval, hhid⟩
    have htype : p.key.type = .value ∧ p.value = v := by
      rw [Entry.ver] at hval
      cases ht : p.key.type <;> simp_all
    refine ⟨p, ⟨hp, htype.1, hseq, ?_, fun x hx hpoint hk hxs => ?_⟩, ?_⟩
    · exact eq_false_of_ne_true fun h => hhid (isDeleted_iff_hidden.mp h)
    · exact hnew x.ver ⟨x, hx, hpoint, rfl⟩ hk hxs
    · rw [htype.2]
      rfl
  · rintro ⟨p, ⟨hp, htype, hseq, hdel, hnew⟩, hpair⟩
    obtain ⟨rfl, rfl⟩ := Prod.mk.injEq .. ▸ hpair
    refine ⟨p.ver, ⟨⟨⟨p, hp, by simp [Entry.isPoint, htype], rfl⟩, rfl, hseq⟩, ?_⟩, ?_, ?_⟩
    · rintro _ ⟨x, hx, hpoint, rfl⟩ hk hxs
      exact hnew x hx hpoint hk hxs
    · simp [Entry.ver, htype]
    · exact fun h => Bool.false_ne_true (hdel.symm.trans (isDeleted_iff_hidden.mpr h))

theorem foundType_eq_value : foundType dels s e = .value ↔
    e.key.type = .value ∧ isDeleted dels e.key.userKey e.key.sequence s = false := by
  rw [foundType]
  split_ifs with h <;> simp [h]

theorem foundType_eq_rangeDeletion : foundType dels s e = .rangeDeletion ↔
    e.key.type = .rangeDeletion ∧ isDeleted dels e.key.userKey e.key.sequence s = false := by
  rw [foundType]
  split_ifs with h <;> simp [h]

/-- The first readable entry. -/
theorem exists_first (hs : Sorted es) {x : Entry} (hx : x ∈ es) (hxs : x.key.sequence ≤ s) :
    ∃ m ∈ es, m.key.sequence ≤ s ∧ ∀ y ∈ es, y.key.sequence ≤ s → m.key ≤ y.key := by
  obtain ⟨m, hm⟩ : ∃ m, es.find? (fun e => decide (e.key.sequence ≤ s)) = some m :=
    Option.isSome_iff_exists.mp (List.find?_isSome.mpr ⟨x, hx, decide_eq_true hxs⟩)
  obtain ⟨hmem, hms, hle⟩ := OrderedLists.least_find? (hs.imp le_of_lt) hm
  exact ⟨m, hmem, of_decide_eq_true hms, fun y hy hys => hle y hy (decide_eq_true hys)⟩

/-- No two entries have a user key and a sequence number in common. -/
def Numbered (es : List Entry) : Prop :=
  ∀ a ∈ es, ∀ b ∈ es,
    a.key.userKey = b.key.userKey → a.key.sequence = b.key.sequence → a = b

instance instDecidableNumbered (es : List Entry) : Decidable (Numbered es) :=
  inferInstanceAs (Decidable (∀ _ ∈ es, _))

/-- A value the walk settles on is visible. -/
theorem Settles.visiblePut (h : Settles dels s es e) (hfound : foundType dels s e = .value) :
    VisiblePut dels s es e := by
  obtain ⟨htype, hdel⟩ := foundType_eq_value.mp hfound
  refine ⟨h.1, htype, h.2.1, hdel, fun x hx _ hk hxs => ?_⟩
  exact InternalKey.sequence_le hk.symm (h.2.2.2 x hx hxs fun _ => hk)

/-- The walk settles on a visible `Put`, or a marker is newer. -/
theorem VisiblePut.settles_or_marker {p : Entry} (hn : Numbered es) (h : VisiblePut dels s es p) :
    (Settles dels s es p ∧ savedPair dels s p = (p.key.userKey, p.value))
      ∨ ∃ m ∈ es, m.key.type = .rangeDeletion ∧ m.key.userKey = p.key.userKey
        ∧ p.key.sequence < m.key.sequence ∧ m.key.sequence ≤ s := by
  by_cases hm : ∃ m ∈ es, m.key.userKey = p.key.userKey
      ∧ p.key.sequence < m.key.sequence ∧ m.key.sequence ≤ s
  · obtain ⟨m, hm, hk, hlt, hle⟩ := hm
    refine Or.inr ⟨m, hm, ?_, hk, hlt, hle⟩
    by_contra ht
    exact absurd (h.2.2.2.2 m hm (by simp [Entry.isPoint, ht]) hk hle) (Nat.not_le_of_lt hlt)
  · have hfound : foundType dels s p = .value := foundType_eq_value.mpr ⟨h.2.1, h.2.2.2.1⟩
    refine Or.inl ⟨⟨h.1, h.2.2.1, by simp [hfound], fun x hx hxs hk => ?_⟩,
      savedPair_of_value hfound⟩
    have hle : x.key.sequence ≤ p.key.sequence := by
      by_contra hlt
      exact hm ⟨x, hx, hk hfound, lt_of_not_ge hlt, hxs⟩
    rcases Nat.lt_or_eq_of_le hle with hlt | heq
    · exact le_of_lt (InternalKey.lt_of_sequence_lt (hk hfound).symm hlt)
    · rw [hn x hx p h.1 (hk hfound) heq]

/-- A visible `Put` of the empty key with a marker on top: the walk settles on the
    first readable entry of all, a marker. -/
theorem settles_of_empty_key (hs : Sorted es) {p m : Entry} (h : VisiblePut dels s es p)
    (hempty : p.key.userKey = []) (hm : m ∈ es) (hk : m.key.userKey = p.key.userKey)
    (hlt : p.key.sequence < m.key.sequence) (hle : m.key.sequence ≤ s) :
    ∃ f, Settles dels s es f ∧ savedPair dels s f = ([], []) := by
  obtain ⟨f, hf, hfs, hfirst⟩ := exists_first hs hm hle
  have hfk : f.key.userKey = m.key.userKey := by
    refine le_antisymm (InternalKey.userKey_le (hfirst m hm hle)) ?_
    rw [hk, hempty]
    exact le_of_not_gt (List.not_lt_nil _)
  have hnewer : p.key.sequence < f.key.sequence :=
    lt_of_lt_of_le hlt (InternalKey.sequence_le hfk (hfirst m hm hle))
  have hfound : foundType dels s f = .rangeDeletion := by
    refine foundType_eq_rangeDeletion.mpr ⟨?_, eq_false_of_ne_true fun hdel => ?_⟩
    · by_contra ht
      have := h.2.2.2.2 f hf (by simp [Entry.isPoint, ht]) (hfk.trans hk) hfs
      omega
    · have := isDeleted_mono hdel (le_of_lt hnewer)
      rw [hfk, hk, h.2.2.2.1] at this
      exact Bool.false_ne_true this
  exact ⟨f, ⟨hf, hfs, by simp [hfound], fun y hy hys _ => hfirst y hy hys⟩,
    savedPair_of_marker hfound⟩

/-- **The walk shows the visible pairs exactly if the markers do not show.** -/
theorem settles_eq_visible_iff (hs : Sorted es) (hn : Numbered es) :
    (∀ q, (∃ e, Settles dels s es e ∧ savedPair dels s e = q) ↔
        ∃ p, VisiblePut dels s es p ∧ (p.key.userKey, p.value) = q) ↔
      MarkersAside dels s es := by
  constructor
  · intro h
    refine ⟨fun p hp m hm hvis ht hk hlt hle => ?_, fun m hm ht hms hdel hfirst => ?_⟩
    · obtain ⟨e, he, hpair⟩ := (h (p.key.userKey, p.value)).mpr ⟨p, hvis, rfl⟩
      cases hfound : foundType dels s e with
      | deletion => exact absurd hfound he.2.2.1
      | value =>
        -- the shown entry is at least as new as the marker, and a `Put`
        rw [savedPair_of_value hfound] at hpair
        have hek : e.key.userKey = p.key.userKey := congrArg Prod.fst hpair
        have hpoint : e.isPoint = true := by
          simp [Entry.isPoint, (foundType_eq_value.mp hfound).1]
        have hme := he.2.2.2 m hm hle fun _ => hk.trans hek.symm
        have := InternalKey.sequence_le (hek.trans hk.symm) hme
        have := hvis.2.2.2.2 e he.1 hpoint hek he.2.1
        omega
      | rangeDeletion =>
        rw [savedPair_of_marker hfound] at hpair
        exact ⟨congrArg Prod.fst hpair.symm, congrArg Prod.snd hpair.symm⟩
    · have hfound := foundType_eq_rangeDeletion.mpr ⟨ht, hdel⟩
      obtain ⟨p, hvis, hpair⟩ := (h ([], [])).mp ⟨m, ⟨hm, hms, by simp [hfound],
        fun x hx hxs _ => hfirst x hx hxs⟩, savedPair_of_marker hfound⟩
      exact ⟨p, hvis.1, hvis, congrArg Prod.fst hpair, congrArg Prod.snd hpair⟩
  · rintro ⟨hspared, hfront⟩ q
    constructor
    · rintro ⟨e, he, rfl⟩
      cases hfound : foundType dels s e with
      | deletion => exact absurd hfound he.2.2.1
      | value => exact ⟨e, he.visiblePut hfound, (savedPair_of_value hfound).symm⟩
      | rangeDeletion =>
        obtain ⟨ht, hdel⟩ := foundType_eq_rangeDeletion.mp hfound
        obtain ⟨p, -, hvis, hk, hv⟩ := hfront e he.1 ht he.2.1 hdel fun x hx hxs =>
          he.2.2.2 x hx hxs (by simp [hfound])
        exact ⟨p, hvis, by rw [hk, hv, savedPair_of_marker hfound]⟩
    · rintro ⟨p, hvis, rfl⟩
      rcases hvis.settles_or_marker hn with hp | ⟨m, hm, ht, hk, hlt, hle⟩
      · exact ⟨p, hp⟩
      · obtain ⟨hempty, hv⟩ := hspared p hvis.1 m hm hvis ht hk hlt hle
        rw [hempty, hv]
        exact settles_of_empty_key hs hvis hempty hm hk hlt hle

/-! ## Parts of the entries -/

/-- What the walk over the entries below a key settles on depends on them only. -/
theorem settles_front {front back : List Entry} {k : Slice}
    (hfront : ∀ x ∈ front, x.key.userKey < k) (hback : ∀ x ∈ back, k ≤ x.key.userKey)
    (e : Entry) :
    Settles dels s front e ↔ Settles dels s (front ++ back) e ∧ e.key.userKey < k := by
  constructor
  · rintro ⟨he, hseq, hfound, hfirst⟩
    refine ⟨⟨List.mem_append_left _ he, hseq, hfound, fun x hx => ?_⟩, hfront e he⟩
    rcases List.mem_append.mp hx with hx | hx
    · exact hfirst x hx
    · exact fun _ _ => le_of_lt
        (InternalKey.lt_of_userKey_lt (lt_of_lt_of_le (hfront e he) (hback x hx)))
  · rintro ⟨⟨he, hseq, hfound, hfirst⟩, hlt⟩
    refine ⟨?_, hseq, hfound, fun x hx => hfirst x (List.mem_append_left _ hx)⟩
    exact (List.mem_append.mp he).resolve_right fun hx => absurd hlt (not_lt_of_ge (hback e hx))

/-- Sorted entries split at a user key. -/
theorem exists_split (hs : Sorted es) (k : Slice) :
    ∃ pre L, es = pre ++ L ∧ (∀ x ∈ pre, x.key.userKey < k) ∧ ∀ x ∈ L, k ≤ x.key.userKey := by
  induction es with
  | nil => exact ⟨[], [], rfl, by simp, by simp⟩
  | cons e rest ih =>
    by_cases hlt : e.key.userKey < k
    · obtain ⟨pre, L, rfl, hpre, hL⟩ := ih (List.pairwise_cons.mp hs).2
      exact ⟨e :: pre, L, rfl, List.forall_mem_cons.mpr ⟨hlt, hpre⟩, hL⟩
    · exact ⟨[], e :: rest, rfl, by simp, fun x hx =>
        le_trans (le_of_not_gt hlt) (le_userKey_of_sorted hs x hx)⟩

/-- A position in an increasing list: what lies before it is smaller, what lies
    behind it is larger. -/
theorem mem_sides {left right : List (Slice × Slice)}
    (h : (left.reverse ++ p :: right).Pairwise fun p q => p.1 < q.1) (q : Slice × Slice) :
    (q ∈ left ↔ q ∈ left.reverse ++ p :: right ∧ q.1 < p.1)
      ∧ (q ∈ right ↔ q ∈ left.reverse ++ p :: right ∧ p.1 < q.1) := by
  obtain ⟨-, hcons, hcross⟩ := List.pairwise_append.mp h
  have hleft : ∀ x ∈ left, x.1 < p.1 := fun x hx => hcross x (List.mem_reverse.mpr hx) p (by simp)
  have hright : ∀ x ∈ right, p.1 < x.1 := (List.pairwise_cons.mp hcons).1
  simp only [List.mem_append, List.mem_reverse, List.mem_cons]
  refine ⟨⟨fun hq => ⟨Or.inl hq, hleft q hq⟩, ?_⟩, ⟨fun hq => ⟨Or.inr (Or.inr hq), hright q hq⟩, ?_⟩⟩
  · rintro ⟨hq | rfl | hq, hlt⟩
    · exact hq
    · exact absurd hlt (lt_irrefl _)
    · exact absurd hlt (not_lt_of_gt (hright q hq))
  · rintro ⟨hq | rfl | hq, hlt⟩
    · exact absurd hlt (not_lt_of_gt (hleft q hq))
    · exact absurd hlt (lt_irrefl _)
    · exact hq

/-! ## The iterator as a cursor -/

section Follow

variable {E : List Entry}

/-- The pairs forward iteration shows, and what they are. -/
theorem forward_pairs (dels : List RangeDeletion) (s : Nat) (hs : Sorted E) (hn : Numbered E) :
    (userEntries dels s none E).Pairwise (fun p q => p.1 < q.1)
      ∧ ∀ q, q ∈ userEntries dels s none E ↔
          ∃ p, VisiblePut dels s E p ∧ (p.key.userKey, p.value) = q := by
  obtain ⟨hp, hm⟩ := userEntries_spec dels s E none hs hn (by simp)
  refine ⟨hp, fun q => ?_⟩
  rw [hm q.1 q.2, visible_iff_put]
  simp

/-- Entries that cannot be read are passed over. -/
theorem userEntries_unreadable (skip : Option Slice) (L : List Entry) {pre : List Entry}
    (h : ∀ x ∈ pre, s < x.key.sequence) :
    userEntries dels s skip (pre ++ L) = userEntries dels s skip L := by
  induction pre with
  | nil => rfl
  | cons e pre ih =>
    have hseq : ¬ e.key.sequence ≤ s := Nat.not_le_of_lt (h e (by simp))
    rw [List.cons_append, userEntries, visitEntry, if_neg hseq]
    exact ih (List.forall_mem_cons.mp h).2

/-- **What lies ahead**: from a position behind the key `k`, up to entries that
    cannot be read, the pairs with larger keys. -/
theorem userEntries_ahead (dels : List RangeDeletion) (hs : Sorted E) (hn : Numbered E)
    {before after : List Entry} (hE : before.reverse ++ after = E) {k : Slice}
    (hbefore : ∀ x ∈ before, x.key.userKey ≤ k)
    (hgap : ∀ x ∈ after, x.key.userKey < k → s < x.key.sequence) :
    (userEntries dels s (some k) after).Pairwise (fun p q => p.1 < q.1)
      ∧ ∀ q, q ∈ userEntries dels s (some k) after ↔
          q ∈ userEntries dels s none E ∧ k < q.1 := by
  obtain ⟨pre, L, rfl, hpre, hL⟩ := exists_split (List.pairwise_append.mp (hE ▸ hs)).2.1 k
  have hsub : L.Sublist E := by
    rw [← hE]
    exact (List.sublist_append_right pre L).trans (List.sublist_append_right _ _)
  rw [userEntries_unreadable (some k) L fun x hx => hgap x (List.mem_append_left _ hx) (hpre x hx)]
  obtain ⟨hp, hm⟩ := userEntries_spec dels s L (some k) (hs.sublist hsub)
    (fun a ha b hb => hn a (hsub.subset ha) b (hsub.subset hb))
    (fun q hq x hx => by cases hq; exact hL x hx)
  refine ⟨hp, fun q => ?_⟩
  have hall := (userEntries_spec dels s E none hs hn (by simp)).2 q.1 q.2
  have hsame : k < q.1 → (Visible (versions L) (tombs dels) q.1 s q.2
      ↔ Visible (versions E) (tombs dels) q.1 s q.2) := by
    intro hlt
    refine visible_congr (fun x hxk _ => ⟨?_, ?_⟩) (fun _ _ => Iff.rfl) q.2
    · rintro ⟨e, he, hpoint, rfl⟩
      exact ⟨e, hsub.subset he, hpoint, rfl⟩
    · rintro ⟨e, he, hpoint, rfl⟩
      refine ⟨e, ?_, hpoint, rfl⟩
      have hek : k < e.key.userKey := lt_of_lt_of_eq hlt hxk.symm
      rw [← hE, List.mem_append, List.mem_reverse, List.mem_append] at he
      rcases he with he | he | he
      · exact absurd hek (not_lt_of_ge (hbefore e he))
      · exact absurd hek (not_lt_of_gt (hpre e he))
      · exact he
  have hq := hm q.1 q.2
  simp only [Option.mem_def, Option.some.injEq, forall_eq', reduceCtorEq, false_implies,
    implies_true, true_and] at hq hall
  rw [hq, hall, and_comm]
  exact and_congr_left hsame

/-- The walk from the last entry shows the visible pairs in reverse. -/
theorem walked_eq_iff (hs : Sorted E) (hn : Numbered E) :
    walked dels s E.reverse = (userEntries dels s none E).reverse ↔ MarkersAside dels s E := by
  have hdec : E.reverse.Pairwise fun a b => b.key < a.key := List.pairwise_reverse.mpr hs
  obtain ⟨hinc, hmem⟩ := forward_pairs dels s hs hn
  have hrev : ∀ e, Settles dels s E.reverse e ↔ Settles dels s E e := by
    intro e
    simp only [Settles, List.mem_reverse]
  simp only [← settles_eq_visible_iff hs hn, ← hrev, ← mem_walked hdec, ← hmem]
  constructor
  · intro h q
    rw [h, List.mem_reverse]
  · intro h
    refine List.reverse_injective (OrderedLists.eq_of_increasing
      (List.pairwise_reverse.mpr (walked_decreasing hdec)) ?_ fun q => ?_)
    · rw [List.reverse_reverse]
      exact hinc
    · rw [List.reverse_reverse, List.mem_reverse]
      exact h q

/-- **What lies behind**: below a key, the walk shows the pairs with smaller
    keys. -/
theorem walked_behind (hs : Sorted E) (hn : Numbered E) (ha : MarkersAside dels s E)
    {before after : List Entry} (hE : before.reverse ++ after = E) {k : Slice}
    (hbefore : ∀ x ∈ before, x.key.userKey < k) (hafter : ∀ x ∈ after, k ≤ x.key.userKey)
    (q : Slice × Slice) :
    q ∈ walked dels s before ↔ q ∈ userEntries dels s none E ∧ q.1 < k := by
  subst hE
  have hdec : before.Pairwise fun a b => b.key < a.key :=
    List.pairwise_reverse.mp (List.pairwise_append.mp hs).1
  have hfront : ∀ e, Settles dels s before e ↔
      Settles dels s (before.reverse ++ after) e ∧ e.key.userKey < k := by
    intro e
    rw [← settles_front (fun x hx => hbefore x (List.mem_reverse.mp hx)) hafter]
    simp only [Settles, List.mem_reverse]
  have hshown := (settles_eq_visible_iff hs hn).mpr ha q
  rw [mem_walked hdec q, (forward_pairs dels s hs hn).2 q]
  constructor
  · rintro ⟨e, he, rfl⟩
    obtain ⟨he, hlt⟩ := (hfront e).mp he
    refine ⟨hshown.mp ⟨e, he, rfl⟩, lt_of_le_of_lt ?_ hlt⟩
    exact savedPair_le e
  · rintro ⟨hq, hlt⟩
    obtain ⟨e, he, rfl⟩ := hshown.mpr hq
    refine ⟨e, (hfront e).mpr ⟨he, ?_⟩, rfl⟩
    cases hfound : foundType dels s e with
    | deletion => exact absurd hfound he.2.2.1
    | value =>
      rw [savedPair_of_value hfound] at hlt
      exact hlt
    | rangeDeletion =>
      -- the marker is the first entry, and an entry of the empty key is readable
      obtain ⟨p, hvis, hpair⟩ := hq
      rw [savedPair_of_marker hfound] at hpair hlt
      have hle := he.2.2.2 p hvis.1 hvis.2.2.1 (by simp [hfound])
      refine lt_of_le_of_lt (InternalKey.userKey_le hle) ?_
      exact lt_of_eq_of_lt (congrArg Prod.fst hpair) hlt

/-- **`Prev` from a forward position** leaves the entries of the saved key and walks
    back over those before it. -/
theorem prevLoop_spec (dels : List RangeDeletion) (s : Nat) (left : List Entry) :
    ∀ (it : DBIter) (right : List Entry), Sorted (left.reverse ++ right) →
      (∀ x ∈ right, it.savedKey ≤ x.key.userKey) →
      ∃ before after, before.reverse ++ after = left.reverse ++ right
        ∧ (∀ x ∈ before, x.key.userKey < it.savedKey)
        ∧ (∀ x ∈ after, it.savedKey ≤ x.key.userKey)
        ∧ StandsOn dels s (it.prevLoop dels s left right) (left.reverse ++ right)
            (walked dels s before) := by
  induction left with
  | nil =>
    intro it right _ hright
    exact ⟨[], right, rfl, by simp, hright, rfl, Cursor.prev_contents _⟩
  | cons e left ih =>
    intro it right hs hright
    have hsplit : (e :: left).reverse ++ right = left.reverse ++ (e :: right) := by simp
    rw [DBIter.prevLoop]
    by_cases hlt : e.key.userKey < it.savedKey
    · rw [if_pos hlt]
      refine ⟨e :: left, right, rfl, List.forall_mem_cons.mpr ⟨hlt, fun x hx => ?_⟩, hright, ?_⟩
      · exact lt_of_le_of_lt (userKey_le_of_sorted (hsplit ▸ hs) x hx) hlt
      · exact findPrevUserEntry_spec dels s
          { it with iter := ⟨left, e :: right⟩, direction := .reverse } rfl rfl hs
    · rw [if_neg hlt, hsplit]
      exact ih it (e :: right) (hsplit ▸ hs)
        (List.forall_mem_cons.mpr ⟨le_of_not_gt hlt, hright⟩)

/-- **The iterator stands where a cursor over the visible pairs stands.**  In the
    forward direction the internal iterator stands on the entry of the pair, in the
    reverse direction before its key. -/
structure Agrees (dels : List RangeDeletion) (s : Nat) (E : List Entry) (it : DBIter)
    (c : Cursor (Slice × Slice)) : Prop where
  entries : it.iter.contents = E
  pairs : c.contents = userEntries dels s none E
  valid : it.valid = c.valid
  forward : it.direction = .forward → ∀ p left right, c = ⟨left, p :: right⟩ →
    ∃ e rest, it.iter.right = e :: rest ∧ (e.key.userKey, e.value) = p
  reverse : it.direction = .reverse → ∀ p left right, c = ⟨left, p :: right⟩ →
    StandsOn dels s it E (p :: left)

variable {c : Cursor (Slice × Slice)} {it : DBIter}

/-- After a move forward. -/
theorem agrees_of_forward (hf : LdbDbIter.Forward it) (hE : it.iter.contents = E)
    {skip : Option Slice} {L : List Entry}
    (hright : it.iter.right = findNextUserEntry dels s skip L)
    (hc : userEntries dels s skip L = c.right) (hpairs : c.contents = userEntries dels s none E) :
    Agrees dels s E it c := by
  have hhead : c.right.head? = it.iter.right.head?.map fun e => (e.key.userKey, e.value) := by
    rw [← hc, hright]
    exact head?_userEntries L skip
  refine ⟨hE, hpairs, ?_, fun _ p left right hcp => ?_, fun hrev => ?_⟩
  · rw [hf.valid, Cursor.valid, Cursor.valid]
    cases hr : it.iter.right <;> cases hcr : c.right <;> simp [hr, hcr] at hhead ⊢
  · rw [hcp] at hhead
    cases hr : it.iter.right with
    | nil => simp [hr] at hhead
    | cons e rest =>
      rw [hr] at hhead
      exact ⟨e, rest, rfl, (Option.some.inj hhead).symm⟩
  · rw [hf.direction] at hrev
    cases hrev

/-- After a move backwards. -/
theorem agrees_of_standsOn {left right : List (Slice × Slice)} (h : StandsOn dels s it E left)
    (hpairs : left.reverse ++ right = userEntries dels s none E) :
    Agrees dels s E it (Cursor.prev ⟨left, right⟩) := by
  have hcontents : (Cursor.prev ⟨left, right⟩).contents = userEntries dels s none E :=
    (Cursor.prev_contents _).trans hpairs
  cases left with
  | nil =>
    refine ⟨h.2, hcontents, h.1, fun _ p left' right' hc => ?_, fun _ p left' right' hc => ?_⟩
    · exact absurd (congrArg Cursor.right hc) (by simp [Cursor.prev])
    · exact absurd (congrArg Cursor.right hc) (by simp [Cursor.prev])
  | cons p left =>
    have hstands := h
    obtain ⟨hv, hdir, -, before, after, hiter, hE, -⟩ := h
    refine ⟨?_, hcontents, hv, fun hfwd => ?_, fun _ p' left' right' hc => ?_⟩
    · rw [hiter, Cursor.prev_contents]
      exact hE
    · rw [hdir] at hfwd
      cases hfwd
    · cases hc
      exact hstands

theorem Agrees.shows (h : Agrees dels s E it c) {k v : Slice} (hc : c.current = some (k, v)) :
    it.key = k ∧ it.value = v := by
  obtain ⟨left, right⟩ := c
  cases right with
  | nil => cases hc
  | cons p right =>
    have hp : p = (k, v) := Option.some.inj hc
    subst hp
    cases hdir : it.direction with
    | forward =>
      obtain ⟨e, rest, hright, hpair⟩ := h.forward hdir _ _ _ rfl
      rw [DBIter.key, DBIter.value, hdir, Cursor.current, hright]
      exact ⟨congrArg Prod.fst hpair, congrArg Prod.snd hpair⟩
    | reverse =>
      have hpair := (h.reverse hdir _ _ _ rfl).2.2.1
      rw [DBIter.key, DBIter.value, hdir]
      exact ⟨congrArg Prod.fst hpair, congrArg Prod.snd hpair⟩

section

variable (hs : Sorted E) (hn : Numbered E)
include hs hn

/-- From a position on a pair, `Next` finds the pair behind it. -/
theorem Agrees.next (h : Agrees dels s E it c) (hvalid : c.valid = true) :
    Agrees dels s E (it.next dels s) c.next := by
  obtain ⟨left, right⟩ := c
  cases right with
  | nil => cases hvalid
  | cons p right =>
    have hpairs : left.reverse ++ p :: right = userEntries dels s none E := h.pairs
    have hinc := (forward_pairs dels s hs hn).1
    have hE : (it.next dels s).iter.contents = E := next_contents it |>.trans h.entries
    -- what lies ahead of the internal iterator is what lies ahead of the cursor
    have hahead : ∀ {before after : List Entry}, before.reverse ++ after = E →
        (∀ x ∈ before, x.key.userKey ≤ p.1) →
        (∀ x ∈ after, x.key.userKey < p.1 → s < x.key.sequence) →
        userEntries dels s (some p.1) after = right := by
      intro before after hsplit hbefore hgap
      obtain ⟨hp, hm⟩ := userEntries_ahead dels hs hn hsplit hbefore hgap
      rw [← hpairs] at hinc hm
      have hright := (List.pairwise_cons.mp (List.pairwise_append.mp hinc).2.1).2
      refine OrderedLists.eq_of_increasing hp hright fun q => ?_
      rw [hm q]
      exact (mem_sides hinc q).2.symm
    have hnext : (Cursor.next ⟨left, p :: right⟩).contents = userEntries dels s none E :=
      (Cursor.next_contents _).trans hpairs
    cases hdir : it.direction with
    | forward =>
      obtain ⟨e, rest, hright, rfl⟩ := h.forward hdir _ _ _ rfl
      have hsplit : (e :: it.iter.left).reverse ++ rest = E := by
        rw [← h.entries, Cursor.contents, hright]
        simp
      have hsorted : Sorted (it.iter.left.reverse ++ e :: rest) := by
        simpa [← hsplit] using hs
      obtain ⟨hf, hr⟩ := next_forward dels s ⟨hdir, h.valid.trans (by
        rw [Cursor.valid, Cursor.valid, hright]; rfl)⟩ hright
      refine agrees_of_forward hf hE hr (hahead hsplit ?_ ?_) hnext
      · exact List.forall_mem_cons.mpr ⟨le_refl _, userKey_le_of_sorted hsorted⟩
      · intro x hx hlt
        have hle := le_userKey_of_sorted (List.pairwise_append.mp hsorted).2.1 x
          (List.mem_cons_of_mem _ hx)
        exact absurd hlt (not_lt_of_ge hle)
    | reverse =>
      obtain ⟨-, -, hsaved, before, after, hiter, hsplit, -, hbefore, hgap⟩ :=
        h.reverse hdir _ _ _ rfl
      obtain ⟨hf, hr⟩ := next_reverse dels s hdir hiter
      have hkey : it.savedKey = p.1 := congrArg Prod.fst hsaved
      rw [hkey] at hr
      exact agrees_of_forward hf hE hr
        (hahead hsplit (fun x hx => le_of_lt (hbefore x hx)) hgap) hnext

/-- From a position on a pair, `Prev` finds the pair before it. -/
theorem Agrees.prev (ha : MarkersAside dels s E) (h : Agrees dels s E it c)
    (hvalid : c.valid = true) : Agrees dels s E (it.prev dels s) c.prev := by
  obtain ⟨left, right⟩ := c
  cases right with
  | nil => cases hvalid
  | cons p right =>
    have hpairs : left.reverse ++ p :: right = userEntries dels s none E := h.pairs
    refine agrees_of_standsOn ?_ hpairs
    cases hdir : it.direction with
    | forward =>
      have hprev : it.prev dels s = DBIter.prevLoop dels s { it with savedKey := it.key }
          it.iter.left it.iter.right := by
        rw [DBIter.prev, hdir]
      obtain ⟨e, rest, hright, rfl⟩ := h.forward hdir _ _ _ rfl
      have hkey : it.key = e.key.userKey := by
        rw [DBIter.key, hdir, Cursor.current, hright]
        rfl
      have hsplit : it.iter.left.reverse ++ it.iter.right = E := h.entries
      have hback : ∀ x ∈ it.iter.right, it.key ≤ x.key.userKey := by
        have hsright : Sorted it.iter.right := (List.pairwise_append.mp (hsplit ▸ hs)).2.1
        rw [hkey]
        rw [hright] at hsright ⊢
        exact le_userKey_of_sorted hsright
      obtain ⟨before, after, hE, hbefore, hafter, hstands⟩ :=
        prevLoop_spec dels s it.iter.left { it with savedKey := it.key }
          it.iter.right (hsplit ▸ hs) hback
      rw [hsplit] at hE hstands
      -- the walk over what is before the key is what is before the cursor
      have hwalked : walked dels s before = left := by
        have hinc : (left.reverse ++ (e.key.userKey, e.value) :: right).Pairwise
            fun p q => p.1 < q.1 := hpairs ▸ (forward_pairs dels s hs hn).1
        have hdec : before.Pairwise fun a b => b.key < a.key :=
          List.pairwise_reverse.mp (List.pairwise_append.mp (hE ▸ hs)).1
        refine List.reverse_injective (OrderedLists.eq_of_increasing
          (List.pairwise_reverse.mpr (walked_decreasing hdec))
          (List.pairwise_append.mp hinc).1 fun q => ?_)
        rw [List.mem_reverse, List.mem_reverse, (mem_sides hinc q).1, hpairs]
        exact walked_behind hs hn ha hE (fun x hx => lt_of_lt_of_eq (hbefore x hx) hkey)
          (fun x hx => le_of_eq_of_le hkey.symm (hafter x hx)) q
      rw [hprev, ← hwalked]
      exact hstands
    | reverse =>
      have hprev : it.prev dels s = it.findPrevUserEntry dels s := by
        rw [DBIter.prev, hdir]
      obtain ⟨-, -, -, before, after, hiter, hsplit, hrest, -, -⟩ := h.reverse hdir _ _ _ rfl
      have hstands := findPrevUserEntry_spec dels s it hiter hdir (hsplit ▸ hs)
      rw [hrest, hsplit] at hstands
      rw [hprev]
      exact hstands

/-- The pairs from a key on. -/
theorem userEntries_seek (target : Slice) :
    userEntries dels s none (seekEntries (lookupKey target s) E)
      = (userEntries dels s none E).dropWhile fun p => decide (p.1 < target) := by
  have hsub := seekEntries_sublist (lookupKey target s) E
  obtain ⟨hp, hm⟩ := userEntries_spec dels s (seekEntries (lookupKey target s) E) none
    (hs.sublist hsub) (fun a ha b hb => hn a (hsub.subset ha) b (hsub.subset hb)) (by simp)
  obtain ⟨hinc, hall⟩ := userEntries_spec dels s E none hs hn (by simp)
  refine OrderedLists.eq_of_increasing hp (hinc.sublist (List.dropWhile_sublist _)) fun q => ?_
  rw [OrderedLists.mem_dropWhile_lt hinc, hm q.1 q.2, visible_seekEntries hs, hall q.1 q.2]
  simp [and_comm]

/-- **The iterator behaves as a cursor over the visible pairs**, under every call, when
    its own seek is that of a cursor. -/
theorem agrees_refines (ha : MarkersAside dels s E)
    (hseek : ∀ it, it.iter.contents = E → ∀ target, seek target it = it.seek dels s target) :
    Refines (dbIterBy dels s seek) (fun a b => decide (a < b)) () (Agrees dels s E) where
  valid h := h.valid
  current h hc := h.shows hc
  status _ := rfl
  seekToFirst := by
    intro it c h
    obtain ⟨hf, hright⟩ := findNext_or_end dels s
      { it with direction := .forward, savedValue := [], iter := it.iter.seekToFirst }
      rfl false it.savedKey
    refine agrees_of_forward hf ((findFirst_contents _).trans h.entries) hright ?_ h.pairs
    show userEntries dels s none it.iter.contents = c.contents
    rw [h.entries, h.pairs]
  next h hv := h.next hs hn hv
  seekToLast := by
    intro it c h
    have hlast : it.iter.contents.reverse.reverse ++ [] = E := by simpa using h.entries
    have hstands := findPrevUserEntry_spec dels s
      { it with direction := .reverse, savedValue := [], iter := it.iter.seekToLast }
      (Cursor.seekToLast_eq_prev it.iter) rfl (hlast.symm ▸ hs)
    rw [hlast, h.entries, (walked_eq_iff hs hn).mpr ha] at hstands
    rw [Cursor.seekToLast_eq_prev, h.pairs]
    exact agrees_of_standsOn hstands (by simp)
  seek := by
    intro it c h target
    show Agrees dels s E (seek target it) _
    rw [hseek it h.entries, DBIter.seek]
    obtain ⟨hf, hright⟩ := seekAt_spec dels s it target
      (it.iter.seek fun e => decide (e.key < lookupKey target s))
    refine agrees_of_forward hf ?_ hright ?_ ((Cursor.seek_contents _ c).trans h.pairs)
    · exact (findFirst_contents _).trans ((Cursor.seek_contents _ _).trans h.entries)
    · show userEntries dels s none (it.iter.contents.dropWhile _) = _
      rw [h.entries, ← seekEntries_eq, userEntries_seek hs hn, Cursor.seek_right, h.pairs]
  prev h hv := h.prev hs hn ha hv

end

end Follow

/-- From an iterator that stands nowhere, every mix of calls follows a cursor over the
    visible pairs exactly if the markers stay aside. -/
theorem followsBy_iff (dels : List RangeDeletion) (s : Nat) (it : DBIter)
    (hs : Sorted it.iter.contents) (hn : Numbered it.iter.contents) (hnew : it.valid = false)
    (hseek : ∀ it', it'.iter.contents = it.iter.contents → ∀ target,
      seek target it' = it'.seek dels s target) :
    (∀ calls, Follows (dbIterBy dels s seek) (fun a b => decide (a < b)) () calls it
        ⟨(userEntries dels s none it.iter.contents).reverse, []⟩)
      ↔ MarkersAside dels s it.iter.contents := by
  refine ⟨fun h => ?_, fun ha calls => ?_⟩
  · -- moving back from the last entry shows the walk, and what the cursor shows
    have hcursor : Cursors.Yields (dbIterBy dels s seek).reversed () (it.seekToLast dels s)
        (userEntries dels s none it.iter.contents).reverse := by
      have hlast := fun calls => (h (.seekToLast :: calls)).2 trivial
      rw [Cursor.call, Cursor.seekToLast_eq_prev, Cursor.contents_mk, List.append_nil,
        List.reverse_reverse] at hlast
      exact yields_reversed_of_follows _ hlast
    exact (walked_eq_iff hs hn).mp ((seekToLast_walks it hs).unique _ hcursor)
  · refine (agrees_refines hs hn ha hseek).follows calls ⟨rfl, by simp, hnew, ?_, ?_⟩
    · intro _ p left right hc
      exact absurd (congrArg Cursor.right hc) (by simp)
    · intro _ p left right hc
      exact absurd (congrArg Cursor.right hc) (by simp)

/-- **The calls of a `DBIter` are those of a cursor over the visible pairs exactly if
    the markers of range deletions do not show.**  From an iterator that stands
    nowhere, every mix of calls, each `Next` and `Prev` on a valid iterator, leaves
    it where a cursor over the visible pairs stands after the same calls, if and
    only if no visible `Put` lies under a newer marker of its key and the first
    readable entry is not a marker that no tombstone hides. -/
theorem follows_iff_markersAside (dels : List RangeDeletion) (s : Nat) (it : DBIter)
    (hs : Sorted it.iter.contents) (hn : Numbered it.iter.contents) (hnew : it.valid = false) :
    ∃ shown : List (Slice × Slice), shown.Pairwise (fun p q => p.1 < q.1)
      ∧ (∀ k v, (k, v) ∈ shown ↔ Visible (versions it.iter.contents) (tombs dels) k s v)
      ∧ ((∀ calls, Follows (dbIter dels s) (fun a b => decide (a < b)) () calls it
            ⟨shown.reverse, []⟩)
          ↔ MarkersAside dels s it.iter.contents) := by
  obtain ⟨hinc, hmem⟩ := userEntries_spec dels s it.iter.contents none hs hn (by simp)
  exact ⟨_, hinc, fun k v => (hmem k v).trans (by simp),
    followsBy_iff dels s it hs hn hnew fun _ _ _ => rfl⟩

theorem follows_iff_markersAside_sample :
    (∃ shown : List (Slice × Slice), shown.Pairwise (fun p q => p.1 < q.1)
      ∧ (∀ k v, (k, v) ∈ shown ↔
          Visible (versions sampleIter.iter.contents) (tombs [⟨[3], [5], 6⟩]) k 8 v)
      ∧ ((∀ calls, Follows (dbIter [⟨[3], [5], 6⟩] 8) (fun a b => decide (a < b)) () calls
            sampleIter ⟨shown.reverse, []⟩)
          ↔ MarkersAside [⟨[3], [5], 6⟩] 8 sampleIter.iter.contents))
      ∧ MarkersAside [⟨[3], [5], 6⟩] 8 sampleIter.iter.contents :=
  ⟨follows_iff_markersAside [⟨[3], [5], 6⟩] 8 sampleIter (by decide) (by decide) (by decide),
    by decide, by decide⟩

/-- One `DeleteRange` of `a` to `b` and nothing else. -/
def markerIter : DBIter := DBIter.new ⟨[], [⟨⟨[97], 1, .rangeDeletion⟩, [98]⟩]⟩

/-- A `Put` of `a` under a newer range deletion of no key, behind another `Put`. -/
def coveredIter : DBIter := DBIter.new ⟨[],
  [⟨⟨[96], 1, .value⟩, [7]⟩, ⟨⟨[97], 3, .rangeDeletion⟩, [97]⟩, ⟨⟨[97], 2, .value⟩, [8]⟩]⟩

/-- **Markers show when the iterator moves backwards.**  With nothing visible,
    `SeekToLast` stands on an empty key; with two pairs visible, it stands on the
    first. -/
theorem markers_show_backwards :
    (userEntries [⟨[97], [98], 1⟩] 1 none markerIter.iter.contents = []
      ∧ (markerIter.seekToLast [⟨[97], [98], 1⟩] 1).valid = true
      ∧ (markerIter.seekToLast [⟨[97], [98], 1⟩] 1).key = []
      ∧ ¬ Follows (dbIter [⟨[97], [98], 1⟩] 1) (fun a b => decide (a < b)) () [.seekToLast]
          markerIter ⟨[], []⟩)
    ∧ (userEntries [⟨[97], [97], 3⟩] 3 none coveredIter.iter.contents
          = [([96], [7]), ([97], [8])]
      ∧ (coveredIter.seekToLast [⟨[97], [97], 3⟩] 3).key = [96]
      ∧ ¬ Follows (dbIter [⟨[97], [97], 3⟩] 3) (fun a b => decide (a < b)) () [.seekToLast]
          coveredIter ⟨[([97], [8]), ([96], [7])], []⟩) := by
  refine ⟨⟨by decide, by decide, by decide, fun h => ?_⟩, ⟨by decide, by decide, fun h => ?_⟩⟩
  · have hvalid : (markerIter.seekToLast [⟨[97], [98], 1⟩] 1).valid = false := (h.2 trivial).valid
    exact absurd hvalid (by decide)
  · have hkey : (coveredIter.seekToLast [⟨[97], [97], 3⟩] 3).key = [97] :=
      ((h.2 trivial).current [97] [8] rfl).1
    exact absurd hkey (by decide)

end LdbReverse
