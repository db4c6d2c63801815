import LevelDB.Format
import LevelDB.OrderedLists

/-! # The drop rules of `DoCompactionWork`

    The compaction loop of `db/db_impl.cc` walks the merged input in
    internal-key order and decides for every entry whether to drop it.  Three
    rules share the state `current_user_key` / `last_sequence_for_key`: the
    range-tombstone rule, rule (A) (hidden by a newer entry of the user key)
    and the obsolete-deletion rule.

    The loop is first read as it is (`dropEntry`, `keptEntries`), then shown to
    keep exactly the entries of a closed predicate (`keptEntries_eq_filter`),
    and from that the kept entries are shown to preserve every read at or above
    `smallest_snapshot` (`keptEntries_visible`). -/

namespace LdbDrop

open Versioned LdbFormat

variable {S : Type}

/-- The loop-carried state of the drop logic.  `base` is whatever
    `IsBaseLevelForKey` remembers between calls. -/
structure DropState (S : Type) where
  currentUserKey : Option Slice
  lastSequenceForKey : Nat
  base : S

/-- The state before the first entry: `has_current_user_key = false`. -/
def DropState.init (b : S) : DropState S := ⟨none, kMaxSequenceNumber, b⟩

section Loop

variable (dels : List RangeDeletion) (smallestSnapshot : Nat)
variable (isBaseLevelForKey : Slice → S → Bool × S)

/-- One round of the drop logic: the verdict and the next state. -/
def dropEntry (e : Entry) (st : DropState S) : Bool × DropState S :=
  let deleted := isDeleted dels e.key.userKey e.key.sequence smallestSnapshot
  let st1 : DropState S :=
    -- a range-deleted entry leaves `current_user_key` alone
    if deleted then st
    else if st.currentUserKey ≠ some e.key.userKey then
      { st with currentUserKey := some e.key.userKey, lastSequenceForKey := kMaxSequenceNumber }
    else st
  if st1.lastSequenceForKey ≤ smallestSnapshot then
    -- (A)
    (true, { st1 with lastSequenceForKey := e.key.sequence })
  else if e.key.type = .deletion ∧ e.key.sequence ≤ smallestSnapshot then
    let r := isBaseLevelForKey e.key.userKey st1.base
    (deleted || r.1, { st1 with lastSequenceForKey := e.key.sequence, base := r.2 })
  else
    (deleted, { st1 with lastSequenceForKey := e.key.sequence })

/-- The entries the loop does not drop. -/
def keptEntries : DropState S → List Entry → List Entry
  | _, [] => []
  | st, e :: rest =>
    if (dropEntry dels smallestSnapshot isBaseLevelForKey e st).1 then
      keptEntries (dropEntry dels smallestSnapshot isBaseLevelForKey e st).2 rest
    else
      e :: keptEntries (dropEntry dels smallestSnapshot isBaseLevelForKey e st).2 rest

/-- Every entry of the input with the loop's verdict: is it kept? -/
def flagEntries : DropState S → List Entry → List (Entry × Bool)
  | _, [] => []
  | st, e :: rest =>
    (e, !(dropEntry dels smallestSnapshot isBaseLevelForKey e st).1)
      :: flagEntries (dropEntry dels smallestSnapshot isBaseLevelForKey e st).2 rest

theorem keptEntries_eq_flagged (M : List Entry) :
    ∀ st : DropState S, keptEntries dels smallestSnapshot isBaseLevelForKey st M
      = ((flagEntries dels smallestSnapshot isBaseLevelForKey st M).filter (·.2)).map (·.1) := by
  induction M with
  | nil => intro st; rfl
  | cons e rest ih =>
    intro st
    rw [keptEntries, flagEntries]
    cases h : (dropEntry dels smallestSnapshot isBaseLevelForKey e st).1 with
    | false =>
      rw [if_neg (by simp), List.filter_cons_of_pos (by simp), List.map_cons, ih]
    | true =>
      rw [if_pos rfl, List.filter_cons_of_neg (by simp), ih]

theorem map_fst_flagEntries (M : List Entry) :
    ∀ st : DropState S,
      (flagEntries dels smallestSnapshot isBaseLevelForKey st M).map (·.1) = M := by
  induction M with
  | nil => intro st; rfl
  | cons e rest ih =>
    intro st
    rw [flagEntries, List.map_cons, ih]

/-- The loop only leaves entries out. -/
theorem keptEntries_sublist (M : List Entry) (st : DropState S) :
    (keptEntries dels smallestSnapshot isBaseLevelForKey st M).Sublist M := by
  rw [keptEntries_eq_flagged]
  have h := (List.filter_sublist (p := fun p : Entry × Bool => p.2)
    (l := flagEntries dels smallestSnapshot isBaseLevelForKey st M)).map (·.1)
  rwa [map_fst_flagEntries] at h

end Loop

/-! ## The closed form of the verdict -/

section Closed

variable (dels : List RangeDeletion) (smallestSnapshot : Nat) (base : Slice → Bool)

/-- Entry `e` of the merged input `M` survives: no tombstone at or below the
    snapshot deletes it, every newer entry of its user key is above the
    snapshot, and it is not an obsolete deletion marker. -/
def survives (M : List Entry) (e : Entry) : Bool :=
  !isDeleted dels e.key.userKey e.key.sequence smallestSnapshot
    && (M.all fun p =>
          !(decide (p.key.userKey = e.key.userKey) && decide (p.key < e.key))
            || decide (smallestSnapshot < p.key.sequence))
    && !(decide (e.key.type = .deletion) && decide (e.key.sequence ≤ smallestSnapshot)
          && base e.key.userKey)

variable {e : Entry} {P rest : List Entry}

theorem survives_iff {M : List Entry} :
    survives dels smallestSnapshot base M e = true ↔
      isDeleted dels e.key.userKey e.key.sequence smallestSnapshot = false
      ∧ (∀ p ∈ M, p.key.userKey = e.key.userKey → p.key < e.key →
          smallestSnapshot < p.key.sequence)
      ∧ ¬ (e.key.type = .deletion ∧ e.key.sequence ≤ smallestSnapshot
          ∧ base e.key.userKey = true) := by
  simp only [survives, Bool.and_eq_true, Bool.not_eq_true', List.all_eq_true,
    Bool.or_eq_true, Bool.and_eq_false_iff, decide_eq_true_eq, decide_eq_false_iff_not]
  constructor
  · rintro ⟨⟨hd, hA⟩, hob⟩
    refine ⟨hd, fun p hp hk hlt => ?_, ?_⟩
    · rcases hA p hp with (h | h) | h
      · exact absurd hk h
      · exact absurd hlt h
      · exact h
    · rintro ⟨ht, hs, hb⟩
      rcases hob with (h | h) | h
      · exact h ht
      · exact h hs
      · rw [hb] at h
        exact Bool.noConfusion h
  · rintro ⟨hd, hA, hob⟩
    refine ⟨⟨hd, fun p hp => ?_⟩, ?_⟩
    · by_cases hk : p.key.userKey = e.key.userKey
      · by_cases hlt : p.key < e.key
        · exact Or.inr (hA p hp hk hlt)
        · exact Or.inl (Or.inr hlt)
      · exact Or.inl (Or.inl hk)
    · by_cases ht : e.key.type = .deletion
      · by_cases hs : e.key.sequence ≤ smallestSnapshot
        · refine Or.inr ?_
          cases hb : base e.key.userKey with
          | false => rfl
          | true => exact absurd ⟨ht, hs, hb⟩ hob
        · exact Or.inl (Or.inr hs)
      · exact Or.inl (Or.inl ht)

/-- What the loop state knows about the entries `P` already processed: the
    current user key occurs in `P`, and if the last entry's user key is not the
    current one then all its entries were range-deleted. -/
structure Tracks (P : List Entry) (st : DropState S) : Prop where
  current : ∀ c, st.currentUserKey = some c → ∃ y ∈ P, y.key.userKey = c
  last : ∀ x, P.getLast? = some x →
    st.lastSequenceForKey = x.key.sequence ∧
      (st.currentUserKey = some x.key.userKey ∨
        ∀ y ∈ P, y.key.userKey = x.key.userKey →
          isDeleted dels y.key.userKey y.key.sequence smallestSnapshot = true)

theorem tracks_init (b : S) : Tracks dels smallestSnapshot [] (DropState.init b) where
  current _ h := nomatch h
  last _ h := nomatch h

/-- In a sorted list, an entry already processed that shares the next entry's
    user key forces the last processed entry to share it. -/
theorem last_userKey {p : Entry} (hs : Sorted (P ++ e :: rest)) (hp : p ∈ P)
    (hk : p.key.userKey = e.key.userKey) :
    ∃ x, P.getLast? = some x ∧ x.key.userKey = e.key.userKey ∧ p.key ≤ x.key ∧ x ∈ P := by
  have hne : P ≠ [] := List.ne_nil_of_mem hp
  refine ⟨P.getLast hne, List.getLast?_eq_getLast_of_ne_nil hne, ?_⟩
  have hxmem : P.getLast hne ∈ P := List.getLast_mem hne
  have hpx := (OrderedLists.greatest_last ((List.pairwise_append.mp hs).1.imp le_of_lt)
    (List.getLast?_eq_getLast_of_ne_nil hne)).2 p hp
  have hxe : (P.getLast hne).key < e.key :=
    (List.pairwise_append.mp hs).2.2 _ hxmem e (by simp)
  refine ⟨?_, hpx, hxmem⟩
  refine le_antisymm (InternalKey.userKey_le (le_of_lt hxe)) ?_
  rw [← hk]
  exact InternalKey.userKey_le hpx

/-- Entries that precede `e` in the sorted input are the processed ones. -/
theorem mem_processed {p : Entry} (hs : Sorted (P ++ e :: rest)) (hp : p ∈ P ++ e :: rest)
    (hlt : p.key < e.key) : p ∈ P := by
  rcases List.mem_append.mp hp with h | h
  · exact h
  · exfalso
    rcases List.mem_cons.mp h with rfl | hr
    · exact lt_irrefl _ hlt
    · have hse := (List.pairwise_append.mp hs).2.1
      exact lt_asymm hlt ((List.pairwise_cons.mp hse).1 p hr)

/-- `current_user_key` is the next entry's user key exactly when the last
    processed entry decides rule (A). -/
theorem tracks_ruleA {st : DropState S} (hsnap : smallestSnapshot < kMaxSequenceNumber)
    (hs : Sorted (P ++ e :: rest)) (ht : Tracks dels smallestSnapshot P st)
    (hd : isDeleted dels e.key.userKey e.key.sequence smallestSnapshot = false) :
    (if st.currentUserKey ≠ some e.key.userKey then kMaxSequenceNumber
      else st.lastSequenceForKey) ≤ smallestSnapshot ↔
      ¬ (∀ p ∈ P ++ e :: rest, p.key.userKey = e.key.userKey → p.key < e.key →
          smallestSnapshot < p.key.sequence) := by
  by_cases hc : st.currentUserKey = some e.key.userKey
  · rw [if_neg (by simpa using hc)]
    obtain ⟨y, hy, hyk⟩ := ht.current _ hc
    obtain ⟨x, hx, hxk, hyx, hxP⟩ := last_userKey hs hy hyk
    have hxe : x.key < e.key := (List.pairwise_append.mp hs).2.2 x hxP e (by simp)
    rw [(ht.last x hx).1]
    constructor
    · intro hle hall
      have := hall x (List.mem_append.mpr (Or.inl hxP)) hxk hxe
      omega
    · intro hall
      push Not at hall
      obtain ⟨p, hp, hpk, hplt, hps⟩ := hall
      have hpP := mem_processed hs hp hplt
      obtain ⟨x', hx', -, hpx, -⟩ := last_userKey hs hpP hpk
      have hxx : x = x' := Option.some.inj (hx.symm.trans hx')
      subst hxx
      exact Nat.le_trans (InternalKey.sequence_le (hpk.trans hxk.symm) hpx) hps
  · rw [if_pos hc]
    constructor
    · intro hle
      omega
    · intro hall
      exfalso
      refine hall fun p hp hpk hplt => ?_
      exfalso
      have hpP := mem_processed hs hp hplt
      obtain ⟨x, hx, hxk, -, -⟩ := last_userKey hs hpP hpk
      rcases (ht.last x hx).2 with hcur | hdel
      · exact hc (hxk ▸ hcur)
      · -- an older entry of a range-deleted key is range-deleted
        have hpd := hdel p hpP (hpk.trans hxk.symm)
        rw [hpk] at hpd
        have := isDeleted_mono hpd (InternalKey.sequence_le hpk (le_of_lt hplt))
        rw [hd] at this
        exact Bool.noConfusion this

/-- The loop state keeps tracking after one more entry. -/
theorem tracks_step {st st' : DropState S} (hs : Sorted (P ++ e :: rest))
    (ht : Tracks dels smallestSnapshot P st) (hlast : st'.lastSequenceForKey = e.key.sequence)
    (hcur : st'.currentUserKey =
      if isDeleted dels e.key.userKey e.key.sequence smallestSnapshot = true
        then st.currentUserKey else some e.key.userKey) :
    Tracks dels smallestSnapshot (P ++ [e]) st' where
  current c hc := by
    rw [hcur] at hc
    by_cases hd : isDeleted dels e.key.userKey e.key.sequence smallestSnapshot = true
    · rw [if_pos hd] at hc
      obtain ⟨y, hy, hyk⟩ := ht.current c hc
      exact ⟨y, List.mem_append.mpr (Or.inl hy), hyk⟩
    · rw [if_neg hd] at hc
      exact ⟨e, by simp, Option.some.inj hc⟩
  last x hx := by
    have hxe : x = e := by simpa using hx.symm
    subst hxe
    refine ⟨hlast, ?_⟩
    rw [hcur]
    by_cases hd : isDeleted dels x.key.userKey x.key.sequence smallestSnapshot = true
    · rw [if_pos hd]
      by_cases hc : st.currentUserKey = some x.key.userKey
      · exact Or.inl hc
      · refine Or.inr fun y hy hyk => ?_
        rcases List.mem_append.mp hy with hyP | hyx
        · obtain ⟨z, hz, hzk, -, -⟩ := last_userKey hs hyP hyk
          rcases (ht.last z hz).2 with hcur' | hdel
          · exact absurd (hzk ▸ hcur') hc
          · exact hdel y hyP (hyk.trans hzk.symm)
        · rw [List.mem_singleton.mp hyx]
          exact hd
    · rw [if_neg hd]
      exact Or.inl rfl

end Closed

/-! ## Stateful base-level tests

    `IsBaseLevelForKey` keeps file positions between calls.  It stands for a
    predicate `base` as long as it is asked about non-decreasing user keys. -/

/-- The stateful test `isBase`, started at `b₀`, answers the predicate `base` on
    every non-decreasing sequence of user keys; `ready b k` says that state `b`
    may be asked about `k` and everything above it. -/
structure AnswersBase (isBase : Slice → S → Bool × S) (b₀ : S) (base : Slice → Bool)
    (ready : S → Slice → Prop) : Prop where
  init : ∀ k, ready b₀ k
  answer : ∀ b k, ready b k → (isBase k b).1 = base k
  next : ∀ b k k', ready b k → k ≤ k' → ready (isBase k b).2 k'
  mono : ∀ b k k', ready b k → k ≤ k' → ready b k'

/-- A predicate is its own stateless test. -/
theorem answersBase_pure (base : Slice → Bool) :
    AnswersBase (fun k (_ : Unit) => (base k, ())) () base (fun _ _ => True) where
  init _ := trivial
  answer _ _ _ := rfl
  next _ _ _ _ _ := trivial
  mono _ _ _ _ _ := trivial

variable {dels : List RangeDeletion} {smallestSnapshot : Nat}
variable {isBase : Slice → S → Bool × S} {b₀ : S} {base : Slice → Bool}
variable {ready : S → Slice → Prop}

/-- **One round of the loop** on a sorted input: the verdict is the closed
    predicate, and the state keeps tracking. -/
theorem dropEntry_spec (hb : AnswersBase isBase b₀ base ready)
    (hsnap : smallestSnapshot < kMaxSequenceNumber)
    {P rest : List Entry} {e : Entry} {st : DropState S}
    (hs : Sorted (P ++ e :: rest)) (ht : Tracks dels smallestSnapshot P st)
    (hr : ready st.base e.key.userKey) :
    (dropEntry dels smallestSnapshot isBase e st).1
        = !survives dels smallestSnapshot base (P ++ e :: rest) e
      ∧ Tracks dels smallestSnapshot (P ++ [e])
          (dropEntry dels smallestSnapshot isBase e st).2
      ∧ ∀ k, e.key.userKey ≤ k →
          ready (dropEntry dels smallestSnapshot isBase e st).2.base k := by
  have hlast : (dropEntry dels smallestSnapshot isBase e st).2.lastSequenceForKey
      = e.key.sequence := by
    simp only [dropEntry]
    split_ifs <;> rfl
  have hcur : (dropEntry dels smallestSnapshot isBase e st).2.currentUserKey =
      if isDeleted dels e.key.userKey e.key.sequence smallestSnapshot = true
        then st.currentUserKey else some e.key.userKey := by
    simp only [dropEntry]
    split_ifs with h1 h2 h3 h4 <;> first | rfl | simp_all
  have hready : ∀ k, e.key.userKey ≤ k →
      ready (dropEntry dels smallestSnapshot isBase e st).2.base k := by
    intro k hk
    have hsame : ∀ b, b = st.base → ready b k := fun b h => h ▸ hb.mono _ _ _ hr hk
    have hnext : ready (isBase e.key.userKey st.base).2 k := hb.next _ _ _ hr hk
    simp only [dropEntry]
    split_ifs <;> first | exact hsame _ rfl | exact hnext
  refine ⟨?_, tracks_step dels smallestSnapshot hs ht hlast hcur, hready⟩
  have hsv := survives_iff dels smallestSnapshot base (M := P ++ e :: rest) (e := e)
  by_cases hd : isDeleted dels e.key.userKey e.key.sequence smallestSnapshot = true
  · -- range-deleted: every branch of the second test returns `true`
    have hfalse : survives dels smallestSnapshot base (P ++ e :: rest) e = false := by
      cases hv : survives dels smallestSnapshot base (P ++ e :: rest) e with
      | false => rfl
      | true =>
        have h0 := (hsv.mp hv).1
        rw [hd] at h0
        exact Bool.noConfusion h0
    rw [hfalse]
    simp only [dropEntry, hd, if_true, Bool.true_or]
    split_ifs <;> rfl
  · rw [Bool.not_eq_true] at hd
    have hA := tracks_ruleA dels smallestSnapshot hsnap hs ht hd
    have hans : (isBase e.key.userKey st.base).1 = base e.key.userKey := hb.answer _ _ hr
    -- the state after the first-occurrence test
    have hl : ∀ st1 : DropState S, st1 = (if st.currentUserKey ≠ some e.key.userKey then
          { st with currentUserKey := some e.key.userKey,
                    lastSequenceForKey := kMaxSequenceNumber } else st) →
        st1.lastSequenceForKey = (if st.currentUserKey ≠ some e.key.userKey then
          kMaxSequenceNumber else st.lastSequenceForKey) ∧ st1.base = st.base := by
      intro st1 h
      subst h
      split_ifs <;> exact ⟨rfl, rfl⟩
    obtain ⟨hl1, hl2⟩ := hl _ rfl
    simp only [dropEntry, hd, Bool.false_eq_true, if_false, Bool.false_or]
    rw [hl1, hl2, hans]
    by_cases hAe : (if st.currentUserKey ≠ some e.key.userKey then kMaxSequenceNumber
        else st.lastSequenceForKey) ≤ smallestSnapshot
    · rw [if_pos hAe]
      cases hv : survives dels smallestSnapshot base (P ++ e :: rest) e with
      | false => rfl
      | true => exact absurd (hsv.mp hv).2.1 (hA.mp hAe)
    · rw [if_neg hAe]
      have hall : ∀ p ∈ P ++ e :: rest, p.key.userKey = e.key.userKey → p.key < e.key →
          smallestSnapshot < p.key.sequence := by
        by_contra hno
        exact hAe (hA.mpr hno)
      by_cases hdel : e.key.type = .deletion ∧ e.key.sequence ≤ smallestSnapshot
      · rw [if_pos hdel]
        cases hbk : base e.key.userKey with
        | true =>
          cases hv : survives dels smallestSnapshot base (P ++ e :: rest) e with
          | false => rfl
          | true => exact absurd ⟨hdel.1, hdel.2, hbk⟩ (hsv.mp hv).2.2
        | false =>
          have hv : survives dels smallestSnapshot base (P ++ e :: rest) e = true := by
            refine hsv.mpr ⟨hd, hall, ?_⟩
            rintro ⟨-, -, h⟩
            rw [hbk] at h
            exact Bool.noConfusion h
          rw [hv]
          rfl
      · rw [if_neg hdel]
        have hv : survives dels smallestSnapshot base (P ++ e :: rest) e = true :=
          hsv.mpr ⟨hd, hall, fun h => hdel ⟨h.1, h.2.1⟩⟩
        rw [hv]
        rfl

variable {M : List Entry}

/-- **The loop's verdicts are the closed predicate.** -/
theorem flagEntries_eq_map (hb : AnswersBase isBase b₀ base ready)
    (hsnap : smallestSnapshot < kMaxSequenceNumber) (hs : Sorted M) :
    flagEntries dels smallestSnapshot isBase (DropState.init b₀) M
      = M.map fun e => (e, survives dels smallestSnapshot base M e) := by
  -- generalised over the processed prefix `P` and the state that tracks it
  have hgen : ∀ (rest P : List Entry) (st : DropState S), M = P ++ rest →
      Tracks dels smallestSnapshot P st →
      (∀ e ∈ rest, ready st.base e.key.userKey) →
      flagEntries dels smallestSnapshot isBase st rest
        = rest.map fun e => (e, survives dels smallestSnapshot base M e) := by
    intro rest
    induction rest with
    | nil => intro P st _ _ _; rfl
    | cons e rest ih =>
      intro P st hM ht hr
      have hs' : Sorted (P ++ e :: rest) := hM ▸ hs
      obtain ⟨hv, ht', hr'⟩ := dropEntry_spec hb hsnap hs' ht (hr e (by simp))
      have hrec := ih (P ++ [e]) _ (by rw [hM]; simp) ht' (fun x hx => hr' _ (by
        have hse := (List.pairwise_append.mp hs').2.1
        exact InternalKey.userKey_le (le_of_lt ((List.pairwise_cons.mp hse).1 x hx))))
      rw [flagEntries, hv, ← hM, hrec, Bool.not_not, List.map_cons]
  exact hgen M [] _ rfl (tracks_init dels smallestSnapshot b₀) (fun e _ => hb.init _)

/-- **The loop keeps exactly the survivors.** -/
theorem keptEntries_eq_filter (hb : AnswersBase isBase b₀ base ready)
    (hsnap : smallestSnapshot < kMaxSequenceNumber) (hs : Sorted M) :
    keptEntries dels smallestSnapshot isBase (DropState.init b₀) M
      = M.filter (survives dels smallestSnapshot base M) := by
  rw [keptEntries_eq_flagged, flagEntries_eq_map hb hsnap hs, List.filter_map, List.map_map]
  exact List.map_id _

/-! ## The drop rules preserve reads -/

/-- A point entry's tie partner in internal-key order is a `Put` before a
    `Delete`. -/
theorem tie_types {p m : Entry} (hp : p.isPoint = true) (hk : p.key.userKey = m.key.userKey)
    (hlt : p.key < m.key) (hseq : p.key.sequence = m.key.sequence) :
    m.ver.val = none ∧ p.ver.val ≠ none := by
  rcases InternalKey.lt_iff.mp hlt with h | ⟨-, h⟩
  · exact absurd (hk ▸ h) (lt_irrefl _)
  · have hcode : m.key.type.code < p.key.type.code := by
      simp only [InternalKey.tag, packSequenceAndType, hseq] at h
      omega
    simp only [Entry.isPoint, decide_eq_true_eq] at hp
    cases hpt : p.key.type <;> cases hmt : m.key.type <;>
      simp_all [ValueType.code, Entry.ver]

variable {O : Set (Ver Slice Slice)}

/-- Why a version that no kept entry and no other entry stores may go: the
    three rules, one case each.  Where the base-level test says yes, other entries
    of the key are not older. -/
theorem droppable_of_not_survives (hpt : ∀ e ∈ M, e.isPoint = true)
    (hbase : ∀ o ∈ O, ∀ m ∈ M, m.key.userKey = o.key → base o.key = true → m.key.sequence ≤ o.seq)
    {m : Entry} (hm : m ∈ M) (hv : survives dels smallestSnapshot base M m = false) {s : Nat}
    (hs : smallestSnapshot ≤ s) :
    Droppable (versions M ∪ O)
      (versions (M.filter (survives dels smallestSnapshot base M)) ∪ O)
      (tombs dels) s m.ver := by
  by_cases hd : isDeleted dels m.key.userKey m.key.sequence smallestSnapshot = true
  · exact Or.inl ((isDeleted_iff_hidden.mp hd).mono_read hs)
  rw [Bool.not_eq_true] at hd
  by_cases hA : ∀ p ∈ M, p.key.userKey = m.key.userKey → p.key < m.key →
      smallestSnapshot < p.key.sequence
  · -- obsolete deletion: nothing older of its key is kept or lies deeper
    have hob : m.key.type = .deletion ∧ m.key.sequence ≤ smallestSnapshot
        ∧ base m.key.userKey = true := by
      by_contra hno
      rw [(survives_iff dels smallestSnapshot base).mpr ⟨hd, hA, hno⟩] at hv
      exact Bool.noConfusion hv
    refine Or.inr (Or.inr (Or.inr ⟨by simp [Entry.ver, hob.1], ?_⟩))
    rintro o (⟨q, hq, -, rfl⟩ | ho) hok
    · by_contra hlt
      push Not at hlt
      have hqs := (survives_iff dels smallestSnapshot base).mp (List.mem_filter.mp hq).2
      have hqk : m.key.userKey = q.key.userKey := hok.symm
      have := hqs.2.1 m hm hqk (InternalKey.lt_of_sequence_lt hqk hlt)
      omega
    · refine hbase o ho m hm hok.symm ?_
      rw [hok]
      exact hob.2.2
  · -- rule (A): a newer entry of the key at or below the snapshot
    push Not at hA
    obtain ⟨p, hp, hpk, hplt, hps⟩ := hA
    have hle : m.key.sequence ≤ p.key.sequence :=
      InternalKey.sequence_le hpk (le_of_lt hplt)
    have hpE : p.ver ∈ versions M ∪ O := Or.inl ⟨p, hp, hpt p hp, rfl⟩
    rcases Nat.lt_or_ge m.key.sequence p.key.sequence with hlt | hge
    · exact Or.inr (Or.inl ⟨p.ver, hpE, hpk, hlt, Nat.le_trans hps hs⟩)
    · have heq : p.key.sequence = m.key.sequence := by omega
      obtain ⟨h1, h2⟩ := tie_types (hpt p hp) hpk hplt heq
      exact Or.inr (Or.inr (Or.inl ⟨h1, p.ver, hpE, hpk, heq, h2⟩))

/-- The survivors are among the merged entries. -/
theorem survivors_subset (M : List Entry) (O : Set (Ver Slice Slice)) :
    versions (M.filter (survives dels smallestSnapshot base M)) ∪ O ⊆ versions M ∪ O := by
  rintro x (⟨e, he, hp, rfl⟩ | hx)
  · exact Or.inl ⟨e, (List.mem_filter.mp he).1, hp, rfl⟩
  · exact Or.inr hx

section

variable (hpt : ∀ e ∈ M, e.isPoint = true)
  (hbase : ∀ o ∈ O, ∀ m ∈ M, m.key.userKey = o.key → base o.key = true → m.key.sequence ≤ o.seq)
include hpt hbase

/-- Whatever does not survive is droppable for reads at or above the smallest
    snapshot, next to other entries `O`. -/
theorem survivors_droppable {s : Nat} (hs : smallestSnapshot ≤ s) :
    ∀ x ∈ versions M ∪ O,
      x ∉ versions (M.filter (survives dels smallestSnapshot base M)) ∪ O →
      Droppable (versions M ∪ O)
        (versions (M.filter (survives dels smallestSnapshot base M)) ∪ O) (tombs dels) s x := by
  rintro x (⟨m, hm, hp, rfl⟩ | hx) hout
  · have hv : survives dels smallestSnapshot base M m = false := by
      cases hv : survives dels smallestSnapshot base M m with
      | false => rfl
      | true =>
        exact absurd (Or.inl ⟨m, List.mem_filter.mpr ⟨hm, hv⟩, hp, rfl⟩) hout
    exact droppable_of_not_survives hpt hbase hm hv hs
  · exact absurd (Or.inr hx) hout

/-- **Keeping the survivors preserves reads** at or above the smallest snapshot,
    next to other entries `O` and under any tombstones that include `dels`. -/
theorem survivors_visible {T : Set (Tomb Slice)} (hT : tombs dels ⊆ T) (k : Slice) {s : Nat}
    (hs : smallestSnapshot ≤ s) (v : Slice) :
    Visible (versions (M.filter (survives dels smallestSnapshot base M)) ∪ O) T k s v ↔
      Visible (versions M ∪ O) T k s v := by
  refine visible_drop (survivors_subset M O) (fun x hx _ hout => ?_) v
  exact (survivors_droppable hpt hbase hs x hx hout).mono hT

end

/-- **The drop rules preserve visibility.**  `M` is the merged input, `O` the
    deeper entries, absent where the base-level test says so.  Reads at or above
    the smallest snapshot agree.  That the deeper entries are older than `M` on
    a common key is not needed. -/
theorem keptEntries_visible {M : List Entry} (hM : Sorted M)
    (hpt : ∀ e ∈ M, e.isPoint = true) (dels : List RangeDeletion)
    {smallestSnapshot : Nat} (hsnap : smallestSnapshot < kMaxSequenceNumber)
    (base : Slice → Bool) {O : Set (Ver Slice Slice)}
    (hbase : ∀ o ∈ O, base o.key = false)
    (k : Slice) {s : Nat} (hs : smallestSnapshot ≤ s) (v : Slice) :
    Visible (versions (keptEntries dels smallestSnapshot
        (fun k (_ : Unit) => (base k, ())) (DropState.init ()) M) ∪ O) (tombs dels) k s v ↔
      Visible (versions M ∪ O) (tombs dels) k s v := by
  rw [keptEntries_eq_filter (answersBase_pure base) hsnap hM]
  refine survivors_visible hpt ?_ (fun _ ht => ht) k hs v
  intro o ho m _ _ hb
  rw [hbase o ho] at hb
  cases hb

/-- A merged input with a newer deletion over a value of `a`, and a value of `b`
    below a tombstone. -/
def mergedSample : List Entry :=
  [⟨⟨[97], 7, .value⟩, [1]⟩, ⟨⟨[97], 5, .deletion⟩, []⟩, ⟨⟨[97], 3, .value⟩, [2]⟩,
   ⟨⟨[98], 4, .value⟩, [3]⟩]

theorem keptEntries_visible_sample :
    keptEntries [⟨[98], [99], 5⟩] 5 (fun k (_ : Unit) => (decide (k = [97]), ()))
        (DropState.init ()) mergedSample = [⟨⟨[97], 7, .value⟩, [1]⟩]
      ∧ ∀ v, Visible (versions (keptEntries [⟨[98], [99], 5⟩] 5
            (fun k (_ : Unit) => (decide (k = [97]), ())) (DropState.init ()) mergedSample)
              ∪ {⟨[98], 1, some [9]⟩}) (tombs [⟨[98], [99], 5⟩]) [97] 6 v ↔
          Visible (versions mergedSample ∪ {⟨[98], 1, some [9]⟩})
            (tombs [⟨[98], [99], 5⟩]) [97] 6 v := by
  refine ⟨by decide, fun v => keptEntries_visible (by decide) (by decide) _ (by decide)
    (fun k => decide (k = [97])) ?_ [97] (by decide) v⟩
  intro o ho
  rw [ho]
  decide

/-- With `smallest_snapshot` at the largest sequence number the reset value of
    `last_sequence_for_key` no longer lies above the snapshot, and rule (A) drops
    the only entry of a key. -/
theorem keptEntries_drops_all_at_kMaxSequenceNumber :
    Sorted [⟨⟨[97], 1, .value⟩, [1]⟩]
      ∧ ¬ (Visible (versions (keptEntries [] kMaxSequenceNumber
              (fun _ (_ : Unit) => (false, ())) (DropState.init ())
              [⟨⟨[97], 1, .value⟩, [1]⟩]) ∪ ∅) (tombs []) [97] kMaxSequenceNumber [1] ↔
            Visible (versions [⟨⟨[97], 1, .value⟩, [1]⟩] ∪ ∅) (tombs [])
              [97] kMaxSequenceNumber [1]) := by
  refine ⟨by decide, fun h => ?_⟩
  have hkept : keptEntries [] kMaxSequenceNumber (fun _ (_ : Unit) => (false, ()))
      (DropState.init ()) [⟨⟨[97], 1, .value⟩, [1]⟩] = [] := by decide
  have hfull : Visible (versions [⟨⟨[97], 1, .value⟩, [1]⟩] ∪ ∅) (tombs [])
      [97] kMaxSequenceNumber [1] := by
    refine ⟨⟨[97], 1, some [1]⟩, ⟨⟨Or.inl ⟨_, List.mem_singleton.mpr rfl, rfl, rfl⟩, rfl,
      by decide⟩, ?_⟩, rfl, ?_⟩
    · rintro e' (⟨q, hq, -, rfl⟩ | he) - -
      · rw [List.mem_singleton.mp hq]
        exact le_refl _
      · exact absurd he (Set.notMem_empty _)
    · rintro ⟨t, ⟨d, hd, -⟩, -⟩
      cases hd
  obtain ⟨e, ⟨⟨hmem, -⟩, -⟩, -⟩ := h.mpr hfull
  rw [hkept] at hmem
  rcases hmem with ⟨q, hq, -⟩ | he
  · cases hq
  · exact absurd he (Set.notMem_empty _)

end LdbDrop
