import Mathlib.Order.Basic
import Mathlib.Data.Set.Basic

/-! # Multi-version maps with range tombstones

    A multi-version map is a set of numbered versions of keys: a version either
    stores a value or records a deletion.  A range tombstone deletes every
    version of every key in `[start, stop)` that is older than itself.  A read
    at sequence `s` sees the newest version numbered at most `s`, unless a
    tombstone numbered at most `s` is newer than that version.

    The file fixes what a read means (`Visible`) and proves the one fact a
    garbage collector of such a map needs: versions that are hidden, shadowed
    or obsolete may be dropped without changing any read at or above the drop
    horizon (`visible_drop`).  Nothing here depends on how versions are stored. -/

namespace Versioned

variable {K V : Type}

/-- One version of a key: a stored value, or a deletion when `val` is `none`. -/
structure Ver (K V : Type) where
  key : K
  seq : Nat
  val : Option V

/-- A range tombstone over `[start, stop)`. -/
structure Tomb (K : Type) where
  start : K
  stop : K
  seq : Nat

/-- The tombstone's range contains the key. -/
def Tomb.Covers [LinearOrder K] (t : Tomb K) (k : K) : Prop := t.start ≤ k ∧ k < t.stop

/-- `e` is a newest version of `k` among those numbered at most `s`. -/
def Newest (E : Set (Ver K V)) (k : K) (s : Nat) (e : Ver K V) : Prop :=
  (e ∈ E ∧ e.key = k ∧ e.seq ≤ s) ∧
    ∀ e' ∈ E, e'.key = k → e'.seq ≤ s → e'.seq ≤ e.seq

variable {k : K} {s n : Nat}

variable {E E' : Set (Ver K V)} {e : Ver K V}

/-- Readable versions have a newest one: sequences are bounded by `s`. -/
theorem exists_newest (he : e ∈ E) (hk : e.key = k) (hs : e.seq ≤ s) :
    ∃ m, Newest E k s m ∧ e.seq ≤ m.seq := by
  -- induction on the distance to the read sequence: step up while a newer one exists
  induction hn : s - e.seq using Nat.strong_induction_on generalizing e with
  | _ n ih =>
    by_cases hmax : ∀ e' ∈ E, e'.key = k → e'.seq ≤ s → e'.seq ≤ e.seq
    · exact ⟨e, ⟨⟨he, hk, hs⟩, hmax⟩, Nat.le_refl _⟩
    · push Not at hmax
      obtain ⟨e', he', hk', hs', hlt⟩ := hmax
      obtain ⟨m, hm, hle⟩ := ih (s - e'.seq) (by omega) he' hk' hs' rfl
      exact ⟨m, hm, by omega⟩

/-- Two newest versions carry the same number. -/
theorem Newest.seq_eq {e' : Ver K V} (h : Newest E k s e) (h' : Newest E k s e') : e.seq = e'.seq :=
  Nat.le_antisymm (h'.2 e h.1.1 h.1.2.1 h.1.2.2) (h.2 e' h'.1.1 h'.1.2.1 h'.1.2.2)

variable [LinearOrder K]

/-- Some tombstone readable at `s` is newer than sequence `q` on key `k`. -/
def Hidden (T : Set (Tomb K)) (k : K) (q s : Nat) : Prop :=
  ∃ t ∈ T, t.Covers k ∧ q < t.seq ∧ t.seq ≤ s

/-- **The read.** The value a read of `k` at sequence `s` returns. -/
def Visible (E : Set (Ver K V)) (T : Set (Tomb K)) (k : K) (s : Nat) (v : V) : Prop :=
  ∃ e, Newest E k s e ∧ e.val = some v ∧ ¬ Hidden T k e.seq s

variable {T : Set (Tomb K)}

/-- A tombstone that hides a version hides every older version of the key. -/
theorem Hidden.mono {q q' : Nat} (h : Hidden T k q s) (hq : q' ≤ q) : Hidden T k q' s := by
  obtain ⟨t, ht, hc, hlt, hle⟩ := h
  exact ⟨t, ht, hc, Nat.lt_of_le_of_lt hq hlt, hle⟩

/-- Hiding at an older read sequence persists at every later one. -/
theorem Hidden.mono_read {q s' : Nat} (h : Hidden T k q s) (hs : s ≤ s') : Hidden T k q s' := by
  obtain ⟨t, ht, hc, hlt, hle⟩ := h
  exact ⟨t, ht, hc, hlt, Nat.le_trans hle hs⟩

variable {T' : Set (Tomb K)}

theorem Hidden.mono_tombs {q : Nat} (h : Hidden T k q s) (hT : T ⊆ T') :
    Hidden T' k q s := by
  obtain ⟨t, ht, hc⟩ := h
  exact ⟨t, hT ht, hc⟩

/-- When numbers identify versions, the newest version decides the read. -/
theorem visible_iff_of_newest (hinj : ∀ a ∈ E, ∀ b ∈ E, a.key = b.key → a.seq = b.seq → a = b)
    (he : Newest E k s e) (v : V) : Visible E T k s v ↔ e.val = some v ∧ ¬ Hidden T k e.seq s := by
  constructor
  · rintro ⟨e', he', hv, hh⟩
    have heq : e' = e := hinj e' he'.1.1 e he.1.1
      (he'.1.2.1.trans he.1.2.1.symm) (he'.seq_eq he)
    subst heq
    exact ⟨hv, hh⟩
  · rintro ⟨hv, hh⟩
    exact ⟨e, he, hv, hh⟩

/-- No readable version, no value. -/
theorem not_visible_of_none (h : ∀ e ∈ E, e.key = k → ¬ e.seq ≤ s) (v : V) :
    ¬ Visible E T k s v := by
  rintro ⟨e, he, -, -⟩
  exact h e he.1.1 he.1.2.1 he.1.2.2

/-- Why a version may be dropped from `E`, leaving `E'`, for reads at `s`:
    a readable tombstone hides it, a newer readable version shadows it, it is a
    deletion tied with a stored value, or it is a deletion with nothing older
    left to delete. -/
def Droppable (E E' : Set (Ver K V)) (T : Set (Tomb K)) (s : Nat) (e : Ver K V) : Prop :=
  Hidden T e.key e.seq s
  ∨ (∃ n ∈ E, n.key = e.key ∧ e.seq < n.seq ∧ n.seq ≤ s)
  ∨ (e.val = none ∧ ∃ n ∈ E, n.key = e.key ∧ n.seq = e.seq ∧ n.val ≠ none)
  ∨ (e.val = none ∧ ∀ o ∈ E', o.key = e.key → e.seq ≤ o.seq)

/-- A newest version that stores a value and is not hidden is never droppable. -/
theorem not_droppable_of_read (E' : Set (Ver K V)) (he : Newest E k s e) (hv : e.val ≠ none)
    (hh : ¬ Hidden T k e.seq s) : ¬ Droppable E E' T s e := by
  rintro (hid | ⟨n, hn, hk, hlt, hle⟩ | ⟨hnone, -⟩ | ⟨hnone, -⟩)
  · rw [he.1.2.1] at hid
    exact hh hid
  · have := he.2 n hn (hk.trans he.1.2.1) hle
    omega
  · exact hv hnone
  · exact hv hnone

/-- **Dropping is invisible.** If every version of `k` missing from `E'` is
    droppable for reads at `s`, reads of `k` at `s` agree on `E` and `E'`. -/
theorem visible_drop (hsub : E' ⊆ E) (hdrop : ∀ e ∈ E, e.key = k → e ∉ E' → Droppable E E' T s e)
    (v : V) : Visible E' T k s v ↔ Visible E T k s v := by
  constructor
  · rintro ⟨e', he', hv, hh⟩
    -- `e'` is still the newest in `E`: anything newer was dropped, and no reason fits
    refine ⟨e', ⟨⟨hsub he'.1.1, he'.1.2⟩, ?_⟩, hv, hh⟩
    intro x hx hxk hxs
    by_contra hlt
    push Not at hlt
    obtain ⟨m, hm, hxm⟩ := exists_newest hx hxk hxs
    have hmout : ∀ n, n ∈ E → n.key = k → n.seq = m.seq → n ∉ E' := by
      intro n _ hnk hns hin
      have := he'.2 n hin hnk (hns ▸ hm.1.2.2)
      omega
    have holder : ¬ (∀ o ∈ E', o.key = k → m.seq ≤ o.seq) := by
      intro hall
      have := hall e' he'.1.1 he'.1.2.1
      omega
    have hreason : ∀ n, Newest E k s n → n.seq = m.seq → n.val ≠ none → False := by
      intro n hn hns hnv
      refine not_droppable_of_read E' (T := T) hn hnv ?_
        (hdrop n hn.1.1 hn.1.2.1 (hmout n hn.1.1 hn.1.2.1 hns))
      intro hid
      exact hh (hid.mono (by omega))
    rcases hdrop m hm.1.1 hm.1.2.1 (hmout m hm.1.1 hm.1.2.1 rfl) with
      hid | ⟨n, hn, hnk, hnlt, hns⟩ | ⟨-, n, hn, hnk, hns, hnv⟩ | ⟨-, hold⟩
    · rw [hm.1.2.1] at hid
      exact hh (hid.mono (by omega))
    · have := hm.2 n hn (hnk.trans hm.1.2.1) hns
      omega
    · refine hreason n ⟨⟨hn, hnk.trans hm.1.2.1, hns ▸ hm.1.2.2⟩, ?_⟩ hns hnv
      intro y hy hyk hys
      rw [hns]
      exact hm.2 y hy hyk hys
    · rw [hm.1.2.1] at hold
      exact holder hold
  · rintro ⟨e, he, hv, hh⟩
    have hin : e ∈ E' := by
      by_contra hout
      exact not_droppable_of_read E' he (by rw [hv]; simp) hh
        (hdrop e he.1.1 he.1.2.1 hout)
    exact ⟨e, ⟨⟨hin, he.1.2⟩, fun x hx => he.2 x (hsub hx)⟩, hv, hh⟩

/-- **The newest version left after dropping** is the newest one there was, or a
    tombstone hid that one. -/
theorem newest_after_drop (hinj : ∀ a ∈ E, ∀ b ∈ E, a.key = b.key → a.seq = b.seq → a = b)
    (hsub : E' ⊆ E) (hdrop : ∀ e ∈ E, e.key = k → e ∉ E' → Droppable E E' T s e) {m : Ver K V}
    (hm : Newest E k s m) (he : Newest E' k s e) :
    e = m ∨ (e.seq < m.seq ∧ Hidden T k m.seq s) := by
  have hle : e.seq ≤ m.seq := hm.2 e (hsub he.1.1) he.1.2.1 he.1.2.2
  have heq : m.seq ≤ e.seq → e = m := fun h =>
    hinj e (hsub he.1.1) m hm.1.1 (he.1.2.1.trans hm.1.2.1.symm) (Nat.le_antisymm hle h)
  by_cases hin : m ∈ E'
  · exact Or.inl (heq (he.2 m hin hm.1.2.1 hm.1.2.2))
  · rcases hdrop m hm.1.1 hm.1.2.1 hin with hid | ⟨n, hn, hnk, hlt, hns⟩ |
      ⟨hnone, n, hn, hnk, hns, hnv⟩ | ⟨-, hold⟩
    · rcases Nat.lt_or_ge e.seq m.seq with hlt | hge
      · exact Or.inr ⟨hlt, hm.1.2.1 ▸ hid⟩
      · exact Or.inl (heq hge)
    · have := hm.2 n hn (hnk.trans hm.1.2.1) hns
      omega
    · rw [hinj n hn m hm.1.1 hnk hns] at hnv
      exact absurd hnone hnv
    · exact Or.inl (heq (hold e he.1.1 (he.1.2.1.trans hm.1.2.1.symm)))

/-! ## Reads of related maps -/

/-- A read depends on the readable versions of its key and the readable
    tombstones only. -/
theorem visible_congr (hE : ∀ e : Ver K V, e.key = k → e.seq ≤ s → (e ∈ E ↔ e ∈ E'))
    (hT : ∀ t : Tomb K, t.seq ≤ s → (t ∈ T ↔ t ∈ T')) (v : V) :
    Visible E T k s v ↔ Visible E' T' k s v := by
  have hnew : ∀ e, Newest E k s e ↔ Newest E' k s e := by
    intro e
    refine and_congr ⟨?_, ?_⟩ ⟨?_, ?_⟩
    · rintro ⟨he, hk, hs⟩
      exact ⟨(hE e hk hs).mp he, hk, hs⟩
    · rintro ⟨he, hk, hs⟩
      exact ⟨(hE e hk hs).mpr he, hk, hs⟩
    · intro hmax x hx hxk hxs
      exact hmax x ((hE x hxk hxs).mpr hx) hxk hxs
    · intro hmax x hx hxk hxs
      exact hmax x ((hE x hxk hxs).mp hx) hxk hxs
  have hhid : ∀ q, Hidden T k q s ↔ Hidden T' k q s := by
    intro q
    constructor
    · rintro ⟨t, ht, hc, hlt, hle⟩
      exact ⟨t, (hT t hle).mp ht, hc, hlt, hle⟩
    · rintro ⟨t, ht, hc, hlt, hle⟩
      exact ⟨t, (hT t hle).mpr ht, hc, hlt, hle⟩
  refine exists_congr fun e => ?_
  rw [hnew e, hhid e.seq]

/-- One direction of `visible_union`. -/
theorem visible_union_imp {B : Set (Ver K V)} {U : Set (Tomb K)} {v : V} (hE : ∀ e ∈ E, e.seq ≤ n)
    (hE' : ∀ e ∈ E', e.seq ≤ n) (hT : ∀ t ∈ T, t.seq ≤ n) (hB : ∀ e ∈ B, n < e.seq)
    (hU : ∀ t ∈ U, n < t.seq) (hs : n ≤ s) (h : Visible E T k n v → Visible E' T k n v)
    (hv : Visible (E ∪ B) (T ∪ U) k s v) : Visible (E' ∪ B) (T ∪ U) k s v := by
  obtain ⟨e, he, hval, hh⟩ := hv
  rcases he.1.1 with heE | heB
  · -- nothing of the key was added: read the old map at `n`
    have hnone : ∀ b ∈ B, b.key = k → ¬ b.seq ≤ s := by
      intro b hb hbk hbs
      have h1 := he.2 b (Or.inr hb) hbk hbs
      have h2 := hE e heE
      have h3 := hB b hb
      omega
    have hold : Visible E T k n v := by
      refine ⟨e, ⟨⟨heE, he.1.2.1, hE e heE⟩, ?_⟩, hval, ?_⟩
      · intro x hx hxk hxn
        exact he.2 x (Or.inl hx) hxk (le_trans hxn hs)
      · rintro ⟨t, ht, hc, hlt, hle⟩
        exact hh ⟨t, Or.inl ht, hc, hlt, le_trans hle hs⟩
    obtain ⟨e', he', hval', hh'⟩ := h hold
    refine ⟨e', ⟨⟨Or.inl he'.1.1, he'.1.2.1, le_trans he'.1.2.2 hs⟩, ?_⟩, hval', ?_⟩
    · rintro x (hx | hx) hxk hxs
      · exact he'.2 x hx hxk (hE' x hx)
      · exact absurd hxs (hnone x hx hxk)
    · rintro ⟨t, ht | ht, hc, hlt, hle⟩
      · exact hh' ⟨t, ht, hc, hlt, hT t ht⟩
      · refine hh ⟨t, Or.inr ht, hc, ?_, hle⟩
        exact lt_of_le_of_lt (hE e heE) (hU t ht)
  · -- the newest version was added
    refine ⟨e, ⟨⟨Or.inr heB, he.1.2⟩, ?_⟩, hval, hh⟩
    rintro x (hx | hx) hxk hxs
    · exact le_of_lt (lt_of_le_of_lt (hE' x hx) (hB e heB))
    · exact he.2 x (Or.inr hx) hxk hxs

/-- **Additions preserve agreement.** Two maps that agree at `n`, on which all of
    both is numbered at most `n`, still agree after the same additions numbered
    above `n`. -/
theorem visible_union {B : Set (Ver K V)} {U : Set (Tomb K)} (hE : ∀ e ∈ E, e.seq ≤ n)
    (hE' : ∀ e ∈ E', e.seq ≤ n) (hT : ∀ t ∈ T, t.seq ≤ n) (hB : ∀ e ∈ B, n < e.seq)
    (hU : ∀ t ∈ U, n < t.seq) (hs : n ≤ s) (h : ∀ v, Visible E T k n v ↔ Visible E' T k n v) (v : V) :
    Visible (E ∪ B) (T ∪ U) k s v ↔ Visible (E' ∪ B) (T ∪ U) k s v :=
  ⟨visible_union_imp hE hE' hT hB hU hs (h v).mp,
    visible_union_imp hE' hE hT hB hU hs (h v).mpr⟩

/-- More tombstones make more versions droppable. -/
theorem Droppable.mono (h : Droppable E E' T s e) (hT : T ⊆ T') :
    Droppable E E' T' s e := by
  rcases h with ⟨t, ht, hc⟩ | h
  · exact Or.inl ⟨t, hT ht, hc⟩
  · exact Or.inr h

/-! ## One addition at a time -/

/-- After a version numbered above everything else, a read of its key returns it
    and other reads do not change. -/
theorem visible_insert {x : Ver K V} (hE : ∀ e ∈ E, e.seq ≤ n) (hT : ∀ t ∈ T, t.seq ≤ n)
    (hx : x.seq = n + 1) (k : K) (v : V) :
    Visible (E ∪ {x}) T k (n + 1) v ↔
      (x.key = k ∧ x.val = some v) ∨ (x.key ≠ k ∧ Visible E T k n v) := by
  have hhid : ∀ q, Hidden T k q (n + 1) ↔ Hidden T k q n := by
    intro q
    constructor
    · rintro ⟨t, ht, hc, hlt, -⟩
      exact ⟨t, ht, hc, hlt, hT t ht⟩
    · exact fun hh => hh.mono_read (Nat.le_succ n)
  by_cases hk : x.key = k
  · -- the new version is the newest, and no tombstone is newer
    have hnew : Newest (E ∪ {x}) k (n + 1) x := by
      refine ⟨⟨Or.inr rfl, hk, le_of_eq hx⟩, ?_⟩
      rintro e (he | rfl) - -
      · have := hE e he
        omega
      · exact le_refl _
    have hnh : ¬ Hidden T k x.seq (n + 1) := by
      rintro ⟨t, ht, -, hlt, -⟩
      have := hT t ht
      omega
    constructor
    · rintro ⟨e, he, hv, -⟩
      left
      refine ⟨hk, ?_⟩
      rcases he.1.1 with heE | rfl
      · have h1 := he.seq_eq hnew
        have h2 := hE e heE
        omega
      · exact hv
    · rintro (⟨-, hv⟩ | ⟨hne, -⟩)
      · exact ⟨x, hnew, hv, hnh⟩
      · exact absurd hk hne
  · have hnew : ∀ e, Newest (E ∪ {x}) k (n + 1) e ↔ Newest E k n e := by
      intro e
      constructor
      · rintro ⟨⟨he, hek, -⟩, hmax⟩
        have heE : e ∈ E := he.resolve_right fun h => hk (h ▸ hek)
        exact ⟨⟨heE, hek, hE e heE⟩, fun y hy hyk hyn =>
          hmax y (Or.inl hy) hyk (Nat.le_succ_of_le hyn)⟩
      · rintro ⟨⟨he, hek, hen⟩, hmax⟩
        refine ⟨⟨Or.inl he, hek, Nat.le_succ_of_le hen⟩, ?_⟩
        rintro y (hy | rfl) hyk -
        · exact hmax y hy hyk (hE y hy)
        · exact absurd hyk hk
    rw [or_iff_right fun h => hk h.1, and_iff_right hk]
    refine exists_congr fun e => ?_
    rw [hnew e, hhid e.seq]

/-- After a tombstone numbered above everything else, the keys it covers are gone
    and other reads do not change. -/
theorem visible_insert_tomb {t : Tomb K} (hE : ∀ e ∈ E, e.seq ≤ n) (hT : ∀ u ∈ T, u.seq ≤ n)
    (ht : t.seq = n + 1) (k : K) (v : V) :
    Visible E (T ∪ {t}) k (n + 1) v ↔ ¬ t.Covers k ∧ Visible E T k n v := by
  constructor
  · rintro ⟨e, he, hv, hh⟩
    have hen := hE e he.1.1
    refine ⟨fun hc => hh ⟨t, Or.inr rfl, hc, by omega, le_of_eq ht⟩, e, ?_, hv, ?_⟩
    · exact ⟨⟨he.1.1, he.1.2.1, hen⟩, fun y hy hyk hyn => he.2 y hy hyk (Nat.le_succ_of_le hyn)⟩
    · rintro ⟨u, hu, hc, hlt, hle⟩
      exact hh ⟨u, Or.inl hu, hc, hlt, Nat.le_succ_of_le hle⟩
  · rintro ⟨hnc, e, he, hv, hh⟩
    refine ⟨e, ⟨⟨he.1.1, he.1.2.1, Nat.le_succ_of_le he.1.2.2⟩, ?_⟩, hv, ?_⟩
    · exact fun y hy hyk _ => he.2 y hy hyk (hE y hy)
    · rintro ⟨u, hu | rfl, hc, hlt, -⟩
      · exact hh ⟨u, hu, hc, hlt, hT u hu⟩
      · exact hnc hc

end Versioned
