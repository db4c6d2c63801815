import Mathlib.Data.List.Forall2
import LevelDB.Versioned

/-! # Reading a multi-version map from tiers

    A multi-version map may be spread over several sources that are searched in
    order.  A source answers a read from its own versions and tombstones only;
    the first source that has something to say about the key decides.

    `firstAnswer_iff_visible` says when this is sound: versions of the key get
    older from source to source, and for the newest one, being covered by a source
    before its own or hidden in its own is the same as being hidden. -/

namespace Tiered

open Versioned

variable {K V : Type} [LinearOrder K]

/-- What one source says about a read. -/
inductive Lookup (V : Type) where
  | found (v : V)
  | deleted
  | absent
  deriving DecidableEq, Repr

/-- A source: the versions and tombstones it stores. -/
structure Source (K V : Type) where
  vers : Set (Ver K V)
  tombs : Set (Tomb K)

/-- The source holds a version of `k` readable at `s`. -/
def Source.Has (S : Source K V) (k : K) (s : Nat) : Prop :=
  ∃ e ∈ S.vers, e.key = k ∧ e.seq ≤ s

/-- The answer a source gives from its own contents. -/
inductive Answers (S : Source K V) (k : K) (s : Nat) : Lookup V → Prop
  | found {e : Ver K V} {v : V} : Newest S.vers k s e → e.val = some v →
      ¬ Hidden S.tombs k e.seq s → Answers S k s (.found v)
  | dead {e : Ver K V} : Newest S.vers k s e → e.val = none ∨ Hidden S.tombs k e.seq s →
      Answers S k s .deleted
  | covered : ¬ S.Has k s → Hidden S.tombs k 0 s → Answers S k s .deleted
  | absent : ¬ S.Has k s → ¬ Hidden S.tombs k 0 s → Answers S k s .absent

/-- Only the readable versions of the key matter for an answer. -/
theorem Answers.congr {vers vers' : Set (Ver K V)} {tombs : Set (Tomb K)} {k : K} {s : Nat}
    {r : Lookup V} (h : Answers ⟨vers, tombs⟩ k s r)
    (hsame : ∀ e : Ver K V, e.key = k → e.seq ≤ s → (e ∈ vers ↔ e ∈ vers')) :
    Answers ⟨vers', tombs⟩ k s r := by
  have hnew : ∀ {e : Ver K V}, Newest vers k s e → Newest vers' k s e := by
    intro e he
    refine ⟨⟨(hsame e he.1.2.1 he.1.2.2).mp he.1.1, he.1.2⟩, ?_⟩
    intro e' he' hk hs
    exact he.2 e' ((hsame e' hk hs).mpr he') hk hs
  have hhas : ¬ Source.Has ⟨vers, tombs⟩ k s → ¬ Source.Has ⟨vers', tombs⟩ k s := by
    rintro hno ⟨e, he, hk, hs⟩
    exact hno ⟨e, (hsame e hk hs).mpr he, hk, hs⟩
  cases h with
  | found he hv hh => exact .found (hnew he) hv hh
  | dead he hd => exact .dead (hnew he) hd
  | covered hno hh => exact .covered (hhas hno) hh
  | absent hno hh => exact .absent (hhas hno) hh

/-- The search: the first source that does not answer `absent` decides. -/
def firstAnswer : List (Lookup V) → Option V
  | [] => none
  | .found v :: _ => some v
  | .deleted :: _ => none
  | .absent :: rest => firstAnswer rest

/-! ## Soundness of the search -/

section Sound

variable {E : Set (Ver K V)} {T : Set (Tomb K)} {k : K} {s : Nat}

/-- Versions of the key get older from source to source. -/
def Recency (L : List (Source K V)) (k : K) (s : Nat) : Prop :=
  L.Pairwise fun S S' => ∀ e ∈ S.vers, ∀ e' ∈ S'.vers, e.key = k → e'.key = k →
    e.seq ≤ s → e'.seq ≤ s → e'.seq < e.seq

/-- **Tombstones are consulted where they count.**  A source in front of the
    newest version covers the key only if the version is hidden; and if it is,
    its own source or one in front of it hides it. -/
def Guarded (L : List (Source K V)) (E : Set (Ver K V)) (T : Set (Tomb K)) (k : K) (s : Nat) :
    Prop :=
  ∀ A S B, L = A ++ S :: B → ∀ e ∈ S.vers, Newest E k s e →
    (∀ S' ∈ A, Hidden S'.tombs k 0 s → Hidden T k e.seq s)
      ∧ (Hidden T k e.seq s → ∃ S' ∈ A ++ [S], Hidden S'.tombs k e.seq s)

omit [LinearOrder K] in
/-- The newest version of the first source that has one is the newest of all. -/
theorem newest_of_head {S : Source K V} {L : List (Source K V)} {e : Ver K V}
    (hrec : Recency (S :: L) k s) (hE : ∀ x, Newest E k s x → ∃ S' ∈ S :: L, x ∈ S'.vers)
    (hvers : ∀ S' ∈ S :: L, ∀ x ∈ S'.vers, x.key = k → x.seq ≤ s → x ∈ E)
    (he : Newest S.vers k s e) : Newest E k s e := by
  have heE : e ∈ E := hvers S (by simp) e he.1.1 he.1.2.1 he.1.2.2
  refine ⟨⟨heE, he.1.2⟩, ?_⟩
  intro x hx hk hs
  -- compare with the newest one, which some source has
  obtain ⟨m, hm, hxm⟩ := exists_newest hx hk hs
  refine le_trans hxm ?_
  obtain ⟨S', hS', hmS⟩ := hE m hm
  rcases List.mem_cons.mp hS' with rfl | hS'
  · exact he.2 m hmS hm.1.2.1 hm.1.2.2
  · exact le_of_lt ((List.pairwise_cons.mp hrec).1 S' hS' e he.1.1 m hmS he.1.2.1 hm.1.2.1
      he.1.2.2 hm.1.2.2)

/-- **The tiered search returns the visible value.** -/
theorem firstAnswer_iff_visible {L : List (Source K V)} {answers : List (Lookup V)}
    (h : List.Forall₂ (fun S r => Answers S k s r) L answers)
    (hinj : ∀ a ∈ E, ∀ b ∈ E, a.key = b.key → a.seq = b.seq → a = b)
    (hE : ∀ e, Newest E k s e → ∃ S ∈ L, e ∈ S.vers)
    (hvers : ∀ S ∈ L, ∀ e ∈ S.vers, e.key = k → e.seq ≤ s → e ∈ E)
    (htombs : ∀ S ∈ L, S.tombs ⊆ T)
    (hrec : Recency L k s) (hguard : Guarded L E T k s) (v : V) :
    firstAnswer answers = some v ↔ Visible E T k s v := by
  induction h with
  | nil =>
    constructor
    · nofun
    · rintro ⟨e, he, -, -⟩
      obtain ⟨S, hS, -⟩ := hE e he
      cases hS
  | @cons S r L answers hr hrest ih =>
    cases hr with
    | @found e v' he hv hh =>
      have heE := newest_of_head hrec hE hvers he
      have hT : ¬ Hidden T k e.seq s := by
        intro hid
        obtain ⟨S', hS', hid'⟩ := (hguard [] S L rfl e he.1.1 heE).2 hid
        rw [List.mem_singleton.mp hS'] at hid'
        exact hh hid'
      rw [visible_iff_of_newest hinj heE, firstAnswer, ← hv]
      exact ⟨fun h => ⟨h, hT⟩, fun h => h.1⟩
    | @dead e he hd =>
      have heE := newest_of_head hrec hE hvers he
      rw [visible_iff_of_newest hinj heE]
      constructor
      · nofun
      · rintro ⟨hv, hT⟩
        rcases hd with hnone | ⟨t, ht, hc⟩
        · rw [hnone] at hv
          cases hv
        · exact absurd ⟨t, htombs S (by simp) ht, hc⟩ hT
    | covered hno hid =>
      constructor
      · nofun
      · rintro ⟨e, he, -, hT⟩
        exfalso
        obtain ⟨S', hS', heS⟩ := hE e he
        rcases List.mem_cons.mp hS' with rfl | hS'
        · exact hno ⟨e, heS, he.1.2⟩
        · obtain ⟨A, B, hAB⟩ := List.append_of_mem hS'
          refine hT ((hguard (S :: A) S' B ?_ e heS he).1 S (by simp) hid)
          rw [hAB]
          rfl
    | absent hno hnot =>
      refine ih ?_ (fun S' hS' => hvers S' (List.mem_cons_of_mem _ hS'))
        (fun S' hS' => htombs S' (List.mem_cons_of_mem _ hS'))
        (List.pairwise_cons.mp hrec).2 ?_
      · intro e he
        obtain ⟨S', hS', heS⟩ := hE e he
        rcases List.mem_cons.mp hS' with rfl | hS'
        · exact absurd ⟨e, heS, he.1.2⟩ hno
        · exact ⟨S', hS', heS⟩
      · intro A S0 B hL e heS he
        obtain ⟨hcov, hhid⟩ := hguard (S :: A) S0 B (by rw [hL]; rfl) e heS he
        refine ⟨fun S' hS' => hcov S' (List.mem_cons_of_mem _ hS'), fun hid => ?_⟩
        obtain ⟨S', hS', hid'⟩ := hhid hid
        rcases List.mem_cons.mp hS' with rfl | hS'
        · exact absurd (hid'.mono (Nat.zero_le _)) hnot
        · exact ⟨S', hS', hid'⟩

end Sound

end Tiered
