import Mathlib.Order.FixedPoints
import Mathlib.Order.CompletePartialOrder
import Mathlib.Data.Set.Lattice

/-! # The items reachable from a range by growing its hull

    Items have a lower and an upper end in a linear order.  Starting from a range
    `[b, e]`, whose ends may be open (`none`), every item that overlaps the hull of
    the range and the items taken so far is taken as well.  `reached` is the least
    set of items closed under that rule.

    A search does not keep the set, only a range it widens (`Widened`).
    `reached_eq_overlapping` is the rule for such a search: once no item that
    overlaps the widened range sticks out of it, these items are the least set. -/

namespace HullClosure

variable {α K : Type} [LinearOrder K] (lo hi : α → K)

/-- An item overlaps the range `[b, e]`. -/
structure Overlaps (b e : Option K) (x : α) : Prop where
  low : ∀ k, b = some k → k ≤ hi x
  high : ∀ k, e = some k → lo x ≤ k

/-- An item overlaps the hull of the range `[b, e]` and the items of `S`. -/
structure OverlapsHull (b e : Option K) (S : Set α) (x : α) : Prop where
  low : ∀ k, b = some k → k ≤ hi x ∨ ∃ y ∈ S, lo y ≤ hi x
  high : ∀ k, e = some k → lo x ≤ k ∨ ∃ y ∈ S, lo x ≤ hi y

variable {b e b' e' : Option K} {x : α}

theorem OverlapsHull.mono {S T : Set α} (hST : S ⊆ T) (h : OverlapsHull lo hi b e S x) :
    OverlapsHull lo hi b e T x where
  low k hk := (h.low k hk).imp id fun ⟨y, hy, hle⟩ => ⟨y, hST hy, hle⟩
  high k hk := (h.high k hk).imp id fun ⟨y, hy, hle⟩ => ⟨y, hST hy, hle⟩

/-- One round of growing: the items that overlap the hull of the range and `S`. -/
def grow (items : Set α) (b e : Option K) : Set α →o Set α where
  toFun S := {x | x ∈ items ∧ OverlapsHull lo hi b e S x}
  monotone' _ _ hST _ hx := ⟨hx.1, hx.2.mono lo hi hST⟩

/-- The least set of items closed under growing. -/
def reached (items : Set α) (b e : Option K) : Set α :=
  (grow lo hi items b e).lfp

variable {lo hi}

variable {items : Set α}

/-- An item that overlaps the hull of the range and the reached items is reached. -/
theorem mem_reached (hx : x ∈ items)
    (h : OverlapsHull lo hi b e (reached lo hi items b e) x) : x ∈ reached lo hi items b e := by
  have hfix : grow lo hi items b e (reached lo hi items b e) = reached lo hi items b e :=
    (grow lo hi items b e).map_lfp
  rw [← hfix]
  exact ⟨hx, h⟩

/-- An item between two reached items is reached. -/
theorem mem_reached_of_between {y z : α} (hx : x ∈ items)
    (hy : y ∈ reached lo hi items b e) (hz : z ∈ reached lo hi items b e) (hlow : lo y ≤ hi x)
    (hhigh : lo x ≤ hi z) : x ∈ reached lo hi items b e :=
  mem_reached hx
    { low := fun _ _ => Or.inr ⟨y, hy, hlow⟩
      high := fun _ _ => Or.inr ⟨z, hz, hhigh⟩ }

/-- A range a search may have arrived at: each end is as it was or has moved out to
    the end of a reached item, and an open end stayed open. -/
structure Widened (R : Set α) (lo hi : α → K) (b e b' e' : Option K) : Prop where
  low : ∀ k, b = some k → ∃ k', b' = some k' ∧ k' ≤ k ∧ (k' = k ∨ ∃ y ∈ R, lo y = k')
  high : ∀ k, e = some k → ∃ k', e' = some k' ∧ k ≤ k' ∧ (k' = k ∨ ∃ y ∈ R, hi y = k')
  openLow : b = none → b' = none
  openHigh : e = none → e' = none

theorem Widened.refl (R : Set α) (b e : Option K) : Widened R lo hi b e b e where
  low k hk := ⟨k, hk, le_refl k, Or.inl rfl⟩
  high k hk := ⟨k, hk, le_refl k, Or.inl rfl⟩
  openLow := id
  openHigh := id

/-- What overlaps a widened range overlaps the hull of the first range and the
    reached items. -/
theorem Widened.overlapsHull {R : Set α} (h : Widened R lo hi b e b' e')
    (hx : Overlaps lo hi b' e' x) :
    OverlapsHull lo hi b e R x where
  low k hk := by
    obtain ⟨k', hk', -, hor⟩ := h.low k hk
    rcases hor with rfl | ⟨y, hy, rfl⟩
    · exact Or.inl (hx.low k' hk')
    · exact Or.inr ⟨y, hy, hx.low _ hk'⟩
  high k hk := by
    obtain ⟨k', hk', -, hor⟩ := h.high k hk
    rcases hor with rfl | ⟨y, hy, rfl⟩
    · exact Or.inl (hx.high k' hk')
    · exact Or.inr ⟨y, hy, hx.high _ hk'⟩

/-- Moving the lower end out to a reached item keeps the range widened. -/
theorem Widened.moveLow {R : Set α} (h : Widened R lo hi b e b' e') (hx : x ∈ R)
    (hout : ∃ k', b' = some k' ∧ lo x < k') :
    Widened R lo hi b e (some (lo x)) e' where
  low k hk := by
    obtain ⟨k', hk', hlt⟩ := hout
    obtain ⟨k'', hk'', hle, -⟩ := h.low k hk
    obtain rfl : k' = k'' := Option.some.inj (hk'.symm.trans hk'')
    exact ⟨lo x, rfl, le_trans (le_of_lt hlt) hle, Or.inr ⟨x, hx, rfl⟩⟩
  high := h.high
  openLow hb := by
    obtain ⟨k', hk', -⟩ := hout
    rw [h.openLow hb] at hk'
    cases hk'
  openHigh := h.openHigh

/-- Moving the upper end out to a reached item keeps the range widened. -/
theorem Widened.moveHigh {R : Set α} (h : Widened R lo hi b e b' e') (hx : x ∈ R)
    (hout : ∃ k', e' = some k' ∧ k' < hi x) :
    Widened R lo hi b e b' (some (hi x)) where
  low := h.low
  high k hk := by
    obtain ⟨k', hk', hlt⟩ := hout
    obtain ⟨k'', hk'', hle, -⟩ := h.high k hk
    obtain rfl : k' = k'' := Option.some.inj (hk'.symm.trans hk'')
    exact ⟨hi x, rfl, le_trans hle (le_of_lt hlt), Or.inr ⟨x, hx, rfl⟩⟩
  openLow := h.openLow
  openHigh he := by
    obtain ⟨k', hk', -⟩ := hout
    rw [h.openHigh he] at hk'
    cases hk'

/-- **When nothing sticks out, the search is done**: the items that overlap the
    widened range are the least set closed under growing. -/
theorem reached_eq_overlapping (h : Widened (reached lo hi items b e) lo hi b e b' e')
    (hlow : ∀ x ∈ items, Overlaps lo hi b' e' x → ∀ k, b' = some k → k ≤ lo x)
    (hhigh : ∀ x ∈ items, Overlaps lo hi b' e' x → ∀ k, e' = some k → hi x ≤ k) :
    reached lo hi items b e = {x | x ∈ items ∧ Overlaps lo hi b' e' x} := by
  apply subset_antisymm
  · -- the overlapping items are closed under growing
    refine OrderHom.lfp_le _ ?_
    rintro x ⟨hx, hhull⟩
    refine ⟨hx, fun k' hk' => ?_, fun k' hk' => ?_⟩
    · cases hb : b with
      | none =>
        rw [h.openLow hb] at hk'
        cases hk'
      | some k =>
        obtain ⟨k'', hk'', hle, -⟩ := h.low k hb
        obtain rfl : k' = k'' := Option.some.inj (hk'.symm.trans hk'')
        rcases hhull.low k hb with hk | ⟨y, ⟨hy, hov⟩, hyx⟩
        · exact le_trans hle hk
        · exact le_trans (hlow y hy hov k' hk') hyx
    · cases he : e with
      | none =>
        rw [h.openHigh he] at hk'
        cases hk'
      | some k =>
        obtain ⟨k'', hk'', hle, -⟩ := h.high k he
        obtain rfl : k' = k'' := Option.some.inj (hk'.symm.trans hk'')
        rcases hhull.high k he with hk | ⟨y, ⟨hy, hov⟩, hyx⟩
        · exact le_trans hk hle
        · exact le_trans hyx (hhigh y hy hov k' hk')
  · rintro x ⟨hx, hov⟩
    exact mem_reached hx (h.overlapsHull hov)

end HullClosure
