import Mathlib.Data.List.Basic
import Mathlib.Order.Defs.LinearOrder

/-! # Cursors over lists

    An iterator over a sequence of entries stands on one of them, or on none.
    The position splits the sequence: what lies before it, nearest entry first,
    and what follows from it on.  A cursor that has run off either end keeps the
    whole sequence on its left, so that `right = []` says exactly that it stands
    nowhere. -/

namespace Cursors

variable {α : Type}

/-- A position in a list. -/
structure Cursor (α : Type) where
  left : List α
  right : List α
  deriving DecidableEq

namespace Cursor

/-- The list the cursor moves over. -/
def contents (c : Cursor α) : List α := c.left.reverse ++ c.right

/-- The entry the cursor stands on. -/
def current (c : Cursor α) : Option α := c.right.head?

/-- The cursor stands on an entry. -/
def valid (c : Cursor α) : Bool := !c.right.isEmpty

/-- To the first entry. -/
def seekToFirst (c : Cursor α) : Cursor α := ⟨[], c.contents⟩

/-- To the last entry. -/
def seekToLast (c : Cursor α) : Cursor α :=
  match c.contents.reverse with
  | [] => ⟨[], []⟩
  | x :: before => ⟨before, [x]⟩

/-- To the first entry that is not before the target. -/
def seek (before : α → Bool) (c : Cursor α) : Cursor α :=
  ⟨(c.contents.takeWhile before).reverse, c.contents.dropWhile before⟩

/-- One entry forward. -/
def next : Cursor α → Cursor α
  | ⟨left, []⟩ => ⟨left, []⟩
  | ⟨left, x :: right⟩ => ⟨x :: left, right⟩

/-- One entry back; from the first entry the cursor leaves the list. -/
def prev : Cursor α → Cursor α
  | ⟨[], right⟩ => ⟨right.reverse, []⟩
  | ⟨x :: left, right⟩ => ⟨left, x :: right⟩

@[simp] theorem contents_mk (left right : List α) :
    (⟨left, right⟩ : Cursor α).contents = left.reverse ++ right := rfl

@[simp] theorem seekToFirst_contents (c : Cursor α) : c.seekToFirst.contents = c.contents := rfl

@[simp] theorem seekToFirst_right (c : Cursor α) : c.seekToFirst.right = c.contents := rfl

@[simp] theorem seek_right (before : α → Bool) (c : Cursor α) :
    (c.seek before).right = c.contents.dropWhile before := rfl

@[simp] theorem seek_contents (before : α → Bool) (c : Cursor α) :
    (c.seek before).contents = c.contents := by
  rw [seek, contents_mk, List.reverse_reverse, List.takeWhile_append_dropWhile]

theorem right_of_not_valid {c : Cursor α} (h : c.valid = false) : c.right = [] := by
  rw [valid, Bool.not_eq_false', List.isEmpty_iff] at h
  exact h

/-! ## Positions by index -/

/-- The cursor on entry number `i`; behind the last entry it stands nowhere. -/
def atIndex (es : List α) (i : Nat) : Cursor α := ⟨(es.take i).reverse, es.drop i⟩

@[simp] theorem atIndex_contents (es : List α) (i : Nat) : (atIndex es i).contents = es := by
  rw [atIndex, contents_mk, List.reverse_reverse, List.take_append_drop]

@[simp] theorem atIndex_current (es : List α) (i : Nat) : (atIndex es i).current = es[i]? :=
  List.head?_drop

theorem atIndex_valid (es : List α) (i : Nat) :
    (atIndex es i).valid = decide (i < es.length) := by
  rw [valid, atIndex]
  by_cases hi : i < es.length
  · rw [List.drop_eq_getElem_cons hi, decide_eq_true hi]
    rfl
  · rw [List.drop_eq_nil_of_le (Nat.le_of_not_lt hi), decide_eq_false hi]
    rfl

theorem seekToFirst_eq (c : Cursor α) : c.seekToFirst = atIndex c.contents 0 := rfl

theorem seek_eq (before : α → Bool) (c : Cursor α) :
    c.seek before = atIndex c.contents (c.contents.takeWhile before).length := by
  rw [seek, atIndex]
  congr 1
  · rw [← List.prefix_iff_eq_take.mp (List.takeWhile_prefix before)]
  · conv_rhs => rw [← List.takeWhile_append_dropWhile (p := before) (l := c.contents)]
    rw [List.takeWhile_append_dropWhile, List.dropWhile_eq_drop_findIdx_not,
      List.takeWhile_eq_take_findIdx_not, List.length_take,
      Nat.min_eq_left List.findIdx_le_length]

theorem next_atIndex {es : List α} {i : Nat} (hi : i < es.length) :
    (atIndex es i).next = atIndex es (i + 1) := by
  rw [atIndex, List.drop_eq_getElem_cons hi, next, atIndex, List.take_add_one,
    List.getElem?_eq_getElem hi, Option.toList_some, List.reverse_append]
  rfl

theorem prev_atIndex_succ {es : List α} {i : Nat} (hi : i < es.length) :
    (atIndex es (i + 1)).prev = atIndex es i := by
  rw [atIndex, List.take_add_one, List.getElem?_eq_getElem hi, Option.toList_some,
    List.reverse_append, List.reverse_singleton, List.singleton_append, prev, atIndex,
    List.drop_eq_getElem_cons hi]

theorem prev_atIndex_zero (es : List α) : (atIndex es 0).prev = atIndex es es.length := by
  rw [atIndex, List.take_zero, List.reverse_nil, prev, atIndex, List.take_length,
    List.drop_length, List.drop_zero]

theorem seekToLast_eq (c : Cursor α) :
    c.seekToLast = atIndex c.contents (c.contents.length - 1) := by
  rw [seekToLast]
  cases hrev : c.contents.reverse with
  | nil =>
    rw [List.reverse_eq_nil_iff] at hrev
    rw [hrev]
    rfl
  | cons x before =>
    have hes : c.contents = before.reverse ++ [x] := by
      rw [← List.reverse_reverse c.contents, hrev, List.reverse_cons]
    rw [hes, List.length_append, List.length_singleton, Nat.add_sub_cancel, atIndex,
      List.take_left, List.drop_left, List.reverse_reverse]

/-- The last entry is the one before the end. -/
theorem seekToLast_eq_prev (c : Cursor α) : c.seekToLast = prev ⟨c.contents.reverse, []⟩ := by
  rw [seekToLast]
  cases c.contents.reverse <;> rfl

theorem next_contents (c : Cursor α) : c.next.contents = c.contents := by
  obtain ⟨left, right⟩ := c
  cases right with
  | nil => rfl
  | cons x right => simp [next]

theorem prev_contents (c : Cursor α) : c.prev.contents = c.contents := by
  obtain ⟨left, right⟩ := c
  cases left with
  | nil => simp [prev]
  | cons x left => simp [prev]

/-- Going back and then forward again; before the first entry the way forward is
    `seekToFirst`. -/
theorem next_or_first_prev (left right : List α) :
    (if (prev ⟨left, right⟩).valid = true then (prev ⟨left, right⟩).next
      else (prev ⟨left, right⟩).seekToFirst) = ⟨left, right⟩ := by
  cases left with
  | nil => simp [prev, valid, seekToFirst]
  | cons x left => rfl

theorem seekToLast_contents (c : Cursor α) : c.seekToLast.contents = c.contents := by
  rw [seekToLast_eq, atIndex_contents]

/-- The cursor seen from the other end. -/
def flip : Cursor α → Cursor α
  | ⟨left, []⟩ => ⟨left.reverse, []⟩
  | ⟨left, x :: right⟩ => ⟨right, x :: left⟩

@[simp] theorem flip_flip (c : Cursor α) : c.flip.flip = c := by
  obtain ⟨left, _ | ⟨x, right⟩⟩ := c <;> simp [flip]

@[simp] theorem flip_contents (c : Cursor α) : c.flip.contents = c.contents.reverse := by
  obtain ⟨left, _ | ⟨x, right⟩⟩ := c <;> simp [flip]

@[simp] theorem flip_valid (c : Cursor α) : c.flip.valid = c.valid := by
  obtain ⟨left, _ | ⟨x, right⟩⟩ := c <;> rfl

@[simp] theorem flip_current (c : Cursor α) : c.flip.current = c.current := by
  obtain ⟨left, _ | ⟨x, right⟩⟩ := c <;> rfl

/-- Going back is going forward from the other end. -/
theorem flip_prev {c : Cursor α} (h : c.valid = true) : c.flip.prev = c.next.flip := by
  obtain ⟨left, _ | ⟨x, _ | ⟨y, right⟩⟩⟩ := c
  · cases h
  · rfl
  · rfl

theorem flip_seekToLast (c : Cursor α) : c.flip.seekToLast = c.seekToFirst.flip := by
  rw [seekToLast, flip_contents, List.reverse_reverse, seekToFirst]
  cases c.contents <;> rfl

end Cursor

/-! ## Iterators -/

/-- The calls of an iterator class over entries with keys `K` and values `V`, on
    states `σ`; `S` is the type of its status. -/
structure IteratorOps (σ K V S : Type) where
  valid : σ → Bool
  key : σ → K
  value : σ → V
  status : σ → S
  seekToFirst : σ → σ
  seekToLast : σ → σ
  seek : K → σ → σ
  next : σ → σ
  prev : σ → σ

section Refines

variable {σ K V S : Type}

/-- **The iterator behaves as a cursor as far as it moves forward**: `R` relates its
    states to positions, and `SeekToFirst` and `Next` do to the position what they
    do to a cursor.  `Next` is for states that stand on an entry. -/
structure Forward (I : IteratorOps σ K V S) (ok : S) (R : σ → Cursor (K × V) → Prop) : Prop where
  valid : ∀ {s c}, R s c → I.valid s = c.valid
  current : ∀ {s c k v}, R s c → c.current = some (k, v) → I.key s = k ∧ I.value s = v
  status : ∀ {s c}, R s c → I.status s = ok
  seekToFirst : ∀ {s c}, R s c → R (I.seekToFirst s) c.seekToFirst
  next : ∀ {s c}, R s c → c.valid = true → R (I.next s) c.next

/-- **The iterator behaves as a cursor**, under every call. -/
structure Refines (I : IteratorOps σ K V S) (lt : K → K → Bool) (ok : S)
    (R : σ → Cursor (K × V) → Prop) : Prop extends Forward I ok R where
  seekToLast : ∀ {s c}, R s c → R (I.seekToLast s) c.seekToLast
  seek : ∀ {s c}, R s c → ∀ t, R (I.seek t s) (c.seek fun e => lt e.1 t)
  prev : ∀ {s c}, R s c → c.valid = true → R (I.prev s) c.prev

/-- What a caller sees that moves forward until the iterator stands nowhere, with
    a good status in the end. -/
def Yields (I : IteratorOps σ K V S) (ok : S) : σ → List (K × V) → Prop
  | s, [] => I.valid s = false ∧ I.status s = ok
  | s, p :: rest => I.valid s = true ∧ (I.key s, I.value s) = p ∧ Yields I ok (I.next s) rest

variable {ok : S} {lt : K → K → Bool}

variable {I : IteratorOps σ K V S}

/-- A caller sees one list only. -/
theorem Yields.unique (es : List (K × V)) :
    ∀ {s : σ} {es' : List (K × V)}, Yields I ok s es → Yields I ok s es' → es = es' := by
  induction es with
  | nil =>
    intro s es' h h'
    cases es' with
    | nil => rfl
    | cons p rest => exact absurd (h.1.symm.trans h'.1) Bool.false_ne_true
  | cons p es ih =>
    intro s es' h h'
    cases es' with
    | nil => exact absurd (h'.1.symm.trans h.1) Bool.false_ne_true
    | cons p' es' => rw [← h.2.1, ← h'.2.1, ih h.2.2 h'.2.2]

variable {R : σ → Cursor (K × V) → Prop}

/-- Moving forward shows what lies ahead of the position. -/
theorem Forward.yields_right (h : Forward I ok R) (right : List (K × V)) :
    ∀ {s : σ} {left : List (K × V)}, R s ⟨left, right⟩ → Yields I ok s right := by
  induction right with
  | nil =>
    intro s left hr
    exact ⟨h.valid hr, h.status hr⟩
  | cons p rest ih =>
    intro s left hr
    obtain ⟨hk, hv⟩ := h.current (k := p.1) (v := p.2) hr rfl
    refine ⟨h.valid hr, ?_, ih (h.next hr rfl)⟩
    rw [hk, hv]

variable {c : Cursor (K × V)}

/-- **`SeekToFirst` and then forward** shows everything. -/
theorem Forward.yields (h : Forward I ok R) {s : σ} (hr : R s c) :
    Yields I ok (I.seekToFirst s) c.contents :=
  h.yields_right c.contents (h.seekToFirst hr)

/-! ## Sequences of calls -/

/-- A call on an iterator. -/
inductive Call (K : Type) where
  | seekToFirst
  | seekToLast
  | seek (target : K)
  | next
  | prev
  deriving DecidableEq

/-- `Next` and `Prev` are for iterators that stand on an entry. -/
def Call.Allowed (valid : Bool) : Call K → Prop
  | .next | .prev => valid = true
  | _ => True

/-- What a call does to an iterator. -/
def IteratorOps.call (I : IteratorOps σ K V S) : Call K → σ → σ
  | .seekToFirst => I.seekToFirst
  | .seekToLast => I.seekToLast
  | .seek target => I.seek target
  | .next => I.next
  | .prev => I.prev

/-- What a call does to a cursor over entries in the order of `lt`. -/
def Cursor.call (lt : K → K → Bool) : Call K → Cursor (K × V) → Cursor (K × V)
  | .seekToFirst => Cursor.seekToFirst
  | .seekToLast => Cursor.seekToLast
  | .seek target => Cursor.seek fun e => lt e.1 target
  | .next => Cursor.next
  | .prev => Cursor.prev

/-- The iterator shows where the cursor stands. -/
structure Shows (I : IteratorOps σ K V S) (ok : S) (s : σ) (c : Cursor (K × V)) : Prop where
  valid : I.valid s = c.valid
  current : ∀ k v, c.current = some (k, v) → I.key s = k ∧ I.value s = v
  status : I.status s = ok

/-- Before and after every call of the list the iterator shows where a cursor
    stands that the same calls are made on, as long as the calls are allowed. -/
def Follows (I : IteratorOps σ K V S) (lt : K → K → Bool) (ok : S) :
    List (Call K) → σ → Cursor (K × V) → Prop
  | [], s, c => Shows I ok s c
  | a :: rest, s, c => Shows I ok s c
      ∧ (a.Allowed (I.valid s) → Follows I lt ok rest (I.call a s) (c.call lt a))

theorem Forward.shows (h : Forward I ok R) {s : σ} (hr : R s c) :
    Shows I ok s c :=
  ⟨h.valid hr, fun _ _ hcur => h.current hr hcur, h.status hr⟩

theorem Refines.call (h : Refines I lt ok R) {s : σ} (hr : R s c) {a : Call K}
    (ha : a.Allowed (I.valid s)) : R (I.call a s) (c.call lt a) := by
  cases a with
  | seekToFirst => exact h.seekToFirst hr
  | seekToLast => exact h.seekToLast hr
  | seek target => exact h.seek hr target
  | next => exact h.next hr ((h.valid hr).symm.trans ha)
  | prev => exact h.prev hr ((h.valid hr).symm.trans ha)

/-- **An iterator that behaves as a cursor follows it through every sequence of
    calls.** -/
theorem Refines.follows (h : Refines I lt ok R) (calls : List (Call K)) :
    ∀ {s : σ} {c : Cursor (K × V)}, R s c → Follows I lt ok calls s c := by
  induction calls with
  | nil => intro s c hr; exact h.shows hr
  | cons a rest ih => intro s c hr; exact ⟨h.shows hr, fun ha => ih (h.call hr ha)⟩

/-! ## Moving backwards -/

/-- The iterator with its directions exchanged: moving forward with it is moving
    backwards with `I`. -/
def IteratorOps.reversed (I : IteratorOps σ K V S) : IteratorOps σ K V S :=
  { I with
    seekToFirst := I.seekToLast
    seekToLast := I.seekToFirst
    next := I.prev
    prev := I.next }

/-- **An iterator that follows a cursor shows, moving backwards, what lies before
    the cursor.** -/
theorem yields_reversed_of_follows (left : List (K × V)) :
    ∀ {s : σ} {right : List (K × V)},
      (∀ calls, Follows I lt ok calls s (Cursor.prev ⟨left, right⟩)) →
      Yields I.reversed ok s left := by
  induction left with
  | nil =>
    intro s right h
    exact ⟨(h []).valid, (h []).status⟩
  | cons p left ih =>
    intro s right h
    have hv : I.valid s = true := (h []).valid
    obtain ⟨hk, hval⟩ := (h []).current p.1 p.2 rfl
    refine ⟨hv, ?_, ih fun calls => (h (.prev :: calls)).2 hv⟩
    show (I.key s, I.value s) = p
    rw [hk, hval]

/-- Seen from the other end, an iterator that behaves as a cursor does so moving
    forward. -/
theorem Refines.reversed (h : Refines I lt ok R) :
    Forward I.reversed ok fun s c => R s c.flip where
  valid hr := (h.valid hr).trans (Cursor.flip_valid _)
  current hr hcur := h.current hr ((Cursor.flip_current _).trans hcur)
  status hr := h.status hr
  seekToFirst hr := Cursor.flip_seekToLast _ ▸ h.seekToLast hr
  next hr hv := Cursor.flip_prev hv ▸ h.prev hr ((Cursor.flip_valid _).trans hv)

/-! ## The list an iterator moves over -/

/-- No call changes the list. -/
theorem Forward.over (h : Forward I ok R) (es : List (K × V)) :
    Forward I ok fun s c => R s c ∧ c.contents = es where
  valid hr := h.valid hr.1
  current hr hcur := h.current hr.1 hcur
  status hr := h.status hr.1
  seekToFirst hr := ⟨h.seekToFirst hr.1, hr.2⟩
  next hr hv := ⟨h.next hr.1 hv, (Cursor.next_contents _).trans hr.2⟩

theorem Refines.over (h : Refines I lt ok R) (es : List (K × V)) :
    Refines I lt ok fun s c => R s c ∧ c.contents = es where
  toForward := h.toForward.over es
  seekToLast hr := ⟨h.seekToLast hr.1, (Cursor.seekToLast_contents _).trans hr.2⟩
  seek hr t := ⟨h.seek hr.1 t, (Cursor.seek_contents _ _).trans hr.2⟩
  prev hr hv := ⟨h.prev hr.1 hv, (Cursor.prev_contents _).trans hr.2⟩

/-! ## Orders of keys -/

/-- What a comparator gives: a strict order, in which keys that are neither before
    nor behind each other have the same place. -/
structure StrictWeak (lt : K → K → Bool) : Prop where
  trans : ∀ {a b c}, lt a b = true → lt b c = true → lt a c = true
  split : ∀ {a c}, lt a c = true → ∀ b, lt a b = true ∨ lt b c = true

end Refines

/-! ## A cursor is an iterator -/

/-- The calls of a cursor; key and value are those of a valid one. -/
def Cursor.ops {K V : Type} [Inhabited K] [Inhabited V] (lt : K → K → Bool) :
    IteratorOps (Cursor (K × V)) K V Unit where
  valid := Cursor.valid
  key c := (c.current.map Prod.fst).getD default
  value c := (c.current.map Prod.snd).getD default
  status _ := ()
  seekToFirst := Cursor.seekToFirst
  seekToLast := Cursor.seekToLast
  seek target := Cursor.seek fun e => lt e.1 target
  next := Cursor.next
  prev := Cursor.prev

theorem Cursor.ops_refines {K V : Type} [Inhabited K] [Inhabited V] (lt : K → K → Bool) :
    Refines (Cursor.ops (V := V) lt) lt () fun s c => s = c where
  valid h := h ▸ rfl
  current {s c k v} h hcur := by
    subst h
    simp [Cursor.ops, hcur]
  status _ := rfl
  seekToFirst h := h ▸ rfl
  next h _ := h ▸ rfl
  seekToLast h := h ▸ rfl
  seek h t := h ▸ rfl
  prev h _ := h ▸ rfl

end Cursors
