import Mathlib.Data.List.Nodup
import LevelDB.Cursor

/-! # Two-level iterators

    `table/two_level_iterator.cc`.  An index iterator shows handles of blocks, a
    function turns a handle into an iterator over its block, and the two together
    iterate over the entries of all blocks.

    The iterators of both levels, their keys, values, handles and statuses are
    parameters.  The loops that skip blocks make one round per index entry that is
    left; `fuel` bounds their rounds. -/

namespace LdbTwoLevel

open Cursors

variable {σ τ K H V S : Type}

/-- `TwoLevelIterator`: the index iterator, the data iterator if there is one, the
    handle it was made from, and the first error of a data iterator given up. -/
structure TwoLevelIterator (σ τ H S : Type) where
  index : σ
  data : Option τ
  handle : Option H
  status : S

/-- What the two levels are made of: their calls, `block_function_`, the good
    status, and the bound of the loops. -/
structure Levels (σ τ K H V S : Type) where
  index : IteratorOps σ K H S
  data : IteratorOps τ K V S
  blockFunction : H → τ
  ok : S
  fuel : Nat

namespace TwoLevelIterator

/-- `TwoLevelIterator::TwoLevelIterator`. -/
def new (L : Levels σ τ K H V S) (index : σ) : TwoLevelIterator σ τ H S :=
  ⟨index, none, none, L.ok⟩

section Calls

variable [DecidableEq S] [DecidableEq H] (L : Levels σ τ K H V S)

/-- `Valid`. -/
def valid (t : TwoLevelIterator σ τ H S) : Bool := (t.data.map L.data.valid).getD false

/-- `status`. -/
def getStatus (t : TwoLevelIterator σ τ H S) : S :=
  if L.index.status t.index ≠ L.ok then L.index.status t.index
  else
    match t.data with
    | some d => if L.data.status d ≠ L.ok then L.data.status d else t.status
    | none => t.status

/-- `SaveError`. -/
def saveError (t : TwoLevelIterator σ τ H S) (s : S) : TwoLevelIterator σ τ H S :=
  if t.status = L.ok ∧ s ≠ L.ok then { t with status := s } else t

/-- `SetDataIterator`. -/
def setDataIterator (t : TwoLevelIterator σ τ H S) (d : Option τ) : TwoLevelIterator σ τ H S :=
  match t.data with
  | some old => { t.saveError L (L.data.status old) with data := d }
  | none => { t with data := d }

/-- `InitDataBlock`: a data iterator made from the same handle is kept. -/
def initDataBlock (t : TwoLevelIterator σ τ H S) : TwoLevelIterator σ τ H S :=
  if L.index.valid t.index = true then
    if t.data.isSome = true ∧ t.handle = some (L.index.value t.index) then t
    else
      { t.setDataIterator L (some (L.blockFunction (L.index.value t.index))) with
        handle := some (L.index.value t.index) }
  else t.setDataIterator L none

/-- A call of the data iterator, if there is one. -/
def mapData (t : TwoLevelIterator σ τ H S) (f : τ → τ) : TwoLevelIterator σ τ H S :=
  { t with data := t.data.map f }

/-- `SkipEmptyDataBlocksForward` and `SkipEmptyDataBlocksBackward`: the move of the
    index iterator, and the call on the new data iterator, are parameters. -/
def skipEmptyDataBlocks (move : σ → σ) (enter : τ → τ) :
    Nat → TwoLevelIterator σ τ H S → TwoLevelIterator σ τ H S
  | 0, t => t
  | fuel + 1, t =>
    if t.valid L = true then t
    else if L.index.valid t.index = true then
      skipEmptyDataBlocks move enter fuel
        ((initDataBlock L { t with index := move t.index }).mapData enter)
    else t.setDataIterator L none

/-- `SkipEmptyDataBlocksForward`. -/
def skipForward (t : TwoLevelIterator σ τ H S) : TwoLevelIterator σ τ H S :=
  t.skipEmptyDataBlocks L L.index.next L.data.seekToFirst L.fuel

/-- `SkipEmptyDataBlocksBackward`. -/
def skipBackward (t : TwoLevelIterator σ τ H S) : TwoLevelIterator σ τ H S :=
  t.skipEmptyDataBlocks L L.index.prev L.data.seekToLast L.fuel

/-- `Seek`. -/
def seek (target : K) (t : TwoLevelIterator σ τ H S) : TwoLevelIterator σ τ H S :=
  ((initDataBlock L { t with index := L.index.seek target t.index }).mapData
    (L.data.seek target)).skipForward L

/-- `SeekToFirst`. -/
def seekToFirst (t : TwoLevelIterator σ τ H S) : TwoLevelIterator σ τ H S :=
  ((initDataBlock L { t with index := L.index.seekToFirst t.index }).mapData
    L.data.seekToFirst).skipForward L

/-- `SeekToLast`. -/
def seekToLast (t : TwoLevelIterator σ τ H S) : TwoLevelIterator σ τ H S :=
  ((initDataBlock L { t with index := L.index.seekToLast t.index }).mapData
    L.data.seekToLast).skipBackward L

/-- `Next`. -/
def next (t : TwoLevelIterator σ τ H S) : TwoLevelIterator σ τ H S :=
  (t.mapData L.data.next).skipForward L

/-- `Prev`. -/
def prev (t : TwoLevelIterator σ τ H S) : TwoLevelIterator σ τ H S :=
  (t.mapData L.data.prev).skipBackward L

/-- The calls of the iterator; key and value are those of a valid one. -/
def ops [Inhabited K] [Inhabited V] : IteratorOps (TwoLevelIterator σ τ H S) K V S where
  valid := valid L
  key t := (t.data.map L.data.key).getD default
  value t := (t.data.map L.data.value).getD default
  status := getStatus L
  seekToFirst := seekToFirst L
  seekToLast := seekToLast L
  seek := seek L
  next := next L
  prev := prev L

end Calls

end TwoLevelIterator

/-! ## Moving forward

    The index shows the handles `hs`, all distinct, and the block of a handle `h`
    holds `blocks h`. -/

section Forward

variable {L : Levels σ τ K H V S} {RI : σ → Cursor (K × H) → Prop}
variable {RD : H → τ → Cursor (K × V) → Prop} {blocks : H → List (K × V)}

/-- Each handle of the index opens a block that moves as a cursor over its
    entries. -/
structure Opens (L : Levels σ τ K H V S) (RD : H → τ → Cursor (K × V) → Prop)
    (blocks : H → List (K × V)) (hs : List (K × H)) : Prop where
  forward : ∀ p ∈ hs, Forward L.data L.ok (RD p.2)
  opens : ∀ p ∈ hs, ∃ c, RD p.2 (L.blockFunction p.2) c ∧ c.contents = blocks p.2
  nodup : (hs.map (·.2)).Nodup

/-- The iterator is in the block of `p`, at the position `c`. -/
structure Standing (L : Levels σ τ K H V S) (RI : σ → Cursor (K × H) → Prop)
    (RD : H → τ → Cursor (K × V) → Prop) (t : TwoLevelIterator σ τ H S)
    (before : List (K × H)) (p : K × H) (after : List (K × H)) (c : Cursor (K × V)) : Prop where
  index : RI t.index ⟨before, p :: after⟩
  data : ∃ d, t.data = some d ∧ RD p.2 d c
  handle : t.handle = some p.2
  status : t.status = L.ok

/-- The iterator is behind the last block. -/
structure Finished (L : Levels σ τ K H V S) (RI : σ → Cursor (K × H) → Prop)
    (t : TwoLevelIterator σ τ H S) : Prop where
  index : ∃ left, RI t.index ⟨left, []⟩
  data : t.data = none
  status : t.status = L.ok

/-- The entries in the blocks of some handles. -/
def entriesIn (blocks : H → List (K × V)) (hs : List (K × H)) : List (K × V) :=
  hs.flatMap fun p => blocks p.2

/-- The iterator stands on the first of the entries `es`, and on none if there are
    none. -/
def Shows (L : Levels σ τ K H V S) (RI : σ → Cursor (K × H) → Prop)
    (RD : H → τ → Cursor (K × V) → Prop) (blocks : H → List (K × V)) (hs : List (K × H))
    (t : TwoLevelIterator σ τ H S) (es : List (K × V)) : Prop :=
  (∃ before p after c, Standing L RI RD t before p after c ∧ before.reverse ++ p :: after = hs
      ∧ c.valid = true ∧ es = c.right ++ entriesIn blocks after)
    ∨ (Finished L RI t ∧ es = [])

namespace TwoLevelIterator

variable {hs : List (K × H)} {t : TwoLevelIterator σ τ H S}
variable {before after : List (K × H)} {p : K × H} {c : Cursor (K × V)}

theorem valid_none (h : t.data = none) : ¬(t.valid L = true) := by
  rw [valid, h]
  exact Bool.false_ne_true

theorem Standing.valid (hopens : Opens L RD blocks hs) (hp : p ∈ hs)
    (h : Standing L RI RD t before p after c) : t.valid L = c.valid := by
  obtain ⟨d, hdata, hd⟩ := h.data
  rw [TwoLevelIterator.valid, hdata]
  exact (hopens.forward p hp).valid hd

theorem Standing.data_status (hopens : Opens L RD blocks hs) (hp : p ∈ hs)
    (h : Standing L RI RD t before p after c) :
    ∀ d, t.data = some d → L.data.status d = L.ok := by
  intro d hdata
  obtain ⟨d', hdata', hd'⟩ := h.data
  rw [hdata] at hdata'
  cases hdata'
  exact (hopens.forward p hp).status hd'

/-- The handle after the one the iterator is at is another one. -/
theorem Standing.handle_ne (hopens : Opens L RD blocks hs) {q : K × H}
    (h : Standing L RI RD t before p (q :: after) c)
    (hhs : before.reverse ++ p :: q :: after = hs) : t.handle ≠ some q.2 := by
  rw [h.handle]
  intro heq
  have hnodup := hopens.nodup
  rw [← hhs, List.map_append, List.nodup_append] at hnodup
  have hcons := hnodup.2.1
  rw [List.map_cons, List.map_cons, List.nodup_cons, Option.some.inj heq] at hcons
  exact hcons.1 (List.mem_cons_self ..)

theorem Standing.mapData (h : Standing L RI RD t before p after c) {f : τ → τ}
    {c' : Cursor (K × V)} (hf : ∀ {d}, RD p.2 d c → RD p.2 (f d) c') :
    Standing L RI RD (t.mapData f) before p after c' := by
  obtain ⟨d, hdata, hd⟩ := h.data
  exact ⟨h.index, ⟨f d, by rw [TwoLevelIterator.mapData, hdata]; rfl, hf hd⟩, h.handle, h.status⟩

section

variable [DecidableEq S]

theorem setDataIterator_data (t : TwoLevelIterator σ τ H S) (d : Option τ) :
    (t.setDataIterator L d).data = d := by
  rw [setDataIterator]
  cases t.data <;> rfl

theorem setDataIterator_eq (hd : ∀ d, t.data = some d → L.data.status d = L.ok) (d : Option τ) :
    t.setDataIterator L d = { t with data := d } := by
  rw [setDataIterator]
  cases hdata : t.data with
  | none => rfl
  | some old =>
    simp only
    rw [saveError, if_neg (fun hne => hne.2 (hd old hdata))]

variable [DecidableEq H]

/-- Every data iterator that skipping forward leaves behind has been put on the first
    entry of its block, if the one before was. -/
theorem skip_data (fuel : Nat) :
    ∀ {t : TwoLevelIterator σ τ H S},
      (∀ d, t.data = some d → ∃ a, d = L.data.seekToFirst a) →
      ∀ d, (t.skipEmptyDataBlocks L L.index.next L.data.seekToFirst fuel).data = some d →
        ∃ a, d = L.data.seekToFirst a := by
  induction fuel with
  | zero => intro t h; exact h
  | succ fuel ih =>
    intro t h d hd
    rw [skipEmptyDataBlocks] at hd
    split_ifs at hd
    · exact h d hd
    · refine ih (fun d' hd' => ?_) d hd
      rw [mapData, Option.map_eq_some_iff] at hd'
      obtain ⟨a, -, ha⟩ := hd'
      exact ⟨a, ha.symm⟩
    · rw [setDataIterator_data] at hd
      cases hd

theorem seekToFirst_data (t : TwoLevelIterator σ τ H S) :
    ∀ d, (t.seekToFirst L).data = some d → ∃ a, d = L.data.seekToFirst a := by
  refine skip_data L.fuel fun d hd => ?_
  rw [mapData, Option.map_eq_some_iff] at hd
  obtain ⟨a, -, ha⟩ := hd
  exact ⟨a, ha.symm⟩

section

variable (hopens : Opens L RD blocks hs) (hI : Forward L.index L.ok RI)
include hopens hI

/-- Entering the block the index iterator stands on; a data iterator made from the same
    handle is kept. -/
theorem enter_block (hindex : RI t.index ⟨before, p :: after⟩) (hp : p ∈ hs)
    (hstatus : t.status = L.ok) (hd : ∀ d, t.data = some d → L.data.status d = L.ok)
    (hkept : ∀ d, t.data = some d → t.handle = some p.2 →
      ∃ c, RD p.2 d c ∧ c.contents = blocks p.2) :
    ∃ c, Standing L RI RD (initDataBlock L t) before p after c ∧ c.contents = blocks p.2 := by
  have hvalid : L.index.valid t.index = true := hI.valid hindex
  obtain ⟨-, hvalue⟩ := hI.current (k := p.1) (v := p.2) hindex rfl
  rw [initDataBlock, if_pos hvalid, hvalue]
  split_ifs with hsame
  · obtain ⟨d, hdata⟩ := Option.isSome_iff_exists.mp hsame.1
    obtain ⟨c, hc, hcontents⟩ := hkept d hdata hsame.2
    exact ⟨c, ⟨hindex, ⟨d, hdata, hc⟩, hsame.2, hstatus⟩, hcontents⟩
  · obtain ⟨c, hc, hcontents⟩ := hopens.opens p hp
    rw [setDataIterator_eq hd]
    exact ⟨c, ⟨hindex, ⟨_, rfl, hc⟩, rfl, hstatus⟩, hcontents⟩

omit hopens hI in
/-- Behind the last handle there is no block to enter. -/
theorem enter_none (hI : Forward L.index L.ok RI) {left : List (K × H)}
    (hindex : RI t.index ⟨left, []⟩) (hstatus : t.status = L.ok)
    (hd : ∀ d, t.data = some d → L.data.status d = L.ok) (f : τ → τ) :
    Finished L RI ((initDataBlock L t).mapData f) := by
  have hvalid : L.index.valid t.index = false := hI.valid hindex
  rw [initDataBlock, if_neg (ne_true_of_eq_false hvalid), setDataIterator_eq hd]
  exact ⟨⟨left, hindex⟩, rfl, hstatus⟩

omit hopens hI in
/-- A finished iterator stays finished. -/
theorem skip_finished (hI : Forward L.index L.ok RI) (h : Finished L RI t) (fuel : Nat) :
    Finished L RI (t.skipEmptyDataBlocks L L.index.next L.data.seekToFirst fuel) := by
  cases fuel with
  | zero => exact h
  | succ fuel =>
    obtain ⟨left, hleft⟩ := h.index
    have hvalid : L.index.valid t.index = false := hI.valid hleft
    rw [skipEmptyDataBlocks, if_neg (valid_none h.data),
      if_neg (ne_true_of_eq_false hvalid),
      setDataIterator_eq (fun d hd => by rw [h.data] at hd; cases hd)]
    exact ⟨⟨left, hleft⟩, rfl, h.status⟩

omit hopens hI in
/-- A block that has entries left is not skipped. -/
theorem skip_standing (hopens : Opens L RD blocks hs) (hp : p ∈ hs)
    (h : Standing L RI RD t before p after c) (hv : c.valid = true) (fuel : Nat) :
    t.skipEmptyDataBlocks L L.index.next L.data.seekToFirst (fuel + 1) = t := by
  rw [skipEmptyDataBlocks, if_pos ((Standing.valid hopens hp h).trans hv)]

/-- A block without entries left is. -/
theorem skip_exhausted (hp : p ∈ hs) (h : Standing L RI RD t before p after c)
    (hv : c.valid = false) (fuel : Nat) :
    t.skipEmptyDataBlocks L L.index.next L.data.seekToFirst (fuel + 1)
      = ((initDataBlock L { t with index := L.index.next t.index }).mapData
          L.data.seekToFirst).skipEmptyDataBlocks L L.index.next L.data.seekToFirst fuel := by
  have hvalid : L.index.valid t.index = true := hI.valid h.index
  rw [skipEmptyDataBlocks,
    if_neg (ne_true_of_eq_false ((Standing.valid hopens hp h).trans hv)), if_pos hvalid]

/-- **Skipping empty blocks loses nothing.** -/
theorem skip_shows (fuel : Nat) :
    ∀ {t : TwoLevelIterator σ τ H S} {before after : List (K × H)} {p : K × H}
      {c : Cursor (K × V)}, Standing L RI RD t before p after c →
      before.reverse ++ p :: after = hs → after.length + 1 ≤ fuel →
      Shows L RI RD blocks hs
        (t.skipEmptyDataBlocks L L.index.next L.data.seekToFirst fuel)
        (c.right ++ entriesIn blocks after) := by
  induction fuel with
  | zero =>
    intro t before after p c _ _ hfuel
    omega
  | succ fuel ih =>
    intro t before after p c h hhs hfuel
    have hp : p ∈ hs := hhs ▸ List.mem_append_cons_self
    cases hv : c.valid with
    | true =>
      rw [skip_standing hopens hp h hv]
      exact Or.inl ⟨before, p, after, c, h, hhs, hv, rfl⟩
    | false =>
      rw [skip_exhausted hopens hI hp h hv, Cursor.right_of_not_valid hv]
      have hd := Standing.data_status hopens hp h
      cases after with
      | nil =>
        have hdone := enter_none (t := { t with index := L.index.next t.index }) hI
          (hI.next h.index rfl) h.status hd L.data.seekToFirst
        exact Or.inr ⟨skip_finished hI hdone fuel, rfl⟩
      | cons q after =>
        have hhs' : (p :: before).reverse ++ q :: after = hs := by
          rw [← hhs, List.reverse_cons, List.append_assoc]
          rfl
        have hq : q ∈ hs := hhs' ▸ List.mem_append_cons_self
        have hne := Standing.handle_ne hopens h hhs
        obtain ⟨c', hc', hcontents⟩ :=
          enter_block (t := { t with index := L.index.next t.index }) hopens hI
            (hI.next h.index rfl) hq h.status hd (fun d _ heq => absurd heq hne)
        rw [List.nil_append, entriesIn, List.flatMap_cons, ← hcontents]
        exact ih (Standing.mapData hc' (hopens.forward q hq).seekToFirst) hhs'
          (Nat.le_of_succ_le_succ hfuel)

/-- `Next` stands on the next of the entries. -/
theorem next_shows (hfuel : hs.length ≤ L.fuel) {e : K × V} {es : List (K × V)}
    (h : Shows L RI RD blocks hs t (e :: es)) : Shows L RI RD blocks hs (t.next L) es := by
  rcases h with ⟨before, p, after, c, hst, hhs, hv, hes⟩ | ⟨-, hes⟩
  · have hp : p ∈ hs := hhs ▸ List.mem_append_cons_self
    have hst' := Standing.mapData hst fun hd => (hopens.forward p hp).next hd hv
    have hright : es = c.next.right ++ entriesIn blocks after := by
      rcases c with ⟨left, _ | ⟨x, right⟩⟩
      · cases hv
      · exact (List.cons.inj hes).2
    have hlen : after.length + 1 ≤ L.fuel := by
      rw [← hhs, List.length_append, List.length_cons] at hfuel
      omega
    rw [hright]
    exact skip_shows hopens hI L.fuel hst' hhs hlen
  · cases hes

end

end

end TwoLevelIterator

/-! ## Positions in all entries -/

/-- The relations only hold of positions in the handles and in the entries of a block,
    and the loops have rounds for all handles. -/
structure Over (L : Levels σ τ K H V S) (RI : σ → Cursor (K × H) → Prop)
    (RD : H → τ → Cursor (K × V) → Prop) (blocks : H → List (K × V)) (hs : List (K × H)) :
    Prop extends Opens L RD blocks hs where
  index : Forward L.index L.ok RI
  handles : ∀ {s i}, RI s i → i.contents = hs
  entries : ∀ {p d c}, RD p d c → c.contents = blocks p
  fuel : hs.length ≤ L.fuel

/-- **The iterator is at a position in all entries**; one that stands nowhere may have its
    index iterator anywhere. -/
def At (L : Levels σ τ K H V S) (RI : σ → Cursor (K × H) → Prop)
    (RD : H → τ → Cursor (K × V) → Prop) (blocks : H → List (K × V)) (hs : List (K × H))
    (t : TwoLevelIterator σ τ H S) (c : Cursor (K × V)) : Prop :=
  c.contents = entriesIn blocks hs
    ∧ (Shows L RI RD blocks hs t c.right
      ∨ (c.right = [] ∧ (∃ i, RI t.index i) ∧ t.data = none ∧ t.status = L.ok))

theorem Opens.over {hs : List (K × H)} (hopens : Opens L RD blocks hs)
    (hI : Forward L.index L.ok RI) (hfuel : hs.length ≤ L.fuel) :
    Over L (fun s i => RI s i ∧ i.contents = hs) (fun p d c => RD p d c ∧ c.contents = blocks p)
      blocks hs where
  forward p hp := (hopens.forward p hp).over _
  opens p hp := by
    obtain ⟨c, hc, hcontents⟩ := hopens.opens p hp
    exact ⟨c, ⟨hc, hcontents⟩, hcontents⟩
  nodup := hopens.nodup
  index := hI.over hs
  handles h := h.2
  entries h := h.2
  fuel := hfuel

namespace TwoLevelIterator

variable {hs : List (K × H)} {t : TwoLevelIterator σ τ H S} {c : Cursor (K × V)}

/-- What a call finds that moves the index iterator. -/
theorem ready_of_at (hat : At L RI RD blocks hs t c) :
    (∃ i, RI t.index i) ∧ t.status = L.ok ∧ ∀ d, t.data = some d →
      ∃ p ∈ hs, t.handle = some p.2 ∧ ∃ c', RD p.2 d c' := by
  rcases hat.2 with (⟨before, p, after, c', hst, hhs, -, -⟩ | ⟨hdone, -⟩) | ⟨-, hi, hnone, hok⟩
  · refine ⟨⟨_, hst.index⟩, hst.status, fun d hd => ?_⟩
    obtain ⟨d', hdata, hd'⟩ := hst.data
    obtain rfl : d' = d := Option.some.inj (hdata.symm.trans hd)
    exact ⟨p, hhs ▸ List.mem_append_cons_self, hst.handle, c', hd'⟩
  · obtain ⟨left, hleft⟩ := hdone.index
    exact ⟨⟨_, hleft⟩, hdone.status, fun d hd => by rw [hdone.data] at hd; cases hd⟩
  · exact ⟨hi, hok, fun d hd => by rw [hnone] at hd; cases hd⟩

variable {i : Cursor (K × H)}

/-- A new iterator stands nowhere. -/
theorem at_new {index : σ} (hindex : RI index i) :
    At L RI RD blocks hs (new L index) ⟨(entriesIn blocks hs).reverse, []⟩ :=
  ⟨by simp, Or.inr ⟨rfl, ⟨i, hindex⟩, rfl, rfl⟩⟩

variable [DecidableEq S] [DecidableEq H]

/-- **A call that moves the index iterator, then the data iterator**, shows what the data
    iterator has ahead in its block, and the later blocks. -/
theorem reset_shows (h : Over L RI RD blocks hs) (hat : At L RI RD blocks hs t c) {index : σ}
    (hindex : RI index i) {f : τ → τ} {g : Cursor (K × V) → Cursor (K × V)}
    (hf : ∀ p ∈ hs, ∀ {d c}, RD p.2 d c → RD p.2 (f d) (g c)) {r : List (K × V) → List (K × V)}
    (hr : ∀ c, (g c).right = r c.contents) :
    Shows L RI RD blocks hs (((initDataBlock L { t with index := index }).mapData f).skipForward L)
      (match i.right with
        | [] => []
        | p :: after => r (blocks p.2) ++ entriesIn blocks after) := by
  obtain ⟨-, hstatus, hdata⟩ := ready_of_at hat
  have hd : ∀ d, t.data = some d → L.data.status d = L.ok := by
    intro d hd
    obtain ⟨p, hp, -, c', hc'⟩ := hdata d hd
    exact (h.forward p hp).status hc'
  have hhs := h.handles hindex
  obtain ⟨left, _ | ⟨p, after⟩⟩ := i
  · have hdone := enter_none (t := { t with index := index }) h.index hindex hstatus hd f
    exact Or.inr ⟨skip_finished h.index hdone L.fuel, rfl⟩
  · have hp : p ∈ hs := hhs ▸ List.mem_append_cons_self
    obtain ⟨c', hst, hcontents⟩ :=
      enter_block (t := { t with index := index }) h.toOpens h.index hindex hp hstatus hd
        (fun d hd heq => by
          obtain ⟨q, -, hq, c', hc'⟩ := hdata d hd
          rw [Option.some.inj (hq.symm.trans heq)] at hc'
          exact ⟨c', hc', h.entries hc'⟩)
    have hfuel : after.length + 1 ≤ L.fuel := by
      have hlen := h.fuel
      rw [← hhs, Cursor.contents, List.length_append, List.length_cons] at hlen
      omega
    have hshows := skip_shows h.toOpens h.index L.fuel (Standing.mapData hst (hf p hp)) hhs hfuel
    rw [hr, hcontents] at hshows
    exact hshows

variable [Inhabited K] [Inhabited V]

/-- **Moving forward**, the iterator behaves as a cursor over all entries. -/
theorem forward_at (h : Over L RI RD blocks hs) :
    Forward (ops L) L.ok (At L RI RD blocks hs) where
  valid {t c} hat := by
    show t.valid L = c.valid
    rcases hat.2 with (⟨before, p, after, d, hst, hhs, hv, hes⟩ | ⟨hdone, hes⟩) | ⟨hes, -, hnone, -⟩
    · have hp : p ∈ hs := hhs ▸ List.mem_append_cons_self
      obtain ⟨left, _ | ⟨x, right⟩⟩ := d
      · cases hv
      · rw [Standing.valid h.toOpens hp hst, Cursor.valid, Cursor.valid, hes]
        rfl
    · rw [Cursor.valid, hes, valid, hdone.data]
      rfl
    · rw [Cursor.valid, hes, valid, hnone]
      rfl
  current {t c k v} hat hcur := by
    rcases hat.2 with (⟨before, p, after, d, hst, hhs, hv, hes⟩ | ⟨-, hes⟩) | ⟨hes, -⟩
    · have hp : p ∈ hs := hhs ▸ List.mem_append_cons_self
      obtain ⟨x, hdata, hx⟩ := hst.data
      have hd : d.current = some (k, v) := by
        obtain ⟨left, _ | ⟨y, right⟩⟩ := d
        · cases hv
        · rw [Cursor.current, hes] at hcur
          exact hcur
      obtain ⟨hk, hval⟩ := (h.forward p hp).current hx hd
      simp only [ops, hdata, Option.map_some, Option.getD_some]
      exact ⟨hk, hval⟩
    · rw [Cursor.current, hes] at hcur
      cases hcur
    · rw [Cursor.current, hes] at hcur
      cases hcur
  status {t c} hat := by
    obtain ⟨⟨i, hi⟩, hstatus, hdata⟩ := ready_of_at hat
    show t.getStatus L = L.ok
    rw [getStatus, if_neg (fun hne => hne (h.index.status hi))]
    cases hd : t.data with
    | none => exact hstatus
    | some d =>
      obtain ⟨p, hp, -, c', hc'⟩ := hdata d hd
      exact (if_neg fun hne => hne ((h.forward p hp).status hc')).trans hstatus
  seekToFirst {t c} hat := by
    obtain ⟨⟨i, hi⟩, -, -⟩ := ready_of_at hat
    have hshows := reset_shows h hat (h.index.seekToFirst hi) (g := Cursor.seekToFirst) (r := id)
      (fun p hp {d c} hd => (h.forward p hp).seekToFirst hd) (fun _ => rfl)
    refine ⟨hat.1, Or.inl ?_⟩
    rw [Cursor.seekToFirst_right, hat.1]
    rw [Cursor.seekToFirst_right, h.handles hi] at hshows
    cases hs <;> exact hshows
  next {t c} hat hv := by
    refine ⟨(Cursor.next_contents c).trans hat.1, Or.inl ?_⟩
    obtain ⟨left, _ | ⟨e, right⟩⟩ := c
    · cases hv
    · rcases hat.2 with hshows | ⟨hnil, -⟩
      · exact next_shows h.toOpens h.index h.fuel hshows
      · cases hnil

/-- **A two-level iterator shows the entries of all blocks, block by block.** -/
theorem twoLevel_yields (hopens : Opens L RD blocks hs) (hI : Forward L.index L.ok RI)
    {index : σ} (hindex : RI index i) (hi : i.contents = hs)
    (hfuel : hs.length ≤ L.fuel) :
    Yields (ops L) L.ok ((ops L).seekToFirst (new L index)) (entriesIn blocks hs) := by
  have hyields := (forward_at (hopens.over hI hfuel)).yields (at_new ⟨hindex, hi⟩)
  rw [Cursor.contents_mk, List.reverse_reverse, List.append_nil] at hyields
  exact hyields

/-! ## All calls

    Moving backwards is moving forward with the directions of both levels exchanged. -/

end TwoLevelIterator

/-- Both levels with their directions exchanged. -/
def Levels.reversed (L : Levels σ τ K H V S) : Levels σ τ K H V S :=
  { L with index := L.index.reversed, data := L.data.reversed }

theorem entriesIn_reverse (blocks : H → List (K × V)) (hs : List (K × H)) :
    entriesIn (fun p => (blocks p).reverse) hs.reverse = (entriesIn blocks hs).reverse := by
  rw [entriesIn, entriesIn, List.reverse_flatMap]
  rfl

variable {lt : K → K → Bool}

theorem Over.reversed {hs : List (K × H)} (h : Over L RI RD blocks hs)
    (hI : Refines L.index lt L.ok RI) (hD : ∀ p ∈ hs, Refines L.data lt L.ok (RD p.2)) :
    Over L.reversed (fun s i => RI s i.flip) (fun p d c => RD p d c.flip)
      (fun p => (blocks p).reverse) hs.reverse where
  forward p hp := (hD p (List.mem_reverse.mp hp)).reversed
  opens p hp := by
    obtain ⟨c, hc, hcontents⟩ := h.opens p (List.mem_reverse.mp hp)
    exact ⟨c.flip, (Cursor.flip_flip c).symm ▸ hc, by rw [Cursor.flip_contents, hcontents]⟩
  nodup := by
    rw [List.map_reverse, List.nodup_reverse]
    exact h.nodup
  index := hI.reversed
  handles {s i} hi := by
    rw [← h.handles hi, Cursor.flip_contents, List.reverse_reverse]
  entries {p d c} hc := by
    rw [← h.entries hc, Cursor.flip_contents, List.reverse_reverse]
  fuel := by
    rw [List.length_reverse]
    exact h.fuel

/-- The same state, seen from the other end. -/
theorem At.flip {hs : List (K × H)} {t : TwoLevelIterator σ τ H S} {c : Cursor (K × V)}
    (h : Over L RI RD blocks hs) (hat : At L RI RD blocks hs t c) :
    At L.reversed (fun s i => RI s i.flip) (fun p d c => RD p d c.flip)
      (fun p => (blocks p).reverse) hs.reverse t c.flip := by
  refine ⟨by rw [Cursor.flip_contents, hat.1, entriesIn_reverse], ?_⟩
  obtain ⟨left, right⟩ := c
  rcases hat.2 with (⟨before, p, after, d, hst, hhs, hv, hes⟩ | ⟨hdone, hes⟩) | ⟨hes, ⟨i, hi⟩, hrest⟩
  · left
    obtain ⟨x, hdata, hx⟩ := hst.data
    have hblock := h.entries hx
    obtain ⟨dl, _ | ⟨y, dr⟩⟩ := d
    · cases hv
    obtain rfl : right = y :: (dr ++ entriesIn blocks after) := hes
    refine Or.inl ⟨after, p, before, ⟨dr, y :: dl⟩, ⟨hst.index, ⟨x, hdata, hx⟩, hst.handle,
      hst.status⟩, by rw [← hhs]; simp, rfl, ?_⟩
    -- the entries before the position are those of the blocks before, and of this one
    have hall := hat.1
    have hleft : left.reverse = entriesIn blocks before.reverse ++ dl.reverse := by
      rw [← hhs] at hall
      exact List.append_cancel_right (by simpa [entriesIn, ← hblock] using hall)
    have hleft' := congrArg List.reverse hleft
    rw [List.reverse_reverse, List.reverse_append, List.reverse_reverse,
      ← entriesIn_reverse, List.reverse_reverse] at hleft'
    exact congrArg (y :: ·) hleft'
  · obtain rfl : right = [] := hes
    obtain ⟨i, hi⟩ := hdone.index
    exact Or.inl (Or.inr ⟨⟨⟨i.reverse, by simpa [Cursor.flip] using hi⟩, hdone.data, hdone.status⟩,
      rfl⟩)
  · obtain rfl : right = [] := hes
    exact Or.inr ⟨rfl, ⟨i.flip, by simpa using hi⟩, hrest⟩

/-- The index keys are in order, and separate the blocks: no key of a block is behind its
    index key, and every one is behind the index key before. -/
structure Separates (lt : K → K → Bool) (blocks : H → List (K × V)) (hs : List (K × H)) :
    Prop where
  sorted : hs.Pairwise fun p q => lt q.1 p.1 = false
  upper : ∀ p ∈ hs, ∀ e ∈ blocks p.2, lt p.1 e.1 = false
  lower : hs.IsChain fun p q => ∀ e ∈ blocks q.2, lt p.1 e.1 = true

/-- The keys of a block are behind all index keys before. -/
theorem Separates.behind (hlt : StrictWeak lt) {hs : List (K × H)}
    (h : Separates lt blocks hs) : hs.Pairwise fun p q => ∀ e ∈ blocks q.2, lt p.1 e.1 = true := by
  obtain ⟨hsorted, -, hlower⟩ := h
  induction hlower with
  | nil => exact List.Pairwise.nil
  | singleton p => exact List.pairwise_singleton _ p
  | @cons_cons p q hs hpq _ ih =>
    obtain ⟨hp, hsorted⟩ := List.pairwise_cons.mp hsorted
    have hrest := ih hsorted
    refine List.Pairwise.cons (fun r hr => ?_) hrest
    rcases List.mem_cons.mp hr with rfl | hr
    · exact hpq
    · intro e he
      rcases hlt.split ((List.pairwise_cons.mp hrest).1 r hr e he) p.1 with hqp | hpe
      · rw [hp q List.mem_cons_self] at hqp
        cases hqp
      · exact hpe

/-- **The index finds the block of a target.** -/
theorem dropWhile_entriesIn (hlt : StrictWeak lt) (target : K)
    (hs : List (K × H)) (hupper : ∀ p ∈ hs, ∀ e ∈ blocks p.2, lt p.1 e.1 = false)
    (hbehind : hs.Pairwise fun p q => ∀ e ∈ blocks q.2, lt p.1 e.1 = true) :
    (entriesIn blocks hs).dropWhile (fun e => lt e.1 target)
      = match hs.dropWhile fun p => lt p.1 target with
        | [] => []
        | p :: after =>
          (blocks p.2).dropWhile (fun e => lt e.1 target) ++ entriesIn blocks after := by
  induction hs with
  | nil => rfl
  | cons p hs ih =>
    obtain ⟨hp, hrest⟩ := List.pairwise_cons.mp hbehind
    rw [entriesIn, List.flatMap_cons]
    cases htarget : lt p.1 target with
    | true =>
      rw [List.dropWhile_cons, if_pos htarget, List.dropWhile_append_of_pos]
      · exact ih (List.forall_mem_cons.mp hupper).2 hrest
      · intro e he
        rcases hlt.split htarget e.1 with h | h
        · rw [hupper p List.mem_cons_self e he] at h
          cases h
        · exact h
    | false =>
      rw [List.dropWhile_cons, if_neg (ne_true_of_eq_false htarget)]
      have hnone : ∀ e ∈ entriesIn blocks hs, lt e.1 target = false := by
        intro e he
        obtain ⟨q, hq, heq⟩ := List.mem_flatMap.mp he
        cases h : lt e.1 target with
        | false => rfl
        | true => rw [← htarget, hlt.trans (hp q hq e heq) h]
      show (blocks p.2 ++ entriesIn blocks hs).dropWhile _
        = (blocks p.2).dropWhile _ ++ entriesIn blocks hs
      rw [List.dropWhile_append]
      split_ifs with hnil
      · rw [List.isEmpty_iff.mp hnil, List.nil_append]
        cases he : entriesIn blocks hs with
        | nil => rfl
        | cons e es =>
          exact List.dropWhile_cons_of_neg (ne_true_of_eq_false (hnone e (he ▸ List.mem_cons_self)))
      · rfl

namespace TwoLevelIterator

variable [DecidableEq S] [DecidableEq H]

theorem skipEmptyDataBlocks_reversed (move : σ → σ) (enter : τ → τ) (fuel : Nat) :
    ∀ t : TwoLevelIterator σ τ H S, t.skipEmptyDataBlocks L.reversed move enter fuel
      = t.skipEmptyDataBlocks L move enter fuel := by
  induction fuel with
  | zero => intro t; rfl
  | succ fuel ih =>
    intro t
    rw [skipEmptyDataBlocks, skipEmptyDataBlocks, ih]
    rfl

variable [Inhabited K] [Inhabited V] {hs : List (K × H)}

/-- **A two-level iterator behaves as a cursor over the entries of all blocks.** -/
theorem refines_at (hlt : StrictWeak lt) (h : Over L RI RD blocks hs)
    (hI : Refines L.index lt L.ok RI) (hD : ∀ p ∈ hs, Refines L.data lt L.ok (RD p.2))
    (hsep : Separates lt blocks hs) : Refines (ops L) lt L.ok (At L RI RD blocks hs) := by
  have hrev := forward_at (h.reversed hI hD)
  -- what is reached from the other end is reached
  have hback : ∀ {t c}, At L.reversed (fun s i => RI s i.flip) (fun p d c => RD p d c.flip)
      (fun p => (blocks p).reverse) hs.reverse t c → At L RI RD blocks hs t c.flip := by
    intro t c hat
    have hflip := At.flip (h.reversed hI hD) hat
    simp only [Cursor.flip_flip, List.reverse_reverse] at hflip
    exact hflip
  refine { forward_at h with seekToLast := ?_, seek := ?_, prev := ?_ }
  · intro t c hat
    have hlast := hback (hrev.seekToFirst (At.flip h hat))
    rw [← Cursor.flip_seekToLast, Cursor.flip_flip] at hlast
    refine Eq.mp (congrArg (At L RI RD blocks hs · _) ?_) hlast
    exact skipEmptyDataBlocks_reversed _ _ _ _
  · intro t c hat target
    obtain ⟨⟨i, hi⟩, -, -⟩ := ready_of_at hat
    have hshows := reset_shows h hat (hI.seek hi target) (f := L.data.seek target)
      (g := Cursor.seek fun e => lt e.1 target) (fun p hp {d c} hd => (hD p hp).seek hd target)
      (Cursor.seek_right _)
    refine ⟨(Cursor.seek_contents _ c).trans hat.1, Or.inl ?_⟩
    rw [Cursor.seek_right, h.handles hi] at hshows
    rw [Cursor.seek_right, hat.1, dropWhile_entriesIn hlt target hs hsep.upper (hsep.behind hlt)]
    exact hshows
  · intro t c hat hv
    have hprev := hback (hrev.next (At.flip h hat) ((Cursor.flip_valid c).trans hv))
    rw [← Cursor.flip_prev ((Cursor.flip_valid c).trans hv), Cursor.flip_flip] at hprev
    refine Eq.mp (congrArg (At L RI RD blocks hs · _) ?_) hprev
    exact skipEmptyDataBlocks_reversed _ _ _ _

/-- **A two-level iterator follows a cursor over the entries of all blocks** through every
    sequence of calls. -/
theorem twoLevel_follows {lt : K → K → Bool} (hlt : StrictWeak lt)
    (hI : Refines L.index lt L.ok RI) (hD : ∀ p ∈ hs, Refines L.data lt L.ok (RD p.2))
    (hopens : ∀ p ∈ hs, ∃ c, RD p.2 (L.blockFunction p.2) c ∧ c.contents = blocks p.2)
    (hnodup : (hs.map (·.2)).Nodup) (hsep : Separates lt blocks hs) {index : σ}
    {i : Cursor (K × H)} (hindex : RI index i) (hi : i.contents = hs)
    (hfuel : hs.length ≤ L.fuel) (calls : List (Call K)) :
    Follows (ops L) lt L.ok calls (new L index) ⟨(entriesIn blocks hs).reverse, []⟩ := by
  have hover : Over L _ _ blocks hs :=
    Opens.over ⟨fun p hp => (hD p hp).toForward, hopens, hnodup⟩ hI.toForward hfuel
  exact (refines_at hlt hover (hI.over hs) (fun p hp => (hD p hp).over _) hsep).follows calls
    (at_new ⟨hindex, hi⟩)

end TwoLevelIterator

end Forward

/-! ## An empty block between two others -/

/-- The blocks of the handles 0, 1 and 2. -/
def sampleBlocks : Nat → List (Nat × Nat)
  | 0 => [(1, 10), (2, 20)]
  | 2 => [(5, 50)]
  | _ => []

/-- Levels that are cursors themselves. -/
def sampleLevels : Levels (Cursor (Nat × Nat)) (Cursor (Nat × Nat)) Nat Nat Nat Unit where
  index := Cursor.ops fun a b => decide (a < b)
  data := Cursor.ops fun a b => decide (a < b)
  blockFunction h := ⟨[], sampleBlocks h⟩
  ok := ()
  fuel := 3

/-- The target 3 lies between the last key of its block and the index key, and the block
    behind it is empty. -/
theorem twoLevel_follows_sample :
    Follows (TwoLevelIterator.ops sampleLevels) (fun a b => decide (a < b)) ()
      [.seek 3, .prev, .prev, .seekToLast, .prev, .next]
      (TwoLevelIterator.new sampleLevels ⟨[], [(3, 0), (4, 1), (7, 2)]⟩)
      ⟨(entriesIn sampleBlocks [(3, 0), (4, 1), (7, 2)]).reverse, []⟩ := by
  have hlt : StrictWeak fun a b : Nat => decide (a < b) :=
    ⟨by simp only [decide_eq_true_eq]; omega, by simp only [decide_eq_true_eq]; omega⟩
  have hcursor := Cursor.ops_refines (V := Nat) fun a b : Nat => decide (a < b)
  exact @TwoLevelIterator.twoLevel_follows _ _ _ _ _ _ sampleLevels (fun s c => s = c)
    (fun _ s c => s = c) sampleBlocks _ _ _ _ _ _ hlt hcursor (fun _ _ => hcursor)
    (fun _ _ => ⟨_, rfl, rfl⟩) (by decide) ⟨by decide, by decide, by decide⟩ _ _ rfl rfl
    (by decide) _

end LdbTwoLevel
