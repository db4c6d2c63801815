import LevelDB.BlockLayout

/-! # A block iterator is a cursor over the entries of its block

    `Block::Iter` on a block that is laid out as some pieces.  Between two calls it
    stands on an entry, with the restart point the entry falls behind, or nowhere.
    `ParseNextKey` reads the entry behind the value; the searches and the walks
    backwards are loops of it.

    * `forward_block`: moving forward, for any comparator.
    * `refines_block`: every call, for a comparator that orders the keys. -/

namespace LdbBlock

open LdbFormat LdbCoding LdbComparator Cursors

/-- An iterator over the block. -/
structure Over (data : Slice) (restarts n : Nat) (it : BlockIter) : Prop where
  data : it.data = data
  limit : it.restarts = restarts
  number : it.numRestarts = n
  status : it.status = .ok

section Positions

variable {ps : List Piece} {restartAt : Nat → Nat} {data : Slice} {restarts n : Nat}

/-- The iterator stands on entry number `i`. -/
structure At (ps : List Piece) (restartAt : Nat → Nat) (data : Slice) (restarts n : Nat)
    (it : BlockIter) (i : Nat) : Prop extends Over data restarts n it where
  current : it.current = offsetOf ps i
  entry : ∃ p, ps[i]? = some p ∧ it.key = p.key ∧ it.value = p.value
  next : it.valueOffset + it.valueSize = offsetOf ps (i + 1)
  index : it.restartIndex < n
  low : restartAt it.restartIndex ≤ i
  high : ∀ j, it.restartIndex < j → j < n → i ≤ restartAt j

/-- The iterator stands nowhere. -/
structure Off (data : Slice) (restarts n : Nat) (it : BlockIter) : Prop
    extends Over data restarts n it where
  current : it.current = restarts

/-- `ParseNextKey` will read entry number `i`. -/
structure Ready (ps : List Piece) (restartAt : Nat → Nat) (data : Slice) (restarts n : Nat)
    (it : BlockIter) (i : Nat) : Prop extends Over data restarts n it where
  le : i ≤ ps.length
  chained : Chained it.key (ps.drop i)
  next : it.valueOffset + it.valueSize = offsetOf ps i
  index : it.restartIndex < n
  low : restartAt it.restartIndex ≤ i

/-- The position of an iterator: an entry, or behind the last one. -/
def Pos (ps : List Piece) (restartAt : Nat → Nat) (data : Slice) (restarts n : Nat)
    (it : BlockIter) (i : Nat) : Prop :=
  (i < ps.length ∧ At ps restartAt data restarts n it i)
    ∨ (i = ps.length ∧ Off data restarts n it)

variable {i : Nat} {it : BlockIter}

theorem Pos.over (h : Pos ps restartAt data restarts n it i) : Over data restarts n it := by
  rcases h with ⟨-, h⟩ | ⟨-, h⟩
  · exact h.toOver
  · exact h.toOver

/-! ## Facts about the layout -/

section

variable (h : Laid ps restartAt data restarts n)
include h

theorem Laid.length_take : (data.take restarts).length = restarts := by
  rw [h.bytes, ← h.length]

theorem Laid.restarts_le : restarts ≤ data.length := by
  have := h.length_take
  rw [List.length_take] at this
  omega

theorem Laid.offset_le (hi : i ≤ ps.length) : offsetOf ps i ≤ restarts := by
  have := offsetOf_mono hi (Nat.le_refl _)
  rw [offsetOf_length, ← h.length] at this
  omega

theorem Laid.offset_lt (hi : i < ps.length) : offsetOf ps i < restarts := by
  have := (offsetOf_lt_iff (Nat.le_of_lt hi) (Nat.le_refl _)).mpr hi
  rw [offsetOf_length, ← h.length] at this
  exact this

end

variable {j : Nat}

section

variable (h : Laid ps restartAt data restarts n)
include h

theorem Laid.restartAt_le (hj : j < n) : restartAt j ≤ ps.length := by
  rcases h.inside j hj with hlt | ⟨-, hz⟩
  · exact Nat.le_of_lt hlt
  · omega

theorem Laid.getRestartPoint (ho : Over data restarts n it) (hj : j < n) :
    it.getRestartPoint j = offsetOf ps (restartAt j) := by
  rw [BlockIter.getRestartPoint, ho.data, ho.limit]
  exact h.point j hj

/-- **An entry in its block**: `DecodeEntry` reads it, and its key and value lie where
    the iterator looks for them. -/
theorem Laid.decode {p : Piece} (hp : ps[i]? = some p) :
    ∃ rest, decodeEntry ((data.take restarts).drop (offsetOf ps i))
        = some (p.shared, p.key.length - p.shared, p.value.length, rest)
      ∧ (data.take restarts).length - rest.length + (p.key.length - p.shared) + p.value.length
          = offsetOf ps (i + 1)
      ∧ (data.drop ((data.take restarts).length - rest.length)).take (p.key.length - p.shared)
          = p.key.drop p.shared
      ∧ (data.drop ((data.take restarts).length - rest.length + (p.key.length - p.shared))).take
          p.value.length = p.value := by
  obtain ⟨hi, hget⟩ := List.getElem?_eq_some_iff.mp hp
  have hdrop : (data.take restarts).drop (offsetOf ps i)
      = encodeEntry p.shared p.key p.value ++ bytesOf (ps.drop (i + 1)) := by
    rw [h.bytes, bytesOf_drop, List.drop_eq_getElem_cons hi, hget, bytesOf_cons]
    rfl
  have hsum : offsetOf ps (i + 1) + (bytesOf (ps.drop (i + 1))).length = restarts := by
    rw [offsetOf, ← List.length_append, ← bytesOf_append, List.take_append_drop, h.length]
  have hchain := chained_drop ps i h.chained
  rw [List.drop_eq_getElem_cons hi, hget] at hchain
  have hkey : p.key.length < 2 ^ 32 := by
    have hle := key_length_le ps h.chained p (List.mem_of_getElem? hp)
    have := h.small
    have := h.restarts_le
    rw [List.length_nil, ← h.length] at hle
    omega
  have hsmall : (encodeEntry p.shared p.key p.value ++ bytesOf (ps.drop (i + 1))).length < 2 ^ 32 := by
    have := h.small
    have := h.restarts_le
    rw [← hdrop, List.length_drop, h.length_take]
    omega
  refine ⟨_, hdrop ▸ decodeEntry_encodeEntry hkey hchain.1 _ hsmall, ?_⟩
  -- what comes before the key, from the start of the block on
  have hwhole : ∃ pre, data.take restarts
      = pre ++ (p.key.drop p.shared ++ (p.value ++ bytesOf (ps.drop (i + 1)))) := by
    refine ⟨(data.take restarts).take (offsetOf ps i) ++ (putVarint32 (p.shared % 2 ^ 32)
      ++ putVarint32 ((p.key.length - p.shared) % 2 ^ 32)
      ++ putVarint32 (p.value.length % 2 ^ 32)), ?_⟩
    conv_lhs => rw [← List.take_append_drop (offsetOf ps i) (data.take restarts), hdrop]
    rw [encodeEntry]
    simp only [List.append_assoc]
  obtain ⟨pre, hpre⟩ := hwhole
  have hlen := congrArg List.length hpre
  rw [h.length_take, List.length_append] at hlen
  have hrest : (p.key.drop p.shared ++ (p.value ++ bytesOf (ps.drop (i + 1)))).length
      = p.key.length - p.shared + p.value.length + (bytesOf (ps.drop (i + 1))).length := by
    simp only [List.length_append, List.length_drop]
    omega
  have hat : (data.take restarts).length
      - (p.key.drop p.shared ++ (p.value ++ bytesOf (ps.drop (i + 1)))).length = pre.length := by
    rw [h.length_take]
    omega
  have hdata : data = pre ++ (p.key.drop p.shared ++ (p.value ++ bytesOf (ps.drop (i + 1))))
      ++ data.drop restarts := by
    conv_lhs => rw [← List.take_append_drop restarts data, hpre]
  have hklen : (p.key.drop p.shared).length = p.key.length - p.shared := List.length_drop
  rw [hat]
  refine ⟨by omega, ?_, ?_⟩
  · rw [hdata, List.append_assoc, List.drop_left, List.append_assoc, ← hklen, List.take_left]
  · rw [hdata, List.append_assoc, ← List.drop_drop, List.drop_left, List.append_assoc, ← hklen,
      List.drop_left, List.append_assoc, List.take_left]

/-! ## `ParseNextKey` -/

theorem advanceRestart_spec (ho : Over data restarts n it) (hi : i ≤ ps.length) (fuel : Nat) :
    ∀ index, index < n → restartAt index ≤ i → n ≤ index + fuel →
      it.advanceRestart (offsetOf ps i) fuel index < n
        ∧ restartAt (it.advanceRestart (offsetOf ps i) fuel index) ≤ i
        ∧ ∀ j, it.advanceRestart (offsetOf ps i) fuel index < j → j < n → i ≤ restartAt j := by
  induction fuel with
  | zero =>
    intro index hidx _ hn
    omega
  | succ fuel ih =>
    intro index hidx hlow hn
    rw [BlockIter.advanceRestart]
    by_cases hgo : index + 1 < it.numRestarts ∧ it.getRestartPoint (index + 1) < offsetOf ps i
    · rw [if_pos hgo]
      obtain ⟨hlt, hpoint⟩ := hgo
      rw [ho.number] at hlt
      rw [h.getRestartPoint ho hlt, offsetOf_lt_iff (h.restartAt_le hlt) hi] at hpoint
      exact ih (index + 1) hlt (Nat.le_of_lt hpoint) (by omega)
    · rw [if_neg hgo]
      refine ⟨hidx, hlow, fun j hj hjn => ?_⟩
      have hlt : index + 1 < n := by omega
      have hpoint : ¬ restartAt (index + 1) < i := by
        rw [← offsetOf_lt_iff (h.restartAt_le hlt) hi, ← h.getRestartPoint ho hlt]
        exact fun hp => hgo ⟨by rw [ho.number]; exact hlt, hp⟩
      rcases Nat.eq_or_lt_of_le (show index + 1 ≤ j from hj) with rfl | hlt'
      · omega
      · have := h.mono (index + 1) j hlt' hjn
        omega

/-- **`ParseNextKey` reads the next entry**, or finds that there is none. -/
theorem parseNextKey_spec (hr : Ready ps restartAt data restarts n it i) :
    it.parseNextKey.1 = decide (i < ps.length)
      ∧ Pos ps restartAt data restarts n it.parseNextKey.2 i := by
  have hoff : it.nextEntryOffset = offsetOf ps i := by
    have := h.offset_le hr.le
    have := h.restarts_le
    have := h.small
    rw [BlockIter.nextEntryOffset, hr.next, Nat.mod_eq_of_lt (by omega)]
  rw [BlockIter.parseNextKey, hoff, hr.limit, hr.data]
  rcases Nat.lt_or_ge i ps.length with hi | hge
  · have hlt := h.offset_lt hi
    obtain ⟨p, hp⟩ : ∃ p, ps[i]? = some p := ⟨_, List.getElem?_eq_getElem hi⟩
    obtain ⟨rest, hdec, hend, hkey, hvalue⟩ := h.decode hp
    have hchain := hr.chained
    rw [List.drop_eq_getElem_cons hi, List.getElem_eq_iff hi |>.mpr hp] at hchain
    have hshared : ¬ it.key.length < p.shared := by
      have hlen := congrArg List.length hchain.2.1
      have hle := hchain.1
      rw [List.length_take, List.length_take] at hlen
      omega
    simp only [if_neg (Nat.not_le_of_lt hlt), hdec, if_neg hshared]
    obtain ⟨hidx, hlow, hhigh⟩ := advanceRestart_spec h hr.toOver (Nat.le_of_lt hi) it.numRestarts
      it.restartIndex hr.index hr.low (by rw [hr.number]; omega)
    refine ⟨(decide_eq_true hi).symm, Or.inl ⟨hi, ?_⟩⟩
    refine
      { data := rfl, limit := rfl, number := hr.number, status := hr.status, current := rfl,
        entry := ⟨p, hp, ?_, hvalue⟩, next := hend, index := hidx, low := hlow, high := hhigh }
    show it.key.take p.shared ++ _ = _
    rw [hkey, hchain.2.1, List.take_append_drop]
  · have heq : i = ps.length := Nat.le_antisymm hr.le hge
    have hle : restarts ≤ offsetOf ps i := by
      rw [heq, offsetOf_length, ← h.length]
    simp only [if_pos hle]
    refine ⟨(decide_eq_false (by omega)).symm, Or.inr ⟨heq, ?_⟩⟩
    exact ⟨⟨rfl, rfl, hr.number, hr.status⟩, rfl⟩

/-- On an entry, `ParseNextKey` will read the next one. -/
theorem At.ready (ha : At ps restartAt data restarts n it i) :
    Ready ps restartAt data restarts n it (i + 1) := by
  obtain ⟨p, hp, hkey, -⟩ := ha.entry
  obtain ⟨hi, hget⟩ := List.getElem?_eq_some_iff.mp hp
  refine ⟨ha.toOver, hi, ?_, ha.next, ha.index, Nat.le_succ_of_le ha.low⟩
  have hchain := chained_drop ps i h.chained
  rw [List.drop_eq_getElem_cons hi, hget] at hchain
  rw [hkey]
  exact hchain.2.2

/-- At a restart point nothing is needed of the key before. -/
theorem ready_restart (ho : Over data restarts n it) (hj : j < n) :
    Ready ps restartAt data restarts n (it.seekToRestartPoint j) (restartAt j) := by
  refine ⟨{ ho with }, h.restartAt_le hj, ?_, ?_, hj,
    Nat.le_refl _⟩
  · show Chained [] _
    have hchain := chained_drop ps (restartAt j) h.chained
    cases hd : ps.drop (restartAt j) with
    | nil => trivial
    | cons p rest =>
      rw [hd] at hchain
      have hp : ps[restartAt j]? = some p := by
        rw [← List.head?_drop, hd]
        rfl
      have hz := h.whole j hj p hp
      refine ⟨hchain.1, ?_, hchain.2.2⟩
      rw [hz]
      rfl
  · show it.getRestartPoint j + 0 = _
    rw [h.getRestartPoint ho hj, Nat.add_zero]

/-! ## Moving forward -/

theorem next_pos (ha : At ps restartAt data restarts n it i) :
    Pos ps restartAt data restarts n it.next (i + 1) :=
  (parseNextKey_spec h (ha.ready h)).2

theorem seekToFirst_pos (ho : Over data restarts n it) :
    Pos ps restartAt data restarts n it.seekToFirst 0 := by
  have hr := ready_restart h ho h.pos
  rw [h.first] at hr
  exact (parseNextKey_spec h hr).2

end

/-- Iterators over the block and cursors over its entries. -/
def BlockRel (ps : List Piece) (restartAt : Nat → Nat) (data : Slice) (restarts n : Nat)
    (a : AnyIter) (c : Cursor (Slice × Slice)) : Prop :=
  ∃ it i, a = .block it ∧ c = Cursor.atIndex (entriesOf ps) i
    ∧ Pos ps restartAt data restarts n it i

theorem entriesOf_length (ps : List Piece) : (entriesOf ps).length = ps.length := List.length_map _

section

variable (h : Laid ps restartAt data restarts n)
include h

/-- **Moving forward, a block iterator is a cursor** over the entries of the block,
    whatever the comparator. -/
theorem forward_block (cmp : Comparator) :
    Forward (iterOps cmp) .ok (BlockRel ps restartAt data restarts n) where
  valid := by
    rintro _ _ ⟨it, i, rfl, rfl, hpos⟩
    rw [Cursor.atIndex_valid, entriesOf_length]
    show decide (it.current < it.restarts) = _
    rcases hpos with ⟨hi, ha⟩ | ⟨rfl, hoff⟩
    · rw [decide_eq_true hi, ha.current, ha.limit, decide_eq_true (h.offset_lt hi)]
    · rw [decide_eq_false (Nat.lt_irrefl _), hoff.current, hoff.limit,
        decide_eq_false (Nat.lt_irrefl _)]
  current := by
    rintro _ _ k v ⟨it, i, rfl, rfl, hpos⟩ hcur
    rw [Cursor.atIndex_current, entriesOf, List.getElem?_map, Option.map_eq_some_iff] at hcur
    obtain ⟨p, hp, hkv⟩ := hcur
    rcases hpos with ⟨-, ha⟩ | ⟨rfl, -⟩
    · obtain ⟨p', hp', hkey, hvalue⟩ := ha.entry
      rw [hp, Option.some.injEq] at hp'
      subst hp'
      cases hkv
      exact ⟨hkey, hvalue⟩
    · rw [List.getElem?_eq_none (Nat.le_refl _)] at hp
      cases hp
  status := by
    rintro _ _ ⟨it, i, rfl, -, hpos⟩
    exact hpos.over.status
  seekToFirst := by
    rintro _ _ ⟨it, i, rfl, rfl, hpos⟩
    refine ⟨it.seekToFirst, 0, rfl, ?_, seekToFirst_pos h hpos.over⟩
    rw [Cursor.seekToFirst_eq, Cursor.atIndex_contents]
  next := by
    rintro _ _ ⟨it, i, rfl, rfl, hpos⟩ hvalid
    rw [Cursor.atIndex_valid, entriesOf_length, decide_eq_true_eq] at hvalid
    rcases hpos with ⟨-, ha⟩ | ⟨rfl, -⟩
    · refine ⟨it.next, i + 1, rfl, ?_, next_pos h ha⟩
      rw [Cursor.next_atIndex (by rwa [entriesOf_length])]
    · exact absurd hvalid (Nat.lt_irrefl _)

/-! ## Moving back -/

theorem At.nextEntryOffset (ha : At ps restartAt data restarts n it i) :
    it.nextEntryOffset = offsetOf ps (i + 1) := by
  obtain ⟨p, hp, -⟩ := ha.entry
  have hi := (List.getElem?_eq_some_iff.mp hp).1
  have := h.offset_le (show i + 1 ≤ ps.length from hi)
  have := h.restarts_le
  have := h.small
  rw [BlockIter.nextEntryOffset, ha.next, Nat.mod_eq_of_lt (by omega)]

/-- The loop over entries stops on the last one before entry number `m`. -/
theorem parseUpTo_pos {m : Nat} (hm : m ≤ ps.length) (fuel : Nat) :
    ∀ {it : BlockIter} {i : Nat}, Ready ps restartAt data restarts n it i → i < m →
      m - i ≤ fuel →
      Pos ps restartAt data restarts n (BlockIter.parseUpTo (offsetOf ps m) fuel it) (m - 1) := by
  induction fuel with
  | zero => intro it i _ hi hf; omega
  | succ fuel ih =>
    intro it i hr hi hf
    obtain ⟨hok, hpos⟩ := parseNextKey_spec h hr
    rw [BlockIter.parseUpTo, hok]
    rcases hpos with ⟨hlt, ha⟩ | ⟨heq, -⟩
    · have hcmp := offsetOf_lt_iff (show i + 1 ≤ ps.length from hlt) hm
      rw [ha.nextEntryOffset h]
      by_cases hgo : i + 1 < m
      · rw [if_pos ⟨decide_eq_true hlt, hcmp.mpr hgo⟩]
        exact ih (ha.ready h) hgo (by omega)
      · rw [if_neg fun hc => hgo (hcmp.mp hc.2), show m - 1 = i by omega]
        exact Or.inl ⟨hlt, ha⟩
    · omega

/-- Entries take three bytes, so there are no more of them than bytes. -/
theorem Laid.count_le : ps.length ≤ restarts := by
  have := offsetOf_mono (Nat.zero_le _) (Nat.le_refl ps.length)
  rw [offsetOf_length, ← h.length] at this
  omega

theorem seekToLast_pos (ho : Over data restarts n it) :
    Pos ps restartAt data restarts n it.seekToLast (ps.length - 1) := by
  have hpos := h.pos
  have hr := ready_restart h ho (j := n - 1) (by omega)
  rw [BlockIter.seekToLast, ho.number, ho.limit]
  have hcount := h.count_le
  rcases h.inside (n - 1) (by omega) with hlt | ⟨hnil, hz⟩
  · have hend : restarts = offsetOf ps ps.length := by rw [offsetOf_length, h.length]
    have := parseUpTo_pos h (Nat.le_refl _) (restarts + 1) hr hlt (by omega)
    rwa [← hend] at this
  · -- no entries: the first round ends the loop
    obtain ⟨hok, hpos'⟩ := parseNextKey_spec h hr
    have hlen : ps.length = 0 := by rw [hnil]; rfl
    rw [BlockIter.parseUpTo, hok, decide_eq_false (by omega), if_neg (by simp)]
    rw [hz] at hpos'
    rwa [hlen]

theorem restartBefore_spec (ho : Over data restarts n it) (hi : i ≤ ps.length) (index : Nat) :
    index < n →
      (i = 0 → it.restartBefore (offsetOf ps i) index = none)
        ∧ (0 < i → ∃ j < n, it.restartBefore (offsetOf ps i) index = some j ∧ restartAt j < i) := by
  induction index with
  | zero =>
    intro hidx
    rw [BlockIter.restartBefore, h.getRestartPoint ho hidx, h.first, offsetOf_zero]
    constructor
    · intro hz
      rw [hz, offsetOf_zero, if_pos (Nat.le_refl _)]
    · intro hpos
      have := (offsetOf_lt_iff (Nat.zero_le _) hi).mpr hpos
      rw [offsetOf_zero] at this
      rw [if_neg (by omega)]
      exact ⟨0, hidx, rfl, by rw [h.first]; exact hpos⟩
  | succ index ih =>
    intro hidx
    have hprev := ih (by omega)
    rw [BlockIter.restartBefore, h.getRestartPoint ho hidx]
    by_cases hlt : restartAt (index + 1) < i
    · have := (offsetOf_lt_iff (h.restartAt_le hidx) hi).mpr hlt
      rw [if_neg (by omega)]
      exact ⟨fun hz => by omega, fun _ => ⟨index + 1, hidx, rfl, hlt⟩⟩
    · have hnot := (offsetOf_lt_iff (h.restartAt_le hidx) hi).not.mpr hlt
      rw [if_pos (by omega)]
      exact hprev

theorem prev_pos (ha : At ps restartAt data restarts n it i) (hi : i < ps.length) :
    Pos ps restartAt data restarts n it.prev (if i = 0 then ps.length else i - 1) := by
  obtain ⟨hzero, hsome⟩ := restartBefore_spec h ha.toOver (Nat.le_of_lt hi) it.restartIndex ha.index
  rw [BlockIter.prev, ha.current]
  by_cases hz : i = 0
  · rw [if_pos hz, hzero hz]
    exact Or.inr ⟨rfl, ⟨{ ha with }, ha.limit⟩⟩
  · obtain ⟨j, hj, heq, hlt⟩ := hsome (Nat.pos_of_ne_zero hz)
    rw [if_neg hz, heq]
    have hcount := h.count_le
    exact parseUpTo_pos h (Nat.le_of_lt hi) (it.restarts + 1) (ready_restart h ha.toOver hj) hlt
      (by rw [ha.limit]; omega)

end

/-! ## Searching -/

section Seek

variable {cmp : Comparator}

/-- The key of entry number `i` is before the target. -/
def KeyLt (cmp : Comparator) (ps : List Piece) (target : Slice) (i : Nat) : Prop :=
  ∃ p, ps[i]? = some p ∧ cmp.compare p.key target = .lt

/-- How many entries are before the target. -/
def countLt (cmp : Comparator) (ps : List Piece) (target : Slice) : Nat :=
  ((entriesOf ps).takeWhile fun e => cmp.compare e.1 target == .lt).length

variable {i : Nat}

theorem countLt_spec (ps : List Piece) (target : Slice) (hbefore : ∀ k < i, KeyLt cmp ps target k)
    (hi : i ≤ ps.length) (hat : ∀ p, ps[i]? = some p → cmp.compare p.key target ≠ .lt) :
    countLt cmp ps target = i := by
  induction ps generalizing i with
  | nil => exact (Nat.le_zero.mp hi).symm
  | cons p ps ih =>
    rw [countLt, entriesOf, List.map_cons, List.takeWhile_cons]
    cases i with
    | zero =>
      have := hat p rfl
      rw [if_neg (by simpa using this)]
      rfl
    | succ i =>
      obtain ⟨q, hq, hlt⟩ := hbefore 0 (Nat.succ_pos _)
      rw [List.getElem?_cons_zero, Option.some.injEq] at hq
      rw [if_pos (by rw [hq]; simpa using hlt), List.length_cons]
      congr 1
      refine ih (fun k hk => ?_) (Nat.le_of_succ_le_succ hi) fun q hq => hat q ?_
      · obtain ⟨q, hq, hlt⟩ := hbefore (k + 1) (by omega)
        exact ⟨q, by rwa [List.getElem?_cons_succ] at hq, hlt⟩
      · rwa [List.getElem?_cons_succ]

/-- The linear search stops on the first entry that is not before the target. -/
theorem parseToKey_pos (h : Laid ps restartAt data restarts n) (target : Slice) (fuel : Nat) :
    ∀ {it : BlockIter} {i : Nat}, Ready ps restartAt data restarts n it i →
      (∀ k < i, KeyLt cmp ps target k) → ps.length - i < fuel →
      Pos ps restartAt data restarts n (BlockIter.parseToKey cmp target fuel it)
        (countLt cmp ps target) := by
  induction fuel with
  | zero => intro it i _ _ hf; omega
  | succ fuel ih =>
    intro it i hr hbefore hf
    obtain ⟨hok, hpos⟩ := parseNextKey_spec h hr
    rw [BlockIter.parseToKey, hok]
    rcases hpos with ⟨hlt, ha⟩ | ⟨heq, hoff⟩
    · obtain ⟨p, hp, hkey, -⟩ := ha.entry
      by_cases hgo : cmp.compare it.parseNextKey.2.key target = .lt
      · rw [if_pos ⟨decide_eq_true hlt, hgo⟩]
        refine ih (ha.ready h) (fun k hk => ?_) (by omega)
        rcases Nat.lt_succ_iff_lt_or_eq.mp hk with hk | rfl
        · exact hbefore k hk
        · exact ⟨p, hp, hkey ▸ hgo⟩
      · rw [if_neg fun hc => hgo hc.2, countLt_spec ps target hbefore hr.le]
        · exact Or.inl ⟨hlt, ha⟩
        · intro q hq
          rw [hp, Option.some.injEq] at hq
          rw [← hq, ← hkey]
          exact hgo
    · rw [decide_eq_false (by omega), if_neg (by simp), countLt_spec ps target hbefore hr.le]
      · exact Or.inr ⟨heq, hoff⟩
      · intro q hq
        rw [heq, List.getElem?_eq_none (Nat.le_refl _)] at hq
        cases hq

/-- The keys of the block are strictly increasing. -/
def Increasing (cmp : Comparator) (ps : List Piece) : Prop :=
  ps.Pairwise fun p q => cmp.compare p.key q.key = .lt

theorem Increasing.lt (hs : Increasing cmp ps) {p q : Piece} (hp : ps[i]? = some p)
    (hq : ps[j]? = some q) (hij : i < j) : cmp.compare p.key q.key = .lt := by
  obtain ⟨hi, rfl⟩ := List.getElem?_eq_some_iff.mp hp
  obtain ⟨hj, rfl⟩ := List.getElem?_eq_some_iff.mp hq
  exact List.pairwise_iff_getElem.mp hs i j hi hj hij

variable [Std.TransCmp cmp.compare]

/-- If an entry is before the target, so are those before it. -/
theorem Increasing.keyLt (hs : Increasing cmp ps) {target : Slice} (hi : KeyLt cmp ps target i) :
    ∀ k < i, KeyLt cmp ps target k := by
  intro k hk
  obtain ⟨q, hq, hlt⟩ := hi
  have hlen := (List.getElem?_eq_some_iff.mp hq).1
  obtain ⟨p, hp⟩ : ∃ p, ps[k]? = some p := ⟨_, List.getElem?_eq_getElem (by omega)⟩
  exact ⟨p, hp, Std.TransCmp.lt_trans (hs.lt hp hq hk) hlt⟩

section

variable (h : Laid ps restartAt data restarts n) (hs : Increasing cmp ps)
include h hs

/-- **The binary search** keeps that all entries before its left end are before the
    target. -/
theorem searchRestarts_spec {it : BlockIter} (ho : Over data restarts n it) (target : Slice)
    (fuel : Nat) :
    ∀ left right, left < n → right < n → right - left ≤ fuel →
      (∀ k < restartAt left, KeyLt cmp ps target k) →
      ∃ l < n, it.searchRestarts cmp target fuel left right = some l
        ∧ ∀ k < restartAt l, KeyLt cmp ps target k := by
  induction fuel with
  | zero =>
    intro left right hl _ _ hbefore
    exact ⟨left, hl, rfl, hbefore⟩
  | succ fuel ih =>
    intro left right hl hr hf hbefore
    rw [BlockIter.searchRestarts]
    by_cases hgo : left < right
    · have hmid : (left + right + 1) / 2 < n := by omega
      have hin : restartAt ((left + right + 1) / 2) < ps.length := by
        refine (h.inside _ hmid).resolve_right fun hc => ?_
        have := h.mono left ((left + right + 1) / 2) (by omega) hmid
        omega
      obtain ⟨p, hp⟩ : ∃ p, ps[restartAt ((left + right + 1) / 2)]? = some p :=
        ⟨_, List.getElem?_eq_getElem hin⟩
      obtain ⟨rest, hdec, -, hkey, -⟩ := h.decode hp
      have hz := h.whole _ hmid p hp
      rw [hz, List.drop_zero] at hkey
      simp only [if_pos hgo, h.getRestartPoint ho hmid, ho.data, ho.limit, hdec, hz, ne_eq,
        not_true_eq_false, if_false, hkey]
      by_cases hlt : cmp.compare p.key target = .lt
      · rw [if_pos hlt]
        exact ih _ _ hmid hr (by omega) (hs.keyLt ⟨p, hp, hlt⟩)
      · rw [if_neg hlt]
        exact ih _ _ hl (by omega) (by omega) hbefore
    · rw [if_neg hgo]
      exact ⟨left, hl, rfl, hbefore⟩

/-- The search from a part of the restart array, without the current position. -/
theorem seekBetween_pos {it : BlockIter} (ho : Over data restarts n it) (target : Slice)
    {compared : Ordering} {left right : Nat} (hl : left < n) (hr : right < n)
    (hbefore : ∀ k < restartAt left, KeyLt cmp ps target k)
    (hcur : compared = .lt → ∃ i, Ready ps restartAt data restarts n it i
      ∧ ∀ k < i, KeyLt cmp ps target k) :
    Pos ps restartAt data restarts n (it.seekBetween cmp target compared left right)
      (countLt cmp ps target) := by
  have hcount := h.count_le
  obtain ⟨l, hln, heq, hlt⟩ := searchRestarts_spec h hs ho target it.numRestarts left right hl hr
    (by rw [ho.number]; omega) hbefore
  rw [BlockIter.seekBetween, heq]
  simp only
  by_cases hskip : l = it.restartIndex ∧ compared = .lt
  · rw [if_pos hskip]
    obtain ⟨i, hready, hi⟩ := hcur hskip.2
    exact parseToKey_pos h target _ hready hi (by rw [ho.limit]; omega)
  · rw [if_neg hskip]
    exact parseToKey_pos h target _ (ready_restart h ho hln) hlt (by rw [ho.limit]; omega)

/-- **`Seek`** stops on the first entry that is not before the target, wherever the
    iterator stood. -/
theorem seek_pos {it : BlockIter} (hpos : Pos ps restartAt data restarts n it i) (target : Slice) :
    Pos ps restartAt data restarts n (it.seek cmp target) (countLt cmp ps target) := by
  have hn := h.pos
  have ho := hpos.over
  have hnone : ∀ k < restartAt 0, KeyLt cmp ps target k := fun k hk => by
    rw [h.first] at hk
    exact absurd hk (Nat.not_lt_zero _)
  rw [BlockIter.seek]
  rcases hpos with ⟨hi, ha⟩ | ⟨-, hoff⟩
  · have hvalid : it.valid = true := by
      rw [BlockIter.valid, ha.current, ha.limit]
      exact decide_eq_true (h.offset_lt hi)
    obtain ⟨p, hp, hkey, -⟩ := ha.entry
    rw [if_pos hvalid, hkey, ho.number]
    cases hc : cmp.compare p.key target with
    | lt =>
      have hbelow : ∀ k < i + 1, KeyLt cmp ps target k := by
        intro k hk
        rcases Nat.lt_succ_iff_lt_or_eq.mp hk with hk | rfl
        · exact hs.keyLt ⟨p, hp, hc⟩ k hk
        · exact ⟨p, hp, hc⟩
      have hlow := ha.low
      exact seekBetween_pos h hs ho target ha.index (by omega)
        (fun k hk => hbelow k (by omega)) fun _ => ⟨i + 1, ha.ready h, hbelow⟩
    | gt =>
      exact seekBetween_pos h hs ho target hn ha.index hnone nofun
    | eq =>
      -- the iterator stays: all entries before its own are before the target
      rw [countLt_spec ps target _ (Nat.le_of_lt hi)]
      · exact Or.inl ⟨hi, ha⟩
      · intro q hq
        rw [hp, Option.some.injEq] at hq
        rw [← hq, hc]
        exact nofun
      · intro k hk
        obtain ⟨q, hq⟩ : ∃ q, ps[k]? = some q := ⟨_, List.getElem?_eq_getElem (by omega)⟩
        exact ⟨q, hq, Std.TransCmp.lt_of_lt_of_eq (hs.lt hq hp hk) hc⟩
  · have hvalid : ¬ it.valid = true := by
      rw [BlockIter.valid, hoff.current, hoff.limit]
      simp
    rw [if_neg hvalid, ho.number]
    exact seekBetween_pos h hs ho target hn (by omega) hnone nofun

/-- **A block iterator is a cursor** over the entries of the block. -/
theorem refines_block :
    Refines (iterOps cmp) (fun a b => cmp.compare a b == .lt) .ok
      (BlockRel ps restartAt data restarts n) :=
  { forward_block h cmp with
    seekToLast := by
      rintro _ _ ⟨it, i, rfl, rfl, hpos⟩
      refine ⟨it.seekToLast, _, rfl, ?_, seekToLast_pos h hpos.over⟩
      rw [Cursor.seekToLast_eq, Cursor.atIndex_contents, entriesOf_length]
    seek := by
      rintro _ _ ⟨it, i, rfl, rfl, hpos⟩ target
      refine ⟨it.seek cmp target, _, rfl, ?_, seek_pos h hs hpos target⟩
      rw [Cursor.seek_eq, Cursor.atIndex_contents]
      rfl
    prev := by
      rintro _ _ ⟨it, i, rfl, rfl, hpos⟩ hvalid
      rw [Cursor.atIndex_valid, entriesOf_length, decide_eq_true_eq] at hvalid
      have ha := (hpos.resolve_right fun hc => Nat.lt_irrefl _ (hc.1 ▸ hvalid)).2
      refine ⟨it.prev, _, rfl, ?_, prev_pos h ha hvalid⟩
      cases i with
      | zero => rw [Cursor.prev_atIndex_zero, entriesOf_length, if_pos rfl]
      | succ i =>
        rw [Cursor.prev_atIndex_succ (by rw [entriesOf_length]; omega),
          if_neg (Nat.succ_ne_zero i), Nat.add_sub_cancel] }

end

end Seek

end Positions

/-! ## Blocks as they are built -/

/-- An iterator over a block of the entries `es`, and its position. -/
def Opened (es : List (Slice × Slice)) (a : AnyIter) (c : Cursor (Slice × Slice)) : Prop :=
  ∃ ps restartAt data restarts n, entriesOf ps = es ∧ Laid ps restartAt data restarts n
    ∧ BlockRel ps restartAt data restarts n a c

variable {es : List (Slice × Slice)}

theorem Opened.contents {a : AnyIter} {c : Cursor (Slice × Slice)} (h : Opened es a c) :
    c.contents = es := by
  obtain ⟨ps, _, _, _, _, hes, -, _, i, -, hc, -⟩ := h
  rw [hc, Cursor.atIndex_contents, hes]

/-- **A block opens as a cursor over the entries it was built from**, which stands
    nowhere. -/
theorem opened_new {interval : Nat} (hint : 1 ≤ interval)
    (hsmall : (BlockBuilder.new.addAll interval es).finish.length < 2 ^ 32) :
    Opened es (Block.new (BlockBuilder.new.addAll interval es).finish).newIterator
      (Cursor.atIndex es es.length) := by
  obtain ⟨ps, starts, hes, hbuilt⟩ := built_addAll hint es built_new
  rw [List.nil_append] at hbuilt
  obtain ⟨hnew, hnum, hlaid⟩ := laid_finish hbuilt hsmall
  refine ⟨ps, _, _, _, _, hes, hlaid, BlockIter.new _ _ _, ps.length, ?_, ?_,
    Or.inr ⟨rfl, ⟨rfl, rfl, rfl, rfl⟩, rfl⟩⟩
  · have hsize : ¬(BlockBuilder.new.addAll interval es).finish.length < 4 := by
      rw [BlockBuilder.finish, List.length_append, encodeFixed32_length]
      omega
    rw [hnew, Block.newIterator, if_neg hsize, if_neg]
    · simp only [hnum]
      rfl
    · rw [hnum]
      exact Nat.ne_of_gt hlaid.pos
  · rw [← hes, entriesOf_length]

theorem opened_finish {interval : Nat} (hint : 1 ≤ interval)
    (hsmall : (BlockBuilder.new.addAll interval es).finish.length < 2 ^ 32) :
    ∃ c, Opened es (Block.new (BlockBuilder.new.addAll interval es).finish).newIterator c :=
  ⟨_, opened_new hint hsmall⟩

theorem forward_opened (cmp : Comparator) (es : List (Slice × Slice)) :
    Forward (iterOps cmp) .ok (Opened es) where
  valid := by
    rintro s c ⟨ps, f, data, restarts, n, -, hlaid, hrel⟩
    exact (forward_block hlaid cmp).valid hrel
  current := by
    rintro s c k v ⟨ps, f, data, restarts, n, -, hlaid, hrel⟩ hcur
    exact (forward_block hlaid cmp).current hrel hcur
  status := by
    rintro s c ⟨ps, f, data, restarts, n, -, hlaid, hrel⟩
    exact (forward_block hlaid cmp).status hrel
  seekToFirst := by
    rintro s c ⟨ps, f, data, restarts, n, hes, hlaid, hrel⟩
    exact ⟨ps, f, data, restarts, n, hes, hlaid, (forward_block hlaid cmp).seekToFirst hrel⟩
  next := by
    rintro s c ⟨ps, f, data, restarts, n, hes, hlaid, hrel⟩ hv
    exact ⟨ps, f, data, restarts, n, hes, hlaid, (forward_block hlaid cmp).next hrel hv⟩

theorem increasing_entriesOf {cmp : Comparator} {ps : List Piece}
    (h : (entriesOf ps).Pairwise fun a b => cmp.compare a.1 b.1 = .lt) : Increasing cmp ps :=
  List.pairwise_map.mp h

theorem refines_opened {cmp : Comparator} [Std.TransCmp cmp.compare]
    (hs : es.Pairwise fun a b => cmp.compare a.1 b.1 = .lt) :
    Refines (iterOps cmp) (fun a b => cmp.compare a b == .lt) .ok (Opened es) :=
  { forward_opened cmp es with
    seekToLast := by
      rintro s c ⟨ps, f, data, restarts, n, rfl, hlaid, hrel⟩
      exact ⟨ps, f, data, restarts, n, rfl, hlaid,
        (refines_block hlaid (increasing_entriesOf hs)).seekToLast hrel⟩
    seek := by
      rintro s c ⟨ps, f, data, restarts, n, rfl, hlaid, hrel⟩ t
      exact ⟨ps, f, data, restarts, n, rfl, hlaid,
        (refines_block hlaid (increasing_entriesOf hs)).seek hrel t⟩
    prev := by
      rintro s c ⟨ps, f, data, restarts, n, rfl, hlaid, hrel⟩ hv
      exact ⟨ps, f, data, restarts, n, rfl, hlaid,
        (refines_block hlaid (increasing_entriesOf hs)).prev hrel hv⟩ }

/-- **A block iterator is a cursor over the added entries**: under every sequence
    of calls it stands where a cursor over them stands, whatever position a `Seek`
    starts from, and its status stays OK. -/
theorem block_follows_cursor {cmp : Comparator} [Std.TransCmp cmp.compare] {interval : Nat}
    (hint : 1 ≤ interval) {es : List (Slice × Slice)}
    (hs : es.Pairwise fun a b => cmp.compare a.1 b.1 = .lt)
    (hsmall : (BlockBuilder.new.addAll interval es).finish.length < 2 ^ 32)
    (calls : List (Call Slice)) :
    Follows (iterOps cmp) (fun a b => cmp.compare a b == .lt) .ok calls
      (Block.new (BlockBuilder.new.addAll interval es).finish).newIterator
      (Cursor.atIndex es es.length) :=
  (refines_opened hs).follows calls (opened_new hint hsmall)

/-- Three keys with a restart point at every second one. -/
theorem block_follows_cursor_sample :
    Follows (iterOps bytewiseComparator)
      (fun a b => bytewiseComparator.compare a b == .lt) .ok
      [.seekToLast, .prev, .seek [97, 99], .prev, .next, .next, .seekToFirst, .prev]
      (Block.new (BlockBuilder.new.addAll 2
        [([97], [1]), ([97, 98], [2]), ([99], [3])]).finish).newIterator
      (Cursor.atIndex [([97], [1]), ([97, 98], [2]), ([99], [3])] 3) :=
  block_follows_cursor (by decide) (by decide) (by decide) _

end LdbBlock
