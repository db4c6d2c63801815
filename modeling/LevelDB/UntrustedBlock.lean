import LevelDB.BlockLayout

/-! # Iterating over an untrusted block

    `Block` and its iterator (`table/block.cc`) on arbitrary contents.  Every call is
    given with the accesses it makes: the restart points it reads and the offsets
    at which `DecodeEntry` is asked for an entry.

    All restart points read lie in the block and all loops end, whatever the contents
    are.  `DecodeEntry` adds the two lengths of an entry in 32 bits, so the key and
    the value of an entry it accepts lie in the block unless that sum wraps
    (`entry_inside_iff`).  `block_safe_iff` carries this through every sequence of
    calls. -/

namespace LdbUntrustedBlock

open LdbFormat LdbComparator LdbEnv LdbBlock Cursors

/-! ## Accesses -/

/-- An access to the block: the restart point with an index, or the entry at an
    offset. -/
inductive Access where
  | restart (index : Nat)
  | entry (offset : Nat)
  deriving DecidableEq

section Logs

variable (it : BlockIter)

/-- The restart points the last loop of `ParseNextKey` reads. -/
def advanceLog (current : Nat) : Nat → Nat → List Access
  | 0, _ => []
  | fuel + 1, index =>
    if index + 1 < it.numRestarts then
      .restart (index + 1) ::
        if it.getRestartPoint (index + 1) < current then advanceLog current fuel (index + 1)
        else []
    else []

/-- The accesses of `ParseNextKey`. -/
def parseLog : List Access :=
  if it.restarts ≤ it.nextEntryOffset then []
  else
    .entry it.nextEntryOffset ::
      match decodeEntry ((it.data.take it.restarts).drop it.nextEntryOffset) with
      | none => []
      | some (shared, _, _, _) =>
        if it.key.length < shared then []
        else advanceLog it it.nextEntryOffset it.numRestarts it.restartIndex

/-- The restart points the first loop of `Prev` reads. -/
def beforeLog (original : Nat) : Nat → List Access
  | 0 => [.restart 0]
  | index + 1 =>
    .restart (index + 1) ::
      if original ≤ it.getRestartPoint (index + 1) then beforeLog original index else []

/-- The accesses of the binary search of `Seek`. -/
def searchLog (cmp : Comparator) (target : Slice) : Nat → Nat → Nat → List Access
  | 0, _, _ => []
  | fuel + 1, left, right =>
    if left < right then
      .restart ((left + right + 1) / 2) ::
        .entry (it.getRestartPoint ((left + right + 1) / 2)) ::
          match decodeEntry ((it.data.take it.restarts).drop
              (it.getRestartPoint ((left + right + 1) / 2))) with
          | none => []
          | some (shared, nonShared, _, rest) =>
            if shared ≠ 0 then []
            else if cmp.compare ((it.data.drop
                ((it.data.take it.restarts).length - rest.length)).take nonShared) target
                  = .lt then
              searchLog cmp target fuel ((left + right + 1) / 2) right
            else searchLog cmp target fuel left ((left + right + 1) / 2 - 1)
    else []

end Logs

/-- The loops over entries: parse, and go on while the test on the new position
    holds. -/
def parseWhile (goOn : BlockIter → Prop) [DecidablePred goOn] : Nat → BlockIter → BlockIter
  | 0, it => it
  | fuel + 1, it =>
    if it.parseNextKey.1 = true ∧ goOn it.parseNextKey.2 then
      parseWhile goOn fuel it.parseNextKey.2
    else it.parseNextKey.2

/-- The accesses of such a loop. -/
def parseWhileLog (goOn : BlockIter → Prop) [DecidablePred goOn] :
    Nat → BlockIter → List Access
  | 0, _ => []
  | fuel + 1, it =>
    parseLog it ++
      if it.parseNextKey.1 = true ∧ goOn it.parseNextKey.2 then
        parseWhileLog goOn fuel it.parseNextKey.2
      else []

theorem parseUpTo_eq (limit : Nat) (fuel : Nat) : ∀ it : BlockIter,
    BlockIter.parseUpTo limit fuel it = parseWhile (fun r => r.nextEntryOffset < limit) fuel it := by
  induction fuel with
  | zero => intro it; rfl
  | succ fuel ih =>
    intro it
    rw [BlockIter.parseUpTo, parseWhile]
    simp only [ih]

theorem parseToKey_eq (cmp : Comparator) (target : Slice) (fuel : Nat) : ∀ it : BlockIter,
    BlockIter.parseToKey cmp target fuel it
      = parseWhile (fun r => cmp.compare r.key target = .lt) fuel it := by
  induction fuel with
  | zero => intro it; rfl
  | succ fuel ih =>
    intro it
    rw [BlockIter.parseToKey, parseWhile]
    simp only [ih]

/-- How `Seek` begins: nothing to do, or how the current key compares and the part of
    the restart array to search. -/
def seekStart (cmp : Comparator) (target : Slice) (it : BlockIter) :
    Option (Ordering × Nat × Nat) :=
  if it.valid = true then
    match cmp.compare it.key target with
    | .lt => some (.lt, it.restartIndex, it.numRestarts - 1)
    | .gt => some (.gt, 0, it.restartIndex)
    | .eq => none
  else some (.eq, 0, it.numRestarts - 1)

/-- Where the linear search of `Seek` starts, once the binary search has found a
    restart point. -/
def scanStart (it : BlockIter) (compared : Ordering) (left : Nat) : BlockIter :=
  if left = it.restartIndex ∧ compared = .lt then it else it.seekToRestartPoint left

theorem seekBetween_eq (cmp : Comparator) (target : Slice) (it : BlockIter) (compared : Ordering)
    (left right : Nat) : it.seekBetween cmp target compared left right
      = match it.searchRestarts cmp target it.numRestarts left right with
        | none => it.corruptionError
        | some l => parseWhile (fun r => cmp.compare r.key target = .lt) (it.restarts + 1)
            (scanStart it compared l) := by
  rw [BlockIter.seekBetween]
  cases it.searchRestarts cmp target it.numRestarts left right with
  | none => rfl
  | some l =>
    simp only [parseToKey_eq, scanStart]
    split_ifs <;> rfl

theorem seek_eq (cmp : Comparator) (target : Slice) (it : BlockIter) :
    it.seek cmp target = match seekStart cmp target it with
      | none => it
      | some (compared, left, right) => it.seekBetween cmp target compared left right := by
  rw [BlockIter.seek, seekStart]
  by_cases hv : it.valid = true
  · rw [if_pos hv, if_pos hv]
    cases cmp.compare it.key target <;> rfl
  · rw [if_neg hv, if_neg hv]

/-- The accesses of `Seek`. -/
def seekLog (cmp : Comparator) (target : Slice) (it : BlockIter) : List Access :=
  match seekStart cmp target it with
  | none => []
  | some (compared, left, right) =>
    searchLog it cmp target it.numRestarts left right ++
      match it.searchRestarts cmp target it.numRestarts left right with
      | none => []
      | some l =>
        (if l = it.restartIndex ∧ compared = .lt then [] else [.restart l]) ++
          parseWhileLog (fun r => cmp.compare r.key target = .lt) (it.restarts + 1)
            (scanStart it compared l)

/-- The accesses of a call. -/
def callLog (cmp : Comparator) : Call Slice → BlockIter → List Access
  | .seekToFirst, it => .restart 0 :: parseLog (it.seekToRestartPoint 0)
  | .seekToLast, it =>
    .restart (it.numRestarts - 1) ::
      parseWhileLog (fun r => r.nextEntryOffset < it.restarts) (it.restarts + 1)
        (it.seekToRestartPoint (it.numRestarts - 1))
  | .seek target, it => seekLog cmp target it
  | .next, it => parseLog it
  | .prev, it =>
    beforeLog it it.current it.restartIndex ++
      match it.restartBefore it.current it.restartIndex with
      | none => []
      | some index =>
        .restart index ::
          parseWhileLog (fun r => r.nextEntryOffset < it.current) (it.restarts + 1)
            (it.seekToRestartPoint index)

/-! ## One entry -/

/-- The header at the start of `bytes`, if there is one, does not have two lengths
    whose 32-bit sum wraps to something that the bytes after it could hold. -/
def NoWrap (bytes : Slice) : Prop :=
  ∀ shared nonShared valueLength rest,
    decodeHeader bytes = some (shared, nonShared, valueLength, rest) →
      nonShared + valueLength < 2 ^ 32 ∨ rest.length + 2 ^ 32 < nonShared + valueLength

/-- The access lies in a block of these contents with its restart array at
    `restarts`: the four bytes of the restart point do, and so do the key and the value
    of an entry that `DecodeEntry` accepts there. -/
def Access.Inside (contents : Slice) (restarts : Nat) : Access → Prop
  | .restart index => restarts + index * 4 + 4 ≤ contents.length
  | .entry offset => ∀ shared nonShared valueLength rest,
      decodeEntry ((contents.take restarts).drop offset)
        = some (shared, nonShared, valueLength, rest) →
      restarts - rest.length + nonShared + valueLength ≤ restarts

/-- The lengths of the entry asked for do not wrap. -/
def Access.NoWrap (contents : Slice) (restarts : Nat) : Access → Prop
  | .restart _ => True
  | .entry offset => LdbUntrustedBlock.NoWrap ((contents.take restarts).drop offset)

variable {contents : Slice} {it : BlockIter}

/-- **An entry lies in the block exactly if its lengths do not wrap.** -/
theorem entry_inside_iff {restarts : Nat} (hsmall : restarts < 2 ^ 32)
    (hle : restarts ≤ contents.length) (offset : Nat) :
    (Access.entry offset).Inside contents restarts ↔ (Access.entry offset).NoWrap contents restarts := by
  have hregion : ((contents.take restarts).drop offset).length ≤ restarts := by
    rw [List.length_drop, List.length_take]
    omega
  constructor
  · intro h shared nonShared valueLength rest hheader
    obtain ⟨hlen, hn, hv⟩ := decodeHeader_bounds hheader
    by_contra hno
    -- the wrapped sum passes the check
    have hsum : (nonShared + valueLength) % 2 ^ 32 ≤ rest.length % 2 ^ 32 := by omega
    have hin := h _ _ _ _ (decodeEntry_eq_some.mpr ⟨hheader, hsum⟩)
    omega
  · intro h shared nonShared valueLength rest hentry
    obtain ⟨hheader, hsum⟩ := decodeEntry_eq_some.mp hentry
    obtain ⟨hlen, hn, hv⟩ := decodeHeader_bounds hheader
    rcases h _ _ _ _ hheader with hfit | hbig
    · omega
    · omega

/-! ## The loops without a bound on their rounds -/

/-- The last loop of `ParseNextKey`. -/
inductive Advances (it : BlockIter) (current : Nat) : Nat → Nat → Prop where
  | stop {index : Nat} :
      ¬ (index + 1 < it.numRestarts ∧ it.getRestartPoint (index + 1) < current) →
      Advances it current index index
  | more {index index' : Nat} :
      index + 1 < it.numRestarts → it.getRestartPoint (index + 1) < current →
      Advances it current (index + 1) index' → Advances it current index index'

/-- The loop over the restart points ends in every `ParseNextKey` that gets there. -/
def ParseEnds (it : BlockIter) : Prop :=
  it.parseNextKey.1 = true →
    Advances it it.nextEntryOffset it.restartIndex it.parseNextKey.2.restartIndex

/-- The loops over entries. -/
inductive Parses (goOn : BlockIter → Prop) : BlockIter → BlockIter → Prop where
  | stop {it : BlockIter} : ParseEnds it → ¬ (it.parseNextKey.1 = true ∧ goOn it.parseNextKey.2) →
      Parses goOn it it.parseNextKey.2
  | more {it it' : BlockIter} : ParseEnds it → it.parseNextKey.1 = true →
      goOn it.parseNextKey.2 → Parses goOn it.parseNextKey.2 it' → Parses goOn it it'

/-- The binary search of `Seek`; `none` stands for a bad entry. -/
inductive Searches (cmp : Comparator) (it : BlockIter) (target : Slice) :
    Nat → Nat → Option Nat → Prop where
  | stop {left right : Nat} : ¬ left < right → Searches cmp it target left right (some left)
  | bad {left right : Nat} : left < right →
      (∀ nonShared valueLength rest, decodeEntry ((it.data.take it.restarts).drop
        (it.getRestartPoint ((left + right + 1) / 2))) ≠ some (0, nonShared, valueLength, rest)) →
      Searches cmp it target left right none
  | up {left right nonShared valueLength : Nat} {rest : Slice} {result : Option Nat} :
      left < right →
      decodeEntry ((it.data.take it.restarts).drop
        (it.getRestartPoint ((left + right + 1) / 2))) = some (0, nonShared, valueLength, rest) →
      cmp.compare ((it.data.drop ((it.data.take it.restarts).length - rest.length)).take nonShared)
        target = .lt →
      Searches cmp it target ((left + right + 1) / 2) right result →
      Searches cmp it target left right result
  | down {left right nonShared valueLength : Nat} {rest : Slice} {result : Option Nat} :
      left < right →
      decodeEntry ((it.data.take it.restarts).drop
        (it.getRestartPoint ((left + right + 1) / 2))) = some (0, nonShared, valueLength, rest) →
      cmp.compare ((it.data.drop ((it.data.take it.restarts).length - rest.length)).take nonShared)
        target ≠ .lt →
      Searches cmp it target left ((left + right + 1) / 2 - 1) result →
      Searches cmp it target left right result

/-- The call, with its loops run until they stop, leads from `it` to `it'`. -/
def CallEnds (cmp : Comparator) : Call Slice → BlockIter → BlockIter → Prop
  | .seekToFirst, it, it' => Parses (fun _ => False) (it.seekToRestartPoint 0) it'
  | .seekToLast, it, it' =>
    Parses (fun r => r.nextEntryOffset < it.restarts)
      (it.seekToRestartPoint (it.numRestarts - 1)) it'
  | .seek target, it, it' =>
    (seekStart cmp target it = none ∧ it' = it)
      ∨ ∃ compared left right result, seekStart cmp target it = some (compared, left, right)
          ∧ Searches cmp it target left right result
          ∧ ((result = none ∧ it' = it.corruptionError)
            ∨ ∃ l, result = some l ∧ Parses (fun r => cmp.compare r.key target = .lt)
                (scanStart it compared l) it')
  | .next, it, it' => Parses (fun _ => False) it it'
  | .prev, it, it' =>
    (it.restartBefore it.current it.restartIndex = none
        ∧ it' = { it with current := it.restarts, restartIndex := it.numRestarts })
      ∨ ∃ index, it.restartBefore it.current it.restartIndex = some index
          ∧ Parses (fun r => r.nextEntryOffset < it.current) (it.seekToRestartPoint index) it'

/-! ## One parse -/

/-- A parse that succeeds. -/
theorem parseNextKey_true (h : it.parseNextKey.1 = true) :
    ∃ shared nonShared valueLength rest, it.nextEntryOffset < it.restarts
      ∧ decodeEntry ((it.data.take it.restarts).drop it.nextEntryOffset)
          = some (shared, nonShared, valueLength, rest)
      ∧ ¬ it.key.length < shared
      ∧ it.parseNextKey.2 = { it with
          current := it.nextEntryOffset
          key := it.key.take shared ++ (it.data.drop
            ((it.data.take it.restarts).length - rest.length)).take nonShared
          valueOffset := (it.data.take it.restarts).length - rest.length + nonShared
          valueSize := valueLength
          restartIndex := it.advanceRestart it.nextEntryOffset it.numRestarts it.restartIndex } := by
  rw [BlockIter.parseNextKey] at h ⊢
  by_cases hend : it.restarts ≤ it.nextEntryOffset
  · simp [hend] at h
  · simp only [if_neg hend] at h ⊢
    rcases hd : decodeEntry ((it.data.take it.restarts).drop it.nextEntryOffset) with
      _ | ⟨shared, nonShared, valueLength, rest⟩
    · simp [hd] at h
    · simp only [hd] at h ⊢
      by_cases hkey : it.key.length < shared
      · simp [hkey] at h
      · simp only [if_neg hkey] at h ⊢
        exact ⟨shared, nonShared, valueLength, rest, not_le.mp hend, rfl, hkey, rfl⟩

/-- A parse that fails leaves the iterator at the end, or in an error. -/
theorem parseNextKey_false (h : it.parseNextKey.1 = false) :
    it.parseNextKey.2 = { it with current := it.restarts, restartIndex := it.numRestarts }
      ∨ it.parseNextKey.2 = it.corruptionError := by
  rw [BlockIter.parseNextKey] at h ⊢
  by_cases hend : it.restarts ≤ it.nextEntryOffset
  · exact Or.inl (by simp [hend])
  · simp only [if_neg hend] at h ⊢
    rcases hd : decodeEntry ((it.data.take it.restarts).drop it.nextEntryOffset) with
      _ | ⟨shared, nonShared, valueLength, rest⟩
    · exact Or.inr rfl
    · simp only [hd] at h ⊢
      by_cases hkey : it.key.length < shared
      · exact Or.inr (by rw [if_pos hkey])
      · simp [hkey] at h

/-- The contents of a block whose restart array the constructor has accepted. -/
structure Shape (contents : Slice) (restarts num : Nat) : Prop where
  small : contents.length < 2 ^ 32
  array : restarts + num * 4 + 4 = contents.length
  some_ : 0 < num

/-- The iterator is one over this block. -/
structure Frame (contents : Slice) (restarts num : Nat) (it : BlockIter) : Prop where
  data : it.data = contents
  limit : it.restarts = restarts
  count : it.numRestarts = num

/-- The iterator is not at an entry, or its restart index is one. -/
def Indexed (it : BlockIter) : Prop := it.valid = true → it.restartIndex < it.numRestarts

/-- The key and the value of the current entry lie before the restart array. -/
def InRegion (it : BlockIter) : Prop :=
  it.valid = true → it.current ≤ it.valueOffset ∧ it.valueOffset + it.valueSize ≤ it.restarts

/-- What accesses and the position after them have in common, whichever loop made
    them. -/
structure Done (contents : Slice) (restarts num : Nat) (log : List Access) (it : BlockIter) :
    Prop where
  frame : Frame contents restarts num it
  indexed : Indexed it
  points : ∀ i, .restart i ∈ log → i < num
  region : (∀ a ∈ log, a.NoWrap contents restarts) → InRegion it

variable {current : Nat}

theorem advanceRestart_ends (fuel : Nat) :
    ∀ {index : Nat}, it.numRestarts ≤ fuel + index + 1 →
      Advances it current index (it.advanceRestart current fuel index) := by
  induction fuel with
  | zero =>
    intro index hle
    exact .stop fun h => by omega
  | succ fuel ih =>
    intro index hle
    rw [BlockIter.advanceRestart]
    split_ifs with h
    · exact .more h.1 h.2 (ih (by omega))
    · exact .stop h

theorem advanceRestart_lt (fuel : Nat) :
    ∀ {index : Nat}, index < it.numRestarts →
      it.advanceRestart current fuel index < it.numRestarts := by
  induction fuel with
  | zero => intro index hlt; exact hlt
  | succ fuel ih =>
    intro index hlt
    rw [BlockIter.advanceRestart]
    split_ifs with h
    · exact ih h.1
    · exact hlt

theorem mem_advanceLog {a : Access} (fuel : Nat) :
    ∀ {index : Nat}, a ∈ advanceLog it current fuel index → ∃ i < it.numRestarts, a = .restart i := by
  induction fuel with
  | zero => intro index h; cases h
  | succ fuel ih =>
    intro index h
    rw [advanceLog] at h
    split_ifs at h with hlt hpoint
    · rcases List.mem_cons.mp h with rfl | h
      · exact ⟨_, hlt, rfl⟩
      · exact ih h
    · exact ⟨_, hlt, List.mem_singleton.mp h⟩
    · cases h

theorem restart_mem_parseLog {i : Nat} (h : .restart i ∈ parseLog it) : i < it.numRestarts := by
  rw [parseLog] at h
  split_ifs at h
  · cases h
  · rcases List.mem_cons.mp h with heq | h
    · cases heq
    · split at h
      · cases h
      · split_ifs at h
        · cases h
        · obtain ⟨j, hj, heq⟩ := mem_advanceLog _ h
          cases heq
          exact hj

theorem entry_mem_parseLog (h : it.nextEntryOffset < it.restarts) :
    .entry it.nextEntryOffset ∈ parseLog it := by
  rw [parseLog, if_neg (not_le.mpr h)]
  exact List.mem_cons_self

section Calls

variable {contents : Slice} {restarts num : Nat} {it : BlockIter}

theorem Frame.seekToRestartPoint (h : Frame contents restarts num it) (index : Nat) :
    Frame contents restarts num (it.seekToRestartPoint index) := { h with }

theorem Frame.parseNextKey (h : Frame contents restarts num it) :
    Frame contents restarts num it.parseNextKey.2 := by
  rcases hb : it.parseNextKey.1 with _ | _
  · rcases parseNextKey_false hb with heq | heq <;> exact heq ▸ { h with }
  · obtain ⟨_, _, _, _, -, -, -, heq⟩ := parseNextKey_true hb
    exact heq ▸ { h with }

theorem parseNextKey_invalid (h : it.parseNextKey.1 = false) : it.parseNextKey.2.valid = false := by
  rcases parseNextKey_false h with heq | heq <;> exact heq ▸ decide_eq_false (lt_irrefl _)

theorem parseEnds (it : BlockIter) : ParseEnds it := by
  intro hb
  obtain ⟨_, _, _, _, -, -, -, heq⟩ := parseNextKey_true hb
  rw [heq]
  exact advanceRestart_ends _ (by omega)

/-- A position that is none. -/
theorem done_of_invalid {log : List Access} (hf : Frame contents restarts num it)
    (hv : it.valid = false) (hlog : ∀ i, .restart i ∈ log → i < num) :
    Done contents restarts num log it where
  frame := hf
  indexed h := by rw [hv] at h; cases h
  points := hlog
  region _ h := by rw [hv] at h; cases h

section

variable (hs : Shape contents restarts num)
include hs

theorem Shape.region : (contents.take restarts).length = restarts := by
  have := hs.array
  rw [List.length_take]
  omega

/-- **A parse goes forward**: the next entry begins three bytes later at least, and
    not after the restart array, wrapped or not. -/
theorem parseNextKey_progress (hf : Frame contents restarts num it) (hb : it.parseNextKey.1 = true) :
    it.nextEntryOffset + 3 ≤ it.parseNextKey.2.nextEntryOffset
      ∧ it.parseNextKey.2.nextEntryOffset ≤ restarts := by
  obtain ⟨shared, nonShared, valueLength, rest, hlt, hentry, -, heq⟩ := parseNextKey_true hb
  obtain ⟨hheader, hsum⟩ := decodeEntry_eq_some.mp hentry
  have hlen := (decodeHeader_bounds hheader).1
  have hregion : (it.data.take it.restarts).length = restarts := by
    rw [hf.data, hf.limit, hs.region]
  have hnext : it.parseNextKey.2.nextEntryOffset
      = (restarts - rest.length + nonShared + valueLength) % 2 ^ 32 := by
    rw [heq, ← hregion]
    rfl
  rw [List.length_drop, hregion] at hlen
  rw [hf.limit] at hlt
  rw [hnext]
  have := hs.small
  have := hs.array
  omega

theorem parseNextKey_inRegion (hf : Frame contents restarts num it) (hb : it.parseNextKey.1 = true)
    (hwrap : (Access.entry it.nextEntryOffset).NoWrap contents restarts) :
    InRegion it.parseNextKey.2 := by
  intro _
  obtain ⟨shared, nonShared, valueLength, rest, hlt, hentry, -, heq⟩ := parseNextKey_true hb
  have harray := hs.array
  have hsmall := hs.small
  have hin := (entry_inside_iff (by omega) (by omega) _).mpr hwrap
  rw [hf.data, hf.limit] at hentry
  have hle := hin _ _ _ _ hentry
  have hlen := (decodeHeader_bounds (decodeEntry_eq_some.mp hentry).1).1
  rw [List.length_drop, hs.region] at hlen
  rw [heq]
  simp only [hf.data, hf.limit, hs.region]
  omega

omit hs in
theorem parseNextKey_indexed (hidx : it.restartIndex < it.numRestarts)
    (hb : it.parseNextKey.1 = true) :
    it.parseNextKey.2.restartIndex < it.parseNextKey.2.numRestarts := by
  obtain ⟨_, _, _, _, -, -, -, heq⟩ := parseNextKey_true hb
  rw [heq]
  exact advanceRestart_lt _ hidx

omit hs in
/-- More accesses to restart points do not matter. -/
theorem Done.append {log before : List Access} (h : Done contents restarts num log it)
    (hbefore : ∀ i, .restart i ∈ before → i < num) :
    Done contents restarts num (before ++ log) it where
  frame := h.frame
  indexed := h.indexed
  points i hi := (List.mem_append.mp hi).elim (hbefore i) (h.points i)
  region hwrap := h.region fun a ha => hwrap a (List.mem_append_right _ ha)

omit hs in
theorem Done.cons {log : List Access} (h : Done contents restarts num log it) {index : Nat}
    (hindex : index < num) : Done contents restarts num (.restart index :: log) it := by
  show Done contents restarts num ([.restart index] ++ log) it
  refine h.append fun i hi => ?_
  cases List.mem_singleton.mp hi
  exact hindex

/-- One parse, as the accesses and the position after them. -/
theorem parseNextKey_done (hf : Frame contents restarts num it)
    (hidx : it.restartIndex < it.numRestarts) :
    Done contents restarts num (parseLog it) it.parseNextKey.2 := by
  have hlog : ∀ i, .restart i ∈ parseLog it → i < num := fun i hi =>
    hf.count ▸ restart_mem_parseLog hi
  rcases hb : it.parseNextKey.1 with _ | _
  · exact done_of_invalid hf.parseNextKey (parseNextKey_invalid hb) hlog
  · obtain ⟨_, _, _, _, hlt, -, -, -⟩ := parseNextKey_true hb
    exact ⟨hf.parseNextKey, fun _ => parseNextKey_indexed hidx hb, hlog, fun hwrap =>
      parseNextKey_inRegion hs hf hb (hwrap _ (entry_mem_parseLog hlt))⟩

/-- **The loops over entries end**, and leave the iterator at an entry of the region
    or at none. -/
theorem parseWhile_done (goOn : BlockIter → Prop) [DecidablePred goOn] (fuel : Nat) :
    ∀ {it : BlockIter}, Frame contents restarts num it → it.restartIndex < it.numRestarts →
      0 < fuel → restarts < it.nextEntryOffset + fuel →
      Parses goOn it (parseWhile goOn fuel it)
        ∧ Done contents restarts num (parseWhileLog goOn fuel it) (parseWhile goOn fuel it) := by
  induction fuel with
  | zero =>
    intro it _ _ hpos
    exact absurd hpos (lt_irrefl 0)
  | succ fuel ih =>
    intro it hf hidx _ hlt
    rw [parseWhile, parseWhileLog]
    have hf' := hf.parseNextKey
    by_cases hgo : it.parseNextKey.1 = true ∧ goOn it.parseNextKey.2
    · rw [if_pos hgo, if_pos hgo]
      have hprog := parseNextKey_progress hs hf hgo.1
      obtain ⟨hends, hdone⟩ := ih hf' (parseNextKey_indexed hidx hgo.1) (by omega)
        (by omega)
      exact ⟨.more (parseEnds it) hgo.1 hgo.2 hends,
        hdone.append fun i hi => hf.count ▸ restart_mem_parseLog hi⟩
    · rw [if_neg hgo, if_neg hgo, List.append_nil]
      exact ⟨.stop (parseEnds it) hgo, parseNextKey_done hs hf hidx⟩

/-- The loops of the calls have rounds enough. -/
theorem parseWhile_done_of_seek (goOn : BlockIter → Prop) [DecidablePred goOn]
    (hf : Frame contents restarts num it) (hidx : it.restartIndex < it.numRestarts) :
    Parses goOn it (parseWhile goOn (restarts + 1) it)
      ∧ Done contents restarts num (parseWhileLog goOn (restarts + 1) it)
          (parseWhile goOn (restarts + 1) it) :=
  parseWhile_done hs goOn _ hf hidx (Nat.succ_pos _) (by omega)

end

theorem parses_once (it : BlockIter) : Parses (fun _ => False) it it.parseNextKey.2 :=
  .stop (parseEnds it) fun h => h.2

theorem mem_beforeLog {original i : Nat} (index : Nat) :
    .restart i ∈ beforeLog it original index → i ≤ index := by
  induction index with
  | zero =>
    intro h
    cases List.mem_singleton.mp h
    exact Nat.le_refl 0
  | succ index ih =>
    intro h
    rw [beforeLog] at h
    rcases List.mem_cons.mp h with heq | h
    · cases heq
      exact Nat.le_refl _
    · split_ifs at h
      · exact Nat.le_succ_of_le (ih h)
      · cases h

theorem restartBefore_le {original l : Nat} (index : Nat) :
    it.restartBefore original index = some l → l ≤ index := by
  induction index with
  | zero =>
    intro h
    rw [BlockIter.restartBefore] at h
    split_ifs at h
    cases h
    exact Nat.le_refl 0
  | succ index ih =>
    intro h
    rw [BlockIter.restartBefore] at h
    split_ifs at h
    · exact Nat.le_succ_of_le (ih h)
    · cases h
      exact Nat.le_refl _

/-- **The binary search ends**, reads restart points only, and stops at one. -/
theorem searchRestarts_ends {cmp : Comparator} {target : Slice} (fuel : Nat) :
    ∀ {left right : Nat}, left ≤ right → right - left < fuel →
      Searches cmp it target left right (it.searchRestarts cmp target fuel left right)
        ∧ (∀ i, .restart i ∈ searchLog it cmp target fuel left right → i ≤ right)
        ∧ ∀ l, it.searchRestarts cmp target fuel left right = some l → l ≤ right := by
  induction fuel with
  | zero => intro left right _ hlt; omega
  | succ fuel ih =>
    intro left right hle hlt
    rw [BlockIter.searchRestarts, searchLog]
    by_cases hgo : left < right
    · simp only [if_pos hgo]
      have hcons : ∀ {log : List Access}, (∀ i, .restart i ∈ log → i ≤ right) → ∀ i,
          .restart i ∈ .restart ((left + right + 1) / 2)
            :: .entry (it.getRestartPoint ((left + right + 1) / 2)) :: log → i ≤ right := by
        intro log hlog i hi
        simp only [List.mem_cons, Access.restart.injEq, reduceCtorEq, false_or] at hi
        rcases hi with rfl | hi
        · omega
        · exact hlog i hi
      have hnil : ∀ i, Access.restart i ∈ [] → i ≤ right := fun _ h => absurd h List.not_mem_nil
      rcases hd : decodeEntry ((it.data.take it.restarts).drop
          (it.getRestartPoint ((left + right + 1) / 2))) with
        _ | ⟨shared, nonShared, valueLength, rest⟩
      · refine ⟨.bad hgo fun _ _ _ h => ?_, hcons hnil, fun l h => by cases h⟩
        rw [hd] at h
        cases h
      · simp only
        by_cases hshared : shared ≠ 0
        · simp only [if_pos hshared]
          refine ⟨.bad hgo fun _ _ _ h => ?_, hcons hnil, fun l h => by cases h⟩
          rw [hd] at h
          cases h
          exact hshared rfl
        · simp only [if_neg hshared]
          obtain rfl : shared = 0 := not_not.mp hshared
          split_ifs with hcmp
          · obtain ⟨h1, h2, h3⟩ := @ih ((left + right + 1) / 2) right (by omega) (by omega)
            exact ⟨.up hgo hd hcmp h1, hcons h2, h3⟩
          · obtain ⟨h1, h2, h3⟩ := @ih left ((left + right + 1) / 2 - 1) (by omega) (by omega)
            have hdown : (left + right + 1) / 2 - 1 ≤ right := by omega
            exact ⟨.down hgo hd hcmp h1, hcons fun i hi => le_trans (h2 i hi) hdown,
              fun l hl => le_trans (h3 l hl) hdown⟩
    · simp only [if_neg hgo]
      refine ⟨.stop hgo, nofun, fun l hl => ?_⟩
      cases hl
      exact hle

/-! ## The calls -/

/-- What a call does to the iterator of a block. -/
def callOn (cmp : Comparator) : Call Slice → BlockIter → BlockIter
  | .seekToFirst, it => it.seekToFirst
  | .seekToLast, it => it.seekToLast
  | .seek target, it => it.seek cmp target
  | .next, it => it.next
  | .prev, it => it.prev

theorem corruptionError_invalid (it : BlockIter) : it.corruptionError.valid = false :=
  decide_eq_false (lt_irrefl _)

theorem Frame.corruptionError (h : Frame contents restarts num it) :
    Frame contents restarts num it.corruptionError := { h with }

section

variable (hs : Shape contents restarts num) (hf : Frame contents restarts num it)
include hs hf

/-- Where the binary search of `Seek` runs. -/
theorem seekStart_bounds (hidx : Indexed it) {cmp : Comparator} {target : Slice}
    {compared : Ordering} {left right : Nat}
    (h : seekStart cmp target it = some (compared, left, right)) :
    left ≤ right ∧ right < num ∧ (compared = .lt → it.restartIndex < it.numRestarts) := by
  have hpos := hs.some_
  have hcount := hf.count
  rw [seekStart] at h
  split_ifs at h with hv
  · have hlt := hidx hv
    split at h <;> cases h
    all_goals exact ⟨by omega, by omega, fun _ => hlt⟩
  · cases h
    exact ⟨by omega, by omega, nofun⟩

theorem seek_done (hidx : Indexed it) (hreg : InRegion it) (cmp : Comparator) (target : Slice) :
    CallEnds cmp (.seek target) it (it.seek cmp target)
      ∧ Done contents restarts num (seekLog cmp target it) (it.seek cmp target) := by
  rw [seek_eq, seekLog]
  rcases hstart : seekStart cmp target it with _ | ⟨compared, left, right⟩
  · exact ⟨Or.inl ⟨hstart, rfl⟩, hf, hidx, nofun, fun _ => hreg⟩
  · obtain ⟨hle, hright, hcur⟩ := seekStart_bounds hs hf hidx hstart
    have hcount := hf.count
    obtain ⟨hsearch, hpoints, hstop⟩ := @searchRestarts_ends it cmp target it.numRestarts left right
      hle (by omega)
    simp only [seekBetween_eq]
    cases hres : it.searchRestarts cmp target it.numRestarts left right with
    | none =>
      rw [hres] at hsearch
      refine ⟨Or.inr ⟨compared, left, right, none, hstart, hsearch, Or.inl ⟨rfl, rfl⟩⟩, ?_⟩
      refine done_of_invalid hf.corruptionError (corruptionError_invalid it) fun i hi => ?_
      rw [List.append_nil] at hi
      have := hpoints i hi
      omega
    | some l =>
      rw [hres] at hsearch
      have hl := hstop l hres
      simp only [hf.limit]
      -- the linear search starts at the current entry or at a restart point
      have hscan : Frame contents restarts num (scanStart it compared l)
          ∧ (scanStart it compared l).restartIndex < (scanStart it compared l).numRestarts := by
        rw [scanStart]
        split_ifs with hskip
        · exact ⟨hf, hcur hskip.2⟩
        · exact ⟨hf.seekToRestartPoint l, by rw [(hf.seekToRestartPoint l).count]; show l < num; omega⟩
      obtain ⟨hends, hdone⟩ := parseWhile_done_of_seek hs
        (fun r => cmp.compare r.key target = .lt) hscan.1 hscan.2
      refine ⟨Or.inr ⟨compared, left, right, some l, hstart, hsearch,
        Or.inr ⟨l, rfl, hends⟩⟩, ?_⟩
      refine Done.append (Done.append hdone fun i hi => ?_) fun i hi => ?_
      · split_ifs at hi
        · cases hi
        · cases List.mem_singleton.mp hi
          omega
      · have := hpoints i hi
        omega

theorem prev_done (hidx : it.restartIndex < it.numRestarts) (cmp : Comparator) :
    CallEnds cmp .prev it it.prev ∧ Done contents restarts num (callLog cmp .prev it) it.prev := by
  have hcount := hf.count
  have hbefore : ∀ i, .restart i ∈ beforeLog it it.current it.restartIndex → i < num := by
    intro i hi
    have := mem_beforeLog _ hi
    omega
  rw [BlockIter.prev, callLog]
  cases hres : it.restartBefore it.current it.restartIndex with
  | none =>
    refine ⟨Or.inl ⟨hres, rfl⟩, done_of_invalid { hf with }
      (decide_eq_false (lt_irrefl _)) fun i hi => ?_⟩
    rw [List.append_nil] at hi
    exact hbefore i hi
  | some index =>
    have hle := restartBefore_le _ hres
    simp only [parseUpTo_eq, hf.limit]
    obtain ⟨hends, hdone⟩ := parseWhile_done_of_seek hs
      (fun r => r.nextEntryOffset < it.current) (hf.seekToRestartPoint index)
      (show index < it.numRestarts by omega)
    exact ⟨Or.inr ⟨index, hres, hends⟩, (hdone.cons (by omega)).append hbefore⟩

/-- **Every call ends**, and what it reads of the restart array is there. -/
theorem call_done (hidx : Indexed it) (hreg : InRegion it) (cmp : Comparator) {a : Call Slice}
    (ha : a.Allowed it.valid) :
    CallEnds cmp a it (callOn cmp a it)
      ∧ Done contents restarts num (callLog cmp a it) (callOn cmp a it) := by
  have hcount := hf.count
  have hpos := hs.some_
  cases a with
  | seekToFirst =>
    refine ⟨parses_once _, Done.cons ?_ hpos⟩
    exact parseNextKey_done hs (hf.seekToRestartPoint 0) (show 0 < it.numRestarts by omega)
  | seekToLast =>
    obtain ⟨hends, hdone⟩ := parseWhile_done_of_seek hs
      (fun r => r.nextEntryOffset < it.restarts) (hf.seekToRestartPoint (it.numRestarts - 1))
      (show it.numRestarts - 1 < it.numRestarts by omega)
    have heq : it.seekToLast = parseWhile (fun r => r.nextEntryOffset < it.restarts)
        (restarts + 1) (it.seekToRestartPoint (it.numRestarts - 1)) := by
      rw [BlockIter.seekToLast, parseUpTo_eq, hf.limit]
    rw [callOn, heq, callLog, hf.limit]
    rw [hf.limit] at hends hdone
    refine ⟨?_, hdone.cons (by omega)⟩
    show Parses (fun r => r.nextEntryOffset < it.restarts) _ _
    rw [hf.limit]
    exact hends
  | seek target => exact seek_done hs hf hidx hreg cmp target
  | next => exact ⟨parses_once it, parseNextKey_done hs hf (hidx ha)⟩
  | prev => exact prev_done hs hf (hidx ha) cmp

end

end Calls

/-! ## Runs -/

/-- The accesses of a call; the iterator without entries makes none. -/
def anyLog (cmp : Comparator) (a : Call Slice) : AnyIter → List Access
  | .empty _ => []
  | .block it => callLog cmp a it

/-- The call ends. -/
def AnyEnds (cmp : Comparator) (a : Call Slice) : AnyIter → AnyIter → Prop
  | .empty s, x => x = .empty s
  | .block it, x => ∃ it', CallEnds cmp a it it' ∧ x = .block it'

/-- The iterator is at no entry, or at one inside the region of entries. -/
def AnyInRegion : AnyIter → Prop
  | .empty _ => True
  | .block it => InRegion it

/-- What a call on the iterator of a block of these contents has to be. -/
structure SafeCall (cmp : Comparator) (contents : Slice) (a : Call Slice) (x : AnyIter) : Prop where
  inside : ∀ acc ∈ anyLog cmp a x, acc.Inside contents (Block.new contents).restartOffset
  ends : AnyEnds cmp a x ((iterOps cmp).call a x)
  region : AnyInRegion ((iterOps cmp).call a x)

/-- Every call of the run is safe. -/
def Safe (cmp : Comparator) (contents : Slice) : List (Call Slice) → AnyIter → Prop
  | [], _ => True
  | a :: calls, x => a.Allowed ((iterOps cmp).valid x) →
      SafeCall cmp contents a x ∧ Safe cmp contents calls ((iterOps cmp).call a x)

/-- No entry that a call of the run asks for has lengths that wrap. -/
def Unwrapped (cmp : Comparator) (contents : Slice) : List (Call Slice) → AnyIter → Prop
  | [], _ => True
  | a :: calls, x => a.Allowed ((iterOps cmp).valid x) →
      (∀ acc ∈ anyLog cmp a x, acc.NoWrap contents (Block.new contents).restartOffset)
        ∧ Unwrapped cmp contents calls ((iterOps cmp).call a x)

theorem call_block (cmp : Comparator) (a : Call Slice) (it : BlockIter) :
    (iterOps cmp).call a (.block it) = .block (callOn cmp a it) := by
  cases a <;> rfl

theorem call_empty (cmp : Comparator) (a : Call Slice) (s : Status) :
    (iterOps cmp).call a (.empty s) = .empty s := by
  cases a <;> rfl

theorem restartOffset_lt (contents : Slice) : (Block.new contents).restartOffset < 2 ^ 32
    ∧ (Block.new contents).restartOffset ≤ contents.length := by
  rw [Block.new]
  split_ifs
  · exact ⟨by simp, Nat.zero_le _⟩
  · exact ⟨by simp, Nat.zero_le _⟩
  · refine ⟨Nat.mod_lt _ (by decide), ?_⟩
    exact le_trans (Nat.mod_le _ _) (Nat.sub_le _ _)

/-- What the constructor and `NewIterator` make of contents. -/
theorem newIterator_cases (hsmall : contents.length < 2 ^ 32) :
    (∃ s, (Block.new contents).newIterator = .empty s)
      ∨ ∃ num, Shape contents (Block.new contents).restartOffset num
          ∧ (Block.new contents).newIterator
            = .block (BlockIter.new contents (Block.new contents).restartOffset num) := by
  by_cases hshort : contents.length < 4
  · rw [Block.new, if_pos hshort]
    exact Or.inl ⟨_, rfl⟩
  by_cases harray : (contents.length - 4) / 4 < numRestarts contents
  · rw [Block.new, if_neg hshort, if_pos harray]
    exact Or.inl ⟨_, rfl⟩
  rw [Block.new, if_neg hshort, if_neg harray, Block.newIterator]
  simp only [if_neg hshort]
  by_cases hnum : numRestarts contents = 0
  · rw [if_pos hnum]
    exact Or.inl ⟨_, rfl⟩
  · rw [if_neg hnum]
    refine Or.inr ⟨numRestarts contents, ⟨hsmall, ?_, Nat.pos_of_ne_zero hnum⟩, rfl⟩
    rw [Nat.mod_eq_of_lt (by omega)]
    omega

variable {cmp : Comparator}

theorem unwrapped_of_safe {calls : List (Call Slice)} :
    ∀ {x : AnyIter}, Safe cmp contents calls x → Unwrapped cmp contents calls x := by
  obtain ⟨hsmall, hle⟩ := restartOffset_lt contents
  induction calls with
  | nil => intro x _; trivial
  | cons a calls ih =>
    intro x h ha
    obtain ⟨hcall, hrest⟩ := h ha
    refine ⟨fun acc hacc => ?_, ih hrest⟩
    cases acc with
    | restart index => trivial
    | entry offset => exact (entry_inside_iff hsmall hle offset).mp (hcall.inside _ hacc)

theorem safe_of_unwrapped {num : Nat}
    (hs : Shape contents (Block.new contents).restartOffset num) {calls : List (Call Slice)} :
    ∀ {it : BlockIter}, Frame contents (Block.new contents).restartOffset num it → Indexed it →
      InRegion it → Unwrapped cmp contents calls (.block it) → Safe cmp contents calls (.block it) := by
  obtain ⟨hsmall, hle⟩ := restartOffset_lt contents
  induction calls with
  | nil => intro it _ _ _ _; trivial
  | cons a calls ih =>
    intro it hf hidx hreg h ha
    obtain ⟨hwrap, hrest⟩ := h ha
    obtain ⟨hends, hdone⟩ := call_done hs hf hidx hreg cmp ha
    rw [call_block] at hrest ⊢
    have hreg' := hdone.region hwrap
    refine ⟨⟨fun acc hacc => ?_, ?_, ?_⟩, ih hdone.frame hdone.indexed hreg' hrest⟩
    · cases acc with
      | restart index =>
        have := hdone.points index hacc
        have := hs.array
        show _ + index * 4 + 4 ≤ _
        omega
      | entry offset => exact (entry_inside_iff hsmall hle offset).mpr (hwrap _ hacc)
    · rw [call_block]
      exact ⟨_, hends, rfl⟩
    · rw [call_block]
      exact hreg'

theorem safe_empty {s : Status} (calls : List (Call Slice)) :
    Safe cmp contents calls (.empty s) := by
  induction calls with
  | nil => trivial
  | cons a calls ih =>
    intro _
    rw [call_empty]
    refine ⟨⟨nofun, ?_, ?_⟩, ih⟩
    · exact call_empty cmp a s
    · rw [call_empty]
      trivial

/-- **Iterating over arbitrary contents is safe exactly while no lengths wrap.**  For
    every comparator, all contents below 2^32 bytes and every sequence of calls. -/
theorem block_safe_iff (cmp : Comparator) {contents : Slice} (hsmall : contents.length < 2 ^ 32)
    (calls : List (Call Slice)) :
    Safe cmp contents calls (Block.new contents).newIterator
      ↔ Unwrapped cmp contents calls (Block.new contents).newIterator := by
  refine ⟨unwrapped_of_safe, fun h => ?_⟩
  rcases newIterator_cases hsmall with ⟨s, heq⟩ | ⟨num, hs, heq⟩
  · rw [heq]
    exact safe_empty calls
  · rw [heq] at h ⊢
    have hinvalid : (BlockIter.new contents (Block.new contents).restartOffset num).valid = false :=
      decide_eq_false (lt_irrefl _)
    exact safe_of_unwrapped hs ⟨rfl, rfl, rfl⟩ (fun hv => by cases hinvalid.symm.trans hv)
      (fun hv => by cases hinvalid.symm.trans hv) h

/-- A block of one entry, the key `a` with the value `b`. -/
def sampleContents : Slice := [0, 1, 1, 97, 98, 0, 0, 0, 0, 1, 0, 0, 0]

theorem block_safe_iff_sample :
    Safe bytewiseComparator sampleContents [.seekToFirst] (Block.new sampleContents).newIterator
      ∧ (iterOps bytewiseComparator).key ((iterOps bytewiseComparator).call .seekToFirst
          (Block.new sampleContents).newIterator) = [97] := by
  refine ⟨(block_safe_iff bytewiseComparator (by decide) _).mpr fun _ => ⟨fun acc hacc => ?_, trivial⟩,
    by decide +kernel⟩
  have hlog : anyLog bytewiseComparator .seekToFirst (Block.new sampleContents).newIterator
      = [.restart 0, .entry 0] := by decide +kernel
  have hheader : decodeHeader ((sampleContents.take (Block.new sampleContents).restartOffset).drop 0)
      = some (0, 1, 1, [97, 98]) := by decide +kernel
  rw [hlog] at hacc
  rcases List.mem_cons.mp hacc with rfl | hacc
  · trivial
  · rw [List.mem_singleton.mp hacc]
    intro shared nonShared valueLength rest h
    rw [hheader] at h
    cases h
    exact Or.inl (by decide)

/-- An entry whose key is 2^32 - 1 bytes long and whose value has one byte, in a block
    of 15 bytes. -/
def wrappingContents : Slice := [0, 255, 255, 255, 255, 15, 1, 0, 0, 0, 0, 1, 0, 0, 0]

/-- **`DecodeEntry` accepts a key that does not fit in the block.** -/
theorem decodeEntry_leaves_block :
    decodeEntry ((wrappingContents.take (Block.new wrappingContents).restartOffset).drop 0)
        = some (0, 2 ^ 32 - 1, 1, [])
      ∧ (Block.new wrappingContents).restartOffset = 7
      ∧ ¬ Safe bytewiseComparator wrappingContents [.seekToFirst] (Block.new wrappingContents).newIterator := by
  have hentry : decodeEntry
      ((wrappingContents.take (Block.new wrappingContents).restartOffset).drop 0)
        = some (0, 2 ^ 32 - 1, 1, []) := by decide +kernel
  have hrestarts : (Block.new wrappingContents).restartOffset = 7 := by decide
  refine ⟨hentry, hrestarts, fun h => ?_⟩
  have hin := (h trivial).1.inside (.entry 0) (by decide +kernel) _ _ _ _ hentry
  rw [hrestarts] at hin
  exact absurd hin (by decide)

end LdbUntrustedBlock
