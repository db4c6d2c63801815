import LevelDB.Block

/-! # How a block is laid out

    The block a `BlockBuilder` writes, as a list of pieces: each entry with the
    number of bytes its key shares with the key before it.  The offset of an entry
    is the size of the pieces before it.  A restart point is the offset of a piece
    that shares nothing.

    * `decodeEntry_encodeEntry`: `DecodeEntry` reads an entry back, whatever follows.
    * `laid_finish`: what `Finish` returns is laid out as the calls of `Add` say. -/

namespace LdbBlock

open LdbFormat LdbCoding LdbComparator

/-! ## One entry -/

/-- The varints of a header one by one; the short form reads the same. -/
def decodeHeader (input : Slice) : Option (Nat × Nat × Nat × Slice) :=
  match getVarint32 input with
  | none => none
  | some (shared, p) =>
    match getVarint32 p with
    | none => none
    | some (nonShared, p) =>
      match getVarint32 p with
      | none => none
      | some (valueLength, p) => some (shared, nonShared, valueLength, p)

theorem getVarint32_short {b : UInt8} (h : b.toNat < 128) (rest : Slice) :
    getVarint32 (b :: rest) = some (b.toNat, rest) := by
  rw [getVarint32, if_pos h]

/-- `DecodeEntry` without its short form. -/
theorem decodeEntry_eq {input : Slice} (h : 3 ≤ input.length) :
    decodeEntry input = match decodeHeader input with
      | none => none
      | some (shared, nonShared, valueLength, p) =>
        if p.length % 2 ^ 32 < (nonShared + valueLength) % 2 ^ 32 then none
        else some (shared, nonShared, valueLength, p) := by
  match input, h with
  | a :: b :: c :: rest, _ =>
    rw [decodeEntry]
    by_cases hshort : (a ||| b ||| c).toNat < 128
    · have hbytes : a.toNat < 128 ∧ b.toNat < 128 ∧ c.toNat < 128 := by
        rw [UInt8.toNat_or, UInt8.toNat_or] at hshort
        refine ⟨?_, ?_, ?_⟩
        · exact lt_of_le_of_lt (le_trans Nat.left_le_or Nat.left_le_or) hshort
        · exact lt_of_le_of_lt (le_trans Nat.right_le_or Nat.left_le_or) hshort
        · exact lt_of_le_of_lt Nat.right_le_or hshort
      have hheader : decodeHeader (a :: b :: c :: rest)
          = some (a.toNat, b.toNat, c.toNat, rest) := by
        simp only [decodeHeader, getVarint32_short hbytes.1, getVarint32_short hbytes.2.1,
          getVarint32_short hbytes.2.2]
      simp only [if_pos hshort, hheader]
    · simp only [if_neg hshort]
      rfl

/-- The varints of a header take three bytes at least and are 32-bit numbers. -/
theorem decodeHeader_bounds {bytes rest : Slice} {shared nonShared valueLength : Nat}
    (h : decodeHeader bytes = some (shared, nonShared, valueLength, rest)) :
    rest.length + 3 ≤ bytes.length ∧ nonShared < 2 ^ 32 ∧ valueLength < 2 ^ 32 := by
  rw [decodeHeader] at h
  rcases h1 : getVarint32 bytes with _ | ⟨v1, p1⟩
  · rw [h1] at h
    cases h
  · simp only [h1] at h
    rcases h2 : getVarint32 p1 with _ | ⟨v2, p2⟩
    · rw [h2] at h
      cases h
    · simp only [h2] at h
      rcases h3 : getVarint32 p2 with _ | ⟨v3, p3⟩
      · rw [h3] at h
        cases h
      · rw [h3] at h
        cases h
        have hl1 := getVarint32_length h1
        have hl2 := getVarint32_length h2
        have hl3 := getVarint32_length h3
        exact ⟨by omega, getVarint32_lt h2, getVarint32_lt h3⟩

/-- What `DecodeEntry` accepts. -/
theorem decodeEntry_eq_some {bytes rest : Slice} {shared nonShared valueLength : Nat} :
    decodeEntry bytes = some (shared, nonShared, valueLength, rest)
      ↔ decodeHeader bytes = some (shared, nonShared, valueLength, rest)
        ∧ (nonShared + valueLength) % 2 ^ 32 ≤ rest.length % 2 ^ 32 := by
  by_cases hlen : 3 ≤ bytes.length
  · rw [decodeEntry_eq hlen]
    rcases hd : decodeHeader bytes with _ | ⟨s', n', v', r'⟩
    · simp
    · simp only
      split_ifs with hlt
      · constructor
        · nofun
        · rintro ⟨h, hle⟩
          cases h
          omega
      · constructor
        · intro h
          cases h
          exact ⟨rfl, by omega⟩
        · rintro ⟨h, -⟩
          exact h
  · constructor
    · intro h
      rcases bytes with _ | ⟨a, _ | ⟨b, _ | ⟨c, bytes⟩⟩⟩
      · cases h
      · cases h
      · cases h
      · exact absurd (by simp) hlen
    · rintro ⟨h, -⟩
      have := (decodeHeader_bounds h).1
      omega

theorem putVarint32_length_pos (v : Nat) : 0 < (putVarint32 v).length := by
  rw [putVarint32]
  split_ifs <;> exact Nat.succ_pos _

/-- Every entry takes three bytes at least. -/
theorem encodeEntry_length (shared : Nat) (key value : Slice) :
    3 + (key.length - shared) + value.length ≤ (encodeEntry shared key value).length := by
  have h1 := putVarint32_length_pos (shared % 2 ^ 32)
  have h2 := putVarint32_length_pos ((key.length - shared) % 2 ^ 32)
  have h3 := putVarint32_length_pos (value.length % 2 ^ 32)
  simp only [encodeEntry, List.length_append, List.length_drop]
  omega

/-- **`DecodeEntry` reads an entry back**, whatever follows it. -/
theorem decodeEntry_encodeEntry {shared : Nat} {key value : Slice} (hkey : key.length < 2 ^ 32)
    (hshared : shared ≤ key.length) (rest : Slice)
    (hlen : (encodeEntry shared key value ++ rest).length < 2 ^ 32) :
    decodeEntry (encodeEntry shared key value ++ rest)
      = some (shared, key.length - shared, value.length, key.drop shared ++ (value ++ rest)) := by
  have hentry := encodeEntry_length shared key value
  rw [List.length_append] at hlen
  have hvalue : value.length < 2 ^ 32 := by omega
  have hheader : decodeHeader (encodeEntry shared key value ++ rest)
      = some (shared, key.length - shared, value.length, key.drop shared ++ (value ++ rest)) := by
    rw [encodeEntry, Nat.mod_eq_of_lt (show shared < 2 ^ 32 by omega),
      Nat.mod_eq_of_lt (show key.length - shared < 2 ^ 32 by omega), Nat.mod_eq_of_lt hvalue]
    simp only [List.append_assoc]
    rw [decodeHeader, getVarint32_putVarint32 _ (by omega)]
    simp only
    rw [getVarint32_putVarint32 _ (by omega)]
    simp only
    rw [getVarint32_putVarint32 _ hvalue]
  have hrest : (key.drop shared ++ (value ++ rest)).length
      = key.length - shared + value.length + rest.length := by
    simp only [List.length_append, List.length_drop]
    omega
  rw [decodeEntry_eq (by rw [List.length_append]; omega), hheader]
  simp only
  rw [if_neg]
  rw [hrest, Nat.mod_eq_of_lt (by omega), Nat.mod_eq_of_lt (by omega)]
  omega

/-! ## Pieces -/

/-- An entry, and how many bytes of its key are omitted. -/
structure Piece where
  shared : Nat
  key : Slice
  value : Slice

def Piece.encode (p : Piece) : Slice := encodeEntry p.shared p.key p.value

/-- The entries of some pieces. -/
def entriesOf (ps : List Piece) : List (Slice × Slice) := ps.map fun p => (p.key, p.value)

/-- The bytes of some pieces. -/
def bytesOf (ps : List Piece) : Slice := ps.flatMap Piece.encode

/-- The key before the next piece. -/
def lastKey (before : Slice) (ps : List Piece) : Slice := (ps.getLast?.map (·.key)).getD before

/-- Each piece omits only what its key shares with the key before it. -/
def Chained : Slice → List Piece → Prop
  | _, [] => True
  | before, p :: ps =>
    p.shared ≤ p.key.length ∧ before.take p.shared = p.key.take p.shared ∧ Chained p.key ps

theorem bytesOf_append (ps qs : List Piece) : bytesOf (ps ++ qs) = bytesOf ps ++ bytesOf qs :=
  List.flatMap_append

theorem bytesOf_cons (p : Piece) (ps : List Piece) : bytesOf (p :: ps) = p.encode ++ bytesOf ps :=
  List.flatMap_cons

theorem lastKey_snoc (before : Slice) (ps : List Piece) (p : Piece) :
    lastKey before (ps ++ [p]) = p.key := by
  rw [lastKey, List.getLast?_concat]
  rfl

theorem lastKey_cons (before : Slice) (p : Piece) (ps : List Piece) :
    lastKey before (p :: ps) = lastKey p.key ps := by
  cases ps with
  | nil => rfl
  | cons q qs =>
    rw [lastKey, List.getLast?_cons_cons, lastKey, List.getLast?_cons]
    rfl

theorem chained_snoc {p : Piece} (ps : List Piece) :
    ∀ {before : Slice}, Chained before ps → p.shared ≤ p.key.length →
      (lastKey before ps).take p.shared = p.key.take p.shared → Chained before (ps ++ [p]) := by
  induction ps with
  | nil =>
    intro before _ hle htake
    exact ⟨hle, htake, trivial⟩
  | cons q qs ih =>
    intro before hc hle htake
    rw [lastKey_cons] at htake
    exact ⟨hc.1, hc.2.1, ih hc.2.2 hle htake⟩

/-- A run of pieces goes on as a run from any of them. -/
theorem chained_drop (ps : List Piece) :
    ∀ {before : Slice} (i : Nat), Chained before ps →
      Chained (lastKey before (ps.take i)) (ps.drop i) := by
  induction ps with
  | nil => intro before i _; rw [List.drop_nil]; trivial
  | cons q qs ih =>
    intro before i hc
    cases i with
    | zero => exact hc
    | succ i =>
      rw [List.take_succ_cons, lastKey_cons, List.drop_succ_cons]
      exact ih i hc.2.2

/-- Keys are no longer than what is stored of them. -/
theorem key_length_le (ps : List Piece) :
    ∀ {before : Slice}, Chained before ps → ∀ p ∈ ps,
      p.key.length ≤ before.length + (bytesOf ps).length := by
  induction ps with
  | nil => intro before _ p hp; cases hp
  | cons q qs ih =>
    intro before hc p hp
    have hq : q.key.length ≤ before.length + q.encode.length := by
      have hentry := encodeEntry_length q.shared q.key q.value
      have htake := congrArg List.length hc.2.1
      rw [List.length_take, List.length_take] at htake
      rw [Piece.encode]
      omega
    rw [bytesOf_cons, List.length_append]
    rcases List.mem_cons.mp hp with rfl | hp
    · omega
    · have := ih hc.2.2 p hp
      omega

/-- The offset of entry number `i`. -/
def offsetOf (ps : List Piece) (i : Nat) : Nat := (bytesOf (ps.take i)).length

theorem offsetOf_zero (ps : List Piece) : offsetOf ps 0 = 0 := rfl

theorem offsetOf_length (ps : List Piece) : offsetOf ps ps.length = (bytesOf ps).length := by
  rw [offsetOf, List.take_length]

variable {i : Nat}

theorem offsetOf_succ {ps : List Piece} {p : Piece} (hp : ps[i]? = some p) :
    offsetOf ps (i + 1) = offsetOf ps i + p.encode.length := by
  rw [offsetOf, List.take_add_one, hp, Option.toList_some, bytesOf_append, List.length_append,
    offsetOf]
  simp [bytesOf]

theorem offsetOf_succ_lt {ps : List Piece} (hi : i < ps.length) :
    offsetOf ps i + 3 ≤ offsetOf ps (i + 1) := by
  obtain ⟨p, hp⟩ : ∃ p, ps[i]? = some p := ⟨_, List.getElem?_eq_getElem hi⟩
  have := encodeEntry_length p.shared p.key p.value
  rw [offsetOf_succ hp, Piece.encode]
  omega

theorem offsetOf_mono {ps : List Piece} {j : Nat} (hij : i ≤ j) (hj : j ≤ ps.length) :
    offsetOf ps i + 3 * (j - i) ≤ offsetOf ps j := by
  induction j with
  | zero =>
    rw [Nat.le_zero.mp hij]
    omega
  | succ j ih =>
    rcases Nat.eq_or_lt_of_le hij with rfl | hlt
    · omega
    · have := ih (by omega) (by omega)
      have := offsetOf_succ_lt (show j < ps.length by omega)
      omega

theorem offsetOf_lt_iff {ps : List Piece} {j : Nat} (hi : i ≤ ps.length) (hj : j ≤ ps.length) :
    offsetOf ps i < offsetOf ps j ↔ i < j := by
  constructor
  · intro h
    by_contra hge
    have := offsetOf_mono (Nat.le_of_not_lt hge) hi
    omega
  · intro h
    have := offsetOf_mono (Nat.le_of_lt h) hj
    omega

/-- The bytes from an entry on. -/
theorem bytesOf_drop (ps : List Piece) (i : Nat) :
    (bytesOf ps).drop (offsetOf ps i) = bytesOf (ps.drop i) := by
  conv_lhs => rw [← List.take_append_drop i ps, bytesOf_append]
  rw [offsetOf, List.drop_append_of_le_length (by rw [List.take_append_drop]),
    List.take_append_drop, List.drop_length, List.nil_append]

/-! ## Blocks -/

/-- **A block that is laid out as some pieces**, with the restart array at
    `restarts`: restart point `j` is the offset of entry number `restartAt j`. -/
structure Laid (ps : List Piece) (restartAt : Nat → Nat) (data : Slice) (restarts n : Nat) :
    Prop where
  bytes : data.take restarts = bytesOf ps
  length : restarts = (bytesOf ps).length
  small : data.length < 2 ^ 32
  chained : Chained [] ps
  pos : 0 < n
  point : ∀ j < n, decodeFixed32 (data.drop (restarts + j * 4)) = offsetOf ps (restartAt j)
  first : restartAt 0 = 0
  mono : ∀ i j, i < j → j < n → restartAt i < restartAt j
  inside : ∀ j < n, restartAt j < ps.length ∨ ps = [] ∧ restartAt j = 0
  whole : ∀ j < n, ∀ p, ps[restartAt j]? = some p → p.shared = 0

/-! ## What the builder has written -/

/-- A builder that has written some pieces; `starts` are the entries at its restart
    points. -/
structure Built (b : BlockBuilder) (ps : List Piece) (starts : List Nat) : Prop where
  buffer : b.buffer = bytesOf ps
  lastKey : b.lastKey = lastKey [] ps
  chained : Chained [] ps
  counter : ps = [] → b.counter = 0
  restarts : b.restarts = starts.map fun i => offsetOf ps i % 2 ^ 32
  first : starts.head? = some 0
  sorted : starts.Pairwise (· < ·)
  inside : ∀ i ∈ starts, i < ps.length ∨ ps = [] ∧ i = 0
  whole : ∀ i ∈ starts, ∀ p, ps[i]? = some p → p.shared = 0

theorem built_new : Built BlockBuilder.new [] [0] where
  buffer := rfl
  lastKey := rfl
  chained := trivial
  counter _ := rfl
  restarts := rfl
  first := rfl
  sorted := List.pairwise_singleton _ _
  inside i hi := Or.inr ⟨rfl, List.mem_singleton.mp hi⟩
  whole i _ p hp := by cases hp

/-- Offsets do not change when a piece is added. -/
theorem offsetOf_snoc {ps : List Piece} (hi : i ≤ ps.length) (p : Piece) :
    offsetOf (ps ++ [p]) i = offsetOf ps i := by
  rw [offsetOf, List.take_append_of_le_length hi, offsetOf]

section Add

variable {b : BlockBuilder} {ps : List Piece} {starts : List Nat}

theorem Built.start_le (h : Built b ps starts) (hi : i ∈ starts) : i ≤ ps.length := by
  rcases h.inside i hi with hlt | ⟨-, rfl⟩
  · exact Nat.le_of_lt hlt
  · exact Nat.zero_le _

/-- The restart points stay where they are when a piece is added. -/
theorem Built.restarts_snoc (h : Built b ps starts) (p : Piece) :
    b.restarts = starts.map fun i => offsetOf (ps ++ [p]) i % 2 ^ 32 := by
  rw [h.restarts]
  refine List.map_congr_left fun i hi => ?_
  rw [offsetOf_snoc (h.start_le hi)]

/-- A restart point stays one: the first entry of a block shares nothing. -/
theorem Built.whole_snoc (h : Built b ps starts) {p : Piece} (hp : ps = [] → p.shared = 0) :
    ∀ i ∈ starts, ∀ q, (ps ++ [p])[i]? = some q → q.shared = 0 := by
  intro i hi q hq
  rcases h.inside i hi with hlt | ⟨hnil, rfl⟩
  · rw [List.getElem?_append_left hlt] at hq
    exact h.whole i hi q hq
  · rw [hnil] at hq
    rw [← Option.some.inj hq]
    exact hp hnil

/-- **`Add` writes one piece.** -/
theorem built_add (h : Built b ps starts) {interval : Nat} (hint : 1 ≤ interval)
    (key value : Slice) :
    ∃ p starts', p.key = key ∧ p.value = value
      ∧ Built (b.add interval key value) (ps ++ [p]) starts' := by
  have hne : ∀ p : Piece, ps ++ [p] ≠ [] := fun p => by simp
  by_cases hcount : b.counter < interval
  · refine ⟨⟨sharedLength b.lastKey key, key, value⟩, starts, rfl, rfl, ?_⟩
    rw [BlockBuilder.add, if_pos hcount]
    refine
      { buffer := ?_, lastKey := ?_, chained := ?_, counter := fun hnil => absurd hnil (hne _),
        restarts := h.restarts_snoc _, first := h.first, sorted := h.sorted, inside := ?_,
        whole := h.whole_snoc ?_ }
    · show b.buffer ++ _ = _
      rw [bytesOf_append, ← h.buffer]
      simp [bytesOf, Piece.encode]
    · show b.lastKey.take _ ++ key.drop _ = _
      rw [lastKey_snoc, take_sharedLength, List.take_append_drop]
    · refine chained_snoc ps h.chained (sharedLength_le_right _ _) ?_
      rw [← h.lastKey]
      exact take_sharedLength _ _
    · intro i hi
      have := h.start_le hi
      rw [List.length_append, List.length_singleton]
      exact Or.inl (by omega)
    · intro hnil
      show sharedLength b.lastKey key = 0
      rw [h.lastKey, hnil]
      rfl
  · -- the builder is not empty here, so the new restart point is a new offset
    have hps : ps ≠ [] := fun hnil => hcount (by rw [h.counter hnil]; exact hint)
    refine ⟨⟨0, key, value⟩, starts ++ [ps.length], rfl, rfl, ?_⟩
    rw [BlockBuilder.add, if_neg hcount]
    refine
      { buffer := ?_, lastKey := ?_, chained := chained_snoc ps h.chained (Nat.zero_le _) rfl,
        counter := fun hnil => absurd hnil (hne _), restarts := ?_, first := ?_, sorted := ?_,
        inside := ?_, whole := ?_ }
    · show b.buffer ++ _ = _
      rw [bytesOf_append, ← h.buffer]
      simp [bytesOf, Piece.encode]
    · rw [lastKey_snoc]
      rfl
    · show b.restarts ++ [b.buffer.length % 2 ^ 32] = _
      rw [List.map_append, ← h.restarts_snoc, h.buffer, List.map_singleton,
        offsetOf_snoc (Nat.le_refl _), offsetOf_length]
    · rw [List.head?_append, h.first]
      rfl
    · refine List.pairwise_append.mpr ⟨h.sorted, List.pairwise_singleton _ _, fun i hi j hj => ?_⟩
      rw [List.mem_singleton.mp hj]
      exact (h.inside i hi).resolve_right fun hnil => hps hnil.1
    · intro i hi
      rw [List.length_append, List.length_singleton]
      rcases List.mem_append.mp hi with hi | hi
      · have := h.start_le hi
        exact Or.inl (by omega)
      · rw [List.mem_singleton.mp hi]
        exact Or.inl (Nat.lt_succ_self _)
    · intro i hi q hq
      rcases List.mem_append.mp hi with hi | hi
      · exact h.whole_snoc (fun hnil => absurd hnil hps) i hi q hq
      · rw [List.mem_singleton.mp hi, List.getElem?_append_right (Nat.le_refl _), Nat.sub_self] at hq
        rw [← Option.some.inj hq]

end Add

/-- The builder after some calls of `Add`. -/
theorem built_addAll {interval : Nat} (hint : 1 ≤ interval) (es : List (Slice × Slice)) :
    ∀ {b : BlockBuilder} {ps : List Piece} {starts : List Nat}, Built b ps starts →
      ∃ qs starts', entriesOf qs = es ∧ Built (b.addAll interval es) (ps ++ qs) starts' := by
  induction es with
  | nil =>
    intro b ps starts h
    exact ⟨[], starts, rfl, (List.append_nil ps).symm ▸ h⟩
  | cons e es ih =>
    intro b ps starts h
    obtain ⟨p, starts₁, hk, hv, h₁⟩ := built_add h hint e.1 e.2
    obtain ⟨qs, starts₂, hes, h₂⟩ := ih h₁
    refine ⟨p :: qs, starts₂, ?_, ?_⟩
    · rw [← hes, entriesOf, List.map_cons, hk, hv]
      rfl
    · rw [List.append_assoc] at h₂
      exact h₂

/-! ## The finished block -/

/-- The restart array, from one of its entries on. -/
theorem drop_restarts (rs : List Nat) (rest : Slice) :
    ∀ j r, rs[j]? = some r →
      ∃ more, (rs.flatMap encodeFixed32 ++ rest).drop (j * 4) = encodeFixed32 r ++ more := by
  induction rs with
  | nil => intro j r hj; cases hj
  | cons a rs ih =>
    intro j r hj
    rw [List.flatMap_cons]
    cases j with
    | zero =>
      rw [List.getElem?_cons_zero] at hj
      rw [← Option.some.inj hj]
      exact ⟨rs.flatMap encodeFixed32 ++ rest, by simp⟩
    | succ j =>
      rw [List.getElem?_cons_succ] at hj
      obtain ⟨more, hmore⟩ := ih j r hj
      refine ⟨more, ?_⟩
      rw [← hmore, List.append_assoc, Nat.succ_mul, Nat.add_comm, ← List.drop_drop]
      rfl

theorem flatMap_encodeFixed32_length (rs : List Nat) :
    (rs.flatMap encodeFixed32).length = rs.length * 4 := by
  induction rs with
  | nil => rfl
  | cons a rs ih =>
    rw [List.flatMap_cons, List.length_append, ih, encodeFixed32_length, List.length_cons]
    omega

/-- **`Block` finds the restart array of a finished block**, which is laid out as
    its pieces. -/
theorem laid_finish {b : BlockBuilder} {ps : List Piece} {starts : List Nat} (h : Built b ps starts)
    (hsmall : b.finish.length < 2 ^ 32) :
    Block.new b.finish = ⟨b.finish, b.finish.length, b.buffer.length⟩
      ∧ numRestarts b.finish = starts.length
      ∧ Laid ps (fun j => starts[j]?.getD 0) b.finish b.buffer.length starts.length := by
  have hlenr : b.restarts.length = starts.length := by rw [h.restarts, List.length_map]
  have hlen : b.finish.length = b.buffer.length + starts.length * 4 + 4 := by
    rw [BlockBuilder.finish, List.length_append, List.length_append,
      flatMap_encodeFixed32_length, encodeFixed32_length, hlenr]
  have hpos : 0 < starts.length := by
    cases hs : starts with
    | nil =>
      have := h.first
      rw [hs] at this
      cases this
    | cons => exact Nat.succ_pos _
  have hnum : numRestarts b.finish = starts.length := by
    rw [numRestarts, hlen, Nat.add_sub_cancel, BlockBuilder.finish]
    have hdrop : (b.buffer ++ b.restarts.flatMap encodeFixed32).length
        = b.buffer.length + starts.length * 4 := by
      rw [List.length_append, flatMap_encodeFixed32_length, hlenr]
    rw [← hdrop, List.drop_left, hlenr, ← List.append_nil (encodeFixed32 _)]
    exact decodeFixed32_encodeFixed32 _ (by omega) []
  refine ⟨?_, hnum, ?_⟩
  · rw [Block.new, if_neg (by omega), hnum, if_neg (by omega)]
    congr 1
    rw [Nat.mod_eq_of_lt (by omega)]
    omega
  · have hmem : ∀ j < starts.length, starts[j]?.getD 0 ∈ starts := fun j hj => by
      rw [List.getElem?_eq_getElem hj]
      exact List.getElem_mem hj
    refine
      { bytes := ?_, length := by rw [h.buffer], small := hsmall, chained := h.chained, pos := hpos,
        point := ?_, first := ?_, mono := ?_, inside := ?_,
        whole := fun j hj => h.whole _ (hmem j hj) }
    · rw [BlockBuilder.finish, List.append_assoc, List.take_left, h.buffer]
    · intro j hj
      have hstart : b.restarts[j]? = some (offsetOf ps (starts[j]?.getD 0) % 2 ^ 32) := by
        rw [h.restarts, List.getElem?_map, List.getElem?_eq_getElem hj]
        rfl
      obtain ⟨more, hmore⟩ := drop_restarts b.restarts (encodeFixed32 b.restarts.length) j _ hstart
      rw [BlockBuilder.finish, List.append_assoc, ← List.drop_drop, List.drop_left, hmore,
        decodeFixed32_encodeFixed32 _ (Nat.mod_lt _ (by decide)), Nat.mod_eq_of_lt]
      have hle := offsetOf_mono (h.start_le (hmem j hj)) (Nat.le_refl _)
      rw [offsetOf_length, ← h.buffer] at hle
      omega
    · show starts[0]?.getD 0 = 0
      rw [← List.head?_eq_getElem?, h.first]
      rfl
    · intro i j hij hj
      show starts[i]?.getD 0 < starts[j]?.getD 0
      rw [List.getElem?_eq_getElem hj, List.getElem?_eq_getElem (by omega)]
      exact List.pairwise_iff_getElem.mp h.sorted i j (by omega) hj hij
    · intro j hj
      exact h.inside _ (hmem j hj)

end LdbBlock
