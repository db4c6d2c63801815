import Mathlib.Data.Nat.Bitwise
import LevelDB.Format

/-! # Byte encodings of integers and strings

    `util/coding.{h,cc}`: fixed-width little-endian integers, base-128 varints
    and length-prefixed slices.  Integers are natural numbers; where the source
    narrows one to 32 or 64 bits the remainder is taken explicitly. -/

namespace LdbCoding

open LdbFormat

/-! ## Fixed-width integers -/

/-- The lowest byte of `v`, as `static_cast<uint8_t>` takes it. -/
def lowByte (v : Nat) : UInt8 := UInt8.ofNat v

/-- `EncodeFixed32`. -/
def encodeFixed32 (v : Nat) : Slice :=
  [lowByte v, lowByte (v >>> 8), lowByte (v >>> 16), lowByte (v >>> 24)]

/-- `EncodeFixed64`. -/
def encodeFixed64 (v : Nat) : Slice :=
  [lowByte v, lowByte (v >>> 8), lowByte (v >>> 16), lowByte (v >>> 24),
    lowByte (v >>> 32), lowByte (v >>> 40), lowByte (v >>> 48), lowByte (v >>> 56)]

/-- Little-endian value of a byte string: the shifted bytes occupy disjoint bits,
    so their disjunction is their sum. -/
def littleEndian : Slice → Nat
  | [] => 0
  | b :: rest => b.toNat + 256 * littleEndian rest

/-- `DecodeFixed32`: the first four bytes. -/
def decodeFixed32 (s : Slice) : Nat := littleEndian (s.take 4)

/-- `DecodeFixed64`: the first eight bytes. -/
def decodeFixed64 (s : Slice) : Nat := littleEndian (s.take 8)

@[simp] theorem lowByte_toNat (v : Nat) : (lowByte v).toNat = v % 256 := by
  rw [lowByte, UInt8.toNat_ofNat']

@[simp] theorem encodeFixed32_length (v : Nat) : (encodeFixed32 v).length = 4 := rfl

@[simp] theorem encodeFixed64_length (v : Nat) : (encodeFixed64 v).length = 8 := rfl

theorem decodeFixed32_encodeFixed32 (v : Nat) (h : v < 2 ^ 32) (rest : Slice) :
    decodeFixed32 (encodeFixed32 v ++ rest) = v := by
  simp only [decodeFixed32, encodeFixed32, List.cons_append, List.nil_append, List.take_succ_cons,
    List.take_zero, littleEndian, lowByte_toNat, Nat.shiftRight_eq_div_pow]
  omega

theorem decodeFixed64_encodeFixed64 (v : Nat) (h : v < 2 ^ 64) (rest : Slice) :
    decodeFixed64 (encodeFixed64 v ++ rest) = v := by
  simp only [decodeFixed64, encodeFixed64, List.cons_append, List.nil_append, List.take_succ_cons,
    List.take_zero, littleEndian, lowByte_toNat, Nat.shiftRight_eq_div_pow]
  omega

/-! ## Varints -/

/-- A byte of a varint that another one follows: seven bits and the flag. -/
def moreByte (v : Nat) : UInt8 := lowByte (v ||| 128)

/-- `EncodeVarint32`, one branch per length. -/
def putVarint32 (v : Nat) : Slice :=
  if v < 2 ^ 7 then [lowByte v]
  else if v < 2 ^ 14 then [moreByte v, lowByte (v >>> 7)]
  else if v < 2 ^ 21 then [moreByte v, moreByte (v >>> 7), lowByte (v >>> 14)]
  else if v < 2 ^ 28 then
    [moreByte v, moreByte (v >>> 7), moreByte (v >>> 14), lowByte (v >>> 21)]
  else [moreByte v, moreByte (v >>> 7), moreByte (v >>> 14), moreByte (v >>> 21),
    lowByte (v >>> 28)]

/-- The loop of `EncodeVarint64`; a 64-bit value leaves it after ten bytes. -/
def putVarintLoop : Nat → Nat → Slice
  | 0, v => [lowByte v]
  | n + 1, v => if 128 ≤ v then moreByte v :: putVarintLoop n (v >>> 7) else [lowByte v]

/-- `PutVarint64`. -/
def putVarint64 (v : Nat) : Slice := putVarintLoop 9 v

/-- The loop of `GetVarint32PtrFallback` and `GetVarint64Ptr`: at most `n` more
    bytes, the next one shifted by `shift`, in `width`-bit arithmetic. -/
def getVarintLoop (width : Nat) : Nat → Nat → Nat → Slice → Option (Nat × Slice)
  | 0, _, _, _ => none
  | _ + 1, _, _, [] => none
  | n + 1, shift, result, b :: rest =>
    if 128 ≤ b.toNat then
      getVarintLoop width n (shift + 7) (result ||| ((b.toNat % 128) <<< shift) % 2 ^ width) rest
    else some (result ||| (b.toNat <<< shift) % 2 ^ width, rest)

/-- `GetVarint32`: a one-byte value is read at once, any other by the loop over
    the shifts 0, 7, .., 28. -/
def getVarint32 : Slice → Option (Nat × Slice)
  | b :: rest => if b.toNat < 128 then some (b.toNat, rest) else
      getVarintLoop 32 5 0 0 (b :: rest)
  | [] => none

/-- `GetVarint64`: the loop over the shifts 0, 7, .., 63. -/
def getVarint64 (input : Slice) : Option (Nat × Slice) := getVarintLoop 64 10 0 0 input

theorem moreByte_toNat (v : Nat) : (moreByte v).toNat = v % 128 + 128 := by
  have hbyte : ∀ x < 256, x ||| 128 = x % 128 + 128 := by decide +kernel
  have hmod : v % 256 < 256 := Nat.mod_lt _ (by decide)
  rw [moreByte, lowByte_toNat, show (256 : Nat) = 2 ^ 8 from rfl, Nat.or_mod_two_pow,
    show (128 : Nat) % 2 ^ 8 = 128 from rfl, show (2 : Nat) ^ 8 = 256 from rfl, hbyte _ hmod]
  omega

/-- Once more: seven bits with the flag, then the varint of the rest. -/
theorem putVarintLoop_succ (n v : Nat) :
    putVarintLoop (n + 1) v
      = if 128 ≤ v then moreByte v :: putVarintLoop n (v >>> 7) else [lowByte v] := rfl

/-- The unrolled 32-bit encoder writes what the 64-bit loop writes. -/
theorem putVarint32_eq (v : Nat) (h : v < 2 ^ 32) : putVarint32 v = putVarintLoop 4 v := by
  simp only [putVarint32, putVarintLoop, Nat.shiftRight_eq_div_pow, Nat.div_div_eq_div_mul,
    Nat.reducePow, Nat.reduceMul]
  by_cases h7 : v < 128
  · rw [if_pos h7, if_neg (show ¬ 128 ≤ v by omega)]
  · rw [if_neg h7, if_pos (show 128 ≤ v by omega)]
    by_cases h14 : v < 16384
    · rw [if_pos h14, if_neg (show ¬ 128 ≤ v / 128 by omega)]
    · rw [if_neg h14, if_pos (show 128 ≤ v / 128 by omega)]
      by_cases h21 : v < 2097152
      · rw [if_pos h21, if_neg (show ¬ 128 ≤ v / 16384 by omega)]
      · rw [if_neg h21, if_pos (show 128 ≤ v / 16384 by omega)]
        by_cases h28 : v < 268435456
        · rw [if_pos h28, if_neg (show ¬ 128 ≤ v / 2097152 by omega)]
        · rw [if_neg h28, if_pos (show 128 ≤ v / 2097152 by omega)]

/-- A varint of at most `n` bytes and the number it stands for: seven bits in each byte,
    lowest first, and the flag on all bytes but the last. -/
inductive Varint : Nat → Slice → Nat → Prop where
  | last {n : Nat} {b : UInt8} : b.toNat < 128 → Varint (n + 1) [b] b.toNat
  | more {n x : Nat} {b : UInt8} {s : Slice} :
      128 ≤ b.toNat → Varint n s x → Varint (n + 1) (b :: s) (b.toNat % 128 + 128 * x)

theorem Varint.length_pos {n x : Nat} {s : Slice} (h : Varint n s x) : 0 < s.length := by
  cases h with
  | last _ => exact Nat.succ_pos _
  | more _ _ => exact Nat.succ_pos _

theorem Varint.length_le {n x : Nat} {s : Slice} (h : Varint n s x) : s.length ≤ n := by
  induction h with
  | last _ => exact Nat.succ_le_succ (Nat.zero_le _)
  | more _ _ ih => exact Nat.succ_le_succ ih

/-- The encoding loop writes a varint. -/
theorem varint_putVarintLoop (n : Nat) :
    ∀ v < 128 ^ (n + 1), Varint (n + 1) (putVarintLoop n v) v := by
  have hlast : ∀ m v, v < 128 → Varint (m + 1) [lowByte v] v := by
    intro m v hv
    have hbyte : (lowByte v).toNat = v := by
      rw [lowByte_toNat]
      omega
    have h : Varint (m + 1) [lowByte v] (lowByte v).toNat := .last (by omega)
    rwa [hbyte] at h
  induction n with
  | zero => exact fun v hv => hlast 0 v (by omega)
  | succ n ih =>
    intro v hv
    rw [putVarintLoop_succ]
    split_ifs with h128
    · have hbyte := moreByte_toNat v
      have hdiv : v >>> 7 = v / 128 := Nat.shiftRight_eq_div_pow v 7
      have h := Varint.more (b := moreByte v) (by omega)
        (ih (v >>> 7) (by rw [hdiv]; rw [Nat.pow_succ] at hv; omega))
      rwa [hdiv, hbyte, show (v % 128 + 128) % 128 + 128 * (v / 128) = v by omega, ← hdiv] at h
    · exact hlast _ v (by omega)

/-- Seven bits and the bits above them. -/
theorem or_sevenBits {a : Nat} (ha : a < 128) (x shift width : Nat) :
    (a <<< shift) % 2 ^ width ||| (x <<< (shift + 7)) % 2 ^ width
      = ((a + 128 * x) <<< shift) % 2 ^ width := by
  have hsum : a + 128 * x = a ||| x <<< 7 := by
    rw [Nat.or_comm, ← Nat.shiftLeft_add_eq_or_of_lt ha, Nat.shiftLeft_eq]
    omega
  rw [hsum, ← Nat.or_mod_two_pow, Nat.shiftLeft_or_distrib, ← Nat.shiftLeft_add,
    Nat.add_comm 7 shift]

/-- **The decoding loop accepts a varint and nothing else**, whatever follows. -/
theorem getVarintLoop_eq_some_iff {width : Nat} (n : Nat) :
    ∀ {shift result v : Nat} {input rest : Slice},
      getVarintLoop width n shift result input = some (v, rest) ↔
        ∃ s x, Varint n s x ∧ input = s ++ rest ∧ v = result ||| (x <<< shift) % 2 ^ width := by
  induction n with
  | zero =>
    intro shift result v input rest
    exact ⟨nofun, fun ⟨_, _, h, _⟩ => (by cases h)⟩
  | succ n ih =>
    intro shift result v input rest
    cases input with
    | nil =>
      refine ⟨nofun, fun ⟨s, x, h, heq, _⟩ => ?_⟩
      rw [(List.append_eq_nil_iff.mp heq.symm).1] at h
      exact absurd h.length_pos (lt_irrefl 0)
    | cons b input =>
      rw [getVarintLoop]
      constructor
      · intro h
        split_ifs at h with hb
        · obtain ⟨s, x, hs, rfl, rfl⟩ := ih.mp h
          refine ⟨b :: s, _, .more hb hs, rfl, ?_⟩
          rw [Nat.or_assoc, or_sevenBits (Nat.mod_lt _ (by decide))]
        · cases h
          exact ⟨[b], _, .last (by omega), rfl, rfl⟩
      · rintro ⟨s, x, hs, heq, rfl⟩
        cases hs with
        | last hb =>
          cases heq
          rw [if_neg (by omega)]
          rfl
        | more hb hs =>
          cases heq
          rw [if_pos hb, ih]
          refine ⟨_, _, hs, rfl, ?_⟩
          rw [Nat.or_assoc, or_sevenBits (Nat.mod_lt _ (by decide))]

/-- The fast path of `GetVarint32` does what the loop does. -/
theorem getVarint32_eq (input : Slice) : getVarint32 input = getVarintLoop 32 5 0 0 input := by
  cases input with
  | nil => rfl
  | cons b rest =>
    rw [getVarint32]
    split_ifs with hb
    · rw [getVarintLoop, if_neg (by omega), Nat.zero_or, Nat.shiftLeft_zero,
        Nat.mod_eq_of_lt (by omega)]
    · rfl

variable {v : Nat}

theorem getVarint32_eq_some_iff {input rest : Slice} :
    getVarint32 input = some (v, rest) ↔
      ∃ s x, Varint 5 s x ∧ input = s ++ rest ∧ v = x % 2 ^ 32 := by
  rw [getVarint32_eq, getVarintLoop_eq_some_iff]
  simp only [Nat.shiftLeft_zero, Nat.zero_or]

theorem getVarint64_eq_some_iff {input rest : Slice} :
    getVarint64 input = some (v, rest) ↔
      ∃ s x, Varint 10 s x ∧ input = s ++ rest ∧ v = x % 2 ^ 64 := by
  rw [getVarint64, getVarintLoop_eq_some_iff]
  simp only [Nat.shiftLeft_zero, Nat.zero_or]

/-- **`GetVarint32` undoes `PutVarint32`**, whatever follows. -/
theorem getVarint32_putVarint32 (v : Nat) (h : v < 2 ^ 32) (rest : Slice) :
    getVarint32 (putVarint32 v ++ rest) = some (v, rest) := by
  rw [putVarint32_eq v h]
  exact getVarint32_eq_some_iff.mpr
    ⟨_, v, varint_putVarintLoop 4 v (by omega), rfl, (Nat.mod_eq_of_lt h).symm⟩

/-- **`GetVarint64` undoes `PutVarint64`**, whatever follows. -/
theorem getVarint64_putVarint64 (v : Nat) (h : v < 2 ^ 64) (rest : Slice) :
    getVarint64 (putVarint64 v ++ rest) = some (v, rest) :=
  getVarint64_eq_some_iff.mpr
    ⟨_, v, varint_putVarintLoop 9 v (by omega), rfl, (Nat.mod_eq_of_lt h).symm⟩

theorem getVarint32_lt {input rest : Slice} (h : getVarint32 input = some (v, rest)) :
    v < 2 ^ 32 := by
  obtain ⟨s, x, -, -, rfl⟩ := getVarint32_eq_some_iff.mp h
  exact Nat.mod_lt _ (Nat.two_pow_pos 32)

theorem getVarint64_lt {input rest : Slice} (h : getVarint64 input = some (v, rest)) :
    v < 2 ^ 64 := by
  obtain ⟨s, x, -, -, rfl⟩ := getVarint64_eq_some_iff.mp h
  exact Nat.mod_lt _ (Nat.two_pow_pos 64)

theorem getVarint32_length {input rest : Slice}
    (h : getVarint32 input = some (v, rest)) : rest.length < input.length := by
  obtain ⟨s, x, hs, rfl, -⟩ := getVarint32_eq_some_iff.mp h
  have := hs.length_pos
  rw [List.length_append]
  omega

/-! ## Length-prefixed slices -/

/-- `PutLengthPrefixedSlice`; the length is narrowed to 32 bits. -/
def putLengthPrefixedSlice (value : Slice) : Slice :=
  putVarint32 (value.length % 2 ^ 32) ++ value

/-- `GetLengthPrefixedSlice`. -/
def getLengthPrefixedSlice (input : Slice) : Option (Slice × Slice) :=
  match getVarint32 input with
  | none => none
  | some (len, rest) => if len ≤ rest.length then some (rest.take len, rest.drop len) else none

/-- The bytes of a string, with its length before it. -/
def StringBytes (s value : Slice) : Prop :=
  ∃ p x, Varint 5 p x ∧ s = p ++ value ∧ value.length = x % 2 ^ 32

/-- **`GetLengthPrefixedSlice` accepts a length and as many bytes, and nothing else.** -/
theorem getLengthPrefixedSlice_eq_some_iff {value input rest : Slice} :
    getLengthPrefixedSlice input = some (value, rest) ↔
      ∃ s, input = s ++ rest ∧ StringBytes s value := by
  rw [getLengthPrefixedSlice]
  constructor
  · intro h
    rcases hv : getVarint32 input with _ | ⟨len, after⟩
    · rw [hv] at h
      cases h
    · obtain ⟨p, x, hp, rfl, rfl⟩ := getVarint32_eq_some_iff.mp hv
      rw [hv] at h
      simp only at h
      split_ifs at h with hle
      cases h
      refine ⟨p ++ after.take _, ?_, p, x, hp, rfl, List.length_take_of_le hle⟩
      rw [List.append_assoc, List.take_append_drop]
  · rintro ⟨s, rfl, p, x, hp, rfl, hlen⟩
    rw [List.append_assoc, getVarint32_eq_some_iff.mpr ⟨p, x, hp, rfl, hlen⟩]
    have hle : value.length ≤ (value ++ rest).length := by
      rw [List.length_append]
      omega
    simp only [if_pos hle, List.take_left, List.drop_left]

/-- `GetLengthPrefixedSlice` undoes `PutLengthPrefixedSlice`, whatever follows. -/
theorem getLengthPrefixedSlice_put (value : Slice) (h : value.length < 2 ^ 32) (rest : Slice) :
    getLengthPrefixedSlice (putLengthPrefixedSlice value ++ rest) = some (value, rest) := by
  rw [putLengthPrefixedSlice, Nat.mod_eq_of_lt h, putVarint32_eq _ h]
  exact getLengthPrefixedSlice_eq_some_iff.mpr
    ⟨_, rfl, _, _, varint_putVarintLoop 4 _ (by omega), rfl, (Nat.mod_eq_of_lt h).symm⟩

/-! ## Exact codecs -/

/-- The loop of `VarintLength`; a 64-bit value leaves it after nine rounds. -/
def varintLengthLoop : Nat → Nat → Nat → Nat
  | 0, _, len => len
  | n + 1, v, len => if 128 ≤ v then varintLengthLoop n (v >>> 7) (len + 1) else len

/-- `VarintLength`. -/
def varintLength (v : Nat) : Nat := varintLengthLoop 9 v 1

/-- One more round of the encoder than the value needs changes nothing. -/
theorem putVarintLoop_add (k n : Nat) :
    ∀ v < 128 ^ (n + 1), putVarintLoop (n + k) v = putVarintLoop n v := by
  induction n with
  | zero =>
    intro v hv
    cases k with
    | zero => rfl
    | succ k => rw [Nat.zero_add, putVarintLoop_succ, if_neg (by omega)]; rfl
  | succ n ih =>
    intro v hv
    rw [Nat.add_right_comm, putVarintLoop_succ, putVarintLoop_succ, ih]
    rw [Nat.shiftRight_eq_div_pow]
    rw [Nat.pow_succ] at hv
    omega

theorem varintLengthLoop_len (n : Nat) :
    ∀ v len, varintLengthLoop n v (len + 1) = varintLengthLoop n v len + 1 := by
  induction n with
  | zero => intro v len; rfl
  | succ n ih =>
    intro v len
    rw [varintLengthLoop, varintLengthLoop]
    split_ifs
    · exact ih _ _
    · rfl

/-- Both loops run the same rounds. -/
theorem length_putVarintLoop (n : Nat) : ∀ v, (putVarintLoop n v).length = varintLengthLoop n v 1 := by
  induction n with
  | zero => intro v; rfl
  | succ n ih =>
    intro v
    rw [putVarintLoop, varintLengthLoop]
    split_ifs
    · rw [List.length_cons, ih]
      exact (varintLengthLoop_len n _ 1).symm
    · rfl

/-- **The decoding loop fails** just when no byte it may look at ends a varint. -/
theorem getVarintLoop_eq_none_iff {width : Nat} (n : Nat) :
    ∀ {shift result : Nat} {input : Slice},
      getVarintLoop width n shift result input = none ↔ ∀ b ∈ input.take n, 128 ≤ b.toNat := by
  induction n with
  | zero => intro shift result input; simp [getVarintLoop]
  | succ n ih =>
    intro shift result input
    cases input with
    | nil => simp [getVarintLoop]
    | cons b rest =>
      rw [getVarintLoop, List.take_succ_cons, List.forall_mem_cons]
      split_ifs with hb
      · rw [ih]
        exact ⟨fun h => ⟨hb, h⟩, fun h => h.2⟩
      · exact ⟨nofun, fun h => absurd h.1 hb⟩

/-- **An exact varint codec** of `bits`-bit values in at most `bytes` bytes: the decoder
    undoes the encoder, fails just when no byte it may look at ends a varint, and leaves
    an end of its input. -/
structure ExactVarint (bits bytes : Nat) (put : Nat → Slice)
    (get : Slice → Option (Nat × Slice)) : Prop where
  length : ∀ v < 2 ^ bits, (put v).length = varintLength v
  roundTrip : ∀ v < 2 ^ bits, ∀ rest, get (put v ++ rest) = some (v, rest)
  fails_iff : ∀ input, get input = none ↔ ∀ b ∈ input.take bytes, 128 ≤ b.toNat
  consumes : ∀ input v rest, get input = some (v, rest) →
    ∃ s, input = s ++ rest ∧ 0 < s.length ∧ s.length ≤ bytes

theorem exactVarint32 : ExactVarint 32 5 putVarint32 getVarint32 where
  length v hv := by
    rw [putVarint32_eq v hv, ← putVarintLoop_add 5 4 v (by omega), length_putVarintLoop]
    rfl
  roundTrip v hv := getVarint32_putVarint32 v hv
  fails_iff input := by rw [getVarint32_eq, getVarintLoop_eq_none_iff]
  consumes _ _ _ h := by
    obtain ⟨s, x, hs, heq, -⟩ := getVarint32_eq_some_iff.mp h
    exact ⟨s, heq, hs.length_pos, hs.length_le⟩

theorem exactVarint64 : ExactVarint 64 10 putVarint64 getVarint64 where
  length v _ := length_putVarintLoop 9 v
  roundTrip v hv := getVarint64_putVarint64 v hv
  fails_iff _ := getVarintLoop_eq_none_iff 10
  consumes _ _ _ h := by
    obtain ⟨s, x, hs, heq, -⟩ := getVarint64_eq_some_iff.mp h
    exact ⟨s, heq, hs.length_pos, hs.length_le⟩

/-- `GetLengthPrefixedSlice` fails just when there is no length or too few bytes for it. -/
theorem getLengthPrefixedSlice_eq_none_iff (input : Slice) :
    getLengthPrefixedSlice input = none ↔
      (∀ b ∈ input.take 5, 128 ≤ b.toNat)
        ∨ ∃ len rest, getVarint32 input = some (len, rest) ∧ rest.length < len := by
  rw [← exactVarint32.fails_iff, getLengthPrefixedSlice]
  cases hv : getVarint32 input with
  | none => simp
  | some r =>
    obtain ⟨len, rest⟩ := r
    by_cases hle : len ≤ rest.length
    · simp [hle]
    · simp [hle, Nat.lt_of_not_le hle]

/-- **The codecs are exact.** -/
theorem codecs_exact :
    ExactVarint 32 5 putVarint32 getVarint32 ∧ ExactVarint 64 10 putVarint64 getVarint64
      ∧ (∀ value : Slice, value.length < 2 ^ 32 → ∀ rest,
          getLengthPrefixedSlice (putLengthPrefixedSlice value ++ rest) = some (value, rest))
      ∧ (∀ input, getLengthPrefixedSlice input = none ↔
          (∀ b ∈ input.take 5, 128 ≤ b.toNat)
            ∨ ∃ len rest, getVarint32 input = some (len, rest) ∧ rest.length < len)
      ∧ ∀ input value rest, getLengthPrefixedSlice input = some (value, rest) →
          ∃ s, input = s ++ value ++ rest := by
  refine ⟨exactVarint32, exactVarint64, getLengthPrefixedSlice_put,
    getLengthPrefixedSlice_eq_none_iff, fun input value rest h => ?_⟩
  obtain ⟨s, hs, p, x, -, rfl, -⟩ := getLengthPrefixedSlice_eq_some_iff.mp h
  exact ⟨p, hs⟩

end LdbCoding
