import LevelDB.Coding
import LevelDB.Env
import LevelDB.Table

/-! # Write batches as bytes

    `db/write_batch.cc`: a sequence number (8 bytes), a count (4 bytes) and one
    record for each operation, a tag byte and length-prefixed slices.  A batch is
    what the log stores, so recovery reads it back with `Iterate`. -/

namespace LdbBatch

open LdbFormat LdbCoding LdbEnv LdbTable

/-- `kHeader`. -/
def kHeader : Nat := 12

/-- `WriteBatch::Clear`. -/
def clear : Slice := List.replicate kHeader 0

/-- `WriteBatchInternal::Count`. -/
def count (rep : Slice) : Nat := decodeFixed32 (rep.drop 8)

/-- `WriteBatchInternal::SetCount`. -/
def setCount (rep : Slice) (n : Nat) : Slice := rep.take 8 ++ encodeFixed32 n ++ rep.drop kHeader

/-- `WriteBatchInternal::Sequence`. -/
def sequence (rep : Slice) : Nat := decodeFixed64 rep

/-- `WriteBatchInternal::SetSequence`. -/
def setSequence (rep : Slice) (seq : Nat) : Slice := encodeFixed64 seq ++ rep.drop 8

/-- The record of an operation. -/
def encodeOp : Op → Slice
  | .put key value => lowByte ValueType.value.code ::
      (putLengthPrefixedSlice key ++ putLengthPrefixedSlice value)
  | .delete key => lowByte ValueType.deletion.code :: putLengthPrefixedSlice key
  | .deleteRange startKey endKey => lowByte ValueType.rangeDeletion.code ::
      (putLengthPrefixedSlice startKey ++ putLengthPrefixedSlice endKey)

/-- `WriteBatch::Put`, `Delete` and `DeleteRange`. -/
def record (rep : Slice) (op : Op) : Slice := setCount rep (count rep + 1) ++ encodeOp op

/-- `WriteBatchInternal::Append`. -/
def append (dst src : Slice) : Slice := setCount dst (count dst + count src) ++ src.drop kHeader

/-- Two length-prefixed slices, or the given error. -/
def getTwo (input : Slice) (error : String) (op : Slice → Slice → Op) :
    Except Status (Op × Slice) :=
  match getLengthPrefixedSlice input with
  | none => .error (.corruption error)
  | some (a, input) =>
    match getLengthPrefixedSlice input with
    | none => .error (.corruption error)
    | some (b, input) => .ok (op a b, input)

/-- The body of the loop of `WriteBatch::Iterate`: one operation off the input. -/
def nextOp (tag : UInt8) (input : Slice) : Except Status (Op × Slice) :=
  if tag.toNat = ValueType.value.code then getTwo input "bad WriteBatch Put" .put
  else if tag.toNat = ValueType.deletion.code then
    match getLengthPrefixedSlice input with
    | none => .error (.corruption "bad WriteBatch Delete")
    | some (key, input) => .ok (.delete key, input)
  else if tag.toNat = ValueType.rangeDeletion.code then
    getTwo input "bad WriteBatch DeleteRange" .deleteRange
  else .error (.corruption "unknown WriteBatch tag")

/-- The loop of `WriteBatch::Iterate`, at most `n` times: the operations handed to
    the handler, and how the loop ended.  Every round takes a byte off the
    input. -/
def iterateLoop : Nat → Slice → List Op × Status
  | 0, _ => ([], .ok)
  | _ + 1, [] => ([], .ok)
  | n + 1, tag :: input =>
    match nextOp tag input with
    | .error s => ([], s)
    | .ok (op, input) => (op :: (iterateLoop n input).1, (iterateLoop n input).2)

/-- `WriteBatch::Iterate`. -/
def iterate (rep : Slice) : List Op × Status :=
  if rep.length < kHeader then ([], .corruption "malformed WriteBatch (too small)")
  else
    let (ops, s) := iterateLoop rep.length (rep.drop kHeader)
    if s ≠ .ok then (ops, s)
    else if ops.length % 2 ^ 32 ≠ count rep then (ops, .corruption "WriteBatch has wrong count")
    else (ops, .ok)

/-- `WriteBatchInternal::InsertInto`: what `MemTableInserter` adds, and the
    status. -/
def insertInto (rep : Slice) (m : MemTable) : MemTable × Status :=
  (LdbTable.insertInto (iterate rep).1 (sequence rep) m, (iterate rep).2)

/-- The batch of some operations, with its sequence number set. -/
def batchRep (seq : Nat) (ops : List Op) : Slice :=
  encodeFixed64 seq ++ encodeFixed32 ops.length ++ ops.flatMap encodeOp

/-- The slices of an operation have lengths that 32 bits hold. -/
def FitsOp : Op → Prop
  | .put key value => key.length < 2 ^ 32 ∧ value.length < 2 ^ 32
  | .delete key => key.length < 2 ^ 32
  | .deleteRange startKey endKey => startKey.length < 2 ^ 32 ∧ endKey.length < 2 ^ 32

instance : DecidablePred FitsOp
  | .put _ _ => inferInstanceAs (Decidable (_ ∧ _))
  | .delete _ => inferInstanceAs (Decidable (_ < _))
  | .deleteRange _ _ => inferInstanceAs (Decidable (_ ∧ _))

/-! ## Reading a batch back -/

theorem getTwo_put {a b : Slice} (ha : a.length < 2 ^ 32) (hb : b.length < 2 ^ 32) (rest : Slice)
    (error : String) (op : Slice → Slice → Op) :
    getTwo (putLengthPrefixedSlice a ++ putLengthPrefixedSlice b ++ rest) error op
      = .ok (op a b, rest) := by
  rw [getTwo, List.append_assoc, getLengthPrefixedSlice_put a ha]
  show (match getLengthPrefixedSlice (putLengthPrefixedSlice b ++ rest) with
    | none => _
    | some (b, input) => _) = _
  rw [getLengthPrefixedSlice_put b hb]

/-- One operation is read back. -/
theorem nextOp_encodeOp {op : Op} (h : FitsOp op) (rest : Slice) :
    ∃ tag input, encodeOp op ++ rest = tag :: input ∧ nextOp tag input = .ok (op, rest) := by
  cases op with
  | put key value =>
    refine ⟨_, _, rfl, ?_⟩
    show getTwo _ "bad WriteBatch Put" Op.put = _
    exact getTwo_put h.1 h.2 rest _ _
  | delete key =>
    refine ⟨_, _, rfl, ?_⟩
    show (match getLengthPrefixedSlice (putLengthPrefixedSlice key ++ rest) with
      | none => _
      | some (key, input) => _) = _
    rw [getLengthPrefixedSlice_put key h]
  | deleteRange startKey endKey =>
    refine ⟨_, _, rfl, ?_⟩
    show getTwo _ "bad WriteBatch DeleteRange" Op.deleteRange = _
    exact getTwo_put h.1 h.2 rest _ _

/-- The loop reads all operations back. -/
theorem iterateLoop_encodeOps (ops : List Op) :
    ∀ n, (ops.flatMap encodeOp).length ≤ n → (∀ op ∈ ops, FitsOp op) →
      iterateLoop n (ops.flatMap encodeOp) = (ops, .ok) := by
  induction ops with
  | nil =>
    intro n _ _
    cases n <;> rfl
  | cons op rest ih =>
    intro n hn hfits
    obtain ⟨tag, input, hbytes, hnext⟩ :=
      nextOp_encodeOp (hfits op List.mem_cons_self) (rest.flatMap encodeOp)
    rw [List.flatMap_cons] at hn ⊢
    rw [hbytes] at hn ⊢
    obtain ⟨m, rfl⟩ : ∃ m, n = m + 1 := ⟨n - 1, by rw [List.length_cons] at hn; omega⟩
    have hshort : (rest.flatMap encodeOp).length ≤ m := by
      have hlen := congrArg List.length hbytes
      have hop : 0 < (encodeOp op).length := by cases op <;> exact Nat.succ_pos _
      rw [List.length_append] at hlen
      omega
    rw [iterateLoop, hnext]
    show (op :: (iterateLoop m (rest.flatMap encodeOp)).1, _) = _
    rw [ih m hshort (List.forall_mem_cons.mp hfits).2]

theorem batchRep_length (seq : Nat) (ops : List Op) :
    (batchRep seq ops).length = kHeader + (ops.flatMap encodeOp).length := by
  rw [batchRep, List.length_append, List.length_append]
  rfl

theorem batchRep_drop (seq : Nat) (ops : List Op) :
    (batchRep seq ops).drop kHeader = ops.flatMap encodeOp := rfl

theorem sequence_batchRep {seq : Nat} (h : seq < 2 ^ 64) (ops : List Op) :
    sequence (batchRep seq ops) = seq := by
  rw [sequence, batchRep, List.append_assoc]
  exact decodeFixed64_encodeFixed64 seq h _

/-- A count is kept in 32 bits. -/
theorem encodeFixed32_mod (n : Nat) : encodeFixed32 (n % 2 ^ 32) = encodeFixed32 n := by
  have hbyte : ∀ k ≤ 24, lowByte ((n % 2 ^ 32) >>> k) = lowByte (n >>> k) := by
    intro k hk
    refine UInt8.toNat_inj.mp ?_
    rw [lowByte_toNat, lowByte_toNat, Nat.shiftRight_eq_div_pow, Nat.shiftRight_eq_div_pow,
      show (2 : Nat) ^ 32 = 2 ^ k * 2 ^ (32 - k) by rw [← Nat.pow_add]; congr 1; omega,
      Nat.mod_mul_right_div_self, Nat.mod_mod_of_dvd]
    exact Nat.pow_dvd_pow 2 (show 8 ≤ 32 - k by omega)
  rw [encodeFixed32, encodeFixed32, hbyte 8 (by decide), hbyte 16 (by decide),
    hbyte 24 (by decide)]
  congr 1
  exact hbyte 0 (by decide)

theorem count_batchRep_mod (seq : Nat) (ops : List Op) :
    count (batchRep seq ops) = ops.length % 2 ^ 32 := by
  have h := decodeFixed32_encodeFixed32 (ops.length % 2 ^ 32) (Nat.mod_lt _ (by decide))
    (ops.flatMap encodeOp)
  rw [encodeFixed32_mod] at h
  exact h

theorem count_batchRep (seq : Nat) {ops : List Op} (h : ops.length < 2 ^ 32) :
    count (batchRep seq ops) = ops.length :=
  (count_batchRep_mod seq ops).trans (Nat.mod_eq_of_lt h)

/-- **`Iterate` hands out the operations of a batch**, and succeeds. -/
theorem iterate_batchRep (seq : Nat) {ops : List Op} (hfits : ∀ op ∈ ops, FitsOp op) :
    iterate (batchRep seq ops) = (ops, .ok) := by
  have hloop : iterateLoop (batchRep seq ops).length ((batchRep seq ops).drop kHeader)
      = (ops, .ok) := by
    rw [batchRep_drop]
    refine iterateLoop_encodeOps ops _ ?_ hfits
    rw [batchRep_length]
    omega
  have hsize : ¬ (batchRep seq ops).length < kHeader := by
    rw [batchRep_length]
    omega
  rw [iterate, if_neg hsize, hloop]
  show (if Status.ok ≠ .ok then _ else _) = _
  rw [if_neg (fun h => h rfl), count_batchRep_mod, if_neg (fun h => h rfl)]

/-- A batch is inserted with consecutive sequence numbers. -/
theorem insertInto_batchRep {seq : Nat} (hseq : seq < 2 ^ 64) {ops : List Op}
    (hfits : ∀ op ∈ ops, FitsOp op) (m : MemTable) :
    insertInto (batchRep seq ops) m = (LdbTable.insertInto ops seq m, .ok) := by
  rw [insertInto, iterate_batchRep seq hfits, sequence_batchRep hseq]

/-! ## Batches built by calls -/

/-- `WriteBatchInternal::Contents`. -/
def contents (rep : Slice) : Slice := rep

/-- `WriteBatchInternal::SetContents`: what was there is gone. -/
def setContents (_rep contents : Slice) : Slice := contents

/-- A call on one of any number of batches; `Append` names the other batch. -/
inductive BatchCall where
  | write (batch : Nat) (op : Op)
  | clear (batch : Nat)
  | append (batch source : Nat)

/-- What a call does to the batches. -/
def BatchCall.run (batches : Nat → Slice) : BatchCall → Nat → Slice
  | .write b op => Function.update batches b (record (batches b) op)
  | .clear b => Function.update batches b LdbBatch.clear
  | .append b c => Function.update batches b (LdbBatch.append (batches b) (batches c))

/-- What a call does to the operations recorded since the last `Clear`. -/
def BatchCall.note (ops : Nat → List Op) : BatchCall → Nat → List Op
  | .write b op => Function.update ops b (ops b ++ [op])
  | .clear b => Function.update ops b []
  | .append b c => Function.update ops b (ops b ++ ops c)

/-- The batches after the calls, all new at first. -/
def built (calls : List BatchCall) : Nat → Slice := calls.foldl BatchCall.run fun _ => clear

/-- The operations the calls have recorded. -/
def recorded (calls : List BatchCall) : Nat → List Op := calls.foldl BatchCall.note fun _ => []

/-- A new count in the header. -/
theorem setCount_batchRep (seq : Nat) (ops : List Op) (n : Nat) :
    setCount (batchRep seq ops) n = encodeFixed64 seq ++ encodeFixed32 n ++ ops.flatMap encodeOp := rfl

/-- `Append` is concatenation. -/
theorem append_batchRep (seq seq' : Nat) (ops ops' : List Op) :
    append (batchRep seq ops) (batchRep seq' ops') = batchRep seq (ops ++ ops') := by
  rw [append, setCount_batchRep, count_batchRep_mod, count_batchRep_mod, batchRep_drop, batchRep,
    List.flatMap_append, List.length_append, ← encodeFixed32_mod, ← Nat.add_mod, encodeFixed32_mod]
  simp only [List.append_assoc]

/-- `Put`, `Delete` and `DeleteRange` append one operation. -/
theorem record_batchRep (seq : Nat) (ops : List Op) (op : Op) :
    record (batchRep seq ops) op = batchRep seq (ops ++ [op]) := by
  rw [record, setCount_batchRep, count_batchRep_mod, batchRep, List.flatMap_append,
    List.length_append, ← encodeFixed32_mod, Nat.mod_add_mod, encodeFixed32_mod]
  simp only [List.append_assoc, List.flatMap_singleton, List.length_singleton]

/-- One call keeps every batch the batch of its recorded operations. -/
theorem run_batchRep (ops : Nat → List Op) (call : BatchCall) :
    call.run (batchRep 0 ∘ ops) = batchRep 0 ∘ call.note ops := by
  cases call with
  | write b op =>
    rw [BatchCall.run, BatchCall.note, Function.comp_update, Function.comp_apply, record_batchRep]
  | clear b =>
    rw [BatchCall.run, BatchCall.note, Function.comp_update]
    rfl
  | append b c =>
    rw [BatchCall.run, BatchCall.note, Function.comp_update, Function.comp_apply,
      Function.comp_apply, append_batchRep]

/-- **A batch holds the operations recorded since its last `Clear`.** -/
theorem built_eq (calls : List BatchCall) (b : Nat) :
    built calls b = batchRep 0 (recorded calls b) := by
  have hrun : ∀ ops, calls.foldl BatchCall.run (batchRep 0 ∘ ops)
      = batchRep 0 ∘ calls.foldl BatchCall.note ops := by
    induction calls with
    | nil => exact fun ops => rfl
    | cons call rest ih =>
      intro ops
      rw [List.foldl_cons, List.foldl_cons, run_batchRep, ih]
  have hclear : clear = batchRep 0 [] := by decide
  have hnew : (fun _ : Nat => clear) = batchRep 0 ∘ fun _ => [] := funext fun _ => hclear
  rw [built, hnew, hrun]
  rfl

/-! ## What is accepted -/

/-- The bytes of the record of an operation. -/
def OpBytes (s : Slice) : Op → Prop
  | .put key value => ∃ a b, s = lowByte ValueType.value.code :: (a ++ b)
      ∧ StringBytes a key ∧ StringBytes b value
  | .delete key => ∃ a, s = lowByte ValueType.deletion.code :: a ∧ StringBytes a key
  | .deleteRange startKey endKey => ∃ a b, s = lowByte ValueType.rangeDeletion.code :: (a ++ b)
      ∧ StringBytes a startKey ∧ StringBytes b endKey

/-- The bytes are the records of these operations. -/
inductive Records : Slice → List Op → Prop where
  | nil : Records [] []
  | cons {s rest : Slice} {op : Op} {ops : List Op} :
      OpBytes s op → Records rest ops → Records (s ++ rest) (op :: ops)

theorem nextOp_error {tag : UInt8} {input : Slice} {e : Status} (h : nextOp tag input = .error e) :
    e ≠ .ok := by
  rintro rfl
  simp only [nextOp, getTwo] at h
  split_ifs at h <;> repeat' split at h
  all_goals cases h

theorem getTwo_bytes {input rest : Slice} {error : String} {mk : Slice → Slice → Op} {op : Op}
    (h : getTwo input error mk = .ok (op, rest)) :
    ∃ a b x y, input = a ++ b ++ rest ∧ StringBytes a x ∧ StringBytes b y ∧ op = mk x y := by
  rw [getTwo] at h
  split at h
  · cases h
  · rename_i x after hx
    split at h
    · cases h
    · rename_i y left hy
      cases h
      obtain ⟨a, rfl, ha⟩ := getLengthPrefixedSlice_eq_some_iff.mp hx
      obtain ⟨b, rfl, hb⟩ := getLengthPrefixedSlice_eq_some_iff.mp hy
      exact ⟨a, b, x, y, (List.append_assoc ..).symm, ha, hb, rfl⟩

/-- An operation that is read has a well-formed record. -/
theorem nextOp_bytes {tag : UInt8} {input rest : Slice} {op : Op}
    (h : nextOp tag input = .ok (op, rest)) : ∃ s, tag :: input = s ++ rest ∧ OpBytes s op := by
  have htag : ∀ code : Nat, tag.toNat = code → tag = lowByte code := fun code hc => by
    rw [lowByte, ← hc, UInt8.ofNat_toNat]
  rw [nextOp] at h
  split_ifs at h with hput hdelete hrange
  · obtain ⟨a, b, x, y, rfl, ha, hb, rfl⟩ := getTwo_bytes h
    exact ⟨tag :: (a ++ b), rfl, a, b, by rw [htag _ hput], ha, hb⟩
  · split at h
    · cases h
    · rename_i key after hkey
      cases h
      obtain ⟨a, rfl, ha⟩ := getLengthPrefixedSlice_eq_some_iff.mp hkey
      exact ⟨tag :: a, rfl, a, by rw [htag _ hdelete], ha⟩
  · obtain ⟨a, b, x, y, rfl, ha, hb, rfl⟩ := getTwo_bytes h
    exact ⟨tag :: (a ++ b), rfl, a, b, by rw [htag _ hrange], ha, hb⟩

/-- The loop ends well only behind the last record. -/
theorem iterateLoop_records (n : Nat) :
    ∀ {input : Slice}, input.length ≤ n → (iterateLoop n input).2 = .ok →
      Records input (iterateLoop n input).1 := by
  induction n with
  | zero =>
    intro input hle _
    rw [List.length_eq_zero_iff.mp (Nat.le_zero.mp hle)]
    exact .nil
  | succ n ih =>
    intro input hle h
    cases input with
    | nil => exact .nil
    | cons tag input =>
      rw [iterateLoop] at h ⊢
      split at h
      · rename_i s hs
        exact absurd h (nextOp_error hs)
      · rename_i op rest hop
        obtain ⟨s, heq, hs⟩ := nextOp_bytes hop
        have hlen := congrArg List.length heq
        have hpos : 0 < s.length := by
          cases op with
          | put | deleteRange => obtain ⟨a, b, rfl, -, -⟩ := hs; exact Nat.succ_pos _
          | delete => obtain ⟨a, rfl, -⟩ := hs; exact Nat.succ_pos _
        rw [List.length_append] at hlen
        rw [heq]
        exact .cons hs (ih (by omega) h)

/-- **Bytes that `Iterate` accepts are a header and well-formed records**, and the count
    in the header is theirs, in 32 bits. -/
theorem iterate_records {rep : Slice} (h : (iterate rep).2 = .ok) :
    kHeader ≤ rep.length ∧ Records (rep.drop kHeader) (iterate rep).1
      ∧ (iterate rep).1.length % 2 ^ 32 = count rep := by
  by_cases hshort : rep.length < kHeader
  · rw [iterate, if_pos hshort] at h
    cases h
  · have hrecords := @iterateLoop_records rep.length (rep.drop kHeader)
      (by rw [List.length_drop]; omega)
    rw [iterate, if_neg hshort] at h ⊢
    generalize iterateLoop rep.length (rep.drop kHeader) = r at h hrecords ⊢
    obtain ⟨ops, e⟩ := r
    simp only at h hrecords ⊢
    by_cases hbad : e ≠ .ok
    · rw [if_pos hbad] at h
      exact absurd h hbad
    · rw [if_neg hbad] at h ⊢
      by_cases hcount : ops.length % 2 ^ 32 ≠ count rep
      · rw [if_pos hcount] at h
        cases h
      · rw [if_neg hcount]
        exact ⟨not_lt.mp hshort, hrecords (not_not.mp hbad), not_not.mp hcount⟩

/-- **What a batch replays.**  A batch that calls have built replays the operations they
    have recorded since its last `Clear`, also after its contents have been copied;
    inserted with a sequence number, operation `i` gets that number plus `i`.  Bytes that
    `Iterate` accepts are a header and well-formed records, as many as `Count` says if
    they are fewer than 2^32. -/
theorem batch_replays :
    (∀ (calls : List BatchCall) (b : Nat), (recorded calls b).length < 2 ^ 31 →
        (∀ op ∈ recorded calls b, FitsOp op) →
        iterate (built calls b) = (recorded calls b, .ok)
          ∧ (∀ rep, iterate (setContents rep (contents (built calls b))) = (recorded calls b, .ok))
          ∧ ∀ seq < 2 ^ 64, ∀ m, insertInto (setSequence (built calls b) seq) m
              = (LdbTable.insertInto (recorded calls b) seq m, .ok))
      ∧ ∀ rep, (iterate rep).2 = .ok →
          ∃ header records, rep = header ++ records ∧ header.length = kHeader
            ∧ Records records (iterate rep).1
            ∧ ((iterate rep).1.length < 2 ^ 32 → (iterate rep).1.length = count rep) := by
  refine ⟨fun calls b _ hfits => ?_, fun rep h => ?_⟩
  · rw [built_eq]
    have hiterate := iterate_batchRep 0 hfits
    exact ⟨hiterate, fun _ => hiterate, fun seq hseq m => insertInto_batchRep hseq hfits m⟩
  · obtain ⟨hlen, hrecords, hcount⟩ := iterate_records h
    refine ⟨_, _, (List.take_append_drop kHeader rep).symm, List.length_take_of_le hlen, hrecords,
      fun hlt => ?_⟩
    rw [← hcount, Nat.mod_eq_of_lt hlt]

/-- Two batches, one appended to the other after a `Clear`. -/
def sampleCalls : List BatchCall :=
  [.write 0 (.delete [1]), .clear 0, .write 0 (.put [2] [3]), .write 1 (.deleteRange [4] [5]),
    .append 0 1]

theorem batch_replays_sample :
    iterate (built sampleCalls 0) = ([.put [2] [3], .deleteRange [4] [5]], .ok)
      ∧ ∃ header records, built sampleCalls 0 = header ++ records ∧ header.length = kHeader
          ∧ Records records [.put [2] [3], .deleteRange [4] [5]] := by
  have h := (batch_replays.1 sampleCalls 0 (by decide) (by decide)).1
  obtain ⟨header, records, hrep, hheader, hrecords, -⟩ :=
    batch_replays.2 (built sampleCalls 0) (by rw [h])
  rw [h] at hrecords
  exact ⟨h, header, records, hrep, hheader, hrecords⟩

/-- **A count of zero passes for 2^32 records.** -/
theorem wrapped_count_accepted :
    ∃ rep, (iterate rep).2 = .ok ∧ count rep = 0 ∧ (iterate rep).1.length = 2 ^ 32 := by
  have hlen : (List.replicate (2 ^ 32) (Op.delete [])).length = 2 ^ 32 := List.length_replicate
  have hiterate := @iterate_batchRep 0 (List.replicate (2 ^ 32) (.delete []))
    fun op hop => by rw [List.eq_of_mem_replicate hop]; exact Nat.two_pow_pos 32
  refine ⟨_, by rw [hiterate], ?_, by rw [hiterate, hlen]⟩
  rw [count_batchRep_mod, hlen, Nat.mod_self]

end LdbBatch
