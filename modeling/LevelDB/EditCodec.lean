import LevelDB.Coding
import LevelDB.Env
import LevelDB.VersionEdit

/-! # Version edits as bytes

    `VersionEdit::EncodeTo` and `DecodeFrom` (`db/version_edit.cc`): a sequence of
    tagged fields.  On disk an internal key is a byte string, which is looked at
    only later; `WireEdit` is the edit with its keys in that form. -/

namespace LdbEditCodec

open LdbFormat LdbCoding LdbEnv LdbVersion LdbEdit

/-! ## Internal keys -/

/-- `InternalKey::Encode`: the user key and the packed tag. -/
def encodeKey (k : InternalKey) : Slice := k.userKey ++ encodeFixed64 k.tag

/-- The value type with a code. -/
def valueTypeOf (code : Nat) : ValueType :=
  if code = ValueType.deletion.code then .deletion
  else if code = ValueType.value.code then .value
  else .rangeDeletion

/-- The internal key that bytes hold, as `ParseInternalKey` takes them apart. -/
def parseKey (rep : Slice) : InternalKey :=
  let num := decodeFixed64 (rep.drop (rep.length - 8))
  ⟨rep.take (rep.length - 8), num / 2 ^ 8, valueTypeOf (num % 2 ^ 8)⟩

theorem encodeKey_length (k : InternalKey) : (encodeKey k).length = k.userKey.length + 8 := by
  rw [encodeKey, List.length_append, encodeFixed64_length]

theorem encodeKey_ne_nil (k : InternalKey) : encodeKey k ≠ [] := by
  intro h
  have hlen := congrArg List.length h
  rw [encodeKey_length, List.length_nil] at hlen
  omega

theorem valueTypeOf_code (t : ValueType) : valueTypeOf t.code = t := by
  cases t <;> rfl

/-- A key with a sequence number of 56 bits is read back. -/
theorem parseKey_encodeKey {k : InternalKey} (h : k.sequence ≤ kMaxSequenceNumber) :
    parseKey (encodeKey k) = k := by
  obtain ⟨userKey, sequence, type⟩ := k
  have hseq : sequence ≤ 2 ^ 56 - 1 := h
  have hcode := type.code_lt
  have htag : (⟨userKey, sequence, type⟩ : InternalKey).tag = sequence * 2 ^ 8 + type.code := rfl
  have hlen : (encodeKey ⟨userKey, sequence, type⟩).length - 8 = userKey.length := by
    rw [encodeKey_length]
    show userKey.length + 8 - 8 = userKey.length
    omega
  have hnum : decodeFixed64 ((encodeKey ⟨userKey, sequence, type⟩).drop userKey.length)
      = sequence * 2 ^ 8 + type.code := by
    have hdrop : (encodeKey ⟨userKey, sequence, type⟩).drop userKey.length
        = encodeFixed64 (sequence * 2 ^ 8 + type.code) ++ [] := by
      rw [encodeKey, List.drop_left, htag, List.append_nil]
    rw [hdrop]
    exact decodeFixed64_encodeFixed64 _ (by omega) []
  have htake : (encodeKey ⟨userKey, sequence, type⟩).take userKey.length = userKey := by
    rw [encodeKey, List.take_left]
  rw [parseKey, hlen]
  simp only [hnum, htake]
  rw [show (sequence * 2 ^ 8 + type.code) / 2 ^ 8 = sequence by omega,
    show (sequence * 2 ^ 8 + type.code) % 2 ^ 8 = type.code by omega, valueTypeOf_code]

/-! ## Fields -/

/-- A file as an edit records it. -/
structure WireFile where
  number : Nat
  fileSize : Nat
  smallest : Slice
  largest : Slice
  deriving DecidableEq, Repr

/-- `VersionEdit` with its keys as bytes. -/
structure WireEdit where
  comparator : Option Slice := none
  logNumber : Option Nat := none
  prevLogNumber : Option Nat := none
  nextFileNumber : Option Nat := none
  lastSequence : Option Nat := none
  compactPointers : List (Nat × Slice) := []
  deletedFiles : List (Nat × Nat) := []
  newFiles : List (Nat × WireFile) := []
  deriving DecidableEq, Repr

/-- One tagged field. -/
inductive Field where
  | comparator (name : Slice)
  | logNumber (n : Nat)
  | prevLogNumber (n : Nat)
  | nextFileNumber (n : Nat)
  | lastSequence (n : Nat)
  | compactPointer (level : Nat) (key : Slice)
  | deletedFile (level number : Nat)
  | newFile (level : Nat) (f : WireFile)
  deriving DecidableEq, Repr

/-- `enum Tag`. -/
def Field.tag : Field → Nat
  | .comparator _       => 1
  | .logNumber _        => 2
  | .nextFileNumber _   => 3
  | .lastSequence _     => 4
  | .compactPointer _ _ => 5
  | .deletedFile _ _    => 6
  | .newFile _ _        => 7
  | .prevLogNumber _    => 9

/-- What follows the tag. -/
def Field.body : Field → Slice
  | .comparator name => putLengthPrefixedSlice name
  | .logNumber n => putVarint64 n
  | .prevLogNumber n => putVarint64 n
  | .nextFileNumber n => putVarint64 n
  | .lastSequence n => putVarint64 n
  | .compactPointer level key => putVarint32 level ++ putLengthPrefixedSlice key
  | .deletedFile level number => putVarint32 level ++ putVarint64 number
  | .newFile level f => putVarint32 level ++ (putVarint64 f.number ++ (putVarint64 f.fileSize ++
      (putLengthPrefixedSlice f.smallest ++ putLengthPrefixedSlice f.largest)))

/-- A field with its tag. -/
def Field.encode (f : Field) : Slice := putVarint32 f.tag ++ f.body

/-- The fields of an edit, in the order of `EncodeTo`. -/
def WireEdit.fields (e : WireEdit) : List Field :=
  e.comparator.toList.map .comparator ++ (e.logNumber.toList.map .logNumber
    ++ (e.prevLogNumber.toList.map .prevLogNumber ++ (e.nextFileNumber.toList.map .nextFileNumber
    ++ (e.lastSequence.toList.map .lastSequence
    ++ (e.compactPointers.map (fun p => .compactPointer p.1 p.2)
    ++ (e.deletedFiles.map (fun p => .deletedFile p.1 p.2)
    ++ e.newFiles.map (fun p => .newFile p.1 p.2)))))))

/-- `VersionEdit::EncodeTo`. -/
def WireEdit.encodeTo (e : WireEdit) : Slice := e.fields.flatMap Field.encode

/-- `GetLevel`. -/
def getLevel (input : Slice) : Option (Nat × Slice) :=
  (getVarint32 input).bind fun r => if r.1 < kNumLevels then some r else none

/-- `GetInternalKey`: any bytes but none. -/
def getInternalKey (input : Slice) : Option (Slice × Slice) :=
  (getLengthPrefixedSlice input).bind fun r => if r.1 ≠ [] then some r else none

/-- The `switch` of `DecodeFrom`. -/
def readField (tag : Nat) (input : Slice) : Option (Field × Slice) :=
  match tag with
  | 1 => (getLengthPrefixedSlice input).map fun r => (.comparator r.1, r.2)
  | 2 => (getVarint64 input).map fun r => (.logNumber r.1, r.2)
  | 9 => (getVarint64 input).map fun r => (.prevLogNumber r.1, r.2)
  | 3 => (getVarint64 input).map fun r => (.nextFileNumber r.1, r.2)
  | 4 => (getVarint64 input).map fun r => (.lastSequence r.1, r.2)
  | 5 => (getLevel input).bind fun l => (getInternalKey l.2).map fun k =>
    (.compactPointer l.1 k.1, k.2)
  | 6 => (getLevel input).bind fun l => (getVarint64 l.2).map fun n =>
    (.deletedFile l.1 n.1, n.2)
  | 7 => (getLevel input).bind fun l => (getVarint64 l.2).bind fun n =>
    (getVarint64 n.2).bind fun s => (getInternalKey s.2).bind fun a =>
    (getInternalKey a.2).map fun b => (.newFile l.1 ⟨n.1, s.1, a.1, b.1⟩, b.2)
  | _ => none

/-- `msg` when a field cannot be read. -/
def fieldError : Nat → String
  | 1 => "comparator name"
  | 2 => "log number"
  | 9 => "previous log number"
  | 3 => "next file number"
  | 4 => "last sequence number"
  | 5 => "compaction pointer"
  | 6 => "deleted file"
  | 7 => "new-file entry"
  | _ => "unknown tag"

/-- What a field does to the edit being decoded. -/
def WireEdit.set (e : WireEdit) : Field → WireEdit
  | .comparator name => { e with comparator := some name }
  | .logNumber n => { e with logNumber := some n }
  | .prevLogNumber n => { e with prevLogNumber := some n }
  | .nextFileNumber n => { e with nextFileNumber := some n }
  | .lastSequence n => { e with lastSequence := some n }
  | .compactPointer level key => { e with compactPointers := e.compactPointers ++ [(level, key)] }
  | .deletedFile level number => { e with deletedFiles := insertPair (level, number) e.deletedFiles }
  | .newFile level f => { e with newFiles := e.newFiles ++ [(level, f)] }

/-- The loop of `DecodeFrom`, at most `n` times; every field takes bytes. -/
def decodeLoop : Nat → WireEdit → Slice → WireEdit × Option String
  | 0, e, _ => (e, none)
  | n + 1, e, input =>
    match getVarint32 input with
    | none => (e, if input ≠ [] then some "invalid tag" else none)
    | some (tag, input) =>
      match readField tag input with
      | none => (e, some (fieldError tag))
      | some (f, input) => decodeLoop n (e.set f) input

/-- `VersionEdit::DecodeFrom`. -/
def WireEdit.decodeFrom (src : Slice) : WireEdit × Status :=
  match decodeLoop (src.length + 1) {} src with
  | (e, none) => (e, .ok)
  | (e, some msg) => (e, .corruption ("VersionEdit: " ++ msg))

/-- A loop that stops at a bad field makes `DecodeFrom` fail. -/
theorem WireEdit.decodeFrom_ne_ok {src : Slice}
    (h : (decodeLoop (src.length + 1) {} src).2 ≠ none) : (WireEdit.decodeFrom src).2 ≠ .ok := by
  rw [WireEdit.decodeFrom]
  split
  · rename_i hloop
    rw [hloop] at h
    exact absurd rfl h
  · exact nofun

/-! ## Reading fields back -/

/-- The values of a field are in the range of their types, and it names a level
    and proper keys. -/
def Field.Fits : Field → Prop
  | .comparator name => name.length < 2 ^ 32
  | .logNumber n => n < 2 ^ 64
  | .prevLogNumber n => n < 2 ^ 64
  | .nextFileNumber n => n < 2 ^ 64
  | .lastSequence n => n < 2 ^ 64
  | .compactPointer level key => level < kNumLevels ∧ key ≠ [] ∧ key.length < 2 ^ 32
  | .deletedFile level number => level < kNumLevels ∧ number < 2 ^ 64
  | .newFile level f => level < kNumLevels ∧ f.number < 2 ^ 64 ∧ f.fileSize < 2 ^ 64
      ∧ (f.smallest ≠ [] ∧ f.smallest.length < 2 ^ 32) ∧ f.largest ≠ [] ∧ f.largest.length < 2 ^ 32

theorem getLevel_put {level : Nat} (h : level < kNumLevels) (rest : Slice) :
    getLevel (putVarint32 level ++ rest) = some (level, rest) := by
  have hlt : level < 2 ^ 32 := lt_trans h (by decide)
  rw [getLevel, getVarint32_putVarint32 level hlt, Option.bind_some, if_pos h]

theorem getInternalKey_put {key : Slice} (hne : key ≠ []) (h : key.length < 2 ^ 32)
    (rest : Slice) : getInternalKey (putLengthPrefixedSlice key ++ rest) = some (key, rest) := by
  rw [getInternalKey, getLengthPrefixedSlice_put key h, Option.bind_some, if_pos hne]

/-- **One field is read back**, whatever follows. -/
theorem readField_encode {f : Field} (h : f.Fits) (rest : Slice) :
    readField f.tag (f.body ++ rest) = some (f, rest) := by
  cases f with
  | comparator name =>
    show (getLengthPrefixedSlice (putLengthPrefixedSlice name ++ rest)).map _ = _
    rw [getLengthPrefixedSlice_put name h]
    rfl
  | logNumber n | prevLogNumber n | nextFileNumber n | lastSequence n =>
    show (getVarint64 (putVarint64 n ++ rest)).map _ = _
    rw [getVarint64_putVarint64 n h]
    rfl
  | compactPointer level key =>
    obtain ⟨hlevel, hne, hkey⟩ := h
    show (getLevel (putVarint32 level ++ putLengthPrefixedSlice key ++ rest)).bind _ = _
    rw [List.append_assoc, getLevel_put hlevel, Option.bind_some, getInternalKey_put hne hkey]
    rfl
  | deletedFile level number =>
    obtain ⟨hlevel, hnumber⟩ := h
    show (getLevel (putVarint32 level ++ putVarint64 number ++ rest)).bind _ = _
    rw [List.append_assoc, getLevel_put hlevel, Option.bind_some,
      getVarint64_putVarint64 number hnumber]
    rfl
  | newFile level f =>
    obtain ⟨hlevel, hnumber, hsize, ⟨hne, hkey⟩, hne', hkey'⟩ := h
    show (getLevel (putVarint32 level ++ (putVarint64 f.number ++ (putVarint64 f.fileSize ++
      (putLengthPrefixedSlice f.smallest ++ putLengthPrefixedSlice f.largest))) ++ rest)).bind _ = _
    simp only [List.append_assoc]
    rw [getLevel_put hlevel, Option.bind_some, getVarint64_putVarint64 f.number hnumber,
      Option.bind_some, getVarint64_putVarint64 f.fileSize hsize, Option.bind_some,
      getInternalKey_put hne hkey, Option.bind_some, getInternalKey_put hne' hkey']
    rfl

theorem Field.tag_lt (f : Field) : f.tag < 128 := by
  cases f <;> simp [Field.tag]

theorem Field.encode_length_pos (f : Field) : 0 < f.encode.length := by
  have htag : putVarint32 f.tag = [lowByte f.tag] := if_pos f.tag_lt
  rw [Field.encode, htag]
  exact Nat.succ_pos _

/-- **All fields are read back.** -/
theorem decodeLoop_encode (fs : List Field) :
    ∀ (n : Nat) (e : WireEdit), (∀ f ∈ fs, f.Fits) → (fs.flatMap Field.encode).length < n →
      decodeLoop n e (fs.flatMap Field.encode) = (fs.foldl WireEdit.set e, none) := by
  induction fs with
  | nil =>
    intro n e _ hn
    obtain ⟨m, rfl⟩ : ∃ m, n = m + 1 := ⟨n - 1, by omega⟩
    rfl
  | cons f rest ih =>
    intro n e hfits hn
    rw [List.flatMap_cons, List.length_append] at hn
    obtain ⟨m, rfl⟩ : ∃ m, n = m + 1 := ⟨n - 1, by omega⟩
    have hpos := f.encode_length_pos
    have htag : f.tag < 2 ^ 32 := lt_trans f.tag_lt (by decide)
    rw [List.flatMap_cons, decodeLoop, Field.encode, List.append_assoc,
      getVarint32_putVarint32 f.tag htag]
    simp only [readField_encode (hfits f List.mem_cons_self)]
    exact ih m (e.set f) (List.forall_mem_cons.mp hfits).2 (by omega)

/-- The pairs of a `std::set`, in order. -/
def SortedPairs (ps : List (Nat × Nat)) : Prop := ps.Pairwise fun p q => toLex p < toLex q

theorem insertPair_last {p : Nat × Nat} :
    ∀ {ps : List (Nat × Nat)}, (∀ q ∈ ps, toLex q < toLex p) → insertPair p ps = ps ++ [p] := by
  intro ps
  induction ps with
  | nil =>
    intro _
    rfl
  | cons q rest ih =>
    intro h
    have hq := h q List.mem_cons_self
    have hne : p ≠ q := fun heq => lt_irrefl _ (heq ▸ hq)
    rw [insertPair, if_neg (lt_asymm hq), if_neg hne,
      ih (List.forall_mem_cons.mp h).2, List.cons_append]

/-- Pairs inserted in order come out in order. -/
theorem foldl_insertPair (ps : List (Nat × Nat)) :
    ∀ qs : List (Nat × Nat), SortedPairs (qs ++ ps) →
      ps.foldl (fun l p => insertPair p l) qs = qs ++ ps := by
  induction ps with
  | nil =>
    intro qs _
    rw [List.append_nil]
    rfl
  | cons p rest ih =>
    intro qs h
    have hlt : ∀ q ∈ qs, toLex q < toLex p := fun q hq =>
      (List.pairwise_append.mp h).2.2 q hq p List.mem_cons_self
    rw [List.foldl_cons, insertPair_last hlt, ih (qs ++ [p])]
    · rw [List.append_assoc, List.singleton_append]
    · rw [List.append_assoc, List.singleton_append]
      exact h

/-- Fields of one kind, set one by one. -/
theorem foldl_set {α : Type} (field : α → Field) (put : WireEdit → List α → WireEdit)
    (hnil : ∀ e, put e [] = e) (hcons : ∀ e a l, put (e.set (field a)) l = put e (a :: l))
    (l : List α) : ∀ e, (l.map field).foldl WireEdit.set e = put e l := by
  induction l with
  | nil =>
    intro e
    exact (hnil e).symm
  | cons a l ih =>
    intro e
    rw [List.map_cons, List.foldl_cons, ih, hcons]

/-- Setting the fields of an edit one by one gives the edit. -/
theorem foldl_set_fields {e : WireEdit} (h : SortedPairs e.deletedFiles) :
    e.fields.foldl WireEdit.set {} = e := by
  obtain ⟨comparator, logNumber, prevLogNumber, nextFileNumber, lastSequence, compactPointers,
    deletedFiles, newFiles⟩ := e
  have hpointers := foldl_set (fun p => .compactPointer p.1 p.2)
    (fun e ps => { e with compactPointers := e.compactPointers ++ ps }) (by simp)
    (by simp [WireEdit.set]) compactPointers
  have hdeleted := foldl_set (fun p => .deletedFile p.1 p.2)
    (fun e ps => { e with deletedFiles := ps.foldl (fun l p => insertPair p l) e.deletedFiles })
    (by simp) (by simp [WireEdit.set]) deletedFiles
  have hnew := foldl_set (fun p => .newFile p.1 p.2)
    (fun e ps => { e with newFiles := e.newFiles ++ ps }) (by simp) (by simp [WireEdit.set]) newFiles
  rw [WireEdit.fields]
  simp only [List.foldl_append, hpointers, hdeleted, hnew]
  cases comparator <;> cases logNumber <;> cases prevLogNumber <;> cases nextFileNumber <;>
    cases lastSequence <;>
    simp [WireEdit.set, foldl_insertPair deletedFiles [] h]

/-- **`DecodeFrom` undoes `EncodeTo`.** -/
theorem decodeFrom_encodeTo {e : WireEdit} (hfits : ∀ f ∈ e.fields, f.Fits)
    (hset : SortedPairs e.deletedFiles) : WireEdit.decodeFrom e.encodeTo = (e, .ok) := by
  rw [WireEdit.decodeFrom, WireEdit.encodeTo,
    decodeLoop_encode e.fields _ {} hfits (Nat.lt_succ_self _), foldl_set_fields hset]

/-! ## What is accepted -/

/-- The bytes of a 64-bit number. -/
def NumberBytes (s : Slice) (n : Nat) : Prop := ∃ x, Varint 10 s x ∧ n = x % 2 ^ 64

/-- The bytes of a level the tree has. -/
def LevelBytes (s : Slice) (level : Nat) : Prop :=
  level < kNumLevels ∧ ∃ x, Varint 5 s x ∧ level = x % 2 ^ 32

/-- The bytes of a key, which is not empty. -/
def KeyBytes (s key : Slice) : Prop := key ≠ [] ∧ StringBytes s key

/-- The bytes after the tag of a well-formed field. -/
def Field.Bytes (s : Slice) : Field → Prop
  | .comparator name => StringBytes s name
  | .logNumber n => NumberBytes s n
  | .prevLogNumber n => NumberBytes s n
  | .nextFileNumber n => NumberBytes s n
  | .lastSequence n => NumberBytes s n
  | .compactPointer level key => ∃ a b, s = a ++ b ∧ LevelBytes a level ∧ KeyBytes b key
  | .deletedFile level number => ∃ a b, s = a ++ b ∧ LevelBytes a level ∧ NumberBytes b number
  | .newFile level f => ∃ a b c d e, s = a ++ (b ++ (c ++ (d ++ e))) ∧ LevelBytes a level
      ∧ NumberBytes b f.number ∧ NumberBytes c f.fileSize ∧ KeyBytes d f.smallest
      ∧ KeyBytes e f.largest

/-- The bytes are these fields, each after its tag. -/
inductive Tagged : Slice → List Field → Prop where
  | nil : Tagged [] []
  | cons {t body rest : Slice} {x : Nat} {f : Field} {fs : List Field} :
      Varint 5 t x → x % 2 ^ 32 = f.tag → f.Bytes body → Tagged rest fs →
      Tagged (t ++ (body ++ rest)) (f :: fs)

section Accepted

variable {input rest : Slice}

theorem getVarint64_bytes {n : Nat} (h : getVarint64 input = some (n, rest)) :
    ∃ s, input = s ++ rest ∧ NumberBytes s n := by
  obtain ⟨s, x, hs, heq, hn⟩ := getVarint64_eq_some_iff.mp h
  exact ⟨s, heq, x, hs, hn⟩

theorem getLevel_bytes {level : Nat} (h : getLevel input = some (level, rest)) :
    ∃ s, input = s ++ rest ∧ LevelBytes s level := by
  obtain ⟨r, hr, hlevel⟩ := Option.bind_eq_some_iff.mp h
  split_ifs at hlevel with hlt
  cases hlevel
  obtain ⟨s, x, hs, heq, hv⟩ := getVarint32_eq_some_iff.mp hr
  exact ⟨s, heq, hlt, x, hs, hv⟩

theorem getInternalKey_bytes {key : Slice} (h : getInternalKey input = some (key, rest)) :
    ∃ s, input = s ++ rest ∧ KeyBytes s key := by
  obtain ⟨r, hr, hkey⟩ := Option.bind_eq_some_iff.mp h
  split_ifs at hkey with hne
  cases hkey
  obtain ⟨s, heq, hs⟩ := getLengthPrefixedSlice_eq_some_iff.mp hr
  exact ⟨s, heq, hne, hs⟩

/-- **One field that is read is well formed.** -/
theorem readField_bytes {tag : Nat} {f : Field} (h : readField tag input = some (f, rest)) :
    tag = f.tag ∧ ∃ s, input = s ++ rest ∧ f.Bytes s := by
  rw [readField.eq_def] at h
  split at h
  · obtain ⟨⟨name, _⟩, hr, heq⟩ := Option.map_eq_some_iff.mp h
    cases heq
    exact ⟨rfl, getLengthPrefixedSlice_eq_some_iff.mp hr⟩
  iterate 4
    · obtain ⟨⟨n, _⟩, hr, heq⟩ := Option.map_eq_some_iff.mp h
      cases heq
      exact ⟨rfl, getVarint64_bytes hr⟩
  · obtain ⟨⟨level, _⟩, hl, h⟩ := Option.bind_eq_some_iff.mp h
    obtain ⟨⟨key, _⟩, hk, heq⟩ := Option.map_eq_some_iff.mp h
    cases heq
    obtain ⟨a, rfl, ha⟩ := getLevel_bytes hl
    obtain ⟨b, rfl, hb⟩ := getInternalKey_bytes hk
    exact ⟨rfl, a ++ b, (List.append_assoc ..).symm, a, b, rfl, ha, hb⟩
  · obtain ⟨⟨level, _⟩, hl, h⟩ := Option.bind_eq_some_iff.mp h
    obtain ⟨⟨number, _⟩, hn, heq⟩ := Option.map_eq_some_iff.mp h
    cases heq
    obtain ⟨a, rfl, ha⟩ := getLevel_bytes hl
    obtain ⟨b, rfl, hb⟩ := getVarint64_bytes hn
    exact ⟨rfl, a ++ b, (List.append_assoc ..).symm, a, b, rfl, ha, hb⟩
  · obtain ⟨⟨level, _⟩, hl, h⟩ := Option.bind_eq_some_iff.mp h
    obtain ⟨⟨number, _⟩, hn, h⟩ := Option.bind_eq_some_iff.mp h
    obtain ⟨⟨fileSize, _⟩, hs, h⟩ := Option.bind_eq_some_iff.mp h
    obtain ⟨⟨smallest, _⟩, hk, h⟩ := Option.bind_eq_some_iff.mp h
    obtain ⟨⟨largest, _⟩, hk', heq⟩ := Option.map_eq_some_iff.mp h
    cases heq
    obtain ⟨a, rfl, ha⟩ := getLevel_bytes hl
    obtain ⟨b, rfl, hb⟩ := getVarint64_bytes hn
    obtain ⟨c, rfl, hc⟩ := getVarint64_bytes hs
    obtain ⟨d, rfl, hd⟩ := getInternalKey_bytes hk
    obtain ⟨e, rfl, he⟩ := getInternalKey_bytes hk'
    refine ⟨rfl, a ++ (b ++ (c ++ (d ++ e))), ?_, a, b, c, d, e, rfl, ha, hb, hc, hd, he⟩
    simp only [List.append_assoc]
  · cases h

/-- The loop stops without a message only behind the last field. -/
theorem decodeLoop_tagged (n : Nat) :
    ∀ {e e' : WireEdit} {input : Slice}, input.length < n → decodeLoop n e input = (e', none) →
      ∃ fs, Tagged input fs ∧ e' = fs.foldl WireEdit.set e := by
  induction n with
  | zero => exact fun hlt _ => absurd hlt (Nat.not_lt_zero _)
  | succ n ih =>
    intro e e' input hlt h
    rw [decodeLoop] at h
    split at h
    · by_cases hnil : input = []
      · rw [if_neg (not_not.mpr hnil)] at h
        cases h
        exact ⟨[], hnil ▸ .nil, rfl⟩
      · rw [if_pos hnil] at h
        cases h
    · rename_i tag after htag
      split at h
      · cases h
      · rename_i f left hfield
        obtain ⟨t, x, ht, rfl, hx⟩ := getVarint32_eq_some_iff.mp htag
        obtain ⟨rfl, body, rfl, hbody⟩ := readField_bytes hfield
        have hpos := ht.length_pos
        rw [List.length_append, List.length_append] at hlt
        obtain ⟨fs, hfs, rfl⟩ := ih (by omega) h
        exact ⟨f :: fs, .cons ht hx.symm hbody hfs, rfl⟩

end Accepted

/-- **The codec of version edits.**  An edit whose values fit is decoded as it was
    encoded; and bytes that decode are well-formed tagged fields and nothing else, the
    edit being what they set. -/
theorem edit_codec :
    (∀ e : WireEdit, (∀ f ∈ e.fields, f.Fits) → SortedPairs e.deletedFiles →
        WireEdit.decodeFrom e.encodeTo = (e, .ok))
      ∧ ∀ src : Slice, (WireEdit.decodeFrom src).2 = .ok →
          ∃ fs, Tagged src fs ∧ (WireEdit.decodeFrom src).1 = fs.foldl WireEdit.set {} := by
  refine ⟨fun e => decodeFrom_encodeTo, fun src hok => ?_⟩
  rcases hloop : decodeLoop (src.length + 1) {} src with ⟨e, _ | msg⟩
  · rw [WireEdit.decodeFrom, hloop]
    exact decodeLoop_tagged _ (Nat.lt_succ_self _) hloop
  · rw [WireEdit.decodeFrom, hloop] at hok
    cases hok

/-- An edit with a log number and a deleted file goes through the codec. -/
theorem edit_codec_sample :
    WireEdit.decodeFrom (WireEdit.encodeTo { logNumber := some 7, deletedFiles := [(1, 300)] })
        = ({ logNumber := some 7, deletedFiles := [(1, 300)] }, .ok)
      ∧ ∃ fs, Tagged [2, 7, 6, 1, 172, 2] fs
          ∧ (WireEdit.decodeFrom [2, 7, 6, 1, 172, 2]).1 = fs.foldl WireEdit.set {} := by
  refine ⟨edit_codec.1 _ ?_ (List.pairwise_singleton _ _), edit_codec.2 _ (by decide +kernel)⟩
  intro f hf
  rcases List.mem_cons.mp hf with rfl | hf
  · exact (by decide : 7 < 2 ^ 64)
  · rw [List.mem_singleton.mp hf]
    exact (by decide : 1 < kNumLevels ∧ 300 < 2 ^ 64)

/-! ## Edits with parsed keys -/

/-- A file with its keys as bytes. -/
def toWireFile (f : FileMetaData) : WireFile :=
  ⟨f.number, f.fileSize, encodeKey f.smallest, encodeKey f.largest⟩

/-- A file with its keys parsed. -/
def ofWireFile (f : WireFile) : FileMetaData :=
  ⟨f.number, f.fileSize, parseKey f.smallest, parseKey f.largest⟩

/-- An edit with its keys as bytes. -/
def toWire (e : VersionEdit) : WireEdit where
  comparator := e.comparator
  logNumber := e.logNumber
  prevLogNumber := e.prevLogNumber
  nextFileNumber := e.nextFileNumber
  lastSequence := e.lastSequence
  compactPointers := e.compactPointers.map fun p => (p.1, encodeKey p.2)
  deletedFiles := e.deletedFiles
  newFiles := e.newFiles.map fun p => (p.1, toWireFile p.2)

/-- An edit with its keys parsed. -/
def ofWire (e : WireEdit) : VersionEdit where
  comparator := e.comparator
  logNumber := e.logNumber
  prevLogNumber := e.prevLogNumber
  nextFileNumber := e.nextFileNumber
  lastSequence := e.lastSequence
  compactPointers := e.compactPointers.map fun p => (p.1, parseKey p.2)
  deletedFiles := e.deletedFiles
  newFiles := e.newFiles.map fun p => (p.1, ofWireFile p.2)

/-- `VersionEdit::EncodeTo`. -/
def encodeTo (e : VersionEdit) : Slice := (toWire e).encodeTo

/-- `VersionEdit::DecodeFrom`, with the keys parsed. -/
def decodeFrom (src : Slice) : VersionEdit × Status :=
  (ofWire (WireEdit.decodeFrom src).1, (WireEdit.decodeFrom src).2)

/-- A key has a sequence number of 56 bits and a length that 32 bits hold. -/
def FitsKey (k : InternalKey) : Prop :=
  k.sequence ≤ kMaxSequenceNumber ∧ k.userKey.length + 8 < 2 ^ 32

/-- The values of a file are in the range of their types. -/
@[mk_iff]
structure FitsFile (f : FileMetaData) : Prop where
  number : f.number < 2 ^ 64
  fileSize : f.fileSize < 2 ^ 64
  smallest : FitsKey f.smallest
  largest : FitsKey f.largest

instance (k : InternalKey) : Decidable (FitsKey k) :=
  inferInstanceAs (Decidable (_ ∧ _))

instance (f : FileMetaData) : Decidable (FitsFile f) :=
  decidable_of_iff' _ (fitsFile_iff f)

instance (ps : List (Nat × Nat)) : Decidable (SortedPairs ps) :=
  inferInstanceAs (Decidable (List.Pairwise _ _))

/-- The values of an edit are in the range of their types. -/
@[mk_iff]
structure FitsEdit (e : VersionEdit) : Prop where
  comparator : ∀ name ∈ e.comparator, name.length < 2 ^ 32
  logNumber : ∀ n ∈ e.logNumber, n < 2 ^ 64
  prevLogNumber : ∀ n ∈ e.prevLogNumber, n < 2 ^ 64
  nextFileNumber : ∀ n ∈ e.nextFileNumber, n < 2 ^ 64
  lastSequence : ∀ n ∈ e.lastSequence, n < 2 ^ 64
  compactPointers : ∀ p ∈ e.compactPointers, p.1 < kNumLevels ∧ FitsKey p.2
  deletedFiles : ∀ p ∈ e.deletedFiles, p.1 < kNumLevels ∧ p.2 < 2 ^ 64
  newFiles : ∀ p ∈ e.newFiles, p.1 < kNumLevels ∧ FitsFile p.2
  set : SortedPairs e.deletedFiles

instance (e : VersionEdit) : Decidable (FitsEdit e) :=
  decidable_of_iff' _ (fitsEdit_iff e)

theorem FitsKey.encoded {k : InternalKey} (h : FitsKey k) :
    encodeKey k ≠ [] ∧ (encodeKey k).length < 2 ^ 32 := by
  refine ⟨encodeKey_ne_nil k, ?_⟩
  rw [encodeKey_length]
  exact h.2

theorem ofWireFile_toWireFile {f : FileMetaData} (h : FitsFile f) :
    ofWireFile (toWireFile f) = f := by
  obtain ⟨number, fileSize, smallest, largest⟩ := f
  rw [toWireFile, ofWireFile]
  simp only [parseKey_encodeKey h.smallest.1, parseKey_encodeKey h.largest.1]

variable {e : VersionEdit}

theorem ofWire_toWire (h : FitsEdit e) : ofWire (toWire e) = e := by
  have hpointers : (e.compactPointers.map fun p => (p.1, encodeKey p.2)).map
      (fun p => (p.1, parseKey p.2)) = e.compactPointers := by
    rw [List.map_map]
    refine (List.map_congr_left fun p hp => ?_).trans (List.map_id _)
    show (p.1, parseKey (encodeKey p.2)) = p
    rw [parseKey_encodeKey (h.compactPointers p hp).2.1]
  have hfiles : (e.newFiles.map fun p => (p.1, toWireFile p.2)).map
      (fun p => (p.1, ofWireFile p.2)) = e.newFiles := by
    rw [List.map_map]
    refine (List.map_congr_left fun p hp => ?_).trans (List.map_id _)
    show (p.1, ofWireFile (toWireFile p.2)) = p
    rw [ofWireFile_toWireFile (h.newFiles p hp).2]
  rw [ofWire, toWire]
  simp only [hpointers, hfiles]

/-- The fields of such an edit fit. -/
theorem FitsEdit.fields (h : FitsEdit e) : ∀ f ∈ (toWire e).fields, f.Fits := by
  intro f hf
  simp only [WireEdit.fields, toWire, List.mem_append, List.mem_map, Option.mem_toList,
    List.map_map] at hf
  rcases hf with ⟨n, hn, rfl⟩ | ⟨n, hn, rfl⟩ | ⟨n, hn, rfl⟩ | ⟨n, hn, rfl⟩ | ⟨n, hn, rfl⟩
    | ⟨p, hp, rfl⟩ | ⟨p, hp, rfl⟩ | ⟨p, hp, rfl⟩
  · exact h.comparator n hn
  · exact h.logNumber n hn
  · exact h.prevLogNumber n hn
  · exact h.nextFileNumber n hn
  · exact h.lastSequence n hn
  · exact ⟨(h.compactPointers p hp).1, (h.compactPointers p hp).2.encoded⟩
  · exact h.deletedFiles p hp
  · have hfile := (h.newFiles p hp).2
    exact ⟨(h.newFiles p hp).1, hfile.number, hfile.fileSize, hfile.smallest.encoded,
      hfile.largest.encoded⟩

/-- **An edit is read back from its record.** -/
theorem decodeFrom_encode (h : FitsEdit e) :
    decodeFrom (encodeTo e) = (e, .ok) := by
  rw [decodeFrom, encodeTo, decodeFrom_encodeTo h.fields h.set, ofWire_toWire h]

end LdbEditCodec
