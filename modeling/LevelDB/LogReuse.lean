import LevelDB.LogRoundTrip

/-! # Writing on after a torn tail

    With `reuse_logs` a log (or MANIFEST) is opened for appending where a crash
    left it: the new writer starts at the length of the file.  What it appends
    follows directly on the bytes of a physical record that was being written.
    The reader then takes these bytes for the rest of the torn record.

    This file says when the records appended survive: nothing of a physical
    record was cut, or so little of its block is left that the writer moves to
    the next one. -/

namespace LdbLog

open LdbFormat LdbCoding Blocked

/-! ## Where a file is cut -/

/-- A physical record of which only the first `written` bytes are in the file. -/
structure Torn where
  type : RecordType
  data : Slice
  written : Nat
  deriving DecidableEq, Repr

/-- The fragment in which a cut after `n` bytes of these fragments falls, if it
    falls inside one. -/
def tornFragment : Nat → List (RecordType × Slice) → Option Torn
  | _, [] => none
  | n, (t, data) :: rest =>
    if n < kHeaderSize + data.length then
      if 0 < n then some ⟨t, data, n⟩ else none
    else tornFragment (n - (kHeaderSize + data.length)) rest

/-- The physical record in which a cut falls, `n` bytes behind position `pos` from
    which the records are written. -/
def tornRecord : Nat → Nat → List Slice → Option Torn
  | _, _, [] => none
  | pos, n, record :: rest =>
    if n < (encodeRecord (pos % kBlockSize) record).length then
      tornFragment (n - padding (pos % kBlockSize)) (recordFragments (pos % kBlockSize) record)
    else tornRecord (pos + (encodeRecord (pos % kBlockSize) record).length)
      (n - (encodeRecord (pos % kBlockSize) record).length) rest

variable {room pos n r : Nat} {data : Slice} {t : RecordType} {fs : List (Nat × Slice)}
  {ts : List Slice}

theorem fits_append (fs gs : List (RecordType × Slice)) :
    ∀ room, Fits room (fs ++ gs) ↔ Fits room fs ∧ Fits (roomAfter room fs) gs := by
  induction fs with
  | nil =>
    intro room
    exact ⟨fun h => ⟨trivial, h⟩, fun h => h.2⟩
  | cons f fs ih =>
    intro room
    obtain ⟨t, data⟩ := f
    rw [List.cons_append, Fits, Fits, ih, roomAfter, and_assoc, and_assoc, and_assoc]

/-- The padding of a record leads to where its fragments fit. -/
theorem record_leads {b : Nat} (h : Aligned b room) (record : Slice) :
    ∃ room₀, Leads format room (List.replicate (padding b) 0) [] room₀ ∧ room₀ ≤ kBlockSize
      ∧ (room₀ + padding b) % kBlockSize = room % kBlockSize
      ∧ (0 < padding b → room = padding b ∧ room < kHeaderSize)
      ∧ Fits room₀ (recordFragments b record) := by
  have hsize : kHeaderSize < kBlockSize := format.header_lt
  have hb := h.offset_le
  rw [padding, recordFragments]
  by_cases hpad : 0 < kBlockSize - b ∧ kBlockSize - b < kHeaderSize
  · obtain ⟨hpos, hlt⟩ := hpad
    have hroom : room = kBlockSize - b := by
      have hsum := h.sum_mod
      have hle := h.room_le
      simp only [kBlockSize, kHeaderSize] at *
      omega
    rw [if_pos hlt, if_pos hlt]
    refine ⟨kBlockSize, leads_pad (by rw [List.length_replicate, hroom]) (by rw [hroom]; exact hlt),
      Nat.le_refl _, by rw [Nat.add_mod_left, hroom], fun _ => ⟨hroom, by rw [hroom]; exact hlt⟩, ?_⟩
    exact fragmentsOf_fits _ _ _ _ _ (Or.inr (by omega))
      (landsLoop_aligned _ _ _ _ (by omega) (Or.inr (by omega)) rfl)
  · have hfit : b = kBlockSize ∨ b + kHeaderSize ≤ kBlockSize := by omega
    have hpad0 : (if kBlockSize - b < kHeaderSize then kBlockSize - b else 0) = 0 := by
      split_ifs <;> omega
    rw [hpad0]
    refine ⟨room, leads_nil room, h.room_le, rfl, fun h0 => absurd h0 (Nat.lt_irrefl 0), ?_⟩
    have hlands := landsLoop_aligned (record.length + 2) record.length b room hb hfit h.nextRoom_eq
    have hpos : 0 < kHeaderSize := format.header_pos
    rcases hfit with rfl | hfit
    · rw [if_pos (by omega)]
      exact fragmentsOf_fits _ true record kBlockSize room (Or.inl rfl) hlands
    · rw [if_neg (by omega)]
      exact fragmentsOf_fits _ true record b room (Or.inr hfit) hlands

/-! ## Cutting a record -/

theorem onDisk_append (fs gs : List (RecordType × Slice)) :
    onDisk (fs ++ gs) = onDisk fs ++ onDisk gs := List.flatMap_append

/-- The fragment a cut falls into. -/
theorem onDisk_split (fs : List (RecordType × Slice)) :
    ∀ m, m < (onDisk fs).length → ∃ fs₁ t data fs₂, fs = fs₁ ++ (t, data) :: fs₂
      ∧ (onDisk fs₁).length ≤ m ∧ m < (onDisk fs₁).length + (physical t data).length := by
  induction fs with
  | nil =>
    intro m hm
    exact absurd hm (Nat.not_lt_zero m)
  | cons f fs ih =>
    intro m hm
    obtain ⟨t, data⟩ := f
    rw [onDisk_cons, List.length_append] at hm
    by_cases h : m < (physical t data).length
    · refine ⟨[], t, data, fs, rfl, Nat.zero_le m, ?_⟩
      rw [show onDisk [] = [] from rfl, List.length_nil, Nat.zero_add]
      exact h
    · obtain ⟨fs₁, t', data', fs₂, hfs, hle, hlt⟩ := ih (m - (physical t data).length) (by omega)
      refine ⟨(t, data) :: fs₁, t', data', fs₂, by rw [hfs, List.cons_append], ?_, ?_⟩
      · rw [onDisk_cons, List.length_append]
        omega
      · rw [onDisk_cons, List.length_append]
        omega

theorem tornFragment_split (fs₁ : List (RecordType × Slice)) {fs₂ : List (RecordType × Slice)} :
    ∀ {m : Nat}, (onDisk fs₁).length ≤ m → m < (onDisk fs₁).length + (physical t data).length →
      tornFragment m (fs₁ ++ (t, data) :: fs₂)
        = if 0 < m - (onDisk fs₁).length then some ⟨t, data, m - (onDisk fs₁).length⟩ else none := by
  induction fs₁ with
  | nil =>
    intro m _ hlt
    rw [show onDisk [] = [] from rfl, List.length_nil, Nat.zero_add, physical_length] at hlt
    rw [List.nil_append, tornFragment, if_pos hlt]
    rfl
  | cons f fs₁ ih =>
    intro m hle hlt
    obtain ⟨t', data'⟩ := f
    rw [onDisk_cons, List.length_append, physical_length] at hle hlt ⊢
    rw [List.cons_append, tornFragment, if_neg (by omega), ih (by omega) (by omega)]
    rw [Nat.sub_sub, Nat.add_comm]

/-- What follows the last whole physical record before a cut: nothing or a part of
    the padding, or a part of the record the cut falls into. -/
def TailAt : Option Torn → Slice → Nat → Bool → Prop
  | none, rest, r, _ => rest = [] ∨ (rest.length < r ∧ r < kHeaderSize)
  | some torn, rest, r, frag => rest = (physical torn.type torn.data).take torn.written
      ∧ 0 < torn.written ∧ torn.written < (physical torn.type torn.data).length
      ∧ (physical torn.type torn.data).length ≤ r ∧ torn.type ≠ .zero
      ∧ (torn.type = .last → frag = true)

/-- The file of `records` cut after `n` bytes: `pre` is what is whole, with the
    physical records `fs`; reading it returns the whole records and leaves the
    reader with `scratch` collected. -/
structure CutAt (records : List Slice) (pos room n : Nat) (pre rest : Slice)
    (fs : List (Nat × Slice)) (r : Nat) (scratch : Slice) (frag : Bool) : Prop where
  take_eq : (encodeAll pos records).take n = pre ++ rest
  leads : Leads format room pre fs r
  room_at : RoomAt (pos + pre.length) r
  reads : ∀ es : List LogEvent, assemble [] false (fs.map .frame ++ es)
    = (within (pos + n) (endsOf pos records) ++ (assemble scratch frag es).1,
        (assemble scratch frag es).2)
  idle : frag = false → scratch = []
  tail : TailAt (tornRecord pos n records) rest r frag

theorem RoomAt.next (h : RoomAt pos room) : RoomAt pos (nextRoom room) := by
  rw [nextRoom]
  by_cases h0 : room = 0
  · rw [if_pos h0]
    refine ⟨Nat.le_refl _, ?_⟩
    have hsum := h.sum_mod
    rw [h0, Nat.add_zero] at hsum
    rw [Nat.add_mod_right]
    exact hsum
  · rw [if_neg h0]
    exact h

/-- At the end of a block, on to the next one. -/
theorem leads_next (room : Nat) : Leads format room [] [] (nextRoom room) := by
  rw [nextRoom]
  by_cases h0 : room = 0
  · rw [if_pos h0, h0]
    exact leads_pad rfl format.header_pos
  · rw [if_neg h0]
    exact leads_nil room

/-- No record ends before a cut in the first one. -/
theorem within_eq_nil {record : Slice} (rest : List Slice)
    (h : n < (encodeRecord (pos % kBlockSize) record).length) :
    within (pos + n) (endsOf pos (record :: rest)) = [] := by
  rw [within, List.filter_eq_nil_iff.mpr]
  · rfl
  · intro p hp
    rw [endsOf] at hp
    have hend : pos + (encodeRecord (pos % kBlockSize) record).length ≤ p.2 := by
      rcases List.mem_cons.mp hp with rfl | hp
      · exact Nat.le_refl _
      · exact (endsOf_bounds rest _ p hp).1
    rw [decide_eq_true_eq]
    omega

/-- The cut falls into the first record. -/
theorem cutAt_head {record : Slice} {rest : List Slice} (hroom : RoomAt pos room)
    (hn : n < (encodeRecord (pos % kBlockSize) record).length) :
    ∃ pre tail fs r scratch frag, CutAt (record :: rest) pos room n pre tail fs r scratch frag := by
  obtain ⟨b', room', hlaid, hfrags, -, -, -⟩ := addRecord_laid hroom.aligned record
  obtain ⟨room₀, hpadding, hroom₀, hsum, hpos, hfits⟩ := record_leads hroom.aligned record
  have hwithin := within_eq_nil rest hn
  have htake : (encodeAll pos (record :: rest)).take n
      = (encodeRecord (pos % kBlockSize) record).take n := by
    rw [encodeAll, List.take_append_of_le_length (by omega)]
  have htorn : tornRecord pos n (record :: rest) = tornFragment (n - padding (pos % kBlockSize))
      (recordFragments (pos % kBlockSize) record) := by
    rw [tornRecord, if_pos hn]
  rw [encodeRecord] at htake hn
  rw [List.length_append, List.length_replicate] at hn
  generalize padding (pos % kBlockSize) = pad at *
  generalize recordFragments (pos % kBlockSize) record = fs at *
  by_cases hpad : n < pad
  · -- in the padding
    obtain ⟨hroompad, hlt⟩ := hpos (by omega)
    refine ⟨[], List.replicate n 0, [], room, [], false, ?_, leads_nil room, ?_, ?_, fun _ => rfl, ?_⟩
    · rw [htake, List.take_append_of_le_length (by rw [List.length_replicate]; omega),
        List.take_replicate, Nat.min_eq_left (by omega), List.nil_append]
    · exact hroom
    · intro es
      rw [hwithin]
      rfl
    · rw [htorn, show n - pad = 0 by omega]
      have hnone : tornFragment 0 fs = none := by
        cases fs with
        | nil => rfl
        | cons f fs =>
          have hsize : 0 < kHeaderSize := format.header_pos
          rw [tornFragment, if_pos (by omega), if_neg (Nat.lt_irrefl 0)]
      rw [hnone]
      refine Or.inr ⟨?_, hlt⟩
      rw [List.length_replicate]
      omega
  · -- in the fragments
    obtain ⟨fs₁, t, data, fs₂, hfs, hle, hlt⟩ := onDisk_split fs (n - pad) (by omega)
    subst hfs
    obtain ⟨hfits₁, hfits₂⟩ := (fits_append _ _ _).mp hfits
    obtain ⟨ht, -, hfit, -⟩ := hfits₂
    have hlaid₁ := Fits.laid fs₁ hfits₁
    have hroompad : RoomAt (pos + pad) room₀ := by
      refine ⟨hroom₀, ?_⟩
      rw [Nat.add_assoc, Nat.add_comm pad, Nat.add_mod, hsum, ← Nat.add_mod]
      exact hroom.sum_mod
    have hcoded : coded (fs₁ ++ (t, data) :: fs₂) = coded fs₁ ++ (t.code, data) :: coded fs₂ :=
      List.map_append
    obtain ⟨scratch, frag, hbefore, hidle, hlast⟩ := hfrags.assemble_before hcoded not_unfinished
    have hleads := (hpadding.trans (hlaid₁.leads.trans (leads_next _)))
    rw [List.append_nil, List.append_nil, List.nil_append] at hleads
    refine ⟨List.replicate pad 0 ++ onDisk fs₁,
      (physical t data).take (n - pad - (onDisk fs₁).length), coded fs₁,
      nextRoom (roomAfter room₀ fs₁), scratch, frag, ?_, hleads, ?_, ?_, hidle, ?_⟩
    · have hcut : (physical t data ++ onDisk fs₂).take (n - pad - (onDisk fs₁).length)
          = (physical t data).take (n - pad - (onDisk fs₁).length) :=
        List.take_append_of_le_length (by omega)
      rw [htake, List.take_append, List.take_of_length_le (by rw [List.length_replicate]; omega),
        List.length_replicate, onDisk_append, onDisk_cons, List.take_append,
        List.take_of_length_le (l := onDisk fs₁) hle, hcut, List.append_assoc]
    · have hat := (hroompad.after hlaid₁).next
      rw [List.length_append, List.length_replicate, ← Nat.add_assoc]
      exact hat
    · intro es
      rw [hbefore, hwithin]
      rfl
    · rw [htorn, tornFragment_split fs₁ hle hlt]
      by_cases hk : 0 < n - pad - (onDisk fs₁).length
      · rw [if_pos hk]
        refine ⟨rfl, hk, ?_, ?_, ht, ?_⟩
        · show n - pad - (onDisk fs₁).length < (physical t data).length
          omega
        · show (physical t data).length ≤ _
          rw [physical_length]
          exact hfit
        · intro h
          exact hlast (by rw [show t = .last from h])
      · rw [if_neg hk]
        refine Or.inl ?_
        rw [show n - pad - (onDisk fs₁).length = 0 by omega, List.take_zero]

/-- **Every cut of a log file.** -/
theorem exists_cutAt (records : List Slice) :
    ∀ {pos room n : Nat}, RoomAt pos room → n ≤ (encodeAll pos records).length →
      ∃ pre tail fs r scratch frag, CutAt records pos room n pre tail fs r scratch frag := by
  induction records with
  | nil =>
    intro pos room n hroom hn
    have hn0 : n = 0 := Nat.le_zero.mp hn
    subst hn0
    exact ⟨[], [], [], room, [], false, rfl, leads_nil room, hroom, (fun es => rfl),
      (fun _ => rfl), Or.inl rfl⟩
  | cons record rest ih =>
    intro pos room n hroom hn
    by_cases hlt : n < (encodeRecord (pos % kBlockSize) record).length
    · exact cutAt_head hroom hlt
    · obtain ⟨b', room', hlaid, hfrags, -, -, -⟩ := addRecord_laid hroom.aligned record
      rw [encodeAll, List.length_append] at hn
      obtain ⟨pre, tail, fs, r, scratch, frag, hcut⟩ := ih (hroom.after hlaid)
        (n := n - (encodeRecord (pos % kBlockSize) record).length) (by omega)
      obtain ⟨reason, hall⟩ := hfrags.assemble_all [] false
      refine ⟨encodeRecord (pos % kBlockSize) record ++ pre, tail,
        coded (recordFragments (pos % kBlockSize) record) ++ fs, r, scratch, frag, ?_,
        hlaid.leads.trans hcut.leads, ?_, ?_, hcut.idle, ?_⟩
      · rw [encodeAll, List.take_append, List.take_of_length_le (by omega), hcut.take_eq,
          List.append_assoc]
      · rw [List.length_append, ← Nat.add_assoc]
        exact hcut.room_at
      · intro es
        have hcount : pos + (encodeRecord (pos % kBlockSize) record).length
            + (n - (encodeRecord (pos % kBlockSize) record).length) = pos + n := by omega
        rw [List.map_append, List.append_assoc, hall, hcut.reads, hcount, endsOf, within, within,
          List.filter_cons_of_pos (by rw [decide_eq_true_eq]; omega)]
        rfl
      · rw [tornRecord, if_neg hlt]
        exact hcut.tail

/-! ## What is appended -/

/-- The fragments of records, one after another. -/
inductive FragmentsAll : List Slice → List (Nat × Slice) → Prop
  | nil : FragmentsAll [] []
  | cons {record : Slice} {rest : List Slice} {fs gs : List (Nat × Slice)} :
      Fragments true record fs → FragmentsAll rest gs → FragmentsAll (record :: rest) (fs ++ gs)

variable {records : List Slice}

theorem FragmentsAll.ne_nil (h : FragmentsAll records fs) (hne : records ≠ []) : fs ≠ [] := by
  cases h with
  | nil => exact absurd rfl hne
  | cons hfrags _ =>
    intro hnil
    exact hfrags.ne_nil (List.append_eq_nil_iff.mp hnil).1

/-- All fragments give all records, whatever was begun before. -/
theorem FragmentsAll.assemble (h : FragmentsAll records fs) :
    ∀ (scratch : Slice) (frag : Bool), (LdbLog.assemble scratch frag (fs.map .frame)).1 = records := by
  induction h with
  | nil =>
    intro scratch frag
    rfl
  | cons hfrags _ ih =>
    intro scratch frag
    obtain ⟨reason, hall⟩ := hfrags.assemble_all scratch frag
    rw [List.map_append, hall, ih]

/-- Fragments after the first are dropped when no record was begun. -/
theorem assemble_later (es : List LogEvent)
    (h : ∀ f ∈ fs, f.1 = RecordType.middle.code ∨ f.1 = RecordType.last.code) :
    (assemble [] false (fs.map .frame ++ es)).1 = (assemble [] false es).1 := by
  induction fs with
  | nil => rfl
  | cons f fs ih =>
    obtain ⟨hf, hfs⟩ := List.forall_mem_cons.mp h
    obtain ⟨code, x⟩ := f
    rcases hf with rfl | rfl
    · exact ih hfs
    · exact ih hfs

theorem Fragments.later {begin_ : Bool} (h : Fragments begin_ data fs) :
    ∀ f ∈ if begin_ then fs.tail else fs,
      f.1 = RecordType.middle.code ∨ f.1 = RecordType.last.code := by
  induction h with
  | stop begin_ data => cases begin_ <;> simp [fragmentType]
  | @more begin_ p data fs _ ih =>
    cases begin_ with
    | true => exact ih
    | false => exact List.forall_mem_cons.mpr ⟨Or.inl rfl, ih⟩

/-- Once the first fragment is lost, so is the record. -/
theorem Fragments.assemble_headless {fs₁ fs₂ : List (Nat × Slice)} (h : Fragments true data fs)
    (hfs : fs = fs₁ ++ fs₂) (hne : fs₁ ≠ []) (es : List LogEvent) :
    (assemble [] false (fs₂.map .frame ++ es)).1 = (assemble [] false es).1 := by
  obtain ⟨f, fs₁, rfl⟩ := List.exists_cons_of_ne_nil hne
  subst hfs
  exact assemble_later es fun g hg => h.later g (List.mem_append_right fs₁ hg)

/-- **A lost first fragment loses a record.** -/
theorem FragmentsAll.lost (h : FragmentsAll records fs) :
    ∀ fs₁ fs₂ : List (Nat × Slice), fs = fs₁ ++ fs₂ → fs₁ ≠ [] →
      (LdbLog.assemble [] false (fs₂.map .frame)).1.length < records.length := by
  induction h with
  | nil =>
    intro fs₁ fs₂ hfs hne
    exact absurd (List.append_eq_nil_iff.mp hfs.symm).1 hne
  | @cons record rest fs gs hfrags hall ih =>
    intro fs₁ fs₂ hfs hne
    rw [List.length_cons]
    rcases List.append_eq_append_iff.mp hfs with ⟨a, hfs₁, hgs⟩ | ⟨a, hfs', hfs₂⟩
    · -- all of the first record is lost
      by_cases ha : a = []
      · subst ha
        rw [List.nil_append] at hgs
        rw [← hgs, hall.assemble]
        exact Nat.lt_succ_self _
      · have := ih a fs₂ hgs ha
        omega
    · have hrest := hfrags.assemble_headless hfs' hne (gs.map .frame)
      rw [hfs₂, List.map_append, hrest, hall.assemble]
      exact Nat.lt_succ_self _

/-- Records written from a position on are laid as their fragments. -/
theorem encodeAll_laid (records : List Slice) :
    ∀ {pos room : Nat}, RoomAt pos room → ∃ fs room',
      Laid format room (encodeAll pos records) fs room' ∧ FragmentsAll records fs := by
  induction records with
  | nil =>
    intro pos room _
    exact ⟨[], room, Laid.nil room, FragmentsAll.nil⟩
  | cons record rest ih =>
    intro pos room hroom
    obtain ⟨b', room₁, hlaid, hfrags, -, -, -⟩ := addRecord_laid hroom.aligned record
    obtain ⟨gs, room', hlaid', hall⟩ := ih (hroom.after hlaid)
    exact ⟨_, room', hlaid.append hlaid', FragmentsAll.cons hfrags hall⟩

/-! ## A torn record filled up with zeros -/

/-- The payload of a torn record whose missing bytes are read as zeros. -/
def Torn.filled (torn : Torn) : Slice :=
  torn.data.take (torn.written - kHeaderSize)
    ++ List.replicate (torn.data.length - (torn.written - kHeaderSize)) 0

/-- Filled up with zeros, the torn record passes the checksum and ends a record. -/
def Torn.revived (torn : Torn) : Prop :=
  (torn.type = .full ∨ torn.type = .last) ∧ kHeaderSize ≤ torn.written
    ∧ LdbCrc32c.value (lowByte torn.type.code :: torn.filled)
      = LdbCrc32c.value (lowByte torn.type.code :: torn.data)

instance (torn : Torn) : Decidable torn.revived := by
  unfold Torn.revived
  infer_instance

/-- What no frame is taken from is rejected up to the end of its block. -/
theorem exists_scan_reject {b : Slice} {es : List LogEvent} (hle : r ≤ b.length)
    (hroom : kHeaderSize ≤ r) (hcheck : ∀ a size, checkHeader true (chunk r b) ≠ .frame a size)
    (h : Scan format kBlockSize (b.drop r) es) : ∃ e, Scan format r b (.reject e :: es) := by
  cases hv : checkHeader true (chunk r b) with
  | beyond => exact ⟨_, Scan.overrun hle hroom hv h⟩
  | reject e =>
    refine ⟨e, Scan.reject ?_ hv h⟩
    rw [chunk, List.length_take, Nat.min_eq_left hle]
    exact hroom
  | frame a size => exact absurd hv (hcheck a size)

/-- A torn header filled up with zeros has type zero. -/
theorem checkHeader_torn_header {e : Slice} {k m : Nat} (hk : k < kHeaderSize)
    {a : Nat × Slice} {size : Nat}
    (h : checkHeader true (e.take k ++ List.replicate m 0) = .frame a size) :
    a.1 = RecordType.zero.code := by
  have hlen : (e.take k).length ≤ 6 := by
    rw [List.length_take]
    simp only [kHeaderSize] at hk
    omega
  have hzero : (e.take k ++ List.replicate m (0 : UInt8)).getD 6 0 = 0 := by
    rw [List.getD_eq_getElem?_getD, List.getElem?_append_right hlen, List.getElem?_replicate]
    split_ifs <;> rfl
  rw [checkHeader, hzero] at h
  split_ifs at h
  cases h
  rfl

/-- A torn payload filled up with zeros is checked against the stored checksum. -/
theorem checkHeader_torn_payload (ht : t ≠ .zero) {k m : Nat} (hdata : data.length < 2 ^ 16)
    (hk : kHeaderSize ≤ k) (hlt : k < (physical t data).length)
    (hm : (physical t data).length ≤ k + m) :
    checkHeader true ((physical t data).take k ++ List.replicate m 0)
      = if LdbCrc32c.value (lowByte t.code :: (Torn.mk t data k).filled)
          = LdbCrc32c.value (lowByte t.code :: data)
        then .frame (t.code, (Torn.mk t data k).filled) (physical t data).length
        else .reject (some (k + m, .corruption "checksum mismatch")) := by
  rw [physical_length] at hlt hm
  have hshort : (data.take (k - kHeaderSize)).length = k - kHeaderSize := by
    rw [List.length_take]
    omega
  have htail : (data.take (k - kHeaderSize) ++ List.replicate m (0 : UInt8)).length
      = k - kHeaderSize + m := by rw [List.length_append, hshort, List.length_replicate]
  have hpayload : (data.take (k - kHeaderSize) ++ List.replicate m (0 : UInt8)).take data.length
      = (Torn.mk t data k).filled := by
    rw [List.take_append, List.take_of_length_le (by omega), hshort, List.take_replicate,
      Nat.min_eq_left (by omega)]
    rfl
  rw [physical_take hk, List.append_assoc, checkHeader_header ht hdata (by omega), hpayload,
    List.length_append, header_length, htail, show kHeaderSize + (k - kHeaderSize + m) = k + m by omega]

/-- The torn record and the zeros behind it are one event: a record of the torn
    type if the checksum matches, and otherwise nothing a record is made of. -/
theorem scan_filled {torn : Torn} {q : Nat} {b : Slice} {es : List LogEvent}
    (ht : torn.type ≠ .zero) (hk : torn.written < (physical torn.type torn.data).length)
    (hfit : (physical torn.type torn.data).length ≤ r) (hr : r ≤ kBlockSize)
    (hq : torn.written + q = r) (hlt : q < kHeaderSize) (h : Scan format kBlockSize b es) :
    ∃ ev, Scan format r
        ((physical torn.type torn.data).take torn.written ++ (List.replicate q 0 ++ b)) (ev :: es)
      ∧ ((kHeaderSize ≤ torn.written
            ∧ LdbCrc32c.value (lowByte torn.type.code :: torn.filled)
              = LdbCrc32c.value (lowByte torn.type.code :: torn.data)
            ∧ ev = .frame (torn.type.code, torn.filled))
        ∨ (¬ (kHeaderSize ≤ torn.written
            ∧ LdbCrc32c.value (lowByte torn.type.code :: torn.filled)
              = LdbCrc32c.value (lowByte torn.type.code :: torn.data))
          ∧ ((∃ e, ev = .reject e) ∨ ∃ x, ev = .frame (RecordType.zero.code, x)))) := by
  obtain ⟨t, data, k⟩ := torn
  simp only at ht hk hfit hq ⊢
  have hblock : kBlockSize = 32768 := rfl
  have hsize := physical_length t data
  obtain ⟨c, hc⟩ : ∃ c, (physical t data).take k ++ List.replicate q 0 = c := ⟨_, rfl⟩
  have hclen : c.length = r := by
    rw [← hc, List.length_append, List.length_take, List.length_replicate]
    omega
  have hchunk : chunk r (c ++ b) = c := by
    rw [chunk, ← hclen, List.take_left]
  have hle : r ≤ (c ++ b).length := by
    rw [List.length_append]
    omega
  have hroom : kHeaderSize ≤ r := by omega
  -- what the checks say of the torn record
  have hpayload : kHeaderSize ≤ k → checkHeader true c
      = if LdbCrc32c.value (lowByte t.code :: (Torn.mk t data k).filled)
          = LdbCrc32c.value (lowByte t.code :: data)
        then .frame (t.code, (Torn.mk t data k).filled) (physical t data).length
        else .reject (some (k + q, .corruption "checksum mismatch")) := by
    intro hk7
    rw [← hc]
    exact checkHeader_torn_payload ht (by omega) hk7 hk (by omega)
  rw [← List.append_assoc, hc]
  by_cases hframe : ∃ a size, checkHeader true c = .frame a size
  · obtain ⟨a, size, hv⟩ := hframe
    obtain ⟨hsize7, hsizele⟩ := checkHeader_frame hv
    -- the record ends where no header fits any more
    have hend : r - size < kHeaderSize := by
      by_cases hk7 : kHeaderSize ≤ k
      · rw [hpayload hk7] at hv
        split_ifs at hv
        cases hv
        omega
      · omega
    have hcheck : format.check (chunk r (c ++ b)) = .frame a size := by
      rw [hchunk]
      exact hv
    refine ⟨.frame a, Scan.frame ?_ hcheck ?_, ?_⟩
    · rw [hchunk, hclen]
      exact hroom
    · rw [List.drop_append_of_le_length hsizele]
      refine scan_pad ?_ hend h
      rw [List.length_drop, hclen]
    · by_cases hk7 : kHeaderSize ≤ k
      · rw [hpayload hk7] at hv
        split_ifs at hv with hcrc
        cases hv
        exact Or.inl ⟨hk7, hcrc, rfl⟩
      · refine Or.inr ⟨fun h' => hk7 h'.1, Or.inr ⟨a.2, ?_⟩⟩
        rw [← hc] at hv
        have hzero := checkHeader_torn_header (by omega) hv
        rw [← hzero]
  · obtain ⟨e, hreject⟩ := exists_scan_reject hle hroom
      (by rw [hchunk]; exact fun a size hv => hframe ⟨a, size, hv⟩)
      (by rw [← hclen, List.drop_left]; exact h)
    refine ⟨_, hreject, Or.inr ⟨?_, Or.inl ⟨_, rfl⟩⟩⟩
    rintro ⟨hk7, hcrc⟩
    exact hframe ⟨_, _, (hpayload hk7).trans (if_pos hcrc)⟩

/-- Neither a rejected record nor one of type zero changes what follows. -/
theorem assemble_nothing (hall : FragmentsAll ts fs) {ev : LogEvent}
    (hev : (∃ e, ev = .reject e) ∨ ∃ x, ev = .frame (RecordType.zero.code, x)) (scratch : Slice)
    (frag : Bool) : (assemble scratch frag (ev :: fs.map .frame)).1 = ts := by
  rcases hev with ⟨e, rfl⟩ | ⟨x, rfl⟩
  · cases frag with
    | true => exact hall.assemble [] false
    | false => exact hall.assemble scratch false
  · exact hall.assemble [] false

/-- The first or a middle fragment returns no record. -/
theorem assemble_unended (hall : FragmentsAll ts fs) (ht : t = .first ∨ t = .middle)
    (x scratch : Slice) (frag : Bool) :
    (assemble scratch frag (.frame (t.code, x) :: fs.map .frame)).1 = ts := by
  rcases ht with rfl | rfl
  · exact hall.assemble x true
  · cases frag with
    | true => exact hall.assemble (scratch ++ x) true
    | false => exact hall.assemble scratch false

/-- A full record, or a last fragment of an open one, returns a record. -/
theorem assemble_ended (hall : FragmentsAll ts fs) (ht : t = .full ∨ t = .last) (x scratch : Slice)
    {frag : Bool} (hfrag : t = .last → frag = true) :
    (assemble scratch frag (.frame (t.code, x) :: fs.map .frame)).1.length = ts.length + 1 := by
  have hts := hall.assemble [] false
  rcases ht with rfl | rfl
  · show (x :: (assemble [] false (fs.map .frame)).1).length = _
    rw [hts, List.length_cons]
  · rw [hfrag rfl]
    show ((scratch ++ x) :: (assemble [] false (fs.map .frame)).1).length = _
    rw [hts, List.length_cons]

/-! ## A torn record that swallows what is appended -/

/-- A rejection before the next block leaves the records of that block on. -/
theorem assemble_reject {scratch : Slice} {frag : Bool} (hidle : frag = false → scratch = [])
    (e : Option Report) (es : List LogEvent) :
    (assemble scratch frag (.reject e :: es)).1 = (assemble [] false es).1 := by
  cases frag with
  | true => rfl
  | false =>
    rw [hidle rfl]
    rfl

/-- **Appended to a torn record in the same block**, the first record is lost,
    unless the torn record together with it passes the checks of the reader. -/
theorem scan_swallowed {T nb : Slice} {room' : Nat} (hts : ts ≠ []) (hall : FragmentsAll ts fs)
    (hlaid : Laid format (r - T.length) nb fs room') (hhead : kHeaderSize ≤ r - T.length)
    (hcheck : ∀ a size, checkHeader true (chunk r (T ++ nb)) ≠ .frame a size) :
    ∃ es, Scan format r (T ++ nb) es ∧ ∀ (scratch : Slice) (frag : Bool),
      (frag = false → scratch = []) → (assemble scratch frag es).1.length < ts.length := by
  have hpos : 0 < ts.length := List.length_pos_of_ne_nil hts
  have hT : T.length < r := by
    have hsize : 0 < kHeaderSize := format.header_pos
    omega
  have hnb : kHeaderSize ≤ nb.length := by
    cases hlaid with
    | nil => exact absurd rfl (hall.ne_nil hts)
    | frame he _ _ =>
      have hle : kHeaderSize ≤ _ := he.header_le
      rw [List.length_append]
      omega
    | pad _ hlt =>
      have hlt' : r - T.length < kHeaderSize := hlt
      omega
  by_cases hlen : (T ++ nb).length < r
  · -- the last block: the torn record runs beyond the end of the file, or is rejected
    have hchunk : chunk r (T ++ nb) = T ++ nb := by
      rw [chunk, List.take_of_length_le (by omega)]
    have hheader : kHeaderSize ≤ (T ++ nb).length := by
      rw [List.length_append]
      omega
    cases hv : checkHeader true (chunk r (T ++ nb)) with
    | beyond =>
      refine ⟨[], Scan.torn hlen hheader ?_, fun scratch frag _ => hpos⟩
      rw [hchunk] at hv
      exact hv
    | reject e =>
      refine ⟨[.reject e], Scan.reject ?_ hv ?_, ?_⟩
      · rw [hchunk]
        exact hheader
      · rw [List.drop_of_length_le (by omega)]
        exact scan_nil _
      · intro scratch frag hidle
        rw [assemble_reject hidle]
        exact hpos
    | frame a size => exact absurd hv (hcheck a size)
  · -- the rest of the block goes, and with it the first fragment
    have hle : r - T.length ≤ nb.length := by
      rw [List.length_append] at hlen
      omega
    obtain ⟨fs₁, fs₂, r', hfs, hne, hnext⟩ := hlaid.drop_block_cons hhead hle
    have hscan : Scan format kBlockSize ((T ++ nb).drop r) (fs₂.map .frame) := by
      rw [List.drop_append, List.drop_of_length_le (by omega), List.nil_append]
      exact hnext.leads.resumes.scan
    have hlost := hall.lost fs₁ fs₂ hfs hne
    obtain ⟨e, hreject⟩ := exists_scan_reject (by omega) (by omega) hcheck hscan
    refine ⟨_, hreject, fun scratch frag hidle => ?_⟩
    rw [assemble_reject hidle]
    exact hlost

/-! ## When the appended records survive -/

/-- The bytes left in the block of position `n`. -/
def roomOf (n : Nat) : Nat := kBlockSize - n % kBlockSize

/-- The records of `rs` that lie within the first `n` bytes of their log. -/
def wholeRecords (rs : List Slice) (n : Nat) : List Slice :=
  within n (recordEnds Writer.new ⟨[], []⟩ rs)

/-- The log of `rs` cut after `n` bytes, with `ts` appended by a writer that
    starts at the length of the file. -/
def reusedLog (rs : List Slice) (n : Nat) (ts : List Slice) : Slice :=
  session ((session [] rs).take n) ts

/-- Nothing is appended; or the cut is not inside a physical record; or it leaves
    less than a header of its block, and the zeros that fill the block do not make
    the torn record a whole one. -/
def Spared (rs : List Slice) (n : Nat) (ts : List Slice) : Prop :=
  ts = [] ∨ match tornRecord 0 n rs with
    | none => True
    | some torn => roomOf n < kHeaderSize ∧ ¬ torn.revived

/-- The torn record and the bytes appended behind it in the same block happen to
    pass the length and checksum tests of the reader. -/
def Collides (rs : List Slice) (n : Nat) (ts : List Slice) : Prop :=
  match tornRecord 0 n rs with
  | none => False
  | some torn => kHeaderSize ≤ roomOf n ∧ ∃ a size,
      checkHeader true (chunk (torn.written + roomOf n)
        ((physical torn.type torn.data).take torn.written ++ encodeAll n ts)) = .frame a size

theorem roomAt_roomOf (n : Nat) : RoomAt n (roomOf n) := by
  refine ⟨Nat.sub_le _ _, ?_⟩
  simp only [roomOf, kBlockSize]
  omega

/-- Reading the reused log, in terms of what is met behind the whole records. -/
theorem logRecords_reusedLog {rs : List Slice} {pre rest : Slice} {scratch : Slice} {frag : Bool}
    (hn : n ≤ (session [] rs).length) (hcut : CutAt rs 0 kBlockSize n pre rest fs r scratch frag)
    {es : List LogEvent} (hscan : Scan format r (rest ++ encodeAll n ts) es) {calls : Nat}
    (hcalls : (reusedLog rs n ts).length < calls) :
    (logRecords (reusedLog rs n ts) calls).1
      = wholeRecords rs n ++ (assemble scratch frag es).1 := by
  have hfile : session [] rs = encodeAll 0 rs := by
    rw [session_eq, List.nil_append, List.length_nil]
  have hends : recordEnds Writer.new ⟨[], []⟩ rs = endsOf 0 rs :=
    (addRecords_eq rs (b := 0) (Nat.zero_le _) rfl).2
  have hlen : ((session [] rs).take n).length = n := by
    rw [List.length_take]
    omega
  have hreused : reusedLog rs n ts = pre ++ (rest ++ encodeAll n ts) := by
    rw [reusedLog, session_eq, hlen, hfile, hcut.take_eq, List.append_assoc]
  have h : Scan format kBlockSize (reusedLog rs n ts) (fs.map .frame ++ es) := by
    rw [hreused]
    exact hcut.leads _ _ hscan
  rw [logRecords_eq h hcalls, hcut.reads, wholeRecords, hends, Nat.zero_add]

/-- The room behind a torn record is what the cut leaves of the block. -/
theorem room_of_torn {k m : Nat} (h : RoomAt pos r) (hn : pos + k = n) (hk : 0 < k) (hlt : k < m)
    (hle : m ≤ r) : k + roomOf n = r := by
  have hr := h.room_le
  have hsum := h.sum_mod
  simp only [roomOf, kBlockSize] at *
  omega

/-- Where no header fits, what is appended begins with zeros. -/
theorem encodeAll_padded {room' : Nat} (hts : ts ≠ []) (hroom : roomOf n < kHeaderSize)
    (hne : fs ≠ []) (h : Laid format (roomOf n) (encodeAll n ts) fs room') :
    ∃ b, encodeAll n ts = List.replicate (roomOf n) 0 ++ b
      ∧ Laid format kBlockSize b fs room' := by
  obtain ⟨p, b, hb, hp, hlaid⟩ := h.padded hroom hne
  refine ⟨b, ?_, hlaid⟩
  obtain ⟨record, rest, rfl⟩ := List.exists_cons_of_ne_nil hts
  have hpad : padding (n % kBlockSize) = roomOf n := by
    rw [padding]
    exact if_pos hroom
  have htake : (encodeAll n (record :: rest)).take (roomOf n) = List.replicate (roomOf n) 0 := by
    rw [encodeAll, encodeRecord, hpad, List.append_assoc]
    exact List.take_left' List.length_replicate
  rw [hb] at htake ⊢
  rw [← htake, ← hp, List.take_left]

/-- **Reusing a log after a torn tail.**  If the cut spares them, the records
    appended are read behind the whole records of the old log.  Otherwise they are
    not, unless the torn record and the bytes appended to it happen to pass the
    checks of the reader. -/
theorem reused_keeps_spared (rs ts : List Slice) (n calls : Nat)
    (hn : n ≤ (session [] rs).length) (hcalls : (reusedLog rs n ts).length < calls) :
    (Spared rs n ts → (logRecords (reusedLog rs n ts) calls).1 = wholeRecords rs n ++ ts)
      ∧ (¬ Spared rs n ts → ¬ Collides rs n ts →
          (logRecords (reusedLog rs n ts) calls).1 ≠ wholeRecords rs n ++ ts) := by
  have hfile : session [] rs = encodeAll 0 rs := by
    rw [session_eq, List.nil_append, List.length_nil]
  obtain ⟨pre, rest, fs, r, scratch, frag, hcut⟩ :=
    exists_cutAt rs roomAt_zero (n := n) (by rw [← hfile]; exact hn)
  have hlen : pre.length + rest.length = n := by
    have h := congrArg List.length hcut.take_eq
    rw [List.length_append, List.length_take, ← hfile] at h
    omega
  have hroomAt : RoomAt pre.length r := by
    have h := hcut.room_at
    rw [Nat.zero_add] at h
    exact h
  have hreads := fun {es : List LogEvent} (h : Scan format r (rest ++ encodeAll n ts) es) =>
    logRecords_reusedLog hn hcut h hcalls
  have htail := hcut.tail
  have hidle := hcut.idle
  rw [Spared, Collides]
  by_cases hts : ts = []
  · -- nothing appended: the cut file by itself
    subst hts
    refine ⟨fun _ => ?_, absurd (Or.inl rfl)⟩
    obtain ⟨es, hes, hassemble⟩ := encodeAll_scan_take rs roomAt_zero n
    have hends : recordEnds Writer.new ⟨[], []⟩ rs = endsOf 0 rs :=
      (addRecords_eq rs (b := 0) (Nat.zero_le _) rfl).2
    have hsame : reusedLog rs n [] = (encodeAll 0 rs).take n := by
      rw [reusedLog, session_eq, encodeAll, List.append_nil, hfile]
    rw [hsame] at hcalls ⊢
    rw [logRecords_eq hes hcalls, hassemble, wholeRecords, hends, Nat.zero_add, List.append_nil]
  cases htorn : tornRecord 0 n rs with
  | none =>
    refine ⟨fun _ => ?_, absurd (Or.inr trivial)⟩
    rw [htorn] at htail
    rcases htail with hnil | ⟨hshort, hr⟩
    · -- between physical records
      subst hnil
      rw [List.length_nil, Nat.add_zero] at hlen
      rw [hlen] at hroomAt
      obtain ⟨gs, room', hlaid, hall⟩ := encodeAll_laid ts hroomAt
      have hscan := hlaid.scan (scan_nil room')
      rw [List.append_nil, List.append_nil] at hscan
      rw [hreads hscan, hall.assemble]
    · -- in the padding, which the new writer completes
      have hroom' : RoomAt n (r - rest.length) := by
        refine ⟨(Nat.sub_le _ _).trans hroomAt.room_le, ?_⟩
        rw [← hlen, show pre.length + rest.length + (r - rest.length) = pre.length + r by omega]
        exact hroomAt.sum_mod
      obtain ⟨gs, room', hlaid, hall⟩ := encodeAll_laid ts hroom'
      have hscan := (hlaid.complete_pad (q := rest) (by omega) hr (hall.ne_nil hts)).scan
        (scan_nil room')
      rw [List.append_nil, List.append_nil] at hscan
      rw [hreads hscan, hall.assemble]
  | some torn =>
    rw [htorn] at htail
    obtain ⟨hrest, hpos, hlt, hfit, htype, hlast⟩ := htail
    have hrestlen : rest.length = torn.written := by
      rw [hrest, List.length_take]
      omega
    have hroom : torn.written + roomOf n = r :=
      room_of_torn hroomAt (by omega) hpos hlt hfit
    obtain ⟨gs, room', hlaid, hall⟩ := encodeAll_laid ts (roomAt_roomOf n)
    by_cases hsmall : roomOf n < kHeaderSize
    · -- the new writer fills the block with zeros
      obtain ⟨b, hb, hlaid'⟩ := encodeAll_padded hts hsmall (hall.ne_nil hts) hlaid
      have hnext := hlaid'.scan (scan_nil room')
      rw [List.append_nil, List.append_nil] at hnext
      obtain ⟨ev, hscan, hev⟩ := scan_filled htype hlt hfit hroomAt.room_le hroom hsmall hnext
      rw [← hrest, ← hb] at hscan
      rcases hev with ⟨hhead, hcrc, rfl⟩ | ⟨hno, hev⟩
      · by_cases hend : torn.type = .full ∨ torn.type = .last
        · refine ⟨fun h => absurd ⟨hend, hhead, hcrc⟩ (h.resolve_left hts).2, fun _ _ heq => ?_⟩
          have hmore := assemble_ended hall hend torn.filled scratch hlast
          rw [hreads hscan] at heq
          have hlen' := congrArg List.length (List.append_cancel_left heq)
          omega
        · have hopen : torn.type = .first ∨ torn.type = .middle := by
            revert hend htype
            cases torn.type <;> simp
          refine ⟨fun _ => ?_, absurd (Or.inr ⟨hsmall, fun h' => hend h'.1⟩)⟩
          rw [hreads hscan, assemble_unended hall hopen]
      · refine ⟨fun _ => ?_, absurd (Or.inr ⟨hsmall, fun h' => hno h'.2⟩)⟩
        rw [hreads hscan, assemble_nothing hall hev]
    · -- the torn record swallows what follows it in the block
      refine ⟨fun h => absurd (h.resolve_left hts).1 hsmall, fun _ hcollide heq => ?_⟩
      have hcheck : ∀ a size,
          checkHeader true (chunk r (rest ++ encodeAll n ts)) ≠ .frame a size := by
        intro a size hframe
        rw [← hroom, hrest] at hframe
        exact hcollide ⟨by omega, a, size, hframe⟩
      have hsub : r - rest.length = roomOf n := by omega
      rw [← hsub] at hlaid
      obtain ⟨es, hscan, hfewer⟩ := scan_swallowed hts hall hlaid (by omega) hcheck
      rw [hreads hscan] at heq
      have hlen' := congrArg List.length (List.append_cancel_left heq)
      have := hfewer scratch frag hidle
      omega

/-- A log cut between its two records. -/
theorem reused_keeps_spared_sample :
    tornRecord 0 10 [[1, 2, 3], [6]] = none
      ∧ (logRecords (reusedLog [[1, 2, 3], [6]] 10 [[4, 5]]) 100).1
        = wholeRecords [[1, 2, 3], [6]] 10 ++ [[4, 5]] := by
  have htorn : tornRecord 0 10 [[1, 2, 3], [6]] = none := by decide +kernel
  refine ⟨htorn, (reused_keeps_spared [[1, 2, 3], [6]] [[4, 5]] 10 100 (by decide +kernel)
    (by decide +kernel)).1 (Or.inr ?_)⟩
  rw [htorn]
  trivial

/-- Three bytes of a header were written before the crash: the record appended
    next is not read. -/
theorem reuse_loses_record :
    (logRecords (reusedLog [[1, 2, 3]] 3 [[4, 5]]) 100).1 ≠ wholeRecords [[1, 2, 3]] 3 ++ [[4, 5]] := by
  decide +kernel

end LdbLog
