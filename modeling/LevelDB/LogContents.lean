import LevelDB.Durable

/-! # What a log holds, and what recovery makes of it

    The log of a memtable holds its batches under consecutive sequence numbers.
    `RecoverLogFile` cuts the same operations into memtables of its own. -/

namespace LdbContents

open LdbFormat LdbLog LdbTable LdbInv LdbRecovery LdbDurable

/-! ## Memtables of consecutive operations -/

/-- The memtable of operations that were committed after sequence number `s`. -/
def memOf (s : Nat) (ops : List Op) : MemTable := insertInto ops (s + 1) MemTable.empty

theorem insertInto_append (a b : List Op) :
    ∀ (n : Nat) (m : MemTable),
      insertInto (a ++ b) n m = insertInto b (n + a.length) (insertInto a n m) := by
  induction a with
  | nil =>
    intro n m
    rfl
  | cons op rest ih =>
    intro n m
    rw [List.cons_append, insertInto, insertInto, ih, List.length_cons, Nat.add_right_comm,
      Nat.add_assoc]

theorem memOf_append (s : Nat) (a b : List Op) :
    insertInto b (s + a.length + 1) (memOf s a) = memOf s (a ++ b) := by
  rw [memOf, memOf, insertInto_append, Nat.add_right_comm]

theorem opEntries_append (a b : List Op) :
    ∀ n, opEntries (a ++ b) n = opEntries a n ++ opEntries b (n + a.length) := by
  induction a with
  | nil =>
    intro n
    rfl
  | cons op rest ih =>
    intro n
    rw [List.cons_append, opEntries, opEntries, ih, List.length_cons, List.cons_append,
      Nat.add_right_comm n, Nat.add_assoc]

theorem mem_opEntries (ops : List Op) :
    ∀ {n : Nat} {e : Entry}, e ∈ opEntries ops n
      ↔ ∃ (i : Nat) (op : Op), ops[i]? = some op ∧ e = op.entry (n + i) := by
  induction ops with
  | nil =>
    intro n e
    simp [opEntries]
  | cons op rest ih =>
    intro n e
    rw [opEntries, List.mem_cons, ih]
    constructor
    · rintro (rfl | ⟨i, op', hi, rfl⟩)
      · exact ⟨0, op, rfl, rfl⟩
      · exact ⟨i + 1, op', hi, by rw [Nat.add_right_comm, Nat.add_assoc]⟩
    · rintro ⟨i, op', hi, rfl⟩
      cases i with
      | zero =>
        cases hi
        exact Or.inl rfl
      | succ i => exact Or.inr ⟨i, op', hi, by rw [Nat.add_right_comm, Nat.add_assoc]⟩

variable {s : Nat} {bs : List (List Op)}

theorem mem_memOf {ops : List Op} {e : Entry} :
    e ∈ (memOf s ops).table ↔ e ∈ opEntries ops (s + 1) := by
  rw [memOf, mem_insertInto]
  simp [MemTable.empty]

/-- A memtable of committed operations is well-formed. -/
theorem memOK_memOf (pre ops post : List Op) : MemOK (pre ++ ops ++ post) (memOf pre.length ops) := by
  have h := (insertInto_spec pre ops [] MemTable.empty (memOK_empty _)
    nofun).1
  exact h.append post

/-! ## Logs -/

/-- The records of batches committed after sequence number `s`. -/
def records (s : Nat) : List (List Op) → List Slice
  | [] => []
  | b :: bs => LdbBatch.batchRep (s + 1) b :: records (s + b.length) bs

/-- The log of such batches. -/
def logBytes (s : Nat) (bs : List (List Op)) : Slice := encodeAll 0 (records s bs)

theorem records_append (bs cs : List (List Op)) :
    ∀ s, records s (bs ++ cs) = records s bs ++ records (s + bs.flatten.length) cs := by
  induction bs with
  | nil =>
    intro s
    rfl
  | cons b bs ih =>
    intro s
    rw [List.cons_append, records, records, ih, List.flatten_cons, List.length_append,
      List.cons_append, Nat.add_assoc]

theorem logBytes_eq_nil : logBytes s bs = [] ↔ bs = [] := by
  constructor
  · intro h
    cases bs with
    | nil => rfl
    | cons b bs => cases encodeAll_eq_nil h
  · rintro rfl
    rfl

/-- The batches can be logged after sequence number `s`. -/
structure LoggableAll (s : Nat) (bs : List (List Op)) : Prop where
  bound : s + bs.flatten.length ≤ kMaxSequenceNumber
  length : ∀ b ∈ bs, b.length < 2 ^ 32
  storable : ∀ b ∈ bs, ∀ op ∈ b, Storable op

theorem fitsOp_of_storable {op : Op} (h : Storable op) : LdbBatch.FitsOp op := by
  cases op with
  | put key value => exact ⟨Nat.lt_of_le_of_lt (Nat.le_add_right _ 8) h.1, h.2⟩
  | delete key => exact Nat.lt_of_le_of_lt (Nat.le_add_right _ 8) h
  | deleteRange startKey endKey =>
    exact ⟨Nat.lt_of_le_of_lt (Nat.le_add_right _ 8) h.1,
      Nat.lt_of_le_of_lt (Nat.le_add_right _ 8) h.2⟩

theorem loggableAll_cons {b : List Op} (h : LoggableAll s (b :: bs)) :
    LoggableAll (s + b.length) bs := by
  refine ⟨?_, fun c hc => h.length c (List.mem_cons_of_mem _ hc),
    fun c hc => h.storable c (List.mem_cons_of_mem _ hc)⟩
  have := h.bound
  rw [List.flatten_cons, List.length_append] at this
  omega

/-- Memtables that hold operations in consecutive segments. -/
inductive Segments : Nat → List Op → List MemTable → Prop
  | nil (s : Nat) : Segments s [] []
  | cons {s : Nat} {ops : List Op} {ms : List MemTable} (seg : List Op) :
      Segments (s + seg.length) ops ms → Segments s (seg ++ ops) (memOf s seg :: ms)

theorem Segments.append {a b : List Op} {ms ns : List MemTable} (ha : Segments s a ms)
    (hb : Segments (s + a.length) b ns) : Segments s (a ++ b) (ms ++ ns) := by
  induction ha with
  | nil => exact hb
  | @cons s ops ms seg _ ih =>
    rw [List.append_assoc, List.cons_append]
    refine Segments.cons seg (ih ?_)
    rw [Nat.add_assoc, ← List.length_append]
    exact hb

theorem Segments.snoc {a : List Op} {ms : List MemTable} (ha : Segments s a ms) (seg : List Op) :
    Segments s (a ++ seg) (ms ++ [memOf (s + a.length) seg]) := by
  have hone : Segments (s + a.length) (seg ++ []) (memOf (s + a.length) seg :: []) :=
    Segments.cons seg (Segments.nil _)
  rw [List.append_nil] at hone
  exact ha.append hone

/-- What `RecoverLogFile` holds after some batches: flushed segments, and the
    operations since in its memtable. -/
structure Replayed (s max0 : Nat) (bs : List (List Op)) (r : Recovery) : Prop where
  status : r.status = .ok
  holds : ∃ done cur, done ++ cur = bs.flatten ∧ Segments s done r.flushed
    ∧ (r.mem = none ∧ cur = [] ∨ r.mem = some (memOf (s + done.length) cur))
  none : bs = [] → r.maxSequence = max0
  some : bs ≠ [] → r.maxSequence = max max0 (s + bs.flatten.length)

/-- **One more batch.** -/
theorem Replayed.consume {max0 : Nat} {r : Recovery} (h : Replayed s max0 bs r)
    (o : RecoveryOptions) {b : List Op}
    (hbound : s + bs.flatten.length + b.length ≤ kMaxSequenceNumber) (hlen : b.length < 2 ^ 32)
    (hstorable : ∀ op ∈ b, Storable op) :
    Replayed s max0 (bs ++ [b])
      (consume o r (LdbBatch.batchRep (s + bs.flatten.length + 1) b)) := by
  obtain ⟨done, cur, hcat, hsegs, hmem⟩ := h.holds
  have hmax : kMaxSequenceNumber < 2 ^ 64 - 1 := by decide
  have hseq : s + bs.flatten.length + 1 < 2 ^ 64 := by omega
  have hheader : ¬ (LdbBatch.batchRep (s + bs.flatten.length + 1) b).length < LdbBatch.kHeader := by
    rw [LdbBatch.batchRep_length]
    omega
  -- the batch goes after the operations the memtable holds
  have hinsert : LdbBatch.insertInto (LdbBatch.batchRep (s + bs.flatten.length + 1) b)
      (r.mem.getD MemTable.empty) = (memOf (s + done.length) (cur ++ b), .ok) := by
    rw [LdbBatch.insertInto_batchRep hseq fun op hop => fitsOp_of_storable (hstorable op hop),
      ← memOf_append, ← hcat, List.length_append, Nat.add_assoc s done.length]
    rcases hmem with ⟨hnone, rfl⟩ | hsome
    · rw [hnone]
      rfl
    · rw [hsome]
      rfl
  have hlast : sub64 (LdbBatch.sequence (LdbBatch.batchRep (s + bs.flatten.length + 1) b)
      + LdbBatch.count (LdbBatch.batchRep (s + bs.flatten.length + 1) b)) 1
      = s + bs.flatten.length + b.length := by
    rw [LdbBatch.sequence_batchRep hseq, LdbBatch.count_batchRep _ hlen, sub64]
    omega
  have hflat : (bs ++ [b]).flatten = done ++ (cur ++ b) := by
    rw [List.flatten_append, List.flatten_singleton, ← hcat, List.append_assoc]
  have hnew : max r.maxSequence (s + bs.flatten.length + b.length)
      = max max0 (s + (bs ++ [b]).flatten.length) := by
    have htotal : (bs ++ [b]).flatten.length = bs.flatten.length + b.length := by
      rw [List.flatten_append, List.flatten_singleton, List.length_append]
    by_cases hbs : bs = []
    · rw [h.none hbs, htotal, Nat.add_assoc]
    · rw [h.some hbs, htotal]
      omega
  rw [LdbRecovery.consume, if_neg hheader, Recovery.insert]
  simp only [hinsert, hlast, hnew, maybeIgnoreError, true_or, if_true, ne_eq, not_true_eq_false,
    if_false]
  split
  · refine ⟨rfl, ⟨done ++ (cur ++ b), [], ?_, hsegs.snoc (cur ++ b), Or.inl ⟨rfl, rfl⟩⟩,
      fun hnil => absurd hnil (by simp), fun _ => rfl⟩
    rw [List.append_nil, hflat]
  · exact ⟨rfl, ⟨done, cur ++ b, hflat.symm, hsegs, Or.inr rfl⟩,
      fun hnil => absurd hnil (by simp), fun _ => rfl⟩

/-- The loop over all batches. -/
theorem Replayed.foldl {max0 : Nat} (o : RecoveryOptions) (cs : List (List Op)) :
    ∀ {bs : List (List Op)} {r : Recovery}, Replayed s max0 bs r →
      LoggableAll (s + bs.flatten.length) cs →
      Replayed s max0 (bs ++ cs)
        ((records (s + bs.flatten.length) cs).foldl (LdbRecovery.consume o) r) := by
  induction cs with
  | nil =>
    intro bs r h _
    rw [List.append_nil]
    exact h
  | cons b cs ih =>
    intro bs r h hlog
    have hbound := hlog.bound
    rw [List.flatten_cons, List.length_append] at hbound
    have hone := h.consume o (b := b) (by omega) (hlog.length b List.mem_cons_self)
      (hlog.storable b List.mem_cons_self)
    have hnext : s + bs.flatten.length + b.length = s + (bs ++ [b]).flatten.length := by
      rw [List.flatten_append, List.flatten_singleton, List.length_append, Nat.add_assoc]
    have hrest := loggableAll_cons hlog
    rw [hnext] at hrest
    rw [records, List.foldl_cons, hnext, List.append_cons]
    exact ih hone hrest

/-- A record of a loggable batch is a batch. -/
theorem acceptable_records {o : RecoveryOptions} (bs : List (List Op)) :
    ∀ {s : Nat}, LoggableAll s bs → ∀ record ∈ records s bs, Acceptable o record := by
  induction bs with
  | nil => nofun
  | cons b bs ih =>
    intro s hlog record hr
    rcases List.mem_cons.mp hr with rfl | hr
    · intro _
      refine ⟨?_, ?_⟩
      · rw [LdbBatch.batchRep_length]
        omega
      · rw [LdbBatch.iterate_batchRep _ fun op hop =>
          fitsOp_of_storable (hlog.storable b List.mem_cons_self op hop)]
    · exact ih (loggableAll_cons hlog) record hr

/-- **`RecoverLogFile` on a log of batches**: either the log is used further with
    one memtable of all its operations, or the operations are flushed segment by
    segment. -/
theorem recoverLogFile_logBytes (o : RecoveryOptions) (lastLog : Bool) (max0 : Nat)
    (hlog : LoggableAll s bs) :
    (recoverLogFile o lastLog max0 (logBytes s bs)).1.status = .ok
      ∧ (bs = [] → (recoverLogFile o lastLog max0 (logBytes s bs)).1.maxSequence = max0)
      ∧ (bs ≠ [] → (recoverLogFile o lastLog max0 (logBytes s bs)).1.maxSequence
          = max max0 (s + bs.flatten.length))
      ∧ (((recoverLogFile o lastLog max0 (logBytes s bs)).2 = true
          ∧ lastLog = true
          ∧ (recoverLogFile o lastLog max0 (logBytes s bs)).1.flushed = []
          ∧ (recoverLogFile o lastLog max0 (logBytes s bs)).1.mem = some (memOf s bs.flatten))
        ∨ ((recoverLogFile o lastLog max0 (logBytes s bs)).2 = false
          ∧ Segments s bs.flatten (recoverLogFile o lastLog max0 (logBytes s bs)).1.flushed)) := by
  obtain ⟨events, hscan, hassemble⟩ := encodeAll_scan (records s bs)
  rw [← logBytes] at hscan
  have hloop := recoverLoop_eq o ((logBytes s bs).length + 1) _ events ⟨.ok, none, [], max0⟩
    (ready_new hscan) (Nat.lt_succ_self _) (fun _ => by rw [hassemble])
    (by rw [hassemble]; exact acceptable_records bs hlog) rfl
  rw [hassemble] at hloop
  have hstart : Replayed s max0 [] ⟨.ok, none, [], max0⟩ :=
    ⟨rfl, ⟨[], [], rfl, Segments.nil s, Or.inl ⟨rfl, rfl⟩⟩, fun _ => rfl, absurd rfl⟩
  have hreplayed := Replayed.foldl o bs hstart (by simpa using hlog)
  rw [List.nil_append, List.flatten_nil, List.length_nil, Nat.add_zero] at hreplayed
  rw [recoverLogFile, hloop]
  generalize (records s bs).foldl (LdbRecovery.consume o) ⟨.ok, none, [], max0⟩ = r at hreplayed
  obtain ⟨done, cur, hcat, hsegs, hmem⟩ := hreplayed.holds
  rw [Recovery.finish]
  by_cases hreuse : r.status = .ok ∧ o.reuseLogs = true ∧ lastLog = true ∧ r.flushed = []
  · rw [if_pos hreuse]
    refine ⟨hreplayed.status, hreplayed.none, hreplayed.some,
      Or.inl ⟨rfl, hreuse.2.2.1, hreuse.2.2.2, ?_⟩⟩
    have hdone : done = [] := by
      rw [hreuse.2.2.2] at hsegs
      cases hsegs
      rfl
    subst hdone
    rw [List.nil_append] at hcat
    rcases hmem with ⟨hnone, rfl⟩ | hsome
    · rw [hnone, ← hcat]
      rfl
    · rw [hsome, ← hcat]
      rfl
  · rw [if_neg hreuse]
    rcases hmem with ⟨hnone, rfl⟩ | hsome
    · rw [hnone]
      refine ⟨hreplayed.status, hreplayed.none, hreplayed.some, Or.inr ⟨rfl, ?_⟩⟩
      rw [← hcat, List.append_nil]
      exact hsegs
    · rw [hsome]
      simp only [hreplayed.status, if_true]
      refine ⟨trivial, hreplayed.none, hreplayed.some, Or.inr ⟨trivial, ?_⟩⟩
      rw [← hcat]
      exact hsegs.snoc cur

end LdbContents
