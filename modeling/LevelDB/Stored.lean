import LevelDB.Core
import LevelDB.LogContents

/-! # What a database holds, entry by entry

    A database holds the entries of its memtables and of the tables of its current
    version; a range deletion in a table counts as its marker.  In these terms a
    flush changes nothing, and what every run keeps of the contents (`Core`) is a
    statement about the set of entries (`Complete`). -/

namespace LdbStored

open LdbFormat LdbVersion LdbEditCodec LdbTable LdbWork LdbDb LdbInv LdbCore LdbSteps LdbRecovery
open LdbContents

/-! ## Contents -/

/-- The table holds the entry. -/
def TableHas (t : Table) (e : Entry) : Prop :=
  e ∈ t.entries ∨ ∃ d ∈ t.rangeDeletions, e = tombstoneEntry d

/-- A table of the version holds the entry. -/
def VersionHas (tables : Nat → Table) (v : Version) (e : Entry) : Prop :=
  ∃ l, ∃ f ∈ v.files l, TableHas (tables f.number) e

/-- A memtable or a table of the current version holds the entry. -/
def Has (db : DB) (e : Entry) : Prop :=
  e ∈ db.mem.table ∨ (∃ m ∈ db.imm, e ∈ m.table) ∨ VersionHas db.tables db.current e

/-- Everything held was committed, and no range deletion is missing. -/
structure Complete (h : List Op) (S : Entry → Prop) : Prop where
  committed : ∀ e, S e → Committed h e
  kept : ∀ e, Committed h e → e.key.type = .rangeDeletion → S e

variable {h : List Op} {d : RangeDeletion}

theorem Complete.congr {S T : Entry → Prop} (hs : Complete h S) (heq : ∀ e, T e ↔ S e) :
    Complete h T :=
  ⟨fun e he => hs.committed e ((heq e).mp he), fun e he ht => (heq e).mpr (hs.kept e he ht)⟩

/-- One more group. -/
theorem Complete.append {ops : List Op} {S : Entry → Prop} (hs : Complete h S) :
    Complete (h ++ ops) (fun e => S e ∨ e ∈ opEntries ops (h.length + 1)) := by
  have hadded : ∀ e, e ∈ opEntries ops (h.length + 1) ↔ LdbSequential.Added h ops e := by
    intro e
    rw [mem_opEntries]
    refine exists_congr fun i => exists_congr fun op => and_congr_right fun _ => ?_
    rw [Nat.add_right_comm]
  refine ⟨fun e he => ?_, fun e he ht => ?_⟩
  · rw [LdbSequential.committed_append, ← hadded]
    exact he.imp (hs.committed e) id
  · rw [LdbSequential.committed_append, ← hadded] at he
    exact he.imp (fun hc => hs.kept e hc ht) id

theorem tombstoneEntry_eq {e : Entry} (ht : e.key.type = .rangeDeletion) :
    tombstoneEntry e.rangeDeletion = e := by
  obtain ⟨⟨userKey, sequence, type⟩, value⟩ := e
  obtain rfl : type = .rangeDeletion := ht
  rfl

theorem committed_tombstoneEntry : Committed h (tombstoneEntry d) ↔ CommittedDel h d := by
  constructor
  · intro hc
    exact hc.rangeDeletion rfl
  · rintro ⟨i, a, b, hi, rfl⟩
    exact ⟨i, .deleteRange a b, hi, rfl⟩

variable {m : MemTable}

/-- A marker is in a memtable exactly if the memtable lists its range deletion. -/
theorem mem_tombstoneEntry (hm : MemOK h m) :
    tombstoneEntry d ∈ m.table ↔ d ∈ m.rangeDeletions := by
  rw [hm.dels]
  constructor
  · intro hd
    exact ⟨_, hd, rfl, rfl⟩
  · rintro ⟨e, he, ht, rfl⟩
    rw [tombstoneEntry_eq ht]
    exact he

/-- A marker is in a table exactly if the table lists its range deletion. -/
theorem tableHas_tombstoneEntry {t : Table} (hpoints : ∀ e ∈ t.entries, e.isPoint = true) :
    TableHas t (tombstoneEntry d) ↔ d ∈ t.rangeDeletions := by
  constructor
  · rintro (he | ⟨d', hd', heq⟩)
    · have := hpoints _ he
      cases this
    · have hd : d = d' := congrArg Entry.rangeDeletion heq
      rw [hd]
      exact hd'
  · intro hd
    exact Or.inr ⟨d, hd, rfl⟩

/-- A database holds the marker of a range deletion exactly if it holds the range
    deletion. -/
theorem has_tombstoneEntry {db : DB} (hmem : MemOK h db.mem) (himm : ∀ m ∈ db.imm, MemOK h m)
    (hpoints : ∀ l, ∀ f ∈ db.current.files l, ∀ e ∈ (db.tables f.number).entries, e.isPoint = true) :
    Has db (tombstoneEntry d) ↔ HasDel db d := by
  refine or_congr (mem_tombstoneEntry hmem) (or_congr ?_ ?_)
  · exact exists_congr fun m => and_congr_right fun hm => mem_tombstoneEntry (himm m hm)
  · exact exists_congr fun l => exists_congr fun f => and_congr_right fun hf =>
      tableHas_tombstoneEntry (hpoints l f hf)

theorem complete_of_core {db : DB} (hc : Core db h) : Complete h (Has db) := by
  refine ⟨fun e he => ?_, fun e he ht => ?_⟩
  · rcases he with he | ⟨m, hm, he⟩ | ⟨l, f, hf, he | ⟨d, hd, rfl⟩⟩
    · exact hc.mem.committed e he
    · exact (hc.imm m hm).committed e he
    · exact hc.entries l f hf e he
    · rw [committed_tombstoneEntry, ← hc.dels d]
      exact Or.inr (Or.inr ⟨l, f, hf, hd⟩)
  · rw [← tombstoneEntry_eq ht, has_tombstoneEntry hc.mem hc.imm hc.points, hc.dels]
    exact he.rangeDeletion ht

/-- **`Core` from the contents**, for a database without an immutable memtable and
    without a running compaction. -/
theorem core_of_complete {db : DB} (hlen : db.lastSequence = h.length)
    (hbound : h.length ≤ kMaxSequenceNumber) (hlisted : Listed db.current db.nextFileNumber)
    (hpoints : ∀ l, ∀ f ∈ db.current.files l, ∀ e ∈ (db.tables f.number).entries, e.isPoint = true)
    (hmem : MemOK h db.mem) (himm : db.imm = none) (hrun : db.running = none)
    (hc : Complete h (Has db)) : Core db h where
  length := hlen
  bound := hbound
  listed := hlisted
  points := hpoints
  entries l f hf e he := hc.committed e (Or.inr (Or.inr ⟨l, f, hf, Or.inl he⟩))
  mem := hmem
  imm m hm := by
    rw [himm] at hm
    cases hm
  dels d := by
    rw [← has_tombstoneEntry hmem (fun m hm => by rw [himm] at hm; cases hm) hpoints,
      ← committed_tombstoneEntry]
    exact ⟨hc.committed _, fun h => hc.kept _ h rfl⟩
  pending r hr := by
    rw [hrun] at hr
    cases hr

/-! ## Flushes -/

/-- A flushed table holds what the memtable held. -/
theorem flushed_has {number : Nat} {f : FileMetaData} {t : Table}
    (hf : Flushed m number f t) {e : Entry} : TableHas t e ↔ e ∈ m.table := by
  rw [TableHas, hf.entries, hf.dels, List.mem_filter]
  constructor
  · rintro (⟨he, -⟩ | ⟨d, hd, rfl⟩)
    · exact he
    · obtain ⟨e', he', rfl⟩ := List.mem_map.mp hd
      obtain ⟨he', hp⟩ := List.mem_filter.mp he'
      rw [tombstoneEntry_eq (by simpa [Entry.isPoint] using hp)]
      exact he'
  · intro he
    by_cases hp : e.isPoint = true
    · exact Or.inl ⟨he, hp⟩
    · refine Or.inr ⟨e.rangeDeletion, List.mem_map.mpr ⟨e, List.mem_filter.mpr ⟨he, ?_⟩, rfl⟩, ?_⟩
      · simpa using hp
      · exact (tombstoneEntry_eq (by simpa [Entry.isPoint] using hp)).symm

/-- The keys an entry can give to the bounds of a file are in the range of their
    types. -/
def FitsEntry (e : Entry) : Prop :=
  FitsKey e.key ∧ (e.key.type = .rangeDeletion → FitsKey ⟨e.value, 0, .deletion⟩)

theorem opEntries_fits (ops : List Op) :
    ∀ {n : Nat}, (∀ op ∈ ops, LdbDurable.Storable op) → n + ops.length ≤ kMaxSequenceNumber + 1 →
      ∀ e ∈ opEntries ops n, FitsEntry e := by
  induction ops with
  | nil => nofun
  | cons op rest ih =>
    intro n hops hn e he
    rw [List.length_cons] at hn
    rcases List.mem_cons.mp he with rfl | he
    · have hop := hops op List.mem_cons_self
      have hseq : n ≤ kMaxSequenceNumber := by omega
      cases op with
      | put key value => exact ⟨⟨hseq, hop.1⟩, nofun⟩
      | delete key => exact ⟨⟨hseq, hop⟩, nofun⟩
      | deleteRange startKey endKey => exact ⟨⟨hseq, hop.1⟩, fun _ => ⟨Nat.zero_le _, hop.2⟩⟩
    · exact ih (List.forall_mem_cons.mp hops).2 (by omega) e he

theorem foldl_widenBounds_fits (dels : List RangeDeletion) :
    ∀ {f : FileMetaData}, FitsKey f.smallest → FitsKey f.largest →
      (∀ d ∈ dels, FitsKey ⟨d.startKey, d.seq, .rangeDeletion⟩ ∧ FitsKey ⟨d.endKey, 0, .deletion⟩) →
      FitsKey (dels.foldl widenBounds f).smallest ∧ FitsKey (dels.foldl widenBounds f).largest
        ∧ (dels.foldl widenBounds f).fileSize = f.fileSize := by
  induction dels with
  | nil =>
    intro f hs hl _
    exact ⟨hs, hl, rfl⟩
  | cons d rest ih =>
    intro f hs hl hd
    obtain ⟨hstart, hend⟩ := hd d List.mem_cons_self
    refine ih ?_ ?_ fun d' hd' => hd d' (List.mem_cons_of_mem _ hd')
    · show FitsKey (if _ then _ else _)
      split
      · exact hstart
      · exact hs
    · show FitsKey (if _ then _ else _)
      split
      · exact hend
      · exact hl

/-- **The file of a flushed memtable** is in the range of its types. -/
theorem flushed_fits {o : Options} (hsize : ∀ es, o.finishedSize es < 2 ^ 64) {base : Version}
    {number : Nat} {f : FileMetaData} {t : Table} {level : Nat} (hm : MemOK h m)
    (hfits : ∀ e ∈ m.table, FitsEntry e)
    (hw : writeLevel0Table o base number m = some (f, t, level)) (hnumber : number < 2 ^ 64) :
    FitsFile f := by
  have hspec := (writeLevel0Table_spec hm.sorted hw).1.number
  rw [writeLevel0Table, buildTable] at hw
  split at hw
  · cases hw
  · rename_i g u hb
    split at hb
    · rename_i first last hfirst hlast
      simp only [Option.some.injEq, Prod.mk.injEq] at hb hw
      obtain ⟨rfl, rfl⟩ := hb
      obtain ⟨rfl, rfl, -⟩ := hw
      obtain ⟨h1, h2, h3⟩ := foldl_widenBounds_fits m.rangeDeletions
        (f := ⟨number, o.finishedSize m.table, first.key, last.key⟩)
        (hfits first (List.mem_of_mem_head? hfirst)).1
        (hfits last (List.mem_of_getLast? hlast)).1 (fun d hd => by
          obtain ⟨e, he, ht, rfl⟩ := (hm.dels d).mp hd
          obtain ⟨hkey, hval⟩ := hfits e he
          exact ⟨hkey, hval ht⟩)
      refine ⟨?_, ?_, h1, h2⟩
      · rw [hspec]
        exact hnumber
      · rw [h3]
        exact hsize _
    · cases hb

end LdbStored
