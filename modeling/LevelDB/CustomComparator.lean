import LevelDB.Scan

/-! # The database under a comparator of the user

    The functions of the database that compare keys take the comparator from the
    options (`UserComparator`); here they run under any comparator `cmp`.  Some
    comparisons of the source never ask the comparator and stay comparisons of bytes
    (`Slice::compare`, `operator==` on slices):

    * `RangeDeletionList::IsDeleted` (`isDeleted`);
    * the guards of `DBImpl::Scan` and `DBImpl::DeleteRange`, and the end of the
      loop of `Scan`;
    * the test of `Table::InternalGet` that the entry found is the one sought.

    No filter policy is used and no compaction runs. -/

namespace LdbCustom

open LdbFormat LdbVersion LdbTable LdbDb

variable (cmp : Slice → Slice → Ordering)

/-! ## Reads -/

/-- `DBImpl::Get` at the last sequence number. -/
def get (db : DB) (key : Slice) : Option Slice :=
  letI : UserComparator := ⟨cmp⟩
  db.get key db.lastSequence

/-- `DBImpl::Scan` at the last sequence number. -/
def scan (db : DB) (startKey endKey : Slice) : List (Slice × Slice) :=
  letI : UserComparator := ⟨cmp⟩
  LdbScan.scan db db.lastSequence startKey endKey

/-! ## Calls -/

/-- The calls that change the database, and the two steps that bring its entries
    into a table. -/
inductive Action where
  | put (key value : Slice)
  | delete (key : Slice)
  | deleteRange (startKey endKey : Slice)
  | switchMemTable
  | compactMemTable

/-- `DBImpl::Write`. -/
def write (db : DB) (batch : List Op) : Option DB :=
  letI : UserComparator := ⟨cmp⟩
  if db.lastSequence + batch.length ≤ kMaxSequenceNumber then
    some { db with
      mem := insertInto batch (db.lastSequence + 1) db.mem
      lastSequence := db.lastSequence + batch.length }
  else none

/-- One step; `none` when the action is not enabled. -/
def step (o : Options) (db : DB) : Action → Option DB
  | .put key value => write cmp db [.put key value]
  | .delete key => write cmp db [.delete key]
  | .deleteRange startKey endKey =>
    if sliceCompare startKey endKey ≠ .lt then some db
    else write cmp db [.deleteRange startKey endKey]
  | .switchMemTable =>
    match db.imm with
    | some _ => none
    | none => some { db with
        imm := some db.mem
        mem := MemTable.empty
        nextFileNumber := db.nextFileNumber + 1 }
  | .compactMemTable =>
    match db.imm with
    | none => none
    | some m =>
      letI : UserComparator := ⟨cmp⟩
      some (db.compactMemTable o m)

/-- The operations a call asks for. -/
def Action.ops : Action → List Op
  | .put key value => [.put key value]
  | .delete key => [.delete key]
  | .deleteRange startKey endKey => [.deleteRange startKey endKey]
  | _ => []

/-- The states of all runs, with the operations asked for. -/
inductive Reach (o : Options) : DB → List Op → Prop
  | init : Reach o DB.init []
  | step {db db' : DB} {h : List Op} {a : Action} : Reach o db h →
      step cmp o db a = some db' → Reach o db' (h ++ a.ops)

/-! ## What the calls mean -/

/-- The key lies in the range. -/
def InRange (startKey endKey k : Slice) : Prop := cmp startKey k ≠ .gt ∧ cmp k endKey = .lt

instance (startKey endKey k : Slice) : Decidable (InRange cmp startKey endKey k) :=
  inferInstanceAs (Decidable (_ ∧ _))

/-- The effect of an operation on the map from keys to visible entries: keys that
    compare equal have one entry, whose key is the one written last. -/
def applyOp (store : Slice → Option (Slice × Slice)) : Op → Slice → Option (Slice × Slice)
  | .put k v => fun k' => if cmp k k' = .eq then some (k, v) else store k'
  | .delete k => fun k' => if cmp k k' = .eq then none else store k'
  | .deleteRange a b => fun k' => if InRange cmp a b k' then none else store k'

/-- **The map after some operations.** -/
def entryOf (h : List Op) : Slice → Option (Slice × Slice) :=
  h.foldl (applyOp cmp) fun _ => none

/-- **The database follows the comparator.**  In every state, `Get` returns the value
    of the visible entry of the key, `Scan` exactly the visible entries of the range
    in the comparator's order, and `DeleteRange` hides exactly the keys of its range. -/
structure Follows (o : Options) : Prop where
  get : ∀ {db h}, Reach cmp o db h → ∀ k, get cmp db k = (entryOf cmp h k).map Prod.snd
  scan : ∀ {db h}, Reach cmp o db h → ∀ a b,
    (scan cmp db a b).Pairwise (fun p q => cmp p.1 q.1 = .lt)
      ∧ ∀ p, p ∈ scan cmp db a b ↔ InRange cmp a b p.1 ∧ entryOf cmp h p.1 = some p
  deleteRange : ∀ {db h}, Reach cmp o db h → ∀ a b db',
    step cmp o db (.deleteRange a b) = some db' → ∀ k,
      LdbCustom.get cmp db' k
        = if InRange cmp a b k then none else LdbCustom.get cmp db k

end LdbCustom
