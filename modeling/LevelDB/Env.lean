import LevelDB.Format

/-! # Status values and files

    `include/leveldb/status.h` and the file classes of `include/leveldb/env.h`,
    as far as the log uses them.  A file under construction carries the outcomes
    of the calls still to come, so that a call may fail after any part of its
    data has been written. -/

namespace LdbEnv

open LdbFormat

/-- `leveldb::Status`. -/
inductive Status where
  | ok
  | notFound (msg : String)
  | corruption (msg : String)
  | notSupported (msg : String)
  | invalidArgument (msg : String)
  | ioError (msg : String)
  deriving DecidableEq, Repr

/-- How a call on a file ends: well, or with an error once the first `written`
    bytes of its data are in the file. -/
inductive Outcome where
  | ok
  | fail (written : Nat) (msg : String)
  deriving DecidableEq, Repr

/-- A `WritableFile` with the outcomes of its next calls; calls beyond the list
    succeed. -/
structure WritableFile where
  contents : Slice
  outcomes : List Outcome := []
  deriving DecidableEq, Repr

/-- `WritableFile::Append`. -/
def WritableFile.append (f : WritableFile) (data : Slice) : Status × WritableFile :=
  match f.outcomes with
  | [] => (.ok, ⟨f.contents ++ data, []⟩)
  | .ok :: rest => (.ok, ⟨f.contents ++ data, rest⟩)
  | .fail n msg :: rest => (.ioError msg, ⟨f.contents ++ data.take n, rest⟩)

/-- `WritableFile::Flush`, and `Sync`. -/
def WritableFile.flush (f : WritableFile) : Status × WritableFile :=
  match f.outcomes with
  | [] => (.ok, f)
  | .ok :: rest => (.ok, ⟨f.contents, rest⟩)
  | .fail _ msg :: rest => (.ioError msg, ⟨f.contents, rest⟩)

/-- The next call on a file, made only if the last one succeeded. -/
def ifOk (r : Status × WritableFile) (call : WritableFile → Status × WritableFile) :
    Status × WritableFile :=
  if r.1 = .ok then call r.2 else r

/-- A `SequentialFile`: what is still unread, and after how many more calls one
    fails, if ever. -/
structure SequentialFile where
  unread : Slice
  fault : Option Nat := none
  deriving DecidableEq, Repr

/-- `SequentialFile::Read` of `n` bytes. -/
def SequentialFile.read (f : SequentialFile) (n : Nat) : Except Status (Slice × SequentialFile) :=
  match f.fault with
  | some 0 => .error (.ioError "read")
  | fault => .ok (f.unread.take n, ⟨f.unread.drop n, fault.map (· - 1)⟩)

/-- `SequentialFile::Skip`. -/
def SequentialFile.skip (f : SequentialFile) (n : Nat) : Except Status SequentialFile :=
  match f.fault with
  | some 0 => .error (.ioError "skip")
  | fault => .ok ⟨f.unread.drop n, fault.map (· - 1)⟩

theorem WritableFile.append_nil (c data : Slice) :
    WritableFile.append ⟨c, []⟩ data = (.ok, ⟨c ++ data, []⟩) := rfl

theorem WritableFile.flush_nil (c : Slice) :
    WritableFile.flush ⟨c, []⟩ = (.ok, ⟨c, []⟩) := rfl

theorem SequentialFile.read_none (s : Slice) (n : Nat) :
    SequentialFile.read ⟨s, none⟩ n = .ok (s.take n, ⟨s.drop n, none⟩) := rfl

/-- `Append` adds a first part of its data, and all of it if it succeeds. -/
theorem WritableFile.append_spec (f : WritableFile) (data : Slice) :
    ∃ k, (f.append data).2.contents = f.contents ++ data.take k
      ∧ ((f.append data).1 = .ok → data.length ≤ k) := by
  rcases f with ⟨c, _ | ⟨_ | ⟨n, msg⟩, rest⟩⟩
  · refine ⟨data.length, ?_, fun _ => Nat.le_refl _⟩
    rw [List.take_length]
    rfl
  · refine ⟨data.length, ?_, fun _ => Nat.le_refl _⟩
    rw [List.take_length]
    rfl
  · exact ⟨n, rfl, nofun⟩

/-- `Flush` adds nothing. -/
theorem WritableFile.flush_contents (f : WritableFile) : f.flush.2.contents = f.contents := by
  rcases f with ⟨c, _ | ⟨_ | ⟨n, msg⟩, rest⟩⟩ <;> rfl

/-- A call of `Append` that succeeds takes one outcome, a good one. -/
theorem WritableFile.append_outcomes {f : WritableFile} {data : Slice}
    (h : (f.append data).1 = .ok) :
    (∀ o ∈ f.outcomes.take 1, o = .ok) ∧ (f.append data).2.outcomes = f.outcomes.drop 1 := by
  rcases f with ⟨c, _ | ⟨_ | ⟨n, msg⟩, rest⟩⟩
  · exact ⟨nofun, rfl⟩
  · refine ⟨fun o ho => ?_, rfl⟩
    exact List.mem_singleton.mp ho
  · cases h

/-- A call of `Flush` that succeeds takes one outcome, a good one. -/
theorem WritableFile.flush_outcomes {f : WritableFile} (h : f.flush.1 = .ok) :
    (∀ o ∈ f.outcomes.take 1, o = .ok) ∧ f.flush.2.outcomes = f.outcomes.drop 1 := by
  rcases f with ⟨c, _ | ⟨_ | ⟨n, msg⟩, rest⟩⟩
  · exact ⟨nofun, rfl⟩
  · refine ⟨fun o ho => ?_, rfl⟩
    exact List.mem_singleton.mp ho
  · cases h

theorem ifOk_ok {r : Status × WritableFile} {call : WritableFile → Status × WritableFile}
    (h : (ifOk r call).1 = .ok) : r.1 = .ok ∧ ifOk r call = call r.2 := by
  rw [ifOk] at h ⊢
  by_cases hr : r.1 = .ok
  · exact ⟨hr, if_pos hr⟩
  · rw [if_neg hr] at h
    exact absurd h hr

end LdbEnv
