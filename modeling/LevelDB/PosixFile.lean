import LevelDB.Env

/-! # Buffered files

    `PosixWritableFile` of `util/env_posix.cc`.  The system calls are given by their
    outcomes in order: a `::write` takes any part of its request, is interrupted, or
    fails; calls beyond the lists succeed.  A call that returns makes finitely many of
    them, so every run of calls that return is one for some lists.  The descriptor is
    what it has been passed. -/

namespace LdbPosixFile

open LdbFormat LdbEnv

/-- `kWritableFileBufferSize`. -/
def kWritableFileBufferSize : Nat := 65536

/-- `memcpy` to an offset of a buffer. -/
def copyTo (buf : Slice) (offset : Nat) (data : Slice) : Slice :=
  buf.take offset ++ data ++ buf.drop (offset + data.length)

theorem length_copyTo {buf data : Slice} {offset : Nat} (h : offset + data.length ≤ buf.length) :
    (copyTo buf offset data).length = buf.length := by
  rw [copyTo, List.length_append, List.length_append, List.length_take, List.length_drop]
  omega

/-- The bytes up to the end of what was copied. -/
theorem take_copyTo {buf : Slice} (data : Slice) {offset : Nat} (h : offset ≤ buf.length) :
    (copyTo buf offset data).take (offset + data.length) = buf.take offset ++ data := by
  rw [copyTo, List.take_left']
  rw [List.length_append, List.length_take, min_eq_left h]

/-- What `errno` says. -/
structure ErrorNumber where
  isENOENT : Bool
  text : String

/-- `PosixError`. -/
def posixError (context : String) (error : ErrorNumber) : Status :=
  if error.isENOENT = true then .notFound (context ++ ": " ++ error.text)
  else .ioError (context ++ ": " ++ error.text)

/-- The outcome of a `::write`. -/
inductive WriteResult where
  | wrote (n : Nat)
  | eintr
  | failed (error : ErrorNumber)

/-- `PosixWritableFile`, with what its descriptor has been passed and the outcomes of
    the system calls to come: those of `::write`, and those of the `::open` of the
    directory and of `::fdatasync`. -/
structure PosixWritableFile where
  buf : Slice
  pos : Nat
  isManifest : Bool
  filename : String
  dirname : String
  passed : Slice
  writes : List WriteResult
  syncs : List (Option ErrorNumber)

/-- The loop of `WriteUnbuffered`: the error it ends with, what the descriptor has been
    passed, and the outcomes left. -/
def writeLoop : List WriteResult → Slice → Slice → Option ErrorNumber × Slice × List WriteResult
  | writes, passed, [] => (none, passed, writes)
  | [], passed, data => (none, passed ++ data, [])
  | .eintr :: writes, passed, data => writeLoop writes passed data
  | .failed error :: writes, passed, _ => (some error, passed, writes)
  | .wrote n :: writes, passed, data => writeLoop writes (passed ++ data.take n) (data.drop n)

namespace PosixWritableFile

/-- `WriteUnbuffered`. -/
def writeUnbuffered (f : PosixWritableFile) (data : Slice) : Status × PosixWritableFile :=
  let r := writeLoop f.writes f.passed data
  let f := { f with passed := r.2.1, writes := r.2.2 }
  match r.1 with
  | some error => (posixError f.filename error, f)
  | none => (.ok, f)

/-- `FlushBuffer`; the buffer is given up even if it could not be written. -/
def flushBuffer (f : PosixWritableFile) : Status × PosixWritableFile :=
  let r := f.writeUnbuffered (f.buf.take f.pos)
  (r.1, { r.2 with pos := 0 })

/-- `Append`. -/
def append (f : PosixWritableFile) (data : Slice) : Status × PosixWritableFile :=
  let copySize := min data.length (kWritableFileBufferSize - f.pos)
  let f := { f with
    buf := copyTo f.buf f.pos (data.take copySize)
    pos := f.pos + copySize }
  let data := data.drop copySize
  if data.length = 0 then (.ok, f)
  else
    let r := f.flushBuffer
    if r.1 ≠ .ok then r
    else if data.length < kWritableFileBufferSize then
      (.ok, { r.2 with buf := copyTo r.2.buf 0 data, pos := data.length })
    else r.2.writeUnbuffered data

/-- `SyncFd`, and any other call that only succeeds or fails. -/
def syncFd (f : PosixWritableFile) (path : String) : Status × PosixWritableFile :=
  match f.syncs with
  | [] => (.ok, f)
  | none :: rest => (.ok, { f with syncs := rest })
  | some error :: rest => (posixError path error, { f with syncs := rest })

/-- `SyncDirIfManifest`: the directory is opened and synced. -/
def syncDirIfManifest (f : PosixWritableFile) : Status × PosixWritableFile :=
  if f.isManifest = true then
    let r := f.syncFd f.dirname
    if r.1 ≠ .ok then r else r.2.syncFd f.dirname
  else (.ok, f)

/-- `Sync`. -/
def sync (f : PosixWritableFile) : Status × PosixWritableFile :=
  let r := f.syncDirIfManifest
  if r.1 ≠ .ok then r
  else
    let r := r.2.flushBuffer
    if r.1 ≠ .ok then r else r.2.syncFd r.2.filename

/-- A call on the file. -/
inductive Call where
  | append (data : Slice)
  | flush
  | sync

/-- The data of a call. -/
def Call.data : Call → Slice
  | .append data => data
  | .flush => []
  | .sync => []

/-- What a call does; `Flush` is `FlushBuffer`. -/
def perform (f : PosixWritableFile) : Call → Status × PosixWritableFile
  | .append data => f.append data
  | .flush => f.flushBuffer
  | .sync => f.sync

/-- The file after some calls, whatever they return. -/
def run (f : PosixWritableFile) (calls : List Call) : PosixWritableFile :=
  calls.foldl (fun f call => (f.perform call).2) f

end PosixWritableFile

open PosixWritableFile

/-! ## What the calls keep -/

/-- Everything that was appended has been passed on or is in the buffer, and no error of
    `::write` is to come. -/
structure Streams (f : PosixWritableFile) (appended : Slice) : Prop where
  size : f.buf.length = kWritableFileBufferSize
  pos_le : f.pos ≤ kWritableFileBufferSize
  bytes : f.passed ++ f.buf.take f.pos = appended
  clean : ∀ r ∈ f.writes, ∀ error, r ≠ .failed error

theorem writeLoop_spec (writes : List WriteResult) (passed data : Slice)
    (hclean : ∀ r ∈ writes, ∀ error, r ≠ .failed error) :
    (writeLoop writes passed data).1 = none
      ∧ (writeLoop writes passed data).2.1 = passed ++ data
      ∧ (writeLoop writes passed data).2.2 <:+ writes := by
  fun_induction writeLoop writes passed data with
  | case1 writes passed => exact ⟨rfl, (List.append_nil _).symm, List.suffix_rfl⟩
  | case2 passed data hne => exact ⟨rfl, rfl, List.suffix_rfl⟩
  | case3 passed writes data hne ih =>
    obtain ⟨herror, hpassed, hleft⟩ := ih (List.forall_mem_cons.mp hclean).2
    exact ⟨herror, hpassed, hleft.trans (List.suffix_cons ..)⟩
  | case4 error writes passed data hne =>
    exact absurd rfl (hclean _ (List.mem_cons_self ..) error)
  | case5 passed n writes data hne ih =>
    obtain ⟨herror, hpassed, hleft⟩ := ih (List.forall_mem_cons.mp hclean).2
    rw [List.append_assoc, List.take_append_drop] at hpassed
    exact ⟨herror, hpassed, hleft.trans (List.suffix_cons ..)⟩

theorem writeUnbuffered_eq {f : PosixWritableFile}
    (hclean : ∀ r ∈ f.writes, ∀ error, r ≠ .failed error) (data : Slice) :
    ∃ writes, writes <:+ f.writes
      ∧ f.writeUnbuffered data
        = (.ok, { f with passed := f.passed ++ data, writes := writes }) := by
  obtain ⟨herror, hpassed, hleft⟩ := writeLoop_spec f.writes f.passed data hclean
  refine ⟨_, hleft, ?_⟩
  rw [writeUnbuffered]
  simp only [herror, hpassed]

namespace Streams

variable {f : PosixWritableFile} {appended : Slice}

section

variable (h : Streams f appended)
include h

/-- Neither the outcomes of the other system calls nor the outcomes used up matter. -/
theorem of_suffix {writes : List WriteResult} (hw : writes <:+ f.writes)
    (syncs : List (Option ErrorNumber)) :
    Streams { f with writes := writes, syncs := syncs } appended :=
  ⟨h.size, h.pos_le, h.bytes, fun r hr => h.clean r (hw.subset hr)⟩

/-- `FlushBuffer` passes everything on. -/
theorem flushBuffer :
    f.flushBuffer.1 = .ok ∧ f.flushBuffer.2.passed = appended ∧ f.flushBuffer.2.pos = 0
      ∧ Streams f.flushBuffer.2 appended := by
  obtain ⟨writes, hw, heq⟩ := writeUnbuffered_eq h.clean (f.buf.take f.pos)
  rw [PosixWritableFile.flushBuffer, heq]
  refine ⟨rfl, h.bytes, rfl, h.size, Nat.zero_le _, ?_, fun r hr => h.clean r (hw.subset hr)⟩
  show (f.passed ++ f.buf.take f.pos) ++ f.buf.take 0 = appended
  rw [List.take_zero, List.append_nil, h.bytes]

/-- Data copied behind the buffered bytes. -/
theorem copy (data : Slice) (hfits : f.pos + data.length ≤ kWritableFileBufferSize) :
    Streams { f with buf := copyTo f.buf f.pos data, pos := f.pos + data.length }
      (appended ++ data) := by
  have hroom : f.pos + data.length ≤ f.buf.length := h.size ▸ hfits
  refine ⟨(length_copyTo hroom).trans h.size, hfits, ?_, h.clean⟩
  show f.passed ++ (copyTo f.buf f.pos data).take (f.pos + data.length) = _
  rw [take_copyTo data (by omega), ← List.append_assoc, h.bytes]

/-- `Append`: what fits is buffered; the rest is, once the buffer has been passed on, or
    is passed on itself. -/
theorem append (data : Slice) :
    (f.append data).1 = .ok ∧ Streams (f.append data).2 (appended ++ data) := by
  rw [PosixWritableFile.append]
  generalize hcopy : min data.length (kWritableFileBufferSize - f.pos) = copySize
  have hlen : (data.take copySize).length = copySize := by
    rw [List.length_take]
    omega
  have hpos := h.pos_le
  have hcopied := h.copy (data.take copySize) (by rw [hlen]; omega)
  rw [hlen] at hcopied
  have hwhole : (appended ++ data.take copySize) ++ data.drop copySize = appended ++ data := by
    rw [List.append_assoc, List.take_append_drop]
  by_cases hall : (data.drop copySize).length = 0
  · rw [List.length_eq_zero_iff.mp hall, List.append_nil] at hwhole
    simp only [hall, if_true]
    exact ⟨trivial, hwhole ▸ hcopied⟩
  · obtain ⟨hok, hpassed, hzero, hflushed⟩ := hcopied.flushBuffer
    simp only [if_neg hall, hok, ne_eq, not_true_eq_false, if_false]
    rw [← hwhole]
    by_cases hsmall : (data.drop copySize).length < kWritableFileBufferSize
    · rw [if_pos hsmall]
      have hrest := hflushed.copy (data.drop copySize) (by rw [hzero]; omega)
      rw [hzero, Nat.zero_add] at hrest
      exact ⟨rfl, hrest⟩
    · rw [if_neg hsmall]
      obtain ⟨writes, hw, heq⟩ := writeUnbuffered_eq hflushed.clean (data.drop copySize)
      rw [heq]
      refine ⟨rfl, hflushed.size, hflushed.pos_le, ?_, fun r hr => hflushed.clean r (hw.subset hr)⟩
      show (_ ++ data.drop copySize) ++ List.take _ _ = _
      rw [hpassed, hzero, List.take_zero, List.append_nil]

theorem syncFd (path : String) :
    Streams (f.syncFd path).2 appended ∧ (f.syncFd path).2.passed = f.passed := by
  rw [PosixWritableFile.syncFd]
  rcases f.syncs with _ | ⟨_ | error, rest⟩
  · exact ⟨h, rfl⟩
  · exact ⟨h.of_suffix List.suffix_rfl rest, rfl⟩
  · exact ⟨h.of_suffix List.suffix_rfl rest, rfl⟩

theorem syncDirIfManifest : Streams f.syncDirIfManifest.2 appended := by
  rw [PosixWritableFile.syncDirIfManifest]
  by_cases hm : f.isManifest = true
  · have hopened := (h.syncFd f.dirname).1
    simp only [if_pos hm]
    by_cases hok : (f.syncFd f.dirname).1 ≠ .ok
    · rw [if_pos hok]
      exact hopened
    · rw [if_neg hok]
      exact (hopened.syncFd f.dirname).1
  · rw [if_neg hm]
    exact h

/-- `Sync` passes everything on if it succeeds, and loses nothing if it does not. -/
theorem sync : Streams f.sync.2 appended ∧ (f.sync.1 = .ok → f.sync.2.passed = appended) := by
  rw [PosixWritableFile.sync]
  have hdir := h.syncDirIfManifest
  by_cases hok : f.syncDirIfManifest.1 ≠ .ok
  · simp only [if_pos hok]
    exact ⟨hdir, fun hok' => absurd hok' hok⟩
  · obtain ⟨hflush, hpassed, -, hflushed⟩ := hdir.flushBuffer
    simp only [if_neg hok, hflush, ne_eq, not_true_eq_false, if_false]
    obtain ⟨hsynced, hkeep⟩ := hflushed.syncFd f.syncDirIfManifest.2.flushBuffer.2.filename
    exact ⟨hsynced, fun _ => hkeep.trans hpassed⟩

/-- One call. -/
theorem perform (call : Call) : Streams (f.perform call).2 (appended ++ call.data) := by
  cases call with
  | append data => exact (h.append data).2
  | flush =>
    show Streams f.flushBuffer.2 (appended ++ [])
    rw [List.append_nil]
    exact h.flushBuffer.2.2.2
  | sync =>
    show Streams f.sync.2 (appended ++ [])
    rw [List.append_nil]
    exact h.sync.1

end

/-- Any run of calls. -/
theorem run (calls : List Call) :
    ∀ {f : PosixWritableFile} {appended : Slice}, Streams f appended →
      Streams (f.run calls) (appended ++ calls.flatMap Call.data) := by
  induction calls with
  | nil =>
    intro f appended h
    show Streams f (appended ++ [])
    rw [List.append_nil]
    exact h
  | cons call calls ih =>
    intro f appended h
    rw [List.flatMap_cons, ← List.append_assoc]
    exact ih (h.perform call)

end Streams

/-- **Buffering keeps the byte stream**: on a new file whose writes are cut short or
    interrupted in any way, but do not fail, the bytes passed on and those in the buffer
    are what was appended, after every run of calls; a `Flush` or `Sync` that returns OK
    has passed all of them on. -/
theorem buffered_stream (f : PosixWritableFile) (hbuf : f.buf.length = kWritableFileBufferSize)
    (hpos : f.pos = 0) (hnew : f.passed = [])
    (hclean : ∀ r ∈ f.writes, ∀ error, r ≠ .failed error) (calls : List Call) :
    (f.run calls).passed ++ (f.run calls).buf.take (f.run calls).pos = calls.flatMap Call.data
      ∧ (f.run calls).pos ≤ kWritableFileBufferSize
      ∧ ∀ call, call = .flush ∨ call = .sync → ((f.run calls).perform call).1 = .ok →
        ((f.run calls).perform call).2.passed = calls.flatMap Call.data := by
  have hstart : Streams f [] := by
    refine ⟨hbuf, by rw [hpos]; exact Nat.zero_le _, ?_, hclean⟩
    rw [hnew, hpos]
    rfl
  have hrun := hstart.run calls
  rw [List.nil_append] at hrun
  refine ⟨hrun.bytes, hrun.pos_le, ?_⟩
  rintro call (rfl | rfl) hok
  · exact hrun.flushBuffer.2.1
  · exact hrun.sync.2 hok

/-- A new file whose first write is interrupted and whose second takes two bytes. -/
def interruptedFile : PosixWritableFile where
  buf := List.replicate kWritableFileBufferSize 0
  pos := 0
  isManifest := false
  filename := "f"
  dirname := "."
  passed := []
  writes := [.eintr, .wrote 2]
  syncs := []

theorem buffered_stream_interruptedFile :
    ((interruptedFile.run [.append [1, 2, 3]]).perform .flush).1 = .ok
      ∧ ((interruptedFile.run [.append [1, 2, 3]]).perform .flush).2.passed = [1, 2, 3] := by
  have hok : ((interruptedFile.run [.append [1, 2, 3]]).perform .flush).1 = .ok := by
    decide +kernel
  refine ⟨hok, ?_⟩
  exact (buffered_stream interruptedFile List.length_replicate rfl rfl (by simp [interruptedFile])
    [.append [1, 2, 3]]).2.2 .flush (.inl rfl) hok

end LdbPosixFile
