import LevelDB.Stored

/-! # Directories from which a database can be recovered

    `Recoverable` says what a directory holds: a MANIFEST that replays to a
    version, the tables of that version, and logs whose batches continue it.  It
    is what a process leaves behind whenever it ends. -/

namespace LdbRecoverable

open LdbFormat LdbVersion LdbEdit LdbTable LdbDb LdbInv LdbVersionSet LdbManifest LdbRecovery
open LdbDurable LdbContents LdbStored

/-! ## Logs -/

/-- The logs from number `first` on, in order. -/
structure Needed (logs : AList fun _ : Nat => Slice) (first : Nat) (ls : List (Nat × Slice)) :
    Prop where
  sorted : ls.Pairwise fun a b => a.1 < b.1
  mem : ∀ n file, (n, file) ∈ ls ↔ logs.lookup n = some file ∧ first ≤ n

variable {first n : Nat} {logs : AList fun _ : Nat => Slice} {ls : List (Nat × Slice)}

/-- There is one list of needed logs. -/
theorem Needed.unique {ls' : List (Nat × Slice)} (h : Needed logs first ls)
    (h' : Needed logs first ls') : ls = ls' := by
  have : Std.Irrefl fun a b : Nat × Slice => a.1 < b.1 := ⟨fun a => Nat.lt_irrefl a.1⟩
  have : Std.Asymm fun a b : Nat × Slice => a.1 < b.1 := ⟨fun a b hab hba => Nat.lt_asymm hab hba⟩
  refine h.sorted.eq_of_mem_iff h'.sorted fun p => ?_
  obtain ⟨n, file⟩ := p
  rw [h.mem, h'.mem]

/-- The last log gets new contents, or is a new one. -/
theorem Needed.put (hs : ls.Pairwise fun a b => a.1 < b.1) (hlast : ∀ p ∈ ls, p.1 < n)
    (hfirst : first ≤ n)
    (hmem : ∀ n' ≠ n, ∀ f, (n', f) ∈ ls ↔ logs.lookup n' = some f ∧ first ≤ n') (file : Slice) :
    Needed (logs.insert n file) first (ls ++ [(n, file)]) := by
  refine ⟨?_, fun n' file' => ?_⟩
  · rw [List.pairwise_append]
    refine ⟨hs, List.pairwise_singleton _ _, fun a ha b hb => ?_⟩
    rw [List.mem_singleton.mp hb]
    exact hlast a ha
  · rw [List.mem_append, List.mem_singleton, Prod.mk.injEq]
    by_cases hn : n' = n
    · subst hn
      rw [AList.lookup_insert]
      constructor
      · rintro (hin | ⟨-, rfl⟩)
        · exact absurd (hlast _ hin) (Nat.lt_irrefl _)
        · exact ⟨rfl, hfirst⟩
      · rintro ⟨heq, -⟩
        exact Or.inr ⟨rfl, (Option.some.inj heq).symm⟩
    · rw [AList.lookup_insert_ne hn, ← hmem n' hn]
      exact ⟨fun hc => hc.resolve_right fun hc => hn hc.1, Or.inl⟩

theorem Needed.insert (h : Needed logs first ls) (hnew : ∀ p ∈ ls, p.1 < n) (hfirst : first ≤ n)
    (file : Slice) : Needed (logs.insert n file) first (ls ++ [(n, file)]) :=
  Needed.put h.sorted hnew hfirst (fun n' _ => h.mem n') file

theorem Needed.replace {file : Slice} (h : Needed logs first (ls ++ [(n, file)])) (file' : Slice) :
    Needed (logs.insert n file') first (ls ++ [(n, file')]) := by
  obtain ⟨hls, -, hlt⟩ := List.pairwise_append.mp h.sorted
  refine Needed.put hls (fun p hp => hlt p hp (n, file) (by simp))
    ((h.mem n file).mp (by simp)).2 (fun n' hn f => ?_) file'
  rw [← h.mem n' f, List.mem_append, List.mem_singleton, Prod.mk.injEq]
  exact ⟨Or.inl, fun hc => hc.resolve_right fun hc => hn hc.1⟩

/-- Only the last log is needed from its own number on. -/
theorem Needed.last {file : Slice} (h : Needed logs first (ls ++ [(n, file)])) :
    Needed logs n [(n, file)] := by
  have hlt := (List.pairwise_append.mp h.sorted).2.2
  have hfirst : first ≤ n := ((h.mem n file).mp (by simp)).2
  refine ⟨List.pairwise_singleton _ _, fun n' f => ?_⟩
  have hmem := h.mem n' f
  rw [List.mem_append, List.mem_singleton] at hmem
  rw [List.mem_singleton]
  constructor
  · intro hc
    have := hmem.mp (Or.inr hc)
    exact ⟨this.1, by rw [(Prod.mk.inj hc).1]⟩
  · rintro ⟨hlook, hle⟩
    rcases hmem.mpr ⟨hlook, Nat.le_trans hfirst hle⟩ with hin | hc
    · have := hlt _ hin (n, file) (by simp)
      exact absurd this (Nat.not_lt.mpr hle)
    · exact hc

theorem Needed.erase (h : Needed logs first ls) (hn : n < first) :
    Needed (logs.erase n) first ls := by
  refine ⟨h.sorted, fun n' file => ?_⟩
  rw [h.mem]
  by_cases heq : n' = n
  · subst heq
    exact ⟨fun hc => absurd hc.2 (Nat.not_le.mpr hn), fun hc => absurd hc.2 (Nat.not_le.mpr hn)⟩
  · rw [AList.lookup_erase_ne heq]

/-- Recovery finds the needed logs. -/
theorem neededLogs_eq {d : Disk} {vs : VersionSet} (h : Needed d.logs vs.logNumber ls)
    (hprev : vs.prevLogNumber = 0) (hzero : d.logs.lookup 0 = none) : d.neededLogs vs = ls := by
  have hkeys : ∀ n, n ∈ d.logs.keys ↔ ∃ file, d.logs.lookup n = some file := by
    intro n
    rw [← AList.mem_keys, ← AList.lookup_isSome, Option.isSome_iff_exists]
  have hfound : Needed d.logs vs.logNumber (d.neededLogs vs) → d.neededLogs vs = ls :=
    fun hn => hn.unique h
  refine hfound ⟨?_, fun n file => ?_⟩
  · rw [Disk.neededLogs, List.pairwise_map]
    have hle := List.pairwise_insertionSort (· ≤ ·)
      (d.logs.keys.filter fun n => decide (vs.logNumber ≤ n ∨ n = vs.prevLogNumber))
    have hnd : ((d.logs.keys.filter fun n =>
        decide (vs.logNumber ≤ n ∨ n = vs.prevLogNumber)).insertionSort (· ≤ ·)).Nodup :=
      (List.perm_insertionSort _ _).nodup_iff.mpr (d.logs.keys_nodup.filter _)
    exact hle.imp₂ (fun a b hab hne => Nat.lt_of_le_of_ne hab hne) hnd
  · rw [Disk.neededLogs, List.mem_map]
    simp only [List.mem_insertionSort, List.mem_filter, decide_eq_true_eq, Prod.mk.injEq, hkeys,
      hprev]
    constructor
    · rintro ⟨n', ⟨⟨f, hf⟩, hc⟩, rfl, rfl⟩
      rw [hf, Option.getD_some]
      refine ⟨rfl, hc.resolve_right fun h0 => ?_⟩
      rw [h0, hzero] at hf
      cases hf
    · rintro ⟨hlook, hle⟩
      exact ⟨n, ⟨⟨file, hlook⟩, Or.inl hle⟩, rfl, by rw [hlook, Option.getD_some]⟩

/-- The logs hold the operations that were committed after sequence number `s`. -/
inductive LogsHold : Nat → List (Nat × Slice) → List Op → Prop
  | nil (s : Nat) : LogsHold s [] []
  | cons {s : Nat} {rest : List (Nat × Slice)} {ops : List Op} (n : Nat) (bs : List (List Op)) :
      LoggableAll s bs → LogsHold (s + bs.flatten.length) rest ops →
      LogsHold s ((n, logBytes s bs) :: rest) (bs.flatten ++ ops)

theorem LogsHold.snoc {s : Nat} {ops : List Op} (h : LogsHold s ls ops) (n : Nat)
    {bs : List (List Op)} (hbs : LoggableAll (s + ops.length) bs) :
    LogsHold s (ls ++ [(n, logBytes (s + ops.length) bs)]) (ops ++ bs.flatten) := by
  induction h with
  | nil s =>
    have := LogsHold.cons n bs hbs (LogsHold.nil _)
    rw [List.append_nil] at this
    exact this
  | @cons s rest ops n' cs hcs _ ih =>
    rw [List.length_append, ← Nat.add_assoc] at hbs
    rw [List.append_assoc, List.length_append, ← Nat.add_assoc, List.cons_append]
    exact LogsHold.cons n' cs hcs (ih hbs)

/-- Empty logs hold nothing. -/
theorem LogsHold.empty {s : Nat} {ops : List Op} (h : LogsHold s ls ops) (hall : ∀ p ∈ ls, p.2 = []) :
    ops = [] := by
  induction h with
  | nil => rfl
  | cons n bs _ _ ih =>
    rw [logBytes_eq_nil.mp (hall _ List.mem_cons_self),
      ih fun p hp => hall p (List.mem_cons_of_mem _ hp)]
    rfl

/-! ## Levels and numbers -/

/-- The files that were added have numbers below `next`, and a file that is still
    there is no higher up than it was ever added. -/
structure Descends (added : List (Nat × Nat)) (v : Version) (next : Nat) : Prop where
  bound : ∀ p ∈ added, p.2 < next
  down : ∀ p ∈ added, ∀ l, ∀ f ∈ v.files l, f.number = p.2 → p.1 ≤ l

/-! ## Directories -/

/-- What there is to know about a directory besides its bytes: the version set its
    MANIFEST `m` replays to, the edits `es` in it, the next file number and last
    sequence number they record, the files added so far, the sequence number after
    which the logs begin, and the logs. -/
structure View where
  vs : VersionSet
  m : Nat
  es : List VersionEdit
  next : Nat
  recorded : Nat
  added : List (Nat × Nat)
  start : Nat
  ls : List (Nat × Slice)

/-- **The directory holds a database** that has committed `h` and consists of the
    entries `S`. -/
structure Recoverable (name : Slice) (d : Disk) (h : List Op) (S : Entry → Prop) (w : View) :
    Prop where
  consistent : Consistent name w.added w.vs d.manifests w.m w.es w.next w.recorded
  descends : Descends w.added w.vs.current w.next
  prev : w.vs.prevLogNumber = 0
  noLog : d.logs.lookup 0 = none
  listed : Listed w.vs.current (w.next + 1)
  tables : ∀ l, ∀ f ∈ w.vs.current.files l, d.tables f.number ≠ none
  points : ∀ l, ∀ f ∈ w.vs.current.files l, ∀ e ∈ (d.tableAt f.number).entries, e.isPoint = true
  needed : Needed d.logs w.vs.logNumber w.ls
  start : w.start ≤ h.length
  logs : LogsHold w.start w.ls (h.drop w.start)
  contents : ∀ e, S e ↔ VersionHas d.tableAt w.vs.current e
    ∨ e ∈ opEntries (h.drop w.start) (w.start + 1)
  complete : Complete h S
  bound : h.length ≤ kMaxSequenceNumber
  recorded : w.recorded ≤ h.length
  counted : w.recorded = h.length ∨ ∃ p ∈ w.ls, p.2 ≠ []

section Ops

variable {name : Slice} {d : Disk} {h : List Op} {S : Entry → Prop} {w : View}

/-- A table under a number that the version does not use changes nothing. -/
theorem Recoverable.putTable (hr : Recoverable name d h S w) {n : Nat} (hn : w.next < n)
    (t : Table) : Recoverable name (d.apply (.putTable n t)) h S w := by
  have hother : ∀ l, ∀ f ∈ w.vs.current.files l, (d.apply (.putTable n t)).tables f.number
      = d.tables f.number := by
    intro l f hf
    have hle := hr.consistent.replays.number_le hf
    exact Function.update_of_ne (by omega) _ _
  have hat : ∀ l, ∀ f ∈ w.vs.current.files l, (d.apply (.putTable n t)).tableAt f.number
      = d.tableAt f.number := by
    intro l f hf
    rw [Disk.tableAt, hother l f hf, Disk.tableAt]
  refine { hr with tables := fun l f hf => ?_, points := fun l f hf => ?_, contents := fun e => ?_ }
  · rw [hother l f hf]
    exact hr.tables l f hf
  · rw [hat l f hf]
    exact hr.points l f hf
  · rw [hr.contents e]
    refine or_congr_left ?_
    exact exists_congr fun l => exists_congr fun f => and_congr_right fun hf => by rw [hat l f hf]

/-- An empty log after all others changes nothing. -/
theorem Recoverable.putLog (hr : Recoverable name d h S w) {n : Nat} (hn : ∀ p ∈ w.ls, p.1 < n)
    (hfirst : w.vs.logNumber ≤ n) (hpos : 0 < n) :
    Recoverable name (d.apply (.putLog n [])) h S { w with ls := w.ls ++ [(n, [])] } := by
  have hempty : LoggableAll (w.start + (h.drop w.start).length) [] := by
    refine ⟨?_, nofun, nofun⟩
    rw [List.length_drop, List.flatten_nil, List.length_nil]
    have := hr.start
    have := hr.bound
    omega
  refine { hr with noLog := ?_, needed := hr.needed.insert hn hfirst [], logs := ?_, counted := ?_ }
  · exact (AList.lookup_insert_ne (Nat.ne_of_lt hpos)).trans hr.noLog
  · have := hr.logs.snoc n hempty
    rw [List.flatten_nil, List.append_nil] at this
    exact this
  · rcases hr.counted with hc | ⟨p, hp, hne⟩
    · exact Or.inl hc
    · exact Or.inr ⟨p, List.mem_append_left _ hp, hne⟩

/-- A MANIFEST that `CURRENT` does not name changes nothing. -/
theorem Recoverable.putManifest (hr : Recoverable name d h S w) {n : Nat} (hn : w.m ≠ n)
    (contents : Slice) : Recoverable name (d.apply (.putManifest n contents)) h S w := by
  refine { hr with consistent := { hr.consistent with bytes := ?_ } }
  exact (Function.update_of_ne hn _ _).trans hr.consistent.bytes

end Ops

/-! ## Processes -/

/-- What there is to know about a running process besides its state: the MANIFEST
    as in `View`, the operations of the immutable memtable and the sequence number
    before them, the logs before the current one, and the batches of the current
    log with the sequence number before them. -/
structure LiveView where
  m : Nat
  es : List VersionEdit
  next : Nat
  recorded : Nat
  added : List (Nat × Nat)
  immStart : Nat
  immOps : List Op
  old : List (Nat × Slice)
  memStart : Nat
  batches : List (List Op)

/-- The current log. -/
def LiveView.current (w : LiveView) (p : Process) : Nat × Slice :=
  (p.logFileNumber, logBytes w.memStart w.batches)

/-- The logs hold what the memtables hold, and the group in flight. -/
structure Logged (p : Process) (d : Disk) (h : List Op) (w : LiveView) : Prop where
  noLog : d.logs.lookup 0 = none
  number : ∀ n, d.logs.lookup n ≠ none → n < p.db.nextFileNumber
  needed : Needed d.logs p.logNumber (w.old ++ [w.current p])
  old : LogsHold w.immStart w.old w.immOps
  imm : p.db.imm = none ∧ w.immOps = [] ∨ p.db.imm = some (memOf w.immStart w.immOps)
  seam : w.memStart = w.immStart + w.immOps.length
  split : h.drop w.immStart = w.immOps ++ h.drop w.memStart
  start : w.memStart ≤ h.length
  mem : p.db.mem = memOf w.memStart (h.drop w.memStart)
  batches : w.batches.flatten = h.drop w.memStart ++ p.inflight.getD []
  loggable : LoggableAll w.memStart w.batches
  after : p.log.After (records w.memStart w.batches)
  recorded : w.recorded ≤ h.length
  counted : w.recorded = h.length + (p.inflight.getD []).length
    ∨ ∃ q ∈ w.old ++ [w.current p], q.2 ≠ []

variable {p : Process} {d : Disk} {h : List Op} {w : LiveView}

theorem Logged.end_eq (hg : Logged p d h w) :
    w.memStart + (h.drop w.memStart).length = h.length := by
  rw [List.length_drop, Nat.add_sub_of_le hg.start]

/-- Between two writes the log holds what the memtable holds. -/
theorem Logged.flatten (hg : Logged p d h w) (hidle : p.inflight = none) :
    w.batches.flatten = h.drop w.memStart := by
  rw [hg.batches, hidle, Option.getD_none, List.append_nil]

/-- **A process and its directory** after the operations `h`. -/
structure Live (o : Options) (name : Slice) (p : Process) (d : Disk) (h : List Op) (w : LiveView) :
    Prop where
  core : LdbCore.Core p.db h
  consistent : Consistent name w.added p.versions d.manifests w.m w.es w.next w.recorded
  attached : p.descriptorLog ≠ none
  descends : Descends w.added p.db.current w.next
  outputs : ∀ r ∈ p.db.running, ∀ n ∈ r.outputNumbers, ∀ q ∈ w.added, q.2 ≠ n
  prev : p.prevLogNumber = 0
  tables : ∀ l, ∀ f ∈ p.db.current.files l, d.tables f.number = some (p.db.tables f.number)
  flushing : p.flushing = true → p.db.imm ≠ none
  flushed : p.flushing = true → ∀ m ∈ p.db.imm, ∀ f t level,
    writeLevel0Table o p.db.current p.db.nextFileNumber m = some (f, t, level) →
      d.tables f.number = some t
  logged : Logged p d h w

/-- **What a process leaves behind when it ends**: its entries and the group in
    flight. -/
theorem Live.recoverable {o : Options} {name : Slice} (hl : Live o name p d h w) :
    Recoverable name d (h ++ p.inflight.getD [])
      (fun e => Has p.db e ∨ e ∈ opEntries (p.inflight.getD []) (h.length + 1))
      ⟨p.versions, w.m, w.es, w.next, w.recorded, w.added, w.immStart, w.old ++ [w.current p]⟩ := by
  have hg := hl.logged
  have hat : ∀ l, ∀ f ∈ p.db.current.files l, d.tableAt f.number = p.db.tables f.number := by
    intro l f hf
    rw [Disk.tableAt, hl.tables l f hf, Option.getD_some]
  have himm : w.immStart ≤ h.length := by
    have := hg.seam
    have := hg.start
    omega
  have hdrop : (h ++ p.inflight.getD []).drop w.immStart = w.immOps ++ w.batches.flatten := by
    rw [List.drop_append_of_le_length himm, hg.split, hg.batches, List.append_assoc]
  have hbound := hg.loggable.bound
  have htotal : (h ++ p.inflight.getD []).length = w.memStart + w.batches.flatten.length := by
    rw [hg.batches, List.length_append, List.length_append, ← Nat.add_assoc, hg.end_eq]
  refine
    { consistent := hl.consistent
      descends := hl.descends
      prev := hl.prev
      noLog := hg.noLog
      listed := ?_
      tables := fun l f hf => ?_
      points := fun l f hf => ?_
      needed := hg.needed
      start := ?_
      logs := ?_
      contents := fun e => ?_
      complete := (complete_of_core hl.core).append
      bound := ?_
      recorded := ?_
      counted := ?_ }
  · exact { hl.core.listed with
      number := fun l f hf => Nat.lt_succ_of_le (hl.consistent.replays.number_le hf) }
  · rw [hl.tables l f hf]
    exact Option.some_ne_none _
  · rw [hat l f hf]
    exact hl.core.points l f hf
  · rw [List.length_append]
    exact Nat.le_add_right_of_le himm
  · rw [hdrop]
    have hsnoc := hg.old.snoc p.logFileNumber (hg.seam ▸ hg.loggable)
    rw [← hg.seam] at hsnoc
    exact hsnoc
  · have hversion : VersionHas d.tableAt p.db.current e ↔ VersionHas p.db.tables p.db.current e :=
      exists_congr fun l => exists_congr fun f => and_congr_right fun hf => by rw [hat l f hf]
    have himmHas : (∃ m ∈ p.db.imm, e ∈ m.table) ↔ e ∈ opEntries w.immOps (w.immStart + 1) := by
      rcases hg.imm with ⟨hnone, hops⟩ | hsome
      · rw [hnone, hops]
        simp [opEntries]
      · rw [hsome, ← mem_memOf]
        simp
    have hmemHas : e ∈ p.db.mem.table ↔ e ∈ opEntries (h.drop w.memStart) (w.memStart + 1) := by
      rw [hg.mem, mem_memOf]
    rw [hdrop, opEntries_append, List.mem_append, hg.batches, opEntries_append, List.mem_append,
      Nat.add_right_comm w.immStart, ← hg.seam, Nat.add_right_comm w.memStart, hg.end_eq, Has,
      himmHas, hmemHas, ← hversion]
    show _ ↔ VersionHas d.tableAt p.db.current e ∨ _
    constructor
    · rintro ((hmem | himm | hversion) | hinflight)
      · exact Or.inr (Or.inr (Or.inl hmem))
      · exact Or.inr (Or.inl himm)
      · exact Or.inl hversion
      · exact Or.inr (Or.inr (Or.inr hinflight))
    · rintro (hversion | himm | hmem | hinflight)
      · exact Or.inl (Or.inr (Or.inr hversion))
      · exact Or.inl (Or.inr (Or.inl himm))
      · exact Or.inl (Or.inl hmem)
      · exact Or.inr hinflight
  · rw [htotal]
    exact hbound
  · rw [List.length_append]
    exact Nat.le_add_right_of_le hg.recorded
  · rw [List.length_append]
    exact hg.counted

/-- Without a group in flight that is just its entries. -/
theorem Live.recoverable_idle {o : Options} {name : Slice} {p : Process} {d : Disk} {h : List Op}
    {w : LiveView} {S : Entry → Prop} (hl : Live o name p d h w) (hidle : p.inflight = none)
    (hS : ∀ e, Has p.db e ↔ S e) : ∃ w', Recoverable name d h S w' := by
  have hr := hl.recoverable
  rw [hidle, Option.getD_none, List.append_nil] at hr
  have hS' : (fun e => Has p.db e ∨ e ∈ opEntries [] (h.length + 1)) = S := by
    funext e
    rw [← hS e, opEntries]
    simp
  rw [hS'] at hr
  exact ⟨_, hr⟩

end LdbRecoverable
