import LevelDB.Disjoint
import LevelDB.Sequential

/-! # What reads may see

    The committed operations form a multi-version map; so do the entries stored
    in memtables and tables.  Flushes and moves store the same entries in other
    places.  Compactions drop entries, but none that a live snapshot could tell
    apart: at every live sequence number both maps give the same reads
    (`VisInv`).

    Where the entries lie, and whether a lookup finds them there, plays no role
    here. -/

namespace LdbVisibility

open Versioned LdbFormat LdbVersion LdbTable LdbDrop LdbCompaction LdbWork LdbDb LdbInv LdbSteps
open LdbCore LdbRun LdbDisjoint LdbSequential

/-! ## The two maps -/

/-- An entry stored in a memtable or a table of the current version. -/
def Stored (db : DB) (e : Entry) : Prop :=
  e ∈ db.mem.table ∨ (∃ m ∈ db.imm, e ∈ m.table)
    ∨ ∃ l, ∃ f ∈ db.current.files l, e ∈ (db.tables f.number).entries

/-- The versions stored in the database. -/
def storedVers (db : DB) : Set (Ver Slice Slice) := versOf (Stored db)

/-- The sequence numbers reads may ask for: a snapshot or the last sequence. -/
def Live (db : DB) (s : Nat) : Prop := s ∈ db.snapshots ∨ s = db.lastSequence

instance (db : DB) (s : Nat) : Decidable (Live db s) := inferInstanceAs (Decidable (_ ∨ _))

/-- **Stored and committed versions give the same reads** at live sequence
    numbers. -/
def VisInv (db : DB) (h : List Op) : Prop :=
  ∀ s, Live db s → ∀ k v, Visible (storedVers db) (committedTombs h) k s v ↔
    Visible (committedVers h) (committedTombs h) k s v

/-! ## Steps that lose nothing -/

/-- Everything stored was committed. -/
theorem Stored.committed {db : DB} {h : List Op} (hc : Core db h) {e : Entry}
    (he : Stored db e) : Committed h e := by
  rcases he with he | ⟨m, hm, he⟩ | ⟨l, f, hf, he⟩
  · exact hc.mem.committed e he
  · exact (hc.imm m hm).committed e he
  · exact hc.entries l f hf e he

theorem storedVers_seq_le {db : DB} {h : List Op} (hc : Core db h) :
    ∀ x ∈ storedVers db, x.seq ≤ h.length := by
  rintro x ⟨e, he, -, rfl⟩
  exact (Stored.committed hc he).sequence_le.2

/-- Sequence numbers identify stored versions. -/
theorem storedVers_inj {db : DB} {h : List Op} (hc : Core db h) :
    ∀ a ∈ storedVers db, ∀ b ∈ storedVers db, a.key = b.key → a.seq = b.seq → a = b := by
  rintro _ ⟨e, he, -, rfl⟩ _ ⟨e', he', -, rfl⟩ - hseq
  rw [(Stored.committed hc he).eq_of_sequence (Stored.committed hc he') hseq]

section Keep

variable {o : Options} {db : DB} {h : List Op}

theorem stored_write (hc : Core db h) (batch : List Op) (e : Entry) :
    Stored { db with
      mem := insertInto batch (db.lastSequence + 1) db.mem
      lastSequence := db.lastSequence + batch.length } e ↔ Stored db e ∨ Added h batch e := by
  obtain ⟨-, hmem⟩ := insertInto_spec h batch [] db.mem (by simpa using hc.mem) (by
    simpa using fun x hx => (hc.mem.committed x hx).sequence_le.2)
  simp only [List.length_nil, Nat.add_zero] at hmem
  have hm := hmem e
  rw [← hc.length] at hm
  show (e ∈ (insertInto batch (db.lastSequence + 1) db.mem).table ∨ (∃ m ∈ db.imm, e ∈ m.table)
    ∨ ∃ l, ∃ f ∈ db.current.files l, e ∈ (db.tables f.number).entries) ↔ _
  rw [hm, Added, ← hc.length]
  exact or_right_comm

theorem stored_compactMemTable (hc : Core db h) {m : MemTable} (hm : db.imm = some m) {e : Entry}
    (hp : e.isPoint = true) : Stored (db.compactMemTable o m) e ↔ Stored db e := by
  cases hw : writeLevel0Table o db.current db.nextFileNumber m with
  | none =>
    rw [DB.compactMemTable_none hw, Stored, Stored]
    simp [hm, writeLevel0Table_none hw]
  | some p =>
    obtain ⟨f, t, level⟩ := p
    obtain ⟨hfl, -⟩ := writeLevel0Table_spec (hc.imm m hm).sorted hw
    have he := exists_table_flush hc.listed db.tables hfl.number t level fun t => e ∈ t.entries
    rw [hfl.entries, List.mem_filter, and_iff_left hp] at he
    rw [DB.compactMemTable_some hw, Stored, Stored, he]
    simp [hm]

theorem stored_startCompaction (hc : Core db h) {c : Compaction} (hfrom : FromVersion c db.current)
    (hdeep : c.level + 1 < kNumLevels) (mayMove : Bool) (e : Entry) :
    Stored (db.startCompaction o c mayMove) e ↔ Stored db e := by
  rcases db.startCompaction_cases o c mayMove with ⟨f, h0, -, -, heq⟩ | heq
  · rw [heq]
    have hf : f ∈ db.current.files c.level := hfrom.sub0 f (by rw [h0]; simp)
    exact or_congr Iff.rfl (or_congr Iff.rfl (exists_file_move hc.listed hf hdeep _))
  · rw [heq]
    exact Iff.rfl

/-- **Only an install drops entries.** -/
theorem stored_step {db' : DB} {a : Action} (hc : Core db h) (hstep : step o db a = some db')
    (ha : a ≠ .installResults) {e : Entry} (hp : e.isPoint = true) :
    Stored db' e ↔ Stored db e ∨ Added h a.ops e := by
  have hnone : ∀ {S : Prop}, S ↔ S ∨ Added h [] e :=
    ⟨Or.inl, fun hs => hs.resolve_right (not_added_nil h e)⟩
  cases steps_of_step hstep with
  | write batch hle => exact stored_write hc batch e
  | switchMemTable himm =>
    refine Iff.trans ?_ hnone
    rw [Stored, Stored]
    simp [himm, MemTable.empty]
  | compactMemTable m hm => exact (stored_compactMemTable hc hm hp).trans hnone
  | start hrun hpick =>
    obtain ⟨hfrom, hdeep⟩ := picks_sub hpick
    rw [hpick.ops]
    exact (stored_startCompaction hc hfrom hdeep _ e).trans hnone
  | installResults r hr hlen => exact absurd rfl ha
  | _ => exact hnone

end Keep

/-! ## Live sequence numbers -/

/-- A sequence number that is live after a step was a snapshot before it, or is
    the last sequence now. -/
theorem live_step {o : Options} {db db' : DB} {h : List Op} {a : Action} (hc : Core db h)
    (hstep : step o db a = some db') {s : Nat} (hs : Live db' s) :
    s ∈ db.snapshots ∨ s = (h ++ a.ops).length := by
  have hlen := (core_step hc hstep).length
  rcases hs with hs | hs
  · have hsub : s ∈ db.snapshots ∨ (a.ops = [] ∧ s = db.lastSequence) := by
      cases steps_of_step hstep with
      | getSnapshot =>
        rcases List.mem_append.mp hs with hs | hs
        · exact Or.inl hs
        · exact Or.inr ⟨rfl, List.mem_singleton.mp hs⟩
      | releaseSnapshot x => exact Or.inl (List.mem_of_mem_erase hs)
      | compactMemTable m hm =>
        rw [DB.compactMemTable] at hs
        split at hs <;> exact Or.inl hs
      | @start a c mayMove hrun hpick =>
        rcases db.startCompaction_cases o c mayMove with ⟨f, -, -, -, heq⟩ | heq <;>
          exact Or.inl (by rwa [heq] at hs)
      | installResults r hr hlen =>
        rw [DB.installResults_snapshots] at hs
        exact Or.inl hs
      | _ => exact Or.inl hs
    rcases hsub with hsub | ⟨hops, hsub⟩
    · exact Or.inl hsub
    · right
      rw [hops, List.append_nil, hsub, hc.length]
  · exact Or.inr (hs.trans hlen)

/-- A step that loses nothing keeps the agreement. -/
theorem visInv_keep {o : Options} {db db' : DB} {h : List Op} {a : Action} (hi : Inv db h)
    (hvis : VisInv db h) (hstep : step o db a = some db') (ha : a ≠ .installResults) :
    VisInv db' (h ++ a.ops) := by
  intro s hs k v
  have hc := hi.toCore
  have hstored : storedVers db' = storedVers db ∪ versOf (Added h a.ops) := by
    rw [storedVers, storedVers, ← versOf_or]
    exact versOf_congr fun e hp => stored_step hc hstep ha hp
  rw [hstored, committedVers_append, committedTombs_append]
  rcases live_step hc hstep hs with hs | rfl
  · -- an old snapshot: what was added is not readable
    have hsn : s ≤ h.length := hc.length ▸ hi.snapshots.2 s hs
    have hskip : ∀ (E : Set (Ver Slice Slice)) (e : Ver Slice Slice), e.key = k → e.seq ≤ s →
        (e ∈ E ∪ versOf (Added h a.ops) ↔ e ∈ E) := by
      intro E e _ hes
      refine ⟨fun he => he.resolve_right fun hn => ?_, Or.inl⟩
      have := added_seq_gt e hn
      omega
    have hskipT : ∀ t : Tomb Slice, t.seq ≤ s →
        (t ∈ committedTombs h ∪ {t | ∃ d, AddedDel h a.ops d ∧ d.tomb = t} ↔
          t ∈ committedTombs h) := by
      intro t hts
      refine ⟨fun ht => ht.resolve_right fun hn => ?_, Or.inl⟩
      have := addedDel_seq_gt t hn
      omega
    rw [visible_congr (hskip _) hskipT, visible_congr (hskip _) hskipT]
    exact hvis s (Or.inl hs) k v
  · refine visible_union (n := h.length) (storedVers_seq_le hc) committedVers_seq_le
      committedTombs_seq_le added_seq_gt addedDel_seq_gt ?_ ?_ v
    · rw [List.length_append]
      exact Nat.le_add_right _ _
    · exact hvis h.length (Or.inr hc.length.symm) k

/-! ## Installs -/

section Install

variable {o : Options} {db : DB} {h : List Op} {r : Running}

/-- An entry stored outside the inputs of the running compaction. -/
def StoredElsewhere (db : DB) (r : Running) (e : Entry) : Prop :=
  e ∈ db.mem.table ∨ (∃ m ∈ db.imm, e ∈ m.table)
    ∨ ∃ l, ∃ f ∈ db.current.files l, f ∉ r.compaction.inputs0 ++ r.compaction.inputs1
        ∧ e ∈ (db.tables f.number).entries

theorem versions_eq_versOf (es : List Entry) : versions es = versOf (· ∈ es) := by
  ext x
  exact ⟨fun ⟨e, he, hp, hx⟩ => ⟨e, he, hp, hx⟩, fun ⟨e, he, hp, hx⟩ => ⟨e, he, hp, hx⟩⟩

theorem storedVers_eq (hc : Core db h) (hr : db.running = some r) :
    storedVers db = versions (db.job r).merged ∪ versOf (StoredElsewhere db r) := by
  have hp := hc.pending r hr
  rw [versions_eq_versOf, ← versOf_or, storedVers]
  refine versOf_congr fun e _ => ⟨?_, ?_⟩
  · rintro (he | he | ⟨l, f, hf, he⟩)
    · exact Or.inr (Or.inl he)
    · exact Or.inr (Or.inr (Or.inl he))
    · by_cases hin : f ∈ r.compaction.inputs
      · exact Or.inl (mem_merged.mpr ⟨f, hin, he⟩)
      · exact Or.inr (Or.inr (Or.inr ⟨l, f, hf, hin, he⟩))
  · rintro (he | he | he | ⟨l, f, hf, -, he⟩)
    · obtain ⟨f, hf, hef⟩ := mem_merged.mp he
      rcases List.mem_append.mp hf with hf | hf
      · exact Or.inr (Or.inr ⟨_, f, hp.sub0 f hf, hef⟩)
      · exact Or.inr (Or.inr ⟨_, f, hp.sub1 f hf, hef⟩)
    · exact Or.inl he
    · exact Or.inr (Or.inl he)
    · exact Or.inr (Or.inr ⟨l, f, hf, he⟩)

theorem storedVers_install (hc : Core db h) (hr : db.running = some r) (hw : Written o db r) :
    storedVers (db.installResults o r)
      = versions (db.job r).kept ∪ versOf (StoredElsewhere db r) := by
  have hp := hc.pending r hr
  rw [versions_eq_versOf, ← versOf_or, storedVers]
  refine versOf_congr fun e _ => ?_
  rw [Stored, StoredElsewhere, DB.installResults_mem, DB.installResults_imm]
  constructor
  · rintro (he | he | ⟨l, f, hf, he⟩)
    · exact Or.inr (Or.inl he)
    · exact Or.inr (Or.inr (Or.inl he))
    · rcases (hw.replaces.mem l f).mp hf with ⟨hf, hn0, hn1⟩ | ⟨-, hf⟩
      · rw [hw.tables l f hf] at he
        refine Or.inr (Or.inr (Or.inr ⟨l, f, hf, ?_, he⟩))
        rw [List.mem_append, not_or]
        refine ⟨fun h0 => hn0 ⟨?_, h0⟩, fun h1 => hn1 ⟨?_, h1⟩⟩
        · exact (hc.listed.unique _ _ f f hf (hp.sub0 f h0) rfl).1
        · exact (hc.listed.unique _ _ f f hf (hp.sub1 f h1) rfl).1
      · obtain ⟨seg, ht, hseg⟩ := hw.table f hf
        rw [ht] at he
        exact Or.inl (hseg e he)
  · rintro (he | he | he | ⟨l, f, hf, hn, he⟩)
    · obtain ⟨f, hf, hef⟩ := hw.kept e he
      exact Or.inr (Or.inr ⟨_, f, (hw.replaces.mem _ f).mpr (Or.inr ⟨rfl, hf⟩), hef⟩)
    · exact Or.inl he
    · exact Or.inr (Or.inl he)
    · rw [List.mem_append, not_or] at hn
      refine Or.inr (Or.inr ⟨l, f, (hw.replaces.mem l f).mpr (Or.inl ⟨hf, ?_, ?_⟩), ?_⟩)
      · exact fun hc => hn.1 hc.2
      · exact fun hc => hn.2 hc.2
      · rw [hw.tables l f hf]
        exact he

/-- **A table beside the inputs is newer than they are on a common user key**,
    unless it lay below the output level when the inputs were picked. -/
theorem beside_newer (hi : Inv db h) (hr : db.running = some r) {l : Nat} {g x : FileMetaData}
    (hg : g ∈ db.current.files l) (hgn : g ∉ r.compaction.inputs)
    (hx : x ∈ r.compaction.inputs) :
    Newer (db.tables g.number) (db.tables x.number)
      ∨ (r.compaction.level + 2 ≤ l ∧ g ∈ r.inputVersion.files l) := by
  have hro := hi.running r hr
  have hv := hi.version
  by_cases h0 : g ∈ r.inputVersion.files l
  · rw [List.mem_append, not_or] at hgn
    obtain ⟨lx, hlx, hxl⟩ := inputs_mem hro.closed hro.grown hx
    rcases Nat.lt_or_ge l lx with hlt | hge
    · exact Or.inl (hv.recent l lx hlt g hg x hxl)
    · rcases Nat.lt_or_ge l (r.compaction.level + 2) with hl | hl
      · left
        rcases List.mem_append.mp hx with hx0 | hx1
        · rcases Nat.lt_or_ge r.compaction.level l with h1 | h1
          · -- one level below: apart from every input of the upper level
            have hl' : l = r.compaction.level + 1 := by omega
            subst hl'
            have hfx := hv.file _ x hxl
            have hfg := hv.file _ g hg
            intro e he e' he' hk
            rcases hro.closed.beside g h0 hgn.2 with hb | ⟨hb, -⟩
            · have h2 := lt_of_le_of_lt (hfx.holds he').2 (lt_of_lt_of_le (hb x hx)
                (hfg.holds he).1)
              exact absurd hk.symm (ne_of_lt h2)
            · have h2 := lt_of_le_of_lt (hfg.holds he).2 (lt_of_lt_of_le (hb x hx0)
                (hfx.holds he').1)
              exact absurd hk (ne_of_lt h2)
          · have hx0L := inputs0_mem hro.closed hro.grown x hx0
            have hl' : l = r.compaction.level := by
              have := (hv.unique _ _ x x hxl hx0L rfl).1
              omega
            subst hl'
            exact stay_newer hv hro.closed hro.grown g hg hgn.1 x hx0
        · have hx1L := inputs1_mem hro.closed hro.grown x hx1
          have hl' : l = r.compaction.level + 1 := by
            have := (hv.unique _ _ x x hxl hx1L rfl).1
            omega
          subst hl'
          have hfx := hv.file _ x hx1L
          have hfg := hv.file _ g hg
          rcases hro.closed.beside g h0 hgn.2 with hb | ⟨-, hb⟩
          · intro e he e' he' hk
            have h2 := lt_of_le_of_lt (hfx.holds he').2 (lt_of_lt_of_le (hb x hx)
              (hfg.holds he).1)
            exact absurd hk.symm (ne_of_lt h2)
          · exact newer_of_precedes hfg hfx
              (hv.order _ (Nat.succ_pos _) g hg x hx1L (hb x hx1))
      · exact Or.inr ⟨hl, h0⟩
  · exact Or.inl (hro.grown.newer l g hg h0 x hx)

/-- Where the base-level test says yes, what is stored elsewhere is newer than
    the inputs. -/
theorem elsewhere_newer (hi : Inv db h) (hr : db.running = some r) {e m : Entry}
    (he : StoredElsewhere db r e) (hm : m ∈ (db.job r).merged)
    (hk : m.key.userKey = e.key.userKey)
    (hbase : baseAt r.inputVersion r.compaction.level e.key.userKey = true) :
    m.key.sequence ≤ e.key.sequence := by
  have hro := hi.running r hr
  obtain ⟨x, hx, hmx⟩ := mem_merged.mp hm
  obtain ⟨lx, -, hxl⟩ := inputs_mem hro.closed hro.grown hx
  obtain ⟨n₁, n₂, -, hwin⟩ := hi.windows
  have hm1 := hwin.tables lx x hxl m hmx
  have hle := hwin.le
  rcases he with he | ⟨im, him, he⟩ | ⟨l, g, hg, hgn, he⟩
  · have := hwin.mem e he
    omega
  · have := (hwin.imm im him e he).1
    omega
  · rcases beside_newer hi hr hg hgn hx with hnew | ⟨hl, h0⟩
    · exact le_of_lt (hnew e he m hmx hk.symm)
    · exfalso
      have hlt := hi.version.level_lt hg
      have hdeep : l ∈ deeperLevels r.compaction.level := by
        rw [deeperLevels, List.mem_range'_1]
        omega
      have hno := of_decide_eq_true hbase l hdeep g h0
      have hyes := FileMetaData.holds_iff.mpr ((hi.version.file l g hg).holds he)
      rw [hno] at hyes
      cases hyes

/-- The kept entries are the survivors of the drop rules. -/
theorem kept_eq_filter (hi : Inv db h) (hr : db.running = some r)
    (hmax : r.smallestSnapshot < kMaxSequenceNumber) :
    (db.job r).kept = (db.job r).merged.filter (survives (db.job r).rangeDels r.smallestSnapshot
      (baseAt r.inputVersion r.compaction.level) (db.job r).merged) :=
  keptEntries_eq_filter (isBaseLevelForKey_answers (hi.running r hr).pickable.sorted) hmax
    (hi.merged_sorted hr)

theorem tombs_rangeDels_sub (hc : Core db h) (hr : db.running = some r) :
    tombs (db.job r).rangeDels ⊆ committedTombs h := by
  have hp := hc.pending r hr
  rintro t ⟨d, hd, rfl⟩
  obtain ⟨x, hx, hdx⟩ := List.mem_flatMap.mp hd
  refine ⟨d, (hc.dels d).mp (Or.inr (Or.inr ?_)), rfl⟩
  rcases List.mem_append.mp hx with hx | hx
  · exact ⟨_, x, hp.sub0 x hx, hdx⟩
  · exact ⟨_, x, hp.sub1 x hx, hdx⟩

/-- **An install keeps the agreement.** -/
theorem visInv_install (hi : Inv db h) (hvis : VisInv db h) (hr : db.running = some r)
    (hin : Installed o db r) (hmax : r.smallestSnapshot < kMaxSequenceNumber) :
    VisInv (db.installResults o r) h := by
  intro s hs k v
  have hs' : Live db s := by
    rcases hs with hs | hs
    · exact Or.inl (by simpa using hs)
    · exact Or.inr (by simpa using hs)
  have hle : r.smallestSnapshot ≤ s := by
    obtain ⟨h1, h2⟩ := (hi.running r hr).snapshot
    rcases hs' with hs' | rfl
    · exact h2 s hs'
    · exact h1
  rw [← hvis s hs' k v, storedVers_eq hi.toCore hr,
    storedVers_install hi.toCore hr hin.toWritten, kept_eq_filter hi hr hmax]
  refine survivors_visible (hi.toCore.merged_points hr) ?_
    (tombs_rangeDels_sub hi.toCore hr) k hle v
  rintro _ ⟨e, he, -, rfl⟩ m hm hk hbase
  exact elsewhere_newer hi hr he hm hk hbase

end Install

/-! ## Runs -/

theorem visInv_init : VisInv DB.init [] := by
  intro s _ k v
  have h1 : storedVers DB.init = ∅ := by
    refine Set.eq_empty_iff_forall_notMem.mpr ?_
    rintro x ⟨e, he | ⟨m, hm, -⟩ | ⟨l, f, hf, -⟩, -⟩
    · cases he
    · cases hm
    · cases hf
  have h2 : committedVers [] = ∅ := by
    refine Set.eq_empty_iff_forall_notMem.mpr ?_
    rintro x ⟨e, ⟨i, op, hi, -⟩, -⟩
    cases hi
  rw [h1, h2]

/-- An install may use the drop rules: its smallest snapshot is not the largest
    sequence number. -/
def BelowMax (db : DB) (a : Action) : Prop :=
  a = .installResults → ∀ r ∈ db.running, r.smallestSnapshot < kMaxSequenceNumber

instance (db : DB) (a : Action) : Decidable (BelowMax db a) :=
  inferInstanceAs (Decidable (_ → _))

/-- **Compactions lose nothing a live read could see**, in every run whose installs
    pass the check of `SaveTo`. -/
theorem visInv_reach {o : Options} {P : DB → Action → Prop} {db : DB} {h : List Op}
    (hP : ∀ {db a}, P db a → CheckedInstalls o db a ∧ BelowMax db a)
    (hreach : Reach o P db h) : Inv db h ∧ VisInv db h := by
  induction hreach with
  | init => exact ⟨inv_init, visInv_init⟩
  | @step db db' h a _ hp hstep ih =>
    obtain ⟨hi, hvis⟩ := ih
    have hi' := inv_step hi (soundInstall_of_checked hi (hP hp).1 hstep) hstep
    refine ⟨hi', ?_⟩
    by_cases ha : a = .installResults
    · subst ha
      obtain ⟨r, hr, hlen, rfl⟩ := step_installResults hstep
      exact (List.append_nil h).symm ▸
        visInv_install hi hvis hr (installed hi hr hlen) ((hP hp).2 rfl r hr)
    · exact visInv_keep hi hvis hstep ha

end LdbVisibility
