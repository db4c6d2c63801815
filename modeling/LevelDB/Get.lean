import LevelDB.Scan
import LevelDB.TombstoneReach

/-! # Point reads

    `DBImpl::Get` asks the memtables and then the files a lookup opens, and stops
    at the first that answers.  A file answers from its own entries and range
    deletions only.  So a read is right if the newest stored version of the key is
    found where it lies, if no file opened before covers the key unless that
    version is deleted, and if it is deleted by a file opened no later when a
    tombstone in some table deletes it.

    These are kept by writes, flushes and moves.  A compaction may break them: a
    tombstone may fall out of reach, and one may come to cover a key whose newest
    version lies deeper and is newer.  `KeepsAnswers` excludes both. -/

namespace LdbGet

open Versioned Tiered LdbFormat LdbVersion LdbEdit LdbTable LdbDrop LdbCompaction LdbClosure LdbWork
open LdbOutputs LdbDb LdbInv LdbSteps LdbCore LdbRun LdbBounds LdbSequential LdbVisibility LdbScan
open LdbVisits LdbTombstoneReach

/-! ## The invariant of reads -/

/-- The recorded largest key is the key of an entry, or the last key of its user
    key. -/
def Ends (f : FileMetaData) (t : Table) : Prop :=
  (∃ e ∈ t.entries, e.key = f.largest) ∨ f.largest.tag = 0

/-- The tombstones stored in tables. -/
def tableTombs (db : DB) : Set (Tomb Slice) :=
  {t | ∃ l, ∃ f ∈ db.current.files l, t ∈ tombs (db.tables f.number).rangeDeletions}

/-- The entry is the newest stored version of its user key at `s`. -/
structure NewestStored (db : DB) (s : Nat) (e : Entry) : Prop where
  stored : Stored db e
  point : e.isPoint = true
  read : e.key.sequence ≤ s
  max : ∀ x, Stored db x → x.isPoint = true → x.key.userKey = e.key.userKey →
    x.key.sequence ≤ s → x.key.sequence ≤ e.key.sequence

/-- The entry `e` of file `f` on level `l` is hidden where it should be, and only
    there. -/
structure Answered (db : DB) (h : List Op) (s l : Nat) (f : FileMetaData) (e : Entry) : Prop where
  hides : Hidden (tableTombs db) e.key.userKey e.key.sequence s →
    ∃ p, Visited db.current e.key.userKey s p ∧ (p = (l, f) ∨ Earlier p (l, f))
      ∧ Hidden (tombs (db.tables p.2.number).rangeDeletions) e.key.userKey e.key.sequence s
  clear : ∀ p, Visited db.current e.key.userKey s p → Earlier p (l, f) →
    Hidden (tombs (db.tables p.2.number).rangeDeletions) e.key.userKey 0 s →
    Hidden (committedTombs h) e.key.userKey e.key.sequence s

/-- The file hides the versions of `k` up to number `q` from a read at `s`. -/
def Hides (db : DB) (p : Nat × FileMetaData) (k : Slice) (q s : Nat) : Prop :=
  Hidden (tombs (db.tables p.2.number).rangeDeletions) k q s

/-- The sequence numbers of reads from now on. -/
def LiveFrom (db : DB) (s : Nat) : Prop := s ∈ db.snapshots ∨ db.lastSequence ≤ s

/-- **What point reads rely on.** -/
structure ReadInv (db : DB) (h : List Op) : Prop where
  proper : ∀ d, CommittedDel h d → d.startKey < d.endKey
  contains : AllContain db
  ends : ∀ l, ∀ f ∈ db.current.files l, Ends f (db.tables f.number)
  reach0   : ∀ f ∈ db.current.files 0, ∀ d ∈ (db.tables f.number).rangeDeletions,
    d.endKey ≤ f.largest.userKey
  answered : ∀ s, LiveFrom db s → ∀ e, NewestStored db s e → ∀ l, ∀ f ∈ db.current.files l,
    e ∈ (db.tables f.number).entries → Answered db h s l f e

/-- A file that ends in `k` before another key of `k`, and is not passed by the
    lookup of `k` at `s`, holds a readable version of `k`. -/
theorem entry_of_blocked {x : FileMetaData} {t : Table} (hend : Ends x t) {k : Slice} {s : Nat}
    {a : InternalKey} (hx : lookupKey k s ≤ x.largest) (hlt : x.largest < a)
    (ha : a.userKey ≤ k) :
    ∃ y ∈ t.entries, y.key = x.largest ∧ y.key.userKey = k ∧ y.key.sequence ≤ s := by
  have h1 : k ≤ x.largest.userKey := InternalKey.userKey_le hx
  have h2 : x.largest.userKey ≤ a.userKey := InternalKey.userKey_le (le_of_lt hlt)
  have hk : x.largest.userKey = k := le_antisymm (le_trans h2 ha) h1
  rcases hend with ⟨y, hy, hyk⟩ | htag
  · refine ⟨y, hy, hyk, hyk ▸ hk, ?_⟩
    rw [hyk]
    exact (lookupKey_le_iff hk).mp hx
  · exact absurd hlt (not_lt_of_ge (InternalKey.le_of_tag_eq_zero htag (le_trans ha h1)))

section Newest

variable {db : DB} {h : List Op} {s l : Nat} {f : FileMetaData} {e : Entry}

/-- **The newest version is found where it lies.** -/
theorem visited_newest (hi : Inv db h) (hall : AllContain db)
    (hends : ∀ l, ∀ f ∈ db.current.files l, Ends f (db.tables f.number))
    (hn : NewestStored db s e) (hf : f ∈ db.current.files l)
    (he : e ∈ (db.tables f.number).entries) : Visited db.current e.key.userKey s (l, f) := by
  have hfo := hi.version.file l f hf
  have hlook : lookupKey e.key.userKey s ≤ e.key := (lookupKey_le_iff rfl).mpr hn.read
  refine (visited_iff hi.version).mpr ⟨hf, hfo.holds he, fun _ => ?_⟩
  refine ⟨le_trans hlook (hall l f hf e he).2, fun g hg hgk hlt => ?_⟩
  -- a file in front would end with a newer version
  have hlt' : g.largest < e.key := lt_of_lt_of_le hlt (hall l f hf e he).1
  obtain ⟨y, hy, hyg, hyk, hys⟩ := entry_of_blocked (hends l g hg) hgk hlt' (le_refl _)
  have hgo := hi.version.file l g hg
  have hle := hn.max y (Or.inr (Or.inr ⟨l, g, hg, hy⟩)) (hgo.points y hy) hyk hys
  have hge : e.key.sequence ≤ y.key.sequence :=
    InternalKey.sequence_le hyk (le_of_lt (hyg ▸ hlt'))
  have heq := (hgo.committed y hy).eq_of_sequence (hfo.committed e he) (le_antisymm hle hge)
  rw [heq] at hyg
  exact absurd hlt' (not_lt_of_ge (le_of_eq hyg))

/-- The newest stored version in the sense of multi-version maps. -/
theorem NewestStored.newest (hn : NewestStored db s e) :
    Newest (storedVers db) e.key.userKey s e.ver := by
  refine ⟨⟨⟨e, hn.stored, hn.point, rfl⟩, rfl, hn.read⟩, ?_⟩
  rintro _ ⟨x, hx, hp, rfl⟩ hk hs
  exact hn.max x hx hp hk hs

theorem newestStored_of_newest {k : Slice} {v : Ver Slice Slice}
    (hv : Newest (storedVers db) k s v) :
    ∃ e, e.ver = v ∧ e.key.userKey = k ∧ NewestStored db s e := by
  obtain ⟨⟨e, he, hp, rfl⟩, hk, hs⟩ := hv.1
  refine ⟨e, rfl, hk, he, hp, hs, fun x hx hxp hxk hxs => ?_⟩
  exact hv.2 x.ver ⟨x, hx, hxp, rfl⟩ (hxk.trans hk) hxs

theorem NewestStored.of_sub {db' : DB} (hn : NewestStored db' s e) (hst : Stored db e)
    (hsub : ∀ x, x.isPoint = true → Stored db x → Stored db' x) : NewestStored db s e :=
  ⟨hst, hn.point, hn.read, fun x hx hp => hn.max x (hsub x hp hx) hp⟩

end Newest

/-! ## Bounds of files -/

section Static

variable {o : Options} {db db' : DB} {h : List Op} {a : Action}

/-- A range deletion has its bounds in order. -/
def RangeInOrder : Op → Prop
  | .deleteRange start stop => start < stop
  | _ => True

instance : DecidablePred RangeInOrder
  | .put _ _ => isTrue trivial
  | .delete _ => isTrue trivial
  | .deleteRange start stop => inferInstanceAs (Decidable (start < stop))

/-- Every range deletion of the action has its bounds in order. -/
def ProperWrites (a : Action) : Prop := ∀ op ∈ a.ops, RangeInOrder op

instance (a : Action) : Decidable (ProperWrites a) :=
  inferInstanceAs (Decidable (∀ op ∈ a.ops, RangeInOrder op))

theorem proper_step (hpr : ∀ d, CommittedDel h d → d.startKey < d.endKey) (ha : ProperWrites a) :
    ∀ d, CommittedDel (h ++ a.ops) d → d.startKey < d.endKey := by
  intro d hd
  rcases committedDel_append.mp hd with hd | ⟨i, x, y, hi, rfl⟩
  · exact hpr d hd
  · exact ha _ (List.mem_of_getElem? hi)

/-- Flushed files and outputs end with an entry or with the last key of a user
    key. -/
theorem ends_step (hi : Inv db h) (hinv : ReadInv db h) (hstep : step o db a = some db') :
    ∀ l, ∀ f ∈ db'.current.files l, Ends f (db'.tables f.number) := by
  intro l f hf
  rcases files_step hi hstep hf with ⟨l', -, hf', ht⟩ | ⟨m, hm, hfl⟩ |
    ⟨r, -, hr, rfl, hin, hfo, -⟩
  · rw [ht]
    exact hinv.ends l' f hf'
  · rcases hfl.last with ⟨e, he, hek⟩ | htag
    · cases hp : e.isPoint with
      | true =>
        refine Or.inl ⟨e, ?_, hek.symm⟩
        rw [hfl.entries]
        exact List.mem_filter.mpr ⟨he, hp⟩
      | false =>
        -- a marker does not come last: its range reaches beyond its key
        exfalso
        have ht : e.key.type = .rangeDeletion := by simpa [Entry.isPoint] using hp
        have hd : e.rangeDeletion ∈ m.rangeDeletions := ((hi.imm m hm).dels _).mpr ⟨e, he, ht, rfl⟩
        have hlt := hinv.proper _ ((hi.imm m hm).committedDel hd)
        have hle := (hfl.reach _ hd).2
        rw [hek] at hle
        exact absurd hlt (not_lt_of_ge hle)
    · exact Or.inr htag
  · obtain ⟨seg, ht, -, -, -, hpc⟩ := hin.piece f hfo
    rw [ht]
    rcases hpc.hi_mem with ⟨b, hb, hbk⟩ | ⟨k, -, hbk⟩
    · exact Or.inl ⟨b, hb, hbk⟩
    · refine Or.inr ?_
      rw [hbk]
      exact InternalKey.tag_zero_deletion k

/-- Files of level 0 reach to the ends of their range deletions. -/
theorem reach0_step (hi : Inv db h) (hinv : ReadInv db h) (hstep : step o db a = some db') :
    ∀ f ∈ db'.current.files 0, ∀ d ∈ (db'.tables f.number).rangeDeletions,
      d.endKey ≤ f.largest.userKey := by
  intro f hf d hd
  rcases files_step hi hstep hf with ⟨l', hl', hf', ht⟩ | ⟨m, hm, hfl⟩ |
    ⟨r, -, hr, rfl, hin, hfo, hl⟩
  · rw [ht] at hd
    rw [Nat.le_zero.mp hl'] at hf'
    exact hinv.reach0 f hf' d hd
  · exact (hfl.reach d ((hfl.mem_dels (hi.imm m hm)).mp hd)).2
  · exact absurd hl (Nat.succ_ne_zero _).symm

theorem liveFrom_step (hc : Core db h) (hstep : step o db a = some db') {s : Nat}
    (hs : LiveFrom db' s) : LiveFrom db s := by
  have hlen := (core_step hc hstep).length
  rw [List.length_append] at hlen
  rcases hs with hs | hs
  · rcases live_step hc hstep (Or.inl hs) with hs | hs
    · exact Or.inl hs
    · right
      rw [hc.length, hs, List.length_append]
      exact Nat.le_add_right _ _
  · right
    rw [hc.length]
    omega

end Static

/-! ## Steps that keep the files' contents -/

section Steps

variable {o : Options} {db db' : DB} {h h' : List Op} {s l : Nat} {f : FileMetaData} {e : Entry}

/-- **Answers carry over** from one place of the entry to another, if what hides it
    goes on to hide it, and what covers its key before it did so before. -/
theorem Answered.carry {l₀ : Nat} {f₀ : FileMetaData} (ha : Answered db h s l₀ f₀ e)
    (htt : tableTombs db' ⊆ tableTombs db) (hT : committedTombs h ⊆ committedTombs h')
    (hides : ∀ p, Visited db.current e.key.userKey s p → (p = (l₀, f₀) ∨ Earlier p (l₀, f₀)) →
      Hides db p e.key.userKey e.key.sequence s →
      ∃ p', Visited db'.current e.key.userKey s p' ∧ (p' = (l, f) ∨ Earlier p' (l, f))
        ∧ Hides db' p' e.key.userKey e.key.sequence s)
    (clear : ∀ p, Visited db'.current e.key.userKey s p → Earlier p (l, f) →
      Hides db' p e.key.userKey 0 s →
      (∃ p', Visited db.current e.key.userKey s p' ∧ Earlier p' (l₀, f₀)
          ∧ Hides db p' e.key.userKey 0 s)
        ∨ Hidden (committedTombs h) e.key.userKey e.key.sequence s) :
    Answered db' h' s l f e := by
  refine ⟨fun hh => ?_, fun p hp hord hh => ?_⟩
  · obtain ⟨p, hp, hpo, hph⟩ := ha.hides (hh.mono_tombs htt)
    exact hides p hp hpo hph
  · rcases clear p hp hord hh with ⟨p', hp', hord', hh'⟩ | hdel
    · exact (ha.clear p' hp' hord' hh').mono_tombs hT
    · exact hdel.mono_tombs hT

theorem Answered.same (ha : Answered db h s l f e) (hcur : db'.current = db.current)
    (htab : db'.tables = db.tables) (hT : committedTombs h ⊆ committedTombs h') :
    Answered db' h' s l f e := by
  have htt : tableTombs db' = tableTombs db := by rw [tableTombs, hcur, htab, tableTombs]
  refine ha.carry htt.subset hT (fun p hp hpo hh => ⟨p, hcur ▸ hp, hpo, ?_⟩)
    fun p hp hpo hh => Or.inl ⟨p, hcur ▸ hp, hpo, ?_⟩
  · rw [Hides, htab]
    exact hh
  · rw [Hides, htab] at hh
    exact hh

variable (hi : Inv db h) (hinv : ReadInv db h) (hi' : Inv db' h') (hall' : AllContain db')
  (hends' : ∀ l, ∀ f ∈ db'.current.files l, Ends f (db'.tables f.number))
  (hT : committedTombs h ⊆ committedTombs h')
  (hst : ∀ x, x.isPoint = true → Stored db x → Stored db' x) (hs : LiveFrom db s)
  (hn : NewestStored db' s e) (hf : f ∈ db'.current.files l)
  (he : e ∈ (db'.tables f.number).entries)

include hi hinv hi' hall' hends' hT hst hs hn hf he

/-- **A flush.**  The new file is opened first where it matters, and hides what the
    immutable memtable hid. -/
theorem answered_flush {m : MemTable} {F : FileMetaData} {t : Table} {level : Nat}
    (hm : db.imm = some m)
    (hw : writeLevel0Table o db.current db.nextFileNumber m = some (F, t, level))
    (hcur : db'.current = applyEdit db.current (({} : VersionEdit).addFile level F))
    (htab : db'.tables = Function.update db.tables F.number t) : Answered db' h' s l f e := by
  obtain ⟨hfl, -, hadds, hapart, -⟩ := flush_spec hi hm hw
  obtain ⟨n₁, n₂, -, hwin⟩ := hi.windows
  have hmo := hi.imm m hm
  rw [← hcur] at hadds
  have htF : db'.tables F.number = t := by rw [htab, Function.update_self]
  have htold : ∀ l, ∀ g ∈ db.current.files l, db'.tables g.number = db.tables g.number := by
    intro l g hg
    rw [htab, Function.update_of_ne]
    rw [hfl.number]
    exact Nat.ne_of_lt (hi.version.number l g hg)
  have hFmem : F ∈ db'.current.files level := (hadds.mem level F).mpr (Or.inr ⟨rfl, rfl⟩)
  have hvis := visited_newest hi' hall' hends' hn hf he
  -- what the new file covers it is opened for
  have hdel : ∀ d ∈ t.rangeDeletions, n₁ < d.seq ∧ CommittedDel h d
      ∧ F.smallest.userKey ≤ d.startKey ∧ d.endKey ≤ F.largest.userKey := by
    intro d hd
    have hd := (hfl.mem_dels hmo).mp hd
    obtain ⟨x, hx, -, rfl⟩ := (hmo.dels d).mp hd
    exact ⟨(hwin.imm m hm x hx).1, hmo.committedDel hd, hfl.reach _ hd⟩
  have hFvis : ∀ q, Hidden (tombs t.rangeDeletions) e.key.userKey q s →
      Visited db'.current e.key.userKey s (level, F) := by
    rintro q ⟨_, ⟨d, hd, rfl⟩, hc, -, -⟩
    obtain ⟨-, -, h1, h2⟩ := hdel d hd
    have hlt : e.key.userKey < F.largest.userKey := lt_of_lt_of_le hc.2 h2
    refine (visited_iff hi'.version).mpr ⟨hFmem, ⟨le_trans h1 hc.1, le_of_lt hlt⟩, fun hl => ?_⟩
    refine ⟨lookupKey_le_of_lt hlt, fun g hg hgk hgF => ?_⟩
    have hgo := (hi'.version.file level g hg).ordered
    have hFo := (hi'.version.file level F hFmem).ordered
    rcases (hadds.mem level g).mp hg with hg | ⟨-, rfl⟩
    · exact hapart hl level (le_refl _) g hg
        ((butts_of_blocked hgk hgF (le_trans h1 hc.1)).1.meets hgo hFo).symm
    · exact absurd hgF (not_lt_of_ge hFo)
  have hFfirst : ∀ l, ∀ g ∈ db.current.files l, Visited db'.current e.key.userKey s (l, g) →
      Visited db'.current e.key.userKey s (level, F) → Earlier (level, F) (l, g) := by
    intro l g hg hvg hvF
    obtain ⟨-, hg1, hg2⟩ := visited_holds hi'.version hvg
    obtain ⟨-, hF1, hF2⟩ := visited_holds hi'.version hvF
    rcases Nat.eq_zero_or_pos level with rfl | hpos
    · rcases Nat.eq_zero_or_pos l with rfl | hl
      · exact Or.inr ⟨rfl, rfl, hfl.number ▸ hi.version.number 0 g hg⟩
      · exact Or.inl hl
    · refine Or.inl (Nat.lt_of_not_le fun hle => ?_)
      exact hapart hpos l hle g hg ⟨le_trans hF1 hg2, le_trans hg1 hF2⟩
  rcases (hadds.mem l f).mp hf with hfo | ⟨rfl, rfl⟩
  · rw [htold l f hfo] at he
    have ha := hinv.answered s hs e (hn.of_sub (Or.inr (Or.inr ⟨l, f, hfo, he⟩)) hst) l f hfo he
    refine ⟨?_, ?_⟩
    · rintro ⟨_, ⟨l', g, hg, d, hd, rfl⟩, hc⟩
      rcases (hadds.mem l' g).mp hg with hg | ⟨rfl, rfl⟩
      · rw [htold l' g hg] at hd
        obtain ⟨p, hp, hord, hh⟩ := ha.hides ⟨_, ⟨l', g, hg, d, hd, rfl⟩, hc⟩
        have hpo := (visited_holds hi.version hp).1
        refine ⟨p, (visited_adds hi.version hi'.version hadds hapart hpo).mpr hp, hord, ?_⟩
        rw [htold p.1 p.2 hpo]
        exact hh
      · rw [htF] at hd
        have hh : Hidden (tombs t.rangeDeletions) e.key.userKey e.key.sequence s :=
          ⟨_, ⟨d, hd, rfl⟩, hc⟩
        have hvF := hFvis _ hh
        refine ⟨(l', g), hvF, Or.inr (hFfirst l f hfo hvis hvF), ?_⟩
        rw [htF]
        exact hh
    · intro p hp hord hh
      rcases (hadds.mem p.1 p.2).mp (visited_holds hi'.version hp).1 with hpo | ⟨-, hpF⟩
      · rw [htold p.1 p.2 hpo] at hh
        exact (ha.clear p ((visited_adds hi.version hi'.version hadds hapart hpo).mp hp) hord
          hh).mono_tombs hT
      · -- the tombstones of the new file are newer than every table entry
        rw [hpF, htF] at hh
        obtain ⟨_, ⟨d, hd, rfl⟩, hc, -, hle⟩ := hh
        obtain ⟨hlt, hcom, -⟩ := hdel d hd
        exact ⟨d.tomb, hT ⟨d, hcom, rfl⟩, hc,
          lt_of_le_of_lt (hwin.tables l f hfo e he) hlt, hle⟩
  · rw [htF, hfl.entries] at he
    have hen := (hwin.imm m hm e (List.mem_filter.mp he).1).1
    refine ⟨?_, ?_⟩
    · rintro ⟨_, ⟨l', g, hg, d, hd, rfl⟩, hc, hlt, hle⟩
      rcases (hadds.mem l' g).mp hg with hg | ⟨rfl, rfl⟩
      · rw [htold l' g hg] at hd
        have := hwin.dels l' g hg d hd
        exact absurd (lt_trans hen hlt) (not_lt_of_ge this)
      · exact ⟨(l', g), hvis, Or.inl rfl, _, ⟨d, hd, rfl⟩, hc, hlt, hle⟩
    · intro p hp hord _
      exfalso
      rcases (hadds.mem p.1 p.2).mp (visited_holds hi'.version hp).1 with hpo | ⟨h1, h2⟩
      · exact (hFfirst p.1 p.2 hpo hp hvis).asymm hord
      · have hpF : p = (l, f) := Prod.ext h1 h2
        rw [hpF] at hord
        exact hord.asymm hord

/-- **A trivial move.**  The moved file is opened for the keys it covers as before,
    between the same files. -/
theorem answered_move {c : Compaction} {F : FileMetaData} (hc : Closed c db.current)
    (hdeep : c.level + 1 < kNumLevels) (h0 : c.inputs0 = [F]) (h1 : c.inputs1 = [])
    (hcur : db'.current = applyEdit db.current (moveEdit c F)) (htab : db'.tables = db.tables) :
    Answered db' h' s l f e := by
  have hF : F ∈ db.current.files c.level := hc.run0.sub F (by rw [h0]; simp)
  have hr := replaces_of_move hi.listed hF hdeep
  rw [← hcur] at hr
  have hord : ∀ l, ∀ g ∈ db.current.files l, g.Ordered := fun l g hg =>
    (hi.version.file l g hg).ordered
  have hbelow : ∀ g ∈ db.current.files (c.level + 1), ¬ Meets F g := by
    intro g hg hm
    rcases hc.beside g hg (by rw [h1]; exact List.not_mem_nil) with hb | ⟨hb, -⟩
    · exact absurd hm.2 (not_le_of_gt (hb F (by rw [h0]; simp)))
    · exact absurd hm.1 (not_le_of_gt (hb F (by rw [h0]; simp)))
  have hside : ∀ g ∈ db.current.files c.level, g ≠ F → Meets F g →
      0 < c.level ∧ g.largest < F.smallest := by
    intro g hg hne
    exact hc.closed0 F (by rw [h0]; simp) g hg (by rw [h0]; simpa using hne)
  have hfiles : ∀ l, ∀ g ∈ db'.current.files l,
      (g ≠ F ∧ g ∈ db.current.files l) ∨ (g = F ∧ l = c.level + 1) := by
    intro l g hg
    rcases (hr.mem l g).mp hg with ⟨hg, hn0, -⟩ | ⟨hl, hg⟩
    · refine Or.inl ⟨?_, hg⟩
      rintro rfl
      exact hn0 ⟨(hi.version.unique l c.level g g hg hF rfl).1, by simp⟩
    · exact Or.inr ⟨List.mem_singleton.mp hg, hl⟩
  have hstay : ∀ l, ∀ g ∈ db.current.files l, g ≠ F →
      (Visited db'.current e.key.userKey s (l, g) ↔ Visited db.current e.key.userKey s (l, g)) := by
    intro l g hg hne
    refine visited_replaces hi.version hi'.version hr hg (by simpa using hne) List.not_mem_nil
      ?_ (fun _ => nofun) ?_
    · intro hl hpos x hx hb
      subst hl
      rw [List.mem_singleton.mp hx] at hb
      have hlt := (hside g hg hne (hb.meets (hord _ F hF) (hord _ g hg))).2
      exact absurd (lt_trans (lt_of_le_of_lt (hord _ g hg) hlt)
        (lt_of_le_of_lt (hord _ F hF) hb.2)) (lt_irrefl _)
    · intro hl x hx hb
      subst hl
      rw [List.mem_singleton.mp hx] at hb
      exact hbelow g hg (hb.meets (hord _ F hF) (hord _ g hg))
  -- the moved file is still opened where it covers the key
  have hdown : ∀ q, Hidden (tombs (db.tables F.number).rangeDeletions) e.key.userKey q s →
      Visited db.current e.key.userKey s (c.level, F) →
      Visited db'.current e.key.userKey s (c.level + 1, F) := by
    rintro q ⟨_, ⟨d, hd, rfl⟩, hcov, -, -⟩ hvF
    obtain ⟨-, hk, hpos⟩ := (visited_iff hi.version).mp hvF
    have hreach : lookupKey e.key.userKey s ≤ F.largest := by
      rcases Nat.eq_zero_or_pos c.level with hl | hl
      · rw [hl] at hF
        exact lookupKey_le_of_lt (lt_of_lt_of_le hcov.2 (hinv.reach0 F hF d hd))
      · exact (hpos hl).1
    refine (visited_iff hi'.version).mpr
      ⟨(hr.mem _ F).mpr (Or.inr ⟨rfl, by simp⟩), hk, fun _ => ⟨hreach, fun g hg hgk hlt => ?_⟩⟩
    rcases hfiles _ g hg with ⟨-, hg⟩ | ⟨rfl, -⟩
    · exact hbelow g hg ((butts_of_blocked hgk hlt hk.1).1.meets (hord _ g hg)
        (hord _ F hF)).symm
    · exact absurd hlt (not_lt_of_ge (hord _ g hF))
  have htt : tableTombs db' ⊆ tableTombs db := by
    rintro t ⟨l, g, hg, ht⟩
    rw [htab] at ht
    rcases hfiles l g hg with ⟨-, hg⟩ | ⟨rfl, -⟩
    · exact ⟨l, g, hg, ht⟩
    · exact ⟨c.level, g, hF, ht⟩
  have hsame : ∀ {p q}, Hides db' p e.key.userKey q s ↔ Hides db p e.key.userKey q s := by
    intro p q
    rw [Hides, Hides, htab]
  have hvis := visited_newest hi' hall' hends' hn hf he
  rw [htab] at he
  rcases hfiles l f hf with ⟨hne, hfo⟩ | ⟨rfl, rfl⟩
  · have hn0 := hn.of_sub (Or.inr (Or.inr ⟨l, f, hfo, he⟩)) hst
    obtain ⟨-, hf1, hf2⟩ := visited_holds hi'.version hvis
    refine (hinv.answered s hs e hn0 l f hfo he).carry htt hT (fun p hp hpo hh => ?_)
      fun p hp hpo hh => Or.inl ?_
    · obtain ⟨hpm, hp1, hp2⟩ := visited_holds hi.version hp
      by_cases hpF : p.2 = F
      · obtain rfl : p = (c.level, F) :=
          Prod.ext (hi.version.unique _ _ p.2 F hpm hF (congrArg _ hpF)).1 hpF
        refine ⟨(c.level + 1, F), hdown _ hh hp, Or.inr (Or.inl ?_), hsame.mpr hh⟩
        have hmeet : Meets F f := ⟨le_trans hp1 hf2, le_trans hf1 hp2⟩
        rcases hpo with hpo | hpo | ⟨hl0, hl1, -⟩
        · exact absurd (Prod.ext_iff.mp hpo).2.symm hne
        · refine lt_of_le_of_ne hpo fun hl => hbelow f ?_ hmeet
          exact (show c.level + 1 = l from hl) ▸ hfo
        · simp only at hl0 hl1
          rw [hl1, ← hl0] at hfo
          have := (hside f hfo hne hmeet).1
          omega
      · exact ⟨p, (hstay p.1 p.2 hpm hpF).mpr hp, hpo, hsame.mpr hh⟩
    · rw [hsame] at hh
      rcases hfiles p.1 p.2 (visited_holds hi'.version hp).1 with ⟨hpF, hpm⟩ | ⟨hpF, hpl⟩
      · exact ⟨p, (hstay p.1 p.2 hpm hpF).mp hp, hpo, hh⟩
      · obtain rfl : p = (c.level + 1, F) := Prod.ext hpl hpF
        have hlt : c.level < l := Nat.lt_of_succ_lt (hpo.lt (Or.inl (Nat.succ_pos _)))
        obtain ⟨-, hk, hpos⟩ := (visited_iff hi'.version).mp hp
        refine ⟨(c.level, F), ?_, Or.inl hlt, hh⟩
        refine (visited_iff hi.version).mpr ⟨hF, hk, fun _ => ⟨(hpos (Nat.succ_pos _)).1, ?_⟩⟩
        -- a file in front of it would hold a version newer than the newest
        intro g hg hgk hgF
        obtain ⟨y, hy, -, hyk, hys⟩ := entry_of_blocked (hinv.ends _ g hg) hgk hgF hk.1
        have hle := hn0.max y (Or.inr (Or.inr ⟨_, g, hg, hy⟩))
          ((hi.version.file _ g hg).points y hy) hyk hys
        exact absurd (hi.version.recent _ _ hlt g hg f hfo y hy e he hyk) (not_lt_of_ge hle)
  · have hn0 := hn.of_sub (Or.inr (Or.inr ⟨c.level, f, hF, he⟩)) hst
    have hvis0 := visited_newest hi hinv.contains hinv.ends hn0 hF he
    obtain ⟨-, hf1, hf2⟩ := visited_holds hi.version hvis0
    refine (hinv.answered s hs e hn0 c.level f hF he).carry htt hT (fun p hp hpo hh => ?_)
      fun p hp hpo hh => Or.inl ?_
    · have hpm := (visited_holds hi.version hp).1
      by_cases hpF : p.2 = f
      · obtain rfl : p = (c.level, f) :=
          Prod.ext (hi.version.unique _ _ p.2 f hpm hF (congrArg _ hpF)).1 hpF
        exact ⟨_, hvis, Or.inl rfl, hsame.mpr hh⟩
      · exact ⟨p, (hstay p.1 p.2 hpm hpF).mpr hp, Or.inr (Or.inl (Nat.lt_succ_of_le (Earlier.le hpo))),
          hsame.mpr hh⟩
    · rw [hsame] at hh
      obtain ⟨hpm, hp1, hp2⟩ := visited_holds hi'.version hp
      have hlt : p.1 < c.level + 1 := hpo.lt (Or.inr (Nat.succ_pos _))
      rcases hfiles p.1 p.2 hpm with ⟨hpF, hpm⟩ | ⟨-, hpl⟩
      · have hp0 := (hstay p.1 p.2 hpm hpF).mp hp
        refine ⟨p, hp0, Or.inl (lt_of_le_of_ne (Nat.le_of_lt_succ hlt) fun hl => ?_), hh⟩
        -- two opened files on its level
        rw [hl] at hpm
        rcases Nat.eq_zero_or_pos c.level with hz | hpos
        · have := (hside p.2 hpm hpF ⟨le_trans hf1 hp2, le_trans hp1 hf2⟩).1
          omega
        · have hp' : p = (c.level, p.2) := Prod.ext hl rfl
          rw [hp'] at hp0
          exact hpF (visited_unique hpos hp0 hvis0)
      · omega

end Steps

/-! ## Installs -/

/-- The entry is the newest version of its user key at `s` among those the install
    leaves: entries outside the inputs and kept ones. -/
def NewestLeft (db : DB) (r : Running) (s : Nat) (e : Entry) : Prop :=
  e.key.sequence ≤ s ∧ ∀ x ∈ allEntries db, x.isPoint = true →
    (x ∈ (db.job r).merged → x ∈ (db.job r).kept) → x.key.userKey = e.key.userKey →
    x.key.sequence ≤ s → x.key.sequence ≤ e.key.sequence

instance (db : DB) (r : Running) (s : Nat) (e : Entry) : Decidable (NewestLeft db r s e) :=
  inferInstanceAs (Decidable (_ ∧ _))

/-- **The compaction keeps the answers of reads.**  For every version below the
    output level that is the newest left of its user key at a live sequence: if an
    input that holds the key has a tombstone deleting the version, the key stays in
    reach of the outputs; and if the key is in reach and an input tombstone covers
    it, some tombstone deletes the version. -/
def KeepsAnswers (o : Options) (db : DB) (r : Running) : Prop :=
  ∀ s ∈ db.lastSequence :: db.snapshots, ∀ l ∈ deeperLevels r.compaction.level,
    ∀ g ∈ db.current.files l, ∀ e ∈ (db.tables g.number).entries, NewestLeft db r s e →
      ((∃ x ∈ r.compaction.inputs0 ++ r.compaction.inputs1, x.holds e.key.userKey = true
          ∧ isDeleted (db.tables x.number).rangeDeletions e.key.userKey e.key.sequence s = true) →
        InReach (db.job r) o e.key.userKey s)
      ∧ (InReach (db.job r) o e.key.userKey s →
          isDeleted (db.job r).dels e.key.userKey 0 s = true →
          isDeleted (getRangeDeletions db) e.key.userKey e.key.sequence s = true)

instance (o : Options) (db : DB) (r : Running) : Decidable (KeepsAnswers o db r) :=
  inferInstanceAs (Decidable (∀ s ∈ db.lastSequence :: db.snapshots, _))

section Install

variable {o : Options} {db : DB} {h : List Op} {r : Running} {s l : Nat} {e : Entry}

/-- A lookup at or above all sequence numbers of a key list finds the same. -/
theorem lookupKey_le_congr {k : Slice} {n s : Nat} {a : InternalKey} (ha : a.sequence ≤ n)
    (hs : n ≤ s) : lookupKey k s ≤ a ↔ lookupKey k n ≤ a := by
  rcases lt_trichotomy k a.userKey with hlt | rfl | hlt
  · exact iff_of_true (lookupKey_le_of_lt hlt) (lookupKey_le_of_lt hlt)
  · rw [lookupKey_le_iff rfl, lookupKey_le_iff rfl]
    exact iff_of_true (le_trans ha hs) ha
  · exact iff_of_false (fun h => absurd (InternalKey.userKey_le h) (not_le_of_gt hlt))
      fun h => absurd (InternalKey.userKey_le h) (not_le_of_gt hlt)

/-- The reach of the survivors is the same for all reads after them. -/
theorem inReach_congr {j : Job} {k : Slice} {n : Nat} (hkept : ∀ e ∈ j.kept, e.key.sequence ≤ n)
    (hs : n ≤ s) : InReach j o k s ↔ InReach j o k n := by
  refine or_congr_right (or_congr_right (exists_congr fun seg => and_congr_right fun hseg =>
    and_congr_right fun _ => exists_congr fun b => and_congr_right fun hb => ?_))
  refine lookupKey_le_congr (hkept b ?_) hs
  -- the bounding entry of a segment is a kept entry
  rw [← segments_flatten j o]
  refine List.mem_append.mpr (Or.inl (List.mem_flatten.mpr ⟨seg, hseg, ?_⟩))
  rw [newestOfLast] at hb
  split at hb
  · cases hb
  · exact List.mem_of_find?_eq_some hb

theorem hidden_congr {T : Set (Tomb Slice)} {k : Slice} {q n : Nat} (hT : ∀ t ∈ T, t.seq ≤ n)
    (hs : n ≤ s) : Hidden T k q s ↔ Hidden T k q n := by
  refine exists_congr fun t => and_congr_right fun ht => and_congr_right fun _ =>
    and_congr_right fun _ => iff_of_true (le_trans (hT t ht) hs) (hT t ht)

section

variable (hi : Inv db h) (hr : db.running = some r)
include hi hr

/-- The condition on installs, at every sequence number read from now on. -/
theorem KeepsAnswers.live (hkeep : KeepsAnswers o db r) (hs : LiveFrom db s)
    (hl : r.compaction.level + 2 ≤ l) {g : FileMetaData} (hg : g ∈ db.current.files l)
    (he : e ∈ (db.tables g.number).entries) (hnew : NewestLeft db r s e) :
    (∀ x ∈ r.compaction.inputs, x.smallest.userKey ≤ e.key.userKey →
        e.key.userKey ≤ x.largest.userKey →
        Hidden (tombs (db.tables x.number).rangeDeletions) e.key.userKey e.key.sequence s →
        InReach (db.job r) o e.key.userKey s)
      ∧ (InReach (db.job r) o e.key.userKey s → Hidden (tombs (db.job r).dels) e.key.userKey 0 s →
          Hidden (committedTombs h) e.key.userKey e.key.sequence s) := by
  have hro := hi.running r hr
  have hdeep : l ∈ deeperLevels r.compaction.level := by
    have hlt := hi.version.level_lt hg
    rw [deeperLevels, List.mem_range'_1]
    omega
  have hinput : ∀ x ∈ r.compaction.inputs,
      ∃ lx, x ∈ db.current.files lx := by
    intro x hx
    obtain ⟨lx, -, hxl⟩ := inputs_mem hro.closed hro.grown hx
    exact ⟨lx, hxl⟩
  rw [← tombs_getRangeDeletions hi.toCore]
  rcases hs with hs | hs
  · obtain ⟨h1, h2⟩ := hkeep s (List.mem_cons_of_mem _ hs) l hdeep g hg e he hnew
    refine ⟨fun x hx hx1 hx2 hh => h1 ⟨x, hx, FileMetaData.holds_iff.mpr ⟨hx1, hx2⟩,
      isDeleted_iff_hidden.mpr hh⟩, fun hre hh => ?_⟩
    exact isDeleted_iff_hidden.mp (h2 hre (isDeleted_iff_hidden.mpr hh))
  · -- at or after the last sequence: everything stored is below it
    have hseq : ∀ x, Stored db x → x.key.sequence ≤ db.lastSequence := by
      intro x hx
      rw [hi.length]
      exact (Stored.committed hi.toCore hx).sequence_le.2
    have hdels : ∀ x ∈ r.compaction.inputs,
        ∀ t ∈ tombs (db.tables x.number).rangeDeletions, t.seq ≤ db.lastSequence := by
      rintro x hx _ ⟨d, hd, rfl⟩
      obtain ⟨lx, hxl⟩ := hinput x hx
      rw [hi.length]
      exact ((hi.version.file lx x hxl).dels d hd).seq_le.2
    have hjob : ∀ t ∈ tombs (db.job r).dels, t.seq ≤ db.lastSequence := by
      rintro _ ⟨d, hd, rfl⟩
      obtain ⟨x, hx, hdx⟩ := (hi.toCore.mem_dels hr).mp hd
      exact hdels x hx _ ⟨d, hdx, rfl⟩
    have hkept : ∀ x ∈ (db.job r).kept, x.key.sequence ≤ db.lastSequence := by
      intro x hx
      obtain ⟨y, hy, hxy⟩ := mem_merged.mp ((kept_sublist _).subset hx)
      obtain ⟨ly, hyl⟩ := hinput y hy
      exact hseq x (Or.inr (Or.inr ⟨ly, y, hyl, hxy⟩))
    have hnew' : NewestLeft db r db.lastSequence e :=
      ⟨hseq e (Or.inr (Or.inr ⟨l, g, hg, he⟩)), fun x hx hp hk hxk hxs =>
        hnew.2 x hx hp hk hxk (le_trans hxs hs)⟩
    obtain ⟨h1, h2⟩ := hkeep db.lastSequence List.mem_cons_self l hdeep g hg e he hnew'
    refine ⟨fun x hx hx1 hx2 hh => ?_, fun hre hh => ?_⟩
    · refine (inReach_congr hkept hs).mpr (h1 ⟨x, hx, FileMetaData.holds_iff.mpr ⟨hx1, hx2⟩, ?_⟩)
      exact isDeleted_iff_hidden.mpr ((hidden_congr (hdels x hx) hs).mp hh)
    · have := h2 ((inReach_congr hkept hs).mp hre)
        (isDeleted_iff_hidden.mpr ((hidden_congr hjob hs).mp hh))
      exact (isDeleted_iff_hidden.mp this).mono_read hs

omit hi hr in
/-- What the install leaves is stored afterwards. -/
theorem stored_install_of_left (hw : Written o db r) {x : Entry} (hx : Stored db x)
    (hk : x ∈ (db.job r).merged → x ∈ (db.job r).kept) : Stored (db.installResults o r) x := by
  rcases hx with hx | hx | ⟨l, f, hf, hx⟩
  · exact Or.inl (by simpa using hx)
  · exact Or.inr (Or.inl (by simpa using hx))
  · by_cases hin : f ∈ r.compaction.inputs
    · obtain ⟨g, hg, hxg⟩ := hw.kept x (hk (mem_merged.mpr ⟨f, hin, hx⟩))
      exact Or.inr (Or.inr ⟨_, g, (hw.replaces.mem _ g).mpr (Or.inr ⟨rfl, hg⟩), hxg⟩)
    · rw [List.mem_append, not_or] at hin
      refine Or.inr (Or.inr ⟨l, f, (hw.replaces.mem l f).mpr (Or.inl
        ⟨hf, fun hc => hin.1 hc.2, fun hc => hin.2 hc.2⟩), ?_⟩)
      rw [hw.tables l f hf]
      exact hx

omit hi hr in
/-- The newest version after the install is the newest left. -/
theorem newestLeft_install (hi : Inv db h) (hw : Written o db r)
    (hn : NewestStored (db.installResults o r) s e) : NewestLeft db r s e :=
  ⟨hn.read, fun x hx hp hk hxk hxs =>
    hn.max x (stored_install_of_left hw ((mem_allEntries hi.toCore).mp hx) hk) hp hxk hxs⟩

/-- **The newest version after an install** was the newest before, or an input
    tombstone deleted that one. -/
theorem newest_install (hin : Installed o db r) (hmax : r.smallestSnapshot < kMaxSequenceNumber)
    (hs : r.smallestSnapshot ≤ s) (hn : NewestStored (db.installResults o r) s e) :
    NewestStored db s e ∨ ∃ top, NewestStored db s top ∧ top ∈ (db.job r).merged
      ∧ top.key.userKey = e.key.userKey ∧ e.key.sequence < top.key.sequence
      ∧ Hidden (tombs (db.job r).rangeDels) e.key.userKey top.key.sequence s := by
  have hE := storedVers_eq hi.toCore hr
  have hE' := storedVers_install hi.toCore hr hin.toWritten
  rw [kept_eq_filter hi hr hmax] at hE'
  have hsub : storedVers (db.installResults o r) ⊆ storedVers db := by
    rw [hE, hE']
    exact survivors_subset _ _
  have hdrop : ∀ x ∈ storedVers db, x.key = e.key.userKey →
      x ∉ storedVers (db.installResults o r) →
      Droppable (storedVers db) (storedVers (db.installResults o r)) (tombs (db.job r).rangeDels)
        s x := by
    rw [hE, hE']
    intro x hx _ hout
    refine survivors_droppable (hi.toCore.merged_points hr) ?_ hs x hx hout
    rintro _ ⟨y, hy, -, rfl⟩ m hm hk hbase
    exact elsewhere_newer hi hr hy hm hk hbase
  have hnew := hn.newest
  obtain ⟨m, hm, -⟩ := exists_newest (hsub hnew.1.1) rfl hn.read
  obtain ⟨top, rfl, htk, htop⟩ := newestStored_of_newest hm
  have hcom : Committed h e :=
    Stored.committed (core_installResults hi.toCore hr hin.toWritten) hn.stored
  rcases newest_after_drop (storedVers_inj hi.toCore) hsub hdrop hm hnew with hv | ⟨hlt, hh⟩
  · left
    have htop' : top = e := (Stored.committed hi.toCore htop.stored).eq_of_sequence hcom
      (congrArg Ver.seq hv.symm)
    exact htop' ▸ htop
  · refine Or.inr ⟨top, htop, ?_, htk, hlt, hh⟩
    by_contra hno
    have hle := hn.max top (stored_install_of_left hin.toWritten htop.stored
      fun hc => absurd hc hno) htop.point htk htop.read
    exact absurd hlt (not_lt_of_ge hle)

/-- A file that stays, opened above the output level, is opened before an input. -/
theorem earlier_input {k : Slice} {lx : Nat} {x : FileMetaData} {p : Nat × FileMetaData}
    (hx : x ∈ r.compaction.inputs) (hvx : Visited db.current k s (lx, x))
    (hp : Visited db.current k s p) (hpn : p.2 ∉ r.compaction.inputs)
    (hpl : p.1 ≤ r.compaction.level) : Earlier p (lx, x) := by
  have hro := hi.running r hr
  obtain ⟨hxm, hx1, hx2⟩ := visited_holds hi.version hvx
  obtain ⟨hpm, hp1, hp2⟩ := visited_holds hi.version hp
  rcases List.mem_append.mp hx with hx0 | hx1'
  · have hlx := (hi.version.unique _ _ x x hxm (inputs0_mem hro.closed hro.grown x hx0) rfl).1
    subst hlx
    rcases Nat.lt_or_ge p.1 r.compaction.level with hlt | hge
    · exact Or.inl hlt
    · have hpl' : p.1 = r.compaction.level := le_antisymm hpl hge
      have hp' : p = (r.compaction.level, p.2) := Prod.ext hpl' rfl
      rcases Nat.eq_zero_or_pos r.compaction.level with hz | hpos
      · have hmeet : Meets x p.2 := ⟨le_trans hx1 hp2, le_trans hp1 hx2⟩
        rw [hpl'] at hpm
        refine Or.inr ⟨hpl'.trans hz, hz, ?_⟩
        by_cases h0 : p.2 ∈ r.inputVersion.files r.compaction.level
        · have := (hro.closed.closed0 x hx0 p.2 h0
            (fun hc => hpn (List.mem_append.mpr (Or.inl hc))) hmeet).1
          omega
        · exact hro.grown.later _ p.2 hpm h0 x hx
      · rw [hp'] at hp
        exact absurd (visited_unique hpos hp hvx ▸ hx) hpn
  · have hlx := (hi.version.unique _ _ x x hxm (inputs1_mem hro.closed hro.grown x hx1') rfl).1
    exact Or.inl (hlx ▸ Nat.lt_succ_of_le hpl)

/-- A file that stays and is opened after an input lies below the output level. -/
theorem deeper_of_input {k : Slice} {lx : Nat} {x g : FileMetaData} (hx : x ∈ r.compaction.inputs)
    (hvx : Visited db.current k s (lx, x)) (hvg : Visited db.current k s (l, g))
    (hgn : g ∉ r.compaction.inputs) (hord : Earlier (lx, x) (l, g)) :
    r.compaction.level + 2 ≤ l := by
  have hro := hi.running r hr
  obtain ⟨hxm, hx1, hx2⟩ := visited_holds hi.version hvx
  obtain ⟨hgm, hg1, hg2⟩ := visited_holds hi.version hvg
  have hmeet : Meets x g := ⟨le_trans hx1 hg2, le_trans hg1 hx2⟩
  rcases List.mem_append.mp hx with hx0 | hx1'
  · have hlx := (hi.version.unique _ _ x x hxm (inputs0_mem hro.closed hro.grown x hx0) rfl).1
    subst hlx
    rcases hord with hlt | ⟨hz, hlz, hnum⟩
    · refine Nat.lt_of_le_of_ne hlt fun hl => ?_
      have hgm' : g ∈ db.current.files (r.compaction.level + 1) :=
        (show r.compaction.level + 1 = l from hl) ▸ hgm
      exact not_meets_beside hi hr hgm' (fun hc => hgn (List.mem_append.mpr (Or.inr hc))) x hx0
        hmeet
    · exfalso
      simp only at hz hlz hnum
      rw [hlz, ← hz] at hgm
      by_cases h0 : g ∈ r.inputVersion.files r.compaction.level
      · have := (hro.closed.closed0 x hx0 g h0
          (fun hc => hgn (List.mem_append.mpr (Or.inl hc))) hmeet).1
        omega
      · have := hro.grown.later _ g hgm h0 x hx
        omega
  · have hlx := (hi.version.unique _ _ x x hxm (inputs1_mem hro.closed hro.grown x hx1') rfl).1
    subst hlx
    rcases hord with hlt | ⟨hz, -⟩
    · exact hlt
    · exact absurd hz (Nat.succ_ne_zero _)

end

/-- **An install** that keeps the answers of reads. -/
theorem answered_install {f : FileMetaData} (hi : Inv db h) (hinv : ReadInv db h)
    (hr : db.running = some r) (hin : Installed o db r) (hi' : Inv (db.installResults o r) h)
    (hall' : AllContain (db.installResults o r))
    (hends' : ∀ l, ∀ f ∈ (db.installResults o r).current.files l,
      Ends f ((db.installResults o r).tables f.number))
    (hmax : r.smallestSnapshot < kMaxSequenceNumber) (hkeep : KeepsAnswers o db r)
    (hs : LiveFrom db s) (hn : NewestStored (db.installResults o r) s e)
    (hf : f ∈ (db.installResults o r).current.files l)
    (he : e ∈ ((db.installResults o r).tables f.number).entries) :
    Answered (db.installResults o r) h s l f e := by
  have hro := hi.running r hr
  have hv' := hi'.version
  have hss : r.smallestSnapshot ≤ s := by
    rcases hs with hs | hs
    · exact hro.snapshot.2 s hs
    · exact le_trans hro.snapshot.1 hs
  have hdels : ∀ {d}, d ∈ (db.job r).dels ↔ _ := hi.toCore.mem_dels hr
  have hleft := newestLeft_install hi hin.toWritten hn
  have hvis' := visited_newest hi' hall' hends' hn hf he
  have htt : tableTombs (db.installResults o r) ⊆ tableTombs db := by
    rintro t ⟨l, g, hg, ht⟩
    rcases files_install hi hr hin hg with ⟨hg, -⟩ | ⟨-, hg⟩
    · rw [hin.tables l g hg] at ht
      exact ⟨l, g, hg, ht⟩
    · rw [output_dels hin hg] at ht
      obtain ⟨d, hd, rfl⟩ := ht
      obtain ⟨x, hx, hdx⟩ := hdels.mp hd
      obtain ⟨lx, -, hxl⟩ := inputs_mem hro.closed hro.grown hx
      exact ⟨lx, x, hxl, d, hdx, rfl⟩
  -- an opened input that hides an entry passes this on to every output
  have hpass : ∀ {p : Nat × FileMetaData} {l : Nat} {g : FileMetaData} {q : Nat},
      p.2 ∈ r.compaction.inputs → g ∈ db.outputFiles o r →
      Hides db p e.key.userKey q s → Hides (db.installResults o r) (l, g) e.key.userKey q s := by
    rintro p l g q hp hg ⟨_, ⟨d, hd, rfl⟩, hc⟩
    rw [Hides, output_dels hin hg]
    exact ⟨_, ⟨d, hdels.mpr ⟨p.2, hp, hd⟩, rfl⟩, hc⟩
  -- and, below the outputs, one of them is opened instead of it
  have hout : ∀ {p : Nat × FileMetaData} {f : FileMetaData}, Visited db.current e.key.userKey s p →
      p.2 ∈ r.compaction.inputs → f ∈ db.current.files l →
      e ∈ (db.tables f.number).entries → r.compaction.level + 2 ≤ l →
      Hides db p e.key.userKey e.key.sequence s →
      ∃ p', Visited (db.installResults o r).current e.key.userKey s p'
        ∧ (p' = (l, f) ∨ Earlier p' (l, f))
        ∧ Hides (db.installResults o r) p' e.key.userKey e.key.sequence s := by
    intro p f hp hpin hf he hl hh
    obtain ⟨-, hp1, hp2⟩ := visited_holds hi.version hp
    have hre := (hkeep.live hi hr hs hl hf he hleft).1 p.2 hpin hp1 hp2 hh
    obtain ⟨_, ⟨d, hd, rfl⟩, hc, hlt⟩ := id hh
    obtain ⟨g, hg, hvg⟩ := visited_of_holds hi hr hin hv' hp hpin
      ((holds_iff_inReach (hi.merged_sorted hr) (hdels.mpr ⟨p.2, hpin, hd⟩) hc.1 hc.2 s).mpr hre)
    exact ⟨_, hvg, Or.inr (Or.inl hl), hpass hpin hg hh⟩
  have hkeeps : ∀ {p : Nat × FileMetaData} {q : Nat}, Visited db.current e.key.userKey s p →
      p.2 ∉ r.compaction.inputs → Hides db p e.key.userKey q s →
      Visited (db.installResults o r).current e.key.userKey s p
        ∧ Hides (db.installResults o r) p e.key.userKey q s := by
    intro p q hp hpn hh
    have hpm := (visited_holds hi.version hp).1
    refine ⟨(visited_install hi hr hin hv' hpm hpn _ _).mpr hp, ?_⟩
    rw [Hides, hin.tables p.1 p.2 hpm]
    exact hh
  rcases newest_install hi hr hin hmax hss hn with hn0 | ⟨top, htop, htm, htk, hlt, hhid⟩
  · rcases files_install hi hr hin hf with ⟨hfo, hfn⟩ | ⟨rfl, hfo⟩
    · -- the newest version stays where it is
      rw [hin.tables l f hfo] at he
      have hvis := visited_newest hi hinv.contains hinv.ends hn0 hfo he
      refine (hinv.answered s hs e hn0 l f hfo he).carry htt (Set.Subset.refl _)
        (fun p hp hpo hh => ?_) fun p hp hpo hh => ?_
      · by_cases hpin : p.2 ∈ r.compaction.inputs
        · have hpe : Earlier p (l, f) := hpo.resolve_left fun hpf => by
            rw [hpf] at hpin
            exact hfn hpin
          exact hout hp hpin hfo he (deeper_of_input hi hr hpin hp hvis hfn hpe) hh
        · obtain ⟨hp', hh'⟩ := hkeeps hp hpin hh
          exact ⟨p, hp', hpo, hh'⟩
      · rcases files_install hi hr hin (visited_holds hv' hp).1 with ⟨hpm, hpn⟩ | ⟨hpl, hpO⟩
        · rw [Hides, hin.tables p.1 p.2 hpm] at hh
          exact Or.inl ⟨p, (visited_install hi hr hin hv' hpm hpn _ _).mp hp, hpo, hh⟩
        · -- an output covers the key: the condition on installs
          obtain ⟨lp, fp⟩ := p
          obtain rfl : lp = r.compaction.level + 1 := hpl
          rw [Hides, output_dels hin hpO] at hh
          refine Or.inr ((hkeep.live hi hr hs (hpo.lt (Or.inl (Nat.succ_pos _))) hfo he hleft).2
            ?_ hh)
          obtain ⟨_, ⟨d, hd, rfl⟩, hc, -⟩ := hh
          exact (holds_iff_inReach (hi.merged_sorted hr) hd hc.1 hc.2 s).mp
            (holds_of_visited hin hv' hpO hp)
    · -- it moved from an input to an output
      obtain ⟨x, hx, hex⟩ := hin.toWritten.source f hfo e he
      obtain ⟨lx, hlx, hxl⟩ := inputs_mem hro.closed hro.grown hx
      have hvx := visited_newest hi hinv.contains hinv.ends hn0 hxl hex
      refine (hinv.answered s hs e hn0 lx x hxl hex).carry htt (Set.Subset.refl _)
        (fun p hp hpo hh => ?_) fun p hp hpo hh => Or.inl ?_
      · by_cases hpin : p.2 ∈ r.compaction.inputs
        · exact ⟨_, hvis', Or.inl rfl, hpass hpin hfo hh⟩
        · obtain ⟨hp', hh'⟩ := hkeeps hp hpin hh
          have hne : p ≠ (lx, x) := fun hpx => hpin (hpx ▸ hx)
          have hple := Earlier.le hpo
          refine ⟨p, hp', Or.inr (Or.inl ?_), hh'⟩
          have := hpo.resolve_left hne
          rcases this with hpo | hpo <;> simp only at hpo hple ⊢ <;> omega
      · have hpl : p.1 < r.compaction.level + 1 := hpo.lt (Or.inr (Nat.succ_pos _))
        rcases files_install hi hr hin (visited_holds hv' hp).1 with ⟨hpm, hpn⟩ | ⟨hpl', -⟩
        · rw [Hides, hin.tables p.1 p.2 hpm] at hh
          have hp0 := (visited_install hi hr hin hv' hpm hpn _ _).mp hp
          exact ⟨p, hp0, earlier_input hi hr hx hvx hp0 hpn (Nat.le_of_lt_succ hpl), hh⟩
        · omega
  · -- a tombstone of the inputs deleted the newest version, and so this one
    obtain ⟨x, hx, htx⟩ := mem_merged.mp htm
    obtain ⟨lx, hlx, hxl⟩ := inputs_mem hro.closed hro.grown hx
    have hdeleted : Hidden (committedTombs h) e.key.userKey e.key.sequence s :=
      (hhid.mono (le_of_lt hlt)).mono_tombs (tombs_rangeDels_sub hi.toCore hr)
    refine ⟨fun _ => ?_, fun _ _ _ _ => hdeleted⟩
    rcases files_install hi hr hin hf with ⟨hfo, hfn⟩ | ⟨rfl, hfo⟩
    · rw [hin.tables l f hfo] at he
      have hl : r.compaction.level + 2 ≤ l := by
        rcases beside_newer hi hr hfo hfn hx with hnew | ⟨hl, -⟩
        · exact absurd (hnew e he top htx htk.symm) (not_lt_of_gt hlt)
        · exact hl
      have htab : Hidden (tableTombs db) top.key.userKey top.key.sequence s := by
        obtain ⟨_, ⟨d, hd, rfl⟩, hc⟩ := hhid
        obtain ⟨y, hy, hdy⟩ := List.mem_flatMap.mp hd
        obtain ⟨ly, -, hyl⟩ := inputs_mem hro.closed hro.grown hy
        exact ⟨_, ⟨ly, y, hyl, d, hdy, rfl⟩, htk ▸ hc⟩
      obtain ⟨p, hp, hpo, hph⟩ := (hinv.answered s hs top htop lx x hxl htx).hides htab
      rw [htk] at hp hph
      have hph : Hides db p e.key.userKey e.key.sequence s := hph.mono (le_of_lt hlt)
      by_cases hpin : p.2 ∈ r.compaction.inputs
      · exact hout hp hpin hfo he hl hph
      · obtain ⟨hp', hh'⟩ := hkeeps hp hpin hph
        have hple := Earlier.le hpo
        exact ⟨p, hp', Or.inr (Or.inl (by simp only at hple ⊢; omega)), hh'⟩
    · refine ⟨_, hvis', Or.inl rfl, ?_⟩
      rw [output_dels hin hfo]
      obtain ⟨_, ⟨d, hd, rfl⟩, hc⟩ := hhid.mono (le_of_lt hlt)
      obtain ⟨y, hy, hdy⟩ := List.mem_flatMap.mp hd
      exact ⟨_, ⟨d, hdels.mpr ⟨y, hy, hdy⟩, rfl⟩, hc⟩

end Install

/-! ## Runs -/

/-- Installs are readable and keep the answers of reads, and range deletions have
    their bounds in order. -/
def AnswerableInstalls (o : Options) (db : DB) (a : Action) : Prop :=
  ReadableInstalls o db a ∧ ProperWrites a
    ∧ (a = .installResults → ∀ r ∈ db.running, KeepsAnswers o db r)

instance (o : Options) (db : DB) (a : Action) : Decidable (AnswerableInstalls o db a) :=
  inferInstanceAs (Decidable (_ ∧ _ ∧ _))

theorem readInv_init : ReadInv DB.init [] where
  proper d hd := by
    obtain ⟨i, a, b, hi, -⟩ := hd
    cases hi
  contains := nofun
  ends := nofun
  reach0 := nofun
  answered := nofun

/-- **A step keeps what point reads rely on.** -/
theorem readInv_step {o : Options} {db db' : DB} {h : List Op} {a : Action} (hi : Inv db h)
    (hinv : ReadInv db h) (hi' : Inv db' (h ++ a.ops)) (hp : AnswerableInstalls o db a)
    (hstep : step o db a = some db') : ReadInv db' (h ++ a.ops) := by
  obtain ⟨⟨huntorn, hbelow⟩, hproper, hkeep⟩ := hp
  have hall' := allContain_step hi hinv.contains huntorn hstep
  have hends' := ends_step hi hinv hstep
  have hT : committedTombs h ⊆ committedTombs (h ++ a.ops) := by
    rintro _ ⟨d, hd, rfl⟩
    exact ⟨d, hd.append _, rfl⟩
  refine ⟨proper_step hinv.proper hproper, hall', hends', reach0_step hi hinv hstep, ?_⟩
  intro s hs e hn l f hf he
  have hs0 := liveFrom_step hi.toCore hstep hs
  have hst : a ≠ .installResults → ∀ x, x.isPoint = true → Stored db x → Stored db' x :=
    fun ha x hxp hx => (stored_step hi.toCore hstep ha hxp).mpr (Or.inl hx)
  by_cases ha : a = .installResults
  · subst ha
    obtain ⟨r, hr, hlen, rfl⟩ := step_installResults hstep
    have hnil : h ++ Action.installResults.ops = h := List.append_nil h
    rw [hnil] at hi' ⊢
    exact answered_install hi hinv hr (installed hi hr hlen) hi' hall' hends' (hbelow rfl r hr)
      (hkeep rfl r hr) hs0 hn hf he
  · cases changes_step hi hstep with
    | same hcur htab =>
      rw [hcur] at hf
      rw [htab] at he
      have hn0 := hn.of_sub (Or.inr (Or.inr ⟨l, f, hf, he⟩)) (hst ha)
      exact (hinv.answered s hs0 e hn0 l f hf he).same hcur htab hT
    | flush hm hw hcur htab =>
      exact answered_flush hi hinv hi' hall' hends' hT (hst ha) hs0 hn hf he hm hw hcur htab
    | move hc hdeep h0 h1 hcur htab =>
      exact answered_move hi hinv hi' hall' hends' hT (hst ha) hs0 hn hf he hc hdeep h0 h1 hcur htab
    | install ha' => exact absurd ha' ha

theorem readInv_reach {o : Options} {db : DB} {h : List Op}
    (hreach : Reach o (AnswerableInstalls o) db h) : Inv db h ∧ ReadInv db h := by
  induction hreach with
  | init => exact ⟨inv_init, readInv_init⟩
  | @step db db' h a _ hp hstep ih =>
    obtain ⟨hi, hinv⟩ := ih
    have hi' := inv_step hi (soundInstall_of_untorn hi hp.1.1 hstep) hstep
    exact ⟨hi', readInv_step hi hinv hi' hp hstep⟩

/-! ## Point reads refine the sequential model -/

/-- What a memtable tells a read. -/
def memSource (m : MemTable) : Source Slice Slice := sourceOf m.table m.rangeDeletions

/-- What an opened file tells a read. -/
def fileSource (db : DB) (p : Nat × FileMetaData) : Source Slice Slice :=
  sourceOf (db.tables p.2.number).entries (db.tables p.2.number).rangeDeletions

/-- The sources of a read, in the order `Get` asks them. -/
def sources (db : DB) (k : Slice) (s : Nat) : List (Source Slice Slice) :=
  memSource db.mem :: (db.imm.toList.map memSource
    ++ (db.current.forEachOverlapping k (lookupKey k s)).map (fileSource db))

section Sources

variable {db : DB} {h : List Op} {k : Slice} {s : Nat}

/-- A source of the read is the memtable, the immutable memtable or an opened file,
    with the sources in front of it. -/
theorem sources_split {A B : List (Source Slice Slice)} {S : Source Slice Slice}
    (hsplit : sources db k s = A ++ S :: B) :
    (A = [] ∧ S = memSource db.mem)
      ∨ (∃ m, db.imm = some m ∧ S = memSource m ∧ A = [memSource db.mem])
      ∨ ∃ ps p qs, db.current.forEachOverlapping k (lookupKey k s) = ps ++ p :: qs
          ∧ S = fileSource db p
          ∧ A = memSource db.mem :: (db.imm.toList.map memSource ++ ps.map (fileSource db)) := by
  have hfile : ∀ {C : List (Source Slice Slice)},
      (db.current.forEachOverlapping k (lookupKey k s)).map (fileSource db) = C ++ S :: B →
      ∃ ps p qs, db.current.forEachOverlapping k (lookupKey k s) = ps ++ p :: qs
        ∧ S = fileSource db p ∧ C = ps.map (fileSource db) := by
    intro C hC
    obtain ⟨ps, rest, hpr, hps, hrest⟩ := List.map_eq_append_iff.mp hC
    obtain ⟨p, qs, rfl, hp, -⟩ := List.map_eq_cons_iff.mp hrest
    exact ⟨ps, p, qs, hpr, hp.symm, hps.symm⟩
  rw [sources] at hsplit
  cases A with
  | nil => exact Or.inl ⟨rfl, (List.cons.inj hsplit).1.symm⟩
  | cons A₀ A =>
    obtain ⟨h0, hrest⟩ := List.cons.inj hsplit
    subst h0
    right
    cases him : db.imm with
    | none =>
      rw [him] at hrest
      obtain ⟨ps, p, qs, h1, h2, h3⟩ := hfile hrest
      exact Or.inr ⟨ps, p, qs, h1, h2, by rw [h3]; rfl⟩
    | some m =>
      rw [him] at hrest
      cases A with
      | nil => exact Or.inl ⟨m, rfl, (List.cons.inj hrest).1.symm, rfl⟩
      | cons A₁ A =>
        obtain ⟨rfl, hfiles⟩ := List.cons.inj (show memSource m :: _ = A₁ :: _ from hrest)
        obtain ⟨ps, p, qs, h1, h2, h3⟩ := hfile hfiles
        exact Or.inr ⟨ps, p, qs, h1, h2, by rw [h3]; rfl⟩

/-- The memtable comes first. -/
theorem mem_sources {S : Source Slice Slice} :
    S ∈ sources db k s ↔ S = memSource db.mem ∨ (∃ m, db.imm = some m ∧ S = memSource m)
      ∨ ∃ p, Visited db.current k s p ∧ S = fileSource db p := by
  rw [sources, List.mem_cons, List.mem_append, List.mem_map, List.mem_map]
  refine or_congr_right (or_congr ?_ ?_)
  · exact exists_congr fun m => and_congr Option.mem_toList eq_comm
  · exact exists_congr fun p => and_congr_right fun _ => eq_comm

/-- Every source answers from its own contents. -/
theorem get_answers (hi : Inv db h) (k : Slice) (s : Nat) :
    List.Forall₂ (fun S r => Answers S k s r) (sources db k s)
      (db.mem.get k s :: ((db.imm.toList.map fun m => m.get k s)
        ++ (db.current.forEachOverlapping k (lookupKey k s)).map fun p =>
            (db.tables p.2.number).internalGet k s)) := by
  refine .cons (memTableGet_answers hi.mem.sorted k s) (List.rel_append ?_ ?_)
  all_goals rw [List.forall₂_map_left_iff, List.forall₂_map_right_iff, List.forall₂_same]
  · intro m hm
    exact memTableGet_answers (hi.imm m (Option.mem_toList.mp hm)).sorted k s
  · intro p hp
    have hpo := hi.version.file p.1 p.2 (visited_holds hi.version hp).1
    exact internalGet_answers hpo.sorted hpo.points k s

/-- Versions get older from source to source. -/
theorem sources_recency (hi : Inv db h) (k : Slice) (s : Nat) : Recency (sources db k s) k s := by
  obtain ⟨n₁, n₂, -, hwin⟩ := hi.windows
  have hle := hwin.le
  have hfile : ∀ p, Visited db.current k s p → ∀ x ∈ (fileSource db p).vers, x.seq ≤ n₁ := by
    rintro p hp x ⟨e, he, -, rfl⟩
    exact hwin.tables p.1 p.2 (visited_holds hi.version hp).1 e he
  have himm : ∀ m, db.imm = some m → ∀ x ∈ (memSource m).vers, n₁ < x.seq ∧ x.seq ≤ n₂ := by
    rintro m hm x ⟨e, he, -, rfl⟩
    exact hwin.imm m hm e he
  refine List.pairwise_cons.mpr ⟨?_, List.pairwise_append.mpr ⟨?_, ?_, ?_⟩⟩
  · rintro S' hS' _ ⟨e, he, -, rfl⟩ x hx - - - -
    have h1 := hwin.mem e he
    rw [Entry.ver_seq]
    rcases List.mem_append.mp hS' with hS' | hS'
    · obtain ⟨m, hm, rfl⟩ := List.mem_map.mp hS'
      have := (himm m (Option.mem_toList.mp hm) x hx).2
      omega
    · obtain ⟨p, hp, rfl⟩ := List.mem_map.mp hS'
      have := hfile p hp x hx
      omega
  · cases db.imm with
    | none => exact List.Pairwise.nil
    | some m => exact List.pairwise_singleton _ _
  · rw [List.pairwise_map]
    refine (forEachOverlapping_earlier hi.listed k (lookupKey k s)).imp_of_mem ?_
    rintro p q hp hq hpq _ ⟨e, he, -, rfl⟩ _ ⟨e', he', -, rfl⟩ hk hk' - -
    have hpm := (visited_holds hi.version hp).1
    have hqm := (visited_holds hi.version hq).1
    rcases hpq with hpq | ⟨hp0, hq0, hnum⟩
    · exact hi.version.recent _ _ hpq p.2 hpm q.2 hqm e he e' he' (hk.trans hk'.symm)
    · rw [hp0] at hpm
      rw [hq0] at hqm
      exact hi.version.recent0 p.2 hpm q.2 hqm hnum e he e' he' (hk.trans hk'.symm)
  · rintro S hS S' hS' x hx x' hx' - - - -
    obtain ⟨m, hm, rfl⟩ := List.mem_map.mp hS
    obtain ⟨p, hp, rfl⟩ := List.mem_map.mp hS'
    have h1 := (himm m (Option.mem_toList.mp hm) x hx).1
    have h2 := hfile p hp x' hx'
    omega

/-- **The sources guard the newest version.** -/
theorem sources_guarded (hi : Inv db h) (hinv : ReadInv db h) (hs : LiveFrom db s) :
    Guarded (sources db k s) (storedVers db) (committedTombs h) k s := by
  obtain ⟨n₁, n₂, -, hwin⟩ := hi.windows
  have hle := hwin.le
  -- memtable tombstones are newer than what lies in the sources behind
  have hmemdel : ∀ d ∈ db.mem.rangeDeletions, n₂ < d.seq ∧ CommittedDel h d := by
    intro d hd
    obtain ⟨x, hx, -, rfl⟩ := (hi.mem.dels d).mp hd
    exact ⟨hwin.mem x hx, hi.mem.committedDel hd⟩
  have himmdel : ∀ m, db.imm = some m → ∀ d ∈ m.rangeDeletions,
      n₁ < d.seq ∧ d.seq ≤ n₂ ∧ CommittedDel h d := by
    intro m hm d hd
    obtain ⟨x, hx, -, rfl⟩ := ((hi.imm m hm).dels d).mp hd
    obtain ⟨h1, h2⟩ := hwin.imm m hm x hx
    exact ⟨h1, h2, (hi.imm m hm).committedDel hd⟩
  have hmem : ∀ {q : Nat}, q ≤ n₂ → Hidden (memSource db.mem).tombs k 0 s →
      Hidden (committedTombs h) k q s := by
    rintro q hq ⟨_, ⟨d, hd, rfl⟩, hc, -, hds⟩
    obtain ⟨h1, h2⟩ := hmemdel d hd
    exact ⟨_, ⟨d, h2, rfl⟩, hc, lt_of_le_of_lt hq h1, hds⟩
  intro A S B hsplit v hv hnew
  obtain ⟨e, rfl, hek, hn⟩ := newestStored_of_newest hnew
  subst hek
  obtain ⟨hst, -⟩ := id hn
  rcases sources_split hsplit with ⟨rfl, rfl⟩ | ⟨m, hm, rfl, rfl⟩ | ⟨ps, p, qs, hps, rfl, rfl⟩
  · obtain ⟨e', he', -, hv'⟩ := hv
    have hseq : e'.key.sequence = e.key.sequence := congrArg Ver.seq hv'
    have hen : n₂ < e.key.sequence := hseq ▸ hwin.mem e' he'
    refine ⟨nofun, ?_⟩
    rintro ⟨_, ⟨d, hd, rfl⟩, hc, hlt, hds⟩
    rcases (hi.dels d).mpr hd with hd | ⟨m, hm, hd⟩ | ⟨l, g, hg, hd⟩
    · exact ⟨_, List.mem_singleton.mpr rfl, _, ⟨d, hd, rfl⟩, hc, hlt, hds⟩
    · have := (himmdel m hm d hd).2.1
      exact absurd (lt_trans hen hlt) (not_lt_of_ge this)
    · have := hwin.dels l g hg d hd
      exact absurd (lt_trans hen hlt) (not_lt_of_ge (le_trans this hle))
  · obtain ⟨e', he', -, hv'⟩ := hv
    have hseq : e'.key.sequence = e.key.sequence := congrArg Ver.seq hv'
    obtain ⟨h1, h2⟩ := hseq ▸ hwin.imm m hm e' he'
    refine ⟨fun S' hS' hh => ?_, ?_⟩
    · rw [List.mem_singleton.mp hS'] at hh
      exact hmem h2 hh
    · rintro ⟨_, ⟨d, hd, rfl⟩, hc, hlt, hds⟩
      rcases (hi.dels d).mpr hd with hd | ⟨m', hm', hd⟩ | ⟨l, g, hg, hd⟩
      · exact ⟨_, List.mem_cons_self, _, ⟨d, hd, rfl⟩, hc, hlt, hds⟩
      · obtain rfl : m = m' := Option.some.inj (hm.symm.trans hm')
        exact ⟨memSource m, by simp, _, ⟨d, hd, rfl⟩, hc, hlt, hds⟩
      · have := hwin.dels l g hg d hd
        exact absurd (lt_trans h1 hlt) (not_lt_of_ge this)
  · have hpv : Visited db.current e.key.userKey s p := by
      rw [Visited, hps]
      simp
    have hpm := (visited_holds hi.version hpv).1
    have hep : e ∈ (db.tables p.2.number).entries := by
      obtain ⟨e', he', -, hv'⟩ := hv
      have heq : e' = e := ((hi.version.file _ _ hpm).committed e' he').eq_of_sequence
        (Stored.committed hi.toCore hst) (congrArg Ver.seq hv')
      exact heq ▸ he'
    have hen := hwin.tables p.1 p.2 hpm e hep
    have ha := hinv.answered s hs e hn p.1 p.2 hpm hep
    have hpair := forEachOverlapping_earlier hi.listed e.key.userKey (lookupKey e.key.userKey s)
    rw [hps] at hpair
    obtain ⟨-, hpq, hbefore⟩ := List.pairwise_append.mp hpair
    refine ⟨fun S' hS' hh => ?_, ?_⟩
    · rcases List.mem_cons.mp hS' with rfl | hS'
      · exact hmem (le_trans hen hle) hh
      · rcases List.mem_append.mp hS' with hS' | hS'
        · obtain ⟨m, hm, rfl⟩ := List.mem_map.mp hS'
          obtain ⟨_, ⟨d, hd, rfl⟩, hc, -, hds⟩ := hh
          obtain ⟨h1, -, h2⟩ := himmdel m (Option.mem_toList.mp hm) d hd
          exact ⟨_, ⟨d, h2, rfl⟩, hc, lt_of_le_of_lt hen h1, hds⟩
        · obtain ⟨q, hq, rfl⟩ := List.mem_map.mp hS'
          refine ha.clear q ?_ (hbefore q hq p (by simp)) hh
          rw [Visited, hps]
          exact List.mem_append.mpr (Or.inl hq)
    · rintro ⟨_, ⟨d, hd, rfl⟩, hc⟩
      rcases (hi.dels d).mpr hd with hd | ⟨m, hm, hd⟩ | ⟨l, g, hg, hd⟩
      · exact ⟨memSource db.mem, by simp, _, ⟨d, hd, rfl⟩, hc⟩
      · refine ⟨memSource m, ?_, _, ⟨d, hd, rfl⟩, hc⟩
        have hm' : db.imm = some m := hm
        simp [hm']
      · obtain ⟨q, hq, hqo, hh⟩ := ha.hides ⟨_, ⟨l, g, hg, d, hd, rfl⟩, hc⟩
        refine ⟨fileSource db q, ?_, hh⟩
        -- what is opened before `p` stands in front of it
        have hqm : q ∈ ps ∨ q = p := by
          rw [Visited, hps] at hq
          rcases List.mem_append.mp hq with hq | hq
          · exact Or.inl hq
          · rcases List.mem_cons.mp hq with rfl | hq
            · exact Or.inr rfl
            · rcases hqo with rfl | hqo
              · exact Or.inr rfl
              · exact absurd hqo ((List.pairwise_cons.mp hpq).1 q hq).asymm
        rcases hqm with hqm | rfl
        · refine List.mem_append.mpr (Or.inl (List.mem_cons_of_mem _ (List.mem_append.mpr
            (Or.inr (List.mem_map.mpr ⟨q, hqm, rfl⟩)))))
        · exact List.mem_append.mpr (Or.inr (List.mem_singleton.mpr rfl))

end Sources

/-- **A lookup reads what is stored.** -/
theorem get_iff_visible {db : DB} {h : List Op} (hi : Inv db h) (hinv : ReadInv db h) {s : Nat}
    (hs : LiveFrom db s) (k v : Slice) :
    db.get k s = some v ↔ Visible (storedVers db) (committedTombs h) k s v := by
  rw [DB.get]
  refine firstAnswer_iff_visible (get_answers hi k s) (storedVers_inj hi.toCore) ?_ ?_ ?_
    (sources_recency hi k s) (sources_guarded hi hinv hs) v
  · intro x hx
    obtain ⟨e, rfl, rfl, hn⟩ := newestStored_of_newest hx
    rcases hn.stored with he | ⟨m, hm, he⟩ | ⟨l, f, hf, he⟩
    · exact ⟨_, mem_sources.mpr (Or.inl rfl), e, he, hn.point, rfl⟩
    · exact ⟨_, mem_sources.mpr (Or.inr (Or.inl ⟨m, hm, rfl⟩)), e, he, hn.point, rfl⟩
    · exact ⟨_, mem_sources.mpr (Or.inr (Or.inr ⟨_, visited_newest hi hinv.contains hinv.ends hn
        hf he, rfl⟩)), e, he, hn.point, rfl⟩
  · intro S hS x hx _ _
    rcases mem_sources.mp hS with rfl | ⟨m, hm, rfl⟩ | ⟨p, hp, rfl⟩ <;>
      obtain ⟨e, he, hep, rfl⟩ := hx
    · exact ⟨e, Or.inl he, hep, rfl⟩
    · exact ⟨e, Or.inr (Or.inl ⟨m, hm, he⟩), hep, rfl⟩
    · exact ⟨e, Or.inr (Or.inr ⟨p.1, p.2, (visited_holds hi.version hp).1, he⟩), hep, rfl⟩
  · intro S hS t ht
    rcases mem_sources.mp hS with rfl | ⟨m, hm, rfl⟩ | ⟨p, hp, rfl⟩ <;>
      obtain ⟨d, hd, rfl⟩ := ht
    · exact ⟨d, (hi.dels d).mp (Or.inl hd), rfl⟩
    · exact ⟨d, (hi.dels d).mp (Or.inr (Or.inl ⟨m, hm, hd⟩)), rfl⟩
    · have hpm := (visited_holds hi.version hp).1
      exact ⟨d, (hi.dels d).mp (Or.inr (Or.inr ⟨p.1, p.2, hpm, hd⟩)), rfl⟩

/-- **Point reads refine the sequential model**, in every run of answerable
    installs: at a live sequence number, `Get` returns the visible value of the key,
    and `NotFound` if there is none. -/
theorem get_refines {o : Options} {db : DB} {h : List Op}
    (hreach : Reach o (AnswerableInstalls o) db h) {s : Nat} (hs : Live db s) (k v : Slice) :
    db.get k s = some v ↔ Visible (committedVers h) (committedTombs h) k s v := by
  obtain ⟨hi, hinv⟩ := readInv_reach hreach
  obtain ⟨-, hvis⟩ := visInv_reach (fun hp => ⟨hp.1.1.1, hp.1.2⟩) hreach
  have hs' : LiveFrom db s := hs.imp id fun hs => le_of_eq hs.symm
  rw [← hvis s hs k v]
  exact get_iff_visible hi hinv hs' k v

/-- A deleted range over a key two levels deeper, compacted with a newer key of the
    range in front. -/
def guardRun : List Action :=
  flushOf [.put [98] [1]] ++ [.manualCompaction 2 none none false, .openOutput, .installResults]
    ++ flushOf [.put [97] [2]] ++ flushOf [.deleteRange [97] [122], .put [97] [3]]
    ++ [.manualCompaction 1 none none false, .openOutput, .installResults]

theorem get_refines_guardRun :
    ∃ db, Reach sampleOptions (AnswerableInstalls sampleOptions) db (opsOf guardRun)
      ∧ db.get [97] 4 = some [3] ∧ db.get [98] 4 = none
      ∧ ∀ k v, db.get k 4 = some v ↔
          Visible (committedVers (opsOf guardRun)) (committedTombs (opsOf guardRun)) k 4 v := by
  have hrun : (run sampleOptions (AnswerableInstalls sampleOptions) DB.init guardRun).any
      (fun db => Live db 4 ∧ db.get [97] 4 = some [3] ∧ db.get [98] 4 = none) = true := by
    decide +kernel
  obtain ⟨db, hreach, hs, h1, h2⟩ := reach_of_run hrun
  exact ⟨db, hreach, h1, h2, get_refines hreach hs⟩

/-- The same with the newer key behind the deeper one. -/
def resurrectRun : List Action :=
  flushOf [.put [98] [1]] ++ [.manualCompaction 2 none none false, .openOutput, .installResults]
    ++ flushOf [.put [109] [2]] ++ flushOf [.deleteRange [97] [122], .put [109] [3]]
    ++ [.manualCompaction 1 none none false, .openOutput, .installResults]

/-- **A deleted key comes back**: after the compaction the tombstone's file begins at
    the newer key, and the lookup of the deeper one passes it by. -/
theorem resurrectRun_returns_deleted :
    ∃ db h, Reach sampleOptions (fun _ _ => True) db h ∧ Live db 4
      ∧ db.get [98] 4 = some [1]
      ∧ ¬ Visible (committedVers h) (committedTombs h) [98] 4 [1] := by
  have hrun : (run sampleOptions (fun _ _ => True) DB.init resurrectRun).any
      (fun db => Live db 4 ∧ db.get [98] 4 = some [1]) = true := by
    decide +kernel
  obtain ⟨db, hreach, hs, hget⟩ := reach_of_run hrun
  refine ⟨db, _, hreach, hs, hget, fun hv => ?_⟩
  have hstore := (visible_iff_storeAt (by decide) _ _).mp hv
  revert hstore
  decide

end LdbGet
