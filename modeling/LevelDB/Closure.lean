import Mathlib.Data.Set.Finite.Lemmas
import LevelDB.Compaction

/-! # Compaction inputs are closed under shared user keys

    Moving some files of a level down must not let an older entry of a user key
    overtake a newer one that stays behind.  This file proves what the pickers
    guarantee: a file left behind on the input level shares a user key with an
    input only if it lies entirely before that input, and a file left behind on
    the output level lies beside all inputs.  For automatic compactions the
    inputs also leave no user key uncovered between them (`Covers`). -/

namespace LdbClosure

open LdbFormat LdbVersion LdbCompaction

/-- Two files share a user key of their recorded ranges. -/
def Meets (f g : FileMetaData) : Prop :=
  f.smallest.userKey ≤ g.largest.userKey ∧ g.smallest.userKey ≤ f.largest.userKey

variable {f : FileMetaData} {T files S inputs0 : List FileMetaData} {level : Nat} {v : Version}
  {r : InternalKey × InternalKey} {c : Compaction} {o : Options}

theorem Meets.symm {g : FileMetaData} (h : Meets f g) : Meets g f := ⟨h.2, h.1⟩

/-- A set of files of a level that a compaction may take: in order and without
    holes above level 0. -/
structure InputRun (level : Nat) (files S : List FileMetaData) : Prop where
  sub : ∀ f ∈ S, f ∈ files
  nodup : S.Nodup
  order : 0 < level → DisjointFiles S
  convex : 0 < level → ∀ a ∈ S, ∀ m ∈ S, ∀ g ∈ files,
    a.largest < g.smallest → g.largest < m.smallest → g ∈ S

/-- No file left behind shares a user key with an input, unless it lies entirely
    before that input. -/
def ClosedRun (level : Nat) (files S : List FileMetaData) : Prop :=
  ∀ a ∈ S, ∀ g ∈ files, g ∉ S → Meets a g → 0 < level ∧ g.largest < a.smallest

/-! ## Boundary files -/

/-- How many files begin after a key. -/
def filesAfter (files : List FileMetaData) (k : InternalKey) : Nat :=
  files.countP fun f => decide (k < f.smallest)

/-- The first of the boundary files for a key. -/
structure FirstBoundary (files : List FileMetaData) (k : InternalKey) (b : FileMetaData) :
    Prop where
  mem : b ∈ files
  boundary : IsBoundary k b
  least : ∀ g ∈ files, IsBoundary k g → b.smallest ≤ g.smallest

/-- The chain of boundary files from a key on, up to where there is none. -/
inductive BoundaryChain (files : List FileMetaData) : InternalKey → List FileMetaData → Prop where
  | done {k : InternalKey} : (∀ g ∈ files, ¬ IsBoundary k g) → BoundaryChain files k []
  | next {k : InternalKey} {b : FileMetaData} {chain : List FileMetaData} :
      FirstBoundary files k b → BoundaryChain files b.largest chain →
      BoundaryChain files k (b :: chain)

/-- Past a boundary file fewer files begin. -/
theorem FirstBoundary.filesAfter_lt {k : InternalKey} {b : FileMetaData}
    (h : FirstBoundary files k b) (hb : b.Ordered) :
    filesAfter files b.largest < filesAfter files k := by
  refine OrderedLists.countP_lt_of_imp ?_ ⟨b, h.mem, decide_eq_true h.boundary.1, ?_⟩
  · intro g _ hg
    rw [decide_eq_true_eq] at hg ⊢
    exact lt_trans (lt_of_lt_of_le h.boundary.1 hb) hg
  · rw [decide_eq_false_iff_not]
    exact not_lt_of_ge hb

/-- **The loop of `AddBoundaryInputs` appends the chain**: every round takes the next
    file of it, and the rounds end because the largest key moves past a file each time. -/
theorem addBoundaryLoop_chain (hord : ∀ g ∈ files, g.Ordered) :
    ∀ k, ∃ chain, BoundaryChain files k chain
      ∧ ∀ fuel T, filesAfter files k < fuel → addBoundaryLoop files fuel T k = T ++ chain := by
  intro k
  induction hn : filesAfter files k using Nat.strong_induction_on generalizing k with
  | _ n ih =>
    subst hn
    have hspec := findSmallestBoundaryFile_spec files k
    cases hb : findSmallestBoundaryFile files k with
    | none =>
      rw [hb] at hspec
      refine ⟨[], .done hspec, fun fuel T hfuel => ?_⟩
      obtain ⟨fuel, rfl⟩ : ∃ m, fuel = m + 1 := ⟨fuel - 1, by omega⟩
      rw [addBoundaryLoop, hb, List.append_nil]
    | some b =>
      rw [hb] at hspec
      have hfirst : FirstBoundary files k b := ⟨hspec.1, hspec.2.1, hspec.2.2⟩
      have hlt := hfirst.filesAfter_lt (hord b hfirst.mem)
      obtain ⟨chain, hchain, hloop⟩ := ih _ hlt b.largest rfl
      refine ⟨b :: chain, .next hfirst hchain, fun fuel T hfuel => ?_⟩
      obtain ⟨fuel, rfl⟩ : ∃ m, fuel = m + 1 := ⟨fuel - 1, by omega⟩
      rw [addBoundaryLoop, hb]
      show addBoundaryLoop files fuel (T ++ [b]) b.largest = _
      rw [hloop fuel (T ++ [b]) (by omega), List.append_assoc]
      rfl

/-- Adding the first boundary file keeps a run a run. -/
theorem InputRun.snoc_boundary {k : InternalKey} {b : FileMetaData} (hl : 0 < level)
    (hs : SortedLevel files) (hT : InputRun level files T) (hmax : ∀ f ∈ T, f.largest ≤ k)
    (hatt : ∃ f ∈ T, f.largest = k) (hfirst : FirstBoundary files k b) :
    InputRun level files (T ++ [b]) where
  sub f hf := by
    rcases List.mem_append.mp hf with hf | hf
    · exact hT.sub f hf
    · rw [List.mem_singleton.mp hf]
      exact hfirst.mem
  nodup := by
    refine List.nodup_append.mpr ⟨hT.nodup, List.nodup_singleton b, ?_⟩
    intro f hf g hg heq
    rw [List.mem_singleton.mp hg] at heq
    subst heq
    exact absurd (lt_of_le_of_lt (hmax f hf) hfirst.boundary.1) (not_lt_of_ge (hs.ordered f hfirst.mem))
  order _ := by
    refine List.pairwise_append.mpr ⟨hT.order hl, List.pairwise_singleton _ _, ?_⟩
    intro f hf g hg
    rw [List.mem_singleton.mp hg]
    exact lt_of_le_of_lt (hmax f hf) hfirst.boundary.1
  convex _ := by
    intro a ha m hm g hg hag hgm
    have hgo := hs.ordered g hg
    rcases List.mem_append.mp hm with hm | hm
    · -- the right end is an old input, so the left end is one too
      rcases List.mem_append.mp ha with ha | ha
      · exact List.mem_append.mpr (Or.inl (hT.convex hl a ha m hm g hg hag hgm))
      · exfalso
        rw [List.mem_singleton.mp ha] at hag
        have h1 : b.largest < m.smallest := lt_of_lt_of_le hag (le_trans hgo (le_of_lt hgm))
        have h2 : m.largest < b.smallest := lt_of_le_of_lt (hmax m hm) hfirst.boundary.1
        have h3 := hs.ordered m (hT.sub m hm)
        have h4 := hs.ordered b hfirst.mem
        exact lt_irrefl _ (lt_of_le_of_lt h4 (lt_of_lt_of_le h1 (le_trans h3 (le_of_lt h2))))
    · rw [List.mem_singleton.mp hm] at hgm
      rcases List.mem_append.mp ha with ha | ha
      · obtain ⟨m0, hm0, hm0k⟩ := hatt
        rcases hs.trichotomy hg (hT.sub m0 hm0) with rfl | h | h
        · exact List.mem_append.mpr (Or.inl hm0)
        · exact List.mem_append.mpr (Or.inl (hT.convex hl a ha m0 hm0 g hg hag h))
        · -- a file between the last input and the boundary file would be the boundary file
          exfalso
          rw [hm0k] at h
          have h1 : k.userKey ≤ g.smallest.userKey := InternalKey.userKey_le (le_of_lt h)
          have h2 : g.smallest.userKey ≤ b.smallest.userKey :=
            InternalKey.userKey_le (le_trans hgo (le_of_lt hgm))
          have hgb : IsBoundary k g := ⟨h, le_antisymm (hfirst.boundary.2 ▸ h2) h1⟩
          exact absurd (lt_of_le_of_lt hgo hgm) (not_lt_of_ge (hfirst.least g hg hgb))
      · exfalso
        rw [List.mem_singleton.mp ha] at hag
        have h4 := hs.ordered b hfirst.mem
        exact lt_irrefl _ (lt_of_le_of_lt h4 (lt_of_lt_of_le hag (le_trans hgo (le_of_lt hgm))))

/-- When no boundary file is left, the run is closed. -/
theorem InputRun.closed_of_no_boundary {k : InternalKey} (hl : 0 < level) (hs : SortedLevel files)
    (hT : InputRun level files T) (hmax : ∀ f ∈ T, f.largest ≤ k) (hatt : ∃ f ∈ T, f.largest = k)
    (hno : ∀ f ∈ files, ¬ IsBoundary k f) : ClosedRun level files T := by
  intro a ha g hg hgT hmeets
  refine ⟨hl, ?_⟩
  rcases hs.trichotomy (hT.sub a ha) hg with rfl | h | h
  · exact absurd ha hgT
  · exfalso
    obtain ⟨m0, hm0, hm0k⟩ := hatt
    rcases hs.trichotomy hg (hT.sub m0 hm0) with rfl | h' | h'
    · exact hgT hm0
    · exact hgT (hT.convex hl a ha m0 hm0 g hg h h')
    · rw [hm0k] at h'
      have h1 : k.userKey ≤ g.smallest.userKey := InternalKey.userKey_le (le_of_lt h')
      have h2 : a.largest.userKey ≤ k.userKey := InternalKey.userKey_le (hmax a ha)
      exact hno g hg ⟨h', le_antisymm (le_trans hmeets.2 h2) h1⟩
  · exact h

/-- A file of the result is an old input or begins at the user key where another
    file of the result ends. -/
def Chained (S T : List FileMetaData) : Prop :=
  ∀ f ∈ T, f ∈ S ∨ ∃ m ∈ T, m.largest < f.smallest ∧ f.smallest.userKey = m.largest.userKey

/-- The chain extends a run to a closed one. -/
theorem BoundaryChain.closes (hl : 0 < level) (hs : SortedLevel files) (S : List FileMetaData)
    {k : InternalKey} {chain : List FileMetaData} (h : BoundaryChain files k chain) :
    ∀ T, InputRun level files T → (∀ f ∈ T, f.largest ≤ k) → (∃ f ∈ T, f.largest = k) →
      (∀ f ∈ S, f ∈ T) → Chained S T →
      InputRun level files (T ++ chain) ∧ ClosedRun level files (T ++ chain)
      ∧ (∀ f ∈ S, f ∈ T ++ chain) ∧ Chained S (T ++ chain) := by
  induction h with
  | done hno =>
    intro T hT hmax hatt hST hch
    rw [List.append_nil]
    exact ⟨hT, hT.closed_of_no_boundary hl hs hmax hatt hno, hST, hch⟩
  | @next k b chain hfirst _ ih =>
    intro T hT hmax hatt hST hch
    have hkb : k < b.largest :=
      lt_of_lt_of_le hfirst.boundary.1 (hs.ordered b hfirst.mem)
    rw [List.append_cons]
    refine ih (T ++ [b]) (hT.snoc_boundary hl hs hmax hatt hfirst) ?_ ⟨b, by simp, rfl⟩
      (fun f hf => List.mem_append.mpr (Or.inl (hST f hf))) ?_
    · intro f hf
      rcases List.mem_append.mp hf with hf | hf
      · exact le_trans (hmax f hf) (le_of_lt hkb)
      · rw [List.mem_singleton.mp hf]
    · intro f hf
      rcases List.mem_append.mp hf with hf | hf
      · rcases hch f hf with h | ⟨m, hm, h⟩
        · exact Or.inl h
        · exact Or.inr ⟨m, List.mem_append.mpr (Or.inl hm), h⟩
      · obtain ⟨m0, hm0, hm0k⟩ := hatt
        rw [List.mem_singleton.mp hf]
        exact Or.inr ⟨m0, List.mem_append.mpr (Or.inl hm0), hm0k ▸ hfirst.boundary⟩

/-- **`AddBoundaryInputs` above level 0** closes a run. -/
theorem addBoundaryInputs_pos (hl : 0 < level) (hs : SortedLevel files)
    (hS : InputRun level files S) :
    InputRun level files (addBoundaryInputs files S)
      ∧ ClosedRun level files (addBoundaryInputs files S)
      ∧ (∀ f ∈ S, f ∈ addBoundaryInputs files S) ∧ Chained S (addBoundaryInputs files S) := by
  rw [addBoundaryInputs]
  cases hk : findLargestKey S with
  | none =>
    refine ⟨hS, ?_, fun f hf => hf, fun f hf => Or.inl hf⟩
    cases S with
    | nil => intro a ha; cases ha
    | cons f rest => cases hk
  | some k =>
    obtain ⟨hmax, hatt⟩ := findLargestKey_spec hk
    obtain ⟨chain, hchain, hloop⟩ := addBoundaryLoop_chain hs.ordered k
    simp only [hloop _ S (Nat.lt_succ_of_le List.countP_le_length)]
    exact hchain.closes hl hs S S hS hmax hatt (fun f hf => hf) (fun f hf => Or.inl hf)

/-! ## The whole chain -/

/-- Two files do not overlap in internal-key order, whichever comes first. -/
def Apart (f g : FileMetaData) : Prop := f.largest < g.smallest ∨ g.largest < f.smallest

instance (f g : FileMetaData) : Decidable (Apart f g) := instDecidableOr

/-- Files of a list without overlaps that begin at one key are one file. -/
theorem eq_of_smallest_eq (hord : ∀ g ∈ files, g.Ordered) (hap : files.Pairwise Apart)
    {a b : FileMetaData} (ha : a ∈ files) (hb : b ∈ files) (h : a.smallest = b.smallest) :
    a = b := by
  by_contra hne
  have : Std.Symm Apart := ⟨fun _ _ hxy => hxy.symm⟩
  have hsm := hord a ha
  have hsb := hord b hb
  rw [FileMetaData.Ordered] at hsm hsb
  rcases hap.forall ha hb hne with hlt | hlt
  · exact absurd (lt_of_le_of_lt hsm (h ▸ hlt)) (lt_irrefl _)
  · exact absurd (lt_of_le_of_lt hsb (h ▸ hlt)) (lt_irrefl _)

/-- There is one chain from a key on. -/
theorem BoundaryChain.unique (hord : ∀ g ∈ files, g.Ordered) (hap : files.Pairwise Apart)
    {k : InternalKey} {chain : List FileMetaData} (h : BoundaryChain files k chain) :
    ∀ chain', BoundaryChain files k chain' → chain' = chain := by
  induction h with
  | done hno =>
    intro chain' h'
    cases h' with
    | done _ => rfl
    | next hfirst _ => exact absurd hfirst.boundary (hno _ hfirst.mem)
  | next hfirst _ ih =>
    intro chain' h'
    cases h' with
    | done hno => exact absurd hfirst.boundary (hno _ hfirst.mem)
    | next hfirst' hrest' =>
      have heq := eq_of_smallest_eq hord hap hfirst'.mem hfirst.mem
        (le_antisymm (hfirst'.least _ hfirst.mem hfirst.boundary)
          (hfirst.least _ hfirst'.mem hfirst'.boundary))
      subst heq
      rw [ih _ hrest']

/-- The files of a chain increase, and all lie after its key. -/
theorem BoundaryChain.increasing (hord : ∀ g ∈ files, g.Ordered) {k : InternalKey}
    {chain : List FileMetaData} (h : BoundaryChain files k chain) :
    (∀ b ∈ chain, k < b.smallest ∧ b ∈ files) ∧ DisjointFiles chain := by
  induction h with
  | done _ => exact ⟨nofun, List.Pairwise.nil⟩
  | @next k b chain hfirst _ ih =>
    obtain ⟨hafter, hdis⟩ := ih
    refine ⟨?_, List.pairwise_cons.mpr ⟨fun c hc => (hafter c hc).1, hdis⟩⟩
    intro c hc
    rcases List.mem_cons.mp hc with rfl | hc
    · exact ⟨hfirst.boundary.1, hfirst.mem⟩
    · have hkb : k < b.largest := lt_of_lt_of_le hfirst.boundary.1 (hord b hfirst.mem)
      exact ⟨lt_trans hkb (hafter c hc).1, (hafter c hc).2⟩

/-- **`AddBoundaryInputs` ends and appends the maximal chain** of boundary files of the
    greatest key of its inputs, in increasing order and each file once; the rounds its
    loop is allowed do not matter from one for each file of the level on. -/
theorem addBoundaryInputs_chain (hord : ∀ g ∈ files, g.Ordered) (hap : files.Pairwise Apart)
    (hne : S ≠ []) :
    ∃ k chain, (∀ f ∈ S, f.largest ≤ k) ∧ (∃ f ∈ S, f.largest = k)
      ∧ BoundaryChain files k chain ∧ (∀ chain', BoundaryChain files k chain' → chain' = chain)
      ∧ (∀ fuel, files.length < fuel → addBoundaryLoop files fuel S k = S ++ chain)
      ∧ addBoundaryInputs files S = S ++ chain
      ∧ DisjointFiles chain ∧ chain.Nodup := by
  obtain ⟨k, hk⟩ : ∃ k, findLargestKey S = some k := by
    cases S with
    | nil => exact absurd rfl hne
    | cons f rest => exact ⟨_, rfl⟩
  obtain ⟨hmax, hatt⟩ := findLargestKey_spec hk
  obtain ⟨chain, hchain, hloop⟩ := addBoundaryLoop_chain hord k
  have hlen : filesAfter files k ≤ files.length := List.countP_le_length
  obtain ⟨hsub, hdis⟩ := hchain.increasing hord
  refine ⟨k, chain, hmax, hatt, hchain, hchain.unique hord hap,
    fun fuel hfuel => hloop fuel S (by omega), ?_, hdis, ?_⟩
  · rw [addBoundaryInputs, hk]
    exact hloop _ S (by omega)
  · refine hdis.imp_of_mem fun {a b} ha hb hlt heq => ?_
    subst heq
    exact absurd (hord a (hsub a ha).2) (not_le_of_gt hlt)

/-- The file a chain is to start from. -/
def chainStart : List FileMetaData := [⟨1, 10, ⟨[97], 9, .value⟩, ⟨[98], 9, .value⟩⟩]

/-- A level, not in order, in which the files 2, 3 and 4 go on where another one ends. -/
def chainLevel : List FileMetaData :=
  [⟨4, 10, ⟨[99], 3, .value⟩, ⟨[100], 9, .value⟩⟩, ⟨3, 10, ⟨[99], 5, .value⟩, ⟨[99], 4, .value⟩⟩,
    ⟨2, 10, ⟨[98], 8, .value⟩, ⟨[99], 6, .value⟩⟩] ++ chainStart

theorem addBoundaryInputs_chain_chainLevel :
    ∃ k chain, BoundaryChain chainLevel k chain
      ∧ addBoundaryInputs chainLevel chainStart = chainStart ++ chain
      ∧ chain.map (·.number) = [2, 3, 4] := by
  obtain ⟨k, chain, -, -, hchain, -, -, heq, -, -⟩ :=
    @addBoundaryInputs_chain chainLevel chainStart (by decide) (by decide) (by decide)
  refine ⟨k, chain, hchain, heq, ?_⟩
  have hnumbers : (chainStart ++ chain).map (·.number) = [1, 2, 3, 4] := by
    rw [← heq]
    decide
  exact List.tail_eq_of_cons_eq hnumbers

/-! ## Runs the pickers start from -/

/-- A single file is a run. -/
theorem inputRun_singleton (hs : 0 < level → SortedLevel files) (hf : f ∈ files) :
    InputRun level files [f] where
  sub g hg := List.mem_singleton.mp hg ▸ hf
  nodup := List.nodup_singleton f
  order _ := List.pairwise_singleton _ _
  convex hl := by
    intro a ha m hm g hg hag hgm
    exfalso
    rw [List.mem_singleton.mp ha] at hag
    rw [List.mem_singleton.mp hm] at hgm
    have h1 := (hs hl).ordered f hf
    have h2 := (hs hl).ordered g hg
    exact lt_irrefl _ (lt_of_le_of_lt h1 (lt_of_lt_of_le hag (le_trans h2 (le_of_lt hgm))))

/-- A prefix of the files that overlap a range is a run. -/
theorem inputRun_of_initial {P : List FileMetaData} (hs : SortedLevel files) {lo hi : Option Slice}
    (hP : P <+: files.filter (overlaps lo hi)) :
    InputRun level files P where
  sub f hf := (List.mem_filter.mp (hP.subset hf)).1
  nodup := by
    have hdis : (files.filter (overlaps lo hi)).Pairwise (· ≠ ·) := by
      refine (List.Pairwise.filter _ hs.largest_lt).imp ?_
      intro f g hlt heq
      exact absurd (heq ▸ hlt) (lt_irrefl _)
    exact List.Pairwise.sublist hP.sublist hdis
  order _ := (List.Pairwise.filter _ hs.disjoint).sublist hP.sublist
  convex _ := by
    intro a ha m hm g hg hag hgm
    have haf := List.mem_filter.mp (hP.subset ha)
    have hmf := List.mem_filter.mp (hP.subset hm)
    have hgo := hs.ordered g hg
    have hov : overlaps lo hi g = true := by
      obtain ⟨ha1, -⟩ := overlaps_iff.mp haf.2
      obtain ⟨-, hm2⟩ := overlaps_iff.mp hmf.2
      refine overlaps_iff.mpr ⟨fun k hk => ?_, fun k hk => ?_⟩
      · exact le_trans (ha1 k hk) (InternalKey.userKey_le (le_trans (le_of_lt hag) hgo))
      · exact le_trans (InternalKey.userKey_le (le_trans hgo (le_of_lt hgm))) (hm2 k hk)
    -- the file overlaps, and it stands before `m` in the filtered list
    obtain ⟨R, hR⟩ := hP
    have hgF : g ∈ P ++ R := hR ▸ List.mem_filter.mpr ⟨hg, hov⟩
    rcases List.mem_append.mp hgF with h | h
    · exact h
    · exfalso
      have hdis : (P ++ R).Pairwise fun f g => f.largest < g.smallest :=
        hR ▸ List.Pairwise.filter _ hs.disjoint
      have hmg := (List.pairwise_append.mp hdis).2.2 m hm g h
      have hmo := hs.ordered m hmf.1
      exact lt_irrefl _ (lt_of_le_of_lt hgo (lt_of_lt_of_le hgm (le_trans hmo (le_of_lt hmg))))

theorem takeUpTo_initial (limit : Nat) :
    ∀ (total : Nat) (l : List FileMetaData), takeUpTo limit total l <+: l := by
  intro total l
  induction l generalizing total with
  | nil => exact List.prefix_refl _
  | cons f rest ih =>
    rw [takeUpTo]
    split_ifs with h
    · exact ⟨rest, rfl⟩
    · exact List.cons_prefix_cons.mpr ⟨rfl, ih _⟩

theorem takeUpTo_ne_nil (limit : Nat) {total : Nat} {l : List FileMetaData} (h : l ≠ []) :
    takeUpTo limit total l ≠ [] := by
  cases l with
  | nil => exact absurd rfl h
  | cons f rest =>
    rw [takeUpTo]
    split_ifs <;> exact List.cons_ne_nil _ _

/-! ## Level 0 -/

/-- What level 0 has to satisfy: its files are ordered and listed once. -/
structure LevelZero (files : List FileMetaData) : Prop where
  ordered : ∀ f ∈ files, f.Ordered
  nodup : files.Nodup

/-- **On level 0 the overlap search returns a closed set**, and no boundary file
    is missing from it. -/
theorem overlapping_zero (h0 : LevelZero (v.files 0)) (b e : Option InternalKey) :
    InputRun 0 (v.files 0) (v.getOverlappingInputs 0 b e)
      ∧ ClosedRun 0 (v.files 0) (v.getOverlappingInputs 0 b e)
      ∧ addBoundaryInputs (v.files 0) (v.getOverlappingInputs 0 b e) = v.getOverlappingInputs 0 b e
      ∧ ∀ f ∈ v.files 0, overlaps (b.map (·.userKey)) (e.map (·.userKey)) f = true →
          f ∈ v.getOverlappingInputs 0 b e := by
  obtain ⟨ub, ue, hwide, heq, hin⟩ := getOverlappingInputs_zero v b e
    (fun ub ue => ∀ f, overlaps (b.map (·.userKey)) (e.map (·.userKey)) f = true →
      overlaps ub ue f = true)
    (by
      intro ub ue g _ _ hsb hQ f hf
      obtain ⟨h1, h2⟩ := overlaps_iff.mp (hQ f hf)
      refine overlaps_iff.mpr ⟨fun k hk => ?_, h2⟩
      cases ub with
      | none => exact Bool.noConfusion hsb
      | some lo =>
        cases hk
        exact le_trans (le_of_lt (startsBefore_some.mp hsb)) (h1 lo rfl))
    (by
      intro ub ue g _ _ hea hQ f hf
      obtain ⟨h1, h2⟩ := overlaps_iff.mp (hQ f hf)
      refine overlaps_iff.mpr ⟨h1, fun k hk => ?_⟩
      cases ue with
      | none => exact Bool.noConfusion hea
      | some hi =>
        cases hk
        exact le_trans (h2 hi rfl) (le_of_lt (endsAfter_some.mp hea)))
    (fun f hf => hf)
  -- a file of the level that meets an input overlaps the final range
  have hmeet : ∀ a ∈ v.getOverlappingInputs 0 b e, ∀ g ∈ v.files 0, Meets a g →
      g ∈ v.getOverlappingInputs 0 b e := by
    intro a ha g hg hm
    rw [heq] at ha ⊢
    obtain ⟨haf, hao⟩ := List.mem_filter.mp ha
    obtain ⟨hs1, hs2⟩ := hin a haf hao
    refine List.mem_filter.mpr ⟨hg, overlaps_iff.mpr ⟨fun k hk => ?_, fun k hk => ?_⟩⟩
    · subst hk
      rw [← Bool.not_eq_true, startsBefore_some, not_lt] at hs1
      exact le_trans hs1 hm.1
    · subst hk
      rw [← Bool.not_eq_true, endsAfter_some, not_lt] at hs2
      exact le_trans hm.2 hs2
  refine ⟨⟨?_, ?_, fun h => absurd h (lt_irrefl _), fun h => absurd h (lt_irrefl _)⟩, ?_, ?_, ?_⟩
  · intro f hf
    rw [heq] at hf
    exact (List.mem_filter.mp hf).1
  · rw [heq]
    exact h0.nodup.filter _
  · intro a ha g hg hgS hm
    exact absurd (hmeet a ha g hg hm) hgS
  · rw [addBoundaryInputs]
    cases hk : findLargestKey (v.getOverlappingInputs 0 b e) with
    | none => rfl
    | some k =>
      obtain ⟨hmax, m, hm, hmk⟩ := findLargestKey_spec hk
      have hspec := findSmallestBoundaryFile_spec (v.files 0) k
      show addBoundaryLoop _ ((v.files 0).length + 1) _ k = _
      rw [addBoundaryLoop]
      cases hb : findSmallestBoundaryFile (v.files 0) k with
      | none => rfl
      | some f =>
        exfalso
        rw [hb] at hspec
        obtain ⟨hf, hfk, -⟩ := hspec
        have hmf : m ∈ v.files 0 := by
          rw [heq] at hm
          exact (List.mem_filter.mp hm).1
        have hfo := h0.ordered f hf
        have hmo := h0.ordered m hmf
        have hfS := hmeet m hm f hf
          ⟨le_trans hmo.userKey_le (by rw [hmk, ← hfk.2]; exact hfo.userKey_le),
            by rw [hmk, hfk.2]⟩
        exact absurd (lt_of_lt_of_le hfk.1 hfo) (not_lt_of_ge (hmax f hfS))
  · intro f hf hov
    rw [heq]
    exact List.mem_filter.mpr ⟨hf, hwide f hov⟩

/-! ## Closed compactions -/

/-- What a version must satisfy for the pickers to work. -/
structure Pickable (v : Version) : Prop where
  zero : LevelZero (v.files 0)
  sorted : ∀ level, 0 < level → SortedLevel (v.files level)

theorem Pickable.ordered (hv : Pickable v) (level : Nat) : ∀ f ∈ v.files level, f.Ordered := by
  rcases Nat.eq_zero_or_pos level with rfl | hl
  · exact hv.zero.ordered
  · exact (hv.sorted level hl).ordered

theorem overlappingWithBoundary_pos (hv : Pickable v) (hl : 0 < level)
    (r : InternalKey × InternalKey) :
    InputRun level (v.files level) (overlappingWithBoundary v level r)
      ∧ ClosedRun level (v.files level) (overlappingWithBoundary v level r)
      ∧ (∀ f ∈ (v.files level).filter (overlaps (some r.1.userKey) (some r.2.userKey)),
          f ∈ overlappingWithBoundary v level r)
      ∧ Chained ((v.files level).filter (overlaps (some r.1.userKey) (some r.2.userKey)))
          (overlappingWithBoundary v level r) := by
  rw [overlappingWithBoundary, getOverlappingInputs_pos v (Nat.ne_of_gt hl)]
  exact addBoundaryInputs_pos hl (hv.sorted level hl)
    (inputRun_of_initial (hv.sorted level hl) (List.prefix_refl _))

/-- **`overlappingWithBoundary`** is a closed run that holds every overlapping
    file. -/
theorem overlappingWithBoundary_closed (hv : Pickable v) (level : Nat)
    (r : InternalKey × InternalKey) :
    InputRun level (v.files level) (overlappingWithBoundary v level r)
      ∧ ClosedRun level (v.files level) (overlappingWithBoundary v level r)
      ∧ ∀ f ∈ v.files level, overlaps (some r.1.userKey) (some r.2.userKey) f = true →
          f ∈ overlappingWithBoundary v level r := by
  rcases Nat.eq_zero_or_pos level with rfl | hl
  · obtain ⟨h1, h2, h3, h4⟩ := overlapping_zero hv.zero (some r.1) (some r.2)
    rw [overlappingWithBoundary, h3]
    exact ⟨h1, h2, h4⟩
  · obtain ⟨h1, h2, h3, -⟩ := overlappingWithBoundary_pos hv hl r
    exact ⟨h1, h2, fun f hf hov => h3 f (List.mem_filter.mpr ⟨hf, hov⟩)⟩

/-- A file of the output level that is left behind lies after all inputs, in
    user keys, or before all of them. -/
def Beside (inputs0 inputs1 : List FileMetaData) (g : FileMetaData) : Prop :=
  (∀ x ∈ inputs0 ++ inputs1, x.largest.userKey < g.smallest.userKey)
  ∨ ((∀ a ∈ inputs0, g.largest.userKey < a.smallest.userKey)
      ∧ ∀ b ∈ inputs1, g.largest < b.smallest)

/-- **The inputs of a compaction are closed** in the version they come from. -/
structure Closed (c : Compaction) (v : Version) : Prop where
  run0    : InputRun c.level (v.files c.level) c.inputs0
  closed0 : ClosedRun c.level (v.files c.level) c.inputs0
  run1    : InputRun (c.level + 1) (v.files (c.level + 1)) c.inputs1
  closed1 : ClosedRun (c.level + 1) (v.files (c.level + 1)) c.inputs1
  ne0     : c.inputs0 ≠ []
  beside : ∀ g ∈ v.files (c.level + 1), g ∉ c.inputs1 → Beside c.inputs0 c.inputs1 g

/-- The next level's files that overlap the range of the inputs, with their
    boundary files, leave every other file beside the inputs. -/
theorem beside_of_overlapping (hv : Pickable v) (hr : getRange inputs0 = some r) {g : FileMetaData}
    (hg : g ∈ v.files (level + 1)) (hgn : g ∉ overlappingWithBoundary v (level + 1) r) :
    Beside inputs0 (overlappingWithBoundary v (level + 1) r) g := by
  have hl : 0 < level + 1 := Nat.succ_pos level
  have hs := hv.sorted (level + 1) hl
  obtain ⟨hrun, hcl, hin, hch⟩ := overlappingWithBoundary_pos hv hl r
  obtain ⟨hbound, -, -⟩ := getRange_spec hr
  -- any input of the next level comes with one that overlaps the range
  have hbase : ∀ b ∈ overlappingWithBoundary v (level + 1) r,
      ∃ b0 ∈ overlappingWithBoundary v (level + 1) r,
        r.1.userKey ≤ b0.largest.userKey ∧ b0.smallest.userKey ≤ r.2.userKey := by
    intro b hb
    by_contra hno
    have hnone : (v.files (level + 1)).filter
        (overlaps (some r.1.userKey) (some r.2.userKey)) = [] := by
      rw [List.eq_nil_iff_forall_not_mem]
      intro f hf
      exact hno ⟨f, hin f hf, overlaps_some.mp (List.mem_filter.mp hf).2⟩
    have hnil : overlappingWithBoundary v (level + 1) r = [] := by
      rw [overlappingWithBoundary, getOverlappingInputs_pos v (Nat.succ_ne_zero level)]
      show addBoundaryInputs _ ((v.files (level + 1)).filter
        (overlaps (some r.1.userKey) (some r.2.userKey))) = []
      rw [hnone]
      rfl
    rw [hnil] at hb
    cases hb
  have hnov : ¬ (r.1.userKey ≤ g.largest.userKey ∧ g.smallest.userKey ≤ r.2.userKey) :=
    fun h => hgn (hin g (List.mem_filter.mpr ⟨hg, overlaps_some.mpr h⟩))
  by_cases hlo : r.1.userKey ≤ g.largest.userKey
  · -- the file begins after the range
    have hhi : r.2.userKey < g.smallest.userKey := lt_of_not_ge fun h => hnov ⟨hlo, h⟩
    refine Or.inl fun x hx => ?_
    rcases List.mem_append.mp hx with hx | hx
    · exact lt_of_le_of_lt (InternalKey.userKey_le (hbound x hx).2) hhi
    · rcases hs.trichotomy (hrun.sub x hx) hg with rfl | h | h
      · exact absurd hx hgn
      · refine lt_of_le_of_ne (InternalKey.userKey_le (le_of_lt h)) fun heq => ?_
        have hxo := hs.ordered x (hrun.sub x hx)
        have hgo := hs.ordered g hg
        have := (hcl x hx g hg hgn
          ⟨le_trans hxo.userKey_le (heq ▸ hgo.userKey_le), le_of_eq heq.symm⟩).2
        exact lt_irrefl _ (lt_of_le_of_lt hgo (lt_of_lt_of_le this (le_trans hxo (le_of_lt h))))
      · exfalso
        obtain ⟨b0, hb0, -, hb0hi⟩ := hbase x hx
        rcases hs.trichotomy (hrun.sub b0 hb0) hg with rfl | h' | h'
        · exact hgn hb0
        · exact hgn (hrun.convex hl b0 hb0 x hx g hg h' h)
        · have hgo := hs.ordered g hg
          have : g.smallest.userKey ≤ b0.smallest.userKey :=
            InternalKey.userKey_le (le_trans hgo (le_of_lt h'))
          exact absurd (lt_of_lt_of_le hhi this) (not_lt_of_ge hb0hi)
  · have hlt : g.largest.userKey < r.1.userKey := lt_of_not_ge hlo
    refine Or.inr ⟨fun a ha => ?_, fun b hb => ?_⟩
    · exact lt_of_lt_of_le hlt (InternalKey.userKey_le (hbound a ha).1)
    · rcases hs.trichotomy (hrun.sub b hb) hg with rfl | h | h
      · exact absurd hb hgn
      · exfalso
        obtain ⟨b0, hb0, hb0lo, -⟩ := hbase b hb
        rcases hs.trichotomy (hrun.sub b0 hb0) hg with rfl | h' | h'
        · exact hgn hb0
        · have hgo := hs.ordered g hg
          have : b0.largest.userKey ≤ g.largest.userKey :=
            InternalKey.userKey_le (le_trans (le_of_lt h') hgo)
          exact absurd (lt_of_le_of_lt this hlt) (not_lt_of_ge hb0lo)
        · exact hgn (hrun.convex hl b hb b0 hb0 g hg h h')
      · exact h

/-- What `finishInputs` returns. -/
structure Finished (l : Nat) (S T : List FileMetaData) (c : Compaction) : Prop where
  level : c.level = l
  inputs0 : c.inputs0 = S
  inputs1 : c.inputs1 = T
  ne0     : S ≠ []
  largest : ∃ f ∈ S, f.largest = c.largest

theorem finishInputs_finished {inputs1 : List FileMetaData}
    (h : finishInputs v level inputs0 inputs1 = some c) : Finished level inputs0 inputs1 c := by
  rw [finishInputs] at h
  split at h
  · rename_i r0 all h0 _
    cases h
    refine ⟨rfl, rfl, rfl, ?_, (getRange_spec h0).2.2⟩
    rintro rfl
    cases h0
  · cases h

theorem finishInputs_isSome (inputs1 : List FileMetaData) (hne : inputs0 ≠ []) :
    ∃ c, finishInputs v level inputs0 inputs1 = some c := by
  obtain ⟨r0, h0⟩ := getRange_isSome hne
  obtain ⟨all, hall⟩ := getRange_isSome (List.append_ne_nil_of_left_ne_nil hne inputs1)
  rw [finishInputs, h0, hall]
  exact ⟨_, rfl⟩

/-- A closed run on the input level and the overlap search on the output level
    make a closed compaction. -/
theorem closed_of_run (hv : Pickable v) (hrun : InputRun level (v.files level) inputs0)
    (hcl : ClosedRun level (v.files level) inputs0) (hr : getRange inputs0 = some r)
    (hc : finishInputs v level inputs0 (overlappingWithBoundary v (level + 1) r) = some c) :
    Closed c v ∧ c.level = level := by
  obtain ⟨rfl, rfl, h1, hne, -⟩ := finishInputs_finished hc
  obtain ⟨hrun1, hcl1, -⟩ := overlappingWithBoundary_closed hv (c.level + 1) r
  rw [← h1] at hrun1 hcl1
  refine ⟨⟨hrun, hcl, hrun1, hcl1, hne, fun g hg hgn => ?_⟩, rfl⟩
  rw [h1] at hgn ⊢
  exact beside_of_overlapping hv hr hg hgn

/-- Files of the level are among those that overlap a range drawn around them. -/
theorem mem_overlappingWithBoundary (hv : Pickable v) (hr : getRange S = some r) (hfS : f ∈ S)
    (hf : f ∈ v.files level) : f ∈ overlappingWithBoundary v level r := by
  obtain ⟨hbound, -, -⟩ := getRange_spec hr
  obtain ⟨hlow, hhigh⟩ := hbound f hfS
  have hle := (hv.ordered level f hf).userKey_le
  exact (overlappingWithBoundary_closed hv level r).2.2 f hf (overlaps_some.mpr
    ⟨le_trans (InternalKey.userKey_le hlow) hle, le_trans hle (InternalKey.userKey_le hhigh)⟩)

/-- The expanded inputs are the old ones or a fresh pair of the same shape. -/
theorem expandInputs_cases (o : Options) (v : Version) (level : Nat)
    (inputs0 inputs1 : List FileMetaData) :
    expandInputs o v level inputs0 inputs1 = (inputs0, inputs1)
      ∨ ∃ all new, getRange (inputs0 ++ inputs1) = some all
          ∧ getRange (overlappingWithBoundary v level all) = some new
          ∧ expandInputs o v level inputs0 inputs1
            = (overlappingWithBoundary v level all, overlappingWithBoundary v (level + 1) new) := by
  rw [expandInputs]
  cases hall : getRange (inputs0 ++ inputs1) with
  | none => exact Or.inl rfl
  | some all =>
    simp only
    split_ifs with h
    · cases hnew : getRange (overlappingWithBoundary v level all) with
      | none => exact Or.inl rfl
      | some new =>
        simp only
        split_ifs with h'
        · exact Or.inr ⟨all, new, rfl, hnew, rfl⟩
        · exact Or.inl rfl
    · exact Or.inl rfl

variable {inputs : List FileMetaData}

/-- **The two ways `SetupOtherInputs` can go**: it keeps its first inputs, or it
    takes the expanded ones. -/
theorem setupOtherInputs_cases (hc : setupOtherInputs o v level inputs = some c) :
    ∃ r, getRange (addBoundaryInputs (v.files level) inputs) = some r
      ∧ (finishInputs v level (addBoundaryInputs (v.files level) inputs)
            (overlappingWithBoundary v (level + 1) r) = some c
        ∨ ∃ all new, getRange (addBoundaryInputs (v.files level) inputs
              ++ overlappingWithBoundary v (level + 1) r) = some all
            ∧ getRange (overlappingWithBoundary v level all) = some new
            ∧ finishInputs v level (overlappingWithBoundary v level all)
                (overlappingWithBoundary v (level + 1) new) = some c) := by
  rw [setupOtherInputs] at hc
  cases hr : getRange (addBoundaryInputs (v.files level) inputs) with
  | none => simp [hr] at hc
  | some r =>
    simp only [hr] at hc
    refine ⟨r, rfl, ?_⟩
    split_ifs at hc with hnil
    · exact Or.inl hc
    · rcases expandInputs_cases o v level (addBoundaryInputs (v.files level) inputs)
        (overlappingWithBoundary v (level + 1) r) with h | ⟨all, new, hall, hnew, h⟩
      · rw [h] at hc
        exact Or.inl hc
      · rw [h] at hc
        exact Or.inr ⟨all, new, hall, hnew, hc⟩

/-- **`SetupOtherInputs` closes the compaction** when its first input set does
    once its boundary files are added. -/
theorem setupOtherInputs_closed (hv : Pickable v)
    (hrun : InputRun level (v.files level) (addBoundaryInputs (v.files level) inputs))
    (hcl : ClosedRun level (v.files level) (addBoundaryInputs (v.files level) inputs))
    (hc : setupOtherInputs o v level inputs = some c) : Closed c v ∧ c.level = level := by
  obtain ⟨r, hr, hfin | ⟨all, new, -, hnew, hfin⟩⟩ := setupOtherInputs_cases hc
  · exact closed_of_run hv hrun hcl hr hfin
  · obtain ⟨hrun', hcl', -⟩ := overlappingWithBoundary_closed hv level all
    exact closed_of_run hv hrun' hcl' hnew hfin

variable {ptr : Nat → Option InternalKey}

theorem pickFirst_spec {t : Trigger}
    (h : pickFirst v ptr t = some (level, f)) : f ∈ v.files level ∧ level + 1 < kNumLevels := by
  cases t with
  | size l =>
    rw [pickFirst] at h
    split_ifs at h with hl
    split at h
    · rename_i g hf
      simp only [Option.some.injEq, Prod.mk.injEq] at h
      obtain ⟨rfl, rfl⟩ := h
      exact ⟨List.mem_of_find?_eq_some hf, hl⟩
    · simp only [Option.map_eq_some_iff, Prod.mk.injEq] at h
      obtain ⟨g, hg, rfl, rfl⟩ := h
      exact ⟨List.mem_of_head? hg, hl⟩
  | seek l file =>
    rw [pickFirst] at h
    split_ifs at h with hl
    simp only [Option.some.injEq, Prod.mk.injEq] at h
    obtain ⟨rfl, rfl⟩ := h
    exact ⟨hl.2, hl.1⟩

/-- **Automatic compactions are closed.** -/
theorem pickCompaction_closed (hv : Pickable v) {t : Trigger}
    (hc : pickCompaction o v ptr t = some c) : Closed c v ∧ c.level + 1 < kNumLevels := by
  rw [pickCompaction] at hc
  cases hp : pickFirst v ptr t with
  | none => simp [hp] at hc
  | some p =>
    obtain ⟨level, f⟩ := p
    obtain ⟨hf, hlt⟩ := pickFirst_spec hp
    simp only [hp] at hc
    split_ifs at hc with h0
    · subst h0
      obtain ⟨h1, h2, h3, -⟩ := overlapping_zero hv.zero (some f.smallest) (some f.largest)
      obtain ⟨hcl, hlev⟩ := setupOtherInputs_closed hv (h3.symm ▸ h1) (h3.symm ▸ h2) hc
      exact ⟨hcl, hlev ▸ hlt⟩
    · have hl : 0 < level := Nat.pos_of_ne_zero h0
      obtain ⟨h1, h2, -⟩ := addBoundaryInputs_pos hl (hv.sorted level hl)
        (inputRun_singleton (fun _ => hv.sorted level hl) hf)
      obtain ⟨hcl, hlev⟩ := setupOtherInputs_closed hv h1 h2 hc
      exact ⟨hcl, hlev ▸ hlt⟩

/-- **Manual compactions are closed.** -/
theorem compactRange_closed (hv : Pickable v) {b e : Option InternalKey}
    (hc : compactRange o v level b e = some c) : Closed c v ∧ c.level = level := by
  rw [compactRange] at hc
  split_ifs at hc with hnil h0
  · subst h0
    obtain ⟨h1, h2, h3, -⟩ := overlapping_zero hv.zero b e
    exact setupOtherInputs_closed hv (h3.symm ▸ h1) (h3.symm ▸ h2) hc
  · have hl : 0 < level := Nat.pos_of_ne_zero h0
    rw [getOverlappingInputs_pos v h0] at hc
    obtain ⟨h1, h2, -⟩ := addBoundaryInputs_pos hl (hv.sorted level hl)
      (inputRun_of_initial (hv.sorted level hl) (takeUpTo_initial o.maxFileSize 0 _))
    exact setupOtherInputs_closed hv h1 h2 hc

/-! ## Automatic inputs leave no gap -/

/-- The user-key ranges of the files form one interval. -/
def Covers (S : List FileMetaData) : Prop :=
  ∀ k, (∃ a ∈ S, a.smallest.userKey ≤ k) → (∃ b ∈ S, k ≤ b.largest.userKey) →
    ∃ c ∈ S, c.holds k = true

theorem Covers.congr (h : Covers S) (hst : ∀ f, f ∈ S ↔ f ∈ T) : Covers T := by
  rintro k ⟨a, ha, hak⟩ ⟨b, hb, hbk⟩
  obtain ⟨c, hc, hck⟩ := h k ⟨a, (hst a).mpr ha, hak⟩ ⟨b, (hst b).mpr hb, hbk⟩
  exact ⟨c, (hst c).mp hc, hck⟩

theorem covers_singleton (f : FileMetaData) : Covers [f] := by
  rintro k ⟨a, ha, hak⟩ ⟨b, hb, hbk⟩
  rw [List.mem_singleton.mp ha] at hak
  rw [List.mem_singleton.mp hb] at hbk
  exact ⟨f, by simp, FileMetaData.holds_iff.mpr ⟨hak, hbk⟩⟩

/-- Files that meet the hull of a covering set extend it. -/
theorem Covers.append {X : List FileMetaData} (h : Covers S)
    (hX : ∀ x ∈ X, (∃ b ∈ S, x.smallest.userKey ≤ b.largest.userKey)
      ∧ ∃ a ∈ S, a.smallest.userKey ≤ x.largest.userKey) : Covers (S ++ X) := by
  rintro k ⟨a, ha, hak⟩ ⟨b, hb, hbk⟩
  by_cases hlo : ∃ a ∈ S, a.smallest.userKey ≤ k
  · by_cases hhi : ∃ b ∈ S, k ≤ b.largest.userKey
    · obtain ⟨c, hc, hck⟩ := h k hlo hhi
      exact ⟨c, List.mem_append.mpr (Or.inl hc), hck⟩
    · -- `k` is above the hull, so the file that reaches it is a new one
      rcases List.mem_append.mp hb with hbS | hbX
      · exact absurd ⟨b, hbS, hbk⟩ hhi
      · obtain ⟨⟨m, hm, hbm⟩, -⟩ := hX b hbX
        have hmk : m.largest.userKey < k := lt_of_not_ge fun hle => hhi ⟨m, hm, hle⟩
        exact ⟨b, hb, FileMetaData.holds_iff.mpr ⟨le_trans hbm (le_of_lt hmk), hbk⟩⟩
  · rcases List.mem_append.mp ha with haS | haX
    · exact absurd ⟨a, haS, hak⟩ hlo
    · obtain ⟨-, m, hm, hma⟩ := hX a haX
      have hkm : k < m.smallest.userKey := lt_of_not_ge fun hle => hlo ⟨m, hm, hle⟩
      exact ⟨a, ha, FileMetaData.holds_iff.mpr ⟨hak, le_trans (le_of_lt hkm) hma⟩⟩

/-- The first file, by smallest key, of a list with a property. -/
theorem exists_first {P : FileMetaData → Prop} (h : ∃ f ∈ T, P f) :
    ∃ f ∈ T, P f ∧ ∀ g ∈ T, P g → f.smallest ≤ g.smallest := by
  have hfin : {f | f ∈ T ∧ P f}.Finite := (List.finite_toSet T).subset fun f hf => hf.1
  obtain ⟨f, hf, hfP⟩ := h
  obtain ⟨m, hm, hmin⟩ := Set.exists_min_image {f | f ∈ T ∧ P f} (·.smallest) hfin ⟨f, hf, hfP⟩
  exact ⟨m, hm.1, hm.2, fun g hg hgP => hmin g ⟨hg, hgP⟩⟩

/-- Boundary files extend a covering set. -/
theorem Covers.chained (h : Covers S) (hST : ∀ f ∈ S, f ∈ T) (hord : ∀ f ∈ T, f.Ordered)
    (hch : Chained S T) : Covers T := by
  intro k hlo hhi
  by_contra hno
  push Not at hno
  -- the first file that begins at or below `k` is an old one
  obtain ⟨a, ha, hak, hamin⟩ := exists_first hlo
  have haS : a ∈ S := by
    rcases hch a ha with h' | ⟨m, hm, hma, huk⟩
    · exact h'
    · have hmo := hord m hm
      exact absurd (hamin m hm (le_trans hmo.userKey_le (huk ▸ hak)))
        (not_le_of_gt (lt_of_le_of_lt hmo hma))
  -- and so is the first file that begins above `k`
  obtain ⟨b, hb, hbk⟩ := hhi
  have hbk' : k < b.smallest.userKey := lt_of_not_ge fun hle =>
    hno b hb (FileMetaData.holds_iff.mpr ⟨hle, hbk⟩)
  obtain ⟨b', hb', hb'k, hbmin⟩ := exists_first (T := T) (P := fun f => k < f.smallest.userKey)
    ⟨b, hb, hbk'⟩
  have hb'S : b' ∈ S := by
    rcases hch b' hb' with h' | ⟨m, hm, hmb, huk⟩
    · exact h'
    · have hmo := hord m hm
      have hkm : k < m.smallest.userKey := lt_of_not_ge fun hle =>
        hno m hm (FileMetaData.holds_iff.mpr ⟨hle, le_of_lt (huk ▸ hb'k)⟩)
      exact absurd (hbmin m hm hkm) (not_le_of_gt (lt_of_le_of_lt hmo hmb))
  obtain ⟨c, hc, hck⟩ := h k ⟨a, haS, hak⟩
    ⟨b', hb'S, le_trans (le_of_lt hb'k) (hord b' hb').userKey_le⟩
  exact hno c (hST c hc) hck

/-- The overlap search on level 0 extends a covering set whose hull it is given. -/
theorem covers_overlapping_zero {U : List FileMetaData} (hU : Covers U) (hr : getRange U = some r)
    (hle : r.1.userKey ≤ r.2.userKey) :
    Covers (U ++ v.getOverlappingInputs 0 (some r.1) (some r.2)) := by
  obtain ⟨hbound, ⟨a0, ha0, ha0r⟩, ⟨b0, hb0, hb0r⟩⟩ := getRange_spec hr
  -- the range stays covered while it is widened
  obtain ⟨ub, ue, ⟨lo, hi, rfl, rfl, hlohi, hlo1, hhi1, hcov⟩, heq, hin⟩ :=
    getOverlappingInputs_zero v (some r.1) (some r.2)
      (fun ub ue => ∃ lo hi, ub = some lo ∧ ue = some hi ∧ lo ≤ hi ∧ lo ≤ r.1.userKey
        ∧ r.2.userKey ≤ hi ∧ ∀ k, lo ≤ k → k ≤ hi → ∃ c ∈ U ++ v.files 0, c.holds k = true)
      (by
        rintro ub ue g hg hov hsb ⟨lo, hi, rfl, rfl, h1, h2, h3, h4⟩
        have hglo : g.smallest.userKey < lo := startsBefore_some.mp hsb
        obtain ⟨hov1, -⟩ := overlaps_some.mp hov
        refine ⟨_, hi, rfl, rfl, le_trans (le_of_lt hglo) h1, le_trans (le_of_lt hglo) h2, h3, ?_⟩
        intro k hk1 hk2
        rcases le_or_gt lo k with h | h
        · exact h4 k h hk2
        · exact ⟨g, List.mem_append.mpr (Or.inr hg),
            FileMetaData.holds_iff.mpr ⟨hk1, le_trans (le_of_lt h) hov1⟩⟩)
      (by
        rintro ub ue g hg hov hea ⟨lo, hi, rfl, rfl, h1, h2, h3, h4⟩
        have hghi : hi < g.largest.userKey := endsAfter_some.mp hea
        obtain ⟨-, hov2⟩ := overlaps_some.mp hov
        refine ⟨lo, _, rfl, rfl, le_trans h1 (le_of_lt hghi), h2, le_trans h3 (le_of_lt hghi), ?_⟩
        intro k hk1 hk2
        rcases le_or_gt k hi with h | h
        · exact h4 k hk1 h
        · exact ⟨g, List.mem_append.mpr (Or.inr hg),
            FileMetaData.holds_iff.mpr ⟨le_trans hov2 (le_of_lt h), hk2⟩⟩)
      (by
        refine ⟨_, _, rfl, rfl, hle, le_refl _, le_refl _, ?_⟩
        intro k hk1 hk2
        obtain ⟨c, hc, hck⟩ := hU k ⟨a0, ha0, by rw [ha0r]; exact hk1⟩ ⟨b0, hb0, by rw [hb0r]; exact hk2⟩
        exact ⟨c, List.mem_append.mpr (Or.inl hc), hck⟩)
  -- every file of the union lies inside the final range
  have hinside : ∀ f ∈ U ++ v.getOverlappingInputs 0 (some r.1) (some r.2),
      lo ≤ f.smallest.userKey ∧ f.largest.userKey ≤ hi := by
    intro f hf
    rcases List.mem_append.mp hf with hf | hf
    · exact ⟨le_trans hlo1 (InternalKey.userKey_le (hbound f hf).1),
        le_trans (InternalKey.userKey_le (hbound f hf).2) hhi1⟩
    · rw [heq] at hf
      obtain ⟨hff, hov⟩ := List.mem_filter.mp hf
      obtain ⟨h1, h2⟩ := hin f hff hov
      rw [← Bool.not_eq_true, startsBefore_some, not_lt] at h1
      rw [← Bool.not_eq_true, endsAfter_some, not_lt] at h2
      exact ⟨h1, h2⟩
  rintro k ⟨a, ha, hak⟩ ⟨b, hb, hbk⟩
  obtain ⟨c, hc, hck⟩ := hcov k (le_trans (hinside a ha).1 hak) (le_trans hbk (hinside b hb).2)
  refine ⟨c, ?_, hck⟩
  rcases List.mem_append.mp hc with hc | hc
  · exact List.mem_append.mpr (Or.inl hc)
  · refine List.mem_append.mpr (Or.inr (heq ▸ List.mem_filter.mpr ⟨hc, overlaps_some.mpr ?_⟩))
    obtain ⟨h1, h2⟩ := FileMetaData.holds_iff.mp hck
    exact ⟨le_trans (le_trans (hinside a ha).1 hak) h2, le_trans h1 (le_trans hbk (hinside b hb).2)⟩

/-- **The overlap search extends a covering set** on every level. -/
theorem Covers.overlapping (hv : Pickable v) {U : List FileMetaData} (hU : Covers U)
    (hord : ∀ f ∈ U, f.Ordered) (level : Nat) (hr : getRange U = some r) :
    Covers (U ++ overlappingWithBoundary v level r) := by
  obtain ⟨hbound, ⟨a0, ha0, ha0r⟩, ⟨b0, hb0, hb0r⟩⟩ := getRange_spec hr
  rcases Nat.eq_zero_or_pos level with rfl | hl
  · rw [overlappingWithBoundary, (overlapping_zero hv.zero (some r.1) (some r.2)).2.2.1]
    refine covers_overlapping_zero hU hr ?_
    rw [← ha0r]
    exact le_trans (hord a0 ha0).userKey_le (InternalKey.userKey_le (hbound a0 ha0).2)
  · obtain ⟨hrun, -, hin, hch⟩ := overlappingWithBoundary_pos hv hl r
    have hbase : Covers (U ++ (v.files level).filter
        (overlaps (some r.1.userKey) (some r.2.userKey))) := by
      refine hU.append fun x hx => ?_
      obtain ⟨h1, h2⟩ := overlaps_some.mp (List.mem_filter.mp hx).2
      exact ⟨⟨b0, hb0, by rw [hb0r]; exact h2⟩, ⟨a0, ha0, by rw [ha0r]; exact h1⟩⟩
    refine hbase.chained ?_ ?_ ?_
    · intro f hf
      rcases List.mem_append.mp hf with hf | hf
      · exact List.mem_append.mpr (Or.inl hf)
      · exact List.mem_append.mpr (Or.inr (hin f hf))
    · intro f hf
      rcases List.mem_append.mp hf with hf | hf
      · exact hord f hf
      · exact (hv.sorted level hl).ordered f (hrun.sub f hf)
    · intro f hf
      rcases List.mem_append.mp hf with hf | hf
      · exact Or.inl (List.mem_append.mpr (Or.inl hf))
      · rcases hch f hf with h | ⟨m, hm, h⟩
        · exact Or.inl (List.mem_append.mpr (Or.inr h))
        · exact Or.inr ⟨m, List.mem_append.mpr (Or.inr hm), h⟩

/-- A closed run that holds the overlapping files holds their boundary chain. -/
theorem chained_subset {R : List FileMetaData} (hord : ∀ f ∈ files, f.Ordered)
    (hT : ∀ f ∈ T, f ∈ files) (hch : Chained S T) (hcl : ClosedRun level files R)
    (hSR : ∀ f ∈ S, f ∈ R) : ∀ f ∈ T, f ∈ R := by
  by_contra hno
  push Not at hno
  obtain ⟨f, hf, hfR, hmin⟩ := exists_first hno
  rcases hch f hf with h | ⟨m, hm, hmf, huk⟩
  · exact hfR (hSR f h)
  · have hmo := hord m (hT m hm)
    have hmR : m ∈ R := by
      by_contra hmR
      exact absurd (hmin m hm hmR) (not_le_of_gt (lt_of_le_of_lt hmo hmf))
    have hfo := hord f (hT f hf)
    have := (hcl m hmR f (hT f hf) hfR
      ⟨le_trans hmo.userKey_le (huk ▸ hfo.userKey_le), le_of_eq huk⟩).2
    exact lt_irrefl _ (lt_of_le_of_lt hfo (lt_of_lt_of_le this (le_trans hmo (le_of_lt hmf))))

/-- The files of the next level that overlap some of a covering set of files leave
    no gap. -/
theorem Covers.append_next (hv : Pickable v) (level : Nat) {U E : List FileMetaData} (hU : Covers U)
    (hord : ∀ f ∈ U, f.Ordered) (hEU : ∀ f ∈ E, f ∈ U) (hr : getRange E = some r) :
    Covers (U ++ overlappingWithBoundary v (level + 1) r) := by
  obtain ⟨-, ⟨a, ha, har⟩, ⟨b, hb, hbr⟩⟩ := getRange_spec hr
  obtain ⟨hrun, -, hin, hch⟩ := overlappingWithBoundary_pos hv (Nat.succ_pos level) r
  have hfirst : Covers (U ++ (v.files (level + 1)).filter
      (overlaps (some r.1.userKey) (some r.2.userKey))) := by
    refine hU.append fun x hx => ?_
    obtain ⟨h1, h2⟩ := overlaps_some.mp (List.mem_filter.mp hx).2
    exact ⟨⟨b, hEU b hb, by rw [hbr]; exact h2⟩, ⟨a, hEU a ha, by rw [har]; exact h1⟩⟩
  refine hfirst.chained ?_ ?_ ?_
  · intro f hf
    exact List.mem_append.mpr ((List.mem_append.mp hf).imp id (hin f))
  · intro f hf
    rcases List.mem_append.mp hf with hf | hf
    · exact hord f hf
    · exact hv.ordered (level + 1) f (hrun.sub f hf)
  · intro f hf
    rcases List.mem_append.mp hf with hf | hf
    · exact Or.inl (List.mem_append_left _ hf)
    · rcases hch f hf with h | ⟨m, hm, h⟩
      · exact Or.inl (List.mem_append_right _ h)
      · exact Or.inr ⟨m, List.mem_append_right _ hm, h⟩

/-- A wider first input set has a wider second one. -/
theorem overlappingWithBoundary_mono (hv : Pickable v) (level : Nat) {E : List FileMetaData}
    (hSE : ∀ f ∈ S, f ∈ E) {new : InternalKey × InternalKey} (hr : getRange S = some r)
    (hnew : getRange E = some new) :
    ∀ f ∈ overlappingWithBoundary v (level + 1) r, f ∈ overlappingWithBoundary v (level + 1) new := by
  obtain ⟨hrun, -, -, hch⟩ := overlappingWithBoundary_pos hv (Nat.succ_pos level) r
  obtain ⟨-, hcl, hin, -⟩ := overlappingWithBoundary_pos hv (Nat.succ_pos level) new
  obtain ⟨hbound, -, -⟩ := getRange_spec hnew
  obtain ⟨-, ⟨a, ha, har⟩, ⟨b, hb, hbr⟩⟩ := getRange_spec hr
  refine chained_subset (hv.ordered (level + 1)) hrun.sub hch hcl fun f hf => ?_
  obtain ⟨hff, hov⟩ := List.mem_filter.mp hf
  obtain ⟨hov1, hov2⟩ := overlaps_some.mp hov
  refine hin f (List.mem_filter.mpr ⟨hff, overlaps_some.mpr ⟨?_, ?_⟩⟩)
  · refine le_trans (InternalKey.userKey_le (hbound a (hSE a ha)).1) ?_
    rw [har]
    exact hov1
  · refine le_trans hov2 ?_
    rw [← hbr]
    exact InternalKey.userKey_le (hbound b (hSE b hb)).2

/-- `SetupOtherInputs` keeps a covering first input set covering. -/
theorem setupOtherInputs_covers (hv : Pickable v)
    (hsub : ∀ f ∈ addBoundaryInputs (v.files level) inputs, f ∈ v.files level)
    (hcov : Covers (addBoundaryInputs (v.files level) inputs))
    (hc : setupOtherInputs o v level inputs = some c) : Covers c.inputs := by
  have hord0 : ∀ f ∈ addBoundaryInputs (v.files level) inputs, f.Ordered :=
    fun f hf => hv.ordered level f (hsub f hf)
  obtain ⟨r, hr, hfin | ⟨all, new, hall, hnew, hfin⟩⟩ := setupOtherInputs_cases hc
  · obtain ⟨-, h0, h1, -, -⟩ := finishInputs_finished hfin
    rw [Compaction.inputs, h0, h1]
    exact hcov.overlapping hv hord0 (level + 1) hr
  · obtain ⟨-, h0, h1, -, -⟩ := finishInputs_finished hfin
    rw [Compaction.inputs, h0, h1]
    have hU := hcov.overlapping hv hord0 (level + 1) hr
    have hordU : ∀ f ∈ addBoundaryInputs (v.files level) inputs ++
        overlappingWithBoundary v (level + 1) r, f.Ordered := by
      intro f hf
      rcases List.mem_append.mp hf with hf | hf
      · exact hord0 f hf
      · exact hv.ordered (level + 1) f
          ((overlappingWithBoundary_closed hv (level + 1) r).1.sub f hf)
    have hordE : ∀ f ∈ overlappingWithBoundary v level all, f.Ordered := fun f hf =>
      hv.ordered level f ((overlappingWithBoundary_closed hv level all).1.sub f hf)
    -- the first expansion meets the old hull, the second one meets the first
    have hfull := (hU.overlapping hv hordU level hall).append_next hv level
      (fun f hf => (List.mem_append.mp hf).elim (hordU f) (hordE f))
      (fun f hf => List.mem_append_right _ hf) hnew
    -- and the old inputs are among the expanded ones
    have hin0 : ∀ f ∈ addBoundaryInputs (v.files level) inputs,
        f ∈ overlappingWithBoundary v level all := fun f hf =>
      mem_overlappingWithBoundary hv hall (List.mem_append_left _ hf) (hsub f hf)
    have hin1 := overlappingWithBoundary_mono hv level hin0 hr hnew
    refine hfull.congr fun f => ?_
    simp only [List.mem_append]
    constructor
    · rintro (((h | h) | h) | h)
      · exact Or.inl (hin0 f h)
      · exact Or.inr (hin1 f h)
      · exact Or.inl h
      · exact Or.inr h
    · rintro (h | h)
      · exact Or.inl (Or.inr h)
      · exact Or.inr h

/-- **The inputs of an automatic compaction leave no gap.** -/
theorem pickCompaction_covers (hv : Pickable v) {t : Trigger}
    (hc : pickCompaction o v ptr t = some c) : Covers c.inputs := by
  rw [pickCompaction] at hc
  cases hp : pickFirst v ptr t with
  | none => simp [hp] at hc
  | some p =>
    obtain ⟨level, f⟩ := p
    obtain ⟨hf, -⟩ := pickFirst_spec hp
    simp only [hp] at hc
    split_ifs at hc with h0
    · subst h0
      obtain ⟨h1, -, h3, h4⟩ := overlapping_zero hv.zero (some f.smallest) (some f.largest)
      have hfo := hv.zero.ordered f hf
      have hmem := h4 f hf (overlaps_some.mpr ⟨hfo.userKey_le, hfo.userKey_le⟩)
      refine setupOtherInputs_covers hv (h3.symm ▸ h1.sub) ?_ hc
      rw [h3]
      refine (covers_overlapping_zero (v := v) (covers_singleton f)
        (r := (f.smallest, f.largest)) rfl hfo.userKey_le).congr fun g => ?_
      rw [List.mem_append, List.mem_singleton]
      constructor
      · rintro (rfl | h)
        · exact hmem
        · exact h
      · exact Or.inr
    · have hl : 0 < level := Nat.pos_of_ne_zero h0
      obtain ⟨h1, -, h3, h4⟩ := addBoundaryInputs_pos hl (hv.sorted level hl)
        (inputRun_singleton (fun _ => hv.sorted level hl) hf)
      exact setupOtherInputs_covers hv h1.sub ((covers_singleton f).chained h3
        (fun g hg => (hv.sorted level hl).ordered g (h1.sub g hg)) h4) hc

end LdbClosure
