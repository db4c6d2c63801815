import Mathlib.Algebra.Order.BigOperators.Group.List
import Mathlib.Algebra.Order.Group.Nat
import Mathlib.Data.Nat.Bitwise
import Mathlib.Data.Set.Lattice
import Mathlib.Order.CompletePartialOrder

/-! # The arena

    `util/arena.{h,cc}`: a bump allocator over blocks from `operator new`.  A request
    that fits is cut from the front of the current block.  Of the others, those of more
    than a quarter of a block get one of their own, while the current one stays in use,
    and smaller ones begin a new block and give up the rest of the current one.

    Pointers are addresses.  The allocator under the arena is any that hands out
    aligned regions apart from those it handed out before; the bytes still to be cut
    from the current block are one more region (`Arena.free`), and that no range handed
    out meets it is the invariant. -/

namespace LdbArena

/-- The bytes from `start` on. -/
structure Region where
  start : Nat
  size : Nat
  deriving DecidableEq

/-- The addresses of a region. -/
def Region.bytes (r : Region) : Set Nat := Set.Ico r.start (r.start + r.size)

/-- **`operator new`**: where the region for a request is, after the regions handed out
    before.  It is aligned to 8 bytes and apart from all of them. -/
structure Heap where
  new : List Region → Nat → Nat
  aligned : ∀ earlier n, 8 ∣ new earlier n
  fresh : ∀ earlier n, ∀ r ∈ earlier, Disjoint (Region.bytes ⟨new earlier n, n⟩) r.bytes

/-! ## The source -/

/-- `kBlockSize`. -/
def kBlockSize : Nat := 4096

/-- `sizeof(void*)`. -/
def sizeofPointer : Nat := 8

/-- The values of a `size_t`. -/
def sizeRange : Nat := 2 ^ 64

/-- `Arena`.  The blocks are kept with their sizes, which `new[]` remembers. -/
structure Arena where
  allocPtr : Nat
  allocBytesRemaining : Nat
  blocks : List Region
  memoryUsage : Nat

/-- `Arena::Arena`. -/
def Arena.new : Arena where
  allocPtr := 0
  allocBytesRemaining := 0
  blocks := []
  memoryUsage := 0

namespace Arena

/-- `Arena::AllocateNewBlock`. -/
def allocateNewBlock (heap : Heap) (blockBytes : Nat) (a : Arena) : Nat × Arena :=
  let result := heap.new a.blocks blockBytes
  (result, { a with
    blocks := a.blocks ++ [⟨result, blockBytes⟩]
    memoryUsage := (a.memoryUsage + (blockBytes + sizeofPointer) % sizeRange) % sizeRange })

/-- `Arena::AllocateFallback`. -/
def allocateFallback (heap : Heap) (bytes : Nat) (a : Arena) : Nat × Arena :=
  if kBlockSize / 4 < bytes then a.allocateNewBlock heap bytes
  else
    -- the remaining space in the current block is wasted
    let (result, a) := a.allocateNewBlock heap kBlockSize
    (result, { a with
      allocPtr := result + bytes
      allocBytesRemaining := kBlockSize - bytes })

/-- `Arena::Allocate`. -/
def allocate (heap : Heap) (bytes : Nat) (a : Arena) : Nat × Arena :=
  if bytes ≤ a.allocBytesRemaining then
    (a.allocPtr, { a with
      allocPtr := a.allocPtr + bytes
      allocBytesRemaining := a.allocBytesRemaining - bytes })
  else a.allocateFallback heap bytes

/-- `align` in `AllocateAligned`. -/
def align : Nat := if 8 < sizeofPointer then sizeofPointer else 8

/-- `slop` in `AllocateAligned`. -/
def slop (a : Arena) : Nat :=
  let currentMod := a.allocPtr &&& (align - 1)
  if currentMod = 0 then 0 else align - currentMod

/-- `Arena::AllocateAligned`. -/
def allocateAligned (heap : Heap) (bytes : Nat) (a : Arena) : Nat × Arena :=
  let needed := (bytes + a.slop) % sizeRange
  if needed ≤ a.allocBytesRemaining then
    (a.allocPtr + a.slop, { a with
      allocPtr := a.allocPtr + needed
      allocBytesRemaining := a.allocBytesRemaining - needed })
  else a.allocateFallback heap bytes

end Arena

/-! ## Runs -/

/-- A request. -/
inductive Call where
  | allocate (bytes : Nat)
  | allocateAligned (bytes : Nat)
  deriving DecidableEq

/-- The bytes asked for. -/
def Call.bytes : Call → Nat
  | .allocate bytes => bytes
  | .allocateAligned bytes => bytes

/-- The size a request compares with what is left: aligned ones count their slop. -/
def Call.needed (a : Arena) : Call → Nat
  | .allocate bytes => bytes
  | .allocateAligned bytes => bytes + a.slop

/-- The address returned and the arena afterwards. -/
def Arena.call (heap : Heap) (a : Arena) : Call → Nat × Arena
  | .allocate bytes => a.allocate heap bytes
  | .allocateAligned bytes => a.allocateAligned heap bytes

/-- The range a request got. -/
def range (r : Call × Nat) : Region := ⟨r.2, r.1.bytes⟩

/-- **Runs**: the requests with the addresses they got, the last one first.  Requests are
    not empty, and what they need is a `size_t`. -/
inductive Reach (heap : Heap) : List (Call × Nat) → Arena → Prop where
  | new : Reach heap [] Arena.new
  | call {results : List (Call × Nat)} {a : Arena} (c : Call) (h : Reach heap results a)
      (hpos : 1 ≤ c.bytes) (hfits : c.needed a < sizeRange) :
      Reach heap ((c, (a.call heap c).1) :: results) (a.call heap c).2

/-- The bytes of the blocks and of the pointers to them. -/
def owned (blocks : List Region) : Nat := (blocks.map fun b => b.size + sizeofPointer).sum

/-- **What the users of an arena rely on**: each range lies in one block of the arena,
    two ranges share no byte, those asked to be aligned are, and the usage is the
    size of the blocks and of the pointers to them, if that is a `size_t`. -/
structure Sound (results : List (Call × Nat)) (a : Arena) : Prop where
  inside : ∀ r ∈ results, ∃ b ∈ a.blocks, (range r).bytes ⊆ b.bytes
  apart : results.Pairwise fun r s => Disjoint (range r).bytes (range s).bytes
  aligned : ∀ n p, (Call.allocateAligned n, p) ∈ results → 8 ∣ p
  usage : owned a.blocks < sizeRange → a.memoryUsage = owned a.blocks

/-! ## The invariant -/

/-- The bytes of the current block that are left. -/
def Arena.free (a : Arena) : Region := ⟨a.allocPtr, a.allocBytesRemaining⟩

/-- What is left lies in one block, away from the ranges handed out. -/
structure Inv (results : List (Call × Nat)) (a : Arena) : Prop where
  inside : ∀ r ∈ results, ∃ b ∈ a.blocks, (range r).bytes ⊆ b.bytes
  apart : results.Pairwise fun r s => Disjoint (range r).bytes (range s).bytes
  free : a.allocBytesRemaining ≠ 0 → ∃ b ∈ a.blocks, a.free.bytes ⊆ b.bytes
  unused : ∀ r ∈ results, Disjoint (range r).bytes a.free.bytes
  usage : a.memoryUsage = owned a.blocks % sizeRange

theorem inv_new : Inv [] Arena.new where
  inside := nofun
  apart := List.Pairwise.nil
  free h := absurd rfl h
  unused := nofun
  usage := rfl

section Steps

variable {heap : Heap} {results : List (Call × Nat)} {a : Arena} {c : Call}

section

variable (h : Inv results a)
include h

/-- **Cutting a range** from the bytes that are left, behind `skip` bytes. -/
theorem Inv.cut {skip k : Nat} (hk : skip + c.bytes = k) (hle : k ≤ a.allocBytesRemaining)
    (hpos : 1 ≤ c.bytes) :
    Inv ((c, a.allocPtr + skip) :: results)
      { a with
        allocPtr := a.allocPtr + k
        allocBytesRemaining := a.allocBytesRemaining - k } := by
  have hrange : (range (c, a.allocPtr + skip)).bytes ⊆ a.free.bytes :=
    Set.Ico_subset_Ico (by simp only [range, Arena.free]; omega)
      (by simp only [range, Arena.free]; omega)
  have hrest : Set.Ico (a.allocPtr + k) (a.allocPtr + k + (a.allocBytesRemaining - k))
      ⊆ a.free.bytes :=
    Set.Ico_subset_Ico (by simp only [Arena.free]; omega) (by simp only [Arena.free]; omega)
  obtain ⟨b, hb, hfree⟩ := h.free (by omega)
  refine
    { inside := List.forall_mem_cons.mpr ⟨⟨b, hb, hrange.trans hfree⟩, h.inside⟩
      apart := List.pairwise_cons.mpr ⟨fun r hr => ?_, h.apart⟩
      free := fun _ => ⟨b, hb, hrest.trans hfree⟩
      unused := List.forall_mem_cons.mpr ⟨?_, fun r hr => ?_⟩
      usage := h.usage }
  · exact ((h.unused r hr).mono_right hrange).symm
  · refine Set.disjoint_left.mpr fun x hx hx' => ?_
    have h1 := (Set.mem_Ico.mp hx).2
    have h2 := (Set.mem_Ico.mp hx').1
    simp only [range] at h1
    simp only [Arena.free] at h2
    omega
  · exact (h.unused r hr).mono_right hrest

/-- **A new block** meets nothing that was handed out or is left. -/
theorem Inv.newBlock_apart (heap : Heap) (n : Nat) :
    (∀ r ∈ results, Disjoint (Region.bytes ⟨heap.new a.blocks n, n⟩) (range r).bytes)
      ∧ Disjoint (Region.bytes ⟨heap.new a.blocks n, n⟩) a.free.bytes := by
  refine ⟨fun r hr => ?_, ?_⟩
  · obtain ⟨b, hb, hsub⟩ := h.inside r hr
    exact (heap.fresh a.blocks n b hb).mono_right hsub
  · by_cases hz : a.allocBytesRemaining = 0
    · have hempty : a.free.bytes = ∅ := by
        rw [Region.bytes, Arena.free, hz]
        exact Set.Ico_self _
      rw [hempty]
      exact Set.disjoint_empty _
    · obtain ⟨b, hb, hsub⟩ := h.free hz
      exact (heap.fresh a.blocks n b hb).mono_right hsub

theorem Inv.allocateNewBlock (heap : Heap) (n : Nat) :
    Inv results (a.allocateNewBlock heap n).2 where
  inside r hr := by
    obtain ⟨b, hb, hsub⟩ := h.inside r hr
    exact ⟨b, List.mem_append_left _ hb, hsub⟩
  apart := h.apart
  free hne := by
    obtain ⟨b, hb, hsub⟩ := h.free hne
    exact ⟨b, List.mem_append_left _ hb, hsub⟩
  unused := h.unused
  usage := by
    show (a.memoryUsage + (n + sizeofPointer) % sizeRange) % sizeRange = _
    simp only [Arena.allocateNewBlock, owned, h.usage, List.map_append, List.map_cons,
      List.map_nil, List.sum_append, List.sum_singleton, Nat.mod_add_mod, Nat.add_mod_mod]

/-- A request that gets a block of its own. -/
theorem Inv.separate :
    Inv ((c, (a.allocateNewBlock heap c.bytes).1) :: results)
      (a.allocateNewBlock heap c.bytes).2 := by
  obtain ⟨hresults, hfree⟩ := h.newBlock_apart heap c.bytes
  have hnew := h.allocateNewBlock heap c.bytes
  exact
    { inside := List.forall_mem_cons.mpr
        ⟨⟨_, List.mem_append_right _ (List.mem_singleton_self _), subset_rfl⟩, hnew.inside⟩
      apart := List.pairwise_cons.mpr ⟨hresults, h.apart⟩
      free := hnew.free
      unused := List.forall_mem_cons.mpr ⟨hfree, h.unused⟩
      usage := hnew.usage }

/-- The current block is given up for a new one. -/
theorem Inv.refill (heap : Heap) :
    Inv results { (a.allocateNewBlock heap kBlockSize).2 with
      allocPtr := (a.allocateNewBlock heap kBlockSize).1
      allocBytesRemaining := kBlockSize } :=
  { h.allocateNewBlock heap kBlockSize with
    free := fun _ => ⟨_, List.mem_append_right _ (List.mem_singleton_self _), subset_rfl⟩
    unused := fun r hr => ((h.newBlock_apart heap kBlockSize).1 r hr).symm }

theorem Inv.allocateFallback (hpos : 1 ≤ c.bytes) :
    Inv ((c, (a.allocateFallback heap c.bytes).1) :: results)
      (a.allocateFallback heap c.bytes).2 := by
  rw [Arena.allocateFallback]
  split_ifs with hlarge
  · exact h.separate
  · have hsmall : c.bytes ≤ kBlockSize := by
      rw [kBlockSize] at hlarge ⊢
      omega
    exact (h.refill heap).cut (Nat.zero_add _) hsmall hpos

/-- **A request keeps the invariant.** -/
theorem Inv.call (hpos : 1 ≤ c.bytes) (hfits : c.needed a < sizeRange) :
    Inv ((c, (a.call heap c).1) :: results) (a.call heap c).2 := by
  cases c with
  | allocate n =>
    rw [Arena.call, Arena.allocate]
    split_ifs with hle
    · exact h.cut (Nat.zero_add _) hle hpos
    · exact h.allocateFallback (c := .allocate n) hpos
  | allocateAligned n =>
    have hneeded : (n + a.slop) % sizeRange = n + a.slop := Nat.mod_eq_of_lt hfits
    rw [Arena.call, Arena.allocateAligned, hneeded]
    split_ifs with hle
    · exact h.cut (Nat.add_comm _ _) hle hpos
    · exact h.allocateFallback (c := .allocateAligned n) hpos

end

/-! ## Alignment -/

/-- The slop leads to the next aligned address. -/
theorem dvd_allocPtr_add_slop (a : Arena) : 8 ∣ a.allocPtr + a.slop := by
  have hmod : a.allocPtr &&& 7 = a.allocPtr % 8 := Nat.and_two_pow_sub_one_eq_mod a.allocPtr 3
  have halign : Arena.align = 8 := rfl
  simp only [Arena.slop, halign, Nat.reduceSub, hmod]
  split_ifs <;> omega

/-- `AllocateFallback` always returns the beginning of a block. -/
theorem dvd_allocateFallback (n : Nat) : 8 ∣ (a.allocateFallback heap n).1 := by
  rw [Arena.allocateFallback]
  split_ifs
  · exact heap.aligned _ _
  · exact heap.aligned _ _

theorem dvd_allocateAligned (n : Nat) : 8 ∣ (a.allocateAligned heap n).1 := by
  rw [Arena.allocateAligned]
  split_ifs
  · exact dvd_allocPtr_add_slop a
  · exact dvd_allocateFallback n

theorem inv_reach (h : Reach heap results a) : Inv results a := by
  induction h with
  | new => exact inv_new
  | call c _ hpos hfits ih => exact ih.call hpos hfits

theorem aligned_reach (h : Reach heap results a) :
    ∀ n p, (Call.allocateAligned n, p) ∈ results → 8 ∣ p := by
  induction h with
  | new => exact nofun
  | call c _ _ _ ih =>
    intro n p hp
    rcases List.mem_cons.mp hp with heq | hp
    · obtain ⟨rfl, rfl⟩ := Prod.mk.inj heq
      exact dvd_allocateAligned n
    · exact ih n p hp

end Steps

/-- **Allocations never overlap**, in any sequence of requests and over any allocator. -/
theorem allocations_sound {heap : Heap} {results : List (Call × Nat)} {a : Arena}
    (h : Reach heap results a) : Sound results a where
  inside := (inv_reach h).inside
  apart := (inv_reach h).apart
  aligned := aligned_reach h
  usage hlt := (inv_reach h).usage.trans (Nat.mod_eq_of_lt hlt)

/-- The allocator that puts a region behind all earlier ones. -/
def stackedHeap : Heap where
  new earlier _ := 8 * ((earlier.map fun r => r.start + r.size).sum + 1)
  aligned _ _ := Nat.dvd_mul_right _ _
  fresh earlier n r hr := by
    have hle : r.start + r.size ≤ (earlier.map fun r => r.start + r.size).sum :=
      List.le_sum_of_mem (List.mem_map_of_mem hr)
    refine Set.disjoint_left.mpr fun x hx hx' => ?_
    have h1 := (Set.mem_Ico.mp hx).1
    have h2 := (Set.mem_Ico.mp hx').2
    simp only at h1
    omega

/-- An aligned request behind an unaligned one, and a large one that leaves the current
    block in use. -/
theorem allocations_sound_sample :
    ∃ a, Sound [(.allocateAligned 5, 24), (.allocate 5000, 32840), (.allocateAligned 5, 16),
        (.allocate 3, 8)] a
      ∧ a.memoryUsage = 9112 := by
  have h1 : Reach stackedHeap [(.allocate 3, 8)] _ :=
    Reach.new.call (.allocate 3) (by decide) (by decide)
  have h2 := h1.call (.allocateAligned 5) (by decide) (by decide)
  have h3 := h2.call (.allocate 5000) (by decide) (by decide)
  have h4 := h3.call (.allocateAligned 5) (by decide) (by decide)
  refine ⟨_, allocations_sound h4, ?_⟩
  rfl

end LdbArena
