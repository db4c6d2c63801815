import Mathlib.Data.List.Basic
import Mathlib.Data.List.TakeWhile

/-! # Skip lists

    A skip list as its nodes in the order of the lowest level, each with its height:
    a node is linked into the levels below its height.  A place in the list is given
    by the nodes behind it, so the successor of a place on a level is the first node
    behind it that is high enough.

    The search walks as far as it can on each level from the top down.  Whatever the
    heights are, it finds the first node that is not less than the key
    (`findGreaterOrEqual_eq`). -/

namespace SkipLists

variable {K : Type}

/-- A node, with the number of levels it is linked into. -/
structure Node (K : Type) where
  key : K
  height : Nat
  deriving DecidableEq

/-- The nodes from the successor of a place on a level on. -/
def next (level : Nat) (rest : List (Node K)) : List (Node K) :=
  rest.dropWhile fun n => decide (n.height ≤ level)

theorem next_suffix (level : Nat) (rest : List (Node K)) : next level rest <:+ rest :=
  List.dropWhile_suffix _

/-- The search for the first node that is not less than `key`, from a place and a
    level on. -/
def findGreaterOrEqual (lt : K → K → Bool) (key : K) (level : Nat) (rest : List (Node K)) :
    List (Node K) :=
  match h : next level rest with
  | n :: after =>
    if lt n.key key = true then findGreaterOrEqual lt key level after
    else if level = 0 then n :: after
    else findGreaterOrEqual lt key (level - 1) rest
  | [] => if level = 0 then [] else findGreaterOrEqual lt key (level - 1) rest
termination_by (level, rest.length)
decreasing_by
  · apply Prod.Lex.right
    have hlen := (next_suffix level rest).length_le
    rw [h, List.length_cons] at hlen
    omega
  · apply Prod.Lex.left
    omega
  · apply Prod.Lex.left
    omega

/-- A skip list: every node is on the lowest level, and none is higher than the
    highest level in use. -/
structure SkipList (K : Type) where
  nodes : List (Node K)
  maxHeight : Nat
  onLowest : ∀ n ∈ nodes, 0 < n.height
  bounded : ∀ n ∈ nodes, n.height ≤ maxHeight

/-- A list without nodes. -/
def SkipList.empty (K : Type) : SkipList K where
  nodes := []
  maxHeight := 1
  onLowest _ hn := nomatch hn
  bounded _ hn := nomatch hn

/-- The search from the head of the list. -/
def SkipList.seek (lt : K → K → Bool) (key : K) (l : SkipList K) : List (Node K) :=
  findGreaterOrEqual lt key (l.maxHeight - 1) l.nodes

section Search

variable {lt : K → K → Bool} {key : K}

/-- The nodes a level leaves out, then the rest. -/
theorem next_split (level : Nat) (rest : List (Node K)) :
    ∃ skipped, rest = skipped ++ next level rest ∧ ∀ n ∈ skipped, n.height ≤ level := by
  refine ⟨rest.takeWhile fun n => decide (n.height ≤ level), ?_, fun n hn => ?_⟩
  · exact (List.takeWhile_append_dropWhile ..).symm
  · have h := List.mem_takeWhile_imp hn
    exact of_decide_eq_true h

/-- The lowest level leaves nothing out. -/
theorem next_zero {rest : List (Node K)} (h : ∀ n ∈ rest, 0 < n.height) : next 0 rest = rest := by
  cases rest with
  | nil => rfl
  | cons n rest =>
    have := h n List.mem_cons_self
    rw [next, List.dropWhile_cons_of_neg (by simp only [decide_eq_true_eq]; omega)]

/-- **The search finds the first node that is not less than the key**, whatever the
    heights of the nodes are and from whichever level it starts. -/
theorem findGreaterOrEqual_eq (htrans : ∀ a b c, lt a b = true → lt b c = true → lt a c = true)
    (level : Nat) (rest : List (Node K))
    (hsorted : rest.Pairwise fun a b => lt a.key b.key = true) (hlow : ∀ n ∈ rest, 0 < n.height) :
    findGreaterOrEqual lt key level rest = rest.dropWhile fun n => lt n.key key := by
  fun_induction findGreaterOrEqual lt key level rest with
  | case1 level rest n after h hlt ih =>
    obtain ⟨skipped, hsplit, -⟩ := next_split level rest
    rw [h] at hsplit
    have hall : ∀ m ∈ skipped ++ [n], lt m.key key = true := by
      intro m hm
      rcases List.mem_append.mp hm with hm | hm
      · rw [hsplit] at hsorted
        exact htrans _ _ _ ((List.pairwise_append.mp hsorted).2.2 m hm n List.mem_cons_self) hlt
      · rw [List.mem_singleton.mp hm]
        exact hlt
    have hafter : after <:+ rest := ⟨skipped ++ [n], by rw [hsplit]; simp⟩
    rw [ih (hsorted.sublist hafter.sublist) fun m hm => hlow m (hafter.subset hm), hsplit,
      List.append_cons, List.dropWhile_append_of_pos hall]
  | case2 rest n after hlt h =>
    rw [next_zero hlow] at h
    rw [h, List.dropWhile_cons, if_neg hlt]
  | case3 level rest n after h hlt hlevel ih => exact ih hsorted hlow
  | case4 rest h =>
    rw [next_zero hlow] at h
    rw [h]
    rfl
  | case5 level rest h hlevel ih => exact ih hsorted hlow

/-- The search from the head of a sorted list. -/
theorem SkipList.seek_eq (htrans : ∀ a b c, lt a b = true → lt b c = true → lt a c = true)
    (l : SkipList K) (hsorted : l.nodes.Pairwise fun a b => lt a.key b.key = true) :
    l.seek lt key = l.nodes.dropWhile fun n => lt n.key key :=
  findGreaterOrEqual_eq htrans _ _ hsorted l.onLowest

end Search

/-! ## Insertion -/

/-- The search ends at nodes of the list. -/
theorem findGreaterOrEqual_suffix (lt : K → K → Bool) (key : K) (level : Nat)
    (rest : List (Node K)) : findGreaterOrEqual lt key level rest <:+ rest := by
  fun_induction findGreaterOrEqual lt key level rest with
  | case1 level rest n after h hlt ih =>
    exact ih.trans ((List.suffix_cons n after).trans (h ▸ next_suffix level rest))
  | case2 rest n after hlt h => exact h ▸ next_suffix 0 rest
  | case3 level rest n after h hlt hlevel ih => exact ih
  | case4 rest h => exact List.nil_suffix
  | case5 level rest h hlevel ih => exact ih

theorem mem_linked {xs place : List (Node K)} {n m : Node K} (hplace : place <:+ xs) {i : Nat}
    (hm : m ∈ xs.take i ++ n :: place) : m ∈ xs ∨ m = n := by
  rcases List.mem_append.mp hm with hm | hm
  · exact Or.inl (List.mem_of_mem_take hm)
  · rcases List.mem_cons.mp hm with hm | hm
    · exact Or.inr hm
    · exact Or.inl (hplace.subset hm)

/-- Link a node in front of the place the search for its key finds. -/
def SkipList.insert (lt : K → K → Bool) (n : Node K) (h : 0 < n.height) (l : SkipList K) :
    SkipList K where
  nodes := l.nodes.take (l.nodes.length - (l.seek lt n.key).length) ++ n :: l.seek lt n.key
  maxHeight := max l.maxHeight n.height
  onLowest := fun m hm => by
    rcases mem_linked (findGreaterOrEqual_suffix ..) hm with hm | rfl
    · exact l.onLowest m hm
    · exact h
  bounded := fun m hm => by
    rcases mem_linked (findGreaterOrEqual_suffix ..) hm with hm | rfl
    · exact le_trans (l.bounded m hm) (le_max_left ..)
    · exact le_max_right ..

/-- In a sorted list, the new node follows the smaller keys and precedes the others. -/
theorem SkipList.insert_nodes {lt : K → K → Bool}
    (htrans : ∀ a b c, lt a b = true → lt b c = true → lt a c = true) (n : Node K)
    (h : 0 < n.height) (l : SkipList K)
    (hsorted : l.nodes.Pairwise fun a b => lt a.key b.key = true) :
    (l.insert lt n h).nodes =
      l.nodes.takeWhile (fun m => lt m.key n.key) ++
        n :: l.nodes.dropWhile (fun m => lt m.key n.key) := by
  have hsplit := List.takeWhile_append_dropWhile (p := fun m => lt m.key n.key) (l := l.nodes)
  have hlen := congrArg List.length hsplit
  rw [List.length_append] at hlen
  show l.nodes.take (l.nodes.length - (l.seek lt n.key).length) ++ n :: l.seek lt n.key = _
  rw [SkipList.seek_eq htrans l hsorted]
  congr 1
  rw [← hlen, Nat.add_sub_cancel]
  exact (List.prefix_iff_eq_take.mp (List.takeWhile_prefix _)).symm

end SkipLists
