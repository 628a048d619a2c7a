import Mathlib.Algebra.Ring.Nat
import Mathlib.Data.Nat.Log
import Mathlib.Tactic.Common

/-!
# Trees by pairing up

A list is folded level by level: neighbours are combined, an odd one out with itself, until one
value is left. The fold over the free operation is a perfect tree, from which the fold over any
other operation is read off; the fold over concatenation is the list completed to a power of
two, with the last subtree of every odd level written out twice. When the operation tells apart
the pairs it is applied to, lists of one height have equal folds exactly when their completions
are equal (`root_eq_iff`).
-/

namespace PairTree

variable {α β : Type}

/-- The next level: neighbours combined, an odd one out with itself. -/
def pairUp (f : α → α → α) : List α → List α
  | [] => []
  | [last] => [f last last]
  | left :: right :: rest => f left right :: pairUp f rest

/-- The pairs the next level combines. -/
def pairs : List α → List (α × α)
  | [] => []
  | [last] => [(last, last)]
  | left :: right :: rest => (left, right) :: pairs rest

theorem length_pairUp (f : α → α → α) : ∀ l, (pairUp f l).length = (l.length + 1) / 2
  | [] => by simp [pairUp]
  | [_] => by simp [pairUp]
  | _ :: _ :: rest => by
    rw [pairUp, List.length_cons, length_pairUp f rest]
    simp only [List.length_cons]
    omega

/-- The value left at the end, if there is any. -/
def root (f : α → α → α) : List α → Option α
  | [] => none
  | [last] => some last
  | left :: right :: rest => root f (pairUp f (left :: right :: rest))
termination_by l => l.length
decreasing_by
  rw [length_pairUp]
  simp only [List.length_cons]
  omega

/-- All pairs combined on the way to the root. -/
def combined (f : α → α → α) : List α → List (α × α)
  | [] => []
  | [_] => []
  | left :: right :: rest =>
    pairs (left :: right :: rest) ++ combined f (pairUp f (left :: right :: rest))
termination_by l => l.length
decreasing_by
  rw [length_pairUp]
  simp only [List.length_cons]
  omega

theorem pairUp_ne_nil {f : α → α → α} {l : List α} (some : l ≠ []) : pairUp f l ≠ [] := by
  match l with
  | [] => exact absurd rfl some
  | [last] => simp [pairUp]
  | left :: right :: rest => simp [pairUp]

theorem root_isSome {f : α → α → α} {l : List α} (some : l ≠ []) : (root f l).isSome := by
  fun_induction root f l with
  | case1 => exact absurd rfl some
  | case2 last => rfl
  | case3 left right rest ih => exact ih (pairUp_ne_nil some)

section Map

variable {f : α → α → α} {g : β → β → β} {φ : α → β}

theorem pairUp_map (hom : ∀ a b, φ (f a b) = g (φ a) (φ b)) :
    ∀ l, pairUp g (l.map φ) = (pairUp f l).map φ
  | [] => rfl
  | [_] => by simp [pairUp, hom]
  | _ :: _ :: rest => by simp [pairUp, hom, pairUp_map hom rest]

theorem root_map (hom : ∀ a b, φ (f a b) = g (φ a) (φ b)) (l : List α) :
    root g (l.map φ) = (root f l).map φ := by
  fun_induction root f l with
  | case1 => simp [root]
  | case2 last => simp [root]
  | case3 left right rest ih =>
    rw [← ih, ← pairUp_map hom, List.map_cons, List.map_cons, root]

end Map

inductive Tree (α : Type) where
  | leaf (a : α)
  | node (left right : Tree α)

namespace Tree

/-- The value of a tree under an operation. -/
def fold (f : α → α → α) : Tree α → α
  | leaf a => a
  | node left right => f (left.fold f) (right.fold f)

def leaves : Tree α → List α
  | leaf a => [a]
  | node left right => left.leaves ++ right.leaves

/-- The pairs combined on the way to the value. -/
def combined (f : α → α → α) : Tree α → List (α × α)
  | leaf _ => []
  | node left right =>
    (left.fold f, right.fold f) :: (left.combined f ++ right.combined f)

/-- All leaves are at the given depth. -/
inductive Perfect : Nat → Tree α → Prop where
  | leaf (a : α) : Perfect 0 (leaf a)
  | node {h : Nat} {left right : Tree α} (onLeft : Perfect h left) (onRight : Perfect h right) :
      Perfect (h + 1) (node left right)

namespace Perfect

variable {h : Nat} {s t : Tree α}

theorem length_leaves (perfect : Perfect h t) : t.leaves.length = 2 ^ h := by
  induction perfect with
  | leaf a => rfl
  | node _ _ ihLeft ihRight =>
    rw [leaves, List.length_append, ihLeft, ihRight, Nat.pow_succ, Nat.mul_two]

/-- A perfect tree is determined by its leaves. -/
theorem eq_of_leaves (perfect : Perfect h s) (perfect' : Perfect h t)
    (same : s.leaves = t.leaves) : s = t := by
  induction perfect generalizing t with
  | leaf a =>
    cases perfect'
    simpa [leaves] using same
  | node onLeft onRight ihLeft ihRight =>
    cases perfect' with
    | node onLeft' onRight' =>
      have length := onLeft.length_leaves.trans onLeft'.length_leaves.symm
      obtain ⟨sameLeft, sameRight⟩ := List.append_inj same length
      rw [ihLeft onLeft' sameLeft, ihRight onRight' sameRight]

/-- When the operation tells apart the pairs of two perfect trees, so does the value. -/
theorem eq_of_fold {f : α → α → α} (perfect : Perfect h s) (perfect' : Perfect h t)
    (apart : ∀ p ∈ s.combined f, ∀ q ∈ t.combined f, f p.1 p.2 = f q.1 q.2 → p = q)
    (same : s.fold f = t.fold f) : s = t := by
  induction perfect generalizing t with
  | leaf a =>
    cases perfect'
    exact congrArg Tree.leaf same
  | node onLeft onRight ihLeft ihRight =>
    cases perfect' with
    | node onLeft' onRight' =>
      have pair := apart _ List.mem_cons_self _ List.mem_cons_self same
      obtain ⟨sameLeft, sameRight⟩ := Prod.mk.inj pair
      congr 1
      · apply ihLeft onLeft' _ sameLeft
        intro p inLeft q inLeft'
        exact apart p (List.mem_cons_of_mem _ (List.mem_append_left _ inLeft))
          q (List.mem_cons_of_mem _ (List.mem_append_left _ inLeft'))
      · apply ihRight onRight' _ sameRight
        intro p inRight q inRight'
        exact apart p (List.mem_cons_of_mem _ (List.mem_append_right _ inRight))
          q (List.mem_cons_of_mem _ (List.mem_append_right _ inRight'))

end Perfect

end Tree

/-- The tree of a list. -/
def tree (l : List α) : Option (Tree α) := root .node (l.map .leaf)

theorem root_eq_fold (f : α → α → α) (l : List α) : root f l = (tree l).map (Tree.fold f) := by
  rw [tree, ← root_map (g := f) (fun _ _ => rfl), List.map_map]
  congr 1
  exact (List.map_id l).symm

theorem tree_isSome {l : List α} (some : l ≠ []) : ∃ t, tree l = .some t := by
  apply Option.isSome_iff_exists.mp
  apply root_isSome
  simpa using some

theorem perfect_pairUp {k : Nat} : ∀ {level : List (Tree α)}, (∀ t ∈ level, t.Perfect k) →
    ∀ t ∈ pairUp .node level, t.Perfect (k + 1)
  | [], _, _, member => by cases member
  | [last], perfect, t, member => by
    cases List.mem_singleton.mp member
    have := perfect last List.mem_cons_self
    exact .node this this
  | left :: right :: rest, perfect, t, member => by
    rcases List.mem_cons.mp member with rfl | later
    · exact .node (perfect left (by simp)) (perfect right (by simp))
    · exact perfect_pairUp (fun s inRest => perfect s (by simp [inRest])) t later

theorem perfect_root {k : Nat} {level : List (Tree α)} {t : Tree α}
    (perfect : ∀ s ∈ level, s.Perfect k) (top : root .node level = some t) :
    t.Perfect (k + Nat.clog 2 level.length) := by
  fun_induction root Tree.node level generalizing k with
  | case1 => cases top
  | case2 last =>
    cases top
    simpa using perfect t List.mem_cons_self
  | case3 left right rest ih =>
    have higher := ih (perfect_pairUp perfect) top
    have many : 2 ≤ (left :: right :: rest).length := by simp
    rw [length_pairUp] at higher
    rw [Nat.clog_of_two_le (by omega) many, ← Nat.add_assoc, Nat.add_right_comm]
    exact higher

theorem perfect_tree {l : List α} {t : Tree α} (top : tree l = some t) :
    t.Perfect (Nat.clog 2 l.length) := by
  have leaves : ∀ s ∈ l.map Tree.leaf, s.Perfect 0 := by
    intro s member
    obtain ⟨a, -, rfl⟩ := List.mem_map.mp member
    exact .leaf a
  simpa using perfect_root leaves top

/-- The tree combines no other pairs than the levels do. -/
theorem combined_root {f : α → α → α} {level : List (Tree α)} {t : Tree α}
    (top : root .node level = some t) :
    ∀ p ∈ t.combined f, (∃ s ∈ level, p ∈ s.combined f) ∨
      p ∈ combined f (level.map (Tree.fold f)) := by
  fun_induction root Tree.node level with
  | case1 => cases top
  | case2 last =>
    cases top
    intro p member
    exact Or.inl ⟨t, List.mem_cons_self, member⟩
  | case3 left right rest ih =>
    have levelUp : ∀ (trees : List (Tree α)), ∀ s ∈ pairUp .node trees, ∀ p ∈ s.combined f,
        (∃ r ∈ trees, p ∈ r.combined f) ∨ p ∈ pairs (trees.map (Tree.fold f)) := by
      intro trees
      fun_induction pairUp Tree.node trees with
      | case1 => simp
      | case2 last =>
        intro s inUp p member
        cases List.mem_singleton.mp inUp
        simpa [Tree.combined, pairs, or_comm] using member
      | case3 left right rest ih =>
        intro s inUp p member
        rcases List.mem_cons.mp inUp with rfl | later
        · simp only [Tree.combined, List.mem_cons, List.mem_append] at member
          rcases member with rfl | inLeft | inRight
          · exact Or.inr (by simp [pairs])
          · exact Or.inl ⟨left, by simp, inLeft⟩
          · exact Or.inl ⟨right, by simp, inRight⟩
        · rcases ih s later p member with ⟨r, inRest, inner⟩ | inPairs
          · exact Or.inl ⟨r, by simp [inRest], inner⟩
          · exact Or.inr (by simp [pairs, inPairs])
    intro p member
    have step : combined f ((left :: right :: rest).map (Tree.fold f)) =
        pairs ((left :: right :: rest).map (Tree.fold f)) ++
          combined f ((pairUp Tree.node (left :: right :: rest)).map (Tree.fold f)) := by
      rw [← pairUp_map (g := f) (fun _ _ => rfl), List.map_cons, List.map_cons, combined]
    rw [step, List.mem_append]
    rcases ih top p member with ⟨s, inUp, inner⟩ | higher
    · rcases levelUp _ s inUp p inner with below | inPairs
      · exact Or.inl below
      · exact Or.inr (Or.inl inPairs)
    · exact Or.inr (Or.inr higher)

theorem combined_tree {f : α → α → α} {l : List α} {t : Tree α} (top : tree l = some t) :
    ∀ p ∈ t.combined f, p ∈ combined f l := by
  intro p member
  rcases combined_root top p member with ⟨s, isLeaf, inner⟩ | inLevels
  · obtain ⟨a, -, rfl⟩ := List.mem_map.mp isLeaf
    cases inner
  · have values : (l.map Tree.leaf).map (Tree.fold f) = l := by
      rw [List.map_map]
      exact List.map_id l
    rwa [values] at inLevels

/-! ## Completion -/

/-- The list with the last subtree of every odd level written out twice. -/
def complete (l : List α) : List α := (root (· ++ ·) (l.map ([·]))).getD []

theorem complete_eq_leaves {l : List α} {t : Tree α} (top : tree l = some t) :
    complete l = t.leaves := by
  have leaves : root (· ++ ·) (l.map ([·])) = (tree l).map Tree.leaves := by
    rw [tree, ← root_map (g := (· ++ ·)) (fun _ _ => rfl), List.map_map]
    rfl
  rw [complete, leaves, top]
  rfl

theorem length_complete {l : List α} (some : l ≠ []) :
    (complete l).length = 2 ^ Nat.clog 2 l.length := by
  obtain ⟨t, top⟩ := tree_isSome some
  rw [complete_eq_leaves top, (perfect_tree top).length_leaves]

theorem flatten_prefix_pairUp : ∀ level : List (List α),
    level.flatten <+: (pairUp (· ++ ·) level).flatten
  | [] => List.prefix_rfl
  | [last] => by simp [pairUp]
  | left :: right :: rest => by
    have later := flatten_prefix_pairUp rest
    simpa [pairUp] using later

theorem flatten_prefix_root {level : List (List α)} {top : List α}
    (eq : root (· ++ ·) level = some top) : level.flatten <+: top := by
  fun_induction root (· ++ · : List α → List α → List α) level with
  | case1 => cases eq
  | case2 last =>
    cases eq
    simp
  | case3 left right rest ih => exact (flatten_prefix_pairUp _).trans (ih eq)

/-- Completing a list only adds to its end. -/
theorem prefix_complete (l : List α) : l <+: complete l := by
  by_cases none : l = []
  · simp [none]
  · have singletons : (l.map ([·])).flatten = l := by
      rw [← List.flatMap_def, List.flatMap_singleton']
    have isSome : (root (· ++ ·) (l.map ([·]))).isSome := root_isSome (by simpa using none)
    obtain ⟨top, eq⟩ := Option.isSome_iff_exists.mp isSome
    rw [complete, eq, Option.getD_some]
    nth_rewrite 1 [← singletons]
    exact flatten_prefix_root eq

/-- A list is its completion up to its length. -/
theorem eq_take_complete {a b : List α} (same : complete a = complete b) :
    b = (complete a).take b.length := by
  rw [same]
  exact List.prefix_iff_eq_take.mp (prefix_complete b)

theorem eq_of_complete {a b : List α} (same : complete a = complete b)
    (length : a.length = b.length) : a = b := by
  rw [eq_take_complete same, ← length]
  exact List.prefix_iff_eq_take.mp (prefix_complete a)

/-- Lists of one height whose combined pairs the operation tells apart have one root exactly
when they have one completion. -/
theorem root_eq_iff {f : α → α → α} {a b : List α} (some : a ≠ []) (some' : b ≠ [])
    (height : Nat.clog 2 a.length = Nat.clog 2 b.length)
    (apart : ∀ p ∈ combined f a, ∀ q ∈ combined f b, f p.1 p.2 = f q.1 q.2 → p = q) :
    root f a = root f b ↔ complete a = complete b := by
  obtain ⟨s, top⟩ := tree_isSome some
  obtain ⟨t, top'⟩ := tree_isSome some'
  have perfect := perfect_tree top
  have perfect' := perfect_tree top'
  rw [← height] at perfect'
  rw [root_eq_fold, root_eq_fold, top, top', complete_eq_leaves top, complete_eq_leaves top',
    Option.map_some, Option.map_some, Option.some.injEq]
  constructor
  · intro same
    rw [perfect.eq_of_fold perfect' _ same]
    intro p member q member'
    exact apart p (combined_tree top p member) q (combined_tree top' q member')
  · intro same
    rw [perfect.eq_of_leaves perfect' same]

end PairTree
