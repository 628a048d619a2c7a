import Mathlib.Algebra.Ring.Nat
import Mathlib.Tactic.Common

/-!
# Levels in one array

An array holds levels of given sizes, one behind the other, and is filled by steps that each
compute a cell from two others. Steps that take the cells in order and read only cells before their
own fill the array without reading a cell that was not written (`runAll_filled`).
-/

namespace LevelArray

/-- Cell `c` is on level `k` of levels of the given sizes. -/
def OnLevel (sizes : List Nat) (k c : Nat) : Prop :=
  (sizes.take k).sum ≤ c ∧ c < (sizes.take (k + 1)).sum

section Levels

variable {sizes : List Nat} {size k k' c c' : Nat}

theorem onLevel_zero : OnLevel (size :: sizes) 0 c ↔ c < size := by
  simp [OnLevel]

variable (size) in
theorem onLevel_succ : OnLevel (size :: sizes) (k + 1) (size + c) ↔ OnLevel sizes k c := by
  simp [OnLevel]

/-- Every cell of a level is before every cell of the next. -/
theorem OnLevel.lt (below : OnLevel sizes k c) (above : OnLevel sizes (k + 1) c') : c < c' :=
  Nat.lt_of_lt_of_le below.2 above.1

end Levels

/-- The sizes of the levels when nodes are paired up until one is left, an odd one out with
itself. -/
def halvings (n : Nat) : List Nat :=
  if n ≤ 1 then [n] else n :: halvings ((n + 1) / 2)
termination_by n

theorem halvings_eq_cons (n : Nat) : ∃ higher, halvings n = n :: higher := by
  rw [halvings]
  by_cases one : n ≤ 1
  · exact ⟨[], if_pos one⟩
  · exact ⟨_, if_neg one⟩

/-- A step writes the cell `node` with what it computes from the cells `left` and `right`. -/
structure Step where
  left : Nat
  right : Nat
  node : Nat
  deriving DecidableEq

section Run

variable {ε α : Type} (fault : ε) (f : α → α → α)

/-- One step, if the cells it reads are written and the one it writes is there. -/
def Step.run (step : Step) (cells : List (Option α)) : Except ε (List (Option α)) :=
  match cells[step.left]?.join, cells[step.right]?.join with
  | some left, some right =>
    if step.node < cells.length then .ok (cells.set step.node (some (f left right)))
    else .error fault
  | _, _ => .error fault

def runAll : List Step → List (Option α) → Except ε (List (Option α))
  | [], cells => .ok cells
  | step :: steps, cells => step.run fault f cells >>= runAll steps

/-- The first `m` cells are written. -/
def Filled (cells : List (Option α)) (m : Nat) : Prop := ∀ k < m, ∃ a, cells[k]? = some (some a)

/-- The steps write the cells from `m` on, in order, and read only cells before their own. -/
def Ordered (m : Nat) (steps : List Step) : Prop :=
  steps.map Step.node = List.range' m steps.length ∧
    ∀ step ∈ steps, step.left < step.node ∧ step.right < step.node

variable {fault f} {step : Step} {steps before after : List Step} {cells cells' : List (Option α)}
  {m c : Nat}

theorem runAll_append :
    runAll fault f (before ++ after) cells = runAll fault f before cells >>= runAll fault f after := by
  induction before generalizing cells with
  | nil => rfl
  | cons step before ih =>
    simp only [List.cons_append, runAll]
    cases step.run fault f cells with
    | error e => rfl
    | ok cells => exact ih

theorem ordered_cons :
    Ordered m (step :: steps) ↔
      (step.node = m ∧ step.left < m ∧ step.right < m) ∧ Ordered (m + 1) steps := by
  unfold Ordered
  simp only [List.map_cons, List.length_cons, List.range'_succ, List.cons.injEq,
    List.forall_mem_cons]
  constructor
  · rintro ⟨⟨rfl, nodes⟩, below, rest⟩
    exact ⟨⟨rfl, below⟩, nodes, rest⟩
  · rintro ⟨⟨rfl, below⟩, nodes, rest⟩
    exact ⟨⟨rfl, nodes⟩, below, rest⟩

/-- What a step reads was there at the start or written by a step before it. -/
theorem Ordered.written (ordered : Ordered m (before ++ step :: after)) (below : c < step.node) :
    c < m ∨ c ∈ before.map Step.node := by
  induction before generalizing m with
  | nil =>
    obtain ⟨⟨rfl, -⟩, -⟩ := ordered_cons.mp ordered
    exact Or.inl below
  | cons first before ih =>
    obtain ⟨⟨rfl, -⟩, rest⟩ := ordered_cons.mp ordered
    rw [List.map_cons, List.mem_cons]
    rcases ih rest with old | new
    · omega
    · exact Or.inr (Or.inr new)

variable (fault f) in
theorem Step.run_filled (filled : Filled cells m) (node : step.node = m)
    (left : step.left < m) (right : step.right < m) (room : m < cells.length) :
    ∃ cells', step.run fault f cells = .ok cells' ∧ cells'.length = cells.length ∧
      Filled cells' (m + 1) := by
  obtain ⟨a, readLeft⟩ := filled _ left
  obtain ⟨b, readRight⟩ := filled _ right
  refine ⟨cells.set m (some (f a b)), ?_, List.length_set, ?_⟩
  · simp [Step.run, readLeft, readRight, node, room]
  · intro k below
    by_cases here : k = m
    · subst here
      exact ⟨f a b, List.getElem?_set_self room⟩
    · obtain ⟨old, was⟩ := filled k (by omega)
      exact ⟨old, by rw [List.getElem?_set_ne (Ne.symm here), was]⟩

variable (fault f) in
/-- Ordered steps over an array that is written up to where they begin all succeed, and leave it
written up to where they end. -/
theorem runAll_filled (ordered : Ordered m steps) (filled : Filled cells m)
    (room : m + steps.length ≤ cells.length) :
    ∃ cells', runAll fault f steps cells = .ok cells' ∧ cells'.length = cells.length ∧
      Filled cells' (m + steps.length) := by
  induction steps generalizing m cells with
  | nil => exact ⟨cells, rfl, rfl, filled⟩
  | cons step steps ih =>
    rw [List.length_cons] at room ⊢
    obtain ⟨⟨node, left, right⟩, rest⟩ := ordered_cons.mp ordered
    obtain ⟨cells1, ran, length, filled⟩ :=
      Step.run_filled fault f filled node left right (by omega)
    obtain ⟨cells2, others, length', filled⟩ := ih rest filled (by omega)
    refine ⟨cells2, ?_, length'.trans length, ?_⟩
    · rw [runAll, ran]
      exact others
    · rwa [Nat.add_assoc, Nat.add_comm 1] at filled

end Run

end LevelArray
