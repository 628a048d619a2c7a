import Mathlib.Data.Nat.Basic
import Mathlib.Tactic.Common

/-!
# Turns of a loop

`Turns turn k a b` says that `k` turns of a loop lead from `a` to `b`. When every turn adds to a
measure that no turn takes past a bound, the loop cannot take many turns, however it is run and
whatever else a turn changes (`Turns.count_le`).
-/

/-- `k` turns lead from `a` to `b`. -/
inductive Turns {α : Type} (turn : α → α → Prop) : Nat → α → α → Prop where
  | none (a : α) : Turns turn 0 a a
  | next {k : Nat} {a b c : α} (first : turn a b) (rest : Turns turn k b c) :
      Turns turn (k + 1) a c

namespace Turns

variable {α : Type} {turn : α → α → Prop} (measure : α → Nat) {step bound k : Nat} {a b : α}

/-- What each turn adds, the turns add together. -/
theorem measure_le (grows : ∀ a b, turn a b → measure a + step ≤ measure b)
    (turns : Turns turn k a b) : measure a + step * k ≤ measure b := by
  induction turns with
  | none a => simp
  | @next k a b c first rest ih =>
    have here := grows a b first
    rw [Nat.mul_succ]
    omega

/-- A turn that leads to a bounded measure is the last of any number of turns. -/
theorem last_le (bounded : ∀ a b, turn a b → measure b ≤ bound) (turns : Turns turn k a b) :
    k = 0 ∨ measure b ≤ bound := by
  induction turns with
  | none a => exact Or.inl rfl
  | next first rest ih =>
    right
    rcases ih with rfl | le
    · cases rest
      exact bounded _ _ first
    · exact le

/-- A bounded measure that grows bounds the number of turns. -/
theorem count_le (pos : 0 < step) (grows : ∀ a b, turn a b → measure a + step ≤ measure b)
    (bounded : ∀ a b, turn a b → measure b ≤ bound) (turns : Turns turn k a b) :
    k ≤ bound / step := by
  rcases turns.last_le measure bounded with rfl | le
  · exact Nat.zero_le _
  · have grown := turns.measure_le measure grows
    rw [Nat.le_div_iff_mul_le pos, Nat.mul_comm]
    omega

end Turns
