import Mathlib.Algebra.Group.Nat.Even
import Mathlib.Data.Nat.Bitwise

/-!
# The highest bit of a number

Two ways to the powers of two around a number. A number or-ed with itself shifted by 1, 2, 4, …
gets every bit below its highest one: each shift doubles the run of ones at the top
(`TopBits.smear`). One more is then the next power of two.

Clearing the lowest bit that is set, again and again, leaves the highest one (`clearLow_ge`), after
as many turns as it has bits below it (`dvd_clearLow`).
-/

namespace RoundUp

/-- `x |= x >> n`. -/
def smear (x n : Nat) : Nat := x ||| x >>> n

/-- No bit from `e` on is set, and the `n` below are. -/
structure TopBits (x e n : Nat) : Prop where
  lt : x < 2 ^ e
  ones {i : Nat} : i < e → e ≤ i + n → x.testBit i = true

variable {x e n : Nat}

/-- The highest bit alone. -/
theorem topBits_one (lt : x < 2 ^ e) (ge : 0 < e → 2 ^ (e - 1) ≤ x) : TopBits x e 1 := by
  refine ⟨lt, ?_⟩
  intro i below top
  have last : i = e - 1 := by omega
  have size : 2 ^ e = 2 * 2 ^ (e - 1) := by
    rw [← Nat.pow_succ', Nat.succ_eq_add_one, Nat.sub_add_cancel (by omega)]
  have one : x / 2 ^ i = 1 := by
    rw [last]
    apply Nat.div_eq_of_lt_le
    · rw [Nat.one_mul]
      exact ge (by omega)
    · omega
  rw [Nat.testBit_eq_decide_div_mod_eq, one]
  rfl

theorem TopBits.smear (top : TopBits x e n) : TopBits (smear x n) e (n + n) := by
  constructor
  · apply Nat.or_lt_two_pow top.lt
    exact Nat.lt_of_le_of_lt (Nat.shiftRight_le x n) top.lt
  · intro i below inside
    rw [RoundUp.smear, Nat.testBit_or, Nat.testBit_shiftRight]
    by_cases high : e ≤ i + n
    · rw [top.ones below high, Bool.true_or]
    · rw [top.ones (by omega : n + i < e) (by omega), Bool.or_true]

theorem TopBits.eq_ones (top : TopBits x e n) (all : e ≤ n) : x + 1 = 2 ^ e := by
  have same : x = 2 ^ e - 1 := by
    apply Nat.eq_of_testBit_eq
    intro i
    rw [Nat.testBit_two_pow_sub_one]
    by_cases below : i < e
    · rw [top.ones below (by omega), decide_eq_true below]
    · rw [decide_eq_false below]
      apply Nat.testBit_lt_two_pow
      exact Nat.lt_of_lt_of_le top.lt (Nat.pow_le_pow_right (by omega) (by omega))
  have pos := Nat.two_pow_pos e
  omega

/-- `x & (x-1)`. -/
def clearLow (x : Nat) : Nat := x &&& (x - 1)

variable {m j : Nat}

theorem clearLow_odd (m : Nat) : clearLow (2 * m + 1) = 2 * m := by
  have half : clearLow (2 * m + 1) / 2 = m := by
    rw [clearLow, Nat.and_div_two, show (2 * m + 1) / 2 = m by omega,
      show (2 * m + 1 - 1) / 2 = m by omega, Nat.and_self]
  have even : clearLow (2 * m + 1) % 2 ≠ 1 := by
    rw [clearLow, Ne, Nat.and_mod_two_eq_one]
    omega
  omega

theorem clearLow_double (pos : 0 < m) : clearLow (2 * m) = 2 * clearLow m := by
  have half : clearLow (2 * m) / 2 = clearLow m := by
    rw [clearLow, Nat.and_div_two, show 2 * m / 2 = m by omega,
      show (2 * m - 1) / 2 = m - 1 by omega]
    rfl
  have even : clearLow (2 * m) % 2 ≠ 1 := by
    rw [clearLow, Ne, Nat.and_mod_two_eq_one]
    omega
  omega

theorem clearLow_two_pow (e : Nat) : clearLow (2 ^ e) = 0 := by
  rw [clearLow, Nat.and_two_pow_sub_one_eq_mod, Nat.mod_self]

/-- The highest bit is not cleared while there is another. -/
theorem clearLow_ge (ge : 2 ^ e ≤ x) (lt : x < 2 ^ (e + 1)) (more : x ≠ 2 ^ e) :
    2 ^ e ≤ clearLow x := by
  induction e generalizing x with
  | zero =>
    rw [Nat.pow_zero] at ge more
    rw [Nat.pow_one] at lt
    omega
  | succ e ih =>
    rw [Nat.pow_succ'] at ge more ⊢
    rw [Nat.pow_succ'] at lt
    rcases Nat.even_or_odd' x with ⟨m, rfl | rfl⟩
    · have pos : 0 < 2 ^ e := Nat.two_pow_pos e
      have := ih (x := m) (by omega) (by omega) (by omega)
      rw [clearLow_double (by omega)]
      omega
    · rw [clearLow_odd]
      omega

/-- Every turn clears one bit more. -/
theorem dvd_clearLow (zeros : 2 ^ j ∣ x) : 2 ^ (j + 1) ∣ clearLow x := by
  induction j generalizing x with
  | zero =>
    rcases Nat.even_or_odd' x with ⟨m, rfl | rfl⟩
    · rcases Nat.eq_zero_or_pos m with rfl | pos
      · exact Nat.dvd_zero _
      · rw [clearLow_double pos]
        exact Nat.dvd_mul_right 2 _
    · rw [clearLow_odd]
      exact Nat.dvd_mul_right 2 _
  | succ j ih =>
    obtain ⟨c, rfl⟩ := zeros
    rw [Nat.pow_succ' (n := j), Nat.mul_assoc, Nat.pow_succ']
    have zeros : 2 ^ j ∣ 2 ^ j * c := Nat.dvd_mul_right _ c
    rcases Nat.eq_zero_or_pos (2 ^ j * c) with none | pos
    · rw [none]
      exact Nat.dvd_zero _
    · rw [clearLow_double pos]
      exact Nat.mul_dvd_mul_left 2 (ih zeros)

end RoundUp
