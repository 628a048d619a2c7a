import Mathlib.Data.Fintype.EquivFin
import Mathlib.Data.Nat.ModEq
import Mathlib.Data.Nat.Prime.Basic
import Mathlib.Tactic.Ring

/-!
# Probe sequences

A hash table with open addressing looks for a key in one bucket after another. A `Scheme` says
in which order: for every key the first `n` buckets looked at are all `n` there are. Two orders
are in use: steps of one length without a common factor with `n` (`stepping`), and steps that get
longer by one, for a power of two (`triangular`).
-/

/-- The order in which the `n` buckets are looked at for each key. -/
structure Scheme (K : Type) where
  n : Nat
  path : K → Nat → Nat
  path_lt {k : K} {j : Nat} : j < n → path k j < n
  path_inj {k : K} {j j' : Nat} : j < n → j' < n → path k j = path k j' → j = j'

namespace Scheme

variable {K : Type} (s : Scheme K)

/-- No bucket is left out. -/
theorem exists_path (k : K) {i : Nat} (inside : i < s.n) : ∃ j < s.n, s.path k j = i := by
  let visit : Fin s.n → Fin s.n := fun j => ⟨s.path k j, s.path_lt j.isLt⟩
  have injective : Function.Injective visit := by
    intro j j' same
    exact Fin.ext (s.path_inj j.isLt j'.isLt (congrArg Fin.val same))
  obtain ⟨j, here⟩ := Finite.surjective_of_injective injective ⟨i, inside⟩
  exact ⟨j, j.isLt, congrArg Fin.val here⟩

/-- The first bucket on the path of a key that meets a condition. -/
theorem exists_first {p : Nat → Prop} (k : K) {j : Nat} (meets : p (s.path k j)) :
    ∃ j' ≤ j, p (s.path k j') ∧ ∀ i < j', ¬ p (s.path k i) := by
  classical
  have some : ∃ j, p (s.path k j) := ⟨j, meets⟩
  exact ⟨Nat.find some, Nat.find_min' some meets, Nat.find_spec some,
    fun i before => Nat.find_min some before⟩

end Scheme

section Stepping

/-- The bucket after `j` steps. -/
def stepping (n start step j : Nat) : Nat := (start + j * step) % n

variable {n start step j j' : Nat}

theorem stepping_lt (pos : 0 < n) : stepping n start step j < n := Nat.mod_lt _ pos

theorem stepping_zero : stepping n start step 0 = start % n := by
  rw [stepping, Nat.zero_mul, Nat.add_zero]

theorem stepping_succ : stepping n start step (j + 1) = (stepping n start step j + step) % n := by
  unfold stepping
  rw [Nat.mod_add_mod, Nat.add_mul, Nat.one_mul, Nat.add_assoc]

/-- After `n` steps the path is back where it began. -/
theorem stepping_wrap : stepping n start step n = stepping n start step 0 := by
  unfold stepping
  rw [Nat.zero_mul, Nat.add_zero, Nat.add_mul_mod_self_left]

theorem stepping_inj (coprime : step.Coprime n) (inside : j < n) (inside' : j' < n)
    (same : stepping n start step j = stepping n start step j') : j = j' := by
  have shifted : j * step ≡ j' * step [MOD n] := Nat.ModEq.add_left_cancel' start same
  have steps : j ≡ j' [MOD n] :=
    Nat.ModEq.cancel_right_of_coprime (Nat.coprime_comm.mp coprime) shifted
  exact Nat.ModEq.eq_of_lt_of_lt steps inside inside'

/-- An odd step has no common factor with a power of two. -/
theorem coprime_two_pow (odd : step % 2 = 1) (e : Nat) : step.Coprime (2 ^ e) := by
  apply Nat.Coprime.pow_right
  exact Nat.coprime_two_right.mpr (Nat.odd_iff.mpr odd)

/-- Each key has its own first bucket and its own step. -/
def steppingScheme {K : Type} (n : Nat) (start step : K → Nat)
    (coprime : ∀ k, 0 < n → (step k).Coprime n) : Scheme K where
  n := n
  path k := stepping n (start k) (step k)
  path_lt short := stepping_lt (Nat.zero_lt_of_lt short)
  path_inj {k _ _} short := stepping_inj (coprime k (Nat.zero_lt_of_lt short)) short

end Stepping

section Triangular

/-- The bucket after steps of lengths one to `j`. -/
def triangular (n start j : Nat) : Nat := (start + j * (j + 1) / 2) % n

variable {n start e j j' : Nat}

theorem triangular_lt (pos : 0 < n) : triangular n start j < n := Nat.mod_lt _ pos

theorem triangular_zero : triangular n start 0 = start % n := by
  rw [triangular, Nat.zero_mul, Nat.zero_div, Nat.add_zero]

theorem triangular_succ : triangular n start (j + 1) = (triangular n start j + (j + 1)) % n := by
  unfold triangular
  have next : (j + 1) * (j + 1 + 1) / 2 = j * (j + 1) / 2 + (j + 1) := by
    have sum : (j + 1) * (j + 1 + 1) = j * (j + 1) + (j + 1) * 2 := by ring
    rw [sum, Nat.add_mul_div_right _ _ (by omega)]
  rw [Nat.mod_add_mod, next, Nat.add_assoc]

/-- The difference of two triangular numbers, doubled, is a product of which one factor is odd
    and the other, for a power of two, too small to be a multiple. -/
theorem triangular_inj (inside : j < 2 ^ e) (inside' : j' < 2 ^ e)
    (same : triangular (2 ^ e) start j = triangular (2 ^ e) start j') : j = j' := by
  wlog le : j' ≤ j generalizing j j'
  · exact (this inside' inside same.symm (by omega)).symm
  obtain ⟨d, rfl⟩ := Nat.exists_eq_add_of_le le
  have halves : ∀ m, 2 * (m * (m + 1) / 2) = m * (m + 1) :=
    fun m => Nat.mul_div_cancel' (Nat.even_mul_succ_self m).two_dvd
  have numbers : (j' + d) * (j' + d + 1) / 2 ≡ j' * (j' + 1) / 2 [MOD 2 ^ e] :=
    Nat.ModEq.add_left_cancel' start same
  have doubled : (j' + d) * (j' + d + 1) ≡ j' * (j' + 1) [MOD 2 ^ (e + 1)] := by
    have := numbers.mul_left' 2
    rwa [halves, halves, ← Nat.pow_succ'] at this
  have product : 2 ^ (e + 1) ∣ d * (2 * j' + d + 1) := by
    have divides := (Nat.modEq_iff_dvd' (Nat.mul_le_mul le (by omega))).mp doubled.symm
    have factors : (j' + d) * (j' + d + 1) - j' * (j' + 1) = d * (2 * j' + d + 1) := by
      have expand : (j' + d) * (j' + d + 1) = j' * (j' + 1) + d * (2 * j' + d + 1) := by ring
      rw [expand, Nat.add_sub_cancel_left]
    rwa [factors] at divides
  have zero : d = 0 := by
    by_contra nonzero
    rcases Nat.even_or_odd d with even | odd
    · have odd : Nat.Coprime (2 ^ (e + 1)) (2 * j' + d + 1) := by
        apply (coprime_two_pow _ _).symm
        obtain ⟨c, rfl⟩ := even
        omega
      have := Nat.le_of_dvd (by omega) (odd.dvd_of_dvd_mul_right product)
      rw [Nat.pow_succ] at this
      omega
    · have odd : Nat.Coprime (2 ^ (e + 1)) d := (coprime_two_pow (Nat.odd_iff.mp odd) _).symm
      have := Nat.le_of_dvd (by omega) (odd.dvd_of_dvd_mul_left product)
      rw [Nat.pow_succ] at this
      omega
  omega

/-- Each key has its own first bucket. -/
def triangularScheme {K : Type} (e : Nat) (start : K → Nat) : Scheme K where
  n := 2 ^ e
  path k := triangular (2 ^ e) (start k)
  path_lt _ := triangular_lt (Nat.two_pow_pos e)
  path_inj := triangular_inj

end Triangular
