import Mathlib.Logic.Basic

/-!
# Ranges handed out by a bump pointer

Owners hold ranges of positions that are taken from the end of the used part and never given
back. `Packed` says that the ranges lie in the used part and do not overlap; forgetting
owners keeps it (`Packed.mono`) and so does handing out the next positions
(`Packed.extend`).
-/

namespace BumpRanges

variable {κ : Type}

/-- The ranges `[a, a + n)` of the owners lie in `[lo, hi)`, those of two owners apart. -/
structure Packed (owns : κ → Nat → Nat → Prop) (lo hi : Nat) : Prop where
  inside : ∀ {k a n}, owns k a n → lo ≤ a ∧ a + n ≤ hi
  apart : ∀ {k k' a a' n n'}, owns k a n → owns k' a' n' → k ≠ k' →
    a + n ≤ a' ∨ a' + n' ≤ a

theorem packed_empty (lo hi : Nat) : Packed (fun (_ : κ) _ _ => False) lo hi :=
  ⟨fun h => h.elim, fun h => h.elim⟩

variable {owns owns' : κ → Nat → Nat → Prop} {lo hi : Nat}

theorem Packed.mono {hi' : Nat} (h : Packed owns lo hi)
    (sub : ∀ k a n, owns' k a n → owns k a n) (le : hi ≤ hi') : Packed owns' lo hi' where
  inside own := by
    obtain ⟨low, high⟩ := h.inside (sub _ _ _ own)
    exact ⟨low, by omega⟩
  apart own own' ne := h.apart (sub _ _ _ own) (sub _ _ _ own') ne

/-- Handing out the next `len` positions. -/
theorem Packed.extend {key : κ} {len : Nat} (h : Packed owns lo hi) (le : lo ≤ hi)
    (sub : ∀ k a n, owns' k a n → k = key ∧ a = hi ∧ n = len ∨ k ≠ key ∧ owns k a n) :
    Packed owns' lo (hi + len) where
  inside own := by
    rcases sub _ _ _ own with ⟨-, rfl, rfl⟩ | ⟨-, old⟩
    · exact ⟨le, Nat.le_refl _⟩
    · obtain ⟨low, high⟩ := h.inside old
      exact ⟨low, by omega⟩
  apart own own' ne := by
    rcases sub _ _ _ own with ⟨rfl, rfl, rfl⟩ | ⟨-, old⟩
    · rcases sub _ _ _ own' with ⟨rfl, -, -⟩ | ⟨-, old'⟩
      · exact absurd rfl ne
      · exact Or.inr (h.inside old').2
    · rcases sub _ _ _ own' with ⟨rfl, rfl, rfl⟩ | ⟨-, old'⟩
      · exact Or.inl (h.inside old).2
      · exact h.apart old old' ne

/-- A position of one owner's range is no position of another's. -/
theorem Packed.ne {k k' : κ} {a a' n n' i j : Nat} (h : Packed owns lo hi) (own : owns k a n)
    (own' : owns k' a' n') (ne : k ≠ k') (hi' : i < n) (hj : j < n') : a + i ≠ a' + j := by
  rcases h.apart own own' ne with below | above <;> omega

end BumpRanges
