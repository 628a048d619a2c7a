import Mathlib.Algebra.Ring.Nat
import Mathlib.Data.List.Basic

/-!
# Moves of a 64-bit cursor

A parser moves a cursor over a buffer by fields of some width, modulo `2 ^ 64`. The moves are
recorded with their starts; `Chained` says that each starts where the one before ended. When no
move wraps, every field lies behind all fields before it (`Chained.pairwise`).
-/

namespace CursorMoves

/-- A field of some kind, from where the cursor stood over its width. -/
structure Move (κ : Type) where
  kind : κ
  start : UInt64
  width : Nat
  deriving DecidableEq

variable {κ : Type}

namespace Move

/-- Where the field ends, in the buffer. -/
def stop (m : Move κ) : Nat := m.start.toNat + m.width

/-- The cursor behind the field. -/
def next (m : Move κ) : UInt64 := m.start + UInt64.ofNat m.width

def NoWrap (m : Move κ) : Prop := m.stop < 2 ^ 64

theorem toNat_next {m : Move κ} (noWrap : m.NoWrap) : m.next.toNat = m.stop := by
  unfold NoWrap stop at noWrap
  unfold next stop
  rw [UInt64.toNat_add, UInt64.toNat_ofNat', Nat.mod_eq_of_lt (by omega : m.width < 2 ^ 64),
    Nat.mod_eq_of_lt noWrap]

end Move

/-- The moves lead from one position to another. -/
inductive Chained : UInt64 → List (Move κ) → UInt64 → Prop where
  | nil (offset : UInt64) : Chained offset [] offset
  | cons {m : Move κ} {moves : List (Move κ)} {stop : UInt64} (rest : Chained m.next moves stop) :
      Chained m.start (m :: moves) stop

namespace Chained

variable {offset middle stop : UInt64} {moves moves' : List (Move κ)}

theorem append (first : Chained offset moves middle) (rest : Chained middle moves' stop) :
    Chained offset (moves ++ moves') stop := by
  induction first with
  | nil => exact rest
  | cons _ ih => exact .cons (ih rest)

/-- Without wrapping, all fields lie between the two ends. -/
theorem bounds (chained : Chained offset moves stop) (noWrap : ∀ m ∈ moves, m.NoWrap) :
    offset.toNat ≤ stop.toNat ∧
      ∀ m ∈ moves, offset.toNat ≤ m.start.toNat ∧ m.stop ≤ stop.toNat := by
  induction chained with
  | nil => simp
  | @cons m moves stop rest ih =>
    obtain ⟨le, between⟩ := ih fun later member => noWrap later (List.mem_cons_of_mem _ member)
    have next := m.toNat_next (noWrap m List.mem_cons_self)
    have behind : m.start.toNat ≤ m.stop := Nat.le_add_right _ _
    constructor
    · omega
    · intro later member
      rcases List.mem_cons.mp member with rfl | member
      · exact ⟨Nat.le_refl _, by omega⟩
      · obtain ⟨low, high⟩ := between later member
        exact ⟨by omega, high⟩

/-- Without wrapping, every field lies behind all fields before it. -/
theorem pairwise (chained : Chained offset moves stop) (noWrap : ∀ m ∈ moves, m.NoWrap) :
    moves.Pairwise fun a b => a.stop ≤ b.start.toNat := by
  induction chained with
  | nil => exact .nil
  | @cons m moves stop rest ih =>
    have later : ∀ b ∈ moves, b.NoWrap := fun b member =>
      noWrap b (List.mem_cons_of_mem _ member)
    have next := m.toNat_next (noWrap m List.mem_cons_self)
    refine .cons ?_ (ih later)
    intro b member
    rw [← next]
    exact ((rest.bounds later).2 b member).1

end Chained

end CursorMoves
