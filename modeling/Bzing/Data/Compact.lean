import Mathlib.Data.Nat.Bitwise
import Mathlib.Data.Nat.Count
import Mathlib.Data.List.InsertIdx
import Mathlib.Logic.Function.Basic

/-!
# Compact arrays

An array of cells of which some are taken, kept as the list of what the taken cells hold
(`compact`) and a word with a bit for each taken cell. What a cell holds stands in the list behind
as many others as there are taken cells before it (`rank`), and the bits can be counted a byte at
a time.
-/

namespace Compact

variable {α : Type} {c : Nat → Option α} {i j n : Nat} {a : α}

/-- How many cells before cell `i` are taken. -/
def rank (c : Nat → Option α) (i : Nat) : Nat := Nat.count (fun j => (c j).isSome = true) i

/-- What the taken cells among the first `n` hold. -/
def compact (c : Nat → Option α) (n : Nat) : List α := (List.range n).filterMap c

/-- The taken cells among the first `n`. -/
def taken (c : Nat → Option α) (n : Nat) : List Nat := (List.range n).filter fun i => (c i).isSome

theorem compact_succ (n : Nat) : compact c (n + 1) = compact c n ++ (c n).toList := by
  rw [compact, List.range_succ, List.filterMap_append]
  cases here : c n <;> simp [compact, here]

theorem rank_succ (i : Nat) : rank c (i + 1) = rank c i + if (c i).isSome then 1 else 0 :=
  Nat.count_succ ..

theorem length_compact (n : Nat) : (compact c n).length = rank c n := by
  induction n with
  | zero => rfl
  | succ n ih =>
    rw [compact_succ, List.length_append, ih, rank_succ]
    cases c n <;> rfl

theorem rank_lt_rank (inside : i < n) (here : (c i).isSome) : rank c i < rank c n :=
  Nat.count_strict_mono here inside

theorem rank_inj (here : (c i).isSome) (there : (c j).isSome) (same : rank c i = rank c j) :
    i = j :=
  Nat.count_injective here there same

/-- The list is cut at any cell. -/
theorem compact_eq (inside : i < n) :
    compact c n = compact c i ++ (c i).toList ++
      compact (fun j => c (i + 1 + j)) (n - (i + 1)) := by
  have size : n = i + 1 + (n - (i + 1)) := by omega
  conv_lhs => rw [size]
  rw [← compact_succ]
  unfold compact
  rw [List.range_add, List.filterMap_append, List.filterMap_map]
  rfl

theorem compact_congr {c' : Nat → Option α} (same : ∀ i < n, c i = c' i) :
    compact c n = compact c' n :=
  List.filterMap_congr fun i member => same i (List.mem_range.mp member)

theorem rank_congr {c' : Nat → Option α} (same : ∀ i < n, (c i).isSome = (c' i).isSome) :
    rank c n = rank c' n := by
  apply le_antisymm
  · apply Nat.count_mono_left
    intro i before some
    rwa [← same i before]
  · apply Nat.count_mono_left
    intro i before some
    rwa [same i before]

/-- What a taken cell holds stands behind as many as its rank says. -/
theorem getElem?_compact (inside : i < n) (here : c i = some a) :
    (compact c n)[rank c i]? = some a := by
  rw [compact_eq inside, here, ← length_compact, List.append_assoc,
    List.getElem?_append_right (Nat.le_refl _), Nat.sub_self]
  rfl

section Write

theorem insertIdx_length_append (l r : List α) (a : α) :
    (l ++ r).insertIdx l.length a = l ++ a :: r := by
  induction l with
  | nil => rfl
  | cons b l ih => exact congrArg (b :: ·) ih

theorem compact_update (inside : i < n) (a : α) :
    compact (Function.update c i (some a)) n =
      compact c i ++ a :: compact (fun j => c (i + 1 + j)) (n - (i + 1)) := by
  have before : compact (Function.update c i (some a)) i = compact c i := by
    apply compact_congr
    intro j early
    rw [Function.update_of_ne (Nat.ne_of_lt early)]
  have behind : compact (fun j => Function.update c i (some a) (i + 1 + j)) (n - (i + 1)) =
      compact (fun j => c (i + 1 + j)) (n - (i + 1)) := by
    apply compact_congr
    intro j _
    rw [Function.update_of_ne (by omega)]
  rw [compact_eq inside, before, behind, Function.update_self, List.append_assoc]
  rfl

/-- A taken cell is written in its place. -/
theorem compact_update_some (inside : i < n) (here : (c i).isSome) (a : α) :
    compact (Function.update c i (some a)) n = (compact c n).set (rank c i) a := by
  obtain ⟨b, here⟩ := Option.isSome_iff_exists.mp here
  rw [compact_update inside, compact_eq inside, here, ← length_compact, List.append_assoc,
    List.set_append_right _ _ (Nat.le_refl _), Nat.sub_self]
  rfl

/-- A free cell is written between those before it and those behind it. -/
theorem compact_update_none (inside : i < n) (free : c i = none) (a : α) :
    compact (Function.update c i (some a)) n = (compact c n).insertIdx (rank c i) a := by
  rw [compact_update inside, compact_eq inside, free, ← length_compact, Option.toList_none,
    List.append_nil, insertIdx_length_append]

theorem rank_update (x : Option α) : rank (Function.update c i x) i = rank c i := by
  apply rank_congr
  intro j early
  rw [Function.update_of_ne (Nat.ne_of_lt early)]

end Write

/-- The taken cells have the ranks from 0 on. -/
theorem map_rank_taken (n : Nat) : (taken c n).map (rank c) = List.range (rank c n) := by
  induction n with
  | zero => rfl
  | succ n ih =>
    rw [taken, List.range_succ, List.filter_append, List.map_append, rank_succ]
    change (taken c n).map (rank c) ++ _ = _
    rw [ih]
    cases here : c n <;> simp [here, List.range_succ]

theorem mem_taken : i ∈ taken c n ↔ i < n ∧ (c i).isSome = true := by
  rw [taken, List.mem_filter, List.mem_range]

theorem taken_add (m n : Nat) :
    taken c (m + n) = taken c m ++ (taken (fun j => c (m + j)) n).map (m + ·) := by
  rw [taken, List.range_add, List.filter_append, List.filter_map]
  rfl

section Bits

/-- How many of the lowest `i` bits are set. -/
def bitRank (x i : Nat) : Nat := Nat.count (fun j => x.testBit j = true) i

variable {x r : Nat}

theorem rank_eq_bitRank (bits : ∀ j < i, x.testBit j = (c j).isSome) :
    rank c i = bitRank x i := by
  apply le_antisymm
  · apply Nat.count_mono_left
    intro j before some
    rwa [bits j before]
  · apply Nat.count_mono_left
    intro j before set
    rwa [← bits j before]

theorem bitRank_add (x i r : Nat) : bitRank x (i + r) = bitRank x i + bitRank (x >>> i) r := by
  unfold bitRank
  rw [Nat.count_add]
  simp only [Nat.testBit_shiftRight]

/-- A mask leaves the bits it covers. -/
theorem bitRank_and_mask (le : r ≤ n) : bitRank (x &&& (2 ^ r - 1)) n = bitRank x r := by
  obtain ⟨m, rfl⟩ := Nat.exists_eq_add_of_le le
  have low : bitRank (x &&& (2 ^ r - 1)) r = bitRank x r := by
    apply le_antisymm
    · apply Nat.count_mono_left
      intro j _ set
      rw [Nat.testBit_and, Bool.and_eq_true] at set
      exact set.1
    · apply Nat.count_mono_left
      intro j before set
      rw [Nat.testBit_and, set, Nat.testBit_two_pow_sub_one, decide_eq_true before]
      rfl
  have high : bitRank ((x &&& (2 ^ r - 1)) >>> r) m = 0 := by
    apply Nat.count_iff_forall_not.mpr
    intro j _
    rw [Nat.testBit_shiftRight, Nat.testBit_and, Nat.testBit_two_pow_sub_one,
      decide_eq_false (by omega), Bool.and_false]
    exact Bool.false_ne_true
  rw [bitRank_add, low, high, Nat.add_zero]

end Bits

end Compact
