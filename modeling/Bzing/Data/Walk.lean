import Mathlib.Data.List.Basic

/-!
# Going through a container

A loop that asks for one element after the other, `for (p = next(NULL); p; p = next(p))`. `Visits`
says which elements it comes to. A `next` that passes over some elements visits the others, and
the loop does what a fold over the list does.
-/

namespace Walk

variable {α σ : Type}

/-- From `cur` on `next` gives the elements of the list, and then none. -/
def Visits (next : Option α → Option (Option α)) : Option α → List α → Prop
  | cur, [] => next cur = some none
  | cur, a :: l => next cur = some (some a) ∧ Visits next (some a) l

/-- The next element that is not passed over. -/
def nextKept (next : Option α → Option (Option α)) (passes : α → Option Bool) :
    Nat → Option α → Option (Option α)
  | 0, _ => none
  | fuel + 1, cur => do
    match ← next cur with
    | none => some none
    | some a => do
      let skip ← passes a
      if skip then nextKept next passes fuel (some a) else some (some a)

/-- The loop from `cur` on. -/
def forEach (next : Option α → Option (Option α)) (body : σ → α → Option σ) :
    Nat → Option α → σ → Option σ
  | 0, _, _ => none
  | fuel + 1, cur, s => do
    match ← next cur with
    | none => some s
    | some a => do
      let s ← body s a
      forEach next body fuel (some a) s

variable {next : Option α → Option (Option α)} {cur cur' : Option α} {l : List α} {fuel : Nat}

theorem Visits.head (visits : Visits next cur l) : next cur = some l.head? := by
  cases l with
  | nil => exact visits
  | cons a l => exact visits.1

theorem Visits.congr (visits : Visits next cur l) (same : next cur' = next cur) :
    Visits next cur' l := by
  cases l with
  | nil => exact same.trans visits
  | cons a l => exact ⟨same.trans visits.1, visits.2⟩

section Kept

variable {passes : α → Option Bool} {skips : α → Bool}

theorem Visits.head_kept (visits : Visits next cur l) (known : ∀ a ∈ l, passes a = some (skips a))
    (enough : l.length < fuel) :
    nextKept next passes fuel cur = some (l.filter fun a => !skips a).head? := by
  induction l generalizing cur fuel with
  | nil =>
    obtain ⟨fuel, rfl⟩ := Nat.exists_eq_add_of_lt enough
    simp [nextKept, visits.head]
  | cons a l ih =>
    obtain ⟨fuel, rfl⟩ := Nat.exists_eq_add_of_lt enough
    have here := known a List.mem_cons_self
    have behind : nextKept next passes (l.length + 1 + fuel) (some a) = _ :=
      ih visits.2 (fun b member => known b (List.mem_cons_of_mem a member)) (by omega)
    cases kept : skips a with
    | false => simp [nextKept, visits.1, here, kept]
    | true => simpa [nextKept, visits.1, here, kept] using behind

/-- Some elements are passed over, and the others are visited. -/
theorem Visits.kept (visits : Visits next cur l) (known : ∀ a ∈ l, passes a = some (skips a))
    (enough : l.length < fuel) :
    Visits (nextKept next passes fuel) cur (l.filter fun a => !skips a) := by
  induction l generalizing cur with
  | nil => exact visits.head_kept known enough
  | cons a l ih =>
    have first := visits.head_kept known enough
    have later : ∀ b ∈ l, passes b = some (skips b) :=
      fun b member => known b (List.mem_cons_of_mem a member)
    have enough' : l.length < fuel := by
      rw [List.length_cons] at enough
      omega
    have rest := ih visits.2 later enough'
    cases kept : skips a with
    | false =>
      rw [List.filter_cons_of_pos (by rw [kept]; rfl)] at first ⊢
      exact ⟨first, rest⟩
    | true =>
      rw [List.filter_cons_of_neg (by rw [kept]; exact Bool.false_ne_true)] at first ⊢
      exact rest.congr (first.trans rest.head.symm)

end Kept

/-- The loop does its body for each element of the list. -/
theorem Visits.forEach (visits : Visits next cur l) (enough : l.length < fuel)
    (body : σ → α → Option σ) (s : σ) : forEach next body fuel cur s = l.foldlM body s := by
  induction l generalizing cur s fuel with
  | nil =>
    obtain ⟨fuel, rfl⟩ := Nat.exists_eq_add_of_lt enough
    simp [Walk.forEach, visits.head]
  | cons a l ih =>
    obtain ⟨fuel, rfl⟩ := Nat.exists_eq_add_of_lt enough
    have behind : ∀ s, Walk.forEach next body (l.length + 1 + fuel) (some a) s = l.foldlM body s :=
      fun s => ih visits.2 (by omega) s
    simp [Walk.forEach, visits.1, behind]

end Walk
