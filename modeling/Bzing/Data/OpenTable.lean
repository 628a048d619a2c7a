import Bzing.Data.Probing
import Mathlib.Combinatorics.Enumerative.DoubleCounting
import Mathlib.Data.Nat.Count
import Mathlib.Logic.Function.Basic

/-!
# Open addressing

Buckets filled along the probe sequences of their keys. `Sound` is what makes a search right:
every key stands in one bucket, and none of the buckets before it on its path is empty. A search
passes buckets that are neither empty nor hold the key; `Sound.search` lists how it ends. The
table stays sound when a key that is absent takes a bucket that a search has come to, when a
value changes, and when a key is taken out and leaves a mark.
-/

namespace OpenTable

/-- What a bucket holds. -/
inductive Bucket (K V : Type) where
  | empty
  | deleted
  | live (k : K) (v : V)

namespace Bucket

variable {K V : Type}

def isEmpty : Bucket K V → Bool
  | empty => true
  | _ => false

def isDeleted : Bucket K V → Bool
  | deleted => true
  | _ => false

def isLive : Bucket K V → Bool
  | live _ _ => true
  | _ => false

/-- The bucket with another value, if a key has it. -/
def withValue (v : V) : Bucket K V → Bucket K V
  | live k _ => live k v
  | b => b

@[simp] theorem isEmpty_withValue (v : V) (b : Bucket K V) :
    (b.withValue v).isEmpty = b.isEmpty := by
  cases b <;> rfl

@[simp] theorem isDeleted_withValue (v : V) (b : Bucket K V) :
    (b.withValue v).isDeleted = b.isDeleted := by
  cases b <;> rfl

@[simp] theorem isLive_withValue (v : V) (b : Bucket K V) :
    (b.withValue v).isLive = b.isLive := by
  cases b <;> rfl

theorem withValue_eq_live {v v' : V} {k : K} {b : Bucket K V} :
    b.withValue v = live k v' ↔ v' = v ∧ ∃ w, b = live k w := by
  cases b with
  | live k' w =>
    constructor
    · rintro ⟨⟩
      exact ⟨rfl, w, rfl⟩
    · rintro ⟨rfl, w', ⟨⟩⟩
      rfl
  | _ => simp [withValue]

theorem isLive_iff {b : Bucket K V} : b.isLive = true ↔ ∃ k v, b = live k v := by
  cases b <;> simp [isLive]

end Bucket

open Bucket

variable {K V : Type}

/-- A search for the key goes on behind the bucket. -/
def Passes (k : K) (b : Bucket K V) : Prop := b ≠ .empty ∧ ∀ v, b ≠ .live k v

/-- The key stands in some bucket, with the value. -/
def Holds (n : Nat) (b : Nat → Bucket K V) (k : K) (v : V) : Prop :=
  ∃ i < n, b i = .live k v

/-- The key stands in no bucket. -/
def Absent (n : Nat) (b : Nat → Bucket K V) (k : K) : Prop :=
  ∀ i < n, ∀ v, b i ≠ .live k v

/-- Every key stands in one bucket, and its path leads there. -/
structure Sound (s : Scheme K) (b : Nat → Bucket K V) : Prop where
  unique {i i' : Nat} {k : K} {v v' : V} : i < s.n → i' < s.n → b i = .live k v →
    b i' = .live k v' → i = i'
  reached {i : Nat} {k : K} {v : V} : i < s.n → b i = .live k v →
    ∃ j < s.n, s.path k j = i ∧ ∀ j' < j, b (s.path k j') ≠ .empty

/-- How the search for a key ends: at its bucket, at an empty one, or where it began. -/
inductive Search (s : Scheme K) (b : Nat → Bucket K V) (k : K) : Prop where
  | found (j : Nat) (v : V) (short : j < s.n) (here : b (s.path k j) = .live k v)
      (passed : ∀ j' < j, Passes k (b (s.path k j')))
  | missing (j : Nat) (short : j < s.n) (absent : Absent s.n b k)
      (free : b (s.path k j) = .empty) (passed : ∀ j' < j, Passes k (b (s.path k j')))
  | round (absent : Absent s.n b k) (passed : ∀ j < s.n, Passes k (b (s.path k j)))

section Sound

variable {s : Scheme K} {b : Nat → Bucket K V} {k k' : K} {v v' : V} {i j : Nat}

theorem Holds.unique (sound : Sound s b) (holds : Holds s.n b k v) (holds' : Holds s.n b k v') :
    v = v' := by
  obtain ⟨i, inside, here⟩ := holds
  obtain ⟨i', inside', here'⟩ := holds'
  rw [sound.unique inside inside' here here', here'] at here
  cases here
  rfl

theorem absent_iff : Absent s.n b k ↔ ∀ v, ¬ Holds s.n b k v := by
  constructor
  · rintro absent v ⟨i, inside, here⟩
    exact absent i inside v here
  · intro none i inside v here
    exact none v ⟨i, inside, here⟩

theorem absent_or_holds (n : Nat) (b : Nat → Bucket K V) (k : K) :
    Absent n b k ∨ ∃ v, Holds n b k v := by
  by_cases held : ∃ v, Holds n b k v
  · exact Or.inr held
  · left
    intro i inside v here
    exact held ⟨v, i, inside, here⟩

theorem sound_empty : Sound s fun _ => (.empty : Bucket K V) where
  unique _ _ here := by cases here
  reached _ here := by cases here

/-- On a path without empty buckets only the key itself stops the search. -/
theorem Sound.passed (sound : Sound s b) (inside : i < s.n) (here : b i = .live k v) :
    ∃ j < s.n, s.path k j = i ∧ ∀ j' < j, Passes k (b (s.path k j')) := by
  obtain ⟨j, short, there, full⟩ := sound.reached inside here
  refine ⟨j, short, there, ?_⟩
  intro j' before
  refine ⟨full j' before, ?_⟩
  intro v' other
  have same := sound.unique (s.path_lt (Nat.lt_trans before short)) inside other here
  have turn := s.path_inj (Nat.lt_trans before short) short (same.trans there.symm)
  omega

theorem Sound.search (sound : Sound s b) (k : K) : Search s b k := by
  classical
  by_cases held : ∃ i < s.n, ∃ v, b i = .live k v
  · obtain ⟨i, inside, v, here⟩ := held
    obtain ⟨j, short, there, passed⟩ := sound.passed inside here
    exact .found j v short (there ▸ here) passed
  have absent : Absent s.n b k := by
    intro i inside v here
    exact held ⟨i, inside, v, here⟩
  have passes : ∀ j < s.n, b (s.path k j) ≠ .empty → Passes k (b (s.path k j)) :=
    fun j short full => ⟨full, absent _ (s.path_lt short)⟩
  by_cases free : ∃ j < s.n, b (s.path k j) = .empty
  · obtain ⟨j, short, free⟩ := free
    obtain ⟨j', le, free', first⟩ := s.exists_first (p := fun i => b i = .empty) k free
    have short' := Nat.lt_of_le_of_lt le short
    exact .missing j' short' absent free'
      fun i before => passes i (Nat.lt_trans before short') (first i before)
  · refine .round absent ?_
    intro j short
    exact passes j short fun free' => free ⟨j, short, free'⟩

/-! ## Updates -/

/-- Filling or marking a bucket empties none. -/
theorem update_ne_empty {x : Bucket K V} (full : x ≠ .empty) {i' : Nat}
    (before : b i' ≠ .empty) : Function.update b i x i' ≠ .empty := by
  by_cases same : i' = i
  · rw [same, Function.update_self]
    exact full
  · rwa [Function.update_of_ne same]

/-- A bucket may get any contents that leave it filled: a mark, or a key that stands in no other
    bucket and whose path leads here without an empty one. -/
theorem Sound.update (sound : Sound s b) {x : Bucket K V} (full : x ≠ .empty)
    (alone : ∀ k v, x = .live k v → ∀ i' < s.n, i' ≠ i → ∀ v', b i' ≠ .live k v')
    (path : ∀ k v, x = .live k v →
      ∃ j < s.n, s.path k j = i ∧ ∀ j' < j, b (s.path k j') ≠ .empty) :
    Sound s (Function.update b i x) where
  unique {i1 i2 key w w'} inside1 inside2 here1 here2 := by
    by_cases own1 : i1 = i
    · by_cases own2 : i2 = i
      · rw [own1, own2]
      · rw [own1, Function.update_self] at here1
        rw [Function.update_of_ne own2] at here2
        exact absurd here2 (alone key w here1 i2 inside2 own2 w')
    · rw [Function.update_of_ne own1] at here1
      by_cases own2 : i2 = i
      · rw [own2, Function.update_self] at here2
        exact absurd here1 (alone key w' here2 i1 inside1 own1 w)
      · rw [Function.update_of_ne own2] at here2
        exact sound.unique inside1 inside2 here1 here2
  reached {i' key w} inside here := by
    have keeps : ∀ {j}, (∀ j' < j, b (s.path key j') ≠ .empty) →
        ∀ j' < j, Function.update b i x (s.path key j') ≠ .empty :=
      fun before j' early => update_ne_empty full (before j' early)
    by_cases own : i' = i
    · rw [own, Function.update_self] at here
      obtain ⟨j, short, there, before⟩ := path key w here
      exact ⟨j, short, there.trans own.symm, keeps before⟩
    · rw [Function.update_of_ne own] at here
      obtain ⟨j, short, there, before⟩ := sound.reached inside here
      exact ⟨j, short, there, keeps before⟩

/-- An absent key may take any bucket a search has come to. -/
theorem Sound.insert (sound : Sound s b) (absent : Absent s.n b k) (short : j < s.n)
    (before : ∀ j' < j, b (s.path k j') ≠ .empty) (v : V) :
    Sound s (Function.update b (s.path k j) (.live k v)) := by
  refine sound.update (x := .live k v) nofun ?_ ?_
  · rintro key w ⟨⟩ i' inside -
    exact absent i' inside
  · rintro key w ⟨⟩
    exact ⟨j, short, rfl, before⟩

/-- The value in a bucket may change. -/
theorem Sound.setValue (sound : Sound s b) (inside : i < s.n) (v : V) :
    Sound s (Function.update b i ((b i).withValue v)) := by
  cases bucket : b i with
  | live k w =>
    refine sound.update (x := .live k v) nofun ?_ ?_
    · rintro key w ⟨⟩ i' inside' apart w' other
      exact apart (sound.unique inside' inside other bucket)
    · rintro key w ⟨⟩
      exact sound.reached inside bucket
  | empty =>
    have same : Function.update b i .empty = b := bucket ▸ Function.update_eq_self i b
    exact same.symm ▸ sound
  | deleted =>
    have same : Function.update b i .deleted = b := bucket ▸ Function.update_eq_self i b
    exact same.symm ▸ sound

/-- A key may be taken out if its bucket is marked. -/
theorem Sound.erase (sound : Sound s b) (i : Nat) : Sound s (Function.update b i .deleted) :=
  sound.update (x := .deleted) nofun nofun nofun

/-- What is held after a key was written to a bucket without another key. -/
theorem holds_update [DecidableEq K] (inside : i < s.n) (own : ∀ k' w, b i = .live k' w → k' = k)
    (others : ∀ i' < s.n, i' ≠ i → ∀ w, b i' ≠ .live k w) {w : V} :
    Holds s.n (Function.update b i (.live k v)) k' w ↔
      if k' = k then w = v else Holds s.n b k' w := by
  by_cases same : k' = k
  · subst same
    rw [if_pos rfl]
    constructor
    · rintro ⟨i', inside', here⟩
      by_cases there : i' = i
      · rw [there, Function.update_self] at here
        cases here
        rfl
      · rw [Function.update_of_ne there] at here
        exact absurd here (others i' inside' there w)
    · rintro rfl
      exact ⟨i, inside, Function.update_self ..⟩
  · rw [if_neg same]
    constructor
    · rintro ⟨i', inside', here⟩
      by_cases there : i' = i
      · rw [there, Function.update_self] at here
        cases here
        exact absurd rfl same
      · exact ⟨i', inside', by rwa [Function.update_of_ne there] at here⟩
    · rintro ⟨i', inside', here⟩
      have there : i' ≠ i := by
        rintro rfl
        exact same (own k' w here)
      exact ⟨i', inside', by rwa [Function.update_of_ne there]⟩

theorem holds_erase (sound : Sound s b) (inside : i < s.n) (here : b i = .live k v) {w : V} :
    Holds s.n (Function.update b i .deleted) k' w ↔ k' ≠ k ∧ Holds s.n b k' w := by
  constructor
  · rintro ⟨i', inside', there⟩
    by_cases same : i' = i
    · rw [same, Function.update_self] at there
      cases there
    · rw [Function.update_of_ne same] at there
      refine ⟨?_, i', inside', there⟩
      rintro rfl
      exact same (sound.unique inside' inside there here)
  · rintro ⟨ne, i', inside', there⟩
    have apart : i' ≠ i := by
      rintro rfl
      rw [here] at there
      cases there
      exact ne rfl
    exact ⟨i', inside', by rwa [Function.update_of_ne apart]⟩

end Sound

section Count

/-- Changing one value changes the count of those that pass a test by that one. -/
theorem count_update {α : Type} (f : Nat → α) (p : α → Bool) {i n : Nat} (inside : i < n)
    (x : α) :
    Nat.count (fun j => p (Function.update f i x j) = true) n + (if p (f i) then 1 else 0) =
      Nat.count (fun j => p (f j) = true) n + if p x then 1 else 0 := by
  induction n with
  | zero => omega
  | succ n ih =>
    rw [Nat.count_succ, Nat.count_succ]
    by_cases last : i = n
    · subst last
      have below : Nat.count (fun j => p (Function.update f i x j) = true) i =
          Nat.count (fun j => p (f j) = true) i := by
        apply le_antisymm
        · apply Nat.count_mono_left
          intro j before pass
          rwa [Function.update_of_ne (by omega)] at pass
        · apply Nat.count_mono_left
          intro j before pass
          rwa [Function.update_of_ne (by omega)]
      rw [below, Function.update_self]
      omega
    · rw [Function.update_of_ne (Ne.symm last)]
      have := ih (by omega)
      omega

theorem exists_not_of_count_lt {p : Nat → Prop} [DecidablePred p] {n : Nat}
    (few : Nat.count p n < n) : ∃ i < n, ¬ p i := by
  by_contra none
  simp only [not_exists, not_and, not_not] at none
  rw [Nat.count_iff_forall.mpr none] at few
  exact Nat.lt_irrefl n few

/-- A bucket is live, marked or empty. -/
theorem count_add_count {K V : Type} (b : Nat → Bucket K V) (n : Nat) :
    Nat.count (fun i => (b i).isLive = true) n + Nat.count (fun i => (b i).isDeleted = true) n +
      Nat.count (fun i => (b i).isEmpty = true) n = n := by
  induction n with
  | zero => simp
  | succ n ih =>
    have one : (if (b n).isLive = true then 1 else 0) + (if (b n).isDeleted = true then 1 else 0) +
        (if (b n).isEmpty = true then 1 else 0) = 1 := by
      cases b n <;> rfl
    rw [Nat.count_succ, Nat.count_succ, Nat.count_succ]
    omega

/-- There are no more buckets with a key than there are keys. -/
theorem Sound.count_live_le {K V : Type} {s : Scheme K} {b : Nat → Bucket K V} (sound : Sound s b)
    (keys : Finset K) (all : ∀ k v, Holds s.n b k v → k ∈ keys) :
    Nat.count (fun i => (b i).isLive = true) s.n ≤ keys.card := by
  classical
  rw [Nat.count_eq_card_filter_range]
  apply Finset.card_le_card_of_forall_subsingleton fun i k => ∃ v, b i = .live k v
  · intro i member
    obtain ⟨inside, live⟩ := Finset.mem_filter.mp member
    obtain ⟨k, v, here⟩ := Bucket.isLive_iff.mp live
    exact ⟨k, all k v ⟨i, Finset.mem_range.mp inside, here⟩, v, here⟩
  · rintro k - i ⟨member, v, here⟩ i' ⟨member', v', here'⟩
    exact sound.unique (Finset.mem_range.mp (Finset.mem_filter.mp member).1)
      (Finset.mem_range.mp (Finset.mem_filter.mp member').1) here here'

/-- Keys that are held have buckets of their own. -/
theorem card_le_count_live {K V : Type} {n : Nat} {b : Nat → Bucket K V} (keys : Finset K)
    (all : ∀ k ∈ keys, ∃ v, Holds n b k v) :
    keys.card ≤ Nat.count (fun i => (b i).isLive = true) n := by
  classical
  rw [Nat.count_eq_card_filter_range]
  apply Finset.card_le_card_of_forall_subsingleton fun k i => ∃ v, b i = .live k v
  · intro k member
    obtain ⟨v, i, inside, here⟩ := all k member
    have live : (b i).isLive = true := Bucket.isLive_iff.mpr ⟨k, v, here⟩
    exact ⟨i, Finset.mem_filter.mpr ⟨Finset.mem_range.mpr inside, live⟩, v, here⟩
  · rintro i - k ⟨-, v, here⟩ k' ⟨-, v', here'⟩
    rw [here] at here'
    cases here'
    rfl

end Count

end OpenTable
