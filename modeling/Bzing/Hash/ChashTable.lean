import Bzing.Data.OpenTable
import Bzing.Hash.Chash

/-!
# The buckets of libchash

`Filled` says which buckets of open addressing a sparse array holds: they are sound for steps that
get longer by one, as many as a power of two. On such an array `Find` ends at the item of a key, or
at a bucket that a new item may take, and the probing of `Rehash` ends at an empty bucket.
-/

namespace Bzing.Chash

open OpenTable Compact

section Buckets

variable {K : Type}

/-- How a bucket is kept. -/
def itemOf : Bucket K UInt64 → Option (HTItem K)
  | .empty => none
  | .deleted => some ⟨deletedData, none⟩
  | .live key data => some ⟨data, some key⟩

theorem isSome_itemOf {x : Bucket K UInt64} : (itemOf x).isSome ↔ x ≠ .empty := by
  cases x <;> simp [itemOf]

/-- The items that are kept for the buckets. -/
def itemsOf (b : Nat → Bucket K UInt64) (i : Nat) : Option (HTItem K) := itemOf (b i)

theorem itemsOf_update (b : Nat → Bucket K UInt64) (i : Nat) (x : Bucket K UInt64) :
    itemsOf (Function.update b i x) = Function.update (itemsOf b) i (itemOf x) := by
  funext j
  by_cases same : j = i
  · rw [itemsOf, same, Function.update_self, Function.update_self]
  · rw [itemsOf, Function.update_of_ne same, Function.update_of_ne same]
    rfl

end Buckets

section Probe

variable {K : Type} (h : K → UInt64) (e : Nat)

/-- The probe sequence of a table with `2 ^ e` buckets. -/
def scheme : Scheme K := triangularScheme e fun key => (h key).toNat

@[simp] theorem scheme_n : (scheme h e).n = 2 ^ e := rfl

variable {h e} {n i offset : UInt64} {j : Nat}

theorem toNat_and_mask (size : n.toNat = 2 ^ e) (x : UInt64) :
    (x &&& (n - 1)).toNat = x.toNat % 2 ^ e := by
  have mask : (n - 1).toNat = 2 ^ e - 1 := by
    have pos : (1 : UInt64) ≤ n := by
      rw [UInt64.le_iff_toNat_le, size]
      exact Nat.two_pow_pos e
    rw [UInt64.toNat_sub_of_le _ _ pos, size]
    rfl
  rw [UInt64.toNat_and, mask, Nat.and_two_pow_sub_one_eq_mod]

theorem path_zero (size : n.toNat = 2 ^ e) (key : K) :
    (hashBucket h key n).toNat = (scheme h e).path key 0 := by
  rw [hashBucket, toNat_and_mask size]
  exact triangular_zero.symm

theorem path_succ (size : n.toNat = 2 ^ e) {key : K} (here : i.toNat = (scheme h e).path key j)
    (turn : offset.toNat = j) (short : j < 2 ^ e) :
    (offset + 1).toNat = j + 1 ∧ (jump n i (offset + 1)).toNat = (scheme h e).path key (j + 1) := by
  have word := n.toNat_lt
  have next : (offset + 1).toNat = j + 1 := by
    have one : (1 : UInt64).toNat = 1 := rfl
    rw [UInt64.toNat_add, turn, one, Nat.mod_eq_of_lt (by omega)]
  have divides : 2 ^ e ∣ 2 ^ 64 := by
    apply Nat.pow_dvd_pow
    apply Nat.le_of_lt
    exact (Nat.pow_lt_pow_iff_right (by omega : 1 < 2)).mp (size ▸ word)
  refine ⟨next, ?_⟩
  rw [jump, toNat_and_mask size, UInt64.toNat_add, Nat.mod_mod_of_dvd _ divides, next, here]
  exact triangular_succ.symm

end Probe

/-- The array holds the buckets, and they are sound. -/
structure Filled {K : Type} (h : K → UInt64) (table : List (SparseBin K)) (e : Nat)
    (b : Nat → Bucket K UInt64) : Prop where
  size : 64 * table.length = 2 ^ e
  array : StandsFor table (itemsOf b)
  unmarked {i : Nat} {key : K} : b i ≠ .live key deletedData
  sound : Sound (scheme h e) b

section Filled

variable {K : Type} {h : K → UInt64} {table : List (SparseBin K)} {e : Nat}
  {b : Nat → Bucket K UInt64} {n location : UInt64} {i j : Nat} {key : K} {data : UInt64}

theorem Filled.lt (filled : Filled h table e b) (inside : i < 2 ^ e) : i < 64 * table.length :=
  filled.size ▸ inside

theorem Filled.isBckDeleted_deleted (filled : Filled h table e b) (inside : i < 2 ^ e)
    (here : b i = .deleted) : isBckDeleted table (ptrOf (itemsOf b) i) = some true := by
  have item : itemsOf b i = some ⟨deletedData, none⟩ := by
    rw [itemsOf, here]
    rfl
  simp [isBckDeleted, filled.array.deref (filled.lt inside) item]

theorem Filled.deref_live (filled : Filled h table e b) (inside : i < 2 ^ e)
    (here : b i = .live key data) :
    deref table (ptrOf (itemsOf b) i) = some ⟨data, some key⟩ := by
  apply filled.array.deref (filled.lt inside)
  rw [itemsOf, here]
  rfl

theorem Filled.isBckDeleted_live (filled : Filled h table e b) (inside : i < 2 ^ e)
    (here : b i = .live key data) : isBckDeleted table (ptrOf (itemsOf b) i) = some false := by
  have other : data ≠ deletedData := by
    rintro rfl
    exact filled.unmarked here
  simp [isBckDeleted, filled.deref_live inside here, other]

/-- The array behind a filled bucket that a new key or a mark is written to. -/
theorem Filled.update (filled : Filled h table e b) {table' : List (SparseBin K)}
    (size : table'.length = table.length) {x : Bucket K UInt64}
    (array : StandsFor table' (Function.update (itemsOf b) i (itemOf x)))
    (unmarked : ∀ key, x ≠ .live key deletedData)
    (sound : Sound (scheme h e) (Function.update b i x)) :
    Filled h table' e (Function.update b i x) where
  size := by rw [size, filled.size]
  array := itemsOf_update b i x ▸ array
  unmarked {i' key} here := by
    by_cases same : i' = i
    · rw [same, Function.update_self] at here
      exact unmarked key here
    · rw [Function.update_of_ne same] at here
      exact filled.unmarked here
  sound := sound

/-- Buckets that are not empty are passed. -/
theorem Filled.freeBucket_passes (filled : Filled h table e b) (size : n.toNat = 2 ^ e)
    (short : j ≤ 2 ^ e) (full : ∀ j' < j, b ((scheme h e).path key j') ≠ .empty) (fuel : Nat) :
    ∃ i offset : UInt64, freeBucket table n (j + fuel) (hashBucket h key n) 0 =
      freeBucket table n fuel i offset ∧ i.toNat = (scheme h e).path key j ∧ offset.toNat = j := by
  induction j generalizing fuel with
  | zero => exact ⟨_, _, by rw [Nat.zero_add], path_zero size key, rfl⟩
  | succ j ih =>
    obtain ⟨i, offset, same, here, turn⟩ := ih (Nat.le_of_lt short)
      (fun j' early => full j' (Nat.lt_succ_of_lt early)) (fuel + 1)
    obtain ⟨turn', here'⟩ := path_succ size here turn short
    refine ⟨_, _, ?_, here', turn'⟩
    have inside : i.toNat < 2 ^ e := here ▸ (scheme h e).path_lt short
    have taken := isSome_itemOf.mpr (full j (Nat.lt_succ_self j))
    have empty : sparseIsEmpty table i = some false := by
      rw [filled.array.isEmpty (filled.lt inside), here, itemsOf]
      obtain ⟨item, here⟩ := Option.isSome_iff_exists.mp taken
      rw [here]
      rfl
    rw [show j + 1 + fuel = j + (fuel + 1) by omega, same]
    simp [freeBucket, empty]

/-- The probing ends at the first empty bucket. -/
theorem Filled.freeBucket_eq (filled : Filled h table e b) (size : n.toNat = 2 ^ e)
    (short : j < 2 ^ e) (free : b ((scheme h e).path key j) = .empty)
    (full : ∀ j' < j, b ((scheme h e).path key j') ≠ .empty) :
    ∃ i : UInt64, freeBucket table n n.toNat (hashBucket h key n) 0 = some i ∧
      i.toNat = (scheme h e).path key j := by
  obtain ⟨fuel, enough⟩ : ∃ fuel, n.toNat = j + (fuel + 1) := ⟨n.toNat - j - 1, by omega⟩
  obtain ⟨i, offset, same, here, -⟩ :=
    filled.freeBucket_passes size (Nat.le_of_lt short) full (fuel + 1)
  refine ⟨i, ?_, here⟩
  have inside : i.toNat < 2 ^ e := here ▸ (scheme h e).path_lt short
  have empty : sparseIsEmpty table i = some true := by
    rw [filled.array.isEmpty (filled.lt inside), here, itemsOf, free]
    rfl
  rw [enough, same]
  simp [freeBucket, empty]

end Filled

/-! ## Find -/

section Find

variable {K : Type} [DecidableEq K] {h : K → UInt64} {ht : HashTable K} {e : Nat}
  {b : Nat → Bucket K UInt64} {i j : Nat} {key : K} {data : UInt64}

/-- What `*piEmpty` is after `j` buckets: not set, or one of them that is marked. -/
def Noted (h : K → UInt64) (e : Nat) (b : Nat → Bucket K UInt64) (key : K) (j : Nat)
    (piEmpty : Option UInt64) : Prop :=
  ∀ i, piEmpty = some i → ∃ j' < j, i.toNat = (scheme h e).path key j' ∧
    b ((scheme h e).path key j') = .deleted

/-- Buckets without the key are passed, and the first marked one is noted. -/
theorem Filled.findLoop_passes (filled : Filled h ht.table e b) (size : ht.cBuckets.toNat = 2 ^ e)
    (short : j ≤ 2 ^ e) (passed : ∀ j' < j, Passes key (b ((scheme h e).path key j')))
    (fuel : Nat) :
    ∃ (i offset : UInt64) (piEmpty : Option UInt64),
      findLoop ht key (j + fuel) (hashBucket h key ht.cBuckets) 0 none =
        findLoop ht key fuel i offset piEmpty ∧
      i.toNat = (scheme h e).path key j ∧ offset.toNat = j ∧ Noted h e b key j piEmpty := by
  induction j generalizing fuel with
  | zero => exact ⟨_, _, none, by rw [Nat.zero_add], path_zero size key, rfl, nofun⟩
  | succ j ih =>
    obtain ⟨i, offset, piEmpty, same, here, turn, noted⟩ := ih (Nat.le_of_lt short)
      (fun j' early => passed j' (Nat.lt_succ_of_lt early)) (fuel + 1)
    obtain ⟨turn', here'⟩ := path_succ size here turn short
    have inside : i.toNat < 2 ^ e := here ▸ (scheme h e).path_lt short
    obtain ⟨full, other⟩ := passed j (Nat.lt_succ_self j)
    rw [show j + 1 + fuel = j + (fuel + 1) by omega, same]
    rw [← here] at full other
    cases bucket : b i.toNat with
    | empty => exact absurd bucket full
    | deleted =>
      have item : itemsOf b i.toNat = some ⟨deletedData, none⟩ := by
        rw [itemsOf, bucket]
        rfl
      have found := filled.array.find_some (filled.lt inside) item
      have deleted := filled.isBckDeleted_deleted inside bucket
      refine ⟨_, _, some (piEmpty.getD i), ?_, here', turn', ?_⟩
      · simp [findLoop, found, deleted]
      · rintro i' ⟨⟩
        cases piEmpty with
        | none => exact ⟨j, Nat.lt_succ_self j, here, here ▸ bucket⟩
        | some i' =>
          obtain ⟨j', early, there⟩ := noted i' rfl
          exact ⟨j', Nat.lt_succ_of_lt early, there⟩
    | live other' data =>
      have apart : key ≠ other' := by
        rintro rfl
        exact other data bucket
      have item : itemsOf b i.toNat = some ⟨data, some other'⟩ := by
        rw [itemsOf, bucket]
        rfl
      have found := filled.array.find_some (filled.lt inside) item
      have kept := filled.isBckDeleted_live inside bucket
      have bck := filled.deref_live inside bucket
      refine ⟨_, _, piEmpty, ?_, here', turn', ?_⟩
      · simp [findLoop, found, kept, bck, apart]
      · intro i' set
        obtain ⟨j', early, there⟩ := noted i' set
        exact ⟨j', Nat.lt_succ_of_lt early, there⟩

/-- A key that stands in a bucket is found there. -/
theorem Filled.find_found (filled : Filled h ht.table e b) (size : ht.cBuckets.toNat = 2 ^ e)
    (inside : i < 2 ^ e) (here : b i = .live key data) :
    ∃ piEmpty, find h ht key = some (some (ptrOf (itemsOf b) i), piEmpty,
      { ht with posLastFind := some (some (ptrOf (itemsOf b) i)) }) := by
  obtain ⟨j, short, there, passed⟩ := filled.sound.passed inside here
  have short : j < 2 ^ e := short
  obtain ⟨fuel, enough⟩ : ∃ fuel, ht.cBuckets.toNat = j + (fuel + 1) :=
    ⟨ht.cBuckets.toNat - j - 1, by omega⟩
  obtain ⟨w, offset, piEmpty, same, place, -, -⟩ :=
    filled.findLoop_passes size (Nat.le_of_lt short) passed (fuel + 1)
  have place : w.toNat = i := place.trans there
  have item : itemsOf b w.toNat = some ⟨data, some key⟩ := by
    rw [itemsOf, place, here]
    rfl
  have found := filled.array.find_some (filled.lt (place ▸ inside)) item
  rw [place] at found
  have kept := filled.isBckDeleted_live inside here
  have bck := filled.deref_live inside here
  refine ⟨piEmpty, ?_⟩
  rw [find, enough, same]
  simp [findLoop, found, kept, bck]

/-- For a key that stands in none the search ends at a bucket the key may take. -/
theorem Filled.find_absent (filled : Filled h ht.table e b) (size : ht.cBuckets.toNat = 2 ^ e)
    (absent : Absent (2 ^ e) b key) (few : ∃ i < 2 ^ e, b i = .empty) :
    ∃ (iEmpty : UInt64) (j : Nat), find h ht key = some (none, some iEmpty,
        { ht with posLastFind := some none }) ∧
      j < 2 ^ e ∧ iEmpty.toNat = (scheme h e).path key j ∧
      (b iEmpty.toNat).isLive = false ∧
      ∀ j' < j, b ((scheme h e).path key j') ≠ .empty := by
  obtain ⟨i, inside, free⟩ := few
  obtain ⟨j, short, rfl⟩ := (scheme h e).exists_path key inside
  obtain ⟨j, le, free, first⟩ := (scheme h e).exists_first (p := fun i => b i = .empty) key free
  have short : j < 2 ^ e := Nat.lt_of_le_of_lt le short
  have passed : ∀ j' < j, Passes key (b ((scheme h e).path key j')) := by
    intro j' early
    exact ⟨first j' early, absent _ ((scheme h e).path_lt (Nat.lt_trans early short))⟩
  obtain ⟨fuel, enough⟩ : ∃ fuel, ht.cBuckets.toNat = j + (fuel + 1) :=
    ⟨ht.cBuckets.toNat - j - 1, by omega⟩
  obtain ⟨w, offset, piEmpty, same, place, -, noted⟩ :=
    filled.findLoop_passes size (Nat.le_of_lt short) passed (fuel + 1)
  have inside : w.toNat < 2 ^ e := place ▸ (scheme h e).path_lt short
  have empty : itemsOf b w.toNat = none := by
    rw [itemsOf, place, free]
    rfl
  have found := filled.array.find_none (filled.lt inside) empty
  have ends : find h ht key = some (none, some (piEmpty.getD w),
      { ht with posLastFind := some none }) := by
    rw [find, enough, same]
    simp [findLoop, found]
  cases piEmpty with
  | none => exact ⟨w, j, ends, short, place, by rw [place, free]; rfl, first⟩
  | some i =>
    obtain ⟨j', early, there, deleted⟩ := noted i rfl
    refine ⟨i, j', ends, Nat.lt_trans early short, there, ?_, ?_⟩
    · rw [there, deleted]
      rfl
    · intro j'' earlier
      exact first j'' (Nat.lt_trans earlier early)

end Find

end Bzing.Chash
