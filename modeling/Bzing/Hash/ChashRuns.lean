import Bzing.Hash.ChashRehash
import Mathlib.Data.List.AList

/-!
# Runs of libchash

What any sequence of calls on a table of libchash does: it never leaves the arrays, reads or frees
a key that was freed, or goes on for ever, and it does what a finite map does, while there are
fewer than `2 ^ 29` keys and no item has the data that marks a deleted one.
-/

namespace Bzing.Chash

open OpenTable Compact RoundUp

/-- The table holds the buckets, and counts them. -/
structure Stands {K : Type} (h : K → UInt64) (ht : HashTable K) (e : Nat)
    (b : Nat → Bucket K UInt64) : Prop where
  cBuckets : ht.cBuckets.toNat = 2 ^ e
  filled : Filled h ht.table e b
  cItems : ht.cItems.toNat = Nat.count (fun i => (b i).isLive = true) (2 ^ e)
  cDeletedItems : ht.cDeletedItems.toNat = Nat.count (fun i => (b i).isDeleted = true) (2 ^ e)
  goal : ht.cDeltaGoalSize = 0
  small : e ≤ 30

/-- Less than half of the buckets are taken, and a large table is not less than a fifth full. -/
structure Balanced {K : Type} (ht : HashTable K) : Prop where
  half : 2 * (ht.cItems.toNat + ht.cDeletedItems.toNat) < ht.cBuckets.toNat
  fifth : ht.cBuckets.toNat < 1024 ∨ ht.cBuckets.toNat ≤ 5 * ht.cItems.toNat

section Stands

variable {K : Type} {h : K → UInt64} {ht : HashTable K} {e i : Nat} {b : Nat → Bucket K UInt64}
  {key : K} {data : UInt64}

theorem Stands.le (stands : Stands h ht e b) : 2 ^ e ≤ 2 ^ 30 :=
  Nat.pow_le_pow_right (by omega) stands.small

theorem Stands.counts_le (stands : Stands h ht e b) :
    ht.cItems.toNat + ht.cDeletedItems.toNat ≤ 2 ^ e := by
  have all := count_add_count b (2 ^ e)
  rw [stands.cItems, stands.cDeletedItems]
  omega

/-- A table that is less than half full has an empty bucket. -/
theorem Stands.exists_empty (stands : Stands h ht e b) (balanced : Balanced ht) :
    ∃ i < 2 ^ e, b i = .empty := by
  have all := count_add_count b (2 ^ e)
  have half := balanced.half
  rw [stands.cItems, stands.cDeletedItems, stands.cBuckets] at half
  have some : Nat.count (fun i => (b i).isEmpty = true) (2 ^ e) ≠ 0 := by omega
  obtain ⟨i, inside, empty⟩ := Nat.count_ne_iff_exists.mp some
  refine ⟨i, inside, ?_⟩
  cases here : b i with
  | empty => rfl
  | _ =>
    rw [here] at empty
    cases empty

theorem Stands.setLast (stands : Stands h ht e b) (last : Option (Option ItemPtr)) :
    Stands h { ht with posLastFind := last } e b where
  cBuckets := stands.cBuckets
  filled := stands.filled
  cItems := stands.cItems
  cDeletedItems := stands.cDeletedItems
  goal := stands.goal
  small := stands.small

/-- A key in a bucket that had none is one more. -/
theorem counts_put (inside : i < 2 ^ e) (spare : (b i).isLive = false) (key : K) (data : UInt64) :
    Nat.count (fun j => (Function.update b i (.live key data) j).isLive = true) (2 ^ e) =
        Nat.count (fun j => (b j).isLive = true) (2 ^ e) + 1 ∧
      Nat.count (fun j => (Function.update b i (.live key data) j).isDeleted = true) (2 ^ e) +
          (if (b i).isDeleted then 1 else 0) =
        Nat.count (fun j => (b j).isDeleted = true) (2 ^ e) := by
  have lives := count_update b Bucket.isLive inside (.live key data)
  rw [spare] at lives
  exact ⟨lives, count_update b Bucket.isDeleted inside (.live key data)⟩

/-- A key that gets another value, or a mark, is counted as before, or as a mark. -/
theorem counts_live (inside : i < 2 ^ e) (here : b i = .live key data) (x : Bucket K UInt64) :
    Nat.count (fun j => (Function.update b i x j).isLive = true) (2 ^ e) + 1 =
        Nat.count (fun j => (b j).isLive = true) (2 ^ e) + (if x.isLive then 1 else 0) ∧
      Nat.count (fun j => (Function.update b i x j).isDeleted = true) (2 ^ e) =
        Nat.count (fun j => (b j).isDeleted = true) (2 ^ e) + (if x.isDeleted then 1 else 0) := by
  have lives := count_update b Bucket.isLive inside x
  have marks := count_update b Bucket.isDeleted inside x
  rw [here] at lives marks
  exact ⟨lives, marks⟩

end Stands

section Resize

variable {K : Type} {h : K → UInt64} {ht : HashTable K} {e i : Nat} {b : Nat → Bucket K UInt64}
  {key : K} {data : UInt64} {watch : Option Nat}

variable (watch) in
/-- `Rehash` to the size `NextPow2` gives for the items there are. -/
theorem Stands.rehash_goal (stands : Stands h ht e b) (pos : 0 < ht.cItems.toNat)
    (few : ht.cItems.toNat < 2 ^ 29)
    (watched : ∀ i, watch = some i → i < 2 ^ e ∧ (b i).isLive = true) :
    ∃ p ht' e' b', rehash h ht (goalBuckets ht) (watch.map (ptrOf (itemsOf b))) =
        some (p, ht') ∧
      Stands h ht' e' b' ∧ Balanced ht' ∧ ht'.posLastFind = ht.posLastFind ∧
      Rehashed h e b watch p ht'.table e' b' := by
  have word : (UInt64.ofNat (2 * ht.cItems.toNat)).toNat = 2 * ht.cItems.toNat := by
    rw [UInt64.toNat_ofNat', Nat.mod_eq_of_lt (by omega)]
  have goal : goalBuckets ht = nextPow2 (UInt64.ofNat (2 * ht.cItems.toNat)) := by
    rw [goalBuckets, stands.goal]
    exact congrArg (fun n => nextPow2 (UInt64.ofNat (2 * n))) (Nat.zero_add _)
  have size : (goalBuckets ht).toNat = 2 ^ (2 * ht.cItems.toNat).size := by
    rw [goal, toNat_nextPow2 (by omega) (by omega), word]
  have more : 2 * ht.cItems.toNat < 2 ^ (2 * ht.cItems.toNat).size := Nat.lt_size_self _
  have less : 2 ^ (2 * ht.cItems.toNat).size ≤ 2 * (2 * ht.cItems.toNat) := by
    obtain ⟨n, same⟩ := Nat.exists_eq_add_one.mpr
      (Nat.size_pos.mpr (by omega : 0 < 2 * ht.cItems.toNat))
    have : 2 ^ n ≤ 2 * ht.cItems.toNat := Nat.lt_size.mp (by omega)
    rw [same, Nat.pow_succ]
    omega
  have small : (2 * ht.cItems.toNat).size ≤ 30 := Nat.size_le.mpr (by omega)
  generalize (2 * ht.cItems.toNat).size = k at size more less small
  have least : 2 ^ k ≤ 2 ^ max k 6 := Nat.pow_le_pow_right (by omega) (Nat.le_max_left k 6)
  obtain ⟨p, table', n', b', rehashed, size', result⟩ := stands.filled.rehash size small
    (by rw [← stands.cItems]; omega) watched
  have none : Nat.count (fun i => (b' i).isDeleted = true) (2 ^ max k 6) = 0 := by
    apply Nat.count_iff_forall_not.mpr
    intro i _ deleted
    cases here : b' i with
    | deleted => exact result.unmarked here
    | _ =>
      rw [here] at deleted
      cases deleted
  refine ⟨p, _, max k 6, b', rehashed, ?_, ?_, rfl, result⟩
  · exact {
      cBuckets := size'
      filled := result.filled
      cItems := stands.cItems.trans result.count.symm
      cDeletedItems := none.symm
      goal := stands.goal
      small := by omega }
  · constructor
    · change 2 * (ht.cItems.toNat + 0) < n'.toNat
      omega
    · change n'.toNat < 1024 ∨ n'.toNat ≤ 5 * ht.cItems.toNat
      rw [size']
      rcases Nat.le_total 6 k with many | few'
      · rw [Nat.max_eq_left many]
        omega
      · rw [Nat.max_eq_right few']
        exact Or.inl (by decide)

/-- `Insert` grows the table if it is half full, and the item is where the pointer says. -/
theorem Stands.grow (stands : Stands h ht e b) (few : ht.cItems.toNat < 2 ^ 29)
    (fifth : ht.cBuckets.toNat < 1024 ∨ ht.cBuckets.toNat ≤ 5 * ht.cItems.toNat)
    (inside : i < 2 ^ e) (here : b i = .live key data) :
    ∃ p ht' e' b', grow h ht (ptrOf (itemsOf b) i) = some (p, ht') ∧
      Stands h ht' e' b' ∧ Balanced ht' ∧ ht'.posLastFind = ht.posLastFind ∧
      (∃ i' < 2 ^ e', b' i' = .live key data ∧ p = ptrOf (itemsOf b') i') ∧
      ∀ k v, Holds (2 ^ e') b' k v ↔ Holds (2 ^ e) b k v := by
  have live : (b i).isLive = true := Bucket.isLive_iff.mpr ⟨key, data, here⟩
  have pos : 0 < ht.cItems.toNat := by
    rw [stands.cItems]
    exact Nat.pos_of_ne_zero (Nat.count_ne_iff_exists.mpr ⟨i, inside, live⟩)
  by_cases full : isFull ht = true
  · obtain ⟨p, ht', e', b', rehashed, stands', balanced, last, result⟩ :=
      stands.rehash_goal (some i) pos few (by
        rintro _ ⟨⟩
        exact ⟨inside, live⟩)
    obtain ⟨i', inside', there, rfl⟩ := result.watched rfl here
    refine ⟨_, ht', e', b', ?_, stands', balanced, last, ⟨i', inside', there, rfl⟩,
      fun k v => result.holds⟩
    rw [Option.map_some] at rehashed
    simp [Chash.grow, full, rehashed]
  · have half : 2 * (ht.cItems.toNat + ht.cDeletedItems.toNat) < ht.cBuckets.toNat := by
      simpa [isFull] using full
    refine ⟨_, ht, e, b, ?_, stands, ⟨half, fifth⟩, rfl, ⟨i, inside, here, rfl⟩,
      fun k v => Iff.rfl⟩
    simp [Chash.grow, full, stands.goal]

end Resize

/-! ## Insert -/

section Insert

variable {K : Type} {h : K → UInt64} {e i : Nat} {b : Nat → Bucket K UInt64} {key : K}
  {data : UInt64}

/-- An item is put into a bucket that is empty or marked. -/
theorem Filled.put {table : List (SparseBin K)} {location : UInt64} (filled : Filled h table e b)
    (inside : location.toNat < 2 ^ e) (spare : (b location.toNat).isLive = false)
    (unmarked : data ≠ deletedData)
    (sound : Sound (scheme h e) (Function.update b location.toNat (.live key data))) :
    ∃ table', sparseInsert table location ⟨data, some key⟩ true =
        some (ptrOf (itemsOf b) location.toNat, (b location.toNat).isDeleted, table') ∧
      Filled h table' e (Function.update b location.toNat (.live key data)) := by
  have other : ∀ k, Bucket.live key data ≠ .live k deletedData := by
    rintro k ⟨⟩
    exact unmarked rfl
  cases here : b location.toNat with
  | empty =>
    have none : itemsOf b location.toNat = none := by
      rw [itemsOf, here]
      rfl
    obtain ⟨table', inserted, same, array⟩ :=
      filled.array.insert_none (filled.lt inside) none ⟨data, some key⟩ true
    exact ⟨table', inserted, filled.update same array other sound⟩
  | deleted =>
    have item : itemsOf b location.toNat = some ⟨deletedData, none⟩ := by
      rw [itemsOf, here]
      rfl
    obtain ⟨table', inserted, same, array⟩ :=
      filled.array.insert_some (filled.lt inside) item ⟨data, some key⟩ true
    exact ⟨table', inserted, filled.update same array other sound⟩
  | live k v =>
    rw [here] at spare
    cases spare

/-- The table after the key was set: its item is where the pointer says, and the other keys are as
    they were. -/
structure SetTo (h : K → UInt64) (e : Nat) (b : Nat → Bucket K UInt64) (key : K) (data : UInt64)
    (p : ItemPtr) (ht' : HashTable K) (e' : Nat) (b' : Nat → Bucket K UInt64) : Prop where
  stands : Stands h ht' e' b'
  balanced : Balanced ht'
  last : ht'.posLastFind = some none
  here : ∃ i < 2 ^ e', b' i = .live key data ∧ p = ptrOf (itemsOf b') i
  others {k : K} {v : UInt64} : k ≠ key → (Holds (2 ^ e') b' k v ↔ Holds (2 ^ e) b k v)

variable [DecidableEq K] {ht : HashTable K}

/-- A new key takes a bucket, and the table may grow. -/
theorem Stands.hashInsert_absent (stands : Stands h ht e b) (balanced : Balanced ht)
    (unmarked : data ≠ deletedData) (absent : Absent (2 ^ e) b key)
    (few : ht.cItems.toNat + 1 < 2 ^ 29) :
    ∃ p ht' e' b', hashInsert h ht key data = some (p, ht') ∧
      SetTo h e b key data p ht' e' b' := by
  obtain ⟨iEmpty, j, found, short, place, spare, before⟩ :=
    stands.filled.find_absent stands.cBuckets absent (stands.exists_empty balanced)
  have inside : iEmpty.toNat < 2 ^ e := place ▸ (scheme h e).path_lt short
  have sound := stands.filled.sound.insert absent short before data
  rw [← place] at sound
  obtain ⟨table', inserted, filled⟩ := stands.filled.put inside spare unmarked sound
  obtain ⟨lives, marks⟩ := counts_put inside spare key data
  have one : (1 : UInt64).toNat = 1 := rfl
  have items : (ht.cItems + 1).toNat = ht.cItems.toNat + 1 := by
    rw [UInt64.toNat_add, one, Nat.mod_eq_of_lt (by omega)]
  have deleted : (if (b iEmpty.toNat).isDeleted then ht.cDeletedItems - 1
      else ht.cDeletedItems).toNat =
      Nat.count (fun j => (Function.update b iEmpty.toNat (.live key data) j).isDeleted = true)
        (2 ^ e) := by
    rw [← stands.cDeletedItems] at marks
    split at marks
    · rename_i marked
      have some : (1 : UInt64) ≤ ht.cDeletedItems := by
        rw [UInt64.le_iff_toNat_le, one]
        omega
      rw [if_pos marked, UInt64.toNat_sub_of_le _ _ some, one]
      omega
    · rename_i unmarked
      rw [if_neg unmarked]
      exact marks.symm
  have after : Stands h { ht with
      posLastFind := some none
      table := table'
      cDeletedItems := if (b iEmpty.toNat).isDeleted then ht.cDeletedItems - 1
        else ht.cDeletedItems
      cItems := ht.cItems + 1 } e (Function.update b iEmpty.toNat (.live key data)) := {
    cBuckets := stands.cBuckets
    filled := filled
    cItems := by
      change (ht.cItems + 1).toNat = _
      rw [items, lives, stands.cItems]
    cDeletedItems := deleted
    goal := stands.goal
    small := stands.small }
  have fewer : (ht.cItems + 1).toNat < 2 ^ 29 := by omega
  have fifth := balanced.fifth
  have fifth' : ht.cBuckets.toNat < 1024 ∨ ht.cBuckets.toNat ≤ 5 * (ht.cItems + 1).toNat := by
    omega
  obtain ⟨p, ht', e', b', grown, stands', balanced', last, held, holds⟩ :=
    after.grow fewer fifth' inside (Function.update_self ..)
  refine ⟨p, ht', e', b', ?_, stands', balanced', last, held, ?_⟩
  · rw [itemsOf_update, ptrOf_update] at grown
    simp only [hashInsert, insert, found, inserted, Option.bind_eq_bind, Option.bind_some]
    rw [← grown]
    congr 1
    simp [stands.goal]
  · intro k w ne
    have own : ∀ k' w', b iEmpty.toNat = .live k' w' → k' = key := by
      intro k' w' there
      rw [there] at spare
      cases spare
    have update := @holds_update _ _ (scheme h e) b key k data iEmpty.toNat _ inside own
      (fun i' below _ w' there => absent i' below w' there) w
    rw [if_neg ne] at update
    exact (holds k w).trans update

/-- A key that is there gets the data. -/
theorem Stands.hashInsert_held (stands : Stands h ht e b) (balanced : Balanced ht)
    (unmarked : data ≠ deletedData) (inside : i < 2 ^ e) {old : UInt64}
    (here : b i = .live key old) :
    ∃ p ht' e' b', hashInsert h ht key data = some (p, ht') ∧
      SetTo h e b key data p ht' e' b' := by
  obtain ⟨piEmpty, found⟩ := stands.filled.find_found stands.cBuckets inside here
  have item : itemsOf b i = some ⟨old, some key⟩ := by
    rw [itemsOf, here]
    rfl
  obtain ⟨table', stored, same, array⟩ :=
    stands.filled.array.store (stands.filled.lt inside) item ⟨data, some key⟩
  have other : ∀ k, Bucket.live key data ≠ .live k deletedData := by
    rintro k ⟨⟩
    exact unmarked rfl
  have sound := stands.filled.sound.setValue inside data
  rw [here] at sound
  have filled := stands.filled.update same (x := .live key data) array other sound
  obtain ⟨lives, marks⟩ := counts_live inside here (.live key data)
  have bck := stands.filled.deref_live inside here
  refine ⟨ptrOf (itemsOf b) i, { ht with posLastFind := some none, table := table' }, e,
    Function.update b i (.live key data), ?_, ?_, ⟨balanced.half, balanced.fifth⟩, rfl,
    ⟨i, inside, Function.update_self .., ?_⟩, ?_⟩
  · simp only [hashInsert, insert, found, bck, stored, Option.bind_eq_bind, Option.bind_some,
      if_true]
  · exact {
      cBuckets := stands.cBuckets
      filled := filled
      cItems := stands.cItems.trans (Nat.add_right_cancel lives).symm
      cDeletedItems := stands.cDeletedItems.trans marks.symm
      goal := stands.goal
      small := stands.small }
  · rw [itemsOf_update, ptrOf_update]
  · intro k w ne
    have own : ∀ k' w', b i = .live k' w' → k' = key := by
      intro k' w' there
      rw [here] at there
      cases there
      rfl
    have update := @holds_update _ _ (scheme h e) b key k data i _ inside own
      (fun i' below apart w' there =>
        apart (stands.filled.sound.unique below inside there here)) w
    rwa [if_neg ne] at update

end Insert

section Delete

variable {K : Type} {h : K → UInt64} {ht : HashTable K} {e i : Nat}
  {b : Nat → Bucket K UInt64} {key : K} {data : UInt64}

/-- The table after the key was taken out. -/
structure Removed (h : K → UInt64) (e : Nat) (b : Nat → Bucket K UInt64) (key : K)
    (ht' : HashTable K) (e' : Nat) (b' : Nat → Bucket K UInt64) : Prop where
  stands : Stands h ht' e' b'
  balanced : Balanced ht'
  last : ht'.posLastFind = some none
  holds {k : K} {v : UInt64} : Holds (2 ^ e') b' k v ↔ k ≠ key ∧ Holds (2 ^ e) b k v

/-- An item is marked. -/
theorem Stands.mark (stands : Stands h ht e b) (inside : i < 2 ^ e) (here : b i = .live key data) :
    ∃ table', setBckDeleted ht.table (ptrOf (itemsOf b) i) = some table' ∧
      (ht.cItems - 1).toNat + 1 = ht.cItems.toNat ∧
      (ht.cDeletedItems + 1).toNat = ht.cDeletedItems.toNat + 1 ∧
      Stands h { ht with
        table := table', cItems := ht.cItems - 1, cDeletedItems := ht.cDeletedItems + 1 } e
        (Function.update b i .deleted) := by
  have item : itemsOf b i = some ⟨data, some key⟩ := by
    rw [itemsOf, here]
    rfl
  obtain ⟨table', stored, same, array⟩ :=
    stands.filled.array.store (stands.filled.lt inside) item ⟨deletedData, none⟩
  have other : ∀ k : K, Bucket.deleted ≠ .live k deletedData := by
    rintro k ⟨⟩
  have filled := stands.filled.update same (x := .deleted) array other
    (stands.filled.sound.erase i)
  obtain ⟨lives, marks⟩ := counts_live inside here .deleted
  have bck := stands.filled.deref_live inside here
  have one : (1 : UInt64).toNat = 1 := rfl
  have counts := stands.counts_le
  have le := stands.le
  have pos : (1 : UInt64) ≤ ht.cItems := by
    rw [UInt64.le_iff_toNat_le, one, stands.cItems]
    exact Nat.le_of_lt_succ (Nat.lt_succ_of_le (Nat.le_of_add_left_le (Nat.le_of_eq lives)))
  have items : (ht.cItems - 1).toNat + 1 = ht.cItems.toNat := by
    rw [UInt64.toNat_sub_of_le _ _ pos, one]
    rw [UInt64.le_iff_toNat_le, one] at pos
    omega
  have deleted : (ht.cDeletedItems + 1).toNat = ht.cDeletedItems.toNat + 1 := by
    rw [UInt64.toNat_add, one, Nat.mod_eq_of_lt (by omega)]
  refine ⟨table', ?_, items, deleted, ?_⟩
  · simp only [setBckDeleted, freeKey, bck, stored, Option.bind_eq_bind, Option.bind_some]
  · exact {
      cBuckets := stands.cBuckets
      filled := filled
      cItems := by
        rw [stands.cItems] at items
        exact Nat.add_right_cancel (items.trans lives.symm)
      cDeletedItems := by
        change (ht.cDeletedItems + 1).toNat = _
        rw [deleted, marks, stands.cDeletedItems]
        rfl
      goal := stands.goal
      small := stands.small }

/-- The item that was found is marked, and the table may shrink; at least one item is left then. -/
theorem Stands.deleteFound (stands : Stands h ht e b) (balanced : Balanced ht) (inside : i < 2 ^ e)
    (here : b i = .live key data)
    (last : ht.posLastFind = some (some (ptrOf (itemsOf b) i))) :
    ∃ ht' e' b', deleteFound h ht = some ht' ∧ Removed h e b key ht' e' b' := by
  obtain ⟨table', marked, items, deleted, after⟩ := stands.mark inside here
  have erased : ∀ {k v}, Holds (2 ^ e) (Function.update b i .deleted) k v ↔
      k ≠ key ∧ Holds (2 ^ e) b k v :=
    holds_erase stands.filled.sound inside here
  have le := stands.le
  have size := stands.cBuckets
  have half := balanced.half
  have fifth := balanced.fifth
  have buckets : (512 : UInt64) ≤ ht.cBuckets >>> 1 ↔ 1024 ≤ ht.cBuckets.toNat := by
    have halves : (ht.cBuckets >>> 1).toNat = ht.cBuckets.toNat / 2 := by
      rw [UInt64.toNat_shiftRight]
      exact Nat.shiftRight_eq_div_pow _ 1
    have least : (512 : UInt64).toNat = 512 := rfl
    rw [UInt64.le_iff_toNat_le, halves, least]
    omega
  by_cases shrinks : 5 * (ht.cItems - 1).toNat < ht.cBuckets.toNat ∧ 1024 ≤ ht.cBuckets.toNat
  · obtain ⟨sparse, large⟩ := shrinks
    have left : 0 < (ht.cItems - 1).toNat := by omega
    have few : (ht.cItems - 1).toNat < 2 ^ 29 := by omega
    obtain ⟨p, ht', e', b', rehashed, stands', balanced', -, result⟩ :=
      after.rehash_goal none left few nofun
    refine ⟨{ ht' with posLastFind := some none }, e', b', ?_, stands'.setLast _,
      ⟨balanced'.half, balanced'.fifth⟩, rfl, result.holds.trans erased⟩
    rw [Option.map_none, stands.goal, last] at rehashed
    simp [Chash.deleteFound, last, marked, isSparse, sparse, buckets, large, stands.goal,
      rehashed]
  · refine ⟨_, e, _, ?_, after.setLast (some none), ⟨?_, ?_⟩, rfl, erased⟩
    · have keeps : ¬ (5 * (ht.cItems - 1).toNat < ht.cBuckets.toNat ∧
          (512 : UInt64) ≤ ht.cBuckets >>> 1) := by rwa [buckets]
      simp [Chash.deleteFound, last, marked, isSparse, keeps, stands.goal]
    · change 2 * ((ht.cItems - 1).toNat + (ht.cDeletedItems + 1).toNat) < ht.cBuckets.toNat
      omega
    · change ht.cBuckets.toNat < 1024 ∨ ht.cBuckets.toNat ≤ 5 * (ht.cItems - 1).toNat
      omega

/-- A table with 512 empty buckets. -/
theorem stands_empty (h : K → UInt64) (last : Option (Option ItemPtr)) :
    ∃ n table, sparseAllocate K 512 = some (n, table) ∧
      Stands h ⟨0, 0, n, table, 0, last⟩ 9 (fun _ => .empty) ∧
      Balanced (⟨0, 0, n, table, 0, last⟩ : HashTable K) := by
  obtain ⟨n, allocated, size⟩ := sparseAllocate_eq K (n := 512) (k := 9) rfl (by decide)
  have empty := (copy_replicate h 0 (fun _ => .empty) 9).filled
  have none : ∀ p : Bucket K UInt64 → Bool, p .empty = false →
      Nat.count (fun _ => p .empty = true) (2 ^ 9) = 0 := by
    intro p out
    apply Nat.count_iff_forall_not.mpr
    intro _ _ here
    rw [out] at here
    cases here
  refine ⟨n, _, allocated, ⟨size, empty, (none _ rfl).symm, (none _ rfl).symm, rfl, by decide⟩,
    ⟨?_, ?_⟩⟩
  · change 2 * (0 + 0) < n.toNat
    rw [size]
    decide
  · change n.toNat < 1024 ∨ _
    rw [size]
    exact Or.inl (by decide)

/-- `ClearHashTable` frees every key once. -/
theorem Stands.clearHashTable (stands : Stands h ht e b) :
    ∃ ht', clearHashTable ht = some ht' ∧ Stands h ht' 9 (fun _ => .empty) ∧ Balanced ht' ∧
      ht'.posLastFind = some none := by
  obtain ⟨n, table, allocated, empty, balanced⟩ := stands_empty h (some none)
  have each : ∀ l : List Nat, (∀ i ∈ l, i < 2 ^ e ∧ (b i).isLive = true) →
      (l.map (ptrOf (itemsOf b))).foldlM (fun _ => freeKey ht.table) () = some () := by
    intro l live
    induction l with
    | nil => rfl
    | cons i l ih =>
      obtain ⟨inside, here⟩ := live i List.mem_cons_self
      obtain ⟨k, v, here⟩ := Bucket.isLive_iff.mp here
      rw [List.map_cons, List.foldlM_cons, freeKey, stands.filled.deref_live inside here]
      exact ih fun i' member => live i' (List.mem_cons_of_mem i member)
  have frees : forBuckets ht.table (fun _ => freeKey ht.table) () = some () := by
    rw [stands.filled.forBuckets]
    exact each _ fun i member => mem_liveBuckets.mp member
  refine ⟨_, ?_, empty, balanced, rfl⟩
  simp only [Chash.clearHashTable, frees, allocated, Option.bind_eq_bind, Option.bind_some]

end Delete

/-! ## Calls on a table -/

/-- A call of the user. -/
inductive HashOp (K : Type) where
  | insert (key : K) (data : UInt64)
  | find (key : K)
  | findLast
  | delete (key : K)
  | deleteLast
  | clear

/-- What a call returns: the data of an item, if there is one, or whether one was deleted. -/
inductive HashAnswer where
  | item (data : Option UInt64)
  | deleted (found : Bool)
  | cleared
  deriving DecidableEq

section Runs

variable {K : Type} [DecidableEq K]

/-- What is read through a pointer. -/
def readItem (ht : HashTable K) : Option ItemPtr → Option HashAnswer
  | none => some (.item none)
  | some bck => do
    let item ← deref ht.table bck
    some (.item (some item.data))

/-- What the call makes of a table. -/
def HashOp.run (h : K → UInt64) (ht : HashTable K) : HashOp K → Option (HashAnswer × HashTable K)
  | insert key data => do
    let (bck, ht) ← hashInsert h ht key data
    let answer ← readItem ht (some bck)
    some (answer, ht)
  | find key => do
    let (bck, ht) ← hashFind h ht key
    let answer ← readItem ht bck
    some (answer, ht)
  | findLast => do
    let bck ← hashFindLast ht
    let answer ← readItem ht bck
    some (answer, ht)
  | delete key => do
    let (found, ht) ← hashDelete h ht key
    some (.deleted found, ht)
  | deleteLast => do
    let (found, ht) ← hashDeleteLast h ht
    some (.deleted found, ht)
  | clear => do
    let ht ← clearHashTable ht
    some (.cleared, ht)

/-- Call after call. -/
def runHash (h : K → UInt64) (ht : HashTable K) : List (HashOp K) →
    Option (List HashAnswer × HashTable K)
  | [] => some ([], ht)
  | op :: ops => do
    let (answer, ht) ← op.run h ht
    let (answers, ht) ← runHash h ht ops
    some (answer :: answers, ht)

/-- A finite map, and the key that was found last once that is set. -/
structure IdealTable (K : Type) where
  items : AList fun _ : K => UInt64
  last : Option (Option K)

/-- The same on a finite map. -/
def HashOp.ideal (t : IdealTable K) : HashOp K → HashAnswer × IdealTable K
  | insert key data => (.item (some data), ⟨t.items.insert key data, some none⟩)
  | find key =>
    (.item (t.items.lookup key), ⟨t.items, some (if key ∈ t.items then some key else none)⟩)
  | findLast => (.item (t.last.join.bind t.items.lookup), t)
  | delete key => (.deleted (decide (key ∈ t.items)), ⟨t.items.erase key, some none⟩)
  | deleteLast =>
    match t.last.join with
    | none => (.deleted false, t)
    | some key => (.deleted true, ⟨t.items.erase key, some none⟩)
  | clear => (.cleared, ⟨∅, some none⟩)

/-- What the user has to see to: the data is not `DELETED`, a new key is only inserted while there
    are fewer than `2 ^ 29 - 1`, and the last item is not asked for before it is set. -/
def HashOp.Allowed (t : IdealTable K) : HashOp K → Prop
  | insert key data => data ≠ deletedData ∧ (key ∈ t.items ∨ t.items.keys.length + 1 < 2 ^ 29)
  | findLast | deleteLast => t.last.isSome
  | _ => True

def runIdealTable (t : IdealTable K) : List (HashOp K) → List HashAnswer
  | [] => []
  | op :: ops => (op.ideal t).1 :: runIdealTable (op.ideal t).2 ops

/-- The finite map after the calls. -/
def endIdealTable (t : IdealTable K) : List (HashOp K) → IdealTable K
  | [] => t
  | op :: ops => endIdealTable (op.ideal t).2 ops

def AllowedRun (t : IdealTable K) : List (HashOp K) → Prop
  | [] => True
  | op :: ops => op.Allowed t ∧ AllowedRun (op.ideal t).2 ops

instance (t : IdealTable K) : (op : HashOp K) → Decidable (op.Allowed t)
  | .insert key data => inferInstanceAs (Decidable (data ≠ deletedData ∧
      (key ∈ t.items ∨ t.items.keys.length + 1 < 2 ^ 29)))
  | .findLast => inferInstanceAs (Decidable t.last.isSome)
  | .deleteLast => inferInstanceAs (Decidable t.last.isSome)
  | .find _ => instDecidableTrue
  | .delete _ => instDecidableTrue
  | .clear => instDecidableTrue

instance decidableAllowedRun (t : IdealTable K) : (ops : List (HashOp K)) →
    Decidable (AllowedRun t ops)
  | [] => instDecidableTrue
  | op :: ops =>
    have := decidableAllowedRun (op.ideal t).2 ops
    inferInstanceAs (Decidable (op.Allowed t ∧ AllowedRun (op.ideal t).2 ops))

end Runs

/-! ## Tables that represent finite maps -/

section Represents

variable {K : Type} {h : K → UInt64} {ht : HashTable K} {e : Nat} {b : Nat → Bucket K UInt64}

/-- `posLastFind` points to the item of the key that was found last. -/
def LastFits (ht : HashTable K) (e : Nat) (b : Nat → Bucket K UInt64) :
    Option (Option K) → Prop
  | none => True
  | some none => ht.posLastFind = some none
  | some (some key) => ∃ i < 2 ^ e, ∃ data, b i = .live key data ∧
    ht.posLastFind = some (some (ptrOf (itemsOf b) i))

variable [DecidableEq K]

/-- The table stands and holds the finite map. -/
def Represents (h : K → UInt64) (ht : HashTable K) (t : IdealTable K) : Prop :=
  ∃ e b, Stands h ht e b ∧ Balanced ht ∧ LastFits ht e b t.last ∧
    ∀ k v, Holds (2 ^ e) b k v ↔ t.items.lookup k = some v

variable {t : IdealTable K} {key : K} {data : UInt64}

/-- There are no more items than the finite map has. -/
theorem cItems_le (stands : Stands h ht e b)
    (holds : ∀ k v, Holds (2 ^ e) b k v ↔ t.items.lookup k = some v) :
    ht.cItems.toNat ≤ t.items.keys.length := by
  have few := stands.filled.sound.count_live_le t.items.keys.toFinset (fun k v held => by
    rw [List.mem_toFinset]
    apply AList.mem_keys.mp
    exact AList.lookup_isSome.mp (Option.isSome_of_eq_some ((holds k v).mp held)))
  rw [stands.cItems]
  exact Nat.le_trans few (List.toFinset_card_le _)

theorem absent_of_notMem (holds : ∀ k v, Holds (2 ^ e) b k v ↔ t.items.lookup k = some v)
    (out : key ∉ t.items) : Absent (2 ^ e) b key := by
  intro i inside v here
  have found := (holds key v).mp ⟨i, inside, here⟩
  rw [AList.lookup_eq_none.mpr out] at found
  cases found

theorem holds_of_mem (holds : ∀ k v, Holds (2 ^ e) b k v ↔ t.items.lookup k = some v)
    (held : key ∈ t.items) : ∃ i < 2 ^ e, ∃ v, b i = .live key v ∧ t.items.lookup key = some v := by
  obtain ⟨v, found⟩ := Option.isSome_iff_exists.mp (AList.lookup_isSome.mpr held)
  obtain ⟨i, inside, here⟩ := (holds key v).mpr found
  exact ⟨i, inside, v, here, found⟩

/-- A table with empty buckets represents the empty map. -/
theorem represents_empty (stands : Stands h ht e fun _ => .empty) (balanced : Balanced ht)
    {last : Option (Option K)} (fits : LastFits ht e (fun _ => .empty) last) :
    Represents h ht ⟨∅, last⟩ := by
  refine ⟨e, _, stands, balanced, fits, ?_⟩
  intro k v
  constructor
  · rintro ⟨i, -, here⟩
    cases here
  · intro found
    rw [AList.lookup_empty] at found
    cases found

theorem SetTo.represents {p : ItemPtr} {ht' : HashTable K} {e' : Nat} {b' : Nat → Bucket K UInt64}
    (set : SetTo h e b key data p ht' e' b')
    (holds : ∀ k v, Holds (2 ^ e) b k v ↔ t.items.lookup k = some v) :
    Represents h ht' ⟨t.items.insert key data, some none⟩ := by
  refine ⟨e', b', set.stands, set.balanced, set.last, ?_⟩
  intro k v
  by_cases own : k = key
  · subst own
    rw [AList.lookup_insert]
    obtain ⟨i, inside, here, -⟩ := set.here
    have held : Holds (2 ^ e') b' k data := ⟨i, inside, here⟩
    constructor
    · intro held'
      exact congrArg some (held.unique set.stands.filled.sound held')
    · rintro ⟨⟩
      exact held
  · rw [AList.lookup_insert_ne own, set.others own, holds]

theorem Removed.represents {ht' : HashTable K} {e' : Nat} {b' : Nat → Bucket K UInt64}
    (removed : Removed h e b key ht' e' b')
    (holds : ∀ k v, Holds (2 ^ e) b k v ↔ t.items.lookup k = some v) :
    Represents h ht' ⟨t.items.erase key, some none⟩ := by
  refine ⟨e', b', removed.stands, removed.balanced, removed.last, ?_⟩
  intro k v
  rw [removed.holds, holds]
  by_cases own : k = key
  · rw [own, AList.lookup_erase]
    simp
  · rw [AList.lookup_erase_ne own]
    simp [own]

theorem Represents.hashInsert (represents : Represents h ht t) (unmarked : data ≠ deletedData)
    (few : key ∈ t.items ∨ t.items.keys.length + 1 < 2 ^ 29) :
    ∃ bck ht', hashInsert h ht key data = some (bck, ht') ∧
      readItem ht' (some bck) = some (.item (some data)) ∧
      Represents h ht' ⟨t.items.insert key data, some none⟩ := by
  obtain ⟨e, b, stands, balanced, -, holds⟩ := represents
  have sets : ∃ p ht' e' b', Chash.hashInsert h ht key data = some (p, ht') ∧
      SetTo h e b key data p ht' e' b' := by
    by_cases held : key ∈ t.items
    · obtain ⟨i, inside, v, here, -⟩ := holds_of_mem holds held
      exact stands.hashInsert_held balanced unmarked inside here
    · have few := few.resolve_left held
      have le := cItems_le stands holds
      exact stands.hashInsert_absent balanced unmarked (absent_of_notMem holds held) (by omega)
  obtain ⟨p, ht', e', b', inserted, set⟩ := sets
  refine ⟨p, ht', inserted, ?_, set.represents holds⟩
  obtain ⟨i, inside, here, rfl⟩ := set.here
  simp [readItem, set.stands.filled.deref_live inside here]

/-- A key is found with its data, or not at all. -/
theorem Represents.find (represents : Represents h ht t) (key : K) :
    ∃ bck piEmpty ht', find h ht key = some (bck, piEmpty, ht') ∧
      readItem ht' bck = some (.item (t.items.lookup key)) ∧
      bck.isSome = decide (key ∈ t.items) ∧
      Represents h ht' ⟨t.items, some (if key ∈ t.items then some key else none)⟩ := by
  obtain ⟨e, b, stands, balanced, -, holds⟩ := represents
  by_cases held : key ∈ t.items
  · obtain ⟨i, inside, v, here, found⟩ := holds_of_mem holds held
    obtain ⟨piEmpty, ends⟩ := stands.filled.find_found stands.cBuckets inside here
    refine ⟨_, _, _, ends, ?_, (decide_eq_true held).symm, e, b, stands.setLast _,
      ⟨balanced.half, balanced.fifth⟩, ?_, holds⟩
    · rw [found]
      simp [readItem, stands.filled.deref_live inside here]
    · rw [if_pos held]
      exact ⟨i, inside, v, here, rfl⟩
  · obtain ⟨iEmpty, j, ends, -⟩ := stands.filled.find_absent stands.cBuckets
      (absent_of_notMem holds held) (stands.exists_empty balanced)
    refine ⟨_, _, _, ends, ?_, (decide_eq_false held).symm, e, b, stands.setLast _,
      ⟨balanced.half, balanced.fifth⟩, ?_, holds⟩
    · rw [AList.lookup_eq_none.mpr held]
      rfl
    · rw [if_neg held]
      rfl

/-- The key that was found last is taken out. -/
theorem Represents.deleteFound (represents : Represents h ht t) (last : t.last = some (some key)) :
    ∃ ht', deleteFound h ht = some ht' ∧ Represents h ht' ⟨t.items.erase key, some none⟩ := by
  obtain ⟨e, b, stands, balanced, fits, holds⟩ := represents
  rw [last] at fits
  obtain ⟨i, inside, v, here, points⟩ := fits
  obtain ⟨ht', e', b', deleted, removed⟩ := stands.deleteFound balanced inside here points
  exact ⟨ht', deleted, removed.represents holds⟩

/-- The last item is the one the finite map has for the key that was found last. -/
theorem Represents.hashFindLast (represents : Represents h ht t) (set : t.last.isSome) :
    ∃ bck, hashFindLast ht = some bck ∧
      readItem ht bck = some (.item (t.last.join.bind t.items.lookup)) ∧
      bck.isSome = t.last.join.isSome := by
  obtain ⟨e, b, stands, balanced, fits, holds⟩ := represents
  obtain ⟨last, same⟩ := Option.isSome_iff_exists.mp set
  rw [same] at fits ⊢
  cases last with
  | none => exact ⟨none, fits, rfl, rfl⟩
  | some key =>
    obtain ⟨i, inside, v, here, points⟩ := fits
    refine ⟨_, points, ?_, rfl⟩
    have found := (holds key v).mp ⟨i, inside, here⟩
    simp [readItem, stands.filled.deref_live inside here, found]

/-- Every call does what it does on the finite map. -/
theorem Represents.run (represents : Represents h ht t) {op : HashOp K} (allowed : op.Allowed t) :
    ∃ ht', op.run h ht = some ((op.ideal t).1, ht') ∧ Represents h ht' (op.ideal t).2 := by
  cases op with
  | insert key data =>
    obtain ⟨bck, ht', inserted, read, after⟩ := represents.hashInsert allowed.1 allowed.2
    refine ⟨ht', ?_, after⟩
    simp only [HashOp.run, HashOp.ideal, inserted, read, Option.bind_eq_bind, Option.bind_some]
  | find key =>
    obtain ⟨bck, piEmpty, ht', found, read, -, after⟩ := represents.find key
    refine ⟨ht', ?_, after⟩
    simp only [HashOp.run, HashOp.ideal, hashFind, found, read, Option.bind_eq_bind,
      Option.bind_some]
  | findLast =>
    obtain ⟨bck, found, read, -⟩ := represents.hashFindLast allowed
    refine ⟨ht, ?_, represents⟩
    simp only [HashOp.run, HashOp.ideal, found, read, Option.bind_eq_bind, Option.bind_some]
  | delete key =>
    obtain ⟨bck, piEmpty, ht1, found, -, some, after⟩ := represents.find key
    by_cases held : key ∈ t.items
    · rw [if_pos held] at after
      obtain ⟨ht', deleted, after⟩ := after.deleteFound rfl
      refine ⟨ht', ?_, after⟩
      simp [HashOp.run, HashOp.ideal, hashDelete, found, some, held, deleted]
    · rw [if_neg held] at after
      refine ⟨ht1, ?_, ?_⟩
      · simp [HashOp.run, HashOp.ideal, hashDelete, found, some, held]
      · have same : t.items.erase key = t.items := by
          apply AList.ext
          exact List.kerase_of_notMem_keys held
        rw [HashOp.ideal, same]
        exact after
  | deleteLast =>
    obtain ⟨bck, found, -, some⟩ := represents.hashFindLast allowed
    obtain ⟨last, same⟩ := Option.isSome_iff_exists.mp allowed
    rw [Chash.hashFindLast] at found
    rw [same] at some
    cases last with
    | none =>
      refine ⟨ht, ?_, ?_⟩
      · simp [HashOp.run, HashOp.ideal, hashDeleteLast, found, some, same]
      · simpa [HashOp.ideal, same] using represents
    | some key =>
      obtain ⟨ht', deleted, after⟩ := represents.deleteFound same
      refine ⟨ht', ?_, ?_⟩
      · simp [HashOp.run, HashOp.ideal, hashDeleteLast, found, some, same, deleted]
      · simpa [HashOp.ideal, same] using after
  | clear =>
    obtain ⟨e, b, stands, balanced, -, -⟩ := represents
    obtain ⟨ht', cleared, stands', balanced', last⟩ := stands.clearHashTable
    refine ⟨ht', ?_, represents_empty stands' balanced' last⟩
    simp only [HashOp.run, HashOp.ideal, cleared, Option.bind_eq_bind, Option.bind_some]

theorem Represents.runHash (represents : Represents h ht t) {ops : List (HashOp K)}
    (allowed : AllowedRun t ops) :
    ∃ ht', runHash h ht ops = some (runIdealTable t ops, ht') ∧
      Represents h ht' (endIdealTable t ops) := by
  induction ops generalizing ht t with
  | nil => exact ⟨ht, rfl, represents⟩
  | cons op ops ih =>
    obtain ⟨ht1, ran, after⟩ := represents.run allowed.1
    obtain ⟨ht', rest, after'⟩ := ih after allowed.2
    refine ⟨ht', ?_, after'⟩
    simp only [Chash.runHash, runIdealTable, ran, rest, Option.bind_eq_bind, Option.bind_some]

/-- `AllocateHashTable` and the calls. -/
theorem represents_runs (h : K → UInt64) {ops : List (HashOp K)}
    (allowed : AllowedRun ⟨∅, none⟩ ops) :
    ∃ ht, (allocateHashTable K).bind (Chash.runHash h · ops) =
        some (runIdealTable ⟨∅, none⟩ ops, ht) ∧
      Represents h ht (endIdealTable ⟨∅, none⟩ ops) := by
  obtain ⟨n, table, allocated, stands, balanced⟩ := stands_empty h none
  have start : Represents h (⟨0, 0, n, table, 0, none⟩ : HashTable K) ⟨∅, none⟩ :=
    represents_empty stands balanced trivial
  obtain ⟨ht, ran, after⟩ := start.runHash allowed
  refine ⟨ht, ?_, after⟩
  simp only [allocateHashTable, allocated, ran, Option.bind_eq_bind, Option.bind_some]

end Represents

section Results

variable {K : Type} [DecidableEq K]

/-- A table of libchash does what a finite map does. -/
theorem chash_runs (h : K → UInt64) (ops : List (HashOp K)) (allowed : AllowedRun ⟨∅, none⟩ ops) :
    ∃ ht, (allocateHashTable K).bind (runHash h · ops) =
      some (runIdealTable ⟨∅, none⟩ ops, ht) := by
  obtain ⟨ht, ran, -⟩ := represents_runs h allowed
  exact ⟨ht, ran⟩

/-- Calls with two keys, one of which is deleted by name and the other as the last one found. -/
def sampleCalls : List (HashOp (List UInt8)) :=
  [.insert [1] 10, .insert [2] 20, .find [1], .delete [1], .find [1], .find [2], .findLast,
    .deleteLast, .find [2], .insert [1] 11, .clear, .find [1]]

theorem chash_runs_sample :
    ∃ ht, (allocateHashTable (List UInt8)).bind (runHash hash · sampleCalls) =
      some ([.item (some 10), .item (some 20), .item (some 10), .deleted true, .item none,
        .item (some 20), .item (some 20), .deleted true, .item none, .item (some 11), .cleared,
        .item none], ht) := by
  apply chash_runs hash sampleCalls
  decide

end Results

section Items

variable {K : Type}

/-- What a loop with `HashFirstBucket` and `HashNextBucket` collects. -/
def hashItems (ht : HashTable K) : Option (List (K × UInt64)) :=
  forBuckets ht.table (fun l bck => do
    let item ← deref ht.table bck
    let key ← item.key
    some (l ++ [(key, item.data)])) []

/-- The key and the data in a bucket. -/
def pairOf : Bucket K UInt64 → Option (K × UInt64)
  | .live key data => some (key, data)
  | _ => none

theorem pairOf_eq_some {x : Bucket K UInt64} {key : K} {data : UInt64} :
    pairOf x = some (key, data) ↔ x = .live key data := by
  cases x <;> simp [pairOf]

variable {h : K → UInt64} {ht : HashTable K} {e : Nat} {b : Nat → Bucket K UInt64}

/-- The loop collects what stands in the live buckets. -/
theorem Filled.hashItems (filled : Filled h ht.table e b) :
    ∃ l, hashItems ht = some l ∧
      l.map some = (liveBuckets (2 ^ e) b).map fun i => pairOf (b i) := by
  have each : ∀ (live : List Nat) (l : List (K × UInt64)),
      (∀ i ∈ live, i < 2 ^ e ∧ (b i).isLive = true) →
      ∃ l', (live.map (ptrOf (itemsOf b))).foldlM (fun l bck => do
          let item ← deref ht.table bck
          let key ← item.key
          some (l ++ [(key, item.data)])) l = some (l ++ l') ∧
        l'.map some = live.map fun i => pairOf (b i) := by
    intro live
    induction live with
    | nil =>
      intro l _
      exact ⟨[], by simp, rfl⟩
    | cons i live ih =>
      intro l known
      obtain ⟨inside, here⟩ := known i List.mem_cons_self
      obtain ⟨k, v, here⟩ := Bucket.isLive_iff.mp here
      obtain ⟨l', rest, pairs⟩ := ih (l ++ [(k, v)])
        fun i' member => known i' (List.mem_cons_of_mem i member)
      refine ⟨(k, v) :: l', ?_, ?_⟩
      · rw [List.map_cons, List.foldlM_cons, filled.deref_live inside here]
        rw [List.append_assoc] at rest
        exact rest
      · rw [List.map_cons, List.map_cons, pairs, here]
        rfl
  obtain ⟨l, collected, pairs⟩ := each (liveBuckets (2 ^ e) b) [] fun i member =>
    mem_liveBuckets.mp member
  refine ⟨l, ?_, pairs⟩
  rw [Chash.hashItems, filled.forBuckets]
  exact collected

variable [DecidableEq K]

/-- After any calls `HashFirstBucket` and `HashNextBucket` go through the keys of the finite map,
    each once, with their data. -/
theorem chash_visits (h : K → UInt64) (ops : List (HashOp K))
    (allowed : AllowedRun ⟨∅, none⟩ ops) :
    ∃ answers ht l, (allocateHashTable K).bind (runHash h · ops) = some (answers, ht) ∧
      hashItems ht = some l ∧
      l.Perm ((endIdealTable ⟨∅, none⟩ ops).items.entries.map fun entry => (entry.1, entry.2)) := by
  obtain ⟨ht, ran, e, b, stands, -, -, holds⟩ := represents_runs h allowed
  obtain ⟨l, collected, pairs⟩ := stands.filled.hashItems
  refine ⟨_, ht, l, ran, collected, ?_⟩
  generalize (endIdealTable (⟨∅, none⟩ : IdealTable K) ops).items = items at holds ⊢
  have once : l.Nodup := by
    apply List.Nodup.of_map some
    rw [pairs]
    apply (nodup_liveBuckets _ b).map_on
    intro i member i' member' same
    obtain ⟨inside, live⟩ := mem_liveBuckets.mp member
    obtain ⟨inside', -⟩ := mem_liveBuckets.mp member'
    obtain ⟨k, v, here⟩ := Bucket.isLive_iff.mp live
    rw [pairOf_eq_some.mpr here] at same
    exact stands.filled.sound.unique inside inside' here (pairOf_eq_some.mp same.symm)
  have once' : (items.entries.map fun entry => (entry.1, entry.2)).Nodup := by
    apply items.nodupKeys.nodup.map
    rintro ⟨k, v⟩ ⟨k', v'⟩ same
    cases same
    rfl
  apply (List.perm_ext_iff_of_nodup once once').mpr
  rintro ⟨k, v⟩
  have left : (k, v) ∈ l ↔ Holds (2 ^ e) b k v := by
    rw [← List.mem_map_of_injective (Option.some_injective _), pairs, List.mem_map]
    constructor
    · rintro ⟨i, member, here⟩
      exact ⟨i, (mem_liveBuckets.mp member).1, pairOf_eq_some.mp here⟩
    · rintro ⟨i, inside, here⟩
      exact ⟨i, mem_liveBuckets.mpr ⟨inside, Bucket.isLive_iff.mpr ⟨k, v, here⟩⟩,
        pairOf_eq_some.mpr here⟩
  have right : (k, v) ∈ (items.entries.map fun entry => (entry.1, entry.2)) ↔
      (⟨k, v⟩ : Sigma fun _ : K => UInt64) ∈ items.entries := by
    rw [List.mem_map]
    constructor
    · rintro ⟨⟨k', v'⟩, member, same⟩
      cases same
      exact member
    · intro member
      exact ⟨⟨k, v⟩, member, rfl⟩
  rw [left, right, holds, ← AList.mem_lookup_iff]
  exact Iff.rfl

theorem chash_visits_sample :
    ∃ answers ht l, (allocateHashTable (List UInt8)).bind
        (runHash hash · [.insert [1] 10, .insert [2] 20, .insert [1] 11, .delete [2]]) =
      some (answers, ht) ∧ hashItems ht = some l ∧ l.Perm [([1], 11)] :=
  chash_visits hash [.insert [1] 10, .insert [2] 20, .insert [1] 11, .delete [2]] (by decide)

end Items

end Bzing.Chash
