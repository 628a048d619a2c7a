import Bzing.Hash.Growing

/-!
# alignhash

What `ulib/alignhash_tpl.h` has of its own: linear probing, tables that are at most half full,
and an `alignhash_set` that doubles the number of buckets. Twice `2 ^ 31` buckets are none, and
when such a table is half full `alignhash_set` gives up, for keys that are there as well.
-/

namespace Bzing

open OpenTable HashTable

/-- `AH_FLAGS_BYTE` (`alignhash_tpl.h:63`). -/
def ahFlagsByte (nb : UInt32) : Nat := if nb < 16 then 4 else (nb >>> 2).toNat

/-- `(ah_size_t)(nbucket * AH_LOAD_FACTOR + 0.5)` (`alignhash_tpl.h:87,155,226`). -/
def ahSup (nbucket : UInt32) : UInt32 := UInt32.ofNat ((nbucket.toNat + 1) / 2)

section Alignhash

variable {K V : Type}

/-- `DECLARE_ALIGNHASH` with a hash function and an equality test. -/
def alignhashParams (hashfn : K → UInt32) (hasheq : K → K → Bool) : HashParams K where
  hashFunc := hashfn
  hashEqual := hasheq
  -- `AH_PROBE_STEP`
  inc _ _ := 1
  upper := ahSup
  fsize nb := ahFlagsByte nb / 4
  endMask := 2

variable (p : HashParams K)

/-- `alignhash_set` before it looks for a bucket (`alignhash_tpl.h:235-243`); `false` when it
    gives up. -/
def ahGrow (t : HashTable K V) : Option (Bool × HashTable K V) :=
  if t.nOccupied ≥ t.upperBound then
    if t.nBuckets ≠ 0 then resizeTo p t (t.nBuckets * 2) else resizeTo p t 2
  else some (true, t)

/-- `alignhash_set` (`alignhash_tpl.h:230-285`); `*ret` is not set when it gives up. -/
def ahSet (t : HashTable K V) (key : K) : Option (UInt32 × Option Nat × HashTable K V) := do
  let (grown, t) ← ahGrow p t
  if grown then do
    let (x, ret, t) ← putGrown p t key
    some (x, some ret, t)
  else some (t.nBuckets, none, t)

end Alignhash

theorem toNat_ahSup {n : UInt32} (count : BucketCount n) :
    (ahSup n).toNat = (n.toNat + 1) / 2 := by
  have le := count.le
  unfold ahSup
  rw [UInt32.toNat_ofNat', Nat.mod_eq_of_lt (by omega)]

theorem ahFlagsByte_le {n : UInt32} (count : BucketCount n) :
    n.toNat ≤ 16 * (ahFlagsByte n / 4) := by
  have sixteen : (16 : UInt32).toNat = 16 := rfl
  unfold ahFlagsByte
  split
  · rename_i few
    have := UInt32.lt_iff_toNat_lt.mp few
    omega
  · rename_i many
    have many := UInt32.le_iff_toNat_le.mp (UInt32.not_lt.mp many)
    have dvd := count.dvd_sixteen (by omega)
    have two : (n >>> 2).toNat = n.toNat / 4 := by
      rw [UInt32.toNat_shiftRight, Nat.shiftRight_eq_div_pow]
      rfl
    rw [two]
    omega

section Alignhash

variable {K V : Type} {hashfn : K → UInt32} {hasheq : K → K → Bool}

theorem alignhash_lawful (equal : ∀ a b, hasheq a b = true ↔ a = b) :
    (alignhashParams hashfn hasheq).Lawful where
  hashEqual_iff := equal
  inc_odd _ _ _ _ _ _ := rfl
  upper_zero := rfl
  upper_le {n} count := by
    have even := count.even
    rw [alignhashParams, toNat_ahSup count]
    omega
  fsize_le := ahFlagsByte_le
  endMask := Or.inl rfl

variable {law : (alignhashParams hashfn hasheq).Lawful} {t : HashTable K V}
  {b : Nat → Bucket K (Option V)}

/-- `alignhash_set` opens a table that can grow, and one that is not half full. -/
theorem ahGrow_opens (working : Working (alignhashParams hashfn hasheq) law t b)
    (can : t.nBuckets.toNat < 2 ^ 31 ∨ t.nOccupied < t.upperBound) :
    ∃ t' b', ahGrow (alignhashParams hashfn hasheq) t = some (true, t') ∧
      Opened (alignhashParams hashfn hasheq) law t b t' b' := by
  unfold ahGrow
  split
  · rename_i used
    have small := can.resolve_right (UInt32.not_lt.mpr used)
    have within := working.within small
    have occupied := working.size_le_nOccupied
    have upper : t.upperBound.toNat = (t.nBuckets.toNat + 1) / 2 :=
      (congrArg UInt32.toNat working.upper).trans (toNat_ahSup working.count)
    have opens : ∀ n, BucketCount n → t.nBuckets.toNat < n.toNat →
        ∃ t' b', resizeTo (alignhashParams hashfn hasheq) t n = some (true, t') ∧
          Opened (alignhashParams hashfn hasheq) law t b t' b' := by
      intro n count more
      have even := count.even
      have even' := working.count.even
      apply working.opened_resized count _ used
      change t.size < ahSup n
      rw [UInt32.lt_iff_toNat_lt, toNat_ahSup count]
      omega
    split
    · rename_i some
      obtain ⟨double, count⟩ := working.count.double some small
      have pos : t.nBuckets.toNat ≠ 0 := UInt32.toNat_inj.not.mpr some
      exact opens _ count (by omega)
    · rename_i none
      exact opens 2 (Or.inr ⟨1, by omega, by omega, rfl⟩) (by rw [not_not.mp none]; decide)
  · rename_i spare
    exact ⟨t, b, rfl, working.opened (UInt32.not_le.mp spare)⟩

/-- In a half full table of `2 ^ 31` buckets `alignhash_set` gives up, and returns the number of
    buckets for one. -/
theorem ahSet_givesUp (key : K)
    (largest : t.nBuckets.toNat = 2 ^ 31) (half : t.upperBound ≤ t.nOccupied) :
    ahSet (alignhashParams hashfn hasheq) t key = some (t.nBuckets, none, t) := by
  have none : t.nBuckets * 2 = 0 := by
    apply UInt32.toNat_inj.mp
    rw [UInt32.toNat_mul, largest]
    rfl
  have some : t.nBuckets ≠ 0 := by
    intro zero
    rw [zero] at largest
    exact absurd largest (by decide)
  have refused : resizeTo (alignhashParams hashfn hasheq) t 0 = Option.some (false, t) :=
    if_pos (UInt32.zero_le)
  have grown : ahGrow (alignhashParams hashfn hasheq) t = Option.some (false, t) := by
    rw [ahGrow, if_pos half, if_pos some, none, refused]
  simp only [ahSet, grown, Option.bind_eq_bind, Option.bind_some, Bool.false_eq_true, if_false]

end Alignhash

end Bzing
