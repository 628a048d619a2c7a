import Bzing.Data.RoundUp
import Bzing.Hash.Growing
import Mathlib.Data.Nat.Size

/-!
# khash

What `klib/khash.h` has of its own: the numbers of buckets, their bound and the step of the probe
sequence, and the `kh_put` that grows by them. Its tables have up to `2 ^ 31` buckets; asked for
more, `kroundup32` gives 0, and the table stays as it is until all are taken.
-/

namespace Bzing

open OpenTable HashTable RoundUp

/-- `kroundup32` (`khash.h:157`). -/
def kroundup32 (x : UInt32) : UInt32 :=
  let x := x - 1
  let x := x ||| x >>> 1
  let x := x ||| x >>> 2
  let x := x ||| x >>> 4
  let x := x ||| x >>> 8
  let x := x ||| x >>> 16
  x + 1

/-- `__ac_inc` (`khash.h:151`). -/
def acInc (k m : UInt32) : UInt32 := ((k >>> 3 ^^^ k <<< 3) ||| 1) &&& m

/-- `__ac_fsize` (`khash.h:154`). -/
def acFsize (m : UInt32) : Nat := if m < 16 then 1 else (m >>> 4).toNat

/-- `(khint_t)(n_buckets * __ac_HASH_UPPER + 0.5)` (`khash.h:160,221,267`). Of a power of two
    `0.77` times it plus `0.5` is never near an integer, so the rounding of the factor and of the
    sum do not matter. -/
def acHashUpper (nBuckets : UInt32) : UInt32 := UInt32.ofNat ((77 * nBuckets.toNat + 50) / 100)

section Khash

variable {K V : Type}

/-- `KHASH_INIT2` with a hash function and an equality test. -/
def khashParams (hashFunc : K → UInt32) (hashEqual : K → K → Bool) : HashParams K where
  hashFunc := hashFunc
  hashEqual := hashEqual
  inc := acInc
  upper := acHashUpper
  fsize := acFsize
  endMask := 3

variable (p : HashParams K)

/-- The number of buckets `kh_resize` goes for (`khash.h:219-220`). -/
def khBuckets (newNBuckets : UInt32) : UInt32 :=
  let newNBuckets := kroundup32 newNBuckets
  if newNBuckets < 4 then 4 else newNBuckets

/-- `kh_resize` (`khash.h:214-269`). -/
def khResize (t : HashTable K V) (newNBuckets : UInt32) : Option (HashTable K V) := do
  let (_, t) ← resizeTo p t (khBuckets newNBuckets)
  some t

/-- `kh_put` before it looks for a bucket (`khash.h:273-276`). -/
def khGrow (t : HashTable K V) : Option (HashTable K V) :=
  if t.nOccupied ≥ t.upperBound then
    if t.nBuckets > t.size <<< 1 then khResize p t (t.nBuckets - 1)
    else khResize p t (t.nBuckets + 1)
  else some t

/-- `kh_put` (`khash.h:270-306`). -/
def khPut (t : HashTable K V) (key : K) : Option (UInt32 × Nat × HashTable K V) := do
  let t ← khGrow p t
  putGrown p t key

end Khash

/-! ## Numbers of buckets -/

theorem toNat_smear (x : UInt32) {n : UInt32} (small : n.toNat < 32) :
    (x ||| x >>> n).toNat = smear x.toNat n.toNat := by
  rw [UInt32.toNat_or, UInt32.toNat_shiftRight, Nat.mod_eq_of_lt small]
  rfl

/-- `kroundup32` gives the next power of two, modulo `2 ^ 32`. -/
theorem toNat_kroundup32 {x : UInt32} {e : Nat} (small : e ≤ 32)
    (top : TopBits (x - 1).toNat e 1) : (kroundup32 x).toNat = 2 ^ e % 2 ^ 32 := by
  have all := top.smear.smear.smear.smear.smear.eq_ones small
  unfold kroundup32
  simp only [UInt32.toNat_add, toNat_smear _ (by decide : (1 : UInt32).toNat < 32),
    toNat_smear _ (by decide : (2 : UInt32).toNat < 32),
    toNat_smear _ (by decide : (4 : UInt32).toNat < 32),
    toNat_smear _ (by decide : (8 : UInt32).toNat < 32),
    toNat_smear _ (by decide : (16 : UInt32).toNat < 32)]
  exact congrArg (· % 2 ^ 32) all

theorem kroundup32_cases (x : UInt32) :
    kroundup32 x = 0 ∧ (x = 0 ∨ 2 ^ 31 < x.toNat) ∨
      ∃ e ≤ 31, (kroundup32 x).toNat = 2 ^ e ∧ x.toNat ≤ 2 ^ e := by
  have word := (x - 1).toNat_lt
  have small : (x - 1).toNat.size ≤ 32 := Nat.size_le.mpr word
  have top : TopBits (x - 1).toNat (x - 1).toNat.size 1 :=
    topBits_one (Nat.lt_size_self _) fun pos => Nat.lt_size.mp (by omega)
  have value := toNat_kroundup32 small top
  have less : x.toNat ≤ (x - 1).toNat + 1 := by
    have := congrArg UInt32.toNat (UInt32.sub_add_cancel x 1)
    rw [UInt32.toNat_add] at this
    have one : (1 : UInt32).toNat = 1 := rfl
    omega
  by_cases most : (x - 1).toNat.size ≤ 31
  · right
    refine ⟨_, most, ?_, ?_⟩
    · rw [value]
      apply Nat.mod_eq_of_lt
      exact Nat.pow_lt_pow_right (by omega) (by omega)
    · have := top.lt
      omega
  · left
    have all : (x - 1).toNat.size = 32 := by omega
    constructor
    · apply UInt32.toNat_inj.mp
      rw [value, all]
      rfl
    · by_cases zero : x = 0
      · exact Or.inl zero
      · right
        have ge : 2 ^ 31 ≤ (x - 1).toNat := Nat.lt_size.mp (by omega)
        have pos : 1 ≤ x := by
          apply UInt32.le_iff_toNat_le.mpr
          have := UInt32.toNat_inj.not.mpr zero
          exact Nat.pos_of_ne_zero this
        rw [UInt32.toNat_sub_of_le _ _ pos] at ge
        have one : (1 : UInt32).toNat = 1 := rfl
        omega

theorem khBuckets_spec (x : UInt32) : BucketCount (khBuckets x) ∧ 4 ≤ (khBuckets x).toNat ∧
    (x.toNat ≤ 2 ^ 31 → x.toNat ≤ (khBuckets x).toNat) := by
  have four : BucketCount 4 := Or.inr ⟨2, by omega, by omega, rfl⟩
  unfold khBuckets
  simp only
  split
  · rename_i few
    refine ⟨four, Nat.le_refl 4, ?_⟩
    intro le
    have few := UInt32.lt_iff_toNat_lt.mp few
    rcases kroundup32_cases x with ⟨-, zero | beyond⟩ | ⟨e, -, value, ge⟩
    · rw [zero]
      exact Nat.zero_le _
    · omega
    · have : (4 : UInt32).toNat = 4 := rfl
      omega
  · rename_i many
    have many := UInt32.le_iff_toNat_le.mp (UInt32.not_lt.mp many)
    have : (4 : UInt32).toNat = 4 := rfl
    rcases kroundup32_cases x with ⟨zero, -⟩ | ⟨e, small, value, ge⟩
    · rw [zero] at many
      exact absurd many (by decide)
    · have two : 2 ≤ e := by
        by_contra one
        have : 2 ^ e ≤ 2 ^ 1 := Nat.pow_le_pow_right (by omega) (by omega)
        omega
      exact ⟨Or.inr ⟨e, by omega, small, value⟩, by omega, fun _ => by omega⟩

theorem toNat_acHashUpper {n : UInt32} (count : BucketCount n) :
    (acHashUpper n).toNat = (77 * n.toNat + 50) / 100 := by
  have le := count.le
  unfold acHashUpper
  rw [UInt32.toNat_ofNat', Nat.mod_eq_of_lt (by omega)]

section Khash

variable {K V : Type} {hashFunc : K → UInt32} {hashEqual : K → K → Bool}

theorem acInc_odd (k : UInt32) {n : UInt32} {e : Nat} (some : 1 ≤ e) (small : e ≤ 31)
    (size : n.toNat = 2 ^ e) : (acInc k (n - 1)).toNat % 2 = 1 := by
  have dvd : 2 ∣ n.toNat := size ▸ dvd_pow_self 2 (by omega)
  rw [acInc, and_mask small size, Nat.mod_mod_of_dvd _ dvd, UInt32.toNat_or]
  exact Nat.or_mod_two_eq_one.mpr (Or.inr rfl)

theorem acFsize_le {n : UInt32} (count : BucketCount n) : n.toNat ≤ 16 * acFsize n := by
  have sixteen : (16 : UInt32).toNat = 16 := rfl
  unfold acFsize
  split
  · rename_i few
    have := UInt32.lt_iff_toNat_lt.mp few
    omega
  · rename_i many
    have many := UInt32.le_iff_toNat_le.mp (UInt32.not_lt.mp many)
    have dvd := count.dvd_sixteen (by omega)
    have four : (n >>> 4).toNat = n.toNat / 16 := by
      rw [UInt32.toNat_shiftRight, Nat.shiftRight_eq_div_pow]
      rfl
    rw [four]
    omega

theorem khash_lawful (equal : ∀ a b, hashEqual a b = true ↔ a = b) :
    (khashParams hashFunc hashEqual).Lawful where
  hashEqual_iff := equal
  inc_odd := acInc_odd
  upper_zero := rfl
  upper_le {n} count := by
    rw [khashParams, toNat_acHashUpper count]
    rcases count with rfl | ⟨e, some, -, size⟩
    · exact Nat.le_refl 0
    · have : 2 ^ 1 ≤ 2 ^ e := Nat.pow_le_pow_right (by omega) some
      omega
  fsize_le := acFsize_le
  endMask := Or.inr rfl

variable {law : (khashParams hashFunc hashEqual).Lawful} {t : HashTable K V}
  {b : Nat → Bucket K (Option V)}

/-- Resizing a table that is used up opens it, unless it is as large as it can be. -/
theorem khResize_opens (working : Working (khashParams hashFunc hashEqual) law t b)
    (used : t.upperBound ≤ t.nOccupied) {n : UInt32}
    (grows : t.nBuckets.toNat < 2 ^ 31 →
      100 * (t.size.toNat + 1) ≤ 77 * (khBuckets n).toNat + 50) :
    ∃ t' b', khResize (khashParams hashFunc hashEqual) t n = some t' ∧
      Opened (khashParams hashFunc hashEqual) law t b t' b' := by
  have count := (khBuckets_spec n).1
  unfold khResize
  by_cases fits : t.size < acHashUpper (khBuckets n)
  · obtain ⟨t', b', resized, opened⟩ := working.opened_resized count fits used
    exact ⟨t', b', by rw [resized]; rfl, opened⟩
  · have refused : resizeTo (khashParams hashFunc hashEqual) t (khBuckets n) = some (false, t) :=
      if_pos (UInt32.not_lt.mp fits)
    rw [UInt32.lt_iff_toNat_lt, toNat_acHashUpper count] at fits
    have most := working.nBuckets_le
    exact ⟨t, b, by rw [refused]; rfl, working.opened_largest (by omega)⟩

/-- `kh_put` opens every table. -/
theorem khGrow_opens (working : Working (khashParams hashFunc hashEqual) law t b) :
    ∃ t' b', khGrow (khashParams hashFunc hashEqual) t = some t' ∧
      Opened (khashParams hashFunc hashEqual) law t b t' b' := by
  have most := working.nBuckets_le
  have live := working.size_le
  have occupied := working.size_le_nOccupied
  have even := working.count.even
  have upper : t.upperBound.toNat = (77 * t.nBuckets.toNat + 50) / 100 :=
    (congrArg UInt32.toNat working.upper).trans (toNat_acHashUpper working.count)
  have one : (1 : UInt32).toNat = 1 := rfl
  unfold khGrow
  split
  · rename_i used
    split
    · -- most of the buckets that are used hold no key
      rename_i sparse
      apply khResize_opens working used
      intro small
      have sparse := UInt32.lt_iff_toNat_lt.mp sparse
      have twice : (t.size <<< 1).toNat = 2 * t.size.toNat := by
        have two : 2 ^ ((1 : UInt32).toNat % 32) = 2 := rfl
        rw [UInt32.toNat_shiftLeft, Nat.shiftLeft_eq, two]
        omega
      have less : (t.nBuckets - 1).toNat = t.nBuckets.toNat - 1 :=
        UInt32.toNat_sub_of_le _ _ (UInt32.le_iff_toNat_le.mpr (by omega))
      obtain ⟨-, four, ge⟩ := khBuckets_spec (t.nBuckets - 1)
      have ge := ge (by omega)
      omega
    · apply khResize_opens working used
      intro small
      have within := working.within small
      have more : (t.nBuckets + 1).toNat = t.nBuckets.toNat + 1 := by
        rw [UInt32.toNat_add]
        omega
      obtain ⟨count, four, ge⟩ := khBuckets_spec (t.nBuckets + 1)
      have even' := count.even
      have ge := ge (by omega)
      omega
  · rename_i spare
    exact ⟨t, b, rfl, working.opened (UInt32.not_le.mp spare)⟩

end Khash

end Bzing
