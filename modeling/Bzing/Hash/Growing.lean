import Bzing.Hash.Put
import Bzing.Hash.Resize

/-!
# Putting a key

What `kh_put` and `alignhash_set` have in common: the table is opened for a key, growing when it
is used up, and then the key is placed. `Opened` is what growing has to leave, whichever way the
number of buckets is chosen; `PutAt` is what a put makes of the table.
-/

namespace Bzing

open FlagWords OpenTable HashTable

section Growing

variable {K V : Type} {p : HashParams K}

/-- A table between two calls: it is never used up beyond its bound while it can grow. -/
structure Working (p : HashParams K) (law : p.Lawful) (t : HashTable K V)
    (b : Nat → Bucket K (Option V)) : Prop extends Buckets p law t b where
  within : t.nBuckets.toNat < 2 ^ 31 → t.nOccupied.toNat ≤ t.upperBound.toNat

/-- The table was opened for a key: it holds what it held, and has a bucket to spare unless it
    has as many buckets as it can have. -/
structure Opened (p : HashParams K) (law : p.Lawful) (t : HashTable K V)
    (b : Nat → Bucket K (Option V)) (t' : HashTable K V) (b' : Nat → Bucket K (Option V)) :
    Prop where
  table : Buckets p law t' b'
  same (k : K) (v : Option V) :
    Holds t'.nBuckets.toNat b' k v ↔ Holds t.nBuckets.toNat b k v
  size : t'.size = t.size
  spare : t'.nBuckets.toNat < 2 ^ 31 → t'.nOccupied.toNat < t'.upperBound.toNat
  still : t.nOccupied < t.upperBound → t' = t ∧ b' = b
  undeleted : t.nOccupied = t.size → t'.nOccupied = t'.size
  used : t'.nOccupied.toNat ≤ t.nOccupied.toNat

/-- A key was put in bucket `x`. -/
structure PutAt (p : HashParams K) (law : p.Lawful) (t : HashTable K V)
    (b : Nat → Bucket K (Option V)) (key : K) (x : UInt32) (t' : HashTable K V)
    (b' : Nat → Bucket K (Option V)) : Prop where
  working : Working p law t' b'
  inside : x.toNat < t'.nBuckets.toNat
  here : ∃ v, b' x.toNat = .live key v
  own {v : Option V} : Holds t.nBuckets.toNat b key v → b' x.toNat = .live key v
  others {k : K} (v : Option V) : k ≠ key →
    (Holds t'.nBuckets.toNat b' k v ↔ Holds t.nBuckets.toNat b k v)
  still : t.nOccupied < t.upperBound → t'.nBuckets = t.nBuckets ∧
    ∀ {i k v}, i < t.nBuckets.toNat → b i = .live k v → b' i = .live k v
  undeleted : t.nOccupied = t.size → t'.nOccupied = t'.size
  used : t'.nOccupied.toNat ≤ t.nOccupied.toNat + 1

variable {law : p.Lawful} {t t' : HashTable K V} {b b' : Nat → Bucket K (Option V)} {key : K}

theorem Buckets.size_le_nOccupied (table : Buckets p law t b) :
    t.size.toNat ≤ t.nOccupied.toNat := by
  rw [table.size, table.occupied]
  apply Nat.count_mono_left
  intro i _ live
  obtain ⟨k, v, here⟩ := Bucket.isLive_iff.mp live
  rw [here]
  rfl

/-- The counters after a bucket without a key got one. -/
theorem Buckets.counters (table : Buckets p law t b) {i : Nat} {v : Option V}
    (inside : i < t.nBuckets.toNat) (unused : (b i).isLive = false)
    (table' : Buckets p law t' (Function.update b i (.live key v)))
    (same : t'.nBuckets = t.nBuckets) :
    t'.size.toNat = t.size.toNat + 1 ∧ t'.nOccupied.toNat ≤ t.nOccupied.toNat + 1 := by
  have live := table.count_live inside (.live key v)
  have occupied := table.count_occupied inside (.live key v)
  have size := table'.size
  have used := table'.occupied
  rw [same] at size used
  rw [← size, unused] at live
  rw [← used] at occupied
  simp only [Bucket.isLive, Bucket.isEmpty, Bool.false_eq_true, if_false, if_true] at live occupied
  exact ⟨live, by omega⟩

theorem Buckets.upper_le (table : Buckets p law t b) :
    t.upperBound.toNat ≤ t.nBuckets.toNat := by
  rw [table.upper]
  exact law.upper_le table.count

/-- A table that is not used up is open as it is. -/
theorem Working.opened (working : Working p law t b) (room : t.nOccupied < t.upperBound) :
    Opened p law t b t b where
  table := working.toBuckets
  same _ _ := Iff.rfl
  size := rfl
  spare _ := UInt32.lt_iff_toNat_lt.mp room
  still _ := ⟨rfl, rfl⟩
  undeleted := id
  used := Nat.le_refl _

/-- A table that has as many buckets as it can have is open as it is. -/
theorem Working.opened_largest (working : Working p law t b) (largest : t.nBuckets.toNat = 2 ^ 31) :
    Opened p law t b t b where
  table := working.toBuckets
  same _ _ := Iff.rfl
  size := rfl
  spare small := by omega
  still _ := ⟨rfl, rfl⟩
  undeleted := id
  used := Nat.le_refl _

/-- A table that is used up is open once it was rehashed with room to spare. -/
theorem Working.opened_resized (working : Working p law t b) {n' : UInt32}
    (count : BucketCount n') (fits : t.size < p.upper n') (used : t.upperBound ≤ t.nOccupied) :
    ∃ t' b', resizeTo p t n' = some (true, t') ∧ Opened p law t b t' b' := by
  obtain ⟨t', b', resized, table, grown, size, occupied, same⟩ :=
    working.toBuckets.resizeTo_of_fits count fits
  refine ⟨t', b', resized, table, ?_, size, ?_, ?_, fun _ => occupied.trans size.symm, ?_⟩
  · rw [grown]
    exact same
  · intro _
    rw [occupied, table.upper, grown]
    exact UInt32.lt_iff_toNat_lt.mp fits
  · intro room
    exact absurd room (UInt32.not_lt.mpr used)
  · rw [occupied]
    exact working.size_le_nOccupied

namespace Opened

variable {t1 : HashTable K V} {b1 : Nat → Bucket K (Option V)} (opened : Opened p law t b t1 b1)
include opened

theorem absent (absent : Absent t.nBuckets.toNat b key) : Absent t1.nBuckets.toNat b1 key := by
  intro i inside v here
  obtain ⟨i', inside', here'⟩ := (opened.same key v).mp ⟨i, inside, here⟩
  exact absent i' inside' v here'

theorem working : Working p law t1 b1 :=
  ⟨opened.table, fun small => Nat.le_of_lt (opened.spare small)⟩

/-- There is a bucket for another key. -/
theorem room (few : t.size.toNat < 2 ^ 31) : t1.size.toNat < t1.nBuckets.toNat := by
  have live := opened.table.size_le_nOccupied
  have bound := opened.table.upper_le
  have most := opened.table.nBuckets_le
  by_cases small : t1.nBuckets.toNat < 2 ^ 31
  · have spare := opened.spare small
    omega
  · rw [opened.size]
    omega

/-- A key that is held is found in its bucket. -/
theorem put_held {v : Option V} (held : Holds t.nBuckets.toNat b key v) :
    ∃ x, putGrown p t1 key = some (x, 0, t1) ∧ PutAt p law t b key x t1 b1 := by
  obtain ⟨i, inside, here⟩ := (opened.same key v).mpr held
  obtain ⟨x, put, rfl⟩ := opened.table.putGrown_found inside here
  refine ⟨x, put, opened.working, inside, ⟨v, here⟩, ?_, fun w _ => opened.same _ w, ?_,
    opened.undeleted, Nat.le_succ_of_le opened.used⟩
  · intro w held'
    have there := (opened.same key w).mpr held'
    rw [here, Holds.unique (opened.table.sound) ⟨_, inside, here⟩ there]
  · intro room
    obtain ⟨rfl, rfl⟩ := opened.still room
    exact ⟨rfl, fun _ live => live⟩

/-- A key that is absent gets a bucket of its own. -/
theorem put_absent (absent : Absent t.nBuckets.toNat b key) (few : t.size.toNat < 2 ^ 31) :
    ∃ x ret t' b', putGrown p t1 key = some (x, ret, t') ∧ ret ≠ 0 ∧
      PutAt p law t b key x t' b' := by
  have room := opened.room few
  have absent1 := opened.absent absent
  obtain ⟨x, ret, t', v, put, fresh, inside, unused, same, table⟩ :=
    opened.table.putGrown_absent absent1 room
  obtain ⟨size, used⟩ := opened.table.counters inside unused table same
  refine ⟨x, ret, t', _, put, fresh, ⟨table, ?_⟩, same ▸ inside, ⟨v, Function.update_self ..⟩, ?_, ?_,
    ?_, ?_, by have := opened.used; omega⟩
  · intro small
    have spare := opened.spare (same ▸ small)
    rw [table.upper, same, ← opened.table.upper]
    omega
  · rintro w ⟨i, below, here⟩
    exact absurd here (absent i below w)
  · classical
    intro k w ne
    have own : ∀ k' w, b1 x.toNat = .live k' w → k' = key := by
      intro k' w here
      rw [here] at unused
      cases unused
    have update := @holds_update _ _ (p.scheme law opened.table.count) _ key k v _ _ inside own
      (fun i below _ => absent1 i below) w
    rw [← opened.same, same, ← scheme_n law opened.table.count, update, if_neg ne]
  · intro spare
    obtain ⟨rfl, rfl⟩ := opened.still spare
    refine ⟨same, ?_⟩
    intro i k w below here
    have apart : i ≠ x.toNat := by
      rintro rfl
      rw [here] at unused
      cases unused
    rwa [Function.update_of_ne apart]
  · intro none
    -- every bucket counted is one of a key
    have level := congrArg UInt32.toNat (opened.undeleted none)
    have least := table.size_le_nOccupied
    apply UInt32.toNat_inj.mp
    omega

/-- A key is placed, unless it is one key too many. -/
theorem put (few : Absent t.nBuckets.toNat b key → t.size.toNat < 2 ^ 31) :
    ∃ x ret t' b', putGrown p t1 key = some (x, ret, t') ∧ PutAt p law t b key x t' b' := by
  rcases absent_or_holds t.nBuckets.toNat b key with absent | ⟨v, held⟩
  · obtain ⟨x, ret, t', b', put, -, placed⟩ := opened.put_absent absent (few absent)
    exact ⟨x, ret, t', b', put, placed⟩
  · obtain ⟨x, put, placed⟩ := opened.put_held held
    exact ⟨x, 0, t1, b1, put, placed⟩

/-- Whatever is put, the table goes on working and some key has the bucket. -/
theorem put_any (key : K) : ∃ x ret t' b', putGrown p t1 key = some (x, ret, t') ∧
    Working p law t' b' ∧ x.toNat < t'.nBuckets.toNat ∧
    (t.nOccupied = t.size → t'.nOccupied = t'.size) := by
  by_cases few : Absent t.nBuckets.toNat b key → t.size.toNat < 2 ^ 31
  · obtain ⟨x, ret, t', b', put, placed⟩ := opened.put few
    exact ⟨x, ret, t', b', put, placed.working, placed.inside, placed.undeleted⟩
  · obtain ⟨absent, many⟩ := Classical.not_imp.mp few
    have least := opened.table.size_le
    have most := opened.table.nBuckets_le
    rw [opened.size] at least
    have full : t1.size = t1.nBuckets := by
      apply UInt32.toNat_inj.mp
      rw [opened.size]
      omega
    obtain ⟨x, k, v, put, inside, -, -⟩ :=
      opened.table.putGrown_full (opened.absent absent) (by omega) full
    exact ⟨x, 0, t1, b1, put, opened.working, inside, opened.undeleted⟩

end Opened

end Growing

end Bzing
