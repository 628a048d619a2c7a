import Bzing.Data.Spill
import Bzing.Hash.Growing

/-!
# A table as an array of buckets

Seen from outside, a table of one of the templates is a `LimitedTable`: a key that was put keeps
its bucket until the table grows, and its value moves with it. `PutRule` is what the two templates
have to show for the call that puts a key, `PutRule.table` what follows from it.
-/

namespace Bzing

open OpenTable HashTable Tables

section Buckets

variable {K V : Type} {p : HashParams K}

/-- `kh_get`, without a result when that is `kh_end`. -/
def HashTable.bucket (p : HashParams K) (t : HashTable K V) (key : K) : Option UInt32 :=
  (HashTable.get p t key).filter fun x => x ≠ t.nBuckets

variable {law : p.Lawful} {t t' : HashTable K V} {b b' : Nat → Bucket K (Option V)} {key k : K}
  {x y : UInt32}

theorem Buckets.bucket_of_live (table : Buckets p law t b) {v : Option V}
    (inside : x.toNat < t.nBuckets.toNat) (here : b x.toNat = .live key v) :
    bucket p t key = some x := by
  obtain ⟨y, found, same⟩ := table.get_found inside here
  rw [bucket, found, UInt32.toNat_inj.mp same]
  simp [ne_nBuckets inside]

theorem Buckets.bucket_of_absent (table : Buckets p law t b)
    (absent : Absent t.nBuckets.toNat b key) : bucket p t key = none := by
  rw [bucket, table.get_absent absent]
  simp

/-- A key is looked up where it stands. -/
theorem Buckets.bucket_eq_some (table : Buckets p law t b) : bucket p t key = some x ↔
    x.toNat < t.nBuckets.toNat ∧ ∃ v, b x.toNat = .live key v := by
  constructor
  · intro found
    rcases absent_or_holds t.nBuckets.toNat b key with absent | ⟨v, i, inside, here⟩
    · rw [table.bucket_of_absent absent] at found
      cases found
    · obtain ⟨y, got, rfl⟩ := table.get_found inside here
      rw [table.bucket_of_live inside here] at found
      cases found
      exact ⟨inside, v, here⟩
  · rintro ⟨inside, v, here⟩
    exact table.bucket_of_live inside here

theorem Buckets.isSome_bucket (table : Buckets p law t b) :
    (bucket p t key).isSome ↔ ∃ v, Holds t.nBuckets.toNat b key v := by
  rw [Option.isSome_iff_exists]
  constructor
  · rintro ⟨x, found⟩
    obtain ⟨inside, v, here⟩ := table.bucket_eq_some.mp found
    exact ⟨v, x.toNat, inside, here⟩
  · rintro ⟨v, i, inside, here⟩
    obtain ⟨x, -, rfl⟩ := table.get_found inside here
    exact ⟨x, table.bucket_of_live inside here⟩

theorem Buckets.val_of_live (table : Buckets p law t b) {v : Option V}
    (inside : x.toNat < t.nBuckets.toNat) (here : b x.toNat = .live key v) (unwritten : V) :
    val unwritten t x = some (v.getD unwritten) := by
  rw [val, table.arrayed.val inside here, Option.map_some]

end Buckets

namespace PutAt

variable {K V : Type} {p : HashParams K} {law : p.Lawful} {t t' : HashTable K V}
  {b b' : Nat → Bucket K (Option V)} {key k : K} {x y : UInt32}
  (placed : PutAt p law t b key x t' b')
include placed

theorem bucket_same : bucket p t' key = some x := by
  obtain ⟨v, here⟩ := placed.here
  exact placed.working.bucket_of_live placed.inside here

theorem isSome_bucket_ne (table : Buckets p law t b) (ne : k ≠ key) :
    (bucket p t' k).isSome = (bucket p t k).isSome := by
  rw [Bool.eq_iff_iff, placed.working.isSome_bucket, table.isSome_bucket]
  exact exists_congr fun v => placed.others v ne

theorem bucket_kept (table : Buckets p law t b) (spare : t.nOccupied < t.upperBound)
    (found : bucket p t k = some y) : bucket p t' k = some y := by
  obtain ⟨inside, v, here⟩ := table.bucket_eq_some.mp found
  obtain ⟨same, stays⟩ := placed.still spare
  exact placed.working.bucket_eq_some.mpr ⟨same ▸ inside, v, stays inside here⟩

/-- A key keeps its value, wherever it is moved. -/
theorem val_kept (table : Buckets p law t b) {y' : UInt32} (found : bucket p t k = some y)
    (found' : bucket p t' k = some y') (unwritten : V) :
    val unwritten t' y' = val unwritten t y := by
  obtain ⟨inside, v, here⟩ := table.bucket_eq_some.mp found
  obtain ⟨inside', v', here'⟩ := placed.working.bucket_eq_some.mp found'
  have holds : Holds t'.nBuckets.toNat b' k v := by
    by_cases own : k = key
    · subst own
      exact ⟨x.toNat, placed.inside, placed.own ⟨y.toNat, inside, here⟩⟩
    · exact (placed.others v own).mpr ⟨y.toNat, inside, here⟩
  have same : v' = v := Holds.unique placed.working.sound ⟨y'.toNat, inside', here'⟩ holds
  rw [table.val_of_live inside here, placed.working.val_of_live inside' here', same]

end PutAt

section Rule

variable {K : Type} (V : Type) (p : HashParams K) (law : p.Lawful)

/-- What a template has to show for the call that puts a key. -/
structure PutRule where
  put : HashTable K V → K → Option (UInt32 × HashTable K V)
  /-- The call can be made for the key. -/
  ready : HashTable K V → K → Bool
  ends {t : HashTable K V} {b : Nat → Bucket K (Option V)} (key : K) : Working p law t b →
    ∃ x t' b', put t key = some (x, t') ∧ Working p law t' b' ∧
      (t.nOccupied = t.size → t'.nOccupied = t'.size)
  placed {t : HashTable K V} {b : Nat → Bucket K (Option V)} {key : K} : Working p law t b →
    ready t key = true → ∃ x t' b', put t key = some (x, t') ∧ PutAt p law t b key x t' b'

/-- A table that works, and from which no key was deleted. -/
def WorkingTable : Type := { t : HashTable K V // ∃ b, Working p law t b ∧ t.nOccupied = t.size }

end Rule

namespace WorkingTable

variable {K V : Type} {p : HashParams K} {law : p.Lawful}

def init : WorkingTable V p law :=
  ⟨HashTable.init, _, ⟨Buckets.init_empty, fun _ => Nat.le_refl 0⟩, rfl⟩

/-- Writing to a bucket changes its value, writing elsewhere nothing. -/
theorem setVal_cases {t : HashTable K V} {b : Nat → Bucket K (Option V)}
    (working : Working p law t b) (x : UInt32) (v : V) :
    x.toNat < t.nBuckets.toNat ∧ (∃ t', HashTable.setVal t x v = some t' ∧
      Working p law t' (Function.update b x.toNat ((b x.toNat).withValue (some v))) ∧
      t'.nBuckets = t.nBuckets ∧ t'.size = t.size ∧ t'.nOccupied = t.nOccupied ∧
      t'.vals = t.vals.set x.toNat (some v)) ∨
    ¬ x.toNat < t.nBuckets.toNat ∧ HashTable.setVal t x v = none := by
  by_cases inside : x.toNat < t.nBuckets.toNat
  · obtain ⟨t', set, same, size, occupied, vals, table⟩ := working.setVal_inside inside v
    refine Or.inl ⟨inside, t', set, ⟨table, ?_⟩, same, size, occupied, vals⟩
    rw [table.upper, occupied, same, ← working.upper]
    exact working.within
  · right
    rw [HashTable.setVal, setCell, if_neg (working.arrayed.valsLen ▸ inside)]
    exact ⟨inside, rfl⟩

theorem setVal_works (t : WorkingTable V p law) (x : UInt32) (v : V) :
    ∃ b, Working p law ((HashTable.setVal t.1 x v).getD t.1) b ∧
      ((HashTable.setVal t.1 x v).getD t.1).nOccupied =
        ((HashTable.setVal t.1 x v).getD t.1).size := by
  obtain ⟨b, working, undeleted⟩ := t.2
  rcases setVal_cases working x v with ⟨-, t', set, working', -, size, occupied, -⟩ | ⟨-, outside⟩
  · rw [set, Option.getD_some]
    exact ⟨_, working', by rw [size, occupied, undeleted]⟩
  · rw [outside]
    exact ⟨b, working, undeleted⟩

/-- `kh_val(h, x) = v` for a bucket of the table. -/
def setVal (t : WorkingTable V p law) (x : UInt32) (v : V) : WorkingTable V p law :=
  ⟨_, t.setVal_works x v⟩

end WorkingTable

namespace PutRule

variable {K V : Type} {p : HashParams K} {law : p.Lawful} (rule : PutRule V p law)

theorem isSome_put (t : WorkingTable V p law) (key : K) : (rule.put t.1 key).isSome := by
  obtain ⟨b, working, -⟩ := t.2
  obtain ⟨x, t', b', put, -, -⟩ := rule.ends key working
  rw [put]
  rfl

theorem put_works (t : WorkingTable V p law) (key : K) :
    ∃ b, Working p law ((rule.put t.1 key).get (rule.isSome_put t key)).2 b ∧
      ((rule.put t.1 key).get (rule.isSome_put t key)).2.nOccupied =
        ((rule.put t.1 key).get (rule.isSome_put t key)).2.size := by
  obtain ⟨b, working, undeleted⟩ := t.2
  obtain ⟨x, t', b', put, working', keeps⟩ := rule.ends key working
  simp only [put, Option.get_some]
  exact ⟨b', working', keeps undeleted⟩

/-- The call on a table that works. -/
def insert (t : WorkingTable V p law) (key : K) : UInt32 × WorkingTable V p law :=
  (((rule.put t.1 key).get (rule.isSome_put t key)).1, ⟨_, rule.put_works t key⟩)

theorem put_eq_insert (t : WorkingTable V p law) (key : K) :
    rule.put t.1 key = some ((rule.insert t key).1, (rule.insert t key).2.1) :=
  (Option.some_get (rule.isSome_put t key)).symm

/-- Where the call is ready the key is placed. -/
theorem placed_insert (t : WorkingTable V p law) {key : K} (ready : rule.ready t.1 key = true) :
    ∃ b b', Buckets p law t.1 b ∧
      PutAt p law t.1 b key (rule.insert t key).1 (rule.insert t key).2.1 b' := by
  obtain ⟨b, working, -⟩ := t.2
  obtain ⟨x, t', b', put, placed⟩ := rule.placed working ready
  rw [rule.put_eq_insert t key] at put
  cases put
  exact ⟨b, b', working.toBuckets, placed⟩

/-- Writing a value moves no key. -/
theorem bucket_setVal (t : WorkingTable V p law) (x : UInt32) (v : V) (key : K) :
    bucket p (t.setVal x v).1 key = bucket p t.1 key := by
  obtain ⟨b, working, -⟩ := t.2
  rcases WorkingTable.setVal_cases working x v with ⟨-, t', set, working', same, -⟩ | ⟨-, outside⟩
  · have written : (t.setVal x v).1 = t' := congrArg (·.getD t.1) set
    rw [written]
    apply Option.ext
    intro y
    rw [working'.bucket_eq_some, working.bucket_eq_some, same]
    refine and_congr_right fun _ => ?_
    by_cases own : y.toNat = x.toNat
    · rw [own, Function.update_self]
      simp only [Bucket.withValue_eq_live]
      constructor
      · rintro ⟨_, -, here⟩
        exact here
      · rintro here
        exact ⟨_, rfl, here⟩
    · rw [Function.update_of_ne own]
  · have kept : (t.setVal x v).1 = t.1 := congrArg (·.getD t.1) outside
    rw [kept]

theorem val_setVal_same {t : WorkingTable V p law} {x : UInt32} (v unwritten : V)
    (inside : x.toNat < t.1.nBuckets.toNat) : val unwritten (t.setVal x v).1 x = some v := by
  obtain ⟨b, working, -⟩ := t.2
  rcases WorkingTable.setVal_cases working x v with ⟨-, t', set, -, -, -, -, vals⟩ | ⟨outside, -⟩
  · have written : (t.setVal x v).1 = t' := congrArg (·.getD t.1) set
    rw [written, val, vals, List.getElem?_set_self (by rw [working.arrayed.valsLen]; exact inside)]
    rfl
  · exact absurd inside outside

theorem val_setVal_ne (t : WorkingTable V p law) {x y : UInt32} (v unwritten : V) (ne : y ≠ x) :
    val unwritten (t.setVal x v).1 y = val unwritten t.1 y := by
  obtain ⟨b, working, -⟩ := t.2
  rcases WorkingTable.setVal_cases working x v with ⟨-, t', set, -, -, -, -, vals⟩ | ⟨-, outside⟩
  · have written : (t.setVal x v).1 = t' := congrArg (·.getD t.1) set
    have apart : x.toNat ≠ y.toNat := fun same => ne (UInt32.toNat_inj.mp same).symm
    rw [written, val, val, vals, List.getElem?_set_ne apart]
  · have kept : (t.setVal x v).1 = t.1 := congrArg (·.getD t.1) outside
    rw [kept]

/-- The tables of the template, as buckets. -/
def table (unwritten : V) : LimitedTable K V where
  Table := WorkingTable V p law
  Bucket := UInt32
  empty := .init
  bucket t key := bucket p t.1 key
  value t x := (val unwritten t.1 x).getD unwritten
  setValue := .setVal
  full t := decide (t.1.upperBound ≤ t.1.nOccupied)
  ready t key := rule.ready t.1 key
  insert := rule.insert
  bucket_empty key :=
    (Buckets.init_empty : Buckets p law HashTable.init _).bucket_of_absent fun _ _ _ => nofun
  bucket_inj t k k' x here here' := by
    obtain ⟨b, working, -⟩ := t.2
    obtain ⟨-, v, live⟩ := working.bucket_eq_some.mp here
    obtain ⟨-, v', live'⟩ := working.bucket_eq_some.mp here'
    rw [live] at live'
    cases live'
    rfl
  bucket_insert_same {t k} ready := by
    obtain ⟨b, b', -, placed⟩ := rule.placed_insert t ready
    exact placed.bucket_same
  bucket_insert_ne {t k k'} ready ne := by
    obtain ⟨b, b', table, placed⟩ := rule.placed_insert t ready
    exact placed.isSome_bucket_ne table ne
  bucket_insert_kept {t k k' x} ready spare here := by
    obtain ⟨b, b', table, placed⟩ := rule.placed_insert t ready
    exact placed.bucket_kept table (UInt32.not_le.mp (of_decide_eq_false spare)) here
  value_insert {t k k' x x'} ready here there := by
    obtain ⟨b, b', table, placed⟩ := rule.placed_insert t ready
    rw [placed.val_kept table here there]
  bucket_setValue := bucket_setVal
  value_setValue_same {t k x} v here := by
    obtain ⟨b, working, -⟩ := t.2
    rw [val_setVal_same v unwritten (working.bucket_eq_some.mp here).1]
    rfl
  value_setValue_ne t x x' v ne := by
    rw [val_setVal_ne t v unwritten ne]

end PutRule

end Bzing
