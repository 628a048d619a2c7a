import Bzing.Data.Buckets

/-!
# Tables with a limit

An array of buckets that takes no more keys from some point on. `LimitedTable` promises what a
`BucketTable` does while it is ready for a key. Completed by a list that takes the keys it is not
ready for (`complete`), it is a `BucketTable`, and as long as it is ready for every key it is
asked for, the list stays empty (`complete_insert`).
-/

namespace Tables

/-- An array of buckets that may refuse a key. -/
structure LimitedTable (K V : Type) where
  Table : Type
  Bucket : Type
  empty : Table
  bucket : Table → K → Option Bucket
  value : Table → Bucket → V
  setValue : Table → Bucket → V → Table
  full : Table → Bool
  /-- The key can be asked for. -/
  ready : Table → K → Bool
  insert : Table → K → Bucket × Table
  bucket_empty (k : K) : bucket empty k = none
  bucket_inj (t : Table) {k k' : K} {b : Bucket} : bucket t k = some b →
    bucket t k' = some b → k = k'
  bucket_insert_same {t : Table} {k : K} : ready t k = true →
    bucket (insert t k).2 k = some (insert t k).1
  bucket_insert_ne {t : Table} {k k' : K} : ready t k = true → k' ≠ k →
    (bucket (insert t k).2 k').isSome = (bucket t k').isSome
  bucket_insert_kept {t : Table} {k k' : K} {b : Bucket} : ready t k = true → full t = false →
    bucket t k' = some b → bucket (insert t k).2 k' = some b
  value_insert {t : Table} {k k' : K} {b b' : Bucket} : ready t k = true →
    bucket t k' = some b → bucket (insert t k).2 k' = some b' →
    value (insert t k).2 b' = value t b
  bucket_setValue (t : Table) (b : Bucket) (v : V) (k : K) :
    bucket (setValue t b v) k = bucket t k
  value_setValue_same {t : Table} {k : K} {b : Bucket} (v : V) : bucket t k = some b →
    value (setValue t b v) b = v
  value_setValue_ne (t : Table) {b b' : Bucket} (v : V) : b' ≠ b →
    value (setValue t b v) b' = value t b'

namespace LimitedTable

variable {K V : Type} [DecidableEq K] (table : LimitedTable K V) (junk : V)

/-- The table and the keys it was not ready for. -/
abbrev Completed : Type := table.Table × List (K × V)

/-- Where a key is: in the table if it can be, else in the list. -/
def bucketIn (t : table.Completed) (k : K) : Option (table.Bucket ⊕ K) :=
  match table.bucket t.1 k with
  | some b => some (.inl b)
  | none => if (assoc t.2 k).isSome then some (.inr k) else none

def valueIn (t : table.Completed) : table.Bucket ⊕ K → V
  | .inl b => table.value t.1 b
  | .inr k => (assoc t.2 k).getD junk

def setValueIn (t : table.Completed) (b : table.Bucket ⊕ K) (v : V) : table.Completed :=
  match b with
  | .inl b => (table.setValue t.1 b v, t.2)
  | .inr k => (t.1, if (assoc t.2 k).isSome then (k, v) :: t.2 else t.2)

def insertIn (t : table.Completed) (k : K) : (table.Bucket ⊕ K) × table.Completed :=
  if table.bucket t.1 k = none ∧ (assoc t.2 k).isSome then (.inr k, t)
  else if table.ready t.1 k then (.inl (table.insert t.1 k).1, ((table.insert t.1 k).2, t.2))
  else
    match table.bucket t.1 k with
    | some b => (.inl b, t)
    | none => (.inr k, (t.1, (k, junk) :: t.2))

variable {table junk} {t : table.Completed} {k k' : K}

/-- How a key comes to its place. -/
theorem insertIn_cases (junk : V) (t : table.Completed) (k : K) :
    (∃ b, table.bucketIn t k = some b ∧ table.insertIn junk t k = (b, t)) ∨
      (table.ready t.1 k = true ∧ (table.bucket t.1 k = none → assoc t.2 k = none) ∧
        table.insertIn junk t k =
          (.inl (table.insert t.1 k).1, ((table.insert t.1 k).2, t.2))) ∨
      (table.bucketIn t k = none ∧ table.bucket t.1 k = none ∧
        table.insertIn junk t k = (.inr k, (t.1, (k, junk) :: t.2))) := by
  unfold insertIn bucketIn
  cases held : table.bucket t.1 k with
  | some b =>
    by_cases ready : table.ready t.1 k = true
    · right; left
      exact ⟨ready, nofun, by simp [ready]⟩
    · left
      exact ⟨.inl b, rfl, by simp [ready]⟩
  | none =>
    cases listed : assoc t.2 k with
    | some v =>
      left
      exact ⟨.inr k, by simp, by simp⟩
    | none =>
      by_cases ready : table.ready t.1 k = true
      · right; left
        exact ⟨ready, fun _ => rfl, by simp [ready]⟩
      · right; right
        exact ⟨by simp, rfl, by simp [ready]⟩

theorem bucketIn_inl {b : table.Bucket} :
    table.bucketIn t k = some (.inl b) ↔ table.bucket t.1 k = some b := by
  unfold bucketIn
  cases table.bucket t.1 k with
  | some b' => simp
  | none => simp

theorem bucketIn_inr {k'' : K} :
    table.bucketIn t k = some (.inr k'') ↔
      k = k'' ∧ table.bucket t.1 k = none ∧ (assoc t.2 k).isSome := by
  unfold bucketIn
  cases table.bucket t.1 k with
  | some b' => simp
  | none => simp [and_comm]

theorem isSome_bucketIn :
    (table.bucketIn t k).isSome = ((table.bucket t.1 k).isSome || (assoc t.2 k).isSome) := by
  unfold bucketIn
  cases table.bucket t.1 k with
  | some b => rfl
  | none => cases assoc t.2 k <;> rfl

/-- A key that is elsewhere keeps being there. -/
theorem isSome_bucketIn_insertIn (t : table.Completed) (ne : k' ≠ k) :
    (table.bucketIn (table.insertIn junk t k).2 k').isSome = (table.bucketIn t k').isSome := by
  rcases insertIn_cases junk t k with ⟨b, -, stays⟩ | ⟨ready, -, asked⟩ | ⟨-, -, listed⟩
  · rw [stays]
  · rw [asked, isSome_bucketIn, isSome_bucketIn, table.bucket_insert_ne ready ne]
  · rw [listed, isSome_bucketIn, isSome_bucketIn, assoc_cons_ne t.2 junk ne]

theorem bucketIn_insertIn_same (t : table.Completed) (k : K) :
    table.bucketIn (table.insertIn junk t k).2 k = some (table.insertIn junk t k).1 := by
  rcases insertIn_cases junk t k with ⟨b, here, stays⟩ | ⟨ready, -, asked⟩ |
    ⟨-, absent, listed⟩
  · rw [stays, here]
  · rw [asked, bucketIn_inl]
    exact table.bucket_insert_same ready
  · rw [listed, bucketIn_inr, assoc_cons_same]
    exact ⟨rfl, absent, rfl⟩

theorem bucketIn_insertIn_kept {b : table.Bucket ⊕ K} (spare : table.full t.1 = false)
    (here : table.bucketIn t k' = some b) :
    table.bucketIn (table.insertIn junk t k).2 k' = some b := by
  rcases insertIn_cases junk t k with ⟨b, -, stays⟩ | ⟨ready, apart, asked⟩ |
    ⟨none, absent, listed⟩
  · rw [stays, here]
  · rw [asked]
    cases b with
    | inl b =>
      rw [bucketIn_inl] at here ⊢
      exact table.bucket_insert_kept ready spare here
    | inr k'' =>
      obtain ⟨rfl, absent, stored⟩ := bucketIn_inr.mp here
      have ne : k' ≠ k := by
        rintro rfl
        rw [apart absent] at stored
        cases stored
      have still := table.bucket_insert_ne ready ne
      rw [absent, Option.isSome_none, Option.isSome_eq_false_iff, Option.isNone_iff_eq_none]
        at still
      exact bucketIn_inr.mpr ⟨rfl, still, stored⟩
  · rw [listed]
    have ne : k' ≠ k := by
      rintro rfl
      rw [none] at here
      cases here
    cases b with
    | inl b =>
      rw [bucketIn_inl] at here ⊢
      exact here
    | inr k'' =>
      obtain ⟨rfl, absent', stored⟩ := bucketIn_inr.mp here
      rw [bucketIn_inr, assoc_cons_ne t.2 junk ne]
      exact ⟨rfl, absent', stored⟩

/-- A value moves with its key. -/
theorem valueIn_insertIn {b b' : table.Bucket ⊕ K} (here : table.bucketIn t k' = some b)
    (there : table.bucketIn (table.insertIn junk t k).2 k' = some b') :
    table.valueIn junk (table.insertIn junk t k).2 b' = table.valueIn junk t b := by
  rcases insertIn_cases junk t k with ⟨b, -, stays⟩ | ⟨ready, apart, asked⟩ |
    ⟨none, absent, listed⟩
  · rw [stays] at there ⊢
    rw [here] at there
    cases there
    rfl
  · rw [asked] at there ⊢
    cases b with
    | inl b =>
      have held := bucketIn_inl.mp here
      have still : (table.bucket (table.insert t.1 k).2 k').isSome := by
        by_cases same : k' = k
        · rw [same, table.bucket_insert_same ready]
          rfl
        · rw [table.bucket_insert_ne ready same, held]
          rfl
      obtain ⟨b'', moved⟩ := Option.isSome_iff_exists.mp still
      obtain rfl : b' = .inl b'' := Option.some.inj (there.symm.trans (bucketIn_inl.mpr moved))
      exact table.value_insert ready held moved
    | inr k'' =>
      obtain ⟨rfl, absent, stored⟩ := bucketIn_inr.mp here
      have ne : k' ≠ k := by
        rintro rfl
        rw [apart absent] at stored
        cases stored
      have still := table.bucket_insert_ne ready ne
      rw [absent, Option.isSome_none, Option.isSome_eq_false_iff, Option.isNone_iff_eq_none]
        at still
      obtain rfl : b' = .inr k' :=
        Option.some.inj (there.symm.trans (bucketIn_inr.mpr ⟨rfl, still, stored⟩))
      rfl
  · rw [listed] at there ⊢
    have ne : k' ≠ k := by
      rintro rfl
      rw [none] at here
      cases here
    cases b with
    | inl b =>
      have stays : table.bucket t.1 k' = some b := bucketIn_inl.mp here
      obtain rfl : b' = .inl b := Option.some.inj (there.symm.trans (bucketIn_inl.mpr stays))
      rfl
    | inr k'' =>
      obtain ⟨rfl, absent', stored⟩ := bucketIn_inr.mp here
      have other := assoc_cons_ne t.2 junk ne
      have stays : table.bucketIn (t.1, (k, junk) :: t.2) k' = some (.inr k') := by
        rw [bucketIn_inr, other]
        exact ⟨rfl, absent', stored⟩
      obtain rfl : b' = .inr k' := Option.some.inj (there.symm.trans stays)
      exact congrArg (·.getD junk) other

theorem isSome_assoc_update (l : List (K × V)) (k'' : K) (v : V) :
    (assoc (if (assoc l k'').isSome then (k'', v) :: l else l) k).isSome = (assoc l k).isSome := by
  split
  · rename_i listed
    by_cases same : k = k''
    · rw [same, assoc_cons_same, listed]
      rfl
    · rw [assoc_cons_ne l v same]
  · rfl

/-- A value is written where it is, and moves nothing. -/
theorem bucketIn_setValueIn (t : table.Completed) (b : table.Bucket ⊕ K) (v : V) (k : K) :
    table.bucketIn (table.setValueIn t b v) k = table.bucketIn t k := by
  cases b with
  | inl b =>
    unfold bucketIn setValueIn
    rw [table.bucket_setValue]
  | inr k'' =>
    unfold bucketIn setValueIn
    rw [isSome_assoc_update]

variable (table junk) in
/-- The table completed by the list. -/
def complete : BucketTable K V where
  Table := table.Completed
  Bucket := table.Bucket ⊕ K
  empty := (table.empty, [])
  bucket := table.bucketIn
  value := table.valueIn junk
  setValue := table.setValueIn
  full t := table.full t.1
  insert := table.insertIn junk
  bucket_empty k := by
    unfold bucketIn
    rw [table.bucket_empty]
    rfl
  bucket_inj t k k' b here here' := by
    cases b with
    | inl b => exact table.bucket_inj t.1 (bucketIn_inl.mp here) (bucketIn_inl.mp here')
    | inr k'' => exact (bucketIn_inr.mp here).1.trans (bucketIn_inr.mp here').1.symm
  bucket_insert_same := bucketIn_insertIn_same
  bucket_insert_ne t _ _ ne := isSome_bucketIn_insertIn t ne
  bucket_insert_kept _ _ _ := bucketIn_insertIn_kept
  value_insert _ _ _ _ := valueIn_insertIn
  bucket_setValue := bucketIn_setValueIn
  value_setValue_same {t k b} v here := by
    cases b with
    | inl b => exact table.value_setValue_same v (bucketIn_inl.mp here)
    | inr k'' =>
      obtain ⟨rfl, -, stored⟩ := bucketIn_inr.mp here
      unfold valueIn setValueIn
      simp only [stored, if_true]
      rw [assoc_cons_same, Option.getD_some]
  value_setValue_ne t b b' v ne := by
    cases b with
    | inl b =>
      cases b' with
      | inl b' => exact table.value_setValue_ne t.1 v fun same => ne (congrArg Sum.inl same)
      | inr k' => rfl
    | inr k =>
      cases b' with
      | inl b' => rfl
      | inr k' =>
        have apart : k' ≠ k := fun same => ne (congrArg Sum.inr same)
        unfold valueIn setValueIn
        simp only
        split
        · rw [assoc_cons_ne t.2 v apart]
        · rfl

/-- While the table is ready, nothing is left to the list. -/
theorem complete_insert {t : table.Table} (ready : table.ready t k = true) :
    (table.complete junk).insert (t, []) k =
      (.inl (table.insert t k).1, ((table.insert t k).2, [])) := by
  change table.insertIn junk (t, []) k = _
  unfold insertIn
  rw [if_neg (fun listed => by cases listed.2), if_pos ready]
  rfl

/-- What the table holds, the completed one does. -/
theorem complete_find {t : table.Completed} {b : table.Bucket}
    (here : table.bucket t.1 k = some b) :
    (table.complete junk).find t k = some (table.value t.1 b) :=
  @BucketTable.find_of_bucket _ _ (table.complete junk) _ _ _ (bucketIn_inl.mpr here)

end LimitedTable

end Tables
