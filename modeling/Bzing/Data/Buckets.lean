import Bzing.Data.Tables
import Mathlib.Algebra.Ring.Nat
import Mathlib.Logic.Equiv.Basic

/-!
# Buckets and cursors that are kept

What a program may rely on when it keeps the place of an entry. A `BucketTable` is an array of
buckets: an entry stays in its bucket until the table grows, and its value moves with it. Seen
from outside it is a `SlotTable`. A `StableTable` has cursors that stand for a key.
-/

namespace Tables

/-- An array of buckets that is filled by `insert` and grows when it is full. -/
structure BucketTable (K V : Type) where
  Table : Type
  Bucket : Type
  empty : Table
  /-- Where the entry of a key is. -/
  bucket : Table → K → Option Bucket
  value : Table → Bucket → V
  setValue : Table → Bucket → V → Table
  full : Table → Bool
  /-- Find the bucket of a key, or make one; a full table grows first. -/
  insert : Table → K → Bucket × Table
  bucket_empty (k : K) : bucket empty k = none
  bucket_inj (t : Table) {k k' : K} {b : Bucket} : bucket t k = some b →
    bucket t k' = some b → k = k'
  bucket_insert_same (t : Table) (k : K) : bucket (insert t k).2 k = some (insert t k).1
  bucket_insert_ne (t : Table) {k k' : K} : k' ≠ k →
    (bucket (insert t k).2 k').isSome = (bucket t k').isSome
  bucket_insert_kept {t : Table} (k : K) {k' : K} {b : Bucket} : full t = false →
    bucket t k' = some b → bucket (insert t k).2 k' = some b
  value_insert {t : Table} (k : K) {k' : K} {b b' : Bucket} : bucket t k' = some b →
    bucket (insert t k).2 k' = some b' → value (insert t k).2 b' = value t b
  bucket_setValue (t : Table) (b : Bucket) (v : V) (k : K) :
    bucket (setValue t b v) k = bucket t k
  value_setValue_same {t : Table} {k : K} {b : Bucket} (v : V) : bucket t k = some b →
    value (setValue t b v) b = v
  value_setValue_ne (t : Table) {b b' : Bucket} (v : V) : b' ≠ b →
    value (setValue t b v) b' = value t b'

namespace BucketTable

variable {K V : Type} (table : BucketTable K V)

/-- What the table holds. -/
def find (t : table.Table) (k : K) : Option V := (table.bucket t k).map (table.value t)

variable {table} {t : table.Table} {k k' : K} {b : table.Bucket} {v : V}

theorem find_of_bucket (here : table.bucket t k = some b) :
    table.find t k = some (table.value t b) := by
  rw [find, here, Option.map_some]

theorem find_insert_same (t : table.Table) (k : K) :
    table.find (table.insert t k).2 k = some (table.value (table.insert t k).2 (table.insert t k).1) :=
  find_of_bucket (table.bucket_insert_same t k)

/-- Growing or not, an entry keeps its value. -/
theorem find_insert_kept (k : K) (held : table.find t k' = some v) :
    table.find (table.insert t k).2 k' = some v := by
  obtain ⟨b, here, rfl⟩ := Option.map_eq_some_iff.mp held
  have there : (table.bucket (table.insert t k).2 k').isSome := by
    by_cases same : k' = k
    · rw [same, table.bucket_insert_same]
      rfl
    · rw [table.bucket_insert_ne t same, here]
      rfl
  obtain ⟨b', here'⟩ := Option.isSome_iff_exists.mp there
  rw [find_of_bucket here', table.value_insert k here here']

theorem find_insert_ne (t : table.Table) (ne : k' ≠ k) :
    table.find (table.insert t k).2 k' = table.find t k' := by
  cases before : table.find t k' with
  | some v => exact find_insert_kept k before
  | none =>
    have absent := table.bucket_insert_ne t ne
    rw [find, Option.map_eq_none_iff] at before ⊢
    rwa [before, Option.isSome_none, Option.isSome_eq_false_iff, Option.isNone_iff_eq_none]
      at absent

theorem find_setValue_same (v : V) (here : table.bucket t k = some b) :
    table.find (table.setValue t b v) k = some v := by
  rw [find, table.bucket_setValue, here, Option.map_some, table.value_setValue_same v here]

theorem find_setValue_ne (v : V) (here : table.bucket t k = some b) (ne : k' ≠ k) :
    table.find (table.setValue t b v) k' = table.find t k' := by
  rw [find, find, table.bucket_setValue]
  cases other : table.bucket t k' with
  | none => rfl
  | some b' =>
    have apart : b' ≠ b := by
      intro same
      exact ne (table.bucket_inj t (same ▸ other) here)
    rw [Option.map_some, Option.map_some, table.value_setValue_ne t v apart]

variable (table) in
/-- Seen from outside the buckets are slots. -/
def toSlotTable : SlotTable K V where
  Table := table.Table
  Iter := table.Bucket
  empty := table.empty
  find := table.find
  insert := table.insert
  value := table.value
  setValue := table.setValue
  find_empty k := by rw [find, table.bucket_empty, Option.map_none]
  find_insert_same := find_insert_same
  find_insert_kept _ k _ _ held := find_insert_kept k held
  find_insert_ne t _ _ ne := find_insert_ne t ne
  find_setValue_same t k v := find_setValue_same v (table.bucket_insert_same t k)
  find_setValue_ne t k _ v ne :=
    (find_setValue_ne v (table.bucket_insert_same t k) ne).trans (find_insert_ne t ne)

end BucketTable

/-- A table whose cursors stand for a key. -/
structure StableTable (K V : Type) extends CursorTable K V where
  key : Cursor → K
  key_jump {t : Table} {k : K} : (get t k).isSome → key (jump t k) = k
  cursorGet_key (t : Table) (c : Cursor) : cursorGet t c = get t (key c)
  get_cursorSet_key {t : Table} (c : Cursor) (v : V) : (get t (key c)).isSome →
    get (cursorSet t c v) (key c) = some v
  get_cursorSet_other {t : Table} (c : Cursor) (v : V) {k : K} : k ≠ key c →
    get (cursorSet t c v) k = get t k

/-- Association lists with keys for cursors. -/
def assocStableTable (K V : Type) [DecidableEq K] : StableTable K V where
  toCursorTable := assocCursorTable K V
  key := fun k : K => k
  key_jump _ := rfl
  cursorGet_key _ _ := rfl
  get_cursorSet_key {t} c v _ := @assoc_cons_same K V _ t c v
  get_cursorSet_other {t} c v _ ne := @assoc_cons_ne K V _ t c _ v ne

section Moving

variable {K V : Type}

/-- What is held, how much, and how often the table has grown. -/
structure MovingTable (K V : Type) where
  held : K → Option V
  count : Nat
  grown : Nat

namespace MovingTable

/-- The table is full at powers of two. -/
def isFull (t : MovingTable K V) : Bool := decide (2 ^ t.grown ≤ t.count)

/-- A full table grows. -/
def grow (t : MovingTable K V) : MovingTable K V :=
  if t.isFull then { t with grown := t.grown + 1 } else t

@[simp] theorem grow_held (t : MovingTable K V) : t.grow.held = t.held := by
  unfold grow
  split <;> rfl

theorem grow_of_room {t : MovingTable K V} (room : t.isFull = false) : t.grow = t := by
  rw [grow, room, if_neg Bool.false_ne_true]

end MovingTable

variable [DecidableEq K] (a b : K) (junk : V)

/-- The place of a key: two keys change places whenever the table grows. -/
def place (grown : Nat) (k : K) : K := if grown % 2 = 0 then k else Equiv.swap a b k

theorem place_place (grown : Nat) (k : K) : place a b grown (place a b grown k) = k := by
  unfold place
  split
  · rfl
  · exact Equiv.swap_apply_self a b k

/-- Buckets numbered by the places of the keys. -/
def movingTable : BucketTable K V where
  Table := MovingTable K V
  Bucket := K
  empty := ⟨fun _ => none, 0, 0⟩
  bucket t k := (t.held k).map fun _ => place a b t.grown k
  value t p := (t.held (place a b t.grown p)).getD junk
  setValue t p v :=
    { t with
      held := fun k => if place a b t.grown k = p then (t.held k).map fun _ => v else t.held k }
  full := MovingTable.isFull
  insert t k :=
    let t := t.grow
    (place a b t.grown k,
      { t with held := fun k' => if k' = k then some ((t.held k).getD junk) else t.held k'
               count := if (t.held k).isSome then t.count else t.count + 1 })
  bucket_empty _ := rfl
  bucket_inj t k k' p here here' := by
    obtain ⟨_, -, at'⟩ := Option.map_eq_some_iff.mp here
    obtain ⟨_, -, at''⟩ := Option.map_eq_some_iff.mp here'
    rw [← place_place a b t.grown k, at', ← at'', place_place]
  bucket_insert_same t k := by simp
  bucket_insert_ne t k k' ne := by simp [ne]
  bucket_insert_kept {t} k k' p room here := by
    simp only [MovingTable.grow_of_room room]
    obtain ⟨v, held, rfl⟩ := Option.map_eq_some_iff.mp here
    by_cases same : k' = k
    · simp [same]
    · simp [same, held]
  value_insert {t} k k' p p' here here' := by
    obtain ⟨v, held, rfl⟩ := Option.map_eq_some_iff.mp here
    obtain ⟨v', -, rfl⟩ := Option.map_eq_some_iff.mp here'
    simp only [place_place, held, Option.getD_some, MovingTable.grow_held]
    by_cases same : k' = k
    · rw [if_pos same, ← same, held]
      rfl
    · rw [if_neg same]
      rfl
  bucket_setValue t p v k := by
    by_cases there : place a b t.grown k = p
    · cases held : t.held k <;> simp [there, held]
    · simp [there]
  value_setValue_same {t k p} v here := by
    obtain ⟨v', held, rfl⟩ := Option.map_eq_some_iff.mp here
    simp [place_place, held]
  value_setValue_ne t p p' v ne := by
    have apart : ¬ place a b t.grown (place a b t.grown p') = p := by
      rw [place_place]
      exact ne
    simp [apart]

end Moving

end Tables
