import Mathlib.Logic.Basic

/-!
# Tables by contract

Three kinds of key-value table a program can be handed by a library, each as its operations
with what is promised of them. A `CopyTable` takes copies of keys and values and gives copies
back; a `CursorTable` also has cursors, and promises something only of one that was just
placed; a `SlotTable` hands out the slot of a key and makes one with an unspecified value if
there is none. Association lists are tables of every kind.
-/

namespace Tables

/-- A table that copies what it is handed. -/
structure CopyTable (K V : Type) where
  Table : Type
  empty : Table
  put : Table → K → V → Table
  get : Table → K → Option V
  get_empty (k : K) : get empty k = none
  get_put_same (t : Table) (k : K) (v : V) : get (put t k v) k = some v
  get_put_ne (t : Table) {k k' : K} (v : V) : k' ≠ k → get (put t k v) k' = get t k'

/-- A table with cursors. -/
structure CursorTable (K V : Type) extends CopyTable K V where
  Cursor : Type
  jump : Table → K → Cursor
  cursorGet : Table → Cursor → Option V
  cursorSet : Table → Cursor → V → Table
  cursorGet_jump (t : Table) (k : K) : cursorGet t (jump t k) = get t k
  get_cursorSet_same (t : Table) (k : K) (v : V) : (get t k).isSome →
    get (cursorSet t (jump t k) v) k = some v
  get_cursorSet_ne (t : Table) {k k' : K} (v : V) : (get t k).isSome → k' ≠ k →
    get (cursorSet t (jump t k) v) k' = get t k'

/-- A table that makes a slot for every key it is asked for. `find` is what it holds. -/
structure SlotTable (K V : Type) where
  Table : Type
  Iter : Type
  empty : Table
  find : Table → K → Option V
  insert : Table → K → Iter × Table
  value : Table → Iter → V
  setValue : Table → Iter → V → Table
  find_empty (k : K) : find empty k = none
  find_insert_same (t : Table) (k : K) :
    find (insert t k).2 k = some (value (insert t k).2 (insert t k).1)
  find_insert_kept (t : Table) (k : K) {k' : K} {v : V} : find t k' = some v →
    find (insert t k).2 k' = some v
  find_insert_ne (t : Table) {k k' : K} : k' ≠ k → find (insert t k).2 k' = find t k'
  find_setValue_same (t : Table) (k : K) (v : V) :
    find (setValue (insert t k).2 (insert t k).1 v) k = some v
  find_setValue_ne (t : Table) {k k' : K} (v : V) : k' ≠ k →
    find (setValue (insert t k).2 (insert t k).1 v) k' = find t k'

theorem SlotTable.value_of_find {K V : Type} (table : SlotTable K V) {t : table.Table} {k : K}
    {v : V} (held : table.find t k = some v) :
    table.value (table.insert t k).2 (table.insert t k).1 = v := by
  have kept := table.find_insert_kept t k held
  rw [table.find_insert_same] at kept
  exact Option.some.inj kept

section Assoc

variable {K V : Type} [DecidableEq K]

/-- The value of the first pair with the key. -/
def assoc : List (K × V) → K → Option V
  | [], _ => none
  | (key, v) :: t, k => if k = key then some v else assoc t k

theorem assoc_cons_same (t : List (K × V)) (k : K) (v : V) : assoc ((k, v) :: t) k = some v :=
  if_pos rfl

theorem assoc_cons_ne (t : List (K × V)) {k k' : K} (v : V) (ne : k' ≠ k) :
    assoc ((k, v) :: t) k' = assoc t k' :=
  if_neg ne

/-- An association list whose first pair for a key counts. -/
def assocTable (K V : Type) [DecidableEq K] : CopyTable K V where
  Table := List (K × V)
  empty := []
  put t k v := (k, v) :: t
  get := assoc
  get_empty _ := rfl
  get_put_same := assoc_cons_same
  get_put_ne := assoc_cons_ne

/-- The same with keys for cursors. -/
def assocCursorTable (K V : Type) [DecidableEq K] : CursorTable K V where
  toCopyTable := assocTable K V
  Cursor := K
  jump _ k := k
  cursorGet := assoc
  cursorSet t k v := (k, v) :: t
  cursorGet_jump _ _ := rfl
  get_cursorSet_same t k v _ := assoc_cons_same t k v
  get_cursorSet_ne t _ _ v _ ne := assoc_cons_ne t v ne

/-- The same with keys for slots; the value of a fresh slot is `junk`. -/
def assocSlotTable (K : Type) {V : Type} [DecidableEq K] (junk : V) : SlotTable K V where
  Table := List (K × V)
  Iter := K
  empty := []
  find := assoc
  insert t k := (k, (k, (assoc t k).getD junk) :: t)
  value t k := (assoc t k).getD junk
  setValue t k v := (k, v) :: t
  find_empty _ := rfl
  find_insert_same t k := by simp [assoc_cons_same]
  find_insert_kept t k k' v held := by
    by_cases same : k' = k
    · subst same
      simp [assoc_cons_same, held]
    · rw [assoc_cons_ne _ _ same, held]
  find_insert_ne t _ _ ne := assoc_cons_ne t _ ne
  find_setValue_same t k v := assoc_cons_same _ k v
  find_setValue_ne t _ _ v ne := by rw [assoc_cons_ne _ _ ne, assoc_cons_ne _ _ ne]

end Assoc

end Tables
