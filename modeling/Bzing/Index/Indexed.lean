import Bzing.Index.Engines

/-!
# What a table holds

`kh_put` and `alignhash_set` make the slot of a hash they do not find, and `alignhash` sees only
the first word of it, so these engines are no finite maps from hashes (`LawfulInvEngine`).
`IndexedInvEngine` is what they share with the engines that are: entries are held by key, and a
key that is held is read and written in place. Of a key that is not held it says that the call
returns `NULL` or makes a slot.
-/

namespace Bzing

open Tables

/-- The contract of an engine on the keys its table holds. -/
class IndexedInvEngine (ι : Type) [InvEngine ι] where
  /-- What the table looks at of a hash. -/
  Key : Type
  key : BzUint256 → Key
  held : ι → Key → Option BzInv
  held_set_same (inv : ι) (hash : BzUint256) (data : BzInv) :
    held (InvEngine.bzingInvSet inv hash data) (key hash) = some data
  held_set_ne (inv : ι) (hash : BzUint256) (data : BzInv) {k : Key} : k ≠ key hash →
    held (InvEngine.bzingInvSet inv hash data) k = held inv k
  get_of_held {inv : ι} {hash : BzUint256} {data : BzInv} : held inv (key hash) = some data →
    (InvEngine.bzingInvGet inv hash).1 = some data ∧
      held (InvEngine.bzingInvGet inv hash).2 = held inv
  get_absent (inv : ι) (hash : BzUint256) :
    (InvEngine.bzingInvGet inv hash).1 = none ∨
      (held (InvEngine.bzingInvGet inv hash).2 (key hash)).isSome
  cursor_of_held {inv : ι} {hash : BzUint256} {data : BzInv} :
    InvEngine.cursorSupport ι = true → held inv (key hash) = some data →
    InvEngine.bzingInvCursorGet (InvEngine.bzingInvCursorFind inv hash).2
        (InvEngine.bzingInvCursorFind inv hash).1 = some data ∧
      held (InvEngine.bzingInvCursorFind inv hash).2 = held inv
  cursor_absent (inv : ι) (hash : BzUint256) : InvEngine.cursorSupport ι = true →
    InvEngine.bzingInvCursorGet (InvEngine.bzingInvCursorFind inv hash).2
        (InvEngine.bzingInvCursorFind inv hash).1 = none ∨
      (held (InvEngine.bzingInvCursorFind inv hash).2 (key hash)).isSome
  held_cursorSet_same (inv : ι) (hash : BzUint256) (data : BzInv) :
    InvEngine.cursorSupport ι = true →
    (held (InvEngine.bzingInvCursorFind inv hash).2 (key hash)).isSome →
    held (InvEngine.bzingInvCursorSet (InvEngine.bzingInvCursorFind inv hash).2
      (InvEngine.bzingInvCursorFind inv hash).1 data) (key hash) = some data
  held_cursorSet_ne (inv : ι) (hash : BzUint256) (data : BzInv) {k : Key} :
    InvEngine.cursorSupport ι = true →
    (held (InvEngine.bzingInvCursorFind inv hash).2 (key hash)).isSome → k ≠ key hash →
    held (InvEngine.bzingInvCursorSet (InvEngine.bzingInvCursorFind inv hash).2
      (InvEngine.bzingInvCursorFind inv hash).1 data) k =
        held (InvEngine.bzingInvCursorFind inv hash).2 k

/-- A lawful index holds entries by hash. -/
instance {ι : Type} [InvEngine ι] [LawfulInvEngine ι] : IndexedInvEngine ι where
  Key := BzUint256
  key := id
  held := LawfulInvEngine.lookup
  held_set_same inv hash data :=
    (LawfulInvEngine.lookup_set inv hash hash data).trans (if_pos rfl)
  held_set_ne inv hash data k ne :=
    (LawfulInvEngine.lookup_set inv hash k data).trans (if_neg ne)
  get_of_held {inv hash data} held := by
    constructor
    · rw [LawfulInvEngine.get_eq]
      exact held
    · funext k
      exact LawfulInvEngine.lookup_get inv hash k
  get_absent inv hash := by
    rw [LawfulInvEngine.get_eq, LawfulInvEngine.lookup_get, id]
    cases LawfulInvEngine.lookup inv hash with
    | none => exact Or.inl rfl
    | some data => exact Or.inr rfl
  cursor_of_held {inv hash data} support held := by
    constructor
    · rw [LawfulInvEngine.cursorGet_eq inv hash support]
      exact held
    · funext k
      exact LawfulInvEngine.lookup_cursorFind inv hash k support
  cursor_absent inv hash support := by
    rw [LawfulInvEngine.cursorGet_eq inv hash support,
      LawfulInvEngine.lookup_cursorFind inv hash _ support, id]
    cases LawfulInvEngine.lookup inv hash with
    | none => exact Or.inl rfl
    | some data => exact Or.inr rfl
  held_cursorSet_same inv hash data support stored := by
    rw [LawfulInvEngine.lookup_cursorFind inv hash _ support] at stored
    exact (LawfulInvEngine.lookup_cursorSet inv hash hash data support stored).trans (if_pos rfl)
  held_cursorSet_ne inv hash data k support stored ne := by
    rw [LawfulInvEngine.lookup_cursorFind inv hash _ support] at stored ⊢
    exact (LawfulInvEngine.lookup_cursorSet inv hash k data support stored).trans (if_neg ne)

/-- The index of KHASH or ALIGN: a table of slots for a part of the hash. -/
structure SlotIndex {K : Type} (table : SlotTable K BzInv) (key : BzUint256 → K) where
  inv : table.Table

section Slots

variable {K : Type} (table : SlotTable K BzInv) (key : BzUint256 → K)

instance : InvEngine (SlotIndex table key) where
  empty := ⟨table.empty⟩
  cursorSupport := true
  bzingInvSet index hash data :=
    let (iter, inv) := table.insert index.inv (key hash)
    ⟨table.setValue inv iter data⟩
  bzingInvGet index hash :=
    let (iter, inv) := table.insert index.inv (key hash)
    (some (table.value inv iter), ⟨inv⟩)
  Cursor := table.Iter
  bzingInvCursorFind index hash :=
    let (iter, inv) := table.insert index.inv (key hash)
    (iter, ⟨inv⟩)
  bzingInvCursorGet index cursor := some (table.value index.inv cursor)
  bzingInvCursorSet index cursor data := ⟨table.setValue index.inv cursor data⟩

/-- Asking for the slot of a key that is held changes nothing. -/
theorem find_insert_of_held {table : SlotTable K BzInv} {t : table.Table} {k : K} {data : BzInv}
    (held : table.find t k = some data) : table.find (table.insert t k).2 = table.find t := by
  funext k'
  by_cases same : k' = k
  · rw [same, table.find_insert_kept t k held, held]
  · exact table.find_insert_ne t same

instance : IndexedInvEngine (SlotIndex table key) where
  Key := K
  key := key
  held index := table.find index.inv
  held_set_same index hash data := table.find_setValue_same index.inv (key hash) data
  held_set_ne index hash data _ ne := table.find_setValue_ne index.inv data ne
  get_of_held held := ⟨congrArg some (table.value_of_find held), find_insert_of_held held⟩
  get_absent index hash := by
    right
    change (table.find (table.insert index.inv (key hash)).2 (key hash)).isSome
    rw [table.find_insert_same]
    rfl
  cursor_of_held _ held := ⟨congrArg some (table.value_of_find held), find_insert_of_held held⟩
  cursor_absent index hash _ := by
    right
    change (table.find (table.insert index.inv (key hash)).2 (key hash)).isSome
    rw [table.find_insert_same]
    rfl
  held_cursorSet_same index hash data _ _ := table.find_setValue_same index.inv (key hash) data
  held_cursorSet_ne index hash data _ _ _ ne :=
    (table.find_setValue_ne index.inv data ne).trans (table.find_insert_ne index.inv ne).symm

end Slots

section Calls

variable {libs : Libraries} (mem : Memory) (hash : BzUint256) (data : UInt64)

/-- The calls of KHASH are those of its slots. -/
theorem khash_calls (index : SlotIndex libs.kh id) (cursor : libs.kh.Iter) :
    (InvIndex.khash index.inv).bzingInvSet mem hash data =
        .khash (InvEngine.bzingInvSet index hash (mem data)).inv ∧
      (InvIndex.khash index.inv).bzingInvGet mem hash =
        .ok ((InvEngine.bzingInvGet index hash).1,
          .khash (InvEngine.bzingInvGet index hash).2.inv) ∧
      (InvIndex.khash index.inv).bzingInvCursorFind hash =
        (.khash (InvEngine.bzingInvCursorFind index hash).1,
          .khash (InvEngine.bzingInvCursorFind index hash).2.inv) ∧
      (InvIndex.khash index.inv).bzingInvCursorGet (.khash cursor) =
        InvEngine.bzingInvCursorGet index cursor ∧
      (InvIndex.khash index.inv).bzingInvCursorSet mem (.khash cursor) data =
        .khash (InvEngine.bzingInvCursorSet index cursor (mem data)).inv :=
  ⟨rfl, rfl, rfl, rfl, rfl⟩

/-- The calls of ALIGN are those of its slots for the first word of the hash. -/
theorem align_calls (index : SlotIndex libs.ah (·.d64 0)) (cursor : libs.ah.Iter) :
    (InvIndex.align index.inv).bzingInvSet mem hash data =
        .align (InvEngine.bzingInvSet index hash (mem data)).inv ∧
      (InvIndex.align index.inv).bzingInvGet mem hash =
        .ok ((InvEngine.bzingInvGet index hash).1,
          .align (InvEngine.bzingInvGet index hash).2.inv) ∧
      (InvIndex.align index.inv).bzingInvCursorFind hash =
        (.align (InvEngine.bzingInvCursorFind index hash).1,
          .align (InvEngine.bzingInvCursorFind index hash).2.inv) ∧
      (InvIndex.align index.inv).bzingInvCursorGet (.align cursor) =
        InvEngine.bzingInvCursorGet index cursor ∧
      (InvIndex.align index.inv).bzingInvCursorSet mem (.align cursor) data =
        .align (InvEngine.bzingInvCursorSet index cursor (mem data)).inv :=
  ⟨rfl, rfl, rfl, rfl, rfl⟩

end Calls

end Bzing
