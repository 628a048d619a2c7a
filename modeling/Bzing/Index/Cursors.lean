import Bzing.Data.Buckets
import Bzing.Index.Indexed

/-!
# Cursors that are kept

A cursor is used right after it was placed (`bzing_spent_mark`), and `IndexedInvEngine` says no
more about it. Here other calls come in between. In KHASH and ALIGN a cursor is the number of a
bucket: it stays with its entry as long as no call asks a full table for a slot
(`NoGrowth`), since `kh_put` and `alignhash_set` grow the table before they look for the key. In
KC it stands for the key.
-/

namespace Bzing

open Tables

/-- A call on the handle of a cursor; `cursorGet` and `cursorSet` are those of any cursor. -/
inductive CursorCall (ι : Type) [InvEngine ι] where
  | set (hash : BzUint256) (data : BzInv)
  | get (hash : BzUint256)
  | cursorFind (hash : BzUint256)
  | cursorGet (cursor : InvEngine.Cursor ι)
  | cursorSet (cursor : InvEngine.Cursor ι) (data : BzInv)

namespace CursorCall

variable {ι : Type} [InvEngine ι]

/-- The index after a call. -/
def run (inv : ι) : CursorCall ι → ι
  | set hash data => InvEngine.bzingInvSet inv hash data
  | get hash => (InvEngine.bzingInvGet inv hash).2
  | cursorFind hash => (InvEngine.bzingInvCursorFind inv hash).2
  | cursorGet _ => inv
  | cursorSet cursor data => InvEngine.bzingInvCursorSet inv cursor data

def runAll : ι → List (CursorCall ι) → ι := List.foldl run

/-- The call asks for the slot of a hash. -/
def AsksForSlot : CursorCall ι → Prop
  | set _ _ => True
  | get _ => True
  | cursorFind _ => True
  | cursorGet _ => False
  | cursorSet _ _ => False

end CursorCall

open CursorCall

/-- The cursor reads and writes the entry held for a key, and no other. -/
structure Denotes {ι : Type} [InvEngine ι] [IndexedInvEngine ι] (inv : ι)
    (cursor : InvEngine.Cursor ι) (key : IndexedInvEngine.Key ι) : Prop where
  held : (IndexedInvEngine.held inv key).isSome
  get : InvEngine.bzingInvCursorGet inv cursor = IndexedInvEngine.held inv key
  set_same (data : BzInv) :
    IndexedInvEngine.held (InvEngine.bzingInvCursorSet inv cursor data) key = some data
  set_ne (data : BzInv) {key' : IndexedInvEngine.Key ι} : key' ≠ key →
    IndexedInvEngine.held (InvEngine.bzingInvCursorSet inv cursor data) key' =
      IndexedInvEngine.held inv key'

/-- A cursor placed on an indexed hash denotes its key after any calls that keep `steady`. -/
def KeepsDenoting (ι : Type) [InvEngine ι] [IndexedInvEngine ι]
    (steady : ι → List (CursorCall ι) → Prop) : Prop :=
  ∀ (inv : ι) (hash : BzUint256) (calls : List (CursorCall ι)),
    (IndexedInvEngine.held inv (IndexedInvEngine.key hash)).isSome →
    steady (InvEngine.bzingInvCursorFind inv hash).2 calls →
    Denotes (runAll (InvEngine.bzingInvCursorFind inv hash).2 calls)
      (InvEngine.bzingInvCursorFind inv hash).1 (IndexedInvEngine.key hash)

section Buckets

variable {K : Type} {table : BucketTable K BzInv} {key : BzUint256 → K}

/-- No call asks a full table for a slot. -/
def NoGrowth : SlotIndex table.toSlotTable key →
    List (CursorCall (SlotIndex table.toSlotTable key)) → Prop
  | _, [] => True
  | index, call :: calls =>
    (call.AsksForSlot → table.full index.inv = false) ∧ NoGrowth (call.run index) calls

variable {index : SlotIndex table.toSlotTable key} {b : table.Bucket} {k : K}

theorem bucket_run {call : CursorCall (SlotIndex table.toSlotTable key)}
    (room : call.AsksForSlot → table.full index.inv = false)
    (here : table.bucket index.inv k = some b) :
    table.bucket (call.run index).inv k = some b := by
  cases call with
  | set hash data =>
    exact (table.bucket_setValue _ _ data k).trans
      (table.bucket_insert_kept (key hash) (room trivial) here)
  | get hash => exact table.bucket_insert_kept (key hash) (room trivial) here
  | cursorFind hash => exact table.bucket_insert_kept (key hash) (room trivial) here
  | cursorGet cursor => exact here
  | cursorSet cursor data => exact (table.bucket_setValue _ _ data k).trans here

/-- A bucket is kept while the table does not grow. -/
theorem bucket_runAll {calls : List (CursorCall (SlotIndex table.toSlotTable key))}
    (room : NoGrowth index calls) (here : table.bucket index.inv k = some b) :
    table.bucket (runAll index calls).inv k = some b := by
  induction calls generalizing index with
  | nil => exact here
  | cons call calls ih => exact ih room.2 (bucket_run room.1 here)

/-- The number of the bucket of a key denotes the key. -/
theorem denotes_of_bucket (here : table.bucket index.inv k = some b) :
    Denotes (ι := SlotIndex table.toSlotTable key) index b k where
  held := by
    change (table.find index.inv k).isSome
    rw [BucketTable.find_of_bucket here]
    rfl
  get := (BucketTable.find_of_bucket here).symm
  set_same data := BucketTable.find_setValue_same data here
  set_ne data _ ne := BucketTable.find_setValue_ne data here ne

theorem keepsDenoting_buckets (table : BucketTable K BzInv) (key : BzUint256 → K) :
    KeepsDenoting (SlotIndex table.toSlotTable key) NoGrowth := by
  intro index hash calls _ room
  apply denotes_of_bucket
  apply bucket_runAll room
  exact table.bucket_insert_same index.inv (key hash)

end Buckets

section Stable

variable {table : StableTable (List UInt8) (List UInt8)}
  {index : CursorIndex table.toCursorTable} {cursor : table.Cursor} {hash : BzUint256}

theorem isSome_copyGet {t : table.Table} :
    (copyGet table.toCopyTable t hash).isSome = (table.get t hash.d8).isSome :=
  Option.isSome_map

/-- What is stored stays stored. -/
theorem isSome_get_run (call : CursorCall (CursorIndex table.toCursorTable))
    (stored : (table.get index.inv hash.d8).isSome) :
    (table.get (call.run index).inv hash.d8).isSome := by
  cases call with
  | set hash' data =>
    change (table.get (table.put index.inv hash'.d8 data.d8) hash.d8).isSome
    by_cases same : hash.d8 = hash'.d8
    · rw [same, table.get_put_same]
      rfl
    · rw [table.get_put_ne _ _ same]
      exact stored
  | get hash' => exact stored
  | cursorFind hash' => exact stored
  | cursorGet cursor' => exact stored
  | cursorSet cursor' data =>
    change (table.get (table.cursorSet index.inv cursor' data.d8) hash.d8).isSome
    by_cases same : hash.d8 = table.key cursor'
    · rw [same] at stored ⊢
      rw [table.get_cursorSet_key cursor' data.d8 stored]
      rfl
    · rw [table.get_cursorSet_other cursor' data.d8 same]
      exact stored

theorem isSome_get_runAll (calls : List (CursorCall (CursorIndex table.toCursorTable)))
    (stored : (table.get index.inv hash.d8).isSome) :
    (table.get (runAll index calls).inv hash.d8).isSome := by
  induction calls generalizing index with
  | nil => exact stored
  | cons call calls ih => exact ih (isSome_get_run call stored)

/-- A cursor that stands for the bytes of a stored hash denotes it. -/
theorem denotes_of_key (stands : table.key cursor = hash.d8)
    (stored : (table.get index.inv hash.d8).isSome) : Denotes index cursor hash where
  held := isSome_copyGet.trans stored
  get := by
    change (table.cursorGet index.inv cursor).map castInv = _
    rw [table.cursorGet_key, stands]
    rfl
  set_same data := by
    change (table.get (table.cursorSet index.inv cursor data.d8) hash.d8).map castInv = some data
    rw [← stands] at stored ⊢
    rw [table.get_cursorSet_key cursor data.d8 stored, Option.map_some, castInv_d8]
  set_ne data hash' ne := by
    change (table.get (table.cursorSet index.inv cursor data.d8) hash'.d8).map castInv = _
    have other : hash'.d8 ≠ table.key cursor := by
      rw [stands]
      intro same
      exact ne (BzUint256.ext same)
    rw [table.get_cursorSet_other cursor data.d8 other]
    rfl

theorem keepsDenoting_stable (table : StableTable (List UInt8) (List UInt8)) :
    KeepsDenoting (CursorIndex table.toCursorTable) fun _ _ => True := by
  intro index hash calls stored _
  have here : (table.get index.inv hash.d8).isSome := isSome_copyGet.symm.trans stored
  apply denotes_of_key
  · exact table.key_jump here
  · exact isSome_get_runAll calls here

end Stable

def firstHash : BzUint256 := ⟨List.replicate 32 1, rfl⟩

def otherHash : BzUint256 := ⟨List.replicate 32 2, rfl⟩

/-- A table in which the two hashes change places when it grows. -/
def twoHashes : BucketTable BzUint256 BzInv := movingTable firstHash otherHash ⟨0, 0⟩

/-- Once the table has grown, for a lookup of the first hash, its cursor reads the entry of the
second. -/
theorem not_keepsDenoting_twoHashes :
    ¬ KeepsDenoting (SlotIndex twoHashes.toSlotTable id) fun _ _ => True := by
  intro keeps
  have denotes := keeps (runAll InvEngine.empty [set firstHash ⟨1, 0⟩]) firstHash
    [set otherHash ⟨2, 0⟩, get firstHash] rfl trivial
  exact absurd denotes.get (by decide)

/-- Where cursors are supported they keep denoting their keys while the table does not grow,
and in KC always. -/
theorem cursors_denote (kh : BucketTable BzUint256 BzInv) (ah : BucketTable UInt64 BzInv)
    (kc : StableTable (List UInt8) (List UInt8)) :
    KeepsDenoting (SlotIndex kh.toSlotTable id) NoGrowth ∧
      KeepsDenoting (SlotIndex ah.toSlotTable (·.d64 0)) NoGrowth ∧
      KeepsDenoting (CursorIndex kc.toCursorTable) fun _ _ => True :=
  ⟨keepsDenoting_buckets kh id, keepsDenoting_buckets ah _, keepsDenoting_stable kc⟩

/-- The other hash added while there is room. -/
theorem cursors_denote_twoHashes :
    Denotes (ι := SlotIndex twoHashes.toSlotTable id)
      (runAll (InvEngine.bzingInvCursorFind
        (runAll InvEngine.empty [set firstHash ⟨1, 0⟩]) firstHash).2 [set otherHash ⟨2, 0⟩])
      (InvEngine.bzingInvCursorFind (runAll InvEngine.empty [set firstHash ⟨1, 0⟩]) firstHash).1
      firstHash :=
  (cursors_denote twoHashes (movingTable 1 2 ⟨0, 0⟩)
    (assocStableTable (List UInt8) (List UInt8))).1
    _ firstHash _ rfl ⟨fun _ => by decide, trivial⟩

end Bzing
