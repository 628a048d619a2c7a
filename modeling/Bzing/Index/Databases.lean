import Bzing.Index.LastSet
import Bzing.Index.Indexed

/-!
# The index of any engine

`EngineIndex` is the table of a handle by its engine, for what is true or false of every engine
`bzing_alloc` supports (`bzing.c:61-172`). With it come a lookup, which in SPARSE follows what
`HashFind` returns untested, the entries that are stored, and what `bzing_reset` does to the
table (`bzing.c:224-267`).
-/

namespace Bzing

open Tables

/-- The libraries with the calls that empty a table. -/
structure Databases extends Libraries where
  /-- `kh_clear`. -/
  khClear : kh.Table → kh.Table
  /-- `alignhash_clear`. -/
  ahClear : ah.Table → ah.Table
  /-- `tchdbvanish`. -/
  tcVanish : tc.Table → tc.Table
  /-- `kcdbclear`. -/
  kcClear : kc.Table → kc.Table
  /-- `truncate`. -/
  bdbTruncate : bdb.Table → bdb.Table
  find_khClear (t : kh.Table) (hash : BzUint256) : kh.find (khClear t) hash = none
  find_ahClear (t : ah.Table) (word : UInt64) : ah.find (ahClear t) word = none
  get_tcVanish (t : tc.Table) (d8 : List UInt8) : tc.get (tcVanish t) d8 = none
  get_kcClear (t : kc.Table) (d8 : List UInt8) : kc.get (kcClear t) d8 = none
  get_bdbTruncate (t : bdb.Table) (d8 : List UInt8) : bdb.get (bdbTruncate t) d8 = none

/-- An engine as the user of a handle sees it. -/
class DbEngine (ι : Type) extends InvEngine ι where
  /-- `bzing_inv_get`, called from outside. -/
  bzingLookup : ι → BzUint256 → Except Fault (Option BzInv × ι)
  /-- What is stored under a hash. -/
  entry : ι → BzUint256 → Option BzInv
  /-- What `bzing_reset` makes of the table. -/
  reset : ι → ι

/-- The index of LMC. -/
structure LmcIndex (table : CopyTable (List UInt8) (List UInt8)) where
  inv : table.Table

instance (table : CopyTable (List UInt8) (List UInt8)) : InvEngine (LmcIndex table) where
  empty := ⟨table.empty⟩
  cursorSupport := false
  bzingInvSet index hash data := ⟨copySet table index.inv hash data⟩
  bzingInvGet index _ := (none, index)
  Cursor := Unit
  bzingInvCursorFind index _ := ((), index)
  bzingInvCursorGet _ _ := none
  bzingInvCursorSet index _ _ := index

/-- The index of SPARSE, and the memory it points into. -/
structure SparseIndex (table : CopyTable (List UInt8) UInt64) where
  inv : table.Table
  mem : Memory

/-- The address of `inv` in `bzing_block_add`. It is the only record that is handed over:
`bzing_spent_mark` hands back the pointer it was given, and writes through it. -/
def invRecord : UInt64 := 16

instance (table : CopyTable (List UInt8) UInt64) : InvEngine (SparseIndex table) where
  empty := ⟨table.empty, fun _ => ⟨0, 0⟩⟩
  cursorSupport := false
  bzingInvSet index hash data :=
    ⟨table.put index.inv hash.d8 invRecord, index.mem.modify invRecord data⟩
  bzingInvGet index hash := ((table.get index.inv hash.d8).map index.mem, index)
  Cursor := Unit
  bzingInvCursorFind index _ := ((), index)
  bzingInvCursorGet _ _ := none
  bzingInvCursorSet index _ _ := index

/-- The table of a handle. -/
def EngineIndex (dbs : Databases) : EngineId → Type
  | .khash => SlotIndex dbs.kh id
  | .align => SlotIndex dbs.ah (·.d64 0)
  | .sparse => SparseIndex dbs.sp
  | .lmc => LmcIndex dbs.lmc
  | .tc => CopyIndex dbs.tc
  | .kc => CursorIndex dbs.kc
  | .bdb => CopyIndex dbs.bdb
  | .ldb => CopyIndex dbs.ldb

variable {dbs : Databases}

instance : DbEngine (SlotIndex dbs.kh id) where
  bzingLookup index hash := .ok (InvEngine.bzingInvGet index hash)
  entry index := dbs.kh.find index.inv
  reset index := ⟨dbs.khClear index.inv⟩

instance : DbEngine (SlotIndex dbs.ah (·.d64 0)) where
  bzingLookup index hash := .ok (InvEngine.bzingInvGet index hash)
  entry index hash := dbs.ah.find index.inv (hash.d64 0)
  reset index := ⟨dbs.ahClear index.inv⟩

instance : DbEngine (SparseIndex dbs.sp) where
  bzingLookup index hash := do
    let data ← orFault .nullDeref (dbs.sp.get index.inv hash.d8)
    .ok (some (index.mem data), index)
  entry index hash := (dbs.sp.get index.inv hash.d8).map index.mem
  reset index := index

instance : DbEngine (LmcIndex dbs.lmc) where
  bzingLookup index hash := .ok (InvEngine.bzingInvGet index hash)
  entry index := copyGet dbs.lmc index.inv
  -- the namespace that is dropped is `main`, the table's is `inv`
  reset index := index

/-- TC, BDB and LDB. -/
@[reducible] def copyDb (table : CopyTable (List UInt8) (List UInt8)) (clear : table.Table → table.Table) :
    DbEngine (CopyIndex table) where
  bzingLookup index hash := .ok (InvEngine.bzingInvGet index hash)
  entry index := copyGet table index.inv
  reset index := ⟨clear index.inv⟩

instance : DbEngine (CursorIndex dbs.kc) where
  bzingLookup index hash := .ok (InvEngine.bzingInvGet index hash)
  entry index := copyGet dbs.kc.toCopyTable index.inv
  reset index := ⟨dbs.kcClear index.inv⟩

/-- The switches of `bzing_inv_set`, `bzing_inv_get` and `bzing_reset`. -/
instance : (engine : EngineId) → DbEngine (EngineIndex dbs engine)
  | .khash => inferInstanceAs (DbEngine (SlotIndex dbs.kh id))
  | .align => inferInstanceAs (DbEngine (SlotIndex dbs.ah (·.d64 0)))
  | .sparse => inferInstanceAs (DbEngine (SparseIndex dbs.sp))
  | .lmc => inferInstanceAs (DbEngine (LmcIndex dbs.lmc))
  | .tc => copyDb dbs.tc dbs.tcVanish
  | .kc => inferInstanceAs (DbEngine (CursorIndex dbs.kc))
  | .bdb => copyDb dbs.bdb dbs.bdbTruncate
  | .ldb => copyDb dbs.ldb id

/-- The handle's table among those of all engines. -/
def invIndex : (engine : EngineId) → EngineIndex dbs engine → InvIndex dbs.toLibraries
  | .khash, index => .khash (SlotIndex.inv index)
  | .align, index => .align (SlotIndex.inv index)
  | .sparse, index => .sparse (SparseIndex.inv index)
  | .lmc, index => .lmc (LmcIndex.inv index)
  | .tc, index => .tc (CopyIndex.inv index)
  | .kc, index => .kc (CursorIndex.inv index)
  | .bdb, index => .bdb (CopyIndex.inv index)
  | .ldb, index => .ldb (CopyIndex.inv index)

/-- The memory a lookup reads. -/
def invMemory (mem : Memory) : (engine : EngineId) → EngineIndex dbs engine → Memory
  | .sparse, index => SparseIndex.mem index
  | _, _ => mem

/-- `bzing_inv_set` is handed the record. -/
theorem invIndex_set (engine : EngineId) (index : EngineIndex dbs engine) (mem : Memory)
    (hash : BzUint256) :
    (invIndex engine index).bzingInvSet mem hash invRecord =
      invIndex engine (InvEngine.bzingInvSet index hash (mem invRecord)) := by
  cases engine <;> rfl

theorem invIndex_get (engine : EngineId) (index : EngineIndex dbs engine) (mem : Memory)
    (hash : BzUint256) :
    (invIndex engine index).bzingInvGet (invMemory mem engine index) hash =
      (DbEngine.bzingLookup index hash).map fun (data, index) => (data, invIndex engine index) := by
  cases engine with
  | sparse =>
    change (orFault .nullDeref (dbs.sp.get index.inv hash.d8) >>= _) =
      (orFault .nullDeref (dbs.sp.get index.inv hash.d8) >>= _).map _
    cases dbs.sp.get (SparseIndex.inv index) hash.d8 <;> rfl
  | _ => rfl

end Bzing
