import Bzing.Data.Tables
import Bzing.Index.Inv

/-!
# The engines

The adapters between the index and the tables of the eight engines (`bzing.c:294-554`), each a
`switch` on the engine of the handle. The tables are those of the libraries, given by their
contracts. Values are handed over as pointers into the caller's memory, since one engine keeps
the pointer; a value that comes back is the one it points to when the call returns.

The engines that copy are lawful (`LawfulInvEngine`), so that what is proved about handles
holds with them.
-/

namespace Bzing

open Tables LittleEndian

/-- `BZ_EID_*` (`bzing_engines.h:43-50`). -/
inductive EngineId where
  | khash
  | align
  | sparse
  | lmc
  | tc
  | kc
  | bdb
  | ldb
  deriving DecidableEq

/-- The tables of the libraries. Those that are not in the source tree store byte strings. -/
structure Libraries where
  /-- `khash_t(256)`: `kh_put`, `kh_val`. -/
  kh : SlotTable BzUint256 BzInv
  /-- `alignhash_inv_t`: `alignhash_set`, `alignhash_value`. -/
  ah : SlotTable UInt64 BzInv
  /-- `HashTable`: `HashInsert`, `HashFind`; the keys are copied, the data is a word. -/
  sp : CopyTable (List UInt8) UInt64
  lmc : CopyTable (List UInt8) (List UInt8)
  tc : CopyTable (List UInt8) (List UInt8)
  kc : CursorTable (List UInt8) (List UInt8)
  bdb : CopyTable (List UInt8) (List UInt8)
  ldb : CopyTable (List UInt8) (List UInt8)

/-- `kh_256_hash_equal` (`bzing_engines.h:160-164`). -/
def kh256HashEqual (a b : BzUint256) : Bool :=
  a.d64 0 = b.d64 0 && a.d64 1 = b.d64 1 && a.d64 2 = b.d64 2 && a.d64 3 = b.d64 3

/-- The `bz_inv_t` at each address of the caller's memory. -/
abbrev Memory := UInt64 → BzInv

/-- The 16 bytes of a `bz_inv_t`. -/
def BzInv.d8 (inv : BzInv) : List UInt8 := bytes 8 inv.offset.toNat ++ bytes 8 inv.spent.toNat

/-- `(bz_inv)`: a `bz_inv_t` at the start of a byte string. -/
def castInv (d8 : List UInt8) : BzInv :=
  ⟨UInt64.ofNat (value (d8.take 8)), UInt64.ofNat (value ((d8.drop 8).take 8))⟩

theorem castInv_d8 (inv : BzInv) : castInv inv.d8 = inv := by
  have word : ∀ w : UInt64, UInt64.ofNat (value (bytes 8 w.toNat)) = w := fun w => by
    rw [value_bytes (by have := w.toNat_lt; norm_num; omega), UInt64.ofNat_toNat]
  have front : inv.d8.take 8 = bytes 8 inv.offset.toNat := List.take_left' (length_bytes 8 _)
  have back : (inv.d8.drop 8).take 8 = bytes 8 inv.spent.toNat := by
    rw [BzInv.d8, List.drop_left' (length_bytes 8 _)]
    exact List.take_of_length_le (Nat.le_of_eq (length_bytes 8 _))
  rw [castInv, front, back, word, word]

/-- The four words are the 32 bytes. -/
theorem kh256HashEqual_iff (a b : BzUint256) : kh256HashEqual a b = true ↔ a = b := by
  constructor
  · intro equal
    simp only [kh256HashEqual, Bool.and_eq_true, decide_eq_true_eq] at equal
    have word : ∀ k, a.d64 k = b.d64 k → k ≤ 3 →
        (a.d8.drop (8 * k)).take 8 = (b.d8.drop (8 * k)).take 8 := by
      intro k same small
      have length : ∀ h : BzUint256, ((h.d8.drop (8 * k)).take 8).length = 8 := fun h => by
        rw [List.length_take, List.length_drop, h.size]
        omega
      have bound : ∀ h : BzUint256, value ((h.d8.drop (8 * k)).take 8) < 2 ^ 64 := fun h => by
        have := value_lt ((h.d8.drop (8 * k)).take 8)
        rwa [length h] at this
      have values := congrArg UInt64.toNat same
      unfold BzUint256.d64 at values
      rw [UInt64.toNat_ofNat', UInt64.toNat_ofNat', Nat.mod_eq_of_lt (bound a),
        Nat.mod_eq_of_lt (bound b)] at values
      rw [← bytes_value ((a.d8.drop (8 * k)).take 8), ← bytes_value ((b.d8.drop (8 * k)).take 8),
        length, length, values]
    have split : ∀ h : BzUint256, h.d8 = (h.d8.drop (8 * 0)).take 8 ++ (h.d8.drop (8 * 1)).take 8 ++
        (h.d8.drop (8 * 2)).take 8 ++ (h.d8.drop (8 * 3)).take 8 := by
      intro h
      have last : (h.d8.drop 24).take 8 = h.d8.drop 24 :=
        List.take_of_length_le (by rw [List.length_drop, h.size])
      change h.d8 = h.d8.take 8 ++ (h.d8.drop 8).take 8 ++ (h.d8.drop 16).take 8 ++
        (h.d8.drop 24).take 8
      rw [last, List.append_assoc, List.append_assoc]
      have step : ∀ n, (h.d8.drop n).take 8 ++ h.d8.drop (n + 8) = h.d8.drop n := fun n => by
        rw [← List.drop_drop, List.take_append_drop]
      rw [step 16, step 8, List.take_append_drop]
    apply BzUint256.ext
    rw [split a, split b, word 0 equal.1.1.1 (by omega), word 1 equal.1.1.2 (by omega),
      word 2 equal.1.2 (by omega), word 3 equal.2 (by omega)]
  · rintro rfl
    simp [kh256HashEqual]

section Copy

variable (table : CopyTable (List UInt8) (List UInt8))

/-- `tchdbput`, `kcdbset`, `put`, `leveldb_put` with the hash and the entry. -/
def copySet (t : table.Table) (hash : BzUint256) (data : BzInv) : table.Table :=
  table.put t hash.d8 data.d8

/-- `tchdbget`, `kcdbget`, `get`, `leveldb_get` with the hash. -/
def copyGet (t : table.Table) (hash : BzUint256) : Option BzInv :=
  (table.get t hash.d8).map castInv

theorem copyGet_copySet (t : table.Table) (key hash : BzUint256) (data : BzInv) :
    copyGet table (copySet table t key data) hash =
      if hash = key then some data else copyGet table t hash := by
  unfold copyGet copySet
  by_cases same : hash = key
  · rw [if_pos same, same, table.get_put_same, Option.map_some, castInv_d8]
  · have other : hash.d8 ≠ key.d8 := fun eq => same (BzUint256.ext eq)
    rw [if_neg same, table.get_put_ne t _ other]

end Copy

/-! ## The handle's table -/

/-- The table of a handle, by engine. -/
inductive InvIndex (libs : Libraries) where
  | khash (khInv : libs.kh.Table)
  | align (ahInv : libs.ah.Table)
  | sparse (spInv : libs.sp.Table)
  | lmc (lmcInv : libs.lmc.Table)
  | tc (tcInv : libs.tc.Table)
  | kc (kcInv : libs.kc.Table)
  | bdb (bdbInv : libs.bdb.Table)
  | ldb (ldbInv : libs.ldb.Table)

/-- `bz_cursor`, by engine; the other engines have none. -/
inductive InvCursor (libs : Libraries) where
  | khash (khIter : libs.kh.Iter)
  | align (ahIter : libs.ah.Iter)
  | kc (kcCursor : libs.kc.Cursor)
  | unset

namespace InvIndex

variable {libs : Libraries}

/-- The table `bzing_alloc` makes. -/
def alloc (libs : Libraries) : EngineId → InvIndex libs
  | .khash => khash libs.kh.empty
  | .align => align libs.ah.empty
  | .sparse => sparse libs.sp.empty
  | .lmc => lmc libs.lmc.empty
  | .tc => tc libs.tc.empty
  | .kc => kc libs.kc.empty
  | .bdb => bdb libs.bdb.empty
  | .ldb => ldb libs.ldb.empty

/-- `bzing_inv_set` (`bzing.c:294-368`) with a pointer to the entry. -/
def bzingInvSet (mem : Memory) (index : InvIndex libs) (hash : BzUint256) (data : UInt64) :
    InvIndex libs :=
  match index with
  | khash khInv =>
    let (khIter, khInv) := libs.kh.insert khInv hash
    khash (libs.kh.setValue khInv khIter (mem data))
  | align ahInv =>
    let (ahIter, ahInv) := libs.ah.insert ahInv (hash.d64 0)
    align (libs.ah.setValue ahInv ahIter (mem data))
  | sparse spInv => sparse (libs.sp.put spInv hash.d8 data)
  | lmc lmcInv => lmc (copySet libs.lmc lmcInv hash (mem data))
  | tc tcInv => tc (copySet libs.tc tcInv hash (mem data))
  | kc kcInv => kc (copySet libs.kc.toCopyTable kcInv hash (mem data))
  | bdb bdbInv => bdb (copySet libs.bdb bdbInv hash (mem data))
  | ldb ldbInv => ldb (copySet libs.ldb ldbInv hash (mem data))

/-- `bzing_inv_get` (`bzing.c:370-452`): the entry, `none` for `NULL`, and the table after. -/
def bzingInvGet (mem : Memory) (index : InvIndex libs) (hash : BzUint256) :
    Except Fault (Option BzInv × InvIndex libs) :=
  match index with
  | khash khInv =>
    let (khIter, khInv) := libs.kh.insert khInv hash
    .ok (some (libs.kh.value khInv khIter), khash khInv)
  | align ahInv =>
    let (ahIter, ahInv) := libs.ah.insert ahInv (hash.d64 0)
    .ok (some (libs.ah.value ahInv ahIter), align ahInv)
  | sparse spInv => do
    -- `bck->data` is the pointer; `bck` is not tested
    let data ← orFault .nullDeref (libs.sp.get spInv hash.d8)
    .ok (some (mem data), sparse spInv)
  -- the result of `local_memcache_get_new` is dropped
  | lmc lmcInv => .ok (none, lmc lmcInv)
  | tc tcInv => .ok (copyGet libs.tc tcInv hash, tc tcInv)
  | kc kcInv => .ok (copyGet libs.kc.toCopyTable kcInv hash, kc kcInv)
  | bdb bdbInv => .ok (copyGet libs.bdb bdbInv hash, bdb bdbInv)
  | ldb ldbInv => .ok (copyGet libs.ldb ldbInv hash, ldb ldbInv)

/-- `bzing_inv_cursor_find` (`bzing.c:474-499`) with a new cursor. -/
def bzingInvCursorFind (index : InvIndex libs) (hash : BzUint256) :
    InvCursor libs × InvIndex libs :=
  match index with
  | khash khInv =>
    let (khIter, khInv) := libs.kh.insert khInv hash
    (.khash khIter, khash khInv)
  | align ahInv =>
    let (ahIter, ahInv) := libs.ah.insert ahInv (hash.d64 0)
    (.align ahIter, align ahInv)
  | kc kcInv => (.kc (libs.kc.jump kcInv hash.d8), kc kcInv)
  | index => (.unset, index)

/-- `bzing_inv_cursor_get` (`bzing.c:501-528`). -/
def bzingInvCursorGet (index : InvIndex libs) (cursor : InvCursor libs) : Option BzInv :=
  match index, cursor with
  | khash khInv, .khash khIter => some (libs.kh.value khInv khIter)
  | align ahInv, .align ahIter => some (libs.ah.value ahInv ahIter)
  | kc kcInv, .kc kcCursor => (libs.kc.cursorGet kcInv kcCursor).map castInv
  | _, _ => none

/-- `bzing_inv_cursor_set` (`bzing.c:530-552`). -/
def bzingInvCursorSet (mem : Memory) (index : InvIndex libs) (cursor : InvCursor libs)
    (data : UInt64) : InvIndex libs :=
  match index, cursor with
  | khash khInv, .khash khIter => khash (libs.kh.setValue khInv khIter (mem data))
  | align ahInv, .align ahIter => align (libs.ah.setValue ahInv ahIter (mem data))
  | kc kcInv, .kc kcCursor => kc (libs.kc.cursorSet kcInv kcCursor (mem data).d8)
  | index, _ => index

end InvIndex

section Lawful

/-- The index of TC, BDB or LDB. -/
structure CopyIndex (table : CopyTable (List UInt8) (List UInt8)) where
  inv : table.Table

instance (table : CopyTable (List UInt8) (List UInt8)) : InvEngine (CopyIndex table) where
  empty := ⟨table.empty⟩
  cursorSupport := false
  bzingInvSet index hash data := ⟨copySet table index.inv hash data⟩
  bzingInvGet index hash := (copyGet table index.inv hash, index)
  Cursor := Unit
  bzingInvCursorFind index _ := ((), index)
  bzingInvCursorGet _ _ := none
  bzingInvCursorSet index _ _ := index

instance (table : CopyTable (List UInt8) (List UInt8)) : LawfulInvEngine (CopyIndex table) where
  lookup index := copyGet table index.inv
  lookup_empty hash := by
    change (table.get table.empty hash.d8).map castInv = none
    rw [table.get_empty, Option.map_none]
  lookup_set index key hash data := copyGet_copySet table index.inv key hash data
  get_eq _ _ := rfl
  lookup_get _ _ _ := rfl
  cursorGet_eq _ _ support := by cases support
  lookup_cursorFind _ _ _ support := by cases support
  lookup_cursorSet _ _ _ _ support := by cases support

/-- The index of KC. -/
structure CursorIndex (table : CursorTable (List UInt8) (List UInt8)) where
  inv : table.Table

instance (table : CursorTable (List UInt8) (List UInt8)) : InvEngine (CursorIndex table) where
  empty := ⟨table.empty⟩
  cursorSupport := true
  bzingInvSet index hash data := ⟨copySet table.toCopyTable index.inv hash data⟩
  bzingInvGet index hash := (copyGet table.toCopyTable index.inv hash, index)
  Cursor := table.Cursor
  bzingInvCursorFind index hash := (table.jump index.inv hash.d8, index)
  bzingInvCursorGet index cursor := (table.cursorGet index.inv cursor).map castInv
  bzingInvCursorSet index cursor data := ⟨table.cursorSet index.inv cursor data.d8⟩

instance (table : CursorTable (List UInt8) (List UInt8)) :
    LawfulInvEngine (CursorIndex table) where
  lookup index := copyGet table.toCopyTable index.inv
  lookup_empty hash := by
    change (table.get table.empty hash.d8).map castInv = none
    rw [table.get_empty, Option.map_none]
  lookup_set index key hash data := copyGet_copySet table.toCopyTable index.inv key hash data
  get_eq _ _ := rfl
  lookup_get _ _ _ := rfl
  cursorGet_eq index key _ := by
    change (table.cursorGet index.inv (table.jump index.inv key.d8)).map castInv = _
    rw [table.cursorGet_jump]
    rfl
  lookup_cursorFind _ _ _ _ := rfl
  lookup_cursorSet index key hash data _ stored := by
    change (table.get (table.cursorSet index.inv (table.jump index.inv key.d8) data.d8)
      hash.d8).map castInv = _
    have present : (table.get index.inv key.d8).isSome := by
      rwa [copyGet, Option.isSome_map] at stored
    by_cases same : hash = key
    · rw [if_pos same, same, table.get_cursorSet_same _ _ _ present, Option.map_some, castInv_d8]
    · have other : hash.d8 ≠ key.d8 := fun eq => same (BzUint256.ext eq)
      rw [if_neg same, table.get_cursorSet_ne _ _ present other]
      rfl

/-- The calls of the default engine (`BZ_EID_DEFAULT`) are those of its lawful index. -/
theorem ldb_calls {libs : Libraries} (mem : Memory) (index : CopyIndex libs.ldb)
    (hash : BzUint256) (data : UInt64) :
    (InvIndex.ldb index.inv).bzingInvSet mem hash data =
        .ldb (InvEngine.bzingInvSet index hash (mem data)).inv ∧
      (InvIndex.ldb index.inv).bzingInvGet mem hash =
        .ok ((InvEngine.bzingInvGet index hash).1,
          .ldb (InvEngine.bzingInvGet index hash).2.inv) :=
  ⟨rfl, rfl⟩

/-- The calls of KC, the lawful engine with cursors, are those of its index. -/
theorem kc_calls {libs : Libraries} (mem : Memory) (index : CursorIndex libs.kc)
    (hash : BzUint256) (cursor : libs.kc.Cursor) (data : UInt64) :
    (InvIndex.kc index.inv).bzingInvSet mem hash data =
        .kc (InvEngine.bzingInvSet index hash (mem data)).inv ∧
      (InvIndex.kc index.inv).bzingInvCursorFind hash =
        (.kc (InvEngine.bzingInvCursorFind index hash).1,
          .kc (InvEngine.bzingInvCursorFind index hash).2.inv) ∧
      (InvIndex.kc index.inv).bzingInvCursorGet (.kc cursor) =
        InvEngine.bzingInvCursorGet index cursor ∧
      (InvIndex.kc index.inv).bzingInvCursorSet mem (.kc cursor) data =
        .kc (InvEngine.bzingInvCursorSet index cursor (mem data)).inv :=
  ⟨rfl, rfl, rfl, rfl⟩

end Lawful

end Bzing
