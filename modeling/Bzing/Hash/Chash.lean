import Bzing.Hash.Sparse

/-!
# libchash

The hash table of `sparsehash/libchash.c` over its sparse arrays, with the parameters of
`libchash.h`: quadratic probing, a table of at least 512 buckets that is at most half full, and
deletion that marks the item. Keys are longer than a word and copied (`fSaveKeys` 1), so a key
stands for the bytes of its copy; `h` hashes them. `HashSetDeltaGoalSize` is never called, and no
table is loaded from a file. A call has no result when it accesses something outside an array,
reads or frees a key that was freed, reads what was never set, overflows an `int`, or does not
end.
-/

namespace Bzing.Chash

/-- `HashTable`. `posLastFind` is none until it is set, which `AllocateHashTable` does not do. -/
structure HashTable (K : Type) where
  cItems : UInt64
  cDeletedItems : UInt64
  cBuckets : UInt64
  table : List (SparseBin K)
  cDeltaGoalSize : Int32
  posLastFind : Option (Option ItemPtr)
  deriving DecidableEq

/-- `DELETED`. -/
def deletedData : UInt64 := -2

section Items

variable {K : Type} (table : List (SparseBin K)) (bck : ItemPtr)

/-- `IS_BCK_DELETED`. -/
def isBckDeleted : Option Bool := do
  let item ← deref table bck
  some (item.data = deletedData)

/-- `FREE_KEY(ht, bck->key)`. -/
def freeKey : Option Unit := do
  let item ← deref table bck
  let _ ← item.key
  some ()

/-- `SET_BCK_DELETED`. -/
def setBckDeleted : Option (List (SparseBin K)) := do
  freeKey table bck
  store table bck ⟨deletedData, none⟩

/-- `HashNextBucket` and, from none, `HashFirstBucket` (`libchash.c:1283-1302`). -/
def hashNextBucket : Option ItemPtr → Option (Option ItemPtr) :=
  Walk.nextKept (sparseNextBucket table) (isBckDeleted table) (64 * table.length + 1)

/-- `for ( bck = HashFirstBucket(ht); bck; bck = HashNextBucket(ht) )`. -/
def forBuckets {σ : Type} (body : σ → ItemPtr → Option σ) : σ → Option σ :=
  Walk.forEach (hashNextBucket table) body (64 * table.length + 1) none

end Items

/-- The loop of `NextPow2`. -/
def blackOut : Nat → UInt64 → UInt64
  | 0, x => x
  | fuel + 1, x => if x &&& (x - 1) ≠ 0 then blackOut fuel (x &&& (x - 1)) else x

/-- `NextPow2` (`libchash.c:1061-1068`). -/
def nextPow2 (x : UInt64) : UInt64 :=
  let x := if (x <<< 1) >>> 1 ≠ x then x >>> 1 else x
  blackOut 64 x <<< 1

section Table

variable {K : Type}

/-- `cItems + cDeletedItems >= cBuckets * OCCUPANCY_PCT`. The product is a double, and exact. -/
def isFull (ht : HashTable K) : Bool :=
  2 * (ht.cItems.toNat + ht.cDeletedItems.toNat) ≥ ht.cBuckets.toNat

/-- `cItems < cBuckets * OCCUPANCY_PCT * 0.4`. A fifth of a power of two is never near an integer,
    so the rounding of the factor does not matter. -/
def isSparse (ht : HashTable K) : Bool := 5 * ht.cItems.toNat < ht.cBuckets.toNat

/-- `NextPow2((ulong)((goal + cItems) / OCCUPANCY_PCT))`, with the delta goal size if it is not
    negative. -/
def goalBuckets (ht : HashTable K) : UInt64 :=
  nextPow2 (UInt64.ofNat (2 * (ht.cDeltaGoalSize.toInt.toNat + ht.cItems.toNat)))

variable (h : K → UInt64)

/-- What `Hash` returns (`libchash.c:945`). -/
def hashBucket (key : K) (cBuckets : UInt64) : UInt64 := h key &&& (cBuckets - 1)

/-- `(iBucketFirst + JUMP(key, offset)) & (cBuckets-1)`, with the new `offset`. -/
def jump (cBuckets iBucketFirst offset : UInt64) : UInt64 :=
  (iBucketFirst + offset) &&& (cBuckets - 1)

/-- The probing in `Rehash` (`libchash.c:984-988`). -/
def freeBucket (tableNew : List (SparseBin K)) (cNewBuckets : UInt64) :
    Nat → UInt64 → UInt64 → Option UInt64
  | 0, _, _ => none
  | fuel + 1, iBucketFirst, offset => do
    let empty ← sparseIsEmpty tableNew iBucketFirst
    if empty then some iBucketFirst
    else
      let offset := offset + 1
      freeBucket tableNew cNewBuckets fuel (jump cNewBuckets iBucketFirst offset) offset

/-- One item of `Rehash` (`libchash.c:983-989`). -/
def rehashItem (cNewBuckets : UInt64) (tableNew : List (SparseBin K)) (item : HTItem K) :
    Option (ItemPtr × List (SparseBin K)) := do
  let key ← item.key
  let iBucketFirst ← freeBucket tableNew cNewBuckets cNewBuckets.toNat
    (hashBucket h key cNewBuckets) 0
  let (bckNew, _, tableNew) ← sparseInsert tableNew iBucketFirst item false
  some (bckNew, tableNew)

/-- The turn of the loop in `Rehash` for `bck`. -/
def rehashTurn (table : List (SparseBin K)) (cNewBuckets : UInt64) (bckWatch : Option ItemPtr)
    (tableNew : List (SparseBin K)) (bck : ItemPtr) : Option (List (SparseBin K)) :=
  -- ignore if we see it during the iteration
  if bckWatch = some bck then some tableNew
  else do
    let item ← deref table bck
    let (_, tableNew) ← rehashItem h cNewBuckets tableNew item
    some tableNew

/-- `Rehash` (`libchash.c:958-998`). What it returns without `bckWatch` is not used. -/
def rehash (ht : HashTable K) (cNewBuckets : UInt64) (bckWatch : Option ItemPtr) :
    Option (Option ItemPtr × HashTable K) := do
  let (cNewBuckets, tableNew) ← sparseAllocate K cNewBuckets
  let tableNew ← forBuckets ht.table (rehashTurn h ht.table cNewBuckets bckWatch) tableNew
  let (bckNew, tableNew) ← match bckWatch with
    | none => some (none, tableNew)
    | some bck => do
      let item ← deref ht.table bck
      let (bckNew, tableNew) ← rehashItem h cNewBuckets tableNew item
      some (some bckNew, tableNew)
  some (bckNew, { ht with table := tableNew, cBuckets := cNewBuckets, cDeletedItems := 0 })

variable [DecidableEq K]

/-- The loop of `Find`, with `*piEmpty` once an empty bucket was passed over. -/
def findLoop (ht : HashTable K) (key : K) :
    Nat → UInt64 → UInt64 → Option UInt64 → Option (Option ItemPtr × Option UInt64)
  | 0, _, _, _ => none
  | fuel + 1, iBucketFirst, offset, piEmpty => do
    let offset' := offset + 1
    let next := jump ht.cBuckets iBucketFirst offset'
    match ← sparseFind ht.table iBucketFirst with
    | none =>
      some (none, some (piEmpty.getD iBucketFirst))
    | some item =>
      let deleted ← isBckDeleted ht.table item
      if deleted then findLoop ht key fuel next offset' (some (piEmpty.getD iBucketFirst))
      else do
        let bck ← deref ht.table item
        let other ← bck.key
        if key = other then some (some item, piEmpty)
        else findLoop ht key fuel next offset' piEmpty

/-- `Find` (`libchash.c:1009-1048`): the item, `*piEmpty`, and the table. -/
def find (ht : HashTable K) (key : K) :
    Option (Option ItemPtr × Option UInt64 × HashTable K) := do
  let (item, piEmpty) ← findLoop ht key ht.cBuckets.toNat (hashBucket h key ht.cBuckets) 0 none
  some (item, piEmpty, { ht with posLastFind := some item })

/-- `Insert` once the item is in the table (`libchash.c:1089-1101`). -/
def grow (ht : HashTable K) (item : ItemPtr) : Option (ItemPtr × HashTable K) :=
  if isFull ht ∨ ht.cDeltaGoalSize < 0 then do
    let (item, ht) ← rehash h ht (goalBuckets ht) (some item)
    let item ← item
    some (item, ht)
  else some (item, ht)

/-- `Insert` (`libchash.c:1070-1102`). -/
def insert (ht : HashTable K) (key : K) (data : UInt64) (fOverwrite : Bool) :
    Option (ItemPtr × HashTable K) := do
  let (item, iEmpty, ht) ← find h ht key
  let ht := { ht with posLastFind := some none }
  match item with
  | some item =>
    if fOverwrite then do
      let bck ← deref ht.table item
      let table ← store ht.table item { bck with data := data }
      some (item, { ht with table := table })
    else some (item, ht)
  | none => do
    let iEmpty ← iEmpty
    let (item, fOverwrite, table) ← sparseInsert ht.table iEmpty ⟨data, some key⟩ fOverwrite
    grow h { ht with
      table := table
      cDeletedItems := if fOverwrite then ht.cDeletedItems - 1 else ht.cDeletedItems
      cItems := ht.cItems + 1
      cDeltaGoalSize := if ht.cDeltaGoalSize > 0 then ht.cDeltaGoalSize - 1
        else ht.cDeltaGoalSize } item

/-- `Delete` once the item is found (`libchash.c:1119-1132`), with `fShrink`. -/
def deleteFound (ht : HashTable K) : Option (HashTable K) := do
  let bck ← ht.posLastFind.join
  let table ← setBckDeleted ht.table bck
  let ht := { ht with
    table := table
    cItems := ht.cItems - 1
    cDeletedItems := ht.cDeletedItems + 1
    cDeltaGoalSize := if ht.cDeltaGoalSize < 0 then ht.cDeltaGoalSize + 1
      else ht.cDeltaGoalSize }
  if isSparse ht ∧ ht.cDeltaGoalSize ≥ 0 ∧ ht.cBuckets >>> 1 ≥ 512 then do
    let (_, ht) ← rehash h ht (goalBuckets ht) none
    some { ht with posLastFind := some none }
  else some { ht with posLastFind := some none }

/-! ## The calls -/

/-- `AllocateHashTable` (`libchash.c:1157-1174`). -/
def allocateHashTable (K : Type) : Option (HashTable K) := do
  let (cBuckets, table) ← sparseAllocate K 512
  some ⟨0, 0, cBuckets, table, 0, none⟩

/-- `ClearHashTable` (`libchash.c:1176-1197`). -/
def clearHashTable (ht : HashTable K) : Option (HashTable K) := do
  forBuckets ht.table (fun _ => freeKey ht.table) ()
  let (cBuckets, table) ← sparseAllocate K 512
  some ⟨0, 0, cBuckets, table, 0, some none⟩

/-- `HashFind` (`libchash.c:1219-1222`). -/
def hashFind (ht : HashTable K) (key : K) : Option (Option ItemPtr × HashTable K) := do
  let (item, _, ht) ← find h ht key
  some (item, ht)

/-- `HashFindLast` (`libchash.c:1224-1227`). -/
def hashFindLast (ht : HashTable K) : Option (Option ItemPtr) := ht.posLastFind

/-- `HashInsert` (`libchash.c:1252-1255`). -/
def hashInsert (ht : HashTable K) (key : K) (data : UInt64) : Option (ItemPtr × HashTable K) :=
  insert h ht key data true

/-- `HashDelete` (`libchash.c:1262-1265`). -/
def hashDelete (ht : HashTable K) (key : K) : Option (Bool × HashTable K) := do
  let (item, _, ht) ← find h ht key
  if item.isSome then do
    let ht ← deleteFound h ht
    some (true, ht)
  else some (false, ht)

/-- `HashDeleteLast` (`libchash.c:1267-1272`). -/
def hashDeleteLast (ht : HashTable K) : Option (Bool × HashTable K) := do
  let last ← ht.posLastFind
  if last.isSome then do
    let ht ← deleteFound h ht
    some (true, ht)
  else some (false, ht)

end Table

/-- The words `a`, `b` and `c` of `Hash`. -/
structure Words where
  a : UInt64
  b : UInt64
  c : UInt64

/-- Three lines of `mix`. -/
def mixLines (i j k : UInt64) (w : Words) : Words :=
  let a := (w.a - w.b - w.c) ^^^ w.c >>> i
  let b := (w.b - w.c - a) ^^^ a <<< j
  let c := (w.c - a - b) ^^^ b >>> k
  ⟨a, b, c⟩

/-- `mix` (`libchash.c:856-870`). -/
def mix (w : Words) : Words :=
  mixLines 12 18 22 (mixLines 35 49 11 (mixLines 38 23 5 (mixLines 43 9 8 w)))

/-- `(ulong) ptr[0] + ((ulong) ptr[1]<<8) + ...`, where a `char` has a sign. -/
def wordAt : List UInt8 → UInt64
  | [] => 0
  | byte :: bytes => byte.toInt8.toInt64.toUInt64 + wordAt bytes <<< 8

/-- The loop of `Hash`, 24 bytes at a time. -/
def hashLoop : Nat → Words → List UInt8 → Words × List UInt8
  | 0, w, key => (w, key)
  | n + 1, w, key =>
    hashLoop n (mix ⟨w.a + wordAt (key.take 8), w.b + wordAt ((key.drop 8).take 8),
      w.c + wordAt ((key.drop 16).take 8)⟩) (key.drop 24)

/-- `Hash` (`libchash.c:884-946`), before the mask. What is left of the key after the loop is added
    to the words; the first byte of `c` is reserved for the length. -/
def hash (key : List UInt8) : UInt64 :=
  let (w, rest) := hashLoop (key.length / 24) ⟨0x9e3779b9, 0x9e3779b9, 0x9e3779b9⟩ key
  let c := w.c + UInt64.ofNat key.length
  (mix ⟨w.a + wordAt (rest.take 8), w.b + wordAt ((rest.drop 8).take 8),
    c + wordAt (rest.drop 16) <<< 8⟩).c

end Bzing.Chash
