import Bzing.Data.Compact
import Bzing.Data.Walk

/-!
# Sparse arrays

The array under the table of `sparsehash/libchash.c`, with 64-bit words and one word of bits for
each group (`LOG_WORD_SIZE` 6, `LOG_BM_WORDS` 0). A group of 64 buckets keeps the items of those
that are taken in an array of their own. `StandsFor` says which array of buckets it stands for;
what each function does is then said of that array. A call has no result when it reads or writes
outside an array. Memory is never short.
-/

namespace Bzing.Chash

open Compact

/-- `HTItem`. `key` is none once the memory it points to has been freed. -/
structure HTItem (K : Type) where
  data : UInt64
  key : Option K
  deriving DecidableEq

/-- `SparseBin`; `cOccupied` is the length of `binSparse`. -/
structure SparseBin (K : Type) where
  binSparse : List (HTItem K)
  bmOccupied : UInt64
  deriving DecidableEq

/-- An `HTItem *` into an array: the group and the offset there. -/
structure ItemPtr where
  posGroup : Nat
  posOffset : Nat
  deriving DecidableEq

/-- `DIV_NUM_ENTRIES`, and `location >> LOG_LOW_BIN_SIZE`. -/
def divNumEntries (i : UInt64) : Nat := (i >>> 6).toNat

/-- `MOD_NUM_ENTRIES`, and `MOD2(location, LOG_LOW_BIN_SIZE)`. -/
def modNumEntries (i : UInt64) : UInt64 := i &&& 63

/-- `TEST_BITMAP`. -/
def testBitmap (bm i : UInt64) : Bool := (bm &&& 1 <<< i) ≠ 0

/-- `SET_BITMAP`. -/
def setBitmap (bm i : UInt64) : UInt64 := bm ||| 1 <<< i

/-- How many bits are set in one char. -/
def rgcBits : List Nat :=
  [0, 1, 1, 2, 1, 2, 2, 3, 1, 2, 2, 3, 2, 3, 3, 4,
   1, 2, 2, 3, 2, 3, 3, 4, 2, 3, 3, 4, 3, 4, 4, 5,
   1, 2, 2, 3, 2, 3, 3, 4, 2, 3, 3, 4, 3, 4, 4, 5,
   2, 3, 3, 4, 3, 4, 4, 5, 3, 4, 4, 5, 4, 5, 5, 6,
   1, 2, 2, 3, 2, 3, 3, 4, 2, 3, 3, 4, 3, 4, 4, 5,
   2, 3, 3, 4, 3, 4, 4, 5, 3, 4, 4, 5, 4, 5, 5, 6,
   2, 3, 3, 4, 3, 4, 4, 5, 3, 4, 4, 5, 4, 5, 5, 6,
   3, 4, 4, 5, 4, 5, 5, 6, 4, 5, 5, 6, 5, 6, 6, 7,
   1, 2, 2, 3, 2, 3, 3, 4, 2, 3, 3, 4, 3, 4, 4, 5,
   2, 3, 3, 4, 3, 4, 4, 5, 3, 4, 4, 5, 4, 5, 5, 6,
   2, 3, 3, 4, 3, 4, 4, 5, 3, 4, 4, 5, 4, 5, 5, 6,
   3, 4, 4, 5, 4, 5, 5, 6, 4, 5, 5, 6, 5, 6, 6, 7,
   2, 3, 3, 4, 3, 4, 4, 5, 3, 4, 4, 5, 4, 5, 5, 6,
   3, 4, 4, 5, 4, 5, 5, 6, 4, 5, 5, 6, 5, 6, 6, 7,
   3, 4, 4, 5, 4, 5, 5, 6, 4, 5, 5, 6, 5, 6, 6, 7,
   4, 5, 5, 6, 5, 6, 6, 7, 5, 6, 6, 7, 6, 7, 7, 8]

/-- `rgcBits[(*bm >> s) & mask]`. -/
def bitsOf (bm s mask : UInt64) : Nat := rgcBits.getD ((bm >>> s) &&& mask).toNat 0

/-- `EntriesUpto` of one word (`libchash.c:380-470`): the whole bytes before bit `i`, and what is
    below it in the last. -/
def entriesUpto (bm : UInt64) (i : Nat) : Nat :=
  if i = 0 then 0
  else
    let last := (i - 1) / 8
    ((List.range last).map fun k => bitsOf bm (UInt64.ofNat (8 * k)) 255).sum +
      bitsOf bm (UInt64.ofNat (8 * last)) (1 <<< UInt64.ofNat (i - 8 * last) - 1)

/-! ## The array -/

section Array

variable {K : Type}

/-- `SPARSE_GROUPS`. -/
def sparseGroups (cBuckets : UInt64) : UInt64 := ((cBuckets - 1) >>> 6) + 1

/-- `SparseAllocate` (`libchash.c:487-493`): the number of buckets and the array. The number of
    groups is stored in an `int`, and shifted as one. -/
def sparseAllocate (K : Type) (cBuckets : UInt64) : Option (UInt64 × List (SparseBin K)) :=
  let cGroups := (sparseGroups cBuckets).toUInt32
  if cGroups.toNat < 2 ^ 25 then
    some (cGroups.toUInt64 <<< 6, List.replicate cGroups.toNat ⟨[], 0⟩)
  else none

variable (binSparse : List (SparseBin K)) (location : UInt64)

/-- `SparseIsEmpty` (`libchash.c:514-518`). -/
def sparseIsEmpty : Option Bool := do
  let bin ← binSparse[divNumEntries location]?
  some (!testBitmap bin.bmOccupied (modNumEntries location))

/-- `SparseFind` (`libchash.c:520-525`). -/
def sparseFind : Option (Option ItemPtr) := do
  let bin ← binSparse[divNumEntries location]?
  let empty ← sparseIsEmpty binSparse location
  if empty then some none
  else some (some ⟨divNumEntries location,
    entriesUpto bin.bmOccupied (modNumEntries location).toNat⟩)

/-- `*bck`. -/
def deref (bck : ItemPtr) : Option (HTItem K) := do
  let bin ← binSparse[bck.posGroup]?
  bin.binSparse[bck.posOffset]?

/-- `*bck = item`. -/
def store (bck : ItemPtr) (item : HTItem K) : Option (List (SparseBin K)) := do
  let bin ← binSparse[bck.posGroup]?
  if bck.posOffset < bin.binSparse.length then
    some (binSparse.set bck.posGroup
      { bin with binSparse := bin.binSparse.set bck.posOffset item })
  else none

/-- `SparseInsert` (`libchash.c:536-565`): the bucket, `*pfOverwrite` and the array after it. -/
def sparseInsert (bckInsert : HTItem K) (fOverwrite : Bool) :
    Option (ItemPtr × Bool × List (SparseBin K)) := do
  match ← sparseFind binSparse location with
  | some bckPlace =>
    -- means we replace old contents
    let binSparse ← if fOverwrite then store binSparse bckPlace bckInsert else some binSparse
    some (bckPlace, true, binSparse)
  | none =>
    let group := divNumEntries location
    let bin ← binSparse[group]?
    let offset := entriesUpto bin.bmOccupied (modNumEntries location).toNat
    if offset ≤ bin.binSparse.length then
      some (⟨group, offset⟩, false, binSparse.set group
        ⟨bin.binSparse.insertIdx offset bckInsert,
          setBitmap bin.bmOccupied (modNumEntries location)⟩)
    else none

/-- The loop of `SparseNextBucket`, with the groups that are left. -/
def nextGroup : Nat → List (SparseBin K) → Option ItemPtr
  | _, [] => none
  | g, bin :: rest => if bin.binSparse.length > 0 then some ⟨g, 0⟩ else nextGroup (g + 1) rest

/-- `SparseNextBucket` (`libchash.c:575-587`). The iterator is the bucket it returned last, and none
    when `SparseFirstBucket` calls. -/
def sparseNextBucket : Option ItemPtr → Option (Option ItemPtr)
  | none => some (nextGroup 0 binSparse)
  | some iter => do
    let bin ← binSparse[iter.posGroup]?
    if iter.posOffset + 1 < bin.binSparse.length then
      some (some ⟨iter.posGroup, iter.posOffset + 1⟩)
    else some (nextGroup (iter.posGroup + 1) (binSparse.drop (iter.posGroup + 1)))

end Array

section Bits

variable {bm i location : UInt64}

theorem divNumEntries_eq : divNumEntries location = location.toNat / 64 := by
  rw [divNumEntries, UInt64.toNat_shiftRight]
  exact Nat.shiftRight_eq_div_pow _ 6

theorem toNat_modNumEntries : (modNumEntries location).toNat = location.toNat % 64 := by
  rw [modNumEntries, UInt64.toNat_and]
  exact Nat.and_two_pow_sub_one_eq_mod _ 6

theorem toNat_one_shiftLeft (inside : i.toNat < 64) : (1 <<< i : UInt64).toNat = 2 ^ i.toNat := by
  rw [UInt64.toNat_shiftLeft, Nat.mod_eq_of_lt inside]
  change 1 <<< i.toNat % 2 ^ 64 = _
  rw [Nat.one_shiftLeft, Nat.mod_eq_of_lt (Nat.pow_lt_pow_right (by omega) inside)]

theorem testBitmap_eq (inside : i.toNat < 64) :
    testBitmap bm i = bm.toNat.testBit i.toNat := by
  have word : (bm &&& 1 <<< i).toNat = (bm.toNat.testBit i.toNat).toNat * 2 ^ i.toNat := by
    rw [UInt64.toNat_and, toNat_one_shiftLeft inside, Nat.and_two_pow]
  have zero : testBitmap bm i = decide ((bm &&& 1 <<< i).toNat ≠ 0) := by
    simp [testBitmap, ← UInt64.toNat_inj]
  rw [zero, word]
  cases bm.toNat.testBit i.toNat with
  | false => simp
  | true => simp

theorem testBit_setBitmap (inside : i.toNat < 64) (j : Nat) :
    (setBitmap bm i).toNat.testBit j = (bm.toNat.testBit j || decide (i.toNat = j)) := by
  rw [setBitmap, UInt64.toNat_or, Nat.testBit_or, toNat_one_shiftLeft inside,
    Nat.testBit_two_pow]

theorem rgcBits_eq : ∀ byte < 256, rgcBits.getD byte 0 = bitRank byte 8 := by
  decide +kernel

/-- One look at the table counts up to 8 bits. -/
theorem bitsOf_eq {s r : Nat} (inside : s < 64) (byte : r ≤ 8) {mask : UInt64}
    (covers : mask.toNat = 2 ^ r - 1) :
    bitsOf bm (UInt64.ofNat s) mask = bitRank (bm.toNat >>> s) r := by
  have index : ((bm >>> UInt64.ofNat s) &&& mask).toNat = (bm.toNat >>> s) &&& (2 ^ r - 1) := by
    rw [UInt64.toNat_and, covers, UInt64.toNat_shiftRight, UInt64.toNat_ofNat',
      Nat.mod_eq_of_lt (a := s) (by omega), Nat.mod_eq_of_lt inside]
  have small : (bm.toNat >>> s) &&& (2 ^ r - 1) < 256 := by
    have mask : 2 ^ r ≤ 2 ^ 8 := Nat.pow_le_pow_right (by omega) byte
    have := @Nat.and_le_right (bm.toNat >>> s) (2 ^ r - 1)
    have := Nat.two_pow_pos r
    omega
  rw [bitsOf, index, rgcBits_eq _ small, bitRank_and_mask byte]

theorem sum_bytes (bm : UInt64) {n : Nat} (inside : n ≤ 8) :
    ((List.range n).map fun k => bitsOf bm (UInt64.ofNat (8 * k)) 255).sum =
      bitRank bm.toNat (8 * n) := by
  induction n with
  | zero => rfl
  | succ n ih =>
    rw [List.range_succ, List.map_append, List.sum_append, ih (by omega), Nat.mul_succ,
      bitRank_add]
    congr 1
    change bitsOf bm (UInt64.ofNat (8 * n)) 255 + 0 = _
    rw [Nat.add_zero]
    exact bitsOf_eq (by omega) (Nat.le_refl 8) rfl

/-- `EntriesUpto` counts the bits before bit `i`. -/
theorem entriesUpto_eq (bm : UInt64) {i : Nat} (inside : i ≤ 64) :
    entriesUpto bm i = bitRank bm.toNat i := by
  unfold entriesUpto
  split
  · rename_i zero
    rw [zero]
    rfl
  · generalize last : (i - 1) / 8 = k
    obtain ⟨r, rfl⟩ : ∃ r, i = 8 * k + r := ⟨i - 8 * k, by omega⟩
    have amount : (UInt64.ofNat (8 * k + r - 8 * k)).toNat = r := by
      rw [UInt64.toNat_ofNat', Nat.add_sub_cancel_left, Nat.mod_eq_of_lt (by omega)]
    have power := toNat_one_shiftLeft (i := UInt64.ofNat (8 * k + r - 8 * k)) (by omega)
    rw [amount] at power
    have covers : (1 <<< UInt64.ofNat (8 * k + r - 8 * k) - 1 : UInt64).toNat = 2 ^ r - 1 := by
      have pos : (1 : UInt64) ≤ (1 : UInt64) <<< UInt64.ofNat (8 * k + r - 8 * k) := by
        rw [UInt64.le_iff_toNat_le, power]
        exact Nat.two_pow_pos r
      rw [UInt64.toNat_sub_of_le _ _ pos, power]
      rfl
    rw [bitRank_add, ← sum_bytes bm (by omega), ← bitsOf_eq (by omega) (by omega) covers]

end Bits

/-! ## What an array stands for -/

section StandsFor

variable {K : Type}

/-- The buckets of one group. -/
def group (c : Nat → Option (HTItem K)) (g p : Nat) : Option (HTItem K) := c (64 * g + p)

/-- Each group keeps its items, and has a bit for each. -/
structure StandsFor (binSparse : List (SparseBin K)) (c : Nat → Option (HTItem K)) : Prop where
  items {g : Nat} {bin : SparseBin K} : binSparse[g]? = some bin →
    bin.binSparse = compact (group c g) 64
  bits {g p : Nat} {bin : SparseBin K} : binSparse[g]? = some bin → p < 64 →
    bin.bmOccupied.toNat.testBit p = (group c g p).isSome

/-- Where the item of a bucket is kept. -/
def ptrOf (c : Nat → Option (HTItem K)) (i : Nat) : ItemPtr :=
  ⟨i / 64, rank (group c (i / 64)) (i % 64)⟩

variable {binSparse : List (SparseBin K)} {c : Nat → Option (HTItem K)} {location : UInt64}
  {bin : SparseBin K} {g p i j : Nat} {item item' : HTItem K}

@[simp] theorem group_div_mod (c : Nat → Option (HTItem K)) (i : Nat) :
    group c (i / 64) (i % 64) = c i :=
  congrArg c (Nat.div_add_mod i 64)

theorem group_update (x : Option (HTItem K)) :
    group (Function.update c i x) (i / 64) = Function.update (group c (i / 64)) (i % 64) x := by
  funext p
  unfold group
  by_cases same : p = i % 64
  · rw [same, Nat.div_add_mod, Function.update_self, Function.update_self]
  · rw [Function.update_of_ne same, Function.update_of_ne (by omega)]

theorem group_update_ne (x : Option (HTItem K)) (ne : g ≠ i / 64) (inside : p < 64) :
    group (Function.update c i x) g p = group c g p :=
  Function.update_of_ne (by omega) ..

theorem ptrOf_update (x : Option (HTItem K)) : ptrOf (Function.update c i x) i = ptrOf c i := by
  rw [ptrOf, ptrOf, group_update, rank_update]

theorem ptrOf_inj (here : (c i).isSome) (there : (c j).isSome) (same : ptrOf c i = ptrOf c j) :
    i = j := by
  obtain ⟨groups, offsets⟩ := ItemPtr.mk.inj same
  rw [← group_div_mod c i] at here
  rw [← group_div_mod c j, ← groups] at there
  rw [← groups] at offsets
  have := rank_inj here there offsets
  omega

theorem exists_bin (inside : i < 64 * binSparse.length) :
    ∃ bin, binSparse[i / 64]? = some bin :=
  ⟨_, List.getElem?_eq_getElem (by omega)⟩

theorem standsFor_replicate (n : Nat) :
    StandsFor (List.replicate n ⟨[], 0⟩) fun _ => (none : Option (HTItem K)) := by
  have all : ∀ {g : Nat} {bin : SparseBin K},
      (List.replicate n (⟨[], 0⟩ : SparseBin K))[g]? = some bin → bin = ⟨[], 0⟩ := by
    intro g bin here
    exact List.eq_of_mem_replicate (List.mem_of_getElem? here)
  constructor
  · intro g bin here
    rw [all here]
    symm
    apply List.filterMap_eq_nil_iff.mpr
    intro p _
    rfl
  · intro g p bin here _
    rw [all here]
    exact Nat.zero_testBit p

theorem StandsFor.offset (stands : StandsFor binSparse c) (here : binSparse[g]? = some bin)
    (inside : p ≤ 64) : entriesUpto bin.bmOccupied p = rank (group c g) p := by
  rw [entriesUpto_eq _ inside]
  symm
  apply rank_eq_bitRank
  intro j before
  exact stands.bits here (by omega)

/-- One group is changed. -/
theorem StandsFor.set (stands : StandsFor binSparse c) (bin : SparseBin K)
    (items : bin.binSparse = compact (Function.update (group c (i / 64)) (i % 64) (some item)) 64)
    (bits : ∀ p < 64, bin.bmOccupied.toNat.testBit p =
      (Function.update (group c (i / 64)) (i % 64) (some item) p).isSome) :
    StandsFor (binSparse.set (i / 64) bin) (Function.update c i (some item)) := by
  have cases_set : ∀ {g bin'}, (binSparse.set (i / 64) bin)[g]? = some bin' →
      g = i / 64 ∧ bin' = bin ∨ g ≠ i / 64 ∧ binSparse[g]? = some bin' := by
    intro g bin' here
    by_cases same : i / 64 = g
    · rw [← same, List.getElem?_set_self'] at here
      obtain ⟨_, -, rfl⟩ := Option.map_eq_some_iff.mp here
      exact Or.inl ⟨same.symm, rfl⟩
    · rw [List.getElem?_set_ne same] at here
      exact Or.inr ⟨Ne.symm same, here⟩
  constructor
  · intro g bin' here
    rcases cases_set here with ⟨rfl, rfl⟩ | ⟨apart, here⟩
    · rw [group_update]
      exact items
    · rw [stands.items here]
      apply compact_congr
      intro p inside
      rw [group_update_ne _ apart inside]
  · intro g p bin' here inside
    rcases cases_set here with ⟨rfl, rfl⟩ | ⟨apart, here⟩
    · rw [group_update]
      exact bits p inside
    · rw [group_update_ne _ apart inside]
      exact stands.bits here inside

theorem StandsFor.isEmpty (stands : StandsFor binSparse c)
    (inside : location.toNat < 64 * binSparse.length) :
    sparseIsEmpty binSparse location = some (c location.toNat).isNone := by
  obtain ⟨bin, here⟩ := exists_bin inside
  have low : location.toNat % 64 < 64 := Nat.mod_lt _ (by omega)
  have bit : testBitmap bin.bmOccupied (modNumEntries location) = (c location.toNat).isSome := by
    rw [testBitmap_eq (by rwa [toNat_modNumEntries]), toNat_modNumEntries, stands.bits here low,
      group_div_mod]
  rw [sparseIsEmpty, divNumEntries_eq, here, Option.bind_eq_bind, Option.bind_some, bit,
    Option.not_isSome]

theorem StandsFor.find_none (stands : StandsFor binSparse c)
    (inside : location.toNat < 64 * binSparse.length) (free : c location.toNat = none) :
    sparseFind binSparse location = some none := by
  obtain ⟨bin, here⟩ := exists_bin inside
  simp [sparseFind, divNumEntries_eq, here, stands.isEmpty inside, free]

theorem StandsFor.find_some (stands : StandsFor binSparse c)
    (inside : location.toNat < 64 * binSparse.length) (taken : c location.toNat = some item) :
    sparseFind binSparse location = some (some (ptrOf c location.toNat)) := by
  obtain ⟨bin, here⟩ := exists_bin inside
  have offset := stands.offset (p := location.toNat % 64) here (by omega)
  simp [sparseFind, divNumEntries_eq, toNat_modNumEntries, here, stands.isEmpty inside, taken,
    offset, ptrOf]

theorem StandsFor.deref (stands : StandsFor binSparse c) (inside : i < 64 * binSparse.length)
    (taken : c i = some item) : deref binSparse (ptrOf c i) = some item := by
  obtain ⟨bin, here⟩ := exists_bin inside
  rw [Chash.deref, ptrOf, here, Option.bind_eq_bind, Option.bind_some, stands.items here]
  exact getElem?_compact (Nat.mod_lt i (by omega)) ((group_div_mod c i).trans taken)

theorem StandsFor.store (stands : StandsFor binSparse c) (inside : i < 64 * binSparse.length)
    (taken : c i = some item) (item' : HTItem K) :
    ∃ binSparse', store binSparse (ptrOf c i) item' = some binSparse' ∧
      binSparse'.length = binSparse.length ∧
      StandsFor binSparse' (Function.update c i (some item')) := by
  obtain ⟨bin, here⟩ := exists_bin inside
  have low : i % 64 < 64 := Nat.mod_lt i (by omega)
  have held : (group c (i / 64) (i % 64)).isSome := by
    rw [group_div_mod, taken]
    rfl
  have offset : rank (group c (i / 64)) (i % 64) < bin.binSparse.length := by
    rw [stands.items here, length_compact]
    exact rank_lt_rank low held
  refine ⟨_, ?_, List.length_set, stands.set ⟨_, bin.bmOccupied⟩
    (compact_update_some low held item').symm ?_⟩
  · rw [Chash.store, ptrOf, here, Option.bind_eq_bind, Option.bind_some, if_pos offset,
      stands.items here]
  · intro p inside
    rw [stands.bits here inside]
    by_cases same : p = i % 64
    · rw [same, Function.update_self, held]
      rfl
    · rw [Function.update_of_ne same]

/-- An item is put into a bucket that is free. -/
theorem StandsFor.insert_none (stands : StandsFor binSparse c)
    (inside : location.toNat < 64 * binSparse.length) (free : c location.toNat = none)
    (item : HTItem K) (fOverwrite : Bool) :
    ∃ binSparse', sparseInsert binSparse location item fOverwrite =
        some (ptrOf c location.toNat, false, binSparse') ∧
      binSparse'.length = binSparse.length ∧
      StandsFor binSparse' (Function.update c location.toNat (some item)) := by
  obtain ⟨bin, here⟩ := exists_bin inside
  have low : location.toNat % 64 < 64 := Nat.mod_lt _ (by omega)
  have empty : group c (location.toNat / 64) (location.toNat % 64) = none := by
    rw [group_div_mod, free]
  have offset := stands.offset (p := location.toNat % 64) here (by omega)
  have fits : rank (group c (location.toNat / 64)) (location.toNat % 64) ≤
      bin.binSparse.length := by
    rw [stands.items here, length_compact]
    exact Nat.count_monotone _ (Nat.le_of_lt low)
  refine ⟨_, ?_, List.length_set, stands.set ⟨bin.binSparse.insertIdx
    (rank (group c (location.toNat / 64)) (location.toNat % 64)) item,
    setBitmap bin.bmOccupied (modNumEntries location)⟩ ?_ ?_⟩
  · simp [sparseInsert, stands.find_none inside free, divNumEntries_eq, toNat_modNumEntries, here,
      offset, fits, ptrOf]
  · rw [compact_update_none low empty, stands.items here]
  · intro p inside
    rw [testBit_setBitmap (by rwa [toNat_modNumEntries]), toNat_modNumEntries,
      stands.bits here inside]
    by_cases same : location.toNat % 64 = p
    · rw [← same, Function.update_self, decide_eq_true rfl, Bool.or_true]
      rfl
    · rw [Function.update_of_ne (Ne.symm same), decide_eq_false same, Bool.or_false]

/-- A bucket that is taken keeps its item, unless it may be overwritten. -/
theorem StandsFor.insert_some (stands : StandsFor binSparse c)
    (inside : location.toNat < 64 * binSparse.length) (taken : c location.toNat = some item)
    (item' : HTItem K) (fOverwrite : Bool) :
    ∃ binSparse', sparseInsert binSparse location item' fOverwrite =
        some (ptrOf c location.toNat, true, binSparse') ∧
      binSparse'.length = binSparse.length ∧
      StandsFor binSparse' (Function.update c location.toNat
        (some (if fOverwrite then item' else item))) := by
  cases fOverwrite with
  | true =>
    obtain ⟨binSparse', stored, same, after⟩ := stands.store inside taken item'
    refine ⟨binSparse', ?_, same, after⟩
    simp [sparseInsert, stands.find_some inside taken, stored]
  | false =>
    refine ⟨binSparse, ?_, rfl, ?_⟩
    · simp [sparseInsert, stands.find_some inside taken]
    · have same : Function.update c location.toNat (some item) = c :=
        taken ▸ Function.update_eq_self _ c
      exact same.symm ▸ stands

/-- The items from group `g` on. -/
def itemsFrom : Nat → List (SparseBin K) → List ItemPtr
  | _, [] => []
  | g, bin :: rest =>
    (List.range bin.binSparse.length).map (ItemPtr.mk g) ++ itemsFrom (g + 1) rest

theorem drop_succ {rest : List (SparseBin K)} (left : binSparse.drop g = bin :: rest) :
    binSparse[g]? = some bin ∧ binSparse.drop (g + 1) = rest := by
  constructor
  · rw [← List.head?_drop, left]
    rfl
  · rw [← List.tail_drop, left]
    rfl

/-- Within a group the iterator goes from offset to offset, and then to the groups behind. -/
theorem visits_group (here : binSparse[g]? = some bin) {l : List ItemPtr}
    (behind : ∀ cur, sparseNextBucket binSparse cur =
        some (nextGroup (g + 1) (binSparse.drop (g + 1))) →
      Walk.Visits (sparseNextBucket binSparse) cur l) (n : Nat) {o : Nat}
    (size : bin.binSparse.length = o + 1 + n) :
    Walk.Visits (sparseNextBucket binSparse) (some ⟨g, o⟩)
      ((List.range' (o + 1) n).map (ItemPtr.mk g) ++ l) := by
  induction n generalizing o with
  | zero =>
    apply behind
    simp [sparseNextBucket, here, size]
  | succ n ih =>
    constructor
    · simp [sparseNextBucket, here, size]
    · exact ih (by omega)

theorem visits_itemsFrom (rest : List (SparseBin K)) {g : Nat} {cur : Option ItemPtr}
    (left : binSparse.drop g = rest)
    (next : sparseNextBucket binSparse cur = some (nextGroup g rest)) :
    Walk.Visits (sparseNextBucket binSparse) cur (itemsFrom g rest) := by
  induction rest generalizing g cur with
  | nil => exact next
  | cons bin rest ih =>
    obtain ⟨here, left⟩ := drop_succ left
    have behind : ∀ cur, sparseNextBucket binSparse cur =
        some (nextGroup (g + 1) (binSparse.drop (g + 1))) →
        Walk.Visits (sparseNextBucket binSparse) cur (itemsFrom (g + 1) rest) :=
      fun cur next => ih left (left ▸ next)
    cases size : bin.binSparse.length with
    | zero =>
      rw [nextGroup, if_neg (by omega), ← left] at next
      rw [itemsFrom, size]
      exact behind cur next
    | succ n =>
      rw [nextGroup, if_pos (by omega)] at next
      rw [itemsFrom, size, List.range_eq_range']
      exact ⟨next, visits_group here behind n (by omega)⟩

theorem StandsFor.itemsFrom (stands : StandsFor binSparse c) (rest : List (SparseBin K))
    {g : Nat} (left : binSparse.drop g = rest) :
    itemsFrom g rest =
      (taken (fun i => c (64 * g + i)) (64 * rest.length)).map fun i => ptrOf c (64 * g + i) := by
  induction rest generalizing g with
  | nil => rfl
  | cons bin rest ih =>
    obtain ⟨here, left⟩ := drop_succ left
    have first : (taken (group c g) 64).map (fun i => ptrOf c (64 * g + i)) =
        (List.range bin.binSparse.length).map (ItemPtr.mk g) := by
      rw [stands.items here, length_compact, ← map_rank_taken, List.map_map]
      apply List.map_congr_left
      intro p member
      have inside := (mem_taken.mp member).1
      have quotient : (64 * g + p) / 64 = g := by omega
      have remainder : (64 * g + p) % 64 = p := by omega
      rw [ptrOf, quotient, remainder]
      rfl
    have size : 64 * (bin :: rest).length = 64 + 64 * rest.length := by
      rw [List.length_cons]
      omega
    have shift : ∀ i, 64 * g + (64 + i) = 64 * (g + 1) + i := fun i => by omega
    rw [Chash.itemsFrom, ih left, size, taken_add, List.map_append, List.map_map]
    simp only [Function.comp_def, shift]
    exact congrArg (· ++ _) first.symm

/-- The iterator gives the items of the taken buckets, in order. -/
theorem StandsFor.visits (stands : StandsFor binSparse c) :
    Walk.Visits (sparseNextBucket binSparse) none
      ((taken c (64 * binSparse.length)).map (ptrOf c)) := by
  have all := stands.itemsFrom (g := 0) binSparse rfl
  simp only [Nat.mul_zero, Nat.zero_add] at all
  exact all ▸ visits_itemsFrom binSparse rfl rfl

end StandsFor

end Bzing.Chash
