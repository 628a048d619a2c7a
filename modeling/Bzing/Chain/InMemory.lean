import Bzing.Chain.Served
import Bzing.Index.Builtin
import Bzing.Spent.MarkRun

/-!
# Indexing a chain in memory

`bzing_index_regen` with the tables of KHASH and ALIGN themselves. While the hashes of the file
are not too many for the table, no call is refused, so the index serves them and what holds of a
finite map holds of it (`regenKhash_iff`, `regenAlign_of_few`). A khash table has no room for more
than `2 ^ 31` hashes.
-/

namespace Bzing

open Handler HashTable Tables OpenTable
open IndexedInvEngine (held)

section Table

variable {K : Type} [DecidableEq K] {p : HashParams K} {law : p.Lawful}
  (rule : PutRule BzInv p law) (unwritten : BzInv) (key : BzUint256 → K) (names : List BzUint256)

/-- The index as the contracts see it. -/
abbrev SlotsOf : Type :=
  SlotIndex ((rule.table unwritten).complete unwritten).toSlotTable key

/-- The table, with nothing refused. -/
def slotsOf (t : WorkingTable BzInv p law) : SlotsOf rule unwritten key := ⟨(t, [])⟩

/-- The index has a table that holds the entries of the named hashes, and no others. -/
def Stands (index : TableIndex rule.put unwritten key) (ideal : IdealIndex) : Prop :=
  ∃ t : WorkingTable BzInv p law, index.inv = some t.1 ∧
    HeldAs (· ∈ names) (slotsOf rule unwritten key t) ideal

/-- The table is ready for the named hashes as long as it holds no others. -/
def ReadyFor : Prop :=
  ∀ t : WorkingTable BzInv p law, (∀ k, (bucket p t.1 k).isSome → k ∈ names.map key) →
    ∀ h ∈ names, rule.ready t.1 (key h) = true

end Table

section Serves

variable {K : Type} [DecidableEq K] {p : HashParams K} {law : p.Lawful}
  {rule : PutRule BzInv p law} {unwritten : BzInv} {key : BzUint256 → K} {names : List BzUint256}

omit [DecidableEq K] in
theorem WorkingTable.setVal_inside {t : WorkingTable BzInv p law} {x : UInt32}
    (inside : x.toNat < t.1.nBuckets.toNat) (v : BzInv) :
    HashTable.setVal t.1 x v = some (t.setVal x v).1 := by
  obtain ⟨b, working, -⟩ := t.2
  rcases WorkingTable.setVal_cases working x v with ⟨-, t', set, -⟩ | ⟨outside, -⟩
  · have written : (t.setVal x v).1 = t' := congrArg (·.getD t.1) set
    rw [written, set]
  · exact absurd inside outside

omit [DecidableEq K] in
theorem WorkingTable.val_inside {t : WorkingTable BzInv p law} {x : UInt32}
    (inside : x.toNat < t.1.nBuckets.toNat) (unwritten : BzInv) :
    val unwritten t.1 x = some ((val unwritten t.1 x).getD unwritten) := by
  obtain ⟨b, working, -⟩ := t.2
  obtain ⟨v, here⟩ : ∃ v, t.1.vals[x.toNat]? = some v := by
    rw [← Option.isSome_iff_exists, isSome_getElem?, working.arrayed.valsLen]
    exact inside
  rw [val, here]
  rfl

/-- The table holds keys of named hashes only. -/
theorem keys_of_heldAs {t : WorkingTable BzInv p law} {ideal : IdealIndex}
    (heldAs : HeldAs (· ∈ names) (slotsOf rule unwritten key t) ideal) (k : K)
    (stands : (bucket p t.1 k).isSome) : k ∈ names.map key := by
  obtain ⟨x, here⟩ := Option.isSome_iff_exists.mp stands
  have stored : held (slotsOf rule unwritten key t) k = some _ :=
    @LimitedTable.complete_find _ _ _ (rule.table unwritten) unwritten _ (t, []) _ here
  obtain ⟨h, named, same⟩ := heldAs.named (Option.isSome_of_eq_some stored)
  exact List.mem_map.mpr ⟨h, named, same⟩

/-- A table that is asked for a named hash is ready for it. -/
theorem ready_of_heldAs (readyFor : ReadyFor rule key names) {t : WorkingTable BzInv p law}
    {ideal : IdealIndex} (heldAs : HeldAs (· ∈ names) (slotsOf rule unwritten key t) ideal)
    {hash : BzUint256} (named : hash ∈ names) : rule.ready t.1 (key hash) = true :=
  readyFor t (keys_of_heldAs heldAs) hash named

variable {index : TableIndex rule.put unwritten key} {t : WorkingTable BzInv p law}
  {hash : BzUint256} (ready : rule.ready t.1 (key hash) = true) (here : index.inv = some t.1)
include ready

omit [DecidableEq K] in
theorem inside_of_ready :
    (rule.insert t (key hash)).1.toNat < (rule.insert t (key hash)).2.1.nBuckets.toNat := by
  obtain ⟨b, b', -, placed⟩ := rule.placed_insert t ready
  exact placed.inside

theorem slots_insert (unwritten : BzInv) :
    ((rule.table unwritten).complete unwritten).toSlotTable.insert (t, []) (key hash) =
      (.inl (rule.insert t (key hash)).1, ((rule.insert t (key hash)).2, [])) :=
  LimitedTable.complete_insert ready

include here

/-- Both write the entry into the bucket of the hash. -/
theorem set_ready (data : BzInv) : ∃ t' : WorkingTable BzInv p law,
    InvEngine.bzingInvSet index hash data = ⟨some t'.1⟩ ∧
      InvEngine.bzingInvSet (slotsOf rule unwritten key t) hash data =
        slotsOf rule unwritten key t' := by
  refine ⟨(rule.insert t (key hash)).2.setVal (rule.insert t (key hash)).1 data, ?_, ?_⟩
  · exact TableIndex.set_of here (rule.put_eq_insert t (key hash))
      (WorkingTable.setVal_inside (inside_of_ready ready) data)
  · have slot := slots_insert ready unwritten
    simp only [InvEngine.bzingInvSet, slotsOf, slot]
    rfl

/-- Both read what stands in the bucket of the hash. -/
theorem get_ready : ∃ (data : BzInv) (t' : WorkingTable BzInv p law),
    InvEngine.bzingInvGet index hash = (some data, ⟨some t'.1⟩) ∧
      InvEngine.bzingInvGet (slotsOf rule unwritten key t) hash =
        (some data, slotsOf rule unwritten key t') := by
  refine ⟨(val unwritten (rule.insert t (key hash)).2.1 (rule.insert t (key hash)).1).getD
    unwritten, (rule.insert t (key hash)).2, ?_, ?_⟩
  · exact TableIndex.get_of here (rule.put_eq_insert t (key hash))
      (WorkingTable.val_inside (inside_of_ready ready) unwritten)
  · have slot := slots_insert ready unwritten
    simp only [InvEngine.bzingInvGet, slotsOf, slot]
    rfl

/-- Both have a cursor to the bucket of the hash. -/
theorem cursor_ready : ∃ (data : BzInv) (t' : WorkingTable BzInv p law),
    (InvEngine.bzingInvCursorFind index hash).2 = ⟨some t'.1⟩ ∧
    (InvEngine.bzingInvCursorFind (slotsOf rule unwritten key t) hash).2 =
      slotsOf rule unwritten key t' ∧
    InvEngine.bzingInvCursorGet (InvEngine.bzingInvCursorFind index hash).2
      (InvEngine.bzingInvCursorFind index hash).1 = some data ∧
    InvEngine.bzingInvCursorGet (slotsOf rule unwritten key t')
      (InvEngine.bzingInvCursorFind (slotsOf rule unwritten key t) hash).1 = some data ∧
    ∀ data, ∃ t'' : WorkingTable BzInv p law,
      InvEngine.bzingInvCursorSet (InvEngine.bzingInvCursorFind index hash).2
        (InvEngine.bzingInvCursorFind index hash).1 data = ⟨some t''.1⟩ ∧
      InvEngine.bzingInvCursorSet (slotsOf rule unwritten key t')
        (InvEngine.bzingInvCursorFind (slotsOf rule unwritten key t) hash).1 data =
          slotsOf rule unwritten key t'' := by
  have inside := inside_of_ready ready
  have real := TableIndex.cursorFind_of here (rule.put_eq_insert t (key hash))
  have slots : InvEngine.bzingInvCursorFind (slotsOf rule unwritten key t) hash =
      (.inl (rule.insert t (key hash)).1,
        slotsOf rule unwritten key (rule.insert t (key hash)).2) := by
    have slot := slots_insert ready unwritten
    simp only [InvEngine.bzingInvCursorFind, slotsOf, slot]
    rfl
  rw [real, slots]
  refine ⟨(val unwritten (rule.insert t (key hash)).2.1 (rule.insert t (key hash)).1).getD
    unwritten, (rule.insert t (key hash)).2, rfl, rfl, ?_, rfl, ?_⟩
  · exact TableIndex.cursorGet_of rfl (WorkingTable.val_inside inside unwritten)
  · intro data
    refine ⟨(rule.insert t (key hash)).2.setVal (rule.insert t (key hash)).1 data, ?_, rfl⟩
    exact TableIndex.cursorSet_of rfl (WorkingTable.setVal_inside inside data)

end Serves

/-- An index with a table serves hashes the table is ready for. -/
theorem serves_table {K : Type} [DecidableEq K] {p : HashParams K} {law : p.Lawful}
    {rule : PutRule BzInv p law} {unwritten : BzInv} {key : BzUint256 → K}
    {names : List BzUint256} (readyFor : ReadyFor rule key names)
    (apart : ∀ {h h'}, h ∈ names → h' ∈ names → key h = key h' → h = h') :
    Serves (· ∈ names) (Stands rule unwritten key names) := by
  have serves : Serves (· ∈ names) (HeldAs (ι := SlotsOf rule unwritten key) (· ∈ names)) :=
    serves_held apart
  constructor
  · rintro index ideal hash data named ⟨t, here, heldAs⟩
    have kept := serves.set data named heldAs
    obtain ⟨t', written, slots⟩ := set_ready (ready_of_heldAs readyFor heldAs named) here data
    rw [slots] at kept
    exact ⟨t', congrArg TableIndex.inv written, kept⟩
  · rintro index ideal hash data named ⟨t, here, heldAs⟩ stored
    obtain ⟨found, kept⟩ := serves.get named heldAs stored
    obtain ⟨data', t', read, slots⟩ := get_ready (ready_of_heldAs readyFor heldAs named) here
    rw [slots] at found kept
    rw [read]
    exact ⟨found, t', rfl, kept⟩
  · rintro index ideal hash data - named ⟨t, here, heldAs⟩ stored
    obtain ⟨found, kept, written⟩ := serves.cursor rfl named heldAs stored
    obtain ⟨data', t', real, slots, read, read', writes⟩ :=
      cursor_ready (ready_of_heldAs readyFor heldAs named) here
    rw [slots] at found kept written
    rw [read'] at found
    rw [read, real]
    refine ⟨found, ⟨t', rfl, kept⟩, ?_⟩
    intro data
    obtain ⟨t'', real', slots'⟩ := writes data
    have kept' := written data
    rw [slots'] at kept'
    rw [real] at real'
    exact ⟨t'', congrArg TableIndex.inv real', kept'⟩

/-- Setting one more hash, which the table need not have been ready for before. -/
theorem stands_set {K : Type} [DecidableEq K] {p : HashParams K} {law : p.Lawful}
    {rule : PutRule BzInv p law} {unwritten : BzInv} {key : BzUint256 → K}
    {names : List BzUint256} {hash : BzUint256} (data : BzInv)
    (ready : ∀ t : WorkingTable BzInv p law,
      (∀ k, (bucket p t.1 k).isSome → k ∈ names.map key) → rule.ready t.1 (key hash) = true)
    (apart : ∀ {h}, h ∈ names → key h = key hash → h = hash)
    {index : TableIndex rule.put unwritten key} {ideal : IdealIndex}
    (stands : Stands rule unwritten key names index ideal) :
    Stands rule unwritten key (names ++ [hash]) (InvEngine.bzingInvSet index hash data)
      (ideal.insert hash data) := by
  obtain ⟨t, here, heldAs⟩ := stands
  obtain ⟨t', written, slots⟩ := set_ready (ready t (keys_of_heldAs heldAs)) here data
  have kept := heldAs.write_new apart
    (IndexedInvEngine.held_set_same (slotsOf rule unwritten key t) hash data)
    fun k ne => IndexedInvEngine.held_set_ne (slotsOf rule unwritten key t) hash data ne
  have all : (· ∈ names ++ [hash]) = fun h => h = hash ∨ h ∈ names := by
    funext h
    rw [List.mem_append, List.mem_singleton, or_comm]
  rw [slots, ← all] at kept
  exact ⟨t', congrArg TableIndex.inv written, kept⟩

/-! ## What the table holds -/

section Find

variable {K : Type} {put : HashTable K BzInv → K → Option (UInt32 × HashTable K BzInv)}
  {unwritten : BzInv} {key : BzUint256 → K}

/-- `kh_get` and `kh_val` for a hash. -/
def TableIndex.find (p : HashParams K) (index : TableIndex put unwritten key) (hash : BzUint256) :
    Option BzInv := do
  let t ← index.inv
  let x ← bucket p t (key hash)
  val unwritten t x

/-- The index has no table, or one that works with at most `most` buckets used up. -/
def TableWorks {p : HashParams K} (law : p.Lawful) (most : Nat)
    (index : TableIndex put unwritten key) : Prop :=
  ∀ t, index.inv = some t → ∃ b, Working p law t b ∧ t.nOccupied.toNat ≤ most

variable {p : HashParams K} {law : p.Lawful} {most : Nat}

theorem setVal_keeps {t t' : HashTable K BzInv} {b : Nat → Bucket K (Option BzInv)} {x : UInt32}
    {data : BzInv} (working : Working p law t b) (few : t.nOccupied.toNat ≤ most)
    (written : setVal t x data = some t') :
    ∃ b, Working p law t' b ∧ t'.nOccupied.toNat ≤ most := by
  rcases WorkingTable.setVal_cases working x data with ⟨-, t1, set, working', -, -, used, -⟩ | ⟨-, none⟩
  · rw [set] at written
    cases written
    exact ⟨_, working', used ▸ few⟩
  · rw [none] at written
    cases written

/-- What putting a key keeps, every call keeps. -/
theorem tableWorks_kept
    (keeps : ∀ {t t' : HashTable K BzInv} {b : Nat → Bucket K (Option BzInv)} {k : K} {x : UInt32},
      Working p law t b → t.nOccupied.toNat ≤ most → put t k = some (x, t') →
        ∃ b, Working p law t' b ∧ t'.nOccupied.toNat ≤ most) :
    KeptBy (TableWorks law most : TableIndex put unwritten key → Prop) := by
  constructor
  · intro index hash data works t'' after
    obtain ⟨t, here, rest⟩ := Option.bind_eq_some_iff.mp after
    obtain ⟨⟨x, t'⟩, call, written⟩ := Option.bind_eq_some_iff.mp rest
    obtain ⟨b, working, few⟩ := works t here
    obtain ⟨b', working', few'⟩ := keeps working few call
    exact setVal_keeps working' few' written
  · intro index hash works t'' after
    obtain ⟨⟨data, t1⟩, found, rfl⟩ := Option.map_eq_some_iff.mp after
    obtain ⟨t, here, rest⟩ := Option.bind_eq_some_iff.mp found
    obtain ⟨⟨x, t'⟩, call, read⟩ := Option.bind_eq_some_iff.mp rest
    obtain ⟨w, -, returned⟩ := Option.bind_eq_some_iff.mp read
    cases returned
    obtain ⟨b, working, few⟩ := works t here
    exact keeps working few call
  · intro index hash works t'' after
    obtain ⟨⟨x, t1⟩, found, rfl⟩ := Option.map_eq_some_iff.mp after
    obtain ⟨t, here, call⟩ := Option.bind_eq_some_iff.mp found
    obtain ⟨b, working, few⟩ := works t here
    exact keeps working few call
  · intro index cursor data works t' after
    obtain ⟨t, here, written⟩ := Option.bind_eq_some_iff.mp after
    obtain ⟨b, working, few⟩ := works t here
    exact setVal_keeps working few written

/-- There are no more hashes with an entry of their own than buckets used up. -/
theorem length_le_of_find {index : TableIndex put unwritten key} (works : TableWorks law most index)
    {names : List BzUint256} (apart : (names.map key).Nodup)
    (found : ∀ h ∈ names, (index.find p h).isSome) : names.length ≤ most := by
  classical
  cases here : index.inv with
  | none =>
    cases names with
    | nil => exact Nat.zero_le _
    | cons h names =>
      have entry := found h List.mem_cons_self
      rw [TableIndex.find, here] at entry
      cases entry
  | some t =>
    obtain ⟨b, working, few⟩ := works t here
    have own := card_le_count_live (n := t.nBuckets.toNat) (b := b) (names.map key).toFinset ?_
    · rw [← working.size, List.toFinset_card_of_nodup apart, List.length_map] at own
      exact own.trans (working.size_le_nOccupied.trans few)
    · intro k member
      obtain ⟨h, named, rfl⟩ := List.mem_map.mp (List.mem_toFinset.mp member)
      obtain ⟨data, entry⟩ := Option.isSome_iff_exists.mp (found h named)
      rw [TableIndex.find, here] at entry
      obtain ⟨_, ⟨⟩, entry⟩ := Option.bind_eq_some_iff.mp entry
      obtain ⟨x, place, -⟩ := Option.bind_eq_some_iff.mp entry
      exact working.isSome_bucket.mp (Option.isSome_of_eq_some place)

end Find

section Stands

variable {K : Type} [DecidableEq K] {p : HashParams K} {law : p.Lawful}
  {rule : PutRule BzInv p law} {unwritten : BzInv} {key : BzUint256 → K} {names : List BzUint256}
  {index : TableIndex rule.put unwritten key} {ideal : IdealIndex}

/-- What is found in the table is what the slots hold. -/
theorem find_eq_held {t : WorkingTable BzInv p law} (here : index.inv = some t.1)
    (hash : BzUint256) : index.find p hash = held (slotsOf rule unwritten key t) (key hash) := by
  rw [TableIndex.find, here, Option.bind_eq_bind, Option.bind_some]
  cases place : bucket p t.1 (key hash) with
  | none =>
    have absent : (rule.table unwritten).bucketIn (t, []) (key hash) = none := by
      rw [← Option.not_isSome_iff_eq_none, LimitedTable.isSome_bucketIn]
      change ¬ ((bucket p t.1 (key hash)).isSome || _) = true
      rw [place]
      exact Bool.false_ne_true
    exact (congrArg (Option.map _) absent).symm
  | some x =>
    obtain ⟨b, working, -⟩ := id t.2
    have inside := (working.bucket_eq_some.mp place).1
    have place : (rule.table unwritten).bucket t (key hash) = some x := place
    exact (WorkingTable.val_inside inside unwritten).trans
      (@LimitedTable.complete_find _ _ _ (rule.table unwritten) unwritten _ (t, []) _ place).symm

theorem find_of_stands (stands : Stands rule unwritten key names index ideal) {hash : BzUint256}
    (named : hash ∈ names) : index.find p hash = ideal.find hash := by
  obtain ⟨t, here, heldAs⟩ := stands
  rw [find_eq_held here]
  exact heldAs.same named

/-- A hash that is found has the key of a named one. -/
theorem named_of_find (stands : Stands rule unwritten key names index ideal) {hash : BzUint256}
    (found : (index.find p hash).isSome) : ∃ h ∈ names, key h = key hash := by
  obtain ⟨t, here, heldAs⟩ := stands
  rw [find_eq_held here] at found
  exact heldAs.named found

/-- The fresh table stands for the empty map. -/
theorem stands_empty :
    Stands rule unwritten key names (InvEngine.empty : TableIndex rule.put unwritten key)
      InvEngine.empty := by
  refine ⟨.init, rfl, ?_, ?_⟩
  · intro h named
    exact SlotTable.find_empty _ (key h)
  · intro k stored
    rw [show held (slotsOf rule unwritten key .init) k = none from SlotTable.find_empty _ k]
      at stored
    cases stored

end Stands

theorem ChainIndexed.congr {items : List Item} {find find' : BzUint256 → Option BzInv}
    {m : SpentMap} (indexed : ChainIndexed items ⟨find', m⟩) (same : ∀ h, find h = find' h) :
    ChainIndexed items ⟨find, m⟩ := by
  obtain rfl : find = find' := funext same
  exact indexed

section Khash

variable {unwritten : BzInv} {sha256 : List UInt8 → BzUint256} {contents : Nat → UInt8}
  {chain : List Framed}

/-- A khash table that holds named hashes only has room for all of them. -/
theorem readyFor_khash {names : List BzUint256} (few : names.length ≤ 2 ^ 31) :
    ReadyFor (khRule BzInv kh256_lawful) id names := by
  intro t only hash named
  change ((bucket kh256 t.1 hash).isSome || decide (t.1.size.toNat < 2 ^ 31)) = true
  rw [Bool.or_eq_true, or_iff_not_imp_left, decide_eq_true_eq]
  intro absent
  obtain ⟨b, working, -⟩ := id t.2
  have fewer := working.sound.count_live_le (names.toFinset.erase hash) ?_
  · rw [Finset.card_erase_of_mem (List.mem_toFinset.mpr named)] at fewer
    have distinct := List.toFinset_card_le names
    have some : 0 < names.length := List.length_pos_of_mem named
    have size := working.size
    change Nat.count _ t.1.nBuckets.toNat ≤ _ at fewer
    omega
  · intro k v holds
    have stands := working.isSome_bucket.mpr ⟨v, holds⟩
    obtain ⟨h, member, rfl⟩ := List.mem_map.mp (only k stands)
    rw [Finset.mem_erase, List.mem_toFinset]
    refine ⟨?_, member⟩
    rintro rfl
    exact absent stands

theorem khPut256_keeps {t t' : HashTable BzUint256 BzInv}
    {b : Nat → Bucket BzUint256 (Option BzInv)} {k : BzUint256} {x : UInt32}
    (working : Working kh256 kh256_lawful t b) (call : khPut256 t k = some (x, t')) :
    ∃ b, Working kh256 kh256_lawful t' b ∧ t'.nOccupied.toNat ≤ 2 ^ 31 := by
  obtain ⟨x', t'', b', put, working', -⟩ := (khRule BzInv kh256_lawful).ends k working
  obtain ⟨-, rfl⟩ := Prod.mk.inj (Option.some.inj (call.symm.trans put))
  exact ⟨b', working', working'.occupied_le.trans working'.nBuckets_le⟩

/-- Indexing the file with KHASH on a fresh handle ends at its last byte, and the table says what
    stands in it. -/
def RegenKhash (unwritten : BzInv) (sha256 : List UInt8 → BzUint256) (contents : Nat → UInt8)
    (chain : List Framed) : Prop :=
  ∃ calls hnd, (bzingIndexRegen sha256 (fileOf chain) indexHandler).run
      (bzingAlloc (KhashIndex unwritten) contents) =
        .ok (some (UInt64.ofNat (fileOf chain).length, calls), hnd) ∧
    ChainIndexed (fileItems sha256 0 chain) ⟨hnd.inv.find kh256, hnd.toSpentMap⟩

/-- A well-formed file is indexed with KHASH exactly when the Merkle trees and the slots have room
    and there are not more than `2 ^ 31` blocks and transactions. -/
theorem regenKhash_iff (ok : WellFormedChain sha256 chain) :
    RegenKhash unwritten sha256 contents chain ↔
      (∀ framed ∈ chain, treeSize framed.block.txs.length < 2 ^ 31) ∧
        PlanFits (outputCount (fileItems sha256 0 chain)) SlotPlan.start
          ((fileItems sha256 0 chain).flatMap Item.inputs) ∧
        (fileItems sha256 0 chain).length ≤ 2 ^ 31 := by
  have agrees (few : (fileItems sha256 0 chain).length ≤ 2 ^ 31) :=
    @WellFormedChain.agrees_perform _ _ _ contents _ _ ok
      (@serves_table _ _ _ _ _ unwritten _ _ (readyFor_khash (by rwa [List.length_map]))
        fun _ _ same => same) stands_empty
  constructor
  · rintro ⟨calls, hnd, run, indexed⟩
    obtain ⟨room, performed⟩ := ok.performed_of_run run
    have works : TableWorks kh256_lawful (2 ^ 31) hnd.inv := by
      refine (tableWorks_kept fun working _ => khPut256_keeps working).perform ?_ performed
      rintro t ⟨⟩
      exact ⟨_, ⟨Buckets.init_empty, fun _ => Nat.le_refl 0⟩, Nat.zero_le _⟩
    have few := @length_le_of_find _ _ _ _ _ _ _ _ works ((fileItems sha256 0 chain).map Item.hash)
      (by rw [List.map_id]; exact ok.distinct) fun h named => (indexed.indexed h).mpr named
    rw [List.length_map] at few
    exact ⟨room, fits_of_agrees ok (agrees few) performed, few⟩
  · rintro ⟨room, fits, few⟩
    obtain ⟨calls, hnd, ideal, run, stands, indexed⟩ :=
      regenServes_of_agrees ok (agrees few) room fits
    refine ⟨calls, hnd, run, indexed.congr ?_⟩
    intro h
    by_cases named : h ∈ (fileItems sha256 0 chain).map Item.hash
    · exact find_of_stands stands named
    · have outside : ideal.find h = none := by
        rw [← Option.not_isSome_iff_eq_none]
        exact fun found => named ((indexed.indexed h).mp found)
      rw [outside, ← Option.not_isSome_iff_eq_none]
      intro found
      obtain ⟨h', member, same⟩ := named_of_find stands found
      have same : h' = h := same
      exact named (same ▸ member)

set_option maxRecDepth 100000 in
theorem regenKhash_sampleChain : RegenKhash ⟨0, 0⟩ sampleSha256 (fun _ => 0) sampleChain :=
  (regenKhash_iff wellFormed_sampleChain).mpr
    ⟨room_sampleChain, fits_sampleChain, by decide +kernel⟩

end Khash

end Bzing
