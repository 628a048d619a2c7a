import Bzing.Chain.InMemory

/-!
# Indexing a chain with ALIGN

`alignhash_inv_t` sees the first word of a hash, and takes no more than `2 ^ 30` keys. So ALIGN
indexes a well-formed file exactly when no two of its hashes share their first word and there are
not more than `2 ^ 30` of them (`regenAlign_iff`): of two hashes with one entry only one finds its
block or its transaction.
-/

namespace Bzing

open Handler HashTable Tables OpenTable
open IndexedInvEngine (held)

section Entry

/-- The position the entry of an item has. -/
def Item.entry : Item → Nat
  | .block _ position => position + 80
  | .tx _ position _ _ => position

theorem length_putVarInt_pos (n : Nat) : 0 < (putVarInt n).length := by
  unfold putVarInt
  split_ifs <;> simp

variable {sha256 : List UInt8 → BzUint256}

theorem txItems_entry {i position : Nat} {txs : List Tx} :
    (∀ item ∈ txItems sha256 i position txs, position ≤ item.entry ∧
      item.entry < position + (txs.flatMap Tx.serialise).length) ∧
    (txItems sha256 i position txs).Pairwise fun item item' => item.entry < item'.entry := by
  induction txs generalizing i position with
  | nil => exact ⟨nofun, List.Pairwise.nil⟩
  | cons tx txs ih =>
    obtain ⟨range, apart⟩ := @ih (i + 1) (position + tx.serialise.length)
    have some := tx.length_serialise
    rw [txItems, List.flatMap_cons, List.length_append]
    refine ⟨?_, List.Pairwise.cons ?_ apart⟩
    · intro item member
      rcases List.mem_cons.mp member with rfl | later
      · change position ≤ position ∧ position < _
        omega
      · have := range item later
        omega
    · intro item later
      have := range item later
      change position < _
      omega

/-- The entries of the items point to different bytes of the file. -/
theorem fileItems_entry {position : Nat} {chain : List Framed} :
    (∀ item ∈ fileItems sha256 position chain, position ≤ item.entry ∧
      item.entry < position + (fileOf chain).length) ∧
    (fileItems sha256 position chain).Pairwise fun item item' => item.entry < item'.entry := by
  induction chain generalizing position with
  | nil => exact ⟨nofun, List.Pairwise.nil⟩
  | cons framed chain ih =>
    obtain ⟨range, apart⟩ := @ih (position + framed.serialise.length)
    obtain ⟨inBlock, apart'⟩ := @txItems_entry sha256 0
      (position + 8 + (80 + (putVarInt framed.block.txs.length).length)) framed.block.txs
    have length := framed.length_serialise
    have block : framed.block.serialise.length = 80 +
        (putVarInt framed.block.txs.length).length +
          (framed.block.txs.flatMap Tx.serialise).length := framed.block.length_serialise
    have count := length_putVarInt_pos framed.block.txs.length
    have file : (fileOf (framed :: chain)).length =
        framed.serialise.length + (fileOf chain).length := by
      rw [fileOf, List.flatMap_cons, List.length_append, fileOf]
    have range' : ∀ item ∈ framed.block.items sha256 (position + 8),
        position ≤ item.entry ∧ item.entry < position + framed.serialise.length := by
      intro item member
      rcases List.mem_cons.mp member with rfl | inTxs
      · change position ≤ position + 8 + 80 ∧ position + 8 + 80 < _
        omega
      · have := inBlock item inTxs
        omega
    rw [fileItems, file]
    refine ⟨?_, List.pairwise_append.mpr ⟨List.Pairwise.cons ?_ apart', apart, ?_⟩⟩
    · intro item member
      rcases List.mem_append.mp member with now | later
      · have := range' item now
        omega
      · have := range item later
        omega
    · intro item inTxs
      have := inBlock item inTxs
      change position + 8 + 80 < _
      omega
    · intro item now item' later
      have := range' item now
      have := range item' later
      omega

/-- Items with one entry position are the same. -/
theorem eq_of_entry {position : Nat} {chain : List Framed} {item item' : Item}
    (member : item ∈ fileItems sha256 position chain)
    (member' : item' ∈ fileItems sha256 position chain) (same : item.entry = item'.entry) :
    item = item' := by
  have distinct : ((fileItems sha256 position chain).map Item.entry).Nodup :=
    List.pairwise_map.mpr (fileItems_entry.2.imp Nat.ne_of_lt)
  exact List.inj_on_of_nodup_map distinct member member' same

theorem ChainIndexed.offset {items : List Item} {s : Store} (indexed : ChainIndexed items s)
    {item : Item} (member : item ∈ items) :
    ∃ data, s.find item.hash = some data ∧ data.offset = UInt64.ofNat item.entry := by
  cases item with
  | block hash position => exact ⟨_, indexed.block member, rfl⟩
  | tx hash position nTxout inputs =>
    have entry := indexed.tx member
    by_cases unspent : ∀ i, lastSpender items hash i = none
    · exact ⟨_, entry.unspent unspent, rfl⟩
    · simp only [not_forall, ← ne_eq, Option.ne_none_iff_exists'] at unspent
      obtain ⟨pos, -, -, found, -⟩ := entry.spent unspent
      exact ⟨_, found, rfl⟩

/-- Different hashes of the file have different entries. -/
theorem ChainIndexed.find_inj {chain : List Framed} {s : Store}
    (indexed : ChainIndexed (fileItems sha256 0 chain) s) (short : (fileOf chain).length < 2 ^ 63)
    {h h' : BzUint256} (named : h ∈ (fileItems sha256 0 chain).map Item.hash)
    (named' : h' ∈ (fileItems sha256 0 chain).map Item.hash) (same : s.find h = s.find h') :
    h = h' := by
  obtain ⟨item, member, rfl⟩ := List.mem_map.mp named
  obtain ⟨item', member', rfl⟩ := List.mem_map.mp named'
  obtain ⟨data, found, offset⟩ := indexed.offset member
  obtain ⟨data', found', offset'⟩ := indexed.offset member'
  rw [found, found'] at same
  cases same
  have range := fileItems_entry.1 item member
  have range' := fileItems_entry.1 item' member'
  have words := congrArg UInt64.toNat (offset.symm.trans offset')
  rw [UInt64.toNat_ofNat', UInt64.toNat_ofNat', Nat.mod_eq_of_lt (by omega),
    Nat.mod_eq_of_lt (by omega)] at words
  rw [eq_of_entry member member' words]

end Entry

section Alignhash

variable {unwritten : BzInv} {sha256 : List UInt8 → BzUint256} {contents : Nat → UInt8}
  {chain : List Framed}

/-- A table that holds fewer than `2 ^ 30` keys is ready for every key. -/
theorem ready_align {t : WorkingTable BzInv ahInv ahInv_lawful} {keys : List UInt64}
    (only : ∀ k, (bucket ahInv t.1 k).isSome → k ∈ keys) (few : keys.length < 2 ^ 30)
    (key : UInt64) : (ahRule BzInv ahInv_lawful).ready t.1 key = true := by
  obtain ⟨b, working, undeleted⟩ := id t.2
  have fewer := working.sound.count_live_le keys.toFinset ?_
  · have distinct := List.toFinset_card_le keys
    have size := working.size
    change Nat.count _ t.1.nBuckets.toNat ≤ _ at fewer
    exact ahReady_of_few working key (by rw [undeleted]; omega)
  · intro k v holds
    exact List.mem_toFinset.mpr (only k (working.isSome_bucket.mpr ⟨v, holds⟩))

theorem readyFor_align {names : List BzUint256} (few : names.length < 2 ^ 30) :
    ReadyFor (ahRule BzInv ahInv_lawful) (·.d64 0) names := by
  intro t only hash _
  exact ready_align only (by rwa [List.length_map]) _

/-- `alignhash_set` never uses up more than half of the largest table. -/
theorem ahSetInv_keeps {t t' : HashTable UInt64 BzInv} {b : Nat → Bucket UInt64 (Option BzInv)}
    {k : UInt64} {x : UInt32} (working : Working ahInv ahInv_lawful t b)
    (few : t.nOccupied.toNat ≤ 2 ^ 30) (call : ahSetInv t k = some (x, t')) :
    ∃ b, Working ahInv ahInv_lawful t' b ∧ t'.nOccupied.toNat ≤ 2 ^ 30 := by
  have upper : t.upperBound.toNat = (t.nBuckets.toNat + 1) / 2 :=
    (congrArg UInt32.toNat working.upper).trans (toNat_ahSup working.count)
  have most := working.nBuckets_le
  by_cases ready : (ahRule BzInv ahInv_lawful).ready t k = true
  · obtain ⟨x', t'', b', put, placed⟩ := (ahRule BzInv ahInv_lawful).placed working ready
    obtain ⟨-, rfl⟩ := Prod.mk.inj (Option.some.inj (call.symm.trans put))
    refine ⟨b', placed.working, ?_⟩
    have used := placed.used
    rcases of_decide_eq_true ready with small | spare
    · have within := working.within small
      have even := working.count.even
      omega
    · have := UInt32.lt_iff_toNat_lt.mp spare
      omega
  · have full := of_decide_eq_false (Bool.eq_false_iff.mpr ready)
    obtain ⟨largest, half⟩ := not_or.mp full
    have same : ahSet ahInv t k = some (t.nBuckets, none, t) :=
      ahSet_givesUp k (by omega) (UInt32.not_lt.mp half)
    rw [ahSetInv, ahCall, ← ahInv, same] at call
    cases call
    exact ⟨b, working, few⟩

/-- What the table says of the hashes of the file. -/
def TableIndex.findNamed (index : AlignIndex unwritten) (names : List BzUint256)
    (hash : BzUint256) : Option BzInv :=
  if hash ∈ names then index.find ahInv hash else none

/-- Indexing the file with ALIGN on a fresh handle ends at its last byte, and for the hashes of the
    file the table says what stands in it. -/
def RegenAlign (unwritten : BzInv) (sha256 : List UInt8 → BzUint256) (contents : Nat → UInt8)
    (chain : List Framed) : Prop :=
  ∃ calls hnd, (bzingIndexRegen sha256 (fileOf chain) indexHandler).run
      (bzingAlloc (AlignIndex unwritten) contents) =
        .ok (some (UInt64.ofNat (fileOf chain).length, calls), hnd) ∧
    ChainIndexed (fileItems sha256 0 chain)
      ⟨hnd.inv.findNamed ((fileItems sha256 0 chain).map Item.hash), hnd.toSpentMap⟩

/-- While there are not more than `2 ^ 30` hashes with different first words, the operations for
    the file do what they do on a finite map. -/
theorem agrees_align (ok : WellFormedChain sha256 chain)
    (apart : (((fileItems sha256 0 chain).map Item.hash).map (·.d64 0)).Nodup)
    (few : (fileItems sha256 0 chain).length ≤ 2 ^ 30) :
    Agrees (Acts (Stands (ahRule BzInv ahInv_lawful) unwritten (·.d64 0)
        ((fileItems sha256 0 chain).map Item.hash)))
      ((perform indexHandler (((fileItems sha256 0 chain).flatMap Item.ops).map
        LedgerOp.indexOp)).run (bzingAlloc (AlignIndex unwritten) contents))
      ((perform indexHandler (((fileItems sha256 0 chain).flatMap Item.ops).map
        LedgerOp.indexOp)).run (bzingAlloc IdealIndex contents)) := by
  have inj := List.inj_on_of_nodup_map apart
  rcases List.eq_nil_or_concat (fileItems sha256 0 chain) with none | ⟨before, item, split⟩
  · rw [none]
    exact .ok () ⟨rfl, stands_empty⟩
  · rw [List.concat_eq_append] at split
    rw [split] at inj few
    rw [List.map_append, List.map_singleton] at inj
    have fewer : (before.map Item.hash).length < 2 ^ 30 := by
      rw [List.length_append, List.length_singleton] at few
      rw [List.length_map]
      omega
    refine ok.agrees_perform_last split (serves_table (readyFor_align fewer) ?_) stands_empty ?_
    · intro h h' named named'
      exact inj (List.mem_append_left _ named) (List.mem_append_left _ named')
    · intro index ideal data stands
      rw [split, List.map_append, List.map_singleton]
      refine stands_set data ?_ ?_ stands
      · intro t only
        exact ready_align only (by rwa [List.length_map]) _
      · intro h named
        exact inj (List.mem_append_left _ named) (List.mem_append_right _ (List.mem_singleton.mpr rfl))

/-- A well-formed file is indexed with ALIGN exactly when the Merkle trees and the slots have room,
    no two hashes have the same first word, and there are not more than `2 ^ 30` blocks and
    transactions. -/
theorem regenAlign_iff (ok : WellFormedChain sha256 chain) :
    RegenAlign unwritten sha256 contents chain ↔
      (∀ framed ∈ chain, treeSize framed.block.txs.length < 2 ^ 31) ∧
        PlanFits (outputCount (fileItems sha256 0 chain)) SlotPlan.start
          ((fileItems sha256 0 chain).flatMap Item.inputs) ∧
        ((fileItems sha256 0 chain).map (·.hash.d64 0)).Nodup ∧
        (fileItems sha256 0 chain).length ≤ 2 ^ 30 := by
  have words : (fileItems sha256 0 chain).map (·.hash.d64 0) =
      ((fileItems sha256 0 chain).map Item.hash).map (·.d64 0) := by
    rw [List.map_map]
    rfl
  rw [words]
  constructor
  · rintro ⟨calls, hnd, run, indexed⟩
    obtain ⟨room, performed⟩ := ok.performed_of_run run
    have apart : (((fileItems sha256 0 chain).map Item.hash).map (·.d64 0)).Nodup := by
      refine List.Nodup.map_on ?_ ok.distinct
      intro h named h' named' same
      apply indexed.find_inj ok.short named named'
      simp only [TableIndex.findNamed, named, named', if_true, TableIndex.find, same]
    have works : TableWorks ahInv_lawful (2 ^ 30) hnd.inv := by
      refine (tableWorks_kept ahSetInv_keeps).perform ?_ performed
      rintro t ⟨⟩
      exact ⟨_, ⟨Buckets.init_empty, fun _ => Nat.le_refl 0⟩, Nat.zero_le _⟩
    have few : ((fileItems sha256 0 chain).map Item.hash).length ≤ 2 ^ 30 := by
      apply length_le_of_find works apart
      intro h named
      have found := (indexed.indexed h).mpr named
      simpa only [TableIndex.findNamed, named, if_true] using found
    rw [List.length_map] at few
    exact ⟨room, fits_of_agrees ok (agrees_align ok apart few) performed, apart, few⟩
  · rintro ⟨room, fits, apart, few⟩
    obtain ⟨calls, hnd, ideal, run, stands, indexed⟩ :=
      regenServes_of_agrees ok (agrees_align ok apart few) room fits
    refine ⟨calls, hnd, run, indexed.congr ?_⟩
    intro h
    by_cases named : h ∈ (fileItems sha256 0 chain).map Item.hash
    · rw [TableIndex.findNamed, if_pos named]
      exact find_of_stands stands named
    · have outside : ideal.find h = none := by
        rw [← Option.not_isSome_iff_eq_none]
        exact fun found => named ((indexed.indexed h).mp found)
      rw [TableIndex.findNamed, if_neg named, outside]

set_option maxRecDepth 100000 in
theorem regenAlign_sampleChain : RegenAlign ⟨0, 0⟩ sampleSha256 (fun _ => 0) sampleChain :=
  (regenAlign_iff wellFormed_sampleChain).mpr
    ⟨room_sampleChain, fits_sampleChain, by decide +kernel, by decide +kernel⟩

end Alignhash

end Bzing
