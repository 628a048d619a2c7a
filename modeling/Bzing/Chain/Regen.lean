import Bzing.Chain.File
import Bzing.Chain.Plan
import Bzing.Chain.Reachable

/-!
# Indexing a whole chain

What the index and the spent map hold after `bzing_index_regen` has run over a well-formed
file (`ChainIndexed`), and when it gets there: a run ends exactly when no cursor of a Merkle
tree overflows and no slot comes to lie behind the block (`regenIndexes_iff`). What it leaves
follows from the invariants every run keeps and from the ledger of the items in the file.
-/

namespace Bzing

open Handler

/-- A file of well-formed blocks whose hashes differ, in which every input of a transaction
    names an output of an earlier one. -/
structure WellFormedChain (sha256 : List UInt8 → BzUint256) (chain : List Framed) : Prop where
  nonempty : chain ≠ []
  distinct : ((fileItems sha256 0 chain).map Item.hash).Nodup
  inputs : InputsEarlier (fileItems sha256 0 chain)
  outputs : ((fileItems sha256 0 chain).map Item.outputs).sum < bzTxiSpentMax.toNat
  short : (fileOf chain).length < 2 ^ 63

/-- The entry of a transaction and the slots of its outputs, which `spender` spends. -/
structure TxIndexed (s : Store) (hash : BzUint256) (position : Nat) (nTxout : UInt32)
    (spender : UInt32 → Option Nat) : Prop where
  unspent : (∀ i, spender i = none) →
    s.find hash = some ⟨UInt64.ofNat position, (SpentWord.unallocated nTxout).pack⟩
  spent : (∃ i v, spender i = some v) → ∃ pos : UInt64, 1 ≤ pos.toNat ∧
    pos.toNat + nTxout.toNat ≤ s.spent.spentLen.toNat ∧
    s.find hash = some ⟨UInt64.ofNat position,
      (SpentWord.allocated pos fun i => (spender (UInt32.ofNat i)).isSome).pack⟩ ∧
    ∀ i v, spender i = some v → i < nTxout ∧
      s.spent.slot (pos.toNat + i.toNat) = some (UInt64.ofNat v)

/-- The store says what stands in the file. -/
structure ChainIndexed (items : List Item) (s : Store) : Prop where
  /-- Every block and every transaction has its entry, and there are no others. -/
  indexed : ∀ h, (s.find h).isSome ↔ h ∈ items.map Item.hash
  block : ∀ {hash position}, .block hash position ∈ items →
    s.find hash = some ⟨UInt64.ofNat (position + 80), uint64Max⟩
  tx : ∀ {hash position nTxout inputs}, .tx hash position nTxout inputs ∈ items →
    TxIndexed s hash position nTxout (lastSpender items hash)
  /-- The slots of different transactions do not overlap. -/
  apart : ∀ {h position nTxout inputs data pos bits h' position' nTxout' inputs' data' pos' bits'},
    .tx h position nTxout inputs ∈ items → s.find h = some data →
    classify data.spent = .allocated pos bits →
    .tx h' position' nTxout' inputs' ∈ items → s.find h' = some data' →
    classify data'.spent = .allocated pos' bits' → h ≠ h' →
    pos.toNat + nTxout.toNat ≤ pos'.toNat ∨ pos'.toNat + nTxout'.toNat ≤ pos.toNat

/-- Indexing the file on a fresh handle ends at its last byte, and the index says what stands
    in it. -/
def RegenIndexes (ι : Type) [InvEngine ι] [LawfulInvEngine ι]
    (sha256 : List UInt8 → BzUint256) (contents : Nat → UInt8) (chain : List Framed) : Prop :=
  ∃ calls hnd, (bzingIndexRegen sha256 (fileOf chain) indexHandler).run
      (bzingAlloc ι contents) = .ok (some (UInt64.ofNat (fileOf chain).length, calls), hnd) ∧
    ChainIndexed (fileItems sha256 0 chain) hnd.store

section Indexed

variable {items : List Item} {s : Store} {l : Ledger}

theorem txIndexed_of_tells (earlier : InputsEarlier items) (tells : l.Tells items)
    (lay : Layout s l) (rec : Recorded s l) (used : SlotsUsed s l) {hash : BzUint256}
    {position : Nat} {nTxout : UInt32} {inputs : List Outpoint}
    (member : .tx hash position nTxout inputs ∈ items) :
    TxIndexed s hash position nTxout (lastSpender items hash) := by
  have known := tells.tx member
  rcases lay.tx_cases known with fresh | ⟨word, pos, entry, slots⟩
  · refine ⟨fun _ => fresh, ?_⟩
    rintro ⟨i, v, spent⟩
    have none := rec.fresh known fresh i
    rw [spent] at none
    cases none
  · refine ⟨?_, ?_⟩
    · intro unspent
      obtain ⟨i, v, spent⟩ := used.spent slots
      rw [unspent i] at spent
      cases spent
    · intro _
      have base := slots.allocated.toNat_and_mask
      obtain ⟨ge, inside⟩ := lay.packed.inside slots.owns
      have bits : (fun i : Fin 8 => hasQuickBit word i) = fun i : Fin 8 =>
          (lastSpender items hash (UInt32.ofNat i)).isSome := by
        funext i
        have small : (UInt32.ofNat i).toNat = i := by
          rw [UInt32.toNat_ofNat', Nat.mod_eq_of_lt (by omega)]
        have quick := rec.quick slots (UInt32.ofNat i) (by omega)
        rw [small, Option.isSome_map] at quick
        exact quick
      refine ⟨word &&& bzTxiSpentMask, base ▸ ge, base ▸ inside, ?_, ?_⟩
      · rw [entry, ← bits, ← slots.allocated.eq_pack.2]
      · intro i v spent
        have index : i < nTxout := by
          obtain ⟨_, _, _, member', index⟩ := earlier.lastSpender_some spent
          have both := known.symm.trans (tells.tx member')
          simp only [Option.some.injEq, LedgerEntry.tx.injEq] at both
          rw [both.2.1]
          exact index
        refine ⟨index, ?_⟩
        rw [base]
        exact rec.slot slots i index _ (congrArg (Option.map UInt64.ofNat) spent)

theorem chainIndexed_of_tells (earlier : InputsEarlier items) (tells : l.Tells items)
    (lay : Layout s l) (rec : Recorded s l) (used : SlotsUsed s l) : ChainIndexed items s where
  indexed h := by
    rw [lay.isSome_find_iff]
    constructor
    · intro known
      by_contra absent
      rw [tells.absent h absent] at known
      cases known
    · intro member
      obtain ⟨item, inFile, rfl⟩ := List.mem_map.mp member
      cases item with
      | block hash position =>
        rw [show l (Item.block hash position).hash = _ from tells.block inFile]
        rfl
      | tx hash position nTxout inputs =>
        rw [show l (Item.tx hash position nTxout inputs).hash = _ from tells.tx inFile]
        rfl
  block {hash position} member := by
    have shape := lay.shape hash
    rw [tells.block member] at shape
    generalize s.find hash = entry at shape
    cases shape with
    | block offset => rfl
  tx member := txIndexed_of_tells earlier tells lay rec used member
  apart member entry kind member' entry' kind' :=
    (refines_of_recorded lay rec).apart (tells.tx member) entry kind (tells.tx member') entry'
      kind'

end Indexed

/-! ## When the run ends -/

section Run

variable {sha256 : List UInt8 → BzUint256} {chain : List Framed}

/-- The outpoints the operations for items spend are the inputs of the items. -/
theorem outpoints_items (items : List Item) :
    (items.flatMap Item.ops).filterMap LedgerOp.outpoint? = items.flatMap Item.inputs := by
  induction items with
  | nil => rfl
  | cons item items ih =>
    rw [List.flatMap_cons, List.filterMap_append, ih, List.flatMap_cons]
    congr 1
    cases item with
    | block hash position => rfl
    | tx hash position nTxout inputs =>
      rw [Item.ops, List.filterMap_append, List.filterMap_map]
      exact (List.append_nil _).trans List.filterMap_some

namespace WellFormedChain

/-- No reservation can take the spent map out of range. -/
theorem unreserved_le (ok : WellFormedChain sha256 chain) :
    SlotPlan.start.len + SlotPlan.start.unreserved (outputCount (fileItems sha256 0 chain))
      ((fileItems sha256 0 chain).map Item.hash) ≤ bzTxiSpentMax.toNat := by
  have all : SlotPlan.start.unreserved (outputCount (fileItems sha256 0 chain))
      ((fileItems sha256 0 chain).map Item.hash) =
        ((fileItems sha256 0 chain).map Item.outputs).sum := by
    rw [SlotPlan.unreserved, List.map_map]
    congr 1
    apply List.map_congr_left
    intro item member
    exact outputCount_eq ok.distinct member
  have small := ok.outputs
  have one : SlotPlan.start.len = 1 := rfl
  omega

/-- Performing the operations for the file on a fresh store returns exactly when the plan of
    its slots fits, and then leaves what the file says. -/
theorem perform_cases (ok : WellFormedChain sha256 chain) (contents : Nat → UInt8) :
    (PlanFits (outputCount (fileItems sha256 0 chain)) SlotPlan.start
        ((fileItems sha256 0 chain).flatMap Item.inputs) ∧
      ∃ s, (perform storeHandler (((fileItems sha256 0 chain).flatMap Item.ops).map
          LedgerOp.indexOp)).run (Store.alloc contents) = .ok ((), s) ∧
        ChainIndexed (fileItems sha256 0 chain) s) ∨
    ¬ PlanFits (outputCount (fileItems sha256 0 chain)) SlotPlan.start
        ((fileItems sha256 0 chain).flatMap Item.inputs) ∧
      ∃ e, (perform storeHandler (((fileItems sha256 0 chain).flatMap Item.ops).map
          LedgerOp.indexOp)).run (Store.alloc contents) = .error e := by
  have cap := capacity_store_alloc contents
  have lay := layout_alloc contents
  have recorded := recorded_alloc contents
  have used := slotsUsed_alloc contents
  have follows := SlotPlan.follows_alloc (outputCount (fileItems sha256 0 chain)) contents
  have along := Ledger.along_items ok.distinct ok.inputs
    fun item member => outputCount_eq ok.distinct member
  have honest := Ledger.along_mono Ledger.Extends.allows along
  have tells := Ledger.tells_items ok.distinct ok.inputs
  have short := ok.unreserved_le
  have named : ∀ outpoint ∈ ((fileItems sha256 0 chain).flatMap Item.ops).filterMap
      LedgerOp.outpoint?, outpoint.hash ∈ (fileItems sha256 0 chain).map Item.hash := by
    intro outpoint spent
    rw [outpoints_items] at spent
    obtain ⟨item, member, input⟩ := List.mem_flatMap.mp spent
    exact ok.inputs.named member input
  generalize Store.alloc contents = fresh at cap lay recorded used follows
  have cases := perform_planned ⟨cap, lay, follows, short⟩ along named
  rw [outpoints_items] at cases
  rcases cases with ⟨fits, s, run, le⟩ | fails
  · refine Or.inl ⟨fits, s, run, chainIndexed_of_tells ok.inputs tells ?_ ?_ ?_⟩
    · exact layout_perform cap lay run le
    · exact recorded_perform cap lay recorded honest run le
    · exact slotsUsed_perform cap lay used honest run le
  · exact Or.inr fails

theorem file_nonempty (ok : WellFormedChain sha256 chain) : fileOf chain ≠ [] := by
  have framed := length_le_fileOf chain
  have some := List.length_pos_iff.mpr ok.nonempty
  exact List.length_pos_iff.mp (by omega)

/-- Indexing a file whose Merkle trees all have room performs the operations for it. -/
theorem regen_at (ok : WellFormedChain sha256 chain)
    (room : ∀ framed ∈ chain, treeSize framed.block.txs.length < 2 ^ 31) :
    ∃ calls, ∀ {σ : Type} (h : Handler IndexOp σ Fault),
      bzingIndexRegen sha256 (fileOf chain) h = (do
        perform h (((fileItems sha256 0 chain).flatMap Item.ops).map LedgerOp.indexOp)
        pure (some (UInt64.ofNat (fileOf chain).length, calls))) :=
  regenLoop_at ok.short ok.file_nonempty (List.nil_append _).symm room
    (Nat.lt_succ_of_le (length_le_fileOf chain)) 0

variable {ι : Type} [InvEngine ι] [LawfulInvEngine ι] {contents : Nat → UInt8}

/-- A run that ends had room for the Merkle trees and for the slots. -/
theorem fits_of_regenIndexes (ok : WellFormedChain sha256 chain)
    (indexes : RegenIndexes ι sha256 contents chain) :
    (∀ framed ∈ chain, treeSize framed.block.txs.length < 2 ^ 31) ∧
      PlanFits (outputCount (fileItems sha256 0 chain)) SlotPlan.start
        ((fileItems sha256 0 chain).flatMap Item.inputs) := by
  obtain ⟨calls, hnd, run, -⟩ := indexes
  have room := treeSize_of_regenLoop ok.short (List.nil_append _).symm run
  refine ⟨room, ?_⟩
  obtain ⟨calls', equation⟩ := ok.regen_at room
  rw [equation] at run
  obtain ⟨_, hnd', performed, -⟩ := run_bind_ok.mp run
  have onStore := perform_alloc_store performed
  rcases ok.perform_cases contents with ⟨fits, -⟩ | ⟨-, e, failed⟩
  · exact fits
  · rw [onStore] at failed
    cases failed

theorem regenIndexes_of_fits (ok : WellFormedChain sha256 chain)
    (room : ∀ framed ∈ chain, treeSize framed.block.txs.length < 2 ^ 31)
    (fits : PlanFits (outputCount (fileItems sha256 0 chain)) SlotPlan.start
      ((fileItems sha256 0 chain).flatMap Item.inputs)) :
    RegenIndexes ι sha256 contents chain := by
  rcases ok.perform_cases contents with ⟨-, s, run, indexed⟩ | ⟨outside, -⟩
  · rw [← bzingAlloc_store (ι := ι)] at run
    obtain ⟨hnd, performed, rfl⟩ := perform_of_store run
    obtain ⟨calls, equation⟩ := ok.regen_at room
    refine ⟨calls, hnd, ?_, indexed⟩
    rw [equation]
    exact run_bind_ok.mpr ⟨(), hnd, performed, rfl⟩
  · exact absurd fits outside

/-- The slots of transactions with at most 512 outputs have room. -/
theorem fits_of_few (ok : WellFormedChain sha256 chain)
    (few : ∀ item ∈ fileItems sha256 0 chain, item.outputs ≤ 512) :
    PlanFits (outputCount (fileItems sha256 0 chain)) SlotPlan.start
      ((fileItems sha256 0 chain).flatMap Item.inputs) := by
  apply planFits_of_few
  · intro outpoint spent
    obtain ⟨item, member, input⟩ := List.mem_flatMap.mp spent
    obtain ⟨front, back, split⟩ := List.append_of_mem member
    obtain ⟨item', before, same, index⟩ := ok.inputs front item back split outpoint input
    have inFile : item' ∈ fileItems sha256 0 chain := split ▸ List.mem_append_left _ before
    rw [← same, outputCount_eq ok.distinct inFile]
    exact ⟨few item' inFile, index⟩
  · exact Nat.le_refl 4096
  · show 8 * 1 ≤ 4096
    omega
  · intro h base known
    cases known

end WellFormedChain

/-- A well-formed file is indexed as it should be exactly when all its Merkle trees have fewer
than `2 ^ 31` nodes and every slot lies in the block when it is written. -/
theorem regenIndexes_iff {ι : Type} [InvEngine ι] [LawfulInvEngine ι] {contents : Nat → UInt8}
    (ok : WellFormedChain sha256 chain) :
    RegenIndexes ι sha256 contents chain ↔
      (∀ framed ∈ chain, treeSize framed.block.txs.length < 2 ^ 31) ∧
        PlanFits (outputCount (fileItems sha256 0 chain)) SlotPlan.start
          ((fileItems sha256 0 chain).flatMap Item.inputs) :=
  ⟨ok.fits_of_regenIndexes, fun both => ok.regenIndexes_of_fits both.1 both.2⟩

end Run

/-- A block behind eight zero bytes. -/
def frameOf (block : Block) : Framed := ⟨⟨List.replicate 8 0, rfl⟩, block⟩

/-- The sample blocks. -/
def sampleChain : List Framed := [frameOf blockFirst, frameOf blockSecond]

set_option maxRecDepth 100000 in
theorem wellFormed_sampleChain : WellFormedChain sampleSha256 sampleChain where
  nonempty := by decide
  distinct := by decide +kernel
  inputs := by decide +kernel
  outputs := by decide +kernel
  short := by decide +kernel

/-- The trees of the sample blocks are small. -/
theorem room_sampleChain : ∀ framed ∈ sampleChain, treeSize framed.block.txs.length < 2 ^ 31 := by
  intro framed member
  have all : ∀ framed ∈ sampleChain, framed.block.txs.length ≤ 2 ^ 29 := by decide
  have few := all framed member
  have nodes := treeSize_lt _ 29 few
  omega

/-- Its transactions have few outputs. -/
theorem fits_sampleChain :
    PlanFits (outputCount (fileItems sampleSha256 0 sampleChain)) SlotPlan.start
      ((fileItems sampleSha256 0 sampleChain).flatMap Item.inputs) :=
  wellFormed_sampleChain.fits_of_few (by decide +kernel)

/-- The sample blocks are indexed as they should be. -/
theorem regenIndexes_sampleChain :
    RegenIndexes IdealIndex sampleSha256 (fun _ => 0) sampleChain :=
  (regenIndexes_iff wellFormed_sampleChain).mpr ⟨room_sampleChain, fits_sampleChain⟩

/-- A block with a transaction of 1024 outputs, and a block that spends the last of them. -/
def wideChain : List Framed := [frameOf blockWide, frameOf blockSpendWide]

/-- What stands in the file. -/
def wideItems : List Item := [
  .block (digest 0x4be7570e8f70eb093640c8468274ba759745a7aa2b7d25ab1e0421b259845014) 8,
  .tx hashWide 89 1024 [],
  .block (digest 0x33092437b29bb76f0bdcf492dd5bc68638b8e2da7130cab23208ffb7f77115fd) 9325,
  .tx (digest 0x2228f0e9037d4563e141ebba6e045c206265c7a755419727880eaa14226868d6) 9406 0 [],
  .tx (digest 0x97ae39e4f75c14d0d500c76f83b2b2d023265f054abb66fed4d5fc5ab253d718) 9416 0
    [.of hashWide 1023]]

set_option maxRecDepth 100000 in
theorem wideChain_items : fileItems sampleSha256 0 wideChain = wideItems := by decide +kernel

set_option maxRecDepth 100000 in
theorem wellFormed_wideChain : WellFormedChain sampleSha256 wideChain where
  nonempty := by decide
  distinct := by
    rw [wideChain_items]
    decide +kernel
  inputs := by
    rw [wideChain_items]
    decide +kernel
  outputs := by
    rw [wideChain_items]
    decide +kernel
  short := by decide +kernel

/-- The fresh block of 4096 bytes doubles once, and slot 1024 lies behind it. -/
theorem not_regenIndexes_wideChain :
    WellFormedChain sampleSha256 wideChain ∧
      ∀ contents, ¬ RegenIndexes IdealIndex sampleSha256 contents wideChain := by
  refine ⟨wellFormed_wideChain, ?_⟩
  intro contents indexes
  obtain ⟨-, fits⟩ := wellFormed_wideChain.fits_of_regenIndexes indexes
  rw [wideChain_items] at fits
  revert fits
  decide +kernel

end Bzing
