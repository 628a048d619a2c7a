import Bzing.Chain.File
import Bzing.Chain.Twice
import Bzing.Chain.Words
import Bzing.Spent.Spender

/-!
# Adding a block again

`bzing_block_add` does not look whether the block is indexed (`bzing.c:671-674`, `704-706`): it
inserts the entries of the block and of its transactions, and marks their inputs. For a block
that was added before, this puts the entries of its transactions back to where they started.
`readded` says what the recorded spenders are afterwards. Spends of the block's outputs by
later blocks stood in the entries that were replaced, and are gone.
-/

namespace Bzing

open Handler

/-- A block, and where it is said to stand when it is added. -/
structure AddedBlock where
  block : Block
  outerOffset : UInt64

section Chain

variable (sha256 : List UInt8 → BzUint256)

def AddedBlock.ops (added : AddedBlock) : List LedgerOp :=
  added.block.ops sha256 added.outerOffset

def AddedBlock.items (added : AddedBlock) : List Item :=
  added.block.items sha256 added.outerOffset.toNat

/-- The blocks and transactions of a chain. -/
def chainItems (chain : List AddedBlock) : List Item := chain.flatMap (AddedBlock.items sha256)

theorem AddedBlock.items_ops (added : AddedBlock) :
    (added.items sha256).flatMap Item.ops = added.ops sha256 := by
  rw [items, Block.items_ops, UInt64.ofNat_toNat]
  rfl

theorem chainItems_ops (chain : List AddedBlock) :
    (chainItems sha256 chain).flatMap Item.ops = chain.flatMap (AddedBlock.ops sha256) := by
  rw [chainItems, List.flatMap_assoc]
  congr 1
  funext added
  exact added.items_ops sha256

/-- All hashes of the chain differ, and every input names an output of an earlier transaction. -/
structure InChainOrder (chain : List AddedBlock) : Prop where
  distinct : ((chainItems sha256 chain).map Item.hash).Nodup
  inputs : InputsEarlier (chainItems sha256 chain)

variable {sha256} {chain : List AddedBlock}

theorem InChainOrder.tells (order : InChainOrder sha256 chain) :
    (Ledger.empty.steps (chain.flatMap (AddedBlock.ops sha256))).Tells
      (chainItems sha256 chain) := by
  rw [← chainItems_ops]
  exact Ledger.tells_items order.distinct order.inputs

theorem InChainOrder.allows (order : InChainOrder sha256 chain) :
    Ledger.empty.Along Ledger.Allows (chain.flatMap (AddedBlock.ops sha256)) := by
  rw [← chainItems_ops]
  exact Ledger.along_mono Ledger.Extends.allows (Ledger.along_items order.distinct order.inputs
    fun _ member => outputCount_eq order.distinct member)

end Chain

/-- The recorded spender of every output of a transaction is as before. -/
def LosesNothing (items : List Item) (s s' : Store) : Prop :=
  ∀ {hash position nTxout inputs}, .tx hash position nTxout inputs ∈ items →
    ∀ i < nTxout, s'.spender hash i = s.spender hash i

/-- What adding the block with the items `own` once more does to the recorded spenders. A
spender at position zero reads as none. -/
structure ReAdded (items own : List Item) (contents : Nat → UInt8) (s s' : Store) : Prop where
  /-- Before, the spender of an output was the last transaction of the chain that spends it. -/
  before : ∀ {hash position nTxout inputs}, .tx hash position nTxout inputs ∈ items →
    ∀ i v, lastSpender items hash i = some v →
      s.spender hash i = (some (UInt64.ofNat v)).filter (· ≠ 0)
  /-- What the block spends has the last transaction of the block that spends it. -/
  spent : ∀ {hash position nTxout inputs}, .tx hash position nTxout inputs ∈ items →
    ∀ i v, lastSpender own hash i = some v →
      s'.spender hash i = (some (UInt64.ofNat v)).filter (· ≠ 0)
  /-- Outside the block, what the block does not spend is as it was. -/
  kept : ∀ {hash position nTxout inputs}, .tx hash position nTxout inputs ∈ items →
    hash ∉ own.map Item.hash → ∀ i < nTxout, lastSpender own hash i = none →
      s'.spender hash i = s.spender hash i
  /-- In the block, what the block does not spend has no spender. An output without a quick bit
      whose transaction has slots again needs the memory of these to be zeroed. -/
  forgotten : ∀ {hash position nTxout inputs}, .tx hash position nTxout inputs ∈ own →
    ∀ i < nTxout, lastSpender own hash i = none →
      (i.toNat < 8 ∨ (∀ j, lastSpender own hash j = none) ∨
        ∀ k, 8 ≤ k → k < 4096 → contents k = 0) →
      s'.spender hash i = none

theorem Item.not_inserts {item : Item} {h : BzUint256} (other : h ≠ item.hash) :
    ∀ op ∈ item.ops, ¬ op.Inserts h := by
  intro op member
  cases item with
  | block hash position =>
    cases List.mem_singleton.mp member
    exact fun own => other own.symm
  | tx hash position nTxout inputs =>
    rcases List.mem_append.mp member with spend | insert
    · obtain ⟨outpoint, -, rfl⟩ := List.mem_map.mp spend
      exact id
    · cases List.mem_singleton.mp insert
      exact fun own => other own.symm

theorem Item.spends_of_op {item : Item} {h : BzUint256} {i : UInt32} {op : LedgerOp}
    (member : op ∈ item.ops) (spends : op.SpendsOutput h i) : item.Spends h i := by
  cases item with
  | block hash position =>
    cases List.mem_singleton.mp member
    exact spends.elim
  | tx hash position nTxout inputs =>
    rcases List.mem_append.mp member with spend | insert
    · obtain ⟨outpoint, input, rfl⟩ := List.mem_map.mp spend
      exact ⟨outpoint, input, spends⟩
    · cases List.mem_singleton.mp insert
      exact spends.elim

theorem lastSpender_eq_none {items : List Item} {h : BzUint256} {i : UInt32} :
    lastSpender items h i = none ↔ ∀ item ∈ items, ¬ item.Spends h i := by
  simp [lastSpender]

/-- Items that neither have the hash nor spend the output work on other outputs. -/
theorem elsewhere_items {l : Ledger} {again : List Item} {h : BzUint256} {i : UInt32}
    (allows : l.Along Ledger.Allows (again.flatMap Item.ops)) (absent : h ∉ again.map Item.hash)
    (unspent : lastSpender again h i = none) :
    l.Along (Ledger.Elsewhere h i) (again.flatMap Item.ops) := by
  have others : ∀ op ∈ again.flatMap Item.ops, ¬ op.Inserts h ∧ ¬ op.SpendsOutput h i := by
    intro op member
    obtain ⟨item, inAgain, member⟩ := List.mem_flatMap.mp member
    have other : h ≠ item.hash := by
      rintro rfl
      exact absent (List.mem_map.mpr ⟨item, inAgain, rfl⟩)
    exact ⟨Item.not_inserts other op member, fun spends =>
      lastSpender_eq_none.mp unspent item inAgain (Item.spends_of_op member spends)⟩
  exact Ledger.along_and allows (Ledger.along_of_forall others)

/-! ## Before and after -/

/-- A store `s` that holds the items, and what performing the operations for some of them again,
    `own`, made of it. -/
structure PerformedAgain (items own : List Item) (contents : Nat → UInt8) (l : Ledger)
    (s : Store) (l' : Ledger) (s' : Store) : Prop where
  distinct : (items.map Item.hash).Nodup
  earlier : InputsEarlier items
  members : ∀ item ∈ own, item ∈ items
  tells : l.Tells items
  lists : l'.Lists items (respendAll own (lastSpender items))
  spenders : ∀ h i, respendAll own (lastSpender items) h i = (lastSpender own h i).or
    (if h ∈ own.map Item.hash then none else lastSpender items h i)
  lay : Layout s l
  recorded : Recorded s l
  lay' : Layout s' l'
  recorded' : Recorded s' l'
  used' : SlotsUsed s' l'
  blank' : (∀ k, 8 ≤ k → k < 4096 → contents k = 0) → Blank s' l'
  elsewhere : ∀ {h nTxout spender word pos}, Slots s l h nTxout spender word pos →
    h ∉ own.map Item.hash → ∀ i < nTxout, lastSpender own h i = none →
      s'.spender h i = s.spender h i

theorem lastSpender_none_of_mem {items own : List Item} {h : BzUint256} {i : UInt32}
    (members : ∀ item ∈ own, item ∈ items) (unspent : lastSpender items h i = none) :
    lastSpender own h i = none := by
  rw [lastSpender_eq_none] at unspent ⊢
  intro item member
  exact unspent item (members item member)

/-- The spender of an output is read back. -/
theorem spender_of_known {s : Store} {l : Ledger} {h : BzUint256} {start : UInt64}
    {nTxout i : UInt32} {spender : UInt32 → Option UInt64} (lay : Layout s l) (rec : Recorded s l)
    (known : l h = some (.tx start nTxout spender)) (inside : i < nTxout) {v : UInt64}
    (spent : spender i = some v) : s.spender h i = (some v).filter (· ≠ 0) := by
  rcases lay.tx_cases known with fresh | ⟨word, pos, -, slots⟩
  · rw [rec.fresh known fresh i] at spent
    cases spent
  · exact rec.spender_some slots inside spent

namespace PerformedAgain

variable {items own : List Item} {contents : Nat → UInt8} {l l' : Ledger} {s s' : Store}
  {hash : BzUint256} {position : Nat} {nTxout i : UInt32} {inputs : List Outpoint}

theorem index (again : PerformedAgain items own contents l s l' s')
    (member : .tx hash position nTxout inputs ∈ items) {v : Nat}
    (spent : lastSpender items hash i = some v) : i < nTxout := by
  obtain ⟨_, _, _, member', inside⟩ := again.earlier.lastSpender_some spent
  cases item_unique again.distinct member member' rfl
  exact inside

theorem before (again : PerformedAgain items own contents l s l' s')
    (member : .tx hash position nTxout inputs ∈ items) {v : Nat}
    (spent : lastSpender items hash i = some v) :
    s.spender hash i = (some (UInt64.ofNat v)).filter (· ≠ 0) :=
  spender_of_known again.lay again.recorded (again.tells.tx member) (again.index member spent)
    (congrArg (Option.map UInt64.ofNat) spent)

theorem spent (again : PerformedAgain items own contents l s l' s')
    (member : .tx hash position nTxout inputs ∈ items) {v : Nat}
    (spent : lastSpender own hash i = some v) :
    s'.spender hash i = (some (UInt64.ofNat v)).filter (· ≠ 0) := by
  have inside : i < nTxout := by
    cases known : lastSpender items hash i with
    | none =>
      rw [lastSpender_none_of_mem again.members known] at spent
      cases spent
    | some w => exact again.index member known
  have recorded : respendAll own (lastSpender items) hash i = some v := by
    rw [again.spenders, spent, Option.some_or]
  exact spender_of_known again.lay' again.recorded' (again.lists.tx member) inside
    (congrArg (Option.map UInt64.ofNat) recorded)

theorem kept (again : PerformedAgain items own contents l s l' s')
    (member : .tx hash position nTxout inputs ∈ items) (absent : hash ∉ own.map Item.hash)
    (inside : i < nTxout) (unspent : lastSpender own hash i = none) :
    s'.spender hash i = s.spender hash i := by
  have known := again.tells.tx member
  rcases again.lay.tx_cases known with fresh | ⟨word, pos, -, slots⟩
  · rw [Store.spender_fresh fresh]
    rcases again.lay'.tx_cases (again.lists.tx member) with fresh' | ⟨word, pos, -, slots⟩
    · exact Store.spender_fresh fresh' i
    · obtain ⟨j, v, spent⟩ := again.used'.spent slots
      have nobody := again.recorded.fresh known fresh j
      rw [Option.map_eq_none_iff] at nobody
      rw [again.spenders, lastSpender_none_of_mem again.members nobody, if_neg absent,
        nobody] at spent
      cases spent
  · exact again.elsewhere slots absent i inside unspent

theorem forgotten (again : PerformedAgain items own contents l s l' s')
    (member : .tx hash position nTxout inputs ∈ own) (inside : i < nTxout)
    (unspent : lastSpender own hash i = none)
    (clear : i.toNat < 8 ∨ (∀ j, lastSpender own hash j = none) ∨
      ∀ k, 8 ≤ k → k < 4096 → contents k = 0) : s'.spender hash i = none := by
  have inOwn : hash ∈ own.map Item.hash := List.mem_map.mpr ⟨_, member, rfl⟩
  have nobody : ∀ j, lastSpender own hash j = none →
      (respendAll own (lastSpender items) hash j).map UInt64.ofNat = none := by
    intro j unspent
    rw [again.spenders, unspent, if_pos inOwn]
    rfl
  rcases again.lay'.tx_cases (again.lists.tx (again.members _ member)) with
    fresh | ⟨word, pos, -, slots⟩
  · exact Store.spender_fresh fresh i
  · rcases clear with small | none | zero
    · exact again.recorded'.spender_none slots inside (nobody i unspent) (Or.inl small)
    · obtain ⟨j, v, spent⟩ := again.used'.spent slots
      rw [nobody j (none j)] at spent
      cases spent
    · exact again.recorded'.spender_none slots inside (nobody i unspent)
        (Or.inr (again.blank' zero))

theorem spenders_after (again : PerformedAgain items own contents l s l' s') :
    ReAdded items own contents s s' where
  before member _ _ spent := again.before member spent
  spent member _ _ spent := again.spent member spent
  kept member absent _ inside unspent := again.kept member absent inside unspent
  forgotten member _ inside unspent clear := again.forgotten member inside unspent clear

end PerformedAgain

section Reached

variable {ι : Type} [InvEngine ι] [LawfulInvEngine ι] {sha256 : List UInt8 → BzUint256}
  {contents : Nat → UInt8} {hnd hnd' : BzingHandle ι}

/-- Adding one of the blocks of a chain again, on a handle to which the blocks of the chain have
been added one after the other (`reachable_added`). -/
theorem readded {chain : List AddedBlock} {added : AddedBlock} {file : List UInt8}
    {blkNo : UInt32} {data maxLen : UInt64} {report : BlockAdded}
    (order : InChainOrder sha256 chain) (member : added ∈ chain)
    (reach : Reachable sha256 contents hnd (chain.flatMap (AddedBlock.ops sha256)))
    (small : file.length < 2 ^ 64) (at' : At file data 0 added.block.serialise)
    (run : (bzingBlockAdd sha256 file indexHandler blkNo added.outerOffset data maxLen).run hnd =
      .ok (report, hnd'))
    (le : hnd'.spentLen ≤ bzTxiSpentMax) :
    ReAdded (chainItems sha256 chain) (added.items sha256) contents hnd.store hnd'.store := by
  obtain ⟨chain1, chain2, cut⟩ := List.append_of_mem member
  have split : chainItems sha256 chain =
      chainItems sha256 chain1 ++ added.items sha256 ++ chainItems sha256 chain2 := by
    rw [cut, chainItems, List.flatMap_append, List.flatMap_cons, List.append_assoc]
    rfl
  have members : ∀ item ∈ added.items sha256, item ∈ chainItems sha256 chain :=
    fun item inBlock => List.mem_flatMap.mpr ⟨added, member, inBlock⟩
  have outputs : ∀ item ∈ added.items sha256, ∀ outpoint ∈ item.inputs,
      IsOutput (chainItems sha256 chain) outpoint :=
    fun item inBlock => order.inputs.isOutput (members item inBlock)
  have tells := order.tells
  have allows := tells.lists.allows order.distinct members outputs
  have honest := Ledger.along_append.mpr ⟨order.allows, allows⟩
  have reach' := reachable_added reach small at' run
  have performed := perform_store_ok (bzingBlockAdd_returned small at' run).2
  change (perform storeHandler ((added.ops sha256).map LedgerOp.indexOp)).run _ = _ at performed
  change Reachable sha256 contents hnd' (_ ++ added.ops sha256) at reach'
  rw [← added.items_ops] at performed reach'
  have cap := reachable_capacity reach
  have le' := UInt64.le_iff_toNat_le.mp le
  have before : hnd.spentLen ≤ bzTxiSpentMax :=
    UInt64.le_iff_toNat_le.mpr (Nat.le_trans (capacity_perform cap performed).2 le')
  have lay := reachable_layout reach before
  obtain ⟨recorded, -, -⟩ := reachable_recorded reach order.allows before
  obtain ⟨recorded', used', blank'⟩ := reachable_recorded reach' honest le
  rw [Ledger.steps_append] at recorded' used' blank'
  exact PerformedAgain.spenders_after
    { distinct := order.distinct, earlier := order.inputs, members, tells, lay, recorded,
      recorded', used', blank', lists := tells.lists.steps order.distinct members outputs,
      spenders := respendAll_eq (split ▸ order.distinct) (split ▸ order.inputs),
      lay' := layout_perform cap lay performed le',
      elsewhere := fun slots absent i inside unspent =>
        (spender_perform cap lay slots inside (elsewhere_items allows absent unspent) performed
          le').spender }

end Reached

/-- The sample blocks. -/
def sampleAdded : List AddedBlock := [⟨blockFirst, 8⟩, ⟨blockSecond, 144⟩]

set_option maxRecDepth 100000 in
theorem sampleAdded_order : InChainOrder sampleSha256 sampleAdded where
  distinct := by decide +kernel
  inputs := by decide +kernel

/-- The second output of the first transaction is spent, and no longer so when the first block
has been added again. -/
def spentThenLost (s : Store) : Bool :=
  s.spender hashTwo 1 = some 235 &&
    ((perform storeHandler ((blockFirst.ops sampleSha256 8).map LedgerOp.indexOp)).run
      s).toOption.any fun r => r.2.spent.spentLen = 3 && r.2.spender hashTwo 1 = none

set_option maxRecDepth 100000 in
theorem sampleCalls_lost :
    ((perform storeHandler
        ((sampleCalls.flatMap (Call.ops sampleSha256)).map LedgerOp.indexOp)).run
      (Store.alloc fun _ => 0)).toOption.any (fun r => spentThenLost r.2) = true := by
  decide +kernel

theorem blockFirst_at : At blockFirst.serialise 0 0 blockFirst.serialise := by
  have short := (sampleCalls_short _ List.mem_cons_self).1
  simpa only [List.append_nil] using at_zero blockFirst.serialise [] short

/-- The handle with both blocks, and what adding the first again makes of it. -/
theorem sampleAdded_again :
    ∃ hnd hnd' : BzingHandle IdealIndex,
      Reachable sampleSha256 (fun _ => 0) hnd (sampleAdded.flatMap (AddedBlock.ops sampleSha256)) ∧
      (bzingBlockAdd sampleSha256 blockFirst.serialise indexHandler 0 8 0 0).run hnd =
        .ok (blockFirst.report sampleSha256, hnd') ∧ hnd'.spentLen ≤ bzTxiSpentMax ∧
      hnd.store.spender hashTwo 1 = some 235 ∧ hnd'.store.spender hashTwo 1 = none := by
  obtain ⟨hnd, reach, lost⟩ := reachable_of_returns (ι := IdealIndex) sampleCalls_short
    (p := spentThenLost) sampleCalls_lost
  simp only [spentThenLost, Bool.and_eq_true, decide_eq_true_eq] at lost
  obtain ⟨was, lost⟩ := lost
  have short := sampleCalls_short _ List.mem_cons_self
  obtain ⟨hnd', run, after⟩ := blockAdd_of_returns 0 blockFirst_at short.2
    (p := fun s => s.spent.spentLen = 3 && s.spender hashTwo 1 = none) lost
  simp only [Bool.and_eq_true, decide_eq_true_eq] at after
  have len : hnd'.spentLen = 3 := after.1
  refine ⟨hnd, hnd', reach, run, ?_, was, after.2⟩
  rw [len]
  decide

set_option maxRecDepth 100000 in
theorem readded_blockFirst :
    ∃ hnd hnd' : BzingHandle IdealIndex,
      (bzingBlockAdd sampleSha256 blockFirst.serialise indexHandler 0 8 0 0).run hnd =
        .ok (blockFirst.report sampleSha256, hnd') ∧
      ReAdded (chainItems sampleSha256 sampleAdded) (AddedBlock.items sampleSha256 ⟨blockFirst, 8⟩)
        (fun _ => 0) hnd.store hnd'.store := by
  obtain ⟨hnd, hnd', reach, run, le, -⟩ := sampleAdded_again
  obtain ⟨short, -⟩ := sampleCalls_short _ List.mem_cons_self
  exact ⟨hnd, hnd', run, readded sampleAdded_order List.mem_cons_self reach short blockFirst_at run le⟩

set_option maxRecDepth 100000 in
/-- The spend by the second block is lost. -/
theorem not_losesNothing_blockFirst :
    ∃ (hnd hnd' : BzingHandle IdealIndex) (report : BlockAdded),
      InChainOrder sampleSha256 sampleAdded ∧
      Reachable sampleSha256 (fun _ => 0) hnd (sampleAdded.flatMap (AddedBlock.ops sampleSha256)) ∧
      (bzingBlockAdd sampleSha256 blockFirst.serialise indexHandler 0 8 0 0).run hnd =
        .ok (report, hnd') ∧ hnd'.spentLen ≤ bzTxiSpentMax ∧
      ¬ LosesNothing (chainItems sampleSha256 sampleAdded) hnd.store hnd'.store := by
  obtain ⟨hnd, hnd', reach, run, le, was, lost⟩ := sampleAdded_again
  refine ⟨hnd, hnd', _, sampleAdded_order, reach, run, le, ?_⟩
  intro same
  have member : .tx hashTwo 89 2 [] ∈ chainItems sampleSha256 sampleAdded := by decide +kernel
  have kept := same member 1 (by decide)
  rw [was, lost] at kept
  cases kept

end Bzing
