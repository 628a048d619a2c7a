import Bzing.Chain.Words

/-!
# Rejected blocks

`bzing_block_add` compares the Merkle root after it has performed the block's operations, and
what it does about a wrong root, or about a mark that returns zero, is left open
(`bzing.c:599-608`, `723-730`). Nothing is taken back: the handle is the one all operations
lead to, whatever the verdict. Only a refused mark leaves no trace of its own.
-/

namespace Bzing

open Handler

theorem insertTx_mem_txOps (sha256 : List UInt8 → BzUint256) (outerOffset : UInt64) {tx : Tx}
    {txs : List Tx} (member : tx ∈ txs) (i start : Nat) :
    ∃ offset, .insertTx (tx.hash sha256) offset tx.nTxout ∈
      txOps sha256 outerOffset i start txs := by
  induction txs generalizing i start with
  | nil => cases member
  | cons first txs ih =>
    rw [txOps]
    rcases List.mem_cons.mp member with rfl | member
    · exact ⟨_, List.mem_append_right _ List.mem_cons_self⟩
    · obtain ⟨offset, later⟩ := ih member (i + 1) (start + first.serialise.length)
      exact ⟨offset, List.mem_append_right _ (List.mem_cons_of_mem _ later)⟩

/-- The hashes of a block and of its transactions. -/
def Block.hashes (sha256 : List UInt8 → BzUint256) (block : Block) : List BzUint256 :=
  block.hash sha256 :: block.txs.map (Tx.hash sha256)

theorem inserts_of_mem_hashes {sha256 : List UInt8 → BzUint256} {block : Block}
    (outerOffset : UInt64) {hash : BzUint256} (member : hash ∈ block.hashes sha256) :
    ∃ op ∈ block.ops sha256 outerOffset, op.Inserts hash := by
  rcases List.mem_cons.mp member with rfl | member
  · exact ⟨_, List.mem_cons_self, rfl⟩
  · obtain ⟨tx, inBlock, rfl⟩ := List.mem_map.mp member
    obtain ⟨offset, inserted⟩ := insertTx_mem_txOps sha256 outerOffset inBlock 0
      (80 + (putVarInt block.txs.length).length)
    exact ⟨_, List.mem_cons_of_mem _ inserted, rfl⟩

/-- A mark that returns zero was refused. -/
theorem Placed.refused_of_zero {s s' : Store} {l : Ledger} {outpoint : Outpoint}
    {offset ret : UInt64} (placed : Placed s l outpoint offset ret s') (zero : ret = 0) :
    s' = s := by
  have nonzero : ∀ {word pos : UInt64}, IsAllocated word pos.toNat →
      (pos + outpoint.index.toUInt64) * 8 ≠ 0 := by
    intro word pos allocated none
    have value := congrArg UInt64.toNat none
    have index := outpoint.index.toNat_lt
    have ge := allocated.pos_ge
    have le := allocated.pos_le
    have limit : bzTxiSpentMax.toNat = 0x00fffffeffffffff := by decide
    rw [toNat_spentOffset, slotIndex_of_le le] at value
    change 8 * (pos.toNat + outpoint.index.toNat) = 0 at value
    omega
  cases placed with
  | refused nothing => rfl
  | first known entry reserved allocated slot find => exact absurd zero (nonzero allocated)
  | again known entry allocated slot find => exact absurd zero (nonzero allocated)

section Reached

variable {ι : Type} [InvEngine ι] [LawfulInvEngine ι] {sha256 : List UInt8 → BzUint256}
  {contents : Nat → UInt8} {hnd hnd' : BzingHandle ι} {history : List LedgerOp}

/-- Adding a well-formed block, valid or not, performs all its operations: its entry and those
of its transactions are there afterwards, and only a mark that returns zero changed nothing. -/
theorem rejected_stays {file : List UInt8} {block : Block} {blkNo : UInt32}
    {outerOffset data maxLen : UInt64} {added : BlockAdded}
    (reach : Reachable sha256 contents hnd history) (small : file.length < 2 ^ 64)
    (at' : At file data 0 block.serialise)
    (run : (bzingBlockAdd sha256 file indexHandler blkNo outerOffset data maxLen).run hnd =
      .ok (added, hnd')) (le : hnd'.spentLen ≤ bzTxiSpentMax) :
    added = block.report sha256 ∧
    (perform indexHandler ((block.ops sha256 outerOffset).map LedgerOp.indexOp)).run hnd =
      .ok ((), hnd') ∧
    (∀ hash ∈ block.hashes sha256, (hnd'.store.find hash).isSome) ∧
    ∀ front outpoint offset back,
      block.ops sha256 outerOffset = front ++ .spend outpoint offset :: back →
      ∃ before ret after,
        (perform indexHandler (front.map LedgerOp.indexOp)).run hnd = .ok ((), before) ∧
        bzingSpentMark before outpoint offset = .ok (ret, after) ∧
        (ret = 0 → after.store = before.store) := by
  obtain ⟨report, performed⟩ := bzingBlockAdd_returned small at' run
  have reach' := reachable_block reach at' (treeSize_of_run small at' run) performed
  refine ⟨report, performed, ?_, ?_⟩
  · intro hash member
    obtain ⟨op, inOps, inserts⟩ := inserts_of_mem_hashes outerOffset member
    rw [(reachable_layout reach' le).isSome_find_iff]
    exact Ledger.isSome_steps (Or.inr ⟨op, List.mem_append_right _ inOps, inserts⟩)
  · intro front outpoint offset back split
    rw [split, List.map_append] at performed
    obtain ⟨before, first, rest⟩ := perform_append_ok.mp performed
    obtain ⟨_, after, mark, last⟩ := run_bind_ok.mp rest
    obtain ⟨ret, marked⟩ := indexHandler_mark_ok mark
    have ok := bzingSpentMark_store_ok marked
    have cap := (capacity_perform (reachable_capacity reach) (perform_store_ok first)).1
    obtain ⟨cap', grows⟩ := capacity_mark cap ok
    have low := Nat.le_trans (capacity_perform cap' (perform_store_ok last)).2
      (UInt64.le_iff_toNat_le.mp le)
    have lay := (layout_extend reach first
      (UInt64.le_iff_toNat_le.mpr (Nat.le_trans grows low))).2
    exact ⟨before, ret, after, first, marked, (mark_placed cap lay ok low).refused_of_zero⟩

end Reached

/-- The Merkle root of two transactions is their parent. -/
theorem root_pair {sha256 : List UInt8 → BzUint256} {block : Block} {left right : Tx}
    (txs : block.txs = [left, right]) :
    block.root sha256 = merkleNode sha256 (left.hash sha256) (right.hash sha256) := by
  unfold Block.root
  rw [txs, List.map_cons, List.map_cons, List.map_nil, merkleRoot, pairUp, pairUp, merkleRoot]

set_option maxRecDepth 100000 in
theorem blockSecond_invalid : (blockSecond.report sampleSha256).invalidMerkleRoot = true := by
  unfold Block.report
  rw [root_pair (show blockSecond.txs = [txNone, txSpend] from rfl)]
  decide +kernel

/-- The store after the first sample block, and what adding the second makes of it. -/
def rejectedAdded (s : Store) : Bool :=
  s.find (blockSecond.hash sampleSha256) = none && s.spent.spentLen = 1 &&
    (((perform storeHandler ((blockSecond.ops sampleSha256 144).map LedgerOp.indexOp)).run
      s).toOption.any fun r =>
        r.2.find (blockSecond.hash sampleSha256) = some ⟨224, uint64Max⟩ &&
          r.2.spent.spentLen = 3)

set_option maxRecDepth 100000 in
theorem rejectedAdded_returns :
    ((perform storeHandler
        (([Call.blockAdd blockFirst 8].flatMap (Call.ops sampleSha256)).map LedgerOp.indexOp)).run
      (Store.alloc fun _ => 0)).toOption.any (fun r => rejectedAdded r.2) = true := by
  decide +kernel

/-- A block whose root is wrong leaves its entry and the spend of its input behind. -/
theorem rejected_sample :
    ∃ (hnd hnd' : BzingHandle IdealIndex) (history : List LedgerOp) (added : BlockAdded),
      Reachable sampleSha256 (fun _ => 0) hnd history ∧
      (bzingBlockAdd sampleSha256 (blockSecond.serialise ++ []) indexHandler 2 144 0 0).run hnd =
        .ok (added, hnd') ∧
      added.invalidMerkleRoot = true ∧
      hnd.store.find (blockSecond.hash sampleSha256) = none ∧ hnd.spentLen = 1 ∧
      hnd'.store.find (blockSecond.hash sampleSha256) = some ⟨224, uint64Max⟩ ∧
      hnd'.spentLen = 3 := by
  have short : ∀ call ∈ [Call.blockAdd blockFirst 8], call.Short :=
    List.forall_mem_singleton.mpr (sampleCalls_short _ List.mem_cons_self)
  obtain ⟨hnd, reach, before⟩ := reachable_of_returns (ι := IdealIndex) short
    (p := rejectedAdded) rejectedAdded_returns
  simp only [rejectedAdded, Bool.and_eq_true, decide_eq_true_eq] at before
  obtain ⟨⟨absent, one⟩, added⟩ := before
  have short := sampleCalls_short (.blockAdd blockSecond 144)
    (List.mem_cons_of_mem _ List.mem_cons_self)
  obtain ⟨hnd', run, after⟩ := blockAdd_of_returns 2 (at_zero blockSecond.serialise [] short.1)
    short.2 (p := fun s => s.find (blockSecond.hash sampleSha256) = some ⟨224, uint64Max⟩ &&
      s.spent.spentLen = 3) added
  simp only [Bool.and_eq_true, decide_eq_true_eq] at after
  exact ⟨hnd, hnd', _, blockSecond.report sampleSha256, reach, run, blockSecond_invalid, absent,
    one, after.1, after.2⟩

/-- What is recorded of the rejected block. -/
theorem rejected_stays_sample :
    ∃ (hnd' : BzingHandle IdealIndex) (added : BlockAdded), added.invalidMerkleRoot = true ∧
      ∀ hash ∈ blockSecond.hashes sampleSha256, (hnd'.store.find hash).isSome := by
  obtain ⟨hnd, hnd', history, added, reach, run, invalid, -, -, -, three⟩ := rejected_sample
  have short := sampleCalls_short (.blockAdd blockSecond 144)
    (List.mem_cons_of_mem _ List.mem_cons_self)
  have at' := at_zero blockSecond.serialise [] short.1
  have le : hnd'.spentLen ≤ bzTxiSpentMax := by
    rw [three]
    decide
  exact ⟨hnd', added, invalid,
    (rejected_stays reach (by rw [List.append_nil]; exact short.1) at' run le).2.2.1⟩

/-- Adding a block whose root is wrong does not leave the handle as it was. -/
theorem rejected_not_atomic :
    ¬ ∀ (hnd hnd' : BzingHandle IdealIndex) (history : List LedgerOp) (file : List UInt8)
        (block : Block) (blkNo : UInt32) (outerOffset data maxLen : UInt64) (added : BlockAdded),
      Reachable sampleSha256 (fun _ => 0) hnd history → At file data 0 block.serialise →
      (bzingBlockAdd sampleSha256 file indexHandler blkNo outerOffset data maxLen).run hnd =
        .ok (added, hnd') →
      added.invalidMerkleRoot = true → hnd'.store = hnd.store := by
  intro atomic
  obtain ⟨hnd, hnd', history, added, reach, run, invalid, absent, -, present, -⟩ :=
    rejected_sample
  have short := sampleCalls_short (.blockAdd blockSecond 144)
    (List.mem_cons_of_mem _ List.mem_cons_self)
  have same := atomic hnd hnd' history _ blockSecond 2 144 0 0 added reach
    (at_zero blockSecond.serialise [] short.1) run invalid
  rw [same, absent] at present
  cases present

end Bzing
