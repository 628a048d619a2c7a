import Bzing.Block.Sample
import Bzing.Block.Decode
import Bzing.Spent.Refinement

/-!
# Reachable handles

A handle is reachable when it comes from `bzing_alloc` by calls of `bzing_block_add` on any
data and calls of `bzing_spent_mark` on any outpoint that return. The history of its ledger
operations comes with it: those a block addition performs do not depend on the handle
(`bzingBlockAdd_scripted`), and a run of calls is one run of all of them
(`reachable_perform`). So what every operation keeps holds of every reachable handle.
-/

namespace Bzing

open Handler

variable {ι : Type} [InvEngine ι]

/-- The handle is reached by block additions and marks, which performed `history`. -/
inductive Reachable (sha256 : List UInt8 → BzUint256) (contents : Nat → UInt8) :
    BzingHandle ι → List LedgerOp → Prop where
  | alloc : Reachable sha256 contents (bzingAlloc ι contents) []
  | blockAdd {hnd hnd' : BzingHandle ι} {history ops : List LedgerOp} {added : BlockAdded}
      (file : List UInt8) (blkNo : UInt32) (outerOffset data maxLen : UInt64)
      (before : Reachable sha256 contents hnd history)
      (run : (bzingBlockAdd sha256 file indexHandler blkNo outerOffset data maxLen).run hnd =
        .ok (added, hnd'))
      (performed : script (fun _ h => bzingBlockAdd sha256 file h blkNo outerOffset data maxLen) =
        .ok (added, ops.map LedgerOp.indexOp)) :
      Reachable sha256 contents hnd' (history ++ ops)
  | mark {hnd hnd' : BzingHandle ι} {history : List LedgerOp} {ret : UInt64}
      (outpoint : Outpoint) (offset : UInt64) (before : Reachable sha256 contents hnd history)
      (run : bzingSpentMark hnd outpoint offset = .ok (ret, hnd')) :
      Reachable sha256 contents hnd' (history ++ [.spend outpoint offset])

section Runs

variable {sha256 : List UInt8 → BzUint256} {contents : Nat → UInt8} {hnd hnd' : BzingHandle ι}
  {history : List LedgerOp}

/-- The operations of a block addition are carried out on the handle. -/
theorem perform_of_blockAdd {file : List UInt8} {blkNo : UInt32}
    {outerOffset data maxLen : UInt64} {added : BlockAdded} {ops : List IndexOp}
    (run : (bzingBlockAdd sha256 file indexHandler blkNo outerOffset data maxLen).run hnd =
      .ok (added, hnd'))
    (performed : script (fun _ h => bzingBlockAdd sha256 file h blkNo outerOffset data maxLen) =
      .ok (added, ops)) :
    (perform indexHandler ops).run hnd = .ok ((), hnd') := by
  obtain ⟨-, same⟩ :=
    (bzingBlockAdd_scripted sha256 file blkNo outerOffset data maxLen).eq_of_script performed
  rw [same] at run
  obtain ⟨_, hnd1, first, returned⟩ := run_bind_ok.mp run
  obtain ⟨-, rfl⟩ := run_pure_ok.mp returned
  exact first

theorem perform_snoc {ops : List LedgerOp} {start : BzingHandle ι}
    (first : (perform indexHandler (history.map LedgerOp.indexOp)).run start = .ok ((), hnd))
    (rest : (perform indexHandler (ops.map LedgerOp.indexOp)).run hnd = .ok ((), hnd')) :
    (perform indexHandler ((history ++ ops).map LedgerOp.indexOp)).run start =
      .ok ((), hnd') := by
  rw [List.map_append]
  exact perform_append_ok.mpr ⟨hnd, first, rest⟩

theorem perform_mark {outpoint : Outpoint} {offset ret : UInt64}
    (marked : bzingSpentMark hnd outpoint offset = .ok (ret, hnd')) :
    (perform indexHandler ([LedgerOp.spend outpoint offset].map LedgerOp.indexOp)).run hnd =
      .ok ((), hnd') := by
  rw [List.map_singleton, perform_singleton]
  change (bzingSpentMark hnd outpoint offset).map _ = _
  rw [marked]
  rfl

/-- A reachable handle is what its history makes of a fresh one. -/
theorem reachable_perform (reach : Reachable sha256 contents hnd history) :
    (perform indexHandler (history.map LedgerOp.indexOp)).run (bzingAlloc ι contents) =
      .ok ((), hnd) := by
  induction reach with
  | alloc => rfl
  | blockAdd file blkNo outerOffset data maxLen before run performed ih =>
    exact perform_snoc ih (perform_of_blockAdd run performed)
  | mark outpoint offset before run ih => exact perform_snoc ih (perform_mark run)

/-- The handles at the ends of a part of the history. -/
theorem reachable_split {front mid back : List LedgerOp}
    (reach : Reachable sha256 contents hnd (front ++ mid ++ back)) :
    ∃ before after : BzingHandle ι,
      (perform indexHandler (front.map LedgerOp.indexOp)).run (bzingAlloc ι contents) =
        .ok ((), before) ∧
      (perform indexHandler (mid.map LedgerOp.indexOp)).run before = .ok ((), after) ∧
      (perform indexHandler (back.map LedgerOp.indexOp)).run after = .ok ((), hnd) := by
  have run := reachable_perform reach
  rw [List.map_append, List.map_append] at run
  obtain ⟨after, run, last⟩ := perform_append_ok.mp run
  obtain ⟨before, first, second⟩ := perform_append_ok.mp run
  exact ⟨before, after, first, second, last⟩

/-- The script of adding a well-formed block. -/
theorem script_block {block : Block} {file : List UInt8} {data : UInt64} (blkNo : UInt32)
    (outerOffset maxLen : UInt64) (at' : At file data 0 block.serialise)
    (room : treeSize block.txs.length < 2 ^ 31) :
    script (fun _ h => bzingBlockAdd sha256 file h blkNo outerOffset data maxLen) =
      .ok (block.report sha256, (block.ops sha256 outerOffset).map LedgerOp.indexOp) := by
  exact bzingBlockAdd_returns at' room (perform_recorder _ [])

/-- A well-formed block whose operations return is a block addition that returns. -/
theorem reachable_block {block : Block} {file : List UInt8} {outerOffset data : UInt64}
    (before : Reachable sha256 contents hnd history) (at' : At file data 0 block.serialise)
    (room : treeSize block.txs.length < 2 ^ 31)
    (run : (perform indexHandler ((block.ops sha256 outerOffset).map LedgerOp.indexOp)).run hnd =
      .ok ((), hnd')) :
    Reachable sha256 contents hnd' (history ++ block.ops sha256 outerOffset) := by
  exact .blockAdd file 0 outerOffset data 0 before (bzingBlockAdd_returns at' room run)
    (script_block 0 outerOffset 0 at' room)

/-- The history of adding a well-formed block, wherever it stands. -/
theorem reachable_added {block : Block} {file : List UInt8} {blkNo : UInt32}
    {outerOffset data maxLen : UInt64} {added : BlockAdded}
    (before : Reachable sha256 contents hnd history) (small : file.length < 2 ^ 64)
    (at' : At file data 0 block.serialise)
    (run : (bzingBlockAdd sha256 file indexHandler blkNo outerOffset data maxLen).run hnd =
      .ok (added, hnd')) :
    Reachable sha256 contents hnd' (history ++ block.ops sha256 outerOffset) := by
  obtain ⟨rfl, -⟩ := bzingBlockAdd_returned small at' run
  exact .blockAdd file blkNo outerOffset data maxLen before run
    (script_block blkNo outerOffset maxLen at' (treeSize_of_run small at' run))

end Runs

section Invariants

variable [LawfulInvEngine ι] {sha256 : List UInt8 → BzUint256} {contents : Nat → UInt8}
  {hnd hnd' : BzingHandle ι} {history : List LedgerOp}

/-- Performing operations on a fresh handle, on its store. -/
theorem perform_alloc_store {ops : List IndexOp}
    (run : (perform indexHandler ops).run (bzingAlloc ι contents) = .ok ((), hnd)) :
    (perform storeHandler ops).run (Store.alloc contents) = .ok ((), hnd.store) := by
  rw [← bzingAlloc_store (ι := ι)]
  exact perform_store_ok run

theorem capacity_store_alloc (contents : Nat → UInt8) : Capacity (Store.alloc contents).spent :=
  capacity_alloc contents

theorem perform_alloc_capacity {ops : List LedgerOp}
    (run : (perform indexHandler (ops.map LedgerOp.indexOp)).run (bzingAlloc ι contents) =
      .ok ((), hnd)) : Capacity hnd.store.spent := by
  have start := capacity_store_alloc contents
  have run := perform_alloc_store run
  generalize Store.alloc contents = fresh at start run
  exact (capacity_perform start run).1

theorem perform_alloc_layout {ops : List LedgerOp}
    (run : (perform indexHandler (ops.map LedgerOp.indexOp)).run (bzingAlloc ι contents) =
      .ok ((), hnd)) (le : hnd.spentLen.toNat ≤ bzTxiSpentMax.toNat) :
    Layout hnd.store (Ledger.empty.steps ops) := by
  have start := capacity_store_alloc contents
  have lay := layout_alloc contents
  have run := perform_alloc_store run
  generalize Store.alloc contents = fresh at start lay run
  exact layout_perform start lay run le

theorem reachable_capacity (reach : Reachable sha256 contents hnd history) :
    Capacity hnd.store.spent := perform_alloc_capacity (reachable_perform reach)

theorem reachable_layout (reach : Reachable sha256 contents hnd history)
    (le : hnd.spentLen ≤ bzTxiSpentMax) : Layout hnd.store (Ledger.empty.steps history) :=
  perform_alloc_layout (reachable_perform reach) (UInt64.le_iff_toNat_le.mp le)

/-- When only existing outputs are spent, the slots of a reachable handle say what its ledger
says, only transactions with a spent output have slots, and on a zeroed first block the slots of
the others are zero. -/
theorem reachable_recorded (reach : Reachable sha256 contents hnd history)
    (honest : Ledger.empty.Along Ledger.Allows history) (le : hnd.spentLen ≤ bzTxiSpentMax) :
    Recorded hnd.store (Ledger.empty.steps history) ∧
    SlotsUsed hnd.store (Ledger.empty.steps history) ∧
    ((∀ i, 8 ≤ i → i < 4096 → contents i = 0) →
      Blank hnd.store (Ledger.empty.steps history)) := by
  have le := UInt64.le_iff_toNat_le.mp le
  have run := perform_alloc_store (reachable_perform reach)
  have cap := capacity_store_alloc contents
  have lay := layout_alloc contents
  have recorded := recorded_alloc contents
  have used := slotsUsed_alloc contents
  have blank := @blank_alloc contents
  generalize Store.alloc contents = fresh at run cap lay recorded used blank
  exact ⟨recorded_perform cap lay recorded honest run le,
    slotsUsed_perform cap lay used honest run le,
    fun zero => blank_perform cap lay (blank zero) honest run le⟩

/-- Further operations on a reachable handle keep its layout. -/
theorem layout_extend {ops : List LedgerOp} (reach : Reachable sha256 contents hnd history)
    (run : (perform indexHandler (ops.map LedgerOp.indexOp)).run hnd = .ok ((), hnd'))
    (le : hnd'.spentLen ≤ bzTxiSpentMax) :
    Capacity hnd'.store.spent ∧ Layout hnd'.store (Ledger.empty.steps (history ++ ops)) := by
  have performed := perform_store_ok run
  have cap := reachable_capacity reach
  obtain ⟨cap', grows⟩ := capacity_perform cap performed
  have le := UInt64.le_iff_toNat_le.mp le
  rw [Ledger.steps_append]
  exact ⟨cap', layout_perform cap
    (reachable_layout reach (UInt64.le_iff_toNat_le.mpr (Nat.le_trans grows le))) performed le⟩

/-- A well-formed block can be added when its operations return on the store. -/
theorem reachable_block_store {block : Block} {outerOffset : UInt64} {s : Store}
    (before : Reachable sha256 contents hnd history) (short : block.serialise.length < 2 ^ 64)
    (room : treeSize block.txs.length < 2 ^ 31)
    (run : (perform storeHandler ((block.ops sha256 outerOffset).map LedgerOp.indexOp)).run
      hnd.store = .ok ((), s)) :
    ∃ hnd' : BzingHandle ι, hnd'.store = s ∧
      Reachable sha256 contents hnd' (history ++ block.ops sha256 outerOffset) := by
  obtain ⟨hnd', run, same⟩ := perform_of_store run
  exact ⟨hnd', same, reachable_block before (at_zero block.serialise [] short) room run⟩

theorem reachable_mark_store {outpoint : Outpoint} {offset ret : UInt64} {s : Store}
    (before : Reachable sha256 contents hnd history)
    (marked : hnd.store.mark outpoint offset = .ok (ret, s)) :
    ∃ hnd' : BzingHandle ι, hnd'.store = s ∧
      bzingSpentMark hnd outpoint offset = .ok (ret, hnd') ∧
      Reachable sha256 contents hnd' (history ++ [.spend outpoint offset]) := by
  have square := bzingSpentMark_store hnd outpoint offset
  rw [marked] at square
  cases run : bzingSpentMark hnd outpoint offset with
  | error e =>
    rw [run] at square
    cases square
  | ok r =>
    rw [run] at square
    cases square
    exact ⟨r.2, rfl, rfl, .mark outpoint offset before run⟩

/-- A call on a handle with well-formed data. -/
inductive Call where
  | blockAdd (block : Block) (outerOffset : UInt64)
  | spentMark (outpoint : Outpoint) (offset : UInt64)

namespace Call

def ops (sha256 : List UInt8 → BzUint256) : Call → List LedgerOp
  | blockAdd block outerOffset => block.ops sha256 outerOffset
  | spentMark outpoint offset => [.spend outpoint offset]

/-- The block of the call is short enough for its cursors. -/
def Short : Call → Prop
  | blockAdd block _ => block.serialise.length < 2 ^ 64 ∧ treeSize block.txs.length < 2 ^ 31
  | spentMark _ _ => True

theorem short_blockAdd {block : Block} {outerOffset : UInt64}
    (short : block.serialise.length < 2 ^ 64) (few : block.txs.length ≤ 2 ^ 29) :
    (blockAdd block outerOffset).Short := by
  have nodes := treeSize_lt _ 29 few
  exact ⟨short, by omega⟩

end Call

theorem reachable_call {call : Call} {s : Store} (before : Reachable sha256 contents hnd history)
    (short : call.Short)
    (run : (perform storeHandler ((call.ops sha256).map LedgerOp.indexOp)).run hnd.store =
      .ok ((), s)) :
    ∃ hnd' : BzingHandle ι, hnd'.store = s ∧
      Reachable sha256 contents hnd' (history ++ call.ops sha256) := by
  cases call with
  | blockAdd block outerOffset => exact reachable_block_store before short.1 short.2 run
  | spentMark outpoint offset =>
    rw [Call.ops, List.map_singleton, perform_singleton] at run
    rcases storeHandler_ok run with ⟨hash, inv, eq, -⟩ | ⟨p, o, ret, eq, marked⟩
    · cases eq
    · cases eq
      obtain ⟨hnd', same, -, reach⟩ := reachable_mark_store before marked
      exact ⟨hnd', same, reach⟩

/-- Calls whose operations return on a fresh store reach a handle. -/
theorem reachable_calls {calls : List Call} (short : ∀ call ∈ calls, call.Short) {s : Store}
    (before : Reachable sha256 contents hnd history)
    (run : (perform storeHandler ((calls.flatMap (Call.ops sha256)).map LedgerOp.indexOp)).run
      hnd.store = .ok ((), s)) :
    ∃ hnd' : BzingHandle ι, hnd'.store = s ∧
      Reachable sha256 contents hnd' (history ++ calls.flatMap (Call.ops sha256)) := by
  induction calls generalizing hnd history with
  | nil =>
    obtain ⟨-, same⟩ := run_pure_ok.mp run
    exact ⟨hnd, same, by simpa using before⟩
  | cons call calls ih =>
    rw [List.flatMap_cons, List.map_append] at run
    obtain ⟨s1, first, rest⟩ := perform_append_ok.mp run
    obtain ⟨hnd1, rfl, reach⟩ := reachable_call before (short call List.mem_cons_self) first
    obtain ⟨hnd', same, reach'⟩ :=
      ih (fun c member => short c (List.mem_cons_of_mem _ member)) reach rest
    exact ⟨hnd', same, by simpa using reach'⟩

/-- What calls on a fresh handle leave behind, read off the store they leave. -/
theorem reachable_of_returns {calls : List Call} (short : ∀ call ∈ calls, call.Short)
    {p : Store → Bool}
    (returns : ((perform storeHandler
        ((calls.flatMap (Call.ops sha256)).map LedgerOp.indexOp)).run
      (Store.alloc contents)).toOption.any (fun r => p r.2) = true) :
    ∃ hnd : BzingHandle ι, Reachable sha256 contents hnd (calls.flatMap (Call.ops sha256)) ∧
      p hnd.store = true := by
  rw [← bzingAlloc_store (ι := ι)] at returns
  obtain ⟨r, run, holds⟩ := ok_of_any returns
  obtain ⟨hnd, same, reach⟩ := reachable_calls short .alloc run
  exact ⟨hnd, reach, same ▸ holds⟩

/-- Adding a block whose operations return on the store, and what it leaves. -/
theorem blockAdd_of_returns {block : Block} {file : List UInt8} {outerOffset data : UInt64}
    (blkNo : UInt32) (at' : At file data 0 block.serialise)
    (room : treeSize block.txs.length < 2 ^ 31) {p : Store → Bool}
    (returns : ((perform storeHandler
        ((block.ops sha256 outerOffset).map LedgerOp.indexOp)).run
      hnd.store).toOption.any (fun r => p r.2) = true) :
    ∃ hnd', (bzingBlockAdd sha256 file indexHandler blkNo outerOffset data 0).run hnd =
        .ok (block.report sha256, hnd') ∧ p hnd'.store = true := by
  obtain ⟨r, run, holds⟩ := ok_of_any returns
  obtain ⟨hnd', performed, same⟩ := perform_of_store run
  exact ⟨hnd', bzingBlockAdd_returns at' room performed, same ▸ holds⟩

end Invariants

end Bzing
