import Bzing.Parser
import Bzing.Util
import Bzing.Spent.Ledger

/-!
# Adding blocks

`bzing_block_add` and `bzing_index_regen` (`bzing.c:657-753`), as programs over the index
operations they perform, so that one definition serves a handle of any engine, its store, and
a plain record of the operations. The cursor `offset` is relative to `data`, the position of
the block in the file; it is a 64-bit number that script lengths read from the file move
freely. `max_len` is taken and never used.

`bzingBlockAdd_scripted` is what makes the programs easy to reason about: nothing read from
the index flows back into them.
-/

namespace Bzing

open Handler

/-- What `bzing_block_add` reports: `*actual_len`, and whether it printed that the Merkle root
    is invalid. -/
structure BlockAdded where
  actualLen : UInt64
  invalidMerkleRoot : Bool
  deriving DecidableEq

/-- A call of `bzing_block_add` by `bzing_index_regen`. -/
structure BlockCall where
  blkNo : UInt32
  outerOffset : UInt64
  maxLen : UInt64
  added : BlockAdded
  deriving DecidableEq

section Add

variable (sha256 : List UInt8 → BzUint256) (file : List UInt8)

section Handled

variable {σ : Type} (h : Handler IndexOp σ Fault)

/-- The mark of one input (`bzing.c:691-693`); the first transaction of a block spends
    nothing. -/
def markInput (i : Nat) (pos spender : UInt64) : StateT σ (Except Fault) Unit :=
  if i = 0 then pure ()
  else do
    let outpoint ← readOutpoint file pos
    h (.mark outpoint spender)

/-- The inputs of a transaction (`bzing.c:690-698`): the offset behind them. -/
def parseInputs (data : UInt64) (i : Nat) (spender : UInt64) :
    Nat → UInt64 → StateT σ (Except Fault) UInt64
  | 0, offset => pure offset
  | nTxin + 1, offset => do
    markInput file h i (data + offset) spender
    let (scriptLen, offset) ← parseVarInt file data (offset + 36)
    parseInputs data i spender nTxin (offset + (scriptLen + 4))

/-- The outputs of a transaction (`bzing.c:706-711`): the offset behind them. -/
def parseOutputs (data : UInt64) : Nat → UInt64 → Except Fault UInt64
  | 0, offset => .ok offset
  | nTxout + 1, offset => do
    let (scriptLen, offset) ← parseVarInt file data (offset + 8)
    parseOutputs data nTxout (offset + scriptLen)

/-- Transaction `i` of a block (`bzing.c:682-721`), hashed into `tx_hashes[i]`: the offset
    behind it and its hash. -/
def parseTx (data outerOffset : UInt64) (capacity i : Nat) (txStart : UInt64) :
    StateT σ (Except Fault) (UInt64 × BzUint256) := do
  let (nTxin, offset) ← parseVarInt file data (txStart + 4)
  let offset ← parseInputs file h data i (outerOffset + txStart) nTxin.toNat offset
  -- that `n_txout` exceeds `UINT32_MAX` is tested without effect
  let (nTxout, offset) ← parseVarInt file data offset
  let offset ← parseOutputs file data nTxout.toNat offset
  let offset := offset + 4
  let bytes ← readBytes file (data + txStart) (offset - txStart).toNat
  let hash := doubleSha256 sha256 bytes
  if i < capacity then do
    h (.set hash ⟨outerOffset + txStart, bzTxiSpentUmark ||| (nTxout &&& bzTxiSpentUmask)⟩)
    pure (offset, hash)
  else throw .hashOutside

/-- The transactions of a block from `i` on (`bzing.c:682-721`): the offset behind them and
    all hashes so far. The loop counter is an `int`. -/
def parseTxs (data outerOffset : UInt64) (capacity : Nat) :
    Nat → Nat → UInt64 → List BzUint256 → StateT σ (Except Fault) (UInt64 × List BzUint256)
  | 0, _, offset, txHashes => pure (offset, txHashes)
  | nTx + 1, i, offset, txHashes => do
    let (offset, hash) ← parseTx sha256 file h data outerOffset capacity i offset
    checkInt (i + 1)
    parseTxs data outerOffset capacity nTx (i + 1) offset (txHashes ++ [hash])

/-- `bzing_block_add` (`bzing.c:657-736`) for the block at position `data` of the file. -/
def bzingBlockAdd (_blkNo : UInt32) (outerOffset data _maxLen : UInt64) :
    StateT σ (Except Fault) BlockAdded := do
  let header ← readBytes file data 80
  h (.set (doubleSha256 sha256 header) ⟨outerOffset + 80, uint64Max⟩)
  let (nTx, offset) ← parseVarInt file data 80
  -- `malloc(sizeof(bz_uint256_t) * n_tx)` holds this many hashes
  let capacity := (32 * nTx).toNat / 32
  let (offset, txHashes) ← parseTxs sha256 file h data outerOffset capacity nTx.toNat 0 offset []
  let merkleRoot ← calcMerkleRoot sha256 txHashes nTx
  let field ← readBytes file (data + 36) 32
  pure ⟨offset, merkleRoot.d8 != field⟩

/-- The loop of `bzing_index_regen` (`bzing.c:746-752`): the offset it ends at and the calls
    it made, if the fuel lasts. -/
def regenLoop (len : UInt64) :
    Nat → UInt32 → UInt64 → StateT σ (Except Fault) (Option (UInt64 × List BlockCall))
  | 0, _, _ => pure none
  | fuel + 1, nBlocks, offset =>
    if offset < len - 1 then do
      let added ← bzingBlockAdd sha256 file h (nBlocks + 1) (offset + 8) (offset + 8)
        (len - (offset + 8))
      let rest ← regenLoop len fuel (nBlocks + 1) (offset + 8 + added.actualLen)
      pure (rest.map fun (stop, calls) =>
        (stop, ⟨nBlocks + 1, offset + 8, len - (offset + 8), added⟩ :: calls))
    else pure (some (offset, []))

/-- `bzing_index_regen` (`bzing.c:738-753`) over the whole file. Every call advances, so the
    fuel lasts (`regenLoop_isSome`). -/
def bzingIndexRegen : StateT σ (Except Fault) (Option (UInt64 × List BlockCall)) :=
  regenLoop sha256 file h (UInt64.ofNat file.length) (file.length + 1) 0 0

end Handled

/-- The block `malloc(sizeof(bz_uint256_t) * n_tx)` returns holds `n_tx` hashes, as long as the
    product does not wrap. -/
theorem hashes_allocated (nTx : UInt64) : (32 * nTx).toNat / 32 = nTx.toNat % 2 ^ 59 := by
  have wide : (32 : UInt64).toNat = 32 := by rfl
  have bound := nTx.toNat_lt
  rw [UInt64.toNat_mul, wide]
  omega

/-- The operation inserts an entry of a block or of a transaction without slots, or marks. -/
def Formed (op : IndexOp) : Prop := ∃ ledgerOp : LedgerOp, ledgerOp.indexOp = op

theorem formed_set_tx (hash : BzUint256) (offset nTxout : UInt64) :
    Formed (.set hash ⟨offset, bzTxiSpentUmark ||| (nTxout &&& bzTxiSpentUmask)⟩) := by
  have low : (nTxout &&& bzTxiSpentUmask).toUInt32.toUInt64 = nTxout &&& bzTxiSpentUmask := by
    rw [← UInt64.toNat_inj, UInt32.toNat_toUInt64, UInt64.toNat_toUInt32, toNat_and_umask]
    omega
  exact ⟨.insertTx hash offset (nTxout &&& bzTxiSpentUmask).toUInt32, by
    rw [LedgerOp.indexOp, low]⟩

theorem markInput_scripted (i : Nat) (pos spender : UInt64) :
    Scripted Formed fun _ h => markInput file h i pos spender := by
  unfold markInput
  split
  · exact scripted_pure ()
  · exact (scripted_lift _).bind fun outpoint => scripted_op ⟨.spend outpoint spender, rfl⟩

theorem parseInputs_scripted (data : UInt64) (i : Nat) (spender : UInt64) (n : Nat)
    (offset : UInt64) :
    Scripted Formed fun _ h => parseInputs file h data i spender n offset := by
  induction n generalizing offset with
  | zero => exact scripted_pure offset
  | succ n ih =>
    refine (markInput_scripted file i _ spender).bind fun _ => ?_
    exact (scripted_lift _).bind fun _ => ih _

theorem parseTx_scripted (data outerOffset : UInt64) (capacity i : Nat) (txStart : UInt64) :
    Scripted Formed fun _ h => parseTx sha256 file h data outerOffset capacity i txStart := by
  unfold parseTx
  refine (scripted_lift _).bind fun (nTxin, offset) => ?_
  refine (parseInputs_scripted file data i _ nTxin.toNat offset).bind fun offset => ?_
  refine (scripted_lift _).bind fun (nTxout, offset) => ?_
  refine (scripted_lift _).bind fun offset => ?_
  refine (scripted_lift _).bind fun bytes => ?_
  split
  · exact (scripted_op (formed_set_tx _ _ nTxout)).bind fun _ => scripted_pure _
  · exact scripted_throw Fault.hashOutside

theorem parseTxs_scripted (data outerOffset : UInt64) (capacity n i : Nat) (offset : UInt64)
    (txHashes : List BzUint256) :
    Scripted Formed fun _ h =>
      parseTxs sha256 file h data outerOffset capacity n i offset txHashes := by
  induction n generalizing i offset txHashes with
  | zero => exact scripted_pure _
  | succ n ih =>
    refine (parseTx_scripted sha256 file data outerOffset capacity i offset).bind
      fun (offset, hash) => ?_
    exact (scripted_lift _).bind fun _ => ih _ _ _

theorem bzingBlockAdd_scripted (blkNo : UInt32) (outerOffset data maxLen : UInt64) :
    Scripted Formed fun _ h => bzingBlockAdd sha256 file h blkNo outerOffset data maxLen := by
  unfold bzingBlockAdd
  refine (scripted_lift _).bind fun header => ?_
  refine (scripted_op ⟨.insertBlock _ (outerOffset + 80), rfl⟩).bind fun _ => ?_
  refine (scripted_lift _).bind fun (nTx, offset) => ?_
  refine (parseTxs_scripted sha256 file data outerOffset _ nTx.toNat 0 offset []).bind
    fun (offset, txHashes) => ?_
  refine (scripted_lift _).bind fun merkleRoot => ?_
  exact (scripted_lift _).bind fun field => scripted_pure _

end Add

end Bzing
