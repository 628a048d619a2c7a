import Bzing.Block.Add

/-!
# The block format

What a well-formed block is, as values that can be nothing else, and the bytes that stand for
it: an 80-byte header, the transactions, and in each the inputs and outputs, with counts and
script lengths as canonical var-ints. `Block.ops` is what adding the block is meant to do.
-/

namespace Bzing

/-- A field of fixed width. -/
abbrev Field (w : Nat) := { bs : List UInt8 // bs.length = w }

structure TxIn where
  outpoint : Outpoint
  script : List UInt8
  sequence : Field 4

structure TxOut where
  value : Field 8
  script : List UInt8

structure Tx where
  version : Field 4
  inputs : List TxIn
  outputs : List TxOut
  lockTime : Field 4
  outputs_lt : outputs.length < 2 ^ 32

structure Block where
  header : Field 80
  txs : List Tx

namespace TxIn

def serialise (input : TxIn) : List UInt8 :=
  input.outpoint.d8 ++ putVarInt input.script.length ++ input.script ++ input.sequence.1

end TxIn

namespace TxOut

def serialise (output : TxOut) : List UInt8 :=
  output.value.1 ++ putVarInt output.script.length ++ output.script

end TxOut

namespace Tx

def serialise (tx : Tx) : List UInt8 :=
  tx.version.1 ++ putVarInt tx.inputs.length ++ tx.inputs.flatMap TxIn.serialise ++
    putVarInt tx.outputs.length ++ tx.outputs.flatMap TxOut.serialise ++ tx.lockTime.1

/-- The output count. -/
def nTxout (tx : Tx) : UInt32 := UInt32.ofNat tx.outputs.length

def hash (sha256 : List UInt8 → BzUint256) (tx : Tx) : BzUint256 :=
  doubleSha256 sha256 tx.serialise

/-- The spends of transaction `i` of a block, recorded under `spender`; the first transaction
    spends nothing. -/
def spends (tx : Tx) (i : Nat) (spender : UInt64) : List LedgerOp :=
  if i = 0 then [] else tx.inputs.map fun input => .spend input.outpoint spender

end Tx

/-- The operations for the transactions of a block from the `i`-th on, which starts at byte
    `start` of the block: its spends, then its own entry. -/
def txOps (sha256 : List UInt8 → BzUint256) (outerOffset : UInt64) :
    Nat → Nat → List Tx → List LedgerOp
  | _, _, [] => []
  | i, start, tx :: txs =>
    let offset := outerOffset + UInt64.ofNat start
    tx.spends i offset ++ .insertTx (tx.hash sha256) offset tx.nTxout ::
      txOps sha256 outerOffset (i + 1) (start + tx.serialise.length) txs

namespace Block

def serialise (block : Block) : List UInt8 :=
  block.header.1 ++ putVarInt block.txs.length ++ block.txs.flatMap Tx.serialise

def hash (sha256 : List UInt8 → BzUint256) (block : Block) : BzUint256 :=
  doubleSha256 sha256 block.header.1

/-- The operations for a block at `outerOffset`. -/
def ops (sha256 : List UInt8 → BzUint256) (block : Block) (outerOffset : UInt64) :
    List LedgerOp :=
  .insertBlock (block.hash sha256) (outerOffset + 80) ::
    txOps sha256 outerOffset 0 (80 + (putVarInt block.txs.length).length) block.txs

/-- The Merkle root field of the header. -/
def merkleField (block : Block) : List UInt8 := (block.header.1.drop 36).take 32

/-- The Merkle root of the transactions. -/
def root (sha256 : List UInt8 → BzUint256) (block : Block) : BzUint256 :=
  merkleRoot sha256 (block.txs.map (Tx.hash sha256))

/-- What adding the block is meant to report. -/
def report (sha256 : List UInt8 → BzUint256) (block : Block) : BlockAdded where
  actualLen := UInt64.ofNat block.serialise.length
  invalidMerkleRoot := (block.root sha256).d8 != block.merkleField

end Block

theorem length_le_flatMap {α : Type} {f : α → List UInt8} (l : List α)
    (pos : ∀ a, 1 ≤ (f a).length) : l.length ≤ (l.flatMap f).length := by
  induction l with
  | nil => simp
  | cons a l ih =>
    have := pos a
    simp only [List.length_cons, List.flatMap_cons, List.length_append]
    omega

theorem TxIn.length_serialise (input : TxIn) : input.serialise.length =
    36 + (putVarInt input.script.length).length + input.script.length + 4 := by
  simp only [serialise, List.length_append, input.outpoint.size, input.sequence.2]

theorem TxOut.length_serialise (output : TxOut) : output.serialise.length =
    8 + (putVarInt output.script.length).length + output.script.length := by
  simp only [serialise, List.length_append, output.value.2]

theorem Tx.length_serialise (tx : Tx) : tx.serialise.length =
    4 + (putVarInt tx.inputs.length).length + (tx.inputs.flatMap TxIn.serialise).length +
      (putVarInt tx.outputs.length).length + (tx.outputs.flatMap TxOut.serialise).length + 4 := by
  simp only [serialise, List.length_append, tx.version.2, tx.lockTime.2]

theorem Block.length_merkleField (block : Block) : block.merkleField.length = 32 := by
  simp only [merkleField, List.length_take, List.length_drop, block.header.2]
  rfl

theorem Block.length_serialise (block : Block) : block.serialise.length =
    80 + (putVarInt block.txs.length).length + (block.txs.flatMap Tx.serialise).length := by
  simp only [serialise, List.length_append, block.header.2]

end Bzing
