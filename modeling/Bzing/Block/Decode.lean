import Bzing.Block.Frames
import Bzing.Block.Sample

/-!
# Decoding what was encoded

`At` says that the file holds given bytes where `data + offset` points, without the addresses
wrapping; it splits along concatenation, and each part of the parser has one lemma that reads
the bytes its format writes and performs the operations they ask for. Together they are
`bzingBlockAdd_at`: a well-formed block is decoded, as long as its Merkle tree stays below
`2 ^ 31` nodes.
-/

namespace Bzing

open ByteBuffer Handler

/-- The file holds `bs` at `data + offset`. -/
structure At (file : List UInt8) (data offset : UInt64) (bs : List UInt8) : Prop where
  holds : HoldsAt file (data + offset).toNat bs
  room : (data + offset).toNat + bs.length < 2 ^ 64

namespace At

variable {file : List UInt8} {data offset : UInt64}

theorem split {xs ys : List UInt8} (h : At file data offset (xs ++ ys)) :
    At file data offset xs ∧ At file data (offset + UInt64.ofNat xs.length) ys := by
  obtain ⟨front, back⟩ := holdsAt_append.mp h.holds
  have room := h.room
  rw [List.length_append] at room
  have next : (data + (offset + UInt64.ofNat xs.length)).toNat =
      (data + offset).toNat + xs.length := by
    rw [← UInt64.add_assoc]
    exact toNat_add_ofNat (by omega)
  exact ⟨⟨front, by omega⟩, ⟨next ▸ back, by omega⟩⟩

theorem varInt {n : Nat} (h : At file data offset (putVarInt n)) (small : n < 2 ^ 64) :
    parseVarInt file data offset =
      .ok (UInt64.ofNat n, offset + UInt64.ofNat (putVarInt n).length) :=
  parseVarInt_holdsAt small h.room h.holds

theorem readBytes {bs : List UInt8} (h : At file data offset bs) :
    Bzing.readBytes file (data + offset) bs.length = .ok bs :=
  readBytes_holdsAt h.holds

end At

/-- The Merkle root lies 36 bytes into the header. -/
theorem merkleField_at {file : List UInt8} {data offset : UInt64} {block : Block}
    (header : At file data offset block.header.1) :
    At file data (offset + UInt64.ofNat 36) block.merkleField := by
  have parts : block.header.1 =
      block.header.1.take 36 ++ (block.merkleField ++ (block.header.1.drop 36).drop 32) := by
    rw [Block.merkleField, List.take_append_drop, List.take_append_drop]
  rw [parts] at header
  have skip : (block.header.1.take 36).length = 36 := by
    rw [List.length_take, block.header.2]
    rfl
  have later := header.split.2.split.1
  rwa [skip] at later

/-- Lifting a result into a program. -/
theorem lift_ok_bind {σ ε α β : Type} (a : α) (f : α → StateT σ (Except ε) β) :
    ((liftM (Except.ok a : Except ε α) : StateT σ (Except ε) α) >>= f) = f a := rfl

section Decode

variable {sha256 : List UInt8 → BzUint256} {file : List UInt8} {data : UInt64} {σ : Type}
  (h : Handler IndexOp σ Fault)

theorem markInput_at {input : Outpoint} {offset : UInt64} (i : Nat) (spender : UInt64)
    (at' : At file data offset input.d8) :
    markInput file h i (data + offset) spender =
      perform h ((if i = 0 then [] else [LedgerOp.spend input spender]).map LedgerOp.indexOp) := by
  unfold markInput
  split
  · rfl
  · rw [readOutpoint_holdsAt at'.holds, lift_ok_bind]
    exact (perform_singleton h _).symm

theorem parseInputs_at (inputs : List TxIn) (i : Nat) (spender : UInt64) {offset : UInt64}
    (at' : At file data offset (inputs.flatMap TxIn.serialise)) :
    parseInputs file h data i spender inputs.length offset = (do
      perform h ((if i = 0 then [] else
        inputs.map fun input => LedgerOp.spend input.outpoint spender).map LedgerOp.indexOp)
      pure (offset + UInt64.ofNat (inputs.flatMap TxIn.serialise).length)) := by
  induction inputs generalizing offset with
  | nil =>
    simp only [List.map_nil, ite_self, List.flatMap_nil, List.length_nil]
    simp [parseInputs]
  | cons input inputs ih =>
    rw [List.flatMap_cons] at at'
    obtain ⟨first, rest⟩ := at'.split
    have room := first.room
    rw [input.length_serialise] at room
    obtain ⟨front, -⟩ := first.split
    obtain ⟨front, -⟩ := front.split
    obtain ⟨outpoint, len⟩ := front.split
    rw [input.outpoint.size] at len
    have scriptLen := len.varInt (by omega)
    have behind : offset + UInt64.ofNat 36 +
          UInt64.ofNat (putVarInt input.script.length).length +
          (UInt64.ofNat input.script.length + UInt64.ofNat 4) =
        offset + UInt64.ofNat input.serialise.length := by
      rw [input.length_serialise]
      simp only [UInt64.ofNat_add, UInt64.add_assoc]
    rw [List.length_cons, parseInputs, markInput_at h i spender outpoint]
    change (_ >>= fun _ => liftM (parseVarInt file data (offset + UInt64.ofNat 36)) >>= _) = _
    rw [scriptLen]
    simp only [lift_ok_bind]
    change (_ >>= fun _ => parseInputs file h data i spender inputs.length
      (_ + (UInt64.ofNat input.script.length + UInt64.ofNat 4))) = _
    rw [behind, ih rest, List.flatMap_cons, List.length_append, UInt64.ofNat_add,
      UInt64.add_assoc, ← bind_assoc, ← perform_append]
    congr 2
    split <;> simp

theorem parseOutputs_at (outputs : List TxOut) {offset : UInt64}
    (at' : At file data offset (outputs.flatMap TxOut.serialise)) :
    parseOutputs file data outputs.length offset =
      .ok (offset + UInt64.ofNat (outputs.flatMap TxOut.serialise).length) := by
  induction outputs generalizing offset with
  | nil => simp [parseOutputs]
  | cons output outputs ih =>
    rw [List.flatMap_cons] at at'
    obtain ⟨first, rest⟩ := at'.split
    have room := first.room
    rw [output.length_serialise] at room
    obtain ⟨front, -⟩ := first.split
    obtain ⟨-, len⟩ := front.split
    rw [output.value.2] at len
    have scriptLen := len.varInt (by omega)
    have behind : offset + UInt64.ofNat 8 +
          UInt64.ofNat (putVarInt output.script.length).length +
          UInt64.ofNat output.script.length = offset + UInt64.ofNat output.serialise.length := by
      rw [output.length_serialise]
      simp only [UInt64.ofNat_add, UInt64.add_assoc]
    rw [List.length_cons, parseOutputs]
    change (parseVarInt file data (offset + UInt64.ofNat 8) >>= _) = _
    rw [scriptLen]
    change parseOutputs file data outputs.length (_ + UInt64.ofNat output.script.length) = _
    rw [behind, ih rest, List.flatMap_cons, List.length_append, UInt64.ofNat_add,
      UInt64.add_assoc]

/-- The mask keeps the output count of the format. -/
theorem nTxout_word (n : Nat) :
    UInt64.ofNat n &&& bzTxiSpentUmask = (UInt32.ofNat n).toUInt64 := by
  rw [← UInt64.toNat_inj, toNat_and_umask, UInt32.toNat_toUInt64, UInt64.toNat_ofNat',
    UInt32.toNat_ofNat']
  omega

theorem parseTx_at {tx : Tx} {outerOffset txStart : UInt64} {capacity i : Nat}
    (inside : i < capacity) (at' : At file data txStart tx.serialise) :
    parseTx sha256 file h data outerOffset capacity i txStart = (do
      perform h ((tx.spends i (outerOffset + txStart) ++
        [LedgerOp.insertTx (tx.hash sha256) (outerOffset + txStart) tx.nTxout]).map
          LedgerOp.indexOp)
      pure (txStart + UInt64.ofNat tx.serialise.length, tx.hash sha256)) := by
  have room := at'.room
  have length := tx.length_serialise
  have inputs_le := length_le_flatMap (f := TxIn.serialise) tx.inputs fun input => by
    rw [input.length_serialise]
    omega
  have outputs_lt := tx.outputs_lt
  obtain ⟨front, -⟩ := at'.split
  obtain ⟨front, outputs⟩ := front.split
  obtain ⟨front, nTxout⟩ := front.split
  obtain ⟨front, inputs⟩ := front.split
  obtain ⟨version, nTxin⟩ := front.split
  have nTxin := nTxin.varInt (by omega)
  have nTxout := nTxout.varInt (by omega)
  simp only [List.length_append, tx.version.2, UInt64.ofNat_add, ← UInt64.add_assoc]
    at nTxin inputs nTxout outputs
  have four : UInt64.ofNat 4 = 4 := by rfl
  have behind : txStart + UInt64.ofNat 4 + UInt64.ofNat (putVarInt tx.inputs.length).length +
        UInt64.ofNat (tx.inputs.flatMap TxIn.serialise).length +
        UInt64.ofNat (putVarInt tx.outputs.length).length +
        UInt64.ofNat (tx.outputs.flatMap TxOut.serialise).length + 4 =
      txStart + UInt64.ofNat tx.serialise.length := by
    rw [length, ← four]
    simp only [UInt64.ofNat_add, ← UInt64.add_assoc]
  have nIn : (UInt64.ofNat tx.inputs.length).toNat = tx.inputs.length := by
    rw [UInt64.toNat_ofNat', Nat.mod_eq_of_lt (by omega)]
  have nOut : (UInt64.ofNat tx.outputs.length).toNat = tx.outputs.length := by
    rw [UInt64.toNat_ofNat', Nat.mod_eq_of_lt (by omega)]
  have text : (UInt64.ofNat tx.serialise.length).toNat = tx.serialise.length := by
    rw [UInt64.toNat_ofNat', Nat.mod_eq_of_lt (by omega)]
  unfold parseTx
  change (liftM (parseVarInt file data (txStart + UInt64.ofNat 4)) >>= _) = _
  rw [nTxin, lift_ok_bind]
  simp only [nIn, parseInputs_at h tx.inputs i _ inputs, bind_assoc, pure_bind, nTxout,
    lift_ok_bind, nOut, parseOutputs_at tx.outputs outputs]
  have between : txStart + UInt64.ofNat tx.serialise.length - txStart =
      UInt64.ofNat tx.serialise.length := by
    rw [UInt64.add_comm, UInt64.add_sub_cancel]
  simp only [behind, between, text, at'.readBytes, lift_ok_bind, inside, if_true, nTxout_word]
  rw [List.map_append, perform_append, bind_assoc, List.map_singleton, perform_singleton]
  rfl

variable (sha256) in
theorem parseTxs_at (txs : List Tx) (outerOffset : UInt64) {capacity : Nat} (i start : Nat)
    (txHashes : List BzUint256) (inside : i + txs.length ≤ capacity)
    (few : i + txs.length < 2 ^ 31)
    (at' : At file data (UInt64.ofNat start) (txs.flatMap Tx.serialise)) :
    parseTxs sha256 file h data outerOffset capacity txs.length i (UInt64.ofNat start) txHashes =
      (do
        perform h ((txOps sha256 outerOffset i start txs).map LedgerOp.indexOp)
        pure (UInt64.ofNat (start + (txs.flatMap Tx.serialise).length),
          txHashes ++ txs.map (Tx.hash sha256))) := by
  induction txs generalizing i start txHashes with
  | nil => simp [parseTxs, txOps]
  | cons tx txs ih =>
    rw [List.flatMap_cons] at at'
    obtain ⟨first, rest⟩ := at'.split
    rw [← UInt64.ofNat_add] at rest
    rw [List.length_cons] at inside few
    have next := ih (i + 1) (start + tx.serialise.length) (txHashes ++ [tx.hash sha256])
      (by omega) (by omega) rest
    rw [List.length_cons, parseTxs, parseTx_at h (by omega) first]
    simp only [bind_assoc, pure_bind, checkInt_ok (by omega : i + 1 < 2 ^ 31)]
    rw [← UInt64.ofNat_add]
    simp only [lift_ok_bind, next]
    rw [← bind_assoc, ← perform_append, ← List.map_append, txOps]
    simp only [List.append_assoc, List.flatMap_cons, List.length_append, List.map_cons,
      List.singleton_append, Nat.add_assoc]

/-- Adding a well-formed block with fewer than `2 ^ 31` transactions, wherever it stands in the
file. -/
theorem bzingBlockAdd_at {block : Block} (blkNo : UInt32) (outerOffset maxLen : UInt64)
    (few : block.txs.length < 2 ^ 31) (at' : At file data 0 block.serialise) :
    bzingBlockAdd sha256 file h blkNo outerOffset data maxLen = (do
      perform h ((block.ops sha256 outerOffset).map LedgerOp.indexOp)
      if treeSize block.txs.length < 2 ^ 31 then pure (block.report sha256)
      else throw .intOverflow) := by
  have length := block.length_serialise
  have room := at'.room
  obtain ⟨front, txs⟩ := at'.split
  obtain ⟨header, nTx⟩ := front.split
  have nTx := nTx.varInt (by omega)
  have text := header.readBytes
  have field := (merkleField_at header).readBytes
  simp only [List.length_append, block.header.2, UInt64.zero_add, UInt64.add_zero]
    at text nTx txs field
  rw [block.length_merkleField] at field
  have count : (UInt64.ofNat block.txs.length).toNat = block.txs.length := by
    rw [UInt64.toNat_ofNat', Nat.mod_eq_of_lt (by omega)]
  have capacity : (32 * UInt64.ofNat block.txs.length).toNat / 32 = block.txs.length := by
    rw [hashes_allocated, count, Nat.mod_eq_of_lt (by omega)]
  have hashes : (block.txs.map (Tx.hash sha256)).length =
      (UInt64.ofNat block.txs.length).toNat := by
    rw [List.length_map, count]
  have decoded := parseTxs_at sha256 h block.txs outerOffset 0
    (80 + (putVarInt block.txs.length).length) []
    (by omega : 0 + block.txs.length ≤ block.txs.length) (by omega) txs
  have root := calcMerkleRoot_eq sha256 hashes (by omega)
  rw [count] at root
  unfold bzingBlockAdd
  rw [text]
  simp only [lift_ok_bind]
  change (_ >>= fun _ => liftM (parseVarInt file data (UInt64.ofNat 80)) >>= _) = _
  rw [nTx]
  simp only [lift_ok_bind, count, capacity]
  rw [← UInt64.ofNat_add, decoded]
  simp only [bind_assoc, pure_bind, List.nil_append, root]
  rw [Block.ops, List.map_cons, perform_cons, bind_assoc]
  congr 1
  funext _
  congr 1
  funext _
  split
  · rw [lift_ok_bind]
    change (liftM (Bzing.readBytes file (data + UInt64.ofNat 36) 32) >>= _) = _
    rw [field, lift_ok_bind, Block.report, length]
    rfl
  · rfl

end Decode

section Returned

variable {sha256 : List UInt8 → BzUint256} {file : List UInt8} {block : Block}
  {outerOffset data maxLen : UInt64} {blkNo : UInt32} {added : BlockAdded} {σ : Type}
  {h : Handler IndexOp σ Fault} {s s' : σ}

/-- A call that returns had room for the Merkle tree. -/
theorem treeSize_of_run (small : file.length < 2 ^ 64) (at' : At file data 0 block.serialise)
    (run : (bzingBlockAdd sha256 file h blkNo outerOffset data maxLen).run s =
      .ok (added, s')) : treeSize block.txs.length < 2 ^ 31 := by
  obtain ⟨-, nTx, txs, count, -, room⟩ := bzingBlockAdd_of_run small run
  have length := block.length_serialise
  have few := length_le_flatMap (f := Tx.serialise) block.txs fun tx => by
    rw [tx.length_serialise]
    omega
  have total := at'.room
  obtain ⟨front, -⟩ := at'.split
  obtain ⟨-, nTx'⟩ := front.split
  have parsed := nTx'.varInt (by omega)
  rw [block.header.2] at parsed
  have same := (parseVarInt_iff small).mpr count
  rw [show (80 : UInt64) = 0 + UInt64.ofNat 80 from rfl, parsed] at same
  cases same
  rwa [UInt64.toNat_ofNat', Nat.mod_eq_of_lt (by omega)] at room

/-- A call on a well-formed block that returns has performed the block's operations. -/
theorem bzingBlockAdd_returned (small : file.length < 2 ^ 64)
    (at' : At file data 0 block.serialise)
    (run : (bzingBlockAdd sha256 file h blkNo outerOffset data maxLen).run s =
      .ok (added, s')) :
    added = block.report sha256 ∧
      (perform h ((block.ops sha256 outerOffset).map LedgerOp.indexOp)).run s = .ok ((), s') := by
  have room := treeSize_of_run small at' run
  rw [bzingBlockAdd_at h blkNo outerOffset maxLen (Nat.lt_of_le_of_lt (le_treeSize _) room) at',
    if_pos room] at run
  obtain ⟨_, s1, performed, returned⟩ := run_bind_ok.mp run
  obtain ⟨rfl, rfl⟩ := run_pure_ok.mp returned
  exact ⟨rfl, performed⟩

/-- A call on a well-formed block whose operations return does so, too. -/
theorem bzingBlockAdd_returns (at' : At file data 0 block.serialise)
    (room : treeSize block.txs.length < 2 ^ 31)
    (run : (perform h ((block.ops sha256 outerOffset).map LedgerOp.indexOp)).run s =
      .ok ((), s')) :
    (bzingBlockAdd sha256 file h blkNo outerOffset data maxLen).run s =
      .ok (block.report sha256, s') := by
  rw [bzingBlockAdd_at h blkNo outerOffset maxLen (Nat.lt_of_le_of_lt (le_treeSize _) room) at',
    if_pos room]
  exact run_bind_ok.mpr ⟨(), s', run, rfl⟩

end Returned

/-! ## The whole format -/

/-- Adding the block, whatever follows it, on any index, does what `Block.ops` lists and
    reports what `Block.report` says. -/
def Decodes (sha256 : List UInt8 → BzUint256) (block : Block) : Prop :=
  ∀ (suffix : List UInt8) (blkNo : UInt32) (outerOffset maxLen : UInt64) (σ : Type)
    (h : Handler IndexOp σ Fault),
    bzingBlockAdd sha256 (block.serialise ++ suffix) h blkNo outerOffset 0 maxLen = (do
      perform h ((block.ops sha256 outerOffset).map LedgerOp.indexOp)
      pure (block.report sha256))

theorem at_zero (bs suffix : List UInt8) (short : bs.length < 2 ^ 64) :
    At (bs ++ suffix) 0 0 bs := by
  have zero : ((0 : UInt64) + 0).toNat = 0 := by rfl
  refine ⟨?_, by omega⟩
  rw [zero]
  exact holdsAt_of_append [] bs suffix

section Whole

variable {sha256 : List UInt8 → BzUint256} {block : Block}

theorem decodes_of_treeSize (few : block.txs.length < 2 ^ 31)
    (short : block.serialise.length < 2 ^ 63) (room : treeSize block.txs.length < 2 ^ 31) :
    Decodes sha256 block := by
  intro suffix blkNo outerOffset maxLen σ h
  rw [bzingBlockAdd_at h blkNo outerOffset maxLen few
    (at_zero block.serialise suffix (by omega)), if_pos room]

/-- A block that is decoded has a Merkle tree whose cursors do not overflow. -/
theorem treeSize_of_decodes (few : block.txs.length < 2 ^ 31)
    (short : block.serialise.length < 2 ^ 63) (decodes : Decodes sha256 block) :
    treeSize block.txs.length < 2 ^ 31 := by
  by_contra overflows
  have recorded := decodes [] 0 0 0 _ recorder
  rw [bzingBlockAdd_at recorder 0 0 0 few (at_zero block.serialise [] (by omega)),
    if_neg overflows] at recorded
  have run := congrArg (fun p => StateT.run p []) recorded
  simp only [StateT.run_bind, perform_recorder] at run
  cases run

/-- A block is decoded exactly when the cursors of its Merkle tree do not overflow. -/
theorem decodes_iff (few : block.txs.length < 2 ^ 31)
    (short : block.serialise.length < 2 ^ 63) :
    Decodes sha256 block ↔ treeSize block.txs.length < 2 ^ 31 :=
  ⟨treeSize_of_decodes few short, decodes_of_treeSize few short⟩

end Whole

/-- The first sample block is decoded. -/
theorem decodes_blockFirst : Decodes sampleSha256 blockFirst := by
  have nodes := treeSize_lt blockFirst.txs.length 29 (by decide)
  have two : blockFirst.txs.length = 2 := rfl
  exact (decodes_iff (by decide) (by rw [Block.length_serialise]; decide)).mpr (by omega)

/-- As many transactions as have a Merkle tree of `2 ^ 31` nodes. -/
def wideBlock : Block := ⟨sampleHeader 0, List.replicate (2 ^ 30 + 1) txNone⟩

theorem length_flatMap_replicate {α : Type} (f : α → List UInt8) (n : Nat) (a : α) :
    ((List.replicate n a).flatMap f).length = n * (f a).length := by
  rw [List.length_flatMap, List.map_replicate, List.sum_replicate_nat]

/-- A block of ten gigabytes is well-formed and not decoded. -/
theorem not_decodes_wideBlock :
    wideBlock.txs.length < 2 ^ 31 ∧ wideBlock.serialise.length < 2 ^ 63 ∧
      ¬ ∃ sha256, Decodes sha256 wideBlock := by
  have count : wideBlock.txs.length = 2 ^ 30 + 1 := List.length_replicate
  have few : wideBlock.txs.length < 2 ^ 31 := by
    rw [count]
    decide
  have text : (wideBlock.txs.flatMap Tx.serialise).length =
      (2 ^ 30 + 1) * txNone.serialise.length := length_flatMap_replicate _ _ _
  have each : txNone.serialise.length = 10 := by decide
  have varInt : (putVarInt (2 ^ 30 + 1)).length = 5 := by decide
  have short : wideBlock.serialise.length < 2 ^ 63 := by
    rw [Block.length_serialise, text, count, each, varInt]
    decide
  refine ⟨few, short, fun ⟨sha256, decodes⟩ => ?_⟩
  have room := treeSize_of_decodes few short decodes
  rw [count] at room
  have nodes := two_mul_le_treeSize (2 ^ 30 + 1)
  omega

end Bzing
