import Bzing.Block.Frames
import Bzing.Merkle.Root

/-!
# The transaction lists one Merkle root stands for

The last node of an odd level is paired with itself, so a list and the same list with its
duplicated tail spelled out have one root. `calcMerkleRoot_eq_iff` says that, as long as double
SHA-256 tells apart the texts it is given, lists of one height have one root only when they are
completed to one list; the check of `bzing_block_add` (`bzing.c:726-730`) sees no more than that.
-/

namespace Bzing

open Handler PairTree

section Accepted

variable (sha256 : List UInt8 → BzUint256)

/-- The texts of 64 bytes hashed on the way to the root. -/
def hashedTexts (txHashes : List BzUint256) : List (List UInt8) :=
  (combined (merkleNode sha256) txHashes).map fun (left, right) => left.d8 ++ right.d8

/-- Double SHA-256 tells apart the texts hashed on the way to two roots. -/
def TellsApart (a b : List BzUint256) : Prop :=
  ∀ x ∈ hashedTexts sha256 a, ∀ y ∈ hashedTexts sha256 b,
    doubleSha256 sha256 x = doubleSha256 sha256 y → x = y

/-- The hash an operation stores an entry under. -/
def IndexOp.storedHash : IndexOp → Option BzUint256
  | .set hash _ => some hash
  | .mark _ _ => none

/-- A call of `bzing_block_add` stores these transaction hashes, behind that of the block, and
accepts the field of the header as their root. What it does is the same on every index. -/
def Accepts (field : List UInt8) (txHashes : List BzUint256) : Prop :=
  ∃ file blkNo outerOffset data maxLen added ops blockHash,
    file.length < 2 ^ 64 ∧
    script (fun _ h => bzingBlockAdd sha256 file h blkNo outerOffset data maxLen) =
      .ok (added, ops) ∧
    ops.filterMap IndexOp.storedHash = blockHash :: txHashes ∧
    readBytes file (data + 36) 32 = .ok field ∧ added.invalidMerkleRoot = false

variable {sha256} {file : List UInt8} {data : UInt64} {kept kept' : List IndexOp}

theorem storedHash_of_markInput {i : Nat} {pos spender : UInt64} {u : Unit}
    (run : (markInput file recorder i pos spender).run kept = .ok (u, kept')) :
    kept'.filterMap IndexOp.storedHash = kept.filterMap IndexOp.storedHash := by
  unfold markInput at run
  split at run
  · obtain ⟨-, rfl⟩ := run_pure_ok.mp run
    rfl
  · obtain ⟨outpoint, s1, read, marked⟩ := run_bind_ok.mp run
    obtain ⟨-, rfl⟩ := run_lift_ok.mp read
    cases marked
    simp [IndexOp.storedHash]

theorem storedHash_of_parseInputs {i n : Nat} {spender offset stop : UInt64}
    (run : (parseInputs file recorder data i spender n offset).run kept = .ok (stop, kept')) :
    kept'.filterMap IndexOp.storedHash = kept.filterMap IndexOp.storedHash := by
  induction n generalizing offset kept with
  | zero =>
    obtain ⟨-, rfl⟩ := run_pure_ok.mp run
    rfl
  | succ n ih =>
    obtain ⟨u, s1, marked, run⟩ := run_bind_ok.mp run
    obtain ⟨⟨scriptLen, behind⟩, s2, script, run⟩ := run_bind_ok.mp run
    obtain ⟨-, rfl⟩ := run_lift_ok.mp script
    exact (ih run).trans (storedHash_of_markInput marked)

/-- A transaction stores one entry, under the hash it reports. -/
theorem storedHash_of_parseTx {outerOffset : UInt64} {capacity i : Nat} {start stop : UInt64}
    {hash : BzUint256}
    (run : (parseTx sha256 file recorder data outerOffset capacity i start).run kept =
      .ok ((stop, hash), kept')) :
    kept'.filterMap IndexOp.storedHash = kept.filterMap IndexOp.storedHash ++ [hash] := by
  unfold parseTx at run
  obtain ⟨⟨nTxin, inputs⟩, s1, inCount, run⟩ := run_bind_ok.mp run
  obtain ⟨-, rfl⟩ := run_lift_ok.mp inCount
  obtain ⟨inputsEnd, s2, ins, run⟩ := run_bind_ok.mp run
  obtain ⟨⟨nTxout, outputs⟩, s3, outCount, run⟩ := run_bind_ok.mp run
  obtain ⟨-, rfl⟩ := run_lift_ok.mp outCount
  obtain ⟨outputsEnd, s4, outs, run⟩ := run_bind_ok.mp run
  obtain ⟨-, rfl⟩ := run_lift_ok.mp outs
  obtain ⟨bytes, s5, read, run⟩ := run_bind_ok.mp run
  obtain ⟨-, rfl⟩ := run_lift_ok.mp read
  split at run
  · obtain ⟨u, s6, stored, returned⟩ := run_bind_ok.mp run
    obtain ⟨pair, rfl⟩ := run_pure_ok.mp returned
    cases pair
    cases stored
    rw [← storedHash_of_parseInputs ins]
    simp [IndexOp.storedHash]
  · exact absurd run run_throw

theorem storedHash_of_parseTxs {outerOffset : UInt64} {capacity n i : Nat} {start stop : UInt64}
    {txHashes txHashes' : List BzUint256}
    (run : (parseTxs sha256 file recorder data outerOffset capacity n i start txHashes).run kept =
      .ok ((stop, txHashes'), kept')) :
    ∃ new, txHashes' = txHashes ++ new ∧
      kept'.filterMap IndexOp.storedHash = kept.filterMap IndexOp.storedHash ++ new := by
  induction n generalizing i start txHashes kept with
  | zero =>
    obtain ⟨pair, rfl⟩ := run_pure_ok.mp run
    cases pair
    exact ⟨[], by simp⟩
  | succ n ih =>
    obtain ⟨⟨next, hash⟩, s1, first, run⟩ := run_bind_ok.mp run
    obtain ⟨u, s2, counted, run⟩ := run_bind_ok.mp run
    obtain ⟨-, rfl⟩ := run_lift_ok.mp counted
    obtain ⟨new, rfl, stored⟩ := ih run
    rw [storedHash_of_parseTx first] at stored
    exact ⟨hash :: new, by simp, by simp [stored]⟩

/-- The field that is accepted is the root of the hashes stored. -/
theorem Accepts.root {field : List UInt8} {txHashes : List BzUint256}
    (accepts : Accepts sha256 field txHashes) : (merkleRoot sha256 txHashes).d8 = field := by
  obtain ⟨file, blkNo, outerOffset, data, maxLen, added, ops, blockHash, small, run, stored,
    fieldAt, valid⟩ := accepts
  unfold script bzingBlockAdd at run
  obtain ⟨header, s1, readHeader, run⟩ := run_bind_ok.mp run
  obtain ⟨-, rfl⟩ := run_lift_ok.mp readHeader
  obtain ⟨u, s2, entry, run⟩ := run_bind_ok.mp run
  cases entry
  obtain ⟨⟨nTx, txs⟩, s3, count, run⟩ := run_bind_ok.mp run
  obtain ⟨-, rfl⟩ := run_lift_ok.mp count
  obtain ⟨⟨stop, parsed⟩, s4, parse, run⟩ := run_bind_ok.mp run
  obtain ⟨root, s5, lifted, run⟩ := run_bind_ok.mp run
  obtain ⟨merkle, rfl⟩ := run_lift_ok.mp lifted
  obtain ⟨field', s6, lifted', returned⟩ := run_bind_ok.mp run
  obtain ⟨readField, rfl⟩ := run_lift_ok.mp lifted'
  obtain ⟨rfl, rfl⟩ := run_pure_ok.mp returned
  obtain ⟨-, length, few⟩ := parseTxs_of_run small parse
  obtain ⟨new, whole, later⟩ := storedHash_of_parseTxs parse
  have own : parsed = txHashes := by
    rw [stored] at later
    exact whole.trans (List.cons.inj later).2.symm
  rw [own] at length merkle
  rw [List.length_nil, Nat.zero_add] at length
  rw [calcMerkleRoot_eq sha256 length (by omega)] at merkle
  split at merkle
  · cases merkle
    cases fieldAt.symm.trans readField
    simpa using valid
  · cases merkle

end Accepted

section Collisions

variable {sha256 : List UInt8 → BzUint256} {a b : List BzUint256}

/-- The pairs the levels combine are told apart when their texts are. -/
theorem TellsApart.pairs (apart : TellsApart sha256 a b) :
    ∀ p ∈ combined (merkleNode sha256) a, ∀ q ∈ combined (merkleNode sha256) b,
      merkleNode sha256 p.1 p.2 = merkleNode sha256 q.1 q.2 → p = q := by
  intro p member q member' same
  have text := apart _ (List.mem_map_of_mem member) _ (List.mem_map_of_mem member') same
  have length := p.1.size.trans q.1.size.symm
  obtain ⟨left, right⟩ := List.append_inj text length
  exact Prod.ext (BzUint256.ext left) (BzUint256.ext right)

theorem merkleRoot_eq_iff (some : a ≠ []) (some' : b ≠ [])
    (height : Nat.clog 2 a.length = Nat.clog 2 b.length) (apart : TellsApart sha256 a b) :
    merkleRoot sha256 a = merkleRoot sha256 b ↔ complete a = complete b := by
  have same := root_eq_iff some some' height apart.pairs
  rwa [root_merkleNode sha256 some, root_merkleNode sha256 some', Option.some.injEq] at same

/-- Lists of one height have one root exactly when their completions to a power of two are one
list. So lists of one length with one root are equal, and where the check of `bzing_block_add`
accepts one field for two lists, each is a part of the other's completion. -/
theorem calcMerkleRoot_eq_iff (some : a ≠ []) (some' : b ≠ [])
    (addressable : 32 * a.length < 2 ^ 64) (addressable' : 32 * b.length < 2 ^ 64)
    (room : (calcMerkleSize (UInt64.ofNat a.length)).toNat < 2 ^ 31)
    (room' : (calcMerkleSize (UInt64.ofNat b.length)).toNat < 2 ^ 31)
    (height : Nat.clog 2 a.length = Nat.clog 2 b.length) (apart : TellsApart sha256 a b) :
    (calcMerkleRoot sha256 a (UInt64.ofNat a.length) =
        calcMerkleRoot sha256 b (UInt64.ofNat b.length) ↔ complete a = complete b) ∧
      (a.length = b.length →
        calcMerkleRoot sha256 a (UInt64.ofNat a.length) =
          calcMerkleRoot sha256 b (UInt64.ofNat b.length) → a = b) ∧
      (∀ field, Accepts sha256 field a → Accepts sha256 field b →
        complete a = complete b ∧ a = (complete b).take a.length ∧
          b = (complete a).take b.length) ∧
      (complete a).length = 2 ^ Nat.clog 2 a.length := by
  have roots := merkleRoot_eq_iff some some' height apart
  have computed : calcMerkleRoot sha256 a (UInt64.ofNat a.length) =
      calcMerkleRoot sha256 b (UInt64.ofNat b.length) ↔ complete a = complete b := by
    obtain ⟨count, small⟩ := treeSize_of_room addressable room
    obtain ⟨count', small'⟩ := treeSize_of_room addressable' room'
    rw [calcMerkleRoot_of_treeSize count small, calcMerkleRoot_of_treeSize count' small',
      Except.ok.injEq, roots]
  refine ⟨computed, ?_, ?_, length_complete some⟩
  · intro length same
    exact eq_of_complete (computed.mp same) length
  · intro field accepts accepts'
    have same := roots.mp (BzUint256.ext (accepts.root.trans accepts'.root.symm))
    exact ⟨same, eq_take_complete same.symm, eq_take_complete same⟩

end Collisions

/-- Four hashes, the last two the same. -/
def spelledOut : List BzUint256 := [hashTwo, hashOne, hashWide, hashWide]

theorem hashedTexts_three : ∀ txHashes ∈ [threeHashes, spelledOut],
    hashedTexts threeSha256 txHashes = [hashTwo.d8 ++ hashOne.d8, hashWide.d8 ++ hashWide.d8,
      (digest 0x1d36fdf0785aaefd5b338a5f948c469c12274d4924ea28cb1411d72e84a3953e).d8 ++
        (digest 0x7110825f1bfcfdd93afd59701945822bc20d4123b37b54aa2d8b5e8cadfc2f2d).d8] := by
  obtain ⟨left, right, -⟩ := merkleNode_three
  simp [hashedTexts, threeHashes, spelledOut, combined, PairTree.pairs, PairTree.pairUp, left,
    right]

theorem complete_three : complete threeHashes = complete spelledOut := by
  simp [complete, threeHashes, spelledOut, root, PairTree.pairUp]

theorem tellsApart_three : TellsApart threeSha256 threeHashes spelledOut := by
  unfold TellsApart
  rw [hashedTexts_three threeHashes (by simp), hashedTexts_three spelledOut (by simp)]
  decide +kernel

/-- Spelling out the duplicated hash keeps the root. -/
theorem calcMerkleRoot_spelledOut :
    calcMerkleRoot threeSha256 threeHashes 3 = calcMerkleRoot threeSha256 spelledOut 4 := by
  have room (txHashes : List BzUint256) (few : txHashes.length ≤ 4) :
      (calcMerkleSize (UInt64.ofNat txHashes.length)).toNat < 2 ^ 31 :=
    calcMerkleSize_lt (by omega)
  have same := calcMerkleRoot_eq_iff (a := threeHashes) (b := spelledOut)
    (by simp [threeHashes]) (by simp [spelledOut]) (by simp [threeHashes])
    (by simp [spelledOut]) (room _ (by simp [threeHashes])) (room _ (by simp [spelledOut]))
    (by simp [threeHashes, spelledOut]; decide) tellsApart_three
  exact same.1.mpr complete_three

end Bzing
