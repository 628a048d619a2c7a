import Bzing.Block.Sample
import Bzing.Data.PairTree

/-!
# The Merkle root

`calc_merkle_root` (`util.c:53-87`) over any array of hashes whose tree is small enough for its
cursors. The root by pairing up is a fold over `PairTree`, which is how roots are compared.
-/

namespace Bzing

section Root

variable (sha256 : List UInt8 → BzUint256)

theorem pairUp_eq : ∀ level, pairUp sha256 level = PairTree.pairUp (merkleNode sha256) level
  | [] => rfl
  | [_] => rfl
  | _ :: _ :: rest => by rw [pairUp, PairTree.pairUp, pairUp_eq rest]

/-- The root of hashes is their fold. -/
theorem root_merkleNode {level : List BzUint256} (nonempty : level ≠ []) :
    PairTree.root (merkleNode sha256) level = some (merkleRoot sha256 level) := by
  fun_induction merkleRoot sha256 level with
  | case1 => exact absurd rfl nonempty
  | case2 root => rw [PairTree.root]
  | case3 left right rest ih =>
    rw [pairUp_eq] at ih
    rw [PairTree.root, ih (PairTree.pairUp_ne_nil (List.cons_ne_nil _ _)), pairUp_eq]

variable {sha256} {txHashes : List BzUint256}

/-- `calc_merkle_size` of an array that fits the address space does not wrap. -/
theorem calcMerkleSize_ofNat (addressable : 32 * txHashes.length < 2 ^ 64) :
    (calcMerkleSize (UInt64.ofNat txHashes.length)).toNat = max 1 (treeSize txHashes.length) := by
  have count : (UInt64.ofNat txHashes.length).toNat = txHashes.length := by
    rw [UInt64.toNat_ofNat', Nat.mod_eq_of_lt (by omega)]
  rw [toNat_calcMerkleSize (by omega), count]

/-- Few hashes have a small tree. -/
theorem calcMerkleSize_lt (few : txHashes.length ≤ 2 ^ 29) :
    (calcMerkleSize (UInt64.ofNat txHashes.length)).toNat < 2 ^ 31 := by
  have bound := treeSize_lt txHashes.length 29 few
  rw [calcMerkleSize_ofNat (by omega)]
  omega

/-- The size the C code computes is that of the tree. -/
theorem treeSize_of_room (addressable : 32 * txHashes.length < 2 ^ 64)
    (room : (calcMerkleSize (UInt64.ofNat txHashes.length)).toNat < 2 ^ 31) :
    txHashes.length = (UInt64.ofNat txHashes.length).toNat ∧ treeSize txHashes.length < 2 ^ 31 := by
  rw [calcMerkleSize_ofNat addressable] at room
  refine ⟨?_, by omega⟩
  rw [UInt64.toNat_ofNat', Nat.mod_eq_of_lt (by omega)]

theorem calcMerkleRoot_of_treeSize {nTx : UInt64} (count : txHashes.length = nTx.toNat)
    (room : treeSize txHashes.length < 2 ^ 31) :
    calcMerkleRoot sha256 txHashes nTx = .ok (merkleRoot sha256 txHashes) := by
  have leaf := le_treeSize txHashes.length
  rw [calcMerkleRoot_eq sha256 count (by omega), ← count, if_pos room]

/-- `calc_merkle_root` computes the root of every array of hashes whose tree has fewer than
`2 ^ 31` nodes: zero for none, the hash itself for one, and otherwise the root of the list of
parents of neighbours, the last hash being its own neighbour when their number is odd. -/
theorem calcMerkleRoot_eq_merkleRoot (addressable : 32 * txHashes.length < 2 ^ 64)
    (room : (calcMerkleSize (UInt64.ofNat txHashes.length)).toNat < 2 ^ 31) :
    calcMerkleRoot sha256 txHashes (UInt64.ofNat txHashes.length) =
      .ok (merkleRoot sha256 txHashes) := by
  obtain ⟨count, small⟩ := treeSize_of_room addressable room
  exact calcMerkleRoot_of_treeSize count small

end Root

/-- The hashes of three transactions of the sample. -/
def threeHashes : List BzUint256 := [hashTwo, hashOne, hashWide]

/-- The root over `threeHashes`. -/
def threeRoot : BzUint256 :=
  digest 0xd1b61377e9940ae097f83c7523509b746496df98fe76f576538e329b1ab47299

/-- SHA-256 on the texts hashed on the way to `threeRoot`. -/
def threeSha256 (text : List UInt8) : BzUint256 :=
  if text = hashWide.d8 ++ hashWide.d8 then
    digest 0x4da40eccbbe1e68c40f944ba4b4fc528e26be81d42cf009632c13a36132a4862
  else if text = (digest 0x4da40eccbbe1e68c40f944ba4b4fc528e26be81d42cf009632c13a36132a4862).d8
  then digest 0x7110825f1bfcfdd93afd59701945822bc20d4123b37b54aa2d8b5e8cadfc2f2d
  else if text =
      (digest 0x1d36fdf0785aaefd5b338a5f948c469c12274d4924ea28cb1411d72e84a3953e).d8 ++
      (digest 0x7110825f1bfcfdd93afd59701945822bc20d4123b37b54aa2d8b5e8cadfc2f2d).d8 then
    digest 0xbf884913220036da07b2d09b089ad04d5a4e041100f77b75b8ed0a8d984a8c7e
  else if text = (digest 0xbf884913220036da07b2d09b089ad04d5a4e041100f77b75b8ed0a8d984a8c7e).d8
  then threeRoot
  else sampleSha256 text

theorem merkleNode_three :
    merkleNode threeSha256 hashTwo hashOne =
        digest 0x1d36fdf0785aaefd5b338a5f948c469c12274d4924ea28cb1411d72e84a3953e ∧
      merkleNode threeSha256 hashWide hashWide =
        digest 0x7110825f1bfcfdd93afd59701945822bc20d4123b37b54aa2d8b5e8cadfc2f2d ∧
      merkleNode threeSha256
          (digest 0x1d36fdf0785aaefd5b338a5f948c469c12274d4924ea28cb1411d72e84a3953e)
          (digest 0x7110825f1bfcfdd93afd59701945822bc20d4123b37b54aa2d8b5e8cadfc2f2d) =
        threeRoot := by
  decide +kernel

theorem merkleRoot_three : merkleRoot threeSha256 threeHashes = threeRoot := by
  obtain ⟨left, right, top⟩ := merkleNode_three
  simp [threeHashes, merkleRoot, pairUp, left, right, top]

/-- The root of three transactions. -/
theorem calcMerkleRoot_three : calcMerkleRoot threeSha256 threeHashes 3 = .ok threeRoot := by
  have addressable : 32 * threeHashes.length < 2 ^ 64 := by simp [threeHashes]
  rw [← merkleRoot_three]
  exact calcMerkleRoot_eq_merkleRoot addressable (calcMerkleSize_lt (by simp [threeHashes]))

end Bzing
