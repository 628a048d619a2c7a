import Bzing.Data.LevelArray
import Bzing.Merkle.Root

/-!
# The layout of the Merkle tree

`calc_merkle_size` (`util.c:43-51`) and the loops of `calc_merkle_root` (`util.c:67-80`) walk the
levels of the tree independently, one to size the array, the other to fill it. Where the second
reads and writes depends on its cursors alone. `treeSteps` is what they do; `merkleLevels_steps`
says that the loops are a run of it, and `merkleLayout` that its cells are those of the levels
`calc_merkle_size` counts.
-/

namespace Bzing

open LevelArray

/-- The cells the inner loop (`util.c:68-78`) reads and writes, from `i` on. Both results of an
    iteration, the hash and its hash, go to `tree[p]`. -/
def levelSteps (s j i p : Nat) : List Step :=
  if i < s then
    let i2 := min (i + 1) (s - 1)
    ⟨j + i, j + i2, p⟩ :: levelSteps s j (i + 2) (p + 1)
  else []
termination_by s - i

/-- The cells the outer loop (`util.c:67-80`) reads and writes. -/
def treeSteps (s j p : Nat) : List Step :=
  if s > 1 then
    levelSteps s j 0 p ++ treeSteps ((s + 1) / 2) (j + s) (p + (levelSteps s j 0 p).length)
  else []
termination_by s

section Cursors

variable {s j i p : Nat}

theorem length_levelSteps : (levelSteps s j i p).length = (s - i + 1) / 2 := by
  fun_induction levelSteps s j i p with
  | case1 i p more i2 ih =>
    rw [List.length_cons, ih]
    omega
  | case2 i p done =>
    rw [List.length_nil]
    omega

/-- The inner loop writes one cell behind the other. -/
theorem levelSteps_nodes :
    (levelSteps s j i p).map Step.node = List.range' p ((s - i + 1) / 2) := by
  fun_induction levelSteps s j i p with
  | case1 i p more i2 ih =>
    have count : (s - i + 1) / 2 = (s - (i + 2) + 1) / 2 + 1 := by omega
    rw [List.map_cons, ih, count, List.range'_succ]
  | case2 i p done =>
    have none : (s - i + 1) / 2 = 0 := by omega
    rw [none]
    rfl

/-- A step reads two nodes of the level, or its last one twice, and writes a node of the next. -/
theorem mem_levelSteps {step : Step} (member : step ∈ levelSteps s j i p) :
    ∃ l r q, l < s ∧ r < s ∧ q < (s - i + 1) / 2 ∧ step = ⟨j + l, j + r, p + q⟩ := by
  fun_induction levelSteps s j i p with
  | case1 i p more i2 ih =>
    rcases List.mem_cons.mp member with rfl | member
    · exact ⟨i, i2, 0, more, by omega, by omega, rfl⟩
    · obtain ⟨l, r, q, left, right, node, rfl⟩ := ih member
      refine ⟨l, r, q + 1, left, right, by omega, ?_⟩
      rw [Nat.add_assoc, Nat.add_comm 1]
  | case2 i p done => cases member

/-- All loops together write one cell behind the other, up to the last of the tree. -/
theorem treeSteps_nodes (s j p : Nat) :
    (treeSteps s j p).map Step.node = List.range' p (treeSize s - s) := by
  fun_induction treeSteps s j p with
  | case1 s j p many ih =>
    have leaf := le_treeSize ((s + 1) / 2)
    have count : treeSize s - s = (s - 0 + 1) / 2 + (treeSize ((s + 1) / 2) - (s + 1) / 2) := by
      rw [treeSize_succ many]
      omega
    rw [List.map_append, levelSteps_nodes, ih, count, length_levelSteps, List.range'_append_1]
  | case2 s j p few =>
    have none : treeSize s - s = 0 := by
      rw [treeSize_le_one (Nat.not_lt.mp few), Nat.sub_self]
    rw [none]
    rfl

theorem length_treeSteps (s j p : Nat) : (treeSteps s j p).length = treeSize s - s := by
  have nodes := congrArg List.length (treeSteps_nodes s j p)
  rwa [List.length_map, List.length_range'] at nodes

/-- A step reads nodes of one level and writes one of the next. -/
theorem treeSteps_levels {step : Step} (behind : p = j + s) (member : step ∈ treeSteps s j p) :
    ∃ k l r q, step = ⟨j + l, j + r, j + q⟩ ∧ OnLevel (halvings s) k l ∧
      OnLevel (halvings s) k r ∧ OnLevel (halvings s) (k + 1) q := by
  fun_induction treeSteps s j p with
  | case1 s j p many ih =>
    obtain ⟨higher, next⟩ := halvings_eq_cons ((s + 1) / 2)
    have levels : halvings s = s :: halvings ((s + 1) / 2) := by
      rw [halvings, if_neg (by omega)]
    rw [levels]
    rcases List.mem_append.mp member with member | member
    · obtain ⟨l, r, q, left, right, node, rfl⟩ := mem_levelSteps member
      refine ⟨0, l, r, s + q, ?_, onLevel_zero.mpr left, onLevel_zero.mpr right, ?_⟩
      · rw [behind, Nat.add_assoc]
      · rw [onLevel_succ, next, onLevel_zero]
        exact node
    · have up : p + (levelSteps s j 0 p).length = j + s + (s + 1) / 2 := by
        rw [length_levelSteps, behind]
        omega
      obtain ⟨k, l, r, q, rfl, left, right, node⟩ := ih up member
      refine ⟨k + 1, s + l, s + r, s + q, ?_, (onLevel_succ s).mpr left,
        (onLevel_succ s).mpr right, (onLevel_succ s).mpr node⟩
      simp only [Nat.add_assoc]
  | case2 s j p few => cases member

/-- So each reads cells before its own, and the cells written follow the leaves. -/
theorem treeSteps_ordered (n : Nat) : Ordered n (treeSteps n 0 n) := by
  constructor
  · rw [length_treeSteps, treeSteps_nodes]
  · intro step member
    obtain ⟨k, l, r, q, rfl, left, right, node⟩ := treeSteps_levels (Nat.zero_add n).symm member
    have leftBelow := left.lt node
    have rightBelow := right.lt node
    constructor
    · exact Nat.add_lt_add_left leftBelow 0
    · exact Nat.add_lt_add_left rightBelow 0

theorem treeSize_eq_sum (n : Nat) : treeSize n = (halvings n).sum := by
  fun_induction halvings n with
  | case1 n one => rw [treeSize_le_one one, List.sum_singleton]
  | case2 n many ih => rw [treeSize_succ (Nat.not_le.mp many), ih, List.sum_cons]

end Cursors

section Runs

variable (sha256 : List UInt8 → BzUint256) {s j i p : Nat}

theorem step_run_eq (l r p : Nat) (tree : List (Option BzUint256)) :
    (⟨l, r, p⟩ : Step).run .treeOutside (merkleNode sha256) tree = (do
      let left ← readCell tree l
      let right ← readCell tree r
      writeCell tree p (doubleSha256 sha256 (left.d8 ++ right.d8))) := by
  unfold Step.run readCell
  simp only [Option.bind_id_eq_join]
  cases tree[l]?.join with
  | none => rfl
  | some left =>
    cases tree[r]?.join with
    | none => rfl
    | some right => rfl

/-- The inner loop is a run of its steps, as long as no cursor overflows. -/
theorem merkleLevel_steps (fits : p + (levelSteps s j i p).length < 2 ^ 31)
    (few : s + 1 < 2 ^ 31) (tree : List (Option BzUint256)) :
    merkleLevel sha256 s j i p tree =
      (runAll .treeOutside (merkleNode sha256) (levelSteps s j i p) tree).map fun tree =>
        (p + (levelSteps s j i p).length, tree) := by
  fun_induction levelSteps s j i p generalizing tree with
  | case1 i p more i2 ih =>
    rw [List.length_cons] at fits ⊢
    have turn : merkleLevel sha256 s j i p tree =
        (do
          let tree ← (⟨j + i, j + i2, p⟩ : Step).run .treeOutside (merkleNode sha256) tree
          checkInt (p + 1)
          checkInt (i + 2)
          merkleLevel sha256 s j (i + 2) (p + 1) tree) := by
      rw [step_run_eq, merkleLevel, if_pos more]
      simp only [bind_assoc, i2]
    rw [turn, runAll]
    cases (⟨j + i, j + i2, p⟩ : Step).run Fault.treeOutside (merkleNode sha256) tree with
    | error e => rfl
    | ok tree =>
      have total : p + 1 + (levelSteps s j (i + 2) (p + 1)).length =
          p + ((levelSteps s j (i + 2) (p + 1)).length + 1) := by omega
      have rest := ih (by omega) tree
      rw [total] at rest
      have counted : checkInt (p + 1) = .ok () := checkInt_ok (by omega)
      have skipped : checkInt (i + 2) = .ok () := checkInt_ok (by omega)
      simp only [bind, Except.bind, counted, skipped]
      exact rest
  | case2 i p done =>
    rw [merkleLevel, if_neg done]
    rfl

/-- And so are the levels together. -/
theorem merkleLevels_steps (behind : p = j + s) (fits : j + treeSize s < 2 ^ 31)
    (leaf : 1 ≤ s) (tree : List (Option BzUint256)) :
    merkleLevels sha256 s j p tree =
      (runAll .treeOutside (merkleNode sha256) (treeSteps s j p) tree).map fun tree =>
        (j + treeSize s, tree) := by
  fun_induction treeSteps s j p generalizing tree with
  | case1 s j p many ih =>
    have half := le_treeSize ((s + 1) / 2)
    have size := treeSize_succ many
    have count := length_levelSteps (s := s) (j := j) (i := 0) (p := p)
    have level := merkleLevel_steps sha256 (s := s) (j := j) (i := 0) (p := p)
      (by omega) (by omega) tree
    rw [merkleLevels, if_pos many, level, runAll_append]
    cases runAll Fault.treeOutside (merkleNode sha256) (levelSteps s j 0 p) tree with
    | error e => rfl
    | ok tree =>
      have moved : checkInt (j + s) = .ok () := checkInt_ok (by omega)
      have halved : checkInt (s + 1) = .ok () := checkInt_ok (by omega)
      have rest := ih (by omega) (by omega) (by omega) tree
      rw [Nat.add_assoc, ← size] at rest
      simp only [bind, Except.bind, Except.map, moved, halved]
      exact rest
  | case2 s j p few =>
    have one : s = 1 := by omega
    subst one
    rw [merkleLevels, if_neg few, treeSize_le_one (Nat.le_refl 1), behind]
    rfl

end Runs

/-! ## The layout -/

/-- The array before the loops: the leaves are copied, the other cells not written. -/
def leafTree (txHashes : List BzUint256) (n : UInt64) : List (Option BzUint256) :=
  (txHashes.take n.toNat).map some ++ List.replicate ((calcMerkleSize n).toNat - n.toNat) none

/-- `calc_merkle_size` and the loops of `calc_merkle_root` agree on the layout of a tree over `n`
    leaves. -/
structure MerkleLayout (n : UInt64) : Prop where
  /-- The array has a cell for each node of each level. -/
  nodes : (calcMerkleSize n).toNat = (halvings n.toNat).sum
  /-- The copy of the leaves fits. -/
  copy : n ≤ calcMerkleSize n
  /-- The loops write the cells behind the leaves in order, each in one iteration. -/
  writes : (treeSteps n.toNat 0 n.toNat).map Step.node =
    List.range' n.toNat ((calcMerkleSize n).toNat - n.toNat)
  /-- An iteration reads nodes of the level directly below the node it writes. -/
  levels : ∀ step ∈ treeSteps n.toNat 0 n.toNat, ∃ k, OnLevel (halvings n.toNat) k step.left ∧
    OnLevel (halvings n.toNat) k step.right ∧ OnLevel (halvings n.toNat) (k + 1) step.node
  /-- These are leaves or were written in an earlier iteration. -/
  filled : ∀ before step after, treeSteps n.toNat 0 n.toNat = before ++ step :: after →
    ∀ c ∈ [step.left, step.right], c < n.toNat ∨ c ∈ before.map Step.node
  /-- On any array the loops are a run of these iterations, and `p` ends at its size. -/
  loops : ∀ sha256 tree, merkleLevels sha256 n.toNat 0 n.toNat tree =
    (runAll .treeOutside (merkleNode sha256) (treeSteps n.toNat 0 n.toNat) tree).map fun tree =>
      ((calcMerkleSize n).toNat, tree)
  /-- On the array of `calc_merkle_root` the run does not fault, and the root is its last cell. -/
  exit : ∀ sha256 txHashes, n.toNat ≤ txHashes.length → ∃ tree,
    merkleLevels sha256 n.toNat 0 n.toNat (leafTree txHashes n) =
      .ok ((calcMerkleSize n).toNat, tree) ∧ Filled tree (calcMerkleSize n).toNat ∧
    calcMerkleRoot sha256 txHashes n = readCell tree ((calcMerkleSize n).toNat - 1)

section Layout

variable {n : UInt64}

theorem toNat_calcMerkleSize_of_pos (leaf : 1 ≤ n) (count : n.toNat ≤ 2 ^ 63) :
    (calcMerkleSize n).toNat = treeSize n.toNat := by
  have one : 1 ≤ n.toNat := UInt64.le_iff_toNat_le.mp leaf
  have leaves := le_treeSize n.toNat
  rw [toNat_calcMerkleSize count]
  omega

theorem length_leafTree {txHashes : List BzUint256} (leaves : n.toNat ≤ txHashes.length)
    (copy : n.toNat ≤ (calcMerkleSize n).toNat) :
    (leafTree txHashes n).length = (calcMerkleSize n).toNat := by
  simp only [leafTree, List.length_append, List.length_map, List.length_take,
    List.length_replicate]
  omega

theorem filled_leafTree {txHashes : List BzUint256} (leaves : n.toNat ≤ txHashes.length) :
    Filled (leafTree txHashes n) n.toNat := by
  intro k below
  have inside : k < txHashes.length := by omega
  have front : k < ((txHashes.take n.toNat).map some).length := by
    rw [List.length_map, List.length_take]
    omega
  refine ⟨txHashes[k], ?_⟩
  rw [leafTree, List.getElem?_append_left front, List.getElem?_map,
    List.getElem?_take_of_lt below, List.getElem?_eq_getElem inside]
  rfl

theorem treeSteps_filled {before after : List Step} {step : Step} {c : Nat} {m : Nat}
    (split : treeSteps m 0 m = before ++ step :: after) (member : c ∈ [step.left, step.right]) :
    c < m ∨ c ∈ before.map Step.node := by
  have ordered := treeSteps_ordered m
  have below := ordered.2 step (by simp [split])
  rw [split] at ordered
  apply ordered.written
  simp only [List.mem_cons, List.not_mem_nil, or_false] at member
  rcases member with rfl | rfl
  · exact below.1
  · exact below.2

/-- `calc_merkle_root` runs the loops on this array and returns its last cell. -/
theorem calcMerkleRoot_leafTree (sha256 : List UInt8 → BzUint256) {txHashes : List BzUint256}
    (leaves : n.toNat ≤ txHashes.length) (copy : n.toNat ≤ (calcMerkleSize n).toNat)
    (small : n.toNat < 2 ^ 31) :
    calcMerkleRoot sha256 txHashes n =
      (merkleLevels sha256 n.toNat 0 n.toNat (leafTree txHashes n) >>= fun (p, tree) =>
        if p = 0 then .ok .zero else readCell tree ((calcMerkleSize n).toNat - 1)) := by
  have counted : checkInt n.toNat = .ok () := checkInt_ok small
  unfold calcMerkleRoot leafTree
  rw [if_neg (Nat.not_lt.mpr leaves), if_neg (Nat.not_lt.mpr copy), counted]
  rfl

/-- The run over the leaves fills the whole array. -/
theorem merkleLevels_leafTree (sha256 : List UInt8 → BzUint256) {txHashes : List BzUint256}
    (leaf : 1 ≤ n) (size : (calcMerkleSize n).toNat = treeSize n.toNat)
    (room : treeSize n.toNat < 2 ^ 31) (leaves : n.toNat ≤ txHashes.length) :
    ∃ tree, merkleLevels sha256 n.toNat 0 n.toNat (leafTree txHashes n) =
      .ok (treeSize n.toNat, tree) ∧ Filled tree (treeSize n.toNat) := by
  have one : 1 ≤ n.toNat := UInt64.le_iff_toNat_le.mp leaf
  have copy := le_treeSize n.toNat
  have count := length_treeSteps n.toNat 0 n.toNat
  have cells := length_leafTree leaves (size ▸ copy)
  obtain ⟨tree, run, -, filled⟩ := runAll_filled Fault.treeOutside (merkleNode sha256)
    (treeSteps_ordered n.toNat) (filled_leafTree leaves) (by omega)
  refine ⟨tree, ?_, ?_⟩
  · rw [merkleLevels_steps sha256 (Nat.zero_add _).symm (by omega) one, run, Nat.zero_add]
    rfl
  · rwa [count, Nat.add_sub_cancel' copy] at filled

/-- Sizing and filling agree on every tree of fewer than `2 ^ 31` cells, except that the size of
    a tree over more than `2 ^ 63` leaves wraps. -/
theorem merkleLayout_iff (leaf : 1 ≤ n) (room : (calcMerkleSize n).toNat < 2 ^ 31) :
    MerkleLayout n ↔ n.toNat ≤ 2 ^ 63 := by
  constructor
  · intro layout
    have copy := UInt64.le_iff_toNat_le.mp layout.copy
    omega
  · intro count
    have one : 1 ≤ n.toNat := UInt64.le_iff_toNat_le.mp leaf
    have copy := le_treeSize n.toNat
    have size := toNat_calcMerkleSize_of_pos leaf count
    refine ⟨?_, ?_, ?_, ?_, ?_, ?_, ?_⟩
    · rw [size, treeSize_eq_sum]
    · rw [UInt64.le_iff_toNat_le, size]
      exact copy
    · rw [size, treeSteps_nodes]
    · intro step member
      obtain ⟨k, l, r, q, rfl, left, right, node⟩ :=
        treeSteps_levels (Nat.zero_add n.toNat).symm member
      simp only [Nat.zero_add]
      exact ⟨k, left, right, node⟩
    · intro before step after split c member
      exact treeSteps_filled split member
    · intro sha256 tree
      rw [size, merkleLevels_steps sha256 (Nat.zero_add _).symm (by omega) one, Nat.zero_add]
    · intro sha256 txHashes leaves
      rw [size] at room ⊢
      obtain ⟨tree, run, filled⟩ := merkleLevels_leafTree sha256 leaf size room leaves
      refine ⟨tree, run, filled, ?_⟩
      have nonzero : treeSize n.toNat ≠ 0 := by omega
      rw [calcMerkleRoot_leafTree sha256 leaves (by omega) (by omega), run, size]
      exact if_neg nonzero

end Layout

/-- The size of a tree over `2 ^ 64 - 1` leaves: `i + 1` wraps in the first turn already, and
    then the sum. -/
theorem calcMerkleSize_max : calcMerkleSize 0xFFFFFFFFFFFFFFFF = 0 := by
  have loop : merkleSizeLoop 0 0xFFFFFFFFFFFFFFFF = 0xFFFFFFFFFFFFFFFF := by
    rw [merkleSizeLoop, if_pos (by decide), merkleSizeLoop, if_neg (by decide)]
    decide
  unfold calcMerkleSize
  rw [loop]
  decide

theorem not_merkleLayout_max :
    (1 : UInt64) ≤ 0xFFFFFFFFFFFFFFFF ∧ (calcMerkleSize 0xFFFFFFFFFFFFFFFF).toNat < 2 ^ 31 ∧
      ¬ MerkleLayout 0xFFFFFFFFFFFFFFFF := by
  refine ⟨by decide, ?_, ?_⟩
  · rw [calcMerkleSize_max]
    decide
  · intro layout
    have copy := layout.copy
    rw [calcMerkleSize_max] at copy
    exact absurd copy (by decide)

/-- Five leaves, with an odd one out on three levels. -/
theorem merkleLayout_five : MerkleLayout 5 ∧ halvings 5 = [5, 3, 2, 1] := by
  have five : (5 : UInt64).toNat = 5 := by rfl
  have levels : halvings 5 = [5, 3, 2, 1] := by
    simp [halvings]
  have size : (calcMerkleSize 5).toNat = 11 := by
    rw [toNat_calcMerkleSize_of_pos (by decide) (by omega), five, treeSize_eq_sum, levels]
    rfl
  exact ⟨(merkleLayout_iff (by decide) (by omega)).mpr (by omega), levels⟩

end Bzing
