import Bzing.Types
import Mathlib.Tactic.Linarith

/-!
# Hashes and the Merkle tree

`double_sha256`, `calc_merkle_size` and `calc_merkle_root` (`util.c:30-85`). SHA-256 is
OpenSSL's and stands as a parameter. The tree is one flat array, leaves first, each level
behind the one before; its cursors are `int`s, so a tree of `2 ^ 31` nodes or more overflows
them. `calcMerkleRoot_eq` says what the array holds at the end: the root `merkleRoot` defines
by pairing up neighbours, the last one with itself when their number is odd.
-/

namespace Bzing

section Tree

variable (sha256 : List UInt8 → BzUint256)

/-- `double_sha256` (`util.c:30-41`). -/
def doubleSha256 (data : List UInt8) : BzUint256 := sha256 (sha256 data).d8

/-- The loop of `calc_merkle_size` (`util.c:47-49`). -/
def merkleSizeLoop (len i : UInt64) : UInt64 :=
  if i > 1 then merkleSizeLoop (len + i) ((i + 1) >>> 1) else len
termination_by i.toNat
decreasing_by
  rename_i above
  have above : 1 < i.toNat := UInt64.lt_iff_toNat_lt.mp above
  have one : (1 : UInt64).toNat % 64 = 1 := by rfl
  rw [UInt64.toNat_shiftRight, UInt64.toNat_add, one, Nat.shiftRight_eq_div_pow]
  have value : (1 : UInt64).toNat = 1 := by rfl
  omega

/-- `calc_merkle_size` (`util.c:43-51`). -/
def calcMerkleSize (leafCount : UInt64) : UInt64 :=
  let len := merkleSizeLoop 0 leafCount
  if len ≥ 2 then len + 1 else 1

/-- An `int` that is assigned `n`; `INT_MAX` is `2 ^ 31 - 1`. -/
def checkInt (n : Nat) : Except Fault Unit :=
  if n < 2 ^ 31 then .ok () else .error .intOverflow

/-- A cell of the tree that was written. -/
def readCell (tree : List (Option BzUint256)) (k : Nat) : Except Fault BzUint256 :=
  orFault .treeOutside (tree[k]?.bind id)

/-- Write a cell of the tree. -/
def writeCell (tree : List (Option BzUint256)) (k : Nat) (node : BzUint256) :
    Except Fault (List (Option BzUint256)) :=
  if k < tree.length then .ok (tree.set k (some node)) else .error .treeOutside

/-- The inner loop (`util.c:68-78`) from `i` on: the level of `s` nodes at `j` is paired up
    into the cells from `p` on. -/
def merkleLevel (s j i p : Nat) (tree : List (Option BzUint256)) :
    Except Fault (Nat × List (Option BzUint256)) :=
  if i < s then do
    let i2 := min (i + 1) (s - 1)
    let left ← readCell tree (j + i)
    let right ← readCell tree (j + i2)
    let tree ← writeCell tree p (doubleSha256 sha256 (left.d8 ++ right.d8))
    checkInt (p + 1)
    checkInt (i + 2)
    merkleLevel s j (i + 2) (p + 1) tree
  else .ok (p, tree)
termination_by s - i

/-- The outer loop (`util.c:67-80`). -/
def merkleLevels (s j p : Nat) (tree : List (Option BzUint256)) :
    Except Fault (Nat × List (Option BzUint256)) :=
  if s > 1 then do
    let (p, tree) ← merkleLevel sha256 s j 0 p tree
    checkInt (j + s)
    checkInt (s + 1)
    merkleLevels ((s + 1) / 2) (j + s) p tree
  else .ok (p, tree)
termination_by s

/-- `calc_merkle_root` (`util.c:53-85`). The leaves are copied to the front of the tree, whose
    other cells start unwritten; `n_tx` is assigned to `int`s. -/
def calcMerkleRoot (txHashes : List BzUint256) (nTx : UInt64) : Except Fault BzUint256 := do
  let nNodes := calcMerkleSize nTx
  let n := nTx.toNat
  if txHashes.length < n then .error .hashOutside
  else if nNodes.toNat < n then .error .treeOutside
  else do
    let tree := (txHashes.take n).map some ++ List.replicate (nNodes.toNat - n) none
    checkInt n
    let (p, tree) ← merkleLevels sha256 n 0 n tree
    if p = 0 then .ok .zero else readCell tree (nNodes.toNat - 1)

/-- The parent of two nodes. -/
def merkleNode (left right : BzUint256) : BzUint256 :=
  doubleSha256 sha256 (left.d8 ++ right.d8)

/-- The next level: neighbours paired up, an odd one out with itself. -/
def pairUp : List BzUint256 → List BzUint256
  | [] => []
  | [last] => [merkleNode sha256 last last]
  | left :: right :: rest => merkleNode sha256 left right :: pairUp rest

theorem length_pairUp : ∀ level, (pairUp sha256 level).length = (level.length + 1) / 2
  | [] => rfl
  | [_] => by simp [pairUp]
  | _ :: _ :: rest => by
    rw [pairUp, List.length_cons, length_pairUp rest]
    simp only [List.length_cons]
    omega

/-- The Merkle root of a list of hashes; that of no hashes is zero. -/
def merkleRoot (level : List BzUint256) : BzUint256 :=
  match level with
  | [] => .zero
  | [root] => root
  | left :: right :: rest => merkleRoot (pairUp sha256 (left :: right :: rest))
termination_by level.length
decreasing_by
  rw [length_pairUp]
  simp only [List.length_cons]
  omega

end Tree

/-- The nodes of a tree over `n` leaves. -/
def treeSize (n : Nat) : Nat :=
  if n ≤ 1 then n else n + treeSize ((n + 1) / 2)
termination_by n

theorem treeSize_succ {n : Nat} (many : 1 < n) : treeSize n = n + treeSize ((n + 1) / 2) := by
  rw [treeSize, if_neg (by omega)]

theorem treeSize_le_one {n : Nat} (few : n ≤ 1) : treeSize n = n := by
  rw [treeSize, if_pos few]

/-- A tree has fewer than twice as many nodes as leaves, up to the 64 odd ones out. -/
theorem treeSize_lt (n k : Nat) (small : n ≤ 2 ^ k) : treeSize n ≤ 2 * n + k := by
  induction k generalizing n with
  | zero =>
    rw [treeSize_le_one (by omega)]
    omega
  | succ k ih =>
    by_cases few : n ≤ 1
    · rw [treeSize_le_one few]
      omega
    · have rest := ih ((n + 1) / 2) (by rw [Nat.pow_succ] at small; omega)
      rw [treeSize_succ (by omega)]
      omega

theorem treeSize_lt_two_pow (n k : Nat) (small : n ≤ 2 ^ k) : treeSize n < 2 ^ (k + 1) := by
  induction k generalizing n with
  | zero =>
    rw [treeSize_le_one (by omega)]
    omega
  | succ k ih =>
    have half : 2 ^ (k + 1) = 2 ^ k * 2 := Nat.pow_succ 2 k
    have pos := Nat.two_pow_pos k
    by_cases few : n ≤ 1
    · rw [treeSize_le_one few, Nat.pow_succ]
      omega
    · have rest := ih ((n + 1) / 2) (by omega)
      rw [treeSize_succ (by omega), Nat.pow_succ]
      omega

theorem le_treeSize (n : Nat) : n ≤ treeSize n := by
  by_cases few : n ≤ 1
  · rw [treeSize_le_one few]
  · rw [treeSize_succ (by omega)]
    omega

/-- Pairing up adds almost as many nodes again. -/
theorem two_mul_le_treeSize (n : Nat) : 2 * n ≤ treeSize n + 1 := by
  induction n using Nat.strong_induction_on with
  | _ n ih =>
    by_cases few : n ≤ 1
    · rw [treeSize_le_one few]
      omega
    · have rest := ih ((n + 1) / 2) (by omega)
      rw [treeSize_succ (by omega)]
      omega

theorem merkleSizeLoop_eq (len i : UInt64) (small : i.toNat < 2 ^ 64 - 1) :
    merkleSizeLoop len i = len + UInt64.ofNat (treeSize i.toNat - 1) := by
  induction h : i.toNat using Nat.strong_induction_on generalizing len i with
  | _ n ih =>
    subst h
    have one : (1 : UInt64).toNat = 1 := by rfl
    rw [merkleSizeLoop]
    by_cases above : i > 1
    · have many : 1 < i.toNat := UInt64.lt_iff_toNat_lt.mp above
      have shift : (1 : UInt64).toNat % 64 = 1 := by rfl
      have half : ((i + 1) >>> 1).toNat = (i.toNat + 1) / 2 := by
        rw [UInt64.toNat_shiftRight, UInt64.toNat_add, shift, Nat.shiftRight_eq_div_pow, one]
        omega
      have leaf := le_treeSize ((i.toNat + 1) / 2)
      rw [if_pos above, ih _ (by omega) _ _ (by omega) half, treeSize_succ many, UInt64.add_assoc]
      congr 1
      have split : i.toNat + treeSize ((i.toNat + 1) / 2) - 1 =
          i.toNat + (treeSize ((i.toNat + 1) / 2) - 1) := by omega
      rw [split, UInt64.ofNat_add, UInt64.ofNat_toNat]
    · have few : i.toNat ≤ 1 := by
        have := UInt64.le_iff_toNat_le.mp (UInt64.not_lt.mp above)
        omega
      have none : treeSize i.toNat - 1 = 0 := by
        rw [treeSize_le_one few]
        omega
      rw [if_neg above, none]
      simp

/-- `calc_merkle_size` counts the nodes, and one for a tree without leaves. -/
theorem toNat_calcMerkleSize {n : UInt64} (small : n.toNat ≤ 2 ^ 63) :
    (calcMerkleSize n).toNat = max 1 (treeSize n.toNat) := by
  have bound := treeSize_lt_two_pow n.toNat 63 small
  unfold calcMerkleSize
  rw [merkleSizeLoop_eq 0 n (by omega), UInt64.zero_add]
  have len : (UInt64.ofNat (treeSize n.toNat - 1)).toNat = treeSize n.toNat - 1 := by
    rw [UInt64.toNat_ofNat', Nat.mod_eq_of_lt (by omega)]
  have two : (2 : UInt64).toNat = 2 := by rfl
  have one : (1 : UInt64).toNat = 1 := by rfl
  by_cases few : n.toNat ≤ 1
  · rw [treeSize_le_one few] at len ⊢
    have low : ¬ UInt64.ofNat (n.toNat - 1) ≥ 2 := by
      rw [ge_iff_le, UInt64.le_iff_toNat_le, len, two]
      omega
    simp only [low, if_false, one]
    omega
  · have leaf := le_treeSize ((n.toNat + 1) / 2)
    rw [treeSize_succ (by omega)] at len ⊢
    have high : UInt64.ofNat (n.toNat + treeSize ((n.toNat + 1) / 2) - 1) ≥ 2 := by
      rw [ge_iff_le, UInt64.le_iff_toNat_le, len, two]
      omega
    have sum := treeSize_succ (n := n.toNat) (by omega)
    simp only [high, if_true]
    rw [UInt64.toNat_add, len, one]
    omega

/-! ## The flat array -/

section Flat

variable {sha256 : List UInt8 → BzUint256}

theorem readCell_append {tree front back : List (Option BzUint256)} {node : BzUint256} {k : Nat}
    (shape : tree = front ++ some node :: back) (here : k = front.length) :
    readCell tree k = .ok node := by
  subst shape here
  simp [readCell]

theorem writeCell_append {tree front back : List (Option BzUint256)} {cell : Option BzUint256}
    {k : Nat} (shape : tree = front ++ cell :: back) (here : k = front.length)
    (node : BzUint256) : writeCell tree k node = .ok (front ++ some node :: back) := by
  subst shape here
  simp [writeCell]

theorem checkInt_ok {n : Nat} (small : n < 2 ^ 31) : checkInt n = .ok () := if_pos small

theorem checkInt_overflow {n : Nat} (large : ¬ n < 2 ^ 31) : checkInt n = .error .intOverflow :=
  if_neg large

/-- One iteration of the inner loop, when its cells are there. -/
theorem merkleLevel_turn {s j i p : Nat} {tree tree' : List (Option BzUint256)}
    {left right : BzUint256} (more : i < s) (readLeft : readCell tree (j + i) = .ok left)
    (readRight : readCell tree (j + min (i + 1) (s - 1)) = .ok right)
    (write : writeCell tree p (merkleNode sha256 left right) = .ok tree') :
    merkleLevel sha256 s j i p tree = (do
      checkInt (p + 1)
      checkInt (i + 2)
      merkleLevel sha256 s j (i + 2) (p + 1) tree') := by
  unfold merkleNode at write
  rw [merkleLevel, if_pos more]
  simp only [readLeft, readRight, write, bind, Except.bind]

variable (sha256) in
/-- The inner loop appends the next level, unless a cursor overflows. -/
theorem merkleLevel_eq (todo : List BzUint256) (front free : List (Option BzUint256))
    (done up : List BzUint256) {s j i p : Nat} {tree : List (Option BzUint256)}
    (shape : tree = front ++ (done ++ todo).map some ++ up.map some ++ free)
    (hs : s = (done ++ todo).length) (hj : j = front.length) (hi : i = done.length)
    (hp : p = j + s + up.length) (small : p < 2 ^ 31)
    (room : (pairUp sha256 todo).length ≤ free.length) :
    merkleLevel sha256 s j i p tree =
      if p + (pairUp sha256 todo).length < 2 ^ 31 then
        .ok (p + (pairUp sha256 todo).length,
          front ++ (done ++ todo).map some ++ (up ++ pairUp sha256 todo).map some ++
            free.drop (pairUp sha256 todo).length)
      else .error .intOverflow := by
  match todo with
  | [] =>
    have finished : ¬ i < s := by
      rw [hs, hi]
      simp
    rw [merkleLevel, if_neg finished, pairUp, List.length_nil, Nat.add_zero, if_pos small, shape]
    simp
  | [last] =>
    have count : s = done.length + 1 := by simp [hs]
    have same : min (i + 1) (s - 1) = i := by omega
    obtain ⟨cell, free, rfl⟩ := List.exists_cons_of_length_pos
      (Nat.lt_of_lt_of_le (by simp [pairUp]) room)
    have read := readCell_append (k := j + i) (shape.trans (by
      simp only [List.map_append, List.map_cons, List.map_nil, List.append_assoc,
        List.singleton_append]
      exact (List.append_assoc front (done.map some) _).symm)) (by simp [hj, hi])
    have write := writeCell_append (k := p) shape
      (by rw [hp, hs, hj]; simp only [List.length_append, List.length_map])
      (merkleNode sha256 last last)
    rw [merkleLevel_turn (by omega) read (by rwa [same]) write]
    simp only [pairUp, List.length_singleton]
    by_cases fits : p + 1 < 2 ^ 31
    · have finished : ¬ i + 2 < s := by omega
      simp only [fits, if_true, checkInt_ok fits, checkInt_ok (by omega : i + 2 < 2 ^ 31), bind,
        Except.bind]
      rw [merkleLevel, if_neg finished]
      simp
    · simp only [fits, if_false, checkInt_overflow fits, bind, Except.bind]
  | left :: right :: rest =>
    have count : s = done.length + 2 + rest.length := by
      simp [hs]
      omega
    have next : min (i + 1) (s - 1) = i + 1 := by omega
    rw [pairUp, List.length_cons] at room
    obtain ⟨cell, free, rfl⟩ := List.exists_cons_of_length_pos
      (Nat.lt_of_lt_of_le (Nat.succ_pos _) room)
    have readLeft := readCell_append (k := j + i) (shape.trans (by
      simp only [List.map_append, List.map_cons, List.append_assoc, List.cons_append]
      exact (List.append_assoc front (done.map some) _).symm)) (by simp [hj, hi])
    have shape' : tree = (front ++ (done ++ [left]).map some) ++
        some right :: (rest.map some ++ up.map some ++ cell :: free) := shape.trans (by simp)
    have readRight := readCell_append (k := j + (i + 1)) shape' (by simp [hj, hi])
    have write := writeCell_append (k := p) shape
      (by rw [hp, hs, hj]; simp only [List.length_append, List.length_map])
      (merkleNode sha256 left right)
    have written : front ++ (done ++ left :: right :: rest).map some ++ up.map some ++
        some (merkleNode sha256 left right) :: free =
        front ++ (done ++ [left, right] ++ rest).map some ++
          (up ++ [merkleNode sha256 left right]).map some ++ free := by
      simp
    have tail := merkleLevel_eq rest front free (done ++ [left, right])
      (up ++ [merkleNode sha256 left right]) (s := s) (j := j) (i := i + 2) (p := p + 1)
      written (by simp [hs]) hj (by simp [hi]) (by simp [hp]; omega)
    rw [merkleLevel_turn (by omega) readLeft (by rwa [next]) write]
    simp only [pairUp, List.length_cons]
    by_cases fits : p + 1 < 2 ^ 31
    · simp only [checkInt_ok fits, checkInt_ok (by omega : i + 2 < 2 ^ 31), bind, Except.bind]
      rw [tail fits (by simpa using room)]
      have total : p + 1 + (pairUp sha256 rest).length = p + ((pairUp sha256 rest).length + 1) := by
        omega
      rw [total]
      simp
    · have large : ¬ p + ((pairUp sha256 rest).length + 1) < 2 ^ 31 := by omega
      simp only [large, if_false, checkInt_overflow fits, bind, Except.bind]

variable (sha256) in
/-- The outer loop leaves the root in the last cell, unless a cursor overflows. -/
theorem merkleLevels_eq (level : List BzUint256) (front free : List (Option BzUint256))
    {s j p : Nat} {tree : List (Option BzUint256)} (nonempty : level ≠ [])
    (shape : tree = front ++ level.map some ++ free) (hs : s = level.length)
    (hj : j = front.length) (hp : p = j + s) (small : p < 2 ^ 31)
    (room : s + free.length = treeSize s) :
    (j + treeSize s < 2 ^ 31 → ∃ tree', merkleLevels sha256 s j p tree =
        .ok (j + treeSize s, tree') ∧
      readCell tree' (j + treeSize s - 1) = .ok (merkleRoot sha256 level)) ∧
    (¬ j + treeSize s < 2 ^ 31 → merkleLevels sha256 s j p tree = .error .intOverflow) := by
  match level with
  | [] => exact absurd rfl nonempty
  | [root] =>
    have one : s = 1 := hs
    have size := treeSize_le_one (n := s) (by omega)
    rw [size, merkleLevels, if_neg (by omega), merkleRoot]
    have read := readCell_append (k := j + s - 1) (shape.trans (by simp; rfl)) (by omega)
    exact ⟨fun _ => ⟨tree, by rw [hp], read⟩, fun large => by omega⟩
  | left :: right :: rest =>
    have many : 1 < s := by
      rw [hs]
      simp only [List.length_cons]
      omega
    have size := treeSize_succ many
    have leaf := le_treeSize ((s + 1) / 2)
    have up := length_pairUp sha256 (left :: right :: rest)
    rw [← hs] at up
    have paired := merkleLevel_eq sha256 (left :: right :: rest) front free [] []
      (s := s) (i := 0) (shape.trans (by simp)) hs hj rfl hp small (by omega)
    rw [up, List.nil_append, List.nil_append] at paired
    have higher := merkleLevels_eq (pairUp sha256 (left :: right :: rest))
      (front ++ (left :: right :: rest).map some) (free.drop ((s + 1) / 2)) (s := (s + 1) / 2)
      (j := j + s) (p := p + (s + 1) / 2)
      (by
        intro none
        rw [none, List.length_nil] at up
        omega)
      rfl up.symm (by simp [hj, hs]) (by rw [hp])
    rw [merkleLevels, if_pos many, merkleRoot, paired, size, ← Nat.add_assoc]
    by_cases fits : p + (s + 1) / 2 < 2 ^ 31
    · have higher := higher fits (by rw [List.length_drop]; omega)
      simp only [fits, if_true, bind, Except.bind, checkInt_ok (by omega : j + s < 2 ^ 31),
        checkInt_ok (by omega : s + 1 < 2 ^ 31)]
      exact higher
    · refine ⟨fun small => by omega, ?_⟩
      intro _
      simp only [fits, if_false, bind, Except.bind]
termination_by level.length
decreasing_by
  rw [length_pairUp]
  simp only [List.length_cons]
  omega

variable (sha256) in
/-- `calc_merkle_root` returns the root, if the tree has fewer than `2 ^ 31` nodes. -/
theorem calcMerkleRoot_eq {txHashes : List BzUint256} {nTx : UInt64}
    (count : txHashes.length = nTx.toNat) (small : nTx.toNat < 2 ^ 31) :
    calcMerkleRoot sha256 txHashes nTx =
      if treeSize nTx.toNat < 2 ^ 31 then .ok (merkleRoot sha256 txHashes)
      else .error .intOverflow := by
  have nodes := toNat_calcMerkleSize (n := nTx) (by omega)
  have leaf := le_treeSize nTx.toNat
  unfold calcMerkleRoot
  rw [if_neg (by omega), if_neg (by omega), List.take_of_length_le (by omega)]
  simp only [checkInt_ok small, bind, Except.bind, nodes]
  by_cases none : txHashes = []
  · have zero : nTx.toNat = 0 := by rw [← count, none, List.length_nil]
    have size := treeSize_le_one (n := nTx.toNat) (by omega)
    rw [size, zero, none, merkleLevels, merkleRoot]
    rfl
  · have some_leaf : 1 ≤ nTx.toNat := by
      rw [← count]
      exact List.length_pos_iff.mpr none
    have max : max 1 (treeSize nTx.toNat) = treeSize nTx.toNat := by omega
    rw [max]
    obtain ⟨fits, overflows⟩ := merkleLevels_eq sha256 txHashes []
      (List.replicate (treeSize nTx.toNat - nTx.toNat) Option.none) (s := nTx.toNat) (j := 0)
      (p := nTx.toNat) none rfl count.symm rfl (by omega) small (by simp; omega)
    rw [List.nil_append, Nat.zero_add] at fits overflows
    by_cases room : treeSize nTx.toNat < 2 ^ 31
    · obtain ⟨tree, levels, root⟩ := fits room
      have nonzero : treeSize nTx.toNat ≠ 0 := by omega
      simp only [levels, nonzero, if_false, room, if_true, root]
    · simp only [overflows room, room, if_false]

end Flat

end Bzing
