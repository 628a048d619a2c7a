import Bzing.Block.Decode
import Bzing.Chain.Items

/-!
# Files of blocks

A block file holds blocks one after the other, each behind eight bytes that
`bzing_index_regen` skips (`bzing.c:738-753`). `fileItems` lists what stands in it and where.
`regenLoop_at` says that indexing the file performs the operations for its items and stops at
its end; `treeSize_of_regenLoop` that a run that returns had room for every Merkle tree.
-/

namespace Bzing

open ByteBuffer Handler

/-- A block and the eight bytes in front of it. -/
structure Framed where
  framing : Field 8
  block : Block

def Framed.serialise (framed : Framed) : List UInt8 := framed.framing.1 ++ framed.block.serialise

/-- The file that holds the blocks. -/
def fileOf (chain : List Framed) : List UInt8 := chain.flatMap Framed.serialise

section Items

variable (sha256 : List UInt8 → BzUint256)

/-- The transactions of a block from the `i`-th on, which stands at `position`. The first
    transaction of a block spends nothing. -/
def txItems : Nat → Nat → List Tx → List Item
  | _, _, [] => []
  | i, position, tx :: txs =>
    .tx (tx.hash sha256) position tx.nTxout
        (if i = 0 then [] else tx.inputs.map TxIn.outpoint) ::
      txItems (i + 1) (position + tx.serialise.length) txs

/-- A block at `position` and its transactions behind header and count. -/
def Block.items (block : Block) (position : Nat) : List Item :=
  .block (block.hash sha256) position ::
    txItems sha256 0 (position + (80 + (putVarInt block.txs.length).length)) block.txs

/-- What stands in the file from `position` on. -/
def fileItems : Nat → List Framed → List Item
  | _, [] => []
  | position, framed :: chain =>
    framed.block.items sha256 (position + 8) ++
      fileItems (position + framed.serialise.length) chain

end Items

theorem txItems_ops (sha256 : List UInt8 → BzUint256) (position i start : Nat) (txs : List Tx) :
    (txItems sha256 i (position + start) txs).flatMap Item.ops =
      txOps sha256 (UInt64.ofNat position) i start txs := by
  induction txs generalizing i start with
  | nil => rfl
  | cons tx txs ih =>
    rw [txItems, txOps, List.flatMap_cons, Nat.add_assoc position, ih]
    simp only [Item.ops, Tx.spends, UInt64.ofNat_add, List.append_assoc, List.singleton_append]
    by_cases first : i = 0
    · simp only [first, if_true, List.map_nil]
    · simp only [first, if_false, List.map_map]
      rfl

/-- The operations for the items of a block are those for the block. -/
theorem Block.items_ops (sha256 : List UInt8 → BzUint256) (block : Block) (position : Nat) :
    (block.items sha256 position).flatMap Item.ops =
      block.ops sha256 (UInt64.ofNat position) := by
  rw [Block.items, List.flatMap_cons, txItems_ops, Block.ops, Item.ops, UInt64.ofNat_add]
  rfl

theorem Framed.length_serialise (framed : Framed) :
    framed.serialise.length = 8 + framed.block.serialise.length := by
  rw [serialise, List.length_append, framed.framing.2]

theorem length_le_fileOf (chain : List Framed) : chain.length ≤ (fileOf chain).length := by
  apply length_le_flatMap
  intro framed
  rw [framed.length_serialise]
  omega

section File

variable {sha256 : List UInt8 → BzUint256} {file front : List UInt8} {framed : Framed}
  {chain : List Framed}

theorem length_file (shape : file = front ++ fileOf (framed :: chain)) :
    file.length = front.length + (8 + framed.block.serialise.length) + (fileOf chain).length := by
  rw [shape, fileOf, List.flatMap_cons, List.length_append, List.length_append,
    framed.length_serialise, fileOf]
  omega

/-- The loop goes on in front of a frame. -/
theorem frame_goes_on (small : file.length < 2 ^ 63)
    (shape : file = front ++ fileOf (framed :: chain)) :
    UInt64.ofNat front.length < UInt64.ofNat file.length - 1 := by
  have length := length_file shape
  have block := framed.block.length_serialise
  have one : (1 : UInt64).toNat = 1 := by rfl
  have total : (UInt64.ofNat file.length).toNat = file.length := by
    rw [UInt64.toNat_ofNat', Nat.mod_eq_of_lt (by omega)]
  have le : (1 : UInt64) ≤ UInt64.ofNat file.length := by
    rw [UInt64.le_iff_toNat_le, total, one]
    omega
  rw [UInt64.lt_iff_toNat_lt, UInt64.toNat_sub_of_le _ _ le, total, one, UInt64.toNat_ofNat',
    Nat.mod_eq_of_lt (by omega)]
  omega

theorem frame_at (small : file.length < 2 ^ 63)
    (shape : file = front ++ fileOf (framed :: chain)) :
    At file (UInt64.ofNat front.length + 8) 0 framed.block.serialise := by
  have length := length_file shape
  have here : ((UInt64.ofNat front.length + 8) + 0).toNat = (front ++ framed.framing.1).length := by
    rw [UInt64.add_zero, show (8 : UInt64) = UInt64.ofNat 8 from rfl, ← UInt64.ofNat_add,
      UInt64.toNat_ofNat', Nat.mod_eq_of_lt (by omega), List.length_append, framed.framing.2]
  refine ⟨?_, ?_⟩
  · rw [here, shape, fileOf, List.flatMap_cons, Framed.serialise]
    have holds := holdsAt_of_append (front ++ framed.framing.1) framed.block.serialise
      (chain.flatMap Framed.serialise)
    simpa only [List.append_assoc] using holds
  · rw [here, List.length_append, framed.framing.2]
    omega

/-- The frame behind a frame. -/
theorem frame_next (framed : Framed) (front : List UInt8) :
    UInt64.ofNat front.length + 8 + (framed.block.report sha256).actualLen =
      UInt64.ofNat (front ++ framed.serialise).length := by
  rw [List.length_append, framed.length_serialise, UInt64.ofNat_add, UInt64.ofNat_add,
    ← UInt64.add_assoc]
  rfl

/-- Indexing a file of blocks performs the operations for its items and stops at its end, if
    every Merkle tree has fewer than `2 ^ 31` nodes. -/
theorem regenLoop_at (small : file.length < 2 ^ 63) (nonempty : file ≠ [])
    (shape : file = front ++ fileOf chain)
    (room : ∀ framed ∈ chain, treeSize framed.block.txs.length < 2 ^ 31) {fuel : Nat}
    (enough : chain.length < fuel) (nBlocks : UInt32) :
    ∃ calls, ∀ {σ : Type} (h : Handler IndexOp σ Fault),
      regenLoop sha256 file h (UInt64.ofNat file.length) fuel nBlocks
        (UInt64.ofNat front.length) = (do
          perform h (((fileItems sha256 front.length chain).flatMap Item.ops).map
            LedgerOp.indexOp)
          pure (some (UInt64.ofNat file.length, calls))) := by
  induction chain generalizing front fuel nBlocks with
  | nil =>
    obtain ⟨fuel, rfl⟩ : ∃ k, fuel = k + 1 := ⟨fuel - 1, by omega⟩
    have whole : front = file := by rw [shape, fileOf, List.flatMap_nil, List.append_nil]
    subst whole
    have positive := List.length_pos_iff.mpr nonempty
    have one : (1 : UInt64).toNat = 1 := by rfl
    have total : (UInt64.ofNat front.length).toNat = front.length := by
      rw [UInt64.toNat_ofNat', Nat.mod_eq_of_lt (by omega)]
    have le : (1 : UInt64) ≤ UInt64.ofNat front.length := by
      rw [UInt64.le_iff_toNat_le, total, one]
      omega
    have done : ¬ UInt64.ofNat front.length < UInt64.ofNat front.length - 1 := by
      rw [UInt64.lt_iff_toNat_lt, UInt64.toNat_sub_of_le _ _ le, total, one]
      omega
    refine ⟨[], ?_⟩
    intro σ h
    rw [regenLoop, if_neg done]
    simp [fileItems]
  | cons framed chain ih =>
    rw [List.length_cons] at enough
    obtain ⟨fuel, rfl⟩ : ∃ k, fuel = k + 1 := ⟨fuel - 1, by omega⟩
    have shape' : file = (front ++ framed.serialise) ++ fileOf chain := by
      rw [shape, fileOf, List.flatMap_cons, List.append_assoc]
      rfl
    have tree := room framed List.mem_cons_self
    have few := Nat.lt_of_le_of_lt (le_treeSize _) tree
    obtain ⟨calls, rest⟩ := ih shape' (fun f member => room f (List.mem_cons_of_mem _ member))
      (by omega : chain.length < fuel) (nBlocks + 1)
    refine ⟨⟨nBlocks + 1, UInt64.ofNat front.length + 8,
      UInt64.ofNat file.length - (UInt64.ofNat front.length + 8), framed.block.report sha256⟩ ::
        calls, ?_⟩
    intro σ h
    rw [regenLoop, if_pos (frame_goes_on small shape),
      bzingBlockAdd_at h _ _ _ few (frame_at small shape), if_pos tree]
    simp only [bind_assoc, pure_bind, frame_next, rest, Option.map_some]
    rw [fileItems, List.flatMap_append, List.map_append, perform_append, bind_assoc,
      Block.items_ops, UInt64.ofNat_add, List.length_append]
    rfl

/-- A run over a file of blocks that returns had room for every Merkle tree. -/
theorem treeSize_of_regenLoop (small : file.length < 2 ^ 63)
    (shape : file = front ++ fileOf chain) {σ : Type} {h : Handler IndexOp σ Fault} {s s' : σ}
    {fuel : Nat} {nBlocks : UInt32} {result : UInt64 × List BlockCall}
    (run : (regenLoop sha256 file h (UInt64.ofNat file.length) fuel nBlocks
      (UInt64.ofNat front.length)).run s = .ok (some result, s')) :
    ∀ framed ∈ chain, treeSize framed.block.txs.length < 2 ^ 31 := by
  induction chain generalizing front fuel nBlocks s s' result with
  | nil =>
    intro framed member
    cases member
  | cons framed chain ih =>
    cases fuel with
    | zero =>
      obtain ⟨none, -⟩ := run_pure_ok.mp run
      cases none
    | succ fuel =>
      have shape' : file = (front ++ framed.serialise) ++ fileOf chain := by
        rw [shape, fileOf, List.flatMap_cons, List.append_assoc]
        rfl
      have at' := frame_at small shape
      rw [regenLoop, if_pos (frame_goes_on small shape)] at run
      obtain ⟨added, s1, first, run⟩ := run_bind_ok.mp run
      obtain ⟨rest, s2, others, returned⟩ := run_bind_ok.mp run
      obtain ⟨mapped, -⟩ := run_pure_ok.mp returned
      obtain ⟨rfl, -⟩ := bzingBlockAdd_returned (by omega) at' first
      rw [frame_next] at others
      intro framed' member
      rcases List.mem_cons.mp member with rfl | later
      · exact treeSize_of_run (by omega) at' first
      · cases rest with
        | none => cases mapped
        | some rest => exact ih shape' others framed' later

end File

end Bzing
