import Bzing.Chain.Regen
import Bzing.Spent.Simulation

/-!
# Indexing a chain with an engine that serves

The operations for a well-formed file ask only for hashes of the file, and mark only what was set
before. So an index that serves these hashes is enough for `bzing_index_regen`: it ends where it
ends on a finite map (`agrees_perform`), and the index stands for what stands in the file
(`regenServes_of_agrees`).
-/

namespace Bzing

open Handler

section Asks

theorem allAskKnown_append {known : BzUint256 → Prop} {front back : List IndexOp} :
    AllAskKnown known (front ++ back) ↔
      AllAskKnown known front ∧ AllAskKnown (front.foldl knownAfter known) back := by
  induction front generalizing known with
  | nil => simp [AllAskKnown]
  | cons op front ih => simp [AllAskKnown, ih, and_assoc]

/-- Marks of known hashes change nothing about what is known. -/
theorem allAskKnown_marks {known : BzUint256 → Prop} (offset : UInt64) {inputs : List Outpoint}
    (all : ∀ outpoint ∈ inputs, known outpoint.hash) :
    AllAskKnown known (inputs.map fun outpoint => IndexOp.mark outpoint offset) ∧
      (inputs.map fun outpoint => IndexOp.mark outpoint offset).foldl knownAfter known = known := by
  induction inputs with
  | nil => exact ⟨trivial, rfl⟩
  | cons outpoint inputs ih =>
    obtain ⟨rest, same⟩ := ih fun outpoint member => all outpoint (List.mem_cons_of_mem _ member)
    exact ⟨⟨all outpoint List.mem_cons_self, rest⟩, same⟩

/-- The operations for an item mark its inputs and set its hash. -/
theorem Item.indexOps (item : Item) : ∃ data, item.ops.map LedgerOp.indexOp =
    item.inputs.map (fun outpoint => IndexOp.mark outpoint (UInt64.ofNat item.position)) ++
      [IndexOp.set item.hash data] := by
  cases item with
  | block hash position => exact ⟨_, rfl⟩
  | tx hash position nTxout inputs =>
    refine ⟨⟨UInt64.ofNat position, bzTxiSpentUmark ||| nTxout.toUInt64⟩, ?_⟩
    rw [Item.ops, List.map_append, List.map_map]
    rfl

theorem Item.allAskKnown {known : BzUint256 → Prop} {item : Item}
    (all : ∀ outpoint ∈ item.inputs, known outpoint.hash) :
    AllAskKnown known (item.ops.map LedgerOp.indexOp) ∧
      ∀ h, h = item.hash ∨ known h → (item.ops.map LedgerOp.indexOp).foldl knownAfter known h := by
  obtain ⟨data, equation⟩ := item.indexOps
  obtain ⟨marks, same⟩ := allAskKnown_marks (UInt64.ofNat item.position) all
  rw [equation, allAskKnown_append, List.foldl_append, same]
  exact ⟨⟨marks, trivial, trivial⟩, fun _ => id⟩

/-- The operations for items whose inputs name earlier ones mark only what was set. -/
theorem allAskKnown_items {known : BzUint256 → Prop} {before items : List Item}
    (earlier : EarlierFrom before items) (all : ∀ item ∈ before, known item.hash) :
    AllAskKnown known ((items.flatMap Item.ops).map LedgerOp.indexOp) := by
  induction items generalizing known before with
  | nil => trivial
  | cons item items ih =>
    obtain ⟨now, later⟩ := earlier
    have inputs : ∀ outpoint ∈ item.inputs, known outpoint.hash := by
      intro outpoint member
      obtain ⟨item', stands, same, -⟩ := now outpoint member
      exact same ▸ all item' stands
    obtain ⟨asks, more⟩ := Item.allAskKnown inputs
    rw [List.flatMap_cons, List.map_append, allAskKnown_append]
    refine ⟨asks, ih later ?_⟩
    intro item' member
    rcases List.mem_append.mp member with stands | last
    · exact more _ (Or.inr (all item' stands))
    · rw [List.mem_singleton.mp last]
      exact more _ (Or.inl rfl)

/-- The operations for an item ask for its hash and for those of its inputs. -/
theorem Item.named {item : Item} {op : IndexOp} (member : op ∈ item.ops.map LedgerOp.indexOp) :
    op.hash = item.hash ∨ ∃ outpoint ∈ item.inputs, op.hash = outpoint.hash := by
  obtain ⟨data, equation⟩ := item.indexOps
  rw [equation, List.mem_append, List.mem_singleton] at member
  rcases member with mark | set
  · obtain ⟨outpoint, input, rfl⟩ := List.mem_map.mp mark
    exact Or.inr ⟨outpoint, input, rfl⟩
  · rw [set]
    exact Or.inl rfl

/-- The operations for items ask for hashes of items. -/
theorem named_items {items : List Item} (earlier : InputsEarlier items) :
    ∀ op ∈ (items.flatMap Item.ops).map LedgerOp.indexOp, op.hash ∈ items.map Item.hash := by
  intro op member
  obtain ⟨ledgerOp, performed, rfl⟩ := List.mem_map.mp member
  obtain ⟨item, inFile, performed⟩ := List.mem_flatMap.mp performed
  rcases Item.named (List.mem_map_of_mem performed) with own | ⟨outpoint, input, same⟩
  · rw [own]
    exact List.mem_map_of_mem inFile
  · rw [same]
    exact earlier.named inFile input

end Asks

section Run

variable {ι : Type} [InvEngine ι] {sha256 : List UInt8 → BzUint256} {contents : Nat → UInt8}
  {chain : List Framed} {S : ι → IdealIndex → Prop}

/-- Indexing the file on a fresh handle ends at its last byte, and the index stands for a finite
    map that says what stands in the file. -/
def RegenServes (ι : Type) [InvEngine ι] (S : ι → IdealIndex → Prop)
    (sha256 : List UInt8 → BzUint256) (contents : Nat → UInt8) (chain : List Framed) : Prop :=
  ∃ calls hnd ideal, (bzingIndexRegen sha256 (fileOf chain) indexHandler).run
      (bzingAlloc ι contents) = .ok (some (UInt64.ofNat (fileOf chain).length, calls), hnd) ∧
    S hnd.inv ideal ∧ ChainIndexed (fileItems sha256 0 chain) ⟨ideal.find, hnd.toSpentMap⟩

/-- The operations for the file do the same on both handles. -/
theorem WellFormedChain.agrees_perform (ok : WellFormedChain sha256 chain)
    (serves : Serves (· ∈ (fileItems sha256 0 chain).map Item.hash) S)
    (empty : S InvEngine.empty InvEngine.empty) :
    Agrees (Acts S)
      ((perform indexHandler (((fileItems sha256 0 chain).flatMap Item.ops).map
        LedgerOp.indexOp)).run (bzingAlloc ι contents))
      ((perform indexHandler (((fileItems sha256 0 chain).flatMap Item.ops).map
        LedgerOp.indexOp)).run (bzingAlloc IdealIndex contents)) := by
  have earlier : EarlierFrom [] (fileItems sha256 0 chain) := earlierFrom_iff.mpr ok.inputs
  have fresh : Acts (Knowing S fun _ => False) (bzingAlloc ι contents)
      (bzingAlloc IdealIndex contents) := ⟨rfl, empty, nofun⟩
  exact agrees_perform_serves serves (named_items ok.inputs) (allAskKnown_items earlier nofun) fresh

/-- So do they where the engine serves the hashes of all items but the last, which is only set. -/
theorem WellFormedChain.agrees_perform_last (ok : WellFormedChain sha256 chain)
    {before : List Item} {item : Item} (split : fileItems sha256 0 chain = before ++ [item])
    (serves : Serves (· ∈ before.map Item.hash) S) (empty : S InvEngine.empty InvEngine.empty)
    {S' : ι → IdealIndex → Prop} (last : ∀ inv ideal data, S inv ideal →
      S' (InvEngine.bzingInvSet inv item.hash data) (ideal.insert item.hash data)) :
    Agrees (Acts S')
      ((perform indexHandler (((fileItems sha256 0 chain).flatMap Item.ops).map
        LedgerOp.indexOp)).run (bzingAlloc ι contents))
      ((perform indexHandler (((fileItems sha256 0 chain).flatMap Item.ops).map
        LedgerOp.indexOp)).run (bzingAlloc IdealIndex contents)) := by
  have earlier := ok.inputs
  rw [split] at earlier ⊢
  obtain ⟨data, equation⟩ := item.indexOps
  have fromStart : EarlierFrom [] (before ++ [item]) := earlierFrom_iff.mpr earlier
  have asks : AllAskKnown (fun _ => False) (((before ++ [item]).flatMap Item.ops).map
      LedgerOp.indexOp) := allAskKnown_items fromStart nofun
  rw [List.flatMap_append, List.map_append, List.flatMap_singleton, equation,
    ← List.append_assoc] at asks ⊢
  have named : ∀ op ∈ (before.flatMap Item.ops).map LedgerOp.indexOp ++
      item.inputs.map (fun outpoint => IndexOp.mark outpoint (UInt64.ofNat item.position)),
        op.hash ∈ before.map Item.hash := by
    intro op member
    rcases List.mem_append.mp member with front | mark
    · exact named_items earlier.init op front
    · obtain ⟨outpoint, input, rfl⟩ := List.mem_map.mp mark
      obtain ⟨position, nTxout, inputs, inFile, -⟩ := earlier.last input
      exact List.mem_map_of_mem inFile
  have fresh : Acts (Knowing S fun _ => False) (bzingAlloc ι contents)
      (bzingAlloc IdealIndex contents) := ⟨rfl, empty, nofun⟩
  generalize (before.flatMap Item.ops).map LedgerOp.indexOp ++ _ = front at asks named ⊢
  rw [perform_append, perform_append, StateT.run_bind, StateT.run_bind]
  refine (agrees_perform_serves serves named (allAskKnown_append.mp asks).1 fresh).bind ?_
  intro _ hnd hnd' acts
  exact .ok () ⟨acts.spent, last _ _ data acts.inv⟩

/-- A run that ends had room for the Merkle trees, and performed the operations. -/
theorem WellFormedChain.performed_of_run (ok : WellFormedChain sha256 chain)
    {r : UInt64 × List BlockCall} {hnd hnd' : BzingHandle ι}
    (run : (bzingIndexRegen sha256 (fileOf chain) indexHandler).run hnd = .ok (some r, hnd')) :
    (∀ framed ∈ chain, treeSize framed.block.txs.length < 2 ^ 31) ∧
      (perform indexHandler (((fileItems sha256 0 chain).flatMap Item.ops).map
        LedgerOp.indexOp)).run hnd = .ok ((), hnd') := by
  have room := treeSize_of_regenLoop ok.short (List.nil_append _).symm run
  obtain ⟨calls, equation⟩ := ok.regen_at room
  rw [equation] at run
  obtain ⟨_, hnd1, performed, returned⟩ := run_bind_ok.mp run
  obtain ⟨-, rfl⟩ := run_pure_ok.mp returned
  exact ⟨room, performed⟩

section Agrees

variable (ok : WellFormedChain sha256 chain)
  (agrees : Agrees (Acts S)
    ((perform indexHandler (((fileItems sha256 0 chain).flatMap Item.ops).map
      LedgerOp.indexOp)).run (bzingAlloc ι contents))
    ((perform indexHandler (((fileItems sha256 0 chain).flatMap Item.ops).map
      LedgerOp.indexOp)).run (bzingAlloc IdealIndex contents)))
include ok agrees

/-- Where the operations agree, those that return had room for the slots. -/
theorem fits_of_agrees {hnd : BzingHandle ι}
    (performed : (perform indexHandler (((fileItems sha256 0 chain).flatMap Item.ops).map
      LedgerOp.indexOp)).run (bzingAlloc ι contents) = .ok ((), hnd)) :
    PlanFits (outputCount (fileItems sha256 0 chain)) SlotPlan.start
      ((fileItems sha256 0 chain).flatMap Item.inputs) := by
  rw [performed] at agrees
  rcases ok.perform_cases contents with ⟨fits, -⟩ | ⟨-, e, failed⟩
  · exact fits
  · rw [← bzingAlloc_store (ι := IdealIndex), ← perform_store] at failed
    generalize (perform indexHandler _).run (bzingAlloc IdealIndex contents) = right
      at agrees failed
    cases agrees with
    | ok _ related => cases failed

/-- Where the operations agree and there is room, the index stands for what the file says. -/
theorem regenServes_of_agrees
    (room : ∀ framed ∈ chain, treeSize framed.block.txs.length < 2 ^ 31)
    (fits : PlanFits (outputCount (fileItems sha256 0 chain)) SlotPlan.start
      ((fileItems sha256 0 chain).flatMap Item.inputs)) :
    RegenServes ι S sha256 contents chain := by
  rcases ok.perform_cases contents with ⟨-, s, run, indexed⟩ | ⟨outside, -⟩
  · rw [← bzingAlloc_store (ι := IdealIndex)] at run
    obtain ⟨hnd', performed, rfl⟩ := perform_of_store run
    obtain ⟨calls, equation⟩ := ok.regen_at room
    rw [performed] at agrees
    generalize left : (perform indexHandler _).run (bzingAlloc ι contents) = ran at agrees
    cases agrees with
    | @ok _ hnd _ acts =>
      refine ⟨calls, hnd, hnd'.inv, ?_, acts.inv, ?_⟩
      · rw [equation]
        exact run_bind_ok.mpr ⟨(), hnd, left, rfl⟩
      · rw [acts.spent]
        exact indexed
  · exact absurd fits outside

end Agrees

end Run

end Bzing
