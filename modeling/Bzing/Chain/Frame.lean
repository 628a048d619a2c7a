import Bzing.Chain.Words

/-!
# The frame of a mark

A mark changes the word of its own transaction and one slot, that of the named index. Below
the output count the slot lies in the transaction's own range. The count is gone once slots
are allocated, and the index is then not checked, "simply the cost of saving every bit of
memory we can" (`bzing.c:610-617`): the slot can be one of another transaction.
-/

namespace Bzing

/-- The slots of transactions other than the named one hold what they held. -/
def SlotsSpared (s : Store) (l : Ledger) (outpoint : Outpoint) (s' : Store) : Prop :=
  ∀ {h n spender word pos}, h ≠ outpoint.hash → Slots s l h n spender word pos →
    ∀ j < n, ∀ v, s.spent.slot (pos + j.toNat) = some v →
      s'.spent.slot (pos + j.toNat) = some v

/-- The mark changed nothing but the word and the slots of the transaction it names, which has
`nTxout` outputs. -/
structure MarkLocal (s : Store) (l : Ledger) (outpoint : Outpoint) (nTxout : UInt32)
    (s' : Store) : Prop where
  entries : ∀ h, h ≠ outpoint.hash → s'.find h = s.find h
  start : (s'.find outpoint.hash).map BzInv.offset = (s.find outpoint.hash).map BzInv.offset
  slots : SlotsSpared s l outpoint s'
  own : ∀ {start word pos}, s'.find outpoint.hash = some ⟨start, word⟩ → IsAllocated word pos →
    ∀ k v, k < pos ∨ pos + nTxout.toNat ≤ k → s.spent.slot k = some v →
      s'.spent.slot k = some v

/-- The mark changed no slot but the one of the named index, whatever that index is. -/
structure MarkOneSlot (s : Store) (outpoint : Outpoint) (s' : Store) : Prop where
  entries : ∀ h, h ≠ outpoint.hash → s'.find h = s.find h
  start : (s'.find outpoint.hash).map BzInv.offset = (s.find outpoint.hash).map BzInv.offset
  slot : s' = s ∨ ∃ start word pos, s'.find outpoint.hash = some ⟨start, word⟩ ∧
    IsAllocated word pos ∧ ∀ k v, k ≠ pos + outpoint.index.toNat → s.spent.slot k = some v →
      s'.spent.slot k = some v

theorem markOneSlot_placed {s s' : Store} {l : Ledger} {outpoint : Outpoint}
    {offset ret : UInt64} (placed : Placed s l outpoint offset ret s') :
    MarkOneSlot s outpoint s' := by
  cases placed with
  | refused nothing => exact ⟨fun _ _ => rfl, rfl, Or.inl rfl⟩
  | @first start _ _ _ _ known entry reserved allocated slot find =>
    have marked := find outpoint.hash
    rw [if_pos rfl] at marked
    refine ⟨fun h other => by rw [find, if_neg other], by rw [marked, entry]; rfl,
      Or.inr ⟨start, _, _, marked, allocated.or_quickBit _, fun k v other read => ?_⟩⟩
    rw [SpentMap.slot_setSlot_ne slot other]
    exact reserved.slot_eq read
  | @again start _ _ _ _ _ known entry allocated slot find =>
    have marked := find outpoint.hash
    rw [if_pos rfl] at marked
    refine ⟨fun h other => by rw [find, if_neg other], by rw [marked, entry]; rfl,
      Or.inr ⟨start, _, _, marked, allocated.or_quickBit _, fun k v other read => ?_⟩⟩
    rw [SpentMap.slot_setSlot_ne slot other]
    exact read

/-- A first mark, or a mark of an existing output, spares the slots of other transactions. -/
theorem slotsSpared_placed {s s' : Store} {l : Ledger} {outpoint : Outpoint}
    {offset ret start : UInt64} {nTxout : UInt32} {spender : UInt32 → Option UInt64}
    (lay : Layout s l) (known : l outpoint.hash = some (.tx start nTxout spender))
    (placed : Placed s l outpoint offset ret s')
    (spares : outpoint.index < nTxout ∨
      s.find outpoint.hash = some ⟨start, bzTxiSpentUmark ||| nTxout.toUInt64⟩) :
    SlotsSpared s l outpoint s' := by
  intro h n spender' word pos other slots j inside v read
  rcases spares with index | fresh
  · exact slot_placed lay ⟨start, nTxout, spender, known, index⟩ placed slots inside (Or.inl other)
      read
  -- the slots of a first mark are new, whatever its index
  cases placed with
  | refused nothing => exact read
  | first known' entry reserved allocated slot find =>
    have below := (lay.packed.inside slots.owns).2
    have inside := UInt32.lt_iff_toNat_lt.mp inside
    rw [SpentMap.slot_setSlot_ne slot (by omega)]
    exact reserved.slot_eq read
  | again known' entry allocated slot find =>
    rw [entry] at fresh
    cases fresh
    exact absurd allocated (not_isAllocated_umark nTxout _)

/-- A mark of an existing output is local. -/
theorem markLocal_placed {s s' : Store} {l : Ledger} {outpoint : Outpoint}
    {offset ret start : UInt64} {nTxout : UInt32} {spender : UInt32 → Option UInt64}
    (lay : Layout s l) (known : l outpoint.hash = some (.tx start nTxout spender))
    (index : outpoint.index < nTxout) (placed : Placed s l outpoint offset ret s') :
    MarkLocal s l outpoint nTxout s' where
  entries := (markOneSlot_placed placed).entries
  start := (markOneSlot_placed placed).start
  slots := slotsSpared_placed lay known placed (Or.inl index)
  own {start' word pos} entry allocated k v outside read := by
    rcases (markOneSlot_placed placed).slot with rfl | ⟨_, word', pos', entry', allocated', kept⟩
    · exact read
    · rw [entry] at entry'
      cases entry'
      have base := allocated.base.symm.trans allocated'.base
      have index := UInt32.lt_iff_toNat_lt.mp index
      exact kept k v (by omega) read

section Reached

variable {ι : Type} [InvEngine ι] [LawfulInvEngine ι]

/-- A mark of an indexed transaction that returns changes no other entry and no slot but the
one of the named index. It spares the slots of other transactions if it is the first mark of
its transaction or names an existing output, and is then local. -/
theorem mark_frame {sha256 : List UInt8 → BzUint256} {contents : Nat → UInt8}
    {hnd hnd' : BzingHandle ι} {history : List LedgerOp} {outpoint : Outpoint}
    {offset ret start : UInt64} {nTxout : UInt32} {spender : UInt32 → Option UInt64}
    (reach : Reachable sha256 contents hnd history)
    (known : Ledger.empty.steps history outpoint.hash = some (.tx start nTxout spender))
    (marked : bzingSpentMark hnd outpoint offset = .ok (ret, hnd'))
    (le : hnd'.spentLen ≤ bzTxiSpentMax) :
    MarkOneSlot hnd.store outpoint hnd'.store ∧
    (outpoint.index < nTxout →
      MarkLocal hnd.store (Ledger.empty.steps history) outpoint nTxout hnd'.store) ∧
    (hnd.store.find outpoint.hash = some ⟨start, bzTxiSpentUmark ||| nTxout.toUInt64⟩ →
      SlotsSpared hnd.store (Ledger.empty.steps history) outpoint hnd'.store) := by
  have ok := bzingSpentMark_store_ok marked
  have cap := reachable_capacity reach
  have le' := UInt64.le_iff_toNat_le.mp le
  have lay := reachable_layout reach
    (UInt64.le_iff_toNat_le.mpr (Nat.le_trans (capacity_mark cap ok).2 le'))
  have placed := mark_placed cap lay ok le'
  exact ⟨markOneSlot_placed placed, fun index => markLocal_placed lay known index placed,
    fun fresh => slotsSpared_placed lay known placed (Or.inr fresh)⟩

end Reached

/-- The output count a ledger knows of a transaction. -/
def Ledger.nTxout (l : Ledger) (h : BzUint256) : Option UInt32 :=
  match l h with
  | some (.tx _ nTxout _) => some nTxout
  | _ => none

theorem Ledger.nTxout_eq_some {l : Ledger} {h : BzUint256} {n : UInt32} :
    l.nTxout h = some n ↔ ∃ start spender, l h = some (.tx start n spender) := by
  unfold nTxout
  rcases l h with _ | ⟨start⟩ | ⟨start, m, spender⟩
  · simp
  · simp
  · simp [eq_comm]

/-- Both transactions of the first sample block have slots: the first `1` and `2`, the second
`3`. -/
def frameCalls : List Call :=
  [.blockAdd blockFirst 8, .spentMark (.of hashTwo 0) 500, .spentMark (.of hashOne 0) 600]

/-- The store of these calls, and what a mark of the first transaction makes of it, for an
output it has and one it does not have. -/
def frameMarked (s : Store) : Bool :=
  s.spent.spentLen = 4 && s.find hashOne = some ⟨117, 3 ||| quickBit 0⟩ &&
    s.spent.slot 3 = some 600 &&
    ((s.mark (.of hashTwo 1) 700).toOption.any fun r => r.2.spent.spentLen = 4) &&
    ((s.mark (.of hashTwo 2) 700).toOption.any fun r =>
      r.2.spent.spentLen = 4 && r.2.spent.slot 3 = some 700)

set_option maxRecDepth 100000 in
theorem frameCalls_returns :
    ((Handler.perform storeHandler
        ((frameCalls.flatMap (Call.ops sampleSha256)).map LedgerOp.indexOp)).run
      (Store.alloc fun _ => 0)).toOption.any (fun r => frameMarked r.2) = true := by
  decide +kernel

set_option maxRecDepth 100000 in
theorem frameCalls_ledger :
    let l := Ledger.empty.steps (frameCalls.flatMap (Call.ops sampleSha256))
    l.nTxout hashTwo = some 2 ∧ l.nTxout hashOne = some 1 := by
  decide +kernel

theorem frameCalls_reach :
    ∃ hnd : BzingHandle IdealIndex, frameMarked hnd.store = true ∧
      Reachable sampleSha256 (fun _ => 0) hnd (frameCalls.flatMap (Call.ops sampleSha256)) := by
  have short : ∀ call ∈ frameCalls, call.Short := by
    refine List.forall_mem_cons.mpr ⟨sampleCalls_short _ List.mem_cons_self, ?_⟩
    exact List.forall_mem_cons.mpr ⟨trivial, List.forall_mem_singleton.mpr trivial⟩
  obtain ⟨hnd, reach, marked⟩ := reachable_of_returns (ι := IdealIndex) short (p := frameMarked)
    frameCalls_returns
  exact ⟨hnd, marked, reach⟩

/-- A mark that returns on the store returns on the reachable handle. -/
theorem marked_of_returns {hnd : BzingHandle IdealIndex} {history : List LedgerOp}
    {outpoint : Outpoint} {offset : UInt64} {p : Store → Bool}
    (reach : Reachable sampleSha256 (fun _ => 0) hnd history)
    (returns : (hnd.store.mark outpoint offset).toOption.any (fun r => p r.2) = true) :
    ∃ ret hnd', bzingSpentMark hnd outpoint offset = .ok (ret, hnd') ∧ p hnd'.store = true := by
  obtain ⟨r, call, holds⟩ := Handler.ok_of_any returns
  obtain ⟨hnd', same, run, -⟩ := reachable_mark_store reach call
  exact ⟨r.1, hnd', run, same ▸ holds⟩

theorem le_of_four {hnd : BzingHandle IdealIndex} (four : hnd.spentLen = 4) :
    hnd.spentLen ≤ bzTxiSpentMax := by
  rw [four]
  decide

/-- A second mark of the first transaction is local. -/
theorem mark_frame_second :
    ∃ (hnd hnd' : BzingHandle IdealIndex) (l : Ledger) (ret : UInt64),
      bzingSpentMark hnd (.of hashTwo 1) 700 = .ok (ret, hnd') ∧
      MarkLocal hnd.store l (.of hashTwo 1) 2 hnd'.store := by
  obtain ⟨hnd, marked, reach⟩ := frameCalls_reach
  obtain ⟨start, spender, known⟩ := Ledger.nTxout_eq_some.mp frameCalls_ledger.1
  simp only [frameMarked, Bool.and_eq_true] at marked
  obtain ⟨ret, hnd', run, four⟩ := marked_of_returns reach marked.1.2
    (p := fun s => s.spent.spentLen = 4)
  have known' : Ledger.empty.steps (frameCalls.flatMap (Call.ops sampleSha256))
      (Outpoint.of hashTwo 1).hash = some (.tx start 2 spender) := by
    rw [Outpoint.hash_of]
    exact known
  exact ⟨hnd, hnd', _, ret, run, (mark_frame reach known' run
    (le_of_four (of_decide_eq_true four))).2.1 (by decide)⟩

/-- Beyond the output count of an allocated transaction, a mark is not local. -/
theorem not_markLocal_beyond :
    ∃ (hnd hnd' : BzingHandle IdealIndex) (history : List LedgerOp) (ret start : UInt64)
      (spender : UInt32 → Option UInt64),
      Reachable sampleSha256 (fun _ => 0) hnd history ∧
      Ledger.empty.steps history (Outpoint.of hashTwo 2).hash = some (.tx start 2 spender) ∧
      bzingSpentMark hnd (.of hashTwo 2) 700 = .ok (ret, hnd') ∧
      hnd'.spentLen ≤ bzTxiSpentMax ∧
      ¬ MarkLocal hnd.store (Ledger.empty.steps history) (.of hashTwo 2) 2 hnd'.store := by
  obtain ⟨hnd, marked, reach⟩ := frameCalls_reach
  obtain ⟨two, one⟩ := frameCalls_ledger
  generalize frameCalls.flatMap (Call.ops sampleSha256) = history at reach two one
  obtain ⟨start, spender, known⟩ := Ledger.nTxout_eq_some.mp two
  obtain ⟨start', spender', known'⟩ := Ledger.nTxout_eq_some.mp one
  simp only [frameMarked, Bool.and_eq_true, decide_eq_true_eq] at marked
  obtain ⟨⟨⟨⟨len, entry⟩, read⟩, -⟩, after⟩ := marked
  obtain ⟨ret, hnd', run, after⟩ := marked_of_returns reach
    (p := fun s => s.spent.spentLen = 4 && s.spent.slot 3 = some 700) after
  simp only [Bool.and_eq_true, decide_eq_true_eq] at after
  refine ⟨hnd, hnd', history, ret, start, spender, reach, ?_, run, le_of_four after.1,
    fun keeps => ?_⟩
  · rw [Outpoint.hash_of]
    exact known
  · have other : hashOne ≠ (Outpoint.of hashTwo 2).hash := by
      rw [Outpoint.hash_of]
      decide
    rcases (reachable_layout reach (le_of_four len)).tx_cases known' with
      fresh | ⟨_, pos, own, slots⟩
    · rw [entry] at fresh
      have word : (3 ||| quickBit 0 : UInt64) = bzTxiSpentUmark ||| (1 : UInt32).toUInt64 :=
        congrArg BzInv.spent (Option.some.inj fresh)
      exact absurd word (by decide)
    · rw [entry] at own
      cases own
      have base : pos = 3 := slots.allocated.base.symm.trans (by decide)
      subst base
      have kept := keeps.slots other slots 0 (by decide) 600 read
      rw [show (3 : Nat) + (0 : UInt32).toNat = 3 from rfl, after.2] at kept
      cases kept

end Bzing
