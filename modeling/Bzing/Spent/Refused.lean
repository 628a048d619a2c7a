import Bzing.Spent.MarkRun

/-!
# Refusing a mark

`bzing_spent_mark` should refuse an outpoint it cannot record, and change nothing. Its tests for
an index that is too high and for a position that is too large have empty bodies
(`bzing.c:608-624`), and it follows the `NULL` of a hash that is not indexed (`bzing.c:601`).
`refusedIntact_iff` says which refusals are real: a block, and a transaction without outputs.
-/

namespace Bzing

open IndexedInvEngine (Key key held)

/-- Outpoints that cannot be recorded: the entry found under the hash, the length of the spent
map, and the index of the output. -/
inductive Refusable : Option BzInv → UInt64 → UInt32 → Prop where
  | notIndexed (spentLen : UInt64) (iTxout : UInt32) : Refusable none spentLen iTxout
  | block {data : BzInv} (spentLen : UInt64) (iTxout : UInt32)
      (kind : classify data.spent = .block) : Refusable (some data) spentLen iTxout
  | noOutputs {data : BzInv} (spentLen : UInt64) (iTxout : UInt32)
      (kind : classify data.spent = .unallocated 0) : Refusable (some data) spentLen iTxout
  | tooFewOutputs {data : BzInv} {nTxout iTxout : UInt32} (spentLen : UInt64)
      (kind : classify data.spent = .unallocated nTxout) (high : nTxout ≤ iTxout) :
      Refusable (some data) spentLen iTxout
  | overflow {data : BzInv} {nTxout : UInt32} {spentLen : UInt64} (iTxout : UInt32)
      (kind : classify data.spent = .unallocated nTxout) (above : bzTxiSpentMax < spentLen) :
      Refusable (some data) spentLen iTxout

/-- The entry is that of a block, or of a transaction without outputs. -/
def NamesNothing (entry : Option BzInv) : Prop :=
  ∃ data, entry = some data ∧
    (classify data.spent = .block ∨ classify data.spent = .unallocated 0)

section Intact

variable {ι : Type} [InvEngine ι] [IndexedInvEngine ι]

/-- The mark returns zero and leaves the index, the slots and the length as they were. -/
def RefusedIntact (hnd : BzingHandle ι) (outpoint : Outpoint) (offset : UInt64) : Prop :=
  outcome (bzingSpentMark hnd outpoint offset) = .ok (0, hnd.held, hnd.toSpentMap)

/-- A call with this outcome has returned. -/
theorem refusedIntact_run {hnd : BzingHandle ι} {outpoint : Outpoint} {offset : UInt64}
    (intact : RefusedIntact hnd outpoint offset) :
    ∃ hnd', bzingSpentMark hnd outpoint offset = .ok (0, hnd') ∧ hnd'.held = hnd.held ∧
      hnd'.toSpentMap = hnd.toSpentMap := by
  unfold RefusedIntact outcome at intact
  cases run : bzingSpentMark hnd outpoint offset with
  | error e =>
    rw [run] at intact
    cases intact
  | ok result =>
    obtain ⟨ret, hnd'⟩ := result
    rw [run] at intact
    simp only [Except.map, Except.ok.injEq, Prod.mk.injEq] at intact
    obtain ⟨rfl, same, spent⟩ := intact
    exact ⟨hnd', rfl, same, spent⟩

theorem reserve_len {m m' : SpentMap} {count pos : UInt64}
    (run : bzingSpentReserve m count = .ok (pos, m')) : m'.spentLen = m.spentLen + count := by
  unfold bzingSpentReserve at run
  simp only at run
  split at run
  · obtain ⟨zeroed, -, returned⟩ := Handler.except_bind_ok.mp run
    cases returned
    rfl
  · cases run
    rfl

variable {hnd hnd' : BzingHandle ι} {outpoint : Outpoint} {offset ret : UInt64}

/-- A block and a transaction without outputs are refused. -/
theorem refusedIntact_of_namesNothing (offset : UInt64)
    (entry : NamesNothing (hnd.held (key outpoint.hash))) :
    RefusedIntact hnd outpoint offset := by
  obtain ⟨data, there, kind⟩ := entry
  obtain ⟨prev, inv, found, kept, -⟩ := findPrev_of_held hnd there
  have same : outcome (.ok (0, { hnd with inv := inv })) =
      .ok (0, hnd.held, hnd.toSpentMap) :=
    congrArg Except.ok (Prod.ext rfl (Prod.ext kept rfl))
  unfold RefusedIntact bzingSpentMark
  simp only [found]
  unfold classify at kind
  split
  · exact same
  · rename_i notBlock
    rw [if_neg notBlock] at kind
    split
    · rename_i marker
      rw [if_pos marker] at kind
      have none : (data.spent &&& bzTxiSpentUmask).toUInt32 = 0 := by simpa using kind
      rw [if_pos none]
      exact same
    · rename_i notMarker
      rw [if_neg notMarker] at kind
      simp at kind

/-- The first mark of a transaction with outputs takes slots, whatever the index. -/
theorem spentLen_of_first {data : BzInv} {nTxout : UInt32}
    (there : hnd.held (key outpoint.hash) = some data)
    (kind : classify data.spent = .unallocated nTxout) (outputs : nTxout ≠ 0)
    (run : bzingSpentMark hnd outpoint offset = .ok (ret, hnd')) :
    hnd'.spentLen = hnd.spentLen + nTxout.toUInt64 := by
  obtain ⟨prev, inv, found, -, -⟩ := findPrev_of_held hnd there
  unfold bzingSpentMark at run
  simp only [found] at run
  unfold classify at kind
  split at run
  · rename_i block
    rw [if_pos block] at kind
    cases kind
  · rename_i notBlock
    rw [if_neg notBlock] at kind
    split at run
    · rename_i marker
      rw [if_pos marker] at kind
      have count : (data.spent &&& bzTxiSpentUmask).toUInt32 = nTxout := by simpa using kind
      rw [count, if_neg outputs] at run
      obtain ⟨⟨pos, spent⟩, reserve, marked⟩ := Handler.except_bind_ok.mp run
      obtain ⟨-, -, -, k, slot⟩ := markSlot_slot marked
      rw [(SpentMap.setSlot_eq_some.mp slot).2.1]
      exact reserve_len reserve
    · rename_i notMarker
      rw [if_neg notMarker] at kind
      cases kind

/-- The mark of a hash that is not indexed, if it returns, leaves an entry for it. -/
theorem held_of_absent (run : bzingSpentMark hnd outpoint offset = .ok (ret, hnd')) :
    (hnd'.held (key outpoint.hash)).isSome := by
  obtain ⟨-, ⟨prev, prevInv, inv, found, index⟩, -⟩ := bzingSpentMark_inv run
  obtain ⟨prev', prevInv', inv', found', absent⟩ := findPrev_absent hnd outpoint.hash
  rw [found] at found'
  cases found'
  obtain ⟨made, written⟩ := absent.resolve_left (by simp)
  unfold BzingHandle.held
  rcases index with same | ⟨data, back⟩
  · rw [same]
    exact made
  · rw [back]
    exact written data

/-- Slots are taken: the length is another. -/
theorem not_refusedIntact_of_first {data : BzInv} {nTxout : UInt32}
    (there : hnd.held (key outpoint.hash) = some data)
    (kind : classify data.spent = .unallocated nTxout) (outputs : nTxout ≠ 0)
    (offset : UInt64) : ¬ RefusedIntact hnd outpoint offset := by
  intro intact
  obtain ⟨hnd', run, -, spent⟩ := refusedIntact_run intact
  have len := spentLen_of_first there kind outputs run
  rw [congrArg SpentMap.spentLen spent] at len
  have none : nTxout.toUInt64 = 0 := UInt64.left_eq_add.mp len
  apply outputs
  rw [← UInt32.toNat_inj]
  exact congrArg UInt64.toNat none

theorem not_refusedIntact_of_absent (absent : hnd.held (key outpoint.hash) = none)
    (offset : UInt64) : ¬ RefusedIntact hnd outpoint offset := by
  intro intact
  obtain ⟨hnd', run, same, -⟩ := refusedIntact_run intact
  have made := held_of_absent run
  rw [same, absent] at made
  cases made

/-- An outpoint that cannot be recorded is refused, and nothing changed, exactly when its hash
names a block or a transaction without outputs. -/
theorem refusedIntact_iff (offset : UInt64)
    (refusable : Refusable (hnd.held (key outpoint.hash)) hnd.spentLen outpoint.index) :
    RefusedIntact hnd outpoint offset ↔ NamesNothing (hnd.held (key outpoint.hash)) := by
  constructor
  · intro intact
    have unallocated : ∀ {data : BzInv} {nTxout : UInt32},
        hnd.held (key outpoint.hash) = some data →
        classify data.spent = .unallocated nTxout →
        NamesNothing (hnd.held (key outpoint.hash)) := by
      intro data nTxout there kind
      by_cases none : nTxout = 0
      · exact ⟨data, there, Or.inr (none ▸ kind)⟩
      · exact absurd intact (not_refusedIntact_of_first there kind none offset)
    generalize entry : hnd.held (key outpoint.hash) = found at refusable
    rw [entry] at unallocated
    cases refusable with
    | notIndexed => exact absurd intact (not_refusedIntact_of_absent entry offset)
    | block _ _ kind => exact ⟨_, rfl, Or.inl kind⟩
    | noOutputs _ _ kind => exact ⟨_, rfl, Or.inr kind⟩
    | tooFewOutputs _ kind => exact unallocated rfl kind
    | overflow _ kind => exact unallocated rfl kind
  · exact refusedIntact_of_namesNothing offset

end Intact

/-- A fresh handle with one entry more. -/
def allocWith (hash : BzUint256) (word : SpentWord) : BzingHandle IdealIndex :=
  let hnd := bzingAlloc IdealIndex fun _ => 0
  { hnd with inv := InvEngine.bzingInvSet hnd.inv hash ⟨80, word.pack⟩ }

theorem held_allocWith (hash : BzUint256) (i : UInt32) (word : SpentWord) :
    (allocWith hash word).held (key (Outpoint.of hash i).hash) = some ⟨80, word.pack⟩ := by
  rw [Outpoint.hash_of]
  exact IndexedInvEngine.held_set_same _ hash _

/-- A transaction cannot spend a block. -/
theorem refusedIntact_block : RefusedIntact (allocWith .zero .block) (.of .zero 0) 7 := by
  have there := held_allocWith .zero 0 .block
  refine (refusedIntact_iff 7 ?_).mpr ⟨_, there, Or.inl classify_block⟩
  rw [there]
  exact .block _ _ classify_block

/-- Output 2 of a transaction with two outputs takes slots, and a hash that is not indexed is
followed to `NULL`. -/
theorem not_refusedIntact_unallocated :
    (Refusable ((allocWith .zero (.unallocated 2)).held (key (Outpoint.of .zero 2).hash))
        (allocWith .zero (.unallocated 2)).spentLen (Outpoint.of .zero 2).index ∧
      ¬ RefusedIntact (allocWith .zero (.unallocated 2)) (.of .zero 2) 7) ∧
    (Refusable ((bzingAlloc IdealIndex fun _ => 0).held (key (Outpoint.of .zero 0).hash))
        (bzingAlloc IdealIndex fun _ => 0).spentLen (Outpoint.of .zero 0).index ∧
      ¬ RefusedIntact (bzingAlloc IdealIndex fun _ => 0) (.of .zero 0) 7) := by
  have there := held_allocWith .zero 2 (.unallocated 2)
  have kind := classify_unallocated 2
  refine ⟨⟨?_, not_refusedIntact_of_first there kind (by decide) 7⟩,
    .notIndexed _ _, not_refusedIntact_of_absent rfl 7⟩
  rw [there, Outpoint.index_of]
  exact .tooFewOutputs _ kind (by decide)

end Bzing
