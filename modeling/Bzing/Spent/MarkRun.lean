import Bzing.Spent.Alike
import Bzing.Spent.Layout

/-!
# What a mark leaves, with any engine

`bzingSpentMark_run` inverts a mark that returns, without anything asked of the engine but its
calls: the entry it found, what it wrote back, and the slots it took. `FreshSize` is what the
length of the spent map then tells of its block, in every run.
-/

namespace Bzing

open Handler

section Mark

variable {ι : Type} [InvEngine ι] {hnd hnd' : BzingHandle ι} {outpoint : Outpoint}
  {offset ret : UInt64}

theorem markSlot_slot {prev : Option (InvEngine.Cursor ι)} {prevInv : BzInv} {spentPos : UInt64}
    {invDirty : Bool}
    (run : markSlot hnd prev outpoint offset prevInv spentPos invDirty = .ok (ret, hnd')) :
    ret = (spentPos + outpoint.index.toUInt64) * 8 ∧ hnd'.useCursors = hnd.useCursors ∧
      (hnd'.inv = hnd.inv ∨ ∃ data, hnd'.inv = writeBack hnd.inv prev outpoint.hash data) ∧
      ∃ k, hnd.toSpentMap.setSlot k offset = some hnd'.toSpentMap := by
  have slot : ∀ cells, orFault .slotOutside (ByteBuffer.store64 hnd.spentData
      ((spentPos + outpoint.index.toUInt64) * 8).toNat offset) = .ok cells →
      hnd.toSpentMap.setSlot (slotIndex spentPos outpoint.index) offset =
        some { hnd.toSpentMap with spentData := cells } := by
    intro cells stored
    rw [toNat_spentOffset] at stored
    unfold SpentMap.setSlot
    cases write : ByteBuffer.store64 hnd.spentData
        (8 * slotIndex spentPos outpoint.index) offset with
    | none =>
      rw [write] at stored
      cases stored
    | some cells' =>
      rw [write] at stored
      cases stored
      rfl
  unfold markSlot at run
  by_cases low : outpoint.index < bzTxiSpentBits
  · simp only [low, if_true] at run
    obtain ⟨cells, stored, returned⟩ := except_bind_ok.mp run
    cases returned
    exact ⟨rfl, rfl, Or.inr ⟨_, rfl⟩, _, slot cells stored⟩
  · simp only [low, if_false] at run
    obtain ⟨cells, stored, returned⟩ := except_bind_ok.mp run
    cases invDirty with
    | true =>
      cases returned
      exact ⟨rfl, rfl, Or.inr ⟨_, rfl⟩, _, slot cells stored⟩
    | false =>
      cases returned
      exact ⟨rfl, rfl, Or.inl rfl, _, slot cells stored⟩

theorem markSlot_isOk (hnd : BzingHandle ι) (prev : Option (InvEngine.Cursor ι)) (offset : UInt64)
    (prevInv : BzInv) {spentPos : UInt64} (invDirty : Bool)
    (inside : 8 * slotIndex spentPos outpoint.index + 8 ≤ hnd.spentData.length) :
    ∃ r, markSlot hnd prev outpoint offset prevInv spentPos invDirty = .ok r := by
  rw [← toNat_spentOffset] at inside
  obtain ⟨cells, stored⟩ :=
    Option.isSome_iff_exists.mp ((ByteBuffer.store64_isSome (v := offset)).mpr inside)
  unfold markSlot
  by_cases low : outpoint.index < bzTxiSpentBits
  · simp only [low, if_true]
    exact ⟨_, except_bind_ok.mpr ⟨cells, congrArg (orFault _) stored, rfl⟩⟩
  · simp only [low, if_false]
    exact ⟨_, except_bind_ok.mpr ⟨cells, congrArg (orFault _) stored, rfl⟩⟩

/-- A mark that returns has found an entry; it leaves the entry or writes it back, and takes
slots at most once. -/
structure MarkRun (hnd : BzingHandle ι) (outpoint : Outpoint) (offset : UInt64)
    (hnd' : BzingHandle ι) : Prop where
  cursors : hnd'.useCursors = hnd.useCursors
  index : ∃ prev prevInv inv, findPrev hnd outpoint.hash =
      (prev, some prevInv, { hnd with inv := inv }) ∧
    (hnd'.inv = inv ∨ ∃ data, hnd'.inv = writeBack inv prev outpoint.hash data)
  spent : ∃ m, (m = hnd.toSpentMap ∨
      ∃ n : UInt32, n ≠ 0 ∧ Reserved hnd.toSpentMap n.toUInt64 m) ∧
    (hnd'.toSpentMap = m ∨ ∃ k, m.setSlot k offset = some hnd'.toSpentMap)

/-- What a mark that returns went through, for any spent map. -/
theorem bzingSpentMark_inv (run : bzingSpentMark hnd outpoint offset = .ok (ret, hnd')) :
    hnd'.useCursors = hnd.useCursors ∧
    (∃ prev prevInv inv, findPrev hnd outpoint.hash = (prev, some prevInv, { hnd with inv := inv }) ∧
      (hnd'.inv = inv ∨ ∃ data, hnd'.inv = writeBack inv prev outpoint.hash data)) ∧
    ∃ m, (m = hnd.toSpentMap ∨ ∃ (pos : UInt64) (n : UInt32), n ≠ 0 ∧
        bzingSpentReserve hnd.toSpentMap n.toUInt64 = .ok (pos, m)) ∧
      (hnd'.toSpentMap = m ∨ ∃ k, m.setSlot k offset = some hnd'.toSpentMap) := by
  obtain ⟨prev, prevInv, inv, found⟩ := findPrev_index hnd outpoint.hash
  have found := found hnd rfl rfl
  unfold bzingSpentMark at run
  simp only [found] at run
  cases prevInv with
  | none => cases run
  | some prevInv =>
    simp only at run
    split at run
    · cases run
      exact ⟨rfl, ⟨prev, prevInv, inv, found, Or.inl rfl⟩, _, Or.inl rfl, Or.inl rfl⟩
    split at run
    · split at run
      · cases run
        exact ⟨rfl, ⟨prev, prevInv, inv, found, Or.inl rfl⟩, _, Or.inl rfl, Or.inl rfl⟩
      · rename_i outputs
        obtain ⟨⟨pos, m⟩, reserve, marked⟩ := except_bind_ok.mp run
        obtain ⟨-, cursors, index, slot⟩ := markSlot_slot marked
        exact ⟨cursors, ⟨prev, prevInv, inv, found, index⟩, m, Or.inr ⟨pos, _, outputs, reserve⟩,
          Or.inr slot⟩
    · obtain ⟨-, cursors, index, slot⟩ := markSlot_slot run
      exact ⟨cursors, ⟨prev, prevInv, inv, found, index⟩, _, Or.inl rfl, Or.inr slot⟩

theorem bzingSpentMark_run (sized : hnd.toSpentMap.Sized)
    (run : bzingSpentMark hnd outpoint offset = .ok (ret, hnd')) :
    MarkRun hnd outpoint offset hnd' := by
  obtain ⟨cursors, index, m, reserved, written⟩ := bzingSpentMark_inv run
  refine ⟨cursors, index, m, reserved.imp_right ?_, written⟩
  rintro ⟨pos, n, outputs, reserve⟩
  exact ⟨n, outputs, (reserve_ok sized reserve).2⟩

end Mark

/-- While no slot has been taken the block has the size it was made with. -/
structure FreshSize (m : SpentMap) : Prop where
  cap : Capacity m
  fresh : m.spentLen = 1 → m.spentSize = bzSpentInitSize

theorem freshSize_alloc (contents : Nat → UInt8) : FreshSize (SpentMap.alloc contents) :=
  ⟨capacity_alloc contents, fun _ => rfl⟩

namespace FreshSize

variable {m m' : SpentMap}

theorem reserved (fresh : FreshSize m) {n : UInt32} (outputs : n ≠ 0)
    (reserved : Reserved m n.toUInt64 m') : FreshSize m' where
  cap := fresh.cap.reserved reserved
  fresh one := by
    have len := fresh.cap.len_reserved reserved
    have ge := fresh.cap.len_ge
    have some : n.toNat ≠ 0 := by
      rw [ne_eq, ← UInt32.toNat_inj] at outputs
      exact outputs
    have one : m'.spentLen.toNat = 1 := by rw [one]; rfl
    omega

theorem setSlot (fresh : FreshSize m) {k : Nat} {v : UInt64}
    (stored : m.setSlot k v = some m') : FreshSize m' := by
  obtain ⟨-, len, size⟩ := SpentMap.setSlot_eq_some.mp stored
  refine ⟨fresh.cap.setSlot stored, ?_⟩
  rw [len, size]
  exact fresh.fresh

theorem mark {ι : Type} [InvEngine ι] {hnd hnd' : BzingHandle ι} {outpoint : Outpoint}
    {offset : UInt64} (fresh : FreshSize hnd.toSpentMap)
    (marked : MarkRun hnd outpoint offset hnd') : FreshSize hnd'.toSpentMap := by
  obtain ⟨m, taken, written⟩ := marked.spent
  have middle : FreshSize m := by
    rcases taken with rfl | ⟨n, outputs, reserved⟩
    · exact fresh
    · exact fresh.reserved outputs reserved
  rcases written with same | ⟨k, stored⟩
  · rw [same]
    exact middle
  · exact middle.setSlot stored

/-- The handle is alike to a fresh one but for the index. -/
theorem sameSize (fresh : FreshSize m) (one : m.spentLen = 1) (contents : Nat → UInt8) :
    SameSize m (SpentMap.alloc contents) where
  len := one
  size := fresh.fresh one
  data := by
    have sized := fresh.cap.sized
    unfold SpentMap.Sized at sized
    rw [sized, fresh.fresh one, SpentMap.alloc, length_malloc]

end FreshSize

end Bzing
