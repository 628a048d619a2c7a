import Bzing.Spent.Map

/-!
# Room for the slots

`bzing_spent_reserve` (`bzing.c:269-288`) doubles the block at most once, whatever number of
slots it is asked for. `keepsSound_iff` says when that is enough: the slots behind the length
and the new ones must fit twice the size. From a fresh handle 1024 slots are too many.
-/

namespace Bzing

namespace SpentMap

/-- All slots below the length lie in the block, as `bzing_alloc` makes it. -/
structure Sound (m : SpentMap) : Prop where
  sized : m.Sized
  room : 8 * m.spentLen.toNat ≤ m.spentSize.toNat

theorem sound_alloc (contents : Nat → UInt8) : (alloc contents).Sound where
  sized := by simp only [Sized, alloc, length_malloc]
  room := by simp [alloc, bzSpentInitSize]

/-- Reserving succeeds and leaves a sound handle, the old bytes as they were, the new ones
zero. -/
def KeepsSound (m : SpentMap) (count : UInt64) : Prop :=
  ∃ m', bzingSpentReserve m count = .ok (m.spentLen, m') ∧ m'.Sound ∧
    m'.spentLen.toNat = m.spentLen.toNat + count.toNat ∧
    (∀ k < m'.spentLen.toNat, (m'.slot k).isSome) ∧
    (∀ a < m.spentSize.toNat, m'.spentData[a]? = m.spentData[a]?) ∧
    (∀ a, m.spentSize.toNat ≤ a → a < m'.spentSize.toNat → m'.spentData[a]? = some 0)

/-- The slots fit the block or, while it can be doubled, twice the block. -/
def FitsDoubled (m : SpentMap) (count : UInt64) : Prop :=
  8 * (m.spentLen.toNat + count.toNat) ≤ m.spentSize.toNat ∨
    8 * (m.spentLen.toNat + count.toNat) ≤ 2 * m.spentSize.toNat ∧ m.spentSize.toNat < 2 ^ 63

end SpentMap

section Reserve

variable {m m' : SpentMap} {count : UInt64}

/-- Slots below the length of a sound handle lie in its block. -/
theorem SpentMap.Sound.slot_isSome (sound : m.Sound) {k : Nat} (below : k < m.spentLen.toNat) :
    (m.slot k).isSome := by
  have sized := sound.sized
  have room := sound.room
  unfold SpentMap.Sized at sized
  rw [slot, ByteBuffer.load64_isSome]
  omega

/-- The new bytes are behind the old ones and zero. -/
theorem Reserved.bytes (reserved : Reserved m count m') (sized : m.Sized) :
    (∀ a < m.spentSize.toNat, m'.spentData[a]? = m.spentData[a]?) ∧
      (∀ a, m.spentSize.toNat ≤ a → a < m'.spentSize.toNat → m'.spentData[a]? = some 0) := by
  have size := reserved.sized
  unfold SpentMap.Sized at sized size
  obtain ⟨k, data⟩ := reserved.data_eq
  rw [data, List.length_append, List.length_replicate] at size
  rw [data]
  constructor
  · intro a old
    rw [List.getElem?_append_left (by omega)]
  · intro a behind below
    rw [List.getElem?_append_right (by omega), List.getElem?_replicate_of_lt (by omega)]

theorem keepsSound_of_reserved (sound : m.Sound) (reserved : Reserved m count m')
    (length : m'.spentLen.toNat = m.spentLen.toNat + count.toNat)
    (room : 8 * (m.spentLen.toNat + count.toNat) ≤ m'.spentSize.toNat)
    (reserve : bzingSpentReserve m count = .ok (m.spentLen, m')) : m.KeepsSound count := by
  have sound' : m'.Sound := ⟨reserved.sized, by omega⟩
  obtain ⟨old, new⟩ := reserved.bytes sound.sized
  exact ⟨m', reserve, sound', length, fun k below => sound'.slot_isSome below, old, new⟩

/-- Twice the block is enough. -/
theorem keepsSound_of_fits (sound : m.Sound) (fits : m.FitsDoubled count) : m.KeepsSound count := by
  have bound := m.spentSize.toNat_lt
  have eight : (8 : UInt64).toNat = 8 := by decide
  have nowrap : 8 * (m.spentLen.toNat + count.toNat) < 2 ^ 64 := by
    rcases fits with fits | ⟨fits, small⟩ <;> omega
  have length : (m.spentLen + count).toNat = m.spentLen.toNat + count.toNat := by
    rw [UInt64.toNat_add, Nat.mod_eq_of_lt (by omega)]
  have bytes : ((m.spentLen + count) * 8).toNat = 8 * (m.spentLen.toNat + count.toNat) := by
    rw [UInt64.toNat_mul, length, eight, Nat.mod_eq_of_lt (by omega)]
    omega
  by_cases enough : (m.spentLen + count) * 8 ≤ m.spentSize
  · obtain ⟨m', reserve, reserved⟩ := reserve_fits sound.sized enough
    have room := UInt64.le_iff_toNat_le.mp enough
    have size : m.spentSize.toNat ≤ m'.spentSize.toNat := by
      rcases reserved.grown with ⟨-, same, -⟩ | ⟨-, double, -⟩
      · rw [same]
      · omega
    exact keepsSound_of_reserved sound reserved (by rw [reserved.len, length]) (by omega) reserve
  · have full := UInt64.not_le.mp enough
    have above := UInt64.lt_iff_toNat_lt.mp full
    have twice : 8 * (m.spentLen.toNat + count.toNat) ≤ 2 * m.spentSize.toNat ∧
        m.spentSize.toNat < 2 ^ 63 := fits.resolve_left (by omega)
    obtain ⟨m', reserve, reserved⟩ := reserve_grows sound.sized full twice.2
    have size : m'.spentSize.toNat = 2 * m.spentSize.toNat := by
      rcases reserved.grown with ⟨-, same, low⟩ | ⟨-, double, -⟩
      · rw [reserved.len] at low
        exact absurd low (UInt64.not_le.mpr full)
      · exact double
    exact keepsSound_of_reserved sound reserved (by rw [reserved.len, length])
      (by rw [size]; exact twice.1) reserve

/-- Nothing else is. -/
theorem fits_of_keepsSound (sound : m.Sound) (keeps : m.KeepsSound count) : m.FitsDoubled count := by
  obtain ⟨m', reserve, sound', length, -⟩ := keeps
  obtain ⟨-, reserved⟩ := reserve_ok sound.sized reserve
  have room := sound'.room
  have bound := m'.spentSize.toNat_lt
  rw [length] at room
  rcases reserved.grown with ⟨-, same, -⟩ | ⟨-, double, -⟩
  · rw [same] at room
    exact Or.inl room
  · exact Or.inr ⟨by omega, by omega⟩

/-- Reserving slots for a transaction keeps a handle sound exactly when they fit the block
doubled once. -/
theorem keepsSound_iff (sound : m.Sound) (nTxout : UInt32) :
    m.KeepsSound nTxout.toUInt64 ↔ m.FitsDoubled nTxout.toUInt64 :=
  ⟨fits_of_keepsSound sound, keepsSound_of_fits sound⟩

end Reserve

/-- A fresh handle has room for the slots of 1023 outputs. -/
theorem keepsSound_alloc : (SpentMap.alloc fun _ => 0).KeepsSound 1023 :=
  (keepsSound_iff (SpentMap.sound_alloc _) 1023).mpr (Or.inr (by decide))

/-- It is sound, and 1024 slots behind slot zero do not fit it after one doubling. -/
theorem not_keepsSound_alloc :
    (SpentMap.alloc fun _ => 0).Sound ∧ ¬ (SpentMap.alloc fun _ => 0).KeepsSound 1024 := by
  have sound := SpentMap.sound_alloc fun _ => 0
  refine ⟨sound, ?_⟩
  intro keeps
  rcases fits_of_keepsSound sound keeps with fits | fits
  · revert fits
    decide
  · revert fits
    decide

end Bzing
