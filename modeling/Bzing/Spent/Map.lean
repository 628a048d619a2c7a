import Bzing.Index.Inv
import Bzing.Spent.Word

/-!
# The spent map

The handle, `bzing_alloc`, `bzing_spent_reserve` and `bzing_spent_mark` (`bzing.c:58-84`,
`269-288`, `581-655`). The spent map is a heap block of 64-bit slots that grows by doubling;
a write outside the block is a `Fault`. The slots of a transaction are reserved when one of
its outputs is first marked, and their position replaces the output count in its index entry.

The results describe a call by its effect on the index, read through `entry`, and on the
block: `bzingSpentMark_cases` lists everything a call can do.
-/

namespace Bzing

open ByteBuffer

/-- `BZ_SPENT_INIT_SIZE` (`bzing.c:58`). -/
def bzSpentInitSize : UInt64 := 4096

/-- `BZ_SPENT_GROW_FACTOR` (`bzing.c:59`). -/
def bzSpentGrowFactor : UInt64 := 2

/-- The spent map of a handle: `spent_data`, `spent_len`, `spent_size`
    (`bzing_chain.h:75-80`). `spentSize` is in bytes, `spentLen` in slots. -/
structure SpentMap where
  spentData : List UInt8
  spentLen : UInt64
  spentSize : UInt64
  deriving DecidableEq

/-- `struct bzing_handle` (`bzing_chain.h:29-81`). The engine is the type of the index, and
    `use_cursors` is only set for an engine that supports cursors. -/
structure BzingHandle (ι : Type) [InvEngine ι] extends SpentMap where
  inv : ι
  useCursors : Bool
  supported : useCursors = true → InvEngine.cursorSupport ι = true

/-- `malloc`: a block of the given size, whose bytes are whatever `contents` says. -/
def malloc (contents : Nat → UInt8) (size : Nat) : List UInt8 := (List.range size).map contents

@[simp] theorem length_malloc (contents : Nat → UInt8) (size : Nat) :
    (malloc contents size).length = size := by
  simp [malloc]

/-- The spent map of a fresh handle (`bzing.c:80-84`). -/
def SpentMap.alloc (contents : Nat → UInt8) : SpentMap where
  spentData := malloc contents bzSpentInitSize.toNat
  -- the spent offset mustn't be zero, otherwise a transaction might look like a block
  spentLen := 1
  spentSize := bzSpentInitSize

/-- `bzing_alloc` (`bzing.c:61-172`) on an empty database. -/
def bzingAlloc (ι : Type) [InvEngine ι] (contents : Nat → UInt8) : BzingHandle ι where
  toSpentMap := SpentMap.alloc contents
  inv := InvEngine.empty
  useCursors := InvEngine.cursorSupport ι
  supported := id

/-- `realloc`: the common part is kept, bytes past it are unspecified (here `0xa5`). -/
def realloc (block : List UInt8) (size : UInt64) : List UInt8 :=
  block.take size.toNat ++ List.replicate (size.toNat - block.length) 0xa5

/-- `bzing_spent_reserve` (`bzing.c:269-288`); it touches nothing but the spent map. -/
def bzingSpentReserve (hnd : SpentMap) (count : UInt64) : Except Fault (UInt64 × SpentMap) :=
  let pos := hnd.spentLen
  let hnd := { hnd with spentLen := hnd.spentLen + count }
  if hnd.spentLen * 8 > hnd.spentSize then do
    let grown := realloc hnd.spentData (hnd.spentSize * bzSpentGrowFactor)
    -- zero out the newly allocated half
    let zeroed ← orFault .slotOutside
      (fill grown hnd.spentSize.toNat (hnd.spentSize * (bzSpentGrowFactor - 1)).toNat 0)
    .ok (pos, { hnd with
      spentData := zeroed
      spentSize := hnd.spentSize * bzSpentGrowFactor })
  else .ok (pos, hnd)

section Mark

variable {ι : Type} [InvEngine ι]

/-- Find the entry of the previous transaction (`bzing.c:590-596`): the cursor, when cursors
    are used, the entry, and the index afterwards. -/
def findPrev (hnd : BzingHandle ι) (hash : BzUint256) :
    Option (InvEngine.Cursor ι) × Option BzInv × BzingHandle ι :=
  if hnd.useCursors then
    let (cursor, inv) := InvEngine.bzingInvCursorFind hnd.inv hash
    (some cursor, InvEngine.bzingInvCursorGet inv cursor, { hnd with inv := inv })
  else
    let (prevInv, inv) := InvEngine.bzingInvGet hnd.inv hash
    (none, prevInv, { hnd with inv := inv })

/-- Write the entry back (`bzing.c:644-649`), through the cursor when there is one. -/
def writeBack (inv : ι) (prev : Option (InvEngine.Cursor ι)) (hash : BzUint256)
    (prevInv : BzInv) : ι :=
  match prev with
  | some cursor => InvEngine.bzingInvCursorSet inv cursor prevInv
  | none => InvEngine.bzingInvSet inv hash prevInv

/-- The common end of `bzing_spent_mark` (`bzing.c:630-654`): set the quick bit, write the
    slot, write the entry back if it changed. -/
def markSlot (hnd : BzingHandle ι) (prev : Option (InvEngine.Cursor ι)) (outpoint : Outpoint)
    (offset : UInt64) (prevInv : BzInv) (spentPos : UInt64) (invDirty : Bool) :
    Except Fault (UInt64 × BzingHandle ι) := do
  let iTxout := outpoint.index
  let (prevInv, invDirty) :=
    if iTxout < bzTxiSpentBits then
      ({ prevInv with spent := prevInv.spent ||| quickBit iTxout.toNat }, true)
    else (prevInv, invDirty)
  let spentOffset := (spentPos + iTxout.toUInt64) * 8
  let spentData ← orFault .slotOutside (store64 hnd.spentData spentOffset.toNat offset)
  let hnd := { hnd with spentData := spentData }
  let hnd := if invDirty then
      { hnd with inv := writeBack hnd.inv prev outpoint.hash prevInv }
    else hnd
  .ok (spentOffset, hnd)

/-- `bzing_spent_mark` (`bzing.c:581-655`): the slot's byte offset, zero when refused. -/
def bzingSpentMark (hnd : BzingHandle ι) (outpoint : Outpoint) (offset : UInt64) :
    Except Fault (UInt64 × BzingHandle ι) :=
  let (prev, prevInv, hnd) := findPrev hnd outpoint.hash
  match prevInv with
  | none => .error .nullDeref
  | some prevInv =>
    if prevInv.spent = uint64Max then
      -- transaction tried to spend a block
      .ok (0, hnd)
    else if prevInv.spent &&& bzTxiSpentUmark = bzTxiSpentUmark then
      let nTxout := (prevInv.spent &&& bzTxiSpentUmask).toUInt32
      if nTxout = 0 then
        -- previous transaction has no outputs
        .ok (0, hnd)
      else do
        -- `n_txout < i_txout` and `spent_pos & ~BZ_TXI_SPENT_MASK` are tested without effect
        let (spentPos, spent) ← bzingSpentReserve hnd.toSpentMap nTxout.toUInt64
        markSlot { hnd with toSpentMap := spent } prev outpoint offset
          { prevInv with spent := spentPos } spentPos true
    else
      markSlot hnd prev outpoint offset prevInv (prevInv.spent &&& bzTxiSpentMask) false

end Mark

namespace SpentMap

/-- The block has the size the handle records. -/
def Sized (m : SpentMap) : Prop := m.spentData.length = m.spentSize.toNat

/-- The value of slot `k`, if it lies in the block. -/
def slot (m : SpentMap) (k : Nat) : Option UInt64 := load64 m.spentData (8 * k)

/-- Write slot `k`. -/
def setSlot (m : SpentMap) (k : Nat) (v : UInt64) : Option SpentMap :=
  (store64 m.spentData (8 * k) v).map fun data => { m with spentData := data }

theorem setSlot_eq_some {m m' : SpentMap} {k : Nat} {v : UInt64} :
    m.setSlot k v = some m' ↔ store64 m.spentData (8 * k) v = some m'.spentData ∧
      m'.spentLen = m.spentLen ∧ m'.spentSize = m.spentSize := by
  unfold setSlot
  rw [Option.map_eq_some_iff]
  constructor
  · rintro ⟨data, stored, rfl⟩
    exact ⟨stored, rfl, rfl⟩
  · rintro ⟨stored, len, size⟩
    exact ⟨m'.spentData, stored, by rw [← len, ← size]⟩

theorem setSlot_isSome {m : SpentMap} {k : Nat} {v : UInt64} :
    (m.setSlot k v).isSome ↔ 8 * k + 8 ≤ m.spentData.length := by
  rw [setSlot, Option.isSome_map, store64_isSome]

theorem setSlot_sized {m m' : SpentMap} {k : Nat} {v : UInt64} (h : m.setSlot k v = some m')
    (sized : m.Sized) : m'.Sized := by
  obtain ⟨stored, -, size⟩ := setSlot_eq_some.mp h
  unfold Sized
  rw [store64_length stored, size]
  exact sized

theorem slot_setSlot_same {m m' : SpentMap} {k : Nat} {v : UInt64}
    (h : m.setSlot k v = some m') : m'.slot k = some v :=
  load64_store64_same (setSlot_eq_some.mp h).1

theorem slot_setSlot_ne {m m' : SpentMap} {k j : Nat} {v : UInt64}
    (h : m.setSlot k v = some m') (ne : j ≠ k) : m'.slot j = m.slot j :=
  load64_store64_disjoint (setSlot_eq_some.mp h).1 (by omega)

/-- Another output's slot, of the same transaction. -/
theorem slot_setSlot_add_ne {m m' : SpentMap} {pos : Nat} {i j : UInt32} {v : UInt64}
    (h : m.setSlot (pos + j.toNat) v = some m') (ne : i ≠ j) :
    m'.slot (pos + i.toNat) = m.slot (pos + i.toNat) := by
  have apart : i.toNat ≠ j.toNat := fun same => ne (UInt32.toNat_inj.mp same)
  exact slot_setSlot_ne h (by omega)

end SpentMap

/-! ## Reserving -/

/-- What `bzing_spent_reserve` does with a block of the recorded size: it takes the slots from
    the old length on and appends zero bytes, as many as the block has, if they do not fit. -/
structure Reserved (m : SpentMap) (count : UInt64) (m' : SpentMap) : Prop where
  len : m'.spentLen = m.spentLen + count
  sized : m'.Sized
  grown : m'.spentData = m.spentData ∧ m'.spentSize = m.spentSize ∧
      m'.spentLen * 8 ≤ m.spentSize ∨
    m'.spentData = m.spentData ++ List.replicate m.spentSize.toNat 0 ∧
      m'.spentSize.toNat = 2 * m.spentSize.toNat ∧ m.spentSize < m'.spentLen * 8

theorem reserve_fits {m : SpentMap} {count : UInt64} (sized : m.Sized)
    (fits : (m.spentLen + count) * 8 ≤ m.spentSize) :
    ∃ m', bzingSpentReserve m count = .ok (m.spentLen, m') ∧ Reserved m count m' := by
  refine ⟨{ m with spentLen := m.spentLen + count }, ?_, rfl, sized, Or.inl ⟨rfl, rfl, fits⟩⟩
  have room : ¬ (m.spentLen + count) * 8 > m.spentSize := UInt64.not_lt.mpr fits
  unfold bzingSpentReserve
  simp only [room, if_false]

theorem reserve_grows {m : SpentMap} {count : UInt64} (sized : m.Sized)
    (full : m.spentSize < (m.spentLen + count) * 8) (small : m.spentSize.toNat < 2 ^ 63) :
    ∃ m', bzingSpentReserve m count = .ok (m.spentLen, m') ∧ Reserved m count m' := by
  have double : (m.spentSize * bzSpentGrowFactor).toNat = 2 * m.spentSize.toNat := by
    have factor : bzSpentGrowFactor.toNat = 2 := by decide
    rw [UInt64.toNat_mul, factor]
    omega
  have half : (m.spentSize * (bzSpentGrowFactor - 1)).toNat = m.spentSize.toNat := by
    have one : bzSpentGrowFactor - 1 = 1 := by decide
    rw [one, UInt64.mul_one]
  have tail : 2 * m.spentSize.toNat - m.spentData.length = m.spentSize.toNat := by
    unfold SpentMap.Sized at sized
    omega
  have zeroed : fill (realloc m.spentData (m.spentSize * bzSpentGrowFactor))
      m.spentSize.toNat (m.spentSize * (bzSpentGrowFactor - 1)).toNat 0 =
        some (m.spentData ++ List.replicate m.spentSize.toNat 0) := by
    unfold realloc
    rw [double, half, tail, List.take_of_length_le (by unfold SpentMap.Sized at sized; omega)]
    have := fill_tail m.spentData (List.replicate m.spentSize.toNat 0xa5) 0
    rwa [List.length_replicate, sized] at this
  refine ⟨⟨m.spentData ++ List.replicate m.spentSize.toNat 0, m.spentLen + count,
    m.spentSize * bzSpentGrowFactor⟩, ?_, rfl, ?_, Or.inr ⟨rfl, double, full⟩⟩
  · unfold bzingSpentReserve
    simp only [gt_iff_lt, full, if_true, zeroed, orFault_some]
    rfl
  · unfold SpentMap.Sized at sized ⊢
    rw [List.length_append, List.length_replicate, sized, double]
    omega

/-- Doubling a block of `2 ^ 63` bytes asks for none and clears outside it. -/
theorem reserve_overflows {m : SpentMap} {count : UInt64} (sized : m.Sized)
    (full : m.spentSize < (m.spentLen + count) * 8) (large : 2 ^ 63 ≤ m.spentSize.toNat) :
    bzingSpentReserve m count = .error .slotOutside := by
  have bound := m.spentSize.toNat_lt
  have double : (m.spentSize * bzSpentGrowFactor).toNat = 2 * m.spentSize.toNat - 2 ^ 64 := by
    have factor : bzSpentGrowFactor.toNat = 2 := by decide
    rw [UInt64.toNat_mul, factor]
    omega
  have half : (m.spentSize * (bzSpentGrowFactor - 1)).toNat = m.spentSize.toNat := by
    have one : bzSpentGrowFactor - 1 = 1 := by decide
    rw [one, UInt64.mul_one]
  have outside : fill (realloc m.spentData (m.spentSize * bzSpentGrowFactor))
      m.spentSize.toNat (m.spentSize * (bzSpentGrowFactor - 1)).toNat 0 = none := by
    unfold fill realloc
    unfold SpentMap.Sized at sized
    rw [double, half, if_neg]
    simp only [List.length_append, List.length_take, List.length_replicate]
    omega
  unfold bzingSpentReserve
  simp only [gt_iff_lt, full, if_true, outside, orFault_none]
  rfl

theorem reserve_ok {m m' : SpentMap} {count pos : UInt64} (sized : m.Sized)
    (ok : bzingSpentReserve m count = .ok (pos, m')) :
    pos = m.spentLen ∧ Reserved m count m' := by
  have same : (∃ m', bzingSpentReserve m count = .ok (m.spentLen, m') ∧ Reserved m count m') →
      pos = m.spentLen ∧ Reserved m count m' := by
    rintro ⟨m'', eq, reserved⟩
    rw [ok] at eq
    cases eq
    exact ⟨rfl, reserved⟩
  by_cases fits : (m.spentLen + count) * 8 ≤ m.spentSize
  · exact same (reserve_fits sized fits)
  · have full := UInt64.not_le.mp fits
    by_cases small : m.spentSize.toNat < 2 ^ 63
    · exact same (reserve_grows sized full small)
    · rw [reserve_overflows sized full (by omega)] at ok
      cases ok

namespace Reserved

variable {m m' : SpentMap} {count : UInt64}

theorem data_eq (h : Reserved m count m') :
    ∃ k, m'.spentData = m.spentData ++ List.replicate k 0 := by
  rcases h.grown with ⟨same, -, -⟩ | ⟨appended, -, -⟩
  · exact ⟨0, by simp [same]⟩
  · exact ⟨_, appended⟩

/-- Reserving keeps the slots there are. -/
theorem slot_eq (h : Reserved m count m') {k : Nat} {v : UInt64} (hv : m.slot k = some v) :
    m'.slot k = some v := by
  obtain ⟨n, data⟩ := h.data_eq
  have inside : 8 * k + 8 ≤ m.spentData.length := by
    rw [← load64_isSome]
    unfold SpentMap.slot at hv
    rw [hv]
    rfl
  unfold SpentMap.slot
  rw [data, load64_append_left _ inside]
  exact hv

/-- The slots reserving adds are zero. -/
theorem slot_new (h : Reserved m count m') {k : Nat} (new : m.slot k = none)
    (inside : 8 * k + 8 ≤ m'.spentData.length) (aligned : 8 ∣ m.spentData.length) :
    m'.slot k = some 0 := by
  obtain ⟨n, data⟩ := h.data_eq
  have outside : ¬ 8 * k + 8 ≤ m.spentData.length := by
    rw [← load64_isSome]
    unfold SpentMap.slot at new
    rw [new]
    simp
  obtain ⟨c, hc⟩ := aligned
  unfold SpentMap.slot
  rw [data] at inside ⊢
  rw [List.length_append, List.length_replicate] at inside
  exact load64_append_zeros (by omega) inside

end Reserved

end Bzing
