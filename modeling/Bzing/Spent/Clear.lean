import Bzing.Spent.Refinement

/-!
# Unspent outputs

What the quick bits and the slots say of each other rests on one thing: the slot of an unspent
output lies in the block and is zero (`Clear`). Inserts keep that. A mark keeps it exactly when
the slots it takes, if it takes any, fit the block doubled at most once (`bzing.c:276`), and
those of them that were in the block already were zero: growth zeroes the bytes it adds
(`bzing.c:280-281`), the first block comes from `malloc` as it is (`bzing.c:81`).
-/

namespace Bzing

/-- An output's slot is nonzero when it has been spent, and its quick bit says the same. -/
structure QuickAgrees (s : Store) (l : Ledger) : Prop where
  slot : ∀ {h nTxout spender word pos}, Slots s l h nTxout spender word pos → ∀ i < nTxout,
    ∃ v, s.spent.slot (pos + i.toNat) = some v ∧ (v ≠ 0 ↔ (spender i).isSome)
  quick : ∀ {h nTxout spender word pos}, Slots s l h nTxout spender word pos → ∀ i < nTxout,
    i.toNat < 8 →
      ∃ v, s.spent.slot (pos + i.toNat) = some v ∧ (hasQuickBit word i.toNat = true ↔ v ≠ 0)

/-- The slots of unspent outputs are zero. -/
structure Clear (s : Store) (l : Ledger) : Prop where
  unspent : ∀ {h nTxout spender word pos}, Slots s l h nTxout spender word pos →
    ∀ i < nTxout, spender i = none → s.spent.slot (pos + i.toNat) = some 0

theorem quickAgrees_iff_clear {s : Store} {l : Ledger} (recorded : Recorded s l)
    (nonzero : l.Nonzero) : QuickAgrees s l ↔ Clear s l := by
  constructor
  · refine fun agrees => ⟨fun slots i inside none => ?_⟩
    obtain ⟨v, read, spent⟩ := agrees.slot slots i inside
    have zero : v = 0 := by
      by_contra ne
      rw [none] at spent
      cases spent.mp ne
    rw [read, zero]
  · intro clear
    have slot : ∀ {h nTxout spender word pos}, Slots s l h nTxout spender word pos →
        ∀ i < nTxout, ∃ v, s.spent.slot (pos + i.toNat) = some v ∧
          (v ≠ 0 ↔ (spender i).isSome) := by
      intro h nTxout spender word pos slots i inside
      obtain ⟨start, known, -⟩ := slots.entry
      cases spent : spender i with
      | none => exact ⟨0, clear.unspent slots i inside spent, by simp⟩
      | some v =>
        exact ⟨v, recorded.slot slots i inside v spent, by simp [nonzero known i v spent]⟩
    refine ⟨slot, fun slots i inside small => ?_⟩
    obtain ⟨v, read, spent⟩ := slot slots i inside
    exact ⟨v, read, by rw [recorded.quick slots i small, spent]⟩

theorem clear_alloc (contents : Nat → UInt8) : Clear (Store.alloc contents) Ledger.empty where
  unspent slots := by
    obtain ⟨_, known, -⟩ := slots.entry
    cases known

theorem clear_set {s : Store} {l : Ledger} {hash : BzUint256} {data : BzInv} {e : LedgerEntry}
    (clear : Clear s l) (bare : ∀ pos, ¬ IsAllocated data.spent pos) :
    Clear (s.set hash data) (Function.update l hash (some e)) where
  unspent slots := clear.unspent (slots_set bare slots).2

/-- A mark of the outpoint takes slots for a transaction of `nTxout` outputs. -/
def Takes (s : Store) (outpoint : Outpoint) (nTxout : UInt32) : Prop :=
  ∃ data, s.find outpoint.hash = some data ∧ classify data.spent = .unallocated nTxout

/-- The slots the operation takes fit the block doubled at most once. -/
def ReservesInside (s : Store) : LedgerOp → Prop
  | .spend outpoint _ => ∀ nTxout, Takes s outpoint nTxout →
      s.spent.FitsDoubled nTxout.toUInt64
  | _ => True

/-- The slots the operation takes and does not write are zero, if they are in the block. -/
def ReservesZero (s : Store) : LedgerOp → Prop
  | .spend outpoint _ => ∀ nTxout, Takes s outpoint nTxout →
      ∀ i < nTxout, i ≠ outpoint.index →
        ∀ v, s.spent.slot (s.spent.spentLen.toNat + i.toNat) = some v → v = 0
  | _ => True

section Mark

variable {s s' : Store} {l : Ledger} {outpoint : Outpoint} {offset start ret : UInt64}
  {nTxout : UInt32}

theorem takes_iff (entry : s.find outpoint.hash =
    some ⟨start, bzTxiSpentUmark ||| nTxout.toUInt64⟩) {n : UInt32} :
    Takes s outpoint n ↔ n = nTxout := by
  constructor
  · rintro ⟨data, found, kind⟩
    exact unallocated_unique entry found kind
  · rintro rfl
    exact ⟨_, entry, classify_unallocated n⟩

/-- A transaction with slots takes no others. -/
theorem IsAllocated.not_takes {word : UInt64} {pos : Nat} (allocated : IsAllocated word pos)
    (entry : s.find outpoint.hash = some ⟨start, word⟩) : ¬ Takes s outpoint nTxout := by
  rintro ⟨data, found, kind⟩
  rw [entry] at found
  cases found
  rw [allocated.classify_eq] at kind
  cases kind

theorem SpentMap.Sized.slot_isSome_iff {m : SpentMap} (sized : m.Sized) {k : Nat} :
    (m.slot k).isSome ↔ 8 * (k + 1) ≤ m.spentSize.toNat := by
  unfold SpentMap.Sized at sized
  rw [SpentMap.slot, ByteBuffer.load64_isSome, sized]
  omega

/-- Slots that are all in the block have room in it. -/
theorem Reserved.room_of_slots {m m' : SpentMap} (reserved : Reserved m nTxout.toUInt64 m')
    (cap : Capacity m) (outputs : 0 < nTxout.toNat)
    (inside : ∀ i < nTxout, (m'.slot (m.spentLen.toNat + i.toNat)).isSome) :
    8 * m'.spentLen.toNat ≤ m'.spentSize.toNat := by
  have len := cap.len_reserved reserved
  have bound := nTxout.toNat_lt
  have last : (UInt32.ofNat (nTxout.toNat - 1)).toNat = nTxout.toNat - 1 := by
    rw [UInt32.toNat_ofNat', Nat.mod_eq_of_lt (by omega)]
  have isSome := inside (UInt32.ofNat (nTxout.toNat - 1))
    (by rw [UInt32.lt_iff_toNat_lt, last]; omega)
  rw [last, reserved.sized.slot_isSome_iff] at isSome
  omega

/-- The first mark of a transaction. -/
theorem clear_first_iff {spender : UInt32 → Option UInt64} {spent : SpentMap}
    (cap : Capacity s.spent) (lay : Layout s l) (clear : Clear s l)
    (known : l outpoint.hash = some (.tx start nTxout spender)) (index : outpoint.index < nTxout)
    (unspent : ∀ i, spender i = none)
    (placed : Placed s l outpoint offset ret s')
    (reserved : Reserved s.spent nTxout.toUInt64 spent)
    (allocated : IsAllocated s.spent.spentLen s.spent.spentLen.toNat)
    (slot : spent.setSlot (s.spent.spentLen.toNat + outpoint.index.toNat) offset = some s'.spent)
    (find : ∀ h, s'.find h = if h = outpoint.hash then
      some ⟨start, s.spent.spentLen ||| quickBit outpoint.index.toNat⟩ else s.find h) :
    Clear s' (l.step (.spend outpoint offset)) ↔
      s.spent.FitsDoubled nTxout.toUInt64 ∧
        ∀ i < nTxout, i ≠ outpoint.index →
          ∀ v, s.spent.slot (s.spent.spentLen.toNat + i.toNat) = some v → v = 0 := by
  have len := cap.len_reserved reserved
  rw [← reserved.room_iff cap]
  constructor
  · intro clear'
    obtain ⟨spender', after⟩ := Ledger.step_spend_same offset known
    have own : Slots s' (l.step (.spend outpoint offset)) outpoint.hash nTxout spender'
        (s.spent.spentLen ||| quickBit outpoint.index.toNat) s.spent.spentLen.toNat :=
      ⟨⟨start, after, by rw [find, if_pos rfl]⟩, allocated.or_quickBit _⟩
    have zero : ∀ i < nTxout, i ≠ outpoint.index →
        spent.slot (s.spent.spentLen.toNat + i.toNat) = some 0 := by
      intro i inside ne
      rw [← SpentMap.slot_setSlot_add_ne slot ne]
      apply clear'.unspent own i inside
      rw [spender_mark known index after, Function.update_of_ne ne, unspent i]
    refine ⟨reserved.room_of_slots cap (Nat.zero_lt_of_lt (UInt32.lt_iff_toNat_lt.mp index)) ?_, ?_⟩
    · intro i inside
      by_cases marked : i = outpoint.index
      · -- the marked slot was written, so it is in the block
        rw [marked, SpentMap.slot, ByteBuffer.load64_isSome]
        exact SpentMap.setSlot_isSome.mp (Option.isSome_of_eq_some slot)
      · rw [zero i inside marked]
        rfl
    · intro i inside ne v read
      have held := reserved.slot_eq read
      rw [zero i inside ne] at held
      exact (Option.some.inj held).symm
  · rintro ⟨room, zero⟩
    refine ⟨fun slots i inside none => ?_⟩
    rcases slots_mark known allocated find slots with ⟨-, after, rfl, rfl, rfl⟩ | ⟨other, before⟩
    · have ne := (spender_of_unspent known index after none).1
      have below := UInt32.lt_iff_toNat_lt.mp inside
      have isSome : (spent.slot (s.spent.spentLen.toNat + i.toNat)).isSome :=
        reserved.sized.slot_isSome_iff.mpr (by omega)
      obtain ⟨v, read⟩ := Option.isSome_iff_exists.mp isSome
      rw [SpentMap.slot_setSlot_add_ne slot ne, read,
        reserved.slot_zero cap (zero i inside ne) read]
    · exact slot_placed lay ⟨_, _, _, known, index⟩ placed before inside (Or.inl other)
        (clear.unspent before i inside none)

/-- A mark of an existing output. -/
theorem clear_mark_iff (cap : Capacity s.spent) (lay : Layout s l) (recorded : Recorded s l)
    (clear : Clear s l) (exists' : l.Known outpoint)
    (placed : Placed s l outpoint offset ret s') :
    Clear s' (l.step (.spend outpoint offset)) ↔
      ReservesInside s (.spend outpoint offset) ∧ ReservesZero s (.spend outpoint offset) := by
  have kept := @slot_placed s s' l outpoint offset ret lay exists' placed
  obtain ⟨start, nTxout, spender, known, index⟩ := exists'
  have case := placed
  cases case with
  | refused nothing => exact absurd nothing (Ledger.Known.not_refused ⟨_, _, _, known, index⟩)
  | first known' entry reserved allocated slot find =>
    rw [known] at known'
    cases known'
    rw [clear_first_iff cap lay clear known index (recorded.fresh known entry) placed reserved
      allocated slot find]
    simp only [ReservesInside, ReservesZero, takes_iff entry, forall_eq]
  | again known' entry allocated slot find =>
    rw [known] at known'
    cases known'
    have marked : Slots s l outpoint.hash nTxout spender _ _ := ⟨⟨start, known, entry⟩, allocated⟩
    have none : ∀ {n}, ¬ Takes s outpoint n := allocated.not_takes entry
    refine iff_of_true ⟨fun slots i inside unspent => ?_⟩
      ⟨fun n takes => absurd takes none, fun n takes => absurd takes none⟩
    rcases slots_mark known allocated find slots with ⟨-, after, rfl, rfl, rfl⟩ | ⟨other, before⟩
    · obtain ⟨ne, unspent⟩ := spender_of_unspent known index after unspent
      exact kept marked inside (Or.inr ne) (clear.unspent marked i inside unspent)
    · exact kept before inside (Or.inl other) (clear.unspent before i inside unspent)

end Mark

/-- An allowed operation keeps unspent slots zero exactly when the slots it takes are there and
zero. -/
theorem clear_step_iff {op : LedgerOp} {s s' : Store} {l : Ledger} (cap : Capacity s.spent)
    (lay : Layout s l) (recorded : Recorded s l) (clear : Clear s l) (allowed : l.Allows op)
    (ok : (storeHandler op.indexOp).run s = .ok ((), s'))
    (le : s'.spent.spentLen.toNat ≤ bzTxiSpentMax.toNat) :
    Clear s' (l.step op) ↔ ReservesInside s op ∧ ReservesZero s op := by
  cases op with
  | insertBlock hash offset =>
    cases ok
    exact iff_of_true (clear_set clear not_isAllocated_uint64Max) ⟨trivial, trivial⟩
  | insertTx hash offset nTxout =>
    cases ok
    exact iff_of_true (clear_set clear (not_isAllocated_umark nTxout)) ⟨trivial, trivial⟩
  | spend outpoint offset =>
    rcases storeHandler_ok ok with ⟨hash, inv, eq, -⟩ | ⟨p, o, ret, eq, marked⟩
    · cases eq
    · cases eq
      exact clear_mark_iff cap lay recorded clear allowed (mark_placed cap lay marked le)

end Bzing
