import Bzing.Spent.Ledger

/-!
# The layout of the spent map

Two invariants of a run. `Capacity` is about the block alone: its size is 4096 doubled at most
51 times, and reservations cannot make `spent_len` wrap before the block is too large to
double, so `spent_len` only grows. `Layout` relates a store to the ledger: every word has the
form its ledger entry asks for, and the slots of the transactions that have some lie in
`[1, spent_len)`, apart from each other. It holds as long as `spent_len` stays at most
`BZ_TXI_SPENT_MAX`, whatever output index a mark names.
-/

namespace Bzing

open BumpRanges

/-- The recorded size is that of the block, a power of two, and `spent_len` is far from
    wrapping. -/
structure Capacity (m : SpentMap) : Prop where
  sized : m.Sized
  size : ∃ k ≤ 51, m.spentSize.toNat = 2 ^ (12 + k) ∧ m.spentLen.toNat ≤ 2 ^ 60 + k * 2 ^ 32
  len_ge : 1 ≤ m.spentLen.toNat

theorem capacity_alloc (contents : Nat → UInt8) : Capacity (SpentMap.alloc contents) := by
  have size : (SpentMap.alloc contents).spentSize.toNat = 4096 := by rfl
  have len : (SpentMap.alloc contents).spentLen.toNat = 1 := by rfl
  have sized : (SpentMap.alloc contents).Sized := by
    simp only [SpentMap.Sized, SpentMap.alloc, length_malloc]
  refine ⟨sized, ⟨0, by omega, by rw [size]; norm_num, by omega⟩, by omega⟩

namespace Capacity

variable {m m' : SpentMap}

theorem len_lt (cap : Capacity m) : m.spentLen.toNat < 2 ^ 60 + 2 ^ 38 := by
  obtain ⟨k, le, -, len⟩ := cap.size
  have := Nat.mul_le_mul_right (2 ^ 32) le
  omega

theorem size_dvd (cap : Capacity m) : 8 ∣ m.spentData.length := by
  obtain ⟨k, -, size, -⟩ := cap.size
  have sized := cap.sized
  unfold SpentMap.Sized at sized
  rw [sized, size]
  exact Nat.pow_dvd_pow 2 (by omega : 3 ≤ 12 + k)

theorem len_reserved (cap : Capacity m) {n : UInt32} (reserved : Reserved m n.toUInt64 m') :
    m'.spentLen.toNat = m.spentLen.toNat + n.toNat := by
  have small := cap.len_lt
  have bound := n.toNat_lt
  rw [reserved.len, UInt64.toNat_add, UInt32.toNat_toUInt64]
  omega

theorem toNat_len_mul (cap : Capacity m) {n : UInt32} (reserved : Reserved m n.toUInt64 m') :
    (m'.spentLen * 8).toNat = 8 * m'.spentLen.toNat := by
  have small := cap.len_lt
  have len := cap.len_reserved reserved
  have bound := n.toNat_lt
  have eight : (8 : UInt64).toNat = 8 := by decide
  rw [UInt64.toNat_mul, eight]
  omega

theorem reserved (cap : Capacity m) {n : UInt32} (reserved : Reserved m n.toUInt64 m') :
    Capacity m' where
  sized := reserved.sized
  size := by
    obtain ⟨k, le, size, len⟩ := cap.size
    have len' := cap.len_reserved reserved
    have bytes := cap.toNat_len_mul reserved
    have bound := n.toNat_lt
    have top : 2 ^ (12 + k) ≤ 2 ^ 63 := Nat.pow_le_pow_right (by omega) (by omega)
    rcases reserved.grown with ⟨-, same, fits⟩ | ⟨-, double, full⟩
    · have fits := UInt64.le_iff_toNat_le.mp fits
      exact ⟨k, le, by rw [same, size], by omega⟩
    · have full := UInt64.lt_iff_toNat_lt.mp full
      have room := m'.spentSize.toNat_lt
      have succ : 2 ^ (12 + (k + 1)) = 2 * 2 ^ (12 + k) := by
        rw [← Nat.add_assoc, Nat.pow_succ, Nat.mul_comm]
      refine ⟨k + 1, ?_, by rw [double, size, succ], by omega⟩
      -- a block of `2 ^ 63` bytes is not doubled
      by_contra large
      have last : k = 51 := by omega
      subst last
      rw [double, size] at room
      omega
  len_ge := by
    have len := cap.len_reserved reserved
    have := cap.len_ge
    omega

theorem setSlot (cap : Capacity m) {k : Nat} {v : UInt64} (stored : m.setSlot k v = some m') :
    Capacity m' := by
  obtain ⟨-, len, size⟩ := SpentMap.setSlot_eq_some.mp stored
  refine ⟨SpentMap.setSlot_sized stored cap.sized, ?_, ?_⟩
  · rw [len, size]
    exact cap.size
  · rw [len]
    exact cap.len_ge

end Capacity

theorem capacity_mark {s s' : Store} {outpoint : Outpoint} {offset ret : UInt64}
    (cap : Capacity s.spent) (ok : s.mark outpoint offset = .ok (ret, s')) :
    Capacity s'.spent ∧ s.spent.spentLen.toNat ≤ s'.spent.spentLen.toNat := by
  cases Store.mark_cases cap.sized ok with
  | refused => exact ⟨cap, Nat.le_refl _⟩
  | first entry kind outputs reserved wrote =>
    obtain ⟨-, len, -⟩ := SpentMap.setSlot_eq_some.mp wrote.slot
    refine ⟨(cap.reserved reserved).setSlot wrote.slot, ?_⟩
    rw [len, cap.len_reserved reserved]
    omega
  | again entry kind wrote =>
    obtain ⟨-, len, -⟩ := SpentMap.setSlot_eq_some.mp wrote.slot
    exact ⟨cap.setSlot wrote.slot, by rw [len]⟩

theorem storeHandler_ok {op : IndexOp} {s s' : Store}
    (ok : (storeHandler op).run s = .ok ((), s')) :
    (∃ hash inv, op = .set hash inv ∧ s' = s.set hash inv) ∨
      ∃ outpoint offset ret, op = .mark outpoint offset ∧
        s.mark outpoint offset = .ok (ret, s') := by
  cases op with
  | set hash inv =>
    cases ok
    exact Or.inl ⟨hash, inv, rfl, rfl⟩
  | mark outpoint offset =>
    change (s.mark outpoint offset).map _ = _ at ok
    cases marked : s.mark outpoint offset with
    | error e =>
      rw [marked] at ok
      cases ok
    | ok r =>
      rw [marked] at ok
      cases ok
      exact Or.inr ⟨outpoint, offset, r.1, rfl, marked⟩

theorem capacity_step {op : IndexOp} {s s' : Store} (cap : Capacity s.spent)
    (ok : (storeHandler op).run s = .ok ((), s')) :
    Capacity s'.spent ∧ s.spent.spentLen.toNat ≤ s'.spent.spentLen.toNat := by
  rcases storeHandler_ok ok with ⟨hash, inv, -, rfl⟩ | ⟨outpoint, offset, ret, -, marked⟩
  · exact ⟨cap, Nat.le_refl _⟩
  · exact capacity_mark cap marked

theorem capacity_perform {ops : List IndexOp} {s s' : Store} (cap : Capacity s.spent)
    (run : (Handler.perform storeHandler ops).run s = .ok ((), s')) :
    Capacity s'.spent ∧ s.spent.spentLen.toNat ≤ s'.spent.spentLen.toNat := by
  refine Handler.perform_invariant storeHandler
    (fun t => Capacity t.spent ∧ s.spent.spentLen.toNat ≤ t.spent.spentLen.toNat)
    (fun op _ t t' inv ok => ?_) ⟨cap, Nat.le_refl _⟩ run
  obtain ⟨cap', le⟩ := capacity_step inv.1 ok
  exact ⟨cap', Nat.le_trans inv.2 le⟩

/-! ## Words and ranges -/

/-- The index entry has the form the ledger entry asks for. -/
inductive Shape : Option BzInv → Option LedgerEntry → Prop where
  | absent : Shape none none
  | block (offset : UInt64) : Shape (some ⟨offset, uint64Max⟩) (some (.block offset))
  | fresh (offset : UInt64) (nTxout : UInt32) (spender : UInt32 → Option UInt64) :
      Shape (some ⟨offset, bzTxiSpentUmark ||| nTxout.toUInt64⟩)
        (some (.tx offset nTxout spender))
  | slots (offset : UInt64) (nTxout : UInt32) (spender : UInt32 → Option UInt64)
      {word : UInt64} {pos : Nat} (allocated : IsAllocated word pos) :
      Shape (some ⟨offset, word⟩) (some (.tx offset nTxout spender))

/-- The transaction `h` has slots from `pos` on. -/
structure Slots (s : Store) (l : Ledger) (h : BzUint256) (nTxout : UInt32)
    (spender : UInt32 → Option UInt64) (word : UInt64) (pos : Nat) : Prop where
  entry : ∃ offset, l h = some (.tx offset nTxout spender) ∧ s.find h = some ⟨offset, word⟩
  allocated : IsAllocated word pos

/-- The ranges reserved. -/
def owns (s : Store) (l : Ledger) (h : BzUint256) (pos n : Nat) : Prop :=
  ∃ nTxout spender word, Slots s l h nTxout spender word pos ∧ n = nTxout.toNat

/-- Words have their forms and reserved ranges lie apart in `[1, spent_len)`. -/
structure Layout (s : Store) (l : Ledger) : Prop where
  shape : ∀ h, Shape (s.find h) (l h)
  packed : Packed (owns s l) 1 s.spent.spentLen.toNat

theorem Slots.owns {s : Store} {l : Ledger} {h : BzUint256} {nTxout : UInt32}
    {spender : UInt32 → Option UInt64} {word : UInt64} {pos : Nat}
    (slots : Slots s l h nTxout spender word pos) : owns s l h pos nTxout.toNat :=
  ⟨nTxout, spender, word, slots, rfl⟩

namespace Shape

variable {data : BzInv} {e : Option LedgerEntry}

theorem of_block (shape : Shape (some data) e) (kind : classify data.spent = .block) :
    e = some (.block data.offset) := by
  cases shape with
  | block offset => rfl
  | fresh offset nTxout spender =>
    have := classify_unallocated nTxout
    unfold SpentWord.pack at this
    rw [this] at kind
    cases kind
  | slots offset nTxout spender allocated =>
    rw [allocated.classify_eq] at kind
    cases kind

theorem of_unallocated (shape : Shape (some data) e) {nTxout : UInt32}
    (kind : classify data.spent = .unallocated nTxout) :
    ∃ spender, e = some (.tx data.offset nTxout spender) ∧
      data.spent = bzTxiSpentUmark ||| nTxout.toUInt64 := by
  cases shape with
  | block offset =>
    have := classify_block
    unfold SpentWord.pack at this
    rw [this] at kind
    cases kind
  | fresh offset n spender =>
    have := classify_unallocated n
    unfold SpentWord.pack at this
    rw [this] at kind
    cases kind
    exact ⟨spender, rfl, rfl⟩
  | slots offset n spender allocated =>
    rw [allocated.classify_eq] at kind
    cases kind

theorem of_allocated (shape : Shape (some data) e) {pos : UInt64} {bits : Fin 8 → Bool}
    (kind : classify data.spent = .allocated pos bits) :
    ∃ nTxout spender, e = some (.tx data.offset nTxout spender) ∧
      IsAllocated data.spent pos.toNat := by
  cases shape with
  | block offset =>
    have := classify_block
    unfold SpentWord.pack at this
    rw [this] at kind
    cases kind
  | fresh offset n spender =>
    have := classify_unallocated n
    unfold SpentWord.pack at this
    rw [this] at kind
    cases kind
  | slots offset n spender allocated =>
    rw [allocated.classify_eq] at kind
    cases kind
    rw [allocated.toNat_and_mask]
    exact ⟨n, spender, rfl, allocated⟩

end Shape

/-- What a mark does to a store that follows its ledger, by the ledger entry it finds. -/
inductive Placed (s : Store) (l : Ledger) (outpoint : Outpoint) (offset : UInt64) :
    UInt64 → Store → Prop where
  | refused (nothing : (∃ start, l outpoint.hash = some (.block start)) ∨
        ∃ start spender, l outpoint.hash = some (.tx start 0 spender)) :
      Placed s l outpoint offset 0 s
  /-- The slots are reserved at the old `spent_len`. -/
  | first {start : UInt64} {nTxout : UInt32} {spender : UInt32 → Option UInt64}
      {spent : SpentMap} {s' : Store}
      (known : l outpoint.hash = some (.tx start nTxout spender))
      (entry : s.find outpoint.hash = some ⟨start, bzTxiSpentUmark ||| nTxout.toUInt64⟩)
      (reserved : Reserved s.spent nTxout.toUInt64 spent)
      (allocated : IsAllocated s.spent.spentLen s.spent.spentLen.toNat)
      (slot : spent.setSlot (s.spent.spentLen.toNat + outpoint.index.toNat) offset =
        some s'.spent)
      (find : ∀ h, s'.find h = if h = outpoint.hash then
        some ⟨start, s.spent.spentLen ||| quickBit outpoint.index.toNat⟩ else s.find h) :
      Placed s l outpoint offset ((s.spent.spentLen + outpoint.index.toUInt64) * 8) s'
  | again {start : UInt64} {nTxout : UInt32} {spender : UInt32 → Option UInt64}
      {word pos : UInt64} {s' : Store}
      (known : l outpoint.hash = some (.tx start nTxout spender))
      (entry : s.find outpoint.hash = some ⟨start, word⟩)
      (allocated : IsAllocated word pos.toNat)
      (slot : s.spent.setSlot (pos.toNat + outpoint.index.toNat) offset = some s'.spent)
      (find : ∀ h, s'.find h = if h = outpoint.hash then
        some ⟨start, word ||| quickBit outpoint.index.toNat⟩ else s.find h) :
      Placed s l outpoint offset ((pos + outpoint.index.toUInt64) * 8) s'

/-- Positions below `BZ_TXI_SPENT_MAX` are slot numbers as they stand. -/
theorem slotIndex_of_le {pos : UInt64} (le : pos.toNat ≤ bzTxiSpentMax.toNat) (i : UInt32) :
    slotIndex pos i = pos.toNat + i.toNat := by
  have limit : bzTxiSpentMax.toNat = 0x00fffffeffffffff := by decide
  have bound := i.toNat_lt
  exact slotIndex_eq (by omega)

theorem mark_placed {s s' : Store} {l : Ledger} {outpoint : Outpoint} {offset ret : UInt64}
    (cap : Capacity s.spent) (lay : Layout s l)
    (ok : s.mark outpoint offset = .ok (ret, s'))
    (le : s'.spent.spentLen.toNat ≤ bzTxiSpentMax.toNat) :
    Placed s l outpoint offset ret s' := by
  have grows := (capacity_mark cap ok).2
  have shape := lay.shape outpoint.hash
  cases Store.mark_cases cap.sized ok with
  | refused entry kind =>
    rw [entry] at shape
    rcases kind with kind | kind
    · exact .refused (Or.inl ⟨_, shape.of_block kind⟩)
    · obtain ⟨spender, known, -⟩ := shape.of_unallocated kind
      exact .refused (Or.inr ⟨_, spender, known⟩)
  | first entry kind outputs reserved wrote =>
    rw [entry] at shape
    obtain ⟨spender, known, word⟩ := shape.of_unallocated kind
    have low : s.spent.spentLen.toNat ≤ bzTxiSpentMax.toNat := by omega
    refine .first known (entry.trans ?_) reserved
      (isAllocated_self cap.len_ge (UInt64.le_iff_toNat_le.mpr low)) ?_ wrote.find
    · rw [← word]
    · rw [← slotIndex_of_le low]
      exact wrote.slot
  | again entry kind wrote =>
    rw [entry] at shape
    obtain ⟨nTxout, spender, known, allocated⟩ := shape.of_allocated kind
    refine .again known entry allocated ?_ wrote.find
    rw [← slotIndex_of_le allocated.pos_le]
    exact wrote.slot

/-! ## The layout is kept -/

theorem layout_alloc (contents : Nat → UInt8) : Layout (Store.alloc contents) Ledger.empty where
  shape _ := .absent
  packed := by
    refine (packed_empty 1 _).mono ?_ (Nat.le_refl _)
    intro h pos n own
    obtain ⟨_, _, _, slots, -⟩ := own
    obtain ⟨_, known, -⟩ := slots.entry
    cases known

/-- A transaction's slots depend on its own entries only. -/
theorem Slots.congr {s s' : Store} {l l' : Ledger} {h : BzUint256} {nTxout : UInt32}
    {spender : UInt32 → Option UInt64} {word : UInt64} {pos : Nat}
    (slots : Slots s l h nTxout spender word pos) (find : s'.find h = s.find h)
    (known : l' h = l h) : Slots s' l' h nTxout spender word pos := by
  obtain ⟨offset, own, entry⟩ := slots.entry
  exact ⟨⟨offset, by rw [known, own], by rw [find, entry]⟩, slots.allocated⟩

/-- The slots of an inserted hash are those of before, and not its own. -/
theorem slots_set {s : Store} {l : Ledger} {hash : BzUint256} {data : BzInv} {e : LedgerEntry}
    (bare : ∀ pos, ¬ IsAllocated data.spent pos) {h : BzUint256} {nTxout : UInt32}
    {spender : UInt32 → Option UInt64} {word : UInt64} {pos : Nat}
    (slots : Slots (s.set hash data) (Function.update l hash (some e)) h nTxout spender word pos) :
    h ≠ hash ∧ Slots s l h nTxout spender word pos := by
  have other : h ≠ hash := by
    rintro rfl
    obtain ⟨_, -, entry⟩ := slots.entry
    rw [Store.set_find, if_pos rfl] at entry
    cases entry
    exact bare pos slots.allocated
  refine ⟨other, slots.congr ?_ ?_⟩
  · rw [Store.set_find, if_neg other]
  · rw [Function.update_of_ne other]

/-- Inserting an entry without slots. -/
theorem layout_set {s : Store} {l : Ledger} {hash : BzUint256} {data : BzInv} {e : LedgerEntry}
    (lay : Layout s l) (shape : Shape (some data) (some e))
    (bare : ∀ pos, ¬ IsAllocated data.spent pos) :
    Layout (s.set hash data) (Function.update l hash (some e)) where
  shape h := by
    by_cases own : h = hash
    · rw [own, Store.set_find, if_pos rfl, Function.update_self]
      exact shape
    · rw [Store.set_find, if_neg own, Function.update_of_ne own]
      exact lay.shape h
  packed := by
    refine lay.packed.mono ?_ (Nat.le_refl _)
    intro h pos n own
    obtain ⟨nTxout, spender, word, slots, len⟩ := own
    exact ⟨nTxout, spender, word, (slots_set bare slots).2, len⟩

theorem not_isAllocated_uint64Max (pos : Nat) : ¬ IsAllocated uint64Max pos :=
  fun allocated => allocated.ne_uint64Max rfl

theorem not_isAllocated_umark (n : UInt32) (pos : Nat) :
    ¬ IsAllocated (bzTxiSpentUmark ||| n.toUInt64) pos :=
  fun allocated => allocated.not_umark (umark_or_umark n)

/-- A mark leaves a transaction word behind, allocated. -/
theorem shape_mark {s s' : Store} {l : Ledger} {outpoint : Outpoint} {offset start : UInt64}
    {nTxout : UInt32} {spender : UInt32 → Option UInt64} {word : UInt64} {pos : Nat}
    (lay : Layout s l) (known : l outpoint.hash = some (.tx start nTxout spender))
    (allocated : IsAllocated word pos)
    (find : ∀ h, s'.find h = if h = outpoint.hash then
      some ⟨start, word ||| quickBit outpoint.index.toNat⟩ else s.find h) (h : BzUint256) :
    Shape (s'.find h) (l.step (.spend outpoint offset) h) := by
  by_cases own : h = outpoint.hash
  · obtain ⟨spender', known'⟩ := Ledger.step_spend_same offset known
    rw [own, find, if_pos rfl, known']
    exact .slots start nTxout spender' (allocated.or_quickBit outpoint.index.toNat)
  · rw [find, if_neg own, Ledger.step_spend_ne own]
    exact lay.shape h

/-- The slots after a mark: those of the marked transaction, found or reserved, and those of
the others as before. -/
theorem slots_mark {s s' : Store} {l : Ledger} {outpoint : Outpoint} {offset start : UInt64}
    {nTxout : UInt32} {spender : UInt32 → Option UInt64} {word : UInt64} {pos : Nat}
    (known : l outpoint.hash = some (.tx start nTxout spender))
    (allocated : IsAllocated word pos)
    (find : ∀ h, s'.find h = if h = outpoint.hash then
      some ⟨start, word ||| quickBit outpoint.index.toNat⟩ else s.find h)
    {h : BzUint256} {n : UInt32} {spender' : UInt32 → Option UInt64} {word' : UInt64} {a : Nat}
    (slots : Slots s' (l.step (.spend outpoint offset)) h n spender' word' a) :
    (h = outpoint.hash ∧
        l.step (.spend outpoint offset) outpoint.hash = some (.tx start n spender') ∧
        n = nTxout ∧ word' = word ||| quickBit outpoint.index.toNat ∧ a = pos) ∨
      h ≠ outpoint.hash ∧ Slots s l h n spender' word' a := by
  by_cases same : h = outpoint.hash
  · obtain ⟨start', known', entry⟩ := slots.entry
    obtain ⟨spender'', after⟩ := Ledger.step_spend_same offset known
    rw [same] at known' entry
    rw [find, if_pos rfl] at entry
    cases entry
    have count : n = nTxout := by
      rw [after] at known'
      cases known'
      rfl
    refine Or.inl ⟨same, known', count, rfl, ?_⟩
    rw [← slots.allocated.base, (allocated.or_quickBit _).base]
  · refine Or.inr ⟨same, slots.congr ?_ ?_⟩
    · rw [find, if_neg same]
    · rw [Ledger.step_spend_ne same]

/-- A mark of an existing output leaves the range of a transaction with slots where it is, and
every slot of it but the marked one, if not that the block grows. -/
theorem slots_placed {s s' : Store} {l : Ledger} {outpoint : Outpoint} {offset ret : UInt64}
    (lay : Layout s l) (exists' : l.Known outpoint) (placed : Placed s l outpoint offset ret s')
    {h : BzUint256} {n : UInt32} {spender : UInt32 → Option UInt64} {word : UInt64} {pos : Nat}
    (slots : Slots s l h n spender word pos) :
    (∃ spender' word', Slots s' (l.step (.spend outpoint offset)) h n spender' word' pos ∧
      (word' = word ∨ h = outpoint.hash ∧ word' = word ||| quickBit outpoint.index.toNat)) ∧
    ∀ i < n, h ≠ outpoint.hash ∨ i ≠ outpoint.index →
      ∃ m, (m = s.spent ∨ ∃ count : UInt32, Reserved s.spent count.toUInt64 m) ∧
        s'.spent.slot (pos + i.toNat) = m.slot (pos + i.toNat) := by
  obtain ⟨start, nTxout, spent, known, index⟩ := exists'
  have index := UInt32.lt_iff_toNat_lt.mp index
  cases placed with
  | refused nothing =>
    exact absurd nothing (Ledger.Known.not_refused ⟨_, _, _, known, UInt32.lt_iff_toNat_lt.mpr index⟩)
  | first known' entry reserved allocated slot find =>
    have other : h ≠ outpoint.hash := by
      rintro rfl
      obtain ⟨_, -, entry'⟩ := slots.entry
      rw [entry] at entry'
      cases entry'
      exact not_isAllocated_umark _ pos slots.allocated
    refine ⟨⟨spender, word, slots.congr ?_ (Ledger.step_spend_ne other), Or.inl rfl⟩, ?_⟩
    · rw [find, if_neg other]
    · intro i inside _
      have inside := UInt32.lt_iff_toNat_lt.mp inside
      have below := (lay.packed.inside slots.owns).2
      exact ⟨_, Or.inr ⟨_, reserved⟩, SpentMap.slot_setSlot_ne slot (by omega)⟩
  | @again _ _ _ word' _ _ known' entry allocated slot find =>
    rw [known] at known'
    cases known'
    have marked : Slots s l outpoint.hash nTxout spent _ _ := ⟨⟨start, known, entry⟩, allocated⟩
    by_cases own : h = outpoint.hash
    · subst own
      obtain ⟨start', known', entry'⟩ := slots.entry
      rw [known] at known'
      cases known'
      rw [entry] at entry'
      cases entry'
      have base := slots.allocated.base.symm.trans allocated.base
      obtain ⟨spender', after⟩ := Ledger.step_spend_same offset known
      refine ⟨⟨spender', _, ⟨⟨start, after, by rw [find, if_pos rfl]⟩,
        slots.allocated.or_quickBit _⟩, Or.inr ⟨rfl, rfl⟩⟩, ?_⟩
      intro i _ other
      have ne : i ≠ outpoint.index := other.resolve_left (not_not.mpr rfl)
      rw [base]
      exact ⟨_, Or.inl rfl, SpentMap.slot_setSlot_add_ne slot ne⟩
    · refine ⟨⟨spender, word, slots.congr ?_ (Ledger.step_spend_ne own), Or.inl rfl⟩, ?_⟩
      · rw [find, if_neg own]
      · intro i inside _
        have apart := lay.packed.ne slots.owns marked.owns own
          (UInt32.lt_iff_toNat_lt.mp inside) index
        exact ⟨_, Or.inl rfl, SpentMap.slot_setSlot_ne slot apart⟩

/-- What the other slots hold stays. -/
theorem slot_placed {s s' : Store} {l : Ledger} {outpoint : Outpoint} {offset ret : UInt64}
    (lay : Layout s l) (known : l.Known outpoint) (placed : Placed s l outpoint offset ret s')
    {h : BzUint256} {n i : UInt32} {spender : UInt32 → Option UInt64} {word : UInt64} {pos : Nat}
    (slots : Slots s l h n spender word pos) (inside : i < n)
    (other : h ≠ outpoint.hash ∨ i ≠ outpoint.index) {v : UInt64}
    (held : s.spent.slot (pos + i.toNat) = some v) : s'.spent.slot (pos + i.toNat) = some v := by
  obtain ⟨m, grown, slot⟩ := (slots_placed lay known placed slots).2 i inside other
  rw [slot]
  rcases grown with rfl | ⟨count, reserved⟩
  · exact held
  · exact reserved.slot_eq held

/-- After a mark a range is reserved for the marked transaction, or it was reserved before. -/
theorem owns_mark {s s' : Store} {l : Ledger} {outpoint : Outpoint} {offset start : UInt64}
    {nTxout : UInt32} {spender : UInt32 → Option UInt64} {word : UInt64} {pos : Nat}
    (known : l outpoint.hash = some (.tx start nTxout spender))
    (allocated : IsAllocated word pos)
    (find : ∀ h, s'.find h = if h = outpoint.hash then
      some ⟨start, word ||| quickBit outpoint.index.toNat⟩ else s.find h)
    {h : BzUint256} {a n : Nat} (own : owns s' (l.step (.spend outpoint offset)) h a n) :
    h = outpoint.hash ∧ a = pos ∧ n = nTxout.toNat ∨ h ≠ outpoint.hash ∧ owns s l h a n := by
  obtain ⟨n, spender', word', slots, rfl⟩ := own
  rcases slots_mark known allocated find slots with ⟨rfl, -, rfl, -, rfl⟩ | ⟨other, before⟩
  · exact Or.inl ⟨rfl, rfl, rfl⟩
  · exact Or.inr ⟨other, before.owns⟩

theorem layout_mark {s s' : Store} {l : Ledger} {outpoint : Outpoint} {offset ret : UInt64}
    (cap : Capacity s.spent) (lay : Layout s l) (placed : Placed s l outpoint offset ret s') :
    Layout s' (l.step (.spend outpoint offset)) := by
  cases placed with
  | refused nothing =>
    have same : l.step (.spend outpoint offset) = l := by
      rcases nothing with ⟨start, known⟩ | ⟨start, spender, known⟩
      · simp only [Ledger.step, known]
      · have none : ¬ outpoint.index < 0 := UInt32.not_lt_zero
        simp only [Ledger.step, known, none, if_false]
    rw [same]
    exact lay
  | first known entry reserved allocated slot find =>
    obtain ⟨-, len, -⟩ := SpentMap.setSlot_eq_some.mp slot
    refine ⟨shape_mark lay known allocated find, ?_⟩
    rw [len, cap.len_reserved reserved]
    exact lay.packed.extend cap.len_ge fun h a n own => owns_mark known allocated find own
  | @again start nTxout spender word _ _ known entry allocated slot find =>
    obtain ⟨-, len, -⟩ := SpentMap.setSlot_eq_some.mp slot
    refine ⟨shape_mark lay known allocated find, ?_⟩
    rw [len]
    refine lay.packed.mono ?_ (Nat.le_refl _)
    intro h a n own
    rcases owns_mark known allocated find own with ⟨rfl, rfl, rfl⟩ | ⟨-, old⟩
    · exact Slots.owns ⟨⟨start, known, entry⟩, allocated⟩
    · exact old

/-- One operation keeps the layout. -/
theorem layout_step {op : LedgerOp} {s s' : Store} {l : Ledger} (cap : Capacity s.spent)
    (lay : Layout s l) (ok : (storeHandler op.indexOp).run s = .ok ((), s'))
    (le : s'.spent.spentLen.toNat ≤ bzTxiSpentMax.toNat) : Layout s' (l.step op) := by
  cases op with
  | insertBlock hash offset =>
    cases ok
    exact layout_set lay (.block offset) not_isAllocated_uint64Max
  | insertTx hash offset nTxout =>
    cases ok
    exact layout_set lay (.fresh offset nTxout _) (not_isAllocated_umark nTxout)
  | spend outpoint offset =>
    rcases storeHandler_ok ok with ⟨hash, inv, eq, -⟩ | ⟨p, o, ret, eq, marked⟩
    · cases eq
    · cases eq
      exact layout_mark cap lay (mark_placed cap lay marked le)

/-- What every allowed operation keeps while `spent_len` is in range, a run of allowed
operations keeps, if `spent_len` is in range at its end. -/
theorem perform_keeps {P : Store → Ledger → Prop} {allowed : Ledger → LedgerOp → Prop}
    (step : ∀ {op s s' l}, Capacity s.spent → P s l → allowed l op →
      (storeHandler op.indexOp).run s = .ok ((), s') →
      s'.spent.spentLen.toNat ≤ bzTxiSpentMax.toNat → P s' (l.step op))
    {ops : List LedgerOp} {s s' : Store} {l : Ledger} (cap : Capacity s.spent)
    (along : l.Along allowed ops)
    (run : (Handler.perform storeHandler (ops.map LedgerOp.indexOp)).run s = .ok ((), s'))
    (le : s'.spent.spentLen.toNat ≤ bzTxiSpentMax.toNat) (start : P s l) :
    P s' (l.steps ops) := by
  induction ops generalizing s l with
  | nil =>
    obtain ⟨-, rfl⟩ := Handler.run_pure_ok.mp run
    exact start
  | cons op ops ih =>
    obtain ⟨_, s1, first, rest⟩ := Handler.run_bind_ok.mp run
    have cap1 := (capacity_step cap first).1
    have le1 := Nat.le_trans (capacity_perform cap1 rest).2 le
    exact ih cap1 along.2 rest (step cap start along.1 first le1)

theorem layout_perform {ops : List LedgerOp} {s s' : Store} {l : Ledger}
    (cap : Capacity s.spent) (lay : Layout s l)
    (run : (Handler.perform storeHandler (ops.map LedgerOp.indexOp)).run s = .ok ((), s'))
    (le : s'.spent.spentLen.toNat ≤ bzTxiSpentMax.toNat) : Layout s' (l.steps ops) :=
  perform_keeps (fun cap lay _ ok le => layout_step cap lay ok le) cap (l.along_true ops) run le
    lay

end Bzing
