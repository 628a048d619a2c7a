import Bzing.Spent.Layout

/-!
# What the slots record

`Recorded` relates the contents of the spent map to the ledger: the slot of a spent output
holds its spender, and the quick bits are the spent ones among the first eight outputs. It is
kept by inserts and by marks of outputs that exist (`Ledger.Known`); a mark beyond the output
count writes into another range. `Blank` adds that every other slot reads as zero, which
growth keeps and a zeroed first block starts.
-/

namespace Bzing

/-- The slots and quick bits say what the ledger says. -/
structure Recorded (s : Store) (l : Ledger) : Prop where
  fresh : ∀ {h start nTxout spender}, l h = some (.tx start nTxout spender) →
    s.find h = some ⟨start, bzTxiSpentUmark ||| nTxout.toUInt64⟩ → ∀ i, spender i = none
  slot : ∀ {h nTxout spender word pos}, Slots s l h nTxout spender word pos →
    ∀ i < nTxout, ∀ v, spender i = some v → s.spent.slot (pos + i.toNat) = some v
  quick : ∀ {h nTxout spender word pos}, Slots s l h nTxout spender word pos →
    ∀ i, i.toNat < 8 → hasQuickBit word i.toNat = (spender i).isSome

theorem recorded_alloc (contents : Nat → UInt8) :
    Recorded (Store.alloc contents) Ledger.empty where
  fresh known := by cases known
  slot slots := by
    obtain ⟨_, known, -⟩ := slots.entry
    cases known
  quick slots := by
    obtain ⟨_, known, -⟩ := slots.entry
    cases known

theorem recorded_set {s : Store} {l : Ledger} {hash : BzUint256} {data : BzInv}
    {e : LedgerEntry} (rec : Recorded s l) (bare : ∀ pos, ¬ IsAllocated data.spent pos)
    (unspent : ∀ start nTxout spender, e = .tx start nTxout spender → ∀ i, spender i = none) :
    Recorded (s.set hash data) (Function.update l hash (some e)) where
  fresh {h start nTxout spender} known entry i := by
    by_cases own : h = hash
    · rw [own, Function.update_self] at known
      exact unspent _ _ _ (Option.some.inj known) i
    · rw [Store.set_find, if_neg own] at entry
      rw [Function.update_of_ne own] at known
      exact rec.fresh known entry i
  slot slots := rec.slot (slots_set bare slots).2
  quick slots := rec.quick (slots_set bare slots).2

section Mark

variable {s s' : Store} {l : Ledger} {outpoint : Outpoint} {offset start : UInt64}
  {nTxout : UInt32} {spender : UInt32 → Option UInt64} {word : UInt64} {pos : Nat}

theorem spender_mark (known : l outpoint.hash = some (.tx start nTxout spender))
    (index : outpoint.index < nTxout) {start' : UInt64} {n : UInt32}
    {spender' : UInt32 → Option UInt64}
    (after : l.step (.spend outpoint offset) outpoint.hash = some (.tx start' n spender')) :
    spender' = Function.update spender outpoint.index (some offset) := by
  rw [Ledger.step_spend known index, Function.update_self] at after
  cases after
  rfl

/-- An output that is unspent after a mark is not the marked one. -/
theorem spender_of_unspent {spender spender' : UInt32 → Option UInt64} {i : UInt32}
    (known : l outpoint.hash = some (.tx start nTxout spender)) (index : outpoint.index < nTxout)
    (after : l.step (.spend outpoint offset) outpoint.hash = some (.tx start nTxout spender'))
    (unspent : spender' i = none) : i ≠ outpoint.index ∧ spender i = none := by
  rw [spender_mark known index after] at unspent
  have ne : i ≠ outpoint.index := by
    rintro rfl
    rw [Function.update_self] at unspent
    cases unspent
  rw [Function.update_of_ne ne] at unspent
  exact ⟨ne, unspent⟩

/-- A mark that writes slot `pos + i` of the transaction, all other reserved slots kept. -/
theorem recorded_slot (rec : Recorded s l)
    (known : l outpoint.hash = some (.tx start nTxout spender))
    (index : outpoint.index < nTxout) (allocated : IsAllocated word pos)
    (find : ∀ h, s'.find h = if h = outpoint.hash then
      some ⟨start, word ||| quickBit outpoint.index.toNat⟩ else s.find h)
    (written : s'.spent.slot (pos + outpoint.index.toNat) = some offset)
    (others : ∀ {h n spender' word' a}, h ≠ outpoint.hash → Slots s l h n spender' word' a →
      ∀ i < n, ∀ v, s.spent.slot (a + i.toNat) = some v →
        s'.spent.slot (a + i.toNat) = some v)
    (own : ∀ i < nTxout, i ≠ outpoint.index → ∀ v, spender i = some v →
      s'.spent.slot (pos + i.toNat) = some v)
    (bits : ∀ i, i.toNat < 8 → hasQuickBit word i.toNat = (spender i).isSome) :
    Recorded s' (l.step (.spend outpoint offset)) where
  fresh {h start' n spender'} known' entry i := by
    by_cases same : h = outpoint.hash
    · rw [same, find, if_pos rfl] at entry
      have word_eq := congrArg BzInv.spent (Option.some.inj entry)
      simp only at word_eq
      exact absurd (word_eq ▸ allocated.or_quickBit _) (not_isAllocated_umark n pos)
    · rw [find, if_neg same] at entry
      rw [Ledger.step_spend_ne same] at known'
      exact rec.fresh known' entry i
  slot slots i inside v spent := by
    rcases slots_mark known allocated find slots with
      ⟨-, after, rfl, rfl, rfl⟩ | ⟨other, before⟩
    · cases spender_mark known index after
      by_cases marked : i = outpoint.index
      · subst marked
        rw [Function.update_self] at spent
        rw [written, ← spent]
      · rw [Function.update_of_ne marked] at spent
        exact own i inside marked v spent
    · exact others other before i inside v (rec.slot before i inside v spent)
  quick slots i small := by
    rcases slots_mark known allocated find slots with
      ⟨-, after, rfl, rfl, rfl⟩ | ⟨-, before⟩
    · cases spender_mark known index after
      rw [hasQuickBit_or small, bits i small]
      by_cases marked : i = outpoint.index
      · subst marked
        simp
      · have ne : outpoint.index.toNat ≠ i.toNat := fun h => marked (UInt32.toNat_inj.mp h.symm)
        simp [ne, Function.update_of_ne marked]
    · exact rec.quick before i small

end Mark

theorem hasQuickBit_fresh {pos : UInt64} {p : Nat} (allocated : IsAllocated pos p)
    (same : pos.toNat = p) {i : Nat} (small : i < 8) : hasQuickBit pos i = false :=
  hasQuickBit_self (UInt64.le_iff_toNat_le.mpr (same ▸ allocated.pos_le)) small

/-- A mark of an existing output keeps the records and adds its own. -/
theorem recorded_mark {s s' : Store} {l : Ledger} {outpoint : Outpoint} {offset ret : UInt64}
    (lay : Layout s l) (rec : Recorded s l) (exists' : l.Known outpoint)
    (placed : Placed s l outpoint offset ret s') :
    Recorded s' (l.step (.spend outpoint offset)) := by
  have others : ∀ {h n spender' word' a}, h ≠ outpoint.hash → Slots s l h n spender' word' a →
      ∀ i < n, ∀ v, s.spent.slot (a + i.toNat) = some v → s'.spent.slot (a + i.toNat) = some v :=
    fun other slots i inside v held =>
      slot_placed lay exists' placed slots inside (Or.inl other) held
  have own := @slot_placed s s' l outpoint offset ret lay exists' placed outpoint.hash
  obtain ⟨start, nTxout, spender, known, index⟩ := exists'
  cases placed with
  | refused nothing => exact absurd nothing (Ledger.Known.not_refused ⟨_, _, _, known, index⟩)
  | first known' entry reserved allocated slot find =>
    rw [known] at known'
    cases known'
    have unspent := rec.fresh known entry
    refine recorded_slot rec known index allocated find (SpentMap.slot_setSlot_same slot) others
      (fun i inside _ v spent => ?_) (fun i small => ?_)
    · rw [unspent i] at spent
      cases spent
    · rw [hasQuickBit_fresh allocated rfl small, unspent i]
      rfl
  | again known' entry allocated slot find =>
    rw [known] at known'
    cases known'
    have slots : Slots s l outpoint.hash nTxout spender _ _ := ⟨⟨start, known, entry⟩, allocated⟩
    exact recorded_slot rec known index allocated find (SpentMap.slot_setSlot_same slot) others
      (fun i inside ne v spent => own slots inside (Or.inr ne) (rec.slot slots i inside v spent))
      (fun i small => rec.quick slots i small)

theorem recorded_step {op : LedgerOp} {s s' : Store} {l : Ledger} (cap : Capacity s.spent)
    (lay : Layout s l) (rec : Recorded s l) (allowed : l.Allows op)
    (ok : (storeHandler op.indexOp).run s = .ok ((), s'))
    (le : s'.spent.spentLen.toNat ≤ bzTxiSpentMax.toNat) : Recorded s' (l.step op) := by
  cases op with
  | insertBlock hash offset =>
    cases ok
    exact recorded_set rec not_isAllocated_uint64Max fun _ _ _ h => by cases h
  | insertTx hash offset nTxout =>
    cases ok
    apply recorded_set rec (not_isAllocated_umark nTxout)
    intro _ _ _ h i
    cases h
    rfl
  | spend outpoint offset =>
    rcases storeHandler_ok ok with ⟨hash, inv, eq, -⟩ | ⟨p, o, ret, eq, marked⟩
    · cases eq
    · cases eq
      exact recorded_mark lay rec allowed (mark_placed cap lay marked le)

theorem recorded_perform {ops : List LedgerOp} {s s' : Store} {l : Ledger}
    (cap : Capacity s.spent) (lay : Layout s l) (rec : Recorded s l)
    (honest : l.Along Ledger.Allows ops)
    (run : (Handler.perform storeHandler (ops.map LedgerOp.indexOp)).run s = .ok ((), s'))
    (le : s'.spent.spentLen.toNat ≤ bzTxiSpentMax.toNat) : Recorded s' (l.steps ops) :=
  (perform_keeps (P := fun s l => Layout s l ∧ Recorded s l)
    (fun cap inv allowed ok le =>
      ⟨layout_step cap inv.1 ok le, recorded_step cap inv.1 inv.2 allowed ok le⟩)
    cap honest run le ⟨lay, rec⟩).2

/-- Only transactions with a spent output have slots. -/
structure SlotsUsed (s : Store) (l : Ledger) : Prop where
  spent : ∀ {h nTxout spender word pos}, Slots s l h nTxout spender word pos →
    ∃ i v, spender i = some v

theorem slotsUsed_alloc (contents : Nat → UInt8) :
    SlotsUsed (Store.alloc contents) Ledger.empty where
  spent slots := by
    obtain ⟨_, known, -⟩ := slots.entry
    cases known

theorem slotsUsed_set {s : Store} {l : Ledger} {hash : BzUint256} {data : BzInv}
    {e : LedgerEntry} (used : SlotsUsed s l) (bare : ∀ pos, ¬ IsAllocated data.spent pos) :
    SlotsUsed (s.set hash data) (Function.update l hash (some e)) where
  spent slots := used.spent (slots_set bare slots).2

theorem slotsUsed_mark {s s' : Store} {l : Ledger} {outpoint : Outpoint} {offset ret : UInt64}
    (used : SlotsUsed s l) (known : l.Known outpoint)
    (placed : Placed s l outpoint offset ret s') :
    SlotsUsed s' (l.step (.spend outpoint offset)) := by
  have marked : ∀ {start nTxout spender word pos},
      l outpoint.hash = some (.tx start nTxout spender) → outpoint.index < nTxout →
      IsAllocated word pos → (∀ h, s'.find h = if h = outpoint.hash then
        some ⟨start, word ||| quickBit outpoint.index.toNat⟩ else s.find h) →
      SlotsUsed s' (l.step (.spend outpoint offset)) := by
    intro start nTxout spender word pos entry index allocated find
    refine ⟨fun slots => ?_⟩
    rcases slots_mark entry allocated find slots with ⟨-, after, rfl, -, -⟩ | ⟨-, before⟩
    · rw [spender_mark entry index after]
      exact ⟨outpoint.index, offset, Function.update_self _ _ _⟩
    · exact used.spent before
  obtain ⟨start, nTxout, spender, entry, index⟩ := known
  cases placed with
  | refused nothing => exact absurd nothing (Ledger.Known.not_refused ⟨_, _, _, entry, index⟩)
  | first entry' _ _ allocated _ find =>
    rw [entry] at entry'
    cases entry'
    exact marked entry index allocated find
  | again entry' _ allocated _ find =>
    rw [entry] at entry'
    cases entry'
    exact marked entry index allocated find

theorem slotsUsed_perform {ops : List LedgerOp} {s s' : Store} {l : Ledger}
    (cap : Capacity s.spent) (lay : Layout s l) (used : SlotsUsed s l)
    (honest : l.Along Ledger.Allows ops)
    (run : (Handler.perform storeHandler (ops.map LedgerOp.indexOp)).run s = .ok ((), s'))
    (le : s'.spent.spentLen.toNat ≤ bzTxiSpentMax.toNat) : SlotsUsed s' (l.steps ops) := by
  refine (perform_keeps (P := fun s l => Layout s l ∧ SlotsUsed s l) ?_ cap honest run le
    ⟨lay, used⟩).2
  intro op s s' l cap inv allowed ok le
  refine ⟨layout_step cap inv.1 ok le, ?_⟩
  cases op with
  | insertBlock hash offset =>
    cases ok
    exact slotsUsed_set inv.2 not_isAllocated_uint64Max
  | insertTx hash offset nTxout =>
    cases ok
    exact slotsUsed_set inv.2 (not_isAllocated_umark nTxout)
  | spend outpoint offset =>
    rcases storeHandler_ok ok with ⟨hash, inv', eq, -⟩ | ⟨p, o, ret, eq, marked⟩
    · cases eq
    · cases eq
      exact slotsUsed_mark inv.2 allowed (mark_placed cap inv.1 marked le)

/-! ## Slots never written -/

/-- Reserved slots of unspent outputs, and all slots not reserved, read as zero if at all. -/
structure Blank (s : Store) (l : Ledger) : Prop where
  unspent : ∀ {h nTxout spender word pos}, Slots s l h nTxout spender word pos →
    ∀ i < nTxout, spender i = none → ∀ v, s.spent.slot (pos + i.toNat) = some v → v = 0
  unreserved : ∀ k, s.spent.spentLen.toNat ≤ k → ∀ v, s.spent.slot k = some v → v = 0

/-- The slots of a fresh block, byte by byte. -/
theorem slot_alloc {contents : Nat → UInt8} {k : Nat} {v : UInt64}
    (read : (Store.alloc contents).spent.slot k = some v) :
    k < 512 ∧ (v = 0 ↔ ∀ i < 8, contents (8 * k + i) = 0) := by
  have size : bzSpentInitSize.toNat = 4096 := by rfl
  simp only [SpentMap.slot, Store.alloc, SpentMap.alloc, size] at read
  have inside := ByteBuffer.load64_isSome.mp (Option.isSome_of_eq_some read)
  rw [length_malloc] at inside
  refine ⟨by omega, (ByteBuffer.load64_eq_zero read).trans ?_⟩
  refine forall₂_congr ?_
  intro i small
  rw [malloc, List.getElem?_map, List.getElem?_range (by omega), Option.map_some,
    Option.some.injEq]

/-- A block of zero bytes has no other slots; the first slot is never used. -/
theorem blank_alloc {contents : Nat → UInt8}
    (zero : ∀ i, 8 ≤ i → i < 4096 → contents i = 0) :
    Blank (Store.alloc contents) Ledger.empty where
  unspent slots := by
    obtain ⟨_, known, -⟩ := slots.entry
    cases known
  unreserved k above v read := by
    obtain ⟨inside, blank⟩ := slot_alloc read
    have first : 1 ≤ k := above
    exact blank.mpr fun i small => zero _ (by omega) (by omega)

theorem Reserved.slot_zero {m m' : SpentMap} {count : UInt64} (h : Reserved m count m')
    (cap : Capacity m) {k : Nat} (zero : ∀ v, m.slot k = some v → v = 0) {v : UInt64}
    (read : m'.slot k = some v) : v = 0 := by
  cases before : m.slot k with
  | some u =>
    rw [h.slot_eq before] at read
    rw [← Option.some.inj read]
    exact zero u before
  | none =>
    have inside := ByteBuffer.load64_isSome.mp (Option.isSome_of_eq_some read)
    rw [h.slot_new before inside cap.size_dvd] at read
    exact (Option.some.inj read).symm

theorem blank_set {s : Store} {l : Ledger} {hash : BzUint256} {data : BzInv} {e : LedgerEntry}
    (blank : Blank s l) (bare : ∀ pos, ¬ IsAllocated data.spent pos) :
    Blank (s.set hash data) (Function.update l hash (some e)) where
  unspent slots := blank.unspent (slots_set bare slots).2
  unreserved := blank.unreserved

/-- A slot that is zero if at all stays so, unless it is the marked one. -/
theorem slot_zero_placed {s s' : Store} {l : Ledger} {outpoint : Outpoint} {offset ret : UInt64}
    (cap : Capacity s.spent) (lay : Layout s l) (known : l.Known outpoint)
    (placed : Placed s l outpoint offset ret s') {h : BzUint256} {n i : UInt32}
    {spender : UInt32 → Option UInt64} {word : UInt64} {pos : Nat}
    (slots : Slots s l h n spender word pos) (inside : i < n)
    (other : h ≠ outpoint.hash ∨ i ≠ outpoint.index)
    (zero : ∀ v, s.spent.slot (pos + i.toNat) = some v → v = 0) {v : UInt64}
    (read : s'.spent.slot (pos + i.toNat) = some v) : v = 0 := by
  obtain ⟨m, grown, slot⟩ := (slots_placed lay known placed slots).2 i inside other
  rw [slot] at read
  rcases grown with rfl | ⟨count, reserved⟩
  · exact zero v read
  · exact reserved.slot_zero cap zero read

theorem blank_mark {s s' : Store} {l : Ledger} {outpoint : Outpoint} {offset ret : UInt64}
    (cap : Capacity s.spent) (lay : Layout s l) (blank : Blank s l) (exists' : l.Known outpoint)
    (placed : Placed s l outpoint offset ret s') :
    Blank s' (l.step (.spend outpoint offset)) := by
  have kept := @slot_zero_placed s s' l outpoint offset ret cap lay exists' placed
  obtain ⟨start, nTxout, spender, known, index⟩ := exists'
  have index' := UInt32.lt_iff_toNat_lt.mp index
  cases placed with
  | refused nothing => exact absurd nothing (Ledger.Known.not_refused ⟨_, _, _, known, index⟩)
  | first known' entry reserved allocated slot find =>
    rw [known] at known'
    cases known'
    have len := cap.len_reserved reserved
    have written := congrArg UInt64.toNat (SpentMap.setSlot_eq_some.mp slot).2.1
    refine ⟨fun slots i inside none v read => ?_, ?_⟩
    · rcases slots_mark known allocated find slots with
        ⟨-, after, rfl, rfl, rfl⟩ | ⟨other, before⟩
      · have ne := (spender_of_unspent known index after none).1
        rw [SpentMap.slot_setSlot_add_ne slot ne] at read
        exact reserved.slot_zero cap (blank.unreserved _ (Nat.le_add_right _ _)) read
      · exact kept before inside (Or.inl other) (blank.unspent before i inside none) read
    · intro k above v read
      rw [SpentMap.slot_setSlot_ne slot (by omega)] at read
      exact reserved.slot_zero cap (blank.unreserved _ (by omega)) read
  | again known' entry allocated slot find =>
    rw [known] at known'
    cases known'
    have slots : Slots s l outpoint.hash nTxout spender _ _ := ⟨⟨start, known, entry⟩, allocated⟩
    have below := (lay.packed.inside slots.owns).2
    have written := congrArg UInt64.toNat (SpentMap.setSlot_eq_some.mp slot).2.1
    refine ⟨fun slots' i inside none v read => ?_, ?_⟩
    · rcases slots_mark known allocated find slots' with
        ⟨-, after, rfl, rfl, rfl⟩ | ⟨other, before⟩
      · obtain ⟨ne, none⟩ := spender_of_unspent known index after none
        exact kept slots inside (Or.inr ne) (blank.unspent slots i inside none) read
      · exact kept before inside (Or.inl other) (blank.unspent before i inside none) read
    · intro k above v read
      rw [SpentMap.slot_setSlot_ne slot (by omega)] at read
      exact blank.unreserved k (by omega) v read

theorem blank_step {op : LedgerOp} {s s' : Store} {l : Ledger} (cap : Capacity s.spent)
    (lay : Layout s l) (blank : Blank s l) (allowed : l.Allows op)
    (ok : (storeHandler op.indexOp).run s = .ok ((), s'))
    (le : s'.spent.spentLen.toNat ≤ bzTxiSpentMax.toNat) : Blank s' (l.step op) := by
  cases op with
  | insertBlock hash offset =>
    cases ok
    exact blank_set blank not_isAllocated_uint64Max
  | insertTx hash offset nTxout =>
    cases ok
    exact blank_set blank (not_isAllocated_umark nTxout)
  | spend outpoint offset =>
    rcases storeHandler_ok ok with ⟨hash, inv, eq, -⟩ | ⟨p, o, ret, eq, marked⟩
    · cases eq
    · cases eq
      exact blank_mark cap lay blank allowed (mark_placed cap lay marked le)

theorem blank_perform {ops : List LedgerOp} {s s' : Store} {l : Ledger}
    (cap : Capacity s.spent) (lay : Layout s l) (blank : Blank s l)
    (honest : l.Along Ledger.Allows ops)
    (run : (Handler.perform storeHandler (ops.map LedgerOp.indexOp)).run s = .ok ((), s'))
    (le : s'.spent.spentLen.toNat ≤ bzTxiSpentMax.toNat) : Blank s' (l.steps ops) :=
  (perform_keeps (P := fun s l => Layout s l ∧ Blank s l)
    (fun cap inv allowed ok le =>
      ⟨layout_step cap inv.1 ok le, blank_step cap inv.1 inv.2 allowed ok le⟩)
    cap honest run le ⟨lay, blank⟩).2

end Bzing
