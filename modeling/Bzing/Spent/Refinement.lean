import Bzing.Spent.Recorded
import Bzing.Spent.Reserve

/-!
# The spent map refines the ledger

Any sequence of inserts and marks that the ledger allows and whose reservations fit the block
runs to its end, and the handle then says what the ledger says: `spentMap_refines`. The
invariants are those of the two modules before; what is added here is that a mark allowed by
the ledger stays inside the block (`mark_returns`).
-/

namespace Bzing

variable {ι : Type} [InvEngine ι] [LawfulInvEngine ι]

/-- The used part of the block lies in the block. -/
def SpentMap.Fits (m : SpentMap) : Prop := m.spentLen.toNat * 8 ≤ m.spentSize.toNat

/-- Reserving `nTxout` slots leaves the used part in the block and the length in range. -/
def ReserveFits (m : SpentMap) (nTxout : UInt32) : Prop :=
  ∃ pos m', bzingSpentReserve m nTxout.toUInt64 = .ok (pos, m') ∧ m'.Fits ∧
    m'.spentLen ≤ bzTxiSpentMax

/-- An operation the sequence may contain: a mark names an output of an indexed transaction,
    and if it reserves slots, they fit. -/
def Admits (s : Store) (l : Ledger) : LedgerOp → Prop
  | .spend outpoint _ => l.Known outpoint ∧ ∀ data nTxout, s.find outpoint.hash = some data →
      classify data.spent = .unallocated nTxout → ReserveFits s.spent nTxout
  | _ => True

/-- Every operation may come when it does. -/
def AdmitsAll (hnd : BzingHandle ι) (l : Ledger) : List LedgerOp → Prop
  | [] => True
  | op :: ops => Admits hnd.store l op ∧
      ∀ hnd', (indexHandler op.indexOp).run hnd = .ok ((), hnd') → AdmitsAll hnd' (l.step op) ops

/-- What the slot of an output holds, if its transaction has slots. -/
def Store.recorded (s : Store) (hash : BzUint256) (i : UInt32) : Option UInt64 :=
  (s.find hash).bind fun data =>
    match classify data.spent with
    | .allocated pos _ => s.spent.slot (pos.toNat + i.toNat)
    | _ => none

/-- The handle says what the ledger says. -/
structure Refines (s : Store) (l : Ledger) : Prop where
  /-- A marked output's transaction has slots, and the output's slot holds the last mark. -/
  slot : ∀ {h start nTxout spender}, l h = some (.tx start nTxout spender) →
    ∀ i < nTxout, ∀ v, spender i = some v →
      ∃ data pos bits, s.find h = some data ∧ classify data.spent = .allocated pos bits ∧
        1 ≤ pos.toNat ∧ s.spent.slot (pos.toNat + i.toNat) = some v
  /-- The quick bits are the marked ones among the first eight outputs. -/
  quick : ∀ {h start nTxout spender}, l h = some (.tx start nTxout spender) →
    ∃ data, s.find h = some data ∧ data.offset = start ∧
      ∀ i < nTxout, i.toNat < 8 → hasQuickBit data.spent i.toNat = (spender i).isSome
  /-- The ranges of allocated transactions lie in `[1, spent_len)`. -/
  inside : ∀ {h start nTxout spender data pos bits}, l h = some (.tx start nTxout spender) →
    s.find h = some data → classify data.spent = .allocated pos bits →
    1 ≤ pos.toNat ∧ pos.toNat + nTxout.toNat ≤ s.spent.spentLen.toNat
  /-- They do not overlap. -/
  apart : ∀ {h start nTxout spender data pos bits h' start' nTxout' spender' data' pos' bits'},
    l h = some (.tx start nTxout spender) → s.find h = some data →
    classify data.spent = .allocated pos bits →
    l h' = some (.tx start' nTxout' spender') → s.find h' = some data' →
    classify data'.spent = .allocated pos' bits' → h ≠ h' →
    pos.toNat + nTxout.toNat ≤ pos'.toNat ∨ pos'.toNat + nTxout'.toNat ≤ pos.toNat

/-- A mark changes no other index entry, not the position of its own, and no slot of any other
    output of a transaction with slots. -/
structure MarkFrame (s : Store) (l : Ledger) (outpoint : Outpoint) (s' : Store) : Prop where
  entry : ∀ h ≠ outpoint.hash, s'.find h = s.find h
  offset : (s'.find outpoint.hash).map BzInv.offset = (s.find outpoint.hash).map BzInv.offset
  recorded : ∀ {h start nTxout spender}, l h = some (.tx start nTxout spender) →
    ∀ i < nTxout, h ≠ outpoint.hash ∨ i ≠ outpoint.index →
      ∀ v, s.recorded h i = some v → s'.recorded h i = some v

/-- The index knows what the ledger knows. -/
theorem Layout.isSome_find_iff {s : Store} {l : Ledger} (lay : Layout s l) (h : BzUint256) :
    (s.find h).isSome ↔ (l h).isSome := by
  have shape := lay.shape h
  generalize s.find h = entry at shape
  generalize l h = known at shape
  cases shape <;> simp

/-- An entry read as allocated has its slots where it says. -/
theorem Layout.slots {s : Store} {l : Ledger} (lay : Layout s l) {h : BzUint256}
    {start : UInt64} {nTxout : UInt32} {spender : UInt32 → Option UInt64} {data : BzInv}
    {pos : UInt64} {bits : Fin 8 → Bool} (known : l h = some (.tx start nTxout spender))
    (entry : s.find h = some data) (kind : classify data.spent = .allocated pos bits) :
    Slots s l h nTxout spender data.spent pos.toNat := by
  have shape := lay.shape h
  rw [entry] at shape
  obtain ⟨n, spender', known', allocated⟩ := shape.of_allocated kind
  rw [known] at known'
  cases known'
  exact ⟨⟨data.offset, known, entry⟩, allocated⟩

/-- A transaction's entry has one of two forms. -/
theorem Layout.tx_cases {s : Store} {l : Ledger} (lay : Layout s l) {h : BzUint256}
    {start : UInt64} {nTxout : UInt32} {spender : UInt32 → Option UInt64}
    (known : l h = some (.tx start nTxout spender)) :
    s.find h = some ⟨start, bzTxiSpentUmark ||| nTxout.toUInt64⟩ ∨
      ∃ word pos, s.find h = some ⟨start, word⟩ ∧
        Slots s l h nTxout spender word pos := by
  have shape := lay.shape h
  rw [known] at shape
  generalize entry : s.find h = e at shape
  cases shape with
  | fresh => exact Or.inl rfl
  | slots _ _ _ allocated => exact Or.inr ⟨_, _, rfl, ⟨start, known, entry⟩, allocated⟩

theorem refines_of_recorded {s : Store} {l : Ledger} (lay : Layout s l) (rec : Recorded s l) :
    Refines s l where
  slot {h start nTxout spender} known i inside v spent := by
    rcases lay.tx_cases known with fresh | ⟨word, pos, entry, slots⟩
    · rw [rec.fresh known fresh i] at spent
      cases spent
    · refine ⟨_, _, _, entry, slots.allocated.classify_eq, ?_, ?_⟩
      · rw [slots.allocated.toNat_and_mask]
        exact slots.allocated.pos_ge
      · rw [slots.allocated.toNat_and_mask]
        exact rec.slot slots i inside v spent
  quick {h start nTxout spender} known := by
    rcases lay.tx_cases known with fresh | ⟨word, pos, entry, slots⟩
    · refine ⟨_, fresh, rfl, ?_⟩
      intro i _ small
      rw [rec.fresh known fresh i]
      exact hasQuickBit_umark nTxout small
    · exact ⟨_, entry, rfl, fun i _ small => rec.quick slots i small⟩
  inside known entry kind := lay.packed.inside (lay.slots known entry kind).owns
  apart known entry kind known' entry' kind' ne :=
    lay.packed.apart (lay.slots known entry kind).owns (lay.slots known' entry' kind').owns ne

/-- The invariants of a run whose reservations fit. -/
structure Sound (s : Store) (l : Ledger) : Prop where
  cap : Capacity s.spent
  lay : Layout s l
  recorded : Recorded s l
  fits : s.spent.Fits
  le : s.spent.spentLen.toNat ≤ bzTxiSpentMax.toNat

theorem sound_alloc (contents : Nat → UInt8) : Sound (Store.alloc contents) Ledger.empty := by
  have size : (SpentMap.alloc contents).spentSize.toNat = 4096 := by rfl
  have len : (SpentMap.alloc contents).spentLen.toNat = 1 := by rfl
  have limit : bzTxiSpentMax.toNat = 0x00fffffeffffffff := by rfl
  refine ⟨capacity_alloc contents, layout_alloc contents, recorded_alloc contents, ?_, ?_⟩
  · change (SpentMap.alloc contents).spentLen.toNat * 8 ≤ (SpentMap.alloc contents).spentSize.toNat
    omega
  · change (SpentMap.alloc contents).spentLen.toNat ≤ _
    omega

theorem fits_setSlot {m m' : SpentMap} {k : Nat} {v : UInt64}
    (stored : m.setSlot k v = some m') (fits : m.Fits) : m'.Fits := by
  obtain ⟨-, len, size⟩ := SpentMap.setSlot_eq_some.mp stored
  unfold SpentMap.Fits
  rw [len, size]
  exact fits

/-- The slots taken lie in the block exactly when doubling it once was enough. -/
theorem Reserved.room_iff {m m' : SpentMap} {nTxout : UInt32}
    (reserved : Reserved m nTxout.toUInt64 m') (cap : Capacity m) :
    8 * m'.spentLen.toNat ≤ m'.spentSize.toNat ↔ m.FitsDoubled nTxout.toUInt64 := by
  have len := cap.len_reserved reserved
  have bytes := cap.toNat_len_mul reserved
  have bound := m'.spentSize.toNat_lt
  unfold SpentMap.FitsDoubled
  rw [UInt32.toNat_toUInt64, ← len]
  rcases reserved.grown with ⟨-, same, fits⟩ | ⟨-, double, full⟩
  · have fits := UInt64.le_iff_toNat_le.mp fits
    rw [same]
    exact iff_of_true (by omega) (Or.inl (by omega))
  · have full := UInt64.lt_iff_toNat_lt.mp full
    rw [double]
    omega

/-- Slots fit exactly when the block doubled once has room for them. -/
theorem reserveFits_iff {m : SpentMap} {nTxout : UInt32} (cap : Capacity m) (fits : m.Fits) :
    ReserveFits m nTxout ↔ m.FitsDoubled nTxout.toUInt64 ∧
      m.spentLen.toNat + nTxout.toNat ≤ bzTxiSpentMax.toNat := by
  unfold SpentMap.Fits at fits
  have sound : m.Sound := ⟨cap.sized, by omega⟩
  constructor
  · rintro ⟨pos, m', ok, fits', le⟩
    obtain ⟨-, reserved⟩ := reserve_ok cap.sized ok
    have le := UInt64.le_iff_toNat_le.mp le
    unfold SpentMap.Fits at fits'
    rw [cap.len_reserved reserved] at le
    exact ⟨(reserved.room_iff cap).mp (by omega), le⟩
  · rintro ⟨doubled, le⟩
    obtain ⟨m', ok, sound', len, -⟩ := keepsSound_of_fits sound doubled
    have room := sound'.room
    rw [UInt32.toNat_toUInt64] at len
    refine ⟨_, m', ok, ?_, UInt64.le_iff_toNat_le.mpr (len ▸ le)⟩
    unfold SpentMap.Fits
    omega

/-- The output count of an entry without slots. -/
theorem unallocated_unique {s : Store} {h : BzUint256} {start : UInt64} {nTxout n : UInt32}
    {data : BzInv} (entry : s.find h = some ⟨start, bzTxiSpentUmark ||| nTxout.toUInt64⟩)
    (found : s.find h = some data) (kind : classify data.spent = .unallocated n) :
    n = nTxout := by
  rw [entry] at found
  cases found
  exact SpentWord.unallocated.inj (kind.symm.trans (classify_unallocated nTxout))

theorem write_returns {s : Store} {outpoint : Outpoint} (offset : UInt64) (data : BzInv)
    (word : UInt64) {pos : UInt64} {nTxout : UInt32} (cap : Capacity s.spent) (fits : s.spent.Fits)
    (inside : pos.toNat + nTxout.toNat ≤ s.spent.spentLen.toNat)
    (index : outpoint.index < nTxout) :
    ∃ ret s', s.write outpoint offset data word pos = .ok (ret, s') ∧ s'.spent.Fits ∧
      s'.spent.spentLen = s.spent.spentLen := by
  have small := cap.len_lt
  have index := UInt32.lt_iff_toNat_lt.mp index
  have sized := cap.sized
  unfold SpentMap.Sized at sized
  unfold SpentMap.Fits at fits
  have room : 8 * slotIndex pos outpoint.index + 8 ≤ s.spent.spentData.length := by
    rw [slotIndex_eq (by omega)]
    omega
  obtain ⟨s', ok, wrote⟩ := Store.write_isOk data offset word room
  exact ⟨_, s', ok, fits_setSlot wrote.slot fits, (SpentMap.setSlot_eq_some.mp wrote.slot).2.1⟩

/-- A mark the sequence may contain returns. -/
theorem mark_returns {s : Store} {l : Ledger} {outpoint : Outpoint} {offset : UInt64}
    (cap : Capacity s.spent) (lay : Layout s l) (fits : s.spent.Fits)
    (le : s.spent.spentLen.toNat ≤ bzTxiSpentMax.toNat)
    (admits : Admits s l (.spend outpoint offset)) :
    ∃ ret s', s.mark outpoint offset = .ok (ret, s') ∧ s'.spent.Fits ∧
      s'.spent.spentLen.toNat ≤ bzTxiSpentMax.toNat := by
  obtain ⟨⟨start, nTxout, spender, known, index⟩, reservation⟩ := admits
  rcases lay.tx_cases known with fresh | ⟨word, pos, entry, slots⟩
  · have kind : classify (bzTxiSpentUmark ||| nTxout.toUInt64) = .unallocated nTxout :=
      classify_unallocated nTxout
    have outputs : nTxout ≠ 0 := by
      rintro rfl
      exact UInt32.not_lt_zero index
    obtain ⟨pos, spent, reserve, fits', le'⟩ := reservation _ _ fresh kind
    obtain ⟨rfl, reserved⟩ := reserve_ok cap.sized reserve
    have len := cap.len_reserved reserved
    obtain ⟨ret, s', ok, fits'', kept⟩ := write_returns (s := { s with spent := spent }) offset
      ⟨start, bzTxiSpentUmark ||| nTxout.toUInt64⟩ s.spent.spentLen (cap.reserved reserved) fits'
      (Nat.le_of_eq len.symm) index
    refine ⟨ret, s', (Store.mark_first fresh kind outputs reserve).trans ok, fits'', ?_⟩
    rw [kept]
    exact UInt64.le_iff_toNat_le.mp le'
  · have kind := slots.allocated.classify_eq
    have inside := (lay.packed.inside slots.owns).2
    rw [← slots.allocated.toNat_and_mask] at inside
    obtain ⟨ret, s', ok, fits', kept⟩ := write_returns offset ⟨start, word⟩ word cap fits inside
      index
    refine ⟨ret, s', (Store.mark_again entry kind).trans ok, fits', ?_⟩
    rw [kept]
    exact le

theorem sound_step {s : Store} {l : Ledger} {op : LedgerOp} (sound : Sound s l)
    (admits : Admits s l op) :
    ∃ s', (storeHandler op.indexOp).run s = .ok ((), s') ∧ Sound s' (l.step op) := by
  have returns : ∃ s', (storeHandler op.indexOp).run s = .ok ((), s') ∧ s'.spent.Fits ∧
      s'.spent.spentLen.toNat ≤ bzTxiSpentMax.toNat := by
    cases op with
    | insertBlock hash offset => exact ⟨_, rfl, sound.fits, sound.le⟩
    | insertTx hash offset nTxout => exact ⟨_, rfl, sound.fits, sound.le⟩
    | spend outpoint offset =>
      obtain ⟨ret, s', ok, inv⟩ := mark_returns sound.cap sound.lay sound.fits sound.le admits
      exact ⟨s', storeHandler_mark_ok ok, inv⟩
  have allowed : l.Allows op := by
    cases op with
    | spend outpoint offset => exact admits.1
    | _ => trivial
  obtain ⟨s', ok, fits, le⟩ := returns
  exact ⟨s', ok, (capacity_step sound.cap ok).1, layout_step sound.cap sound.lay ok le,
    recorded_step sound.cap sound.lay sound.recorded allowed ok le, fits, le⟩

/-- The same on the handle. -/
theorem sound_handler {hnd hnd' : BzingHandle ι} {l : Ledger} {op : LedgerOp}
    (sound : Sound hnd.store l) (admits : Admits hnd.store l op)
    (run : (indexHandler op.indexOp).run hnd = .ok ((), hnd')) : Sound hnd'.store (l.step op) := by
  obtain ⟨s, ok, sound'⟩ := sound_step sound admits
  obtain ⟨hnd1, again, rfl⟩ := indexHandler_of_store ok
  cases run.symm.trans again
  exact sound'

/-- A transaction that was just inserted may be spent, if its slots fit. -/
theorem admits_inserted {s : Store} {l : Ledger} (hash : BzUint256) (start v : UInt64)
    {nTxout i : UInt32} (sound : Sound s l) (index : i < nTxout)
    (doubled : s.spent.FitsDoubled nTxout.toUInt64)
    (le : s.spent.spentLen.toNat + nTxout.toNat ≤ bzTxiSpentMax.toNat) :
    Admits (s.set hash ⟨start, bzTxiSpentUmark ||| nTxout.toUInt64⟩)
      (l.step (.insertTx hash start nTxout)) (.spend (.of hash i) v) := by
  refine ⟨⟨start, nTxout, fun _ => none, ?_, ?_⟩, ?_⟩
  · rw [Outpoint.hash_of]
    exact Function.update_self _ _ _
  · rw [Outpoint.index_of]
    exact index
  · intro data n found kind
    rw [Outpoint.hash_of] at found
    have entry : (s.set hash ⟨start, bzTxiSpentUmark ||| nTxout.toUInt64⟩).find hash =
        some ⟨start, bzTxiSpentUmark ||| nTxout.toUInt64⟩ := by
      rw [Store.set_find, if_pos rfl]
    cases unallocated_unique entry found kind
    exact (reserveFits_iff sound.cap sound.fits).mpr ⟨doubled, le⟩

theorem sound_perform {hnd : BzingHandle ι} {l : Ledger} {ops : List LedgerOp}
    (sound : Sound hnd.store l) (admits : AdmitsAll hnd l ops) :
    ∃ hnd', (Handler.perform indexHandler (ops.map LedgerOp.indexOp)).run hnd =
      .ok ((), hnd') ∧ Sound hnd'.store (l.steps ops) := by
  induction ops generalizing hnd l with
  | nil => exact ⟨hnd, rfl, sound⟩
  | cons op ops ih =>
    obtain ⟨s, ok, sound'⟩ := sound_step sound admits.1
    obtain ⟨hnd1, first, rfl⟩ := indexHandler_of_store ok
    obtain ⟨hnd', rest, sound''⟩ := ih sound' (admits.2 hnd1 first)
    exact ⟨hnd', Handler.run_bind_ok.mpr ⟨(), hnd1, first, rest⟩, sound''⟩

theorem admitsAll_append {hnd : BzingHandle ι} {l : Ledger} {front back : List LedgerOp}
    (admits : AdmitsAll hnd l (front ++ back)) :
    AdmitsAll hnd l front ∧
      ∀ hnd', (Handler.perform indexHandler (front.map LedgerOp.indexOp)).run hnd =
        .ok ((), hnd') → AdmitsAll hnd' (l.steps front) back := by
  induction front generalizing hnd l with
  | nil =>
    refine ⟨trivial, ?_⟩
    intro hnd' run
    obtain ⟨-, rfl⟩ := Handler.run_pure_ok.mp run
    exact admits
  | cons op front ih =>
    refine ⟨⟨admits.1, fun hnd1 first => (ih (admits.2 hnd1 first)).1⟩, ?_⟩
    intro hnd' run
    obtain ⟨_, hnd1, first, rest⟩ := Handler.run_bind_ok.mp run
    exact (ih (admits.2 hnd1 first)).2 hnd' rest

theorem Store.recorded_eq {s : Store} {l : Ledger} {h : BzUint256} {nTxout : UInt32}
    {spender : UInt32 → Option UInt64} {word : UInt64} {pos : Nat}
    (slots : Slots s l h nTxout spender word pos) (i : UInt32) :
    s.recorded h i = s.spent.slot (pos + i.toNat) := by
  obtain ⟨offset, -, entry⟩ := slots.entry
  unfold Store.recorded
  rw [entry]
  simp only [Option.bind_some, slots.allocated.classify_eq, slots.allocated.toNat_and_mask]

/-- A mark's new word is allocated at the same place. -/
theorem Store.recorded_marked {s' : Store} {h : BzUint256} {start word : UInt64} {pos : Nat}
    (entry : s'.find h = some ⟨start, word⟩) (allocated : IsAllocated word pos) (i : UInt32) :
    s'.recorded h i = s'.spent.slot (pos + i.toNat) := by
  unfold Store.recorded
  rw [entry]
  simp only [Option.bind_some, allocated.classify_eq, allocated.toNat_and_mask]

/-- An output with a record belongs to a transaction with slots. -/
theorem Layout.slots_of_recorded {s : Store} {l : Ledger} (lay : Layout s l) {h : BzUint256}
    {start : UInt64} {nTxout : UInt32} {spender : UInt32 → Option UInt64} {i : UInt32} {v : UInt64}
    (known : l h = some (.tx start nTxout spender)) (read : s.recorded h i = some v) :
    ∃ word pos, s.find h = some ⟨start, word⟩ ∧ Slots s l h nTxout spender word pos ∧
      s.spent.slot (pos + i.toNat) = some v := by
  rcases lay.tx_cases known with fresh | ⟨word, pos, entry, slots⟩
  · have kind : classify (bzTxiSpentUmark ||| nTxout.toUInt64) = .unallocated nTxout :=
      classify_unallocated nTxout
    unfold Store.recorded at read
    rw [fresh] at read
    simp only [Option.bind_some, kind] at read
    cases read
  · exact ⟨word, pos, entry, slots, by rw [← Store.recorded_eq slots, read]⟩

theorem markFrame_of_placed {s s' : Store} {l : Ledger} {outpoint : Outpoint}
    {offset ret : UInt64} (lay : Layout s l) (known : l.Known outpoint)
    (placed : Placed s l outpoint offset ret s') : MarkFrame s l outpoint s' where
  entry h other := by
    cases placed with
    | refused nothing => rfl
    | first _ _ _ _ _ find => rw [find, if_neg other]
    | again _ _ _ _ find => rw [find, if_neg other]
  offset := by
    cases placed with
    | refused nothing => rfl
    | first _ entry _ _ _ find =>
      rw [find, if_pos rfl, entry]
      rfl
    | again _ entry _ _ find =>
      rw [find, if_pos rfl, entry]
      rfl
  recorded {h start n spender} recorded i inside other v read := by
    obtain ⟨word, pos, -, slots, held⟩ := lay.slots_of_recorded recorded read
    obtain ⟨⟨spender', word', slots', -⟩, -⟩ := slots_placed lay known placed slots
    rw [Store.recorded_eq slots']
    exact slot_placed lay known placed slots inside other held

/-! ## The refinement -/

/-- An admitted sequence of inserts and marks runs, the handle afterwards says what the ledger
    says, and each mark on the way left everything else alone. -/
theorem spentMap_refines (contents : Nat → UInt8) (ops : List LedgerOp)
    (admits : AdmitsAll (bzingAlloc ι contents) Ledger.empty ops) :
    (∃ hnd, (Handler.perform indexHandler (ops.map LedgerOp.indexOp)).run
        (bzingAlloc ι contents) = .ok ((), hnd) ∧
      Refines hnd.store (Ledger.empty.steps ops)) ∧
    ∀ front outpoint offset back, ops = front ++ .spend outpoint offset :: back →
      ∃ before ret after,
        (Handler.perform indexHandler (front.map LedgerOp.indexOp)).run
          (bzingAlloc ι contents) = .ok ((), before) ∧
        bzingSpentMark before outpoint offset = .ok (ret, after) ∧
        MarkFrame before.store (Ledger.empty.steps front) outpoint after.store := by
  have sound : Sound (bzingAlloc ι contents).store Ledger.empty := by
    rw [bzingAlloc_store]
    exact sound_alloc contents
  refine ⟨?_, ?_⟩
  · obtain ⟨hnd, run, sound'⟩ := sound_perform sound admits
    exact ⟨hnd, run, refines_of_recorded sound'.lay sound'.recorded⟩
  · intro front outpoint offset back split
    subst split
    obtain ⟨admitsFront, admitsBack⟩ := admitsAll_append admits
    obtain ⟨before, run, sound1⟩ := sound_perform sound admitsFront
    obtain ⟨admits1, -⟩ := admitsBack before run
    obtain ⟨s, ok, sound2⟩ := sound_step sound1 admits1
    obtain ⟨after, marked, rfl⟩ := indexHandler_of_store ok
    obtain ⟨ret, marked⟩ := indexHandler_mark_ok marked
    refine ⟨before, ret, after, run, marked, ?_⟩
    exact markFrame_of_placed sound1.lay admits1.1
      (mark_placed sound1.cap sound1.lay (bzingSpentMark_store_ok marked) sound2.le)

/-- A transaction of 600 outputs whose slots double the block. -/
def grownStore : Store :=
  (Store.alloc fun _ => 0).set BzUint256.zero ⟨100, bzTxiSpentUmark ||| (600 : UInt32).toUInt64⟩

set_option maxRecDepth 100000 in
theorem grownStore_marked :
    ((storeHandler (.mark (.of BzUint256.zero 1) 700)).run grownStore).toOption.any
      (fun r => r.2.spent.spentLen = 601 && r.2.spent.spentSize = 8192) = true := by
  decide +kernel

/-- It is spent, indexed again with two outputs, and spent again. -/
theorem spentMap_refines_spend :
    let front := [.insertTx BzUint256.zero 100 600, .spend (.of BzUint256.zero 1) 700,
      .insertTx BzUint256.zero 100 2]
    let last := .spend (.of BzUint256.zero 0) 900
    (∃ hnd, (Handler.perform indexHandler ((front ++ [last]).map LedgerOp.indexOp)).run
        (bzingAlloc IdealIndex fun _ => 0) = .ok ((), hnd) ∧
      Refines hnd.store (Ledger.empty.steps (front ++ [last]))) ∧
    ∃ before ret after,
      (Handler.perform indexHandler (front.map LedgerOp.indexOp)).run
        (bzingAlloc IdealIndex fun _ => 0) = .ok ((), before) ∧
      bzingSpentMark before (.of BzUint256.zero 0) 900 = .ok (ret, after) ∧
      MarkFrame before.store (Ledger.empty.steps front) (.of BzUint256.zero 0) after.store := by
  intro front last
  suffices admits : AdmitsAll (bzingAlloc IdealIndex fun _ => 0) Ledger.empty (front ++ [last]) by
    obtain ⟨runs, frames⟩ := spentMap_refines (fun _ => 0) (front ++ [last]) admits
    exact ⟨runs, frames front _ _ [] rfl⟩
  refine ⟨trivial, fun hnd1 run1 => ?_⟩
  have store1 : hnd1.store = grownStore := by
    rw [indexHandler_set_store run1, bzingAlloc_store]
    rfl
  have sound1 : Sound hnd1.store (Ledger.empty.step (.insertTx BzUint256.zero 100 600)) := by
    refine sound_handler ?_ trivial run1
    rw [bzingAlloc_store]
    exact sound_alloc _
  have first : Admits hnd1.store (Ledger.empty.step (.insertTx BzUint256.zero 100 600))
      (.spend (.of BzUint256.zero 1) 700) := by
    rw [store1]
    exact admits_inserted BzUint256.zero 100 700 (sound_alloc fun _ => 0) (by decide)
      (Or.inr (by decide)) (by decide)
  refine ⟨first, fun hnd2 run2 => ⟨trivial, fun hnd3 run3 => ⟨?_, fun _ _ => trivial⟩⟩⟩
  have sound2 := sound_handler sound1 first run2
  have grown : hnd2.store.spent.spentLen = 601 ∧ hnd2.store.spent.spentSize = 8192 := by
    obtain ⟨⟨_, s⟩, marked, values⟩ := Handler.ok_of_any grownStore_marked
    rw [← store1] at marked
    cases (indexHandler_store_ok run2).symm.trans marked
    simpa using values
  obtain ⟨len, size⟩ := grown
  rw [indexHandler_set_store run3]
  apply admits_inserted BzUint256.zero 100 900 sound2 (by decide)
  · left
    rw [len, size]
    decide
  · rw [len]
    decide

end Bzing
