import Bzing.Data.Handler
import Bzing.Spent.Map

/-!
# A handle without its engine

`Store` is what a handle holds, whatever the engine: the finite map of its index and the spent
map. `Store.mark` is `bzing_spent_mark` on it, read off the word `classify` finds.
`bzingSpentMark_store` shows that it is exactly what the source's call does under every lawful
engine, cursors or not, faults included, so that everything after this module is said about
stores. `Store.mark_cases` lists all a returning call can have done.
-/

namespace Bzing

open ByteBuffer

/-- What a handle holds. -/
@[ext] structure Store where
  find : BzUint256 → Option BzInv
  spent : SpentMap

/-- The slot output `i` uses when its transaction's slots start at `pos`. -/
def slotIndex (pos : UInt64) (i : UInt32) : Nat := (pos.toNat + i.toNat) % 2 ^ 61

theorem slotIndex_eq {pos : UInt64} {i : UInt32} (small : pos.toNat + i.toNat < 2 ^ 61) :
    slotIndex pos i = pos.toNat + i.toNat := Nat.mod_eq_of_lt small

theorem toNat_spentOffset (pos : UInt64) (i : UInt32) :
    ((pos + i.toUInt64) * 8).toNat = 8 * slotIndex pos i := by
  have eight : (8 : UInt64).toNat = 8 := by decide
  unfold slotIndex
  rw [UInt64.toNat_mul, UInt64.toNat_add, UInt32.toNat_toUInt64, eight]
  omega

namespace Store

/-- The store of a fresh handle. -/
def alloc (contents : Nat → UInt8) : Store := ⟨fun _ => none, SpentMap.alloc contents⟩

/-- `bzing_inv_set`. -/
def set (s : Store) (hash : BzUint256) (data : BzInv) : Store :=
  { s with find := fun h => if h = hash then some data else s.find h }

@[simp] theorem set_spent (s : Store) (hash : BzUint256) (data : BzInv) :
    (s.set hash data).spent = s.spent := rfl

theorem set_find (s : Store) (hash : BzUint256) (data : BzInv) (h : BzUint256) :
    (s.set hash data).find h = if h = hash then some data else s.find h := rfl

/-- Record a spend in the slots at `pos`, leaving `word` with the quick bit in the entry. -/
def write (s : Store) (outpoint : Outpoint) (offset : UInt64) (data : BzInv)
    (word pos : UInt64) : Except Fault (UInt64 × Store) := do
  let spent ← orFault .slotOutside (s.spent.setSlot (slotIndex pos outpoint.index) offset)
  let word := word ||| quickBit outpoint.index.toNat
  .ok ((pos + outpoint.index.toUInt64) * 8,
    { (s.set outpoint.hash { data with spent := word }) with spent := spent })

/-- `bzing_spent_mark`, by the kind of word it finds. -/
def mark (s : Store) (outpoint : Outpoint) (offset : UInt64) : Except Fault (UInt64 × Store) :=
  match s.find outpoint.hash with
  | none => .error .nullDeref
  | some data =>
    match classify data.spent with
    | .block => .ok (0, s)
    | .unallocated nTxout =>
      if nTxout = 0 then .ok (0, s)
      else do
        let (pos, spent) ← bzingSpentReserve s.spent nTxout.toUInt64
        write { s with spent := spent } outpoint offset data pos pos
    | .allocated pos _ => write s outpoint offset data data.spent pos

end Store

section Engine

variable {ι : Type} [InvEngine ι] [LawfulInvEngine ι]

/-- The store of a handle. -/
def BzingHandle.store (hnd : BzingHandle ι) : Store :=
  ⟨LawfulInvEngine.lookup hnd.inv, hnd.toSpentMap⟩

theorem bzingAlloc_store (contents : Nat → UInt8) :
    (bzingAlloc ι contents).store = Store.alloc contents := by
  unfold BzingHandle.store Store.alloc bzingAlloc
  congr 1
  funext hash
  exact LawfulInvEngine.lookup_empty hash

theorem bzingInvSet_store (hnd : BzingHandle ι) (hash : BzUint256) (data : BzInv) :
    BzingHandle.store { hnd with inv := InvEngine.bzingInvSet hnd.inv hash data } =
      hnd.store.set hash data := by
  apply Store.ext
  · funext h
    exact LawfulInvEngine.lookup_set hnd.inv hash h data
  · rfl

/-- Finding the previous transaction reads its entry, changes nothing, and leaves a cursor
    that writes that entry, if there is one. -/
theorem findPrev_spec (hnd : BzingHandle ι) (hash : BzUint256) :
    ∃ prev inv, findPrev hnd hash =
        (prev, LawfulInvEngine.lookup hnd.inv hash, { hnd with inv := inv }) ∧
      (∀ h, LawfulInvEngine.lookup inv h = LawfulInvEngine.lookup hnd.inv h) ∧
      ∀ data h, (LawfulInvEngine.lookup hnd.inv hash).isSome →
        LawfulInvEngine.lookup (writeBack inv prev hash data) h =
          if h = hash then some data else LawfulInvEngine.lookup hnd.inv h := by
  unfold findPrev
  by_cases cursors : hnd.useCursors = true
  · have support := hnd.supported cursors
    refine ⟨some (InvEngine.bzingInvCursorFind hnd.inv hash).1,
      (InvEngine.bzingInvCursorFind hnd.inv hash).2, ?_, ?_, ?_⟩
    · simp only [cursors, if_true, LawfulInvEngine.cursorGet_eq hnd.inv hash support]
    · exact fun h => LawfulInvEngine.lookup_cursorFind hnd.inv hash h support
    · exact fun data h stored =>
        LawfulInvEngine.lookup_cursorSet hnd.inv hash h data support stored
  · have got := LawfulInvEngine.lookup_get hnd.inv hash
    refine ⟨none, (InvEngine.bzingInvGet hnd.inv hash).2, ?_, got, ?_⟩
    · simp only [cursors, LawfulInvEngine.get_eq hnd.inv hash]
      rfl
    · intro data h _
      unfold writeBack
      simp only
      rw [LawfulInvEngine.lookup_set, got]

/-- The common end of a mark writes the slot and leaves the entry as `Store.write` does. -/
theorem markSlot_store {hnd : BzingHandle ι} {prev : Option (InvEngine.Cursor ι)}
    {outpoint : Outpoint} {offset : UInt64} {data prevInv : BzInv} {pos : UInt64}
    {invDirty : Bool} {s : Store} (spent : hnd.toSpentMap = s.spent)
    (offset_eq : prevInv.offset = data.offset)
    (kept : ∀ h, LawfulInvEngine.lookup hnd.inv h = s.find h)
    (written : ∀ data h, LawfulInvEngine.lookup (writeBack hnd.inv prev outpoint.hash data) h =
      if h = outpoint.hash then some data else s.find h)
    (clean : invDirty = false → s.find outpoint.hash = some prevInv) :
    (markSlot hnd prev outpoint offset prevInv pos invDirty).map (Prod.map id BzingHandle.store) =
      s.write outpoint offset data prevInv.spent pos := by
  have entry : (⟨data.offset, prevInv.spent ||| quickBit outpoint.index.toNat⟩ : BzInv) =
      { prevInv with spent := prevInv.spent ||| quickBit outpoint.index.toNat } := by
    rw [offset_eq]
  unfold markSlot Store.write SpentMap.setSlot
  simp only [toNat_spentOffset, spent, entry]
  by_cases quick : outpoint.index < bzTxiSpentBits
  · cases store64 s.spent.spentData (8 * slotIndex pos outpoint.index) offset with
    | none => simp only [orFault_none, Option.map_none, bind, Except.bind, Except.map]
    | some cells =>
      simp only [quick, if_true, orFault_some, Option.map_some, bind, Except.bind,
        Except.map]
      exact congrArg (fun t => Except.ok ((pos + outpoint.index.toUInt64) * 8, t))
        (Store.ext (funext fun h => written _ h) rfl)
  · have large : 8 ≤ outpoint.index.toNat := by
      have := UInt32.not_lt.mp quick
      exact UInt32.le_iff_toNat_le.mp this
    have same : prevInv.spent ||| quickBit outpoint.index.toNat = prevInv.spent := by
      rw [quickBit_eq_zero large, UInt64.or_zero]
    cases store64 s.spent.spentData (8 * slotIndex pos outpoint.index) offset with
    | none => simp only [orFault_none, Option.map_none, bind, Except.bind, Except.map]
    | some cells =>
      simp only [quick, if_false, same, orFault_some, Option.map_some, bind, Except.bind,
        Except.map]
      refine congrArg (fun t => Except.ok ((pos + outpoint.index.toUInt64) * 8, t)) ?_
      cases invDirty with
      | true => exact Store.ext (funext fun h => written _ h) rfl
      | false =>
        refine Store.ext (funext fun h => (kept h).trans ?_) rfl
        by_cases own : h = outpoint.hash
        · rw [own, clean rfl, Store.set_find, if_pos rfl]
        · rw [Store.set_find, if_neg own]

/-- `bzing_spent_mark` on a handle is `Store.mark` on its store, faults included. -/
theorem bzingSpentMark_store (hnd : BzingHandle ι) (outpoint : Outpoint) (offset : UInt64) :
    (bzingSpentMark hnd outpoint offset).map (Prod.map id BzingHandle.store) =
      hnd.store.mark outpoint offset := by
  obtain ⟨prev, inv, found, kept, written⟩ := findPrev_spec hnd outpoint.hash
  have find : hnd.store.find = LawfulInvEngine.lookup hnd.inv := rfl
  have same : BzingHandle.store { hnd with inv := inv } = hnd.store :=
    Store.ext (funext kept) rfl
  cases entry : LawfulInvEngine.lookup hnd.inv outpoint.hash with
  | none =>
    rw [entry] at found
    unfold bzingSpentMark Store.mark
    simp only [found, find, entry]
    rfl
  | some data =>
    rw [entry] at found
    unfold bzingSpentMark Store.mark classify
    simp only [found, find, entry]
    have written := fun data h => written data h (by rw [entry]; rfl)
    by_cases block : data.spent = uint64Max
    · simp only [block, if_true, Except.map, Prod.map_apply, id, same]
    by_cases marker : data.spent &&& bzTxiSpentUmark = bzTxiSpentUmark
    · simp only [block, if_false, marker, if_true]
      by_cases empty : (data.spent &&& bzTxiSpentUmask).toUInt32 = 0
      · simp only [empty, if_true, Except.map, Prod.map_apply, id, same]
      · simp only [empty, if_false]
        change Except.map _ (bzingSpentReserve hnd.toSpentMap _ >>= _) =
          bzingSpentReserve hnd.toSpentMap _ >>= _
        cases bzingSpentReserve hnd.toSpentMap
            (data.spent &&& bzTxiSpentUmask).toUInt32.toUInt64 with
        | error e => rfl
        | ok r => exact markSlot_store rfl rfl kept written (fun dirty => by cases dirty)
    · simp only [block, if_false, marker]
      exact markSlot_store rfl rfl kept written fun _ => entry

end Engine

/-! ## What a mark can do -/

namespace Store

/-- `s'` is `s` with the spend recorded at `pos` and `word` with its quick bit in the entry. -/
structure Wrote (s : Store) (outpoint : Outpoint) (offset : UInt64) (data : BzInv)
    (word pos : UInt64) (s' : Store) : Prop where
  slot : s.spent.setSlot (slotIndex pos outpoint.index) offset = some s'.spent
  find : ∀ h, s'.find h = if h = outpoint.hash then
    some { data with spent := word ||| quickBit outpoint.index.toNat } else s.find h

theorem write_ok {s s' : Store} {outpoint : Outpoint} {offset word pos ret : UInt64}
    {data : BzInv} :
    s.write outpoint offset data word pos = .ok (ret, s') ↔
      ret = (pos + outpoint.index.toUInt64) * 8 ∧
        Wrote s outpoint offset data word pos s' := by
  unfold write
  constructor
  · intro h
    obtain ⟨spent, stored, rest⟩ := Handler.except_bind_ok.mp h
    cases rest
    refine ⟨rfl, ?_, fun h => rfl⟩
    revert stored
    cases s.spent.setSlot (slotIndex pos outpoint.index) offset <;> simp [orFault]
  · rintro ⟨rfl, slot, find⟩
    rw [slot]
    simp only [orFault_some, bind, Except.bind]
    congr 2
    exact Store.ext (funext fun h => (find h).symm) rfl

/-- Everything a returning `bzing_spent_mark` can have done. -/
inductive Marked (s : Store) (outpoint : Outpoint) (offset : UInt64) :
    UInt64 → Store → Prop where
  /-- A block, or a transaction without outputs: refused. -/
  | refused {data : BzInv} (entry : s.find outpoint.hash = some data)
      (kind : classify data.spent = .block ∨ classify data.spent = .unallocated 0) :
      Marked s outpoint offset 0 s
  /-- The first mark of a transaction reserves its slots. -/
  | first {data : BzInv} {nTxout : UInt32} {spent : SpentMap} {s' : Store}
      (entry : s.find outpoint.hash = some data)
      (kind : classify data.spent = .unallocated nTxout) (outputs : nTxout ≠ 0)
      (reserved : Reserved s.spent nTxout.toUInt64 spent)
      (wrote : Wrote { s with spent := spent } outpoint offset data s.spent.spentLen
        s.spent.spentLen s') :
      Marked s outpoint offset ((s.spent.spentLen + outpoint.index.toUInt64) * 8) s'
  /-- A later one finds them. -/
  | again {data : BzInv} {pos : UInt64} {bits : Fin 8 → Bool} {s' : Store}
      (entry : s.find outpoint.hash = some data)
      (kind : classify data.spent = .allocated pos bits)
      (wrote : Wrote s outpoint offset data data.spent pos s') :
      Marked s outpoint offset ((pos + outpoint.index.toUInt64) * 8) s'

theorem mark_cases {s s' : Store} {outpoint : Outpoint} {offset ret : UInt64}
    (sized : s.spent.Sized) (ok : s.mark outpoint offset = .ok (ret, s')) :
    Marked s outpoint offset ret s' := by
  unfold mark at ok
  split at ok
  · cases ok
  rename_i data entry
  split at ok
  · rename_i kind
    cases ok
    exact .refused entry (Or.inl kind)
  · rename_i n kind
    split at ok
    · rename_i empty
      cases ok
      exact .refused entry (Or.inr (empty ▸ kind))
    · rename_i outputs
      obtain ⟨⟨pos, spent⟩, reserve, rest⟩ := Handler.except_bind_ok.mp ok
      obtain ⟨rfl, reserved⟩ := reserve_ok sized reserve
      obtain ⟨rfl, wrote⟩ := write_ok.mp rest
      exact .first entry kind outputs reserved wrote
  · rename_i pos bits kind
    obtain ⟨rfl, wrote⟩ := write_ok.mp ok
    exact .again entry kind wrote

section Kind

variable {s : Store} {outpoint : Outpoint} {data : BzInv} {offset : UInt64}

theorem mark_first {nTxout : UInt32} (entry : s.find outpoint.hash = some data)
    (kind : classify data.spent = .unallocated nTxout) (outputs : nTxout ≠ 0) {pos : UInt64}
    {spent : SpentMap} (reserve : bzingSpentReserve s.spent nTxout.toUInt64 = .ok (pos, spent)) :
    s.mark outpoint offset =
      write { s with spent := spent } outpoint offset data pos pos := by
  unfold mark
  simp only [entry, kind, outputs, if_false, reserve]
  rfl

theorem mark_again {pos : UInt64} {bits : Fin 8 → Bool}
    (entry : s.find outpoint.hash = some data)
    (kind : classify data.spent = .allocated pos bits) :
    s.mark outpoint offset = write s outpoint offset data data.spent pos := by
  unfold mark
  simp only [entry, kind]

variable (data offset) in
/-- A write that fits the block returns. -/
theorem write_isOk (word : UInt64) {pos : UInt64}
    (fits : 8 * slotIndex pos outpoint.index + 8 ≤ s.spent.spentData.length) :
    ∃ s', s.write outpoint offset data word pos =
        .ok ((pos + outpoint.index.toUInt64) * 8, s') ∧
      Wrote s outpoint offset data word pos s' := by
  have stored := SpentMap.setSlot_isSome (m := s.spent) (v := offset) |>.mpr fits
  obtain ⟨spent, stored⟩ := Option.isSome_iff_exists.mp stored
  have wrote : Wrote s outpoint offset data word pos
      { (s.set outpoint.hash
        { data with spent := word ||| quickBit outpoint.index.toNat }) with spent := spent } :=
    ⟨stored, fun _ => rfl⟩
  exact ⟨_, write_ok.mpr ⟨rfl, wrote⟩, wrote⟩

/-- A write that does not fit the block is a fault. -/
theorem write_outside {word pos : UInt64}
    (outside : ¬ 8 * slotIndex pos outpoint.index + 8 ≤ s.spent.spentData.length) :
    s.write outpoint offset data word pos = .error .slotOutside := by
  have none : s.spent.setSlot (slotIndex pos outpoint.index) offset = none := by
    rw [← Option.not_isSome_iff_eq_none, SpentMap.setSlot_isSome]
    exact outside
  unfold write
  rw [none]
  rfl

/-- Whether a write returns depends on the place of its slot alone. -/
theorem write_cases (data : BzInv) (offset word : UInt64) {pos : UInt64} {k : Nat}
    (sized : s.spent.Sized) (slot : slotIndex pos outpoint.index = k) :
    8 * (k + 1) ≤ s.spent.spentSize.toNat ∧
      (∃ ret s', s.write outpoint offset data word pos = .ok (ret, s') ∧
        s'.spent.spentLen = s.spent.spentLen) ∨
    ¬ 8 * (k + 1) ≤ s.spent.spentSize.toNat ∧
      s.write outpoint offset data word pos = .error .slotOutside := by
  subst slot
  unfold SpentMap.Sized at sized
  by_cases fits : 8 * (slotIndex pos outpoint.index + 1) ≤ s.spent.spentSize.toNat
  · obtain ⟨s', ok, wrote⟩ := write_isOk data offset word
      (by omega : 8 * slotIndex pos outpoint.index + 8 ≤ s.spent.spentData.length)
    exact Or.inl ⟨fits, _, s', ok, (SpentMap.setSlot_eq_some.mp wrote.slot).2.1⟩
  · exact Or.inr ⟨fits, write_outside (by omega)⟩

end Kind

end Store

/-- What a parser of blocks does to a handle. -/
inductive IndexOp where
  | set (hash : BzUint256) (inv : BzInv)
  | mark (outpoint : Outpoint) (offset : UInt64)
  deriving DecidableEq

/-- An operation on a handle; what `bzing_spent_mark` returns is dropped, as its callers do. -/
def indexHandler {ι : Type} [InvEngine ι] : Handler IndexOp (BzingHandle ι) Fault
  | .set hash inv => fun hnd =>
    .ok ((), { hnd with inv := InvEngine.bzingInvSet hnd.inv hash inv })
  | .mark outpoint offset => fun hnd =>
    (bzingSpentMark hnd outpoint offset).map fun (_, hnd) => ((), hnd)

/-- The same operation on a store. -/
def storeHandler : Handler IndexOp Store Fault
  | .set hash inv => fun s => .ok ((), s.set hash inv)
  | .mark outpoint offset => fun s => (s.mark outpoint offset).map fun (_, s) => ((), s)

theorem storeHandler_mark_ok {s s' : Store} {outpoint : Outpoint} {offset ret : UInt64}
    (ok : s.mark outpoint offset = .ok (ret, s')) :
    (storeHandler (.mark outpoint offset)).run s = .ok ((), s') := by
  change (s.mark outpoint offset).map _ = _
  rw [ok]
  rfl

theorem storeHandler_mark_error {s : Store} {outpoint : Outpoint} {offset : UInt64} {e : Fault}
    (failed : s.mark outpoint offset = .error e) :
    (storeHandler (.mark outpoint offset)).run s = .error e := by
  change (s.mark outpoint offset).map _ = _
  rw [failed]
  rfl

/-- Scripts on a handle are scripts on its store. -/
theorem perform_store {ι : Type} [InvEngine ι] [LawfulInvEngine ι] (ops : List IndexOp)
    (hnd : BzingHandle ι) :
    ((Handler.perform indexHandler ops).run hnd).map (Prod.map id BzingHandle.store) =
      (Handler.perform storeHandler ops).run hnd.store := by
  apply Handler.perform_map
  rintro (⟨hash, inv⟩ | ⟨outpoint, offset⟩) hnd
  · exact congrArg (fun s => Except.ok ((), s)) (bzingInvSet_store hnd hash inv)
  · change ((bzingSpentMark hnd outpoint offset).map _).map _ =
      (hnd.store.mark outpoint offset).map _
    rw [← bzingSpentMark_store]
    cases bzingSpentMark hnd outpoint offset <;> rfl

theorem perform_store_ok {ι : Type} [InvEngine ι] [LawfulInvEngine ι] {ops : List IndexOp}
    {hnd hnd' : BzingHandle ι}
    (run : (Handler.perform indexHandler ops).run hnd = .ok ((), hnd')) :
    (Handler.perform storeHandler ops).run hnd.store = .ok ((), hnd'.store) := by
  rw [← perform_store, run]
  rfl

/-- A script that returns on the store returns on the handle. -/
theorem perform_of_store {ι : Type} [InvEngine ι] [LawfulInvEngine ι] {ops : List IndexOp}
    {hnd : BzingHandle ι} {s : Store}
    (run : (Handler.perform storeHandler ops).run hnd.store = .ok ((), s)) :
    ∃ hnd', (Handler.perform indexHandler ops).run hnd = .ok ((), hnd') ∧ hnd'.store = s := by
  rw [← perform_store] at run
  cases performed : (Handler.perform indexHandler ops).run hnd with
  | error e =>
    rw [performed] at run
    cases run
  | ok r =>
    rw [performed] at run
    cases run
    exact ⟨r.2, rfl, rfl⟩

theorem indexHandler_store_ok {ι : Type} [InvEngine ι] [LawfulInvEngine ι] {op : IndexOp}
    {hnd hnd' : BzingHandle ι} (run : (indexHandler op).run hnd = .ok ((), hnd')) :
    (storeHandler op).run hnd.store = .ok ((), hnd'.store) := by
  rw [← Handler.perform_singleton indexHandler op] at run
  rw [← Handler.perform_singleton storeHandler op]
  exact perform_store_ok run

theorem indexHandler_of_store {ι : Type} [InvEngine ι] [LawfulInvEngine ι] {op : IndexOp}
    {hnd : BzingHandle ι} {s : Store} (run : (storeHandler op).run hnd.store = .ok ((), s)) :
    ∃ hnd', (indexHandler op).run hnd = .ok ((), hnd') ∧ hnd'.store = s := by
  rw [← Handler.perform_singleton storeHandler op] at run
  rw [← Handler.perform_singleton indexHandler op]
  exact perform_of_store run

theorem indexHandler_set_store {ι : Type} [InvEngine ι] [LawfulInvEngine ι]
    {hnd hnd' : BzingHandle ι} {hash : BzUint256} {inv : BzInv}
    (run : (indexHandler (.set hash inv)).run hnd = .ok ((), hnd')) :
    hnd'.store = hnd.store.set hash inv := by
  cases run
  exact bzingInvSet_store hnd hash inv

theorem indexHandler_mark_ok {ι : Type} [InvEngine ι] {hnd hnd' : BzingHandle ι}
    {outpoint : Outpoint} {offset : UInt64}
    (run : (indexHandler (.mark outpoint offset)).run hnd = .ok ((), hnd')) :
    ∃ ret, bzingSpentMark hnd outpoint offset = .ok (ret, hnd') := by
  change (bzingSpentMark hnd outpoint offset).map _ = _ at run
  cases marked : bzingSpentMark hnd outpoint offset with
  | error e =>
    rw [marked] at run
    cases run
  | ok r =>
    rw [marked] at run
    cases run
    exact ⟨r.1, rfl⟩

theorem bzingSpentMark_store_ok {ι : Type} [InvEngine ι] [LawfulInvEngine ι]
    {hnd hnd' : BzingHandle ι} {outpoint : Outpoint} {offset ret : UInt64}
    (marked : bzingSpentMark hnd outpoint offset = .ok (ret, hnd')) :
    hnd.store.mark outpoint offset = .ok (ret, hnd'.store) := by
  rw [← bzingSpentMark_store, marked]
  rfl

end Bzing
