import Bzing.Data.Agreement
import Bzing.Index.Indexed
import Bzing.Spent.MarkRun

/-!
# Handles on an engine that serves

An engine need not be a finite map to be used as one. `Serves` is what an index has to do for the
hashes it is asked for, and only for those that were set before: it stands for an `IdealIndex`,
and finding, reading and writing an entry keep it so. `agrees_perform` shows that the operations
of a program then do the same on a handle of the engine and on one with the finite map, slots and
faults included.
-/

namespace Bzing

open ByteBuffer Handler

section Serves

variable {ι : Type} [InvEngine ι]

/-- Indexes that stand for finite maps go on doing so when they are asked for `names`. -/
structure Serves (names : BzUint256 → Prop) (S : ι → IdealIndex → Prop) : Prop where
  set {inv : ι} {ideal : IdealIndex} {hash : BzUint256} (data : BzInv) : names hash →
    S inv ideal → S (InvEngine.bzingInvSet inv hash data) (ideal.insert hash data)
  get {inv : ι} {ideal : IdealIndex} {hash : BzUint256} {data : BzInv} : names hash →
    S inv ideal → ideal.find hash = some data →
    (InvEngine.bzingInvGet inv hash).1 = some data ∧ S (InvEngine.bzingInvGet inv hash).2 ideal
  cursor {inv : ι} {ideal : IdealIndex} {hash : BzUint256} {data : BzInv} :
    InvEngine.cursorSupport ι = true → names hash → S inv ideal → ideal.find hash = some data →
    InvEngine.bzingInvCursorGet (InvEngine.bzingInvCursorFind inv hash).2
        (InvEngine.bzingInvCursorFind inv hash).1 = some data ∧
      S (InvEngine.bzingInvCursorFind inv hash).2 ideal ∧
      ∀ data, S (InvEngine.bzingInvCursorSet (InvEngine.bzingInvCursorFind inv hash).2
        (InvEngine.bzingInvCursorFind inv hash).1 data) (ideal.insert hash data)

/-- The handle does what one with the finite map does. -/
structure Acts (S : ι → IdealIndex → Prop) (hnd : BzingHandle ι) (hnd' : BzingHandle IdealIndex) :
    Prop where
  spent : hnd.toSpentMap = hnd'.toSpentMap
  inv : S hnd.inv hnd'.inv

variable {names : BzUint256 → Prop} {S : ι → IdealIndex → Prop} {hnd : BzingHandle ι}
  {hnd' : BzingHandle IdealIndex}

/-- An entry that was set is found, and can be written back. -/
theorem Serves.findPrev (serves : Serves names S) {hash : BzUint256} (named : names hash)
    {ideal : IdealIndex} (acts : S hnd.inv ideal) {data : BzInv}
    (stored : ideal.find hash = some data) :
    ∃ prev inv, Bzing.findPrev hnd hash = (prev, some data, { hnd with inv := inv }) ∧
      S inv ideal ∧ ∀ data, S (writeBack inv prev hash data) (ideal.insert hash data) := by
  unfold Bzing.findPrev
  by_cases cursors : hnd.useCursors = true
  · obtain ⟨found, kept, written⟩ :=
      serves.cursor (hnd.supported cursors) named acts stored
    refine ⟨some (InvEngine.bzingInvCursorFind hnd.inv hash).1,
      (InvEngine.bzingInvCursorFind hnd.inv hash).2, ?_, kept, written⟩
    simp only [cursors, if_true, found]
  · obtain ⟨found, kept⟩ := serves.get named acts stored
    refine ⟨none, (InvEngine.bzingInvGet hnd.inv hash).2, ?_, kept, ?_⟩
    · simp only [cursors, found]
      rfl
    · exact fun data => serves.set data named kept

theorem findPrev_ideal (hnd' : BzingHandle IdealIndex) (hash : BzUint256) :
    ∃ prev, findPrev hnd' hash = (prev, hnd'.inv.find hash, hnd') ∧
      ∀ data, writeBack hnd'.inv prev hash data = hnd'.inv.insert hash data := by
  unfold findPrev
  by_cases cursors : hnd'.useCursors = true
  · refine ⟨some hash, ?_, fun _ => rfl⟩
    rw [if_pos cursors]
    rfl
  · refine ⟨none, ?_, fun _ => rfl⟩
    rw [if_neg cursors]
    rfl

theorem agrees_markSlot_serves {prev : Option (InvEngine.Cursor ι)}
    {prev' : Option (InvEngine.Cursor IdealIndex)} {outpoint : Outpoint} (acts : Acts S hnd hnd')
    (offset : UInt64) (prevInv : BzInv) (spentPos : UInt64) (invDirty : Bool)
    (written : ∀ data, S (writeBack hnd.inv prev outpoint.hash data)
      (writeBack hnd'.inv prev' outpoint.hash data)) :
    Agrees (Acts S) (markSlot hnd prev outpoint offset prevInv spentPos invDirty)
      (markSlot hnd' prev' outpoint offset prevInv spentPos invDirty) := by
  have data : hnd.spentData = hnd'.spentData := congrArg SpentMap.spentData acts.spent
  have len : hnd.spentLen = hnd'.spentLen := congrArg SpentMap.spentLen acts.spent
  have size : hnd.spentSize = hnd'.spentSize := congrArg SpentMap.spentSize acts.spent
  have same : ∀ cells, (⟨cells, hnd.spentLen, hnd.spentSize⟩ : SpentMap) =
      ⟨cells, hnd'.spentLen, hnd'.spentSize⟩ := by
    intro cells
    rw [len, size]
  unfold markSlot
  simp only [data]
  split
  · cases store64 hnd'.spentData ((spentPos + outpoint.index.toUInt64) * 8).toNat offset with
    | none => exact .error _ _
    | some cells => exact .ok _ ⟨same cells, written _⟩
  · cases store64 hnd'.spentData ((spentPos + outpoint.index.toUInt64) * 8).toNat offset with
    | none => exact .error _ _
    | some cells =>
      refine .ok _ ?_
      cases invDirty with
      | true => exact ⟨same cells, written _⟩
      | false => exact ⟨same cells, acts.inv⟩

/-- Marking a hash that was set does the same on both handles. -/
theorem agrees_mark_serves (serves : Serves names S) {outpoint : Outpoint}
    (named : names outpoint.hash) (acts : Acts S hnd hnd') (offset : UInt64)
    (stored : (hnd'.inv.find outpoint.hash).isSome) :
    Agrees (Acts S) (bzingSpentMark hnd outpoint offset)
      (bzingSpentMark hnd' outpoint offset) := by
  obtain ⟨prevInv, stored⟩ := Option.isSome_iff_exists.mp stored
  obtain ⟨prev, inv, found, kept, back⟩ := serves.findPrev named acts.inv stored
  obtain ⟨prev', found', back'⟩ := findPrev_ideal hnd' outpoint.hash
  rw [stored] at found'
  have written : ∀ data, S (writeBack inv prev outpoint.hash data)
      (writeBack hnd'.inv prev' outpoint.hash data) := by
    intro data
    rw [back']
    exact back data
  have refused : Acts S { hnd with inv := inv } hnd' := ⟨acts.spent, kept⟩
  unfold bzingSpentMark
  simp only [found, found']
  split
  · exact .ok 0 refused
  split
  · split
    · exact .ok 0 refused
    · simp only [acts.spent]
      cases bzingSpentReserve hnd'.toSpentMap
          (prevInv.spent &&& bzTxiSpentUmask).toUInt32.toUInt64 with
      | error e => exact .error _ _
      | ok reserved =>
        have acts : Acts S { hnd with toSpentMap := reserved.2, inv := inv }
            { hnd' with toSpentMap := reserved.2 } := ⟨rfl, kept⟩
        exact agrees_markSlot_serves acts offset _ _ true written
  · exact agrees_markSlot_serves refused offset prevInv _ false written

/-! ## Whole scripts -/

/-- The relation for indexes in which some hashes were set. -/
def Knowing (S : ι → IdealIndex → Prop) (known : BzUint256 → Prop) (inv : ι) (ideal : IdealIndex) :
    Prop :=
  S inv ideal ∧ ∀ h, known h → (ideal.find h).isSome

theorem isSome_find_insert {ideal : IdealIndex} (hash : BzUint256) (data : BzInv) {h : BzUint256}
    (stored : h = hash ∨ (ideal.find h).isSome) : ((ideal.insert hash data).find h).isSome := by
  change (if h = hash then some data else ideal.find h).isSome
  by_cases own : h = hash
  · rw [if_pos own]
    rfl
  · rw [if_neg own]
    exact stored.resolve_left own

theorem Serves.knowing (serves : Serves names S) (known : BzUint256 → Prop) :
    Serves names (Knowing S known) where
  set data named related :=
    ⟨serves.set data named related.1, fun h set => isSome_find_insert _ data (Or.inr (related.2 h set))⟩
  get named related stored := by
    obtain ⟨found, kept⟩ := serves.get named related.1 stored
    exact ⟨found, kept, related.2⟩
  cursor support named related stored := by
    obtain ⟨found, kept, written⟩ := serves.cursor support named related.1 stored
    exact ⟨found, ⟨kept, related.2⟩, fun data =>
      ⟨written data, fun h set => isSome_find_insert _ data (Or.inr (related.2 h set))⟩⟩

/-- The hash an operation asks for. -/
def IndexOp.hash : IndexOp → BzUint256
  | .set hash _ => hash
  | .mark outpoint _ => outpoint.hash

variable {known : BzUint256 → Prop}

theorem agrees_op_serves (serves : Serves names S) {op : IndexOp} (named : names op.hash)
    (asks : AsksKnown known op) (acts : Acts (Knowing S known) hnd hnd') :
    Agrees (Acts (Knowing S (knownAfter known op))) ((indexHandler op).run hnd)
      ((indexHandler op).run hnd') := by
  cases op with
  | set hash data =>
    refine .ok () ⟨acts.spent, serves.set data named acts.inv.1, ?_⟩
    intro h set
    exact isSome_find_insert hash data (set.imp_right (acts.inv.2 h))
  | mark outpoint offset =>
    have stored := acts.inv.2 _ asks
    exact (agrees_mark_serves (serves.knowing known) named acts offset stored).map fun _ => ()

/-- Operations that ask only for named hashes, and for what was set before, do the same on both
    handles. -/
theorem agrees_perform_serves (serves : Serves names S) {ops : List IndexOp}
    (named : ∀ op ∈ ops, names op.hash) (asks : AllAskKnown known ops)
    (acts : Acts (Knowing S known) hnd hnd') :
    Agrees (Acts S) ((perform indexHandler ops).run hnd) ((perform indexHandler ops).run hnd') := by
  induction ops generalizing known hnd hnd' with
  | nil => exact .ok () ⟨acts.spent, acts.inv.1⟩
  | cons op ops ih =>
    rw [perform_cons, perform_cons, StateT.run_bind, StateT.run_bind]
    refine (agrees_op_serves serves (named op List.mem_cons_self) asks.1 acts).bind ?_
    intro _ _ _ related
    exact ih (fun op member => named op (List.mem_cons_of_mem _ member)) asks.2 related

end Serves

section Kept

variable {ι : Type} [InvEngine ι]

/-- A property of indexes that no call ends, whatever it is asked for. -/
structure KeptBy (P : ι → Prop) : Prop where
  set {inv : ι} (hash : BzUint256) (data : BzInv) : P inv →
    P (InvEngine.bzingInvSet inv hash data)
  get {inv : ι} (hash : BzUint256) : P inv → P (InvEngine.bzingInvGet inv hash).2
  cursorFind {inv : ι} (hash : BzUint256) : P inv → P (InvEngine.bzingInvCursorFind inv hash).2
  cursorSet {inv : ι} (cursor : InvEngine.Cursor ι) (data : BzInv) : P inv →
    P (InvEngine.bzingInvCursorSet inv cursor data)

variable {P : ι → Prop} {hnd hnd' : BzingHandle ι}

theorem KeptBy.mark (kept : KeptBy P) {outpoint : Outpoint} {offset ret : UInt64}
    (start : P hnd.inv) (run : bzingSpentMark hnd outpoint offset = .ok (ret, hnd')) :
    P hnd'.inv := by
  obtain ⟨-, ⟨prev, prevInv, inv, found, index⟩, -⟩ := bzingSpentMark_inv run
  have middle : P inv := by
    have same : inv = (findPrev hnd outpoint.hash).2.2.inv := congrArg (·.2.2.inv) found.symm
    rw [same]
    unfold findPrev
    split
    · exact kept.cursorFind _ start
    · exact kept.get _ start
  rcases index with same | ⟨data, written⟩
  · rw [same]
    exact middle
  · rw [written]
    cases prev with
    | none => exact kept.set _ data middle
    | some cursor => exact kept.cursorSet cursor data middle

/-- What every call keeps, operations keep. -/
theorem KeptBy.perform (kept : KeptBy P) {ops : List IndexOp} (start : P hnd.inv)
    (run : (perform indexHandler ops).run hnd = .ok ((), hnd')) : P hnd'.inv := by
  refine perform_invariant indexHandler (P ·.inv) ?_ start run
  intro op _ hnd hnd' before run
  cases op with
  | set hash data =>
    cases run
    exact kept.set hash data before
  | mark outpoint offset =>
    obtain ⟨ret, marked⟩ := indexHandler_mark_ok run
    exact kept.mark before marked

end Kept

section Held

open IndexedInvEngine (key held)

variable {ι : Type} [InvEngine ι] [IndexedInvEngine ι] (names : BzUint256 → Prop)

/-- The index holds the entries of the finite map under the keys of the named hashes, and no
    others. -/
structure HeldAs (inv : ι) (ideal : IdealIndex) : Prop where
  same {h : BzUint256} : names h → held inv (key h) = ideal.find h
  named {k : IndexedInvEngine.Key ι} : (held inv k).isSome → ∃ h, names h ∧ key h = k

variable {names} {inv inv' : ι} {ideal : IdealIndex}

theorem HeldAs.of_held (heldAs : HeldAs names inv ideal) (kept : held inv' = held inv) :
    HeldAs names inv' ideal :=
  ⟨fun named => kept ▸ heldAs.same named, fun stored => heldAs.named (kept ▸ stored)⟩

/-- Writing the entry of a hash makes it a named one. -/
theorem HeldAs.write_new (heldAs : HeldAs names inv ideal) {hash : BzUint256} {data : BzInv}
    (apart : ∀ {h}, names h → (key h : IndexedInvEngine.Key ι) = key hash → h = hash)
    (own : held inv' (key hash) = some data)
    (others : ∀ k, k ≠ (key hash : IndexedInvEngine.Key ι) → held inv' k = held inv k) :
    HeldAs (fun h => h = hash ∨ names h) inv' (ideal.insert hash data) := by
  constructor
  · intro h named
    change _ = if h = hash then some data else ideal.find h
    by_cases same : h = hash
    · rw [if_pos same, same, own]
    · have named := named.resolve_left same
      rw [if_neg same, others _ fun eq => same (apart named eq), heldAs.same named]
  · intro k stored
    by_cases same : k = key hash
    · exact ⟨hash, Or.inl rfl, same.symm⟩
    · rw [others k same] at stored
      obtain ⟨h, named, eq⟩ := heldAs.named stored
      exact ⟨h, Or.inr named, eq⟩

/-- Writing one entry, where the keys of the named hashes differ. -/
theorem HeldAs.write (apart : ∀ {h h'}, names h → names h' → (key h : IndexedInvEngine.Key ι) = key h' → h = h')
    (heldAs : HeldAs names inv ideal) {hash : BzUint256} (named : names hash) {data : BzInv}
    (own : held inv' (key hash) = some data)
    (others : ∀ k, k ≠ (key hash : IndexedInvEngine.Key ι) → held inv' k = held inv k) :
    HeldAs names inv' (ideal.insert hash data) := by
  have written := heldAs.write_new (fun named' => apart named' named) own others
  have same : (fun h => h = hash ∨ names h) = names := by
    funext h
    exact propext ⟨fun either => either.elim (fun eq => eq ▸ named) id, Or.inr⟩
  rwa [same] at written

/-- An engine that holds entries by key serves hashes with different keys. -/
theorem serves_held
    (apart : ∀ {h h'}, names h → names h' → (key h : IndexedInvEngine.Key ι) = key h' → h = h') :
    Serves (ι := ι) names (HeldAs names) where
  set {inv ideal hash} data named heldAs :=
    heldAs.write apart named (IndexedInvEngine.held_set_same inv hash data)
      fun _ ne => IndexedInvEngine.held_set_ne inv hash data ne
  get {inv ideal hash data} named heldAs stored := by
    obtain ⟨found, kept⟩ := IndexedInvEngine.get_of_held ((heldAs.same named).trans stored)
    exact ⟨found, heldAs.of_held kept⟩
  cursor {inv ideal hash data} support named heldAs stored := by
    obtain ⟨found, kept⟩ := IndexedInvEngine.cursor_of_held support ((heldAs.same named).trans stored)
    have there : (held (InvEngine.bzingInvCursorFind inv hash).2 (key hash)).isSome := by
      rw [kept, heldAs.same named, stored]
      rfl
    refine ⟨found, heldAs.of_held kept, ?_⟩
    intro data
    exact (heldAs.of_held kept).write apart named
      (IndexedInvEngine.held_cursorSet_same inv hash data support there)
      fun _ ne => IndexedInvEngine.held_cursorSet_ne inv hash data support there ne

end Held

end Bzing
