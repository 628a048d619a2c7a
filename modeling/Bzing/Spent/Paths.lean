import Bzing.Index.Indexed
import Bzing.Index.LastSet
import Bzing.Spent.Map

/-!
# With and without cursors

`bzing_spent_mark` fetches the entry of the previous transaction and writes it back through a
cursor or by its hash (`bzing.c:590-596`, `644-649`). Every engine with cursors does the same
either way, as long as the hash is indexed: `agreesOnCursors_of_indexed` compares the calls by
what they return, what the index holds afterwards, and the spent map.
-/

namespace Bzing

open IndexedInvEngine (Key key held)

section Held

variable {ι : Type} [InvEngine ι] [IndexedInvEngine ι]

/-- What the index of a handle holds. -/
def BzingHandle.held (hnd : BzingHandle ι) : Key ι → Option BzInv := IndexedInvEngine.held hnd.inv

/-- The hash of the outpoint is indexed. -/
def BzingHandle.Indexed (hnd : BzingHandle ι) (outpoint : Outpoint) : Prop :=
  (hnd.held (key outpoint.hash)).isSome

/-- Everything a call leaves that can be observed: what it returns, what the index holds, and
the spent map. -/
def outcome (result : Except Fault (UInt64 × BzingHandle ι)) :
    Except Fault (UInt64 × (Key ι → Option BzInv) × SpentMap) :=
  result.map fun (ret, hnd) => (ret, hnd.held, hnd.toSpentMap)

/-- Writing an entry back stores it under the hash and changes no other key of `before`. -/
structure WritesBack (inv : ι) (prev : Option (InvEngine.Cursor ι)) (hash : BzUint256)
    (before : Key ι → Option BzInv) : Prop where
  same (data : BzInv) : held (writeBack inv prev hash data) (key hash) = some data
  other (data : BzInv) {k : Key ι} : k ≠ key hash →
    held (writeBack inv prev hash data) k = before k

/-- An entry that is held is found, and can be written back, on both paths. -/
theorem findPrev_of_held (hnd : BzingHandle ι) {hash : BzUint256} {data : BzInv}
    (there : hnd.held (key hash) = some data) :
    ∃ prev inv, findPrev hnd hash = (prev, some data, { hnd with inv := inv }) ∧
      held inv = hnd.held ∧ WritesBack inv prev hash hnd.held := by
  unfold findPrev
  by_cases cursors : hnd.useCursors = true
  · have support := hnd.supported cursors
    obtain ⟨found, kept⟩ := IndexedInvEngine.cursor_of_held support there
    have stored : (held (InvEngine.bzingInvCursorFind hnd.inv hash).2 (key hash)).isSome := by
      rw [kept]
      exact Option.isSome_of_eq_some there
    refine ⟨some (InvEngine.bzingInvCursorFind hnd.inv hash).1,
      (InvEngine.bzingInvCursorFind hnd.inv hash).2, ?_, kept, ?_, ?_⟩
    · simp only [cursors, if_true, found]
    · exact fun data => IndexedInvEngine.held_cursorSet_same hnd.inv hash data support stored
    · intro data k ne
      exact (IndexedInvEngine.held_cursorSet_ne hnd.inv hash data support stored ne).trans
        (congrFun kept k)
  · obtain ⟨found, kept⟩ := IndexedInvEngine.get_of_held there
    refine ⟨none, (InvEngine.bzingInvGet hnd.inv hash).2, ?_, kept, ?_, ?_⟩
    · simp only [cursors, found]
      rfl
    · exact fun data => IndexedInvEngine.held_set_same _ hash data
    · intro data k ne
      exact (IndexedInvEngine.held_set_ne _ hash data ne).trans (congrFun kept k)

/-- An entry that is not held is `NULL`, or there is one afterwards, whatever is written back. -/
theorem findPrev_absent (hnd : BzingHandle ι) (hash : BzUint256) :
    ∃ prev prevInv inv, findPrev hnd hash = (prev, prevInv, { hnd with inv := inv }) ∧
      (prevInv = none ∨ (held inv (key hash)).isSome ∧
        ∀ data, (held (writeBack inv prev hash data) (key hash)).isSome) := by
  unfold findPrev
  by_cases cursors : hnd.useCursors = true
  · have support := hnd.supported cursors
    refine ⟨some (InvEngine.bzingInvCursorFind hnd.inv hash).1, _,
      (InvEngine.bzingInvCursorFind hnd.inv hash).2, by simp only [cursors, if_true]; rfl, ?_⟩
    rcases IndexedInvEngine.cursor_absent hnd.inv hash support with null | made
    · exact Or.inl null
    · refine Or.inr ⟨made, ?_⟩
      intro data
      exact Option.isSome_of_eq_some
        (IndexedInvEngine.held_cursorSet_same hnd.inv hash data support made)
  · refine ⟨none, (InvEngine.bzingInvGet hnd.inv hash).1, (InvEngine.bzingInvGet hnd.inv hash).2,
      ?_, ?_⟩
    · simp only [cursors]
      rfl
    · rcases IndexedInvEngine.get_absent hnd.inv hash with null | made
      · exact Or.inl null
      · refine Or.inr ⟨made, ?_⟩
        intro data
        exact Option.isSome_of_eq_some (IndexedInvEngine.held_set_same _ hash data)

/-- What is held after writing back does not depend on the path. -/
theorem WritesBack.unique {inv inv' : ι} {prev prev' : Option (InvEngine.Cursor ι)}
    {hash : BzUint256} {before : Key ι → Option BzInv} (h : WritesBack inv prev hash before)
    (h' : WritesBack inv' prev' hash before) (data : BzInv) :
    held (writeBack inv prev hash data) = held (writeBack inv' prev' hash data) := by
  funext k
  by_cases same : k = key hash
  · rw [same, h.same, h'.same]
  · rw [h.other data same, h'.other data same]

/-- The common end of a mark, on handles that hold the same and write back the same. -/
theorem outcome_markSlot {hnd hnd' : BzingHandle ι} {prev prev' : Option (InvEngine.Cursor ι)}
    {outpoint : Outpoint} (offset : UInt64) (prevInv : BzInv) (spentPos : UInt64)
    (invDirty : Bool) (spent : hnd.toSpentMap = hnd'.toSpentMap) (same : hnd.held = hnd'.held)
    (written : ∀ data, held (writeBack hnd.inv prev outpoint.hash data) =
      held (writeBack hnd'.inv prev' outpoint.hash data)) :
    outcome (markSlot hnd prev outpoint offset prevInv spentPos invDirty) =
      outcome (markSlot hnd' prev' outpoint offset prevInv spentPos invDirty) := by
  have data : hnd.spentData = hnd'.spentData := congrArg SpentMap.spentData spent
  have len : hnd.spentLen = hnd'.spentLen := congrArg SpentMap.spentLen spent
  have size : hnd.spentSize = hnd'.spentSize := congrArg SpentMap.spentSize spent
  have entries : IndexedInvEngine.held hnd.inv = IndexedInvEngine.held hnd'.inv := same
  unfold markSlot outcome BzingHandle.held
  simp only [data]
  split
  · cases ByteBuffer.store64 hnd'.spentData
        ((spentPos + outpoint.index.toUInt64) * 8).toNat offset with
    | none => rfl
    | some cells =>
      simp [bind, Except.bind, Except.map, written, len, size]
  · cases ByteBuffer.store64 hnd'.spentData
        ((spentPos + outpoint.index.toUInt64) * 8).toNat offset with
    | none => rfl
    | some cells =>
      cases invDirty with
      | true => simp [bind, Except.bind, Except.map, written, len, size]
      | false => simp [bind, Except.bind, Except.map, entries, len, size]

/-- A mark of an indexed outpoint does not depend on how the entry is reached. -/
theorem outcome_bzingSpentMark {hnd hnd' : BzingHandle ι} {outpoint : Outpoint}
    (offset : UInt64) (spent : hnd.toSpentMap = hnd'.toSpentMap) (same : hnd.held = hnd'.held)
    (indexed : hnd.Indexed outpoint) :
    outcome (bzingSpentMark hnd outpoint offset) =
      outcome (bzingSpentMark hnd' outpoint offset) := by
  obtain ⟨prevInv, there⟩ := Option.isSome_iff_exists.mp indexed
  obtain ⟨prev, inv, found, kept, back⟩ := findPrev_of_held hnd there
  obtain ⟨prev', inv', found', kept', back'⟩ := findPrev_of_held hnd' (same ▸ there)
  rw [← same] at kept' back'
  have left : BzingHandle.held { hnd with inv := inv } = hnd.held := kept
  have right : BzingHandle.held { hnd' with inv := inv' } = hnd.held := kept'
  have refused : outcome (.ok (0, { hnd with inv := inv })) =
      outcome (.ok (0, { hnd' with inv := inv' })) :=
    congrArg Except.ok (Prod.ext rfl (Prod.ext (left.trans right.symm) spent))
  unfold bzingSpentMark
  simp only [found, found']
  split
  · exact refused
  split
  · split
    · exact refused
    · simp only [spent]
      cases bzingSpentReserve hnd'.toSpentMap
          (prevInv.spent &&& bzTxiSpentUmask).toUInt32.toUInt64 with
      | error e => rfl
      | ok reserved =>
        exact outcome_markSlot offset _ _ true rfl (left.trans right.symm) (back.unique back')
  · exact outcome_markSlot offset _ _ false spent (left.trans right.symm) (back.unique back')

end Held

/-- The handle with cursors switched on or off. -/
def BzingHandle.withCursors {ι : Type} [InvEngine ι] (hnd : BzingHandle ι) (useCursors : Bool)
    (supported : useCursors = true → InvEngine.cursorSupport ι = true) : BzingHandle ι :=
  { hnd with useCursors := useCursors, supported := supported }

/-- With the engine, marking an indexed outpoint with cursors and without leaves the same. -/
def AgreesOnCursors (ι : Type) [InvEngine ι] [IndexedInvEngine ι] : Prop :=
  ∃ support : InvEngine.cursorSupport ι = true,
    ∀ (hnd : BzingHandle ι) (outpoint : Outpoint) (offset : UInt64), hnd.Indexed outpoint →
      outcome (bzingSpentMark (hnd.withCursors true fun _ => support) outpoint offset) =
        outcome (bzingSpentMark (hnd.withCursors false (by simp)) outpoint offset)

theorem agreesOnCursors_of_indexed {ι : Type} [InvEngine ι] [IndexedInvEngine ι]
    (support : InvEngine.cursorSupport ι = true) : AgreesOnCursors ι := by
  refine ⟨support, ?_⟩
  intro hnd outpoint offset indexed
  exact outcome_bzingSpentMark offset rfl rfl indexed

/-- KHASH, ALIGN and KC: the cursors change nothing about marking an indexed outpoint. -/
theorem bzingSpentMark_cursors (libs : Libraries) :
    AgreesOnCursors (SlotIndex libs.kh id) ∧ AgreesOnCursors (SlotIndex libs.ah (·.d64 0)) ∧
      AgreesOnCursors (CursorIndex libs.kc) :=
  ⟨agreesOnCursors_of_indexed rfl, agreesOnCursors_of_indexed rfl,
    agreesOnCursors_of_indexed rfl⟩

/-- A fresh handle with an entry of a transaction that has two outputs, not marked yet. -/
def indexedHandle (ι : Type) [InvEngine ι] : BzingHandle ι where
  toSpentMap := SpentMap.alloc fun _ => 0
  inv := InvEngine.bzingInvSet InvEngine.empty BzUint256.zero
    ⟨100, bzTxiSpentUmark ||| (2 : UInt32).toUInt64⟩
  useCursors := false
  supported := by simp

theorem indexed_indexedHandle (ι : Type) [InvEngine ι] [IndexedInvEngine ι] (i : UInt32) :
    (indexedHandle ι).Indexed (.of BzUint256.zero i) := by
  unfold BzingHandle.Indexed
  rw [Outpoint.hash_of]
  exact Option.isSome_of_eq_some (IndexedInvEngine.held_set_same _ _ _)

/-- A mark of its second output, with cursors or without. -/
def indexedMark (ι : Type) [InvEngine ι] (useCursors : Bool)
    (supported : useCursors = true → InvEngine.cursorSupport ι = true) :
    Except Fault (UInt64 × BzingHandle ι) :=
  bzingSpentMark ((indexedHandle ι).withCursors useCursors supported) (.of BzUint256.zero 1) 700

/-- It does the same over tables that are association lists, and returns the place of the second
of two slots. -/
theorem bzingSpentMark_cursors_assoc :
    let khash := SlotIndex assocLibraries.kh id
    let align := SlotIndex assocLibraries.ah (·.d64 0)
    let kyoto := CursorIndex assocLibraries.kc
    outcome (indexedMark khash true fun _ => rfl) = outcome (indexedMark khash false (by simp)) ∧
    outcome (indexedMark align true fun _ => rfl) = outcome (indexedMark align false (by simp)) ∧
    outcome (indexedMark kyoto true fun _ => rfl) = outcome (indexedMark kyoto false (by simp)) ∧
    ((indexedMark kyoto true fun _ => rfl).toOption.any
      fun r => r.1 = 16 && r.2.spentLen = 3) = true := by
  obtain ⟨⟨_, khash⟩, ⟨_, align⟩, _, kyoto⟩ := bzingSpentMark_cursors assocLibraries
  exact ⟨khash _ _ 700 (indexed_indexedHandle _ 1), align _ _ 700 (indexed_indexedHandle _ 1),
    kyoto _ _ 700 (indexed_indexedHandle _ 1), by decide +kernel⟩

end Bzing
