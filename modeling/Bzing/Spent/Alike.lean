import Bzing.Data.Agreement
import Bzing.Spent.Paths
import Bzing.Spent.Store

/-!
# Handles that are alike

Nothing reads the slots back (`bzing.c:581-655` only writes them), so handles whose blocks have
one size, whose lengths are equal, and whose indexes answer alike cannot be told apart by
marking. `agrees_perform` is this for any operations, for indexes that are equal and for those
that hold the same.
-/

namespace Bzing

open ByteBuffer Handler
open IndexedInvEngine (key held)

/-- Spent maps of one size. -/
structure SameSize (m m' : SpentMap) : Prop where
  len : m.spentLen = m'.spentLen
  size : m.spentSize = m'.spentSize
  data : m.spentData.length = m'.spentData.length

/-- Writes into blocks of one size both happen or both fail. -/
theorem store64_alike {d d' : List UInt8} (same : d.length = d'.length) (a : Nat) (v : UInt64) :
    store64 d a v = none ∧ store64 d' a v = none ∨
      ∃ e e', store64 d a v = some e ∧ store64 d' a v = some e' ∧ e.length = e'.length := by
  unfold store64
  by_cases inside : a + 8 ≤ d.length
  · rw [if_pos inside, if_pos (same ▸ inside)]
    exact Or.inr ⟨_, _, rfl, rfl, by simp [same]⟩
  · rw [if_neg inside, if_neg (same ▸ inside)]
    exact Or.inl ⟨rfl, rfl⟩

theorem fill_alike {d d' : List UInt8} (same : d.length = d'.length) (a n : Nat) (c : UInt8) :
    fill d a n c = none ∧ fill d' a n c = none ∨
      ∃ e e', fill d a n c = some e ∧ fill d' a n c = some e' ∧ e.length = e'.length := by
  unfold fill
  by_cases inside : a + n ≤ d.length
  · rw [if_pos inside, if_pos (same ▸ inside)]
    exact Or.inr ⟨_, _, rfl, rfl, by simp [same]⟩
  · rw [if_neg inside, if_neg (same ▸ inside)]
    exact Or.inl ⟨rfl, rfl⟩

theorem agrees_reserve {m m' : SpentMap} (same : SameSize m m') (count : UInt64) :
    Agrees SameSize (bzingSpentReserve m count) (bzingSpentReserve m' count) := by
  have grown : (realloc m.spentData (m'.spentSize * bzSpentGrowFactor)).length =
      (realloc m'.spentData (m'.spentSize * bzSpentGrowFactor)).length := by
    simp only [realloc, List.length_append, List.length_take, List.length_replicate, same.data]
  unfold bzingSpentReserve
  simp only [same.len, same.size]
  split
  · rcases fill_alike grown m'.spentSize.toNat
        (m'.spentSize * (bzSpentGrowFactor - 1)).toNat 0 with ⟨left, right⟩ | ⟨e, e', left, right, eq⟩
    · rw [left, right]
      exact .error _ _
    · rw [left, right]
      exact .ok _ ⟨rfl, rfl, eq⟩
  · exact .ok _ ⟨rfl, rfl, same.data⟩

section Alike

variable {ι : Type} [InvEngine ι]

/-- Handles with spent maps of one size and indexes in the relation. -/
structure Alike (E : ι → ι → Prop) (hnd hnd' : BzingHandle ι) : Prop
    extends SameSize hnd.toSpentMap hnd'.toSpentMap where
  inv : E hnd.inv hnd'.inv
  cursors : hnd.useCursors = hnd'.useCursors

/-- The entry of a hash is found alike, and can be written back alike. -/
inductive FindsAlike (E : ι → ι → Prop) (hnd hnd' : BzingHandle ι) (hash : BzUint256) : Prop where
  | none {prev prev' : Option (InvEngine.Cursor ι)} {left right : BzingHandle ι}
      (found : findPrev hnd hash = (prev, none, left))
      (found' : findPrev hnd' hash = (prev', none, right))
  | some {prev prev' : Option (InvEngine.Cursor ι)} {inv inv' : ι} (prevInv : BzInv)
      (found : findPrev hnd hash = (prev, some prevInv, { hnd with inv := inv }))
      (found' : findPrev hnd' hash = (prev', some prevInv, { hnd' with inv := inv' }))
      (kept : E inv inv')
      (written : ∀ data, E (writeBack inv prev hash data) (writeBack inv' prev' hash data))

variable {E : ι → ι → Prop} {hnd hnd' : BzingHandle ι}

theorem agrees_markSlot {prev prev' : Option (InvEngine.Cursor ι)} {outpoint : Outpoint}
    (alike : Alike E hnd hnd') (offset : UInt64) (prevInv : BzInv) (spentPos : UInt64)
    (invDirty : Bool)
    (written : ∀ data, E (writeBack hnd.inv prev outpoint.hash data)
      (writeBack hnd'.inv prev' outpoint.hash data)) :
    Agrees (Alike E) (markSlot hnd prev outpoint offset prevInv spentPos invDirty)
      (markSlot hnd' prev' outpoint offset prevInv spentPos invDirty) := by
  have stored := store64_alike alike.data
    ((spentPos + outpoint.index.toUInt64) * 8).toNat offset
  unfold markSlot
  simp only
  split
  · rcases stored with ⟨left, right⟩ | ⟨e, e', left, right, eq⟩
    · rw [left, right]
      exact .error _ _
    · rw [left, right]
      exact .ok _ ⟨⟨alike.len, alike.size, eq⟩, written _, alike.cursors⟩
  · rcases stored with ⟨left, right⟩ | ⟨e, e', left, right, eq⟩
    · rw [left, right]
      exact .error _ _
    · rw [left, right]
      refine .ok _ ?_
      cases invDirty with
      | true => exact ⟨⟨alike.len, alike.size, eq⟩, written _, alike.cursors⟩
      | false => exact ⟨⟨alike.len, alike.size, eq⟩, alike.inv, alike.cursors⟩

theorem agrees_mark {outpoint : Outpoint} (alike : Alike E hnd hnd') (offset : UInt64)
    (finds : FindsAlike E hnd hnd' outpoint.hash) :
    Agrees (Alike E) (bzingSpentMark hnd outpoint offset)
      (bzingSpentMark hnd' outpoint offset) := by
  unfold bzingSpentMark
  cases finds with
  | none found found' =>
    simp only [found, found']
    exact .error _ _
  | @some prev prev' inv inv' prevInv found found' kept written =>
    have refused : Alike E { hnd with inv := inv } { hnd' with inv := inv' } :=
      ⟨alike.toSameSize, kept, alike.cursors⟩
    simp only [found, found']
    split
    · exact .ok 0 refused
    split
    · split
      · exact .ok 0 refused
      · refine (agrees_reserve alike.toSameSize _).bind ?_
        intro pos m m' same
        have reserved : Alike E { hnd with toSpentMap := m, inv := inv }
            { hnd' with toSpentMap := m', inv := inv' } := ⟨same, kept, alike.cursors⟩
        exact agrees_markSlot reserved offset _ pos true written
    · exact agrees_markSlot refused offset prevInv _ false written

/-- What is found depends on the index alone. -/
theorem findPrev_index (hnd : BzingHandle ι) (hash : BzUint256) :
    ∃ prev prevInv inv, ∀ hnd' : BzingHandle ι, hnd'.inv = hnd.inv →
      hnd'.useCursors = hnd.useCursors →
      findPrev hnd' hash = (prev, prevInv, { hnd' with inv := inv }) := by
  by_cases cursors : hnd.useCursors = true
  · refine ⟨some (InvEngine.bzingInvCursorFind hnd.inv hash).1,
      InvEngine.bzingInvCursorGet (InvEngine.bzingInvCursorFind hnd.inv hash).2
        (InvEngine.bzingInvCursorFind hnd.inv hash).1,
      (InvEngine.bzingInvCursorFind hnd.inv hash).2, ?_⟩
    intro hnd' inv same
    unfold findPrev
    rw [if_pos (same.trans cursors), inv]
  · refine ⟨none, (InvEngine.bzingInvGet hnd.inv hash).1,
      (InvEngine.bzingInvGet hnd.inv hash).2, ?_⟩
    intro hnd' inv same
    unfold findPrev
    rw [if_neg (same ▸ cursors), inv]

theorem findsAlike_of_eq (alike : Alike Eq hnd hnd') (hash : BzUint256) :
    FindsAlike Eq hnd hnd' hash := by
  obtain ⟨prev, prevInv, inv, found⟩ := findPrev_index hnd hash
  have left := found hnd rfl rfl
  have right := found hnd' alike.inv.symm alike.cursors.symm
  cases prevInv with
  | none => exact .none left right
  | some prevInv => exact .some prevInv left right rfl fun _ => rfl

theorem agrees_op_eq (op : IndexOp) (alike : Alike Eq hnd hnd') :
    Agrees (Alike Eq) ((indexHandler op).run hnd) ((indexHandler op).run hnd') := by
  cases op with
  | set hash data =>
    exact .ok () ⟨alike.toSameSize, congrArg (InvEngine.bzingInvSet · hash data) alike.inv,
      alike.cursors⟩
  | mark outpoint offset =>
    exact (agrees_mark alike offset (findsAlike_of_eq alike outpoint.hash)).map fun _ => ()

theorem agrees_perform_eq (ops : List IndexOp) (alike : Alike Eq hnd hnd') :
    Agrees (Alike Eq) ((perform indexHandler ops).run hnd) ((perform indexHandler ops).run hnd') := by
  induction ops generalizing hnd hnd' with
  | nil => exact .ok () alike
  | cons op ops ih =>
    rw [perform_cons, StateT.run_bind, StateT.run_bind]
    exact (agrees_op_eq op alike).bind fun _ _ _ related => ih related

end Alike

/-! ## Indexes that hold the same -/

/-- The hashes that were set, after one more operation. -/
def knownAfter (known : BzUint256 → Prop) : IndexOp → BzUint256 → Prop
  | .set hash _ => fun h => h = hash ∨ known h
  | .mark _ _ => known

/-- The operation asks only for hashes that were set. -/
def AsksKnown (known : BzUint256 → Prop) : IndexOp → Prop
  | .set _ _ => True
  | .mark outpoint _ => known outpoint.hash

/-- Every operation asks only for hashes that were set before it. -/
def AllAskKnown (known : BzUint256 → Prop) : List IndexOp → Prop
  | [] => True
  | op :: ops => AsksKnown known op ∧ AllAskKnown (knownAfter known op) ops

section Held

variable {ι : Type} [InvEngine ι] [IndexedInvEngine ι]

/-- With the engine a hash that is not held is not found, and looking changes nothing. -/
structure Misses (ι : Type) [InvEngine ι] [IndexedInvEngine ι] : Prop where
  get {inv : ι} {hash : BzUint256} : held inv (key hash) = none →
    (InvEngine.bzingInvGet inv hash).1 = none
  held_get (inv : ι) (hash : BzUint256) : held (InvEngine.bzingInvGet inv hash).2 = held inv
  cursorGet {inv : ι} {hash : BzUint256} : InvEngine.cursorSupport ι = true →
    held inv (key hash) = none →
    InvEngine.bzingInvCursorGet (InvEngine.bzingInvCursorFind inv hash).2
      (InvEngine.bzingInvCursorFind inv hash).1 = none

/-- The indexes hold the same, among it the hashes that were set. -/
structure HeldAlike (known : BzUint256 → Prop) (inv inv' : ι) : Prop where
  same : held inv = held inv'
  known {hash : BzUint256} : known hash → (held inv (key hash)).isSome

variable {known : BzUint256 → Prop} {hnd hnd' : BzingHandle ι}

theorem Misses.findPrev_none (misses : Misses ι) {hash : BzUint256}
    (absent : hnd.held (key hash) = none) : ∃ prev after, findPrev hnd hash = (prev, none, after) := by
  unfold findPrev
  by_cases cursors : hnd.useCursors = true
  · have found := misses.cursorGet (hnd.supported cursors) absent
    simp only [cursors, if_true, found]
    exact ⟨_, _, rfl⟩
  · have found := misses.get absent
    simp only [cursors, found]
    exact ⟨_, _, rfl⟩

/-- A lookup returns the same, and leaves what is held. -/
theorem HeldAlike.get {inv inv' : ι} {hash : BzUint256} (alike : HeldAlike known inv inv')
    (asks : Misses ι ∨ known hash) :
    (InvEngine.bzingInvGet inv hash).1 = (InvEngine.bzingInvGet inv' hash).1 ∧
      HeldAlike known (InvEngine.bzingInvGet inv hash).2 (InvEngine.bzingInvGet inv' hash).2 := by
  have same := alike.same
  have stays : ∀ {left right : ι}, held left = held inv → held right = held inv' →
      HeldAlike known left right := by
    intro left right kept kept'
    refine ⟨kept.trans (same.trans kept'.symm), ?_⟩
    intro h set
    rw [kept]
    exact alike.known set
  cases there : held inv (key hash) with
  | none =>
    have misses : Misses ι := by
      rcases asks with misses | set
      · exact misses
      · have stored := alike.known set
        rw [there] at stored
        cases stored
    refine ⟨?_, stays (misses.held_get inv hash) (misses.held_get inv' hash)⟩
    rw [misses.get there, misses.get (same ▸ there)]
  | some data =>
    obtain ⟨found, kept⟩ := IndexedInvEngine.get_of_held there
    obtain ⟨found', kept'⟩ := IndexedInvEngine.get_of_held (same ▸ there)
    exact ⟨found.trans found'.symm, stays kept kept'⟩

/-- What was set is found, and what was not is missed. -/
theorem findsAlike_of_held {hash : BzUint256} (alike : Alike (HeldAlike known) hnd hnd')
    (asks : Misses ι ∨ known hash) : FindsAlike (HeldAlike known) hnd hnd' hash := by
  have same : hnd.held = hnd'.held := alike.inv.same
  cases there : hnd.held (key hash) with
  | none =>
    have misses : Misses ι := by
      rcases asks with misses | set
      · exact misses
      · have stored := alike.inv.known set
        change (hnd.held (key hash)).isSome at stored
        rw [there] at stored
        cases stored
    obtain ⟨prev, after, found⟩ := misses.findPrev_none there
    obtain ⟨prev', after', found'⟩ := misses.findPrev_none (same ▸ there)
    exact .none found found'
  | some data =>
    obtain ⟨prev, inv, found, kept, back⟩ := findPrev_of_held hnd there
    obtain ⟨prev', inv', found', kept', back'⟩ := findPrev_of_held hnd' (same ▸ there)
    rw [← same] at kept' back'
    refine .some data found found' ⟨kept.trans kept'.symm, ?_⟩ ?_
    · intro h set
      rw [kept]
      exact alike.inv.known set
    · intro data
      refine ⟨back.unique back' data, ?_⟩
      intro h set
      by_cases own : (key h : IndexedInvEngine.Key ι) = key hash
      · rw [own, back.same]
        rfl
      · rw [back.other data own]
        exact alike.inv.known set

theorem agrees_op_held {op : IndexOp} (alike : Alike (HeldAlike known) hnd hnd')
    (asks : Misses ι ∨ AsksKnown known op) :
    Agrees (Alike (HeldAlike (knownAfter known op))) ((indexHandler op).run hnd)
      ((indexHandler op).run hnd') := by
  cases op with
  | set hash data =>
    refine .ok () ⟨alike.toSameSize, ⟨?_, ?_⟩, alike.cursors⟩
    · funext k
      by_cases own : k = key hash
      · rw [own, IndexedInvEngine.held_set_same, IndexedInvEngine.held_set_same]
      · rw [IndexedInvEngine.held_set_ne _ _ _ own, IndexedInvEngine.held_set_ne _ _ _ own,
          alike.inv.same]
    · intro h set
      by_cases own : (key h : IndexedInvEngine.Key ι) = key hash
      · rw [own, IndexedInvEngine.held_set_same]
        rfl
      · rw [IndexedInvEngine.held_set_ne _ _ _ own]
        refine alike.inv.known (set.resolve_left ?_)
        rintro rfl
        exact own rfl
  | mark outpoint offset =>
    exact (agrees_mark alike offset (findsAlike_of_held alike asks)).map fun _ => ()

theorem agrees_perform_held {ops : List IndexOp} (alike : Alike (HeldAlike known) hnd hnd')
    (asks : Misses ι ∨ AllAskKnown known ops) :
    Agrees (Alike (HeldAlike (ops.foldl knownAfter known))) ((perform indexHandler ops).run hnd)
      ((perform indexHandler ops).run hnd') := by
  induction ops generalizing known hnd hnd' with
  | nil => exact .ok () alike
  | cons op ops ih =>
    rw [perform_cons, StateT.run_bind, StateT.run_bind]
    refine (agrees_op_held alike (asks.imp_right And.left)).bind ?_
    intro _ _ _ related
    exact ih related (asks.imp_right And.right)

end Held

/-- A lawful engine misses what is not there. -/
theorem misses_of_lawful {ι : Type} [InvEngine ι] [LawfulInvEngine ι] : Misses ι where
  get absent := (LawfulInvEngine.get_eq _ _).trans absent
  held_get inv hash := by
    funext k
    exact LawfulInvEngine.lookup_get inv hash k
  cursorGet support absent := (LawfulInvEngine.cursorGet_eq _ _ support).trans absent

end Bzing
