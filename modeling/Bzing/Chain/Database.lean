import Bzing.Block.Add
import Bzing.Index.Databases
import Bzing.Spent.Alike

/-!
# Using a database

Block additions, marks and lookups on the handle of any engine, and what their caller sees: the
answers and the entries that are stored. Handles that are alike are used alike
(`agrees_calls_eq`, `observe_held`).
-/

namespace Bzing

open Handler
open IndexedInvEngine (key held)

/-- A call of the user. -/
inductive DbCall where
  | blockAdd (file : List UInt8) (blkNo : UInt32) (outerOffset data maxLen : UInt64)
  | mark (outpoint : Outpoint) (offset : UInt64)
  | lookup (hash : BzUint256)

/-- What the call returns. -/
inductive DbAnswer where
  | added (added : BlockAdded)
  | slot (ret : UInt64)
  | entry (data : Option BzInv)
  deriving DecidableEq

/-- The handle with another index. -/
def BzingHandle.withInv {ι : Type} [InvEngine ι] (hnd : BzingHandle ι) (inv : ι) : BzingHandle ι :=
  { hnd with inv := inv }

section Calls

variable {ι : Type} [DbEngine ι] (sha256 : List UInt8 → BzUint256)

def DbCall.run (hnd : BzingHandle ι) : DbCall → Except Fault (DbAnswer × BzingHandle ι)
  | blockAdd file blkNo outerOffset data maxLen =>
    ((bzingBlockAdd sha256 file indexHandler blkNo outerOffset data maxLen).run hnd).map
      fun (added, hnd) => (.added added, hnd)
  | mark outpoint offset =>
    (bzingSpentMark hnd outpoint offset).map fun (ret, hnd) => (.slot ret, hnd)
  | lookup hash =>
    (DbEngine.bzingLookup hnd.inv hash).map fun (data, inv) => (.entry data, { hnd with inv := inv })

/-- Call after call, as long as they return. -/
def runCalls (hnd : BzingHandle ι) : List DbCall → Except Fault (List DbAnswer × BzingHandle ι)
  | [] => .ok ([], hnd)
  | call :: calls => do
    let (answer, hnd) ← call.run sha256 hnd
    let (answers, hnd) ← runCalls hnd calls
    .ok (answer :: answers, hnd)

/-- All that is seen of the calls: the answers and the entries afterwards, if they return. -/
def observe (hnd : BzingHandle ι) (calls : List DbCall) :
    Option (List DbAnswer × (BzUint256 → Option BzInv)) :=
  (runCalls sha256 hnd calls).toOption.map fun (answers, hnd) => (answers, DbEngine.entry hnd.inv)

/-- The operations a call performs. -/
def DbCall.ops : DbCall → List IndexOp
  | blockAdd file blkNo outerOffset data maxLen =>
    match script fun _ h => bzingBlockAdd sha256 file h blkNo outerOffset data maxLen with
    | .ok (_, ops) => ops
    | .error _ => []
  | mark outpoint offset => [.mark outpoint offset]
  | lookup _ => []

/-- The calls ask only for hashes that were set before. -/
def CallsAskKnown (known : BzUint256 → Prop) : List DbCall → Prop
  | [] => True
  | call :: calls => (∀ hash, call = .lookup hash → known hash) ∧
    AllAskKnown known (call.ops sha256) ∧
    CallsAskKnown ((call.ops sha256).foldl knownAfter known) calls

variable {sha256}

/-- Runs that agree are seen alike. -/
theorem observe_eq {R : BzingHandle ι → BzingHandle ι → Prop} {hnd hnd' : BzingHandle ι}
    {calls : List DbCall} (agrees : Agrees R (runCalls sha256 hnd calls) (runCalls sha256 hnd' calls))
    (entries : ∀ s t, R s t → DbEngine.entry s.inv = DbEngine.entry t.inv) :
    observe sha256 hnd calls = observe sha256 hnd' calls := by
  unfold observe
  generalize runCalls sha256 hnd calls = left at agrees
  generalize runCalls sha256 hnd' calls = right at agrees
  cases agrees with
  | error e e' => rfl
  | ok answers related => exact congrArg (fun entry => some (answers, entry)) (entries _ _ related)

theorem agrees_call_eq (call : DbCall) {hnd hnd' : BzingHandle ι} (alike : Alike Eq hnd hnd') :
    Agrees (Alike Eq) (call.run sha256 hnd) (call.run sha256 hnd') := by
  cases call with
  | blockAdd file blkNo outerOffset data maxLen =>
    refine Agrees.map (Scripted.agrees
      (bzingBlockAdd_scripted sha256 file blkNo outerOffset data maxLen) ?_) DbAnswer.added
    exact fun _ ops _ => agrees_perform_eq ops alike
  | mark outpoint offset =>
    exact (agrees_mark alike offset (findsAlike_of_eq alike outpoint.hash)).map DbAnswer.slot
  | lookup hash =>
    simp only [DbCall.run, alike.inv]
    cases DbEngine.bzingLookup hnd'.inv hash with
    | error e => exact .error e e
    | ok found => exact .ok _ ⟨alike.toSameSize, rfl, alike.cursors⟩

theorem agrees_calls_eq (calls : List DbCall) {hnd hnd' : BzingHandle ι}
    (alike : Alike Eq hnd hnd') :
    Agrees (Alike Eq) (runCalls sha256 hnd calls) (runCalls sha256 hnd' calls) := by
  induction calls generalizing hnd hnd' with
  | nil => exact .ok [] alike
  | cons call calls ih =>
    refine (agrees_call_eq call alike).bind ?_
    intro answer _ _ related
    exact (ih related).bind fun answers _ _ related => .ok (answer :: answers) related

/-- A lookup asks the index, and what is stored is what it holds. -/
structure HoldsEntries (ι : Type) [DbEngine ι] [IndexedInvEngine ι] : Prop where
  lookup (inv : ι) (hash : BzUint256) :
    DbEngine.bzingLookup inv hash = .ok (InvEngine.bzingInvGet inv hash)
  entry (inv : ι) (hash : BzUint256) : DbEngine.entry inv hash = held inv (key hash)

variable [IndexedInvEngine ι] {known : BzUint256 → Prop}

theorem agrees_call_held (holds : HoldsEntries ι) {call : DbCall} {hnd hnd' : BzingHandle ι}
    (alike : Alike (HeldAlike known) hnd hnd')
    (asks : Misses ι ∨ (∀ hash, call = .lookup hash → known hash) ∧
      AllAskKnown known (call.ops sha256)) :
    Agrees (Alike (HeldAlike ((call.ops sha256).foldl knownAfter known))) (call.run sha256 hnd)
      (call.run sha256 hnd') := by
  cases call with
  | blockAdd file blkNo outerOffset data maxLen =>
    refine Agrees.map (Scripted.agrees
      (bzingBlockAdd_scripted sha256 file blkNo outerOffset data maxLen) ?_) DbAnswer.added
    intro added ops written
    have same : (DbCall.blockAdd file blkNo outerOffset data maxLen).ops sha256 = ops := by
      simp only [DbCall.ops, written]
    rw [same] at asks ⊢
    exact agrees_perform_held alike (asks.imp_right And.right)
  | mark outpoint offset =>
    have asks : Misses ι ∨ known outpoint.hash := asks.imp_right fun asks => asks.2.1
    exact (agrees_mark alike offset (findsAlike_of_held alike asks)).map DbAnswer.slot
  | lookup hash =>
    have asks : Misses ι ∨ known hash := asks.imp_right fun asks => asks.1 hash rfl
    obtain ⟨same, held⟩ := alike.inv.get asks
    simp only [DbCall.run, holds.lookup]
    change Agrees _ (.ok (DbAnswer.entry (InvEngine.bzingInvGet hnd.inv hash).1, _)) _
    rw [same]
    exact .ok _ ⟨alike.toSameSize, held, alike.cursors⟩

theorem agrees_calls_held (holds : HoldsEntries ι) {calls : List DbCall} {hnd hnd' : BzingHandle ι}
    (alike : Alike (HeldAlike known) hnd hnd')
    (asks : Misses ι ∨ CallsAskKnown sha256 known calls) :
    Agrees (fun s t => held s.inv = held t.inv) (runCalls sha256 hnd calls)
      (runCalls sha256 hnd' calls) := by
  induction calls generalizing known hnd hnd' with
  | nil => exact .ok [] alike.inv.same
  | cons call calls ih =>
    have now := asks.imp_right fun asks => (⟨asks.1, asks.2.1⟩ : _ ∧ _)
    refine (agrees_call_held holds alike now).bind ?_
    intro answer _ _ related
    refine (ih related (asks.imp_right fun asks => asks.2.2)).bind ?_
    exact fun answers _ _ same => .ok (answer :: answers) same

theorem observe_held (holds : HoldsEntries ι) {calls : List DbCall} {hnd hnd' : BzingHandle ι}
    (alike : Alike (HeldAlike known) hnd hnd')
    (asks : Misses ι ∨ CallsAskKnown sha256 known calls) :
    observe sha256 hnd calls = observe sha256 hnd' calls := by
  apply observe_eq (agrees_calls_held holds alike asks)
  intro s t same
  funext hash
  rw [holds.entry, holds.entry, same]

end Calls

end Bzing
