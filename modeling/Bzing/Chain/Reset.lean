import Bzing.Block.Decode
import Bzing.Block.Sample
import Bzing.Chain.Database
import Bzing.Spent.MarkRun

/-!
# Resetting a database

`bzing_reset` (`bzing.c:224-267`) empties the table of five engines and nothing else: the spent
map keeps its length, so that the next slots are not those of a fresh handle, and the tables of
the other three engines stay as they are. `resetsFresh_iff` says when the user sees a fresh
database afterwards.
-/

namespace Bzing

open Handler
open IndexedInvEngine (key held)

section Reset

variable {ι : Type} [DbEngine ι]

/-- `bzing_reset` (`bzing.c:224-267`): it touches nothing but the table. -/
def bzingReset (hnd : BzingHandle ι) : BzingHandle ι :=
  hnd.withInv (DbEngine.reset hnd.inv)

/-- A handle comes from `bzing_alloc` by calls that return and by resets. -/
inductive DbReached (sha256 : List UInt8 → BzUint256) (contents : Nat → UInt8) :
    BzingHandle ι → Prop where
  | alloc : DbReached sha256 contents (bzingAlloc ι contents)
  | call {hnd hnd' : BzingHandle ι} {answer : DbAnswer} (call : DbCall)
      (before : DbReached sha256 contents hnd) (run : call.run sha256 hnd = .ok (answer, hnd')) :
      DbReached sha256 contents hnd'
  | reset {hnd : BzingHandle ι} (before : DbReached sha256 contents hnd) :
      DbReached sha256 contents (bzingReset hnd)

/-- After a reset all calls are seen as on a fresh handle; a strict user asks only for hashes it
has set since. -/
def ResetsFresh (sha256 : List UInt8 → BzUint256) (strict : Prop) (hnd : BzingHandle ι) : Prop :=
  ∀ (contents : Nat → UInt8) (calls : List DbCall),
    (strict → CallsAskKnown sha256 (fun _ => False) calls) →
    observe sha256 (bzingReset hnd) calls = observe sha256 (bzingAlloc ι contents) calls

variable {sha256 : List UInt8 → BzUint256} {contents : Nat → UInt8} {hnd : BzingHandle ι}

/-- What operations, lookups and resets keep, holds of every handle. -/
theorem DbReached.keeps {P : BzingHandle ι → Prop} (alloc : P (bzingAlloc ι contents))
    (op : ∀ op hnd hnd', P hnd → (indexHandler op).run hnd = .ok ((), hnd') → P hnd')
    (lookup : ∀ hnd hash data inv, P hnd → DbEngine.bzingLookup hnd.inv hash = .ok (data, inv) →
      P { hnd with inv := inv })
    (reset : ∀ hnd, P hnd → P (bzingReset hnd)) (reached : DbReached sha256 contents hnd) :
    P hnd := by
  induction reached with
  | alloc => exact alloc
  | reset _ ih => exact reset _ ih
  | @call hnd hnd' answer call _ run ih =>
    cases call with
    | blockAdd file blkNo outerOffset data maxLen =>
      obtain ⟨r, added, returned⟩ := except_map_ok.mp run
      cases returned
      obtain ⟨ops, -, -, performed⟩ :=
        (bzingBlockAdd_scripted sha256 file blkNo outerOffset data maxLen).run_ok added
      exact perform_invariant indexHandler P (fun o _ => op o) ih performed
    | mark outpoint offset =>
      obtain ⟨r, marked, returned⟩ := except_map_ok.mp run
      cases returned
      exact op (.mark outpoint offset) hnd r.2 ih (except_map_ok.mpr ⟨r, marked, rfl⟩)
    | lookup hash =>
      obtain ⟨r, found, returned⟩ := except_map_ok.mp run
      cases returned
      exact lookup hnd hash r.1 r.2 ih found

theorem DbReached.freshSize (reached : DbReached sha256 contents hnd) :
    FreshSize hnd.toSpentMap ∧ hnd.useCursors = InvEngine.cursorSupport ι := by
  refine reached.keeps (P := fun hnd =>
    FreshSize hnd.toSpentMap ∧ hnd.useCursors = InvEngine.cursorSupport ι) ?_ ?_ ?_ ?_
  · exact ⟨freshSize_alloc contents, rfl⟩
  · intro op hnd hnd' ih run
    cases op with
    | set hash data =>
      cases run
      exact ih
    | mark outpoint offset =>
      obtain ⟨ret, marked⟩ := indexHandler_mark_ok run
      have marked := bzingSpentMark_run ih.1.cap.sized marked
      exact ⟨ih.1.mark marked, marked.cursors.trans ih.2⟩
  · exact fun _ _ _ _ ih _ => ih
  · exact fun _ ih => ih

end Reset

/-! ## The engines whose table is emptied -/

/-- A block with one transaction with one output, and the mark of that. -/
def oneBlock : Block := ⟨sampleHeader 0, [txOne]⟩

def oneCalls (sha256 : List UInt8 → BzUint256) : List DbCall :=
  [.blockAdd (oneBlock.serialise ++ []) 0 0 0 0, .mark (.of (txOne.hash sha256) 0) 0]

/-- The operations for the block. -/
def oneOps (sha256 : List UInt8 → BzUint256) : List IndexOp :=
  [.set (oneBlock.hash sha256) ⟨80, uint64Max⟩,
    .set (txOne.hash sha256) ⟨81, bzTxiSpentUmark ||| 1⟩]

theorem oneBlock_added (sha256 : List UInt8 → BzUint256) {σ : Type}
    (h : Handler IndexOp σ Fault) :
    bzingBlockAdd sha256 (oneBlock.serialise ++ []) h 0 0 0 0 = (do
      perform h (oneOps sha256)
      pure (oneBlock.report sha256)) := by
  have ops : (oneBlock.ops sha256 0).map LedgerOp.indexOp = oneOps sha256 := rfl
  have short : oneBlock.serialise.length < 2 ^ 64 := by decide +kernel
  have nodes := treeSize_lt oneBlock.txs.length 29 (by decide)
  have one : oneBlock.txs.length = 1 := rfl
  rw [bzingBlockAdd_at h 0 0 0 (by decide) (at_zero oneBlock.serialise [] short), ops,
    if_pos (by omega)]

theorem oneCalls_ask (sha256 : List UInt8 → BzUint256) :
    CallsAskKnown sha256 (fun _ => False) (oneCalls sha256) := by
  have ops : (DbCall.blockAdd (oneBlock.serialise ++ []) 0 0 0 0).ops sha256 = oneOps sha256 := by
    have written : script (fun _ h => bzingBlockAdd sha256 (oneBlock.serialise ++ []) h 0 0 0 0) =
        .ok (oneBlock.report sha256, oneOps sha256) := by
      change (bzingBlockAdd sha256 (oneBlock.serialise ++ []) recorder 0 0 0 0).run [] = _
      rw [oneBlock_added]
      exact run_bind_ok.mpr ⟨(), _, perform_recorder _ [], rfl⟩
    simp only [DbCall.ops, written]
  refine ⟨by simp, ?_, by simp, ⟨?_, trivial⟩, trivial⟩
  · rw [ops]
    exact ⟨trivial, trivial, trivial⟩
  · rw [ops]
    change (Outpoint.of (txOne.hash sha256) 0).hash = txOne.hash sha256 ∨ _
    exact Or.inl (Outpoint.hash_of _ 0)

section Emptied

variable {ι : Type} [DbEngine ι] [IndexedInvEngine ι] {sha256 : List UInt8 → BzUint256}
  {contents : Nat → UInt8} {hnd : BzingHandle ι}

/-- A fresh table holds nothing, and neither does one that was reset. -/
structure Emptied (ι : Type) [DbEngine ι] [IndexedInvEngine ι] : Prop extends HoldsEntries ι where
  held_empty (k : IndexedInvEngine.Key ι) : held (InvEngine.empty : ι) k = none
  held_reset (inv : ι) (k : IndexedInvEngine.Key ι) : held (DbEngine.reset inv) k = none

theorem resetsFresh_of_one {strict : Prop} (emptied : Emptied ι) (misses : ¬ strict → Misses ι)
    (reached : DbReached sha256 contents hnd) (one : hnd.spentLen = 1) :
    ResetsFresh sha256 strict hnd := by
  obtain ⟨fresh, cursors⟩ := reached.freshSize
  intro contents' calls asks
  have alike : Alike (HeldAlike fun _ => False) (bzingReset hnd) (bzingAlloc ι contents') := by
    refine ⟨fresh.sameSize one contents', ⟨?_, False.elim⟩, cursors⟩
    funext k
    exact (emptied.held_reset hnd.inv k).trans (emptied.held_empty k).symm
  apply observe_held emptied.toHoldsEntries alike
  by_cases slots : strict
  · exact Or.inr (asks slots)
  · exact Or.inl (misses slots)

/-- The handle after the block. -/
def BzingHandle.withOne (sha256 : List UInt8 → BzUint256) (hnd : BzingHandle ι) : BzingHandle ι :=
  hnd.withInv (InvEngine.bzingInvSet
    (InvEngine.bzingInvSet hnd.inv (oneBlock.hash sha256) ⟨80, uint64Max⟩)
    (txOne.hash sha256) ⟨81, bzTxiSpentUmark ||| 1⟩)

omit [IndexedInvEngine ι] in
theorem run_oneBlock (hnd : BzingHandle ι) :
    (DbCall.blockAdd (oneBlock.serialise ++ []) 0 0 0 0).run sha256 hnd =
      .ok (.added (oneBlock.report sha256), hnd.withOne sha256) := by
  have added : (bzingBlockAdd sha256 (oneBlock.serialise ++ []) indexHandler 0 0 0 0).run hnd =
      .ok (oneBlock.report sha256, hnd.withOne sha256) := by
    rw [oneBlock_added]
    rfl
  exact except_map_ok.mpr ⟨_, added, rfl⟩

omit [IndexedInvEngine ι] in
theorem runCalls_one (hnd : BzingHandle ι) :
    runCalls sha256 hnd (oneCalls sha256) =
      (bzingSpentMark (hnd.withOne sha256) (.of (txOne.hash sha256) 0) 0).map
        fun (ret, hnd) => ([.added (oneBlock.report sha256), .slot ret], hnd) := by
  have second : runCalls sha256 (hnd.withOne sha256) [.mark (.of (txOne.hash sha256) 0) 0] =
      (bzingSpentMark (hnd.withOne sha256) (.of (txOne.hash sha256) 0) 0).map
        fun (ret, hnd) => ([.slot ret], hnd) := by
    simp only [runCalls, DbCall.run]
    cases bzingSpentMark (hnd.withOne sha256) (.of (txOne.hash sha256) 0) 0 <;> rfl
  rw [oneCalls, runCalls, run_oneBlock]
  change (runCalls sha256 (hnd.withOne sha256) [.mark (.of (txOne.hash sha256) 0) 0] >>= _) = _
  rw [second]
  cases bzingSpentMark (hnd.withOne sha256) (.of (txOne.hash sha256) 0) 0 <;> rfl

variable (sha256) in
/-- The transaction takes one slot, behind those that are taken. -/
theorem mark_withOne (hnd : BzingHandle ι) : ∃ prev inv,
    bzingSpentMark (hnd.withOne sha256) (.of (txOne.hash sha256) 0) 0 = (do
      let (pos, spent) ← bzingSpentReserve hnd.toSpentMap 1
      markSlot { hnd with toSpentMap := spent, inv := inv } prev (.of (txOne.hash sha256) 0) 0
        ⟨81, pos⟩ pos true) := by
  have there : (hnd.withOne sha256).held (key (Outpoint.of (txOne.hash sha256) 0).hash) =
      some ⟨81, bzTxiSpentUmark ||| 1⟩ := by
    rw [Outpoint.hash_of]
    exact IndexedInvEngine.held_set_same _ _ _
  obtain ⟨prev, inv, found, -, -⟩ := findPrev_of_held (hnd.withOne sha256) there
  refine ⟨prev, inv, ?_⟩
  unfold bzingSpentMark
  simp only [found]
  rw [if_neg (by decide), if_pos (by decide), if_neg (by decide)]
  rfl

variable (sha256) in
/-- A fresh handle has room for it. -/
theorem mark_alloc_withOne (contents : Nat → UInt8) : ∃ hnd,
    bzingSpentMark ((bzingAlloc ι contents).withOne sha256) (.of (txOne.hash sha256) 0) 0 =
      .ok (8, hnd) ∧ hnd.spentLen = 2 := by
  obtain ⟨prev, inv, marked⟩ := mark_withOne sha256 (bzingAlloc ι contents)
  have fits : ((SpentMap.alloc contents).spentLen + 1) * 8 ≤ (SpentMap.alloc contents).spentSize := by
    change ((1 + 1) * 8 : UInt64) ≤ 4096
    decide
  obtain ⟨m, reserve, reserved⟩ := reserve_fits (capacity_alloc contents).sized fits
  have inside : 8 + 8 ≤ m.spentData.length := by
    obtain ⟨k, data⟩ := reserved.data_eq
    have size : bzSpentInitSize.toNat = 4096 := rfl
    rw [data, List.length_append, SpentMap.alloc, length_malloc]
    omega
  have place : 8 * slotIndex 1 (Outpoint.of (txOne.hash sha256) 0).index + 8 ≤ m.spentData.length := by
    rw [Outpoint.index_of]
    exact inside
  obtain ⟨⟨ret, hnd⟩, written⟩ := markSlot_isOk (ι := ι)
    { bzingAlloc ι contents with toSpentMap := m, inv := inv } prev 0 ⟨81, 1⟩ true place
  obtain ⟨rfl, -, -, k, slot⟩ := markSlot_slot written
  rw [Outpoint.index_of] at written
  have reserve : bzingSpentReserve (bzingAlloc ι contents).toSpentMap 1 = .ok (1, m) := reserve
  refine ⟨hnd, ?_, ?_⟩
  · rw [marked, reserve]
    exact written
  · rw [(SpentMap.setSlot_eq_some.mp slot).2.1]
    exact reserved.len

theorem one_of_resetsFresh {strict : Prop} (reached : DbReached sha256 contents hnd)
    (resets : ResetsFresh sha256 strict hnd) : hnd.spentLen = 1 := by
  have seen := resets contents (oneCalls sha256) fun _ => oneCalls_ask sha256
  obtain ⟨fresh, alloc, -⟩ := mark_alloc_withOne (ι := ι) sha256 contents
  unfold observe at seen
  rw [runCalls_one, runCalls_one, alloc] at seen
  cases marked : bzingSpentMark ((bzingReset hnd).withOne sha256)
      (.of (txOne.hash sha256) 0) 0 with
  | error e =>
    rw [marked] at seen
    cases seen
  | ok r =>
    rw [marked] at seen
    have ret : r.1 = 8 := by
      have answers := congrArg Prod.fst (Option.some.inj seen)
      simpa using answers
    obtain ⟨prev, inv, same⟩ := mark_withOne sha256 (bzingReset hnd)
    rw [same] at marked
    obtain ⟨⟨pos, m⟩, reserve, written⟩ := except_bind_ok.mp marked
    obtain ⟨cap, -⟩ := reached.freshSize
    obtain ⟨rfl, -⟩ := reserve_ok cap.cap.sized reserve
    obtain ⟨slot, -⟩ := markSlot_slot written
    rw [Outpoint.index_of] at slot
    have slot : (8 : UInt64) = (hnd.spentLen + 0) * 8 := ret.symm.trans slot
    have small := cap.cap.len_lt
    have bytes := congrArg UInt64.toNat slot
    have eight : (8 : UInt64).toNat = 8 := by rfl
    rw [UInt64.add_zero, UInt64.toNat_mul, eight] at bytes
    apply UInt64.toNat_inj.mp
    change hnd.spentLen.toNat = 1
    omega

theorem resetsFresh_iff_one {strict : Prop} (emptied : Emptied ι) (misses : ¬ strict → Misses ι)
    (reached : DbReached sha256 contents hnd) :
    ResetsFresh sha256 strict hnd ↔ hnd.spentLen = 1 :=
  ⟨one_of_resetsFresh reached, resetsFresh_of_one emptied misses reached⟩

end Emptied

/-! ## The engines whose table is kept -/

section Kept

variable {ι : Type} [DbEngine ι] {sha256 : List UInt8 → BzUint256} {contents : Nat → UInt8}
  {hnd : BzingHandle ι}

/-- The reset does nothing, and so does a lookup; an entry once made stays. -/
structure KeepsTable (ι : Type) [DbEngine ι] : Prop where
  reset (inv : ι) : DbEngine.reset inv = inv
  noCursors : InvEngine.cursorSupport ι = false
  lookup {inv inv' : ι} {hash : BzUint256} {data : Option BzInv} :
    DbEngine.bzingLookup inv hash = .ok (data, inv') → inv' = inv
  get (inv : ι) (hash : BzUint256) : (InvEngine.bzingInvGet inv hash).2 = inv
  get_empty (hash : BzUint256) : (InvEngine.bzingInvGet (InvEngine.empty : ι) hash).1 = none
  entry_empty (hash : BzUint256) : DbEngine.entry (InvEngine.empty : ι) hash = none
  entry_set (inv : ι) (hash : BzUint256) (data : BzInv) :
    (DbEngine.entry (InvEngine.bzingInvSet inv hash data) hash).isSome
  entry_kept {inv : ι} (hash : BzUint256) (data : BzInv) {h : BzUint256} :
    (DbEngine.entry inv h).isSome →
      (DbEngine.entry (InvEngine.bzingInvSet inv hash data) h).isSome

/-- The handle is a fresh one. -/
structure Untouched (contents : Nat → UInt8) (hnd : BzingHandle ι) : Prop where
  inv : hnd.inv = InvEngine.empty
  spent : hnd.toSpentMap = SpentMap.alloc contents

theorem untouched_or_entry (keeps : KeepsTable ι) (reached : DbReached sha256 contents hnd) :
    Untouched contents hnd ∨ ∃ hash, (DbEngine.entry hnd.inv hash).isSome := by
  have all := reached.keeps (P := fun hnd => (FreshSize hnd.toSpentMap ∧ hnd.useCursors = false) ∧
    (Untouched contents hnd ∨ ∃ hash, (DbEngine.entry hnd.inv hash).isSome)) ?_ ?_ ?_ ?_
  · exact all.2
  · exact ⟨⟨freshSize_alloc contents, keeps.noCursors⟩, Or.inl ⟨rfl, rfl⟩⟩
  · rintro op hnd hnd' ⟨⟨fresh, cursors⟩, ih⟩ run
    cases op with
    | set hash data =>
      cases run
      exact ⟨⟨fresh, cursors⟩, Or.inr ⟨hash, keeps.entry_set hnd.inv hash data⟩⟩
    | mark outpoint offset =>
      obtain ⟨ret, marked⟩ := indexHandler_mark_ok run
      have marked := bzingSpentMark_run fresh.cap.sized marked
      refine ⟨⟨fresh.mark marked, marked.cursors.trans cursors⟩, ?_⟩
      obtain ⟨prev, prevInv, inv, found, index⟩ := marked.index
      have got : findPrev hnd outpoint.hash = (none, (InvEngine.bzingInvGet hnd.inv outpoint.hash).1,
          { hnd with inv := (InvEngine.bzingInvGet hnd.inv outpoint.hash).2 }) := by
        unfold findPrev
        rw [if_neg (by simp [cursors])]
      have same := found.symm.trans got
      have prevNone : prev = none := congrArg Prod.fst same
      have entry : some prevInv = (InvEngine.bzingInvGet hnd.inv outpoint.hash).1 :=
        congrArg (fun r => r.2.1) same
      have kept : inv = hnd.inv :=
        (congrArg (fun r => r.2.2.inv) same).trans (keeps.get hnd.inv outpoint.hash)
      rcases ih with untouched | ⟨h, stored⟩
      · rw [untouched.inv, keeps.get_empty] at entry
        cases entry
      · right
        refine ⟨h, ?_⟩
        rcases index with same | ⟨data, written⟩
        · rw [same, kept]
          exact stored
        · rw [written, prevNone, kept]
          exact keeps.entry_kept outpoint.hash data stored
  · rintro hnd hash data inv ⟨⟨fresh, cursors⟩, ih⟩ found
    have same := keeps.lookup found
    subst same
    exact ⟨⟨fresh, cursors⟩, ih.imp (fun untouched => ⟨untouched.inv, untouched.spent⟩) id⟩
  · rintro hnd ⟨⟨fresh, cursors⟩, ih⟩
    refine ⟨⟨fresh, cursors⟩, ?_⟩
    rcases ih with untouched | stored
    · exact Or.inl ⟨(keeps.reset hnd.inv).trans untouched.inv, untouched.spent⟩
    · right
      change ∃ hash, (DbEngine.entry (DbEngine.reset hnd.inv) hash).isSome
      rw [keeps.reset]
      exact stored

theorem resetsFresh_iff_empty {strict : Prop} (keeps : KeepsTable ι)
    (reached : DbReached sha256 contents hnd) :
    ResetsFresh sha256 strict hnd ↔ ∀ hash, DbEngine.entry hnd.inv hash = none := by
  constructor
  · intro resets hash
    have seen := resets contents [] fun _ => trivial
    have entries := congrFun (congrArg Prod.snd (Option.some.inj seen)) hash
    change DbEngine.entry (DbEngine.reset hnd.inv) hash = DbEngine.entry InvEngine.empty hash at entries
    rw [keeps.reset, keeps.entry_empty] at entries
    exact entries
  · intro empty contents' calls _
    have untouched : Untouched contents hnd := by
      rcases untouched_or_entry keeps reached with untouched | ⟨hash, stored⟩
      · exact untouched
      · rw [empty] at stored
        cases stored
    obtain ⟨fresh, cursors⟩ := reached.freshSize
    have one : hnd.spentLen = 1 := congrArg SpentMap.spentLen untouched.spent
    have alike : Alike Eq (bzingReset hnd) (bzingAlloc ι contents') :=
      ⟨fresh.sameSize one contents', (keeps.reset hnd.inv).trans untouched.inv, cursors⟩
    exact observe_eq (agrees_calls_eq calls alike) fun s t related => congrArg _ related.inv

end Kept

section Engines

variable {dbs : Databases}

/-- The engines whose table `bzing_reset` empties. -/
def Clears (engine : EngineId) : Prop := engine ∈ [.khash, .align, .tc, .kc, .bdb]

instance (engine : EngineId) : Decidable (Clears engine) :=
  inferInstanceAs (Decidable (engine ∈ [.khash, .align, .tc, .kc, .bdb]))

/-- The engines that make the slot of a hash they do not find. -/
def MakesSlots (engine : EngineId) : Prop := engine ∈ [.khash, .align]

theorem emptied_khash : Emptied (SlotIndex dbs.kh id) where
  lookup _ _ := rfl
  entry _ _ := rfl
  held_empty := dbs.kh.find_empty
  held_reset inv := dbs.find_khClear inv.inv

theorem emptied_align : Emptied (SlotIndex dbs.ah (·.d64 0)) where
  lookup _ _ := rfl
  entry _ _ := rfl
  held_empty := dbs.ah.find_empty
  held_reset inv := dbs.find_ahClear inv.inv

theorem emptied_kc : Emptied (CursorIndex dbs.kc) where
  lookup _ _ := rfl
  entry _ _ := rfl
  held_empty := copyGet_empty dbs.kc.toCopyTable
  held_reset inv hash := congrArg (Option.map castInv) (dbs.get_kcClear inv.inv hash.d8)

theorem emptied_copy (table : Tables.CopyTable (List UInt8) (List UInt8))
    {clear : table.Table → table.Table} (empty : ∀ t d8, table.get (clear t) d8 = none) :
    @Emptied (CopyIndex table) (copyDb table clear) _ :=
  @Emptied.mk (CopyIndex table) (copyDb table clear) _
    (@HoldsEntries.mk (CopyIndex table) (copyDb table clear) _ (fun _ _ => rfl) fun _ _ => rfl)
    (copyGet_empty table) fun inv hash => congrArg (Option.map castInv) (empty inv.inv hash.d8)

theorem isSome_copyGet_copySet (table : Tables.CopyTable (List UInt8) (List UInt8))
    (t : table.Table) (hash : BzUint256) (data : BzInv) :
    (copyGet table (copySet table t hash data) hash).isSome := by
  rw [copyGet_copySet, if_pos rfl]
  rfl

theorem isSome_copyGet_kept (table : Tables.CopyTable (List UInt8) (List UInt8))
    {t : table.Table} (hash : BzUint256) (data : BzInv) {h : BzUint256}
    (stored : (copyGet table t h).isSome) :
    (copyGet table (copySet table t hash data) h).isSome := by
  rw [copyGet_copySet]
  split
  · rfl
  · exact stored

theorem keepsTable_lmc : KeepsTable (LmcIndex dbs.lmc) where
  reset _ := rfl
  noCursors := rfl
  lookup found := by
    cases found
    rfl
  get _ _ := rfl
  get_empty _ := rfl
  entry_empty := copyGet_empty dbs.lmc
  entry_set index := isSome_copyGet_copySet dbs.lmc index.inv
  entry_kept := isSome_copyGet_kept dbs.lmc

theorem keepsTable_ldb : @KeepsTable (CopyIndex dbs.ldb) (copyDb dbs.ldb id) :=
  @KeepsTable.mk (CopyIndex dbs.ldb) (copyDb dbs.ldb id) (fun _ => rfl) rfl
    (fun found => by
      cases found
      rfl)
    (fun _ _ => rfl) (copyGet_empty dbs.ldb) (copyGet_empty dbs.ldb)
    (fun index => isSome_copyGet_copySet dbs.ldb index.inv) (isSome_copyGet_kept dbs.ldb)

theorem keepsTable_sparse : KeepsTable (SparseIndex dbs.sp) where
  reset _ := rfl
  noCursors := rfl
  lookup {inv inv' hash data} found := by
    obtain ⟨pointer, -, returned⟩ := except_bind_ok.mp found
    cases returned
    rfl
  get _ _ := rfl
  get_empty hash := by
    change (dbs.sp.get dbs.sp.empty hash.d8).map _ = none
    rw [dbs.sp.get_empty, Option.map_none]
  entry_empty hash := by
    change (dbs.sp.get dbs.sp.empty hash.d8).map _ = none
    rw [dbs.sp.get_empty, Option.map_none]
  entry_set index hash data := by
    change ((dbs.sp.get (dbs.sp.put index.inv hash.d8 invRecord) hash.d8).map _).isSome
    rw [dbs.sp.get_put_same]
    rfl
  entry_kept {index} hash data h stored := by
    change ((dbs.sp.get (dbs.sp.put index.inv hash.d8 invRecord) h.d8).map _).isSome
    change ((dbs.sp.get index.inv h.d8).map _).isSome at stored
    rw [Option.isSome_map] at stored ⊢
    by_cases same : h.d8 = hash.d8
    · rw [same, dbs.sp.get_put_same]
      rfl
    · rw [dbs.sp.get_put_ne _ _ same]
      exact stored

/-- After `bzing_reset` the user sees a fresh database exactly when no slot had been taken, with
the engines whose table is emptied, and when nothing was stored, with the others. -/
theorem resetsFresh_iff {sha256 : List UInt8 → BzUint256} {contents : Nat → UInt8}
    {engine : EngineId} {hnd : BzingHandle (EngineIndex dbs engine)}
    (reached : DbReached sha256 contents hnd) :
    ResetsFresh sha256 (MakesSlots engine) hnd ↔
      if Clears engine then hnd.spentLen = 1
      else ∀ hash, DbEngine.entry hnd.inv hash = none := by
  have slots : ∀ {engine}, engine ∈ [EngineId.khash, .align] → ∀ {P : Prop},
      ¬ MakesSlots engine → P := fun makes _ lax => absurd makes lax
  cases engine with
  | khash =>
    exact resetsFresh_iff_one (ι := SlotIndex dbs.kh id) emptied_khash (slots (by simp)) reached
  | align =>
    exact resetsFresh_iff_one (ι := SlotIndex dbs.ah (·.d64 0)) emptied_align (slots (by simp))
      reached
  | sparse => exact resetsFresh_iff_empty keepsTable_sparse reached
  | lmc => exact resetsFresh_iff_empty keepsTable_lmc reached
  | tc =>
    exact @resetsFresh_iff_one (CopyIndex dbs.tc) (copyDb dbs.tc dbs.tcVanish) _ sha256 contents hnd _
      (emptied_copy dbs.tc dbs.get_tcVanish) (fun _ => misses_of_lawful) reached
  | kc =>
    exact resetsFresh_iff_one (ι := CursorIndex dbs.kc) emptied_kc (fun _ => misses_of_lawful) reached
  | bdb =>
    exact @resetsFresh_iff_one (CopyIndex dbs.bdb) (copyDb dbs.bdb dbs.bdbTruncate) _ sha256 contents
      hnd _ (emptied_copy dbs.bdb dbs.get_bdbTruncate) (fun _ => misses_of_lawful) reached
  | ldb => exact resetsFresh_iff_empty keepsTable_ldb reached

end Engines

/-- Association lists, emptied by forgetting them. -/
def assocDatabases : Databases where
  toLibraries := assocLibraries
  khClear _ := assocLibraries.kh.empty
  ahClear _ := assocLibraries.ah.empty
  tcVanish _ := assocLibraries.tc.empty
  kcClear _ := assocLibraries.kc.empty
  bdbTruncate _ := assocLibraries.bdb.empty
  find_khClear _ := assocLibraries.kh.find_empty
  find_ahClear _ := assocLibraries.ah.find_empty
  get_tcVanish _ := assocLibraries.tc.get_empty
  get_kcClear _ := assocLibraries.kc.get_empty
  get_bdbTruncate _ := assocLibraries.bdb.get_empty

/-- The handle after one block. -/
def afterOne (engine : EngineId) : BzingHandle (EngineIndex assocDatabases engine) :=
  (bzingAlloc _ fun _ => 0).withOne sampleSha256

theorem afterOne_reached (engine : EngineId) :
    DbReached sampleSha256 (fun _ => 0) (afterOne engine) :=
  .call _ .alloc (run_oneBlock _)

/-- With TC, a database with one block and no spends is reset. -/
theorem resetsFresh_afterOne : ResetsFresh sampleSha256 (MakesSlots .tc) (afterOne .tc) :=
  (resetsFresh_iff (afterOne_reached .tc)).mpr (by rw [if_pos (by decide)]; rfl)

/-- With LDB it keeps its entries, and with KHASH, after one spend, the next slots are not the
first. -/
theorem not_resetsFresh_afterOne :
    (DbReached sampleSha256 (fun _ => 0) (afterOne .ldb) ∧
      ¬ ResetsFresh sampleSha256 (MakesSlots .ldb) (afterOne .ldb)) ∧
    ∃ hnd : BzingHandle (EngineIndex assocDatabases .khash),
      DbReached sampleSha256 (fun _ => 0) hnd ∧ ¬ ResetsFresh sampleSha256 (MakesSlots .khash) hnd := by
  refine ⟨⟨afterOne_reached .ldb, ?_⟩, ?_⟩
  · intro resets
    have empty := (@resetsFresh_iff_empty _ (copyDb assocDatabases.ldb id) _ _ _ _ keepsTable_ldb
      (afterOne_reached .ldb)).mp resets (txOne.hash sampleSha256)
    have stored : (DbEngine.entry (afterOne .ldb).inv (txOne.hash sampleSha256)).isSome :=
      isSome_copyGet_copySet assocDatabases.ldb _ _ _
    have absent := stored.symm.trans (congrArg Option.isSome empty)
    cases absent
  · obtain ⟨hnd, marked, len⟩ := mark_alloc_withOne (ι := SlotIndex assocDatabases.kh id)
      sampleSha256 fun _ => 0
    have reached : DbReached sampleSha256 (fun _ => 0) hnd :=
      .call (.mark _ 0) (.call _ .alloc (run_oneBlock _)) (except_map_ok.mpr ⟨_, marked, rfl⟩)
    refine ⟨hnd, reached, ?_⟩
    intro resets
    have one := one_of_resetsFresh (ι := SlotIndex assocDatabases.kh id) reached resets
    rw [len] at one
    revert one
    decide

end Bzing
