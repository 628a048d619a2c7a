import Bzing.Chain.Words
import Bzing.Spent.Clear

/-!
# The quick spent index

The quick bits of a word repeat what the slots say along a run exactly when every reservation
of the run finds its slots in the block, doubled at most once, and zero: what `clear_step_iff`
says of one operation, `agreesAlong_iff` says of the states between any two operations of a run.
`quickIndexAgrees_iff` adds what that asks of the memory `malloc` returned.
-/

namespace Bzing

open Handler

variable {ι : Type} [InvEngine ι] [LawfulInvEngine ι] {sha256 : List UInt8 → BzUint256}
  {contents : Nat → UInt8}

/-- The handle is reached by a run that marks existing outputs as spent, at positions other than
zero, and leaves `spent_len` in range. -/
structure HonestRun (sha256 : List UInt8 → BzUint256) (contents : Nat → UInt8)
    (hnd : BzingHandle ι) (history : List LedgerOp) : Prop where
  reach : Reachable sha256 contents hnd history
  known : Ledger.empty.Along Ledger.Allows history
  offsets : ∀ outpoint v, .spend outpoint v ∈ history → v ≠ 0
  le : hnd.spentLen ≤ bzTxiSpentMax

/-- The index agrees with the slots in every state that honest runs reach. -/
def QuickIndexAgrees (ι : Type) [InvEngine ι] [LawfulInvEngine ι]
    (sha256 : List UInt8 → BzUint256) (contents : Nat → UInt8) : Prop :=
  ∀ (hnd : BzingHandle ι) (history : List LedgerOp), HonestRun sha256 contents hnd history →
    QuickAgrees hnd.store (Ledger.empty.steps history)

namespace BzingHandle

/-- The index agrees with the slots before the first of the operations and after each. -/
def AgreesAlong (hnd : BzingHandle ι) (l : Ledger) : List LedgerOp → Prop
  | [] => QuickAgrees hnd.store l
  | op :: ops => QuickAgrees hnd.store l ∧
      ∀ hnd', (indexHandler op.indexOp).run hnd = .ok ((), hnd') → hnd'.AgreesAlong (l.step op) ops

/-- Every operation satisfies `allowed` on the store it comes to. -/
def Along (allowed : Store → LedgerOp → Prop) (hnd : BzingHandle ι) : List LedgerOp → Prop
  | [] => True
  | op :: ops => allowed hnd.store op ∧
      ∀ hnd', (indexHandler op.indexOp).run hnd = .ok ((), hnd') → hnd'.Along allowed ops

end BzingHandle

section Runs

variable {hnd hnd' : BzingHandle ι} {l : Ledger} {op : LedgerOp} {ops : List LedgerOp}

theorem agreesAlong_first (agrees : hnd.AgreesAlong l ops) : QuickAgrees hnd.store l := by
  cases ops with
  | nil => exact agrees
  | cons op ops => exact agrees.1

theorem agreesAlong_last (agrees : hnd.AgreesAlong l ops)
    (run : (perform indexHandler (ops.map LedgerOp.indexOp)).run hnd = .ok ((), hnd')) :
    QuickAgrees hnd'.store (l.steps ops) := by
  induction ops generalizing hnd l with
  | nil =>
    obtain ⟨-, rfl⟩ := run_pure_ok.mp run
    exact agrees
  | cons op ops ih =>
    obtain ⟨_, hnd1, first, rest⟩ := run_bind_ok.mp run
    exact ih (agrees.2 hnd1 first) rest

/-- An operation has one outcome. -/
theorem agreesAlong_cons (first : (indexHandler op.indexOp).run hnd = .ok ((), hnd')) :
    hnd.AgreesAlong l (op :: ops) ↔
      QuickAgrees hnd.store l ∧ hnd'.AgreesAlong (l.step op) ops := by
  refine and_congr_right fun _ => ⟨fun all => all hnd' first, ?_⟩
  intro agrees hnd1 again
  cases first.symm.trans again
  exact agrees

theorem along_cons {allowed : Store → LedgerOp → Prop}
    (first : (indexHandler op.indexOp).run hnd = .ok ((), hnd')) :
    hnd.Along allowed (op :: ops) ↔ allowed hnd.store op ∧ hnd'.Along allowed ops := by
  refine and_congr_right fun _ => ⟨fun all => all hnd' first, ?_⟩
  intro along hnd1 again
  cases first.symm.trans again
  exact along

/-- The invariants of an honest run. -/
structure HonestState (s : Store) (l : Ledger) : Prop where
  cap : Capacity s.spent
  lay : Layout s l
  recorded : Recorded s l
  nonzero : l.Nonzero

theorem honestState_alloc (contents : Nat → UInt8) :
    HonestState (bzingAlloc ι contents).store Ledger.empty := by
  rw [bzingAlloc_store]
  exact ⟨capacity_alloc contents, layout_alloc contents, recorded_alloc contents,
    fun known => by cases known⟩

theorem honestState_step {s s' : Store} (state : HonestState s l) (allowed : l.Allows op)
    (offset : ∀ outpoint v, op = .spend outpoint v → v ≠ 0)
    (ok : (storeHandler op.indexOp).run s = .ok ((), s'))
    (le : s'.spent.spentLen.toNat ≤ bzTxiSpentMax.toNat) : HonestState s' (l.step op) where
  cap := (capacity_step state.cap ok).1
  lay := layout_step state.cap state.lay ok le
  recorded := recorded_step state.cap state.lay state.recorded allowed ok le
  nonzero := Ledger.nonzero_step state.nonzero offset

/-- The first operation of an honest run, on the store, and what is left of the run. -/
theorem honest_cons (state : HonestState hnd.store l) (known : l.Along Ledger.Allows (op :: ops))
    (offsets : ∀ outpoint v, .spend outpoint v ∈ op :: ops → v ≠ 0)
    (run : (perform indexHandler ((op :: ops).map LedgerOp.indexOp)).run hnd = .ok ((), hnd'))
    (le : hnd'.spentLen.toNat ≤ bzTxiSpentMax.toNat) :
    ∃ hnd1, (indexHandler op.indexOp).run hnd = .ok ((), hnd1) ∧
      (storeHandler op.indexOp).run hnd.store = .ok ((), hnd1.store) ∧
      hnd1.store.spent.spentLen.toNat ≤ bzTxiSpentMax.toNat ∧
      HonestState hnd1.store (l.step op) ∧
      (perform indexHandler (ops.map LedgerOp.indexOp)).run hnd1 = .ok ((), hnd') := by
  obtain ⟨_, hnd1, first, rest⟩ := run_bind_ok.mp run
  have ok := indexHandler_store_ok first
  have cap1 := (capacity_step state.cap ok).1
  have le1 := Nat.le_trans (capacity_perform cap1 (perform_store_ok rest)).2 le
  refine ⟨hnd1, first, ok, le1, honestState_step state known.1 ?_ ok le1, rest⟩
  rintro outpoint v rfl
  exact offsets outpoint v List.mem_cons_self

/-- The index agrees with the slots along a run exactly when each reservation of the run finds
room for its slots and leaves them zero. -/
theorem agreesAlong_iff (state : HonestState hnd.store l) (clear : Clear hnd.store l)
    (known : l.Along Ledger.Allows ops) (offsets : ∀ outpoint v, .spend outpoint v ∈ ops → v ≠ 0)
    (run : (perform indexHandler (ops.map LedgerOp.indexOp)).run hnd = .ok ((), hnd'))
    (le : hnd'.spentLen.toNat ≤ bzTxiSpentMax.toNat) :
    hnd.AgreesAlong l ops ↔ hnd.Along ReservesInside ops ∧ hnd.Along ReservesZero ops := by
  have agrees := (quickAgrees_iff_clear state.recorded state.nonzero).mpr clear
  induction ops generalizing hnd l with
  | nil => exact iff_of_true agrees ⟨trivial, trivial⟩
  | cons op ops ih =>
    obtain ⟨hnd1, first, ok, le1, state1, rest⟩ := honest_cons state known offsets run le
    have step := clear_step_iff state.cap state.lay state.recorded clear known.1 ok le1
    have clear_iff := quickAgrees_iff_clear state1.recorded state1.nonzero
    have later : ∀ outpoint v, .spend outpoint v ∈ ops → v ≠ 0 :=
      fun outpoint v member => offsets outpoint v (List.mem_cons_of_mem _ member)
    rw [agreesAlong_cons first, along_cons first, along_cons first]
    constructor
    · rintro ⟨-, agrees1⟩
      have clear1 := clear_iff.mp (agreesAlong_first agrees1)
      obtain ⟨inside, zero⟩ := step.mp clear1
      obtain ⟨insides, zeros⟩ :=
        (ih state1 clear1 known.2 later rest (clear_iff.mpr clear1)).mp agrees1
      exact ⟨⟨inside, insides⟩, zero, zeros⟩
    · rintro ⟨⟨inside, insides⟩, zero, zeros⟩
      have clear1 := step.mpr ⟨inside, zero⟩
      exact ⟨agrees, (ih state1 clear1 known.2 later rest (clear_iff.mpr clear1)).mpr
        ⟨insides, zeros⟩⟩

/-- Where all slots never written are zero, those taken are. -/
theorem along_reservesZero (state : HonestState hnd.store l) (blank : Blank hnd.store l)
    (known : l.Along Ledger.Allows ops) (offsets : ∀ outpoint v, .spend outpoint v ∈ ops → v ≠ 0)
    (run : (perform indexHandler (ops.map LedgerOp.indexOp)).run hnd = .ok ((), hnd'))
    (le : hnd'.spentLen.toNat ≤ bzTxiSpentMax.toNat) : hnd.Along ReservesZero ops := by
  induction ops generalizing hnd l with
  | nil => trivial
  | cons op ops ih =>
    obtain ⟨hnd1, first, ok, le1, state1, rest⟩ := honest_cons state known offsets run le
    have blank1 := blank_step state.cap state.lay blank known.1 ok le1
    refine (along_cons first).mpr ⟨?_, ih state1 blank1 known.2
      (fun outpoint v member => offsets outpoint v (List.mem_cons_of_mem _ member)) rest⟩
    cases op with
    | spend outpoint offset =>
      intro _ _ i _ _ v read
      exact blank.unreserved _ (Nat.le_add_right _ _) v read
    | _ => trivial

end Runs

section Honest

variable {hnd : BzingHandle ι} {history : List LedgerOp}

theorem HonestRun.agreesAlong_iff (honest : HonestRun sha256 contents hnd history) :
    (bzingAlloc ι contents).AgreesAlong Ledger.empty history ↔
      (bzingAlloc ι contents).Along ReservesInside history ∧
        (bzingAlloc ι contents).Along ReservesZero history := by
  have clear : Clear (bzingAlloc ι contents).store Ledger.empty := by
    rw [bzingAlloc_store]
    exact clear_alloc contents
  exact Bzing.agreesAlong_iff (honestState_alloc contents) clear honest.known honest.offsets
    (reachable_perform honest.reach) (UInt64.le_iff_toNat_le.mp honest.le)

theorem HonestRun.reservesZero (honest : HonestRun sha256 contents hnd history)
    (zero : ∀ i, 8 ≤ i → i < 4096 → contents i = 0) :
    (bzingAlloc ι contents).Along ReservesZero history := by
  have blank : Blank (bzingAlloc ι contents).store Ledger.empty := by
    rw [bzingAlloc_store]
    exact blank_alloc zero
  exact along_reservesZero (honestState_alloc contents) blank honest.known honest.offsets
    (reachable_perform honest.reach) (UInt64.le_iff_toNat_le.mp honest.le)

theorem quickAgrees_of_zero (honest : HonestRun sha256 contents hnd history)
    (inside : (bzingAlloc ι contents).Along ReservesInside history)
    (zero : ∀ i, 8 ≤ i → i < 4096 → contents i = 0) :
    QuickAgrees hnd.store (Ledger.empty.steps history) :=
  agreesAlong_last (honest.agreesAlong_iff.mpr ⟨inside, honest.reservesZero zero⟩)
    (reachable_perform honest.reach)

end Honest

/-- A block, a transaction of `n` outputs, and the mark of one of them. -/
def markOps (block tx : BzUint256) (start : UInt64) (n j : UInt32) : List LedgerOp :=
  [.insertBlock block 88, .insertTx tx start n, .spend (.of tx j) 1]

/-- The ledger and the store before the mark. -/
def insertedLedger (block tx : BzUint256) (start : UInt64) (n : UInt32) : Ledger :=
  Ledger.empty.steps [.insertBlock block 88, .insertTx tx start n]

def insertedStore (contents : Nat → UInt8) (block tx : BzUint256) (start : UInt64)
    (n : UInt32) : Store :=
  ((Store.alloc contents).set block ⟨88, uint64Max⟩).set tx
    ⟨start, bzTxiSpentUmark ||| n.toUInt64⟩

section MarkOps

variable (contents : Nat → UInt8) (block tx : BzUint256) (start : UInt64) (n j : UInt32)

theorem insertedLedger_tx : insertedLedger block tx start n (Outpoint.of tx j).hash =
    some (.tx start n fun _ => none) := by
  rw [Outpoint.hash_of]
  exact Function.update_self _ _ _

theorem insertedStore_takes {m : UInt32} :
    Takes (insertedStore contents block tx start n) (.of tx j) m ↔ m = n := by
  apply takes_iff
  rw [Outpoint.hash_of, insertedStore, Store.set_find, if_pos rfl]

theorem sound_block : Sound ((Store.alloc contents).set block ⟨88, uint64Max⟩)
    (Ledger.empty.step (.insertBlock block 88)) := by
  have admits : Admits (Store.alloc contents) Ledger.empty (.insertBlock block 88) := trivial
  obtain ⟨s, ran, sound⟩ := sound_step (sound_alloc contents) admits
  cases ran
  exact sound

theorem sound_inserted :
    Sound (insertedStore contents block tx start n) (insertedLedger block tx start n) := by
  have admits : Admits ((Store.alloc contents).set block ⟨88, uint64Max⟩)
    (Ledger.empty.step (.insertBlock block 88)) (.insertTx tx start n) := trivial
  obtain ⟨s, ran, sound⟩ := sound_step (sound_block contents block) admits
  cases ran
  exact sound

theorem inserted_len : (insertedStore contents block tx start n).spent.spentLen.toNat = 1 := by
  rfl

theorem clear_inserted :
    Clear (insertedStore contents block tx start n) (insertedLedger block tx start n) :=
  clear_set (clear_set (clear_alloc contents) not_isAllocated_uint64Max) (not_isAllocated_umark n)

/-- The transaction has the marked output. -/
theorem markOps_known {j : UInt32} (index : j < n) :
    Ledger.empty.Along Ledger.Allows (markOps block tx start n j) := by
  refine ⟨trivial, trivial, ⟨start, n, fun _ => none, insertedLedger_tx block tx start n j, ?_⟩,
    trivial⟩
  rw [Outpoint.index_of]
  exact index

theorem markOps_offsets :
    ∀ outpoint v, .spend outpoint v ∈ markOps block tx start n j → v ≠ 0 := by
  intro outpoint v member
  simp only [markOps, List.mem_cons, LedgerOp.spend.injEq, reduceCtorEq, List.not_mem_nil,
    or_false, false_or] at member
  rw [member.2]
  decide

end MarkOps

section Fill

variable (contents : Nat → UInt8) (block tx : BzUint256) (start : UInt64) {j : UInt32}

/-- 511 slots fill the fresh block. -/
theorem inserted_fits :
    (insertedStore contents block tx start 511).spent.FitsDoubled (511 : UInt32).toUInt64 := by
  have size : (Store.alloc contents).spent.spentSize.toNat = 4096 := by rfl
  have outputs : (511 : UInt32).toUInt64.toNat = 511 := by rfl
  left
  rw [inserted_len, insertedStore, Store.set_spent, Store.set_spent, size, outputs]

/-- The mark returns. -/
theorem markOps_returns (index : j < 511) :
    ∃ s, (storeHandler (.mark (.of tx j) 1)).run (insertedStore contents block tx start 511) =
        .ok ((), s) ∧ Sound s ((insertedLedger block tx start 511).step (.spend (.of tx j) 1)) := by
  have le : ((Store.alloc contents).set block ⟨88, uint64Max⟩).spent.spentLen.toNat +
      (511 : UInt32).toNat ≤ bzTxiSpentMax.toNat := by
    rw [Store.set_spent]
    change 1 + 511 ≤ bzTxiSpentMax.toNat
    decide
  exact sound_step (sound_inserted contents block tx start 511)
    (admits_inserted tx start 1 (sound_block contents block) index
      (inserted_fits contents block tx start) le)

/-- Its reservation fits. -/
theorem markOps_inside :
    (bzingAlloc ι contents).Along ReservesInside (markOps block tx start 511 j) := by
  refine ⟨trivial, fun hnd1 first => ⟨trivial, fun hnd2 second => ⟨?_, fun _ _ => trivial⟩⟩⟩
  have store : hnd2.store = insertedStore contents block tx start 511 := by
    rw [indexHandler_set_store second, indexHandler_set_store first, bzingAlloc_store]
    rfl
  intro n takes
  rw [store] at takes ⊢
  cases (insertedStore_takes contents block tx start 511 j).mp takes
  exact inserted_fits contents block tx start

end Fill

/-- A transaction that fills the fresh spent map. -/
def fillTx : Tx := sampleTx 1 [] 511 (by decide)

def fillBlock : Block := ⟨sampleHeader 0, [fillTx]⟩

def fillCalls (sha256 : List UInt8 → BzUint256) (j : UInt32) : List Call :=
  [.blockAdd fillBlock 8, .spentMark (.of (fillTx.hash sha256) j) 1]

theorem fillCalls_ops (j : UInt32) : (fillCalls sha256 j).flatMap (Call.ops sha256) =
    markOps (fillBlock.hash sha256) (fillTx.hash sha256) 89 511 j := by
  have count : fillTx.nTxout = 511 := by
    rw [Tx.nTxout, fillTx, sampleTx, List.length_replicate]
    rfl
  have text : (putVarInt 1).length = 1 := by decide
  simp only [fillCalls, markOps, fillBlock, Call.ops, Block.ops, txOps, Tx.spends, count, text,
    List.flatMap_cons, List.flatMap_nil, List.length_cons, List.length_nil, if_true,
    List.nil_append, List.cons_append]
  rfl

set_option maxRecDepth 100000 in
theorem fillCalls_short (j : UInt32) : ∀ call ∈ fillCalls sha256 j, call.Short := by
  refine List.forall_mem_cons.mpr ⟨?_, List.forall_mem_singleton.mpr trivial⟩
  exact Call.short_blockAdd (by decide +kernel) (by decide)

/-- Another output than the given one. -/
theorem exists_other (i : Nat) : ∃ j : UInt32, j < 511 ∧ j.toNat ≠ i := by
  by_cases zero : i = 0
  · exact ⟨1, by decide, by rw [zero]; decide⟩
  · exact ⟨0, by decide, fun same => zero same.symm⟩

/-- A handle is reached by adding the block and marking the output. -/
theorem fillCalls_reach (sha256 : List UInt8 → BzUint256) (contents : Nat → UInt8) {j : UInt32}
    (index : j < 511) :
    ∃ hnd : BzingHandle ι,
      HonestRun sha256 contents hnd (markOps (fillBlock.hash sha256) (fillTx.hash sha256) 89 511 j) ∧
      (storeHandler (.mark (.of (fillTx.hash sha256) j) 1)).run
        (insertedStore contents (fillBlock.hash sha256) (fillTx.hash sha256) 89 511) =
          .ok ((), hnd.store) ∧
      Sound hnd.store ((insertedLedger (fillBlock.hash sha256) (fillTx.hash sha256) 89 511).step
        (.spend (.of (fillTx.hash sha256) j) 1)) := by
  obtain ⟨s, returns, sound⟩ :=
    markOps_returns contents (fillBlock.hash sha256) (fillTx.hash sha256) 89 index
  have run : (perform storeHandler (((fillCalls sha256 j).flatMap (Call.ops sha256)).map
      LedgerOp.indexOp)).run (bzingAlloc ι contents).store = .ok ((), s) := by
    rw [fillCalls_ops, bzingAlloc_store]
    exact run_bind_ok.mpr ⟨(), _, rfl, run_bind_ok.mpr ⟨(), _, rfl,
      run_bind_ok.mpr ⟨(), s, returns, rfl⟩⟩⟩
  obtain ⟨hnd, rfl, reach⟩ := reachable_calls (fillCalls_short j) .alloc run
  rw [List.nil_append, fillCalls_ops] at reach
  exact ⟨hnd, ⟨reach, markOps_known _ _ _ _ index, markOps_offsets _ _ _ _ _,
    UInt64.le_iff_toNat_le.mpr sound.le⟩, returns, sound⟩

/-- Where the index agrees in all runs whose reservations fit, the first block is zero behind
its first slot. -/
theorem zero_of_quickAgrees
    (agrees : ∀ (hnd : BzingHandle ι) (history : List LedgerOp),
      HonestRun sha256 contents hnd history →
      (bzingAlloc ι contents).Along ReservesInside history →
      QuickAgrees hnd.store (Ledger.empty.steps history)) :
    ∀ i, 8 ≤ i → i < 4096 → contents i = 0 := by
  intro i above below
  -- byte `i` lies in the slot of output `i / 8 - 1`; another output is marked
  obtain ⟨j, index, other⟩ := exists_other (i / 8 - 1)
  obtain ⟨hnd, honest, returns, sound⟩ := fillCalls_reach (ι := ι) sha256 contents index
  generalize fillBlock.hash sha256 = block at honest returns sound
  generalize fillTx.hash sha256 = tx at honest returns sound
  have nonzero : Ledger.empty.Nonzero := fun known => by cases known
  have clear := (quickAgrees_iff_clear sound.recorded
    (Ledger.nonzero_steps nonzero honest.offsets)).mp (agrees hnd _ honest (markOps_inside _ _ _ _))
  have before := sound_inserted contents block tx 89 511
  have zeros : ReservesZero _ (.spend (.of tx j) 1) := ((clear_step_iff before.cap before.lay
    before.recorded (clear_inserted contents block tx 89 511) honest.known.2.2.1 returns
    sound.le).mp clear).2
  have output : (UInt32.ofNat (i / 8 - 1)).toNat = i / 8 - 1 := by
    rw [UInt32.toNat_ofNat', Nat.mod_eq_of_lt (by omega)]
  have inside : UInt32.ofNat (i / 8 - 1) < 511 := by
    rw [UInt32.lt_iff_toNat_lt, output]
    change _ < 511
    omega
  have ne : UInt32.ofNat (i / 8 - 1) ≠ (Outpoint.of tx j).index := by
    rw [Outpoint.index_of]
    rintro rfl
    exact other output
  have zero := zeros 511 ((insertedStore_takes contents block tx 89 511 j).mpr rfl) _ inside ne
  rw [inserted_len, output, Nat.add_sub_cancel' (by omega)] at zero
  have isSome : ((Store.alloc contents).spent.slot (i / 8)).isSome :=
    (capacity_alloc contents).sized.slot_isSome_iff.mpr (by change _ ≤ 4096; omega)
  obtain ⟨v, read⟩ := Option.isSome_iff_exists.mp isSome
  have bytes := (slot_alloc read).2.mp (zero v read) (i % 8) (by omega)
  rwa [Nat.div_add_mod] at bytes

/-- In an honest run the quick index agrees with the slots in every state exactly when all
reservations fit the block, doubled at most once, and find zeros; that those which fit find
zeros, whatever the run, asks that `malloc` returned zero bytes from the first reservable slot
on. -/
theorem quickIndexAgrees_iff :
    (∀ (hnd : BzingHandle ι) (history : List LedgerOp), HonestRun sha256 contents hnd history →
      ((bzingAlloc ι contents).AgreesAlong Ledger.empty history ↔
        (bzingAlloc ι contents).Along ReservesInside history ∧
          (bzingAlloc ι contents).Along ReservesZero history)) ∧
    ((∀ (hnd : BzingHandle ι) (history : List LedgerOp), HonestRun sha256 contents hnd history →
      (bzingAlloc ι contents).Along ReservesInside history →
        QuickAgrees hnd.store (Ledger.empty.steps history)) ↔
      ∀ i, 8 ≤ i → i < 4096 → contents i = 0) :=
  ⟨fun _ _ honest => honest.agreesAlong_iff,
    zero_of_quickAgrees, fun zero _ _ honest inside => quickAgrees_of_zero honest inside zero⟩

/-- On a zeroed block, a run that fills it. -/
theorem quickIndexAgrees_fill :
    ∃ (hnd : BzingHandle IdealIndex) (history : List LedgerOp),
      HonestRun sampleSha256 (fun _ => 0) hnd history ∧
      (bzingAlloc IdealIndex fun _ => 0).AgreesAlong Ledger.empty history := by
  obtain ⟨hnd, honest, -, -⟩ := fillCalls_reach (ι := IdealIndex) sampleSha256 (fun _ => 0)
    (j := 0) (by decide)
  exact ⟨hnd, _, honest, (quickIndexAgrees_iff.1 hnd _ honest).mpr
    ⟨markOps_inside _ _ _ _, honest.reservesZero fun _ _ _ => rfl⟩⟩

/-- Adding the block of the wide transaction and marking its first output. -/
def wideCalls : List Call := [.blockAdd blockWide 8, .spentMark (.of hashWide 0) 1]

/-- The store of these calls: slot 1024 lies behind the block. -/
def wideMarked (s : Store) : Bool :=
  s.spent.spentLen = 1025 && s.find hashWide = some ⟨89, 1 ||| quickBit 0⟩ &&
    s.spent.slot 1024 = none

set_option maxRecDepth 100000 in
theorem wideCalls_returns :
    ((perform storeHandler
        ((wideCalls.flatMap (Call.ops sampleSha256)).map LedgerOp.indexOp)).run
      (Store.alloc fun _ => 0)).toOption.any (fun r => wideMarked r.2) = true := by
  decide +kernel

set_option maxRecDepth 100000 in
theorem wideCalls_ops : wideCalls.flatMap (Call.ops sampleSha256) =
    markOps (blockWide.hash sampleSha256) hashWide 89 1024 0 := by
  decide +kernel

/-- Bytes `malloc` returned can make an unspent output look spent, and the slot of an unspent
output can lie outside the block. -/
theorem not_quickIndexAgrees :
    ¬ QuickIndexAgrees IdealIndex sampleSha256 (fun _ => 0xff) ∧
      ¬ QuickIndexAgrees IdealIndex sampleSha256 (fun _ => 0) := by
  constructor
  · intro agrees
    have zero := zero_of_quickAgrees fun hnd history honest _ => agrees hnd history honest
    exact absurd (zero 8 (by decide) (by decide)) (by decide)
  · intro agrees
    have short : ∀ call ∈ wideCalls, call.Short := by
      refine List.forall_mem_cons.mpr ⟨?_, List.forall_mem_singleton.mpr trivial⟩
      exact Call.short_blockAdd (by decide +kernel) (by decide)
    obtain ⟨hnd, reach, marked⟩ := reachable_of_returns (ι := IdealIndex) short (p := wideMarked)
      wideCalls_returns
    rw [wideCalls_ops] at reach
    simp only [wideMarked, Bool.and_eq_true, decide_eq_true_eq] at marked
    obtain ⟨⟨len, entry⟩, outside⟩ := marked
    have le : hnd.spentLen ≤ bzTxiSpentMax := by
      rw [show hnd.spentLen = 1025 from len]
      decide
    have honest := HonestRun.mk reach (markOps_known _ _ _ _ (by decide))
      (markOps_offsets _ _ _ _ _) le
    have allocated : IsAllocated 1 (1 : UInt64).toNat := isAllocated_self (by decide) (by decide)
    obtain ⟨spender, known⟩ := Ledger.step_spend_same 1
      (insertedLedger_tx (blockWide.hash sampleSha256) hashWide 89 1024 0)
    rw [Outpoint.hash_of] at known
    have slots : Slots hnd.store _ hashWide 1024 spender _ 1 :=
      ⟨⟨89, known, entry⟩, allocated.or_quickBit 0⟩
    obtain ⟨v, read, -⟩ := (agrees hnd _ honest).slot slots 1023 (by decide)
    rw [show 1 + (1023 : UInt32).toNat = 1024 from rfl, outside] at read
    cases read

end Bzing
