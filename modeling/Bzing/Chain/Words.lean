import Bzing.Chain.Reachable

/-!
# The words of a reachable handle

Every entry of a reachable handle holds one of the three kinds of word, as long as `spent_len`
stays at most `BZ_TXI_SPENT_MAX`, and between two inserts of a hash its word only moves
forward: from an output count to a position, and then to more quick bits
(`bzing.c:601-634`). `EntryStep` is that order on entries, `entryStep_perform` the run.
-/

namespace Bzing

open Handler

/-- How marks may change the word of an entry. -/
inductive WordStep : SpentWord → SpentWord → Prop where
  | same (word : SpentWord) : WordStep word word
  | allocate (nTxout : UInt32) (pos : UInt64) (bits : Fin 8 → Bool) :
      WordStep (.unallocated nTxout) (.allocated pos bits)
  | addBits (pos : UInt64) {bits bits' : Fin 8 → Bool}
      (more : ∀ i, bits i = true → bits' i = true) :
      WordStep (.allocated pos bits) (.allocated pos bits')

/-- How marks may change an entry: its position in the file stays. -/
inductive EntryStep : Option BzInv → Option BzInv → Prop where
  | absent : EntryStep none none
  | present (offset : UInt64) {word word' : SpentWord} (valid : word.Valid)
      (valid' : word'.Valid) (step : WordStep word word') :
      EntryStep (some ⟨offset, word.pack⟩) (some ⟨offset, word'.pack⟩)

theorem WordStep.trans {u v w : SpentWord} (first : WordStep u v) (rest : WordStep v w) :
    WordStep u w := by
  cases first with
  | same => exact rest
  | allocate nTxout pos bits =>
    cases rest with
    | same => exact .allocate nTxout pos bits
    | addBits _ more => exact .allocate nTxout pos _
  | addBits _ more =>
    cases rest with
    | same => exact .addBits _ more
    | addBits _ more' => exact .addBits _ fun i bit => more' i (more i bit)

theorem EntryStep.trans {a b c : Option BzInv} (first : EntryStep a b) (rest : EntryStep b c) :
    EntryStep a c := by
  cases first with
  | absent => exact rest
  | present offset valid valid' step =>
    generalize middle : some (⟨offset, _⟩ : BzInv) = entry at rest
    cases rest with
    | absent => cases middle
    | present offset' valid1 valid2 step' =>
      have inv := Option.some.inj middle
      have packed := congrArg BzInv.spent inv
      cases congrArg BzInv.offset inv
      cases pack_injective valid' valid1 packed
      exact .present offset valid valid2 (step.trans step')

/-- An entry of the shape its ledger entry asks for holds one of the three kinds. -/
theorem Shape.word {data : BzInv} {e : Option LedgerEntry} (shape : Shape (some data) e) :
    ∃ word : SpentWord, word.Valid ∧ data.spent = word.pack := by
  cases shape with
  | block offset => exact ⟨.block, trivial, rfl⟩
  | fresh offset nTxout spender => exact ⟨.unallocated nTxout, trivial, rfl⟩
  | slots offset nTxout spender allocated => exact ⟨_, allocated.eq_pack⟩

theorem Shape.entryStep {entry : Option BzInv} {e : Option LedgerEntry} (shape : Shape entry e) :
    EntryStep entry entry := by
  cases entry with
  | none => exact .absent
  | some data =>
    obtain ⟨offset, spent⟩ := data
    obtain ⟨word, valid, packed⟩ := shape.word
    cases packed
    exact .present offset valid valid (.same word)

/-- Adding a quick bit to an allocated word. -/
theorem IsAllocated.entryStep {word : UInt64} {pos : Nat} (allocated : IsAllocated word pos)
    (offset : UInt64) (i : Nat) :
    EntryStep (some ⟨offset, word⟩) (some ⟨offset, word ||| quickBit i⟩) := by
  obtain ⟨valid, packed⟩ := allocated.eq_pack
  obtain ⟨valid', packed'⟩ := (allocated.or_quickBit i).eq_pack
  rw [or_quickBit_mask] at valid' packed'
  rw [packed']
  nth_rewrite 1 [packed]
  refine .present offset valid valid' (.addBits _ ?_)
  intro j bit
  rw [hasQuickBit_or j.isLt, bit, Bool.true_or]

theorem entryStep_placed {s s' : Store} {l : Ledger} {outpoint : Outpoint}
    {offset ret : UInt64} (lay : Layout s l) (placed : Placed s l outpoint offset ret s')
    (h : BzUint256) : EntryStep (s.find h) (s'.find h) := by
  have same := (lay.shape h).entryStep
  cases placed with
  | refused nothing => exact same
  | @first start nTxout _ _ _ known entry reserved allocated slot find =>
    rw [find]
    split
    · rename_i own
      obtain ⟨valid, packed⟩ := (allocated.or_quickBit outpoint.index.toNat).eq_pack
      rw [own, entry, packed]
      exact @EntryStep.present start (.unallocated nTxout) _ trivial valid (.allocate nTxout _ _)
    · exact same
  | @again start nTxout _ word _ _ known entry allocated slot find =>
    rw [find]
    split
    · rename_i own
      rw [own, entry]
      exact allocated.entryStep start _
    · exact same

theorem entryStep_step {op : LedgerOp} {s s' : Store} {l : Ledger} {h : BzUint256}
    (cap : Capacity s.spent) (lay : Layout s l) (other : ¬ op.Inserts h)
    (ok : (storeHandler op.indexOp).run s = .ok ((), s'))
    (le : s'.spent.spentLen.toNat ≤ bzTxiSpentMax.toNat) :
    EntryStep (s.find h) (s'.find h) := by
  have same := (lay.shape h).entryStep
  cases op with
  | insertBlock hash offset =>
    cases ok
    rwa [Store.set_find, if_neg fun own => other own.symm]
  | insertTx hash offset nTxout =>
    cases ok
    rwa [Store.set_find, if_neg fun own => other own.symm]
  | spend outpoint offset =>
    rcases storeHandler_ok ok with ⟨hash, inv, eq, -⟩ | ⟨p, o, ret, eq, marked⟩
    · cases eq
    · cases eq
      exact entryStep_placed lay (mark_placed cap lay marked le) h

/-- Operations that do not insert a hash move its entry forward. -/
theorem entryStep_perform {ops : List LedgerOp} {s s' : Store} {l : Ledger} {h : BzUint256}
    (cap : Capacity s.spent) (lay : Layout s l) (others : ∀ op ∈ ops, ¬ op.Inserts h)
    (run : (perform storeHandler (ops.map LedgerOp.indexOp)).run s = .ok ((), s'))
    (le : s'.spent.spentLen.toNat ≤ bzTxiSpentMax.toNat) :
    EntryStep (s.find h) (s'.find h) := by
  have along : l.Along (fun _ op => ¬ op.Inserts h) ops := Ledger.along_of_forall others
  refine (perform_keeps (P := fun t k => Layout t k ∧ EntryStep (s.find h) (t.find h))
    ?_ cap along run le ⟨lay, (lay.shape h).entryStep⟩).2
  intro _ _ _ _ cap inv other ok le
  exact ⟨layout_step cap inv.1 ok le,
    inv.2.trans (entryStep_step cap inv.1 other ok le)⟩

section Reached

variable {ι : Type} [InvEngine ι] [LawfulInvEngine ι] {sha256 : List UInt8 → BzUint256}
  {contents : Nat → UInt8} {hnd : BzingHandle ι} {history : List LedgerOp}

theorem reachable_word (reach : Reachable sha256 contents hnd history)
    (le : hnd.spentLen ≤ bzTxiSpentMax) {h : BzUint256} {data : BzInv}
    (entry : hnd.store.find h = some data) :
    ∃ word : SpentWord, word.Valid ∧ data.spent = word.pack := by
  have shape := (reachable_layout reach le).shape h
  rw [entry] at shape
  exact shape.word

/-- Between two points of its history without an insert of `h`, the entry of `h` moves
forward. -/
theorem reachable_entryStep {front mid back : List LedgerOp}
    (reach : Reachable sha256 contents hnd (front ++ mid ++ back))
    (le : hnd.spentLen ≤ bzTxiSpentMax) :
    ∃ before after : BzingHandle ι,
      (perform indexHandler (front.map LedgerOp.indexOp)).run (bzingAlloc ι contents) =
        .ok ((), before) ∧
      (perform indexHandler (mid.map LedgerOp.indexOp)).run before = .ok ((), after) ∧
      ∀ h, (∀ op ∈ mid, ¬ op.Inserts h) → EntryStep (before.store.find h) (after.store.find h) := by
  obtain ⟨before, after, first, second, last⟩ := reachable_split reach
  have cap := perform_alloc_capacity first
  have run := perform_store_ok second
  obtain ⟨cap', grows⟩ := capacity_perform cap run
  have low := Nat.le_trans (capacity_perform cap' (perform_store_ok last)).2
    (UInt64.le_iff_toNat_le.mp le)
  have lay := perform_alloc_layout first (Nat.le_trans grows low)
  exact ⟨before, after, first, second, fun h others => entryStep_perform cap lay others run low⟩

/-- The three kinds of word are told apart up to `BZ_TXI_SPENT_MAX` and no further, a reachable
handle holds no other word, and marks move words forward only. -/
theorem spentWord_unambiguous (reach : Reachable sha256 contents hnd history)
    (le : hnd.spentLen ≤ bzTxiSpentMax) :
    (∀ word : SpentWord, word.Valid → classify word.pack = word) ∧
    (∀ v w : SpentWord, v.Valid → w.Valid → v.pack = w.pack → v = w) ∧
    (∀ bound : UInt64, (∀ pos bits, 1 ≤ pos.toNat → pos ≤ bound →
      classify (SpentWord.allocated pos bits).pack = .allocated pos bits) ↔
        bound ≤ bzTxiSpentMax) ∧
    (∀ h data, hnd.store.find h = some data →
      ∃ word : SpentWord, word.Valid ∧ data.spent = word.pack) ∧
    ∀ front mid back, history = front ++ mid ++ back →
      ∃ before after : BzingHandle ι,
        (perform indexHandler (front.map LedgerOp.indexOp)).run (bzingAlloc ι contents) =
          .ok ((), before) ∧
        (perform indexHandler (mid.map LedgerOp.indexOp)).run before = .ok ((), after) ∧
        ∀ h, (∀ op ∈ mid, ¬ op.Inserts h) →
          EntryStep (before.store.find h) (after.store.find h) := by
  refine ⟨fun word valid => classify_pack valid,
    fun v w valid valid' => pack_injective valid valid',
    classify_allocated_iff,
    fun h data entry => reachable_word reach le entry, ?_⟩
  rintro front mid back rfl
  exact reachable_entryStep reach le

end Reached

/-- Two blocks, one behind the other in a file; the second spends an output of the first. -/
def sampleCalls : List Call := [.blockAdd blockFirst 8, .blockAdd blockSecond 144]

set_option maxRecDepth 100000 in
theorem sampleCalls_short : ∀ call ∈ sampleCalls, call.Short := by
  refine List.forall_mem_cons.mpr ⟨?_, List.forall_mem_singleton.mpr ?_⟩
  · exact Call.short_blockAdd (by decide) (by decide)
  · exact Call.short_blockAdd (by decide) (by decide)

set_option maxRecDepth 100000 in
theorem sampleCalls_returns :
    ((perform storeHandler
        ((sampleCalls.flatMap (Call.ops sampleSha256)).map LedgerOp.indexOp)).run
      (Store.alloc fun _ => 0)).toOption.any (fun r => r.2.spent.spentLen = 3) = true := by
  decide +kernel

/-- The words of the sample's index. -/
theorem spentWord_unambiguous_sample :
    ∃ hnd : BzingHandle IdealIndex, hnd.spentLen = 3 ∧ ∀ h data, hnd.store.find h = some data →
      ∃ word : SpentWord, word.Valid ∧ data.spent = word.pack := by
  obtain ⟨hnd, reach, len⟩ := reachable_of_returns (ι := IdealIndex) sampleCalls_short
    (p := fun s => s.spent.spentLen = 3) sampleCalls_returns
  have len : hnd.spentLen = 3 := of_decide_eq_true len
  have le : hnd.spentLen ≤ bzTxiSpentMax := by
    rw [len]
    decide
  exact ⟨hnd, len, (spentWord_unambiguous reach le).2.2.2.1⟩

end Bzing
