import Bzing.Spent.Refinement

/-!
# The recorded spender of an output

`Store.spender` reads it the way the spent map is laid out: through the entry of the
transaction, its quick bit and its slot. What the invariants say about it, and that operations
on other outputs leave it as it is, once the transaction has slots (`spender_perform`): before
that, the slots they reserve may hold anything.
-/

namespace Bzing

/-- The recorded spender of an output: none if its transaction has no slots, if the quick bit
    of the output is clear, or if its slot is zero. -/
def Store.spender (s : Store) (hash : BzUint256) (i : UInt32) : Option UInt64 :=
  (s.find hash).bind fun data =>
    if i.toNat < 8 ∧ hasQuickBit data.spent i.toNat = false then none
    else (s.recorded hash i).filter (· ≠ 0)

section Reading

variable {s : Store} {l : Ledger} {h : BzUint256} {start word : UInt64} {pos : Nat}

theorem Store.spender_eq (entry : s.find h = some ⟨start, word⟩) (allocated : IsAllocated word pos)
    (i : UInt32) :
    s.spender h i = if i.toNat < 8 ∧ hasQuickBit word i.toNat = false then none
      else (s.spent.slot (pos + i.toNat)).filter (· ≠ 0) := by
  rw [spender, entry, Option.bind_some, Store.recorded_marked entry allocated]

theorem Store.spender_fresh {nTxout : UInt32}
    (entry : s.find h = some ⟨start, bzTxiSpentUmark ||| nTxout.toUInt64⟩) (i : UInt32) :
    s.spender h i = none := by
  have kind : classify (bzTxiSpentUmark ||| nTxout.toUInt64) = .unallocated nTxout :=
    classify_unallocated nTxout
  have nothing : s.recorded h i = none := by
    unfold Store.recorded
    rw [entry]
    simp only [Option.bind_some, kind]
  rw [spender, entry, Option.bind_some, nothing]
  exact ite_self none

variable {nTxout : UInt32} {spender : UInt32 → Option UInt64} {i : UInt32}

/-- The spender of a spent output is read back, unless it stands at position zero. -/
theorem Recorded.spender_some (rec : Recorded s l) (slots : Slots s l h nTxout spender word pos)
    (inside : i < nTxout) {v : UInt64} (spent : spender i = some v) :
    s.spender h i = (some v).filter (· ≠ 0) := by
  obtain ⟨start, -, entry⟩ := slots.entry
  have bit : ¬ (i.toNat < 8 ∧ hasQuickBit word i.toNat = false) := by
    rintro ⟨small, clear⟩
    rw [rec.quick slots i small, spent] at clear
    cases clear
  rw [Store.spender_eq entry slots.allocated, if_neg bit, rec.slot slots i inside v spent]

/-- An unspent output has no spender, where its quick bit or a slot of zero says so. -/
theorem Recorded.spender_none (rec : Recorded s l) (slots : Slots s l h nTxout spender word pos)
    (inside : i < nTxout) (unspent : spender i = none) (clear : i.toNat < 8 ∨ Blank s l) :
    s.spender h i = none := by
  obtain ⟨start, -, entry⟩ := slots.entry
  rw [Store.spender_eq entry slots.allocated]
  by_cases small : i.toNat < 8
  · have bit : hasQuickBit word i.toNat = false := by
      rw [rec.quick slots i small, unspent]
      rfl
    rw [if_pos ⟨small, bit⟩]
  · have blank := clear.resolve_left small
    rw [if_neg fun both => small both.1, Option.filter_eq_none_iff]
    intro v read
    simp [blank.unspent slots i inside unspent v read]

end Reading

theorem Reserved.slot_nonzero {m m' : SpentMap} {count : UInt64} (reserved : Reserved m count m')
    (cap : Capacity m) (k : Nat) : (m'.slot k).filter (· ≠ 0) = (m.slot k).filter (· ≠ 0) := by
  cases before : m.slot k with
  | some v => rw [reserved.slot_eq before]
  | none =>
    rw [Option.filter_none, Option.filter_eq_none_iff]
    intro v read
    simp [reserved.slot_zero cap (by simp [before]) read]

/-- The operation spends the output. -/
def LedgerOp.SpendsOutput (h : BzUint256) (i : UInt32) : LedgerOp → Prop
  | .spend outpoint _ => outpoint.hash = h ∧ outpoint.index = i
  | _ => False

/-- The transaction has slots, and the output has the spender given. -/
structure HasSpender (s : Store) (l : Ledger) (h : BzUint256) (nTxout i : UInt32)
    (v : Option UInt64) : Prop where
  slots : ∃ spender word pos, Slots s l h nTxout spender word pos
  spender : s.spender h i = v

section Others

variable {s s' : Store} {l : Ledger} {h : BzUint256} {nTxout i : UInt32} {v : Option UInt64}

theorem HasSpender.congr (has : HasSpender s l h nTxout i v) {l' : Ledger}
    (find : s'.find h = s.find h) (known : l' h = l h)
    (slots : ∀ {spender word pos}, Slots s l h nTxout spender word pos →
      (s'.spent.slot (pos + i.toNat)).filter (· ≠ 0) =
        (s.spent.slot (pos + i.toNat)).filter (· ≠ 0)) : HasSpender s' l' h nTxout i v := by
  obtain ⟨⟨spender, word, pos, own⟩, read⟩ := has
  obtain ⟨start, -, entry⟩ := own.entry
  refine ⟨⟨spender, word, pos, own.congr find known⟩, ?_⟩
  rw [← read, Store.spender_eq entry own.allocated,
    Store.spender_eq (find.trans entry) own.allocated, slots own]

/-- A mark of another output, of this or another transaction. -/
theorem HasSpender.mark {outpoint : Outpoint} {offset ret : UInt64} (cap : Capacity s.spent)
    (lay : Layout s l) (has : HasSpender s l h nTxout i v) (inside : i < nTxout)
    (known : l.Known outpoint) (other : ¬ (outpoint.hash = h ∧ outpoint.index = i))
    (placed : Placed s l outpoint offset ret s') :
    HasSpender s' (l.step (.spend outpoint offset)) h nTxout i v := by
  obtain ⟨⟨spender, word, pos, slots⟩, read⟩ := has
  obtain ⟨⟨spender', word', slots', change⟩, kept⟩ := slots_placed lay known placed slots
  have other : h ≠ outpoint.hash ∨ i ≠ outpoint.index := by
    by_contra both
    rw [not_or, not_not, not_not] at both
    exact other ⟨both.1.symm, both.2.symm⟩
  obtain ⟨m, grown, slot⟩ := kept i inside other
  obtain ⟨start, -, entry⟩ := slots.entry
  obtain ⟨start', -, entry'⟩ := slots'.entry
  have slot : (s'.spent.slot (pos + i.toNat)).filter (· ≠ 0) =
      (s.spent.slot (pos + i.toNat)).filter (· ≠ 0) := by
    rw [slot]
    rcases grown with rfl | ⟨count, reserved⟩
    · rfl
    · exact reserved.slot_nonzero cap _
  refine ⟨⟨spender', word', pos, slots'⟩, ?_⟩
  rw [← read, Store.spender_eq entry slots.allocated, Store.spender_eq entry' slots'.allocated, slot]
  rcases change with rfl | ⟨own, rfl⟩
  · rfl
  · -- the word has another quick bit
    have apart : outpoint.index.toNat ≠ i.toNat := fun same =>
      other.resolve_left (not_not.mpr own) (UInt32.toNat_inj.mp same.symm)
    by_cases small : i.toNat < 8
    · rw [hasQuickBit_or small]
      simp [apart]
    · simp [small]

/-- An operation on other outputs than this one. -/
def Ledger.Elsewhere (h : BzUint256) (i : UInt32) (l : Ledger) (op : LedgerOp) : Prop :=
  l.Allows op ∧ ¬ op.Inserts h ∧ ¬ op.SpendsOutput h i

theorem HasSpender.step {op : LedgerOp} (cap : Capacity s.spent) (lay : Layout s l)
    (has : HasSpender s l h nTxout i v) (inside : i < nTxout) (elsewhere : l.Elsewhere h i op)
    (ok : (storeHandler op.indexOp).run s = .ok ((), s'))
    (le : s'.spent.spentLen.toNat ≤ bzTxiSpentMax.toNat) :
    HasSpender s' (l.step op) h nTxout i v := by
  obtain ⟨allowed, inserts, spends⟩ := elsewhere
  cases op with
  | insertBlock hash offset =>
    cases ok
    have ne : h ≠ hash := fun same => inserts same.symm
    exact has.congr (by rw [Store.set_find, if_neg ne]) (Function.update_of_ne ne _ _) fun _ => rfl
  | insertTx hash offset n =>
    cases ok
    have ne : h ≠ hash := fun same => inserts same.symm
    exact has.congr (by rw [Store.set_find, if_neg ne]) (Function.update_of_ne ne _ _) fun _ => rfl
  | spend outpoint offset =>
    rcases storeHandler_ok ok with ⟨hash, inv, eq, -⟩ | ⟨p, o, ret, eq, marked⟩
    · cases eq
    · cases eq
      exact has.mark cap lay inside allowed spends (mark_placed cap lay marked le)

/-- Operations on other outputs keep the recorded spender of an output of a transaction with
slots. -/
theorem spender_perform {ops : List LedgerOp} (cap : Capacity s.spent) (lay : Layout s l)
    {spender : UInt32 → Option UInt64} {word : UInt64} {pos : Nat}
    (slots : Slots s l h nTxout spender word pos) (inside : i < nTxout)
    (elsewhere : l.Along (Ledger.Elsewhere h i) ops)
    (run : (Handler.perform storeHandler (ops.map LedgerOp.indexOp)).run s = .ok ((), s'))
    (le : s'.spent.spentLen.toNat ≤ bzTxiSpentMax.toNat) :
    HasSpender s' (l.steps ops) h nTxout i (s.spender h i) := by
  refine (perform_keeps (P := fun t k => Layout t k ∧ HasSpender t k h nTxout i (s.spender h i))
    ?_ cap elsewhere run le ⟨lay, ⟨spender, word, pos, slots⟩, rfl⟩).2
  intro op t t' k cap inv elsewhere ok le
  exact ⟨layout_step cap inv.1 ok le, inv.2.step cap inv.1 inside elsewhere ok le⟩

end Others

end Bzing
