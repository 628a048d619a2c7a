import Bzing.Data.BumpRanges
import Bzing.Spent.Store
import Mathlib.Logic.Function.Basic

/-!
# The ledger

What the index and the spent map are for, without bits, slots or growth: every known hash is a
block or a transaction, and every output of a transaction has at most one recorded spender.
`Ledger.step` says what each operation does to that; `LedgerOp.indexOp` is the operation of
the source that carries it out (`bzing.c:674-708`).
-/

namespace Bzing

/-- What is known of a hash. A spender is the file position of the spending transaction. -/
inductive LedgerEntry where
  | block (offset : UInt64)
  | tx (offset : UInt64) (nTxout : UInt32) (spender : UInt32 → Option UInt64)

/-- The recorded history, by hash. -/
abbrev Ledger := BzUint256 → Option LedgerEntry

inductive LedgerOp where
  | insertBlock (hash : BzUint256) (offset : UInt64)
  | insertTx (hash : BzUint256) (offset : UInt64) (nTxout : UInt32)
  | spend (outpoint : Outpoint) (offset : UInt64)
  deriving DecidableEq

/-- The operation inserts an entry for `h`. -/
def LedgerOp.Inserts (h : BzUint256) : LedgerOp → Prop
  | .insertBlock hash _ => hash = h
  | .insertTx hash _ _ => hash = h
  | .spend _ _ => False

namespace Ledger

def empty : Ledger := fun _ => none

/-- Inserting replaces the entry; a spend is recorded if the transaction has the output. -/
def step (l : Ledger) : LedgerOp → Ledger
  | .insertBlock hash offset => Function.update l hash (some (.block offset))
  | .insertTx hash offset nTxout =>
    Function.update l hash (some (.tx offset nTxout fun _ => none))
  | .spend outpoint offset =>
    match l outpoint.hash with
    | some (.tx start nTxout spender) =>
      if outpoint.index < nTxout then
        Function.update l outpoint.hash
          (some (.tx start nTxout (Function.update spender outpoint.index (some offset))))
      else l
    | _ => l

def steps (l : Ledger) (ops : List LedgerOp) : Ledger := ops.foldl step l

@[simp] theorem steps_nil (l : Ledger) : l.steps [] = l := rfl

@[simp] theorem steps_cons (l : Ledger) (op : LedgerOp) (ops : List LedgerOp) :
    l.steps (op :: ops) = (l.step op).steps ops := rfl

theorem steps_append (l : Ledger) (front back : List LedgerOp) :
    l.steps (front ++ back) = (l.steps front).steps back := List.foldl_append

/-- The transaction has the output that is spent. -/
def Known (l : Ledger) (outpoint : Outpoint) : Prop :=
  ∃ start nTxout spender, l outpoint.hash = some (.tx start nTxout spender) ∧
    outpoint.index < nTxout

/-- A mark of a known output is not refused. -/
theorem Known.not_refused {l : Ledger} {outpoint : Outpoint} (known : l.Known outpoint) :
    ¬ ((∃ start, l outpoint.hash = some (.block start)) ∨
      ∃ start spender, l outpoint.hash = some (.tx start 0 spender)) := by
  obtain ⟨start, nTxout, spender, entry, index⟩ := known
  rintro (⟨_, block⟩ | ⟨_, _, none⟩)
  · rw [entry] at block
    cases block
  · rw [entry] at none
    cases none
    exact UInt32.not_lt_zero index

/-- Only outputs that exist are spent. -/
def Allows (l : Ledger) : LedgerOp → Prop
  | .spend outpoint _ => l.Known outpoint
  | _ => True

/-- Every operation satisfies `allowed` when it comes. -/
def Along (allowed : Ledger → LedgerOp → Prop) (l : Ledger) : List LedgerOp → Prop
  | [] => True
  | op :: ops => allowed l op ∧ (l.step op).Along allowed ops

/-- What holds of every operation, whatever the ledger, holds along the way. -/
theorem along_of_forall {P : LedgerOp → Prop} {l : Ledger} {ops : List LedgerOp}
    (all : ∀ op ∈ ops, P op) : l.Along (fun _ op => P op) ops := by
  induction ops generalizing l with
  | nil => trivial
  | cons op ops ih =>
    exact ⟨all op List.mem_cons_self, ih fun o member => all o (List.mem_cons_of_mem _ member)⟩

theorem along_true (l : Ledger) (ops : List LedgerOp) : l.Along (fun _ _ => True) ops :=
  along_of_forall fun _ _ => trivial

theorem step_spend {l : Ledger} {outpoint : Outpoint} {offset start : UInt64}
    {nTxout : UInt32} {spender : UInt32 → Option UInt64}
    (entry : l outpoint.hash = some (.tx start nTxout spender))
    (index : outpoint.index < nTxout) :
    l.step (.spend outpoint offset) = Function.update l outpoint.hash
      (some (.tx start nTxout (Function.update spender outpoint.index (some offset)))) := by
  simp only [step, entry, index, if_true]

/-- A spend changes no other entry. -/
theorem step_spend_ne {l : Ledger} {outpoint : Outpoint} {offset : UInt64} {h : BzUint256}
    (ne : h ≠ outpoint.hash) : l.step (.spend outpoint offset) h = l h := by
  rcases entry : l outpoint.hash with _ | ⟨start⟩ | ⟨start, nTxout, spender⟩
  · simp only [step, entry]
  · simp only [step, entry]
  · simp only [step, entry]
    split
    · exact Function.update_of_ne ne _ _
    · rfl

/-- A spend keeps the position and the output count of its transaction. -/
theorem step_spend_same {l : Ledger} {outpoint : Outpoint} (offset : UInt64) {start : UInt64}
    {nTxout : UInt32} {spender : UInt32 → Option UInt64}
    (entry : l outpoint.hash = some (.tx start nTxout spender)) :
    ∃ spender', l.step (.spend outpoint offset) outpoint.hash =
      some (.tx start nTxout spender') := by
  simp only [step, entry]
  split
  · exact ⟨_, Function.update_self _ _ _⟩
  · exact ⟨spender, entry⟩

/-- An operation forgets no hash. -/
theorem isSome_step {l : Ledger} {op : LedgerOp} {h : BzUint256}
    (known : (l h).isSome ∨ op.Inserts h) : (l.step op h).isSome := by
  cases op with
  | insertBlock hash offset =>
    by_cases own : h = hash
    · rw [step, own, Function.update_self]
      rfl
    · rw [step, Function.update_of_ne own]
      exact known.resolve_right fun inserts => own inserts.symm
  | insertTx hash offset nTxout =>
    by_cases own : h = hash
    · rw [step, own, Function.update_self]
      rfl
    · rw [step, Function.update_of_ne own]
      exact known.resolve_right fun inserts => own inserts.symm
  | spend outpoint offset =>
    have known := known.resolve_right id
    by_cases own : h = outpoint.hash
    · subst own
      rcases entry : l outpoint.hash with _ | ⟨start⟩ | ⟨start, nTxout, spender⟩
      · rw [entry] at known
        cases known
      · simp only [step, entry, Option.isSome_some]
      · obtain ⟨spender', after⟩ := step_spend_same offset entry
        rw [after]
        rfl
    · rw [step_spend_ne own]
      exact known

theorem isSome_steps {l : Ledger} {ops : List LedgerOp} {h : BzUint256}
    (known : (l h).isSome ∨ ∃ op ∈ ops, op.Inserts h) : (l.steps ops h).isSome := by
  induction ops generalizing l with
  | nil => exact known.resolve_right fun ⟨_, member, _⟩ => List.not_mem_nil member
  | cons op ops ih =>
    apply ih
    rcases known with known | ⟨op', member, inserts⟩
    · exact Or.inl (isSome_step (Or.inl known))
    · rcases List.mem_cons.mp member with rfl | later
      · exact Or.inl (isSome_step (Or.inr inserts))
      · exact Or.inr ⟨op', later, inserts⟩

/-- No recorded spender is at position zero. -/
def Nonzero (l : Ledger) : Prop :=
  ∀ {h start nTxout spender}, l h = some (.tx start nTxout spender) →
    ∀ i v, spender i = some v → v ≠ 0

theorem nonzero_step {l : Ledger} {op : LedgerOp} (nonzero : l.Nonzero)
    (offset : ∀ outpoint v, op = .spend outpoint v → v ≠ 0) : (l.step op).Nonzero := by
  intro h start nTxout spender known i v spent
  cases op with
  | insertBlock hash o =>
    by_cases own : h = hash
    · simp only [step, own, Function.update_self] at known
      cases known
    · simp only [step, Function.update_of_ne own] at known
      exact nonzero known i v spent
  | insertTx hash o n =>
    by_cases own : h = hash
    · simp only [step, own, Function.update_self] at known
      cases known
      cases spent
    · simp only [step, Function.update_of_ne own] at known
      exact nonzero known i v spent
  | spend outpoint o =>
    by_cases own : h = outpoint.hash
    · subst own
      rcases entry : l outpoint.hash with _ | ⟨start'⟩ | ⟨start', n, spender'⟩
      · simp only [step, entry] at known
        cases known
      · simp only [step, entry] at known
        cases known
      · by_cases index : outpoint.index < n
        · rw [step_spend entry index, Function.update_self] at known
          cases known
          by_cases same : i = outpoint.index
          · subst same
            rw [Function.update_self] at spent
            cases spent
            exact offset outpoint v rfl
          · rw [Function.update_of_ne same] at spent
            exact nonzero entry i v spent
        · simp only [step, entry, index, if_false] at known
          cases known
          exact nonzero entry i v spent
    · rw [step_spend_ne own] at known
      exact nonzero known i v spent

theorem nonzero_steps {l : Ledger} {ops : List LedgerOp} (nonzero : l.Nonzero)
    (offsets : ∀ outpoint v, .spend outpoint v ∈ ops → v ≠ 0) : (l.steps ops).Nonzero := by
  induction ops generalizing l with
  | nil => exact nonzero
  | cons op ops ih =>
    refine ih (nonzero_step nonzero fun outpoint v h => offsets outpoint v ?_)
      fun outpoint v member => offsets outpoint v (List.mem_cons_of_mem _ member)
    exact h ▸ List.mem_cons_self

end Ledger

/-- The operation on the handle. -/
def LedgerOp.indexOp : LedgerOp → IndexOp
  | .insertBlock hash offset => .set hash ⟨offset, uint64Max⟩
  | .insertTx hash offset nTxout => .set hash ⟨offset, bzTxiSpentUmark ||| nTxout.toUInt64⟩
  | .spend outpoint offset => .mark outpoint offset

end Bzing
