import Bzing.Chain.Items
import Bzing.Spent.Refinement
import Mathlib.Algebra.Order.BigOperators.Group.List

/-!
# Where the slots go

Which slots a sequence of spends reserves, and how large the block becomes, depends on the
output counts of the transactions spent and on nothing else: `SlotPlan` works it out. A
reservation doubles the block at most once (`bzing.c:269-288`), however many slots it takes, so
a slot may come to lie behind the block. `PlanFits` says that none does, and
`perform_planned` that these are the sequences that run to their end.
-/

namespace Bzing

/-- The length of the spent map in slots, its size in bytes, and the first slot of every
    transaction that has slots. -/
structure SlotPlan where
  len : Nat
  size : Nat
  base : BzUint256 → Option Nat

namespace SlotPlan

/-- The plan of a fresh handle. -/
def start : SlotPlan := ⟨1, 4096, fun _ => none⟩

/-- The first time an output of `hash` is spent, the slots for all `n` outputs are reserved
    behind the slots there are, and the block doubles if it is too small. -/
def reserve (plan : SlotPlan) (hash : BzUint256) (n : Nat) : SlotPlan :=
  match plan.base hash with
  | some _ => plan
  | none =>
    { len := plan.len + n
      size := if plan.size < 8 * (plan.len + n) then 2 * plan.size else plan.size
      base := Function.update plan.base hash (some plan.len) }

/-- The slot of the output lies in the block. -/
def Holds (plan : SlotPlan) (outpoint : Outpoint) : Prop :=
  ∃ base ∈ plan.base outpoint.hash, 8 * (base + outpoint.index.toNat + 1) ≤ plan.size

instance (plan : SlotPlan) (outpoint : Outpoint) : Decidable (plan.Holds outpoint) :=
  inferInstanceAs (Decidable (∃ base ∈ plan.base outpoint.hash, _))

theorem reserve_known {plan : SlotPlan} {hash : BzUint256} {base : Nat}
    (known : plan.base hash = some base) (n : Nat) : plan.reserve hash n = plan := by
  unfold reserve
  rw [known]

theorem reserve_new {plan : SlotPlan} {hash : BzUint256} (new : plan.base hash = none) (n : Nat) :
    plan.reserve hash n =
      ⟨plan.len + n, if plan.size < 8 * (plan.len + n) then 2 * plan.size else plan.size,
        Function.update plan.base hash (some plan.len)⟩ := by
  unfold reserve
  rw [new]

theorem holds_iff {plan : SlotPlan} {outpoint : Outpoint} {base : Nat}
    (known : plan.base outpoint.hash = some base) :
    plan.Holds outpoint ↔ 8 * (base + outpoint.index.toNat + 1) ≤ plan.size := by
  constructor
  · rintro ⟨base', found, holds⟩
    cases known.symm.trans found
    exact holds
  · intro fits
    exact ⟨base, known, fits⟩

end SlotPlan

/-- The slot of every outpoint spent lies in the block at the time; `count` gives the output
    counts of the transactions spent. -/
def PlanFits (count : BzUint256 → Nat) : SlotPlan → List Outpoint → Prop
  | _, [] => True
  | plan, outpoint :: outpoints =>
    (plan.reserve outpoint.hash (count outpoint.hash)).Holds outpoint ∧
      PlanFits count (plan.reserve outpoint.hash (count outpoint.hash)) outpoints

instance decidablePlanFits (count : BzUint256 → Nat) :
    (plan : SlotPlan) → (outpoints : List Outpoint) → Decidable (PlanFits count plan outpoints)
  | _, [] => inferInstanceAs (Decidable True)
  | plan, outpoint :: outpoints =>
    have := decidablePlanFits count (plan.reserve outpoint.hash (count outpoint.hash)) outpoints
    inferInstanceAs (Decidable (_ ∧ _))

/-- Transactions with at most 512 outputs, eight bytes each, always fit: a block of at least
    4096 bytes that is full has room for them when it has doubled. -/
theorem planFits_of_few {count : BzUint256 → Nat} {outpoints : List Outpoint} {plan : SlotPlan}
    (few : ∀ outpoint ∈ outpoints, count outpoint.hash ≤ 512 ∧
      outpoint.index.toNat < count outpoint.hash)
    (large : 4096 ≤ plan.size) (room : 8 * plan.len ≤ plan.size)
    (inside : ∀ {h base}, plan.base h = some base → base + count h ≤ plan.len) :
    PlanFits count plan outpoints := by
  induction outpoints generalizing plan with
  | nil => trivial
  | cons outpoint outpoints ih =>
    obtain ⟨small, index⟩ := few outpoint List.mem_cons_self
    have few' : ∀ o ∈ outpoints, count o.hash ≤ 512 ∧ o.index.toNat < count o.hash := by
      intro o member
      exact few o (List.mem_cons_of_mem _ member)
    cases known : plan.base outpoint.hash with
    | some base =>
      have below := inside known
      have same := plan.reserve_known known (count outpoint.hash)
      rw [PlanFits, same]
      exact ⟨⟨base, known, by omega⟩, ih few' large room inside⟩
    | none =>
      have new := plan.reserve_new known (count outpoint.hash)
      rw [PlanFits, new]
      refine ⟨⟨plan.len, Function.update_self _ _ _, ?_⟩, ih few' ?_ ?_ ?_⟩
      · show 8 * (plan.len + outpoint.index.toNat + 1) ≤ ite _ _ _
        split <;> omega
      · show 4096 ≤ ite _ _ _
        split <;> omega
      · show 8 * (plan.len + count outpoint.hash) ≤ ite _ _ _
        split <;> omega
      · intro h base found
        show base + count h ≤ plan.len + count outpoint.hash
        by_cases own : h = outpoint.hash
        · rw [own] at found ⊢
          have first := (Function.update_self outpoint.hash (some plan.len) plan.base).symm.trans
            found
          cases first
          exact Nat.le_refl _
        · have before := (Function.update_of_ne own (some plan.len) plan.base).symm.trans found
          have := inside before
          omega

/-! ## Plans and stores -/

namespace Capacity

variable {m m' : SpentMap}

/-- A reservation in range returns. -/
theorem reserve_isOk (cap : Capacity m) (n : UInt32)
    (low : m.spentLen.toNat ≤ bzTxiSpentMax.toNat) :
    ∃ m', bzingSpentReserve m n.toUInt64 = .ok (m.spentLen, m') ∧ Reserved m n.toUInt64 m' := by
  by_cases fits : (m.spentLen + n.toUInt64) * 8 ≤ m.spentSize
  · exact reserve_fits cap.sized fits
  · have full := UInt64.not_le.mp fits
    apply reserve_grows cap.sized full
    have limit : bzTxiSpentMax.toNat = 0x00fffffeffffffff := by rfl
    have eight : (8 : UInt64).toNat = 8 := by rfl
    have bound := n.toNat_lt
    have full := UInt64.lt_iff_toNat_lt.mp full
    rw [UInt64.toNat_mul, UInt64.toNat_add, UInt32.toNat_toUInt64, eight] at full
    omega

theorem size_reserved (cap : Capacity m) {n : UInt32} (reserved : Reserved m n.toUInt64 m') :
    m'.spentSize.toNat =
      if m.spentSize.toNat < 8 * (m.spentLen.toNat + n.toNat) then 2 * m.spentSize.toNat
      else m.spentSize.toNat := by
  have bytes := cap.toNat_len_mul reserved
  have len := cap.len_reserved reserved
  rcases reserved.grown with ⟨-, same, fits⟩ | ⟨-, double, full⟩
  · have fits := UInt64.le_iff_toNat_le.mp fits
    rw [if_neg (by omega), same]
  · have full := UInt64.lt_iff_toNat_lt.mp full
    rw [if_pos (by omega), double]

end Capacity

namespace SlotPlan

/-- The store is laid out by the plan. -/
structure Follows (count : BzUint256 → Nat) (plan : SlotPlan) (s : Store) (l : Ledger) :
    Prop where
  len : s.spent.spentLen.toNat = plan.len
  size : s.spent.spentSize.toNat = plan.size
  counted : ∀ {h start nTxout spender}, l h = some (.tx start nTxout spender) →
    count h = nTxout.toNat
  bare : ∀ {h start nTxout spender}, l h = some (.tx start nTxout spender) →
    plan.base h = none → s.find h = some ⟨start, bzTxiSpentUmark ||| nTxout.toUInt64⟩
  slots : ∀ {h base}, plan.base h = some base →
    ∃ nTxout spender word, Slots s l h nTxout spender word base

theorem follows_alloc (count : BzUint256 → Nat) (contents : Nat → UInt8) :
    start.Follows count (Store.alloc contents) Ledger.empty where
  len := rfl
  size := rfl
  counted known := by cases known
  bare known := by cases known
  slots known := by cases known

namespace Follows

variable {count : BzUint256 → Nat} {plan : SlotPlan} {s : Store} {l : Ledger}
  {outpoint : Outpoint} {offset : UInt64}

/-- Inserting an unknown hash. -/
theorem set (follows : plan.Follows count s l) {hash : BzUint256} {data : BzInv}
    {e : LedgerEntry} (unknown : l hash = none)
    (fresh : ∀ start nTxout spender, e = .tx start nTxout spender →
      count hash = nTxout.toNat ∧ data = ⟨start, bzTxiSpentUmark ||| nTxout.toUInt64⟩) :
    plan.Follows count (s.set hash data) (Function.update l hash (some e)) where
  len := follows.len
  size := follows.size
  counted {h start nTxout spender} known := by
    by_cases own : h = hash
    · rw [own, Function.update_self] at known
      rw [own]
      exact (fresh _ _ _ (Option.some.inj known)).1
    · rw [Function.update_of_ne own] at known
      exact follows.counted known
  bare {h start nTxout spender} known new := by
    by_cases own : h = hash
    · rw [own, Function.update_self] at known
      rw [own, Store.set_find, if_pos rfl]
      exact congrArg some (fresh _ _ _ (Option.some.inj known)).2
    · rw [Function.update_of_ne own] at known
      rw [Store.set_find, if_neg own]
      exact follows.bare known new
  slots {h base} reserved := by
    obtain ⟨n, spender, word, slots⟩ := follows.slots reserved
    have other : h ≠ hash := by
      rintro rfl
      obtain ⟨_, known, -⟩ := slots.entry
      rw [unknown] at known
      cases known
    refine ⟨n, spender, word, slots.congr ?_ ?_⟩
    · rw [Store.set_find, if_neg other]
    · rw [Function.update_of_ne other]

/-- A mark that leaves the transaction's slots where the new plan has them. -/
theorem marked {plan' : SlotPlan} {s' : Store} {start : UInt64} {nTxout : UInt32}
    {spender : UInt32 → Option UInt64} {word : UInt64} {pos : Nat}
    (follows : plan.Follows count s l)
    (known : l outpoint.hash = some (.tx start nTxout spender))
    (len : s'.spent.spentLen.toNat = plan'.len) (size : s'.spent.spentSize.toNat = plan'.size)
    (own : plan'.base outpoint.hash = some pos)
    (others : ∀ h ≠ outpoint.hash, plan'.base h = plan.base h) (allocated : IsAllocated word pos)
    (find : ∀ h, s'.find h = if h = outpoint.hash then
      some ⟨start, word ||| quickBit outpoint.index.toNat⟩ else s.find h) :
    plan'.Follows count s' (l.step (.spend outpoint offset)) where
  len := len
  size := size
  counted {h start' n spender'} known' := by
    by_cases same : h = outpoint.hash
    · obtain ⟨spender'', after⟩ := Ledger.step_spend_same offset known
      rw [same, after] at known'
      cases known'
      rw [same]
      exact follows.counted known
    · rw [Ledger.step_spend_ne same] at known'
      exact follows.counted known'
  bare {h start' n spender'} known' new := by
    have other : h ≠ outpoint.hash := by
      rintro rfl
      rw [own] at new
      cases new
    rw [Ledger.step_spend_ne other] at known'
    rw [others h other] at new
    rw [find, if_neg other]
    exact follows.bare known' new
  slots {h base} reserved := by
    by_cases same : h = outpoint.hash
    · obtain ⟨spender', after⟩ := Ledger.step_spend_same offset known
      rw [same, own] at reserved
      cases reserved
      rw [same]
      exact ⟨nTxout, spender', _, ⟨start, after, by rw [find, if_pos rfl]⟩,
        allocated.or_quickBit _⟩
    · rw [others h same] at reserved
      obtain ⟨n, spender', word', slots⟩ := follows.slots reserved
      refine ⟨n, spender', word', slots.congr ?_ ?_⟩
      · rw [find, if_neg same]
      · rw [Ledger.step_spend_ne same]

/-- What a mark does is what the plan says. -/
theorem placed {s' : Store} {ret : UInt64} (cap : Capacity s.spent)
    (follows : plan.Follows count s l) (known : l.Known outpoint)
    (placed : Placed s l outpoint offset ret s') :
    (plan.reserve outpoint.hash (count outpoint.hash)).Follows count s'
      (l.step (.spend outpoint offset)) := by
  obtain ⟨start, nTxout, spender, known, index⟩ := known
  have counted := follows.counted known
  cases placed with
  | refused nothing => exact absurd nothing (Ledger.Known.not_refused ⟨_, _, _, known, index⟩)
  | @first _ _ _ spent _ known' entry reserved allocated slot find =>
    rw [known] at known'
    cases known'
    have new : plan.base outpoint.hash = none := by
      cases base : plan.base outpoint.hash with
      | none => rfl
      | some pos =>
        obtain ⟨_, _, _, slots⟩ := follows.slots base
        obtain ⟨_, -, entry'⟩ := slots.entry
        rw [entry] at entry'
        cases entry'
        exact absurd slots.allocated (not_isAllocated_umark nTxout pos)
    obtain ⟨-, len, size⟩ := SpentMap.setSlot_eq_some.mp slot
    rw [SlotPlan.reserve_new new, counted]
    refine follows.marked known ?_ ?_ (Function.update_self _ _ _)
      (fun h other => Function.update_of_ne other _ _) (follows.len ▸ allocated) find
    · rw [len, cap.len_reserved reserved, follows.len]
    · rw [size, cap.size_reserved reserved, follows.len, follows.size]
  | @again _ _ _ word pos _ known' entry allocated slot find =>
    rw [known] at known'
    cases known'
    obtain ⟨-, len, size⟩ := SpentMap.setSlot_eq_some.mp slot
    cases base : plan.base outpoint.hash with
    | none =>
      have fresh := follows.bare known base
      rw [entry] at fresh
      cases fresh
      exact absurd allocated (not_isAllocated_umark nTxout _)
    | some pos' =>
      obtain ⟨_, _, _, slots⟩ := follows.slots base
      obtain ⟨_, -, entry'⟩ := slots.entry
      rw [entry] at entry'
      cases entry'
      have same : pos.toNat = pos' := allocated.base.symm.trans slots.allocated.base
      rw [SlotPlan.reserve_known base]
      refine follows.marked known ?_ ?_ (base.trans (congrArg some same.symm))
        (fun _ _ => rfl) allocated find
      · rw [len, follows.len]
      · rw [size, follows.size]

/-- A mark returns exactly when the plan holds its slot. -/
theorem mark_holds (cap : Capacity s.spent) (follows : plan.Follows count s l) (offset : UInt64)
    (known : l.Known outpoint)
    (le : (plan.reserve outpoint.hash (count outpoint.hash)).len ≤ bzTxiSpentMax.toNat) :
    ((plan.reserve outpoint.hash (count outpoint.hash)).Holds outpoint ∧
      ∃ ret s', s.mark outpoint offset = .ok (ret, s') ∧
        s'.spent.spentLen.toNat ≤ bzTxiSpentMax.toNat) ∨
    ¬ (plan.reserve outpoint.hash (count outpoint.hash)).Holds outpoint ∧
      s.mark outpoint offset = .error .slotOutside := by
  obtain ⟨start, nTxout, spender, known, index⟩ := known
  cases base : plan.base outpoint.hash with
  | none =>
    rw [SlotPlan.reserve_new base, follows.counted known] at le ⊢
    have low : s.spent.spentLen.toNat ≤ bzTxiSpentMax.toNat := by
      rw [follows.len]
      exact Nat.le_trans (Nat.le_add_right _ _) le
    have outputs : nTxout ≠ 0 := by
      rintro rfl
      exact UInt32.not_lt_zero index
    obtain ⟨spent, reserve, reserved⟩ := cap.reserve_isOk nTxout low
    have len := cap.len_reserved reserved
    have size := cap.size_reserved reserved
    rw [follows.len] at len
    rw [follows.len, follows.size] at size
    have slot := slotIndex_of_le low outpoint.index
    rw [follows.len] at slot
    have placed : (Function.update plan.base outpoint.hash (some plan.len)) outpoint.hash =
      some plan.len := Function.update_self _ _ _
    rw [Store.mark_first (follows.bare known base) (classify_unallocated nTxout) outputs reserve,
      holds_iff placed, ← size]
    rcases Store.write_cases (s := { s with spent := spent })
        ⟨start, bzTxiSpentUmark ||| nTxout.toUInt64⟩ offset s.spent.spentLen reserved.sized slot
      with ⟨fits, ret, s', ok, kept⟩ | outside
    · refine Or.inl ⟨fits, ret, s', ok, ?_⟩
      rw [kept, len]
      exact le
    · exact Or.inr outside
  | some pos =>
    rw [SlotPlan.reserve_known base] at le ⊢
    obtain ⟨_, _, word, slots⟩ := follows.slots base
    obtain ⟨start', -, entry⟩ := slots.entry
    have first := slots.allocated.toNat_and_mask
    have slot := slotIndex_of_le (first ▸ slots.allocated.pos_le) outpoint.index
    rw [first] at slot
    rw [Store.mark_again entry slots.allocated.classify_eq, holds_iff base, ← follows.size]
    rcases Store.write_cases ⟨start', word⟩ offset word cap.sized slot with
      ⟨fits, ret, s', ok, kept⟩ | outside
    · refine Or.inl ⟨fits, ret, s', ok, ?_⟩
      rw [kept, follows.len]
      exact le
    · exact Or.inr outside

end Follows

/-- The outputs of the listed transactions that have no slots. -/
def unreserved (count : BzUint256 → Nat) (hashes : List BzUint256) (plan : SlotPlan) : Nat :=
  (hashes.map fun h => if plan.base h = none then count h else 0).sum

theorem sum_map_add_le {α : Type} {f g : α → Nat} {l : List α} {a : α} {c : Nat}
    (member : a ∈ l) (le : ∀ x, g x ≤ f x) (drop : g a + c ≤ f a) :
    (l.map g).sum + c ≤ (l.map f).sum := by
  obtain ⟨front, back, rfl⟩ := List.append_of_mem member
  have first := List.sum_le_sum (l := front) fun x _ => le x
  have last := List.sum_le_sum (l := back) fun x _ => le x
  simp only [List.map_append, List.map_cons, List.sum_append, List.sum_cons]
  omega

/-- A reservation takes its slots from those to come. -/
theorem reserve_unreserved (count : BzUint256 → Nat) {hashes : List BzUint256} {hash : BzUint256}
    (member : hash ∈ hashes) (plan : SlotPlan) :
    (plan.reserve hash (count hash)).len +
        (plan.reserve hash (count hash)).unreserved count hashes ≤
      plan.len + plan.unreserved count hashes := by
  cases base : plan.base hash with
  | some pos => rw [SlotPlan.reserve_known base]
  | none =>
    rw [SlotPlan.reserve_new base]
    have taken : SlotPlan.unreserved count hashes
          ⟨plan.len + count hash,
            if plan.size < 8 * (plan.len + count hash) then 2 * plan.size else plan.size,
            Function.update plan.base hash (some plan.len)⟩ + count hash ≤
        plan.unreserved count hashes := by
      refine sum_map_add_le member ?_ ?_
      · intro h
        by_cases own : h = hash
        · simp [own]
        · simp [Function.update_of_ne own]
      · simp [base]
    change plan.len + count hash + _ ≤ _
    omega

end SlotPlan

/-! ## Runs -/

/-- The outpoint an operation spends. -/
def LedgerOp.outpoint? : LedgerOp → Option Outpoint
  | .spend outpoint _ => some outpoint
  | _ => none

/-- A store laid out by a plan that cannot run out of range. -/
structure Planned (count : BzUint256 → Nat) (hashes : List BzUint256) (plan : SlotPlan)
    (s : Store) (l : Ledger) : Prop where
  cap : Capacity s.spent
  lay : Layout s l
  follows : plan.Follows count s l
  short : plan.len + plan.unreserved count hashes ≤ bzTxiSpentMax.toNat

section Planned

open Handler

variable {count : BzUint256 → Nat} {hashes : List BzUint256} {plan : SlotPlan} {s : Store}
  {l : Ledger}

/-- Inserting an unknown hash. -/
theorem Planned.set (planned : Planned count hashes plan s l) {hash : BzUint256} {data : BzInv}
    {e : LedgerEntry} (unknown : l hash = none) (shape : Shape (some data) (some e))
    (bare : ∀ pos, ¬ IsAllocated data.spent pos)
    (fresh : ∀ start nTxout spender, e = .tx start nTxout spender →
      count hash = nTxout.toNat ∧ data = ⟨start, bzTxiSpentUmark ||| nTxout.toUInt64⟩) :
    Planned count hashes plan (s.set hash data) (Function.update l hash (some e)) :=
  ⟨planned.cap, layout_set planned.lay shape bare, planned.follows.set unknown fresh,
    planned.short⟩

/-- Marking a known output. -/
theorem Planned.spend (planned : Planned count hashes plan s l) {outpoint : Outpoint}
    (offset : UInt64) (known : l.Known outpoint) (member : outpoint.hash ∈ hashes) :
    ((plan.reserve outpoint.hash (count outpoint.hash)).Holds outpoint ∧
      ∃ s', (storeHandler (.mark outpoint offset)).run s = .ok ((), s') ∧
        Planned count hashes (plan.reserve outpoint.hash (count outpoint.hash)) s'
          (l.step (.spend outpoint offset))) ∨
    ¬ (plan.reserve outpoint.hash (count outpoint.hash)).Holds outpoint ∧
      (storeHandler (.mark outpoint offset)).run s = .error .slotOutside := by
  have short := Nat.le_trans (SlotPlan.reserve_unreserved count member plan) planned.short
  rcases planned.follows.mark_holds planned.cap offset known
      (Nat.le_trans (Nat.le_add_right _ _) short) with
    ⟨holds, ret, s', ok, le⟩ | ⟨outside, failed⟩
  · have placed := mark_placed planned.cap planned.lay ok le
    exact Or.inl ⟨holds, s', storeHandler_mark_ok ok, (capacity_mark planned.cap ok).1,
      layout_mark planned.cap planned.lay placed,
      planned.follows.placed planned.cap known placed, short⟩
  · exact Or.inr ⟨outside, storeHandler_mark_error failed⟩

/-- A run on a store laid out by a plan ends exactly when the plan fits. -/
theorem perform_planned {ops : List LedgerOp} (planned : Planned count hashes plan s l)
    (along : l.Along (Ledger.Extends count) ops)
    (named : ∀ outpoint ∈ ops.filterMap LedgerOp.outpoint?, outpoint.hash ∈ hashes) :
    (PlanFits count plan (ops.filterMap LedgerOp.outpoint?) ∧
      ∃ s', (perform storeHandler (ops.map LedgerOp.indexOp)).run s = .ok ((), s') ∧
        s'.spent.spentLen.toNat ≤ bzTxiSpentMax.toNat) ∨
    ¬ PlanFits count plan (ops.filterMap LedgerOp.outpoint?) ∧
      ∃ e, (perform storeHandler (ops.map LedgerOp.indexOp)).run s = .error e := by
  induction ops generalizing plan s l with
  | nil =>
    refine Or.inl ⟨trivial, s, rfl, ?_⟩
    rw [planned.follows.len]
    exact Nat.le_trans (Nat.le_add_right _ _) planned.short
  | cons op ops ih =>
    cases op with
    | insertBlock hash offset =>
      have inserted := planned.set along.1 (.block offset) not_isAllocated_uint64Max
        fun _ _ _ none => by cases none
      exact ih inserted along.2 named
    | insertTx hash offset nTxout =>
      have inserted := planned.set along.1.1 (.fresh offset nTxout fun _ => none)
        (not_isAllocated_umark nTxout) fun start n spender same => by
          cases same
          exact ⟨along.1.2, rfl⟩
      exact ih inserted along.2 named
    | spend outpoint offset =>
      have named' : ∀ o ∈ ops.filterMap LedgerOp.outpoint?, o.hash ∈ hashes := by
        intro o member
        exact named o (List.mem_cons_of_mem _ member)
      rcases planned.spend offset along.1 (named outpoint List.mem_cons_self) with
        ⟨holds, s', first, planned'⟩ | ⟨outside, failed⟩
      · have run : (perform storeHandler ((LedgerOp.spend outpoint offset :: ops).map
            LedgerOp.indexOp)).run s =
            (perform storeHandler (ops.map LedgerOp.indexOp)).run s' := by
          rw [List.map_cons, perform_cons, LedgerOp.indexOp, StateT.run_bind, first]
          rfl
        rw [run]
        rcases ih planned' along.2 named' with ⟨fits, ends⟩ | ⟨not_fits, fails⟩
        · exact Or.inl ⟨⟨holds, fits⟩, ends⟩
        · exact Or.inr ⟨fun both => not_fits both.2, fails⟩
      · exact Or.inr ⟨fun both => outside both.1, _, run_bind_error.mpr (Or.inl failed)⟩

end Planned

end Bzing
