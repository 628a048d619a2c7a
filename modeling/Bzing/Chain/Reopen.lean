import Bzing.Chain.Frame
import Bzing.Index.LastSet

/-!
# Closing and opening a database

The tables of TC, KC, BDB and LDB are kept in files, and `bzing_alloc` (`bzing.c:61-172`) opens
them with what they hold. The slots are not: `bzing_free` (`bzing.c:174-222`) drops them, and the
new handle starts with an empty spent map, to which the positions in the entries mean nothing.
`staysConsistent_iff` says that no transaction with slots survives this.
-/

namespace Bzing

open Handler

/-- A database that is opened again holds the entries it held. -/
structure Persistent (ι : Type) [InvEngine ι] [LawfulInvEngine ι] where
  reopen : ι → ι
  lookup_reopen (inv : ι) (hash : BzUint256) :
    LawfulInvEngine.lookup (reopen inv) hash = LawfulInvEngine.lookup inv hash

section Reopen

variable {ι : Type} [InvEngine ι] [LawfulInvEngine ι]

/-- `bzing_free` and `bzing_alloc`. -/
def bzingReopen (db : Persistent ι) (contents : Nat → UInt8) (hnd : BzingHandle ι) :
    BzingHandle ι :=
  { bzingAlloc ι contents with inv := db.reopen hnd.inv }

theorem bzingReopen_store (db : Persistent ι) (contents : Nat → UInt8) (hnd : BzingHandle ι) :
    (bzingReopen db contents hnd).store = ⟨hnd.store.find, SpentMap.alloc contents⟩ :=
  Store.ext (funext (db.lookup_reopen hnd.inv)) rfl

/-- The entry of a transaction with `n` outputs is allocated, with base `pos`. -/
structure HasSlots (s : Store) (l : Ledger) (h : BzUint256) (pos n : Nat) : Prop where
  entry : ∃ data p bits, s.find h = some data ∧ classify data.spent = .allocated p bits ∧
    pos = p.toNat
  outputs : ∃ start nTxout spender, l h = some (.tx start nTxout spender) ∧ n = nTxout.toNat
  nonempty : 0 < n

/-- The slots of a transaction of the old handle are still its slots in the new one. -/
structure KeepsSlots (old hnd : BzingHandle ι) (h : BzUint256) (pos n : Nat) : Prop where
  inside : ∀ k, pos ≤ k → k < pos + n → 1 ≤ k ∧ k < hnd.spentLen.toNat
  recorded : ∀ i : UInt32, i.toNat < n → ∀ v, old.store.recorded h i = some v →
    hnd.toSpentMap.slot (pos + i.toNat) = some v
  later : ∀ (ops : List IndexOp) (hnd' : BzingHandle ι) (count p : UInt64) (m : SpentMap),
    (perform indexHandler ops).run hnd = .ok ((), hnd') →
    bzingSpentReserve hnd'.toSpentMap count = .ok (p, m) →
    ∀ k, pos ≤ k → k < pos + n → ¬ (p.toNat ≤ k ∧ k < p.toNat + count.toNat)

/-- After closing and opening every allocated transaction keeps its slots. -/
def StaysConsistent (db : Persistent ι) (contents : Nat → UInt8) (hnd : BzingHandle ι)
    (l : Ledger) : Prop :=
  ∀ h pos n, HasSlots (bzingReopen db contents hnd).store l h pos n →
    KeepsSlots hnd (bzingReopen db contents hnd) h pos n

/-- The new spent map has room for none of them. -/
theorem not_keepsSlots (db : Persistent ι) (contents : Nat → UInt8) (hnd : BzingHandle ι)
    {h : BzUint256} {pos n : Nat} (nonempty : 0 < n) :
    ¬ KeepsSlots hnd (bzingReopen db contents hnd) h pos n := by
  intro keeps
  obtain ⟨above, below⟩ := keeps.inside pos (Nat.le_refl pos) (Nat.lt_add_of_pos_right nonempty)
  have len : (bzingReopen db contents hnd).spentLen.toNat = 1 := by rfl
  rw [len] at below
  exact absurd above (Nat.not_le_of_lt below)

/-- Closing and opening keeps index and spent map consistent exactly when no transaction has
slots. -/
theorem staysConsistent_iff (db : Persistent ι) (contents : Nat → UInt8) (hnd : BzingHandle ι)
    (l : Ledger) :
    StaysConsistent db contents hnd l ↔ ∀ h pos n, ¬ HasSlots hnd.store l h pos n := by
  have entries : (bzingReopen db contents hnd).store.find = hnd.store.find := by
    rw [bzingReopen_store]
  have same : ∀ h pos n, HasSlots (bzingReopen db contents hnd).store l h pos n ↔
      HasSlots hnd.store l h pos n := by
    intro h pos n
    constructor
    · rintro ⟨entry, outputs, nonempty⟩
      exact ⟨entries ▸ entry, outputs, nonempty⟩
    · rintro ⟨entry, outputs, nonempty⟩
      exact ⟨entries.symm ▸ entry, outputs, nonempty⟩
  constructor
  · intro stays h pos n has
    exact not_keepsSlots db contents hnd has.nonempty (stays h pos n ((same h pos n).mpr has))
  · intro none h pos n has
    exact absurd ((same h pos n).mp has) (none h pos n)

end Reopen

/-- LDB with an association list for its file. -/
def assocPersistent : Persistent (CopyIndex assocLibraries.ldb) where
  reopen := id
  lookup_reopen _ _ := rfl

/-- The first transaction has the slots `1` and `2`, the second none. In a new spent map the
second is given slot `1` as well, and the slots of the first are empty. -/
def slotsTaken (s : Store) : Bool :=
  s.find hashTwo = some ⟨89, 1 ||| quickBit 1⟩ && s.recorded hashTwo 1 = some 235 &&
    ((Store.mark ⟨s.find, SpentMap.alloc fun _ => 0⟩ (.of hashOne 0) 600).toOption.any fun r =>
      r.2.find hashOne = some ⟨117, 1 ||| quickBit 0⟩ && r.2.recorded hashTwo 0 = some 600)

set_option maxRecDepth 100000 in
theorem sampleCalls_slots :
    ((perform storeHandler
        ((sampleCalls.flatMap (Call.ops sampleSha256)).map LedgerOp.indexOp)).run
      (Store.alloc fun _ => 0)).toOption.any (fun r => slotsTaken r.2) = true := by
  decide +kernel

theorem sampleCalls_outputs :
    (Ledger.empty.steps (sampleCalls.flatMap (Call.ops sampleSha256))).nTxout hashTwo = some 2 := by
  decide +kernel

/-- After two block additions LDB is closed and opened: the first transaction has lost its
slots, and a spend of the second is written over them. -/
theorem not_staysConsistent_sample :
    ∃ hnd : BzingHandle (CopyIndex assocLibraries.ldb),
      Reachable sampleSha256 (fun _ => 0) hnd (sampleCalls.flatMap (Call.ops sampleSha256)) ∧
      ¬ StaysConsistent assocPersistent (fun _ => 0) hnd
        (Ledger.empty.steps (sampleCalls.flatMap (Call.ops sampleSha256))) ∧
      ∃ ret hnd', bzingSpentMark (bzingReopen assocPersistent (fun _ => 0) hnd) (.of hashOne 0) 600 =
        .ok (ret, hnd') ∧ hnd'.store.recorded hashTwo 0 = some 600 := by
  obtain ⟨hnd, reach, taken⟩ := reachable_of_returns (ι := CopyIndex assocLibraries.ldb)
    sampleCalls_short (p := slotsTaken) sampleCalls_slots
  simp only [slotsTaken, Bool.and_eq_true, decide_eq_true_eq] at taken
  obtain ⟨⟨entry, -⟩, after⟩ := taken
  refine ⟨hnd, reach, ?_, ?_⟩
  · intro stays
    obtain ⟨start, spender, known⟩ := Ledger.nTxout_eq_some.mp sampleCalls_outputs
    have base : IsAllocated 1 1 := @isAllocated_self 1 (by decide) (by decide)
    have one : IsAllocated (1 ||| quickBit 1) 1 := base.or_quickBit 1
    have found : (bzingReopen assocPersistent (fun _ => 0) hnd).store.find hashTwo =
        some ⟨89, 1 ||| quickBit 1⟩ := by
      rw [bzingReopen_store]
      exact entry
    have has : HasSlots (bzingReopen assocPersistent (fun _ => 0) hnd).store
        (Ledger.empty.steps (sampleCalls.flatMap (Call.ops sampleSha256))) hashTwo 1 2 :=
      ⟨⟨_, _, _, found, one.classify_eq, one.toNat_and_mask.symm⟩, ⟨start, 2, spender, known, rfl⟩,
        by decide⟩
    exact not_keepsSlots assocPersistent (fun _ => 0) hnd (by decide) (stays hashTwo 1 2 has)
  · rw [← bzingReopen_store assocPersistent, ← bzingSpentMark_store] at after
    obtain ⟨_, mapped, holds⟩ := ok_of_any after
    obtain ⟨r, marked, rfl⟩ := except_map_ok.mp mapped
    simp only [Bool.and_eq_true, decide_eq_true_eq] at holds
    exact ⟨r.1, r.2, marked, holds.2⟩

end Bzing
