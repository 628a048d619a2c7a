import Bzing.Chain.Items

/-!
# Items that are indexed twice

Performing the operations of items once more, on a ledger that knows them already, starts their
own entries anew and records their spends again (`Item.respend`). `Ledger.Lists.steps` says what
a run of such items leads to. Where no item is spent before it stands in the list, the outcome
can be read off it (`respendAll_eq`): what the items spend has their last spender, the items
themselves have no other, and all else is as it was.
-/

namespace Bzing

/-- The items one after the other. -/
def respendAll (again : List Item) (spender : BzUint256 → UInt32 → Option Nat) :
    BzUint256 → UInt32 → Option Nat :=
  again.foldl (fun spender item => item.respend spender) spender

theorem respendAll_cons (item : Item) (again : List Item)
    (spender : BzUint256 → UInt32 → Option Nat) :
    respendAll (item :: again) spender = respendAll again (item.respend spender) := rfl

theorem respendAll_snoc (again : List Item) (item : Item)
    (spender : BzUint256 → UInt32 → Option Nat) :
    respendAll (again ++ [item]) spender = item.respend (respendAll again spender) := by
  rw [respendAll, List.foldl_append]
  rfl

/-- What items do when they are indexed once more, in a list whose inputs name earlier items. -/
theorem respendAll_eq {front again back : List Item} {spender : BzUint256 → UInt32 → Option Nat}
    (distinct : ((front ++ again ++ back).map Item.hash).Nodup)
    (earlier : InputsEarlier (front ++ again ++ back)) (h : BzUint256) (i : UInt32) :
    respendAll again spender h i =
      (lastSpender again h i).or
        (if h ∈ again.map Item.hash then none else spender h i) := by
  induction again using List.reverseRecOn generalizing back with
  | nil => rfl
  | append_singleton again item ih =>
    have split : front ++ (again ++ [item]) ++ back = (front ++ again) ++ item :: back := by simp
    rw [split] at distinct earlier
    have unspent := earlier.unspent distinct i
    rw [respendAll_snoc, Item.respend]
    by_cases own : h = item.hash
    · subst own
      rw [List.append_assoc, lastSpender_append, Option.or_eq_none_iff] at unspent
      rw [if_pos rfl, unspent.1]
      simp
    · rw [if_neg own, lastSpender_snoc]
      by_cases spends : item.Spends h i
      · simp only [spends, if_true, Option.some_or]
      · rw [if_neg spends, if_neg spends, ih distinct earlier]
        simp [own]

namespace Ledger

namespace Lists

variable {l : Ledger} {items again : List Item} {item : Item}
  {spender : BzUint256 → UInt32 → Option Nat}

/-- One of the items once more. -/
theorem again_item (lists : l.Lists items spender) (distinct : (items.map Item.hash).Nodup)
    (member : item ∈ items) (outputs : ∀ outpoint ∈ item.inputs, IsOutput items outpoint) :
    (l.steps item.ops).Lists items (item.respend spender) :=
  lists.perform_item distinct (fun _ member => member) (fun _ => Or.inl) member outputs

/-- Some of the items once more. -/
theorem steps (lists : l.Lists items spender) (distinct : (items.map Item.hash).Nodup)
    (members : ∀ item ∈ again, item ∈ items)
    (outputs : ∀ item ∈ again, ∀ outpoint ∈ item.inputs, IsOutput items outpoint) :
    (l.steps (again.flatMap Item.ops)).Lists items (respendAll again spender) := by
  induction again generalizing l spender with
  | nil => exact lists
  | cons item again ih =>
    rw [List.flatMap_cons, steps_append, respendAll_cons]
    have first := lists.again_item distinct (members item List.mem_cons_self)
      (outputs item List.mem_cons_self)
    exact ih first (fun i member => members i (List.mem_cons_of_mem _ member))
      fun i member => outputs i (List.mem_cons_of_mem _ member)

/-- The operations on the way spend outputs that exist. -/
theorem allows (lists : l.Lists items spender) (distinct : (items.map Item.hash).Nodup)
    (members : ∀ item ∈ again, item ∈ items)
    (outputs : ∀ item ∈ again, ∀ outpoint ∈ item.inputs, IsOutput items outpoint) :
    l.Along Allows (again.flatMap Item.ops) := by
  induction again generalizing l spender with
  | nil => trivial
  | cons item again ih =>
    have own := outputs item List.mem_cons_self
    have first := lists.again_item distinct (members item List.mem_cons_self) own
    rw [List.flatMap_cons, along_append]
    refine ⟨?_, ih first (fun i member => members i (List.mem_cons_of_mem _ member))
      fun i member => outputs i (List.mem_cons_of_mem _ member)⟩
    cases item with
    | block hash position => exact ⟨trivial, trivial⟩
    | tx hash position nTxout inputs =>
      rw [Item.ops, along_append]
      have spends : l.Along (Extends fun _ => 0)
          (inputs.map fun outpoint => .spend outpoint (UInt64.ofNat position)) :=
        along_spends fun outpoint input => lists.known (own outpoint input)
      exact ⟨along_mono Extends.allows spends, trivial, trivial⟩

end Lists

end Ledger

end Bzing
