import Bzing.Spent.Ledger

/-!
# What stands in a file

For the index a file of blocks is a list of items: block headers, and transactions with the
outpoints they spend. When all hashes differ and every input names an output of an earlier
transaction, the operations for the items lead to a ledger that can be read off the list:
every item has its entry, and the spender of an output is the last item that spends it
(`tells_items`).
-/

namespace Bzing

/-- A block or a transaction at its position in the file. -/
inductive Item where
  | block (hash : BzUint256) (position : Nat)
  | tx (hash : BzUint256) (position : Nat) (nTxout : UInt32) (inputs : List Outpoint)
  deriving DecidableEq

namespace Item

def hash : Item → BzUint256
  | block hash _ => hash
  | tx hash _ _ _ => hash

def position : Item → Nat
  | block _ position => position
  | tx _ position _ _ => position

/-- How many outputs there are to spend. -/
def outputs : Item → Nat
  | block _ _ => 0
  | tx _ _ nTxout _ => nTxout.toNat

/-- The outpoints spent. -/
def inputs : Item → List Outpoint
  | block _ _ => []
  | tx _ _ _ inputs => inputs

/-- The operations for an item (`bzing.c:674-715`). -/
def ops : Item → List LedgerOp
  | block hash position => [.insertBlock hash (UInt64.ofNat (position + 80))]
  | tx hash position nTxout inputs =>
    inputs.map (fun outpoint => .spend outpoint (UInt64.ofNat position)) ++
      [.insertTx hash (UInt64.ofNat position) nTxout]

/-- The item spends output `i` of the transaction `hash`. -/
def Spends (hash : BzUint256) (i : UInt32) (item : Item) : Prop :=
  ∃ outpoint ∈ item.inputs, outpoint.hash = hash ∧ outpoint.index = i

instance (hash : BzUint256) (i : UInt32) : DecidablePred (Spends hash i) := fun item =>
  inferInstanceAs (Decidable (∃ outpoint ∈ item.inputs, _))

end Item

/-- The position of the last item that spends output `i` of the transaction `hash`. -/
def lastSpender (items : List Item) (hash : BzUint256) (i : UInt32) : Option Nat :=
  (items.filter (Item.Spends hash i)).getLast?.map Item.position

/-- The outpoint is an output of one of the items. -/
def IsOutput (items : List Item) (outpoint : Outpoint) : Prop :=
  ∃ item ∈ items, item.hash = outpoint.hash ∧ outpoint.index.toNat < item.outputs

/-- Every input names an output of a transaction that stands earlier. -/
def InputsEarlier (items : List Item) : Prop :=
  ∀ front item back, items = front ++ item :: back →
    ∀ outpoint ∈ item.inputs, IsOutput front outpoint

/-- The same, with the items before `items`, from the front to the back. -/
def EarlierFrom (before : List Item) : List Item → Prop
  | [] => True
  | item :: items => (∀ outpoint ∈ item.inputs, IsOutput before outpoint) ∧
      EarlierFrom (before ++ [item]) items

theorem earlierFrom_iff {before items : List Item} :
    EarlierFrom before items ↔ ∀ front item back, items = front ++ item :: back →
      ∀ outpoint ∈ item.inputs, IsOutput (before ++ front) outpoint := by
  induction items generalizing before with
  | nil =>
    refine ⟨?_, fun _ => trivial⟩
    intro _ front item back split
    cases front <;> cases split
  | cons first items ih =>
    rw [EarlierFrom, ih]
    constructor
    · rintro ⟨here, later⟩ front item back split
      cases front with
      | nil =>
        cases split
        rw [List.append_nil]
        exact here
      | cons second front =>
        cases split
        have rest := later front item back rfl
        rwa [List.append_assoc] at rest
    · intro all
      refine ⟨by simpa using all [] first items rfl, ?_⟩
      intro front item back split
      rw [List.append_assoc]
      exact all (first :: front) item back (congrArg (first :: ·) split)

instance (items : List Item) : DecidablePred (IsOutput items) := fun _ =>
  inferInstanceAs (Decidable (∃ item ∈ items, _))

instance decidableEarlierFrom (before : List Item) :
    (items : List Item) → Decidable (EarlierFrom before items)
  | [] => inferInstanceAs (Decidable True)
  | item :: items =>
    have := decidableEarlierFrom (before ++ [item]) items
    inferInstanceAs (Decidable (_ ∧ _))

instance : DecidablePred InputsEarlier := fun items =>
  decidable_of_iff (EarlierFrom [] items) earlierFrom_iff

theorem IsOutput.tx {items : List Item} {outpoint : Outpoint} (output : IsOutput items outpoint) :
    ∃ position nTxout inputs, .tx outpoint.hash position nTxout inputs ∈ items ∧
      outpoint.index < nTxout := by
  obtain ⟨item, member, same, index⟩ := output
  cases item with
  | block hash position => exact absurd index (Nat.not_lt_zero _)
  | tx hash position nTxout inputs =>
    cases same
    exact ⟨position, nTxout, inputs, member, UInt32.lt_iff_toNat_lt.mpr index⟩

theorem lastSpender_snoc (items : List Item) (item : Item) (hash : BzUint256) (i : UInt32) :
    lastSpender (items ++ [item]) hash i =
      if item.Spends hash i then some item.position else lastSpender items hash i := by
  unfold lastSpender
  rw [List.filter_append, List.filter_singleton]
  by_cases spends : item.Spends hash i
  · simp [spends]
  · simp [spends]

namespace InputsEarlier

variable {items : List Item} {item : Item}

theorem init (earlier : InputsEarlier (items ++ [item])) : InputsEarlier items := by
  intro front item' back split
  exact earlier front item' (back ++ [item]) (by rw [split, List.append_assoc]; rfl)

theorem last (earlier : InputsEarlier (items ++ [item])) {outpoint : Outpoint}
    (member : outpoint ∈ item.inputs) :
    ∃ position nTxout inputs, .tx outpoint.hash position nTxout inputs ∈ items ∧
      outpoint.index < nTxout :=
  (earlier items item [] rfl outpoint member).tx

/-- Only outputs of the items themselves are spent. -/
theorem isOutput (earlier : InputsEarlier items) (member : item ∈ items) (outpoint : Outpoint)
    (input : outpoint ∈ item.inputs) : IsOutput items outpoint := by
  obtain ⟨front, back, rfl⟩ := List.append_of_mem member
  obtain ⟨item', before, output⟩ := earlier front item back rfl outpoint input
  exact ⟨item', List.mem_append_left _ before, output⟩

theorem named (earlier : InputsEarlier items) (member : item ∈ items) {outpoint : Outpoint}
    (input : outpoint ∈ item.inputs) : outpoint.hash ∈ items.map Item.hash := by
  obtain ⟨item', member', same, -⟩ := earlier.isOutput member outpoint input
  exact List.mem_map.mpr ⟨item', member', same⟩

theorem lastSpender_none (earlier : InputsEarlier items) {hash : BzUint256}
    (absent : hash ∉ items.map Item.hash) (i : UInt32) : lastSpender items hash i = none := by
  have none : items.filter (Item.Spends hash i) = [] := by
    apply List.filter_eq_nil_iff.mpr
    intro item member spends
    obtain ⟨outpoint, input, rfl, -⟩ := of_decide_eq_true spends
    exact absent (earlier.named member input)
  rw [lastSpender, none]
  rfl

/-- A spent output is one of the outputs of its transaction. -/
theorem lastSpender_some (earlier : InputsEarlier items) {hash : BzUint256} {i : UInt32} {v : Nat}
    (spent : lastSpender items hash i = some v) :
    ∃ position nTxout inputs, .tx hash position nTxout inputs ∈ items ∧ i < nTxout := by
  obtain ⟨item, last, -⟩ := Option.map_eq_some_iff.mp spent
  obtain ⟨member, spends⟩ := List.mem_filter.mp (List.mem_of_getLast? last)
  obtain ⟨outpoint, input, rfl, rfl⟩ := of_decide_eq_true spends
  obtain ⟨front, back, rfl⟩ := List.append_of_mem member
  obtain ⟨position, nTxout, inputs, before, index⟩ :=
    (earlier front item back rfl outpoint input).tx
  exact ⟨position, nTxout, inputs, List.mem_append_left _ before, index⟩

end InputsEarlier

/-- The recorded spenders when an item is indexed: its inputs are spent, and its own outputs
    start unspent. -/
def Item.respend (item : Item) (spender : BzUint256 → UInt32 → Option Nat) :
    BzUint256 → UInt32 → Option Nat := fun h i =>
  if h = item.hash then none
  else if item.Spends h i then some item.position
  else spender h i

theorem Item.respend_of_ne {item : Item} {spender : BzUint256 → UInt32 → Option Nat}
    {h : BzUint256} (i : UInt32) (other : h ≠ item.hash) :
    item.respend spender h i =
      if item.Spends h i then some item.position else spender h i := if_neg other

theorem lastSpender_append (front back : List Item) (hash : BzUint256) (i : UInt32) :
    lastSpender (front ++ back) hash i =
      (lastSpender back hash i).or (lastSpender front hash i) := by
  unfold lastSpender
  rw [List.filter_append, List.getLast?_append, Option.map_or]

/-- No output of an item is spent before the item stands there, nor by itself. -/
theorem InputsEarlier.unspent {front back : List Item} {item : Item}
    (distinct : ((front ++ item :: back).map Item.hash).Nodup)
    (earlier : InputsEarlier (front ++ item :: back)) (i : UInt32) :
    lastSpender (front ++ [item]) item.hash i = none := by
  have new : item.hash ∉ front.map Item.hash := by
    rw [List.map_append, List.nodup_append] at distinct
    intro member
    exact distinct.2.2 _ member _ List.mem_cons_self rfl
  have before : InputsEarlier front := by
    intro front' item' back' split
    exact earlier front' item' (back' ++ item :: back) (by rw [split, List.append_assoc]; rfl)
  have own : ¬ item.Spends item.hash i := by
    rintro ⟨outpoint, input, same, -⟩
    obtain ⟨item', member, same', -⟩ := earlier front item back rfl outpoint input
    exact new (List.mem_map.mpr ⟨item', member, same'.trans same⟩)
  rw [lastSpender_snoc, if_neg own]
  exact before.lastSpender_none new i

/-- Indexing the next item adds its spends. -/
theorem InputsEarlier.respend_lastSpender {items : List Item} {item : Item}
    (distinct : ((items ++ [item]).map Item.hash).Nodup) (earlier : InputsEarlier (items ++ [item])) :
    item.respend (lastSpender items) = lastSpender (items ++ [item]) := by
  funext h i
  by_cases own : h = item.hash
  · rw [own, earlier.unspent distinct i]
    exact if_pos rfl
  · rw [Item.respend_of_ne i own, lastSpender_snoc]

theorem item_unique {items : List Item} {item item' : Item}
    (distinct : (items.map Item.hash).Nodup) (member : item ∈ items) (member' : item' ∈ items)
    (same : item.hash = item'.hash) : item = item' :=
  List.inj_on_of_nodup_map distinct member member' same

/-- The output count of a transaction, by its hash. -/
def outputCount (items : List Item) (hash : BzUint256) : Nat :=
  ((items.find? fun item => item.hash = hash).map Item.outputs).getD 0

theorem outputCount_eq {items : List Item} {item : Item}
    (distinct : (items.map Item.hash).Nodup) (member : item ∈ items) :
    outputCount items item.hash = item.outputs := by
  have found : items.find? (fun i => i.hash = item.hash) = some item := by
    induction items with
    | nil => cases member
    | cons first items ih =>
      rw [List.map_cons, List.nodup_cons] at distinct
      rcases List.mem_cons.mp member with rfl | later
      · exact List.find?_cons_of_pos (by simp)
      · have other : first.hash ≠ item.hash := by
          intro same
          exact distinct.1 (same ▸ List.mem_map.mpr ⟨item, later, rfl⟩)
        rw [List.find?_cons_of_neg (by simpa using other)]
        exact ih distinct.2 later
  rw [outputCount, found]
  rfl

namespace Ledger

variable {l : Ledger} {inputs : List Outpoint} {offset start : UInt64} {h : BzUint256}
  {nTxout : UInt32} {spender : UInt32 → Option UInt64}

theorem steps_spends_ne (others : ∀ outpoint ∈ inputs, outpoint.hash ≠ h) :
    l.steps (inputs.map fun outpoint => .spend outpoint offset) h = l h := by
  induction inputs generalizing l with
  | nil => rfl
  | cons outpoint inputs ih =>
    rw [List.map_cons, steps_cons, ih fun o member => others o (List.mem_cons_of_mem _ member)]
    exact step_spend_ne (others outpoint List.mem_cons_self).symm

/-- The outputs spent have the new spender, the others the one they had. -/
theorem steps_spends (known : l h = some (.tx start nTxout spender))
    (inside : ∀ outpoint ∈ inputs, outpoint.hash = h → outpoint.index < nTxout) :
    l.steps (inputs.map fun outpoint => .spend outpoint offset) h =
      some (.tx start nTxout fun i =>
        if ∃ outpoint ∈ inputs, outpoint.hash = h ∧ outpoint.index = i then some offset
        else spender i) := by
  induction inputs generalizing l spender with
  | nil => simpa using known
  | cons outpoint inputs ih =>
    rw [List.map_cons, steps_cons]
    have inside' : ∀ o ∈ inputs, o.hash = h → o.index < nTxout := by
      intro o member
      exact inside o (List.mem_cons_of_mem _ member)
    by_cases own : outpoint.hash = h
    · have index := inside outpoint List.mem_cons_self own
      have known' : l.step (.spend outpoint offset) h = some (.tx start nTxout
          (Function.update spender outpoint.index (some offset))) := by
        subst own
        rw [step_spend known index, Function.update_self]
      rw [ih known' inside']
      congr 2
      funext i
      by_cases later : ∃ o ∈ inputs, o.hash = h ∧ o.index = i
      · simp [later]
      · by_cases here : outpoint.index = i
        · simp [own, here]
        · simp [later, here, own, Function.update_of_ne (Ne.symm here)]
    · rw [ih ((step_spend_ne (Ne.symm own)).trans known) inside']
      simp [own]

/-- A spend takes no output away. -/
theorem Known.spend {outpoint : Outpoint} (known : l.Known outpoint) (other : Outpoint)
    (offset : UInt64) : (l.step (.spend other offset)).Known outpoint := by
  obtain ⟨start, nTxout, spender, entry, index⟩ := known
  by_cases own : outpoint.hash = other.hash
  · obtain ⟨spender', after⟩ := step_spend_same offset (own ▸ entry)
    exact ⟨start, nTxout, spender', own ▸ after, index⟩
  · exact ⟨start, nTxout, spender, (step_spend_ne own).trans entry, index⟩

/-- An operation that adds to the ledger: it inserts an unknown hash, with the output count
    `count` has for it, or spends a known output. -/
def Extends (count : BzUint256 → Nat) (l : Ledger) : LedgerOp → Prop
  | .insertBlock hash _ => l hash = none
  | .insertTx hash _ nTxout => l hash = none ∧ count hash = nTxout.toNat
  | .spend outpoint _ => l.Known outpoint

theorem Extends.allows {count : BzUint256 → Nat} {op : LedgerOp} (extends' : l.Extends count op) :
    l.Allows op := by
  cases op with
  | spend outpoint offset => exact extends'
  | _ => trivial

theorem along_mono {P Q : Ledger → LedgerOp → Prop} (mono : ∀ {l op}, P l op → Q l op)
    {ops : List LedgerOp} (along : l.Along P ops) : l.Along Q ops := by
  induction ops generalizing l with
  | nil => trivial
  | cons op ops ih => exact ⟨mono along.1, ih along.2⟩

theorem along_and {P Q : Ledger → LedgerOp → Prop} {ops : List LedgerOp} (first : l.Along P ops)
    (second : l.Along Q ops) : l.Along (fun l op => P l op ∧ Q l op) ops := by
  induction ops generalizing l with
  | nil => trivial
  | cons op ops ih => exact ⟨⟨first.1, second.1⟩, ih first.2 second.2⟩

theorem along_append {P : Ledger → LedgerOp → Prop} {front back : List LedgerOp} :
    l.Along P (front ++ back) ↔ l.Along P front ∧ (l.steps front).Along P back := by
  induction front generalizing l with
  | nil => exact (and_iff_right trivial).symm
  | cons op front ih =>
    rw [List.cons_append, Along, ih, Along, steps_cons, and_assoc]

theorem along_spends {count : BzUint256 → Nat}
    (known : ∀ outpoint ∈ inputs, l.Known outpoint) :
    l.Along (Extends count) (inputs.map fun outpoint => .spend outpoint offset) := by
  induction inputs generalizing l with
  | nil => trivial
  | cons outpoint inputs ih =>
    refine ⟨known outpoint List.mem_cons_self, ih ?_⟩
    intro o member
    exact (known o (List.mem_cons_of_mem _ member)).spend outpoint offset

/-! ## The ledger of a list of items -/

/-- The ledger has the entries of the items, with the given spenders. -/
structure Lists (l : Ledger) (items : List Item) (spender : BzUint256 → UInt32 → Option Nat) :
    Prop where
  block : ∀ {hash position}, .block hash position ∈ items →
    l hash = some (.block (UInt64.ofNat (position + 80)))
  tx : ∀ {hash position nTxout inputs}, .tx hash position nTxout inputs ∈ items →
    l hash = some (.tx (UInt64.ofNat position) nTxout fun i =>
      (spender hash i).map UInt64.ofNat)

theorem Lists.known {items : List Item} {spender : BzUint256 → UInt32 → Option Nat}
    (lists : l.Lists items spender) {outpoint : Outpoint} (output : IsOutput items outpoint) :
    l.Known outpoint := by
  obtain ⟨position, nTxout, inputs, member, index⟩ := output.tx
  exact ⟨_, nTxout, _, lists.tx member, index⟩

/-- Performing the operations for an item, one of the list or a new one. -/
theorem Lists.perform_item {items items' : List Item} {item : Item}
    {spender : BzUint256 → UInt32 → Option Nat} (lists : l.Lists items spender)
    (distinct : (items'.map Item.hash).Nodup) (members : ∀ i ∈ items, i ∈ items')
    (only : ∀ i ∈ items', i ∈ items ∨ i = item) (member : item ∈ items')
    (outputs : ∀ outpoint ∈ item.inputs, IsOutput items outpoint) :
    (l.steps item.ops).Lists items' (item.respend spender) := by
  have before : ∀ {i}, i ∈ items' → i.hash ≠ item.hash → i ∈ items := by
    rintro i inAll other
    rcases only i inAll with old | rfl
    · exact old
    · exact absurd rfl other
  cases item with
  | block hash position =>
    refine ⟨?_, ?_⟩
    · intro h p inAll
      by_cases own : h = hash
      · subst own
        cases item_unique distinct inAll member rfl
        exact Function.update_self _ _ _
      · exact (Function.update_of_ne own _ _).trans (lists.block (before inAll own))
    · intro h p n inputs inAll
      have own : h ≠ hash := by
        rintro rfl
        cases item_unique distinct inAll member rfl
      refine (Function.update_of_ne own _ _).trans ((lists.tx (before inAll own)).trans ?_)
      have spends : ∀ i, ¬ (Item.block hash position).Spends h i := by
        rintro i ⟨outpoint, input, -⟩
        cases input
      simp only [@Item.respend_of_ne (.block hash position) spender h _ own, spends, if_false]
  | tx hash position nTxout inputs =>
    rw [Item.ops, steps_append]
    refine ⟨?_, ?_⟩
    · intro h p inAll
      have own : h ≠ hash := by
        rintro rfl
        cases item_unique distinct inAll member rfl
      refine (Function.update_of_ne own _ _).trans ?_
      rw [steps_spends_ne, lists.block (before inAll own)]
      rintro outpoint input rfl
      obtain ⟨_, _, _, spent, -⟩ := (outputs outpoint input).tx
      cases item_unique distinct inAll (members _ spent) rfl
    · intro h p n inputs' inAll
      by_cases own : h = hash
      · subst own
        cases item_unique distinct inAll member rfl
        refine (Function.update_self _ _ _).trans ?_
        simp [Item.respend, Item.hash]
      · refine (Function.update_of_ne own _ _).trans ?_
        rw [steps_spends (lists.tx (before inAll own))]
        · congr 2
          funext i
          rw [@Item.respend_of_ne (.tx hash position nTxout inputs) spender h i own]
          by_cases spends : (Item.tx hash position nTxout inputs).Spends h i
          · rw [if_pos spends]
            exact if_pos spends
          · rw [if_neg spends]
            exact if_neg spends
        · rintro outpoint input rfl
          obtain ⟨_, _, _, spent, index⟩ := (outputs outpoint input).tx
          cases item_unique distinct inAll (members _ spent) rfl
          exact index

/-- The ledger says what the items say. -/
structure Tells (l : Ledger) (items : List Item) : Prop where
  absent : ∀ h, h ∉ items.map Item.hash → l h = none
  block : ∀ {hash position}, .block hash position ∈ items →
    l hash = some (.block (UInt64.ofNat (position + 80)))
  tx : ∀ {hash position nTxout inputs}, .tx hash position nTxout inputs ∈ items →
    l hash = some (.tx (UInt64.ofNat position) nTxout fun i =>
      (lastSpender items hash i).map UInt64.ofNat)

theorem Tells.lists {l : Ledger} {items : List Item} (tells : l.Tells items) :
    l.Lists items (lastSpender items) :=
  ⟨tells.block, tells.tx⟩

namespace Tells

variable {items : List Item} {item : Item}

/-- The inputs of the next item are known. -/
theorem known (tells : l.Tells items) (earlier : InputsEarlier (items ++ [item]))
    {outpoint : Outpoint} (member : outpoint ∈ item.inputs) : l.Known outpoint :=
  tells.lists.known (earlier items item [] rfl outpoint member)

/-- The spends of the next item add no hash. -/
theorem absent_spends (tells : l.Tells items) (earlier : InputsEarlier (items ++ [item]))
    (offset : UInt64) {h : BzUint256} (absent : h ∉ items.map Item.hash) :
    l.steps (item.inputs.map fun outpoint => .spend outpoint offset) h = none := by
  rw [steps_spends_ne, tells.absent h absent]
  rintro outpoint input rfl
  obtain ⟨_, _, _, before, -⟩ := earlier.last input
  exact absent (List.mem_map.mpr ⟨_, before, rfl⟩)

/-- The ledger after the next item. -/
theorem snoc (tells : l.Tells items) (earlier : InputsEarlier (items ++ [item]))
    (distinct : ((items ++ [item]).map Item.hash).Nodup) :
    (l.steps item.ops).Tells (items ++ [item]) := by
  have lists : (l.steps item.ops).Lists (items ++ [item]) (item.respend (lastSpender items)) := by
    refine tells.lists.perform_item distinct (fun i old => List.mem_append_left _ old) ?_
      (List.mem_append_right _ (List.mem_singleton.mpr rfl)) (earlier items item [] rfl)
    intro i inAll
    exact (List.mem_append.mp inAll).imp_right List.mem_singleton.mp
  rw [earlier.respend_lastSpender distinct] at lists
  refine ⟨?_, lists.block, lists.tx⟩
  intro h out
  rw [List.map_append, List.mem_append, not_or] at out
  have ne : h ≠ item.hash := fun same => out.2 (List.mem_singleton.mpr same)
  cases item with
  | block hash position => exact (Function.update_of_ne ne _ _).trans (tells.absent h out.1)
  | tx hash position nTxout inputs =>
    rw [Item.ops, steps_append]
    exact (Function.update_of_ne ne _ _).trans (tells.absent_spends earlier _ out.1)

end Tells

/-- Indexing items leads to the ledger they describe. -/
theorem tells_items {items : List Item} (distinct : (items.map Item.hash).Nodup)
    (earlier : InputsEarlier items) : (empty.steps (items.flatMap Item.ops)).Tells items := by
  induction items using List.reverseRecOn with
  | nil =>
    refine ⟨fun _ _ => rfl, ?_, ?_⟩
    · intro hash position member
      cases member
    · intro hash position nTxout inputs member
      cases member
  | append_singleton items item ih =>
    have init := distinct
    rw [List.map_append, List.nodup_append] at init
    rw [List.flatMap_append, List.flatMap_singleton, steps_append]
    exact (ih init.1 earlier.init).snoc earlier distinct

/-- Every operation on the way adds to the ledger. -/
theorem along_items {count : BzUint256 → Nat} {items : List Item}
    (distinct : (items.map Item.hash).Nodup) (earlier : InputsEarlier items)
    (counted : ∀ item ∈ items, count item.hash = item.outputs) :
    empty.Along (Extends count) (items.flatMap Item.ops) := by
  induction items using List.reverseRecOn with
  | nil => trivial
  | append_singleton items item ih =>
    rw [List.map_append, List.nodup_append] at distinct
    have new : item.hash ∉ items.map Item.hash := fun member =>
      distinct.2.2 _ member _ (List.mem_singleton.mpr rfl) rfl
    have tells := tells_items distinct.1 earlier.init
    rw [List.flatMap_append, List.flatMap_singleton, along_append]
    refine ⟨ih distinct.1 earlier.init fun i member =>
      counted i (List.mem_append_left _ member), ?_⟩
    have own := counted item (List.mem_append_right _ (List.mem_singleton.mpr rfl))
    have absent := tells.absent_spends earlier (UInt64.ofNat item.position) new
    cases item with
    | block hash position => exact ⟨tells.absent hash new, trivial⟩
    | tx hash position nTxout inputs =>
      rw [Item.ops, along_append]
      exact ⟨along_spends fun outpoint input => tells.known earlier input, ⟨absent, own⟩, trivial⟩

end Ledger

end Bzing
