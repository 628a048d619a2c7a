import Bzing.Hash.Alignhash
import Bzing.Hash.Khash
import Bzing.Hash.Limited
import Mathlib.Data.List.AList

/-!
# Runs of a table

`kh_put` and `alignhash_set` as rules for putting keys, and what any sequence of calls on a table
does: it never leaves the arrays, it ends, and it does what a finite map does, while there are
fewer than `2 ^ 31` keys in a khash table, and for the first `2 ^ 30` calls of `alignhash_set`.
-/

namespace Bzing

open OpenTable HashTable

section Rules

variable {K : Type} (V : Type) {hashFunc : K → UInt32} {hashEqual : K → K → Bool}

/-- `kh_put`. -/
def khRule (law : (khashParams hashFunc hashEqual).Lawful) :
    PutRule V (khashParams hashFunc hashEqual) law where
  put t key := (khPut (khashParams hashFunc hashEqual) t key).map fun (x, _, t) => (x, t)
  ready t key := (bucket (khashParams hashFunc hashEqual) t key).isSome ||
    decide (t.size.toNat < 2 ^ 31)
  ends {t b} key working := by
    obtain ⟨t1, b1, grown, opened⟩ := khGrow_opens working
    obtain ⟨x, ret, t', b', put, working', -, keeps⟩ := opened.put_any key
    refine ⟨x, t', b', ?_, working', keeps⟩
    rw [khPut, grown, Option.bind_eq_bind, Option.bind_some, put]
    rfl
  placed {t b key} working ready := by
    obtain ⟨t1, b1, grown, opened⟩ := khGrow_opens working
    have few : Absent t.nBuckets.toNat b key → t.size.toNat < 2 ^ 31 := by
      intro absent
      simpa [working.bucket_of_absent absent] using ready
    obtain ⟨x, ret, t', b', put, placed⟩ := opened.put few
    refine ⟨x, t', b', ?_, placed⟩
    rw [khPut, grown, Option.bind_eq_bind, Option.bind_some, put]
    rfl

/-- `alignhash_set`. -/
def ahRule (law : (alignhashParams hashFunc hashEqual).Lawful) :
    PutRule V (alignhashParams hashFunc hashEqual) law where
  put t key := (ahSet (alignhashParams hashFunc hashEqual) t key).map fun (x, _, t) => (x, t)
  ready t _ := decide (t.nBuckets.toNat < 2 ^ 31 ∨ t.nOccupied < t.upperBound)
  ends {t b} key working := by
    by_cases can : t.nBuckets.toNat < 2 ^ 31 ∨ t.nOccupied < t.upperBound
    · obtain ⟨t1, b1, grown, opened⟩ := ahGrow_opens working can
      obtain ⟨x, ret, t', b', put, working', -, keeps⟩ := opened.put_any key
      refine ⟨x, t', b', ?_, working', keeps⟩
      rw [ahSet, grown, Option.bind_eq_bind, Option.bind_some]
      simp only [if_true, put]
      rfl
    · obtain ⟨largest, half⟩ := not_or.mp can
      have most := working.nBuckets_le
      refine ⟨t.nBuckets, t, b, ?_, working, id⟩
      rw [ahSet_givesUp key (by omega) (UInt32.not_lt.mp half)]
      rfl
  placed {t b key} working ready := by
    have can := of_decide_eq_true ready
    obtain ⟨t1, b1, grown, opened⟩ := ahGrow_opens working can
    have few : t.size.toNat < 2 ^ 31 := by
      have live := working.size_le
      have occupied := working.size_le_nOccupied
      have most := working.nBuckets_le
      have upper : t.upperBound.toNat = (t.nBuckets.toNat + 1) / 2 :=
        (congrArg UInt32.toNat working.upper).trans (toNat_ahSup working.count)
      rcases can with small | spare
      · omega
      · have := UInt32.lt_iff_toNat_lt.mp spare
        omega
    obtain ⟨x, ret, t', b', put, placed⟩ := opened.put fun _ => few
    refine ⟨x, t', b', ?_, placed⟩
    rw [ahSet, grown, Option.bind_eq_bind, Option.bind_some]
    simp only [if_true, put]
    rfl

end Rules

/-! ## Calls on a table -/

/-- A call of the user. -/
inductive TableOp (K V : Type) where
  /-- `kh_put`, and `kh_val` written. -/
  | set (key : K) (v : V)
  /-- `kh_get`, and `kh_val` read. -/
  | find (key : K)
  /-- `kh_del` of what `kh_get` returns. -/
  | del (key : K)
  | clear

section Runs

variable {K V : Type}

/-- How many keys the call sets. -/
def TableOp.sets : TableOp K V → Nat
  | set _ _ => 1
  | _ => 0

/-- What the call makes of a table, and the value it finds. -/
def TableOp.run (p : HashParams K) (put : HashTable K V → K → Option (UInt32 × HashTable K V))
    (unwritten : V) (t : HashTable K V) : TableOp K V → Option (Option V × HashTable K V)
  | set key v => do
    let (x, t) ← put t key
    let t ← setVal t x v
    some (none, t)
  | find key => do
    let x ← get p t key
    if x = t.nBuckets then some (none, t)
    else do
      let v ← val unwritten t x
      some (some v, t)
  | del key => do
    let x ← get p t key
    let t ← HashTable.del t x
    some (none, t)
  | clear => some (none, HashTable.clear p t)

/-- Call after call. -/
def runTable (p : HashParams K) (put : HashTable K V → K → Option (UInt32 × HashTable K V))
    (unwritten : V) (t : HashTable K V) : List (TableOp K V) → Option (List (Option V) × HashTable K V)
  | [] => some ([], t)
  | op :: ops => do
    let (found, t) ← op.run p put unwritten t
    let (rest, t) ← runTable p put unwritten t ops
    some (found :: rest, t)

variable [DecidableEq K]

/-- The same on a finite map. -/
def TableOp.ideal (l : AList fun _ : K => V) : TableOp K V → Option V × AList fun _ : K => V
  | set key v => (none, l.insert key v)
  | find key => (l.lookup key, l)
  | del key => (none, l.erase key)
  | clear => (none, ∅)

def runIdeal (l : AList fun _ : K => V) : List (TableOp K V) → List (Option V)
  | [] => []
  | op :: ops => (op.ideal l).1 :: runIdeal (op.ideal l).2 ops

end Runs

section Step

variable {K V : Type} {p : HashParams K} {law : p.Lawful} {t : HashTable K V}
  {b : Nat → Bucket K (Option V)}

variable (put : HashTable K V → K → Option (UInt32 × HashTable K V)) (unwritten : V)

/-- A key is found with its value, or not at all. -/
theorem run_find (working : Working p law t b) (key : K) :
    (Absent t.nBuckets.toNat b key ∧
        TableOp.run p put unwritten t (.find key) = some (none, t)) ∨
      ∃ v, Holds t.nBuckets.toNat b key v ∧
        TableOp.run p put unwritten t (.find key) = some (some (v.getD unwritten), t) := by
  rcases absent_or_holds t.nBuckets.toNat b key with absent | ⟨v, i, inside, here⟩
  · refine Or.inl ⟨absent, ?_⟩
    simp only [TableOp.run, working.get_absent absent, Option.bind_eq_bind, Option.bind_some,
      if_true]
  · obtain ⟨x, found, rfl⟩ := working.get_found inside here
    refine Or.inr ⟨v, ⟨x.toNat, inside, here⟩, ?_⟩
    simp only [TableOp.run, found, Option.bind_eq_bind, Option.bind_some,
      if_neg (Buckets.ne_nBuckets inside), working.val_of_live inside here]

/-- A key is taken out, and no other. -/
theorem run_del (working : Working p law t b) (key : K) :
    ∃ t' b', TableOp.run p put unwritten t (.del key) = some (none, t') ∧ Working p law t' b' ∧
      t'.nOccupied = t.nOccupied ∧ ∀ k v, Holds t'.nBuckets.toNat b' k v ↔
        k ≠ key ∧ Holds t.nBuckets.toNat b k v := by
  rcases absent_or_holds t.nBuckets.toNat b key with absent | ⟨v, i, inside, here⟩
  · refine ⟨t, b, ?_, working, rfl, ?_⟩
    · simp only [TableOp.run, working.get_absent absent, Option.bind_eq_bind, Option.bind_some,
        HashTable.del, if_true]
    · intro k v
      constructor
      · rintro ⟨i, inside, here⟩
        refine ⟨?_, i, inside, here⟩
        rintro rfl
        exact absent i inside v here
      · exact And.right
  · obtain ⟨x, found, rfl⟩ := working.get_found inside here
    obtain ⟨t', del, same, occupied, table⟩ := working.del_live inside here
    refine ⟨t', _, ?_, ⟨table, ?_⟩, occupied, ?_⟩
    · simp only [TableOp.run, found, del, Option.bind_eq_bind, Option.bind_some]
    · rw [table.upper, occupied, same, ← working.upper]
      exact working.within
    · intro k w
      rw [same, ← scheme_n law working.count]
      exact holds_erase working.sound inside here

theorem run_clear (working : Working p law t b) :
    ∃ t', TableOp.run p put unwritten t .clear = some (none, t') ∧
      Working p law t' (fun _ => .empty) ∧ t'.nOccupied = 0 := by
  obtain ⟨-, cleared⟩ := working.clear_empty
  have none : (HashTable.clear p t).nOccupied.toNat = 0 := by
    rw [cleared.occupied]
    exact Nat.count_iff_forall_not.mpr fun _ _ => nofun
  exact ⟨_, rfl, ⟨cleared, fun _ => none ▸ Nat.zero_le _⟩, UInt32.toNat_inj.mp none⟩

end Step

section Represents

variable {K V : Type} [DecidableEq K] {p : HashParams K} {law : p.Lawful}

/-- The table works and holds the finite map. -/
def Represents (law : p.Lawful) (t : HashTable K V) (l : AList fun _ : K => V) : Prop :=
  ∃ b, Working p law t b ∧
    ∀ k v, Holds t.nBuckets.toNat b k v ↔ ∃ w, v = some w ∧ l.lookup k = some w

variable {t : HashTable K V} {l : AList fun _ : K => V} {b : Nat → Bucket K (Option V)}

theorem represents_init : Represents law (HashTable.init : HashTable K V) ∅ := by
  refine ⟨_, ⟨Buckets.init_empty, fun _ => Nat.le_refl 0⟩, ?_⟩
  intro k v
  constructor
  · rintro ⟨i, -, here⟩
    cases here
  · rintro ⟨w, -, found⟩
    rw [AList.lookup_empty] at found
    cases found

/-- There are no more keys than the finite map has. -/
theorem Represents.size_le (represents : Represents law t l) :
    t.size.toNat ≤ l.keys.length := by
  obtain ⟨b, working, holds⟩ := represents
  have few := working.sound.count_live_le l.keys.toFinset ?_
  · rw [working.size]
    exact Nat.le_trans few (List.toFinset_card_le _)
  · intro k v held
    obtain ⟨w, -, found⟩ := (holds k v).mp held
    rw [List.mem_toFinset]
    exact AList.mem_keys.mp (AList.lookup_isSome.mp (Option.isSome_of_eq_some found))

/-- Setting a key the rule is ready for. -/
theorem Represents.set (rule : PutRule V p law) (represents : Represents law t l) {key : K}
    (ready : rule.ready t key = true) (v unwritten : V) :
    ∃ t', TableOp.run p rule.put unwritten t (.set key v) = some (none, t') ∧
      Represents law t' (l.insert key v) ∧ t'.nOccupied.toNat ≤ t.nOccupied.toNat + 1 := by
  obtain ⟨b, working, holds⟩ := represents
  obtain ⟨x, t1, b1, put, placed⟩ := rule.placed working ready
  obtain ⟨t', set, same, -, occupied, -, table⟩ := placed.working.setVal_inside placed.inside v
  obtain ⟨w, here⟩ := placed.here
  rw [here] at table
  refine ⟨t', ?_, ⟨_, ⟨table, ?_⟩, ?_⟩, occupied ▸ placed.used⟩
  · simp only [TableOp.run, put, set, Option.bind_eq_bind, Option.bind_some]
  · rw [table.upper, occupied, same, ← placed.working.upper]
    exact placed.working.within
  · intro k u
    have own : ∀ k' w', b1 x.toNat = .live k' w' → k' = key := by
      intro k' w' there
      rw [here] at there
      cases there
      rfl
    have update := @holds_update _ _ (p.scheme law placed.working.count) _ key k (some v) _ _
      placed.inside own
      (fun i below apart w' there => apart (placed.working.sound.unique below placed.inside there here)) u
    rw [same, ← scheme_n law placed.working.count]
    refine update.trans ?_
    by_cases own : k = key
    · rw [if_pos own, own, AList.lookup_insert]
      constructor
      · intro eq
        exact ⟨v, eq, rfl⟩
      · rintro ⟨_, eq, ⟨⟩⟩
        exact eq
    · rw [if_neg own, AList.lookup_insert_ne own, ← holds]
      exact placed.others u own

/-- Every call does what it does on the finite map, if the rule is ready for a key that is set. -/
theorem Represents.run (rule : PutRule V p law) (represents : Represents law t l)
    {op : TableOp K V} (ready : ∀ key v, op = .set key v → rule.ready t key = true)
    (unwritten : V) :
    ∃ t', op.run p rule.put unwritten t = some ((op.ideal l).1, t') ∧
      Represents law t' (op.ideal l).2 ∧ t'.nOccupied.toNat ≤ t.nOccupied.toNat + op.sets := by
  cases op with
  | set key v => exact represents.set rule (ready key v rfl) v unwritten
  | find key =>
    obtain ⟨b, working, holds⟩ := id represents
    refine ⟨t, ?_, represents, Nat.le_refl _⟩
    rcases run_find rule.put unwritten working key with ⟨absent, found⟩ | ⟨v, held, found⟩
    · rw [found]
      have missing : l.lookup key = none := by
        cases stored : l.lookup key with
        | none => rfl
        | some w =>
          obtain ⟨i, inside, here⟩ := (holds key (some w)).mpr ⟨w, rfl, stored⟩
          exact absurd here (absent i inside _)
      rw [TableOp.ideal, missing]
    · obtain ⟨w, rfl, stored⟩ := (holds key v).mp held
      rw [found, TableOp.ideal, stored]
      rfl
  | del key =>
    obtain ⟨b, working, holds⟩ := represents
    obtain ⟨t', b', ran, working', occupied, erased⟩ := run_del rule.put unwritten working key
    refine ⟨t', ran, ⟨b', working', ?_⟩, occupied ▸ Nat.le_refl _⟩
    intro k v
    rw [erased, holds, TableOp.ideal]
    by_cases own : k = key
    · rw [own, AList.lookup_erase]
      simp
    · rw [AList.lookup_erase_ne own]
      simp [own]
  | clear =>
    obtain ⟨b, working, -⟩ := represents
    obtain ⟨t', ran, working', none⟩ := run_clear rule.put unwritten working
    refine ⟨t', ran, ⟨_, working', ?_⟩, none ▸ Nat.zero_le _⟩
    intro k v
    constructor
    · rintro ⟨i, -, here⟩
      cases here
    · rintro ⟨w, -, found⟩
      rw [TableOp.ideal, AList.lookup_empty] at found
      cases found

end Represents

/-- Setting, finding and deleting two keys. -/
def sampleOps : List (TableOp UInt64 UInt64) :=
  [.set 7 70, .set 39 390, .find 7, .del 7, .find 7, .find 39, .set 7 71, .find 7]

section Khash

variable {K V : Type} [DecidableEq K] {hashFunc : K → UInt32} {hashEqual : K → K → Bool}

/-- `kh_put` as a call. -/
def khCall (hashFunc : K → UInt32) (hashEqual : K → K → Bool) (t : HashTable K V) (key : K) :
    Option (UInt32 × HashTable K V) :=
  (khPut (khashParams hashFunc hashEqual) t key).map fun (x, _, t) => (x, t)

/-- A new key is set only while there are fewer than `2 ^ 31`. -/
def FewKeys (l : AList fun _ : K => V) : List (TableOp K V) → Prop
  | [] => True
  | op :: ops =>
    (∀ key v, op = .set key v → key ∈ l ∨ l.keys.length < 2 ^ 31) ∧ FewKeys (op.ideal l).2 ops

theorem khReady_of_few {law : (khashParams hashFunc hashEqual).Lawful} {t : HashTable K V}
    {l : AList fun _ : K => V} (represents : Represents law t l) {key : K}
    (few : key ∈ l ∨ l.keys.length < 2 ^ 31) : (khRule V law).ready t key = true := by
  have size := represents.size_le
  obtain ⟨b, working, holds⟩ := represents
  change ((bucket _ t key).isSome || decide (t.size.toNat < 2 ^ 31)) = true
  rw [Bool.or_eq_true, decide_eq_true_eq, working.isSome_bucket]
  rcases few with held | few
  · obtain ⟨w, stored⟩ := Option.isSome_iff_exists.mp (AList.lookup_isSome.mpr held)
    exact Or.inl ⟨some w, (holds key _).mpr ⟨w, rfl, stored⟩⟩
  · exact Or.inr (by omega)

/-- A khash table does what a finite map does while it has fewer than `2 ^ 31` keys. -/
theorem khash_runs (equal : ∀ a b, hashEqual a b = true ↔ a = b) (unwritten : V)
    {ops : List (TableOp K V)} (few : FewKeys ∅ ops) :
    ∃ t, runTable (khashParams hashFunc hashEqual) (khCall hashFunc hashEqual) unwritten
      HashTable.init ops = some (runIdeal ∅ ops, t) := by
  have law : (khashParams hashFunc hashEqual).Lawful := khash_lawful equal
  have start : Represents law (HashTable.init : HashTable K V) ∅ := represents_init
  generalize (HashTable.init : HashTable K V) = t at start ⊢
  generalize (∅ : AList fun _ : K => V) = l at start few ⊢
  induction ops generalizing t l with
  | nil => exact ⟨t, rfl⟩
  | cons op ops ih =>
    obtain ⟨t1, ran, represents, -⟩ := start.run (khRule V law)
      (fun key v set => khReady_of_few start (few.1 key v set)) unwritten
    obtain ⟨t', rest⟩ := ih t1 _ represents few.2
    refine ⟨t', ?_⟩
    have ran : op.run _ (khCall hashFunc hashEqual) unwritten t = some ((op.ideal l).1, t1) := ran
    simp only [runTable, ran, rest, Option.bind_eq_bind, Option.bind_some]
    rfl

theorem khash_runs_sample :
    ∃ t, runTable (khashParams UInt64.toUInt32 fun a b => decide (a = b))
      (khCall UInt64.toUInt32 fun a b => decide (a = b)) 0 HashTable.init sampleOps =
        some ([none, none, some 70, none, none, some 390, none, some 71], t) :=
  khash_runs (fun _ _ => decide_eq_true_iff) 0 (by simp [sampleOps, FewKeys, TableOp.ideal])

/-- In these calls a khash table is never accessed outside its arrays, and every search in it and
    every rehash ends, however many keys there are. -/
theorem khash_total (equal : ∀ a b, hashEqual a b = true ↔ a = b) (unwritten : V)
    (ops : List (TableOp K V)) :
    ∃ found t, runTable (khashParams hashFunc hashEqual) (khCall hashFunc hashEqual) unwritten
      HashTable.init ops = some (found, t) ∧ t.size.toNat ≤ t.nBuckets.toNat := by
  have law : (khashParams hashFunc hashEqual).Lawful := khash_lawful equal
  obtain ⟨b, start, -⟩ : Represents law (HashTable.init : HashTable K V) ∅ := represents_init
  generalize (HashTable.init : HashTable K V) = t at start ⊢
  induction ops generalizing t b with
  | nil => exact ⟨[], t, rfl, start.size_le⟩
  | cons op ops ih =>
    have step : ∃ o t1 b1, op.run (khashParams hashFunc hashEqual) (khCall hashFunc hashEqual)
        unwritten t = some (o, t1) ∧ Working (khashParams hashFunc hashEqual) law t1 b1 := by
      cases op with
      | set key v =>
        obtain ⟨t1, b1, grown, opened⟩ := khGrow_opens start
        obtain ⟨x, ret, t2, b2, put, working, inside, -⟩ := opened.put_any key
        rcases WorkingTable.setVal_cases working x v with ⟨-, t3, set, working', -⟩ | ⟨outside, -⟩
        · refine ⟨none, t3, _, ?_, working'⟩
          simp only [TableOp.run, khCall, khPut, grown, put, set, Option.bind_eq_bind,
            Option.bind_some, Option.map_some]
        · exact absurd inside outside
      | find key =>
        rcases run_find (khCall hashFunc hashEqual) unwritten start key with ⟨-, found⟩ | ⟨v, -, found⟩
        · exact ⟨_, t, b, found, start⟩
        · exact ⟨_, t, b, found, start⟩
      | del key =>
        obtain ⟨t1, b1, ran, working, -⟩ := run_del (khCall hashFunc hashEqual) unwritten start key
        exact ⟨_, t1, b1, ran, working⟩
      | clear =>
        obtain ⟨t1, ran, working, -⟩ := run_clear (khCall hashFunc hashEqual) unwritten start
        exact ⟨_, t1, _, ran, working⟩
    obtain ⟨o, t1, b1, ran, working⟩ := step
    obtain ⟨found, t', rest, bound⟩ := ih b1 t1 working
    refine ⟨o :: found, t', ?_, bound⟩
    simp only [runTable, ran, rest, Option.bind_eq_bind, Option.bind_some]

theorem khash_total_sample :
    ∃ found t, runTable (khashParams UInt64.toUInt32 fun a b => decide (a = b))
      (khCall UInt64.toUInt32 fun a b => decide (a = b)) 0 HashTable.init sampleOps =
        some (found, t) ∧ t.size.toNat ≤ t.nBuckets.toNat :=
  khash_total (fun _ _ => decide_eq_true_iff) 0 sampleOps

end Khash

section Alignhash

variable {K V : Type} [DecidableEq K] {hashfn : K → UInt32} {hasheq : K → K → Bool}

/-- `alignhash_set` as a call. -/
def ahCall (hashfn : K → UInt32) (hasheq : K → K → Bool) (t : HashTable K V) (key : K) :
    Option (UInt32 × HashTable K V) :=
  (ahSet (alignhashParams hashfn hasheq) t key).map fun (x, _, t) => (x, t)

omit [DecidableEq K] in
theorem ahReady_of_few {law : (alignhashParams hashfn hasheq).Lawful} {t : HashTable K V}
    {b : Nat → Bucket K (Option V)} (working : Working (alignhashParams hashfn hasheq) law t b)
    (key : K) (few : t.nOccupied.toNat < 2 ^ 30) : (ahRule V law).ready t key = true := by
  have most := working.nBuckets_le
  have upper : t.upperBound.toNat = (t.nBuckets.toNat + 1) / 2 :=
    (congrArg UInt32.toNat working.upper).trans (toNat_ahSup working.count)
  apply decide_eq_true
  by_cases small : t.nBuckets.toNat < 2 ^ 31
  · exact Or.inl small
  · right
    rw [UInt32.lt_iff_toNat_lt]
    omega

/-- An alignhash table does what a finite map does for the first `2 ^ 30` calls that set a key. -/
theorem alignhash_runs (equal : ∀ a b, hasheq a b = true ↔ a = b) (unwritten : V)
    {ops : List (TableOp K V)} (few : (ops.map TableOp.sets).sum ≤ 2 ^ 30) :
    ∃ t, runTable (alignhashParams hashfn hasheq) (ahCall hashfn hasheq) unwritten
      HashTable.init ops = some (runIdeal ∅ ops, t) := by
  have law : (alignhashParams hashfn hasheq).Lawful := alignhash_lawful equal
  have start : Represents law (HashTable.init : HashTable K V) ∅ := represents_init
  have used : (HashTable.init : HashTable K V).nOccupied.toNat + (ops.map TableOp.sets).sum ≤
      2 ^ 30 := by
    change 0 + _ ≤ _
    omega
  clear few
  generalize (HashTable.init : HashTable K V) = t at start used ⊢
  generalize (∅ : AList fun _ : K => V) = l at start ⊢
  induction ops generalizing t l with
  | nil => exact ⟨t, rfl⟩
  | cons op ops ih =>
    rw [List.map_cons, List.sum_cons] at used
    have ready : ∀ key v, op = .set key v → (ahRule V law).ready t key = true := by
      rintro key v rfl
      obtain ⟨b, working, -⟩ := start
      apply ahReady_of_few working
      change _ + (1 + _) ≤ _ at used
      omega
    obtain ⟨t1, ran, represents, less⟩ := start.run (ahRule V law) ready unwritten
    obtain ⟨t', rest⟩ := ih t1 (by omega) _ represents
    refine ⟨t', ?_⟩
    have ran : op.run _ (ahCall hashfn hasheq) unwritten t = some ((op.ideal l).1, t1) := ran
    simp only [runTable, ran, rest, Option.bind_eq_bind, Option.bind_some]
    rfl

theorem alignhash_runs_sample :
    ∃ t, runTable (alignhashParams UInt64.toUInt32 fun a b => decide (a = b))
      (ahCall UInt64.toUInt32 fun a b => decide (a = b)) 0 HashTable.init sampleOps =
        some ([none, none, some 70, none, none, some 390, none, some 71], t) :=
  alignhash_runs (fun _ _ => decide_eq_true_iff) 0 (by decide)

end Alignhash

end Bzing
