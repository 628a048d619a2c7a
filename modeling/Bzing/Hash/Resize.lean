import Bzing.Data.Rehashing
import Bzing.Hash.Put

/-!
# Resizing a table

`kh_resize` and `alignhash_resize` rehash the table in the arrays it lies in. `Moving` says what
the arrays hold on the way, in the terms of `OpenTable.Rehash`. The process always ends, since
every bucket kicked out leaves one less to move; `resizeTo_of_fits` says that the new table
stands for the same keys and values.
-/

namespace Bzing

open FlagWords OpenTable HashTable

section Realloc

variable {α : Type} {cells : List (Option α)} {n : UInt32}

theorem length_reallocCells : (reallocCells cells n).length = n.toNat := by
  rw [reallocCells, List.length_append, List.length_take, List.length_replicate]
  omega

theorem getElem?_reallocCells {i : Nat} (inside : i < n.toNat) (held : i < cells.length) :
    (reallocCells cells n)[i]? = cells[i]? := by
  rw [reallocCells, List.getElem?_append_left (by rw [List.length_take]; omega),
    List.getElem?_take_of_lt inside]

/-- The cells when they are only reallocated to grow. -/
theorem length_grown {n' : UInt32} (len : cells.length = n.toNat) :
    (if n < n' then reallocCells cells n' else cells).length = max n.toNat n'.toNat := by
  by_cases grows : n < n'
  · have wide := UInt32.lt_iff_toNat_lt.mp grows
    rw [if_pos grows, length_reallocCells]
    omega
  · have narrow := UInt32.le_iff_toNat_le.mp (UInt32.not_lt.mp grows)
    rw [if_neg grows, len]
    omega

theorem getElem?_grown {n' : UInt32} (len : cells.length = n.toNat) {i : Nat}
    (inside : i < n.toNat) :
    (if n < n' then reallocCells cells n' else cells)[i]? = cells[i]? := by
  by_cases grows : n < n'
  · have wide := UInt32.lt_iff_toNat_lt.mp grows
    rw [if_pos grows, getElem?_reallocCells (by omega) (by omega)]
  · rw [if_neg grows]

/-- The cells when they are only reallocated to shrink. -/
theorem length_shrunk {n' : UInt32} (len : cells.length = max n.toNat n'.toNat) :
    (if n > n' then reallocCells cells n' else cells).length = n'.toNat := by
  by_cases shrinks : n > n'
  · rw [if_pos shrinks, length_reallocCells]
  · have wide := UInt32.le_iff_toNat_le.mp (UInt32.not_lt.mp shrinks)
    rw [if_neg shrinks, len]
    omega

theorem getElem?_shrunk {n' : UInt32} (len : cells.length = max n.toNat n'.toNat) {i : Nat}
    (inside : i < n'.toNat) :
    (if n > n' then reallocCells cells n' else cells)[i]? = cells[i]? := by
  by_cases shrinks : n > n'
  · rw [if_pos shrinks, getElem?_reallocCells inside (by omega)]
  · rw [if_neg shrinks]

end Realloc

variable {K V : Type}

/-- The arrays hold the cells. -/
structure Moving (n n' : Nat) (a : Arrays K V) (c : Nat → Cell K (Option V)) : Prop where
  flag {i : Nat} : i < n → ∃ empty deleted, bits a.flags i = some (empty, deleted) ∧
    (empty || deleted) = !(c i).isOld
  newFlag {i : Nat} : i < n' → bits a.newFlags i = some (!(c i).isNew, false)
  cell {i : Nat} {k : K} {v : Option V} : (c i).entry = some (k, v) →
    a.keys[i]? = some (some k) ∧ a.vals[i]? = some v
  old_lt {i : Nat} : (c i).isOld = true → i < n
  keysLen : a.keys.length = max n n'
  valsLen : a.vals.length = max n n'

section Moving

variable {n n' : Nat} {a : Arrays K V} {c : Nat → Cell K (Option V)} {i : UInt32}

theorem Moving.iseither_eq (moving : Moving n n' a c) (inside : i.toNat < n) :
    iseither a.flags i = some (!(c i.toNat).isOld) := by
  obtain ⟨empty, deleted, flag, either⟩ := moving.flag inside
  rw [iseither, test_of_bits (by decide) flag, ← either]
  cases empty <;> cases deleted <;> rfl

theorem Moving.isempty_eq (moving : Moving n n' a c) (inside : i.toNat < n') :
    isempty a.newFlags i = some (!(c i.toNat).isNew) := by
  rw [isempty, test_of_bits (by decide) (moving.newFlag inside)]
  cases (c i.toNat).isNew <;> rfl

/-- Marking an entry of the old table as deleted. -/
theorem Moving.exists_marked (moving : Moving n n' a c) (inside : i.toNat < n) :
    ∃ flags, setIsdelTrue a.flags i = some flags ∧
      (∃ empty, bits flags i.toNat = some (empty, true)) ∧
      ∀ j, j ≠ i.toNat → bits flags j = bits a.flags j := by
  obtain ⟨empty, deleted, flag, -⟩ := moving.flag inside
  obtain ⟨flags, raised, -, own, others⟩ := raise_of_bits 1 (by decide) flag
  refine ⟨flags, raised, ⟨empty, ?_⟩, others⟩
  rw [own]
  cases empty <;> cases deleted <;> rfl

theorem Moving.exists_taken (moving : Moving n n' a c) (inside : i.toNat < n') :
    ∃ flags, setIsemptyFalse a.newFlags i = some flags ∧
      bits flags i.toNat = some (false, false) ∧
      ∀ j, j ≠ i.toNat → bits flags j = bits a.newFlags j := by
  obtain ⟨flags, cleared, -, own, others⟩ :=
    clear_of_bits 2 (by decide) (moving.newFlag inside)
  refine ⟨flags, cleared, ?_, others⟩
  rw [own]
  cases (c i.toNat).isNew <;> rfl

/-- An entry of the old table is picked up. -/
theorem Moving.pick (moving : Moving n n' a c) {flags : List UInt32}
    (own : ∃ empty, bits flags i.toNat = some (empty, true))
    (others : ∀ j, j ≠ i.toNat → bits flags j = bits a.flags j)
    (old : (c i.toNat).isOld = true) :
    Moving n n' { a with flags := flags } (Function.update c i.toNat .free) where
  flag {j} small := by
    by_cases same : j = i.toNat
    · obtain ⟨empty, flag⟩ := own
      rw [same, Function.update_self]
      exact ⟨empty, true, flag, Bool.or_true empty⟩
    · rw [Function.update_of_ne same, others j same]
      exact moving.flag small
  newFlag {j} small := by
    by_cases same : j = i.toNat
    · have before := moving.newFlag small
      rw [same] at before ⊢
      rw [Function.update_self, before]
      cases cell : c i.toNat with
      | new k v =>
        rw [cell] at old
        cases old
      | _ => rfl
    · rw [Function.update_of_ne same]
      exact moving.newFlag small
  cell {j k v} here := by
    by_cases same : j = i.toNat
    · rw [same, Function.update_self] at here
      cases here
    · rw [Function.update_of_ne same] at here
      exact moving.cell here
  old_lt {j} here := by
    by_cases same : j = i.toNat
    · rw [same, Function.update_self] at here
      cases here
    · rw [Function.update_of_ne same] at here
      exact moving.old_lt here
  keysLen := moving.keysLen
  valsLen := moving.valsLen

/-- The entry in hand is written to a cell. -/
theorem Moving.place (moving : Moving n n' a c) {flags newFlags : List UInt32} (key : K)
    (val : Option V) (inside : i.toNat < n')
    (flag : i.toNat < n → ∃ empty deleted, bits flags i.toNat = some (empty, deleted) ∧
      (empty || deleted) = true)
    (others : ∀ j, j ≠ i.toNat → bits flags j = bits a.flags j)
    (newFlag : bits newFlags i.toNat = some (false, false))
    (newOthers : ∀ j, j ≠ i.toNat → bits newFlags j = bits a.newFlags j) :
    Moving n n' ⟨flags, newFlags, a.keys.set i.toNat (some key), a.vals.set i.toNat val⟩
      (Function.update c i.toNat (.new key val)) where
  flag {j} small := by
    by_cases same : j = i.toNat
    · rw [same, Function.update_self]
      exact flag (same ▸ small)
    · rw [Function.update_of_ne same, others j same]
      exact moving.flag small
  newFlag {j} small := by
    by_cases same : j = i.toNat
    · rw [same, Function.update_self]
      exact newFlag
    · rw [Function.update_of_ne same, newOthers j same]
      exact moving.newFlag small
  cell {j k v} here := by
    by_cases same : j = i.toNat
    · rw [same, Function.update_self] at here
      cases here
      rw [same]
      exact ⟨List.getElem?_set_self (by rw [moving.keysLen]; omega),
        List.getElem?_set_self (by rw [moving.valsLen]; omega)⟩
    · rw [Function.update_of_ne same] at here
      rw [List.getElem?_set_ne (Ne.symm same), List.getElem?_set_ne (Ne.symm same)]
      exact moving.cell here
  old_lt {j} here := by
    by_cases same : j = i.toNat
    · rw [same, Function.update_self] at here
      cases here
    · rw [Function.update_of_ne same] at here
      exact moving.old_lt here
  keysLen := by rw [List.length_set, moving.keysLen]
  valsLen := by rw [List.length_set, moving.valsLen]

end Moving

/-! ## The kick-out process -/

section KickOut

variable {p : HashParams K} {law : p.Lawful} {n n' : UInt32} {a : Arrays K V}
  {c : Nat → Cell K (Option V)} {content : K → Option V → Prop} {key : K} {val : Option V}

/-- How many entries there are in the arrays, and how many of the old table. -/
def entries (n n' : UInt32) (c : Nat → Cell K (Option V)) : Nat :=
  Nat.count (fun i => (c i).entry.isSome = true) (max n.toNat n'.toNat)

def oldEntries (n n' : UInt32) (c : Nat → Cell K (Option V)) : Nat :=
  Nat.count (fun i => (c i).isOld = true) (max n.toNat n'.toNat)

/-- The search for a free bucket ends at the first one on the path. -/
theorem freeBucket_stops (count : BucketCount n') (moving : Moving n.toNat n'.toNat a c)
    (fuel : Nat) {j m : Nat} {i : UInt32} (short : m < n'.toNat)
    (leaves : (c ((p.scheme law count).path key m)).isNew = false)
    (before : ∀ j' < m, (c ((p.scheme law count).path key j')).isNew = true)
    (le : j ≤ m) (enough : m < j + fuel) (here : i.toNat = (p.scheme law count).path key j) :
    ∃ x, freeBucket a.newFlags (n' - 1) (p.inc (p.hashFunc key) (n' - 1)) fuel i = some x ∧
      x.toNat = (p.scheme law count).path key m := by
  induction fuel generalizing i j with
  | zero => omega
  | succ fuel ih =>
    have inside : i.toNat < n'.toNat :=
      here ▸ (p.scheme law count).path_lt (by rw [scheme_n]; omega)
    have empty := moving.isempty_eq inside
    by_cases stops : j = m
    · subst stops
      rw [here, leaves] at empty
      refine ⟨i, ?_, here⟩
      rw [freeBucket, empty]
      rfl
    · rw [here, before j (by omega)] at empty
      have next := path_succ law count (by omega) here
      obtain ⟨x, loop, at_m⟩ := ih (by omega) (by omega) next
      refine ⟨x, ?_, at_m⟩
      rw [freeBucket, empty]
      exact loop

/-- The process places the entry in hand, and all it kicks out. -/
theorem kickOut_places (count : BucketCount n') (fuel : Nat)
    (moving : Moving n.toNat n'.toNat a c)
    (rehash : Rehash (p.scheme law count) content c (some (key, val)))
    (few : entries n n' c < n'.toNat) (enough : oldEntries n n' c < fuel) :
    ∃ a' c', kickOut p n n' fuel a key val = some a' ∧ Moving n.toNat n'.toNat a' c' ∧
      Rehash (p.scheme law count) content c' none ∧ entries n n' c' = entries n n' c + 1 ∧
      ∀ i, (c' i).isOld = true → (c i).isOld = true := by
  induction fuel generalizing a c key val with
  | zero => omega
  | succ fuel ih =>
    have pos : 0 < n'.toNat := by omega
    obtain ⟨m, short, leaves, before⟩ :=
      exists_leaves (s := p.scheme law count) (Nat.le_max_right n.toNat n'.toNat) few key
    obtain ⟨x, free, at_m⟩ := freeBucket_stops count moving n'.toNat short leaves before
      (Nat.zero_le m) (by rw [Nat.zero_add]; exact short) (path_zero law count key pos)
    have inside : x.toNat < n'.toNat := at_m ▸ (p.scheme law count).path_lt short
    have below : x.toNat < max n.toNat n'.toNat := by omega
    obtain ⟨newFlags, cleared, newFlag, newOthers⟩ := moving.exists_taken inside
    have placed := rehash.place short before
    rw [← at_m] at placed leaves
    have total := count_update c (fun cell => cell.entry.isSome) below (.new key val)
    have old := count_update c Cell.isOld below (.new key val)
    have keys := setCell_inside (some key)
      (by rw [moving.keysLen]; omega : x.toNat < a.keys.length)
    have vals := setCell_inside val (by rw [moving.valsLen]; omega : x.toNat < a.vals.length)
    have drops : ∀ i, (Function.update c x.toNat (.new key val) i).isOld = true →
        (c i).isOld = true := by
      intro i here
      by_cases same : i = x.toNat
      · rw [same, Function.update_self] at here
        cases here
      · rwa [Function.update_of_ne same] at here
    cases cell : c x.toNat with
    | new k v =>
      rw [cell] at leaves
      cases leaves
    | free =>
      rw [cell] at placed total
      have stays : x.toNat < n.toNat → ∃ empty deleted,
          bits a.flags x.toNat = some (empty, deleted) ∧ (empty || deleted) = true := by
        intro small
        obtain ⟨empty, deleted, flag, either⟩ := moving.flag small
        rw [cell] at either
        exact ⟨empty, deleted, flag, either⟩
      have kicks : occupied a.flags n x = some false := by
        unfold occupied
        by_cases small : x < n
        · rw [if_pos small, moving.iseither_eq (UInt32.lt_iff_toNat_lt.mp small), cell]
          rfl
        · rw [if_neg small]
      refine ⟨_, _, ?_, moving.place key val inside stays (fun _ _ => rfl)
        newFlag newOthers, placed, total, drops⟩
      simp only [kickOut, free, cleared, kicks, keys, vals, Option.bind_eq_bind, Option.bind_some,
        Bool.false_eq_true, if_false]
    | old k v =>
      rw [cell] at placed total old
      have isOld : (c x.toNat).isOld = true := by
        rw [cell]
        rfl
      have small := moving.old_lt isOld
      obtain ⟨flags, raised, own, others⟩ := moving.exists_marked small
      have gone : x.toNat < n.toNat → ∃ empty deleted,
          bits flags x.toNat = some (empty, deleted) ∧ (empty || deleted) = true := by
        intro _
        obtain ⟨empty, flag⟩ := own
        exact ⟨empty, true, flag, Bool.or_true empty⟩
      have kicks : occupied a.flags n x = some true := by
        rw [occupied, if_pos (UInt32.lt_iff_toNat_lt.mpr small), moving.iseither_eq small, cell]
        rfl
      obtain ⟨key', val'⟩ := moving.cell (i := x.toNat) (k := k) (v := v) (by rw [cell]; rfl)
      have same : entries n n' (Function.update c x.toNat (.new key val)) = entries n n' c :=
        Nat.add_right_cancel total
      have less : oldEntries n n' (Function.update c x.toNat (.new key val)) + 1 =
          oldEntries n n' c := old
      obtain ⟨a', c', loop, moving', rehash', counted, fewer⟩ :=
        ih (moving.place key val inside gone others newFlag newOthers)
          placed (by rw [same]; exact few) (by omega)
      refine ⟨a', c', ?_, moving', rehash', by rw [counted, same],
        fun i here => drops i (fewer i here)⟩
      simp only [kickOut, free, cleared, kicks, keys, vals, key', val', raised,
        Option.bind_eq_bind, Option.bind_some, Option.join_some, if_true]
      exact loop

/-- One turn of the outer loop leaves no entry of the old table in its bucket. -/
theorem rehashBucket_moves (count : BucketCount n') (moving : Moving n.toNat n'.toNat a c)
    (rehash : Rehash (p.scheme law count) content c none) (few : entries n n' c ≤ n'.toNat)
    {j : UInt32} (inside : j.toNat < n.toNat) :
    ∃ a' c', rehashBucket p n n' a j = some a' ∧ Moving n.toNat n'.toNat a' c' ∧
      Rehash (p.scheme law count) content c' none ∧ entries n n' c' = entries n n' c ∧
      (c' j.toNat).isOld = false ∧ ∀ i, (c' i).isOld = true → (c i).isOld = true := by
  have either := moving.iseither_eq inside
  cases old : (c j.toNat).isOld with
  | false =>
    rw [old] at either
    refine ⟨a, c, ?_, moving, rehash, rfl, old, fun _ here => here⟩
    simp only [rehashBucket, either, Option.bind_eq_bind, Option.bind_some, Bool.not_false,
      if_true]
  | true =>
    rw [old] at either
    obtain ⟨key, val, cell⟩ : ∃ key val, c j.toNat = .old key val := by
      cases cell : c j.toNat with
      | old key val => exact ⟨key, val, rfl⟩
      | _ =>
        rw [cell] at old
        cases old
    obtain ⟨keys, vals⟩ := moving.cell (i := j.toNat) (k := key) (v := val) (by rw [cell]; rfl)
    obtain ⟨flags, raised, own, others⟩ := moving.exists_marked inside
    have below : j.toNat < max n.toNat n'.toNat := by omega
    have total := count_update c (fun cell => cell.entry.isSome) below .free
    have drop := count_update c Cell.isOld below .free
    rw [cell] at total drop
    have less : entries n n' (Function.update c j.toNat .free) + 1 = entries n n' c := total
    have lessOld : oldEntries n n' (Function.update c j.toNat .free) + 1 = oldEntries n n' c :=
      drop
    have bound : oldEntries n n' c ≤ n.toNat := by
      have all : oldEntries n n' c = Nat.count (fun i => (c i).isOld = true) n.toNat := by
        apply le_antisymm
        · unfold oldEntries
          obtain ⟨rest, split⟩ := Nat.exists_eq_add_of_le (Nat.le_max_left n.toNat n'.toNat)
          rw [split, Nat.count_add]
          have none : Nat.count (fun i => (c (n.toNat + i)).isOld = true) rest = 0 := by
            apply Nat.count_iff_forall_not.mpr
            intro i _ old
            have := moving.old_lt old
            omega
          omega
        · exact Nat.count_monotone _ (Nat.le_max_left n.toNat n'.toNat)
      rw [all]
      exact Nat.count_le _
    obtain ⟨a', c', loop, moving', rehash', counted, fewer⟩ :=
      kickOut_places count (n.toNat + 1) (moving.pick own others old) (rehash.pick cell)
        (by omega) (by omega)
    refine ⟨a', c', ?_, moving', rehash', by omega, ?_, ?_⟩
    · simp only [rehashBucket, either, keys, vals, raised, Option.bind_eq_bind, Option.bind_some,
        Option.join_some, Bool.not_true, Bool.false_eq_true, if_false]
      exact loop
    · apply Bool.eq_false_iff.mpr
      intro stays
      have free := fewer _ stays
      rw [Function.update_self] at free
      cases free
    · intro i here
      have before := fewer i here
      by_cases same : i = j.toNat
      · rw [same]
        exact old
      · rwa [Function.update_of_ne same] at before

/-- The outer loop moves the entries of all buckets it comes to. -/
theorem rehash_moves (count : BucketCount n') (js : List Nat) (inside : ∀ j ∈ js, j < n.toNat)
    (moving : Moving n.toNat n'.toNat a c)
    (rehash : Rehash (p.scheme law count) content c none) (few : entries n n' c ≤ n'.toNat) :
    ∃ a' c', js.foldlM (fun a j => rehashBucket p n n' a (UInt32.ofNat j)) a = some a' ∧
      Moving n.toNat n'.toNat a' c' ∧ Rehash (p.scheme law count) content c' none ∧
      entries n n' c' = entries n n' c ∧ (∀ j ∈ js, (c' j).isOld = false) ∧
      ∀ i, (c' i).isOld = true → (c i).isOld = true := by
  induction js generalizing a c with
  | nil => exact ⟨a, c, rfl, moving, rehash, rfl, nofun, fun _ here => here⟩
  | cons j js ih =>
    have small := inside j List.mem_cons_self
    have number : (UInt32.ofNat j).toNat = j := by
      rw [UInt32.toNat_ofNat']
      exact Nat.mod_eq_of_lt (Nat.lt_trans small n.toNat_lt)
    obtain ⟨a1, c1, first, moving1, rehash1, same1, done1, fewer1⟩ :=
      rehashBucket_moves count moving rehash few (j := UInt32.ofNat j) (by rw [number]; exact small)
    obtain ⟨a', c', rest, moving', rehash', same', done', fewer'⟩ :=
      ih (fun i member => inside i (List.mem_cons_of_mem j member)) moving1 rehash1
        (by rw [same1]; exact few)
    refine ⟨a', c', ?_, moving', rehash', same'.trans same1, ?_,
      fun i here => fewer1 i (fewer' i here)⟩
    · rw [List.foldlM_cons, first]
      exact rest
    · intro i member
      rcases List.mem_cons.mp member with rfl | later
      · apply Bool.eq_false_iff.mpr
        intro stays
        rw [number] at done1
        rw [fewer' i stays] at done1
        cases done1
      · exact done' i later

end KickOut

/-! ## The new table -/

section Resize

variable {p : HashParams K} {law : p.Lawful} {t : HashTable K V}
  {b : Nat → Bucket K (Option V)} {n' : UInt32}

/-- The cells are reallocated before the entries are moved only when the table grows. -/
theorem Buckets.moving (table : Buckets p law t b) (count : BucketCount n') :
    Moving t.nBuckets.toNat n'.toNat
      ⟨t.flags, allEmpty (p.fsize n'),
        if t.nBuckets < n' then reallocCells t.keys n' else t.keys,
        if t.nBuckets < n' then reallocCells t.vals n' else t.vals⟩
      fun i => .ofBucket (b i) where
  flag {i} inside := by
    refine ⟨_, _, table.arrayed.flag inside, ?_⟩
    cases b i <;> rfl
  newFlag {i} inside := by
    rw [bits_allEmpty (Nat.lt_of_lt_of_le inside (law.fsize_le count))]
    cases b i <;> rfl
  cell {i k v} here := by
    rw [Cell.entry_ofBucket] at here
    have inside : i < t.nBuckets.toNat := by
      by_contra beyond
      rw [table.arrayed.outside (Nat.le_of_not_lt beyond)] at here
      cases here
    exact ⟨(getElem?_grown table.arrayed.keysLen inside).trans (table.arrayed.key inside here),
      (getElem?_grown table.arrayed.valsLen inside).trans (table.arrayed.val inside here)⟩
  old_lt {i} old := by
    by_contra beyond
    rw [table.arrayed.outside (Nat.le_of_not_lt beyond)] at old
    cases old
  keysLen := length_grown table.arrayed.keysLen
  valsLen := length_grown table.arrayed.valsLen

/-- When every entry has been moved, the arrays hold the buckets of the new table. -/
theorem Moving.arrayed {n : UInt32} {a : Arrays K V} {c : Nat → Cell K (Option V)}
    (moving : Moving n.toNat n'.toNat a c)
    (new_lt : ∀ {i k v}, c i = .new k v → i < n'.toNat) :
    Arrayed n'.toNat a.newFlags (if n > n' then reallocCells a.keys n' else a.keys)
      (if n > n' then reallocCells a.vals n' else a.vals) fun i => (c i).bucket where
  flag {i} inside := by
    rw [moving.newFlag inside]
    cases c i <;> rfl
  key {i k v} inside here := by
    rw [getElem?_shrunk moving.keysLen inside]
    exact (moving.cell (Cell.entry_eq_some.mpr (Or.inr (Cell.bucket_eq_live.mp here)))).1
  val {i k v} inside here := by
    rw [getElem?_shrunk moving.valsLen inside]
    exact (moving.cell (Cell.entry_eq_some.mpr (Or.inr (Cell.bucket_eq_live.mp here)))).2
  outside {i} beyond := by
    cases cell : c i with
    | new k v =>
      have := new_lt cell
      omega
    | _ => rfl
  keysLen := length_shrunk moving.keysLen
  valsLen := length_shrunk moving.valsLen

/-- Resizing to a number of buckets that is large enough keeps every key and its value. -/
theorem Buckets.resizeTo_of_fits (table : Buckets p law t b) (count : BucketCount n')
    (fits : t.size < p.upper n') :
    ∃ t' b', resizeTo p t n' = some (true, t') ∧ Buckets p law t' b' ∧ t'.nBuckets = n' ∧
      t'.size = t.size ∧ t'.nOccupied = t.size ∧
      ∀ k v, Holds n'.toNat b' k v ↔ Holds t.nBuckets.toNat b k v := by
  have bound := law.upper_le count
  have wide := UInt32.lt_iff_toNat_lt.mp fits
  have moving := table.moving count
  have rehash := Rehash.start table.sound (fun i beyond => table.arrayed.outside beyond)
    (p.scheme law count)
  have total : entries t.nBuckets n' (fun i => .ofBucket (b i)) = t.size.toNat := by
    have same : entries t.nBuckets n' (fun i => .ofBucket (b i)) =
        Nat.count (fun i => (b i).isLive = true) (max t.nBuckets.toNat n'.toNat) := by
      simp only [entries, Cell.isSome_entry_ofBucket]
    obtain ⟨rest, split⟩ := Nat.exists_eq_add_of_le (Nat.le_max_left t.nBuckets.toNat n'.toNat)
    have none : Nat.count (fun i => (b (t.nBuckets.toNat + i)).isLive = true) rest = 0 := by
      apply Nat.count_iff_forall_not.mpr
      intro i _ live
      rw [table.arrayed.outside (Nat.le_add_right _ i)] at live
      cases live
    rw [same, split, Nat.count_add, none, table.size, Nat.add_zero]
  obtain ⟨a, c, loop, moving', rehash', same, moved, fewer⟩ :=
    rehash_moves count (List.range t.nBuckets.toNat) (fun j => List.mem_range.mp) moving rehash
      (by omega)
  have done : ∀ i, (c i).isOld = false := by
    intro i
    apply Bool.eq_false_iff.mpr
    intro old
    rw [moved i (List.mem_range.mpr (moving'.old_lt old))] at old
    cases old
  obtain ⟨sound, content⟩ := rehash'.finish done
  -- what is counted in the new table are the entries
  have counted : Nat.count (fun i => (c i).bucket.isLive = true) n'.toNat = t.size.toNat := by
    have live : ∀ i, (c i).bucket.isLive = (c i).entry.isSome := by
      intro i
      have := done i
      cases cell : c i with
      | old k v =>
        rw [cell] at this
        cases this
      | _ => rfl
    obtain ⟨rest, split⟩ := Nat.exists_eq_add_of_le (Nat.le_max_right t.nBuckets.toNat n'.toNat)
    have none : Nat.count (fun i => (c (n'.toNat + i)).entry.isSome = true) rest = 0 := by
      apply Nat.count_iff_forall_not.mpr
      intro i _ some
      rw [← live, Bucket.isLive_iff] at some
      obtain ⟨k, v, here⟩ := some
      have := rehash'.new_lt (Cell.bucket_eq_live.mp here)
      rw [scheme_n] at this
      omega
    rw [← total, ← same, entries, split, Nat.count_add, none, Nat.add_zero]
    simp only [live]
  have occupied : ∀ i, (!(c i).bucket.isEmpty) = (c i).bucket.isLive := by
    intro i
    cases c i <;> rfl
  let t' : HashTable K V :=
    { nBuckets := n'
      size := t.size
      nOccupied := t.size
      upperBound := p.upper n'
      flags := a.newFlags
      keys := if t.nBuckets > n' then reallocCells a.keys n' else a.keys
      vals := if t.nBuckets > n' then reallocCells a.vals n' else a.vals }
  refine ⟨t', fun i => (c i).bucket, ?_, ⟨count, moving'.arrayed rehash'.new_lt, sound,
    counted.symm, ?_, rfl⟩, rfl, rfl, rfl, content⟩
  · unfold resizeTo
    rw [if_neg (UInt32.not_le.mpr fits)]
    simp only [loop, Option.bind_eq_bind, Option.bind_some, t']
  · simp only [occupied]
    exact counted.symm

end Resize

end Bzing
