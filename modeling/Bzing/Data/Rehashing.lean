import Bzing.Data.OpenTable

/-!
# Rehashing in place

A table is rehashed in the arrays it lies in. A cell holds an entry of the old table that has not
been moved yet, or one of the new table, or nothing that counts. An entry is picked up and placed
in the first cell on its path that holds none of the new table; if one of the old table was
there, that one is placed next. `Rehash` is what every step keeps: together with the entry in
hand the cells hold the content of the old table, each key once, and the new entries can be
reached over new entries.
-/

namespace OpenTable

/-- What a cell of the arrays holds. -/
inductive Cell (K V : Type) where
  | free
  | old (k : K) (v : V)
  | new (k : K) (v : V)

namespace Cell

variable {K V : Type}

def entry : Cell K V → Option (K × V)
  | free => none
  | old k v => some (k, v)
  | new k v => some (k, v)

def isOld : Cell K V → Bool
  | old _ _ => true
  | _ => false

def isNew : Cell K V → Bool
  | new _ _ => true
  | _ => false

/-- The bucket of the new table. -/
def bucket : Cell K V → Bucket K V
  | new k v => .live k v
  | _ => .empty

/-- The cell of a bucket of the old table. -/
def ofBucket : Bucket K V → Cell K V
  | .live k v => old k v
  | _ => free

theorem entry_eq_some {c : Cell K V} {k : K} {v : V} :
    c.entry = some (k, v) ↔ c = old k v ∨ c = new k v := by
  cases c <;> simp [entry]

theorem bucket_eq_live {c : Cell K V} {k : K} {v : V} : c.bucket = .live k v ↔ c = new k v := by
  cases c <;> simp [bucket]

theorem ofBucket_ne_new {b : Bucket K V} {k : K} {v : V} : ofBucket b ≠ new k v := by
  cases b <;> simp [ofBucket]

theorem entry_ofBucket {b : Bucket K V} {k : K} {v : V} :
    (ofBucket b).entry = some (k, v) ↔ b = .live k v := by
  cases b <;> simp [ofBucket, entry]

theorem isSome_entry_ofBucket (b : Bucket K V) : (ofBucket b).entry.isSome = b.isLive := by
  cases b <;> rfl

end Cell

variable {K V : Type}

/-- The cells and the entry in hand hold the content, and the new entries are placed for the
    new table. -/
structure Rehash (s : Scheme K) (content : K → V → Prop) (c : Nat → Cell K V)
    (hand : Option (K × V)) : Prop where
  new_lt {i : Nat} {k : K} {v : V} : c i = .new k v → i < s.n
  has {k : K} {v : V} : content k v ↔ hand = some (k, v) ∨ ∃ i, (c i).entry = some (k, v)
  unique {i i' : Nat} {k : K} {v v' : V} : (c i).entry = some (k, v) →
    (c i').entry = some (k, v') → i = i'
  apart {i : Nat} {k : K} {v v' : V} : hand = some (k, v) → (c i).entry ≠ some (k, v')
  reached {i : Nat} {k : K} {v : V} : c i = .new k v →
    ∃ j < s.n, s.path k j = i ∧ ∀ j' < j, (c (s.path k j')).isNew = true

section Rehash

variable {s : Scheme K} {content : K → V → Prop} {c : Nat → Cell K V} {k : K} {v : V} {i j : Nat}

/-- At first nothing has been moved. -/
theorem Rehash.start {old : Scheme K} {b : Nat → Bucket K V} (sound : Sound old b)
    (outside : ∀ i, old.n ≤ i → b i = .empty) (s : Scheme K) :
    Rehash s (Holds old.n b) (fun i => .ofBucket (b i)) none := by
  have inside : ∀ {i k v}, (Cell.ofBucket (b i)).entry = some (k, v) →
      i < old.n ∧ b i = .live k v := by
    intro i k v here
    rw [Cell.entry_ofBucket] at here
    refine ⟨?_, here⟩
    by_contra beyond
    rw [outside i (Nat.le_of_not_lt beyond)] at here
    cases here
  constructor
  · intro i k v new
    exact absurd new Cell.ofBucket_ne_new
  · intro k v
    constructor
    · rintro ⟨i, -, here⟩
      exact Or.inr ⟨i, Cell.entry_ofBucket.mpr here⟩
    · rintro (⟨⟨⟩⟩ | ⟨i, here⟩)
      exact ⟨i, inside here⟩
  · intro i i' k v v' here here'
    exact sound.unique (inside here).1 (inside here').1 (inside here).2 (inside here').2
  · nofun
  · intro i k v new
    exact absurd new Cell.ofBucket_ne_new

/-- An entry of the old table is taken into the hand. -/
theorem Rehash.pick (h : Rehash s content c none) (here : c i = .old k v) :
    Rehash s content (Function.update c i .free) (some (k, v)) := by
  have taken : (c i).entry = some (k, v) := Cell.entry_eq_some.mpr (Or.inl here)
  have other : ∀ {i' e}, (Function.update c i .free i').entry = some e →
      i' ≠ i ∧ (c i').entry = some e := by
    intro i' e there
    by_cases same : i' = i
    · rw [same, Function.update_self] at there
      cases there
    · exact ⟨same, by rwa [Function.update_of_ne same] at there⟩
  have stays : ∀ {i'}, (c i').isNew = true → (Function.update c i .free i').isNew = true := by
    intro i' new
    have same : i' ≠ i := by
      rintro rfl
      rw [here] at new
      cases new
    rwa [Function.update_of_ne same]
  have new_of : ∀ {i' k' v'}, Function.update c i .free i' = .new k' v' → c i' = .new k' v' := by
    intro i' k' v' new
    by_cases same : i' = i
    · rw [same, Function.update_self] at new
      cases new
    · rwa [Function.update_of_ne same] at new
  constructor
  · exact fun new => h.new_lt (new_of new)
  · intro k' v'
    rw [h.has]
    constructor
    · rintro (⟨⟨⟩⟩ | ⟨i', there⟩)
      by_cases same : i' = i
      · rw [same, taken] at there
        exact Or.inl there
      · exact Or.inr ⟨i', by rwa [Function.update_of_ne same]⟩
    · rintro (hand | ⟨i', there⟩)
      · exact Or.inr ⟨i, taken.trans hand⟩
      · exact Or.inr ⟨i', (other there).2⟩
  · exact fun at1 at2 => h.unique (other at1).2 (other at2).2
  · rintro i' k' w w' ⟨⟩ there
    exact (other there).1 (h.unique (other there).2 taken)
  · intro i' k' v' new
    obtain ⟨j, short, there, path⟩ := h.reached (new_of new)
    exact ⟨j, short, there, fun j' early => stays (path j' early)⟩

/-- The entry in hand is placed behind new entries on its path, and what stood there is taken
    into the hand. -/
theorem Rehash.place (h : Rehash s content c (some (k, v))) (short : j < s.n)
    (before : ∀ j' < j, (c (s.path k j')).isNew = true) :
    Rehash s content (Function.update c (s.path k j) (.new k v)) (c (s.path k j)).entry := by
  generalize place : s.path k j = i
  have inside : i < s.n := place ▸ s.path_lt short
  have own : (Function.update c i (.new k v) i).entry = some (k, v) := by
    rw [Function.update_self]
    rfl
  have others : ∀ {i' e}, i' ≠ i →
      ((Function.update c i (.new k v) i').entry = some e ↔ (c i').entry = some e) := by
    intro i' e ne
    rw [Function.update_of_ne ne]
  have stays : ∀ {i'}, (c i').isNew = true →
      (Function.update c i (.new k v) i').isNew = true := by
    intro i' new
    by_cases same : i' = i
    · rw [same, Function.update_self]
      rfl
    · rwa [Function.update_of_ne same]
  constructor
  · intro i' k' v' new
    by_cases same : i' = i
    · exact same ▸ inside
    · rw [Function.update_of_ne same] at new
      exact h.new_lt new
  · intro k' v'
    rw [h.has]
    constructor
    · rintro (hand | ⟨i', there⟩)
      · exact Or.inr ⟨i, own.trans hand⟩
      · by_cases same : i' = i
        · exact Or.inl (same ▸ there)
        · exact Or.inr ⟨i', (others same).mpr there⟩
    · rintro (kicked | ⟨i', there⟩)
      · exact Or.inr ⟨i, kicked⟩
      · by_cases same : i' = i
        · rw [same, own] at there
          exact Or.inl there
        · exact Or.inr ⟨i', (others same).mp there⟩
  · intro i1 i2 key w w' at1 at2
    by_cases own1 : i1 = i
    · by_cases own2 : i2 = i
      · rw [own1, own2]
      · rw [own1, own] at at1
        cases at1
        exact absurd ((others own2).mp at2) (h.apart rfl)
    · by_cases own2 : i2 = i
      · rw [own2, own] at at2
        cases at2
        exact absurd ((others own1).mp at1) (h.apart rfl)
      · exact h.unique ((others own1).mp at1) ((others own2).mp at2)
  · intro i' key w w' kicked there
    by_cases same : i' = i
    · rw [same, own] at there
      cases there
      exact h.apart rfl kicked
    · exact same (h.unique ((others same).mp there) kicked)
  · intro i' key w new
    by_cases same : i' = i
    · rw [same, Function.update_self] at new
      cases new
      exact ⟨j, short, place.trans same.symm, fun j' early => stays (before j' early)⟩
    · rw [Function.update_of_ne same] at new
      obtain ⟨turn, small, there, path⟩ := h.reached new
      exact ⟨turn, small, there, fun j' early => stays (path j' early)⟩

/-- When every entry has been moved, the new table is sound and holds the content. -/
theorem Rehash.finish (h : Rehash s content c none) (moved : ∀ i, (c i).isOld = false) :
    Sound s (fun i => (c i).bucket) ∧ ∀ k v, Holds s.n (fun i => (c i).bucket) k v ↔ content k v := by
  have entry_of : ∀ {i k v}, (c i).bucket = .live k v → (c i).entry = some (k, v) :=
    fun here => Cell.entry_eq_some.mpr (Or.inr (Cell.bucket_eq_live.mp here))
  refine ⟨⟨?_, ?_⟩, ?_⟩
  · intro i i' k v v' _ _ here here'
    exact h.unique (entry_of here) (entry_of here')
  · intro i k v inside here
    obtain ⟨j, short, there, path⟩ := h.reached (Cell.bucket_eq_live.mp here)
    refine ⟨j, short, there, ?_⟩
    intro j' early
    have new := path j' early
    cases cell : c (s.path k j') with
    | new k' v' => nofun
    | _ =>
      rw [cell] at new
      cases new
  · intro k v
    rw [h.has]
    constructor
    · rintro ⟨i, -, here⟩
      exact Or.inr ⟨i, entry_of here⟩
    · rintro (⟨⟨⟩⟩ | ⟨i, here⟩)
      rcases Cell.entry_eq_some.mp here with old | new
      · have none := moved i
        rw [old] at none
        cases none
      · exact ⟨i, h.new_lt new, Cell.bucket_eq_live.mpr new⟩

/-- While there are fewer entries than buckets, every path leaves the new entries. -/
theorem exists_leaves {m : Nat} (large : s.n ≤ m)
    (few : Nat.count (fun i => (c i).entry.isSome = true) m < s.n) (k : K) :
    ∃ j < s.n, (c (s.path k j)).isNew = false ∧ ∀ j' < j, (c (s.path k j')).isNew = true := by
  have fewer : Nat.count (fun i => (c i).isNew = true) s.n < s.n := by
    calc Nat.count (fun i => (c i).isNew = true) s.n
        ≤ Nat.count (fun i => (c i).isNew = true) m := Nat.count_monotone _ large
      _ ≤ Nat.count (fun i => (c i).entry.isSome = true) m := by
          apply Nat.count_mono_left
          intro i _ new
          cases cell : c i with
          | new k v => rfl
          | _ =>
            rw [cell] at new
            cases new
      _ < s.n := few
  obtain ⟨i, inside, spare⟩ := exists_not_of_count_lt fewer
  obtain ⟨j, short, rfl⟩ := s.exists_path k inside
  obtain ⟨j', le, leaves, first⟩ :=
    s.exists_first (p := fun i => ¬ (c i).isNew = true) k spare
  refine ⟨j', Nat.lt_of_le_of_lt le short, Bool.not_eq_true _ ▸ leaves, ?_⟩
  intro i before
  exact not_not.mp (first i before)

end Rehash

end OpenTable
