import Bzing.Data.OpenTable

/-!
# Rehashing into a new table

The keys of a table with open addressing are put into an empty one, bucket after bucket, each in
the first empty bucket on its path. `Copied` says how far it has come: the new table is sound,
nothing in it is marked, and it holds the keys of the buckets that are done, each in a bucket of
its own. So there is an empty bucket while it has more buckets than are done.
-/

namespace OpenTable

variable {K V : Type}

/-- The buckets that are live. -/
def liveBuckets (n : Nat) (b : Nat → Bucket K V) : List Nat :=
  (List.range n).filter fun i => (b i).isLive

/-- The new table `b` holds what the buckets that are done hold in the old one. -/
structure Copied (s : Scheme K) (old : Nat → Bucket K V) (done : List Nat) (b : Nat → Bucket K V) :
    Prop where
  sound : Sound s b
  unmarked {i : Nat} : b i ≠ .deleted
  holds {k : K} {v : V} : Holds s.n b k v ↔ ∃ i ∈ done, old i = .live k v
  count : Nat.count (fun i => (b i).isLive = true) s.n = done.length

variable {s₀ s : Scheme K} {old b : Nat → Bucket K V} {done : List Nat} {k : K} {v : V} {i j n : Nat}

theorem mem_liveBuckets : i ∈ liveBuckets n b ↔ i < n ∧ (b i).isLive = true := by
  rw [liveBuckets, List.mem_filter, List.mem_range]

theorem nodup_liveBuckets (n : Nat) (b : Nat → Bucket K V) : (liveBuckets n b).Nodup :=
  List.nodup_range.filter _

theorem length_liveBuckets (n : Nat) (b : Nat → Bucket K V) :
    (liveBuckets n b).length = Nat.count (fun i => (b i).isLive = true) n := by
  rw [Nat.count, List.countP_eq_length_filter, liveBuckets]
  simp

/-- At first nothing is done. -/
theorem Copied.start (s : Scheme K) (old : Nat → Bucket K V) :
    Copied s old [] fun _ => .empty where
  sound := sound_empty
  unmarked := nofun
  holds := by
    intro k v
    constructor
    · rintro ⟨i, -, here⟩
      cases here
    · rintro ⟨i, member, -⟩
      cases member
  count := Nat.count_iff_forall_not.mpr fun _ _ => nofun

/-- While fewer are done than there are buckets, the path of a key leads to an empty one. -/
theorem Copied.exists_empty (copied : Copied s old done b) (room : done.length < s.n) (k : K) :
    ∃ j < s.n, b (s.path k j) = .empty ∧ ∀ j' < j, b (s.path k j') ≠ .empty := by
  obtain ⟨i, inside, spare⟩ := exists_not_of_count_lt (copied.count ▸ room)
  obtain ⟨j, short, rfl⟩ := s.exists_path k inside
  have free : b (s.path k j) = .empty := by
    cases here : b (s.path k j) with
    | empty => rfl
    | deleted => exact absurd here copied.unmarked
    | live k' v =>
      rw [here] at spare
      exact absurd rfl spare
  obtain ⟨j', le, free', first⟩ := s.exists_first (p := fun i => b i = .empty) k free
  exact ⟨j', Nat.lt_of_le_of_lt le short, free', first⟩

/-- One bucket more. -/
theorem Copied.add (copied : Copied s old done b) (sound : Sound s₀ old)
    (known : ∀ i' ∈ done, i' < s₀.n) (inside : i < s₀.n) (new : i ∉ done)
    (here : old i = .live k v) (short : j < s.n) (free : b (s.path k j) = .empty)
    (before : ∀ j' < j, b (s.path k j') ≠ .empty) :
    Copied s old (done ++ [i]) (Function.update b (s.path k j) (.live k v)) := by
  classical
  have absent : Absent s.n b k := by
    rw [absent_iff]
    intro w held
    obtain ⟨i', member, there⟩ := copied.holds.mp held
    rw [sound.unique inside (known i' member) here there] at new
    exact new member
  have place := s.path_lt (k := k) short
  constructor
  · exact copied.sound.insert absent short before v
  · intro i'
    by_cases same : i' = s.path k j
    · rw [same, Function.update_self]
      nofun
    · rw [Function.update_of_ne same]
      exact copied.unmarked
  · intro k' w
    rw [holds_update place (fun k' w there => by rw [free] at there; cases there)
      (fun i' below _ w there => absent i' below w there)]
    by_cases own : k' = k
    · rw [if_pos own, own]
      constructor
      · rintro rfl
        exact ⟨i, by simp, here⟩
      · rintro ⟨i', member, there⟩
        rcases List.mem_append.mp member with known' | last
        · rw [sound.unique inside (known i' known') here there] at new
          exact absurd known' new
        · rw [List.mem_singleton.mp last, here] at there
          cases there
          rfl
    · rw [if_neg own, copied.holds]
      constructor
      · rintro ⟨i', member, there⟩
        exact ⟨i', List.mem_append_left _ member, there⟩
      · rintro ⟨i', member, there⟩
        rcases List.mem_append.mp member with known' | last
        · exact ⟨i', known', there⟩
        · rw [List.mem_singleton.mp last, here] at there
          cases there
          exact absurd rfl own
  · have counts := count_update b Bucket.isLive place (.live k v)
    rw [free] at counts
    rw [List.length_append, List.length_singleton, ← copied.count]
    simpa [Bucket.isLive] using counts

/-- When every live bucket is done, the tables hold the same. -/
theorem Copied.holds_iff {n : Nat} (copied : Copied s old done b)
    (all : ∀ i, i ∈ done ↔ i < n ∧ (old i).isLive = true) {k : K} {v : V} :
    Holds s.n b k v ↔ Holds n old k v := by
  rw [copied.holds]
  constructor
  · rintro ⟨i, member, here⟩
    exact ⟨i, ((all i).mp member).1, here⟩
  · rintro ⟨i, inside, here⟩
    exact ⟨i, (all i).mpr ⟨inside, Bucket.isLive_iff.mpr ⟨k, v, here⟩⟩, here⟩

end OpenTable
