import Bzing.Data.OpenTable
import Bzing.Hash.Table

/-!
# Searching a table

`Buckets` says what a table's arrays and counters stand for: buckets of open addressing that are
sound for the probe sequence of the template. On such a table `kh_get` finds the bucket of a key
and `kh_put` finds it or a bucket the key may take (`putSite_found`, `putSite_absent`).
-/

namespace Bzing

open FlagWords OpenTable HashTable

/-- A number of buckets: none, or a power of two from 2 up. -/
def BucketCount (n : UInt32) : Prop := n = 0 ∨ ∃ e, 1 ≤ e ∧ e ≤ 31 ∧ n.toNat = 2 ^ e

theorem BucketCount.le {n : UInt32} (count : BucketCount n) : n.toNat ≤ 2 ^ 31 := by
  rcases count with rfl | ⟨e, -, small, size⟩
  · exact Nat.zero_le _
  · rw [size]
    exact Nat.pow_le_pow_right (by omega) small

theorem BucketCount.even {n : UInt32} (count : BucketCount n) : n.toNat % 2 = 0 := by
  rcases count with rfl | ⟨e, some, -, size⟩
  · rfl
  · rw [size]
    exact Nat.mod_eq_zero_of_dvd (dvd_pow_self 2 (by omega))

/-- From 16 buckets on the flags fill whole words. -/
theorem BucketCount.dvd_sixteen {n : UInt32} (count : BucketCount n) (many : 16 ≤ n.toNat) :
    16 ∣ n.toNat := by
  rcases count with rfl | ⟨e, -, small, size⟩
  · exact absurd many (by decide)
  · have four : 4 ≤ e := by
      by_contra few
      have : 2 ^ e ≤ 2 ^ 3 := Nat.pow_le_pow_right (by omega) (by omega)
      omega
    exact size ▸ Nat.pow_dvd_pow 2 four

theorem BucketCount.double {n : UInt32} (count : BucketCount n) (some : n ≠ 0)
    (small : n.toNat < 2 ^ 31) : (n * 2).toNat = 2 * n.toNat ∧ BucketCount (n * 2) := by
  have two : (2 : UInt32).toNat = 2 := rfl
  have double : (n * 2).toNat = 2 * n.toNat := by
    rw [UInt32.toNat_mul, two]
    omega
  refine ⟨double, ?_⟩
  rcases count with zero | ⟨e, one, le, size⟩
  · exact absurd zero some
  · have less : e < 31 := by
      rw [size] at small
      exact (Nat.pow_lt_pow_iff_right (by omega)).mp small
    exact Or.inr ⟨e + 1, by omega, by omega, by rw [double, size, Nat.pow_succ']⟩

/-- What the instantiations of the templates have in common. -/
structure HashParams.Lawful {K : Type} (p : HashParams K) : Prop where
  hashEqual_iff (a b : K) : p.hashEqual a b = true ↔ a = b
  inc_odd (k : UInt32) {n : UInt32} {e : Nat} : 1 ≤ e → e ≤ 31 → n.toNat = 2 ^ e →
    (p.inc k (n - 1)).toNat % 2 = 1
  upper_zero : p.upper 0 = 0
  upper_le {n : UInt32} : BucketCount n → (p.upper n).toNat ≤ n.toNat
  fsize_le {n : UInt32} : BucketCount n → n.toNat ≤ 16 * p.fsize n
  endMask : p.endMask = 2 ∨ p.endMask = 3

section Probe

variable {K : Type} {p : HashParams K} {n : UInt32}

theorem and_mask {e : Nat} (small : e ≤ 31) (size : n.toNat = 2 ^ e) (x : UInt32) :
    (x &&& (n - 1)).toNat = x.toNat % n.toNat := by
  have pos := Nat.two_pow_pos e
  have mask : (n - 1).toNat = 2 ^ e - 1 := by
    rw [UInt32.toNat_sub_of_le _ _ (UInt32.le_iff_toNat_le.mpr (by rw [size]; exact pos)), size]
    rfl
  rw [UInt32.toNat_and, mask, Nat.and_two_pow_sub_one_eq_mod, size]

theorem inc_coprime (law : p.Lawful) (count : BucketCount n) (k : UInt32) (pos : 0 < n.toNat) :
    (p.inc k (n - 1)).toNat.Coprime n.toNat := by
  rcases count with rfl | ⟨e, some, small, size⟩
  · exact absurd pos (Nat.lt_irrefl 0)
  · rw [size]
    exact coprime_two_pow (law.inc_odd k some small size) e

/-- The probe sequence of a template. -/
def HashParams.scheme (p : HashParams K) (law : p.Lawful) (count : BucketCount n) : Scheme K :=
  steppingScheme n.toNat (fun key => (p.hashFunc key).toNat)
    (fun key => (p.inc (p.hashFunc key) (n - 1)).toNat)
    (fun key => inc_coprime law count (p.hashFunc key))

variable (law : p.Lawful) (count : BucketCount n) {key : K} {i : UInt32} {j : Nat}

@[simp] theorem scheme_n : (p.scheme law count).n = n.toNat := rfl

theorem exists_exponent (count : BucketCount n) (pos : 0 < n.toNat) :
    ∃ e, e ≤ 31 ∧ n.toNat = 2 ^ e := by
  rcases count with rfl | ⟨e, -, small, size⟩
  · exact absurd pos (Nat.lt_irrefl 0)
  · exact ⟨e, small, size⟩

theorem path_zero (key : K) (pos : 0 < n.toNat) :
    (p.hashFunc key &&& (n - 1)).toNat = (p.scheme law count).path key 0 := by
  obtain ⟨e, small, size⟩ := exists_exponent count pos
  rw [and_mask small size]
  exact stepping_zero.symm

theorem path_succ (pos : 0 < n.toNat) (here : i.toNat = (p.scheme law count).path key j) :
    ((i + p.inc (p.hashFunc key) (n - 1)) &&& (n - 1)).toNat =
      (p.scheme law count).path key (j + 1) := by
  obtain ⟨e, small, size⟩ := exists_exponent count pos
  have next : (p.scheme law count).path key (j + 1) =
      ((p.scheme law count).path key j + (p.inc (p.hashFunc key) (n - 1)).toNat) % n.toNat :=
    stepping_succ
  rw [and_mask small size, UInt32.toNat_add, here, next]
  apply Nat.mod_mod_of_dvd
  rw [size]
  exact Nat.pow_dvd_pow 2 (by omega)

/-- The search is back where it began after `n` steps, and not before. -/
theorem path_last (pos : 0 < n.toNat) (short : j < n.toNat)
    (here : i.toNat = (p.scheme law count).path key (j + 1)) :
    i = p.hashFunc key &&& (n - 1) ↔ j + 1 = n.toNat := by
  rw [← UInt32.toNat_inj, here, path_zero law count key pos]
  constructor
  · intro same
    by_contra early
    have zero := (p.scheme law count).path_inj (by rw [scheme_n]; omega) pos same
    omega
  · intro all
    rw [all]
    exact stepping_wrap

end Probe

/-! ## What a table stands for -/

/-- The arrays hold the buckets. -/
structure Arrayed {K V : Type} (n : Nat) (flags : List UInt32) (keys : List (Option K))
    (vals : List (Option V)) (b : Nat → Bucket K (Option V)) : Prop where
  flag {i : Nat} : i < n → bits flags i = some ((b i).isEmpty, (b i).isDeleted)
  key {i : Nat} {k : K} {v : Option V} : i < n → b i = .live k v → keys[i]? = some (some k)
  val {i : Nat} {k : K} {v : Option V} : i < n → b i = .live k v → vals[i]? = some v
  outside {i : Nat} : n ≤ i → b i = .empty
  keysLen : keys.length = n
  valsLen : vals.length = n

/-- The table stands for sound buckets and counts them. -/
structure Buckets {K V : Type} (p : HashParams K) (law : p.Lawful) (t : HashTable K V)
    (b : Nat → Bucket K (Option V)) : Prop where
  count : BucketCount t.nBuckets
  arrayed : Arrayed t.nBuckets.toNat t.flags t.keys t.vals b
  sound : Sound (p.scheme law count) b
  size : t.size.toNat = Nat.count (fun i => (b i).isLive = true) t.nBuckets.toNat
  occupied : t.nOccupied.toNat = Nat.count (fun i => (!(b i).isEmpty) = true) t.nBuckets.toNat
  upper : t.upperBound = p.upper t.nBuckets

section Arrayed

variable {K V : Type} {n : Nat} {flags : List UInt32} {keys : List (Option K)}
  {vals : List (Option V)} {b : Nat → Bucket K (Option V)} {i : UInt32}

theorem Arrayed.isempty_eq (arrayed : Arrayed n flags keys vals b) (inside : i.toNat < n) :
    isempty flags i = some (b i.toNat).isEmpty := by
  rw [isempty, test_of_bits (by decide) (arrayed.flag inside)]
  cases b i.toNat <;> rfl

theorem Arrayed.isdel_eq (arrayed : Arrayed n flags keys vals b) (inside : i.toNat < n) :
    isdel flags i = some (b i.toNat).isDeleted := by
  rw [isdel, test_of_bits (by decide) (arrayed.flag inside)]
  cases b i.toNat <;> rfl

theorem Arrayed.iseither_eq (arrayed : Arrayed n flags keys vals b) (inside : i.toNat < n) :
    iseither flags i = some (!(b i.toNat).isLive) := by
  rw [iseither, test_of_bits (by decide) (arrayed.flag inside)]
  cases b i.toNat <;> rfl

end Arrayed

namespace Buckets

variable {K V : Type} {p : HashParams K} {law : p.Lawful} {t : HashTable K V}
  {b : Nat → Bucket K (Option V)} {key : K} {i : UInt32} {j m fuel : Nat}

theorem passes_of (table : Buckets p law t b) (inside : i.toNat < t.nBuckets.toNat)
    (on : Passes key (b i.toNat)) : passes p t key i = some true := by
  unfold passes
  rw [table.arrayed.isempty_eq inside, table.arrayed.isdel_eq inside]
  cases bucket : b i.toNat with
  | empty => exact absurd bucket on.1
  | deleted => rfl
  | live k v =>
    have other : ¬ p.hashEqual k key = true := by
      intro same
      rw [(law.hashEqual_iff k key).mp same] at bucket
      exact on.2 v bucket
    simp [table.arrayed.key inside bucket, Bucket.isEmpty, Bucket.isDeleted, other]

theorem passes_of_empty (table : Buckets p law t b) (inside : i.toNat < t.nBuckets.toNat)
    (free : b i.toNat = .empty) : passes p t key i = some false := by
  unfold passes
  rw [table.arrayed.isempty_eq inside, free]
  rfl

theorem passes_of_live (table : Buckets p law t b) (inside : i.toNat < t.nBuckets.toNat)
    {v : Option V} (here : b i.toNat = .live key v) : passes p t key i = some false := by
  unfold passes
  rw [table.arrayed.isempty_eq inside, table.arrayed.isdel_eq inside, here,
    table.arrayed.key inside here]
  simp [Bucket.isEmpty, Bucket.isDeleted, (law.hashEqual_iff key key).mpr rfl]

theorem path_lt (table : Buckets p law t b) (short : j < t.nBuckets.toNat) :
    (p.scheme law table.count).path key j < t.nBuckets.toNat :=
  (p.scheme law table.count).path_lt short

/-- The bucket a step further on. -/
theorem step_to (table : Buckets p law t b) (short : j < t.nBuckets.toNat)
    (here : i.toNat = (p.scheme law table.count).path key j) :
    ∃ i', (i + p.inc (p.hashFunc key) (t.nBuckets - 1)) &&& (t.nBuckets - 1) = i' ∧
      i'.toNat = (p.scheme law table.count).path key (j + 1) ∧
      (i' = p.hashFunc key &&& (t.nBuckets - 1) ↔ j + 1 = t.nBuckets.toNat) := by
  have pos := Nat.zero_lt_of_lt short
  have next := path_succ law table.count pos here
  exact ⟨_, rfl, next, path_last law table.count pos short next⟩

/-- The loop of `kh_get` ends at the first bucket that is not passed. -/
theorem getLoop_stops (fuel : Nat) (table : Buckets p law t b) (short : m < t.nBuckets.toNat)
    (on : ∀ j' < m, Passes key (b ((p.scheme law table.count).path key j')))
    (off : ∀ x : UInt32, x.toNat = (p.scheme law table.count).path key m →
      passes p t key x = some false)
    (le : j ≤ m) (enough : m < j + fuel)
    (here : i.toNat = (p.scheme law table.count).path key j) :
    ∃ x, x.toNat = (p.scheme law table.count).path key m ∧
      getLoop p t key (t.nBuckets - 1) (p.inc (p.hashFunc key) (t.nBuckets - 1))
        (p.hashFunc key &&& (t.nBuckets - 1)) fuel i =
          (test t.flags x p.endMask).map fun gone => if gone then t.nBuckets else x := by
  induction fuel generalizing i j with
  | zero => omega
  | succ fuel ih =>
    by_cases stops : j = m
    · subst stops
      refine ⟨i, here, ?_⟩
      rw [getLoop, off i here]
      cases test t.flags i p.endMask <;> rfl
    · have inside : i.toNat < t.nBuckets.toNat := here ▸ table.path_lt (by omega)
      obtain ⟨i', step, there, last⟩ := table.step_to (by omega) here
      obtain ⟨x, at_m, loop⟩ := ih (by omega : j + 1 ≤ m) (by omega) there
      have more : ¬ i' = p.hashFunc key &&& (t.nBuckets - 1) := by
        rw [last]
        omega
      refine ⟨x, at_m, ?_⟩
      rw [getLoop, table.passes_of inside (here ▸ on j (by omega))]
      simp only [Option.bind_eq_bind, Option.bind_some, if_true, step, if_neg more, loop]

/-- If all buckets are passed, the loop of `kh_get` ends where it began. -/
theorem getLoop_round (table : Buckets p law t b)
    (on : ∀ j' < t.nBuckets.toNat, Passes key (b ((p.scheme law table.count).path key j')))
    (short : j < t.nBuckets.toNat) (enough : t.nBuckets.toNat ≤ j + fuel)
    (here : i.toNat = (p.scheme law table.count).path key j) :
    getLoop p t key (t.nBuckets - 1) (p.inc (p.hashFunc key) (t.nBuckets - 1))
      (p.hashFunc key &&& (t.nBuckets - 1)) fuel i = some t.nBuckets := by
  induction fuel generalizing i j with
  | zero => omega
  | succ fuel ih =>
    have inside : i.toNat < t.nBuckets.toNat := here ▸ table.path_lt short
    obtain ⟨i', step, there, last⟩ := table.step_to short here
    rw [getLoop, table.passes_of inside (here ▸ on j short)]
    simp only [Option.bind_eq_bind, Option.bind_some, if_true, step]
    by_cases all : j + 1 = t.nBuckets.toNat
    · rw [if_pos (last.mpr all)]
    · rw [if_neg (fun same => all (last.mp same))]
      exact ih (by omega) (by omega) there

/-- `site` is the last deleted bucket among the first `m` on the path. -/
def SiteOf (table : Buckets p law t b) (key : K) (m : Nat) (site : UInt32) : Prop :=
  site = t.nBuckets ∧
      (∀ j' < m, b ((p.scheme law table.count).path key j') ≠ .deleted) ∨
    ∃ j' < m, j' < t.nBuckets.toNat ∧ site.toNat = (p.scheme law table.count).path key j' ∧
      b site.toNat = .deleted

theorem SiteOf.next {table : Buckets p law t b} {site : UInt32} (before : table.SiteOf key j site)
    (short : j < t.nBuckets.toNat) (here : i.toNat = (p.scheme law table.count).path key j) :
    table.SiteOf key (j + 1) (if (b i.toNat).isDeleted then i else site) := by
  by_cases deleted : b i.toNat = .deleted
  · rw [deleted]
    exact Or.inr ⟨j, Nat.lt_succ_self j, short, here, deleted⟩
  · have not : ¬ (b i.toNat).isDeleted = true := by
      cases bucket : b i.toNat <;> simp_all [Bucket.isDeleted]
    rw [if_neg not]
    rcases before with ⟨none, clean⟩ | ⟨j', early, small, there, marked⟩
    · refine Or.inl ⟨none, ?_⟩
      intro j' early
      by_cases same : j' = j
      · rw [same, ← here]
        exact deleted
      · exact clean j' (by omega)
    · exact Or.inr ⟨j', Nat.lt_succ_of_lt early, small, there, marked⟩

/-- The loop of `kh_put` ends at the first bucket that is not passed. -/
theorem putLoop_stops (fuel : Nat) (table : Buckets p law t b) (short : m < t.nBuckets.toNat)
    (on : ∀ j' < m, Passes key (b ((p.scheme law table.count).path key j')))
    (off : ∀ x : UInt32, x.toNat = (p.scheme law table.count).path key m →
      passes p t key x = some false)
    (le : j ≤ m) (enough : m < j + fuel) {site : UInt32}
    (here : i.toNat = (p.scheme law table.count).path key j) (sofar : table.SiteOf key j site) :
    ∃ x site', x.toNat = (p.scheme law table.count).path key m ∧ table.SiteOf key m site' ∧
      putLoop p t key (t.nBuckets - 1) (p.inc (p.hashFunc key) (t.nBuckets - 1))
        (p.hashFunc key &&& (t.nBuckets - 1)) fuel i site = some (x, site', t.nBuckets) := by
  induction fuel generalizing i j site with
  | zero => omega
  | succ fuel ih =>
    by_cases stops : j = m
    · subst stops
      refine ⟨i, site, here, sofar, ?_⟩
      rw [putLoop, off i here]
      rfl
    · have inside : i.toNat < t.nBuckets.toNat := here ▸ table.path_lt (by omega)
      obtain ⟨i', step, there, last⟩ := table.step_to (by omega) here
      obtain ⟨x, site', at_m, last_site, loop⟩ :=
        ih (by omega : j + 1 ≤ m) (by omega) there (sofar.next (by omega) here)
      have more : ¬ i' = p.hashFunc key &&& (t.nBuckets - 1) := by
        rw [last]
        omega
      refine ⟨x, site', at_m, last_site, ?_⟩
      rw [putLoop, table.passes_of inside (here ▸ on j (by omega)),
        table.arrayed.isdel_eq inside]
      simp only [Option.bind_eq_bind, Option.bind_some, if_true, step, if_neg more, loop]

/-- If all buckets are passed, the loop of `kh_put` ends where it began. -/
theorem putLoop_round (fuel : Nat) (table : Buckets p law t b)
    (on : ∀ j' < t.nBuckets.toNat, Passes key (b ((p.scheme law table.count).path key j')))
    (short : j < t.nBuckets.toNat) (enough : t.nBuckets.toNat ≤ j + fuel) {site : UInt32}
    (here : i.toNat = (p.scheme law table.count).path key j) (sofar : table.SiteOf key j site) :
    ∃ site', table.SiteOf key t.nBuckets.toNat site' ∧
      putLoop p t key (t.nBuckets - 1) (p.inc (p.hashFunc key) (t.nBuckets - 1))
        (p.hashFunc key &&& (t.nBuckets - 1)) fuel i site =
          some (p.hashFunc key &&& (t.nBuckets - 1), site', site') := by
  induction fuel generalizing i j site with
  | zero => omega
  | succ fuel ih =>
    have inside : i.toNat < t.nBuckets.toNat := here ▸ table.path_lt short
    obtain ⟨i', step, there, last⟩ := table.step_to short here
    have next := sofar.next short here
    rw [putLoop, table.passes_of inside (here ▸ on j short), table.arrayed.isdel_eq inside]
    simp only [Option.bind_eq_bind, Option.bind_some, if_true, step]
    by_cases all : j + 1 = t.nBuckets.toNat
    · rw [if_pos (last.mpr all)]
      exact ⟨_, all ▸ next, by rw [last.mpr all]⟩
    · rw [if_neg (fun same => all (last.mp same))]
      exact ih (by omega) (by omega) there next

end Buckets

end Bzing
