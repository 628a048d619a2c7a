import Bzing.Hash.Search

/-!
# Changing a table

`kh_get` and the changes that leave the arrays where they are: `kh_put` without growing, a value
written, `kh_del` and `kh_clear`. Each is said by what it does to the buckets the table stands
for. A key that is absent gets a bucket as long as some bucket holds no key (`putGrown_absent`);
in a table without one, `kh_put` hands out the bucket of another key (`putGrown_full`).
-/

namespace Bzing

open FlagWords OpenTable HashTable

section Arrays

variable {K V : Type} {n : Nat} {flags : List UInt32} {keys : List (Option K)}
  {vals : List (Option V)} {b : Nat → Bucket K (Option V)}

/-- The arrays after new flags for one bucket, which may have got a key. -/
theorem Arrayed.update (arrayed : Arrayed n flags keys vals b) {i : Nat}
    {x : Bucket K (Option V)} {flags' : List UInt32} {keys' : List (Option K)}
    {vals' : List (Option V)} (inside : i < n)
    (flag : bits flags' i = some (x.isEmpty, x.isDeleted))
    (others : ∀ j, j ≠ i → bits flags' j = bits flags j)
    (key : ∀ k v, x = .live k v → keys'[i]? = some (some k))
    (val : ∀ k v, x = .live k v → vals'[i]? = some v)
    (keep : ∀ j, j ≠ i → keys'[j]? = keys[j]?) (keep' : ∀ j, j ≠ i → vals'[j]? = vals[j]?)
    (keysLen : keys'.length = keys.length) (valsLen : vals'.length = vals.length) :
    Arrayed n flags' keys' vals' (Function.update b i x) where
  flag {j} small := by
    by_cases same : j = i
    · rw [same, Function.update_self, flag]
    · rw [Function.update_of_ne same, others j same, arrayed.flag small]
  key {j k v} small here := by
    by_cases same : j = i
    · rw [same, Function.update_self] at here
      rw [same, key k v here]
    · rw [Function.update_of_ne same] at here
      rw [keep j same, arrayed.key small here]
  val {j k v} small here := by
    by_cases same : j = i
    · rw [same, Function.update_self] at here
      rw [same, val k v here]
    · rw [Function.update_of_ne same] at here
      rw [keep' j same, arrayed.val small here]
  outside {j} beyond := by
    rw [Function.update_of_ne (by omega), arrayed.outside beyond]
  keysLen := keysLen.trans arrayed.keysLen
  valsLen := valsLen.trans arrayed.valsLen

theorem setCell_inside {α : Type} {cells : List (Option α)} {i : UInt32} (a : Option α)
    (inside : i.toNat < cells.length) : setCell cells i a = some (cells.set i.toNat a) :=
  if_pos inside

end Arrays

namespace Buckets

variable {K V : Type} {p : HashParams K} {law : p.Lawful} {t : HashTable K V}
  {b : Nat → Bucket K (Option V)} {key : K} {i j : Nat} {v : Option V}

theorem test_endMask (table : Buckets p law t b) {x : UInt32}
    (inside : x.toNat < t.nBuckets.toNat) (clean : b x.toNat ≠ .deleted) :
    test t.flags x p.endMask = some (b x.toNat).isEmpty := by
  have flag := table.arrayed.flag inside
  rcases law.endMask with two | three
  · rw [two, test_of_bits (by decide) flag]
    cases b x.toNat <;> rfl
  · rw [three, test_of_bits (by decide) flag]
    cases bucket : b x.toNat with
    | deleted => exact absurd bucket clean
    | _ => rfl

theorem get_eq_getLoop (pos : 0 < t.nBuckets.toNat) : get p t key =
    getLoop p t key (t.nBuckets - 1) (p.inc (p.hashFunc key) (t.nBuckets - 1))
      (p.hashFunc key &&& (t.nBuckets - 1)) t.nBuckets.toNat
      (p.hashFunc key &&& (t.nBuckets - 1)) := by
  have some : t.nBuckets ≠ 0 := by
    rintro none
    rw [none] at pos
    exact Nat.lt_irrefl 0 pos
  unfold HashTable.get
  rw [if_pos some]

/-- `kh_get` finds the bucket of a key. -/
theorem get_found (table : Buckets p law t b) (inside : i < t.nBuckets.toNat)
    (here : b i = .live key v) : ∃ x, get p t key = some x ∧ x.toNat = i := by
  have pos := Nat.zero_lt_of_lt inside
  obtain ⟨m, short, there, on⟩ := table.sound.passed inside here
  obtain ⟨x, at_m, loop⟩ := table.getLoop_stops t.nBuckets.toNat short on
    (fun x at_m => table.passes_of_live (at_m ▸ table.path_lt short)
      (at_m.trans there ▸ here)) (Nat.zero_le m) (by rw [Nat.zero_add]; exact short)
    (path_zero law table.count key pos)
  have at_i := at_m.trans there
  have stays : b x.toNat = .live key v := at_i ▸ here
  refine ⟨x, ?_, at_i⟩
  rw [get_eq_getLoop pos, loop, table.test_endMask (at_i ▸ inside) (stays ▸ nofun), stays]
  rfl

/-- `kh_get` returns `kh_end` for a key that is absent. -/
theorem get_absent (table : Buckets p law t b) (absent : Absent t.nBuckets.toNat b key) :
    get p t key = some t.nBuckets := by
  by_cases pos : 0 < t.nBuckets.toNat
  · rw [get_eq_getLoop pos]
    have start := path_zero law table.count key pos
    cases table.sound.search key with
    | found m v short here => exact absurd here (absent _ (table.path_lt short) v)
    | missing m short _ free on =>
      obtain ⟨x, at_m, loop⟩ := table.getLoop_stops t.nBuckets.toNat short on
        (fun x at_m => table.passes_of_empty (at_m ▸ table.path_lt short) (at_m ▸ free))
        (Nat.zero_le m) (by rw [Nat.zero_add]; exact short) start
      have stays : b x.toNat = .empty := at_m ▸ free
      rw [loop, table.test_endMask (at_m ▸ table.path_lt short) (stays ▸ nofun), stays]
      rfl
    | round _ on => exact table.getLoop_round on pos (Nat.le_of_eq (Nat.zero_add _).symm) start
  · have none : t.nBuckets = 0 := UInt32.toNat_inj.mp (Nat.eq_zero_of_not_pos pos)
    unfold HashTable.get
    rw [none, if_neg (fun some => some rfl)]

/-! ## The bucket `kh_put` chooses -/

theorem ne_nBuckets {x : UInt32} (inside : x.toNat < t.nBuckets.toNat) : x ≠ t.nBuckets := by
  rintro rfl
  exact Nat.lt_irrefl _ inside

/-- Behind a first bucket that is not empty `kh_put` runs its loop. -/
theorem putSite_of_loop (table : Buckets p law t b) (pos : 0 < t.nBuckets.toNat)
    (full : b ((p.scheme law table.count).path key 0) ≠ .empty) {i site x : UInt32}
    (loop : putLoop p t key (t.nBuckets - 1) (p.inc (p.hashFunc key) (t.nBuckets - 1))
      (p.hashFunc key &&& (t.nBuckets - 1)) t.nBuckets.toNat
      (p.hashFunc key &&& (t.nBuckets - 1)) t.nBuckets = some (i, site, x)) :
    putSite p t key = if x = t.nBuckets then
        (isempty t.flags i).map fun empty => if empty && site ≠ t.nBuckets then site else i
      else some x := by
  have start := path_zero law table.count key pos
  have first := table.arrayed.isempty_eq (start ▸ table.path_lt pos)
  have taken : (b (p.hashFunc key &&& (t.nBuckets - 1)).toNat).isEmpty = false := by
    rw [start]
    cases bucket : b ((p.scheme law table.count).path key 0) with
    | empty => exact absurd bucket full
    | _ => rfl
  rw [taken] at first
  simp only [putSite, first, loop, Option.bind_eq_bind, Option.bind_some, Bool.false_eq_true,
    if_false]
  split
  · cases isempty t.flags i <;> rfl
  · rfl

/-- `kh_put` finds the bucket of a key. -/
theorem putSite_found (table : Buckets p law t b) (inside : i < t.nBuckets.toNat)
    (here : b i = .live key v) : ∃ x, putSite p t key = some x ∧ x.toNat = i := by
  have pos := Nat.zero_lt_of_lt inside
  obtain ⟨m, short, there, on⟩ := table.sound.passed inside here
  obtain ⟨x, site, at_m, -, loop⟩ := table.putLoop_stops t.nBuckets.toNat short on
    (fun x at_m => table.passes_of_live (at_m ▸ table.path_lt short)
      (at_m.trans there ▸ here)) (Nat.zero_le m) (by rw [Nat.zero_add]; exact short)
    (path_zero law table.count key pos) (Or.inl ⟨rfl, nofun⟩)
  have at_i := at_m.trans there
  have stays : b x.toNat = .live key v := at_i ▸ here
  have full : b ((p.scheme law table.count).path key 0) ≠ .empty := by
    by_cases zero : m = 0
    · rw [← zero, there, here]
      nofun
    · exact (on 0 (by omega)).1
  refine ⟨x, ?_, at_i⟩
  rw [table.putSite_of_loop pos full loop, if_pos rfl,
    table.arrayed.isempty_eq (at_i ▸ inside), stays]
  rfl

/-- For a key that is absent `kh_put` finds a bucket that it may take, if some bucket holds no
    key. -/
theorem putSite_absent (table : Buckets p law t b)
    (absent : Absent t.nBuckets.toNat b key)
    (room : ∃ i < t.nBuckets.toNat, (b i).isLive = false) :
    ∃ x, ∃ j < t.nBuckets.toNat, putSite p t key = some x ∧
      x.toNat = (p.scheme law table.count).path key j ∧ (b x.toNat).isLive = false ∧
      ∀ j' < j, b ((p.scheme law table.count).path key j') ≠ .empty := by
  obtain ⟨spare, small, unused⟩ := room
  have pos := Nat.zero_lt_of_lt small
  have start := path_zero law table.count key pos
  by_cases free : b ((p.scheme law table.count).path key 0) = .empty
  · have first : b (p.hashFunc key &&& (t.nBuckets - 1)).toNat = .empty := start ▸ free
    refine ⟨p.hashFunc key &&& (t.nBuckets - 1), 0, pos, ?_, start, by rw [first]; rfl,
      fun _ early => absurd early (Nat.not_lt_zero _)⟩
    have empty := table.arrayed.isempty_eq (start ▸ table.path_lt pos)
    rw [first] at empty
    simp only [putSite, empty, Bucket.isEmpty, Option.bind_eq_bind, Option.bind_some, if_true]
  cases table.sound.search key with
  | found m v short here => exact absurd here (absent _ (table.path_lt short) v)
  | missing m short _ stop on =>
    obtain ⟨x, site, at_m, site_of, loop⟩ := table.putLoop_stops t.nBuckets.toNat
      short on (fun x at_m => table.passes_of_empty (at_m ▸ table.path_lt short) (at_m ▸ stop))
      (Nat.zero_le m) (by rw [Nat.zero_add]; exact short) start
      (Or.inl ⟨rfl, fun _ early => absurd early (Nat.not_lt_zero _)⟩)
    have stays : b x.toNat = .empty := at_m ▸ stop
    rw [table.putSite_of_loop pos free loop, if_pos rfl,
      table.arrayed.isempty_eq (at_m ▸ table.path_lt short), stays, Option.map_some]
    rcases site_of with ⟨none, -⟩ | ⟨j', early, small, there, marked⟩
    · -- no deleted bucket on the way
      refine ⟨x, m, short, by simp [none], at_m, by rw [stays]; rfl, ?_⟩
      intro j' early
      exact (on j' early).1
    · have real := ne_nBuckets (there ▸ table.path_lt small)
      refine ⟨site, j', small, by simp [Bucket.isEmpty, real], there, by rw [marked]; rfl, ?_⟩
      intro j'' before
      exact (on j'' (by omega)).1
  | round _ on =>
    obtain ⟨site, site_of, loop⟩ := table.putLoop_round t.nBuckets.toNat on pos
      (Nat.le_of_eq (Nat.zero_add _).symm) start
      (Or.inl ⟨rfl, fun _ early => absurd early (Nat.not_lt_zero _)⟩)
    rcases site_of with ⟨none, clean⟩ | ⟨j', early, small, there, marked⟩
    · -- every bucket is passed and none is deleted, so all hold other keys
      obtain ⟨j', short, rfl⟩ := (p.scheme law table.count).exists_path key small
      have passed := (on j' short).1
      have kept := clean j' short
      cases bucket : b ((p.scheme law table.count).path key j') with
      | empty => exact absurd bucket passed
      | deleted => exact absurd bucket kept
      | live k v =>
        rw [bucket] at unused
        cases unused
    · have real := ne_nBuckets (there ▸ table.path_lt small)
      refine ⟨site, j', small, ?_, there, by rw [marked]; rfl, ?_⟩
      · rw [table.putSite_of_loop pos free loop, if_neg real]
      intro j'' before
      exact (on j'' (by rw [scheme_n]; omega)).1

/-- If all buckets hold other keys, `kh_put` comes to the one where it began. -/
theorem putSite_full (table : Buckets p law t b) (absent : Absent t.nBuckets.toNat b key)
    (pos : 0 < t.nBuckets.toNat) (full : ∀ i < t.nBuckets.toNat, (b i).isLive = true) :
    putSite p t key = some (p.hashFunc key &&& (t.nBuckets - 1)) := by
  have start := path_zero law table.count key pos
  have live : ∀ j < t.nBuckets.toNat, ∃ k v,
      b ((p.scheme law table.count).path key j) = .live k v :=
    fun j short => Bucket.isLive_iff.mp (full _ (table.path_lt short))
  obtain ⟨k, v, first⟩ := live 0 pos
  have on : ∀ j < t.nBuckets.toNat, Passes key (b ((p.scheme law table.count).path key j)) := by
    intro j short
    obtain ⟨k, v, here⟩ := live j short
    refine ⟨by rw [here]; nofun, ?_⟩
    exact absent _ (table.path_lt short)
  obtain ⟨site, site_of, loop⟩ := table.putLoop_round t.nBuckets.toNat on pos
    (Nat.le_of_eq (Nat.zero_add _).symm) start (Or.inl ⟨rfl, nofun⟩)
  have none : site = t.nBuckets := by
    rcases site_of with ⟨none, -⟩ | ⟨j, -, short, there, marked⟩
    · exact none
    · obtain ⟨k, v, here⟩ := live j short
      rw [there, here] at marked
      cases marked
  have empty := table.arrayed.isempty_eq (start ▸ table.path_lt pos)
  rw [table.putSite_of_loop pos (by rw [first]; nofun) loop, if_pos none, empty, start, first]
  rfl

/-- Changing one bucket changes the counters by that one. -/
theorem count_live (table : Buckets p law t b) (inside : i < t.nBuckets.toNat)
    (x : Bucket K (Option V)) :
    Nat.count (fun j => (Function.update b i x j).isLive = true) t.nBuckets.toNat +
        (if (b i).isLive then 1 else 0) = t.size.toNat + if x.isLive then 1 else 0 := by
  rw [table.size]
  exact count_update b Bucket.isLive inside x

theorem count_occupied (table : Buckets p law t b) (inside : i < t.nBuckets.toNat)
    (x : Bucket K (Option V)) :
    Nat.count (fun j => (!(Function.update b i x j).isEmpty) = true) t.nBuckets.toNat +
        (if (b i).isEmpty then 0 else 1) =
      t.nOccupied.toNat + if x.isEmpty then 0 else 1 := by
  have counted := count_update b (fun x => !x.isEmpty) inside x
  rw [← table.occupied] at counted
  cases empty : (b i).isEmpty <;> cases empty' : x.isEmpty <;> simp_all

theorem nBuckets_le (table : Buckets p law t b) : t.nBuckets.toNat ≤ 2 ^ 31 := by
  rcases table.count with none | ⟨e, -, small, size⟩
  · rw [none]
    exact Nat.zero_le _
  · rw [size]
    exact Nat.pow_le_pow_right (by omega) small

theorem size_le (table : Buckets p law t b) : t.size.toNat ≤ t.nBuckets.toNat := by
  rw [table.size]
  exact Nat.count_le _

theorem occupied_le (table : Buckets p law t b) : t.nOccupied.toNat ≤ t.nBuckets.toNat := by
  rw [table.occupied]
  exact Nat.count_le _

/-- While there are fewer keys than buckets, some bucket holds none. -/
theorem exists_spare (table : Buckets p law t b) (room : t.size.toNat < t.nBuckets.toNat) :
    ∃ i < t.nBuckets.toNat, (b i).isLive = false := by
  rw [table.size] at room
  obtain ⟨i, inside, spare⟩ := exists_not_of_count_lt room
  exact ⟨i, inside, Bool.not_eq_true _ ▸ spare⟩

/-- A key that has its bucket stays there. -/
theorem putGrown_found (table : Buckets p law t b) (inside : i < t.nBuckets.toNat)
    (here : b i = .live key v) : ∃ x, putGrown p t key = some (x, 0, t) ∧ x.toNat = i := by
  obtain ⟨x, site, at_i⟩ := table.putSite_found inside here
  have stays : b x.toNat = .live key v := at_i ▸ here
  refine ⟨x, ?_, at_i⟩
  simp only [putGrown, putAt, site, table.arrayed.isempty_eq (at_i ▸ inside),
    table.arrayed.isdel_eq (at_i ▸ inside), stays, Option.bind_eq_bind, Option.bind_some,
    Bucket.isEmpty, Bucket.isDeleted, Bool.false_eq_true, if_false]

/-- A key that is absent gets a bucket of its own, as long as one is left; its value is what was
    there before. -/
theorem putGrown_absent (table : Buckets p law t b) (absent : Absent t.nBuckets.toNat b key)
    (room : t.size.toNat < t.nBuckets.toNat) :
    ∃ x ret t' v, putGrown p t key = some (x, ret, t') ∧ ret ≠ 0 ∧
      x.toNat < t.nBuckets.toNat ∧ (b x.toNat).isLive = false ∧ t'.nBuckets = t.nBuckets ∧
      Buckets p law t' (Function.update b x.toNat (.live key v)) := by
  obtain ⟨x, j, short, site, at_j, unused, before⟩ :=
    table.putSite_absent absent (table.exists_spare room)
  have inside : x.toNat < t.nBuckets.toNat := at_j ▸ table.path_lt short
  obtain ⟨v, stale⟩ : ∃ v, t.vals[x.toNat]? = some v := by
    rw [← Option.isSome_iff_exists, isSome_getElem?, table.arrayed.valsLen]
    exact inside
  obtain ⟨flags, cleared, -, own, others⟩ :=
    clear_of_bits 3 (by decide) (table.arrayed.flag inside)
  have arrayed : Arrayed t.nBuckets.toNat flags (t.keys.set x.toNat (some key)) t.vals
      (Function.update b x.toNat (.live key v)) := by
    apply table.arrayed.update inside
    · rw [own]
      cases (b x.toNat).isEmpty <;> cases (b x.toNat).isDeleted <;> rfl
    · exact others
    · rintro k w ⟨⟩
      exact List.getElem?_set_self (by rw [table.arrayed.keysLen]; exact inside)
    · rintro k w ⟨⟩
      exact stale
    · exact fun j ne => List.getElem?_set_ne (Ne.symm ne)
    · exact fun _ _ => rfl
    · exact List.length_set
    · rfl
  have sound : Sound (p.scheme law table.count) (Function.update b x.toNat (.live key v)) := by
    rw [at_j]
    exact table.sound.insert absent short before v
  have keys := setCell_inside (some key) (table.arrayed.keysLen ▸ inside : x.toNat < t.keys.length)
  have bound := table.nBuckets_le
  have small := table.occupied_le
  have live := table.count_live inside (.live key v)
  have occupied := table.count_occupied inside (.live key v)
  rw [unused] at live
  have size : (t.size + 1).toNat = t.size.toNat + 1 := by
    rw [UInt32.toNat_add]
    exact Nat.mod_eq_of_lt (by change t.size.toNat + 1 < 2 ^ 32; omega)
  have one : (t.nOccupied + 1).toNat = t.nOccupied.toNat + 1 := by
    rw [UInt32.toNat_add]
    exact Nat.mod_eq_of_lt (by change t.nOccupied.toNat + 1 < 2 ^ 32; omega)
  cases bucket : b x.toNat with
  | live k w =>
    rw [bucket] at unused
    cases unused
  | empty =>
    rw [bucket] at occupied
    let t' : HashTable K V :=
      { t with
        keys := t.keys.set x.toNat (some key)
        flags := flags
        size := t.size + 1
        nOccupied := t.nOccupied + 1 }
    refine ⟨x, 1, t', v, ?_, by decide, inside, by rw [bucket]; rfl, rfl,
      ⟨table.count, arrayed, sound, size.trans live.symm, one.trans occupied.symm, table.upper⟩⟩
    simp only [putGrown, putAt, site, table.arrayed.isempty_eq inside, bucket, keys,
      setIsbothFalse, cleared, Option.bind_eq_bind, Option.bind_some, Bucket.isEmpty, if_true]
    rfl
  | deleted =>
    rw [bucket] at occupied
    let t' : HashTable K V :=
      { t with keys := t.keys.set x.toNat (some key), flags := flags, size := t.size + 1 }
    refine ⟨x, 2, t', v, ?_, by decide, inside, by rw [bucket]; rfl, rfl,
      ⟨table.count, arrayed, sound, size.trans live.symm, ?_, table.upper⟩⟩
    · simp only [putGrown, putAt, site, table.arrayed.isempty_eq inside,
        table.arrayed.isdel_eq inside, bucket, keys, setIsbothFalse, cleared,
        Option.bind_eq_bind, Option.bind_some, Bucket.isEmpty, Bucket.isDeleted,
        Bool.false_eq_true, if_false, if_true]
      rfl
    · have same := Nat.add_right_cancel occupied
      exact same.symm

/-- In a table without a bucket to spare an absent key is handed that of another. -/
theorem putGrown_full (table : Buckets p law t b) (absent : Absent t.nBuckets.toNat b key)
    (pos : 0 < t.nBuckets.toNat) (full : t.size = t.nBuckets) :
    ∃ x k v, putGrown p t key = some (x, 0, t) ∧ x.toNat < t.nBuckets.toNat ∧
      b x.toNat = .live k v ∧ k ≠ key := by
  have all := table.size
  rw [full] at all
  have live := Nat.count_iff_forall.mp all.symm
  have site := table.putSite_full absent pos live
  have start := path_zero law table.count key pos
  have inside : (p.hashFunc key &&& (t.nBuckets - 1)).toNat < t.nBuckets.toNat :=
    start ▸ table.path_lt pos
  obtain ⟨k, v, here⟩ := Bucket.isLive_iff.mp (live _ inside)
  refine ⟨_, k, v, ?_, inside, here, ?_⟩
  · simp only [putGrown, putAt, site, table.arrayed.isempty_eq inside,
      table.arrayed.isdel_eq inside, here, Option.bind_eq_bind, Option.bind_some,
      Bucket.isEmpty, Bucket.isDeleted, Bool.false_eq_true, if_false]
  · rintro rfl
    exact absent _ inside v here

/-! ## Values, deletion, clearing -/

/-- A value may be written to any bucket. -/
theorem setVal_inside (table : Buckets p law t b) {x : UInt32}
    (inside : x.toNat < t.nBuckets.toNat) (w : V) :
    ∃ t', setVal t x w = some t' ∧ t'.nBuckets = t.nBuckets ∧ t'.size = t.size ∧
      t'.nOccupied = t.nOccupied ∧ t'.vals = t.vals.set x.toNat (some w) ∧
      Buckets p law t' (Function.update b x.toNat ((b x.toNat).withValue (some w))) := by
  have vals := setCell_inside (some w) (table.arrayed.valsLen ▸ inside : x.toNat < t.vals.length)
  have live := table.count_live inside ((b x.toNat).withValue (some w))
  have occupied := table.count_occupied inside ((b x.toNat).withValue (some w))
  rw [Bucket.isLive_withValue] at live
  rw [Bucket.isEmpty_withValue] at occupied
  refine ⟨{ t with vals := t.vals.set x.toNat (some w) }, ?_, rfl, rfl, rfl, rfl, table.count, ?_,
    table.sound.setValue inside (some w), ?_, ?_, table.upper⟩
  · simp only [setVal, vals, Option.bind_eq_bind, Option.bind_some]
  · apply table.arrayed.update inside
    · rw [table.arrayed.flag inside, Bucket.isEmpty_withValue, Bucket.isDeleted_withValue]
    · exact fun _ _ => rfl
    · intro k u here
      obtain ⟨-, v, before⟩ := Bucket.withValue_eq_live.mp here
      exact table.arrayed.key inside before
    · intro k u here
      obtain ⟨rfl, -⟩ := Bucket.withValue_eq_live.mp here
      exact List.getElem?_set_self (by rw [table.arrayed.valsLen]; exact inside)
    · exact fun _ _ => rfl
    · exact fun j ne => List.getElem?_set_ne (Ne.symm ne)
    · rfl
    · exact List.length_set
  · exact (Nat.add_right_cancel live).symm
  · exact (Nat.add_right_cancel occupied).symm

/-- `kh_del` marks the bucket of a key. -/
theorem del_live (table : Buckets p law t b) {x : UInt32} (inside : x.toNat < t.nBuckets.toNat)
    (here : b x.toNat = .live key v) :
    ∃ t', del t x = some t' ∧ t'.nBuckets = t.nBuckets ∧ t'.nOccupied = t.nOccupied ∧
      Buckets p law t' (Function.update b x.toNat .deleted) := by
  obtain ⟨flags, raised, -, own, others⟩ :=
    raise_of_bits 1 (by decide) (table.arrayed.flag inside)
  have live := table.count_live inside .deleted
  have occupied := table.count_occupied inside .deleted
  rw [here] at live occupied own
  refine ⟨{ t with flags := flags, size := t.size - 1 }, ?_, rfl, rfl, table.count, ?_,
    table.sound.erase x.toNat, ?_, (Nat.add_right_cancel occupied).symm, table.upper⟩
  · simp only [del, if_neg (ne_nBuckets inside), table.arrayed.iseither_eq inside, here,
      Bucket.isLive, setIsdelTrue, raised, Option.bind_eq_bind, Option.bind_some, Bool.not_true,
      Bool.false_eq_true, if_false]
  · apply table.arrayed.update inside
    · rw [own]
      rfl
    · exact others
    · rintro _ _ ⟨⟩
    · rintro _ _ ⟨⟩
    · exact fun _ _ => rfl
    · exact fun _ _ => rfl
    · rfl
    · rfl
  · have one : (1 : UInt32).toNat = 1 := rfl
    have some : 1 ≤ t.size.toNat := by
      simp only [Bucket.isLive, if_true, Bool.false_eq_true, if_false] at live
      omega
    change (t.size - 1).toNat = _
    rw [UInt32.toNat_sub_of_le _ _ (UInt32.le_iff_toNat_le.mpr (one ▸ some)), one]
    simp only [Bucket.isLive, if_true, Bool.false_eq_true, if_false] at live
    exact (Nat.eq_sub_of_add_eq live).symm

/-- `kh_clear` empties every bucket. -/
theorem clear_empty (table : Buckets p law t b) :
    (HashTable.clear p t).nBuckets = t.nBuckets ∧
      Buckets p law (HashTable.clear p t) fun _ => .empty := by
  have none : ∀ n, Nat.count (fun _ => ((Bucket.empty : Bucket K (Option V)).isLive) = true) n = 0 := by
    intro n
    exact Nat.count_iff_forall_not.mpr fun _ _ => nofun
  have none' : ∀ n,
      Nat.count (fun _ => (!(Bucket.empty : Bucket K (Option V)).isEmpty) = true) n = 0 := by
    intro n
    exact Nat.count_iff_forall_not.mpr fun _ _ => nofun
  unfold HashTable.clear
  by_cases fresh : t.flags = []
  · have zero : t.nBuckets.toNat = 0 := by
      by_contra some
      have flag := table.arrayed.flag (Nat.pos_of_ne_zero some)
      rw [fresh] at flag
      cases flag
    have size := table.size
    have occupied := table.occupied
    rw [zero, Nat.count_zero] at size occupied
    rw [if_pos fresh]
    refine ⟨rfl, table.count, ⟨?_, nofun, nofun, fun _ => rfl, table.arrayed.keysLen,
      table.arrayed.valsLen⟩, sound_empty, size.trans (none _).symm,
      occupied.trans (none' _).symm, table.upper⟩
    intro i inside
    omega
  · rw [if_neg fresh]
    refine ⟨rfl, table.count, ⟨?_, nofun, nofun, fun _ => rfl, table.arrayed.keysLen,
      table.arrayed.valsLen⟩, sound_empty, (none _).symm, (none' _).symm, table.upper⟩
    intro i inside
    exact bits_allEmpty (Nat.lt_of_lt_of_le inside (law.fsize_le table.count))

/-- A fresh table has no buckets. -/
theorem init_empty : Buckets p law (HashTable.init : HashTable K V) fun _ => .empty where
  count := Or.inl rfl
  arrayed := ⟨nofun, nofun, nofun, fun _ => rfl, rfl, rfl⟩
  sound := sound_empty
  size := rfl
  occupied := rfl
  upper := law.upper_zero.symm

end Buckets

end Bzing
