import Bzing.Data.Copying
import Bzing.Data.RoundUp
import Bzing.Hash.ChashTable
import Mathlib.Data.Nat.Size

/-!
# Rehash in libchash

`Rehash` goes through the items that are not deleted and puts them into a new sparse array; the one
that is watched is put there last, so that the pointer to it stays right. The new table holds what
the old one held, and no bucket in it is marked (`Filled.rehash`).
-/

namespace Bzing.Chash

open OpenTable Compact RoundUp

section Sizes

theorem toNat_clearLow {x : UInt64} (pos : 0 < x.toNat) :
    (x &&& (x - 1)).toNat = clearLow x.toNat := by
  have le : (1 : UInt64) ≤ x := UInt64.le_iff_toNat_le.mpr pos
  rw [UInt64.toNat_and, UInt64.toNat_sub_of_le _ _ le]
  rfl

/-- What is left is the highest bit. -/
theorem toNat_blackOut {x : UInt64} {e j fuel : Nat} (ge : 2 ^ e ≤ x.toNat)
    (lt : x.toNat < 2 ^ (e + 1)) (zeros : 2 ^ j ∣ x.toNat) (enough : e ≤ j + fuel) :
    (blackOut fuel x).toNat = 2 ^ e := by
  have pos : 0 < x.toNat := Nat.lt_of_lt_of_le (Nat.two_pow_pos e) ge
  induction fuel generalizing x j with
  | zero =>
    have top : 2 ^ e ∣ x.toNat := Nat.dvd_trans (Nat.pow_dvd_pow 2 enough) zeros
    obtain ⟨m, size⟩ := top
    rw [Nat.pow_succ] at lt
    have small : m < 2 := by
      by_contra large
      have : 2 ^ e * 2 ≤ 2 ^ e * m := Nat.mul_le_mul_left _ (Nat.le_of_not_lt large)
      omega
    have some : m ≠ 0 := by
      rintro rfl
      omega
    rw [blackOut, size, show m = 1 by omega, Nat.mul_one]
  | succ fuel ih =>
    have clear := toNat_clearLow pos
    unfold blackOut
    split
    · rename_i more
      have more : x.toNat ≠ 2 ^ e := by
        intro same
        rw [same, clearLow_two_pow] at clear
        exact more (UInt64.toNat_inj.mp clear)
      have ge' := clearLow_ge ge lt more
      have lt' : clearLow x.toNat < 2 ^ (e + 1) := Nat.lt_of_le_of_lt Nat.and_le_left lt
      rw [← clear] at ge' lt'
      exact ih ge' lt' (clear ▸ dvd_clearLow zeros) (by omega)
        (Nat.lt_of_lt_of_le (Nat.two_pow_pos e) ge')
    · rename_i last
      have last : clearLow x.toNat = 0 := by
        rw [← clear, not_not.mp last]
        rfl
      by_contra more
      have := clearLow_ge ge lt more
      have := Nat.two_pow_pos e
      omega

/-- `NextPow2` gives the power of two above a number. -/
theorem toNat_nextPow2 {x : UInt64} (pos : 0 < x.toNat) (small : x.toNat < 2 ^ 63) :
    (nextPow2 x).toNat = 2 ^ x.toNat.size := by
  obtain ⟨e, size⟩ : ∃ e, x.toNat.size = e + 1 :=
    Nat.exists_eq_add_one.mpr (Nat.size_pos.mpr pos)
  have ge : 2 ^ e ≤ x.toNat := Nat.lt_size.mp (by omega)
  have lt : x.toNat < 2 ^ (e + 1) := size ▸ Nat.lt_size_self _
  have few : e < 63 := (Nat.pow_lt_pow_iff_right (by omega : 1 < 2)).mp (Nat.lt_of_le_of_lt ge small)
  have top : (blackOut 64 x).toNat = 2 ^ e :=
    toNat_blackOut (j := 0) ge lt (Nat.one_dvd _) (by omega)
  have one : (1 : UInt64).toNat % 64 = 1 := rfl
  have fits : ((x <<< 1) >>> 1) = x := by
    apply UInt64.toNat_inj.mp
    rw [UInt64.toNat_shiftRight, UInt64.toNat_shiftLeft, one, Nat.shiftLeft_eq,
      Nat.shiftRight_eq_div_pow]
    omega
  have power : 2 ^ (e + 1) ≤ 2 ^ 63 := Nat.pow_le_pow_right (by omega) (by omega)
  have value : nextPow2 x = blackOut 64 x <<< 1 := by
    rw [nextPow2, if_neg (not_not.mpr fits)]
  rw [value, UInt64.toNat_shiftLeft, top, one, Nat.shiftLeft_eq, size, Nat.pow_succ]
  rw [Nat.pow_succ] at power
  exact Nat.mod_eq_of_lt (by omega)

/-- An array for a power of two is allocated, of 64 buckets at least. -/
theorem sparseAllocate_eq (K : Type) {n : UInt64} {k : Nat} (size : n.toNat = 2 ^ k)
    (small : k ≤ 30) :
    ∃ n' : UInt64, sparseAllocate K n = some (n', List.replicate (2 ^ (max k 6 - 6)) ⟨[], 0⟩) ∧
      n'.toNat = 2 ^ max k 6 := by
  have pos := Nat.two_pow_pos k
  have one : (1 : UInt64).toNat = 1 := rfl
  have six : (6 : UInt64).toNat % 64 = 6 := rfl
  have less : (n - 1).toNat = 2 ^ k - 1 := by
    rw [UInt64.toNat_sub_of_le _ _ (UInt64.le_iff_toNat_le.mpr (by rw [size]; exact pos)), size]
    rfl
  have groups : (2 ^ k - 1) / 64 + 1 = 2 ^ (max k 6 - 6) := by
    rcases Nat.le_total 6 k with many | few
    · rw [Nat.max_eq_left many]
      have split : 2 ^ k = 64 * 2 ^ (k - 6) := by
        rw [show 64 = 2 ^ 6 by rfl, ← Nat.pow_add, Nat.add_sub_cancel' many]
      have := Nat.two_pow_pos (k - 6)
      omega
    · rw [Nat.max_eq_right few]
      have : 2 ^ k ≤ 2 ^ 6 := Nat.pow_le_pow_right (by omega) few
      omega
  have bound : 2 ^ (max k 6 - 6) ≤ 2 ^ 24 := Nat.pow_le_pow_right (by omega) (by omega)
  have value : (sparseGroups n).toNat = 2 ^ (max k 6 - 6) := by
    rw [sparseGroups, UInt64.toNat_add, UInt64.toNat_shiftRight, less, one, six,
      Nat.shiftRight_eq_div_pow, ← groups]
    omega
  have stored : (sparseGroups n).toUInt32.toNat = 2 ^ (max k 6 - 6) := by
    rw [UInt64.toNat_toUInt32, value]
    omega
  refine ⟨(sparseGroups n).toUInt32.toUInt64 <<< 6, ?_, ?_⟩
  · have fits : 2 ^ (max k 6 - 6) < 2 ^ 25 := by omega
    simp only [sparseAllocate, stored, if_pos fits]
  · rw [UInt64.toNat_shiftLeft, UInt32.toNat_toUInt64, stored, six, Nat.shiftLeft_eq, ← Nat.pow_add,
      Nat.sub_add_cancel (Nat.le_max_right k 6)]
    apply Nat.mod_eq_of_lt
    exact Nat.pow_lt_pow_right (by omega) (by omega)

end Sizes

section Visits

variable {K : Type} {h : K → UInt64} {table : List (SparseBin K)} {e : Nat}
  {b : Nat → Bucket K UInt64} {i : Nat}

/-- Where the items of the live buckets are kept. -/
def livePtrs (e : Nat) (b : Nat → Bucket K UInt64) : List ItemPtr :=
  (liveBuckets (2 ^ e) b).map (ptrOf (itemsOf b))

theorem length_livePtrs (e : Nat) (b : Nat → Bucket K UInt64) :
    (livePtrs e b).length = Nat.count (fun i => (b i).isLive = true) (2 ^ e) := by
  rw [livePtrs, List.length_map, length_liveBuckets]

theorem isSome_itemsOf_of_isLive (live : (b i).isLive = true) : (itemsOf b i).isSome = true := by
  obtain ⟨k, v, here⟩ := Bucket.isLive_iff.mp live
  rw [itemsOf, here]
  rfl

/-- The user sees the items that are not deleted, each once. -/
theorem Filled.visits (filled : Filled h table e b) :
    Walk.Visits (hashNextBucket table) none (livePtrs e b) := by
  have all := filled.array.visits
  rw [filled.size] at all
  have marked : ∀ i ∈ taken (itemsOf b) (2 ^ e), isBckDeleted table (ptrOf (itemsOf b) i) =
      some (b i).isDeleted := by
    intro i member
    obtain ⟨inside, some⟩ := mem_taken.mp member
    cases here : b i with
    | empty =>
      rw [itemsOf, here] at some
      cases some
    | deleted => exact filled.isBckDeleted_deleted inside here
    | live k v => exact filled.isBckDeleted_live inside here
  have few : ((taken (itemsOf b) (2 ^ e)).map (ptrOf (itemsOf b))).length <
      64 * table.length + 1 := by
    have := List.length_filter_le (fun i => (itemsOf b i).isSome) (List.range (2 ^ e))
    rw [List.length_range] at this
    rw [List.length_map, filled.size]
    exact Nat.lt_succ_of_le this
  have known : ∀ p ∈ (taken (itemsOf b) (2 ^ e)).map (ptrOf (itemsOf b)), isBckDeleted table p =
      some ((isBckDeleted table p).getD false) := by
    intro p member
    obtain ⟨i, inside, rfl⟩ := List.mem_map.mp member
    rw [marked i inside]
    rfl
  have kept := all.kept known few
  have same : ((taken (itemsOf b) (2 ^ e)).map (ptrOf (itemsOf b))).filter
      (fun p => !(isBckDeleted table p).getD false) = livePtrs e b := by
    rw [List.filter_map, livePtrs, liveBuckets, taken, List.filter_filter]
    congr 1
    apply List.filter_congr
    intro i member
    rw [List.mem_range] at member
    cases here : b i with
    | empty => simp [itemsOf, here, itemOf, Bucket.isLive]
    | deleted =>
      simp [itemsOf, here, itemOf, Bucket.isLive, filled.isBckDeleted_deleted member here]
    | live k v =>
      simp [itemsOf, here, itemOf, Bucket.isLive, filled.isBckDeleted_live member here]
  exact same ▸ kept

/-- A loop over the table does its body for each of these. -/
theorem Filled.forBuckets (filled : Filled h table e b) {σ : Type} (body : σ → ItemPtr → Option σ)
    (s : σ) : forBuckets table body s = (livePtrs e b).foldlM body s := by
  refine filled.visits.forEach ?_ body s
  rw [length_livePtrs, filled.size]
  exact Nat.lt_succ_of_le (Nat.count_le _)

end Visits

section Copying

variable {K : Type} {h : K → UInt64} {table tableNew : List (SparseBin K)} {e e' : Nat}
  {b bNew : Nat → Bucket K UInt64} {n : UInt64} {i : Nat} {done : List Nat} {key : K}
  {data : UInt64}

/-- The new array holds what is done. -/
structure Copy (h : K → UInt64) (e : Nat) (b : Nat → Bucket K UInt64) (done : List Nat)
    (tableNew : List (SparseBin K)) (e' : Nat) (bNew : Nat → Bucket K UInt64) : Prop where
  filled : Filled h tableNew e' bNew
  copied : Copied (scheme h e') b done bNew
  known {i : Nat} : i ∈ done → i < 2 ^ e

/-- One item is put into the new array. -/
theorem Copy.rehashItem (copy : Copy h e b done tableNew e' bNew) (filled : Filled h table e b)
    (size : n.toNat = 2 ^ e') (room : done.length < 2 ^ e') (inside : i < 2 ^ e) (new : i ∉ done)
    (here : b i = .live key data) :
    ∃ p tableNew' bNew', rehashItem h n tableNew ⟨data, some key⟩ = some (p, tableNew') ∧
      Copy h e b (done ++ [i]) tableNew' e' bNew' ∧
      ∃ i' < 2 ^ e', bNew' i' = .live key data ∧ p = ptrOf (itemsOf bNew') i' := by
  obtain ⟨j, short, free, before⟩ := copy.copied.exists_empty (s := scheme h e') room key
  obtain ⟨w, probed, place⟩ := copy.filled.freeBucket_eq size short free before
  have within : w.toNat < 2 ^ e' := place ▸ (scheme h e').path_lt short
  have none : itemsOf bNew w.toNat = none := by
    rw [itemsOf, place, free]
    rfl
  obtain ⟨tableNew', inserted, same, array⟩ :=
    copy.filled.array.insert_none (copy.filled.lt within) none ⟨data, some key⟩ false
  have copied := copy.copied.add filled.sound (fun i' member => copy.known member) inside new here
    short free before
  have unmarked : ∀ k, Bucket.live key data ≠ .live k deletedData := by
    rintro k ⟨⟩
    exact filled.unmarked here
  rw [← place] at copied
  refine ⟨ptrOf (itemsOf bNew) w.toNat, tableNew', _, ?_, ⟨copy.filled.update same array unmarked copied.sound, copied, ?_⟩,
    w.toNat, within, Function.update_self .., ?_⟩
  · simp [Chash.rehashItem, probed, inserted]
  · intro i' member
    rcases List.mem_append.mp member with known | last
    · exact copy.known known
    · rwa [List.mem_singleton.mp last]
  · rw [itemsOf_update, ptrOf_update]

/-- All items but the one that is watched. -/
theorem Copy.rehashTurns (filled : Filled h table e b) (size : n.toNat = 2 ^ e')
    (watch : Option Nat) (l : List Nat) (live : ∀ i ∈ l, i < 2 ^ e ∧ (b i).isLive = true)
    (watched : ∀ i, watch = some i → (b i).isLive = true) (once : l.Nodup)
    (copy : Copy h e b done tableNew e' bNew) (apart : ∀ i ∈ l, i ∉ done)
    (room : done.length + l.length ≤ 2 ^ e') :
    ∃ tableNew' bNew', (l.map (ptrOf (itemsOf b))).foldlM
        (rehashTurn h table n (watch.map (ptrOf (itemsOf b)))) tableNew = some tableNew' ∧
      Copy h e b (done ++ l.filter fun i => watch ≠ some i) tableNew' e' bNew' := by
  induction l generalizing done tableNew bNew with
  | nil => exact ⟨tableNew, bNew, rfl, by rwa [List.filter_nil, List.append_nil]⟩
  | cons i l ih =>
    obtain ⟨inside, here⟩ := live i List.mem_cons_self
    obtain ⟨new, once⟩ := List.nodup_cons.mp once
    have live' : ∀ i' ∈ l, i' < 2 ^ e ∧ (b i').isLive = true :=
      fun i' member => live i' (List.mem_cons_of_mem i member)
    rw [List.length_cons] at room
    have same : watch.map (ptrOf (itemsOf b)) = some (ptrOf (itemsOf b) i) ↔ watch = some i := by
      constructor
      · intro mapped
        obtain ⟨i', rfl, ptr⟩ := Option.map_eq_some_iff.mp mapped
        rw [ptrOf_inj (isSome_itemsOf_of_isLive (watched i' rfl))
          (isSome_itemsOf_of_isLive here) ptr]
      · rintro rfl
        rfl
    by_cases own : watch = some i
    · obtain ⟨tableNew', bNew', turns, copy'⟩ := ih live' once copy
        (fun i' member => apart i' (List.mem_cons_of_mem i member)) (by omega)
      refine ⟨tableNew', bNew', ?_, ?_⟩
      · rw [List.map_cons, List.foldlM_cons, rehashTurn, if_pos (same.mpr own)]
        exact turns
      · rwa [List.filter_cons_of_neg (by simpa using own)]
    · obtain ⟨k, v, bucket⟩ := Bucket.isLive_iff.mp here
      obtain ⟨p, table1, b1, item, copy1, -⟩ := copy.rehashItem filled size (by omega) inside
        (apart i List.mem_cons_self) bucket
      obtain ⟨tableNew', bNew', turns, copy'⟩ := ih live' once copy1 (by
        intro i' member known
        rcases List.mem_append.mp known with old | last
        · exact apart i' (List.mem_cons_of_mem i member) old
        · rw [List.mem_singleton.mp last] at member
          exact new member) (by
        rw [List.length_append, List.length_singleton]
        omega)
      refine ⟨tableNew', bNew', ?_, ?_⟩
      · have item' := filled.deref_live inside bucket
        rw [List.map_cons, List.foldlM_cons, rehashTurn, if_neg (mt same.mp own), item']
        simp only [Option.bind_eq_bind, Option.bind_some, item]
        exact turns
      · rw [List.append_assoc] at copy'
        rwa [List.filter_cons_of_pos (by simpa using own)]

/-- Nothing is done in an array that was just allocated. -/
theorem copy_replicate (h : K → UInt64) (e : Nat) (b : Nat → Bucket K UInt64) (k : Nat) :
    Copy h e b [] (List.replicate (2 ^ (max k 6 - 6)) ⟨[], 0⟩) (max k 6) fun _ => .empty where
  filled := {
    size := by
      rw [List.length_replicate, show 64 = 2 ^ 6 by rfl, ← Nat.pow_add,
        Nat.add_sub_cancel' (Nat.le_max_right k 6)]
    array := standsFor_replicate _
    unmarked := nofun
    sound := sound_empty }
  copied := Copied.start _ b
  known := nofun

end Copying

/-! ## Rehash -/

section Rehash

variable {K : Type} {h : K → UInt64} {ht : HashTable K} {e k : Nat} {b : Nat → Bucket K UInt64}
  {n : UInt64} {watch : Option Nat}

/-- What `Rehash` leaves: a table with the same keys, none of its buckets marked, and the watched
    item where the pointer says. -/
structure Rehashed (h : K → UInt64) (e : Nat) (b : Nat → Bucket K UInt64) (watch : Option Nat)
    (p : Option ItemPtr) (table : List (SparseBin K)) (e' : Nat) (b' : Nat → Bucket K UInt64) :
    Prop where
  filled : Filled h table e' b'
  holds {key : K} {data : UInt64} : Holds (2 ^ e') b' key data ↔ Holds (2 ^ e) b key data
  unmarked {i : Nat} : b' i ≠ .deleted
  count : Nat.count (fun i => (b' i).isLive = true) (2 ^ e') =
    Nat.count (fun i => (b i).isLive = true) (2 ^ e)
  watched {i : Nat} {key : K} {data : UInt64} : watch = some i → b i = .live key data →
    ∃ i' < 2 ^ e', b' i' = .live key data ∧ p = some (ptrOf (itemsOf b') i')

theorem Copy.rehashed {table : List (SparseBin K)} {e' : Nat} {b' : Nat → Bucket K UInt64}
    {done : List Nat} (copy : Copy h e b done table e' b')
    (all : done.Perm (liveBuckets (2 ^ e) b)) {p : Option ItemPtr}
    (watched : ∀ {i : Nat} {key : K} {data : UInt64}, watch = some i → b i = .live key data →
      ∃ i' < 2 ^ e', b' i' = .live key data ∧ p = some (ptrOf (itemsOf b') i')) :
    Rehashed h e b watch p table e' b' where
  filled := copy.filled
  holds := copy.copied.holds_iff fun _ => all.mem_iff.trans mem_liveBuckets
  unmarked := copy.copied.unmarked
  count := copy.copied.count.trans (all.length_eq.trans (length_liveBuckets _ b))
  watched := watched

/-- `Rehash` to a power of two. -/
theorem Filled.rehash (filled : Filled h ht.table e b) (size : n.toNat = 2 ^ k) (small : k ≤ 30)
    (room : Nat.count (fun i => (b i).isLive = true) (2 ^ e) ≤ 2 ^ max k 6)
    (watched : ∀ i, watch = some i → i < 2 ^ e ∧ (b i).isLive = true) :
    ∃ p table' n' b', rehash h ht n (watch.map (ptrOf (itemsOf b))) =
        some (p, { ht with table := table', cBuckets := n', cDeletedItems := 0 }) ∧
      n'.toNat = 2 ^ max k 6 ∧ Rehashed h e b watch p table' (max k 6) b' := by
  obtain ⟨n', allocated, size'⟩ := sparseAllocate_eq K size small
  rw [← length_liveBuckets] at room
  obtain ⟨table1, b1, turns, copy⟩ := (copy_replicate h e b k).rehashTurns filled size' watch
    (liveBuckets (2 ^ e) b) (fun _ member => mem_liveBuckets.mp member)
    (fun i here => (watched i here).2) (nodup_liveBuckets _ b) (by simp) (by simpa using room)
  rw [List.nil_append] at copy
  have loop : Chash.forBuckets ht.table (rehashTurn h ht.table n' (watch.map (ptrOf (itemsOf b))))
      (List.replicate (2 ^ (max k 6 - 6)) ⟨[], 0⟩) = some table1 := by
    rw [filled.forBuckets]
    exact turns
  cases watch with
  | none =>
    refine ⟨none, table1, n', b1, ?_, size', copy.rehashed (List.Perm.of_eq ?_) nofun⟩
    · rw [Option.map_none] at loop
      simp [Chash.rehash, allocated, loop]
    · simp
  | some i =>
    obtain ⟨inside, live⟩ := watched i rfl
    obtain ⟨key, data, here⟩ := Bucket.isLive_iff.mp live
    have member : i ∈ liveBuckets (2 ^ e) b := mem_liveBuckets.mpr ⟨inside, live⟩
    have perm : ((liveBuckets (2 ^ e) b).filter (fun i' => some i ≠ some i') ++ [i]).Perm
        (liveBuckets (2 ^ e) b) := by
      have erased : (liveBuckets (2 ^ e) b).filter (fun i' => some i ≠ some i') =
          (liveBuckets (2 ^ e) b).erase i := by
        rw [(nodup_liveBuckets _ b).erase_eq_filter]
        apply List.filter_congr
        intro i' _
        by_cases same : i' = i
        · simp [same]
        · simp [same, Ne.symm same]
      rw [erased]
      exact (List.perm_append_singleton i _).trans (List.perm_cons_erase member).symm
    have fewer := perm.length_eq
    rw [List.length_append, List.length_singleton] at fewer
    obtain ⟨p, table2, b2, placed, copy2, i', inside', there, ptr⟩ :=
      copy.rehashItem filled size' (by omega) inside (by simp) here
    refine ⟨some p, table2, n', b2, ?_, size', copy2.rehashed perm ?_⟩
    · have item := filled.deref_live inside here
      rw [Option.map_some] at loop
      simp [Chash.rehash, allocated, loop, item, placed]
    · rintro _ key' data' ⟨⟩ same
      rw [here] at same
      cases same
      exact ⟨i', inside', there, congrArg some ptr⟩

end Rehash

end Bzing.Chash
