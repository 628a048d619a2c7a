import Bzing.Types
import Mathlib.Data.Nat.Bitwise
import Mathlib.Data.Fintype.Pi

/-!
# The packed `spent` word

Three kinds of word share 64 bits: `UINT64_MAX` for a block, `BZ_TXI_SPENT_UMARK | n_txout`
for a transaction without slots, and `pos | bits` for one whose slots start at `pos`
(`api/bzing_types.h:60-69`). `classify` runs the tests of `bzing_spent_mark`
(`bzing.c:601-628`) in their order; the lemmas describe each test by the number the word
stands for.
-/

namespace Bzing

/-- A bit field read by a shifted mask. -/
theorem and_field (x k m : Nat) :
    x &&& ((2 ^ k - 1) * 2 ^ m) = x / 2 ^ m % 2 ^ k * 2 ^ m := by
  apply Nat.eq_of_testBit_eq
  intro i
  rw [Nat.testBit_and, Nat.testBit_mul_two_pow, Nat.testBit_mul_two_pow]
  by_cases h : m ≤ i
  · obtain ⟨j, rfl⟩ := Nat.le.dest h
    simp [Nat.testBit_div_two_pow, Nat.add_comm, Bool.and_comm]
  · simp [h]

/-- The marker test reads the 24 bits above the output count. -/
theorem umark_iff (w : UInt64) :
    w &&& bzTxiSpentUmark = bzTxiSpentUmark ↔ w.toNat / 2 ^ 32 % 2 ^ 24 = 2 ^ 24 - 1 := by
  have field : bzTxiSpentUmark.toNat = (2 ^ 24 - 1) * 2 ^ 32 := by decide
  rw [← UInt64.toNat_inj, UInt64.toNat_and, field, and_field]
  omega

theorem toNat_and_mask (w : UInt64) : (w &&& bzTxiSpentMask).toNat = w.toNat % 2 ^ 56 := by
  have field : bzTxiSpentMask.toNat = 2 ^ 56 - 1 := by decide
  rw [UInt64.toNat_and, field, Nat.and_two_pow_sub_one_eq_mod]

theorem toNat_and_umask (w : UInt64) : (w &&& bzTxiSpentUmask).toNat = w.toNat % 2 ^ 32 := by
  have field : bzTxiSpentUmask.toNat = 2 ^ 32 - 1 := by decide
  rw [UInt64.toNat_and, field, Nat.and_two_pow_sub_one_eq_mod]

/-- The word of a transaction without slots. -/
theorem toNat_umark_or (n : UInt32) :
    (bzTxiSpentUmark ||| n.toUInt64).toNat = 0x00ffffff00000000 + n.toNat := by
  have field : bzTxiSpentUmark.toNat = 2 ^ 32 * (2 ^ 24 - 1) := by decide
  rw [UInt64.toNat_or, field, UInt32.toNat_toUInt64, ← Nat.two_pow_add_eq_or_of_lt n.toNat_lt]
  rfl

/-- The quick bit of output `i`; outputs from the eighth on have none. -/
def quickBit (i : Nat) : UInt64 := bzTxiSpentMap.getD i 0

theorem toNat_quickBit {i : Nat} (h : i < 8) : (quickBit i).toNat = 2 ^ (63 - i) := by
  revert i
  decide

theorem quickBit_eq_zero {i : Nat} (h : 8 ≤ i) : quickBit i = 0 := by
  unfold quickBit
  rw [List.getD_eq_default _ _ (by simpa [bzTxiSpentMap] using h)]

/-- Is output `i` recorded as spent in the quick bits of `w`? -/
def hasQuickBit (w : UInt64) (i : Nat) : Bool := w &&& quickBit i != 0

theorem hasQuickBit_eq_testBit {i : Nat} (h : i < 8) (w : UInt64) :
    hasQuickBit w i = w.toNat.testBit (63 - i) := by
  have zero : (w &&& quickBit i = 0) ↔ w.toNat.testBit (63 - i) = false := by
    rw [← UInt64.toNat_inj, UInt64.toNat_and, toNat_quickBit h, Nat.and_two_pow]
    simp
  unfold hasQuickBit
  cases test : w.toNat.testBit (63 - i)
  · simpa using zero.mpr test
  · have nonzero : w &&& quickBit i ≠ 0 := fun h => by simp [zero.mp h] at test
    simpa using nonzero

/-- Setting a quick bit keeps the position below it. -/
theorem or_quickBit_mod (w : UInt64) (i : Nat) :
    (w ||| quickBit i).toNat % 2 ^ 56 = w.toNat % 2 ^ 56 := by
  rw [UInt64.toNat_or, Nat.or_mod_two_pow]
  by_cases h : i < 8
  · have high : (quickBit i).toNat % 2 ^ 56 = 0 := by
      rw [toNat_quickBit h]
      exact Nat.mod_eq_zero_of_dvd (Nat.pow_dvd_pow 2 (by omega))
    rw [high, Nat.or_zero]
  · rw [quickBit_eq_zero (by omega)]
    simp

/-- Setting the quick bit of output `i` sets that bit and no other. -/
theorem hasQuickBit_or {j : Nat} (hj : j < 8) (w : UInt64) (i : Nat) :
    hasQuickBit (w ||| quickBit i) j = (hasQuickBit w j || decide (i = j)) := by
  rw [hasQuickBit_eq_testBit hj, hasQuickBit_eq_testBit hj, UInt64.toNat_or, Nat.testBit_or]
  congr 1
  by_cases hi : i < 8
  · rw [toNat_quickBit hi, Nat.testBit_two_pow]
    have : 63 - i = 63 - j ↔ i = j := by omega
    simp [this]
  · rw [quickBit_eq_zero (by omega)]
    have : i ≠ j := by omega
    simp [this]

/-- The quick bits of a set of outputs, as one word. -/
def quickBits (bits : Fin 8 → Bool) : UInt64 :=
  (List.finRange 8).foldl (fun w i => if bits i then w ||| quickBit i else w) 0

/-- Folding quick bits into a word keeps its position and adds exactly those bits. -/
theorem foldl_quickBits (bits : Fin 8 → Bool) (l : List (Fin 8)) (w : UInt64) :
    (l.foldl (fun w i => if bits i then w ||| quickBit i else w) w).toNat % 2 ^ 56 =
      w.toNat % 2 ^ 56 ∧
    ∀ j : Fin 8, hasQuickBit (l.foldl (fun w i => if bits i then w ||| quickBit i else w) w) j =
      (hasQuickBit w j || (decide (j ∈ l) && bits j)) := by
  induction l generalizing w with
  | nil => simp
  | cons i l ih =>
    simp only [List.foldl_cons, List.mem_cons]
    refine ⟨?_, ?_⟩
    · rw [(ih _).1]
      split
      · exact or_quickBit_mod w i
      · rfl
    · intro j
      rw [(ih _).2 j]
      cases hi : bits i
      · by_cases same : j = i
        · subst same
          simp [hi]
        · simp [same]
      · simp only [if_true]
        rw [hasQuickBit_or j.isLt]
        by_cases same : j = i
        · subst same
          simp [hi]
        · have apart : (i : Nat) ≠ j := fun h => same (Fin.ext h.symm)
          simp [same, apart]

/-! ## Reading a word -/

/-- What a `spent` word says about its entry. -/
inductive SpentWord where
  | block
  | unallocated (n_txout : UInt32)
  | allocated (pos : UInt64) (bits : Fin 8 → Bool)

/-- The word that says it. -/
def SpentWord.pack : SpentWord → UInt64
  | .block => uint64Max
  | .unallocated n_txout => bzTxiSpentUmark ||| n_txout.toUInt64
  | .allocated pos bits => pos ||| quickBits bits

/-- The tests of `bzing_spent_mark` in their order (`bzing.c:601-628`). -/
def classify (w : UInt64) : SpentWord :=
  if w = uint64Max then .block
  else if w &&& bzTxiSpentUmark = bzTxiSpentUmark then
    .unallocated (w &&& bzTxiSpentUmask).toUInt32
  else .allocated (w &&& bzTxiSpentMask) (fun i => hasQuickBit w i)

/-- `w` is the word of a transaction whose slots start at `pos`. -/
structure IsAllocated (w : UInt64) (pos : Nat) : Prop where
  base : w.toNat % 2 ^ 56 = pos
  pos_ge : 1 ≤ pos
  pos_le : pos ≤ bzTxiSpentMax.toNat

theorem IsAllocated.ne_uint64Max {w : UInt64} {pos : Nat} (h : IsAllocated w pos) :
    w ≠ uint64Max := by
  rintro rfl
  have base := h.base
  have bound := h.pos_le
  have max : uint64Max.toNat = 2 ^ 64 - 1 := by decide
  have limit : bzTxiSpentMax.toNat = 0x00fffffeffffffff := by decide
  omega

theorem IsAllocated.not_umark {w : UInt64} {pos : Nat} (h : IsAllocated w pos) :
    ¬ w &&& bzTxiSpentUmark = bzTxiSpentUmark := by
  rw [umark_iff]
  have base := h.base
  have bound := h.pos_le
  have limit : bzTxiSpentMax.toNat = 0x00fffffeffffffff := by decide
  omega

theorem IsAllocated.toNat_and_mask {w : UInt64} {pos : Nat} (h : IsAllocated w pos) :
    (w &&& bzTxiSpentMask).toNat = pos := by
  rw [Bzing.toNat_and_mask, h.base]

theorem IsAllocated.or_quickBit {w : UInt64} {pos : Nat} (h : IsAllocated w pos) (i : Nat) :
    IsAllocated (w ||| quickBit i) pos :=
  ⟨by rw [or_quickBit_mod, h.base], h.pos_ge, h.pos_le⟩

theorem IsAllocated.classify_eq {w : UInt64} {pos : Nat} (h : IsAllocated w pos) :
    classify w = .allocated (w &&& bzTxiSpentMask) (fun i => hasQuickBit w i) := by
  unfold classify
  rw [if_neg h.ne_uint64Max, if_neg h.not_umark]

/-- A position in range is its own word, without quick bits. -/
theorem isAllocated_self {pos : UInt64} (ge : 1 ≤ pos.toNat) (le : pos ≤ bzTxiSpentMax) :
    IsAllocated pos pos.toNat := by
  have le := UInt64.le_iff_toNat_le.mp le
  have limit : bzTxiSpentMax.toNat = 0x00fffffeffffffff := by decide
  exact ⟨Nat.mod_eq_of_lt (by omega), ge, le⟩

theorem hasQuickBit_self {pos : UInt64} (le : pos ≤ bzTxiSpentMax) {i : Nat} (h : i < 8) :
    hasQuickBit pos i = false := by
  have le := UInt64.le_iff_toNat_le.mp le
  have limit : bzTxiSpentMax.toNat = 0x00fffffeffffffff := by decide
  have low : pos.toNat < 2 ^ (63 - i) :=
    lt_of_lt_of_le (by omega) (Nat.pow_le_pow_right (by decide : 0 < 2) (by omega : 56 ≤ 63 - i))
  rw [hasQuickBit_eq_testBit h, Nat.testBit_lt_two_pow low]

theorem umark_or_ne_uint64Max (n : UInt32) : bzTxiSpentUmark ||| n.toUInt64 ≠ uint64Max := by
  intro h
  have value := congrArg UInt64.toNat h
  have max : uint64Max.toNat = 2 ^ 64 - 1 := by decide
  have bound := n.toNat_lt
  rw [toNat_umark_or, max] at value
  omega

theorem umark_or_umark (n : UInt32) :
    (bzTxiSpentUmark ||| n.toUInt64) &&& bzTxiSpentUmark = bzTxiSpentUmark := by
  have bound := n.toNat_lt
  rw [umark_iff, toNat_umark_or]
  omega

theorem umark_or_umask (n : UInt32) :
    ((bzTxiSpentUmark ||| n.toUInt64) &&& bzTxiSpentUmask).toUInt32 = n := by
  have bound := n.toNat_lt
  rw [← UInt32.toNat_inj, UInt64.toNat_toUInt32, toNat_and_umask, toNat_umark_or]
  omega

/-- An output count leaves the quick bits clear. -/
theorem hasQuickBit_umark (n : UInt32) {i : Nat} (h : i < 8) :
    hasQuickBit (bzTxiSpentUmark ||| n.toUInt64) i = false := by
  have bound := n.toNat_lt
  have low : 0x00ffffff00000000 + n.toNat < 2 ^ (63 - i) :=
    lt_of_lt_of_le (by omega) (Nat.pow_le_pow_right (by decide : 0 < 2) (by omega : 56 ≤ 63 - i))
  rw [hasQuickBit_eq_testBit h, toNat_umark_or, Nat.testBit_lt_two_pow low]

theorem classify_block : classify SpentWord.block.pack = .block := by
  simp [classify, SpentWord.pack]

theorem classify_unallocated (n : UInt32) :
    classify (SpentWord.unallocated n).pack = .unallocated n := by
  have notBlock : (SpentWord.unallocated n).pack ≠ uint64Max := umark_or_ne_uint64Max n
  have marked : (SpentWord.unallocated n).pack &&& bzTxiSpentUmark = bzTxiSpentUmark :=
    umark_or_umark n
  unfold classify
  rw [if_neg notBlock, if_pos marked]
  exact congrArg SpentWord.unallocated (umark_or_umask n)

theorem isAllocated_pack {pos : UInt64} (bits : Fin 8 → Bool) (ge : 1 ≤ pos.toNat)
    (le : pos ≤ bzTxiSpentMax) : IsAllocated (SpentWord.allocated pos bits).pack pos.toNat := by
  have self := isAllocated_self ge le
  have high := (foldl_quickBits bits (List.finRange 8) 0).1
  have zero : (0 : UInt64).toNat % 2 ^ 56 = 0 := by decide
  refine ⟨?_, self.pos_ge, self.pos_le⟩
  rw [SpentWord.pack, UInt64.toNat_or, Nat.or_mod_two_pow, self.base]
  rw [quickBits, high, zero, Nat.or_zero]

theorem classify_allocated {pos : UInt64} (bits : Fin 8 → Bool) (ge : 1 ≤ pos.toNat)
    (le : pos ≤ bzTxiSpentMax) :
    classify (SpentWord.allocated pos bits).pack = .allocated pos bits := by
  have alloc := isAllocated_pack bits ge le
  unfold classify
  rw [if_neg alloc.ne_uint64Max, if_neg alloc.not_umark]
  congr 1
  · rw [← UInt64.toNat_inj, alloc.toNat_and_mask]
  · funext i
    have own := hasQuickBit_self le i.isLt
    have added := (foldl_quickBits bits (List.finRange 8) 0).2 i
    have none : hasQuickBit 0 (i : Nat) = false := by simp [hasQuickBit]
    rw [none] at added
    rw [hasQuickBit_eq_testBit i.isLt] at own added ⊢
    rw [SpentWord.pack, UInt64.toNat_or, Nat.testBit_or, own, quickBits, added]
    simp

/-- The words in use: a position is in range. -/
def SpentWord.Valid : SpentWord → Prop
  | .allocated pos _ => 1 ≤ pos.toNat ∧ pos ≤ bzTxiSpentMax
  | _ => True

theorem classify_pack {word : SpentWord} (valid : word.Valid) : classify word.pack = word := by
  cases word with
  | block => exact classify_block
  | unallocated n => exact classify_unallocated n
  | allocated pos bits => exact classify_allocated bits valid.1 valid.2

theorem pack_injective {v w : SpentWord} (valid : v.Valid) (valid' : w.Valid)
    (same : v.pack = w.pack) : v = w := by
  rw [← classify_pack valid, same, classify_pack valid']

theorem or_quickBit_mask (w : UInt64) (i : Nat) :
    (w ||| quickBit i) &&& bzTxiSpentMask = w &&& bzTxiSpentMask := by
  rw [← UInt64.toNat_inj, toNat_and_mask, toNat_and_mask, or_quickBit_mod]

/-- A word is its position and its quick bits. -/
theorem eq_or_quickBits (w : UInt64) :
    w = (w &&& bzTxiSpentMask) ||| quickBits fun i => hasQuickBit w i := by
  obtain ⟨low, high⟩ := foldl_quickBits (fun i => hasQuickBit w i) (List.finRange 8) 0
  have none : ∀ i : Fin 8, hasQuickBit 0 (i : Nat) = false := fun i => by simp [hasQuickBit]
  change (quickBits fun i => hasQuickBit w i).toNat % 2 ^ 56 = 0 at low
  rw [← UInt64.toNat_inj]
  apply Nat.eq_of_testBit_eq
  intro j
  rw [UInt64.toNat_or, Nat.testBit_or, toNat_and_mask, Nat.testBit_mod_two_pow]
  by_cases position : j < 56
  · have clear := congrArg (fun n => n.testBit j) low
    simp only [Nat.testBit_mod_two_pow, position, decide_true, Bool.true_and,
      Nat.zero_testBit] at clear
    simp [position, clear]
  · by_cases bit : j < 64
    · have own := high ⟨63 - j, by omega⟩
      rw [none, Bool.false_or] at own
      simp only [List.mem_finRange, decide_true, Bool.true_and] at own
      change hasQuickBit (quickBits fun i => hasQuickBit w i) (63 - j) =
        hasQuickBit w (63 - j) at own
      rw [hasQuickBit_eq_testBit (by omega), hasQuickBit_eq_testBit (by omega),
        Nat.sub_sub_self (by omega : j ≤ 63)] at own
      simp [position, own]
    · have beyond : ∀ v : UInt64, v.toNat.testBit j = false := fun v =>
        Nat.testBit_lt_two_pow (lt_of_lt_of_le v.toNat_lt
          (Nat.pow_le_pow_right (by decide) (by omega)))
      simp [position, beyond]

theorem IsAllocated.eq_pack {w : UInt64} {pos : Nat} (h : IsAllocated w pos) :
    (SpentWord.allocated (w &&& bzTxiSpentMask) fun i => hasQuickBit w i).Valid ∧
      w = (SpentWord.allocated (w &&& bzTxiSpentMask) fun i => hasQuickBit w i).pack := by
  refine ⟨⟨?_, ?_⟩, eq_or_quickBits w⟩
  · rw [h.toNat_and_mask]
    exact h.pos_ge
  · rw [UInt64.le_iff_toNat_le, h.toNat_and_mask]
    exact h.pos_le

/-- One past `BZ_TXI_SPENT_MAX` reads as a transaction without slots. -/
theorem classify_above_max :
    classify (SpentWord.allocated (bzTxiSpentMax + 1) fun _ => false).pack =
      .unallocated 0 := by
  have word : (SpentWord.allocated (bzTxiSpentMax + 1) fun _ => false).pack =
      (SpentWord.unallocated 0).pack := by decide
  rw [word, classify_unallocated]

/-- `BZ_TXI_SPENT_MAX` is the largest bound below which every position reads as itself. -/
theorem classify_allocated_iff (bound : UInt64) :
    (∀ pos bits, 1 ≤ pos.toNat → pos ≤ bound →
      classify (SpentWord.allocated pos bits).pack = .allocated pos bits) ↔
      bound ≤ bzTxiSpentMax := by
  constructor
  · intro reads
    by_contra above
    have above := UInt64.lt_iff_toNat_lt.mp (UInt64.not_le.mp above)
    have next : (bzTxiSpentMax + 1).toNat = bzTxiSpentMax.toNat + 1 := by decide
    have read := reads (bzTxiSpentMax + 1) (fun _ => false) (by omega)
      (UInt64.le_iff_toNat_le.mpr (by omega))
    rw [classify_above_max] at read
    cases read
  · intro le pos bits ge inside
    exact classify_allocated bits ge (UInt64.le_trans inside le)

end Bzing
