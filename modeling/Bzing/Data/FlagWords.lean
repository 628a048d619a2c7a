import Mathlib.Data.Nat.Bitwise
import Mathlib.Tactic.IntervalCases

/-!
# Flags packed in words

Two flags for each bucket, sixteen pairs to a 32-bit word: the higher says that the bucket is
empty, the lower that it was deleted. `bits` reads both; `test`, `clear` and `raise` are the
masked accesses, and each is said in terms of `bits`. An access outside the words has no result.
-/

namespace FlagWords

/-- The flags of bucket `i`: empty and deleted. -/
def bits (words : List UInt32) (i : Nat) : Option (Bool × Bool) :=
  words[i / 16]?.map fun w =>
    (w.toNat.testBit (2 * (i % 16) + 1), w.toNat.testBit (2 * (i % 16)))

/-- `(flag[i>>4]>>((i&0xfU)<<1))&mask`. -/
def test (words : List UInt32) (i mask : UInt32) : Option Bool :=
  words[(i >>> 4).toNat]?.map fun w => (w >>> ((i &&& 0xf) <<< 1)) &&& mask != 0

/-- `flag[i>>4]&=~(mask<<((i&0xfU)<<1))`. -/
def clear (words : List UInt32) (i mask : UInt32) : Option (List UInt32) :=
  words[(i >>> 4).toNat]?.map fun w =>
    words.set (i >>> 4).toNat (w &&& ~~~(mask <<< ((i &&& 0xf) <<< 1)))

/-- `flag[i>>4]|=mask<<((i&0xfU)<<1)`. -/
def raise (words : List UInt32) (i mask : UInt32) : Option (List UInt32) :=
  words[(i >>> 4).toNat]?.map fun w =>
    words.set (i >>> 4).toNat (w ||| mask <<< ((i &&& 0xf) <<< 1))

/-- The words after `memset` with `0xaa`. -/
def allEmpty (count : Nat) : List UInt32 := List.replicate count 0xaaaaaaaa

section Word

variable (i w mask : UInt32)

theorem word_index : (i >>> 4).toNat = i.toNat / 16 := by
  rw [UInt32.toNat_shiftRight]
  exact Nat.shiftRight_eq_div_pow _ 4

theorem shift_amount : ((i &&& 0xf) <<< 1).toNat = 2 * (i.toNat % 16) := by
  have low : (i &&& 0xf).toNat = i.toNat % 16 := by
    rw [UInt32.toNat_and]
    exact Nat.and_two_pow_sub_one_eq_mod _ 4
  rw [UInt32.toNat_shiftLeft, low]
  change (i.toNat % 16) <<< 1 % 2 ^ 32 = _
  rw [Nat.shiftLeft_eq]
  omega

/-- The mask, moved to the flags of bucket `i`. -/
theorem testBit_mask (s : Nat) : (mask <<< ((i &&& 0xf) <<< 1)).toNat.testBit s =
    (decide (s < 32) && (decide (2 * (i.toNat % 16) ≤ s) &&
      mask.toNat.testBit (s - 2 * (i.toNat % 16)))) := by
  have amount : ((i &&& 0xf) <<< 1).toNat % 32 = 2 * (i.toNat % 16) := by
    rw [shift_amount]
    omega
  rw [UInt32.toNat_shiftLeft, amount, Nat.testBit_mod_two_pow, Nat.testBit_shiftLeft]

theorem testBit_high {mask : UInt32} (narrow : mask.toNat < 4) {s : Nat} (high : 2 ≤ s) :
    mask.toNat.testBit s = false := by
  apply Nat.testBit_lt_two_pow
  calc mask.toNat < 2 ^ 2 := narrow
    _ ≤ 2 ^ s := Nat.pow_le_pow_right (by omega) high

theorem testBit_not (s : Nat) : (~~~w).toNat.testBit s = (decide (s < 32) && !w.toNat.testBit s) := by
  have size : (~~~w).toNat = 2 ^ 32 - (w.toNat + 1) := by
    rw [UInt32.toNat_not]
    change 2 ^ 32 - 1 - w.toNat = _
    omega
  rw [size, Nat.testBit_two_pow_sub_succ w.toNat_lt]

/-- A mask of two bits meets the flags in one of them. -/
theorem and_mask_ne_zero (narrow : mask.toNat < 4) :
    ((w >>> ((i &&& 0xf) <<< 1)) &&& mask != 0) =
      (w.toNat.testBit (2 * (i.toNat % 16) + 1) && mask.toNat.testBit 1 ||
        w.toNat.testBit (2 * (i.toNat % 16)) && mask.toNat.testBit 0) := by
  have amount : ((i &&& 0xf) <<< 1).toNat % 32 = 2 * (i.toNat % 16) := by
    rw [shift_amount]
    omega
  have bit : ∀ s, ((w >>> ((i &&& 0xf) <<< 1)) &&& mask).toNat.testBit s =
      (w.toNat.testBit (2 * (i.toNat % 16) + s) && mask.toNat.testBit s) := by
    intro s
    rw [UInt32.toNat_and, Nat.testBit_and, UInt32.toNat_shiftRight, amount,
      Nat.testBit_shiftRight]
  have small : ((w >>> ((i &&& 0xf) <<< 1)) &&& mask).toNat < 4 := by
    rw [UInt32.toNat_and]
    exact Nat.lt_of_le_of_lt Nat.and_le_right narrow
  have zero : ((w >>> ((i &&& 0xf) <<< 1)) &&& mask != 0) =
      (((w >>> ((i &&& 0xf) <<< 1)) &&& mask).toNat != 0) := by
    simp [bne, ← UInt32.toNat_inj]
  have two : ∀ n < 4, (n != 0) = (n.testBit 1 || n.testBit 0) := by decide
  rw [zero, two _ small, bit, bit]
  rfl

end Word

section Access

variable {words : List UInt32} {i : UInt32} {empty deleted : Bool}

theorem bits_allEmpty {count i : Nat} (inside : i < 16 * count) :
    bits (allEmpty count) i = some (true, false) := by
  have word : (allEmpty count)[i / 16]? = some 0xaaaaaaaa := by
    rw [allEmpty, List.getElem?_replicate, if_pos (by omega)]
  have all : ∀ k < 16, (0xaaaaaaaa : Nat).testBit (2 * k + 1) = true ∧
      (0xaaaaaaaa : Nat).testBit (2 * k) = false := by decide
  obtain ⟨high, low⟩ := all (i % 16) (Nat.mod_lt i (by omega))
  rw [bits, word, Option.map_some]
  exact congrArg some (Prod.ext high low)

theorem exists_word (here : bits words i.toNat = some (empty, deleted)) :
    ∃ w, words[(i >>> 4).toNat]? = some w ∧
      w.toNat.testBit (2 * (i.toNat % 16) + 1) = empty ∧
      w.toNat.testBit (2 * (i.toNat % 16)) = deleted := by
  obtain ⟨w, word, pair⟩ := Option.map_eq_some_iff.mp here
  rw [word_index]
  exact ⟨w, word, congrArg Prod.fst pair, congrArg Prod.snd pair⟩

theorem test_of_bits {mask : UInt32} (narrow : mask.toNat < 4)
    (here : bits words i.toNat = some (empty, deleted)) :
    test words i mask =
      some (empty && mask.toNat.testBit 1 || deleted && mask.toNat.testBit 0) := by
  obtain ⟨w, word, rfl, rfl⟩ := exists_word here
  rw [test, word, Option.map_some, and_mask_ne_zero i w mask narrow]

/-- Writing the word of a bucket changes its flags and no others. -/
theorem bits_set {w v : UInt32} (word : words[(i >>> 4).toNat]? = some w)
    (others : ∀ s, s / 2 ≠ i.toNat % 16 → s < 32 → v.toNat.testBit s = w.toNat.testBit s) :
    bits (words.set (i >>> 4).toNat v) i.toNat =
        some (v.toNat.testBit (2 * (i.toNat % 16) + 1), v.toNat.testBit (2 * (i.toNat % 16))) ∧
      ∀ j, j ≠ i.toNat → bits (words.set (i >>> 4).toNat v) j = bits words j := by
  have inside := (List.getElem?_eq_some_iff.mp word).1
  rw [word_index] at word inside ⊢
  constructor
  · rw [bits, List.getElem?_set_self inside, Option.map_some]
  · intro j ne
    by_cases same : j / 16 = i.toNat / 16
    · have apart : j % 16 ≠ i.toNat % 16 := by omega
      rw [bits, bits, same, List.getElem?_set_self inside, word, Option.map_some, Option.map_some,
        others _ (by omega) (by omega), others _ (by omega) (by omega)]
    · rw [bits, bits, List.getElem?_set_ne (Ne.symm same)]

theorem clear_of_bits (mask : UInt32) (narrow : mask.toNat < 4)
    (here : bits words i.toNat = some (empty, deleted)) :
    ∃ words', clear words i mask = some words' ∧ words'.length = words.length ∧
      bits words' i.toNat =
        some (empty && !mask.toNat.testBit 1, deleted && !mask.toNat.testBit 0) ∧
      ∀ j, j ≠ i.toNat → bits words' j = bits words j := by
  obtain ⟨w, word, rfl, rfl⟩ := exists_word here
  have bit : ∀ s < 32, (w &&& ~~~(mask <<< ((i &&& 0xf) <<< 1))).toNat.testBit s =
      (w.toNat.testBit s && !(decide (2 * (i.toNat % 16) ≤ s) &&
        mask.toNat.testBit (s - 2 * (i.toNat % 16)))) := by
    intro s small
    rw [UInt32.toNat_and, Nat.testBit_and, testBit_not, testBit_mask, decide_eq_true small,
      Bool.true_and, Bool.true_and]
  obtain ⟨own, other⟩ := bits_set (v := w &&& ~~~(mask <<< ((i &&& 0xf) <<< 1))) word (by
    intro s apart small
    rw [bit s small]
    by_cases above : 2 * (i.toNat % 16) ≤ s
    · rw [testBit_high narrow (by omega : 2 ≤ s - 2 * (i.toNat % 16)), Bool.and_false, Bool.not_false, Bool.and_true]
    · rw [decide_eq_false above, Bool.false_and, Bool.not_false, Bool.and_true])
  refine ⟨_, by rw [clear, word, Option.map_some], by rw [List.length_set], ?_, other⟩
  rw [own, bit _ (by omega), bit _ (by omega)]
  simp

theorem raise_of_bits (mask : UInt32) (narrow : mask.toNat < 4)
    (here : bits words i.toNat = some (empty, deleted)) :
    ∃ words', raise words i mask = some words' ∧ words'.length = words.length ∧
      bits words' i.toNat =
        some (empty || mask.toNat.testBit 1, deleted || mask.toNat.testBit 0) ∧
      ∀ j, j ≠ i.toNat → bits words' j = bits words j := by
  obtain ⟨w, word, rfl, rfl⟩ := exists_word here
  have bit : ∀ s < 32, (w ||| mask <<< ((i &&& 0xf) <<< 1)).toNat.testBit s =
      (w.toNat.testBit s || decide (2 * (i.toNat % 16) ≤ s) &&
        mask.toNat.testBit (s - 2 * (i.toNat % 16))) := by
    intro s small
    rw [UInt32.toNat_or, Nat.testBit_or, testBit_mask, decide_eq_true small, Bool.true_and]
  obtain ⟨own, other⟩ := bits_set (v := w ||| mask <<< ((i &&& 0xf) <<< 1)) word (by
    intro s apart small
    rw [bit s small]
    by_cases above : 2 * (i.toNat % 16) ≤ s
    · rw [testBit_high narrow (by omega : 2 ≤ s - 2 * (i.toNat % 16)), Bool.and_false, Bool.or_false]
    · rw [decide_eq_false above, Bool.false_and, Bool.or_false])
  refine ⟨_, by rw [raise, word, Option.map_some], by rw [List.length_set], ?_, other⟩
  rw [own, bit _ (by omega), bit _ (by omega)]
  simp

end Access

end FlagWords
