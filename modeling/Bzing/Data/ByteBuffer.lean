import Bzing.Data.LittleEndian
import Mathlib.Data.List.Basic
import Mathlib.Data.List.Infix

/-!
# Byte buffers

A buffer is a byte list; an access outside it has no result. The file has two halves: reading
a serialised text in place (`HoldsAt`, which splits along concatenation), and a heap block of
64-bit cells (`load64`/`store64`/`fill`) with its frame lemmas.
-/

namespace ByteBuffer

open LittleEndian

/-- The `len` bytes of `buf` from `a`; reading nothing is allowed anywhere. -/
def slice (buf : List UInt8) (a len : Nat) : Option (List UInt8) :=
  if len = 0 ∨ a + len ≤ buf.length then some ((buf.drop a).take len) else none

/-- `buf` holds the bytes `bs` from position `a` on. -/
def HoldsAt (buf : List UInt8) (a : Nat) (bs : List UInt8) : Prop := bs <+: buf.drop a

theorem slice_length {buf bs : List UInt8} {a len : Nat} (h : slice buf a len = some bs) :
    bs.length = len := by
  unfold slice at h
  split at h
  · rename_i inside
    cases h
    simp only [List.length_take, List.length_drop]
    omega
  · cases h

theorem slice_isSome {buf : List UInt8} {a len : Nat} :
    (slice buf a len).isSome ↔ len = 0 ∨ a + len ≤ buf.length := by
  unfold slice
  split <;> simp_all

theorem holdsAt_nil (buf : List UInt8) (a : Nat) : HoldsAt buf a [] := List.nil_prefix

theorem holdsAt_append {buf xs ys : List UInt8} {a : Nat} :
    HoldsAt buf a (xs ++ ys) ↔ HoldsAt buf a xs ∧ HoldsAt buf (a + xs.length) ys := by
  unfold HoldsAt
  constructor
  · rintro ⟨rest, h⟩
    refine ⟨⟨ys ++ rest, by rw [← h, List.append_assoc]⟩, rest, ?_⟩
    rw [← List.drop_drop, ← h, List.append_assoc, List.drop_left]
  · rintro ⟨⟨rest, h⟩, tail⟩
    rw [← List.drop_drop, ← h, List.drop_left] at tail
    rw [← h]
    exact (List.prefix_append_right_inj xs).mpr tail

theorem holdsAt_cons {buf bs : List UInt8} {b : UInt8} {a : Nat} :
    HoldsAt buf a (b :: bs) ↔ buf[a]? = some b ∧ HoldsAt buf (a + 1) bs := by
  rw [show b :: bs = [b] ++ bs from rfl, holdsAt_append]
  apply and_congr_left
  intro _
  unfold HoldsAt
  rw [← List.head?_drop]
  cases buf.drop a <;> simp [eq_comm]

theorem HoldsAt.length_le {buf bs : List UInt8} {a : Nat} (h : HoldsAt buf a bs)
    (nonempty : bs ≠ []) : a + bs.length ≤ buf.length := by
  have := List.IsPrefix.length_le h
  have := List.length_pos_iff.mpr nonempty
  simp only [List.length_drop] at *
  omega

theorem HoldsAt.slice_eq {buf bs : List UInt8} {a : Nat} (h : HoldsAt buf a bs) :
    slice buf a bs.length = some bs := by
  have inside : bs.length = 0 ∨ a + bs.length ≤ buf.length := by
    by_cases nonempty : bs = []
    · simp [nonempty]
    · exact Or.inr (h.length_le nonempty)
  unfold slice
  rw [if_pos inside, List.prefix_iff_eq_take.mp h |>.symm]

theorem holdsAt_of_append (front bs back : List UInt8) :
    HoldsAt (front ++ bs ++ back) front.length bs := by
  unfold HoldsAt
  rw [List.append_assoc, List.drop_left]
  exact List.prefix_append bs back

/-- The 64-bit cell at byte `a`. -/
def load64 (buf : List UInt8) (a : Nat) : Option UInt64 :=
  if a + 8 ≤ buf.length then some (UInt64.ofNat (value ((buf.drop a).take 8))) else none

/-- Write the 64-bit cell at byte `a`. -/
def store64 (buf : List UInt8) (a : Nat) (v : UInt64) : Option (List UInt8) :=
  if a + 8 ≤ buf.length then
    some (buf.take a ++ bytes 8 v.toNat ++ buf.drop (a + 8))
  else none

/-- Overwrite `len` bytes from `a` with the byte `c`. -/
def fill (buf : List UInt8) (a len : Nat) (c : UInt8) : Option (List UInt8) :=
  if a + len ≤ buf.length then
    some (buf.take a ++ List.replicate len c ++ buf.drop (a + len))
  else none

theorem load64_isSome {buf : List UInt8} {a : Nat} :
    (load64 buf a).isSome ↔ a + 8 ≤ buf.length := by
  unfold load64
  split <;> simp_all

theorem store64_isSome {buf : List UInt8} {a : Nat} {v : UInt64} :
    (store64 buf a v).isSome ↔ a + 8 ≤ buf.length := by
  unfold store64
  split <;> simp_all

theorem store64_eq_some {buf buf' : List UInt8} {a : Nat} {v : UInt64} :
    store64 buf a v = some buf' ↔
      a + 8 ≤ buf.length ∧ buf' = buf.take a ++ bytes 8 v.toNat ++ buf.drop (a + 8) := by
  unfold store64
  split <;> simp_all [eq_comm]

theorem store64_length {buf buf' : List UInt8} {a : Nat} {v : UInt64}
    (h : store64 buf a v = some buf') : buf'.length = buf.length := by
  obtain ⟨inside, rfl⟩ := store64_eq_some.mp h
  simp only [List.length_append, List.length_take, List.length_drop, length_bytes]
  omega

/-- A cell is zero when its bytes are. -/
theorem load64_eq_zero {buf : List UInt8} {a : Nat} {v : UInt64} (h : load64 buf a = some v) :
    v = 0 ↔ ∀ i < 8, buf[a + i]? = some 0 := by
  unfold load64 at h
  split at h
  · rename_i inside
    cases h
    have length : ((buf.drop a).take 8).length = 8 := by
      rw [List.length_take, List.length_drop]
      omega
    have cell : ∀ i < 8, ((buf.drop a).take 8)[i]? = buf[a + i]? := fun i small => by
      rw [List.getElem?_take_of_lt small, List.getElem?_drop]
    have bound := value_lt ((buf.drop a).take 8)
    rw [length] at bound
    have zero : UInt64.ofNat (value ((buf.drop a).take 8)) = 0 ↔
        value ((buf.drop a).take 8) = 0 := by
      rw [← UInt64.toNat_inj, UInt64.toNat_ofNat', Nat.mod_eq_of_lt (by norm_num at bound ⊢; omega)]
      rfl
    rw [zero, value_eq_zero]
    constructor
    · intro zeros i small
      have there : i < ((buf.drop a).take 8).length := by omega
      rw [← cell i small, List.getElem?_eq_getElem there, zeros _ (List.getElem_mem there)]
    · intro zeros b member
      obtain ⟨i, there⟩ := List.getElem?_of_mem member
      have small : i < 8 := by
        have := (List.getElem?_eq_some_iff.mp there).1
        omega
      rw [cell i small, zeros i small] at there
      exact (Option.some.inj there).symm
  · cases h

/-- The cell written reads back. -/
theorem load64_store64_same {buf buf' : List UInt8} {a : Nat} {v : UInt64}
    (h : store64 buf a v = some buf') : load64 buf' a = some v := by
  have len := store64_length h
  obtain ⟨inside, rfl⟩ := store64_eq_some.mp h
  have front : (buf.take a).length = a := by
    rw [List.length_take]
    omega
  unfold load64
  rw [if_pos (by omega)]
  have cell : ((buf.take a ++ bytes 8 v.toNat ++ buf.drop (a + 8)).drop a).take 8 =
      bytes 8 v.toNat := by
    rw [List.append_assoc, List.drop_left' front, List.take_left' (length_bytes 8 _)]
  rw [cell, value_bytes (by have := v.toNat_lt; norm_num; omega), UInt64.ofNat_toNat]

/-- Cells that do not overlap the one written keep their value. -/
theorem load64_store64_disjoint {buf buf' : List UInt8} {a b : Nat} {v : UInt64}
    (h : store64 buf a v = some buf') (apart : b + 8 ≤ a ∨ a + 8 ≤ b) :
    load64 buf' b = load64 buf b := by
  have len := store64_length h
  obtain ⟨inside, rfl⟩ := store64_eq_some.mp h
  have front : (buf.take a).length = a := by
    rw [List.length_take]
    omega
  unfold load64
  rw [len]
  split
  · rename_i room
    congr 3
    rcases apart with below | above
    · rw [List.append_assoc, List.drop_append_of_le_length (by omega),
        List.take_append_of_le_length (by rw [List.length_drop]; omega), List.drop_take,
        List.take_take]
      congr 1
      omega
    · have skip : (buf.take a ++ bytes 8 v.toNat).length = a + 8 := by
        rw [List.length_append, front, length_bytes]
      obtain ⟨k, rfl⟩ := Nat.le.dest above
      rw [← List.drop_drop, List.drop_left' skip, List.drop_drop]
  · rfl

/-- Appending to a block keeps its cells. -/
theorem load64_append_left {buf : List UInt8} {a : Nat} (tail : List UInt8)
    (inside : a + 8 ≤ buf.length) : load64 (buf ++ tail) a = load64 buf a := by
  unfold load64
  rw [if_pos inside, if_pos (by rw [List.length_append]; omega),
    List.drop_append_of_le_length (by omega),
    List.take_append_of_le_length (by rw [List.length_drop]; omega)]

theorem value_replicate_zero (n : Nat) : value (List.replicate n 0) = 0 := by
  induction n with
  | zero => rfl
  | succ n ih => simp [List.replicate_succ, ih]

/-- The cells of an appended block of zero bytes are zero. -/
theorem load64_append_zeros {buf : List UInt8} {a n : Nat} (above : buf.length ≤ a)
    (inside : a + 8 ≤ buf.length + n) :
    load64 (buf ++ List.replicate n 0) a = some 0 := by
  unfold load64
  rw [if_pos (by rw [List.length_append, List.length_replicate]; omega)]
  obtain ⟨k, rfl⟩ := Nat.le.dest above
  rw [List.drop_append, List.drop_eq_nil_of_le (by omega), List.nil_append, List.drop_replicate,
    List.take_replicate, value_replicate_zero]
  rfl

/-- Filling exactly the tail of a block. -/
theorem fill_tail (front back : List UInt8) (c : UInt8) :
    fill (front ++ back) front.length back.length c =
      some (front ++ List.replicate back.length c) := by
  unfold fill
  rw [if_pos (by simp), List.take_left, List.drop_eq_nil_of_le (by simp), List.append_nil]

end ByteBuffer
