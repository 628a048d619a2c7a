import Mathlib.Data.Nat.Notation
import Mathlib.Tactic.Ring

/-!
# Little-endian bytes of a natural number

The byte order every fixed-width field of a serialised record uses. `bytes w n` writes the
`w` low bytes of `n`, least significant first; `value` reads a byte list back. The two round
trips are `value_bytes` (exact below `256 ^ w`) and `bytes_value`.
-/

namespace LittleEndian

/-- The `w` low bytes of `n`, least significant first. -/
def bytes : Nat → Nat → List UInt8
  | 0, _ => []
  | w + 1, n => UInt8.ofNat (n % 256) :: bytes w (n / 256)

/-- The number a little-endian byte list stands for. -/
def value : List UInt8 → Nat
  | [] => 0
  | b :: bs => b.toNat + 256 * value bs

@[simp] theorem bytes_zero (n : Nat) : bytes 0 n = [] := rfl

theorem bytes_succ (w n : Nat) :
    bytes (w + 1) n = UInt8.ofNat (n % 256) :: bytes w (n / 256) := rfl

@[simp] theorem value_nil : value [] = 0 := rfl

@[simp] theorem value_cons (b : UInt8) (bs : List UInt8) :
    value (b :: bs) = b.toNat + 256 * value bs := rfl

@[simp] theorem length_bytes (w n : Nat) : (bytes w n).length = w := by
  induction w generalizing n with
  | zero => rfl
  | succ w ih => simp [bytes_succ, ih]

/-- Reading back the `w` low bytes of `n` gives `n` reduced to `w` bytes. -/
theorem value_bytes_mod (w n : Nat) : value (bytes w n) = n % 256 ^ w := by
  induction w generalizing n with
  | zero => simp [Nat.mod_one]
  | succ w ih =>
    have low : (UInt8.ofNat (n % 256)).toNat = n % 256 := by
      rw [UInt8.toNat_ofNat']
      omega
    rw [bytes_succ, value_cons, ih, low, pow_succ', Nat.mod_mul]

theorem value_bytes {w n : Nat} (h : n < 256 ^ w) : value (bytes w n) = n := by
  rw [value_bytes_mod, Nat.mod_eq_of_lt h]

theorem value_lt (bs : List UInt8) : value bs < 256 ^ bs.length := by
  induction bs with
  | nil => simp
  | cons b bs ih =>
    have hb : b.toNat < 256 := b.toNat_lt
    rw [value_cons, List.length_cons, pow_succ]
    omega

theorem bytes_value (bs : List UInt8) : bytes bs.length (value bs) = bs := by
  induction bs with
  | nil => rfl
  | cons b bs ih =>
    have hb : b.toNat < 256 := b.toNat_lt
    have head : (b.toNat + 256 * value bs) % 256 = b.toNat := by omega
    have tail : (b.toNat + 256 * value bs) / 256 = value bs := by omega
    rw [List.length_cons, value_cons, bytes_succ, head, tail, ih, UInt8.ofNat_toNat]

/-- Only zero bytes stand for zero. -/
theorem value_eq_zero {bs : List UInt8} : value bs = 0 ↔ ∀ b ∈ bs, b = 0 := by
  induction bs with
  | nil => simp
  | cons b bs ih =>
    have head : b.toNat = 0 ↔ b = 0 := by
      rw [← UInt8.toNat_inj]
      rfl
    rw [value_cons, List.forall_mem_cons, ← ih, ← head]
    omega

end LittleEndian
