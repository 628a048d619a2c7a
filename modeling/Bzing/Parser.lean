import Bzing.Types
import Mathlib.Tactic.SplitIfs

/-!
# Reading the block file

`parse_var_int` (`bzing_parser.c:25-44`). A pointer into the file is a 64-bit position
`data + offset`; a read that leaves the file is a `Fault`. `putVarInt` is the canonical
encoding, which `parseVarInt_holdsAt` reads back, whatever follows it.
-/

namespace Bzing

open ByteBuffer LittleEndian

/-- The `len` bytes at a position of the file. -/
def readBytes (file : List UInt8) (pos : UInt64) (len : Nat) : Except Fault (List UInt8) :=
  orFault .readOutside (slice file pos.toNat len)

/-- A `w`-byte integer at a position of the file. -/
def readInt (file : List UInt8) (pos : UInt64) (w : Nat) : Except Fault UInt64 :=
  (readBytes file pos w).map fun bs => UInt64.ofNat (value bs)

/-- The outpoint at a position of the file. -/
def readOutpoint (file : List UInt8) (pos : UInt64) : Except Fault Outpoint :=
  match read : slice file pos.toNat 36 with
  | none => .error .readOutside
  | some bs => .ok ⟨bs, slice_length read⟩

/-- `parse_var_int`: the value and the offset behind it. -/
def parseVarInt (file : List UInt8) (data offset : UInt64) : Except Fault (UInt64 × UInt64) := do
  let first ← orFault .readOutside file[(data + offset).toNat]?
  -- that the result exceeds `MAX_SIZE` is tested without effect
  if first < 0xFD then
    .ok (first.toUInt64, offset + 1)
  else if first = 0xFD then do
    let result ← readInt file (data + offset + 1) 2
    .ok (result, offset + 3)
  else if first = 0xFE then do
    let result ← readInt file (data + offset + 1) 4
    .ok (result, offset + 5)
  else do
    let result ← readInt file (data + offset + 1) 8
    .ok (result, offset + 9)

/-- The canonical encoding of a count or length. -/
def putVarInt (n : Nat) : List UInt8 :=
  if n < 0xFD then [UInt8.ofNat n]
  else if n < 2 ^ 16 then 0xFD :: bytes 2 n
  else if n < 2 ^ 32 then 0xFE :: bytes 4 n
  else 0xFF :: bytes 8 n

theorem readBytes_ok {file bs : List UInt8} {pos : UInt64} {len : Nat}
    (ok : readBytes file pos len = .ok bs) :
    bs.length = len ∧ (len = 0 ∨ pos.toNat + len ≤ file.length) := by
  unfold readBytes at ok
  cases read : slice file pos.toNat len with
  | none =>
    rw [read] at ok
    cases ok
  | some got =>
    rw [read] at ok
    cases ok
    exact ⟨slice_length read, slice_isSome.mp (Option.isSome_of_eq_some read)⟩

theorem readBytes_holdsAt {file bs : List UInt8} {pos : UInt64}
    (holds : HoldsAt file pos.toNat bs) : readBytes file pos bs.length = .ok bs := by
  unfold readBytes
  rw [holds.slice_eq]
  rfl

theorem readOutpoint_holdsAt {file : List UInt8} {pos : UInt64} {outpoint : Outpoint}
    (holds : HoldsAt file pos.toNat outpoint.d8) : readOutpoint file pos = .ok outpoint := by
  have read := holds.slice_eq
  rw [outpoint.size] at read
  unfold readOutpoint
  split
  · rename_i none
    rw [read] at none
    cases none
  · rename_i bs got
    rw [read] at got
    cases got
    rfl

theorem readOutpoint_ok {file : List UInt8} {pos : UInt64} {outpoint : Outpoint}
    (ok : readOutpoint file pos = .ok outpoint) : pos.toNat + 36 ≤ file.length := by
  unfold readOutpoint at ok
  split at ok
  · cases ok
  · rename_i bs got
    rcases slice_isSome.mp (Option.isSome_of_eq_some got) with none | inside
    · cases none
    · exact inside

theorem readInt_holdsAt {file : List UInt8} {pos : UInt64} {w n : Nat} (small : n < 256 ^ w)
    (holds : HoldsAt file pos.toNat (bytes w n)) :
    readInt file pos w = .ok (UInt64.ofNat n) := by
  have read := readBytes_holdsAt holds
  rw [length_bytes] at read
  unfold readInt
  rw [read]
  simp only [Except.map, value_bytes small]

/-- Adding to a position that does not wrap. -/
theorem toNat_add_ofNat {pos : UInt64} {k : Nat} (small : pos.toNat + k < 2 ^ 64) :
    (pos + UInt64.ofNat k).toNat = pos.toNat + k := by
  rw [UInt64.toNat_add, UInt64.toNat_ofNat', Nat.mod_eq_of_lt (by omega : k < 2 ^ 64)]
  exact Nat.mod_eq_of_lt small

/-- The canonical encoding reads back. -/
theorem parseVarInt_holdsAt {file : List UInt8} {data offset : UInt64} {n : Nat}
    (small : n < 2 ^ 64) (room : (data + offset).toNat + (putVarInt n).length < 2 ^ 64)
    (holds : HoldsAt file (data + offset).toNat (putVarInt n)) :
    parseVarInt file data offset =
      .ok (UInt64.ofNat n, offset + UInt64.ofNat (putVarInt n).length) := by
  have next : ∀ m, (data + offset).toNat + (m + 1) < 2 ^ 64 →
      (data + offset + 1).toNat = (data + offset).toNat + 1 := by
    intro m room
    exact toNat_add_ofNat (k := 1) (by omega)
  unfold putVarInt at holds room ⊢
  unfold parseVarInt
  split_ifs at holds room ⊢ with one two four
  · obtain ⟨first, -⟩ := holdsAt_cons.mp holds
    have low : (UInt8.ofNat n).toNat = n := by
      rw [UInt8.toNat_ofNat']
      omega
    have marker : UInt8.ofNat n < 0xFD := by
      rw [UInt8.lt_iff_toNat_lt, low]
      exact one
    have same : (UInt8.ofNat n).toUInt64 = UInt64.ofNat n := by
      rw [← UInt64.toNat_inj, UInt8.toNat_toUInt64, low, UInt64.toNat_ofNat',
        Nat.mod_eq_of_lt small]
    rw [first]
    simp only [orFault_some, bind, Except.bind, marker, if_true, same]
    rfl
  · obtain ⟨first, rest⟩ := holdsAt_cons.mp holds
    rw [← next 2 (by simpa using room)] at rest
    rw [first, readInt_holdsAt (by omega) rest]
    rfl
  · obtain ⟨first, rest⟩ := holdsAt_cons.mp holds
    rw [← next 4 (by simpa using room)] at rest
    rw [first, readInt_holdsAt (by omega) rest]
    rfl
  · obtain ⟨first, rest⟩ := holdsAt_cons.mp holds
    rw [← next 8 (by simpa using room)] at rest
    rw [first, readInt_holdsAt (by omega) rest]
    rfl

end Bzing
