import Bzing.Data.ByteBuffer

/-!
# Data types

`src/api/bzing_types.h`: the 256-bit hash, the index entry and the constants of the packed
`spent` word; the 36-byte outpoint `bzing_spent_mark` is handed; and the ways a call of the
library can leave defined behaviour. Multi-byte fields are little-endian, as on the machines
the source's casts of byte pointers assume.
-/

namespace Bzing

open LittleEndian

/-- `bz_uint256_t` (`api/bzing_types.h:38-43`): 32 bytes. -/
@[ext] structure BzUint256 where
  d8 : List UInt8
  size : d8.length = 32
  deriving DecidableEq

namespace BzUint256

/-- The `d64` view of the union: four little-endian 64-bit words. -/
def d64 (hash : BzUint256) (k : Nat) : UInt64 :=
  UInt64.ofNat (value ((hash.d8.drop (8 * k)).take 8))

/-- `memset(result->d8, 0, 32)`. -/
def zero : BzUint256 := ⟨List.replicate 32 0, rfl⟩

end BzUint256

/-- `bz_inv_t` (`api/bzing_types.h:48-52`): an inventory index entry of a transaction or a
    block. -/
structure BzInv where
  offset : UInt64
  spent : UInt64
  deriving DecidableEq

/-- The 36 bytes `bzing_spent_mark` reads: a transaction hash and an output index. -/
@[ext] structure Outpoint where
  d8 : List UInt8
  size : d8.length = 36
  deriving DecidableEq

namespace Outpoint

/-- `(bz_uint256_t *) outpoint`. -/
def hash (outpoint : Outpoint) : BzUint256 :=
  ⟨outpoint.d8.take 32, by rw [List.length_take, outpoint.size]; rfl⟩

/-- `*((uint32_t *) (outpoint+32))`. -/
def index (outpoint : Outpoint) : UInt32 :=
  UInt32.ofNat (value (outpoint.d8.drop 32))

/-- The outpoint of a hash and an index. -/
def of (hash : BzUint256) (index : UInt32) : Outpoint :=
  ⟨hash.d8 ++ bytes 4 index.toNat, by rw [List.length_append, hash.size, length_bytes]⟩

@[simp] theorem hash_of (hash : BzUint256) (index : UInt32) : (of hash index).hash = hash := by
  apply BzUint256.ext
  exact List.take_left' hash.size

@[simp] theorem index_of (hash : BzUint256) (index : UInt32) : (of hash index).index = index := by
  have tail : (of hash index).d8.drop 32 = bytes 4 index.toNat := List.drop_left' hash.size
  have bound := index.toNat_lt
  unfold Outpoint.index
  rw [tail, value_bytes (by norm_num; omega), UInt32.ofNat_toNat]

end Outpoint

/-- `UINT64_MAX`, the `spent` word of a block entry. -/
def uint64Max : UInt64 := 0xffffffffffffffff

/-- `BZ_TXI_SPENT_BITS`: the high byte is a bit set. -/
def bzTxiSpentBits : UInt32 := 8

/-- `BZ_TXI_SPENT_MASK`: the low seven bytes are the offset. -/
def bzTxiSpentMask : UInt64 := 0x00ffffffffffffff

/-- `BZ_TXI_SPENT_MAX`: maximum unambiguous offset. -/
def bzTxiSpentMax : UInt64 := 0x00fffffeffffffff

/-- `BZ_TXI_SPENT_UMARK`: marker for uninitialized spend values. -/
def bzTxiSpentUmark : UInt64 := 0x00ffffff00000000

/-- `BZ_TXI_SPENT_UMASK`: mask for `n_txout` in uninitialized spend values. -/
def bzTxiSpentUmask : UInt64 := 0x00000000ffffffff

/-- `bz_txi_spent_map` (`bzing.c:34-43`): the bit of each of the first eight outputs. -/
def bzTxiSpentMap : List UInt64 :=
  [0x8000000000000000, 0x4000000000000000, 0x2000000000000000, 0x1000000000000000,
    0x0800000000000000, 0x0400000000000000, 0x0200000000000000, 0x0100000000000000]

/-- What ends a call outside defined behaviour. Nothing is said about a C program from there
    on, so a run that meets one of these has no result. -/
inductive Fault where
  /-- `prev_inv` is `NULL` where `bzing_spent_mark` dereferences it. -/
  | nullDeref
  /-- A read of the block file outside `[0, len)`. -/
  | readOutside
  /-- A write outside the block `spent_data` points to. -/
  | slotOutside
  /-- An access outside the block `tx_hashes` points to. -/
  | hashOutside
  /-- An access outside the Merkle tree array, or a read of a cell never written. -/
  | treeOutside
  /-- An `int` leaves `[INT_MIN, INT_MAX]`. -/
  | intOverflow
  deriving DecidableEq

/-- A failed access ends the call with the fault. -/
def orFault {α : Type} (fault : Fault) : Option α → Except Fault α
  | none => .error fault
  | some a => .ok a

@[simp] theorem orFault_some {α : Type} (fault : Fault) (a : α) :
    orFault fault (some a) = .ok a := rfl

@[simp] theorem orFault_none {α : Type} (fault : Fault) :
    orFault fault (none : Option α) = .error fault := rfl

end Bzing
