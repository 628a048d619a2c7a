import Bzing.Data.FlagWords

/-!
# The in-memory tables

`klib/khash.h` and `ulib/alignhash_tpl.h` are two versions of one template: keys and values in
arrays, two flags for each bucket packed in words, and a table that is rehashed in place. What
they share is written once here, over `HashParams`; `Bzing.Hash.Khash` and
`Bzing.Hash.Alignhash` have the rest. A call has no result when it accesses something outside an
array, compares a key that was never written, or does not end.
-/

namespace Bzing

open FlagWords

/-- `kh_256_t` (`khash.h:162-168`) and `alignhash_inv_t`
    (`alignhash_tpl.h:91-99`). A cell that was never written is `none`. -/
structure HashTable (K V : Type) where
  nBuckets : UInt32
  size : UInt32
  nOccupied : UInt32
  upperBound : UInt32
  flags : List UInt32
  keys : List (Option K)
  vals : List (Option V)
  deriving DecidableEq

/-- What the templates are instantiated with, and where the code below differs. -/
structure HashParams (K : Type) where
  hashFunc : K → UInt32
  hashEqual : K → K → Bool
  /-- `__ac_inc(k, m)`, `AH_PROBE_STEP(h)`. -/
  inc : UInt32 → UInt32 → UInt32
  /-- `(khint_t)(n_buckets * __ac_HASH_UPPER + 0.5)`. -/
  upper : UInt32 → UInt32
  /-- The words of `flags`. -/
  fsize : UInt32 → Nat
  /-- The flags `get` looks at in the end. -/
  endMask : UInt32

section Macros

variable (flags : List UInt32) (i : UInt32)

/-- `__ac_isempty`, `AH_ISEMPTY`. -/
def isempty : Option Bool := test flags i 2

/-- `__ac_isdel`, `AH_ISDEL`. -/
def isdel : Option Bool := test flags i 1

/-- `__ac_iseither`, `AH_ISEITHER`. -/
def iseither : Option Bool := test flags i 3

/-- `__ac_set_isempty_false`, `AH_CLEAR_EMPTY`. -/
def setIsemptyFalse : Option (List UInt32) := clear flags i 2

/-- `__ac_set_isboth_false`, `AH_CLEAR_BOTH`. -/
def setIsbothFalse : Option (List UInt32) := clear flags i 3

/-- `__ac_set_isdel_true`, `AH_SET_DEL`. -/
def setIsdelTrue : Option (List UInt32) := raise flags i 1

end Macros

section Cells

variable {α : Type}

/-- `cells[i] = a`. -/
def setCell (cells : List (Option α)) (i : UInt32) (a : Option α) : Option (List (Option α)) :=
  if i.toNat < cells.length then some (cells.set i.toNat a) else none

/-- `realloc` to `n` cells. -/
def reallocCells (cells : List (Option α)) (n : UInt32) : List (Option α) :=
  cells.take n.toNat ++ List.replicate (n.toNat - cells.length) none

end Cells

namespace HashTable

variable {K V : Type} (p : HashParams K)

/-- `calloc(1, sizeof(kh_256_t))`. -/
def init : HashTable K V := ⟨0, 0, 0, 0, [], [], []⟩

/-- `kh_clear` (`khash.h:193-199`), `alignhash_clear` (`alignhash_tpl.h:116-123`). -/
def clear (t : HashTable K V) : HashTable K V :=
  if t.flags = [] then t
  else { t with flags := allEmpty (p.fsize t.nBuckets), size := 0, nOccupied := 0 }

/-! ## Searching -/

/-- The condition of the probe loops (`khash.h:207,283`, `alignhash_tpl.h:136,254`). -/
def passes (t : HashTable K V) (key : K) (i : UInt32) : Option Bool := do
  let empty ← isempty t.flags i
  if empty then some false
  else do
    let del ← isdel t.flags i
    if del then some true
    else do
      let other ← t.keys[i.toNat]?.join
      some (!p.hashEqual other key)

/-- The loop of `kh_get` (`khash.h:207-211`) and what it returns. -/
def getLoop (t : HashTable K V) (key : K) (mask inc last : UInt32) : Nat → UInt32 → Option UInt32
  | 0, _ => none
  | fuel + 1, i => do
    let on ← passes p t key i
    if on then
      let i := (i + inc) &&& mask
      if i = last then some t.nBuckets else getLoop t key mask inc last fuel i
    else do
      let gone ← test t.flags i p.endMask
      some (if gone then t.nBuckets else i)

/-- `kh_get` (`khash.h:200-213`), `alignhash_get` (`alignhash_tpl.h:125-145`). -/
def get (t : HashTable K V) (key : K) : Option UInt32 :=
  if t.nBuckets ≠ 0 then
    let mask := t.nBuckets - 1
    let k := p.hashFunc key
    let i := k &&& mask
    getLoop p t key mask (p.inc k mask) i t.nBuckets.toNat i
  else some 0

/-- The loop of `kh_put` (`khash.h:283-287`): `i`, `site` and `x` after it. -/
def putLoop (t : HashTable K V) (key : K) (mask inc last : UInt32) :
    Nat → UInt32 → UInt32 → Option (UInt32 × UInt32 × UInt32)
  | 0, _, _ => none
  | fuel + 1, i, site => do
    let on ← passes p t key i
    if on then do
      let del ← isdel t.flags i
      let site := if del then i else site
      let i := (i + inc) &&& mask
      if i = last then some (i, site, site) else putLoop t key mask inc last fuel i site
    else some (i, site, t.nBuckets)

/-- The bucket for a key (`khash.h:278-292`, `alignhash_tpl.h:244-269`). -/
def putSite (t : HashTable K V) (key : K) : Option UInt32 := do
  let mask := t.nBuckets - 1
  let k := p.hashFunc key
  let i := k &&& mask
  let empty ← isempty t.flags i
  if empty then some i
  else do
    let (i, site, x) ← putLoop p t key mask (p.inc k mask) i t.nBuckets.toNat i t.nBuckets
    if x = t.nBuckets then do
      let empty ← isempty t.flags i
      some (if empty && site ≠ t.nBuckets then site else i)
    else some x

/-- The key goes to its bucket (`khash.h:294-304`, `alignhash_tpl.h:271-283`). The number is
    `*ret`. -/
def putAt (t : HashTable K V) (key : K) (x : UInt32) : Option (Nat × HashTable K V) := do
  let empty ← isempty t.flags x
  if empty then do
    let keys ← setCell t.keys x (some key)
    let flags ← setIsbothFalse t.flags x
    some (1, { t with
      keys := keys
      flags := flags
      size := t.size + 1
      nOccupied := t.nOccupied + 1 })
  else do
    let del ← isdel t.flags x
    if del then do
      let keys ← setCell t.keys x (some key)
      let flags ← setIsbothFalse t.flags x
      some (2, { t with keys := keys, flags := flags, size := t.size + 1 })
    else some (0, t)

/-- `kh_put` and `alignhash_set` once the table has grown. -/
def putGrown (t : HashTable K V) (key : K) : Option (UInt32 × Nat × HashTable K V) := do
  let x ← putSite p t key
  let (ret, t) ← putAt t key x
  some (x, ret, t)

/-- `kh_del` (`khash.h:307-313`), `alignhash_del` (`alignhash_tpl.h:287-294`). -/
def del (t : HashTable K V) (x : UInt32) : Option (HashTable K V) :=
  if x = t.nBuckets then some t
  else do
    let either ← iseither t.flags x
    if either then some t
    else do
      let flags ← setIsdelTrue t.flags x
      some { t with flags := flags, size := t.size - 1 }

/-- `kh_val`, `alignhash_value`. A cell that was never written reads as `unwritten`. -/
def val (unwritten : V) (t : HashTable K V) (x : UInt32) : Option V :=
  t.vals[x.toNat]?.map fun v => v.getD unwritten

/-- `kh_val(h, x) = v`. -/
def setVal (t : HashTable K V) (x : UInt32) (v : V) : Option (HashTable K V) := do
  let vals ← setCell t.vals x (some v)
  some { t with vals := vals }

/-- The arrays while they are rehashed. -/
structure Arrays (K V : Type) where
  flags : List UInt32
  newFlags : List UInt32
  keys : List (Option K)
  vals : List (Option V)

/-- `while (!__ac_isempty(new_flags, i)) i = (i + inc) & new_mask`. -/
def freeBucket (newFlags : List UInt32) (newMask inc : UInt32) : Nat → UInt32 → Option UInt32
  | 0, _ => none
  | fuel + 1, i => do
    let empty ← isempty newFlags i
    if empty then some i else freeBucket newFlags newMask inc fuel ((i + inc) &&& newMask)

/-- `i < h->n_buckets && __ac_iseither(h->flags, i) == 0`. -/
def occupied (flags : List UInt32) (nBuckets i : UInt32) : Option Bool :=
  if i < nBuckets then (iseither flags i).map (!·) else some false

/-- The kick-out process (`khash.h:240-255`, `alignhash_tpl.h:187-206`) with a key and its value
    in hand. -/
def kickOut (nBuckets newNBuckets : UInt32) : Nat → Arrays K V → K → Option V → Option (Arrays K V)
  | 0, _, _, _ => none
  | fuel + 1, a, key, val => do
    let newMask := newNBuckets - 1
    let k := p.hashFunc key
    let i ← freeBucket a.newFlags newMask (p.inc k newMask) newNBuckets.toNat (k &&& newMask)
    let newFlags ← setIsemptyFalse a.newFlags i
    let kicks ← occupied a.flags nBuckets i
    if kicks then do
      -- kick out the existing element, and mark it as deleted in the old hash table
      let key' ← a.keys[i.toNat]?.join
      let val' ← a.vals[i.toNat]?
      let keys ← setCell a.keys i (some key)
      let vals ← setCell a.vals i val
      let flags ← setIsdelTrue a.flags i
      kickOut nBuckets newNBuckets fuel ⟨flags, newFlags, keys, vals⟩ key' val'
    else do
      let keys ← setCell a.keys i (some key)
      let vals ← setCell a.vals i val
      some ⟨a.flags, newFlags, keys, vals⟩

/-- One turn of the outer loop (`khash.h:232-257`, `alignhash_tpl.h:180-208`). -/
def rehashBucket (nBuckets newNBuckets : UInt32) (a : Arrays K V) (j : UInt32) :
    Option (Arrays K V) := do
  let either ← iseither a.flags j
  if either then some a
  else do
    let key ← a.keys[j.toNat]?.join
    let val ← a.vals[j.toNat]?
    let flags ← setIsdelTrue a.flags j
    kickOut p nBuckets newNBuckets (nBuckets.toNat + 1) { a with flags := flags } key val

/-- `kh_resize` once the number of buckets is settled (`khash.h:221-268`) and
    `alignhash_resize` (`alignhash_tpl.h:147-228`); `false` when the requested size is too
    small. -/
def resizeTo (t : HashTable K V) (newNBuckets : UInt32) : Option (Bool × HashTable K V) :=
  if t.size ≥ p.upper newNBuckets then some (false, t)
  else do
    let grows := t.nBuckets < newNBuckets
    let keys := if grows then reallocCells t.keys newNBuckets else t.keys
    let vals := if grows then reallocCells t.vals newNBuckets else t.vals
    let a ← (List.range t.nBuckets.toNat).foldlM
      (fun a j => rehashBucket p t.nBuckets newNBuckets a (UInt32.ofNat j))
      (⟨t.flags, allEmpty (p.fsize newNBuckets), keys, vals⟩ : Arrays K V)
    let shrinks := t.nBuckets > newNBuckets
    some (true, {
      nBuckets := newNBuckets
      size := t.size
      nOccupied := t.size
      upperBound := p.upper newNBuckets
      flags := a.newFlags
      keys := if shrinks then reallocCells a.keys newNBuckets else a.keys
      vals := if shrinks then reallocCells a.vals newNBuckets else a.vals })

end HashTable

end Bzing
