import Bzing.Types

/-!
# The inventory index

Every engine serves the index through the same calls (`bzing.c:294-554`): set and get by
hash, and, where `bz_cursor_support` says so, cursors. `InvEngine` collects them for an index
of type `ι`, with values passed as values. `LawfulInvEngine` states what the spent map relies
on: the index stands for a finite map from hashes to entries, a lookup only reads it, and a
cursor just placed on a stored hash reads and writes that hash's entry. `IdealIndex` is that
map itself.
-/

namespace Bzing

/-- The adapters of one engine. -/
class InvEngine (ι : Type) where
  /-- The table of a fresh handle (`bzing_alloc`). -/
  empty : ι
  /-- `bz_cursor_support[engine_id]`. -/
  cursorSupport : Bool
  bzingInvSet : ι → BzUint256 → BzInv → ι
  /-- `NULL` is `none`; the table is threaded because an adapter may change it. -/
  bzingInvGet : ι → BzUint256 → Option BzInv × ι
  Cursor : Type
  /-- `bzing_inv_cursor_new` followed by `bzing_inv_cursor_find`. -/
  bzingInvCursorFind : ι → BzUint256 → Cursor × ι
  bzingInvCursorGet : ι → Cursor → Option BzInv
  bzingInvCursorSet : ι → Cursor → BzInv → ι

/-- The contract of an engine, over the finite map `lookup` its index stands for. -/
class LawfulInvEngine (ι : Type) [InvEngine ι] where
  lookup : ι → BzUint256 → Option BzInv
  lookup_empty (hash : BzUint256) : lookup InvEngine.empty hash = none
  lookup_set (inv : ι) (key hash : BzUint256) (data : BzInv) :
    lookup (InvEngine.bzingInvSet inv key data) hash =
      if hash = key then some data else lookup inv hash
  get_eq (inv : ι) (key : BzUint256) : (InvEngine.bzingInvGet inv key).1 = lookup inv key
  lookup_get (inv : ι) (key hash : BzUint256) :
    lookup (InvEngine.bzingInvGet inv key).2 hash = lookup inv hash
  cursorGet_eq (inv : ι) (key : BzUint256) :
    InvEngine.cursorSupport ι = true →
    InvEngine.bzingInvCursorGet (InvEngine.bzingInvCursorFind inv key).2
      (InvEngine.bzingInvCursorFind inv key).1 = lookup inv key
  lookup_cursorFind (inv : ι) (key hash : BzUint256) :
    InvEngine.cursorSupport ι = true →
    lookup (InvEngine.bzingInvCursorFind inv key).2 hash = lookup inv hash
  lookup_cursorSet (inv : ι) (key hash : BzUint256) (data : BzInv) :
    InvEngine.cursorSupport ι = true → (lookup inv key).isSome →
    lookup (InvEngine.bzingInvCursorSet (InvEngine.bzingInvCursorFind inv key).2
      (InvEngine.bzingInvCursorFind inv key).1 data) hash =
        if hash = key then some data else lookup inv hash

/-- A finite map from hashes to entries; a cursor is the hash it was placed on. -/
structure IdealIndex where
  find : BzUint256 → Option BzInv

namespace IdealIndex

/-- Replace the entry of one hash. -/
def insert (inv : IdealIndex) (key : BzUint256) (data : BzInv) : IdealIndex :=
  ⟨fun hash => if hash = key then some data else inv.find hash⟩

instance : InvEngine IdealIndex where
  empty := ⟨fun _ => none⟩
  cursorSupport := true
  bzingInvSet := insert
  bzingInvGet inv key := (inv.find key, inv)
  Cursor := BzUint256
  bzingInvCursorFind inv key := (key, inv)
  bzingInvCursorGet := find
  bzingInvCursorSet := insert

instance : LawfulInvEngine IdealIndex where
  lookup := find
  lookup_empty _ := rfl
  lookup_set _ _ _ _ := rfl
  get_eq _ _ := rfl
  lookup_get _ _ _ := rfl
  cursorGet_eq _ _ _ := rfl
  lookup_cursorFind _ _ _ _ := rfl
  lookup_cursorSet _ _ _ _ _ _ := rfl

end IdealIndex

end Bzing
