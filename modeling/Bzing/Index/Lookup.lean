import Bzing.Data.Handler
import Bzing.Index.LastSet

/-!
# Lookups of hashes never set

A lookup should find nothing under a hash nobody set, and leave the table as it is. It does
with the engines whose library has a lookup of its own; `kh_put` and `alignhash_set` make the
slot they do not find (`bzing.c:388-404`, `480-489`), and what `HashFind` returns is not
tested (`bzing.c:405-409`). `readOnly_iff` is about every table the calls reach.
-/

namespace Bzing

open Tables

/-- The calls on an index. A cursor is moved and, when it finds an entry, written through, as
`bzing_spent_mark` does. -/
inductive InvCall where
  | modify (data : UInt64) (inv : BzInv)
  | set (hash : BzUint256) (data : UInt64)
  | get (hash : BzUint256)
  | cursorFind (hash : BzUint256)
  | cursorSet (hash : BzUint256) (data : UInt64)

namespace InvCall

variable {libs : Libraries}

/-- The call stores an entry under the hash. -/
def Sets (h : BzUint256) : InvCall → Prop
  | set hash _ => hash = h
  | cursorSet hash _ => hash = h
  | _ => False

/-- The memory and the table after a call. -/
def run (mem : Memory) (index : InvIndex libs) : InvCall → Except Fault (Memory × InvIndex libs)
  | modify data inv => .ok (mem.modify data inv, index)
  | set hash data => .ok (mem, index.bzingInvSet mem hash data)
  | get hash => do
    let (_, index) ← index.bzingInvGet mem hash
    .ok (mem, index)
  | cursorFind hash => .ok (mem, (index.bzingInvCursorFind hash).2)
  | cursorSet hash data =>
    let (cursor, index) := index.bzingInvCursorFind hash
    match index.bzingInvCursorGet cursor with
    | none => .ok (mem, index)
    | some _ => .ok (mem, index.bzingInvCursorSet mem cursor data)

/-- The memory and the table after some calls. -/
def runAll (mem : Memory) (index : InvIndex libs) :
    List InvCall → Except Fault (Memory × InvIndex libs)
  | [] => .ok (mem, index)
  | call :: calls => do
    let (mem, index) ← call.run mem index
    runAll mem index calls

end InvCall

/-- A lookup of the hash, by hand or by cursor, finds nothing and leaves the table alone. -/
structure ReadOnly {libs : Libraries} (mem : Memory) (index : InvIndex libs)
    (hash : BzUint256) : Prop where
  get : index.bzingInvGet mem hash = .ok (none, index)
  cursorFind : (index.bzingInvCursorFind hash).2 = index

/-- The engines that only look. -/
def LooksOnly (engine : EngineId) : Prop := engine ∈ [.lmc, .tc, .kc, .bdb, .ldb]

instance (engine : EngineId) : Decidable (LooksOnly engine) :=
  inferInstanceAs (Decidable (engine ∈ [.lmc, .tc, .kc, .bdb, .ldb]))

section Calls

variable {libs : Libraries}

/-- What an engine that only looks stores under the hash. -/
def InvIndex.stored (index : InvIndex libs) (hash : BzUint256) : Option BzInv :=
  match index with
  | .lmc lmcInv => copyGet libs.lmc lmcInv hash
  | .tc tcInv => copyGet libs.tc tcInv hash
  | .kc kcInv => copyGet libs.kc.toCopyTable kcInv hash
  | .bdb bdbInv => copyGet libs.bdb bdbInv hash
  | .ldb ldbInv => copyGet libs.ldb ldbInv hash
  | _ => none

theorem stored_alloc (engine : EngineId) (h : BzUint256) :
    (InvIndex.alloc libs engine).stored h = none := by
  cases engine with
  | lmc => exact copyGet_empty libs.lmc h
  | tc => exact copyGet_empty libs.tc h
  | kc => exact copyGet_empty libs.kc.toCopyTable h
  | bdb => exact copyGet_empty libs.bdb h
  | ldb => exact copyGet_empty libs.ldb h
  | _ => rfl

theorem copyGet_copySet_ne (table : CopyTable (List UInt8) (List UInt8)) (t : table.Table)
    {key h : BzUint256} (data : BzInv) (ne : h ≠ key) :
    copyGet table (copySet table t key data) h = copyGet table t h := by
  rw [copyGet_copySet, if_neg ne]

theorem stored_set (mem : Memory) (index : InvIndex libs) {hash h : BzUint256} (data : UInt64)
    (ne : h ≠ hash) : (index.bzingInvSet mem hash data).stored h = index.stored h := by
  cases index with
  | lmc lmcInv => exact copyGet_copySet_ne libs.lmc lmcInv _ ne
  | tc tcInv => exact copyGet_copySet_ne libs.tc tcInv _ ne
  | kc kcInv => exact copyGet_copySet_ne libs.kc.toCopyTable kcInv _ ne
  | bdb bdbInv => exact copyGet_copySet_ne libs.bdb bdbInv _ ne
  | ldb ldbInv => exact copyGet_copySet_ne libs.ldb ldbInv _ ne
  | _ => rfl

/-- A lookup that returns stores nothing, in the engines that only look. -/
theorem stored_get {mem : Memory} {index index' : InvIndex libs} {hash : BzUint256}
    {got : Option BzInv} (run : index.bzingInvGet mem hash = .ok (got, index')) :
    index'.stored = index.stored ∧ index'.engineId = index.engineId := by
  cases index with
  | sparse spInv =>
    change (orFault .nullDeref (libs.sp.get spInv hash.d8) >>= fun data =>
      Except.ok (some (mem data), _)) = _ at run
    cases found : libs.sp.get spInv hash.d8 with
    | none =>
      rw [found] at run
      cases run
    | some data =>
      rw [found] at run
      cases run
      exact ⟨rfl, rfl⟩
  | _ =>
    cases run
    exact ⟨rfl, rfl⟩

theorem stored_cursorFind (index : InvIndex libs) (hash : BzUint256) :
    (index.bzingInvCursorFind hash).2.stored = index.stored ∧
      (index.bzingInvCursorFind hash).2.engineId = index.engineId := by
  cases index <;> exact ⟨rfl, rfl⟩

/-- Writing through a cursor that found an entry. -/
theorem stored_cursorSet (mem : Memory) {index : InvIndex libs} {hash h : BzUint256}
    (data : UInt64) {inv : BzInv} (ne : h ≠ hash)
    (found : (index.bzingInvCursorFind hash).2.bzingInvCursorGet
      (index.bzingInvCursorFind hash).1 = some inv) :
    ((index.bzingInvCursorFind hash).2.bzingInvCursorSet mem
        (index.bzingInvCursorFind hash).1 data).stored h = index.stored h ∧
      ((index.bzingInvCursorFind hash).2.bzingInvCursorSet mem
        (index.bzingInvCursorFind hash).1 data).engineId = index.engineId := by
  cases index with
  | kc kcInv =>
    refine ⟨?_, rfl⟩
    change (libs.kc.cursorGet kcInv (libs.kc.jump kcInv hash.d8)).map castInv = some inv at found
    change (libs.kc.get (libs.kc.cursorSet kcInv (libs.kc.jump kcInv hash.d8) (mem data).d8)
      h.d8).map castInv = _
    rw [libs.kc.cursorGet_jump] at found
    have present : (libs.kc.get kcInv hash.d8).isSome := by
      rw [← Option.isSome_map (f := castInv), found]
      rfl
    have other : h.d8 ≠ hash.d8 := fun eq => ne (BzUint256.ext eq)
    rw [libs.kc.get_cursorSet_ne _ _ present other]
    rfl
  | _ => exact ⟨rfl, rfl⟩

/-- A call that does not set a hash stores nothing under it. -/
theorem stored_run {mem mem' : Memory} {index index' : InvIndex libs} {call : InvCall}
    {h : BzUint256} (other : ¬ call.Sets h)
    (run : call.run mem index = .ok (mem', index')) :
    index'.stored h = index.stored h ∧ index'.engineId = index.engineId := by
  cases call with
  | modify data inv =>
    cases run
    exact ⟨rfl, rfl⟩
  | set hash data =>
    cases run
    exact ⟨stored_set mem index data fun same => other same.symm, engineId_set mem index hash data⟩
  | get hash =>
    obtain ⟨⟨got, after⟩, get, returned⟩ := Handler.except_bind_ok.mp run
    cases returned
    obtain ⟨stored, engine⟩ := stored_get get
    exact ⟨congrFun stored h, engine⟩
  | cursorFind hash =>
    cases run
    obtain ⟨stored, engine⟩ := stored_cursorFind index hash
    exact ⟨congrFun stored h, engine⟩
  | cursorSet hash data =>
    unfold InvCall.run at run
    simp only at run
    split at run
    · cases run
      obtain ⟨stored, engine⟩ := stored_cursorFind index hash
      exact ⟨congrFun stored h, engine⟩
    · rename_i inv found
      cases run
      exact stored_cursorSet mem data (fun same => other same.symm) found

theorem stored_runAll {mem mem' : Memory} {index index' : InvIndex libs} {calls : List InvCall}
    {h : BzUint256} (others : ∀ call ∈ calls, ¬ call.Sets h)
    (run : InvCall.runAll mem index calls = .ok (mem', index')) :
    index'.stored h = index.stored h ∧ index'.engineId = index.engineId := by
  induction calls generalizing mem index with
  | nil =>
    cases run
    exact ⟨rfl, rfl⟩
  | cons call calls ih =>
    obtain ⟨⟨mem1, index1⟩, first, rest⟩ := Handler.except_bind_ok.mp run
    obtain ⟨stored, engine⟩ := stored_run (others call List.mem_cons_self) first
    obtain ⟨stored', engine'⟩ := ih (fun c member => others c (List.mem_cons_of_mem _ member)) rest
    exact ⟨stored'.trans stored, engine'.trans engine⟩

/-- With the other engines a lookup returns an entry or faults. -/
theorem looksOnly_of_get {mem : Memory} {index : InvIndex libs} {hash : BzUint256}
    (get : index.bzingInvGet mem hash = .ok (none, index)) : LooksOnly index.engineId := by
  cases index with
  | khash khInv => cases get
  | align ahInv => cases get
  | sparse spInv =>
    obtain ⟨data, -, returned⟩ := Handler.except_bind_ok.mp get
    cases returned
  | lmc lmcInv => simp [LooksOnly, InvIndex.engineId]
  | tc tcInv => simp [LooksOnly, InvIndex.engineId]
  | kc kcInv => simp [LooksOnly, InvIndex.engineId]
  | bdb bdbInv => simp [LooksOnly, InvIndex.engineId]
  | ldb ldbInv => simp [LooksOnly, InvIndex.engineId]

theorem readOnly_of_stored {mem : Memory} {index : InvIndex libs} {hash : BzUint256}
    (looks : LooksOnly index.engineId) (absent : index.stored hash = none) :
    ReadOnly mem index hash := by
  cases index with
  | khash khInv => simp [LooksOnly, InvIndex.engineId] at looks
  | align ahInv => simp [LooksOnly, InvIndex.engineId] at looks
  | sparse spInv => simp [LooksOnly, InvIndex.engineId] at looks
  | lmc lmcInv => exact ⟨rfl, rfl⟩
  | tc tcInv => exact ⟨congrArg (fun got => Except.ok (got, _)) absent, rfl⟩
  | kc kcInv => exact ⟨congrArg (fun got => Except.ok (got, _)) absent, rfl⟩
  | bdb bdbInv => exact ⟨congrArg (fun got => Except.ok (got, _)) absent, rfl⟩
  | ldb ldbInv => exact ⟨congrArg (fun got => Except.ok (got, _)) absent, rfl⟩

/-- In every table the calls reach, the lookup of a hash never set finds nothing and changes
nothing exactly with the engines that only look. -/
theorem readOnly_iff {engine : EngineId} {calls : List InvCall} {mem mem' : Memory}
    {index : InvIndex libs} {hash : BzUint256}
    (reached : InvCall.runAll mem (InvIndex.alloc libs engine) calls = .ok (mem', index))
    (never : ∀ call ∈ calls, ¬ call.Sets hash) :
    ReadOnly mem' index hash ↔ LooksOnly engine := by
  obtain ⟨stored, kind⟩ := stored_runAll never reached
  rw [engineId_alloc] at kind
  constructor
  · intro readOnly
    rw [← kind]
    exact looksOnly_of_get readOnly.get
  · intro looks
    rw [← kind] at looks
    exact readOnly_of_stored looks (stored.trans (stored_alloc engine hash))

end Calls

/-- After one insert with LDB, another hash is not found. -/
theorem readOnly_ldb :
    ReadOnly recordMemory
      ((InvIndex.alloc assocLibraries .ldb).bzingInvSet recordMemory (lastByteHash 1) 0)
      (lastByteHash 2) := by
  have reached : InvCall.runAll recordMemory (InvIndex.alloc assocLibraries .ldb)
      [.set (lastByteHash 1) 0] = .ok (recordMemory,
        (InvIndex.alloc assocLibraries .ldb).bzingInvSet recordMemory (lastByteHash 1) 0) := rfl
  refine (readOnly_iff reached ?_).mpr (by decide)
  intro call member
  cases List.mem_singleton.mp member
  change ¬ lastByteHash 1 = lastByteHash 2
  decide

/-- With KHASH a hash never set is found, and is in the table from then on. -/
theorem not_readOnly_khash :
    ¬ ReadOnly recordMemory (InvIndex.alloc assocLibraries .khash) (lastByteHash 1) ∧
    (assocLibraries.kh.find assocLibraries.kh.empty (lastByteHash 1) = none ∧
      assocLibraries.kh.find (assocLibraries.kh.insert assocLibraries.kh.empty
        (lastByteHash 1)).2 (lastByteHash 1) = some ⟨0, 0⟩) := by
  refine ⟨?_, rfl, rfl⟩
  intro readOnly
  have got := readOnly.get
  cases got

end Bzing
