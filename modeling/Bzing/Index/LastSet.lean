import Bzing.Index.Engines
import Mathlib.Logic.Function.Basic

/-!
# The entry set last

What a lookup returns after any sequence of `bzing_inv_set` calls between which the caller uses
its buffers as it likes (`bzing.c:674-724` hands over one record for every insert).
`lastSet` is the buffer and the entry of the last call for a key, and `Holds` says what each
table holds in these terms: most hold the entries by hash, one by the first word of the hash,
one the buffers. `bzingInvGet_iff` follows.
-/

namespace Bzing

open Tables

/-- What a caller does between lookups. -/
inductive CallerStep where
  /-- It writes its memory. -/
  | modify (data : UInt64) (inv : BzInv)
  /-- It calls `bzing_inv_set`. -/
  | set (hash : BzUint256) (data : UInt64)
  deriving DecidableEq

/-- The memory after one more write. -/
def Memory.modify (mem : Memory) (data : UInt64) (inv : BzInv) : Memory :=
  Function.update mem data inv

/-- The memory and the table after the steps. -/
def runSteps {libs : Libraries} : List CallerStep → Memory → InvIndex libs →
    Memory × InvIndex libs
  | [], mem, index => (mem, index)
  | .modify data inv :: steps, mem, index => runSteps steps (mem.modify data inv) index
  | .set hash data :: steps, mem, index => runSteps steps mem (index.bzingInvSet mem hash data)

/-- The buffers and the entries in them at the last call for each key. -/
def lastSet {κ : Type} [DecidableEq κ] (key : BzUint256 → κ) : List CallerStep → Memory →
    (κ → Option (UInt64 × BzInv)) → κ → Option (UInt64 × BzInv)
  | [], _, last => last
  | .modify data inv :: steps, mem, last => lastSet key steps (mem.modify data inv) last
  | .set hash data :: steps, mem, last =>
    lastSet key steps mem (Function.update last (key hash) (some (data, mem data)))

/-- The table holds what was set last, by hash and by the first word of the hash. -/
def Holds {libs : Libraries} (byHash : BzUint256 → Option (UInt64 × BzInv))
    (byWord : UInt64 → Option (UInt64 × BzInv)) : InvIndex libs → Prop
  | .khash khInv => ∀ h, libs.kh.find khInv h = (byHash h).map Prod.snd
  | .align ahInv => ∀ w, libs.ah.find ahInv w = (byWord w).map Prod.snd
  | .sparse spInv => ∀ h : BzUint256, libs.sp.get spInv h.d8 = (byHash h).map Prod.fst
  | .lmc lmcInv => ∀ h, copyGet libs.lmc lmcInv h = (byHash h).map Prod.snd
  | .tc tcInv => ∀ h, copyGet libs.tc tcInv h = (byHash h).map Prod.snd
  | .kc kcInv => ∀ h, copyGet libs.kc.toCopyTable kcInv h = (byHash h).map Prod.snd
  | .bdb bdbInv => ∀ h, copyGet libs.bdb bdbInv h = (byHash h).map Prod.snd
  | .ldb ldbInv => ∀ h, copyGet libs.ldb ldbInv h = (byHash h).map Prod.snd

section Steps

variable {libs : Libraries}

theorem copyGet_empty (table : CopyTable (List UInt8) (List UInt8)) (h : BzUint256) :
    copyGet table table.empty h = none := by
  rw [copyGet, table.get_empty, Option.map_none]

/-- The table of a fresh handle holds nothing. -/
theorem holds_alloc (libs : Libraries) (engine : EngineId) :
    Holds (fun _ => none) (fun _ => none) (InvIndex.alloc libs engine) := by
  cases engine with
  | khash => exact libs.kh.find_empty
  | align => exact libs.ah.find_empty
  | sparse => exact fun h => libs.sp.get_empty h.d8
  | lmc => exact copyGet_empty libs.lmc
  | tc => exact copyGet_empty libs.tc
  | kc => exact copyGet_empty libs.kc.toCopyTable
  | bdb => exact copyGet_empty libs.bdb
  | ldb => exact copyGet_empty libs.ldb

theorem holds_copySet (table : CopyTable (List UInt8) (List UInt8)) {t : table.Table}
    {byHash : BzUint256 → Option (UInt64 × BzInv)} {hash : BzUint256} {data : UInt64}
    {inv : BzInv} (holds : ∀ h, copyGet table t h = (byHash h).map Prod.snd) (h : BzUint256) :
    copyGet table (copySet table t hash inv) h =
      (Function.update byHash hash (some (data, inv)) h).map Prod.snd := by
  rw [copyGet_copySet]
  by_cases same : h = hash
  · rw [if_pos same, same, Function.update_self]
    rfl
  · rw [if_neg same, Function.update_of_ne same, holds]

/-- Setting the value of the slot of a key. -/
theorem holds_setValue {K : Type} [DecidableEq K] (table : SlotTable K BzInv) {t : table.Table}
    {last : K → Option (UInt64 × BzInv)} {key : K} {data : UInt64} {inv : BzInv}
    (holds : ∀ k, table.find t k = (last k).map Prod.snd) (k : K) :
    table.find (table.setValue (table.insert t key).2 (table.insert t key).1 inv) k =
      (Function.update last key (some (data, inv)) k).map Prod.snd := by
  by_cases same : k = key
  · rw [same, table.find_setValue_same, Function.update_self]
    rfl
  · rw [table.find_setValue_ne t inv same, Function.update_of_ne same, holds]

/-- One call of `bzing_inv_set`. -/
theorem holds_set {index : InvIndex libs} {byHash : BzUint256 → Option (UInt64 × BzInv)}
    {byWord : UInt64 → Option (UInt64 × BzInv)} (mem : Memory) (hash : BzUint256)
    (data : UInt64) (holds : Holds byHash byWord index) :
    Holds (Function.update byHash hash (some (data, mem data)))
      (Function.update byWord (hash.d64 0) (some (data, mem data)))
      (index.bzingInvSet mem hash data) := by
  cases index with
  | khash khInv => exact holds_setValue libs.kh holds
  | align ahInv => exact holds_setValue libs.ah holds
  | sparse spInv =>
    intro h
    by_cases same : h = hash
    · rw [same, Function.update_self]
      exact libs.sp.get_put_same spInv hash.d8 data
    · have other : h.d8 ≠ hash.d8 := fun eq => same (BzUint256.ext eq)
      rw [Function.update_of_ne same, ← holds h]
      exact libs.sp.get_put_ne spInv data other
  | lmc lmcInv => exact holds_copySet libs.lmc holds
  | tc tcInv => exact holds_copySet libs.tc holds
  | kc kcInv => exact holds_copySet libs.kc.toCopyTable holds
  | bdb bdbInv => exact holds_copySet libs.bdb holds
  | ldb ldbInv => exact holds_copySet libs.ldb holds

theorem holds_runSteps {steps : List CallerStep} {mem : Memory} {index : InvIndex libs}
    {byHash : BzUint256 → Option (UInt64 × BzInv)} {byWord : UInt64 → Option (UInt64 × BzInv)}
    (holds : Holds byHash byWord index) :
    Holds (lastSet id steps mem byHash) (lastSet (·.d64 0) steps mem byWord)
      (runSteps steps mem index).2 := by
  induction steps generalizing mem index byHash byWord with
  | nil => exact holds
  | cons step steps ih =>
    cases step with
    | modify data inv => exact ih holds
    | set hash data => exact ih (holds_set mem hash data holds)

/-- The table stays one of the same engine. -/
def InvIndex.engineId : InvIndex libs → EngineId
  | khash _ => .khash
  | align _ => .align
  | sparse _ => .sparse
  | lmc _ => .lmc
  | tc _ => .tc
  | kc _ => .kc
  | bdb _ => .bdb
  | ldb _ => .ldb

@[simp] theorem engineId_alloc (libs : Libraries) (engine : EngineId) :
    (InvIndex.alloc libs engine).engineId = engine := by
  cases engine <;> rfl

@[simp] theorem engineId_set (mem : Memory) (index : InvIndex libs) (hash : BzUint256)
    (data : UInt64) : (index.bzingInvSet mem hash data).engineId = index.engineId := by
  cases index <;> rfl

theorem engineId_runSteps (steps : List CallerStep) (mem : Memory) (index : InvIndex libs) :
    (runSteps steps mem index).2.engineId = index.engineId := by
  induction steps generalizing mem index with
  | nil => rfl
  | cons step steps ih =>
    cases step with
    | modify data inv => exact ih _ _
    | set hash data => exact (ih _ _).trans (engineId_set mem index hash data)

end Steps

/-! ## The lookup -/

/-- The last call for each hash. -/
def lastByHash (steps : List CallerStep) (mem : Memory) (h : BzUint256) :
    Option (UInt64 × BzInv) :=
  lastSet id steps mem (fun _ => none) h

/-- The last call for each first word of a hash. -/
def lastByWord (steps : List CallerStep) (mem : Memory) (w : UInt64) :
    Option (UInt64 × BzInv) :=
  lastSet (·.d64 0) steps mem (fun _ => none) w

/-- When the lookup of a hash that was set returns its last entry: never with LMC; with ALIGN
when no other hash with the same first word got another entry since; with SPARSE when the
buffer still holds it; always with the others. -/
def KeepsLast (steps : List CallerStep) (mem memAfter : Memory) (h : BzUint256) :
    EngineId → Prop
  | .lmc => False
  | .align => (lastByWord steps mem (h.d64 0)).map Prod.snd =
      (lastByHash steps mem h).map Prod.snd
  | .sparse => (lastByHash steps mem h).map (fun last => memAfter last.1) =
      (lastByHash steps mem h).map Prod.snd
  | _ => True

/-- The memory after the steps, which no engine writes. -/
def memAfter : List CallerStep → Memory → Memory
  | [], mem => mem
  | .modify data inv :: steps, mem => memAfter steps (mem.modify data inv)
  | .set _ _ :: steps, mem => memAfter steps mem

theorem runSteps_fst {libs : Libraries} (steps : List CallerStep) (mem : Memory)
    (index : InvIndex libs) : (runSteps steps mem index).1 = memAfter steps mem := by
  induction steps generalizing mem index with
  | nil => rfl
  | cons step steps ih =>
    cases step with
    | modify data inv => exact ih _ _
    | set hash data => exact ih _ _

/-- Setting a hash sets its first word. -/
theorem lastSet_isSome {κ : Type} [DecidableEq κ] {key : BzUint256 → κ}
    {steps : List CallerStep} {mem : Memory} {byHash : BzUint256 → Option (UInt64 × BzInv)}
    {byKey : κ → Option (UInt64 × BzInv)}
    (start : ∀ h, (byHash h).isSome → (byKey (key h)).isSome) {h : BzUint256}
    (wasSet : (lastSet id steps mem byHash h).isSome) :
    (lastSet key steps mem byKey (key h)).isSome := by
  induction steps generalizing mem byHash byKey with
  | nil => exact start h wasSet
  | cons step steps ih =>
    cases step with
    | modify data inv => exact ih start wasSet
    | set hash data =>
      refine ih ?_ wasSet
      intro g stored
      by_cases word : key g = key hash
      · rw [word, Function.update_self]
        rfl
      · have other : g ≠ hash := fun same => word (congrArg key same)
        rw [id, Function.update_of_ne other] at stored
        rw [Function.update_of_ne word]
        exact start g stored

theorem lastByWord_isSome {steps : List CallerStep} {mem : Memory} {h : BzUint256}
    (wasSet : (lastByHash steps mem h).isSome) : (lastByWord steps mem (h.d64 0)).isSome := by
  have start : ∀ g : BzUint256, (none : Option (UInt64 × BzInv)).isSome →
      (none : Option (UInt64 × BzInv)).isSome := fun _ => id
  exact lastSet_isSome start wasSet

/-- After any calls of `bzing_inv_set`, the lookup of a hash that was set returns the entry of
the last call for it exactly under the condition of its engine. -/
theorem bzingInvGet_iff {libs : Libraries} {engine : EngineId} {steps : List CallerStep}
    {mem : Memory} {h : BzUint256} {data : UInt64} {inv : BzInv}
    (wasSet : lastByHash steps mem h = some (data, inv)) :
    (∃ after, (runSteps steps mem (InvIndex.alloc libs engine)).2.bzingInvGet
        (runSteps steps mem (InvIndex.alloc libs engine)).1 h = .ok (some inv, after)) ↔
      KeepsLast steps mem (memAfter steps mem) h engine := by
  have holds : Holds (lastByHash steps mem) (lastByWord steps mem)
      (runSteps steps mem (InvIndex.alloc libs engine)).2 :=
    holds_runSteps (holds_alloc libs engine)
  have kind := engineId_runSteps steps mem (InvIndex.alloc libs engine)
  have byWord : (lastByWord steps mem (h.d64 0)).isSome :=
    lastByWord_isSome (by rw [wasSet]; rfl)
  rw [engineId_alloc] at kind
  rw [runSteps_fst]
  generalize (runSteps steps mem (InvIndex.alloc libs engine)).2 = index at holds kind
  subst kind
  have copied : ∀ {after : InvIndex libs} {got : Option BzInv},
      got = (lastByHash steps mem h).map Prod.snd →
      ((∃ after', (.ok (got, after) : Except Fault _) = .ok (some inv, after')) ↔ True) := by
    intro after got same
    rw [wasSet] at same
    exact iff_true_intro ⟨after, by rw [same, Option.map_some]⟩
  cases index with
  | khash khInv =>
    have found := holds h
    rw [wasSet, Option.map_some] at found
    exact copied (by rw [libs.kh.value_of_find found, wasSet, Option.map_some])
  | align ahInv =>
    obtain ⟨⟨data', inv'⟩, last⟩ := Option.isSome_iff_exists.mp byWord
    have found := holds (h.d64 0)
    rw [last, Option.map_some] at found
    change (∃ after, Except.ok (some (libs.ah.value _ _), _) = _) ↔
      (lastByWord steps mem (h.d64 0)).map Prod.snd = (lastByHash steps mem h).map Prod.snd
    rw [libs.ah.value_of_find found, last, wasSet]
    simp
  | sparse spInv =>
    have found := holds h
    rw [wasSet, Option.map_some] at found
    change (∃ after, (orFault .nullDeref (libs.sp.get spInv h.d8) >>= fun data =>
      Except.ok (some (memAfter steps mem data), _)) = _) ↔
      (lastByHash steps mem h).map (fun last => memAfter steps mem last.1) =
        (lastByHash steps mem h).map Prod.snd
    rw [found, wasSet]
    simp [bind, Except.bind]
  | lmc lmcInv => simp [InvIndex.bzingInvGet, InvIndex.engineId, KeepsLast]
  | tc tcInv => exact copied (holds h)
  | kc kcInv => exact copied (holds h)
  | bdb bdbInv => exact copied (holds h)
  | ldb ldbInv => exact copied (holds h)

/-- The libraries, as association lists; a fresh slot holds zeros. -/
def assocLibraries : Libraries where
  kh := assocSlotTable BzUint256 ⟨0, 0⟩
  ah := assocSlotTable UInt64 ⟨0, 0⟩
  sp := assocTable (List UInt8) UInt64
  lmc := assocTable (List UInt8) (List UInt8)
  tc := assocTable (List UInt8) (List UInt8)
  kc := assocCursorTable (List UInt8) (List UInt8)
  bdb := assocTable (List UInt8) (List UInt8)
  ldb := assocTable (List UInt8) (List UInt8)

/-- A hash that ends in the given byte, after zeros. -/
def lastByteHash (b : UInt8) : BzUint256 := ⟨List.replicate 31 0 ++ [b], rfl⟩

/-- Two inserts with one record, as `bzing_block_add` makes them. -/
def recordReused : List CallerStep :=
  [.set (lastByteHash 1) 0, .modify 0 ⟨2, 20⟩, .set (lastByteHash 2) 0]

/-- The record at first. -/
def recordMemory : Memory := fun _ => ⟨1, 10⟩

/-- KHASH returns the entry of the first insert. -/
theorem bzingInvGet_recordReused :
    ∃ after, (runSteps recordReused recordMemory
        (InvIndex.alloc assocLibraries .khash)).2.bzingInvGet
      (runSteps recordReused recordMemory (InvIndex.alloc assocLibraries .khash)).1
      (lastByteHash 1) = .ok (some ⟨1, 10⟩, after) := by
  have wasSet : lastByHash recordReused recordMemory (lastByteHash 1) = some (0, ⟨1, 10⟩) := by
    decide
  exact (bzingInvGet_iff wasSet).mpr trivial

/-- ALIGN and SPARSE return that of the second, LMC none. -/
theorem not_bzingInvGet_recordReused :
    lastByHash recordReused recordMemory (lastByteHash 1) = some (0, ⟨1, 10⟩) ∧
    ∀ engine ∈ [EngineId.align, .sparse, .lmc], ¬ ∃ after,
      (runSteps recordReused recordMemory (InvIndex.alloc assocLibraries engine)).2.bzingInvGet
        (runSteps recordReused recordMemory (InvIndex.alloc assocLibraries engine)).1
        (lastByteHash 1) = .ok (some ⟨1, 10⟩, after) := by
  have got : ∀ engine ∈ [EngineId.align, .sparse, .lmc],
      ((runSteps recordReused recordMemory (InvIndex.alloc assocLibraries engine)).2.bzingInvGet
        (runSteps recordReused recordMemory (InvIndex.alloc assocLibraries engine)).1
        (lastByteHash 1)).toOption.map Prod.fst ≠ some (some ⟨1, 10⟩) := by
    decide
  refine ⟨by decide, fun engine member ⟨after, eq⟩ => got engine member ?_⟩
  rw [eq]
  rfl

end Bzing
