import Bzing.Block.Decode
import Bzing.Block.Scripts
import Bzing.Data.CursorMoves

/-!
# The cursor over a block

Every update of `offset` in `bzing_block_add` (`bzing.c:685-717`), in order, with the width of
the field it is meant to skip. A script length may be any 64-bit number, so a script may move
the cursor back. `blockMoves_forward_iff`: of a block that is read inside the file, no field
overlaps another exactly when every script lies in the file, as those of a text with short
scripts do.
-/

namespace Bzing

open CursorMoves Handler

/-- What is skipped: a field of fixed width, a var-int, or a script of the length read, with
the sequence number behind that of an input. -/
inductive FieldKind where
  | fixed
  | varInt
  | script (scriptLen : UInt64)
  deriving DecidableEq

def FieldKind.scriptLen : FieldKind → Option UInt64
  | .script scriptLen => some scriptLen
  | _ => none

section Moves

variable (file : List UInt8) (data : UInt64)

def fixedMove (offset : UInt64) (width : Nat) : Move FieldKind := ⟨.fixed, offset, width⟩

def varIntMove (offset behind : UInt64) : Move FieldKind :=
  ⟨.varInt, offset, (behind - offset).toNat⟩

def scriptMove (offset scriptLen : UInt64) (tail : Nat) : Move FieldKind :=
  ⟨.script scriptLen, offset, scriptLen.toNat + tail⟩

/-- The moves over the inputs of a transaction (`bzing.c:690-698`). -/
def inputMoves : Nat → UInt64 → Except Fault (UInt64 × List (Move FieldKind))
  | 0, offset => .ok (offset, [])
  | nTxin + 1, offset => do
    let (scriptLen, behind) ← parseVarInt file data (offset + 36)
    let (stop, moves) ← inputMoves nTxin (behind + (scriptLen + 4))
    .ok (stop, fixedMove offset 36 :: varIntMove (offset + 36) behind ::
      scriptMove behind scriptLen 4 :: moves)

/-- Over its outputs (`bzing.c:706-711`). -/
def outputMoves : Nat → UInt64 → Except Fault (UInt64 × List (Move FieldKind))
  | 0, offset => .ok (offset, [])
  | nTxout + 1, offset => do
    let (scriptLen, behind) ← parseVarInt file data (offset + 8)
    let (stop, moves) ← outputMoves nTxout (behind + scriptLen)
    .ok (stop, fixedMove offset 8 :: varIntMove (offset + 8) behind ::
      scriptMove behind scriptLen 0 :: moves)

/-- Over a transaction (`bzing.c:683-714`). -/
def txMoves (txStart : UInt64) : Except Fault (UInt64 × List (Move FieldKind)) := do
  let (nTxin, inputs) ← parseVarInt file data (txStart + 4)
  let (inputsEnd, inMoves) ← inputMoves file data nTxin.toNat inputs
  let (nTxout, outputs) ← parseVarInt file data inputsEnd
  let (outputsEnd, outMoves) ← outputMoves file data nTxout.toNat outputs
  .ok (outputsEnd + 4, fixedMove txStart 4 :: varIntMove (txStart + 4) inputs ::
    (inMoves ++ varIntMove inputsEnd outputs :: (outMoves ++ [fixedMove outputsEnd 4])))

def txsMoves : Nat → UInt64 → Except Fault (UInt64 × List (Move FieldKind))
  | 0, offset => .ok (offset, [])
  | nTx + 1, offset => do
    let (next, first) ← txMoves file data offset
    let (stop, moves) ← txsMoves nTx next
    .ok (stop, first ++ moves)

/-- Over a block: the header, the count, the transactions. -/
def blockMoves : Except Fault (UInt64 × List (Move FieldKind)) := do
  let (nTx, txs) ← parseVarInt file data 80
  let (stop, moves) ← txsMoves file data nTx.toNat txs
  .ok (stop, fixedMove 0 80 :: varIntMove 80 txs :: moves)

end Moves

/-- No move wraps, and every field lies behind all fields before it. -/
def Forward (moves : List (Move FieldKind)) : Prop :=
  (∀ m ∈ moves, m.NoWrap) ∧ moves.Pairwise fun a b => a.stop ≤ b.start.toNat

/-- Every script skipped lies in the file. -/
def ScriptsInside (file : List UInt8) (data : UInt64) (moves : List (Move FieldKind)) : Prop :=
  ∀ m ∈ moves, ∀ scriptLen, m.kind = .script scriptLen → data.toNat + m.stop ≤ file.length

/-- No script length above `MAX_SIZE` moves the cursor. -/
def ScriptsShort (moves : List (Move FieldKind)) : Prop :=
  ∀ m ∈ moves, ∀ scriptLen, m.kind = .script scriptLen → scriptLen ≤ maxSize

/-- The script lengths among the moves, in order. -/
def scriptLens (moves : List (Move FieldKind)) : List UInt64 :=
  moves.filterMap fun m => m.kind.scriptLen

@[simp] theorem scriptLens_nil : scriptLens [] = [] := rfl

@[simp] theorem scriptLens_fixedMove (offset : UInt64) (width : Nat)
    (moves : List (Move FieldKind)) :
    scriptLens (fixedMove offset width :: moves) = scriptLens moves := rfl

@[simp] theorem scriptLens_varIntMove (offset behind : UInt64) (moves : List (Move FieldKind)) :
    scriptLens (varIntMove offset behind :: moves) = scriptLens moves := rfl

@[simp] theorem scriptLens_scriptMove (offset scriptLen : UInt64) (tail : Nat)
    (moves : List (Move FieldKind)) :
    scriptLens (scriptMove offset scriptLen tail :: moves) = scriptLen :: scriptLens moves := rfl

@[simp] theorem scriptLens_append (first rest : List (Move FieldKind)) :
    scriptLens (first ++ rest) = scriptLens first ++ scriptLens rest := List.filterMap_append

theorem scriptsShort_iff_scriptLens {moves : List (Move FieldKind)} :
    ScriptsShort moves ↔ ∀ scriptLen ∈ scriptLens moves, scriptLen ≤ maxSize := by
  simp only [scriptLens, List.mem_filterMap]
  constructor
  · rintro short scriptLen ⟨⟨kind, start, width⟩, member, same⟩
    cases kind with
    | script scriptLen' =>
      cases same
      exact short _ member scriptLen rfl
    | _ => cases same
  · intro short m member scriptLen kind
    exact short scriptLen ⟨m, member, by rw [kind]; rfl⟩

section Traced

variable {file : List UInt8} {data : UInt64}

theorem inputMoves_cons (small : file.length < 2 ^ 63) {n : Nat}
    {offset scriptLen behind stop : UInt64} {moves : List (Move FieldKind)}
    (script : VarIntAt file data (offset + 36) scriptLen behind)
    (rest : inputMoves file data n (behind + (scriptLen + 4)) = .ok (stop, moves)) :
    inputMoves file data (n + 1) offset = .ok (stop, fixedMove offset 36 ::
      varIntMove (offset + 36) behind :: scriptMove behind scriptLen 4 :: moves) := by
  rw [inputMoves, (parseVarInt_iff (by omega)).mpr script]
  simp only [bind, Except.bind, rest]

theorem outputMoves_cons (small : file.length < 2 ^ 63) {n : Nat}
    {offset scriptLen behind stop : UInt64} {moves : List (Move FieldKind)}
    (script : VarIntAt file data (offset + 8) scriptLen behind)
    (rest : outputMoves file data n (behind + scriptLen) = .ok (stop, moves)) :
    outputMoves file data (n + 1) offset = .ok (stop, fixedMove offset 8 ::
      varIntMove (offset + 8) behind :: scriptMove behind scriptLen 0 :: moves) := by
  rw [outputMoves, (parseVarInt_iff (by omega)).mpr script]
  simp only [bind, Except.bind, rest]

theorem txMoves_eq (small : file.length < 2 ^ 63)
    {start nTxin inputs inputsEnd nTxout outputs outputsEnd : UInt64}
    {inMoves outMoves : List (Move FieldKind)}
    (inCount : VarIntAt file data (start + 4) nTxin inputs)
    (ins : inputMoves file data nTxin.toNat inputs = .ok (inputsEnd, inMoves))
    (outCount : VarIntAt file data inputsEnd nTxout outputs)
    (outs : outputMoves file data nTxout.toNat outputs = .ok (outputsEnd, outMoves)) :
    txMoves file data start = .ok (outputsEnd + 4, fixedMove start 4 ::
      varIntMove (start + 4) inputs :: (inMoves ++ varIntMove inputsEnd outputs ::
        (outMoves ++ [fixedMove outputsEnd 4]))) := by
  rw [txMoves, (parseVarInt_iff (by omega)).mpr inCount]
  simp only [bind, Except.bind, ins, (parseVarInt_iff (by omega)).mpr outCount, outs]

theorem txsMoves_cons {n : Nat} {start next stop : UInt64} {first moves : List (Move FieldKind)}
    (tx : txMoves file data start = .ok (next, first))
    (rest : txsMoves file data n next = .ok (stop, moves)) :
    txsMoves file data (n + 1) start = .ok (stop, first ++ moves) := by
  rw [txsMoves, tx]
  simp only [bind, Except.bind, rest]

theorem blockMoves_eq (small : file.length < 2 ^ 63) {nTx txs stop : UInt64}
    {moves : List (Move FieldKind)} (count : VarIntAt file data 80 nTx txs)
    (parts : txsMoves file data nTx.toNat txs = .ok (stop, moves)) :
    blockMoves file data = .ok (stop, fixedMove 0 80 :: varIntMove 80 txs :: moves) := by
  rw [blockMoves, (parseVarInt_iff (by omega)).mpr count]
  simp only [bind, Except.bind, parts]

theorem inputScripts_moves (small : file.length < 2 ^ 63) {n : Nat} {offset stop : UInt64}
    {lens : List UInt64} (scripts : InputScripts file data n offset stop lens) :
    ∃ moves, inputMoves file data n offset = .ok (stop, moves) ∧ scriptLens moves = lens := by
  induction scripts with
  | nil offset => exact ⟨[], rfl, rfl⟩
  | @cons n offset scriptLen behind stop lens script rest ih =>
    obtain ⟨moves, traced, same⟩ := ih
    exact ⟨_, inputMoves_cons small script traced, by simp [same]⟩

theorem outputScripts_moves (small : file.length < 2 ^ 63) {n : Nat} {offset stop : UInt64}
    {lens : List UInt64} (scripts : OutputScripts file data n offset stop lens) :
    ∃ moves, outputMoves file data n offset = .ok (stop, moves) ∧ scriptLens moves = lens := by
  induction scripts with
  | nil offset => exact ⟨[], rfl, rfl⟩
  | @cons n offset scriptLen behind stop lens script rest ih =>
    obtain ⟨moves, traced, same⟩ := ih
    exact ⟨_, outputMoves_cons small script traced, by simp [same]⟩

theorem txScripts_moves (small : file.length < 2 ^ 63) {start stop : UInt64} {lens : List UInt64}
    (scripts : TxScripts file data start stop lens) :
    ∃ moves, txMoves file data start = .ok (stop, moves) ∧ scriptLens moves = lens := by
  cases scripts with
  | tx inCount ins outCount outs =>
    obtain ⟨inMoves, inTraced, inSame⟩ := inputScripts_moves small ins
    obtain ⟨outMoves, outTraced, outSame⟩ := outputScripts_moves small outs
    exact ⟨_, txMoves_eq small inCount inTraced outCount outTraced, by simp [inSame, outSame]⟩

theorem txsScripts_moves (small : file.length < 2 ^ 63) {n : Nat} {start stop : UInt64}
    {lens : List UInt64} (scripts : TxsScripts file data n start stop lens) :
    ∃ moves, txsMoves file data n start = .ok (stop, moves) ∧ scriptLens moves = lens := by
  induction scripts with
  | nil offset => exact ⟨[], rfl, rfl⟩
  | cons tx rest ih =>
    obtain ⟨first, firstTraced, firstSame⟩ := txScripts_moves small tx
    obtain ⟨moves, traced, same⟩ := ih
    exact ⟨_, txsMoves_cons firstTraced traced, by rw [scriptLens_append, firstSame, same]⟩

theorem blockScripts_moves (small : file.length < 2 ^ 63) {lens : List UInt64}
    (scripts : BlockScripts file data lens) :
    ∃ stop moves, blockMoves file data = .ok (stop, moves) ∧ scriptLens moves = lens := by
  obtain ⟨nTx, txs, stop, count, parts⟩ := scripts
  obtain ⟨moves, traced, same⟩ := txsScripts_moves small parts
  exact ⟨stop, _, blockMoves_eq small count traced, by simp [same]⟩

/-- A block that is read inside the file moves the cursor by short scripts exactly when its text
carries no others. -/
theorem scriptsShort_iff (small : file.length < 2 ^ 63) {len stop : UInt64}
    {moves : List (Move FieldKind)} (block : BlockAt file data len)
    (traced : blockMoves file data = .ok (stop, moves)) :
    ScriptsShort moves ↔ ShortScripts file data := by
  rw [scriptsShort_iff_scriptLens]
  constructor
  · intro short
    obtain ⟨lens, scripts⟩ := block.scripts
    obtain ⟨stop', moves', traced', same⟩ := blockScripts_moves small scripts
    cases traced.symm.trans traced'
    exact ⟨lens, scripts, same ▸ short⟩
  · rintro ⟨lens, scripts, short⟩
    obtain ⟨stop', moves', traced', same⟩ := blockScripts_moves small scripts
    cases traced.symm.trans traced'
    exact same ▸ short

/-- No script leads far behind the end of the file. -/
def ScriptsNear (file : List UInt8) (data : UInt64) (moves : List (Move FieldKind)) : Prop :=
  ScriptsInside file data moves ∨ ScriptsShort moves

/-- The cursor is not far behind the end of the file. -/
def Near (file : List UInt8) (data offset : UInt64) : Prop :=
  data.toNat + offset.toNat ≤ file.length + 2 ^ 26

theorem ScriptsNear.mono {moves moves' : List (Move FieldKind)}
    (near : ScriptsNear file data moves') (sub : ∀ m ∈ moves, m ∈ moves') :
    ScriptsNear file data moves :=
  near.imp (fun inside m member => inside m (sub m member))
    fun short m member => short m (sub m member)

theorem varIntMove_next (offset behind : UInt64) : (varIntMove offset behind).next = behind := by
  simp only [varIntMove, Move.next, UInt64.ofNat_toNat]
  rw [UInt64.add_comm, UInt64.sub_add_cancel]

theorem scriptMove_next (behind scriptLen : UInt64) (tail : Nat) :
    (scriptMove behind scriptLen tail).next = behind + (scriptLen + UInt64.ofNat tail) := by
  simp only [scriptMove, Move.next, UInt64.ofNat_add, UInt64.ofNat_toNat]

/-- A var-int that is read ends in the file. -/
theorem varInt_inside (small : file.length < 2 ^ 63) {offset v behind : UInt64}
    (before : data.toNat + offset.toNat < 2 ^ 64)
    (varInt : VarIntAt file data offset v behind) :
    (varIntMove offset behind).NoWrap ∧ data.toNat + behind.toNat ≤ file.length := by
  obtain ⟨k, -, rfl, inside⟩ := varInt.bounds
  have here : (data + offset).toNat = data.toNat + offset.toNat := by
    rw [UInt64.toNat_add, Nat.mod_eq_of_lt before]
  have behind : (offset + UInt64.ofNat k).toNat = offset.toNat + k :=
    toNat_add_ofNat (by omega)
  have width : (offset + UInt64.ofNat k - offset).toNat = k := by
    rw [UInt64.add_comm, UInt64.add_sub_cancel, UInt64.toNat_ofNat',
      Nat.mod_eq_of_lt (by omega)]
  constructor
  · change offset.toNat + (offset + UInt64.ofNat k - offset).toNat < 2 ^ 64
    rw [width]
    omega
  · omega

/-- A fixed field of few bytes does not wrap. -/
theorem fixedMove_noWrap (small : file.length < 2 ^ 63) {offset : UInt64} {width : Nat}
    (short : width ≤ 80) (near : Near file data offset) :
    (fixedMove offset width).NoWrap ∧
      data.toNat + (offset + UInt64.ofNat width).toNat < 2 ^ 64 := by
  unfold Near at near
  have skip : (offset + UInt64.ofNat width).toNat = offset.toNat + width :=
    toNat_add_ofNat (by omega)
  constructor
  · change offset.toNat + width < 2 ^ 64
    omega
  · omega

theorem chained_fixed {offset stop : UInt64} {width : Nat} {moves : List (Move FieldKind)}
    (rest : Chained (offset + UInt64.ofNat width) moves stop) :
    Chained offset (fixedMove offset width :: moves) stop :=
  .cons (m := fixedMove offset width) rest

theorem chained_varInt {offset behind stop : UInt64} {moves : List (Move FieldKind)}
    (rest : Chained behind moves stop) :
    Chained offset (varIntMove offset behind :: moves) stop := by
  apply Chained.cons (m := varIntMove offset behind)
  rwa [varIntMove_next]

section ScriptField

variable {offset scriptLen behind stop : UInt64} {width tail : Nat} {moves : List (Move FieldKind)}

theorem chained_scriptField
    (rest : Chained (behind + (scriptLen + UInt64.ofNat tail)) moves stop) :
    Chained offset (fixedMove offset width :: varIntMove (offset + UInt64.ofNat width) behind ::
      scriptMove behind scriptLen tail :: moves) stop := by
  rw [← scriptMove_next] at rest
  exact chained_fixed (chained_varInt (.cons rest))

theorem scriptField_near (small : file.length < 2 ^ 63) (short : width ≤ 80) (few : tail ≤ 4)
    (near : Near file data offset)
    (script : VarIntAt file data (offset + UInt64.ofNat width) scriptLen behind)
    (scripts : ScriptsNear file data (fixedMove offset width ::
      varIntMove (offset + UInt64.ofNat width) behind :: scriptMove behind scriptLen tail ::
      moves))
    (rest : Near file data (behind + (scriptLen + UInt64.ofNat tail)) →
      (∀ m ∈ moves, m.NoWrap) ∧ Near file data stop) :
    (∀ m ∈ fixedMove offset width :: varIntMove (offset + UInt64.ofNat width) behind ::
      scriptMove behind scriptLen tail :: moves, m.NoWrap) ∧ Near file data stop := by
  obtain ⟨fixed, before⟩ := fixedMove_noWrap small short near
  obtain ⟨count, inside⟩ := varInt_inside small before script
  have scriptStop : data.toNat + (scriptMove behind scriptLen tail).stop ≤
      file.length + 2 ^ 26 := by
    rcases scripts with scriptInside | scriptShort
    · exact Nat.le_add_right_of_le (scriptInside _ (by simp) scriptLen rfl)
    · have bound := UInt64.le_iff_toNat_le.mp
        (scriptShort (scriptMove behind scriptLen tail) (by simp) scriptLen rfl)
      have max : maxSize.toNat = 2 ^ 25 := by decide
      change data.toNat + (behind.toNat + (scriptLen.toNat + tail)) ≤ _
      omega
  have noWrap : (scriptMove behind scriptLen tail).NoWrap := by
    unfold Move.NoWrap
    omega
  have behindScript : Near file data (behind + (scriptLen + UInt64.ofNat tail)) := by
    rw [← scriptMove_next]
    unfold Near
    rw [Move.toNat_next noWrap]
    exact scriptStop
  obtain ⟨later, stopNear⟩ := rest behindScript
  refine ⟨?_, stopNear⟩
  intro m member
  simp only [List.mem_cons] at member
  rcases member with rfl | rfl | rfl | member
  · exact fixed
  · exact count
  · exact noWrap
  · exact later m member

end ScriptField

theorem inputMoves_of (small : file.length < 2 ^ 63) {i n : Nat} {offset stop : UInt64}
    (inputs : InputsAt file data i n offset stop) :
    ∃ moves, inputMoves file data n offset = .ok (stop, moves) ∧ Chained offset moves stop ∧
      (Near file data offset → ScriptsNear file data moves →
        (∀ m ∈ moves, m.NoWrap) ∧ Near file data stop) := by
  induction inputs with
  | nil offset =>
    refine ⟨[], rfl, .nil offset, ?_⟩
    intro near _
    exact ⟨by simp, near⟩
  | @cons n offset scriptLen behind stop outpoint script rest ih =>
    obtain ⟨moves, traced, chained, later⟩ := ih
    refine ⟨_, inputMoves_cons small script traced, chained_scriptField chained, ?_⟩
    intro near scripts
    apply scriptField_near small (by decide) (by decide) near script scripts
    intro behindScript
    exact later behindScript (scripts.mono fun m member => by simp [member])

theorem outputMoves_of (small : file.length < 2 ^ 63) {n : Nat} {offset stop : UInt64}
    (outputs : OutputsAt file data n offset stop) :
    ∃ moves, outputMoves file data n offset = .ok (stop, moves) ∧ Chained offset moves stop ∧
      (Near file data offset → ScriptsNear file data moves →
        (∀ m ∈ moves, m.NoWrap) ∧ Near file data stop) := by
  induction outputs with
  | nil offset =>
    refine ⟨[], rfl, .nil offset, ?_⟩
    intro near _
    exact ⟨by simp, near⟩
  | @cons n offset scriptLen behind stop script rest ih =>
    obtain ⟨moves, traced, chained, later⟩ := ih
    have none : scriptLen = scriptLen + UInt64.ofNat 0 := (UInt64.add_zero scriptLen).symm
    rw [none] at chained later
    refine ⟨_, outputMoves_cons small script traced, chained_scriptField chained, ?_⟩
    intro near scripts
    apply scriptField_near small (by decide) (by decide) near script scripts
    intro behindScript
    exact later behindScript (scripts.mono fun m member => by simp [member])

theorem txMoves_of (small : file.length < 2 ^ 63) {i : Nat} {start stop : UInt64}
    (before : data.toNat + start.toNat ≤ file.length) (tx : TxAt file data i start stop) :
    ∃ moves, txMoves file data start = .ok (stop, moves) ∧ Chained start moves stop ∧
      (ScriptsNear file data moves → ∀ m ∈ moves, m.NoWrap) := by
  obtain ⟨nTxin, inputs, inputsEnd, nTxout, outputs, outputsEnd, inCount, ins, outCount, outs,
    rfl, -⟩ := tx
  obtain ⟨inMoves, inTraced, inChained, inNear⟩ := inputMoves_of small ins
  obtain ⟨outMoves, outTraced, outChained, outNear⟩ := outputMoves_of small outs
  have lockTime : Chained outputsEnd [fixedMove outputsEnd 4] (outputsEnd + 4) :=
    chained_fixed (.nil _)
  refine ⟨_, txMoves_eq small inCount inTraced outCount outTraced, chained_fixed (chained_varInt
    (inChained.append (chained_varInt (outChained.append lockTime)))), ?_⟩
  intro scripts
  have startNear : Near file data start := by
    unfold Near
    omega
  obtain ⟨version, versionEnd⟩ := fixedMove_noWrap small (by decide : 4 ≤ 80) startNear
  obtain ⟨inCountNoWrap, inputsInside⟩ := varInt_inside small versionEnd inCount
  have inputsNear : Near file data inputs := by
    unfold Near
    omega
  obtain ⟨inNoWrap, inputsEndNear⟩ := inNear inputsNear
    (scripts.mono fun m member => by simp [member])
  have inputsEndLow : data.toNat + inputsEnd.toNat < 2 ^ 64 := by
    unfold Near at inputsEndNear
    omega
  obtain ⟨outCountNoWrap, outputsInside⟩ := varInt_inside small inputsEndLow outCount
  have outputsNear : Near file data outputs := by
    unfold Near
    omega
  obtain ⟨outNoWrap, outputsEndNear⟩ := outNear outputsNear
    (scripts.mono fun m member => by simp [member])
  obtain ⟨lockTimeNoWrap, -⟩ := fixedMove_noWrap small (by omega : 4 ≤ 80) outputsEndNear
  intro m member
  simp only [List.mem_cons, List.mem_append, List.not_mem_nil, or_false] at member
  rcases member with rfl | rfl | member | rfl | member | rfl
  · exact version
  · exact inCountNoWrap
  · exact inNoWrap m member
  · exact outCountNoWrap
  · exact outNoWrap m member
  · exact lockTimeNoWrap

theorem txsMoves_of (small : file.length < 2 ^ 63) {i n : Nat} {start stop : UInt64}
    (before : data.toNat + start.toNat ≤ file.length) (txs : TxsAt file data i n start stop) :
    ∃ moves, txsMoves file data n start = .ok (stop, moves) ∧ Chained start moves stop ∧
      (ScriptsNear file data moves → ∀ m ∈ moves, m.NoWrap) := by
  induction txs with
  | nil i offset => exact ⟨[], rfl, .nil offset, by simp⟩
  | @cons i n start next stop tx rest ih =>
    obtain ⟨first, firstTraced, firstChained, firstNoWrap⟩ := txMoves_of small before tx
    obtain ⟨moves, traced, chained, noWrap⟩ := ih (tx.bounds small before).2
    refine ⟨_, txsMoves_cons firstTraced traced, firstChained.append chained, ?_⟩
    intro scripts m member
    rcases List.mem_append.mp member with front | back
    · exact firstNoWrap (scripts.mono fun m member => by simp [member]) m front
    · exact noWrap (scripts.mono fun m member => by simp [member]) m back

theorem blockMoves_of (small : file.length < 2 ^ 63) {len : UInt64}
    (block : BlockAt file data len) :
    ∃ moves, blockMoves file data = .ok (len, moves) ∧ Chained 0 moves len ∧
      (ScriptsNear file data moves → ∀ m ∈ moves, m.NoWrap) := by
  obtain ⟨header, nTx, txs, count, parts, -⟩ := block
  have eighty : (80 : UInt64).toNat = 80 := by rfl
  have zero : (0 : UInt64).toNat = 0 := by rfl
  have start : Near file data 0 := by
    unfold Near
    omega
  obtain ⟨headerNoWrap, -⟩ := fixedMove_noWrap small (Nat.le_refl 80) start
  obtain ⟨countNoWrap, inside⟩ := varInt_inside small (by omega) count
  obtain ⟨moves, traced, chained, noWrap⟩ := txsMoves_of small inside parts
  refine ⟨_, blockMoves_eq small count traced, chained_fixed (chained_varInt chained), ?_⟩
  intro scripts m member
  simp only [List.mem_cons] at member
  rcases member with rfl | rfl | member
  · exact headerNoWrap
  · exact countNoWrap
  · exact noWrap (scripts.mono fun m member => by simp [member]) m member

theorem forward_of_noWrap {offset stop : UInt64} {moves : List (Move FieldKind)}
    (chained : Chained offset moves stop) (noWrap : ∀ m ∈ moves, m.NoWrap) : Forward moves :=
  ⟨noWrap, chained.pairwise noWrap⟩

/-- A call whose reads all lie in the file moves forward only exactly when every script lies in
the file. It never moves by a script length above `MAX_SIZE` exactly when the text carries none,
and then it moves forward only. -/
theorem blockMoves_forward_iff {sha256 : List UInt8 → BzUint256} {σ : Type}
    {h : Handler IndexOp σ Fault} {s s' : σ} {blkNo : UInt32} {outerOffset maxLen : UInt64}
    {added : BlockAdded} (small : file.length < 2 ^ 63)
    (run : (bzingBlockAdd sha256 file h blkNo outerOffset data maxLen).run s =
      .ok (added, s')) :
    ∃ moves, blockMoves file data = .ok (added.actualLen, moves) ∧
      (Forward moves ↔ ScriptsInside file data moves) ∧
      (ScriptsShort moves ↔ ShortScripts file data) ∧
      (Forward moves ∧ ScriptsShort moves ↔ ShortScripts file data) := by
  have block := bzingBlockAdd_of_run (by omega) run
  obtain ⟨moves, traced, chained, noWrap⟩ := blockMoves_of small block
  have short_iff := scriptsShort_iff small block traced
  refine ⟨moves, traced, ⟨?_, ?_⟩, short_iff, ⟨fun both => short_iff.mp both.2, ?_⟩⟩
  · rintro ⟨noWrap, -⟩ m member scriptLen -
    have behind := ((chained.bounds noWrap).2 m member).2
    have inside := (block.bounds small).2
    omega
  · intro inside
    exact forward_of_noWrap chained (noWrap (Or.inl inside))
  · intro text
    have short := short_iff.mpr text
    exact ⟨forward_of_noWrap chained (noWrap (Or.inr short)), short⟩

end Traced

instance (moves : List (Move FieldKind)) : Decidable (Forward moves) :=
  inferInstanceAs (Decidable ((∀ m ∈ moves, m.stop < 2 ^ 64) ∧
    moves.Pairwise fun a b => a.stop ≤ b.start.toNat))

theorem blockMoves_blockSecond_eq : blockMoves blockSecond.serialise 0 = .ok (142,
    [⟨.fixed, 0, 80⟩, ⟨.varInt, 80, 1⟩, ⟨.fixed, 81, 4⟩, ⟨.varInt, 85, 1⟩, ⟨.varInt, 86, 1⟩,
      ⟨.fixed, 87, 4⟩, ⟨.fixed, 91, 4⟩, ⟨.varInt, 95, 1⟩, ⟨.fixed, 96, 36⟩, ⟨.varInt, 132, 1⟩,
      ⟨.script 0, 133, 4⟩, ⟨.varInt, 137, 1⟩, ⟨.fixed, 138, 4⟩]) := by
  decide +kernel

/-- Adding the second sample block, whose second transaction has an input without a script, moves
forward. -/
theorem blockMoves_blockSecond :
    ∃ moves, blockMoves blockSecond.serialise 0 = .ok (142, moves) ∧ Forward moves ∧
      ShortScripts blockSecond.serialise 0 := by
  have two : blockSecond.txs.length = 2 := rfl
  have room := treeSize_lt blockSecond.txs.length 29 (by omega)
  have length : blockSecond.serialise.length = 142 := by decide +kernel
  have decodes : Decodes sampleSha256 blockSecond :=
    decodes_of_treeSize (by omega) (by omega) (by omega)
  have recorded := decodes [] 0 0 0 _ recorder
  rw [List.append_nil] at recorded
  obtain ⟨ops, run⟩ : ∃ ops,
      (bzingBlockAdd sampleSha256 blockSecond.serialise recorder 0 0 0 0).run [] =
        .ok (blockSecond.report sampleSha256, ops) := by
    rw [recorded]
    exact ⟨_, run_bind_ok.mpr ⟨(), _, perform_recorder _ _, rfl⟩⟩
  obtain ⟨moves, traced, forward, short, -⟩ := blockMoves_forward_iff (by omega) run
  have eq := blockMoves_blockSecond_eq
  rw [traced] at eq
  cases eq
  refine ⟨_, blockMoves_blockSecond_eq, forward.mpr ?_, short.mp ?_⟩
  · simp [ScriptsInside, Move.stop, length]
  · simp [ScriptsShort]

/-- A block of one transaction with one input, whose script length leads back to the outpoint:
the output count is read from the first byte of the outpoint. -/
def backwardsBlock : List UInt8 :=
  List.replicate 80 0 ++ [1] ++ [0, 0, 0, 0] ++ [1] ++ List.replicate 36 0 ++
    0xFF :: LittleEndian.bytes 8 0xFFFFFFFFFFFFFFCF

/-- Such a block, at any place of a file. -/
theorem blockAt_backwards {file : List UInt8} {data : UInt64} (small : file.length < 2 ^ 64)
    (inside : data.toNat + 91 ≤ file.length) (nTx : parseVarInt file data 80 = .ok (1, 81))
    (nTxin : parseVarInt file data 85 = .ok (1, 86))
    (scriptLen : parseVarInt file data 122 = .ok (0xFFFFFFFFFFFFFFCF, 131))
    (nTxout : parseVarInt file data 86 = .ok (0, 87)) : BlockAt file data 91 := by
  have back : (131 : UInt64) + (0xFFFFFFFFFFFFFFCF + 4) = 86 := by decide
  have script : InputsAt file data 0 1 86 86 := by
    refine .cons (Or.inl rfl) ((parseVarInt_iff small).mp scriptLen) ?_
    rw [back]
    exact .nil 86
  have one : (1 : UInt64).toNat = 1 := by rfl
  have start : (data + 81).toNat = data.toNat + 81 := toNat_add_ofNat (k := 81) (by omega)
  have width : ((91 : UInt64) - 81).toNat = 10 := by decide
  have tx : TxAt file data 0 81 91 := by
    refine ⟨1, 86, 86, 0, 87, 87, (parseVarInt_iff small).mp nTxin, ?_,
      (parseVarInt_iff small).mp nTxout, .nil 87, by decide, Or.inr ?_⟩
    · rw [one]
      exact script
    · omega
  refine ⟨by omega, 1, 81, (parseVarInt_iff small).mp nTx, ?_, ?_⟩
  · rw [one]
    exact .cons tx (.nil 1 91)
  · rw [treeSize_le_one (by decide)]
    decide

theorem blockAt_backwardsBlock : BlockAt backwardsBlock 0 91 := by
  have length : backwardsBlock.length = 131 := by decide +kernel
  have zero : (0 : UInt64).toNat = 0 := by rfl
  have reads : parseVarInt backwardsBlock 0 80 = .ok (1, 81) ∧
      parseVarInt backwardsBlock 0 85 = .ok (1, 86) ∧
      parseVarInt backwardsBlock 0 122 = .ok (0xFFFFFFFFFFFFFFCF, 131) ∧
      parseVarInt backwardsBlock 0 86 = .ok (0, 87) := by decide +kernel
  obtain ⟨nTx, nTxin, scriptLen, nTxout⟩ := reads
  exact blockAt_backwards (by omega) (by omega) nTx nTxin scriptLen nTxout

/-- The call returns, the cursor wraps and the outpoint is read again as an output count. -/
theorem not_forward_backwardsBlock :
    (∃ added, added.actualLen = 91 ∧
      Yields (fun _ h => bzingBlockAdd sampleSha256 backwardsBlock h 1 0 0 131) added) ∧
    ∃ moves, blockMoves backwardsBlock 0 = .ok (91, moves) ∧ ¬ Forward moves := by
  have length : backwardsBlock.length = 131 := by decide +kernel
  have traced : blockMoves backwardsBlock 0 = .ok (91,
      [⟨.fixed, 0, 80⟩, ⟨.varInt, 80, 1⟩, ⟨.fixed, 81, 4⟩, ⟨.varInt, 85, 1⟩, ⟨.fixed, 86, 36⟩,
        ⟨.varInt, 122, 9⟩, ⟨.script 0xFFFFFFFFFFFFFFCF, 131, 0xFFFFFFFFFFFFFFD3⟩,
        ⟨.varInt, 86, 1⟩, ⟨.fixed, 87, 4⟩]) := by
    decide +kernel
  refine ⟨bzingBlockAdd_yields sampleSha256 (by omega) 1 0 131 blockAt_backwardsBlock, _, traced,
    ?_⟩
  decide

end Bzing
