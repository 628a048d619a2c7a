import Bzing.Block.Frames

/-!
# The script lengths of a block

Which script lengths a block carries, told by its text: the var-int behind an outpoint or an
amount is one, and says where the next stands (`bzing.c:690-711`). That a length exceeds
`MAX_SIZE` is tested without effect (`bzing_parser.c:39-41`); `ShortScripts` are the texts that
test would let through.
-/

namespace Bzing

/-- `MAX_SIZE` (`bzing_parser.h:28`). -/
def maxSize : UInt64 := 0x02000000

section Text

variable (file : List UInt8) (data : UInt64)

/-- `n` inputs lead from one offset to another and carry scripts of the given lengths. -/
inductive InputScripts : Nat → UInt64 → UInt64 → List UInt64 → Prop where
  | nil (offset : UInt64) : InputScripts 0 offset offset []
  | cons {n : Nat} {offset scriptLen behind stop : UInt64} {lens : List UInt64}
      (script : VarIntAt file data (offset + 36) scriptLen behind)
      (rest : InputScripts n (behind + (scriptLen + 4)) stop lens) :
      InputScripts (n + 1) offset stop (scriptLen :: lens)

inductive OutputScripts : Nat → UInt64 → UInt64 → List UInt64 → Prop where
  | nil (offset : UInt64) : OutputScripts 0 offset offset []
  | cons {n : Nat} {offset scriptLen behind stop : UInt64} {lens : List UInt64}
      (script : VarIntAt file data (offset + 8) scriptLen behind)
      (rest : OutputScripts n (behind + scriptLen) stop lens) :
      OutputScripts (n + 1) offset stop (scriptLen :: lens)

/-- A transaction, with the scripts of its inputs and its outputs. -/
inductive TxScripts : UInt64 → UInt64 → List UInt64 → Prop where
  | tx {start nTxin inputs inputsEnd nTxout outputs outputsEnd : UInt64}
      {inLens outLens : List UInt64}
      (inCount : VarIntAt file data (start + 4) nTxin inputs)
      (ins : InputScripts file data nTxin.toNat inputs inputsEnd inLens)
      (outCount : VarIntAt file data inputsEnd nTxout outputs)
      (outs : OutputScripts file data nTxout.toNat outputs outputsEnd outLens) :
      TxScripts start (outputsEnd + 4) (inLens ++ outLens)

inductive TxsScripts : Nat → UInt64 → UInt64 → List UInt64 → Prop where
  | nil (offset : UInt64) : TxsScripts 0 offset offset []
  | cons {n : Nat} {start next stop : UInt64} {first lens : List UInt64}
      (tx : TxScripts file data start next first) (rest : TxsScripts n next stop lens) :
      TxsScripts (n + 1) start stop (first ++ lens)

/-- The block at `data` carries scripts of the given lengths. -/
def BlockScripts (lens : List UInt64) : Prop :=
  ∃ nTx txs stop, VarIntAt file data 80 nTx txs ∧
    TxsScripts file data nTx.toNat txs stop lens

/-- The block carries no script length above `MAX_SIZE`. -/
def ShortScripts : Prop :=
  ∃ lens, BlockScripts file data lens ∧ ∀ scriptLen ∈ lens, scriptLen ≤ maxSize

end Text

section Read

variable {file : List UInt8} {data : UInt64}

theorem InputsAt.scripts {i n : Nat} {offset stop : UInt64}
    (inputs : InputsAt file data i n offset stop) :
    ∃ lens, InputScripts file data n offset stop lens := by
  induction inputs with
  | nil offset => exact ⟨[], .nil offset⟩
  | cons outpoint script rest ih =>
    obtain ⟨lens, scripts⟩ := ih
    exact ⟨_, .cons script scripts⟩

theorem OutputsAt.scripts {n : Nat} {offset stop : UInt64}
    (outputs : OutputsAt file data n offset stop) :
    ∃ lens, OutputScripts file data n offset stop lens := by
  induction outputs with
  | nil offset => exact ⟨[], .nil offset⟩
  | cons script rest ih =>
    obtain ⟨lens, scripts⟩ := ih
    exact ⟨_, .cons script scripts⟩

theorem TxAt.scripts {i : Nat} {start stop : UInt64} (tx : TxAt file data i start stop) :
    ∃ lens, TxScripts file data start stop lens := by
  obtain ⟨nTxin, inputs, inputsEnd, nTxout, outputs, outputsEnd, inCount, ins, outCount, outs,
    rfl, -⟩ := tx
  obtain ⟨inLens, ins⟩ := ins.scripts
  obtain ⟨outLens, outs⟩ := outs.scripts
  exact ⟨_, .tx inCount ins outCount outs⟩

theorem TxsAt.scripts {i n : Nat} {start stop : UInt64} (txs : TxsAt file data i n start stop) :
    ∃ lens, TxsScripts file data n start stop lens := by
  induction txs with
  | nil i offset => exact ⟨[], .nil offset⟩
  | cons tx rest ih =>
    obtain ⟨first, tx⟩ := tx.scripts
    obtain ⟨lens, rest⟩ := ih
    exact ⟨_, .cons tx rest⟩

theorem BlockAt.scripts {len : UInt64} (block : BlockAt file data len) :
    ∃ lens, BlockScripts file data lens := by
  obtain ⟨-, nTx, txs, count, parts, -⟩ := block
  obtain ⟨lens, scripts⟩ := parts.scripts
  exact ⟨lens, nTx, txs, len, count, scripts⟩

end Read

end Bzing
