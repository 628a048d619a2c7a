import Bzing.Block.Forward
import Bzing.Data.Turns

/-!
# Progress over the file

The loop of `bzing_index_regen` (`bzing.c:746-752`) trusts the length `bzing_block_add` reports,
and inside a transaction that cursor may be moved back by any 64-bit length. What is hashed at
the end of a transaction reaches from its start to the cursor, though, so where those bytes lie
in the file the cursor is not before the start. From one transaction to the next this carries
over to the block (`TextAt.bounds`) and to the loop: every turn adds at least 89 to `offset`, and
there are at most `len / 89` of them, whatever becomes of the index, the hash array or the
Merkle tree.
-/

namespace Bzing

open Handler

/-- A turn of the loop whose reads lie in the file leads from one offset to another. -/
def RegenTurn (file : List UInt8) (offset next : UInt64) : Prop :=
  offset < UInt64.ofNat file.length - 1 ∧
    ∃ blockLen, TextAt file (offset + 8) blockLen ∧ next = offset + 8 + blockLen

section Ends

variable (sha256 : List UInt8 → BzUint256) (file : List UInt8) {σ : Type}

/-- A run of the loop from `offset` that stops after `n` turns. -/
def StopsAfter (n : Nat) (offset : UInt64)
    (result : Except Fault (Option (UInt64 × List BlockCall) × σ)) : Prop :=
  ∃ stop calls s', result = .ok (some (stop, calls), s') ∧ calls.length = n ∧
    Turns (RegenTurn file) n offset stop ∧ ¬ stop < UInt64.ofNat file.length - 1

/-- A run of the loop from `offset` that does not complete the turn behind the first `n`: the
    call reads outside the file or leaves defined behaviour in another way. -/
def FaultsAfter (h : Handler IndexOp σ Fault) (n : Nat) (offset : UInt64)
    (result : Except Fault (Option (UInt64 × List BlockCall) × σ)) : Prop :=
  ∃ fault last nBlocks s', result = .error fault ∧ Turns (RegenTurn file) n offset last ∧
    last < UInt64.ofNat file.length - 1 ∧
    (bzingBlockAdd sha256 file h nBlocks (last + 8) (last + 8)
      (UInt64.ofNat file.length - (last + 8))).run s' = .error fault

end Ends

section Progress

variable {sha256 : List UInt8 → BzUint256} {file : List UInt8}

theorem regenTurn_of_run (small : file.length < 2 ^ 63) {σ : Type}
    {h : Handler IndexOp σ Fault} {s s' : σ} {blkNo : UInt32} {offset maxLen : UInt64}
    {added : BlockAdded} (more : offset < UInt64.ofNat file.length - 1)
    (run : (bzingBlockAdd sha256 file h blkNo (offset + 8) (offset + 8) maxLen).run s =
      .ok (added, s')) : RegenTurn file offset (offset + 8 + added.actualLen) :=
  ⟨more, added.actualLen, (bzingBlockAdd_of_run (by omega) run).text, rfl⟩

/-- A turn adds at least 89, without wrapping, and ends in the file. -/
theorem RegenTurn.bounds (small : file.length < 2 ^ 63) {offset next : UInt64}
    (turn : RegenTurn file offset next) :
    offset.toNat + 89 ≤ next.toNat ∧ next.toNat ≤ file.length := by
  obtain ⟨more, blockLen, text, rfl⟩ := turn
  obtain ⟨-, sum, long, inside⟩ := frame_bounds small more text
  omega

theorem regenTurns_le (small : file.length < 2 ^ 63) {n : Nat} {offset next : UInt64}
    (turns : Turns (RegenTurn file) n offset next) : n ≤ file.length / 89 :=
  turns.count_le UInt64.toNat (by decide) (fun _ _ turn => (turn.bounds small).1)
    fun _ _ turn => (turn.bounds small).2

/-- The loop stops, or a call does not return, or the fuel ends, after as many turns. -/
theorem regenLoop_turns (small : file.length < 2 ^ 63) {σ : Type} (h : Handler IndexOp σ Fault)
    (fuel : Nat) (nBlocks : UInt32) (offset : UInt64) (s : σ) :
    (∃ n < fuel,
      StopsAfter file n offset
        ((regenLoop sha256 file h (UInt64.ofNat file.length) fuel nBlocks offset).run s) ∨
      FaultsAfter sha256 file h n offset
        ((regenLoop sha256 file h (UInt64.ofNat file.length) fuel nBlocks offset).run s)) ∨
    ∃ last, Turns (RegenTurn file) fuel offset last := by
  induction fuel generalizing nBlocks offset s with
  | zero => exact Or.inr ⟨offset, .none offset⟩
  | succ fuel ih =>
    by_cases more : offset < UInt64.ofNat file.length - 1
    · unfold regenLoop
      rw [if_pos more]
      cases call : (bzingBlockAdd sha256 file h (nBlocks + 1) (offset + 8) (offset + 8)
          (UInt64.ofNat file.length - (offset + 8))).run s with
      | error fault =>
        exact Or.inl ⟨0, by omega, Or.inr ⟨fault, offset, nBlocks + 1, s,
          run_bind_error.mpr (Or.inl call), .none offset, more, call⟩⟩
      | ok result =>
        obtain ⟨added, s1⟩ := result
        have turn := regenTurn_of_run small more call
        rcases ih (nBlocks + 1) (offset + 8 + added.actualLen) s1 with
          ⟨n, lt, ⟨stop, calls, s', rest, count, turns, done⟩ |
            ⟨fault, last, blkNo, s', rest, turns, begun, failed⟩⟩ | ⟨last, turns⟩
        · refine Or.inl ⟨n + 1, by omega, Or.inl ⟨stop, ⟨nBlocks + 1, offset + 8,
            UInt64.ofNat file.length - (offset + 8), added⟩ :: calls, s', ?_, ?_,
            .next turn turns, done⟩⟩
          · exact run_bind_ok.mpr ⟨added, s1, call, run_bind_ok.mpr
              ⟨some (stop, calls), s', rest, run_pure_ok.mpr ⟨rfl, rfl⟩⟩⟩
          · simp [count]
        · refine Or.inl ⟨n + 1, by omega, Or.inr ⟨fault, last, blkNo, s', ?_,
            .next turn turns, begun, failed⟩⟩
          exact run_bind_error.mpr (Or.inr ⟨added, s1, call, run_bind_error.mpr (Or.inl rest)⟩)
        · exact Or.inr ⟨last, .next turn turns⟩
    · unfold regenLoop
      rw [if_neg more]
      exact Or.inl ⟨0, by omega, Or.inl ⟨offset, [], s, rfl, rfl, .none offset, more⟩⟩

/-- `bzing_index_regen` makes progress on every file: a completed turn whose reads lie in the
    file adds at least 89 to `offset` without wrapping, so there are at most `len / 89` of these,
    and a run reads outside the file or stops within one turn more. -/
theorem bzingIndexRegen_progress (sha256 : List UInt8 → BzUint256)
    (small : file.length < 2 ^ 63) :
    (∀ (offset blockLen : UInt64), offset < UInt64.ofNat file.length - 1 →
      TextAt file (offset + 8) blockLen →
      (offset + 8).toNat = offset.toNat + 8 ∧
        (offset + 8 + blockLen).toNat = offset.toNat + 8 + blockLen.toNat ∧
        offset.toNat + 89 ≤ (offset + 8 + blockLen).toNat) ∧
    (∀ n offset, Turns (RegenTurn file) n 0 offset → n ≤ file.length / 89) ∧
    ∀ (σ : Type) (h : Handler IndexOp σ Fault) (s : σ),
      (∀ blkNo (offset maxLen : UInt64) added s', offset < UInt64.ofNat file.length - 1 →
        (bzingBlockAdd sha256 file h blkNo (offset + 8) (offset + 8) maxLen).run s =
          .ok (added, s') → RegenTurn file offset (offset + 8 + added.actualLen)) ∧
      ∃ n, n + 1 ≤ file.length / 89 + 1 ∧
        (StopsAfter file n 0 ((bzingIndexRegen sha256 file h).run s) ∨
          FaultsAfter sha256 file h n 0 ((bzingIndexRegen sha256 file h).run s)) := by
  refine ⟨?_, fun n offset turns => regenTurns_le small turns, ?_⟩
  · intro offset blockLen more text
    obtain ⟨skip, sum, long, -⟩ := frame_bounds small more text
    exact ⟨skip, sum, by omega⟩
  · intro σ h s
    refine ⟨fun blkNo offset maxLen added s' more run => regenTurn_of_run small more run, ?_⟩
    rcases regenLoop_turns small h (file.length + 1) 0 0 s with ⟨n, -, ends⟩ | ⟨last, turns⟩
    · refine ⟨n, ?_, ends⟩
      rcases ends with ⟨stop, calls, s', -, -, turns, -⟩ | ⟨fault, last, blkNo, s', -, turns, -⟩
      · exact Nat.succ_le_succ (regenTurns_le small turns)
      · exact Nat.succ_le_succ (regenTurns_le small turns)
    · have few := regenTurns_le small turns
      omega

end Progress

/-- A frame of `backwardsBlock`. -/
def backwardsFile : List UInt8 := List.replicate 8 0 ++ backwardsBlock

theorem blockAt_backwardsFile : BlockAt backwardsFile 8 91 := by
  have length : backwardsFile.length = 139 := by decide +kernel
  have eight : (8 : UInt64).toNat = 8 := by rfl
  have reads : parseVarInt backwardsFile 8 80 = .ok (1, 81) ∧
      parseVarInt backwardsFile 8 85 = .ok (1, 86) ∧
      parseVarInt backwardsFile 8 122 = .ok (0xFFFFFFFFFFFFFFCF, 131) ∧
      parseVarInt backwardsFile 8 86 = .ok (0, 87) := by decide +kernel
  obtain ⟨nTx, nTxin, scriptLen, nTxout⟩ := reads
  exact blockAt_backwards (by omega) (by omega) nTx nTxin scriptLen nTxout

set_option maxRecDepth 100000 in
/-- The second block is not there. -/
theorem backwardsFile_fails :
    ((bzingIndexRegen sampleSha256 backwardsFile recorder).run []).toOption.isNone = true := by
  decide +kernel

/-- The first turn ends at 99 all the same, no turn follows it, and a run does not complete
another. -/
theorem bzingIndexRegen_progress_backwards :
    Turns (RegenTurn backwardsFile) 1 0 99 ∧ 0 + 89 ≤ (99 : UInt64).toNat ∧
      (∀ n offset, Turns (RegenTurn backwardsFile) n 0 offset → n ≤ 1) ∧
      ∃ n ≤ 1, FaultsAfter sampleSha256 backwardsFile recorder n 0
        ((bzingIndexRegen sampleSha256 backwardsFile recorder).run []) := by
  have length : backwardsFile.length = 139 := by decide +kernel
  obtain ⟨advances, few, ends⟩ :=
    bzingIndexRegen_progress sampleSha256 (by omega : backwardsFile.length < 2 ^ 63)
  have more : (0 : UInt64) < UInt64.ofNat backwardsFile.length - 1 := by
    rw [length]
    decide
  have text : TextAt backwardsFile (0 + 8) 91 := blockAt_backwardsFile.text
  have turn : RegenTurn backwardsFile 0 99 := ⟨more, 91, text, rfl⟩
  rw [length] at few
  refine ⟨.next turn (.none 99), (advances 0 91 more text).2.2, few, ?_⟩
  obtain ⟨-, n, le, stops | faults⟩ := ends _ recorder []
  · obtain ⟨stop, calls, s', returned, -⟩ := stops
    have fails := backwardsFile_fails
    rw [returned] at fails
    cases fails
  · rw [length] at le
    exact ⟨n, by omega, faults⟩

end Bzing
