import Bzing.Block.Frames
import Bzing.Block.Sample

/-!
# The array of transaction hashes

`bzing_block_add` (`bzing.c:677-680`) allocates `sizeof(bz_uint256_t) * n_tx` bytes for the
hashes of a block. The count is the 64-bit value of a var-int; that it exceeds `MAX_SIZE` is
tested without effect (`bzing_parser.c:39-41`). From `2 ^ 59` on the product wraps, and from
`2 ^ 31` on the count is more than the `int` that counts the transactions can reach.
`hashArrayCovers_iff` says which blocks that leads outside: those of such a count that go on
with enough transactions in the file.
-/

namespace Bzing

open ByteBuffer Handler LittleEndian

/-- The hashes that fit the block `malloc(sizeof(bz_uint256_t) * n_tx)` returns. -/
def hashCapacity (nTx : UInt64) : Nat := (32 * nTx).toNat / 32

theorem hashCapacity_eq (nTx : UInt64) : hashCapacity nTx = nTx.toNat % 2 ^ 59 :=
  hashes_allocated nTx

/-- The test `i < n_tx` of the loop (`bzing.c:682`): the `int` is converted to the type of
    `n_tx`, with its sign. -/
def counterBelow (i : Int32) (nTx : UInt64) : Bool := i.toInt64.toUInt64 < nTx

/-- A counter that has not overflowed is compared as the number it stands for. -/
theorem counterBelow_iff {i : Nat} (small : i < 2 ^ 31) (nTx : UInt64) :
    counterBelow (Int32.ofNat i) nTx = true ↔ i < nTx.toNat := by
  have wide : (Int32.ofNat i).toInt64 = Int64.ofNat i := by
    rw [← Int64.ofInt_int32ToInt, Int32.toInt_ofNat_of_lt small, Int64.ofInt_eq_ofNat]
  unfold counterBelow
  rw [wide, Int64.toUInt64_ofNat', decide_eq_true_iff, UInt64.lt_iff_toNat_lt,
    UInt64.toNat_ofNat', Nat.mod_eq_of_lt (by omega)]

section Test

variable (sha256 : List UInt8 → BzUint256) (file : List UInt8) {σ : Type}
  (h : Handler IndexOp σ Fault)

/-- The recursion over the transactions left is the loop with this test. -/
theorem parseTxs_eq_loop {nTx : UInt64} {n i : Nat} (left : i + n = nTx.toNat)
    (small : i < 2 ^ 31) (data outerOffset offset : UInt64) (capacity : Nat)
    (txHashes : List BzUint256) :
    parseTxs sha256 file h data outerOffset capacity n i offset txHashes =
      if counterBelow (Int32.ofNat i) nTx then do
        let (offset, hash) ← parseTx sha256 file h data outerOffset capacity i offset
        checkInt (i + 1)
        parseTxs sha256 file h data outerOffset capacity (n - 1) (i + 1) offset
          (txHashes ++ [hash])
      else pure (offset, txHashes) := by
  cases n with
  | zero =>
    have done : ¬ counterBelow (Int32.ofNat i) nTx = true := by
      rw [counterBelow_iff small]
      omega
    rw [if_neg done, parseTxs]
  | succ n =>
    have more : counterBelow (Int32.ofNat i) nTx = true := by
      rw [counterBelow_iff small]
      omega
    rw [if_pos more]
    rfl

end Test

/-- The fault is neither an access outside the hash array nor an overflow of an `int`. -/
def Elsewhere (fault : Fault) : Prop := fault ≠ .hashOutside ∧ fault ≠ .intOverflow

/-- The index operations have no part in the hash array or the counter. -/
def Quiet {σ : Type} (h : Handler IndexOp σ Fault) : Prop := ∀ op, Raises Elsewhere (h op)

section Elsewhere

variable {file : List UInt8} {data : UInt64}

theorem errors_orFault {α : Type} {fault : Fault} (apart : Elsewhere fault) (x : Option α) :
    Errors Elsewhere (orFault fault x) := by
  cases x with
  | none => exact errors_error apart
  | some a => exact errors_ok a

theorem elsewhere_readOutside : Elsewhere .readOutside := by simp [Elsewhere]

theorem errors_readBytes (pos : UInt64) (len : Nat) : Errors Elsewhere (readBytes file pos len) :=
  errors_orFault elsewhere_readOutside _

theorem errors_parseVarInt (offset : UInt64) :
    Errors Elsewhere (parseVarInt file data offset) := by
  have marked : ∀ (w : Nat) (next : UInt64), Errors Elsewhere
      (readInt file (data + offset + 1) w >>= fun result => .ok (result, next)) := by
    intro w next
    exact ((errors_readBytes _ w).map _).bind fun result => errors_ok _
  unfold parseVarInt
  apply (errors_orFault elsewhere_readOutside _).bind
  intro first
  split_ifs
  · exact errors_ok _
  · exact marked 2 _
  · exact marked 4 _
  · exact marked 8 _

theorem errors_readOutpoint (pos : UInt64) : Errors Elsewhere (readOutpoint file pos) := by
  unfold readOutpoint
  split
  · exact errors_error elsewhere_readOutside
  · exact errors_ok _

theorem errors_parseOutputs (n : Nat) (offset : UInt64) :
    Errors Elsewhere (parseOutputs file data n offset) := by
  induction n generalizing offset with
  | zero => exact errors_ok _
  | succ n ih => exact (errors_parseVarInt _).bind fun _ => ih _

variable {σ : Type} {h : Handler IndexOp σ Fault}

theorem raises_markInput (quiet : Quiet h) (i : Nat) (pos spender : UInt64) :
    Raises Elsewhere (markInput file h i pos spender) := by
  unfold markInput
  split
  · exact raises_pure ()
  · exact (raises_lift (errors_readOutpoint pos)).bind fun _ => quiet _

theorem raises_parseInputs (quiet : Quiet h) (i : Nat) (spender : UInt64) (n : Nat)
    (offset : UInt64) : Raises Elsewhere (parseInputs file h data i spender n offset) := by
  induction n generalizing offset with
  | zero => exact raises_pure _
  | succ n ih =>
    apply (raises_markInput quiet i _ spender).bind
    intro _
    exact (raises_lift (errors_parseVarInt _)).bind fun _ => ih _

/-- The operations on a handle are quiet, whatever the engine. -/
theorem quiet_indexHandler {ι : Type} [InvEngine ι] : Quiet (@indexHandler ι _) := by
  have slot : Elsewhere .slotOutside := by simp [Elsewhere]
  have null : Elsewhere .nullDeref := by simp [Elsewhere]
  have marked : ∀ {hnd : BzingHandle ι} {prev outpoint offset prevInv spentPos dirty},
      Errors Elsewhere (markSlot hnd prev outpoint offset prevInv spentPos dirty) := by
    intro hnd prev outpoint offset prevInv spentPos dirty
    exact (errors_orFault slot _).bind fun _ => errors_ok _
  have reserved : ∀ {m : SpentMap} {count}, Errors Elsewhere (bzingSpentReserve m count) := by
    intro m count
    exact errors_ite ((errors_orFault slot _).bind fun _ => errors_ok _) (errors_ok _)
  rintro (⟨hash, inv⟩ | ⟨outpoint, offset⟩) hnd
  · exact errors_ok _
  · apply Errors.map
    unfold bzingSpentMark
    obtain ⟨prev, prevInv, found⟩ := findPrev hnd outpoint.hash
    cases prevInv with
    | none => exact errors_error null
    | some prevInv =>
      refine errors_ite (errors_ok _) (errors_ite (errors_ite (errors_ok _) ?_) marked)
      exact reserved.bind fun _ => marked

end Elsewhere

/-! ## Where the loop goes wrong -/

section Loop

variable {sha256 : List UInt8 → BzUint256} {file : List UInt8} {data outerOffset : UInt64}
  {σ : Type} {h : Handler IndexOp σ Fault} {s : σ} {capacity n i k : Nat} {start stop : UInt64}
  {txHashes : List BzUint256} {e : Fault}

/-- What lies behind the last element is written once a transaction was read to its end. -/
theorem parseTx_fails (small : file.length < 2 ^ 64) (quiet : Quiet h)
    (failed : (parseTx sha256 file h data outerOffset capacity i start).run s = .error e) :
    Elsewhere e ∨ ¬ i < capacity ∧ ∃ stop, TxAt file data i start stop := by
  unfold parseTx at failed
  rcases run_bind_error.mp failed with failed | ⟨⟨nTxin, inputs⟩, s1, inCount, failed⟩
  · exact Or.inl (raises_lift (errors_parseVarInt _) _ _ failed)
  rcases run_bind_error.mp failed with failed | ⟨inputsEnd, s2, ins, failed⟩
  · exact Or.inl (raises_parseInputs quiet _ _ _ _ _ _ failed)
  rcases run_bind_error.mp failed with failed | ⟨⟨nTxout, outputs⟩, s3, outCount, failed⟩
  · exact Or.inl (raises_lift (errors_parseVarInt _) _ _ failed)
  rcases run_bind_error.mp failed with failed | ⟨outputsEnd, s4, outs, failed⟩
  · exact Or.inl (raises_lift (errors_parseOutputs _ _) _ _ failed)
  rcases run_bind_error.mp failed with failed | ⟨bytes, s5, read, failed⟩
  · exact Or.inl (raises_lift (errors_readBytes _ _) _ _ failed)
  by_cases room : i < capacity
  · rw [if_pos room] at failed
    exact Or.inl ((quiet _).bind (fun _ => raises_pure _) _ _ failed)
  · exact Or.inr ⟨room, outputsEnd + 4, txAt_of_parts small (run_lift_ok.mp inCount).1 ins
      (run_lift_ok.mp outCount).1 (run_lift_ok.mp outs).1 (run_lift_ok.mp read).1⟩

/-- The last counter with an element of its own and a successor. -/
def lastCounter (capacity : Nat) : Nat := min capacity (2 ^ 31 - 1)

/-- The loop leaves the array or overflows its counter only behind so many transactions. -/
theorem parseTxs_fails (small : file.length < 2 ^ 64) (quiet : Quiet h)
    (sofar : i ≤ lastCounter capacity)
    (failed : (parseTxs sha256 file h data outerOffset capacity n i start txHashes).run s =
      .error e) :
    Elsewhere e ∨ ∃ k stop, i + k = lastCounter capacity ∧ k < n ∧
      TxsAt file data i (k + 1) start stop := by
  unfold lastCounter at sofar ⊢
  induction n generalizing i start txHashes s with
  | zero => cases failed
  | succ n ih =>
    rcases run_bind_error.mp failed with failed | ⟨⟨next, hash⟩, s1, first, failed⟩
    · rcases parseTx_fails small quiet failed with apart | ⟨full, stop, tx⟩
      · exact Or.inl apart
      · exact Or.inr ⟨0, stop, by omega, by omega, .cons tx (.nil _ _)⟩
    · obtain ⟨room, tx⟩ := parseTx_of_run small first
      rcases run_bind_error.mp failed with overflow | ⟨u, s2, counted, failed⟩
      · have large : ¬ i + 1 < 2 ^ 31 := by
          intro fits
          rw [run_lift_error, checkInt_ok fits] at overflow
          cases overflow
        exact Or.inr ⟨0, next, by omega, by omega, .cons tx (.nil _ _)⟩
      · have fits : i + 1 < 2 ^ 31 := by
          by_contra large
          rw [run_lift_ok, checkInt_overflow large] at counted
          cases counted.1
        rcases ih (by omega) failed with apart | ⟨k, stop, last, inside, rest⟩
        · exact Or.inl apart
        · exact Or.inr ⟨k + 1, stop, by omega, by omega, .cons tx rest⟩

variable (sha256) in
theorem parseTx_overruns (small : file.length < 2 ^ 64) (outerOffset : UInt64)
    (full : ¬ i < capacity) (tx : TxAt file data i start stop) (kept : List IndexOp) :
    (parseTx sha256 file recorder data outerOffset capacity i start).run kept =
      .error .hashOutside := by
  obtain ⟨nTxin, inputs, inputsEnd, nTxout, outputs, outputsEnd, bytes, inCount, ins, outCount,
    outs, rfl, read⟩ := tx.parts small
  obtain ⟨kept', recorded⟩ := (parseInputs_yields small (outerOffset + start) ins).record kept
  unfold parseTx
  refine run_bind_error.mpr (Or.inr ⟨_, _, run_lift_ok.mpr ⟨inCount, rfl⟩, ?_⟩)
  refine run_bind_error.mpr (Or.inr ⟨_, _, recorded, ?_⟩)
  refine run_bind_error.mpr (Or.inr ⟨_, _, run_lift_ok.mpr ⟨outCount, rfl⟩, ?_⟩)
  refine run_bind_error.mpr (Or.inr ⟨_, _, run_lift_ok.mpr ⟨outs, rfl⟩, ?_⟩)
  refine run_bind_error.mpr (Or.inr ⟨_, _, run_lift_ok.mpr ⟨read, rfl⟩, ?_⟩)
  rw [if_neg full]
  rfl

variable (sha256) in
/-- And behind so many it does, whatever follows them. -/
theorem parseTxs_overruns (small : file.length < 2 ^ 64) (outerOffset : UInt64)
    (last : i + k = lastCounter capacity) (inside : k < n)
    (txs : TxsAt file data i (k + 1) start stop) (txHashes : List BzUint256)
    (kept : List IndexOp) :
    ∃ e, ¬ Elsewhere e ∧
      (parseTxs sha256 file recorder data outerOffset capacity n i start txHashes).run kept =
        .error e := by
  unfold lastCounter at last
  induction k generalizing i n start txHashes kept with
  | zero =>
    obtain ⟨n, rfl⟩ : ∃ m, n = m + 1 := ⟨n - 1, by omega⟩
    cases txs with
    | @cons _ _ _ next _ tx rest =>
      by_cases room : i < capacity
      · obtain ⟨hash, yields⟩ := parseTx_yields sha256 small outerOffset room tx
        obtain ⟨kept', first⟩ := yields.record kept
        have overflow : checkInt (i + 1) = .error .intOverflow := checkInt_overflow (by omega)
        refine ⟨.intOverflow, fun apart => apart.2 rfl, ?_⟩
        exact run_bind_error.mpr (Or.inr ⟨_, _, first,
          run_bind_error.mpr (Or.inl (run_lift_error.mpr overflow))⟩)
      · refine ⟨.hashOutside, fun apart => apart.1 rfl, ?_⟩
        exact run_bind_error.mpr (Or.inl (parseTx_overruns sha256 small outerOffset room tx kept))
  | succ k ih =>
    obtain ⟨n, rfl⟩ : ∃ m, n = m + 1 := ⟨n - 1, by omega⟩
    cases txs with
    | @cons _ _ _ next _ tx rest =>
      obtain ⟨hash, yields⟩ := parseTx_yields sha256 small outerOffset
        (by omega : i < capacity) tx
      obtain ⟨kept', first⟩ := yields.record kept
      have counted : checkInt (i + 1) = .ok () := checkInt_ok (by omega)
      obtain ⟨e, here, failed⟩ := ih (by omega : i + 1 + k = min capacity (2 ^ 31 - 1))
        (by omega : k < n) rest (txHashes ++ [hash]) kept'
      refine ⟨e, here, ?_⟩
      exact run_bind_error.mpr (Or.inr ⟨_, _, first, run_bind_error.mpr
        (Or.inr ⟨(), _, run_lift_ok.mpr ⟨counted, rfl⟩, failed⟩)⟩)

end Loop

section Calls

variable (sha256 : List UInt8 → BzUint256) (file : List UInt8) (data : UInt64)

/-- A call on the block at `data` reaches the loop over the transactions, and ends there. -/
def LoopFaults {σ : Type} (h : Handler IndexOp σ Fault) (s : σ) (outerOffset : UInt64)
    (fault : Fault) : Prop :=
  ∃ header s1 nTx txs, readBytes file data 80 = .ok header ∧
    (h (.set (doubleSha256 sha256 header) ⟨outerOffset + 80, uint64Max⟩)).run s = .ok ((), s1) ∧
    parseVarInt file data 80 = .ok (nTx, txs) ∧
    (parseTxs sha256 file h data outerOffset (hashCapacity nTx) nTx.toNat 0 txs []).run s1 =
      .error fault

/-- Whatever the index, a call on the block at `data` writes no hash outside the array, and the
    loop's `int` does not overflow, so that it counts the transactions below `n_tx`
    (`parseTxs_eq_loop`). -/
def HashArrayCovers : Prop :=
  ∀ (σ : Type) (h : Handler IndexOp σ Fault), Quiet h → ∀ s blkNo outerOffset maxLen,
    (bzingBlockAdd sha256 file h blkNo outerOffset data maxLen).run s ≠ .error .hashOutside ∧
      ¬ LoopFaults sha256 file data h s outerOffset .intOverflow

/-- The block counts fewer than `2 ^ 31` transactions, or does not go on with as many as the
    wrapped array has elements for, or the counter values for, and one more. -/
def HashesFit : Prop :=
  ∀ nTx txs, data.toNat + 80 ≤ file.length → VarIntAt file data 80 nTx txs →
    nTx.toNat < 2 ^ 31 ∨
      ∀ stop, ¬ TxsAt file data 0 (min (nTx.toNat % 2 ^ 59) (2 ^ 31 - 1) + 1) txs stop

variable {sha256 file data} {σ : Type} {h : Handler IndexOp σ Fault} {s : σ}
  {outerOffset maxLen : UInt64} {blkNo : UInt32} {fault : Fault}

theorem LoopFaults.run (loop : LoopFaults sha256 file data h s outerOffset fault) :
    (bzingBlockAdd sha256 file h blkNo outerOffset data maxLen).run s = .error fault := by
  obtain ⟨header, s1, nTx, txs, read, set, count, failed⟩ := loop
  unfold bzingBlockAdd
  refine run_bind_error.mpr (Or.inr ⟨_, _, run_lift_ok.mpr ⟨read, rfl⟩, ?_⟩)
  refine run_bind_error.mpr (Or.inr ⟨_, _, set, ?_⟩)
  refine run_bind_error.mpr (Or.inr ⟨_, _, run_lift_ok.mpr ⟨count, rfl⟩, ?_⟩)
  exact run_bind_error.mpr (Or.inl failed)

/-- Outside the loop nothing is written to the array. -/
theorem loopFaults_of_run (small : file.length < 2 ^ 64) (quiet : Quiet h)
    (failed : (bzingBlockAdd sha256 file h blkNo outerOffset data maxLen).run s =
      .error .hashOutside) : LoopFaults sha256 file data h s outerOffset .hashOutside := by
  have here : ¬ Elsewhere .hashOutside := fun apart => apart.1 rfl
  unfold bzingBlockAdd at failed
  rcases run_bind_error.mp failed with failed | ⟨header, s1, read, failed⟩
  · exact absurd (raises_lift (errors_readBytes _ _) _ _ failed) here
  obtain ⟨header_eq, rfl⟩ := run_lift_ok.mp read
  rcases run_bind_error.mp failed with failed | ⟨u, s2, set, failed⟩
  · exact absurd (quiet _ _ _ failed) here
  rcases run_bind_error.mp failed with failed | ⟨⟨nTx, txs⟩, s3, count, failed⟩
  · exact absurd (raises_lift (errors_parseVarInt _) _ _ failed) here
  obtain ⟨count_eq, rfl⟩ := run_lift_ok.mp count
  rcases run_bind_error.mp failed with failed | ⟨⟨stop, txHashes⟩, s4, parsed, failed⟩
  · exact ⟨header, s2, nTx, txs, header_eq, set, count_eq, failed⟩
  obtain ⟨-, length, few⟩ := parseTxs_of_run small parsed
  rw [List.length_nil, Nat.zero_add] at length
  rcases run_bind_error.mp failed with failed | ⟨root, s5, merkle, failed⟩
  · rw [run_lift_error, calcMerkleRoot_eq sha256 length (by omega)] at failed
    split at failed <;> cases failed
  rcases run_bind_error.mp failed with failed | ⟨field, s6, -, failed⟩
  · exact absurd (raises_lift (errors_readBytes _ _) _ _ failed) here
  · exact absurd (raises_pure _ _ _ failed) here

theorem quiet_recorder : Quiet (@recorder IndexOp Fault) := fun _ _ => errors_ok _

/-- A call on a block of a large count with enough transactions behind it goes wrong. -/
theorem loopFaults_of_txs (sha256 : List UInt8 → BzUint256) (small : file.length < 2 ^ 64)
    {nTx txs stop : UInt64} (inside : data.toNat + 80 ≤ file.length)
    (count : VarIntAt file data 80 nTx txs) (many : ¬ nTx.toNat < 2 ^ 31)
    (enough : TxsAt file data 0 (lastCounter (hashCapacity nTx) + 1) txs stop) :
    ∃ e, ¬ Elsewhere e ∧ LoopFaults sha256 file data recorder [] 0 e := by
  obtain ⟨header, read⟩ := readBytes_isOk.mpr (Or.inr inside)
  have last : lastCounter (hashCapacity nTx) < nTx.toNat := by
    unfold lastCounter
    omega
  obtain ⟨e, here, failed⟩ := parseTxs_overruns sha256 small 0 (Nat.zero_add _) last enough []
    [.set (doubleSha256 sha256 header) ⟨0 + 80, uint64Max⟩]
  exact ⟨e, here, header, _, nTx, txs, read, rfl, (parseVarInt_iff small).mpr count, failed⟩

/-- A call goes wrong in the loop only on such a block. -/
theorem elsewhere_of_hashesFit (small : file.length < 2 ^ 64) (quiet : Quiet h)
    (fit : HashesFit file data) (loop : LoopFaults sha256 file data h s outerOffset fault) :
    Elsewhere fault := by
  obtain ⟨header, s1, nTx, txs, read, set, count, failed⟩ := loop
  have capacity := hashCapacity_eq nTx
  rcases parseTxs_fails small quiet (Nat.zero_le _) failed with
    apart | ⟨k, stop, last, inside, enough⟩
  · exact apart
  · unfold lastCounter at last
    rw [Nat.zero_add, capacity] at last
    have header : data.toNat + 80 ≤ file.length := by
      have room := (readBytes_ok read).2
      omega
    rcases fit nTx txs header ((parseVarInt_iff small).mp count) with few | none
    · omega
    · rw [last] at enough
      exact absurd enough (none stop)

/-- The hash array covers what is written to it, and the counter stays in its range, exactly for
    the blocks of fewer than `2 ^ 31` transactions and those of a larger count that do not go on
    with as many as it takes to overrun the array or the counter. -/
theorem hashArrayCovers_iff (sha256 : List UInt8 → BzUint256) (small : file.length < 2 ^ 64) :
    HashArrayCovers sha256 file data ↔ HashesFit file data := by
  constructor
  · intro covers nTx txs inside count
    by_contra wrong
    simp only [not_or, not_forall, not_not] at wrong
    obtain ⟨many, stop, enough⟩ := wrong
    rw [← hashCapacity_eq] at enough
    obtain ⟨e, here, loop⟩ := loopFaults_of_txs sha256 small inside count many enough
    obtain ⟨array, counter⟩ := covers _ recorder quiet_recorder [] 0 0 0
    apply here
    constructor
    · rintro rfl
      exact array loop.run
    · rintro rfl
      exact counter loop
  · intro fit σ h quiet s blkNo outerOffset maxLen
    constructor
    · intro failed
      have loop := loopFaults_of_run small quiet failed
      exact (elsewhere_of_hashesFit small quiet fit loop).1 rfl
    · intro loop
      exact (elsewhere_of_hashesFit small quiet fit loop).2 rfl

end Calls

/-- The first sample block has two transactions. -/
theorem hashArrayCovers_blockFirst : HashArrayCovers sampleSha256 blockFirst.serialise 0 := by
  have length : blockFirst.serialise.length < 2 ^ 64 := by decide +kernel
  have two : parseVarInt blockFirst.serialise 0 80 = .ok (2, 81) := by decide +kernel
  refine (hashArrayCovers_iff sampleSha256 length).mpr ?_
  intro nTx txs inside count
  have read := (parseVarInt_iff length).mpr count
  rw [two] at read
  cases read
  exact Or.inl (by decide)

/-- A header, a count of `2 ^ 59` and a transaction without inputs and outputs. -/
def hugeCountBlock : List UInt8 :=
  List.replicate 80 0 ++ 0xFF :: bytes 8 (2 ^ 59) ++ List.replicate 10 0

/-- The array has no element, and the hash of the transaction is written to the first. -/
theorem not_hashArrayCovers_hugeCountBlock :
    (∀ sha256, (bzingBlockAdd sha256 hugeCountBlock recorder 1 8 0 99).run [] =
      .error .hashOutside) ∧ ¬ ∃ sha256, HashArrayCovers sha256 hugeCountBlock 0 := by
  have length : hugeCountBlock.length = 99 := by decide +kernel
  have small : hugeCountBlock.length < 2 ^ 64 := by omega
  have zero : (0 : UInt64).toNat = 0 := by rfl
  obtain ⟨count, nTxin, nTxout⟩ : parseVarInt hugeCountBlock 0 80 = .ok (2 ^ 59, 89) ∧
      parseVarInt hugeCountBlock 0 93 = .ok (0, 94) ∧
      parseVarInt hugeCountBlock 0 94 = .ok (0, 95) := by decide +kernel
  have tx : TxAt hugeCountBlock 0 0 89 99 := by
    refine ⟨0, 94, 94, 0, 95, 95, (parseVarInt_iff small).mp nTxin, .nil 94,
      (parseVarInt_iff small).mp nTxout, .nil 95, by decide, Or.inr ?_⟩
    rw [length]
    decide
  have empty : hashCapacity (2 ^ 59) = 0 := by decide +kernel
  have runs : ∀ sha256, (bzingBlockAdd sha256 hugeCountBlock recorder 1 8 0 99).run [] =
      .error .hashOutside := by
    intro sha256
    obtain ⟨header, read⟩ := @readBytes_isOk hugeCountBlock 0 80 |>.mpr (Or.inr (by omega))
    apply LoopFaults.run
    refine ⟨header, _, 2 ^ 59, 89, read, rfl, count, ?_⟩
    have more : ((2 : UInt64) ^ 59).toNat = (2 ^ 59 - 1) + 1 := by decide +kernel
    rw [empty, more]
    exact run_bind_error.mpr
      (Or.inl (parseTx_overruns sha256 small 8 (Nat.not_lt_zero 0) tx _))
  refine ⟨runs, ?_⟩
  rintro ⟨sha256, covers⟩
  exact (covers _ recorder quiet_recorder [] 1 8 99).1 (runs sha256)

end Bzing
