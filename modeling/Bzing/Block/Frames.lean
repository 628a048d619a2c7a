import Bzing.Block.Add

/-!
# The files that are read inside their bounds

The parser checks neither a length against the file nor `max_len`. `FramesAt` describes, from
the contents of the file, where every field it looks at lies in the file: frames of eight
skipped bytes and a block, until at most one byte is left. Var-ints may have any of their
forms, and script lengths move the cursor modulo `2 ^ 64`, as in the source. `staysInside_iff`
shows that a run returns exactly on such files, whatever the index; on any other it reads
outside the file or overflows an `int`.
-/

namespace Bzing

open ByteBuffer Handler LittleEndian

/-- The bytes of a var-int and its value, in any of the four forms. -/
inductive IsVarInt : List UInt8 → UInt64 → Prop where
  | one (b : UInt8) (small : b < 0xFD) : IsVarInt [b] b.toUInt64
  | two (bs : List UInt8) (width : bs.length = 2) :
      IsVarInt (0xFD :: bs) (UInt64.ofNat (value bs))
  | four (bs : List UInt8) (width : bs.length = 4) :
      IsVarInt (0xFE :: bs) (UInt64.ofNat (value bs))
  | eight (bs : List UInt8) (width : bs.length = 8) :
      IsVarInt (0xFF :: bs) (UInt64.ofNat (value bs))

/-- A var-int of value `v` lies in the file at `data + offset`, and `next` is behind it. -/
def VarIntAt (file : List UInt8) (data offset v next : UInt64) : Prop :=
  ∃ text, IsVarInt text v ∧ HoldsAt file (data + offset).toNat text ∧
    next = offset + UInt64.ofNat text.length

/-- `len` bytes at `data + offset` lie in the file. -/
def Inside (file : List UInt8) (data offset len : UInt64) : Prop :=
  len = 0 ∨ (data + offset).toNat + len.toNat ≤ file.length

/-- `n` inputs of transaction `i` lead from one offset to another. Outpoints lie in the file,
    those of the first transaction are skipped. -/
inductive InputsAt (file : List UInt8) (data : UInt64) (i : Nat) :
    Nat → UInt64 → UInt64 → Prop where
  | nil (offset : UInt64) : InputsAt file data i 0 offset offset
  | cons {n : Nat} {offset scriptLen behind stop : UInt64}
      (outpoint : i = 0 ∨ Inside file data offset 36)
      (script : VarIntAt file data (offset + 36) scriptLen behind)
      (rest : InputsAt file data i n (behind + (scriptLen + 4)) stop) :
      InputsAt file data i (n + 1) offset stop

/-- `n` outputs lead from one offset to another. -/
inductive OutputsAt (file : List UInt8) (data : UInt64) : Nat → UInt64 → UInt64 → Prop where
  | nil (offset : UInt64) : OutputsAt file data 0 offset offset
  | cons {n : Nat} {offset scriptLen behind stop : UInt64}
      (script : VarIntAt file data (offset + 8) scriptLen behind)
      (rest : OutputsAt file data n (behind + scriptLen) stop) :
      OutputsAt file data (n + 1) offset stop

/-- Transaction `i` leads from `start` to `stop`, and the text between lies in the file. -/
def TxAt (file : List UInt8) (data : UInt64) (i : Nat) (start stop : UInt64) : Prop :=
  ∃ nTxin inputs inputsEnd nTxout outputs outputsEnd,
    VarIntAt file data (start + 4) nTxin inputs ∧
    InputsAt file data i nTxin.toNat inputs inputsEnd ∧
    VarIntAt file data inputsEnd nTxout outputs ∧
    OutputsAt file data nTxout.toNat outputs outputsEnd ∧
    stop = outputsEnd + 4 ∧ Inside file data start (stop - start)

/-- `n` transactions from the `i`-th on lead from one offset to another. -/
inductive TxsAt (file : List UInt8) (data : UInt64) : Nat → Nat → UInt64 → UInt64 → Prop where
  | nil (i : Nat) (offset : UInt64) : TxsAt file data i 0 offset offset
  | cons {i n : Nat} {start next stop : UInt64} (tx : TxAt file data i start next)
      (rest : TxsAt file data (i + 1) n next stop) : TxsAt file data i (n + 1) start stop

/-- A header, a count and transactions one behind the other, however many, take up `len` bytes
    at `data`. -/
def TextAt (file : List UInt8) (data len : UInt64) : Prop :=
  data.toNat + 80 ≤ file.length ∧ ∃ nTx txs n, VarIntAt file data 80 nTx txs ∧
    TxsAt file data 0 n txs len

/-- A block of length `len` stands at `data`, and its Merkle tree is not too large. -/
def BlockAt (file : List UInt8) (data len : UInt64) : Prop :=
  data.toNat + 80 ≤ file.length ∧ ∃ nTx txs, VarIntAt file data 80 nTx txs ∧
    TxsAt file data 0 nTx.toNat txs len ∧ treeSize nTx.toNat < 2 ^ 31

/-- Frames lead from `offset` to the end of the file, up to its last byte. -/
inductive FramesAt (file : List UInt8) : UInt64 → Prop where
  | stop {offset : UInt64} (done : ¬ offset < UInt64.ofNat file.length - 1) :
      FramesAt file offset
  | frame {offset len : UInt64} (more : offset < UInt64.ofNat file.length - 1)
      (block : BlockAt file (offset + 8) len) (rest : FramesAt file (offset + 8 + len)) :
      FramesAt file offset

/-! ## Var-ints -/

section VarInt

variable {file : List UInt8} {data offset : UInt64}

theorem readInt_iff {pos : UInt64} {w : Nat} {v : UInt64} (wide : 1 ≤ w) :
    readInt file pos w = .ok v ↔
      ∃ bs, bs.length = w ∧ HoldsAt file pos.toNat bs ∧ v = UInt64.ofNat (value bs) := by
  constructor
  · intro ok
    unfold readInt at ok
    cases read : readBytes file pos w with
    | error e =>
      rw [read] at ok
      cases ok
    | ok bs =>
      rw [read] at ok
      cases ok
      refine ⟨bs, (readBytes_ok read).1, ?_, rfl⟩
      unfold readBytes slice at read
      split at read
      · cases read
        exact List.take_prefix w _
      · cases read
  · rintro ⟨bs, rfl, holds, rfl⟩
    unfold readInt
    rw [readBytes_holdsAt holds]
    rfl

/-- The integer behind a marker byte. -/
theorem readMarked_iff (small : file.length < 2 ^ 64) {marker : UInt8} {w : Nat} {v : UInt64}
    (wide : 1 ≤ w) (first : file[(data + offset).toNat]? = some marker) :
    readInt file (data + offset + 1) w = .ok v ↔
      ∃ bs, bs.length = w ∧ HoldsAt file (data + offset).toNat (marker :: bs) ∧
        v = UInt64.ofNat (value bs) := by
  have inside := (List.getElem?_eq_some_iff.mp first).1
  have next : (data + offset + 1).toNat = (data + offset).toNat + 1 :=
    toNat_add_ofNat (k := 1) (by omega)
  simp only [readInt_iff wide, holdsAt_cons, first, next, true_and]

/-- The markers of the longer forms, with the width of the integer behind them. -/
def varIntWidths : List (UInt8 × Nat) := [(0xFD, 2), (0xFE, 4), (0xFF, 8)]

theorem mem_varIntWidths {marker : UInt8} {w : Nat} :
    (marker, w) ∈ varIntWidths ↔
      (marker = 0xFD ∧ w = 2) ∨ (marker = 0xFE ∧ w = 4) ∨ (marker = 0xFF ∧ w = 8) := by
  simp [varIntWidths]

theorem parseVarInt_short {first : UInt8} (short : first < 0xFD)
    (read : file[(data + offset).toNat]? = some first) :
    parseVarInt file data offset = .ok (first.toUInt64, offset + 1) := by
  unfold parseVarInt
  rw [read]
  simp only [orFault_some, bind, Except.bind, short, if_true]

theorem parseVarInt_wide {marker : UInt8} {w : Nat} (wide : (marker, w) ∈ varIntWidths)
    (read : file[(data + offset).toNat]? = some marker) :
    parseVarInt file data offset = (do
      let result ← readInt file (data + offset + 1) w
      .ok (result, offset + UInt64.ofNat (w + 1))) := by
  unfold parseVarInt
  rw [read]
  rcases mem_varIntWidths.mp wide with ⟨rfl, rfl⟩ | ⟨rfl, rfl⟩ | ⟨rfl, rfl⟩ <;> rfl

/-- Every byte that is not a value of its own is a marker. -/
theorem exists_width {first : UInt8} (marked : ¬ first < 0xFD) :
    ∃ w, (first, w) ∈ varIntWidths := by
  have high := UInt8.le_iff_toNat_le.mp (UInt8.not_lt.mp marked)
  have low : (0xFD : UInt8).toNat = 0xFD := by rfl
  have bound := first.toNat_lt
  have cases : first.toNat = 0xFD ∨ first.toNat = 0xFE ∨ first.toNat = 0xFF := by omega
  rcases cases with two | four | eight
  · have same : first = 0xFD := UInt8.toNat_inj.mp two
    exact ⟨2, by simp [varIntWidths, same]⟩
  · have same : first = 0xFE := UInt8.toNat_inj.mp four
    exact ⟨4, by simp [varIntWidths, same]⟩
  · have same : first = 0xFF := UInt8.toNat_inj.mp eight
    exact ⟨8, by simp [varIntWidths, same]⟩

theorem isVarInt_iff {text : List UInt8} {v : UInt64} :
    IsVarInt text v ↔ (∃ b, b < 0xFD ∧ text = [b] ∧ v = b.toUInt64) ∨
      ∃ marker w bs, (marker, w) ∈ varIntWidths ∧ bs.length = w ∧ text = marker :: bs ∧
        v = UInt64.ofNat (value bs) := by
  constructor
  · intro form
    cases form with
    | one b short => exact Or.inl ⟨b, short, rfl, rfl⟩
    | two bs width => exact Or.inr ⟨0xFD, 2, bs, by simp [varIntWidths], width, rfl, rfl⟩
    | four bs width => exact Or.inr ⟨0xFE, 4, bs, by simp [varIntWidths], width, rfl, rfl⟩
    | eight bs width => exact Or.inr ⟨0xFF, 8, bs, by simp [varIntWidths], width, rfl, rfl⟩
  · rintro (⟨b, short, rfl, rfl⟩ | ⟨marker, w, bs, wide, width, rfl, rfl⟩)
    · exact .one b short
    · rcases mem_varIntWidths.mp wide with ⟨rfl, rfl⟩ | ⟨rfl, rfl⟩ | ⟨rfl, rfl⟩
      · exact .two bs width
      · exact .four bs width
      · exact .eight bs width

/-- `parse_var_int` reads a var-int of any form. -/
theorem parseVarInt_iff (small : file.length < 2 ^ 64) {v next : UInt64} :
    parseVarInt file data offset = .ok (v, next) ↔ VarIntAt file data offset v next := by
  have positive : ∀ {marker w}, (marker, w) ∈ varIntWidths → 1 ≤ w := by
    intro marker w wide
    have widths := mem_varIntWidths.mp wide
    omega
  constructor
  · intro ok
    have first : ∃ first, file[(data + offset).toNat]? = some first := by
      obtain ⟨first, read, -⟩ := except_bind_ok.mp ok
      revert read
      cases file[(data + offset).toNat]? <;> simp [orFault]
    obtain ⟨first, read⟩ := first
    by_cases short : first < 0xFD
    · rw [parseVarInt_short short read] at ok
      cases ok
      exact ⟨[first], .one first short, holdsAt_cons.mpr ⟨read, holdsAt_nil _ _⟩, rfl⟩
    · obtain ⟨w, wide⟩ := exists_width short
      rw [parseVarInt_wide wide read] at ok
      obtain ⟨result, int, pair⟩ := except_bind_ok.mp ok
      cases pair
      obtain ⟨bs, width, holds, rfl⟩ := (readMarked_iff small (positive wide) read).mp int
      refine ⟨first :: bs, isVarInt_iff.mpr (Or.inr ⟨first, w, bs, wide, width, rfl, rfl⟩), holds,
        ?_⟩
      rw [List.length_cons, width]
  · rintro ⟨text, form, holds, rfl⟩
    rcases isVarInt_iff.mp form with ⟨b, short, rfl, rfl⟩ | ⟨marker, w, bs, wide, width, rfl, rfl⟩
    · exact parseVarInt_short short (holdsAt_cons.mp holds).1
    · have read := (holdsAt_cons.mp holds).1
      rw [parseVarInt_wide wide read,
        (readMarked_iff small (positive wide) read).mpr ⟨bs, width, holds, rfl⟩,
        List.length_cons, width]
      rfl

end VarInt

/-! ## One part after the other -/

section Parts

variable {sha256 : List UInt8 → BzUint256} {file : List UInt8} {data : UInt64}

theorem readBytes_isOk {pos : UInt64} {len : Nat} :
    (∃ bs, readBytes file pos len = .ok bs) ↔ len = 0 ∨ pos.toNat + len ≤ file.length := by
  rw [← slice_isSome]
  unfold readBytes
  cases slice file pos.toNat len <;> simp [orFault]

theorem readOutpoint_isOk {offset : UInt64} :
    (∃ outpoint, readOutpoint file (data + offset) = .ok outpoint) ↔
      Inside file data offset 36 := by
  have width : (36 : UInt64).toNat = 36 := by rfl
  have nonzero : (36 : UInt64) ≠ 0 := by decide
  unfold Inside
  rw [width, or_iff_right nonzero]
  constructor
  · rintro ⟨outpoint, ok⟩
    exact readOutpoint_ok ok
  · intro inside
    have some := slice_isSome.mpr (Or.inr inside)
    unfold readOutpoint
    split
    · rename_i none
      rw [none] at some
      cases some
    · exact ⟨_, rfl⟩

theorem parseOutputs_iff (small : file.length < 2 ^ 64) (n : Nat) (offset stop : UInt64) :
    parseOutputs file data n offset = .ok stop ↔ OutputsAt file data n offset stop := by
  induction n generalizing offset with
  | zero =>
    constructor
    · intro ok
      cases ok
      exact .nil _
    · intro outputs
      cases outputs
      rfl
  | succ n ih =>
    refine except_bind_ok.trans ⟨?_, ?_⟩
    · rintro ⟨⟨scriptLen, behind⟩, script, rest⟩
      exact .cons ((parseVarInt_iff small).mp script) ((ih _).mp rest)
    · intro outputs
      cases outputs with
      | cons script rest =>
        exact ⟨_, (parseVarInt_iff small).mpr script, (ih _).mpr rest⟩

variable {σ : Type} {h : Handler IndexOp σ Fault} {s s' : σ}

theorem markInput_of_run {i : Nat} {offset spender : UInt64} {u : Unit}
    (run : (markInput file h i (data + offset) spender).run s = .ok (u, s')) :
    i = 0 ∨ Inside file data offset 36 := by
  unfold markInput at run
  by_cases first : i = 0
  · exact Or.inl first
  · rw [if_neg first] at run
    obtain ⟨outpoint, s1, read, -⟩ := run_bind_ok.mp run
    exact Or.inr (readOutpoint_isOk.mp ⟨outpoint, (run_lift_ok.mp read).1⟩)

theorem parseInputs_of_run (small : file.length < 2 ^ 64) {i : Nat} {spender : UInt64} {n : Nat}
    {offset stop : UInt64}
    (run : (parseInputs file h data i spender n offset).run s = .ok (stop, s')) :
    InputsAt file data i n offset stop := by
  induction n generalizing offset s with
  | zero =>
    obtain ⟨rfl, -⟩ := run_pure_ok.mp run
    exact .nil offset
  | succ n ih =>
    obtain ⟨u, s1, marked, run⟩ := run_bind_ok.mp run
    obtain ⟨⟨scriptLen, behind⟩, s2, script, run⟩ := run_bind_ok.mp run
    exact .cons (markInput_of_run marked) ((parseVarInt_iff small).mp (run_lift_ok.mp script).1)
      (ih run)

/-- The parts of a transaction, as the parser reads them. -/
theorem txAt_of_parts (small : file.length < 2 ^ 64) {i : Nat}
    {start spender nTxin inputs inputsEnd nTxout outputs outputsEnd : UInt64} {bytes : List UInt8}
    (inCount : parseVarInt file data (start + 4) = .ok (nTxin, inputs))
    (ins : (parseInputs file h data i spender nTxin.toNat inputs).run s = .ok (inputsEnd, s'))
    (outCount : parseVarInt file data inputsEnd = .ok (nTxout, outputs))
    (outs : parseOutputs file data nTxout.toNat outputs = .ok outputsEnd)
    (read : readBytes file (data + start) (outputsEnd + 4 - start).toNat = .ok bytes) :
    TxAt file data i start (outputsEnd + 4) := by
  have text := (readBytes_ok read).2
  refine ⟨nTxin, inputs, inputsEnd, nTxout, outputs, outputsEnd, (parseVarInt_iff small).mp inCount,
    parseInputs_of_run small ins, (parseVarInt_iff small).mp outCount,
    (parseOutputs_iff small _ _ _).mp outs, rfl, ?_⟩
  exact text.imp (fun none => UInt64.toNat_inj.mp none) id

theorem parseTx_of_run (small : file.length < 2 ^ 64) {outerOffset : UInt64} {capacity i : Nat}
    {start stop : UInt64} {hash : BzUint256}
    (run : (parseTx sha256 file h data outerOffset capacity i start).run s =
      .ok ((stop, hash), s')) :
    i < capacity ∧ TxAt file data i start stop := by
  unfold parseTx at run
  obtain ⟨⟨nTxin, inputs⟩, s1, inCount, run⟩ := run_bind_ok.mp run
  obtain ⟨inputsEnd, s2, ins, run⟩ := run_bind_ok.mp run
  obtain ⟨⟨nTxout, outputs⟩, s3, outCount, run⟩ := run_bind_ok.mp run
  obtain ⟨outputsEnd, s4, outs, run⟩ := run_bind_ok.mp run
  obtain ⟨bytes, s5, read, run⟩ := run_bind_ok.mp run
  split at run
  · rename_i room
    obtain ⟨u, s6, -, returned⟩ := run_bind_ok.mp run
    obtain ⟨pair, -⟩ := run_pure_ok.mp returned
    cases pair
    exact ⟨room, txAt_of_parts small (run_lift_ok.mp inCount).1 ins (run_lift_ok.mp outCount).1
      (run_lift_ok.mp outs).1 (run_lift_ok.mp read).1⟩
  · exact absurd run run_throw

theorem parseTxs_of_run (small : file.length < 2 ^ 64) {outerOffset : UInt64}
    {capacity n i : Nat} {start stop : UInt64} {txHashes txHashes' : List BzUint256}
    (run : (parseTxs sha256 file h data outerOffset capacity n i start txHashes).run s =
      .ok ((stop, txHashes'), s')) :
    TxsAt file data i n start stop ∧ txHashes'.length = txHashes.length + n ∧
      (n = 0 ∨ i + n < 2 ^ 31) := by
  induction n generalizing i start txHashes s with
  | zero =>
    obtain ⟨pair, -⟩ := run_pure_ok.mp run
    cases pair
    exact ⟨.nil i _, rfl, Or.inl rfl⟩
  | succ n ih =>
    obtain ⟨⟨next, hash⟩, s1, first, run⟩ := run_bind_ok.mp run
    obtain ⟨u, s2, counted, run⟩ := run_bind_ok.mp run
    obtain ⟨rest, count, few⟩ := ih run
    have small_i : i + 1 < 2 ^ 31 := by
      have ok := (run_lift_ok.mp counted).1
      unfold checkInt at ok
      split at ok
      · assumption
      · cases ok
    rw [List.length_append, List.length_singleton] at count
    exact ⟨.cons (parseTx_of_run small first).2 rest, by omega, Or.inr (by omega)⟩

theorem bzingBlockAdd_of_run (small : file.length < 2 ^ 64) {blkNo : UInt32}
    {outerOffset maxLen : UInt64} {added : BlockAdded}
    (run : (bzingBlockAdd sha256 file h blkNo outerOffset data maxLen).run s =
      .ok (added, s')) : BlockAt file data added.actualLen := by
  unfold bzingBlockAdd at run
  obtain ⟨header, s1, readHeader, run⟩ := run_bind_ok.mp run
  obtain ⟨u, s2, -, run⟩ := run_bind_ok.mp run
  obtain ⟨⟨nTx, txs⟩, s3, count, run⟩ := run_bind_ok.mp run
  obtain ⟨⟨stop, txHashes⟩, s4, parsed, run⟩ := run_bind_ok.mp run
  obtain ⟨root, s5, merkle, run⟩ := run_bind_ok.mp run
  obtain ⟨field, s6, -, returned⟩ := run_bind_ok.mp run
  obtain ⟨rfl, -⟩ := run_pure_ok.mp returned
  have inside := (readBytes_ok (run_lift_ok.mp readHeader).1).2
  obtain ⟨parts, length, few⟩ := parseTxs_of_run small parsed
  rw [List.length_nil, Nat.zero_add] at length
  have few : nTx.toNat < 2 ^ 31 := by omega
  have merkle := (run_lift_ok.mp merkle).1
  rw [calcMerkleRoot_eq sha256 length few] at merkle
  have room : treeSize nTx.toNat < 2 ^ 31 := by
    by_contra large
    rw [if_neg large] at merkle
    cases merkle
  exact ⟨by omega, nTx, txs, (parseVarInt_iff small).mp (run_lift_ok.mp count).1, parts, room⟩

theorem markInput_yields {i : Nat} {offset : UInt64} (spender : UInt64)
    (outpoint : i = 0 ∨ Inside file data offset 36) :
    Yields (fun _ h => markInput file h i (data + offset) spender) () := by
  unfold markInput
  by_cases first : i = 0
  · simp only [first, if_true]
    exact yields_pure ()
  · simp only [first, if_false]
    obtain ⟨read, ok⟩ := readOutpoint_isOk.mpr (outpoint.resolve_left first)
    exact yields_bind (yields_lift ok) (yields_op _)

theorem parseInputs_yields (small : file.length < 2 ^ 64) {i n : Nat} (spender : UInt64)
    {offset stop : UInt64} (inputs : InputsAt file data i n offset stop) :
    Yields (fun _ h => parseInputs file h data i spender n offset) stop := by
  induction inputs with
  | nil offset => exact yields_pure offset
  | cons outpoint script rest ih =>
    exact yields_bind (markInput_yields spender outpoint)
      (yields_bind (yields_lift ((parseVarInt_iff small).mpr script)) ih)

theorem TxAt.parts (small : file.length < 2 ^ 64) {i : Nat} {start stop : UInt64}
    (tx : TxAt file data i start stop) :
    ∃ nTxin inputs inputsEnd nTxout outputs outputsEnd bytes,
      parseVarInt file data (start + 4) = .ok (nTxin, inputs) ∧
      InputsAt file data i nTxin.toNat inputs inputsEnd ∧
      parseVarInt file data inputsEnd = .ok (nTxout, outputs) ∧
      parseOutputs file data nTxout.toNat outputs = .ok outputsEnd ∧ stop = outputsEnd + 4 ∧
      readBytes file (data + start) (outputsEnd + 4 - start).toNat = .ok bytes := by
  obtain ⟨nTxin, inputs, inputsEnd, nTxout, outputs, outputsEnd, inCount, ins, outCount, outs,
    rfl, text⟩ := tx
  obtain ⟨bytes, read⟩ := readBytes_isOk.mpr
    (text.imp (fun none => UInt64.toNat_inj.mpr none) id)
  exact ⟨nTxin, inputs, inputsEnd, nTxout, outputs, outputsEnd, bytes,
    (parseVarInt_iff small).mpr inCount, ins, (parseVarInt_iff small).mpr outCount,
    (parseOutputs_iff small _ _ _).mpr outs, rfl, read⟩

variable (sha256) in
theorem parseTx_yields (small : file.length < 2 ^ 64) (outerOffset : UInt64) {capacity i : Nat}
    {start stop : UInt64} (room : i < capacity) (tx : TxAt file data i start stop) :
    ∃ hash, Yields (fun _ h => parseTx sha256 file h data outerOffset capacity i start)
      (stop, hash) := by
  obtain ⟨nTxin, inputs, inputsEnd, nTxout, outputs, outputsEnd, bytes, inCount, ins, outCount,
    outs, rfl, read⟩ := tx.parts small
  refine ⟨doubleSha256 sha256 bytes, ?_⟩
  unfold parseTx
  apply yields_bind (yields_lift inCount)
  apply yields_bind (parseInputs_yields small _ ins)
  apply yields_bind (yields_lift outCount)
  apply yields_bind (yields_lift outs)
  apply yields_bind (yields_lift read)
  simp only [room, if_true]
  exact yields_bind (yields_op _) (yields_pure _)

variable (sha256) in
theorem parseTxs_yields (small : file.length < 2 ^ 64) (outerOffset : UInt64)
    {capacity n i : Nat} {start stop : UInt64} (txHashes : List BzUint256)
    (room : i + n ≤ capacity) (few : i + n < 2 ^ 31) (txs : TxsAt file data i n start stop) :
    ∃ txHashes', txHashes'.length = txHashes.length + n ∧
      Yields (fun _ h => parseTxs sha256 file h data outerOffset capacity n i start txHashes)
        (stop, txHashes') := by
  induction txs generalizing txHashes with
  | nil i offset => exact ⟨txHashes, rfl, yields_pure _⟩
  | @cons i n start next stop tx rest ih =>
    have inside : i < capacity := by omega
    obtain ⟨hash, first⟩ := parseTx_yields sha256 small outerOffset inside tx
    obtain ⟨txHashes', length, others⟩ := ih (txHashes ++ [hash]) (by omega) (by omega)
    rw [List.length_append, List.length_singleton] at length
    have counted : checkInt (i + 1) = .ok () := checkInt_ok (by omega)
    exact ⟨txHashes', by omega, yields_bind first (yields_bind (yields_lift counted) others)⟩

variable (sha256) in
theorem bzingBlockAdd_yields (small : file.length < 2 ^ 64) (blkNo : UInt32)
    (outerOffset maxLen : UInt64) {len : UInt64} (block : BlockAt file data len) :
    ∃ added, added.actualLen = len ∧
      Yields (fun _ h => bzingBlockAdd sha256 file h blkNo outerOffset data maxLen) added := by
  obtain ⟨inside, nTx, txs, count, parts, room⟩ := block
  have leaf := le_treeSize nTx.toNat
  have capacity : (32 * nTx).toNat / 32 = nTx.toNat := by
    rw [hashes_allocated, Nat.mod_eq_of_lt (by omega)]
  obtain ⟨header, readHeader⟩ := readBytes_isOk.mpr (Or.inr inside)
  obtain ⟨txHashes, length, parsed⟩ := parseTxs_yields sha256 small outerOffset []
    (by omega : 0 + nTx.toNat ≤ (32 * nTx).toNat / 32) (by omega) parts
  rw [List.length_nil, Nat.zero_add] at length
  have root := calcMerkleRoot_eq sha256 length (by omega)
  rw [if_pos room] at root
  have skip : (data + 36).toNat = data.toNat + 36 := toNat_add_ofNat (k := 36) (by omega)
  obtain ⟨field, readField⟩ := readBytes_isOk.mpr
    (Or.inr (by omega : (data + 36).toNat + 32 ≤ file.length))
  refine ⟨⟨len, (merkleRoot sha256 txHashes).d8 != field⟩, rfl, ?_⟩
  unfold bzingBlockAdd
  apply yields_bind (yields_lift readHeader)
  apply yields_bind (yields_op _)
  apply yields_bind (yields_lift ((parseVarInt_iff small).mpr count))
  apply yields_bind parsed
  apply yields_bind (yields_lift root)
  exact yields_bind (yields_lift readField) (yields_pure _)

theorem VarIntAt.bounds {offset v next : UInt64} (varInt : VarIntAt file data offset v next) :
    ∃ k, 1 ≤ k ∧ next = offset + UInt64.ofNat k ∧ (data + offset).toNat + k ≤ file.length := by
  obtain ⟨text, form, holds, rfl⟩ := varInt
  have nonempty : text ≠ [] := by
    cases form <;> simp
  exact ⟨text.length, List.length_pos_iff.mpr nonempty, rfl, holds.length_le nonempty⟩

/-- Text between two offsets that lies in the file is the distance between them long. -/
theorem TxAt.bounds {i : Nat} {start stop : UInt64} (small : file.length < 2 ^ 63)
    (before : data.toNat + start.toNat ≤ file.length) (tx : TxAt file data i start stop) :
    start.toNat ≤ stop.toNat ∧ data.toNat + stop.toNat ≤ file.length := by
  obtain ⟨_, _, _, _, _, _, -, -, -, -, -, text⟩ := tx
  have there : stop = start + (stop - start) := by
    rw [UInt64.add_comm, UInt64.sub_add_cancel]
  have here : (data + start).toNat = data.toNat + start.toNat := by
    rw [UInt64.toNat_add, Nat.mod_eq_of_lt (by omega)]
  rcases text with none | inside
  · rw [none, UInt64.add_zero] at there
    rw [there]
    exact ⟨Nat.le_refl _, before⟩
  · have sum : stop.toNat = start.toNat + (stop - start).toNat := by
      conv_lhs => rw [there]
      rw [UInt64.toNat_add, Nat.mod_eq_of_lt (by omega)]
    omega

theorem TxsAt.bounds {n i : Nat} {start stop : UInt64} (small : file.length < 2 ^ 63)
    (before : data.toNat + start.toNat ≤ file.length) (txs : TxsAt file data i n start stop) :
    start.toNat ≤ stop.toNat ∧ data.toNat + stop.toNat ≤ file.length := by
  induction txs with
  | nil => exact ⟨Nat.le_refl _, before⟩
  | cons tx rest ih =>
    obtain ⟨le, inside⟩ := tx.bounds small before
    obtain ⟨le', inside'⟩ := ih inside
    exact ⟨Nat.le_trans le le', inside'⟩

/-- However the cursor moved, it ends behind the count and in the file. -/
theorem TextAt.bounds {len : UInt64} (small : file.length < 2 ^ 63)
    (text : TextAt file data len) :
    81 ≤ len.toNat ∧ data.toNat + len.toNat ≤ file.length := by
  obtain ⟨header, nTx, txs, n, count, parts⟩ := text
  obtain ⟨k, pos, rfl, inside⟩ := count.bounds
  have here : (data + 80).toNat = data.toNat + 80 := toNat_add_ofNat (k := 80) (by omega)
  have start : (80 + UInt64.ofNat k).toNat = 80 + k := by
    have eighty : (80 : UInt64).toNat = 80 := by rfl
    rw [toNat_add_ofNat (by omega), eighty]
  obtain ⟨le, inside⟩ := parts.bounds small (by omega)
  omega

theorem BlockAt.text {len : UInt64} (block : BlockAt file data len) : TextAt file data len := by
  obtain ⟨header, nTx, txs, count, parts, -⟩ := block
  exact ⟨header, nTx, txs, nTx.toNat, count, parts⟩

/-- A block lies in the file. -/
theorem BlockAt.bounds {len : UInt64} (small : file.length < 2 ^ 63)
    (block : BlockAt file data len) :
    81 ≤ len.toNat ∧ data.toNat + len.toNat ≤ file.length := block.text.bounds small

end Parts

/-! ## The whole file -/

section Regen

variable {sha256 : List UInt8 → BzUint256} {file : List UInt8}

/-- One turn of the loop, when its reads lie in the file. -/
theorem frame_bounds {offset len : UInt64} (small : file.length < 2 ^ 63)
    (more : offset < UInt64.ofNat file.length - 1) (text : TextAt file (offset + 8) len) :
    (offset + 8).toNat = offset.toNat + 8 ∧
      (offset + 8 + len).toNat = offset.toNat + 8 + len.toNat ∧ 81 ≤ len.toNat ∧
      offset.toNat + 8 + len.toNat ≤ file.length := by
  obtain ⟨long, inside⟩ := text.bounds small
  have one : (1 : UInt64).toNat = 1 := by rfl
  have length : (UInt64.ofNat file.length).toNat = file.length := by
    rw [UInt64.toNat_ofNat', Nat.mod_eq_of_lt (by omega)]
  have last : (UInt64.ofNat file.length - 1).toNat = file.length - 1 := by
    have le : (1 : UInt64) ≤ UInt64.ofNat file.length := by
      rw [UInt64.le_iff_toNat_le, length, one]
      omega
    rw [UInt64.toNat_sub_of_le _ _ le, length, one]
  have more := UInt64.lt_iff_toNat_lt.mp more
  have skip : (offset + 8).toNat = offset.toNat + 8 := toNat_add_ofNat (k := 8) (by omega)
  refine ⟨skip, ?_, long, by omega⟩
  rw [UInt64.toNat_add, skip, Nat.mod_eq_of_lt (by omega)]

theorem regenLoop_of_run (small : file.length < 2 ^ 63) {σ : Type}
    {h : Handler IndexOp σ Fault} {s s' : σ} {fuel : Nat} {nBlocks : UInt32}
    {offset : UInt64} {result : UInt64 × List BlockCall}
    (run : (regenLoop sha256 file h (UInt64.ofNat file.length) fuel nBlocks offset).run s =
      .ok (some result, s')) : FramesAt file offset := by
  induction fuel generalizing nBlocks offset result s s' with
  | zero =>
    obtain ⟨none, -⟩ := run_pure_ok.mp run
    cases none
  | succ fuel ih =>
    unfold regenLoop at run
    by_cases more : offset < UInt64.ofNat file.length - 1
    · rw [if_pos more] at run
      obtain ⟨added, s1, block, run⟩ := run_bind_ok.mp run
      obtain ⟨rest, s2, others, returned⟩ := run_bind_ok.mp run
      obtain ⟨mapped, -⟩ := run_pure_ok.mp returned
      cases rest with
      | none => cases mapped
      | some rest => exact .frame more (bzingBlockAdd_of_run (by omega) block) (ih others)
    · exact .stop more

variable (sha256) in
theorem regenLoop_yields (small : file.length < 2 ^ 63) {offset : UInt64}
    (frames : FramesAt file offset) {fuel : Nat} (nBlocks : UInt32)
    (enough : file.length - offset.toNat < fuel) :
    ∃ stop calls, (∀ call ∈ calls, call.added.actualLen ≤ call.maxLen) ∧
      Yields (fun _ h =>
        regenLoop sha256 file h (UInt64.ofNat file.length) fuel nBlocks offset)
        (some (stop, calls)) := by
  induction frames generalizing fuel nBlocks with
  | @stop offset done =>
    obtain ⟨fuel, rfl⟩ : ∃ k, fuel = k + 1 := ⟨fuel - 1, by omega⟩
    refine ⟨offset, [], by simp, ?_⟩
    unfold regenLoop
    simp only [done, if_false]
    exact yields_pure _
  | @frame offset len more block rest ih =>
    obtain ⟨skip, next, long, inside⟩ := frame_bounds small more block.text
    obtain ⟨fuel, rfl⟩ : ∃ k, fuel = k + 1 := ⟨fuel - 1, by omega⟩
    obtain ⟨added, rfl, yields⟩ := bzingBlockAdd_yields sha256 (by omega)
      (nBlocks + 1) (offset + 8) (UInt64.ofNat file.length - (offset + 8)) block
    obtain ⟨stop, calls, bounded, others⟩ := ih (nBlocks + 1)
      (by omega : file.length - (offset + 8 + added.actualLen).toNat < fuel)
    refine ⟨stop, ⟨nBlocks + 1, offset + 8, UInt64.ofNat file.length - (offset + 8), added⟩ ::
      calls, ?_, ?_⟩
    · have length : (UInt64.ofNat file.length).toNat = file.length := by
        rw [UInt64.toNat_ofNat', Nat.mod_eq_of_lt (by omega)]
      have behind : offset + 8 ≤ UInt64.ofNat file.length := by
        rw [UInt64.le_iff_toNat_le, length]
        omega
      intro call member
      rcases List.mem_cons.mp member with rfl | member
      · change added.actualLen ≤ UInt64.ofNat file.length - (offset + 8)
        rw [UInt64.le_iff_toNat_le, UInt64.toNat_sub_of_le _ _ behind, length]
        omega
      · exact bounded call member
    · unfold regenLoop
      simp only [more, if_true]
      exact yields_bind yields (yields_bind others (yields_pure _))

/-- Every turn advances by at least 89 bytes inside the file, so fuel for every byte lasts. -/
theorem regenLoop_isSome (small : file.length < 2 ^ 63) {σ : Type}
    {h : Handler IndexOp σ Fault} {s s' : σ} {fuel : Nat} {nBlocks : UInt32} {offset : UInt64}
    {result : Option (UInt64 × List BlockCall)} (enough : file.length - offset.toNat < fuel)
    (run : (regenLoop sha256 file h (UInt64.ofNat file.length) fuel nBlocks offset).run s =
      .ok (result, s')) : result.isSome := by
  induction fuel generalizing nBlocks offset result s s' with
  | zero => omega
  | succ fuel ih =>
    unfold regenLoop at run
    by_cases more : offset < UInt64.ofNat file.length - 1
    · rw [if_pos more] at run
      obtain ⟨added, s1, block, run⟩ := run_bind_ok.mp run
      obtain ⟨rest, s2, others, returned⟩ := run_bind_ok.mp run
      obtain ⟨rfl, -⟩ := run_pure_ok.mp returned
      obtain ⟨-, next, long, inside⟩ :=
        frame_bounds small more (bzingBlockAdd_of_run (by omega) block).text
      have some := ih (by omega) others
      rw [Option.isSome_map]
      exact some
    · rw [if_neg more] at run
      obtain ⟨rfl, -⟩ := run_pure_ok.mp run
      rfl

/-- Whatever the index, every byte read lies in the file, the run ends, and every length
    reported is at most the `max_len` of its call. A read outside the file has no result. -/
def StaysInside (sha256 : List UInt8 → BzUint256) (file : List UInt8) : Prop :=
  ∃ stop calls, Yields (fun _ h => bzingIndexRegen sha256 file h) (some (stop, calls)) ∧
    ∀ call ∈ calls, call.added.actualLen ≤ call.maxLen

/-- The files that are read inside their bounds are those that consist of frames. -/
theorem staysInside_iff (small : file.length < 2 ^ 63) :
    StaysInside sha256 file ↔ FramesAt file 0 := by
  have zero : (0 : UInt64).toNat = 0 := by rfl
  constructor
  · rintro ⟨stop, calls, yields, -⟩
    obtain ⟨ops, written⟩ := yields.script
    exact regenLoop_of_run small written
  · intro frames
    obtain ⟨stop, calls, bounded, yields⟩ := regenLoop_yields sha256 small frames 0
      (by omega : file.length - (0 : UInt64).toNat < file.length + 1)
    exact ⟨stop, calls, yields, bounded⟩

end Regen

/-- A frame of a block without transactions. -/
theorem staysInside_one_block :
    StaysInside (fun _ => .zero) (List.replicate 89 0) := by
  refine (staysInside_iff (by simp)).mpr (@FramesAt.frame _ 0 81 (by decide) ?_ (.stop (by decide)))
  have count : HoldsAt (List.replicate 89 0) 88 [0] :=
    holdsAt_of_append (List.replicate 88 0) [0] []
  refine ⟨by decide, 0, 81, ⟨[0], .one 0 (by decide), count, rfl⟩, .nil 0 81, ?_⟩
  rw [treeSize_le_one (by decide)]
  decide

/-- Half a header behind the eight bytes of a frame is read past the end. -/
theorem not_staysInside_truncated :
    ¬ ∃ sha256, StaysInside sha256 (List.replicate 50 0) := by
  rintro ⟨sha256, inside⟩
  cases (staysInside_iff (by simp)).mp inside with
  | stop done => exact done (by decide)
  | frame more block rest => exact absurd block.1 (by decide)

end Bzing
