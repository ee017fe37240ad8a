import FirstIslamicCoin.Consensus.Params

/-!
# Context-free transaction checks

`CheckTransaction` of `consensus/tx_check.cpp`, and what a transaction that
passes it is known to satisfy.
-/

namespace FirstIslamicCoin

open Outcome ByteCodec

/-- `TxValidationResult`, the results that consensus code reports. -/
inductive TxValidationResult where
  | txConsensus
  | txMissingInputs
  | txPrematureSpend
  deriving DecidableEq, Repr

abbrev TxFailure := Failure TxValidationResult

def maxBlockWeight : ℕ := 4000000
def maxBlockSigOpsCost : ℕ := 80000
def witnessScaleFactor : ℕ := 4

def txInvalid (rejectReason : String) : TxFailure :=
  .invalid .txConsensus rejectReason

variable {mode : Overflow}

/-- One pass of the output loop of `CheckTransaction`. -/
def checkOutput (mode : Overflow) (tx : CTransaction) (nValueOut : CAmount)
    (out : CTxOut) : Except TxFailure CAmount := do
  require (!(out.isEmpty && !tx.isCoinBase && !tx.isCoinStake))
    (txInvalid "bad-txns-vout-empty")
  require (decide (0 ≤ out.nValue)) (txInvalid "bad-txns-vout-negative")
  require (decide (out.nValue ≤ maxMoney)) (txInvalid "bad-txns-vout-toolarge")
  addWithinRoom mode (txInvalid "bad-txns-txouttotal-toolarge") .overflowed
    nValueOut out.nValue

/-- The last test of `CheckTransaction`, on the inputs. -/
def checkPrevouts (tx : CTransaction) : Except TxFailure Unit :=
  if tx.isCoinBase then
    require (tx.vin.all fun txin =>
        decide (2 ≤ txin.scriptSig.length) && decide (txin.scriptSig.length ≤ 100))
      (txInvalid "bad-cb-length")
  else
    require (tx.vin.all fun txin => !txin.prevout.isNull)
      (txInvalid "bad-txns-prevout-null")

def checkTransaction (mode : Overflow) (tx : CTransaction) :
    Except TxFailure Unit := do
  require (!tx.vin.isEmpty) (txInvalid "bad-txns-vin-empty")
  require (!tx.vout.isEmpty) (txInvalid "bad-txns-vout-empty")
  require (decide (tx.strippedSize * witnessScaleFactor ≤ maxBlockWeight))
    (txInvalid "bad-txns-oversize")
  let _ ← loop (checkOutput mode tx) 0 tx.vout
  require (decide tx.prevouts.Nodup) (txInvalid "bad-txns-inputs-duplicate")
  checkPrevouts tx

structure CheckedTransaction (tx : CTransaction) : Prop where
  vin_ne_nil : tx.vin ≠ []
  vout_ne_nil : tx.vout ≠ []
  strippedSize_le : tx.strippedSize ≤ 1000000
  value_nonneg : ∀ out ∈ tx.vout, 0 ≤ out.value
  totalOut_lt : tx.totalOut < 2 ^ 63
  nodup_prevouts : tx.prevouts.Nodup
  prevouts_not_null : tx.isCoinBase = false →
    ∀ txin ∈ tx.vin, txin.prevout.isNull = false

theorem checkOutput_eq_ok {tx : CTransaction} {nValueOut result : CAmount} {out : CTxOut}
    (hsum : 0 ≤ nValueOut.toInt) (hcheck : checkOutput mode tx nValueOut out = .ok result) :
    0 ≤ out.value ∧ result.toInt = nValueOut.toInt + out.value := by
  simp only [checkOutput, require_bind_eq_ok, decide_eq_true_eq] at hcheck
  obtain ⟨_, hnonneg, _, hadd⟩ := hcheck
  have hvalue : 0 ≤ out.nValue.toInt := Int64.le_iff_toInt_le.mp hnonneg
  rw [addWithinRoom_eq hsum hvalue] at hadd
  split_ifs at hadd with hfits
  have hrange : Overflow.InRange (nValueOut.toInt + out.nValue.toInt) := by
    constructor <;> omega
  rw [Except.ok.injEq] at hadd
  rw [← hadd, Overflow.toInt_ofInt hrange]
  exact ⟨hvalue, rfl⟩

theorem checkOutputs_eq_ok {tx : CTransaction} {outs : List CTxOut} {nValueOut result : CAmount}
    (hsum : 0 ≤ nValueOut.toInt) (hrun : loop (checkOutput mode tx) nValueOut outs = .ok result) :
    (∀ out ∈ outs, 0 ≤ out.value) ∧
      result.toInt = nValueOut.toInt + (outs.map CTxOut.value).sum := by
  induction outs generalizing nValueOut with
  | nil =>
    obtain rfl : nValueOut = result := by simpa using hrun
    simp
  | cons out outs ih =>
    obtain ⟨next, hstep, hrest⟩ := loop_cons_eq_ok.mp hrun
    obtain ⟨hnonneg, hnext⟩ := checkOutput_eq_ok hsum hstep
    obtain ⟨hall, hresult⟩ := ih (by omega) hrest
    refine ⟨?_, ?_⟩
    · intro other hmem
      rcases List.mem_cons.mp hmem with rfl | htail
      · exact hnonneg
      · exact hall other htail
    · rw [List.map_cons, List.sum_cons]
      omega

theorem checkTransaction_eq_ok {tx : CTransaction}
    (hcheck : checkTransaction mode tx = .ok ()) : CheckedTransaction tx := by
  simp only [checkTransaction, bind_eq_ok, require_eq_ok, exists_unit, decide_eq_true_eq] at hcheck
  obtain ⟨hvin, hvout, hsize, total, houts, hnodup, hprevouts⟩ := hcheck
  obtain ⟨hnonneg, htotal⟩ := checkOutputs_eq_ok (by decide) houts
  refine ⟨by simpa using hvin, by simpa using hvout, ?_, hnonneg, ?_, hnodup, ?_⟩
  · simp only [witnessScaleFactor, maxBlockWeight] at hsize
    omega
  · have hlt := total.toInt_lt
    rw [CTransaction.totalOut]
    rw [Int64.toInt_zero] at htotal
    omega
  · intro hnot txin hmem
    simp only [checkPrevouts, hnot, Bool.false_eq_true, if_false, require_eq_ok,
      List.all_eq_true, Bool.not_eq_true'] at hprevouts
    exact hprevouts txin hmem

/-- No sum that `CheckTransaction` forms depends on what an overflow does. -/
theorem checkTransaction_mode (first second : Overflow) (tx : CTransaction) :
    checkTransaction first tx = checkTransaction second tx := by
  have houts : loop (checkOutput first tx) 0 tx.vout = loop (checkOutput second tx) 0 tx.vout := by
    refine loop_congr (fun _ current => 0 ≤ current.toInt) ?_ ?_ (by decide)
    · intro out _ current hcurrent
      rw [checkOutput, checkOutput]
      by_cases hnonneg : 0 ≤ out.nValue
      · have hvalue : 0 ≤ out.nValue.toInt := Int64.le_iff_toInt_le.mp hnonneg
        simp only [addWithinRoom_eq hcurrent hvalue]
      · simp [hnonneg]
    · intro out _ current next hcurrent hstep
      obtain ⟨hnonneg, hnext⟩ := checkOutput_eq_ok hcurrent hstep
      omega
  simp only [checkTransaction, houts]

section Size

theorem length_le_length_flatMap {α : Type} {encode : α → Bytes}
    {values : List α} (hpos : ∀ value, 0 < (encode value).length) :
    values.length ≤ (values.flatMap encode).length := by
  induction values with
  | nil => simp
  | cons value values ih =>
    have hhead := hpos value
    simp only [List.flatMap_cons, List.length_append, List.length_cons]
    omega

theorem length_writeCompactSize_le (nSize : ℕ) : (writeCompactSize nSize).length ≤ 9 := by
  rw [writeCompactSize]
  split_ifs <;> simp

/-- A transaction is little more than its inputs and outputs. -/
theorem strippedSize_le (tx : CTransaction) :
    tx.strippedSize ≤ (tx.vin.flatMap serializeTxIn).length +
      (tx.vout.flatMap serializeTxOut).length + 30 := by
  have hinSize := length_writeCompactSize_le tx.vin.length
  have houtSize := length_writeCompactSize_le tx.vout.length
  have htime : (if tx.nVersion < 2 then serializeUInt32 tx.nTime else []).length ≤ 4 := by
    split_ifs <;> simp [serializeUInt32]
  simp only [CTransaction.strippedSize, serializeTransaction, serializeVector,
    List.length_append, Bool.false_and, Bool.false_eq_true, if_false, List.length_nil,
    serializeInt32, serializeUInt32, length_littleEndian] at htime ⊢
  omega

/-- A transaction has at most as many outputs as it has bytes. -/
theorem length_vout_le_strippedSize (tx : CTransaction) :
    tx.vout.length ≤ tx.strippedSize := by
  have houts : tx.vout.length ≤ (tx.vout.flatMap serializeTxOut).length := by
    apply length_le_length_flatMap
    intro out
    simp [serializeTxOut, serializeInt64]
  simp only [CTransaction.strippedSize, serializeTransaction, serializeVector, List.length_append]
  omega

theorem length_vin_le_strippedSize (tx : CTransaction) :
    tx.vin.length ≤ tx.strippedSize := by
  have hins : tx.vin.length ≤ (tx.vin.flatMap serializeTxIn).length := by
    apply length_le_length_flatMap
    intro txin
    simp [serializeTxIn, serializeUInt32]
  simp only [CTransaction.strippedSize, serializeTransaction, serializeVector, List.length_append]
  omega

theorem CheckedTransaction.length_vin_le {tx : CTransaction}
    (hchecked : CheckedTransaction tx) : tx.vin.length ≤ 1000000 :=
  (length_vin_le_strippedSize tx).trans hchecked.strippedSize_le

theorem CheckedTransaction.length_vout_le {tx : CTransaction}
    (hchecked : CheckedTransaction tx) : tx.vout.length ≤ 1000000 :=
  (length_vout_le_strippedSize tx).trans hchecked.strippedSize_le

end Size

end FirstIslamicCoin
