import FirstIslamicCoin.Chain.BlockIndex
import FirstIslamicCoin.Consensus.Coins
import FirstIslamicCoin.Consensus.TxCheck

/-!
# Contextual transaction checks

`consensus/tx_verify.cpp`: finality and relative lock times, the cost of
signature operations, the minimum fee, and `CheckTxInputs`, which decides
whether a transaction may spend the coins it names and what fee it pays.
-/

namespace FirstIslamicCoin

open Outcome

section LockTime

variable {Result : Type}

/-- The last invalid height and time of one input, joined to those of the
inputs before it. -/
def sequenceLock (params : Params) (pindex : IndexChain) (locks : ℤ × ℤ)
    (entry : CTxIn × ℤ) : Except (Failure Result) (ℤ × ℤ) :=
  let nSequence := entry.1.nSequence
  let span : ℤ := (nSequence &&& 0xffff).toNat
  if nSequence &&& 0x80000000 != 0 then .ok locks
  else if nSequence &&& 0x400000 != 0 then
    match pindex.getAncestor (max (entry.2 - 1) 0) with
    | [] => .error .aborted
    | ancestor => .ok (locks.1,
        max locks.2 (IndexChain.getMedianTimePast params ancestor + span * 2 ^ 9 - 1))
  else .ok (max locks.1 (entry.2 + span - 1), locks.2)

/-- `CalculateSequenceLocks`; the version is compared as an unsigned
number. -/
def calculateSequenceLocks (params : Params) (tx : CTransaction)
    (enforce : Bool) (prevHeights : List ℤ) (pindex : IndexChain) :
    Except (Failure Result) (ℤ × ℤ) :=
  if enforce && decide (2 ≤ tx.nVersion.toUInt32) then
    loop (sequenceLock params pindex) (-1, -1) (tx.vin.zip prevHeights)
  else .ok (-1, -1)

def sequenceLocks (params : Params) (tx : CTransaction) (enforce : Bool)
    (prevHeights : List ℤ) (pindex : IndexChain) :
    Except (Failure Result) Bool := do
  let locks ← calculateSequenceLocks params tx enforce prevHeights pindex
  require (!pindex.tail.isEmpty) .aborted
  .ok (decide (locks.1 < pindex.height) &&
    decide (locks.2 < IndexChain.getMedianTimePast params pindex.tail))

end LockTime

section SigOps

def getLegacySigOpCount (tx : CTransaction) : ℕ :=
  (tx.vin.map fun txin => CScript.getSigOpCount false txin.scriptSig).sum +
    (tx.vout.map fun out => CScript.getSigOpCount false out.scriptPubKey).sum

/-- The sum of a count over the inputs whose coin is in the view. -/
def sumOverInputs (view : CoinsView) (tx : CTransaction)
    (count : CTxIn → CTxOut → ℕ) : ℕ :=
  (tx.vin.map fun txin =>
    ((view.lookup txin.prevout).map fun coin => count txin coin.out).getD 0).sum

def getP2SHSigOpCount (tx : CTransaction) (view : CoinsView) : ℕ :=
  if tx.isCoinBase then 0
  else sumOverInputs view tx fun txin prevout =>
    if CScript.isPayToScriptHash prevout.scriptPubKey then
      CScript.getSigOpCountSpending prevout.scriptPubKey txin.scriptSig
    else 0

def getTransactionSigOpCost (tx : CTransaction) (view : CoinsView)
    (flags : UInt32) : ℕ :=
  let nSigOps := getLegacySigOpCount tx * witnessScaleFactor
  if tx.isCoinBase then nSigOps
  else
    nSigOps +
      (if flags &&& CScript.scriptVerifyP2SH != 0 then
        getP2SHSigOpCount tx view * witnessScaleFactor
      else 0) +
      sumOverInputs view tx fun txin prevout =>
        CScript.countWitnessSigOps txin.scriptSig prevout.scriptPubKey
          txin.scriptWitness flags

end SigOps

section MinimumFee

def minTxFee : CAmount := 10000
def txFeePerKB : ℤ := 100000
def defaultMinRelayTxFee : ℤ := 100000

def getTransactionWeight (tx : CTransaction) : ℕ :=
  tx.strippedSize * (witnessScaleFactor - 1) + tx.totalSize

/-- `GetVirtualTransactionSize` without a signature-operation cost. -/
def getVirtualTransactionSize (tx : CTransaction) : ℕ :=
  (getTransactionWeight tx + witnessScaleFactor - 1) / witnessScaleFactor

/-- `CFeeRate::GetFee`: a rate per thousand bytes, rounded up.  For the rates
used here the floating-point quotient is exact. -/
def getFee (nSatoshisPerK : ℤ) (numBytes : ℕ) : ℤ :=
  let nFee := -((-(nSatoshisPerK * numBytes)) / 1000)
  if nFee = 0 ∧ numBytes ≠ 0 then
    if 0 < nSatoshisPerK then 1 else if nSatoshisPerK < 0 then -1 else nFee
  else nFee

/-- `GetMinFee`.  The time is narrowed to 32 bits by the parameter type. -/
def getMinFee (params : Params) (nBytes : ℕ) (nTime : ℤ) : CAmount :=
  let nBytesForFee := min nBytes 0xffffffff
  let nMinFee :=
    if params.isProtocolV3_1 (nTime % 2 ^ 32) then
      if nBytes ≤ 100 then minTxFee else Int64.ofInt (getFee txFeePerKB nBytesForFee)
    else Int64.ofInt (getFee defaultMinRelayTxFee nBytesForFee)
  if moneyRange nMinFee then nMinFee else maxMoney

end MinimumFee

section Inputs

variable (params : Params) (mode : Overflow)

/-- The time `CheckTxInputs` takes a transaction to be from: its own, or the
node's clock for a transaction of version 2 or more that carries none. -/
def nTimeTx (now : ℤ) (tx : CTransaction) : ℤ :=
  if tx.nTime = 0 ∧ 2 ≤ tx.nVersion then now else tx.nTime.toNat

/-- The depth `CheckTxInputs` demands.  Before version 3.1 it is read from
`Params()`, which inside `namespace Consensus` names the type, not the global
function, and so is a fresh value. -/
def requiredDepth (nTimeTx : ℤ) : ℤ :=
  if params.isProtocolV3_1 nTimeTx then params.nCoinbaseMaturity
  else Params.valueInitialised.nCoinbaseMaturity

/-- The tests of `CheckTxInputs` on one coin, and the sum so far. -/
def checkCoin (nSpendHeight nTimeTx : ℤ) (nValueIn : CAmount) (coin : Coin) :
    Except TxFailure CAmount := do
  require (!((coin.fCoinBase || coin.fCoinStake) && coin.height != 0 &&
      decide (nSpendHeight - coin.height < requiredDepth params nTimeTx)))
    (.invalid .txPrematureSpend "bad-txns-premature-spend-of-coinbase")
  require (decide ((coin.nTime.toNat : ℤ) ≤ nTimeTx))
    (txInvalid "bad-txns-time-earlier-than-input")
  accumulate mode (txInvalid "bad-txns-inputvalues-outofrange") .overflowed
    nValueIn coin.out.nValue

def checkInput (view : CoinsView) (nSpendHeight nTimeTx : ℤ)
    (nValueIn : CAmount) (outpoint : COutPoint) : Except TxFailure CAmount :=
  match view.lookup outpoint with
  | none => .error .aborted
  | some coin => checkCoin params mode nSpendHeight nTimeTx nValueIn coin

/-- The fee part of `CheckTxInputs`, which a coinstake skips. -/
def checkFee (tx : CTransaction) (nTimeTx : ℤ) (nValueIn txfee : CAmount) :
    Except TxFailure CAmount :=
  if tx.isCoinStake then .ok txfee
  else do
    let valueOut ← tx.getValueOut mode
    require (decide (valueOut ≤ nValueIn)) (txInvalid "bad-txns-in-belowout")
    let txfeeAux ← mode.sub .overflowed nValueIn valueOut
    require (moneyRange txfeeAux) (txInvalid "bad-txns-fee-outofrange")
    require (!(params.isProtocolV3_1 nTimeTx && decide
        (txfeeAux < getMinFee params (getVirtualTransactionSize tx) nTimeTx)))
      (txInvalid "bad-txns-fee-not-enough")
    .ok txfeeAux

/-- `Consensus::CheckTxInputs`; the result is the value `txfee` ends up
with. -/
def checkTxInputs (now : ℤ) (tx : CTransaction) (view : CoinsView)
    (nSpendHeight : ℤ) (txfee : CAmount) : Except TxFailure CAmount := do
  require (view.haveInputs tx)
    (.invalid .txMissingInputs "bad-txns-inputs-missingorspent")
  let nValueIn ← loop
    (checkInput params mode view nSpendHeight (nTimeTx now tx)) 0 tx.prevouts
  checkFee params mode tx (nTimeTx now tx) nValueIn txfee

end Inputs

section Accepted

variable {params : Params} {mode : Overflow} {view : CoinsView}
  {tx : CTransaction} {now nSpendHeight : ℤ} {txfee fee : CAmount}

/-- The tests on one coin, as a proposition. -/
structure MaySpend (params : Params) (nSpendHeight nTimeTx : ℤ)
    (coin : Coin) : Prop where
  mature : (coin.fCoinBase = true ∨ coin.fCoinStake = true) → coin.height ≠ 0 →
    requiredDepth params nTimeTx ≤ nSpendHeight - coin.height
  nTime_le : (coin.nTime.toNat : ℤ) ≤ nTimeTx
  value_nonneg : 0 ≤ coin.value

theorem checkCoin_eq_ok {nTimeTx : ℤ} {nValueIn result : CAmount} {coin : Coin}
    (hsum : 0 ≤ nValueIn.toInt) :
    checkCoin params mode nSpendHeight nTimeTx nValueIn coin = .ok result ↔
      MaySpend params nSpendHeight nTimeTx coin ∧
        result.toInt = nValueIn.toInt + coin.value := by
  simp only [checkCoin, bind_eq_ok, require_eq_ok, exists_unit, accumulate_eq_ok hsum, Bool.not_eq_true', decide_eq_true_eq,
    Bool.and_eq_false_iff, Bool.or_eq_false_iff, bne_eq_false_iff_eq, decide_eq_false_iff_not]
  constructor
  · rintro ⟨hmature, htime, hnonneg, hresult⟩
    refine ⟨⟨?_, htime, hnonneg⟩, hresult⟩
    intro hkind hheight
    rcases hmature with (hplain | hzero) | hdeep
    · rcases hkind with hcoinbase | hcoinstake
      · simp [hcoinbase] at hplain
      · simp [hcoinstake] at hplain
    · exact absurd hzero hheight
    · omega
  · rintro ⟨⟨hmature, htime, hnonneg⟩, hresult⟩
    refine ⟨?_, htime, hnonneg, hresult⟩
    by_cases hkind : coin.fCoinBase = true ∨ coin.fCoinStake = true
    · by_cases hheight : coin.height = 0
      · exact .inl (.inr hheight)
      · have hdeep := hmature hkind hheight
        exact .inr (by omega)
    · rw [not_or, Bool.not_eq_true, Bool.not_eq_true] at hkind
      exact .inl (.inl hkind)

theorem sum_weightAt_nonneg_of_exists {outpoints : List COutPoint}
    (hcoins : ∀ outpoint ∈ outpoints, ∃ coin, view.lookup outpoint = some coin ∧ 0 ≤ coin.value) :
    0 ≤ (outpoints.map (FiniteMap.weightAt Coin.value view)).sum := by
  apply FiniteMap.sum_weightAt_nonneg
  intro outpoint hmem coin hlookup
  obtain ⟨found, hfound, hnonneg⟩ := hcoins outpoint hmem
  obtain rfl : found = coin := by simpa [hlookup] using hfound.symm
  exact hnonneg

theorem sum_weightAt_nonneg_of_maySpend {nTimeTx : ℤ} {outpoints : List COutPoint}
    (hcoins : ∀ outpoint ∈ outpoints, ∃ coin, view.lookup outpoint = some coin ∧
      MaySpend params nSpendHeight nTimeTx coin) :
    0 ≤ (outpoints.map (FiniteMap.weightAt Coin.value view)).sum :=
  sum_weightAt_nonneg_of_exists fun outpoint hmem => (hcoins outpoint hmem).imp
    fun _ hcoin => ⟨hcoin.1, hcoin.2.value_nonneg⟩

theorem checkInputs_eq_ok {nTimeTx : ℤ} {outpoints : List COutPoint}
    {nValueIn result : CAmount} (hsum : 0 ≤ nValueIn.toInt) :
    loop (checkInput params mode view nSpendHeight nTimeTx) nValueIn outpoints = .ok result ↔
      (∀ outpoint ∈ outpoints, ∃ coin, view.lookup outpoint = some coin ∧
        MaySpend params nSpendHeight nTimeTx coin) ∧
      result.toInt = nValueIn.toInt + (outpoints.map (FiniteMap.weightAt Coin.value view)).sum := by
  induction outpoints generalizing nValueIn with
  | nil =>
    simp only [loop_nil, Except.ok.injEq, List.not_mem_nil, false_implies,
      implies_true, List.map_nil, List.sum_nil, add_zero, true_and]
    rw [← Int64.toInt_inj]
    exact eq_comm
  | cons outpoint outpoints ih =>
    rw [loop_cons_eq_ok, List.forall_mem_cons, List.map_cons, List.sum_cons]
    cases hlookup : view.lookup outpoint with
    | none => simp [checkInput, hlookup]
    | some coin =>
      have hweight := FiniteMap.weightAt_of_lookup Coin.value hlookup
      simp only [checkInput, hlookup, checkCoin_eq_ok hsum,
        Option.some.injEq, exists_eq_left', hweight]
      constructor
      · rintro ⟨next, ⟨hspend, hnext⟩, hrest⟩
        have hnonneg := hspend.value_nonneg
        obtain ⟨hall, hresult⟩ := (ih (by omega)).mp hrest
        exact ⟨⟨hspend, hall⟩, by omega⟩
      · rintro ⟨⟨hspend, hall⟩, hresult⟩
        have hnonneg := hspend.value_nonneg
        have hrestNonneg := sum_weightAt_nonneg_of_maySpend hall
        have hlt := result.toInt_lt
        have hrange : Overflow.InRange (nValueIn.toInt + coin.value) := by
          constructor <;> omega
        have hnext := Overflow.toInt_ofInt hrange
        refine ⟨Int64.ofInt (nValueIn.toInt + coin.value), ⟨hspend, hnext⟩, ?_⟩
        exact (ih (by omega)).mpr ⟨hall, by omega⟩

/-- What the fee part establishes outside a coinstake: the value in covers the
outputs and, after version 3.1, the minimum fee. -/
structure PaysFee (params : Params) (tx : CTransaction) (nTimeTx valueIn : ℤ)
    (fee : CAmount) : Prop where
  value_nonneg : ∀ out ∈ tx.vout, 0 ≤ out.value
  covers : tx.totalOut ≤ valueIn
  fee_eq : fee.toInt = valueIn - tx.totalOut
  minimum : params.isProtocolV3_1 nTimeTx = true →
    (getMinFee params (getVirtualTransactionSize tx) nTimeTx).toInt ≤ fee.toInt

theorem checkFee_eq_ok {nTimeTx : ℤ} {nValueIn : CAmount}
    (hsum : 0 ≤ nValueIn.toInt) (hnot : tx.isCoinStake = false) :
    checkFee params mode tx nTimeTx nValueIn txfee = .ok fee ↔
      PaysFee params tx nTimeTx nValueIn.toInt fee := by
  have hlt := nValueIn.toInt_lt
  simp only [checkFee, hnot, Bool.false_eq_true, if_false, bind_eq_ok,
    require_eq_ok, exists_unit, decide_eq_true_eq,
    Except.ok.injEq, moneyRange_eq_true, Bool.not_eq_true',
    Bool.and_eq_false_iff, decide_eq_false_iff_not, Int64.le_iff_toInt_le, Int64.lt_iff_toInt_lt]
  constructor
  · rintro ⟨valueOut, hvalueOut, hcovers, aux, haux, hnonneg, hminimum, rfl⟩
    obtain ⟨houts, hvalue⟩ := CTransaction.getValueOut_eq_ok hvalueOut
    have hrange : Overflow.InRange (nValueIn.toInt - valueOut.toInt) := by
      have houtNonneg := valueOut.le_toInt
      have hmod := Overflow.toInt_of_store_eq_ok haux
      rw [Int.bmod] at hmod
      constructor <;> omega
    have hfee := Overflow.toInt_of_sub_eq_ok hrange haux
    refine ⟨houts, by omega, by omega, ?_⟩
    intro hswitch
    rcases hminimum with hoff | hpaid
    · simp [hswitch] at hoff
    · omega
  · rintro ⟨houts, hcovers, hfee, hminimum⟩
    have houtNonneg := CTransaction.totalOut_nonneg houts
    obtain ⟨valueOut, hvalue, hvalueOut⟩ := CTransaction.getValueOut_of_fits houts (by omega)
    have hrange : Overflow.InRange (nValueIn.toInt - valueOut.toInt) := by
      constructor <;> omega
    refine ⟨valueOut, hvalueOut, by omega, fee, ?_, by omega, ?_, rfl⟩
    · rw [Overflow.sub_of_inRange hrange, Except.ok.injEq, ← Int64.toInt_inj,
        Overflow.toInt_ofInt hrange]
      omega
    · cases hswitch : params.isProtocolV3_1 nTimeTx with
      | false => exact .inl rfl
      | true => exact .inr (by have := hminimum hswitch; omega)

theorem checkTxInputs_eq_ok :
    checkTxInputs params mode now tx view nSpendHeight txfee = .ok fee ↔
      (∀ outpoint ∈ tx.prevouts, ∃ coin, view.lookup outpoint = some coin ∧
        MaySpend params nSpendHeight (nTimeTx now tx) coin) ∧
      view.valueIn tx < 2 ^ 63 ∧
      (tx.isCoinStake = true → txfee = fee) ∧
      (tx.isCoinStake = false →
        PaysFee params tx (nTimeTx now tx) (view.valueIn tx) fee) := by
  simp only [checkTxInputs, bind_eq_ok, require_eq_ok, exists_unit, checkInputs_eq_ok (show 0 ≤ (0 : CAmount).toInt by decide),
    Int64.toInt_zero, zero_add]
  constructor
  · rintro ⟨_, nValueIn, ⟨hcoins, hvalueIn⟩, hfee⟩
    have hnonneg := sum_weightAt_nonneg_of_maySpend hcoins
    rw [CoinsView.valueIn]
    refine ⟨hcoins, hvalueIn ▸ nValueIn.toInt_lt, ?_, ?_⟩
    · intro hstake
      simpa [checkFee, hstake] using hfee
    · intro hnot
      rw [← hvalueIn]
      exact (checkFee_eq_ok (by omega) hnot).mp hfee
  · rintro ⟨hcoins, hlt, hstakeFee, hfee⟩
    have hnonneg : 0 ≤ view.valueIn tx := sum_weightAt_nonneg_of_maySpend hcoins
    have hrange : Overflow.InRange (view.valueIn tx) := by
      constructor <;> omega
    have hvalueIn := Overflow.toInt_ofInt hrange
    refine ⟨?_, Int64.ofInt (view.valueIn tx), ⟨hcoins, hvalueIn⟩, ?_⟩
    · rw [CoinsView.haveInputs, Bool.or_eq_true, List.all_eq_true]
      right
      intro outpoint hmem
      obtain ⟨coin, hlookup, _⟩ := hcoins outpoint hmem
      simp [CoinsView.haveCoin, hlookup]
    · cases hstake : tx.isCoinStake with
      | true => simp [checkFee, hstake, hstakeFee hstake]
      | false =>
        rw [checkFee_eq_ok (by omega) hstake, hvalueIn]
        exact hfee hstake

/-- No sum that `CheckTxInputs` forms depends on what an overflow does. -/
theorem checkTxInputs_mode (first second : Overflow)
    (hrun : checkTxInputs params first now tx view nSpendHeight txfee = .ok fee) :
    checkTxInputs params second now tx view nSpendHeight txfee = .ok fee :=
  checkTxInputs_eq_ok.mpr (checkTxInputs_eq_ok.mp hrun)

end Accepted

end FirstIslamicCoin
