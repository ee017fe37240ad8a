import FirstIslamicCoin.Wallet.Solver

/-!
# Standard transactions

`IsStandardTx` of `policy/policy.cpp` with what it calls: the type of every output, and
whether an output is worth spending.  An output is dust when it is worth less than the relay
fee for its own bytes and for those of the input that will spend it.
-/

namespace FirstIslamicCoin

open ByteCodec Outcome

section Dust

def dustRelayTxFee : ℤ := 100000

/-- The bytes of the input that will spend an output, with the discount for a witness. -/
def spendingInputSize (scriptPubKey : CScript) : ℕ :=
  if scriptPubKey.witnessProgram.isSome then 32 + 4 + 1 + 107 / witnessScaleFactor + 4
  else 32 + 4 + 1 + 107 + 4

def getDustThreshold (txout : CTxOut) (dustRelayFee : ℤ) : ℤ :=
  if txout.scriptPubKey.isUnspendable then 0
  else getFee dustRelayFee ((serializeTxOut txout).length + spendingInputSize txout.scriptPubKey)

def isDust (txout : CTxOut) (dustRelayFee : ℤ) : Bool :=
  decide (txout.nValue.toInt < getDustThreshold txout dustRelayFee)

end Dust

section Standard

/-- The mempool options `IsStandardTx` is called with. -/
structure StandardPolicy where
  maxDatacarrierBytes : Option ℕ := some 223
  permitBareMultisig : Bool := true
  dustRelayFee : ℤ := dustRelayTxFee
  witnessEnabled : Bool := true

def TxoutType.isWitness : TxoutType → Bool
  | .witnessV0Scripthash | .witnessV0Keyhash | .witnessV1Taproot | .witnessUnknown => true
  | _ => false

/-- Up to three keys are standard in a bare multisig script. -/
def standardMultisig (solutions : List Bytes) : Bool :=
  let m := (solutions.headD []).headD 0
  let n := (solutions.getLastD []).headD 0
  decide (1 ≤ n ∧ n ≤ 3) && decide (1 ≤ m ∧ m ≤ n)

variable (policy : StandardPolicy)

/-- `IsStandard`: the type of a script that is standard. -/
def isStandard (scriptPubKey : CScript) : Option TxoutType :=
  let (whichType, solutions) := solver scriptPubKey
  let standard := match whichType with
    | .nonstandard => false
    | .multisig => standardMultisig solutions
    | .nullData => policy.maxDatacarrierBytes.any fun limit => decide (scriptPubKey.length ≤ limit)
    | _ => policy.witnessEnabled || !whichType.isWitness
  if standard then some whichType else none

/-- The body of the loop over the outputs; the number counts the data outputs. -/
def checkStandardOutput (nDataOut : ℕ) (txout : CTxOut) : Except String ℕ :=
  match isStandard policy txout.scriptPubKey with
  | none => .error "scriptpubkey"
  | some .nullData => .ok (nDataOut + 1)
  | some whichType =>
      if whichType = .multisig ∧ policy.permitBareMultisig = false then .error "bare-multisig"
      else if isDust txout policy.dustRelayFee then .error "dust"
      else .ok nDataOut

variable {policy}

end Standard

end FirstIslamicCoin
