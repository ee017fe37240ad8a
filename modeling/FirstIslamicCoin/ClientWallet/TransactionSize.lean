import FirstIslamicCoin.ClientWallet.Signature
import FirstIslamicCoin.Validation.MinimumFee

/-!
# Sizes of wallet transactions

The number of bytes of a transaction the wallets write, which is its virtual size, and the
fee `GetMinFee` asks for it.  The counts of inputs and outputs, and the length of each
script, are written in one, three, five or nine bytes.
-/

namespace FirstIslamicCoin

section Floor

variable {params : Params} {nTime : ℤ}

/-- `GetMinFee` after the switch, for any size: sizes beyond 32 bits count as the largest. -/
theorem toInt_getMinFee_min (hnonneg : 0 ≤ nTime) (hlt : nTime < 2 ^ 32)
    (hswitch : params.isProtocolV3_1 nTime = true) (virtualSize : ℕ) :
    (getMinFee params virtualSize nTime).toInt = minimumFee (min virtualSize 0xffffffff) := by
  by_cases hsize : virtualSize < 2 ^ 32
  · rw [toInt_getMinFee hnonneg hlt hswitch hsize, Nat.min_eq_left (by omega)]
  · have hcapped : getMinFee params virtualSize nTime = getMinFee params 0xffffffff nTime := by
      have hmin : min virtualSize 0xffffffff = 0xffffffff := Nat.min_eq_right (by omega)
      have hlarge : ¬virtualSize ≤ 100 := by omega
      rw [getMinFee, getMinFee, hmin, Nat.min_self, if_neg hlarge]
      rfl
    rw [hcapped, toInt_getMinFee hnonneg hlt hswitch (by decide), Nat.min_eq_right (by omega)]

theorem minimumFee_mono {small large : ℕ} (hle : small ≤ large) :
    minimumFee small ≤ minimumFee large := by
  rw [minimumFee, minimumFee]
  split_ifs <;> omega

end Floor

namespace ClientWallet

open ByteCodec

section Bytes

theorem length_varInt_of_lt {n : ℕ} (hn : n < 0xfd) : (varInt n).length = 1 := by
  rw [varInt, if_pos hn]
  rfl

theorem length_serializeInput {input : TxInput} (htxid : input.prevTxid.length = 32) :
    (serializeInput input).length =
      40 + (varInt input.scriptSig.length).length + input.scriptSig.length := by
  simp only [serializeInput, uint32le, List.length_append, length_littleEndian, htxid]
  omega

def outputBytes (outputs : List TxOutputSpec) : ℕ :=
  (outputs.map fun output => (serializeOutput output).length).sum

/-- The bytes of a transaction whose inputs take so many bytes each. -/
def sizeWith (inputs inputBytes : ℕ) (outputs : List TxOutputSpec) : ℕ :=
  8 + (varInt inputs).length + (varInt outputs.length).length + inputs * inputBytes +
    outputBytes outputs

/-- The fee for a transaction with inputs. -/
theorem minimumFee_sizeWith {inputs inputBytes : ℕ} (hinputs : 0 < inputs)
    (hbytes : 100 < inputBytes) (outputs : List TxOutputSpec) :
    minimumFee (min (sizeWith inputs inputBytes outputs) 0xffffffff) =
      100 * (min (sizeWith inputs inputBytes outputs) 0xffffffff : ℕ) := by
  have hlarge : ¬min (sizeWith inputs inputBytes outputs) 0xffffffff ≤ 100 := by
    have hone := Nat.le_mul_of_pos_left inputBytes hinputs
    rw [sizeWith]
    omega
  rw [minimumFee, if_neg hlarge]

theorem length_serializeTx (inputs : List TxInput) (outputs : List TxOutputSpec)
    (version locktime : ℤ) :
    (serializeTx version inputs outputs locktime).length =
      8 + (varInt inputs.length).length + (varInt outputs.length).length +
        (inputs.map fun input => (serializeInput input).length).sum + outputBytes outputs := by
  simp only [serializeTx, uint32le, List.length_append, length_littleEndian, List.length_flatMap,
    outputBytes]
  omega

variable {inputs : List TxInput} {inputBytes : ℕ}

theorem length_serializeTx_le (hinputs : ∀ input ∈ inputs, (serializeInput input).length ≤ inputBytes)
    (outputs : List TxOutputSpec) (version locktime : ℤ) :
    (serializeTx version inputs outputs locktime).length ≤
      sizeWith inputs.length inputBytes outputs := by
  have hsum : (inputs.map fun input => (serializeInput input).length).sum ≤
      inputs.length * inputBytes := by
    have hbound := List.sum_le_card_nsmul (inputs.map fun input => (serializeInput input).length)
      inputBytes (List.forall_mem_map.mpr hinputs)
    rwa [List.length_map, smul_eq_mul] at hbound
  rw [length_serializeTx, sizeWith]
  omega

theorem length_serializeTx_eq (hinputs : ∀ input ∈ inputs, (serializeInput input).length = inputBytes)
    (outputs : List TxOutputSpec) (version locktime : ℤ) :
    (serializeTx version inputs outputs locktime).length =
      sizeWith inputs.length inputBytes outputs := by
  rw [length_serializeTx, sizeWith, List.map_congr_left hinputs, List.map_const', List.sum_replicate,
    smul_eq_mul]

/-- Without witnesses the virtual size is the number of bytes. -/
theorem getVirtualTransactionSize_nodeTransaction
    (htxids : ∀ input ∈ inputs, input.prevTxid.length = 32) (outputs : List TxOutputSpec)
    (locktime : ℤ) :
    getVirtualTransactionSize (nodeTransaction inputs outputs locktime) =
      (serializeTx 2 inputs outputs locktime).length := by
  rw [getVirtualTransactionSize, getTransactionWeight, CTransaction.strippedSize,
    CTransaction.totalSize, ← serializeTx_eq false htxids, ← serializeTx_eq true htxids,
    witnessScaleFactor]
  omega

end Bytes

section Signatures

variable {platform : Platform} {signature : ℕ × ℕ}

/-- The numbers of a signature with a low second number, where the wallet relies on that. -/
structure Signable (platform : Platform) (signature : ℕ × ℕ) : Prop where
  r : 1 ≤ signature.1 ∧ signature.1 < curveOrder
  s : 1 ≤ signature.2 ∧ signature.2 < curveOrder
  low : platform = .web → signature.2 ≤ curveOrder / 2

theorem Signable.length_sigWithType_le (hsignable : Signable platform signature) :
    (sigWithType platform signature).length ≤ 72 := by
  have hlow := lowS_eq_min hsignable.s.2 hsignable.low
  have hodd : curveOrder = 2 * (curveOrder / 2) + 1 := by decide
  have hs := hsignable.s
  have hlowPos : 0 < platform.lowS signature.2 := by omega
  have hlowLe : platform.lowS signature.2 ≤ curveOrder / 2 := by omega
  have hrLength : (derContent signature.1).length ≤ 33 :=
    length_derContent_le hsignable.r.1 (hsignable.r.2.trans (by decide))
  have hsLength : (derContent (platform.lowS signature.2)).length ≤ 32 :=
    length_derContent_le hlowPos (hlowLe.trans_lt (by decide))
  rw [sigWithType, derEncodeSignature_eq, List.length_append, length_derSignature,
    List.length_singleton]
  omega

def longSignature : ℕ × ℕ := (curveOrder - 1, curveOrder / 2)

theorem signable_longSignature (platform : Platform) : Signable platform longSignature :=
  ⟨by decide, by decide, fun _ => by decide⟩

theorem length_sigWithType_longSignature (platform : Platform) :
    (sigWithType platform longSignature).length = 72 := by
  have hlow : platform.lowS longSignature.2 = curveOrder / 2 := by
    cases platform <;> decide
  rw [sigWithType, derEncodeSignature_eq, hlow]
  decide_cbv

theorem length_p2pkhScriptSig (signature : ℕ × ℕ) {publicKey : Bytes}
    (hkey : publicKey.length = 33) :
    (p2pkhScriptSig platform signature publicKey).length =
      35 + (sigWithType platform signature).length := by
  rw [p2pkhScriptSig, List.cons_append, List.length_cons, List.length_append, List.length_cons, hkey]
  omega

end Signatures

end ClientWallet

end FirstIslamicCoin
