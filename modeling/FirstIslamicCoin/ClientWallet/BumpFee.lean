import FirstIslamicCoin.ClientWallet.CoinSelection
import FirstIslamicCoin.ClientWallet.Hex
import FirstIslamicCoin.Core.Outcome
import Mathlib.Logic.Relation

/-!
# Bumping the fee of a sent transaction

`buildBumpFeeTransaction` of `crypto.js` and `transaction.dart`: the record of a sent
transaction is spent again with a higher fee, which the first change output pays.  The
mobile wallet subtracts in 64 bits.  The web wallet subtracts doubles: the new change is the
nearest double to what it should be.
-/

namespace FirstIslamicCoin.ClientWallet

open ByteCodec Outcome

section Records

structure SentTxInput where
  /-- In display order, reversed. -/
  txid : Utf16
  vout : ℤ
  valueSatoshis : ℤ

structure SentTxOutput where
  scriptPubKeyHex : Utf16
  valueSatoshis : ℤ
  isChange : Bool

structure SentTxRecord where
  inputs : List SentTxInput
  outputs : List SentTxOutput
  feeSatoshis : ℤ

def Platform.hexToBytes : Platform → Utf16 → Except String Bytes
  | .web, hex => .ok (Web.hexToBytes hex)
  | .mobile, hex => Mobile.hexToBytes hex

def Platform.subtract : Platform → ℤ → ℤ → ℤ
  | .web, left, right => roundToDouble (left - right)
  | .mobile, left, right => (left - right).bmod (2 ^ 64)

def Platform.missingInputKey : Platform → String
  | .web => "TypeError"
  | .mobile => "RangeError"

variable (platform : Platform) (hash160 : Bytes → Bytes)

def SentTxInput.toUtxo (input : SentTxInput) (txid : Bytes) (keys : Bytes × Bytes) : Utxo where
  txid := txid.reverse
  vout := input.vout
  pubkeyHash := hash160 keys.2
  privateKey := some keys.1
  publicKeyCompressed := some keys.2

def bumpInputs : List SentTxInput → List (Bytes × Bytes) → Except String (List Utxo)
  | [], _ => .ok []
  | _ :: _, [] => .error platform.missingInputKey
  | input :: inputs, keys :: others => do
      let txid ← platform.hexToBytes input.txid
      let rest ← bumpInputs inputs others
      return input.toUtxo hash160 txid keys :: rest

def bumpOutput (output : SentTxOutput) : Except String TxOutputSpec := do
  let script ← platform.hexToBytes output.scriptPubKeyHex
  return ⟨script, output.valueSatoshis⟩

def noChangeOutput : String :=
  "This transaction has no change output to reduce -- can't bump its fee automatically here."

variable (doubleSha256 : Bytes → Bytes) (sign : Sign)

def buildBumpFeeTransaction (record : SentTxRecord) (newFeeSatoshis : ℤ)
    (inputKeys : List (Bytes × Bytes)) : Except String (Bytes × List SentTxOutput) :=
  match record.outputs.findIdx? SentTxOutput.isChange with
  | none => .error noChangeOutput
  | some changeIndex =>
      let feeIncrease := platform.subtract newFeeSatoshis record.feeSatoshis
      let changeValue := (record.outputs[changeIndex]?.map SentTxOutput.valueSatoshis).getD 0
      let newChangeValue := platform.subtract changeValue feeIncrease
      if newChangeValue ≤ 0 then .error "Not enough change left to cover a higher fee."
      else do
        let newOutputs := record.outputs.modify changeIndex fun output =>
          { output with valueSatoshis := newChangeValue }
        let inputs ← bumpInputs platform hash160 record.inputs inputKeys
        let outputs ← newOutputs.mapM (bumpOutput platform)
        let rawTx ← buildAndSignTransaction platform doubleSha256 sign inputs
          ⟨outputs, none, none, 0⟩
        return (rawTx, newOutputs)

end Records

section Meaning

/-- A record as the wallets write it. -/
structure SentTxRecord.WellFormed (record : SentTxRecord) : Prop where
  txids : ∀ input ∈ record.inputs, IsHex input.txid ∧ input.txid.length = 64
  vouts : ∀ input ∈ record.inputs, 0 ≤ input.vout ∧ input.vout < 2 ^ 32
  scripts : ∀ output ∈ record.outputs,
    IsHex output.scriptPubKeyHex ∧ output.scriptPubKeyHex.length ≤ 2 * maxSize

structure SentTxRecord.AmountsBelow (record : SentTxRecord) (bound : ℤ) : Prop where
  inputs : ∀ input ∈ record.inputs, 0 ≤ input.valueSatoshis ∧ input.valueSatoshis < bound
  outputs : ∀ output ∈ record.outputs, 0 ≤ output.valueSatoshis ∧ output.valueSatoshis < bound
  fee : 0 ≤ record.feeSatoshis ∧ record.feeSatoshis < bound

def inputTotal (inputs : List SentTxInput) : ℤ := (inputs.map SentTxInput.valueSatoshis).sum

def outputTotal (outputs : List SentTxOutput) : ℤ := (outputs.map SentTxOutput.valueSatoshis).sum

def SentTxRecord.Balanced (record : SentTxRecord) : Prop :=
  inputTotal record.inputs = outputTotal record.outputs + record.feeSatoshis

def SentTxRecord.bumped (record : SentTxRecord) (newFeeSatoshis : ℤ)
    (newOutputs : List SentTxOutput) : SentTxRecord :=
  ⟨record.inputs, newOutputs, newFeeSatoshis⟩

/-- The first change output stands between other outputs. -/
structure FirstChange (outputs before : List SentTxOutput) (change : SentTxOutput)
    (after : List SentTxOutput) : Prop where
  split : outputs = before ++ change :: after
  others : ∀ output ∈ before, output.isChange = false
  isChange : change.isChange = true

/-- A replacement spends what was recorded, pays the others what they were paid and leaves
the new fee. -/
structure Replaces (record : SentTxRecord) (newFeeSatoshis : ℤ) (rawTx : Bytes)
    (newOutputs : List SentTxOutput) : Prop where
  outputs : ∃ before change after newValue, FirstChange record.outputs before change after ∧
    0 < newValue ∧
    newOutputs = before ++ { change with valueSatoshis := newValue } :: after
  transaction : ∃ tx, rawTx = serializeTransaction true tx ∧
    List.Forall₂ (fun (input : SentTxInput) (txin : CTxIn) =>
      serializeUInt256 txin.prevout.hash = (hexBytes input.txid).reverse ∧
        (txin.prevout.n.toNat : ℤ) = input.vout) record.inputs tx.vin ∧
    List.Forall₂ (fun (output : SentTxOutput) (txout : CTxOut) =>
      txout.scriptPubKey = hexBytes output.scriptPubKeyHex ∧
        txout.nValue.toInt = output.valueSatoshis) newOutputs tx.vout
  leaves : inputTotal record.inputs - outputTotal newOutputs = newFeeSatoshis
  balanced : (record.bumped newFeeSatoshis newOutputs).Balanced

variable {platform : Platform} {hash160 doubleSha256 : Bytes → Bytes} {sign : Sign}
  {record : SentTxRecord} {newFee : ℤ} {inputKeys : List (Bytes × Bytes)}
  {before after : List SentTxOutput} {change : SentTxOutput}

theorem FirstChange.findIdx?_eq {outputs : List SentTxOutput}
    (hfirst : FirstChange outputs before change after) :
    outputs.findIdx? SentTxOutput.isChange = some before.length := by
  rw [hfirst.split, List.findIdx?_append, List.findIdx?_eq_none_iff.mpr (by simpa using hfirst.others),
    List.findIdx?_cons, hfirst.isChange]
  simp

theorem exists_firstChange {outputs : List SentTxOutput} {index : ℕ}
    (hindex : outputs.findIdx? SentTxOutput.isChange = some index) :
    ∃ before change after, FirstChange outputs before change after := by
  obtain ⟨hlt, hchange, hothers⟩ := List.findIdx?_eq_some_iff_getElem.mp hindex
  refine ⟨outputs.take index, outputs[index], outputs.drop (index + 1), ?_, ?_, hchange⟩
  · rw [← List.drop_eq_getElem_cons hlt, List.take_append_drop]
  · intro output hmem
    obtain ⟨position, hposition, rfl⟩ := List.mem_take_iff_getElem.mp hmem
    exact Bool.eq_false_iff.mpr (hothers position (by omega))

theorem Platform.hexToBytes_eq {text : Utf16} (htext : IsHex text) :
    platform.hexToBytes text = .ok (hexBytes text) := by
  cases platform with
  | web => rw [Platform.hexToBytes, Web.hexToBytes_eq htext]
  | mobile => exact Mobile.hexToBytes_eq htext

end Meaning

section Amounts

variable {platform : Platform} {changeValue fee newFee : ℤ}

def Platform.newChangeValue (platform : Platform) (changeValue fee newFee : ℤ) : ℤ :=
  platform.subtract changeValue (platform.subtract newFee fee)

/-- The new change is a double: on the web it is computed as one. -/
def Platform.ChangeExact (platform : Platform) (changeValue fee newFee : ℤ) : Prop :=
  platform = .web → changeValue + fee - newFee ≤ 2 ^ 53 ∨ 2 ∣ changeValue + fee - newFee

/-- A fee not below the recorded one always leaves a double. -/
theorem changeExact_of_le (hchange : changeValue ≤ 2 ^ 53) (hfee : fee ≤ newFee) :
    platform.ChangeExact changeValue fee newFee :=
  fun _ => .inl (by omega)

theorem Mobile.newChangeValue_eq (hchange : 0 ≤ changeValue) (hfee : 0 ≤ fee)
    (htotal : changeValue + fee < 2 ^ 54) (hnew : 0 ≤ newFee) (hrange : newFee < 2 ^ 63) :
    Platform.mobile.newChangeValue changeValue fee newFee = changeValue + fee - newFee := by
  have hbmod : ∀ value : ℤ, -2 ^ 63 ≤ value → value < 2 ^ 63 → value.bmod (2 ^ 64) = value := by
    intro value hlow hhigh
    exact Int.bmod_eq_of_le (by norm_num; exact hlow) (by norm_num; exact hhigh)
  rw [Platform.newChangeValue, Platform.subtract, Platform.subtract,
    hbmod (newFee - fee) (by omega) (by omega), hbmod _ (by omega) (by omega)]
  ring

/-- The web wallet either finds too little change or, when it is a double, the right one. -/
theorem Web.newChangeValue_eq_iff (hchange : 0 ≤ changeValue ∧ changeValue < 2 ^ 53)
    (hfee : 0 ≤ fee ∧ fee < 2 ^ 53) (hnew : 0 ≤ newFee) :
    (0 < Platform.web.newChangeValue changeValue fee newFee →
        Platform.web.newChangeValue changeValue fee newFee = changeValue + fee - newFee) ↔
      changeValue + fee - newFee ≤ 2 ^ 53 ∨ 2 ∣ changeValue + fee - newFee := by
  by_cases hsmall : newFee - fee ≤ 2 ^ 53
  · have hinner : Platform.web.subtract newFee fee = newFee - fee :=
      roundToDouble_eq_self (by omega) hsmall
    have houter : Platform.web.newChangeValue changeValue fee newFee =
        roundToDouble (changeValue + fee - newFee) := by
      rw [Platform.newChangeValue, hinner, Platform.subtract]
      congr 1
      ring
    have hexact := @roundToDouble_eq_self_iff (changeValue + fee - newFee) (by omega) (by omega)
    rw [houter, ← hexact]
    refine ⟨fun hpositive => ?_, fun hself _ => hself⟩
    by_cases hlarge : 2 ^ 53 ≤ changeValue + fee - newFee
    · have hround := pow_le_roundToDouble hlarge
      exact hpositive (by omega)
    · exact roundToDouble_eq_self (by omega) (by omega)
  · -- the increase alone is at least as much as there is
    have hinner : 2 ^ 53 ≤ Platform.web.subtract newFee fee := pow_le_roundToDouble (by omega)
    have houter : Platform.web.newChangeValue changeValue fee newFee ≤ 0 :=
      roundToDouble_nonpos (by omega)
    exact iff_of_true (fun hpositive => absurd hpositive (not_lt.mpr houter)) (.inl (by omega))

end Amounts

section Building

variable {platform : Platform} {hash160 doubleSha256 : Bytes → Bytes} {sign : Sign}
  {record : SentTxRecord} {newFee newValue : ℤ} {inputKeys : List (Bytes × Bytes)}
  {before after : List SentTxOutput} {change : SentTxOutput}

def bumpUtxos (hash160 : Bytes → Bytes) (inputs : List SentTxInput)
    (inputKeys : List (Bytes × Bytes)) : List Utxo :=
  List.zipWith (fun input keys => input.toUtxo hash160 (hexBytes input.txid) keys) inputs inputKeys

def SentTxOutput.toSpec (output : SentTxOutput) : TxOutputSpec :=
  ⟨hexBytes output.scriptPubKeyHex, output.valueSatoshis⟩

/-- A key for every input, and keys of the right length. -/
structure KeysFor (inputs : List SentTxInput) (inputKeys : List (Bytes × Bytes)) : Prop where
  length : inputKeys.length = inputs.length
  compressed : ∀ keys ∈ inputKeys, keys.2.length = 33

theorem bumpInputs_eq {inputs : List SentTxInput} (hhex : ∀ input ∈ inputs, IsHex input.txid)
    (hlength : inputKeys.length = inputs.length) :
    bumpInputs platform hash160 inputs inputKeys = .ok (bumpUtxos hash160 inputs inputKeys) := by
  induction inputs generalizing inputKeys with
  | nil => rfl
  | cons input inputs ih =>
    obtain ⟨keys, others, rfl⟩ := List.exists_cons_of_length_eq_add_one hlength
    obtain ⟨hfirst, hrest⟩ := List.forall_mem_cons.mp hhex
    rw [bumpInputs, Platform.hexToBytes_eq hfirst, ok_bind, ih hrest (by simpa using hlength)]
    rfl

theorem mapM_bumpOutput {outputs : List SentTxOutput}
    (hhex : ∀ output ∈ outputs, IsHex output.scriptPubKeyHex) :
    outputs.mapM (bumpOutput platform) = .ok (outputs.map SentTxOutput.toSpec) := by
  rw [mapM_eq_ok, List.forall₂_map_right_iff, List.forall₂_same]
  intro output hmem
  rw [bumpOutput, Platform.hexToBytes_eq (hhex output hmem)]
  rfl

def bumpedOutputs (before : List SentTxOutput) (change : SentTxOutput) (newValue : ℤ)
    (after : List SentTxOutput) : List SentTxOutput :=
  before ++ { change with valueSatoshis := newValue } :: after

theorem scripts_bumpedOutputs (hfirst : FirstChange record.outputs before change after)
    {property : Utf16 → Prop} (hall : ∀ output ∈ record.outputs, property output.scriptPubKeyHex) :
    ∀ output ∈ bumpedOutputs before change newValue after, property output.scriptPubKeyHex := by
  rw [hfirst.split] at hall
  intro output hmem
  rcases List.mem_append.mp hmem with hbefore | hrest
  · exact hall output (List.mem_append_left _ hbefore)
  · rcases List.mem_cons.mp hrest with rfl | hafter
    · exact hall change (List.mem_append_right _ List.mem_cons_self)
    · exact hall output (List.mem_append_right _ (List.mem_cons_of_mem _ hafter))

theorem outputTotal_bumpedOutputs (hfirst : FirstChange record.outputs before change after) :
    outputTotal (bumpedOutputs before change newValue after) =
      outputTotal record.outputs - change.valueSatoshis + newValue := by
  rw [hfirst.split, bumpedOutputs, outputTotal, outputTotal]
  simp only [List.map_append, List.map_cons, List.sum_append, List.sum_cons]
  ring

/-- What a bump of a well-formed record does. -/
theorem buildBumpFeeTransaction_eq (hform : record.WellFormed)
    (hkeys : KeysFor record.inputs inputKeys)
    (hfirst : FirstChange record.outputs before change after) :
    buildBumpFeeTransaction platform hash160 doubleSha256 sign record newFee inputKeys =
      let newValue := platform.newChangeValue change.valueSatoshis record.feeSatoshis newFee
      let newOutputs := bumpedOutputs before change newValue after
      if newValue ≤ 0 then .error "Not enough change left to cover a higher fee."
      else do
        let rawTx ← buildAndSignTransaction platform doubleSha256 sign
          (bumpUtxos hash160 record.inputs inputKeys)
          ⟨newOutputs.map SentTxOutput.toSpec, none, none, 0⟩
        return (rawTx, newOutputs) := by
  have hvalue : (record.outputs[before.length]?.map SentTxOutput.valueSatoshis).getD 0 =
      change.valueSatoshis := by
    rw [hfirst.split, List.getElem?_append_right (le_refl _), Nat.sub_self]
    rfl
  have hmodify : ∀ newValue : ℤ, (record.outputs.modify before.length fun output =>
      { output with valueSatoshis := newValue }) = bumpedOutputs before change newValue after := by
    intro newValue
    rw [hfirst.split]
    exact modify_append_cons _ _ _ rfl
  rw [buildBumpFeeTransaction, hfirst.findIdx?_eq]
  dsimp only
  rw [hvalue, ← Platform.newChangeValue, hmodify,
    bumpInputs_eq (fun input hmem => (hform.txids input hmem).1) hkeys.length, ok_bind,
    mapM_bumpOutput (scripts_bumpedOutputs hfirst fun output hmem => (hform.scripts output hmem).1)]
  rfl

theorem buildBumpFeeTransaction_none
    (hnone : ∀ before change after, ¬FirstChange record.outputs before change after) :
    buildBumpFeeTransaction platform hash160 doubleSha256 sign record newFee inputKeys =
      .error noChangeOutput := by
  rw [buildBumpFeeTransaction]
  cases hindex : record.outputs.findIdx? SentTxOutput.isChange with
  | none => rfl
  | some index =>
    obtain ⟨before, change, after, hfirst⟩ := exists_firstChange hindex
    exact absurd hfirst (hnone before change after)

end Building

section Replacement

variable {platform : Platform} {hash160 doubleSha256 : Bytes → Bytes} {sign : Sign}
  {record : SentTxRecord} {newFee newValue : ℤ} {inputKeys : List (Bytes × Bytes)}
  {before after : List SentTxOutput} {change : SentTxOutput}

theorem forall₂_of_zipWith {Left Right Middle Target : Type} {combine : Left → Right → Middle}
    {related : Middle → Target → Prop} {lefts : List Left} {rights : List Right}
    {targets : List Target} (hlength : rights.length = lefts.length)
    (hrelated : List.Forall₂ related (List.zipWith combine lefts rights) targets) :
    List.Forall₂ (fun left target => ∃ right, related (combine left right) target)
      lefts targets := by
  induction lefts generalizing rights targets with
  | nil =>
    rw [List.zipWith_nil_left, List.forall₂_nil_left_iff] at hrelated
    rw [hrelated]
    exact .nil
  | cons left lefts ih =>
    obtain ⟨right, others, rfl⟩ := List.exists_cons_of_length_eq_add_one hlength
    rw [List.zipWith_cons_cons] at hrelated
    obtain ⟨target, rest, hfirst, hrest, rfl⟩ := List.forall₂_cons_left_iff.mp hrelated
    exact .cons ⟨right, hfirst⟩ (ih (by simpa using hlength) hrest)

section

variable (hhash : ∀ key, (hash160 key).length = 20) (hform : record.WellFormed)
  (hkeys : KeysFor record.inputs inputKeys)

include hhash hform hkeys

theorem valid_bumpUtxos (outputs : List TxOutputSpec) :
    ∀ utxo ∈ bumpUtxos hash160 record.inputs inputKeys, utxo.Valid ⟨outputs, none, none, 0⟩ := by
  intro utxo hmem
  rw [bumpUtxos, ← List.map_uncurry_zip_eq_zipWith, List.mem_map] at hmem
  obtain ⟨⟨input, keys⟩, hpair, rfl⟩ := hmem
  have hinput : input ∈ record.inputs := (List.of_mem_zip hpair).1
  have hlength : (hexBytes input.txid).length = 32 := by
    rw [length_hexBytes, (hform.txids input hinput).2]
  refine ⟨?_, hform.vouts input hinput, ?_, hhash _, keys.1, keys.2, rfl,
    hkeys.compressed keys (List.of_mem_zip hpair).2⟩
  · exact List.length_reverse.trans hlength
  · exact (valid_sampleUtxo []).sequence

/-- Signing a replacement never fails once there is an input. -/
theorem buildAndSign_bumpUtxos (hinputs : record.inputs ≠ []) (outputs : List TxOutputSpec) :
    buildAndSignTransaction platform doubleSha256 sign
        (bumpUtxos hash160 record.inputs inputKeys) ⟨outputs, none, none, 0⟩ =
      .ok (serializeTransaction true (nodeTransaction (signedInputs platform doubleSha256 sign
        (bumpUtxos hash160 record.inputs inputKeys) ⟨outputs, none, none, 0⟩) outputs 0)) := by
  have hutxos := valid_bumpUtxos hhash hform hkeys outputs
  have hsome : bumpUtxos hash160 record.inputs inputKeys ≠ [] := by
    rw [← List.length_pos_iff, bumpUtxos, List.length_zipWith, hkeys.length, Nat.min_self]
    exact List.length_pos_iff.mpr hinputs
  have hsigned : ∀ utxo ∈ bumpUtxos hash160 record.inputs inputKeys,
      (SpendOptions.keys ⟨outputs, none, none, 0⟩ utxo).isSome := by
    intro utxo hmem
    obtain ⟨privateKey, publicKey, hpair, -⟩ := (hutxos utxo hmem).keys
    rw [hpair]
    rfl
  rw [buildAndSignTransaction_eq hsome hsigned, ← signedInputs,
    serializeTx_eq true fun input => txid_of_mem_signedInputs hutxos]

/-- The transaction that is signed for outputs of the record. -/
theorem exists_replacement (hinputs : record.inputs ≠ []) {outputs : List SentTxOutput}
    (hvalid : ∀ output ∈ outputs, output.toSpec.Valid) :
    ∃ tx, buildAndSignTransaction platform doubleSha256 sign
        (bumpUtxos hash160 record.inputs inputKeys)
        ⟨outputs.map SentTxOutput.toSpec, none, none, 0⟩ = .ok (serializeTransaction true tx) ∧
      List.Forall₂ (fun (input : SentTxInput) (txin : CTxIn) =>
        serializeUInt256 txin.prevout.hash = (hexBytes input.txid).reverse ∧
          (txin.prevout.n.toNat : ℤ) = input.vout) record.inputs tx.vin ∧
      List.Forall₂ (fun (output : SentTxOutput) (txout : CTxOut) =>
        txout.scriptPubKey = hexBytes output.scriptPubKeyHex ∧
          txout.nValue.toInt = output.valueSatoshis) outputs tx.vout := by
  have hagrees := @agrees_signedInputs platform doubleSha256 sign _
    ⟨outputs.map SentTxOutput.toSpec, none, none, 0⟩
    (valid_bumpUtxos hhash hform hkeys (outputs.map SentTxOutput.toSpec))
    (List.forall_mem_map.mpr hvalid) ⟨le_refl 0, show (0 : ℤ) < 2 ^ 32 by decide⟩
  refine ⟨_, buildAndSign_bumpUtxos hhash hform hkeys hinputs _, ?_, ?_⟩
  · refine (forall₂_of_zipWith hkeys.length hagrees.inputs).imp fun input txin hspent => ?_
    obtain ⟨keys, hhashed, hvout, -⟩ := hspent
    exact ⟨hhashed, hvout⟩
  · exact List.forall₂_map_left_iff.mp hagrees.outputs

end

theorem FirstChange.mem {outputs : List SentTxOutput}
    (hfirst : FirstChange outputs before change after) : change ∈ outputs := by
  rw [hfirst.split]
  exact List.mem_append_right _ List.mem_cons_self

/-- What stays true of a record whose fee is bumped. -/
structure SentTxRecord.Bumpable (record : SentTxRecord) : Prop where
  form : record.WellFormed
  balanced : record.Balanced
  outputs : ∀ output ∈ record.outputs, 0 ≤ output.valueSatoshis ∧ output.valueSatoshis < 2 ^ 54
  fee : 0 ≤ record.feeSatoshis
  change : ∀ before change after, FirstChange record.outputs before change after →
    change.valueSatoshis + record.feeSatoshis < 2 ^ 54

theorem SentTxRecord.WellFormed.bumpable (hform : record.WellFormed)
    (hamounts : record.AmountsBelow (2 ^ 53)) (hbalanced : record.Balanced) : record.Bumpable where
  form := hform
  balanced := hbalanced
  outputs := by
    intro output hmem
    have hbound := hamounts.outputs output hmem
    omega
  fee := hamounts.fee.1
  change := by
    intro before change after hfirst
    have hbound := hamounts.outputs change hfirst.mem
    have hfee := hamounts.fee
    omega

theorem FirstChange.unique {outputs otherBefore otherAfter : List SentTxOutput}
    {otherChange : SentTxOutput} (hfirst : FirstChange outputs before change after)
    (hother : FirstChange outputs otherBefore otherChange otherAfter) :
    before = otherBefore ∧ change = otherChange ∧ after = otherAfter := by
  have hlength : before.length = otherBefore.length :=
    Option.some.inj (hfirst.findIdx?_eq.symm.trans hother.findIdx?_eq)
  obtain ⟨hbefore, hrest⟩ := List.append_inj (hfirst.split.symm.trans hother.split) hlength
  exact ⟨hbefore, (List.cons.inj hrest).1, (List.cons.inj hrest).2⟩

/-- The new change is what it should be. -/
theorem values_bumpedOutputs (hbumpable : record.Bumpable)
    (hfirst : FirstChange record.outputs before change after) (hpositive : 0 < newValue)
    (hsmall : newValue < 2 ^ 54) :
    ∀ output ∈ bumpedOutputs before change newValue after,
      0 ≤ output.valueSatoshis ∧ output.valueSatoshis < 2 ^ 54 := by
  have hall := hbumpable.outputs
  rw [hfirst.split] at hall
  intro output hmem
  rcases List.mem_append.mp hmem with hbefore | hrest
  · exact hall output (List.mem_append_left _ hbefore)
  · rcases List.mem_cons.mp hrest with rfl | hafter
    · exact ⟨hpositive.le, hsmall⟩
    · exact hall output (List.mem_append_right _ (List.mem_cons_of_mem _ hafter))

variable {rawTx : Bytes} {newOutputs : List SentTxOutput}

theorem inputs_ne_nil_of_built (hform : record.WellFormed) (hkeys : KeysFor record.inputs inputKeys)
    (hfirst : FirstChange record.outputs before change after)
    (hbuilt : buildBumpFeeTransaction platform hash160 doubleSha256 sign record newFee inputKeys =
      .ok (rawTx, newOutputs)) : record.inputs ≠ [] := by
  intro hempty
  rw [buildBumpFeeTransaction_eq hform hkeys hfirst, hempty] at hbuilt
  dsimp only at hbuilt
  split_ifs at hbuilt
  exact absurd hbuilt nofun

/-- A bump with the right change replaces the transaction, and the record can be bumped
again. -/
theorem replaces_of_newValue (hhash : ∀ key, (hash160 key).length = 20)
    (hbumpable : record.Bumpable) (hkeys : KeysFor record.inputs inputKeys) (hnew : 0 ≤ newFee)
    (hfirst : FirstChange record.outputs before change after)
    (hvalue : platform.newChangeValue change.valueSatoshis record.feeSatoshis newFee =
      change.valueSatoshis + record.feeSatoshis - newFee)
    (hbuilt : buildBumpFeeTransaction platform hash160 doubleSha256 sign record newFee inputKeys =
      .ok (rawTx, newOutputs)) :
    Replaces record newFee rawTx newOutputs ∧ (record.bumped newFee newOutputs).Bumpable := by
  set newValue := change.valueSatoshis + record.feeSatoshis - newFee with hnewValue
  have hinputs := inputs_ne_nil_of_built hbumpable.form hkeys hfirst hbuilt
  rw [buildBumpFeeTransaction_eq hbumpable.form hkeys hfirst] at hbuilt
  dsimp only at hbuilt
  rw [hvalue] at hbuilt
  split_ifs at hbuilt with hpositive
  obtain ⟨bytes, hbytes, hpair⟩ := bind_eq_ok.mp hbuilt
  obtain ⟨rfl, rfl⟩ := Prod.mk.inj (pure_eq_ok.mp hpair)
  have htotal := hbumpable.change before change after hfirst
  have hvalues := values_bumpedOutputs hbumpable hfirst (not_le.mp hpositive)
    (show newValue < 2 ^ 54 by omega)
  have hscripts := @scripts_bumpedOutputs record newValue before after change hfirst
    (fun text => IsHex text ∧ text.length ≤ 2 * maxSize) hbumpable.form.scripts
  have hvalid : ∀ output ∈ bumpedOutputs before change newValue after, output.toSpec.Valid := by
    intro output hmem
    have hamount := hvalues output hmem
    have hscript := (hscripts output hmem).2
    refine ⟨⟨hamount.1, hamount.2.trans (by decide)⟩, ?_⟩
    rw [SentTxOutput.toSpec, length_hexBytes]
    omega
  obtain ⟨tx, hsigned, hspends, hpays⟩ :=
    @exists_replacement platform hash160 doubleSha256 sign record inputKeys hhash hbumpable.form
      hkeys hinputs _ hvalid
  have hsum := @outputTotal_bumpedOutputs record newValue before after change hfirst
  have hbalance := hbumpable.balanced
  rw [SentTxRecord.Balanced] at hbalance
  have hleaves : inputTotal record.inputs =
      outputTotal (bumpedOutputs before change newValue after) + newFee := by omega
  refine ⟨⟨⟨before, change, after, newValue, hfirst, not_le.mp hpositive, rfl⟩,
    ⟨tx, Except.ok.inj (hbytes.symm.trans hsigned), hspends, hpays⟩, by omega, hleaves⟩, ?_⟩
  refine ⟨⟨hbumpable.form.txids, hbumpable.form.vouts, hscripts⟩, hleaves, hvalues, hnew, ?_⟩
  intro otherBefore otherChange otherAfter hother
  have hagain : FirstChange (bumpedOutputs before change newValue after) before
      { change with valueSatoshis := newValue } after := ⟨rfl, hfirst.others, hfirst.isChange⟩
  obtain ⟨-, rfl, -⟩ := hagain.unique hother
  change newValue + newFee < 2 ^ 54
  omega

variable (platform hash160 doubleSha256 sign) in
/-- One bump after another: the replacement's record takes the place of the old one, and on
the web the new change is a double. -/
def BumpStep (record next : SentTxRecord) : Prop :=
  ∃ (newFee : ℤ) (inputKeys : List (Bytes × Bytes)) (rawTx : Bytes)
    (newOutputs : List SentTxOutput), 0 ≤ newFee ∧ (platform = .mobile → newFee < 2 ^ 63) ∧
      KeysFor record.inputs inputKeys ∧
      (platform = .web → record.AmountsBelow (2 ^ 53)) ∧
      (∀ before change after, FirstChange record.outputs before change after →
        platform.ChangeExact change.valueSatoshis record.feeSatoshis newFee) ∧
      buildBumpFeeTransaction platform hash160 doubleSha256 sign record newFee inputKeys =
        .ok (rawTx, newOutputs) ∧
      next = record.bumped newFee newOutputs

/-- A built replacement had a first change output. -/
theorem exists_firstChange_of_built
    (hbuilt : buildBumpFeeTransaction platform hash160 doubleSha256 sign record newFee inputKeys =
      .ok (rawTx, newOutputs)) :
    ∃ before change after, FirstChange record.outputs before change after := by
  by_contra hnone
  push Not at hnone
  rw [buildBumpFeeTransaction_none hnone] at hbuilt
  exact absurd hbuilt nofun

/-- The new change of a transaction that is built. -/
theorem newChangeValue_pos_of_built (hform : record.WellFormed)
    (hkeys : KeysFor record.inputs inputKeys)
    (hfirst : FirstChange record.outputs before change after)
    (hbuilt : buildBumpFeeTransaction platform hash160 doubleSha256 sign record newFee inputKeys =
      .ok (rawTx, newOutputs)) :
    0 < platform.newChangeValue change.valueSatoshis record.feeSatoshis newFee := by
  rw [buildBumpFeeTransaction_eq hform hkeys hfirst] at hbuilt
  dsimp only at hbuilt
  split_ifs at hbuilt with hpositive
  exact not_le.mp hpositive

/-- A bump whose change is a double is right. -/
theorem newChangeValue_eq (hbumpable : record.Bumpable) (hnew : 0 ≤ newFee)
    (hrange : platform = .mobile → newFee < 2 ^ 63)
    (hamounts : platform = .web → record.AmountsBelow (2 ^ 53))
    (hfirst : FirstChange record.outputs before change after)
    (hexact : platform.ChangeExact change.valueSatoshis record.feeSatoshis newFee)
    (hpositive : 0 < platform.newChangeValue change.valueSatoshis record.feeSatoshis newFee) :
    platform.newChangeValue change.valueSatoshis record.feeSatoshis newFee =
      change.valueSatoshis + record.feeSatoshis - newFee := by
  cases platform with
  | web =>
    have hbelow := hamounts rfl
    exact (Web.newChangeValue_eq_iff (hbelow.outputs change hfirst.mem) hbelow.fee hnew).mpr
      (hexact rfl) hpositive
  | mobile =>
    exact Mobile.newChangeValue_eq (hbumpable.outputs change hfirst.mem).1 hbumpable.fee
      (hbumpable.change before change after hfirst) hnew (hrange rfl)

theorem BumpStep.bumpable {next : SentTxRecord} (hhash : ∀ key, (hash160 key).length = 20)
    (hbumpable : record.Bumpable)
    (hstep : BumpStep platform hash160 doubleSha256 sign record next) :
    next.Bumpable ∧ next.inputs = record.inputs := by
  obtain ⟨newFee, inputKeys, rawTx, newOutputs, hnew, hrange, hkeys, hamounts, hexact, hbuilt,
    rfl⟩ := hstep
  obtain ⟨before, change, after, hfirst⟩ := exists_firstChange_of_built hbuilt
  have hpositive := newChangeValue_pos_of_built hbumpable.form hkeys hfirst hbuilt
  have hvalue := newChangeValue_eq hbumpable hnew hrange hamounts hfirst
    (hexact before change after hfirst) hpositive
  exact ⟨(replaces_of_newValue hhash hbumpable hkeys hnew hfirst hvalue hbuilt).2, rfl⟩

theorem bump_replaces_iff (platform : Platform) (hash160 : Bytes → Bytes)
    (hhash : ∀ key, (hash160 key).length = 20) (doubleSha256 : Bytes → Bytes) (sign : Sign)
    (record : SentTxRecord) (hform : record.WellFormed) (hamounts : record.AmountsBelow (2 ^ 53))
    (hbalanced : record.Balanced) (newFee : ℤ) (hnew : 0 ≤ newFee)
    (hrange : platform = .mobile → newFee < 2 ^ 63) (inputKeys : List (Bytes × Bytes))
    (hkeys : KeysFor record.inputs inputKeys) :
    ((∀ rawTx newOutputs, buildBumpFeeTransaction platform hash160 doubleSha256 sign record newFee
        inputKeys = .ok (rawTx, newOutputs) → Replaces record newFee rawTx newOutputs) ↔
      (record.inputs ≠ [] → ∀ before change after,
        FirstChange record.outputs before change after →
          platform.ChangeExact change.valueSatoshis record.feeSatoshis newFee)) ∧
    ∀ final, Relation.ReflTransGen (BumpStep platform hash160 doubleSha256 sign) record final →
      final.Balanced ∧ final.WellFormed ∧ final.inputs = record.inputs := by
  have hbumpable := hform.bumpable hamounts hbalanced
  refine ⟨⟨fun hreplaces hinputs before change after hfirst => ?_, fun hexact => ?_⟩, ?_⟩
  · intro hweb
    subst hweb
    rw [← Web.newChangeValue_eq_iff (hamounts.outputs change hfirst.mem) hamounts.fee hnew]
    intro hpositive
    -- the transaction is built, and what it leaves determines the new change
    have hbuilt := @buildBumpFeeTransaction_eq .web hash160 doubleSha256 sign record newFee
      inputKeys before after change hform hkeys hfirst
    dsimp only at hbuilt
    rw [if_neg (not_le.mpr hpositive), buildAndSign_bumpUtxos hhash hform hkeys hinputs] at hbuilt
    have hleaves := (hreplaces _ _ hbuilt).leaves
    rw [outputTotal_bumpedOutputs hfirst] at hleaves
    rw [SentTxRecord.Balanced] at hbalanced
    omega
  · intro rawTx newOutputs hbuilt
    obtain ⟨before, change, after, hfirst⟩ := exists_firstChange_of_built hbuilt
    have hpositive := newChangeValue_pos_of_built hform hkeys hfirst hbuilt
    have hinputs := inputs_ne_nil_of_built hform hkeys hfirst hbuilt
    have hvalue := newChangeValue_eq hbumpable hnew hrange (fun _ => hamounts) hfirst
      (hexact hinputs before change after hfirst) hpositive
    exact (replaces_of_newValue hhash hbumpable hkeys hnew hfirst hvalue hbuilt).1
  · intro final hrun
    have hall : final.Bumpable ∧ final.inputs = record.inputs := by
      induction hrun with
      | refl => exact ⟨hbumpable, rfl⟩
      | tail _ hstep ih =>
          obtain ⟨hnext, hsame⟩ := hstep.bumpable hhash ih.1
          exact ⟨hnext, hsame.trans ih.2⟩
    exact ⟨hall.1.balanced, hall.1.form, hall.2⟩

def samplePayment (value : ℤ) : SentTxOutput :=
  ⟨bytesToHex (p2pkhScriptPubKey (List.replicate 20 0)), value, false⟩

def sampleChange (value : ℤ) : SentTxOutput :=
  ⟨bytesToHex (p2pkhScriptPubKey sampleKeyHash), value, true⟩

def sampleRecord (values : List ℤ) (payment changeValue fee : ℤ) : SentTxRecord where
  inputs := values.map fun value => ⟨bytesToHex (List.replicate 32 0), 0, value⟩
  outputs := [samplePayment payment, sampleChange changeValue]
  feeSatoshis := fee

section

variable {values : List ℤ} {payment changeValue fee bound : ℤ}

theorem wellFormed_sampleRecord : (sampleRecord values payment changeValue fee).WellFormed where
  txids := List.forall_mem_map.mpr fun _ _ => ⟨isHex_bytesToHex _,
    show List.length (bytesToHex (List.replicate 32 0)) = 64 by decide⟩
  vouts := List.forall_mem_map.mpr fun _ _ => ⟨le_refl 0, show (0 : ℤ) < 2 ^ 32 by decide⟩
  scripts := by
    rw [sampleRecord, List.forall_mem_cons, List.forall_mem_singleton]
    dsimp only [samplePayment, sampleChange]
    exact ⟨⟨isHex_bytesToHex _, by decide⟩, isHex_bytesToHex _, by decide⟩

theorem amountsBelow_sampleRecord (hvalues : ∀ value ∈ values, 0 ≤ value ∧ value < bound)
    (hpayment : 0 ≤ payment ∧ payment < bound)
    (hchange : 0 ≤ changeValue ∧ changeValue < bound) (hfee : 0 ≤ fee ∧ fee < bound) :
    (sampleRecord values payment changeValue fee).AmountsBelow bound :=
  ⟨List.forall_mem_map.mpr hvalues,
    List.forall_mem_cons.mpr ⟨hpayment, List.forall_mem_singleton.mpr hchange⟩, hfee⟩

theorem firstChange_sampleRecord :
    FirstChange (sampleRecord values payment changeValue fee).outputs [samplePayment payment]
      (sampleChange changeValue) [] :=
  ⟨rfl, List.forall_mem_singleton.mpr rfl, rfl⟩

def sampleKeyPair : Bytes × Bytes := (samplePrivateKey 1, sampleKey 1)

theorem keysFor_sampleRecord :
    KeysFor (sampleRecord values payment changeValue fee).inputs
      (List.replicate values.length sampleKeyPair) where
  length := by rw [List.length_replicate, sampleRecord, List.length_map]
  compressed := by
    intro keys hmem
    rw [List.eq_of_mem_replicate hmem]
    rfl

end

def paidRecord : SentTxRecord := sampleRecord [100000] 50000 40000 10000

/-- The signature by the first key of that payment with a fee of 15000. -/
def sampleBumpSign : Sign := fun _ _ =>
  (0xeb64a69bc3dba8ccc7f534ecb2c3a840827b9341d36f91d21a998e209b3dadb1,
    0x780a67059591fd770bd17198fe1621b32d748b3e519581c4eec567f72a6b757f)

theorem bump_replaces_one_coin :
    (∀ rawTx newOutputs, buildBumpFeeTransaction .web (fun _ => sampleKeyHash)
        Sha256.doubleSha256 sampleBumpSign paidRecord 15000 [sampleKeyPair] =
          .ok (rawTx, newOutputs) →
        Replaces paidRecord 15000 rawTx newOutputs) ∧
      ∀ final, Relation.ReflTransGen
          (BumpStep .web (fun _ => sampleKeyHash) Sha256.doubleSha256 sampleBumpSign)
          paidRecord final →
        final.Balanced ∧ final.WellFormed ∧ final.inputs = paidRecord.inputs := by
  have hamounts : paidRecord.AmountsBelow (2 ^ 53) :=
    amountsBelow_sampleRecord (List.forall_mem_singleton.mpr (by decide)) (by decide)
      (by decide) (by decide)
  have hall := bump_replaces_iff .web (fun _ => sampleKeyHash) (fun _ => rfl)
    Sha256.doubleSha256 sampleBumpSign paidRecord wellFormed_sampleRecord hamounts
    (by unfold SentTxRecord.Balanced; decide) 15000 (by decide) nofun [sampleKeyPair]
    keysFor_sampleRecord
  refine ⟨hall.1.mpr fun _ before change after hfirst => ?_, hall.2⟩
  rcases List.mem_pair.mp hfirst.mem with rfl | rfl
  · exact absurd hfirst.isChange Bool.false_ne_true
  · exact changeExact_of_le (by decide) (by decide)

def largeRecord : SentTxRecord :=
  sampleRecord [2 ^ 53 - 1, 2 ^ 53 - 1] 1001 (2 ^ 53 - 1) (2 ^ 53 - 1002)

/-- A new fee of nothing: the new change is rounded down and one satoshi is lost. -/
theorem rounded_change_leaves_one :
    largeRecord.WellFormed ∧ largeRecord.AmountsBelow (2 ^ 53) ∧ largeRecord.Balanced ∧
      ∀ sign, ∃ rawTx newOutputs, buildBumpFeeTransaction .web (fun _ => sampleKeyHash)
          Sha256.doubleSha256 sign largeRecord 0 [sampleKeyPair, sampleKeyPair] =
            .ok (rawTx, newOutputs) ∧
        inputTotal largeRecord.inputs - outputTotal newOutputs = 1 := by
  have hform : largeRecord.WellFormed := wellFormed_sampleRecord
  have hkeys : KeysFor largeRecord.inputs [sampleKeyPair, sampleKeyPair] := keysFor_sampleRecord
  have hfirst : FirstChange largeRecord.outputs _ _ _ := firstChange_sampleRecord
  have hvalue : Platform.web.newChangeValue (sampleChange (2 ^ 53 - 1)).valueSatoshis
      largeRecord.feeSatoshis 0 = 2 ^ 54 - 1004 := by
    decide
  refine ⟨hform, amountsBelow_sampleRecord ?_ (by decide) (by decide) (by decide),
    by unfold SentTxRecord.Balanced; decide, fun sign => ?_⟩
  · rw [List.forall_mem_cons, List.forall_mem_singleton]
    decide
  · have hbuilt := @buildBumpFeeTransaction_eq .web (fun _ => sampleKeyHash)
      Sha256.doubleSha256 sign largeRecord 0 _ _ _ _ hform hkeys hfirst
    dsimp only at hbuilt
    rw [hvalue, if_neg (by decide), buildAndSign_bumpUtxos (fun _ => rfl) hform hkeys
      (List.cons_ne_nil _ _)] at hbuilt
    refine ⟨_, _, hbuilt, ?_⟩
    rw [outputTotal_bumpedOutputs hfirst]
    decide

end Replacement

end FirstIslamicCoin.ClientWallet
