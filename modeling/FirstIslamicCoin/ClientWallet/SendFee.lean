import FirstIslamicCoin.ClientWallet.Send
import FirstIslamicCoin.ClientWallet.TransactionSize

/-!
# The fee of a send

The send screens count 148 bytes for an input, 34 for an output and 10 for the rest.  An
input of a full-length signature has those 148 bytes and an output to a P2PKH address those
34, so the estimate has no room for the two counts once they take more than a byte each.
-/

namespace FirstIslamicCoin.ClientWallet

open ByteCodec GreedyPrefix Outcome

section Left

def SendPlan.feeLeft (plan : SendPlan) : ℤ :=
  worthOf plan.inputs - (plan.outputs.map TxOutputSpec.valueSatoshis).sum

def SendPlan.transaction (plan : SendPlan) (platform : Platform) (doubleSha256 : Bytes → Bytes)
    (sign : Sign) : CTransaction :=
  nodeTransaction (signedInputs platform doubleSha256 sign (plan.inputs.map SpendableUtxo.toUtxo)
    plan.options) plan.outputs plan.options.locktime

variable {platform : Platform} {context : SendContext} {utxos front : List SpendableUtxo}
  {recipients : List SendRecipient} {feeRate : ℕ} {destOutputs : List TxOutputSpec}

theorem destOutput_eq_ok {recipient : SendRecipient} {output : TxOutputSpec}
    (hdest : destOutput platform context recipient = .ok output) :
    output.valueSatoshis = platform.number recipient.amountSatoshis := by
  obtain ⟨decoded, -, hrest⟩ := bind_eq_ok.mp hdest
  obtain rfl := pure_eq_ok.mp hrest
  rfl

/-- The recipients get their amounts, as far as those are doubles. -/
theorem values_destOutputs
    (hexact : ∀ recipient ∈ recipients, platform.Exact recipient.amountSatoshis)
    (hdest : recipients.mapM (destOutput platform context) = .ok destOutputs) :
    destOutputs.map TxOutputSpec.valueSatoshis = (amountsOf recipients).map Nat.cast := by
  have hpairs := mapM_eq_ok.mp hdest
  clear hdest
  induction hpairs with
  | nil => rfl
  | @cons recipient output recipients destOutputs hfirst hrest ih =>
    obtain ⟨hhead, htail⟩ := List.forall_mem_cons.mp hexact
    have hvalue : output.valueSatoshis = recipient.amountSatoshis :=
      (destOutput_eq_ok hfirst).trans (Platform.number_eq hhead)
    rw [List.map_cons, hvalue, ih htail]
    rfl

theorem sum_destOutputs (hexact : ∀ recipient ∈ recipients, platform.Exact recipient.amountSatoshis)
    (hdest : recipients.mapM (destOutput platform context) = .ok destOutputs) :
    (destOutputs.map TxOutputSpec.valueSatoshis).sum = ((amountsOf recipients).sum : ℕ) := by
  rw [values_destOutputs hexact hdest, Nat.cast_list_sum]

theorem sum_withChange {change : ℤ} (hchange : 0 ≤ change) (outputs : List TxOutputSpec) :
    ((withChange platform context outputs change).map TxOutputSpec.valueSatoshis).sum =
      (outputs.map TxOutputSpec.valueSatoshis).sum + platform.number change := by
  rw [withChange, List.map_append, List.sum_append]
  by_cases hpositive : 0 < change
  · rw [if_pos hpositive, List.map_singleton, List.sum_singleton]
  · obtain rfl : change = 0 := by omega
    have hzero : platform.number 0 = 0 := by cases platform <;> rfl
    rw [if_neg hpositive, hzero]
    rfl

/-- The fee that is left is the estimated one, less what wrapping and rounding add to the
change. -/
theorem feeLeft_planFor (hexact : ∀ recipient ∈ recipients, platform.Exact recipient.amountSatoshis)
    (hdest : recipients.mapM (destOutput platform context) = .ok destOutputs)
    (hfront : platform.SendTakes utxos recipients feeRate front) :
    (planFor platform context recipients feeRate destOutputs front).feeLeft =
      feeRate * (sendSizing recipients).estimatedVsize front.length -
        (platform.number (platform.int (changeOf recipients feeRate front)) -
          changeOf recipients feeRate front) := by
  have hsum := @sum_withChange platform context _ hfront.change destOutputs
  rw [sum_destOutputs hexact hdest] at hsum
  have hchange : changeOf recipients feeRate front =
      worthOf front - (((amountsOf recipients).sum : ℕ) +
        feeRate * (sendSizing recipients).estimatedVsize front.length) := by
    rw [changeOf, sendRequired, required, Nat.cast_add, Nat.cast_mul]
  rw [SendPlan.feeLeft, planFor]
  dsimp only
  rw [hsum]
  linarith

end Left

section Size

variable {platform : Platform} {doubleSha256 : Bytes → Bytes} {sign : Sign} {inputs : List Utxo}
  {options : SpendOptions}

theorem length_signedInputs :
    (signedInputs platform doubleSha256 sign inputs options).length = inputs.length := by
  rw [signedInputs, List.length_map, List.length_zipIdx]

/-- The bytes of a signed input. -/
theorem length_serializeInput_signed (hutxos : ∀ utxo ∈ inputs, utxo.Valid options)
    {input : TxInput} (hmem : input ∈ signedInputs platform doubleSha256 sign inputs options) :
    ∃ digest privateKey, (serializeInput input).length = 40 +
      (varInt (35 + (sigWithType platform (sign digest privateKey)).length)).length +
        (35 + (sigWithType platform (sign digest privateKey)).length) := by
  have htxid := txid_of_mem_signedInputs hutxos hmem
  obtain ⟨entry, hentry, rfl⟩ := List.mem_map.mp hmem
  obtain ⟨privateKey, publicKey, hkeys, hlength⟩ :=
    (hutxos entry.1 (List.fst_mem_of_mem_zipIdx hentry)).keys
  rw [signedInput_eq hkeys] at htxid ⊢
  refine ⟨legacySighash doubleSha256 (inputs.map Utxo.unsigned) options.outputs entry.2
    (p2pkhScriptPubKey entry.1.pubkeyHash) options.locktime, privateKey, ?_⟩
  rw [length_serializeInput htxid]
  dsimp only
  rw [length_p2pkhScriptSig _ hlength]
  rfl

theorem length_serializeInput_signed_le (hutxos : ∀ utxo ∈ inputs, utxo.Valid options)
    (hsign : ∀ digest privateKey, Signable platform (sign digest privateKey)) :
    ∀ input ∈ signedInputs platform doubleSha256 sign inputs options,
      (serializeInput input).length ≤ 148 := by
  intro input hmem
  obtain ⟨digest, privateKey, hlength⟩ := length_serializeInput_signed hutxos hmem
  have hshort := (hsign digest privateKey).length_sigWithType_le
  rw [hlength, length_varInt_of_lt (by omega)]
  omega

theorem length_serializeInput_signed_long (hutxos : ∀ utxo ∈ inputs, utxo.Valid options) :
    ∀ input ∈ signedInputs platform doubleSha256 (fun _ _ => longSignature) inputs options,
      (serializeInput input).length = 148 := by
  intro input hmem
  obtain ⟨digest, privateKey, hlength⟩ := length_serializeInput_signed hutxos hmem
  rw [hlength, length_sigWithType_longSignature]
  rfl

end Size

section Minimum

variable {platform : Platform} {context : SendContext} {utxos front : List SpendableUtxo}
  {recipients : List SendRecipient} {feeRate : ℕ} {destOutputs : List TxOutputSpec}

/-- A coin that can be spent with its own keys. -/
def SpendableUtxo.Spendable (coin : SpendableUtxo) : Prop := coin.toUtxo.Valid ⟨[], none, none, 0⟩

theorem SpendableUtxo.Spendable.valid {coin : SpendableUtxo} (hcoin : coin.Spendable)
    (plan : SendPlan) : coin.toUtxo.Valid plan.options :=
  ⟨hcoin.txid, hcoin.vout, hcoin.sequence, hcoin.pubkeyHash, hcoin.keys⟩

theorem valid_inputs (hutxos : ∀ coin ∈ utxos, coin.Spendable) {plan : SendPlan}
    (hsublist : plan.inputs.Sublist utxos) :
    ∀ utxo ∈ plan.inputs.map SpendableUtxo.toUtxo, utxo.Valid plan.options := by
  intro utxo hmem
  obtain ⟨coin, hcoin, rfl⟩ := List.mem_map.mp hmem
  exact (hutxos coin (hsublist.subset hcoin)).valid plan

/-- The fee a plan leaves is at least what the node asks for the transaction that is
broadcast. -/
def SendPlan.PaysMinimum (params : Params) (nTime : ℤ) (platform : Platform)
    (doubleSha256 : Bytes → Bytes) (sign : Sign) (plan : SendPlan) (rawTx : Bytes) : Prop :=
  rawTx = serializeTransaction true (plan.transaction platform doubleSha256 sign) ∧
    (getMinFee params (getVirtualTransactionSize (plan.transaction platform doubleSha256 sign))
      nTime).toInt ≤ plan.feeLeft

/-- Signing never fails once coins are chosen. -/
theorem send_of_planSend {sign : Sign} {plan : SendPlan}
    (hutxos : ∀ coin ∈ plan.inputs, coin.Spendable) (hinputs : plan.inputs ≠ [])
    (hplan : platform.planSend context utxos recipients feeRate = .ok plan) :
    platform.send context utxos recipients feeRate sign = .ok (plan,
      serializeTransaction true (plan.transaction platform context.doubleSha256 sign)) := by
  have hvalid := valid_inputs hutxos (List.Sublist.refl plan.inputs)
  have hkeys : ∀ utxo ∈ plan.inputs.map SpendableUtxo.toUtxo,
      (plan.options.keys utxo).isSome := by
    intro utxo hmem
    obtain ⟨privateKey, publicKey, hpair, -⟩ := (hvalid utxo hmem).keys
    rw [hpair]
    rfl
  have hbuilt := @buildAndSignTransaction_eq platform context.doubleSha256 sign
    (plan.inputs.map SpendableUtxo.toUtxo) (by simpa using hinputs) plan.options hkeys
  have hbytes := @serializeTx_eq true (signedInputs platform context.doubleSha256 sign
    (plan.inputs.map SpendableUtxo.toUtxo) plan.options)
    (fun input => txid_of_mem_signedInputs hvalid) plan.options.outputs plan.options.locktime
  rw [Platform.send, hplan]
  dsimp only [bind, Except.bind]
  rw [hbuilt, ← signedInputs, hbytes]
  rfl

theorem send_eq_ok {sign : Sign} {plan : SendPlan} {rawTx : Bytes}
    (hsend : platform.send context utxos recipients feeRate sign = .ok (plan, rawTx)) :
    platform.planSend context utxos recipients feeRate = .ok plan ∧ plan.inputs ≠ [] := by
  obtain ⟨built, hplan, hrest⟩ := bind_eq_ok.mp hsend
  obtain ⟨bytes, hbytes, hpair⟩ := bind_eq_ok.mp hrest
  obtain ⟨rfl, rfl⟩ := Prod.mk.inj (pure_eq_ok.mp hpair)
  refine ⟨hplan, fun hempty => ?_⟩
  rw [mapError_eq_ok, hempty] at hbytes
  exact absurd hbytes nofun

variable {params : Params} {nTime : ℤ}

/-- Between the two sizes a transaction can have, the fee grows with the size. -/
theorem getMinFee_transaction_le (hnonneg : 0 ≤ nTime) (hlt : nTime < 2 ^ 32)
    (hswitch : params.isProtocolV3_1 nTime = true) {sign : Sign}
    (hsign : ∀ digest privateKey, Signable platform (sign digest privateKey)) {plan : SendPlan}
    (hutxos : ∀ coin ∈ plan.inputs, coin.Spendable) :
    (getMinFee params (getVirtualTransactionSize
        (plan.transaction platform context.doubleSha256 sign)) nTime).toInt ≤
      minimumFee (min (sizeWith plan.inputs.length 148 plan.outputs) 0xffffffff) := by
  have hvalid := valid_inputs hutxos (List.Sublist.refl plan.inputs)
  have hinputs := @length_serializeInput_signed_le platform context.doubleSha256 sign _ _ hvalid
    hsign
  have hsize := length_serializeTx_le hinputs plan.outputs 2 plan.options.locktime
  rw [length_signedInputs, List.length_map] at hsize
  rw [toInt_getMinFee_min hnonneg hlt hswitch, SendPlan.transaction,
    getVirtualTransactionSize_nodeTransaction fun input => txid_of_mem_signedInputs hvalid]
  exact minimumFee_mono (by omega)

theorem getMinFee_transaction_long (hnonneg : 0 ≤ nTime) (hlt : nTime < 2 ^ 32)
    (hswitch : params.isProtocolV3_1 nTime = true) {plan : SendPlan}
    (hutxos : ∀ coin ∈ plan.inputs, coin.Spendable) :
    (getMinFee params (getVirtualTransactionSize
        (plan.transaction platform context.doubleSha256 fun _ _ => longSignature)) nTime).toInt =
      minimumFee (min (sizeWith plan.inputs.length 148 plan.outputs) 0xffffffff) := by
  have hvalid := valid_inputs hutxos (List.Sublist.refl plan.inputs)
  have hinputs := @length_serializeInput_signed_long platform context.doubleSha256 _ _ hvalid
  have hsize := length_serializeTx_eq hinputs plan.outputs 2 plan.options.locktime
  rw [length_signedInputs, List.length_map] at hsize
  rw [toInt_getMinFee_min hnonneg hlt hswitch, SendPlan.transaction,
    getVirtualTransactionSize_nodeTransaction fun input => txid_of_mem_signedInputs hvalid, hsize]

/-- The estimate of a send is enough for full-length signatures, and for what the change
output holds beyond the change that is left. -/
def EstimateSuffices (platform : Platform) (context : SendContext)
    (recipients : List SendRecipient) (feeRate : ℕ) (destOutputs : List TxOutputSpec)
    (front : List SpendableUtxo) : Prop :=
  100 * (min (sizeWith front.length 148 (withChange platform context destOutputs
      (platform.int (changeOf recipients feeRate front)))) 0xffffffff : ℕ) +
    (platform.number (platform.int (changeOf recipients feeRate front)) -
      changeOf recipients feeRate front) ≤
      feeRate * ((sendSizing recipients).estimatedVsize front.length : ℤ)

theorem estimateSuffices_iff
    (hexact : ∀ recipient ∈ recipients, platform.Exact recipient.amountSatoshis)
    (hdest : recipients.mapM (destOutput platform context) = .ok destOutputs)
    (hfront : platform.SendTakes utxos recipients feeRate front) :
    EstimateSuffices platform context recipients feeRate destOutputs front ↔
      minimumFee (min (sizeWith front.length 148
        (planFor platform context recipients feeRate destOutputs front).outputs) 0xffffffff) ≤
          (planFor platform context recipients feeRate destOutputs front).feeLeft := by
  have hpositive : 0 < front.length := List.length_pos_iff.mpr hfront.nonempty
  rw [minimumFee_sizeWith hpositive (by decide), feeLeft_planFor hexact hdest hfront,
    EstimateSuffices]
  exact (le_sub_iff_add_le).symm

/-- When sends pay the fee the node asks for, whatever low signatures they carry: when the
estimate reaches the size with full-length signatures, counted with the bytes of the two
counts and of the scripts, and with what rounding the change to a double takes away.  A
sum of the mobile wallet that wraps gives away a multiple of `2 ^ 64` as change. -/
theorem send_pays_minimum_iff (params : Params) (nTime : ℤ) (hnonneg : 0 ≤ nTime)
    (hlt : nTime < 2 ^ 32) (hswitch : params.isProtocolV3_1 nTime = true) (platform : Platform)
    (context : SendContext) (utxos : List SpendableUtxo) (recipients : List SendRecipient)
    (feeRate : ℕ) (hutxos : ∀ coin ∈ utxos, coin.Spendable)
    (hexact : ∀ recipient ∈ recipients, platform.Exact recipient.amountSatoshis) :
    (∀ sign : Sign, (∀ digest privateKey, Signable platform (sign digest privateKey)) →
      ∀ plan rawTx, platform.send context utxos recipients feeRate sign = .ok (plan, rawTx) →
        plan.PaysMinimum params nTime platform context.doubleSha256 sign rawTx) ↔
      ∀ front destOutputs, platform.SendTakes utxos recipients feeRate front →
        recipients.mapM (destOutput platform context) = .ok destOutputs →
        SomeRecipient platform recipients →
          EstimateSuffices platform context recipients feeRate destOutputs front := by
  constructor
  · intro hpays front destOutputs hfront hdest hsome
    have hcoins : ∀ coin ∈ front, coin.Spendable :=
      fun coin hmem => hutxos coin (hfront.starts.subset hmem)
    have hplan := planSend_of_takes hdest hsome hfront
    have hsend := @send_of_planSend platform context utxos recipients feeRate
      (fun _ _ => longSignature) _ hcoins hfront.nonempty hplan
    have hfee := (hpays _ (fun _ _ => signable_longSignature platform) _ _ hsend).2
    rw [getMinFee_transaction_long hnonneg hlt hswitch hcoins] at hfee
    exact (estimateSuffices_iff hexact hdest hfront).mpr hfee
  · intro hestimate sign hsign plan rawTx hsend
    obtain ⟨hplan, hinputs⟩ := send_eq_ok hsend
    obtain ⟨destOutputs, hdest, hsome, hfront, hplanFor⟩ := planSend_eq_ok hplan hinputs
    have hcoins : ∀ coin ∈ plan.inputs, coin.Spendable :=
      fun coin hmem => hutxos coin (hfront.starts.subset hmem)
    have hbuilt := @send_of_planSend platform context utxos recipients feeRate sign plan hcoins
      hinputs hplan
    rw [hbuilt, Except.ok.injEq, Prod.mk.injEq] at hsend
    have hfloor := (estimateSuffices_iff hexact hdest hfront).mp
      (hestimate plan.inputs destOutputs hfront hdest hsome)
    rw [← hplanFor] at hfloor
    exact ⟨hsend.2.symm,
      (getMinFee_transaction_le hnonneg hlt hswitch hsign hcoins).trans hfloor⟩

theorem spendable_sampleCoin (value : ℕ) : (sampleCoin value).Spendable :=
  ⟨rfl, (valid_sampleUtxo []).vout, (valid_sampleUtxo []).sequence, rfl, _, _, rfl, rfl⟩

def samplePaymentTime : ℤ := 2000000000

theorem send_pays_minimum_iff_one_coin :
    (ChainType.main.consensus .sample).isProtocolV3_1 samplePaymentTime = true ∧
      ((∀ sign : Sign, (∀ digest privateKey, Signable .mobile (sign digest privateKey)) →
        ∀ plan rawTx, Platform.mobile.send sampleContext [sampleCoin 200000]
            [sampleRecipient 100000] 100 sign = .ok (plan, rawTx) →
          plan.PaysMinimum (ChainType.main.consensus .sample) samplePaymentTime .mobile
            sampleContext.doubleSha256 sign rawTx) ↔
        ∀ front destOutputs,
          Platform.mobile.SendTakes [sampleCoin 200000] [sampleRecipient 100000] 100 front →
          [sampleRecipient 100000].mapM (destOutput .mobile sampleContext) = .ok destOutputs →
          SomeRecipient .mobile [sampleRecipient 100000] →
            EstimateSuffices .mobile sampleContext [sampleRecipient 100000] 100 destOutputs front) :=
  ⟨by decide, send_pays_minimum_iff (ChainType.main.consensus .sample) samplePaymentTime (by decide)
      (by decide) (by decide) .mobile sampleContext [sampleCoin 200000] [sampleRecipient 100000] 100
      (List.forall_mem_singleton.mpr (spendable_sampleCoin _))
      (List.forall_mem_singleton.mpr nofun)⟩

/-- A send to so many recipients that the outputs with the change are counted in three
bytes. -/
def crowdedRecipients : List SendRecipient := List.replicate 252 (sampleRecipient 1)

theorem destOutputs_crowdedRecipients :
    crowdedRecipients.mapM (destOutput .web sampleContext) =
      .ok (List.replicate 252 ⟨p2pkhScriptPubKey (List.replicate 20 0), 1⟩) := by
  have hone : Platform.web.number (1 : ℕ) = 1 := roundToDouble_eq_self (by decide) (by decide)
  rw [mapM_eq_ok, crowdedRecipients, List.forall₂_iff_get]
  refine ⟨by rw [List.length_replicate, List.length_replicate], fun i _ _ => ?_⟩
  rw [List.get_eq_getElem, List.get_eq_getElem, List.getElem_replicate, List.getElem_replicate,
    destOutput_sampleRecipient, hone]

theorem sendTakes_crowdedRecipients :
    Platform.web.SendTakes [sampleCoin 894452] crowdedRecipients 100 [sampleCoin 894452] :=
  ⟨IsShortest.singleton (by decide +kernel), by decide +kernel⟩

/-- Full-length signatures, a rate of a hundred and 253 outputs: the fee is for two bytes
too few. -/
theorem crowded_send_below_minimum :
    Signable .web longSignature ∧ ∃ plan rawTx,
      Platform.web.send sampleContext [sampleCoin 894452] crowdedRecipients 100
        (fun _ _ => longSignature) = .ok (plan, rawTx) ∧
      ¬plan.PaysMinimum (ChainType.main.consensus .sample) samplePaymentTime .web
        sampleContext.doubleSha256 (fun _ _ => longSignature) rawTx := by
  have hexact : ∀ recipient ∈ crowdedRecipients, Platform.web.Exact recipient.amountSatoshis := by
    intro recipient hmem
    rw [List.eq_of_mem_replicate hmem]
    exact Platform.exact_of_le (by decide) (by decide)
  have hcoins : ∀ coin ∈ [sampleCoin 894452], coin.Spendable :=
    List.forall_mem_singleton.mpr (spendable_sampleCoin _)
  have hsome : SomeRecipient .web crowdedRecipients := nofun
  have hplan := planSend_of_takes destOutputs_crowdedRecipients hsome sendTakes_crowdedRecipients
  have hsend := @send_of_planSend .web sampleContext _ _ _ (fun _ _ => longSignature) _ hcoins
    (List.cons_ne_nil _ _) hplan
  refine ⟨signable_longSignature .web, _, _, hsend, fun hpays => ?_⟩
  have hfee := hpays.2
  rw [getMinFee_transaction_long (by decide) (by decide) (by decide) hcoins] at hfee
  have hestimate := (estimateSuffices_iff hexact destOutputs_crowdedRecipients
    sendTakes_crowdedRecipients).mpr hfee
  rw [EstimateSuffices] at hestimate
  exact absurd hestimate (by decide +kernel)

end Minimum

end FirstIslamicCoin.ClientWallet
