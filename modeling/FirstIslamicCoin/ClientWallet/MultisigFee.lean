import FirstIslamicCoin.ClientWallet.Multisig
import FirstIslamicCoin.ClientWallet.Send
import FirstIslamicCoin.ClientWallet.TransactionSize

/-!
# The fee of a multisig proposal

The multisig screens count the length of the redeem script and 150 bytes for an input.  A
finalized input carries a signature of up to 72 bytes for each required cosigner, so from
two cosigners on the estimate is too small at the lowest rate.
-/

namespace FirstIslamicCoin.ClientWallet

open ByteCodec GreedyPrefix Outcome

section Screens

structure AddressUtxo where
  txid : Bytes
  vout : ℤ
  valueSatoshis : ℕ

def multisigSizing (redeemScript : Bytes) : Sizing := ⟨redeemScript.length + 150, 2⟩

def AddressUtxo.toProposalInput (redeemScript : Bytes) (utxo : AddressUtxo) : ProposalInput :=
  ⟨utxo.txid, utxo.vout, redeemScript⟩

variable (platform : Platform) (context : SendContext) (hash160 : Bytes → Bytes)
  (redeemScript : Bytes)

def proposalOutputs (decoded : DecodedAddress) (amountSatoshis : ℕ) (change : ℤ) :
    List TxOutputSpec :=
  ⟨decoded.scriptPubKey, platform.number amountSatoshis⟩ ::
    if 0 < change then
      [⟨p2shScriptPubKey (hash160 redeemScript), platform.number change⟩] else []

/-- The handler of the button `btn-ms-propose`, and `_createProposal`: the coins and the
proposal. -/
def Platform.createProposal (toAddress : Utf16) (amountSatoshis : ℕ) (utxos : List AddressUtxo)
    (feeRate : ℕ) : Except SendFailure (List AddressUtxo × MultisigProposal) := do
  let decoded ← (context.decodeAddress platform toAddress).mapError .other
  let (chosen, totalIn) := platform.selectCoins (multisigSizing redeemScript) feeRate
    AddressUtxo.valueSatoshis amountSatoshis [] 0 utxos
  let feeSatoshis := platform.feeSatoshis (multisigSizing redeemScript) feeRate chosen.length
  let need := platform.int (amountSatoshis + feeSatoshis)
  if totalIn < need then .error (.insufficientFunds totalIn need)
  else
    let change := platform.int (platform.int (totalIn - amountSatoshis) - feeSatoshis)
    return (chosen, createMultisigProposal (chosen.map (AddressUtxo.toProposalInput redeemScript))
      (proposalOutputs platform hash160 redeemScript decoded amountSatoshis change) 0)

end Screens

section Plans

variable {platform : Platform} {context : SendContext} {hash160 : Bytes → Bytes}
  {redeemScript : Bytes} {toAddress : Utf16} {amount feeRate : ℕ}
  {utxos front : List AddressUtxo} {decoded : DecodedAddress}

/-- The coins a proposal takes as the platform adds up.  Without coins the sum may wrap to
nothing as well. -/
inductive Platform.ProposalTakes (platform : Platform) (redeemScript : Bytes) (amount feeRate : ℕ)
    (utxos : List AddressUtxo) : List AddressUtxo → Prop
  | front {front : List AddressUtxo}
      (htakes : platform.Takes (multisigSizing redeemScript) feeRate AddressUtxo.valueSatoshis
        [amount] utxos front) : platform.ProposalTakes redeemScript amount feeRate utxos front
  | nothing (hutxos : utxos = [])
      (hcovers : platform.covers (multisigSizing redeemScript) feeRate AddressUtxo.valueSatoshis
        [amount] [] = true) : platform.ProposalTakes redeemScript amount feeRate utxos []

theorem Platform.ProposalTakes.subset
    (htakes : platform.ProposalTakes redeemScript amount feeRate utxos front) : front ⊆ utxos := by
  cases htakes with
  | front htakes => exact htakes.starts.subset
  | nothing => exact List.nil_subset _

/-- The coins taken are those the loop ends with, if they cover. -/
theorem proposalTakes_iff :
    platform.ProposalTakes redeemScript amount feeRate utxos front ↔
      takeUntil (platform.covers (multisigSizing redeemScript) feeRate AddressUtxo.valueSatoshis
        [amount]) [] utxos = front ∧
      platform.covers (multisigSizing redeemScript) feeRate AddressUtxo.valueSatoshis [amount]
        front = true := by
  constructor
  · rintro (htakes | ⟨rfl, hcovers⟩)
    · exact ⟨takeUntil_eq htakes, htakes.sufficient⟩
    · exact ⟨rfl, hcovers⟩
  · rintro ⟨rfl, hcovers⟩
    by_cases hnil : takeUntil (platform.covers (multisigSizing redeemScript) feeRate
        AddressUtxo.valueSatoshis [amount]) [] utxos = []
    · rw [hnil] at hcovers ⊢
      refine .nothing ?_ hcovers
      rcases takeUntil_cases utxos with hfound | ⟨hall, -⟩
      · exact absurd hnil hfound.nonempty
      · rw [← hall, hnil]
    · exact .front (isShortest_takeUntil hcovers hnil)

/-- What the coins are worth beyond the payment and the estimated fee. -/
def proposalChange (redeemScript : Bytes) (amount feeRate : ℕ) (front : List AddressUtxo) : ℤ :=
  worth AddressUtxo.valueSatoshis front -
    required (multisigSizing redeemScript) feeRate [amount] front.length

def proposalFor (platform : Platform) (hash160 : Bytes → Bytes) (redeemScript : Bytes)
    (amount feeRate : ℕ) (decoded : DecodedAddress) (front : List AddressUtxo) :
    MultisigProposal :=
  createMultisigProposal (front.map (AddressUtxo.toProposalInput redeemScript))
    (proposalOutputs platform hash160 redeemScript decoded amount
      (platform.int (proposalChange redeemScript amount feeRate front))) 0

/-- A screen makes the proposal for the coins it takes. -/
theorem createProposal_eq_ok {proposal : MultisigProposal} :
    platform.createProposal context hash160 redeemScript toAddress amount utxos feeRate =
        .ok (front, proposal) ↔
      platform.ProposalTakes redeemScript amount feeRate utxos front ∧
        ∃ decoded, context.decodeAddress platform toAddress = .ok decoded ∧
          proposal = proposalFor platform hash160 redeemScript amount feeRate decoded front := by
  have htotal : platform.int (amount : ℤ) = platform.int ([amount].sum : ℕ) := by
    rw [List.sum_singleton]
  have hselect := @Platform.selectCoins_eq _ platform (multisigSizing redeemScript) feeRate
    AddressUtxo.valueSatoshis [amount] _ htotal [] utxos
  have hstart : platform.int (worth AddressUtxo.valueSatoshis []) = 0 := Platform.int_zero
  rw [hstart] at hselect
  rw [Platform.createProposal, hselect, proposalTakes_iff]
  dsimp only
  rw [Platform.need_eq htotal, Platform.change_eq htotal]
  simp only [bind_eq_ok, mapError_eq_ok]
  constructor
  · rintro ⟨decoded, hdecoded, hrest⟩
    split_ifs at hrest with hshort
    obtain ⟨rfl, rfl⟩ := Prod.mk.inj (pure_eq_ok.mp hrest)
    exact ⟨⟨rfl, decide_eq_true_iff.mpr (not_lt.mp hshort)⟩, decoded, hdecoded, rfl⟩
  · rintro ⟨⟨rfl, hcovers⟩, decoded, hdecoded, rfl⟩
    exact ⟨decoded, hdecoded, if_neg (not_lt.mpr (decide_eq_true_iff.mp hcovers))⟩

def proposalFeeLeft (chosen : List AddressUtxo) (proposal : MultisigProposal) : ℤ :=
  worth AddressUtxo.valueSatoshis chosen -
    (proposal.outputs.map TxOutputSpec.valueSatoshis).sum

/-- What goes back to the multisig address. -/
def Platform.changePaid (platform : Platform) (change : ℤ) : ℤ :=
  if 0 < platform.int change then platform.number (platform.int change) else 0

/-- The fee that is left is the estimated one, less what the change output holds beyond the
change that is left. -/
theorem feeLeft_proposalFor (hexact : platform.Exact amount) (front : List AddressUtxo) :
    proposalFeeLeft front (proposalFor platform hash160 redeemScript amount feeRate decoded front) =
      feeRate * (multisigSizing redeemScript).estimatedVsize front.length -
        (platform.changePaid (proposalChange redeemScript amount feeRate front) -
          proposalChange redeemScript amount feeRate front) := by
  have houtputs : ((proposalOutputs platform hash160 redeemScript decoded amount
      (platform.int (proposalChange redeemScript amount feeRate front))).map
        TxOutputSpec.valueSatoshis).sum =
        amount + platform.changePaid (proposalChange redeemScript amount feeRate front) := by
    rw [proposalOutputs, List.map_cons, List.sum_cons, Platform.number_eq hexact,
      Platform.changePaid]
    split_ifs
    · rw [List.map_singleton, List.sum_singleton]
    · rfl
  have hchange : proposalChange redeemScript amount feeRate front =
      worth AddressUtxo.valueSatoshis front -
        (amount + feeRate * (multisigSizing redeemScript).estimatedVsize front.length) := by
    rw [proposalChange, required, List.sum_singleton, Nat.cast_add, Nat.cast_mul]
  rw [proposalFeeLeft, proposalFor, createMultisigProposal]
  dsimp only
  rw [houtputs]
  linarith

end Plans

section Size

variable {m : ℤ} {keys : List Bytes} {collected : Signatures}

/-- Signatures of full length, as many as are asked for. -/
structure FullyCosigned (m : ℤ) (keys : List Bytes) (collected : Signatures) : Prop
    extends Cosigned m keys collected where
  full : ∀ signature ∈ usedSigs m keys collected, signature.length = 72

def cosignedScriptSize (m keyCount : ℕ) : ℕ :=
  1 + 73 * m + (varInt (3 + 34 * keyCount)).length + (3 + 34 * keyCount)

def cosignedInputSize (m keyCount : ℕ) : ℕ :=
  40 + (varInt (cosignedScriptSize m keyCount)).length + cosignedScriptSize m keyCount

theorem length_multisigScriptSig (hcosigned : FullyCosigned m keys collected)
    (hkeys : ∀ pk ∈ keys, pk.length = 33) :
    (multisigScriptSig (usedSigs m keys collected) (redeemScriptOf m keys)).length =
      cosignedScriptSize m.toNat keys.length := by
  have hcount : (usedSigs m keys collected).length = m.toNat := by
    have henough := hcosigned.enough
    rw [usedSigs, List.length_take]
    omega
  have hsigs : ((usedSigs m keys collected).flatMap
      fun signature => UInt8.ofNat signature.length :: signature).length = 73 * m.toNat := by
    rw [List.length_flatMap, @List.map_congr_left _ _ _ _ (fun _ => 73)]
    · rw [List.map_const', List.sum_replicate, smul_eq_mul, hcount, Nat.mul_comm]
    · intro signature hmem
      rw [List.length_cons, hcosigned.full signature hmem]
  rw [multisigScriptSig, List.cons_append, List.cons_append, List.length_cons, List.length_append,
    List.length_append, hsigs, length_redeemScriptOf hkeys, cosignedScriptSize]
  omega

end Size

section Minimum

variable {platform : Platform} {hash160 : Bytes → Bytes} {m : ℤ} {keys : List Bytes}
  {amount feeRate : ℕ} {utxos front : List AddressUtxo} {decoded : DecodedAddress}

def MultisigProposal.signedBy (proposal : MultisigProposal) (collected : ℕ → Signatures) :
    MultisigProposal :=
  { proposal with signatures := (List.range proposal.inputs.length).map collected }

/-- The finalized transaction, as the node reads it, is paid for. -/
def ProposalPaysMinimum (params : Params) (nTime : ℤ) (platform : Platform)
    (chosen : List AddressUtxo) (proposal : MultisigProposal) : Prop :=
  ∃ txInputs, finalizedInputs platform proposal = .ok txInputs ∧
    finalizeMultisigTransaction platform proposal = .ok (serializeTransaction true
      (nodeTransaction txInputs proposal.outputs proposal.locktime)) ∧
    (getMinFee params (getVirtualTransactionSize
      (nodeTransaction txInputs proposal.outputs proposal.locktime)) nTime).toInt ≤
        proposalFeeLeft chosen proposal

/-- The estimate of a proposal is enough for full-length signatures, and for what the change
output holds beyond the change that is left. -/
def ProposalEstimateSuffices (platform : Platform) (hash160 : Bytes → Bytes) (m : ℤ)
    (keys : List Bytes) (amount feeRate : ℕ) (decoded : DecodedAddress)
    (front : List AddressUtxo) : Prop :=
  minimumFee (min (sizeWith front.length (cosignedInputSize m.toNat keys.length)
      (proposalOutputs platform hash160 (redeemScriptOf m keys) decoded amount
        (platform.int (proposalChange (redeemScriptOf m keys) amount feeRate front)))) 0xffffffff) +
    (platform.changePaid (proposalChange (redeemScriptOf m keys) amount feeRate front) -
      proposalChange (redeemScriptOf m keys) amount feeRate front) ≤
        feeRate * ((multisigSizing (redeemScriptOf m keys)).estimatedVsize front.length : ℤ)

variable {params : Params} {nTime : ℤ}

/-- The finalized transaction and the fee that is asked for it. -/
theorem proposalPaysMinimum_iff (hnonneg : 0 ≤ nTime) (hlt : nTime < 2 ^ 32)
    (hswitch : params.isProtocolV3_1 nTime = true)
    (hm : 1 ≤ m ∧ m ≤ keys.length ∧ keys.length ≤ 16) (hkeys : ∀ pk ∈ keys, pk.length = 33)
    (hexact : platform.Exact amount) (htxids : ∀ utxo ∈ utxos, utxo.txid.length = 32)
    (hfront : platform.ProposalTakes (redeemScriptOf m keys) amount feeRate utxos front)
    {collected : ℕ → Signatures} (hcosigned : ∀ index, FullyCosigned m keys (collected index)) :
    ProposalPaysMinimum params nTime platform front
        ((proposalFor platform hash160 (redeemScriptOf m keys) amount feeRate decoded
          front).signedBy collected) ↔
      ProposalEstimateSuffices platform hash160 m keys amount feeRate decoded front := by
  set proposal := (proposalFor platform hash160 (redeemScriptOf m keys) amount feeRate decoded
    front).signedBy collected with hproposal
  have hinputs : proposal.inputs =
      front.map (AddressUtxo.toProposalInput (redeemScriptOf m keys)) := rfl
  have hspends : ∀ input ∈ proposal.inputs, input.redeemScript = redeemScriptOf m keys :=
    List.forall_mem_map.mpr fun _ _ => rfl
  have hsignatures : ∀ index < proposal.inputs.length,
      proposal.signatures[index]? = some (collected index) ∧
        Cosigned m keys (collected index) := by
    intro index hindex
    refine ⟨?_, (hcosigned index).toCosigned⟩
    change ((List.range proposal.inputs.length).map collected)[index]? = _
    rw [List.getElem?_map, List.getElem?_range hindex]
    rfl
  have hfinal := finalizedInputs_eq platform hm hkeys hspends hsignatures
  set txInputs := proposal.inputs.zipIdx.map (finalizedInput m keys collected)
  have hcount : txInputs.length = front.length := by
    rw [List.length_map, List.length_zipIdx, hinputs, List.length_map]
  have hwire : ∀ input ∈ txInputs, input.prevTxid.length = 32 := by
    intro input hmem
    obtain ⟨entry, hentry, rfl⟩ := List.mem_map.mp hmem
    have hsource := List.fst_mem_of_mem_zipIdx hentry
    rw [hinputs] at hsource
    obtain ⟨utxo, hutxo, hentryEq⟩ := List.mem_map.mp hsource
    change entry.1.txid.length = 32
    rw [← hentryEq]
    exact htxids utxo (hfront.subset hutxo)
  have hbytes : ∀ input ∈ txInputs,
      (serializeInput input).length = cosignedInputSize m.toNat keys.length := by
    intro input hmem
    rw [length_serializeInput (hwire input hmem)]
    obtain ⟨entry, -, rfl⟩ := List.mem_map.mp hmem
    have hscript : (finalizedInput m keys collected entry).scriptSig.length =
        cosignedScriptSize m.toNat keys.length := length_multisigScriptSig (hcosigned entry.2) hkeys
    rw [hscript, cosignedInputSize]
  have hsize := length_serializeTx_eq hbytes proposal.outputs 2 proposal.locktime
  have hserialized : finalizeMultisigTransaction platform proposal = .ok (serializeTransaction true
      (nodeTransaction txInputs proposal.outputs proposal.locktime)) := by
    rw [finalizeMultisigTransaction, hfinal, ← serializeTx_eq true hwire]
    rfl
  have hfloor : (getMinFee params (getVirtualTransactionSize
      (nodeTransaction txInputs proposal.outputs proposal.locktime)) nTime).toInt =
        minimumFee (min (sizeWith front.length (cosignedInputSize m.toNat keys.length)
          proposal.outputs) 0xffffffff) := by
    rw [toInt_getMinFee_min hnonneg hlt hswitch,
      getVirtualTransactionSize_nodeTransaction hwire, hsize, hcount]
  have hleft := @feeLeft_proposalFor platform hash160 (redeemScriptOf m keys) amount feeRate
    decoded hexact front
  rw [ProposalEstimateSuffices, ← le_sub_iff_add_le, ← hleft]
  constructor
  · rintro ⟨found, hfound, -, hpays⟩
    obtain rfl := Except.ok.inj (hfinal.symm.trans hfound)
    rwa [hfloor] at hpays
  · intro hpays
    refine ⟨txInputs, hfinal, hserialized, ?_⟩
    rw [hfloor]
    exact hpays

def longSignatures : Signatures := fun _ => some (sigWithType .web longSignature)

theorem fullyCosigned_longSignatures (hm : m ≤ keys.length) :
    FullyCosigned m keys longSignatures := by
  have hlong := length_sigWithType_longSignature .web
  have hsigned : keys.filterMap longSignatures = keys.map fun _ => sigWithType .web longSignature :=
    congrFun List.filterMap_eq_map keys
  have hvalue : ∀ pk signature, longSignatures pk = some signature → signature.length = 72 := by
    intro pk signature hsignature
    rw [← Option.some.inj hsignature]
    exact hlong
  refine ⟨⟨?_, ?_, ?_⟩, ?_⟩
  · rwa [hsigned, List.length_map]
  · intro pk _ signature hsignature hnil
    have hlength := hvalue pk signature hsignature
    rw [hnil] at hlength
    exact absurd hlength (by decide)
  · intro pk _ signature hsignature
    rw [hvalue pk signature hsignature]
    decide
  · intro signature hmem
    obtain ⟨pk, -, hsignature⟩ := List.mem_filterMap.mp (List.mem_of_mem_take hmem)
    exact hvalue pk signature hsignature

/-- When proposals pay the fee the node asks for once `m` cosigners have added full-length
signatures: when the estimate reaches the size with those signatures, the redeem script and
the bytes of all counts.  A sum of the mobile wallet that wraps is paid out as change. -/
theorem proposal_pays_minimum_iff (params : Params) (nTime : ℤ) (hnonneg : 0 ≤ nTime)
    (hlt : nTime < 2 ^ 32) (hswitch : params.isProtocolV3_1 nTime = true) (platform : Platform)
    (context : SendContext) (hash160 : Bytes → Bytes) (m : ℤ) (keys : List Bytes)
    (redeemScript : Bytes) (hcreated : createMultisigRedeemScript m keys = .ok redeemScript)
    (toAddress : Utf16) (amount : ℕ) (hexact : platform.Exact amount) (utxos : List AddressUtxo)
    (htxids : ∀ utxo ∈ utxos, utxo.txid.length = 32) (feeRate : ℕ) :
    (∀ chosen proposal, platform.createProposal context hash160 redeemScript toAddress amount utxos
        feeRate = .ok (chosen, proposal) →
      ∀ collected : ℕ → Signatures, (∀ index, FullyCosigned m keys (collected index)) →
        ProposalPaysMinimum params nTime platform chosen (proposal.signedBy collected)) ↔
      ∀ front decoded, platform.ProposalTakes redeemScript amount feeRate utxos front →
        context.decodeAddress platform toAddress = .ok decoded →
          ProposalEstimateSuffices platform hash160 m keys amount feeRate decoded front := by
  obtain ⟨hm, hkeys, rfl⟩ := createMultisigRedeemScript_eq_ok.mp hcreated
  constructor
  · intro hpays front decoded hfront hdecoded
    have hcosigned : ∀ index : ℕ, FullyCosigned m keys ((fun _ => longSignatures) index) :=
      fun _ => fullyCosigned_longSignatures hm.2.1
    have hproposed := (@createProposal_eq_ok platform context hash160 _ toAddress amount feeRate
      utxos front _).mpr ⟨hfront, decoded, hdecoded, rfl⟩
    exact (proposalPaysMinimum_iff hnonneg hlt hswitch hm hkeys hexact htxids hfront
      hcosigned).mp (hpays _ _ hproposed _ hcosigned)
  · intro hestimate chosen proposal hproposed collected hcosigned
    obtain ⟨hfront, decoded, hdecoded, rfl⟩ := createProposal_eq_ok.mp hproposed
    exact (proposalPaysMinimum_iff hnonneg hlt hswitch hm hkeys hexact htxids hfront
      hcosigned).mpr (hestimate chosen decoded hfront hdecoded)

def sampleMultisigCoin (value : ℕ) : AddressUtxo := ⟨List.replicate 32 0, 0, value⟩

/-- RIPEMD-160 of SHA-256 of the redeem scripts of the first key alone and of the first two
keys, told apart by their length. -/
def sampleScriptHash (redeemScript : Bytes) : Bytes :=
  (littleEndian 20 (if redeemScript.length = 37 then 0x83eebb7d79aa1d388e3b0ac65b98ac580c4da01a
    else 0x12fcac201d73f5b5dba0f1f22c40f02da17bb4a4)).reverse

theorem proposal_pays_minimum_iff_one_key :
    createMultisigRedeemScript 1 [sampleKey 1] = .ok (redeemScriptOf 1 [sampleKey 1]) ∧
      ((∀ chosen proposal, Platform.mobile.createProposal sampleContext sampleScriptHash
          (redeemScriptOf 1 [sampleKey 1]) (sampleRecipient 0).address 100000
          [sampleMultisigCoin 200000] 100 = .ok (chosen, proposal) →
        ∀ collected : ℕ → Signatures, (∀ index, FullyCosigned 1 [sampleKey 1] (collected index)) →
          ProposalPaysMinimum (ChainType.main.consensus .sample) 2000000000 .mobile chosen
            (proposal.signedBy collected)) ↔
        ∀ front decoded, Platform.mobile.ProposalTakes (redeemScriptOf 1 [sampleKey 1]) 100000 100
            [sampleMultisigCoin 200000] front →
          sampleContext.decodeAddress .mobile (sampleRecipient 0).address = .ok decoded →
            ProposalEstimateSuffices .mobile sampleScriptHash 1 [sampleKey 1] 100000 100 decoded
              front) :=
  ⟨rfl, proposal_pays_minimum_iff (ChainType.main.consensus .sample) 2000000000 (by decide)
      (by decide) (by decide) .mobile sampleContext sampleScriptHash 1 [sampleKey 1] _ rfl
      (sampleRecipient 0).address 100000 nofun [sampleMultisigCoin 200000] (List.forall_mem_singleton.mpr rfl) 100⟩

/-- Two of two cosigners at the lowest rate: the fee is for 299 bytes, the transaction has
336. -/
theorem two_cosigners_below_minimum :
    ∃ chosen proposal,
      createMultisigRedeemScript 2 [sampleKey 1, sampleKey 2] =
        .ok (redeemScriptOf 2 [sampleKey 1, sampleKey 2]) ∧
      Platform.web.createProposal sampleContext sampleScriptHash
        (redeemScriptOf 2 [sampleKey 1, sampleKey 2]) (sampleRecipient 0).address 100000
        [sampleMultisigCoin 149900] 100 = .ok (chosen, proposal) ∧
      FullyCosigned 2 [sampleKey 1, sampleKey 2] longSignatures ∧
      ¬ProposalPaysMinimum (ChainType.main.consensus .sample) 2000000000 .web chosen
        (proposal.signedBy fun _ => longSignatures) := by
  have hcosigned : FullyCosigned 2 [sampleKey 1, sampleKey 2] longSignatures :=
    fullyCosigned_longSignatures (by decide)
  have hfront : Platform.web.ProposalTakes (redeemScriptOf 2 [sampleKey 1, sampleKey 2]) 100000 100
      [sampleMultisigCoin 149900] [sampleMultisigCoin 149900] :=
    .front (IsShortest.singleton (by decide))
  have hproposed := (@createProposal_eq_ok .web sampleContext sampleScriptHash _
    (sampleRecipient 0).address 100000 100 _ _ _).mpr
      ⟨hfront, _, decodeAddress_sampleRecipient .web 0, rfl⟩
  refine ⟨_, _, rfl, hproposed, hcosigned, fun hpays => ?_⟩
  rw [proposalPaysMinimum_iff (by decide) (by decide) (by decide) (by decide)
    (by decide) (Platform.exact_of_le (by decide) (by decide))
    (List.forall_mem_singleton.mpr rfl) hfront fun _ => hcosigned,
    ProposalEstimateSuffices] at hpays
  exact absurd hpays (by decide)

end Minimum

end FirstIslamicCoin.ClientWallet
