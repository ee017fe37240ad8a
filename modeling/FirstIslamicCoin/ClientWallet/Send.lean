import FirstIslamicCoin.ClientWallet.Address
import FirstIslamicCoin.ClientWallet.CoinSelection
import FirstIslamicCoin.Core.Outcome

/-!
# The send screens

The handler of the send button of `app.js`, and `_send` with `sendTransaction` of the mobile
wallet.  Both choose coins, pay the recipients and send what is left to the active address.
They differ in the order of their tests: the web wallet reads the addresses before it looks
at the coins, the mobile wallet after.

An answer of insufficient funds is about the coins in the order they are listed.  Coins that
are worth less than the fee for spending them stand in the way of those behind them.
-/

namespace FirstIslamicCoin.ClientWallet

open ByteCodec GreedyPrefix

section Screens

structure SpendableUtxo extends Utxo where
  valueSatoshis : ℕ

structure SendRecipient where
  address : Utf16
  amountSatoshis : ℕ

inductive SendFailure where
  | insufficientFunds (available need : ℤ)
  | other (message : String)
  deriving DecidableEq, Repr

structure SendPlan where
  inputs : List SpendableUtxo
  outputs : List TxOutputSpec
  feeSatoshis : ℤ

/-- What the screens use of the rest of the wallet. -/
structure SendContext where
  doubleSha256 : Bytes → Bytes
  packages : Mobile.Packages
  network : NetworkConfig
  /-- The hash of the public key of the active address. -/
  changeHash : Bytes

def p2shScriptPubKey (scriptHash20 : Bytes) : Bytes := [0xa9, 0x14] ++ scriptHash20 ++ [0x87]

def p2wpkhScriptPubKey (pubkeyHash20 : Bytes) : Bytes := [0x00, 0x14] ++ pubkeyHash20

def DecodedAddress.scriptPubKey (decoded : DecodedAddress) : Bytes :=
  match decoded.type with
  | .p2pkh => p2pkhScriptPubKey decoded.hash
  | .p2sh => p2shScriptPubKey decoded.hash
  | .p2wpkh => p2wpkhScriptPubKey decoded.hash

def SendContext.decodeAddress (context : SendContext) :
    Platform → Utf16 → Except String DecodedAddress
  | .web, address => Web.decodeAddress context.doubleSha256 address context.network
  | .mobile, address => Mobile.decodeAddress context.packages address context.network

variable (platform : Platform) (context : SendContext)

def destOutput (recipient : SendRecipient) : Except String TxOutputSpec := do
  let decoded ← context.decodeAddress platform recipient.address
  return ⟨decoded.scriptPubKey, platform.number recipient.amountSatoshis⟩

def amountsOf (recipients : List SendRecipient) : List ℕ :=
  recipients.map SendRecipient.amountSatoshis

def withChange (destOutputs : List TxOutputSpec) (change : ℤ) : List TxOutputSpec :=
  destOutputs ++
    if 0 < change then [⟨p2pkhScriptPubKey context.changeHash, platform.number change⟩] else []

/-- The sizes the send screens count with: one output more than there are recipients. -/
def sendSizing (recipients : List SendRecipient) : Sizing := ⟨148, recipients.length + 1⟩

variable (utxos : List SpendableUtxo) (recipients : List SendRecipient) (feeRate : ℕ)

def Platform.sendCoins : List SpendableUtxo × ℤ :=
  platform.selectCoins (sendSizing recipients) feeRate SpendableUtxo.valueSatoshis
    (platform.total (amountsOf recipients)) [] 0 utxos

/-- The handler of the button `btn-send-confirm`, up to signing. -/
def Web.planSend : Except SendFailure SendPlan := do
  let destOutputs ← (recipients.mapM (destOutput .web context)).mapError .other
  let amountTotal := Platform.web.total (amountsOf recipients)
  let (chosen, totalIn) := Platform.web.sendCoins utxos recipients feeRate
  let feeSatoshis := Platform.web.feeSatoshis (sendSizing recipients) feeRate chosen.length
  if totalIn < amountTotal + feeSatoshis then
    .error (.insufficientFunds totalIn (amountTotal + feeSatoshis))
  else
    let change := totalIn - amountTotal - feeSatoshis
    return ⟨chosen, withChange .web context destOutputs change, feeSatoshis⟩

/-- `sendTransaction`, up to signing. -/
def Mobile.sendTransaction (feeSatoshis : ℤ) : Except SendFailure SendPlan :=
  if recipients.isEmpty then .error (.other "No recipients specified")
  else do
    let destOutputs ← (recipients.mapM (destOutput .mobile context)).mapError .other
    let amountTotal := Platform.mobile.total (amountsOf recipients)
    let totalIn := Platform.mobile.total (utxos.map SpendableUtxo.valueSatoshis)
    let change := Platform.mobile.int (Platform.mobile.int (totalIn - amountTotal) - feeSatoshis)
    if change < 0 then
      .error (.insufficientFunds totalIn (Platform.mobile.int (amountTotal + feeSatoshis)))
    else return ⟨utxos, withChange .mobile context destOutputs change, feeSatoshis⟩

/-- `_send`, up to signing. -/
def Mobile.planSend : Except SendFailure SendPlan :=
  if utxos.isEmpty then .error (.other "No spendable funds found")
  else
    let amountTotal := Platform.mobile.total (amountsOf recipients)
    let (chosen, totalIn) := Platform.mobile.sendCoins utxos recipients feeRate
    let feeSatoshis := Platform.mobile.feeSatoshis (sendSizing recipients) feeRate chosen.length
    let need := Platform.mobile.int (amountTotal + feeSatoshis)
    if totalIn < need then .error (.insufficientFunds totalIn need)
    else Mobile.sendTransaction context chosen recipients feeSatoshis

def Platform.planSend : Except SendFailure SendPlan :=
  match platform with
  | .web => Web.planSend context utxos recipients feeRate
  | .mobile => Mobile.planSend context utxos recipients feeRate

def SendPlan.options (plan : SendPlan) : SpendOptions := ⟨plan.outputs, none, none, 0⟩

def Platform.send (sign : Sign) : Except SendFailure (SendPlan × Bytes) := do
  let plan ← platform.planSend context utxos recipients feeRate
  let rawTx ← (buildAndSignTransaction platform context.doubleSha256 sign
    (plan.inputs.map SpendableUtxo.toUtxo) plan.options).mapError .other
  return (plan, rawTx)

end Screens

section Plans

open Outcome

variable {platform : Platform} {context : SendContext} {utxos front : List SpendableUtxo}
  {recipients : List SendRecipient} {feeRate : ℕ} {destOutputs : List TxOutputSpec}

/-- The sums of a send are within 64 bits, where those are all there is. -/
abbrev Platform.SendFits (platform : Platform) (utxos : List SpendableUtxo)
    (recipients : List SendRecipient) (feeRate : ℕ) : Prop :=
  platform.NoOverflow (sendSizing recipients) feeRate SpendableUtxo.valueSatoshis
    (amountsOf recipients) utxos

/-- What a send must take in with a number of coins. -/
abbrev sendRequired (recipients : List SendRecipient) (feeRate inputs : ℕ) : ℕ :=
  required (sendSizing recipients) feeRate (amountsOf recipients) inputs

abbrev worthOf (coins : List SpendableUtxo) : ℕ := worth SpendableUtxo.valueSatoshis coins

abbrev sendCovers (recipients : List SendRecipient) (feeRate : ℕ) (coins : List SpendableUtxo) :
    Bool :=
  covers (sendSizing recipients) feeRate SpendableUtxo.valueSatoshis (amountsOf recipients) coins

def changeOf (recipients : List SendRecipient) (feeRate : ℕ) (front : List SpendableUtxo) : ℤ :=
  worthOf front - sendRequired recipients feeRate front.length

def planFor (platform : Platform) (context : SendContext) (recipients : List SendRecipient)
    (feeRate : ℕ) (destOutputs : List TxOutputSpec) (front : List SpendableUtxo) : SendPlan where
  inputs := front
  outputs := withChange platform context destOutputs
    (platform.int (changeOf recipients feeRate front))
  feeSatoshis := platform.feeSatoshis (sendSizing recipients) feeRate front.length

/-- The mobile wallet does not send to nobody. -/
def SomeRecipient (platform : Platform) (recipients : List SendRecipient) : Prop :=
  platform = .mobile → recipients ≠ []

abbrev Platform.sendCovers (platform : Platform) (recipients : List SendRecipient) (feeRate : ℕ)
    (coins : List SpendableUtxo) : Bool :=
  platform.covers (sendSizing recipients) feeRate SpendableUtxo.valueSatoshis
    (amountsOf recipients) coins

/-- The coins a send takes as the platform adds up, with change that does not look
negative. -/
structure Platform.SendTakes (platform : Platform) (utxos : List SpendableUtxo)
    (recipients : List SendRecipient) (feeRate : ℕ) (front : List SpendableUtxo) : Prop extends
    IsShortest (platform.sendCovers recipients feeRate) utxos front where
  change : 0 ≤ platform.int (changeOf recipients feeRate front)

def Platform.sendFront (platform : Platform) (utxos : List SpendableUtxo)
    (recipients : List SendRecipient) (feeRate : ℕ) : List SpendableUtxo :=
  takeUntil (platform.sendCovers recipients feeRate) [] utxos

theorem int_total_amounts :
    platform.int (platform.total (amountsOf recipients)) =
      platform.int ((amountsOf recipients).sum : ℕ) := by
  rw [Platform.total_eq, Platform.int_int]

theorem sendCovers_eq_false {coins : List SpendableUtxo} :
    platform.sendCovers recipients feeRate coins = false ↔
      platform.int (worthOf coins) < platform.int (sendRequired recipients feeRate coins.length) :=
  decide_eq_false_iff_not.trans not_le

theorem need_eq (inputs : ℕ) :
    platform.int (platform.total (amountsOf recipients) +
        platform.feeSatoshis (sendSizing recipients) feeRate inputs) =
      platform.int (sendRequired recipients feeRate inputs) :=
  Platform.need_eq int_total_amounts inputs

theorem change_eq (front : List SpendableUtxo) :
    platform.int (platform.int (platform.int (worthOf front) - platform.total (amountsOf recipients)) -
        platform.feeSatoshis (sendSizing recipients) feeRate front.length) =
      platform.int (changeOf recipients feeRate front) :=
  Platform.change_eq int_total_amounts front

theorem sendCoins_eq :
    platform.sendCoins utxos recipients feeRate =
      (platform.sendFront utxos recipients feeRate,
        platform.int (worthOf (platform.sendFront utxos recipients feeRate))) := by
  have hstart : (0 : ℤ) = platform.int (worthOf []) := Platform.int_zero.symm
  rw [Platform.sendCoins, hstart]
  exact Platform.selectCoins_eq int_total_amounts [] utxos

/-- The web wallet takes a front that covers. -/
theorem Web.planSend_eq :
    Web.planSend context utxos recipients feeRate = do
      let destOutputs ← (recipients.mapM (destOutput .web context)).mapError .other
      let chosen := Platform.web.sendFront utxos recipients feeRate
      if Platform.web.sendCovers recipients feeRate chosen = false then
        .error (.insufficientFunds (worthOf chosen)
          (sendRequired recipients feeRate chosen.length))
      else return planFor .web context recipients feeRate destOutputs chosen := by
  have hneed := @need_eq .web recipients feeRate
    (Platform.web.sendFront utxos recipients feeRate).length
  have hchange := @change_eq .web recipients feeRate
    (Platform.web.sendFront utxos recipients feeRate)
  dsimp only [Platform.int] at hneed hchange
  rw [Web.planSend, sendCoins_eq]
  dsimp only [Platform.int]
  rw [hneed, hchange]
  congr 1
  funext destOutputs
  exact if_congr (@sendCovers_eq_false .web recipients feeRate _).symm rfl rfl

/-- The mobile wallet looks at the sum of the coins once more before it signs. -/
theorem Mobile.planSend_eq :
    Mobile.planSend context utxos recipients feeRate =
      if utxos = [] then .error (.other "No spendable funds found")
      else
        let chosen := Platform.mobile.sendFront utxos recipients feeRate
        let available := Platform.mobile.int (worthOf chosen)
        let need := Platform.mobile.int (sendRequired recipients feeRate chosen.length)
        if Platform.mobile.sendCovers recipients feeRate chosen = false then
          .error (.insufficientFunds available need)
        else if recipients = [] then .error (.other "No recipients specified")
        else do
          let destOutputs ← (recipients.mapM (destOutput .mobile context)).mapError .other
          if Platform.mobile.int (changeOf recipients feeRate chosen) < 0 then
            .error (.insufficientFunds available need)
          else return planFor .mobile context recipients feeRate destOutputs chosen := by
  have htotal : Platform.mobile.total ((Platform.mobile.sendFront utxos recipients feeRate).map
      SpendableUtxo.valueSatoshis) =
        Platform.mobile.int (worthOf (Platform.mobile.sendFront utxos recipients feeRate)) :=
    Platform.total_eq _
  rw [Mobile.planSend, sendCoins_eq]
  dsimp only
  rw [need_eq]
  refine if_congr List.isEmpty_iff rfl (if_congr sendCovers_eq_false.symm rfl ?_)
  rw [Mobile.sendTransaction, htotal]
  refine if_congr List.isEmpty_iff rfl ?_
  dsimp only
  rw [need_eq, change_eq]
  rfl

/-- Every plan with coins comes from the coins that a send takes. -/
theorem planSend_eq_ok {plan : SendPlan}
    (hplan : platform.planSend context utxos recipients feeRate = .ok plan)
    (hinputs : plan.inputs ≠ []) :
    ∃ destOutputs, recipients.mapM (destOutput platform context) = .ok destOutputs ∧
      SomeRecipient platform recipients ∧
      platform.SendTakes utxos recipients feeRate plan.inputs ∧
      plan = planFor platform context recipients feeRate destOutputs plan.inputs := by
  cases platform with
  | web =>
    rw [Platform.planSend, Web.planSend_eq] at hplan
    obtain ⟨destOutputs, hdest, hrest⟩ := bind_eq_ok.mp hplan
    dsimp only at hrest
    split_ifs at hrest with hshort
    obtain rfl := pure_eq_ok.mp hrest
    have hcovers := Bool.not_eq_false _ ▸ hshort
    exact ⟨destOutputs, mapError_eq_ok.mp hdest, nofun,
      ⟨isShortest_takeUntil hcovers hinputs, sub_nonneg.mpr (decide_eq_true_iff.mp hcovers)⟩, rfl⟩
  | mobile =>
    rw [Platform.planSend, Mobile.planSend_eq] at hplan
    dsimp only at hplan
    split_ifs at hplan with hempty hshort hnobody hnegative <;>
      obtain ⟨destOutputs, hdest, hrest⟩ := bind_eq_ok.mp hplan
    · exact absurd hrest nofun
    · obtain rfl := pure_eq_ok.mp hrest
      exact ⟨destOutputs, mapError_eq_ok.mp hdest, fun _ => hnobody,
        ⟨isShortest_takeUntil (Bool.not_eq_false _ ▸ hshort) hinputs, not_lt.mp hnegative⟩, rfl⟩

/-- Coins that a send takes, and addresses that can be read, make a plan. -/
theorem planSend_of_takes (hdest : recipients.mapM (destOutput platform context) = .ok destOutputs)
    (hsome : SomeRecipient platform recipients)
    (hfront : platform.SendTakes utxos recipients feeRate front) :
    platform.planSend context utxos recipients feeRate =
      .ok (planFor platform context recipients feeRate destOutputs front) := by
  have htaken : platform.sendFront utxos recipients feeRate = front :=
    takeUntil_eq hfront.toIsShortest
  have hcovers : ¬platform.sendCovers recipients feeRate front = false := by
    rw [hfront.sufficient]
    exact Bool.noConfusion
  cases platform with
  | web =>
    rw [Platform.planSend, Web.planSend_eq, hdest]
    dsimp only [Except.mapError, bind, Except.bind]
    rw [htaken, if_neg hcovers]
    rfl
  | mobile =>
    have hutxos : utxos ≠ [] := by
      rintro rfl
      exact hfront.nonempty (List.prefix_nil.mp hfront.starts)
    rw [Platform.planSend, Mobile.planSend_eq, if_neg hutxos, htaken]
    dsimp only
    rw [if_neg hcovers, if_neg (hsome rfl), hdest]
    dsimp only [Except.mapError, bind, Except.bind]
    rw [if_neg (not_lt.mpr hfront.change)]
    rfl

section Exact

variable (hfits : platform.SendFits utxos recipients feeRate)
include hfits

theorem sendCovers_eq (hstarts : front <+: utxos) :
    platform.sendCovers recipients feeRate front = sendCovers recipients feeRate front :=
  Platform.covers_eq hfits hstarts

theorem int_changeOf (hstarts : front <+: utxos)
    (hcovers : sendCovers recipients feeRate front = true) :
    platform.int (changeOf recipients feeRate front) = changeOf recipients feeRate front :=
  Platform.int_change hfits hstarts (covers_eq_true.mp hcovers)

/-- When a send answers that funds are insufficient. -/
theorem insufficientFunds_iff (hrate : 0 < feeRate) :
    (∃ available need, platform.planSend context utxos recipients feeRate =
        .error (.insufficientFunds available need)) ↔
      (platform = .web → ∃ destOutputs, recipients.mapM (destOutput .web context) =
        .ok destOutputs) ∧ (platform = .mobile → utxos ≠ []) ∧
      ∀ front, front <+: utxos → front ≠ [] → sendCovers recipients feeRate front = false := by
  have hnil : platform.sendCovers recipients feeRate [] = false := by
    have hpositive : 0 < sendRequired recipients feeRate 0 := required_pos hrate 0
    rw [sendCovers_eq hfits List.nil_prefix, Bool.eq_false_iff, Ne, covers_eq_true]
    exact not_le.mpr hpositive
  have hshort : platform.sendCovers recipients feeRate
      (platform.sendFront utxos recipients feeRate) = false ↔
        ∀ front, front <+: utxos → front ≠ [] → sendCovers recipients feeRate front = false := by
    rw [Platform.sendFront, takeUntil_short_iff hnil]
    refine forall_congr' fun front => forall_congr' fun hfront => forall_congr' fun _ => ?_
    rw [sendCovers_eq hfits hfront]
  cases platform with
  | web =>
    rw [Platform.planSend, Web.planSend_eq, ← hshort]
    cases hdest : recipients.mapM (destOutput .web context) with
    | error message => simp [Except.mapError, bind, Except.bind]
    | ok destOutputs =>
      dsimp only [Except.mapError, bind, Except.bind]
      split_ifs with hless <;> simp [hless, pure, Except.pure]
  | mobile =>
    rw [Platform.planSend, Mobile.planSend_eq, ← hshort]
    dsimp only
    split_ifs with hempty hless hnobody hnegative
    · simp [hempty]
    · simp [hempty, hless]
    · simp [hless]
    · have hstarts := takeUntil_starts (Platform.mobile.sendCovers recipients feeRate) utxos
      have hcovers := (sendCovers_eq hfits hstarts).symm.trans (Bool.not_eq_false _ ▸ hless)
      have hcovered : sendRequired recipients feeRate _ ≤ worthOf _ := covers_eq_true.mp hcovers
      rw [Platform.sendFront, int_changeOf hfits hstarts hcovers, changeOf] at hnegative
      omega
    · cases hdest : recipients.mapM (destOutput .mobile context) <;>
        simp [hless, Except.mapError, bind, Except.bind, pure, Except.pure]

end Exact

end Plans

section Insufficient

open Outcome

variable {context : SendContext} {recipients : List SendRecipient} {feeRate : ℕ}

def inputCost (feeRate : ℕ) : ℤ := 148 * feeRate

def valuesOf (coins : List SpendableUtxo) : List ℤ := coins.map fun coin => (coin.valueSatoshis : ℤ)

def sendBase (recipients : List SendRecipient) (feeRate : ℕ) : ℤ :=
  (amountsOf recipients).sum + feeRate * (10 + 34 * (recipients.length + 1))

theorem sum_valuesOf (coins : List SpendableUtxo) : (valuesOf coins).sum = worthOf coins := by
  rw [valuesOf, worthOf, worth, Nat.cast_list_sum, List.map_map]
  rfl

/-- Coins cover a send when what they are worth beyond their own cost does. -/
theorem covered_iff_netWorth (coins : List SpendableUtxo) :
    sendRequired recipients feeRate coins.length ≤ worthOf coins ↔
      sendBase recipients feeRate ≤ netWorth (inputCost feeRate) (valuesOf coins) := by
  have hlength : (valuesOf coins).length = coins.length := List.length_map _
  rw [netWorth_eq, sum_valuesOf, hlength, sendBase, inputCost, ← Nat.cast_le (α := ℤ)]
  rw [sendRequired, required, Sizing.estimatedVsize, sendSizing]
  push_cast
  constructor <;> intro h <;> linarith

def worthwhileCoins (feeRate : ℕ) (coins : List SpendableUtxo) : List SpendableUtxo :=
  coins.filter fun coin => inputCost feeRate < (coin.valueSatoshis : ℤ)

theorem valuesOf_worthwhileCoins (coins : List SpendableUtxo) :
    valuesOf (worthwhileCoins feeRate coins) = worthwhile (inputCost feeRate) (valuesOf coins) := by
  rw [valuesOf, worthwhileCoins, worthwhile, valuesOf, List.filter_map]
  rfl

/-- Some coins cover a send exactly when those worth more than their cost do. -/
theorem exists_covering_iff (utxos : List SpendableUtxo) :
    (∃ coins, coins.Sublist utxos ∧ sendRequired recipients feeRate coins.length ≤ worthOf coins) ↔
      sendBase recipients feeRate ≤
        netWorth (inputCost feeRate) (worthwhile (inputCost feeRate) (valuesOf utxos)) := by
  constructor
  · rintro ⟨coins, hsublist, hcovered⟩
    exact (covered_iff_netWorth coins |>.mp hcovered).trans
      (netWorth_le_worthwhile _ (hsublist.map _))
  · intro hworth
    refine ⟨worthwhileCoins feeRate utxos, List.filter_sublist, ?_⟩
    rwa [covered_iff_netWorth, valuesOf_worthwhileCoins]

theorem destOutput_error_iff {recipient : SendRecipient} :
    (∃ output, destOutput .web context recipient = .ok output) ↔
      ¬∃ message, context.decodeAddress .web recipient.address = .error message := by
  rw [destOutput]
  cases context.decodeAddress .web recipient.address with
  | error message => simp [bind, Except.bind]
  | ok decoded => simp [bind, Except.bind, pure, Except.pure]

def sampleContext : SendContext where
  doubleSha256 := Sha256.doubleSha256
  packages := .reference Sha256.doubleSha256
  network := FicNetwork.testnet.config
  changeHash := sampleKeyHash

def sampleRecipient (amount : ℕ) : SendRecipient where
  address := base58checkEncode Sha256.doubleSha256
    (FicNetwork.testnet.config.p2pkhVersion :: List.replicate 20 0)
  amountSatoshis := amount

def sampleCoin (value : ℕ) : SpendableUtxo where
  toUtxo := { sampleUtxo with
    privateKey := some (samplePrivateKey 1)
    publicKeyCompressed := some (sampleKey 1) }
  valueSatoshis := value

theorem decodeAddress_sampleRecipient (platform : Platform) (amount : ℕ) :
    sampleContext.decodeAddress platform (sampleRecipient amount).address =
      .ok ⟨.p2pkh, List.replicate 20 0⟩ := by
  have hclash : ¬ PrefixClash Sha256.doubleSha256 .testnet
      ⟨.p2pkh, List.replicate 20 0⟩ := fun hclash => absurd hclash.1 (by decide)
  cases platform with
  | web => exact (Web.decodeAddress_p2pkh Sha256.length_doubleSha256 rfl).1 hclash
  | mobile =>
    exact (Mobile.decodeAddress_p2pkh Sha256.length_doubleSha256
      (Mobile.Packages.reference_correct Sha256.length_doubleSha256) rfl).1 hclash

theorem destOutput_sampleRecipient (platform : Platform) (amount : ℕ) :
    destOutput platform sampleContext (sampleRecipient amount) =
      .ok ⟨p2pkhScriptPubKey (List.replicate 20 0), platform.number amount⟩ := by
  rw [destOutput, decodeAddress_sampleRecipient]
  rfl

theorem insufficient_answer_iff (platform : Platform) (context : SendContext)
    (utxos : List SpendableUtxo) (recipients : List SendRecipient) (feeRate : ℕ)
    (hrate : 0 < feeRate) (hfits : platform.SendFits utxos recipients feeRate) :
    ((∃ available need, platform.planSend context utxos recipients feeRate =
        .error (.insufficientFunds available need)) →
      ∀ coins, coins.Sublist utxos →
        worthOf coins < sendRequired recipients feeRate coins.length) ↔
      (platform = .web ∧ ∃ recipient ∈ recipients, ∃ message,
        context.decodeAddress .web recipient.address = .error message) ∨
      (∃ front, front <+: utxos ∧ front ≠ [] ∧
        sendRequired recipients feeRate front.length ≤ worthOf front) ∨
      netWorth (inputCost feeRate) (worthwhile (inputCost feeRate) (valuesOf utxos)) <
        sendBase recipients feeRate := by
  rw [insufficientFunds_iff hfits hrate]
  have hsubsets : (∀ coins, coins.Sublist utxos →
      worthOf coins < sendRequired recipients feeRate coins.length) ↔
        netWorth (inputCost feeRate) (worthwhile (inputCost feeRate) (valuesOf utxos)) <
          sendBase recipients feeRate := by
    rw [← not_le, ← exists_covering_iff]
    push Not
    exact Iff.rfl
  rw [hsubsets, exists_mapM_eq_ok]
  simp only [destOutput_error_iff]
  constructor
  · intro hanswer
    by_contra hcontra
    push Not at hcontra
    obtain ⟨hread, hfronts, hworth⟩ := hcontra
    refine absurd (hanswer ⟨?_, ?_, ?_⟩) (not_lt.mpr hworth)
    · rintro hweb recipient hmem ⟨message, hmessage⟩
      exact hread hweb recipient hmem message hmessage
    · rintro - rfl
      -- without coins nothing is worth anything, and a send costs something
      have hbase : 0 < sendBase recipients feeRate := by
        rw [sendBase]
        positivity
      exact absurd hworth (not_le.mpr hbase)
    · intro front hprefix hne
      rw [Bool.eq_false_iff, Ne, covers_eq_true]
      exact not_le.mpr (hfronts front hprefix hne)
  · rintro hcases ⟨hread, -, hnone⟩
    rcases hcases with ⟨hweb, recipient, hmem, hfailed⟩ | ⟨front, hprefix, hne, hcovered⟩ | hworth
    · exact absurd hfailed (hread hweb recipient hmem)
    · exact absurd (covers_eq_true.mpr hcovered) (Bool.eq_false_iff.mp (hnone front hprefix hne))
    · exact hworth

theorem insufficient_answer_iff_one_coin :
    Platform.mobile.SendFits [sampleCoin 1000] [sampleRecipient 100000] 100 ∧
      (((∃ available need, Platform.mobile.planSend sampleContext [sampleCoin 1000]
          [sampleRecipient 100000] 100 = .error (.insufficientFunds available need)) →
        ∀ coins, coins.Sublist [sampleCoin 1000] →
          worthOf coins < sendRequired [sampleRecipient 100000] 100 coins.length) ↔
        (Platform.mobile = .web ∧ ∃ recipient ∈ [sampleRecipient 100000], ∃ message,
          sampleContext.decodeAddress .web recipient.address = .error message) ∨
        (∃ front, front <+: [sampleCoin 1000] ∧ front ≠ [] ∧
          sendRequired [sampleRecipient 100000] 100 front.length ≤ worthOf front) ∨
        netWorth (inputCost 100) (worthwhile (inputCost 100) (valuesOf [sampleCoin 1000])) <
          sendBase [sampleRecipient 100000] 100) :=
  ⟨fun _ => by decide, insufficient_answer_iff .mobile sampleContext [sampleCoin 1000]
    [sampleRecipient 100000] 100 (by decide) fun _ => by decide⟩

/-- A coin worth less than its fee stands before one that would pay for the send alone. -/
theorem small_coin_first_insufficient :
    (∃ available need, Platform.web.planSend sampleContext [sampleCoin 1000, sampleCoin 125000]
        [sampleRecipient 100000] 100 = .error (.insufficientFunds available need)) ∧
      [sampleCoin 125000].Sublist [sampleCoin 1000, sampleCoin 125000] ∧
      sendRequired [sampleRecipient 100000] 100 [sampleCoin 125000].length ≤
        worthOf [sampleCoin 125000] := by
  have hfits : Platform.web.SendFits [sampleCoin 1000, sampleCoin 125000]
      [sampleRecipient 100000] 100 := nofun
  refine ⟨(insufficientFunds_iff hfits (by decide)).mpr ⟨fun _ => ?_, nofun, ?_⟩,
    List.Sublist.cons _ (List.Sublist.refl _), by decide⟩
  · rw [exists_mapM_eq_ok, List.forall_mem_singleton]
    exact ⟨_, destOutput_sampleRecipient .web 100000⟩
  · intro front hprefix hne
    rw [← List.mem_inits] at hprefix
    simp only [List.inits, List.map_cons, List.map_nil, List.mem_cons, List.not_mem_nil,
      or_false] at hprefix
    rcases hprefix with rfl | rfl | rfl
    · exact absurd rfl hne
    · decide
    · decide

end Insufficient

end FirstIslamicCoin.ClientWallet
