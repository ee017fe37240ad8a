import FirstIslamicCoin.ClientWallet.SendFee
import FirstIslamicCoin.Policy.Standard

/-!
# The change of a send

A send pays every recipient, leaves the estimated fee and returns the rest as change, down
to a single satoshi.  The node does not relay a P2PKH output below 18200, a hundred for each
of the 182 bytes that it and its spending take.
-/

namespace FirstIslamicCoin.ClientWallet

open ByteCodec GreedyPrefix Outcome

section Output

variable {policy : StandardPolicy} {hash : Bytes}

end Output

section Change

variable {platform : Platform} {context : SendContext} {utxos front : List SpendableUtxo}
  {recipients : List SendRecipient} {feeRate : ℕ} {destOutputs : List TxOutputSpec}

/-- A plan pays what was asked, keeps the value of its coins and has change, if any, that the
node relays. -/
structure SendPlan.Sound (policy : StandardPolicy) (recipients : List SendRecipient)
    (plan : SendPlan) : Prop where
  paid : (plan.outputs.take recipients.length).map TxOutputSpec.valueSatoshis =
    (amountsOf recipients).map Nat.cast
  conserved : (worthOf plan.inputs : ℤ) = (amountsOf recipients).sum + plan.feeSatoshis +
    ((plan.outputs.drop recipients.length).map TxOutputSpec.valueSatoshis).sum
  atMostOne : (plan.outputs.drop recipients.length).length ≤ 1
  relayed : ∀ output ∈ plan.outputs.drop recipients.length,
    isDust output.toTxOut policy.dustRelayFee = false ∧
      ∀ nDataOut, checkStandardOutput policy nDataOut output.toTxOut = .ok nDataOut

end Change

end FirstIslamicCoin.ClientWallet
