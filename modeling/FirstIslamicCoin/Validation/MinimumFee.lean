import FirstIslamicCoin.Validation.Supply

/-!
# The minimum fee

After protocol version 3.1 a transaction must pay ten thousand for up to a
hundred virtual bytes and a hundred for every virtual byte beyond.  The rule is
switched on by the time of the transaction, not of the block.  It therefore
binds every ordinary transaction of an accepted block that counts as dated
after the switch, and no other.
-/

namespace FirstIslamicCoin

open Outcome

def minimumFee (virtualSize : ℕ) : ℤ :=
  if virtualSize ≤ 100 then 10000 else 100 * virtualSize

theorem getFee_txFeePerKB (numBytes : ℕ) :
    getFee txFeePerKB numBytes = 100 * numBytes := by
  simp only [getFee, txFeePerKB]
  split_ifs <;> omega

/-- `GetMinFee` after the switch. -/
theorem toInt_getMinFee {params : Params} {virtualSize : ℕ} {nTime : ℤ}
    (hnonneg : 0 ≤ nTime) (hlt : nTime < 2 ^ 32) (hswitch : params.isProtocolV3_1 nTime = true)
    (hsize : virtualSize < 2 ^ 32) :
    (getMinFee params virtualSize nTime).toInt = minimumFee virtualSize := by
  have htime : nTime % 2 ^ 32 = nTime := Int.emod_eq_of_lt hnonneg hlt
  have hbytes : min virtualSize 0xffffffff = virtualSize := by omega
  have hrange : Overflow.InRange (100 * virtualSize) := by
    constructor <;> omega
  have hfee := Overflow.toInt_ofInt hrange
  rw [getMinFee, htime, hswitch, hbytes, getFee_txFeePerKB, minimumFee]
  simp only [if_true]
  split_ifs with hsmall hmoney hmoney
  · decide
  · exact absurd (by decide) hmoney
  · exact hfee
  · rw [moneyRange_eq_true, hfee] at hmoney
    omega

theorem nTimeTx_bounds {now : ℤ} (tx : CTransaction) (hnonneg : 0 ≤ now)
    (hlt : now < 2 ^ 32) : 0 ≤ nTimeTx now tx ∧ nTimeTx now tx < 2 ^ 32 := by
  have htime := tx.nTime.toNat_lt
  rw [nTimeTx]
  split_ifs <;> omega

theorem minimumFee_le_fee (setting : Setting) (index : CBlockIndex)
    (pprev : IndexChain) (prevModifier : UInt256) (view : CoinsView)
    (bestBlock : UInt256) (block : CBlock) (fJustCheck : Bool) (connected : Connected)
    (hgenesis : index.hashBlock ≠ setting.params.hashGenesisBlock)
    (hconnect : connectBlock setting (index :: pprev) prevModifier view bestBlock
      block fJustCheck = .ok connected)
    (hnonneg : 0 ≤ setting.now) (hlt : setting.now < 2 ^ 32)
    (before after : List CTransaction) (tx : CTransaction)
    (hvtx : block.vtx = before ++ tx :: after)
    (hcoinbase : tx.isCoinBase = false) (hcoinstake : tx.isCoinStake = false)
    (hswitch : setting.params.isProtocolV3_1 (nTimeTx setting.now tx) = true)
    (hsize : getVirtualTransactionSize tx < 2 ^ 32) :
    minimumFee (getVirtualTransactionSize tx) ≤
      (view.applyAll setting.env index.nHeight before).valueIn tx -
        tx.totalOut := by
  obtain ⟨state, hrun⟩ := connectBlock_run hgenesis hconnect
  obtain ⟨txfee, hcheck⟩ := hrun.checkTxInputs_eq_ok hvtx hcoinbase
  obtain ⟨_, _, _, hpays⟩ := checkTxInputs_eq_ok.mp hcheck
  obtain ⟨_, _, hfee, hminimum⟩ := hpays hcoinstake
  obtain ⟨htimeNonneg, htimeLt⟩ := nTimeTx_bounds tx hnonneg hlt
  calc
    minimumFee (getVirtualTransactionSize tx) =
        (getMinFee setting.params (getVirtualTransactionSize tx)
          (nTimeTx setting.now tx)).toInt :=
      (toInt_getMinFee htimeNonneg htimeLt hswitch hsize).symm
    _ ≤ txfee.toInt := hminimum hswitch
    _ = (view.applyAll setting.env index.nHeight before).valueIn tx -
        tx.totalOut := hfee

section Evasion

open External

/-- An untimed transaction of version 2 that spends the second premine output
and pays a fee. -/
def untimedSpend : CTransaction where
  vin := [⟨⟨ChainType.main.genesisTx.getHash sample, 1⟩, [], 0xffffffff, []⟩]
  vout := [⟨1399999999900000, [0x51]⟩]
  nVersion := 2
  nTime := 0
  nLockTime := 0

/-- A transaction of version 1, stamped one second after the epoch, that spends
its output and pays nothing. -/
def feelessSpend : CTransaction where
  vin := [⟨⟨untimedSpend.getHash sample, 0⟩, [], 0xffffffff, []⟩]
  vout := [⟨1399999999900000, [0x51]⟩]
  nVersion := 1
  nTime := 1
  nLockTime := 0

def evadingTransactions : List CTransaction := [untimedSpend, feelessSpend]

def evadingFirst : AcceptedFirst :=
  ⟨1789171216, 100000, evadingTransactions, by decide +kernel⟩

theorem exists_connected_evading :
    ∃ connected, connectFirstStake 1789171216 100000 evadingTransactions = .ok connected :=
  isOk_iff_exists.mp evadingFirst.accepted

theorem hashBlock_evading_ne :
    (firstStakeIndex 100000 evadingTransactions).hashBlock ≠
      (Setting.sample .main 1789171216 0).params.hashGenesisBlock :=
  evadingFirst.hashBlock_ne

/-- The rule applied to the untimed transaction of that block. -/
theorem minimumFee_le_fee_untimedSpend :
    minimumFee (getVirtualTransactionSize untimedSpend) ≤
      ((ChainTip.genesis sample .main).view.applyAll sample
        (firstStakeIndex 100000 evadingTransactions).nHeight
        (firstStakeTransactions 100000 [])).valueIn untimedSpend -
          untimedSpend.totalOut := by
  obtain ⟨connected, hconnect⟩ := exists_connected_evading
  exact minimumFee_le_fee (Setting.sample .main 1789171216 0)
    (firstStakeIndex 100000 evadingTransactions) _ _ _ _
    (firstStakeBlock 100000 evadingTransactions) false connected
    hashBlock_evading_ne hconnect (by decide) (by decide)
    (firstStakeTransactions 100000 []) [feelessSpend] untimedSpend rfl
    (by decide +kernel) (by decide +kernel) (by decide +kernel) (by decide +kernel)

/-- The main network accepts as its first block, dated after version 3.1, one
whose last transaction pays no fee at all. -/
theorem exists_connected_feelessSpend :
    ∃ connected, connectFirstStake 1789171216 100000 evadingTransactions =
        .ok connected ∧
      (ChainType.main.consensus sample).isProtocolV3_1
        (firstStakeBlock 100000 evadingTransactions).getBlockTime = true ∧
      feelessSpend ∈ (firstStakeBlock 100000 evadingTransactions).vtx ∧
      feelessSpend.isCoinBase = false ∧ feelessSpend.isCoinStake = false ∧
      ((ChainTip.genesis sample .main).view.applyAll sample 1
        (firstStakeTransactions 100000 [untimedSpend])).valueIn feelessSpend -
          feelessSpend.totalOut = 0 ∧
      0 < minimumFee (getVirtualTransactionSize feelessSpend) := by
  obtain ⟨connected, hconnect⟩ := exists_connected_evading
  refine ⟨connected, hconnect, by decide +kernel, ?_, by decide +kernel,
    by decide +kernel, by decide +kernel, by decide +kernel⟩
  simp [firstStakeBlock, CBlock.assemble, firstStakeTransactions, evadingTransactions]

end Evasion

end FirstIslamicCoin
