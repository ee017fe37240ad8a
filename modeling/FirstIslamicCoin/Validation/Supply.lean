import FirstIslamicCoin.Validation.Chain
import FirstIslamicCoin.Validation.Minting

/-!
# The supply of proof-of-stake chains

On a chain of proof-of-stake blocks every block mints exactly the fixed stake
reward: its coinbase is empty, its coinstake creates the reward and the fees,
and the fees leave the set through the other transactions.  Since coin values
are never negative and the supply stays small, no sum formed on the way leaves
the 64-bit range, so the same chain is accepted when an overflow traps.
-/

namespace FirstIslamicCoin

open Outcome

/-- No coin has a negative value. -/
def CoinsView.NonNegative (view : CoinsView) : Prop :=
  ∀ outpoint coin, view.lookup outpoint = some coin → 0 ≤ coin.value

namespace CoinsView.NonNegative

variable {env : External} {view : CoinsView} {nHeight : ℤ}

theorem applyTx {tx : CTransaction} (hview : view.NonNegative)
    (houts : ∀ out ∈ tx.vout, 0 ≤ out.value) : (view.applyTx env tx nHeight).NonNegative := by
  intro outpoint coin hlookup
  rcases lookup_applyTx_cases hlookup with hbefore | hnew
  · exact hview outpoint coin hbefore
  · obtain ⟨out, position, hout, _, heq⟩ := CTransaction.exists_of_mem_newCoins hnew
    obtain ⟨_, rfl⟩ := Prod.mk.inj heq
    exact houts out (List.mem_of_getElem? hout)

theorem applyAll {vtx : List CTransaction} (hview : view.NonNegative)
    (houts : ∀ tx ∈ vtx, ∀ out ∈ tx.vout, 0 ≤ out.value) :
    (view.applyAll env nHeight vtx).NonNegative := by
  induction vtx generalizing view with
  | nil => exact hview
  | cons tx vtx ih =>
    obtain ⟨hhead, htail⟩ := List.forall_mem_cons.mp houts
    exact ih (hview.applyTx hhead) htail

theorem valueIn_le {tx : CTransaction} (hview : view.NonNegative)
    (hnodup : tx.prevouts.Nodup) : view.valueIn tx ≤ view.totalValue :=
  FiniteMap.sum_weightAt_le_total Coin.value hnodup hview

end CoinsView.NonNegative

section Stake

variable {setting : Setting} {pprev : IndexChain} {index : CBlockIndex}
  {prevModifier : UInt256} {view : CoinsView} {block : CBlock}
  {connected : Connected} {state : ConnectState}

theorem totalOut_of_isEmptyCoinbase {coinbase : CTransaction}
    (hempty : isEmptyCoinbase block coinbase = true) : coinbase.totalOut = 0 := by
  unfold isEmptyCoinbase at hempty
  split at hempty
  · rename_i out _ hvout
    rw [CTransaction.totalOut, hvout]
    simp [CTxOut.value_of_isEmpty hempty]
  · rename_i out commitment _ hvout
    rw [Bool.and_eq_true, beq_iff_eq] at hempty
    have hcommitment : commitment.value = 0 := by
      rw [CTxOut.value, hempty.2, Int64.toInt_zero]
    rw [CTransaction.totalOut, hvout]
    simp [CTxOut.value_of_isEmpty hempty.1, hcommitment]
  · exact absurd hempty Bool.false_ne_true

/-- The two transactions an accepted proof-of-stake block begins with, and the
reward recorded for the second. -/
structure StakeHead (setting : Setting) (index : CBlockIndex) (view : CoinsView)
    (block : CBlock) (state : ConnectState) (coinbase coinstake : CTransaction)
    (rest : List CTransaction) : Prop where
  vtx_eq : block.vtx = coinbase :: coinstake :: rest
  isCoinBase : coinbase.isCoinBase = true
  isCoinStake : coinstake.isCoinStake = true
  ordinary : ∀ tx ∈ rest, tx.isCoinStake = false
  coinbase_totalOut : coinbase.totalOut = 0
  coinbase_value_nonneg : ∀ out ∈ coinbase.vout, 0 ≤ out.value
  coinstake_checked : CheckedTransaction coinstake
  totalValue_le : (view.applyTx setting.env coinbase index.nHeight).totalValue ≤ view.totalValue
  reward_eq : state.nActualStakeReward.toInt = coinstake.totalOut -
    (view.applyTx setting.env coinbase index.nHeight).valueIn coinstake

theorem ConnectRun.exists_stakeHead
    (hrun : ConnectRun setting pprev index prevModifier view block connected state)
    (hstake : block.isProofOfStake = true) :
    ∃ coinbase coinstake rest,
      StakeHead setting index view block state coinbase coinstake rest := by
  obtain ⟨coinbase, coinstake, rest, hvtx, hcoinstake, hempty, hrest⟩ :=
    hrun.checked.proofOfStake hstake
  obtain ⟨first, others, hfirst, hcoinbase, hothers⟩ := hrun.checked.head_coinbase
  obtain ⟨rfl, rfl⟩ : coinbase = first ∧ coinstake :: rest = others := by
    simpa [hvtx] using hfirst
  have hnotBase := hothers coinstake List.mem_cons_self
  have hcheckedBase := hrun.checked.checked coinbase (by simp [hvtx])
  have hcheckedStake := hrun.checked.checked coinstake (by simp [hvtx])
  have hbaseOut := totalOut_of_isEmptyCoinbase hempty
  have hloop := hrun.run
  rw [hvtx, List.zipIdx_cons, List.zipIdx_cons, loop_cons_eq_ok] at hloop
  obtain ⟨afterBase, hbaseStep, hloop⟩ := hloop
  obtain ⟨afterStake, hstakeStep, hloop⟩ := loop_cons_eq_ok.mp hloop
  have hbase := connectTx_ledger_coinbase hcoinbase (hcheckedBase.length_vout_le.trans (by decide))
    (fun _ => lookup_eq_none_of_passesBIP30 hrun.bip30 (by simp [hvtx])) le_rfl
    hbaseStep
  have hledger := connectTx_ledger hnotBase hbase.fees_nonneg hstakeStep
  have hafterBase : afterBase.view =
      view.applyTx setting.env coinbase index.nHeight := hbase.view_eq
  refine ⟨coinbase, coinstake, rest, hvtx, hcoinbase, hcoinstake, hrest, hbaseOut,
    hcheckedBase.value_nonneg, hcheckedStake, ?_, ?_⟩
  · have htotal := hbase.total_eq
    have hdropped := CTransaction.droppedOut_nonneg hcheckedBase.value_nonneg
    simp only [CoinsView.feeOf, CoinsView.mintOf, hcoinbase, Bool.true_or, if_true,
      ConnectState.initial_view, hbaseOut, hafterBase] at htotal
    omega
  · rw [connectTxs_reward (fun entry hmem =>
        hrest entry.1 (List.fst_mem_of_mem_zipIdx hmem)) hloop,
      hledger.reward_eq hcoinstake, ← hafterBase]
    simp [CoinsView.mintOf, hnotBase, hcoinstake]

namespace StakeHead

variable {coinbase coinstake : CTransaction} {rest : List CTransaction}

/-- The recorded reward is what the whole block mints. -/
theorem reward_eq_stakeMintedBy
    (hhead : StakeHead setting index view block state coinbase coinstake rest) :
    state.nActualStakeReward.toInt = view.stakeMintedBy setting.env index.nHeight block.vtx := by
  have hnotStake := CTransaction.isCoinStake_eq_false_of_isCoinBase hhead.isCoinBase
  have hnone : CoinsView.sumOver CoinsView.stakeMintOf setting.env index.nHeight
      ((view.applyTx setting.env coinbase index.nHeight).applyTx setting.env
        coinstake index.nHeight) rest = 0 :=
    CoinsView.stakeMintedBy_eq_zero _ hhead.ordinary
  simp only [CoinsView.stakeMintedBy, hhead.vtx_eq, CoinsView.sumOver, hnone,
    CoinsView.stakeMintOf, hnotStake, hhead.isCoinStake, Bool.false_eq_true,
    if_true, if_false, zero_add, add_zero, hhead.reward_eq]

/-- A coinstake takes away no more than there was. -/
theorem neg_totalValue_le (hhead : StakeHead setting index view block state coinbase coinstake rest)
    (hview : view.NonNegative) : -view.totalValue ≤ state.nActualStakeReward.toInt := by
  have hafter : (view.applyTx setting.env coinbase index.nHeight).NonNegative :=
    hview.applyTx hhead.coinbase_value_nonneg
  have hin := hafter.valueIn_le hhead.coinstake_checked.nodup_prevouts
  have hout := CTransaction.totalOut_nonneg hhead.coinstake_checked.value_nonneg
  have htotal := hhead.totalValue_le
  rw [hhead.reward_eq]
  omega

end StakeHead

end Stake

section Reward

variable {setting : Setting} {pprev : IndexChain} {index : CBlockIndex}
  {prevModifier : UInt256} {view : CoinsView} {block : CBlock}
  {connected : Connected} {state : ConnectState}

section

variable (hrun : ConnectRun setting pprev index prevModifier view block connected state)
  (hstake : block.isProofOfStake = true)

include hrun hstake

theorem ConnectRun.checkCoinstakeAmount
    (hswitch : setting.params.isProtocolV3 block.getBlockTime = true) :
    checkCoinstakeAmount setting index state.nActualStakeReward state.nFees = .ok () := by
  simpa [checkReward, CBlock.isProofOfWork, hstake, hswitch] using hrun.reward

/-- When all coins together stay clear of the 64-bit limit, the reward test
compares with the exact sum: a wrapped one would lie below everything a
coinstake can take away. -/
theorem ConnectRun.reward_add_fees (hswitch : setting.params.isProtocolV3 block.getBlockTime = true)
    (hview : view.NonNegative) (hreward : 0 ≤ (setting.params.stakeReward index.nHeight).toInt)
    (hroom : view.totalValue + (setting.params.stakeReward index.nHeight).toInt ≤ 2 ^ 63) :
    state.nActualStakeReward.toInt =
      (setting.params.stakeReward index.nHeight).toInt + state.nFees.toInt := by
  obtain ⟨coinbase, coinstake, rest, hhead⟩ := hrun.exists_stakeHead hstake
  have hcheck := hrun.checkCoinstakeAmount hstake hswitch
  simp only [FirstIslamicCoin.checkCoinstakeAmount, bind_eq_ok, require_eq_ok, beq_iff_eq] at hcheck
  obtain ⟨stored, hadd, rfl⟩ := hcheck
  have hfeesNonneg := hrun.ledger.fees_nonneg
  have hfeesLt := state.nFees.toInt_lt
  have hlow := hhead.neg_totalValue_le hview
  rcases Overflow.toInt_of_add_nonneg hreward hfeesNonneg hadd with hexact | hwrapped
  · exact hexact
  · omega

/-- A proof-of-stake block adds the fixed reward to the total, less what it
drops. -/
theorem ConnectRun.totalValue_stake (hreward : state.nActualStakeReward.toInt =
      (setting.params.stakeReward index.nHeight).toInt + state.nFees.toInt) :
    connected.view.totalValue + droppedBy block.vtx =
      view.totalValue + (setting.params.stakeReward index.nHeight).toInt := by
  obtain ⟨coinbase, coinstake, rest, hhead⟩ := hrun.exists_stakeHead hstake
  have htotal := hrun.totalValue_eq
  have hfees := hrun.ledger.fees_eq
  rw [coinbaseOut_eq hhead.vtx_eq, hhead.coinbase_totalOut,
    ← hhead.reward_eq_stakeMintedBy, hreward] at htotal
  rw [ConnectState.initial_nFees, ConnectState.initial_view, Int64.toInt_zero, zero_add] at hfees
  omega

end

end Reward

section Mode

variable {setting : Setting} {pprev pindex : IndexChain} {index : CBlockIndex}
  {prevModifier bestBlock : UInt256} {view : CoinsView} {block : CBlock}
  {connected : Connected} {state next : ConnectState} {tx : CTransaction}
  {entry : CTransaction × ℕ} (mode : Overflow)

theorem connectInputs_mode {nFees : CAmount} (hfees : 0 ≤ state.nFees.toInt)
    (hinputs : connectInputs setting pindex index state tx = .ok nFees) :
    connectInputs { setting with mode := mode } pindex index state tx = .ok nFees := by
  cases hcoinbase : tx.isCoinBase with
  | true => simpa [connectInputs, hcoinbase] using hinputs
  | false =>
    simp only [connectInputs, hcoinbase, Bool.false_eq_true, if_false, bind_eq_ok,
      mapError_eq_ok] at hinputs ⊢
    obtain ⟨txfee, hcheck, sum, hsum, hrest⟩ := hinputs
    refine ⟨txfee, checkTxInputs_mode setting.mode mode hcheck, sum, ?_, hrest⟩
    rw [accumulate_eq txfee hfees] at hsum ⊢
    exact hsum

theorem stakeRewardOf_mode {reward : CAmount} (hnot : tx.isCoinBase = false)
    (hcoins : ∀ outpoint ∈ tx.prevouts, ∃ coin,
      state.view.lookup outpoint = some coin ∧ 0 ≤ coin.value)
    (hlt : state.view.valueIn tx < 2 ^ 63)
    (hreward : stakeRewardOf setting.mode state tx = .ok reward) :
    stakeRewardOf mode state tx = .ok reward := by
  cases hstake : tx.isCoinStake with
  | false => simpa [stakeRewardOf, hstake] using hreward
  | true =>
    simp only [stakeRewardOf, hstake, if_true, bind_eq_ok,
      getValueIn_eq_ok hnot hcoins hlt, Except.ok.injEq, exists_eq_left',
      CTransaction.getValueOut_mode setting.mode mode] at hreward ⊢
    obtain ⟨valueOut, hvalueOut, hsub⟩ := hreward
    obtain ⟨_, hrange⟩ := sub_valueIn_inRange hvalueOut hcoins hlt
    refine ⟨valueOut, hvalueOut, ?_⟩
    rw [Overflow.sub_of_inRange hrange] at hsub ⊢
    exact hsub

theorem connectTx_mode (hfees : 0 ≤ state.nFees.toInt)
    (hstep : connectTx setting pindex index state entry = .ok next) :
    connectTx { setting with mode := mode } pindex index state entry = .ok next := by
  simp only [connectTx, bind_eq_ok] at hstep ⊢
  obtain ⟨nFees, hinputs, hsigOps, hcost, reward, hreward, hrest⟩ := hstep
  refine ⟨nFees, connectInputs_mode mode hfees hinputs, hsigOps, hcost, reward, ?_,
    hrest⟩
  cases hcoinbase : entry.1.isCoinBase with
  | true =>
    have hnot := CTransaction.isCoinStake_eq_false_of_isCoinBase hcoinbase
    simpa [stakeRewardOf, hnot] using hreward
  | false =>
    obtain ⟨txfee, hcheck, _⟩ := connectInputs_eq_ok hcoinbase hfees hinputs
    obtain ⟨hcoins, hlt, _⟩ := checkTxInputs_eq_ok.mp hcheck
    refine stakeRewardOf_mode mode hcoinbase ?_ hlt hreward
    intro outpoint hmem
    obtain ⟨coin, hlookup, hspend⟩ := hcoins outpoint hmem
    exact ⟨coin, hlookup, hspend.value_nonneg⟩

theorem connectTxs_mode {entries : List (CTransaction × ℕ)} (hfees : 0 ≤ state.nFees.toInt)
    (hrun : loop (connectTx setting pindex index) state entries = .ok next) :
    loop (connectTx { setting with mode := mode } pindex index) state entries = .ok next := by
  refine loop_transfer (fun _ current => 0 ≤ current.nFees.toInt) ?_ hfees hrun
  intro entry _ current after hcurrent hstep
  refine ⟨?_, connectTx_mode mode hcurrent hstep⟩
  obtain ⟨hinputs, _⟩ := connectTx_eq_ok hstep
  cases hcoinbase : entry.1.isCoinBase with
  | true =>
    have hkept : current.nFees = after.nFees := by
      simpa [connectInputs, hcoinbase] using hinputs
    exact hkept ▸ hcurrent
  | false =>
    obtain ⟨_, _, hnonneg, hsum⟩ := connectInputs_eq_ok hcoinbase hcurrent hinputs
    omega

theorem connectChecks_mode {fJustCheck : Bool} :
    connectChecks { setting with mode := mode } pindex index prevModifier view
        bestBlock block fJustCheck =
      connectChecks setting pindex index prevModifier view bestBlock block fJustCheck := by
  simp only [connectChecks, checkBlock_mode]
  rfl

/-- A reward sum that was exact once is exact whatever an overflow does. -/
theorem checkReward_mode (hstake : block.isProofOfStake = true)
    (hexact : state.nActualStakeReward.toInt =
      (setting.params.stakeReward index.nHeight).toInt + state.nFees.toInt) :
    checkReward { setting with mode := mode } index block state =
      checkReward setting index block state := by
  have hrange : Overflow.InRange
      ((setting.params.stakeReward index.nHeight).toInt + state.nFees.toInt) := by
    rw [← hexact]
    exact Overflow.inRange_toInt _
  simp only [checkReward, CBlock.isProofOfWork, hstake, Bool.not_true,
    Bool.false_eq_true, if_false, checkCoinstakeAmount, Overflow.add_of_inRange hrange]

/-- A proof-of-stake block whose reward sum is exact is accepted with the same
result whatever an overflow does. -/
theorem connectBlock_mode {fJustCheck : Bool}
    (hgenesis : index.hashBlock ≠ setting.params.hashGenesisBlock)
    (hstake : block.isProofOfStake = true)
    (hexact : ∀ final, ConnectRun setting pprev index prevModifier view block
      connected final → final.nActualStakeReward.toInt =
        (setting.params.stakeReward index.nHeight).toInt + final.nFees.toInt)
    (hconnect : connectBlock setting (index :: pprev) prevModifier view bestBlock
      block fJustCheck = .ok connected) :
    connectBlock { setting with mode := mode } (index :: pprev) prevModifier view
      bestBlock block fJustCheck = .ok connected := by
  simp only [connectBlock, bind_eq_ok, exists_unit, connectBody, hgenesis,
    if_false, connectChecks_mode] at hconnect ⊢
  obtain ⟨hchecks, hbody⟩ := hconnect
  refine ⟨hchecks, ?_⟩
  obtain ⟨hhash, hcheck, hstakeCheck⟩ := connectChecks_eq_ok hchecks
  simp only [connectTransactions, bind_eq_ok, require_eq_ok, exists_unit,
    Except.ok.injEq] at hbody ⊢
  obtain ⟨hbip30, final, hrun, hreward, hscripts, hconnected⟩ := hbody
  have hconnectRun : ConnectRun setting pprev index prevModifier view block connected final :=
    ⟨hhash, checkBlock_checked hcheck, hstakeCheck, hbip30, hrun, hreward,
      by rw [← hconnected], by rw [← hconnected]⟩
  refine ⟨hbip30, final, connectTxs_mode mode le_rfl hrun, ?_, hscripts, hconnected⟩
  rw [checkReward_mode mode hstake (hexact final hconnectRun)]
  exact hreward

end Mode

section Law

variable {env : External} {network : ChainType}

/-- A proof-of-stake block connected after the version 3 switch, at a height
below 2^31. -/
def StakeConnects (env : External) (network : ChainType) (mode : Overflow)
    (tip : ChainTip) (block : CBlock) (next : ChainTip) : Prop :=
  Connects env network mode tip block next ∧ block.isProofOfStake = true ∧
    (network.consensus env).isProtocolV3 block.getBlockTime = true ∧
    next.pindex.height < 2 ^ 31

/-- The value of all outputs that a list of blocks drops as unspendable. -/
def droppedByBlocks (blocks : List CBlock) : ℤ :=
  (blocks.map fun block => droppedBy block.vtx).sum

def scheduledSupply (params : Params) (nBlocks : ℕ) : ℤ :=
  params.nPremineTotal.toInt +
    ∑ nHeight ∈ Finset.Icc 1 nBlocks, (params.stakeReward nHeight).toInt

theorem scheduledSupply_succ (params : Params) (nBlocks : ℕ) :
    scheduledSupply params (nBlocks + 1) = scheduledSupply params nBlocks +
      (params.stakeReward (nBlocks + 1)).toInt := by
  rw [scheduledSupply, scheduledSupply, Finset.sum_Icc_succ_top (by omega),
    ← add_assoc, Nat.cast_add, Nat.cast_one]

/-- On every network the reward is the same at every height. -/
theorem toInt_stakeReward (env : External) (network : ChainType) (nHeight : ℤ) :
    ((network.consensus env).stakeReward nHeight).toInt = 1000000000 := by
  have hfixed : (network.consensus env).stakeReward nHeight = network.fields.nFixedStakeReward := by
    have hinterval : (network.consensus env).nRewardHalvingInterval ≤ 0 := by
      change network.fields.nRewardHalvingInterval ≤ 0
      cases network <;> decide
    rw [Params.stakeReward, if_pos hinterval]
    rfl
  rw [hfixed]
  cases network <;> decide

theorem scheduledSupply_eq (env : External) (network : ChainType) (nBlocks : ℕ) :
    scheduledSupply (network.consensus env) nBlocks =
      1400000000000000000 + nBlocks * 1000000000 := by
  have hpremine : (network.consensus env).nPremineTotal.toInt = 1400000000000000000 := by
    change network.fields.nPremineTotal.toInt = 1400000000000000000
    cases network <;> decide
  rw [scheduledSupply, hpremine]
  simp only [toInt_stakeReward, Finset.sum_const, Nat.card_Icc, nsmul_eq_mul]
  simp

/-- What holds after some proof-of-stake blocks on top of genesis. -/
structure SupplyInvariant (env : External) (network : ChainType)
    (blocks : List CBlock) (tip : ChainTip) : Prop where
  height_eq : tip.pindex.height = blocks.length
  view_nonNegative : tip.view.NonNegative
  dropped_nonneg : 0 ≤ droppedByBlocks blocks
  supply_eq : tip.view.totalValue + droppedByBlocks blocks =
    scheduledSupply (network.consensus env) blocks.length

theorem supplyInvariant_genesis :
    SupplyInvariant env network [] (ChainTip.genesis env network) := by
  refine ⟨rfl, ?_, le_rfl, ?_⟩
  · have hempty : CoinsView.NonNegative FiniteMap.empty := by
      intro outpoint coin hlookup
      simp at hlookup
    refine hempty.applyTx ?_
    intro out hmem
    rw [List.eq_of_mem_replicate hmem]
    cases network <;> decide
  · rw [totalValue_genesis]
    simp [droppedByBlocks, scheduledSupply]

theorem ConnectRun.nonNegative {setting : Setting} {pprev : IndexChain}
    {index : CBlockIndex} {prevModifier : UInt256} {view : CoinsView}
    {block : CBlock} {connected : Connected} {state : ConnectState}
    (hrun : ConnectRun setting pprev index prevModifier view block connected state)
    (hview : view.NonNegative) : connected.view.NonNegative := by
  rw [hrun.view_eq, hrun.ledger.view_eq]
  exact hview.applyAll fun tx hmem => (hrun.checked.checked tx hmem).value_nonneg

/-- A proof-of-stake block keeps the invariant, and is accepted as well when an
overflow traps. -/
theorem SupplyInvariant.step {blocks : List CBlock} {tip next : ChainTip}
    {block : CBlock} (hinvariant : SupplyInvariant env network blocks tip)
    (hstep : StakeConnects env network .wrap tip block next) :
    SupplyInvariant env network (blocks ++ [block]) next ∧
      StakeConnects env network .trap tip block next := by
  obtain ⟨hheight, hview, hdropped, hsupply⟩ := hinvariant
  obtain ⟨⟨setting, index, connected, ⟨henv, hparams, hmode⟩, hindex, hgenesis,
    hconnect⟩, hstake, hswitch, hbound⟩ := hstep
  have hindexHeight : index.nHeight = blocks.length + 1 := by
    obtain ⟨_, rfl⟩ := hindex
    rw [← hheight]
    rfl
  change index.nHeight < 2 ^ 31 at hbound
  have hnotGenesis := hgenesis
  rw [← hparams] at hgenesis hswitch
  have hreward : (setting.params.stakeReward index.nHeight).toInt = 1000000000 := by
    rw [hparams, toInt_stakeReward]
  have hroom : tip.view.totalValue + 1000000000 ≤ 2 ^ 63 := by
    rw [scheduledSupply_eq] at hsupply
    omega
  have hexact : ∀ final, ConnectRun setting tip.pindex index tip.nStakeModifier
      tip.view block connected final → final.nActualStakeReward.toInt =
        (setting.params.stakeReward index.nHeight).toInt + final.nFees.toInt :=
    fun final hfinal => hfinal.reward_add_fees hstake hswitch hview
      (by rw [hreward]; decide) (by rw [hreward]; exact hroom)
  obtain ⟨state, hrun⟩ := connectBlock_run hgenesis hconnect
  have hblockDropped := droppedBy_nonneg fun tx hmem => (hrun.checked.checked tx hmem).value_nonneg
  have hdroppedAppend : droppedByBlocks (blocks ++ [block]) =
      droppedByBlocks blocks + droppedBy block.vtx := by
    simp [droppedByBlocks]
  refine ⟨⟨?_, hrun.nonNegative hview, by omega, ?_⟩, ⟨?_, hstake, ?_, hbound⟩⟩
  · change index.nHeight = _
    rw [hindexHeight, List.length_append, List.length_singleton, Nat.cast_add, Nat.cast_one]
  · have htotal := hrun.totalValue_stake hstake (hexact state hrun)
    change connected.view.totalValue + _ = _
    rw [List.length_append, List.length_singleton, scheduledSupply_succ,
      ← hindexHeight, ← hparams, hdroppedAppend]
    rw [hparams] at htotal ⊢
    omega
  · exact Connects.intro { setting with mode := .trap } index connected
      ⟨henv, hparams, rfl⟩ hindex hnotGenesis
      (connectBlock_mode .trap hgenesis hstake hexact hconnect)
  · rw [← hparams]
    exact hswitch

/-- The supply law: on every network, after any run of proof-of-stake blocks
the UTXO set and the dropped outputs together hold exactly the premine and one
fixed reward per block, and the same run is accepted when every sum that leaves
the 64-bit range stops validation. -/
theorem totalValue_add_dropped_eq_scheduledSupply (env : External)
    (network : ChainType) (blocks : List CBlock) (tip : ChainTip)
    (hrun : Run (StakeConnects env network .wrap) (ChainTip.genesis env network)
      blocks tip) :
    tip.view.totalValue + droppedByBlocks blocks =
        (network.consensus env).nPremineTotal.toInt +
          ∑ nHeight ∈ Finset.Icc 1 blocks.length,
            ((network.consensus env).stakeReward nHeight).toInt ∧
      tip.pindex.height = blocks.length ∧
      Run (StakeConnects env network .trap) (ChainTip.genesis env network)
        blocks tip := by
  obtain ⟨hinvariant, htrap⟩ := hrun.transfer (SupplyInvariant env network)
    supplyInvariant_genesis fun _ _ _ _ hinvariant hstep => hinvariant.step hstep
  exact ⟨hinvariant.supply_eq, hinvariant.height_eq, htrap⟩

section FirstStake

open External

/-- An empty coinbase, a coinstake that spends the first premine output and
adds the reward and the fees, and other transactions. -/
def firstStakeTransactions (nFees : CAmount) (others : List CTransaction) :
    List CTransaction :=
  { vin := [⟨⟨0, COutPoint.nullIndex⟩, [0x51, 0x51], 0xffffffff, []⟩]
    vout := [⟨0, []⟩]
    nVersion := 1
    nTime := 1789171216
    nLockTime := 0 } ::
  { vin := [⟨⟨ChainType.main.genesisTx.getHash sample, 0⟩, [], 0xffffffff, []⟩]
    vout := [⟨0, []⟩, ⟨1400001000000000 + nFees, ChainType.main.premineScript⟩]
    nVersion := 1
    nTime := 1789171216
    nLockTime := 0 } :: others

def firstStakeBlock (nFees : CAmount) (others : List CTransaction) : CBlock :=
  CBlock.assemble sample ((ChainType.main.genesis sample).getHash sample)
    1789171216 0x1e0fffff (firstStakeTransactions nFees others) [1]

def firstStakeIndex (nFees : CAmount) (others : List CTransaction) :
    CBlockIndex :=
  CBlockIndex.ofHeader sample (ChainType.main.genesisChain sample)
    (firstStakeBlock nFees others).toCBlockHeader true

/-- Connecting it on top of genesis, by a node with a given clock. -/
def connectFirstStake (now : ℤ) (nFees : CAmount) (others : List CTransaction) :
    Except BlockFailure Connected :=
  connectBlock (Setting.sample .main now 0)
    (firstStakeIndex nFees others :: (ChainTip.genesis sample .main).pindex)
    (ChainTip.genesis sample .main).nStakeModifier
    (ChainTip.genesis sample .main).view
    (ChainTip.genesis sample .main).bestBlock (firstStakeBlock nFees others) false

theorem connects_firstStake {now : ℤ} {nFees : CAmount}
    {others : List CTransaction} {connected : Connected}
    (hgenesis : (firstStakeIndex nFees others).hashBlock ≠
      (ChainType.main.consensus sample).hashGenesisBlock)
    (hconnect : connectFirstStake now nFees others = .ok connected) :
    Connects sample .main .wrap (ChainTip.genesis sample .main) (firstStakeBlock nFees others)
      { pindex := firstStakeIndex nFees others ::
          (ChainTip.genesis sample .main).pindex
        view := connected.view
        bestBlock := connected.bestBlock
        nStakeModifier := connected.nStakeModifier } :=
  Connects.intro (Setting.sample .main now 0) (firstStakeIndex nFees others)
    connected ⟨rfl, rfl, rfl⟩ ⟨true, rfl⟩ hgenesis hconnect

/-- The run of that single block. -/
theorem run_firstStake (now : ℤ) (nFees : CAmount) (others : List CTransaction)
    (hgenesis : (firstStakeIndex nFees others).hashBlock ≠
      (ChainType.main.consensus sample).hashGenesisBlock)
    (haccepted : (connectFirstStake now nFees others).isOk = true) :
    ∃ tip, Run (Connects sample .main .wrap) (ChainTip.genesis sample .main)
        [firstStakeBlock nFees others] tip ∧
      tip.view = (ChainTip.genesis sample .main).view.applyAll sample
        (firstStakeIndex nFees others).nHeight
        (firstStakeBlock nFees others).vtx := by
  obtain ⟨connected, hconnect⟩ := isOk_iff_exists.mp haccepted
  have hparams : (firstStakeIndex nFees others).hashBlock ≠
      (Setting.sample .main now 0).params.hashGenesisBlock := hgenesis
  obtain ⟨state, hrun⟩ := connectBlock_run hparams hconnect
  have hconnects := connects_firstStake hgenesis hconnect
  have hview := hrun.ledger.view_eq
  rw [← hrun.view_eq, ConnectState.initial_view] at hview
  exact ⟨_, Run.nil.snoc hconnects, hview⟩

/-- A first block that the main network accepts. -/
structure AcceptedFirst where
  now : ℤ
  nFees : CAmount
  others : List CTransaction
  evaluated : (firstStakeIndex nFees others).hashBlock ≠
      (ChainType.main.consensus sample).hashGenesisBlock ∧
    (connectFirstStake now nFees others).isOk = true

theorem AcceptedFirst.hashBlock_ne (first : AcceptedFirst) :
    (firstStakeIndex first.nFees first.others).hashBlock ≠
      (ChainType.main.consensus sample).hashGenesisBlock :=
  first.evaluated.1

theorem AcceptedFirst.accepted (first : AcceptedFirst) :
    (connectFirstStake first.now first.nFees first.others).isOk = true :=
  first.evaluated.2

def plainFirst : AcceptedFirst := ⟨1789171216, 0, [], by decide +kernel⟩

/-- The main network accepts it as block 1. -/
theorem exists_run_firstStakeBlock :
    ∃ tip, Run (StakeConnects sample .main .wrap) (ChainTip.genesis sample .main)
      [firstStakeBlock 0 []] tip := by
  obtain ⟨connected, hconnect⟩ :
      ∃ connected, connectFirstStake 1789171216 0 [] = .ok connected :=
    isOk_iff_exists.mp plainFirst.accepted
  have hconnects := connects_firstStake plainFirst.hashBlock_ne hconnect
  have hheight : (firstStakeIndex 0 []).nHeight < 2 ^ 31 := by decide
  exact ⟨_, Run.nil.snoc ⟨hconnects, by decide +kernel, by decide +kernel, hheight⟩⟩

theorem totalValue_add_dropped_firstStakeBlock :
    ∃ tip, Run (StakeConnects sample .main .wrap) (ChainTip.genesis sample .main)
        [firstStakeBlock 0 []] tip ∧
      tip.view.totalValue + droppedByBlocks [firstStakeBlock 0 []] =
        (ChainType.main.consensus sample).nPremineTotal.toInt +
          ∑ nHeight ∈ Finset.Icc 1 1,
            ((ChainType.main.consensus sample).stakeReward nHeight).toInt := by
  obtain ⟨tip, hrun⟩ := exists_run_firstStakeBlock
  exact ⟨tip, hrun, (totalValue_add_dropped_eq_scheduledSupply sample .main
    [firstStakeBlock 0 []] tip hrun).1⟩

end FirstStake

end Law

end FirstIslamicCoin
