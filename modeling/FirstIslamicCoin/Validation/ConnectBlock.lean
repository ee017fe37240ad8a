import FirstIslamicCoin.Validation.CheckBlock

/-!
# Connecting a block

The proof-of-stake check of `pos.cpp` and `Chainstate::ConnectBlock`: the checks
that need the UTXO set, the loop that applies one transaction after the other,
and the reward rule at its end.  Script checks run in a queue whose verdict is
read after the loop.
-/

namespace FirstIslamicCoin

open Outcome

section ProofOfStake

/-- `ComputeStakeModifier`; genesis has modifier zero. -/
def computeStakeModifier (env : External) (pprev : IndexChain)
    (prevModifier kernel : UInt256) : UInt256 :=
  if pprev.isEmpty then 0
  else env.hash256 (serializeUInt256 kernel ++ serializeUInt256 prevModifier)

/-- The hash that stakes a coin at a time. -/
def stakeKernelHash (env : External) (nStakeModifier : UInt256)
    (blockFromTime : UInt32) (prevout : COutPoint) (nTimeTx : UInt32) : UInt256 :=
  env.hash256 (serializeUInt256 nStakeModifier ++ serializeUInt32 blockFromTime ++
    serializeOutPoint prevout ++ serializeUInt32 nTimeTx)

/-- The target of a block, weighted by the staked value and saturated. -/
def weightedTarget (nBits : UInt32) (prevoutValue : CAmount) : ℕ :=
  let bnTarget := (setCompact nBits).target
  let bnWeight := prevoutValue.toUInt64.toNat
  let bnMaxTarget := 2 ^ 256 - 1
  if bnMaxTarget / bnWeight < bnTarget then bnMaxTarget else bnTarget * bnWeight

def checkStakeKernelHash (env : External) (nStakeModifier : UInt256)
    (nBits blockFromTime : UInt32) (prevoutValue : CAmount)
    (prevout : COutPoint) (nTimeTx : UInt32) : Bool :=
  decide (blockFromTime ≤ nTimeTx) && prevoutValue != 0 &&
    decide ((stakeKernelHash env nStakeModifier blockFromTime prevout
      nTimeTx).toNat ≤ weightedTarget nBits prevoutValue)

def isStakeMature (nCoinHeight nSpendHeight : ℤ) (params : Params) : Bool :=
  nCoinHeight == 0 || decide (params.nCoinbaseMaturity ≤ nSpendHeight - nCoinHeight)

/-- The time of the staked coin: its own, or that of its block. -/
def Coin.stakeTime (coin : Coin) (blockFrom : CBlockIndex) : UInt32 :=
  if coin.nTime = 0 then blockFrom.nTime else coin.nTime

/-- `CheckProofOfStake` once the kernel coin and its block are found. -/
def checkKernelCoin (setting : Setting) (prevModifier : UInt256)
    (tx : CTransaction) (nBits nTimeTx : UInt32) (prevout : COutPoint)
    (coinPrev : Coin) (blockFrom : CBlockIndex) : Except BlockFailure Unit := do
  require (setting.env.verifyScript tx 0 ⟨0, coinPrev.out.scriptPubKey⟩ false 0 [])
    (.invalid .blockInvalidHeader "stake-verify-signature-failed")
  require (checkStakeKernelHash setting.env prevModifier nBits
      (coinPrev.stakeTime blockFrom) coinPrev.out.nValue prevout nTimeTx)
    (.invalid .blockHeaderSync "stake-check-kernel-failed")

/-- `CheckProofOfStake` on the first input of a coinstake. -/
def checkKernel (setting : Setting) (pindexPrev : IndexChain)
    (prevModifier : UInt256) (tx : CTransaction) (nBits : UInt32)
    (view : CoinsView) (nTimeTx : UInt32) (prevout : COutPoint) :
    Except BlockFailure Unit :=
  match view.lookup prevout with
  | none => .error (.invalid .blockInvalidHeader "stake-prevout-not-exist")
  | some coinPrev =>
      if !isStakeMature coinPrev.height (pindexPrev.height + 1) setting.params then
        .error (.invalid .blockInvalidHeader "stake-prevout-not-mature")
      else
        match pindexPrev.getAncestor coinPrev.height with
        | [] => .error (.invalid .blockInvalidHeader "stake-prevout-not-loaded")
        | blockFrom :: _ => checkKernelCoin setting prevModifier tx nBits nTimeTx
            prevout coinPrev blockFrom

def checkProofOfStake (setting : Setting) (pindexPrev : IndexChain)
    (prevModifier : UInt256) (tx : CTransaction) (nBits : UInt32)
    (view : CoinsView) (nTimeTx : UInt32) : Except BlockFailure Unit :=
  if !tx.isCoinStake then .error .unset
  else
    match tx.prevouts with
    | [] => .error .aborted
    | prevout :: _ => checkKernel setting pindexPrev prevModifier tx nBits view
        nTimeTx prevout

end ProofOfStake

section Transactions

def scriptVerifyDersig : UInt32 := 0x4
def scriptVerifyLowS : UInt32 := 0x8
def scriptVerifyNullDummy : UInt32 := 0x10
def scriptVerifyCheckLockTimeVerify : UInt32 := 0x200
def scriptVerifyCheckSequenceVerify : UInt32 := 0x400
def scriptVerifyTaproot : UInt32 := 0x20000
def scriptVerifyDerkey : UInt32 := 0x80000000

/-- `DeploymentActiveAt` for the buried CSV deployment. -/
def csvActive (params : Params) (nHeight : ℤ) : Bool :=
  decide (params.csvHeight ≤ nHeight)

/-- `GetBlockScriptFlags`.  SegWit and Taproot are always active on every
network, and no network lists an exception. -/
def getBlockScriptFlags (params : Params) (index : CBlockIndex) : UInt32 :=
  CScript.scriptVerifyP2SH ||| scriptVerifyDersig ||| scriptVerifyDerkey |||
    scriptVerifyLowS ||| CScript.scriptVerifyWitness |||
    (if params.isProtocolV3 index.getBlockTime then
      scriptVerifyCheckLockTimeVerify ||| scriptVerifyNullDummy
    else 0) |||
    (if csvActive params index.nHeight then scriptVerifyCheckSequenceVerify
    else 0) |||
    scriptVerifyTaproot

/-- The outputs a transaction spends, as far as the view has them. -/
def spentOutputs (view : CoinsView) (tx : CTransaction) : List CTxOut :=
  tx.prevouts.filterMap fun outpoint => (view.lookup outpoint).map Coin.out

/-- `CheckInputScripts` with the verdict of the checks it queues. -/
def checkInputScripts (env : External) (tx : CTransaction) (view : CoinsView)
    (flags : UInt32) : Bool :=
  let spent := spentOutputs view tx
  tx.isCoinBase || spent.zipIdx.all fun entry =>
    env.verifyScript tx entry.2 entry.1 true flags spent

/-- What the transaction loop of `ConnectBlock` carries along. -/
structure ConnectState where
  view : CoinsView
  nFees : CAmount
  nActualStakeReward : CAmount
  nSigOpsCost : ℕ
  scriptsPass : Bool
  vtxundo : List (List Coin)

variable (setting : Setting) (pindex : IndexChain) (index : CBlockIndex)

/-- The fee and lock-time part of one pass; the result is `nFees`. -/
def connectInputs (state : ConnectState) (tx : CTransaction) :
    Except BlockFailure CAmount :=
  if tx.isCoinBase then .ok state.nFees
  else do
    let txfee ← (checkTxInputs setting.params setting.mode setting.now tx
      state.view index.nHeight 0).mapError TxFailure.toBlock
    let nFees ← accumulate setting.mode
      (blockInvalid "bad-txns-accumulated-fee-outofrange") .overflowed
      state.nFees txfee
    let final ← sequenceLocks setting.params tx
      (csvActive setting.params index.nHeight)
      (tx.prevouts.map fun outpoint =>
        ((state.view.lookup outpoint).map Coin.height).getD 0) pindex
    require final (blockInvalid "bad-txns-nonfinal")
    .ok nFees

/-- What a coinstake mints: value out minus value in. -/
def stakeRewardOf (mode : Overflow) (state : ConnectState) (tx : CTransaction) :
    Except BlockFailure CAmount :=
  if tx.isCoinStake then do
    let valueOut ← tx.getValueOut mode
    let valueIn ← state.view.getValueIn mode tx
    mode.sub .overflowed valueOut valueIn
  else .ok state.nActualStakeReward

/-- One pass of the transaction loop of `ConnectBlock`. -/
def connectTx (state : ConnectState) (entry : CTransaction × ℕ) :
    Except BlockFailure ConnectState := do
  let nFees ← connectInputs setting pindex index state entry.1
  let nSigOpsCost := state.nSigOpsCost + getTransactionSigOpCost entry.1
    state.view (getBlockScriptFlags setting.params index)
  require (decide (nSigOpsCost ≤ maxBlockSigOpsCost))
    (blockInvalid "bad-blk-sigops")
  let nActualStakeReward ← stakeRewardOf setting.mode state entry.1
  let (view, txundo) ← state.view.updateCoins setting.env entry.1 index.nHeight
  .ok {
    view := view
    nFees := nFees
    nActualStakeReward := nActualStakeReward
    nSigOpsCost := nSigOpsCost
    scriptsPass := state.scriptsPass && (!setting.fScriptChecks ||
      checkInputScripts setting.env entry.1 state.view
        (getBlockScriptFlags setting.params index))
    vtxundo := state.vtxundo ++ (if entry.2 = 0 then [] else [txundo]) }

def ConnectState.initial (view : CoinsView) : ConnectState where
  view := view
  nFees := 0
  nActualStakeReward := 0
  nSigOpsCost := 0
  scriptsPass := true
  vtxundo := []

@[simp]
theorem ConnectState.initial_view (view : CoinsView) :
    (ConnectState.initial view).view = view := rfl

@[simp]
theorem ConnectState.initial_nFees (view : CoinsView) :
    (ConnectState.initial view).nFees = 0 := rfl

end Transactions

section Block

variable (setting : Setting)

/-- No output of the block exists already. -/
def passesBIP30 (env : External) (view : CoinsView) (vtx : List CTransaction) :
    Bool :=
  vtx.all fun tx => (List.range tx.vout.length).all fun o =>
    !view.haveCoin (tx.outPoint env o)

/-- The limit on what a proof-of-work coinbase pays. -/
def checkCoinbaseAmount (index : CBlockIndex) (block : CBlock)
    (nFees : CAmount) : Except BlockFailure Unit :=
  match block.vtx with
  | [] => .error .aborted
  | coinbase :: _ => do
      let blockReward ← setting.mode.add .overflowed nFees
        (getBlockSubsidy index.nHeight setting.params false)
      let valueOut ← coinbase.getValueOut setting.mode
      require (decide (valueOut ≤ blockReward)) (blockInvalid "bad-cb-amount")

/-- `IsValidCoinstakeReward`: exactly the fixed reward plus the fees. -/
def checkCoinstakeAmount (index : CBlockIndex)
    (nActualStakeReward nFees : CAmount) : Except BlockFailure Unit := do
  let reward ← setting.mode.add .overflowed
    (setting.params.stakeReward index.nHeight) nFees
  require (nActualStakeReward == reward) (blockInvalid "bad-cs-amount")

/-- The reward rules after the transaction loop. -/
def checkReward (index : CBlockIndex) (block : CBlock) (state : ConnectState) :
    Except BlockFailure Unit :=
  if block.isProofOfWork then
    checkCoinbaseAmount setting index block state.nFees
  else if setting.params.isProtocolV3 block.getBlockTime then
    checkCoinstakeAmount setting index state.nActualStakeReward state.nFees
  else .ok ()

/-- `CheckHardened`: every network but signet pins its genesis block. -/
def checkHardened (params : Params) (nHeight : ℤ) (hash : UInt256) : Bool :=
  params.chainType == .signet || nHeight != 0 || hash == params.hashGenesisBlock

/-- A block that turns out corrupt when it is connected is a fatal error. -/
def corruptBlock : BlockFailure → BlockFailure
  | .invalid .blockMutated _ => .error
      "Corrupt block found indicating potential hardware failure; shutting down"
  | failure => failure

/-- The proof-of-stake check of `ConnectBlock`. -/
def checkStake (pprev : IndexChain) (prevModifier : UInt256)
    (view : CoinsView) (block : CBlock) : Except BlockFailure Unit :=
  match block.vtx with
  | _ :: coinstake :: _ =>
      if coinstake.isCoinStake && setting.params.isProtocolV3 block.getBlockTime then
        checkProofOfStake setting pprev prevModifier coinstake block.nBits view
          (if coinstake.nTime = 0 then block.nTime else coinstake.nTime)
      else .ok ()
  | _ => .ok ()

/-- What `ConnectBlock` leaves behind: the view and its best block, the undo
record, and the modifier stored in the index entry. -/
structure Connected where
  view : CoinsView
  bestBlock : UInt256
  blockundo : List (List Coin)
  nStakeModifier : UInt256

variable (pindex : IndexChain) (index : CBlockIndex) (prevModifier : UInt256)
  (view : CoinsView) (bestBlock : UInt256) (block : CBlock) (fJustCheck : Bool)

/-- The checks of `ConnectBlock` before it touches the view. -/
def connectChecks : Except BlockFailure Unit := do
  require (index.hashBlock == block.toCBlockHeader.getHash setting.env) .aborted
  require (checkHardened setting.params index.nHeight index.hashBlock)
    (.invalid .blockCheckpoint "bad-fork-hardened-checkpoint")
  (checkBlock setting block (!fJustCheck) (!fJustCheck) true).mapError corruptBlock
  require ((pindex.tail.head?.map CBlockIndex.hashBlock).getD 0 == bestBlock)
    .aborted
  checkStake setting pindex.tail prevModifier view block

/-- The genesis block only adds its coinbase. -/
def connectGenesis : Except BlockFailure Connected :=
  match block.vtx with
  | [] => .error .aborted
  | coinbase :: _ =>
      if fJustCheck then .ok ⟨view, bestBlock, [], 0⟩
      else do
        let updated ← view.addCoins setting.env coinbase index.nHeight
        .ok ⟨updated, index.hashBlock, [], 0⟩

/-- `ConnectBlock` for any other block, after the first checks. -/
def connectTransactions : Except BlockFailure Connected := do
  require (passesBIP30 setting.env view block.vtx) (blockInvalid "bad-txns-BIP30")
  let state ← loop (connectTx setting pindex index) (ConnectState.initial view)
    block.vtx.zipIdx
  checkReward setting index block state
  require state.scriptsPass (blockInvalid "block-validation-failed")
  .ok {
    view := state.view
    bestBlock := if fJustCheck then bestBlock else index.hashBlock
    blockundo := state.vtxundo
    nStakeModifier := computeStakeModifier setting.env pindex.tail prevModifier
      (match block.vtx with
        | _ :: coinstake :: _ =>
            if coinstake.isCoinStake then
              (coinstake.prevouts.head?.map COutPoint.hash).getD 0
            else index.hashBlock
        | _ => index.hashBlock) }

/-- The part of `ConnectBlock` after its checks. -/
def connectBody : Except BlockFailure Connected :=
  if index.hashBlock = setting.params.hashGenesisBlock then
    connectGenesis setting index view bestBlock block fJustCheck
  else connectTransactions setting pindex index prevModifier view bestBlock block
    fJustCheck

end Block

def connectBlock (setting : Setting) (pindex : IndexChain)
    (prevModifier : UInt256) (view : CoinsView) (bestBlock : UInt256)
    (block : CBlock) (fJustCheck : Bool) : Except BlockFailure Connected :=
  match pindex with
  | [] => .error .aborted
  | index :: _ => do
      connectChecks setting pindex index prevModifier view bestBlock block fJustCheck
      connectBody setting pindex index prevModifier view bestBlock block fJustCheck

section Accepted

variable {setting : Setting} {pprev pindex : IndexChain} {index : CBlockIndex}
  {prevModifier bestBlock : UInt256} {view : CoinsView} {block : CBlock}
  {fJustCheck : Bool} {connected : Connected}

/-- What a successful `ConnectBlock` went through, for a block other than
genesis. -/
structure ConnectRun (setting : Setting) (pprev : IndexChain)
    (index : CBlockIndex) (prevModifier : UInt256) (view : CoinsView)
    (block : CBlock) (connected : Connected) (state : ConnectState) : Prop where
  hash_eq : index.hashBlock = block.toCBlockHeader.getHash setting.env
  checked : CheckedBlock block
  stake : checkStake setting pprev prevModifier view block = .ok ()
  bip30 : passesBIP30 setting.env view block.vtx = true
  run : loop (connectTx setting (index :: pprev) index)
    (ConnectState.initial view) block.vtx.zipIdx = .ok state
  reward : checkReward setting index block state = .ok ()
  view_eq : connected.view = state.view
  blockundo_eq : connected.blockundo = state.vtxundo

theorem connectTransactions_eq_ok
    (hconnect : connectTransactions setting pindex index prevModifier view
      bestBlock block fJustCheck = .ok connected) :
    ∃ state, passesBIP30 setting.env view block.vtx = true ∧
      loop (connectTx setting pindex index) (ConnectState.initial view)
        block.vtx.zipIdx = .ok state ∧
      checkReward setting index block state = .ok () ∧
      connected.view = state.view ∧ connected.blockundo = state.vtxundo := by
  simp only [connectTransactions, bind_eq_ok, require_eq_ok, exists_unit,
    Except.ok.injEq] at hconnect
  obtain ⟨hbip30, state, hrun, hreward, _, rfl⟩ := hconnect
  exact ⟨state, hbip30, hrun, hreward, rfl, rfl⟩

theorem connectChecks_eq_ok
    (hchecks : connectChecks setting pindex index prevModifier view bestBlock
      block fJustCheck = .ok ()) :
    index.hashBlock = block.toCBlockHeader.getHash setting.env ∧
      checkBlock setting block (!fJustCheck) (!fJustCheck) true = .ok () ∧
      checkStake setting pindex.tail prevModifier view block = .ok () := by
  simp only [connectChecks, bind_eq_ok, require_eq_ok, exists_unit,
    mapError_eq_ok, beq_iff_eq] at hchecks
  obtain ⟨hhash, _, hcheck, _, hstake⟩ := hchecks
  exact ⟨hhash, hcheck, hstake⟩

theorem connectBlock_run (hgenesis : index.hashBlock ≠ setting.params.hashGenesisBlock)
    (hconnect : connectBlock setting (index :: pprev) prevModifier view bestBlock
      block fJustCheck = .ok connected) :
    ∃ state, ConnectRun setting pprev index prevModifier view block connected state := by
  simp only [connectBlock, bind_eq_ok, exists_unit, connectBody, hgenesis, if_false] at hconnect
  obtain ⟨hchecks, hbody⟩ := hconnect
  obtain ⟨hhash, hcheck, hstake⟩ := connectChecks_eq_ok hchecks
  obtain ⟨state, hbip30, hrun, hreward, hview, hundo⟩ := connectTransactions_eq_ok hbody
  exact ⟨state, hhash, checkBlock_checked hcheck, hstake, hbip30, hrun, hreward,
    hview, hundo⟩

/-- An accepted block passed `CheckBlock` in the same setting. -/
theorem checkBlock_of_connectBlock
    (hconnect : connectBlock setting (index :: pprev) prevModifier view bestBlock
      block fJustCheck = .ok connected) :
    checkBlock setting block (!fJustCheck) (!fJustCheck) true = .ok () := by
  simp only [connectBlock, bind_eq_ok, exists_unit] at hconnect
  exact (connectChecks_eq_ok hconnect.1).2.1

/-- The BIP30 test leaves no output of the block in the view. -/
theorem lookup_eq_none_of_passesBIP30 {env : External} {vtx : List CTransaction} {tx : CTransaction}
    {nHeight : ℤ} {entry : COutPoint × Coin} (hbip30 : passesBIP30 env view vtx = true)
    (htx : tx ∈ vtx) (hentry : entry ∈ tx.newCoins env nHeight) : view.lookup entry.1 = none := by
  obtain ⟨out, position, hout, _, rfl⟩ := CTransaction.exists_of_mem_newCoins hentry
  obtain ⟨hlt, _⟩ := List.getElem?_eq_some_iff.mp hout
  simp only [passesBIP30, List.all_eq_true, List.mem_range, Bool.not_eq_true'] at hbip30
  exact CoinsView.haveCoin_eq_false.mp (hbip30 tx htx position hlt)

end Accepted

end FirstIslamicCoin
