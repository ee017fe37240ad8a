import FirstIslamicCoin.Chain.Retarget
import FirstIslamicCoin.Validation.ConnectBlock

/-!
# Headers in their context

`ContextualCheckBlockHeader` with the checkpoint rules it calls, and what it
enforces along a chain of headers: the time of a block is compared with the
median time of its parent, which past the version 2 switch is the parent's own
time, and above the last proof-of-work block the time must fit the stake mask.
Since genesis is dated after every switch, no later block can be dated before
one.
-/

namespace FirstIslamicCoin

open Outcome

section Check

/-- What `ContextualCheckBlockHeader` reads of a node: the checkpoint option, the
block index, the active chain, and `NodeClock::now()` in whole seconds. -/
structure HeaderContext where
  setting : Setting
  checkpointsEnabled : Bool
  lookupBlockIndex : UInt256 → Option CBlockIndex
  chain : IndexChain
  nodeNow : ℤ

def maxFutureBlockTime : ℤ := 2 * 60 * 60

/-- `GetLastCheckpoint`: every network but signet lists its genesis block only. -/
def getLastCheckpoint (context : HeaderContext) : Option CBlockIndex :=
  if context.setting.params.chainType = .signet then none
  else context.lookupBlockIndex context.setting.params.hashGenesisBlock

/-- The backward search of `AutoSelectSyncCheckpoint`. -/
def autoSelectSyncCheckpoint (checkpointSpan bestHeight : ℤ) : IndexChain → IndexChain
  | [] => []
  | [genesis] => [genesis]
  | index :: parent :: rest =>
      if bestHeight < index.nHeight + checkpointSpan then
        autoSelectSyncCheckpoint checkpointSpan bestHeight (parent :: rest)
      else index :: parent :: rest

/-- `CheckSyncCheckpoint`, which dereferences the tip above height zero. -/
def checkSyncCheckpoint (params : Params) (nHeight : ℤ) (pindexBest : IndexChain) :
    Except BlockFailure Bool :=
  if nHeight = 0 then .ok true
  else
    match autoSelectSyncCheckpoint params.nCoinbaseMaturity pindexBest.height
        pindexBest with
    | [] => .error .aborted
    | pindexSync :: _ => .ok (decide (pindexSync.nHeight < nHeight))

/-- The checkpoint tests of `ContextualCheckBlockHeader`. -/
def checkCheckpoints (context : HeaderContext) (nHeight : ℤ) (hash : UInt256) :
    Except BlockFailure Unit :=
  if context.checkpointsEnabled then do
    require ((getLastCheckpoint context).all fun pcheckpoint =>
        decide (pcheckpoint.nHeight ≤ nHeight))
      (.invalid .blockCheckpoint "bad-fork-prior-to-checkpoint")
    require (checkHardened context.setting.params nHeight hash)
      (.invalid .blockCheckpoint "bad-fork-hardened-checkpoint")
  else .ok ()

def contextualCheckBlockHeader (context : HeaderContext) (pindexPrev : IndexChain)
    (block : CBlockHeader) (fProofOfStake : Bool) : Except BlockFailure Unit := do
  let params := context.setting.params
  let nHeight := pindexPrev.height + 1
  require (!pindexPrev.isEmpty) .aborted
  require (block.nBits == getNextTargetRequired pindexPrev params fProofOfStake)
    (.invalid .blockInvalidHeader "bad-diffbits")
  require (decide (context.chain.height - nHeight < params.nMaxReorganizationDepth))
    (.invalid .blockInvalidHeader "older-than-maxreorg-depth")
  require (!decide (params.nLastPOWBlock < nHeight) || fProofOfStake)
    (.invalid .blockInvalidHeader "reject-pow")
  require (!decide (params.nLastPOWBlock < nHeight) ||
      checkStakeBlockTimestamp params block.getBlockTime)
    (.invalid .blockInvalidHeader "bad-pos-time")
  checkCheckpoints context nHeight (block.getHash context.setting.env)
  let synchronized ← checkSyncCheckpoint params nHeight context.chain
  require synchronized
    (.invalid .blockInvalidHeader "bad-fork-prior-to-synch-checkpoint")
  require (decide (pindexPrev.getMedianTimePast params < block.getBlockTime))
    (.invalid .blockInvalidHeader "time-too-old")
  require (decide (block.getBlockTime ≤ context.nodeNow + maxFutureBlockTime))
    (.invalid .blockTimeFuture "time-too-new")

/-- What a header that passes satisfies. -/
structure AcceptedHeader (context : HeaderContext) (pindexPrev : IndexChain)
    (block : CBlockHeader) (fProofOfStake : Bool) : Prop where
  parent : pindexPrev ≠ []
  nBits_eq : block.nBits = getNextTargetRequired pindexPrev context.setting.params
    fProofOfStake
  depth : context.chain.height - (pindexPrev.height + 1) <
    context.setting.params.nMaxReorganizationDepth
  kind : context.setting.params.nLastPOWBlock < pindexPrev.height + 1 →
    fProofOfStake = true
  stakeTime : context.setting.params.nLastPOWBlock < pindexPrev.height + 1 →
    checkStakeBlockTimestamp context.setting.params block.getBlockTime = true
  synchronized : checkSyncCheckpoint context.setting.params (pindexPrev.height + 1)
    context.chain = .ok true
  later : pindexPrev.getMedianTimePast context.setting.params < block.getBlockTime

theorem contextualCheckBlockHeader_accepted {context : HeaderContext}
    {pindexPrev : IndexChain} {block : CBlockHeader} {fProofOfStake : Bool}
    (hcheck : contextualCheckBlockHeader context pindexPrev block fProofOfStake = .ok ()) :
    AcceptedHeader context pindexPrev block fProofOfStake := by
  simp only [contextualCheckBlockHeader, bind_eq_ok, require_eq_ok, exists_unit,
    decide_eq_true_eq, beq_iff_eq, Bool.or_eq_true, Bool.not_eq_true',
    decide_eq_false_iff_not, List.isEmpty_eq_false_iff] at hcheck
  obtain ⟨hparent, hnBits, hdepth, hkind, htime, -, synchronized, hsync, hsynced, hlater,
    -⟩ := hcheck
  subst hsynced
  exact ⟨hparent, hnBits, hdepth, fun habove => hkind.resolve_left (not_not_intro habove),
    fun habove => htime.resolve_left (not_not_intro habove), hsync, hlater⟩

end Check

section Times

/-- A header accepted in some context of a node on top of an entry of the block
index, however its own entry is then flagged. -/
inductive AcceptsHeader (env : External) (network : ChainType) :
    IndexChain → CBlockHeader → IndexChain → Prop
  | intro {pindexPrev : IndexChain} {block : CBlockHeader} (context : HeaderContext)
      (fProofOfStake fSetAsProofOfStake : Bool)
      (hparams : context.setting.params = network.consensus env)
      (hcheck : contextualCheckBlockHeader context pindexPrev block fProofOfStake = .ok ()) :
      AcceptsHeader env network pindexPrev block
        (CBlockIndex.ofHeader env pindexPrev block fSetAsProofOfStake :: pindexPrev)

/-- A mask of four low bits leaves the multiples of sixteen. -/
theorem sixteen_dvd_of_masked {nTime : UInt32}
    (hmasked : BitVec.ofInt 64 (nTime.toNat : ℤ) &&& BitVec.ofNat 64 0xf = 0) :
    16 ∣ nTime.toNat := by
  have hlt := nTime.toNat_lt
  have htoNat := congrArg BitVec.toNat hmasked
  rw [BitVec.toNat_and, BitVec.ofInt_natCast, BitVec.toNat_ofNat,
    Nat.mod_eq_of_lt (by omega)] at htoNat
  change nTime.toNat &&& (2 ^ 4 - 1) = 0 at htoNat
  rw [Nat.and_two_pow_sub_one_eq_mod] at htoNat
  exact Nat.dvd_of_mod_eq_zero htoNat

/-- What holds of the entries of a chain of accepted headers. -/
structure TimeInvariant (chain : IndexChain) : Prop where
  ne_nil : chain ≠ []
  height_nonneg : 0 ≤ chain.height
  increasing : chain.Pairwise fun later earlier =>
    earlier.getBlockTime < later.getBlockTime
  dated : ∀ index ∈ chain, (genesisTime.toNat : ℤ) ≤ index.getBlockTime
  masked : ∀ index ∈ chain, 16 ∣ index.nTime.toNat

variable {env : External} {network : ChainType} {params : Params}

theorem TimeInvariant.genesis (env : External) (network : ChainType) :
    TimeInvariant (network.genesisChain env) := by
  refine ⟨List.cons_ne_nil _ _, le_refl 0, List.pairwise_singleton _ _, ?_, ?_⟩
  · intro index hmem
    rw [List.mem_singleton.mp hmem]
    exact le_refl _
  · intro index hmem
    rw [List.mem_singleton.mp hmem]
    change 16 ∣ genesisTime.toNat
    decide

/-- Past the version 2 switch the median time is the time of the last block. -/
theorem getMedianTimePast_of_switched {index : CBlockIndex} {rest : IndexChain}
    (hswitched : params.Switched index.getBlockTime) :
    IndexChain.getMedianTimePast params (index :: rest) = index.getBlockTime := by
  rw [IndexChain.getMedianTimePast, hswitched.protocolV2, if_pos rfl]

theorem TimeInvariant.step (hnetwork : network = .main ∨ network = .testnet)
    {chain next : IndexChain} {header : CBlockHeader} (hchain : TimeInvariant chain)
    (hstep : AcceptsHeader env network chain header next) : TimeInvariant next := by
  obtain ⟨context, fProofOfStake, fSetAsProofOfStake, hparams, hcheck⟩ := hstep
  have haccepted := contextualCheckBlockHeader_accepted hcheck
  have hretargeting := retargeting_of_network env hnetwork
  have hlater := haccepted.later
  have hstakeTime := haccepted.stakeTime
  rw [hparams] at hlater hstakeTime
  have hconstants : (network.consensus env).nLastPOWBlock = 0 ∧
      (network.consensus env).nStakeTimestampMask = 0xf := by
    rcases hnetwork with rfl | rfl <;> exact ⟨rfl, rfl⟩
  cases chain with
  | nil => exact absurd rfl hchain.ne_nil
  | cons parent rest =>
    have hparent := hchain.dated parent List.mem_cons_self
    rw [getMedianTimePast_of_switched (hretargeting.switched _ hparent)] at hlater
    have habove : ∀ earlier ∈ parent :: rest,
        earlier.getBlockTime < header.getBlockTime := by
      refine List.forall_mem_cons.mpr ⟨hlater, fun earlier hmem => ?_⟩
      exact ((List.pairwise_cons.mp hchain.increasing).1 earlier hmem).trans hlater
    have hdated : (genesisTime.toNat : ℤ) ≤ header.getBlockTime := hparent.trans hlater.le
    have hheight := hchain.height_nonneg
    have hmask := hstakeTime (by omega)
    rw [checkStakeBlockTimestamp, checkCoinStakeTimestamp,
      (hretargeting.switched _ hdated).protocolV2, if_pos rfl, hconstants.2,
      Bool.and_eq_true, beq_iff_eq, beq_iff_eq] at hmask
    exact {
      ne_nil := List.cons_ne_nil _ _
      height_nonneg := by
        change 0 ≤ IndexChain.height (parent :: rest) + 1
        omega
      increasing := List.pairwise_cons.mpr ⟨habove, hchain.increasing⟩
      dated := List.forall_mem_cons.mpr ⟨hdated, hchain.dated⟩
      masked := List.forall_mem_cons.mpr ⟨sixteen_dvd_of_masked hmask.2, hchain.masked⟩ }

/-- For a block dated as an entry, `ConnectBlock` takes none of the branches for
times before the version 3 switch: it runs the scripts with the flags of version 3,
and neither the check of a coinstake nor that of its reward is skipped. -/
structure TakesNoOldBranch (setting : Setting) (index : CBlockIndex) : Prop where
  scriptFlags : getBlockScriptFlags setting.params index =
    CScript.scriptVerifyP2SH ||| scriptVerifyDersig ||| scriptVerifyDerkey |||
      scriptVerifyLowS ||| CScript.scriptVerifyWitness |||
      (scriptVerifyCheckLockTimeVerify ||| scriptVerifyNullDummy) |||
      (if csvActive setting.params index.nHeight then scriptVerifyCheckSequenceVerify
      else 0) ||| scriptVerifyTaproot
  stake : ∀ (pprev : IndexChain) (prevModifier : UInt256) (view : CoinsView)
    (block : CBlock) (coinbase coinstake : CTransaction) (others : List CTransaction),
    block.nTime = index.nTime → block.vtx = coinbase :: coinstake :: others →
    coinstake.isCoinStake = true →
    checkStake setting pprev prevModifier view block =
      checkProofOfStake setting pprev prevModifier coinstake block.nBits view
        (if coinstake.nTime = 0 then block.nTime else coinstake.nTime)
  reward : ∀ (block : CBlock) (state : ConnectState), block.nTime = index.nTime →
    block.isProofOfWork = false →
    checkReward setting index block state =
      checkCoinstakeAmount setting index state.nActualStakeReward state.nFees

theorem takesNoOldBranch_of_switched {setting : Setting} {index : CBlockIndex}
    (hswitched : setting.params.Switched index.getBlockTime) : TakesNoOldBranch setting index := by
  have hblock : ∀ block : CBlock, block.nTime = index.nTime →
      setting.params.isProtocolV3 block.getBlockTime = true := by
    intro block htime
    have heq : block.getBlockTime = index.getBlockTime := by
      rw [CBlockHeader.getBlockTime, htime, CBlockIndex.getBlockTime]
    rw [heq, hswitched.protocolV3]
  refine ⟨?_, ?_, ?_⟩
  · rw [getBlockScriptFlags, hswitched.protocolV3, if_pos rfl]
  · intro pprev prevModifier view block coinbase coinstake others htime hvtx hstake
    simp only [checkStake, hvtx, hstake, hblock block htime, Bool.and_self, if_true]
  · intro block state htime hstake
    rw [checkReward, hstake, hblock block htime]
    rfl

end Times

theorem blockTimes_of_run (env : External) (network : ChainType)
    (hnetwork : network = .main ∨ network = .testnet) (headers : List CBlockHeader)
    (chain : IndexChain)
    (hrun : Run (AcceptsHeader env network) (network.genesisChain env) headers chain) :
    (chain.Pairwise fun later earlier => earlier.getBlockTime < later.getBlockTime) ∧
    (∀ index ∈ chain, 16 ∣ index.nTime.toNat ∧
      (network.consensus env).Switched index.getBlockTime) ∧
    (∀ fProofOfStake pindexPrev parent rest pindexPrevPrev,
      chain.getLastBlockIndex fProofOfStake = pindexPrev :: parent :: rest →
      (IndexChain.getLastBlockIndex fProofOfStake (parent :: rest)).head? = some pindexPrevPrev →
      0 < pindexPrev.getBlockTime - pindexPrevPrev.getBlockTime) ∧
    ∀ setting : Setting, setting.params = network.consensus env →
      ∀ index ∈ chain, TakesNoOldBranch setting index := by
  have hchain : TimeInvariant chain :=
    hrun.invariant (fun _ reached => TimeInvariant reached)
      (TimeInvariant.genesis env network) fun _ _ _ _ hreached hstep =>
        hreached.step hnetwork hstep
  have hswitched : ∀ index ∈ chain,
      (network.consensus env).Switched index.getBlockTime := fun index hmem =>
    (retargeting_of_network env hnetwork).switched _ (hchain.dated index hmem)
  refine ⟨hchain.increasing, fun index hmem => ⟨hchain.masked index hmem,
    hswitched index hmem⟩, ?_, ?_⟩
  · intro fProofOfStake pindexPrev parent rest pindexPrevPrev hprev hprevPrev
    have hlater := IndexChain.getBlockTime_lt_of_getLastBlockIndex hchain.increasing
      hprev hprevPrev
    omega
  · intro setting hparams index hmem
    apply takesNoOldBranch_of_switched
    rw [hparams]
    exact hswitched index hmem

section Sample

/-- The node that has seen the main network's genesis block only. -/
def genesisContext : HeaderContext where
  setting := Setting.sample .main 1789171216 0
  checkpointsEnabled := true
  lookupBlockIndex := fun hash =>
    (ChainType.main.genesisChain External.sample).find? fun index => index.hashBlock == hash
  chain := ChainType.main.genesisChain External.sample
  nodeNow := 1789171216

def firstHeader : CBlockHeader where
  nVersion := 7
  hashPrevBlock := (ChainType.main.genesis External.sample).getHash External.sample
  hashMerkleRoot := 0
  nTime := 1789171216
  nBits := getCompact (2 ^ 208 - 1)
  nNonce := 0
  nFlags := blockProofOfStake

theorem firstHeader_accepted :
    contextualCheckBlockHeader genesisContext
      (ChainType.main.genesisChain External.sample) firstHeader true = .ok () := by
  decide +kernel

/-- The first header above genesis. -/
theorem blockTimes_firstHeader :
    let index := CBlockIndex.ofHeader External.sample
      (ChainType.main.genesisChain External.sample) firstHeader true
    16 ∣ index.nTime.toNat ∧
      (ChainType.main.consensus External.sample).Switched index.getBlockTime ∧
      TakesNoOldBranch (Setting.sample .main 1789171216 0) index := by
  intro index
  have hstep : AcceptsHeader External.sample .main
      (ChainType.main.genesisChain External.sample) firstHeader
      (index :: ChainType.main.genesisChain External.sample) :=
    .intro genesisContext true true rfl firstHeader_accepted
  obtain ⟨-, hmasked, -, hbranch⟩ := blockTimes_of_run External.sample .main (.inl rfl) _ _
    (Run.nil.snoc hstep)
  exact ⟨(hmasked index List.mem_cons_self).1, (hmasked index List.mem_cons_self).2,
    hbranch _ rfl index List.mem_cons_self⟩

end Sample

end FirstIslamicCoin
