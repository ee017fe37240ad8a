import FirstIslamicCoin.Primitives.Deserialize
import FirstIslamicCoin.Consensus.CoinCodec
import FirstIslamicCoin.Validation.Timestamps

/-!
# Restamped blocks

Blocks with the same bytes may differ in timestamps that are not written.
`ConnectBlock` takes them through the same steps, on views that differ in the
timestamps of coins only, up to the first test that reads a timestamp.  So once
one of them is accepted, any other is accepted exactly when its own timestamps
pass those tests.
-/

namespace FirstIslamicCoin

open Outcome ByteCodec

/-- The second transaction is the first up to a timestamp that is not
written. -/
def SameWire (tx other : CTransaction) : Prop :=
  ∃ nTime, other = { tx with nTime := nTime } ∧ (tx.nVersion < 2 → nTime = tx.nTime)

namespace SameWire

variable {tx other : CTransaction}

theorem of_wireForm_eq (heq : tx.wireForm true = other.wireForm true) :
    SameWire tx other := by
  cases tx
  cases other
  simp only [CTransaction.wireForm, map_wireForm_true, CTransaction.mk.injEq] at heq
  obtain ⟨rfl, rfl, rfl, htime, rfl⟩ := heq
  refine ⟨_, rfl, fun hversion => ?_⟩
  simp only [hversion, if_true] at htime
  exact htime.symm

section

variable (hsame : SameWire tx other)

include hsame

theorem serializeTransaction_eq (allowWitness : Bool) :
    serializeTransaction allowWitness other = serializeTransaction allowWitness tx := by
  obtain ⟨nTime, rfl, htime⟩ := hsame
  by_cases hversion : tx.nVersion < 2
  · rw [htime hversion]
  · simp only [serializeTransaction, hversion, if_false]
    rfl

theorem outPoint_eq (env : External) (position : ℕ) :
    other.outPoint env position = tx.outPoint env position := by
  simp only [CTransaction.outPoint, CTransaction.getHash, hsame.serializeTransaction_eq]

theorem prevouts_eq : other.prevouts = tx.prevouts := by
  obtain ⟨nTime, rfl, _⟩ := hsame
  rfl

theorem vout_eq : other.vout = tx.vout := by
  obtain ⟨nTime, rfl, _⟩ := hsame
  rfl

theorem isCoinBase_eq :
    other.isCoinBase = tx.isCoinBase := by
  obtain ⟨nTime, rfl, _⟩ := hsame
  rfl

theorem isCoinStake_eq :
    other.isCoinStake = tx.isCoinStake := by
  obtain ⟨nTime, rfl, _⟩ := hsame
  rfl

theorem eq_of_nTime_eq (htime : other.nTime = tx.nTime) :
    other = tx := by
  obtain ⟨nTime, rfl, _⟩ := hsame
  have hstamp : nTime = tx.nTime := htime
  rw [hstamp]

theorem getLegacySigOpCount_eq : getLegacySigOpCount other = getLegacySigOpCount tx := by
  obtain ⟨nTime, rfl, _⟩ := hsame
  rfl

theorem checkTransaction_eq (mode : Overflow) :
    checkTransaction mode other = checkTransaction mode tx := by
  have hsize : other.strippedSize = tx.strippedSize :=
    congrArg List.length (hsame.serializeTransaction_eq false)
  obtain ⟨nTime, rfl, _⟩ := hsame
  simp only [checkTransaction, hsize]
  rfl

theorem newCoins_keys_eq (env : External) (nHeight : ℤ) :
    (other.newCoins env nHeight).map Prod.fst = (tx.newCoins env nHeight).map Prod.fst := by
  simp only [CTransaction.newCoins, CTransaction.coinsOf, List.map_map, hsame.vout_eq]
  apply List.map_congr_left
  intro entry _
  exact hsame.outPoint_eq env entry.2

end

end SameWire

section Tests

/-- What `CheckTxInputs` tests at the time of a transaction: the coins it finds
may be spent then, and the fee is the minimum of that time. -/
structure SpendsInTime (params : Params) (nSpendHeight nTimeTx : ℤ)
    (view : CoinsView) (tx : CTransaction) : Prop where
  maySpend : ∀ outpoint ∈ tx.prevouts, ∀ coin, view.lookup outpoint = some coin →
    MaySpend params nSpendHeight nTimeTx coin
  minimum : tx.isCoinStake = false → params.isProtocolV3_1 nTimeTx = true →
    (getMinFee params (getVirtualTransactionSize tx) nTimeTx).toInt ≤
      view.valueIn tx - tx.totalOut

/-- Every transaction but a coinbase passes these tests in the view that the
transactions before it leave. -/
def AllSpendInTime (setting : Setting) (nHeight : ℤ) :
    CoinsView → List CTransaction → Prop
  | _, [] => True
  | view, tx :: vtx =>
      (tx.isCoinBase = false →
        SpendsInTime setting.params nHeight (nTimeTx setting.now tx) view tx) ∧
      AllSpendInTime setting nHeight (view.applyTx setting.env tx nHeight) vtx

/-- The tests of `CheckBlock` on the timestamps of the coinbase and of the
coinstake. -/
structure HeadStampsPass (setting : Setting) (block : CBlock) : Prop where
  coinbase : block.vtx.head?.all (fun coinbase =>
    decide (block.getBlockTime ≤
      futureDrift setting (coinbase.timeOr block.getBlockTime))) = true
  coinstake : (!block.isProofOfStake || block.vtx.tail.head?.all fun coinstake =>
    checkCoinStakeTimestamp setting.params block.getBlockTime
      (coinstake.timeOr block.getBlockTime)) = true

/-- All tests of `ConnectBlock` that read the timestamp of a transaction or of
a coin it creates. -/
structure StampsPass (setting : Setting) (nHeight : ℤ) (view : CoinsView)
    (block : CBlock) : Prop extends HeadStampsPass setting block where
  spends : AllSpendInTime setting nHeight view block.vtx

/-- Script verification reads no timestamp that is not written. -/
def External.ScriptsReadWritten (env : External) : Prop :=
  ∀ tx other, SameWire tx other → env.verifyScript other = env.verifyScript tx

end Tests

section Views

def Coin.unstamped (coin : Coin) : Coin := { coin with nTime := 0 }

/-- The views hold the same coins up to timestamps. -/
abbrev SameCoins : CoinsView → CoinsView → Prop := FiniteMap.SameImage Coin.unstamped

variable {env : External} {nHeight : ℤ} {view otherView : CoinsView}
  {tx other : CTransaction} (hsame : SameWire tx other) (hviews : SameCoins view otherView)

section

include hviews

theorem SameCoins.map_lookup {β : Type} (read : Coin → β)
    (hread : ∀ coin, read coin.unstamped = read coin) (outpoint : COutPoint) :
    (otherView.lookup outpoint).map read = (view.lookup outpoint).map read := by
  have hmapped := congrArg (Option.map read) (hviews outpoint)
  simpa only [Option.map_map, Function.comp_def, hread] using hmapped

theorem SameCoins.lookup_eq_none {outpoint : COutPoint} (hnone : view.lookup outpoint = none) :
    otherView.lookup outpoint = none := by
  simpa [hnone] using hviews outpoint

theorem SameCoins.weightAt_eq :
    FiniteMap.weightAt Coin.value otherView = FiniteMap.weightAt Coin.value view := by
  funext outpoint
  have hvalue := hviews.map_lookup Coin.value (fun _ => rfl) outpoint
  cases hfirst : view.lookup outpoint <;> cases hsecond : otherView.lookup outpoint <;>
    simp_all [FiniteMap.weightAt]

theorem SameCoins.sumOverInputs_eq (count : CTxIn → CTxOut → ℕ) :
    sumOverInputs otherView tx count = sumOverInputs view tx count := by
  simp only [sumOverInputs]
  congr 1
  refine List.map_congr_left fun txin _ => ?_
  rw [hviews.map_lookup (fun coin => count txin coin.out) (fun _ => rfl)]

include hsame

theorem SameWire.valueIn_eq : otherView.valueIn other = view.valueIn tx := by
  rw [CoinsView.valueIn, CoinsView.valueIn, hsame.prevouts_eq, hviews.weightAt_eq]

theorem SameWire.spentOutputs_eq : spentOutputs otherView other = spentOutputs view tx := by
  simp only [spentOutputs, hsame.prevouts_eq, hviews.map_lookup Coin.out (fun _ => rfl)]

theorem SameWire.getTransactionSigOpCost_eq (flags : UInt32) :
    getTransactionSigOpCost other otherView flags = getTransactionSigOpCost tx view flags := by
  obtain ⟨nTime, rfl, _⟩ := hsame
  have hsum : ∀ count, sumOverInputs otherView { tx with nTime := nTime } count =
      sumOverInputs view tx count := fun count => hviews.sumOverInputs_eq count
  simp only [getTransactionSigOpCost, getP2SHSigOpCount, hsum]
  rfl

theorem SameWire.getValueIn_eq {Result : Type} (mode : Overflow) :
    (otherView.getValueIn mode other : Except (Failure Result) CAmount) =
      view.getValueIn mode tx := by
  simp only [CoinsView.getValueIn, hsame.isCoinBase_eq, hsame.prevouts_eq,
    hviews.map_lookup (fun coin => coin.out.nValue) (fun _ => rfl)]

theorem SameWire.checkInputScripts_eq (hscripts : env.ScriptsReadWritten) (flags : UInt32) :
    checkInputScripts env other otherView flags = checkInputScripts env tx view flags := by
  simp only [checkInputScripts, hsame.isCoinBase_eq, hsame.spentOutputs_eq hviews,
    hscripts tx other hsame]

theorem SameWire.sameCoins_applyTx :
    SameCoins (view.applyTx env tx nHeight) (otherView.applyTx env other nHeight) := by
  have hentries : (other.newCoins env nHeight).map (Prod.map id Coin.unstamped) =
      (tx.newCoins env nHeight).map (Prod.map id Coin.unstamped) := by
    simp only [CTransaction.newCoins, CTransaction.coinsOf, List.map_map, hsame.vout_eq]
    refine List.map_congr_left fun entry _ => ?_
    simp only [Function.comp_apply, Prod.map_apply, hsame.outPoint_eq]
    obtain ⟨nTime, rfl, _⟩ := hsame
    rfl
  rw [CoinsView.applyTx, CoinsView.applyTx, hsame.isCoinBase_eq, hsame.prevouts_eq]
  split_ifs
  · exact hviews.insertAll hentries
  · exact (hviews.eraseAll _).insertAll hentries

/-- What can be applied to one view can be applied to the other. -/
theorem SameWire.exists_updateCoins {Result : Type} {after : CoinsView} {txundo : List Coin}
    (hnull : ∀ out ∈ tx.vout, out.isNull = false)
    (hupdate : (view.updateCoins env tx nHeight : Except (Failure Result) _) =
      .ok (after, txundo)) :
    ∃ otherUndo, (otherView.updateCoins env other nHeight : Except (Failure Result) _) =
      .ok (otherView.applyTx env other nHeight, otherUndo) := by
  have hotherNull : ∀ out ∈ other.vout, out.isNull = false := by rwa [hsame.vout_eq]
  cases hcoinbase : other.isCoinBase with
  | true => exact ⟨[], CoinsView.updateCoins_of_isCoinBase hcoinbase hotherNull⟩
  | false =>
    rw [hsame.isCoinBase_eq] at hcoinbase
    obtain ⟨hnodup, hcoins, hkeys, hfresh⟩ := CoinsView.updateCoins_spends hcoinbase hupdate
    obtain ⟨coins, hlookups⟩ :
        tx.prevouts.map otherView.lookup ∈ Set.range (List.map some) := by
      rw [Set.range_list_map]
      refine List.forall_mem_map.mpr fun outpoint hmem => ?_
      have hmapped : view.lookup outpoint ∈ txundo.map some :=
        hcoins ▸ List.mem_map_of_mem hmem
      obtain ⟨coin, _, hcoin⟩ := List.mem_map.mp hmapped
      obtain ⟨found, hlookup, _⟩ := hviews.exists_lookup hcoin.symm
      exact ⟨found, hlookup.symm⟩
    have hspend : (otherView.spendCoins tx.prevouts : Except (Failure Result) _) =
        .ok (otherView.eraseAll tx.prevouts, coins) :=
      CoinsView.spendCoins_eq_ok.mpr ⟨hnodup, hlookups.symm, rfl⟩
    have hotherFresh : ∀ entry ∈ other.newCoins env nHeight,
        (otherView.eraseAll tx.prevouts).lookup entry.1 = none := by
      intro entry hentry
      have hkey := List.mem_map_of_mem (f := Prod.fst) hentry
      rw [hsame.newCoins_keys_eq] at hkey
      obtain ⟨first, hfirst, heq⟩ := List.mem_map.mp hkey
      exact SameCoins.lookup_eq_none (hviews.eraseAll _) (heq ▸ hfresh first hfirst)
    have hotherKeys : ((other.newCoins env nHeight).map Prod.fst).Nodup := by
      rwa [hsame.newCoins_keys_eq]
    refine ⟨coins, ?_⟩
    simp only [CoinsView.updateCoins, CoinsView.spendInputs, CoinsView.applyTx,
      hsame.isCoinBase_eq, hsame.prevouts_eq, hcoinbase, Bool.false_eq_true, if_false,
      hspend, ok_bind, CoinsView.addCoins_of_fresh hotherNull hotherKeys hotherFresh]

end

end Views

section Loop

variable {setting : Setting} {pindex : IndexChain} {index : CBlockIndex}
  {state otherState next final : ConnectState} {tx other : CTransaction}
  {vtx others : List CTransaction}

/-- The states of the loop over two restampings: equal but for the timestamps
of coins. -/
structure LockStep (state otherState : ConnectState) : Prop where
  view : SameCoins state.view otherState.view
  nFees_eq : otherState.nFees = state.nFees
  reward_eq : otherState.nActualStakeReward = state.nActualStakeReward
  sigOps_eq : otherState.nSigOpsCost = state.nSigOpsCost
  scriptsPass_eq : otherState.scriptsPass = state.scriptsPass

/-- `CheckTxInputs` succeeds on a restamping that spends in time, with the same
fee. -/
theorem SameWire.checkTxInputs_eq_ok {params : Params} {mode : Overflow} {now nSpendHeight : ℤ}
    {view otherView : CoinsView} {txfee fee : CAmount} (hsame : SameWire tx other)
    (hviews : SameCoins view otherView)
    (hspends : SpendsInTime params nSpendHeight (nTimeTx now other) otherView other)
    (hcheck : checkTxInputs params mode now tx view nSpendHeight txfee = .ok fee) :
    checkTxInputs params mode now other otherView nSpendHeight txfee = .ok fee := by
  obtain ⟨hcoins, hlt, hstakeFee, hpays⟩ := FirstIslamicCoin.checkTxInputs_eq_ok.mp hcheck
  have hvalueIn := hsame.valueIn_eq hviews
  have hstake := hsame.isCoinStake_eq
  refine FirstIslamicCoin.checkTxInputs_eq_ok.mpr ⟨?_, hvalueIn ▸ hlt, hstake ▸ hstakeFee, ?_⟩
  · intro outpoint hmem
    obtain ⟨coin, hlookup, _⟩ := hcoins outpoint (hsame.prevouts_eq ▸ hmem)
    obtain ⟨found, hfound, _⟩ := hviews.exists_lookup hlookup
    exact ⟨found, hfound, hspends.maySpend outpoint hmem found hfound⟩
  · intro hnot
    obtain ⟨hnonneg, hcovers, hfee, _⟩ := hpays (hstake ▸ hnot)
    have htotal : other.totalOut = tx.totalOut := by
      rw [CTransaction.totalOut, CTransaction.totalOut, hsame.vout_eq]
    rw [← hvalueIn, ← htotal] at hcovers hfee
    refine ⟨hsame.vout_eq ▸ hnonneg, hcovers, hfee, fun hswitch => ?_⟩
    rw [hfee]
    exact hspends.minimum hnot hswitch

theorem LockStep.connectInputs_eq_ok {nFees : CAmount} (hstates : LockStep state otherState)
    (hsame : SameWire tx other)
    (hspends : other.isCoinBase = false → SpendsInTime setting.params index.nHeight
      (nTimeTx setting.now other) otherState.view other)
    (hinputs : connectInputs setting pindex index state tx = .ok nFees) :
    connectInputs setting pindex index otherState other = .ok nFees := by
  have hheights : other.prevouts.map (fun outpoint =>
        ((otherState.view.lookup outpoint).map Coin.height).getD 0) =
      tx.prevouts.map fun outpoint =>
        ((state.view.lookup outpoint).map Coin.height).getD 0 := by
    simp only [hsame.prevouts_eq, hstates.view.map_lookup Coin.height (fun _ => rfl)]
  have hlocks : ∀ heights, (sequenceLocks setting.params other
        (csvActive setting.params index.nHeight) heights pindex : Except BlockFailure Bool) =
      sequenceLocks setting.params tx (csvActive setting.params index.nHeight) heights
        pindex := by
    obtain ⟨nTime, rfl, _⟩ := hsame
    exact fun _ => rfl
  simp only [connectInputs, hsame.isCoinBase_eq, hstates.nFees_eq, hheights, hlocks] at hinputs hspends ⊢
  split_ifs at hinputs ⊢ with hcoinbase
  · exact hinputs
  · simp only [bind_eq_ok, mapError_eq_ok] at hinputs ⊢
    obtain ⟨txfee, hcheck, hrest⟩ := hinputs
    exact ⟨txfee, hsame.checkTxInputs_eq_ok hstates.view
      (hspends (Bool.not_eq_true _ ▸ hcoinbase)) hcheck, hrest⟩

theorem LockStep.stakeRewardOf_eq (hstates : LockStep state otherState)
    (hsame : SameWire tx other) :
    stakeRewardOf setting.mode otherState other = stakeRewardOf setting.mode state tx := by
  simp only [stakeRewardOf, CTransaction.getValueOut, hsame.isCoinStake_eq, hsame.vout_eq,
    hsame.getValueIn_eq hstates.view, hstates.reward_eq]

/-- One pass: a restamping that spends in time goes the way of the original. -/
theorem LockStep.connectTx (hscripts : setting.env.ScriptsReadWritten)
    (hstates : LockStep state otherState) (hsame : SameWire tx other)
    (hnull : ∀ out ∈ tx.vout, out.isNull = false)
    (hspends : other.isCoinBase = false → SpendsInTime setting.params index.nHeight
      (nTimeTx setting.now other) otherState.view other) {offset : ℕ}
    (hstep : connectTx setting pindex index state (tx, offset) = .ok next) :
    ∃ otherNext, FirstIslamicCoin.connectTx setting pindex index otherState (other, offset) =
      .ok otherNext ∧ LockStep next otherNext := by
  simp only [FirstIslamicCoin.connectTx, bind_eq_ok, require_eq_ok, exists_unit,
    Prod.exists, Except.ok.injEq] at hstep
  obtain ⟨nFees, hinputs, hsigOps, reward, hreward, view, txundo, hupdate, rfl⟩ := hstep
  obtain ⟨otherUndo, hotherUpdate⟩ := hsame.exists_updateCoins hstates.view hnull hupdate
  obtain rfl := CoinsView.updateCoins_eq_ok hupdate
  rw [← hsame.getTransactionSigOpCost_eq hstates.view, ← hstates.sigOps_eq] at hsigOps
  rw [← hstates.stakeRewardOf_eq hsame] at hreward
  refine ⟨_, connectTx_of_ok (hstates.connectInputs_eq_ok hsame hspends hinputs) hsigOps
    hreward hotherUpdate, hsame.sameCoins_applyTx hstates.view, rfl, rfl, ?_, ?_⟩
  · simp only [hsame.getTransactionSigOpCost_eq hstates.view, hstates.sigOps_eq]
  · simp only [hsame.checkInputScripts_eq hstates.view hscripts, hstates.scriptsPass_eq]

/-- The whole loop. -/
theorem LockStep.connectTxs (hscripts : setting.env.ScriptsReadWritten)
    (hstates : LockStep state otherState) (hsame : List.Forall₂ SameWire vtx others)
    (hnull : ∀ tx ∈ vtx, ∀ out ∈ tx.vout, out.isNull = false)
    (hspends : AllSpendInTime setting index.nHeight otherState.view others) {offset : ℕ}
    (hrun : loop (FirstIslamicCoin.connectTx setting pindex index) state
      (vtx.zipIdx offset) = .ok final) :
    ∃ otherFinal, loop (FirstIslamicCoin.connectTx setting pindex index) otherState
      (others.zipIdx offset) = .ok otherFinal ∧ LockStep final otherFinal := by
  induction hsame generalizing offset state otherState with
  | nil =>
    obtain rfl : state = final := Except.ok.inj hrun
    exact ⟨otherState, rfl, hstates⟩
  | cons hhead _ ih =>
    obtain ⟨hspendsHead, hspendsRest⟩ := hspends
    obtain ⟨hnullHead, hnullRest⟩ := List.forall_mem_cons.mp hnull
    rw [List.zipIdx_cons, loop_cons_eq_ok] at hrun
    obtain ⟨next, hstep, hloop⟩ := hrun
    obtain ⟨otherNext, hotherStep, hnext⟩ :=
      hstates.connectTx hscripts hhead hnullHead hspendsHead hstep
    rw [← connectTx_view hotherStep] at hspendsRest
    obtain ⟨otherFinal, hotherLoop, hfinal⟩ := ih hnext hnullRest hspendsRest hloop
    exact ⟨otherFinal, loop_cons_eq_ok.mpr ⟨otherNext, hotherStep, hotherLoop⟩, hfinal⟩

/-- The transactions of a successful loop spend in time. -/
theorem allSpendInTime_of_connectTxs {offset : ℕ}
    (hrun : loop (connectTx setting pindex index) state (vtx.zipIdx offset) = .ok final) :
    AllSpendInTime setting index.nHeight state.view vtx := by
  induction vtx generalizing offset state with
  | nil => trivial
  | cons tx vtx ih =>
    rw [List.zipIdx_cons, loop_cons_eq_ok] at hrun
    obtain ⟨next, hstep, hloop⟩ := hrun
    refine ⟨fun hnot => ?_, connectTx_view hstep ▸ ih hloop⟩
    obtain ⟨fee, hcheck⟩ := connectTx_accepted hnot hstep
    obtain ⟨hcoins, _, _, hpays⟩ := checkTxInputs_eq_ok.mp hcheck
    refine ⟨fun outpoint hmem coin hlookup => ?_, fun hstake hswitch => ?_⟩
    · obtain ⟨found, hfound, hspend⟩ := hcoins outpoint hmem
      rw [hlookup, Option.some.injEq] at hfound
      exact hfound ▸ hspend
    · exact (hpays hstake).fee_eq ▸ (hpays hstake).minimum hswitch

end Loop

section Block

variable {setting : Setting} {pprev : IndexChain} {index : CBlockIndex}
  {prevModifier bestBlock : UInt256} {view : CoinsView} {block : CBlock}
  {others : List CTransaction} {fJustCheck : Bool}

/-- An accepted block passes the tests on its timestamps. -/
theorem stampsPass_of_connectBlock {connected : Connected}
    (hgenesis : index.hashBlock ≠ setting.params.hashGenesisBlock)
    (hconnect : connectBlock setting (index :: pprev) prevModifier view bestBlock block
      fJustCheck = .ok connected) : StampsPass setting index.nHeight view block := by
  have hcheck := checkBlock_of_connectBlock hconnect
  simp only [checkBlock, checkBlockBody, bind_eq_ok, require_eq_ok, exists_unit] at hcheck
  obtain ⟨_, _, _, _, _, _, hcoinbase, hcoinstake, _⟩ := hcheck
  obtain ⟨state, hrun⟩ := connectBlock_run hgenesis hconnect
  exact ⟨⟨hcoinbase, hcoinstake⟩, allSpendInTime_of_connectTxs hrun.run⟩

section

variable {vtx : List CTransaction} (hsame : List.Forall₂ SameWire vtx others)

include hsame

theorem map_restamped {β : Type} {read : CTransaction → β}
    (hread : ∀ tx other, SameWire tx other → read other = read tx) :
    others.map read = vtx.map read := by
  induction hsame with
  | nil => rfl
  | cons hhead _ ih => rw [List.map_cons, List.map_cons, hread _ _ hhead, ih]

theorem forall_restamped {holds : CTransaction → Prop}
    (hkeep : ∀ tx other, SameWire tx other → holds tx → holds other)
    (hall : ∀ tx ∈ vtx, holds tx) : ∀ tx ∈ others, holds tx := by
  induction hsame with
  | nil => exact hall
  | cons hhead _ ih =>
    obtain ⟨hfirst, hrest⟩ := List.forall_mem_cons.mp hall
    exact List.forall_mem_cons.mpr ⟨hkeep _ _ hhead hfirst, ih hrest⟩

theorem all_restamped {test : CTransaction → Bool}
    (htest : ∀ tx other, SameWire tx other → test other = test tx) :
    others.all test = vtx.all test := by
  induction hsame with
  | nil => rfl
  | cons hhead _ ih => rw [List.all_cons, List.all_cons, htest _ _ hhead, ih]

/-- The tests on the place of the coinbase. -/
theorem coinbase_restamped :
    others.isEmpty = vtx.isEmpty ∧
      others.head?.any CTransaction.isCoinBase = vtx.head?.any CTransaction.isCoinBase ∧
      (others.tail.all fun tx => !tx.isCoinBase) = vtx.tail.all fun tx => !tx.isCoinBase := by
  rcases hsame with _ | ⟨hhead, hrest⟩
  · exact ⟨rfl, rfl, rfl⟩
  · exact ⟨rfl, hhead.isCoinBase_eq,
      all_restamped hrest fun _ _ hwire => congrArg not hwire.isCoinBase_eq⟩

end

variable (hsame : List.Forall₂ SameWire block.vtx others)

include hsame

theorem serializeBlock_restamped (posMarker allowWitness : Bool) :
    serializeBlock posMarker allowWitness { block with vtx := others } =
      serializeBlock posMarker allowWitness block := by
  have htxs := map_restamped hsame fun _ _ hwire => hwire.serializeTransaction_eq allowWitness
  simp only [serializeBlock, serializeVector, hsame.length_eq, List.flatMap_def, htxs]

theorem blockMerkleRoot_restamped (env : External) :
    blockMerkleRoot env { block with vtx := others } = blockMerkleRoot env block := by
  rw [blockMerkleRoot, blockMerkleRoot, map_restamped hsame]
  intro tx other hwire
  simp only [CTransaction.getHash, hwire.serializeTransaction_eq]

theorem isProofOfStake_restamped :
    ({ block with vtx := others } : CBlock).isProofOfStake = block.isProofOfStake := by
  obtain ⟨header, vtx, vchBlockSig⟩ := block
  rcases hsame with _ | ⟨_, _ | ⟨hcoinstake, _⟩⟩
  · rfl
  · rfl
  · exact hcoinstake.isCoinStake_eq

theorem checkProofOfStakeShape_restamped :
    checkProofOfStakeShape { block with vtx := others } = checkProofOfStakeShape block := by
  obtain ⟨header, vtx, vchBlockSig⟩ := block
  rcases hsame with _ | ⟨⟨_, rfl, _⟩, _ | ⟨⟨_, rfl, _⟩, hrest⟩⟩
  · rfl
  · rfl
  · have hall := all_restamped hrest fun _ _ hwire => congrArg not hwire.isCoinStake_eq
    simp only [checkProofOfStakeShape, List.tail_cons, hall]
    rfl

theorem checkBlockSignature_restamped (env : External) :
    checkBlockSignature env { block with vtx := others } = checkBlockSignature env block := by
  obtain ⟨header, vtx, vchBlockSig⟩ := block
  rcases hsame with _ | ⟨⟨_, rfl, _⟩, _ | ⟨⟨_, rfl, _⟩, _⟩⟩ <;> rfl

theorem checkBlock_restamped {fCheckPOW fCheckMerkleRoot fCheckSig : Bool}
    (hstamps : HeadStampsPass setting { block with vtx := others })
    (hcheck : checkBlock setting block fCheckPOW fCheckMerkleRoot fCheckSig = .ok ()) :
    checkBlock setting { block with vtx := others } fCheckPOW fCheckMerkleRoot fCheckSig =
      .ok () := by
  have hsigOps := map_restamped hsame fun tx other hwire => hwire.getLegacySigOpCount_eq
  obtain ⟨hempty, hhead, htail⟩ := coinbase_restamped hsame
  simp only [checkBlock, checkBlockBody, bind_eq_ok, require_eq_ok, exists_unit,
    CBlock.isProofOfWork, checkMerkleRoot, strippedBlockSize, isProofOfStake_restamped hsame,
    serializeBlock_restamped hsame, blockMerkleRoot_restamped hsame, hempty, hsame.length_eq,
    hhead, htail, checkProofOfStakeShape_restamped hsame, checkBlockSignature_restamped hsame,
    hsigOps] at hcheck ⊢
  obtain ⟨hheader, hsignet, hroot, hlength, hcoinbase, hothers, _, _, hshape, hsig, htxs,
    hcost⟩ := hcheck
  refine ⟨hheader, hsignet, hroot, hlength, hcoinbase, hothers, hstamps.coinbase, ?_, hshape,
    hsig, ?_, hcost⟩
  · have hcoinstake := hstamps.coinstake
    rwa [isProofOfStake_restamped hsame] at hcoinstake
  · rw [checkTransactions_eq_ok] at htxs ⊢
    exact forall_restamped hsame
      (fun _ _ hwire => (hwire.checkTransaction_eq setting.mode).trans) htxs

/-- The coinstakes of two blocks that passed `CheckBlock` are staked at the time
of the block, so the kernel is the same. -/
theorem checkStake_restamped (hscripts : setting.env.ScriptsReadWritten)
    {fCheckPOW fCheckMerkleRoot fCheckSig : Bool}
    (hcheck : checkBlock setting block fCheckPOW fCheckMerkleRoot fCheckSig = .ok ())
    (hother : checkBlock setting { block with vtx := others } fCheckPOW fCheckMerkleRoot
      fCheckSig = .ok ()) :
    checkStake setting pprev prevModifier view { block with vtx := others } =
      checkStake setting pprev prevModifier view block := by
  have htime : ∀ (current : CBlock) (coinstake : CTransaction),
      checkBlock setting current fCheckPOW fCheckMerkleRoot fCheckSig = .ok () →
      current.vtx[1]? = some coinstake → coinstake.isCoinStake = true →
      (if coinstake.nTime = 0 then current.nTime else coinstake.nTime) = current.nTime := by
    intro current coinstake hcurrent hsecond hcoinstake
    rcases checkBlock_coinstake_nTime hcurrent hsecond hcoinstake with hzero | heq
    · rw [if_pos hzero]
    · rw [heq, ite_self]
  obtain ⟨header, vtx, vchBlockSig⟩ := block
  rcases hsame with _ | ⟨_, _ | ⟨hwire, _⟩⟩
  · rfl
  · rfl
  · simp only [checkStake, hwire.isCoinStake_eq]
    refine ite_congr rfl (fun hstake => ?_) fun _ => rfl
    have hcoinstake := (Bool.and_eq_true_iff.mp hstake).1
    rw [htime _ _ hcheck rfl hcoinstake,
      htime _ _ hother rfl (hwire.isCoinStake_eq.trans hcoinstake)]
    simp only [checkProofOfStake, checkKernel, checkKernelCoin, hwire.isCoinStake_eq,
      hwire.prevouts_eq, hscripts _ _ hwire]

theorem passesBIP30_restamped (env : External) :
    passesBIP30 env view others = passesBIP30 env view block.vtx := by
  refine all_restamped hsame fun tx other hwire => ?_
  simp only [hwire.vout_eq, hwire.outPoint_eq]

theorem checkReward_restamped {state otherState : ConnectState}
    (hstates : LockStep state otherState) :
    checkReward setting index { block with vtx := others } otherState =
      checkReward setting index block state := by
  obtain ⟨header, vtx, vchBlockSig⟩ := block
  rcases hsame with _ | ⟨⟨_, rfl, _⟩, _ | ⟨⟨_, rfl, _⟩, _⟩⟩ <;>
    simp only [checkReward, hstates.nFees_eq, hstates.reward_eq] <;> rfl

/-- Once a block is accepted, a restamping of it is accepted exactly when its
timestamps pass the tests that read them. -/
theorem connectBlock_restamped_iff {connected : Connected}
    (hscripts : setting.env.ScriptsReadWritten)
    (hgenesis : index.hashBlock ≠ setting.params.hashGenesisBlock)
    (hconnect : connectBlock setting (index :: pprev) prevModifier view bestBlock block
      fJustCheck = .ok connected) :
    (∃ other, connectBlock setting (index :: pprev) prevModifier view bestBlock
        { block with vtx := others } fJustCheck = .ok other) ↔
      StampsPass setting index.nHeight view { block with vtx := others } := by
  constructor
  · rintro ⟨other, hother⟩
    exact stampsPass_of_connectBlock hgenesis hother
  · intro hstamps
    simp only [connectBlock, connectChecks, connectBody, connectTransactions, hgenesis, if_false,
      bind_eq_ok, require_eq_ok, exists_unit, mapError_eq_ok] at hconnect ⊢
    obtain ⟨⟨hhash, hhardened, hcheck, hbest, hstake⟩, hbip30, state, hrun, hreward, hpass, _⟩ :=
      hconnect
    have hotherCheck := checkBlock_restamped hsame hstamps.toHeadStampsPass hcheck
    have hnull : ∀ tx ∈ block.vtx, ∀ out ∈ tx.vout, out.isNull = false := fun tx htx out hout =>
      CTxOut.isNull_of_nonneg (((checkBlock_checked hcheck).checked tx htx).value_nonneg out hout)
    have hinitial : LockStep (ConnectState.initial view) (ConnectState.initial view) :=
      ⟨fun _ => rfl, rfl, rfl, rfl, rfl⟩
    obtain ⟨otherState, hotherRun, hstates⟩ :=
      hinitial.connectTxs hscripts hsame hnull hstamps.spends hrun
    refine ⟨_, ⟨hhash, hhardened, hotherCheck, hbest, ?_⟩, ?_, otherState, hotherRun, ?_, ?_, rfl⟩
    · rwa [checkStake_restamped hsame hscripts hcheck hotherCheck]
    · rwa [passesBIP30_restamped hsame]
    · rwa [checkReward_restamped hsame hstates]
    · rwa [hstates.scriptsPass_eq]

end Block

end FirstIslamicCoin
