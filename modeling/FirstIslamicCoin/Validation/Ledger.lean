import FirstIslamicCoin.Validation.ConnectBlock

/-!
# Value accounting of a block

What the transaction loop of `ConnectBlock` does to the total value of the UTXO
set.  An ordinary transaction moves value and leaves a fee, a coinstake-shaped
one mints the difference between its outputs and its inputs, and outputs with
an unspendable script disappear.  These flows are defined from the block and the
view alone and then shown to be what the loop accumulates.
-/

namespace FirstIslamicCoin

open Outcome

namespace CoinsView

def applyAll (env : External) (nHeight : ℤ) (view : CoinsView)
    (vtx : List CTransaction) : CoinsView :=
  vtx.foldl (fun current tx => current.applyTx env tx nHeight) view

/-- The fee a transaction leaves: none for a coinbase or coinstake. -/
def feeOf (view : CoinsView) (tx : CTransaction) : ℤ :=
  if tx.isCoinBase || tx.isCoinStake then 0 else view.valueIn tx - tx.totalOut

/-- The value a transaction pays out beyond what it takes in: all of it for a
coinbase, the difference for a coinstake, nothing otherwise. -/
def mintOf (view : CoinsView) (tx : CTransaction) : ℤ :=
  if tx.isCoinBase then tx.totalOut
  else if tx.isCoinStake then tx.totalOut - view.valueIn tx
  else 0

/-- The part of it that a coinstake-shaped transaction pays. -/
def stakeMintOf (view : CoinsView) (tx : CTransaction) : ℤ :=
  if tx.isCoinStake then tx.totalOut - view.valueIn tx else 0

/-- A quantity of each transaction, read in the view before it, summed over a
list. -/
def sumOver (quantity : CoinsView → CTransaction → ℤ) (env : External)
    (nHeight : ℤ) : CoinsView → List CTransaction → ℤ
  | _, [] => 0
  | view, tx :: vtx =>
      quantity view tx +
        sumOver quantity env nHeight (view.applyTx env tx nHeight) vtx

def feesOf (env : External) (nHeight : ℤ) (view : CoinsView)
    (vtx : List CTransaction) : ℤ :=
  sumOver feeOf env nHeight view vtx

def mintedBy (env : External) (nHeight : ℤ) (view : CoinsView)
    (vtx : List CTransaction) : ℤ :=
  sumOver mintOf env nHeight view vtx

def stakeMintedBy (env : External) (nHeight : ℤ) (view : CoinsView)
    (vtx : List CTransaction) : ℤ :=
  sumOver stakeMintOf env nHeight view vtx

variable {env : External} {nHeight : ℤ}

theorem sumOver_congr {first second : CoinsView → CTransaction → ℤ} {vtx : List CTransaction}
    (hagree : ∀ tx ∈ vtx, ∀ view, first view tx = second view tx) (view : CoinsView) :
    sumOver first env nHeight view vtx = sumOver second env nHeight view vtx := by
  induction vtx generalizing view with
  | nil => rfl
  | cons tx vtx ih =>
    obtain ⟨hhead, htail⟩ := List.forall_mem_cons.mp hagree
    rw [sumOver, sumOver, hhead, ih htail]

theorem sumOver_zero (view : CoinsView) (vtx : List CTransaction) :
    sumOver (fun _ _ => 0) env nHeight view vtx = 0 := by
  induction vtx generalizing view with
  | nil => rfl
  | cons tx vtx ih => rw [sumOver, ih, add_zero]

/-- Ordinary transactions mint nothing. -/
theorem stakeMintedBy_eq_zero (view : CoinsView) {vtx : List CTransaction}
    (hnot : ∀ tx ∈ vtx, tx.isCoinStake = false) : view.stakeMintedBy env nHeight vtx = 0 := by
  rw [stakeMintedBy, ← sumOver_zero view vtx]
  apply sumOver_congr
  intro tx hmem current
  simp [stakeMintOf, hnot tx hmem]

/-- A block mints through its coinbase and its coinstake-shaped
transactions. -/
theorem mintedBy_cons (view : CoinsView) {coinbase : CTransaction} {rest : List CTransaction}
    (hcoinbase : coinbase.isCoinBase = true) (hrest : ∀ tx ∈ rest, tx.isCoinBase = false) :
    view.mintedBy env nHeight (coinbase :: rest) =
      coinbase.totalOut + view.stakeMintedBy env nHeight (coinbase :: rest) := by
  have hnot := CTransaction.isCoinStake_eq_false_of_isCoinBase hcoinbase
  have hagree : ∀ tx ∈ rest, ∀ current : CoinsView,
      current.mintOf tx = current.stakeMintOf tx := by
    intro tx hmem current
    simp [mintOf, stakeMintOf, hrest tx hmem]
  simp only [mintedBy, stakeMintedBy, sumOver, sumOver_congr hagree, mintOf,
    stakeMintOf, hcoinbase, hnot, Bool.false_eq_true, if_true, if_false, zero_add]

end CoinsView

def droppedBy (vtx : List CTransaction) : ℤ :=
  (vtx.map CTransaction.droppedOut).sum

theorem droppedBy_nonneg {vtx : List CTransaction}
    (hnonneg : ∀ tx ∈ vtx, ∀ out ∈ tx.vout, 0 ≤ out.value) : 0 ≤ droppedBy vtx := by
  apply List.sum_nonneg
  intro dropped hmem
  obtain ⟨tx, htx, rfl⟩ := List.mem_map.mp hmem
  exact CTransaction.droppedOut_nonneg (hnonneg tx htx)

section Step

variable {setting : Setting} {pindex : IndexChain} {index : CBlockIndex}
  {state next : ConnectState} {tx : CTransaction} {entry : CTransaction × ℕ}

theorem connectTx_eq_ok (hstep : connectTx setting pindex index state entry = .ok next) :
    connectInputs setting pindex index state entry.1 = .ok next.nFees ∧
      stakeRewardOf setting.mode state entry.1 = .ok next.nActualStakeReward ∧
      ∃ txundo, (state.view.updateCoins setting.env entry.1 index.nHeight :
          Except BlockFailure _) = .ok (next.view, txundo) ∧
        next.vtxundo = state.vtxundo ++ (if entry.2 = 0 then [] else [txundo]) := by
  simp only [connectTx, bind_eq_ok, require_eq_ok, exists_unit, Except.ok.injEq] at hstep
  obtain ⟨nFees, hfees, _, reward, hreward, ⟨view, txundo⟩, hupdate, rfl⟩ := hstep
  exact ⟨hfees, hreward, txundo, hupdate, rfl⟩

theorem connectTx_of_ok {nFees reward : CAmount} {updated : CoinsView × List Coin}
    (hinputs : connectInputs setting pindex index state entry.1 = .ok nFees)
    (hsigOps : decide (state.nSigOpsCost + getTransactionSigOpCost entry.1 state.view
      (getBlockScriptFlags setting.params index) ≤ maxBlockSigOpsCost) = true)
    (hreward : stakeRewardOf setting.mode state entry.1 = .ok reward)
    (hupdate : (state.view.updateCoins setting.env entry.1 index.nHeight :
      Except BlockFailure _) = .ok updated) :
    connectTx setting pindex index state entry = .ok {
      view := updated.1
      nFees := nFees
      nActualStakeReward := reward
      nSigOpsCost := state.nSigOpsCost + getTransactionSigOpCost entry.1 state.view
        (getBlockScriptFlags setting.params index)
      scriptsPass := state.scriptsPass && (!setting.fScriptChecks ||
        checkInputScripts setting.env entry.1 state.view (getBlockScriptFlags setting.params index))
      vtxundo := state.vtxundo ++ (if entry.2 = 0 then [] else [updated.2]) } := by
  simp only [connectTx, hinputs, ok_bind, hsigOps, require_true, hreward, hupdate]

theorem connectInputs_eq_ok {nFees : CAmount} (hnot : tx.isCoinBase = false)
    (hsum : 0 ≤ state.nFees.toInt)
    (hinputs : connectInputs setting pindex index state tx = .ok nFees) :
    ∃ txfee, checkTxInputs setting.params setting.mode setting.now tx state.view
        index.nHeight 0 = .ok txfee ∧
      0 ≤ txfee.toInt ∧ nFees.toInt = state.nFees.toInt + txfee.toInt := by
  simp only [connectInputs, hnot, Bool.false_eq_true, if_false, bind_eq_ok,
    mapError_eq_ok, require_eq_ok, exists_unit, accumulate_eq_ok hsum, Except.ok.injEq] at hinputs
  obtain ⟨txfee, hcheck, sum, ⟨hnonneg, hsumEq⟩, _, _, _, rfl⟩ := hinputs
  exact ⟨txfee, hcheck, hnonneg, hsumEq⟩

/-- Coins that passed `CheckTxInputs` are added up exactly by `GetValueIn`. -/
theorem getValueIn_eq_ok {mode : Overflow} {view : CoinsView} {Result : Type}
    (hnot : tx.isCoinBase = false)
    (hcoins : ∀ outpoint ∈ tx.prevouts, ∃ coin, view.lookup outpoint = some coin ∧ 0 ≤ coin.value)
    (hlt : view.valueIn tx < 2 ^ 63) :
    (view.getValueIn mode tx : Except (Failure Result) CAmount) =
      .ok (Int64.ofInt (view.valueIn tx)) := by
  have hloop : ∀ (outpoints : List COutPoint) (sum : CAmount),
      (∀ outpoint ∈ outpoints, ∃ coin, view.lookup outpoint = some coin ∧
        0 ≤ coin.value) → 0 ≤ sum.toInt →
      sum.toInt + (outpoints.map (FiniteMap.weightAt Coin.value view)).sum < 2 ^ 63 →
      loop (fun nResult outpoint => (mode.add .overflowed nResult
          (((view.lookup outpoint).map fun coin => coin.out.nValue).getD (-1)) :
            Except (Failure Result) CAmount)) sum outpoints =
        .ok (Int64.ofInt (sum.toInt +
          (outpoints.map (FiniteMap.weightAt Coin.value view)).sum)) := by
    intro outpoints
    induction outpoints with
    | nil =>
      intro sum _ _ _
      simp [Int64.ofInt_toInt]
    | cons outpoint outpoints ih =>
      intro sum hall hsum hfits
      obtain ⟨⟨coin, hlookup, hnonneg⟩, hrest⟩ := List.forall_mem_cons.mp hall
      have hweight := FiniteMap.weightAt_of_lookup Coin.value hlookup
      have hrestNonneg := sum_weightAt_nonneg_of_exists hrest
      rw [List.map_cons, List.sum_cons, hweight] at hfits ⊢
      have hrange : Overflow.InRange (sum.toInt + coin.value) := by
        constructor <;> omega
      have hadd : (mode.add .overflowed sum coin.out.nValue :
          Except (Failure Result) CAmount) = .ok (Int64.ofInt (sum.toInt + coin.value)) :=
        Overflow.add_of_inRange hrange
      have hnext := Overflow.toInt_ofInt hrange
      rw [loop, hlookup, Option.map_some, Option.getD_some, hadd, ok_bind,
        ih _ hrest (by omega) (by omega), hnext, add_assoc]
  rw [CoinsView.getValueIn, hnot]
  simp only [Bool.false_eq_true, if_false]
  rw [hloop tx.prevouts 0 hcoins (by decide)
    (by rw [Int64.toInt_zero, zero_add]; exact hlt), Int64.toInt_zero, zero_add]
  rfl

/-- The difference a coinstake records fits in 64 bits. -/
theorem sub_valueIn_inRange {Result : Type} {mode : Overflow} {view : CoinsView}
    {valueOut : CAmount}
    (hvalueOut : (tx.getValueOut mode : Except (Failure Result) CAmount) = .ok valueOut)
    (hcoins : ∀ outpoint ∈ tx.prevouts, ∃ coin, view.lookup outpoint = some coin ∧ 0 ≤ coin.value)
    (hlt : view.valueIn tx < 2 ^ 63) :
    (Int64.ofInt (view.valueIn tx)).toInt = view.valueIn tx ∧
      Overflow.InRange (valueOut.toInt - (Int64.ofInt (view.valueIn tx)).toInt) := by
  obtain ⟨houts, hvalue⟩ := CTransaction.getValueOut_eq_ok hvalueOut
  have houtNonneg := CTransaction.totalOut_nonneg houts
  have hinNonneg : 0 ≤ view.valueIn tx := sum_weightAt_nonneg_of_exists hcoins
  have hinRange : Overflow.InRange (view.valueIn tx) := ⟨by omega, hlt⟩
  have hin := Overflow.toInt_ofInt hinRange
  exact ⟨hin, Overflow.inRange_sub_of_nonneg (by omega) (by omega)⟩

/-- The reward recorded for a coinstake is exactly what it mints. -/
theorem stakeRewardOf_eq_ok {reward : CAmount} (hnot : tx.isCoinBase = false)
    (hcoins : ∀ outpoint ∈ tx.prevouts, ∃ coin,
      state.view.lookup outpoint = some coin ∧ 0 ≤ coin.value)
    (hlt : state.view.valueIn tx < 2 ^ 63) (hstake : tx.isCoinStake = true)
    (hreward : stakeRewardOf setting.mode state tx = .ok reward) :
    reward.toInt = tx.totalOut - state.view.valueIn tx := by
  simp only [stakeRewardOf, hstake, if_true, bind_eq_ok,
    getValueIn_eq_ok hnot hcoins hlt, Except.ok.injEq, exists_eq_left'] at hreward
  obtain ⟨valueOut, hvalueOut, hsub⟩ := hreward
  obtain ⟨_, hvalue⟩ := CTransaction.getValueOut_eq_ok hvalueOut
  obtain ⟨hin, hrange⟩ := sub_valueIn_inRange hvalueOut hcoins hlt
  rw [Overflow.toInt_of_sub_eq_ok hrange hsub, hin, hvalue]

/-- The effect of one pass of the loop on the view and the sums. -/
structure LedgerStep (setting : Setting) (index : CBlockIndex)
    (tx : CTransaction) (state next : ConnectState) : Prop where
  view_eq : next.view = state.view.applyTx setting.env tx index.nHeight
  fees_nonneg : 0 ≤ next.nFees.toInt
  fees_eq : next.nFees.toInt = state.nFees.toInt + state.view.feeOf tx
  total_eq : next.view.totalValue + tx.droppedOut + state.view.feeOf tx =
    state.view.totalValue + state.view.mintOf tx
  reward_eq : tx.isCoinStake = true →
    next.nActualStakeReward.toInt = state.view.mintOf tx
  reward_kept : tx.isCoinStake = false →
    next.nActualStakeReward = state.nActualStakeReward

theorem connectTx_reward_kept (hnot : entry.1.isCoinStake = false)
    (hstep : connectTx setting pindex index state entry = .ok next) :
    next.nActualStakeReward = state.nActualStakeReward := by
  obtain ⟨_, hreward, _⟩ := connectTx_eq_ok hstep
  simpa [stakeRewardOf, hnot, eq_comm] using hreward

theorem connectTx_ledger (hnot : entry.1.isCoinBase = false) (hfees : 0 ≤ state.nFees.toInt)
    (hstep : connectTx setting pindex index state entry = .ok next) :
    LedgerStep setting index entry.1 state next := by
  obtain ⟨hinputs, hreward, txundo, hupdate, _⟩ := connectTx_eq_ok hstep
  obtain ⟨txfee, hcheck, hfeeNonneg, hsum⟩ := connectInputs_eq_ok hnot hfees hinputs
  obtain ⟨hcoins, hlt, hstakeFee, hpays⟩ := checkTxInputs_eq_ok.mp hcheck
  have hpresent : ∀ outpoint ∈ entry.1.prevouts, ∃ coin,
      state.view.lookup outpoint = some coin ∧ 0 ≤ coin.value := by
    intro outpoint hmem
    obtain ⟨coin, hlookup, hspend⟩ := hcoins outpoint hmem
    exact ⟨coin, hlookup, hspend.value_nonneg⟩
  have hfee : txfee.toInt = state.view.feeOf entry.1 := by
    cases hstake : entry.1.isCoinStake with
    | true => simp [CoinsView.feeOf, hstake, ← hstakeFee hstake]
    | false => simp [CoinsView.feeOf, hnot, hstake, (hpays hstake).fee_eq]
  refine ⟨CoinsView.updateCoins_eq_ok hupdate, by omega, by omega, ?_, ?_,
    fun hstake => connectTx_reward_kept hstake hstep⟩
  · have htotal := CoinsView.totalValue_updateCoins hnot hupdate
    have hsplit := entry.1.totalOut_eq
    cases hstake : entry.1.isCoinStake <;>
      simp only [CoinsView.feeOf, CoinsView.mintOf, hnot, hstake, Bool.or_true,
        Bool.or_false, Bool.false_eq_true, if_true, if_false] <;> omega
  · intro hstake
    rw [stakeRewardOf_eq_ok hnot hpresent hlt hstake hreward]
    simp [CoinsView.mintOf, hnot, hstake]

/-- The coinbase of a block that passed the BIP30 test. -/
theorem connectTx_ledger_coinbase (hcoinbase : entry.1.isCoinBase = true)
    (hlength : entry.1.vout.length ≤ 2 ^ 32)
    (hfresh : ∀ coin ∈ entry.1.newCoins setting.env index.nHeight,
      state.view.lookup coin.1 = none)
    (hfees : 0 ≤ state.nFees.toInt)
    (hstep : connectTx setting pindex index state entry = .ok next) :
    LedgerStep setting index entry.1 state next := by
  have hnotStake := CTransaction.isCoinStake_eq_false_of_isCoinBase hcoinbase
  obtain ⟨hinputs, _, txundo, hupdate, _⟩ := connectTx_eq_ok hstep
  have hkept : state.nFees = next.nFees := by
    simpa [connectInputs, hcoinbase] using hinputs
  have htotal := CoinsView.totalValue_updateCoins_coinbase hcoinbase hlength hfresh hupdate
  have hsplit := entry.1.totalOut_eq
  have hfee : state.view.feeOf entry.1 = 0 := by
    simp [CoinsView.feeOf, hcoinbase]
  have hmint : state.view.mintOf entry.1 = entry.1.totalOut := by
    simp [CoinsView.mintOf, hcoinbase]
  refine ⟨CoinsView.updateCoins_eq_ok hupdate, hkept ▸ hfees, ?_, by omega, ?_,
    fun hstake => connectTx_reward_kept hstake hstep⟩
  · rw [hkept, hfee, add_zero]
  · intro hstake
    simp [hnotStake] at hstake

end Step

section Run

variable {setting : Setting} {pindex : IndexChain} {index : CBlockIndex}
  {state next final : ConnectState} {tx : CTransaction}
  {entries : List (CTransaction × ℕ)}

/-- What the loop accumulates over a list of transactions. -/
structure LedgerRun (setting : Setting) (index : CBlockIndex)
    (vtx : List CTransaction) (state final : ConnectState) : Prop where
  view_eq : final.view = state.view.applyAll setting.env index.nHeight vtx
  fees_nonneg : 0 ≤ final.nFees.toInt
  fees_eq : final.nFees.toInt = state.nFees.toInt +
    state.view.feesOf setting.env index.nHeight vtx
  total_eq : final.view.totalValue + droppedBy vtx +
      state.view.feesOf setting.env index.nHeight vtx =
    state.view.totalValue +
      state.view.mintedBy setting.env index.nHeight vtx

theorem LedgerStep.cons {vtx : List CTransaction} (hstep : LedgerStep setting index tx state next)
    (hrun : LedgerRun setting index vtx next final) :
    LedgerRun setting index (tx :: vtx) state final := by
  obtain ⟨hview, _, hfeeStep, htotalStep, _, _⟩ := hstep
  obtain ⟨hfinal, hnonneg, hfeesRun, htotalRun⟩ := hrun
  rw [hview] at hfinal hfeesRun htotalRun htotalStep
  refine ⟨hfinal, hnonneg, ?_, ?_⟩
  · simp only [CoinsView.feesOf, CoinsView.sumOver] at hfeesRun ⊢
    omega
  · simp only [CoinsView.feesOf, CoinsView.mintedBy, CoinsView.sumOver, droppedBy,
      List.map_cons, List.sum_cons] at htotalRun ⊢
    omega

theorem connectTxs_ledger
    (hnot : ∀ entry ∈ entries, entry.1.isCoinBase = false) (hfees : 0 ≤ state.nFees.toInt)
    (hrun : loop (connectTx setting pindex index) state entries = .ok final) :
    LedgerRun setting index (entries.map Prod.fst) state final := by
  induction entries generalizing state with
  | nil =>
    obtain rfl : state = final := by simpa using hrun
    exact ⟨rfl, hfees, by simp [CoinsView.feesOf, CoinsView.sumOver],
      by simp [CoinsView.feesOf, CoinsView.mintedBy, CoinsView.sumOver, droppedBy]⟩
  | cons entry entries ih =>
    obtain ⟨next, hstep, hrest⟩ := loop_cons_eq_ok.mp hrun
    obtain ⟨hhead, htail⟩ := List.forall_mem_cons.mp hnot
    have hledger := connectTx_ledger hhead hfees hstep
    exact hledger.cons (ih htail hledger.fees_nonneg hrest)

/-- Ordinary transactions leave the recorded stake reward alone. -/
theorem connectTxs_reward (hnot : ∀ entry ∈ entries, entry.1.isCoinStake = false)
    (hrun : loop (connectTx setting pindex index) state entries = .ok final) :
    final.nActualStakeReward = state.nActualStakeReward := by
  refine loop_invariant
    (fun current => current.nActualStakeReward = state.nActualStakeReward) ?_ rfl hrun
  intro entry hmem current next hcurrent hstep
  rw [connectTx_reward_kept (hnot entry hmem) hstep, hcurrent]

/-- The whole loop of an accepted block, the coinbase included. -/
theorem ConnectRun.ledger {pprev : IndexChain} {prevModifier : UInt256}
    {view : CoinsView} {block : CBlock} {connected : Connected}
    (hrun : ConnectRun setting pprev index prevModifier view block connected final) :
    LedgerRun setting index block.vtx (ConnectState.initial view) final := by
  obtain ⟨coinbase, rest, hvtx, hcoinbase, hrest⟩ := hrun.checked.head_coinbase
  have hmem : coinbase ∈ block.vtx := by simp [hvtx]
  have hloop := hrun.run
  rw [hvtx, List.zipIdx_cons, loop_cons_eq_ok] at hloop
  obtain ⟨first, hfirst, hothers⟩ := hloop
  have hlength : coinbase.vout.length ≤ 2 ^ 32 :=
    (hrun.checked.checked coinbase hmem).length_vout_le.trans (by decide)
  have hstep := connectTx_ledger_coinbase hcoinbase hlength
    (fun _ => lookup_eq_none_of_passesBIP30 hrun.bip30 hmem) le_rfl hfirst
  have htail := connectTxs_ledger
    (fun entry hentry => hrest entry.1 (List.fst_mem_of_mem_zipIdx hentry))
    hstep.fees_nonneg hothers
  rw [List.zipIdx_map_fst] at htail
  rw [hvtx]
  exact hstep.cons htail

theorem connectTx_view {entry : CTransaction × ℕ}
    (hstep : connectTx setting pindex index state entry = .ok next) :
    next.view = state.view.applyTx setting.env entry.1 index.nHeight := by
  obtain ⟨_, _, txundo, hupdate, _⟩ := connectTx_eq_ok hstep
  exact CoinsView.updateCoins_eq_ok hupdate

theorem connectTxs_view (hrun : loop (connectTx setting pindex index) state entries = .ok final) :
    final.view = state.view.applyAll setting.env index.nHeight (entries.map Prod.fst) := by
  induction entries generalizing state with
  | nil =>
    obtain rfl : state = final := by simpa using hrun
    rfl
  | cons entry entries ih =>
    obtain ⟨next, hstep, hrest⟩ := loop_cons_eq_ok.mp hrun
    rw [ih hrest, connectTx_view hstep]
    rfl

theorem connectTx_accepted {entry : CTransaction × ℕ} (hnot : entry.1.isCoinBase = false)
    (hstep : connectTx setting pindex index state entry = .ok next) :
    ∃ txfee, checkTxInputs setting.params setting.mode setting.now entry.1
      state.view index.nHeight 0 = .ok txfee := by
  obtain ⟨hinputs, _⟩ := connectTx_eq_ok hstep
  simp only [connectInputs, hnot, Bool.false_eq_true, if_false, bind_eq_ok,
    mapError_eq_ok] at hinputs
  obtain ⟨txfee, hcheck, _⟩ := hinputs
  exact ⟨txfee, hcheck⟩

/-- Every transaction of an accepted block other than the coinbase passed
`CheckTxInputs` in the view that the transactions before it left. -/
theorem ConnectRun.checkTxInputs_eq_ok {pprev : IndexChain} {prevModifier : UInt256}
    {view : CoinsView} {block : CBlock} {connected : Connected} {before after : List CTransaction}
    (hrun : ConnectRun setting pprev index prevModifier view block connected final)
    (hvtx : block.vtx = before ++ tx :: after) (hnot : tx.isCoinBase = false) :
    ∃ txfee, checkTxInputs setting.params setting.mode setting.now tx
      (view.applyAll setting.env index.nHeight before) index.nHeight 0 = .ok txfee := by
  have hloop := hrun.run
  rw [hvtx, List.zipIdx_append, loop_append, bind_eq_ok] at hloop
  obtain ⟨current, hbefore, hrest⟩ := hloop
  rw [List.zipIdx_cons] at hrest
  obtain ⟨next, hstep, _⟩ := loop_cons_eq_ok.mp hrest
  have hview := connectTxs_view hbefore
  rw [List.zipIdx_map_fst, ConnectState.initial_view] at hview
  rw [← hview]
  exact connectTx_accepted hnot hstep

end Run

end FirstIslamicCoin
