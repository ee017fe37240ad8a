import FirstIslamicCoin.Validation.Supply

/-!
# Connecting a block under two clocks

`CheckTxInputs` dates an untimed transaction of version 2 or more by the clock
of the node.  Apart from the drift test on the header, this is the only place
where the clock enters `ConnectBlock`.  Two clocks agree on a block dated after
genesis unless an untimed transaction spends a coin stamped later than one of
them, and then the node with that clock rejects the block.
-/

namespace FirstIslamicCoin

open Outcome

/-- No untimed transaction of a list spends a coin stamped later than `now`,
each read in the view that the transactions before it left. -/
def UntimedSpendsBefore (env : External) (nHeight : ℤ) (view : CoinsView)
    (vtx : List CTransaction) (now : ℤ) : Prop :=
  ∀ before tx after, vtx = before ++ tx :: after → tx.isCoinBase = false →
    tx.nTime = 0 → 2 ≤ tx.nVersion → ∀ outpoint ∈ tx.prevouts, ∀ coin,
      (view.applyAll env nHeight before).lookup outpoint = some coin →
        (coin.nTime.toNat : ℤ) ≤ now

section Inputs

variable {params : Params} {mode : Overflow} {view : CoinsView}
  {tx : CTransaction} {nSpendHeight first second : ℤ}

/-- A time the input checks cannot tell from another: both are after version
3.1, within 32 bits, and not before any coin the transaction spends. -/
structure Indistinguishable (params : Params) (view : CoinsView)
    (tx : CTransaction) (nTimeTx : ℤ) : Prop where
  nonneg : 0 ≤ nTimeTx
  lt : nTimeTx < 2 ^ 32
  isProtocolV3_1 : params.isProtocolV3_1 nTimeTx = true
  nTime_le : ∀ outpoint ∈ tx.prevouts, ∀ coin, view.lookup outpoint = some coin →
    (coin.nTime.toNat : ℤ) ≤ nTimeTx

theorem checkInputs_congr (hfirst : Indistinguishable params view tx first)
    (hsecond : Indistinguishable params view tx second) (nValueIn : CAmount) :
    loop (checkInput params mode view nSpendHeight first) nValueIn tx.prevouts =
      loop (checkInput params mode view nSpendHeight second) nValueIn tx.prevouts := by
  refine loop_congr (fun items _ => ∀ outpoint ∈ items, outpoint ∈ tx.prevouts) ?_ ?_
    (fun _ hmem => hmem)
  · intro outpoint items sum hitems
    have hmem := hitems outpoint List.mem_cons_self
    cases hlookup : view.lookup outpoint with
    | none => simp only [checkInput, hlookup]
    | some coin =>
      have hfirstTime := hfirst.nTime_le outpoint hmem coin hlookup
      have hsecondTime := hsecond.nTime_le outpoint hmem coin hlookup
      simp only [checkInput, hlookup, checkCoin, requiredDepth,
        hfirst.isProtocolV3_1, hsecond.isProtocolV3_1, hfirstTime, hsecondTime]
  · intro outpoint items sum next hitems _ other hmem
    exact hitems other (List.mem_cons_of_mem _ hmem)

theorem checkFee_congr {nValueIn txfee : CAmount} (hfirst : Indistinguishable params view tx first)
    (hsecond : Indistinguishable params view tx second) :
    checkFee params mode tx first nValueIn txfee =
      checkFee params mode tx second nValueIn txfee := by
  have hfirstMod : first % 2 ^ 32 = first := Int.emod_eq_of_lt hfirst.nonneg hfirst.lt
  have hsecondMod : second % 2 ^ 32 = second := Int.emod_eq_of_lt hsecond.nonneg hsecond.lt
  have hminimum : ∀ nBytes, getMinFee params nBytes first = getMinFee params nBytes second := by
    intro nBytes
    simp only [getMinFee, hfirstMod, hsecondMod, hfirst.isProtocolV3_1, hsecond.isProtocolV3_1]
  simp only [checkFee, hminimum, hfirst.isProtocolV3_1, hsecond.isProtocolV3_1]

/-- The clock matters to `CheckTxInputs` only for an untimed transaction, and
there only if the input checks can tell the two times apart. -/
theorem checkTxInputs_congr {txfee : CAmount} (huntimed : tx.nTime = 0 → 2 ≤ tx.nVersion →
      Indistinguishable params view tx first ∧
        Indistinguishable params view tx second) :
    checkTxInputs params mode first tx view nSpendHeight txfee =
      checkTxInputs params mode second tx view nSpendHeight txfee := by
  by_cases hcase : tx.nTime = 0 ∧ 2 ≤ tx.nVersion
  · obtain ⟨hfirst, hsecond⟩ := huntimed hcase.1 hcase.2
    simp only [checkTxInputs, nTimeTx, hcase, and_self, if_true,
      checkInputs_congr hfirst hsecond, checkFee_congr hfirst hsecond]
  · simp only [checkTxInputs, nTimeTx, hcase, if_false]

end Inputs

section Block

variable {setting : Setting} {pindex pprev : IndexChain} {index : CBlockIndex}
  {prevModifier bestBlock : UInt256} {view : CoinsView} {block : CBlock}
  {fJustCheck : Bool} {first second : ℤ}

theorem connectTx_now {state : ConnectState} {entry : CTransaction × ℕ}
    (hcheck : entry.1.isCoinBase = false →
      checkTxInputs setting.params setting.mode first entry.1 state.view index.nHeight 0 =
        checkTxInputs setting.params setting.mode second entry.1 state.view index.nHeight 0) :
    connectTx { setting with now := first } pindex index state entry =
      connectTx { setting with now := second } pindex index state entry := by
  have hinputs : connectInputs { setting with now := first } pindex index state entry.1 =
      connectInputs { setting with now := second } pindex index state entry.1 := by
    cases hcoinbase : entry.1.isCoinBase with
    | true => simp only [connectInputs, hcoinbase, if_true]
    | false =>
      simp only [connectInputs, hcoinbase, Bool.false_eq_true, if_false, hcheck hcoinbase]
  simp only [connectTx, hinputs]

theorem futureDrift_now (now nTime : ℤ) :
    futureDrift { setting with now := now } nTime = futureDrift setting nTime := rfl

theorem checkBlock_now {fCheckPOW fCheckMerkleRoot fCheckSig : Bool}
    (hfirst : block.getBlockTime ≤ futureDrift setting first)
    (hsecond : block.getBlockTime ≤ futureDrift setting second) :
    checkBlock { setting with now := first } block fCheckPOW fCheckMerkleRoot fCheckSig =
      checkBlock { setting with now := second } block fCheckPOW fCheckMerkleRoot fCheckSig := by
  simp only [checkBlock, checkBlockHeader, futureDrift_now, hfirst, hsecond]
  rfl

section

variable (hcheck : ∀ before tx after, block.vtx = before ++ tx :: after → tx.isCoinBase = false →
  checkTxInputs setting.params setting.mode first tx
      (view.applyAll setting.env index.nHeight before) index.nHeight 0 =
    checkTxInputs setting.params setting.mode second tx
      (view.applyAll setting.env index.nHeight before) index.nHeight 0)

include hcheck

/-- The transaction loop does not see the clock when no transaction does. -/
theorem connectTxs_now :
    loop (connectTx { setting with now := first } pindex index)
        (ConnectState.initial view) block.vtx.zipIdx =
      loop (connectTx { setting with now := second } pindex index)
        (ConnectState.initial view) block.vtx.zipIdx := by
  refine loop_congr (fun items current => ∃ before,
    block.vtx = before ++ items.map Prod.fst ∧
      current.view = view.applyAll setting.env index.nHeight before) ?_ ?_
    ⟨[], by rw [List.zipIdx_map_fst, List.nil_append], rfl⟩
  · rintro entry items current ⟨before, hvtx, hview⟩
    apply connectTx_now
    intro hcoinbase
    rw [hview]
    exact hcheck before entry.1 (items.map Prod.fst) hvtx hcoinbase
  · rintro entry items current next ⟨before, hvtx, hview⟩ hstep
    refine ⟨before ++ [entry.1], by simpa using hvtx, ?_⟩
    rw [connectTx_view hstep, hview]
    simp [CoinsView.applyAll]

/-- Two clocks that both pass the drift test and that no transaction can tell
apart give the same outcome, errors included. -/
theorem connectBlock_now (hfirst : block.getBlockTime ≤ futureDrift setting first)
    (hsecond : block.getBlockTime ≤ futureDrift setting second) :
    connectBlock { setting with now := first } (index :: pprev) prevModifier view
        bestBlock block fJustCheck =
      connectBlock { setting with now := second } (index :: pprev) prevModifier view
        bestBlock block fJustCheck := by
  have hchecks : connectChecks { setting with now := first } (index :: pprev) index
        prevModifier view bestBlock block fJustCheck =
      connectChecks { setting with now := second } (index :: pprev) index
        prevModifier view bestBlock block fJustCheck := by
    simp only [connectChecks, checkBlock_now hfirst hsecond]
    rfl
  have hbody : connectBody { setting with now := first } (index :: pprev) index
        prevModifier view bestBlock block fJustCheck =
      connectBody { setting with now := second } (index :: pprev) index
        prevModifier view bestBlock block fJustCheck := by
    simp only [connectBody, connectTransactions, connectTxs_now hcheck]
    rfl
  simp only [connectBlock, hchecks, hbody]

end

/-- An accepted block meets the condition for the clock it was accepted
under. -/
theorem untimedSpendsBefore_of_connectBlock {connected : Connected}
    (hgenesis : index.hashBlock ≠ setting.params.hashGenesisBlock)
    (hconnect : connectBlock setting (index :: pprev) prevModifier view bestBlock
      block fJustCheck = .ok connected) :
    UntimedSpendsBefore setting.env index.nHeight view block.vtx setting.now := by
  obtain ⟨state, hrun⟩ := connectBlock_run hgenesis hconnect
  intro before tx after hvtx hcoinbase hzero hversion outpoint hmem coin hlookup
  obtain ⟨txfee, hcheck⟩ := hrun.checkTxInputs_eq_ok hvtx hcoinbase
  obtain ⟨hcoins, _⟩ := checkTxInputs_eq_ok.mp hcheck
  obtain ⟨found, hfound, hspend⟩ := hcoins outpoint hmem
  obtain rfl : found = coin := by simpa [hlookup] using hfound.symm
  have htime := hspend.nTime_le
  rw [nTimeTx, if_pos ⟨hzero, hversion⟩] at htime
  exact htime

end Block

section Drift

variable {setting : Setting} {block : CBlock} {now : ℤ}

theorem futureDrift_le (setting : Setting) (nTime : ℤ) :
    futureDrift setting nTime ≤ nTime + 86400 := by
  rw [futureDrift]
  split_ifs <;> omega

/-- A clock under which a block dated after genesis is not in the future is
itself after version 3.1. -/
theorem isProtocolV3_1_of_drift (env : External) (network : ChainType)
    (hgenesis : (genesisTime.toNat : ℤ) ≤ block.getBlockTime)
    (hdrift : block.getBlockTime ≤ futureDrift setting now) :
    0 ≤ now ∧ (network.consensus env).isProtocolV3_1 now = true := by
  have hle := futureDrift_le setting now
  have htime : (genesisTime.toNat : ℤ) = 1789171200 := by decide
  refine ⟨by omega, Params.isAfterSwitch_of_lt ?_ (by omega)⟩
  have hswitch : (network.consensus env).nProtocolV3_1Time ≤ 1713938400 := by
    change network.fields.nProtocolV3_1Time ≤ 1713938400
    cases network <;> decide
  omega

end Drift

theorem connectBlock_clock (network : ChainType) (setting : Setting)
    (index : CBlockIndex) (pprev : IndexChain) (prevModifier : UInt256)
    (view : CoinsView) (bestBlock : UInt256) (block : CBlock) (fJustCheck : Bool) (first second : ℤ)
    (hparams : setting.params = network.consensus setting.env)
    (hnotGenesis : index.hashBlock ≠ setting.params.hashGenesisBlock)
    (hdated : (genesisTime.toNat : ℤ) ≤ block.getBlockTime)
    (hfirst : block.getBlockTime ≤ futureDrift setting first)
    (hsecond : block.getBlockTime ≤ futureDrift setting second)
    (hfirstLt : first < 2 ^ 32) (hsecondLt : second < 2 ^ 32) :
    (UntimedSpendsBefore setting.env index.nHeight view block.vtx first →
      UntimedSpendsBefore setting.env index.nHeight view block.vtx second →
        connectBlock { setting with now := first } (index :: pprev) prevModifier
            view bestBlock block fJustCheck =
          connectBlock { setting with now := second } (index :: pprev) prevModifier
            view bestBlock block fJustCheck) ∧
    (∀ connected, connectBlock { setting with now := first } (index :: pprev)
        prevModifier view bestBlock block fJustCheck = .ok connected →
      UntimedSpendsBefore setting.env index.nHeight view block.vtx first) := by
  refine ⟨fun hbeforeFirst hbeforeSecond => ?_, fun connected hconnect => ?_⟩
  · refine connectBlock_now ?_ hfirst hsecond
    intro before tx after hvtx hcoinbase
    apply checkTxInputs_congr
    intro hzero hversion
    obtain ⟨hfirstNonneg, hfirstSwitch⟩ := isProtocolV3_1_of_drift setting.env network hdated hfirst
    obtain ⟨hsecondNonneg, hsecondSwitch⟩ :=
      isProtocolV3_1_of_drift setting.env network hdated hsecond
    rw [← hparams] at hfirstSwitch hsecondSwitch
    exact ⟨⟨hfirstNonneg, hfirstLt, hfirstSwitch,
        hbeforeFirst before tx after hvtx hcoinbase hzero hversion⟩,
      ⟨hsecondNonneg, hsecondLt, hsecondSwitch,
        hbeforeSecond before tx after hvtx hcoinbase hzero hversion⟩⟩
  · have hgenesis : index.hashBlock ≠
        ({ setting with now := first } : Setting).params.hashGenesisBlock :=
      hnotGenesis
    exact untimedSpendsBefore_of_connectBlock hgenesis hconnect

section Split

open External

/-- An ordinary spend of the second premine output, stamped like its block. -/
def stampedSpend : CTransaction where
  vin := [⟨⟨ChainType.main.genesisTx.getHash sample, 1⟩, [], 0xffffffff, []⟩]
  vout := [⟨1399999999900000, [0x51]⟩]
  nVersion := 1
  nTime := 1789171216
  nLockTime := 0

/-- An untimed spend of its output. -/
def untimedRespend : CTransaction where
  vin := [⟨⟨stampedSpend.getHash sample, 0⟩, [], 0xffffffff, []⟩]
  vout := [⟨1399999999800000, [0x51]⟩]
  nVersion := 2
  nTime := 0
  nLockTime := 0

def splittingTransactions : List CTransaction := [stampedSpend, untimedRespend]

/-- Two of three clocks accept it. -/
theorem splitting_evaluated :
    ((firstStakeIndex 200000 splittingTransactions).hashBlock ≠
        (ChainType.main.consensus sample).hashGenesisBlock ∧
      (connectFirstStake 1789171216 200000 splittingTransactions).isOk = true) ∧
    (connectFirstStake 1789171201 200000 splittingTransactions).isOk = false ∧
    (connectFirstStake 1789171230 200000 splittingTransactions).isOk = true := by
  decide +kernel

def splittingFirst : AcceptedFirst :=
  ⟨1789171216, 200000, splittingTransactions, splitting_evaluated.1⟩

theorem hashBlock_splitting_ne (now : ℤ) :
    (firstStakeIndex 200000 splittingTransactions).hashBlock ≠
      (Setting.sample .main now 0).params.hashGenesisBlock :=
  splittingFirst.hashBlock_ne

theorem untimedSpendsBefore_splitting {now : ℤ}
    (haccepted : (connectFirstStake now 200000 splittingTransactions).isOk = true) :
    UntimedSpendsBefore sample (firstStakeIndex 200000 splittingTransactions).nHeight
      (ChainTip.genesis sample .main).view
      (firstStakeBlock 200000 splittingTransactions).vtx now := by
  obtain ⟨connected, hconnect⟩ := isOk_iff_exists.mp haccepted
  have huntimed := untimedSpendsBefore_of_connectBlock (hashBlock_splitting_ne now) hconnect
  exact huntimed

/-- Two clocks that both follow the block agree on it. -/
theorem connectBlock_clock_splitting :
    connectFirstStake 1789171216 200000 splittingTransactions =
      connectFirstStake 1789171230 200000 splittingTransactions :=
  (connectBlock_clock .main (Setting.sample .main 1789171216 0)
    (firstStakeIndex 200000 splittingTransactions) _ _ _ _
    (firstStakeBlock 200000 splittingTransactions) false 1789171216 1789171230 rfl
    (hashBlock_splitting_ne _) (by decide) (by decide)
    (by decide) (by decide) (by decide)).1
    (untimedSpendsBefore_splitting splittingFirst.accepted)
    (untimedSpendsBefore_splitting splitting_evaluated.2.2)

/-- Two clocks fifteen seconds apart, both of which pass the drift test, split
on the block: one node accepts it and the other does not. -/
theorem connectFirstStake_splits :
    (firstStakeBlock 200000 splittingTransactions).getBlockTime ≤
        futureDrift (Setting.sample .main 1789171201 0) 1789171201 ∧
      (firstStakeBlock 200000 splittingTransactions).getBlockTime ≤
        futureDrift (Setting.sample .main 1789171216 0) 1789171216 ∧
      (connectFirstStake 1789171201 200000 splittingTransactions).isOk = false ∧
      (connectFirstStake 1789171216 200000 splittingTransactions).isOk = true := by
  exact ⟨by decide, by decide, splitting_evaluated.2.1, splittingFirst.accepted⟩

end Split

end FirstIslamicCoin
