import FirstIslamicCoin.Validation.Supply

/-!
# Transaction timestamps and block times

A transaction should not be stamped later than its block, so that no coin
carries a time beyond the block that created it.  `CheckBlock` has a test for
this, but the test stands behind the `return` of another one.  What is enforced
is the time of the coinstake; for all other transactions the law is exactly the
condition that whoever built the block respected it.
-/

namespace FirstIslamicCoin

open Outcome

/-- Every transaction but the coinstake of a proof-of-stake block is stamped no
later than the block. -/
def OthersStampedInTime (block : CBlock) : Prop :=
  ∀ position tx, block.vtx[position]? = some tx →
    ¬ (position = 1 ∧ tx.isCoinStake = true) → tx.nTime ≤ block.nTime

section Block

variable {setting : Setting} {block : CBlock}
  {fCheckPOW fCheckMerkleRoot fCheckSig : Bool}

theorem checkCoinStakeTimestamp_eq {params : Params} {nTimeBlock nTimeTx : ℤ}
    (hcheck : checkCoinStakeTimestamp params nTimeBlock nTimeTx = true) : nTimeBlock = nTimeTx := by
  unfold checkCoinStakeTimestamp at hcheck
  split_ifs at hcheck
  · rw [Bool.and_eq_true, beq_iff_eq] at hcheck
    exact hcheck.1
  · exact beq_iff_eq.mp hcheck

/-- The coinstake of an accepted block is untimed or has the block's time. -/
theorem checkBlock_coinstake_nTime {coinstake : CTransaction}
    (hcheck : checkBlock setting block fCheckPOW fCheckMerkleRoot fCheckSig = .ok ())
    (hsecond : block.vtx[1]? = some coinstake) (hcoinstake : coinstake.isCoinStake = true) :
    coinstake.nTime = 0 ∨ coinstake.nTime = block.nTime := by
  simp only [checkBlock, checkBlockBody, bind_eq_ok, require_eq_ok, exists_unit] at hcheck
  obtain ⟨_, _, _, _, _, _, _, htime, _⟩ := hcheck
  rcases hvtx : block.vtx with _ | ⟨_, _ | ⟨second, rest⟩⟩
  · simp [hvtx] at hsecond
  · simp [hvtx] at hsecond
  · obtain rfl : second = coinstake := by simpa [hvtx] using hsecond
    have hstake : block.isProofOfStake = true := by
      rw [CBlock.isProofOfStake, hvtx]
      exact hcoinstake
    rw [hstake, Bool.not_true, Bool.false_or, hvtx, List.tail_cons,
      List.head?_cons, Option.all_some] at htime
    have heq := checkCoinStakeTimestamp_eq htime
    rw [CTransaction.timeOr] at heq
    split_ifs at heq with hzero
    · exact .inl hzero
    · right
      rw [← UInt32.toNat_inj]
      exact (Int.ofNat_inj.mp heq).symm

theorem nTime_le_of_othersStampedInTime
    (hcheck : checkBlock setting block fCheckPOW fCheckMerkleRoot fCheckSig = .ok ())
    (hothers : OthersStampedInTime block) {tx : CTransaction}
    (hmem : tx ∈ block.vtx) : tx.nTime ≤ block.nTime := by
  obtain ⟨position, hposition⟩ := List.mem_iff_getElem?.mp hmem
  by_cases hstake : position = 1 ∧ tx.isCoinStake = true
  · obtain ⟨rfl, hcoinstake⟩ := hstake
    rcases checkBlock_coinstake_nTime hcheck hposition hcoinstake with hzero | heq
    · rw [hzero]
      exact UInt32.zero_le
    · rw [heq]
      exact UInt32.le_refl _
  · exact hothers position tx hposition hstake

end Block

section Provenance

/-- The coin at an outpoint is an output of a transaction of the block. -/
def CreatedBy (env : External) (block : CBlock) (outpoint : COutPoint)
    (coin : Coin) : Prop :=
  ∃ tx ∈ block.vtx, ∃ nHeight position out, tx.vout[position]? = some out ∧
    outpoint = tx.outPoint env position ∧ coin = tx.coinOf nHeight out

variable {env : External} {view : CoinsView} {nHeight : ℤ}
  {vtx : List CTransaction} {outpoint : COutPoint} {coin : Coin}

/-- A coin left by a list of transactions was there before or is an output of
one of them. -/
theorem lookup_applyAll_cases
    (hlookup : (view.applyAll env nHeight vtx).lookup outpoint = some coin) :
    view.lookup outpoint = some coin ∨
      ∃ tx ∈ vtx, (outpoint, coin) ∈ tx.newCoins env nHeight := by
  induction vtx generalizing view with
  | nil => exact .inl hlookup
  | cons tx vtx ih =>
    rcases ih hlookup with hbefore | ⟨later, hmem, hnew⟩
    · rcases CoinsView.lookup_applyTx_cases hbefore with hview | hnew
      · exact .inl hview
      · exact .inr ⟨tx, List.mem_cons_self, hnew⟩
    · exact .inr ⟨later, List.mem_cons_of_mem _ hmem, hnew⟩

theorem createdBy_of_mem_newCoins {block : CBlock} {tx : CTransaction} (htx : tx ∈ block.vtx)
    (hnew : (outpoint, coin) ∈ tx.newCoins env nHeight) : CreatedBy env block outpoint coin := by
  obtain ⟨out, position, hout, _, heq⟩ := CTransaction.exists_of_mem_newCoins hnew
  obtain ⟨houtpoint, hcoin⟩ := Prod.mk.inj heq
  exact ⟨tx, htx, nHeight, position, out, hout, houtpoint, hcoin⟩

/-- A coin a block created is stamped like one of its transactions. -/
theorem CreatedBy.nTime_le {block : CBlock} (hcreated : CreatedBy env block outpoint coin)
    (hstamped : ∀ tx ∈ block.vtx, tx.nTime ≤ block.nTime) : coin.nTime ≤ block.nTime := by
  obtain ⟨tx, htx, _, _, _, _, _, rfl⟩ := hcreated
  exact hstamped tx htx

end Provenance

section Chain

variable {env : External} {network : ChainType} {mode : Overflow}
  {blocks : List CBlock} {tip next : ChainTip} {block : CBlock}

theorem ConnectRun.createdBy {setting : Setting} {pprev : IndexChain}
    {index : CBlockIndex} {prevModifier : UInt256} {view : CoinsView}
    {connected : Connected} {state : ConnectState} {outpoint : COutPoint} {coin : Coin}
    (hrun : ConnectRun setting pprev index prevModifier view block connected state)
    (hlookup : connected.view.lookup outpoint = some coin) :
    view.lookup outpoint = some coin ∨
      CreatedBy setting.env block outpoint coin := by
  rw [hrun.view_eq, hrun.ledger.view_eq] at hlookup
  rcases lookup_applyAll_cases hlookup with hbefore | ⟨tx, htx, hnew⟩
  · exact .inl hbefore
  · exact .inr (createdBy_of_mem_newCoins htx hnew)

/-- What a connected block adds: it passed `CheckBlock`, and the coins that were
not there before are its own. -/
theorem Connects.createdBy (hstep : Connects env network mode tip block next) :
    (∃ setting, checkBlock setting block true true true = .ok ()) ∧
      ∀ outpoint coin, next.view.lookup outpoint = some coin →
        tip.view.lookup outpoint = some coin ∨ CreatedBy env block outpoint coin := by
  obtain ⟨setting, index, connected, hsetting, _, hgenesis, hconnect⟩ := hstep
  rw [← hsetting.params_eq] at hgenesis
  obtain ⟨state, hrun⟩ := connectBlock_run hgenesis hconnect
  refine ⟨⟨setting, checkBlock_of_connectBlock hconnect⟩, ?_⟩
  intro outpoint coin hlookup
  rw [← hsetting.env_eq]
  exact hrun.createdBy hlookup

/-- On every chain from genesis, every coin was created by a block of the
chain, and every block passed `CheckBlock`. -/
theorem run_createdBy
    (hrun : Run (Connects env network mode) (ChainTip.genesis env network) blocks tip) :
    (∀ block ∈ blocks, ∃ setting, checkBlock setting block true true true = .ok ()) ∧
      ∀ outpoint coin, tip.view.lookup outpoint = some coin →
        ∃ block ∈ network.genesis env :: blocks, CreatedBy env block outpoint coin := by
  refine hrun.invariant (fun earlier current =>
    (∀ block ∈ earlier, ∃ setting, checkBlock setting block true true true = .ok ()) ∧
      ∀ outpoint coin, current.view.lookup outpoint = some coin →
        ∃ block ∈ network.genesis env :: earlier, CreatedBy env block outpoint coin)
    ?_ ?_
  · refine ⟨by simp, ?_⟩
    intro outpoint coin hlookup
    rcases CoinsView.lookup_applyTx_cases hlookup with hempty | hnew
    · simp at hempty
    · exact ⟨network.genesis env, List.mem_cons_self,
        createdBy_of_mem_newCoins List.mem_cons_self hnew⟩
  · intro earlier current block next ⟨hchecked, hcreated⟩ hstep
    obtain ⟨hcheck, hnew⟩ := hstep.createdBy
    refine ⟨?_, ?_⟩
    · intro other hmem
      rcases List.mem_append.mp hmem with hearlier | hlast
      · exact hchecked other hearlier
      · rw [List.mem_singleton.mp hlast]
        exact hcheck
    · intro outpoint coin hlookup
      rcases hnew outpoint coin hlookup with hbefore | hblock
      · obtain ⟨other, hmem, hother⟩ := hcreated outpoint coin hbefore
        refine ⟨other, ?_, hother⟩
        rw [← List.cons_append]
        exact List.mem_append_left _ hmem
      · exact ⟨block, by simp, hblock⟩

theorem genesis_nTime_le (tx : CTransaction) (hmem : tx ∈ (network.genesis env).vtx) :
    tx.nTime ≤ (network.genesis env).nTime := by
  obtain rfl : tx = network.genesisTx := List.mem_singleton.mp hmem
  exact UInt32.le_refl _

end Chain

theorem nTime_le_iff_othersStampedInTime (env : External) (network : ChainType) (mode : Overflow) :
    (∀ (setting : Setting) (block : CBlock)
        (fCheckPOW fCheckMerkleRoot fCheckSig : Bool),
      checkBlock setting block fCheckPOW fCheckMerkleRoot fCheckSig = .ok () →
        ((∀ tx ∈ block.vtx, tx.nTime ≠ 0 → tx.nTime ≤ block.nTime) ↔
          OthersStampedInTime block)) ∧
    (∀ (blocks : List CBlock) (tip : ChainTip),
      Run (Connects env network mode) (ChainTip.genesis env network) blocks tip →
        (∀ block ∈ blocks, OthersStampedInTime block) →
          ∀ outpoint coin, tip.view.lookup outpoint = some coin →
            ∃ block ∈ network.genesis env :: blocks,
              CreatedBy env block outpoint coin ∧ coin.nTime ≤ block.nTime) := by
  refine ⟨?_, ?_⟩
  · intro setting block fCheckPOW fCheckMerkleRoot fCheckSig hcheck
    refine ⟨fun hall => ?_, fun hothers tx hmem _ =>
      nTime_le_of_othersStampedInTime hcheck hothers hmem⟩
    intro position tx hposition _
    by_cases hzero : tx.nTime = 0
    · rw [hzero]
      exact UInt32.zero_le
    · exact hall tx (List.mem_of_getElem? hposition) hzero
  · intro blocks tip hrun hothers outpoint coin hlookup
    obtain ⟨hchecked, hcreated⟩ := run_createdBy hrun
    obtain ⟨block, hmem, hblock⟩ := hcreated outpoint coin hlookup
    refine ⟨block, hmem, hblock, hblock.nTime_le ?_⟩
    rcases List.mem_cons.mp hmem with rfl | hlater
    · exact genesis_nTime_le
    · obtain ⟨setting, hcheck⟩ := hchecked block hlater
      exact fun tx => nTime_le_of_othersStampedInTime hcheck (hothers block hlater)

section Future

open External

theorem othersStampedInTime_firstStakeBlock :
    OthersStampedInTime (firstStakeBlock 0 []) := by
  have hall : ∀ tx ∈ (firstStakeBlock 0 []).vtx,
      tx.nTime ≤ (firstStakeBlock 0 []).nTime := by
    decide
  intro position tx hposition _
  exact hall tx (List.mem_of_getElem? hposition)

theorem nTime_le_firstStakeBlock :
    ∃ tip, Run (Connects sample .main .wrap) (ChainTip.genesis sample .main)
        [firstStakeBlock 0 []] tip ∧
      ∀ outpoint coin, tip.view.lookup outpoint = some coin →
        ∃ block ∈ ChainType.main.genesis sample :: [firstStakeBlock 0 []],
          CreatedBy sample block outpoint coin ∧ coin.nTime ≤ block.nTime := by
  obtain ⟨tip, hrun, _⟩ := run_firstStake 1789171216 0 [] plainFirst.hashBlock_ne
    plainFirst.accepted
  refine ⟨tip, hrun, (nTime_le_iff_othersStampedInTime sample .main .wrap).2 _ tip
    hrun ?_⟩
  intro block hmem
  rw [List.mem_singleton.mp hmem]
  exact othersStampedInTime_firstStakeBlock

def futureSpend : CTransaction where
  vin := [⟨⟨ChainType.main.genesisTx.getHash sample, 1⟩, [], 0xffffffff, []⟩]
  vout := [⟨1399999999900000, [0x51]⟩]
  nVersion := 1
  nTime := 4000000000
  nLockTime := 0

theorem future_evaluated :
    ((firstStakeIndex 100000 [futureSpend]).hashBlock ≠
        (ChainType.main.consensus sample).hashGenesisBlock ∧
      (connectFirstStake 1789171216 100000 [futureSpend]).isOk = true) ∧
    checkBlock (Setting.sample .main 1789171216 0)
      (firstStakeBlock 100000 [futureSpend]) true true true = .ok () ∧
    ((ChainTip.genesis sample .main).view.applyAll sample
        (firstStakeIndex 100000 [futureSpend]).nHeight
        (firstStakeBlock 100000 [futureSpend]).vtx).lookup (futureSpend.outPoint sample 0) =
      some (futureSpend.coinOf 1 ⟨1399999999900000, [0x51]⟩) := by
  decide +kernel

def futureFirst : AcceptedFirst :=
  ⟨1789171216, 100000, [futureSpend], future_evaluated.1⟩

/-- The main network accepts a first block, dated 2026, that contains it, and
its output is then in the UTXO set. -/
theorem exists_run_futureSpend :
    checkBlock (Setting.sample .main 1789171216 0)
        (firstStakeBlock 100000 [futureSpend]) true true true = .ok () ∧
      futureSpend ∈ (firstStakeBlock 100000 [futureSpend]).vtx ∧
      futureSpend.nTime ≠ 0 ∧
      (firstStakeBlock 100000 [futureSpend]).nTime < futureSpend.nTime ∧
      ∃ tip, Run (Connects sample .main .wrap) (ChainTip.genesis sample .main)
          [firstStakeBlock 100000 [futureSpend]] tip ∧
        ∃ coin, tip.view.lookup (futureSpend.outPoint sample 0) = some coin ∧
          ∀ block ∈ [ChainType.main.genesis sample,
            firstStakeBlock 100000 [futureSpend]], block.nTime < coin.nTime := by
  obtain ⟨tip, hrun, hview⟩ := run_firstStake 1789171216 100000 [futureSpend]
    futureFirst.hashBlock_ne futureFirst.accepted
  refine ⟨future_evaluated.2.1, by simp [firstStakeBlock, CBlock.assemble, firstStakeTransactions],
    by decide, by decide, tip, hrun, futureSpend.coinOf 1 ⟨1399999999900000, [0x51]⟩, ?_, by decide⟩
  rw [hview]
  exact future_evaluated.2.2

end Future

end FirstIslamicCoin
