import FirstIslamicCoin.Validation.Ledger

/-!
# Minting in proof-of-work blocks

`CheckTxInputs` does not compare value in and value out for a transaction that
has the shape of a coinstake, and the rule that only the second transaction may
have it is checked for proof-of-stake blocks alone.  A proof-of-work block
respects the subsidy exactly when what its coinstake-shaped transactions create
is covered by what the coinbase leaves unclaimed and by what the block drops.
-/

namespace FirstIslamicCoin

open Outcome

section Accepted

variable {setting : Setting} {pprev : IndexChain} {index : CBlockIndex}
  {prevModifier : UInt256} {view : CoinsView} {block : CBlock}
  {connected : Connected} {state : ConnectState} {coinbase : CTransaction}
  {rest : List CTransaction}

/-- An accepted coinbase claims at most the fees and the subsidy; a sum of the
two that wraps is below any claim. -/
theorem checkCoinbaseAmount_eq_ok {nFees : CAmount} (hvtx : block.vtx = coinbase :: rest)
    (hfees : 0 ≤ nFees.toInt) (hcheck : checkCoinbaseAmount setting index block nFees = .ok ()) :
    coinbase.totalOut ≤ nFees.toInt +
      (getBlockSubsidy index.nHeight setting.params false).toInt := by
  simp only [checkCoinbaseAmount, hvtx, bind_eq_ok, require_eq_ok,
    decide_eq_true_eq, Int64.le_iff_toInt_le] at hcheck
  obtain ⟨blockReward, hreward, valueOut, hvalueOut, hle⟩ := hcheck
  obtain ⟨houts, hvalue⟩ := CTransaction.getValueOut_eq_ok hvalueOut
  have hnonneg := CTransaction.totalOut_nonneg houts
  generalize getBlockSubsidy index.nHeight setting.params false = subsidy at *
  rcases le_or_gt 0 subsidy.toInt with hsubsidy | hsubsidy
  · rcases Overflow.toInt_of_add_nonneg hfees hsubsidy hreward with hexact | hwrapped
    · omega
    · omega
  · have hlt := nFees.toInt_lt
    have hge := subsidy.le_toInt
    have hrange : Overflow.InRange (nFees.toInt + subsidy.toInt) := by
      constructor <;> omega
    have hexact := Overflow.toInt_of_add_eq_ok hrange hreward
    omega

def coinbaseOut (block : CBlock) : ℤ :=
  (block.vtx.head?.map CTransaction.totalOut).getD 0

theorem coinbaseOut_eq (hvtx : block.vtx = coinbase :: rest) :
    coinbaseOut block = coinbase.totalOut := by
  rw [coinbaseOut, hvtx, List.head?_cons, Option.map_some, Option.getD_some]

section

variable (hrun : ConnectRun setting pprev index prevModifier view block connected state)

include hrun

theorem ConnectRun.totalValue_eq :
    connected.view.totalValue + droppedBy block.vtx +
        view.feesOf setting.env index.nHeight block.vtx =
      view.totalValue + coinbaseOut block +
        view.stakeMintedBy setting.env index.nHeight block.vtx := by
  obtain ⟨coinbase, rest, hvtx, hcoinbase, hrest⟩ := hrun.checked.head_coinbase
  have hledger := hrun.ledger.total_eq
  rw [ConnectState.initial_view, hvtx,
    CoinsView.mintedBy_cons view hcoinbase hrest, ← add_assoc] at hledger
  rw [hrun.view_eq, coinbaseOut_eq hvtx, hvtx, hledger]

/-- A block keeps to an allowance exactly when its coinstake-shaped
transactions create no more than the coinbase leaves of allowance and fees,
plus what the block drops. -/
theorem ConnectRun.totalValue_le_iff (allowance : ℤ) :
    connected.view.totalValue ≤ view.totalValue + allowance ↔
      view.stakeMintedBy setting.env index.nHeight block.vtx ≤
        allowance + view.feesOf setting.env index.nHeight block.vtx -
          coinbaseOut block + droppedBy block.vtx := by
  have htotal := hrun.totalValue_eq
  constructor <;> intro hle <;> omega

/-- The coinbase of an accepted proof-of-work block leaves a nonnegative
rest. -/
theorem ConnectRun.coinbaseOut_le (hpow : block.isProofOfStake = false) :
    coinbaseOut block ≤ view.feesOf setting.env index.nHeight block.vtx +
      (getBlockSubsidy index.nHeight setting.params false).toInt := by
  obtain ⟨coinbase, rest, hvtx, _⟩ := hrun.checked.head_coinbase
  have hreward : checkCoinbaseAmount setting index block state.nFees = .ok () := by
    simpa [checkReward, CBlock.isProofOfWork, hpow] using hrun.reward
  have hfees := hrun.ledger.fees_eq
  rw [ConnectState.initial_nFees, ConnectState.initial_view, Int64.toInt_zero, zero_add] at hfees
  rw [← hfees, coinbaseOut_eq hvtx]
  exact checkCoinbaseAmount_eq_ok hvtx hrun.ledger.fees_nonneg hreward

end

/-- The transactions of a proof-of-work block that may have the shape of a
coinstake stand at position 2 or later. -/
theorem isCoinStake_eq_false_of_drop (hpow : block.isProofOfStake = false)
    (hvtx : block.vtx = coinbase :: rest) (hcoinbase : coinbase.isCoinBase = true)
    (hlater : ∀ tx ∈ block.vtx.drop 2, tx.isCoinStake = false) :
    ∀ tx ∈ block.vtx, tx.isCoinStake = false := by
  rw [hvtx] at hlater ⊢
  refine List.forall_mem_cons.mpr ⟨CTransaction.isCoinStake_eq_false_of_isCoinBase hcoinbase, ?_⟩
  cases hrest : rest with
  | nil => simp
  | cons second others =>
    rw [CBlock.isProofOfStake, hvtx, hrest] at hpow
    rw [hrest] at hlater
    exact List.forall_mem_cons.mpr ⟨hpow, hlater⟩

end Accepted

/-- For every view and every accepted proof-of-work block above genesis, the
total grows by more than the subsidy only through coinstake-shaped
transactions at position 2 or later, and exactly when these create more than
the coinbase leaves unclaimed and the block drops. -/
theorem totalValue_le_subsidy_iff (setting : Setting) (index : CBlockIndex)
    (pprev : IndexChain) (prevModifier : UInt256) (view : CoinsView)
    (bestBlock : UInt256) (block : CBlock) (fJustCheck : Bool) (connected : Connected)
    (hrooted : IndexChain.Rooted setting.params (index :: pprev))
    (hheight : 0 < index.nHeight) (hpow : block.isProofOfStake = false)
    (hconnect : connectBlock setting (index :: pprev) prevModifier view bestBlock
      block fJustCheck = .ok connected) :
    ((∀ tx ∈ block.vtx.drop 2, tx.isCoinStake = false) →
      connected.view.totalValue ≤ view.totalValue +
        (getBlockSubsidy index.nHeight setting.params false).toInt) ∧
    (connected.view.totalValue ≤ view.totalValue +
        (getBlockSubsidy index.nHeight setting.params false).toInt ↔
      view.stakeMintedBy setting.env index.nHeight block.vtx ≤
        (getBlockSubsidy index.nHeight setting.params false).toInt +
          view.feesOf setting.env index.nHeight block.vtx -
          coinbaseOut block + droppedBy block.vtx) := by
  obtain ⟨state, hrun⟩ := connectBlock_run (hrooted.hashBlock_ne hheight) hconnect
  obtain ⟨coinbase, rest, hvtx, hcoinbase, _⟩ := hrun.checked.head_coinbase
  have hiff := hrun.totalValue_le_iff
    (getBlockSubsidy index.nHeight setting.params false).toInt
  refine ⟨fun hlater => hiff.mpr ?_, hiff⟩
  have hclaimed := hrun.coinbaseOut_le hpow
  have hdropped := droppedBy_nonneg
    fun tx hmem => (hrun.checked.checked tx hmem).value_nonneg
  rw [CoinsView.stakeMintedBy_eq_zero view
    (isCoinStake_eq_false_of_drop hpow hvtx hcoinbase hlater)]
  omega

section Inflation

open External

/-- Two ordinary coins worth one million each. -/
def inflatingView : CoinsView :=
  (FiniteMap.empty.insert ⟨7, 0⟩ ⟨⟨1000000, [0x51]⟩, false, false, 0, 0⟩).insert
    ⟨8, 0⟩ ⟨⟨1000000, [0x51]⟩, false, false, 0, 0⟩

/-- A coinbase that claims the subsidy, an ordinary spend, and a third
transaction of coinstake shape that turns one million into 10^18. -/
def inflatingTransactions : List CTransaction :=
  [{ vin := [⟨⟨0, COutPoint.nullIndex⟩, [0x51, 0x51], 0xffffffff, []⟩]
     vout := [⟨2800000000000000, [0x51]⟩]
     nVersion := 1
     nTime := 1800000000
     nLockTime := 0 },
   { vin := [⟨⟨7, 0⟩, [], 0xffffffff, []⟩]
     vout := [⟨900000, [0x51]⟩]
     nVersion := 1
     nTime := 1800000000
     nLockTime := 0 },
   { vin := [⟨⟨8, 0⟩, [], 0xffffffff, []⟩]
     vout := [⟨0, []⟩, ⟨1000000000000000000, [0x51]⟩]
     nVersion := 1
     nTime := 1800000000
     nLockTime := 0 }]

def inflatingBlock : CBlock :=
  CBlock.assemble sample ((ChainType.regtest.genesis sample).getHash sample)
    1800000000 0x207fffff inflatingTransactions []

def inflatingIndex : CBlockIndex :=
  CBlockIndex.ofHeader sample (ChainType.regtest.genesisChain sample)
    inflatingBlock.toCBlockHeader false

/-- The block on top of the regression-test genesis block. -/
def connectInflatingBlock : Except BlockFailure Connected :=
  connectBlock (Setting.sample .regtest 1800000000 0)
    (inflatingIndex :: ChainType.regtest.genesisChain sample) 0 inflatingView
    ((ChainType.regtest.genesis sample).getHash sample) inflatingBlock false

theorem inflating_evaluated :
    inflatingIndex.hashBlock ≠ (ChainType.regtest.consensus sample).hashGenesisBlock ∧
      connectInflatingBlock.isOk = true := by
  decide +kernel

theorem rooted_inflatingIndex :
    IndexChain.Rooted (ChainType.regtest.consensus sample)
      (inflatingIndex :: ChainType.regtest.genesisChain sample) := by
  refine ⟨⟨rfl, rfl, trivial⟩, fun index pprev hsuffix => ?_⟩
  rcases List.suffix_cons_iff.mp hsuffix with heq | hgenesis
  · obtain ⟨rfl, rfl⟩ := List.cons.inj heq
    exact iff_of_false inflating_evaluated.1 (List.cons_ne_nil _ _)
  · rcases List.suffix_cons_iff.mp hgenesis with heq | hnil
    · obtain ⟨rfl, rfl⟩ := List.cons.inj heq
      exact iff_of_true rfl rfl
    · exact absurd (List.suffix_nil.mp hnil) (List.cons_ne_nil _ _)

theorem exists_connectInflatingBlock :
    ∃ connected, connectInflatingBlock = .ok connected :=
  isOk_iff_exists.mp inflating_evaluated.2

theorem totalValue_le_subsidy_iff_inflatingBlock :
    ∃ connected, connectInflatingBlock = .ok connected ∧
      (connected.view.totalValue ≤ inflatingView.totalValue +
          (getBlockSubsidy 1 (ChainType.regtest.consensus sample) false).toInt ↔
        inflatingView.stakeMintedBy sample 1 inflatingTransactions ≤
          (getBlockSubsidy 1 (ChainType.regtest.consensus sample) false).toInt +
            inflatingView.feesOf sample 1 inflatingTransactions -
            coinbaseOut inflatingBlock + droppedBy inflatingTransactions) := by
  obtain ⟨connected, hconnect⟩ := exists_connectInflatingBlock
  exact ⟨connected, hconnect, (totalValue_le_subsidy_iff
    (Setting.sample .regtest 1800000000 0) inflatingIndex
    (ChainType.regtest.genesisChain sample) 0 inflatingView
    ((ChainType.regtest.genesis sample).getHash sample) inflatingBlock false
    connected rooted_inflatingIndex (by decide) rfl hconnect).2⟩

/-- The accepted block raises the total by almost 10^18 beyond the subsidy. -/
theorem exists_totalValue_gt_subsidy :
    ∃ connected, connectInflatingBlock = .ok connected ∧
      inflatingBlock.isProofOfStake = false ∧ 0 < inflatingIndex.nHeight ∧
      inflatingView.totalValue +
        (getBlockSubsidy 1 (ChainType.regtest.consensus sample) false).toInt <
          connected.view.totalValue := by
  obtain ⟨connected, hconnect⟩ := exists_connectInflatingBlock
  refine ⟨connected, hconnect, rfl, by decide, ?_⟩
  have hgenesis : inflatingIndex.hashBlock ≠
      (Setting.sample .regtest 1800000000 0).params.hashGenesisBlock :=
    rooted_inflatingIndex.hashBlock_ne (by decide)
  obtain ⟨state, hrun⟩ := connectBlock_run hgenesis hconnect
  apply not_le.mp
  intro hle
  have hminted := (hrun.totalValue_le_iff _).mp hle
  revert hminted
  decide +kernel

end Inflation

end FirstIslamicCoin
