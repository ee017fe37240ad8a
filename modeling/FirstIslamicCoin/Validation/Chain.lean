import FirstIslamicCoin.Core.Run
import FirstIslamicCoin.Validation.Ledger

/-!
# Chains of connected blocks

The state of a chain after some blocks (the entries of its block index, the
UTXO set, the best block and the stake modifier) and the relation that adds one
block to it through `ConnectBlock`, which itself begins with `CheckBlock`.  The
node's clock, the height of its active chain and whether it runs scripts may
differ from step to step.
-/

namespace FirstIslamicCoin

open Outcome

structure ChainTip where
  pindex : IndexChain
  view : CoinsView
  bestBlock : UInt256
  nStakeModifier : UInt256

section Genesis

variable (env : External) (network : ChainType)

def ChainType.genesisTx : CTransaction := genesisCoinbase network.premineOutputs

def ChainTip.genesis : ChainTip where
  pindex := network.genesisChain env
  view := CoinsView.applyTx env FiniteMap.empty network.genesisTx 0
  bestBlock := (network.genesis env).getHash env
  nStakeModifier := 0

/-- The hash that `chainparams.cpp` asserts of the main network. -/
example : (ChainType.main.genesis .sample).getHash .sample =
    0xbe7039971885efc3cb375ffb86200ab6964535dcd57c2cf9d8075522657afaeb := by
  decide +kernel

/-- It is what connecting the genesis block to nothing gives. -/
theorem connectGenesis_genesis (setting : Setting) (bestBlock : UInt256)
    (henv : setting.env = env) :
    connectGenesis setting (.ofHeader env [] (network.genesis env).toCBlockHeader false)
        FiniteMap.empty bestBlock (network.genesis env) false =
      .ok ⟨(ChainTip.genesis env network).view, (ChainTip.genesis env network).bestBlock, [],
        (ChainTip.genesis env network).nStakeModifier⟩ := by
  have hnull : ∀ out ∈ network.genesisTx.vout, out.isNull = false := by
    intro out hmem
    rw [List.eq_of_mem_replicate hmem]
    cases network <;> decide
  have hadd : (CoinsView.addCoins env FiniteMap.empty network.genesisTx 0 :
      Except BlockFailure CoinsView) = .ok (ChainTip.genesis env network).view :=
    CoinsView.addCoins_of_isCoinBase rfl hnull
  change (do
    let updated ← CoinsView.addCoins setting.env FiniteMap.empty network.genesisTx 0
    _) = _
  rw [henv, hadd]
  rfl

/-- What every premine output of a network becomes. -/
def ChainType.premineCoin : Coin :=
  network.genesisTx.coinOf 0
    ⟨Int64.ofInt (network.fields.nPremineTotal.toInt / 1000), network.premineScript⟩

theorem lookup_genesis_premine {n : ℕ} (hn : n < 1000) :
    (ChainTip.genesis env network).view.lookup
      ⟨network.genesisTx.getHash env, UInt32.ofNat n⟩ = some network.premineCoin := by
  have hspendable : network.premineScript.isUnspendable = false := by
    cases network <;> decide
  have hout : network.genesisTx.vout[n]? =
      some ⟨Int64.ofInt (network.fields.nPremineTotal.toInt / 1000),
        network.premineScript⟩ := by
    change (List.replicate 1000 _)[n]? = _
    rw [List.getElem?_replicate, if_pos hn]
    rfl
  have hlength : network.genesisTx.vout.length ≤ 2 ^ 32 := by
    change (List.replicate 1000 _).length ≤ 2 ^ 32
    rw [List.length_replicate]
    decide
  exact FiniteMap.lookup_insertAll_of_mem (CTransaction.nodup_newCoins hlength)
    (CTransaction.mem_newCoins 0 hout hspendable)

theorem lookup_genesis_eq_none {outpoint : COutPoint}
    (hhash : outpoint.hash ≠ network.genesisTx.getHash env) :
    (ChainTip.genesis env network).view.lookup outpoint = none := by
  by_contra hsome
  obtain ⟨coin, hlookup⟩ := Option.ne_none_iff_exists'.mp hsome
  rcases CoinsView.lookup_applyTx_cases hlookup with hbefore | hnew
  · simp at hbefore
  · obtain ⟨out, position, _, _, heq⟩ := CTransaction.exists_of_mem_newCoins hnew
    obtain ⟨rfl, _⟩ := Prod.mk.inj heq
    exact hhash rfl

theorem haveCoin_genesis {tx : CTransaction}
    (hhash : tx.getHash env ≠ network.genesisTx.getHash env) (position : ℕ) :
    (ChainTip.genesis env network).view.haveCoin (tx.outPoint env position) = false :=
  CoinsView.haveCoin_eq_false.mpr (lookup_genesis_eq_none env network hhash)

theorem totalValue_genesis :
    (ChainTip.genesis env network).view.totalValue =
      (network.consensus env).nPremineTotal.toInt := by
  have hfresh : ∀ entry ∈ network.genesisTx.newCoins env 0,
      (FiniteMap.empty : CoinsView).lookup entry.1 = none := fun _ _ => rfl
  have hlength : network.genesisTx.vout.length ≤ 2 ^ 32 := by
    change (List.replicate 1000 _).length ≤ 2 ^ 32
    rw [List.length_replicate]
    decide
  have hspendable : network.premineScript.isUnspendable = false := by
    cases network <;> decide
  have hvalue : network.fields.nPremineTotal = 1400000000000000000 := by
    cases network <;> rfl
  have hout : network.genesisTx.spendableOut = 1400000000000000000 := by
    rw [CTransaction.spendableOut]
    change (((List.replicate 1000 _).filter _).map _).sum = _
    rw [List.filter_replicate, hspendable, hvalue]
    simp only [Bool.not_false, if_true, List.map_replicate, List.sum_replicate, CTxOut.value]
    decide
  change FiniteMap.total Coin.value
    (FiniteMap.insertAll FiniteMap.empty (network.genesisTx.newCoins env 0)) = _
  rw [FiniteMap.total_insertAll Coin.value (CTransaction.nodup_newCoins hlength) hfresh,
    CTransaction.sum_newCoins, FiniteMap.total_empty, hout]
  change _ = network.fields.nPremineTotal.toInt
  rw [hvalue]
  decide

end Genesis

/-- A setting in which a node of a network may validate. -/
structure Setting.InNetwork (setting : Setting) (env : External)
    (network : ChainType) (mode : Overflow) : Prop where
  env_eq : setting.env = env
  params_eq : setting.params = network.consensus env
  mode_eq : setting.mode = mode

/-- One block connected on top of a chain.  The block index holds the genesis
block already, so no other entry has its hash. -/
inductive Connects (env : External) (network : ChainType) (mode : Overflow) :
    ChainTip → CBlock → ChainTip → Prop
  | intro {tip : ChainTip} {block : CBlock} (setting : Setting)
      (index : CBlockIndex) (connected : Connected)
      (hsetting : setting.InNetwork env network mode)
      (hindex : ∃ fSetAsProofOfStake, index = CBlockIndex.ofHeader env tip.pindex
        block.toCBlockHeader fSetAsProofOfStake)
      (hgenesis : index.hashBlock ≠ (network.consensus env).hashGenesisBlock)
      (hconnect : connectBlock setting (index :: tip.pindex) tip.nStakeModifier
        tip.view tip.bestBlock block false = .ok connected) :
      Connects env network mode tip block
        { pindex := index :: tip.pindex
          view := connected.view
          bestBlock := connected.bestBlock
          nStakeModifier := connected.nStakeModifier }

end FirstIslamicCoin
