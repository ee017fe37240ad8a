import FirstIslamicCoin.Consensus.TxVerify

/-!
# Maturity of coinbase and coinstake outputs

A coinbase or coinstake output should not be spent before `nCoinbaseMaturity`
blocks are on top of it.  `CheckTxInputs` enforces this for transactions dated
after protocol version 3.1; for any other transaction the depth it demands is
zero.  The date is the transaction's own, so the law holds for exactly the
transactions whose date is late enough.
-/

namespace FirstIslamicCoin

variable {params : Params} {mode : Overflow} {now : ℤ} {tx : CTransaction}

/-- Every accepted spend of a coinbase or coinstake output created above the
genesis block is at least `nCoinbaseMaturity` deep. -/
def MaturityLaw (params : Params) (mode : Overflow) (now : ℤ)
    (tx : CTransaction) : Prop :=
  ∀ (view : CoinsView) (nSpendHeight : ℤ) (txfee fee : CAmount),
    checkTxInputs params mode now tx view nSpendHeight txfee = .ok fee →
      ∀ outpoint ∈ tx.prevouts, ∀ coin, view.lookup outpoint = some coin →
        (coin.fCoinBase = true ∨ coin.fCoinStake = true) → 0 < coin.height →
          params.nCoinbaseMaturity ≤ nSpendHeight - coin.height

theorem maturityLaw_of_isProtocolV3_1 (hswitch : params.isProtocolV3_1 (nTimeTx now tx) = true) :
    MaturityLaw params mode now tx := by
  intro view nSpendHeight txfee fee hrun outpoint hmem coin hlookup hkind hheight
  obtain ⟨hcoins, _⟩ := checkTxInputs_eq_ok.mp hrun
  obtain ⟨found, hfound, hspend⟩ := hcoins outpoint hmem
  obtain rfl : found = coin := by
    simpa [hlookup] using hfound.symm
  have hdeep := hspend.mature hkind (by omega)
  simpa only [requiredDepth, hswitch, if_true] using hdeep

section Shallow

def shallowCoin (nValue : ℤ) : Coin where
  out := ⟨Int64.ofInt nValue, []⟩
  fCoinBase := true
  fCoinStake := false
  nHeight := 1
  nTime := 0

/-- A view in which the first of some outpoints carries a value and all others
nothing. -/
def shallowView (nValue : ℤ) : List COutPoint → CoinsView
  | [] => FiniteMap.empty
  | outpoint :: outpoints =>
      (outpoints.foldr (fun other view => view.insert other (shallowCoin 0))
        FiniteMap.empty).insert outpoint (shallowCoin nValue)

theorem lookup_zeroView {outpoints : List COutPoint} {outpoint : COutPoint}
    (hmem : outpoint ∈ outpoints) :
    (outpoints.foldr (fun other view => FiniteMap.insert view other (shallowCoin 0))
      (FiniteMap.empty : CoinsView)).lookup outpoint = some (shallowCoin 0) := by
  induction outpoints with
  | nil => simp at hmem
  | cons other outpoints ih =>
    rw [List.foldr_cons, FiniteMap.lookup_insert]
    split_ifs with heq
    · rfl
    · exact ih ((List.mem_cons.mp hmem).resolve_left heq)

theorem height_shallowCoin (nValue : ℤ) : (shallowCoin nValue).height = 1 := rfl

theorem value_shallowCoin {nValue : ℤ} (hrange : Overflow.InRange nValue) :
    (shallowCoin nValue).value = nValue :=
  Overflow.toInt_ofInt hrange

theorem weights_zeroView {outpoint : COutPoint} {outpoints : List COutPoint}
    {nValue : ℤ} (hrange : Overflow.InRange nValue) (hnodup : (outpoint :: outpoints).Nodup) :
    ((outpoint :: outpoints).map (FiniteMap.weightAt Coin.value
      (shallowView nValue (outpoint :: outpoints)))).sum = nValue := by
  have hnotMem := (List.nodup_cons.mp hnodup).1
  have hzero : ∀ other ∈ outpoints, FiniteMap.weightAt Coin.value
      (shallowView nValue (outpoint :: outpoints)) other = 0 := by
    intro other hmem
    have hne : other ≠ outpoint := fun heq => hnotMem (heq ▸ hmem)
    rw [FiniteMap.weightAt, shallowView, FiniteMap.lookup_insert_of_ne _ _ hne,
      lookup_zeroView hmem]
    rfl
  rw [List.map_cons, List.sum_cons, List.map_congr_left hzero]
  simp [FiniteMap.weightAt, shallowView, value_shallowCoin hrange]

/-- A transaction dated before version 3.1 may spend coinbase outputs of the
block at whose height it is checked. -/
theorem checkTxInputs_shallowView (mode : Overflow) (hchecked : CheckedTransaction tx)
    (hnow : 0 ≤ now) (hswitch : params.isProtocolV3_1 (nTimeTx now tx) = false) :
    ∃ fee, checkTxInputs params mode now tx
      (shallowView tx.totalOut tx.prevouts) 1 0 = .ok fee := by
  have houtNonneg := CTransaction.totalOut_nonneg hchecked.value_nonneg
  have hrange : Overflow.InRange tx.totalOut := ⟨by omega, hchecked.totalOut_lt⟩
  have htime : 0 ≤ nTimeTx now tx := by
    rw [nTimeTx]
    split_ifs <;> omega
  have hspend : ∀ nValue, 0 ≤ nValue → Overflow.InRange nValue →
      MaySpend params 1 (nTimeTx now tx) (shallowCoin nValue) := by
    intro nValue hnonneg hfits
    refine ⟨?_, htime, by rw [value_shallowCoin hfits]; exact hnonneg⟩
    intro _ _
    simp [requiredDepth, hswitch, Params.valueInitialised, Coin.height, shallowCoin]
  have hvalueIn : (shallowView tx.totalOut tx.prevouts).valueIn tx = tx.totalOut := by
    have hnodup := hchecked.nodup_prevouts
    rw [CoinsView.valueIn]
    cases hprevouts : tx.prevouts with
    | nil => exact absurd (List.map_eq_nil_iff.mp hprevouts) hchecked.vin_ne_nil
    | cons outpoint outpoints =>
      rw [hprevouts] at hnodup
      exact weights_zeroView hrange hnodup
  refine ⟨0, checkTxInputs_eq_ok.mpr ⟨?_, ?_, fun _ => rfl, ?_⟩⟩
  · intro outpoint hmem
    cases hprevouts : tx.prevouts with
    | nil => simp [hprevouts] at hmem
    | cons first outpoints =>
      rw [shallowView, FiniteMap.lookup_insert]
      split_ifs with heq
      · exact ⟨_, rfl, hspend _ houtNonneg hrange⟩
      · rw [hprevouts] at hmem
        have htail := (List.mem_cons.mp hmem).resolve_left heq
        exact ⟨_, lookup_zeroView htail, hspend 0 le_rfl (by decide)⟩
  · rw [hvalueIn]
    exact hchecked.totalOut_lt
  · intro _
    refine ⟨hchecked.value_nonneg, by rw [hvalueIn], by rw [hvalueIn]; simp, ?_⟩
    intro hon
    rw [hswitch] at hon
    exact Bool.noConfusion hon

end Shallow

theorem nCoinbaseMaturity_pos (env : External) (network : ChainType) :
    1 < (network.consensus env).nCoinbaseMaturity := by
  change 1 < network.fields.nCoinbaseMaturity
  cases network <;> decide

theorem maturityLaw_iff_isProtocolV3_1 (env : External) (network : ChainType)
    (mode : Overflow) (now : ℤ) (tx : CTransaction) (hnow : 0 ≤ now) :
    ((network.consensus env).isProtocolV3_1 (nTimeTx now tx) = true →
      MaturityLaw (network.consensus env) mode now tx) ∧
    (checkTransaction mode tx = .ok () →
      (MaturityLaw (network.consensus env) mode now tx ↔
        (network.consensus env).isProtocolV3_1 (nTimeTx now tx) = true)) := by
  refine ⟨maturityLaw_of_isProtocolV3_1, fun hcheck => ?_⟩
  refine ⟨fun hlaw => ?_, maturityLaw_of_isProtocolV3_1⟩
  have hchecked := checkTransaction_eq_ok hcheck
  by_contra hnot
  rw [Bool.not_eq_true] at hnot
  obtain ⟨fee, hrun⟩ := checkTxInputs_shallowView mode hchecked hnow hnot
  cases hprevouts : tx.prevouts with
  | nil => exact hchecked.vin_ne_nil (List.map_eq_nil_iff.mp hprevouts)
  | cons outpoint outpoints =>
      have hdeep := hlaw _ _ _ _ hrun outpoint (by simp [hprevouts])
        (shallowCoin tx.totalOut) (by simp [hprevouts, shallowView]) (.inl rfl)
        (by rw [height_shallowCoin]; decide)
      have hmaturity := nCoinbaseMaturity_pos env network
      rw [height_shallowCoin] at hdeep
      omega

def backdatedSpend : CTransaction where
  vin := [⟨⟨7, 0⟩, [], 0xffffffff, []⟩]
  vout := [⟨5, [0x51]⟩]
  nVersion := 1
  nTime := 1
  nLockTime := 0

theorem maturityLaw_iff_isProtocolV3_1_backdatedSpend :
    checkTransaction .wrap backdatedSpend = .ok () ∧
      (MaturityLaw (ChainType.main.consensus External.sample) .wrap 1800000000
          backdatedSpend ↔
        (ChainType.main.consensus External.sample).isProtocolV3_1
          (nTimeTx 1800000000 backdatedSpend) = true) := by
  have hcheck : checkTransaction .wrap backdatedSpend = .ok () := by decide
  exact ⟨hcheck, (maturityLaw_iff_isProtocolV3_1 External.sample .main .wrap
    1800000000 backdatedSpend (by decide)).2 hcheck⟩

/-- On the main network it spends a coinbase output of block 1 in block 2. -/
theorem not_maturityLaw_backdatedSpend :
    ¬ MaturityLaw (ChainType.main.consensus External.sample) .wrap 1800000000
      backdatedSpend := by
  intro hlaw
  have hrun : checkTxInputs (ChainType.main.consensus External.sample) .wrap
      1800000000 backdatedSpend
      (FiniteMap.empty.insert ⟨7, 0⟩ (shallowCoin 5)) 2 0 = .ok 0 := by
    rfl
  have hdeep := hlaw _ _ _ _ hrun ⟨7, 0⟩ (by simp [CTransaction.prevouts,
    backdatedSpend]) (shallowCoin 5) (by simp) (.inl rfl) (by decide)
  exact absurd hdeep (by decide)

end FirstIslamicCoin
