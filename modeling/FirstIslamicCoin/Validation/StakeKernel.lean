import FirstIslamicCoin.Chain.ArithUInt256
import FirstIslamicCoin.Core.Run
import FirstIslamicCoin.Validation.ConnectBlock

/-!
# The stake kernel

`CheckStakeKernelHash` with the arithmetic of `arith_uint256`, and that it accepts
a kernel exactly up to the product of target and value over the integers.  The
functions with which a staker looks for a kernel, with and without its cache, are
compared with the validator's `CheckProofOfStake`.
-/

namespace FirstIslamicCoin

open Outcome

section Threshold

/-- The number that a compact target stands for, without a bound on its size. -/
def compactTarget (nCompact : UInt32) : ℕ :=
  let nSize := nCompact.toNat / 2 ^ 24
  let nWord := nCompact.toNat % 2 ^ 23
  if nSize ≤ 3 then nWord / 2 ^ (8 * (3 - nSize)) else nWord * 2 ^ (8 * (nSize - 3))

/-- The weighted target in limbs.  The division throws for weight zero. -/
def ArithUInt256.weightedTarget (nBits : UInt32) (prevoutValue : CAmount) :
    Option ArithUInt256 := do
  let bnTarget := setCompact nBits
  let bnWeight := ofUInt64 prevoutValue.toUInt64
  let bnMaxTarget := (ofUInt64 0).complement
  let bound ← bnMaxTarget.div bnWeight
  if bnTarget.compareTo bound = .gt then some bnMaxTarget else some (bnTarget.mul bnWeight)

/-- `CheckStakeKernelHash` with the arithmetic of `arith_uint256`. -/
def ArithUInt256.checkStakeKernelHash (env : External) (nStakeModifier : UInt256)
    (nBits blockFromTime : UInt32) (prevoutValue : CAmount) (prevout : COutPoint)
    (nTimeTx : UInt32) : Option Bool :=
  if nTimeTx < blockFromTime then some false
  else if prevoutValue = 0 then some false
  else do
    let bnTarget ← weightedTarget nBits prevoutValue
    let hashProofOfStake := stakeKernelHash env nStakeModifier blockFromTime prevout nTimeTx
    some ((ofUInt256 hashProofOfStake).compareTo bnTarget != .gt)

/-- A word below a power of 256 stays below 2^256 when it is shifted by the bytes
that are left. -/
theorem shifted_lt {nWord nSize : ℕ} (bytes : ℕ) (hword : nWord < 2 ^ (8 * bytes))
    (hsize : bytes + (nSize - 3) ≤ 32) : nWord * 2 ^ (8 * (nSize - 3)) < 2 ^ 256 :=
  calc nWord * 2 ^ (8 * (nSize - 3))
      < 2 ^ (8 * bytes) * 2 ^ (8 * (nSize - 3)) :=
        Nat.mul_lt_mul_of_pos_right hword (Nat.two_pow_pos _)
    _ = 2 ^ (8 * (bytes + (nSize - 3))) := by rw [← pow_add, Nat.mul_add]
    _ ≤ 2 ^ 256 := Nat.pow_le_pow_right (by omega) (by omega)

/-- Without the overflow flag a compact target fits 256 bits. -/
theorem compactTarget_lt {nCompact : UInt32}
    (hfits : (setCompact nCompact).fOverflow = false) : compactTarget nCompact < 2 ^ 256 := by
  have hword : nCompact.toNat % 2 ^ 23 < 2 ^ 23 := Nat.mod_lt _ (by decide)
  simp only [setCompact, Bool.and_eq_false_iff, bne_eq_false_iff_eq, Bool.or_eq_false_iff,
    decide_eq_false_iff_not, not_lt] at hfits
  simp only [compactTarget]
  generalize nCompact.toNat / 2 ^ 24 = nSize at *
  generalize nCompact.toNat % 2 ^ 23 = nWord at *
  by_cases hshort : nSize ≤ 3
  · rw [if_pos hshort]
    exact (Nat.div_le_self _ _).trans_lt (hword.trans (by decide))
  rw [if_neg hshort] at hfits ⊢
  rcases hfits with hzero | ⟨⟨hlargest, htwo⟩, hthree⟩
  · rw [hzero, Nat.zero_mul]
    decide
  -- The three bounds of the flag are those of one, two and three bytes.
  rcases Nat.lt_or_ge 33 nSize with hone | hnext
  · exact shifted_lt 1 (by omega) (by omega)
  rcases Nat.lt_or_ge 32 nSize with htwo | hlast
  · exact shifted_lt 2 (by omega) (by omega)
  · exact shifted_lt 3 (by omega) (by omega)

theorem target_eq_compactTarget {nCompact : UInt32}
    (hfits : (setCompact nCompact).fOverflow = false) :
    (setCompact nCompact).target = compactTarget nCompact := by
  have hlt := compactTarget_lt hfits
  simp only [compactTarget, setCompact] at hlt ⊢
  split_ifs at hlt ⊢ with hshort
  · rfl
  · exact Nat.mod_eq_of_lt hlt

/-- The limbs compute the weighted target without losing a bit. -/
theorem ArithUInt256.exists_weightedTarget (nBits : UInt32) {prevoutValue : CAmount}
    (hvalue : prevoutValue ≠ 0) :
    ∃ bnTarget, ArithUInt256.weightedTarget nBits prevoutValue = some bnTarget ∧
      bnTarget.toNat = FirstIslamicCoin.weightedTarget nBits prevoutValue := by
  have hweight : 0 < prevoutValue.toUInt64.toNat := by
    apply Nat.pos_of_ne_zero
    intro hzero
    have hword : prevoutValue.toUInt64 = 0 := UInt64.toNat_inj.mp hzero
    exact hvalue (by rw [← Int64.toInt64_toUInt64 prevoutValue, hword]; rfl)
  obtain ⟨bound, hbound, hquotient⟩ := exists_div (ofUInt64 0).complement
    (hweight.trans_eq (toNat_ofUInt64 _).symm)
  have hmax : (ofUInt64 0).complement.toNat = 2 ^ 256 - 1 := by
    rw [toNat_complement, toNat_ofUInt64]
    rfl
  simp only [ArithUInt256.weightedTarget, hbound, Option.bind_eq_bind, Option.bind_some,
    compareTo_eq, Nat.compare_eq_gt, hquotient, toNat_setCompact, hmax, toNat_ofUInt64,
    FirstIslamicCoin.weightedTarget]
  split_ifs with hsaturated
  · exact ⟨_, rfl, hmax⟩
  · refine ⟨_, rfl, ?_⟩
    rw [not_lt, Nat.le_div_iff_mul_le hweight] at hsaturated
    rw [toNat_mul, toNat_setCompact, toNat_ofUInt64]
    exact Nat.mod_eq_of_lt (hsaturated.trans_lt (by decide))

/-- `CheckStakeKernelHash` never throws, and computes on limbs what it computes on
numbers. -/
theorem ArithUInt256.checkStakeKernelHash_eq (env : External) (nStakeModifier : UInt256)
    (nBits blockFromTime : UInt32) (prevoutValue : CAmount) (prevout : COutPoint)
    (nTimeTx : UInt32) :
    ArithUInt256.checkStakeKernelHash env nStakeModifier nBits blockFromTime prevoutValue
        prevout nTimeTx =
      some (FirstIslamicCoin.checkStakeKernelHash env nStakeModifier nBits blockFromTime
        prevoutValue prevout nTimeTx) := by
  rw [ArithUInt256.checkStakeKernelHash, FirstIslamicCoin.checkStakeKernelHash]
  by_cases htime : nTimeTx < blockFromTime
  · have hnot : ¬ blockFromTime ≤ nTimeTx := UInt32.not_le.mpr htime
    rw [if_pos htime, decide_eq_false hnot]
    rfl
  by_cases hvalue : prevoutValue = 0
  · rw [if_neg htime, if_pos hvalue, hvalue]
    simp
  obtain ⟨bnTarget, htarget, hnat⟩ := exists_weightedTarget nBits hvalue
  have hle : blockFromTime ≤ nTimeTx := UInt32.not_lt.mp htime
  simp only [if_neg htime, if_neg hvalue, htarget, Option.bind_eq_bind, Option.bind_some,
    compareTo_eq, toNat_ofUInt256, hnat, hle, decide_true, Bool.true_and, bne,
    beq_eq_false_iff_ne.mpr hvalue, Bool.not_false, Option.some.injEq]
  exact Bool.eq_iff_iff.mpr (by simp [Nat.compare_ne_gt])

/-- A positive amount is its own unsigned word. -/
theorem toNat_toUInt64_of_pos {nValue : CAmount} (hpos : 0 < nValue) :
    0 < nValue.toInt ∧ nValue.toUInt64.toNat = nValue.toInt.toNat := by
  have htoInt : 0 < nValue.toInt := Int64.lt_iff_toInt_lt.mp hpos
  refine ⟨htoInt, ?_⟩
  have hcond := BitVec.toInt_eq_toNat_cond nValue.toBitVec
  rw [← Int64.toInt] at hcond
  have hlt := nValue.toBitVec.isLt
  change nValue.toBitVec.toNat = _
  split_ifs at hcond <;> omega

/-- Saturating before the product reaches 2^256 is the minimum of the two. -/
theorem weightedTarget_eq_min {nBits : UInt32} {prevoutValue : CAmount}
    (hfits : (setCompact nBits).fOverflow = false) (hpos : 0 < prevoutValue) :
    weightedTarget nBits prevoutValue =
      min (2 ^ 256 - 1) (compactTarget nBits * prevoutValue.toInt.toNat) := by
  obtain ⟨hvalue, hweight⟩ := toNat_toUInt64_of_pos hpos
  have hpositive : 0 < prevoutValue.toInt.toNat := by omega
  simp only [weightedTarget, target_eq_compactTarget hfits, hweight]
  split_ifs with hsaturated
  · rw [Nat.div_lt_iff_lt_mul hpositive] at hsaturated
    exact (min_eq_left hsaturated.le).symm
  · rw [not_lt, Nat.le_div_iff_mul_le hpositive] at hsaturated
    exact (min_eq_right hsaturated).symm

/-- The stake kernel threshold: with a target that decodes without a flag and a
positive value, `CheckStakeKernelHash` accepts exactly when the stake is not before
the coin and the kernel hash is at most the product of target and value, cut off at
2^256 - 1.  So a larger value is accepted where a smaller one is, and the time of the
coin matters through the hash only. -/
theorem checkStakeKernelHash_eq_decide (env : External) (nStakeModifier : UInt256)
    (nBits blockFromTime : UInt32) (prevoutValue : CAmount) (prevout : COutPoint)
    (nTimeTx : UInt32) (hfits : (setCompact nBits).fOverflow = false) (hpos : 0 < prevoutValue) :
    let check := fun (coinTime : UInt32) (value : CAmount) =>
      ArithUInt256.checkStakeKernelHash env nStakeModifier nBits coinTime value prevout
        nTimeTx
    let hashProofOfStake := fun coinTime : UInt32 =>
      stakeKernelHash env nStakeModifier coinTime prevout nTimeTx
    check blockFromTime prevoutValue = some (decide (blockFromTime ≤ nTimeTx ∧
        (hashProofOfStake blockFromTime).toNat ≤
          min (2 ^ 256 - 1) (compactTarget nBits * prevoutValue.toInt.toNat))) ∧
      (∀ larger, prevoutValue ≤ larger → check blockFromTime prevoutValue = some true →
        check blockFromTime larger = some true) ∧
      ∀ otherTime, blockFromTime ≤ nTimeTx → otherTime ≤ nTimeTx →
        hashProofOfStake otherTime = hashProofOfStake blockFromTime →
          check otherTime prevoutValue = check blockFromTime prevoutValue := by
  intro check hashProofOfStake
  have hcheck : ∀ coinTime value, 0 < value → check coinTime value =
      some (decide (coinTime ≤ nTimeTx ∧ (hashProofOfStake coinTime).toNat ≤
        min (2 ^ 256 - 1) (compactTarget nBits * value.toInt.toNat))) := by
    intro coinTime value hvalue
    have hne : value ≠ 0 := fun heq => by rw [heq] at hvalue; exact absurd hvalue (by decide)
    simp only [check, ArithUInt256.checkStakeKernelHash_eq, checkStakeKernelHash,
      weightedTarget_eq_min hfits hvalue, bne, beq_eq_false_iff_ne.mpr hne, Bool.not_false,
      Bool.and_true, Bool.decide_and, hashProofOfStake]
  refine ⟨hcheck _ _ hpos, ?_, ?_⟩
  · intro larger hle haccept
    have hlarger : 0 < larger := Int64.lt_of_lt_of_le hpos hle
    have hvalues : prevoutValue.toInt.toNat ≤ larger.toInt.toNat :=
      Int.toNat_le_toNat (Int64.le_iff_toInt_le.mp hle)
    rw [hcheck _ _ hpos, Option.some.injEq, decide_eq_true_eq] at haccept
    rw [hcheck _ _ hlarger, Option.some.injEq, decide_eq_true_eq]
    exact ⟨haccept.1, haccept.2.trans
      (min_le_min_left _ (Nat.mul_le_mul_left _ hvalues))⟩
  · intro otherTime htime hother hsame
    rw [hcheck _ _ hpos, hcheck _ _ hpos, hsame]
    simp only [htime, hother, true_and]

/-- A premine output at an easy target, whose product exceeds 2^256. -/
theorem checkStakeKernelHash_premine :
    let nBits : UInt32 := 0x1b00cde1
    (setCompact nBits).fOverflow = false ∧
      2 ^ 256 - 1 < compactTarget nBits * (1400000000000000 : CAmount).toInt.toNat ∧
      ArithUInt256.checkStakeKernelHash External.sample 0 nBits 1789171200 1400000000000000
        ⟨7, 0⟩ 1789171216 = some true := by
  intro nBits
  have hthreshold := (checkStakeKernelHash_eq_decide External.sample 0 nBits 1789171200
    1400000000000000 ⟨7, 0⟩ 1789171216 (by decide) (by decide)).1
  refine ⟨by decide, by decide, hthreshold.trans ?_⟩
  decide +kernel

end Threshold

section Staker

structure CStakeCache where
  blockFromTime : UInt32
  amount : CAmount
  deriving DecidableEq, Repr

abbrev StakeCache := FiniteMap COutPoint CStakeCache

variable (setting : Setting) (pindexPrev : IndexChain) (prevModifier : UInt256)
  (nBits nTime : UInt32) (prevout : COutPoint) (view : CoinsView)

/-- `CheckKernel` for a prevout that is not in the cache. -/
def StakeCache.checkKernelMiss : Bool :=
  match view.lookup prevout with
  | none => false
  | some coinPrev =>
      isStakeMature coinPrev.height (pindexPrev.height + 1) setting.params &&
        match pindexPrev.getAncestor coinPrev.height with
        | [] => false
        | blockFrom :: _ => !coinPrev.out.isNull &&
            checkStakeKernelHash setting.env prevModifier nBits
              (coinPrev.stakeTime blockFrom) coinPrev.out.nValue prevout nTime

/-- `CheckKernel` with a cache.  A hit that passes is checked again without cache;
without cache it is called with an empty one. -/
def StakeCache.checkKernel (cache : StakeCache) : Bool :=
  match cache.lookup prevout with
  | none => checkKernelMiss setting pindexPrev prevModifier nBits nTime prevout view
  | some stake =>
      checkStakeKernelHash setting.env prevModifier nBits stake.blockFromTime stake.amount
          prevout nTime &&
        checkKernelMiss setting pindexPrev prevModifier nBits nTime prevout view

def StakeCache.cacheKernel (cache : StakeCache) : StakeCache :=
  match cache.lookup prevout, view.lookup prevout with
  | none, some coinPrev =>
      if isStakeMature coinPrev.height (pindexPrev.height + 1) setting.params then
        match pindexPrev.getAncestor coinPrev.height with
        | [] => cache
        | blockFrom :: _ =>
            cache.insert prevout ⟨coinPrev.stakeTime blockFrom, coinPrev.out.nValue⟩
      else cache
  | _, _ => cache

/-- The depth filter of `AvailableCoinsForStaking` for an output confirmed at a height,
when the last block has another. -/
def admitsDepth (params : Params) (lastBlockHeight confirmedHeight : ℤ)
    (inMempool : Bool) : Bool :=
  let nDepth := lastBlockHeight - confirmedHeight + 1
  let minDepth := max 0 params.nCoinbaseMaturity
  let maxDepth := 9999999
  decide (0 ≤ nDepth) && (nDepth != 0 || inMempool) &&
    !(decide (nDepth < minDepth) && confirmedHeight != 0 || decide (maxDepth < nDepth))

/-- One more entry, cached from a view at an ancestor of a tip or at the tip. -/
def StakeCache.Caches (cache : StakeCache) (label : COutPoint × IndexChain)
    (next : StakeCache) : Prop :=
  label.2 <:+ pindexPrev ∧ next = cache.cacheKernel setting label.2 label.1 view

end Staker

section Agreement

variable {setting : Setting} {pindexPrev : IndexChain} {prevModifier : UInt256}
  {nBits nTime : UInt32} {prevout : COutPoint} {view : CoinsView}

/-- An entry comes from a coin that was mature below some ancestor of the tip. -/
def CStakeCache.FromView (setting : Setting) (pindexPrev : IndexChain) (view : CoinsView)
    (prevout : COutPoint) (stake : CStakeCache) : Prop :=
  ∃ (tip : IndexChain) (coinPrev : Coin) (blockFrom : CBlockIndex) (rest : IndexChain),
    tip <:+ pindexPrev ∧ view.lookup prevout = some coinPrev ∧
    isStakeMature coinPrev.height (tip.height + 1) setting.params = true ∧
    tip.getAncestor coinPrev.height = blockFrom :: rest ∧
    stake = ⟨coinPrev.stakeTime blockFrom, coinPrev.out.nValue⟩

variable {cache : StakeCache}

/-- What one call of `CacheKernel` can add. -/
theorem StakeCache.lookup_cacheKernel {tip : IndexChain} {added : COutPoint} {stake : CStakeCache}
    (htip : tip <:+ pindexPrev)
    (hlookup : (cache.cacheKernel setting tip added view).lookup prevout = some stake) :
    cache.lookup prevout = some stake ∨
      stake.FromView setting pindexPrev view prevout := by
  rw [StakeCache.cacheKernel] at hlookup
  split at hlookup
  next coinPrev hmiss hcoin =>
    split_ifs at hlookup with hmature
    · split at hlookup
      · exact .inl hlookup
      next blockFrom rest hancestor =>
        rw [FiniteMap.lookup_insert] at hlookup
        split_ifs at hlookup with hkey
        · subst hkey
          exact .inr ⟨tip, coinPrev, blockFrom, rest, htip, hcoin, hmature, hancestor,
            (Option.some.inj hlookup).symm⟩
        · exact .inl hlookup
    · exact .inl hlookup
  · exact .inl hlookup

/-- Every entry of a cache that only `CacheKernel` filled comes from the view. -/
theorem StakeCache.fromView_of_run {labels : List (COutPoint × IndexChain)}
    (hrun : Run (StakeCache.Caches setting pindexPrev view) FiniteMap.empty labels cache) :
    ∀ prevout stake, cache.lookup prevout = some stake →
      stake.FromView setting pindexPrev view prevout := by
  refine hrun.invariant (fun _ reached => ∀ prevout stake,
    reached.lookup prevout = some stake → stake.FromView setting pindexPrev view prevout)
    ?_ ?_
  · intro prevout stake hlookup
    simp at hlookup
  · rintro labels reached ⟨added, tip⟩ next hreached ⟨htip, rfl⟩ prevout stake hlookup
    rcases lookup_cacheKernel htip hlookup with hbefore | hadded
    · exact hreached prevout stake hbefore
    · exact hadded

theorem isStakeMature_mono {params : Params} {nCoinHeight lower higher : ℤ}
    (hle : lower ≤ higher) (hmature : isStakeMature nCoinHeight lower params = true) :
    isStakeMature nCoinHeight higher params = true := by
  simp only [isStakeMature, Bool.or_eq_true, beq_iff_eq, decide_eq_true_eq] at hmature ⊢
  omega

/-- Below an entry of the cache, the uncached check comes down to the same hash. -/
theorem CStakeCache.FromView.checkKernelMiss_eq {stake : CStakeCache}
    (hstake : stake.FromView setting pindexPrev view prevout) (hnumbered : pindexPrev.Numbered) :
    StakeCache.checkKernelMiss setting pindexPrev prevModifier nBits nTime prevout view =
      (((view.lookup prevout).any fun coinPrev => !coinPrev.out.isNull) &&
        checkStakeKernelHash setting.env prevModifier nBits stake.blockFromTime stake.amount
          prevout nTime) := by
  obtain ⟨tip, coinPrev, blockFrom, rest, htip, hcoin, hmature, hancestor, rfl⟩ := hstake
  have hlater := isStakeMature_mono
    (Int.add_le_add_right (hnumbered.height_le_of_suffix htip) 1) hmature
  rw [StakeCache.checkKernelMiss, hcoin]
  simp only [hlater, hnumbered.getAncestor_of_suffix htip hancestor, Bool.true_and, Option.any_some]

/-- What an uncached kernel check that passes says about the validator: existence,
maturity and hash are settled, and only the signature is left. -/
theorem checkProofOfStake_of_checkKernelMiss {tx : CTransaction}
    (hkernel : StakeCache.checkKernelMiss setting pindexPrev prevModifier nBits nTime
      prevout view = true)
    (hstake : tx.isCoinStake = true) (hprevout : tx.prevouts.head? = some prevout) :
    ∃ coinPrev, view.lookup prevout = some coinPrev ∧
      checkProofOfStake setting pindexPrev prevModifier tx nBits view nTime =
        require (setting.env.verifyScript tx 0 ⟨0, coinPrev.out.scriptPubKey⟩ false 0 [])
          (.invalid .blockInvalidHeader "stake-verify-signature-failed") := by
  rw [StakeCache.checkKernelMiss] at hkernel
  split at hkernel
  · simp at hkernel
  next coinPrev hcoin =>
    rw [Bool.and_eq_true] at hkernel
    obtain ⟨hmature, hkernel⟩ := hkernel
    split at hkernel
    · simp at hkernel
    next blockFrom rest hancestor =>
      rw [Bool.and_eq_true] at hkernel
      obtain ⟨-, hhash⟩ := hkernel
      obtain ⟨others, hinputs⟩ := List.head?_eq_some_iff.mp hprevout
      refine ⟨coinPrev, hcoin, ?_⟩
      simp only [checkProofOfStake, hstake, hinputs, checkKernel, hcoin, hmature, hancestor,
        checkKernelCoin, hhash, Bool.not_true, Bool.false_eq_true, if_false]
      cases setting.env.verifyScript tx 0 ⟨0, coinPrev.out.scriptPubKey⟩ false 0 [] <;> rfl

theorem checkKernel_imp_checkKernelMiss
    (hkernel : cache.checkKernel setting pindexPrev prevModifier nBits nTime prevout view = true) :
    StakeCache.checkKernelMiss setting pindexPrev prevModifier nBits nTime prevout view = true := by
  rw [StakeCache.checkKernel] at hkernel
  split at hkernel
  · exact hkernel
  · exact (Bool.and_eq_true_iff.mp hkernel).2

/-- With entries from the same view a cache changes nothing. -/
theorem checkKernel_eq_of_fromView (hnumbered : pindexPrev.Numbered)
    (hcache : ∀ stake, cache.lookup prevout = some stake →
      stake.FromView setting pindexPrev view prevout) :
    cache.checkKernel setting pindexPrev prevModifier nBits nTime prevout view =
      StakeCache.checkKernelMiss setting pindexPrev prevModifier nBits nTime prevout view := by
  rw [StakeCache.checkKernel]
  split
  · rfl
  next stake hhit =>
    rw [(hcache stake hhit).checkKernelMiss_eq hnumbered, Bool.and_left_comm, Bool.and_self]

/-- The depth filter is the maturity rule of the next block, up to its upper bound. -/
theorem admitsDepth_iff {params : Params} {lastBlockHeight confirmedHeight : ℤ}
    (inMempool : Bool) (hle : confirmedHeight ≤ lastBlockHeight) :
    admitsDepth params lastBlockHeight confirmedHeight inMempool = true ↔
      isStakeMature confirmedHeight (lastBlockHeight + 1) params = true ∧
        lastBlockHeight - confirmedHeight + 1 ≤ 9999999 := by
  have hdepth : lastBlockHeight - confirmedHeight + 1 ≠ 0 := by omega
  simp only [admitsDepth, isStakeMature, Bool.and_eq_true, Bool.or_eq_true, bne_iff_ne,
    beq_iff_eq, decide_eq_true_eq, Bool.not_eq_true', Bool.or_eq_false_iff,
    Bool.and_eq_false_iff, bne_eq_false_iff_eq, decide_eq_false_iff_not, ne_eq, hdepth,
    not_false_eq_true, true_or, and_true, not_lt]
  omega

end Agreement

theorem staker_agrees_with_validator (setting : Setting) (pindexPrev : IndexChain)
    (prevModifier : UInt256) (nBits nTime : UInt32) (prevout : COutPoint) (view : CoinsView) :
    let check := fun cache : StakeCache =>
      cache.checkKernel setting pindexPrev prevModifier nBits nTime prevout view
    (∀ cache, check cache = true → check FiniteMap.empty = true) ∧
    (check FiniteMap.empty = true → ∀ tx : CTransaction, tx.isCoinStake = true →
      tx.prevouts.head? = some prevout →
      ∃ coinPrev, view.lookup prevout = some coinPrev ∧
        checkProofOfStake setting pindexPrev prevModifier tx nBits view nTime =
          require (setting.env.verifyScript tx 0 ⟨0, coinPrev.out.scriptPubKey⟩ false 0 [])
            (.invalid .blockInvalidHeader "stake-verify-signature-failed")) ∧
    (pindexPrev.Numbered → ∀ labels cache,
      Run (StakeCache.Caches setting pindexPrev view) FiniteMap.empty labels cache →
        check cache = check FiniteMap.empty) ∧
    ∀ (confirmedHeight : ℤ) (inMempool : Bool), confirmedHeight ≤ pindexPrev.height →
      (admitsDepth setting.params pindexPrev.height confirmedHeight inMempool = true ↔
        isStakeMature confirmedHeight (pindexPrev.height + 1) setting.params = true ∧
          pindexPrev.height - confirmedHeight + 1 ≤ 9999999) := by
  intro check
  refine ⟨fun _ => checkKernel_imp_checkKernelMiss, ?_, ?_, ?_⟩
  · intro hkernel tx hstake hprevout
    exact checkProofOfStake_of_checkKernelMiss hkernel hstake hprevout
  · intro hnumbered labels cache hrun
    exact checkKernel_eq_of_fromView hnumbered
      (StakeCache.fromView_of_run hrun prevout)
  · intro confirmedHeight inMempool hle
    exact admitsDepth_iff inMempool hle

section Sample

def genesisSetting : Setting := Setting.sample .main 1789171216 0

def premineView : CoinsView :=
  FiniteMap.empty.insert ⟨7, 0⟩ ⟨⟨1400000000000000, [0x51]⟩, true, false, 0, 0⟩

def premineStake : CTransaction where
  vin := [⟨⟨7, 0⟩, [], 0, []⟩]
  vout := [⟨0, []⟩, ⟨1400001000000000, [0x51]⟩]
  nVersion := 2
  nTime := 0
  nLockTime := 0

/-- The cache after the output was cached at genesis finds the kernel that the
validator accepts, and the wallet admits the output. -/
theorem staker_agrees_with_validator_premine :
    let chain := ChainType.main.genesisChain External.sample
    let cache := StakeCache.cacheKernel genesisSetting chain ⟨7, 0⟩ premineView
      FiniteMap.empty
    cache.checkKernel genesisSetting chain 0 0x1b00cde1 1789171216 ⟨7, 0⟩ premineView =
        true ∧
      checkProofOfStake genesisSetting chain 0 premineStake 0x1b00cde1 premineView
        1789171216 = .ok () ∧
      admitsDepth genesisSetting.params chain.height 0 false = true := by
  intro chain cache
  obtain ⟨-, hvalidator, hcache, hdepth⟩ := staker_agrees_with_validator genesisSetting chain
    0 0x1b00cde1 1789171216 ⟨7, 0⟩ premineView
  have hmiss : StakeCache.checkKernel genesisSetting chain 0 0x1b00cde1 1789171216 ⟨7, 0⟩
      premineView FiniteMap.empty = true := by decide +kernel
  have hrun : Run (StakeCache.Caches genesisSetting chain premineView) FiniteMap.empty
      ([] ++ [(⟨7, 0⟩, chain)]) cache := .snoc .nil ⟨List.suffix_refl _, rfl⟩
  refine ⟨(hcache ⟨rfl, trivial⟩ _ cache hrun).trans hmiss, ?_, ?_⟩
  · obtain ⟨coinPrev, -, heq⟩ := hvalidator hmiss premineStake (by decide) rfl
    exact heq
  · exact (hdepth 0 false (le_refl 0)).mpr ⟨by decide, by decide⟩

/-- Past the upper bound a premine output is mature but no longer admitted. -/
theorem admitsDepth_of_deep_premine :
    isStakeMature 0 (9999999 + 1) (ChainType.main.consensus External.sample) = true ∧
      admitsDepth (ChainType.main.consensus External.sample) 9999999 0 false = false := by
  decide

end Sample

end FirstIslamicCoin
