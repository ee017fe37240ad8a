import FirstIslamicCoin.Chain.Pow
import FirstIslamicCoin.Core.Run

/-!
# Retargeting stays in range

A compact target keeps the leading bytes of a number, so encoding and decoding
never enlarges it and never loses it altogether.  From this, along a chain whose
entries carry the bits that `GetNextTargetRequired` asks for and whose times
increase, every target stays between one and the limit of its kind, and nothing
that `CalculateNextTargetRequired` computes on the way is cut off.
-/

namespace FirstIslamicCoin

section Compact

/-- A number of bytes that suffices for a number and is not one too many. -/
theorem byteSize_bounds {value : ℕ} (hpos : 0 < value) :
    0 < (value.size + 7) / 8 ∧ value < 2 ^ (8 * ((value.size + 7) / 8)) ∧
      2 ^ (8 * ((value.size + 7) / 8 - 1)) ≤ value := by
  have hsize : 0 < value.size := Nat.size_pos.mpr hpos
  refine ⟨by omega, ?_, ?_⟩
  · exact (Nat.lt_size_self value).trans_le (Nat.pow_le_pow_right (by omega) (by omega))
  · exact Nat.lt_size.mp (by omega)

/-- A mantissa with its exponent in the high byte, without the sign bit. -/
theorem setCompact_ofNat {mantissa exponent : ℕ} (hmantissa : mantissa < 2 ^ 23)
    (hexponent : exponent < 256) :
    setCompact (UInt32.ofNat (mantissa + exponent * 2 ^ 24)) =
      let nWord := if exponent ≤ 3 then mantissa / 2 ^ (8 * (3 - exponent)) else mantissa
      { target := if exponent ≤ 3 then nWord
          else nWord * 2 ^ (8 * (exponent - 3)) % 2 ^ 256
        fNegative := false
        fOverflow := nWord != 0 && (decide (34 < exponent) ||
          decide (0xff < nWord) && decide (33 < exponent) ||
          decide (0xffff < nWord) && decide (32 < exponent)) } := by
  have hword : (UInt32.ofNat (mantissa + exponent * 2 ^ 24)).toNat =
      mantissa + exponent * 2 ^ 24 := by
    rw [UInt32.toNat_ofNat']
    exact Nat.mod_eq_of_lt (by omega)
  have hsize : (mantissa + exponent * 2 ^ 24) / 2 ^ 24 = exponent := by omega
  have hlow : (mantissa + exponent * 2 ^ 24) % 2 ^ 23 = mantissa := by omega
  have hsign : UInt32.ofNat (mantissa + exponent * 2 ^ 24) &&& 0x00800000 = 0 := by
    apply UInt32.toNat_inj.mp
    have hbit : (mantissa + exponent * 2 ^ 24).testBit 23 = false := by
      rw [Nat.testBit_eq_decide_div_mod_eq, decide_eq_false_iff_not]
      omega
    rw [UInt32.toNat_and, hword]
    change (mantissa + exponent * 2 ^ 24) &&& 2 ^ 23 = 0
    rw [Nat.and_two_pow, hbit]
    rfl
  simp only [setCompact, hword, hsize, hlow, hsign, bne_self_eq_false, Bool.and_false]

/-- The three leading bytes of a number of `nSize` bytes. -/
theorem leadingBytes_bounds {value nSize : ℕ} (hnSize : 0 < nSize)
    (hupper : value < 2 ^ (8 * nSize)) (hlower : 2 ^ (8 * (nSize - 1)) ≤ value) :
    let leading := if nSize ≤ 3 then value * 2 ^ (8 * (3 - nSize)) % 2 ^ 32
      else value / 2 ^ (8 * (nSize - 3)) % 2 ^ 32
    leading < 2 ^ 24 ∧ 2 ^ 16 ≤ leading ∧ leading * 2 ^ (8 * nSize) ≤ value * 2 ^ 24 := by
  intro leading
  by_cases hshort : nSize ≤ 3
  · have hscale : 2 ^ (8 * nSize) * 2 ^ (8 * (3 - nSize)) = 2 ^ 24 := by
      rw [← pow_add]
      congr 1
      omega
    have hscaleLow : 2 ^ (8 * (nSize - 1)) * 2 ^ (8 * (3 - nSize)) = 2 ^ 16 := by
      rw [← pow_add]
      congr 1
      omega
    have hlt : value * 2 ^ (8 * (3 - nSize)) < 2 ^ 24 := by
      rw [← hscale]
      exact Nat.mul_lt_mul_of_pos_right hupper (Nat.two_pow_pos _)
    have hle : 2 ^ 16 ≤ value * 2 ^ (8 * (3 - nSize)) := by
      rw [← hscaleLow]
      exact Nat.mul_le_mul_right _ hlower
    have hleading : leading = value * 2 ^ (8 * (3 - nSize)) := by
      rw [show leading = value * 2 ^ (8 * (3 - nSize)) % 2 ^ 32 from if_pos hshort]
      exact Nat.mod_eq_of_lt (hlt.trans (by decide))
    rw [hleading]
    refine ⟨hlt, hle, le_of_eq ?_⟩
    rw [mul_assoc, mul_comm (2 ^ (8 * (3 - nSize))), hscale]
  · have hscale : 2 ^ 24 * 2 ^ (8 * (nSize - 3)) = 2 ^ (8 * nSize) := by
      rw [← pow_add]
      congr 1
      omega
    have hscaleLow : 2 ^ 16 * 2 ^ (8 * (nSize - 3)) = 2 ^ (8 * (nSize - 1)) := by
      rw [← pow_add]
      congr 1
      omega
    have hlt : value / 2 ^ (8 * (nSize - 3)) < 2 ^ 24 := by
      rw [Nat.div_lt_iff_lt_mul (Nat.two_pow_pos _), hscale]
      exact hupper
    have hle : 2 ^ 16 ≤ value / 2 ^ (8 * (nSize - 3)) := by
      rw [Nat.le_div_iff_mul_le (Nat.two_pow_pos _), hscaleLow]
      exact hlower
    have hleading : leading = value / 2 ^ (8 * (nSize - 3)) := by
      rw [show leading = value / 2 ^ (8 * (nSize - 3)) % 2 ^ 32 from if_neg hshort]
      exact Nat.mod_eq_of_lt (hlt.trans (by decide))
    rw [hleading]
    refine ⟨hlt, hle, ?_⟩
    rw [← hscale, mul_comm (2 ^ 24), ← mul_assoc]
    exact Nat.mul_le_mul_right _ (Nat.div_mul_le_self value _)

/-- `GetCompact` keeps the leading bytes: the mantissa and exponent it picks stand
for a positive number that is at most the encoded one. -/
theorem getCompact_eq {value : ℕ} (hpos : 0 < value) (hlt : value < 2 ^ 256) :
    ∃ mantissa exponent, getCompact value = UInt32.ofNat (mantissa + exponent * 2 ^ 24) ∧
      mantissa < 2 ^ 23 ∧ exponent ≤ 33 ∧ (exponent = 33 → mantissa < 2 ^ 16) ∧
      2 ^ (8 * (3 - exponent)) ≤ mantissa ∧
      mantissa * 2 ^ (8 * exponent) ≤ value * 2 ^ 24 := by
  obtain ⟨hnSize, hupper, hlower⟩ := byteSize_bounds hpos
  have hbytes : (value.size + 7) / 8 ≤ 32 := by
    have hle : value.size ≤ 256 := Nat.size_le.mpr hlt
    omega
  obtain ⟨hbelow, habove, hscaled⟩ := leadingBytes_bounds hnSize hupper hlower
  simp only [getCompact]
  generalize (value.size + 7) / 8 = nSize at *
  generalize (if nSize ≤ 3 then value * 2 ^ (8 * (3 - nSize)) % 2 ^ 32
    else value / 2 ^ (8 * (nSize - 3)) % 2 ^ 32) = leading at *
  split_ifs with hsign
  · -- The sign bit is set, so the last of the three bytes is given up.
    refine ⟨leading / 256, nSize + 1, rfl, by omega, by omega, fun _ => by omega, ?_, ?_⟩
    · calc 2 ^ (8 * (3 - (nSize + 1))) ≤ 2 ^ 8 := Nat.pow_le_pow_right (by omega) (by omega)
        _ ≤ leading / 256 := by omega
    · calc leading / 256 * 2 ^ (8 * (nSize + 1)) = leading / 256 * 256 * 2 ^ (8 * nSize) := by ring
        _ ≤ leading * 2 ^ (8 * nSize) := Nat.mul_le_mul_right _ (Nat.div_mul_le_self leading 256)
        _ ≤ value * 2 ^ 24 := hscaled
  · refine ⟨leading, nSize, rfl, by omega, by omega, by omega, ?_, hscaled⟩
    calc 2 ^ (8 * (3 - nSize)) ≤ 2 ^ 16 := Nat.pow_le_pow_right (by omega) (by omega)
      _ ≤ leading := habove

/-- Encoding a positive number of 256 bits and decoding it again raises no flag and
gives a positive number that is not larger. -/
theorem setCompact_getCompact {value : ℕ} (hpos : 0 < value) (hlt : value < 2 ^ 256) :
    (setCompact (getCompact value)).fNegative = false ∧
      (setCompact (getCompact value)).fOverflow = false ∧
      0 < (setCompact (getCompact value)).target ∧
      (setCompact (getCompact value)).target ≤ value := by
  obtain ⟨mantissa, exponent, heq, hmantissa, hexponent, hlast, hleast, hscaled⟩ :=
    getCompact_eq hpos hlt
  rw [heq, setCompact_ofNat hmantissa (by omega)]
  by_cases hshort : exponent ≤ 3
  · have hsplit : value * 2 ^ 24 = value * 2 ^ (8 * (3 - exponent)) * 2 ^ (8 * exponent) := by
      rw [mul_assoc, ← pow_add]
      congr 2
      omega
    have hle : mantissa ≤ value * 2 ^ (8 * (3 - exponent)) := by
      rw [hsplit] at hscaled
      exact Nat.le_of_mul_le_mul_right hscaled (Nat.two_pow_pos _)
    have hsmall : ¬ 34 < exponent ∧ ¬ 33 < exponent ∧ ¬ 32 < exponent := by omega
    simp only [hshort, if_true, hsmall, decide_false, Bool.and_false, Bool.or_false, true_and]
    exact ⟨Nat.div_pos hleast (Nat.two_pow_pos _),
      Nat.div_le_of_le_mul (by rwa [mul_comm])⟩
  · have hsplit : mantissa * 2 ^ (8 * exponent) = mantissa * 2 ^ (8 * (exponent - 3)) * 2 ^ 24 := by
      rw [mul_assoc, ← pow_add]
      congr 2
      omega
    have hle : mantissa * 2 ^ (8 * (exponent - 3)) ≤ value := by
      rw [hsplit] at hscaled
      exact Nat.le_of_mul_le_mul_right hscaled (Nat.two_pow_pos _)
    have hmod : mantissa * 2 ^ (8 * (exponent - 3)) % 2 ^ 256 =
        mantissa * 2 ^ (8 * (exponent - 3)) := Nat.mod_eq_of_lt (hle.trans_lt hlt)
    have hfits : ¬ (0xffff < mantissa ∧ 32 < exponent) := by omega
    have hsmall : ¬ 34 < exponent ∧ ¬ 33 < exponent := by omega
    simp only [hshort, if_false, hmod, hsmall, decide_false, Bool.and_false,
      Bool.or_false, Bool.false_or, true_and]
    refine ⟨?_, Nat.mul_pos ((Nat.two_pow_pos _).trans_le hleast) (Nat.two_pow_pos _), hle⟩
    rw [← Bool.decide_and, decide_eq_false hfits, Bool.and_false]

end Compact

section Walk

/-- Walking back to a block of a kind stays in the chain. -/
theorem IndexChain.getLastBlockIndex_suffix (fProofOfStake : Bool) (chain : IndexChain) :
    chain.getLastBlockIndex fProofOfStake <:+ chain := by
  fun_induction IndexChain.getLastBlockIndex fProofOfStake chain with
  | case1 | case2 | case3 => exact List.suffix_refl _
  | case4 index parent rest hkind ih => exact ih.trans (List.suffix_cons _ _)

/-- It ends at such a block unless it reaches genesis. -/
theorem IndexChain.isProofOfStake_of_getLastBlockIndex {fProofOfStake : Bool}
    {chain rest : IndexChain} {index parent : CBlockIndex}
    (hlast : chain.getLastBlockIndex fProofOfStake = index :: parent :: rest) :
    index.isProofOfStake = fProofOfStake := by
  fun_induction IndexChain.getLastBlockIndex fProofOfStake chain with
  | case1 | case2 => simp at hlast
  | case3 entry next others hkind =>
    obtain ⟨rfl, -⟩ := List.cons.inj hlast
    exact hkind
  | case4 entry next others hkind ih => exact ih hlast

/-- Of the last two blocks of a kind the earlier one has the smaller time. -/
theorem IndexChain.getBlockTime_lt_of_getLastBlockIndex {fProofOfStake : Bool}
    {chain rest : IndexChain} {pindexPrev parent pindexPrevPrev : CBlockIndex}
    (hincreasing : chain.Pairwise fun later earlier =>
      earlier.getBlockTime < later.getBlockTime)
    (hprev : chain.getLastBlockIndex fProofOfStake = pindexPrev :: parent :: rest)
    (hprevPrev : (IndexChain.getLastBlockIndex fProofOfStake (parent :: rest)).head? =
      some pindexPrevPrev) :
    pindexPrevPrev.getBlockTime < pindexPrev.getBlockTime := by
  have hsuffix : pindexPrev :: parent :: rest <:+ chain :=
    hprev ▸ getLastBlockIndex_suffix fProofOfStake chain
  have hmem : pindexPrevPrev ∈ parent :: rest :=
    (getLastBlockIndex_suffix fProofOfStake _).subset (List.mem_of_head? hprevPrev)
  exact (List.pairwise_cons.mp (hincreasing.sublist hsuffix.sublist)).1 _ hmem

end Walk

section Rule

/-- The times from which on a network is past the switches that retargeting reads. -/
structure Params.Switched (params : Params) (nTime : ℤ) : Prop where
  retargetingFixed : params.isProtocolV1RetargetingFixed nTime = true
  protocolV2 : params.isProtocolV2 nTime = true
  protocolV3 : params.isProtocolV3 nTime = true

def Params.kindLimit (params : Params) (fProofOfStake : Bool) : ℕ :=
  if fProofOfStake then params.posLimitV2.toNat else params.powLimit.toNat

/-- The parameters by which main and test network retarget. -/
structure Params.Retargeting (params : Params) : Prop where
  chainType_ne : params.chainType ≠ .regtest
  fPowNoRetargeting : params.fPowNoRetargeting = false
  fPoSNoRetargeting : params.fPoSNoRetargeting = false
  nTargetSpacing : params.nTargetSpacing = 64
  nTargetTimespan : params.nTargetTimespan = 960
  switched : ∀ nTime, (genesisTime.toNat : ℤ) ≤ nTime → params.Switched nTime
  kindLimit_pos : ∀ fProofOfStake, 0 < params.kindLimit fProofOfStake
  kindLimit_lt : ∀ fProofOfStake, params.kindLimit fProofOfStake < 2 ^ 240

theorem retargeting_of_network (env : External) {network : ChainType}
    (hnetwork : network = .main ∨ network = .testnet) : (network.consensus env).Retargeting := by
  have htimes : network.fields.nProtocolV1RetargetingFixedTime = 1395631999 ∧
      network.fields.nProtocolV2Time = 1407053625 ∧
      network.fields.nProtocolV3Time = 1444028400 := by
    rcases hnetwork with rfl | rfl <;> exact ⟨rfl, rfl, rfl⟩
  obtain ⟨hfixed, hV2, hV3⟩ := htimes
  constructor
  case switched =>
    intro nTime hle
    have hlate : (1789171200 : ℤ) ≤ nTime := hle
    exact ⟨Params.isAfterSwitch_of_lt (hfixed.trans_lt (by omega)) (by omega),
      Params.isAfterSwitch_of_lt (hV2.trans_lt (by omega)) (by omega),
      Params.isAfterSwitch_of_lt (hV3.trans_lt (by omega)) (by omega)⟩
  case kindLimit_pos =>
    intro fProofOfStake
    change 0 < network.fields.kindLimit fProofOfStake
    rcases hnetwork with rfl | rfl <;> cases fProofOfStake <;> decide_cbv
  case kindLimit_lt =>
    intro fProofOfStake
    change network.fields.kindLimit fProofOfStake < 2 ^ 240
    rcases hnetwork with rfl | rfl <;> cases fProofOfStake <;> decide_cbv
  case chainType_ne =>
    change network.fields.chainType ≠ .regtest
    rcases hnetwork with rfl | rfl <;> decide
  all_goals rcases hnetwork with rfl | rfl <;> rfl

variable {params : Params} {pindexLast : CBlockIndex} {nFirstBlockTime : ℤ}
  {fProofOfStake : Bool}

theorem getTargetLimit_of_switched {nTime : ℤ} (hswitched : params.Switched nTime)
    (fProofOfStake : Bool) :
    getTargetLimit nTime params fProofOfStake = params.kindLimit fProofOfStake := by
  rw [getTargetLimit, hswitched.protocolV2, Params.kindLimit]
  rfl

section

variable (hparams : params.Retargeting) (hswitched : params.Switched pindexLast.getBlockTime)
  (hlater : nFirstBlockTime < pindexLast.getBlockTime)

include hparams hswitched hlater

/-- Between two increasing times the spacing is capped at ten times the target
spacing and is used as it is below. -/
theorem retargetFactor_bounds :
    896 < retargetFactor params pindexLast nFirstBlockTime ∧
      retargetFactor params pindexLast nFirstBlockTime ≤ 2176 := by
  have hspacing : 0 < retargetSpacing params pindexLast nFirstBlockTime ∧
      retargetSpacing params pindexLast nFirstBlockTime ≤ 640 := by
    simp only [retargetSpacing, Params.spacingAt, hswitched.protocolV2, hswitched.protocolV3,
      hswitched.retargetingFixed, hparams.nTargetSpacing, true_and, if_true]
    have hpositive : ¬ pindexLast.getBlockTime - nFirstBlockTime < 0 := by omega
    rw [if_neg hpositive]
    split_ifs with hcap <;> omega
  have hinterval : (960 : ℤ).tdiv 64 = 15 := by decide
  simp only [retargetFactor, Params.spacingAt, hswitched.protocolV2, if_true, hparams.nTargetSpacing,
    hparams.nTargetTimespan, hinterval]
  omega

/-- The product keeps below 2^256. -/
theorem retargetProduct_le (htarget : (setCompact pindexLast.nBits).target < 2 ^ 240) :
    (setCompact pindexLast.nBits).target *
      (retargetFactor params pindexLast nFirstBlockTime).toNat ≤ 2 ^ 256 - 1 := by
  obtain ⟨hlow, hhigh⟩ := retargetFactor_bounds hparams hswitched hlater
  calc (setCompact pindexLast.nBits).target *
        (retargetFactor params pindexLast nFirstBlockTime).toNat
      ≤ 2 ^ 240 * 2176 := Nat.mul_le_mul htarget.le (by omega)
    _ ≤ 2 ^ 256 - 1 := by decide

/-- What `CalculateNextTargetRequired` does, as nothing it computes is cut off. -/
theorem calculateNextTargetRequired_eq (htarget : (setCompact pindexLast.nBits).target < 2 ^ 240) :
    calculateNextTargetRequired pindexLast nFirstBlockTime params fProofOfStake =
      let bnNew := (setCompact pindexLast.nBits).target *
        (retargetFactor params pindexLast nFirstBlockTime).toNat / 1024
      if bnNew = 0 ∨ params.kindLimit fProofOfStake < bnNew then
        getCompact (params.kindLimit fProofOfStake)
      else getCompact bnNew := by
  obtain ⟨hlow, hhigh⟩ := retargetFactor_bounds hparams hswitched hlater
  have hproduct := retargetProduct_le hparams hswitched hlater htarget
  have hretarget : (if fProofOfStake then params.fPoSNoRetargeting
      else params.fPowNoRetargeting) = false := by
    rw [hparams.fPoSNoRetargeting, hparams.fPowNoRetargeting, ite_self]
  have hnarrow : (retargetFactor params pindexLast nFirstBlockTime) % 2 ^ 32 =
      retargetFactor params pindexLast nFirstBlockTime :=
    Int.emod_eq_of_lt (by omega) (by omega)
  have hdivisor : (((960 : ℤ).tdiv 64 + 1) * 64 % 2 ^ 64).toNat = 1024 := by decide
  have hunfold : calculateNextTargetRequired pindexLast nFirstBlockTime params fProofOfStake =
        let bnNew := (setCompact pindexLast.nBits).target *
          (retargetFactor params pindexLast nFirstBlockTime % 2 ^ 32).toNat % 2 ^ 256 /
            (((960 : ℤ).tdiv 64 + 1) * 64 % 2 ^ 64).toNat
        if bnNew = 0 ∨ params.kindLimit fProofOfStake < bnNew then
          getCompact (params.kindLimit fProofOfStake)
        else getCompact bnNew := by
    simp only [calculateNextTargetRequired, hretarget, Bool.false_eq_true, if_false,
      getTargetLimit_of_switched hswitched, Params.spacingAt,
      hswitched.protocolV2, if_true, hparams.nTargetSpacing, hparams.nTargetTimespan]
  rw [hunfold, hnarrow, hdivisor, Nat.mod_eq_of_lt (by omega)]

end

end Rule

section Chain

/-- An entry on top of a chain, later than its parent and with the bits that its
kind asks for. -/
structure Retargets (params : Params) (pindexLast : IndexChain) (index : CBlockIndex)
    (pindex : IndexChain) : Prop where
  pindex_eq : pindex = index :: pindexLast
  nBits_eq : index.nBits = getNextTargetRequired pindexLast params index.isProofOfStake
  later : ∀ parent ∈ pindexLast.head?, parent.getBlockTime < index.getBlockTime

/-- The bits of an entry are in range, and nothing was cut off to get them. -/
structure TargetInRange (params : Params) (index : CBlockIndex)
    (pindexLast : IndexChain) : Prop where
  fNegative : (setCompact index.nBits).fNegative = false
  fOverflow : (setCompact index.nBits).fOverflow = false
  target_pos : 0 < (setCompact index.nBits).target
  target_le : (setCompact index.nBits).target ≤ params.kindLimit index.isProofOfStake
  computed : ∀ pindexPrev parent rest pindexPrevPrev,
    pindexLast.getLastBlockIndex index.isProofOfStake = pindexPrev :: parent :: rest →
    (IndexChain.getLastBlockIndex index.isProofOfStake (parent :: rest)).head? =
      some pindexPrevPrev →
    let factor := retargetFactor params pindexPrev pindexPrevPrev.getBlockTime
    0 ≤ factor ∧ factor < 2 ^ 32 ∧
      (setCompact pindexPrev.nBits).target * factor.toNat ≤ 2 ^ 256 - 1
  step : index.nBits = getCompact (params.kindLimit index.isProofOfStake) ∨
    ∃ pindexPrev ∈ (pindexLast.getLastBlockIndex index.isProofOfStake).head?,
      pindexPrev.isProofOfStake = index.isProofOfStake ∧
      16 * (setCompact index.nBits).target ≤ 34 * (setCompact pindexPrev.nBits).target

/-- What holds of a chain of such entries on top of genesis. -/
structure RetargetInvariant (params : Params) (chain : IndexChain) : Prop where
  ne_nil : chain ≠ []
  dated : ∀ index ∈ chain, (genesisTime.toNat : ℤ) ≤ index.getBlockTime
  increasing : chain.Pairwise fun later earlier =>
    earlier.getBlockTime < later.getBlockTime
  inRange : ∀ index rest, index :: rest <:+ chain → rest ≠ [] →
    TargetInRange params index rest

variable {params : Params} {chain : IndexChain}

/-- The two blocks `CalculateNextTargetRequired` compares. -/
theorem RetargetInvariant.compared (hchain : RetargetInvariant params chain)
    {fProofOfStake : Bool} {pindexPrev parent pindexPrevPrev : CBlockIndex} {rest : IndexChain}
    (hprev : chain.getLastBlockIndex fProofOfStake = pindexPrev :: parent :: rest)
    (hprevPrev : (IndexChain.getLastBlockIndex fProofOfStake (parent :: rest)).head? =
      some pindexPrevPrev) :
    pindexPrev.isProofOfStake = fProofOfStake ∧
      (genesisTime.toNat : ℤ) ≤ pindexPrev.getBlockTime ∧
      pindexPrevPrev.getBlockTime < pindexPrev.getBlockTime ∧
      TargetInRange params pindexPrev (parent :: rest) := by
  have hsuffix : pindexPrev :: parent :: rest <:+ chain :=
    hprev ▸ IndexChain.getLastBlockIndex_suffix fProofOfStake chain
  exact ⟨IndexChain.isProofOfStake_of_getLastBlockIndex hprev,
    hchain.dated _ (hsuffix.subset List.mem_cons_self),
    IndexChain.getBlockTime_lt_of_getLastBlockIndex hchain.increasing hprev hprevPrev,
    hchain.inRange _ _ hsuffix (List.cons_ne_nil _ _)⟩

/-- The bits an entry must carry are the limit of its kind or what
`CalculateNextTargetRequired` makes of the last two blocks of this kind. -/
theorem getNextTargetRequired_cases (hparams : params.Retargeting)
    (hchain : RetargetInvariant params chain) (fProofOfStake : Bool) :
    getNextTargetRequired chain params fProofOfStake = getCompact (params.kindLimit fProofOfStake) ∨
      ∃ pindexPrev parent rest pindexPrevPrev,
        chain.getLastBlockIndex fProofOfStake = pindexPrev :: parent :: rest ∧
        (IndexChain.getLastBlockIndex fProofOfStake (parent :: rest)).head? = some pindexPrevPrev ∧
        getNextTargetRequired chain params fProofOfStake =
          calculateNextTargetRequired pindexPrev pindexPrevPrev.getBlockTime params
            fProofOfStake := by
  cases chain with
  | nil => exact absurd rfl hchain.ne_nil
  | cons last others =>
    have hlimit := getTargetLimit_of_switched
      (hparams.switched _ (hchain.dated last List.mem_cons_self)) fProofOfStake
    simp only [getNextTargetRequired, hlimit, hparams.chainType_ne, if_false]
    split
    next pindexPrev parent rest hprev =>
      split
      next pindexPrevPrev grand tail hprevPrev =>
        exact .inr ⟨pindexPrev, parent, rest, pindexPrevPrev, hprev,
          congrArg List.head? hprevPrev, rfl⟩
      · exact .inl rfl
    · exact .inl rfl

/-- The limit of a kind is in range itself. -/
theorem setCompact_kindLimit (hparams : params.Retargeting) (fProofOfStake : Bool) :
    let compact := setCompact (getCompact (params.kindLimit fProofOfStake))
    compact.fNegative = false ∧ compact.fOverflow = false ∧ 0 < compact.target ∧
      compact.target ≤ params.kindLimit fProofOfStake :=
  setCompact_getCompact (hparams.kindLimit_pos fProofOfStake)
    ((hparams.kindLimit_lt fProofOfStake).trans (by decide))

/-- The entry that is added is in range if all before it are. -/
theorem Retargets.inRange (hparams : params.Retargeting)
    (hchain : RetargetInvariant params chain) {index : CBlockIndex} {next : IndexChain}
    (hstep : Retargets params chain index next) : TargetInRange params index chain := by
  have hcomputed : ∀ pindexPrev parent rest pindexPrevPrev,
      chain.getLastBlockIndex index.isProofOfStake = pindexPrev :: parent :: rest →
      (IndexChain.getLastBlockIndex index.isProofOfStake (parent :: rest)).head? =
        some pindexPrevPrev →
      let factor := retargetFactor params pindexPrev pindexPrevPrev.getBlockTime
      0 ≤ factor ∧ factor < 2 ^ 32 ∧
        (setCompact pindexPrev.nBits).target * factor.toNat ≤ 2 ^ 256 - 1 := by
    intro pindexPrev parent rest pindexPrevPrev hprev hprevPrev
    obtain ⟨-, hdated, hlater, hrange⟩ := hchain.compared hprev hprevPrev
    have hswitched := hparams.switched _ hdated
    obtain ⟨hlow, hhigh⟩ := retargetFactor_bounds hparams hswitched hlater
    exact ⟨by omega, by omega, retargetProduct_le hparams hswitched hlater
      (hrange.target_le.trans_lt (hparams.kindLimit_lt _))⟩
  obtain ⟨hnegative, hoverflow, hpositive, hle⟩ := setCompact_kindLimit hparams index.isProofOfStake
  rcases getNextTargetRequired_cases hparams hchain index.isProofOfStake with
    hreset | ⟨pindexPrev, parent, rest, pindexPrevPrev, hprev, hprevPrev, hcalculate⟩
  · have hnBits := hstep.nBits_eq.trans hreset
    rw [← hnBits] at hnegative hoverflow hpositive hle
    exact ⟨hnegative, hoverflow, hpositive, hle, hcomputed, .inl hnBits⟩
  obtain ⟨hkind, hdated, hlater, hrange⟩ := hchain.compared hprev hprevPrev
  have hswitched := hparams.switched _ hdated
  have hnBits := hstep.nBits_eq.trans (hcalculate.trans
    (calculateNextTargetRequired_eq hparams hswitched hlater
      (hrange.target_le.trans_lt (hparams.kindLimit_lt _))))
  obtain ⟨-, hhigh⟩ := retargetFactor_bounds hparams hswitched hlater
  have hproduct : (setCompact pindexPrev.nBits).target *
      (retargetFactor params pindexPrev pindexPrevPrev.getBlockTime).toNat ≤
        (setCompact pindexPrev.nBits).target * 2176 :=
    Nat.mul_le_mul_left _ (by omega)
  generalize (setCompact pindexPrev.nBits).target *
    (retargetFactor params pindexPrev pindexPrevPrev.getBlockTime).toNat = product at *
  dsimp only at hnBits
  split_ifs at hnBits with hlimit
  · rw [← hnBits] at hnegative hoverflow hpositive hle
    exact ⟨hnegative, hoverflow, hpositive, hle, hcomputed, .inl hnBits⟩
  · push Not at hlimit
    have hsmall : product / 1024 < 2 ^ 256 :=
      hlimit.2.trans_lt ((hparams.kindLimit_lt _).trans (by decide))
    obtain ⟨hnegative, hoverflow, hpositive, hle⟩ :=
      setCompact_getCompact (Nat.pos_of_ne_zero hlimit.1) hsmall
    rw [← hnBits] at hnegative hoverflow hpositive hle
    refine ⟨hnegative, hoverflow, hpositive, hle.trans hlimit.2, hcomputed,
      .inr ⟨pindexPrev, ?_, hkind, by omega⟩⟩
    rw [hprev]
    rfl

theorem RetargetInvariant.genesis (env : External) (network : ChainType)
    (params : Params) : RetargetInvariant params (network.genesisChain env) := by
  refine ⟨List.cons_ne_nil _ _, ?_, List.pairwise_singleton _ _, ?_⟩
  · intro index hmem
    rw [List.mem_singleton.mp hmem]
    exact le_refl _
  · intro index rest hsuffix hrest
    have hlength : rest.length + 1 ≤ 1 := hsuffix.length_le
    exact absurd (List.eq_nil_of_length_eq_zero (by omega)) hrest

/-- One step keeps the invariant. -/
theorem RetargetInvariant.step (hparams : params.Retargeting)
    (hchain : RetargetInvariant params chain) {index : CBlockIndex} {next : IndexChain}
    (hstep : Retargets params chain index next) : RetargetInvariant params next := by
  have hrange := hstep.inRange hparams hchain
  rw [hstep.pindex_eq]
  have hlater : ∀ earlier ∈ chain, earlier.getBlockTime < index.getBlockTime := by
    cases chain with
    | nil => exact List.forall_mem_nil _
    | cons parent rest =>
      have hparent := hstep.later parent rfl
      refine List.forall_mem_cons.mpr ⟨hparent, fun earlier hmem => ?_⟩
      exact ((List.pairwise_cons.mp hchain.increasing).1 earlier hmem).trans hparent
  refine ⟨List.cons_ne_nil _ _, ?_, List.pairwise_cons.mpr ⟨hlater, hchain.increasing⟩, ?_⟩
  · refine List.forall_mem_cons.mpr ⟨?_, hchain.dated⟩
    obtain ⟨parent, hmem⟩ := List.exists_mem_of_ne_nil _ hchain.ne_nil
    exact (hchain.dated parent hmem).trans (hlater parent hmem).le
  · intro entry rest hsuffix hrest
    rcases List.suffix_cons_iff.mp hsuffix with heq | hbefore
    · obtain ⟨rfl, rfl⟩ := List.cons.inj heq
      exact hrange
    · exact hchain.inRange entry rest hbefore hrest

end Chain

theorem targetInRange_of_run (env : External) (network : ChainType)
    (hnetwork : network = .main ∨ network = .testnet) (indices : List CBlockIndex)
    (chain : IndexChain)
    (hrun : Run (Retargets (network.consensus env)) (network.genesisChain env) indices
      chain) (index : CBlockIndex) (pindexLast : IndexChain)
    (hentry : index :: pindexLast <:+ chain) (habove : pindexLast ≠ []) :
    TargetInRange (network.consensus env) index pindexLast := by
  have hinvariant : RetargetInvariant (network.consensus env) chain :=
    hrun.invariant (fun _ reached => RetargetInvariant (network.consensus env) reached)
      (RetargetInvariant.genesis env network _)
      fun _ _ _ _ hreached hstep =>
        hreached.step (retargeting_of_network env hnetwork) hstep
  exact hinvariant.inRange index pindexLast hentry habove

theorem TargetInRange.getBlockProof_pos {params : Params} {index : CBlockIndex}
    {pindexLast : IndexChain} (hrange : TargetInRange params index pindexLast) :
    0 < getBlockProof index.nBits := by
  simp [getBlockProof, hrange.fNegative, hrange.fOverflow, hrange.target_pos.ne']

def IndexChain.totalProof (chain : IndexChain) : ℕ :=
  (chain.map fun index => getBlockProof index.nBits).sum

theorem getBlockProof_lt (nBits : UInt32) : getBlockProof nBits < 2 ^ 256 := by
  simp only [getBlockProof]
  split_ifs with hinvalid
  · decide
  · simp only [Bool.or_eq_true, beq_iff_eq, not_or] at hinvalid
    have hpos := Nat.pos_of_ne_zero hinvalid.2
    have hdiv : (2 ^ 256 - 1 - (setCompact nBits).target) / ((setCompact nBits).target + 1) ≤
        (2 ^ 256 - 1 - (setCompact nBits).target) / 2 :=
      Nat.div_le_div_left (by omega) (by decide)
    omega

/-- Work counted modulo 2^256 increases along a chain exactly as long as its total stays
below. -/
theorem pairwise_nChainWork_iff {chain : IndexChain} (hne : chain ≠ [])
    (hwork : ∀ index rest, index :: rest <:+ chain →
      index.nChainWork = BitVec.ofNat 256 (IndexChain.totalProof (index :: rest)))
    (hpos : ∀ index rest, index :: rest <:+ chain → rest ≠ [] → 0 < getBlockProof index.nBits) :
    (chain.Pairwise fun later earlier => earlier.nChainWork < later.nChainWork) ↔
      chain.totalProof < 2 ^ 256 := by
  induction chain with
  | nil => exact absurd rfl hne
  | cons index rest ih =>
    cases rest with
    | nil => exact iff_of_true (List.pairwise_singleton _ _) (getBlockProof_lt index.nBits)
    | cons parent rest =>
      have hsuffix : parent :: rest <:+ index :: parent :: rest := List.suffix_cons _ _
      have hrest := ih (List.cons_ne_nil _ _)
        (fun entry tail hentry => hwork entry tail (hentry.trans hsuffix))
        (fun entry tail hentry => hpos entry tail (hentry.trans hsuffix))
      have htotal : IndexChain.totalProof (index :: parent :: rest) =
          getBlockProof index.nBits + IndexChain.totalProof (parent :: rest) := rfl
      have hproof := getBlockProof_lt index.nBits
      have hproofPos := hpos index _ (List.suffix_refl _) (List.cons_ne_nil _ _)
      have hstep : parent.nChainWork < index.nChainWork ↔
          IndexChain.totalProof (parent :: rest) % 2 ^ 256 <
            (getBlockProof index.nBits + IndexChain.totalProof (parent :: rest)) % 2 ^ 256 := by
        rw [hwork index _ (List.suffix_refl _), hwork parent rest hsuffix, BitVec.lt_def,
          BitVec.toNat_ofNat, BitVec.toNat_ofNat, htotal]
      rw [List.pairwise_cons, hrest, htotal]
      constructor
      · rintro ⟨hlater, hlt⟩
        have hparent := hstep.mp (hlater parent List.mem_cons_self)
        rw [Nat.mod_eq_of_lt hlt] at hparent
        by_contra hwraps
        rw [Nat.mod_eq_sub_mod (by omega), Nat.mod_eq_of_lt (by omega)] at hparent
        omega
      · intro hlt
        have hparent : parent.nChainWork < index.nChainWork := by
          rw [hstep, Nat.mod_eq_of_lt hlt, Nat.mod_eq_of_lt (by omega)]
          omega
        have hbefore := List.pairwise_cons.mp (hrest.mpr (by omega))
        exact ⟨List.forall_mem_cons.mpr ⟨hparent, fun earlier hmem =>
          BitVec.lt_trans (hbefore.1 earlier hmem) hparent⟩, by omega⟩

theorem nChainWork_increases_iff (env : External) (network : ChainType)
    (hnetwork : network = .main ∨ network = .testnet) (headers : List CBlockHeader)
    (chain : IndexChain)
    (hrun : Run (fun pprev header pindex => ∃ fSetAsProofOfStake,
        Retargets (network.consensus env) pprev (.ofHeader env pprev header fSetAsProofOfStake)
          pindex) (network.genesisChain env) headers chain) :
    (∀ index rest, index :: rest <:+ chain →
      index.nChainWork = BitVec.ofNat 256 (IndexChain.totalProof (index :: rest))) ∧
    ((chain.Pairwise fun later earlier => earlier.nChainWork < later.nChainWork) ↔
      chain.totalProof < 2 ^ 256) := by
  have hparams := retargeting_of_network env hnetwork
  have hgenesis : ∀ index rest, index :: rest <:+ network.genesisChain env →
      index.nChainWork = BitVec.ofNat 256 (IndexChain.totalProof (index :: rest)) := by
    intro index rest hsuffix
    rcases List.suffix_cons_iff.mp hsuffix with heq | hnil
    · obtain ⟨rfl, rfl⟩ := List.cons.inj heq
      simp [CBlockIndex.ofHeader, IndexChain.totalProof]
    · exact absurd (List.suffix_nil.mp hnil) (List.cons_ne_nil _ _)
  have hinvariant : RetargetInvariant (network.consensus env) chain ∧
      ∀ index rest, index :: rest <:+ chain →
        index.nChainWork = BitVec.ofNat 256 (IndexChain.totalProof (index :: rest)) := by
    refine hrun.invariant (fun _ reached => RetargetInvariant (network.consensus env) reached ∧
      ∀ index rest, index :: rest <:+ reached →
        index.nChainWork = BitVec.ofNat 256 (IndexChain.totalProof (index :: rest)))
      ⟨.genesis env network _, hgenesis⟩ ?_
    rintro _ reached header next ⟨hreached, hwork⟩ ⟨fSetAsProofOfStake, hstep⟩
    refine ⟨hreached.step hparams hstep, fun index rest hsuffix => ?_⟩
    rw [hstep.pindex_eq] at hsuffix
    rcases List.suffix_cons_iff.mp hsuffix with heq | hbefore
    · obtain ⟨rfl, rfl⟩ := List.cons.inj heq
      obtain ⟨parent, ancestors, rfl⟩ := List.exists_cons_of_ne_nil hreached.ne_nil
      simp only [CBlockIndex.ofHeader, List.head?_cons, Option.map_some, Option.getD_some,
        hwork parent ancestors (List.suffix_refl _), IndexChain.totalProof, List.map_cons,
        List.sum_cons, BitVec.ofNat_add]
      exact BitVec.add_comm _ _
    · exact hwork index rest hbefore
  obtain ⟨hchain, hwork⟩ := hinvariant
  exact ⟨hwork, pairwise_nChainWork_iff hchain.ne_nil hwork fun index rest hsuffix hrest =>
    (hchain.inRange index rest hsuffix hrest).getBlockProof_pos⟩

section Sample

def retargetedEntry (pindexLast : IndexChain) (nTime : UInt32) : CBlockIndex where
  hashBlock := 0
  nVersion := 7
  hashMerkleRoot := 0
  nTime := nTime
  nBits := getNextTargetRequired pindexLast (ChainType.main.consensus External.sample) true
  nNonce := 0
  nFlags := blockProofOfStake
  nHeight := pindexLast.height + 1
  nChainWork := 0

theorem retargets_retargetedEntry (pindexLast : IndexChain) (nTime : UInt32)
    (hlater : ∀ parent ∈ pindexLast.head?, parent.nTime < nTime) :
    Retargets (ChainType.main.consensus External.sample) pindexLast
      (retargetedEntry pindexLast nTime) (retargetedEntry pindexLast nTime :: pindexLast) := by
  have hstake : (retargetedEntry pindexLast nTime).isProofOfStake = true := by
    change (blockProofOfStake &&& blockProofOfStake != 0) = true
    decide
  refine ⟨rfl, by rw [hstake]; rfl, fun parent hmem => ?_⟩
  have hlt := UInt32.lt_iff_toNat_lt.mp (hlater parent hmem)
  simp only [CBlockIndex.getBlockTime, retargetedEntry]
  omega

/-- The third block above genesis is the first whose bits are computed. -/
theorem targetInRange_third :
    let genesis := ChainType.main.genesisChain External.sample
    let first := retargetedEntry genesis 1789171216
    let second := retargetedEntry (first :: genesis) 1789171232
    TargetInRange (ChainType.main.consensus External.sample)
      (retargetedEntry (second :: first :: genesis) 1789171248)
      (second :: first :: genesis) := by
  intro genesis first second
  have hlater : ∀ (parent : CBlockIndex) (rest : IndexChain) (nTime : UInt32),
      parent.nTime < nTime → ∀ entry ∈ (parent :: rest).head?, entry.nTime < nTime := by
    intro parent rest nTime hlt entry hmem
    rw [← Option.some.inj hmem]
    exact hlt
  have hrun := ((Run.nil.snoc (retargets_retargetedEntry genesis 1789171216
    (hlater _ _ _ (by decide)))).snoc (retargets_retargetedEntry (first :: genesis)
      1789171232 (hlater _ _ _ (by decide)))).snoc
    (retargets_retargetedEntry (second :: first :: genesis) 1789171248
      (hlater _ _ _ (by decide)))
  exact targetInRange_of_run External.sample .main (.inl rfl) _ _ hrun _ _
    (List.suffix_refl _) (List.cons_ne_nil _ _)

theorem nChainWork_increases_first :
    let genesis := ChainType.main.genesisChain .sample
    let header : CBlockHeader := ⟨7, 0, 0, 1789171216, (retargetedEntry genesis 0).nBits, 0, 0⟩
    List.Pairwise (fun later earlier : CBlockIndex => earlier.nChainWork < later.nChainWork)
      (.ofHeader .sample genesis header true :: genesis) := by
  intro genesis header
  have hstake : (CBlockIndex.ofHeader .sample genesis header true).isProofOfStake = true := by
    decide
  have hchain := nChainWork_increases_iff .sample .main (.inl rfl) [header] _
    (.snoc .nil ⟨true, rfl, ?_, ?_⟩)
  · exact hchain.2.mpr (by decide +kernel)
  · rw [hstake]
    simp only [CBlockIndex.ofHeader, header, retargetedEntry, genesis]
  · intro parent hmem
    rw [← Option.some.inj hmem]
    exact Int.ofNat_lt.mpr (by decide : genesisTime.toNat < 1789171216)

end Sample

end FirstIslamicCoin
