import FirstIslamicCoin.Chain.BlockIndex

/-!
# Targets and work

Compact targets of `arith_uint256.cpp`, the retargeting rule and the work test
of `pow.cpp`, and the work a block adds to its chain.
-/

namespace FirstIslamicCoin

structure CompactTarget where
  target : ℕ
  fNegative : Bool
  fOverflow : Bool
  deriving DecidableEq, Repr

def setCompact (nCompact : UInt32) : CompactTarget :=
  let nSize := nCompact.toNat / 2 ^ 24
  let mantissa := nCompact.toNat % 2 ^ 23
  let nWord := if nSize ≤ 3 then mantissa / 2 ^ (8 * (3 - nSize)) else mantissa
  { target :=
      if nSize ≤ 3 then nWord else nWord * 2 ^ (8 * (nSize - 3)) % 2 ^ 256
    fNegative := nWord != 0 && nCompact &&& 0x00800000 != 0
    fOverflow := nWord != 0 && (decide (34 < nSize) ||
      decide (0xff < nWord) && decide (33 < nSize) ||
      decide (0xffff < nWord) && decide (32 < nSize)) }

/-- `arith_uint256::GetCompact` of a nonnegative value. -/
def getCompact (value : ℕ) : UInt32 :=
  let nSize := (value.size + 7) / 8
  let nCompact :=
    if nSize ≤ 3 then value * 2 ^ (8 * (3 - nSize)) % 2 ^ 32
    else value / 2 ^ (8 * (nSize - 3)) % 2 ^ 32
  if nCompact / 2 ^ 23 % 2 = 1 then
    UInt32.ofNat (nCompact / 256 + (nSize + 1) * 2 ^ 24)
  else UInt32.ofNat (nCompact + nSize * 2 ^ 24)

/-- `GetBlockProof`: the expected number of hashes behind a target. -/
def getBlockProof (nBits : UInt32) : ℕ :=
  let compact := setCompact nBits
  if compact.fNegative || compact.fOverflow || compact.target == 0 then 0
  else (2 ^ 256 - 1 - compact.target) / (compact.target + 1) + 1

def checkProofOfWork (hash : UInt256) (nBits : UInt32) (params : Params) :
    Bool :=
  let compact := setCompact nBits
  !(compact.fNegative || compact.target == 0 || compact.fOverflow ||
      decide (params.powLimit.toNat < compact.target)) &&
    decide (hash.toNat ≤ compact.target)

def getTargetLimit (nTime : ℤ) (params : Params) (fProofOfStake : Bool) : ℕ :=
  if fProofOfStake then
    if params.isProtocolV2 nTime then params.posLimitV2.toNat
    else params.posLimit.toNat
  else params.powLimit.toNat

def Params.spacingAt (params : Params) (nTime : ℤ) : ℤ :=
  if params.isProtocolV2 nTime then params.nTargetSpacing else params.nTargetSpacingV1

/-- The spacing `CalculateNextTargetRequired` goes by. -/
def retargetSpacing (params : Params) (pindexLast : CBlockIndex)
    (nFirstBlockTime : ℤ) : ℤ :=
  let nTime := pindexLast.getBlockTime
  let nTargetSpacing := params.spacingAt nTime
  let raw := nTime - nFirstBlockTime
  let nonnegative :=
    if params.isProtocolV1RetargetingFixed nTime ∧ raw < 0 then nTargetSpacing else raw
  if params.isProtocolV3 nTime ∧ nTargetSpacing * 10 < nonnegative then
    nTargetSpacing * 10
  else nonnegative

def retargetFactor (params : Params) (pindexLast : CBlockIndex)
    (nFirstBlockTime : ℤ) : ℤ :=
  let nTargetSpacing := params.spacingAt pindexLast.getBlockTime
  let nActualSpacing := retargetSpacing params pindexLast nFirstBlockTime
  (params.nTargetTimespan.tdiv nTargetSpacing - 1) * nTargetSpacing + nActualSpacing +
    nActualSpacing

/-- `CalculateNextTargetRequired`.  The factor is narrowed to 32 bits, since
that is the multiplication the source's overload resolution picks. -/
def calculateNextTargetRequired (pindexLast : CBlockIndex)
    (nFirstBlockTime : ℤ) (params : Params) (fProofOfStake : Bool) : UInt32 :=
  if (if fProofOfStake then params.fPoSNoRetargeting
      else params.fPowNoRetargeting) then pindexLast.nBits
  else
    let nTime := pindexLast.getBlockTime
    let nTargetSpacing := params.spacingAt nTime
    let bnTargetLimit := getTargetLimit nTime params fProofOfStake
    let nInterval := params.nTargetTimespan.tdiv nTargetSpacing
    let factor := retargetFactor params pindexLast nFirstBlockTime % 2 ^ 32
    let divisor := ((nInterval + 1) * nTargetSpacing) % 2 ^ 64
    let product := (setCompact pindexLast.nBits).target * factor.toNat % 2 ^ 256
    let bnNew := product / divisor.toNat
    if bnNew = 0 ∨ bnTargetLimit < bnNew then getCompact bnTargetLimit
    else getCompact bnNew

def getNextTargetRequired (pindexLast : IndexChain) (params : Params)
    (fProofOfStake : Bool) : UInt32 :=
  match pindexLast with
  | [] => getCompact params.powLimit.toNat
  | last :: _ =>
      let nTargetLimit := getCompact (getTargetLimit last.getBlockTime params fProofOfStake)
      match pindexLast.getLastBlockIndex fProofOfStake with
      | pindexPrev :: parent :: rest =>
          match IndexChain.getLastBlockIndex fProofOfStake (parent :: rest) with
          | pindexPrevPrev :: _ :: _ =>
              if params.chainType = .regtest then
                getCompact (setCompact 0x207fffff).target
              else calculateNextTargetRequired pindexPrev
                pindexPrevPrev.getBlockTime params fProofOfStake
          | _ => nTargetLimit
      | _ => nTargetLimit

/-- `AddToBlockIndex`: the entry a header gets on top of its parent. -/
def CBlockIndex.ofHeader (env : External) (pprev : IndexChain)
    (header : CBlockHeader) (fSetAsProofOfStake : Bool) : CBlockIndex where
  hashBlock := header.getHash env
  nVersion := header.nVersion
  hashMerkleRoot := header.hashMerkleRoot
  nTime := header.nTime
  nBits := header.nBits
  nNonce := header.nNonce
  nFlags := if fSetAsProofOfStake then header.nFlags ||| blockProofOfStake
    else header.nFlags
  nHeight := pprev.height + 1
  nChainWork := (pprev.head?.map CBlockIndex.nChainWork).getD 0 +
    BitVec.ofNat 256 (getBlockProof header.nBits)

def ChainType.genesisChain (env : External) (network : ChainType) : IndexChain :=
  [CBlockIndex.ofHeader env [] (network.genesis env).toCBlockHeader false]

end FirstIslamicCoin
