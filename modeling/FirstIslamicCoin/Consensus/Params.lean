import FirstIslamicCoin.Consensus.Amount
import FirstIslamicCoin.Primitives.Block
import FirstIslamicCoin.Primitives.Script

/-!
# Chain parameters

`Consensus::Params` with the values that `kernel/chainparams.cpp` gives its
fields on each network, and the genesis block every network starts from.  The
genesis hash is computed, not stored: the source asserts that the computed
value is the one it expects.
-/

namespace FirstIslamicCoin

inductive ChainType where
  | main
  | testnet
  | signet
  | regtest
  deriving DecidableEq, Repr

/-- `Consensus::Params`, restricted to the fields that the modelled code
reads, together with the chain type that stands next to it in
`CChainParams`. -/
structure Params where
  chainType : ChainType
  hashGenesisBlock : UInt256
  nMaxReorganizationDepth : ℤ
  csvHeight : ℤ
  powLimit : UInt256
  posLimit : UInt256
  posLimitV2 : UInt256
  fPowAllowMinDifficultyBlocks : Bool
  nTargetSpacingV1 : ℤ
  fPowNoRetargeting : Bool
  fPoSNoRetargeting : Bool
  nTargetSpacing : ℤ
  nTargetTimespan : ℤ
  nProtocolV1RetargetingFixedTime : ℤ
  nProtocolV2Time : ℤ
  nProtocolV3Time : ℤ
  nProtocolV3_1Time : ℤ
  nLastPOWBlock : ℤ
  nStakeTimestampMask : UInt32
  nCoinbaseMaturity : ℤ
  nPremineTotal : CAmount
  nPowSubsidy : CAmount
  nFixedStakeReward : CAmount
  nRewardHalvingInterval : ℤ
  nMinimumChainWork : ℕ
  signetBlocks : Bool

namespace Params

/-- `Consensus::Params()` as an expression: a value-initialised temporary. -/
def valueInitialised : Params where
  chainType := .main
  hashGenesisBlock := 0
  nMaxReorganizationDepth := 0
  csvHeight := 0
  powLimit := 0
  posLimit := 0
  posLimitV2 := 0
  fPowAllowMinDifficultyBlocks := false
  nTargetSpacingV1 := 0
  fPowNoRetargeting := false
  fPoSNoRetargeting := false
  nTargetSpacing := 0
  nTargetTimespan := 0
  nProtocolV1RetargetingFixedTime := 0
  nProtocolV2Time := 0
  nProtocolV3Time := 0
  nProtocolV3_1Time := 0
  nLastPOWBlock := 0
  nStakeTimestampMask := 0
  nCoinbaseMaturity := 0
  nPremineTotal := 0
  nPowSubsidy := 0
  nFixedStakeReward := 0
  nRewardHalvingInterval := 0
  nMinimumChainWork := 0
  signetBlocks := false

/-- A protocol switch: after a time, except at one second. -/
def isAfterSwitch (switchTime exception nTime : ℤ) : Bool :=
  decide (switchTime < nTime) && nTime != exception

def isProtocolV1RetargetingFixed (params : Params) (nTime : ℤ) : Bool :=
  isAfterSwitch params.nProtocolV1RetargetingFixedTime 1395631999 nTime

def isProtocolV2 (params : Params) (nTime : ℤ) : Bool :=
  isAfterSwitch params.nProtocolV2Time 1407053678 nTime

def isProtocolV3 (params : Params) (nTime : ℤ) : Bool :=
  isAfterSwitch params.nProtocolV3Time 1444028400 nTime

def isProtocolV3_1 (params : Params) (nTime : ℤ) : Bool :=
  isAfterSwitch params.nProtocolV3_1Time 1713938400 nTime

/-- Beyond both its time and its exceptional second a switch is on. -/
theorem isAfterSwitch_of_lt {switchTime exception nTime : ℤ} (hswitch : switchTime < nTime)
    (hexception : exception < nTime) : isAfterSwitch switchTime exception nTime = true := by
  have hne : nTime ≠ exception := by omega
  simp [isAfterSwitch, hswitch, hne]

def stakeReward (params : Params) (nHeight : ℤ) : CAmount :=
  if params.nRewardHalvingInterval ≤ 0 then params.nFixedStakeReward
  else
    let halvings := nHeight.tdiv params.nRewardHalvingInterval
    if 63 ≤ halvings then 0
    else Int64.ofInt (params.nFixedStakeReward.toInt >>> halvings.toNat)

end Params

def getBlockSubsidy (nHeight : ℤ) (params : Params) (fProofOfStake : Bool) :
    CAmount :=
  if nHeight = 0 then params.nPremineTotal
  else if fProofOfStake then params.stakeReward nHeight
  else if nHeight ≤ params.nLastPOWBlock then params.nPowSubsidy
  else 0

namespace ChainType

/-- The fields every network sets to the same value. -/
def base : Params :=
  { Params.valueInitialised with
    nMaxReorganizationDepth := 500
    csvHeight := 0
    posLimit := 2 ^ 236 - 1
    posLimitV2 := 2 ^ 208 - 1
    nTargetTimespan := 16 * 60
    nTargetSpacingV1 := 60
    nTargetSpacing := 64
    nProtocolV1RetargetingFixedTime := 1395631999
    nProtocolV2Time := 1407053625
    nProtocolV3Time := 1444028400
    nProtocolV3_1Time := 1713938400
    nLastPOWBlock := 0
    nStakeTimestampMask := 0xf
    nPremineTotal := 1400000000000000000
    nPowSubsidy := 0
    nFixedStakeReward := 1000000000 }

/-- The constructor bodies of the four chain parameter classes, up to the
genesis block. -/
def fields : ChainType → Params
  | main => { base with
      chainType := .main
      powLimit := 2 ^ 236 - 1
      nCoinbaseMaturity := 500 }
  | testnet => { base with
      chainType := .testnet
      powLimit := 2 ^ 240 - 1
      fPowAllowMinDifficultyBlocks := true
      nProtocolV3_1Time := 1667779200
      nCoinbaseMaturity := 50 }
  | signet => { base with
      chainType := .signet
      csvHeight := 1
      powLimit := 2 ^ 240 - 1
      nTargetSpacingV1 := 64
      nProtocolV1RetargetingFixedTime := 1707168541
      nProtocolV2Time := 1707168542
      nProtocolV3Time := 1707168543
      nProtocolV3_1Time := 1707168544
      nLastPOWBlock := 0x7fffffff
      nCoinbaseMaturity := 10
      signetBlocks := true }
  | regtest => { base with
      chainType := .regtest
      nMaxReorganizationDepth := 50
      csvHeight := 1
      powLimit := 2 ^ 255 - 1
      nTargetSpacingV1 := 64
      nTargetSpacing := 1
      fPowAllowMinDifficultyBlocks := true
      fPowNoRetargeting := true
      fPoSNoRetargeting := true
      nLastPOWBlock := 500
      nStakeTimestampMask := 0
      nCoinbaseMaturity := 10
      nPowSubsidy := 2800000000000000 }

end ChainType

section Genesis

open CScript ByteCodec

/-- `FIC_GENESIS_TIME`, 2026-09-12 00:00:00 UTC. -/
def genesisTime : UInt32 := 1789171200

/-- `FIC_GENESIS_TIMESTAMP` as bytes. -/
def genesisTimestamp : Bytes :=
  "FirstIslamicCoin 12/Sep/2026 — Bismillah, the first Shariah-conscious Proof-of-Stake network".toUTF8.toList

def p2pkhScript (keyHash : Bytes) : CScript :=
  [opDup, opHash160] ++ pushData keyHash ++ [opEqualVerify, opCheckSig]

/-- `GenesisPremineOutputs` with its default of 1000 outputs. -/
def genesisPremineOutputs (premineScript : CScript) (nPremineTotal : CAmount)
    (nOutputs : ℕ) : List CTxOut :=
  List.replicate nOutputs
    ⟨Int64.ofInt (nPremineTotal.toInt / nOutputs), premineScript⟩

/-- The coinbase that `CreateGenesisBlock` builds. -/
def genesisCoinbase (premine : List CTxOut) : CTransaction where
  vin := [{
    prevout := ⟨0, COutPoint.nullIndex⟩
    scriptSig := pushInt64 0 ++ pushData (serializeScriptNum 42) ++
      pushData genesisTimestamp
    nSequence := 0xffffffff
    scriptWitness := [] }]
  vout := premine
  nVersion := 1
  nTime := genesisTime
  nLockTime := 0

def createGenesisBlock (env : External) (premine : List CTxOut)
    (nNonce nBits : UInt32) : CBlock where
  nVersion := 7
  hashPrevBlock := 0
  hashMerkleRoot := (computeMerkleRoot env
    [(genesisCoinbase premine).getHash env]).1
  nTime := genesisTime
  nBits := nBits
  nNonce := nNonce
  nFlags := 0
  vtx := [genesisCoinbase premine]
  vchBlockSig := []

namespace ChainType

/-- The script the premine of each network pays. -/
def premineScript : ChainType → CScript
  | main => pushData
      [0x02, 0x50, 0x92, 0x9b, 0x74, 0xc1, 0xa0, 0x49, 0x54, 0xb7, 0x8b, 0x4b,
        0x60, 0x35, 0xe9, 0x7a, 0x5e, 0x07, 0x8a, 0x5a, 0x0f, 0x28, 0xec, 0x96,
        0xd5, 0x47, 0xbf, 0xee, 0x9a, 0xce, 0x80, 0x3a, 0xc0] ++ [opCheckSig]
  | testnet | signet => p2pkhScript
      [0x8d, 0x15, 0x35, 0x02, 0xba, 0x47, 0x7c, 0xa4, 0xb9, 0xd4, 0xff, 0xf3,
        0xb5, 0x1e, 0x6f, 0x4f, 0x2d, 0x86, 0xd6, 0xe1]
  | regtest => p2pkhScript
      [0x70, 0xe5, 0x19, 0x79, 0x9a, 0xee, 0xf0, 0x39, 0x6b, 0x25, 0x3b, 0x70,
        0xa5, 0xf5, 0x23, 0xd2, 0xfe, 0xd8, 0x9d, 0x64]

def genesisNonce : ChainType → UInt32
  | main => 1669658
  | testnet | signet => 8609
  | regtest => 3

def genesisBits : ChainType → UInt32
  | main => 0x1e0fffff
  | testnet | signet => 0x1f00ffff
  | regtest => 0x207fffff

def premineOutputs (network : ChainType) : List CTxOut :=
  genesisPremineOutputs network.premineScript network.fields.nPremineTotal 1000

def genesis (env : External) (network : ChainType) : CBlock :=
  createGenesisBlock env network.premineOutputs network.genesisNonce
    network.genesisBits

def consensus (env : External) (network : ChainType) : Params :=
  { network.fields with
    hashGenesisBlock := (network.genesis env).getHash env }

end ChainType

end Genesis

end FirstIslamicCoin
