import FirstIslamicCoin.Chain.Pow
import FirstIslamicCoin.Consensus.TxVerify

/-!
# Context-free block checks

`CheckBlockHeader` and `CheckBlock` of `validation.cpp`, with the timestamp
rules they use.  The two results of a block that are cached in memory
(`fChecked`, `m_checked_merkle_root`) are not modelled: every call checks.
-/

namespace FirstIslamicCoin

open Outcome ByteCodec

/-- `BlockValidationResult`, the results that the modelled code reports. -/
inductive BlockValidationResult where
  | blockConsensus
  | blockCachedInvalid
  | blockInvalidHeader
  | blockMutated
  | blockMissingPrev
  | blockInvalidPrev
  | blockTimeFuture
  | blockCheckpoint
  | blockHeaderSpam
  | blockHeaderReject
  | blockHeaderSync
  | blockHeaderLowWork
  deriving DecidableEq, Repr

abbrev BlockFailure := Failure BlockValidationResult

/-- Any failure of a transaction inside a block is a consensus failure of the
block. -/
def TxFailure.toBlock : TxFailure → BlockFailure
  | .invalid _ rejectReason => .invalid .blockConsensus rejectReason
  | .error rejectReason => .error rejectReason
  | .unset => .unset
  | .thrown what => .thrown what
  | .aborted => .aborted
  | .overflowed => .overflowed

def blockInvalid (rejectReason : String) : BlockFailure :=
  .invalid .blockConsensus rejectReason

/-- What validation reads besides its arguments: the external functions, the
chain parameters, the overflow semantics, the adjusted clock, the height of the
active chain, and whether scripts are run (they are skipped below a block that
is assumed valid). -/
structure Setting where
  env : External
  params : Params
  mode : Overflow
  now : ℤ
  chainHeight : ℤ
  fScriptChecks : Bool

/-- The setting of a node of a network under given conditions. -/
def Setting.of (env : External) (network : ChainType) (mode : Overflow)
    (now chainHeight : ℤ) (fScriptChecks : Bool) : Setting where
  env := env
  params := network.consensus env
  mode := mode
  now := now
  chainHeight := chainHeight
  fScriptChecks := fScriptChecks

def Setting.sample (network : ChainType) (now chainHeight : ℤ) : Setting :=
  Setting.of External.sample network .wrap now chainHeight true

section Time

def futureDrift (setting : Setting) (nTime : ℤ) : ℤ :=
  if setting.params.fPowNoRetargeting ∧
      setting.chainHeight ≤ setting.params.nLastPOWBlock then
    nTime + 24 * 60 * 60
  else if setting.params.isProtocolV2 nTime then nTime + 15
  else nTime + 10 * 60

def checkCoinStakeTimestamp (params : Params) (nTimeBlock nTimeTx : ℤ) : Bool :=
  if params.isProtocolV2 nTimeBlock then
    nTimeBlock == nTimeTx &&
      BitVec.ofInt 64 nTimeTx &&& BitVec.ofNat 64 params.nStakeTimestampMask.toNat == 0
  else nTimeBlock == nTimeTx

def checkStakeBlockTimestamp (params : Params) (nTimeBlock : ℤ) : Bool :=
  checkCoinStakeTimestamp params nTimeBlock nTimeBlock

/-- The recurring `tx->nTime ? tx->nTime : block.GetBlockTime()`. -/
def CTransaction.timeOr (tx : CTransaction) (nTimeBlock : ℤ) : ℤ :=
  if tx.nTime = 0 then nTimeBlock else tx.nTime.toNat

end Time

section Header

def checkBlockHeader (setting : Setting) (header : CBlockHeader)
    (fCheckPOW fOldClient : Bool) : Except BlockFailure Unit := do
  require (!(decide (header.nVersion < 7) &&
      setting.params.isProtocolV2 header.getBlockTime))
    (.invalid .blockInvalidHeader "bad-version")
  require (!fCheckPOW || checkProofOfWork (header.getPoWHash setting.env)
      header.nBits setting.params)
    (if fOldClient then .unset else .invalid .blockInvalidHeader "high-hash")
  require (decide (header.getBlockTime ≤ futureDrift setting setting.now))
    (.invalid .blockInvalidHeader "time-too-new")

end Header

section Signature

/-- `CPubKey::GetLen`. -/
def pubKeyLength (header : UInt8) : ℕ :=
  if header = 2 ∨ header = 3 then 33
  else if header = 4 ∨ header = 6 ∨ header = 7 then 65
  else 0

def pubKeyValidSize (key : Bytes) : Bool :=
  match key with
  | [] => false
  | header :: _ => key.length == pubKeyLength header

/-- The key of a pay-to-pubkey script, as `Solver` recognises it. -/
def matchPayToPubkey (script : CScript) : Option Bytes :=
  let key := (script.drop 1).take (script.length - 2)
  if (script.length == 67 && script.head? == some 65 ||
      script.length == 35 && script.head? == some 33) &&
      script.getLast? == some CScript.opCheckSig && pubKeyValidSize key then
    some key
  else none

def isCompressedOrUncompressedPubKey (key : Bytes) : Bool :=
  match key with
  | [] => false
  | header :: _ =>
      header == 4 && key.length == 65 ||
        (header == 2 || header == 3) && key.length == 33

/-- The key a coinstake names for the block signature: that of a pay-to-pubkey
output, or one pushed after `OP_RETURN`. -/
def blockSigningKey (script : CScript) : Option Bytes :=
  match matchPayToPubkey script with
  | some key => some key
  | none => do
      let (first, rest) ← CScript.getOp script
      let (second, _) ← CScript.getOp rest
      if first.1 = CScript.opReturn ∧ isCompressedOrUncompressedPubKey second.2 then
        some second.2
      else none

def checkBlockSignature (env : External) (block : CBlock) : Bool :=
  if block.isProofOfWork then block.vchBlockSig.isEmpty
  else if block.vchBlockSig.isEmpty then false
  else
    match block.vtx with
    | _ :: coinstake :: _ =>
        match coinstake.vout with
        | _ :: out :: _ =>
            match blockSigningKey out.scriptPubKey with
            | some key => env.verifyPubKey key
                (block.toCBlockHeader.getHash env) block.vchBlockSig
            | none => false
        | _ => false
    | _ => false

end Signature

section Block

/-- `GetWitnessCommitmentIndex`: the last coinbase output that commits to the
witness data. -/
def getWitnessCommitmentIndex (block : CBlock) : Option ℕ :=
  match block.vtx with
  | [] => none
  | coinbase :: _ =>
      (coinbase.vout.zipIdx.filter fun entry =>
        decide (38 ≤ entry.1.scriptPubKey.length) &&
          entry.1.scriptPubKey.take 6 == [0x6a, 0x24, 0xaa, 0x21, 0xa9, 0xed]).getLast?.map
        Prod.snd

/-- `CheckMerkleRoot`, when it is asked for. -/
def checkMerkleRoot (env : External) (block : CBlock)
    (fCheckMerkleRoot : Bool) : Except BlockFailure Unit := do
  require (!fCheckMerkleRoot || block.hashMerkleRoot == (blockMerkleRoot env block).1)
    (.invalid .blockMutated "bad-txnmrklroot")
  require (!fCheckMerkleRoot || !(blockMerkleRoot env block).2)
    (.invalid .blockMutated "bad-txns-duplicate")

/-- The coinbase of a proof-of-stake block carries nothing but, at most, a
witness commitment. -/
def isEmptyCoinbase (block : CBlock) (coinbase : CTransaction) : Bool :=
  match getWitnessCommitmentIndex block, coinbase.vout with
  | none, [out] => out.isEmpty
  | some _, [out, commitment] => out.isEmpty && commitment.nValue == 0
  | _, _ => false

/-- The tests `CheckBlock` makes on proof-of-stake blocks only. -/
def checkProofOfStakeShape (block : CBlock) : Except BlockFailure Unit :=
  if block.isProofOfStake then do
    require (block.vtx.head?.any (isEmptyCoinbase block))
      (blockInvalid "bad-cb-not-empty")
    require (block.vtx.tail.head?.any CTransaction.isCoinStake)
      (blockInvalid "bad-cs-missing")
    require (block.vtx.tail.tail.all fun tx => !tx.isCoinStake)
      (blockInvalid "bad-cs-multiple")
  else .ok ()

/-- The transaction loop of `CheckBlock`.  The source also has a test of the
transaction's timestamp, but it stands behind the `return` of a failed
`CheckTransaction` and is never reached. -/
def checkTransactions (mode : Overflow) (vtx : List CTransaction) :
    Except BlockFailure Unit :=
  loop (fun _ tx => (checkTransaction mode tx).mapError TxFailure.toBlock) () vtx

def strippedBlockSize (block : CBlock) : ℕ :=
  (serializeBlock false false block).length

/-- `CheckBlock` after the header. -/
def checkBlockBody (setting : Setting) (block : CBlock)
    (fCheckPOW fCheckMerkleRoot fCheckSig : Bool) : Except BlockFailure Unit := do
  require (!(setting.params.signetBlocks && fCheckPOW &&
      !setting.env.checkSignetBlockSolution (serializeBlock false true block)))
    (blockInvalid "bad-signet-blksig")
  checkMerkleRoot setting.env block fCheckMerkleRoot
  require (!block.vtx.isEmpty &&
      decide (block.vtx.length * witnessScaleFactor ≤ maxBlockWeight) &&
      decide (strippedBlockSize block * witnessScaleFactor ≤ maxBlockWeight))
    (blockInvalid "bad-blk-length")
  require (block.vtx.head?.any CTransaction.isCoinBase)
    (blockInvalid "bad-cb-missing")
  require (block.vtx.tail.all fun tx => !tx.isCoinBase)
    (blockInvalid "bad-cb-multiple")
  require (block.vtx.head?.all fun coinbase =>
      decide (block.getBlockTime ≤ futureDrift setting (coinbase.timeOr block.getBlockTime)))
    (blockInvalid "bad-cb-time")
  require (!block.isProofOfStake || block.vtx.tail.head?.all fun coinstake =>
      checkCoinStakeTimestamp setting.params block.getBlockTime
        (coinstake.timeOr block.getBlockTime)) (blockInvalid "bad-cs-time")
  checkProofOfStakeShape block
  require (!fCheckSig || checkBlockSignature setting.env block)
    (blockInvalid "bad-blk-signature")
  checkTransactions setting.mode block.vtx
  require (decide ((block.vtx.map getLegacySigOpCount).sum * witnessScaleFactor ≤
      maxBlockSigOpsCost))
    (blockInvalid "bad-blk-sigops")

def checkBlock (setting : Setting) (block : CBlock)
    (fCheckPOW fCheckMerkleRoot fCheckSig : Bool) : Except BlockFailure Unit := do
  checkBlockHeader setting block.toCBlockHeader
    (fCheckPOW && block.isProofOfWork) false
  checkBlockBody setting block fCheckPOW fCheckMerkleRoot fCheckSig

end Block

section Checked

variable {setting : Setting} {block : CBlock}
  {fCheckPOW fCheckMerkleRoot fCheckSig : Bool}

/-- What `CheckBlock` establishes about the transactions of a block. -/
structure CheckedBlock (block : CBlock) : Prop where
  strippedBlockSize_le : strippedBlockSize block ≤ 1000000
  head_coinbase : ∃ coinbase rest, block.vtx = coinbase :: rest ∧
    coinbase.isCoinBase = true ∧ ∀ tx ∈ rest, tx.isCoinBase = false
  checked : ∀ tx ∈ block.vtx, CheckedTransaction tx
  proofOfStake : block.isProofOfStake = true → ∃ coinbase coinstake rest,
    block.vtx = coinbase :: coinstake :: rest ∧ coinstake.isCoinStake = true ∧
    isEmptyCoinbase block coinbase = true ∧ ∀ tx ∈ rest, tx.isCoinStake = false

/-- A block is little more than its transactions and its signature. -/
theorem strippedBlockSize_le (block : CBlock) :
    strippedBlockSize block ≤
      (block.vtx.map CTransaction.strippedSize).sum + block.vchBlockSig.length + 100 := by
  have htxs := length_writeCompactSize_le block.vtx.length
  have hsig := length_writeCompactSize_le block.vchBlockSig.length
  have hflat : (block.vtx.flatMap (serializeTransaction false)).length =
      (block.vtx.map CTransaction.strippedSize).sum := List.length_flatMap
  simp only [strippedBlockSize, serializeBlock, serializeHeader, serializeVector,
    serializeBytes, List.length_append, hflat, Bool.false_eq_true, if_false,
    List.length_nil, serializeInt32, serializeUInt32, serializeUInt256,
    length_littleEndian, List.flatMap_singleton']
  omega

theorem checkTransactions_eq_ok {mode : Overflow} {vtx : List CTransaction} :
    checkTransactions mode vtx = .ok () ↔
      ∀ tx ∈ vtx, checkTransaction mode tx = .ok () := by
  rw [checkTransactions]
  induction vtx with
  | nil => simp
  | cons tx vtx ih =>
    simp only [loop_cons_eq_ok, mapError_eq_ok, exists_unit, List.forall_mem_cons, ih]

/-- No check on a block depends on what an overflow does. -/
theorem checkBlock_mode (mode : Overflow) :
    checkBlock { setting with mode := mode } block fCheckPOW fCheckMerkleRoot fCheckSig =
      checkBlock setting block fCheckPOW fCheckMerkleRoot fCheckSig := by
  have htxs : checkTransactions mode block.vtx = checkTransactions setting.mode block.vtx := by
    simp only [checkTransactions, checkTransaction_mode mode setting.mode]
  simp only [checkBlock, checkBlockBody, htxs]
  rfl

theorem checkProofOfStakeShape_eq_ok
    (hstake : block.isProofOfStake = true) (hshape : checkProofOfStakeShape block = .ok ()) :
    ∃ coinbase coinstake rest, block.vtx = coinbase :: coinstake :: rest ∧
      coinstake.isCoinStake = true ∧ isEmptyCoinbase block coinbase = true ∧
      ∀ tx ∈ rest, tx.isCoinStake = false := by
  simp only [checkProofOfStakeShape, hstake, if_true, bind_eq_ok, require_eq_ok,
    exists_unit] at hshape
  obtain ⟨hempty, hcoinstake, hrest⟩ := hshape
  cases hvtx : block.vtx with
  | nil => simp [hvtx] at hempty
  | cons coinbase others =>
    cases others with
    | nil => simp [hvtx] at hcoinstake
    | cons coinstake rest =>
      simp only [hvtx, List.head?_cons, Option.any_some, List.tail_cons,
        List.all_eq_true, Bool.not_eq_true'] at hempty hcoinstake hrest
      exact ⟨coinbase, coinstake, rest, rfl, hcoinstake, hempty, hrest⟩

theorem checkBlock_checked (hcheck : checkBlock setting block fCheckPOW fCheckMerkleRoot fCheckSig =
      .ok ()) : CheckedBlock block := by
  simp only [checkBlock, checkBlockBody, bind_eq_ok, require_eq_ok, exists_unit] at hcheck
  obtain ⟨_, _, _, hlength, hcoinbase, hothers, _, _, hshape, _, htxs, _⟩ := hcheck
  refine ⟨?_, ?_, ?_, fun hstake => checkProofOfStakeShape_eq_ok hstake hshape⟩
  · rw [Bool.and_eq_true, decide_eq_true_eq] at hlength
    have hsize := hlength.2
    simp only [witnessScaleFactor, maxBlockWeight] at hsize
    omega
  · cases hvtx : block.vtx with
    | nil => simp [hvtx] at hcoinbase
    | cons coinbase rest =>
      simp only [hvtx, List.head?_cons, Option.any_some, List.tail_cons,
        List.all_eq_true, Bool.not_eq_true'] at hcoinbase hothers
      exact ⟨coinbase, rest, rfl, hcoinbase, hothers⟩
  · intro tx hmem
    exact checkTransaction_eq_ok (checkTransactions_eq_ok.mp htxs tx hmem)

end Checked

end FirstIslamicCoin
