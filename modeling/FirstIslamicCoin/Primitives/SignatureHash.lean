import FirstIslamicCoin.Primitives.Block
import FirstIslamicCoin.Primitives.Script

/-!
# Signed messages

The byte strings that `script/interpreter.cpp` feeds to the signature hash: the
legacy serializer, the message of witness version 0, and the Schnorr message of
taproot key path and tapscript.  The first two write the timestamp of a
transaction of version below 2; the third does not.
-/

namespace FirstIslamicCoin

open ByteCodec

inductive SigVersion where
  | base
  | witnessV0
  | taproot
  | tapscript
  deriving DecidableEq, Repr

def sighashAll : UInt32 := 1
def sighashNone : UInt32 := 2
def sighashSingle : UInt32 := 3
def sighashAnyoneCanPay : UInt32 := 0x80

section ScriptCode

def opCodeSeparator : UInt8 := 0xab

/-- The bytes that `GetScriptOp` passes over before it fails on an operation: the
opcode, and the size of its data if that is complete. -/
def failedOp : CScript → Bytes
  | [] => []
  | opcode :: rest =>
      let width := if opcode = CScript.opPushData1 then 1
        else if opcode = CScript.opPushData2 then 2
        else if opcode = CScript.opPushData4 then 4 else 0
      opcode :: if rest.length < width then [] else rest.take width

/-- The bytes of a script that `SerializeScriptCode` writes, and the number of
separators it leaves out. -/
def withoutSeparators : ℕ → CScript → Bytes × ℕ
  | 0, _ => ([], 0)
  | fuel + 1, script =>
      match CScript.getOp script with
      | none => (failedOp script, 0)
      | some ((opcode, _), rest) =>
          let (written, nCodeSeparators) := withoutSeparators fuel rest
          if opcode = opCodeSeparator then (written, nCodeSeparators + 1)
          else (script.take (script.length - rest.length) ++ written, nCodeSeparators)

def serializeScriptCode (scriptCode : CScript) : Bytes :=
  let (written, nCodeSeparators) := withoutSeparators (scriptCode.length + 1) scriptCode
  writeCompactSize (scriptCode.length - nCodeSeparators) ++ written

end ScriptCode

section Legacy

variable (txTo : CTransaction) (scriptCode : CScript) (nIn : ℕ) (nHashType : UInt32)

def isAnyoneCanPay : Bool := nHashType &&& sighashAnyoneCanPay != 0

def isHashSingle : Bool := nHashType &&& 0x1f == sighashSingle

def isHashNone : Bool := nHashType &&& 0x1f == sighashNone

/-- `SerializeInput` of an input that the transaction has. -/
def serializeSignedInput (entry : CTxIn × ℕ) : Bytes :=
  serializeOutPoint entry.1.prevout ++
    (if entry.2 ≠ nIn then serializeBytes [] else serializeScriptCode scriptCode) ++
    (if entry.2 ≠ nIn ∧ (isHashSingle nHashType || isHashNone nHashType) = true then
      serializeUInt32 0
    else serializeUInt32 entry.1.nSequence)

/-- `SerializeOutput`. -/
def serializeSignedOutput (entry : CTxOut × ℕ) : Bytes :=
  if isHashSingle nHashType ∧ entry.2 ≠ nIn then serializeTxOut ⟨-1, []⟩
  else serializeTxOut entry.1

/-- `CTransactionSignatureSerializer::Serialize`. -/
def serializeSigned : Bytes :=
  let inputs := if isAnyoneCanPay nHashType then txTo.vin.zipIdx.drop nIn |>.take 1
    else txTo.vin.zipIdx
  let outputs := if isHashNone nHashType then []
    else if isHashSingle nHashType then txTo.vout.zipIdx.take (nIn + 1)
    else txTo.vout.zipIdx
  serializeInt32 txTo.nVersion ++
    (if txTo.nVersion < 2 then serializeUInt32 txTo.nTime else []) ++
    serializeVector (serializeSignedInput scriptCode nIn nHashType) inputs ++
    serializeVector (serializeSignedOutput nIn nHashType) outputs ++
    serializeUInt32 txTo.nLockTime

end Legacy

section Precomputed

variable (sha256 : Bytes → UInt256)

def getPrevoutsSHA256 (txTo : CTransaction) : UInt256 :=
  sha256 (txTo.vin.flatMap fun txin => serializeOutPoint txin.prevout)

def getSequencesSHA256 (txTo : CTransaction) : UInt256 :=
  sha256 (txTo.vin.flatMap fun txin => serializeUInt32 txin.nSequence)

def getOutputsSHA256 (txTo : CTransaction) : UInt256 :=
  sha256 (txTo.vout.flatMap serializeTxOut)

def getSpentAmountsSHA256 (outputsSpent : List CTxOut) : UInt256 :=
  sha256 (outputsSpent.flatMap fun txout => serializeInt64 txout.nValue)

def getSpentScriptsSHA256 (outputsSpent : List CTxOut) : UInt256 :=
  sha256 (outputsSpent.flatMap fun txout => serializeBytes txout.scriptPubKey)

def sha256UInt256 (input : UInt256) : UInt256 := sha256 (serializeUInt256 input)

structure PrecomputedTransactionData where
  prevoutsSingleHash : UInt256 := 0
  sequencesSingleHash : UInt256 := 0
  outputsSingleHash : UInt256 := 0
  spentAmountsSingleHash : UInt256 := 0
  spentScriptsSingleHash : UInt256 := 0
  bip341TaprootReady : Bool := false
  hashPrevouts : UInt256 := 0
  hashSequence : UInt256 := 0
  hashOutputs : UInt256 := 0
  bip143SegwitReady : Bool := false
  spentOutputs : List CTxOut := []
  spentOutputsReady : Bool := false
  deriving DecidableEq, Repr

/-- Whether `Init` treats a spent output as a taproot output. -/
def looksTaproot (spent : Option CTxOut) : Bool :=
  match spent with
  | none => false
  | some out => out.scriptPubKey.length == 34 && out.scriptPubKey[0]? == some CScript.op1

/-- `PrecomputedTransactionData::Init`; the spent outputs are either unknown or
one for each input, which the code asserts. -/
def PrecomputedTransactionData.init (txTo : CTransaction)
    (spentOutputs : List CTxOut) (force : Bool) : Option PrecomputedTransactionData :=
  if !spentOutputs.isEmpty ∧ spentOutputs.length ≠ txTo.vin.length then none
  else
    let witnessed := txTo.vin.zipIdx.filter fun entry => !entry.1.scriptWitness.isEmpty
    let usesTaproot := force || witnessed.any fun entry => looksTaproot spentOutputs[entry.2]?
    let usesSegwit := force || witnessed.any fun entry => !looksTaproot spentOutputs[entry.2]?
    let shared : PrecomputedTransactionData :=
      if usesSegwit || usesTaproot then
        { prevoutsSingleHash := getPrevoutsSHA256 sha256 txTo
          sequencesSingleHash := getSequencesSHA256 sha256 txTo
          outputsSingleHash := getOutputsSHA256 sha256 txTo
          spentOutputs := spentOutputs
          spentOutputsReady := !spentOutputs.isEmpty }
      else { spentOutputs := spentOutputs, spentOutputsReady := !spentOutputs.isEmpty }
    let segwit : PrecomputedTransactionData :=
      if usesSegwit then
        { shared with
          hashPrevouts := sha256UInt256 sha256 shared.prevoutsSingleHash
          hashSequence := sha256UInt256 sha256 shared.sequencesSingleHash
          hashOutputs := sha256UInt256 sha256 shared.outputsSingleHash
          bip143SegwitReady := true }
      else shared
    some <|
      if usesTaproot && segwit.spentOutputsReady then
        { segwit with
          spentAmountsSingleHash := getSpentAmountsSHA256 sha256 spentOutputs
          spentScriptsSingleHash := getSpentScriptsSHA256 sha256 spentOutputs
          bip341TaprootReady := true }
      else segwit

end Precomputed

section Messages

variable (env : External) (sha256 : Bytes → UInt256)

/-- The bytes that `SignatureHash` hashes; `none` stands for a failed assertion
and for the constant returned without hashing anything. -/
def signatureHash (scriptCode : CScript) (txTo : CTransaction) (nIn : ℕ)
    (nHashType : UInt32) (amount : Int64) (sigversion : SigVersion)
    (cache : Option PrecomputedTransactionData) : Option Bytes := do
  let txin ← txTo.vin[nIn]?
  if sigversion = .witnessV0 then
    let ready := cache.filter (·.bip143SegwitReady)
    let hashPrevouts := if isAnyoneCanPay nHashType then 0
      else (ready.map (·.hashPrevouts)).getD
        (sha256UInt256 sha256 (getPrevoutsSHA256 sha256 txTo))
    let hashSequence :=
      if isAnyoneCanPay nHashType || isHashSingle nHashType || isHashNone nHashType then 0
      else (ready.map (·.hashSequence)).getD
        (sha256UInt256 sha256 (getSequencesSHA256 sha256 txTo))
    let hashOutputs :=
      if !isHashSingle nHashType && !isHashNone nHashType then
        (ready.map (·.hashOutputs)).getD
          (sha256UInt256 sha256 (getOutputsSHA256 sha256 txTo))
      else if isHashSingle nHashType then
        ((txTo.vout[nIn]?).map fun out => env.hash256 (serializeTxOut out)).getD 0
      else 0
    return serializeInt32 txTo.nVersion ++
      (if txTo.nVersion < 2 then serializeUInt32 txTo.nTime else []) ++
      serializeUInt256 hashPrevouts ++ serializeUInt256 hashSequence ++
      serializeOutPoint txin.prevout ++ serializeBytes scriptCode ++
      serializeInt64 amount ++ serializeUInt32 txin.nSequence ++
      serializeUInt256 hashOutputs ++ serializeUInt32 txTo.nLockTime ++
      serializeUInt32 nHashType
  else
    guard !(isHashSingle nHashType && decide (txTo.vout.length ≤ nIn))
    return serializeSigned txTo scriptCode nIn nHashType ++ serializeUInt32 nHashType

structure ScriptExecutionData where
  tapleafHash : Option UInt256 := none
  codeseparatorPos : Option UInt32 := none
  /-- Once initialised, the hash of the annex if there is one. -/
  annex : Option (Option UInt256) := none
  outputHash : Option UInt256 := none
  deriving DecidableEq, Repr

/-- The bytes behind `TaggedHash("TapSighash")`. -/
def tapSighashTag : Bytes := "TapSighash".toList.map fun letter => UInt8.ofNat letter.toNat

/-- The bytes that `SignatureHashSchnorr` hashes; `none` stands for a failed
assertion and for a return without a hash. -/
def signatureHashSchnorr (execdata : ScriptExecutionData) (txTo : CTransaction)
    (inPos : ℕ) (hashType : UInt8) (sigversion : SigVersion)
    (cache : PrecomputedTransactionData) : Option Bytes := do
  guard (sigversion = .taproot ∨ sigversion = .tapscript)
  let extFlag : UInt8 := if sigversion = .tapscript then 1 else 0
  let txin ← txTo.vin[inPos]?
  guard (cache.bip341TaprootReady && cache.spentOutputsReady)
  let outputType : UInt8 := if hashType = 0 then 1 else hashType &&& 3
  let inputType : UInt8 := hashType &&& 0x80
  guard (hashType ≤ 0x03 ∨ (0x81 ≤ hashType ∧ hashType ≤ 0x83))
  let annex ← execdata.annex
  let spendType : UInt8 := (extFlag <<< 1) + (if annex.isSome then 1 else 0)
  let input ←
    if inputType = 0x80 then do
      let spent ← cache.spentOutputs[inPos]?
      pure (serializeOutPoint txin.prevout ++ serializeTxOut spent ++
        serializeUInt32 txin.nSequence)
    else pure (serializeUInt32 (UInt32.ofNat inPos))
  let singleOutput ←
    if outputType = 3 then do
      let out ← txTo.vout[inPos]?
      pure (serializeUInt256 (execdata.outputHash.getD (sha256 (serializeTxOut out))))
    else pure []
  let tapscript ←
    if sigversion = .tapscript then do
      let tapleafHash ← execdata.tapleafHash
      let codeseparatorPos ← execdata.codeseparatorPos
      pure (serializeUInt256 tapleafHash ++ [0] ++ serializeUInt32 codeseparatorPos)
    else pure []
  let tag := serializeUInt256 (sha256 tapSighashTag)
  return tag ++ tag ++ [0] ++ [hashType] ++
    serializeInt32 txTo.nVersion ++ serializeUInt32 txTo.nLockTime ++
    (if inputType ≠ 0x80 then
      serializeUInt256 cache.prevoutsSingleHash ++
        serializeUInt256 cache.spentAmountsSingleHash ++
        serializeUInt256 cache.spentScriptsSingleHash ++
        serializeUInt256 cache.sequencesSingleHash
    else []) ++
    (if outputType = 1 then serializeUInt256 cache.outputsSingleHash else []) ++
    [spendType] ++ input ++ annex.elim [] serializeUInt256 ++ singleOutput ++ tapscript

/-- What a signature check is asked about, apart from the transaction. -/
structure SignatureRequest where
  scriptCode : CScript
  nIn : ℕ
  nHashType : UInt32
  amount : Int64
  spentOutputs : List CTxOut
  /-- Whether the checker holds precomputed data. -/
  cached : Bool
  /-- Whether that data covers all features, as it does when signing. -/
  force : Bool
  execdata : ScriptExecutionData
  deriving DecidableEq, Repr

/-- The precomputed data of a checker for a transaction. -/
def SignatureRequest.cache (request : SignatureRequest) (tx : CTransaction) :
    Option (Option PrecomputedTransactionData) :=
  if request.cached then
    (PrecomputedTransactionData.init sha256 tx request.spentOutputs request.force).map some
  else some none

/-- The bytes signed for one input of a transaction. -/
def signedMessage (sigversion : SigVersion) (request : SignatureRequest)
    (tx : CTransaction) : Option Bytes := do
  let cache ← request.cache sha256 tx
  match sigversion with
  | .base | .witnessV0 =>
      signatureHash env sha256 request.scriptCode tx request.nIn request.nHashType
        request.amount sigversion cache
  | .taproot | .tapscript =>
      let cache ← cache
      signatureHashSchnorr sha256 request.execdata tx request.nIn
        (UInt8.ofNat request.nHashType.toNat) sigversion cache

variable {env sha256}

theorem SignatureRequest.exists_cache {request : SignatureRequest} {tx : CTransaction}
    (hspent : request.spentOutputs = [] ∨ request.spentOutputs.length = tx.vin.length) :
    ∃ cache, request.cache sha256 tx = some cache := by
  have hassert : ¬(!request.spentOutputs.isEmpty ∧
      request.spentOutputs.length ≠ tx.vin.length) := by
    rintro ⟨hknown, hlength⟩
    rcases hspent with hempty | hsame
    · simp [hempty] at hknown
    · exact hlength hsame
  unfold SignatureRequest.cache PrecomputedTransactionData.init
  rw [if_neg hassert]
  split_ifs
  · exact ⟨_, rfl⟩
  · exact ⟨_, rfl⟩

/-- Both ECDSA messages hold the timestamp at a fixed offset, behind the
version. -/
theorem exists_signatureHash_frame {scriptCode : CScript} {tx : CTransaction}
    {nIn : ℕ} {nHashType : UInt32} {amount : Int64} (sigversion : SigVersion)
    (cache : Option PrecomputedTransactionData) (hversion : tx.nVersion < 2)
    (hinput : nIn < tx.vin.length) (hsingle : isHashSingle nHashType = false) :
    ∃ suffix, ∀ nTime, signatureHash env sha256 scriptCode { tx with nTime := nTime } nIn
        nHashType amount sigversion cache =
      some (serializeInt32 tx.nVersion ++ (serializeUInt32 nTime ++ suffix)) := by
  by_cases hsigversion : sigversion = .witnessV0
  · apply Exists.intro
    intro nTime
    simp only [signatureHash, getPrevoutsSHA256, getSequencesSHA256, getOutputsSHA256,
      List.getElem?_eq_getElem hinput, hversion, hsigversion, if_true,
      Option.bind_eq_bind, Option.bind_some, List.append_assoc]
    rfl
  · apply Exists.intro
    intro nTime
    simp only [signatureHash, List.getElem?_eq_getElem hinput, hversion, hsigversion, if_true,
      if_false, Option.bind_eq_bind, Option.bind_some, hsingle, Bool.false_and, Bool.not_false,
      guard_true, serializeSigned, List.append_assoc]
    rfl

theorem serializeUInt32_injective : Function.Injective serializeUInt32 := by
  intro left right heq
  have hvalue (word : UInt32) : ofLittleEndian (serializeUInt32 word) = word.toNat :=
    ofLittleEndian_littleEndian word.toNat_lt
  apply UInt32.toNat_inj.mp
  rw [← hvalue left, ← hvalue right, heq]

/-- The message of an input determines the timestamp of its transaction exactly
under the two ECDSA versions: the Schnorr message leaves it out. -/
theorem signedMessage_ne_iff (env : External) (sha256 : Bytes → UInt256)
    (sigversion : SigVersion) (request : SignatureRequest) (tx : CTransaction) (nTime : UInt32)
    (hversion : tx.nVersion < 2) (htime : nTime ≠ tx.nTime) (hinput : request.nIn < tx.vin.length)
    (hspent : request.spentOutputs = [] ∨ request.spentOutputs.length = tx.vin.length)
    (hsingle : isHashSingle request.nHashType = false) :
    signedMessage env sha256 sigversion request { tx with nTime := nTime } ≠
        signedMessage env sha256 sigversion request tx ↔
      sigversion = .base ∨ sigversion = .witnessV0 := by
  have hcache : request.cache sha256 { tx with nTime := nTime } = request.cache sha256 tx := rfl
  obtain ⟨cache, htx⟩ : ∃ cache, request.cache sha256 tx = some cache :=
    SignatureRequest.exists_cache hspent
  have hframe (version : SigVersion) : signatureHash env sha256 request.scriptCode
      { tx with nTime := nTime } request.nIn request.nHashType request.amount version cache ≠
        signatureHash env sha256 request.scriptCode tx request.nIn request.nHashType
          request.amount version cache := by
    obtain ⟨suffix, hsuffix⟩ := exists_signatureHash_frame version cache hversion hinput hsingle
    intro heq
    have hwritten := (hsuffix nTime).symm.trans (heq.trans (hsuffix tx.nTime))
    rw [Option.some.injEq, List.append_right_inj] at hwritten
    have hsame := List.append_inj_left hwritten (by simp [serializeUInt32])
    exact htime (serializeUInt32_injective hsame)
  cases sigversion with
  | base =>
      refine iff_of_true ?_ (.inl rfl)
      simp only [signedMessage, hcache, htx, Option.bind_eq_bind, Option.bind_some]
      exact hframe .base
  | witnessV0 =>
      refine iff_of_true ?_ (.inr rfl)
      simp only [signedMessage, hcache, htx, Option.bind_eq_bind, Option.bind_some]
      exact hframe .witnessV0
  | taproot => exact iff_of_false (fun hne => hne rfl) (by decide)
  | tapscript => exact iff_of_false (fun hne => hne rfl) (by decide)

end Messages

section KeyPath

/-- A transaction that spends a taproot output by its key path. -/
def keyPathSpend : CTransaction where
  vin := [⟨⟨1, 0⟩, [], 0xffffffff, [List.replicate 64 1]⟩]
  vout := [⟨40000, [CScript.op1]⟩]
  nVersion := 1
  nTime := 1700000000
  nLockTime := 0

def keyPathRequest : SignatureRequest where
  scriptCode := []
  nIn := 0
  nHashType := sighashAll
  amount := 50000
  spentOutputs := [⟨50000, CScript.op1 :: 32 :: List.replicate 32 7⟩]
  cached := true
  force := false
  execdata := { annex := some none }

theorem signedMessage_ne_iff_keyPathSpend :
    keyPathSpend.nVersion < 2 ∧
      (signedMessage External.sample External.sample.hash256 .base keyPathRequest
          { keyPathSpend with nTime := 1700000001 } ≠
        signedMessage External.sample External.sample.hash256 .base keyPathRequest
          keyPathSpend ↔
        SigVersion.base = .base ∨ SigVersion.base = .witnessV0) :=
  ⟨by decide, signedMessage_ne_iff External.sample External.sample.hash256 .base keyPathRequest
    keyPathSpend 1700000001 (by decide) (by decide) (by decide) (.inr rfl) (by decide)⟩

/-- One signature serves a taproot spend under two timestamps, hence under two
transaction ids. -/
theorem keyPathSpend_timestamp_not_signed :
    keyPathSpend.nVersion < 2 ∧ keyPathRequest.nHashType = sighashAll ∧
      (signedMessage External.sample External.sample.hash256 .taproot keyPathRequest
        keyPathSpend).isSome ∧
      signedMessage External.sample External.sample.hash256 .taproot keyPathRequest
          { keyPathSpend with nTime := 1700000001 } =
        signedMessage External.sample External.sample.hash256 .taproot keyPathRequest
          keyPathSpend ∧
      serializeTransaction false { keyPathSpend with nTime := 1700000001 } ≠
        serializeTransaction false keyPathSpend :=
  ⟨by decide, rfl, by decide, rfl, by decide⟩

end KeyPath

end FirstIslamicCoin
