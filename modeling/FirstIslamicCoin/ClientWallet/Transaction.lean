import FirstIslamicCoin.ClientWallet.Encoding
import FirstIslamicCoin.Core.Sha256
import FirstIslamicCoin.Primitives.ScriptWalk
import FirstIslamicCoin.Primitives.TransactionCodec

/-!
# Transactions of the wallets

`crypto.js` and `transaction.dart` write transactions of version 2 with their own
serializer and sign each P2PKH input over their own preimage.  The two files are the same
function by function; they differ in how a signature is made low and in the error for a
missing key.  What they write is what the node writes for the transaction it reads, and
the preimage is the node's legacy message.
-/

namespace FirstIslamicCoin.ClientWallet

open ByteCodec

inductive Platform where
  | web
  | mobile
  deriving DecidableEq, Repr

section Writers

/-- `varInt`, `_varInt`. -/
def varInt (n : ℕ) : Bytes :=
  if n < 0xfd then [UInt8.ofNat n]
  else if n ≤ 0xffff then 0xfd :: littleEndian 2 n
  else if n ≤ 0xffffffff then 0xfe :: littleEndian 4 n
  else 0xff :: littleEndian 8 n

/-- `setUint32`: the number is taken modulo 2^32. -/
def uint32le (n : ℤ) : Bytes := littleEndian 4 (n % 2 ^ 32).toNat

/-- `setUint64`, `setBigUint64`. -/
def uint64le (n : ℤ) : Bytes := littleEndian 8 (n % 2 ^ 64).toNat

structure TxInput where
  prevTxid : Bytes
  prevVout : ℤ
  scriptSig : Bytes
  sequence : ℤ
  deriving DecidableEq, Repr

structure TxOutputSpec where
  scriptPubKey : Bytes
  valueSatoshis : ℤ
  deriving DecidableEq, Repr

def serializeInput (input : TxInput) : Bytes :=
  input.prevTxid ++ uint32le input.prevVout ++ varInt input.scriptSig.length ++ input.scriptSig ++
    uint32le input.sequence

def serializeOutput (output : TxOutputSpec) : Bytes :=
  uint64le output.valueSatoshis ++ varInt output.scriptPubKey.length ++ output.scriptPubKey

/-- `serializeTx`, `_serialize`. -/
def serializeTx (version : ℤ) (inputs : List TxInput) (outputs : List TxOutputSpec)
    (locktime : ℤ) : Bytes :=
  uint32le version ++ varInt inputs.length ++ inputs.flatMap serializeInput ++
    varInt outputs.length ++ outputs.flatMap serializeOutput ++ uint32le locktime

def blanked (inputs : List TxInput) (inputIndex : ℕ) (subscript : Bytes) : List TxInput :=
  inputs.zipIdx.map fun entry =>
    { entry.1 with scriptSig := if entry.2 = inputIndex then subscript else [] }

variable (doubleSha256 : Bytes → Bytes)

/-- `legacySighash`, `_legacySighash`. -/
def legacySighash (inputs : List TxInput) (outputs : List TxOutputSpec) (inputIndex : ℕ)
    (subscript : Bytes) (locktime : ℤ) : Bytes :=
  doubleSha256 (serializeTx 2 (blanked inputs inputIndex subscript) outputs locktime ++ uint32le 1)

def p2pkhScriptPubKey (pubkeyHash20 : Bytes) : Bytes :=
  [0x76, 0xa9, 0x14] ++ pubkeyHash20 ++ [0x88, 0xac]

end Writers

section Signatures

def curveOrder : ℕ := 0xfffffffffffffffffffffffffffffffebaaedce6af48a03bbfd25e8cd0364141

/-- The bytes of a number, from its hexadecimal digits; zero has one byte. -/
def bigIntBytes (value : ℕ) : Bytes :=
  if value = 0 then [0] else (digitLoop 256 value []).map UInt8.ofNat

/-- `encodeInt`: an integer of a DER signature. -/
def derEncodeInt (value : ℕ) : Bytes :=
  let bytes := bigIntBytes value
  let bytes := if bytes.head?.any fun first => decide (0x80 ≤ first) then 0 :: bytes else bytes
  0x02 :: UInt8.ofNat bytes.length :: bytes

/-- The `s` that is encoded: the mobile wallet makes it low itself, the library of the web
wallet has done so. -/
def Platform.lowS : Platform → ℕ → ℕ
  | .web, s => s
  | .mobile, s => if curveOrder / 2 < s then curveOrder - s else s

/-- `derEncodeSignature`, `_derEncodeSignature`. -/
def derEncodeSignature (platform : Platform) (signature : ℕ × ℕ) : Bytes :=
  let rEnc := derEncodeInt signature.1
  let sEnc := derEncodeInt (platform.lowS signature.2)
  0x30 :: UInt8.ofNat (rEnc.length + sEnc.length) :: (rEnc ++ sEnc)

def sigWithType (platform : Platform) (signature : ℕ × ℕ) : Bytes :=
  derEncodeSignature platform signature ++ [0x01]

def p2pkhScriptSig (platform : Platform) (signature : ℕ × ℕ) (publicKey : Bytes) : Bytes :=
  UInt8.ofNat (sigWithType platform signature).length :: sigWithType platform signature ++
    UInt8.ofNat publicKey.length :: publicKey

/-- The numbers a digest is signed with under a key. -/
abbrev Sign := Bytes → Bytes → ℕ × ℕ

end Signatures

section Building

structure Utxo where
  txid : Bytes
  vout : ℤ
  pubkeyHash : Bytes
  privateKey : Option Bytes
  publicKeyCompressed : Option Bytes
  sequence : ℤ := 0xfffffffd

def Utxo.unsigned (utxo : Utxo) : TxInput := ⟨utxo.txid, utxo.vout, [], utxo.sequence⟩

/-- What a spend is built from: the outputs, the keys for inputs without their own, and the
lock time. -/
structure SpendOptions where
  outputs : List TxOutputSpec
  privateKey : Option Bytes
  publicKeyCompressed : Option Bytes
  locktime : ℤ := 0

def SpendOptions.keys (options : SpendOptions) (utxo : Utxo) : Option (Bytes × Bytes) := do
  let privateKey ← utxo.privateKey.or options.privateKey
  let publicKey ← utxo.publicKeyCompressed.or options.publicKeyCompressed
  return (privateKey, publicKey)

def Platform.missingKey : Platform → ℕ → String
  | .web, _ => "TypeError"
  | .mobile, i =>
      "Input " ++ toString i ++ " has no signing key (neither its own nor a global fallback)"

variable (platform : Platform) (doubleSha256 : Bytes → Bytes) (sign : Sign)

/-- The body of the loop of `buildAndSignTransaction`. -/
def signInput (options : SpendOptions) (txInputs : List TxInput) (entry : Utxo × ℕ) :
    Except String (List TxInput) :=
  match options.keys entry.1 with
  | none => .error (platform.missingKey entry.2)
  | some (privateKey, publicKey) =>
      let subscript := p2pkhScriptPubKey entry.1.pubkeyHash
      let sighash := legacySighash doubleSha256 txInputs options.outputs entry.2 subscript
        options.locktime
      .ok (txInputs.modify entry.2 fun input =>
        { input with scriptSig := p2pkhScriptSig platform (sign sighash privateKey) publicKey })

def buildAndSignTransaction (inputs : List Utxo) (options : SpendOptions) : Except String Bytes :=
  if inputs.isEmpty then .error "No inputs provided"
  else do
    let txInputs ← inputs.zipIdx.foldlM (signInput platform doubleSha256 sign options)
      (inputs.map Utxo.unsigned)
    return serializeTx 2 txInputs options.outputs options.locktime

end Building

section Signing

variable {platform : Platform} {doubleSha256 : Bytes → Bytes} {sign : Sign}

/-- The preimage does not depend on the scripts the inputs have. -/
theorem blanked_congr {inputs others : List TxInput}
    (hsame : inputs.map (fun input => { input with scriptSig := [] }) =
      others.map fun input => { input with scriptSig := [] }) (inputIndex : ℕ) (subscript : Bytes) :
    blanked inputs inputIndex subscript = blanked others inputIndex subscript := by
  have hcleared : ∀ items : List TxInput, blanked items inputIndex subscript =
      blanked (items.map fun input => { input with scriptSig := [] }) inputIndex subscript := by
    intro items
    rw [blanked, blanked, List.zipIdx_map, List.map_map]
    rfl
  rw [hcleared inputs, hcleared others, hsame]

def inputSignature (doubleSha256 : Bytes → Bytes) (sign : Sign) (inputs : List Utxo)
    (options : SpendOptions) (entry : Utxo × ℕ) (privateKey : Bytes) : ℕ × ℕ :=
  sign (legacySighash doubleSha256 (inputs.map Utxo.unsigned) options.outputs entry.2
    (p2pkhScriptPubKey entry.1.pubkeyHash) options.locktime) privateKey

def signedInput (platform : Platform) (doubleSha256 : Bytes → Bytes) (sign : Sign)
    (inputs : List Utxo) (options : SpendOptions) (entry : Utxo × ℕ) : TxInput :=
  match options.keys entry.1 with
  | none => entry.1.unsigned
  | some (privateKey, publicKey) =>
      { entry.1.unsigned with
        scriptSig := p2pkhScriptSig platform
          (inputSignature doubleSha256 sign inputs options entry privateKey) publicKey }

theorem clear_signedInput (inputs : List Utxo) (options : SpendOptions) (entry : Utxo × ℕ) :
    { signedInput platform doubleSha256 sign inputs options entry with scriptSig := [] } =
      entry.1.unsigned := by
  rw [signedInput]
  split <;> rfl

theorem modify_append_cons {Item : Type} {front : List Item} (item : Item) (rest : List Item)
    (update : Item → Item) {index : ℕ} (hindex : index = front.length) :
    (front ++ item :: rest).modify index update = front ++ update item :: rest := by
  rw [hindex]
  clear hindex
  induction front with
  | nil => rfl
  | cons first front ih =>
    rw [List.cons_append, List.length_cons, List.modify_succ_cons, ih, List.cons_append]

/-- The loop signs one input after the other, each over the unsigned transaction. -/
theorem foldlM_signInput {inputs : List Utxo} {options : SpendOptions}
    (hkeys : ∀ utxo ∈ inputs, (options.keys utxo).isSome) {done todo : List Utxo}
    (hsplit : inputs = done ++ todo) :
    (todo.zipIdx done.length).foldlM (signInput platform doubleSha256 sign options)
        (done.zipIdx.map (signedInput platform doubleSha256 sign inputs options) ++
          todo.map Utxo.unsigned) =
      .ok (inputs.zipIdx.map (signedInput platform doubleSha256 sign inputs options)) := by
  induction todo generalizing done with
  | nil =>
    rw [List.append_nil] at hsplit
    rw [hsplit, List.map_nil, List.append_nil]
    rfl
  | cons utxo todo ih =>
    have hkey : (options.keys utxo).isSome := hkeys utxo (by rw [hsplit]; simp)
    obtain ⟨⟨privateKey, publicKey⟩, hpair⟩ := Option.isSome_iff_exists.mp hkey
    let state := done.zipIdx.map (signedInput platform doubleSha256 sign inputs options) ++
      (utxo :: todo).map Utxo.unsigned
    have hstate : state.map (fun input => { input with scriptSig := [] }) =
        (inputs.map Utxo.unsigned).map fun input => { input with scriptSig := [] } := by
      rw [hsplit, List.map_append, List.map_append, List.map_map, List.map_append]
      congr 1
      rw [List.map_map]
      have hdone : done.map ((fun input : TxInput => { input with scriptSig := [] }) ∘
          Utxo.unsigned) = (done.zipIdx.map Prod.fst).map Utxo.unsigned := by
        rw [List.zipIdx_map_fst]
        rfl
      rw [hdone, List.map_map]
      exact List.map_congr_left fun entry _ => clear_signedInput _ _ _
    have hsigned : signInput platform doubleSha256 sign options state (utxo, done.length) =
        .ok ((done ++ [utxo]).zipIdx.map (signedInput platform doubleSha256 sign inputs options) ++
          todo.map Utxo.unsigned) := by
      have hlength : done.length =
          (done.zipIdx.map (signedInput platform doubleSha256 sign inputs options)).length := by
        rw [List.length_map, List.length_zipIdx]
      have hlast : signedInput platform doubleSha256 sign inputs options (utxo, done.length) =
          { utxo.unsigned with
            scriptSig := p2pkhScriptSig platform
              (inputSignature doubleSha256 sign inputs options (utxo, done.length) privateKey)
              publicKey } := by
        rw [signedInput, hpair]
      rw [signInput, hpair]
      dsimp only
      rw [legacySighash, blanked_congr hstate, List.zipIdx_append, List.map_append]
      congr 1
      rw [List.zipIdx_singleton, Nat.zero_add, List.map_singleton, hlast, List.append_assoc,
        List.singleton_append]
      exact modify_append_cons _ _ _ hlength
    rw [List.zipIdx_cons, List.foldlM_cons, hsigned]
    have hnext := ih (show inputs = (done ++ [utxo]) ++ todo by rw [hsplit]; simp)
    rw [List.length_append, List.length_singleton] at hnext
    exact hnext

theorem buildAndSignTransaction_eq {inputs : List Utxo} (hinputs : inputs ≠ [])
    {options : SpendOptions} (hkeys : ∀ utxo ∈ inputs, (options.keys utxo).isSome) :
    buildAndSignTransaction platform doubleSha256 sign inputs options = .ok (serializeTx 2
        (inputs.zipIdx.map (signedInput platform doubleSha256 sign inputs options))
        options.outputs options.locktime) := by
  have hloop := @foldlM_signInput platform doubleSha256 sign inputs options hkeys [] inputs rfl
  rw [List.zipIdx_nil, List.map_nil, List.nil_append, List.length_nil] at hloop
  rw [buildAndSignTransaction, if_neg (by simpa using hinputs), hloop]
  rfl

end Signing

section Node

/-- An input as the node reads it. -/
def TxInput.toTxIn (input : TxInput) : CTxIn where
  prevout := ⟨BitVec.ofNat 256 (ofLittleEndian input.prevTxid),
    UInt32.ofNat (input.prevVout % 2 ^ 32).toNat⟩
  scriptSig := input.scriptSig
  nSequence := UInt32.ofNat (input.sequence % 2 ^ 32).toNat
  scriptWitness := []

def TxOutputSpec.toTxOut (output : TxOutputSpec) : CTxOut :=
  ⟨Int64.ofInt output.valueSatoshis, output.scriptPubKey⟩

def nodeTransaction (inputs : List TxInput) (outputs : List TxOutputSpec) (locktime : ℤ) :
    CTransaction where
  vin := inputs.map TxInput.toTxIn
  vout := outputs.map TxOutputSpec.toTxOut
  nVersion := 2
  nTime := 0
  nLockTime := UInt32.ofNat (locktime % 2 ^ 32).toNat

theorem varInt_eq (n : ℕ) : varInt n = writeCompactSize n := by
  rw [varInt, writeCompactSize]
  rfl

theorem toNat_mod_lt (n : ℤ) (bits : ℕ) : (n % 2 ^ bits).toNat < 2 ^ bits := by
  have hpos : (0 : ℤ) < 2 ^ bits := by positivity
  have hlt := Int.emod_lt_of_pos n hpos
  have hnonneg := Int.emod_nonneg n hpos.ne'
  zify
  rwa [Int.toNat_of_nonneg hnonneg]

theorem toNat_ofNat_mod (n : ℤ) : (UInt32.ofNat (n % 2 ^ 32).toNat).toNat = (n % 2 ^ 32).toNat :=
  UInt32.toNat_ofNat_of_lt (toNat_mod_lt n 32)

theorem uint32le_eq (n : ℤ) : uint32le n = serializeUInt32 (UInt32.ofNat (n % 2 ^ 32).toNat) := by
  rw [uint32le, serializeUInt32, toNat_ofNat_mod]

theorem uint64le_eq (n : ℤ) : uint64le n = serializeInt64 (Int64.ofInt n) := by
  have hvalue : (Int64.ofInt n).toUInt64.toNat = (n % 2 ^ 64).toNat := BitVec.toNat_ofInt n
  rw [uint64le, serializeInt64, hvalue]

theorem serializeBytes_eq (bytes : Bytes) : serializeBytes bytes = varInt bytes.length ++ bytes := by
  rw [serializeBytes, serializeVector, varInt_eq]
  congr 1
  exact List.flatMap_singleton' bytes

theorem serializeUInt256_ofLittleEndian {bytes : Bytes} (hlength : bytes.length = 32) :
    serializeUInt256 (BitVec.ofNat 256 (ofLittleEndian bytes)) = bytes := by
  have hlt : ofLittleEndian bytes < 2 ^ 256 := by
    have hbound := ofLittleEndian_lt bytes
    rw [hlength] at hbound
    exact hbound
  have hback := littleEndian_ofLittleEndian bytes
  rw [hlength] at hback
  rw [serializeUInt256, BitVec.toNat_ofNat, Nat.mod_eq_of_lt hlt, hback]

theorem serializeInput_eq {input : TxInput} (htxid : input.prevTxid.length = 32) :
    serializeInput input = serializeTxIn input.toTxIn := by
  rw [serializeTxIn, serializeOutPoint, TxInput.toTxIn, serializeUInt256_ofLittleEndian htxid,
    ← uint32le_eq, ← uint32le_eq, serializeBytes_eq, serializeInput, ← List.append_assoc]

theorem serializeOutput_eq (output : TxOutputSpec) :
    serializeOutput output = serializeTxOut output.toTxOut := by
  rw [serializeTxOut, TxOutputSpec.toTxOut, ← uint64le_eq, serializeBytes_eq, serializeOutput,
    List.append_assoc]

theorem flatMap_serializeOutput (outputs : List TxOutputSpec) :
    outputs.flatMap serializeOutput = (outputs.map TxOutputSpec.toTxOut).flatMap serializeTxOut := by
  rw [List.flatMap_map]
  exact congrArg (fun write => outputs.flatMap write) (funext serializeOutput_eq)

theorem hasWitness_nodeTransaction (inputs : List TxInput) (outputs : List TxOutputSpec)
    (locktime : ℤ) : (nodeTransaction inputs outputs locktime).hasWitness = false := by
  rw [CTransaction.hasWitness, nodeTransaction, List.any_eq_false]
  intro txin hmem
  obtain ⟨input, _, rfl⟩ := List.mem_map.mp hmem
  exact Bool.false_ne_true

/-- The wallets write what the node writes. -/
theorem serializeTx_eq (allowWitness : Bool) {inputs : List TxInput}
    (htxids : ∀ input ∈ inputs, input.prevTxid.length = 32) (outputs : List TxOutputSpec)
    (locktime : ℤ) :
    serializeTx 2 inputs outputs locktime =
      serializeTransaction allowWitness (nodeTransaction inputs outputs locktime) := by
  have hinputs : inputs.flatMap serializeInput =
      (inputs.map TxInput.toTxIn).flatMap serializeTxIn := by
    rw [List.flatMap_map]
    exact List.flatMap_congr fun input hmem => serializeInput_eq (htxids input hmem)
  have hversion : uint32le 2 = serializeInt32 2 := by decide
  have huntimed : ¬(nodeTransaction inputs outputs locktime).nVersion < 2 := by
    change ¬(2 : Int32) < 2
    decide
  rw [serializeTransaction, hasWitness_nodeTransaction, Bool.and_false, if_neg huntimed]
  simp only [nodeTransaction, Bool.false_eq_true, if_false, List.append_nil, serializeVector,
    List.length_map, ← varInt_eq, ← uint32le_eq]
  rw [serializeTx, hinputs, flatMap_serializeOutput, hversion]
  simp only [List.append_assoc]

/-- The preimage of the wallets is the node's legacy message. -/
theorem serializeSigned_eq {inputs : List TxInput}
    (htxids : ∀ input ∈ inputs, input.prevTxid.length = 32) {scriptCode : CScript}
    (hcode : serializeScriptCode scriptCode = serializeBytes scriptCode)
    (outputs : List TxOutputSpec) (inputIndex : ℕ) (locktime : ℤ) :
    serializeSigned (nodeTransaction inputs outputs locktime) scriptCode inputIndex sighashAll =
      serializeTx 2 (blanked inputs inputIndex scriptCode) outputs locktime := by
  have hinput : ∀ entry ∈ inputs.zipIdx,
      serializeSignedInput scriptCode inputIndex sighashAll (Prod.map TxInput.toTxIn id entry) =
        serializeInput { entry.1 with
          scriptSig := if entry.2 = inputIndex then scriptCode else [] } := by
    rintro ⟨input, index⟩ hmem
    have htxid : input.prevTxid.length = 32 := htxids input (List.fst_mem_of_mem_zipIdx hmem)
    have hall : ¬(index ≠ inputIndex ∧
        (isHashSingle sighashAll || isHashNone sighashAll) = true) := by
      rintro ⟨-, htype⟩
      exact absurd htype (by decide)
    rw [serializeInput_eq (by exact htxid), serializeSignedInput]
    dsimp only [Prod.map, id]
    rw [if_neg hall, serializeTxIn, TxInput.toTxIn, TxInput.toTxIn]
    dsimp only
    by_cases hindex : index = inputIndex
    · rw [if_neg (not_not.mpr hindex), if_pos hindex, hcode]
    · rw [if_pos hindex, if_neg hindex]
  have hinputs : ((inputs.map TxInput.toTxIn).zipIdx).flatMap
      (serializeSignedInput scriptCode inputIndex sighashAll) =
        (blanked inputs inputIndex scriptCode).flatMap serializeInput := by
    rw [List.zipIdx_map, List.flatMap_map, blanked, List.flatMap_map]
    exact List.flatMap_congr hinput
  have houtputs : ((outputs.map TxOutputSpec.toTxOut).zipIdx).flatMap
      (serializeSignedOutput inputIndex sighashAll) = outputs.flatMap serializeOutput := by
    have hsame : serializeSignedOutput inputIndex sighashAll =
        fun entry => serializeTxOut entry.1 := by
      funext entry
      rw [serializeSignedOutput, if_neg fun hsingle => absurd hsingle.1 (by decide)]
    rw [hsame, ← List.flatMap_map Prod.fst serializeTxOut, List.zipIdx_map_fst,
      flatMap_serializeOutput]
  have hversion : uint32le 2 = serializeInt32 2 := by decide
  have huntimed : ¬(nodeTransaction inputs outputs locktime).nVersion < 2 := by
    change ¬(2 : Int32) < 2
    decide
  have hnone : isHashNone sighashAll = false := by decide
  have hsingle : isHashSingle sighashAll = false := by decide
  have hanyone : isAnyoneCanPay sighashAll = false := by decide
  have hcount : (blanked inputs inputIndex scriptCode).length = inputs.length := by
    rw [blanked, List.length_map, List.length_zipIdx]
  rw [serializeSigned, if_neg huntimed, hnone, hsingle, hanyone]
  simp only [nodeTransaction, Bool.false_eq_true, if_false, List.append_nil, serializeVector,
    List.length_map, List.length_zipIdx, ← varInt_eq, ← uint32le_eq]
  rw [hinputs, houtputs, serializeTx, hversion, hcount]
  simp only [List.append_assoc]

/-- A message the node has for each input. -/
theorem signatureHash_nodeTransaction (env : External) (sha256 : Bytes → UInt256)
    {inputs : List TxInput} (htxids : ∀ input ∈ inputs, input.prevTxid.length = 32)
    {scriptCode : CScript} (hcode : serializeScriptCode scriptCode = serializeBytes scriptCode)
    (outputs : List TxOutputSpec) {inputIndex : ℕ} (hindex : inputIndex < inputs.length)
    (locktime : ℤ) (amount : Int64) (cache : Option PrecomputedTransactionData) :
    signatureHash env sha256 scriptCode (nodeTransaction inputs outputs locktime) inputIndex
        sighashAll amount .base cache =
      some (serializeTx 2 (blanked inputs inputIndex scriptCode) outputs locktime ++
        uint32le 1) := by
  have hinput : (nodeTransaction inputs outputs locktime).vin[inputIndex]? =
      some (inputs[inputIndex]).toTxIn := by
    rw [nodeTransaction, List.getElem?_map, List.getElem?_eq_getElem hindex, Option.map_some]
  have hsingle : isHashSingle sighashAll = false := by decide
  have htype : uint32le 1 = serializeUInt32 sighashAll := by decide
  rw [signatureHash, hinput, hsingle, serializeSigned_eq htxids hcode, ← htype]
  rfl

/-- The operations of a P2PKH script. -/
theorem reads_p2pkhScriptPubKey {hash : Bytes} (hhash : hash.length = 20) :
    CScript.Reads (p2pkhScriptPubKey hash)
      [(0x76, []), (0xa9, []), (0x14, hash), (0x88, []), (0xac, [])] [] := by
  have hpush := @CScript.Reads.push [0x88, 0xac] _ _ hash (by rw [hhash]; decide)
    (.code (by decide) (.code (by decide) (.done [])))
  rw [hhash] at hpush
  exact .code (by decide) (.code (by decide) hpush)

theorem serializeScriptCode_p2pkh {hash : Bytes} (hhash : hash.length = 20) :
    serializeScriptCode (p2pkhScriptPubKey hash) = serializeBytes (p2pkhScriptPubKey hash) := by
  apply serializeScriptCode_eq (reads_p2pkhScriptPubKey hhash)
  simp only [List.forall_mem_cons]
  decide

end Node

section Sizes

theorem length_bigIntBytes_le {value width : ℕ} (hwidth : 0 < width) (hvalue : value < 256 ^ width) :
    (bigIntBytes value).length ≤ width := by
  rw [bigIntBytes]
  split_ifs
  · exact hwidth
  · rw [digitLoop_eq (by decide), List.append_nil, List.length_map, List.length_reverse]
    exact (Nat.digits_length_le_iff (by decide) value).mpr hvalue

theorem length_derEncodeInt_le {value : ℕ} (hvalue : value < 256 ^ 32) :
    (derEncodeInt value).length ≤ 35 := by
  have hbytes := length_bigIntBytes_le (by decide) hvalue
  rw [derEncodeInt]
  split_ifs <;> simp only [List.length_cons] <;> omega

variable {platform : Platform} {signature : ℕ × ℕ}

theorem lowS_lt {s : ℕ} (hs : s < curveOrder) : platform.lowS s < curveOrder := by
  cases platform with
  | web => exact hs
  | mobile =>
    rw [Platform.lowS]
    split_ifs with hhigh
    · have hpos : 0 < s := Nat.zero_lt_of_lt hhigh
      omega
    · exact hs

/-- A signature with its hash type has at most 73 bytes. -/
theorem length_sigWithType_le (hr : signature.1 < curveOrder) (hs : signature.2 < curveOrder) :
    (sigWithType platform signature).length ≤ 73 := by
  have horder : curveOrder < 256 ^ 32 := by decide
  have hleft := length_derEncodeInt_le (hr.trans horder)
  have hright := length_derEncodeInt_le ((@lowS_lt platform _ hs).trans horder)
  rw [sigWithType, derEncodeSignature]
  simp only [List.length_append, List.length_cons, List.length_nil]
  omega

theorem length_p2pkhScriptSig_le (hr : signature.1 < curveOrder) (hs : signature.2 < curveOrder)
    {publicKey : Bytes} (hkey : publicKey.length = 33) :
    (p2pkhScriptSig platform signature publicKey).length ≤ 108 := by
  have hsignature := @length_sigWithType_le platform _ hr hs
  rw [p2pkhScriptSig]
  simp only [List.length_append, List.length_cons]
  omega

end Sizes

section Meaning

/-- An input that can be written: its fields fit, and there are keys for it. -/
structure Utxo.Valid (options : SpendOptions) (utxo : Utxo) : Prop where
  txid : utxo.txid.length = 32
  vout : 0 ≤ utxo.vout ∧ utxo.vout < 2 ^ 32
  sequence : 0 ≤ utxo.sequence ∧ utxo.sequence < 2 ^ 32
  pubkeyHash : utxo.pubkeyHash.length = 20
  keys : ∃ privateKey publicKey : Bytes,
    options.keys utxo = some (privateKey, publicKey) ∧ publicKey.length = 33

structure TxOutputSpec.Valid (output : TxOutputSpec) : Prop where
  value : 0 ≤ output.valueSatoshis ∧ output.valueSatoshis < 2 ^ 63
  script : output.scriptPubKey.length ≤ maxSize

/-- What the wallet was asked to spend and pay is what a transaction does. -/
structure Agrees (inputs : List Utxo) (options : SpendOptions) (tx : CTransaction) : Prop where
  version : tx.nVersion = 2
  inputs : List.Forall₂ (fun (utxo : Utxo) (txin : CTxIn) =>
    serializeUInt256 txin.prevout.hash = utxo.txid ∧ (txin.prevout.n.toNat : ℤ) = utxo.vout ∧
      (txin.nSequence.toNat : ℤ) = utxo.sequence ∧ txin.scriptWitness = []) inputs tx.vin
  outputs : List.Forall₂ (fun (output : TxOutputSpec) (txout : CTxOut) =>
    txout.scriptPubKey = output.scriptPubKey ∧ txout.nValue.toInt = output.valueSatoshis)
      options.outputs tx.vout
  locktime : (tx.nLockTime.toNat : ℤ) = options.locktime

/-- The script of an input carries the signature of the double hash of a message. -/
def SignedOver (platform : Platform) (doubleSha256 : Bytes → Bytes) (sign : Sign)
    (options : SpendOptions) (utxo : Utxo) (message scriptSig : Bytes) : Prop :=
  ∃ privateKey publicKey : Bytes, options.keys utxo = some (privateKey, publicKey) ∧
    scriptSig = p2pkhScriptSig platform (sign (doubleSha256 message) privateKey) publicKey

section Reading

variable {platform : Platform} {doubleSha256 : Bytes → Bytes} {sign : Sign} {inputs : List Utxo}
  {options : SpendOptions}

theorem wireForm_nodeTransaction (allowWitness : Bool) (txInputs : List TxInput)
    (outputs : List TxOutputSpec) (locktime : ℤ) :
    (nodeTransaction txInputs outputs locktime).wireForm allowWitness =
      nodeTransaction txInputs outputs locktime := by
  have hinput : CTxIn.wireForm allowWitness ∘ TxInput.toTxIn = TxInput.toTxIn := by
    funext input
    cases allowWitness <;> rfl
  rw [CTransaction.wireForm, nodeTransaction, List.map_map, hinput]
  rfl

/-- What the node reads is what the wallet serialized. -/
theorem readTransaction_serializeTx (allowWitness : Bool) {txInputs : List TxInput}
    (hinputs : txInputs ≠ []) (htxids : ∀ input ∈ txInputs, input.prevTxid.length = 32)
    {outputs : List TxOutputSpec} {locktime : ℤ}
    (hfits : (nodeTransaction txInputs outputs locktime).Fits maxSize) :
    readTransaction maxSize allowWitness (serializeTx 2 txInputs outputs locktime) =
      some (nodeTransaction txInputs outputs locktime, []) := by
  have hvin : (nodeTransaction txInputs outputs locktime).vin ≠ [] := by
    rw [nodeTransaction]
    exact List.map_eq_nil_iff.not.mpr hinputs
  have hread := readTransaction_recovers (by decide) allowWitness hfits (fun _ => hvin) []
  rwa [wireForm_nodeTransaction, ← serializeTx_eq allowWitness htxids, List.append_nil] at hread

theorem signedInput_eq {entry : Utxo × ℕ} {privateKey publicKey : Bytes}
    (hkeys : options.keys entry.1 = some (privateKey, publicKey)) :
    signedInput platform doubleSha256 sign inputs options entry = { entry.1.unsigned with
        scriptSig := p2pkhScriptSig platform
          (inputSignature doubleSha256 sign inputs options entry privateKey) publicKey } := by
  rw [signedInput, hkeys]

theorem unsigned_of_signedInput (entry : Utxo × ℕ) :
    (signedInput platform doubleSha256 sign inputs options entry).prevTxid = entry.1.txid ∧
      (signedInput platform doubleSha256 sign inputs options entry).prevVout = entry.1.vout ∧
      (signedInput platform doubleSha256 sign inputs options entry).sequence =
        entry.1.sequence := by
  rw [signedInput]
  split <;> exact ⟨rfl, rfl, rfl⟩

def signedInputs (platform : Platform) (doubleSha256 : Bytes → Bytes) (sign : Sign)
    (inputs : List Utxo) (options : SpendOptions) : List TxInput :=
  inputs.zipIdx.map (signedInput platform doubleSha256 sign inputs options)

theorem txid_of_mem_signedInputs (hutxos : ∀ utxo ∈ inputs, utxo.Valid options)
    {input : TxInput} (hmem : input ∈ signedInputs platform doubleSha256 sign inputs options) :
    input.prevTxid.length = 32 := by
  obtain ⟨entry, hentry, rfl⟩ := List.mem_map.mp hmem
  rw [(unsigned_of_signedInput entry).1]
  exact (hutxos entry.1 (List.fst_mem_of_mem_zipIdx hentry)).txid

theorem blanked_signedInputs (inputIndex : ℕ) (subscript : Bytes) :
    blanked (signedInputs platform doubleSha256 sign inputs options) inputIndex subscript =
      blanked (inputs.map Utxo.unsigned) inputIndex subscript := by
  apply blanked_congr
  have hcleared : (fun input : TxInput => { input with scriptSig := [] }) ∘
      signedInput platform doubleSha256 sign inputs options = Utxo.unsigned ∘ Prod.fst :=
    funext fun entry => clear_signedInput inputs options entry
  rw [signedInputs, List.map_map, hcleared, ← List.map_map, List.zipIdx_map_fst, List.map_map]
  rfl

theorem fits_signedInputs (hsign : ∀ digest privateKey,
      (sign digest privateKey).1 < curveOrder ∧ (sign digest privateKey).2 < curveOrder)
    (hutxos : ∀ utxo ∈ inputs, utxo.Valid options)
    (houtputs : ∀ output ∈ options.outputs, output.Valid)
    (hcount : inputs.length ≤ maxSize) (hpaid : options.outputs.length ≤ maxSize) :
    (nodeTransaction (signedInputs platform doubleSha256 sign inputs options) options.outputs
      options.locktime).Fits maxSize where
  vin := by
    rw [nodeTransaction, List.length_map, signedInputs, List.length_map, List.length_zipIdx]
    exact hcount
  vout := by
    rw [nodeTransaction, List.length_map]
    exact hpaid
  input := by
    intro txin hmem
    obtain ⟨input, hinput, rfl⟩ := List.mem_map.mp hmem
    obtain ⟨entry, hentry, rfl⟩ := List.mem_map.mp hinput
    obtain ⟨privateKey, publicKey, hkeys, hlength⟩ :=
      (hutxos entry.1 (List.fst_mem_of_mem_zipIdx hentry)).keys
    have hscript : (signedInput platform doubleSha256 sign inputs options
        entry).scriptSig.length ≤ 108 := by
      rw [signedInput_eq hkeys]
      exact length_p2pkhScriptSig_le (hsign _ _).1 (hsign _ _).2 hlength
    exact ⟨hscript.trans (by decide), Nat.zero_le _, nofun⟩
  output := by
    intro txout hmem
    obtain ⟨output, houtput, rfl⟩ := List.mem_map.mp hmem
    exact (houtputs output houtput).script

theorem forall₂_map_zipIdx {Item Result : Type} {items : List Item} {convert : Item × ℕ → Result}
    {relation : Item → Result → Prop}
    (hitem : ∀ entry ∈ items.zipIdx, relation entry.1 (convert entry)) :
    List.Forall₂ relation items (items.zipIdx.map convert) := by
  have hpairs : List.Forall₂ relation (items.zipIdx.map Prod.fst) (items.zipIdx.map convert) := by
    rw [List.forall₂_map_left_iff, List.forall₂_map_right_iff, List.forall₂_same]
    exact hitem
  rwa [List.zipIdx_map_fst] at hpairs

theorem toNat_ofNat_mod_of_lt {n : ℤ} (hn : 0 ≤ n ∧ n < 2 ^ 32) :
    ((UInt32.ofNat (n % 2 ^ 32).toNat).toNat : ℤ) = n := by
  rw [toNat_ofNat_mod, Int.emod_eq_of_lt hn.1 hn.2, Int.toNat_of_nonneg hn.1]

theorem agrees_signedInputs (hutxos : ∀ utxo ∈ inputs, utxo.Valid options)
    (houtputs : ∀ output ∈ options.outputs, output.Valid)
    (hlocktime : 0 ≤ options.locktime ∧ options.locktime < 2 ^ 32) :
    Agrees inputs options (nodeTransaction
      (signedInputs platform doubleSha256 sign inputs options) options.outputs
      options.locktime) where
  version := rfl
  inputs := by
    rw [nodeTransaction, signedInputs, List.map_map]
    apply forall₂_map_zipIdx
    intro entry hentry
    have hvalid := hutxos entry.1 (List.fst_mem_of_mem_zipIdx hentry)
    obtain ⟨htxid, hvout, hsequence⟩ :=
      @unsigned_of_signedInput platform doubleSha256 sign inputs options entry
    rw [Function.comp_apply, TxInput.toTxIn, htxid, hvout, hsequence]
    exact ⟨serializeUInt256_ofLittleEndian hvalid.txid, toNat_ofNat_mod_of_lt hvalid.vout,
      toNat_ofNat_mod_of_lt hvalid.sequence, rfl⟩
  outputs := by
    rw [nodeTransaction, List.forall₂_map_right_iff, List.forall₂_same]
    intro output hmem
    have hvalue := (houtputs output hmem).value
    exact ⟨rfl, Int64.toInt_ofInt_of_le (by omega) (by omega)⟩
  locktime := toNat_ofNat_mod_of_lt hlocktime

end Reading

theorem wallet_transactions_mean_signed (platform : Platform) (env : External)
    (sha256 : Bytes → UInt256) (doubleSha256 : Bytes → Bytes) (sign : Sign)
    (hsign : ∀ digest privateKey,
      (sign digest privateKey).1 < curveOrder ∧ (sign digest privateKey).2 < curveOrder)
    (inputs : List Utxo) (hinputs : inputs ≠ []) (options : SpendOptions)
    (hutxos : ∀ utxo ∈ inputs, utxo.Valid options)
    (houtputs : ∀ output ∈ options.outputs, output.Valid)
    (hlocktime : 0 ≤ options.locktime ∧ options.locktime < 2 ^ 32)
    (hcount : inputs.length ≤ maxSize) (hpaid : options.outputs.length ≤ maxSize)
    (allowWitness : Bool) :
    ∃ bytes tx, buildAndSignTransaction platform doubleSha256 sign inputs options = .ok bytes ∧
      readTransaction maxSize allowWitness bytes = some (tx, []) ∧ Agrees inputs options tx ∧
      ∀ index utxo txin amount cache, inputs[index]? = some utxo → tx.vin[index]? = some txin →
        ∃ message, signatureHash env sha256 (p2pkhScriptPubKey utxo.pubkeyHash) tx index
            sighashAll amount .base cache = some message ∧
          SignedOver platform doubleSha256 sign options utxo message txin.scriptSig := by
  have hkeys : ∀ utxo ∈ inputs, (options.keys utxo).isSome := by
    intro utxo hmem
    obtain ⟨privateKey, publicKey, hpair, -⟩ := (hutxos utxo hmem).keys
    rw [hpair, Option.isSome_some]
  have htxids := fun input =>
    @txid_of_mem_signedInputs platform doubleSha256 sign inputs options hutxos input
  have hsigned : signedInputs platform doubleSha256 sign inputs options ≠ [] := by
    rw [signedInputs, Ne, List.map_eq_nil_iff, List.zipIdx_eq_nil_iff]
    exact hinputs
  refine ⟨_, _, buildAndSignTransaction_eq hinputs hkeys,
    readTransaction_serializeTx allowWitness hsigned htxids
      (fits_signedInputs hsign hutxos houtputs hcount hpaid),
    agrees_signedInputs hutxos houtputs hlocktime, ?_⟩
  intro index utxo txin amount cache hutxo htxin
  obtain ⟨hindex, hget⟩ := List.getElem?_eq_some_iff.mp hutxo
  have hvalid := hutxos utxo (List.mem_of_getElem? hutxo)
  obtain ⟨privateKey, publicKey, hpair, -⟩ := hvalid.keys
  have hlength : index < (signedInputs platform doubleSha256 sign inputs options).length := by
    rw [signedInputs, List.length_map, List.length_zipIdx]
    exact hindex
  refine ⟨_, signatureHash_nodeTransaction env sha256 htxids
    (serializeScriptCode_p2pkh hvalid.pubkeyHash) options.outputs hlength options.locktime amount
    cache, privateKey, publicKey, hpair, ?_⟩
  have hentry : (signedInputs platform doubleSha256 sign inputs options)[index]? =
      some (signedInput platform doubleSha256 sign inputs options (utxo, index)) := by
    rw [signedInputs, List.getElem?_map, List.getElem?_zipIdx, hutxo, Nat.zero_add]
    rfl
  have htx : some ((signedInput platform doubleSha256 sign inputs options
      (utxo, index)).toTxIn) = some txin := by
    rw [← htxin, nodeTransaction, List.getElem?_map, hentry]
    rfl
  rw [← Option.some.inj htx, @signedInput_eq _ _ _ _ _ (utxo, index) _ _ hpair, blanked_signedInputs]
  rfl

/-- The public keys of the private keys one, two and three. -/
def sampleKey (privateKey : ℕ) : Bytes :=
  2 :: (littleEndian 32 (match privateKey with
    | 1 => 0x79be667ef9dcbbac55a06295ce870b07029bfcdb2dce28d959f2815b16f81798
    | 2 => 0xc6047f9441ed7d6d3045406e95c07cd85c778e4b8cef3ca7abac09b95c709ee5
    | _ => 0xf9308a019258c31049344f85f89d5229b531c845836f99b08601f113bce036f9)).reverse

def samplePrivateKey (privateKey : ℕ) : Bytes :=
  (littleEndian 32 privateKey).reverse

/-- RIPEMD-160 of SHA-256 of the first public key. -/
def sampleKeyHash : Bytes :=
  (littleEndian 20 0x751e76e8199196d454941c45d1b3a323f1433bd6).reverse

def sampleUtxo : Utxo where
  txid := List.replicate 32 0
  vout := 0
  pubkeyHash := sampleKeyHash
  privateKey := none
  publicKeyCompressed := none

def sampleSpend (outputs : List TxOutputSpec) : SpendOptions where
  outputs := outputs
  privateKey := some (samplePrivateKey 1)
  publicKeyCompressed := some (sampleKey 1)

/-- The signature by the first key of the spend of `sampleUtxo` to seven units
behind `OP_1`. -/
def sampleSign : Sign := fun _ _ =>
  (0x0b68c782c648d890043682f4f11878166e531445b67da8469bc0b8754ecc0e82,
    0x75bc7ec9edd37b45edb50c1a615df50803cf729ae1f247bb225cfd5716ff2257)

def sampleSha256 (bytes : Bytes) : UInt256 :=
  BitVec.ofNat 256 (ofLittleEndian (Sha256.sha256 bytes))

theorem valid_sampleUtxo (outputs : List TxOutputSpec) :
    sampleUtxo.Valid (sampleSpend outputs) where
  txid := rfl
  vout := by decide
  sequence := by decide
  pubkeyHash := rfl
  keys := ⟨_, _, rfl, rfl⟩

theorem wallet_transactions_mean_signed_sample :
    ∃ bytes tx, buildAndSignTransaction .mobile Sha256.doubleSha256 sampleSign [sampleUtxo]
        (sampleSpend [⟨[0x51], 7⟩]) = .ok bytes ∧
      readTransaction maxSize true bytes = some (tx, []) ∧
      Agrees [sampleUtxo] (sampleSpend [⟨[0x51], 7⟩]) tx := by
  obtain ⟨bytes, tx, hbuilt, hread, hagrees, -⟩ :=
    wallet_transactions_mean_signed .mobile .sample sampleSha256 Sha256.doubleSha256
      sampleSign (fun _ _ => by unfold sampleSign; decide) [sampleUtxo] (List.cons_ne_nil _ _) (sampleSpend [⟨[0x51], 7⟩])
      (List.forall_mem_singleton.mpr (valid_sampleUtxo _))
      (List.forall_mem_singleton.mpr ⟨by decide, by decide⟩) (by decide) (by decide) (by decide)
      true
  exact ⟨bytes, tx, hbuilt, hread, hagrees⟩

/-- A transaction with more inputs than the node reads is refused. -/
theorem readTransaction_crowded {txInputs : List TxInput}
    (htxids : ∀ input ∈ txInputs, input.prevTxid.length = 32) (hcount : txInputs.length < 2 ^ 64)
    (hlimit : maxSize < txInputs.length) (outputs : List TxOutputSpec) (locktime : ℤ) :
    readTransaction maxSize true (serializeTx 2 txInputs outputs locktime) = none := by
  have hlength : (nodeTransaction txInputs outputs locktime).vin.length = txInputs.length := by
    rw [nodeTransaction, List.length_map]
  have hinputs : (readVector maxSize (readTxIn maxSize)).Rejects (serializeVector serializeTxIn
      (nodeTransaction txInputs outputs locktime).vin) := by
    apply Reader.Rejects.andThen
    rw [hlength]
    exact readCompactSize_rejects hcount hlimit
  have hrejects : (readTransaction maxSize true).Rejects
      (serializeTransaction true (nodeTransaction txInputs outputs locktime)) := by
    rw [serializeTransaction, hasWitness_nodeTransaction]
    simp only [Bool.and_false, Bool.false_eq_true, if_false, List.append_assoc, List.nil_append]
    exact (readInt32_recovers _).andThen_rejects
      ((readTime_recovers _).andThen_rejects (hinputs.andThen _ _))
  have hread := hrejects []
  rwa [List.append_nil, ← serializeTx_eq true htxids] at hread

/-- More inputs than the node reads: the wallet builds and signs the transaction, and its
bytes are refused. -/
theorem crowded_transaction_not_read :
    ∃ inputs : List Utxo, inputs ≠ [] ∧ (∀ utxo ∈ inputs, utxo.Valid (sampleSpend [])) ∧
      ∀ doubleSha256 sign, ∃ bytes,
        buildAndSignTransaction .mobile doubleSha256 sign inputs (sampleSpend []) = .ok bytes ∧
          readTransaction maxSize true bytes = none := by
  have hvalid : ∀ utxo ∈ List.replicate (maxSize + 1) sampleUtxo,
      utxo.Valid (sampleSpend []) := by
    intro utxo hmem
    rw [List.eq_of_mem_replicate hmem]
    exact valid_sampleUtxo []
  have hkeys : ∀ utxo ∈ List.replicate (maxSize + 1) sampleUtxo,
      ((sampleSpend []).keys utxo).isSome := by
    intro utxo hmem
    rw [List.eq_of_mem_replicate hmem]
    rfl
  have hsome : List.replicate (maxSize + 1) sampleUtxo ≠ [] := by
    rw [Ne, List.replicate_eq_nil_iff]
    exact Nat.succ_ne_zero _
  refine ⟨List.replicate (maxSize + 1) sampleUtxo, hsome, hvalid, fun doubleSha256 sign => ?_⟩
  have hlength : (signedInputs .mobile doubleSha256 sign
      (List.replicate (maxSize + 1) sampleUtxo) (sampleSpend [])).length = maxSize + 1 := by
    rw [signedInputs, List.length_map, List.length_zipIdx, List.length_replicate]
  refine ⟨_, buildAndSignTransaction_eq hsome hkeys, readTransaction_crowded ?_ ?_ ?_ _ _⟩
  · exact fun input => txid_of_mem_signedInputs hvalid
  · exact hlength.trans_lt (by decide)
  · exact (Nat.lt_succ_self maxSize).trans_eq hlength.symm

end Meaning

end FirstIslamicCoin.ClientWallet
