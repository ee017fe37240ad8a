import FirstIslamicCoin.Wallet.Solver

/-!
# Script managers of a wallet

`wallet/scriptpubkeyman.cpp` and the parts of `wallet/wallet.cpp` that ask it
which scripts belong to a wallet and who can help to sign for them.  A legacy
manager reasons about keys; a descriptor manager looks the exact script up.
Ownership falls back to the script of the destination, help with signing does
not.
-/

namespace FirstIslamicCoin

open ByteCodec

section Managers

/-- `LegacyScriptPubKeyMan`: the public keys whose private keys it holds, and
what it watches. -/
structure LegacyScriptPubKeyMan where
  keys : List Bytes
  /-- Whether private keys can be read, the wallet not being locked. -/
  unlocked : Bool
  watchKeys : List Bytes
  scripts : List CScript
  watchOnly : List CScript
  keys_valid : ∀ key ∈ keys, isCompressedOrUncompressedPubKey key = true

/-- `FlatSigningProvider`, as far as it is read here. -/
structure FlatSigningProvider where
  pubkeys : List Bytes
  scripts : List CScript
  pubkeys_valid : ∀ key ∈ pubkeys, isCompressedOrUncompressedPubKey key = true

/-- `DescriptorScriptPubKeyMan`: the scripts its descriptor expands to, by
index, and the data that goes with an index. -/
structure DescriptorScriptPubKeyMan where
  mapScriptPubKeys : CScript → Option ℤ
  expandFromCache : ℤ → FlatSigningProvider

/-- The managers of a wallet: one legacy manager, or any number of
descriptors. -/
inductive ScriptPubKeyMans where
  | legacy (man : LegacyScriptPubKeyMan)
  | descriptors (mans : List DescriptorScriptPubKeyMan)

/-- `SigningProvider`: a legacy manager itself, or the data of a descriptor. -/
inductive SigningProvider where
  | legacy (man : LegacyScriptPubKeyMan)
  | flat (provider : FlatSigningProvider)

/-- What a descriptor says about an input that satisfies it: its weight, the
number of its stack elements, and whether they are witness data. -/
structure Satisfaction where
  weight : ℕ
  elems : ℕ
  isSegwit : Bool
  deriving DecidableEq, Repr

/-- What wallet code calls but this development does not define. -/
structure WalletEnv where
  /-- `Hash160`. -/
  hash160 : Bytes → Bytes
  /-- `RIPEMD160`. -/
  ripemd160 : Bytes → Bytes
  /-- Whether `ProduceSignature` with a dummy signer finds a signature by a key
  of the manager. -/
  producesSignature : LegacyScriptPubKeyMan → CScript → Bool
  /-- `GetAffectedKeys`. -/
  getAffectedKeys : LegacyScriptPubKeyMan → CScript → List Bytes
  /-- `InferDescriptor` and its `MaxSatisfactionWeight`, for scripts that are not
  for a single key hash or key: multisignatures, script hashes and taproot. -/
  inferOther : SigningProvider → CScript → Bool → Option Satisfaction

end Managers

section Legacy

variable (env : WalletEnv) (man : LegacyScriptPubKeyMan)

namespace LegacyScriptPubKeyMan

def getKey (keyID : Bytes) : Option Bytes :=
  if man.unlocked then man.keys.find? fun key => env.hash160 key == keyID else none

def haveKey (keyID : Bytes) : Bool := man.keys.any fun key => env.hash160 key == keyID

def getPubKey (keyID : Bytes) : Option Bytes :=
  (man.keys ++ man.watchKeys).find? fun key => env.hash160 key == keyID

def getCScript (scriptID : Bytes) : Option CScript :=
  man.scripts.find? fun script => env.hash160 script == scriptID

end LegacyScriptPubKeyMan

inductive IsMineSigVersion where
  | top
  | p2sh
  | witnessV0
  deriving DecidableEq, Repr

/-- `IsMineResult`, in ascending order. -/
inductive IsMineResult where
  | no
  | watchOnly
  | spendable
  | invalid
  deriving DecidableEq, Repr

/-- The decision of `IsMineInner` by the form of the script, `sub` deciding a
script inside it; `none` stands for an immediate return as invalid. -/
def isMineByForm (sub : CScript → IsMineSigVersion → IsMineResult) (scriptPubKey : CScript)
    (sigversion : IsMineSigVersion) (recurseScripthash : Bool) : Option IsMineResult :=
  let spendableIf (condition : Bool) : IsMineResult := if condition then .spendable else .no
  let inner (subscript : Option CScript) (version : IsMineSigVersion) : IsMineResult :=
    match subscript with
    | none => .no
    | some subscript => if recurseScripthash then sub subscript version else .spendable
  match solver scriptPubKey with
  | (.pubkey, key :: _) =>
      if sigversion = .witnessV0 ∧ key.length ≠ 33 then none
      else some (spendableIf (man.haveKey env (env.hash160 key)))
  | (.witnessV0Keyhash, keyID :: _) =>
      if sigversion = .witnessV0 then none
      else if sigversion = .top ∧ (man.getCScript env (env.hash160
          ([CScript.op0] ++ CScript.pushData keyID))).isNone then some .no
      else some (sub (getScriptForDestination (.pkHash keyID)) .witnessV0)
  | (.pubkeyhash, keyID :: _) =>
      if sigversion = .witnessV0 ∧
          (man.getPubKey env keyID).any (fun key => key.length != 33) then none
      else some (spendableIf (man.haveKey env keyID))
  | (.scripthash, scriptID :: _) =>
      if sigversion ≠ .top then none else some (inner (man.getCScript env scriptID) .p2sh)
  | (.witnessV0Scripthash, program :: _) =>
      if sigversion = .witnessV0 then none
      else if sigversion = .top ∧ (man.getCScript env (env.hash160
          ([CScript.op0] ++ CScript.pushData program))).isNone then some .no
      else some (inner (man.getCScript env (env.ripemd160 program)) .witnessV0)
  | (.multisig, solutions) =>
      let keys := solutions.tail.dropLast
      if sigversion = .top then some .no
      else if sigversion = .witnessV0 ∧ keys.any (fun key => key.length != 33) then none
      else some (spendableIf (keys.all fun key => man.haveKey env (env.hash160 key)))
  | _ => some .no

/-- `IsMineInner`.  Scripts nest at most three deep: a script, one behind its
hash, and one behind a witness hash in that. -/
def isMineInner : ℕ → CScript → IsMineSigVersion → Bool → IsMineResult
  | 0, _, _, _ => .no
  | depth + 1, scriptPubKey, sigversion, recurseScripthash =>
      match isMineByForm env man (fun script version => isMineInner depth script version true)
          scriptPubKey sigversion recurseScripthash with
      | none => .invalid
      | some ret =>
          if ret = .no ∧ scriptPubKey ∈ man.watchOnly then .watchOnly else ret

def LegacyScriptPubKeyMan.canProvide (script : CScript) : Bool :=
  let ismine := isMineInner env man 3 script .top false
  if ismine = .spendable ∨ ismine = .watchOnly then true
  else env.producesSignature man script

end Legacy

section Wallet

/-- `isminetype`, in ascending order. -/
inductive IsMineType where
  | no
  | watchOnly
  | spendable
  deriving DecidableEq, Repr

variable (env : WalletEnv)

def SigningProvider.getPubKey (keyID : Bytes) : SigningProvider → Option Bytes
  | .legacy man => man.getPubKey env keyID
  | .flat provider => provider.pubkeys.find? fun key => env.hash160 key == keyID

def SigningProvider.getCScript (scriptID : Bytes) : SigningProvider → Option CScript
  | .legacy man => man.getCScript env scriptID
  | .flat provider => provider.scripts.find? fun script => env.hash160 script == scriptID

namespace ScriptPubKeyMans

/-- `CWallet::IsMine` of a script. -/
def isMine (mans : ScriptPubKeyMans) (script : CScript) : IsMineType :=
  match mans with
  | .legacy man =>
      match isMineInner env man 3 script .top true with
      | .invalid | .no => .no
      | .watchOnly => .watchOnly
      | .spendable => .spendable
  | .descriptors mans =>
      if mans.any fun man => (man.mapScriptPubKeys script).isSome then .spendable else .no

/-- `CWallet::IsMine` of an output: a script that is not ours may still pay to
a destination whose script is. -/
def isMineOut (mans : ScriptPubKeyMans) (out : CTxOut) : IsMineType :=
  match mans.isMine env out.scriptPubKey with
  | .no =>
      let address := (extractDestination env.hash160 out.scriptPubKey).getD
        (.noDestination out.scriptPubKey)
      mans.isMine env (getScriptForDestination address)
  | mine => mine

/-- `CWallet::GetSolvingProvider`: the first manager that can provide for this
very script. -/
def getSolvingProvider (mans : ScriptPubKeyMans) (script : CScript) : Option SigningProvider :=
  match mans with
  | .legacy man => if man.canProvide env script then some (.legacy man) else none
  | .descriptors mans =>
      mans.findSome? fun man => (man.mapScriptPubKeys script).map fun index =>
        .flat (man.expandFromCache index)

def isLegacy : ScriptPubKeyMans → Bool
  | .legacy _ => true
  | .descriptors _ => false

end ScriptPubKeyMans

end Wallet

end FirstIslamicCoin
