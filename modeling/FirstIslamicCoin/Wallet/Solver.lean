import FirstIslamicCoin.Primitives.Compressor
import FirstIslamicCoin.Validation.CheckBlock

/-!
# Standard output scripts

`script/solver.cpp` and `addresstype.cpp`: the recognised forms of an output
script with the data in them, the destination such a script pays to, and the
script that pays to a destination.  A pay-to-pubkey script counts as paying to
the hash of its key, so it is one of two scripts with the same destination.
-/

namespace FirstIslamicCoin

open ByteCodec

inductive TxoutType where
  | nonstandard
  | pubkey
  | pubkeyhash
  | scripthash
  | multisig
  | nullData
  | witnessV0Scripthash
  | witnessV0Keyhash
  | witnessV1Taproot
  | witnessUnknown
  deriving DecidableEq, Repr

section Multisig

def checkMinimalPush (data : Bytes) (opcode : UInt8) : Bool :=
  match data with
  | [] => opcode == CScript.op0
  | [byte] => !(1 ≤ byte && byte ≤ 16) && byte != 0x81 && opcode == 1
  | _ =>
      if data.length ≤ 75 then opcode.toNat == data.length
      else if data.length ≤ 255 then opcode == CScript.opPushData1
      else if data.length ≤ 65535 then opcode == CScript.opPushData2
      else true

/-- `CScriptNum(data, true).getint()`, for data of at most four bytes. -/
def minimalScriptNum (data : Bytes) : Option ℤ :=
  match data.getLast? with
  | none => some 0
  | some top =>
      if 4 < data.length then none
      else if top &&& 0x7f = 0 ∧
          (data.length ≤ 1 ∨ (data.dropLast.getLastD 0) &&& 0x80 = 0) then none
      else if top &&& 0x80 = 0 then some (ofLittleEndian data)
      else some (-((ofLittleEndian data : ℤ) - 0x80 * 256 ^ (data.length - 1)))

def getScriptNumber (opcode : UInt8) (data : Bytes) (low high : ℤ) : Option ℤ := do
  let count ←
    if CScript.op1 ≤ opcode ∧ opcode ≤ CScript.op16 then some (CScript.decodeOpN opcode : ℤ)
    else if CScript.op0 < opcode ∧ opcode ≤ CScript.opPushData4 then
      if checkMinimalPush data opcode then minimalScriptNum data else none
    else none
  if count < low ∨ high < count then none else some count

/-- The keys pushed in a row, with the operation that ends the row and what is
left of the script. -/
def pubkeyPushes : ℕ → CScript → List Bytes × (UInt8 × Bytes) × CScript
  | 0, script => ([], (CScript.opInvalidOpcode, []), script)
  | fuel + 1, script =>
      match CScript.getOp script with
      | none => ([], (CScript.opInvalidOpcode, []), script)
      | some (operation, rest) =>
          if pubKeyValidSize operation.2 then
            let (keys, stop, remainder) := pubkeyPushes fuel rest
            (operation.2 :: keys, stop, remainder)
          else ([], operation, rest)

/-- `MatchMultisig`: the number of required signatures and the keys. -/
def matchMultisig (script : CScript) : Option (ℤ × List Bytes) := do
  if script.getLast? ≠ some CScript.opCheckMultiSig then none
  else
    let (operation, rest) ← CScript.getOp script
    let requiredSigs ← getScriptNumber operation.1 operation.2 1 CScript.maxPubkeysPerMultisig
    let (pubkeys, stop, remainder) := pubkeyPushes rest.length rest
    let numKeys ← getScriptNumber stop.1 stop.2 requiredSigs CScript.maxPubkeysPerMultisig
    if (pubkeys.length : ℤ) = numKeys ∧ remainder.length = 1 then some (requiredSigs, pubkeys)
    else none

end Multisig

/-- `Solver`: the type of a script and the data in it. -/
def solver (script : CScript) : TxoutType × List Bytes :=
  if script.isPayToScriptHash then (.scripthash, [(script.drop 2).take 20])
  else match script.witnessProgram with
  | some (version, program) =>
      if version = 0 ∧ program.length = 20 then (.witnessV0Keyhash, [program])
      else if version = 0 ∧ program.length = 32 then (.witnessV0Scripthash, [program])
      else if version = 1 ∧ program.length = 32 then (.witnessV1Taproot, [program])
      else if version ≠ 0 then (.witnessUnknown, [[UInt8.ofNat version], program])
      else (.nonstandard, [])
  | none =>
      if script.head? = some CScript.opReturn ∧ CScript.isPushOnly script.tail then
        (.nullData, [])
      else match matchPayToPubkey script with
      | some key => (.pubkey, [key])
      | none =>
          match script.isToKeyID with
          | some keyID => (.pubkeyhash, [keyID])
          | none =>
              match matchMultisig script with
              | some (required, keys) =>
                  (.multisig, [UInt8.ofNat required.toNat] :: keys ++
                    [[UInt8.ofNat keys.length]])
              | none => (.nonstandard, [])

inductive CTxDestination where
  | noDestination (script : CScript)
  | pubKeyDestination (pubkey : Bytes)
  | pkHash (keyID : Bytes)
  | scriptHash (scriptID : Bytes)
  | witnessV0ScriptHash (program : Bytes)
  | witnessV0KeyHash (program : Bytes)
  | witnessV1Taproot (program : Bytes)
  | witnessUnknown (version : UInt8) (program : Bytes)
  deriving DecidableEq, Repr

def getScriptForRawPubKey (pubkey : Bytes) : CScript :=
  CScript.pushData pubkey ++ [CScript.opCheckSig]

def getScriptForDestination : CTxDestination → CScript
  | .noDestination script => script
  | .pubKeyDestination pubkey => CScript.pushData pubkey ++ [CScript.opCheckSig]
  | .pkHash keyID => [CScript.opDup, CScript.opHash160] ++ CScript.pushData keyID ++
      [CScript.opEqualVerify, CScript.opCheckSig]
  | .scriptHash scriptID => [CScript.opHash160] ++ CScript.pushData scriptID ++ [CScript.opEqual]
  | .witnessV0ScriptHash program => [CScript.op0] ++ CScript.pushData program
  | .witnessV0KeyHash program => [CScript.op0] ++ CScript.pushData program
  | .witnessV1Taproot program => [CScript.op1] ++ CScript.pushData program
  | .witnessUnknown version program =>
      [if version = 0 then CScript.op0 else CScript.op1 - 1 + version] ++
        CScript.pushData program

/-- `ExtractDestination`: the destination, if the script has one. -/
def extractDestination (hash160 : Bytes → Bytes) (script : CScript) : Option CTxDestination :=
  match solver script with
  | (.pubkey, pubkey :: _) => some (.pkHash (hash160 pubkey))
  | (.pubkeyhash, keyID :: _) => some (.pkHash keyID)
  | (.scripthash, scriptID :: _) => some (.scriptHash scriptID)
  | (.witnessV0Keyhash, program :: _) => some (.witnessV0KeyHash program)
  | (.witnessV0Scripthash, program :: _) => some (.witnessV0ScriptHash program)
  | (.witnessV1Taproot, program :: _) => some (.witnessV1Taproot program)
  | (.witnessUnknown, version :: program :: _) =>
      some (.witnessUnknown (version.headD 0) program)
  | _ => if script.isEmpty then some (.noDestination script) else none

section Forms

variable {script : CScript} {keyID pubkey : Bytes}

/-- A pay-to-pubkey-hash script is the script of its destination. -/
theorem eq_getScriptForDestination_of_isToKeyID (hform : script.isToKeyID = some keyID) :
    script = getScriptForDestination (.pkHash keyID) := by
  rw [CScript.isToKeyID] at hform
  split_ifs at hform with hshape
  obtain ⟨hlength, hfront, hback⟩ := hshape
  obtain rfl := Option.some.inj hform
  have hkey : ((script.drop 3).take 20).length = 20 := by
    rw [List.length_take, List.length_drop, hlength]
    rfl
  have hpush : CScript.pushData ((script.drop 3).take 20) = 20 :: (script.drop 3).take 20 := by
    rw [CScript.pushData, hkey]
    rfl
  calc script = script.take 3 ++ ((script.drop 3).take 20 ++ (script.drop 3).drop 20) := by
        rw [List.take_append_drop, List.take_append_drop]
    _ = getScriptForDestination (.pkHash ((script.drop 3).take 20)) := by
        rw [hfront, List.drop_drop, hback, getScriptForDestination, hpush]
        rfl

theorem solver_fst_eq_pubkeyhash (htype : (solver script).1 = .pubkeyhash) :
    ∃ keyID, script.isToKeyID = some keyID ∧ solver script = (.pubkeyhash, [keyID]) := by
  revert htype
  rw [solver]
  repeat' split
  all_goals intro htype
  all_goals first
    | exact TxoutType.noConfusion htype
    | exact ⟨_, ‹_›, rfl⟩

theorem pubKeyValidSize_of_form (hkey : isCompressedOrUncompressedPubKey pubkey = true) :
    pubKeyValidSize pubkey = true ∧ (pubkey.length = 33 ∨ pubkey.length = 65) := by
  cases pubkey with
  | nil => exact Bool.noConfusion hkey
  | cons header coordinates =>
    simp only [isCompressedOrUncompressedPubKey, Bool.or_eq_true, Bool.and_eq_true,
      beq_iff_eq] at hkey
    simp only [pubKeyValidSize, beq_iff_eq]
    rcases hkey with ⟨rfl, hlength⟩ | ⟨rfl | rfl, hlength⟩
    · exact ⟨hlength, .inr hlength⟩
    · exact ⟨hlength, .inl hlength⟩
    · exact ⟨hlength, .inl hlength⟩

theorem getScriptForRawPubKey_eq (hsmall : pubkey.length < CScript.opPushData1.toNat) :
    getScriptForRawPubKey pubkey =
      UInt8.ofNat pubkey.length :: (pubkey ++ [CScript.opCheckSig]) := by
  rw [getScriptForRawPubKey, CScript.pushData, if_pos hsmall]
  rfl

/-- `Solver` finds the key in the script that `GetScriptForRawPubKey` makes. -/
theorem solver_getScriptForRawPubKey (hkey : isCompressedOrUncompressedPubKey pubkey = true) :
    solver (getScriptForRawPubKey pubkey) = (.pubkey, [pubkey]) := by
  obtain ⟨hvalid, hlength⟩ := pubKeyValidSize_of_form hkey
  have hsmall : pubkey.length < CScript.opPushData1.toNat := by
    change pubkey.length < 76
    omega
  rw [getScriptForRawPubKey_eq hsmall]
  -- The size of the push stands where the other forms have an opcode.
  obtain ⟨size, hsize, hsizes⟩ : ∃ size, UInt8.ofNat pubkey.length = size ∧
      (size = 33 ∧ pubkey.length = 33 ∨ size = 65 ∧ pubkey.length = 65) := by
    rcases hlength with hshort | hlong
    · exact ⟨33, by rw [hshort]; rfl, .inl ⟨rfl, hshort⟩⟩
    · exact ⟨65, by rw [hlong]; rfl, .inr ⟨rfl, hlong⟩⟩
  rw [hsize]
  have hscriptHash : CScript.isPayToScriptHash (size :: (pubkey ++ [CScript.opCheckSig])) =
      false := by
    have hne : ¬ pubkey.length = 21 := by omega
    simp [CScript.isPayToScriptHash, hne]
  have hwitness : CScript.witnessProgram (size :: (pubkey ++ [CScript.opCheckSig])) = none := by
    cases pubkey with
    | nil => exact Bool.noConfusion hkey
    | cons header coordinates =>
      rw [List.cons_append, CScript.witnessProgram]
      rcases hsizes with ⟨rfl, _⟩ | ⟨rfl, _⟩
      · simp [CScript.op0, CScript.op1, CScript.op16]
      · simp [CScript.op0, CScript.op1, CScript.op16]
  have hmatch : matchPayToPubkey (size :: (pubkey ++ [CScript.opCheckSig])) = some pubkey := by
    have hlast : (size :: (pubkey ++ [CScript.opCheckSig])).getLast? = some CScript.opCheckSig := by
      rw [← List.cons_append, List.getLast?_concat]
    rcases hsizes with ⟨rfl, hlength⟩ | ⟨rfl, hlength⟩
    · simp [matchPayToPubkey, hlast, hlength, hvalid]
    · simp [matchPayToPubkey, hlast, hlength, hvalid]
  have hreturn : size ≠ CScript.opReturn := by
    rcases hsizes with ⟨rfl, _⟩ | ⟨rfl, _⟩ <;> decide
  simp [solver, hscriptHash, hwitness, hmatch, hreturn]

end Forms

end FirstIslamicCoin
