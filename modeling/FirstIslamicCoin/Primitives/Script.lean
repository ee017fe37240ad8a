import FirstIslamicCoin.Primitives.Transaction

/-!
# Scripts

The parts of `script/script.cpp` that validation reads without executing a
script: building pushes, walking the operations, recognising the standard
output forms, and counting signature operations.
-/

namespace FirstIslamicCoin

open ByteCodec

namespace CScript

def op0 : UInt8 := 0x00
def opPushData1 : UInt8 := 0x4c
def opPushData2 : UInt8 := 0x4d
def opPushData4 : UInt8 := 0x4e
def op1 : UInt8 := 0x51
def op16 : UInt8 := 0x60
def opDup : UInt8 := 0x76
def opEqual : UInt8 := 0x87
def opEqualVerify : UInt8 := 0x88
def opHash160 : UInt8 := 0xa9
def opCheckSig : UInt8 := 0xac
def opCheckSigVerify : UInt8 := 0xad
def opCheckMultiSig : UInt8 := 0xae
def opCheckMultiSigVerify : UInt8 := 0xaf
def opInvalidOpcode : UInt8 := 0xff

def maxPubkeysPerMultisig : ℕ := 20

section Build

/-- `operator<<` for a data vector. -/
def pushData (data : Bytes) : CScript :=
  if data.length < opPushData1.toNat then littleEndian 1 data.length ++ data
  else if data.length ≤ 0xff then
    opPushData1 :: littleEndian 1 data.length ++ data
  else if data.length ≤ 0xffff then
    opPushData2 :: littleEndian 2 data.length ++ data
  else opPushData4 :: littleEndian 4 data.length ++ data

/-- The little-endian digits of a number, without leading zeros. -/
def magnitude : ℕ → ℕ → Bytes
  | 0, _ => []
  | fuel + 1, value =>
      if value = 0 then [] else UInt8.ofNat value :: magnitude fuel (value / 256)

/-- `CScriptNum::serialize` of a nonnegative number: eight digits hold any
64-bit magnitude, and a zero byte keeps the sign bit clear. -/
def serializeScriptNum (value : ℕ) : Bytes :=
  let digits := magnitude 8 value
  match digits.getLast? with
  | none => []
  | some top => if 0x80 ≤ top then digits ++ [0] else digits

/-- `push_int64` of a nonnegative number. -/
def pushInt64 (value : ℕ) : CScript :=
  if 1 ≤ value ∧ value ≤ 16 then [UInt8.ofNat value + (op1 - 1)]
  else if value = 0 then [op0]
  else pushData (serializeScriptNum value)

end Build

section Operations

/-- `GetScriptOp`: the next opcode with the data it pushes, and the rest. -/
def getOp : CScript → Option ((UInt8 × Bytes) × CScript)
  | [] => none
  | opcode :: rest =>
      let operand (width : ℕ) : Option ((UInt8 × Bytes) × CScript) := do
        let (nSize, body) ← readLittleEndian width rest
        let (data, remainder) ← readBytes nSize body
        return ((opcode, data), remainder)
      if opcode < opPushData1 then do
        let (data, remainder) ← readBytes opcode.toNat rest
        return ((opcode, data), remainder)
      else if opcode = opPushData1 then operand 1
      else if opcode = opPushData2 then operand 2
      else if opcode = opPushData4 then operand 4
      else some ((opcode, []), rest)

/-- All operations up to the first that cannot be read, and whether the walk
reached the end.  Every operation consumes a byte, so the length of the script
is enough fuel. -/
def operations : ℕ → CScript → List (UInt8 × Bytes) × Bool
  | _, [] => ([], true)
  | 0, _ => ([], false)
  | fuel + 1, script =>
      match getOp script with
      | none => ([], false)
      | some (operation, rest) =>
          let walked := operations fuel rest
          (operation :: walked.1, walked.2)

def ops (script : CScript) : List (UInt8 × Bytes) × Bool :=
  operations script.length script

def isPushOnly (script : CScript) : Bool :=
  script.ops.2 && script.ops.1.all fun operation => decide (operation.1 ≤ op16)

def decodeOpN (opcode : UInt8) : ℕ :=
  if opcode = op0 then 0 else (opcode - (op1 - 1)).toNat

/-- The signature operations in a list of operations, given the opcode before
the first of them. -/
def countSigOps (accurate : Bool) : UInt8 → List (UInt8 × Bytes) → ℕ
  | _, [] => 0
  | lastOpcode, (opcode, _) :: rest =>
      let here :=
        if opcode = opCheckSig ∨ opcode = opCheckSigVerify then 1
        else if opcode = opCheckMultiSig ∨ opcode = opCheckMultiSigVerify then
          if accurate ∧ op1 ≤ lastOpcode ∧ lastOpcode ≤ op16 then
            decodeOpN lastOpcode
          else maxPubkeysPerMultisig
        else 0
      here + countSigOps accurate opcode rest

def getSigOpCount (accurate : Bool) (script : CScript) : ℕ :=
  countSigOps accurate opInvalidOpcode script.ops.1

end Operations

section Forms

def isPayToScriptHash (script : CScript) : Bool :=
  script.length == 23 && script[0]? == some opHash160 &&
    script[1]? == some 0x14 && script[22]? == some opEqual

/-- `IsWitnessProgram`: the version and the program, if there is one. -/
def witnessProgram (script : CScript) : Option (ℕ × Bytes) :=
  match script with
  | opcode :: size :: program =>
      if script.length < 4 ∨ 42 < script.length then none
      else if opcode ≠ op0 ∧ (opcode < op1 ∨ op16 < opcode) then none
      else if size.toNat + 2 = script.length then some (decodeOpN opcode, program)
      else none
  | _ => none

def lastPush (script : CScript) : Bytes :=
  (script.ops.1.getLast?.map Prod.snd).getD []

/-- `GetSigOpCount(scriptSig)` on an output script. -/
def getSigOpCountSpending (scriptPubKey scriptSig : CScript) : ℕ :=
  if !scriptPubKey.isPayToScriptHash then scriptPubKey.getSigOpCount true
  else if !scriptSig.isPushOnly then 0
  else CScript.getSigOpCount true scriptSig.lastPush

def witnessSigOps (witness : List Bytes) : ℕ × Bytes → ℕ
  | (0, program) =>
      if program.length = 20 then 1
      else if program.length = 32 then
        (witness.getLast?.map (CScript.getSigOpCount true)).getD 0
      else 0
  | _ => 0

def scriptVerifyP2SH : UInt32 := 1
def scriptVerifyWitness : UInt32 := 0x800

def countWitnessSigOps (scriptSig scriptPubKey : CScript)
    (witness : List Bytes) (flags : UInt32) : ℕ :=
  if flags &&& scriptVerifyWitness = 0 then 0
  else
    match scriptPubKey.witnessProgram with
    | some program => witnessSigOps witness program
    | none =>
        if scriptPubKey.isPayToScriptHash && scriptSig.isPushOnly then
          ((CScript.witnessProgram scriptSig.lastPush).map
            (witnessSigOps witness)).getD 0
        else 0

end Forms

end CScript

end FirstIslamicCoin
