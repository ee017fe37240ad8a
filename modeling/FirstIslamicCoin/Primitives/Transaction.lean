import FirstIslamicCoin.Core.ByteCodec

/-!
# Transactions

The data types of `primitives/transaction.h` and the predicates on scripts and
transactions that consensus code asks.  Hashes are 256-bit words, scripts and
witness items are byte strings, and every other field keeps the width it has in
the source.  `CTransaction` and `CMutableTransaction` have the same fields and
are one type here; the cached hashes are recomputed where they are read.
-/

namespace FirstIslamicCoin

open ByteCodec

abbrev UInt256 := BitVec 256
abbrev CScript := Bytes

namespace CScript

def opReturn : UInt8 := 0x6a

def maxScriptSize : ℕ := 10000

/-- `CScript::IsUnspendable`: such an output never enters the UTXO set. -/
def isUnspendable (script : CScript) : Bool :=
  script.head? == some opReturn || decide (maxScriptSize < script.length)

end CScript

structure COutPoint where
  hash : UInt256
  n : UInt32
  deriving DecidableEq, Repr

namespace COutPoint

def nullIndex : UInt32 := 0xffffffff

def isNull (outpoint : COutPoint) : Bool :=
  outpoint.hash == 0 && outpoint.n == nullIndex

end COutPoint

structure CTxIn where
  prevout : COutPoint
  scriptSig : CScript
  nSequence : UInt32
  scriptWitness : List Bytes
  deriving DecidableEq, Repr

structure CTxOut where
  nValue : Int64
  scriptPubKey : CScript
  deriving DecidableEq, Repr

namespace CTxOut

def isNull (out : CTxOut) : Bool := out.nValue == -1

def isEmpty (out : CTxOut) : Bool :=
  out.nValue == 0 && out.scriptPubKey.isEmpty

def value (out : CTxOut) : ℤ := out.nValue.toInt

theorem value_of_isEmpty {out : CTxOut} (hempty : out.isEmpty = true) :
    out.value = 0 := by
  have hvalue : out.nValue = 0 := by
    simp only [isEmpty, Bool.and_eq_true, beq_iff_eq] at hempty
    exact hempty.1
  simp [value, hvalue]

end CTxOut

structure CTransaction where
  vin : List CTxIn
  vout : List CTxOut
  nVersion : Int32
  nTime : UInt32
  nLockTime : UInt32
  deriving DecidableEq, Repr

namespace CTransaction

def isCoinBase (tx : CTransaction) : Bool :=
  match tx.vin with
  | [txin] => txin.prevout.isNull
  | _ => false

/-- The coinstake is marked by an empty first output and a non-null first
input. -/
def isCoinStake (tx : CTransaction) : Bool :=
  match tx.vin, tx.vout with
  | txin :: _, out :: _ :: _ => !txin.prevout.isNull && out.isEmpty
  | _, _ => false

def hasWitness (tx : CTransaction) : Bool :=
  tx.vin.any fun txin => !txin.scriptWitness.isEmpty

def prevouts (tx : CTransaction) : List COutPoint := tx.vin.map CTxIn.prevout

def totalOut (tx : CTransaction) : ℤ := (tx.vout.map CTxOut.value).sum

theorem totalOut_nonneg {tx : CTransaction}
    (hnonneg : ∀ out ∈ tx.vout, 0 ≤ out.value) : 0 ≤ tx.totalOut := by
  apply List.sum_nonneg
  intro value hmem
  obtain ⟨out, hout, rfl⟩ := List.mem_map.mp hmem
  exact hnonneg out hout

/-- No transaction is both: a coinbase has the null outpoint as its only
input, a coinstake a non-null first input. -/
theorem isCoinStake_eq_false_of_isCoinBase {tx : CTransaction}
    (hcoinbase : tx.isCoinBase = true) : tx.isCoinStake = false := by
  rcases tx with ⟨vin, vout, nVersion, nTime, nLockTime⟩
  match vin with
  | [] => simp [isCoinBase] at hcoinbase
  | [txin] =>
    have hnull : txin.prevout.isNull = true := by
      simpa [isCoinBase] using hcoinbase
    match vout with
    | [] => rfl
    | [_] => rfl
    | _ :: _ :: _ => simp [isCoinStake, hnull]
  | _ :: _ :: _ => simp [isCoinBase] at hcoinbase

end CTransaction

end FirstIslamicCoin
