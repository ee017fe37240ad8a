import FirstIslamicCoin.Primitives.Transaction

/-!
# Wire form of transactions and blocks

The byte strings that hashes and sizes are taken of: `serialize.h` for integers
and vectors, `SerializeTransaction` for transactions, and the serialization
methods of headers and blocks.  Code outside this development is collected in
`External`: the two hash functions, script and signature verification, and the
public-key operations of the vendored elliptic-curve library.
-/

namespace FirstIslamicCoin

open ByteCodec

section Encoders

/-- `WriteCompactSize`: the count in front of every vector. -/
def writeCompactSize (nSize : ℕ) : Bytes :=
  if nSize < 253 then littleEndian 1 nSize
  else if nSize ≤ 0xffff then 253 :: littleEndian 2 nSize
  else if nSize ≤ 0xffffffff then 254 :: littleEndian 4 nSize
  else 255 :: littleEndian 8 nSize

def serializeInt32 (value : Int32) : Bytes :=
  littleEndian 4 value.toUInt32.toNat

def serializeUInt32 (value : UInt32) : Bytes := littleEndian 4 value.toNat

def serializeInt64 (value : Int64) : Bytes :=
  littleEndian 8 value.toUInt64.toNat

def serializeUInt256 (value : UInt256) : Bytes := littleEndian 32 value.toNat

/-- A vector: its length, then its elements. -/
def serializeVector {α : Type} (serialize : α → Bytes) (values : List α) :
    Bytes :=
  writeCompactSize values.length ++ values.flatMap serialize

def serializeBytes (bytes : Bytes) : Bytes :=
  serializeVector (fun byte => [byte]) bytes

def serializeOutPoint (outpoint : COutPoint) : Bytes :=
  serializeUInt256 outpoint.hash ++ serializeUInt32 outpoint.n

/-- An input without its witness, which the transaction writes separately. -/
def serializeTxIn (txin : CTxIn) : Bytes :=
  serializeOutPoint txin.prevout ++ serializeBytes txin.scriptSig ++
    serializeUInt32 txin.nSequence

def serializeTxOut (out : CTxOut) : Bytes :=
  serializeInt64 out.nValue ++ serializeBytes out.scriptPubKey

/-- `SerializeTransaction`.  The timestamp is written for versions below 2
only, and the extended format starts with an empty input vector and a flag
byte. -/
def serializeTransaction (allowWitness : Bool) (tx : CTransaction) : Bytes :=
  let extended := allowWitness && tx.hasWitness
  serializeInt32 tx.nVersion ++
    (if tx.nVersion < 2 then serializeUInt32 tx.nTime else []) ++
    (if extended then serializeVector serializeTxIn [] ++ [1] else []) ++
    serializeVector serializeTxIn tx.vin ++
    serializeVector serializeTxOut tx.vout ++
    (if extended then
      tx.vin.flatMap fun txin => serializeVector serializeBytes txin.scriptWitness
    else []) ++
    serializeUInt32 tx.nLockTime

end Encoders

structure CBlockHeader where
  nVersion : Int32
  hashPrevBlock : UInt256
  hashMerkleRoot : UInt256
  nTime : UInt32
  nBits : UInt32
  nNonce : UInt32
  nFlags : UInt32
  deriving DecidableEq, Repr

structure CBlock extends CBlockHeader where
  vtx : List CTransaction
  vchBlockSig : Bytes
  deriving DecidableEq, Repr

/-- The header as it is written; the proof-of-stake flags follow only when the
stream asks for them, and never under a hash. -/
def serializeHeader (posMarker : Bool) (header : CBlockHeader) : Bytes :=
  serializeInt32 header.nVersion ++ serializeUInt256 header.hashPrevBlock ++
    serializeUInt256 header.hashMerkleRoot ++ serializeUInt32 header.nTime ++
    serializeUInt32 header.nBits ++ serializeUInt32 header.nNonce ++
    (if posMarker then serializeUInt32 header.nFlags else [])

def serializeBlock (posMarker allowWitness : Bool) (block : CBlock) : Bytes :=
  serializeHeader posMarker block.toCBlockHeader ++
    serializeVector (serializeTransaction allowWitness) block.vtx ++
    serializeBytes block.vchBlockSig

/-- What the modelled code calls but this development does not define. -/
structure External where
  /-- Double SHA-256, as computed by `HashWriter::GetHash`. -/
  hash256 : Bytes → UInt256
  /-- `scrypt_1024_1_1_256` of the 80 header bytes. -/
  scrypt : Bytes → UInt256
  /-- `VerifyScript` for one input: the transaction, the input's position, the
  script and amount it spends, whether the witness is passed, the flags, and
  the outputs the transaction spends as far as they are known. -/
  verifyScript : CTransaction → ℕ → CTxOut → Bool → UInt32 → List CTxOut → Bool
  /-- `CPubKey(key).IsValid() && CPubKey(key).Verify(hash, sig)`. -/
  verifyPubKey : Bytes → UInt256 → Bytes → Bool
  /-- `CheckSignetBlockSolution`, which reads no more of a block than is
  written to the wire. -/
  checkSignetBlockSolution : Bytes → Bool
  /-- `CPubKey::IsFullyValid`. -/
  isFullyValid : Bytes → Bool
  /-- `CPubKey::Decompress` of a 33-byte key. -/
  decompress : Bytes → Option Bytes

namespace CTransaction

/-- The transaction id: witness data is outside it, and so is the timestamp of
a transaction of version 2 or more. -/
def getHash (env : External) (tx : CTransaction) : UInt256 :=
  env.hash256 (serializeTransaction false tx)

def getWitnessHash (env : External) (tx : CTransaction) : UInt256 :=
  if tx.hasWitness then env.hash256 (serializeTransaction true tx)
  else tx.getHash env

def strippedSize (tx : CTransaction) : ℕ :=
  (serializeTransaction false tx).length

def totalSize (tx : CTransaction) : ℕ := (serializeTransaction true tx).length

end CTransaction

namespace CBlockHeader

def getPoWHash (env : External) (header : CBlockHeader) : UInt256 :=
  env.scrypt (serializeHeader false header)

def getHash (env : External) (header : CBlockHeader) : UInt256 :=
  if 6 < header.nVersion then env.hash256 (serializeHeader false header)
  else header.getPoWHash env

def getBlockTime (header : CBlockHeader) : ℤ := header.nTime.toNat

end CBlockHeader

namespace CBlock

def isProofOfStake (block : CBlock) : Bool :=
  match block.vtx with
  | _ :: tx :: _ => tx.isCoinStake
  | _ => false

def isProofOfWork (block : CBlock) : Bool := !block.isProofOfStake

end CBlock

end FirstIslamicCoin
