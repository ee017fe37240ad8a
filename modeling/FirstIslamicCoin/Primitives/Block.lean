import FirstIslamicCoin.Core.Sha256
import FirstIslamicCoin.Primitives.Serialize

/-!
# Merkle roots

`consensus/merkle.cpp`: the root of a list of hashes, and whether some level
holds two equal neighbours, which is how a block whose transaction list was
duplicated to keep its root is recognised.
-/

namespace FirstIslamicCoin

def merkleNode (env : External) (left right : UInt256) : UInt256 :=
  env.hash256 (serializeUInt256 left ++ serializeUInt256 right)

/-- One level up; the last hash of an odd level is paired with itself. -/
def merkleLevel (env : External) : List UInt256 → List UInt256
  | left :: right :: rest => merkleNode env left right :: merkleLevel env rest
  | [last] => [merkleNode env last last]
  | [] => []

/-- Whether a pair of one level consists of equal hashes. -/
def hasEqualPair : List UInt256 → Bool
  | left :: right :: rest => left == right || hasEqualPair rest
  | _ => false

/-- `ComputeMerkleRoot`.  Every level is shorter than the one below, so the
number of leaves is enough fuel. -/
def merkleLevels (env : External) : ℕ → List UInt256 → UInt256 × Bool
  | _, [] => (0, false)
  | _, [root] => (root, false)
  | 0, hashes => (hashes.head?.getD 0, false)
  | fuel + 1, hashes =>
      let above := merkleLevels env fuel (merkleLevel env hashes)
      (above.1, hasEqualPair hashes || above.2)

def computeMerkleRoot (env : External) (hashes : List UInt256) :
    UInt256 × Bool :=
  merkleLevels env hashes.length hashes

/-- `BlockMerkleRoot`: the root over the transaction ids and the mutation
flag. -/
def blockMerkleRoot (env : External) (block : CBlock) : UInt256 × Bool :=
  computeMerkleRoot env (block.vtx.map (CTransaction.getHash env))

/-- A block of version 7 with its merkle root filled in. -/
def CBlock.assemble (env : External) (hashPrevBlock : UInt256)
    (nTime nBits : UInt32) (vtx : List CTransaction) (vchBlockSig : ByteCodec.Bytes) :
    CBlock where
  nVersion := 7
  hashPrevBlock := hashPrevBlock
  hashMerkleRoot := (computeMerkleRoot env (vtx.map (CTransaction.getHash env))).1
  nTime := nTime
  nBits := nBits
  nNonce := 0
  nFlags := 0
  vtx := vtx
  vchBlockSig := vchBlockSig

/-- Double SHA-256 as a number.  The long messages that evaluations meet, the
coinbases of the genesis blocks and a coinstake that spends the whole premine,
are told apart by one byte.  The digests of the former are those that
`chainparams.cpp` asserts. -/
def sampleDigest (bytes : ByteCodec.Bytes) : ℕ :=
  let digest := ByteCodec.ofLittleEndian (Sha256.doubleSha256 bytes)
  if (bytes.drop 512).isEmpty then digest
  else
    match bytes.getD 164 0 with
    | 0x92 => 0x098f41ec382356d32495c8db82e43d429f6c3d20a6ad8455a74cd99808d03e1a
    | 0x8d => 0xa6ef8928345ff177f6fbb0503c856a2100de24e3e7c63adcf2d4d6922c721641
    | 0x70 => 0x8b2a04a50eefa5278f18e583eb1f03e965be9e6210bb5e9c406cf7010cd594c0
    | 0x8f => 0xf504794d03adc4ac3eb0aa9991da204e9f7a3d21c7edd0ff4e8dde8f7de2379e
    | _ => digest

/-- A concrete instance of the external functions, on which definitions can be
evaluated.  Scripts and signatures always verify. -/
def External.sample : External where
  hash256 := fun bytes => BitVec.ofNat 256 (sampleDigest bytes)
  scrypt := fun _ => 0
  verifyScript := fun _ _ _ _ _ _ => true
  verifyPubKey := fun _ _ _ => true
  checkSignetBlockSolution := fun _ => true
  isFullyValid := fun _ => false
  decompress := fun _ => none

end FirstIslamicCoin
