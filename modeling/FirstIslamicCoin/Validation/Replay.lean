import FirstIslamicCoin.Chain.Pow
import FirstIslamicCoin.Consensus.CoinCodec
import FirstIslamicCoin.Consensus.CoinsRefinement

/-!
# Recovery after an interrupted flush

`Chainstate::ReplayBlocks`.  A flush of the coins cache marks the database as being
in the middle of a transition between two tips and then writes the coins in
several batches.  A node that finds such a mark when it starts rolls the old branch
back and the new one forward over whatever subset of the coins was written, in a
cache over the database, and flushes that cache.  Blocks are read from the block
files, that is, as they come back from their bytes.
-/

namespace FirstIslamicCoin

open Outcome WriteBack ByteCodec

/-- `CCoinsViewDB`: the coins as they are read from the database, the best block
(null when there is no such record), and the head blocks of an unfinished write. -/
structure CCoinsViewDB where
  coins : CoinsView
  bestBlock : UInt256
  headBlocks : List UInt256

namespace CCoinsViewDB

/-- `BatchWrite`, all of its batches written.  Coins are stored in their serialized
form. -/
def batchWrite (db : CCoinsViewDB) (mapCoins : CCoinsMap) (hashBlock : UInt256)
    (erase : Bool) : Option (CCoinsMap × CCoinsViewDB) :=
  -- assert(!hashBlock.IsNull())
  if hashBlock = 0 then none
  -- assert(old_heads[0] == hashBlock)
  else if db.bestBlock = 0 ∧ db.headBlocks.length = 2 ∧ db.headBlocks.head? ≠ some hashBlock then
    none
  else some (if erase then ∅ else mapCoins,
    { coins := committed Coin.isSpent Coin.recoded mapCoins db.coins
      bestBlock := hashBlock
      headBlocks := [] })

def view : CCoinsView CCoinsViewDB where
  getCoin db outpoint := db.coins.lookup outpoint
  batchWrite := batchWrite

end CCoinsViewDB

/-- `AddCoins` on the topmost cache of a stack. -/
def CoinsStack.addCoins {State : Type} (view : CCoinsView State) (env : External)
    (tx : CTransaction) (nHeight : ℤ) (check : Bool) (stack : CoinsStack State) :
    Except CacheFailure (CoinsStack State) :=
  loop (fun (current : CoinsStack State) (entry : CTxOut × ℕ) => do
      let (overwrite, fetched) ←
        if check then current.perform view 0 (.haveCoin (tx.outPoint env entry.2))
        else .ok (.present tx.isCoinBase, current)
      let (_, added) ← fetched.perform view 0
        (.addCoin (tx.outPoint env entry.2) (tx.coinOf nHeight entry.1)
          (overwrite == .present true))
      .ok added) stack tx.vout.zipIdx

/-- The block files: the bytes at the position of an entry of the block index. -/
abbrev BlockFiles := CBlockIndex → Option Bytes

def readBlockFromDisk (env : External) (params : Params) (files : BlockFiles)
    (index : CBlockIndex) : Option CBlock := do
  let bytes ← files index
  let (block, _) ← readBlock maxSize false true bytes
  guard (block.getHash env = params.hashGenesisBlock ∨ block.isProofOfStake ∨
    checkProofOfWork (block.getPoWHash env) block.nBits params)
  guard (!params.signetBlocks || block.getHash env = params.hashGenesisBlock ||
    env.checkSignetBlockSolution bytes)
  guard (block.getHash env = index.hashBlock)
  some { block with
    nFlags := if block.isProofOfStake then block.nFlags ||| blockProofOfStake
      else block.nFlags }

inductive ReplayFailure where
  | error (message : String)
  | aborted
  | cache (failure : CacheFailure)
  deriving DecidableEq, Repr

namespace IndexChain

def walkToCommon : IndexChain → IndexChain → IndexChain
  | left :: leftRest, right :: rightRest =>
      if left :: leftRest = right :: rightRest then left :: leftRest
      else walkToCommon leftRest rightRest
  | _, _ => []

def lastCommonAncestor (left right : IndexChain) : IndexChain :=
  walkToCommon
    (if right.height < left.height then left.getAncestor right.height else left)
    (if left.height < right.height then right.getAncestor left.height else right)

end IndexChain

section Replay

variable (env : External) (params : Params) (files : BlockFiles)

abbrev ReplayCache := CoinsStack CCoinsViewDB

/-- One transaction of `RollforwardBlock`; the outcome of `SpendCoin` is ignored. -/
def rollforwardTx (nHeight : ℤ) (inputs : ReplayCache) (tx : CTransaction) :
    Except CacheFailure ReplayCache := do
  let spent ← if tx.isCoinBase then .ok inputs
    else loop (fun (current : ReplayCache) outpoint => do
      let (_, after) ← current.perform CCoinsViewDB.view 0 (.spendCoin outpoint)
      .ok after) inputs tx.prevouts
  spent.addCoins CCoinsViewDB.view env tx nHeight true

def rollforwardBlock (inputs : ReplayCache) (index : CBlockIndex) :
    Except ReplayFailure ReplayCache :=
  match readBlockFromDisk env params files index with
  | none => .error (.error "ReplayBlock(): ReadBlockFromDisk failed")
  | some block => (loop (rollforwardTx env index.nHeight) inputs block.vtx).mapError .cache

/-- The first loop of `ReplayBlocks`.  `DisconnectBlock` on the cache is a parameter,
which gives nothing when it fails. -/
def rollBack (disconnectBlock : CBlock → IndexChain → ReplayCache → Option ReplayCache)
    (pindexFork : IndexChain) : IndexChain → ReplayCache → Except ReplayFailure ReplayCache
  | [], cache => .ok cache
  | index :: pprev, cache =>
      if index :: pprev = pindexFork then .ok cache
      else if 0 < index.nHeight then
        match readBlockFromDisk env params files index with
        | none => .error (.error "RollbackBlock(): ReadBlockFromDisk() failed")
        | some block =>
            match disconnectBlock block (index :: pprev) cache with
            | none => .error (.error "RollbackBlock(): DisconnectBlock failed")
            | some undone => rollBack disconnectBlock pindexFork pprev undone
      else rollBack disconnectBlock pindexFork pprev cache

def heightsAbove (fork last : ℤ) : List ℤ :=
  (List.range (last - fork).toNat).map fun offset : ℕ => fork + 1 + offset

/-- The second loop of `ReplayBlocks`. -/
def rollForward (pindexFork pindexNew : IndexChain) (cache : ReplayCache) :
    Except ReplayFailure ReplayCache :=
  loop (fun current nHeight =>
      match pindexNew.getAncestor nHeight with
      | [] => .error .aborted
      | index :: _ => rollforwardBlock env params files current index)
    cache (heightsAbove pindexFork.height pindexNew.height)

/-- The end of `ReplayBlocks`: `SetBestBlock` and `Flush`, whose result is ignored. -/
def finishReplay (hashNew : UInt256) (cache : ReplayCache) :
    Except ReplayFailure CCoinsViewDB :=
  match cache.layers with
  | [] => .error .aborted
  | top :: rest => do
      let (_, db) ← (CCoinsViewCache.flush CCoinsViewDB.view cache.base
        { top with hashBlock := hashNew } rest).mapError ReplayFailure.cache
      .ok db

/-- `ReplayBlocks`; `blockIndex` finds an entry by its hash. -/
def replayBlocks (blockIndex : UInt256 → Option IndexChain)
    (disconnectBlock : CBlock → IndexChain → ReplayCache → Option ReplayCache)
    (db : CCoinsViewDB) : Except ReplayFailure CCoinsViewDB :=
  match db.headBlocks with
  | [] => .ok db
  | [hashNew, hashOld] =>
      match blockIndex hashNew with
      | none => .error (.error "ReplayBlocks(): reorganization to unknown block requested")
      | some pindexNew => do
          -- a null hash stands for no old tip, and then there is no fork point either
          let (pindexOld, pindexFork) ←
            if hashOld = 0 then .ok ([], [])
            else
              match blockIndex hashOld with
              | none =>
                  .error (.error "ReplayBlocks(): reorganization from unknown block requested")
              | some pindexOld => do
                  let pindexFork := pindexOld.lastCommonAncestor pindexNew
                  require (!pindexFork.isEmpty) .aborted
                  .ok (pindexOld, pindexFork)
          let back ← rollBack env params files disconnectBlock pindexFork pindexOld
            ⟨[⟨∅, 0⟩], db⟩
          let forward ← rollForward env params files pindexFork pindexNew back
          finishReplay hashNew forward
  | _ => .error (.error "ReplayBlocks(): unknown inconsistent state")

end Replay

end FirstIslamicCoin
