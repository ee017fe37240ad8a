import FirstIslamicCoin.Consensus.Coins
import FirstIslamicCoin.Core.Run
import FirstIslamicCoin.Core.WriteBackCache

/-!
# The layers of the coins cache

`CCoinsViewCache` of `coins.cpp`: a stack of caches over a base view, each of them
fetching from the one below, and writing its dirty entries into it when it is
flushed or synced.  `DIRTY` and `FRESH` are the two flags of a write-back entry,
and a coin with a null output stands for a spent one.  Above the functions stands
the plain model, one finite map for every layer, and the theorem that the stack
refines it.
-/

namespace FirstIslamicCoin

open Outcome WriteBack

namespace Coin

def isSpent (coin : Coin) : Bool := coin.out.isNull

/-- What `Clear` leaves, and what the empty constructor makes. -/
def cleared : Coin := ⟨⟨-1, []⟩, false, false, 0, 0⟩

end Coin

abbrev CCoinsCacheEntry := WriteBack.Entry Coin

abbrev CCoinsMap := WriteBack.Cache COutPoint Coin

structure CCoinsViewCache where
  cacheCoins : CCoinsMap
  hashBlock : UInt256

/-- The methods of a base view that a cache calls.  `getCoin` may find a coin that
is spent; `batchWrite` returns what it leaves of the map it was given, and nothing
if it fails. -/
structure CCoinsView (State : Type) where
  getCoin : State → COutPoint → Option Coin
  batchWrite : State → CCoinsMap → UInt256 → Bool → Option (CCoinsMap × State)

inductive CacheFailure where
  | aborted
  | thrown (what : String)
  | notWritten
  deriving DecidableEq, Repr

namespace CCoinsViewCache

variable {State : Type}

def store (cache : CCoinsViewCache) (outpoint : COutPoint) (entry : CCoinsCacheEntry) :
    CCoinsViewCache :=
  { cache with cacheCoins := cache.cacheCoins.insert outpoint entry }

def drop (cache : CCoinsViewCache) (outpoint : COutPoint) : CCoinsViewCache :=
  { cache with cacheCoins := cache.cacheCoins.erase outpoint }

/-- `FetchCoin`; `below` is what `base->GetCoin` gives, with the layers below as
that call leaves them. -/
def fetchCoin (cache : CCoinsViewCache) (outpoint : COutPoint) (rest : List CCoinsViewCache)
    (below : Option Coin × List CCoinsViewCache) :
    Option CCoinsCacheEntry × CCoinsViewCache × List CCoinsViewCache :=
  match cache.cacheCoins.lookup outpoint with
  | some it => (some it, cache, rest)
  | none =>
      match below with
      | (none, fetched) => (none, cache, fetched)
      | (some tmp, fetched) =>
          -- an empty entry of the parent makes ours fresh
          let ret : CCoinsCacheEntry := ⟨tmp, false, tmp.isSpent⟩
          (some ret, cache.store outpoint ret, fetched)

/-- `GetCoin` through all the layers down to the base. -/
def getCoin (view : CCoinsView State) (base : State) (outpoint : COutPoint) :
    List CCoinsViewCache → Option Coin × List CCoinsViewCache
  | [] => (view.getCoin base outpoint, [])
  | cache :: rest =>
      let (it, fetched) := cache.fetchCoin outpoint rest (getCoin view base outpoint rest)
      (it.bind fun entry => live Coin.isSpent entry.value, fetched.1 :: fetched.2)

def haveCoin (view : CCoinsView State) (base : State) (outpoint : COutPoint)
    (cache : CCoinsViewCache) (rest : List CCoinsViewCache) :
    Bool × List CCoinsViewCache :=
  let (it, fetched) := cache.fetchCoin outpoint rest (getCoin view base outpoint rest)
  (it.any fun entry => !entry.value.isSpent, fetched.1 :: fetched.2)

def emplaced (cache : CCoinsViewCache) (outpoint : COutPoint) : CCoinsCacheEntry :=
  (cache.cacheCoins.lookup outpoint).getD ⟨.cleared, false, false⟩

def addCoin (cache : CCoinsViewCache) (outpoint : COutPoint) (coin : Coin)
    (possibleOverwrite : Bool) : Except CacheFailure CCoinsViewCache := do
  require (!coin.isSpent) .aborted
  if coin.out.scriptPubKey.isUnspendable then .ok cache
  else
    let it := cache.emplaced outpoint
    if possibleOverwrite then .ok (cache.store outpoint ⟨coin, true, it.fresh⟩)
    else do
      require it.value.isSpent
        (.thrown "Attempted to overwrite an unspent coin (when possible_overwrite is false)")
      -- a spent entry that is dirty was not flushed yet and must not become fresh
      .ok (cache.store outpoint ⟨coin, true, it.fresh || !it.dirty⟩)

/-- `SpendCoin`: the coin moved out, or nothing if the call returns false. -/
def spendCoin (view : CCoinsView State) (base : State) (outpoint : COutPoint)
    (cache : CCoinsViewCache) (rest : List CCoinsViewCache) :
    Option Coin × List CCoinsViewCache :=
  match cache.fetchCoin outpoint rest (getCoin view base outpoint rest) with
  | (none, fetched) => (none, fetched.1 :: fetched.2)
  | (some it, fetched) =>
      (some it.value,
        (if it.fresh then fetched.1.drop outpoint
        else fetched.1.store outpoint ⟨.cleared, true, it.fresh⟩) :: fetched.2)

/-- One round of the loop of `BatchWrite`. -/
def batchWriteEntry (cacheCoins : CCoinsMap)
    (it : Sigma fun _ : COutPoint => CCoinsCacheEntry) : Except CacheFailure CCoinsMap :=
  if !it.2.dirty then .ok cacheCoins
  else
    match cacheCoins.lookup it.1 with
    | none =>
        if !(it.2.fresh && it.2.value.isSpent) then
          .ok (cacheCoins.insert it.1 ⟨it.2.value, true, it.2.fresh⟩)
        else .ok cacheCoins
    | some itUs =>
        if it.2.fresh && !itUs.value.isSpent then
          .error (.thrown "FRESH flag misapplied to coin that exists in parent cache")
        else if itUs.fresh && it.2.value.isSpent then .ok (cacheCoins.erase it.1)
        else .ok (cacheCoins.insert it.1 ⟨it.2.value, true, itUs.fresh⟩)

/-- `BatchWrite` of a cache: what is left of the map given to it, and the cache. -/
def batchWrite (cache : CCoinsViewCache) (mapCoins : CCoinsMap) (hashBlockIn : UInt256)
    (erase : Bool) : Except CacheFailure (CCoinsMap × CCoinsViewCache) := do
  let cacheCoins ← loop batchWriteEntry cache.cacheCoins mapCoins.entries
  .ok (if erase then ∅ else mapCoins, ⟨cacheCoins, hashBlockIn⟩)

/-- `base->BatchWrite`, where the base is the layer below or the base view. -/
def batchWriteBelow (view : CCoinsView State) (mapCoins : CCoinsMap) (hashBlock : UInt256)
    (erase : Bool) (base : State) :
    List CCoinsViewCache → Except CacheFailure (CCoinsMap × List CCoinsViewCache × State)
  | [] =>
      match view.batchWrite base mapCoins hashBlock erase with
      | none => .error .notWritten
      | some (left, after) => .ok (left, [], after)
  | parent :: rest => do
      let (left, after) ← parent.batchWrite mapCoins hashBlock erase
      .ok (left, after :: rest, base)

def flush (view : CCoinsView State) (base : State) (cache : CCoinsViewCache)
    (rest : List CCoinsViewCache) :
    Except CacheFailure (List CCoinsViewCache × State) := do
  let (left, below) ← batchWriteBelow view cache.cacheCoins cache.hashBlock true base rest
  require left.entries.isEmpty (.thrown "Not all cached coins were erased")
  .ok ({ cache with cacheCoins := ∅ } :: below.1, below.2)

/-- The loop of `Sync` after the write: spent coins go, the others lose their flags. -/
def sweep (mapCoins : CCoinsMap) : CCoinsMap :=
  mapCoins.entries.foldl (fun current it =>
    if it.2.value.isSpent then current.erase it.1
    else current.insert it.1 ⟨it.2.value, false, false⟩) mapCoins

def sync (view : CCoinsView State) (base : State) (cache : CCoinsViewCache)
    (rest : List CCoinsViewCache) :
    Except CacheFailure (List CCoinsViewCache × State) := do
  let (left, below) ← batchWriteBelow view cache.cacheCoins cache.hashBlock false base rest
  .ok ({ cache with cacheCoins := sweep left } :: below.1, below.2)

def uncache (cache : CCoinsViewCache) (outpoint : COutPoint) : CCoinsViewCache :=
  match cache.cacheCoins.lookup outpoint with
  | some it => if !it.dirty && !it.fresh then cache.drop outpoint else cache
  | none => cache

/-- The combination of flags and spentness that `SanityCheck` computes. -/
def attr (entry : CCoinsCacheEntry) : ℕ :=
  (if entry.dirty then 1 else 0) + (if entry.fresh then 2 else 0) +
    (if entry.value.isSpent then 4 else 0)

def sanityCheck (cache : CCoinsViewCache) : Bool :=
  cache.cacheCoins.entries.all fun it =>
    attr it.2 != 2 && attr it.2 != 4 && attr it.2 != 7

end CCoinsViewCache

/-- The operations of one layer. -/
inductive CoinsOp where
  | addCoin (outpoint : COutPoint) (coin : Coin) (possibleOverwrite : Bool)
  | spendCoin (outpoint : COutPoint)
  | getCoin (outpoint : COutPoint)
  | haveCoin (outpoint : COutPoint)
  | uncache (outpoint : COutPoint)
  | sync
  | flush
  deriving DecidableEq, Repr

inductive CoinsAnswer where
  | done
  | coin (found : Option Coin)
  | present (found : Bool)
  | moved (moveout : Option Coin)
  deriving DecidableEq, Repr

structure CoinsStack (State : Type) where
  layers : List CCoinsViewCache
  base : State

namespace CoinsStack

variable {State : Type}

open CCoinsViewCache

/-- An operation on the topmost of some layers. -/
def operate (view : CCoinsView State) (base : State) (cache : CCoinsViewCache)
    (rest : List CCoinsViewCache) :
    CoinsOp → Except CacheFailure (CoinsAnswer × List CCoinsViewCache × State)
  | .addCoin outpoint coin possibleOverwrite => do
      let added ← cache.addCoin outpoint coin possibleOverwrite
      .ok (.done, added :: rest, base)
  | .spendCoin outpoint =>
      let (moveout, layers) := spendCoin view base outpoint cache rest
      .ok (.moved moveout, layers, base)
  | .getCoin outpoint =>
      let (found, layers) := getCoin view base outpoint (cache :: rest)
      .ok (.coin found, layers, base)
  | .haveCoin outpoint =>
      let (found, layers) := haveCoin view base outpoint cache rest
      .ok (.present found, layers, base)
  | .uncache outpoint => .ok (.done, cache.uncache outpoint :: rest, base)
  | .sync => do
      let synced ← sync view base cache rest
      .ok (.done, synced)
  | .flush => do
      let flushed ← flush view base cache rest
      .ok (.done, flushed)

/-- An operation on the layer that has `level` layers above it. -/
def operateAt (view : CCoinsView State) (base : State) (op : CoinsOp) :
    ℕ → List CCoinsViewCache →
      Except CacheFailure (CoinsAnswer × List CCoinsViewCache × State)
  | _, [] => .error .aborted
  | 0, cache :: rest => operate view base cache rest op
  | level + 1, cache :: rest => do
      let (answer, below) ← operateAt view base op level rest
      .ok (answer, cache :: below.1, below.2)

def perform (view : CCoinsView State) (stack : CoinsStack State) (level : ℕ)
    (op : CoinsOp) : Except CacheFailure (CoinsAnswer × CoinsStack State) := do
  let (answer, after) ← operateAt view stack.base op level stack.layers
  .ok (answer, ⟨after.1, after.2⟩)

/-- Flushing every layer, from the topmost down. -/
def flushAll (view : CCoinsView State) (stack : CoinsStack State) :
    Except CacheFailure (CoinsStack State) :=
  loop (fun current level => do
    let (_, after) ← perform view current level .flush
    .ok after) stack (List.range stack.layers.length)

end CoinsStack

end FirstIslamicCoin
