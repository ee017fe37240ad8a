import FirstIslamicCoin.Wallet.ScriptPubKeyMan

/-!
# Coins a wallet can spend

`AvailableCoins` of `wallet/spend.cpp` over the transactions of a wallet, with
the size estimate that tells whether an output is solvable.
-/

namespace FirstIslamicCoin

open ByteCodec

section Size

variable (env : WalletEnv)

/-- `InferDescriptor` with `MaxSatisfactionWeight` and `MaxSatisfactionElems`. -/
def inferSatisfaction (provider : SigningProvider) (script : CScript) (useMaxSig : Bool) :
    Option Satisfaction :=
  let sigSize := if useMaxSig then 72 else 71
  match solver script with
  | (.pubkey, key :: _) =>
      if isCompressedOrUncompressedPubKey key then
        some ⟨(1 + sigSize) * witnessScaleFactor, 1, false⟩
      else none
  | (.pubkeyhash, keyID :: _) => do
      let key ← provider.getPubKey env keyID
      if isCompressedOrUncompressedPubKey key then
        some ⟨(1 + sigSize + 1 + key.length) * witnessScaleFactor, 2, false⟩
      else none
  | (.witnessV0Keyhash, keyID :: _) => do
      let key ← provider.getPubKey env keyID
      if isCompressedOrUncompressedPubKey key && key.length == 33 then
        some ⟨1 + sigSize + 1 + 33, 2, true⟩
      else none
  | _ => env.inferOther provider script useMaxSig

/-- `MaxInputWeight` of an input in a transaction with witness data. -/
def Satisfaction.maxInputWeight (satisfaction : Satisfaction) : ℕ :=
  let scriptsigLen := if satisfaction.isSegwit then 1
    else (writeCompactSize (satisfaction.weight / witnessScaleFactor)).length
  let witstackLen := if satisfaction.isSegwit then (writeCompactSize satisfaction.elems).length
    else 1
  (32 + 4 + 4 + scriptsigLen) * witnessScaleFactor + witstackLen + satisfaction.weight

/-- `CalculateMaximumSignedInputSize`: a size in virtual bytes, or -1. -/
def calculateMaximumSignedInputSize (script : CScript) (provider : Option SigningProvider)
    (useMaxSig : Bool) : ℤ :=
  match provider.bind fun provider => inferSatisfaction env provider script useMaxSig with
  | none => -1
  | some satisfaction =>
      ((satisfaction.maxInputWeight + witnessScaleFactor - 1) / witnessScaleFactor : ℕ)

/-- An input has a size exactly when a descriptor with one is inferred. -/
theorem neg_one_lt_calculateMaximumSignedInputSize {env : WalletEnv} {script : CScript}
    {provider : Option SigningProvider} {useMaxSig : Bool} :
    -1 < calculateMaximumSignedInputSize env script provider useMaxSig ↔
      (provider.bind fun provider =>
        inferSatisfaction env provider script useMaxSig).isSome = true := by
  rw [calculateMaximumSignedInputSize]
  split
  · rename_i hnone
    simp [hnone]
  · rename_i satisfaction hsome
    rw [hsome]
    exact iff_of_true (Int.lt_of_lt_of_le (by decide) (Int.natCast_nonneg _)) rfl

end Size

section Wallet

inductive TxState where
  | confirmed (confirmedBlockHeight : ℤ)
  | conflicted (conflictingBlockHeight : ℤ)
  | inMempool
  | inactive (abandoned : Bool)
  deriving DecidableEq, Repr

structure CWalletTx where
  tx : CTransaction
  state : TxState
  /-- `CachedTxIsTrusted` while the transaction is not in a block. -/
  trustedUnconfirmed : Bool
  deriving DecidableEq, Repr

/-- `CWallet`, as far as staking and spending read it. -/
structure CWallet where
  mans : ScriptPubKeyMans
  avoidReuse : Bool
  canGrindR : Bool
  mapWallet : List CWalletTx
  lastBlockHeight : ℤ
  lockedCoins : List COutPoint
  /-- The destinations marked as spent from. -/
  previouslySpent : List CTxDestination

structure CCoinControl where
  includeUnsafeInputs : Bool := false
  allowWatchOnly : Bool := false
  avoidAddressReuse : Bool := false
  minDepth : ℤ := 0
  maxDepth : ℤ := 9999999
  selected : List COutPoint := []
  deriving DecidableEq, Repr

structure CoinFilterParams where
  minAmount : CAmount := 1
  maxAmount : CAmount := maxMoney
  minSumAmount : CAmount := maxMoney
  maxCount : ℕ := 0
  onlySpendable : Bool := true
  includeImmatureCoinbase : Bool := false
  skipLocked : Bool := true
  deriving DecidableEq, Repr

structure COutput where
  outpoint : COutPoint
  txout : CTxOut
  depth : ℤ
  inputBytes : ℤ
  spendable : Bool
  solvable : Bool
  safe : Bool
  deriving DecidableEq, Repr

namespace CWallet

variable (params : Params) (env : External) (walletEnv : WalletEnv) (wallet : CWallet)

def getTxDepthInMainChain (wtx : CWalletTx) : ℤ :=
  match wtx.state with
  | .confirmed height => wallet.lastBlockHeight - height + 1
  | .conflicted height => -(wallet.lastBlockHeight - height + 1)
  | _ => 0

def getTxBlocksToMaturity (wtx : CWalletTx) : ℤ :=
  if !(wtx.tx.isCoinBase || wtx.tx.isCoinStake) then 0
  else if wtx.state = .confirmed 0 then 0
  else max 0 (params.nCoinbaseMaturity + 1 - wallet.getTxDepthInMainChain wtx)

def isTxImmature (wtx : CWalletTx) : Bool := 0 < wallet.getTxBlocksToMaturity params wtx

/-- `CachedTxIsTrusted`. -/
def isTrusted (wtx : CWalletTx) : Bool :=
  let nDepth := wallet.getTxDepthInMainChain wtx
  if 1 ≤ nDepth then true else if nDepth < 0 then false else wtx.trustedUnconfirmed

def isSpent (outpoint : COutPoint) : Bool :=
  wallet.mapWallet.any fun wtx =>
    wtx.tx.prevouts.contains outpoint &&
      let depth := wallet.getTxDepthInMainChain wtx
      decide (0 < depth) || (decide (depth = 0) && wtx.state != .inactive true)

def isSpentKey (scriptPubKey : CScript) : Bool :=
  match extractDestination walletEnv.hash160 scriptPubKey with
  | none => false
  | some dest =>
      wallet.previouslySpent.contains dest ||
        match wallet.mans with
        | .descriptors _ => false
        | .legacy man =>
            (walletEnv.getAffectedKeys man scriptPubKey).any fun keyid =>
              let wpkh := CTxDestination.witnessV0KeyHash keyid
              wallet.previouslySpent.contains wpkh ||
                wallet.previouslySpent.contains
                  (.scriptHash (walletEnv.hash160 (getScriptForDestination wpkh))) ||
                wallet.previouslySpent.contains (.pkHash keyid)

/-- `SetSpentKeyState` for an outpoint that is spent: the destination to mark, if
the output is in the wallet and the destination is its own. -/
def spentDestination (outpoint : COutPoint) : Option CTxDestination := do
  let srctx ← wallet.mapWallet.find? fun wtx => wtx.tx.getHash env == outpoint.hash
  let out ← srctx.tx.vout[outpoint.n.toNat]?
  let dst ← extractDestination walletEnv.hash160 out.scriptPubKey
  if wallet.mans.isMine walletEnv (getScriptForDestination dst) = .no then none else some dst

def addToWallet (added : CWalletTx) : CWallet :=
  { wallet with
    previouslySpent := wallet.previouslySpent ++
      if wallet.avoidReuse then
        added.tx.prevouts.filterMap (wallet.spentDestination env walletEnv)
      else []
    mapWallet := wallet.mapWallet.filter (fun wtx =>
      wtx.tx.getHash env != added.tx.getHash env) ++ [added] }

/-- Whether `AvailableCoins` takes outputs of addresses already spent from. -/
def allowUsedAddresses (coinControl : Option CCoinControl) : Bool :=
  !wallet.avoidReuse || coinControl.any fun control => !control.avoidAddressReuse

/-- What `AvailableCoins` makes of one output of a transaction it considers. -/
def availableOutput (coinControl : Option CCoinControl) (filter : CoinFilterParams)
    (wtx : CWalletTx) (entry : CTxOut × ℕ) : Option COutput :=
  let output := entry.1
  let outpoint := wtx.tx.outPoint env entry.2
  let mine := wallet.mans.isMineOut walletEnv output
  let provider := wallet.mans.getSolvingProvider walletEnv output.scriptPubKey
  let inputBytes := calculateMaximumSignedInputSize walletEnv output.scriptPubKey provider
    (!wallet.canGrindR || coinControl.any fun control => control.allowWatchOnly)
  let solvable := decide (-1 < inputBytes)
  let spendable := mine == .spendable || (mine == .watchOnly &&
    coinControl.any (fun control => control.allowWatchOnly) && solvable)
  if output.nValue < filter.minAmount ∨ filter.maxAmount < output.nValue then none
  else if coinControl.any fun control => control.selected.contains outpoint then none
  else if wallet.lockedCoins.contains outpoint ∧ filter.skipLocked then none
  else if wallet.isSpent outpoint then none
  else if mine = .no then none
  else if !wallet.allowUsedAddresses coinControl ∧
      wallet.isSpentKey walletEnv output.scriptPubKey then none
  else if !spendable ∧ filter.onlySpendable then none
  else if (solver output.scriptPubKey).1 = .scripthash ∧ solvable ∧
      (provider.bind fun provider => provider.getCScript walletEnv
        ((solver output.scriptPubKey).2.headD [])).isNone then none
  else some ⟨outpoint, output, wallet.getTxDepthInMainChain wtx, inputBytes, spendable, solvable,
    wallet.isTrusted wtx⟩

/-- Whether `AvailableCoins` considers the outputs of a transaction. -/
def considersTx (coinControl : Option CCoinControl) (filter : CoinFilterParams)
    (wtx : CWalletTx) : Bool :=
  let control := coinControl.getD {}
  let nDepth := wallet.getTxDepthInMainChain wtx
  !(wallet.isTxImmature params wtx && !filter.includeImmatureCoinbase) &&
    !(nDepth == 0 && wtx.state != .inMempool) &&
    !(!control.includeUnsafeInputs && !wallet.isTrusted wtx) &&
    !(decide (nDepth < control.minDepth) || decide (control.maxDepth < nDepth))

/-- The coins taken before the sum or the count asked for is reached. -/
def takeCoins (filter : CoinFilterParams) (taken : List COutput) : List COutput → List COutput
  | [] => taken
  | coin :: coins =>
      let taken := taken ++ [coin]
      let total := (taken.map fun coin => coin.txout.nValue.toInt).sum
      if (filter.minSumAmount ≠ maxMoney ∧ filter.minSumAmount.toInt ≤ total) ∨
          (0 < filter.maxCount ∧ filter.maxCount ≤ taken.length) then taken
      else takeCoins filter taken coins

def availableCoins (coinControl : Option CCoinControl) (filter : CoinFilterParams) :
    List COutput :=
  takeCoins filter [] <|
    (wallet.mapWallet.filter (wallet.considersTx params coinControl filter)).flatMap fun wtx =>
      wtx.tx.vout.zipIdx.filterMap
        (wallet.availableOutput env walletEnv coinControl filter wtx)

variable {params env walletEnv wallet}

/-- Whether an output with this script, asked for without coin control, counts as
spendable and solvable, and its address is not held back. -/
structure Offers (walletEnv : WalletEnv) (wallet : CWallet) (script : CScript) : Prop where
  notUsed : wallet.avoidReuse = false ∨ wallet.isSpentKey walletEnv script = false
  spendable : wallet.mans.isMineOut walletEnv ⟨0, script⟩ = .spendable
  solvable : -1 < calculateMaximumSignedInputSize walletEnv script
    (wallet.mans.getSolvingProvider walletEnv script) (!wallet.canGrindR)

theorem isMineOut_eq (mans : ScriptPubKeyMans) (out : CTxOut) :
    mans.isMineOut walletEnv out = mans.isMineOut walletEnv ⟨0, out.scriptPubKey⟩ := rfl

/-- A coin returned as spendable and solvable has a script the wallet offers. -/
theorem offers_of_availableOutput {wtx : CWalletTx} {entry : CTxOut × ℕ} {coin : COutput}
    (hcoin : wallet.availableOutput env walletEnv none {} wtx entry = some coin)
    (hspendable : coin.spendable = true) (hsolvable : coin.solvable = true) :
    coin.txout = entry.1 ∧ Offers walletEnv wallet entry.1.scriptPubKey := by
  simp only [availableOutput, Option.any_none, Bool.or_false, Bool.and_false, Bool.false_and,
    Bool.false_eq_true, if_false, allowUsedAddresses] at hcoin
  split_ifs at hcoin with _ _ _ _ hused
  obtain rfl := Option.some.inj hcoin
  refine ⟨rfl, ⟨?_, ?_, ?_⟩⟩
  · cases hreuse : wallet.avoidReuse with
    | false => exact .inl rfl
    | true =>
      right
      simpa [hreuse] using hused
  · rw [← isMineOut_eq]
    simpa using hspendable
  · simpa using hsolvable

/-- An output the wallet offers, neither locked nor spent, is returned. -/
theorem Offers.exists_availableOutput (wtx : CWalletTx) {entry : CTxOut × ℕ}
    (hoffers : Offers walletEnv wallet entry.1.scriptPubKey)
    (htype : (solver entry.1.scriptPubKey).1 ≠ .scripthash) (hvalue : 0 < entry.1.nValue)
    (hunlocked : wtx.tx.outPoint env entry.2 ∉ wallet.lockedCoins)
    (hunspent : wallet.isSpent (wtx.tx.outPoint env entry.2) = false) :
    ∃ coin, wallet.availableOutput env walletEnv none {} wtx entry = some coin ∧
      coin.outpoint = wtx.tx.outPoint env entry.2 ∧ coin.txout = entry.1 ∧
      coin.spendable = true ∧ coin.solvable = true := by
  obtain ⟨hused, hspendable, hsolvable⟩ := hoffers
  rw [← isMineOut_eq] at hspendable
  have hamount : ¬(entry.1.nValue < 1 ∨ maxMoney < entry.1.nValue) := by
    rw [Int64.lt_iff_toInt_lt] at hvalue
    simp only [Int64.lt_iff_toInt_lt]
    have hpos : (0 : Int64).toInt = 0 := rfl
    have hone : (1 : Int64).toInt = 1 := rfl
    have hmax : maxMoney.toInt = 2 ^ 63 - 1 := rfl
    have hle := Int64.toInt_lt entry.1.nValue
    omega
  have hreuse : ¬(!wallet.allowUsedAddresses none ∧
      wallet.isSpentKey walletEnv entry.1.scriptPubKey = true) := by
    rintro ⟨hallow, hspent⟩
    rcases hused with hoff | hfresh
    · simp [allowUsedAddresses, hoff] at hallow
    · rw [hfresh] at hspent
      exact Bool.noConfusion hspent
  have hlocked : ¬(wallet.lockedCoins.contains (wtx.tx.outPoint env entry.2) ∧ True) := by
    simpa using hunlocked
  refine ⟨⟨wtx.tx.outPoint env entry.2, entry.1, wallet.getTxDepthInMainChain wtx,
    calculateMaximumSignedInputSize walletEnv entry.1.scriptPubKey
      (wallet.mans.getSolvingProvider walletEnv entry.1.scriptPubKey) (!wallet.canGrindR),
    true, true, wallet.isTrusted wtx⟩, ?_, rfl, rfl, rfl, rfl⟩
  simp only [availableOutput, Option.any_none, Bool.or_false, Bool.and_false, Bool.false_and,
    Bool.false_eq_true, if_false, hspendable, hsolvable, beq_self_eq_true, decide_true]
  rw [if_neg hamount, if_neg hlocked, if_neg (by simpa using hunspent), if_neg (by decide),
    if_neg hreuse, if_neg (by simp), if_neg (fun hscript => htype hscript.1)]

theorem takeCoins_default (taken coins : List COutput) :
    takeCoins {} taken coins = taken ++ coins := by
  induction coins generalizing taken with
  | nil => simp [takeCoins]
  | cons coin coins ih => simp [takeCoins, ih]

/-- Without coin control and with the default filter, every output that passes
is returned. -/
theorem mem_availableCoins {coin : COutput} :
    coin ∈ wallet.availableCoins params env walletEnv none {} ↔
      ∃ wtx ∈ wallet.mapWallet, wallet.considersTx params none {} wtx = true ∧
        ∃ entry ∈ wtx.tx.vout.zipIdx,
          wallet.availableOutput env walletEnv none {} wtx entry = some coin := by
  simp [availableCoins, takeCoins_default, and_assoc]

/-- The outputs of a mature transaction in a block are considered. -/
theorem considersTx_of_confirmed {wtx : CWalletTx} (hdeep : 1 ≤ wallet.getTxDepthInMainChain wtx)
    (hshallow : wallet.getTxDepthInMainChain wtx ≤ 9999999)
    (hmature : wallet.isTxImmature params wtx = false) :
    wallet.considersTx params none {} wtx = true := by
  have hconfirmed : wallet.getTxDepthInMainChain wtx ≠ 0 := by omega
  have hlow : ¬ wallet.getTxDepthInMainChain wtx < 0 := by omega
  have hhigh : ¬ 9999999 < wallet.getTxDepthInMainChain wtx := by omega
  simp [considersTx, isTrusted, hdeep, hmature, hconfirmed, hlow, hhigh]

end CWallet

end Wallet

end FirstIslamicCoin
