import FirstIslamicCoin.Wallet.Spend

/-!
# Staking

`CreateCoinStake` of `wallet/staking.cpp`: the search for a kernel among the
selected coins, the script its stake is paid back to, the inputs combined with
it, and the outputs.  A coin that was paid to the hash of a key is staked back
to the key itself, which a descriptor wallet owns but need not be able to solve.
-/

namespace FirstIslamicCoin

open ByteCodec

section Create

variable (env : External) (walletEnv : WalletEnv)

/-- What `CreateCoinStake` reads besides the script managers of the wallet. -/
structure StakingContext where
  params : Params
  /-- The transaction to fill, with its version and timestamp. -/
  txNew : CTransaction
  tipHeight : ℤ
  nFees : CAmount
  nBalance : CAmount
  reserveBalance : CAmount
  /-- The coins that `SelectCoinsForStaking` chose, in the order of the set. -/
  setCoins : List (CTransaction × ℕ)
  findTx : UInt256 → Bool
  checkKernel : UInt32 → COutPoint → Bool
  nSearchInterval : ℤ
  destination : CTxDestination
  /-- The script and witness with which the wallet signs an input. -/
  sign : CTransaction → ℕ → Option (CScript × List Bytes)

/-- The key to which a coin paid to its hash is staked back. -/
def stakingKey (mans : ScriptPubKeyMans) (kernel : CScript) (keyID : Bytes) : Option Bytes :=
  match mans with
  | .legacy man => man.getKey walletEnv keyID
  | .descriptors _ => (mans.getSolvingProvider walletEnv kernel).bind fun provider =>
      provider.getPubKey walletEnv keyID

/-- The script of the output for the minter key, if there is one, and the script
that the stake is paid back to. -/
def stakeScripts (mans : ScriptPubKeyMans) (destination : CTxDestination)
    (scriptPubKeyKernel : CScript) : Option (Option CScript × CScript) :=
  match solver scriptPubKeyKernel with
  | (.pubkeyhash, keyID :: _) =>
      (stakingKey walletEnv mans scriptPubKeyKernel keyID).map fun key =>
        (none, getScriptForRawPubKey key)
  | (.pubkey, _) => some (none, scriptPubKeyKernel)
  | (.witnessV0Keyhash, _) | (.witnessV1Taproot, _) => do
      let scriptPubKeyTmp := getScriptForDestination destination
      let provider ← mans.getSolvingProvider walletEnv scriptPubKeyTmp
      let keyID ← (solver scriptPubKeyTmp).2.head?
      let pkey ← provider.getPubKey walletEnv keyID
      some (some (getScriptForRawPubKey pkey), scriptPubKeyKernel)
  | _ => none

def stakedOut (coin : CTransaction × ℕ) : CTxOut := (coin.1.vout[coin.2]?).getD ⟨-1, []⟩

/-- The kernel: the first selected coin that stakes at one of the times tried
and whose script is supported, with the seconds before the given time. -/
def StakingContext.findKernel (context : StakingContext) (mans : ScriptPubKeyMans) :
    Option ((CTransaction × ℕ) × ℕ × Option CScript × CScript) :=
  context.setCoins.findSome? fun coin =>
    if !context.findTx (coin.1.getHash env) then none
    else do
      let n ← (List.range (min context.nSearchInterval 60).toNat).find? fun n =>
        context.checkKernel (context.txNew.nTime - UInt32.ofNat n) (coin.1.outPoint env coin.2)
      let scripts ← stakeScripts walletEnv mans context.destination (stakedOut coin).scriptPubKey
      some (coin, n, scripts)

/-- `GetStakeCombineThreshold` and `GetStakeSplitThreshold`. -/
def stakeCombineThreshold : CAmount := 500 * 100000000
def stakeSplitThreshold : CAmount := 2 * stakeCombineThreshold

/-- The further inputs, and the credit with them.  Once the transaction has an
output for the minter key, none are added. -/
def StakingContext.combineInputs (context : StakingContext) (hasMinterKey : Bool)
    (kernel : CTransaction × ℕ) (scriptPubKeyOut : CScript) :
    List (CTransaction × ℕ) → List COutPoint × CAmount → List COutPoint × CAmount
  | [], inputs => inputs
  | coin :: coins, inputs =>
      let script := (stakedOut coin).scriptPubKey
      let nValue := (stakedOut coin).nValue
      if !context.findTx (coin.1.getHash env) then
        context.combineInputs hasMinterKey kernel scriptPubKeyOut coins inputs
      else if !hasMinterKey ∧
          (script = (stakedOut kernel).scriptPubKey ∨ script = scriptPubKeyOut) ∧
          coin.1.getHash env ≠ kernel.1.getHash env then
        if 10 ≤ inputs.1.length then inputs
        else if stakeCombineThreshold ≤ inputs.2 then inputs
        else if context.nBalance - context.reserveBalance < inputs.2 + nValue then inputs
        else if stakeCombineThreshold ≤ nValue then
          context.combineInputs hasMinterKey kernel scriptPubKeyOut coins inputs
        else context.combineInputs hasMinterKey kernel scriptPubKeyOut coins
          (inputs.1 ++ [coin.1.outPoint env coin.2], inputs.2 + nValue)
      else context.combineInputs hasMinterKey kernel scriptPubKeyOut coins inputs

/-- The outputs of a coinstake: the empty one that marks it, the one for the
minter key, and the stake in one part or two. -/
def stakeOutputs (minterKey : Option CScript) (scriptPubKeyOut : CScript) (nCredit : CAmount) :
    List CTxOut :=
  ⟨0, []⟩ :: (minterKey.toList.map fun script => ⟨0, script⟩) ++
    if stakeSplitThreshold ≤ nCredit then
      [⟨nCredit / 2 / 1000000 * 1000000, scriptPubKeyOut⟩,
        ⟨nCredit - nCredit / 2 / 1000000 * 1000000, scriptPubKeyOut⟩]
    else [⟨nCredit, scriptPubKeyOut⟩]

/-- The signatures put in place.  A legacy wallet gives up when one fails, a
descriptor wallet does not look. -/
def StakingContext.signInputs (context : StakingContext) (mans : ScriptPubKeyMans)
    (tx : CTransaction) : Option CTransaction :=
  let signatures := tx.vin.zipIdx.map fun entry => (entry.1, context.sign tx entry.2)
  if mans.isLegacy ∧ signatures.any fun entry => entry.2.isNone then none
  else some { tx with vin := signatures.map fun entry =>
    match entry.2 with
    | none => entry.1
    | some (scriptSig, scriptWitness) =>
        { entry.1 with scriptSig := scriptSig, scriptWitness := scriptWitness } }

def StakingContext.createCoinStake (context : StakingContext) (mans : ScriptPubKeyMans) :
    Option CTransaction := do
  guard (context.reserveBalance < context.nBalance)
  let (kernel, n, minterKey, scriptPubKeyOut) ← context.findKernel env walletEnv mans
  let nCredit := (stakedOut kernel).nValue
  guard (nCredit ≠ 0 ∧ nCredit ≤ context.nBalance - context.reserveBalance)
  let (prevouts, nCredit) := context.combineInputs env minterKey.isSome kernel scriptPubKeyOut
    context.setCoins ([kernel.1.outPoint env kernel.2], nCredit)
  let nReward := context.params.stakeReward (context.tipHeight + 1) + context.nFees
  guard (0 ≤ nReward)
  let tx ← context.signInputs mans
    { context.txNew with
      nTime := context.txNew.nTime - UInt32.ofNat n
      vin := prevouts.map fun prevout => ⟨prevout, [], 0xffffffff, []⟩
      vout := stakeOutputs minterKey scriptPubKeyOut (nCredit + nReward) }
  guard ((serializeTransaction true tx).length < 1000000 / 5)
  return tx

end Create

section Outputs

variable {env : External} {walletEnv : WalletEnv} {context : StakingContext}
  {mans : ScriptPubKeyMans}

/-- Every output that carries value is paid to the script of the stake. -/
theorem scriptPubKey_of_mem_stakeOutputs {minterKey : Option CScript} {script : CScript}
    {nCredit : CAmount} {out : CTxOut} (hmem : out ∈ stakeOutputs minterKey script nCredit)
    (hvalue : 0 < out.nValue) : out.scriptPubKey = script := by
  have hzero : ∀ marker : CScript, out ≠ ⟨0, marker⟩ := by
    rintro marker rfl
    exact Int64.lt_irrefl hvalue
  rw [stakeOutputs, List.mem_append, List.mem_cons, List.mem_map] at hmem
  rcases hmem with (hmarker | ⟨minter, _, hminter⟩) | hstake
  · exact absurd hmarker (hzero _)
  · exact absurd hminter.symm (hzero _)
  · split_ifs at hstake
    · rcases List.mem_cons.mp hstake with rfl | hsecond
      · rfl
      · rw [List.mem_singleton.mp hsecond]
    · rw [List.mem_singleton.mp hstake]

/-- The outputs of a coinstake are those of the stake of its kernel. -/
theorem createCoinStake_outputs {tx : CTransaction}
    (hcreate : context.createCoinStake env walletEnv mans = some tx) :
    ∃ kernel n minterKey script nCredit,
      context.findKernel env walletEnv mans = some (kernel, n, minterKey, script) ∧
        tx.vout = stakeOutputs minterKey script nCredit := by
  simp only [StakingContext.createCoinStake, Option.bind_eq_bind, Option.bind_eq_some_iff,
    Option.guard_eq_some'] at hcreate
  obtain ⟨_, _, ⟨kernel, n, minterKey, script⟩, hkernel, _, _, _, _, signed, hsigned, _, _, hpure⟩ :=
    hcreate
  obtain rfl : signed = tx := Option.some.inj hpure
  rw [StakingContext.signInputs] at hsigned
  split_ifs at hsigned
  obtain rfl := Option.some.inj hsigned
  exact ⟨kernel, n, minterKey, script, _, hkernel, rfl⟩

theorem stakeScripts_of_findKernel {kernel : CTransaction × ℕ} {n : ℕ}
    {scripts : Option CScript × CScript}
    (hkernel : context.findKernel env walletEnv mans = some (kernel, n, scripts)) :
    stakeScripts walletEnv mans context.destination (stakedOut kernel).scriptPubKey =
      some scripts := by
  obtain ⟨coin, _, hcoin⟩ := List.exists_of_findSome?_eq_some hkernel
  split_ifs at hcoin
  simp only [Option.bind_eq_bind, Option.bind_eq_some_iff] at hcoin
  obtain ⟨offset, _, found, hfound, hsome⟩ := hcoin
  obtain ⟨rfl, -, rfl⟩ : coin = kernel ∧ offset = n ∧ found = scripts := by
    simpa using hsome
  exact hfound

/-- A stake goes back to the script of its kernel, except that one paid to the
hash of a key goes to the key. -/
theorem stakeScripts_cases {destination : CTxDestination} {kernel script : CScript}
    {minterKey : Option CScript}
    (hscripts : stakeScripts walletEnv mans destination kernel = some (minterKey, script)) :
    (∃ keyID key, solver kernel = (.pubkeyhash, [keyID]) ∧
        kernel = getScriptForDestination (.pkHash keyID) ∧
        stakingKey walletEnv mans kernel keyID = some key ∧
        script = getScriptForRawPubKey key) ∨
      ((solver kernel).1 ≠ .pubkeyhash ∧ (solver kernel).1 ≠ .scripthash ∧ script = kernel) := by
  by_cases htype : (solver kernel).1 = .pubkeyhash
  · obtain ⟨keyID, hform, hsolver⟩ := solver_fst_eq_pubkeyhash htype
    rw [stakeScripts, hsolver] at hscripts
    obtain ⟨key, hkey, hpair⟩ := Option.map_eq_some_iff.mp hscripts
    obtain ⟨-, rfl⟩ := Prod.mk.inj hpair
    exact .inl ⟨keyID, key, hsolver, eq_getScriptForDestination_of_isToKeyID hform, hkey, rfl⟩
  · right
    rw [stakeScripts] at hscripts
    split at hscripts
    · rename_i hsolver
      exact absurd (congrArg Prod.fst hsolver) htype
    · rename_i hsolver
      obtain ⟨-, rfl⟩ := Prod.mk.inj (Option.some.inj hscripts)
      exact ⟨htype, by simp [hsolver], rfl⟩
    · rename_i hsolver
      simp only [Option.bind_eq_bind, Option.bind_eq_some_iff] at hscripts
      obtain ⟨_, _, _, _, _, _, hpair⟩ := hscripts
      obtain ⟨-, rfl⟩ := Prod.mk.inj (Option.some.inj hpair)
      exact ⟨htype, by simp [hsolver], rfl⟩
    · rename_i hsolver
      simp only [Option.bind_eq_bind, Option.bind_eq_some_iff] at hscripts
      obtain ⟨_, _, _, _, _, _, hpair⟩ := hscripts
      obtain ⟨-, rfl⟩ := Prod.mk.inj (Option.some.inj hpair)
      exact ⟨htype, by simp [hsolver], rfl⟩
    · exact nomatch hscripts

end Outputs

section Offered

variable {walletEnv : WalletEnv} {mans : ScriptPubKeyMans} {kernel : CScript}
  {keyID key : Bytes}

/-- Whether some descriptor of a wallet expands to this very script. -/
def ScriptPubKeyMans.holdsScript (mans : ScriptPubKeyMans) (script : CScript) : Bool :=
  match mans with
  | .legacy _ => false
  | .descriptors mans => mans.any fun man => (man.mapScriptPubKeys script).isSome

theorem isSome_getSolvingProvider_descriptors (walletEnv : WalletEnv)
    {descriptors : List DescriptorScriptPubKeyMan} (script : CScript) :
    ((ScriptPubKeyMans.descriptors descriptors).getSolvingProvider walletEnv script).isSome =
      (ScriptPubKeyMans.descriptors descriptors).holdsScript script := by
  simp only [ScriptPubKeyMans.getSolvingProvider, ScriptPubKeyMans.holdsScript]
  induction descriptors with
  | nil => rfl
  | cons man descriptors ih =>
    cases hfound : man.mapScriptPubKeys script with
    | none => simp [hfound, ih]
    | some index => simp [hfound]

/-- A key that a wallet stakes with is a proper key with the hash asked for. -/
theorem stakingKey_spec (hkey : stakingKey walletEnv mans kernel keyID = some key) :
    isCompressedOrUncompressedPubKey key = true ∧ walletEnv.hash160 key = keyID := by
  cases mans with
  | legacy man =>
    simp only [stakingKey, LegacyScriptPubKeyMan.getKey] at hkey
    split_ifs at hkey
    exact ⟨man.keys_valid key (List.mem_of_find?_eq_some hkey),
      by simpa using List.find?_some hkey⟩
  | descriptors descriptors =>
    obtain ⟨provider, hprovider, hfound⟩ := Option.bind_eq_some_iff.mp hkey
    simp only [ScriptPubKeyMans.getSolvingProvider] at hprovider
    obtain ⟨man, _, hman⟩ := List.exists_of_findSome?_eq_some hprovider
    obtain ⟨index, _, rfl⟩ := Option.map_eq_some_iff.mp hman
    exact ⟨(man.expandFromCache index).pubkeys_valid key (List.mem_of_find?_eq_some hfound),
      by simpa using List.find?_some hfound⟩

/-- An input that spends the script of a proper key has a size, once anyone
provides for that script. -/
theorem solvable_getScriptForRawPubKey (walletEnv : WalletEnv) (hkey : isCompressedOrUncompressedPubKey key = true)
    (provider : Option SigningProvider) (useMaxSig : Bool) :
    -1 < calculateMaximumSignedInputSize walletEnv (getScriptForRawPubKey key) provider
      useMaxSig ↔ provider.isSome = true := by
  rw [neg_one_lt_calculateMaximumSignedInputSize]
  cases provider with
  | none => rfl
  | some provider => simp [inferSatisfaction, solver_getScriptForRawPubKey hkey, hkey]

/-- What the wallet of a stake has to be for the stake to be offered again: a
kernel paid to the hash of a key needs a wallet that knows the script of the key
itself, any other needs no more than it had. -/
def StakesBack (walletEnv : WalletEnv) (wallet : CWallet) (kernel : CScript) : Prop :=
  match solver kernel with
  | (.pubkeyhash, keyID :: _) => wallet.mans.isLegacy = true ∨
      ∃ key, stakingKey walletEnv wallet.mans kernel keyID = some key ∧
        wallet.mans.holdsScript (getScriptForRawPubKey key) = true
  | _ => wallet.mans.isMineOut walletEnv ⟨0, kernel⟩ = .spendable ∧
      -1 < calculateMaximumSignedInputSize walletEnv kernel
        (wallet.mans.getSolvingProvider walletEnv kernel) (!wallet.canGrindR)

/-- A legacy manager owns the script of a key it holds, and provides for it. -/
theorem isMineInner_getScriptForRawPubKey {man : LegacyScriptPubKeyMan}
    (hvalid : isCompressedOrUncompressedPubKey key = true)
    (hkey : man.haveKey walletEnv (walletEnv.hash160 key) = true) (recurseScripthash : Bool) :
    isMineInner walletEnv man 3 (getScriptForRawPubKey key) .top recurseScripthash =
      .spendable := by
  simp [isMineInner, isMineByForm, solver_getScriptForRawPubKey hvalid, hkey]

/-- The script of a key is spendable in a wallet that stakes with the key, and
solvable in a legacy wallet or under a descriptor for it. -/
theorem offered_getScriptForRawPubKey (hform : kernel = getScriptForDestination (.pkHash keyID))
    (hkey : stakingKey walletEnv mans kernel keyID = some key) :
    mans.isMineOut walletEnv ⟨0, getScriptForRawPubKey key⟩ = .spendable ∧
      ((mans.getSolvingProvider walletEnv (getScriptForRawPubKey key)).isSome = true ↔
        mans.isLegacy = true ∨ mans.holdsScript (getScriptForRawPubKey key) = true) := by
  obtain ⟨hvalid, hhash⟩ := stakingKey_spec hkey
  cases mans with
  | legacy man =>
    have hhave : man.haveKey walletEnv (walletEnv.hash160 key) = true := by
      simp only [stakingKey, LegacyScriptPubKeyMan.getKey] at hkey
      split_ifs at hkey
      simp only [LegacyScriptPubKeyMan.haveKey, List.any_eq_true]
      exact ⟨key, List.mem_of_find?_eq_some hkey, by simp⟩
    have hmine := isMineInner_getScriptForRawPubKey hvalid hhave
    refine ⟨?_, iff_of_true ?_ (.inl rfl)⟩
    · simp [ScriptPubKeyMans.isMineOut, ScriptPubKeyMans.isMine, hmine]
    · simp [ScriptPubKeyMans.getSolvingProvider, LegacyScriptPubKeyMan.canProvide, hmine]
  | descriptors descriptors =>
    refine ⟨?_, ?_⟩
    · -- Ownership falls back on the hash of the key, which is the kernel's.
      have hkernel : (ScriptPubKeyMans.descriptors descriptors).holdsScript kernel = true := by
        obtain ⟨provider, hprovider, _⟩ := Option.bind_eq_some_iff.mp hkey
        rw [← isSome_getSolvingProvider_descriptors walletEnv, hprovider]
        rfl
      have hdestination : extractDestination walletEnv.hash160 (getScriptForRawPubKey key) =
          some (.pkHash keyID) := by
        simp [extractDestination, solver_getScriptForRawPubKey hvalid, hhash]
      have howned (script : CScript) :
          (ScriptPubKeyMans.descriptors descriptors).isMine walletEnv script =
            if (ScriptPubKeyMans.descriptors descriptors).holdsScript script then .spendable
            else .no := rfl
      cases hheld : (ScriptPubKeyMans.descriptors descriptors).holdsScript
          (getScriptForRawPubKey key) with
      | true => simp [ScriptPubKeyMans.isMineOut, howned, hheld]
      | false =>
        simp [ScriptPubKeyMans.isMineOut, howned, hheld, hdestination, ← hform, hkernel]
    · rw [isSome_getSolvingProvider_descriptors]
      simp [ScriptPubKeyMans.isLegacy]

variable {destination : CTxDestination} {minterKey : Option CScript} {script : CScript}

theorem offers_iff_stakesBack {wallet : CWallet}
    (hscripts : stakeScripts walletEnv wallet.mans destination kernel = some (minterKey, script)) :
    CWallet.Offers walletEnv wallet script ↔
      (wallet.avoidReuse = false ∨ wallet.isSpentKey walletEnv script = false) ∧
        StakesBack walletEnv wallet kernel := by
  rcases stakeScripts_cases hscripts with
    ⟨keyID, key, hsolver, hform, hkey, rfl⟩ | ⟨htype, _, rfl⟩
  · obtain ⟨hspendable, hprovider⟩ := offered_getScriptForRawPubKey hform hkey
    have hsolvable := (solvable_getScriptForRawPubKey walletEnv
      (stakingKey_spec hkey).1 (wallet.mans.getSolvingProvider walletEnv
        (getScriptForRawPubKey key)) (!wallet.canGrindR)).trans hprovider
    have hback : StakesBack walletEnv wallet kernel ↔
        wallet.mans.isLegacy = true ∨
          wallet.mans.holdsScript (getScriptForRawPubKey key) = true := by
      simp only [StakesBack, hsolver, hkey, Option.some.injEq, exists_eq_left']
    rw [hback, ← hsolvable]
    exact ⟨fun hoffers => ⟨hoffers.notUsed, hoffers.solvable⟩,
      fun hboth => ⟨hboth.1, hspendable, hboth.2⟩⟩
  · have hback : StakesBack walletEnv wallet script ↔
        wallet.mans.isMineOut walletEnv ⟨0, script⟩ = .spendable ∧
          -1 < calculateMaximumSignedInputSize walletEnv script
            (wallet.mans.getSolvingProvider walletEnv script) (!wallet.canGrindR) := by
      rw [StakesBack]
      split
      · rename_i hsolver
        exact absurd (congrArg Prod.fst hsolver) htype
      · rfl
    rw [hback]
    exact ⟨fun hoffers => ⟨hoffers.notUsed, hoffers.spendable, hoffers.solvable⟩,
      fun hboth => ⟨hboth.1, hboth.2.1, hboth.2.2⟩⟩

theorem solver_ne_scripthash_of_stakeScripts
    (hscripts : stakeScripts walletEnv mans destination kernel = some (minterKey, script)) :
    (solver script).1 ≠ .scripthash := by
  rcases stakeScripts_cases hscripts with ⟨keyID, key, _, _, hkey, rfl⟩ | ⟨_, htype, rfl⟩
  · rw [solver_getScriptForRawPubKey (stakingKey_spec hkey).1]
    exact nofun
  · exact htype

/-- The script a stake is paid back to has the destination of its kernel. -/
theorem extractDestination_of_stakeScripts
    (hscripts : stakeScripts walletEnv mans destination kernel = some (minterKey, script)) :
    extractDestination walletEnv.hash160 script = extractDestination walletEnv.hash160 kernel := by
  rcases stakeScripts_cases hscripts with ⟨keyID, key, hsolver, _, hkey, rfl⟩ | ⟨_, _, rfl⟩
  · obtain ⟨hvalid, hhash⟩ := stakingKey_spec hkey
    simp [extractDestination, solver_getScriptForRawPubKey hvalid, hsolver, hhash]
  · rfl

theorem isSpentKey_addToWallet {env : External} {wallet : CWallet} {added : CWalletTx}
    {prevout : COutPoint} {dst : CTxDestination}
    (hscripts : stakeScripts walletEnv wallet.mans destination kernel = some (minterKey, script))
    (hreuse : wallet.avoidReuse = true) (hprevout : prevout ∈ added.tx.prevouts)
    (hkernel : extractDestination walletEnv.hash160 kernel = some dst)
    (hspent : wallet.spentDestination env walletEnv prevout = some dst) :
    (wallet.addToWallet env walletEnv added).isSpentKey walletEnv script = true := by
  have hmarked : dst ∈ (wallet.addToWallet env walletEnv added).previouslySpent := by
    simp only [CWallet.addToWallet, hreuse, if_true, List.mem_append, List.mem_filterMap]
    exact .inr ⟨prevout, hprevout, hspent⟩
  have hdestination := (extractDestination_of_stakeScripts hscripts).trans hkernel
  simp [CWallet.isSpentKey, hdestination, hmarked]

end Offered

theorem stake_returned_iff (env : External) (walletEnv : WalletEnv) (context : StakingContext)
    (wallet later : CWallet) (tx : CTransaction) (kernel : CTransaction × ℕ) (n : ℕ)
    (scripts : Option CScript × CScript) (wtx : CWalletTx) (output : CTxOut) (i : ℕ)
    (hcreate : context.createCoinStake env walletEnv wallet.mans = some tx)
    (hkernel : context.findKernel env walletEnv wallet.mans = some (kernel, n, scripts))
    (hmans : later.mans = wallet.mans) (hmem : wtx ∈ later.mapWallet) (htx : wtx.tx = tx)
    (hdeep : 1 ≤ later.getTxDepthInMainChain wtx)
    (hshallow : later.getTxDepthInMainChain wtx ≤ 9999999)
    (hmature : later.isTxImmature context.params wtx = false)
    (hout : (output, i) ∈ tx.vout.zipIdx) (hvalue : 0 < output.nValue)
    (hunlocked : tx.outPoint env i ∉ later.lockedCoins)
    (hunspent : later.isSpent (tx.outPoint env i) = false) :
    (∃ coin ∈ later.availableCoins context.params env walletEnv none {},
        coin.outpoint = tx.outPoint env i ∧ coin.txout = output ∧
          coin.spendable = true ∧ coin.solvable = true) ↔
      (later.avoidReuse = false ∨ later.isSpentKey walletEnv output.scriptPubKey = false) ∧
        StakesBack walletEnv later (stakedOut kernel).scriptPubKey := by
  obtain ⟨_, _, minterKey, script, nCredit, hfound, hvout⟩ := createCoinStake_outputs hcreate
  obtain ⟨rfl, rfl, rfl⟩ : _ = kernel ∧ _ = n ∧ (minterKey, script) = scripts := by
    simpa using hfound.symm.trans hkernel
  have hscript : output.scriptPubKey = script := by
    have hmemOut : output ∈ tx.vout :=
      List.mem_of_getElem? (List.mk_mem_zipIdx_iff_getElem?.mp hout)
    rw [hvout] at hmemOut
    exact scriptPubKey_of_mem_stakeOutputs hmemOut hvalue
  have hscripts := hmans ▸ stakeScripts_of_findKernel hkernel
  rw [hscript, ← offers_iff_stakesBack hscripts]
  constructor
  · rintro ⟨coin, hcoin, _, htxout, hspendable, hsolvable⟩
    obtain ⟨other, _, _, entry, _, hentry⟩ := CWallet.mem_availableCoins.mp hcoin
    obtain ⟨hsame, hoffers⟩ := CWallet.offers_of_availableOutput hentry hspendable hsolvable
    rwa [← hsame, htxout, hscript] at hoffers
  · intro hoffers
    subst htx
    have hofferedOut : CWallet.Offers walletEnv later (output, i).1.scriptPubKey :=
      hscript ▸ hoffers
    have htype : (solver (output, i).1.scriptPubKey).1 ≠ .scripthash :=
      hscript ▸ solver_ne_scripthash_of_stakeScripts hscripts
    obtain ⟨coin, hcoin, houtpoint, htxout, hspendable, hsolvable⟩ :=
      CWallet.Offers.exists_availableOutput wtx hofferedOut htype hvalue hunlocked hunspent
    have hconsidered := CWallet.considersTx_of_confirmed hdeep hshallow hmature
    exact ⟨coin, CWallet.mem_availableCoins.mpr
      ⟨wtx, hmem, hconsidered, (output, i), hout, hcoin⟩, houtpoint, htxout, hspendable,
      hsolvable⟩

section Staker

/-- The public key of the private key one. -/
def stakerKey : Bytes := 2 ::
  (littleEndian 32 0x79be667ef9dcbbac55a06295ce870b07029bfcdb2dce28d959f2815b16f81798).reverse

/-- A wallet environment in which definitions can be evaluated.  The key is the
only thing that is hashed to an address. -/
def WalletEnv.sample : WalletEnv where
  hash160 := fun bytes => if bytes = stakerKey then
      (littleEndian 20 0x751e76e8199196d454941c45d1b3a323f1433bd6).reverse
    else (bytes ++ List.replicate 20 0).take 20
  ripemd160 := fun bytes => (bytes ++ List.replicate 20 0).take 20
  producesSignature := fun _ _ => false
  getAffectedKeys := fun _ _ => []
  inferOther := fun _ _ _ => none

def stakerScript : CScript :=
  getScriptForDestination (.pkHash (WalletEnv.sample.hash160 stakerKey))

/-- A descriptor that expands to the script for the hash of the key and, for
`combo`, to that of the key itself. -/
def stakerMan (combo : Bool) : DescriptorScriptPubKeyMan where
  mapScriptPubKeys := fun script =>
    if script = stakerScript ∨ combo ∧ script = getScriptForRawPubKey stakerKey then some 0
    else none
  expandFromCache := fun _ => ⟨[stakerKey], [], by decide⟩

def stakedTransaction : CTransaction where
  vin := [⟨⟨1, 0⟩, [], 0xffffffff, []⟩]
  vout := [⟨10000000000, stakerScript⟩]
  nVersion := 1
  nTime := 1789171216
  nLockTime := 0

/-- The key's signature of the coinstake that spends this output, and the key. -/
def stakerScriptSig : CScript :=
  let r := 0x53afd5b6b4edd5eb9901ae2843367b92259dc6058d09c4834fbdb19fe6cc6ecc
  let s := 0x21a5e75192678a46dd954a8f50c357557bdfd6edb6be1d0ff642449153f37f23
  [71, 0x30, 68, 0x02, 32] ++ (littleEndian 32 r).reverse ++ [0x02, 32] ++
    (littleEndian 32 s).reverse ++ [1, 33] ++ stakerKey

def stakerContext : StakingContext where
  params := ChainType.main.consensus External.sample
  txNew := ⟨[], [], 1, 1789271216, 0⟩
  tipHeight := 600
  nFees := 0
  nBalance := 10000000000
  reserveBalance := 0
  setCoins := [(stakedTransaction, 0)]
  findTx := fun _ => true
  checkKernel := fun _ _ => true
  nSearchInterval := 1
  destination := .noDestination []
  sign := fun _ _ => some (stakerScriptSig, [])

/-- A wallet with one transaction, confirmed at a height. -/
def stakerWallet (combo : Bool) (tx : CTransaction) (height lastBlockHeight : ℤ) : CWallet where
  mans := .descriptors [stakerMan combo]
  avoidReuse := false
  canGrindR := true
  mapWallet := [⟨tx, .confirmed height, false⟩]
  lastBlockHeight := lastBlockHeight
  lockedCoins := []
  previouslySpent := []

def stakerCoinStake : CTransaction :=
  (stakerContext.createCoinStake External.sample WalletEnv.sample
    (.descriptors [stakerMan false])).getD stakedTransaction

theorem stake_returned_iff_stakerCoinStake :
    StakesBack WalletEnv.sample (stakerWallet true stakerCoinStake 601 1201)
        (stakedOut (stakedTransaction, 0)).scriptPubKey ∧
      ∃ coin ∈ (stakerWallet true stakerCoinStake 601 1201).availableCoins stakerContext.params
          External.sample WalletEnv.sample none {},
        coin.outpoint = stakerCoinStake.outPoint External.sample 1 ∧
          coin.txout = (stakerCoinStake.vout[1]?).getD ⟨0, []⟩ ∧
          coin.spendable = true ∧ coin.solvable = true := by
  have hback : StakesBack WalletEnv.sample (stakerWallet true stakerCoinStake 601 1201)
      (stakedOut (stakedTransaction, 0)).scriptPubKey :=
    .inr ⟨stakerKey, by decide, by decide⟩
  have hmans : (stakerWallet true stakerCoinStake 601 1201).mans =
      (stakerWallet true stakedTransaction 1 600).mans := by
    simp only [stakerWallet]
  refine ⟨hback, (stake_returned_iff External.sample WalletEnv.sample stakerContext
    (stakerWallet true stakedTransaction 1 600) (stakerWallet true stakerCoinStake 601 1201)
    stakerCoinStake (stakedTransaction, 0) 0 (none, getScriptForRawPubKey stakerKey)
    ⟨stakerCoinStake, .confirmed 601, false⟩ ((stakerCoinStake.vout[1]?).getD ⟨0, []⟩) 1
    (by decide +kernel) (by decide +kernel) hmans List.mem_cons_self (by simp only)
    (by decide +kernel) (by decide +kernel) (by decide +kernel) (by decide +kernel)
    (by decide +kernel) (by decide +kernel) (by decide +kernel)).mpr ⟨.inl rfl, hback⟩⟩

theorem stakerCoinStake_not_solvable :
    stakerContext.createCoinStake External.sample WalletEnv.sample
        (stakerWallet false stakedTransaction 1 600).mans = some stakerCoinStake ∧
      ((stakerWallet false stakedTransaction 1 600).availableCoins stakerContext.params
        External.sample WalletEnv.sample none {}).map
          (fun coin => (coin.spendable, coin.solvable)) = [(true, true)] ∧
      (stakerWallet false stakerCoinStake 601 1201).isTxImmature stakerContext.params
        ⟨stakerCoinStake, .confirmed 601, false⟩ = false ∧
      ((stakerWallet false stakerCoinStake 601 1201).availableCoins stakerContext.params
        External.sample WalletEnv.sample none {}).map
          (fun coin => (coin.spendable, coin.solvable, coin.inputBytes)) = [(true, false, -1)] :=
  ⟨by decide +kernel, by decide +kernel, by decide +kernel, by decide +kernel⟩

theorem isSpentKey_addToWallet_stakerCoinStake :
    let wallet := { stakerWallet true stakedTransaction 1 600 with avoidReuse := true }
    let added : CWalletTx := ⟨stakerCoinStake, .confirmed 601, false⟩
    (wallet.addToWallet .sample .sample added).isSpentKey .sample
      (getScriptForRawPubKey stakerKey) = true := by
  intro wallet added
  have hscripts : stakeScripts .sample wallet.mans (.noDestination []) stakerScript =
      some (none, getScriptForRawPubKey stakerKey) := by decide +kernel
  have hprevout : stakedTransaction.outPoint .sample 0 ∈ added.tx.prevouts := by decide +kernel
  have hkernel : extractDestination WalletEnv.sample.hash160 stakerScript =
      some (.pkHash (WalletEnv.sample.hash160 stakerKey)) := by decide +kernel
  exact isSpentKey_addToWallet hscripts rfl hprevout hkernel (by decide +kernel)

end Staker

end FirstIslamicCoin
