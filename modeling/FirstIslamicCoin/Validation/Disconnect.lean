import FirstIslamicCoin.Consensus.CoinCodec
import FirstIslamicCoin.Validation.Chain

/-!
# Disconnecting a block

The undo record that `ConnectBlock` writes, and `DisconnectBlock`, which reads
it back, takes the outputs of the block out of the UTXO set and puts the coins
it spent in again, last transaction first.  A coin of height 0 comes back
without its metadata, which `ApplyTxInUndo` copies from another output of the
same transaction that is still unspent.
-/

namespace FirstIslamicCoin

open Outcome ByteCodec Reader

section Record

variable (env : External)

/-- The coins that each transaction but the coinbase spends. -/
abbrev CBlockUndo := List (List Coin)

def serializeBlockUndo (blockundo : CBlockUndo) : Bytes :=
  serializeVector (serializeVector (serializeTxInUndo env)) blockundo

def readBlockUndo : Reader CBlockUndo :=
  readVector maxSize (readVector maxSize (readTxInUndo env))

/-- `UndoWriteToDisk` from the record's position on: the record and a checksum
over the hash of the parent block and the record. -/
def undoWriteToDisk (blockundo : CBlockUndo) (hashBlock : UInt256) : Bytes :=
  serializeBlockUndo env blockundo ++ serializeUInt256
    (env.hash256 (serializeUInt256 hashBlock ++ serializeBlockUndo env blockundo))

/-- `UndoReadFromDisk`: the checksum is compared over the bytes that were
read. -/
def undoReadFromDisk (hashBlock : UInt256) (record : Bytes) : Option CBlockUndo := do
  let (blockundo, rest) ← readBlockUndo env record
  let (hashChecksum, _) ← readUInt256 rest
  if hashChecksum = env.hash256
      (serializeUInt256 hashBlock ++ record.take (record.length - rest.length)) then
    some blockundo
  else none

end Record

inductive DisconnectResult where
  | ok
  | unclean
  | failed
  deriving DecidableEq, Repr

/-- A run that ends with `DISCONNECT_FAILED`, and what is logged, or with an
exception; the view is then not determined. -/
abbrev DisconnectFailure := Failure DisconnectResult

section Disconnect

variable (env : External)

/-- The metadata of another coin on an output. -/
def Coin.withMetadata (undo alternate : Coin) : Coin :=
  { undo with
    nHeight := alternate.nHeight
    fCoinBase := alternate.fCoinBase
    fCoinStake := alternate.fCoinStake
    nTime := alternate.nTime }

/-- The first part of `ApplyTxInUndo`: a coin of height 0 counts as one without
metadata. -/
def completeUndo (undo : Coin) (view : CoinsView) (out : COutPoint) :
    Except DisconnectFailure Coin :=
  if undo.nHeight = 0 then
    match view.accessByTxid out.hash with
    | some alternate => .ok (undo.withMetadata alternate)
    | none => .error (.invalid .failed "")
  else .ok undo

/-- `ApplyTxInUndo`: the view with the coin put back, and whether its place was
free. -/
def applyTxInUndo (undo : Coin) (view : CoinsView) (out : COutPoint) :
    Except DisconnectFailure (CoinsView × Bool) := do
  let fClean := !view.haveCoin out
  let coin ← completeUndo undo view out
  let restored ← view.addCoin out coin (!fClean)
  .ok (restored, fClean)

/-- Whether a coin is the given output, apart from its time. -/
def Coin.matches (coin : Coin) (tx : CTransaction) (nHeight : ℤ) (out : CTxOut) : Bool :=
  out == coin.out && nHeight == coin.height && tx.isCoinBase == coin.fCoinBase &&
    tx.isCoinStake == coin.fCoinStake

/-- Take one output of a transaction out of the view. -/
def undoOutput (tx : CTransaction) (nHeight : ℤ) (state : CoinsView × Bool)
    (entry : CTxOut × ℕ) : CoinsView × Bool :=
  if entry.1.scriptPubKey.isUnspendable then state
  else
    match state.1.lookup (tx.outPoint env entry.2) with
    | none => (state.1, false)
    | some coin => (state.1.erase (tx.outPoint env entry.2),
        state.2 && coin.matches tx nHeight entry.1)

def undoOutputs (tx : CTransaction) (nHeight : ℤ) (state : CoinsView × Bool) :
    CoinsView × Bool :=
  tx.vout.zipIdx.foldl (undoOutput env tx nHeight) state

/-- Put one spent coin back. -/
def undoInput (state : CoinsView × Bool) (entry : COutPoint × Coin) :
    Except DisconnectFailure (CoinsView × Bool) := do
  let (view, fClean) ← applyTxInUndo entry.2 state.1 entry.1
  .ok (view, state.2 && fClean)

/-- Put the coins a transaction spent back, last input first. -/
def undoInputs (tx : CTransaction) (txundo : List Coin) (state : CoinsView × Bool) :
    Except DisconnectFailure (CoinsView × Bool) := do
  require (txundo.length == tx.prevouts.length)
    (.invalid .failed "DisconnectBlock(): transaction and undo data inconsistent")
  loop undoInput state (tx.prevouts.zip txundo).reverse

/-- One pass of the loop of `DisconnectBlock`, at a transaction and its place in
the block. -/
def disconnectTx (nHeight : ℤ) (blockundo : CBlockUndo) (state : CoinsView × Bool)
    (entry : CTransaction × ℕ) : Except DisconnectFailure (CoinsView × Bool) :=
  if entry.2 = 0 then .ok (undoOutputs env entry.1 nHeight state)
  else
    match blockundo[entry.2 - 1]? with
    | none => .error .aborted
    | some txundo =>
        undoInputs entry.1 txundo (undoOutputs env entry.1 nHeight state)

/-- What `DisconnectBlock` leaves behind. -/
structure Disconnected where
  result : DisconnectResult
  view : CoinsView
  bestBlock : UInt256

/-- `Chainstate::DisconnectBlock`, for a block whose undo record is `record`. -/
def disconnectBlock (record : Bytes) (block : CBlock) (pindex : IndexChain)
    (view : CoinsView) : Except DisconnectFailure Disconnected :=
  match pindex with
  | index :: pprev :: _ =>
      match undoReadFromDisk env pprev.hashBlock record with
      | none => .error (.invalid .failed "DisconnectBlock(): failure reading undo data")
      | some blockundo => do
          require (blockundo.length + 1 == block.vtx.length)
            (.invalid .failed "DisconnectBlock(): block and undo data inconsistent")
          let (restored, fClean) ← loop (disconnectTx env index.nHeight blockundo)
            (view, true) block.vtx.zipIdx.reverse
          .ok ⟨if fClean then .ok else .unclean, restored, pprev.hashBlock⟩
  | _ => .error .aborted

end Disconnect

section Read

variable {env : External}

/-- A record that is read back in a changed form passes its checksum. -/
theorem undoReadFromDisk_undoWriteToDisk {blockundo decoded : CBlockUndo} {hashBlock : UInt256}
    (hread : (readBlockUndo env).Recovers decoded (serializeBlockUndo env blockundo)) :
    undoReadFromDisk env hashBlock (undoWriteToDisk env blockundo hashBlock) = some decoded := by
  have hchecksum := readUInt256_recovers (env.hash256
    (serializeUInt256 hashBlock ++ serializeBlockUndo env blockundo)) []
  rw [List.append_nil] at hchecksum
  simp only [undoReadFromDisk, undoWriteToDisk, hread _, hchecksum, Option.bind_eq_bind,
    Option.bind_some, List.length_append, Nat.add_sub_cancel, List.take_left, if_true]

/-- A record of few enough coins below height 2^30 is read back with only the
amounts changed. -/
theorem readBlockUndo_recovers {blockundo : CBlockUndo} (hlawful : env.LawfulPubKeys)
    (hsize : blockundo.length ≤ maxSize) (hsizes : ∀ txundo ∈ blockundo,
      txundo.length ≤ maxSize)
    (hcoins : ∀ txundo ∈ blockundo, ∀ coin ∈ txundo,
      coin.out.scriptPubKey.isUnspendable = false ∧ coin.nHeight.toNat < 2 ^ 30) :
    (readBlockUndo env).Recovers (blockundo.map (List.map Coin.recoded))
      (serializeBlockUndo env blockundo) := by
  have hmax : maxSize < 2 ^ 64 := by decide
  refine readVector_recovers (hsize.trans_lt hmax) hsize ?_
  intro txundo htxundo
  refine readVector_recovers ((hsizes txundo htxundo).trans_lt hmax) (hsizes txundo htxundo) ?_
  intro coin hcoin
  obtain ⟨hspendable, hheight⟩ := hcoins txundo htxundo coin hcoin
  exact readTxInUndo_recovers hlawful (length_le_of_isUnspendable hspendable) (by omega)

end Read

section Outputs

variable {env : External} {tx : CTransaction} {nHeight : ℤ}

theorem Coin.matches_coinOf (out : CTxOut) (hheight : 0 ≤ nHeight ∧ nHeight < 2 ^ 31) :
    (tx.coinOf nHeight out).matches tx nHeight out = true := by
  have hback : (tx.coinOf nHeight out).height = nHeight := by
    rw [Coin.height, CTransaction.coinOf, BitVec.toNat_ofInt]
    omega
  rw [Coin.matches, hback]
  simp [CTransaction.coinOf]

/-- The outputs that were just added are taken out again and found as they
were. -/
theorem undoOutputs_insertAll {entries : List (CTxOut × ℕ)} {base : CoinsView}
    {fClean : Bool} (hheight : 0 ≤ nHeight ∧ nHeight < 2 ^ 31)
    (hnodup : ((tx.coinsOf env nHeight entries).map Prod.fst).Nodup)
    (hfresh : ∀ coin ∈ tx.coinsOf env nHeight entries, base.lookup coin.1 = none) :
    entries.foldl (undoOutput env tx nHeight)
        (base.insertAll (tx.coinsOf env nHeight entries), fClean) = (base, fClean) := by
  induction entries with
  | nil => rfl
  | cons entry entries ih =>
    rw [CTransaction.coinsOf_cons] at hnodup hfresh ⊢
    cases hdrop : entry.1.scriptPubKey.isUnspendable with
    | true =>
      simp only [hdrop, if_true] at hnodup hfresh ⊢
      rw [List.foldl_cons, undoOutput, if_pos hdrop]
      exact ih hnodup hfresh
    | false =>
      simp only [hdrop, Bool.false_eq_true, if_false, List.map_cons,
        List.nodup_cons, List.forall_mem_cons] at hnodup hfresh ⊢
      have hfound : (base.insertAll ((tx.outPoint env entry.2,
          tx.coinOf nHeight entry.1) :: tx.coinsOf env nHeight entries)).lookup
            (tx.outPoint env entry.2) = some (tx.coinOf nHeight entry.1) := by
        rw [FiniteMap.insertAll_cons,
          FiniteMap.lookup_insertAll_of_notMem hnodup.1, FiniteMap.lookup_insert_self]
      simp only [List.foldl_cons, undoOutput, hdrop, Bool.false_eq_true, if_false,
        hfound, Coin.matches_coinOf entry.1 hheight, Bool.and_true]
      rw [FiniteMap.erase_insertAll_cons hfresh.1 hnodup.1]
      exact ih hnodup.2 hfresh.2

/-- A coin without its time, which `DisconnectBlock` does not compare. -/
def Coin.untimed (coin : Coin) : Coin := { coin with nTime := 0 }

theorem Coin.untimed_of_matches {coin : Coin} {out : CTxOut}
    (hmatches : coin.matches tx nHeight out = true) :
    coin.untimed = (tx.coinOf nHeight out).untimed := by
  simp only [Coin.matches, Bool.and_eq_true, beq_iff_eq] at hmatches
  obtain ⟨⟨⟨rfl, rfl⟩, hcoinbase⟩, hcoinstake⟩ := hmatches
  have hheight : BitVec.ofInt 31 coin.height = coin.nHeight := by
    rw [Coin.height, BitVec.ofInt_natCast, BitVec.ofNat_toNat, BitVec.setWidth_eq]
  rw [Coin.untimed, Coin.untimed, CTransaction.coinOf, hheight, hcoinbase, hcoinstake]

/-- A clean pass found every output and took it out. -/
theorem undoOutputs_clean {entries : List (CTxOut × ℕ)} {state : CoinsView × Bool}
    {after : CoinsView} (hundo : entries.foldl (undoOutput env tx nHeight) state = (after, true)) :
    state.2 = true ∧
      after = state.1.eraseAll ((tx.coinsOf env nHeight entries).map Prod.fst) ∧
      ∀ entry ∈ tx.coinsOf env nHeight entries, ∃ coin,
        state.1.lookup entry.1 = some coin ∧ coin.untimed = entry.2.untimed := by
  induction entries generalizing state with
  | nil =>
    obtain rfl : state = (after, true) := hundo
    exact ⟨rfl, rfl, List.forall_mem_nil _⟩
  | cons entry entries ih =>
    rw [CTransaction.coinsOf_cons]
    cases hdrop : entry.1.scriptPubKey.isUnspendable with
    | true =>
      rw [List.foldl_cons, undoOutput, if_pos hdrop] at hundo
      exact ih hundo
    | false =>
      simp only [List.foldl_cons, undoOutput, hdrop, Bool.false_eq_true, if_false] at hundo ⊢
      cases hlookup : state.1.lookup (tx.outPoint env entry.2) with
      | none =>
        rw [hlookup] at hundo
        exact absurd (ih hundo).1 Bool.false_ne_true
      | some coin =>
        rw [hlookup] at hundo
        obtain ⟨hclean, hafter, hothers⟩ := ih hundo
        obtain ⟨hstate, hmatches⟩ := Bool.and_eq_true_iff.mp hclean
        refine ⟨hstate, hafter, List.forall_mem_cons.mpr
          ⟨⟨coin, hlookup, Coin.untimed_of_matches hmatches⟩, ?_⟩⟩
        intro other hother
        obtain ⟨found, hfound, hsame⟩ := hothers other hother
        rw [FiniteMap.lookup_erase] at hfound
        split_ifs at hfound
        exact ⟨found, hfound, hsame⟩

end Outputs

section Metadata

variable {view : CoinsView} {txid : UInt256}

theorem exists_of_accessByTxid {alternate : Coin}
    (haccess : view.accessByTxid txid = some alternate) :
    ∃ n, view.lookup ⟨txid, n⟩ = some alternate := by
  obtain ⟨n, _, hlookup⟩ := List.exists_of_findSome?_eq_some haccess
  exact ⟨UInt32.ofNat n, hlookup⟩

theorem exists_accessByTxid {n : UInt32} {coin : Coin} (hlookup : view.lookup ⟨txid, n⟩ = some coin)
    (hindex : n.toNat < CoinsView.maxOutputsPerBlock) :
    ∃ alternate, view.accessByTxid txid = some alternate := by
  rw [← Option.isSome_iff_exists, CoinsView.accessByTxid, List.findSome?_isSome_iff]
  refine ⟨n.toNat, List.mem_range.mpr hindex, ?_⟩
  rw [UInt32.ofNat_toNat, hlookup]
  rfl

variable (env : External) (network : ChainType)

/-- What holds of every coin of a chain below height 2^30 whose later
transactions do not repeat the id of the genesis coinbase. -/
structure Coin.Regular (outpoint : COutPoint) (coin : Coin) : Prop where
  value_nonneg : 0 ≤ coin.value
  spendable : coin.out.scriptPubKey.isUnspendable = false
  height_lt : coin.nHeight.toNat < 2 ^ 30
  genesis_iff : coin.nHeight = 0 ↔ outpoint.hash = network.genesisTx.getHash env
  premine : coin.nHeight = 0 → coin.fCoinBase = true ∧ coin.fCoinStake = false ∧
    coin.nTime = network.genesisTx.nTime ∧
    outpoint.n.toNat < CoinsView.maxOutputsPerBlock

variable {env network}

/-- The metadata of any premine coin are those of every other. -/
theorem Coin.Regular.withMetadata {out other : COutPoint} {coin alternate : Coin}
    (hcoin : coin.Regular env network out) (halternate : alternate.Regular env network other)
    (hheight : coin.nHeight = 0) (hother : other.hash = out.hash) :
    coin.withMetadata alternate = coin := by
  have hzero : alternate.nHeight = 0 :=
    halternate.genesis_iff.mpr (hother.trans (hcoin.genesis_iff.mp hheight))
  obtain ⟨hbase, hstake, htime, _⟩ := hcoin.premine hheight
  obtain ⟨hbase', hstake', htime', _⟩ := halternate.premine hzero
  rw [Coin.withMetadata, hzero, hbase', hstake', htime', ← hbase, ← hstake, ← htime, ← hheight]

/-- Some premine coin is at none of the given outpoints. -/
def CoinsView.KeepsPremine (view : CoinsView) (outpoints : List COutPoint) : Prop :=
  ∃ donor coin, view.lookup donor = some coin ∧ coin.nHeight = 0 ∧ donor ∉ outpoints

theorem CoinsView.KeepsPremine.erase {out : COutPoint} {outpoints : List COutPoint}
    (hkeeps : view.KeepsPremine (out :: outpoints)) : KeepsPremine (view.erase out) outpoints := by
  obtain ⟨donor, coin, hlookup, hzero, hfree⟩ := hkeeps
  rw [List.mem_cons, not_or] at hfree
  refine ⟨donor, coin, ?_, hzero, hfree.2⟩
  rw [FiniteMap.lookup_erase_of_ne _ hfree.1, hlookup]

/-- A coin is completed to itself as long as, if it is a premine coin, another
one is left. -/
theorem completeUndo_eq {out : COutPoint} {coin : Coin} {outpoints : List COutPoint}
    (hview : view.AllBound (Coin.Regular env network)) (hcoin : coin.Regular env network out)
    (hkeeps : coin.nHeight = 0 → view.KeepsPremine outpoints) :
    completeUndo coin view out = .ok coin := by
  rw [completeUndo]
  split_ifs with hheight
  · obtain ⟨donor, other, hlookup, hzero, _⟩ := hkeeps hheight
    have hother := hview donor other hlookup
    have hhash : donor.hash = out.hash :=
      (hother.genesis_iff.mp hzero).trans (hcoin.genesis_iff.mp hheight).symm
    have hfound : view.lookup ⟨out.hash, donor.n⟩ = some other := by
      rw [← hhash]
      exact hlookup
    obtain ⟨alternate, haccess⟩ := exists_accessByTxid hfound (hother.premine hzero).2.2.2
    obtain ⟨n, halternate⟩ := exists_of_accessByTxid haccess
    rw [haccess]
    exact congrArg Except.ok (hcoin.withMetadata (hview _ _ halternate) hheight rfl)
  · rfl

end Metadata

section Inputs

variable {env : External} {network : ChainType}

/-- Coins that were spent are put back where they were. -/
theorem undoInputs_eraseAll {outpoints : List COutPoint} {coins : List Coin} {view : CoinsView}
    {fClean : Bool} (hview : view.AllBound (Coin.Regular env network)) (hnodup : outpoints.Nodup)
    (hcoins : outpoints.map view.lookup = coins.map some)
    (hkeeps : (∃ coin ∈ coins, coin.nHeight = 0) → view.KeepsPremine outpoints) :
    loop undoInput (view.eraseAll outpoints, fClean) (outpoints.zip coins).reverse =
      .ok (view, fClean) := by
  induction outpoints generalizing view coins with
  | nil => rfl
  | cons out outpoints ih =>
    cases coins with
    | nil => simp at hcoins
    | cons coin coins =>
      rw [List.map_cons, List.map_cons, List.cons.injEq] at hcoins
      obtain ⟨hnotMem, hnodup⟩ := List.nodup_cons.mp hnodup
      obtain ⟨hlookup, hothers⟩ := hcoins
      rw [← FiniteMap.map_lookup_erase hnotMem] at hothers
      have hrest := ih (hview.erase out) hnodup hothers fun ⟨other, hmem, hzero⟩ =>
        (hkeeps ⟨other, List.mem_cons_of_mem _ hmem, hzero⟩).erase
      have hregular := hview out coin hlookup
      have hcomplete : completeUndo coin (view.erase out) out = .ok coin :=
        completeUndo_eq (hview.erase out) hregular fun hzero =>
          (hkeeps ⟨coin, List.mem_cons_self, hzero⟩).erase
      have hadd : (CoinsView.addCoin (view.erase out) out coin false :
          Except DisconnectFailure CoinsView) = .ok view := by
        simp only [CoinsView.addCoin, CTxOut.isNull_of_nonneg hregular.value_nonneg,
          hregular.spendable, CoinsView.haveCoin, FiniteMap.lookup_erase_self,
          FiniteMap.insert_erase hlookup]
        rfl
      rw [FiniteMap.eraseAll_cons, List.zip_cons_cons, List.reverse_cons, loop_append,
        hrest, ok_bind, loop, undoInput, applyTxInUndo, hcomplete]
      simp only [CoinsView.haveCoin, FiniteMap.lookup_erase_self, Option.isSome_none,
        Bool.not_false, Bool.not_true, ok_bind, hadd, Bool.and_true, loop_nil]

theorem completeUndo_eq_ok {undo coin : Coin} {view : CoinsView} {out : COutPoint}
    (hcomplete : completeUndo undo view out = .ok coin) :
    coin.out = undo.out ∧
      (undo.nHeight = 0 → ∃ n alternate, view.lookup ⟨out.hash, n⟩ = some alternate) := by
  rw [completeUndo] at hcomplete
  split_ifs at hcomplete with hheight
  · cases haccess : view.accessByTxid out.hash with
    | none => simp [haccess] at hcomplete
    | some alternate =>
      rw [haccess] at hcomplete
      obtain rfl := Except.ok.inj hcomplete
      obtain ⟨n, hlookup⟩ := exists_of_accessByTxid haccess
      exact ⟨rfl, fun _ => ⟨n, alternate, hlookup⟩⟩
  · obtain rfl := Except.ok.inj hcomplete
    exact ⟨rfl, fun hzero => absurd hzero hheight⟩

/-- What a successful pass over one input does. -/
theorem undoInput_eq_ok {state next : CoinsView × Bool} {entry : COutPoint × Coin}
    (hspendable : entry.2.out.scriptPubKey.isUnspendable = false)
    (hundo : undoInput state entry = .ok next) :
    (∃ coin, next.1 = state.1.insert entry.1 coin ∧ coin.out = entry.2.out) ∧
      (entry.2.nHeight = 0 →
        ∃ n alternate, state.1.lookup ⟨entry.1.hash, n⟩ = some alternate) ∧
      next.2 = (state.2 && !state.1.haveCoin entry.1) := by
  simp only [undoInput, applyTxInUndo, bind_eq_ok, Except.ok.injEq] at hundo
  obtain ⟨_, ⟨coin, hcomplete, restored, hadd, rfl⟩, rfl⟩ := hundo
  obtain ⟨hout, hdonor⟩ := completeUndo_eq_ok hcomplete
  obtain ⟨_, hrestored, _⟩ := CoinsView.addCoin_eq_ok hadd
  rw [hout, hspendable, if_neg Bool.false_ne_true] at hrestored
  exact ⟨⟨coin, hrestored, hout⟩, hdonor, rfl⟩

/-- A clean pass over the inputs puts each coin's output in a free place and
touches nothing else. -/
theorem undoInputs_clean {entries : List (COutPoint × Coin)}
    {state : CoinsView × Bool} {after : CoinsView}
    (hspendable : ∀ entry ∈ entries, entry.2.out.scriptPubKey.isUnspendable = false)
    (hundo : loop undoInput state entries.reverse = .ok (after, true)) :
    state.2 = true ∧
      (∀ entry ∈ entries, state.1.lookup entry.1 = none ∧
        ∃ coin, after.lookup entry.1 = some coin ∧ coin.out = entry.2.out) ∧
      ∀ outpoint ∉ entries.map Prod.fst,
        after.lookup outpoint = state.1.lookup outpoint := by
  induction entries generalizing after with
  | nil =>
    obtain rfl : state = (after, true) := by simpa using hundo
    exact ⟨rfl, List.forall_mem_nil _, fun _ _ => rfl⟩
  | cons entry entries ih =>
    obtain ⟨hhead, htail⟩ := List.forall_mem_cons.mp hspendable
    rw [List.reverse_cons, loop_append, bind_eq_ok] at hundo
    obtain ⟨⟨middle, fClean⟩, hrest, hlast⟩ := hundo
    obtain ⟨next, hinput, hnext⟩ := loop_cons_eq_ok.mp hlast
    obtain rfl : next = (after, true) := by simpa using hnext
    obtain ⟨⟨coin, hafter, hout⟩, _, hclean⟩ := undoInput_eq_ok hhead hinput
    obtain ⟨rfl, hfree⟩ := Bool.and_eq_true_iff.mp hclean.symm
    rw [Bool.not_eq_true', CoinsView.haveCoin_eq_false] at hfree
    obtain ⟨hstate, hothers, hkept⟩ := ih htail hrest
    have hnotMem : entry.1 ∉ entries.map Prod.fst := by
      intro hmem
      obtain ⟨other, hother, heq⟩ := List.mem_map.mp hmem
      obtain ⟨_, found, hfound, _⟩ := hothers other hother
      rw [heq, hfree] at hfound
      exact Option.some_ne_none _ hfound.symm
    dsimp only at hafter hfree
    refine ⟨hstate, List.forall_mem_cons.mpr ⟨⟨?_, coin, ?_, hout⟩, ?_⟩, ?_⟩
    · rw [← hkept entry.1 hnotMem, hfree]
    · rw [hafter, FiniteMap.lookup_insert_self]
    · intro other hother
      obtain ⟨hnone, found, hfound, hsame⟩ := hothers other hother
      have hne : other.1 ≠ entry.1 := fun heq =>
        hnotMem (heq ▸ List.mem_map_of_mem hother)
      exact ⟨hnone, found, by rw [hafter, FiniteMap.lookup_insert_of_ne _ _ hne, hfound],
        hsame⟩
    · intro outpoint hfresh
      rw [List.map_cons, List.mem_cons, not_or] at hfresh
      rw [hafter, FiniteMap.lookup_insert_of_ne _ _ hfresh.1, hkept outpoint hfresh.2]

end Inputs

end FirstIslamicCoin
