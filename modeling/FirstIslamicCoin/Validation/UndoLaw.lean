import FirstIslamicCoin.Validation.Supply
import FirstIslamicCoin.Validation.UndoBlock

/-!
# Disconnecting undoes connecting

On a chain from genesis a block that was just connected is disconnected again:
its undo record is written, read back and applied.  This restores the view
exactly when every amount the block spends survives compression and, if it
spends premine coins, it leaves one unspent.
-/

namespace FirstIslamicCoin

open Outcome ByteCodec

section Connected

variable {setting : Setting} {pindex pprev : IndexChain} {index : CBlockIndex}
  {prevModifier bestBlock : UInt256} {view : CoinsView} {block : CBlock}
  {connected : Connected} {state final : ConnectState}

theorem connectTxs_applied {entries : List (CTransaction × ℕ)}
    (hentries : ∀ entry ∈ entries, entry.1.isCoinBase = false ∧ entry.2 ≠ 0)
    (hrun : loop (connectTx setting pindex index) state entries = .ok final) :
    ∃ spends : List (CTransaction × List Coin),
      spends.map Prod.fst = entries.map Prod.fst ∧
      final.vtxundo = state.vtxundo ++ spends.map Prod.snd ∧
      Applied setting.env index.nHeight state.view spends final.view := by
  induction entries generalizing state with
  | nil =>
    obtain rfl : state = final := by simpa using hrun
    exact ⟨[], rfl, (List.append_nil _).symm, .nil _⟩
  | cons entry entries ih =>
    obtain ⟨⟨hnot, hplace⟩, htail⟩ := List.forall_mem_cons.mp hentries
    obtain ⟨next, hstep, hrest⟩ := loop_cons_eq_ok.mp hrun
    obtain ⟨_, _, txundo, hupdate, hvtxundo⟩ := connectTx_eq_ok hstep
    obtain ⟨hnodup, hcoins, hkeys, hfresh⟩ := CoinsView.updateCoins_spends hnot hupdate
    obtain ⟨spends, htxs, hundos, happlied⟩ := ih htail hrest
    rw [CoinsView.updateCoins_eq_ok hupdate] at happlied
    rw [← CTransaction.spentOutpoints_eq hnot] at hnodup hcoins hfresh
    refine ⟨(entry.1, txundo) :: spends, by rw [List.map_cons, List.map_cons, htxs], ?_,
      .cons hnodup hcoins hkeys hfresh happlied⟩
    rw [hundos, hvtxundo, if_neg hplace, List.map_cons, List.append_assoc]
    rfl

/-- An accepted block applied its transactions one after the other and recorded
what they spent. -/
theorem ConnectRun.exists_applied
    (hrun : ConnectRun setting pprev index prevModifier view block connected state) :
    ∃ (coinbase : CTransaction) (spends : List (CTransaction × List Coin)),
      block.vtx = coinbase :: spends.map Prod.fst ∧ coinbase.isCoinBase = true ∧
      (∀ entry ∈ spends, entry.1.isCoinBase = false) ∧
      connected.blockundo = spends.map Prod.snd ∧
      Applied setting.env index.nHeight view ((coinbase, []) :: spends) connected.view := by
  obtain ⟨coinbase, rest, hvtx, hcoinbase, hrest⟩ := hrun.checked.head_coinbase
  have hmem : coinbase ∈ block.vtx := by simp [hvtx]
  have hnone : coinbase.spentOutpoints = [] := by
    rw [CTransaction.spentOutpoints, if_pos hcoinbase]
  have hloop := hrun.run
  rw [hvtx, List.zipIdx_cons, loop_cons_eq_ok] at hloop
  obtain ⟨first, hfirst, hothers⟩ := hloop
  obtain ⟨_, _, txundo, hupdate, hvtxundo⟩ := connectTx_eq_ok hfirst
  have hentries : ∀ entry ∈ rest.zipIdx (0 + 1),
      entry.1.isCoinBase = false ∧ entry.2 ≠ 0 := by
    intro entry hentry
    refine ⟨hrest entry.1 (List.fst_mem_of_mem_zipIdx hentry), ?_⟩
    have hle := List.le_snd_of_mem_zipIdx hentry
    omega
  obtain ⟨spends, htxs, hundos, happlied⟩ := connectTxs_applied hentries hothers
  rw [List.zipIdx_map_fst] at htxs
  rw [CoinsView.updateCoins_eq_ok hupdate, ← hrun.view_eq] at happlied
  have hlength : coinbase.vout.length ≤ 2 ^ 32 :=
    (hrun.checked.checked coinbase hmem).length_vout_le.trans (by decide)
  refine ⟨coinbase, spends, by rw [hvtx, htxs], hcoinbase, ?_, ?_, ?_⟩
  · intro entry hentry
    exact hrest entry.1 (htxs ▸ List.mem_map_of_mem hentry)
  · rw [hrun.blockundo_eq, hundos, hvtxundo]
    rfl
  · refine .cons (by rw [hnone]; exact List.nodup_nil) (by rw [hnone]; rfl)
      (CTransaction.nodup_newCoins hlength) ?_ happlied
    intro entry hentry
    rw [hnone, FiniteMap.eraseAll_nil]
    exact lookup_eq_none_of_passesBIP30 hrun.bip30 hmem hentry

theorem bestBlock_of_connectBlock
    (hconnect : connectBlock setting (index :: pprev) prevModifier view bestBlock
      block false = .ok connected) :
    (pprev.head?.map CBlockIndex.hashBlock).getD 0 = bestBlock := by
  simp only [connectBlock, connectChecks, bind_eq_ok, exists_unit, require_eq_ok,
    beq_iff_eq, List.tail_cons] at hconnect
  exact hconnect.1.2.2.2.1

/-- A block has at most as many transactions as it has bytes. -/
theorem length_vtx_le_strippedBlockSize (block : CBlock) :
    block.vtx.length ≤ strippedBlockSize block := by
  have htxs : block.vtx.length ≤ (block.vtx.flatMap (serializeTransaction false)).length := by
    apply length_le_length_flatMap
    intro tx
    simp [serializeTransaction, serializeInt32]
  simp only [strippedBlockSize, serializeBlock, serializeVector, List.length_append]
  omega

end Connected

section Law

variable {env : External} {network : ChainType} {mode : Overflow}

/-- No transaction of some blocks has the id of the genesis coinbase. -/
def GenesisIdUnique (env : External) (network : ChainType) (blocks : List CBlock) : Prop :=
  ∀ block ∈ blocks, ∀ tx ∈ block.vtx,
    tx.getHash env ≠ network.genesisTx.getHash env

variable {nHeight : ℤ} {block : CBlock} {blocks : List CBlock}

theorem toNat_ofInt_height (hheight : 0 < nHeight ∧ nHeight < 2 ^ 30) :
    ((BitVec.ofInt 31 nHeight).toNat : ℤ) = nHeight := by
  rw [BitVec.toNat_ofInt]
  omega

theorem createsRegular_of_checked (hchecked : CheckedBlock block)
    (hheight : 0 < nHeight ∧ nHeight < 2 ^ 30) (hids : GenesisIdUnique env network [block]) :
    CreatesRegular env network nHeight block.vtx := by
  intro tx htx entry hentry
  obtain ⟨out, position, hout, hspendable, rfl⟩ := CTransaction.exists_of_mem_newCoins hentry
  have hback := toNat_ofInt_height hheight
  have hne : (tx.coinOf nHeight out).nHeight ≠ 0 := by
    intro hzero
    have hnat : (BitVec.ofInt 31 nHeight).toNat = 0 := congrArg BitVec.toNat hzero
    omega
  refine ⟨⟨?_, hspendable, ?_, ?_, fun hzero => absurd hzero hne⟩, hne⟩
  · exact (hchecked.checked tx htx).value_nonneg out (List.mem_of_getElem? hout)
  · change (BitVec.ofInt 31 nHeight).toNat < 2 ^ 30
    omega
  · exact ⟨fun hzero => absurd hzero hne,
      fun hhash => absurd hhash (hids block List.mem_cons_self tx htx)⟩

theorem allBound_genesis :
    (ChainTip.genesis env network).view.AllBound (Coin.Regular env network) := by
  intro outpoint coin hlookup
  rcases CoinsView.lookup_applyTx_cases hlookup with hbefore | hnew
  · simp at hbefore
  · obtain ⟨out, position, hout, hspendable, heq⟩ :=
      CTransaction.exists_of_mem_newCoins hnew
    obtain ⟨rfl, rfl⟩ := Prod.mk.inj heq
    have hmem : out ∈ network.genesisTx.vout := List.mem_of_getElem? hout
    have hposition : position < 1000 := by
      obtain ⟨hlt, _⟩ := List.getElem?_eq_some_iff.mp hout
      exact hlt.trans_eq List.length_replicate
    refine ⟨?_, hspendable, (by decide : (0 : ℕ) < 2 ^ 30), ⟨fun _ => rfl, fun _ => rfl⟩,
      fun _ => ⟨rfl, rfl, rfl, ?_⟩⟩
    · rw [List.eq_of_mem_replicate hmem]
      cases network <;> decide
    · change (UInt32.ofNat position).toNat < 4000000 / 36
      rw [UInt32.toNat_ofNat']
      omega

/-- What holds after some blocks on top of genesis. -/
structure RegularChain (env : External) (network : ChainType) (blocks : List CBlock)
    (tip : ChainTip) : Prop where
  height_eq : tip.pindex.height = blocks.length
  regular : blocks.length < 2 ^ 30 → GenesisIdUnique env network blocks →
    tip.view.AllBound (Coin.Regular env network)

theorem RegularChain.step {tip next : ChainTip} (hchain : RegularChain env network blocks tip)
    (hstep : Connects env network mode tip block next) :
    RegularChain env network (blocks ++ [block]) next := by
  obtain ⟨setting, index, connected, ⟨rfl, hparams, _⟩, hindex, hgenesis, hconnect⟩ := hstep
  have hheight : index.nHeight = blocks.length + 1 := by
    obtain ⟨_, rfl⟩ := hindex
    rw [← hchain.height_eq]
    rfl
  rw [← hparams] at hgenesis
  obtain ⟨state, hrun⟩ := connectBlock_run hgenesis hconnect
  refine ⟨?_, ?_⟩
  · change index.nHeight = _
    rw [hheight, List.length_append, List.length_singleton, Nat.cast_add, Nat.cast_one]
  · intro hlength hids
    rw [List.length_append, List.length_singleton] at hlength
    have hbefore := hchain.regular (by omega) fun other hother =>
      hids other (List.mem_append_left _ hother)
    have hnew : CreatesRegular setting.env network index.nHeight block.vtx :=
      createsRegular_of_checked hrun.checked (by omega) fun other hother =>
        hids other (List.mem_append_right _ hother)
    obtain ⟨coinbase, spends, hvtx, _, _, _, happlied⟩ := hrun.exists_applied
    rw [hvtx] at hnew
    exact happlied.regular hbefore hnew

theorem regularChain_of_run {tip : ChainTip}
    (hrun : Run (Connects env network mode) (ChainTip.genesis env network) blocks tip) :
    RegularChain env network blocks tip :=
  hrun.invariant (RegularChain env network) ⟨rfl, fun _ _ => allBound_genesis⟩
    fun _ _ _ _ hchain hstep => hchain.step hstep

theorem disconnectBlock_eq_ok {record : Bytes} {index pprev : CBlockIndex} {rest : IndexChain}
    {view final : CoinsView} {blockundo : CBlockUndo}
    (hread : undoReadFromDisk env pprev.hashBlock record = some blockundo)
    (hlength : blockundo.length + 1 = block.vtx.length) :
    disconnectBlock env record block (index :: pprev :: rest) view =
        .ok ⟨.ok, final, pprev.hashBlock⟩ ↔
      loop (disconnectTx env index.nHeight blockundo) (view, true)
        block.vtx.zipIdx.reverse = .ok (final, true) := by
  simp only [disconnectBlock, hread, hlength, beq_self_eq_true, require_true, ok_bind,
    bind_eq_ok, Except.ok.injEq, Disconnected.mk.injEq, and_true]
  constructor
  · rintro ⟨⟨restored, fClean⟩, hloop, hclean, rfl⟩
    cases fClean with
    | true => exact hloop
    | false => simp at hclean
  · intro hloop
    exact ⟨(final, true), hloop, rfl, rfl⟩

/-- The loop of `DisconnectBlock` ends at the coinbase. -/
theorem disconnectLoop_eq_ok {blockundo : CBlockUndo} {coinbase : CTransaction}
    {spends : List (CTransaction × List Coin)} {state final : CoinsView × Bool} :
    loop (disconnectTx env nHeight blockundo) state
        (coinbase :: spends.map Prod.fst).zipIdx.reverse = .ok final ↔
      ∃ middle, loop (disconnectTx env nHeight blockundo) state (undoOrder [] spends) =
          .ok middle ∧ undoOutputs env coinbase nHeight middle = final := by
  rw [List.zipIdx_cons, List.reverse_cons, loop_append, bind_eq_ok]
  simp only [loop_cons_eq_ok, loop_nil, disconnectTx, if_true, Except.ok.injEq, exists_eq_left']
  rfl

/-- The record of a connected block is read back with only the amounts
changed. -/
theorem undoReadFromDisk_connected {coinbase : CTransaction}
    {spends : List (CTransaction × List Coin)} {view after : CoinsView} (hashBlock : UInt256)
    (hlawful : env.LawfulPubKeys) (hchecked : CheckedBlock block)
    (hvtx : block.vtx = coinbase :: spends.map Prod.fst)
    (hview : view.AllBound (Coin.Regular env network))
    (hnew : CreatesRegular env network nHeight block.vtx)
    (happlied : Applied env nHeight view ((coinbase, []) :: spends) after) :
    undoReadFromDisk env hashBlock (undoWriteToDisk env (spends.map Prod.snd) hashBlock) =
      some (spends.map fun entry => entry.2.map Coin.recoded) := by
  have hmap : (spends.map fun entry => entry.2.map Coin.recoded) =
      (spends.map Prod.snd).map (List.map Coin.recoded) := by
    rw [List.map_map]
    rfl
  have hlengthVtx : spends.length ≤ 1000000 := by
    have hle := (length_vtx_le_strippedBlockSize block).trans hchecked.strippedBlockSize_le
    rw [hvtx, List.length_cons, List.length_map] at hle
    omega
  rw [hvtx] at hnew
  have hspent := happlied.forall_mem_spent hview hnew
  rw [hmap]
  refine undoReadFromDisk_undoWriteToDisk (readBlockUndo_recovers hlawful ?_ ?_ ?_)
  · rw [List.length_map, maxSize]
    omega
  · intro txundo htxundo
    obtain ⟨entry, hentry, rfl⟩ := List.mem_map.mp htxundo
    have htx : entry.1 ∈ block.vtx := by
      rw [hvtx]
      exact List.mem_cons_of_mem _ (List.mem_map_of_mem hentry)
    have hlength := (hspent entry (List.mem_cons_of_mem _ hentry)).1
    have hvin := (hchecked.checked entry.1 htx).length_vin_le
    rw [maxSize]
    omega
  · intro txundo htxundo coin hcoin
    obtain ⟨entry, hentry, rfl⟩ := List.mem_map.mp htxundo
    obtain ⟨outpoint, hregular⟩ := (hspent entry (List.mem_cons_of_mem _ hentry)).2 coin hcoin
    exact ⟨hregular.spendable, hregular.height_lt⟩

/-- Connecting a block, writing its undo record and disconnecting it again. -/
def disconnectConnected (env : External) (tip : ChainTip) (index : CBlockIndex)
    (block : CBlock) (connected : Connected) : Except DisconnectFailure Disconnected :=
  disconnectBlock env
    (undoWriteToDisk env connected.blockundo
      ((tip.pindex.head?.map CBlockIndex.hashBlock).getD 0))
    block (index :: tip.pindex) connected.view

/-- What the equivalence below is proved from: a block that was applied to a
regular view. -/
structure UndoScene (env : External) (network : ChainType) (nHeight : ℤ)
    (view after : CoinsView) (coinbase : CTransaction)
    (spends : List (CTransaction × List Coin)) : Prop where
  height_lt : 0 < nHeight ∧ nHeight < 2 ^ 30
  isCoinBase : coinbase.isCoinBase = true
  ordinary : ∀ entry ∈ spends, entry.1.isCoinBase = false
  regular : view.AllBound (Coin.Regular env network)
  creates : CreatesRegular env network nHeight (coinbase :: spends.map Prod.fst)
  applied : Applied env nHeight view ((coinbase, []) :: spends) after

namespace UndoScene

variable {nHeight : ℤ} {view after : CoinsView} {coinbase : CTransaction}
  {spends : List (CTransaction × List Coin)}

section

variable (hscene : UndoScene env network nHeight view after coinbase spends)

include hscene

theorem spentOutpoints_coinbase :
    coinbase.spentOutpoints = [] := by
  rw [CTransaction.spentOutpoints, if_pos hscene.isCoinBase]

theorem restores (hkept : ∀ coin ∈ spends.flatMap Prod.snd, AmountKept coin.out.nValue)
    (hkeeps : (∃ coin ∈ spends.flatMap Prod.snd, coin.nHeight = 0) →
      view.KeepsPremine ((spends.map Prod.fst).flatMap CTransaction.spentOutpoints)) :
    ∃ middle, loop (disconnectTx env nHeight
          (spends.map fun entry => entry.2.map Coin.recoded)) (after, true)
        (undoOrder [] spends) = .ok middle ∧
      undoOutputs env coinbase nHeight middle = (view, true) := by
  have hnone := hscene.spentOutpoints_coinbase
  obtain ⟨hheight, _, hordinary, hview, hcreates, happlied⟩ := hscene
  have hspent := happlied.forall_mem_spent hview hcreates
  have hrecoded : (spends.map fun entry => entry.2.map Coin.recoded) =
      [] ++ spends.map Prod.snd := by
    rw [List.nil_append]
    refine List.map_congr_left fun entry hentry => ?_
    conv_rhs => rw [← List.map_id entry.2]
    refine List.map_congr_left fun coin hcoin => ?_
    obtain ⟨outpoint, hregular⟩ := (hspent entry (List.mem_cons_of_mem _ hentry)).2 coin hcoin
    exact (Coin.recoded_eq_iff hregular.value_nonneg).mpr
      ⟨hregular.height_lt, hkept coin (List.mem_flatMap.mpr ⟨entry, hentry, hcoin⟩)⟩
  cases happlied with
  | cons hnodup hcoins hkeys hfresh hrest =>
    obtain ⟨hhead, htail⟩ := List.forall_mem_cons.mp hcreates
    have hkeepsRest : (∃ coin ∈ spends.flatMap Prod.snd, coin.nHeight = 0) →
        (view.applyTx env coinbase nHeight).KeepsPremine
          ((spends.map Prod.fst).flatMap CTransaction.spentOutpoints) := by
      intro hpremine
      refine CoinsView.KeepsPremine.applyTx ?_ hfresh
      rw [hnone, List.nil_append]
      exact hkeeps hpremine
    refine ⟨(view.applyTx env coinbase nHeight, true), ?_, ?_⟩
    · exact disconnectTxs_eq_ok hrest (by omega) hordinary
        (CoinsView.allBound_applyTx hview hhead) htail hkeepsRest hrecoded
    · rw [CoinsView.applyTx_eq, hnone, FiniteMap.eraseAll_nil]
      rw [hnone, FiniteMap.eraseAll_nil] at hfresh
      exact undoOutputs_insertAll (by omega) hkeys hfresh

variable {middle : CoinsView × Bool}
  (hloop : loop (disconnectTx env nHeight
      (spends.map fun entry => entry.2.map Coin.recoded)) (after, true)
    (undoOrder [] spends) = .ok middle)
  (hlast : undoOutputs env coinbase nHeight middle = (view, true))

include hloop hlast

theorem kept :
    ∀ coin ∈ spends.flatMap Prod.snd, AmountKept coin.out.nValue := by
  have hnone := hscene.spentOutpoints_coinbase
  obtain ⟨_, _, hordinary, hview, hcreates, happlied⟩ := hscene
  obtain ⟨hhead, htail⟩ := List.forall_mem_cons.mp hcreates
  cases happlied with
  | cons hnodup hcoins hkeys hfresh hrest =>
    obtain ⟨hclean, hsame⟩ := sameButTimes_of_undoOutputs hkeys hlast fun _ => rfl
    have hafter : middle.1.SameButTimes (view.applyTx env coinbase nHeight) := by
      rw [CoinsView.applyTx_eq, hnone]
      exact hsame
    have hfinal : middle = (middle.1, true) := Prod.ext rfl hclean
    rw [hfinal] at hloop
    exact kept_of_disconnectTxs hrest hordinary
      (CoinsView.allBound_applyTx hview hhead) htail (List.nil_append _).symm hloop hafter

theorem keepsPremine (hpremine : ∃ coin ∈ spends.flatMap Prod.snd, coin.nHeight = 0) :
    view.KeepsPremine ((spends.map Prod.fst).flatMap CTransaction.spentOutpoints) := by
  have hnone := hscene.spentOutpoints_coinbase
  obtain ⟨_, _, hordinary, hview, hcreates, happlied⟩ := hscene
  obtain ⟨hhead, htail⟩ := List.forall_mem_cons.mp hcreates
  by_contra hnot
  -- nothing is left that a premine coin could be restored from
  have hafter : after.PremineFree env network := by
    intro outpoint coin hlookup hhash
    have hzero := (happlied.regular hview hcreates outpoint coin hlookup).genesis_iff.mpr hhash
    rcases happlied.lookup_cases hlookup with ⟨hbefore, hfree⟩ | ⟨tx, htx, hnew⟩
    · rw [List.map_cons, List.flatMap_cons, hnone, List.nil_append] at hfree
      exact hnot ⟨outpoint, coin, hbefore, hzero, hfree⟩
    · exact (hcreates tx htx _ hnew).2 hzero
  obtain ⟨coin, hspent, hzero⟩ := hpremine
  obtain ⟨outpoint, hlookup⟩ := happlied.exists_premine hcreates
    (List.mem_append_right [] hspent) hzero
  cases happlied with
  | cons hnodup hcoins hkeys hfresh hrest =>
    have hmiddle := disconnectTxs_premineFree hrest hordinary
      (CoinsView.allBound_applyTx hview hhead) htail (List.nil_append _).symm hafter hloop
    have hback := @undoOutputs_premineFree env network nHeight coinbase _ hmiddle
    rw [hlast] at hback
    exact hback outpoint coin hlookup ((hview outpoint coin hlookup).genesis_iff.mp hzero)

end

end UndoScene

/-- A block accepted on a chain is undone by the loop of `DisconnectBlock` on the
recoded record. -/
theorem exists_undoScene {tip : ChainTip} {setting : Setting} {index : CBlockIndex}
    {connected : Connected} (hlawful : env.LawfulPubKeys)
    (hrun : Run (Connects env network mode) (ChainTip.genesis env network) blocks tip)
    (hsetting : setting.InNetwork env network mode)
    (hindex : ∃ fSetAsProofOfStake, index = CBlockIndex.ofHeader env tip.pindex
      block.toCBlockHeader fSetAsProofOfStake)
    (hgenesis : index.hashBlock ≠ (network.consensus env).hashGenesisBlock)
    (hconnect : connectBlock setting (index :: tip.pindex) tip.nStakeModifier tip.view
      tip.bestBlock block false = .ok connected) (hheight : index.nHeight < 2 ^ 30)
    (hids : GenesisIdUnique env network (blocks ++ [block])) :
    ∃ coinbase spends, UndoScene env network index.nHeight tip.view connected.view coinbase spends ∧
      tip.view.spentCoins env index.nHeight block.vtx = spends.flatMap Prod.snd ∧
      block.vtx.flatMap CTransaction.spentOutpoints =
        (spends.map Prod.fst).flatMap CTransaction.spentOutpoints ∧
      (disconnectConnected env tip index block connected = .ok ⟨.ok, tip.view, tip.bestBlock⟩ ↔
        ∃ middle, loop (disconnectTx env index.nHeight
              (spends.map fun entry => entry.2.map Coin.recoded)) (connected.view, true)
            (undoOrder [] spends) = .ok middle ∧
          undoOutputs env coinbase index.nHeight middle = (tip.view, true)) := by
  obtain ⟨rfl, hparams, _⟩ := hsetting
  have hchain := regularChain_of_run hrun
  have hindexHeight : index.nHeight = blocks.length + 1 := by
    obtain ⟨_, rfl⟩ := hindex
    rw [← hchain.height_eq]
    rfl
  have hview := hchain.regular (by omega) fun other hother =>
    hids other (List.mem_append_left _ hother)
  have hbest := bestBlock_of_connectBlock hconnect
  rw [← hparams] at hgenesis
  obtain ⟨state, hconnectRun⟩ := connectBlock_run hgenesis hconnect
  have hcreates : CreatesRegular setting.env network index.nHeight block.vtx :=
    createsRegular_of_checked hconnectRun.checked (by omega) fun other hother =>
      hids other (List.mem_append_right _ hother)
  obtain ⟨coinbase, spends, hvtx, hcoinbase, hordinary, hblockundo, happlied⟩ :=
    hconnectRun.exists_applied
  have hread := undoReadFromDisk_connected tip.bestBlock hlawful hconnectRun.checked hvtx
    hview hcreates happlied
  rw [hvtx] at hcreates
  have hscene : UndoScene setting.env network index.nHeight tip.view connected.view coinbase
      spends := ⟨by omega, hcoinbase, hordinary, hview, hcreates, happlied⟩
  refine ⟨coinbase, spends, hscene, ?_, ?_, ?_⟩
  · rw [hvtx]
    exact happlied.spentCoins_eq
  · rw [hvtx, List.flatMap_cons, hscene.spentOutpoints_coinbase, List.nil_append]
  · rw [disconnectConnected, hbest, hblockundo]
    cases hpindex : tip.pindex with
    | nil =>
      have hempty := hchain.height_eq
      rw [hpindex, IndexChain.height] at hempty
      omega
    | cons pprev rest =>
      rw [hpindex, List.head?_cons, Option.map_some, Option.getD_some] at hbest
      rw [← hbest] at hread ⊢
      rw [disconnectBlock_eq_ok hread (by rw [hvtx]; simp), hvtx, disconnectLoop_eq_ok]

theorem disconnect_restores_iff (env : External) (network : ChainType) (mode : Overflow)
    (blocks : List CBlock) (tip : ChainTip) (block : CBlock) (setting : Setting)
    (index : CBlockIndex) (connected : Connected) (hlawful : env.LawfulPubKeys)
    (hrun : Run (Connects env network mode) (ChainTip.genesis env network) blocks tip)
    (hsetting : setting.InNetwork env network mode)
    (hindex : ∃ fSetAsProofOfStake, index = CBlockIndex.ofHeader env tip.pindex
      block.toCBlockHeader fSetAsProofOfStake)
    (hgenesis : index.hashBlock ≠ (network.consensus env).hashGenesisBlock)
    (hconnect : connectBlock setting (index :: tip.pindex) tip.nStakeModifier tip.view
      tip.bestBlock block false = .ok connected)
    (hheight : index.nHeight < 2 ^ 30) (hids : GenesisIdUnique env network (blocks ++ [block])) :
    disconnectConnected env tip index block connected =
        .ok ⟨.ok, tip.view, tip.bestBlock⟩ ↔
      (∀ coin ∈ tip.view.spentCoins env index.nHeight block.vtx,
        AmountKept coin.out.nValue) ∧
      ((∃ coin ∈ tip.view.spentCoins env index.nHeight block.vtx, coin.nHeight = 0) →
        ∃ outpoint coin, tip.view.lookup outpoint = some coin ∧ coin.nHeight = 0 ∧
          outpoint ∉ block.vtx.flatMap CTransaction.spentOutpoints) := by
  obtain ⟨coinbase, spends, hscene, hspentCoins, hspentOutpoints, hdisconnect⟩ :=
    exists_undoScene hlawful hrun hsetting hindex hgenesis hconnect hheight hids
  rw [hspentCoins, hspentOutpoints, hdisconnect]
  constructor
  · rintro ⟨middle, hloop, hlast⟩
    exact ⟨hscene.kept hloop hlast, hscene.keepsPremine hloop hlast⟩
  · rintro ⟨hkept, hkeeps⟩
    exact hscene.restores hkept hkeeps

section FirstStake

open External

theorem genesisIdUnique_firstStake :
    GenesisIdUnique sample .main ([] ++ [firstStakeBlock 0 []]) := by
  have hids : ∀ tx ∈ (firstStakeBlock 0 []).vtx,
      tx.getHash sample ≠ ChainType.main.genesisTx.getHash sample := by
    decide +kernel
  intro block hblock
  obtain rfl := List.mem_singleton.mp hblock
  exact hids

/-- The first stake on the main network spends one premine coin of a thousand, so
it can be undone. -/
theorem disconnect_restores_firstStake :
    ∃ connected, connectFirstStake 1789171216 0 [] = .ok connected ∧
      disconnectConnected sample (ChainTip.genesis sample .main) (firstStakeIndex 0 [])
          (firstStakeBlock 0 []) connected =
        .ok ⟨.ok, (ChainTip.genesis sample .main).view,
          (ChainTip.genesis sample .main).bestBlock⟩ := by
  obtain ⟨connected, hconnect⟩ :
      ∃ connected, connectFirstStake 1789171216 0 [] = .ok connected :=
    isOk_iff_exists.mp plainFirst.accepted
  refine ⟨connected, hconnect, (disconnect_restores_iff sample .main .wrap []
    (ChainTip.genesis sample .main) (firstStakeBlock 0 []) (Setting.sample .main 1789171216 0)
    (firstStakeIndex 0 []) connected lawfulPubKeys_sample .nil ⟨rfl, rfl, rfl⟩ ⟨true, rfl⟩
    plainFirst.hashBlock_ne hconnect (by decide +kernel) genesisIdUnique_firstStake).mpr
      ⟨?_, fun _ => ?_⟩⟩
  · unfold AmountKept
    decide +kernel
  · exact ⟨_, _, lookup_genesis_premine sample .main (by decide : 1 < 1000), by decide,
      by decide +kernel⟩

end FirstStake

section Sweep

open External

def premineOutpoints : List COutPoint :=
  (List.range 1000).map fun n =>
    ⟨ChainType.main.genesisTx.getHash sample, UInt32.ofNat n⟩

/-- A coinstake that spends given outpoints of the premine. -/
def sweepCoinstake (outpoints : List COutPoint) : CTransaction where
  vin := outpoints.map fun outpoint => ⟨outpoint, [], 0xffffffff, []⟩
  vout := [⟨0, []⟩, ⟨1400000001000000000, ChainType.main.premineScript⟩]
  nVersion := 1
  nTime := 1789171216
  nLockTime := 0

def sweepCoinbase : CTransaction where
  vin := [⟨⟨0, COutPoint.nullIndex⟩, [0x51, 0x51], 0xffffffff, []⟩]
  vout := [⟨0, []⟩]
  nVersion := 1
  nTime := 1789171216
  nLockTime := 0

def sweepBlock (outpoints : List COutPoint) : CBlock :=
  CBlock.assemble sample ((ChainType.main.genesis sample).getHash sample)
    1789171216 0x1e0fffff [sweepCoinbase, sweepCoinstake outpoints] [1]

def sweepIndex (outpoints : List COutPoint) : CBlockIndex :=
  CBlockIndex.ofHeader sample (ChainType.main.genesisChain sample)
    (sweepBlock outpoints).toCBlockHeader true

theorem length_premineOutpoints : premineOutpoints.length = 1000 := by
  rw [premineOutpoints, List.length_map, List.length_range]

theorem nodup_premineOutpoints : premineOutpoints.Nodup := by
  refine (List.nodup_range).map_on ?_
  intro left hleft right hright heq
  rw [List.mem_range] at hleft hright
  have hindex : UInt32.ofNat left = UInt32.ofNat right := congrArg COutPoint.n heq
  have hnat := congrArg UInt32.toNat hindex
  simp only [UInt32.toNat_ofNat'] at hnat
  omega

theorem isNull_of_mem_premineOutpoints {outpoint : COutPoint}
    (hmem : outpoint ∈ premineOutpoints) : outpoint.isNull = false := by
  obtain ⟨n, hn, rfl⟩ := List.mem_map.mp hmem
  rw [List.mem_range] at hn
  have hne : UInt32.ofNat n ≠ COutPoint.nullIndex := by
    intro heq
    have hnat := congrArg UInt32.toNat heq
    rw [UInt32.toNat_ofNat', COutPoint.nullIndex] at hnat
    change n % 2 ^ 32 = 4294967295 at hnat
    omega
  simp [COutPoint.isNull, hne]

theorem prevouts_sweepCoinstake (outpoints : List COutPoint) :
    (sweepCoinstake outpoints).prevouts = outpoints := by
  rw [CTransaction.prevouts, sweepCoinstake, List.map_map]
  exact List.map_id _

theorem strippedSize_sweepCoinstake_le (outpoints : List COutPoint) :
    (sweepCoinstake outpoints).strippedSize ≤ 41 * outpoints.length + 200 := by
  have hone : ∀ txin ∈ (sweepCoinstake outpoints).vin,
      (serializeTxIn txin).length = 41 := by
    intro txin hmem
    obtain ⟨outpoint, _, rfl⟩ := List.mem_map.mp hmem
    simp [serializeTxIn, serializeOutPoint, serializeUInt256, serializeUInt32,
      serializeBytes, serializeVector, writeCompactSize]
  have hins : ((sweepCoinstake outpoints).vin.flatMap serializeTxIn).length =
      41 * outpoints.length := by
    rw [List.length_flatMap, List.map_congr_left hone, List.map_const', List.sum_replicate,
      sweepCoinstake, List.length_map, smul_eq_mul, mul_comm]
  have houts : ((sweepCoinstake outpoints).vout.flatMap serializeTxOut).length ≤ 100 :=
    (by decide : ((sweepCoinstake []).vout.flatMap serializeTxOut).length ≤ 100)
  have hsize := strippedSize_le (sweepCoinstake outpoints)
  omega

theorem getLegacySigOpCount_sweepCoinstake (outpoints : List COutPoint) :
    getLegacySigOpCount (sweepCoinstake outpoints) = 1 := by
  have hins : ((sweepCoinstake outpoints).vin.map fun txin =>
      CScript.getSigOpCount false txin.scriptSig).sum = 0 := by
    refine List.sum_eq_zero fun count hcount => ?_
    obtain ⟨txin, hmem, rfl⟩ := List.mem_map.mp hcount
    obtain ⟨outpoint, _, rfl⟩ := List.mem_map.mp hmem
    rfl
  rw [getLegacySigOpCount, hins]
  exact (by decide : 0 + ((sweepCoinstake []).vout.map fun out =>
    CScript.getSigOpCount false out.scriptPubKey).sum = 1)

section Stake

variable {outpoints : List COutPoint}

section

variable (hlength : 1 < outpoints.length)

include hlength

theorem isCoinBase_sweepCoinstake :
    (sweepCoinstake outpoints).isCoinBase = false := by
  match outpoints, hlength with
  | _ :: _ :: _, _ => rfl

theorem isCoinStake_sweepCoinstake (hnull : ∀ outpoint ∈ outpoints, outpoint.isNull = false) :
    (sweepCoinstake outpoints).isCoinStake = true := by
  match outpoints, hlength with
  | first :: _ :: _, _ =>
    have hfirst := hnull first List.mem_cons_self
    simp [sweepCoinstake, CTransaction.isCoinStake, CTxOut.isEmpty, hfirst]

theorem checkTransaction_sweepCoinstake (hsize : outpoints.length ≤ 20000)
    (hnodup : outpoints.Nodup) (hnull : ∀ outpoint ∈ outpoints, outpoint.isNull = false) :
    checkTransaction .wrap (sweepCoinstake outpoints) = .ok () := by
  have hbase := isCoinBase_sweepCoinstake hlength
  have hstake := isCoinStake_sweepCoinstake hlength hnull
  have hbytes := strippedSize_sweepCoinstake_le outpoints
  have hfits : (sweepCoinstake outpoints).strippedSize * 4 ≤ 4000000 := by omega
  have hne : outpoints ≠ [] := List.ne_nil_of_length_pos (by omega)
  have hvin : (sweepCoinstake outpoints).vin.isEmpty = false := by
    simp [sweepCoinstake, hne]
  have houts : loop (checkOutput .wrap (sweepCoinstake outpoints)) 0
      (sweepCoinstake outpoints).vout = .ok 1400000001000000000 := by
    rw [show (sweepCoinstake outpoints).vout =
      [⟨0, []⟩, ⟨1400000001000000000, ChainType.main.premineScript⟩] from rfl]
    simp only [loop, checkOutput, hstake, Bool.not_true, Bool.and_false, Bool.not_false,
      require_true, ok_bind]
    decide
  have hprevouts : checkPrevouts (sweepCoinstake outpoints) = .ok () := by
    rw [checkPrevouts, hbase, if_neg Bool.false_ne_true, require_eq_ok, List.all_eq_true]
    intro txin hmem
    obtain ⟨outpoint, hout, rfl⟩ := List.mem_map.mp hmem
    simp [hnull outpoint hout]
  simp only [checkTransaction, bind_eq_ok, require_eq_ok, exists_unit, hvin,
    witnessScaleFactor, maxBlockWeight, hfits, houts, hprevouts, prevouts_sweepCoinstake,
    hnodup, decide_true, Bool.not_false]
  exact ⟨trivial, rfl, trivial, _, rfl, trivial, trivial⟩

theorem checkBlock_sweepBlock (hsize : outpoints.length ≤ 20000) (hnodup : outpoints.Nodup)
    (hnull : ∀ outpoint ∈ outpoints, outpoint.isNull = false)
    (hids : sweepCoinbase.getHash sample ≠ (sweepCoinstake outpoints).getHash sample) :
    checkBlock (Setting.sample .main 1789171216 0) (sweepBlock outpoints) true true true =
      .ok () := by
  have hvtx : (sweepBlock outpoints).vtx = [sweepCoinbase, sweepCoinstake outpoints] := rfl
  have hbaseTx := isCoinBase_sweepCoinstake hlength
  have hstakeTx := isCoinStake_sweepCoinstake hlength hnull
  have hstake : (sweepBlock outpoints).isProofOfStake = true := hstakeTx
  have hwork : (sweepBlock outpoints).isProofOfWork = false := by
    rw [CBlock.isProofOfWork, hstake]
    rfl
  have hbytes : strippedBlockSize (sweepBlock outpoints) * 4 ≤ 4000000 := by
    have hle := strippedBlockSize_le (sweepBlock outpoints)
    have hcoinstake := strippedSize_sweepCoinstake_le outpoints
    have hcoinbase : sweepCoinbase.strippedSize ≤ 200 := by decide
    rw [hvtx, show (sweepBlock outpoints).vchBlockSig.length = 1 from rfl] at hle
    simp only [List.map_cons, List.map_nil, List.sum_cons, List.sum_nil] at hle
    omega
  have htxs : checkTransactions .wrap (sweepBlock outpoints).vtx = .ok () := by
    rw [checkTransactions_eq_ok, hvtx]
    exact List.forall_mem_cons.mpr ⟨by decide, List.forall_mem_cons.mpr
      ⟨checkTransaction_sweepCoinstake hlength hsize hnodup hnull, List.forall_mem_nil _⟩⟩
  have hmerkle : checkMerkleRoot sample (sweepBlock outpoints) true = .ok () := by
    simp only [checkMerkleRoot, bind_eq_ok, require_eq_ok, exists_unit]
    refine ⟨by simp [sweepBlock, CBlock.assemble, blockMerkleRoot], ?_⟩
    simp [blockMerkleRoot, hvtx, computeMerkleRoot, merkleLevels, merkleLevel, hasEqualPair, hids]
  have hsigOps : ((sweepBlock outpoints).vtx.map getLegacySigOpCount).sum * 4 ≤ 80000 := by
    have hcoinstake := getLegacySigOpCount_sweepCoinstake outpoints
    have hcoinbase : getLegacySigOpCount sweepCoinbase = 0 := by decide
    rw [hvtx]
    simp only [List.map_cons, List.map_nil, List.sum_cons, List.sum_nil]
    omega
  have htime : (sweepBlock outpoints).getBlockTime = 1789171216 := rfl
  have htimestamp : checkCoinStakeTimestamp (ChainType.main.consensus sample) 1789171216
      ((sweepCoinstake outpoints).timeOr 1789171216) = true := by
    rw [show (sweepCoinstake outpoints).timeOr 1789171216 = 1789171216 from rfl]
    decide
  have hsignature : checkBlockSignature sample (sweepBlock outpoints) = true := by
    rw [checkBlockSignature, hwork, if_neg Bool.false_ne_true, hvtx]
    rfl
  have hshape : checkProofOfStakeShape (sweepBlock outpoints) = .ok () := by
    simp only [checkProofOfStakeShape, hstake, if_true, bind_eq_ok, require_eq_ok, exists_unit,
      hvtx]
    exact ⟨rfl, hstakeTx, rfl⟩
  simp only [checkBlock, checkBlockHeader, checkBlockBody, bind_eq_ok, require_eq_ok,
    exists_unit, hwork, hstake, htime]
  refine ⟨⟨rfl, rfl, by decide⟩, rfl, hmerkle, ?_, rfl, by simp [hvtx, hbaseTx], rfl,
    htimestamp, hshape, hsignature, htxs, decide_eq_true hsigOps⟩
  simp only [hvtx, witnessScaleFactor, maxBlockWeight, hbytes, decide_true, Bool.and_true]
  rfl

end

end Stake

section Accept

/-- A view in which a coinstake can sweep the premine. -/
structure SweepScene (view : CoinsView) (outpoints : List COutPoint) : Prop where
  length_eq : outpoints.length = 1000
  nodup : outpoints.Nodup
  not_null : ∀ outpoint ∈ outpoints, outpoint.isNull = false
  lookup_eq : ∀ outpoint ∈ outpoints,
    view.lookup outpoint = some ChainType.main.premineCoin
  fresh : ∀ entry ∈ (sweepCoinstake outpoints).newCoins sample 1,
    view.lookup entry.1 = none

namespace SweepScene

variable {view : CoinsView} {outpoints : List COutPoint}

section

variable (hscene : SweepScene view outpoints)

include hscene

theorem isCoinBase :
    (sweepCoinstake outpoints).isCoinBase = false :=
  isCoinBase_sweepCoinstake (by rw [hscene.length_eq]; decide)

theorem isCoinStake :
    (sweepCoinstake outpoints).isCoinStake = true :=
  isCoinStake_sweepCoinstake (by rw [hscene.length_eq]; decide) hscene.not_null

theorem valueIn_eq :
    view.valueIn (sweepCoinstake outpoints) = 1400000000000000000 := by
  have hweights : ∀ outpoint ∈ outpoints,
      FiniteMap.weightAt Coin.value view outpoint = 1400000000000000 := by
    intro outpoint hmem
    rw [FiniteMap.weightAt_of_lookup Coin.value (hscene.lookup_eq outpoint hmem)]
    decide
  rw [CoinsView.valueIn, prevouts_sweepCoinstake, List.map_congr_left hweights,
    List.map_const', List.sum_replicate, hscene.length_eq]
  rfl

theorem checkTxInputs_eq :
    checkTxInputs (ChainType.main.consensus sample) .wrap 1789171216
      (sweepCoinstake outpoints) view 1 0 = .ok 0 := by
  rw [checkTxInputs_eq_ok, prevouts_sweepCoinstake, hscene.valueIn_eq, hscene.isCoinStake]
  refine ⟨fun outpoint hmem => ⟨_, hscene.lookup_eq outpoint hmem, ?_⟩, by decide,
    fun _ => rfl, nofun⟩
  exact ⟨fun _ hheight => absurd rfl hheight, (by decide : (1789171200 : ℤ) ≤ 1789171216),
    by decide⟩

end

variable {state : ConnectState}

section

variable (hscene : SweepScene view outpoints)

include hscene

theorem connectInputs_eq (hview : state.view = view) (hfees : state.nFees = 0) :
    connectInputs (Setting.sample .main 1789171216 0)
      (sweepIndex outpoints :: ChainType.main.genesisChain sample) (sweepIndex outpoints)
      state (sweepCoinstake outpoints) = .ok 0 := by
  have hlocks : ∀ enforce heights, (sequenceLocks (ChainType.main.consensus sample)
      (sweepCoinstake outpoints) enforce heights
      (sweepIndex outpoints :: ChainType.main.genesisChain sample) :
        Except BlockFailure Bool) = .ok true := by
    intro enforce heights
    have hversion : decide (2 ≤ (sweepCoinstake outpoints).nVersion.toUInt32) = false := rfl
    rw [sequenceLocks, calculateSequenceLocks, hversion, Bool.and_false,
      if_neg Bool.false_ne_true, ok_bind]
    rfl
  have hcheck : checkTxInputs (ChainType.main.consensus sample) .wrap 1789171216
      (sweepCoinstake outpoints) state.view 1 0 = .ok 0 := by
    rw [hview]
    exact hscene.checkTxInputs_eq
  simp only [connectInputs, hscene.isCoinBase, Bool.false_eq_true, if_false, bind_eq_ok,
    mapError_eq_ok, require_eq_ok, exists_unit]
  exact ⟨0, hcheck, 0, by rw [hfees]; rfl, true, hlocks _ _, rfl, rfl⟩

theorem sumOverInputs_eq {count : CTxIn → CTxOut → ℕ}
    (hcount : ∀ outpoint, count ⟨outpoint, [], 0xffffffff, []⟩ ChainType.main.premineCoin.out = 0) :
    sumOverInputs view (sweepCoinstake outpoints) count = 0 := by
  refine List.sum_eq_zero fun number hnumber => ?_
  obtain ⟨txin, htxin, rfl⟩ := List.mem_map.mp hnumber
  obtain ⟨outpoint, hmem, rfl⟩ := List.mem_map.mp htxin
  rw [hscene.lookup_eq outpoint hmem]
  exact hcount outpoint

theorem getTransactionSigOpCost_eq (flags : UInt32) :
    getTransactionSigOpCost (sweepCoinstake outpoints) view flags = 4 := by
  have hscript : CScript.isPayToScriptHash ChainType.main.premineCoin.out.scriptPubKey =
      false := by decide
  have hprogram : CScript.witnessProgram ChainType.main.premineCoin.out.scriptPubKey =
      none := by decide
  have hp2sh : getP2SHSigOpCount (sweepCoinstake outpoints) view = 0 := by
    rw [getP2SHSigOpCount, hscene.isCoinBase, if_neg Bool.false_ne_true]
    exact hscene.sumOverInputs_eq fun _ => by rw [hscript]; rfl
  have hwitness : sumOverInputs view (sweepCoinstake outpoints)
      (fun txin prevout => CScript.countWitnessSigOps txin.scriptSig prevout.scriptPubKey
        txin.scriptWitness flags) = 0 := by
    refine hscene.sumOverInputs_eq fun _ => ?_
    rw [CScript.countWitnessSigOps, hprogram, hscript]
    simp
  rw [getTransactionSigOpCost, hscene.isCoinBase, getLegacySigOpCount_sweepCoinstake, hp2sh,
    hwitness, witnessScaleFactor]
  simp

theorem stakeRewardOf_eq (hview : state.view = view) :
    stakeRewardOf .wrap state (sweepCoinstake outpoints) = .ok 1000000000 := by
  have hvalueOut : ((sweepCoinstake outpoints).getValueOut .wrap :
      Except BlockFailure CAmount) = .ok 1400000001000000000 := by
    rw [CTransaction.getValueOut, show (sweepCoinstake outpoints).vout =
      [⟨0, []⟩, ⟨1400000001000000000, ChainType.main.premineScript⟩] from rfl]
    decide
  have hvalueIn : (view.getValueIn .wrap (sweepCoinstake outpoints) :
      Except BlockFailure CAmount) = .ok 1400000000000000000 := by
    rw [getValueIn_eq_ok hscene.isCoinBase, hscene.valueIn_eq]
    · rfl
    · intro outpoint hmem
      rw [prevouts_sweepCoinstake] at hmem
      exact ⟨_, hscene.lookup_eq outpoint hmem, by decide⟩
    · rw [hscene.valueIn_eq]
      decide
  rw [stakeRewardOf, hscene.isCoinStake, if_pos rfl, hvalueOut, hview, ok_bind, hvalueIn]
  rfl

theorem updateCoins_eq :
    ∃ updated, (view.updateCoins sample (sweepCoinstake outpoints) 1 :
      Except BlockFailure _) = .ok updated := by
  have hspend : (view.spendInputs (sweepCoinstake outpoints) : Except BlockFailure _) =
      .ok (view.eraseAll outpoints,
        outpoints.map fun _ => ChainType.main.premineCoin) := by
    rw [CoinsView.spendInputs, hscene.isCoinBase, if_neg Bool.false_ne_true,
      prevouts_sweepCoinstake, CoinsView.spendCoins_eq_ok]
    refine ⟨hscene.nodup, ?_, rfl⟩
    rw [List.map_map]
    exact List.map_congr_left hscene.lookup_eq
  have hlength : (sweepCoinstake outpoints).vout.length ≤ 2 ^ 32 := (by decide : 2 ≤ 2 ^ 32)
  have hadd : (CoinsView.addCoins sample (view.eraseAll outpoints)
      (sweepCoinstake outpoints) 1 : Except BlockFailure CoinsView) =
        .ok (FiniteMap.insertAll (view.eraseAll outpoints)
          ((sweepCoinstake outpoints).newCoins sample 1)) := by
    refine CoinsView.addCoins_of_fresh ?_ (CTransaction.nodup_newCoins hlength) ?_
    · exact List.forall_mem_cons.mpr ⟨rfl, List.forall_mem_cons.mpr ⟨rfl, List.forall_mem_nil _⟩⟩
    · intro entry hentry
      rw [FiniteMap.lookup_eraseAll, hscene.fresh entry hentry, ite_self]
  simp only [CoinsView.updateCoins, hspend, ok_bind, hadd]
  exact ⟨_, rfl⟩

/-- The coinstake is connected. -/
theorem exists_connectTx (hview : state.view = view) (hfees : state.nFees = 0)
    (hcost : state.nSigOpsCost = 0) (hscripts : state.scriptsPass = true) :
    ∃ next, connectTx (Setting.sample .main 1789171216 0)
        (sweepIndex outpoints :: ChainType.main.genesisChain sample) (sweepIndex outpoints)
        state (sweepCoinstake outpoints, 1) = .ok next ∧
      next.nFees = 0 ∧ next.nActualStakeReward = 1000000000 ∧
      next.scriptsPass = true := by
  obtain ⟨updated, hupdate⟩ := hscene.updateCoins_eq
  have hinputs := hscene.connectInputs_eq hview hfees
  have hreward := hscene.stakeRewardOf_eq hview
  have hsigOps : decide (state.nSigOpsCost + getTransactionSigOpCost
      (sweepCoinstake outpoints) state.view (getBlockScriptFlags
        (Setting.sample .main 1789171216 0).params (sweepIndex outpoints)) ≤
          maxBlockSigOpsCost) = true := by
    rw [hcost, hview, hscene.getTransactionSigOpCost_eq]
    decide
  have hpass : checkInputScripts sample (sweepCoinstake outpoints) state.view
      (getBlockScriptFlags (Setting.sample .main 1789171216 0).params
        (sweepIndex outpoints)) = true := by
    rw [checkInputScripts, Bool.or_eq_true, List.all_eq_true]
    exact .inr fun _ _ => rfl
  rw [← hview] at hupdate
  refine ⟨_, connectTx_of_ok hinputs hsigOps hreward hupdate, rfl, rfl, ?_⟩
  change (state.scriptsPass && (false || _)) = true
  rw [hscripts, Bool.true_and, Bool.false_or]
  exact hpass

end

end SweepScene

variable {outpoints : List COutPoint} {outpoint : COutPoint}

theorem checkStake_sweep (hlength : 1 < outpoints.length)
    (hnull : ∀ outpoint ∈ outpoints, outpoint.isNull = false)
    (hlookup : ∀ outpoint ∈ outpoints, (ChainTip.genesis sample .main).view.lookup outpoint =
      some ChainType.main.premineCoin) :
    checkStake (Setting.sample .main 1789171216 0) (ChainType.main.genesisChain sample) 0
      (ChainTip.genesis sample .main).view (sweepBlock outpoints) = .ok () := by
  have hstake := isCoinStake_sweepCoinstake hlength hnull
  have hswitch : (Setting.sample .main 1789171216 0).params.isProtocolV3
      (sweepBlock outpoints).getBlockTime = true := by
    rw [show (sweepBlock outpoints).getBlockTime = 1789171216 from rfl]
    decide
  obtain ⟨first, rest, hcons⟩ : ∃ first rest, outpoints = first :: rest :=
    List.exists_cons_of_length_pos (by omega)
  have hprevouts := prevouts_sweepCoinstake outpoints
  have hcoin := hlookup first (hcons ▸ List.mem_cons_self)
  have hkernel : checkKernelCoin (Setting.sample .main 1789171216 0) 0
      (sweepCoinstake outpoints) 0x1e0fffff 1789171216 first ChainType.main.premineCoin
      (CBlockIndex.ofHeader sample [] (ChainType.main.genesis sample).toCBlockHeader
        false) = .ok () := by
    have htarget : weightedTarget 0x1e0fffff ChainType.main.premineCoin.out.nValue =
        2 ^ 256 - 1 := by decide
    have hhash : ∀ hash : UInt256, hash.toNat ≤
        weightedTarget 0x1e0fffff ChainType.main.premineCoin.out.nValue := by
      intro hash
      have hlt := hash.isLt
      rw [htarget]
      omega
    simp only [checkKernelCoin, checkStakeKernelHash, bind_eq_ok, require_eq_ok, exists_unit,
      hhash, decide_true, Bool.and_true]
    exact ⟨rfl, rfl⟩
  have hproof : checkProofOfStake (Setting.sample .main 1789171216 0)
      (ChainType.main.genesisChain sample) 0 (sweepCoinstake outpoints) 0x1e0fffff
      (ChainTip.genesis sample .main).view 1789171216 = .ok () := by
    rw [checkProofOfStake, hstake, hprevouts, hcons]
    simp only [Bool.not_true, Bool.false_eq_true, if_false]
    rw [checkKernel, hcoin]
    rw [← hcons]
    exact hkernel
  rw [checkStake, show (sweepBlock outpoints).vtx = [sweepCoinbase, sweepCoinstake outpoints]
    from rfl]
  simp only [hstake, Bool.true_and]
  rw [if_pos hswitch]
  exact hproof

theorem exists_connectTx_sweepCoinbase (view : CoinsView) (outpoints : List COutPoint) :
    ∃ first, connectTx (Setting.sample .main 1789171216 0)
        (sweepIndex outpoints :: ChainType.main.genesisChain sample) (sweepIndex outpoints)
        (ConnectState.initial view) (sweepCoinbase, 0) = .ok first ∧
      first.view = view.applyTx sample sweepCoinbase 1 ∧
      first.nFees = 0 ∧ first.nSigOpsCost = 0 ∧ first.scriptsPass = true := by
  have hnull : ∀ out ∈ sweepCoinbase.vout, out.isNull = false := by decide
  have hcost : getTransactionSigOpCost sweepCoinbase view (getBlockScriptFlags
      (Setting.sample .main 1789171216 0).params (sweepIndex outpoints)) = 0 := by
    rw [getTransactionSigOpCost, if_pos (by decide)]
    decide
  refine ⟨_, connectTx_of_ok rfl ?_ rfl (CoinsView.updateCoins_of_isCoinBase rfl hnull),
    rfl, rfl, ?_, rfl⟩
  · change decide (0 + getTransactionSigOpCost sweepCoinbase view _ ≤ _) = true
    rw [hcost]
    decide
  · change 0 + getTransactionSigOpCost sweepCoinbase view _ = 0
    rw [hcost]

/-- The main network accepts the block as block 1. -/
theorem exists_connectBlock_sweep
    (hscene : SweepScene ((ChainTip.genesis sample .main).view.applyTx sample sweepCoinbase 1)
      outpoints)
    (hlookup : ∀ outpoint ∈ outpoints, (ChainTip.genesis sample .main).view.lookup outpoint =
      some ChainType.main.premineCoin)
    (hbase : sweepCoinbase.getHash sample ≠ ChainType.main.genesisTx.getHash sample)
    (hstake : (sweepCoinstake outpoints).getHash sample ≠ ChainType.main.genesisTx.getHash sample)
    (hids : sweepCoinbase.getHash sample ≠ (sweepCoinstake outpoints).getHash sample)
    (hgenesis : (sweepIndex outpoints).hashBlock ≠
      (ChainType.main.consensus sample).hashGenesisBlock) :
    ∃ connected, connectBlock (Setting.sample .main 1789171216 0)
      (sweepIndex outpoints :: (ChainTip.genesis sample .main).pindex)
      (ChainTip.genesis sample .main).nStakeModifier (ChainTip.genesis sample .main).view
      (ChainTip.genesis sample .main).bestBlock (sweepBlock outpoints) false = .ok connected := by
  have hlength : 1 < outpoints.length := by rw [hscene.length_eq]; decide
  have hchecks : connectChecks (Setting.sample .main 1789171216 0)
      (sweepIndex outpoints :: (ChainTip.genesis sample .main).pindex) (sweepIndex outpoints)
      0 (ChainTip.genesis sample .main).view (ChainTip.genesis sample .main).bestBlock
      (sweepBlock outpoints) false = .ok () := by
    simp only [connectChecks, bind_eq_ok, require_eq_ok, exists_unit, mapError_eq_ok]
    exact ⟨beq_self_eq_true _, rfl, checkBlock_sweepBlock hlength
      (by rw [hscene.length_eq]; decide) hscene.nodup hscene.not_null hids,
      beq_self_eq_true _, checkStake_sweep hlength hscene.not_null hlookup⟩
  have hbip30 : passesBIP30 sample (ChainTip.genesis sample .main).view
      (sweepBlock outpoints).vtx = true := by
    rw [passesBIP30, show (sweepBlock outpoints).vtx =
      [sweepCoinbase, sweepCoinstake outpoints] from rfl]
    simp [haveCoin_genesis sample .main hbase, haveCoin_genesis sample .main hstake]
  obtain ⟨first, hfirst, hview, hfees, hcost, hscripts⟩ :=
    exists_connectTx_sweepCoinbase (ChainTip.genesis sample .main).view outpoints
  obtain ⟨final, hfinal, hfinalFees, hfinalReward, hfinalScripts⟩ :=
    hscene.exists_connectTx hview hfees hcost hscripts
  have hloop : loop (connectTx (Setting.sample .main 1789171216 0)
      (sweepIndex outpoints :: ChainType.main.genesisChain sample) (sweepIndex outpoints))
      (ConnectState.initial (ChainTip.genesis sample .main).view)
      (sweepBlock outpoints).vtx.zipIdx = .ok final :=
    loop_cons_eq_ok.mpr ⟨first, hfirst, loop_cons_eq_ok.mpr ⟨final, hfinal, rfl⟩⟩
  have hreward : checkReward (Setting.sample .main 1789171216 0) (sweepIndex outpoints)
      (sweepBlock outpoints) final = .ok () := by
    have hwork : (sweepBlock outpoints).isProofOfWork = false := by
      rw [CBlock.isProofOfWork]
      exact congrArg Bool.not hscene.isCoinStake
    have hswitch : (Setting.sample .main 1789171216 0).params.isProtocolV3
        (sweepBlock outpoints).getBlockTime = true := by
      rw [show (sweepBlock outpoints).getBlockTime = 1789171216 from rfl]
      decide
    rw [checkReward, hwork, if_neg Bool.false_ne_true, if_pos hswitch, hfinalFees, hfinalReward]
    rfl
  have hnot : (sweepIndex outpoints).hashBlock ≠
      (Setting.sample .main 1789171216 0).params.hashGenesisBlock := hgenesis
  obtain ⟨connected, hbody⟩ : ∃ connected, connectTransactions (Setting.sample .main 1789171216 0)
      (sweepIndex outpoints :: (ChainTip.genesis sample .main).pindex) (sweepIndex outpoints)
      0 (ChainTip.genesis sample .main).view (ChainTip.genesis sample .main).bestBlock
      (sweepBlock outpoints) false = .ok connected := by
    apply Exists.intro
    simp only [connectTransactions, bind_eq_ok, require_eq_ok, exists_unit]
    exact ⟨hbip30, final, hloop, hreward, hfinalScripts, rfl⟩
  refine ⟨connected, ?_⟩
  simp only [connectBlock, bind_eq_ok, exists_unit, connectBody, if_neg hnot]
  exact ⟨hchecks, hbody⟩

theorem getHash_sweep :
    sweepCoinbase.getHash sample ≠ ChainType.main.genesisTx.getHash sample ∧
      (sweepCoinstake premineOutpoints).getHash sample ≠ ChainType.main.genesisTx.getHash sample ∧
      sweepCoinbase.getHash sample ≠ (sweepCoinstake premineOutpoints).getHash sample := by
  decide +kernel

theorem lookup_premineOutpoints (hmem : outpoint ∈ premineOutpoints) :
    (ChainTip.genesis sample .main).view.lookup outpoint = some ChainType.main.premineCoin := by
  obtain ⟨n, hn, rfl⟩ := List.mem_map.mp hmem
  exact lookup_genesis_premine sample .main (List.mem_range.mp hn)

theorem exists_index_of_lookup_genesis (env : External) (network : ChainType) {coin : Coin}
    (hlookup : (ChainTip.genesis env network).view.lookup outpoint = some coin) :
    ∃ n < 1000, outpoint = ⟨network.genesisTx.getHash env, UInt32.ofNat n⟩ := by
  rcases CoinsView.lookup_applyTx_cases hlookup with hbefore | hnew
  · simp at hbefore
  · obtain ⟨out, position, hout, _, heq⟩ := CTransaction.exists_of_mem_newCoins hnew
    obtain ⟨hlt, _⟩ := List.getElem?_eq_some_iff.mp hout
    exact ⟨position, hlt.trans_eq List.length_replicate, (Prod.mk.inj heq).1⟩

theorem mem_premineOutpoints {coin : Coin}
    (hlookup : (ChainTip.genesis sample .main).view.lookup outpoint = some coin) :
    outpoint ∈ premineOutpoints := by
  obtain ⟨n, hn, rfl⟩ := exists_index_of_lookup_genesis sample .main hlookup
  rw [premineOutpoints, List.mem_map]
  exact ⟨n, List.mem_range.mpr hn, rfl⟩

theorem hash_of_mem_premineOutpoints (hmem : outpoint ∈ premineOutpoints) :
    outpoint.hash = ChainType.main.genesisTx.getHash sample := by
  rw [premineOutpoints, List.mem_map] at hmem
  obtain ⟨n, _, heq⟩ := hmem
  rw [← heq]

/-- A coinstake that spends all of these outpoints spends the coins there. -/
theorem mem_spentCoins_sweep {view : CoinsView} {coin : Coin} (hlength : 1 < outpoints.length)
    (hmem : outpoint ∈ outpoints)
    (hlookup : (view.applyTx sample sweepCoinbase 1).lookup outpoint = some coin) :
    coin ∈ view.spentCoins sample 1 [sweepCoinbase, sweepCoinstake outpoints] := by
  refine List.mem_append_right _ (List.mem_append_left _ (List.mem_filterMap.mpr
    ⟨outpoint, ?_, hlookup⟩))
  rw [CTransaction.spentOutpoints_eq (isCoinBase_sweepCoinstake hlength), prevouts_sweepCoinstake]
  exact hmem

theorem spentOutpoints_sweep (hlength : 1 < outpoints.length) :
    [sweepCoinbase, sweepCoinstake outpoints].flatMap CTransaction.spentOutpoints = outpoints := by
  rw [List.flatMap_cons, List.flatMap_cons, List.flatMap_nil, List.append_nil,
    CTransaction.spentOutpoints_eq (isCoinBase_sweepCoinstake hlength), prevouts_sweepCoinstake]
  rfl

/-- Adding the outputs of another transaction leaves a coin alone. -/
theorem lookup_applyTx_of_ne {env : External} {view : CoinsView} {tx : CTransaction} {nHeight : ℤ}
    (hcoinbase : tx.isCoinBase = true) (hhash : tx.getHash env ≠ outpoint.hash) :
    (view.applyTx env tx nHeight).lookup outpoint = view.lookup outpoint := by
  have hnotMem : outpoint ∉ (tx.newCoins env nHeight).map Prod.fst := by
    intro hnew
    obtain ⟨entry, hentry, rfl⟩ := List.mem_map.mp hnew
    exact hhash (CTransaction.hash_of_mem_newCoins hentry).symm
  rw [CoinsView.applyTx, if_pos hcoinbase, FiniteMap.lookup_insertAll_of_notMem hnotMem]

theorem sweepScene_premine :
    SweepScene ((ChainTip.genesis sample .main).view.applyTx sample sweepCoinbase 1)
      premineOutpoints := by
  refine ⟨length_premineOutpoints, nodup_premineOutpoints,
    fun _ => isNull_of_mem_premineOutpoints, ?_, ?_⟩
  · intro outpoint hmem
    have hhash := hash_of_mem_premineOutpoints hmem
    rw [lookup_applyTx_of_ne rfl (by rw [hhash]; exact getHash_sweep.1)]
    exact lookup_premineOutpoints hmem
  · intro entry hentry
    have hhash := CTransaction.hash_of_mem_newCoins hentry
    rw [lookup_applyTx_of_ne rfl (by rw [hhash]; exact getHash_sweep.2.2)]
    exact lookup_genesis_eq_none sample .main (by rw [hhash]; exact getHash_sweep.2.1)

end Accept

theorem sweepBlock_not_undone :
    ∃ connected, connectBlock (Setting.sample .main 1789171216 0)
        (sweepIndex premineOutpoints :: (ChainTip.genesis sample .main).pindex)
        (ChainTip.genesis sample .main).nStakeModifier (ChainTip.genesis sample .main).view
        (ChainTip.genesis sample .main).bestBlock (sweepBlock premineOutpoints) false =
          .ok connected ∧
      disconnectConnected sample (ChainTip.genesis sample .main)
          (sweepIndex premineOutpoints) (sweepBlock premineOutpoints) connected ≠
        .ok ⟨.ok, (ChainTip.genesis sample .main).view,
          (ChainTip.genesis sample .main).bestBlock⟩ := by
  obtain ⟨hbase, hstake, hdistinct⟩ := getHash_sweep
  have hgenesis : (sweepIndex premineOutpoints).hashBlock ≠
      (ChainType.main.consensus sample).hashGenesisBlock := by decide +kernel
  obtain ⟨connected, hconnect⟩ := exists_connectBlock_sweep sweepScene_premine
    (fun _ => lookup_premineOutpoints) hbase hstake hdistinct hgenesis
  have hids : GenesisIdUnique sample .main ([] ++ [sweepBlock premineOutpoints]) := by
    intro block hblock
    obtain rfl := List.mem_singleton.mp hblock
    exact List.forall_mem_cons.mpr
      ⟨hbase, List.forall_mem_cons.mpr ⟨hstake, List.forall_mem_nil _⟩⟩
  have hindex : ∃ fSetAsProofOfStake, sweepIndex premineOutpoints =
      CBlockIndex.ofHeader sample (ChainTip.genesis sample .main).pindex
        (sweepBlock premineOutpoints).toCBlockHeader fSetAsProofOfStake := ⟨true, rfl⟩
  have hlength : 1 < premineOutpoints.length := by
    rw [length_premineOutpoints]
    decide
  obtain ⟨coinbase, spends, hscene, hspentCoins, hspentOutpoints, hdisconnect⟩ :=
    exists_undoScene lawfulPubKeys_sample .nil ⟨rfl, rfl, rfl⟩ hindex hgenesis hconnect
      (by decide) hids
  refine ⟨connected, hconnect, ?_⟩
  rw [Ne, hdisconnect]
  rintro ⟨middle, hloop, hlast⟩
  -- the block spends premine coins, so one would have to be left
  obtain ⟨outpoint, rest, hcons⟩ := List.exists_cons_of_length_pos (Nat.zero_lt_of_lt hlength)
  have hfirst : outpoint ∈ premineOutpoints := by
    rw [hcons]
    exact List.mem_cons_self
  have hpremine : ∃ coin ∈ spends.flatMap Prod.snd, coin.nHeight = 0 := by
    rw [← hspentCoins]
    exact ⟨ChainType.main.premineCoin, mem_spentCoins_sweep hlength hfirst
      (sweepScene_premine.lookup_eq outpoint hfirst), rfl⟩
  obtain ⟨donor, coin, hlookup, _, hfree⟩ := hscene.keepsPremine hloop hlast hpremine
  have hall : (sweepBlock premineOutpoints).vtx.flatMap CTransaction.spentOutpoints =
      premineOutpoints := spentOutpoints_sweep hlength
  rw [← hspentOutpoints, hall] at hfree
  exact hfree (mem_premineOutpoints hlookup)

end Sweep

end Law

end FirstIslamicCoin
