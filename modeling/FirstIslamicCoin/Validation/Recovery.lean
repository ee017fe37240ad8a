import FirstIslamicCoin.Validation.ReplayLaw

/-!
# Recovery of a chain state

Rolling the blocks between two tips of a chain forward over a database that holds,
at every outpoint, the coin of either tip.
-/

namespace FirstIslamicCoin

open Outcome WriteBack

section Rolling

variable (env : External) {db : CCoinsViewDB} {cache : CCoinsViewCache}
  {changes : List (COutPoint × Option Coin)}

namespace Replaying

section

variable (hreplaying : Replaying db changes cache)

include hreplaying

theorem spendAll (outpoints : List COutPoint) :
    ∃ top, loop (fun (current : ReplayCache) outpoint => do
          let (_, after) ← current.perform CCoinsViewDB.view 0 (.spendCoin outpoint)
          .ok after) ⟨[cache], db⟩ outpoints =
        (.ok ⟨[top], db⟩ : Except CacheFailure ReplayCache) ∧
      Replaying db (changes ++ outpoints.map fun outpoint => (outpoint, none)) top := by
  induction outpoints generalizing cache changes with
  | nil => exact ⟨cache, rfl, by rwa [List.map_nil, List.append_nil]⟩
  | cons outpoint outpoints ih =>
    obtain ⟨answer, spent, hspend, hspent⟩ := hreplaying.spendCoin outpoint
    obtain ⟨top, hloop, htop⟩ := ih hspent
    refine ⟨top, loop_cons_eq_ok.mpr ⟨⟨[spent], db⟩, ?_, hloop⟩, ?_⟩
    · rw [hspend]
      rfl
    · rwa [List.append_assoc] at htop

theorem addCoins {tx : CTransaction} (nHeight : ℤ) (hvalues : ∀ out ∈ tx.vout, 0 ≤ out.value) :
    ∃ top, CoinsStack.addCoins CCoinsViewDB.view env tx nHeight true ⟨[cache], db⟩ =
        .ok ⟨[top], db⟩ ∧
      Replaying db (changes ++ (tx.newCoins env nHeight).map fun entry =>
        (entry.1, some entry.2)) top := by
  rw [CoinsStack.addCoins, CTransaction.newCoins]
  have hentries : ∀ entry ∈ tx.vout.zipIdx, 0 ≤ entry.1.value := fun entry hmem =>
    hvalues entry.1 (List.fst_mem_of_mem_zipIdx hmem)
  generalize tx.vout.zipIdx = entries at hentries
  induction entries generalizing cache changes with
  | nil => exact ⟨cache, rfl, by simpa [CTransaction.coinsOf] using hreplaying⟩
  | cons entry entries ih =>
    obtain ⟨hentry, hothers⟩ := List.forall_mem_cons.mp hentries
    obtain ⟨fetched, hhave, hfetched⟩ := hreplaying.haveCoin (tx.outPoint env entry.2)
    have hunspent : (tx.coinOf nHeight entry.1).isSpent = false := CTxOut.isNull_of_nonneg hentry
    obtain ⟨added, hadd, hadded⟩ := hfetched.addCoin (tx.outPoint env entry.2) hunspent
    obtain ⟨top, hloop, htop⟩ := ih hadded hothers
    refine ⟨top, loop_cons_eq_ok.mpr ⟨⟨[added], db⟩, ?_, hloop⟩, ?_⟩
    · have hoverwrite : (CoinsAnswer.present (CoinsView.haveCoin
          (writeAll db.contents changes) (tx.outPoint env entry.2)) == CoinsAnswer.present true) =
          CoinsView.haveCoin (writeAll db.contents changes) (tx.outPoint env entry.2) := by
        cases CoinsView.haveCoin (writeAll db.contents changes) (tx.outPoint env entry.2) <;> rfl
      simp only [if_true, hhave, ok_bind, hoverwrite, hadd]
    · rw [CTransaction.coinsOf_cons]
      have hout : (tx.coinOf nHeight entry.1).out = entry.1 := rfl
      rw [hout] at htop
      split_ifs with hdrop
      · rwa [if_pos hdrop] at htop
      · rw [if_neg hdrop, List.append_assoc] at htop
        exact htop

theorem rollforwardTx {tx : CTransaction} (nHeight : ℤ) (hvalues : ∀ out ∈ tx.vout, 0 ≤ out.value) :
    ∃ top, FirstIslamicCoin.rollforwardTx env nHeight ⟨[cache], db⟩ tx = .ok ⟨[top], db⟩ ∧
      Replaying db (changes ++ tx.changes env nHeight) top := by
  obtain ⟨spent, hspend, hspent⟩ := hreplaying.spendAll tx.spentOutpoints
  obtain ⟨top, hadd, htop⟩ := hspent.addCoins env nHeight hvalues
  refine ⟨top, ?_, ?_⟩
  · rw [FirstIslamicCoin.rollforwardTx]
    rw [CTransaction.spentOutpoints] at hspend
    split_ifs at hspend ⊢
    · have hsame : (⟨[cache], db⟩ : ReplayCache) = ⟨[spent], db⟩ := Except.ok.inj hspend
      rw [hsame, ok_bind]
      exact hadd
    · rw [hspend, ok_bind]
      exact hadd
  · rwa [List.append_assoc, ← CTransaction.changes] at htop

theorem rollforwardTxs {vtx : List CTransaction} (nHeight : ℤ)
    (hvalues : ∀ tx ∈ vtx, ∀ out ∈ tx.vout, 0 ≤ out.value) :
    ∃ top, loop (FirstIslamicCoin.rollforwardTx env nHeight) ⟨[cache], db⟩ vtx = .ok ⟨[top], db⟩ ∧
      Replaying db (changes ++ historyChanges env (vtx.map fun tx => (tx, nHeight))) top := by
  induction vtx generalizing cache changes with
  | nil => exact ⟨cache, rfl, by simpa [historyChanges] using hreplaying⟩
  | cons tx vtx ih =>
    obtain ⟨hfirst, hothers⟩ := List.forall_mem_cons.mp hvalues
    obtain ⟨next, hnext, hchanged⟩ := hreplaying.rollforwardTx env nHeight hfirst
    obtain ⟨top, hloop, htop⟩ := ih hchanged hothers
    refine ⟨top, loop_cons_eq_ok.mpr ⟨_, hnext, hloop⟩, ?_⟩
    rwa [List.append_assoc] at htop

end

end Replaying

end Rolling

section Disk

variable {env : External} {params : Params} {files : BlockFiles}

/-- What `ReadBlockFromDisk` asks of a block before it returns it. -/
structure ProvenBlock (env : External) (params : Params) (index : CBlockIndex)
    (block : CBlock) : Prop where
  hash_eq : index.hashBlock = block.getHash env
  proof : block.getHash env = params.hashGenesisBlock ∨ block.isProofOfStake = true ∨
    checkProofOfWork (block.getPoWHash env) block.nBits params = true
  solution : params.signetBlocks = true → block.getHash env = params.hashGenesisBlock ∨
    env.checkSignetBlockSolution (serializeBlock false true block) = true

/-- The bytes of a block are in the block files, at the position of its entry, and none
of its vectors is too long to be read back. -/
structure StoredBlock (files : BlockFiles) (index : CBlockIndex) (block : CBlock) : Prop where
  bytes_eq : files index = some (serializeBlock false true block)
  fits : block.Fits maxSize

theorem isProofOfStake_wireForm (block : CBlock) :
    (block.wireForm false true).isProofOfStake = block.isProofOfStake := by
  have hcoinstake : ∀ tx : CTransaction, (tx.wireForm true).isCoinStake = tx.isCoinStake := by
    intro tx
    rw [CTransaction.wireForm, map_wireForm_true]
    rfl
  simp only [CBlock.isProofOfStake, CBlock.wireForm]
  rcases block.vtx with _ | ⟨coinbase, _ | ⟨coinstake, rest⟩⟩
  · rfl
  · rfl
  · exact hcoinstake coinstake

theorem readBlockFromDisk_of_stored {index : CBlockIndex} {block : CBlock}
    (hproven : ProvenBlock env params index block) (hstored : StoredBlock files index block) :
    ∃ read, readBlockFromDisk env params files index = some read ∧
      read.vtx = block.vtx.map (CTransaction.wireForm true) := by
  have hread : readBlock maxSize false true (serializeBlock false true block) =
      some (block.wireForm false true, []) := by
    have hrecovers := readBlock_recovers (by decide) false true hstored.fits []
    rwa [List.append_nil] at hrecovers
  have hproof : block.getHash env = params.hashGenesisBlock ∨
      (block.wireForm false true).isProofOfStake = true ∨
        checkProofOfWork (block.getPoWHash env) block.nBits params = true := by
    rw [isProofOfStake_wireForm]
    exact hproven.proof
  have hsolution : (!params.signetBlocks || block.getHash env = params.hashGenesisBlock ||
      env.checkSignetBlockSolution (serializeBlock false true block)) = true := by
    cases hsignet : params.signetBlocks with
    | false => rfl
    | true => simpa using hproven.solution hsignet
  refine ⟨{ block.wireForm false true with
    nFlags := if (block.wireForm false true).isProofOfStake then
        (block.wireForm false true).nFlags ||| blockProofOfStake
      else (block.wireForm false true).nFlags }, ?_, rfl⟩
  have hhash : (block.wireForm false true).getHash env = block.getHash env := rfl
  have hpow : (block.wireForm false true).getPoWHash env = block.getPoWHash env := rfl
  have hbits : (block.wireForm false true).nBits = block.nBits := rfl
  simp only [readBlockFromDisk, hstored.bytes_eq, Option.bind_eq_bind, Option.bind_some, hread,
    hhash, hpow, hbits, guard, hproof, hsolution, hproven.hash_eq, if_true]
  rfl

end Disk

section Ancestors

/-- An entry of a numbered chain is found at its height. -/
theorem IndexChain.Numbered.getAncestor_of_mem {pindex : IndexChain} {index : CBlockIndex}
    (hnumbered : pindex.Numbered) (hmem : index ∈ pindex) :
    ∃ rest, pindex.getAncestor index.nHeight = index :: rest := by
  obtain ⟨newer, older, rfl⟩ := List.append_of_mem hmem
  refine ⟨older, hnumbered.getAncestor_of_suffix (List.suffix_append newer _) ?_⟩
  rw [getAncestor, List.dropWhile_cons, if_neg (by simp)]

theorem heightsAbove_succ {fork last : ℤ} (hle : fork ≤ last) :
    heightsAbove fork (last + 1) = heightsAbove fork last ++ [last + 1] := by
  have hlength : (last + 1 - fork).toNat = (last - fork).toNat + 1 := by omega
  have hlast : fork + 1 + ((last - fork).toNat : ℤ) = last + 1 := by omega
  rw [heightsAbove, hlength, List.range_succ, List.map_append, List.map_singleton, hlast]
  rfl

/-- The heights that `ReplayBlocks` goes through are those of the entries above the
fork. -/
theorem heightsAbove_eq {fork : IndexChain} (above : List CBlockIndex)
    (hnumbered : IndexChain.Numbered (above.reverse ++ fork)) :
    heightsAbove fork.height (IndexChain.height (above.reverse ++ fork)) =
      above.map CBlockIndex.nHeight := by
  induction above using List.reverseRecOn with
  | nil => simp [heightsAbove]
  | append_singleton above index ih =>
    rw [List.reverse_append, List.reverse_singleton, List.singleton_append,
      List.cons_append] at hnumbered ⊢
    obtain ⟨hheight, hbelow⟩ := hnumbered
    have hle : fork.height ≤ IndexChain.height (above.reverse ++ fork) :=
      hbelow.height_le_of_suffix (List.suffix_append _ _)
    rw [IndexChain.height, hheight, heightsAbove_succ hle, ih hbelow, List.map_append,
      List.map_singleton, hheight]

variable {left right common : IndexChain}

theorem suffix_walkToCommon_iff (hlength : left.length = right.length) :
    common <:+ IndexChain.walkToCommon left right ↔ common <:+ left ∧ common <:+ right := by
  induction left generalizing right with
  | nil =>
    obtain rfl := List.eq_nil_of_length_eq_zero hlength.symm
    simp [IndexChain.walkToCommon]
  | cons first leftRest ih =>
    obtain ⟨second, rightRest, rfl⟩ := List.exists_cons_of_length_eq_add_one hlength.symm
    have hrest := Nat.succ.inj hlength
    rw [IndexChain.walkToCommon]
    split_ifs with heq
    · rw [heq, and_self]
    · rw [ih hrest, List.suffix_cons_iff, List.suffix_cons_iff]
      refine ⟨And.imp .inr .inr, ?_⟩
      rintro ⟨hfirst | hleft, hsecond | hright⟩
      · exact absurd (hfirst.symm.trans hsecond) heq
      · exact absurd (hfirst ▸ hright).length_le (by simp [hrest])
      · exact absurd (hsecond ▸ hleft).length_le (by simp [hrest])
      · exact ⟨hleft, hright⟩

theorem suffix_lastCommonAncestor_iff (hleft : left.Numbered) (hright : right.Numbered) :
    common <:+ left.lastCommonAncestor right ↔ common <:+ left ∧ common <:+ right := by
  obtain ⟨hlength, hbelowLeft, hkeptLeft⟩ := hleft.levelled hright rfl
  obtain ⟨hlengthRight, hbelowRight, hkeptRight⟩ := hright.levelled hleft rfl
  rw [IndexChain.lastCommonAncestor,
    suffix_walkToCommon_iff (by rw [hlength, hlengthRight, min_comm])]
  exact ⟨fun hboth => ⟨hboth.1.trans hbelowLeft, hboth.2.trans hbelowRight⟩,
    fun hboth => ⟨hkeptLeft _ hboth.1 hboth.2, hkeptRight _ hboth.2 hboth.1⟩⟩

/-- An ancestor is the last common ancestor of itself and what is above it. -/
theorem lastCommonAncestor_of_suffix {old new : IndexChain} (hnumbered : new.Numbered)
    (hsuffix : old <:+ new) : old.lastCommonAncestor new = old := by
  have hlast (common : IndexChain) := @suffix_lastCommonAncestor_iff _ _ common
    (hnumbered.of_suffix hsuffix) hnumbered
  exact ((hlast _).mp List.suffix_rfl).1.eq_of_length_le
    ((hlast old).mpr ⟨List.suffix_rfl, hsuffix⟩).length_le

theorem findFork_eq_lastCommonAncestor (hleft : left.Numbered) (hright : right.Numbered) :
    left.findFork right = left.lastCommonAncestor right ∧
      ∀ common : IndexChain,
        common <:+ left.findFork right ↔ common <:+ left ∧ common <:+ right := by
  have hfork (common : IndexChain) := @hright.suffix_findFork_iff _ _ common hleft
  have hlast (common : IndexChain) :=
    (hfork common).trans (suffix_lastCommonAncestor_iff hleft hright).symm
  refine ⟨?_, hfork⟩
  exact ((hlast _).mp List.suffix_rfl).eq_of_length_le ((hlast _).mpr List.suffix_rfl).length_le

theorem findFork_eq_lastCommonAncestor_genesis :
    let entry (hashBlock : UInt256) (nHeight : ℤ) : CBlockIndex :=
      ⟨hashBlock, 0, 0, 0, 0, 0, 0, nHeight, 0⟩
    IndexChain.lastCommonAncestor [entry 1 1, entry 0 0] [entry 3 2, entry 2 1, entry 0 0] =
      [entry 0 0] := by
  intro entry
  refine (findFork_eq_lastCommonAncestor ?_ ?_).1.symm.trans (by decide)
  · exact ⟨rfl, rfl, trivial⟩
  · exact ⟨rfl, rfl, rfl, trivial⟩

end Ancestors

section Blocks

variable {env : External} {params : Params} {files : BlockFiles} {db : CCoinsViewDB}
  {cache : CCoinsViewCache} {changes : List (COutPoint × Option Coin)}

namespace Replaying

section

variable (hreplaying : Replaying db changes cache)

include hreplaying

theorem rollforwardBlock {index : CBlockIndex} {block : CBlock}
    (hproven : ProvenBlock env params index block) (hstored : StoredBlock files index block)
    (hvalues : ∀ tx ∈ block.vtx, ∀ out ∈ tx.vout, 0 ≤ out.value) :
    ∃ top, FirstIslamicCoin.rollforwardBlock env params files ⟨[cache], db⟩ index =
        .ok ⟨[top], db⟩ ∧
      Replaying db (changes ++ historyChanges env
        (storedHistory (block.vtx.map fun tx => (tx, index.nHeight)))) top := by
  obtain ⟨read, hread, hvtx⟩ := readBlockFromDisk_of_stored hproven hstored
  have hreadValues : ∀ tx ∈ read.vtx, ∀ out ∈ tx.vout, 0 ≤ out.value := by
    rw [hvtx]
    intro stored hmem
    obtain ⟨tx, htx, rfl⟩ := List.mem_map.mp hmem
    exact hvalues tx htx
  obtain ⟨top, hloop, htop⟩ := hreplaying.rollforwardTxs env index.nHeight hreadValues
  refine ⟨top, ?_, ?_⟩
  · rw [FirstIslamicCoin.rollforwardBlock, hread]
    dsimp only
    rw [hloop]
    rfl
  · rw [hvtx, List.map_map] at htop
    rwa [storedHistory, List.map_map]

/-- Rolling forward the blocks above a fork point. -/
theorem rollForward {pindexNew : IndexChain} {above : List CBlockIndex} {blocks : List CBlock}
    (hproven : List.Forall₂ (ProvenBlock env params) above blocks)
    (hstored : List.Forall₂ (StoredBlock files) above blocks) (fork : IndexChain)
    (hvalues : ∀ block ∈ blocks, ∀ tx ∈ block.vtx, ∀ out ∈ tx.vout, 0 ≤ out.value)
    (hnew : pindexNew = above.reverse ++ fork) (hnumbered : pindexNew.Numbered) :
    ∃ top, FirstIslamicCoin.rollForward env params files fork pindexNew ⟨[cache], db⟩ =
        .ok ⟨[top], db⟩ ∧
      Replaying db (changes ++ historyChanges env
        (storedHistory (blockHistory (fork.height + 1) blocks))) top := by
  have hheights : heightsAbove fork.height pindexNew.height = above.map CBlockIndex.nHeight := by
    rw [hnew] at hnumbered ⊢
    exact heightsAbove_eq above hnumbered
  rw [FirstIslamicCoin.rollForward, hheights]
  clear hheights
  induction hproven generalizing cache changes fork with
  | nil => exact ⟨cache, rfl, by simpa [blockHistory, storedHistory, historyChanges]⟩
  | @cons index block above blocks hfirst hrest ih =>
    obtain ⟨hstoredFirst, hstoredRest⟩ := List.forall₂_cons.mp hstored
    obtain ⟨hvaluesFirst, hvaluesRest⟩ := List.forall_mem_cons.mp hvalues
    have hchain : pindexNew = above.reverse ++ index :: fork := by
      rw [hnew, List.reverse_cons, List.append_assoc, List.singleton_append]
    have hmem : index ∈ pindexNew := by simp [hchain]
    have hheight : index.nHeight = fork.height + 1 := by
      rw [hchain] at hnumbered
      exact (hnumbered.of_suffix (List.suffix_append _ _)).1
    obtain ⟨rest, hancestor⟩ := hnumbered.getAncestor_of_mem hmem
    obtain ⟨next, hnext, hchanged⟩ := hreplaying.rollforwardBlock hfirst hstoredFirst hvaluesFirst
    obtain ⟨top, hloop, htop⟩ := ih hchanged hstoredRest (index :: fork) hvaluesRest hchain
    refine ⟨top, ?_, ?_⟩
    · rw [List.map_cons]
      refine loop_cons_eq_ok.mpr ⟨_, ?_, hloop⟩
      rw [hancestor]
      exact hnext
    · rw [List.append_assoc, ← historyChanges_append] at htop
      rw [blockHistory, ← hheight]
      rwa [storedHistory, List.map_append]

/-- The last write to an outpoint is what the flush leaves there, in its stored form. -/
theorem lookup_committed (hunspent : db.contents = db.coins) (outpoint : COutPoint) :
    (committed Coin.isSpent Coin.recoded cache.cacheCoins db.coins).lookup outpoint =
      ((lastWrite outpoint changes).map (Option.map Coin.recoded)).getD
        (db.coins.lookup outpoint) := by
  have hshown : (overlay Coin.isSpent cache.cacheCoins db.coins).lookup outpoint =
      (lastWrite outpoint changes).getD (db.coins.lookup outpoint) := by
    rw [← lookup_writeAll, ← hunspent, hreplaying.shown_eq]
  rw [lookup_overlay] at hshown
  rw [WriteBack.lookup_committed]
  cases hlookup : cache.cacheCoins.lookup outpoint with
  | none =>
    rw [hlookup, Option.elim_none] at hshown
    cases hlast : lastWrite outpoint changes with
    | none => rfl
    | some value =>
      cases value with
      | none =>
        rw [hlast] at hshown
        exact hshown
      | some coin =>
        have hdirty := hreplaying.dirty outpoint coin hlast
        rw [CCoinsViewCache.pending, hlookup] at hdirty
        exact absurd hdirty Bool.false_ne_true
  | some entry =>
    rw [hlookup, Option.elim_some] at hshown
    have hpending : cache.pending outpoint = entry.dirty := by
      rw [CCoinsViewCache.pending, hlookup, Option.any_some]
    rw [Option.elim_some, hshown]
    cases hlast : lastWrite outpoint changes with
    | none =>
      rw [← hpending, hreplaying.clean outpoint hlast]
      rfl
    | some value =>
      cases value with
      | none =>
        split_ifs with hdirty
        · rfl
        · have hclean := (hreplaying.sound outpoint entry hlookup).clean_eq (by simpa using hdirty)
          rw [hshown, hlast, hunspent] at hclean
          exact hclean.symm
      | some coin =>
        rw [← hpending, hreplaying.dirty outpoint coin hlast]
        rfl

/-- The flush at the end of `ReplayBlocks`. -/
theorem finishReplay (hunspent : db.contents = db.coins) {hashNew : UInt256}
    (hnonzero : hashNew ≠ 0) (hheads : db.headBlocks.head? = some hashNew) :
    ∃ after, FirstIslamicCoin.finishReplay hashNew ⟨[cache], db⟩ = .ok after ∧
      after.bestBlock = hashNew ∧ after.headBlocks = [] ∧
      ∀ outpoint, after.coins.lookup outpoint =
        ((lastWrite outpoint changes).map (Option.map Coin.recoded)).getD
          (db.coins.lookup outpoint) := by
  have hwrite : CCoinsViewDB.view.batchWrite db cache.cacheCoins hashNew true =
      some (∅, ⟨committed Coin.isSpent Coin.recoded cache.cacheCoins db.coins, hashNew, []⟩) := by
    have hsame : ¬ (db.bestBlock = 0 ∧ db.headBlocks.length = 2 ∧
        db.headBlocks.head? ≠ some hashNew) := fun hother => hother.2.2 hheads
    change CCoinsViewDB.batchWrite db cache.cacheCoins hashNew true = _
    rw [CCoinsViewDB.batchWrite, if_neg hnonzero, if_neg hsame]
    rfl
  refine ⟨⟨committed Coin.isSpent Coin.recoded cache.cacheCoins db.coins, hashNew, []⟩, ?_, rfl,
    rfl, hreplaying.lookup_committed hunspent⟩
  rw [FirstIslamicCoin.finishReplay]
  dsimp only
  rw [CCoinsViewCache.flush, CCoinsViewCache.batchWriteBelow, hwrite]
  rfl

end

end Replaying

end Blocks

section Growth

variable {env : External} {network : ChainType} {mode : Overflow}

variable {block : CBlock}

/-- What `CheckBlock` with all its checks says about the proof of a block. -/
theorem provenBlock_of_checkBlock {setting : Setting} {index : CBlockIndex}
    (hhash : index.hashBlock = block.getHash setting.env)
    (hcheck : checkBlock setting block true true true = .ok ()) :
    ProvenBlock setting.env setting.params index block := by
  simp only [checkBlock, checkBlockHeader, checkBlockBody, bind_eq_ok, require_eq_ok,
    exists_unit] at hcheck
  obtain ⟨⟨_, hpow, _⟩, hsignet, _⟩ := hcheck
  refine ⟨hhash, .inr ?_, fun hnetwork => .inr ?_⟩
  · cases hstake : block.isProofOfStake with
    | true => exact .inl rfl
    | false => simpa [CBlock.isProofOfWork, hstake] using hpow
  · simpa [hnetwork] using hsignet

/-- How a chain grew by some blocks, from the entries and the coins it had. -/
structure Grown (env : External) (params : Params) (pindex : IndexChain) (view : CoinsView)
    (above : List CBlockIndex) (blocks : List CBlock) (next : ChainTip) : Prop where
  pindex_eq : next.pindex = above.reverse ++ pindex
  height_eq : next.pindex.height = pindex.height + blocks.length
  numbered : next.pindex.Numbered
  proven : List.Forall₂ (ProvenBlock env params) above blocks
  creates : CreatesCoins (blockHistory (pindex.height + 1) blocks)
  view_eq : next.view = writeAll view (historyChanges env (blockHistory (pindex.height + 1) blocks))
  nonNegative : next.view.NonNegative

theorem createsCoins_append {first second : List (CTransaction × ℤ)} (hfirst : CreatesCoins first)
    (hsecond : CreatesCoins second) : CreatesCoins (first ++ second) := by
  intro entry hmem
  rcases List.mem_append.mp hmem with hbefore | hafter
  · exact hfirst entry hbefore
  · exact hsecond entry hafter

/-- A tip has grown from itself. -/
theorem Grown.refl {params : Params} {tip : ChainTip} (hnumbered : tip.pindex.Numbered)
    (hview : tip.view.NonNegative) : Grown env params tip.pindex tip.view [] [] tip where
  pindex_eq := rfl
  height_eq := (add_zero _).symm
  numbered := hnumbered
  proven := .nil
  creates := nofun
  view_eq := rfl
  nonNegative := hview

/-- One more block connected. -/
theorem Grown.connects {pindex : IndexChain} {view : CoinsView} {above : List CBlockIndex}
    {blocks : List CBlock} {tip next : ChainTip}
    (hgrown : Grown env (network.consensus env) pindex view above blocks tip)
    (hconnects : Connects env network mode tip block next) :
    ∃ index, Grown env (network.consensus env) pindex view (above ++ [index])
      (blocks ++ [block]) next := by
  obtain ⟨setting, index, connected, ⟨rfl, hparams, _⟩, hindex, hgenesis, hconnect⟩ := hconnects
  have hproven := provenBlock_of_checkBlock
    (show index.hashBlock = block.getHash setting.env by obtain ⟨_, rfl⟩ := hindex; rfl)
    (checkBlock_of_connectBlock hconnect)
  rw [hparams] at hproven
  rw [← hparams] at hgenesis
  obtain ⟨state, hrun⟩ := connectBlock_run hgenesis hconnect
  have hheight : index.nHeight = pindex.height + 1 + blocks.length := by
    obtain ⟨_, rfl⟩ := hindex
    change tip.pindex.height + 1 = _
    rw [hgrown.height_eq]
    ring
  have hlast : blockHistory (pindex.height + 1 + blocks.length) [block] =
      block.vtx.map fun tx => (tx, index.nHeight) := by
    rw [blockHistory, blockHistory, List.append_nil, hheight]
  refine ⟨index, ?_, ?_, ?_, ?_, ?_, ?_, ?_⟩
  · rw [List.reverse_append, List.reverse_singleton, List.singleton_append, List.cons_append,
      ← hgrown.pindex_eq]
  · rw [IndexChain.height, hheight, List.length_append, List.length_singleton, Nat.cast_add,
      Nat.cast_one]
    ring
  · refine ⟨?_, hgrown.numbered⟩
    rw [hheight, hgrown.height_eq]
    ring
  · exact List.rel_append hgrown.proven (.cons hproven .nil)
  · rw [blockHistory_append, hlast]
    refine createsCoins_append hgrown.creates ?_
    intro entry hmem
    obtain ⟨tx, htx, rfl⟩ := List.mem_map.mp hmem
    have hchecked := hrun.checked.checked tx htx
    exact ⟨hchecked.length_vout_le.trans (by decide), hchecked.value_nonneg⟩
  · have hview := hrun.ledger.view_eq
    rw [← hrun.view_eq, ConnectState.initial_view, applyAll_eq_writeAll, hgrown.view_eq,
      ← writeAll_append, ← historyChanges_append, ← hlast, ← blockHistory_append] at hview
    exact hview
  · exact hrun.nonNegative hgrown.nonNegative

theorem Grown.run {pindex : IndexChain} {view : CoinsView} {above : List CBlockIndex}
    {earlier later : List CBlock} {tip next : ChainTip}
    (hgrown : Grown env (network.consensus env) pindex view above earlier tip)
    (hrun : Run (Connects env network mode) tip later next) :
    ∃ newer, Grown env (network.consensus env) pindex view newer (earlier ++ later) next := by
  refine hrun.invariant (fun blocks reached => ∃ newer,
    Grown env (network.consensus env) pindex view newer (earlier ++ blocks) reached)
    ⟨above, by rwa [List.append_nil]⟩ ?_
  rintro blocks state block after ⟨newer, hstate⟩ hstep
  obtain ⟨index, hafter⟩ := hstate.connects hstep
  exact ⟨newer ++ [index], by rwa [List.append_assoc] at hafter⟩

theorem exists_mem_blockHistory {blocks : List CBlock} {tx : CTransaction} (nHeight : ℤ)
    (hblock : block ∈ blocks) (htx : tx ∈ block.vtx) :
    ∃ height, (tx, height) ∈ blockHistory nHeight blocks := by
  induction blocks generalizing nHeight with
  | nil => exact absurd hblock List.not_mem_nil
  | cons first blocks ih =>
    rcases List.mem_cons.mp hblock with rfl | hlater
    · exact ⟨nHeight, List.mem_append_left _ (List.mem_map.mpr ⟨tx, htx, rfl⟩)⟩
    · obtain ⟨height, hmem⟩ := ih (nHeight + 1) hlater
      exact ⟨height, List.mem_append_right _ hmem⟩

theorem mem_blockHistory_singleton {tx : CTransaction} {nHeight height : ℤ} :
    (tx, height) ∈ blockHistory nHeight [block] ↔ tx ∈ block.vtx ∧ height = nHeight := by
  simp [blockHistory, eq_comm]

/-- The genesis block, on nothing. -/
theorem grown_genesis (env : External) (network : ChainType) :
    Grown env (network.consensus env) [] FiniteMap.empty (network.genesisChain env)
      [network.genesis env] (ChainTip.genesis env network) where
  pindex_eq := rfl
  height_eq := rfl
  numbered := ⟨rfl, trivial⟩
  proven := .cons ⟨rfl, .inl rfl, fun _ => .inl rfl⟩ .nil
  creates := by
    intro entry hmem
    obtain rfl : entry = (network.genesisTx, 0) := List.mem_singleton.mp hmem
    refine ⟨?_, fun out hout => ?_⟩
    · change (List.replicate 1000 _).length ≤ 2 ^ 32
      rw [List.length_replicate]
      decide
    · rw [List.eq_of_mem_replicate hout]
      cases network <;> decide
  view_eq := by
    have hhistory : historyChanges env
        (blockHistory (IndexChain.height [] + 1) [network.genesis env]) =
          network.genesisTx.changes env 0 := List.append_nil _
    rw [hhistory, ← applyTx_eq_writeAll]
    rfl
  nonNegative := (supplyInvariant_genesis).view_nonNegative

end Growth

section Recovery

variable {env : External} {network : ChainType} {mode : Overflow}

/-- A flush from an old tip of a chain to a later one, and the blocks between them.  The
first flush of all has no old tip, and the genesis block is between. -/
inductive Flushes (env : External) (network : ChainType) (mode : Overflow) :
    Option ChainTip → List CBlock → ChainTip → Prop
  | first {late : List CBlock} {new : ChainTip} :
      Run (Connects env network mode) (ChainTip.genesis env network) late new →
        Flushes env network mode none (network.genesis env :: late) new
  | later {early late : List CBlock} {old new : ChainTip} :
      Run (Connects env network mode) (ChainTip.genesis env network) early old →
        Run (Connects env network mode) old late new →
          Flushes env network mode (some old) late new

def oldIndex (old : Option ChainTip) : IndexChain := old.elim [] ChainTip.pindex

def oldView (old : Option ChainTip) : CoinsView := old.elim FiniteMap.empty ChainTip.view

/-- A flush that was interrupted: every outpoint has the coin of the old tip or that of
the new one, and the database names the two. -/
structure PartlyFlushed (old : Option ChainTip) (new : ChainTip) (db : CCoinsViewDB) : Prop where
  coins : ∀ outpoint, db.coins.lookup outpoint = (oldView old).lookup outpoint ∨
    db.coins.lookup outpoint = new.view.lookup outpoint
  headBlocks : db.headBlocks = [new.bestBlock, old.elim 0 ChainTip.bestBlock]

/-- The block index finds a tip by its hash, which is not null. -/
structure IndexedTip (blockIndex : UInt256 → Option IndexChain) (tip : ChainTip) : Prop where
  nonzero : tip.bestBlock ≠ 0
  found : blockIndex tip.bestBlock = some tip.pindex

variable {old : Option ChainTip} {new : ChainTip}

theorem Flushes.grown {blocks : List CBlock} (hflushes : Flushes env network mode old blocks new) :
    (oldView old).NonNegative ∧ (∀ tip, old = some tip → tip.pindex ≠ []) ∧
      ∃ above, Grown env (network.consensus env) (oldIndex old) (oldView old) above blocks new := by
  cases hflushes with
  | first hrun =>
    refine ⟨?_, nofun, (grown_genesis env network).run hrun⟩
    intro outpoint coin hlookup
    exact absurd hlookup nofun
  | @later early late old new hearly hlate =>
    obtain ⟨_, hold⟩ := (grown_genesis env network).run hearly
    refine ⟨hold.nonNegative, ?_, (Grown.refl hold.numbered hold.nonNegative).run hlate⟩
    rintro tip heq hempty
    obtain rfl := Option.some.inj heq
    have hheight := hold.height_eq
    rw [hempty, List.length_append, List.length_singleton] at hheight
    simp only [IndexChain.height] at hheight
    omega

/-- Nothing in a partly flushed database is spent. -/
theorem PartlyFlushed.contents_eq {db : CCoinsViewDB} (hpartly : PartlyFlushed old new db)
    (hold : (oldView old).NonNegative) (hnew : new.view.NonNegative) : db.contents = db.coins := by
  ext1 outpoint
  change (db.coins.lookup outpoint).bind (live Coin.isSpent) = db.coins.lookup outpoint
  cases hlookup : db.coins.lookup outpoint with
  | none => rfl
  | some coin =>
    have hvalue : 0 ≤ coin.value := by
      rcases hpartly.coins outpoint with hfrom | hfrom
      · exact hold outpoint coin (by rw [← hfrom, hlookup])
      · exact hnew outpoint coin (by rw [← hfrom, hlookup])
    exact live_of_unspent (CTxOut.isNull_of_nonneg hvalue)

/-- Nothing is rolled back when the old tip is the fork point. -/
theorem rollBack_self (params : Params) (files : BlockFiles)
    (disconnectBlock : CBlock → IndexChain → ReplayCache → Option ReplayCache)
    (pindex : IndexChain) (cache : ReplayCache) :
    rollBack env params files disconnectBlock pindex pindex cache = .ok cache := by
  cases pindex with
  | nil => rfl
  | cons index pprev => rw [rollBack, if_pos rfl]

/-- `ReplayBlocks` between a tip and a later one is rolling forward and a flush. -/
theorem replayBlocks_eq {db : CCoinsViewDB} {files : BlockFiles} {params : Params}
    {blockIndex : UInt256 → Option IndexChain}
    {disconnectBlock : CBlock → IndexChain → ReplayCache → Option ReplayCache}
    (hheads : db.headBlocks = [new.bestBlock, old.elim 0 ChainTip.bestBlock])
    (hnew : IndexedTip blockIndex new)
    (hold : ∀ tip, old = some tip → IndexedTip blockIndex tip ∧ tip.pindex ≠ [])
    (hnumbered : new.pindex.Numbered) (hsuffix : oldIndex old <:+ new.pindex) :
    replayBlocks env params files blockIndex disconnectBlock db = (do
      let forward ← rollForward env params files (oldIndex old) new.pindex ⟨[⟨∅, 0⟩], db⟩
      finishReplay new.bestBlock forward) := by
  cases old with
  | none =>
    have hnames : db.headBlocks = [new.bestBlock, 0] := hheads
    rw [replayBlocks, hnames]
    dsimp only
    rw [hnew.found]
    dsimp only
    rw [if_pos rfl, ok_bind, rollBack_self, ok_bind]
    rfl
  | some tip =>
    obtain ⟨hindexed, hne⟩ := hold tip rfl
    have hnames : db.headBlocks = [new.bestBlock, tip.bestBlock] := hheads
    have hfork : tip.pindex.lastCommonAncestor new.pindex = tip.pindex :=
      lastCommonAncestor_of_suffix hnumbered hsuffix
    have hsome : (!tip.pindex.isEmpty) = true := by simpa using hne
    rw [replayBlocks, hnames]
    dsimp only
    rw [hnew.found]
    dsimp only
    rw [if_neg hindexed.nonzero, hindexed.found]
    dsimp only
    rw [hfork, hsome, require_true, ok_bind, ok_bind, rollBack_self, ok_bind]
    rfl

/-- Recovery leaves at every outpoint what the last write of the replayed blocks stores
there, or what was there. -/
theorem replayBlocks_lookup {blocks : List CBlock}
    (hflushes : Flushes env network mode old blocks new) {db : CCoinsViewDB}
    (hpartly : PartlyFlushed old new db) {files : BlockFiles}
    (hstored : List.Forall₂ (StoredBlock files) (new.pindex.take blocks.length).reverse blocks)
    {blockIndex : UInt256 → Option IndexChain} (hnew : IndexedTip blockIndex new)
    (hold : ∀ tip, old = some tip → IndexedTip blockIndex tip)
    (disconnectBlock : CBlock → IndexChain → ReplayCache → Option ReplayCache) :
    ∃ after, replayBlocks env (network.consensus env) files blockIndex disconnectBlock db =
        .ok after ∧
      after.bestBlock = new.bestBlock ∧ after.headBlocks = [] ∧
      ∀ outpoint, after.coins.lookup outpoint =
        ((lastWrite outpoint (historyChanges env (storedHistory
          (blockHistory ((oldIndex old).height + 1) blocks)))).map
            (Option.map Coin.recoded)).getD (db.coins.lookup outpoint) := by
  obtain ⟨holdView, hne, above, hgrown⟩ := hflushes.grown
  have habove : (new.pindex.take blocks.length).reverse = above := by
    rw [hgrown.pindex_eq, ← hgrown.proven.length_eq, ← List.length_reverse, List.take_left,
      List.reverse_reverse]
  rw [habove] at hstored
  have hunspent := hpartly.contents_eq holdView hgrown.nonNegative
  have hvalues : ∀ block ∈ blocks, ∀ tx ∈ block.vtx, ∀ out ∈ tx.vout, 0 ≤ out.value := by
    intro block hblock tx htx
    obtain ⟨nHeight, hmem⟩ := exists_mem_blockHistory ((oldIndex old).height + 1) hblock htx
    exact (hgrown.creates (tx, nHeight) hmem).2
  obtain ⟨top, hforward, htop⟩ := (Replaying.start db 0).rollForward hgrown.proven hstored
    (oldIndex old) hvalues hgrown.pindex_eq hgrown.numbered
  obtain ⟨after, hfinish, hbest, hheads, hlookup⟩ := htop.finishReplay hunspent hnew.nonzero
    (by rw [hpartly.headBlocks]; rfl)
  refine ⟨after, ?_, hbest, hheads, hlookup⟩
  rw [replayBlocks_eq hpartly.headBlocks hnew (fun tip heq => ⟨hold tip heq, hne tip heq⟩)
    hgrown.numbered ⟨above.reverse, hgrown.pindex_eq.symm⟩, hforward, ok_bind, hfinish]

theorem replayBlocks_restores_iff (env : External) (network : ChainType) (mode : Overflow)
    (old : Option ChainTip) (blocks : List CBlock) (new : ChainTip)
    (hflushes : Flushes env network mode old blocks new) (db : CCoinsViewDB)
    (hpartly : PartlyFlushed old new db) (files : BlockFiles)
    (hstored : List.Forall₂ (StoredBlock files) (new.pindex.take blocks.length).reverse blocks)
    (blockIndex : UInt256 → Option IndexChain) (hnew : IndexedTip blockIndex new)
    (hold : ∀ tip, old = some tip → IndexedTip blockIndex tip)
    (disconnectBlock : CBlock → IndexChain → ReplayCache → Option ReplayCache) :
    ∃ after, replayBlocks env (network.consensus env) files blockIndex disconnectBlock db =
        .ok after ∧
      after.bestBlock = new.bestBlock ∧ after.headBlocks = [] ∧
      (after.coins = new.view ↔
        ReplayKeeps env (blockHistory ((oldIndex old).height + 1) blocks)) := by
  obtain ⟨after, hreplay, hbest, hheads, hlookup⟩ :=
    replayBlocks_lookup hflushes hpartly hstored hnew hold disconnectBlock
  obtain ⟨_, _, _, hgrown⟩ := hflushes.grown
  have hcoins := hpartly.coins
  rw [hgrown.view_eq] at hcoins
  refine ⟨after, hreplay, hbest, hheads, ?_⟩
  rw [hgrown.view_eq, ← stored_eq_iff hgrown.creates hcoins]
  constructor
  · intro heq outpoint
    rw [← hlookup, heq]
  · intro hall
    exact FiniteMap.ext fun outpoint => (hlookup outpoint).trans (hall outpoint)

end Recovery

section FirstStake

open External

/-- `ConnectBlock` makes the block the best one. -/
theorem bestBlock_connectBlock_eq {setting : Setting} {pprev : IndexChain} {index : CBlockIndex}
    {prevModifier bestBlock : UInt256} {view : CoinsView} {block : CBlock}
    {connected : Connected} (hgenesis : index.hashBlock ≠ setting.params.hashGenesisBlock)
    (hconnect : connectBlock setting (index :: pprev) prevModifier view bestBlock block false =
      .ok connected) : connected.bestBlock = index.hashBlock := by
  simp only [connectBlock, bind_eq_ok, exists_unit, connectBody, hgenesis, if_false,
    connectTransactions, require_eq_ok, Except.ok.injEq, Bool.false_eq_true] at hconnect
  obtain ⟨_, _, _, _, _, _, rfl⟩ := hconnect
  rfl

def firstStakeTip (nFees : CAmount) (others : List CTransaction) (connected : Connected) :
    ChainTip where
  pindex := firstStakeIndex nFees others :: (ChainTip.genesis sample .main).pindex
  view := connected.view
  bestBlock := connected.bestBlock
  nStakeModifier := connected.nStakeModifier

def firstStakeFiles (nFees : CAmount) (others : List CTransaction) : BlockFiles :=
  fun _ => some (serializeBlock false true (firstStakeBlock nFees others))

/-- A block index with the genesis block and a first block. -/
def firstStakeLookup (nFees : CAmount) (others : List CTransaction) :
    UInt256 → Option IndexChain := fun hash =>
  if hash = (firstStakeIndex nFees others).hashBlock then
    some (firstStakeIndex nFees others :: (ChainTip.genesis sample .main).pindex)
  else some (ChainTip.genesis sample .main).pindex

/-- The database of a node that stopped after naming the two tips, before any coin was
written. -/
def untouchedDB (old new : ChainTip) : CCoinsViewDB where
  coins := old.view
  bestBlock := 0
  headBlocks := [new.bestBlock, old.bestBlock]

theorem partlyFlushed_untouchedDB (old new : ChainTip) :
    PartlyFlushed (some old) new (untouchedDB old new) :=
  ⟨fun _ => .inl rfl, rfl⟩

/-- A first block was connected and its flush interrupted at once. -/
structure InterruptedFirstStake (nFees : CAmount) (others : List CTransaction)
    (new : ChainTip) : Prop where
  flushes : Flushes sample .main .wrap (some (ChainTip.genesis sample .main))
    [firstStakeBlock nFees others] new
  partly : PartlyFlushed (some (ChainTip.genesis sample .main)) new
    (untouchedDB (ChainTip.genesis sample .main) new)
  stored : List.Forall₂ (StoredBlock (firstStakeFiles nFees others))
    (new.pindex.take 1).reverse [firstStakeBlock nFees others]
  new_indexed : IndexedTip (firstStakeLookup nFees others) new
  old_indexed : IndexedTip (firstStakeLookup nFees others) (ChainTip.genesis sample .main)

theorem interruptedFirstStake {now : ℤ} {nFees : CAmount} {others : List CTransaction}
    {connected : Connected} (hconnect : connectFirstStake now nFees others = .ok connected)
    (hfits : (firstStakeBlock nFees others).Fits maxSize)
    (hgenesis : (firstStakeIndex nFees others).hashBlock ≠
      (ChainType.main.consensus sample).hashGenesisBlock)
    (hnonzero : (firstStakeIndex nFees others).hashBlock ≠ 0)
    (hroot : (ChainType.main.consensus sample).hashGenesisBlock ≠ 0) :
    InterruptedFirstStake nFees others (firstStakeTip nFees others connected) := by
  have hbest : connected.bestBlock = (firstStakeIndex nFees others).hashBlock :=
    bestBlock_connectBlock_eq (show _ ≠ (Setting.sample .main now 0).params.hashGenesisBlock from
      hgenesis) hconnect
  have hconnects := connects_firstStake hgenesis hconnect
  refine ⟨.later .nil (Run.nil.snoc hconnects), partlyFlushed_untouchedDB _ _,
    .cons ⟨rfl, hfits⟩ .nil, ⟨?_, ?_⟩, ⟨hroot, ?_⟩⟩
  · exact fun hzero => hnonzero (hbest.symm.trans hzero)
  · exact if_pos hbest
  · exact if_neg hgenesis.symm

theorem InterruptedFirstStake.old_indexed_of_eq {nFees : CAmount} {others : List CTransaction}
    {new tip : ChainTip} (hscene : InterruptedFirstStake nFees others new)
    (heq : some (ChainTip.genesis sample .main) = some tip) :
    IndexedTip (firstStakeLookup nFees others) tip := by
  rw [← Option.some.inj heq]
  exact hscene.old_indexed

/-- The transactions of the first block have version 1 and round amounts: recovery
restores it. -/
theorem replayBlocks_restores_firstStake :
    ∃ connected after, connectFirstStake 1789171216 0 [] = .ok connected ∧
      replayBlocks sample (ChainType.main.consensus sample) (firstStakeFiles 0 [])
          (firstStakeLookup 0 []) (fun _ _ _ => none)
          (untouchedDB (ChainTip.genesis sample .main) (firstStakeTip 0 [] connected)) = .ok after ∧
      after.coins = connected.view := by
  obtain ⟨connected, hconnect⟩ :
      ∃ connected, connectFirstStake 1789171216 0 [] = .ok connected :=
    isOk_iff_exists.mp plainFirst.accepted
  obtain ⟨hnonzero, hroot⟩ : (firstStakeIndex 0 []).hashBlock ≠ 0 ∧
      (ChainType.main.consensus sample).hashGenesisBlock ≠ 0 := by
    decide +kernel
  have hscene := interruptedFirstStake hconnect (by decide) plainFirst.hashBlock_ne hnonzero hroot
  obtain ⟨after, hreplay, _, _, hiff⟩ := replayBlocks_restores_iff sample .main .wrap _ _ _
    hscene.flushes _ hscene.partly _ hscene.stored _ hscene.new_indexed
    (fun _ heq => hscene.old_indexed_of_eq heq) (fun _ _ _ => none)
  refine ⟨connected, after, hconnect, hreplay, hiff.mpr ?_⟩
  have hkept : ∀ tx ∈ (firstStakeBlock 0 []).vtx, tx.nVersion < 2 ∧
      ∀ entry ∈ tx.newCoins sample 1, entry.2.Storable := by
    simp only [Coin.Storable, AmountKept]
    decide
  intro before tx nHeight later hsplit entry hentry _
  have hmem : (tx, nHeight) ∈ blockHistory ((oldIndex
      (some (ChainTip.genesis sample .main))).height + 1) [firstStakeBlock 0 []] := by
    simp [hsplit]
  obtain ⟨htx, hheight⟩ := mem_blockHistory_singleton.mp hmem
  obtain rfl : nHeight = 1 := hheight
  exact ⟨(hkept tx htx).2 entry hentry, .inl (hkept tx htx).1⟩

theorem blockHistory_firstStake (nFees : CAmount) (last : CTransaction) :
    blockHistory ((oldIndex (some (ChainTip.genesis sample .main))).height + 1)
        [firstStakeBlock nFees [last]] =
      (firstStakeTransactions nFees []).map (fun tx => (tx, 1)) ++ [(last, 1)] := rfl

theorem restamped_not_restored :
    ∃ connected after, connectRestamped 1789171210 = .ok connected ∧
      InterruptedFirstStake 100000 [restampedSpend 1789171210]
        (firstStakeTip 100000 [restampedSpend 1789171210] connected) ∧
      replayBlocks sample (ChainType.main.consensus sample)
          (firstStakeFiles 100000 [restampedSpend 1789171210])
          (firstStakeLookup 100000 [restampedSpend 1789171210]) (fun _ _ _ => none)
          (untouchedDB (ChainTip.genesis sample .main)
            (firstStakeTip 100000 [restampedSpend 1789171210] connected)) = .ok after ∧
      (connected.view.lookup ((restampedSpend 1789171210).outPoint sample 0)).map Coin.nTime =
        some 1789171210 ∧
      (after.coins.lookup ((restampedSpend 1789171210).outPoint sample 0)).map Coin.nTime =
        some 0 := by
  obtain ⟨connected, hconnect⟩ := exists_of_restampedCoinTime restampedCoinTime_timed
  obtain ⟨hgenesis, hnonzero, hroot⟩ :
      (firstStakeIndex 100000 [restampedSpend 1789171210]).hashBlock ≠
          (ChainType.main.consensus sample).hashGenesisBlock ∧
        (firstStakeIndex 100000 [restampedSpend 1789171210]).hashBlock ≠ 0 ∧
        (ChainType.main.consensus sample).hashGenesisBlock ≠ 0 := by
    decide +kernel
  have hscene := interruptedFirstStake hconnect (by decide) hgenesis hnonzero hroot
  obtain ⟨after, hreplay, _, _, hlookup⟩ := replayBlocks_lookup hscene.flushes hscene.partly
    hscene.stored hscene.new_indexed (fun _ heq => hscene.old_indexed_of_eq heq)
    (fun _ _ _ => none)
  refine ⟨connected, after, hconnect, hscene, hreplay, ?_, ?_⟩
  · have htime := restampedCoinTime_timed
    rw [restampedCoinTime, hconnect] at htime
    simpa [Except.toOption, Option.bind_eq_some_iff] using htime
  · have hcoin : ((restampedSpend 1789171210).outPoint sample 0,
        (restampedSpend 1789171210).coinOf 1 ⟨1399999999900000, [0x51]⟩) ∈
          (restampedSpend 1789171210).newCoins sample 1 :=
      CTransaction.mem_newCoins 1 rfl (by decide)
    have hlast := @lastWrite_stored_of_split sample _ _ _
      ((firstStakeTransactions 100000 []).map fun tx => (tx, 1)) [] (by decide) hcoin
      (List.forall_mem_nil _)
    rw [hlookup, blockHistory_firstStake, hlast]
    rfl

end FirstStake

end FirstIslamicCoin
