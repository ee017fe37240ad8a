import FirstIslamicCoin.Validation.Replay
import FirstIslamicCoin.Validation.UndoBlock
import FirstIslamicCoin.Validation.WireBytes

/-!
# What recovery restores

A chain of blocks is a list of writes to single outpoints, and what it leaves at an
outpoint is the last of them.  Rolling the same writes forward over a database that
already holds some of their effects therefore ends in the same coins, whatever the
database held, except for what the block files and the coins database do not keep:
the timestamp of a transaction of version 2 or more, an amount that does not survive
compression and a height of 2^30 or more.
-/

namespace FirstIslamicCoin

open Outcome WriteBack

section History

variable {env : External}

/-- What a transaction writes: it removes what it spends and then adds its coins. -/
def CTransaction.changes (env : External) (tx : CTransaction) (nHeight : ℤ) :
    List (COutPoint × Option Coin) :=
  tx.spentOutpoints.map (fun outpoint => (outpoint, none)) ++
    (tx.newCoins env nHeight).map fun entry => (entry.1, some entry.2)

/-- What transactions at given heights write. -/
def historyChanges (env : External) (history : List (CTransaction × ℤ)) :
    List (COutPoint × Option Coin) :=
  history.flatMap fun entry => entry.1.changes env entry.2

/-- The transactions of blocks that follow each other, with their heights. -/
def blockHistory (nHeight : ℤ) : List CBlock → List (CTransaction × ℤ)
  | [] => []
  | block :: blocks =>
      block.vtx.map (fun tx => (tx, nHeight)) ++ blockHistory (nHeight + 1) blocks

theorem eraseAll_eq_writeAll (view : CoinsView) (outpoints : List COutPoint) :
    view.eraseAll outpoints = writeAll view (outpoints.map fun outpoint => (outpoint, none)) := by
  induction outpoints generalizing view with
  | nil => rfl
  | cons outpoint outpoints ih => exact ih (view.erase outpoint)

theorem insertAll_eq_writeAll (view : CoinsView) (entries : List (COutPoint × Coin)) :
    view.insertAll entries = writeAll view (entries.map fun entry => (entry.1, some entry.2)) := by
  induction entries generalizing view with
  | nil => rfl
  | cons entry entries ih => exact ih (view.insert entry.1 entry.2)

theorem applyTx_eq_writeAll (view : CoinsView) (tx : CTransaction) (nHeight : ℤ) :
    view.applyTx env tx nHeight = writeAll view (tx.changes env nHeight) := by
  rw [CoinsView.applyTx_eq, CTransaction.changes, writeAll_append, eraseAll_eq_writeAll,
    insertAll_eq_writeAll]

theorem applyAll_eq_writeAll (view : CoinsView) (vtx : List CTransaction) (nHeight : ℤ) :
    view.applyAll env nHeight vtx =
      writeAll view (historyChanges env (vtx.map fun tx => (tx, nHeight))) := by
  induction vtx generalizing view with
  | nil => rfl
  | cons tx vtx ih =>
    have hfirst : view.applyAll env nHeight (tx :: vtx) =
        (view.applyTx env tx nHeight).applyAll env nHeight vtx := rfl
    rw [hfirst, ih, applyTx_eq_writeAll, ← writeAll_append]
    rfl

theorem historyChanges_append (first second : List (CTransaction × ℤ)) :
    historyChanges env (first ++ second) = historyChanges env first ++ historyChanges env second :=
  List.flatMap_append

theorem blockHistory_append (nHeight : ℤ) (first second : List CBlock) :
    blockHistory nHeight (first ++ second) =
      blockHistory nHeight first ++ blockHistory (nHeight + first.length) second := by
  induction first generalizing nHeight with
  | nil => rw [List.nil_append, List.length_nil, Nat.cast_zero, add_zero, blockHistory,
      List.nil_append]
  | cons block first ih =>
    rw [List.cons_append, blockHistory, ih, blockHistory, List.append_assoc, List.length_cons,
      Nat.cast_add, Nat.cast_one, add_right_comm, add_assoc]

/-- Every output created in a history that nothing later in it touches comes back from
the block files and the coins database as it was. -/
def ReplayKeeps (env : External) (history : List (CTransaction × ℤ)) : Prop :=
  ∀ before tx nHeight after, history = before ++ (tx, nHeight) :: after →
    ∀ entry ∈ tx.newCoins env nHeight,
      (∀ change ∈ historyChanges env after, change.1 ≠ entry.1) →
        entry.2.Storable ∧ (tx.nVersion < 2 ∨ tx.nTime = 0)

/-- The outputs of a history are not negative, and no transaction has more of them than
an outpoint can number. -/
def CreatesCoins (history : List (CTransaction × ℤ)) : Prop :=
  ∀ entry ∈ history, entry.1.vout.length ≤ 2 ^ 32 ∧ ∀ out ∈ entry.1.vout, 0 ≤ out.value

/-- A history as the block files give it back. -/
def storedHistory (history : List (CTransaction × ℤ)) : List (CTransaction × ℤ) :=
  history.map fun entry => (entry.1.wireForm true, entry.2)

def storedCoin (tx : CTransaction) (coin : Coin) : Coin :=
  { coin with nTime := (tx.wireForm true).nTime }

theorem sameWire_wireForm (tx : CTransaction) : SameWire tx (tx.wireForm true) := by
  refine ⟨(tx.wireForm true).nTime, ?_, fun hversion => ?_⟩
  · rw [CTransaction.wireForm, map_wireForm_true]
  · rw [CTransaction.wireForm, if_pos hversion]

theorem newCoins_wireForm (tx : CTransaction) (nHeight : ℤ) :
    (tx.wireForm true).newCoins env nHeight =
      (tx.newCoins env nHeight).map fun entry => (entry.1, storedCoin tx entry.2) := by
  have hsame := sameWire_wireForm tx
  have hcoin : ∀ out, (tx.wireForm true).coinOf nHeight out =
      storedCoin tx (tx.coinOf nHeight out) := by
    intro out
    obtain ⟨nTime, heq, _⟩ := hsame
    rw [storedCoin, heq]
    rfl
  simp only [CTransaction.newCoins, CTransaction.coinsOf, List.map_map, hsame.vout_eq]
  refine List.map_congr_left fun entry _ => ?_
  rw [Function.comp_apply, hsame.outPoint_eq, hcoin]

theorem changes_wireForm (tx : CTransaction) (nHeight : ℤ) :
    (tx.wireForm true).changes env nHeight =
      (tx.changes env nHeight).map fun change => (change.1, change.2.map (storedCoin tx)) := by
  have hsame := sameWire_wireForm tx
  have hspent : (tx.wireForm true).spentOutpoints = tx.spentOutpoints := by
    rw [CTransaction.spentOutpoints, CTransaction.spentOutpoints, hsame.isCoinBase_eq,
      hsame.prevouts_eq]
  rw [CTransaction.changes, CTransaction.changes, hspent, newCoins_wireForm, List.map_append,
    List.map_map, List.map_map, List.map_map]
  rfl

variable {tx : CTransaction} {nHeight : ℤ} {entry : COutPoint × Coin}

/-- Coins are created by outputs, so they are written as such. -/
theorem mem_newCoins_of_mem_changes {outpoint : COutPoint} {coin : Coin}
    (hmem : (outpoint, some coin) ∈ tx.changes env nHeight) :
    (outpoint, coin) ∈ tx.newCoins env nHeight := by
  rcases List.mem_append.mp hmem with hspent | hnew
  · obtain ⟨_, _, heq⟩ := List.mem_map.mp hspent
    exact absurd (Prod.mk.inj heq).2 nofun
  · obtain ⟨entry, hentry, heq⟩ := List.mem_map.mp hnew
    obtain ⟨rfl, hcoin⟩ := Prod.mk.inj heq
    rwa [← Option.some.inj hcoin]

theorem lastWrite_stored_cases (outpoint : COutPoint) (history : List (CTransaction × ℤ)) :
    (lastWrite outpoint (historyChanges env history) = none ∧
      lastWrite outpoint (historyChanges env (storedHistory history)) = none) ∨
    (lastWrite outpoint (historyChanges env history) = some none ∧
      lastWrite outpoint (historyChanges env (storedHistory history)) = some none) ∨
    ∃ before tx nHeight after coin, history = before ++ (tx, nHeight) :: after ∧
      (outpoint, coin) ∈ tx.newCoins env nHeight ∧
      (∀ change ∈ historyChanges env after, change.1 ≠ outpoint) ∧
      lastWrite outpoint (historyChanges env history) = some (some coin) ∧
      lastWrite outpoint (historyChanges env (storedHistory history)) =
        some (some (storedCoin tx coin)) := by
  induction history with
  | nil => exact .inl ⟨rfl, rfl⟩
  | cons entry history ih =>
    obtain ⟨tx, nHeight⟩ := entry
    have hwrites : lastWrite outpoint (historyChanges env ((tx, nHeight) :: history)) =
        (lastWrite outpoint (historyChanges env history)).or
          (lastWrite outpoint (tx.changes env nHeight)) :=
      lastWrite_append outpoint (tx.changes env nHeight) (historyChanges env history)
    have hstored : lastWrite outpoint
        (historyChanges env (storedHistory ((tx, nHeight) :: history))) =
          (lastWrite outpoint (historyChanges env (storedHistory history))).or
            ((lastWrite outpoint (tx.changes env nHeight)).map (Option.map (storedCoin tx))) := by
      rw [← lastWrite_map, ← changes_wireForm]
      exact lastWrite_append outpoint ((tx.wireForm true).changes env nHeight)
        (historyChanges env (storedHistory history))
    rw [hwrites, hstored]
    rcases ih with ⟨hnone, hnoneStored⟩ | ⟨hspent, hspentStored⟩ |
      ⟨before, creator, height, after, coin, rfl, hcoin, hlater, hlast, hlastStored⟩
    · rw [hnone, hnoneStored, Option.none_or, Option.none_or]
      cases htx : lastWrite outpoint (tx.changes env nHeight) with
      | none => exact .inl ⟨rfl, rfl⟩
      | some value =>
        cases value with
        | none => exact .inr (.inl ⟨rfl, rfl⟩)
        | some coin =>
          exact .inr (.inr ⟨[], tx, nHeight, history, coin, rfl,
            mem_newCoins_of_mem_changes (mem_of_lastWrite htx),
            lastWrite_eq_none_iff.mp hnone, rfl, rfl⟩)
    · rw [hspent, hspentStored]
      exact .inr (.inl ⟨rfl, rfl⟩)
    · rw [hlast, hlastStored]
      exact .inr (.inr ⟨(tx, nHeight) :: before, creator, height, after, coin, rfl, hcoin,
        hlater, rfl, rfl⟩)

/-- A coin that nothing later touches is the last write to its outpoint. -/
theorem lastWrite_of_split {before after : List (CTransaction × ℤ)}
    (hlength : tx.vout.length ≤ 2 ^ 32) (hentry : entry ∈ tx.newCoins env nHeight)
    (hlater : ∀ change ∈ historyChanges env after, change.1 ≠ entry.1) :
    lastWrite entry.1 (historyChanges env (before ++ (tx, nHeight) :: after)) =
      some (some entry.2) := by
  have hnodup : (((tx.newCoins env nHeight).map fun entry =>
      (entry.1, some entry.2)).map Prod.fst).Nodup := by
    rw [List.map_map]
    exact CTransaction.nodup_newCoins hlength
  have hown : lastWrite entry.1 ((tx.newCoins env nHeight).map fun entry =>
      (entry.1, some entry.2)) = some (some entry.2) :=
    lastWrite_of_mem hnodup (List.mem_map.mpr ⟨entry, hentry, rfl⟩)
  have hsplit : historyChanges env (before ++ (tx, nHeight) :: after) =
      historyChanges env before ++ (tx.changes env nHeight ++ historyChanges env after) := by
    rw [historyChanges_append]
    rfl
  rw [hsplit, lastWrite_append, lastWrite_append, lastWrite_eq_none_iff.mpr hlater,
    Option.none_or, CTransaction.changes, lastWrite_append, hown, Option.some_or, Option.some_or]

theorem lastWrite_stored_of_split {before after : List (CTransaction × ℤ)}
    (hlength : tx.vout.length ≤ 2 ^ 32) (hentry : entry ∈ tx.newCoins env nHeight)
    (hlater : ∀ change ∈ historyChanges env after, change.1 ≠ entry.1) :
    lastWrite entry.1 (historyChanges env (storedHistory (before ++ (tx, nHeight) :: after))) =
      some (some (storedCoin tx entry.2)) := by
  have hlaterStored : ∀ change ∈ historyChanges env (storedHistory after),
      change.1 ≠ entry.1 := by
    rw [← lastWrite_eq_none_iff] at hlater ⊢
    rcases lastWrite_stored_cases entry.1 after with
      ⟨_, hnone⟩ | ⟨hspent, _⟩ | ⟨_, _, _, _, _, _, _, _, hlast, _⟩
    · exact hnone
    · rw [hlater] at hspent
      exact absurd hspent nofun
    · rw [hlater] at hlast
      exact absurd hlast nofun
  have hstored : (entry.1, storedCoin tx entry.2) ∈ (tx.wireForm true).newCoins env nHeight := by
    rw [newCoins_wireForm]
    exact List.mem_map.mpr ⟨entry, hentry, rfl⟩
  have hvout : (tx.wireForm true).vout.length ≤ 2 ^ 32 := hlength
  have hsplit : storedHistory (before ++ (tx, nHeight) :: after) =
      storedHistory before ++ (tx.wireForm true, nHeight) :: storedHistory after := by
    rw [storedHistory, List.map_append]
    rfl
  rw [hsplit]
  exact lastWrite_of_split hvout hstored hlaterStored

/-- A coin comes back from the block files and the database exactly if it is storable
and its transaction's timestamp is kept. -/
theorem recoded_storedCoin_eq_iff (hentry : entry ∈ tx.newCoins env nHeight)
    (hvalues : ∀ out ∈ tx.vout, 0 ≤ out.value) :
    (storedCoin tx entry.2).recoded = entry.2 ↔
      entry.2.Storable ∧ (tx.nVersion < 2 ∨ tx.nTime = 0) := by
  obtain ⟨out, position, hout, _, rfl⟩ := CTransaction.exists_of_mem_newCoins hentry
  have hvalue : 0 ≤ (tx.coinOf nHeight out).value := hvalues out (List.mem_of_getElem? hout)
  have hstamp : (tx.wireForm true).nTime = tx.nTime ↔ tx.nVersion < 2 ∨ tx.nTime = 0 := by
    rw [CTransaction.wireForm]
    split_ifs with hversion
    · simp [hversion]
    · simp [hversion, eq_comm]
  have hsame : (tx.wireForm true).nTime = tx.nTime →
      storedCoin tx (tx.coinOf nHeight out) = tx.coinOf nHeight out := by
    intro htime
    rw [storedCoin, htime]
    rfl
  rw [← hstamp, Coin.Storable, ← Coin.recoded_eq_iff hvalue]
  constructor
  · intro heq
    have htime : (tx.wireForm true).nTime = tx.nTime := congrArg (fun coin : Coin => coin.nTime) heq
    exact ⟨by rwa [hsame htime] at heq, htime⟩
  · rintro ⟨hrecoded, htime⟩
    rwa [hsame htime]

theorem stored_eq_iff {old coins : CoinsView} {history : List (CTransaction × ℤ)}
    (hcreates : CreatesCoins history)
    (hheld : ∀ outpoint, coins.lookup outpoint = old.lookup outpoint ∨
      coins.lookup outpoint = (writeAll old (historyChanges env history)).lookup outpoint) :
    (∀ outpoint, ((lastWrite outpoint (historyChanges env (storedHistory history))).map
        (Option.map Coin.recoded)).getD (coins.lookup outpoint) =
          (writeAll old (historyChanges env history)).lookup outpoint) ↔
      ReplayKeeps env history := by
  constructor
  · rintro hall before tx nHeight after rfl entry hentry hlater
    obtain ⟨hlength, hvalues⟩ := hcreates (tx, nHeight) (by simp)
    have hmemory : lastWrite entry.1 (historyChanges env (before ++ (tx, nHeight) :: after)) =
        some (some entry.2) := lastWrite_of_split hlength hentry hlater
    have hdisk : lastWrite entry.1
        (historyChanges env (storedHistory (before ++ (tx, nHeight) :: after))) =
          some (some (storedCoin tx entry.2)) :=
      lastWrite_stored_of_split hlength hentry hlater
    have hat := hall entry.1
    rw [lookup_writeAll, hmemory, hdisk] at hat
    exact (recoded_storedCoin_eq_iff hentry hvalues).mp (Option.some.inj hat)
  · intro hkeeps outpoint
    rw [lookup_writeAll]
    rcases @lastWrite_stored_cases env outpoint history with
      ⟨hnone, hnoneStored⟩ | ⟨hspent, hspentStored⟩ |
        ⟨before, tx, nHeight, after, coin, hsplit, hcoin, hlater, hlast, hlastStored⟩
    · -- an outpoint that the history does not touch has one value throughout
      rw [hnone, hnoneStored, Option.map_none, Option.getD_none, Option.getD_none]
      rcases hheld outpoint with hold | hnew
      · exact hold
      · rw [hnew, lookup_writeAll, hnone, Option.getD_none]
    · rw [hspent, hspentStored]
      rfl
    · rw [hlast, hlastStored]
      have hvalues := (hcreates (tx, nHeight) (by simp [hsplit])).2
      exact congrArg some ((recoded_storedCoin_eq_iff hcoin hvalues).mpr
        (hkeeps before tx nHeight after hsplit _ hcoin hlater))

end History

section Cache

open CCoinsViewCache

variable {env : External} {db : CCoinsViewDB} {cache : CCoinsViewCache}
  {changes : List (COutPoint × Option Coin)} {outpoint : COutPoint}

/-- Whether a flush would write the outpoint. -/
def CCoinsViewCache.pending (cache : CCoinsViewCache) (outpoint : COutPoint) : Bool :=
  (cache.cacheCoins.lookup outpoint).any Entry.dirty

theorem pending_store (cache : CCoinsViewCache) (outpoint other : COutPoint)
    (entry : CCoinsCacheEntry) :
    (cache.store outpoint entry).pending other =
      if other = outpoint then entry.dirty else cache.pending other := by
  rw [pending, store]
  split_ifs with heq
  · rw [heq, AList.lookup_insert]
    rfl
  · rw [AList.lookup_insert_ne heq, pending]

theorem pending_drop_of_ne {other : COutPoint} (hne : other ≠ outpoint) :
    (cache.drop outpoint).pending other = cache.pending other := by
  rw [pending, drop, AList.lookup_erase_ne hne, pending]

/-- Fetching makes nothing pending. -/
theorem fetchCoin_pending (found : Option Coin) :
    (cache.fetchCoin outpoint [] (found, [])).2.2 = [] ∧
      ∀ other, (cache.fetchCoin outpoint [] (found, [])).2.1.pending other =
        cache.pending other := by
  cases hlookup : cache.cacheCoins.lookup outpoint with
  | some it =>
    rw [fetchCoin_of_some hlookup]
    exact ⟨rfl, fun _ => rfl⟩
  | none =>
    cases found with
    | none =>
      rw [fetchCoin_of_none hlookup]
      exact ⟨rfl, fun _ => rfl⟩
    | some tmp =>
      rw [fetchCoin_of_found hlookup]
      refine ⟨rfl, fun other => ?_⟩
      rw [pending_store]
      split_ifs with heq
      · rw [heq, pending, hlookup]
        rfl
      · rfl

/-- The unspent coins of a database. -/
def CCoinsViewDB.contents (db : CCoinsViewDB) : CoinsView := settled Coin.isSpent db.coins

theorem CCoinsViewDB.finds_view : CCoinsViewDB.view.Finds CCoinsViewDB.contents :=
  fun _ _ => rfl

/-- A cache over a database after some writes: it shows their effect, and what a flush
would write are outpoints they wrote, among them all that they left a coin at. -/
structure Replaying (db : CCoinsViewDB) (changes : List (COutPoint × Option Coin))
    (cache : CCoinsViewCache) : Prop where
  sound : WriteBack.Sound Coin.isSpent cache.cacheCoins db.contents
  shown_eq : overlay Coin.isSpent cache.cacheCoins db.contents = writeAll db.contents changes
  clean : ∀ outpoint, lastWrite outpoint changes = none → cache.pending outpoint = false
  dirty : ∀ outpoint coin, lastWrite outpoint changes = some (some coin) →
    cache.pending outpoint = true

theorem Replaying.start (db : CCoinsViewDB) (hashBlock : UInt256) :
    Replaying db [] ⟨∅, hashBlock⟩ where
  sound := sound_empty _
  shown_eq := overlay_empty _
  clean := fun _ _ => rfl
  dirty := nofun

namespace Replaying

section

variable (hreplaying : Replaying db changes cache)

include hreplaying

/-- One more write, for what is pending. -/
theorem snoc {after : CCoinsViewCache} {value : Option Coin}
    (hsound : WriteBack.Sound Coin.isSpent after.cacheCoins db.contents)
    (hshown : overlay Coin.isSpent after.cacheCoins db.contents =
      write (overlay Coin.isSpent cache.cacheCoins db.contents) outpoint value)
    (hothers : ∀ other, other ≠ outpoint → after.pending other = cache.pending other)
    (hown : ∀ coin, value = some coin → after.pending outpoint = true) :
    Replaying db (changes ++ [(outpoint, value)]) after := by
  have hlast : ∀ other, lastWrite other (changes ++ [(outpoint, value)]) =
      if other = outpoint then some value else lastWrite other changes := by
    intro other
    rw [lastWrite_append]
    by_cases heq : other = outpoint
    · simp [lastWrite, heq]
    · simp [lastWrite, heq]
  refine ⟨hsound, ?_, ?_, ?_⟩
  · rw [hshown, hreplaying.shown_eq, writeAll_append]
    rfl
  · intro other hnone
    rw [hlast] at hnone
    split_ifs at hnone with heq
    rw [hothers other heq]
    exact hreplaying.clean other hnone
  · intro other coin hsome
    rw [hlast] at hsome
    split_ifs at hsome with heq
    · rw [heq]
      exact hown coin (Option.some.inj hsome)
    · rw [hothers other heq]
      exact hreplaying.dirty other coin hsome

/-- `FetchCoin` keeps what is shown and what is pending. -/
theorem fetch (outpoint : COutPoint) :
    ∃ it top, cache.fetchCoin outpoint [] (getCoin CCoinsViewDB.view db outpoint []) =
        (it, top, []) ∧
      Replaying db changes top ∧ top.cacheCoins.lookup outpoint = it ∧
      (writeAll db.contents changes).lookup outpoint =
        it.bind fun entry => live Coin.isSpent entry.value := by
  have hfetched := fetched_of_sound outpoint CCoinsViewDB.finds_view
    (show SoundLayers db.contents [cache] from ⟨hreplaying.sound, trivial⟩)
  obtain ⟨hrest, hpending⟩ := @fetchCoin_pending cache outpoint (db.coins.lookup outpoint)
  have hbelow : getCoin CCoinsViewDB.view db outpoint [] = (db.coins.lookup outpoint, []) := rfl
  rw [hbelow] at hfetched ⊢
  generalize cache.fetchCoin outpoint [] (db.coins.lookup outpoint, []) = fetched
    at hfetched hrest hpending
  obtain ⟨it, top, rest⟩ := fetched
  obtain rfl : rest = [] := hrest
  have hshown : overlay Coin.isSpent top.cacheCoins db.contents =
      overlay Coin.isSpent cache.cacheCoins db.contents :=
    (List.cons.inj hfetched.shownAll_eq).1
  refine ⟨it, top, rfl, ⟨hfetched.sound.1, hshown.trans hreplaying.shown_eq, ?_, ?_⟩,
    hfetched.lookup_eq, ?_⟩
  · intro other hnone
    rw [hpending other]
    exact hreplaying.clean other hnone
  · intro other coin hsome
    rw [hpending other]
    exact hreplaying.dirty other coin hsome
  · rw [← hreplaying.shown_eq]
    exact hfetched.shown_eq

theorem haveCoin (outpoint : COutPoint) :
    ∃ top, CoinsStack.perform CCoinsViewDB.view ⟨[cache], db⟩ 0 (.haveCoin outpoint) =
        .ok (.present (CoinsView.haveCoin (writeAll db.contents changes) outpoint), ⟨[top], db⟩) ∧
      Replaying db changes top := by
  obtain ⟨it, top, hfetch, htop, _, hshown⟩ := hreplaying.fetch outpoint
  refine ⟨top, ?_, htop⟩
  simp only [CoinsStack.perform, CoinsStack.operateAt, CoinsStack.operate,
    CCoinsViewCache.haveCoin, hfetch, ok_bind, any_unspent_eq, CoinsView.haveCoin, hshown]

theorem spendCoin (outpoint : COutPoint) :
    ∃ answer top, CoinsStack.perform CCoinsViewDB.view ⟨[cache], db⟩ 0 (.spendCoin outpoint) =
        .ok (answer, ⟨[top], db⟩) ∧
      Replaying db (changes ++ [(outpoint, none)]) top := by
  obtain ⟨it, top, hfetch, htop, hlookup, hshown⟩ := hreplaying.fetch outpoint
  cases it with
  | none =>
    refine ⟨.moved none, top, ?_, htop.snoc htop.sound ?_ (fun _ _ => rfl) nofun⟩
    · simp only [CoinsStack.perform, CoinsStack.operateAt, CoinsStack.operate,
        CCoinsViewCache.spendCoin, hfetch, ok_bind]
    · have hkeep := write_lookup_self (overlay Coin.isSpent top.cacheCoins db.contents) outpoint
      rw [htop.shown_eq, hshown] at hkeep
      rw [htop.shown_eq]
      exact hkeep.symm
  | some it =>
    obtain ⟨hsound, hspent⟩ := spent_entry htop.sound hlookup
    refine ⟨.moved (some it.value), _, ?_, htop.snoc hsound hspent ?_ nofun⟩
    · simp only [CoinsStack.perform, CoinsStack.operateAt, CoinsStack.operate,
        CCoinsViewCache.spendCoin, hfetch, ok_bind]
    · intro other hne
      split_ifs
      · exact pending_drop_of_ne hne
      · rw [pending_store, if_neg hne]

/-- `AddCoin`, told the truth about what is there. -/
theorem addCoin (outpoint : COutPoint) {coin : Coin} (hunspent : coin.isSpent = false) :
    ∃ top, CoinsStack.perform CCoinsViewDB.view ⟨[cache], db⟩ 0
          (.addCoin outpoint coin (CoinsView.haveCoin (writeAll db.contents changes) outpoint)) =
        .ok (.done, ⟨[top], db⟩) ∧
      Replaying db (if coin.out.scriptPubKey.isUnspendable then changes
        else changes ++ [(outpoint, some coin)]) top := by
  have hallowed : (CoinsOp.addCoin outpoint coin
      (CoinsView.haveCoin (writeAll db.contents changes) outpoint)).Allowed
        (overlay Coin.isSpent cache.cacheCoins db.contents) := by
    refine ⟨hunspent, ?_⟩
    rw [hreplaying.shown_eq]
    cases hhave : CoinsView.haveCoin (writeAll db.contents changes) outpoint with
    | true => exact .inl rfl
    | false => exact .inr (.inr (CoinsView.haveCoin_eq_false.mp hhave))
  obtain ⟨added, hadded, hsound, hshown, _⟩ := addCoin_eq_ok_of_allowed hreplaying.sound hallowed
  refine ⟨added, ?_, ?_⟩
  · simp only [CoinsStack.perform, CoinsStack.operateAt, CoinsStack.operate, hadded, ok_bind]
  · rw [CCoinsViewCache.addCoin, hunspent, Bool.not_false, require_true, ok_bind] at hadded
    cases hdrop : coin.out.scriptPubKey.isUnspendable with
    | true =>
      rw [hdrop, if_pos rfl, Except.ok.injEq] at hadded
      rwa [if_pos rfl, ← hadded]
    | false =>
      rw [hdrop, if_neg Bool.false_ne_true] at hadded
      rw [if_neg Bool.false_ne_true]
      obtain ⟨fresh, rfl⟩ : ∃ fresh, cache.store outpoint ⟨coin, true, fresh⟩ = added := by
        dsimp only at hadded
        split_ifs at hadded
        · exact ⟨_, Except.ok.inj hadded⟩
        · obtain ⟨_, _, hstored⟩ := bind_eq_ok.mp hadded
          exact ⟨_, Except.ok.inj hstored⟩
      refine hreplaying.snoc hsound ?_ ?_ ?_
      · rw [hshown]
        simp only [CoinsOp.update, CoinsOp.change, hdrop, Bool.false_eq_true, if_false,
          Option.elim]
      · intro other hne
        rw [pending_store, if_neg hne]
      · intro _ _
        rw [pending_store, if_pos rfl]

end

end Replaying

end Cache

end FirstIslamicCoin
