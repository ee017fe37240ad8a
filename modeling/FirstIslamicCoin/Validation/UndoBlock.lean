import FirstIslamicCoin.Validation.Disconnect

/-!
# Undoing the transactions of a block

The loop of `DisconnectBlock` against the loop of `ConnectBlock`.  Transactions
that were applied one after the other, with the coins they spent, are undone
exactly when the record still holds these coins and, if premine coins are among
them, another premine coin is left to copy the metadata from.
-/

namespace FirstIslamicCoin

open Outcome

section Applied

/-- The outpoints a transaction spends: none for a coinbase. -/
def CTransaction.spentOutpoints (tx : CTransaction) : List COutPoint :=
  if tx.isCoinBase then [] else tx.prevouts

/-- The coins that a list of transactions spends, those of earlier ones of the
list included. -/
def CoinsView.spentCoins (env : External) (nHeight : ℤ) :
    CoinsView → List CTransaction → List Coin
  | _, [] => []
  | view, tx :: vtx => tx.spentOutpoints.filterMap view.lookup ++
      spentCoins env nHeight (view.applyTx env tx nHeight) vtx

theorem CTransaction.spentOutpoints_eq {tx : CTransaction} (hnot : tx.isCoinBase = false) :
    tx.spentOutpoints = tx.prevouts := by
  rw [spentOutpoints, hnot, if_neg Bool.false_ne_true]

theorem CoinsView.applyTx_eq (env : External) (view : CoinsView) (tx : CTransaction) (nHeight : ℤ) :
    view.applyTx env tx nHeight =
      (view.eraseAll tx.spentOutpoints).insertAll (tx.newCoins env nHeight) := by
  rw [applyTx, CTransaction.spentOutpoints]
  cases tx.isCoinBase <;> rfl

/-- Transactions applied to a view one after the other, with the coins they
spent. -/
inductive Applied (env : External) (nHeight : ℤ) :
    CoinsView → List (CTransaction × List Coin) → CoinsView → Prop
  | nil (view : CoinsView) : Applied env nHeight view [] view
  | cons {view after : CoinsView} {tx : CTransaction} {txundo : List Coin}
      {spends : List (CTransaction × List Coin)}
      (hnodup : tx.spentOutpoints.Nodup)
      (hcoins : tx.spentOutpoints.map view.lookup = txundo.map some)
      (hkeys : ((tx.newCoins env nHeight).map Prod.fst).Nodup)
      (hfresh : ∀ entry ∈ tx.newCoins env nHeight,
        (view.eraseAll tx.spentOutpoints).lookup entry.1 = none)
      (hrest : Applied env nHeight (view.applyTx env tx nHeight) spends after) :
      Applied env nHeight view ((tx, txundo) :: spends) after

variable {env : External} {network : ChainType} {nHeight : ℤ} {view after : CoinsView}
  {spends : List (CTransaction × List Coin)}

theorem filterMap_of_map_eq {α β : Type} {find : α → Option β} {keys : List α} {values : List β}
    (hvalues : keys.map find = values.map some) : keys.filterMap find = values := by
  have hid : (keys.map find).filterMap id = values := by
    rw [hvalues, List.filterMap_map]
    exact List.filterMap_some
  rwa [List.filterMap_map] at hid

theorem eq_some_of_mem_zip {α β : Type} {find : α → Option β} {keys : List α}
    {values : List β} (hvalues : keys.map find = values.map some) {pair : α × β}
    (hpair : pair ∈ keys.zip values) : find pair.1 = some pair.2 := by
  induction keys generalizing values with
  | nil => simp at hpair
  | cons key keys ih =>
    cases values with
    | nil => simp at hpair
    | cons value values =>
      rw [List.map_cons, List.map_cons, List.cons.injEq] at hvalues
      rw [List.zip_cons_cons, List.mem_cons] at hpair
      rcases hpair with rfl | htail
      · exact hvalues.1
      · exact ih hvalues.2 htail

theorem Applied.spentCoins_eq (happlied : Applied env nHeight view spends after) :
    view.spentCoins env nHeight (spends.map Prod.fst) = spends.flatMap Prod.snd := by
  induction happlied with
  | nil => rfl
  | cons _ hcoins _ _ _ ih =>
    rw [List.map_cons, CoinsView.spentCoins, filterMap_of_map_eq hcoins, ih, List.flatMap_cons]

/-- Every coin that a list of transactions creates is a regular one from above
the genesis block. -/
def CreatesRegular (env : External) (network : ChainType) (nHeight : ℤ)
    (vtx : List CTransaction) : Prop :=
  ∀ tx ∈ vtx, ∀ entry ∈ tx.newCoins env nHeight,
    Coin.Regular env network entry.1 entry.2 ∧ entry.2.nHeight ≠ 0

theorem CoinsView.allBound_applyTx {tx : CTransaction}
    (hview : view.AllBound (Coin.Regular env network)) (hnew : ∀ entry ∈ tx.newCoins env nHeight,
      Coin.Regular env network entry.1 entry.2 ∧ entry.2.nHeight ≠ 0) :
    (view.applyTx env tx nHeight).AllBound (Coin.Regular env network) := by
  rw [applyTx_eq]
  exact (hview.eraseAll _).insertAll fun entry hmem => (hnew entry hmem).1

section

variable (happlied : Applied env nHeight view spends after)

include happlied

theorem Applied.regular (hview : view.AllBound (Coin.Regular env network))
    (hnew : CreatesRegular env network nHeight (spends.map Prod.fst)) :
    after.AllBound (Coin.Regular env network) := by
  induction happlied with
  | nil => exact hview
  | cons _ _ _ _ _ ih =>
    obtain ⟨hhead, htail⟩ := List.forall_mem_cons.mp hnew
    exact ih (CoinsView.allBound_applyTx hview hhead) htail

/-- A transaction spends at most one coin per input, and regular ones. -/
theorem Applied.forall_mem_spent (hview : view.AllBound (Coin.Regular env network))
    (hnew : CreatesRegular env network nHeight (spends.map Prod.fst)) :
    ∀ entry ∈ spends, entry.2.length ≤ entry.1.vin.length ∧
      ∀ coin ∈ entry.2, ∃ outpoint, Coin.Regular env network outpoint coin := by
  induction happlied with
  | nil => exact List.forall_mem_nil _
  | @cons view after tx txundo spends _ hcoins _ _ _ ih =>
    obtain ⟨hhead, htail⟩ := List.forall_mem_cons.mp hnew
    refine List.forall_mem_cons.mpr ⟨⟨?_, ?_⟩, ih (CoinsView.allBound_applyTx hview hhead) htail⟩
    · have hlength := congrArg List.length hcoins
      rw [List.length_map, List.length_map] at hlength
      rw [← hlength, CTransaction.spentOutpoints]
      split_ifs
      · exact Nat.zero_le _
      · rw [CTransaction.prevouts, List.length_map]
    · intro coin hcoin
      have hsome : some coin ∈ tx.spentOutpoints.map view.lookup :=
        hcoins ▸ List.mem_map_of_mem hcoin
      obtain ⟨outpoint, _, hlookup⟩ := List.mem_map.mp hsome
      exact ⟨outpoint, hview outpoint coin hlookup⟩

/-- A coin that is left was there before and was not spent, or it was created. -/
theorem Applied.lookup_cases {outpoint : COutPoint} {coin : Coin}
    (hlookup : after.lookup outpoint = some coin) :
    view.lookup outpoint = some coin ∧
        outpoint ∉ (spends.map Prod.fst).flatMap CTransaction.spentOutpoints ∨
      ∃ tx ∈ spends.map Prod.fst, (outpoint, coin) ∈ tx.newCoins env nHeight := by
  induction happlied with
  | nil => exact .inl ⟨hlookup, List.not_mem_nil⟩
  | @cons view after tx txundo spends _ _ _ _ _ ih =>
    rw [List.map_cons, List.flatMap_cons, List.mem_append, not_or]
    rcases ih hlookup with ⟨hbefore, hfree⟩ | ⟨other, hother, hnew⟩
    · rw [CoinsView.applyTx_eq] at hbefore
      rcases FiniteMap.lookup_insertAll_cases hbefore with hkept | hnew
      · rw [FiniteMap.lookup_eraseAll] at hkept
        split_ifs at hkept with hspent
        exact .inl ⟨hkept, hspent, hfree⟩
      · exact .inr ⟨tx, List.mem_cons_self, hnew⟩
    · exact .inr ⟨other, List.mem_cons_of_mem _ hother, hnew⟩

/-- A premine coin that is spent was in the view from the start. -/
theorem Applied.exists_premine (hnew : CreatesRegular env network nHeight (spends.map Prod.fst))
    {coin : Coin} (hspent : coin ∈ spends.flatMap Prod.snd) (hzero : coin.nHeight = 0) :
    ∃ outpoint, view.lookup outpoint = some coin := by
  induction happlied with
  | nil => simp at hspent
  | @cons view after tx txundo spends _ hcoins _ _ _ ih =>
    obtain ⟨hhead, htail⟩ := List.forall_mem_cons.mp hnew
    rw [List.flatMap_cons, List.mem_append] at hspent
    rcases hspent with hfirst | hlater
    · have hsome : some coin ∈ txundo.map some := List.mem_map_of_mem hfirst
      rw [← hcoins] at hsome
      obtain ⟨outpoint, _, hlookup⟩ := List.mem_map.mp hsome
      exact ⟨outpoint, hlookup⟩
    · obtain ⟨outpoint, hlookup⟩ := ih htail hlater
      rcases CoinsView.lookup_applyTx_cases hlookup with hbefore | hcreated
      · exact ⟨outpoint, hbefore⟩
      · exact absurd hzero (hhead _ hcreated).2

end

theorem CoinsView.KeepsPremine.applyTx {tx : CTransaction} {outpoints : List COutPoint}
    (hkeeps : view.KeepsPremine (tx.spentOutpoints ++ outpoints))
    (hfresh : ∀ entry ∈ tx.newCoins env nHeight,
      (view.eraseAll tx.spentOutpoints).lookup entry.1 = none) :
    KeepsPremine (view.applyTx env tx nHeight) outpoints := by
  obtain ⟨donor, coin, hlookup, hzero, hfree⟩ := hkeeps
  rw [List.mem_append, not_or] at hfree
  have hkept : (view.eraseAll tx.spentOutpoints).lookup donor = some coin := by
    rw [FiniteMap.lookup_eraseAll, if_neg hfree.1, hlookup]
  have hnotMem : donor ∉ (tx.newCoins env nHeight).map Prod.fst := by
    intro hmem
    obtain ⟨entry, hentry, rfl⟩ := List.mem_map.mp hmem
    rw [hfresh entry hentry] at hkept
    exact Option.some_ne_none _ hkept.symm
  refine ⟨donor, coin, ?_, hzero, hfree.2⟩
  rw [applyTx_eq, FiniteMap.lookup_insertAll_of_notMem hnotMem, hkept]

end Applied

section Restored

variable {env : External} {network : ChainType} {nHeight : ℤ} {view after : CoinsView}
  {spends : List (CTransaction × List Coin)} {front : CBlockUndo}

/-- The transactions of a block after its coinbase, in the order in which
`DisconnectBlock` comes to them, when `front` holds the undo records of those
before them. -/
def undoOrder (front : CBlockUndo) (spends : List (CTransaction × List Coin)) :
    List (CTransaction × ℕ) :=
  ((spends.map Prod.fst).zipIdx (front.length + 1)).reverse

theorem undoOrder_cons (front : CBlockUndo) (tx : CTransaction) (txundo other : List Coin)
    (spends : List (CTransaction × List Coin)) :
    undoOrder front ((tx, txundo) :: spends) =
      undoOrder (front ++ [other]) spends ++ [(tx, front.length + 1)] := by
  rw [undoOrder, undoOrder, List.map_cons, List.zipIdx_cons, List.reverse_cons,
    List.length_append, List.length_singleton]

/-- One pass of `DisconnectBlock` at a transaction after the coinbase. -/
theorem disconnectTx_succ {tx : CTransaction} {txundo : List Coin} {later : CBlockUndo}
    {state : CoinsView × Bool} (hnot : tx.isCoinBase = false)
    (hlength : txundo.length = tx.spentOutpoints.length) :
    disconnectTx env nHeight (front ++ txundo :: later) state (tx, front.length + 1) =
      loop undoInput (undoOutputs env tx nHeight state) (tx.spentOutpoints.zip txundo).reverse := by
  have hfound : (front ++ txundo :: later)[front.length + 1 - 1]? = some txundo := by
    rw [Nat.add_sub_cancel, List.getElem?_append_right le_rfl, Nat.sub_self]
    rfl
  rw [CTransaction.spentOutpoints_eq hnot] at hlength ⊢
  simp only [disconnectTx, Nat.add_one_ne_zero, if_false, hfound, undoInputs, hlength,
    beq_self_eq_true, require_true, ok_bind]

/-- Disconnecting restores the view when the record is as it was written and a
premine coin is left for the premine coins that were spent. -/
theorem disconnectTxs_eq_ok {blockundo : CBlockUndo} {fClean : Bool}
    (happlied : Applied env nHeight view spends after) (hheight : 0 ≤ nHeight ∧ nHeight < 2 ^ 31)
    (hnot : ∀ entry ∈ spends, entry.1.isCoinBase = false)
    (hview : view.AllBound (Coin.Regular env network))
    (hnew : CreatesRegular env network nHeight (spends.map Prod.fst))
    (hkeeps : (∃ coin ∈ spends.flatMap Prod.snd, coin.nHeight = 0) →
      view.KeepsPremine ((spends.map Prod.fst).flatMap CTransaction.spentOutpoints))
    (hundo : blockundo = front ++ spends.map Prod.snd) :
    loop (disconnectTx env nHeight blockundo) (after, fClean) (undoOrder front spends) =
      .ok (view, fClean) := by
  induction happlied generalizing front with
  | nil => rfl
  | @cons view after tx txundo spends hnodup hcoins hkeys hfresh _ ih =>
    obtain ⟨hhead, htail⟩ := List.forall_mem_cons.mp hnew
    obtain ⟨hnotHead, hnotTail⟩ := List.forall_mem_cons.mp hnot
    have hlength : txundo.length = tx.spentOutpoints.length := by
      simpa using (congrArg List.length hcoins).symm
    have hkeepsRest : (∃ coin ∈ spends.flatMap Prod.snd, coin.nHeight = 0) →
        (view.applyTx env tx nHeight).KeepsPremine
          ((spends.map Prod.fst).flatMap CTransaction.spentOutpoints) := by
      rintro ⟨coin, hmem, hzero⟩
      exact CoinsView.KeepsPremine.applyTx
        (hkeeps ⟨coin, List.mem_append_right _ hmem, hzero⟩) hfresh
    have hkeepsHead : (∃ coin ∈ txundo, coin.nHeight = 0) →
        view.KeepsPremine tx.spentOutpoints := by
      rintro ⟨coin, hmem, hzero⟩
      obtain ⟨donor, other, hlookup, hother, hfree⟩ :=
        hkeeps ⟨coin, List.mem_append_left _ hmem, hzero⟩
      exact ⟨donor, other, hlookup, hother, fun hspent =>
        hfree (List.mem_append_left _ hspent)⟩
    have hrest := @ih (front ++ [txundo]) hnotTail
      (CoinsView.allBound_applyTx hview hhead) htail hkeepsRest
      (by rw [hundo, List.append_assoc]; rfl)
    have houts : undoOutputs env tx nHeight (view.applyTx env tx nHeight, fClean) =
        (view.eraseAll tx.spentOutpoints, fClean) := by
      rw [CoinsView.applyTx_eq]
      exact undoOutputs_insertAll hheight hkeys hfresh
    rw [undoOrder_cons front tx txundo txundo, loop_append, hrest, ok_bind, loop, hundo,
      List.map_cons, disconnectTx_succ hnotHead hlength, houts,
      undoInputs_eraseAll hview hnodup hcoins hkeepsHead]
    rfl

end Restored

section Recoded

variable {env : External} {network : ChainType} {nHeight : ℤ} {view after : CoinsView}
  {spends : List (CTransaction × List Coin)} {front : CBlockUndo}

/-- Two views that differ at most in the times of their coins. -/
def CoinsView.SameButTimes (view other : CoinsView) : Prop :=
  ∀ outpoint, (view.lookup outpoint).map Coin.untimed = (other.lookup outpoint).map Coin.untimed

variable {state : CoinsView × Bool}

/-- What a clean removal of outputs left determines what was there, apart from
times. -/
theorem sameButTimes_of_undoOutputs {tx : CTransaction} {base left : CoinsView}
    (hkeys : ((tx.newCoins env nHeight).map Prod.fst).Nodup)
    (hundo : undoOutputs env tx nHeight state = (left, true)) (hsame : left.SameButTimes base) :
    state.2 = true ∧
      state.1.SameButTimes (base.insertAll (tx.newCoins env nHeight)) := by
  obtain ⟨hclean, hleft, hfound⟩ := undoOutputs_clean hundo
  refine ⟨hclean, ?_⟩
  intro outpoint
  by_cases hmem : outpoint ∈ (tx.newCoins env nHeight).map Prod.fst
  · obtain ⟨entry, hentry, rfl⟩ := List.mem_map.mp hmem
    obtain ⟨coin, hlookup, huntimed⟩ := hfound entry hentry
    rw [hlookup, FiniteMap.lookup_insertAll_of_mem hkeys hentry, Option.map_some,
      Option.map_some, huntimed]
  · have hkept : state.1.lookup outpoint = left.lookup outpoint := by
      rw [hleft, FiniteMap.lookup_eraseAll]
      exact (if_neg hmem).symm
    rw [hkept, FiniteMap.lookup_insertAll_of_notMem hmem]
    exact hsame outpoint

theorem Coin.Regular.recoded_out {outpoint : COutPoint} {coin : Coin}
    (hcoin : coin.Regular env network outpoint) :
    coin.recoded.out = { coin.out with nValue := recodeAmount coin.out.nValue } := by
  rw [Coin.recoded_of_height_lt hcoin.height_lt]

theorem Coin.Regular.recoded_nHeight {outpoint : COutPoint} {coin : Coin}
    (hcoin : coin.Regular env network outpoint) : coin.recoded.nHeight = coin.nHeight := by
  rw [Coin.recoded_of_height_lt hcoin.height_lt]

theorem mem_zip_map {α β γ : Type} {convert : β → γ} {keys : List α} {values : List β}
    {pair : α × γ} :
    pair ∈ keys.zip (values.map convert) ↔
      ∃ entry ∈ keys.zip values, (entry.1, convert entry.2) = pair := by
  rw [List.zip_map_right, List.mem_map]
  rfl

theorem kept_of_undoInputs {outpoints : List COutPoint} {coins : List Coin} {final : CoinsView}
    (hview : view.AllBound (Coin.Regular env network))
    (hcoins : outpoints.map view.lookup = coins.map some)
    (hundo : loop undoInput state (outpoints.zip (coins.map Coin.recoded)).reverse =
      .ok (final, true)) (hsame : final.SameButTimes view) :
    state.2 = true ∧ state.1.SameButTimes (view.eraseAll outpoints) ∧
      ∀ coin ∈ coins, AmountKept coin.out.nValue := by
  have hregular : ∀ pair ∈ outpoints.zip coins, Coin.Regular env network pair.1 pair.2 :=
    fun pair hpair => hview pair.1 pair.2 (eq_some_of_mem_zip hcoins hpair)
  have hlength : coins.length = outpoints.length := by
    simpa using (congrArg List.length hcoins).symm
  have hspendable : ∀ pair ∈ outpoints.zip (coins.map Coin.recoded),
      pair.2.out.scriptPubKey.isUnspendable = false := by
    intro pair hpair
    obtain ⟨entry, hentry, rfl⟩ := mem_zip_map.mp hpair
    dsimp only
    rw [(hregular entry hentry).recoded_out]
    exact (hregular entry hentry).spendable
  obtain ⟨hclean, hput, hkept⟩ := undoInputs_clean hspendable hundo
  have hkeys : (outpoints.zip (coins.map Coin.recoded)).map Prod.fst = outpoints :=
    List.map_fst_zip (by rw [List.length_map, hlength])
  refine ⟨hclean, ?_, ?_⟩
  · intro outpoint
    rw [FiniteMap.lookup_eraseAll]
    by_cases hmem : outpoint ∈ outpoints
    · rw [if_pos hmem]
      rw [← hkeys] at hmem
      obtain ⟨pair, hpair, rfl⟩ := List.mem_map.mp hmem
      rw [(hput pair hpair).1]
    · rw [if_neg hmem, ← hsame outpoint, hkept outpoint (by rwa [hkeys])]
  · intro coin hmem
    have hvalues : (outpoints.zip coins).map Prod.snd = coins := List.map_snd_zip hlength.le
    rw [← hvalues] at hmem
    obtain ⟨pair, hpair, rfl⟩ := List.mem_map.mp hmem
    have hrecoded : (pair.1, pair.2.recoded) ∈ outpoints.zip (coins.map Coin.recoded) :=
      mem_zip_map.mpr ⟨pair, hpair, rfl⟩
    obtain ⟨_, found, hfound, hout⟩ := hput _ hrecoded
    have hagree := hsame pair.1
    rw [hfound, eq_some_of_mem_zip hcoins hpair, Option.map_some, Option.map_some,
      Option.some.injEq] at hagree
    have hsameOut : found.untimed.out = pair.2.untimed.out := congrArg Coin.out hagree
    change found.out = pair.2.out at hsameOut
    rw [hout, (hregular pair hpair).recoded_out] at hsameOut
    exact (recodeAmount_eq_iff (hregular pair hpair).value_nonneg).mp
      (congrArg CTxOut.nValue hsameOut)

/-- Undoing with a recoded record ends with the first transaction. -/
theorem exists_disconnectTxs_recoded {blockundo : CBlockUndo} {final : CoinsView × Bool}
    {tx : CTransaction} {txundo : List Coin} (hnot : tx.isCoinBase = false)
    (hcoins : tx.spentOutpoints.map view.lookup = txundo.map some)
    (hundo : blockundo = front ++ ((tx, txundo) :: spends).map fun entry =>
      entry.2.map Coin.recoded)
    (hloop : loop (disconnectTx env nHeight blockundo) state
      (undoOrder front ((tx, txundo) :: spends)) = .ok final) :
    ∃ middle, blockundo = front ++ [txundo.map Coin.recoded] ++
        (spends.map fun entry => entry.2.map Coin.recoded) ∧
      loop (disconnectTx env nHeight blockundo) state
        (undoOrder (front ++ [txundo.map Coin.recoded]) spends) = .ok middle ∧
      loop undoInput (undoOutputs env tx nHeight middle)
        (tx.spentOutpoints.zip (txundo.map Coin.recoded)).reverse = .ok final := by
  have hlength : (txundo.map Coin.recoded).length = tx.spentOutpoints.length := by
    rw [List.length_map]
    simpa using (congrArg List.length hcoins).symm
  rw [undoOrder_cons front tx txundo (txundo.map Coin.recoded), loop_append, bind_eq_ok] at hloop
  obtain ⟨middle, hothers, hlast⟩ := hloop
  obtain ⟨next, hstep, hnext⟩ := loop_cons_eq_ok.mp hlast
  obtain rfl : next = final := by simpa using hnext
  refine ⟨middle, by rw [hundo, List.append_assoc]; rfl, hothers, ?_⟩
  rwa [hundo, List.map_cons, disconnectTx_succ hnot hlength] at hstep

/-- If the recoded record leads back to the view, every amount in it survives
recoding. -/
theorem kept_of_disconnectTxs {blockundo : CBlockUndo} {final : CoinsView}
    (happlied : Applied env nHeight view spends after)
    (hnot : ∀ entry ∈ spends, entry.1.isCoinBase = false)
    (hview : view.AllBound (Coin.Regular env network))
    (hnew : CreatesRegular env network nHeight (spends.map Prod.fst))
    (hundo : blockundo = front ++ spends.map fun entry => entry.2.map Coin.recoded)
    (hloop : loop (disconnectTx env nHeight blockundo) state (undoOrder front spends) =
      .ok (final, true)) (hsame : final.SameButTimes view) :
    ∀ coin ∈ spends.flatMap Prod.snd, AmountKept coin.out.nValue := by
  induction happlied generalizing front final with
  | nil => simp
  | @cons view after tx txundo spends hnodup hcoins hkeys hfresh _ ih =>
    obtain ⟨hhead, htail⟩ := List.forall_mem_cons.mp hnew
    obtain ⟨hnotHead, hnotTail⟩ := List.forall_mem_cons.mp hnot
    obtain ⟨⟨middle, fClean⟩, hrecord, hothers, hstep⟩ :=
      exists_disconnectTxs_recoded hnotHead hcoins hundo hloop
    obtain ⟨hclean, hleft, hkept⟩ := kept_of_undoInputs hview hcoins hstep hsame
    obtain ⟨hcleanMiddle, hmiddle⟩ := sameButTimes_of_undoOutputs hkeys (Prod.ext rfl hclean) hleft
    dsimp only at hcleanMiddle hmiddle
    rw [← CoinsView.applyTx_eq] at hmiddle
    rw [hcleanMiddle] at hothers
    have hrest := ih hnotTail (CoinsView.allBound_applyTx hview hhead) htail hrecord hothers hmiddle
    intro coin hmem
    rw [List.flatMap_cons, List.mem_append] at hmem
    rcases hmem with hfirst | hlater
    · exact hkept coin hfirst
    · exact hrest coin hlater

end Recoded

section Premine

variable {env : External} {network : ChainType} {nHeight : ℤ} {view after : CoinsView}
  {spends : List (CTransaction × List Coin)} {front : CBlockUndo}

/-- No coin has the id of the genesis coinbase. -/
def CoinsView.PremineFree (env : External) (network : ChainType) (view : CoinsView) :
    Prop :=
  view.AllBound fun outpoint _ => outpoint.hash ≠ network.genesisTx.getHash env

theorem undoOutputs_premineFree {tx : CTransaction} {state : CoinsView × Bool}
    (hstate : state.1.PremineFree env network) :
    (undoOutputs env tx nHeight state).1.PremineFree env network := by
  rw [undoOutputs]
  induction tx.vout.zipIdx generalizing state with
  | nil => exact hstate
  | cons entry entries ih =>
    refine ih ?_
    rw [undoOutput]
    split_ifs
    · exact hstate
    · cases state.1.lookup (tx.outPoint env entry.2) with
      | none => exact hstate
      | some coin => exact FiniteMap.AllBound.erase hstate _

/-- In a view without premine coins no premine coin can be put back. -/
theorem undoInput_premineFree {state next : CoinsView × Bool} {entry : COutPoint × Coin}
    (hcoin : entry.2.Regular env network entry.1) (hstate : state.1.PremineFree env network)
    (hundo : undoInput state (entry.1, entry.2.recoded) = .ok next) :
    next.1.PremineFree env network := by
  have hspendable : entry.2.recoded.out.scriptPubKey.isUnspendable = false := by
    rw [hcoin.recoded_out]
    exact hcoin.spendable
  obtain ⟨⟨coin, hnext, _⟩, hdonor, _⟩ :=
    @undoInput_eq_ok state next (entry.1, entry.2.recoded) hspendable hundo
  have hhash : entry.1.hash ≠ network.genesisTx.getHash env := by
    intro heq
    have hzero := hcoin.genesis_iff.mpr heq
    rw [← hcoin.recoded_nHeight] at hzero
    obtain ⟨n, alternate, hlookup⟩ := hdonor hzero
    exact hstate _ alternate hlookup heq
  intro outpoint found hlookup
  rw [hnext, FiniteMap.lookup_insert] at hlookup
  split_ifs at hlookup with heq
  · rw [heq]
    exact hhash
  · exact hstate outpoint found hlookup

theorem disconnectTxs_premineFree {blockundo : CBlockUndo} {state final : CoinsView × Bool}
    (happlied : Applied env nHeight view spends after)
    (hnot : ∀ entry ∈ spends, entry.1.isCoinBase = false)
    (hview : view.AllBound (Coin.Regular env network))
    (hnew : CreatesRegular env network nHeight (spends.map Prod.fst))
    (hundo : blockundo = front ++ spends.map fun entry => entry.2.map Coin.recoded)
    (hstate : state.1.PremineFree env network)
    (hloop : loop (disconnectTx env nHeight blockundo) state (undoOrder front spends) = .ok final) :
    final.1.PremineFree env network := by
  induction happlied generalizing front final with
  | nil =>
    obtain rfl : state = final := by simpa [undoOrder] using hloop
    exact hstate
  | @cons view after tx txundo spends _ hcoins _ _ _ ih =>
    obtain ⟨hhead, htail⟩ := List.forall_mem_cons.mp hnew
    obtain ⟨hnotHead, hnotTail⟩ := List.forall_mem_cons.mp hnot
    obtain ⟨middle, hrecord, hothers, hstep⟩ :=
      exists_disconnectTxs_recoded hnotHead hcoins hundo hloop
    have hmiddle := ih hnotTail (CoinsView.allBound_applyTx hview hhead) htail hrecord hothers
    refine loop_invariant (fun current => current.1.PremineFree env network) ?_
      (undoOutputs_premineFree hmiddle) hstep
    intro pair hpair current following hcurrent hinput
    obtain ⟨entry, hentry, rfl⟩ := mem_zip_map.mp (List.mem_reverse.mp hpair)
    exact undoInput_premineFree (hview _ _ (eq_some_of_mem_zip hcoins hentry)) hcurrent hinput

end Premine

end FirstIslamicCoin
