import FirstIslamicCoin.Consensus.Params
import FirstIslamicCoin.Core.FiniteMap

/-!
# The UTXO set

`coins.h` and `coins.cpp`, with the cache layers folded into one finite map
from outpoints to unspent coins, and `UpdateCoins`, which applies one
transaction.  The main facts are that applying a transaction is erasing what it
spends and inserting its spendable outputs, and what that does to the total.
-/

namespace FirstIslamicCoin

open Outcome

/-- An unspent output with the data that spending rules read. -/
structure Coin where
  out : CTxOut
  fCoinBase : Bool
  fCoinStake : Bool
  nHeight : BitVec 31
  nTime : UInt32
  deriving DecidableEq, Repr

namespace Coin

def height (coin : Coin) : ℤ := coin.nHeight.toNat

def value (coin : Coin) : ℤ := coin.out.value

end Coin

abbrev CoinsView := FiniteMap COutPoint Coin

namespace CoinsView

variable {Result : Type}

noncomputable def totalValue (view : CoinsView) : ℤ :=
  FiniteMap.total Coin.value view

def haveCoin (view : CoinsView) (outpoint : COutPoint) : Bool :=
  (view.lookup outpoint).isSome

def haveInputs (view : CoinsView) (tx : CTransaction) : Bool :=
  tx.isCoinBase || tx.prevouts.all view.haveCoin

def addCoin (view : CoinsView) (outpoint : COutPoint) (coin : Coin)
    (possibleOverwrite : Bool) : Except (Failure Result) CoinsView := do
  require (!coin.out.isNull) .aborted
  if coin.out.scriptPubKey.isUnspendable then .ok view
  else do
    require (possibleOverwrite || !view.haveCoin outpoint)
      (.thrown "Attempted to overwrite an unspent coin (when possible_overwrite is false)")
    .ok (view.insert outpoint coin)

end CoinsView

namespace CTransaction

def coinOf (tx : CTransaction) (nHeight : ℤ) (out : CTxOut) : Coin where
  out := out
  fCoinBase := tx.isCoinBase
  fCoinStake := tx.isCoinStake
  nHeight := BitVec.ofInt 31 nHeight
  nTime := tx.nTime

def outPoint (env : External) (tx : CTransaction) (index : ℕ) : COutPoint :=
  ⟨tx.getHash env, UInt32.ofNat index⟩

/-- The spendable ones of some numbered outputs, with the coins they become. -/
def coinsOf (env : External) (tx : CTransaction) (nHeight : ℤ)
    (entries : List (CTxOut × ℕ)) : List (COutPoint × Coin) :=
  (entries.filter fun entry => !entry.1.scriptPubKey.isUnspendable).map
    fun entry => (tx.outPoint env entry.2, tx.coinOf nHeight entry.1)

/-- The outputs that enter the UTXO set, with the coins they become. -/
def newCoins (env : External) (tx : CTransaction) (nHeight : ℤ) :
    List (COutPoint × Coin) :=
  tx.coinsOf env nHeight tx.vout.zipIdx

def spendableOut (tx : CTransaction) : ℤ :=
  ((tx.vout.filter fun out => !out.scriptPubKey.isUnspendable).map
    CTxOut.value).sum

def droppedOut (tx : CTransaction) : ℤ :=
  ((tx.vout.filter fun out => out.scriptPubKey.isUnspendable).map
    CTxOut.value).sum

theorem totalOut_eq (tx : CTransaction) :
    tx.totalOut = tx.spendableOut + tx.droppedOut := by
  rw [totalOut, spendableOut, droppedOut]
  induction tx.vout with
  | nil => rfl
  | cons out outs ih =>
    cases hdrop : out.scriptPubKey.isUnspendable <;>
      simp [hdrop, ih] <;> ring

variable {tx : CTransaction} {env : External}

theorem droppedOut_nonneg (hnonneg : ∀ out ∈ tx.vout, 0 ≤ out.value) : 0 ≤ tx.droppedOut := by
  apply List.sum_nonneg
  intro value hmem
  obtain ⟨out, hout, rfl⟩ := List.mem_map.mp hmem
  exact hnonneg out (List.mem_of_mem_filter hout)

theorem coinsOf_cons (env : External) (tx : CTransaction) (nHeight : ℤ)
    (entry : CTxOut × ℕ) (entries : List (CTxOut × ℕ)) :
    tx.coinsOf env nHeight (entry :: entries) =
      if entry.1.scriptPubKey.isUnspendable then tx.coinsOf env nHeight entries
      else (tx.outPoint env entry.2, tx.coinOf nHeight entry.1) ::
        tx.coinsOf env nHeight entries := by
  cases hdrop : entry.1.scriptPubKey.isUnspendable <;> simp [coinsOf, hdrop]

/-- Every new coin is an output of the transaction. -/
theorem exists_of_mem_newCoins {nHeight : ℤ} {entry : COutPoint × Coin}
    (hmem : entry ∈ tx.newCoins env nHeight) :
    ∃ out index, tx.vout[index]? = some out ∧
      out.scriptPubKey.isUnspendable = false ∧
      entry = (tx.outPoint env index, tx.coinOf nHeight out) := by
  simp only [newCoins, coinsOf, List.mem_map, List.mem_filter] at hmem
  obtain ⟨⟨out, index⟩, ⟨hzip, hspendable⟩, rfl⟩ := hmem
  refine ⟨out, index, ?_, by simpa using hspendable, rfl⟩
  simpa [List.mem_zipIdx_iff_getElem?] using hzip

theorem hash_of_mem_newCoins {nHeight : ℤ} {entry : COutPoint × Coin}
    (hentry : entry ∈ tx.newCoins env nHeight) : entry.1.hash = tx.getHash env := by
  obtain ⟨_, _, _, _, rfl⟩ := exists_of_mem_newCoins hentry
  rfl

theorem mem_newCoins (nHeight : ℤ) {out : CTxOut} {position : ℕ}
    (hout : tx.vout[position]? = some out) (hspendable : out.scriptPubKey.isUnspendable = false) :
    (tx.outPoint env position, tx.coinOf nHeight out) ∈ tx.newCoins env nHeight := by
  simp only [newCoins, coinsOf, List.mem_map, List.mem_filter]
  refine ⟨(out, position), ⟨?_, by simpa using hspendable⟩, rfl⟩
  exact List.mem_zipIdx_iff_getElem?.mpr hout

theorem outPoint_injective {left right : ℕ} (hleft : left < 2 ^ 32) (hright : right < 2 ^ 32)
    (heq : tx.outPoint env left = tx.outPoint env right) : left = right := by
  have hindex : UInt32.ofNat left = UInt32.ofNat right := by
    simpa only [outPoint, COutPoint.mk.injEq, true_and] using heq
  have hnat := congrArg UInt32.toNat hindex
  simp only [UInt32.toNat_ofNat'] at hnat
  omega

/-- The outputs of a transaction that fits in memory have distinct
outpoints. -/
theorem nodup_newCoins {nHeight : ℤ} (hlength : tx.vout.length ≤ 2 ^ 32) :
    ((tx.newCoins env nHeight).map Prod.fst).Nodup := by
  have hsublist : ((tx.vout.zipIdx.filter fun entry =>
      !entry.1.scriptPubKey.isUnspendable).map Prod.snd).Nodup := by
    apply List.Nodup.sublist (List.filter_sublist.map Prod.snd)
    rw [List.zipIdx_map_snd]
    exact List.nodup_range'
  rw [newCoins, coinsOf, List.map_map]
  rw [List.Nodup, List.pairwise_map] at hsublist ⊢
  refine hsublist.imp_of_mem ?_
  intro left right hleft hright hne heq
  have hbound : ∀ entry ∈ tx.vout.zipIdx.filter fun entry =>
      !entry.1.scriptPubKey.isUnspendable, entry.2 < 2 ^ 32 := by
    intro entry hmem
    have hzip := List.mem_zipIdx_iff_getElem?.mp (List.mem_filter.mp hmem).1
    obtain ⟨hlt, _⟩ := List.getElem?_eq_some_iff.mp hzip
    omega
  exact hne (outPoint_injective (hbound left hleft) (hbound right hright) heq)

theorem sum_newCoins (env : External) (tx : CTransaction) (nHeight : ℤ) :
    ((tx.newCoins env nHeight).map fun entry => entry.2.value).sum = tx.spendableOut := by
  rw [newCoins, coinsOf, spendableOut, List.map_map]
  have hout : tx.vout = tx.vout.zipIdx.map Prod.fst := by
    rw [List.zipIdx_map_fst]
  conv_rhs => rw [hout, List.filter_map, List.map_map]
  rfl

end CTransaction

namespace CoinsView

variable {Result : Type}

/-- `AddCoins` with its default `check_for_overwrite = false`. -/
def addCoins (env : External) (view : CoinsView) (tx : CTransaction)
    (nHeight : ℤ) : Except (Failure Result) CoinsView :=
  loop (fun current (entry : CTxOut × ℕ) =>
      current.addCoin (tx.outPoint env entry.2) (tx.coinOf nHeight entry.1)
        tx.isCoinBase)
    view tx.vout.zipIdx

/-- Spend outpoints in order, collecting the coins that were there. -/
def spendCoins (view : CoinsView) :
    List COutPoint → Except (Failure Result) (CoinsView × List Coin)
  | [] => .ok (view, [])
  | outpoint :: outpoints =>
      match view.lookup outpoint with
      | none => .error .aborted
      | some coin => do
          let (spent, coins) ← spendCoins (view.erase outpoint) outpoints
          .ok (spent, coin :: coins)

/-- The first half of `UpdateCoins`: a coinbase spends nothing. -/
def spendInputs (view : CoinsView) (tx : CTransaction) :
    Except (Failure Result) (CoinsView × List Coin) :=
  if tx.isCoinBase then .ok (view, []) else view.spendCoins tx.prevouts

/-- `UpdateCoins`: the view after the transaction and its undo record. -/
def updateCoins (env : External) (view : CoinsView) (tx : CTransaction)
    (nHeight : ℤ) : Except (Failure Result) (CoinsView × List Coin) := do
  let (spent, txundo) ← view.spendInputs tx
  let updated ← spent.addCoins env tx nHeight
  .ok (updated, txundo)

/-- `GetValueIn`: an unguarded sum. -/
def getValueIn (mode : Overflow) (view : CoinsView) (tx : CTransaction) :
    Except (Failure Result) CAmount :=
  if tx.isCoinBase then .ok 0
  else loop (fun nResult outpoint =>
      mode.add .overflowed nResult (((view.lookup outpoint).map fun coin =>
        coin.out.nValue).getD (-1))) 0 tx.prevouts

def maxOutputsPerBlock : ℕ := 4000000 / 36

/-- `AccessByTxid`: the first unspent output of a transaction. -/
def accessByTxid (view : CoinsView) (txid : UInt256) : Option Coin :=
  (List.range maxOutputsPerBlock).findSome? fun n =>
    view.lookup ⟨txid, UInt32.ofNat n⟩

def valueIn (view : CoinsView) (tx : CTransaction) : ℤ :=
  (tx.prevouts.map (FiniteMap.weightAt Coin.value view)).sum

section Effect

variable {env : External} {view : CoinsView} {tx : CTransaction} {nHeight : ℤ}

variable {outpoint : COutPoint} {after : CoinsView} {txundo : List Coin}

theorem haveCoin_eq_false :
    view.haveCoin outpoint = false ↔ view.lookup outpoint = none := by
  simp [haveCoin]

/-- Spending succeeds exactly on distinct present outpoints, returns their
coins, and erases them. -/
theorem spendCoins_eq_ok {outpoints : List COutPoint} {spent : CoinsView} {coins : List Coin} :
    (view.spendCoins outpoints : Except (Failure Result) _) = .ok (spent, coins) ↔
      outpoints.Nodup ∧ outpoints.map view.lookup = coins.map some ∧
        spent = view.eraseAll outpoints := by
  induction outpoints generalizing view coins with
  | nil =>
    simp only [spendCoins, Except.ok.injEq, Prod.mk.injEq, List.nodup_nil,
      List.map_nil, FiniteMap.eraseAll_nil, true_and]
    constructor
    · rintro ⟨rfl, rfl⟩
      exact ⟨rfl, rfl⟩
    · rintro ⟨hcoins, rfl⟩
      exact ⟨rfl, (List.map_eq_nil_iff.mp hcoins.symm).symm⟩
  | cons outpoint outpoints ih =>
    rw [spendCoins]
    cases hlookup : view.lookup outpoint with
    | none =>
      cases coins <;> simp [hlookup]
    | some coin =>
      simp only [bind_eq_ok]
      constructor
      · rintro ⟨⟨rest, others⟩, hrest, heq⟩
        obtain ⟨rfl, rfl⟩ : rest = spent ∧ coin :: others = coins := by
          simpa using heq
        obtain ⟨hnodup, hlookups, hspent⟩ := ih.mp hrest
        have hnotMem : outpoint ∉ outpoints := by
          intro hmem
          have hnone : (view.erase outpoint).lookup outpoint ∈ others.map some :=
            hlookups ▸ List.mem_map_of_mem hmem
          simp at hnone
        refine ⟨List.nodup_cons.mpr ⟨hnotMem, hnodup⟩, ?_, hspent⟩
        rw [List.map_cons, List.map_cons, hlookup, ← hlookups,
          FiniteMap.map_lookup_erase hnotMem]
      · rintro ⟨hnodup, hlookups, hspent⟩
        obtain ⟨hnotMem, hrestNodup⟩ := List.nodup_cons.mp hnodup
        cases coins with
        | nil => simp at hlookups
        | cons first others =>
          rw [List.map_cons, List.map_cons, List.cons.injEq, hlookup,
            Option.some.injEq] at hlookups
          obtain ⟨rfl, hothers⟩ := hlookups
          rw [← FiniteMap.map_lookup_erase hnotMem] at hothers
          exact ⟨(spent, others), ih.mpr ⟨hrestNodup, hothers, hspent⟩, rfl⟩

theorem addCoin_eq_ok {coin : Coin} {possibleOverwrite : Bool}
    (hadd : (view.addCoin outpoint coin possibleOverwrite :
      Except (Failure Result) CoinsView) = .ok after) :
    coin.out.isNull = false ∧
      after = (if coin.out.scriptPubKey.isUnspendable then view else view.insert outpoint coin) ∧
      (coin.out.scriptPubKey.isUnspendable = false → possibleOverwrite = false →
        view.lookup outpoint = none) := by
  rw [addCoin, require_bind_eq_ok] at hadd
  obtain ⟨hnull, hadd⟩ := hadd
  refine ⟨by simpa using hnull, ?_⟩
  split_ifs at hadd ⊢ with hdrop
  · refine ⟨by simpa using hadd.symm, ?_⟩
    intro hfalse
    rw [hdrop] at hfalse
    exact Bool.noConfusion hfalse
  · rw [require_bind_eq_ok, Except.ok.injEq] at hadd
    refine ⟨hadd.2.symm, ?_⟩
    intro _ hoverwrite
    have hfree := hadd.1
    rw [hoverwrite, Bool.false_or, Bool.not_eq_true'] at hfree
    exact haveCoin_eq_false.mp hfree

/-- Adding outputs inserts the spendable ones; outside a coinbase their
outpoints were free and distinct. -/
theorem addCoins_eq_ok_of_entries {entries : List (CTxOut × ℕ)}
    (hrun : loop (fun (current : CoinsView) (entry : CTxOut × ℕ) =>
        (current.addCoin (tx.outPoint env entry.2) (tx.coinOf nHeight entry.1)
          tx.isCoinBase : Except (Failure Result) CoinsView))
      view entries = .ok after) :
    after = view.insertAll (tx.coinsOf env nHeight entries) ∧
      (tx.isCoinBase = false →
        ((tx.coinsOf env nHeight entries).map Prod.fst).Nodup ∧
        ∀ entry ∈ tx.coinsOf env nHeight entries,
          view.lookup entry.1 = none) := by
  induction entries generalizing view with
  | nil =>
    obtain rfl : view = after := by simpa using hrun
    simp [CTransaction.coinsOf]
  | cons entry entries ih =>
    obtain ⟨next, hadd, hrest⟩ := loop_cons_eq_ok.mp hrun
    obtain ⟨_, hnext, hfree⟩ := addCoin_eq_ok hadd
    obtain ⟨hafter, hfresh⟩ := ih hrest
    rw [CTransaction.coinsOf_cons]
    cases hdrop : entry.1.scriptPubKey.isUnspendable with
    | true =>
      rw [show (tx.coinOf nHeight entry.1).out = entry.1 from rfl, hdrop, if_pos rfl] at hnext
      subst hnext
      exact ⟨hafter, hfresh⟩
    | false =>
      have hspendable :
          (tx.coinOf nHeight entry.1).out.scriptPubKey.isUnspendable = false :=
        hdrop
      rw [hspendable] at hnext
      simp only [Bool.false_eq_true, if_false] at hnext ⊢
      subst hnext
      refine ⟨hafter, ?_⟩
      intro hnot
      obtain ⟨hnodup, hnone⟩ := hfresh hnot
      have hnotMem : tx.outPoint env entry.2 ∉ (tx.coinsOf env nHeight entries).map Prod.fst := by
        intro hmem
        obtain ⟨other, hother, heq⟩ := List.mem_map.mp hmem
        have hbound := hnone other hother
        rw [heq, FiniteMap.lookup_insert_self] at hbound
        exact Option.some_ne_none _ hbound
      refine ⟨List.nodup_cons.mpr ⟨hnotMem, hnodup⟩, ?_⟩
      intro other hmem
      rcases List.mem_cons.mp hmem with rfl | htail
      · exact hfree hspendable hnot
      · have hne : other.1 ≠ tx.outPoint env entry.2 := fun heq =>
          hnotMem (heq ▸ List.mem_map_of_mem htail)
        rw [← FiniteMap.lookup_insert_of_ne view (tx.coinOf nHeight entry.1) hne]
        exact hnone other htail

/-- A coinbase may overwrite, so adding its outputs never fails. -/
theorem addCoins_of_isCoinBase (hcoinbase : tx.isCoinBase = true)
    (hnull : ∀ out ∈ tx.vout, out.isNull = false) :
    (view.addCoins env tx nHeight : Except (Failure Result) CoinsView) =
      .ok (view.insertAll (tx.newCoins env nHeight)) := by
  have hentries : ∀ entry ∈ tx.vout.zipIdx, entry.1.isNull = false := fun entry hmem =>
    hnull entry.1 (List.fst_mem_of_mem_zipIdx hmem)
  rw [addCoins, CTransaction.newCoins, hcoinbase]
  generalize tx.vout.zipIdx = entries at hentries
  induction entries generalizing view with
  | nil => rfl
  | cons entry entries ih =>
    obtain ⟨hhead, htail⟩ := List.forall_mem_cons.mp hentries
    have hadd : (view.addCoin (tx.outPoint env entry.2) (tx.coinOf nHeight entry.1)
        true : Except (Failure Result) CoinsView) =
        .ok (if entry.1.scriptPubKey.isUnspendable then view
          else view.insert (tx.outPoint env entry.2) (tx.coinOf nHeight entry.1)) := by
      cases hdrop : entry.1.scriptPubKey.isUnspendable <;>
        simp [addCoin, CTransaction.coinOf, hhead, hdrop]
    rw [loop, hadd, ok_bind, ih htail, CTransaction.coinsOf_cons]
    cases entry.1.scriptPubKey.isUnspendable <;> rfl

/-- Free and distinct outpoints take the outputs of any transaction. -/
theorem addCoins_of_fresh (hnull : ∀ out ∈ tx.vout, out.isNull = false)
    (hkeys : ((tx.newCoins env nHeight).map Prod.fst).Nodup)
    (hfresh : ∀ entry ∈ tx.newCoins env nHeight, view.lookup entry.1 = none) :
    (view.addCoins env tx nHeight : Except (Failure Result) CoinsView) =
      .ok (view.insertAll (tx.newCoins env nHeight)) := by
  have hentries : ∀ entry ∈ tx.vout.zipIdx, entry.1.isNull = false := fun entry hmem =>
    hnull entry.1 (List.fst_mem_of_mem_zipIdx hmem)
  rw [addCoins]
  rw [CTransaction.newCoins] at hkeys hfresh ⊢
  generalize tx.vout.zipIdx = entries at hentries hkeys hfresh
  induction entries generalizing view with
  | nil => rfl
  | cons entry entries ih =>
    obtain ⟨hhead, htail⟩ := List.forall_mem_cons.mp hentries
    rw [CTransaction.coinsOf_cons] at hkeys hfresh ⊢
    cases hdrop : entry.1.scriptPubKey.isUnspendable with
    | true =>
      have hadd : (view.addCoin (tx.outPoint env entry.2) (tx.coinOf nHeight entry.1)
          tx.isCoinBase : Except (Failure Result) CoinsView) = .ok view := by
        simp [addCoin, CTransaction.coinOf, hhead, hdrop]
      simp only [hdrop, if_true] at hkeys hfresh ⊢
      rw [loop, hadd, ok_bind, ih htail hkeys hfresh]
    | false =>
      simp only [hdrop, Bool.false_eq_true, if_false, List.map_cons, List.nodup_cons,
        List.forall_mem_cons] at hkeys hfresh ⊢
      have hadd : (view.addCoin (tx.outPoint env entry.2) (tx.coinOf nHeight entry.1)
          tx.isCoinBase : Except (Failure Result) CoinsView) =
            .ok (view.insert (tx.outPoint env entry.2) (tx.coinOf nHeight entry.1)) := by
        simp [addCoin, haveCoin, CTransaction.coinOf, hhead, hdrop, hfresh.1]
      rw [loop, hadd, ok_bind, ih htail hkeys.2, FiniteMap.insertAll_cons]
      intro other hother
      have hne : other.1 ≠ tx.outPoint env entry.2 := fun heq =>
        hkeys.1 (heq ▸ List.mem_map_of_mem hother)
      rw [FiniteMap.lookup_insert_of_ne _ _ hne, hfresh.2 other hother]

def applyTx (env : External) (view : CoinsView) (tx : CTransaction)
    (nHeight : ℤ) : CoinsView :=
  (if tx.isCoinBase then view else view.eraseAll tx.prevouts).insertAll
    (tx.newCoins env nHeight)

theorem updateCoins_of_isCoinBase (hcoinbase : tx.isCoinBase = true)
    (hnull : ∀ out ∈ tx.vout, out.isNull = false) :
    (view.updateCoins env tx nHeight : Except (Failure Result) _) =
      .ok (view.applyTx env tx nHeight, []) := by
  have hadd : (view.addCoins env tx nHeight : Except (Failure Result) CoinsView) = _ :=
    addCoins_of_isCoinBase hcoinbase hnull
  simp only [updateCoins, spendInputs, hcoinbase, if_true, ok_bind, hadd, applyTx]

theorem updateCoins_eq_ok (hupdate : (view.updateCoins env tx nHeight : Except (Failure Result) _) =
      .ok (after, txundo)) : after = view.applyTx env tx nHeight := by
  simp only [updateCoins, bind_eq_ok] at hupdate
  obtain ⟨⟨spent, coins⟩, hspend, updated, hadd, heq⟩ := hupdate
  obtain ⟨rfl, rfl⟩ : updated = after ∧ coins = txundo := by simpa using heq
  rw [(addCoins_eq_ok_of_entries hadd).1, applyTx, CTransaction.newCoins]
  cases hcoinbase : tx.isCoinBase with
  | true =>
    obtain ⟨rfl, rfl⟩ : view = spent ∧ [] = coins := by
      simpa [spendInputs, hcoinbase] using hspend
    rfl
  | false =>
    simp only [spendInputs, hcoinbase, Bool.false_eq_true, if_false] at hspend
    rw [(spendCoins_eq_ok.mp hspend).2.2]
    rfl

/-- A transaction other than a coinbase spends distinct coins of the view,
records them in order, and creates outputs at distinct free outpoints. -/
theorem updateCoins_spends (hnot : tx.isCoinBase = false)
    (hupdate : (view.updateCoins env tx nHeight : Except (Failure Result) _) =
      .ok (after, txundo)) :
    tx.prevouts.Nodup ∧ tx.prevouts.map view.lookup = txundo.map some ∧
      ((tx.newCoins env nHeight).map Prod.fst).Nodup ∧
      ∀ entry ∈ tx.newCoins env nHeight,
        (view.eraseAll tx.prevouts).lookup entry.1 = none := by
  simp only [updateCoins, bind_eq_ok] at hupdate
  obtain ⟨⟨spent, coins⟩, hspend, updated, hadd, heq⟩ := hupdate
  obtain ⟨rfl, rfl⟩ : updated = after ∧ coins = txundo := by simpa using heq
  simp only [spendInputs, hnot, Bool.false_eq_true, if_false] at hspend
  obtain ⟨hnodup, hlookups, hspent⟩ := spendCoins_eq_ok.mp hspend
  obtain ⟨hkeys, hfresh⟩ := (addCoins_eq_ok_of_entries hadd).2 hnot
  rw [hspent] at hfresh
  exact ⟨hnodup, hlookups, hkeys, hfresh⟩

/-- The total moves by what the transaction takes and by what it puts back. -/
theorem totalValue_updateCoins (hnot : tx.isCoinBase = false)
    (hupdate : (view.updateCoins env tx nHeight : Except (Failure Result) _) =
      .ok (after, txundo)) :
    after.totalValue = view.totalValue - view.valueIn tx + tx.spendableOut := by
  obtain ⟨hnodup, hlookups, hkeys, hfresh⟩ := updateCoins_spends hnot hupdate
  have hbound : ∀ outpoint ∈ tx.prevouts, view.lookup outpoint ≠ none := by
    intro outpoint hmem hnone
    have hin : view.lookup outpoint ∈ txundo.map some := hlookups ▸ List.mem_map_of_mem hmem
    simp [hnone] at hin
  rw [updateCoins_eq_ok hupdate, applyTx, hnot, totalValue, totalValue]
  simp only [Bool.false_eq_true, if_false]
  rw [FiniteMap.total_insertAll Coin.value hkeys hfresh,
    FiniteMap.total_eraseAll Coin.value hnodup hbound, CTransaction.sum_newCoins, valueIn]

/-- A coinbase whose outpoints are free adds its spendable outputs. -/
theorem totalValue_updateCoins_coinbase (hcoinbase : tx.isCoinBase = true)
    (hlength : tx.vout.length ≤ 2 ^ 32)
    (hfresh : ∀ entry ∈ tx.newCoins env nHeight, view.lookup entry.1 = none)
    (hupdate : (view.updateCoins env tx nHeight : Except (Failure Result) _) =
      .ok (after, txundo)) :
    after.totalValue = view.totalValue + tx.spendableOut := by
  rw [updateCoins_eq_ok hupdate, applyTx, hcoinbase, totalValue, totalValue]
  simp only [if_true]
  rw [FiniteMap.total_insertAll Coin.value (CTransaction.nodup_newCoins hlength)
    hfresh, CTransaction.sum_newCoins]

/-- A coin of the updated view was in the view before or is an output of the
transaction. -/
theorem lookup_applyTx_cases {coin : Coin}
    (hlookup : (view.applyTx env tx nHeight).lookup outpoint = some coin) :
    view.lookup outpoint = some coin ∨
      (outpoint, coin) ∈ tx.newCoins env nHeight := by
  rcases FiniteMap.lookup_insertAll_cases hlookup with hbefore | hnew
  · left
    split_ifs at hbefore with hcoinbase
    · exact hbefore
    · rw [FiniteMap.lookup_eraseAll] at hbefore
      split_ifs at hbefore
      exact hbefore
  · exact .inr hnew

end Effect

end CoinsView

end FirstIslamicCoin
