import FirstIslamicCoin.Core.KeyPaging

/-!
# Reading the history of an address

`address_history` asks the watching wallet for its newest entries of the address, always from
the newest one on, keeps one for each transaction, drops those at or above `before_height` and
sorts the rest by height, unconfirmed ones last.  A client that follows the pages downwards
sees no more than that window of entries, and none of the transactions at the height where a
page ended that the page did not hold.
-/

namespace FirstIslamicCoin.StakingService

open KeyPaging

variable {Txid : Type} [DecidableEq Txid]

/-- An entry of `listtransactions`: the transaction and its `blockheight`, if it has one. -/
structure HistoryEntry (Txid : Type) where
  txid : Txid
  height : Option ℤ
  deriving DecidableEq, Repr

structure HistoryPage (Txid : Type) where
  transactions : List (HistoryEntry Txid)
  hasMore : Bool
  deriving DecidableEq, Repr

/-- `listtransactions` of the wallet, whose entries for the address are given newest first:
the newest `count` of them, oldest first. -/
def listTransactions (entries : List (HistoryEntry Txid)) (count : ℕ) :
    List (HistoryEntry Txid) :=
  (entries.take count).reverse

def isSkipped (beforeHeight : Option ℤ) (entry : HistoryEntry Txid) : Bool :=
  match beforeHeight, entry.height with
  | some bound, some height => bound ≤ height
  | _, _ => false

/-- The loop over the entries; a transaction counts as seen even if it is skipped. -/
def collectUnseen (beforeHeight : Option ℤ) : List Txid → List (HistoryEntry Txid) →
    List (HistoryEntry Txid)
  | _, [] => []
  | seen, entry :: raw =>
      if entry.txid ∈ seen then collectUnseen beforeHeight seen raw
      else if isSkipped beforeHeight entry then
        collectUnseen beforeHeight (entry.txid :: seen) raw
      else entry :: collectUnseen beforeHeight (entry.txid :: seen) raw

def sortKey (entry : HistoryEntry Txid) : Bool ×ₗ ℤ :=
  toLex (entry.height.isNone, -(entry.height.getD 0))

def sorted (txs : List (HistoryEntry Txid)) : List (HistoryEntry Txid) :=
  txs.insertionSort fun first second => sortKey first ≤ sortKey second

def addressHistory (entries : List (HistoryEntry Txid)) (limit : ℕ) (beforeHeight : Option ℤ) :
    HistoryPage Txid :=
  let txs := sorted (collectUnseen beforeHeight []
    (listTransactions entries (max (limit * 2) 100)))
  ⟨txs.take limit, limit < txs.length⟩

/-- A client: it passes the smallest height of the page as `before_height` until there is no
more; a page without heights ends it too. -/
def readHistory (entries : List (HistoryEntry Txid)) (limit : ℕ) : ℕ → Option ℤ →
    Option (List (HistoryEntry Txid))
  | 0, _ => none
  | fuel + 1, beforeHeight =>
      let page := addressHistory entries limit beforeHeight
      if page.hasMore then
        match (page.transactions.filterMap HistoryEntry.height).min? with
        | none => some page.transactions
        | some smallest => (readHistory entries limit fuel (some smallest)).map
            (page.transactions ++ ·)
      else some page.transactions

/-- The transactions of the window, highest first. -/
def windowed (entries : List (HistoryEntry Txid)) (limit : ℕ) : List (HistoryEntry Txid) :=
  sorted (collectUnseen none [] (listTransactions entries (max (limit * 2) 100)))

def remaining (entries : List (HistoryEntry Txid)) (limit : ℕ) :
    Option ℤ → List (HistoryEntry Txid)
  | none => windowed entries limit
  | some bound => (windowed entries limit).filter (below HistoryEntry.height bound)

section Pages

variable {entries raw : List (HistoryEntry Txid)} {seen : List Txid} {limit : ℕ}
  {entry : HistoryEntry Txid}

theorem collectUnseen_some (bound : ℤ) : collectUnseen (some bound) seen raw =
    (collectUnseen none seen raw).filter (below HistoryEntry.height bound) := by
  induction raw generalizing seen with
  | nil => rfl
  | cons entry raw ih =>
    have hskip : isSkipped (some bound) entry = !below HistoryEntry.height bound entry := by
      cases hheight : entry.height with
      | none => simp [isSkipped, below, hheight]
      | some height => simp [isSkipped, below, hheight, ← decide_not]
    have hkeep : isSkipped none entry = false := rfl
    rw [collectUnseen, collectUnseen, hskip, hkeep, ih, ih]
    cases hbelow : below HistoryEntry.height bound entry <;> split_ifs <;> simp_all

theorem addressHistory_eq (beforeHeight : Option ℤ) : addressHistory entries limit beforeHeight =
    ⟨(remaining entries limit beforeHeight).take limit,
      limit < (remaining entries limit beforeHeight).length⟩ := by
  cases beforeHeight with
  | none => rfl
  | some bound =>
    rw [addressHistory, collectUnseen_some, sorted, ← filter_insertionSort]
    rfl

theorem remaining_filter {beforeHeight : Option ℤ} {smallest : ℤ}
    (hsmallest : smallest ∈ ((remaining entries limit beforeHeight).take limit).filterMap
      HistoryEntry.height) :
    (remaining entries limit beforeHeight).filter (below HistoryEntry.height smallest) =
      remaining entries limit (some smallest) := by
  cases beforeHeight with
  | none => rfl
  | some bound =>
    obtain ⟨entry, hentry, hheight⟩ := List.mem_filterMap.mp hsmallest
    have hbelow : below HistoryEntry.height bound entry = true :=
      (List.mem_filter.mp (List.mem_of_mem_take hentry)).2
    have hlt : smallest < bound := by simpa [below, hheight] using hbelow
    rw [remaining, List.filter_filter]
    refine List.filter_congr fun other _ => ?_
    cases hother : other.height with
    | none => simp [below, hother]
    | some height =>
      simp only [below, hother, Option.all_some, Bool.and_eq_left_iff_imp, decide_eq_true_eq]
      exact fun hless => hless.trans hlt

/-- The client reads the window by its heights. -/
theorem readHistory_eq (fuel : ℕ) (beforeHeight : Option ℤ) :
    readHistory entries limit fuel beforeHeight =
      collect HistoryEntry.height limit fuel (remaining entries limit beforeHeight) := by
  induction fuel generalizing beforeHeight with
  | zero => rfl
  | succ fuel ih =>
    rw [readHistory, addressHistory_eq, collect]
    simp only [decide_eq_true_eq]
    split_ifs with hmore
    · cases hsmallest : (((remaining entries limit beforeHeight).take limit).filterMap
          HistoryEntry.height).min? with
      | none => rfl
      | some smallest =>
        dsimp only
        rw [ih, remaining_filter (List.min?_mem hsmallest)]
    · rfl

theorem mem_of_mem_collectUnseen (hmem : entry ∈ collectUnseen none seen raw) :
    entry ∈ raw ∧ entry.txid ∉ seen := by
  induction raw generalizing seen with
  | nil => exact absurd hmem List.not_mem_nil
  | cons first raw ih =>
    rw [collectUnseen] at hmem
    split_ifs at hmem with hseen hskipped
    · obtain ⟨hraw, hnot⟩ := ih hmem
      exact ⟨List.mem_cons_of_mem _ hraw, hnot⟩
    · exact absurd hskipped Bool.false_ne_true
    · rcases List.mem_cons.mp hmem with rfl | hlater
      · exact ⟨List.mem_cons_self, hseen⟩
      · obtain ⟨hraw, hnot⟩ := ih hlater
        exact ⟨List.mem_cons_of_mem _ hraw, fun hmem => hnot (List.mem_cons_of_mem _ hmem)⟩

theorem exists_mem_collectUnseen (hmem : entry ∈ raw) (hnot : entry.txid ∉ seen) :
    ∃ kept ∈ collectUnseen none seen raw, kept.txid = entry.txid := by
  induction raw generalizing seen with
  | nil => exact absurd hmem List.not_mem_nil
  | cons first raw ih =>
    rw [collectUnseen]
    split_ifs with hseen hskipped
    · rcases List.mem_cons.mp hmem with rfl | hraw
      · exact absurd hseen hnot
      · exact ih hraw hnot
    · exact absurd hskipped Bool.false_ne_true
    · by_cases hsame : entry.txid = first.txid
      · exact ⟨first, List.mem_cons_self, hsame.symm⟩
      · obtain ⟨kept, hkept, htxid⟩ := ih
          ((List.mem_cons.mp hmem).resolve_left fun heq => hsame (congrArg _ heq))
          (List.not_mem_cons_of_ne_of_not_mem hsame hnot)
        exact ⟨kept, List.mem_cons_of_mem _ hkept, htxid⟩

theorem nodup_txids : ((collectUnseen none seen raw).map HistoryEntry.txid).Nodup := by
  induction raw generalizing seen with
  | nil => exact List.nodup_nil
  | cons first raw ih =>
    rw [collectUnseen]
    split_ifs with hseen hskipped
    · exact ih
    · exact ih
    · rw [List.map_cons, List.nodup_cons]
      refine ⟨fun hmem => ?_, ih⟩
      obtain ⟨later, hlater, heq⟩ := List.mem_map.mp hmem
      exact (mem_of_mem_collectUnseen hlater).2 (heq ▸ List.mem_cons_self)

theorem mem_windowed : entry ∈ windowed entries limit ↔
    entry ∈ collectUnseen none [] (listTransactions entries (max (limit * 2) 100)) :=
  List.mem_insertionSort _

theorem windowed_ordered : (windowed entries limit).Pairwise (Descends HistoryEntry.height) := by
  refine (List.pairwise_insertionSort _ _).imp ?_
  intro first second hle low hlow
  rw [sortKey, sortKey, Prod.Lex.toLex_le_toLex, hlow] at hle
  cases hfirst : first.height with
  | none =>
    simp only [hfirst, Option.isNone_none, Option.isNone_some] at hle
    exact hle.elim (fun hless => absurd hless (by decide)) fun hboth => absurd hboth.1 nofun
  | some high => exact ⟨high, rfl, by simpa [hfirst] using hle⟩

theorem history_complete_iff {history : Set Txid} (hlimit : 0 < limit)
    (hhistory : ∀ entry ∈ entries, entry.txid ∈ history ↔ entry.height ≠ none) :
    (∃ received, readHistory entries limit (entries.length + 1) none = some received ∧
      ∀ txid ∈ history, ∃ entry ∈ received, entry.txid = txid) ↔
    (∀ txid ∈ history, ∃ entry ∈ entries.take (max (limit * 2) 100), entry.txid = txid) ∧
      Unsplit HistoryEntry.height limit (windowed entries limit) := by
  have hwindow : ∀ entry ∈ windowed entries limit,
      entry ∈ entries.take (max (limit * 2) 100) := by
    intro entry hmem
    exact List.mem_reverse.mp (mem_of_mem_collectUnseen (mem_windowed.mp hmem)).1
  have hperm : (windowed entries limit).Perm _ := List.perm_insertionSort _ _
  have htxids : ((windowed entries limit).map HistoryEntry.txid).Nodup :=
    (hperm.map _).nodup_iff.mpr nodup_txids
  have hshort : (windowed entries limit).length < entries.length + 1 := by
    have hsubset := ((List.Nodup.of_map _ htxids).subperm fun entry hmem =>
      List.mem_of_mem_take (hwindow entry hmem)).length_le
    omega
  obtain ⟨received, hreceived, hiff⟩ :=
    exists_collect hlimit windowed_ordered (List.Nodup.of_map _ htxids) hshort
  rw [readHistory_eq, remaining, hreceived, ← hiff]
  constructor
  · rintro ⟨same, heq, hall⟩
    obtain rfl := Option.some.inj heq
    constructor
    · intro txid htxid
      obtain ⟨entry, hentry, heq⟩ := hall txid htxid
      exact ⟨entry, hwindow entry (mem_of_mem_collect hreceived hentry), heq⟩
    · intro entry hentry hheight
      have hlisted := List.mem_of_mem_take (hwindow entry hentry)
      obtain ⟨other, hother, heq⟩ := hall entry.txid ((hhistory entry hlisted).mpr hheight)
      rwa [← List.inj_on_of_nodup_map htxids (mem_of_mem_collect hreceived hother) hentry heq]
  · rintro ⟨hlisted, hkept⟩
    refine ⟨received, rfl, fun txid htxid => ?_⟩
    obtain ⟨entry, hentry, rfl⟩ := hlisted txid htxid
    obtain ⟨kept, hmem, heq⟩ :=
      exists_mem_collectUnseen (List.mem_reverse.mpr hentry) List.not_mem_nil
    have hwindowed := mem_windowed.mpr hmem
    have hheight := (hhistory kept (List.mem_of_mem_take (hwindow kept hwindowed))).mp
      (heq ▸ htxid)
    exact ⟨kept, hkept kept hwindowed hheight, heq⟩

end Pages

theorem history_complete_two_heights :
    ∃ received, readHistory [⟨1, some 6⟩, ⟨0, some 5⟩] 1 3 none = some received ∧
      ∀ txid ∈ ({0, 1} : Set ℕ), ∃ entry ∈ received, entry.txid = txid := by
  refine (@history_complete_iff ℕ _ [⟨1, some 6⟩, ⟨0, some 5⟩] 1 {0, 1} (by decide)
    (by simp)).mpr ⟨by simp, ?_⟩
  have hwindow : windowed [⟨1, some 6⟩, ⟨0, some 5⟩] 1 =
      ([⟨1, some 6⟩, ⟨0, some 5⟩] : List (HistoryEntry ℕ)) := by decide
  rw [hwindow]
  rintro (_ | _ | position) last next - hlast hnext heq
  · obtain rfl := Option.some.inj hlast
    obtain rfl := Option.some.inj hnext
    exact absurd heq (by decide)
  · exact absurd hnext nofun
  · exact absurd hnext nofun

/-- Two transactions of one block on pages of one: the second is never received. -/
theorem same_height_not_received :
    readHistory [⟨1, some 5⟩, ⟨0, some 5⟩] 1 3 none =
      some ([⟨0, some 5⟩] : List (HistoryEntry ℕ)) := by
  decide

end FirstIslamicCoin.StakingService
