import FirstIslamicCoin.StakingService.RewardRows

/-!
# Crediting rewards

Over an unchanged node every pass of the watcher finds the same output for a deposit, so
that overlapping passes do no harm; and once one pass has come to its end with no call
failing, no pass changes a row any more.  When the chain moves on between the calls, a
pass that is late replaces the funding output under the rows of a deposit.
-/

namespace FirstIslamicCoin.StakingService

open Program

section UnchangedNode

/-- A node that does not change: a call is answered from one view or fails. -/
def unchangedNode (view : (call : RpcCall) → Except RpcError call.Reply) : NodeModel Unit where
  answers _ call reply _ _ := reply = view call ∨ ∃ error, reply = .error error

variable (config : PoolConfig) (view : (call : RpcCall) → Except RpcError call.Reply)

/-- The output a pass finds for a deposit. -/
def listedFor (dep : StakeDeposit) : Option Unspent :=
  match (view (.listUnspent dep.depositAddress) : Except RpcError (List Unspent)) with
  | .ok utxos => utxos.head?
  | .error _ => none

def markedRow (dep : StakeDeposit) : StakeDeposit :=
  if dep.status = .awaitingFunds then
    match listedFor view dep with
    | some u => dep.activated dep.id u.outpoint (config.fromNode u.amount)
    | none => dep
  else dep

def Succeeds : (request : Request) → request.Response → Prop
  | .sql _, _ => True
  | .rpc _, reply => ∃ result, reply = .ok result

/-- A reply comes from the view, or is an error where calls may fail. -/
def Viewed (succeeding : Prop) : (request : Request) → request.Response → Prop
  | .sql _, _ => True
  | .rpc call, reply => (reply = view call ∨ ∃ error, reply = .error error) ∧
      (succeeding → Succeeds (.rpc call) reply)

/-- Nothing is left for a pass to do. -/
structure Finished (db : GatewayDB) : Prop where
  waiting : ∀ row ∈ db.deposits, row.status = .awaitingFunds → listedFor view row = none
  recorded : ∀ row ∈ db.deposits, row.status = .active → ∀ txid tx total,
    Due config (Viewed view True) row txid tx total → Recorded txid db

/-- Tables as the service writes them: a deposit that awaits funds has no output yet. -/
structure GatewayDB.Tidy (db : GatewayDB) : Prop extends db.Sound where
  unfunded : ∀ row ∈ db.deposits, row.status = .awaitingFunds → row.funding = none

/-- What passes do over one view: a deposit is left alone or marked with the one output
found for it, and nothing is done once nothing is left to do. -/
structure Advances (world : TxId → Option RawTx) (store later : PoolStore Unit) : Prop where
  tidy : store.db.Tidy → later.db.Tidy
  rows : ∀ row ∈ store.db.deposits,
    row ∈ later.db.deposits ∨ markedRow config view row ∈ later.db.deposits
  origin : ∀ row ∈ later.db.deposits, ∃ before ∈ store.db.deposits,
    row = before ∨ row = markedRow config view before
  recorded : ∀ txid, Recorded txid store.db → Recorded txid later.db
  credited : CreditedOnce config world store.db → CreditedOnce config world later.db
  belongs : BelongsToFunding world store.db → BelongsToFunding world later.db
  finished : Finished config view store.db → later.db = store.db

def viewAnswers (succeeding : Prop) (position : ℕ) (job : Job) (store : PoolStore Unit)
    (request : Request) (response : request.Response) (next : PoolStore Unit) : Prop :=
  storeAnswers (unchangedNode view) position job store request response next ∧
    (succeeding → Succeeds request response)

variable {config view} {world : TxId → Option RawTx} {store later : PoolStore Unit}

variable {dep : StakeDeposit} {read : PoolStore Unit} {succeeding : Prop}

theorem markedRow_of_ne (hstatus : dep.status ≠ .awaitingFunds) :
    markedRow config view dep = dep := if_neg hstatus

theorem markedRow_of_none (hnone : listedFor view dep = none) :
    markedRow config view dep = dep := by
  rw [markedRow, hnone, ite_self]

theorem markedRow_of_some (hstatus : dep.status = .awaitingFunds) {u : Unspent}
    (hlisted : listedFor view dep = some u) :
    markedRow config view dep = dep.activated dep.id u.outpoint (config.fromNode u.amount) := by
  rw [markedRow, if_pos hstatus, hlisted]

theorem id_markedRow (dep : StakeDeposit) : (markedRow config view dep).id = dep.id := by
  by_cases hstatus : dep.status = .awaitingFunds
  · cases hlisted : listedFor view dep with
    | none => rw [markedRow_of_none hlisted]
    | some u =>
      rw [markedRow_of_some hstatus hlisted]
      exact (keepsRow_activated dep.id u.outpoint (config.fromNode u.amount)).id_eq dep
  · rw [markedRow_of_ne hstatus]

/-- A row that still awaits funds after a pass had none to find. -/
theorem listedFor_of_markedRow (hstatus : (markedRow config view dep).status = .awaitingFunds) :
    listedFor view dep = none := by
  cases hlisted : listedFor view dep with
  | none => rfl
  | some u =>
    by_cases hbefore : dep.status = .awaitingFunds
    · rw [markedRow_of_some hbefore hlisted, StakeDeposit.activated, if_pos rfl] at hstatus
      cases hstatus
    · rw [markedRow_of_ne hbefore] at hstatus
      exact absurd hstatus hbefore

theorem markedRow_markedRow (dep : StakeDeposit) :
    markedRow config view (markedRow config view dep) = markedRow config view dep := by
  by_cases hstatus : (markedRow config view dep).status = .awaitingFunds
  · have hnone := listedFor_of_markedRow hstatus
    rw [markedRow_of_none hnone, markedRow_of_none hnone]
  · exact markedRow_of_ne hstatus

theorem Advances.of_db_eq (hdb : later.db = store.db) : Advances config view world store later where
  tidy htidy := by rwa [hdb]
  rows row hrow := .inl (by rwa [hdb])
  origin row hrow := ⟨row, by rwa [← hdb], .inl rfl⟩
  recorded _ hrecorded := by rwa [hdb]
  credited hcredited := by rwa [hdb]
  belongs hbelongs := by rwa [hdb]
  finished _ := hdb

theorem Advances.trans {last : PoolStore Unit} (hfirst : Advances config view world store later)
    (hsecond : Advances config view world later last) : Advances config view world store last where
  tidy htidy := hsecond.tidy (hfirst.tidy htidy)
  rows row hrow := by
    rcases hfirst.rows row hrow with hsame | hmarked
    · exact hsecond.rows row hsame
    · rcases hsecond.rows _ hmarked with hkept | hagain
      · exact .inr hkept
      · rw [markedRow_markedRow] at hagain
        exact .inr hagain
  origin row hrow := by
    obtain ⟨middle, hmiddle, hcases⟩ := hsecond.origin row hrow
    obtain ⟨before, hbefore, hearlier⟩ := hfirst.origin middle hmiddle
    refine ⟨before, hbefore, ?_⟩
    rcases hearlier with rfl | rfl
    · exact hcases
    · rw [markedRow_markedRow, or_self] at hcases
      exact .inr hcases
  recorded txid hrecorded := hsecond.recorded txid (hfirst.recorded txid hrecorded)
  credited hcredited := hsecond.credited (hfirst.credited hcredited)
  belongs hbelongs := hsecond.belongs (hfirst.belongs hbelongs)
  finished hfinished := by
    have hsame := hfirst.finished hfinished
    rw [← hsame] at hfinished ⊢
    exact hsecond.finished hfinished

section

variable (htidy : read.db.Tidy) (hread : Advances config view world read store)
  (hdep : dep ∈ read.db.deposits)

include htidy hread hdep

/-- The row of a deposit that was read as waiting. -/
theorem Advances.row_of_read {row : StakeDeposit} (hrow : row ∈ store.db.deposits)
    (hid : row.id = dep.id) : row = dep ∨ row = markedRow config view dep := by
  have hsound := (hread.tidy htidy).toSound
  rcases hread.rows dep hdep with hsame | hmarked
  · exact .inl (hsound.eq_of_id_eq hrow hsame hid)
  · exact .inr (hsound.eq_of_id_eq hrow hmarked (hid.trans (id_markedRow dep).symm))

/-- Marking a deposit that was read as waiting makes its row the marked one. -/
theorem Advances.activated_eq (hawaiting : dep.status = .awaitingFunds) {u : Unspent}
    (hlisted : listedFor view dep = some u) {row : StakeDeposit} (hrow : row ∈ store.db.deposits) :
    row.activated dep.id u.outpoint (config.fromNode u.amount) =
      if row.id = dep.id then markedRow config view dep else row := by
  split_ifs with hid
  · rcases hread.row_of_read htidy hdep hrow hid with rfl | rfl
    · exact (markedRow_of_some hawaiting hlisted).symm
    · rw [markedRow_of_some hawaiting hlisted]
      simp [StakeDeposit.activated]
  · rw [StakeDeposit.activated, if_neg hid]

theorem Advances.activated (hawaiting : dep.status = .awaitingFunds) {u : Unspent}
    (hlisted : listedFor view dep = some u)
    (hdb : later.db = store.db.updated (.activated dep.id u.outpoint (config.fromNode u.amount))) :
    Advances config view world store later := by
  have hstore := hread.tidy htidy
  have hupdate : ∀ row ∈ store.db.deposits,
      row.activated dep.id u.outpoint (config.fromNode u.amount) =
        if row.id = dep.id then markedRow config view dep else row :=
    fun row hrow => hread.activated_eq htidy hdep hawaiting hlisted hrow
  -- a row is replaced by its own marked form or left alone
  have hmoved : ∀ row ∈ store.db.deposits,
      row.activated dep.id u.outpoint (config.fromNode u.amount) = row ∨
        row.activated dep.id u.outpoint (config.fromNode u.amount) = markedRow config view row := by
    intro row hrow
    rw [hupdate row hrow]
    split_ifs with hid
    · rcases hread.row_of_read htidy hdep hrow hid with rfl | rfl
      · exact .inr rfl
      · exact .inl rfl
    · exact .inl rfl
  have hfunded : ∀ row ∈ store.db.deposits, row.funding ≠ none →
      row.activated dep.id u.outpoint (config.fromNode u.amount) = row := by
    intro row hrow hfunding
    rw [hupdate row hrow]
    split_ifs with hid
    · rcases hread.row_of_read htidy hdep hrow hid with rfl | rfl
      · exact absurd (hstore.unfunded row hrow hawaiting) hfunding
      · rfl
    · rfl
  refine ⟨fun _ => ?_, ?_, ?_, ?_, ?_, ?_, ?_⟩
  · rw [hdb]
    refine ⟨(keepsRow_activated _ _ _).sound_updated hstore.toSound, ?_⟩
    intro row hrow hstatus
    obtain ⟨before, hbefore, rfl⟩ := List.mem_map.mp hrow
    rw [StakeDeposit.activated] at hstatus ⊢
    split_ifs at hstatus ⊢
    exact hstore.unfunded before hbefore hstatus
  · intro row hrow
    have hmem : row.activated dep.id u.outpoint (config.fromNode u.amount) ∈ later.db.deposits := by
      rw [hdb]
      exact List.mem_map.mpr ⟨row, hrow, rfl⟩
    rcases hmoved row hrow with hsame | hmarked
    · rw [hsame] at hmem
      exact .inl hmem
    · rw [hmarked] at hmem
      exact .inr hmem
  · intro row hrow
    rw [hdb] at hrow
    obtain ⟨before, hbefore, rfl⟩ := List.mem_map.mp hrow
    exact ⟨before, hbefore, hmoved before hbefore⟩
  · intro txid hrecorded
    rw [hdb]
    exact hrecorded
  · intro hcredited
    rw [hdb]
    exact ⟨hcredited.once, hcredited.splits⟩
  · intro hbelongs reward hreward
    rw [hdb] at hreward ⊢
    obtain ⟨row, hrow, hid, tx, hshown, hspends⟩ := hbelongs reward hreward
    refine ⟨row, List.mem_map.mpr ⟨row, hrow, hfunded row hrow fun hnone => ?_⟩, hid, tx, hshown,
      hspends⟩
    rw [hnone] at hspends
    exact absurd hspends Bool.false_ne_true
  · intro hfinished
    have hsame : store.db.deposits.map (.activated dep.id u.outpoint (config.fromNode u.amount)) =
        store.db.deposits := by
      refine (List.map_congr_left fun row hrow => ?_).trans (List.map_id _)
      rw [hupdate row hrow]
      split_ifs with hid
      · rcases hread.row_of_read htidy hdep hrow hid with rfl | rfl
        · cases (hfinished.waiting row hrow hawaiting).symm.trans hlisted
        · rfl
      · rfl
    rw [hdb, GatewayDB.updated, hsame]

end

/-- An active deposit that was read is still there. -/
theorem Advances.mem_of_active (hread : Advances config view world read store)
    (hdep : dep ∈ read.db.deposits) (hactive : dep.status = .active) : dep ∈ store.db.deposits := by
  have hsame : markedRow config view dep = dep := markedRow_of_ne (by rw [hactive]; exact nofun)
  rcases hread.rows dep hdep with hkept | hmarked
  · exact hkept
  · rwa [hsame] at hmarked

theorem Advances.insertReward {added : StakeReward} {tx : RawTx} (htidy : store.db.Tidy)
    (hdep : dep ∈ store.db.deposits) (hid : dep.id = added.depositId)
    (hspends : dep.funding.any tx.spends = true) (hsplits : SplitsReward config world added tx)
    (hrecorded : Finished config view store.db → Recorded added.coinstakeTxid store.db)
    (hdb : later.db = (store.db.execute (.insertReward added)).2) :
    Advances config view world store later := by
  have hdeposits : later.db.deposits = store.db.deposits := by
    rw [hdb, deposits_insertReward]
  refine ⟨fun _ => ?_, ?_, ?_, ?_, ?_, ?_, ?_⟩
  · have hnext : later.db.nextId = store.db.nextId := by
      rw [hdb, GatewayDB.execute]
      split_ifs <;> rfl
    refine ⟨⟨?_, ?_⟩, ?_⟩
    · rw [hdeposits]
      exact htidy.nodup
    · rw [hdeposits, hnext]
      exact htidy.lt_nextId
    · rw [hdeposits]
      exact htidy.unfunded
  · intro row hrow
    rw [hdeposits]
    exact .inl hrow
  · intro row hrow
    rw [hdeposits] at hrow
    exact ⟨row, hrow, .inl rfl⟩
  · intro txid hbefore
    rw [hdb]
    exact hbefore.insertReward added
  · intro hcredited
    rw [hdb]
    exact hcredited.insertReward hsplits
  · intro hbelongs
    rw [hdb]
    exact hbelongs.insertReward hdep hid hsplits.shown hspends
  · intro hfinished
    obtain ⟨reward, hreward, htxid⟩ := hrecorded hfinished
    rw [hdb, GatewayDB.execute, if_pos (List.any_eq_true.mpr ⟨reward, hreward,
      decide_eq_true htxid⟩)]

/-- A reply other than an error is the one of the view. -/
theorem Viewed.eq_view {call : RpcCall} {result : call.Reply}
    (hviewed : Viewed view succeeding (.rpc call) (.ok result)) : view call = .ok result := by
  rcases hviewed.1 with hsame | ⟨error, hfailed⟩
  · exact hsame.symm
  · exact absurd hfailed nofun

theorem viewed_of_eq {call : RpcCall} {result : call.Reply} (hview : view call = .ok result) :
    Viewed view True (.rpc call) (.ok result) :=
  ⟨.inl hview.symm, fun _ => ⟨result, rfl⟩⟩

theorem SumsInputs.mono {fact other : (request : Request) → request.Response → Prop}
    (himplies : ∀ txid (tx : RawTx), fact (.rpc (.getRawTransaction txid)) (.ok tx) →
      other (.rpc (.getRawTransaction txid)) (.ok tx))
    {vin : List (Option OutPoint)} {total : ℤ} (hsums : SumsInputs config fact vin total) :
    SumsInputs config other vin total := by
  induction hsums with
  | nil => exact .nil
  | cons hshown hout _ ih => exact .cons (himplies _ _ hshown) hout ih

/-- What is due does not depend on whether calls may fail. -/
theorem Due.viewed {txid : TxId} {tx : RawTx} {total : ℤ}
    (hdue : Due config (Viewed view succeeding) dep txid tx total) :
    Due config (Viewed view True) dep txid tx total where
  spent := by
    obtain ⟨funding, hfunding, hspent⟩ := hdue.spent
    exact ⟨funding, hfunding, viewed_of_eq hspent.eq_view⟩
  listed := by
    obtain ⟨history, hhistory, hmem⟩ := hdue.listed
    exact ⟨history, viewed_of_eq hhistory.eq_view, hmem⟩
  shown := viewed_of_eq hdue.shown.eq_view
  coinstake := hdue.coinstake
  spends := hdue.spends
  total := hdue.total.mono fun _ _ hshown => viewed_of_eq hshown.eq_view

theorem listedFor_of_viewed {utxos : List Unspent}
    (hviewed : Viewed view succeeding (.rpc (.listUnspent dep.depositAddress)) (.ok utxos)) :
    listedFor view dep = utxos.head? := by
  rw [listedFor, hviewed.eq_view]

theorem passRules_viewAnswers (hexact : ∀ amount, config.fromNode amount = amount)
    (hshows : ∀ txid (tx : RawTx), view (.getRawTransaction txid) = .ok tx → world txid = some tx)
    (succeeding : Prop) (position : ℕ) (job : Job) :
    PassRules config (Viewed view succeeding) (viewAnswers view succeeding position job)
      (fun store => store.db.Tidy) (Advances config view world)
      (fun dep store => markedRow config view dep ∈ store.db.deposits) where
  refl _ := .of_db_eq rfl
  trans _ _ _ hfirst hsecond := hfirst.trans hsecond
  good_later _ _ htidy hadvances := hadvances.tidy htidy
  statements := by
    rintro store statement rows next ⟨⟨hrows, rfl⟩, _⟩
    exact ⟨hrows, rfl⟩
  quiet := by
    rintro store call reply next _ ⟨⟨paid, node, hanswer, rfl⟩, hsucceeds⟩
    exact ⟨.of_db_eq rfl, hanswer, hsucceeds⟩
  query := by
    rintro store statement rows next hquery ⟨⟨_, rfl⟩, _⟩
    exact .of_db_eq (execute_of_isQuery hquery _)
  activates := by
    rintro read store dep u others rows next htidy hread hdep hawaiting hlisted ⟨⟨_, rfl⟩, _⟩
    have hfound : listedFor view dep = some u := listedFor_of_viewed hlisted
    refine ⟨.activated htidy hread hdep hawaiting hfound rfl, ?_⟩
    have hrow : ∃ row ∈ store.db.deposits, row.id = dep.id := by
      rcases hread.rows dep hdep with hsame | hmarked
      · exact ⟨dep, hsame, rfl⟩
      · exact ⟨_, hmarked, id_markedRow dep⟩
    obtain ⟨row, hrow, hid⟩ := hrow
    refine List.mem_map.mpr ⟨row, hrow, ?_⟩
    rw [hread.activated_eq htidy hdep hawaiting hfound hrow, if_pos hid]
  unlisted := by
    intro read store dep _ hread hdep hlisted
    have hnone : listedFor view dep = none := listedFor_of_viewed hlisted
    rcases hread.rows dep hdep with hsame | hmarked
    · rwa [markedRow_of_none hnone]
    · exact hmarked
  marked_later := by
    intro dep store later hmarked hadvances
    rcases hadvances.rows _ hmarked with hsame | hagain
    · exact hsame
    · rwa [markedRow_markedRow] at hagain
  records := by
    rintro read store dep txid tx total rows next htidy hread hdep hactive hdue ⟨⟨_, rfl⟩, _⟩
    have hmem := hread.mem_of_active hdep hactive
    have htotal := hdue.total.inputTotal_eq fun _ _ hshown => hshows _ _ hshown.eq_view
    exact .insertReward (hread.tidy htidy) hmem rfl hdue.spends
      (splitsReward_rewardRow hexact dep.id (hshows _ _ hdue.shown.eq_view) hdue.coinstake htotal)
      (fun hfinished => hfinished.recorded dep hmem hactive txid tx total hdue.viewed) rfl
  recorded_later txid _ _ hrecorded hadvances := hadvances.recorded txid hrecorded

/-- A pass that is done with no call failing has left nothing to do. -/
theorem finished_of_completed (hsucceeding : succeeding)
    (hcompleted : Completed (Viewed view succeeding) (fun store => store.db.Tidy)
      (Advances config view world)
      (fun dep store => markedRow config view dep ∈ store.db.deposits) store) :
    Finished config view store.db := by
  obtain ⟨start, middle, htidy, hmiddle, hstore, hmarked, hsettles⟩ := hcompleted
  have hsound := (hmiddle.tidy htidy).toSound
  -- in the middle of the pass there was nothing left to mark
  have hwaiting : ∀ row ∈ middle.db.deposits, row.status = .awaitingFunds →
      listedFor view row = none := by
    intro row hrow hstatus
    obtain ⟨before, hbefore, rfl | rfl⟩ := hmiddle.origin row hrow
    · have hkept := hmarked row hbefore hstatus
      have hsame := hsound.eq_of_id_eq hkept hrow (id_markedRow row)
      exact listedFor_of_markedRow (by rw [hsame]; exact hstatus)
    · have hnone := listedFor_of_markedRow hstatus
      rwa [markedRow_of_none hnone]
  have hfixed : ∀ row ∈ middle.db.deposits, markedRow config view row = row := by
    intro row hrow
    by_cases hstatus : row.status = .awaitingFunds
    · exact markedRow_of_none (hwaiting row hrow hstatus)
    · exact markedRow_of_ne hstatus
  have hback : ∀ row ∈ store.db.deposits, row ∈ middle.db.deposits := by
    intro row hrow
    obtain ⟨before, hbefore, rfl | rfl⟩ := hstore.origin row hrow
    · exact hbefore
    · rwa [hfixed before hbefore]
  refine ⟨fun row hrow => hwaiting row (hback row hrow), ?_⟩
  intro row hrow hactive txid tx total hdue
  obtain ⟨funding, hfunding, hspent⟩ := hdue.spent
  obtain ⟨listed, hlisted, hmem⟩ := hdue.listed
  obtain ⟨reply, hreply, hsettled⟩ := hsettles row (hback row hrow) hactive funding hfunding
  obtain ⟨unspent, rfl⟩ := hreply.2 hsucceeding
  have hunspent : unspent = false := Except.ok.inj (hreply.eq_view.symm.trans hspent.eq_view)
  obtain ⟨history, hhistory, hhandled⟩ := hsettled (congrArg Except.ok hunspent)
  have hsame : history = listed := Except.ok.inj (hhistory.eq_view.symm.trans hlisted.eq_view)
  rcases hhandled txid (hsame ▸ hmem) with hrecorded | ⟨shown, hshown, hother⟩
  · exact hrecorded
  · obtain ⟨found, rfl⟩ := hshown.2 hsucceeding
    have hfound : found = tx := Except.ok.inj (hshown.eq_view.symm.trans hdue.shown.eq_view)
    have hnot := hother tx (congrArg Except.ok hfound)
    rw [hdue.coinstake, hdue.spends] at hnot
    exact absurd hnot nofun

/-- Steps over the view in which calls may fail. -/
theorem run_viewAnswers {start system : PoolSystem Unit} {labels : List (ℕ × Request)}
    (hrun : Run (Interleaves (storeAnswers (unchangedNode view))) start labels system) :
    Run (Interleaves fun position => viewAnswers view False position) start labels system :=
  (hrun.transfer (fun _ _ => True) trivial fun _ _ _ _ _ hstep =>
    ⟨trivial, hstep.mono fun _ _ _ hanswer => ⟨hanswer, False.elim⟩⟩).2

theorem advances_of_run (hexact : ∀ amount, config.fromNode amount = amount)
    (hshows : ∀ txid (tx : RawTx), view (.getRawTransaction txid) = .ok tx → world txid = some tx)
    {succeeding : ℕ → Prop} {count : ℕ} {db : GatewayDB} (htidy : db.Tidy)
    {labels : List (ℕ × Request)} {system : PoolSystem Unit}
    (hrun : Run (Interleaves fun position => viewAnswers view (succeeding position) position)
      (watching config count db ()) labels system) :
    Advances config view world ⟨db, (), []⟩ system.store ∧
      AllSustain (fun position => viewAnswers view (succeeding position) position)
        (Advances config view world) (fun position _ final =>
          Completed (Viewed view (succeeding position)) (fun store => store.db.Tidy)
            (Advances config view world)
            (fun dep store => markedRow config view dep ∈ store.db.deposits) final) system := by
  refine AllSustain.run (fun _ => .of_db_eq rfl) (fun _ _ _ hfirst hsecond => hfirst.trans hsecond)
    (fun position thread hget => ?_) hrun
  rw [program_of_watching hget]
  exact (passRules_viewAnswers hexact hshows (succeeding position) position
    thread.client).sustains_runWatcherPass htidy

end UnchangedNode

section Crediting

variable {config : PoolConfig} {world : TxId → Option RawTx}

theorem rewards_credited_once (config : PoolConfig)
    (hexact : ∀ amount, config.fromNode amount = amount) (world : TxId → Option RawTx) (count : ℕ)
    (db : GatewayDB) (htidy : db.Tidy) (hcredited : CreditedOnce config world db)
    (hbelongs : BelongsToFunding world db) :
    (∀ (Node : Type) (model : NodeModel Node), ShowsTransactions world model →
      ∀ node labels system,
        (Run (Interleaves (storeAnswers model)) (watching config count db node) labels system →
          CreditedOnce config world system.store.db) ∧
        (Run (MarkingStep model) (watching config count db node) labels system →
          CreditedOnce config world system.store.db ∧
            BelongsToFunding world system.store.db)) ∧
    ∀ view : (call : RpcCall) → Except RpcError call.Reply,
      (∀ txid (tx : RawTx), view (.getRawTransaction txid) = .ok tx → world txid = some tx) →
      (∀ labels system, Run (Interleaves (storeAnswers (unchangedNode view)))
          (watching config count db ()) labels system →
        CreditedOnce config world system.store.db ∧ BelongsToFunding world system.store.db) ∧
      ∀ position labels middle thread further final,
        Run (Interleaves fun other => viewAnswers view (other = position) other)
          (watching config count db ()) labels middle →
        middle.threads[position]? = some thread → thread.program = .done () →
        Run (Interleaves (storeAnswers (unchangedNode view))) middle further final →
          final.store.db = middle.store.db := by
  refine ⟨fun Node model hshows node labels system => ⟨fun hrun => ?_, fun hrun => ?_⟩,
    fun view hshows => ⟨fun labels system hrun => ?_, ?_⟩⟩
  · have hany : Run (Interleaves (anyAnswers model False)) (watching config count db node) labels
        system :=
      (hrun.transfer (fun _ _ => True) trivial fun _ _ _ _ _ hstep =>
        ⟨trivial, hstep.mono fun _ _ _ hanswer => ⟨hanswer, False.elim⟩⟩).2
    exact (keepsCredits_of_run hexact hshows hany).credited hcredited
  · have hany : Run (Interleaves (anyAnswers model True)) (watching config count db node) labels
        system :=
      (hrun.transfer (fun _ _ => True) trivial fun _ _ _ _ _ hstep =>
        ⟨trivial, hstep.1.mono fun _ _ _ hanswer => ⟨hanswer, fun _ => hstep.2⟩⟩).2
    have hkeeps := keepsCredits_of_run hexact hshows hany
    exact ⟨hkeeps.credited hcredited, hkeeps.belongs trivial hbelongs⟩
  · have hadvances := (advances_of_run hexact hshows htidy (run_viewAnswers hrun)).1
    exact ⟨hadvances.credited hcredited, hadvances.belongs hbelongs⟩
  · intro position labels middle thread further final hrun hget hdone hfurther
    have hfinished : Finished config view middle.store.db := by
      have hthread := (advances_of_run hexact hshows htidy hrun).2 position thread hget
      rw [hdone] at hthread
      exact finished_of_completed rfl (hthread middle.store (.of_db_eq rfl))
    -- the run so far and the further one, both with calls that may fail
    have hplain : Run (Interleaves (storeAnswers (unchangedNode view)))
        (watching config count db ()) labels middle :=
      (hrun.transfer (fun _ _ => True) trivial fun _ _ _ _ _ hstep =>
        ⟨trivial, hstep.mono fun _ _ _ hanswer => hanswer.1⟩).2
    have hthreads := (advances_of_run hexact hshows htidy (run_viewAnswers hplain)).2
    have hadvances := (hthreads.run (fun _ => .of_db_eq rfl)
      (fun _ _ _ hfirst hsecond => hfirst.trans hsecond) (run_viewAnswers hfurther)).1
    exact hadvances.finished hfinished

/-- The chain between two calls: transactions of others and coinstakes of the wallet. -/
inductive Grows (owned : Address → Bool) : PoolChain → PoolChain → Prop
  | refl {chain : PoolChain} : Grows owned chain chain
  | receive {chain next : PoolChain} {tx : RawTx} : Grows owned chain next →
      Receives owned next tx → Grows owned chain (next.receive owned tx)
  | stake {chain next : PoolChain} {tx : RawTx} : Grows owned chain next →
      Stakes owned next tx → Grows owned chain (next.stake owned tx)

/-- The node behind the pool wallet, with a chain that grows by transactions of one
world. -/
def growingNode (config : PoolConfig) (owned : Address → Bool) (world : TxId → Option RawTx) :
    NodeModel PoolChain where
  answers chain call reply paid next := ∃ now, Grows owned chain now ∧
    (∀ tx ∈ now.txs, world tx.txid = some tx) ∧ ChainAnswers config owned now call reply paid next

theorem showsTransactions_growingNode (config : PoolConfig) (owned : Address → Bool)
    (world : TxId → Option RawTx) : ShowsTransactions world (growingNode config owned world) := by
  rintro chain txid tx paid next ⟨now, _, hworld, hanswer⟩
  cases hanswer with
  | getRawTransaction htx =>
    have htxid : tx.txid = txid := by simpa using List.find?_some htx
    rw [← htxid]
    exact hworld tx (List.mem_of_find?_eq_some htx)

def lateTables : GatewayDB := ⟨[⟨1, 1, 1, none, none, .awaitingFunds⟩], [], 2⟩

def paidChain : PoolChain :=
  ⟨[tenCoinsTx 10 1], [(1, .deposit 1), (1, .pending)], ⟨1000000000, 0, 0⟩, []⟩

def grownChain : PoolChain := paidChain.stake poolAddresses (stakeTx 20 ⟨10, 0⟩ 2000000000 1)

def lateChain : PoolChain := grownChain.receive poolAddresses fiveCoinsTx

def lateWorld (txid : TxId) : Option RawTx := lateChain.lookup txid

def lateNode : NodeModel PoolChain := growingNode .sample poolAddresses lateWorld

theorem lateNode_answers {chain next : PoolChain} {call : RpcCall}
    {reply : Except RpcError call.Reply} {paid : Option ℤ}
    (hworld : ∀ tx ∈ chain.txs, lateWorld tx.txid = some tx)
    (hanswer : ChainAnswers .sample poolAddresses chain call reply paid next) :
    lateNode.answers chain call reply paid next :=
  ⟨chain, .refl, hworld, hanswer⟩

/-- The coin stakes before the call is answered. -/
theorem lateNode_answers_grown {next : PoolChain} {call : RpcCall}
    {reply : Except RpcError call.Reply} {paid : Option ℤ}
    (hanswer : ChainAnswers .sample poolAddresses grownChain call reply paid next) :
    lateNode.answers paidChain call reply paid next :=
  ⟨grownChain, .stake .refl (@stakes_stakeTx paidChain 20 (⟨10, 0⟩, ⟨1000000000, [], some 1⟩)
    2000000000 1 (fresh_of_inputs (by decide) (by decide) (by decide) (by decide)) (by decide)
    (by decide) rfl (by decide)), by decide, hanswer⟩

/-- The second payment comes before the call is answered. -/
theorem lateNode_answers_late {next : PoolChain} {call : RpcCall}
    {reply : Except RpcError call.Reply} {paid : Option ℤ}
    (hanswer : ChainAnswers .sample poolAddresses lateChain call reply paid next) :
    lateNode.answers grownChain call reply paid next :=
  ⟨lateChain, .receive .refl ⟨fresh_of_inputs (by decide) (by decide) (by decide) (by decide),
    by decide⟩, by decide, hanswer⟩

theorem tidy_lateTables : lateTables.Tidy where
  nodup := by decide
  lt_nextId := by decide
  unfunded := by decide

/-- One pass marks the deposit, and records the coinstake that comes while it runs. -/
theorem rewards_credited_late :
    ∃ labels system, Run (MarkingStep lateNode) (watching .sample 1 lateTables paidChain) labels
        system ∧
      system.store.db.rewards = [⟨1, 20, 1000000000, 50000000, 950000000⟩] ∧
      CreditedOnce .sample lateWorld system.store.db ∧
      BelongsToFunding lateWorld system.store.db := by
  have hstart : Run (MarkingStep lateNode) (watching .sample 1 lateTables paidChain) [] _ := .nil
  have hloaded := run_rpc lateNode 0 hstart rfl (lateNode_answers (by decide) .listWallets)
    fun _ hnext => ⟨hnext, nofun⟩
  have hpending := run_sql lateNode 0 hloaded rfl fun _ hnext => ⟨hnext, nofun⟩
  have hlisted := run_rpc lateNode 0 hpending rfl (lateNode_answers (by decide)
    (.listUnspent 1 [⟨⟨10, 0⟩, 1000000000⟩] (by
      intro u hmem
      rw [List.mem_singleton.mp hmem]
      exact ⟨[], by decide⟩))) fun _ hnext => ⟨hnext, nofun⟩
  have hmarked := run_sql lateNode 0 hlisted rfl fun _ hnext => ⟨hnext, by
    rintro id funding amountSatoshis _ row hrow _
    rw [List.mem_singleton.mp hrow]
    exact .inl rfl⟩
  have hagain := run_rpc lateNode 0 hmarked rfl (lateNode_answers (by decide) .listWallets)
    fun _ hnext => ⟨hnext, nofun⟩
  have hactive := run_sql lateNode 0 hagain rfl fun _ hnext => ⟨hnext, nofun⟩
  have hspent := run_rpc lateNode 0 hactive rfl (lateNode_answers_grown (.getTxOut ⟨10, 0⟩))
    fun _ hnext => ⟨hnext, nofun⟩
  have hhistory := run_rpc lateNode 0 hspent rfl (lateNode_answers (by decide)
    (.listTransactions (.deposit 1) 50)) fun _ hnext => ⟨hnext, nofun⟩
  have hfirst := run_sql lateNode 0 hhistory rfl fun _ hnext => ⟨hnext, nofun⟩
  have hpayment := run_rpc lateNode 0 hfirst rfl (lateNode_answers (by decide)
    (.getRawTransaction rfl)) fun _ hnext => ⟨hnext, nofun⟩
  have hsecond := run_sql lateNode 0 hpayment rfl fun _ hnext => ⟨hnext, nofun⟩
  have hcoinstake := run_rpc lateNode 0 hsecond rfl (lateNode_answers (by decide)
    (.getRawTransaction rfl)) fun _ hnext => ⟨hnext, nofun⟩
  have hinput := run_rpc lateNode 0 hcoinstake rfl (lateNode_answers (by decide)
    (.getRawTransaction rfl)) fun _ hnext => ⟨hnext, nofun⟩
  have hrecorded := run_sql lateNode 0 hinput rfl fun _ hnext => ⟨hnext, nofun⟩
  obtain ⟨hcredited, hbelongs⟩ := ((rewards_credited_once .sample (fun _ => rfl) lateWorld 1
    lateTables tidy_lateTables ⟨List.nodup_nil, nofun⟩ nofun).1 PoolChain lateNode
    (showsTransactions_growingNode _ _ _) paidChain _ _).2 hrecorded
  exact ⟨_, _, hrecorded, by decide, hcredited, hbelongs⟩

theorem funding_replaced_late :
    ∃ labels system, Run (Interleaves (storeAnswers lateNode))
        (watching .sample 2 lateTables paidChain) labels system ∧
      system.store.db.rewards = [⟨1, 20, 1000000000, 50000000, 950000000⟩] ∧
      system.store.db.deposits = [⟨1, 1, 1, some ⟨12, 0⟩, some 500000000, .active⟩] ∧
      (stakeTx 20 ⟨10, 0⟩ 2000000000 1).spends ⟨12, 0⟩ = false ∧
      ¬ BelongsToFunding lateWorld system.store.db := by
  have hstart : Run (Interleaves (storeAnswers lateNode)) (watching .sample 2 lateTables paidChain)
      [] _ := .nil
  have hloaded := run_rpc lateNode 0 hstart rfl (lateNode_answers (by decide) .listWallets)
    fun _ hnext => hnext
  have hpending := run_sql lateNode 0 hloaded rfl fun _ hnext => hnext
  -- the second pass reads the deposit before the first one marks it
  have hloadedToo := run_rpc lateNode 1 hpending rfl (lateNode_answers (by decide) .listWallets)
    fun _ hnext => hnext
  have hpendingToo := run_sql lateNode 1 hloadedToo rfl fun _ hnext => hnext
  have hlisted := run_rpc lateNode 0 hpendingToo rfl (lateNode_answers (by decide)
    (.listUnspent 1 [⟨⟨10, 0⟩, 1000000000⟩] (by
      intro u hmem
      rw [List.mem_singleton.mp hmem]
      exact ⟨[], by decide⟩))) fun _ hnext => hnext
  have hmarked := run_sql lateNode 0 hlisted rfl fun _ hnext => hnext
  have hagain := run_rpc lateNode 0 hmarked rfl (lateNode_answers (by decide) .listWallets)
    fun _ hnext => hnext
  have hactive := run_sql lateNode 0 hagain rfl fun _ hnext => hnext
  have hspent := run_rpc lateNode 0 hactive rfl (lateNode_answers_grown (.getTxOut ⟨10, 0⟩))
    fun _ hnext => hnext
  have hhistory := run_rpc lateNode 0 hspent rfl (lateNode_answers (by decide)
    (.listTransactions (.deposit 1) 50)) fun _ hnext => hnext
  have hfirst := run_sql lateNode 0 hhistory rfl fun _ hnext => hnext
  have hpayment := run_rpc lateNode 0 hfirst rfl (lateNode_answers (by decide)
    (.getRawTransaction rfl)) fun _ hnext => hnext
  have hsecond := run_sql lateNode 0 hpayment rfl fun _ hnext => hnext
  have hcoinstake := run_rpc lateNode 0 hsecond rfl (lateNode_answers (by decide)
    (.getRawTransaction rfl)) fun _ hnext => hnext
  have hinput := run_rpc lateNode 0 hcoinstake rfl (lateNode_answers (by decide)
    (.getRawTransaction rfl)) fun _ hnext => hnext
  have hrecorded := run_sql lateNode 0 hinput rfl fun _ hnext => hnext
  have hlistedToo := run_rpc lateNode 1 hrecorded rfl (lateNode_answers_late
    (.listUnspent 1 [⟨⟨12, 0⟩, 500000000⟩] (by
      intro u hmem
      rw [List.mem_singleton.mp hmem]
      exact ⟨[], by decide⟩))) fun _ hnext => hnext
  have hreplaced := run_sql lateNode 1 hlistedToo rfl fun _ hnext => hnext
  refine ⟨_, _, hreplaced, by decide, by decide, by decide, fun hbelongs => ?_⟩
  obtain ⟨row, hrow, _, tx, htx, hspends⟩ := hbelongs ⟨1, 20, 1000000000, 50000000, 950000000⟩ (by decide)
  obtain rfl : stakeTx 20 ⟨10, 0⟩ 2000000000 1 = tx := Option.some.inj htx
  have honly : row = ⟨1, 1, 1, some ⟨12, 0⟩, some 500000000, .active⟩ := List.mem_singleton.mp hrow
  rw [honly] at hspends
  exact absurd hspends (by decide)

end Crediting

end FirstIslamicCoin.StakingService
