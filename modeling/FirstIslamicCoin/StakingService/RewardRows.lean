import FirstIslamicCoin.StakingService.WatcherPass
import FirstIslamicCoin.StakingService.Overpayment

/-!
# The rows of `stake_rewards`

Passes of the watcher may overlap.  The test for a row and the insert are two statements,
and the constraint on `coinstake_txid` alone keeps a coinstake from being credited twice.
The deposit a row belongs to is another matter: a pass marks the deposits it has once read
as waiting, whatever has become of them, and so replaces the funding output another pass
has recorded, and has used.
-/

namespace FirstIslamicCoin.StakingService

open Program

section Rows

variable (config : PoolConfig) (world : TxId → Option RawTx)

/-- A row records what a coinstake gained, divided between the depositor and the pool. -/
structure SplitsReward (reward : StakeReward) (tx : RawTx) : Prop where
  shown : world reward.coinstakeTxid = some tx
  coinstake : tx.isCoinstake = true
  gross : ∃ total, inputTotal id world tx.vin = some total ∧
    reward.grossRewardSatoshis = tx.valueOut - total
  split : reward.netRewardSatoshis + reward.poolFeeSatoshis = reward.grossRewardSatoshis
  fee : 0 ≤ config.poolFeeBp → config.poolFeeBp ≤ 10000 → 0 ≤ reward.grossRewardSatoshis →
    0 ≤ reward.poolFeeSatoshis ∧ reward.poolFeeSatoshis ≤ reward.grossRewardSatoshis

/-- A coinstake has at most one row, and every row is right about its coinstake. -/
structure CreditedOnce (db : GatewayDB) : Prop where
  once : (db.rewards.map StakeReward.coinstakeTxid).Nodup
  splits : ∀ reward ∈ db.rewards, ∃ tx, SplitsReward config world reward tx

/-- Every row belongs to a deposit whose funding output its coinstake spends. -/
def BelongsToFunding (db : GatewayDB) : Prop :=
  ∀ reward ∈ db.rewards, ∃ row ∈ db.deposits, row.id = reward.depositId ∧
    ∃ tx, world reward.coinstakeTxid = some tx ∧ row.funding.any tx.spends = true

/-- The node shows the transactions of one world, at any time. -/
def ShowsTransactions {Node : Type} (model : NodeModel Node) : Prop :=
  ∀ node txid tx paid next, model.answers node (.getRawTransaction txid) (.ok tx) paid next →
    world txid = some tx

variable {config world}

section

variable (hexact : ∀ amount, config.fromNode amount = amount)

include hexact

theorem outTotal_of_exact (tx : RawTx) :
    tx.outTotal config = tx.valueOut :=
  congrArg List.sum (List.map_congr_left fun out _ => hexact out.value)

/-- The row a pass writes. -/
theorem splitsReward_rewardRow (depositId : DepositId) {txid : TxId} {tx : RawTx} {total : ℤ}
    (hshown : world txid = some tx) (hcoinstake : tx.isCoinstake = true)
    (htotal : inputTotal config.fromNode world tx.vin = some total) :
    SplitsReward config world (rewardRow config depositId txid (tx.outTotal config - total)) tx where
  shown := hshown
  coinstake := hcoinstake
  gross := by
    have hread : config.fromNode = id := funext hexact
    exact ⟨total, hread ▸ htotal, by rw [rewardRow, outTotal_of_exact hexact]⟩
  split := sub_add_cancel _ _
  fee := by
    intro hnonneg hle hgross
    exact ⟨Int.ediv_nonneg (mul_nonneg hgross hnonneg) (by decide),
      sub_nonneg.mp (netReward_nonneg depositId txid hgross hle)⟩

end

/-- A new row for a coinstake that has none. -/
theorem CreditedOnce.insertReward {db : GatewayDB} (hcredited : CreditedOnce config world db)
    {added : StakeReward} {tx : RawTx} (hsplits : SplitsReward config world added tx) :
    CreditedOnce config world (db.execute (.insertReward added)).2 := by
  rw [GatewayDB.execute]
  split_ifs with hknown
  · exact hcredited
  · refine ⟨?_, ?_⟩
    · rw [List.map_append, List.map_singleton, List.nodup_append]
      refine ⟨hcredited.once, List.nodup_singleton _, ?_⟩
      rintro txid hmem last hlast rfl
      obtain ⟨reward, hreward, heq⟩ := List.mem_map.mp hmem
      refine hknown (List.any_eq_true.mpr ⟨reward, hreward, decide_eq_true ?_⟩)
      rw [heq, List.mem_singleton.mp hlast]
    · intro reward hmem
      rcases List.mem_append.mp hmem with hbefore | hlast
      · exact hcredited.splits reward hbefore
      · rw [List.mem_singleton.mp hlast]
        exact ⟨tx, hsplits⟩

theorem BelongsToFunding.insertReward {db : GatewayDB} (hbelongs : BelongsToFunding world db)
    {added : StakeReward} {tx : RawTx} {row : StakeDeposit} (hrow : row ∈ db.deposits)
    (hid : row.id = added.depositId) (hshown : world added.coinstakeTxid = some tx)
    (hspends : row.funding.any tx.spends = true) :
    BelongsToFunding world (db.execute (.insertReward added)).2 := by
  intro reward hmem
  rw [deposits_insertReward]
  rcases mem_rewards_insertReward hmem with hbefore | rfl
  · exact hbelongs reward hbefore
  · exact ⟨row, hrow, hid, tx, hshown, hspends⟩

end Rows

section AnyNode

variable {Node : Type} (config : PoolConfig) (world : TxId → Option RawTx)

/-- A deposit is marked as funded only if no other output is recorded for it. -/
def MarksOnce (store : PoolStore Node) (request : Request) : Prop :=
  ∀ id funding amountSatoshis, request = .sql (.activateDeposit id funding amountSatoshis) →
    ∀ row ∈ store.db.deposits, row.id = id → row.funding = none ∨ row.funding = some funding

def MarkingStep (model : NodeModel Node) (system : PoolSystem Node) (label : ℕ × Request)
    (next : PoolSystem Node) : Prop :=
  Interleaves (storeAnswers model) system label next ∧ MarksOnce system.store label.2

/-- What passes leave true of the rows; the funding outputs stay when they are marked
once. -/
structure KeepsCredits (careful : Prop) (store later : PoolStore Node) : Prop where
  recorded : ∀ txid, Recorded txid store.db → Recorded txid later.db
  credited : CreditedOnce config world store.db → CreditedOnce config world later.db
  funded : careful → ∀ row ∈ store.db.deposits, ∀ funding, row.funding = some funding →
    ∃ kept ∈ later.db.deposits, kept.id = row.id ∧ kept.funding = some funding
  belongs : careful → BelongsToFunding world store.db → BelongsToFunding world later.db

/-- How a node that may do anything answers a pass. -/
def anyAnswers (model : NodeModel Node) (careful : Prop) (position : ℕ) (job : Job)
    (store : PoolStore Node) (request : Request) (response : request.Response)
    (next : PoolStore Node) : Prop :=
  storeAnswers model position job store request response next ∧
    (careful → MarksOnce store request)

/-- The node shows known transactions. -/
def ShownIn : (request : Request) → request.Response → Prop
  | .rpc (.getRawTransaction txid), .ok tx => world txid = some tx
  | _, _ => True

variable {config world} {careful : Prop} {store later : PoolStore Node}

theorem KeepsCredits.of_db_eq (hdb : later.db = store.db) :
    KeepsCredits config world careful store later where
  recorded _ hrecorded := by rwa [hdb]
  credited hcredited := by rwa [hdb]
  funded _ row hrow funding hfunding := ⟨row, by rwa [hdb], rfl, hfunding⟩
  belongs _ hbelongs := by rwa [hdb]

theorem KeepsCredits.trans {last : PoolStore Node}
    (hfirst : KeepsCredits config world careful store later)
    (hsecond : KeepsCredits config world careful later last) :
    KeepsCredits config world careful store last where
  recorded txid hrecorded := hsecond.recorded txid (hfirst.recorded txid hrecorded)
  credited hcredited := hsecond.credited (hfirst.credited hcredited)
  funded hcareful row hrow funding hfunding := by
    obtain ⟨kept, hkept, hid, hsame⟩ := hfirst.funded hcareful row hrow funding hfunding
    obtain ⟨latest, hlatest, hidToo, hsameToo⟩ := hsecond.funded hcareful kept hkept funding hsame
    exact ⟨latest, hlatest, hidToo.trans hid, hsameToo⟩
  belongs hcareful hbelongs := hsecond.belongs hcareful (hfirst.belongs hcareful hbelongs)

/-- Marking a deposit again with the output it has. -/
theorem exists_activated_of_marksOnce {id : DepositId} {funding : OutPoint} {amountSatoshis : ℤ}
    (honce : MarksOnce store (.sql (.activateDeposit id funding amountSatoshis)))
    {row : StakeDeposit} (hrow : row ∈ store.db.deposits) {recorded : OutPoint}
    (hrecorded : row.funding = some recorded) :
    ∃ kept ∈ (store.db.updated (.activated id funding amountSatoshis)).deposits,
      kept.id = row.id ∧ kept.funding = some recorded := by
  refine ⟨_, List.mem_map.mpr ⟨row, hrow, rfl⟩,
    (keepsRow_activated id funding amountSatoshis).id_eq row, ?_⟩
  rw [StakeDeposit.activated]
  split_ifs with hid
  · rcases honce id funding amountSatoshis rfl row hrow hid with hnone | hsame
    · cases hnone.symm.trans hrecorded
    · exact hsame.symm.trans hrecorded
  · exact hrecorded

theorem KeepsCredits.activated {id : DepositId} {funding : OutPoint} {amountSatoshis : ℤ}
    (honce : careful → MarksOnce store (.sql (.activateDeposit id funding amountSatoshis)))
    (hdb : later.db = store.db.updated (.activated id funding amountSatoshis)) :
    KeepsCredits config world careful store later where
  recorded txid hrecorded := by
    rw [hdb]
    exact hrecorded
  credited hcredited := by
    rw [hdb]
    exact ⟨hcredited.once, hcredited.splits⟩
  funded hcareful row hrow recorded hrecorded := by
    rw [hdb]
    exact exists_activated_of_marksOnce (honce hcareful) hrow hrecorded
  belongs hcareful hbelongs := by
    intro reward hreward
    rw [hdb] at hreward ⊢
    obtain ⟨row, hrow, hid, tx, hshown, hspends⟩ := hbelongs reward hreward
    obtain ⟨recorded, hrecorded, hspent⟩ := (Option.any_eq_true _ _).mp hspends
    obtain ⟨kept, hkept, hidToo, hsame⟩ :=
      exists_activated_of_marksOnce (honce hcareful) hrow hrecorded
    refine ⟨kept, hkept, hidToo.trans hid, tx, hshown, ?_⟩
    rw [hsame]
    exact hspent

theorem KeepsCredits.insertReward {added : StakeReward} {tx : RawTx} {dep : StakeDeposit}
    {read : PoolStore Node} (hread : KeepsCredits config world careful read store)
    (hdep : dep ∈ read.db.deposits) (hid : dep.id = added.depositId)
    (hspends : dep.funding.any tx.spends = true) (hsplits : SplitsReward config world added tx)
    (hdb : later.db = (store.db.execute (.insertReward added)).2) :
    KeepsCredits config world careful store later where
  recorded txid hrecorded := by
    rw [hdb]
    exact hrecorded.insertReward added
  credited hcredited := by
    rw [hdb]
    exact hcredited.insertReward hsplits
  funded _ row hrow funding hfunding := by
    refine ⟨row, ?_, rfl, hfunding⟩
    rw [hdb, deposits_insertReward]
    exact hrow
  belongs hcareful hbelongs := by
    obtain ⟨funding, hfunding, hspent⟩ := (Option.any_eq_true _ _).mp hspends
    obtain ⟨kept, hkept, hkeptId, hkeptFunding⟩ := hread.funded hcareful dep hdep funding hfunding
    rw [hdb]
    refine hbelongs.insertReward hkept (hkeptId.trans hid) hsplits.shown ?_
    rw [hkeptFunding]
    exact hspent

theorem passRules_anyAnswers (hexact : ∀ amount, config.fromNode amount = amount)
    {model : NodeModel Node} (hshows : ShowsTransactions world model) (position : ℕ) (job : Job) :
    PassRules config (ShownIn world) (anyAnswers model careful position job) (fun _ => True)
      (KeepsCredits config world careful) (fun _ _ => True) where
  refl _ := .of_db_eq rfl
  trans _ _ _ hfirst hsecond := hfirst.trans hsecond
  good_later _ _ _ _ := trivial
  statements := by
    rintro store statement rows next ⟨⟨hrows, rfl⟩, _⟩
    exact ⟨hrows, rfl⟩
  quiet := by
    rintro store call reply next _ ⟨⟨paid, node, hanswer, rfl⟩, _⟩
    refine ⟨.of_db_eq rfl, ?_⟩
    cases reply with
    | error error => cases call <;> trivial
    | ok result =>
      cases call with
      | getRawTransaction txid => exact hshows _ _ _ _ _ hanswer
      | _ => trivial
  query := by
    rintro store statement rows next hquery ⟨⟨_, rfl⟩, _⟩
    exact .of_db_eq (execute_of_isQuery hquery _)
  activates := by
    rintro read store dep u others rows next _ _ _ _ _ ⟨⟨_, rfl⟩, honce⟩
    exact ⟨.activated honce rfl, trivial⟩
  unlisted _ _ _ _ _ _ _ := trivial
  marked_later _ _ _ _ _ := trivial
  records := by
    rintro read store dep txid tx total rows next _ hread hdep _ hdue ⟨⟨_, rfl⟩, _⟩
    have htotal := hdue.total.inputTotal_eq fun _ _ hshown => hshown
    exact .insertReward hread hdep rfl hdue.spends
      (splitsReward_rewardRow hexact dep.id hdue.shown hdue.coinstake htotal) rfl
  recorded_later txid _ _ hrecorded hkeeps := hkeeps.recorded txid hrecorded

def watching (config : PoolConfig) (count : ℕ) (db : GatewayDB) (node : Node) : PoolSystem Node :=
  launched config (List.replicate count .watch) db node

theorem program_of_watching {count : ℕ} {db : GatewayDB} {node : Node} {position : ℕ}
    {thread : PoolThread}
    (hget : (watching config count db node).threads[position]? = some thread) :
    thread.program = runWatcherPass config := by
  obtain ⟨job, hjob, rfl⟩ := List.mem_map.mp (List.mem_of_getElem? hget)
  rw [List.eq_of_mem_replicate hjob]
  rfl

theorem keepsCredits_of_run (hexact : ∀ amount, config.fromNode amount = amount)
    {model : NodeModel Node} (hshows : ShowsTransactions world model) {count : ℕ} {db : GatewayDB}
    {node : Node} {labels : List (ℕ × Request)} {system : PoolSystem Node}
    (hrun : Run (Interleaves (anyAnswers model careful)) (watching config count db node) labels
      system) :
    KeepsCredits config world careful ⟨db, node, []⟩ system.store := by
  have hstart : AllSustain (anyAnswers model careful) (KeepsCredits config world careful)
      (fun _ _ final => Completed (ShownIn world) (fun _ => True)
        (KeepsCredits config world careful) (fun _ _ => True) final)
      (watching config count db node) := by
    intro position thread hget
    rw [program_of_watching hget]
    exact (passRules_anyAnswers hexact hshows position thread.client).sustains_runWatcherPass
      trivial
  exact (hstart.run (fun _ => .of_db_eq rfl) (fun _ _ _ hfirst hsecond => hfirst.trans hsecond)
    hrun).1

end AnyNode

end FirstIslamicCoin.StakingService
