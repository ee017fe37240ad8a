import FirstIslamicCoin.StakingService.Sequential

/-!
# What the functions of the service ask for

Run beside others, a function is known by the requests it makes.  A withdrawal goes
through stages: it reads the deposits, then their rewards, then pays within the sum of
the two, and closes the deposits after a payment that was answered.  The other functions
pay nothing and close nothing, and record no negative amount as long as the node reports
none.
-/

namespace FirstIslamicCoin.StakingService

open Program

section Disciplines

variable {Stage : Type} {discipline : Discipline Request Request.Response Stage} {stage : Stage}

/-- Calls that ask for no payment are allowed at a stage and do not leave it. -/
def StaysAt (discipline : Discipline Request Request.Response Stage) (stage : Stage) : Prop :=
  ∀ call : RpcCall, call.isQuiet = true → discipline.allowed stage (.rpc call) ∧
    ∀ reply, discipline.advance stage (.rpc call) reply = stage

theorem follows_tryCall (hstays : StaysAt discipline stage) {asked : RpcCall}
    (hquiet : asked.isQuiet = true) :
    (tryCall asked).Follows discipline
      (fun reply last => last = stage ∧ discipline.expected (.rpc asked) reply) stage :=
  ⟨(hstays asked hquiet).1, fun reply hexpected => ⟨(hstays asked hquiet).2 reply, hexpected⟩⟩

theorem follows_call (hstays : StaysAt discipline stage) {asked : RpcCall}
    (hquiet : asked.isQuiet = true) :
    (call asked).Follows discipline
      (fun result last => last = stage ∧ discipline.expected (.rpc asked) (.ok result)) stage := by
  refine ⟨(hstays asked hquiet).1, fun reply hexpected => ?_⟩
  cases reply with
  | ok result => exact ⟨(hstays asked hquiet).2 _, hexpected⟩
  | error error => trivial

theorem follows_ensurePoolWalletLoaded (config : PoolConfig) (hstays : StaysAt discipline stage) :
    (ensurePoolWalletLoaded config).Follows discipline (fun _ last => last = stage) stage := by
  refine follows_bind ((follows_call hstays rfl).mono ?_)
  rintro loaded _ ⟨rfl, _⟩
  split_ifs
  · rfl
  · refine follows_bind ((follows_tryCall hstays rfl).mono ?_)
    rintro reply _ ⟨rfl, _⟩
    cases reply with
    | ok _ => rfl
    | error error =>
      refine follows_bind ((follows_call hstays rfl).mono ?_)
      rintro onDisk _ ⟨rfl, _⟩
      split_ifs
      · trivial
      · exact follows_bind ((follows_call hstays rfl).mono fun _ _ hlast => hlast.1)

end Disciplines

section Withdrawing

/-- How far a withdrawal has come, with what it knows. -/
inductive Stage where
  | idle
  | read (rows : List StakeDeposit)
  | ready (available : ℤ)
  | owing
  | finished

/-- The requests of a withdrawal, stage by stage. -/
def withdrawDiscipline (userId : UserId) (amountSatoshis : ℤ) :
    Discipline Request Request.Response Stage where
  allowed stage request :=
    match stage with
    | .idle => request = .sql (.selectDeposits userId)
    | .read rows => request = .sql (.sumRewards ((activeRows rows).map StakeDeposit.id))
    | .ready available => (∃ call, request = .rpc call ∧ call.isQuiet = true) ∨
        ∃ toAddress, request = .rpc (.sendToAddress toAddress amountSatoshis) ∧
          amountSatoshis ≤ available
    | .owing => request = .sql (.closeDeposits userId)
    | .finished => False
  expected _ _ := True
  advance stage request response :=
    match stage, request, response with
    | .idle, .sql (.selectDeposits _), rows =>
        if (activeRows rows).isEmpty then .ready (delegatedOf rows) else .read rows
    | .read rows, .sql (.sumRewards _), total => .ready (Int.add (delegatedOf rows) total)
    | .ready _, .rpc (.sendToAddress _ _), .ok _ => .owing
    | .ready _, .rpc (.sendToAddress _ _), .error _ => .finished
    | .ready available, _, _ => .ready available
    | _, _, _ => .finished

variable {userId : UserId} {amountSatoshis available : ℤ}

theorem staysAt_ready : StaysAt (withdrawDiscipline userId amountSatoshis) (.ready available) := by
  intro asked hquiet
  refine ⟨.inl ⟨asked, rfl, hquiet⟩, fun reply => ?_⟩
  cases asked with
  | sendToAddress => exact absurd hquiet Bool.false_ne_true
  | _ => rfl

theorem follows_statusForUser (config : PoolConfig) :
    (statusForUser config userId).Follows (withdrawDiscipline userId amountSatoshis)
      (fun status last => last = .ready (status.delegatedAmount + status.accruedRewards))
      .idle := by
  refine ⟨rfl, fun rows _ => ?_⟩
  change (if (activeRows rows).isEmpty then _ else _ : Service StakingStatus).Follows _ _
    (if (activeRows rows).isEmpty then Stage.ready (delegatedOf rows) else .read rows)
  split_ifs
  · exact congrArg Stage.ready (add_zero _).symm
  · exact ⟨rfl, fun total _ => rfl⟩

/-- `withdraw` keeps to the discipline. -/
theorem follows_withdraw (config : PoolConfig) (toAddress : Address) :
    (Job.program config (.withdrawal userId amountSatoshis toAddress)).Follows
      (withdrawDiscipline userId amountSatoshis) (fun _ _ => True) .idle := by
  refine follows_bind (follows_bind ((follows_statusForUser config).mono ?_))
  rintro status _ rfl
  change (if status.delegatedAmount + status.accruedRewards < amountSatoshis then _ else _ :
    Service TxId).Follows _ _ _
  split_ifs with hexceeds
  · trivial
  · refine follows_bind ((follows_ensurePoolWalletLoaded config staysAt_ready).mono ?_)
    rintro _ _ rfl
    refine ⟨.inr ⟨toAddress, rfl, not_lt.mp hexceeds⟩, fun reply _ => ?_⟩
    cases reply with
    | error error => trivial
    | ok txid => exact ⟨rfl, fun _ _ => trivial⟩

end Withdrawing

section Watching

/-- A discipline without stages. -/
def steady (allowed : Request → Prop) (expected : (request : Request) → request.Response → Prop) :
    Discipline Request Request.Response Unit where
  allowed _ := allowed
  expected := expected
  advance _ _ _ := ()

/-- A statement that only reads. -/
def Statement.isQuery : Statement → Bool
  | .insertDeposit _ _ => false
  | .closeDeposits _ => false
  | .activateDeposit _ _ _ => false
  | .insertReward _ => false
  | _ => true

theorem execute_of_isQuery {statement : Statement} (hquery : statement.isQuery = true)
    (db : GatewayDB) : (db.execute statement).2 = db := by
  cases statement with
  | insertDeposit => exact absurd hquery Bool.false_ne_true
  | closeDeposits => exact absurd hquery Bool.false_ne_true
  | activateDeposit => exact absurd hquery Bool.false_ne_true
  | insertReward => exact absurd hquery Bool.false_ne_true
  | _ => rfl

variable (config : PoolConfig) (expected : (request : Request) → request.Response → Prop)

/-- The sum of the values of inputs, by the transactions the node shows for them. -/
inductive SumsInputs : List (Option OutPoint) → ℤ → Prop
  | nil : SumsInputs [] 0
  | cons {prevout : OutPoint} {prevtx : RawTx} {out : Vout} {rest : List (Option OutPoint)}
      {total : ℤ} : expected (.rpc (.getRawTransaction prevout.txid)) (.ok prevtx) →
      prevtx.vout[prevout.vout]? = some out → SumsInputs rest total →
        SumsInputs (some prevout :: rest) (config.fromNode out.value + total)

/-- What the functions other than `withdraw` ask for: they read, make calls that pay
nothing, open deposits, mark a deposit as funded by an output the node lists, and record
a reward for a coinstake the node shows. -/
structure WatchRules (allowed : Request → Prop) : Prop where
  quiet : ∀ call : RpcCall, call.isQuiet = true → allowed (.rpc call)
  query : ∀ statement : Statement, statement.isQuery = true → allowed (.sql statement)
  opens : ∀ userId address, allowed (.sql (.insertDeposit userId address))
  activates : ∀ address (utxos : List Unspent) u id,
    expected (.rpc (.listUnspent address)) (.ok utxos) → u ∈ utxos →
      allowed (.sql (.activateDeposit id u.outpoint (config.fromNode u.amount)))
  rewards : ∀ depositId txid (tx : RawTx) total,
    expected (.rpc (.getRawTransaction txid)) (.ok tx) → tx.isCoinstake = true →
      SumsInputs config expected tx.vin total →
        allowed (.sql (.insertReward (rewardRow config depositId txid (tx.outTotal config - total))))

variable {config expected} {allowed : Request → Prop}

theorem WatchRules.staysAt (hrules : WatchRules config expected allowed) :
    StaysAt (steady allowed expected) () :=
  fun call hquiet => ⟨hrules.quiet call hquiet, fun _ => rfl⟩

theorem follows_sql {statement : Statement} (hallowed : allowed (.sql statement)) :
    (sql statement).Follows (steady allowed expected)
      (fun rows _ => expected (.sql statement) rows) () :=
  ⟨hallowed, fun _ hexpected => hexpected⟩

section

variable (hrules : WatchRules config expected allowed)

include hrules

theorem WatchRules.follows_markFundedDeposits :
    (markFundedDeposits config).Follows (steady allowed expected) (fun _ _ => True) () := by
  refine follows_bind ((follows_ensurePoolWalletLoaded config hrules.staysAt).mono ?_)
  rintro _ _ rfl
  refine follows_bind ((follows_sql (hrules.query _ rfl)).mono fun pending _ _ => ?_)
  refine follows_foldEach (fun _ _ _ => True) (fun dep _ _ _ _ => ?_) trivial
  refine follows_bind ((follows_call hrules.staysAt rfl).mono ?_)
  rintro utxos _ ⟨rfl, hutxos⟩
  cases utxos with
  | nil => trivial
  | cons u others =>
    exact ⟨hrules.activates _ _ u dep.id hutxos List.mem_cons_self, fun _ _ => trivial⟩

/-- `in_total` is the value of the inputs. -/
theorem WatchRules.follows_inTotal (tx : RawTx) :
    (inTotal config tx).Follows (steady allowed expected)
      (fun total _ => SumsInputs config expected tx.vin total) () := by
  refine Follows.mono (follows_foldEach (fun items total _ => ∀ rest,
    SumsInputs config expected items rest → SumsInputs config expected tx.vin (total + rest))
      ?_ ?_) ?_
  · intro vin items total _ hinvariant
    cases vin with
    | none => trivial
    | some prevout =>
      refine follows_bind (follows_bind ((follows_call hrules.staysAt rfl).mono ?_))
      rintro prevtx _ ⟨rfl, hshown⟩
      split
      · trivial
      · rename_i out hout
        intro rest hrest
        rw [add_assoc]
        exact hinvariant _ (.cons hshown hout hrest)
  · intro rest hrest
    rw [zero_add]
    exact hrest
  · intro total _ hinvariant
    have hall := hinvariant 0 .nil
    rwa [add_zero] at hall

theorem WatchRules.follows_attributeReward (dep : StakeDeposit) (txid : TxId) :
    (attributeReward config dep txid).Follows (steady allowed expected) (fun _ _ => True) () := by
  refine follows_bind ((follows_sql (hrules.query _ rfl)).mono fun already _ _ => ?_)
  split_ifs
  · trivial
  · refine follows_bind ((follows_tryCall hrules.staysAt rfl).mono ?_)
    rintro reply _ ⟨rfl, hshown⟩
    cases reply with
    | error _ => trivial
    | ok tx =>
      dsimp only
      split_ifs with hspends
      · refine follows_bind ((hrules.follows_inTotal tx).mono fun total _ htotal => ?_)
        have hcoinstake := (Bool.and_eq_true_iff.mp hspends).1
        exact ⟨hrules.rewards dep.id txid tx total hshown hcoinstake htotal,
          fun _ _ => trivial⟩
      · trivial

theorem WatchRules.follows_attributeRewards :
    (attributeRewards config).Follows (steady allowed expected) (fun _ _ => True) () := by
  refine follows_bind ((follows_ensurePoolWalletLoaded config hrules.staysAt).mono ?_)
  rintro _ _ rfl
  refine follows_bind ((follows_sql (hrules.query _ rfl)).mono fun active _ _ => ?_)
  refine follows_foldEach (fun _ _ _ => True) (fun dep _ _ _ _ => ?_) trivial
  rw [attributeDeposit]
  split
  · trivial
  · refine follows_bind ((follows_tryCall hrules.staysAt rfl).mono ?_)
    rintro reply _ ⟨rfl, _⟩
    cases reply with
    | error _ => trivial
    | ok stillUnspent =>
      dsimp only
      split_ifs
      · trivial
      · refine follows_bind ((follows_call hrules.staysAt rfl).mono ?_)
        rintro history _ ⟨rfl, _⟩
        exact follows_foldEach (fun _ _ _ => True)
          (fun txid _ _ _ _ => hrules.follows_attributeReward dep txid) trivial

theorem WatchRules.follows_runWatcherPass :
    (runWatcherPass config).Follows (steady allowed expected) (fun _ _ => True) () :=
  follows_bind (hrules.follows_markFundedDeposits.mono fun _ _ _ =>
    hrules.follows_attributeRewards)

theorem WatchRules.follows_createDeposit (userId : UserId) :
    (createDeposit config userId).Follows (steady allowed expected) (fun _ _ => True) () := by
  refine follows_bind ((follows_ensurePoolWalletLoaded config hrules.staysAt).mono ?_)
  rintro _ _ rfl
  refine follows_bind ((follows_call hrules.staysAt rfl).mono ?_)
  rintro address _ ⟨rfl, _⟩
  refine follows_bind ((follows_sql (hrules.opens userId address)).mono fun inserted _ _ => ?_)
  cases inserted with
  | none => trivial
  | some id => exact follows_bind ((follows_call hrules.staysAt rfl).mono fun _ _ _ => trivial)

end

end Watching

section Nonneg

variable (config : PoolConfig) (world : TxId → Option RawTx)

/-- The value of the inputs of a transaction, each as it is read, when all are known. -/
def inputTotal (read : ℤ → ℤ) (world : TxId → Option RawTx) : List (Option OutPoint) → Option ℤ
  | [] => some 0
  | vin :: rest => do
      let prevout ← vin
      let prevtx ← world prevout.txid
      let out ← prevtx.vout[prevout.vout]?
      let total ← inputTotal read world rest
      return read out.value + total

def NonnegAmounts (utxos : List Unspent) : Prop := ∀ u ∈ utxos, 0 ≤ config.fromNode u.amount

/-- Requests that pay nothing, close nothing, and record no negative amount. -/
def WatchAllowed : Request → Prop
  | .sql (.closeDeposits _) => False
  | .sql (.activateDeposit _ _ amountSatoshis) => 0 ≤ amountSatoshis
  | .sql (.insertReward reward) => 0 ≤ reward.netRewardSatoshis
  | .rpc call => call.isQuiet = true
  | _ => True

/-- Replies in a world of known transactions. -/
def WatchExpected : (request : Request) → request.Response → Prop
  | .rpc (.listUnspent _), .ok utxos => NonnegAmounts config utxos
  | .rpc (.getRawTransaction txid), .ok tx => world txid = some tx
  | _, _ => True

def watchDiscipline : Discipline Request Request.Response Unit :=
  steady WatchAllowed (WatchExpected config world)

/-- What the node reports: the outputs it lists have amounts that are not negative, the
transactions it shows do not change, and a coinstake among them pays out no less than
it takes in. -/
structure NodeReports {Node : Type} (model : NodeModel Node) : Prop where
  listUnspent : ∀ node address utxos paid next,
    model.answers node (.listUnspent address) (.ok utxos) paid next → NonnegAmounts config utxos
  getRawTransaction : ∀ node txid tx paid next,
    model.answers node (.getRawTransaction txid) (.ok tx) paid next → world txid = some tx
  gains : ∀ txid tx total, world txid = some tx → tx.isCoinstake = true →
    inputTotal config.fromNode world tx.vin = some total → total ≤ tx.outTotal config

variable {config world}

theorem NodeReports.expected {Node : Type} {model : NodeModel Node}
    (hreports : NodeReports config world model) {position : ℕ} {job : Job}
    {store next : PoolStore Node} {request : Request} {response : request.Response}
    (hanswer : storeAnswers model position job store request response next) :
    WatchExpected config world request response := by
  cases request with
  | sql statement => trivial
  | rpc asked =>
    obtain ⟨paid, node, hnode, _⟩ := hanswer
    cases response with
    | error error => cases asked <;> trivial
    | ok result =>
      cases asked with
      | listUnspent address => exact hreports.listUnspent _ _ _ _ _ hnode
      | getRawTransaction txid => exact hreports.getRawTransaction _ _ _ _ _ hnode
      | _ => trivial

theorem SumsInputs.inputTotal_eq {expected : (request : Request) → request.Response → Prop}
    (hworld : ∀ txid (tx : RawTx),
      expected (.rpc (.getRawTransaction txid)) (.ok tx) → world txid = some tx)
    {vin : List (Option OutPoint)} {total : ℤ} (hsums : SumsInputs config expected vin total) :
    inputTotal config.fromNode world vin = some total := by
  induction hsums with
  | nil => rfl
  | cons hshown hout _ ih => simp [inputTotal, hworld _ _ hshown, hout, ih]

theorem netReward_nonneg (depositId : DepositId) (txid : TxId) {gross : ℤ} (hgross : 0 ≤ gross)
    (hfee : config.poolFeeBp ≤ 10000) :
    0 ≤ (rewardRow config depositId txid gross).netRewardSatoshis := by
  have hle : gross * config.poolFeeBp / 10000 ≤ gross := by
    refine (Int.ediv_le_ediv (by decide) (Int.mul_le_mul_of_nonneg_left hfee hgross)).trans ?_
    exact (Int.mul_ediv_cancel gross (by decide)).le
  exact sub_nonneg.mpr hle

theorem NodeReports.watchRules {Node : Type} {model : NodeModel Node}
    (hreports : NodeReports config world model) (hfee : config.poolFeeBp ≤ 10000) :
    WatchRules config (WatchExpected config world) WatchAllowed where
  quiet _ hquiet := hquiet
  query := by
    intro statement hquery
    cases statement with
    | closeDeposits => exact absurd hquery Bool.false_ne_true
    | activateDeposit => exact absurd hquery Bool.false_ne_true
    | insertReward => exact absurd hquery Bool.false_ne_true
    | _ => trivial
  opens _ _ := trivial
  activates _ _ u _ hutxos hmem := hutxos u hmem
  rewards := by
    intro depositId txid tx total hshown hcoinstake htotal
    have hgross := hreports.gains txid tx total hshown hcoinstake
      (htotal.inputTotal_eq fun _ _ hprevtx => hprevtx)
    exact netReward_nonneg depositId txid (sub_nonneg.mpr hgross) hfee

end Nonneg

end FirstIslamicCoin.StakingService
