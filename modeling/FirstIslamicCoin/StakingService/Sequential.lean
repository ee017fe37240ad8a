import FirstIslamicCoin.StakingService.Ledger

/-!
# The functions of the service, run alone

What each function does to the tables and the payments when nothing runs beside it.
-/

namespace FirstIslamicCoin.StakingService

open Program

section Calls

variable {Node : Type} {config : PoolConfig} {model : NodeModel Node} {position : ℕ} {job : Job}

/-- A call that does not ask for a payment. -/
def RpcCall.isQuiet : RpcCall → Bool
  | .sendToAddress _ _ => false
  | _ => true

/-- Such a call changes nothing but the node. -/
theorem NodePays.quiet (hpays : NodePays config model) {call : RpcCall}
    (hquiet : call.isQuiet = true) {store next : PoolStore Node}
    {reply : (Request.rpc call).Response}
    (hanswer : storeAnswers model position job store (.rpc call) reply next) :
    next.db = store.db ∧ next.payments = store.payments := by
  obtain ⟨paid, node, hnode, rfl⟩ := hanswer
  cases paid with
  | none =>
    refine ⟨rfl, ?_⟩
    cases job <;> exact List.append_nil _
  | some amount =>
    obtain ⟨_, _, rfl, _⟩ := hpays.asked _ _ _ _ _ hnode
    exact absurd hquiet Bool.false_ne_true

/-- An invariant of the tables and the payments. -/
def Booked (property : GatewayDB → List Payment → Prop) (store : PoolStore Node) : Prop :=
  property store.db store.payments

variable {property : GatewayDB → List Payment → Prop}

theorem keeps_tryCall (hpays : NodePays config model) {asked : RpcCall}
    (hquiet : asked.isQuiet = true) :
    Keeps (storeAnswers model position job) (Booked property) (tryCall asked) := by
  refine keeps_ask (fun store reply next hstore hanswer => ?_) fun _ => keeps_done _
  obtain ⟨hdb, hpayments⟩ := hpays.quiet hquiet hanswer
  rwa [Booked, hdb, hpayments]

theorem keeps_call (hpays : NodePays config model) {asked : RpcCall}
    (hquiet : asked.isQuiet = true) :
    Keeps (storeAnswers model position job) (Booked property) (call asked) := by
  refine keeps_ask (fun store reply next hstore hanswer => ?_) fun reply => ?_
  · obtain ⟨hdb, hpayments⟩ := hpays.quiet hquiet hanswer
    rwa [Booked, hdb, hpayments]
  · cases reply with
    | ok result => exact keeps_done _
    | error error => exact keeps_fail _

/-- A statement keeps an invariant that its effect on the tables keeps. -/
theorem keeps_sql {statement : Statement} (hexecute : ∀ db payments, property db payments →
      property (db.execute statement).2 (settlePayments position statement payments)) :
    Keeps (storeAnswers model position job) (Booked property) (sql statement) := by
  refine keeps_ask (fun store rows next hstore hanswer => ?_) fun _ => keeps_done _
  obtain ⟨_, rfl⟩ := hanswer
  exact hexecute _ _ hstore

theorem keeps_ensurePoolWalletLoaded (hpays : NodePays config model) :
    Keeps (storeAnswers model position job) (Booked property) (ensurePoolWalletLoaded config) := by
  refine keeps_bind (keeps_call hpays rfl) fun loaded => ?_
  split_ifs
  · exact keeps_done _
  · refine keeps_bind (keeps_tryCall hpays rfl) fun reply => ?_
    cases reply with
    | ok _ => exact keeps_done _
    | error error =>
      refine keeps_bind (keeps_call hpays rfl) fun onDisk => ?_
      split_ifs
      · exact keeps_fail _
      · exact keeps_bind (keeps_call hpays rfl) fun _ => keeps_done _

end Calls

section Books

/-- Rewards belong to deposits that were funded. -/
structure GatewayDB.Consistent (db : GatewayDB) : Prop extends db.Sound where
  rewarded : ∀ reward ∈ db.rewards, ∃ row ∈ db.deposits,
    row.id = reward.depositId ∧ row.status ≠ .awaitingFunds

variable {db : GatewayDB} {userId : UserId}

/-- Two deposits with one id are the same. -/
theorem GatewayDB.Sound.eq_of_id_eq (hsound : db.Sound) {row other : StakeDeposit}
    (hrow : row ∈ db.deposits) (hother : other ∈ db.deposits) (hid : row.id = other.id) :
    row = other :=
  List.inj_on_of_nodup_map hsound.nodup hrow hother hid

theorem rewardsOf_eq_zero {id : DepositId} (hnone : ∀ reward ∈ db.rewards, reward.depositId ≠ id) :
    db.rewardsOf id = 0 := by
  have hempty : db.rewards.filter (fun reward => reward.depositId = id) = [] := by
    rw [List.filter_eq_nil_iff]
    intro reward hmem
    simpa using hnone reward hmem
  rw [GatewayDB.rewardsOf, hempty]
  rfl

section

variable (hdb : db.Consistent)

include hdb

/-- Nothing is credited before a deposit is funded. -/
theorem GatewayDB.Consistent.early_eq_zero (userId : UserId) :
    db.early userId = 0 := by
  have hzero : db.early userId = db.userSum userId fun _ => 0 := by
    refine userSum_congr fun row hmem => ?_
    split_ifs with hawaiting
    · refine rewardsOf_eq_zero fun reward hreward hid => ?_
      obtain ⟨funded, hfunded, heq, hstatus⟩ := hdb.rewarded reward hreward
      have hsame := hdb.toSound.eq_of_id_eq hfunded (mem_deposits_of_mem_userRows hmem)
        (heq.trans hid)
      exact hstatus (hsame ▸ hawaiting)
    · rfl
  rw [hzero]
  simp [GatewayDB.userSum]

theorem GatewayDB.Consistent.opened (userId : UserId) (address : Address) :
    (db.opened userId address).Consistent where
  toSound := sound_opened hdb.toSound userId address
  rewarded := by
    intro reward hmem
    obtain ⟨row, hrow, hid, hstatus⟩ := hdb.rewarded reward hmem
    exact ⟨row, List.mem_append_left _ hrow, hid, hstatus⟩

/-- An update after which no funded deposit awaits funds. -/
theorem GatewayDB.Consistent.updated {update : StakeDeposit → StakeDeposit}
    (hkeeps : KeepsRow update)
    (hfunded : ∀ row, row.status ≠ .awaitingFunds → (update row).status ≠ .awaitingFunds) :
    (db.updated update).Consistent where
  toSound := hkeeps.sound_updated hdb.toSound
  rewarded := by
    intro reward hmem
    obtain ⟨row, hrow, hid, hstatus⟩ := hdb.rewarded reward hmem
    exact ⟨update row, List.mem_map.mpr ⟨row, hrow, rfl⟩, (hkeeps.id_eq row).trans hid,
      hfunded row hstatus⟩

theorem GatewayDB.Consistent.closed (userId : UserId) :
    (db.updated (.closed userId)).Consistent := by
  refine hdb.updated (keepsRow_closed userId) fun row hstatus => ?_
  rw [StakeDeposit.closed]
  split_ifs
  · simp
  · exact hstatus

theorem GatewayDB.Consistent.activated (id : DepositId) (funding : OutPoint) (amountSatoshis : ℤ) :
    (db.updated (.activated id funding amountSatoshis)).Consistent := by
  refine hdb.updated (keepsRow_activated id funding amountSatoshis) fun row hstatus => ?_
  rw [StakeDeposit.activated]
  split_ifs
  · simp
  · exact hstatus

theorem GatewayDB.Consistent.rewarding {reward : StakeReward} {row : StakeDeposit}
    (hrow : row ∈ db.deposits) (hid : row.id = reward.depositId) (hactive : row.status = .active) :
    (db.rewarded reward).Consistent where
  nodup := hdb.nodup
  lt_nextId := hdb.lt_nextId
  rewarded := by
    intro other hmem
    rcases List.mem_append.mp hmem with hbefore | hnew
    · exact hdb.rewarded other hbefore
    · rw [List.mem_singleton.mp hnew]
      exact ⟨row, hrow, hid, by rw [hactive]; exact nofun⟩

end

/-- A reward of a deposit that is not withdrawn takes nothing out. -/
theorem taken_rewarded {reward : StakeReward}
    (hopen : ∀ row ∈ db.deposits, row.id = reward.depositId → row.status ≠ .withdrawn)
    (userId : UserId) : (db.rewarded reward).taken userId = db.taken userId := by
  rw [GatewayDB.taken, GatewayDB.taken]
  refine @userSum_congr db userId _ _ fun row hmem => ?_
  rw [GatewayDB.takenBy, GatewayDB.takenBy, rewardsOf_rewarded]
  split_ifs with hwithdrawn hid
  · exact absurd hwithdrawn (hopen row (mem_deposits_of_mem_userRows hmem) hid.symm)
  · rw [add_zero]
  · rfl

end Books

section Specs

variable {Node : Type} {config : PoolConfig} {model : NodeModel Node} {position : ℕ} {job : Job}

/-- The tables are consistent, and a user has been paid and has taken out given sums. -/
def Balanced (userId : UserId) (taken paid : ℤ) (db : GatewayDB) (payments : List Payment) :
    Prop :=
  db.Consistent ∧ db.taken userId = taken ∧ totalPaid payments userId = paid

variable {userId : UserId} {taken paid : ℤ}

/-- The rows of a list await funds, each at most once. -/
def Awaiting (rows : List StakeDeposit) (db : GatewayDB) : Prop :=
  (rows.map StakeDeposit.id).Nodup ∧ ∀ row ∈ rows, row ∈ db.deposits ∧ row.status = .awaitingFunds

theorem Balanced.activated {db : GatewayDB} {payments : List Payment} {dep : StakeDeposit}
    {rows : List StakeDeposit} (hbalanced : Balanced userId taken paid db payments)
    (hawaiting : Awaiting (dep :: rows) db) (funding : OutPoint) (amountSatoshis : ℤ) :
    Balanced userId taken paid (db.updated (.activated dep.id funding amountSatoshis)) payments ∧
      Awaiting rows (db.updated (.activated dep.id funding amountSatoshis)) := by
  obtain ⟨hdb, htaken, hpaid⟩ := hbalanced
  obtain ⟨hnodup, hrows⟩ := hawaiting
  obtain ⟨hnotMem, hothers⟩ := List.nodup_cons.mp hnodup
  obtain ⟨⟨hmem, hstatus⟩, hlater⟩ := List.forall_mem_cons.mp hrows
  refine ⟨⟨hdb.activated _ _ _, ?_, hpaid⟩, hothers, fun row hrow => ⟨?_, (hlater row hrow).2⟩⟩
  · rw [taken_activated funding amountSatoshis, htaken]
    intro row hrow hid
    rw [hdb.toSound.eq_of_id_eq hrow hmem hid]
    exact hstatus
  · -- the rows still to come have other ids and are not touched
    refine List.mem_map.mpr ⟨row, (hlater row hrow).1, ?_⟩
    have hid : row.id ≠ dep.id := fun heq =>
      hnotMem (heq ▸ List.mem_map.mpr ⟨row, hrow, rfl⟩)
    rw [StakeDeposit.activated, if_neg hid]

/-- `_mark_funded_deposits` takes nothing out. -/
theorem keeps_markFundedDeposits (hpays : NodePays config model) :
    Keeps (storeAnswers model position job) (Booked (Balanced userId taken paid))
      (markFundedDeposits config) := by
  refine keeps_bind (keeps_ensurePoolWalletLoaded hpays) fun _ => ?_
  intro store hstore rows next hanswer
  obtain ⟨rfl, rfl⟩ := hanswer
  have hinitial : Awaiting (store.db.deposits.filter fun row => row.status = .awaitingFunds)
      store.db := by
    refine ⟨hstore.1.nodup.sublist (List.filter_sublist.map _), fun row hmem => ?_⟩
    obtain ⟨hrow, hstatus⟩ := List.mem_filter.mp hmem
    exact ⟨hrow, by simpa using hstatus⟩
  refine Ensures.mono (ensures_foldEach
    (fun items _ current => Booked (Balanced userId taken paid) current ∧ Awaiting items current.db)
    (fun _ current => Booked (Balanced userId taken paid) current) ?_ ⟨hstore, hinitial⟩) ?_
  · rintro dep items _ current ⟨hcurrent, hawaiting⟩
    intro reply after hcall
    obtain ⟨hdb, hpayments⟩ := hpays.quiet rfl hcall
    have hafter : Booked (Balanced userId taken paid) after := by
      rwa [Booked, hdb, hpayments]
    have hstill : Awaiting (dep :: items) after.db := by rwa [hdb]
    cases reply with
    | error error => exact hafter
    | ok utxos =>
      cases utxos with
      | nil =>
        exact ⟨hafter, (List.nodup_cons.mp hstill.1).2,
          (List.forall_mem_cons.mp hstill.2).2⟩
      | cons u others =>
        rintro _ final ⟨_, rfl⟩
        exact Balanced.activated hafter hstill u.outpoint (config.fromNode u.amount)
  · intro outcome final hfinal
    cases outcome with
    | ok _ => exact hfinal.1
    | error _ => exact hfinal

/-- Every row of a list is an active deposit. -/
def AllActive (rows : List StakeDeposit) (db : GatewayDB) : Prop :=
  ∀ row ∈ rows, row ∈ db.deposits ∧ row.status = .active

/-- An invariant that new rewards of some active deposits keep. -/
def KeptByRewards (rows : List StakeDeposit) (property : GatewayDB → List Payment → Prop) :
    Prop :=
  ∀ db payments row reward, row ∈ rows → row.id = reward.depositId → property db payments →
    property (db.rewarded reward) payments

variable {rows : List StakeDeposit} {property : GatewayDB → List Payment → Prop}

theorem keeps_insertReward (hkept : KeptByRewards rows property) {row : StakeDeposit}
    (hrow : row ∈ rows) {reward : StakeReward} (hid : row.id = reward.depositId) :
    Keeps (storeAnswers model position job) (Booked property) (sql (.insertReward reward)) := by
  refine keeps_sql fun db payments hproperty => ?_
  rcases execute_cases db (.insertReward reward) with
    hsame | ⟨_, _, heq, _⟩ | ⟨_, heq, _⟩ | ⟨_, _, _, heq, _⟩ | ⟨other, heq, hdb⟩
  · rw [hsame]
    exact hproperty
  · exact absurd heq nofun
  · exact absurd heq nofun
  · exact absurd heq nofun
  · obtain rfl := Statement.insertReward.inj heq
    rw [hdb]
    exact hkept db payments row reward hrow hid hproperty

section

variable (hpays : NodePays config model)

include hpays

theorem keeps_inTotal (tx : RawTx) :
    Keeps (storeAnswers model position job) (Booked property) (inTotal config tx) := by
  refine keeps_foldEach (fun vin _ total => keeps_bind ?_ fun _ => keeps_done _) 0
  cases vin with
  | none => exact keeps_fail _
  | some prevout =>
    refine keeps_bind (keeps_call hpays rfl) fun prevtx => ?_
    split
    · exact keeps_fail _
    · exact keeps_done _

theorem keeps_attributeReward (hkept : KeptByRewards rows property) {dep : StakeDeposit}
    (hdep : dep ∈ rows) (txid : TxId) :
    Keeps (storeAnswers model position job) (Booked property)
      (attributeReward config dep txid) := by
  refine keeps_bind (keeps_sql fun _ _ hproperty => hproperty) fun already => ?_
  split_ifs
  · exact keeps_done _
  · refine keeps_bind (keeps_tryCall hpays rfl) fun reply => ?_
    cases reply with
    | error _ => exact keeps_done _
    | ok tx =>
      dsimp only
      split_ifs
      · exact keeps_bind (keeps_inTotal hpays tx) fun total =>
          keeps_insertReward hkept hdep rfl
      · exact keeps_done _

theorem keeps_attributeDeposit (hkept : KeptByRewards rows property) {dep : StakeDeposit}
    (hdep : dep ∈ rows) :
    Keeps (storeAnswers model position job) (Booked property) (attributeDeposit config dep) := by
  rw [attributeDeposit]
  split
  · exact keeps_done _
  · refine keeps_bind (keeps_tryCall hpays rfl) fun reply => ?_
    cases reply with
    | error _ => exact keeps_done _
    | ok stillUnspent =>
      dsimp only
      split_ifs
      · exact keeps_done _
      · exact keeps_bind (keeps_call hpays rfl) fun history =>
          keeps_foldEach (fun txid _ _ => keeps_attributeReward hpays hkept hdep txid) ()

/-- `_attribute_rewards` keeps what rewards of the active deposits keep. -/
theorem keeps_attributeRewards (hkept : ∀ rows, KeptByRewards rows fun db payments =>
      AllActive rows db ∧ property db payments) :
    Keeps (storeAnswers model position job) (Booked property) (attributeRewards config) := by
  refine keeps_bind (keeps_ensurePoolWalletLoaded hpays) fun _ => ?_
  intro store hstore rows next hanswer
  obtain ⟨rfl, rfl⟩ := hanswer
  have hactive : AllActive (store.db.deposits.filter fun row => row.status = .active) store.db := by
    intro row hmem
    obtain ⟨hrow, hstatus⟩ := List.mem_filter.mp hmem
    exact ⟨hrow, by simpa using hstatus⟩
  refine Ensures.mono (keeps_foldEach (fun dep hdep _ =>
    keeps_attributeDeposit hpays (hkept _) hdep) () _ ⟨hactive, hstore⟩) ?_
  exact fun _ _ hfinal => hfinal.2

end

theorem keptByRewards_balanced (rows : List StakeDeposit) :
    KeptByRewards rows fun db payments =>
      AllActive rows db ∧ Balanced userId taken paid db payments := by
  rintro db payments row reward hrow hid ⟨hactive, hdb, htaken, hpaid⟩
  obtain ⟨hmem, hstatus⟩ := hactive row hrow
  refine ⟨hactive, hdb.rewarding hmem hid hstatus, ?_, hpaid⟩
  rw [taken_rewarded ?_ userId, htaken]
  intro other hother heq
  rw [hdb.toSound.eq_of_id_eq hother hmem (heq.trans hid.symm), hstatus]
  exact nofun

theorem keeps_runWatcherPass (hpays : NodePays config model) :
    Keeps (storeAnswers model position job) (Booked (Balanced userId taken paid))
      (runWatcherPass config) :=
  keeps_bind (keeps_markFundedDeposits hpays) fun _ =>
    keeps_attributeRewards hpays keptByRewards_balanced

theorem keeps_createDeposit (hpays : NodePays config model) (owner : UserId) :
    Keeps (storeAnswers model position job) (Booked (Balanced userId taken paid))
      (createDeposit config owner) := by
  refine keeps_bind (keeps_ensurePoolWalletLoaded hpays) fun _ => ?_
  refine keeps_bind (keeps_call hpays rfl) fun address => ?_
  refine keeps_bind (keeps_sql fun db payments hbalanced => ?_) fun inserted => ?_
  · rcases execute_cases db (.insertDeposit owner address) with
      hsame | ⟨user, addr, heq, hdb⟩ | ⟨_, heq, _⟩ | ⟨_, _, _, heq, _⟩ | ⟨_, heq, _⟩
    · rw [hsame]
      exact hbalanced
    · rw [hdb]
      obtain ⟨hconsistent, htaken, hpaid⟩ := hbalanced
      refine ⟨hconsistent.opened user addr, ?_, hpaid⟩
      rw [← htaken]
      exact userSum_opened db user addr _ rfl
    · exact absurd heq nofun
    · exact absurd heq nofun
    · exact absurd heq nofun
  · cases inserted with
    | none => exact keeps_fail _
    | some id => exact keeps_bind (keeps_call hpays rfl) fun _ => keeps_done _

/-- `status_for_user` changes nothing and shows the balance. -/
theorem ensures_statusForUser (store : PoolStore Node) (userId : UserId) :
    (statusForUser config userId).Ensures (storeAnswers model position job)
      (fun outcome final => final = store ∧ ∃ status, outcome = .ok status ∧
        status.delegatedAmount + status.accruedRewards = store.db.shown userId) store := by
  intro rows next hanswer
  obtain ⟨rfl, rfl⟩ := hanswer
  change (if (activeRows (store.db.userRows userId)).isEmpty then _ else _ :
    Service StakingStatus).Ensures _ _ _
  split_ifs with hempty
  · refine ⟨rfl, _, rfl, ?_⟩
    have hnone : activeRows (store.db.userRows userId) = [] := by simpa using hempty
    have hrewards : store.db.sumRewards [] = 0 := by simp [GatewayDB.sumRewards]
    rw [GatewayDB.shown, hnone, List.map_nil, hrewards]
    rfl
  · intro total after hsum
    obtain ⟨rfl, rfl⟩ := hsum
    exact ⟨rfl, _, rfl, rfl⟩

theorem totalPaid_append (payments later : List Payment) (userId : UserId) :
    totalPaid (payments ++ later) userId = totalPaid payments userId + totalPaid later userId := by
  rw [totalPaid, List.filter_append, List.map_append, List.sum_append]
  rfl

theorem totalPaid_settle (statement : Statement) (payments : List Payment) (userId : UserId) :
    totalPaid (settlePayments position statement payments) userId = totalPaid payments userId := by
  cases statement with
  | closeDeposits closer =>
    rw [settlePayments, totalPaid, totalPaid, List.filter_map, List.map_map]
    have huser : ∀ payment : Payment, (if payment.position = position then
        { payment with settled := true } else payment).userId = payment.userId := by
      intro payment
      split_ifs <;> rfl
    have hamount : ∀ payment : Payment, (if payment.position = position then
        { payment with settled := true } else payment).amount = payment.amount := by
      intro payment
      split_ifs <;> rfl
    simp only [Function.comp_def, huser, hamount]
  | _ => rfl

theorem totalPaid_single (userId other : UserId) (amount : ℤ) (settled : Bool) :
    totalPaid [⟨position, userId, amount, settled⟩] other =
      if other = userId then amount else 0 := by
  by_cases heq : userId = other
  · simp [totalPaid, heq]
  · simp [totalPaid, heq, Ne.symm heq]

/-- A withdrawal that succeeds asked for no more than the balance shown; it pays what the
node reads, and closes the deposits of the user. -/
theorem ensures_withdraw (hpays : NodePays config model) (store : PoolStore Node)
    (userId : UserId) (amountSatoshis : ℤ) (toAddress : Address) :
    (withdraw config userId amountSatoshis toAddress).Ensures
      (storeAnswers model position (.withdrawal userId amountSatoshis toAddress))
      (fun outcome final => ∀ txid, outcome = .ok txid →
        amountSatoshis ≤ store.db.shown userId ∧
        final.db = store.db.updated (.closed userId) ∧
        ∀ other, totalPaid final.payments other = totalPaid store.payments other +
          if other = userId then config.toNode amountSatoshis else 0) store := by
  refine ensures_bind ((ensures_statusForUser store userId).mono ?_)
  rintro _ current ⟨hsame, status, rfl, hshown⟩
  obtain rfl : store = current := hsame.symm
  change (if _ then _ else _ : Service TxId).Ensures _ _ _
  rw [hshown]
  split_ifs with hexceeds
  · exact fun _ hfailed => absurd hfailed nofun
  · refine ensures_bind ((keeps_ensurePoolWalletLoaded hpays _
      (show Booked (fun db payments => db = store.db ∧ payments = store.payments) store from
        ⟨rfl, rfl⟩)).mono ?_)
    rintro outcome loaded ⟨hdb, hpayments⟩
    cases outcome with
    | error failure => exact fun _ hfailed => absurd hfailed nofun
    | ok _ =>
      rintro reply sent ⟨paid, node, hnode, rfl⟩
      cases reply with
      | error error => exact fun _ hfailed => absurd hfailed nofun
      | ok txid =>
        rintro _ final ⟨_, rfl⟩ _ _
        obtain rfl := hpays.acted _ _ _ _ _ _ hnode
        refine ⟨not_lt.mp hexceeds, ?_, fun other => ?_⟩
        · rw [← hdb]
          rfl
        · rw [totalPaid_settle, totalPaid_append, hpayments]
          exact congrArg _ (totalPaid_single userId other _ false)

/-- What a successful withdrawal ensures, the job ensures. -/
theorem ensures_withdrawal_job {store final : PoolStore Node} {userId : UserId}
    {amountSatoshis : ℤ} {toAddress : Address} {post : PoolStore Node → Prop}
    (hwithdraw : (withdraw config userId amountSatoshis toAddress).Ensures
      (storeAnswers model position (.withdrawal userId amountSatoshis toAddress))
      (fun outcome last => ∀ txid, outcome = .ok txid → post last) store) (hfinishes : Finishes
      (storeAnswers model position (.withdrawal userId amountSatoshis toAddress)) store
      (Job.program config (.withdrawal userId amountSatoshis toAddress)) (.ok ()) final) :
    post final := by
  have hensures : (Job.program config (.withdrawal userId amountSatoshis toAddress)).Ensures
      (storeAnswers model position (.withdrawal userId amountSatoshis toAddress))
      (fun outcome last => outcome = .ok () → post last) store := by
    refine ensures_bind (hwithdraw.mono ?_)
    intro outcome last hlast
    cases outcome with
    | ok txid => exact fun _ => hlast txid rfl
    | error failure => exact fun hfailed => absurd hfailed nofun
  exact hensures.of_finishes hfinishes rfl

end Specs

section Prompt

/-- The default configuration, with amounts that cross as they are. -/
def PoolConfig.sample : PoolConfig where
  poolWallet := "stakingpool"
  poolFeeBp := 500
  toNode := id
  fromNode := id

/-- The answers of a node that has the pool wallet loaded, makes every payment at once,
and knows nothing else.  A reply may be lost after the payment. -/
inductive PromptAnswers (config : PoolConfig) :
    Unit → (call : RpcCall) → Except RpcError call.Reply → Option ℤ → Unit → Prop
  | listWallets : PromptAnswers config () .listWallets (.ok [config.poolWallet]) none ()
  | sendToAddress (address : Address) (amountSatoshis : ℤ)
      (hpositive : 0 < config.toNode amountSatoshis) :
      PromptAnswers config () (.sendToAddress address amountSatoshis) (.ok (0 : TxId))
        (some (config.toNode amountSatoshis)) ()
  | lost (address : Address) (amountSatoshis : ℤ) (error : RpcError)
      (hpositive : 0 < config.toNode amountSatoshis) :
      PromptAnswers config () (.sendToAddress address amountSatoshis) (.error error)
        (some (config.toNode amountSatoshis)) ()
  | refused (call : RpcCall) (error : RpcError) : PromptAnswers config () call (.error error) none ()

def promptNode (config : PoolConfig) : NodeModel Unit := ⟨PromptAnswers config⟩

theorem nodePays_promptNode (config : PoolConfig) : NodePays config (promptNode config) := by
  refine ⟨?_, ?_⟩
  · intro _ call reply paid _ hanswer
    cases hanswer with
    | sendToAddress address amountSatoshis hpositive =>
      exact ⟨address, amountSatoshis, rfl, rfl, hpositive⟩
    | lost address amountSatoshis _ hpositive =>
      exact ⟨address, amountSatoshis, rfl, rfl, hpositive⟩
  · intro _ address amountSatoshis txid paid _ hanswer
    cases hanswer with
    | sendToAddress => rfl

theorem finishes_statusForUser {Node : Type} {model : NodeModel Node} {position : ℕ} {job : Job}
    (config : PoolConfig) (store : PoolStore Node) {userId : UserId}
    (hactive : activeRows (store.db.userRows userId) ≠ []) :
    Finishes (storeAnswers model position job) store (statusForUser config userId)
      (.ok (.of config (store.db.userRows userId)
        (store.db.sumRewards ((activeRows (store.db.userRows userId)).map StakeDeposit.id))))
      store := by
  refine .ask ⟨rfl, rfl⟩ ?_
  change Finishes _ _ (if (activeRows (store.db.userRows userId)).isEmpty then _ else _) _ _
  rw [if_neg (by simpa using hactive)]
  exact .ask ⟨rfl, rfl⟩ .done

theorem finishes_ensurePoolWalletLoaded (config : PoolConfig) (position : ℕ) (job : Job)
    (store : PoolStore Unit) :
    Finishes (storeAnswers (promptNode config) position job) store
      (ensurePoolWalletLoaded config) (.ok ()) store := by
  have hanswer : storeAnswers (promptNode config) position job store (.rpc .listWallets)
      (.ok [config.poolWallet]) store := by
    refine ⟨none, (), .listWallets, ?_⟩
    have hnone : job.paymentsOf position none = [] := by cases job <;> rfl
    rw [hnone, List.append_nil]
  refine .ask hanswer ?_
  change Finishes _ _ (if config.poolWallet ∈ [config.poolWallet] then _ else _) _ _
  rw [if_pos (List.mem_singleton_self _)]
  exact .done

/-- A withdrawal from such a node within the balance succeeds. -/
theorem finishes_withdrawal {config : PoolConfig} {store : PoolStore Unit} {userId : UserId}
    {amountSatoshis : ℤ} (toAddress : Address) (position : ℕ)
    (hactive : activeRows (store.db.userRows userId) ≠ [])
    (hle : amountSatoshis ≤ store.db.shown userId) (hpositive : 0 < config.toNode amountSatoshis) :
    Finishes (storeAnswers (promptNode config) position
        (.withdrawal userId amountSatoshis toAddress)) store
      (Job.program config (.withdrawal userId amountSatoshis toAddress)) (.ok ())
      ⟨store.db.updated (.closed userId), (), settlePayments position (.closeDeposits userId)
        (store.payments ++ [⟨position, userId, config.toNode amountSatoshis, false⟩])⟩ := by
  have hwithdraw : Finishes (storeAnswers (promptNode config) position
        (.withdrawal userId amountSatoshis toAddress)) store
      (withdraw config userId amountSatoshis toAddress) (.ok (0 : TxId))
      ⟨store.db.updated (.closed userId), (), settlePayments position (.closeDeposits userId)
        (store.payments ++ [⟨position, userId, config.toNode amountSatoshis, false⟩])⟩ := by
    refine .bind (finishes_statusForUser config store hactive) ?_
    change Finishes _ _ (if store.db.shown userId < amountSatoshis then _ else _) _ _
    rw [if_neg (not_lt.mpr hle)]
    refine .bind (finishes_ensurePoolWalletLoaded config position _ store) ?_
    exact .ask ⟨_, _, .sendToAddress toAddress amountSatoshis hpositive, rfl⟩
      (.ask ⟨rfl, rfl⟩ .done)
  exact hwithdraw.bind .done

def tenCoins : GatewayDB where
  deposits := [⟨1, 1, 10, some ⟨1, 0⟩, some 1000000000, .active⟩]
  rewards := []
  nextId := 2

theorem consistent_tenCoins : tenCoins.Consistent :=
  ⟨⟨by decide, by decide⟩, nofun⟩

end Prompt

end FirstIslamicCoin.StakingService
