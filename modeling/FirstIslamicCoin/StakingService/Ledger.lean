import FirstIslamicCoin.StakingService.Gateway
import Mathlib.Algebra.Order.BigOperators.Group.List

/-!
# The ledger of the staking service

What the two tables say about a user: the balance `status_for_user` shows, what was
funded and what was credited, each as a sum over the deposits, and how every statement
changes these sums.  Below that stands the store the programs share: the tables, a
node, and the payments the node has made, which are not recorded anywhere in the
service and serve the statements only.
-/

namespace FirstIslamicCoin.StakingService

section Sums

def GatewayDB.rewardsOf (db : GatewayDB) (id : DepositId) : ℤ :=
  ((db.rewards.filter fun reward => reward.depositId = id).map
    StakeReward.netRewardSatoshis).sum

def StakeDeposit.amount (row : StakeDeposit) : ℤ := row.amountSatoshis.getD 0

def GatewayDB.userRows (db : GatewayDB) (userId : UserId) : List StakeDeposit :=
  db.deposits.filter fun row => row.userId = userId

/-- The balance `status_for_user` shows: delegated amount and accrued rewards. -/
def GatewayDB.shown (db : GatewayDB) (userId : UserId) : ℤ :=
  delegatedOf (db.userRows userId) +
    db.sumRewards ((activeRows (db.userRows userId)).map StakeDeposit.id)

/-- A sum over the deposits of a user. -/
def GatewayDB.userSum (db : GatewayDB) (userId : UserId) (value : StakeDeposit → ℤ) : ℤ :=
  ((db.userRows userId).map value).sum

def GatewayDB.funded (db : GatewayDB) (userId : UserId) : ℤ :=
  db.userSum userId fun row => if row.status = .awaitingFunds then 0 else row.amount

def GatewayDB.credited (db : GatewayDB) (userId : UserId) : ℤ :=
  db.userSum userId fun row => db.rewardsOf row.id

/-- The deposits have different ids, all of them given out. -/
structure GatewayDB.Sound (db : GatewayDB) : Prop where
  nodup : (db.deposits.map StakeDeposit.id).Nodup
  lt_nextId : ∀ row ∈ db.deposits, row.id < db.nextId

variable {db : GatewayDB} {userId : UserId}

theorem userSum_congr {value other : StakeDeposit → ℤ}
    (heq : ∀ row ∈ db.userRows userId, value row = other row) :
    db.userSum userId value = db.userSum userId other :=
  congrArg List.sum (List.map_congr_left heq)

theorem userSum_le {value other : StakeDeposit → ℤ}
    (hle : ∀ row ∈ db.userRows userId, value row ≤ other row) :
    db.userSum userId value ≤ db.userSum userId other :=
  List.sum_le_sum hle

theorem userSum_add (value other : StakeDeposit → ℤ) :
    db.userSum userId (fun row => value row + other row) =
      db.userSum userId value + db.userSum userId other :=
  List.sum_map_add

theorem sumRewards_cons {id : DepositId} {ids : List DepositId} (hnotMem : id ∉ ids) :
    db.sumRewards (id :: ids) = db.rewardsOf id + db.sumRewards ids := by
  rw [GatewayDB.sumRewards, GatewayDB.rewardsOf, GatewayDB.sumRewards]
  induction db.rewards with
  | nil => rfl
  | cons reward rewards ih =>
    by_cases hown : reward.depositId = id
    · have hother : reward.depositId ∉ ids := hown ▸ hnotMem
      simp only [List.filter_cons, List.mem_cons, hown, hnotMem, true_or, decide_true, if_true,
        decide_false, Bool.false_eq_true, if_false, List.map_cons, List.sum_cons] at ih ⊢
      rw [ih]
      ring
    · by_cases hmem : reward.depositId ∈ ids
      · simp only [List.filter_cons, List.mem_cons, hown, hmem, or_true, decide_true, if_true,
          decide_false, Bool.false_eq_true, if_false, List.map_cons, List.sum_cons] at ih ⊢
        rw [ih]
        ring
      · simpa only [List.filter_cons, List.mem_cons, hown, hmem, or_self, decide_false,
          Bool.false_eq_true, if_false] using ih

/-- The rewards of several deposits are the sum of the rewards of each. -/
theorem sumRewards_eq {ids : List DepositId} (hnodup : ids.Nodup) :
    db.sumRewards ids = (ids.map db.rewardsOf).sum := by
  induction ids with
  | nil => simp [GatewayDB.sumRewards]
  | cons id ids ih =>
    obtain ⟨hnotMem, hrest⟩ := List.nodup_cons.mp hnodup
    rw [sumRewards_cons hnotMem, ih hrest, List.map_cons, List.sum_cons]

theorem sum_map_filter {Item : Type} (test : Item → Bool) (value : Item → ℤ) (items : List Item) :
    ((items.filter test).map value).sum =
      (items.map fun item => if test item then value item else 0).sum := by
  induction items with
  | nil => rfl
  | cons item items ih =>
    rw [List.filter_cons, List.map_cons, List.sum_cons, ← ih]
    split_ifs
    · rw [List.map_cons, List.sum_cons]
    · rw [zero_add]

/-- What a deposit adds to the balance shown. -/
def GatewayDB.owedBy (db : GatewayDB) (row : StakeDeposit) : ℤ :=
  if row.status = .active then row.amount + db.rewardsOf row.id else 0

/-- What a deposit was worth, once it is withdrawn. -/
def GatewayDB.takenBy (db : GatewayDB) (row : StakeDeposit) : ℤ :=
  if row.status = .withdrawn then row.amount + db.rewardsOf row.id else 0

def GatewayDB.owed (db : GatewayDB) (userId : UserId) : ℤ := db.userSum userId db.owedBy

def GatewayDB.taken (db : GatewayDB) (userId : UserId) : ℤ := db.userSum userId db.takenBy

/-- The rewards of deposits that are not funded yet. -/
def GatewayDB.early (db : GatewayDB) (userId : UserId) : ℤ :=
  db.userSum userId fun row => if row.status = .awaitingFunds then db.rewardsOf row.id else 0

theorem funded_add_credited (db : GatewayDB) (userId : UserId) :
    db.funded userId + db.credited userId = db.owed userId + db.taken userId + db.early userId := by
  rw [GatewayDB.funded, GatewayDB.credited, GatewayDB.owed, GatewayDB.taken, GatewayDB.early,
    ← userSum_add, ← userSum_add, ← userSum_add]
  refine userSum_congr fun row _ => ?_
  rw [GatewayDB.owedBy, GatewayDB.takenBy]
  cases row.status <;> simp

/-- The balance shown is what the active deposits are worth. -/
theorem shown_eq_owed (hsound : db.Sound) (userId : UserId) :
    db.shown userId = db.owed userId := by
  have hnodup : ((activeRows (db.userRows userId)).map StakeDeposit.id).Nodup :=
    hsound.nodup.sublist (((List.filter_sublist).trans List.filter_sublist).map _)
  rw [GatewayDB.shown, sumRewards_eq hnodup, delegatedOf, activeRows, List.map_map,
    sum_map_filter, sum_map_filter, ← List.sum_map_add]
  refine userSum_congr fun row _ => ?_
  rw [GatewayDB.owedBy, StakeDeposit.amount]
  by_cases hactive : row.status = .active
  · simp [hactive]
  · simp [hactive]

end Sums

section Statements

variable {db : GatewayDB} {userId other : UserId}

def GatewayDB.updated (db : GatewayDB) (update : StakeDeposit → StakeDeposit) : GatewayDB :=
  { db with deposits := db.deposits.map update }

/-- An update that leaves ids, owners and addresses alone. -/
structure KeepsRow (update : StakeDeposit → StakeDeposit) : Prop where
  id_eq : ∀ row, (update row).id = row.id
  userId_eq : ∀ row, (update row).userId = row.userId
  depositAddress_eq : ∀ row, (update row).depositAddress = row.depositAddress

theorem keepsRow_activated (id : DepositId) (funding : OutPoint) (amountSatoshis : ℤ) :
    KeepsRow (StakeDeposit.activated id funding amountSatoshis) := by
  constructor
  all_goals
    intro row
    rw [StakeDeposit.activated]
    split_ifs <;> rfl

theorem keepsRow_closed (userId : UserId) : KeepsRow (StakeDeposit.closed userId) := by
  constructor
  all_goals
    intro row
    rw [StakeDeposit.closed]
    split_ifs <;> rfl

variable {update : StakeDeposit → StakeDeposit}

theorem KeepsRow.userSum_updated (hkeeps : KeepsRow update) (value : StakeDeposit → ℤ) :
    (db.updated update).userSum userId value = db.userSum userId fun row => value (update row) := by
  have hrows : (db.updated update).userRows userId = (db.userRows userId).map update := by
    rw [GatewayDB.userRows, GatewayDB.updated, List.filter_map]
    simp only [Function.comp_def, hkeeps.userId_eq]
    rfl
  rw [GatewayDB.userSum, hrows, List.map_map]
  rfl

theorem KeepsRow.sound_updated (hkeeps : KeepsRow update) (hsound : db.Sound) :
    (db.updated update).Sound := by
  refine ⟨?_, ?_⟩
  · rw [GatewayDB.updated, List.map_map]
    have hids : StakeDeposit.id ∘ update = StakeDeposit.id := funext hkeeps.id_eq
    rw [hids]
    exact hsound.nodup
  · intro row hmem
    obtain ⟨before, hbefore, rfl⟩ := List.mem_map.mp hmem
    rw [hkeeps.id_eq]
    exact hsound.lt_nextId before hbefore

/-- Closing the deposits of a user moves their worth from owed to taken. -/
theorem taken_closed (db : GatewayDB) (userId : UserId) :
    (db.updated (.closed userId)).taken userId = db.taken userId + db.owed userId := by
  rw [GatewayDB.taken, (keepsRow_closed userId).userSum_updated, GatewayDB.taken,
    GatewayDB.owed, ← userSum_add]
  refine userSum_congr fun row hmem => ?_
  have huser : row.userId = userId := by simpa using (List.mem_filter.mp hmem).2
  have hrewards : (db.updated (.closed userId)).rewardsOf = db.rewardsOf := rfl
  rw [GatewayDB.takenBy, GatewayDB.takenBy, GatewayDB.owedBy, StakeDeposit.closed, hrewards]
  by_cases hactive : row.status = .active
  · simp [huser, hactive, StakeDeposit.amount]
  · simp [hactive]

/-- Rows that an update leaves as they are keep their sums. -/
theorem KeepsRow.userSum_updated_of_fixed (hkeeps : KeepsRow update)
    (hfixed : ∀ row ∈ db.userRows userId, update row = row) (value : StakeDeposit → ℤ) :
    (db.updated update).userSum userId value = db.userSum userId value := by
  rw [hkeeps.userSum_updated]
  exact userSum_congr fun row hmem => congrArg value (hfixed row hmem)

theorem userId_of_mem_userRows {row : StakeDeposit} (hmem : row ∈ db.userRows userId) :
    row.userId = userId := by
  simpa using (List.mem_filter.mp hmem).2

theorem mem_deposits_of_mem_userRows {row : StakeDeposit} (hmem : row ∈ db.userRows userId) :
    row ∈ db.deposits :=
  (List.mem_filter.mp hmem).1

theorem userSum_closed_of_ne (hne : other ≠ userId) (value : StakeDeposit → ℤ) :
    (db.updated (.closed userId)).userSum other value = db.userSum other value := by
  refine (keepsRow_closed userId).userSum_updated_of_fixed (fun row hmem => ?_) value
  have huser : row.userId ≠ userId := userId_of_mem_userRows hmem ▸ hne
  rw [StakeDeposit.closed, if_neg fun hboth => huser hboth.1]

/-- Funding a deposit that waits for it takes nothing out. -/
theorem taken_activated {id : DepositId} (funding : OutPoint) (amountSatoshis : ℤ)
    (hawaiting : ∀ row ∈ db.deposits, row.id = id → row.status = .awaitingFunds) (userId : UserId) :
    (db.updated (.activated id funding amountSatoshis)).taken userId = db.taken userId := by
  rw [GatewayDB.taken, (keepsRow_activated id funding amountSatoshis).userSum_updated,
    GatewayDB.taken]
  refine userSum_congr fun row hmem => ?_
  rw [GatewayDB.takenBy, GatewayDB.takenBy, StakeDeposit.activated]
  by_cases hid : row.id = id
  · have hstatus := hawaiting row (mem_deposits_of_mem_userRows hmem) hid
    simp [hid, hstatus]
  · rw [if_neg hid]
    rfl

def GatewayDB.rewarded (db : GatewayDB) (reward : StakeReward) : GatewayDB :=
  { db with rewards := db.rewards ++ [reward] }

theorem rewardsOf_rewarded (db : GatewayDB) (reward : StakeReward) (id : DepositId) :
    (db.rewarded reward).rewardsOf id =
      db.rewardsOf id + if reward.depositId = id then reward.netRewardSatoshis else 0 := by
  rw [GatewayDB.rewardsOf, GatewayDB.rewarded, List.filter_append, List.map_append,
    List.sum_append, GatewayDB.rewardsOf]
  by_cases hid : reward.depositId = id
  · simp [hid]
  · simp [hid]

def GatewayDB.opened (db : GatewayDB) (userId : UserId) (depositAddress : Address) : GatewayDB :=
  { db with
    deposits := db.deposits ++ [⟨db.nextId, userId, depositAddress, none, none, .awaitingFunds⟩]
    nextId := db.nextId + 1 }

theorem sound_opened (hsound : db.Sound) (userId : UserId) (depositAddress : Address) :
    (db.opened userId depositAddress).Sound := by
  refine ⟨?_, ?_⟩
  · rw [GatewayDB.opened, List.map_append, List.map_singleton, List.nodup_append]
    refine ⟨hsound.nodup, List.nodup_singleton _, ?_⟩
    intro id hid last hlast heq
    obtain ⟨row, hmem, rfl⟩ := List.mem_map.mp hid
    have hlt := hsound.lt_nextId row hmem
    rw [heq, List.mem_singleton.mp hlast] at hlt
    exact absurd hlt (lt_irrefl _)
  · intro row hmem
    rcases List.mem_append.mp hmem with hbefore | hnew
    · exact (hsound.lt_nextId row hbefore).trans (Nat.lt_succ_self _)
    · rw [List.mem_singleton.mp hnew]
      exact Nat.lt_succ_self _

/-- A new deposit adds what its row is worth, which is nothing for most sums. -/
theorem userSum_opened (db : GatewayDB) (userId : UserId) (depositAddress : Address)
    (value : StakeDeposit → ℤ)
    (hzero : value ⟨db.nextId, userId, depositAddress, none, none, .awaitingFunds⟩ = 0) :
    (db.opened userId depositAddress).userSum other value = db.userSum other value := by
  rw [GatewayDB.userSum, GatewayDB.userRows, GatewayDB.opened, List.filter_append,
    List.map_append, List.sum_append, GatewayDB.userSum, GatewayDB.userRows]
  by_cases hown : userId = other
  · simp [hown, hown ▸ hzero]
  · simp [hown]

/-- What a statement does to the tables. -/
theorem execute_cases (db : GatewayDB) (statement : Statement) :
    (db.execute statement).2 = db ∨
    (∃ userId address, statement = .insertDeposit userId address ∧
      (db.execute statement).2 = db.opened userId address) ∨
    (∃ userId, statement = .closeDeposits userId ∧
      (db.execute statement).2 = db.updated (.closed userId)) ∨
    (∃ id funding amount, statement = .activateDeposit id funding amount ∧
      (db.execute statement).2 = db.updated (.activated id funding amount)) ∨
    ∃ reward, statement = .insertReward reward ∧
      (db.execute statement).2 = db.rewarded reward := by
  cases statement with
  | selectDeposits userId => exact .inl rfl
  | selectPending => exact .inl rfl
  | selectActive => exact .inl rfl
  | sumRewards ids => exact .inl rfl
  | rewardRecorded txid => exact .inl rfl
  | insertDeposit userId address =>
    rw [GatewayDB.execute]
    split_ifs
    · exact .inl rfl
    · exact .inr (.inl ⟨userId, address, rfl, rfl⟩)
  | closeDeposits userId => exact .inr (.inr (.inl ⟨userId, rfl, rfl⟩))
  | activateDeposit id funding amount =>
    exact .inr (.inr (.inr (.inl ⟨id, funding, amount, rfl, rfl⟩)))
  | insertReward reward =>
    rw [GatewayDB.execute]
    split_ifs
    · exact .inl rfl
    · exact .inr (.inr (.inr (.inr ⟨reward, rfl, rfl⟩)))

end Statements

section Store

/-- A payment the node has made for a program; it is settled once that program has
closed the deposits of the user. -/
structure Payment where
  position : ℕ
  userId : UserId
  amount : ℤ
  settled : Bool
  deriving DecidableEq, Repr

structure PoolStore (Node : Type) where
  db : GatewayDB
  node : Node
  payments : List Payment

/-- A node: how it may answer a call, what it then has paid, and its next state.  A
reply that is lost is an error although the node acted. -/
structure NodeModel (Node : Type) where
  answers : Node → (call : RpcCall) → Except RpcError call.Reply → Option ℤ → Node → Prop

/-- The functions that are called from outside. -/
inductive Job where
  | deposit (userId : UserId)
  | watch
  | withdrawal (userId : UserId) (amountSatoshis : ℤ) (toAddress : Address)
  deriving DecidableEq, Repr

def Job.program (config : PoolConfig) : Job → Service Unit
  | .deposit userId => do
      let _ ← createDeposit config userId
      return ()
  | .watch => runWatcherPass config
  | .withdrawal userId amountSatoshis toAddress => do
      let _ ← withdraw config userId amountSatoshis toAddress
      return ()

/-- What is recorded when the node has paid for a job. -/
def Job.paymentsOf (position : ℕ) (paid : Option ℤ) : Job → List Payment
  | .withdrawal userId _ _ => paid.toList.map fun amount => ⟨position, userId, amount, false⟩
  | _ => []

variable {Node : Type}

/-- The payments after a statement of a program: closing deposits settles its own. -/
def settlePayments (position : ℕ) (statement : Statement) (payments : List Payment) :
    List Payment :=
  match statement with
  | .closeDeposits _ => payments.map fun payment =>
      if payment.position = position then { payment with settled := true } else payment
  | _ => payments

/-- How the store answers a request of the program at a position. -/
def storeAnswers (model : NodeModel Node) (position : ℕ) (job : Job) (store : PoolStore Node) :
    (request : Request) → request.Response → PoolStore Node → Prop
  | .sql statement, rows, next =>
      rows = (store.db.execute statement).1 ∧
        next = ⟨(store.db.execute statement).2, store.node,
          settlePayments position statement store.payments⟩
  | .rpc call, reply, next =>
      ∃ paid node, model.answers store.node call reply paid node ∧
        next = ⟨store.db, node, store.payments ++ job.paymentsOf position paid⟩

def totalPaid (payments : List Payment) (userId : UserId) : ℤ :=
  ((payments.filter fun payment => payment.userId = userId).map Payment.amount).sum

/-- The node pays when it is asked to, and what it reads from the amount it is given; a
reply comes only after the payment. -/
structure NodePays (config : PoolConfig) (model : NodeModel Node) : Prop where
  asked : ∀ node call reply paid next, model.answers node call reply (some paid) next →
    ∃ address amountSatoshis, call = .sendToAddress address amountSatoshis ∧
      paid = config.toNode amountSatoshis ∧ 0 < paid
  acted : ∀ node address amountSatoshis txid paid next,
    model.answers node (.sendToAddress address amountSatoshis) (.ok txid) paid next →
      paid = some (config.toNode amountSatoshis)

end Store

end FirstIslamicCoin.StakingService
