import FirstIslamicCoin.StakingService.Tracing

/-!
# Solvency of the pool

Jobs one after the other on a chain that grows between them: transactions of others,
coinstakes of the pool wallet, and withdrawals of whole balances.  The service closes a
deposit for what it paid out and charges the network fee to no one.  The wallet covers the
balances shown as long as every withdrawal leaves the fees covered by what came in at
other addresses than those of the deposits and by the pool fees, and the watcher records
payments, not coinstakes, and reads no amount as more than it is.
-/

namespace FirstIslamicCoin.StakingService

open Program

section Accounts

variable {config : PoolConfig} {owned : Address → Bool}

def paidOut (payments : List Payment) : ℤ := (payments.map Payment.amount).sum

/-- The wallet holds what came in and what it gained, less what it paid and its fees. -/
def Accounted (owned : Address → Bool) (store : PoolStore PoolChain) : Prop :=
  store.node.held owned = store.node.flows.received + store.node.flows.gained -
    store.node.flows.fees - paidOut store.payments

theorem paidOut_settle (position : ℕ) (statement : Statement) (payments : List Payment) :
    paidOut (settlePayments position statement payments) = paidOut payments := by
  cases statement with
  | closeDeposits userId =>
    rw [settlePayments, paidOut, List.map_map, paidOut]
    refine congrArg List.sum (List.map_congr_left fun payment _ => ?_)
    rw [Function.comp_apply]
    split_ifs <;> rfl
  | _ => rfl

theorem paidOut_append (payments later : List Payment) :
    paidOut (payments ++ later) = paidOut payments + paidOut later := by
  rw [paidOut, List.map_append, List.sum_append]
  rfl

/-- A call that pays nothing leaves the account as it is. -/
theorem ChainAnswers.quiet {chain next : PoolChain} {call : RpcCall}
    {reply : Except RpcError call.Reply} {paid : Option ℤ} (hquiet : call.isQuiet = true)
    (hanswer : ChainAnswers config owned chain call reply paid next) :
    paid = none ∧ next.txs = chain.txs ∧ next.flows = chain.flows := by
  cases hanswer with
  | sendToAddress => exact absurd hquiet Bool.false_ne_true
  | _ => exact ⟨rfl, rfl, rfl⟩

theorem held_congr {chain next : PoolChain} (htxs : next.txs = chain.txs) :
    next.held owned = chain.held owned := by
  simp only [PoolChain.held, PoolChain.coins, PoolChain.unspent, PoolChain.outputs,
    PoolChain.isSpent, htxs]

theorem paymentsOf_none (job : Job) (position : ℕ) : job.paymentsOf position none = [] := by
  cases job <;> rfl

theorem paidOut_paymentsOf (position : ℕ) (userId : UserId) (amountSatoshis paid : ℤ)
    (toAddress : Address) :
    paidOut ((Job.withdrawal userId amountSatoshis toAddress).paymentsOf position (some paid)) =
      paid :=
  add_zero paid

variable {store next : PoolStore PoolChain}

theorem Accounted.sql {position : ℕ} {job : Job} {statement : Statement}
    {rows : (Request.sql statement).Response} (hstore : Accounted owned store)
    (hanswer : storeAnswers (chainNode config owned) position job store (.sql statement) rows
      next) : Accounted owned next := by
  obtain ⟨_, rfl⟩ := hanswer
  rw [Accounted, paidOut_settle]
  exact hstore

theorem Accounted.quiet {position : ℕ} {job : Job} {call : RpcCall}
    {reply : (Request.rpc call).Response} (hstore : Accounted owned store)
    (hquiet : call.isQuiet = true)
    (hanswer : storeAnswers (chainNode config owned) position job store (.rpc call) reply next) :
    Accounted owned next := by
  obtain ⟨paid, node, hnode, rfl⟩ := hanswer
  obtain ⟨rfl, htxs, hflows⟩ := ChainAnswers.quiet hquiet hnode
  rw [Accounted, paymentsOf_none, List.append_nil, held_congr htxs, hflows]
  exact hstore

/-- A payment is booked in full. -/
theorem Accounted.withdrawing {position : ℕ} {userId : UserId} {amountSatoshis : ℤ}
    {toAddress : Address} {request : Request} {response : request.Response}
    (hstore : Accounted owned store) (hanswer : storeAnswers (chainNode config owned) position
      (.withdrawal userId amountSatoshis toAddress) store request response next) :
    Accounted owned next := by
  cases request with
  | sql statement => exact hstore.sql hanswer
  | rpc call =>
    cases hquiet : call.isQuiet with
    | true => exact hstore.quiet hquiet hanswer
    | false =>
      obtain ⟨paid, node, hnode, rfl⟩ := hanswer
      cases hnode with
      | refused address amount error =>
        rw [Accounted, paymentsOf_none, List.append_nil]
        exact hstore
      | sendToAddress hpays =>
        have hbefore : store.node.held owned = _ := hstore
        rw [Accounted, held_append hpays.fresh, hpays.credit_eq, hbefore, paidOut_append,
          paidOut_paymentsOf]
        dsimp only [PoolChain.append, Flows.paying]
        ring
      | _ => exact absurd hquiet nofun

def QuietRequest : Request → Prop
  | .sql _ => True
  | .rpc call => call.isQuiet = true

theorem watchRules_quiet (config : PoolConfig) :
    WatchRules config (fun _ _ => True) QuietRequest where
  quiet _ hquiet := hquiet
  query _ _ := trivial
  opens _ _ := trivial
  activates _ _ _ _ _ _ := trivial
  rewards _ _ _ _ _ _ _ := trivial

/-- Every job keeps the account. -/
theorem keeps_accounted (config : PoolConfig) (owned : Address → Bool) (position : ℕ) (job : Job) :
    Keeps (storeAnswers (chainNode config owned) position job) (Accounted owned)
      (job.program config) := by
  have hquiet : ∀ (stage : Unit) (store : PoolStore PoolChain) (request : Request)
      (response : request.Response) (next : PoolStore PoolChain),
      (steady QuietRequest fun _ _ => True).allowed stage request → Accounted owned store →
      storeAnswers (chainNode config owned) position job store request response next →
        (steady QuietRequest fun _ _ => True).expected request response ∧ Accounted owned next := by
    intro _ store request response next hallowed hstore hanswer
    refine ⟨trivial, ?_⟩
    cases request with
    | sql statement => exact hstore.sql hanswer
    | rpc call => exact hstore.quiet hallowed hanswer
  cases job with
  | deposit userId =>
    have hfollows : (Job.program config (.deposit userId)).Follows
        (steady QuietRequest fun _ _ => True) (fun _ _ => True) () :=
      follows_bind ((watchRules_quiet config).follows_createDeposit userId)
    exact hfollows.keeps hquiet
  | watch => exact (watchRules_quiet config).follows_runWatcherPass.keeps hquiet
  | withdrawal userId amountSatoshis toAddress =>
    exact (follows_withdraw config toAddress).keeps fun _ _ _ _ _ _ hstore hanswer =>
      ⟨trivial, hstore.withdrawing hanswer⟩

end Accounts

section Solvent

variable {config : PoolConfig} {owned : Address → Bool}

def GatewayDB.users (db : GatewayDB) : Finset UserId :=
  (db.deposits.map StakeDeposit.userId).toFinset

/-- The wallet holds at least the sum of the balances shown. -/
def Solvent (owned : Address → Bool) (store : PoolStore PoolChain) : Prop :=
  ∑ userId ∈ store.db.users, store.db.shown userId ≤ store.node.held owned

/-- A move of the pool in which every withdrawal takes the whole balance shown. -/
def FullMoves (config : PoolConfig) (owned : Address → Bool) (store : PoolStore PoolChain)
    (move : PoolMove) (next : PoolStore PoolChain) : Prop :=
  PoolMoves config owned store move next ∧
    ∀ event, move = .job event → ∀ userId, TakesAll config userId event

/-- A sum over a list, taken by keys. -/
theorem sum_by_key {Item : Type} (key : Item → ℕ) (value : Item → ℤ) {items : List Item}
    {keys : Finset ℕ} (hkeys : ∀ item ∈ items, key item ∈ keys) :
    ∑ one ∈ keys, ((items.filter fun item => key item = one).map value).sum =
      (items.map value).sum := by
  induction items with
  | nil => simp
  | cons item items ih =>
    obtain ⟨hkey, hrest⟩ := List.forall_mem_cons.mp hkeys
    have hstep : ∀ one, (((item :: items).filter fun item => key item = one).map value).sum =
        (if key item = one then value item else 0) +
          ((items.filter fun item => key item = one).map value).sum := by
      intro one
      by_cases hone : key item = one
      · simp [hone]
      · simp [hone]
    rw [Finset.sum_congr rfl fun one _ => hstep one, Finset.sum_add_distrib, ih hrest,
      Finset.sum_ite_eq, if_pos hkey, List.map_cons, List.sum_cons]

/-- A user without a deposit has taken nothing out. -/
theorem taken_of_not_mem_users {db : GatewayDB} {userId : UserId} (hnot : userId ∉ db.users) :
    db.taken userId = 0 := by
  have hnone : db.userRows userId = [] := by
    rw [GatewayDB.userRows, List.filter_eq_nil_iff]
    intro row hrow huser
    exact hnot (List.mem_toFinset.mpr (List.mem_map.mpr ⟨row, hrow, of_decide_eq_true huser⟩))
  rw [GatewayDB.taken, GatewayDB.userSum, hnone]
  rfl

/-- The books of all users, and the account of the wallet. -/
structure Books (owned : Address → Bool) (store : PoolStore PoolChain) : Prop where
  consistent : store.db.Consistent
  conserved : ∀ userId, Conserved userId store
  accounted : Accounted owned store

theorem Books.step {store next : PoolStore PoolChain} {move : PoolMove} (hbooks : Books owned store)
    (hmove : FullMoves config owned store move next) : Books owned next := by
  obtain ⟨hmoves, hfull⟩ := hmove
  have haccounted : store.node.held owned = _ := hbooks.accounted
  cases move with
  | receive tx =>
    obtain ⟨hreceives, rfl⟩ := hmoves
    refine ⟨hbooks.consistent, hbooks.conserved, ?_⟩
    rw [Accounted, hreceives.held_eq, haccounted]
    dsimp only [PoolChain.receive, PoolChain.append]
    ring
  | stake tx =>
    obtain ⟨hstakes, rfl⟩ := hmoves
    refine ⟨hbooks.consistent, hbooks.conserved, ?_⟩
    rw [Accounted, hstakes.held_eq, haccounted]
    dsimp only [PoolChain.stake, PoolChain.append]
    ring
  | mature txid =>
    obtain rfl := hmoves
    exact ⟨hbooks.consistent, hbooks.conserved, hbooks.accounted⟩
  | job event =>
    have hpays := @nodePays_chainNode config owned
    refine ⟨(completes_cases hpays hbooks.consistent hmoves 0).1, fun userId => ?_, ?_⟩
    · exact (conserved_next_iff hpays hbooks.consistent hmoves (hbooks.conserved userId)).mpr
        (hfull event rfl userId)
    · obtain ⟨_, outcome, hfinishes, _⟩ := hmoves
      exact (keeps_accounted config owned 0 event.job store hbooks.accounted).of_finishes hfinishes

/-- What was paid is what the users with deposits were paid. -/
theorem Books.sum_totalPaid {store : PoolStore PoolChain} (hbooks : Books owned store) :
    ∑ userId ∈ store.db.users, totalPaid store.payments userId = paidOut store.payments := by
  let payers := (store.payments.map Payment.userId).toFinset
  have hall : ∑ userId ∈ store.db.users ∪ payers, totalPaid store.payments userId =
      paidOut store.payments := by
    refine sum_by_key Payment.userId Payment.amount fun payment hmem => ?_
    exact Finset.mem_union_right _ (List.mem_toFinset.mpr (List.mem_map_of_mem hmem))
  rw [← hall]
  refine Finset.sum_subset Finset.subset_union_left fun userId _ hnot => ?_
  rw [(conserved_iff hbooks.consistent).mp (hbooks.conserved userId), taken_of_not_mem_users hnot]

/-- What is shown to all users is what was funded and credited and not paid out. -/
theorem Books.sum_shown {store : PoolStore PoolChain} (hbooks : Books owned store) :
    ∑ userId ∈ store.db.users, store.db.shown userId =
      ∑ userId ∈ store.db.users, (store.db.funded userId + store.db.credited userId) -
        paidOut store.payments := by
  rw [← hbooks.sum_totalPaid, ← Finset.sum_sub_distrib]
  refine Finset.sum_congr rfl fun userId _ => ?_
  have hconserved : totalPaid store.payments userId + store.db.shown userId = _ :=
    hbooks.conserved userId
  rw [← hconserved]
  ring

/-- The wallet covers the balances shown if what came in covers the fees and the books. -/
theorem Books.solvent_iff {store : PoolStore PoolChain} (hbooks : Books owned store) :
    Solvent owned store ↔
      store.node.flows.fees +
          ∑ userId ∈ store.db.users, (store.db.funded userId + store.db.credited userId) ≤
        store.node.flows.received + store.node.flows.gained := by
  have haccounted : store.node.held owned = _ := hbooks.accounted
  rw [Solvent, hbooks.sum_shown, haccounted]
  constructor
  · intro hle
    linarith
  · intro hle
    linarith

theorem mem_users {db : GatewayDB} {row : StakeDeposit} (hrow : row ∈ db.deposits) :
    row.userId ∈ db.users :=
  List.mem_toFinset.mpr (List.mem_map_of_mem hrow)

theorem sum_funded (db : GatewayDB) :
    ∑ userId ∈ db.users, db.funded userId =
      (db.deposits.map fun row => if row.status = .awaitingFunds then 0 else row.amount).sum :=
  sum_by_key StakeDeposit.userId _ fun _ => mem_users

theorem sum_credited {db : GatewayDB} (hdb : db.Consistent) :
    ∑ userId ∈ db.users, db.credited userId =
      (db.rewards.map StakeReward.netRewardSatoshis).sum := by
  have hrows : ∑ userId ∈ db.users, db.credited userId =
      (db.deposits.map fun row => db.rewardsOf row.id).sum :=
    sum_by_key StakeDeposit.userId _ fun _ => mem_users
  have hids : (db.deposits.map fun row => db.rewardsOf row.id) =
      (db.deposits.map StakeDeposit.id).map db.rewardsOf := by
    rw [List.map_map]
    rfl
  rw [hrows, hids, ← List.sum_toFinset _ hdb.nodup]
  refine sum_by_key StakeReward.depositId _ fun reward hreward => ?_
  obtain ⟨row, hrow, hid, _⟩ := hdb.rewarded reward hreward
  exact List.mem_toFinset.mpr (hid ▸ List.mem_map_of_mem hrow)

end Solvent

section Gains

variable {owned : Address → Bool} {chain : PoolChain} {tx : RawTx} {flows : Flows}

/-- Whether a transaction is a coinstake of the wallet. -/
def PoolChain.isStakeOf (chain : PoolChain) (owned : Address → Bool) (tx : RawTx) : Bool :=
  tx.isCoinstake && !(chain.spentBy owned tx).isEmpty

def PoolChain.gainOf (chain : PoolChain) (owned : Address → Bool) (tx : RawTx) : ℤ :=
  tx.valueOut - chain.debit owned tx

/-- What the coinstakes of the wallet have gained. -/
def PoolChain.gains (chain : PoolChain) (owned : Address → Bool) : ℤ :=
  ((chain.txs.filter (chain.isStakeOf owned)).map (chain.gainOf owned)).sum

/-- Nothing spends the outputs of a transaction that has just come. -/
theorem spentBy_append (hfresh : chain.Fresh tx) {other : RawTx} (hother : other ∈ chain.txs ++ [tx]) :
    (chain.append tx flows).spentBy owned other = chain.spentBy owned other := by
  have hnone : (tx.outputs.filter fun output => output.2.isMine owned).filter
      (fun output => other.spends output.1) = [] := by
    refine List.filter_eq_nil_iff.mpr fun output hmem hspends => ?_
    exact hfresh.notYet other hother output.1 hspends
      (txid_of_mem_outputs (List.mem_filter.mp hmem).1)
  rw [PoolChain.spentBy, outputs_append, List.filter_append, List.filter_append, hnone,
    List.append_nil, PoolChain.spentBy]

theorem isStakeOf_append (hfresh : chain.Fresh tx) {other : RawTx}
    (hother : other ∈ chain.txs ++ [tx]) :
    (chain.append tx flows).isStakeOf owned other = chain.isStakeOf owned other := by
  rw [PoolChain.isStakeOf, spentBy_append hfresh hother, PoolChain.isStakeOf]

theorem gainOf_append (hfresh : chain.Fresh tx) {other : RawTx}
    (hother : other ∈ chain.txs ++ [tx]) :
    (chain.append tx flows).gainOf owned other = chain.gainOf owned other := by
  rw [PoolChain.gainOf, PoolChain.debit, spentBy_append hfresh hother, PoolChain.gainOf,
    PoolChain.debit]

theorem gains_append (hfresh : chain.Fresh tx) :
    (chain.append tx flows).gains owned =
      chain.gains owned + if chain.isStakeOf owned tx then chain.gainOf owned tx else 0 := by
  have htest : (chain.append tx flows).txs.filter ((chain.append tx flows).isStakeOf owned) =
      (chain.txs ++ [tx]).filter (chain.isStakeOf owned) :=
    List.filter_congr fun other hother => isStakeOf_append hfresh hother
  have hgain : ((chain.txs ++ [tx]).filter (chain.isStakeOf owned)).map
        ((chain.append tx flows).gainOf owned) =
      ((chain.txs ++ [tx]).filter (chain.isStakeOf owned)).map (chain.gainOf owned) :=
    List.map_congr_left fun other hother => gainOf_append hfresh (List.mem_filter.mp hother).1
  rw [PoolChain.gains, htest, hgain, List.filter_append, List.map_append, List.sum_append,
    PoolChain.gains]
  cases hstake : chain.isStakeOf owned tx <;> simp [hstake]

/-- A sum over some of the keys, each of them once. -/
theorem sum_le_of_subset {keys all : List ℕ} {value : ℕ → ℤ} (hnodup : keys.Nodup)
    (hsubset : keys ⊆ all) (hnonneg : ∀ key ∈ all, 0 ≤ value key) :
    (keys.map value).sum ≤ (all.map value).sum := by
  obtain ⟨same, hperm, hsublist⟩ := hnodup.subperm hsubset
  rw [← (hperm.map value).sum_eq]
  refine (hsublist.map value).sum_le_sum fun amount hamount => ?_
  obtain ⟨key, hkey, rfl⟩ := List.mem_map.mp hamount
  exact hnonneg key hkey

end Gains

section Coverage

variable {config : PoolConfig} {owned : Address → Bool} {chain : PoolChain} {db : GatewayDB}

/-- What was paid to the addresses of the deposits. -/
def GatewayDB.paidTo (db : GatewayDB) (chain : PoolChain) : ℤ :=
  (db.deposits.map fun row => totalValue (chain.paymentsTo row.depositAddress)).sum

def GatewayDB.poolFees (db : GatewayDB) : ℤ := (db.rewards.map StakeReward.poolFeeSatoshis).sum

/-- The network fees so far are covered by what came in at addresses of no deposit and by
the pool fees kept. -/
def FeesCovered (chain : PoolChain) (db : GatewayDB) : Prop :=
  chain.flows.fees ≤ chain.flows.received - db.paidTo chain + db.poolFees

/-- What a pass finds for the waiting deposits are payments, not coinstakes, and none is
read as more than it is; the gain of a coinstake is read as no more than it is either, and
not as a loss. -/
structure FairlyRead (config : PoolConfig) (owned : Address → Bool) (chain : PoolChain)
    (db : GatewayDB) : Prop where
  pending : UnstakedPending owned chain db
  payments : ∀ row ∈ db.deposits, row.status = .awaitingFunds →
    ∀ output ∈ chain.paymentsTo row.depositAddress,
      config.fromNode output.2.value ≤ output.2.value
  gains : ∀ tx ∈ chain.txs, chain.isStakeOf owned tx = true → ∀ total,
    inputTotal config.fromNode chain.lookup tx.vin = some total →
      0 ≤ tx.outTotal config - total ∧ tx.outTotal config - total ≤ chain.gainOf owned tx

/-- A reward is part of the gain of a coinstake of the wallet. -/
structure FairReward (owned : Address → Bool) (chain : PoolChain) (reward : StakeReward)
    (tx : RawTx) : Prop where
  mem_txs : tx ∈ chain.txs
  txid_eq : tx.txid = reward.coinstakeTxid
  stake : chain.isStakeOf owned tx = true
  gain : reward.netRewardSatoshis + reward.poolFeeSatoshis ≤ chain.gainOf owned tx
  fee : 0 ≤ reward.poolFeeSatoshis

/-- What the tables promise is backed by the chain, and the fees are covered. -/
structure Backed (config : PoolConfig) (owned : Address → Bool) (chain : PoolChain)
    (db : GatewayDB) : Prop where
  traced : Traced config owned chain db
  mine : ∀ row ∈ db.deposits, owned row.depositAddress = true
  backed : ∀ row ∈ db.deposits, row.status ≠ .awaitingFunds →
    row.amount ≤ totalValue (chain.paymentsTo row.depositAddress)
  rewarded : ∀ reward ∈ db.rewards, ∃ tx, FairReward owned chain reward tx
  gainful : ∀ tx ∈ chain.txs, chain.isStakeOf owned tx = true → 0 ≤ chain.gainOf owned tx
  gained : chain.gains owned ≤ chain.flows.gained
  fees : FeesCovered chain db

theorem nonneg_paymentsTo (hvalid : chain.Valid owned) (address : Address) :
    ∀ output ∈ chain.paymentsTo address, 0 ≤ output.2.value := by
  intro output hmem
  obtain ⟨tx, htx, _, houtput, _⟩ := mem_paymentsTo.mp hmem
  exact hvalid.nonneg output (List.mem_flatMap.mpr ⟨tx, htx, houtput⟩)

/-- The credited rewards and the pool fees come out of the gains. -/
theorem Backed.rewards_le (hbacks : Backed config owned chain db) :
    (db.rewards.map StakeReward.netRewardSatoshis).sum + db.poolFees ≤ chain.gains owned := by
  let gain (txid : TxId) : ℤ := ((chain.lookup txid).map (chain.gainOf owned)).getD 0
  have hgain : ∀ tx ∈ chain.txs, gain tx.txid = chain.gainOf owned tx := by
    intro tx htx
    dsimp only [gain]
    rw [hbacks.traced.valid.lookup_eq htx]
    rfl
  have hrows : (db.rewards.map StakeReward.netRewardSatoshis).sum + db.poolFees ≤
      ((db.rewards.map StakeReward.coinstakeTxid).map gain).sum := by
    rw [GatewayDB.poolFees, ← List.sum_map_add, List.map_map]
    refine List.sum_le_sum fun reward hreward => ?_
    obtain ⟨tx, hfair⟩ := hbacks.rewarded reward hreward
    rw [Function.comp_apply, ← hfair.txid_eq, hgain tx hfair.mem_txs]
    exact hfair.gain
  have hstakes : ((chain.txs.filter (chain.isStakeOf owned)).map RawTx.txid).map gain =
      (chain.txs.filter (chain.isStakeOf owned)).map (chain.gainOf owned) := by
    rw [List.map_map]
    exact List.map_congr_left fun tx htx => hgain tx (List.mem_filter.mp htx).1
  rw [PoolChain.gains, ← hstakes]
  refine hrows.trans (sum_le_of_subset hbacks.traced.txids ?_ ?_)
  · intro txid hmem
    obtain ⟨reward, hreward, rfl⟩ := List.mem_map.mp hmem
    obtain ⟨tx, hfair⟩ := hbacks.rewarded reward hreward
    exact List.mem_map.mpr ⟨tx, List.mem_filter.mpr ⟨hfair.mem_txs, hfair.stake⟩, hfair.txid_eq⟩
  · intro txid hmem
    obtain ⟨tx, htx, rfl⟩ := List.mem_map.mp hmem
    obtain ⟨hmem, hstake⟩ := List.mem_filter.mp htx
    rw [hgain tx hmem]
    exact hbacks.gainful tx hmem hstake

/-- With the books in order, what is covered is solvent. -/
theorem Backed.solvent {store : PoolStore PoolChain} (hbooks : Books owned store)
    (hbacks : Backed config owned store.node store.db) : Solvent owned store := by
  have hfunded : ∑ userId ∈ store.db.users, store.db.funded userId ≤ store.db.paidTo store.node := by
    rw [sum_funded, GatewayDB.paidTo]
    refine List.sum_le_sum fun row hrow => ?_
    split_ifs with hawaiting
    · exact totalValue_nonneg (nonneg_paymentsTo hbacks.traced.valid _)
    · exact hbacks.backed row hrow hawaiting
  have hrewards := hbacks.rewards_le
  have hgained := hbacks.gained
  have hfees := hbacks.fees
  rw [FeesCovered] at hfees
  rw [hbooks.solvent_iff, Finset.sum_add_distrib, sum_credited hbooks.consistent]
  linarith

/-- What one transaction pays to some addresses of the wallet. -/
theorem sum_paid_le {addresses : Finset Address} {outputs : List (OutPoint × Vout)}
    (howned : ∀ address ∈ addresses, owned address = true)
    (hnonneg : ∀ output ∈ outputs, 0 ≤ output.2.value) :
    ∑ address ∈ addresses,
        totalValue (outputs.filter fun output => output.2.address = some address) ≤
      totalValue (outputs.filter fun output => output.2.isMine owned) := by
  have hstep : ∀ (test : OutPoint × Vout → Bool) (first : OutPoint × Vout)
      (rest : List (OutPoint × Vout)), totalValue ((first :: rest).filter test) =
        (if test first then first.2.value else 0) + totalValue (rest.filter test) := by
    intro test first rest
    cases htest : test first <;> simp [htest, totalValue]
  induction outputs with
  | nil => simp [totalValue]
  | cons first rest ih =>
    obtain ⟨hfirst, hrest⟩ := List.forall_mem_cons.mp hnonneg
    have hle := ih hrest
    simp only [hstep, Finset.sum_add_distrib]
    -- at most one of the addresses is that of the first output
    have hone : ∑ address ∈ addresses,
        (if decide (first.2.address = some address) = true then first.2.value else 0) ≤
          if first.2.isMine owned = true then first.2.value else 0 := by
      rw [Vout.isMine]
      cases first.2.address with
      | none => simp
      | some paid =>
        simp only [Option.some.injEq, decide_eq_true_eq, Finset.sum_ite_eq, Option.any_some]
        split_ifs with hmem howned'
        · exact le_rfl
        · exact absurd (howned paid hmem) howned'
        · exact hfirst
        · exact le_rfl
    linarith

theorem paidTo_append (chain : PoolChain) (db : GatewayDB) (tx : RawTx) (flows : Flows) :
    db.paidTo (chain.append tx flows) = db.paidTo chain +
      (db.deposits.map fun row => totalValue (if tx.isCoinstake then [] else
        tx.outputs.filter fun output => output.2.address = some row.depositAddress)).sum := by
  rw [GatewayDB.paidTo, GatewayDB.paidTo, ← List.sum_map_add]
  refine congrArg List.sum (List.map_congr_left fun row _ => ?_)
  rw [paymentsTo_append, totalValue_append]

section

variable (hbacks : Backed config owned chain db)

include hbacks

/-- What others pay to the deposits is part of what they pay to the wallet. -/
theorem Backed.paidTo_append_le {tx : RawTx} {flows : Flows} (hfresh : chain.Fresh tx) :
    db.paidTo (chain.append tx flows) ≤ db.paidTo chain + tx.credit owned := by
  have hnonneg : ∀ output ∈ tx.outputs, 0 ≤ output.2.value := fun output hmem =>
    hfresh.nonneg output.2 (mem_vout_of_mem_outputs hmem)
  rw [paidTo_append]
  refine add_le_add_right ?_ _
  cases tx.isCoinstake with
  | true =>
    have hcredit : 0 ≤ tx.credit owned := by
      rw [← totalValue_isMine]
      exact totalValue_nonneg fun output hmem => hnonneg output (List.mem_filter.mp hmem).1
    simpa [totalValue] using hcredit
  | false =>
    have hrows : (db.deposits.map fun row => totalValue (if false = true then [] else
        tx.outputs.filter fun output => output.2.address = some row.depositAddress)) =
        (db.deposits.map StakeDeposit.depositAddress).map fun address =>
          totalValue (tx.outputs.filter fun output => output.2.address = some address) := by
      rw [List.map_map]
      rfl
    rw [hrows, ← List.sum_toFinset _ hbacks.traced.addresses, ← totalValue_isMine]
    refine sum_paid_le (fun address hmem => ?_) hnonneg
    obtain ⟨row, hrow, rfl⟩ := List.mem_map.mp (List.mem_toFinset.mp hmem)
    exact hbacks.mine row hrow

theorem Backed.append {tx : RawTx} {flows : Flows} (hfresh : chain.Fresh tx)
    (hvalid : (chain.append tx flows).Valid owned)
    (hgain : chain.isStakeOf owned tx = true → 0 ≤ chain.gainOf owned tx)
    (hgained : chain.flows.gained + (if chain.isStakeOf owned tx then chain.gainOf owned tx else 0) ≤
      flows.gained)
    (hfees : FeesCovered (chain.append tx flows) db) :
    Backed config owned (chain.append tx flows) db where
  traced := hbacks.traced.append hfresh hvalid
  mine := hbacks.mine
  backed row hrow hstatus := by
    have hbacked := hbacks.backed row hrow hstatus
    have hmore := totalValue_nonneg fun output hmem => nonneg_paymentsTo hvalid row.depositAddress
      output (paymentsTo_append chain tx flows _ ▸ List.mem_append_right _ hmem)
    rw [paymentsTo_append, totalValue_append]
    linarith
  rewarded reward hreward := by
    obtain ⟨stake, hfair⟩ := hbacks.rewarded reward hreward
    have hmem := List.mem_append_left [tx] hfair.mem_txs
    refine ⟨stake, { hfair with mem_txs := hmem, stake := ?_, gain := ?_ }⟩
    · rw [isStakeOf_append hfresh hmem]
      exact hfair.stake
    · rw [gainOf_append hfresh hmem]
      exact hfair.gain
  gainful stake hmem hstake := by
    rw [isStakeOf_append hfresh hmem] at hstake
    rw [gainOf_append hfresh hmem]
    rcases mem_txs_append hmem with hbefore | rfl
    · exact hbacks.gainful stake hbefore hstake
    · exact hgain hstake
  gained := by
    have hbefore := hbacks.gained
    rw [gains_append hfresh]
    dsimp only [PoolChain.append]
    linarith
  fees := hfees

/-- Only the transactions and the totals of the chain matter. -/
theorem Backed.congr {next : PoolChain} (htxs : next.txs = chain.txs)
    (hflows : next.flows = chain.flows) : Backed config owned next db := by
  obtain ⟨txs, book, flows, immature⟩ := chain
  obtain ⟨nextTxs, nextBook, nextFlows, nextImmature⟩ := next
  obtain rfl : nextTxs = txs := htxs
  obtain rfl : nextFlows = flows := hflows
  refine ⟨hbacks.traced.congr rfl, hbacks.mine, hbacks.backed, fun reward hreward => ?_,
    hbacks.gainful, hbacks.gained, hbacks.fees⟩
  obtain ⟨tx, hfair⟩ := hbacks.rewarded reward hreward
  exact ⟨tx, hfair.mem_txs, hfair.txid_eq, hfair.stake, hfair.gain, hfair.fee⟩

theorem Backed.updated {update : StakeDeposit → StakeDeposit} (hkeeps : KeepsRow update)
    (htraced : Traced config owned chain (db.updated update))
    (hbacked : ∀ row ∈ db.deposits, (update row).status ≠ .awaitingFunds →
      (update row).amount ≤ totalValue (chain.paymentsTo row.depositAddress)) :
    Backed config owned chain (db.updated update) where
  traced := htraced
  mine row hrow := by
    obtain ⟨before, hbefore, rfl⟩ := List.mem_map.mp hrow
    rw [hkeeps.depositAddress_eq]
    exact hbacks.mine before hbefore
  backed row hrow hstatus := by
    obtain ⟨before, hbefore, rfl⟩ := List.mem_map.mp hrow
    rw [hkeeps.depositAddress_eq]
    exact hbacked before hbefore hstatus
  rewarded := hbacks.rewarded
  gainful := hbacks.gainful
  gained := hbacks.gained
  fees := by
    have hpaid : (db.updated update).paidTo chain = db.paidTo chain := by
      rw [GatewayDB.paidTo, GatewayDB.updated, List.map_map, GatewayDB.paidTo]
      refine congrArg List.sum (List.map_congr_left fun row _ => ?_)
      rw [Function.comp_apply, hkeeps.depositAddress_eq]
    rw [FeesCovered, hpaid]
    exact hbacks.fees

theorem Backed.closed (userId : UserId) :
    Backed config owned chain (db.updated (.closed userId)) := by
  refine hbacks.updated (keepsRow_closed userId) (hbacks.traced.closed userId)
    fun row hrow hstatus => ?_
  rw [StakeDeposit.closed] at hstatus ⊢
  split_ifs at hstatus ⊢ with hclosed
  · exact hbacks.backed row hrow (by rw [hclosed.2]; decide)
  · exact hbacks.backed row hrow hstatus

/-- A deposit is marked with a payment to it, which is worth the amount recorded. -/
theorem Backed.activated (hread : FairlyRead config owned chain db) {dep : StakeDeposit}
    (hdep : dep ∈ db.deposits) (hawaiting : dep.status = .awaitingFunds) {u : Unspent}
    (hlisted : ListedFor owned chain dep u) :
    Backed config owned chain
      (db.updated (.activated dep.id u.outpoint (config.fromNode u.amount))) := by
  refine hbacks.updated (keepsRow_activated _ _ _)
    (hbacks.traced.activated hdep hawaiting hlisted _) fun row hrow hstatus => ?_
  rw [StakeDeposit.activated] at hstatus ⊢
  split_ifs at hstatus ⊢ with hid
  · obtain rfl := hbacks.traced.sound.eq_of_id_eq hrow hdep hid
    obtain ⟨hex, hcoin⟩ := hlisted
    have hpayment := hread.pending row hrow hawaiting _ hcoin rfl
    have hnonneg := nonneg_paymentsTo hbacks.traced.valid row.depositAddress
    have hle : u.amount ≤ totalValue (chain.paymentsTo row.depositAddress) := by
      refine List.single_le_sum (fun value hvalue => ?_) _ (List.mem_map_of_mem hpayment)
      obtain ⟨output, houtput, rfl⟩ := List.mem_map.mp hvalue
      exact hnonneg output houtput
    exact (hread.payments row hrow hawaiting _ hpayment).trans hle
  · exact hbacks.backed row hrow hstatus

theorem Backed.opened (userId : UserId) {address : Address} (howned : owned address = true)
    (hunused : ∀ output ∈ chain.outputs, output.2.address ≠ some address)
    (hnew : ∀ row ∈ db.deposits, row.depositAddress ≠ address) :
    Backed config owned chain (db.opened userId address) where
  traced := hbacks.traced.opened userId hnew
  mine row hrow := by
    rcases List.mem_append.mp hrow with hbefore | hlast
    · exact hbacks.mine row hbefore
    · rw [List.mem_singleton.mp hlast]
      exact howned
  backed row hrow hstatus := by
    rcases List.mem_append.mp hrow with hbefore | hlast
    · exact hbacks.backed row hbefore hstatus
    · rw [List.mem_singleton.mp hlast] at hstatus
      contradiction
  rewarded := hbacks.rewarded
  gainful := hbacks.gainful
  gained := hbacks.gained
  fees := by
    have hnone : chain.paymentsTo address = [] := by
      refine List.eq_nil_iff_forall_not_mem.mpr fun output hmem => ?_
      obtain ⟨tx, htx, _, houtput, haddress⟩ := mem_paymentsTo.mp hmem
      exact hunused output (List.mem_flatMap.mpr ⟨tx, htx, houtput⟩) haddress
    have hpaid : (db.opened userId address).paidTo chain = db.paidTo chain := by
      rw [GatewayDB.paidTo, GatewayDB.opened, List.map_append, List.sum_append,
        List.map_singleton, hnone]
      exact add_zero _
    rw [FeesCovered, hpaid]
    exact hbacks.fees

/-- A reward is recorded as part of the gain of its coinstake. -/
theorem Backed.recorded (hfee : 0 ≤ config.poolFeeBp) (hread : FairlyRead config owned chain db)
    {row : StakeDeposit} (hrow : row ∈ db.deposits) (hactive : row.status = .active)
    {txid : TxId} {tx : RawTx} {total : ℤ}
    (hattributable : Attributable config owned chain row txid tx total) :
    Backed config owned chain (db.execute (.insertReward
      (rewardRow config row.id txid (tx.outTotal config - total)))).2 := by
  have htraced := hbacks.traced.recorded hrow hactive hattributable
  have htx := List.mem_of_find?_eq_some hattributable.lookup
  have hstake : chain.isStakeOf owned tx = true := by
    obtain ⟨funding, out, hfunding, hout, hmine, _⟩ :=
      hbacks.traced.funded row hrow (by rw [hactive]; decide)
    have hspends := hattributable.spends
    rw [hfunding, Option.any_some] at hspends
    have hspent : (funding, out) ∈ chain.spentBy owned tx :=
      List.mem_filter.mpr ⟨List.mem_filter.mpr ⟨hout, hmine⟩, hspends⟩
    rw [PoolChain.isStakeOf, hattributable.coinstake, Bool.true_and, Bool.not_eq_true',
      List.isEmpty_eq_false_iff]
    exact List.ne_nil_of_mem hspent
  obtain ⟨hnonneg, hle⟩ := hread.gains tx htx hstake total hattributable.inputs
  have hkept : 0 ≤ (tx.outTotal config - total) * config.poolFeeBp / 10000 :=
    Int.ediv_nonneg (mul_nonneg hnonneg hfee) (by decide)
  rw [GatewayDB.execute] at htraced ⊢
  split_ifs at htraced ⊢
  · exact hbacks
  · refine ⟨htraced, hbacks.mine, hbacks.backed, fun reward hreward => ?_, hbacks.gainful,
      hbacks.gained, ?_⟩
    · rcases List.mem_append.mp hreward with hbefore | hlast
      · exact hbacks.rewarded reward hbefore
      · rw [List.mem_singleton.mp hlast]
        have htxid : tx.txid = txid := by simpa using List.find?_some hattributable.lookup
        refine ⟨tx, htx, htxid, hstake, ?_, hkept⟩
        rw [rewardRow, sub_add_cancel]
        exact hle
    · have hbefore : chain.flows.fees ≤ chain.flows.received - db.paidTo chain + db.poolFees :=
        hbacks.fees
      rw [FeesCovered, GatewayDB.poolFees, List.map_append, List.sum_append, List.map_singleton,
        List.sum_singleton]
      refine hbefore.trans ?_
      dsimp only [GatewayDB.paidTo, GatewayDB.poolFees, rewardRow]
      linarith

end

theorem FairlyRead.activated (hread : FairlyRead config owned chain db) (id : DepositId)
    (funding : OutPoint) (amountSatoshis : ℤ) :
    FairlyRead config owned chain (db.updated (.activated id funding amountSatoshis)) := by
  have hwaiting : ∀ row ∈ (db.updated (.activated id funding amountSatoshis)).deposits,
      row.status = .awaitingFunds → row ∈ db.deposits := by
    intro row hrow hstatus
    obtain ⟨before, hbefore, rfl⟩ := List.mem_map.mp hrow
    rw [StakeDeposit.activated] at hstatus ⊢
    split_ifs at hstatus ⊢
    exact hbefore
  exact ⟨fun row hrow hstatus => hread.pending row (hwaiting row hrow hstatus) hstatus,
    fun row hrow hstatus => hread.payments row (hwaiting row hrow hstatus) hstatus, hread.gains⟩

theorem keeps_backed_watching (hfee : 0 ≤ config.poolFeeBp) (chain : PoolChain) {position : ℕ}
    {job : Job} :
    Keeps (storeAnswers (chainNode config owned) position job)
      (Static chain fun db => Backed config owned chain db ∧ FairlyRead config owned chain db)
      (runWatcherPass config) := by
  refine keeps_bind (keeps_marking (fun _ hdb => hdb.1.traced.sound) ?_) fun _ =>
    keeps_attributingRewards fun deposits => ?_
  · rintro db dep u ⟨hbacks, hread⟩ hdep hawaiting hlisted
    exact ⟨hbacks.activated hread hdep hawaiting hlisted, hread.activated _ _ _⟩
  · rintro db row txid tx total ⟨rfl, hbacks, hread⟩ hrow hattributable
    obtain ⟨hmem, hactive⟩ := List.mem_filter.mp hrow
    refine ⟨?_, hbacks.recorded hfee hread hmem (of_decide_eq_true hactive) hattributable, ?_⟩
    · rw [GatewayDB.execute]
      split_ifs <;> rfl
    · rw [GatewayDB.execute]
      split_ifs
      · exact hread
      · exact ⟨hread.pending, hread.payments, hread.gains⟩

theorem keeps_backed_opening (userId : UserId) {position : ℕ} {job : Job} :
    Keeps (storeAnswers (chainNode config owned) position job)
      (fun store => Backed config owned store.node store.db) (createDeposit config userId) :=
  keeps_openedDeposit userId (fun _ _ _ hbacks => Backed.congr hbacks rfl rfl)
    fun _ _ _ howned hunused hnew hbacks => hbacks.opened userId howned hunused hnew

/-- A move in which a pass reads no amount as more than it is and comes before the coins
stake, and a withdrawal of the whole balance leaves the network fees covered. -/
structure CoveredMoves (config : PoolConfig) (owned : Address → Bool)
    (store : PoolStore PoolChain) (move : PoolMove) (next : PoolStore PoolChain) : Prop where
  full : FullMoves config owned store move next
  watch : ∀ event, move = .job event → event.job = .watch →
    FairlyRead config owned store.node store.db
  withdrawal : ∀ event userId amountSatoshis toAddress, move = .job event →
    event.job = .withdrawal userId amountSatoshis toAddress → FeesCovered next.node next.db

theorem Backed.step (hfee : 0 ≤ config.poolFeeBp) {store next : PoolStore PoolChain}
    {move : PoolMove} (hbacks : Backed config owned store.node store.db)
    (hmove : CoveredMoves config owned store move next) :
    Backed config owned next.node next.db := by
  obtain ⟨⟨hmoves, _⟩, hread, hfees⟩ := hmove
  cases move with
  | receive tx =>
    obtain ⟨hreceives, rfl⟩ := hmoves
    have hnot : store.node.isStakeOf owned tx = false := by
      rw [PoolChain.isStakeOf, hreceives.spentBy_eq, List.isEmpty_nil, Bool.not_true,
        Bool.and_false]
    refine hbacks.append hreceives.fresh (hbacks.traced.valid.receive hreceives)
      (fun hstake => absurd (hnot.symm.trans hstake) Bool.false_ne_true) ?_ ?_
    · rw [hnot]
      exact (add_zero _).le
    · have hpaid : store.db.paidTo (store.node.receive owned tx) ≤ _ :=
        hbacks.paidTo_append_le hreceives.fresh
      have hbefore : store.node.flows.fees ≤ _ := hbacks.fees
      change store.node.flows.fees ≤ store.node.flows.received + tx.credit owned -
        store.db.paidTo (store.node.receive owned tx) + store.db.poolFees
      linarith
  | stake tx =>
    obtain ⟨hstakes, rfl⟩ := hmoves
    have hgain : 0 ≤ store.node.gainOf owned tx := by
      obtain ⟨fees, hfees, hvalue⟩ := hstakes.gain
      have hreward : 0 ≤ fixedStakeReward := by decide
      rw [PoolChain.gainOf, hvalue]
      linarith
    refine hbacks.append hstakes.fresh (hbacks.traced.valid.stake hstakes) (fun _ => hgain) ?_ ?_
    · split_ifs
      · exact le_rfl
      · exact add_le_add_right hgain _
    · have hpaid : store.db.paidTo (store.node.stake owned tx) = store.db.paidTo store.node := by
        rw [PoolChain.stake, paidTo_append, hstakes.coinstake]
        simp [totalValue]
      change store.node.flows.fees ≤ store.node.flows.received -
        store.db.paidTo (store.node.stake owned tx) + store.db.poolFees
      rw [hpaid]
      exact hbacks.fees
  | mature txid =>
    obtain rfl := hmoves
    exact hbacks.congr rfl rfl
  | job event =>
    obtain ⟨job, before⟩ := event
    obtain rfl : before = store := hmoves.1
    cases job with
    | deposit userId =>
      obtain ⟨_, outcome, hfinishes, _⟩ := hmoves
      exact (keeps_bind (keeps_backed_opening userId) (fun _ => keeps_done ()) before
        hbacks).of_finishes hfinishes
    | watch =>
      obtain ⟨_, outcome, hfinishes, _⟩ := hmoves
      obtain ⟨hnode, hdb, _⟩ := (keeps_backed_watching hfee before.node before
        ⟨rfl, hbacks, hread _ rfl rfl⟩).of_finishes hfinishes
      rw [hnode]
      exact hdb
    | withdrawal userId amountSatoshis toAddress =>
      have hnext := hfees _ userId amountSatoshis toAddress rfl rfl
      obtain ⟨_, tx, hpays, rfl⟩ := completes_withdrawal_iff.mp hmoves
      have hnot : before.node.isStakeOf owned tx = false := by
        rw [PoolChain.isStakeOf, hpays.ordinary, Bool.false_and]
      refine (hbacks.closed userId).append hpays.fresh (hbacks.traced.valid.pay hpays)
        (fun hstake => absurd (hnot.symm.trans hstake) Bool.false_ne_true) ?_ hnext
      rw [hnot]
      exact (add_zero _).le

theorem solvent_of_covered (config : PoolConfig) (owned : Address → Bool) (chain : PoolChain)
    (nextId : DepositId) (hfee : 0 ≤ config.poolFeeBp) (hvalid : chain.Valid owned)
    (hnew : ∀ output ∈ chain.outputs, output.2.isMine owned = false)
    (hflows : chain.flows = ⟨0, 0, 0⟩) (moves : List PoolMove) (final : PoolStore PoolChain)
    (hrun : Run (CoveredMoves config owned) ⟨⟨[], [], nextId⟩, chain, []⟩ moves final) :
    Solvent owned final := by
  have hnone : chain.outputs.filter (fun output => output.2.isMine owned) = [] :=
    List.filter_eq_nil_iff.mpr fun output hmem => by
      rw [hnew output hmem]
      exact Bool.false_ne_true
  have hstake : ∀ tx, chain.isStakeOf owned tx = false := by
    intro tx
    rw [PoolChain.isStakeOf, PoolChain.spentBy, hnone, List.filter_nil, List.isEmpty_nil,
      Bool.not_true, Bool.and_false]
  have hbooks : Books owned (⟨⟨[], [], nextId⟩, chain, []⟩ : PoolStore PoolChain) := by
    have hcoins : chain.coins owned = [] := by
      refine List.eq_nil_iff_forall_not_mem.mpr fun output hmem => ?_
      have hmine := hnew output (mem_outputs_of_mem_coins hmem)
      exact Bool.false_ne_true (hmine.symm.trans (List.mem_filter.mp hmem).2)
    have hheld : chain.held owned = 0 := by
      rw [PoolChain.held, hcoins]
      rfl
    refine ⟨⟨⟨List.nodup_nil, List.forall_mem_nil _⟩, List.forall_mem_nil _⟩, fun _ => rfl, ?_⟩
    rw [Accounted, hheld, hflows]
    rfl
  have hbacks : Backed config owned chain ⟨[], [], nextId⟩ := by
    refine ⟨tracedStore_empty config owned hvalid nextId [], List.forall_mem_nil _,
      List.forall_mem_nil _, List.forall_mem_nil _,
      fun tx _ htx => absurd ((hstake tx).symm.trans htx) Bool.false_ne_true, ?_, ?_⟩
    · rw [PoolChain.gains, List.filter_eq_nil_iff.mpr fun tx _ => by
        rw [hstake tx]
        exact Bool.false_ne_true, hflows]
      rfl
    · rw [FeesCovered, hflows]
      exact le_rfl
  have hfinal := hrun.invariant (fun _ store => Books owned store ∧
    Backed config owned store.node store.db) ⟨hbooks, hbacks⟩ fun _ _ _ _ hstore hmove =>
      ⟨hstore.1.step hmove.full, hstore.2.step hfee hmove⟩
  exact hfinal.2.solvent hfinal.1

end Coverage


section Sample

def poolAddresses (address : Address) : Bool := decide (address < 100)

def emptyPool : PoolStore PoolChain := ⟨⟨[], [], 1⟩, ⟨[], [], ⟨0, 0, 0⟩, []⟩, []⟩

/-- Two users have asked for a deposit address. -/
def openPool : PoolStore PoolChain :=
  ⟨⟨[⟨1, 1, 1, none, none, .awaitingFunds⟩, ⟨2, 2, 2, none, none, .awaitingFunds⟩], [], 3⟩,
    ⟨[], [(2, .deposit 2), (2, .pending), (1, .deposit 1), (1, .pending)], ⟨0, 0, 0⟩, []⟩, []⟩

def tenCoinsTx (txid : TxId) (address : Address) : RawTx :=
  ⟨txid, [some ⟨1000, address⟩], [⟨1000000000, [], some address⟩]⟩

def fiveCoinsTx : RawTx := ⟨12, [some ⟨1001, 1⟩], [⟨500000000, [], some 1⟩]⟩

/-- Both have sent ten coins, and the watcher has run. -/
def fundedPool : PoolStore PoolChain :=
  ⟨⟨[⟨1, 1, 1, some ⟨10, 0⟩, some 1000000000, .active⟩,
      ⟨2, 2, 2, some ⟨11, 0⟩, some 1000000000, .active⟩], [], 3⟩,
    ⟨[tenCoinsTx 10 1, tenCoinsTx 11 2],
      [(2, .deposit 2), (2, .pending), (1, .deposit 1), (1, .pending)], ⟨2000000000, 0, 0⟩, []⟩, []⟩

theorem completes_openPool :
    ∃ store, Completes .sample (chainNode .sample poolAddresses) emptyPool
        ⟨.deposit 1, emptyPool⟩ store ∧
      Completes .sample (chainNode .sample poolAddresses) store ⟨.deposit 2, store⟩ openPool := by
  refine ⟨_, ⟨rfl, .ok (), .ask ⟨_, _, .listWallets, rfl⟩ (.ask ⟨_, _, .getNewAddress 1 rfl rfl nofun, rfl⟩
    (.ask ⟨rfl, rfl⟩ (.ask ⟨_, _, .setLabel 1 (.deposit 1), rfl⟩ .done))), nofun⟩,
    rfl, .ok (), .ask ⟨_, _, .listWallets, rfl⟩ (.ask ⟨_, _, .getNewAddress 2 rfl rfl nofun, rfl⟩
    (.ask ⟨rfl, rfl⟩ (.ask ⟨_, _, .setLabel 2 (.deposit 2), rfl⟩ .done))), nofun⟩

/-- The watcher marks both deposits as funded. -/
theorem completes_fundedPool :
    Completes .sample (chainNode .sample poolAddresses) { openPool with node := fundedPool.node }
      ⟨.watch, { openPool with node := fundedPool.node }⟩ fundedPool := by
  refine ⟨rfl, .ok (), .ask ⟨_, _, .listWallets, rfl⟩ (.ask ⟨rfl, rfl⟩
    (.ask ⟨_, _, .listUnspent 1 [⟨⟨10, 0⟩, 1000000000⟩] ?_, rfl⟩ (.ask ⟨rfl, rfl⟩
    (.ask ⟨_, _, .listUnspent 2 [⟨⟨11, 0⟩, 1000000000⟩] ?_, rfl⟩ (.ask ⟨rfl, rfl⟩
    (.ask ⟨_, _, .listWallets, rfl⟩ (.ask ⟨rfl, rfl⟩ (.ask ⟨_, _, .getTxOut ⟨10, 0⟩, rfl⟩
    (.ask ⟨_, _, .getTxOut ⟨11, 0⟩, rfl⟩ .done))))))))), nofun⟩
  · intro u hmem
    rw [List.mem_singleton.mp hmem]
    exact ⟨[], by decide⟩
  · intro u hmem
    rw [List.mem_singleton.mp hmem]
    exact ⟨[], by decide⟩

def PoolMove.isDeposit : PoolMove → Bool
  | .job ⟨.withdrawal _ _ _, _⟩ => false
  | _ => true

theorem poolMoves_receive {chain : PoolChain} {db : GatewayDB} {payments : List Payment}
    (txid : TxId) (address : Address) (hfresh : chain.Fresh (tenCoinsTx txid address))
    (hothers : ∀ output ∈ chain.outputs, output.1 ≠ ⟨1000, address⟩) :
    PoolMoves .sample poolAddresses ⟨db, chain, payments⟩ (.receive (tenCoinsTx txid address))
      ⟨db, chain.receive poolAddresses (tenCoinsTx txid address), payments⟩ := by
  refine ⟨⟨hfresh, fun output hmem _ => ?_⟩, rfl⟩
  simp [RawTx.spends, tenCoinsTx, Ne.symm (hothers output hmem)]

theorem fullMoves_of_isDeposit {store next : PoolStore PoolChain} {move : PoolMove}
    (hmoves : PoolMoves .sample poolAddresses store move next) (hdeposit : move.isDeposit = true) :
    FullMoves .sample poolAddresses store move next := by
  refine ⟨hmoves, ?_⟩
  rintro ⟨job, before⟩ rfl userId amountSatoshis toAddress hjob
  obtain rfl : job = _ := hjob
  exact absurd hdeposit Bool.false_ne_true

theorem coveredMoves_of_isDeposit {store next : PoolStore PoolChain} {move : PoolMove}
    (hmoves : PoolMoves .sample poolAddresses store move next) (hdeposit : move.isDeposit = true)
    (hread : ∀ event, move = .job event → event.job = .watch →
      FairlyRead .sample poolAddresses store.node store.db) :
    CoveredMoves .sample poolAddresses store move next := by
  refine ⟨fullMoves_of_isDeposit hmoves hdeposit, hread, ?_⟩
  rintro ⟨job, before⟩ userId amountSatoshis toAddress rfl hjob
  obtain rfl : job = _ := hjob
  exact absurd hdeposit Bool.false_ne_true

/-- The pool is funded in every system that has these moves without withdrawals. -/
theorem run_fundedPool {step : PoolStore PoolChain → PoolMove → PoolStore PoolChain → Prop}
    (hstep : ∀ store move next, CoveredMoves .sample poolAddresses store move next →
      move.isDeposit = true → step store move next) :
    ∃ moves, Run step emptyPool moves fundedPool := by
  have hplain : ∀ store move next, PoolMoves .sample poolAddresses store move next →
      move.isDeposit = true → (∀ before, move ≠ .job ⟨.watch, before⟩) → step store move next := by
    refine fun store move next hmoves hdeposit hplain => hstep store move next
      (coveredMoves_of_isDeposit hmoves hdeposit ?_) hdeposit
    rintro ⟨job, before⟩ rfl hwatch
    obtain rfl : job = _ := hwatch
    exact absurd rfl (hplain before)
  obtain ⟨store, hfirst, hsecond⟩ := completes_openPool
  have hopened := (Run.nil.snoc (hplain emptyPool (.job ⟨.deposit 1, emptyPool⟩) store hfirst
    rfl nofun)).snoc (hplain store (.job ⟨.deposit 2, store⟩) openPool hsecond rfl nofun)
  have hsent := (hopened.snoc (hplain _ _ _ (poolMoves_receive 10 1 (fresh_of_inputs (by decide)
    (by decide) (by decide) (by decide)) (by decide)) rfl nofun)).snoc (hplain _ _ _
      (poolMoves_receive 11 2 (fresh_of_inputs (by decide) (by decide) (by decide) (by decide))
        (by decide)) rfl nofun)
  refine ⟨_, hsent.snoc (hstep _ (.job ⟨.watch, _⟩) _ (coveredMoves_of_isDeposit
    completes_fundedPool rfl fun _ _ _ => ⟨?_, fun _ _ _ _ _ => le_rfl, ?_⟩) rfl)⟩
  · unfold UnstakedPending
    decide
  · have hnone : ∀ tx ∈ fundedPool.node.txs,
        fundedPool.node.isStakeOf poolAddresses tx = false := by decide
    exact fun tx hmem hstake => absurd ((hnone tx hmem).symm.trans hstake) Bool.false_ne_true

/-- The first user withdraws all ten coins, with a fee of 10000. -/
def drainTx : RawTx :=
  ⟨12, [some ⟨10, 0⟩, some ⟨11, 0⟩], [⟨1000000000, [], some 200⟩, ⟨999990000, [], some 3⟩]⟩

theorem pays_drainTx {chain : PoolChain} (hfresh : chain.Fresh drainTx)
    (hcoins : ∀ output ∈ [((⟨10, 0⟩, ⟨1000000000, [], some 1⟩) : OutPoint × Vout),
      (⟨11, 0⟩, ⟨1000000000, [], some 2⟩)], output ∈ chain.spendable poolAddresses)
    (hfee : drainTx.valueOut < chain.debit poolAddresses drainTx) :
    Pays .sample poolAddresses chain 200 1000000000 drainTx where
  fresh := hfresh
  ordinary := rfl
  coins := by
    intro outpoint hspends
    have hinput : some outpoint = some ⟨10, 0⟩ ∨ some outpoint = some ⟨11, 0⟩ := by
      simpa [drainTx] using spends_iff.mp hspends
    rcases hinput with heq | heq
    · exact ⟨_, hcoins _ List.mem_cons_self, (Option.some.inj heq).symm⟩
    · exact ⟨_, hcoins _ (List.mem_cons_of_mem _ List.mem_cons_self), (Option.some.inj heq).symm⟩
  positive := by decide
  outputs := ⟨[], [], [⟨999990000, [], some 3⟩], rfl, by decide, le_rfl⟩
  fee := hfee

def drainedPool : PoolStore PoolChain :=
  fundedPool.withdrawn .sample poolAddresses 1 1000000000 200 drainTx

theorem completes_drainedPool :
    Completes .sample (chainNode .sample poolAddresses) fundedPool
      ⟨.withdrawal 1 1000000000 200, fundedPool⟩ drainedPool :=
  completes_withdrawal_iff.mpr ⟨by decide, drainTx, pays_drainTx (fresh_of_inputs (by decide)
    (by decide) (by decide) (by decide)) (by decide) (by decide), rfl⟩

theorem fullMoves_drain {store next : PoolStore PoolChain}
    (hcompletes : Completes .sample (chainNode .sample poolAddresses) store
      ⟨.withdrawal 1 1000000000 200, store⟩ next) (hshown : store.db.shown 1 = 1000000000) :
    FullMoves .sample poolAddresses store (.job ⟨.withdrawal 1 1000000000 200, store⟩) next := by
  refine ⟨hcompletes, ?_⟩
  intro event hevent userId amountSatoshis toAddress hjob
  obtain rfl := PoolMove.job.inj hevent
  obtain ⟨rfl, rfl, _⟩ := Job.withdrawal.inj hjob
  exact hshown.symm

/-- The operator adds a coin at an address of no deposit, before the first user withdraws. -/
def topUpTx : RawTx := ⟨13, [some ⟨1000, 50⟩], [⟨100000000, [], some 50⟩]⟩

def toppedUpPool : PoolStore PoolChain :=
  { fundedPool with node := fundedPool.node.receive poolAddresses topUpTx }

def coveredPool : PoolStore PoolChain :=
  toppedUpPool.withdrawn .sample poolAddresses 1 1000000000 200 drainTx

/-- The coin pays for the fee of the withdrawal. -/
theorem solvent_coveredPool :
    coveredPool.node.flows.fees = 10000 ∧
      coveredPool.node.held poolAddresses = 1099990000 ∧ Solvent poolAddresses coveredPool := by
  obtain ⟨moves, hrun⟩ := run_fundedPool fun _ _ _ hmoves _ => hmoves
  have hreceives : PoolMoves .sample poolAddresses fundedPool (.receive topUpTx) toppedUpPool :=
    ⟨⟨fresh_of_inputs (by decide) (by decide) (by decide) (by decide), by decide⟩, rfl⟩
  have hcompletes : Completes .sample (chainNode .sample poolAddresses) toppedUpPool
      ⟨.withdrawal 1 1000000000 200, toppedUpPool⟩ coveredPool :=
    completes_withdrawal_iff.mpr ⟨by decide, drainTx, pays_drainTx (fresh_of_inputs (by decide)
      (by decide) (by decide) (by decide)) (by decide) (by decide), rfl⟩
  have htoppedUp := hrun.snoc (coveredMoves_of_isDeposit hreceives rfl nofun)
  refine ⟨by decide, by decide, solvent_of_covered .sample poolAddresses emptyPool.node 1
    (by decide) ⟨List.nodup_nil, nofun, nofun, nofun⟩ nofun rfl _ coveredPool
    (htoppedUp.snoc ⟨fullMoves_drain hcompletes (by decide), nofun, fun _ _ _ _ _ _ => ?_⟩)⟩
  unfold FeesCovered
  decide

/-- Without it the wallet lacks the fee of what it shows to the second user. -/
theorem not_solvent_drainedPool :
    (∃ moves, Run (FullMoves .sample poolAddresses) emptyPool moves drainedPool) ∧
      ∑ userId ∈ drainedPool.db.users, drainedPool.db.shown userId = 1000000000 ∧
      drainedPool.node.held poolAddresses = 999990000 ∧
      ¬ Solvent poolAddresses drainedPool := by
  obtain ⟨moves, hrun⟩ := run_fundedPool fun _ _ _ hmoves _ => hmoves.full
  refine ⟨⟨_, hrun.snoc (fullMoves_drain completes_drainedPool (by decide))⟩, by decide, by decide,
    ?_⟩
  rw [Solvent]
  decide

end Sample

end FirstIslamicCoin.StakingService
