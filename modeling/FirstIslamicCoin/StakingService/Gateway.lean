import FirstIslamicCoin.Core.Interaction
import FirstIslamicCoin.Primitives.Script

/-!
# The staking service

`staking.py` with the tables of `db.py` it uses and the calls of `rpc.py`.  The service
has no lock: each function is a program that makes one SQL statement or one node call
at a time, and several of them run at once.  Each connection commits every statement
on its own, so a statement is atomic and nothing larger is.  Notifications and referral
credits touch neither table and are left out, as are the times recorded in the rows.
An amount goes to the node as `amount_satoshis / COIN` and comes back as
`round(value * COIN)`, through a double and its decimal form both times; what the other
side reads is a parameter.
-/

namespace FirstIslamicCoin.StakingService

abbrev UserId := ℕ

abbrev DepositId := ℕ

abbrev TxId := ℕ

abbrev Address := ℕ

section Tables

inductive DepositStatus where
  | awaitingFunds
  | active
  | withdrawn
  deriving DecidableEq, Repr

structure OutPoint where
  txid : TxId
  vout : ℕ
  deriving DecidableEq, Repr

/-- A row of `stake_deposits`.  The funding columns are null until it is funded. -/
structure StakeDeposit where
  id : DepositId
  userId : UserId
  depositAddress : Address
  funding : Option OutPoint
  amountSatoshis : Option ℤ
  status : DepositStatus
  deriving DecidableEq, Repr

structure StakeReward where
  depositId : DepositId
  coinstakeTxid : TxId
  grossRewardSatoshis : ℤ
  poolFeeSatoshis : ℤ
  netRewardSatoshis : ℤ
  deriving DecidableEq, Repr

/-- The two tables, with the counter behind `AUTOINCREMENT`. -/
structure GatewayDB where
  deposits : List StakeDeposit
  rewards : List StakeReward
  nextId : DepositId
  deriving DecidableEq, Repr

/-- The SQL statements of `staking.py`. -/
inductive Statement where
  | selectDeposits (userId : UserId)
  | insertDeposit (userId : UserId) (depositAddress : Address)
  | closeDeposits (userId : UserId)
  | selectPending
  | activateDeposit (id : DepositId) (funding : OutPoint) (amountSatoshis : ℤ)
  | selectActive
  | sumRewards (ids : List DepositId)
  | rewardRecorded (txid : TxId)
  | insertReward (reward : StakeReward)
  deriving DecidableEq, Repr

/-- What a statement returns.  An insert that breaks a `UNIQUE` constraint returns
nothing. -/
def Statement.Rows : Statement → Type
  | .selectDeposits _ => List StakeDeposit
  | .insertDeposit _ _ => Option DepositId
  | .closeDeposits _ => Unit
  | .selectPending => List StakeDeposit
  | .activateDeposit _ _ _ => Unit
  | .selectActive => List StakeDeposit
  | .sumRewards _ => ℤ
  | .rewardRecorded _ => Bool
  | .insertReward _ => Unit

namespace StakeDeposit

/-- `UPDATE … SET status='active', … WHERE id=?`; the status is not tested. -/
def activated (id : DepositId) (funding : OutPoint) (amountSatoshis : ℤ) (row : StakeDeposit) :
    StakeDeposit :=
  if row.id = id then
    { row with
      status := .active, funding := some funding, amountSatoshis := some amountSatoshis }
  else row

/-- `UPDATE … SET status='withdrawn' … WHERE user_id=? AND status='active'`. -/
def closed (userId : UserId) (row : StakeDeposit) : StakeDeposit :=
  if row.userId = userId ∧ row.status = .active then { row with status := .withdrawn } else row

end StakeDeposit

namespace GatewayDB

def sumRewards (db : GatewayDB) (ids : List DepositId) : ℤ :=
  ((db.rewards.filter fun reward => decide (reward.depositId ∈ ids)).map
    StakeReward.netRewardSatoshis).sum

/-- One statement: its rows and the tables after it. -/
def execute (db : GatewayDB) : (statement : Statement) → statement.Rows × GatewayDB
  | .selectDeposits userId => (db.deposits.filter fun row => row.userId = userId, db)
  | .insertDeposit userId depositAddress =>
      if db.deposits.any fun row => row.depositAddress = depositAddress then (none, db)
      else (some db.nextId,
        { db with
          deposits := db.deposits ++
            [⟨db.nextId, userId, depositAddress, none, none, .awaitingFunds⟩]
          nextId := db.nextId + 1 })
  | .closeDeposits userId => ((), { db with deposits := db.deposits.map (.closed userId) })
  | .selectPending => (db.deposits.filter fun row => row.status = .awaitingFunds, db)
  | .activateDeposit id funding amountSatoshis =>
      ((), { db with deposits := db.deposits.map (.activated id funding amountSatoshis) })
  | .selectActive => (db.deposits.filter fun row => row.status = .active, db)
  | .sumRewards ids => (db.sumRewards ids, db)
  | .rewardRecorded txid => (db.rewards.any fun reward => reward.coinstakeTxid = txid, db)
  | .insertReward reward =>
      -- INSERT OR IGNORE, with coinstake_txid UNIQUE
      if db.rewards.any fun other => other.coinstakeTxid = reward.coinstakeTxid then ((), db)
      else ((), { db with rewards := db.rewards ++ [reward] })

end GatewayDB

end Tables

section Node

structure RpcError where
  code : ℤ
  message : String
  deriving DecidableEq, Repr

/-- `deposit:pending` and `deposit:{id}`. -/
inductive Label where
  | pending
  | deposit (id : DepositId)
  deriving DecidableEq, Repr

/-- An output of a transaction in the form `getrawtransaction` shows it. -/
structure Vout where
  value : ℤ
  hex : CScript
  address : Option Address
  deriving DecidableEq, Repr

/-- A transaction; an input without an outpoint is that of a coinbase. -/
structure RawTx where
  txid : TxId
  vin : List (Option OutPoint)
  vout : List Vout
  deriving DecidableEq, Repr

structure Unspent where
  outpoint : OutPoint
  amount : ℤ
  deriving DecidableEq, Repr

/-- The node calls of `staking.py`.  An amount to send is in satoshis. -/
inductive RpcCall where
  | listWallets
  | loadWallet
  | listWalletDir
  | createWallet
  | getNewAddress
  | setLabel (address : Address) (label : Label)
  | listUnspent (address : Address)
  | getTxOut (outpoint : OutPoint)
  | listTransactions (label : Label) (count : ℕ)
  | getRawTransaction (txid : TxId)
  | sendToAddress (address : Address) (amountSatoshis : ℤ)
  deriving DecidableEq, Repr

/-- What a call returns when it does not raise.  `getTxOut` tells whether there is an
output, and `listTransactions` the ids of its entries. -/
def RpcCall.Reply : RpcCall → Type
  | .listWallets => List String
  | .loadWallet => Unit
  | .listWalletDir => List String
  | .createWallet => Unit
  | .getNewAddress => Address
  | .setLabel _ _ => Unit
  | .listUnspent _ => List Unspent
  | .getTxOut _ => Bool
  | .listTransactions _ _ => List TxId
  | .getRawTransaction _ => RawTx
  | .sendToAddress _ _ => TxId

end Node

section Programs

/-- How an exception leaves a function: a `StakingError`, an `RpcError`, or another
one (a broken constraint, a missing key or index). -/
inductive ServiceFailure where
  | staking (code message : String)
  | rpc (error : RpcError)
  | other
  deriving DecidableEq, Repr

inductive Request where
  | sql (statement : Statement)
  | rpc (call : RpcCall)
  deriving DecidableEq, Repr

/-- A node call may raise, also when the node has acted on it. -/
def Request.Response : Request → Type
  | .sql statement => statement.Rows
  | .rpc call => Except RpcError call.Reply

abbrev Service (Result : Type) := Program ServiceFailure Request Request.Response Result

def sql (statement : Statement) : Service statement.Rows := .ask (.sql statement) .done

/-- `rpc.call` inside a `try`. -/
def tryCall (call : RpcCall) : Service (Except RpcError call.Reply) := .ask (.rpc call) .done

/-- `rpc.call`. -/
def call (asked : RpcCall) : Service asked.Reply :=
  .ask (.rpc asked) fun reply => match reply with
    | .ok result => .done result
    | .error error => .fail (.rpc error)

/-- The configuration, and how amounts cross to the node and back. -/
structure PoolConfig where
  poolWallet : String
  poolFeeBp : ℤ
  toNode : ℤ → ℤ
  fromNode : ℤ → ℤ

variable (config : PoolConfig)

def ensurePoolWalletLoaded : Service Unit := do
  let loaded : List String ← call .listWallets
  if config.poolWallet ∈ loaded then return ()
  else
    match ← tryCall .loadWallet with
    | .ok _ => return ()
    | .error error =>
        let onDisk : List String ← call .listWalletDir
        if config.poolWallet ∈ onDisk then
          .fail (.rpc ⟨error.code, "Wallet '" ++ config.poolWallet ++
            "' exists on disk but failed to load: " ++ error.message⟩)
        else
          let _ ← call .createWallet
          return ()

def createDeposit (userId : UserId) : Service Address := do
  ensurePoolWalletLoaded config
  let address : Address ← call .getNewAddress
  let inserted : Option DepositId ← sql (.insertDeposit userId address)
  match inserted with
  | none => .fail .other
  | some id =>
      let _ ← call (.setLabel address (.deposit id))
      return address

/-- The body of the loop of `_mark_funded_deposits`. -/
def markFundedDeposit (dep : StakeDeposit) : Service Unit := do
  let utxos : List Unspent ← call (.listUnspent dep.depositAddress)
  match utxos with
  | [] => return ()
  | u :: _ => sql (.activateDeposit dep.id u.outpoint (config.fromNode u.amount))

def markFundedDeposits : Service Unit := do
  ensurePoolWalletLoaded config
  let pending : List StakeDeposit ← sql .selectPending
  Program.foldEach (fun _ dep => markFundedDeposit config dep) () pending

def RawTx.isCoinstake (tx : RawTx) : Bool :=
  match tx.vin, tx.vout with
  | some _ :: _, first :: _ :: _ => first.value == 0 && first.hex.isEmpty
  | _, _ => false

def RawTx.spends (tx : RawTx) (outpoint : OutPoint) : Bool :=
  tx.vin.any fun vin => vin = some outpoint

/-- The value of one input, from the transaction it spends. -/
def inputValue (vin : Option OutPoint) : Service ℤ :=
  match vin with
  | none => .fail .other
  | some prevout => do
      let prevtx : RawTx ← call (.getRawTransaction prevout.txid)
      match prevtx.vout[prevout.vout]? with
      | none => .fail .other
      | some out => return config.fromNode out.value

def inTotal (tx : RawTx) : Service ℤ :=
  Program.foldEach (fun total vin => do
    let value ← inputValue config vin
    return total + value) 0 tx.vin

def RawTx.outTotal (tx : RawTx) : ℤ := (tx.vout.map fun out => config.fromNode out.value).sum

/-- The row for a coinstake; the pool fee is rounded down. -/
def rewardRow (depositId : DepositId) (txid : TxId) (gross : ℤ) : StakeReward where
  depositId := depositId
  coinstakeTxid := txid
  grossRewardSatoshis := gross
  poolFeeSatoshis := gross * config.poolFeeBp / 10000
  netRewardSatoshis := gross - gross * config.poolFeeBp / 10000

/-- The body of the inner loop of `_attribute_rewards`. -/
def attributeReward (dep : StakeDeposit) (txid : TxId) : Service Unit := do
  let already : Bool ← sql (.rewardRecorded txid)
  if already then return ()
  else
    match ← tryCall (.getRawTransaction txid) with
    | .error _ => return ()
    | .ok (tx : RawTx) =>
        if tx.isCoinstake && dep.funding.any tx.spends then
          let total ← inTotal config tx
          sql (.insertReward (rewardRow config dep.id txid (tx.outTotal config - total)))
        else return ()

/-- The body of the outer loop. -/
def attributeDeposit (dep : StakeDeposit) : Service Unit :=
  match dep.funding with
  -- the node refuses a null outpoint, and the error is skipped
  | none => return ()
  | some funding => do
      match ← tryCall (.getTxOut funding) with
      | .error _ => return ()
      | .ok (stillUnspent : Bool) =>
          if stillUnspent then return ()
          else
            let history : List TxId ← call (.listTransactions (.deposit dep.id) 50)
            Program.foldEach (fun _ txid => attributeReward config dep txid) () history

def attributeRewards : Service Unit := do
  ensurePoolWalletLoaded config
  let active : List StakeDeposit ← sql .selectActive
  Program.foldEach (fun _ dep => attributeDeposit config dep) () active

def runWatcherPass : Service Unit := do
  markFundedDeposits config
  attributeRewards config

structure StakingStatus where
  delegatedAmount : ℤ
  accruedRewards : ℤ
  poolFeeBp : ℤ
  canWithdraw : Bool
  deriving DecidableEq, Repr

def activeRows (deposits : List StakeDeposit) : List StakeDeposit :=
  deposits.filter fun row => row.status = .active

def delegatedOf (deposits : List StakeDeposit) : ℤ :=
  ((activeRows deposits).map fun row => row.amountSatoshis.getD 0).sum

def StakingStatus.of (deposits : List StakeDeposit) (rewardsTotal : ℤ) : StakingStatus where
  delegatedAmount := delegatedOf deposits
  accruedRewards := rewardsTotal
  poolFeeBp := config.poolFeeBp
  canWithdraw := decide (0 < delegatedOf deposits) || decide (0 < rewardsTotal)

def statusForUser (userId : UserId) : Service StakingStatus := do
  let deposits : List StakeDeposit ← sql (.selectDeposits userId)
  if (activeRows deposits).isEmpty then return .of config deposits 0
  else
    let rewardsTotal : ℤ ← sql (.sumRewards ((activeRows deposits).map StakeDeposit.id))
    return .of config deposits rewardsTotal

/-- The `except` clause of `withdraw`. -/
def withdrawFailure (error : RpcError) : ServiceFailure :=
  if error.code = -6 then
    .staking "not-found"
      "Funds are still maturing on-chain and aren't spendable yet -- try again shortly."
  else .staking "invalid-address" ("Withdrawal failed: " ++ error.message)

def withdraw (userId : UserId) (amountSatoshis : ℤ) (toAddress : Address) : Service TxId := do
  let status ← statusForUser config userId
  let available := status.delegatedAmount + status.accruedRewards
  if available < amountSatoshis then
    .fail (.staking "invalid-address" ("Requested " ++ toString amountSatoshis ++
      " exceeds available balance " ++ toString available))
  else
    ensurePoolWalletLoaded config
    match ← tryCall (.sendToAddress toAddress amountSatoshis) with
    | .error error => .fail (withdrawFailure error)
    | .ok txid =>
        sql (.closeDeposits userId)
        return txid

end Programs

end FirstIslamicCoin.StakingService
