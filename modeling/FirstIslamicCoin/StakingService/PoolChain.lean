import FirstIslamicCoin.StakingService.Conservation

/-!
# The chain behind the pool wallet

The node as the service sees it when it works: the transactions of the chain in order,
and the address book of the pool wallet.  What `listunspent`, `gettxout`,
`listtransactions` and `getrawtransaction` report is read off these, and `sendtoaddress`
adds a transaction that spends any mature coins of the wallet, returns change to it and
leaves a fee.  The wallet owns an output by its destination, so that the pay-to-pubkey
output of a coinstake counts as paid to the address of its key.
-/

namespace FirstIslamicCoin.StakingService

section Outputs

def RawTx.outputs (tx : RawTx) : List (OutPoint × Vout) :=
  tx.vout.zipIdx.map fun entry => (⟨tx.txid, entry.2⟩, entry.1)

def totalValue (outputs : List (OutPoint × Vout)) : ℤ :=
  (outputs.map fun output => output.2.value).sum

def Vout.isMine (owned : Address → Bool) (out : Vout) : Bool := out.address.any owned

/-- What a transaction pays to the wallet. -/
def RawTx.credit (owned : Address → Bool) (tx : RawTx) : ℤ :=
  ((tx.vout.filter fun out => out.isMine owned).map Vout.value).sum

def RawTx.valueOut (tx : RawTx) : ℤ := (tx.vout.map Vout.value).sum

/-- What the wallet has received, gained by staking and left as fees so far, for the
statements only. -/
structure Flows where
  received : ℤ
  gained : ℤ
  fees : ℤ
  deriving DecidableEq, Repr

/-- The chain with the coinstakes that are not mature yet. -/
structure PoolChain where
  txs : List RawTx
  book : List (Address × Label)
  flows : Flows
  immature : List TxId
  deriving DecidableEq, Repr

namespace PoolChain

variable (chain : PoolChain) (owned : Address → Bool)

def outputs : List (OutPoint × Vout) := chain.txs.flatMap RawTx.outputs

def isSpent (outpoint : OutPoint) : Bool := chain.txs.any fun tx => tx.spends outpoint

def unspent : List (OutPoint × Vout) :=
  chain.outputs.filter fun output => !chain.isSpent output.1

def coins : List (OutPoint × Vout) := chain.unspent.filter fun output => output.2.isMine owned

/-- Whether the outputs of a transaction may be spent: those of a coinstake wait for
`nCoinbaseMaturity` blocks. -/
def isMature (tx : RawTx) : Bool := !(tx.isCoinstake && chain.immature.contains tx.txid)

/-- The coins the wallet can spend, which are those that `listunspent` shows. -/
def spendable : List (OutPoint × Vout) :=
  ((chain.txs.filter chain.isMature).flatMap RawTx.outputs).filter fun output =>
    !chain.isSpent output.1 && output.2.isMine owned

def held : ℤ := totalValue (chain.coins owned)

/-- The outputs of the wallet that a transaction spends. -/
def spentBy (tx : RawTx) : List (OutPoint × Vout) :=
  (chain.outputs.filter fun output => output.2.isMine owned).filter fun output =>
    tx.spends output.1

/-- What a transaction takes from the wallet: `CachedTxGetDebit`. -/
def debit (tx : RawTx) : ℤ := totalValue (chain.spentBy owned tx)

def lookup (txid : TxId) : Option RawTx := chain.txs.find? fun tx => tx.txid = txid

def labelOf (address : Address) : Option Label :=
  (chain.book.find? fun entry => entry.1 = address).map Prod.snd

/-- The labels under which `ListTransactions` lists a transaction as received.  The
outputs of a coinstake of the wallet are condensed into one. -/
def receivedLabels (tx : RawTx) : List Label :=
  let received := (tx.vout.filter fun out => out.isMine owned).filterMap fun out =>
    out.address.bind chain.labelOf
  if tx.isCoinstake && decide (0 < chain.debit owned tx) then received.take 1 else received

/-- The ids in `listtransactions label count`, newest last. -/
def history (label : Label) (count : ℕ) : List TxId :=
  ((chain.txs.reverse.flatMap fun tx =>
    ((chain.receivedLabels owned tx).filter fun other => other = label).map fun _ => tx.txid).take
      count).reverse

def append (tx : RawTx) (flows : Flows) : PoolChain :=
  { chain with
    txs := chain.txs ++ [tx]
    flows := flows
    immature := if tx.isCoinstake then tx.txid :: chain.immature else chain.immature }

/-- A transaction that may come next: its id is new, it spends nothing twice, and no output
is negative. -/
structure Fresh (tx : RawTx) : Prop where
  txid_ne : ∀ other ∈ chain.txs, other.txid ≠ tx.txid
  notYet : ∀ other ∈ chain.txs ++ [tx], ∀ outpoint, other.spends outpoint = true →
    outpoint.txid ≠ tx.txid
  unspent : ∀ outpoint, tx.spends outpoint = true → chain.isSpent outpoint = false
  nonneg : ∀ out ∈ tx.vout, 0 ≤ out.value

end PoolChain

end Outputs

section Accounting

variable {chain : PoolChain} {owned : Address → Bool} {tx : RawTx} {flows : Flows}

theorem map_snd_outputs (tx : RawTx) : tx.outputs.map Prod.snd = tx.vout := by
  rw [RawTx.outputs, List.map_map]
  exact List.zipIdx_map_fst 0 tx.vout

theorem txid_of_mem_outputs {output : OutPoint × Vout} (hmem : output ∈ tx.outputs) :
    output.1.txid = tx.txid := by
  obtain ⟨entry, _, rfl⟩ := List.mem_map.mp hmem
  rfl

theorem spends_iff {outpoint : OutPoint} : tx.spends outpoint = true ↔ some outpoint ∈ tx.vin := by
  simp [RawTx.spends]

/-- The conditions for a transaction to come next, over the inputs there are. -/
theorem fresh_of_inputs (htxid : ∀ other ∈ chain.txs, other.txid ≠ tx.txid)
    (hnotYet : ∀ other ∈ chain.txs ++ [tx], ∀ vin ∈ other.vin,
      vin.all (fun outpoint => outpoint.txid ≠ tx.txid) = true)
    (hunspent : ∀ vin ∈ tx.vin, vin.all (fun outpoint => !chain.isSpent outpoint) = true)
    (hnonneg : ∀ out ∈ tx.vout, 0 ≤ out.value) : chain.Fresh tx where
  txid_ne := htxid
  notYet other hmem outpoint hspends := by
    have hall := hnotYet other hmem _ (spends_iff.mp hspends)
    simpa using hall
  unspent outpoint hspends := by
    have hall := hunspent _ (spends_iff.mp hspends)
    simpa using hall
  nonneg := hnonneg

theorem outputs_append (chain : PoolChain) (tx : RawTx) (flows : Flows) :
    (chain.append tx flows).outputs = chain.outputs ++ tx.outputs := by
  rw [PoolChain.outputs, PoolChain.append, List.flatMap_append]
  simp [PoolChain.outputs]

theorem isSpent_append (chain : PoolChain) (tx : RawTx) (flows : Flows) (outpoint : OutPoint) :
    (chain.append tx flows).isSpent outpoint = (chain.isSpent outpoint || tx.spends outpoint) := by
  simp [PoolChain.isSpent, PoolChain.append]

/-- The coins after a transaction are those it does not spend and its own outputs. -/
theorem coins_append (hfresh : chain.Fresh tx) :
    (chain.append tx flows).coins owned =
      ((chain.coins owned).filter fun output => !tx.spends output.1) ++
        tx.outputs.filter fun output => output.2.isMine owned := by
  have hold : chain.outputs.filter (fun output => !(chain.append tx flows).isSpent output.1) =
      chain.unspent.filter fun output => !tx.spends output.1 := by
    rw [PoolChain.unspent, List.filter_filter]
    refine List.filter_congr fun output _ => ?_
    rw [isSpent_append, Bool.not_or, Bool.and_comm]
  have hnew : tx.outputs.filter (fun output => !(chain.append tx flows).isSpent output.1) =
      tx.outputs := by
    refine List.filter_eq_self.mpr fun output hmem => ?_
    have htxid := txid_of_mem_outputs hmem
    rw [Bool.not_eq_true', PoolChain.isSpent, List.any_eq_false]
    intro other hother hspends
    exact hfresh.notYet other hother output.1 hspends htxid
  rw [PoolChain.coins, PoolChain.unspent, outputs_append, List.filter_append, hold, hnew,
    List.filter_append, PoolChain.coins, List.filter_filter, List.filter_filter]
  congr 1
  exact List.filter_congr fun output _ => Bool.and_comm _ _

theorem mem_outputs_of_mem_coins {output : OutPoint × Vout} (hcoin : output ∈ chain.coins owned) :
    output ∈ chain.outputs :=
  (List.mem_filter.mp (List.mem_filter.mp hcoin).1).1

theorem mem_coins_of_mem_spendable {output : OutPoint × Vout}
    (hcoin : output ∈ chain.spendable owned) : output ∈ chain.coins owned := by
  obtain ⟨houtput, htest⟩ := List.mem_filter.mp hcoin
  obtain ⟨tx, htx, hmem⟩ := List.mem_flatMap.mp houtput
  obtain ⟨hunspent, hmine⟩ := Bool.and_eq_true_iff.mp htest
  have hout : output ∈ chain.outputs :=
    List.mem_flatMap.mpr ⟨tx, (List.mem_filter.mp htx).1, hmem⟩
  exact List.mem_filter.mpr ⟨List.mem_filter.mpr ⟨hout, hunspent⟩, hmine⟩

theorem totalValue_filter_add (test : OutPoint × Vout → Bool) (outputs : List (OutPoint × Vout)) :
    totalValue (outputs.filter test) + totalValue (outputs.filter fun output => !test output) =
      totalValue outputs := by
  rw [totalValue, totalValue, sum_map_filter, sum_map_filter, ← List.sum_map_add]
  refine congrArg List.sum (List.map_congr_left fun output _ => ?_)
  cases test output
  · simp
  · simp

/-- What a fresh transaction takes from the wallet are coins. -/
theorem debit_eq (hfresh : chain.Fresh tx) :
    chain.debit owned tx = totalValue ((chain.coins owned).filter fun output =>
      tx.spends output.1) := by
  rw [PoolChain.debit, PoolChain.spentBy, PoolChain.coins, PoolChain.unspent,
    List.filter_filter, List.filter_filter, List.filter_filter]
  congr 1
  refine List.filter_congr fun output _ => ?_
  cases hspends : tx.spends output.1 with
  | false => simp
  | true => simp [hfresh.unspent output.1 hspends]

theorem totalValue_append (outputs others : List (OutPoint × Vout)) :
    totalValue (outputs ++ others) = totalValue outputs + totalValue others := by
  rw [totalValue, List.map_append, List.sum_append]
  rfl

theorem totalValue_isMine (owned : Address → Bool) (tx : RawTx) :
    totalValue (tx.outputs.filter fun output => output.2.isMine owned) = tx.credit owned := by
  rw [RawTx.credit, ← map_snd_outputs tx, List.filter_map, List.map_map]
  rfl

theorem held_append (hfresh : chain.Fresh tx) :
    (chain.append tx flows).held owned =
      chain.held owned - chain.debit owned tx + tx.credit owned := by
  have hsplit := totalValue_filter_add (fun output => tx.spends output.1) (chain.coins owned)
  rw [PoolChain.held, coins_append hfresh, totalValue_append, totalValue_isMine,
    debit_eq hfresh, PoolChain.held]
  linarith

end Accounting

section Node

variable (config : PoolConfig) (owned : Address → Bool)

/-- A transaction with which the wallet pays: it spends mature coins of the wallet, and what
it does not pay to the address or leave as a fee comes back in one output at most. -/
structure Pays (chain : PoolChain) (address : Address) (amountSatoshis : ℤ) (tx : RawTx) :
    Prop where
  fresh : chain.Fresh tx
  ordinary : tx.isCoinstake = false
  coins : ∀ outpoint, tx.spends outpoint = true → ∃ output ∈ chain.spendable owned,
    output.1 = outpoint
  positive : 0 < config.toNode amountSatoshis
  outputs : ∃ hex before change,
    tx.vout = before ++ ⟨config.toNode amountSatoshis, hex, some address⟩ :: change ∧
      (∀ out ∈ before ++ change, out.isMine owned = true) ∧ (before ++ change).length ≤ 1
  fee : tx.valueOut < chain.debit owned tx

/-- The totals after such a payment.  What is paid to an address of the wallet itself
counts as received. -/
def Flows.paying (flows : Flows) (chain : PoolChain) (address : Address) (amountSatoshis : ℤ)
    (tx : RawTx) : Flows :=
  { flows with
    received := flows.received + if owned address then config.toNode amountSatoshis else 0
    fees := flows.fees + (chain.debit owned tx - tx.valueOut) }

/-- The answers of the node.  `getnewaddress` gives an address that nothing was paid to, and
`listunspent` may leave out coins that are not confirmed. -/
inductive ChainAnswers :
    PoolChain → (call : RpcCall) → Except RpcError call.Reply → Option ℤ → PoolChain → Prop
  | listWallets {chain : PoolChain} :
      ChainAnswers chain .listWallets (.ok [config.poolWallet]) none chain
  | getNewAddress {chain : PoolChain} (address : Address) (howned : owned address = true)
      (hnew : chain.labelOf address = none)
      (hunused : ∀ output ∈ chain.outputs, output.2.address ≠ some address) :
      ChainAnswers chain .getNewAddress (.ok address) none
        { chain with book := (address, .pending) :: chain.book }
  | setLabel {chain : PoolChain} (address : Address) (label : Label) :
      ChainAnswers chain (.setLabel address label) (.ok ()) none
        { chain with book := (address, label) :: chain.book }
  | listUnspent {chain : PoolChain} (address : Address) (utxos : List Unspent)
      (hutxos : ∀ u ∈ utxos, ∃ hex,
        (u.outpoint, ⟨u.amount, hex, some address⟩) ∈ chain.spendable owned) :
      ChainAnswers chain (.listUnspent address) (.ok utxos) none chain
  | getTxOut {chain : PoolChain} (outpoint : OutPoint) :
      ChainAnswers chain (.getTxOut outpoint)
        (.ok (chain.unspent.any fun output => output.1 = outpoint)) none chain
  | listTransactions {chain : PoolChain} (label : Label) (count : ℕ) :
      ChainAnswers chain (.listTransactions label count)
        (.ok (chain.history owned label count)) none chain
  | getRawTransaction {chain : PoolChain} {txid : TxId} {tx : RawTx}
      (htx : chain.lookup txid = some tx) :
      ChainAnswers chain (.getRawTransaction txid) (.ok tx) none chain
  | unknownTransaction {chain : PoolChain} {txid : TxId} (error : RpcError)
      (htx : chain.lookup txid = none) :
      ChainAnswers chain (.getRawTransaction txid) (.error error) none chain
  | sendToAddress {chain : PoolChain} {address : Address} {amountSatoshis : ℤ} {tx : RawTx}
      (hpays : Pays config owned chain address amountSatoshis tx) :
      ChainAnswers chain (.sendToAddress address amountSatoshis) (.ok tx.txid)
        (some (config.toNode amountSatoshis))
        (chain.append tx (chain.flows.paying config owned chain address amountSatoshis tx))
  | refused {chain : PoolChain} (address : Address) (amountSatoshis : ℤ) (error : RpcError) :
      ChainAnswers chain (.sendToAddress address amountSatoshis) (.error error) none chain

def chainNode : NodeModel PoolChain := ⟨ChainAnswers config owned⟩

variable {config owned}

theorem nodePays_chainNode : NodePays config (chainNode config owned) := by
  refine ⟨?_, ?_⟩
  · intro chain call reply paid next hanswer
    cases hanswer with
    | sendToAddress hpays => exact ⟨_, _, rfl, rfl, hpays.positive⟩
  · intro chain address amountSatoshis txid paid next hanswer
    cases hanswer with
    | sendToAddress => rfl

/-- What the wallet gets back of a payment. -/
theorem Pays.credit_eq {chain : PoolChain} {address : Address} {amountSatoshis : ℤ} {tx : RawTx}
    (hpays : Pays config owned chain address amountSatoshis tx) :
    tx.credit owned = tx.valueOut - config.toNode amountSatoshis +
      if owned address then config.toNode amountSatoshis else 0 := by
  obtain ⟨hex, before, change, hvout, hmine, _⟩ := hpays.outputs
  have hbefore : before.filter (fun out => out.isMine owned) = before :=
    List.filter_eq_self.mpr fun out hmem => hmine out (List.mem_append_left _ hmem)
  have hchange : change.filter (fun out => out.isMine owned) = change :=
    List.filter_eq_self.mpr fun out hmem => hmine out (List.mem_append_right _ hmem)
  have hpaid : (⟨config.toNode amountSatoshis, hex, some address⟩ : Vout).isMine owned =
    owned address := rfl
  rw [RawTx.credit, RawTx.valueOut, hvout, List.filter_append, List.filter_cons, hbefore, hchange,
    hpaid]
  cases owned address
  · simp only [Bool.false_eq_true, if_false, List.map_append, List.sum_append, List.map_cons,
      List.sum_cons]
    ring
  · simp

end Node

section Moves

/-- A transaction of others, which may pay to the wallet. -/
structure Receives (owned : Address → Bool) (chain : PoolChain) (tx : RawTx) : Prop where
  fresh : chain.Fresh tx
  others : ∀ output ∈ chain.outputs, output.2.isMine owned = true → tx.spends output.1 = false

/-- `nFixedStakeReward`. -/
def fixedStakeReward : ℤ := 1000000000

/-- A coinstake of the wallet: `CreateCoinStake` adds coins of the kernel's own address
only, and it mints the fixed reward and the fees of its block. -/
structure Stakes (owned : Address → Bool) (chain : PoolChain) (tx : RawTx) : Prop where
  fresh : chain.Fresh tx
  coinstake : tx.isCoinstake = true
  coins : ∀ outpoint, tx.spends outpoint = true → ∃ output ∈ chain.spendable owned,
    output.1 = outpoint
  oneAddress : ∀ output ∈ chain.coins owned, ∀ other ∈ chain.coins owned,
    tx.spends output.1 = true → tx.spends other.1 = true →
      output.2.address = other.2.address
  outputs : ∀ out ∈ tx.vout, out.isMine owned = true ∨ out.value = 0
  gain : ∃ fees, 0 ≤ fees ∧ tx.valueOut = chain.debit owned tx + fixedStakeReward + fees

def PoolChain.receive (owned : Address → Bool) (chain : PoolChain) (tx : RawTx) : PoolChain :=
  chain.append tx { chain.flows with received := chain.flows.received + tx.credit owned }

def PoolChain.stake (owned : Address → Bool) (chain : PoolChain) (tx : RawTx) : PoolChain :=
  chain.append tx
    { chain.flows with gained := chain.flows.gained + (tx.valueOut - chain.debit owned tx) }

def PoolChain.mature (chain : PoolChain) (txid : TxId) : PoolChain :=
  { chain with immature := chain.immature.filter fun other => other ≠ txid }

/-- What happens to the pool: a transaction of others, a coinstake, a coinstake that has
become mature, or a job. -/
inductive PoolMove where
  | receive (tx : RawTx)
  | stake (tx : RawTx)
  | mature (txid : TxId)
  | job (event : PoolEvent PoolChain)

def PoolMoves (config : PoolConfig) (owned : Address → Bool) (store : PoolStore PoolChain) :
    PoolMove → PoolStore PoolChain → Prop
  | .receive tx, next => Receives owned store.node tx ∧
      next = { store with node := store.node.receive owned tx }
  | .stake tx, next => Stakes owned store.node tx ∧
      next = { store with node := store.node.stake owned tx }
  | .mature txid, next => next = { store with node := store.node.mature txid }
  | .job event, next => Completes config (chainNode config owned) store event next

variable {owned : Address → Bool} {chain : PoolChain} {tx : RawTx}

theorem Receives.spentBy_eq (hreceives : Receives owned chain tx) :
    chain.spentBy owned tx = [] := by
  rw [PoolChain.spentBy, List.filter_eq_nil_iff]
  intro output hmem
  obtain ⟨houtput, hmine⟩ := List.mem_filter.mp hmem
  rw [hreceives.others output houtput hmine]
  exact Bool.false_ne_true

theorem Receives.held_eq (hreceives : Receives owned chain tx) :
    (chain.receive owned tx).held owned = chain.held owned + tx.credit owned := by
  have hdebit : chain.debit owned tx = 0 := by
    rw [PoolChain.debit, hreceives.spentBy_eq]
    rfl
  rw [PoolChain.receive, held_append hreceives.fresh, hdebit, sub_zero]

theorem Stakes.held_eq (hstakes : Stakes owned chain tx) :
    (chain.stake owned tx).held owned =
      chain.held owned + (tx.valueOut - chain.debit owned tx) := by
  have hcredit : tx.credit owned = tx.valueOut := by
    rw [RawTx.credit, sum_map_filter, RawTx.valueOut]
    refine congrArg List.sum (List.map_congr_left fun out hmem => ?_)
    rcases hstakes.outputs out hmem with hmine | hzero
    · rw [if_pos hmine]
    · rw [hzero, ite_self]
  rw [PoolChain.stake, held_append hstakes.fresh, hcredit]
  ring

end Moves

section Payments

/-- The payments to an address: the outputs paid to it, other than those of coinstakes. -/
def PoolChain.paymentsTo (chain : PoolChain) (address : Address) : List (OutPoint × Vout) :=
  (chain.txs.filter fun tx => !tx.isCoinstake).flatMap fun tx =>
    tx.outputs.filter fun output => output.2.address = some address

/-- No coin that waits for the watcher is that of a coinstake. -/
def UnstakedPending (owned : Address → Bool) (chain : PoolChain) (db : GatewayDB) : Prop :=
  ∀ row ∈ db.deposits, row.status = .awaitingFunds → ∀ output ∈ chain.spendable owned,
    output.2.address = some row.depositAddress → output ∈ chain.paymentsTo row.depositAddress

variable {chain : PoolChain} {owned : Address → Bool} {address : Address}
  {outputs : List (OutPoint × Vout)} {output : OutPoint × Vout}

theorem mem_paymentsTo :
    output ∈ chain.paymentsTo address ↔
      ∃ tx ∈ chain.txs, tx.isCoinstake = false ∧ output ∈ tx.outputs ∧
        output.2.address = some address := by
  simp only [PoolChain.paymentsTo, List.mem_flatMap, List.mem_filter, Bool.not_eq_true',
    decide_eq_true_eq, and_assoc]

theorem paymentsTo_append (chain : PoolChain) (tx : RawTx) (flows : Flows) (address : Address) :
    (chain.append tx flows).paymentsTo address = chain.paymentsTo address ++
      if tx.isCoinstake then []
      else tx.outputs.filter fun output => output.2.address = some address := by
  rw [PoolChain.paymentsTo, PoolChain.append, List.filter_append, List.flatMap_append]
  cases hcoinstake : tx.isCoinstake <;> simp [PoolChain.paymentsTo, hcoinstake]

/-- An unspent payment to an address of the wallet can be spent: it is no coinstake. -/
theorem mem_spendable_of_mem_paymentsTo (hmem : output ∈ chain.paymentsTo address)
    (howned : owned address = true) (hunspent : chain.isSpent output.1 = false) :
    output ∈ chain.spendable owned := by
  obtain ⟨tx, htx, hordinary, houtput, haddress⟩ := mem_paymentsTo.mp hmem
  refine List.mem_filter.mpr ⟨List.mem_flatMap.mpr ⟨tx, List.mem_filter.mpr ⟨htx, ?_⟩, houtput⟩, ?_⟩
  · rw [PoolChain.isMature, hordinary]
    rfl
  · rw [hunspent, Vout.isMine, haddress]
    exact howned

theorem isSpent_of_mem_coins (hcoin : output ∈ chain.coins owned) :
    chain.isSpent output.1 = false := by
  have hunspent := (List.mem_filter.mp (List.mem_filter.mp hcoin).1).2
  exact Bool.not_eq_true' _ ▸ hunspent

theorem totalValue_nonneg (hnonneg : ∀ output ∈ outputs, 0 ≤ output.2.value) :
    0 ≤ totalValue outputs := by
  refine List.sum_nonneg fun value hvalue => ?_
  obtain ⟨output, houtput, rfl⟩ := List.mem_map.mp hvalue
  exact hnonneg output houtput

end Payments

end FirstIslamicCoin.StakingService
