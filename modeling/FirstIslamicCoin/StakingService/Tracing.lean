import FirstIslamicCoin.StakingService.Disciplines
import FirstIslamicCoin.StakingService.PoolChain

/-!
# The tables against the chain

What every run of the pool keeps between the tables and the chain: a deposit that was
funded records an output paid to its own address, a recorded reward belongs to a coinstake
that spends the funding output of its deposit, and the coinstakes of the wallet take their
inputs from one address each.  The watcher only reads the chain, so its passes are taken
with the chain fixed.
-/

namespace FirstIslamicCoin.StakingService

open Program

section Replies

variable {config : PoolConfig} {owned : Address → Bool} {position : ℕ} {job : Job}
  {store next : PoolStore PoolChain}

/-- A call that leaves the node as it is. -/
def RpcCall.isRead : RpcCall → Bool
  | .listWallets => true
  | .listUnspent _ => true
  | .getTxOut _ => true
  | .listTransactions _ _ => true
  | .getRawTransaction _ => true
  | _ => false

theorem answers_of_isRead {call : RpcCall} {reply : (Request.rpc call).Response}
    (hread : call.isRead = true)
    (hanswer : storeAnswers (chainNode config owned) position job store (.rpc call) reply next) :
    next = store ∧ ChainAnswers config owned store.node call reply none store.node := by
  obtain ⟨paid, node, hnode, rfl⟩ := hanswer
  have hsame : paid = none ∧ node = store.node := by
    cases hnode with
    | listWallets => exact ⟨rfl, rfl⟩
    | listUnspent => exact ⟨rfl, rfl⟩
    | getTxOut => exact ⟨rfl, rfl⟩
    | listTransactions => exact ⟨rfl, rfl⟩
    | getRawTransaction => exact ⟨rfl, rfl⟩
    | unknownTransaction => exact ⟨rfl, rfl⟩
    | _ => exact absurd hread Bool.false_ne_true
  obtain ⟨rfl, rfl⟩ := hsame
  have hnone : job.paymentsOf position none = [] := by cases job <;> rfl
  rw [hnone, List.append_nil]
  exact ⟨rfl, hnode⟩

/-- The pool wallet is loaded, so the check returns at once. -/
theorem ensures_walletLoaded {Result : Type} {rest : Unit → Service Result}
    {post : Except ServiceFailure Result → PoolStore PoolChain → Prop}
    (hrest : (rest ()).Ensures (storeAnswers (chainNode config owned) position job) post store) :
    (ensurePoolWalletLoaded config >>= rest).Ensures
      (storeAnswers (chainNode config owned) position job) post store := by
  intro reply after hanswer
  obtain ⟨rfl, hnode⟩ := answers_of_isRead rfl hanswer
  cases hnode
  have hloaded : config.poolWallet ∈ [config.poolWallet] := List.mem_singleton_self _
  change ((if config.poolWallet ∈ [config.poolWallet] then pure () else _ : Service Unit) >>=
    rest).Ensures _ _ _
  rw [if_pos hloaded]
  exact hrest

end Replies

section Watching

variable {config : PoolConfig} {owned : Address → Bool} {position : ℕ} {job : Job}
  {chain : PoolChain} {property : GatewayDB → Prop}

/-- The chain stands still while the tables keep a property. -/
def Static (chain : PoolChain) (property : GatewayDB → Prop) (store : PoolStore PoolChain) :
    Prop :=
  store.node = chain ∧ property store.db

/-- The output a deposit may be marked with. -/
def ListedFor (owned : Address → Bool) (chain : PoolChain) (dep : StakeDeposit) (u : Unspent) :
    Prop :=
  ∃ hex, (u.outpoint, ⟨u.amount, hex, some dep.depositAddress⟩) ∈ chain.spendable owned

theorem Awaiting.tail {dep : StakeDeposit} {rows : List StakeDeposit} {db : GatewayDB}
    (hawaiting : Awaiting (dep :: rows) db) : Awaiting rows db :=
  ⟨(List.nodup_cons.mp hawaiting.1).2, (List.forall_mem_cons.mp hawaiting.2).2⟩

theorem Awaiting.activated {dep : StakeDeposit} {rows : List StakeDeposit} {db : GatewayDB}
    (hawaiting : Awaiting (dep :: rows) db) (funding : OutPoint) (amountSatoshis : ℤ) :
    Awaiting rows (db.updated (.activated dep.id funding amountSatoshis)) := by
  obtain ⟨hnodup, hrows⟩ := hawaiting
  obtain ⟨hnotMem, hothers⟩ := List.nodup_cons.mp hnodup
  refine ⟨hothers, fun row hrow => ?_⟩
  obtain ⟨hmem, hstatus⟩ := hrows row (List.mem_cons_of_mem _ hrow)
  refine ⟨List.mem_map.mpr ⟨row, hmem, ?_⟩, hstatus⟩
  have hid : row.id ≠ dep.id := fun heq => hnotMem (heq ▸ List.mem_map.mpr ⟨row, hrow, rfl⟩)
  rw [StakeDeposit.activated, if_neg hid]

/-- `_mark_funded_deposits` keeps what marking one waiting deposit keeps. -/
theorem keeps_marking (hsound : ∀ db, property db → db.Sound)
    (hactivate : ∀ db dep u, property db → dep ∈ db.deposits → dep.status = .awaitingFunds →
      ListedFor owned chain dep u →
        property (db.updated (.activated dep.id u.outpoint (config.fromNode u.amount)))) :
    Keeps (storeAnswers (chainNode config owned) position job) (Static chain property)
      (markFundedDeposits config) := by
  rintro store ⟨rfl, hstore⟩
  refine ensures_walletLoaded ?_
  intro rows next hanswer
  obtain ⟨rfl, rfl⟩ := hanswer
  have hinitial : Awaiting (store.db.deposits.filter fun row => row.status = .awaitingFunds)
      store.db := by
    refine ⟨(hsound _ hstore).nodup.sublist (List.filter_sublist.map _), fun row hmem => ?_⟩
    obtain ⟨hrow, hstatus⟩ := List.mem_filter.mp hmem
    exact ⟨hrow, by simpa using hstatus⟩
  refine Ensures.mono (ensures_foldEach
    (fun items _ current => Static store.node property current ∧ Awaiting items current.db)
    (fun _ current => Static store.node property current) ?_ ⟨⟨rfl, hstore⟩, hinitial⟩) ?_
  · rintro dep items _ current ⟨⟨hnode, hcurrent⟩, hawaiting⟩
    intro reply after hcall
    obtain ⟨rfl, hlisted⟩ := answers_of_isRead rfl hcall
    cases hlisted with
    | listUnspent _ utxos hutxos =>
      cases utxos with
      | nil => exact ⟨⟨hnode, hcurrent⟩, hawaiting.tail⟩
      | cons u others =>
        rintro _ final ⟨_, rfl⟩
        obtain ⟨hmem, hstatus⟩ := hawaiting.2 dep List.mem_cons_self
        have hu : ListedFor owned store.node dep u := hnode ▸ hutxos u List.mem_cons_self
        exact ⟨⟨hnode, hactivate _ dep u hcurrent hmem hstatus hu⟩, hawaiting.activated _ _⟩
  · intro outcome final hfinal
    cases outcome with
    | ok _ => exact hfinal.1
    | error _ => exact hfinal

/-- `in_total` adds up the outputs spent. -/
theorem ensures_inTotal (store : PoolStore PoolChain) (tx : RawTx) :
    (inTotal config tx).Ensures (storeAnswers (chainNode config owned) position job)
      (fun outcome final => final = store ∧ ∀ total, outcome = .ok total →
        inputTotal config.fromNode store.node.lookup tx.vin = some total) store := by
  refine Ensures.mono (ensures_foldEach (fun items total current => current = store ∧ ∀ rest,
      inputTotal config.fromNode store.node.lookup items = some rest →
        inputTotal config.fromNode store.node.lookup tx.vin = some (total + rest))
    (fun _ current => current = store) ?_ ⟨rfl, fun rest hrest => by rwa [zero_add]⟩) ?_
  · rintro vin items total current ⟨rfl, hinvariant⟩
    cases vin with
    | none => exact rfl
    | some prevout =>
      intro reply after hcall
      obtain ⟨rfl, hshown⟩ := answers_of_isRead rfl hcall
      cases hshown with
      | unknownTransaction error htx => exact rfl
      | getRawTransaction htx =>
        rename_i prevtx
        dsimp only [Program.bind]
        cases hout : prevtx.vout[prevout.vout]? with
        | none => exact rfl
        | some out =>
          refine ⟨rfl, fun rest hrest => ?_⟩
          rw [add_assoc]
          refine hinvariant _ ?_
          simp [inputTotal, htx, hout, hrest]
  · intro outcome final hfinal
    cases outcome with
    | error failure => exact ⟨hfinal, fun total heq => by cases heq⟩
    | ok total =>
      refine ⟨hfinal.1, fun other heq => ?_⟩
      obtain rfl := Except.ok.inj heq
      have hall := hfinal.2 0 rfl
      rwa [add_zero] at hall

/-- A coinstake in the window of a deposit that spends its funding output. -/
structure Attributable (config : PoolConfig) (owned : Address → Bool) (chain : PoolChain)
    (row : StakeDeposit) (txid : TxId) (tx : RawTx) (total : ℤ) : Prop where
  inWindow : txid ∈ chain.history owned (.deposit row.id) 50
  lookup : chain.lookup txid = some tx
  coinstake : tx.isCoinstake = true
  spends : row.funding.any tx.spends = true
  inputs : inputTotal config.fromNode chain.lookup tx.vin = some total

/-- A property that recording rewards for some deposits keeps. -/
def KeptByRecording (config : PoolConfig) (owned : Address → Bool) (chain : PoolChain)
    (rows : List StakeDeposit) (property : GatewayDB → Prop) : Prop :=
  ∀ db row txid tx total, property db → row ∈ rows →
    Attributable config owned chain row txid tx total →
      property (db.execute (.insertReward
        (rewardRow config row.id txid (tx.outTotal config - total)))).2

variable {rows : List StakeDeposit}

theorem keeps_attributing (hkept : KeptByRecording config owned chain rows property)
    {row : StakeDeposit} (hrow : row ∈ rows) {txid : TxId}
    (hwindow : txid ∈ chain.history owned (.deposit row.id) 50) :
    Keeps (storeAnswers (chainNode config owned) position job) (Static chain property)
      (attributeReward config row txid) := by
  rintro store ⟨rfl, hstore⟩ already next ⟨_, rfl⟩
  change (if (id already : Bool) = true then pure () else _ : Service Unit).Ensures _ _ _
  split_ifs
  · exact ⟨rfl, hstore⟩
  · intro reply after hcall
    obtain ⟨rfl, hshown⟩ := answers_of_isRead rfl hcall
    cases hshown with
    | unknownTransaction error htx => exact ⟨rfl, hstore⟩
    | getRawTransaction htx =>
      rename_i tx
      change (if (tx.isCoinstake && row.funding.any tx.spends) = true then _ else _ :
        Service Unit).Ensures _ _ _
      split_ifs with hboth
      · obtain ⟨hcoinstake, hspends⟩ := Bool.and_eq_true_iff.mp hboth
        refine ensures_bind ((ensures_inTotal store tx).mono ?_)
        rintro outcome _ ⟨rfl, htotal⟩
        cases outcome with
        | error failure => exact ⟨rfl, hstore⟩
        | ok total =>
          rintro _ final ⟨_, rfl⟩
          exact ⟨rfl, hkept _ row txid tx total hstore hrow
            ⟨hwindow, htx, hcoinstake, hspends, htotal total rfl⟩⟩
      · exact ⟨rfl, hstore⟩

theorem keeps_attributingDeposit (hkept : KeptByRecording config owned chain rows property)
    {row : StakeDeposit} (hrow : row ∈ rows) :
    Keeps (storeAnswers (chainNode config owned) position job) (Static chain property)
      (attributeDeposit config row) := by
  rw [attributeDeposit]
  split
  · exact keeps_done _
  · rintro store ⟨rfl, hstore⟩ reply after hcall
    obtain ⟨rfl, hshown⟩ := answers_of_isRead rfl hcall
    cases hshown with
    | getTxOut =>
      dsimp only
      change (if _ then _ else _ : Service Unit).Ensures _ _ _
      split_ifs
      · exact ⟨rfl, hstore⟩
      · intro entries later hlist
        obtain ⟨rfl, hhistory⟩ := answers_of_isRead rfl hlist
        cases hhistory with
        | listTransactions =>
          exact keeps_foldEach (fun txid hmem _ => keeps_attributing hkept hrow hmem) ()
            _ ⟨rfl, hstore⟩

/-- `_attribute_rewards` keeps what recording a reward of an active deposit keeps. -/
theorem keeps_attributingRewards (hkept : ∀ deposits, KeptByRecording config owned chain
      (deposits.filter fun row => row.status = .active)
        fun db => db.deposits = deposits ∧ property db) :
    Keeps (storeAnswers (chainNode config owned) position job) (Static chain property)
      (attributeRewards config) := by
  rintro store ⟨rfl, hstore⟩
  refine ensures_walletLoaded ?_
  intro active next hanswer
  obtain ⟨rfl, rfl⟩ := hanswer
  refine Ensures.mono (keeps_foldEach (fun row hrow _ =>
    keeps_attributingDeposit (hkept store.db.deposits) hrow) () store ⟨rfl, rfl, hstore⟩) ?_
  exact fun _ _ hfinal => ⟨hfinal.1, hfinal.2.2⟩

end Watching

section Chain

variable {owned : Address → Bool} {chain : PoolChain} {tx : RawTx} {flows : Flows}

/-- Ids are not reused, nothing is spent twice, a coinstake takes the coins of the wallet
from one address, and no output is negative. -/
structure PoolChain.Valid (owned : Address → Bool) (chain : PoolChain) : Prop where
  txids : (chain.txs.map RawTx.txid).Nodup
  once : ∀ tx ∈ chain.txs, ∀ other ∈ chain.txs, ∀ outpoint, tx.spends outpoint = true →
    other.spends outpoint = true → tx = other
  oneAddress : ∀ tx ∈ chain.txs, tx.isCoinstake = true → ∀ output ∈ chain.outputs,
    ∀ other ∈ chain.outputs, output.2.isMine owned = true → other.2.isMine owned = true →
      tx.spends output.1 = true → tx.spends other.1 = true →
        output.2.address = other.2.address
  nonneg : ∀ output ∈ chain.outputs, 0 ≤ output.2.value

variable {output : OutPoint × Vout}

theorem mem_vout_of_mem_outputs (hmem : output ∈ tx.outputs) :
    output.2 ∈ tx.vout := by
  rw [← map_snd_outputs tx]
  exact List.mem_map_of_mem hmem

theorem mem_txs_append {other : RawTx} (hmem : other ∈ (chain.append tx flows).txs) :
    other ∈ chain.txs ∨ other = tx := by
  simpa [PoolChain.append] using hmem

theorem mem_outputs_append (hmem : output ∈ (chain.append tx flows).outputs) :
    output ∈ chain.outputs ∨ output ∈ tx.outputs := by
  rw [outputs_append] at hmem
  exact List.mem_append.mp hmem

theorem PoolChain.Valid.append (hvalid : chain.Valid owned) (hfresh : chain.Fresh tx)
    (hone : tx.isCoinstake = true → ∀ output ∈ chain.outputs, ∀ other ∈ chain.outputs,
      output.2.isMine owned = true → other.2.isMine owned = true →
        tx.spends output.1 = true → tx.spends other.1 = true →
          output.2.address = other.2.address) :
    (chain.append tx flows).Valid owned where
  txids := by
    rw [PoolChain.append, List.map_append, List.map_singleton, List.nodup_append]
    refine ⟨hvalid.txids, List.nodup_singleton _, ?_⟩
    intro txid hmem last hlast heq
    obtain ⟨other, hother, rfl⟩ := List.mem_map.mp hmem
    rw [List.mem_singleton.mp hlast] at heq
    exact hfresh.txid_ne other hother heq
  once := by
    have hnot : ∀ other ∈ chain.txs, ∀ outpoint, tx.spends outpoint = true →
        other.spends outpoint ≠ true := by
      intro other hother outpoint hspends hagain
      have hunspent := hfresh.unspent outpoint hspends
      rw [PoolChain.isSpent, List.any_eq_false] at hunspent
      exact hunspent other hother hagain
    intro first hfirst second hsecond outpoint hspends hagain
    rcases mem_txs_append hfirst with hbefore | hnew
    · rcases mem_txs_append hsecond with hbeforeToo | hnewToo
      · exact hvalid.once first hbefore second hbeforeToo outpoint hspends hagain
      · exact absurd hspends (hnot first hbefore outpoint (hnewToo ▸ hagain))
    · rcases mem_txs_append hsecond with hbeforeToo | hnewToo
      · exact absurd hagain (hnot second hbeforeToo outpoint (hnew ▸ hspends))
      · rw [hnew, hnewToo]
  oneAddress := by
    -- nothing in the chain spends an output of the new transaction
    have hold : ∀ spender ∈ (chain.append tx flows).txs, ∀ output,
        output ∈ (chain.append tx flows).outputs → spender.spends output.1 = true →
          output ∈ chain.outputs := by
      intro spender hspender output houtput hspends
      rcases mem_outputs_append houtput with houtput | hnew
      · exact houtput
      · exact absurd (txid_of_mem_outputs hnew) (hfresh.notYet spender hspender output.1 hspends)
    intro spender hspender hcoinstake output houtput other hother hmine hmineToo hspends hspendsToo
    have hfirst := hold spender hspender output houtput hspends
    have hsecond := hold spender hspender other hother hspendsToo
    rcases mem_txs_append hspender with hbefore | hnew
    · exact hvalid.oneAddress spender hbefore hcoinstake output hfirst other hsecond hmine
        hmineToo hspends hspendsToo
    · rw [hnew] at hcoinstake hspends hspendsToo
      exact hone hcoinstake output hfirst other hsecond hmine hmineToo hspends hspendsToo
  nonneg := by
    intro output houtput
    rcases mem_outputs_append houtput with hbefore | hnew
    · exact hvalid.nonneg output hbefore
    · exact hfresh.nonneg output.2 (mem_vout_of_mem_outputs hnew)

theorem PoolChain.Valid.lookup_eq (hvalid : chain.Valid owned) (hmem : tx ∈ chain.txs) :
    chain.lookup tx.txid = some tx := by
  cases hfound : chain.lookup tx.txid with
  | none =>
    rw [PoolChain.lookup, List.find?_eq_none] at hfound
    exact absurd (decide_eq_true rfl) (hfound tx hmem)
  | some other =>
    have hother := List.mem_of_find?_eq_some hfound
    have htxid : other.txid = tx.txid := by simpa using List.find?_some hfound
    rw [List.inj_on_of_nodup_map hvalid.txids hother hmem htxid]

theorem nodup_outputs (tx : RawTx) : (tx.outputs.map Prod.fst).Nodup := by
  have hindices : tx.outputs.map Prod.fst =
      (tx.vout.zipIdx.map Prod.snd).map fun index => (⟨tx.txid, index⟩ : OutPoint) := by
    rw [RawTx.outputs, List.map_map, List.map_map]
    rfl
  rw [hindices, List.zipIdx_map_snd]
  exact List.Nodup.map (fun _ _ heq => (OutPoint.mk.inj heq).2) List.nodup_range'

/-- Every outpoint names one output. -/
theorem PoolChain.Valid.nodup_outpoints (hvalid : chain.Valid owned) :
    (chain.outputs.map Prod.fst).Nodup := by
  rw [PoolChain.outputs, List.map_flatMap, List.nodup_flatMap]
  refine ⟨fun tx _ => nodup_outputs tx, ?_⟩
  have hpairs := List.pairwise_map.mp hvalid.txids
  refine hpairs.imp fun {first second} hne outpoint hfirst hsecond => ?_
  obtain ⟨output, houtput, rfl⟩ := List.mem_map.mp hfirst
  obtain ⟨other, hother, heq⟩ := List.mem_map.mp hsecond
  rw [← txid_of_mem_outputs houtput, ← txid_of_mem_outputs hother, heq] at hne
  exact hne rfl

theorem PoolChain.Valid.eq_of_outpoint_eq (hvalid : chain.Valid owned)
    {output other : OutPoint × Vout} (hmem : output ∈ chain.outputs)
    (hother : other ∈ chain.outputs) (heq : output.1 = other.1) : output = other :=
  List.inj_on_of_nodup_map hvalid.nodup_outpoints hmem hother heq

/-- What a fresh transaction spends of the wallet are coins. -/
theorem mem_coins_of_spends (hfresh : chain.Fresh tx) (hmem : output ∈ chain.outputs)
    (hmine : output.2.isMine owned = true) (hspends : tx.spends output.1 = true) :
    output ∈ chain.coins owned := by
  refine List.mem_filter.mpr ⟨List.mem_filter.mpr ⟨hmem, ?_⟩, hmine⟩
  rw [hfresh.unspent output.1 hspends]
  rfl

theorem PoolChain.Valid.receive (hvalid : chain.Valid owned) (hreceives : Receives owned chain tx) :
    (chain.receive owned tx).Valid owned := by
  refine hvalid.append hreceives.fresh fun _ output hmem other _ hmine _ hspends _ => ?_
  rw [hreceives.others output hmem hmine] at hspends
  exact absurd hspends Bool.false_ne_true

theorem PoolChain.Valid.stake (hvalid : chain.Valid owned) (hstakes : Stakes owned chain tx) :
    (chain.stake owned tx).Valid owned := by
  refine hvalid.append hstakes.fresh
    fun _ output hmem other hother hmine hmineToo hspends hspendsToo => ?_
  exact hstakes.oneAddress output (mem_coins_of_spends hstakes.fresh hmem hmine hspends) other
    (mem_coins_of_spends hstakes.fresh hother hmineToo hspendsToo) hspends hspendsToo

theorem PoolChain.Valid.pay {config : PoolConfig} {address : Address} {amountSatoshis : ℤ}
    (hvalid : chain.Valid owned) (hpays : Pays config owned chain address amountSatoshis tx) :
    (chain.append tx flows).Valid owned := by
  refine hvalid.append hpays.fresh fun hcoinstake => ?_
  rw [hpays.ordinary] at hcoinstake
  exact absurd hcoinstake Bool.false_ne_true

theorem lookup_append {txid : TxId} (hne : txid ≠ tx.txid) :
    (chain.append tx flows).lookup txid = chain.lookup txid := by
  have hlast : [tx].find? (fun other => other.txid = txid) = none := by
    simp [Ne.symm hne]
  rw [PoolChain.lookup, PoolChain.append, List.find?_append, hlast, Option.or_none]
  rfl

/-- The value of inputs depends on the transactions they spend only. -/
theorem inputTotal_congr {read : ℤ → ℤ} {world other : TxId → Option RawTx}
    {vin : List (Option OutPoint)}
    (hworld : ∀ outpoint, some outpoint ∈ vin → world outpoint.txid = other outpoint.txid) :
    inputTotal read world vin = inputTotal read other vin := by
  induction vin with
  | nil => rfl
  | cons first rest ih =>
    have hrest := ih fun outpoint hmem => hworld outpoint (List.mem_cons_of_mem _ hmem)
    cases first with
    | none => rfl
    | some prevout =>
      rw [inputTotal, inputTotal, hrest]
      dsimp only [Option.bind_eq_bind, Option.bind_some]
      rw [hworld prevout List.mem_cons_self]

end Chain

section Traced

variable {config : PoolConfig} {owned : Address → Bool} {chain : PoolChain} {db : GatewayDB}

/-- The funding output of a deposit is an output of the wallet paid to its address. -/
def FundedOn (owned : Address → Bool) (chain : PoolChain) (row : StakeDeposit) : Prop :=
  ∃ funding out, row.funding = some funding ∧ (funding, out) ∈ chain.outputs ∧
    out.isMine owned = true ∧ out.address = some row.depositAddress

/-- A reward is that of a coinstake which spends the funding output of its deposit. -/
structure Earned (config : PoolConfig) (chain : PoolChain) (row : StakeDeposit)
    (reward : StakeReward) (tx : RawTx) : Prop where
  id_eq : row.id = reward.depositId
  status : row.status ≠ .awaitingFunds
  mem_txs : tx ∈ chain.txs
  txid_eq : tx.txid = reward.coinstakeTxid
  coinstake : tx.isCoinstake = true
  spends : row.funding.any tx.spends = true
  gross : ∃ total, inputTotal config.fromNode chain.lookup tx.vin = some total ∧
    reward.grossRewardSatoshis = tx.outTotal config - total

structure Traced (config : PoolConfig) (owned : Address → Bool) (chain : PoolChain)
    (db : GatewayDB) : Prop where
  sound : db.Sound
  addresses : (db.deposits.map StakeDeposit.depositAddress).Nodup
  funded : ∀ row ∈ db.deposits, row.status ≠ .awaitingFunds → FundedOn owned chain row
  earned : ∀ reward ∈ db.rewards, ∃ row ∈ db.deposits, ∃ tx, Earned config chain row reward tx
  txids : (db.rewards.map StakeReward.coinstakeTxid).Nodup
  valid : chain.Valid owned

section

variable (htraced : Traced config owned chain db)

include htraced

/-- An update that may fund waiting deposits and leaves the others funded as they are. -/
theorem Traced.updated {update : StakeDeposit → StakeDeposit} (hkeeps : KeepsRow update)
    (hsame : ∀ row ∈ db.deposits, row.status ≠ .awaitingFunds →
      (update row).funding = row.funding ∧ (update row).status ≠ .awaitingFunds)
    (hfunded : ∀ row ∈ db.deposits, row.status = .awaitingFunds →
      (update row).status ≠ .awaitingFunds → FundedOn owned chain (update row)) :
    Traced config owned chain (db.updated update) where
  sound := hkeeps.sound_updated htraced.sound
  addresses := by
    rw [GatewayDB.updated, List.map_map]
    have hsameAddress : StakeDeposit.depositAddress ∘ update = StakeDeposit.depositAddress :=
      funext hkeeps.depositAddress_eq
    rw [hsameAddress]
    exact htraced.addresses
  funded := by
    intro row hrow hstatus
    obtain ⟨before, hbefore, rfl⟩ := List.mem_map.mp hrow
    by_cases hawaiting : before.status = .awaitingFunds
    · exact hfunded before hbefore hawaiting hstatus
    · obtain ⟨funding, out, hfunding, hout, hmine, hpaid⟩ :=
        htraced.funded before hbefore hawaiting
      refine ⟨funding, out, ?_, hout, hmine, ?_⟩
      · rw [(hsame before hbefore hawaiting).1, hfunding]
      · rw [hpaid, hkeeps.depositAddress_eq]
  earned := by
    intro reward hreward
    obtain ⟨row, hrow, tx, hearned⟩ := htraced.earned reward hreward
    obtain ⟨hfunding, hstatus⟩ := hsame row hrow hearned.status
    exact ⟨update row, List.mem_map_of_mem hrow, tx,
      { hearned with
        id_eq := (hkeeps.id_eq row).trans hearned.id_eq
        status := hstatus
        spends := by rw [hfunding]; exact hearned.spends }⟩
  txids := htraced.txids
  valid := htraced.valid

theorem Traced.activated {dep : StakeDeposit} {u : Unspent} (hdep : dep ∈ db.deposits)
    (hawaiting : dep.status = .awaitingFunds) (hlisted : ListedFor owned chain dep u)
    (amountSatoshis : ℤ) :
    Traced config owned chain (db.updated (.activated dep.id u.outpoint amountSatoshis)) := by
  have hother : ∀ row ∈ db.deposits, row.status ≠ .awaitingFunds → row.id ≠ dep.id := by
    intro row hrow hstatus hid
    exact hstatus (htraced.sound.eq_of_id_eq hrow hdep hid ▸ hawaiting)
  refine htraced.updated (keepsRow_activated _ _ _) (fun row hrow hstatus => ?_)
    fun row hrow _ hactive => ?_
  · rw [StakeDeposit.activated, if_neg (hother row hrow hstatus)]
    exact ⟨rfl, hstatus⟩
  · rw [StakeDeposit.activated] at hactive ⊢
    split_ifs at hactive ⊢ with hid
    · obtain rfl := htraced.sound.eq_of_id_eq hrow hdep hid
      obtain ⟨hex, hcoin⟩ := hlisted
      obtain ⟨hunspent, hmine⟩ := List.mem_filter.mp (mem_coins_of_mem_spendable hcoin)
      exact ⟨u.outpoint, _, rfl, (List.mem_filter.mp hunspent).1, hmine, rfl⟩
    · contradiction

theorem Traced.closed (userId : UserId) :
    Traced config owned chain (db.updated (.closed userId)) := by
  refine htraced.updated (keepsRow_closed userId) (fun row hrow hstatus => ?_)
    fun row hrow hawaiting hactive => ?_
  · rw [StakeDeposit.closed]
    split_ifs
    · exact ⟨rfl, by simp⟩
    · exact ⟨rfl, hstatus⟩
  · rw [StakeDeposit.closed, if_neg fun hboth => by
      rw [hawaiting] at hboth
      cases hboth.2] at hactive
    exact absurd hawaiting hactive

theorem Traced.opened (userId : UserId) {address : Address}
    (hnew : ∀ row ∈ db.deposits, row.depositAddress ≠ address) :
    Traced config owned chain (db.opened userId address) where
  sound := sound_opened htraced.sound userId address
  addresses := by
    rw [GatewayDB.opened, List.map_append, List.map_singleton, List.nodup_append]
    refine ⟨htraced.addresses, List.nodup_singleton _, ?_⟩
    intro first hfirst last hlast heq
    obtain ⟨row, hrow, rfl⟩ := List.mem_map.mp hfirst
    exact hnew row hrow (heq.trans (List.mem_singleton.mp hlast))
  funded := by
    intro row hrow hstatus
    rcases List.mem_append.mp hrow with hbefore | hlast
    · exact htraced.funded row hbefore hstatus
    · rw [List.mem_singleton.mp hlast] at hstatus
      contradiction
  earned := by
    intro reward hreward
    obtain ⟨row, hrow, hearned⟩ := htraced.earned reward hreward
    exact ⟨row, List.mem_append_left _ hrow, hearned⟩
  txids := htraced.txids
  valid := htraced.valid

/-- `INSERT OR IGNORE` of a reward of an active deposit. -/
theorem Traced.recorded {row : StakeDeposit} (hrow : row ∈ db.deposits)
    (hactive : row.status = .active) {txid : TxId} {tx : RawTx} {total : ℤ}
    (hattributable : Attributable config owned chain row txid tx total) :
    Traced config owned chain (db.execute (.insertReward
      (rewardRow config row.id txid (tx.outTotal config - total)))).2 := by
  rw [GatewayDB.execute]
  split_ifs with hknown
  · exact htraced
  · have htxid : tx.txid = txid := by simpa using List.find?_some hattributable.lookup
    have hnew : ∀ reward ∈ db.rewards, reward.coinstakeTxid ≠ txid := by
      rw [List.any_eq_true] at hknown
      intro reward hreward heq
      exact hknown ⟨reward, hreward, decide_eq_true heq⟩
    refine ⟨⟨htraced.sound.nodup, htraced.sound.lt_nextId⟩, htraced.addresses, htraced.funded,
      fun reward hreward => ?_, ?_, htraced.valid⟩
    · rcases List.mem_append.mp hreward with hbefore | hlast
      · exact htraced.earned reward hbefore
      · rw [List.mem_singleton.mp hlast]
        refine ⟨row, hrow, tx, rfl, ?_, List.mem_of_find?_eq_some hattributable.lookup, htxid,
          hattributable.coinstake, hattributable.spends, total, hattributable.inputs, rfl⟩
        rw [hactive]
        decide
    · rw [List.map_append, List.map_singleton, List.nodup_append]
      refine ⟨htraced.txids, List.nodup_singleton _, ?_⟩
      intro first hfirst last hlast heq
      obtain ⟨reward, hreward, rfl⟩ := List.mem_map.mp hfirst
      exact hnew reward hreward (heq.trans (List.mem_singleton.mp hlast))

/-- The address book does not matter. -/
theorem Traced.congr {next : PoolChain} (htxs : next.txs = chain.txs) :
    Traced config owned next db := by
  have houtputs : next.outputs = chain.outputs := by rw [PoolChain.outputs, htxs, PoolChain.outputs]
  have hlookup : next.lookup = chain.lookup := by
    funext txid
    rw [PoolChain.lookup, htxs, PoolChain.lookup]
  refine ⟨htraced.sound, htraced.addresses, fun row hrow hstatus => ?_, fun reward hreward => ?_,
    htraced.txids, ?_⟩
  · rw [FundedOn, houtputs]
    exact htraced.funded row hrow hstatus
  · obtain ⟨row, hrow, tx, hearned⟩ := htraced.earned reward hreward
    exact ⟨row, hrow, tx,
      { hearned with
        mem_txs := htxs ▸ hearned.mem_txs
        gross := hlookup ▸ hearned.gross }⟩
  · obtain ⟨htxids, honce, honeAddress, hnonneg⟩ := htraced.valid
    constructor
    · rw [htxs]
      exact htxids
    · rw [htxs]
      exact honce
    · rw [htxs, houtputs]
      exact honeAddress
    · rw [houtputs]
      exact hnonneg

/-- The chain grows by a transaction. -/
theorem Traced.append {tx : RawTx} {flows : Flows} (hfresh : chain.Fresh tx)
    (hvalid : (chain.append tx flows).Valid owned) :
    Traced config owned (chain.append tx flows) db where
  sound := htraced.sound
  addresses := htraced.addresses
  funded := by
    intro row hrow hstatus
    obtain ⟨funding, out, hfunding, hout, hpaid⟩ := htraced.funded row hrow hstatus
    refine ⟨funding, out, hfunding, ?_, hpaid⟩
    rw [outputs_append]
    exact List.mem_append_left _ hout
  earned := by
    intro reward hreward
    obtain ⟨row, hrow, spender, hearned⟩ := htraced.earned reward hreward
    obtain ⟨total, htotal, hgross⟩ := hearned.gross
    refine ⟨row, hrow, spender,
      { hearned with
        mem_txs := List.mem_append_left _ hearned.mem_txs
        gross := ⟨total, ?_, hgross⟩ }⟩
    rw [← htotal]
    refine inputTotal_congr fun outpoint hmem => lookup_append ?_
    exact hfresh.notYet spender (List.mem_append_left _ hearned.mem_txs) outpoint
      (spends_iff.mpr hmem)
  txids := htraced.txids
  valid := hvalid

end

end Traced

section Withdrawing

variable {config : PoolConfig} {owned : Address → Bool} {position : ℕ} {job : Job}
  {store next : PoolStore PoolChain} {userId : UserId} {amountSatoshis : ℤ} {toAddress : Address}

/-- The store after a withdrawal that pays with a transaction. -/
def PoolStore.withdrawn (config : PoolConfig) (owned : Address → Bool)
    (store : PoolStore PoolChain) (userId : UserId) (amountSatoshis : ℤ) (toAddress : Address)
    (tx : RawTx) : PoolStore PoolChain where
  db := store.db.updated (.closed userId)
  node := store.node.append tx
    (store.node.flows.paying config owned store.node toAddress amountSatoshis tx)
  payments := settlePayments 0 (.closeDeposits userId)
    (store.payments ++ [⟨0, userId, config.toNode amountSatoshis, false⟩])

theorem ensures_withdraw_chain (store : PoolStore PoolChain) :
    (withdraw config userId amountSatoshis toAddress).Ensures
      (storeAnswers (chainNode config owned) 0 (.withdrawal userId amountSatoshis toAddress))
      (fun outcome final => ∀ txid, outcome = .ok txid → amountSatoshis ≤ store.db.shown userId ∧
        ∃ tx, Pays config owned store.node toAddress amountSatoshis tx ∧
          final = store.withdrawn config owned userId amountSatoshis toAddress tx) store := by
  refine ensures_bind ((ensures_statusForUser store userId).mono ?_)
  rintro _ current ⟨hsame, status, rfl, hshown⟩
  obtain rfl : store = current := hsame.symm
  change (if _ then _ else _ : Service TxId).Ensures _ _ _
  rw [hshown]
  split_ifs with hexceeds
  · exact fun _ hfailed => absurd hfailed nofun
  · refine ensures_walletLoaded ?_
    rintro reply sent ⟨paid, node, hnode, rfl⟩
    cases hnode with
    | refused => exact fun _ hfailed => absurd hfailed nofun
    | sendToAddress hpays =>
      rintro _ final ⟨_, rfl⟩ _ _
      exact ⟨not_lt.mp hexceeds, _, hpays, rfl⟩

theorem exists_finishes_statusForUser (store : PoolStore PoolChain) (userId : UserId) :
    ∃ status, Finishes (storeAnswers (chainNode config owned) position job) store
        (statusForUser config userId) (.ok status) store ∧
      status.delegatedAmount + status.accruedRewards = store.db.shown userId := by
  by_cases hactive : activeRows (store.db.userRows userId) = []
  · have hrewards : store.db.sumRewards [] = 0 := by simp [GatewayDB.sumRewards]
    refine ⟨.of config (store.db.userRows userId) 0, .ask ⟨rfl, rfl⟩ ?_, ?_⟩
    · change Finishes _ _ (if (activeRows (store.db.userRows userId)).isEmpty then _ else _) _ _
      rw [if_pos (by simpa using hactive)]
      exact .done
    · rw [GatewayDB.shown, hactive, List.map_nil, hrewards]
      rfl
  · exact ⟨_, finishes_statusForUser config store hactive, rfl⟩

/-- A withdrawal succeeds exactly when it asks for no more than the balance shown and the
wallet can pay. -/
theorem completes_withdrawal_iff :
    Completes config (chainNode config owned) store
        ⟨.withdrawal userId amountSatoshis toAddress, store⟩ next ↔
      amountSatoshis ≤ store.db.shown userId ∧
        ∃ tx, Pays config owned store.node toAddress amountSatoshis tx ∧
          next = store.withdrawn config owned userId amountSatoshis toAddress tx := by
  constructor
  · rintro ⟨_, outcome, hfinishes, hok⟩
    obtain rfl := hok userId amountSatoshis toAddress rfl
    exact ensures_withdrawal_job (ensures_withdraw_chain store) hfinishes
  · rintro ⟨hle, tx, hpays, rfl⟩
    obtain ⟨status, hstatus, hshown⟩ := @exists_finishes_statusForUser config owned 0
      (.withdrawal userId amountSatoshis toAddress) store userId
    have hwithdraw : Finishes (storeAnswers (chainNode config owned) 0
          (.withdrawal userId amountSatoshis toAddress)) store
        (withdraw config userId amountSatoshis toAddress) (.ok tx.txid)
        (store.withdrawn config owned userId amountSatoshis toAddress tx) := by
      refine .bind hstatus ?_
      change Finishes _ _ (if status.delegatedAmount + status.accruedRewards < amountSatoshis
        then _ else _) _ _
      rw [hshown, if_neg (not_lt.mpr hle)]
      have hloaded : Finishes (storeAnswers (chainNode config owned) 0
          (.withdrawal userId amountSatoshis toAddress)) store (ensurePoolWalletLoaded config)
          (.ok ()) store := by
        have hanswer : storeAnswers (chainNode config owned) 0
            (.withdrawal userId amountSatoshis toAddress) store (.rpc .listWallets)
            (.ok [config.poolWallet]) store :=
          ⟨none, store.node, .listWallets, by
            rw [Job.paymentsOf, Option.toList, List.map_nil, List.append_nil]⟩
        refine .ask hanswer ?_
        change Finishes _ _ (if config.poolWallet ∈ [config.poolWallet] then _ else _) _ _
        rw [if_pos (List.mem_singleton_self _)]
        exact .done
      exact hloaded.bind (.ask ⟨_, _, .sendToAddress hpays, rfl⟩ (.ask ⟨rfl, rfl⟩ .done))
    exact ⟨rfl, .ok (), hwithdraw.bind .done, fun _ _ _ _ => rfl⟩

end Withdrawing

section Runs

variable {config : PoolConfig} {owned : Address → Bool} {position : ℕ} {job : Job}

theorem keeps_traced_watching (chain : PoolChain) :
    Keeps (storeAnswers (chainNode config owned) position job)
      (Static chain (Traced config owned chain)) (runWatcherPass config) := by
  refine keeps_bind (keeps_marking (fun _ htraced => htraced.sound) ?_) fun _ =>
    keeps_attributingRewards fun deposits => ?_
  · intro db dep u htraced hdep hawaiting hlisted
    exact htraced.activated hdep hawaiting hlisted _
  · rintro db row txid tx total ⟨rfl, htraced⟩ hrow hattributable
    obtain ⟨hmem, hactive⟩ := List.mem_filter.mp hrow
    refine ⟨?_, htraced.recorded hmem (of_decide_eq_true hactive) hattributable⟩
    rw [GatewayDB.execute]
    split_ifs <;> rfl

def TracedStore (config : PoolConfig) (owned : Address → Bool) (store : PoolStore PoolChain) :
    Prop :=
  Traced config owned store.node store.db

/-- Opening a deposit keeps what a new row keeps and labels do not touch. -/
theorem keeps_openedDeposit {holds : PoolChain → GatewayDB → Prop} (userId : UserId)
    (hbook : ∀ chain db book, holds chain db → holds { chain with book := book } db)
    (hopened : ∀ (chain : PoolChain) db address, owned address = true →
      (∀ output ∈ chain.outputs, output.2.address ≠ some address) →
      (∀ row ∈ db.deposits, row.depositAddress ≠ address) → holds chain db →
        holds chain (db.opened userId address)) :
    Keeps (storeAnswers (chainNode config owned) position job)
      (fun store => holds store.node store.db) (createDeposit config userId) := by
  intro store hstore
  refine ensures_walletLoaded ?_
  rintro reply after ⟨paid, node, hnode, rfl⟩
  cases hnode with
  | getNewAddress address howned hnew hunused =>
    rintro inserted opened ⟨hinserted, rfl⟩
    have hinsert : holds store.node (store.db.execute (.insertDeposit userId address)).2 := by
      rw [GatewayDB.execute]
      split_ifs with hknown
      · exact hstore
      · refine hopened _ _ _ howned hunused (fun row hrow heq => ?_) hstore
        rw [List.any_eq_true] at hknown
        exact hknown ⟨row, hrow, decide_eq_true heq⟩
    cases inserted with
    | none => exact hbook store.node _ _ hinsert
    | some id =>
      rintro labelled final ⟨paid, node, hlabel, rfl⟩
      cases hlabel with
      | setLabel => exact hbook store.node _ _ hinsert

theorem keeps_traced_opening (userId : UserId) :
    Keeps (storeAnswers (chainNode config owned) position job) (TracedStore config owned)
      (createDeposit config userId) :=
  keeps_openedDeposit userId (fun _ _ _ htraced => Traced.congr htraced rfl)
    fun _ _ _ _ _ hnew htraced => htraced.opened userId hnew

/-- Every move of the pool keeps the tables traced. -/
theorem TracedStore.step {store next : PoolStore PoolChain} {move : PoolMove}
    (hstore : TracedStore config owned store) (hmove : PoolMoves config owned store move next) :
    TracedStore config owned next := by
  cases move with
  | receive tx =>
    obtain ⟨hreceives, rfl⟩ := hmove
    exact Traced.append hstore hreceives.fresh (hstore.valid.receive hreceives)
  | stake tx =>
    obtain ⟨hstakes, rfl⟩ := hmove
    exact Traced.append hstore hstakes.fresh (hstore.valid.stake hstakes)
  | mature txid =>
    obtain rfl := hmove
    exact Traced.congr hstore rfl
  | job event =>
    obtain ⟨job, before⟩ := event
    obtain rfl : before = store := hmove.1
    cases job with
    | deposit userId =>
      obtain ⟨_, outcome, hfinishes, _⟩ := hmove
      exact (keeps_bind (keeps_traced_opening userId) (fun _ => keeps_done ()) before
        hstore).of_finishes hfinishes
    | watch =>
      obtain ⟨_, outcome, hfinishes, _⟩ := hmove
      obtain ⟨hnode, hdb⟩ := (keeps_traced_watching before.node before
        ⟨rfl, hstore⟩).of_finishes hfinishes
      rw [TracedStore, hnode]
      exact hdb
    | withdrawal userId amountSatoshis toAddress =>
      obtain ⟨_, tx, hpays, rfl⟩ := completes_withdrawal_iff.mp hmove
      exact (Traced.append hstore hpays.fresh (hstore.valid.pay hpays)).closed userId

theorem tracedStore_empty (config : PoolConfig) (owned : Address → Bool) {chain : PoolChain}
    (hvalid : chain.Valid owned) (nextId : DepositId) (payments : List Payment) :
    TracedStore config owned ⟨⟨[], [], nextId⟩, chain, payments⟩ where
  sound := ⟨List.nodup_nil, nofun⟩
  addresses := List.nodup_nil
  funded := nofun
  earned := nofun
  txids := List.nodup_nil
  valid := hvalid

end Runs

end FirstIslamicCoin.StakingService
