import FirstIslamicCoin.StakingService.Attribution

/-!
# What is credited of the payments

A deposit has one address and stands for one output.  The first output the watcher finds
at the address is recorded and the deposit is active from then on; whatever else is paid
to the address, before or after, is credited to no one, and so is an output the wallet
spends before a pass has seen it, or one that comes when the deposit is withdrawn.  The
delegated amount of a user is the sum of the payments when none of these happens and the
amounts come through the node's floating-point numbers unchanged; and only then, where no
amount is read as more than it is.
-/

namespace FirstIslamicCoin.StakingService

open Program

section Payments

/-- Which payments count as closed out by withdrawals: the funding output of a withdrawn
deposit does, and no payment to a deposit that is not withdrawn.  About the other payments
to a withdrawn deposit nothing is assumed. -/
structure ClosedOut (store : PoolStore PoolChain) (closed : OutPoint → Bool) : Prop where
  withdrawn : ∀ row ∈ store.db.deposits, row.status = .withdrawn →
    ∀ funding, row.funding = some funding → closed funding = true
  others : ∀ row ∈ store.db.deposits, row.status ≠ .withdrawn →
    ∀ output ∈ store.node.paymentsTo row.depositAddress, closed output.1 = false

/-- The payments to a deposit that no withdrawal has closed out. -/
def PoolChain.openPayments (chain : PoolChain) (closed : OutPoint → Bool) (row : StakeDeposit) :
    List (OutPoint × Vout) :=
  (chain.paymentsTo row.depositAddress).filter fun output => !closed output.1

/-- What was paid to the deposit addresses of a user and not closed out. -/
def PoolStore.paidIn (store : PoolStore PoolChain) (closed : OutPoint → Bool) (userId : UserId) : ℤ :=
  store.db.userSum userId fun row => totalValue (store.node.openPayments closed row)

/-- The moves of the pool in which the watcher comes before a coin stakes. -/
def SeenMoves (config : PoolConfig) (owned : Address → Bool) (store : PoolStore PoolChain)
    (move : PoolMove) (next : PoolStore PoolChain) : Prop :=
  PoolMoves config owned store move next ∧
    ∀ event, move = .job event → event.job = .watch → UnstakedPending owned store.node store.db

/-- A deposit has been paid once, in time, with an amount that is read as it is. -/
def PaidOnce (config : PoolConfig) (chain : PoolChain) (closed : OutPoint → Bool)
    (row : StakeDeposit) : Prop :=
  match row.status with
  | .awaitingFunds => chain.paymentsTo row.depositAddress = [] ∨
      ∃ output, chain.paymentsTo row.depositAddress = [output] ∧
        chain.isSpent output.1 = false ∧ config.fromNode output.2.value = output.2.value
  | .active => ∃ output, chain.paymentsTo row.depositAddress = [output] ∧
      config.fromNode output.2.value = output.2.value
  | .withdrawn => ∀ output ∈ chain.paymentsTo row.depositAddress, closed output.1 = true

end Payments

section Sums

variable {outputs : List (OutPoint × Vout)}

theorem totalValue_eq_zero_iff (hpositive : ∀ output ∈ outputs, 0 < output.2.value) :
    totalValue outputs = 0 ↔ outputs = [] := by
  constructor
  · intro hzero
    cases outputs with
    | nil => rfl
    | cons output rest =>
      obtain ⟨hfirst, hothers⟩ := List.forall_mem_cons.mp hpositive
      have hrest := totalValue_nonneg fun output hmem => (hothers output hmem).le
      have hsum : totalValue (output :: rest) = output.2.value + totalValue rest := List.sum_cons
      linarith
  · rintro rfl
    rfl

/-- Positive values add up to one of them only if there is no other. -/
theorem le_totalValue_of_mem (hpositive : ∀ output ∈ outputs, 0 < output.2.value)
    {output : OutPoint × Vout} (hmem : output ∈ outputs) :
    output.2.value ≤ totalValue outputs ∧
      (output.2.value = totalValue outputs ↔ ∃ only, outputs = [only]) := by
  obtain ⟨before, after, rfl⟩ := List.append_of_mem hmem
  have hbefore : ∀ other ∈ before, 0 < other.2.value := fun other hother =>
    hpositive other (List.mem_append_left _ hother)
  have hafter : ∀ other ∈ after, 0 < other.2.value := fun other hother =>
    hpositive other (List.mem_append_right _ (List.mem_cons_of_mem _ hother))
  have hsum : totalValue (before ++ output :: after) =
      totalValue before + (output.2.value + totalValue after) := by
    rw [totalValue_append]
    rfl
  have hbeforeSum := totalValue_nonneg fun output hmem => (hbefore output hmem).le
  have hafterSum := totalValue_nonneg fun output hmem => (hafter output hmem).le
  refine ⟨by rw [hsum]; linarith, fun heq => ?_, ?_⟩
  · rw [hsum] at heq
    have hnoneBefore := (totalValue_eq_zero_iff hbefore).mp (by linarith)
    have hnoneAfter := (totalValue_eq_zero_iff hafter).mp (by linarith)
    exact ⟨output, by rw [hnoneBefore, hnoneAfter]; rfl⟩
  · rintro ⟨only, honly⟩
    rw [honly] at hmem ⊢
    rw [List.mem_singleton.mp hmem, totalValue, List.map_singleton, List.sum_singleton]

/-- Two sums of which one is the smaller in every term. -/
theorem sum_map_eq_iff {Item : Type} {items : List Item} {value other : Item → ℤ}
    (hle : ∀ item ∈ items, value item ≤ other item) :
    (items.map value).sum = (items.map other).sum ↔ ∀ item ∈ items, value item = other item := by
  induction items with
  | nil => simp
  | cons item items ih =>
    obtain ⟨hfirst, hothers⟩ := List.forall_mem_cons.mp hle
    have hrest : (items.map value).sum ≤ (items.map other).sum := List.sum_le_sum hothers
    rw [List.map_cons, List.sum_cons, List.map_cons, List.sum_cons, List.forall_mem_cons,
      ← ih hothers]
    constructor
    · intro heq
      exact ⟨by linarith, by linarith⟩
    · rintro ⟨hitem, hitems⟩
      rw [hitem, hitems]

end Sums

section Records

variable {config : PoolConfig} {owned : Address → Bool} {chain : PoolChain} {db : GatewayDB}

/-- A deposit that does not await funds has recorded one payment to its address, with the
amount the node gave for it. -/
structure RecordsPayment (config : PoolConfig) (chain : PoolChain) (row : StakeDeposit)
    (funding : OutPoint) (out : Vout) : Prop where
  funding_eq : row.funding = some funding
  payment : (funding, out) ∈ chain.paymentsTo row.depositAddress
  amount_eq : row.amountSatoshis = some (config.fromNode out.value)

structure Records (config : PoolConfig) (owned : Address → Bool) (chain : PoolChain)
    (db : GatewayDB) : Prop where
  sound : db.Sound
  owned : ∀ row ∈ db.deposits, owned row.depositAddress = true
  funded : ∀ row ∈ db.deposits, row.status ≠ .awaitingFunds →
    ∃ funding out, RecordsPayment config chain row funding out

section

variable (hrecords : Records config owned chain db)

include hrecords

/-- What was paid depends on the transactions only. -/
theorem Records.congr {next : PoolChain} (htxs : next.txs = chain.txs) :
    Records config owned next db where
  sound := hrecords.sound
  owned := hrecords.owned
  funded := by
    intro row hrow hstatus
    obtain ⟨funding, out, hfunding, hpayment, hamount⟩ := hrecords.funded row hrow hstatus
    refine ⟨funding, out, hfunding, ?_, hamount⟩
    rwa [PoolChain.paymentsTo, htxs]

theorem Records.append (tx : RawTx) (flows : Flows) :
    Records config owned (chain.append tx flows) db where
  sound := hrecords.sound
  owned := hrecords.owned
  funded := by
    intro row hrow hstatus
    obtain ⟨funding, out, hfunding, hpayment, hamount⟩ := hrecords.funded row hrow hstatus
    refine ⟨funding, out, hfunding, ?_, hamount⟩
    rw [paymentsTo_append]
    exact List.mem_append_left _ hpayment

theorem Records.closed (userId : UserId) :
    Records config owned chain (db.updated (.closed userId)) where
  sound := (keepsRow_closed userId).sound_updated hrecords.sound
  owned := by
    intro row hrow
    obtain ⟨before, hbefore, rfl⟩ := List.mem_map.mp hrow
    rw [StakeDeposit.closed]
    split_ifs <;> exact hrecords.owned before hbefore
  funded := by
    intro row hrow hstatus
    obtain ⟨before, hbefore, rfl⟩ := List.mem_map.mp hrow
    rw [StakeDeposit.closed] at hstatus ⊢
    split_ifs at hstatus ⊢ with hclosed
    · obtain ⟨funding, out, hfunding, hpayment, hamount⟩ :=
        hrecords.funded before hbefore (by rw [hclosed.2]; decide)
      exact ⟨funding, out, hfunding, hpayment, hamount⟩
    · exact hrecords.funded before hbefore hstatus

theorem Records.opened (userId : UserId) {address : Address} (howned : owned address = true) :
    Records config owned chain (db.opened userId address) where
  sound := sound_opened hrecords.sound userId address
  owned := by
    intro row hrow
    rcases List.mem_append.mp hrow with hbefore | hnew
    · exact hrecords.owned row hbefore
    · rw [List.mem_singleton.mp hnew]
      exact howned
  funded := by
    intro row hrow hstatus
    rcases List.mem_append.mp hrow with hbefore | hnew
    · exact hrecords.funded row hbefore hstatus
    · rw [List.mem_singleton.mp hnew] at hstatus
      exact absurd rfl hstatus

/-- Marking a deposit with a payment to its address. -/
theorem Records.activated {dep : StakeDeposit} {output : OutPoint × Vout}
    (hdep : dep ∈ db.deposits) (hpayment : output ∈ chain.paymentsTo dep.depositAddress) :
    Records config owned chain
      (db.updated (.activated dep.id output.1 (config.fromNode output.2.value))) where
  sound := (keepsRow_activated _ _ _).sound_updated hrecords.sound
  owned := by
    intro row hrow
    obtain ⟨before, hbefore, rfl⟩ := List.mem_map.mp hrow
    rw [StakeDeposit.activated]
    split_ifs <;> exact hrecords.owned before hbefore
  funded := by
    intro row hrow hstatus
    obtain ⟨before, hbefore, rfl⟩ := List.mem_map.mp hrow
    rw [StakeDeposit.activated] at hstatus ⊢
    split_ifs at hstatus ⊢ with hid
    · obtain rfl := hrecords.sound.eq_of_id_eq hbefore hdep hid
      exact ⟨output.1, output.2, rfl, hpayment, rfl⟩
    · exact hrecords.funded before hbefore hstatus

end

theorem UnstakedPending.activated (hpending : UnstakedPending owned chain db)
    (id : DepositId) (funding : OutPoint) (amountSatoshis : ℤ) :
    UnstakedPending owned chain (db.updated (.activated id funding amountSatoshis)) := by
  intro row hrow hstatus
  obtain ⟨before, hbefore, rfl⟩ := List.mem_map.mp hrow
  rw [StakeDeposit.activated] at hstatus ⊢
  split_ifs at hstatus ⊢
  exact hpending before hbefore hstatus

variable {position : ℕ} {job : Job}

theorem keeps_records_watching (chain : PoolChain) :
    Keeps (storeAnswers (chainNode config owned) position job)
      (Static chain fun db => Records config owned chain db ∧ UnstakedPending owned chain db)
      (runWatcherPass config) := by
  refine keeps_bind (keeps_marking (fun _ hdb => hdb.1.sound) ?_) fun _ =>
    keeps_attributingRewards fun deposits => ?_
  · rintro db dep u ⟨hrecords, hpending⟩ hdep hawaiting ⟨hex, hcoin⟩
    have hpayment := hpending dep hdep hawaiting _ hcoin rfl
    exact ⟨hrecords.activated hdep hpayment, hpending.activated _ _ _⟩
  · rintro db row txid tx total ⟨rfl, hrecords, hpending⟩ _ _
    rw [GatewayDB.execute]
    split_ifs
    · exact ⟨rfl, hrecords, hpending⟩
    · exact ⟨rfl, ⟨⟨hrecords.sound.nodup, hrecords.sound.lt_nextId⟩, hrecords.owned,
        hrecords.funded⟩, hpending⟩

theorem keeps_records_opening (userId : UserId) :
    Keeps (storeAnswers (chainNode config owned) position job)
      (fun store => Records config owned store.node store.db) (createDeposit config userId) :=
  keeps_openedDeposit userId (fun _ _ _ hrecords => Records.congr hrecords rfl)
    fun _ _ _ howned _ _ hrecords => hrecords.opened userId howned

theorem Records.step {store next : PoolStore PoolChain} {move : PoolMove}
    (hstore : Records config owned store.node store.db)
    (hmove : SeenMoves config owned store move next) : Records config owned next.node next.db := by
  obtain ⟨hmove, hseen⟩ := hmove
  cases move with
  | receive tx =>
    obtain ⟨_, rfl⟩ := hmove
    exact hstore.append tx _
  | stake tx =>
    obtain ⟨_, rfl⟩ := hmove
    exact hstore.append tx _
  | mature txid =>
    obtain rfl := hmove
    exact hstore.congr rfl
  | job event =>
    obtain ⟨job, before⟩ := event
    obtain rfl : before = store := hmove.1
    cases job with
    | deposit userId =>
      obtain ⟨_, outcome, hfinishes, _⟩ := hmove
      exact (keeps_bind (keeps_records_opening userId) (fun _ => keeps_done ()) before
        hstore).of_finishes hfinishes
    | watch =>
      obtain ⟨_, outcome, hfinishes, _⟩ := hmove
      obtain ⟨hnode, hdb, _⟩ := (keeps_records_watching before.node before
        ⟨rfl, hstore, hseen _ rfl rfl⟩).of_finishes hfinishes
      rw [hnode]
      exact hdb
    | withdrawal userId amountSatoshis toAddress =>
      obtain ⟨_, tx, _, rfl⟩ := completes_withdrawal_iff.mp hmove
      exact (hstore.append tx _).closed userId

end Records

section LastPass

variable {config : PoolConfig} {owned : Address → Bool} {position : ℕ} {job : Job}

/-- No mature coin of an address is left out of a list. -/
def Lists (owned : Address → Bool) (chain : PoolChain) (address : Address)
    (utxos : List Unspent) : Prop :=
  ∀ output ∈ chain.spendable owned, output.2.address = some address →
    ∃ u ∈ utxos, u.outpoint = output.1

def ListsAll (owned : Address → Bool) (chain : PoolChain) :
    (call : RpcCall) → Except RpcError call.Reply → Prop
  | .listUnspent address, .ok utxos => Lists owned chain address utxos
  | _, _ => True

def confirmedNode (config : PoolConfig) (owned : Address → Bool) : NodeModel PoolChain where
  answers chain call reply paid next :=
    ChainAnswers config owned chain call reply paid next ∧ ListsAll owned chain call reply

theorem nodePays_confirmedNode : NodePays config (confirmedNode config owned) where
  asked node call reply paid next hanswer :=
    nodePays_chainNode.asked node call reply paid next hanswer.1
  acted node address amountSatoshis txid paid next hanswer :=
    nodePays_chainNode.acted node address amountSatoshis txid paid next hanswer.1

/-- What the pass makes of a row. -/
def Passes (config : PoolConfig) (owned : Address → Bool) (chain : PoolChain)
    (row later : StakeDeposit) : Prop :=
  if row.status = .awaitingFunds then
    (later = row ∧ ∀ output ∈ chain.spendable owned, output.2.address ≠ some row.depositAddress) ∨
      ∃ output ∈ chain.spendable owned, output.2.address = some row.depositAddress ∧
        later = row.activated row.id output.1 (config.fromNode output.2.value)
  else later = row

/-- The rows in the middle of the marking: those still to come are as they were. -/
structure MarkedSoFar (config : PoolConfig) (owned : Address → Bool) (store : PoolStore PoolChain)
    (items : List StakeDeposit) (current : PoolStore PoolChain)
    (update : StakeDeposit → StakeDeposit) : Prop where
  node : current.node = store.node
  db : current.db = store.db.updated update
  keeps : KeepsRow update
  coming : ∀ row ∈ items, update row = row
  done : ∀ row ∈ store.db.deposits, row ∈ items ∨ Passes config owned store.node row (update row)

variable {items : List StakeDeposit} {update : StakeDeposit → StakeDeposit}

theorem MarkedSoFar.store_eq {store current other : PoolStore PoolChain}
    (hmarked : MarkedSoFar config owned store items current update)
    (hnode : other.node = current.node) (hdb : other.db = current.db) :
    MarkedSoFar config owned store items other update :=
  { hmarked with node := hnode.trans hmarked.node, db := hdb.trans hmarked.db }

theorem MarkedSoFar.pass {store current : PoolStore PoolChain} {dep : StakeDeposit}
    (hmarked : MarkedSoFar config owned store (dep :: items) current update)
    (hsound : store.db.Sound) (hdep : dep ∈ store.db.deposits)
    (hnodup : ((dep :: items).map StakeDeposit.id).Nodup) {output : OutPoint × Vout}
    (hawaiting : dep.status = .awaitingFunds) (hcoin : output ∈ store.node.spendable owned)
    (haddress : output.2.address = some dep.depositAddress) :
    MarkedSoFar config owned store items { current with
        db := current.db.updated (.activated dep.id output.1 (config.fromNode output.2.value)) }
      fun row => (update row).activated dep.id output.1 (config.fromNode output.2.value) where
  node := hmarked.node
  db := by
    rw [hmarked.db, GatewayDB.updated, GatewayDB.updated, GatewayDB.updated, List.map_map]
    rfl
  keeps := by
    have hactivated := keepsRow_activated dep.id output.1 (config.fromNode output.2.value)
    exact ⟨fun row => (hactivated.id_eq _).trans (hmarked.keeps.id_eq row),
      fun row => (hactivated.userId_eq _).trans (hmarked.keeps.userId_eq row),
      fun row => (hactivated.depositAddress_eq _).trans (hmarked.keeps.depositAddress_eq row)⟩
  coming := by
    intro row hrow
    have hid : row.id ≠ dep.id := fun heq =>
      (List.nodup_cons.mp hnodup).1 (heq ▸ List.mem_map_of_mem hrow)
    rw [hmarked.coming row (List.mem_cons_of_mem _ hrow), StakeDeposit.activated, if_neg hid]
  done := by
    intro row hrow
    by_cases hid : row.id = dep.id
    · obtain rfl := hsound.eq_of_id_eq hrow hdep hid
      refine .inr ?_
      rw [hmarked.coming row List.mem_cons_self, Passes, if_pos hawaiting]
      exact .inr ⟨output, hcoin, haddress, rfl⟩
    · rcases hmarked.done row hrow with hcons | hpassed
      · rcases List.mem_cons.mp hcons with rfl | hlater
        · exact absurd rfl hid
        · exact .inl hlater
      · refine .inr ?_
        have hother : (update row).id ≠ dep.id := by rwa [hmarked.keeps.id_eq]
        rwa [StakeDeposit.activated, if_neg hother]

theorem MarkedSoFar.skip {store current : PoolStore PoolChain} {dep : StakeDeposit}
    (hmarked : MarkedSoFar config owned store (dep :: items) current update)
    (hawaiting : dep.status = .awaitingFunds)
    (hnone : ∀ output ∈ store.node.spendable owned, output.2.address ≠ some dep.depositAddress) :
    MarkedSoFar config owned store items current update where
  node := hmarked.node
  db := hmarked.db
  keeps := hmarked.keeps
  coming row hrow := hmarked.coming row (List.mem_cons_of_mem _ hrow)
  done := by
    intro row hrow
    rcases hmarked.done row hrow with hcons | hpassed
    · rcases List.mem_cons.mp hcons with rfl | hlater
      · refine .inr ?_
        rw [hmarked.coming row List.mem_cons_self, Passes, if_pos hawaiting]
        exact .inl ⟨rfl, hnone⟩
      · exact .inl hlater
    · exact .inr hpassed

/-- `_mark_funded_deposits` when all transactions are confirmed. -/
theorem ensures_markFundedDeposits (store : PoolStore PoolChain) (hsound : store.db.Sound) :
    (markFundedDeposits config).Ensures (storeAnswers (confirmedNode config owned) position job)
      (fun outcome final => outcome = .ok () →
        ∃ update, MarkedSoFar config owned store [] final update) store := by
  rintro loaded current ⟨paid, node, ⟨hloaded, _⟩, rfl⟩
  cases hloaded with
  | listWallets =>
    change ((if config.poolWallet ∈ [config.poolWallet] then pure () else _ : Service Unit) >>=
      _).Ensures _ _ _
    rw [if_pos (List.mem_singleton_self _)]
    rintro rows next ⟨rfl, rfl⟩
    have hinitial : Awaiting (store.db.deposits.filter fun row => row.status = .awaitingFunds)
        store.db := by
      refine ⟨hsound.nodup.sublist (List.filter_sublist.map _), fun row hmem => ?_⟩
      obtain ⟨hrow, hstatus⟩ := List.mem_filter.mp hmem
      exact ⟨hrow, of_decide_eq_true hstatus⟩
    refine Ensures.mono (ensures_foldEach (fun items _ current => Awaiting items store.db ∧
      ∃ update, MarkedSoFar config owned store items current update) (fun _ _ => True)
      ?_ ⟨hinitial, id, rfl, ?_, ⟨fun _ => rfl, fun _ => rfl, fun _ => rfl⟩, fun _ _ => rfl,
        fun row hrow => ?_⟩)
      ?_
    · rintro dep items _ current ⟨hawaiting, update, hmarked⟩
      obtain ⟨hdep, hstatus⟩ := hawaiting.2 dep List.mem_cons_self
      rintro reply after ⟨paid, node, ⟨hlisted, hall⟩, rfl⟩
      cases hlisted with
      | listUnspent _ utxos hutxos =>
        rw [hmarked.node] at hall hutxos
        cases utxos with
        | nil =>
          refine ⟨hawaiting.tail, update, (hmarked.skip hstatus ?_).store_eq rfl rfl⟩
          intro output hcoin haddress
          obtain ⟨u, hu, _⟩ := hall output hcoin haddress
          exact absurd hu List.not_mem_nil
        | cons u others =>
          rintro _ final ⟨_, rfl⟩
          obtain ⟨hex, hcoin⟩ := hutxos u List.mem_cons_self
          refine ⟨hawaiting.tail, _, (hmarked.pass hsound hdep hawaiting.1 hstatus hcoin
            rfl).store_eq rfl rfl⟩
    · rw [GatewayDB.updated, List.map_id]
      rfl
    · by_cases hstatus : row.status = .awaitingFunds
      · exact .inl (List.mem_filter.mpr ⟨hrow, decide_eq_true hstatus⟩)
      · refine .inr ?_
        rw [Passes, if_neg hstatus]
        rfl
    · intro outcome final hfinal hok
      rw [hok] at hfinal
      exact hfinal.2

/-- The pass changes the deposits by the marking only. -/
theorem ensures_lastPass (store : PoolStore PoolChain) (hsound : store.db.Sound) :
    (runWatcherPass config).Ensures (storeAnswers (confirmedNode config owned) position job)
      (fun outcome final => outcome = .ok () → ∃ update, KeepsRow update ∧
        final.db.deposits = store.db.deposits.map update ∧
        ∀ row ∈ store.db.deposits, Passes config owned store.node row (update row)) store := by
  refine ensures_bind ((ensures_markFundedDeposits store hsound).mono ?_)
  intro outcome marked hmarked
  cases outcome with
  | error failure => exact fun hfailed => absurd hfailed nofun
  | ok _ =>
    obtain ⟨update, hmarked⟩ := hmarked rfl
    have hkept : ∀ rows, KeptByRewards rows fun db payments =>
        AllActive rows db ∧ db.deposits = marked.db.deposits := by
      rintro rows db payments row reward _ _ ⟨hactive, hdeposits⟩
      exact ⟨hactive, hdeposits⟩
    refine Ensures.mono (keeps_attributeRewards nodePays_confirmedNode hkept marked rfl) ?_
    intro _ final hfinal _
    have hdeposits : final.db.deposits = marked.db.deposits := hfinal
    refine ⟨update, hmarked.keeps, ?_, fun row hrow => ?_⟩
    · rw [hdeposits, hmarked.db]
      rfl
    · exact (hmarked.done row hrow).resolve_left List.not_mem_nil

end LastPass

section Credit

variable {config : PoolConfig} {owned : Address → Bool} {store : PoolStore PoolChain}
  {closed : OutPoint → Bool}

def StakeDeposit.delegated (row : StakeDeposit) : ℤ :=
  if row.status = .active then row.amount else 0

theorem delegatedOf_eq (db : GatewayDB) (userId : UserId) :
    delegatedOf (db.userRows userId) = db.userSum userId StakeDeposit.delegated := by
  rw [delegatedOf, activeRows, sum_map_filter]
  refine userSum_congr fun row _ => ?_
  rw [StakeDeposit.delegated, StakeDeposit.amount]
  by_cases hactive : row.status = .active
  · simp [hactive]
  · simp [hactive]

theorem ClosedOut.openPayments_eq (hclosed : ClosedOut store closed) {row : StakeDeposit}
    (hrow : row ∈ store.db.deposits) (hstatus : row.status ≠ .withdrawn) :
    store.node.openPayments closed row = store.node.paymentsTo row.depositAddress := by
  refine List.filter_eq_self.mpr fun output hmem => ?_
  rw [hclosed.others row hrow hstatus output hmem]
  rfl

section Row

variable (hrecords : Records config owned store.node store.db)
  (hpending : UnstakedPending owned store.node store.db) {row later : StakeDeposit}
  (hrow : row ∈ store.db.deposits) (hpasses : Passes config owned store.node row later)

include hrecords hpending hrow hpasses

theorem delegated_cases :
    (later.delegated = 0 ∧ row.status = .withdrawn) ∨
      (later.delegated = 0 ∧ row.status = .awaitingFunds ∧
        ∀ output ∈ store.node.paymentsTo row.depositAddress,
          store.node.isSpent output.1 = true) ∨
      ∃ output ∈ store.node.paymentsTo row.depositAddress,
        later.delegated = config.fromNode output.2.value ∧
          (row.status = .active ∨
            row.status = .awaitingFunds ∧ store.node.isSpent output.1 = false) := by
  cases hstatus : row.status with
  | awaitingFunds =>
    rw [Passes, if_pos hstatus] at hpasses
    rcases hpasses with ⟨rfl, hnone⟩ | ⟨output, hcoin, haddress, rfl⟩
    · refine .inr (.inl ⟨by rw [StakeDeposit.delegated, hstatus, if_neg (by decide)], rfl, ?_⟩)
      intro output hmem
      by_contra hunspent
      have hcoin := mem_spendable_of_mem_paymentsTo hmem (hrecords.owned later hrow)
        (Bool.eq_false_of_not_eq_true hunspent)
      obtain ⟨_, _, _, _, haddress⟩ := mem_paymentsTo.mp hmem
      exact hnone output hcoin haddress
    · refine .inr (.inr ⟨output, hpending row hrow hstatus output hcoin haddress, ?_,
        .inr ⟨rfl, isSpent_of_mem_coins (mem_coins_of_mem_spendable hcoin)⟩⟩)
      rw [StakeDeposit.delegated, StakeDeposit.activated, if_pos rfl, if_pos rfl]
      rfl
  | active =>
    obtain ⟨funding, out, hfunding, hpayment, hamount⟩ :=
      hrecords.funded row hrow (by rw [hstatus]; decide)
    rw [Passes, if_neg (by rw [hstatus]; decide)] at hpasses
    refine .inr (.inr ⟨(funding, out), hpayment, ?_, .inl rfl⟩)
    rw [hpasses, StakeDeposit.delegated, if_pos hstatus, StakeDeposit.amount, hamount]
    rfl
  | withdrawn =>
    rw [Passes, if_neg (by rw [hstatus]; decide)] at hpasses
    exact .inl ⟨by rw [hpasses, StakeDeposit.delegated, hstatus, if_neg (by decide)], rfl⟩

variable (hclosed : ClosedOut store closed)

include hclosed

/-- A deposit that was paid once is credited with what was paid. -/
theorem delegated_of_paidOnce (honce : PaidOnce config store.node closed row) :
    later.delegated = totalValue (store.node.openPayments closed row) := by
  rcases delegated_cases hrecords hpending hrow hpasses with ⟨hzero, hstatus⟩ |
    ⟨hzero, hstatus, hspent⟩ | ⟨output, hmem, hread, hstatus⟩
  · rw [PaidOnce, hstatus] at honce
    have hnone : store.node.openPayments closed row = [] :=
      List.filter_eq_nil_iff.mpr fun output hmem => by simp [honce output hmem]
    rw [hzero, hnone]
    rfl
  · rw [PaidOnce, hstatus] at honce
    rw [hzero, hclosed.openPayments_eq hrow (by rw [hstatus]; decide)]
    rcases honce with hnone | ⟨output, hone, hunspent, _⟩
    · rw [hnone]
      rfl
    · have hspent := hspent output (hone ▸ List.mem_singleton_self output)
      exact absurd (hunspent.symm.trans hspent) Bool.false_ne_true
  · have hone : ∃ only, store.node.paymentsTo row.depositAddress = [only] ∧
        config.fromNode only.2.value = only.2.value := by
      rcases hstatus with hactive | ⟨hawaiting, _⟩
      · rw [PaidOnce, hactive] at honce
        exact honce
      · rw [PaidOnce, hawaiting] at honce
        rcases honce with hnone | ⟨only, hone, _, hexact⟩
        · exact absurd (hnone ▸ hmem) List.not_mem_nil
        · exact ⟨only, hone, hexact⟩
    obtain ⟨only, hone, hexact⟩ := hone
    have hnot : row.status ≠ .withdrawn := by
      rcases hstatus with hactive | ⟨hawaiting, _⟩
      · rw [hactive]
        decide
      · rw [hawaiting]
        decide
    rw [hone] at hmem
    obtain rfl := List.mem_singleton.mp hmem
    rw [hread, hexact, hclosed.openPayments_eq hrow hnot, hone]
    exact (add_zero _).symm

theorem delegated_le_openPayments
    (hpaid : ∀ output ∈ store.node.paymentsTo row.depositAddress,
      0 < output.2.value ∧ config.fromNode output.2.value ≤ output.2.value) :
    later.delegated ≤ totalValue (store.node.openPayments closed row) ∧
      (later.delegated = totalValue (store.node.openPayments closed row) →
        PaidOnce config store.node closed row) := by
  have hpositive : ∀ output ∈ store.node.paymentsTo row.depositAddress, 0 < output.2.value :=
    fun output hmem => (hpaid output hmem).1
  have hopenPositive : ∀ output ∈ store.node.openPayments closed row, 0 < output.2.value :=
    fun output hmem => hpositive output (List.mem_filter.mp hmem).1
  have hnonneg := totalValue_nonneg fun output hmem => (hopenPositive output hmem).le
  rcases delegated_cases hrecords hpending hrow hpasses with ⟨hzero, hstatus⟩ |
    ⟨hzero, hstatus, _⟩ | ⟨output, hmem, hread, hstatus⟩
  · rw [hzero]
    refine ⟨hnonneg, fun heq => ?_⟩
    have hnone := (totalValue_eq_zero_iff hopenPositive).mp heq.symm
    rw [PoolChain.openPayments, List.filter_eq_nil_iff] at hnone
    rw [PaidOnce, hstatus]
    intro output hmem
    simpa using hnone output hmem
  · rw [hzero]
    refine ⟨hnonneg, fun heq => ?_⟩
    have hnone := (totalValue_eq_zero_iff hopenPositive).mp heq.symm
    rw [hclosed.openPayments_eq hrow (by rw [hstatus]; decide)] at hnone
    rw [PaidOnce, hstatus]
    exact .inl hnone
  · have hnot : row.status ≠ .withdrawn := by
      rcases hstatus with hactive | ⟨hawaiting, _⟩
      · rw [hactive]
        decide
      · rw [hawaiting]
        decide
    obtain ⟨hle, hiff⟩ := le_totalValue_of_mem hpositive hmem
    have hreads := (hpaid output hmem).2
    rw [hread, hclosed.openPayments_eq hrow hnot]
    refine ⟨hreads.trans hle, fun heq => ?_⟩
    obtain ⟨only, hone⟩ := hiff.mp (le_antisymm hle (heq ▸ hreads))
    rw [hone] at hmem heq
    obtain rfl := List.mem_singleton.mp hmem
    have hexact : config.fromNode output.2.value = output.2.value := heq.trans (add_zero _)
    rcases hstatus with hactive | ⟨hawaiting, hunspent⟩
    · rw [PaidOnce, hactive]
      exact ⟨output, hone, hexact⟩
    · rw [PaidOnce, hawaiting]
      exact .inr ⟨output, hone, hunspent, hexact⟩

end Row

theorem records_of_run {chain : PoolChain} {nextId : DepositId} {moves : List PoolMove}
    (hrun : Run (SeenMoves config owned) ⟨⟨[], [], nextId⟩, chain, []⟩ moves store) :
    Records config owned store.node store.db := by
  have hempty : Records config owned chain ⟨[], [], nextId⟩ :=
    ⟨⟨List.nodup_nil, nofun⟩, nofun, nofun⟩
  exact hrun.invariant (fun _ current => Records config owned current.node current.db) hempty
    fun _ _ _ _ hcurrent hstep => hcurrent.step hstep

theorem payments_credited_iff (config : PoolConfig) (owned : Address → Bool) (chain : PoolChain)
    (nextId : DepositId) (moves : List PoolMove) (store : PoolStore PoolChain)
    (hrun : Run (SeenMoves config owned) ⟨⟨[], [], nextId⟩, chain, []⟩ moves store)
    (hpending : UnstakedPending owned store.node store.db)
    (closed : OutPoint → Bool) (hclosed : ClosedOut store closed) (userId : UserId)
    (final : PoolStore PoolChain)
    (hpass : Finishes (storeAnswers (confirmedNode config owned) 0 .watch) store
      (runWatcherPass config) (.ok ()) final) :
    ((∀ row ∈ store.db.userRows userId, PaidOnce config store.node closed row) →
      delegatedOf (final.db.userRows userId) = store.paidIn closed userId) ∧
    ((∀ row ∈ store.db.userRows userId, ∀ output ∈ store.node.paymentsTo row.depositAddress,
        0 < output.2.value ∧ config.fromNode output.2.value ≤ output.2.value) →
      (delegatedOf (final.db.userRows userId) = store.paidIn closed userId ↔
        ∀ row ∈ store.db.userRows userId, PaidOnce config store.node closed row)) := by
  have hrecords := records_of_run hrun
  obtain ⟨update, hkeeps, hdeposits, hpasses⟩ :=
    (ensures_lastPass store hrecords.sound).of_finishes hpass rfl
  have hrows : final.db.userRows userId = (store.db.updated update).userRows userId := by
    rw [GatewayDB.userRows, hdeposits]
    rfl
  have hfinal : delegatedOf (final.db.userRows userId) =
      store.db.userSum userId fun row => (update row).delegated := by
    rw [hrows, delegatedOf_eq, hkeeps.userSum_updated]
  have hsufficient : (∀ row ∈ store.db.userRows userId, PaidOnce config store.node closed row) →
      delegatedOf (final.db.userRows userId) = store.paidIn closed userId := by
    intro hall
    rw [hfinal]
    refine userSum_congr fun row hrow => ?_
    have hmem := mem_deposits_of_mem_userRows hrow
    exact delegated_of_paidOnce hrecords hpending hmem (hpasses row hmem) hclosed (hall row hrow)
  refine ⟨hsufficient, fun hpaid => ⟨fun heq => ?_, hsufficient⟩⟩
  have hcompare : ∀ row ∈ store.db.userRows userId,
      (update row).delegated ≤ totalValue (store.node.openPayments closed row) ∧
        ((update row).delegated = totalValue (store.node.openPayments closed row) →
          PaidOnce config store.node closed row) := by
    intro row hrow
    have hmem := mem_deposits_of_mem_userRows hrow
    exact delegated_le_openPayments hrecords hpending hmem (hpasses row hmem) hclosed
      (hpaid row hrow)
  rw [hfinal, PoolStore.paidIn, GatewayDB.userSum, GatewayDB.userSum,
    sum_map_eq_iff fun row hrow => (hcompare row hrow).1] at heq
  exact fun row hrow => (hcompare row hrow).2 (heq row hrow)

/-- The first user has sent ten coins, and then five more to the same address. -/
def paidPool : PoolStore PoolChain :=
  { openPool with node := openPool.node.receive poolAddresses (tenCoinsTx 10 1) }

def twicePaidPool : PoolStore PoolChain :=
  { openPool with node := paidPool.node.receive poolAddresses fiveCoinsTx }

def creditedTen (store : PoolStore PoolChain) : PoolStore PoolChain :=
  { store with
    db := store.db.updated (.activated 1 ⟨10, 0⟩ 1000000000) }

theorem seenMoves_of_unwatched {store next : PoolStore PoolChain} (move : PoolMove)
    (hmove : PoolMoves config owned store move next)
    (hunwatched : ∀ event, move = .job event → event.job ≠ .watch) :
    SeenMoves config owned store move next :=
  ⟨hmove, fun event heq hwatch => absurd hwatch (hunwatched event heq)⟩

theorem run_paidPool :
    ∃ moves, Run (SeenMoves .sample poolAddresses) emptyPool moves paidPool := by
  have hdeposit : ∀ (userId : UserId) (before : PoolStore PoolChain) (event : PoolEvent PoolChain),
      PoolMove.job ⟨.deposit userId, before⟩ = .job event → event.job ≠ .watch := by
    rintro userId before event heq hwatch
    rw [← PoolMove.job.inj heq] at hwatch
    exact absurd hwatch nofun
  obtain ⟨store, hfirst, hsecond⟩ := completes_openPool
  have hopened := (Run.nil.snoc (seenMoves_of_unwatched (.job ⟨.deposit 1, emptyPool⟩) hfirst
    (hdeposit 1 _))).snoc (seenMoves_of_unwatched (.job ⟨.deposit 2, store⟩) hsecond (hdeposit 2 _))
  exact ⟨_, hopened.snoc (seenMoves_of_unwatched (.receive (tenCoinsTx 10 1)) (poolMoves_receive 10 1
    (fresh_of_inputs (by decide) (by decide) (by decide) (by decide)) (by decide)) nofun)⟩

theorem run_twicePaidPool :
    ∃ moves, Run (SeenMoves .sample poolAddresses) emptyPool moves twicePaidPool := by
  obtain ⟨moves, hrun⟩ := run_paidPool
  have hreceives : PoolMoves .sample poolAddresses paidPool (.receive fiveCoinsTx) twicePaidPool :=
    ⟨⟨fresh_of_inputs (by decide) (by decide) (by decide) (by decide), by decide⟩, rfl⟩
  exact ⟨_, hrun.snoc (seenMoves_of_unwatched (.receive fiveCoinsTx) hreceives nofun)⟩

/-- A pass over a pool in which the first deposit was paid. -/
theorem finishes_creditedTen {chain : PoolChain} {others : List Unspent}
    (hlisted : ∀ u ∈ (⟨⟨10, 0⟩, 1000000000⟩ :: others : List Unspent), ∃ hex,
      (u.outpoint, ⟨u.amount, hex, some 1⟩) ∈ chain.spendable poolAddresses)
    (hall : Lists poolAddresses chain 1 (⟨⟨10, 0⟩, 1000000000⟩ :: others))
    (hnone : Lists poolAddresses chain 2 [])
    (hunspent : (chain.unspent.any fun output => output.1 = ⟨10, 0⟩) = true) :
    Finishes (storeAnswers (confirmedNode .sample poolAddresses) 0 .watch)
      { openPool with node := chain } (runWatcherPass .sample) (.ok ())
      (creditedTen { openPool with node := chain }) := by
  have hspent : ChainAnswers .sample poolAddresses chain (.getTxOut ⟨10, 0⟩) (.ok true) none chain := by
    have hanswer : ChainAnswers .sample poolAddresses chain (.getTxOut ⟨10, 0⟩)
      (.ok (chain.unspent.any fun output => output.1 = ⟨10, 0⟩)) none chain := .getTxOut ⟨10, 0⟩
    rwa [hunspent] at hanswer
  exact .ask ⟨_, _, ⟨.listWallets, trivial⟩, rfl⟩ (.ask ⟨rfl, rfl⟩
    (.ask ⟨_, _, ⟨.listUnspent 1 _ hlisted, hall⟩, rfl⟩ (.ask ⟨rfl, rfl⟩
    (.ask ⟨_, _, ⟨.listUnspent 2 [] nofun, hnone⟩, rfl⟩
    (.ask ⟨_, _, ⟨.listWallets, trivial⟩, rfl⟩ (.ask ⟨rfl, rfl⟩
    (.ask ⟨_, _, ⟨hspent, trivial⟩, rfl⟩ .done)))))))

/-- One payment is credited in full. -/
theorem payments_credited_paidPool :
    paidPool.paidIn (fun _ => false) 1 = 1000000000 ∧
      delegatedOf ((creditedTen paidPool).db.userRows 1) = paidPool.paidIn (fun _ => false) 1 := by
  obtain ⟨moves, hrun⟩ := run_paidPool
  refine ⟨by decide, ?_⟩
  refine (payments_credited_iff .sample poolAddresses emptyPool.node 1 moves paidPool hrun ?_
    (fun _ => false) ⟨by decide, fun _ _ _ _ _ => rfl⟩ 1 (creditedTen paidPool)
    (@finishes_creditedTen paidPool.node [] ?_ ?_ ?_ (by decide))).1 ?_
  · unfold UnstakedPending
    decide
  · intro u hmem
    rw [List.mem_singleton.mp hmem]
    exact ⟨[], by decide⟩
  · unfold Lists
    decide
  · unfold Lists
    decide
  · intro row hrow
    have honly : row = ⟨1, 1, 1, none, none, .awaitingFunds⟩ := List.mem_singleton.mp hrow
    rw [honly]
    exact .inr ⟨(⟨10, 0⟩, ⟨1000000000, [], some 1⟩), by decide, by decide, rfl⟩

/-- Of ten coins and five coins sent to one address, ten are credited, by this pass and for
good. -/
theorem second_payment_not_credited :
    (∃ moves, Run (SeenMoves .sample poolAddresses) emptyPool moves twicePaidPool) ∧
      Finishes (storeAnswers (confirmedNode .sample poolAddresses) 0 .watch) twicePaidPool
        (runWatcherPass .sample) (.ok ()) (creditedTen twicePaidPool) ∧
      twicePaidPool.paidIn (fun _ => false) 1 = 1500000000 ∧
      delegatedOf ((creditedTen twicePaidPool).db.userRows 1) = 1000000000 := by
  refine ⟨run_twicePaidPool, @finishes_creditedTen twicePaidPool.node [⟨⟨12, 0⟩, 500000000⟩] ?_ ?_
    ?_ (by decide), by decide, by decide⟩
  · intro u hmem
    rcases List.mem_cons.mp hmem with rfl | hlast
    · exact ⟨[], by decide⟩
    · rw [List.mem_singleton.mp hlast]
      exact ⟨[], by decide⟩
  · unfold Lists
    decide
  · unfold Lists
    decide

end Credit

end FirstIslamicCoin.StakingService
