import FirstIslamicCoin.StakingService.DepositCoins

/-!
# The rewards of a stake chain

A coin that stakes moves to an output of the coinstake and stakes again from there.  The
watcher looks for the coinstake that spends the funding output a deposit was marked with,
among the last 50 entries of the wallet under the label of the deposit, and never marks
the deposit anew.  So the rewards of a deposit are complete exactly when the coin has
staked at most once, the watcher saw that coinstake in time, and the amounts it read as
floating-point numbers gave the right difference.
-/

namespace FirstIslamicCoin.StakingService

open Program

section Chains

def RawTx.spendsFrom (tx source : RawTx) : Bool :=
  tx.vin.any fun vin => vin.any fun outpoint => outpoint.txid = source.txid

/-- The coinstakes that stake an output and what became of it, oldest first. -/
def stakeChain (funding : OutPoint) (txs : List RawTx) : List RawTx :=
  txs.foldl (fun staked tx =>
    if tx.isCoinstake && (tx.spends funding || staked.any tx.spendsFrom) then staked ++ [tx]
    else staked) []

variable {funding : OutPoint} {txs : List RawTx} {tx : RawTx}

theorem stakeChain_append (funding : OutPoint) (txs : List RawTx) (tx : RawTx) :
    stakeChain funding (txs ++ [tx]) =
      if tx.isCoinstake && (tx.spends funding || (stakeChain funding txs).any tx.spendsFrom) then
        stakeChain funding txs ++ [tx]
      else stakeChain funding txs := by
  rw [stakeChain, List.foldl_append]
  rfl

theorem mem_of_mem_stakeChain (hmem : tx ∈ stakeChain funding txs) : tx ∈ txs := by
  induction txs using List.reverseRecOn with
  | nil => exact hmem
  | append_singleton txs last ih =>
    rw [stakeChain_append] at hmem
    split_ifs at hmem
    · rcases List.mem_append.mp hmem with hbefore | hlast
      · exact List.mem_append_left _ (ih hbefore)
      · exact List.mem_append_right _ hlast
    · exact List.mem_append_left _ (ih hmem)

theorem mem_stakeChain_of_spends (hmem : tx ∈ txs) (hcoinstake : tx.isCoinstake = true)
    (hspends : tx.spends funding = true) : tx ∈ stakeChain funding txs := by
  induction txs using List.reverseRecOn with
  | nil => exact absurd hmem List.not_mem_nil
  | append_singleton txs last ih =>
    rw [stakeChain_append]
    rcases List.mem_append.mp hmem with hbefore | hlast
    · split_ifs
      · exact List.mem_append_left _ (ih hbefore)
      · exact ih hbefore
    · obtain rfl := List.mem_singleton.mp hlast
      rw [hcoinstake, hspends, Bool.true_or, Bool.true_and, if_pos rfl]
      exact List.mem_append_right _ hlast

/-- A stake chain starts with a coinstake that spends the output itself. -/
theorem head_stakeChain {rest : List RawTx} (hchain : stakeChain funding txs = tx :: rest) :
    tx.isCoinstake = true ∧ tx.spends funding = true := by
  induction txs using List.reverseRecOn generalizing rest with
  | nil => exact absurd hchain nofun
  | append_singleton txs last ih =>
    rw [stakeChain_append] at hchain
    split_ifs at hchain with hadded
    · cases hbefore : stakeChain funding txs with
      | nil =>
        rw [hbefore] at hadded hchain
        obtain rfl := (List.cons.inj hchain).1
        simpa using hadded
      | cons first others =>
        rw [hbefore] at hchain
        obtain rfl := (List.cons.inj hchain).1
        exact ih hbefore
    · exact ih hchain

def PoolChain.valueIn (chain : PoolChain) (tx : RawTx) : ℤ :=
  (inputTotal id chain.lookup tx.vin).getD 0

/-- The amounts of a coinstake, as the watcher reads them, give what it gained. -/
def ReadsGain (config : PoolConfig) (chain : PoolChain) (tx : RawTx) : Prop :=
  ∀ total, inputTotal config.fromNode chain.lookup tx.vin = some total →
    tx.outTotal config - total = tx.valueOut - chain.valueIn tx

end Chains

section Pass

variable {config : PoolConfig} {owned : Address → Bool} {position : ℕ} {job : Job}
  {chain : PoolChain}

def Recorded (txid : TxId) (db : GatewayDB) : Prop :=
  ∃ reward ∈ db.rewards, reward.coinstakeTxid = txid

theorem recorded_insertReward (reward : StakeReward) (db : GatewayDB) :
    Recorded reward.coinstakeTxid (db.execute (.insertReward reward)).2 := by
  rw [GatewayDB.execute]
  split_ifs with hknown
  · obtain ⟨other, hother, heq⟩ := List.any_eq_true.mp hknown
    exact ⟨other, hother, of_decide_eq_true heq⟩
  · exact ⟨reward, List.mem_append_right _ (List.mem_singleton_self reward), rfl⟩

theorem mem_rewards_insertReward {reward added : StakeReward} {db : GatewayDB}
    (hmem : reward ∈ (db.execute (.insertReward added)).2.rewards) :
    reward ∈ db.rewards ∨ reward = added := by
  rw [GatewayDB.execute] at hmem
  split_ifs at hmem
  · exact .inl hmem
  · simpa using hmem

theorem Recorded.insertReward {txid : TxId} {db : GatewayDB} (hrecorded : Recorded txid db)
    (added : StakeReward) : Recorded txid (db.execute (.insertReward added)).2 := by
  obtain ⟨reward, hreward, htxid⟩ := hrecorded
  refine ⟨reward, ?_, htxid⟩
  rw [GatewayDB.execute]
  split_ifs
  · exact hreward
  · exact List.mem_append_left _ hreward

theorem deposits_insertReward (added : StakeReward) (db : GatewayDB) :
    (db.execute (.insertReward added)).2.deposits = db.deposits := by
  rw [GatewayDB.execute]
  split_ifs <;> rfl

/-- What a pass keeps of the tables it starts from: an active deposit stays as it is, the
rewards stay, and a new reward belongs to an entry in the window of its deposit. -/
structure PassedFrom (owned : Address → Bool) (chain : PoolChain) (before : GatewayDB)
    (db : GatewayDB) : Prop where
  active : ∀ dep ∈ before.deposits, dep.status = .active → dep ∈ db.deposits
  recorded : ∀ txid, Recorded txid before → Recorded txid db
  rewards : ∀ reward ∈ db.rewards, reward ∈ before.rewards ∨
    reward.coinstakeTxid ∈ chain.history owned (.deposit reward.depositId) 50

theorem PassedFrom.activated {before db : GatewayDB} (hpassed : PassedFrom owned chain before db)
    (hsound : db.Sound) {dep : StakeDeposit} (hdep : dep ∈ db.deposits)
    (hawaiting : dep.status = .awaitingFunds) (funding : OutPoint) (amountSatoshis : ℤ) :
    PassedFrom owned chain before (db.updated (.activated dep.id funding amountSatoshis)) where
  active := by
    intro other hother hactive
    have hmem := hpassed.active other hother hactive
    refine List.mem_map.mpr ⟨other, hmem, ?_⟩
    have hid : other.id ≠ dep.id := by
      intro heq
      rw [hsound.eq_of_id_eq hmem hdep heq, hawaiting] at hactive
      exact absurd hactive nofun
    rw [StakeDeposit.activated, if_neg hid]
  recorded := hpassed.recorded
  rewards := hpassed.rewards

theorem PassedFrom.insertReward {before db : GatewayDB}
    (hpassed : PassedFrom owned chain before db) {added : StakeReward}
    (hwindow : added.coinstakeTxid ∈ chain.history owned (.deposit added.depositId) 50) :
    PassedFrom owned chain before (db.execute (.insertReward added)).2 where
  active := by
    rw [deposits_insertReward]
    exact hpassed.active
  recorded txid hrecorded := (hpassed.recorded txid hrecorded).insertReward added
  rewards := by
    intro reward hmem
    rcases mem_rewards_insertReward hmem with hbefore | rfl
    · exact hpassed.rewards reward hbefore
    · exact .inr hwindow

def MidPass (config : PoolConfig) (owned : Address → Bool) (chain : PoolChain)
    (before db : GatewayDB) : Prop :=
  Traced config owned chain db ∧ PassedFrom owned chain before db

theorem keeps_midPass_marking (before : GatewayDB) :
    Keeps (storeAnswers (chainNode config owned) position job)
      (Static chain (MidPass config owned chain before)) (markFundedDeposits config) := by
  refine keeps_marking (fun _ hdb => hdb.1.sound) ?_
  rintro db dep u ⟨htraced, hpassed⟩ hdep hawaiting hlisted
  exact ⟨htraced.activated hdep hawaiting hlisted _,
    hpassed.activated htraced.sound hdep hawaiting _ _⟩

theorem keptByRecording_midPass (before : GatewayDB) (deposits : List StakeDeposit) :
    KeptByRecording config owned chain (deposits.filter fun row => row.status = .active)
      fun db => db.deposits = deposits ∧ MidPass config owned chain before db := by
  rintro db row txid tx total ⟨rfl, htraced, hpassed⟩ hrow hattributable
  obtain ⟨hmem, hactive⟩ := List.mem_filter.mp hrow
  exact ⟨deposits_insertReward _ db, htraced.recorded hmem (of_decide_eq_true hactive) hattributable,
    hpassed.insertReward hattributable.inWindow⟩

end Pass

section Progress

variable {config : PoolConfig} {owned : Address → Bool} {position : ℕ} {job : Job}
  {chain : PoolChain} {property : GatewayDB → Prop} {rows : List StakeDeposit}
  {row : StakeDeposit} {tx : RawTx}

variable {store : PoolStore PoolChain} {funding : OutPoint}

/-- The pass over the coinstake itself records it, unless it fails. -/
theorem ensures_recorded_attributing (hkept : KeptByRecording config owned chain rows property)
    (hrow : row ∈ rows) (htx : chain.lookup tx.txid = some tx)
    (hcoinstake : tx.isCoinstake = true) (hspends : row.funding.any tx.spends = true)
    (hwindow : tx.txid ∈ chain.history owned (.deposit row.id) 50)
    (hstore : Static chain property store) :
    (attributeReward config row tx.txid).Ensures
      (storeAnswers (chainNode config owned) position job)
      (fun outcome final => ∀ result, outcome = .ok result →
        Static chain property final ∧ Recorded tx.txid final.db) store := by
  obtain ⟨rfl, hproperty⟩ := hstore
  rintro already next ⟨halready, rfl⟩
  change (if (id already : Bool) = true then pure () else _ : Service Unit).Ensures _ _ _
  split_ifs with hknown
  · have hany : (store.db.rewards.any fun reward => reward.coinstakeTxid = tx.txid) = true :=
      halready.symm.trans hknown
    obtain ⟨reward, hreward, heq⟩ := List.any_eq_true.mp hany
    exact fun _ _ => ⟨⟨rfl, hproperty⟩, reward, hreward, of_decide_eq_true heq⟩
  · intro reply after hcall
    obtain ⟨rfl, hshown⟩ := answers_of_isRead rfl hcall
    cases hshown with
    | unknownTransaction error hnone => exact absurd (hnone.symm.trans htx) nofun
    | getRawTransaction hshown =>
      obtain rfl := Option.some.inj (htx.symm.trans hshown)
      change (if (tx.isCoinstake && row.funding.any tx.spends) = true then _ else _ :
        Service Unit).Ensures _ _ _
      rw [hcoinstake, hspends, Bool.and_self, if_pos rfl]
      refine ensures_bind ((ensures_inTotal store tx).mono ?_)
      rintro outcome _ ⟨rfl, htotal⟩
      cases outcome with
      | error failure => exact fun _ hfailed => absurd hfailed nofun
      | ok total =>
        rintro _ final ⟨_, rfl⟩ _ _
        exact ⟨⟨rfl, hkept _ row tx.txid tx total hproperty hrow
          ⟨hwindow, htx, hcoinstake, hspends, htotal total rfl⟩⟩, recorded_insertReward _ _⟩

theorem KeptByRecording.and_recorded (hkept : KeptByRecording config owned chain rows property)
    (txid : TxId) :
    KeptByRecording config owned chain rows fun db => property db ∧ Recorded txid db := by
  rintro db other wanted spender total ⟨hproperty, hrecorded⟩ hother hattributable
  exact ⟨hkept db other wanted spender total hproperty hother hattributable,
    hrecorded.insertReward _⟩

/-- What is kept together with a row that is there stays together. -/
theorem keeps_and_recorded {Result : Type} {program : Service Result} {txid : TxId}
    (hkeeps : Keeps (storeAnswers (chainNode config owned) position job)
      (Static chain fun db => property db ∧ Recorded txid db) program) :
    Keeps (storeAnswers (chainNode config owned) position job)
      (fun store => Static chain property store ∧ Recorded txid store.db) program := by
  rintro store ⟨⟨hnode, hproperty⟩, hrecorded⟩
  refine (hkeeps store ⟨hnode, hproperty, hrecorded⟩).mono ?_
  rintro _ final ⟨hnode, hproperty, hrecorded⟩
  exact ⟨⟨hnode, hproperty⟩, hrecorded⟩

theorem not_unspent_of_spends (hmem : tx ∈ chain.txs) (hspends : tx.spends funding = true) :
    (chain.unspent.any fun output => output.1 = funding) = false := by
  rw [List.any_eq_false]
  intro output hunspent heq
  have hspent : chain.isSpent output.1 = true := by
    rw [of_decide_eq_true heq]
    exact List.any_eq_true.mpr ⟨tx, hmem, hspends⟩
  have hnot := (List.mem_filter.mp hunspent).2
  rw [hspent] at hnot
  exact absurd hnot Bool.false_ne_true

theorem ensures_recorded_attributingDeposit
    (hkept : KeptByRecording config owned chain rows property) (hrow : row ∈ rows)
    (hfunding : row.funding = some funding) (htx : chain.lookup tx.txid = some tx)
    (hcoinstake : tx.isCoinstake = true) (hspends : tx.spends funding = true)
    (hwindow : tx.txid ∈ chain.history owned (.deposit row.id) 50)
    (hstore : Static chain property store) :
    (attributeDeposit config row).Ensures (storeAnswers (chainNode config owned) position job)
      (fun outcome final => ∀ result, outcome = .ok result →
        Static chain property final ∧ Recorded tx.txid final.db) store := by
  obtain ⟨rfl, hproperty⟩ := hstore
  have hany : row.funding.any tx.spends = true := by
    rw [hfunding]
    exact hspends
  rw [attributeDeposit, hfunding]
  intro reply after hcall
  obtain ⟨rfl, hshown⟩ := answers_of_isRead rfl hcall
  cases hshown with
  | getTxOut =>
    have hspent := not_unspent_of_spends (List.mem_of_find?_eq_some htx) hspends
    dsimp only
    change (if (after.node.unspent.any fun output => output.1 = funding) = true then _ else _ :
      Service Unit).Ensures _ _ _
    rw [hspent, if_neg Bool.false_ne_true]
    intro entries later hlist
    obtain ⟨rfl, hhistory⟩ := answers_of_isRead rfl hlist
    cases hhistory with
    | listTransactions =>
      refine ensures_foldEach_reaches (fun txid hmem _ => keeps_attributing hkept hrow hmem)
        (fun txid hmem _ => keeps_and_recorded
          (keeps_attributing (hkept.and_recorded _) hrow hmem)) hwindow
        (fun _ current hcurrent => ?_) () ⟨rfl, hproperty⟩
      exact ensures_recorded_attributing hkept hrow htx hcoinstake hany hwindow hcurrent

/-- A pass that does not fail has a row for every coinstake that spends the funding output
of an active deposit and is in its window. -/
theorem ensures_recorded_watching {before : GatewayDB} (hrow : row ∈ before.deposits)
    (hactive : row.status = .active) (hfunding : row.funding = some funding)
    (htx : chain.lookup tx.txid = some tx) (hcoinstake : tx.isCoinstake = true)
    (hspends : tx.spends funding = true)
    (hwindow : tx.txid ∈ chain.history owned (.deposit row.id) 50)
    (hstore : Static chain (MidPass config owned chain before) store) :
    (runWatcherPass config).Ensures (storeAnswers (chainNode config owned) position job)
      (fun outcome final => ∀ result, outcome = .ok result → Recorded tx.txid final.db) store := by
  refine ensures_bind ((keeps_midPass_marking before store hstore).mono ?_)
  intro outcome marked hmarked
  cases outcome with
  | error failure => exact fun _ hfailed => absurd hfailed nofun
  | ok _ =>
    refine ensures_walletLoaded ?_
    rintro active next ⟨rfl, rfl⟩
    obtain ⟨rfl, hmid⟩ := hmarked
    have hkept := @keptByRecording_midPass config owned marked.node before marked.db.deposits
    have hmem : row ∈ marked.db.deposits.filter fun other => other.status = .active :=
      List.mem_filter.mpr ⟨hmid.2.active row hrow hactive, decide_eq_true hactive⟩
    refine Ensures.mono (ensures_foldEach_reaches
      (fun other hother _ => keeps_attributingDeposit hkept hother)
      (fun other hother _ => keeps_and_recorded
        (keeps_attributingDeposit (hkept.and_recorded tx.txid) hother)) hmem
      (fun _ current hcurrent => ensures_recorded_attributingDeposit hkept hmem hfunding htx
        hcoinstake hspends hwindow hcurrent) () ⟨rfl, rfl, hmid⟩) ?_
    exact fun _ _ hfinal result hok => (hfinal result hok).2

theorem keeps_midPass_watching (before : GatewayDB) :
    Keeps (storeAnswers (chainNode config owned) position job)
      (Static chain (MidPass config owned chain before)) (runWatcherPass config) :=
  keeps_bind (keeps_midPass_marking before) fun _ =>
    keeps_attributingRewards fun deposits => keptByRecording_midPass before deposits

theorem midPass_self {before : GatewayDB} (htraced : Traced config owned chain before) :
    MidPass config owned chain before before :=
  ⟨htraced, fun _ hmem _ => hmem, fun _ hrecorded => hrecorded, fun _ hmem => .inl hmem⟩

end Progress

section Attribution

variable {config : PoolConfig} {owned : Address → Bool} {chain : PoolChain} {db : GatewayDB}
  {dep : StakeDeposit} {funding : OutPoint} {tx : RawTx}

def GatewayDB.rewardRows (db : GatewayDB) (id : DepositId) : List StakeReward :=
  db.rewards.filter fun reward => reward.depositId = id

/-- Every coinstake of the stake chain of an output has one row for the deposit, nothing
else has, and the gross rewards add up to what the coinstakes gained. -/
def Attributed (chain : PoolChain) (db : GatewayDB) (id : DepositId) (funding : OutPoint) : Prop :=
  ((db.rewardRows id).map StakeReward.coinstakeTxid).Perm
      ((stakeChain funding chain.txs).map RawTx.txid) ∧
    ((db.rewardRows id).map StakeReward.grossRewardSatoshis).sum =
      ((stakeChain funding chain.txs).map fun tx => tx.valueOut - chain.valueIn tx).sum

/-- A row of a funded deposit is that of a coinstake spending its funding output. -/
theorem Traced.earned_of_mem (htraced : Traced config owned chain db) (hdep : dep ∈ db.deposits)
    {reward : StakeReward} (hmem : reward ∈ db.rewardRows dep.id) :
    ∃ tx, Earned config chain dep reward tx := by
  obtain ⟨hreward, hid⟩ := List.mem_filter.mp hmem
  obtain ⟨row, hrow, tx, hearned⟩ := htraced.earned reward hreward
  obtain rfl := htraced.sound.eq_of_id_eq hrow hdep (hearned.id_eq.trans (of_decide_eq_true hid))
  exact ⟨tx, hearned⟩

/-- Two deposits whose funding outputs one coinstake spends are one deposit. -/
theorem Traced.eq_of_spends (htraced : Traced config owned chain db) {row : StakeDeposit}
    (hdep : dep ∈ db.deposits) (hrow : row ∈ db.deposits) (hdepStatus : dep.status ≠ .awaitingFunds)
    (hrowStatus : row.status ≠ .awaitingFunds) (hmem : tx ∈ chain.txs)
    (hcoinstake : tx.isCoinstake = true) (hdepSpends : dep.funding.any tx.spends = true)
    (hrowSpends : row.funding.any tx.spends = true) : row = dep := by
  obtain ⟨first, out, hfirst, hout, hmine, haddress⟩ := htraced.funded dep hdep hdepStatus
  obtain ⟨second, other, hsecond, hother, hmineToo, haddressToo⟩ :=
    htraced.funded row hrow hrowStatus
  rw [hfirst] at hdepSpends
  rw [hsecond] at hrowSpends
  have hsame := htraced.valid.oneAddress tx hmem hcoinstake (first, out) hout (second, other) hother
    hmine hmineToo hdepSpends hrowSpends
  rw [haddress, haddressToo] at hsame
  exact List.inj_on_of_nodup_map htraced.addresses hrow hdep (Option.some.inj hsame).symm

/-- At most one row, when all rows would be of one coinstake. -/
theorem rewardRows_of_forall_eq {id : DepositId} {txid : TxId}
    (hnodup : (db.rewards.map StakeReward.coinstakeTxid).Nodup)
    (hall : ∀ reward ∈ db.rewardRows id, reward.coinstakeTxid = txid) :
    db.rewardRows id = [] ∨ ∃ reward, db.rewardRows id = [reward] := by
  have hrows : ((db.rewardRows id).map StakeReward.coinstakeTxid).Nodup :=
    hnodup.sublist (List.filter_sublist.map _)
  match hcases : db.rewardRows id with
  | [] => exact .inl rfl
  | [reward] => exact .inr ⟨reward, rfl⟩
  | first :: second :: rest =>
    rw [hcases] at hall hrows
    have hfirst := hall first List.mem_cons_self
    have hsecond := hall second (List.mem_cons_of_mem _ List.mem_cons_self)
    refine absurd ?_ (List.nodup_cons.mp hrows).1
    rw [hfirst, ← hsecond]
    exact List.mem_cons_self

theorem rewards_attributed_iff (config : PoolConfig) (owned : Address → Bool) (chain : PoolChain)
    (nextId : DepositId) (hvalid : chain.Valid owned) (moves : List PoolMove)
    (store : PoolStore PoolChain)
    (hrun : Run (PoolMoves config owned) ⟨⟨[], [], nextId⟩, chain, []⟩ moves store)
    (dep : StakeDeposit) (funding : OutPoint)
    (hdep : dep ∈ store.db.deposits) (hactive : dep.status = .active)
    (hfunding : dep.funding = some funding) (final : PoolStore PoolChain)
    (hpass : Finishes (storeAnswers (chainNode config owned) 0 .watch) store
      (runWatcherPass config) (.ok ()) final) :
    Attributed final.node final.db dep.id funding ↔
      stakeChain funding store.node.txs = [] ∨
        ∃ tx, stakeChain funding store.node.txs = [tx] ∧
          (Recorded tx.txid store.db ∨
            tx.txid ∈ store.node.history owned (.deposit dep.id) 50) ∧
          ReadsGain config store.node tx := by
  have hbefore : TracedStore config owned store :=
    hrun.invariant (fun _ current => TracedStore config owned current)
      (tracedStore_empty config owned hvalid nextId []) fun _ _ _ _ hstore hmove =>
        hstore.step hmove
  have hstatic : Static store.node (MidPass config owned store.node store.db) store :=
    ⟨rfl, midPass_self hbefore⟩
  obtain ⟨hnode, htraced, hpassed⟩ := (keeps_midPass_watching store.db store hstatic).of_finishes
    hpass
  have hkeptDep := hpassed.active dep hdep hactive
  have hstatus : dep.status ≠ .awaitingFunds := by
    rw [hactive]
    exact nofun
  -- every row of the deposit is that of a coinstake on the stake chain
  have hrows : ∀ reward ∈ final.db.rewardRows dep.id, ∃ tx, Earned config store.node dep reward tx ∧
      tx.spends funding = true ∧ tx ∈ stakeChain funding store.node.txs := by
    intro reward hmem
    obtain ⟨tx, hearned⟩ := htraced.earned_of_mem hkeptDep hmem
    have hspends : tx.spends funding = true := by
      have hany := hearned.spends
      rwa [hfunding] at hany
    exact ⟨tx, hearned, hspends,
      mem_stakeChain_of_spends hearned.mem_txs hearned.coinstake hspends⟩
  rw [Attributed, hnode]
  cases hchain : stakeChain funding store.node.txs with
  | nil =>
      have hnone : final.db.rewardRows dep.id = [] := by
        refine List.eq_nil_iff_forall_not_mem.mpr fun reward hmem => ?_
        obtain ⟨tx, _, _, htx⟩ := hrows reward hmem
        rw [hchain] at htx
        exact absurd htx List.not_mem_nil
      rw [hnone]
      exact ⟨fun _ => .inl rfl, fun _ => ⟨.refl _, rfl⟩⟩
  | cons first rest =>
      obtain ⟨hcoinstake, hspends⟩ := head_stakeChain hchain
      have hfirst : first ∈ store.node.txs := mem_of_mem_stakeChain (hchain ▸ List.mem_cons_self)
      have hall : ∀ reward ∈ final.db.rewardRows dep.id, Earned config store.node dep reward first := by
        intro reward hmem
        obtain ⟨tx, hearned, htx, _⟩ := hrows reward hmem
        obtain rfl := hbefore.valid.once tx hearned.mem_txs first hfirst funding htx hspends
        exact hearned
      constructor
      · rintro ⟨hperm, hsum⟩
        refine .inr ⟨first, ?_⟩
        rcases rewardRows_of_forall_eq htraced.txids fun reward hmem =>
          (hall reward hmem).txid_eq.symm with hnone | ⟨reward, hone⟩
        · rw [hnone] at hperm
          exact absurd hperm.symm.eq_nil nofun
        · rw [hone] at hperm hsum
          have hlength := hperm.length_eq
          simp only [List.map_cons, List.map_nil, List.length_cons, List.length_nil,
            List.length_map, Nat.zero_add, Nat.right_eq_add] at hlength
          obtain rfl := List.length_eq_zero_iff.mp hlength
          have hmem : reward ∈ final.db.rewardRows dep.id := hone ▸ List.mem_cons_self
          obtain ⟨hreward, hid⟩ := List.mem_filter.mp hmem
          refine ⟨rfl, ?_, fun total htotal => ?_⟩
          · rw [(hall reward hmem).txid_eq]
            rcases hpassed.rewards reward hreward with hold | hwindow
            · exact .inl ⟨reward, hold, rfl⟩
            · rw [of_decide_eq_true hid] at hwindow
              exact .inr hwindow
          · obtain ⟨read, hread, hgross⟩ := (hall reward hmem).gross
            obtain rfl := Option.some.inj (htotal.symm.trans hread)
            rw [List.map_singleton, List.map_singleton, List.sum_singleton, List.sum_singleton,
              hgross] at hsum
            exact hsum
      · rintro (hnil | ⟨tx, hsingle, hseen, hreads⟩)
        · exact absurd hnil nofun
        · obtain ⟨rfl, rfl⟩ := List.cons.inj hsingle
          have hrecorded : Recorded first.txid final.db := by
            rcases hseen with hold | hwindow
            · exact hpassed.recorded _ hold
            · exact (ensures_recorded_watching hdep hactive hfunding
                (hbefore.valid.lookup_eq hfirst) hcoinstake hspends hwindow hstatic).of_finishes
                  hpass () rfl
          obtain ⟨reward, hreward, htxid⟩ := hrecorded
          obtain ⟨row, hrow, tx, hearned⟩ := htraced.earned reward hreward
          obtain rfl : tx = first := List.inj_on_of_nodup_map hbefore.valid.txids hearned.mem_txs
            hfirst (hearned.txid_eq.trans htxid)
          obtain rfl : row = dep := htraced.eq_of_spends hkeptDep hrow hstatus hearned.status hfirst
            hcoinstake (by rw [hfunding]; exact hspends) hearned.spends
          have hmem : reward ∈ final.db.rewardRows row.id :=
            List.mem_filter.mpr ⟨hreward, decide_eq_true hearned.id_eq.symm⟩
          rcases rewardRows_of_forall_eq htraced.txids fun reward hmem =>
            (hall reward hmem).txid_eq.symm with hnone | ⟨other, hone⟩
          · rw [hnone] at hmem
            exact absurd hmem List.not_mem_nil
          · rw [hone] at hmem ⊢
            obtain rfl := List.mem_singleton.mp hmem
            obtain ⟨total, htotal, hgross⟩ := hearned.gross
            rw [List.map_singleton, List.map_singleton, List.map_singleton, List.map_singleton,
              List.sum_singleton, List.sum_singleton, hearned.txid_eq, hgross, hreads total htotal]
            exact ⟨.refl _, rfl⟩

/-- The pool when the coin of the first user has staked once, and when it has staked
again. -/
def stakedPool : PoolStore PoolChain :=
  { fundedPool with
    node := fundedPool.node.stake poolAddresses (stakeTx 20 ⟨10, 0⟩ 2000000000 1) }

def restakedPool : PoolStore PoolChain :=
  { stakedPool with
    node := (stakedPool.node.mature 20).stake poolAddresses (stakeTx 21 ⟨20, 1⟩ 3000000000 1) }

theorem run_stakedPool :
    ∃ moves, Run (PoolMoves .sample poolAddresses) emptyPool moves stakedPool := by
  obtain ⟨moves, hrun⟩ := run_fundedPool fun _ _ _ hmoves _ => hmoves.full.1
  have hstakes := @stakes_stakeTx fundedPool.node 20 (⟨10, 0⟩, ⟨1000000000, [], some 1⟩) 2000000000 1
    (fresh_of_inputs (by decide) (by decide) (by decide) (by decide)) (by decide) (by decide) rfl
    (by decide)
  exact ⟨_, hrun.snoc (show PoolMoves .sample poolAddresses fundedPool (.stake _) stakedPool from
    ⟨hstakes, rfl⟩)⟩

theorem run_restakedPool :
    ∃ moves, Run (PoolMoves .sample poolAddresses) emptyPool moves restakedPool := by
  obtain ⟨moves, hrun⟩ := run_stakedPool
  have hmature : PoolMoves .sample poolAddresses stakedPool (.mature 20)
      { stakedPool with node := stakedPool.node.mature 20 } := rfl
  have hstakes := @stakes_stakeTx (stakedPool.node.mature 20) 21
    (⟨20, 1⟩, ⟨2000000000, [], some 1⟩) 3000000000 1
    (fresh_of_inputs (by decide) (by decide) (by decide) (by decide)) (by decide) (by decide) rfl
    (by decide)
  exact ⟨_, (hrun.snoc hmature).snoc (show PoolMoves .sample poolAddresses _ (.stake _)
    restakedPool from ⟨hstakes, rfl⟩)⟩

def withFirstReward (store : PoolStore PoolChain) : PoolStore PoolChain :=
  { store with
    db := { store.db with rewards := [⟨1, 20, 1000000000, 50000000, 950000000⟩] } }

theorem finishes_stakedPool :
    Finishes (storeAnswers (chainNode .sample poolAddresses) 0 .watch) stakedPool
      (runWatcherPass .sample) (.ok ()) (withFirstReward stakedPool) :=
  .ask ⟨_, _, .listWallets, rfl⟩ (.ask ⟨rfl, rfl⟩ (.ask ⟨_, _, .listWallets, rfl⟩
    (.ask ⟨rfl, rfl⟩ (.ask ⟨_, _, .getTxOut ⟨10, 0⟩, rfl⟩
    (.ask ⟨_, _, .listTransactions (.deposit 1) 50, rfl⟩
    (.ask ⟨rfl, rfl⟩ (.ask ⟨_, _, .getRawTransaction rfl, rfl⟩
    (.ask ⟨rfl, rfl⟩ (.ask ⟨_, _, .getRawTransaction rfl, rfl⟩
    (.ask ⟨_, _, .getRawTransaction rfl, rfl⟩ (.ask ⟨rfl, rfl⟩
    (.ask ⟨_, _, .getTxOut ⟨11, 0⟩, rfl⟩ .done))))))))))))

theorem finishes_restakedPool :
    Finishes (storeAnswers (chainNode .sample poolAddresses) 0 .watch) restakedPool
      (runWatcherPass .sample) (.ok ()) (withFirstReward restakedPool) :=
  .ask ⟨_, _, .listWallets, rfl⟩ (.ask ⟨rfl, rfl⟩ (.ask ⟨_, _, .listWallets, rfl⟩
    (.ask ⟨rfl, rfl⟩ (.ask ⟨_, _, .getTxOut ⟨10, 0⟩, rfl⟩
    (.ask ⟨_, _, .listTransactions (.deposit 1) 50, rfl⟩
    (.ask ⟨rfl, rfl⟩ (.ask ⟨_, _, .getRawTransaction rfl, rfl⟩
    (.ask ⟨rfl, rfl⟩ (.ask ⟨_, _, .getRawTransaction rfl, rfl⟩
    (.ask ⟨_, _, .getRawTransaction rfl, rfl⟩ (.ask ⟨rfl, rfl⟩
    (.ask ⟨rfl, rfl⟩ (.ask ⟨_, _, .getRawTransaction rfl, rfl⟩
    (.ask ⟨_, _, .getTxOut ⟨11, 0⟩, rfl⟩ .done))))))))))))))

/-- The first coinstake is attributed. -/
theorem rewards_attributed_stakedPool :
    Attributed stakedPool.node (withFirstReward stakedPool).db 1 ⟨10, 0⟩ := by
  obtain ⟨moves, hrun⟩ := run_stakedPool
  refine (rewards_attributed_iff .sample poolAddresses emptyPool.node 1
    ⟨List.nodup_nil, nofun, nofun, nofun⟩ moves stakedPool hrun
    ⟨1, 1, 1, some ⟨10, 0⟩, some 1000000000, .active⟩ ⟨10, 0⟩ (by decide) rfl rfl _
    finishes_stakedPool).mpr (.inr ⟨stakeTx 20 ⟨10, 0⟩ 2000000000 1, by decide, .inr (by decide), ?_⟩)
  intro total htotal
  obtain rfl : 1000000000 = total := Option.some.inj htotal
  decide

/-- The second coinstake is lost: the coin has gained twenty coins, and half of it is
recorded. -/
theorem rewards_not_attributed_restakedPool :
    (∃ moves, Run (PoolMoves .sample poolAddresses) emptyPool moves restakedPool) ∧
      Finishes (storeAnswers (chainNode .sample poolAddresses) 0 .watch) restakedPool
        (runWatcherPass .sample) (.ok ()) (withFirstReward restakedPool) ∧
      (stakeChain ⟨10, 0⟩ restakedPool.node.txs).map RawTx.txid = [20, 21] ∧
      ((stakeChain ⟨10, 0⟩ restakedPool.node.txs).map fun tx =>
        tx.valueOut - restakedPool.node.valueIn tx).sum = 2000000000 ∧
      ((withFirstReward restakedPool).db.rewardRows 1).map StakeReward.grossRewardSatoshis =
        [1000000000] ∧
      ¬ Attributed restakedPool.node (withFirstReward restakedPool).db 1 ⟨10, 0⟩ := by
  refine ⟨run_restakedPool, finishes_restakedPool, by decide, by decide, by decide, ?_⟩
  rintro ⟨hperm, _⟩
  exact absurd hperm.length_eq (by decide)

end Attribution

end FirstIslamicCoin.StakingService
