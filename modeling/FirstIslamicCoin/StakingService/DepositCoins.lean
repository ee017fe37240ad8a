import FirstIslamicCoin.StakingService.Solvency
import FirstIslamicCoin.StakingService.Tracing

/-!
# The coins of the deposits

A deposit is meant to keep one output of its own that only coinstakes spend.  Nothing
reserves it: a withdrawal is paid by the wallet with any mature coins it finds.  The
deposits of the other users are left alone for certain exactly when the wallet can spend no
coin at the address of one of them, or cannot pay at all.
-/

namespace FirstIslamicCoin.StakingService

open Program

section Alone

variable {config : PoolConfig} {owned : Address → Bool} {chain : PoolChain} {db : GatewayDB}

/-- The funding output of every active deposit is unspent, or was spent by a coinstake. -/
def LeftAlone (owned : Address → Bool) (chain : PoolChain) (db : GatewayDB) : Prop :=
  ∀ row ∈ db.deposits, row.status = .active → ∃ funding, row.funding = some funding ∧
    ((∃ out, (funding, out) ∈ chain.coins owned) ∨
      ∃ tx ∈ chain.txs, tx.isCoinstake = true ∧ tx.spends funding = true)

/-- The coins at the addresses of the active deposits of other users are still there. -/
def Spared (owned : Address → Bool) (userId : UserId) (store next : PoolStore PoolChain) : Prop :=
  ∀ row ∈ store.db.deposits, row.status = .active → row.userId ≠ userId →
    ∀ output ∈ store.node.coins owned, output.2.address = some row.depositAddress →
      output ∈ next.node.coins owned

/-- The wallet can spend no coin at the address of an active deposit of another user. -/
def NoForeignCoin (owned : Address → Bool) (userId : UserId) (store : PoolStore PoolChain) :
    Prop :=
  ∀ row ∈ store.db.deposits, row.status = .active → row.userId ≠ userId →
    ∀ output ∈ store.node.spendable owned, output.2.address ≠ some row.depositAddress

variable {tx : RawTx}

theorem mem_coins_append {flows : Flows} (hfresh : chain.Fresh tx) {output : OutPoint × Vout}
    (hmem : output ∈ chain.coins owned) (hnot : tx.spends output.1 = false) :
    output ∈ (chain.append tx flows).coins owned := by
  rw [coins_append hfresh]
  exact List.mem_append_left _ (List.mem_filter.mpr ⟨hmem, by rw [hnot]; rfl⟩)

section

variable (halone : LeftAlone owned chain db)

include halone

/-- A transaction that spends coins of the wallet only as a coinstake. -/
theorem LeftAlone.append {flows : Flows} (hfresh : chain.Fresh tx)
    (hcoinstake : ∀ output ∈ chain.coins owned, tx.spends output.1 = true → tx.isCoinstake = true) :
    LeftAlone owned (chain.append tx flows) db := by
  intro row hrow hactive
  obtain ⟨funding, hfunding, ⟨out, hcoin⟩ | ⟨spender, hspender, hstake, hspends⟩⟩ :=
    halone row hrow hactive
  · refine ⟨funding, hfunding, ?_⟩
    cases hspends : tx.spends funding with
    | false => exact .inl ⟨out, mem_coins_append hfresh hcoin hspends⟩
    | true =>
      exact .inr ⟨tx, List.mem_append_right _ (List.mem_singleton_self tx),
        hcoinstake _ hcoin hspends, hspends⟩
  · exact ⟨funding, hfunding, .inr ⟨spender, List.mem_append_left _ hspender, hstake, hspends⟩⟩

theorem LeftAlone.receive (hreceives : Receives owned chain tx) :
    LeftAlone owned (chain.receive owned tx) db := by
  refine halone.append hreceives.fresh fun output hcoin hspends => ?_
  obtain ⟨hunspent, hmine⟩ := List.mem_filter.mp hcoin
  rw [hreceives.others output (List.mem_filter.mp hunspent).1 hmine] at hspends
  exact absurd hspends Bool.false_ne_true

theorem LeftAlone.stake (hstakes : Stakes owned chain tx) :
    LeftAlone owned (chain.stake owned tx) db :=
  halone.append hstakes.fresh fun _ _ _ => hstakes.coinstake

theorem LeftAlone.activated {dep : StakeDeposit} {u : Unspent}
    (hlisted : ListedFor owned chain dep u) (amountSatoshis : ℤ) :
    LeftAlone owned chain (db.updated (.activated dep.id u.outpoint amountSatoshis)) := by
  intro row hrow hactive
  obtain ⟨before, hbefore, rfl⟩ := List.mem_map.mp hrow
  rw [StakeDeposit.activated] at hactive ⊢
  split_ifs at hactive ⊢ with hid
  · obtain ⟨hex, hcoin⟩ := hlisted
    exact ⟨u.outpoint, rfl, .inl ⟨_, mem_coins_of_mem_spendable hcoin⟩⟩
  · exact halone before hbefore hactive

end

/-- A withdrawal that found no coin of another user spends none. -/
theorem Pays.not_spends {store : PoolStore PoolChain} {userId : UserId} {amountSatoshis : ℤ}
    {toAddress : Address} (hvalid : store.node.Valid owned)
    (hnone : NoForeignCoin owned userId store)
    (hpays : Pays config owned store.node toAddress amountSatoshis tx) {row : StakeDeposit}
    (hrow : row ∈ store.db.deposits) (hactive : row.status = .active)
    (hother : row.userId ≠ userId) {output : OutPoint × Vout}
    (hcoin : output ∈ store.node.coins owned)
    (haddress : output.2.address = some row.depositAddress) : tx.spends output.1 = false := by
  by_contra hspends
  obtain ⟨spent, hspent, heq⟩ := hpays.coins output.1 (Bool.eq_true_of_not_eq_false hspends)
  obtain rfl := hvalid.eq_of_outpoint_eq
    (mem_outputs_of_mem_coins (mem_coins_of_mem_spendable hspent))
    (mem_outputs_of_mem_coins hcoin) heq
  exact hnone row hrow hactive hother spent hspent haddress

theorem LeftAlone.withdrawn {userId : UserId} {amountSatoshis : ℤ} {toAddress : Address}
    {store : PoolStore PoolChain} (halone : LeftAlone owned store.node store.db)
    (htraced : TracedStore config owned store) (hnone : NoForeignCoin owned userId store)
    (hpays : Pays config owned store.node toAddress amountSatoshis tx) :
    LeftAlone owned (store.withdrawn config owned userId amountSatoshis toAddress tx).node
      (store.withdrawn config owned userId amountSatoshis toAddress tx).db := by
  intro row hrow hactive
  obtain ⟨before, hbefore, rfl⟩ := List.mem_map.mp hrow
  rw [StakeDeposit.closed] at hactive ⊢
  split_ifs at hactive ⊢ with hclosed
  have hother : before.userId ≠ userId := fun heq => hclosed ⟨heq, hactive⟩
  obtain ⟨funding, hfunding, ⟨out, hcoin⟩ | ⟨spender, hspender, hstake⟩⟩ :=
    halone before hbefore hactive
  · -- the funding output is a coin at the address of the deposit
    obtain ⟨recorded, paid, hrecorded, hpaid, _, haddress⟩ :=
      htraced.funded before hbefore (by rw [hactive]; decide)
    obtain rfl := Option.some.inj (hfunding.symm.trans hrecorded)
    obtain rfl : out = paid := (Prod.mk.inj
      (htraced.valid.eq_of_outpoint_eq (mem_outputs_of_mem_coins hcoin) hpaid rfl)).2
    have hkept := hpays.not_spends htraced.valid hnone hbefore hactive hother hcoin haddress
    exact ⟨funding, hfunding, .inl ⟨out, mem_coins_append hpays.fresh hcoin hkept⟩⟩
  · exact ⟨funding, hfunding, .inr ⟨spender, List.mem_append_left _ hspender, hstake⟩⟩

/-- The watcher records unspent outputs only. -/
theorem keeps_leftAlone_watching {position : ℕ} {job : Job} (chain : PoolChain) :
    Keeps (storeAnswers (chainNode config owned) position job)
      (Static chain fun db => db.Sound ∧ LeftAlone owned chain db) (runWatcherPass config) := by
  refine keeps_bind (keeps_marking (fun _ hdb => hdb.1) ?_) fun _ =>
    keeps_attributingRewards fun deposits => ?_
  · rintro db dep u ⟨hsound, halone⟩ _ _ hlisted
    exact ⟨(keepsRow_activated _ _ _).sound_updated hsound, halone.activated hlisted _⟩
  · rintro db row txid tx total ⟨rfl, hsound, halone⟩ _ _
    rw [GatewayDB.execute]
    split_ifs
    · exact ⟨rfl, hsound, halone⟩
    · exact ⟨rfl, ⟨hsound.nodup, hsound.lt_nextId⟩, halone⟩

theorem keeps_leftAlone_opening {position : ℕ} {job : Job} (userId : UserId) :
    Keeps (storeAnswers (chainNode config owned) position job)
      (fun store => LeftAlone owned store.node store.db) (createDeposit config userId) := by
  refine keeps_openedDeposit userId (fun _ _ _ halone => halone) ?_
  intro chain db address _ _ _ halone row hrow hactive
  rcases List.mem_append.mp hrow with hbefore | hlast
  · exact halone row hbefore hactive
  · rw [List.mem_singleton.mp hlast] at hactive
    exact absurd hactive nofun

end Alone

section Payments

variable {config : PoolConfig} {owned : Address → Bool} {chain : PoolChain} {tx : RawTx}

/-- The same payment with one more coin, and other change. -/
def RawTx.alsoSpending (tx : RawTx) (outpoint : OutPoint) (vout : List Vout) : RawTx where
  txid := tx.txid
  vin := tx.vin ++ [some outpoint]
  vout := vout

theorem spends_alsoSpending (tx : RawTx) (added : OutPoint) (vout : List Vout)
    (outpoint : OutPoint) :
    (tx.alsoSpending added vout).spends outpoint = (tx.spends outpoint || added = outpoint) := by
  simp [RawTx.spends, RawTx.alsoSpending]

variable {output : OutPoint × Vout} {vout : List Vout} {amountSatoshis : ℤ}

theorem debit_alsoSpending (hvalid : chain.Valid owned) (hcoin : output ∈ chain.coins owned)
    (hnot : tx.spends output.1 = false) :
    chain.debit owned (tx.alsoSpending output.1 vout) = chain.debit owned tx + output.2.value := by
  have hmine : output ∈ chain.outputs.filter fun output => output.2.isMine owned :=
    List.mem_filter.mpr ⟨mem_outputs_of_mem_coins hcoin, (List.mem_filter.mp hcoin).2⟩
  have hnodup : ((chain.outputs.filter fun output => output.2.isMine owned).map Prod.fst).Nodup :=
    hvalid.nodup_outpoints.sublist (List.filter_sublist.map _)
  rw [PoolChain.debit, PoolChain.debit, PoolChain.spentBy, PoolChain.spentBy]
  generalize chain.outputs.filter (fun output => output.2.isMine owned) = outputs at hmine hnodup ⊢
  rw [totalValue, totalValue, sum_map_filter, sum_map_filter]
  induction outputs with
  | nil => exact absurd hmine List.not_mem_nil
  | cons first rest ih =>
    obtain ⟨hfirst, hrest⟩ := List.nodup_cons.mp hnodup
    rw [List.map_cons, List.sum_cons, List.map_cons, List.sum_cons, spends_alsoSpending]
    rcases List.mem_cons.mp hmine with rfl | hlater
    · -- no later output has this outpoint
      have hothers : rest.map (fun other => if (tx.alsoSpending output.1 vout).spends other.1 = true
          then other.2.value else 0) =
          rest.map fun other => if tx.spends other.1 = true then other.2.value else 0 := by
        refine List.map_congr_left fun other hother => ?_
        have hne : output.1 ≠ other.1 := fun heq =>
          hfirst (heq ▸ List.mem_map_of_mem hother)
        rw [spends_alsoSpending]
        simp [hne]
      rw [hothers, hnot, decide_eq_true rfl, Bool.false_or, if_pos rfl, if_neg Bool.false_ne_true]
      ring
    · have hne : output.1 ≠ first.1 := fun heq =>
        hfirst (heq ▸ List.mem_map_of_mem hlater)
      rw [ih hlater hrest]
      simp only [hne, decide_false, Bool.or_false]
      ring

theorem txid_ne_of_mem_outputs (hfresh : chain.Fresh tx) (hmem : output ∈ chain.outputs) :
    output.1.txid ≠ tx.txid := by
  obtain ⟨other, hother, houtput⟩ := List.mem_flatMap.mp hmem
  rw [txid_of_mem_outputs houtput]
  exact hfresh.txid_ne other hother

theorem fresh_alsoSpending (hfresh : chain.Fresh tx) (hcoin : output ∈ chain.coins owned)
    (hnonneg : ∀ out ∈ vout, 0 ≤ out.value) : chain.Fresh (tx.alsoSpending output.1 vout) where
  txid_ne := hfresh.txid_ne
  notYet := by
    intro other hother outpoint hspends
    rcases List.mem_append.mp hother with hbefore | hlast
    · exact hfresh.notYet other (List.mem_append_left _ hbefore) outpoint hspends
    · rw [List.mem_singleton.mp hlast, spends_alsoSpending, Bool.or_eq_true] at hspends
      rcases hspends with hspends | heq
      · exact hfresh.notYet tx (List.mem_append_right _ (List.mem_singleton_self tx)) outpoint
          hspends
      · have hne := txid_ne_of_mem_outputs hfresh (mem_outputs_of_mem_coins hcoin)
        rwa [of_decide_eq_true heq] at hne
  unspent := by
    intro outpoint hspends
    rw [spends_alsoSpending, Bool.or_eq_true] at hspends
    rcases hspends with hspends | heq
    · exact hfresh.unspent outpoint hspends
    · rw [← of_decide_eq_true heq]
      exact isSpent_of_mem_coins hcoin
  nonneg := hnonneg

section

variable {address : Address} (hpays : Pays config owned chain address amountSatoshis tx)

include hpays

/-- Any coin the wallet can spend may be spent along with a payment; it comes back with
the change. -/
theorem Pays.alsoSpending (hvalid : chain.Valid owned) (hcoin : output ∈ chain.spendable owned)
    (hnot : tx.spends output.1 = false) :
    ∃ vout, Pays config owned chain address amountSatoshis (tx.alsoSpending output.1 vout) := by
  have hheld := mem_coins_of_mem_spendable hcoin
  have hvalue := hvalid.nonneg output (mem_outputs_of_mem_coins hheld)
  obtain ⟨hex, before, change, hvout, hmine, hlength⟩ := hpays.outputs
  have hnonneg : ∀ out ∈ before ++ change, 0 ≤ out.value := by
    intro out hout
    refine hpays.fresh.nonneg out (hvout ▸ List.mem_append.mpr ?_)
    exact (List.mem_append.mp hout).imp_right (List.mem_cons_of_mem _)
  have hsum : tx.valueOut =
      config.toNode amountSatoshis + ((before ++ change).map Vout.value).sum := by
    rw [RawTx.valueOut, hvout, List.map_append, List.map_append, List.sum_append, List.sum_append,
      List.map_cons, List.sum_cons]
    ring
  obtain ⟨more, hmore, hmoreMine, hmoreNonneg⟩ : ∃ more : Vout,
      more.value = ((before ++ change).map Vout.value).sum + output.2.value ∧
        more.isMine owned = true ∧ 0 ≤ more.value := by
    cases hothers : before ++ change with
    | nil => exact ⟨output.2, (zero_add _).symm, (List.mem_filter.mp hheld).2, hvalue⟩
    | cons first rest =>
      rw [hothers] at hmine hlength hnonneg
      obtain rfl : rest = [] := by simpa using hlength
      have hfirst := hnonneg first List.mem_cons_self
      exact ⟨{ first with value := first.value + output.2.value }, by simp,
        hmine first List.mem_cons_self, add_nonneg hfirst hvalue⟩
  have hpositive := hpays.positive
  refine ⟨[⟨config.toNode amountSatoshis, hex, some address⟩, more],
    fresh_alsoSpending hpays.fresh hheld ?_, ?_, ?_, hpositive,
    ⟨hex, [], [more], rfl, by simpa using hmoreMine, le_rfl⟩, ?_⟩
  · intro out hout
    rcases List.mem_cons.mp hout with rfl | hlast
    · exact hpositive.le
    · rw [List.mem_singleton.mp hlast]
      exact hmoreNonneg
  · -- the first output is the payment, which is positive
    rw [RawTx.isCoinstake]
    split
    · rename_i first _ _ hfirst
      rw [← (List.cons.inj hfirst).1]
      simp [hpositive.ne']
    · rfl
  · intro outpoint hspends
    rw [spends_alsoSpending, Bool.or_eq_true] at hspends
    rcases hspends with hspends | heq
    · exact hpays.coins outpoint hspends
    · exact ⟨output, hcoin, of_decide_eq_true heq⟩
  · have hfee := hpays.fee
    have hmoreOut : (tx.alsoSpending output.1
        [⟨config.toNode amountSatoshis, hex, some address⟩, more]).valueOut =
          config.toNode amountSatoshis + (more.value + 0) := rfl
    rw [debit_alsoSpending hvalid hheld hnot, hmoreOut, hmore]
    linarith

end

end Payments

section Runs

variable {config : PoolConfig} {owned : Address → Bool}

/-- A move in which a withdrawal finds no coin of the others. -/
def SafeMoves (config : PoolConfig) (owned : Address → Bool) (store : PoolStore PoolChain)
    (move : PoolMove) (next : PoolStore PoolChain) : Prop :=
  PoolMoves config owned store move next ∧
    ∀ event userId amountSatoshis toAddress, move = .job event →
      event.job = .withdrawal userId amountSatoshis toAddress → NoForeignCoin owned userId store

theorem LeftAlone.step {store next : PoolStore PoolChain} {move : PoolMove}
    (htraced : TracedStore config owned store) (halone : LeftAlone owned store.node store.db)
    (hmove : SafeMoves config owned store move next) : LeftAlone owned next.node next.db := by
  obtain ⟨hmoves, hsafe⟩ := hmove
  cases move with
  | receive tx =>
    obtain ⟨hreceives, rfl⟩ := hmoves
    exact halone.receive hreceives
  | stake tx =>
    obtain ⟨hstakes, rfl⟩ := hmoves
    exact halone.stake hstakes
  | mature txid =>
    obtain rfl := hmoves
    exact halone
  | job event =>
    obtain ⟨job, before⟩ := event
    obtain rfl : before = store := hmoves.1
    cases job with
    | deposit userId =>
      obtain ⟨_, outcome, hfinishes, _⟩ := hmoves
      exact (keeps_bind (keeps_leftAlone_opening userId) (fun _ => keeps_done ()) before
        halone).of_finishes hfinishes
    | watch =>
      obtain ⟨_, outcome, hfinishes, _⟩ := hmoves
      obtain ⟨hnode, _, hdb⟩ := (keeps_leftAlone_watching before.node before
        ⟨rfl, htraced.sound, halone⟩).of_finishes hfinishes
      rw [hnode]
      exact hdb
    | withdrawal userId amountSatoshis toAddress =>
      obtain ⟨_, tx, hpays, rfl⟩ := completes_withdrawal_iff.mp hmoves
      exact halone.withdrawn htraced (hsafe _ userId amountSatoshis toAddress rfl rfl) hpays

/-- A coin of another user can be taken by any withdrawal that can be paid at all. -/
theorem exists_not_spared {store next : PoolStore PoolChain} {userId : UserId}
    {amountSatoshis : ℤ} {toAddress : Address} (htraced : TracedStore config owned store)
    (hforeign : ¬ NoForeignCoin owned userId store)
    (hcompletes : Completes config (chainNode config owned) store
      ⟨.withdrawal userId amountSatoshis toAddress, store⟩ next) :
    ∃ other, Completes config (chainNode config owned) store
      ⟨.withdrawal userId amountSatoshis toAddress, store⟩ other ∧
        ¬ Spared owned userId store other := by
  obtain ⟨hle, tx, hpays, rfl⟩ := completes_withdrawal_iff.mp hcompletes
  rw [NoForeignCoin] at hforeign
  push Not at hforeign
  obtain ⟨row, hrow, hactive, hother, output, hcoin, haddress⟩ := hforeign
  have hgone : ∀ spender, Pays config owned store.node toAddress amountSatoshis spender →
      spender.spends output.1 = true → ¬ Spared owned userId store
        (store.withdrawn config owned userId amountSatoshis toAddress spender) := by
    intro spender hspender hspends hspared
    have hkept := hspared row hrow hactive hother output (mem_coins_of_mem_spendable hcoin) haddress
    have hunspent := (List.mem_filter.mp (List.mem_filter.mp hkept).1).2
    rw [PoolStore.withdrawn, isSpent_append, hspends, Bool.or_true] at hunspent
    exact absurd hunspent Bool.false_ne_true
  cases hspends : tx.spends output.1 with
  | true => exact ⟨_, hcompletes, hgone tx hpays hspends⟩
  | false =>
    obtain ⟨vout, halso⟩ := hpays.alsoSpending htraced.valid hcoin hspends
    refine ⟨_, completes_withdrawal_iff.mpr ⟨hle, _, halso, rfl⟩, hgone _ halso ?_⟩
    rw [spends_alsoSpending, decide_eq_true rfl, Bool.or_true]

theorem deposits_left_alone_iff (config : PoolConfig) (owned : Address → Bool)
    (chain : PoolChain) (nextId : DepositId) (hvalid : chain.Valid owned)
    (moves : List PoolMove) (store : PoolStore PoolChain)
    (hrun : Run (SafeMoves config owned) ⟨⟨[], [], nextId⟩, chain, []⟩ moves store)
    (userId : UserId) (amountSatoshis : ℤ) (toAddress : Address) :
    LeftAlone owned store.node store.db ∧
      ((∀ next, Completes config (chainNode config owned) store
          ⟨.withdrawal userId amountSatoshis toAddress, store⟩ next →
            LeftAlone owned next.node next.db ∧ Spared owned userId store next) ↔
        NoForeignCoin owned userId store ∨
          ∀ next, ¬ Completes config (chainNode config owned) store
            ⟨.withdrawal userId amountSatoshis toAddress, store⟩ next) := by
  have hinvariant : TracedStore config owned store ∧ LeftAlone owned store.node store.db := by
    refine hrun.invariant (fun _ current => TracedStore config owned current ∧
      LeftAlone owned current.node current.db) ⟨tracedStore_empty config owned hvalid nextId [],
        nofun⟩ ?_
    rintro _ current move next ⟨htraced, halone⟩ hmove
    exact ⟨htraced.step hmove.1, halone.step htraced hmove⟩
  obtain ⟨htraced, halone⟩ := hinvariant
  refine ⟨halone, ?_, ?_⟩
  · intro hall
    by_cases hforeign : NoForeignCoin owned userId store
    · exact .inl hforeign
    · refine .inr fun next hcompletes => ?_
      obtain ⟨other, hother, hnot⟩ := exists_not_spared htraced hforeign hcompletes
      exact hnot (hall other hother).2
  · rintro (hnone | himpossible) next hcompletes
    · obtain ⟨_, tx, hpays, rfl⟩ := completes_withdrawal_iff.mp hcompletes
      refine ⟨halone.withdrawn htraced hnone hpays, ?_⟩
      intro row hrow hactive hother output hcoin haddress
      exact mem_coins_append hpays.fresh hcoin
        (hpays.not_spends htraced.valid hnone hrow hactive hother hcoin haddress)
    · exact absurd hcompletes (himpossible next)

end Runs

section Sample

theorem safeMoves_of_isDeposit {store next : PoolStore PoolChain} {move : PoolMove}
    (hmoves : PoolMoves .sample poolAddresses store move next) (hdeposit : move.isDeposit = true) :
    SafeMoves .sample poolAddresses store move next := by
  refine ⟨hmoves, ?_⟩
  rintro ⟨job, before⟩ userId amountSatoshis toAddress rfl hjob
  obtain rfl : job = _ := hjob
  exact absurd hdeposit Bool.false_ne_true

/-- A coin stakes, and comes back to its address. -/
def stakeTx (txid : TxId) (source : OutPoint) (value : ℤ) (address : Address) : RawTx :=
  ⟨txid, [some source], [⟨0, [], none⟩, ⟨value, [], some address⟩]⟩

theorem stakes_stakeTx {chain : PoolChain} {txid : TxId} {output : OutPoint × Vout} {value : ℤ}
    {address : Address} (hfresh : chain.Fresh (stakeTx txid output.1 value address))
    (hcoin : output ∈ chain.spendable poolAddresses)
    (hone : ∀ other ∈ chain.coins poolAddresses, other.1 = output.1 →
      other.2.address = output.2.address)
    (howned : poolAddresses address = true) (hgain : value =
      chain.debit poolAddresses (stakeTx txid output.1 value address) + fixedStakeReward) :
    Stakes poolAddresses chain (stakeTx txid output.1 value address) where
  fresh := hfresh
  coinstake := rfl
  coins := by
    intro outpoint hspends
    have hinput : some outpoint ∈ [some output.1] := spends_iff.mp hspends
    exact ⟨output, hcoin, (Option.some.inj (List.mem_singleton.mp hinput)).symm⟩
  oneAddress := by
    have hsource : ∀ other : OutPoint × Vout,
        (stakeTx txid output.1 value address).spends other.1 = true → other.1 = output.1 := by
      intro other hspends
      have hinput : some other.1 ∈ [some output.1] := spends_iff.mp hspends
      exact Option.some.inj (List.mem_singleton.mp hinput)
    intro first hfirst second hsecond hspends hspendsToo
    rw [hone first hfirst (hsource first hspends), hone second hsecond (hsource second hspendsToo)]
  outputs := by
    intro out hout
    rcases List.mem_cons.mp hout with rfl | hlast
    · exact .inr rfl
    · rw [List.mem_singleton.mp hlast]
      exact .inl howned
  gain := by
    refine ⟨0, le_rfl, ?_⟩
    rw [add_zero, ← hgain, RawTx.valueOut]
    simp [stakeTx]

def stakingPool : PoolStore PoolChain :=
  { fundedPool with
    node := fundedPool.node.stake poolAddresses (stakeTx 20 ⟨11, 0⟩ 2000000000 2) }

def nineCoinsTx : RawTx :=
  ⟨21, [some ⟨10, 0⟩], [⟨900000000, [], some 200⟩, ⟨99990000, [], some 3⟩]⟩

def sparedPool : PoolStore PoolChain :=
  stakingPool.withdrawn .sample poolAddresses 1 900000000 200 nineCoinsTx

theorem noForeignCoin_stakingPool : NoForeignCoin poolAddresses 1 stakingPool := by
  unfold NoForeignCoin
  decide

theorem run_sparedPool :
    ∃ moves, Run (SafeMoves .sample poolAddresses) emptyPool moves sparedPool := by
  obtain ⟨moves, hrun⟩ := run_fundedPool fun _ _ _ hmoves => safeMoves_of_isDeposit hmoves.full.1
  have hstakes : PoolMoves .sample poolAddresses fundedPool
      (.stake (stakeTx 20 ⟨11, 0⟩ 2000000000 2)) stakingPool :=
    ⟨@stakes_stakeTx fundedPool.node 20 (⟨11, 0⟩, ⟨1000000000, [], some 2⟩) _ _ (fresh_of_inputs (by decide)
      (by decide) (by decide) (by decide)) (by decide) (by decide) rfl (by decide), rfl⟩
  have hpays : Pays .sample poolAddresses stakingPool.node 200 900000000 nineCoinsTx := by
    refine ⟨fresh_of_inputs (by decide) (by decide) (by decide) (by decide), rfl, ?_, by decide,
      ⟨[], [], [⟨99990000, [], some 3⟩], rfl, by decide, le_rfl⟩, by decide⟩
    intro outpoint hspends
    have hinput : some outpoint ∈ [some ⟨10, 0⟩] := spends_iff.mp hspends
    exact ⟨(⟨10, 0⟩, ⟨1000000000, [], some 1⟩), by decide,
      (Option.some.inj (List.mem_singleton.mp hinput)).symm⟩
  have hcompletes : Completes .sample (chainNode .sample poolAddresses) stakingPool
      ⟨.withdrawal 1 900000000 200, stakingPool⟩ sparedPool :=
    completes_withdrawal_iff.mpr ⟨by decide, nineCoinsTx, hpays, rfl⟩
  refine ⟨_, (hrun.snoc (safeMoves_of_isDeposit hstakes rfl)).snoc
    (show SafeMoves .sample poolAddresses stakingPool
      (.job ⟨.withdrawal 1 900000000 200, stakingPool⟩) sparedPool from ⟨hcompletes, ?_⟩)⟩
  intro event userId amountSatoshis toAddress hevent hjob
  obtain rfl := PoolMove.job.inj hevent
  obtain ⟨rfl, _, _⟩ := Job.withdrawal.inj hjob
  exact noForeignCoin_stakingPool

/-- The withdrawal leaves the deposit of the second user alone, and so do the withdrawals of
the second user. -/
theorem deposits_left_alone_sparedPool :
    LeftAlone poolAddresses sparedPool.node sparedPool.db ∧
      ∀ next, Completes .sample (chainNode .sample poolAddresses) sparedPool
        ⟨.withdrawal 2 50000000 200, sparedPool⟩ next →
          LeftAlone poolAddresses next.node next.db ∧
            Spared poolAddresses 2 sparedPool next := by
  obtain ⟨moves, hrun⟩ := run_sparedPool
  obtain ⟨halone, hiff⟩ := deposits_left_alone_iff .sample poolAddresses emptyPool.node 1
    ⟨List.nodup_nil, nofun, nofun, nofun⟩ moves sparedPool hrun 2 50000000 200
  refine ⟨halone, hiff.mpr (.inl ?_)⟩
  unfold NoForeignCoin
  decide

/-- The first user withdraws, and the payment takes the coin of the second user's deposit,
which stays active. -/
theorem not_left_alone_drainedPool :
    (∃ moves, Run (PoolMoves .sample poolAddresses) emptyPool moves drainedPool) ∧
      ¬ LeftAlone poolAddresses drainedPool.node drainedPool.db := by
  obtain ⟨moves, hrun⟩ := run_fundedPool fun _ _ _ hmoves _ => hmoves.full.1
  have hmoves : PoolMoves .sample poolAddresses fundedPool
      (.job ⟨.withdrawal 1 1000000000 200, fundedPool⟩) drainedPool := completes_drainedPool
  refine ⟨⟨_, hrun.snoc hmoves⟩, fun halone => ?_⟩
  obtain ⟨funding, hfunding, ⟨out, hcoin⟩ | ⟨tx, htx, hcoinstake, _⟩⟩ := halone
    ⟨2, 2, 2, some ⟨11, 0⟩, some 1000000000, .active⟩ (by decide) rfl
  · obtain rfl := Option.some.inj hfunding
    have hunspent : (!drainedPool.node.isSpent ⟨11, 0⟩) = true :=
      (List.mem_filter.mp (List.mem_filter.mp hcoin).1).2
    exact absurd hunspent (by decide)
  · have hnone : ∀ tx ∈ drainedPool.node.txs, tx.isCoinstake = false := by decide
    rw [hnone tx htx] at hcoinstake
    exact absurd hcoinstake Bool.false_ne_true

end Sample

end FirstIslamicCoin.StakingService
