import FirstIslamicCoin.StakingService.Sequential

/-!
# Conservation of a user's balance

Jobs that run one after the other.  What a user was paid and what the service still
shows add up to what was funded and credited as long as every withdrawal takes the
whole balance, and no longer: a withdrawal closes every deposit of the user whatever
amount it was for, and what it left behind is shown to no one.
-/

namespace FirstIslamicCoin.StakingService

open Program

variable {Node : Type} {config : PoolConfig} {model : NodeModel Node}

structure PoolEvent (Node : Type) where
  job : Job
  before : PoolStore Node

/-- One job after the other.  Of the withdrawals only those that succeed are in a run. -/
def Completes (config : PoolConfig) (model : NodeModel Node) (store : PoolStore Node)
    (event : PoolEvent Node) (next : PoolStore Node) : Prop :=
  event.before = store ∧ ∃ outcome,
    Finishes (storeAnswers model 0 event.job) store (event.job.program config) outcome next ∧
      (∀ userId amountSatoshis toAddress,
        event.job = .withdrawal userId amountSatoshis toAddress → outcome = .ok ())

def Conserved (userId : UserId) (store : PoolStore Node) : Prop :=
  totalPaid store.payments userId + store.db.shown userId =
    store.db.funded userId + store.db.credited userId

/-- The node is asked for the whole balance shown, and reads that amount. -/
def TakesAll (config : PoolConfig) (userId : UserId) (event : PoolEvent Node) : Prop :=
  ∀ amountSatoshis toAddress, event.job = .withdrawal userId amountSatoshis toAddress →
    config.toNode amountSatoshis = event.before.db.shown userId

/-- With consistent tables, the balance is conserved if what was taken out was paid. -/
theorem conserved_iff {userId : UserId} {store : PoolStore Node} (hdb : store.db.Consistent) :
    Conserved userId store ↔ totalPaid store.payments userId = store.db.taken userId := by
  rw [Conserved, shown_eq_owed hdb.toSound, funded_add_credited, hdb.early_eq_zero, add_zero]
  constructor
  · intro hsum
    linarith
  · intro hpaid
    rw [hpaid]
    ring

/-- What one job does to the tables and to what a user took and was paid. -/
theorem completes_cases (hpays : NodePays config model) {store next : PoolStore Node}
    {event : PoolEvent Node} (hdb : store.db.Consistent)
    (hcompletes : Completes config model store event next) (userId : UserId) :
    next.db.Consistent ∧
    ((∃ amountSatoshis toAddress, event.job = .withdrawal userId amountSatoshis toAddress ∧
        next.db.taken userId = store.db.taken userId + store.db.shown userId ∧
        totalPaid next.payments userId =
          totalPaid store.payments userId + config.toNode amountSatoshis) ∨
      ((∀ amountSatoshis toAddress,
          event.job ≠ .withdrawal userId amountSatoshis toAddress) ∧
        next.db.taken userId = store.db.taken userId ∧
        totalPaid next.payments userId = totalPaid store.payments userId)) := by
  obtain ⟨_, outcome, hfinishes, hok⟩ := hcompletes
  have hbalanced : Booked (Balanced userId (store.db.taken userId)
      (totalPaid store.payments userId)) store := ⟨hdb, rfl, rfl⟩
  cases hjob : event.job with
  | deposit owner =>
    rw [hjob] at hfinishes
    have hkept := (keeps_bind (keeps_createDeposit hpays owner) (fun _ => keeps_done ())
      store hbalanced).of_finishes hfinishes
    exact ⟨hkept.1, .inr ⟨nofun, hkept.2⟩⟩
  | watch =>
    rw [hjob] at hfinishes
    have hkept := (keeps_runWatcherPass hpays store hbalanced).of_finishes hfinishes
    exact ⟨hkept.1, .inr ⟨nofun, hkept.2⟩⟩
  | withdrawal owner amountSatoshis toAddress =>
    rw [hjob] at hfinishes
    obtain rfl := hok owner amountSatoshis toAddress hjob
    obtain ⟨_, hclosed, hpaid⟩ := ensures_withdrawal_job (ensures_withdraw hpays _ _ _ _) hfinishes
    rw [hclosed]
    refine ⟨hdb.closed owner, ?_⟩
    by_cases howner : owner = userId
    · subst howner
      refine .inl ⟨amountSatoshis, toAddress, rfl, ?_, ?_⟩
      · rw [taken_closed, shown_eq_owed hdb.toSound]
      · rw [hpaid, if_pos rfl]
    · refine .inr ⟨fun _ _ heq => howner (Job.withdrawal.inj heq).1, ?_, ?_⟩
      · exact userSum_closed_of_ne (Ne.symm howner) _
      · rw [hpaid, if_neg (Ne.symm howner), add_zero]

theorem taken_eq_zero {db : GatewayDB} (hopen : ∀ row ∈ db.deposits, row.status ≠ .withdrawn)
    (userId : UserId) : db.taken userId = 0 := by
  have hzero : db.taken userId = db.userSum userId fun _ => 0 := by
    refine userSum_congr fun row hmem => ?_
    rw [GatewayDB.takenBy, if_neg (hopen row (mem_deposits_of_mem_userRows hmem))]
  rw [hzero]
  simp [GatewayDB.userSum]

/-- One job keeps the balance conserved exactly if it takes all it should. -/
theorem conserved_next_iff (hpays : NodePays config model) {store next : PoolStore Node}
    {event : PoolEvent Node} {userId : UserId} (hdb : store.db.Consistent)
    (hcompletes : Completes config model store event next) (hbefore : Conserved userId store) :
    Conserved userId next ↔ TakesAll config userId event := by
  obtain ⟨hnext, hcases⟩ := completes_cases hpays hdb hcompletes userId
  have hpaid := (conserved_iff hdb).mp hbefore
  rw [conserved_iff hnext]
  rcases hcases with ⟨amountSatoshis, toAddress, hjob, htaken, hpayments⟩ |
    ⟨hother, htaken, hpayments⟩
  · rw [htaken, hpayments, hpaid, add_right_inj]
    constructor
    · intro heq amount address hsame
      obtain ⟨_, rfl, _⟩ := Job.withdrawal.inj (hjob.symm.trans hsame)
      rw [hcompletes.1, heq]
    · intro hall
      rw [hall amountSatoshis toAddress hjob, hcompletes.1]
  · rw [htaken, hpayments]
    exact ⟨fun _ amount address hsame => absurd hsame (hother amount address), fun _ => hpaid⟩

theorem balance_conserved_iff (config : PoolConfig) (model : NodeModel Node)
    (hpays : NodePays config model) (db : GatewayDB) (node : Node) (userId : UserId)
    (hdb : db.Consistent) (hopen : ∀ row ∈ db.deposits, row.status ≠ .withdrawn)
    (events : List (PoolEvent Node)) (final : PoolStore Node)
    (hrun : Run (Completes config model) ⟨db, node, []⟩ events final) :
    ((∀ event ∈ events, Conserved userId event.before) ∧ Conserved userId final) ↔
      ∀ event ∈ events, TakesAll config userId event := by
  have hstart : Conserved userId (⟨db, node, []⟩ : PoolStore Node) := by
    rw [conserved_iff hdb, taken_eq_zero hopen]
    rfl
  have hinvariant : final.db.Consistent ∧
      (((∀ event ∈ events, Conserved userId event.before) ∧ Conserved userId final) ↔
        ∀ event ∈ events, TakesAll config userId event) := by
    refine hrun.invariant (fun events store => store.db.Consistent ∧
      (((∀ event ∈ events, Conserved userId event.before) ∧ Conserved userId store) ↔
        ∀ event ∈ events, TakesAll config userId event)) ⟨hdb, ?_⟩ ?_
    · exact ⟨fun _ => nofun, fun _ => ⟨nofun, hstart⟩⟩
    · rintro earlier store event next ⟨hstore, hiff⟩ hstep
      refine ⟨(completes_cases hpays hstore hstep userId).1, ?_⟩
      have hbefore : event.before = store := hstep.1
      simp only [List.forall_mem_append, List.forall_mem_singleton, hbefore]
      constructor
      · rintro ⟨⟨hearlier, hconserved⟩, hnext⟩
        exact ⟨hiff.mp ⟨hearlier, hconserved⟩,
          (conserved_next_iff hpays hstore hstep hconserved).mp hnext⟩
      · rintro ⟨hearlier, hlast⟩
        obtain ⟨hall, hconserved⟩ := hiff.mpr hearlier
        exact ⟨⟨hall, hconserved⟩,
          (conserved_next_iff hpays hstore hstep hconserved).mpr hlast⟩
  exact hinvariant.2

section Sample

/-- A withdrawal by user 1 as the only event. -/
theorem completes_tenCoins {amountSatoshis : ℤ} (hpositive : 0 < amountSatoshis)
    (hle : amountSatoshis ≤ 1000000000) :
    Run (Completes .sample (promptNode .sample)) ⟨tenCoins, (), []⟩
      [⟨.withdrawal 1 amountSatoshis 7, ⟨tenCoins, (), []⟩⟩]
      ⟨tenCoins.updated (.closed 1), (), [⟨0, 1, amountSatoshis, true⟩]⟩ := by
  have hfinishes := @finishes_withdrawal .sample ⟨tenCoins, (), []⟩ 1 amountSatoshis 7 0
    (by decide) hle hpositive
  exact Run.nil.snoc ⟨rfl, .ok (), hfinishes, fun _ _ _ _ => rfl⟩

/-- All ten coins are withdrawn. -/
theorem balance_conserved_all :
    Conserved 1 (⟨tenCoins.updated (.closed 1), (), [⟨0, 1, 1000000000, true⟩]⟩ : PoolStore Unit) := by
  have hall : ∀ event ∈ [(⟨.withdrawal 1 1000000000 7, ⟨tenCoins, (), []⟩⟩ : PoolEvent Unit)],
      TakesAll .sample 1 event := by
    intro event hmem amountSatoshis toAddress hjob
    obtain rfl := List.mem_singleton.mp hmem
    obtain ⟨_, rfl, _⟩ := Job.withdrawal.inj hjob
    decide
  exact ((balance_conserved_iff .sample (promptNode .sample) (nodePays_promptNode _) tenCoins () 1
    consistent_tenCoins (by decide) _ _ (completes_tenCoins (by decide) (by decide))).mpr hall).2

/-- Four of the ten coins are withdrawn.  The service closes the deposit, and the other
six are neither paid nor shown. -/
theorem balance_not_conserved_part :
    Run (Completes .sample (promptNode .sample)) ⟨tenCoins, (), []⟩
        [⟨.withdrawal 1 400000000 7, ⟨tenCoins, (), []⟩⟩]
        ⟨tenCoins.updated (.closed 1), (), [⟨0, 1, 400000000, true⟩]⟩ ∧
      (tenCoins.updated (.closed 1)).shown 1 = 0 ∧
      (tenCoins.updated (.closed 1)).funded 1 = 1000000000 ∧
      ¬ Conserved 1 (⟨tenCoins.updated (.closed 1), (), [⟨0, 1, 400000000, true⟩]⟩ :
        PoolStore Unit) := by
  refine ⟨completes_tenCoins (by decide) (by decide), by decide, by decide, ?_⟩
  rw [Conserved]
  decide

end Sample

end FirstIslamicCoin.StakingService
