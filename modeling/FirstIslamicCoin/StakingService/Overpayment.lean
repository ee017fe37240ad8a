import FirstIslamicCoin.Core.RelyGuarantee
import FirstIslamicCoin.StakingService.Disciplines

/-!
# Withdrawals that run at once

The balance is read, the payment is sent and the deposits are closed in separate
statements, with nothing that would keep two requests of one user apart, and a reply of
the node may be lost after the payment.  A user can then be paid twice.  The pool never
overpays in those interleavings in which a withdrawal begins only when no other one of
the same user is under way and every payment to the user is settled, and in which a
deposit is marked as funded only while it waits for funds.
-/

namespace FirstIslamicCoin.StakingService

open Program

section Cover

/-- What was paid to a user by withdrawals that have not closed the deposits. -/
def unsettled (payments : List Payment) (userId : UserId) : ℤ :=
  totalPaid (payments.filter fun payment => !payment.settled) userId

def AllSettled (payments : List Payment) (userId : UserId) : Prop :=
  ∀ payment ∈ payments, payment.userId = userId → payment.settled = true

/-- The books of a user: nothing recorded is negative, what was paid was taken out or is
unsettled, and what is unsettled is still shown. -/
structure Covered (userId : UserId) (db : GatewayDB) (payments : List Payment) : Prop
    extends db.Sound where
  amounts : ∀ row ∈ db.deposits, 0 ≤ row.amount
  nets : ∀ reward ∈ db.rewards, 0 ≤ reward.netRewardSatoshis
  paid : totalPaid payments userId ≤ db.taken userId + unsettled payments userId
  due : unsettled payments userId ≤ db.owed userId

/-- What holds of the store while the withdrawal at a position is at a stage. -/
def StageHolds (userId : UserId) (position : ℕ) (db : GatewayDB) (payments : List Payment) :
    Stage → Prop
  | .idle => True
  | .read rows => AllSettled payments userId ∧ (rows.map StakeDeposit.id).Nodup ∧
      ∀ row ∈ activeRows rows, row ∈ db.userRows userId
  | .ready available => AllSettled payments userId ∧ available ≤ db.owed userId
  | .owing => ∀ payment ∈ payments, payment.userId = userId → payment.settled = false →
      payment.position = position
  | .finished => True

variable {userId : UserId} {db next : GatewayDB} {payments later : List Payment} {position : ℕ}

theorem rewardsOf_nonneg (hnets : ∀ reward ∈ db.rewards, 0 ≤ reward.netRewardSatoshis)
    (id : DepositId) : 0 ≤ db.rewardsOf id := by
  refine List.sum_nonneg fun net hnet => ?_
  obtain ⟨reward, hreward, rfl⟩ := List.mem_map.mp hnet
  exact hnets reward (List.mem_filter.mp hreward).1

theorem Covered.owedBy_nonneg (hcovered : Covered userId db payments) {row : StakeDeposit}
    (hrow : row ∈ db.deposits) : 0 ≤ db.owedBy row := by
  rw [GatewayDB.owedBy]
  split_ifs
  · exact add_nonneg (hcovered.amounts row hrow) (rewardsOf_nonneg hcovered.nets row.id)
  · exact le_rfl

theorem userSum_nonneg {value : StakeDeposit → ℤ}
    (hnonneg : ∀ row ∈ db.userRows userId, 0 ≤ value row) : 0 ≤ db.userSum userId value := by
  refine List.sum_nonneg fun worth hworth => ?_
  obtain ⟨row, hrow, rfl⟩ := List.mem_map.mp hworth
  exact hnonneg row hrow

/-- Covered books have not been overpaid. -/
theorem Covered.not_overpaid (hcovered : Covered userId db payments) :
    totalPaid payments userId ≤ db.funded userId + db.credited userId := by
  have hearly : 0 ≤ db.early userId := by
    refine userSum_nonneg fun row _ => ?_
    split_ifs
    · exact rewardsOf_nonneg hcovered.nets row.id
    · exact le_rfl
  calc totalPaid payments userId ≤ db.taken userId + unsettled payments userId := hcovered.paid
    _ ≤ db.taken userId + db.owed userId := by gcongr; exact hcovered.due
    _ ≤ db.owed userId + db.taken userId + db.early userId := by linarith
    _ = db.funded userId + db.credited userId := (funded_add_credited db userId).symm

theorem unsettled_eq_zero (hsettled : AllSettled payments userId) :
    unsettled payments userId = 0 := by
  have hnone : (payments.filter fun payment => !payment.settled).filter
      (fun payment => payment.userId = userId) = [] := by
    rw [List.filter_eq_nil_iff]
    intro payment hmem
    obtain ⟨hpayment, hopen⟩ := List.mem_filter.mp hmem
    intro huser
    have htrue := hsettled payment hpayment (of_decide_eq_true huser)
    rw [htrue] at hopen
    exact absurd hopen Bool.false_ne_true
  rw [unsettled, totalPaid, hnone]
  rfl

/-- The rows a withdrawal has read are still worth what it adds up. -/
theorem Covered.snapshot_le (hcovered : Covered userId db payments) {rows : List StakeDeposit}
    (hnodup : (rows.map StakeDeposit.id).Nodup)
    (hrows : ∀ row ∈ activeRows rows, row ∈ db.userRows userId) :
    delegatedOf rows + db.sumRewards ((activeRows rows).map StakeDeposit.id) ≤ db.owed userId := by
  have hids : ((activeRows rows).map StakeDeposit.id).Nodup :=
    hnodup.sublist (List.filter_sublist.map _)
  have hworth : delegatedOf rows + db.sumRewards ((activeRows rows).map StakeDeposit.id) =
      ((activeRows rows).map db.owedBy).sum := by
    rw [sumRewards_eq hids, delegatedOf, List.map_map, ← List.sum_map_add]
    refine congrArg List.sum (List.map_congr_left fun row hrow => ?_)
    have hactive : row.status = .active := by simpa using (List.mem_filter.mp hrow).2
    rw [GatewayDB.owedBy, if_pos hactive]
    rfl
  obtain ⟨kept, hperm, hsublist⟩ :=
    List.subperm_of_subset (List.Nodup.of_map _ hids) fun row hrow => hrows row hrow
  rw [hworth, ← (hperm.map db.owedBy).sum_eq]
  refine (hsublist.map db.owedBy).sum_le_sum fun worth hworth => ?_
  obtain ⟨row, hrow, rfl⟩ := List.mem_map.mp hworth
  exact hcovered.owedBy_nonneg (mem_deposits_of_mem_userRows hrow)

/-- A change that costs a user nothing. -/
structure Benign (userId : UserId) (db : GatewayDB) (payments : List Payment) (next : GatewayDB)
    (later : List Payment) : Prop where
  sound : next.Sound
  amounts : ∀ row ∈ next.deposits, 0 ≤ row.amount
  nets : ∀ reward ∈ next.rewards, 0 ≤ reward.netRewardSatoshis
  taken_le : db.taken userId ≤ next.taken userId
  owed_le : db.owed userId ≤ next.owed userId
  rows : ∀ row ∈ db.userRows userId, row.status = .active → row ∈ next.userRows userId
  paid : later.filter (fun payment => payment.userId = userId) =
    payments.filter fun payment => payment.userId = userId

section

variable (hbenign : Benign userId db payments next later)

include hbenign

theorem Benign.mem_payments {payment : Payment} (hmem : payment ∈ later)
    (huser : payment.userId = userId) : payment ∈ payments := by
  have hkept : payment ∈ later.filter fun payment => payment.userId = userId :=
    List.mem_filter.mpr ⟨hmem, decide_eq_true huser⟩
  rw [hbenign.paid] at hkept
  exact (List.mem_filter.mp hkept).1

theorem Benign.unsettled_eq :
    unsettled later userId = unsettled payments userId := by
  have hcomm : ∀ all : List Payment, (all.filter fun payment => !payment.settled).filter
      (fun payment => payment.userId = userId) =
        (all.filter fun payment => payment.userId = userId).filter
          fun payment => !payment.settled := by
    intro all
    rw [List.filter_filter, List.filter_filter]
    exact List.filter_congr fun payment _ => Bool.and_comm _ _
  rw [unsettled, totalPaid, unsettled, totalPaid, hcomm, hcomm, hbenign.paid]

theorem Benign.covered (hcovered : Covered userId db payments) : Covered userId next later where
  toSound := hbenign.sound
  amounts := hbenign.amounts
  nets := hbenign.nets
  paid := by
    have htotal : totalPaid later userId = totalPaid payments userId := by
      rw [totalPaid, hbenign.paid, totalPaid]
    rw [htotal, hbenign.unsettled_eq]
    exact hcovered.paid.trans (add_le_add_left hbenign.taken_le _)
  due := by
    rw [hbenign.unsettled_eq]
    exact hcovered.due.trans hbenign.owed_le

theorem Benign.allSettled (hsettled : AllSettled payments userId) : AllSettled later userId :=
  fun payment hmem huser => hsettled payment (hbenign.mem_payments hmem huser) huser

theorem Benign.stageHolds {stage : Stage} (hstage : StageHolds userId position db payments stage) :
    StageHolds userId position next later stage := by
  cases stage with
  | idle => trivial
  | read rows =>
    obtain ⟨hsettled, hnodup, hrows⟩ := hstage
    refine ⟨hbenign.allSettled hsettled, hnodup, fun row hrow => ?_⟩
    exact hbenign.rows row (hrows row hrow) (by simpa using (List.mem_filter.mp hrow).2)
  | ready available => exact ⟨hbenign.allSettled hstage.1, hstage.2.trans hbenign.owed_le⟩
  | owing =>
    intro payment hmem huser
    exact hstage payment (hbenign.mem_payments hmem huser) huser
  | finished => trivial

end

section

variable (hcovered : Covered userId db payments)

include hcovered

theorem Covered.benign_refl :
    Benign userId db payments db payments where
  sound := hcovered.toSound
  amounts := hcovered.amounts
  nets := hcovered.nets
  taken_le := le_rfl
  owed_le := le_rfl
  rows := fun _ hrow _ => hrow
  paid := rfl

theorem Covered.benign_append (hothers : ∀ payment ∈ later, payment.userId ≠ userId) :
    Benign userId db payments db (payments ++ later) where
  sound := hcovered.toSound
  amounts := hcovered.amounts
  nets := hcovered.nets
  taken_le := le_rfl
  owed_le := le_rfl
  rows := fun _ hrow _ => hrow
  paid := by
    have hnone : later.filter (fun payment => payment.userId = userId) = [] := by
      rw [List.filter_eq_nil_iff]
      intro payment hmem huser
      exact hothers payment hmem (of_decide_eq_true huser)
    rw [List.filter_append, hnone, List.append_nil]

theorem Covered.benign_opened (owner : UserId) (address : Address) :
    Benign userId db payments (db.opened owner address) payments where
  sound := sound_opened hcovered.toSound owner address
  amounts := by
    intro row hrow
    rcases List.mem_append.mp hrow with hbefore | hnew
    · exact hcovered.amounts row hbefore
    · rw [List.mem_singleton.mp hnew]
      exact le_rfl
  nets := hcovered.nets
  taken_le := (userSum_opened db owner address db.takenBy rfl).ge
  owed_le := (userSum_opened db owner address db.owedBy rfl).ge
  rows := by
    intro row hrow _
    exact List.mem_filter.mpr ⟨List.mem_append_left _ (mem_deposits_of_mem_userRows hrow),
      (List.mem_filter.mp hrow).2⟩
  paid := rfl

theorem Covered.benign_activated {id : DepositId} (funding : OutPoint) {amountSatoshis : ℤ}
    (hamount : 0 ≤ amountSatoshis)
    (hawaiting : ∀ row ∈ db.deposits, row.id = id → row.status = .awaitingFunds) :
    Benign userId db payments (db.updated (.activated id funding amountSatoshis)) payments where
  sound := (keepsRow_activated id funding amountSatoshis).sound_updated hcovered.toSound
  amounts := by
    intro row hrow
    obtain ⟨before, hbefore, rfl⟩ := List.mem_map.mp hrow
    rw [StakeDeposit.activated]
    split_ifs
    · exact hamount
    · exact hcovered.amounts before hbefore
  nets := hcovered.nets
  taken_le := (taken_activated funding amountSatoshis hawaiting userId).ge
  owed_le := by
    rw [GatewayDB.owed, GatewayDB.owed,
      (keepsRow_activated id funding amountSatoshis).userSum_updated]
    refine userSum_le fun row hrow => ?_
    have hrewards : (db.updated (.activated id funding amountSatoshis)).rewardsOf =
      db.rewardsOf := rfl
    rw [GatewayDB.owedBy, GatewayDB.owedBy, StakeDeposit.activated, hrewards]
    by_cases hid : row.id = id
    · have hstatus := hawaiting row (mem_deposits_of_mem_userRows hrow) hid
      have hrewarded := rewardsOf_nonneg hcovered.nets row.id
      rw [if_pos hid, hstatus, if_neg (by decide), if_pos rfl]
      exact add_nonneg hamount hrewarded
    · rw [if_neg hid]
  rows := by
    intro row hrow hactive
    have hid : row.id ≠ id := by
      intro heq
      have hstatus := hawaiting row (mem_deposits_of_mem_userRows hrow) heq
      rw [hactive] at hstatus
      cases hstatus
    refine List.mem_filter.mpr ⟨List.mem_map.mpr ⟨row, mem_deposits_of_mem_userRows hrow, ?_⟩,
      (List.mem_filter.mp hrow).2⟩
    rw [StakeDeposit.activated, if_neg hid]
  paid := rfl

end

theorem le_rewardsOf_rewarded {reward : StakeReward} (hnet : 0 ≤ reward.netRewardSatoshis)
    (id : DepositId) : db.rewardsOf id ≤ (db.rewarded reward).rewardsOf id := by
  rw [rewardsOf_rewarded]
  split_ifs
  · exact le_add_of_nonneg_right hnet
  · rw [add_zero]

theorem Covered.benign_rewarded (hcovered : Covered userId db payments) {reward : StakeReward}
    (hnet : 0 ≤ reward.netRewardSatoshis) :
    Benign userId db payments (db.rewarded reward) payments where
  sound := ⟨hcovered.nodup, hcovered.lt_nextId⟩
  amounts := hcovered.amounts
  nets := by
    intro other hmem
    rcases List.mem_append.mp hmem with hbefore | hnew
    · exact hcovered.nets other hbefore
    · rw [List.mem_singleton.mp hnew]
      exact hnet
  taken_le := by
    refine @userSum_le db userId _ _ fun row _ => ?_
    rw [GatewayDB.takenBy, GatewayDB.takenBy]
    split_ifs
    · exact add_le_add_right (le_rewardsOf_rewarded hnet row.id) _
    · exact le_rfl
  owed_le := by
    refine @userSum_le db userId _ _ fun row _ => ?_
    rw [GatewayDB.owedBy, GatewayDB.owedBy]
    split_ifs
    · exact add_le_add_right (le_rewardsOf_rewarded hnet row.id) _
    · exact le_rfl
  rows := fun _ hrow _ => hrow
  paid := rfl

/-- Settling the payments of one withdrawal, which are all to another user. -/
theorem filter_settle_of_ne (hothers : ∀ payment ∈ payments, payment.position = position →
      payment.userId ≠ userId) (statement : Statement) :
    (settlePayments position statement payments).filter (fun payment => payment.userId = userId) =
      payments.filter fun payment => payment.userId = userId := by
  cases statement with
  | closeDeposits closer =>
    rw [settlePayments]
    induction payments with
    | nil => rfl
    | cons payment payments ih =>
      obtain ⟨hfirst, hrest⟩ := List.forall_mem_cons.mp hothers
      rw [List.map_cons, List.filter_cons, List.filter_cons, ih hrest]
      by_cases hposition : payment.position = position
      · have huser := hfirst hposition
        simp [hposition, huser]
      · rw [if_neg hposition]
  | _ => rfl

theorem Covered.benign_closed (hcovered : Covered userId db payments) {other : UserId}
    (hne : userId ≠ other)
    (hothers : ∀ payment ∈ payments, payment.position = position → payment.userId ≠ userId) :
    Benign userId db payments (db.updated (.closed other))
      (settlePayments position (.closeDeposits other) payments) where
  sound := (keepsRow_closed other).sound_updated hcovered.toSound
  amounts := by
    intro row hrow
    obtain ⟨before, hbefore, rfl⟩ := List.mem_map.mp hrow
    rw [StakeDeposit.closed]
    split_ifs <;> exact hcovered.amounts before hbefore
  nets := hcovered.nets
  taken_le := (userSum_closed_of_ne hne db.takenBy).ge
  owed_le := (userSum_closed_of_ne hne db.owedBy).ge
  rows := by
    intro row hrow _
    have huser : row.userId ≠ other := userId_of_mem_userRows hrow ▸ hne
    refine List.mem_filter.mpr ⟨List.mem_map.mpr ⟨row, mem_deposits_of_mem_userRows hrow, ?_⟩,
      (List.mem_filter.mp hrow).2⟩
    rw [StakeDeposit.closed, if_neg fun hboth => huser hboth.1]
  paid := filter_settle_of_ne hothers _

end Cover

section Own

/-! A withdrawal of the user: it pays within the balance, and closing the deposits takes
out at least what it paid. -/

variable {userId : UserId} {db : GatewayDB} {payments : List Payment} {position : ℕ}

theorem unsettled_append (payments later : List Payment) (userId : UserId) :
    unsettled (payments ++ later) userId = unsettled payments userId + unsettled later userId := by
  rw [unsettled, List.filter_append, totalPaid_append]
  rfl

theorem Covered.pay (hcovered : Covered userId db payments) (hsettled : AllSettled payments userId)
    {amount : ℤ} (hamount : amount ≤ db.owed userId) :
    Covered userId db (payments ++ [⟨position, userId, amount, false⟩]) where
  toSound := hcovered.toSound
  amounts := hcovered.amounts
  nets := hcovered.nets
  paid := by
    have hpaid := hcovered.paid
    have hnew : unsettled [⟨position, userId, amount, false⟩] userId =
      totalPaid [⟨position, userId, amount, false⟩] userId := rfl
    rw [totalPaid_append, unsettled_append, hnew]
    linarith
  due := by
    have hnew : unsettled [⟨position, userId, amount, false⟩] userId = amount :=
      (totalPaid_single userId userId amount false).trans (if_pos rfl)
    rw [unsettled_append, unsettled_eq_zero hsettled, hnew, zero_add]
    exact hamount

theorem allSettled_settle
    (hown : ∀ payment ∈ payments, payment.userId = userId → payment.settled = false →
      payment.position = position) (closer : UserId) :
    AllSettled (settlePayments position (.closeDeposits closer) payments) userId := by
  intro payment hmem huser
  obtain ⟨before, hbefore, rfl⟩ := List.mem_map.mp hmem
  split_ifs at huser ⊢ with hposition
  · rfl
  · by_contra hopen
    exact hposition (hown before hbefore huser (Bool.eq_false_of_not_eq_true hopen))

theorem Covered.close (hcovered : Covered userId db payments)
    (hown : ∀ payment ∈ payments, payment.userId = userId → payment.settled = false →
      payment.position = position) :
    Covered userId (db.updated (.closed userId))
      (settlePayments position (.closeDeposits userId) payments) where
  toSound := (keepsRow_closed userId).sound_updated hcovered.toSound
  amounts := by
    intro row hrow
    obtain ⟨before, hbefore, rfl⟩ := List.mem_map.mp hrow
    rw [StakeDeposit.closed]
    split_ifs <;> exact hcovered.amounts before hbefore
  nets := hcovered.nets
  paid := by
    have hpaid := hcovered.paid
    have hdue := hcovered.due
    rw [totalPaid_settle, unsettled_eq_zero (allSettled_settle hown userId), taken_closed]
    linarith
  due := by
    rw [unsettled_eq_zero (allSettled_settle hown userId)]
    refine userSum_nonneg fun row hrow => ?_
    obtain ⟨before, hbefore, rfl⟩ := List.mem_map.mp (mem_deposits_of_mem_userRows hrow)
    rw [GatewayDB.owedBy]
    split_ifs with hactive
    · rw [StakeDeposit.closed] at hactive ⊢
      split_ifs at hactive ⊢ with hboth
      have howed := hcovered.owedBy_nonneg hbefore
      rwa [GatewayDB.owedBy, if_pos hactive] at howed
    · exact le_rfl

end Own

section System

variable {Node : Type}

abbrev PoolSystem (Node : Type) :=
  Interleaving (PoolStore Node) Job ServiceFailure Request Request.Response Unit

abbrev PoolThread := Thread Job ServiceFailure Request Request.Response Unit

/-- A withdrawal of a user that has made a request and goes on. -/
def Engaged (userId : UserId) (thread : PoolThread) : Prop :=
  thread.started = true ∧ thread.program.isRunning = true ∧
    ∃ amountSatoshis toAddress, thread.client = .withdrawal userId amountSatoshis toAddress

/-- What keeps a request from costing the pool: a withdrawal begins only when no other
one of its user is under way and all payments to the user are settled, a deposit is
marked as funded only while it waits for funds, and the node reads no more than the
amount it is asked to pay. -/
structure Careful (config : PoolConfig) (system : PoolSystem Node) (position : ℕ)
    (request : Request) : Prop where
  alone : ∀ thread userId amountSatoshis toAddress, system.threads[position]? = some thread →
    thread.client = .withdrawal userId amountSatoshis toAddress →
      request = .sql (.selectDeposits userId) → AllSettled system.store.payments userId ∧
        ∀ other engaged, system.threads[other]? = some engaged → Engaged userId engaged →
          other = position
  waiting : ∀ id funding amountSatoshis, request = .sql (.activateDeposit id funding amountSatoshis) →
    ∀ row ∈ system.store.db.deposits, row.id = id → row.status = .awaitingFunds
  exact : ∀ address amountSatoshis, request = .rpc (.sendToAddress address amountSatoshis) →
    config.toNode amountSatoshis ≤ amountSatoshis

def CarefulStep (config : PoolConfig) (model : NodeModel Node) (system : PoolSystem Node)
    (label : ℕ × Request) (next : PoolSystem Node) : Prop :=
  Interleaves (storeAnswers model) system label next ∧ Careful config system label.1 label.2

/-- What is known of a program at a position. -/
def ThreadHolds (config : PoolConfig) (world : TxId → Option RawTx) (userId : UserId)
    (position : ℕ) (db : GatewayDB) (payments : List Payment) (thread : PoolThread) : Prop :=
  match thread.client with
  | .withdrawal owner amountSatoshis _ => ∃ stage,
      thread.program.Follows (withdrawDiscipline owner amountSatoshis) (fun _ _ => True) stage ∧
      (stage = .idle ∨ thread.started = true) ∧
      (owner = userId → thread.program.isRunning = true →
        StageHolds userId position db payments stage)
  | _ => thread.program.Follows (watchDiscipline config world) (fun _ _ => True) ()

structure PoolInvariant (config : PoolConfig) (world : TxId → Option RawTx) (userId : UserId)
    (system : PoolSystem Node) : Prop where
  covered : Covered userId system.store.db system.store.payments
  owners : ∀ payment ∈ system.store.payments, ∀ thread,
    system.threads[payment.position]? = some thread →
      ∃ amountSatoshis toAddress,
        thread.client = .withdrawal payment.userId amountSatoshis toAddress
  following : ∀ position thread, system.threads[position]? = some thread →
    ThreadHolds config world userId position system.store.db system.store.payments thread
  exclusive : ∀ (first second : ℕ) thread other, system.threads[first]? = some thread →
    system.threads[second]? = some other → Engaged userId thread → Engaged userId other →
      first = second

variable {config : PoolConfig} {model : NodeModel Node} {world : TxId → Option RawTx}
  {userId : UserId} {system : PoolSystem Node} {position : ℕ} {request : Request}

theorem ThreadHolds.of_benign {db next : GatewayDB} {payments later : List Payment}
    {thread : PoolThread} (hbenign : Benign userId db payments next later)
    (hthread : ThreadHolds config world userId position db payments thread) :
    ThreadHolds config world userId position next later thread := by
  rw [ThreadHolds] at hthread ⊢
  split at hthread
  · obtain ⟨stage, hfollows, hstarted, hstage⟩ := hthread
    exact ⟨stage, hfollows, hstarted, fun howner hrunning =>
      hbenign.stageHolds (hstage howner hrunning)⟩
  · exact hthread

variable {response : request.Response} {next : PoolStore Node}

/-- A payment after a request was there before, or is made for the program that asks. -/
theorem mem_payments_answers {job : Job} {store next : PoolStore Node}
    (hanswer : storeAnswers model position job store request response next) {payment : Payment}
    (hmem : payment ∈ next.payments) :
    (∃ before ∈ store.payments, before.position = payment.position ∧
      before.userId = payment.userId) ∨
    (payment.position = position ∧
      ∃ amountSatoshis toAddress, job = .withdrawal payment.userId amountSatoshis toAddress) := by
  cases request with
  | sql statement =>
    obtain ⟨_, rfl⟩ := hanswer
    refine .inl ?_
    cases statement with
    | closeDeposits closer =>
      obtain ⟨before, hbefore, rfl⟩ := List.mem_map.mp hmem
      refine ⟨before, hbefore, ?_⟩
      split_ifs <;> exact ⟨rfl, rfl⟩
    | _ => exact ⟨payment, hmem, rfl, rfl⟩
  | rpc asked =>
    obtain ⟨paid, node, _, rfl⟩ := hanswer
    rcases List.mem_append.mp hmem with hbefore | hnew
    · exact .inl ⟨payment, hbefore, rfl, rfl⟩
    · cases job with
      | deposit owner => exact absurd hnew List.not_mem_nil
      | watch => exact absurd hnew List.not_mem_nil
      | withdrawal owner amountSatoshis toAddress =>
        obtain ⟨amount, _, rfl⟩ := List.mem_map.mp hnew
        exact .inr ⟨rfl, amountSatoshis, toAddress, rfl⟩

/-- The functions other than `withdraw` cost nobody anything. -/
theorem Covered.benign_watching (hpays : NodePays config model)
    (hcareful : Careful config system position request) {job : Job}
    (hcovered : Covered userId system.store.db system.store.payments)
    (hallowed : (watchDiscipline config world).allowed () request)
    (hanswer : storeAnswers model position job system.store request response next) :
    Benign userId system.store.db system.store.payments next.db next.payments := by
  cases request with
  | rpc asked =>
    obtain ⟨hdb, hpayments⟩ := hpays.quiet hallowed hanswer
    rw [hdb, hpayments]
    exact hcovered.benign_refl
  | sql statement =>
    obtain ⟨_, rfl⟩ := hanswer
    have hsettle : settlePayments position statement system.store.payments =
        system.store.payments := by
      cases statement with
      | closeDeposits closer => exact absurd hallowed id
      | _ => rfl
    dsimp only
    rw [hsettle]
    rcases execute_cases system.store.db statement with
      hsame | ⟨owner, address, rfl, hdb⟩ | ⟨closer, rfl, _⟩ | ⟨id, funding, amount, rfl, hdb⟩ |
        ⟨reward, rfl, hdb⟩
    · rw [hsame]
      exact hcovered.benign_refl
    · rw [hdb]
      exact hcovered.benign_opened owner address
    · exact absurd hallowed id
    · rw [hdb]
      exact hcovered.benign_activated funding hallowed (hcareful.waiting id funding amount rfl)
    · rw [hdb]
      exact hcovered.benign_rewarded hallowed

/-- Nor does a withdrawal of another user. -/
theorem Covered.benign_withdrawing (hpays : NodePays config model) {owner : UserId}
    {amountSatoshis : ℤ} {toAddress : Address} {store next : PoolStore Node} {stage : Stage}
    (hne : userId ≠ owner) (hcovered : Covered userId store.db store.payments)
    (howners : ∀ payment ∈ store.payments, payment.position = position → payment.userId ≠ userId)
    (hallowed : (withdrawDiscipline owner amountSatoshis).allowed stage request)
    (hanswer : storeAnswers model position (.withdrawal owner amountSatoshis toAddress) store
      request response next) :
    Benign userId store.db store.payments next.db next.payments := by
  cases stage with
  | idle =>
    obtain rfl := hallowed
    obtain ⟨_, rfl⟩ := hanswer
    exact hcovered.benign_refl
  | read rows =>
    obtain rfl := hallowed
    obtain ⟨_, rfl⟩ := hanswer
    exact hcovered.benign_refl
  | ready available =>
    rcases hallowed with ⟨asked, rfl, hquiet⟩ | ⟨address, rfl, _⟩
    · obtain ⟨hdb, hpayments⟩ := hpays.quiet hquiet hanswer
      rw [hdb, hpayments]
      exact hcovered.benign_refl
    · obtain ⟨paid, node, _, rfl⟩ := hanswer
      refine hcovered.benign_append fun payment hmem => ?_
      obtain ⟨amount, _, rfl⟩ := List.mem_map.mp hmem
      exact hne.symm
  | owing =>
    obtain rfl := hallowed
    obtain ⟨_, rfl⟩ := hanswer
    exact hcovered.benign_closed hne howners
  | finished => exact absurd hallowed id

/-- A step of a withdrawal of the user itself. -/
theorem Covered.own_step (hpays : NodePays config model)
    (hcareful : Careful config system position request) {amountSatoshis : ℤ} {toAddress : Address}
    {stage : Stage} (hcovered : Covered userId system.store.db system.store.payments)
    (hbegins : stage = .idle → AllSettled system.store.payments userId)
    (hstage : StageHolds userId position system.store.db system.store.payments stage)
    (hallowed : (withdrawDiscipline userId amountSatoshis).allowed stage request)
    (hanswer : storeAnswers model position (.withdrawal userId amountSatoshis toAddress)
      system.store request response next) :
    Covered userId next.db next.payments ∧
      StageHolds userId position next.db next.payments
        ((withdrawDiscipline userId amountSatoshis).advance stage request response) := by
  cases stage with
  | idle =>
    obtain rfl := hallowed
    obtain ⟨rfl, rfl⟩ := hanswer
    refine ⟨hcovered, ?_⟩
    change StageHolds userId position _ _
      (if (activeRows (system.store.db.userRows userId)).isEmpty then
        Stage.ready (delegatedOf (system.store.db.userRows userId))
      else .read (system.store.db.userRows userId))
    have hnodup : ((system.store.db.userRows userId).map StakeDeposit.id).Nodup :=
      hcovered.nodup.sublist (List.filter_sublist.map _)
    split_ifs with hempty
    · refine ⟨hbegins rfl, ?_⟩
      have hnone : activeRows (system.store.db.userRows userId) = [] := by simpa using hempty
      rw [delegatedOf, hnone]
      exact userSum_nonneg fun row hrow =>
        hcovered.owedBy_nonneg (mem_deposits_of_mem_userRows hrow)
    · exact ⟨hbegins rfl, hnodup, fun row hrow => (List.mem_filter.mp hrow).1⟩
  | read rows =>
    obtain rfl := hallowed
    obtain ⟨rfl, rfl⟩ := hanswer
    obtain ⟨hsettled, hnodup, hrows⟩ := hstage
    exact ⟨hcovered, hsettled, hcovered.snapshot_le hnodup hrows⟩
  | ready available =>
    obtain ⟨hsettled, havailable⟩ := hstage
    rcases hallowed with ⟨asked, rfl, hquiet⟩ | ⟨address, rfl, hle⟩
    · obtain ⟨hdb, hpayments⟩ := hpays.quiet hquiet hanswer
      rw [hdb, hpayments, (staysAt_ready asked hquiet).2]
      exact ⟨hcovered, hsettled, havailable⟩
    · obtain ⟨paid, node, hnode, rfl⟩ := hanswer
      have hexact := hcareful.exact address amountSatoshis rfl
      have hafter : Covered userId system.store.db (system.store.payments ++
          (Job.withdrawal userId amountSatoshis toAddress).paymentsOf position paid) := by
        cases paid with
        | none =>
          have hsame : system.store.payments ++
              (Job.withdrawal userId amountSatoshis toAddress).paymentsOf position none =
                system.store.payments := List.append_nil _
          rw [hsame]
          exact hcovered
        | some amount =>
          obtain ⟨_, _, hcall, rfl, _⟩ := hpays.asked _ _ _ _ _ hnode
          obtain ⟨_, rfl⟩ := RpcCall.sendToAddress.inj hcall
          exact hcovered.pay hsettled (hexact.trans (hle.trans havailable))
      refine ⟨hafter, ?_⟩
      cases response with
      | error error => trivial
      | ok txid =>
        -- whatever is unsettled now was paid by this withdrawal
        intro payment hmem huser hopen
        rcases List.mem_append.mp hmem with hbefore | hnew
        · have htrue := hsettled payment hbefore huser
          rw [htrue] at hopen
          cases hopen
        · obtain ⟨amount, _, rfl⟩ := List.mem_map.mp hnew
          rfl
  | owing =>
    obtain rfl := hallowed
    obtain ⟨_, rfl⟩ := hanswer
    exact ⟨hcovered.close hstage, trivial⟩
  | finished => exact absurd hallowed id

/-- The invariant after a step, from what the step does to the program that moves and to
what is known of the others. -/
theorem PoolInvariant.moved {job : Job} {started : Bool} {rest : request.Response → Service Unit}
    (hinvariant : PoolInvariant config world userId system)
    (hget : system.threads[position]? = some ⟨job, .ask request rest, started⟩)
    (hanswer : storeAnswers model position job system.store request response next)
    (hcovered : Covered userId next.db next.payments)
    (hthread : ThreadHolds config world userId position next.db next.payments
      ⟨job, rest response, true⟩)
    (hothers : ∀ other thread, other ≠ position → system.threads[other]? = some thread →
      ThreadHolds config world userId other next.db next.payments thread)
    (halone : Engaged userId ⟨job, rest response, true⟩ → ∀ other thread,
      system.threads[other]? = some thread → Engaged userId thread → other = position) :
    PoolInvariant config world userId
      ⟨system.threads.set position ⟨job, rest response, true⟩, next⟩ where
  covered := hcovered
  owners := by
    intro payment hmem thread hthread
    rcases mem_payments_answers hanswer hmem with
      ⟨before, hbefore, hposition, huser⟩ | ⟨hposition, amountSatoshis, toAddress, hjob⟩
    · rcases getElem?_set_split hthread with ⟨hmoved, rfl⟩ | ⟨_, hkept⟩
      · rw [← huser]
        have hbeforeGet := hget
        rw [← hmoved, ← hposition] at hbeforeGet
        have hclient := hinvariant.owners before hbefore _ hbeforeGet
        exact hclient
      · rw [← huser]
        exact hinvariant.owners before hbefore thread (by rw [hposition]; exact hkept)
    · rcases getElem?_set_split hthread with ⟨_, rfl⟩ | ⟨hne, _⟩
      · exact ⟨amountSatoshis, toAddress, hjob⟩
      · exact absurd hposition hne
  following := by
    intro other thread hother
    rcases getElem?_set_split hother with ⟨rfl, rfl⟩ | ⟨hne, hkept⟩
    · exact hthread
    · exact hothers other thread hne hkept
  exclusive := by
    intro first second thread other hfirst hsecond hengaged hengagedToo
    rcases getElem?_set_split hfirst with ⟨rfl, rfl⟩ | ⟨hne, hkept⟩
    · rcases getElem?_set_split hsecond with ⟨rfl, _⟩ | ⟨_, hkeptToo⟩
      · rfl
      · exact (halone hengaged second other hkeptToo hengagedToo).symm
    · rcases getElem?_set_split hsecond with ⟨rfl, rfl⟩ | ⟨_, hkeptToo⟩
      · exact halone hengagedToo first thread hkept hengaged
      · exact hinvariant.exclusive first second thread other hkept hkeptToo hengaged hengagedToo

/-- A program that is not a withdrawal of the user under way knows nothing of the store. -/
theorem ThreadHolds.of_not_engaged {db next : GatewayDB} {payments later : List Payment}
    {thread : PoolThread} (hthread : ThreadHolds config world userId position db payments thread)
    (hnot : ¬ Engaged userId thread) :
    ThreadHolds config world userId position next later thread := by
  obtain ⟨job, program, started⟩ := thread
  cases job with
  | deposit owner => exact hthread
  | watch => exact hthread
  | withdrawal owner amountSatoshis toAddress =>
    obtain ⟨stage, hfollows, hstarted, _⟩ := hthread
    refine ⟨stage, hfollows, hstarted, fun howner hrunning => ?_⟩
    rcases hstarted with rfl | hstarted
    · trivial
    · exact absurd ⟨hstarted, hrunning, amountSatoshis, toAddress, by rw [howner]⟩ hnot

theorem PoolInvariant.foreign {job : Job} {started : Bool} {rest : request.Response → Service Unit}
    (hinvariant : PoolInvariant config world userId system)
    (hget : system.threads[position]? = some ⟨job, .ask request rest, started⟩)
    (hanswer : storeAnswers model position job system.store request response next)
    (hbenign : Benign userId system.store.db system.store.payments next.db next.payments)
    (hjob : ∀ amountSatoshis toAddress, job ≠ .withdrawal userId amountSatoshis toAddress)
    (hthread : ThreadHolds config world userId position next.db next.payments
      ⟨job, rest response, true⟩) :
    PoolInvariant config world userId
      ⟨system.threads.set position ⟨job, rest response, true⟩, next⟩ := by
  refine hinvariant.moved hget hanswer (hbenign.covered hinvariant.covered) hthread ?_ ?_
  · intro other thread _ hother
    exact (hinvariant.following other thread hother).of_benign hbenign
  · rintro ⟨_, _, amountSatoshis, toAddress, hclient⟩
    exact absurd hclient (hjob amountSatoshis toAddress)

theorem PoolInvariant.step (hpays : NodePays config model)
    (hreports : NodeReports config world model) {label : ℕ × Request} {next : PoolSystem Node}
    (hinvariant : PoolInvariant config world userId system)
    (hstep : CarefulStep config model system label next) :
    PoolInvariant config world userId next := by
  obtain ⟨hinterleaves, hcareful⟩ := hstep
  cases hinterleaves with
  | @intro position job started request response rest store hget hanswer =>
    have hthread := hinvariant.following _ _ hget
    cases job with
    | deposit owner =>
      exact hinvariant.foreign hget hanswer
        (hinvariant.covered.benign_watching hpays hcareful hthread.1 hanswer) nofun
        (hthread.2 response (hreports.expected hanswer))
    | watch =>
      exact hinvariant.foreign hget hanswer
        (hinvariant.covered.benign_watching hpays hcareful hthread.1 hanswer) nofun
        (hthread.2 response (hreports.expected hanswer))
    | withdrawal owner amountSatoshis toAddress =>
      obtain ⟨stage, ⟨hallowed, hrest⟩, hstarted, hstage⟩ := hthread
      by_cases howner : owner = userId
      · subst howner
        have halone : ∀ other thread, system.threads[other]? = some thread →
            Engaged owner thread → other = position := by
          rcases hstarted with rfl | hstarted
          · exact (hcareful.alone _ _ _ _ hget rfl hallowed).2
          · intro other thread hother hengaged
            exact hinvariant.exclusive other position thread _ hother hget hengaged
              ⟨hstarted, rfl, amountSatoshis, toAddress, rfl⟩
        have hbegins : stage = .idle → AllSettled system.store.payments owner := by
          rintro rfl
          exact (hcareful.alone _ _ _ _ hget rfl hallowed).1
        obtain ⟨hcovered, hnext⟩ := hinvariant.covered.own_step hpays hcareful hbegins
          (hstage rfl rfl) hallowed hanswer
        refine hinvariant.moved hget hanswer hcovered
          ⟨_, hrest response trivial, .inr rfl, fun _ _ => hnext⟩ ?_ fun _ => halone
        intro other thread hne hother
        exact (hinvariant.following other thread hother).of_not_engaged
          fun hengaged => hne (halone other thread hother hengaged)
      · have howners : ∀ payment ∈ system.store.payments, payment.position = position →
            payment.userId ≠ userId := by
          rintro payment hmem rfl huser
          obtain ⟨_, _, hclient⟩ := hinvariant.owners payment hmem _ hget
          exact howner ((Job.withdrawal.inj hclient).1.trans huser)
        refine hinvariant.foreign hget hanswer
          (hinvariant.covered.benign_withdrawing hpays (Ne.symm howner) howners hallowed
            hanswer) (fun _ _ heq => howner (Job.withdrawal.inj heq).1) ?_
        exact ⟨_, hrest response trivial, .inr rfl, fun heq => absurd heq howner⟩

def launched (config : PoolConfig) (jobs : List Job) (db : GatewayDB) (node : Node) :
    PoolSystem Node where
  threads := jobs.map fun job => ⟨job, job.program config, false⟩
  store := ⟨db, node, []⟩

/-- Tables in which nothing is negative. -/
structure GatewayDB.Nonneg (db : GatewayDB) : Prop where
  amounts : ∀ row ∈ db.deposits, 0 ≤ row.amount
  nets : ∀ reward ∈ db.rewards, 0 ≤ reward.netRewardSatoshis

theorem poolInvariant_launched (hreports : NodeReports config world model)
    (hfee : config.poolFeeBp ≤ 10000) {db : GatewayDB} (hsound : db.Sound) (hnonneg : db.Nonneg)
    (jobs : List Job) (node : Node) (userId : UserId) :
    PoolInvariant config world userId (launched config jobs db node) where
  covered :=
    { toSound := hsound
      amounts := hnonneg.amounts
      nets := hnonneg.nets
      paid := by
        refine add_nonneg (userSum_nonneg fun row hrow => ?_) le_rfl
        rw [GatewayDB.takenBy]
        split_ifs
        · exact add_nonneg (hnonneg.amounts row (mem_deposits_of_mem_userRows hrow))
            (rewardsOf_nonneg hnonneg.nets row.id)
        · exact le_rfl
      due := by
        refine userSum_nonneg fun row hrow => ?_
        rw [GatewayDB.owedBy]
        split_ifs
        · exact add_nonneg (hnonneg.amounts row (mem_deposits_of_mem_userRows hrow))
            (rewardsOf_nonneg hnonneg.nets row.id)
        · exact le_rfl }
  owners := fun payment hmem => absurd hmem List.not_mem_nil
  following := by
    intro position thread hget
    obtain ⟨job, _, rfl⟩ := List.mem_map.mp (List.mem_of_getElem? hget)
    cases job with
    | deposit owner =>
      exact follows_bind ((hreports.watchRules hfee).follows_createDeposit owner)
    | watch => exact (hreports.watchRules hfee).follows_runWatcherPass
    | withdrawal owner amountSatoshis toAddress =>
      exact ⟨.idle, follows_withdraw config toAddress, .inl rfl, fun _ _ => trivial⟩
  exclusive := by
    rintro first second thread other hfirst _ ⟨hstarted, _⟩ _
    obtain ⟨job, _, rfl⟩ := List.mem_map.mp (List.mem_of_getElem? hfirst)
    exact absurd hstarted Bool.false_ne_true

/-- In an interleaving of careful steps no user is ever paid more than was funded by and
credited to that user, whatever replies are lost. -/
theorem totalPaid_le_of_careful (hpays : NodePays config model)
    (hreports : NodeReports config world model) (hfee : config.poolFeeBp ≤ 10000)
    {db : GatewayDB} (hsound : db.Sound) (hnonneg : db.Nonneg) {jobs : List Job} {node : Node}
    {labels : List (ℕ × Request)}
    (hrun : Run (CarefulStep config model) (launched config jobs db node) labels system)
    (userId : UserId) :
    totalPaid system.store.payments userId ≤
      system.store.db.funded userId + system.store.db.credited userId := by
  have hinvariant : PoolInvariant config world userId system :=
    hrun.invariant (fun _ current => PoolInvariant config world userId current)
      (poolInvariant_launched hreports hfee hsound hnonneg jobs node userId)
      fun _ _ _ _ hcurrent hstep => hcurrent.step hpays hreports hstep
  exact hinvariant.covered.not_overpaid

end System

section Sample

variable {Node : Type} (model : NodeModel Node) {start system : PoolSystem Node} {job : Job}
  {started : Bool} {labels : List (ℕ × Request)}
  {step : PoolSystem Node → ℕ × Request → PoolSystem Node → Prop}

/-- A run goes on with a statement. -/
theorem run_sql (position : ℕ) {statement : Statement} {rest : statement.Rows → Service Unit}
    (hrun : Run step start labels system)
    (hget : system.threads[position]? = some ⟨job, .ask (.sql statement) rest, started⟩)
    (hstep : ∀ next, Interleaves (storeAnswers model) system
      (position, .sql statement) next → step system (position, .sql statement) next) :
    Run step start (labels ++ [(position, .sql statement)])
      ⟨system.threads.set position ⟨job, rest (system.store.db.execute statement).1, true⟩,
        (system.store.db.execute statement).2, system.store.node,
        settlePayments position statement system.store.payments⟩ :=
  hrun.snoc (hstep _ (.intro hget ⟨rfl, rfl⟩))

/-- A run goes on with a node call. -/
theorem run_rpc (position : ℕ) {call : RpcCall} {reply : Except RpcError call.Reply}
    {rest : Except RpcError call.Reply → Service Unit} {paid : Option ℤ} {node : Node}
    (hrun : Run step start labels system)
    (hget : system.threads[position]? = some ⟨job, .ask (.rpc call) rest, started⟩)
    (hnode : model.answers system.store.node call reply paid node)
    (hstep : ∀ next, Interleaves (storeAnswers model) system
      (position, .rpc call) next → step system (position, .rpc call) next) :
    Run step start (labels ++ [(position, .rpc call)])
      ⟨system.threads.set position ⟨job, rest reply, true⟩, system.store.db, node,
        system.store.payments ++ job.paymentsOf position paid⟩ :=
  hrun.snoc (hstep _ (.intro hget ⟨paid, node, hnode, rfl⟩))

variable {config : PoolConfig}

theorem nodeReports_promptNode (config : PoolConfig) :
    NodeReports config (fun _ => none) (promptNode config) := by
  refine ⟨?_, ?_, fun _ _ _ hworld => absurd hworld nofun⟩
  · intro _ address utxos paid _ hanswer
    cases hanswer
  · intro _ txid tx paid _ hanswer
    cases hanswer

theorem nonneg_tenCoins : tenCoins.Nonneg := ⟨by decide, nofun⟩

/-- A request other than those that need care. -/
theorem careful_of_ne {position : ℕ} {request : Request}
    (hselect : ∀ userId, request ≠ .sql (.selectDeposits userId))
    (hactivate : ∀ id funding amountSatoshis,
      request ≠ .sql (.activateDeposit id funding amountSatoshis))
    (hsend : ∀ address amountSatoshis, request ≠ .rpc (.sendToAddress address amountSatoshis)) :
    Careful config system position request where
  alone _ userId _ _ _ _ heq := absurd heq (hselect userId)
  waiting id funding amountSatoshis heq := absurd heq (hactivate id funding amountSatoshis)
  exact address amountSatoshis heq := absurd heq (hsend address amountSatoshis)

/-- All ten coins are withdrawn while a pass runs, and a second withdrawal begins when the
first has closed the deposit. -/
theorem totalPaid_le_tenCoins :
    ∃ labels system, Run (CarefulStep .sample (promptNode .sample))
        (launched .sample [.withdrawal 1 1000000000 7, .watch, .withdrawal 1 1000000000 7]
          tenCoins ()) labels system ∧
      labels.map Prod.fst = [1, 0, 1, 0, 1, 0, 1, 0, 1, 0, 2] ∧
      totalPaid system.store.payments 1 = 1000000000 ∧
      totalPaid system.store.payments 1 ≤
        system.store.db.funded 1 + system.store.db.credited 1 := by
  have hstart : Run (CarefulStep .sample (promptNode .sample)) (launched .sample
      [.withdrawal 1 1000000000 7, .watch, .withdrawal 1 1000000000 7] tenCoins ()) [] _ := .nil
  have hwatching := run_rpc (promptNode .sample) 1 hstart rfl .listWallets
    fun _ hnext => ⟨hnext, careful_of_ne nofun nofun nofun⟩
  have hselect := run_sql (promptNode .sample) 0 hwatching rfl fun _ hnext => ⟨hnext, by
    refine ⟨fun _ _ _ _ _ _ _ => ⟨nofun, fun other engaged hother hengaged => ?_⟩, nofun, nofun⟩
    obtain ⟨hstarted, _, _, _, hclient⟩ := hengaged
    rcases other with _ | _ | _ | other
    · rfl
    · cases hother
      cases hclient
    · cases hother
      cases hstarted
    · cases hother⟩
  have hpending := run_sql (promptNode .sample) 1 hselect rfl
    fun _ hnext => ⟨hnext, careful_of_ne nofun nofun nofun⟩
  have hsum := run_sql (promptNode .sample) 0 hpending rfl
    fun _ hnext => ⟨hnext, careful_of_ne nofun nofun nofun⟩
  have hagain := run_rpc (promptNode .sample) 1 hsum rfl .listWallets
    fun _ hnext => ⟨hnext, careful_of_ne nofun nofun nofun⟩
  have hloaded := run_rpc (promptNode .sample) 0 hagain rfl .listWallets
    fun _ hnext => ⟨hnext, careful_of_ne nofun nofun nofun⟩
  have hactive := run_sql (promptNode .sample) 1 hloaded rfl
    fun _ hnext => ⟨hnext, careful_of_ne nofun nofun nofun⟩
  have hpaid := run_rpc (promptNode .sample) 0 hactive rfl (.sendToAddress 7 1000000000 (by decide))
    fun _ hnext => ⟨hnext, nofun, nofun, fun _ _ _ => le_rfl⟩
  have hskipped := run_rpc (promptNode .sample) 1 hpaid rfl (.refused _ ⟨-1, "timed out"⟩)
    fun _ hnext => ⟨hnext, careful_of_ne nofun nofun nofun⟩
  have hclosed := run_sql (promptNode .sample) 0 hskipped rfl
    fun _ hnext => ⟨hnext, careful_of_ne nofun nofun nofun⟩
  have hsecond := run_sql (promptNode .sample) 2 hclosed rfl fun _ hnext => ⟨hnext, by
    refine ⟨fun _ userId _ _ _ _ _ => ⟨?_, fun other engaged hother hengaged => ?_⟩, nofun, nofun⟩
    · intro payment hmem _
      rw [List.mem_singleton.mp hmem]
      rfl
    · obtain ⟨_, hrunning, _, _, hclient⟩ := hengaged
      rcases other with _ | _ | _ | other
      · cases hother
        cases hrunning
      · cases hother
        cases hclient
      · rfl
      · cases hother⟩
  refine ⟨_, _, hsecond, rfl, by decide, ?_⟩
  exact totalPaid_le_of_careful (nodePays_promptNode _) (nodeReports_promptNode _) (by decide)
    consistent_tenCoins.toSound nonneg_tenCoins hsecond 1

theorem overpaid_tenCoins :
    (∃ labels system, Run (Interleaves (storeAnswers (promptNode .sample)))
        (launched .sample [.withdrawal 1 1000000000 7, .withdrawal 1 1000000000 7] tenCoins ())
        labels system ∧
      system.store.db.funded 1 + system.store.db.credited 1 = 1000000000 ∧
      totalPaid system.store.payments 1 = 2000000000) ∧
    ∃ labels system, Run (Interleaves (storeAnswers (promptNode .sample)))
        (launched .sample [.withdrawal 1 1000000000 7, .withdrawal 1 1000000000 7] tenCoins ())
        labels system ∧
      labels.map Prod.fst = [0, 0, 0, 0, 1, 1, 1, 1] ∧
      system.store.db.funded 1 + system.store.db.credited 1 = 1000000000 ∧
      totalPaid system.store.payments 1 = 2000000000 := by
  have hstart : Run (Interleaves (storeAnswers (promptNode .sample)))
      (launched .sample [.withdrawal 1 1000000000 7, .withdrawal 1 1000000000 7] tenCoins ())
      [] _ := .nil
  have hselect := run_sql (promptNode .sample) 0 hstart rfl fun _ hnext => hnext
  have hsum := run_sql (promptNode .sample) 0 hselect rfl fun _ hnext => hnext
  have hloaded := run_rpc (promptNode .sample) 0 hsum rfl .listWallets fun _ hnext => hnext
  constructor
  · have hselectToo := run_sql (promptNode .sample) 1 hloaded rfl fun _ hnext => hnext
    have hsumToo := run_sql (promptNode .sample) 1 hselectToo rfl fun _ hnext => hnext
    have hloadedToo := run_rpc (promptNode .sample) 1 hsumToo rfl .listWallets fun _ hnext => hnext
    have hpaid := run_rpc (promptNode .sample) 0 hloadedToo rfl
      (.sendToAddress 7 1000000000 (by decide)) fun _ hnext => hnext
    have hpaidToo := run_rpc (promptNode .sample) 1 hpaid rfl
      (.sendToAddress 7 1000000000 (by decide)) fun _ hnext => hnext
    exact ⟨_, _, hpaidToo, by decide, by decide⟩
  · have hlost := run_rpc (promptNode .sample) 0 hloaded rfl
      (.lost 7 1000000000 ⟨-1, "timed out"⟩ (by decide)) fun _ hnext => hnext
    have hselectToo := run_sql (promptNode .sample) 1 hlost rfl fun _ hnext => hnext
    have hsumToo := run_sql (promptNode .sample) 1 hselectToo rfl fun _ hnext => hnext
    have hloadedToo := run_rpc (promptNode .sample) 1 hsumToo rfl .listWallets fun _ hnext => hnext
    have hpaidToo := run_rpc (promptNode .sample) 1 hloadedToo rfl
      (.sendToAddress 7 1000000000 (by decide)) fun _ hnext => hnext
    exact ⟨_, _, hpaidToo, rfl, by decide, by decide⟩

end Sample

end FirstIslamicCoin.StakingService
