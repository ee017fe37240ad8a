import FirstIslamicCoin.Core.RelyGuarantee
import FirstIslamicCoin.StakingService.Attribution

/-!
# A pass of the watcher beside others

What a pass does when other passes run at the same time.  A pass knows the rows it has
read, which may have changed since, and the replies of the node.  The rules name what has
to be known about the two statements by which it changes the tables, marking a deposit and
recording a reward; what a pass has seen to when it is done is stated in the same terms.
-/

namespace FirstIslamicCoin.StakingService

open Program

section Pass

variable {Node : Type} (config : PoolConfig)
  (fact : (request : Request) → request.Response → Prop)

/-- The replies by which a pass attributes a coinstake to a deposit. -/
structure Due (dep : StakeDeposit) (txid : TxId) (tx : RawTx) (total : ℤ) : Prop where
  spent : ∃ funding, dep.funding = some funding ∧
    fact (.rpc (.getTxOut funding)) (Except.ok false)
  listed : ∃ history : List TxId,
    fact (.rpc (.listTransactions (.deposit dep.id) 50)) (.ok history) ∧ txid ∈ history
  shown : fact (.rpc (.getRawTransaction txid)) (.ok tx)
  coinstake : tx.isCoinstake = true
  spends : dep.funding.any tx.spends = true
  total : SumsInputs config fact tx.vin total

variable (answers : PoolStore Node → (request : Request) → request.Response → PoolStore Node → Prop)
  (good : PoolStore Node → Prop) (rely : PoolStore Node → PoolStore Node → Prop)
  (marked : StakeDeposit → PoolStore Node → Prop)

/-- What a pass needs to know: the replies of the node are facts, the changes all passes
make are within `rely` and leave a good store good, and so are its own, given a row as it
was read and the replies. -/
structure PassRules : Prop where
  refl : ∀ store, rely store store
  trans : ∀ first second third, rely first second → rely second third → rely first third
  good_later : ∀ store later, good store → rely store later → good later
  statements : ∀ store statement rows next, answers store (.sql statement) rows next →
    rows = (store.db.execute statement).1 ∧ next.db = (store.db.execute statement).2
  quiet : ∀ store (call : RpcCall) reply next, call.isQuiet = true →
    answers store (.rpc call) reply next → rely store next ∧ fact (.rpc call) reply
  query : ∀ store (statement : Statement) rows next, statement.isQuery = true →
    answers store (.sql statement) rows next → rely store next
  activates : ∀ read store (dep : StakeDeposit) (u : Unspent) (others : List Unspent) rows next,
    good read → rely read store → dep ∈ read.db.deposits → dep.status = .awaitingFunds →
      fact (.rpc (.listUnspent dep.depositAddress)) (.ok (u :: others)) →
        answers store (.sql (.activateDeposit dep.id u.outpoint (config.fromNode u.amount))) rows
          next → rely store next ∧ marked dep next
  unlisted : ∀ read store (dep : StakeDeposit), good read → rely read store →
    dep ∈ read.db.deposits → fact (.rpc (.listUnspent dep.depositAddress)) (Except.ok []) →
      marked dep store
  marked_later : ∀ dep store later, marked dep store → rely store later → marked dep later
  records : ∀ read store (dep : StakeDeposit) txid tx total rows next,
    good read → rely read store → dep ∈ read.db.deposits → dep.status = .active →
      Due config fact dep txid tx total →
        answers store (.sql (.insertReward
          (rewardRow config dep.id txid (tx.outTotal config - total)))) rows next → rely store next
  recorded_later : ∀ txid store later, Recorded txid store.db → rely store later →
    Recorded txid later.db

/-- An entry of the history of a deposit has a row, or is not a coinstake of the deposit. -/
def Handled (dep : StakeDeposit) (txid : TxId) (store : PoolStore Node) : Prop :=
  Recorded txid store.db ∨ ∃ reply : Except RpcError RawTx,
    fact (.rpc (.getRawTransaction txid)) reply ∧
      ∀ tx, reply = .ok tx → (tx.isCoinstake && dep.funding.any tx.spends) = false

/-- The pass has dealt with an active deposit. -/
def Settles (dep : StakeDeposit) (store : PoolStore Node) : Prop :=
  ∀ funding, dep.funding = some funding → ∃ reply : Except RpcError Bool,
    fact (.rpc (.getTxOut funding)) reply ∧
      (reply = .ok false → ∃ history : List TxId,
        fact (.rpc (.listTransactions (.deposit dep.id) 50)) (.ok history) ∧
          ∀ txid ∈ history, Handled fact dep txid store)

/-- What a pass has seen to when it is done: the deposits that awaited funds when it began,
and those that were active when it went on to the rewards. -/
def Completed (store : PoolStore Node) : Prop :=
  ∃ start middle, good start ∧ rely start middle ∧ rely middle store ∧
    (∀ dep ∈ start.db.deposits, dep.status = .awaitingFunds → marked dep middle) ∧
    ∀ dep ∈ middle.db.deposits, dep.status = .active → Settles fact dep store

namespace PassRules

variable {config fact answers good rely marked}
  (hrules : PassRules config fact answers good rely marked)
  {store : PoolStore Node}

include hrules

variable {dep : StakeDeposit} {read : PoolStore Node}

theorem handled_later {txid : TxId} {later : PoolStore Node}
    (hhandled : Handled fact dep txid store) (hrely : rely store later) :
    Handled fact dep txid later :=
  hhandled.imp_left fun hrecorded => hrules.recorded_later txid store later hrecorded hrely

theorem settles_later {later : PoolStore Node} (hsettles : Settles fact dep store)
    (hrely : rely store later) : Settles fact dep later := by
  intro funding hfunding
  obtain ⟨reply, hreply, hspent⟩ := hsettles funding hfunding
  refine ⟨reply, hreply, fun hfalse => ?_⟩
  obtain ⟨history, hhistory, hhandled⟩ := hspent hfalse
  exact ⟨history, hhistory, fun txid hmem => hrules.handled_later (hhandled txid hmem) hrely⟩

theorem sustains_tryCall {asked : RpcCall} (hquiet : asked.isQuiet = true) :
    (tryCall asked).Sustains answers rely rely
      (fun reply final => rely store final ∧ fact (.rpc asked) reply) store := by
  intro later hrely reply next hanswer
  obtain ⟨hstep, hfact⟩ := hrules.quiet later asked reply next hquiet hanswer
  refine ⟨hstep, fun last hlast => ⟨?_, hfact⟩⟩
  exact hrules.trans _ _ _ hrely (hrules.trans _ _ _ hstep hlast)

theorem sustains_call {asked : RpcCall} (hquiet : asked.isQuiet = true) :
    (call asked).Sustains answers rely rely
      (fun result final => rely store final ∧ fact (.rpc asked) (.ok result)) store := by
  intro later hrely reply next hanswer
  obtain ⟨hstep, hfact⟩ := hrules.quiet later asked reply next hquiet hanswer
  refine ⟨hstep, ?_⟩
  cases reply with
  | error error => trivial
  | ok result =>
    refine fun last hlast => ⟨?_, hfact⟩
    exact hrules.trans _ _ _ hrely (hrules.trans _ _ _ hstep hlast)

/-- A query answers from the tables at some moment. -/
theorem sustains_query {statement : Statement} (hquery : statement.isQuery = true) :
    (sql statement).Sustains answers rely rely
      (fun rows final => ∃ read, rely store read ∧ rows = (read.db.execute statement).1 ∧
        rely read final) store := by
  intro later hrely rows next hanswer
  have hstep := hrules.query later statement rows next hquery hanswer
  refine ⟨hstep, fun last hlast => ⟨later, hrely, ?_, hrules.trans _ _ _ hstep hlast⟩⟩
  exact (hrules.statements later statement rows next hanswer).1

theorem sustains_ensurePoolWalletLoaded :
    (ensurePoolWalletLoaded config).Sustains answers rely rely
      (fun _ final => rely store final) store := by
  refine sustains_bind hrules.refl ((hrules.sustains_call rfl).mono ?_)
  rintro loaded middle ⟨hmiddle, _⟩
  split_ifs
  · exact fun last hlast => hrules.trans _ _ _ hmiddle hlast
  · refine sustains_bind hrules.refl ((hrules.sustains_tryCall rfl).mono ?_)
    rintro reply second ⟨hsecond, _⟩
    have hboth := hrules.trans _ _ _ hmiddle hsecond
    cases reply with
    | ok _ => exact fun last hlast => hrules.trans _ _ _ hboth hlast
    | error error =>
      refine sustains_bind hrules.refl ((hrules.sustains_call rfl).mono ?_)
      rintro onDisk third ⟨hthird, _⟩
      have hall := hrules.trans _ _ _ hboth hthird
      split_ifs
      · trivial
      · refine sustains_bind hrules.refl ((hrules.sustains_call rfl).mono ?_)
        rintro _ fourth ⟨hfourth, _⟩ last hlast
        exact hrules.trans _ _ _ hall (hrules.trans _ _ _ hfourth hlast)

theorem sustains_markFundedDeposit (hgood : good read) (hread : rely read store)
    (hdep : dep ∈ read.db.deposits) (hawaiting : dep.status = .awaitingFunds) :
    (markFundedDeposit config dep).Sustains answers rely rely
      (fun _ final => rely store final ∧ marked dep final) store := by
  refine sustains_bind hrules.refl ((hrules.sustains_call rfl).mono ?_)
  rintro (utxos : List Unspent) middle ⟨hmiddle, hlisted⟩
  have hsince := hrules.trans _ _ _ hread hmiddle
  cases utxos with
  | nil =>
    have hmarked := hrules.unlisted read middle dep hgood hsince hdep hlisted
    exact fun last hlast => ⟨hrules.trans _ _ _ hmiddle hlast,
      hrules.marked_later dep middle last hmarked hlast⟩
  | cons u others =>
    intro later hlater rows next hanswer
    obtain ⟨hstep, hmarked⟩ := hrules.activates read later dep u others rows next
      hgood (hrules.trans _ _ _ hsince hlater) hdep hawaiting hlisted hanswer
    refine ⟨hstep, fun last hlast => ⟨?_, hrules.marked_later dep next last hmarked hlast⟩⟩
    exact hrules.trans _ _ _ (hrules.trans _ _ _ hmiddle hlater) (hrules.trans _ _ _ hstep hlast)

theorem sustains_markFundedDeposits (hgood : good store) :
    (markFundedDeposits config).Sustains answers rely rely
      (fun _ final => ∃ start, good start ∧ rely start final ∧
        ∀ dep ∈ start.db.deposits, dep.status = .awaitingFunds → marked dep final) store := by
  refine sustains_bind hrules.refl 
    (hrules.sustains_ensurePoolWalletLoaded.mono fun _ loaded hloaded => ?_)
  refine sustains_bind hrules.refl ((hrules.sustains_query rfl).mono ?_)
  rintro _ current ⟨start, hstart, rfl, hcurrent⟩
  have hgoodStart := hrules.good_later store start hgood (hrules.trans _ _ _ hloaded hstart)
  refine (sustains_foldEach_forall marked hrules.refl hrules.trans hrules.marked_later
    (fun dep hmem _ state hstate => ?_) () hcurrent).mono ?_
  · obtain ⟨hdep, hstatus⟩ := List.mem_filter.mp hmem
    exact hrules.sustains_markFundedDeposit hgoodStart hstate hdep (of_decide_eq_true hstatus)
  · rintro _ final ⟨hfinal, hmarked⟩
    refine ⟨start, hgoodStart, hfinal, fun dep hdep hawaiting => hmarked dep ?_⟩
    exact List.mem_filter.mpr ⟨hdep, decide_eq_true hawaiting⟩

theorem sustains_inTotal (tx : RawTx) :
    (inTotal config tx).Sustains answers rely rely
      (fun total final => rely store final ∧ SumsInputs config fact tx.vin total) store := by
  -- the sum so far and the inputs still to come make up the whole
  refine (sustains_foldEach (fun inputs total state => rely store state ∧
    ∀ rest, SumsInputs config fact inputs rest → SumsInputs config fact tx.vin (total + rest))
    hrules.refl ?_ ?_ ⟨hrules.refl store, ?_⟩).mono ?_
  · rintro inputs total state later ⟨hstate, hsums⟩ hlater
    exact ⟨hrules.trans _ _ _ hstate hlater, hsums⟩
  · rintro vin inputs total state ⟨hstate, hsums⟩
    cases vin with
    | none => trivial
    | some prevout =>
      refine sustains_bind hrules.refl (sustains_bind hrules.refl
        ((hrules.sustains_call rfl).mono ?_))
      rintro (prevtx : RawTx) middle ⟨hmiddle, hshown⟩
      cases hout : prevtx.vout[prevout.vout]? with
      | none => trivial
      | some out =>
        intro last hlast final hfinal
        refine ⟨hrules.trans _ _ _ hstate (hrules.trans _ _ _ hmiddle
          (hrules.trans _ _ _ hlast hfinal)), fun rest hrest => ?_⟩
        rw [add_assoc]
        exact hsums _ (.cons hshown hout hrest)
  · intro rest hrest
    rwa [zero_add]
  · rintro total final ⟨hfinal, hsums⟩
    refine ⟨hfinal, ?_⟩
    have htotal := hsums 0 .nil
    rwa [add_zero] at htotal

theorem sustains_attributeReward {funding : OutPoint} {history : List TxId} {txid : TxId}
    (hgood : good read) (hread : rely read store) (hdep : dep ∈ read.db.deposits)
    (hactive : dep.status = .active) (hfunding : dep.funding = some funding)
    (hspent : fact (.rpc (.getTxOut funding)) (Except.ok false))
    (hhistory : fact (.rpc (.listTransactions (.deposit dep.id) 50)) (.ok history))
    (hmem : txid ∈ history) :
    (attributeReward config dep txid).Sustains answers rely rely
      (fun _ final => rely store final ∧ Handled fact dep txid final) store := by
  refine sustains_bind hrules.refl ((hrules.sustains_query rfl).mono ?_)
  rintro (already : Bool) current ⟨asked, hasked, halready, hcurrent⟩
  have hsince := hrules.trans _ _ _ hasked hcurrent
  split_ifs with hknown
  · have hany : (asked.db.rewards.any fun reward => reward.coinstakeTxid = txid) = true :=
      halready.symm.trans hknown
    obtain ⟨reward, hreward, heq⟩ := List.any_eq_true.mp hany
    have hrecorded := hrules.recorded_later txid asked current
      ⟨reward, hreward, of_decide_eq_true heq⟩ hcurrent
    exact fun last hlast => ⟨hrules.trans _ _ _ hsince hlast,
      .inl (hrules.recorded_later txid current last hrecorded hlast)⟩
  · refine sustains_bind hrules.refl ((hrules.sustains_tryCall rfl).mono ?_)
    rintro (reply : Except RpcError RawTx) middle ⟨hmiddle, hshown⟩
    have hso := hrules.trans _ _ _ hsince hmiddle
    cases reply with
    | error error =>
      exact fun last hlast => ⟨hrules.trans _ _ _ hso hlast, .inr ⟨_, hshown, nofun⟩⟩
    | ok tx =>
      dsimp only
      split_ifs with hstakes
      · refine sustains_bind hrules.refl ((hrules.sustains_inTotal tx).mono ?_)
        rintro total summed ⟨hsummed, htotal⟩ later hlater rows next hanswer
        have hnow := hrules.trans _ _ _ hso (hrules.trans _ _ _ hsummed hlater)
        obtain ⟨hcoinstake, hspends⟩ := Bool.and_eq_true_iff.mp hstakes
        have hstep := hrules.records read later dep txid tx total rows next
          hgood (hrules.trans _ _ _ hread hnow) hdep hactive
          ⟨⟨funding, hfunding, hspent⟩, ⟨history, hhistory, hmem⟩, hshown, hcoinstake, hspends,
            htotal⟩ hanswer
        have hrecorded : Recorded txid next.db := by
          rw [(hrules.statements later _ rows next hanswer).2]
          exact recorded_insertReward (rewardRow config dep.id txid (tx.outTotal config - total))
            later.db
        refine ⟨hstep, fun last hlast => ⟨?_, .inl ?_⟩⟩
        · exact hrules.trans _ _ _ hnow (hrules.trans _ _ _ hstep hlast)
        · exact hrules.recorded_later txid next last hrecorded hlast
      · refine fun last hlast => ⟨hrules.trans _ _ _ hso hlast, .inr ⟨_, hshown, ?_⟩⟩
        intro shown hsame
        obtain rfl := Except.ok.inj hsame
        exact Bool.eq_false_iff.mpr hstakes

theorem sustains_attributeDeposit (hgood : good read) (hread : rely read store)
    (hdep : dep ∈ read.db.deposits) (hactive : dep.status = .active) :
    (attributeDeposit config dep).Sustains answers rely rely
      (fun _ final => rely store final ∧ Settles fact dep final) store := by
  rw [attributeDeposit]
  cases hfunding : dep.funding with
  | none =>
    refine fun last hlast => ⟨hlast, fun funding hsome => ?_⟩
    cases hfunding.symm.trans hsome
  | some funding =>
    have honly : ∀ other, dep.funding = some other → other = funding := fun other hother =>
      Option.some.inj (hother.symm.trans hfunding)
    refine sustains_bind hrules.refl ((hrules.sustains_tryCall rfl).mono ?_)
    rintro (reply : Except RpcError Bool) current ⟨hcurrent, hreply⟩
    cases reply with
    | error error =>
      refine fun last hlast => ⟨hrules.trans _ _ _ hcurrent hlast, fun other hother => ?_⟩
      rw [honly other hother]
      exact ⟨_, hreply, fun hfalse => by cases hfalse⟩
    | ok stillUnspent =>
      dsimp only
      split_ifs with hunspent
      · refine fun last hlast => ⟨hrules.trans _ _ _ hcurrent hlast, fun other hother => ?_⟩
        rw [honly other hother]
        refine ⟨_, hreply, fun hfalse => ?_⟩
        rw [hunspent] at hfalse
        cases hfalse
      · have hspent : fact (.rpc (.getTxOut funding)) (Except.ok false) := by
          rwa [Bool.eq_false_iff.mpr hunspent] at hreply
        refine sustains_bind hrules.refl ((hrules.sustains_call rfl).mono ?_)
        rintro (history : List TxId) listed ⟨hlisted, hhistory⟩
        have hsince := hrules.trans _ _ _ hcurrent hlisted
        refine (sustains_foldEach_forall (Handled fact dep) hrules.refl hrules.trans
          (fun _ _ _ => hrules.handled_later) (fun txid hmem _ state hstate => ?_) ()
          hsince).mono ?_
        · exact hrules.sustains_attributeReward hgood (hrules.trans _ _ _ hread hstate) hdep
            hactive hfunding hspent hhistory hmem
        · rintro _ final ⟨hfinal, hhandled⟩
          refine ⟨hfinal, fun other hother => ?_⟩
          rw [honly other hother]
          exact ⟨_, hspent, fun _ => ⟨history, hhistory, hhandled⟩⟩

theorem sustains_attributeRewards (hgood : good store) :
    (attributeRewards config).Sustains answers rely rely
      (fun _ final => ∃ middle, rely store middle ∧ rely middle final ∧
        ∀ dep ∈ middle.db.deposits, dep.status = .active → Settles fact dep final) store := by
  refine sustains_bind hrules.refl
    (hrules.sustains_ensurePoolWalletLoaded.mono fun _ loaded hloaded => ?_)
  refine sustains_bind hrules.refl ((hrules.sustains_query rfl).mono ?_)
  rintro _ current ⟨middle, hmiddle, rfl, hcurrent⟩
  have hgoodMiddle := hrules.good_later store middle hgood (hrules.trans _ _ _ hloaded hmiddle)
  refine (sustains_foldEach_forall (Settles fact) hrules.refl hrules.trans
    (fun _ _ _ => hrules.settles_later) (fun dep hmem _ state hstate => ?_) () hcurrent).mono ?_
  · obtain ⟨hdep, hstatus⟩ := List.mem_filter.mp hmem
    exact hrules.sustains_attributeDeposit hgoodMiddle hstate hdep (of_decide_eq_true hstatus)
  · rintro _ final ⟨hfinal, hsettles⟩
    refine ⟨middle, hrules.trans _ _ _ hloaded hmiddle, hfinal, fun dep hdep hactive => ?_⟩
    exact hsettles dep (List.mem_filter.mpr ⟨hdep, decide_eq_true hactive⟩)

/-- A pass beside others. -/
theorem sustains_runWatcherPass (hgood : good store) :
    (runWatcherPass config).Sustains answers rely rely
      (fun _ final => Completed fact good rely marked final) store := by
  refine sustains_bind hrules.refl ((hrules.sustains_markFundedDeposits hgood).mono ?_)
  rintro _ current ⟨start, hgoodStart, hcurrent, hmarked⟩
  have hgoodCurrent := hrules.good_later start current hgoodStart hcurrent
  refine (hrules.sustains_attributeRewards hgoodCurrent).mono ?_
  rintro _ final ⟨middle, hmiddle, hfinal, hsettles⟩
  refine ⟨start, middle, hgoodStart, hrules.trans _ _ _ hcurrent hmiddle, hfinal, ?_, hsettles⟩
  exact fun dep hdep hawaiting =>
    hrules.marked_later dep current middle (hmarked dep hdep hawaiting) hmiddle

end PassRules

end Pass

end FirstIslamicCoin.StakingService
