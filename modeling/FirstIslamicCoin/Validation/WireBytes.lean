import FirstIslamicCoin.Validation.Restamping

/-!
# Blocks in memory and on the wire

The timestamp of a transaction of version 2 or more is not written, yet
`AddCoins` stores it in every coin the transaction creates.  Two blocks in
memory with the same bytes therefore agree on everything but these timestamps.
If they agree on those as well, `ConnectBlock` cannot tell them apart.
Otherwise verdict and coins are the same exactly in two cases: no block with
these bytes is accepted on the view, or the timestamps pass the tests on them
in both blocks or in neither and, if they pass, agree on every transaction that
leaves a coin behind.
-/

namespace FirstIslamicCoin

open Outcome ByteCodec

section Block

variable {first second : CBlock}

/-- Two blocks with the same bytes differ at most in their flags and in
timestamps that are not written. -/
theorem sameWire_of_serializeBlock_eq {posMarker : Bool}
    (hfirst : first.Fits (2 ^ 64 - 1)) (hsecond : second.Fits (2 ^ 64 - 1))
    (hbytes : serializeBlock posMarker true first = serializeBlock posMarker true second) :
    second.toCBlockHeader = { first.toCBlockHeader with nFlags := second.toCBlockHeader.nFlags } ∧
      List.Forall₂ SameWire first.vtx second.vtx ∧
      second.vchBlockSig = first.vchBlockSig := by
  have hread := readBlock_recovers (by decide) posMarker true hfirst
  rw [hbytes] at hread
  have heq := hread.unique (readBlock_recovers (by decide) posMarker true hsecond)
  simp only [CBlock.wireForm, CBlock.mk.injEq] at heq
  obtain ⟨hheader, hvtx, hsig⟩ := heq
  refine ⟨?_, ?_, hsig.symm⟩
  · simp only [CBlockHeader.wireForm, CBlockHeader.mk.injEq] at hheader ⊢
    obtain ⟨hversion, hprev, hroot, htime, hbits, hnonce, _⟩ := hheader
    cases hheaders : second.toCBlockHeader
    simp_all
  · rw [← List.forall₂_eq_eq_eq, List.forall₂_map_left_iff, List.forall₂_map_right_iff] at hvtx
    exact hvtx.imp fun _ _ => SameWire.of_wireForm_eq

theorem vtx_eq_of_nTime_eq {vtx others : List CTransaction}
    (hsame : List.Forall₂ SameWire vtx others)
    (htimes : others.map CTransaction.nTime = vtx.map CTransaction.nTime) : others = vtx := by
  induction hsame with
  | nil => rfl
  | cons hhead _ ih =>
    obtain ⟨htime, hrest⟩ := List.cons.inj htimes
    rw [hhead.eq_of_nTime_eq htime, ih hrest]

/-- `ConnectBlock` does not read the flags of the header. -/
theorem connectBlock_nFlags (setting : Setting) (pindex : IndexChain)
    (prevModifier : UInt256) (view : CoinsView) (bestBlock : UInt256)
    (block : CBlock) (nFlags : UInt32) (fJustCheck : Bool) :
    connectBlock setting pindex prevModifier view bestBlock
        { block with nFlags := nFlags } fJustCheck =
      connectBlock setting pindex prevModifier view bestBlock block fJustCheck :=
  rfl

end Block

/-- Corresponding transactions of two lists carry the same timestamp, unless
every spendable output of theirs is spent later in the list. -/
def KeptStampsAgree (env : External) :
    List CTransaction → List CTransaction → Prop
  | tx :: vtx, other :: others =>
      (other.nTime = tx.nTime ∨
        ∀ position out, tx.vout[position]? = some out →
          out.scriptPubKey.isUnspendable = false →
            ∃ later ∈ vtx, tx.outPoint env position ∈ later.prevouts) ∧
      KeptStampsAgree env vtx others
  | _, _ => True

section Views

variable {env : External} {nHeight : ℤ} {view otherView : CoinsView}
  {tx other : CTransaction} {vtx others : List CTransaction} {outpoint : COutPoint}

theorem CoinsView.lookup_applyTx_of_notMem
    (hnotMem : outpoint ∉ (tx.newCoins env nHeight).map Prod.fst) :
    (view.applyTx env tx nHeight).lookup outpoint =
      if tx.isCoinBase = false ∧ outpoint ∈ tx.prevouts then none
      else view.lookup outpoint := by
  rw [applyTx, FiniteMap.lookup_insertAll_of_notMem hnotMem]
  cases tx.isCoinBase with
  | true => simp
  | false => simp [FiniteMap.lookup_eraseAll]

theorem SameWire.lookup_applyTx_ne (hsame : SameWire tx other)
    (hne : (view.applyTx env tx nHeight).lookup outpoint ≠
      (otherView.applyTx env other nHeight).lookup outpoint) :
    (view.lookup outpoint ≠ otherView.lookup outpoint ∧
        ¬ (tx.isCoinBase = false ∧ outpoint ∈ tx.prevouts)) ∨
      (other.nTime ≠ tx.nTime ∧
        outpoint ∈ (tx.newCoins env nHeight).map Prod.fst) := by
  by_cases hmem : outpoint ∈ (tx.newCoins env nHeight).map Prod.fst
  · refine .inr ⟨fun htime => hne ?_, hmem⟩
    rw [hsame.eq_of_nTime_eq htime]
    exact FiniteMap.lookup_insertAll_congr _ _ hmem
  · left
    have hother : outpoint ∉ (other.newCoins env nHeight).map Prod.fst := by
      rwa [hsame.newCoins_keys_eq]
    rw [CoinsView.lookup_applyTx_of_notMem hmem,
      CoinsView.lookup_applyTx_of_notMem hother, hsame.isCoinBase_eq, hsame.prevouts_eq] at hne
    split_ifs at hne with hspent
    · exact absurd rfl hne
    · exact ⟨hne, hspent⟩

/-- Views that differ only where a later transaction spends end up equal. -/
theorem applyAll_eq_of_keptStampsAgree (hsame : List.Forall₂ SameWire vtx others)
    (hkept : KeptStampsAgree env vtx others) (hrest : ∀ tx ∈ vtx.tail, tx.isCoinBase = false)
    (hdiffer : ∀ outpoint, view.lookup outpoint ≠ otherView.lookup outpoint →
      ∃ later ∈ vtx, later.isCoinBase = false ∧ outpoint ∈ later.prevouts) :
    view.applyAll env nHeight vtx = otherView.applyAll env nHeight others := by
  induction hsame generalizing view otherView with
  | nil =>
    ext1 outpoint
    by_contra hne
    obtain ⟨later, hmem, _⟩ := hdiffer outpoint hne
    exact absurd hmem List.not_mem_nil
  | @cons tx other vtx others hhead htail ih =>
    obtain ⟨hstamps, hkeptRest⟩ := hkept
    refine ih hkeptRest (fun later hmem => hrest later (List.mem_of_mem_tail hmem)) ?_
    intro outpoint hne
    rcases hhead.lookup_applyTx_ne hne with ⟨hbefore, hunspent⟩ | ⟨htime, hnew⟩
    · obtain ⟨later, hmem, hspends⟩ := hdiffer outpoint hbefore
      rcases List.mem_cons.mp hmem with rfl | hlater
      · exact absurd hspends hunspent
      · exact ⟨later, hlater, hspends⟩
    · obtain ⟨entry, hentry, rfl⟩ := List.mem_map.mp hnew
      obtain ⟨out, position, hout, hspendable, rfl⟩ := CTransaction.exists_of_mem_newCoins hentry
      obtain ⟨later, hlater, hspends⟩ := hstamps.resolve_left htime position out hout hspendable
      exact ⟨later, hlater, hrest later hlater, hspends⟩

end Views

section Accepted

variable {setting : Setting} {pindex pprev : IndexChain} {index : CBlockIndex}
  {state otherState final otherFinal : ConnectState} {vtx others : List CTransaction}

/-- A pass that does not spend a coin leaves it as it is. -/
theorem connectTx_keeps {entry : CTransaction × ℕ} {next : ConnectState} {outpoint : COutPoint}
    {coin : Coin} (hnot : entry.1.isCoinBase = false) (hunspent : outpoint ∉ entry.1.prevouts)
    (hstep : connectTx setting pindex index state entry = .ok next)
    (hlookup : state.view.lookup outpoint = some coin) : next.view.lookup outpoint = some coin := by
  obtain ⟨_, _, txundo, hupdate, _⟩ := connectTx_eq_ok hstep
  obtain ⟨_, _, _, hfresh⟩ := CoinsView.updateCoins_spends hnot hupdate
  have hnotNew : outpoint ∉ (entry.1.newCoins setting.env index.nHeight).map Prod.fst := by
    intro hmem
    obtain ⟨new, hnew, rfl⟩ := List.mem_map.mp hmem
    have hnone := hfresh new hnew
    rw [FiniteMap.lookup_eraseAll, if_neg hunspent, hlookup] at hnone
    exact Option.some_ne_none coin hnone
  rw [CoinsView.updateCoins_eq_ok hupdate,
    CoinsView.lookup_applyTx_of_notMem hnotNew, if_neg (fun hspent => hunspent hspent.2)]
  exact hlookup

theorem connectTxs_keeps {entries : List (CTransaction × ℕ)} {outpoint : COutPoint}
    {coin : Coin} (hnot : ∀ entry ∈ entries, entry.1.isCoinBase = false)
    (hunspent : ∀ entry ∈ entries, outpoint ∉ entry.1.prevouts)
    (hrun : loop (connectTx setting pindex index) state entries = .ok final)
    (hlookup : state.view.lookup outpoint = some coin) :
    final.view.lookup outpoint = some coin := by
  refine loop_invariant (fun current => current.view.lookup outpoint = some coin) ?_ hlookup hrun
  intro entry hmem current next hcurrent hstep
  exact connectTx_keeps (hnot entry hmem) (hunspent entry hmem) hstep hcurrent

/-- An output that no later transaction of an accepted list spends is there at
the end, stamped like its transaction. -/
theorem exists_kept_coin {tx : CTransaction} {next : ConnectState} {offset : ℕ}
    {position : ℕ} {out : CTxOut} (hlength : tx.vout.length ≤ 2 ^ 32)
    (hout : tx.vout[position]? = some out) (hspendable : out.scriptPubKey.isUnspendable = false)
    (hnot : ∀ later ∈ vtx, later.isCoinBase = false)
    (hunspent : ∀ later ∈ vtx, tx.outPoint setting.env position ∉ later.prevouts)
    (hstep : connectTx setting pindex index state (tx, offset) = .ok next)
    (hrun : loop (connectTx setting pindex index) next (vtx.zipIdx (offset + 1)) = .ok final) :
    final.view.lookup (tx.outPoint setting.env position) = some (tx.coinOf index.nHeight out) := by
  refine connectTxs_keeps (fun entry hmem => hnot entry.1 (List.fst_mem_of_mem_zipIdx hmem))
    (fun entry hmem => hunspent entry.1 (List.fst_mem_of_mem_zipIdx hmem)) hrun ?_
  rw [connectTx_view hstep]
  exact FiniteMap.lookup_insertAll_of_mem (CTransaction.nodup_newCoins hlength)
    (CTransaction.mem_newCoins index.nHeight hout hspendable)

section

variable (hsame : List.Forall₂ SameWire vtx others)

include hsame

/-- Equal views after two accepted lists force the timestamps to agree wherever
a coin is left behind. -/
theorem keptStampsAgree_of_view_eq {offset : ℕ} (hlength : ∀ tx ∈ vtx, tx.vout.length ≤ 2 ^ 32)
    (hrest : ∀ tx ∈ vtx.tail, tx.isCoinBase = false)
    (hrun : loop (connectTx setting pindex index) state (vtx.zipIdx offset) = .ok final)
    (hotherRun : loop (connectTx setting pindex index) otherState
      (others.zipIdx offset) = .ok otherFinal) (hview : final.view = otherFinal.view) :
    KeptStampsAgree setting.env vtx others := by
  induction hsame generalizing offset state otherState with
  | nil => trivial
  | @cons tx other vtx others hhead htail ih =>
    obtain ⟨hlengthHead, hlengthRest⟩ := List.forall_mem_cons.mp hlength
    rw [List.zipIdx_cons, loop_cons_eq_ok] at hrun hotherRun
    obtain ⟨next, hstep, hloop⟩ := hrun
    obtain ⟨otherNext, hotherStep, hotherLoop⟩ := hotherRun
    refine ⟨?_, ih hlengthRest
      (fun later hmem => hrest later (List.mem_of_mem_tail hmem)) hloop hotherLoop⟩
    by_contra hnone
    push Not at hnone
    obtain ⟨htime, position, out, hout, hspendable, hunspent⟩ := hnone
    have hcoin := exists_kept_coin hlengthHead hout hspendable hrest hunspent hstep hloop
    rw [← hhead.vout_eq] at hlengthHead hout
    rw [← hhead.outPoint_eq] at hunspent hcoin
    have hotherCoin := exists_kept_coin hlengthHead hout hspendable
      (forall_restamped htail (fun _ _ hwire => hwire.isCoinBase_eq.trans) hrest)
      (forall_restamped htail (fun _ _ hwire hnot => hwire.prevouts_eq ▸ hnot) hunspent)
      hotherStep hotherLoop
    rw [hview, hotherCoin, Option.some.injEq] at hcoin
    exact htime (congrArg Coin.nTime hcoin)

end

theorem ConnectRun.view_eq_iff {prevModifier : UInt256} {view : CoinsView}
    {first second : CBlock} {connected otherConnected : Connected}
    (hfirst : ConnectRun setting pprev index prevModifier view first connected final)
    (hsecond : ConnectRun setting pprev index prevModifier view second otherConnected otherFinal)
    (hsame : List.Forall₂ SameWire first.vtx second.vtx) :
    connected.view = otherConnected.view ↔
      KeptStampsAgree setting.env first.vtx second.vtx := by
  have hlength : ∀ tx ∈ first.vtx, tx.vout.length ≤ 2 ^ 32 := fun tx hmem =>
    (hfirst.checked.checked tx hmem).length_vout_le.trans (by decide)
  have hrest : ∀ tx ∈ first.vtx.tail, tx.isCoinBase = false := by
    obtain ⟨coinbase, rest, hvtx, _, hothers⟩ := hfirst.checked.head_coinbase
    rw [hvtx]
    exact hothers
  rw [hfirst.view_eq, hsecond.view_eq]
  constructor
  · exact keptStampsAgree_of_view_eq hsame hlength hrest hfirst.run hsecond.run
  · intro hkept
    rw [hfirst.ledger.view_eq, hsecond.ledger.view_eq]
    exact applyAll_eq_of_keptStampsAgree hsame hkept hrest (fun outpoint hne => absurd rfl hne)

end Accepted

section Coins

variable (setting : Setting) (pindex : IndexChain) (prevModifier : UInt256)
  (view : CoinsView) (bestBlock : UInt256) (fJustCheck : Bool)

/-- The verdict of `ConnectBlock` and the coins that result: none for a block
that is refused. -/
def coinsAfter (block : CBlock) : Option CoinsView :=
  (connectBlock setting pindex prevModifier view bestBlock block fJustCheck).toOption.map
    Connected.view

variable {setting pindex prevModifier view bestBlock fJustCheck}
  {pprev : IndexChain} {index : CBlockIndex} {block first second : CBlock}

theorem coinsAfter_isSome :
    (coinsAfter setting pindex prevModifier view bestBlock fJustCheck block).isSome = true ↔
      ∃ connected, connectBlock setting pindex prevModifier view bestBlock block fJustCheck =
        .ok connected := by
  rw [coinsAfter, Option.isSome_map]
  cases connectBlock setting pindex prevModifier view bestBlock block fJustCheck <;>
    simp [Except.toOption]

section

variable {posMarker : Bool} (hfirst : first.Fits (2 ^ 64 - 1)) (hsecond : second.Fits (2 ^ 64 - 1))
  (hbytes : serializeBlock posMarker true first = serializeBlock posMarker true second)

include hfirst hsecond hbytes

/-- Once a block is accepted, another one with the same bytes is accepted
exactly when its timestamps pass. -/
theorem coinsAfter_isSome_iff (hscripts : setting.env.ScriptsReadWritten)
    (hgenesis : index.hashBlock ≠ setting.params.hashGenesisBlock)
    (haccepted : (coinsAfter setting (index :: pprev) prevModifier view bestBlock fJustCheck
      first).isSome = true) :
    (coinsAfter setting (index :: pprev) prevModifier view bestBlock fJustCheck
        second).isSome = true ↔ StampsPass setting index.nHeight view second := by
  obtain ⟨hheader, hsame, hsig⟩ := sameWire_of_serializeBlock_eq hfirst hsecond hbytes
  obtain ⟨connected, hconnect⟩ := coinsAfter_isSome.mp haccepted
  have hblock : second = { first with vtx := second.vtx, nFlags := second.nFlags } := by
    cases second
    simp only at hheader hsig ⊢
    rw [hsig, hheader]
  have hiff := connectBlock_restamped_iff hsame hscripts hgenesis hconnect
  rw [coinsAfter_isSome, hblock]
  exact hiff.trans ⟨fun hstamps => ⟨⟨hstamps.coinbase, hstamps.coinstake⟩, hstamps.spends⟩,
    fun hstamps => ⟨⟨hstamps.coinbase, hstamps.coinstake⟩, hstamps.spends⟩⟩

theorem coinsAfter_eq_iff (hgenesis : index.hashBlock ≠ setting.params.hashGenesisBlock) :
    coinsAfter setting (index :: pprev) prevModifier view bestBlock fJustCheck first =
        coinsAfter setting (index :: pprev) prevModifier view bestBlock fJustCheck second ↔
      ((coinsAfter setting (index :: pprev) prevModifier view bestBlock fJustCheck
          first).isSome = true ↔
        (coinsAfter setting (index :: pprev) prevModifier view bestBlock fJustCheck
          second).isSome = true) ∧
      ((coinsAfter setting (index :: pprev) prevModifier view bestBlock fJustCheck
          first).isSome = true → KeptStampsAgree setting.env first.vtx second.vtx) := by
  obtain ⟨_, hsame, _⟩ := sameWire_of_serializeBlock_eq hfirst hsecond hbytes
  simp only [coinsAfter]
  cases hconnect : connectBlock setting (index :: pprev) prevModifier view bestBlock first
      fJustCheck <;>
    cases hother : connectBlock setting (index :: pprev) prevModifier view bestBlock second
      fJustCheck <;>
    simp only [Except.toOption, Option.map_none, Option.map_some, Option.isSome_none,
      Option.isSome_some, reduceCtorEq, Bool.false_eq_true, iff_true, iff_false, not_true_eq_false,
      false_and, true_and, false_implies, forall_const, Option.some.injEq, and_true]
  obtain ⟨final, hrun⟩ := connectBlock_run hgenesis hconnect
  obtain ⟨otherFinal, hotherRun⟩ := connectBlock_run hgenesis hother
  exact hrun.view_eq_iff hotherRun hsame

end

end Coins

theorem connectBlock_of_same_bytes (first second : CBlock) (posMarker : Bool)
    (hfirst : first.Fits (2 ^ 64 - 1)) (hsecond : second.Fits (2 ^ 64 - 1))
    (hbytes : serializeBlock posMarker true first = serializeBlock posMarker true second) :
    (second.vtx.map CTransaction.nTime = first.vtx.map CTransaction.nTime →
      ∀ (setting : Setting) (pindex : IndexChain) (prevModifier : UInt256)
        (view : CoinsView) (bestBlock : UInt256) (fJustCheck : Bool),
        connectBlock setting pindex prevModifier view bestBlock first fJustCheck =
          connectBlock setting pindex prevModifier view bestBlock second
            fJustCheck) ∧
    (∀ (setting : Setting) (index : CBlockIndex) (pprev : IndexChain)
        (prevModifier : UInt256) (view : CoinsView) (bestBlock : UInt256) (fJustCheck : Bool),
      setting.env.ScriptsReadWritten →
      index.hashBlock ≠ setting.params.hashGenesisBlock →
      (coinsAfter setting (index :: pprev) prevModifier view bestBlock fJustCheck first =
          coinsAfter setting (index :: pprev) prevModifier view bestBlock fJustCheck second ↔
        ((∃ block, block.Fits (2 ^ 64 - 1) ∧
            serializeBlock posMarker true block = serializeBlock posMarker true first ∧
            (coinsAfter setting (index :: pprev) prevModifier view bestBlock fJustCheck
              block).isSome = true) →
          (StampsPass setting index.nHeight view first ↔
            StampsPass setting index.nHeight view second) ∧
          (StampsPass setting index.nHeight view first →
            KeptStampsAgree setting.env first.vtx second.vtx)))) := by
  obtain ⟨hheader, hsame, hsig⟩ := sameWire_of_serializeBlock_eq hfirst hsecond hbytes
  refine ⟨?_, ?_⟩
  · intro htimes setting pindex prevModifier view bestBlock fJustCheck
    have hvtx := vtx_eq_of_nTime_eq hsame htimes
    have hblock : second = { first with nFlags := second.nFlags } := by
      cases second
      simp only at hheader hvtx hsig ⊢
      rw [hvtx, hsig, hheader]
    rw [hblock]
    exact (connectBlock_nFlags setting pindex prevModifier view bestBlock first
      second.nFlags fJustCheck).symm
  · intro setting index pprev prevModifier view bestBlock fJustCheck hscripts hgenesis
    rw [coinsAfter_eq_iff hfirst hsecond hbytes hgenesis]
    have hiffs : ∀ block, block.Fits (2 ^ 64 - 1) →
        serializeBlock posMarker true block = serializeBlock posMarker true first →
        (coinsAfter setting (index :: pprev) prevModifier view bestBlock fJustCheck
          block).isSome = true → _ :=
      fun block hfits hblock haccepted => And.intro
        (coinsAfter_isSome_iff hfits hfirst hblock hscripts hgenesis haccepted)
        (coinsAfter_isSome_iff hfits hsecond (hblock.trans hbytes) hscripts hgenesis haccepted)
    constructor
    · rintro ⟨hverdict, hkept⟩ ⟨block, hfits, hblock, haccepted⟩
      obtain ⟨hpassFirst, hpassSecond⟩ := hiffs block hfits hblock haccepted
      rw [← hpassFirst, ← hpassSecond]
      exact ⟨hverdict, hkept⟩
    · intro hcondition
      refine ⟨⟨fun haccepted => ?_, fun haccepted => ?_⟩, fun haccepted => ?_⟩
      · obtain ⟨hpassFirst, hpassSecond⟩ := hiffs first hfirst rfl haccepted
        have hpass := (hcondition ⟨first, hfirst, rfl, haccepted⟩).1
        exact hpassSecond.mpr (hpass.mp (hpassFirst.mp haccepted))
      · obtain ⟨hpassFirst, hpassSecond⟩ := hiffs second hsecond hbytes.symm haccepted
        have hpass := (hcondition ⟨second, hsecond, hbytes.symm, haccepted⟩).1
        exact hpassFirst.mpr (hpass.mpr (hpassSecond.mp haccepted))
      · have hpassFirst := (hiffs first hfirst rfl haccepted).1
        exact (hcondition ⟨first, hfirst, rfl, haccepted⟩).2 (hpassFirst.mp haccepted)

section Restamped

open External

/-- A spend of the second premine output.  Its timestamp is not written. -/
def restampedSpend (nTime : UInt32) : CTransaction where
  vin := [⟨⟨ChainType.main.genesisTx.getHash sample, 1⟩, [], 0xffffffff, []⟩]
  vout := [⟨1399999999900000, [0x51]⟩]
  nVersion := 2
  nTime := nTime
  nLockTime := 0

def restampedBlock (nTime : UInt32) : CBlock :=
  firstStakeBlock 100000 [restampedSpend nTime]

def connectRestamped (nTime : UInt32) : Except BlockFailure Connected :=
  connectFirstStake 1789171216 100000 [restampedSpend nTime]

def restampedCoinTime (nTime : UInt32) : Option UInt32 := do
  let connected ← (connectRestamped nTime).toOption
  let coin ← connected.view.lookup ((restampedSpend nTime).outPoint sample 0)
  return coin.nTime

/-- The kernel hash of that coin in the next time slot. -/
def restampedKernelHash (nTime : UInt32) : Option UInt256 := do
  let connected ← (connectRestamped nTime).toOption
  let prevout := (restampedSpend nTime).outPoint sample 0
  let coin ← connected.view.lookup prevout
  return stakeKernelHash sample connected.nStakeModifier
    (coin.stakeTime (firstStakeIndex 100000 [restampedSpend nTime])) prevout 1789171232

theorem exists_of_restampedCoinTime {nTime coinTime : UInt32}
    (htime : restampedCoinTime nTime = some coinTime) :
    ∃ connected, connectRestamped nTime = .ok connected := by
  simp only [restampedCoinTime, Option.bind_eq_bind, Option.bind_eq_some_iff,
    toOption_eq_some] at htime
  obtain ⟨connected, hconnect, _⟩ := htime
  exact ⟨connected, hconnect⟩

/-- The evaluation of the two variants: the coins they leave, what does not depend on the
timestamp, and the kernel hashes. -/
theorem restamped_evaluated :
    (restampedCoinTime 0 = some 0 ∧ restampedCoinTime 1789171210 = some 1789171210) ∧
      (∀ posMarker, serializeBlock posMarker true (restampedBlock 0) =
        serializeBlock posMarker true (restampedBlock 1789171210)) ∧
      firstStakeIndex 100000 [restampedSpend 0] =
        firstStakeIndex 100000 [restampedSpend 1789171210] ∧
      (firstStakeIndex 100000 [restampedSpend 0]).hashBlock ≠
        (ChainType.main.consensus sample).hashGenesisBlock ∧
      (restampedSpend 0).outPoint sample 0 = (restampedSpend 1789171210).outPoint sample 0 ∧
      restampedKernelHash 0 ≠ restampedKernelHash 1789171210 := by
  decide +kernel

theorem restampedCoinTime_timed : restampedCoinTime 1789171210 = some 1789171210 :=
  restamped_evaluated.1.2

theorem fits_restampedBlock :
    (restampedBlock 0).Fits (2 ^ 64 - 1) ∧
      (restampedBlock 1789171210).Fits (2 ^ 64 - 1) := by
  decide

theorem not_keptStampsAgree_restamped :
    ¬ KeptStampsAgree sample (restampedBlock 0).vtx (restampedBlock 1789171210).vtx := by
  rintro ⟨_, _, hlast, _⟩
  rcases hlast with htime | hspent
  · exact absurd htime (by decide)
  · obtain ⟨later, hmem, _⟩ := hspent 0 ⟨1399999999900000, [0x51]⟩ rfl (by decide)
    exact absurd hmem List.not_mem_nil

/-- What a block leaves of the genesis view at the index entry of the variants. -/
def coinsAfterRestamped (block : CBlock) : Option CoinsView :=
  coinsAfter (Setting.sample .main 1789171216 0)
    (firstStakeIndex 100000 [restampedSpend 0] :: (ChainTip.genesis sample .main).pindex)
    (ChainTip.genesis sample .main).nStakeModifier (ChainTip.genesis sample .main).view
    (ChainTip.genesis sample .main).bestBlock false block

/-- The flags of the header make no difference; the timestamp of the spend
does. -/
theorem connectBlock_of_same_bytes_restamped :
    connectRestamped 0 =
        connectBlock (Setting.sample .main 1789171216 0)
          (firstStakeIndex 100000 [restampedSpend 0] ::
            (ChainTip.genesis sample .main).pindex)
          (ChainTip.genesis sample .main).nStakeModifier
          (ChainTip.genesis sample .main).view
          (ChainTip.genesis sample .main).bestBlock
          { restampedBlock 0 with nFlags := 1 } false ∧
      (coinsAfterRestamped (restampedBlock 0)).isSome = true ∧
      coinsAfterRestamped (restampedBlock 0) ≠
        coinsAfterRestamped (restampedBlock 1789171210) := by
  refine ⟨?_, ?_⟩
  · have hfits : ({ restampedBlock 0 with nFlags := 1 } : CBlock).Fits (2 ^ 64 - 1) := by
      decide
    have hbytes : ∀ block : CBlock, serializeBlock false true block =
        serializeBlock false true { block with nFlags := 1 } := fun _ => rfl
    have htimes : ∀ block : CBlock,
        ({ block with nFlags := 1 } : CBlock).vtx.map CTransaction.nTime =
          block.vtx.map CTransaction.nTime := fun _ => rfl
    have hconnect := (connectBlock_of_same_bytes (restampedBlock 0)
      { restampedBlock 0 with nFlags := 1 } false fits_restampedBlock.1 hfits
      (hbytes (restampedBlock 0))).1 (htimes (restampedBlock 0))
    rw [connectRestamped, connectFirstStake, ← restampedBlock]
    exact hconnect _ _ _ _ _ _
  · obtain ⟨⟨huntimed, _⟩, hbytes, _, hgenesis, _, _⟩ := restamped_evaluated
    obtain ⟨connected, hconnect⟩ := exists_of_restampedCoinTime huntimed
    rw [connectRestamped, connectFirstStake, ← restampedBlock] at hconnect
    have hscripts : sample.ScriptsReadWritten := fun _ _ _ => rfl
    have hparams : (firstStakeIndex 100000 [restampedSpend 0]).hashBlock ≠
        (Setting.sample .main 1789171216 0).params.hashGenesisBlock := hgenesis
    have hsome : (coinsAfterRestamped (restampedBlock 0)).isSome = true :=
      coinsAfter_isSome.mpr ⟨connected, hconnect⟩
    refine ⟨hsome, fun hcoins => not_keptStampsAgree_restamped ?_⟩
    have hcondition := ((connectBlock_of_same_bytes (restampedBlock 0)
      (restampedBlock 1789171210) true fits_restampedBlock.1 fits_restampedBlock.2
      (hbytes true)).2 _ _ _ _ _ _ _ hscripts hparams).mp hcoins
    exact (hcondition ⟨restampedBlock 0, fits_restampedBlock.1, rfl, hsome⟩).2
      (stampsPass_of_connectBlock hparams hconnect)

theorem restamped_coins_differ :
    (∀ posMarker, serializeBlock posMarker true (restampedBlock 0) =
        serializeBlock posMarker true (restampedBlock 1789171210)) ∧
      firstStakeIndex 100000 [restampedSpend 0] =
        firstStakeIndex 100000 [restampedSpend 1789171210] ∧
      (restampedSpend 0).outPoint sample 0 = (restampedSpend 1789171210).outPoint sample 0 ∧
      (∃ connected, connectRestamped 0 = .ok connected) ∧
      (∃ connected, connectRestamped 1789171210 = .ok connected) ∧
      restampedCoinTime 0 = some 0 ∧
      restampedCoinTime 1789171210 = some 1789171210 ∧
      restampedKernelHash 0 ≠ restampedKernelHash 1789171210 := by
  obtain ⟨⟨huntimed, htimed⟩, hbytes, hindex, _, houtpoint, hkernel⟩ := restamped_evaluated
  exact ⟨hbytes, hindex, houtpoint, exists_of_restampedCoinTime huntimed,
    exists_of_restampedCoinTime htimed, huntimed, htimed, hkernel⟩

end Restamped

end FirstIslamicCoin
