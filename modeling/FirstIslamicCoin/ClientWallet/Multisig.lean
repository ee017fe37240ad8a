import FirstIslamicCoin.ClientWallet.Transaction
import FirstIslamicCoin.Core.Outcome

/-!
# Multisig spends of the wallets

Redeem scripts, and the proposals that cosigners pass around, sign and finalize, of
`crypto.js` and `transaction.dart`.  Hexadecimal strings are the bytes they stand for.  The
redeem script is pushed with a compact size in front of it, where a script has an opcode.
-/

namespace FirstIslamicCoin.ClientWallet

open ByteCodec

section RedeemScript

def opCheckMultisig : UInt8 := 0xae

def opN (n : ℤ) : Except String UInt8 :=
  if n < 1 ∨ 16 < n then .error "OP_N only supports 1..16" else .ok (UInt8.ofNat (0x50 + n).toNat)

def pubkeyPush (pk : Bytes) : Except String Bytes :=
  if pk.length ≠ 33 then .error "Only compressed (33-byte) pubkeys are supported"
  else .ok (UInt8.ofNat pk.length :: pk)

def createMultisigRedeemScript (m : ℤ) (pubkeysCompressed : List Bytes) : Except String Bytes :=
  if m < 1 ∨ (pubkeysCompressed.length : ℤ) < m then
    .error "m must be between 1 and the number of pubkeys"
  else if 16 < pubkeysCompressed.length then
    .error "at most 16 pubkeys supported (OP_N range)"
  else do
    let first ← opN m
    let pushes ← pubkeysCompressed.mapM pubkeyPush
    let last ← opN pubkeysCompressed.length
    return first :: pushes.flatten ++ [last, opCheckMultisig]

end RedeemScript

section Proposals

abbrev Signatures := Bytes → Option Bytes

structure ProposalInput where
  txid : Bytes
  vout : ℤ
  redeemScript : Bytes
  deriving DecidableEq, Repr

structure MultisigProposal where
  version : ℤ
  locktime : ℤ
  inputs : List ProposalInput
  outputs : List TxOutputSpec
  signatures : List Signatures

def createMultisigProposal (inputs : List ProposalInput) (outputs : List TxOutputSpec)
    (locktime : ℤ) : MultisigProposal :=
  ⟨2, locktime, inputs, outputs, inputs.map fun _ _ => none⟩

def ProposalInput.unsigned (input : ProposalInput) : TxInput :=
  ⟨input.txid, input.vout, [], 0xffffffff⟩

variable (platform : Platform)

/-- The loop of `parsePubkeysInOrder`; the mobile wallet cannot take more bytes than there
are. -/
def pubkeysFrom : ℕ → Bytes → Except String (List Bytes)
  | 0, _ => .ok []
  | _ + 1, [] => .ok []
  | fuel + 1, opcode :: rest =>
      if 1 ≤ opcode ∧ opcode ≤ 75 then
        if platform = .mobile ∧ rest.length < opcode.toNat then .error "RangeError"
        else (rest.take opcode.toNat :: ·) <$> pubkeysFrom fuel (rest.drop opcode.toNat)
      else .ok []

def parsePubkeysInOrder (redeemScript : Bytes) : Except String (List Bytes) :=
  pubkeysFrom platform redeemScript.length (redeemScript.drop 1)

def requiredSignatures : Bytes → Except String ℤ
  | first :: _ => .ok (first.toNat - 0x50)
  | [] => if platform = .mobile then .error "RangeError" else .ok 0

/-- The signatures in the order of the keys; the web wallet passes over empty ones. -/
def orderedSigs (collected : Signatures) (pubkeysInOrder : List Bytes) : List Bytes :=
  match platform with
  | .web => (pubkeysInOrder.filterMap collected).filter fun signature => !signature.isEmpty
  | .mobile => pubkeysInOrder.filterMap collected

/-- `slice(0, m)` and `take(m)`. -/
def sigsToUse (m : ℤ) (sigs : List Bytes) : Except String (List Bytes) :=
  if 0 ≤ m then .ok (sigs.take m.toNat)
  else if platform = .mobile then .error "RangeError"
  else .ok (sigs.take (sigs.length + m).toNat)

def multisigScriptSig (sigs : List Bytes) (redeemScript : Bytes) : Bytes :=
  0x00 :: (sigs.flatMap fun signature => UInt8.ofNat signature.length :: signature) ++
    varInt redeemScript.length ++ redeemScript

/-- The object of signatures of an input; the web wallet only fails on a missing one when a
key is looked up. -/
def collectedFor (signatures : List Signatures) (index : ℕ) (pubkeysInOrder : List Bytes) :
    Except String Signatures :=
  match signatures[index]? with
  | some collected => .ok collected
  | none =>
      if platform = .mobile then .error "RangeError"
      else if pubkeysInOrder.isEmpty then .ok fun _ => none
      else .error "TypeError"

/-- The body of the loop of `finalizeMultisigTransaction`. -/
def finalizeInput (signatures : List Signatures) (entry : ProposalInput × ℕ) :
    Except String TxInput := do
  let redeemScript := entry.1.redeemScript
  let m ← requiredSignatures platform redeemScript
  let pubkeysInOrder ← parsePubkeysInOrder platform redeemScript
  let collected ← collectedFor platform signatures entry.2 pubkeysInOrder
  let sigs := orderedSigs platform collected pubkeysInOrder
  if (sigs.length : ℤ) < m then
    .error s!"Input {entry.2} has {sigs.length} signature(s), needs {m}"
  else
    let used ← sigsToUse platform m sigs
    return { entry.1.unsigned with scriptSig := multisigScriptSig used redeemScript }

def finalizedInputs (proposal : MultisigProposal) : Except String (List TxInput) :=
  proposal.inputs.zipIdx.mapM (finalizeInput platform proposal.signatures)

def finalizeMultisigTransaction (proposal : MultisigProposal) : Except String Bytes := do
  let txInputs ← finalizedInputs platform proposal
  return serializeTx proposal.version txInputs proposal.outputs proposal.locktime

end Proposals

section Created

variable {m : ℤ} {keys : List Bytes} {redeemScript : Bytes}

def redeemScriptOf (m : ℤ) (keys : List Bytes) : Bytes :=
  UInt8.ofNat (0x50 + m).toNat ::
    (keys.flatMap fun pk => UInt8.ofNat pk.length :: pk) ++
      [UInt8.ofNat (0x50 + keys.length), opCheckMultisig]

theorem opN_eq_ok {n : ℤ} {opcode : UInt8} :
    opN n = .ok opcode ↔ (1 ≤ n ∧ n ≤ 16) ∧ opcode = UInt8.ofNat (0x50 + n).toNat := by
  rw [opN]
  split_ifs with hrange
  · constructor
    · exact nofun
    · rintro ⟨hn, -⟩
      omega
  · rw [Except.ok.injEq, eq_comm]
    exact ⟨fun heq => ⟨by omega, heq⟩, fun hboth => hboth.2⟩

theorem pubkeyPush_eq_ok {pk push : Bytes} :
    pubkeyPush pk = .ok push ↔ pk.length = 33 ∧ push = UInt8.ofNat pk.length :: pk := by
  rw [pubkeyPush]
  split_ifs with hlength
  · exact ⟨nofun, fun hboth => absurd hboth.1 hlength⟩
  · rw [Except.ok.injEq, eq_comm]
    exact ⟨fun heq => ⟨not_not.mp hlength, heq⟩, fun hboth => hboth.2⟩

theorem mapM_pubkeyPush_eq_ok {pushes : List Bytes} :
    keys.mapM pubkeyPush = .ok pushes ↔
      (∀ pk ∈ keys, pk.length = 33) ∧
        pushes = keys.map fun pk => UInt8.ofNat pk.length :: pk := by
  simp only [Outcome.mapM_eq_ok, pubkeyPush_eq_ok]
  constructor
  · intro hpushes
    induction hpushes with
    | nil => exact ⟨nofun, rfl⟩
    | cons hfirst _ ih =>
      refine ⟨List.forall_mem_cons.mpr ⟨hfirst.1, ih.1⟩, ?_⟩
      rw [List.map_cons, ← ih.2, hfirst.2]
  · rintro ⟨hlengths, rfl⟩
    rw [List.forall₂_map_right_iff, List.forall₂_same]
    exact fun pk hmem => ⟨hlengths pk hmem, rfl⟩

theorem createMultisigRedeemScript_eq_ok :
    createMultisigRedeemScript m keys = .ok redeemScript ↔
      (1 ≤ m ∧ m ≤ keys.length ∧ keys.length ≤ 16) ∧ (∀ pk ∈ keys, pk.length = 33) ∧
        redeemScript = redeemScriptOf m keys := by
  rw [createMultisigRedeemScript]
  split_ifs with hrange hmany
  · exact ⟨nofun, fun hboth => by omega⟩
  · exact ⟨nofun, fun hboth => by omega⟩
  · have hcount : (0x50 + (keys.length : ℤ)).toNat = 0x50 + keys.length := by omega
    simp only [Outcome.bind_eq_ok, Outcome.pure_eq_ok, opN_eq_ok, mapM_pubkeyPush_eq_ok]
    constructor
    · rintro ⟨_, ⟨-, rfl⟩, _, ⟨hlengths, rfl⟩, _, ⟨-, rfl⟩, rfl⟩
      refine ⟨by omega, hlengths, ?_⟩
      rw [redeemScriptOf, hcount, List.flatMap]
    · rintro ⟨-, hlengths, rfl⟩
      refine ⟨_, ⟨by omega, rfl⟩, _, ⟨hlengths, rfl⟩, _, ⟨by omega, rfl⟩, ?_⟩
      rw [redeemScriptOf, hcount, List.flatMap]

theorem length_redeemScriptOf (hlengths : ∀ pk ∈ keys, pk.length = 33) :
    (redeemScriptOf m keys).length = 3 + 34 * keys.length := by
  have hpushes : (keys.flatMap fun pk => UInt8.ofNat pk.length :: pk).length =
      34 * keys.length := by
    rw [List.length_flatMap, @List.map_congr_left _ _ _ _ (fun _ => 34)]
    · rw [List.map_const', List.sum_replicate, smul_eq_mul, Nat.mul_comm]
    · intro pk hmem
      rw [List.length_cons, hlengths pk hmem]
  rw [redeemScriptOf]
  simp only [List.cons_append, List.length_cons, List.length_append, List.length_nil, hpushes]
  omega

/-- The keys are found up to the first byte that is no push. -/
theorem pubkeysFrom_pushes (platform : Platform) (hlengths : ∀ pk ∈ keys, pk.length = 33)
    {opcode : UInt8} (hcode : 75 < opcode) (rest : Bytes) {fuel : ℕ} (hfuel : keys.length < fuel) :
    pubkeysFrom platform fuel
      ((keys.flatMap fun pk => UInt8.ofNat pk.length :: pk) ++ opcode :: rest) = .ok keys := by
  induction keys generalizing fuel with
  | nil =>
    obtain ⟨fuel, rfl⟩ := Nat.exists_eq_succ_of_ne_zero (Nat.ne_zero_of_lt hfuel)
    rw [List.flatMap_nil, List.nil_append, pubkeysFrom, if_neg]
    rintro ⟨-, hle⟩
    exact absurd hcode (UInt8.not_lt.mpr hle)
  | cons pk keys ih =>
    obtain ⟨fuel, rfl⟩ := Nat.exists_eq_succ_of_ne_zero (Nat.ne_zero_of_lt hfuel)
    obtain ⟨hpk, hothers⟩ := List.forall_mem_cons.mp hlengths
    have hwidth : (UInt8.ofNat 33).toNat = pk.length := by rw [hpk]; rfl
    rw [List.flatMap_cons, hpk, List.cons_append, List.cons_append, List.append_assoc, pubkeysFrom,
      if_pos (by decide), hwidth, if_neg, List.take_left, List.drop_left,
      ih hothers (by rw [List.length_cons] at hfuel; omega)]
    · rfl
    · rintro ⟨-, hshort⟩
      rw [List.length_append] at hshort
      omega

theorem parsePubkeysInOrder_redeemScriptOf (platform : Platform)
    (hlengths : ∀ pk ∈ keys, pk.length = 33) (hcount : keys.length ≤ 16) :
    parsePubkeysInOrder platform (redeemScriptOf m keys) = .ok keys := by
  have hcode : 75 < UInt8.ofNat (0x50 + keys.length) := by
    rw [UInt8.lt_iff_toNat_lt, toNat_byte (by omega)]
    change 75 < _
    omega
  have hfuel : keys.length < (redeemScriptOf m keys).length := by
    rw [length_redeemScriptOf hlengths]
    omega
  rw [parsePubkeysInOrder]
  exact pubkeysFrom_pushes platform hlengths hcode _ hfuel

end Created

section Spending

/-- The cosigners of a redeem script have added signatures, enough of them and none too
long for a direct push. -/
structure Cosigned (m : ℤ) (keys : List Bytes) (collected : Signatures) : Prop where
  enough : m ≤ (keys.filterMap collected).length
  nonempty : ∀ pk ∈ keys, ∀ signature, collected pk = some signature → signature ≠ []
  size : ∀ pk ∈ keys, ∀ signature, collected pk = some signature → signature.length ≤ 73

def usedSigs (m : ℤ) (keys : List Bytes) (collected : Signatures) : List Bytes :=
  (keys.filterMap collected).take m.toNat

/-- The node takes a script for pushes of the dummy, the signatures and the redeem
script. -/
structure SpendsRedeemScript (sigs : List Bytes) (redeemScript scriptSig : Bytes) : Prop where
  pushOnly : CScript.isPushOnly scriptSig = true
  stack : CScript.pushStack scriptSig = some ([] :: sigs ++ [redeemScript])
  size : redeemScript.length ≤ CScript.maxScriptElementSize

variable {platform : Platform} {m : ℤ} {keys : List Bytes} {collected : Signatures}

theorem orderedSigs_eq
    (hnonempty : ∀ pk ∈ keys, ∀ signature, collected pk = some signature → signature ≠ []) :
    orderedSigs platform collected keys = keys.filterMap collected := by
  cases platform with
  | web =>
    rw [orderedSigs, List.filter_eq_self]
    intro signature hmem
    obtain ⟨pk, hpk, hsignature⟩ := List.mem_filterMap.mp hmem
    simpa using hnonempty pk hpk signature hsignature
  | mobile => rfl

/-- What becomes of an input with a created redeem script. -/
theorem finalizeInput_eq {signatures : List Signatures} {entry : ProposalInput × ℕ}
    (hm : 1 ≤ m ∧ m ≤ keys.length ∧ keys.length ≤ 16) (hlengths : ∀ pk ∈ keys, pk.length = 33)
    (hscript : entry.1.redeemScript = redeemScriptOf m keys)
    (hcollected : signatures[entry.2]? = some collected)
    (hnonempty : ∀ pk ∈ keys, ∀ signature, collected pk = some signature → signature ≠ []) :
    finalizeInput platform signatures entry = if ((keys.filterMap collected).length : ℤ) < m then
        .error s!"Input {entry.2} has {(keys.filterMap collected).length} signature(s), needs {m}"
      else .ok { entry.1.unsigned with
        scriptSig := multisigScriptSig (usedSigs m keys collected) (redeemScriptOf m keys) } := by
  have hrequired : requiredSignatures platform (redeemScriptOf m keys) = .ok m := by
    rw [redeemScriptOf, List.cons_append, requiredSignatures, toNat_byte (by omega)]
    congr 1
    omega
  have hfound : collectedFor platform signatures entry.2 keys = .ok collected := by
    rw [collectedFor, hcollected]
  have huse : sigsToUse platform m (keys.filterMap collected) =
      .ok (usedSigs m keys collected) := by
    rw [sigsToUse, if_pos (by omega), usedSigs]
  rw [finalizeInput, hscript]
  dsimp only
  rw [hrequired, Outcome.ok_bind, parsePubkeysInOrder_redeemScriptOf platform hlengths hm.2.2,
    Outcome.ok_bind, hfound, Outcome.ok_bind, orderedSigs_eq hnonempty, huse]
  rfl

theorem size_of_mem_usedSigs (hcosigned : Cosigned m keys collected) {signature : Bytes}
    (hmem : signature ∈ usedSigs m keys collected) : signature.length ≤ 73 := by
  obtain ⟨pk, hpk, hsignature⟩ := List.mem_filterMap.mp (List.mem_of_mem_take hmem)
  exact hcosigned.size pk hpk signature hsignature

/-- The dummy and the signatures are read, whatever stands behind them. -/
theorem reads_multisigScriptSig {sigs : List Bytes}
    (hsizes : ∀ signature ∈ sigs, signature.length ≤ 73) {redeemScript rest : Bytes}
    {found : List (UInt8 × Bytes)}
    (hrest : CScript.Reads (varInt redeemScript.length ++ redeemScript) found rest) :
    CScript.Reads (multisigScriptSig sigs redeemScript)
      (([] :: sigs).map (fun item => (UInt8.ofNat item.length, item)) ++ found) rest := by
  have hpushes := CScript.Reads.pushes
    (fun item hmem => Nat.lt_of_le_of_lt (hsizes item hmem) (by decide)) hrest
  have hall := @CScript.Reads.push _ _ _ [] (by decide) hpushes
  rw [multisigScriptSig, List.append_assoc, List.cons_append]
  exact hall

theorem mapM_pushed {items : List Bytes} (hsizes : ∀ item ∈ items, item.length < 0x4c) :
    (items.map fun item => (UInt8.ofNat item.length, item)).mapM CScript.pushed = some items := by
  induction items with
  | nil => rfl
  | cons item items ih =>
    obtain ⟨hitem, hitems⟩ := List.forall_mem_cons.mp hsizes
    have hdirect : UInt8.ofNat item.length ≤ CScript.opPushData4 := by
      rw [UInt8.le_iff_toNat_le, toNat_byte (by omega)]
      change _ ≤ 0x4e
      omega
    have hfirst : CScript.pushed (UInt8.ofNat item.length, item) = some item := by
      have hsmall : ¬CScript.maxScriptElementSize < item.length := by
        rw [CScript.maxScriptElementSize]
        omega
      rw [CScript.pushed, if_pos hdirect, if_neg hsmall]
    rw [List.map_cons, List.mapM_cons, hfirst, ih hitems]
    rfl

/-- Up to the size of a direct push the compact size is the opcode. -/
theorem spendsRedeemScript_of_length {sigs : List Bytes}
    (hsizes : ∀ signature ∈ sigs, signature.length ≤ 73) {redeemScript : Bytes}
    (hlength : redeemScript.length < 0x4c) :
    SpendsRedeemScript sigs redeemScript (multisigScriptSig sigs redeemScript) := by
  have hlast := @CScript.Reads.push [] _ _ _ hlength (.done [])
  have hsize : varInt redeemScript.length = [UInt8.ofNat redeemScript.length] := by
    rw [varInt, if_pos (by omega)]
  rw [List.append_nil] at hlast
  have hreads := @reads_multisigScriptSig _ hsizes redeemScript _ _ (by rw [hsize]; exact hlast)
  have hops : ([] :: sigs).map (fun item : Bytes => (UInt8.ofNat item.length, item)) ++
      [(UInt8.ofNat redeemScript.length, redeemScript)] =
        ([] :: sigs ++ [redeemScript]).map fun item => (UInt8.ofNat item.length, item) := by
    rw [List.map_append, List.map_singleton]
  have hall : ∀ item ∈ [] :: sigs ++ [redeemScript], item.length < 0x4c := by
    intro item hmem
    rcases List.mem_append.mp hmem with hfront | hback
    · rcases List.mem_cons.mp hfront with rfl | hsig
      · decide
      · exact Nat.lt_of_le_of_lt (hsizes item hsig) (by decide)
    · rw [List.mem_singleton.mp hback]
      exact hlength
  rw [hops] at hreads
  refine ⟨?_, ?_, ?_⟩
  · rw [CScript.isPushOnly, hreads.ops_eq, Bool.true_and, List.all_eq_true]
    intro operation hmem
    obtain ⟨item, hitem, rfl⟩ := List.mem_map.mp hmem
    have hvalue : (UInt8.ofNat item.length).toNat = item.length :=
      toNat_byte ((hall item hitem).trans (by decide))
    rw [decide_eq_true_eq, UInt8.le_iff_toNat_le, hvalue]
    exact (hall item hitem).le.trans (by decide)
  · rw [CScript.pushStack, hreads.ops_eq, if_pos rfl, mapM_pushed hall]
  · exact hlength.le.trans (by decide)

/-- Above that the compact size starts with a byte that is an operation. -/
theorem varInt_of_lt {n : ℕ} (hn : 0x60 < n) :
    ∃ opcode rest, varInt n = opcode :: rest ∧ CScript.op16 < opcode := by
  rw [varInt]
  split_ifs with hsmall
  · refine ⟨_, _, rfl, ?_⟩
    rw [UInt8.lt_iff_toNat_lt, toNat_byte (by omega)]
    exact hn
  · exact ⟨_, _, rfl, by decide⟩
  · exact ⟨_, _, rfl, by decide⟩
  · exact ⟨_, _, rfl, by decide⟩

theorem not_isPushOnly_multisigScriptSig {sigs : List Bytes}
    (hsizes : ∀ signature ∈ sigs, signature.length ≤ 73) {redeemScript : Bytes}
    (hlength : 0x60 < redeemScript.length) :
    CScript.isPushOnly (multisigScriptSig sigs redeemScript) = false := by
  obtain ⟨opcode, rest, hsize, hcode⟩ := varInt_of_lt hlength
  have hreads := @reads_multisigScriptSig _ hsizes redeemScript _ _ (.done _)
  rw [hsize, List.cons_append] at hreads
  exact CScript.not_isPushOnly hreads hcode

/-- A created redeem script is spent through its own script exactly up to two keys. -/
theorem spendsRedeemScript_iff (hkeys : ∀ pk ∈ keys, pk.length = 33)
    (hcosigned : Cosigned m keys collected) :
    SpendsRedeemScript (usedSigs m keys collected) (redeemScriptOf m keys)
        (multisigScriptSig (usedSigs m keys collected) (redeemScriptOf m keys)) ↔
      keys.length ≤ 2 := by
  have hlength := @length_redeemScriptOf m keys hkeys
  have hsizes := fun signature => @size_of_mem_usedSigs m keys collected hcosigned signature
  constructor
  · intro hspends
    by_contra hmany
    have hnot := not_isPushOnly_multisigScriptSig hsizes
      (show 0x60 < (redeemScriptOf m keys).length by omega)
    rw [hspends.pushOnly] at hnot
    exact absurd hnot nofun
  · intro hfew
    exact spendsRedeemScript_of_length hsizes (by omega)

def finalizedInput (m : ℤ) (keys : List Bytes) (collected : ℕ → Signatures)
    (entry : ProposalInput × ℕ) : TxInput :=
  { entry.1.unsigned with
    scriptSig := multisigScriptSig (usedSigs m keys (collected entry.2)) (redeemScriptOf m keys) }

/-- A proposal that every input has enough signatures for is finalized. -/
theorem finalizedInputs_eq (platform : Platform) {proposal : MultisigProposal}
    {collected : ℕ → Signatures}
    (hm : 1 ≤ m ∧ m ≤ keys.length ∧ keys.length ≤ 16) (hkeys : ∀ pk ∈ keys, pk.length = 33)
    (hspends : ∀ input ∈ proposal.inputs, input.redeemScript = redeemScriptOf m keys)
    (hsignatures : ∀ index < proposal.inputs.length,
      proposal.signatures[index]? = some (collected index) ∧
        Cosigned m keys (collected index)) :
    finalizedInputs platform proposal =
      .ok (proposal.inputs.zipIdx.map (finalizedInput m keys collected)) := by
  rw [finalizedInputs, Outcome.mapM_eq_ok, List.forall₂_map_right_iff, List.forall₂_same]
  rintro ⟨input, index⟩ hentry
  obtain ⟨-, hindex, -⟩ := List.mem_zipIdx hentry
  rw [Nat.zero_add] at hindex
  obtain ⟨hcollected, hcosigned⟩ := hsignatures index hindex
  rw [finalizeInput_eq hm hkeys (hspends input (List.fst_mem_of_mem_zipIdx hentry))
    hcollected hcosigned.nonempty, if_neg (not_lt.mpr hcosigned.enough)]
  rfl

theorem multisig_spendable_iff (platform : Platform) (m : ℤ) (keys : List Bytes)
    (redeemScript : Bytes) (hcreated : createMultisigRedeemScript m keys = .ok redeemScript)
    (proposal : MultisigProposal) (hinputs : proposal.inputs ≠ [])
    (hspends : ∀ input ∈ proposal.inputs, input.redeemScript = redeemScript)
    (collected : ℕ → Signatures) (hsignatures : ∀ index < proposal.inputs.length,
      proposal.signatures[index]? = some (collected index) ∧
        Cosigned m keys (collected index)) :
    (∃ txInputs, finalizeMultisigTransaction platform proposal =
        .ok (serializeTx proposal.version txInputs proposal.outputs proposal.locktime) ∧
      finalizedInputs platform proposal = .ok txInputs ∧
      ∀ index txInput, txInputs[index]? = some txInput →
        SpendsRedeemScript (usedSigs m keys (collected index)) redeemScript txInput.scriptSig) ↔
      keys.length ≤ 2 := by
  obtain ⟨hm, hkeys, rfl⟩ := createMultisigRedeemScript_eq_ok.mp hcreated
  have hfinal := finalizedInputs_eq platform hm hkeys hspends hsignatures
  have hserialized : finalizeMultisigTransaction platform proposal =
      .ok (serializeTx proposal.version
        (proposal.inputs.zipIdx.map (finalizedInput m keys collected)) proposal.outputs
        proposal.locktime) := by
    rw [finalizeMultisigTransaction, hfinal]
    rfl
  constructor
  · rintro ⟨txInputs, -, htxInputs, hall⟩
    obtain rfl := Except.ok.inj (hfinal.symm.trans htxInputs)
    obtain ⟨input, others, hcons⟩ := List.exists_cons_of_ne_nil hinputs
    have hfirst := hall 0 (finalizedInput m keys collected (input, 0)) (by rw [hcons]; rfl)
    have hcosigned := (hsignatures 0 (by rw [hcons]; exact Nat.zero_lt_succ _)).2
    exact (spendsRedeemScript_iff hkeys hcosigned).mp hfirst
  · intro hfew
    refine ⟨_, hserialized, hfinal, ?_⟩
    intro index txInput htxInput
    rw [List.getElem?_map, List.getElem?_zipIdx, Nat.zero_add, Option.map_map] at htxInput
    obtain ⟨input, hinput, rfl⟩ := Option.map_eq_some_iff.mp htxInput
    obtain ⟨hindex, -⟩ := List.getElem?_eq_some_iff.mp hinput
    exact (spendsRedeemScript_iff hkeys (hsignatures index hindex).2).mpr hfew

def sampleProposal (redeemScript : Bytes) (collected : Signatures) : MultisigProposal where
  version := 2
  locktime := 0
  inputs := [⟨List.replicate 32 0, 0, redeemScript⟩]
  outputs := []
  signatures := [collected]

/-- The signatures of the first two keys, for the spend of their own address and for that of
the address with a third key. -/
def sampleSignatures (keyCount : ℕ) : Signatures := fun pk =>
  if pk = sampleKey 1 then some (sigWithType .web (if keyCount = 2 then
    (0x42f4d3d3ec985f05d22c36d97506aefd7d8f414bb47852b5375de501586351ce,
      0x28fc1d2bedd2ce8074df1a25c903cc4ed604eff8cc6957b73812b3e581ce27d2) else
    (0xc3e93ebd193a396f36cc94a6ca614ba622dec570d597c811c22717ff3f87d257,
      0xe3f1844df77ec5e1d73736d031c33392b2efb59e01ec2f2646c76b9e1f225a7)))
  else if pk = sampleKey 2 then some (sigWithType .web (if keyCount = 2 then
    (0xd23a0d1ae89f861e95cb3bfc74e2624d8e3080df5e9b0074c8c868b4479073fa,
      0x4cf757f3351fa5da0cefbca1d661d6443c60a6ff326c17b4aa2a87da2c07534a) else
    (0x2d8e6fd7cb2993207c515fa9b5c0919d6c1d39a1cd9740b8d4816cfebd329b10,
      0x60b50a1ce72f668201dd32cab6dab931236bd0f51495469a1a06cfda8807509d)))
  else none

theorem cosigned_sampleSignatures {keyCount : ℕ} {keys : List Bytes}
    (henough : 2 ≤ (keys.filterMap (sampleSignatures keyCount)).length) :
    Cosigned 2 keys (sampleSignatures keyCount) where
  enough := by exact_mod_cast henough
  nonempty := by
    intro pk _ signature hsignature
    rw [sampleSignatures] at hsignature
    split_ifs at hsignature <;> rw [← Option.some.inj hsignature] <;> exact List.cons_ne_nil _ _
  size := by
    intro pk _ signature hsignature
    rw [sampleSignatures] at hsignature
    split_ifs at hsignature <;> rw [← Option.some.inj hsignature] <;>
      exact length_sigWithType_le (by decide) (by decide)

theorem multisig_spendable_two_keys :
    ∃ txInputs, finalizeMultisigTransaction .web
        (sampleProposal (redeemScriptOf 2 [sampleKey 1, sampleKey 2]) (sampleSignatures 2)) =
          .ok (serializeTx 2 txInputs [] 0) ∧
      finalizedInputs .web
        (sampleProposal (redeemScriptOf 2 [sampleKey 1, sampleKey 2]) (sampleSignatures 2)) =
          .ok txInputs ∧
      ∀ (index : ℕ) (txInput : TxInput), txInputs[index]? = some txInput →
        SpendsRedeemScript (usedSigs 2 [sampleKey 1, sampleKey 2] (sampleSignatures 2))
          (redeemScriptOf 2 [sampleKey 1, sampleKey 2]) txInput.scriptSig := by
  have hspends := multisig_spendable_iff .web 2 [sampleKey 1, sampleKey 2] _ rfl
    (sampleProposal (redeemScriptOf 2 [sampleKey 1, sampleKey 2]) (sampleSignatures 2))
    (List.cons_ne_nil _ _) (List.forall_mem_singleton.mpr rfl) (fun _ => sampleSignatures 2)
    (fun index hindex => by
      obtain rfl : index = 0 := Nat.lt_one_iff.mp hindex
      exact ⟨rfl, cosigned_sampleSignatures (by decide)⟩)
  exact hspends.mpr (by decide)

/-- A third key: the script that was signed by two cosigners has an operation in it. -/
theorem three_keys_not_spendable :
    ∃ redeemScript txInput,
      createMultisigRedeemScript 2 [sampleKey 1, sampleKey 2, sampleKey 3] = .ok redeemScript ∧
      Cosigned 2 [sampleKey 1, sampleKey 2, sampleKey 3] (sampleSignatures 3) ∧
      finalizedInputs .web (sampleProposal redeemScript (sampleSignatures 3)) = .ok [txInput] ∧
      finalizedInputs .mobile (sampleProposal redeemScript (sampleSignatures 3)) = .ok [txInput] ∧
      CScript.isPushOnly txInput.scriptSig = false := by
  refine ⟨_, _, rfl, cosigned_sampleSignatures (by decide), rfl, rfl, ?_⟩
  decide_cbv

end Spending

end FirstIslamicCoin.ClientWallet
