import FirstIslamicCoin.ClientWallet.Hex
import FirstIslamicCoin.ClientWallet.Transaction
import FirstIslamicCoin.Core.Outcome

/-!
# Signing away from the network

An online device hands a request over as JSON, and `signOfflineTransaction` signs it on the
device that holds the seed.  Transaction ids and scripts arrive as hexadecimal text, which the
reader of `offline_signing.dart` takes two units at a time.  The reader drops an odd unit at the
end and accepts signs and white space, so what is signed is what was asked for on well-formed
requests only.
-/

namespace FirstIslamicCoin.ClientWallet

open ByteCodec

section Requests

/-- `OfflineSignInput`; an `int` of Dart has 64 bits. -/
structure OfflineSignInput where
  txidHex : Utf16
  vout : Int64
  derivationIndex : Int64
  pubkeyHashHex : Utf16

structure OfflineSignOutput where
  scriptPubKeyHex : Utf16
  valueSatoshis : Int64

/-- What `OfflineSignRequest.fromJson` builds from an object with the right type tag. -/
structure OfflineSignRequest where
  locktime : Int64
  inputs : List OfflineSignInput
  outputs : List OfflineSignOutput

variable (deriveKey : Int64 → Except String (Bytes × Bytes)) (hash160 doubleSha256 : Bytes → Bytes)
  (sign : Sign)

/-- The body of the loop over the inputs: the key is derived and must have the claimed hash. -/
def offlineUtxo (input : OfflineSignInput) : Except String Utxo := do
  let key ← deriveKey input.derivationIndex
  let claimedHash ← Mobile.hexToBytes input.pubkeyHashHex
  Outcome.require (hash160 key.2 == claimedHash)
    ("Input at derivation index " ++ toString input.derivationIndex ++
      " doesn't belong to this seed. Wrong device, wrong seed, or this request wasn't built " ++
      "for this wallet -- refusing to sign it.")
  let txid ← Mobile.hexToBytes input.txidHex
  return {
    txid := txid.reverse
    vout := input.vout.toInt
    pubkeyHash := hash160 key.2
    privateKey := some key.1
    publicKeyCompressed := some key.2 }

def offlineOutput (output : OfflineSignOutput) : Except String TxOutputSpec := do
  let scriptPubKey ← Mobile.hexToBytes output.scriptPubKeyHex
  return ⟨scriptPubKey, output.valueSatoshis.toInt⟩

def signOfflineTransaction (request : OfflineSignRequest) : Except String Bytes :=
  if request.inputs.isEmpty then .error "This request has no inputs to sign."
  else do
    let utxos ← request.inputs.mapM (offlineUtxo deriveKey hash160)
    let outputs ← request.outputs.mapM offlineOutput
    buildAndSignTransaction .mobile doubleSha256 sign utxos
      ⟨outputs, none, none, request.locktime.toInt⟩

end Requests

section Text

variable {text : Utf16}

theorem hexValue_lowerUnit (unit : UInt16) : hexValue (lowerUnit unit) = hexValue unit := by
  rw [lowerUnit]
  split_ifs with hcapital
  · have htoNat : (unit + 32).toNat = unit.toNat + 32 := by
      rw [UInt16.toNat_add]
      simp only [UInt16.le_iff_toNat_le, UInt16.reduceToNat] at hcapital ⊢
      omega
    simp only [hexValue, UInt16.le_iff_toNat_le, UInt16.reduceToNat, htoNat] at hcapital ⊢
    split_ifs <;> first | (congr 1; omega) | rfl
  · rfl

theorem hexUnit_of_digit {unit : UInt16} (hdigit : (hexValue unit).isSome = true) :
    hexUnit ((hexValue unit).getD 0) = lowerUnit unit := by
  have hbounds := digit_bounds hdigit
  obtain ⟨number, hnumber⟩ : ∃ number < 103, unit = UInt16.ofNat number :=
    ⟨unit.toNat, by omega, by simp⟩
  have hall : ∀ number < 103, (hexValue (UInt16.ofNat number)).isSome = true →
      hexUnit ((hexValue (UInt16.ofNat number)).getD 0) = lowerUnit (UInt16.ofNat number) := by
    decide
  rw [hnumber.2] at hdigit ⊢
  exact hall number hnumber.1 hdigit

theorem bytesToHex_eq_toLowerCase (htext : IsHex text) :
    bytesToHex (hexBytes text) = toLowerCase text := by
  rw [bytesToHex_hexBytes htext, toLowerCase]
  exact List.map_congr_left fun unit hmem => hexUnit_of_digit (htext.2 unit hmem)

/-- Text that bytes are written as is text of digits, two for each byte. -/
theorem isHex_of_written {bytes : Bytes} (hwritten : bytesToHex bytes = toLowerCase text) :
    IsHex text ∧ text.length = 2 * bytes.length := by
  have hlower : IsHex (toLowerCase text) := hwritten ▸ isHex_bytesToHex bytes
  have hlength : (toLowerCase text).length = text.length := List.length_map _
  have heven := hlower.1
  have hbytes := length_hexBytes (bytesToHex bytes)
  rw [hexBytes_bytesToHex, hwritten, hlength] at hbytes
  rw [hlength] at heven
  refine ⟨⟨heven, fun unit hmem => ?_⟩, by omega⟩
  rw [← hexValue_lowerUnit]
  exact hlower.2 _ (List.mem_map_of_mem hmem)

theorem Mobile.written_of_hexToBytes {bytes : Bytes} (htext : IsHex text)
    (hread : Mobile.hexToBytes text = .ok bytes) :
    bytesToHex bytes = toLowerCase text ∧ bytes.length = text.length / 2 := by
  rw [Mobile.hexToBytes_eq htext] at hread
  obtain rfl := Except.ok.inj hread
  exact ⟨bytesToHex_eq_toLowerCase htext, length_hexBytes text⟩

end Text

section Meaning

/-- The outpoints, scripts and amounts of a transaction, written back as text and integers, are
those of a request. -/
structure OfflineSignRequest.Matches (request : OfflineSignRequest) (tx : CTransaction) : Prop where
  inputs : List.Forall₂ (fun (input : OfflineSignInput) (prevout : COutPoint) =>
    bytesToHex (serializeUInt256 prevout.hash).reverse = toLowerCase input.txidHex ∧
      (prevout.n.toNat : ℤ) = input.vout.toInt) request.inputs (tx.vin.map CTxIn.prevout)
  outputs : List.Forall₂ (fun (output : OfflineSignOutput) (txout : CTxOut) =>
    bytesToHex txout.scriptPubKey = toLowerCase output.scriptPubKeyHex ∧
      txout.nValue = output.valueSatoshis) request.outputs tx.vout

/-- Ids of 64 digits, indices of 32 bits, and scripts of whole bytes. -/
structure OfflineSignRequest.WellFormed (request : OfflineSignRequest) : Prop where
  inputs : ∀ input ∈ request.inputs, (IsHex input.txidHex ∧ input.txidHex.length = 64) ∧
    0 ≤ input.vout.toInt ∧ input.vout.toInt < 2 ^ 32
  outputs : ∀ output ∈ request.outputs, IsHex output.scriptPubKeyHex

variable {deriveKey : Int64 → Except String (Bytes × Bytes)} {hash160 doubleSha256 : Bytes → Bytes}
  {sign : Sign} {request : OfflineSignRequest}

theorem forall_mem_of_forall₂ {Item Result : Type} {relation : Item → Result → Prop}
    {property : Item → Prop} {items : List Item} {results : List Result}
    (hrelated : List.Forall₂ relation items results)
    (hproperty : ∀ item result, relation item result → property item) :
    ∀ item ∈ items, property item :=
  ((List.forall₂_and_left items results).mp (hrelated.imp fun item result hitem =>
    ⟨hproperty item result hitem, hitem⟩)).1

theorem OfflineSignRequest.Matches.wellFormed {tx : CTransaction} (hmatches : request.Matches tx) :
    request.WellFormed where
  inputs := by
    refine forall_mem_of_forall₂ hmatches.inputs ?_
    rintro input prevout ⟨htxid, hvout⟩
    obtain ⟨hdigits, hlength⟩ := isHex_of_written htxid
    rw [List.length_reverse, serializeUInt256, length_littleEndian] at hlength
    have hbound := prevout.n.toNat_lt
    exact ⟨⟨hdigits, hlength⟩, by omega, by omega⟩
  outputs := by
    refine forall_mem_of_forall₂ hmatches.outputs ?_
    rintro output txout ⟨hscript, -⟩
    exact (isHex_of_written hscript).1

/-- What an input that was accepted is spent with. -/
theorem offlineUtxo_eq_ok {input : OfflineSignInput} {utxo : Utxo}
    (haccepted : offlineUtxo deriveKey hash160 input = .ok utxo) :
    ∃ key txid, deriveKey input.derivationIndex = .ok key ∧
      Mobile.hexToBytes input.pubkeyHashHex = .ok (hash160 key.2) ∧
      Mobile.hexToBytes input.txidHex = .ok txid ∧
      utxo = ⟨txid.reverse, input.vout.toInt, hash160 key.2, some key.1, some key.2,
        0xfffffffd⟩ := by
  simp only [offlineUtxo, Outcome.bind_eq_ok, Outcome.require_eq_ok, beq_iff_eq, Outcome.pure_eq_ok,
    Outcome.exists_unit] at haccepted
  obtain ⟨key, hkey, claimed, hclaimed, rfl, txid, htxid, rfl⟩ := haccepted
  exact ⟨key, txid, hkey, hclaimed, htxid, rfl⟩

theorem prevouts_signedInputs (utxos : List Utxo) (options : SpendOptions) :
    (signedInputs .mobile doubleSha256 sign utxos options).map (fun input => input.toTxIn.prevout) =
      utxos.map fun utxo => utxo.unsigned.toTxIn.prevout := by
  rw [signedInputs, List.map_map]
  conv_rhs => rw [← List.zipIdx_map_fst 0 utxos, List.map_map]
  apply List.map_congr_left
  intro entry _
  obtain ⟨htxid, hvout, -⟩ := @unsigned_of_signedInput .mobile doubleSha256 sign utxos options entry
  simp only [Function.comp_apply, TxInput.toTxIn, Utxo.unsigned, htxid, hvout]

section

variable {bytes : Bytes}
  (hsigned : signOfflineTransaction deriveKey hash160 doubleSha256 sign request = .ok bytes)

include hsigned

theorem exists_of_signOfflineTransaction :
    ∃ utxos outputs,
      List.Forall₂ (fun input utxo => offlineUtxo deriveKey hash160 input = .ok utxo)
        request.inputs utxos ∧
      List.Forall₂ (fun output spec => offlineOutput output = .ok spec) request.outputs outputs ∧
      bytes = serializeTx 2 (signedInputs .mobile doubleSha256 sign utxos
        ⟨outputs, none, none, request.locktime.toInt⟩) outputs request.locktime.toInt := by
  rw [signOfflineTransaction] at hsigned
  split_ifs at hsigned with hempty
  simp only [Outcome.bind_eq_ok, Outcome.mapM_eq_ok] at hsigned
  obtain ⟨utxos, hutxos, outputs, houtputs, hbuilt⟩ := hsigned
  have hsome : utxos ≠ [] := by
    rintro rfl
    exact hempty (List.isEmpty_iff.mpr (List.forall₂_nil_right_iff.mp hutxos))
  have hkeys : ∀ utxo ∈ utxos, ((⟨outputs, none, none, request.locktime.toInt⟩ :
      SpendOptions).keys utxo).isSome := by
    refine forall_mem_of_forall₂ hutxos.flip ?_
    intro utxo input hutxo
    obtain ⟨key, txid, -, -, -, rfl⟩ := offlineUtxo_eq_ok hutxo
    rfl
  rw [buildAndSignTransaction_eq hsome hkeys] at hbuilt
  exact ⟨utxos, outputs, hutxos, houtputs, (Except.ok.inj hbuilt).symm⟩

/-- On a well-formed request the bytes are those of a transaction that does what it says. -/
theorem exists_matches (hformed : request.WellFormed) (allowWitness : Bool) :
    ∃ tx, serializeTransaction allowWitness tx = bytes ∧ request.Matches tx := by
  obtain ⟨utxos, outputs, hutxos, houtputs, rfl⟩ := exists_of_signOfflineTransaction hsigned
  have hinputs := (List.forall₂_and_left _ _).mpr ⟨hformed.inputs, hutxos⟩
  have htxids : ∀ utxo ∈ utxos, utxo.txid.length = 32 := by
    refine forall_mem_of_forall₂ hinputs.flip ?_
    rintro utxo input ⟨⟨⟨hdigits, hlength⟩, -⟩, hutxo⟩
    obtain ⟨key, txid, -, -, hread, rfl⟩ := offlineUtxo_eq_ok hutxo
    have hbytes := (Mobile.written_of_hexToBytes hdigits hread).2
    rw [List.length_reverse, hbytes, hlength]
  refine ⟨_, (serializeTx_eq allowWitness ?_ outputs _).symm, ?_, ?_⟩
  · intro input hmem
    obtain ⟨entry, hentry, rfl⟩ := List.mem_map.mp hmem
    rw [(unsigned_of_signedInput entry).1]
    exact htxids entry.1 (List.fst_mem_of_mem_zipIdx hentry)
  · have hprevouts := @prevouts_signedInputs doubleSha256 sign utxos
      ⟨outputs, none, none, request.locktime.toInt⟩
    rw [nodeTransaction, List.map_map]
    change List.Forall₂ _ _ ((signedInputs ..).map fun input => input.toTxIn.prevout)
    rw [hprevouts, List.forall₂_map_right_iff]
    refine hinputs.imp ?_
    rintro input utxo ⟨⟨⟨hdigits, hlength⟩, hvout⟩, hutxo⟩
    obtain ⟨key, txid, -, -, hread, rfl⟩ := offlineUtxo_eq_ok hutxo
    obtain ⟨hwritten, hbytes⟩ := Mobile.written_of_hexToBytes hdigits hread
    refine ⟨?_, toNat_ofNat_mod_of_lt hvout⟩
    rw [TxInput.toTxIn, Utxo.unsigned, serializeUInt256_ofLittleEndian, List.reverse_reverse]
    · exact hwritten
    · rw [List.length_reverse, hbytes, hlength]
  · rw [nodeTransaction, List.forall₂_map_right_iff]
    refine ((List.forall₂_and_left _ _).mpr ⟨hformed.outputs, houtputs⟩).imp ?_
    rintro output spec ⟨hdigits, hspec⟩
    simp only [offlineOutput, Outcome.bind_eq_ok, Outcome.pure_eq_ok] at hspec
    obtain ⟨script, hread, rfl⟩ := hspec
    exact ⟨(Mobile.written_of_hexToBytes hdigits hread).1, Int64.ofInt_toInt _⟩

theorem signOfflineTransaction_exact_iff (allowWitness : Bool) :
    (∀ input ∈ request.inputs, ∃ key, deriveKey input.derivationIndex = .ok key ∧
      Mobile.hexToBytes input.pubkeyHashHex = .ok (hash160 key.2)) ∧
    ((∃ tx, serializeTransaction allowWitness tx = bytes ∧ request.Matches tx) ↔
      request.WellFormed) := by
  refine ⟨?_, ?_, fun hformed => exists_matches hsigned hformed allowWitness⟩
  · obtain ⟨utxos, outputs, hutxos, -, -⟩ := exists_of_signOfflineTransaction hsigned
    refine forall_mem_of_forall₂ hutxos ?_
    intro input utxo hutxo
    obtain ⟨key, txid, hkey, hclaimed, -, -⟩ := offlineUtxo_eq_ok hutxo
    exact ⟨key, hkey, hclaimed⟩
  · rintro ⟨tx, -, hmatches⟩
    exact hmatches.wellFormed

end

/-- A request to spend an output of the first key, with an output script of the given number
of digits. -/
def sampleRequest (digits : ℕ) : OfflineSignRequest where
  locktime := 0
  inputs := [⟨List.replicate 64 48, 0, 0, bytesToHex sampleKeyHash⟩]
  outputs := [⟨List.replicate digits 48, 5⟩]

/-- A seed with the first key, and its signature of the transaction that pays to the script
of one zero byte. -/
def signSample (digits : ℕ) : Except String Bytes :=
  signOfflineTransaction (fun _ => .ok (samplePrivateKey 1, sampleKey 1))
    (fun _ => sampleKeyHash) Sha256.doubleSha256
    (fun _ _ => (0xc8feab776048cdce3daff216646ea338a079aa1c1d438796a0691ebd23e2aecd,
      0x76af6e3592e91792b3fdc383f703059e27cd5b4db95edf853d286eb7f41350ed))
    (sampleRequest digits)

theorem signOfflineTransaction_exact_sample :
    ∃ bytes, signSample 2 = .ok bytes ∧
      ∃ tx, serializeTransaction true tx = bytes ∧ (sampleRequest 2).Matches tx := by
  obtain ⟨bytes, hsigned⟩ : ∃ bytes, signSample 2 = .ok bytes := ⟨_, rfl⟩
  have hzeros : ∀ count, ∀ unit ∈ List.replicate count (48 : UInt16),
      (hexValue unit).isSome = true :=
    fun count unit hmem => List.eq_of_mem_replicate hmem ▸ rfl
  refine ⟨bytes, hsigned, (signOfflineTransaction_exact_iff hsigned true).2.mpr ⟨?_, ?_⟩⟩
  · exact List.forall_mem_singleton.mpr ⟨⟨⟨rfl, hzeros 64⟩, rfl⟩, by decide, by decide⟩
  · exact List.forall_mem_singleton.mpr ⟨rfl, hzeros 2⟩

/-- The last digit of a script with an odd number of them is lost, and the rest is signed. -/
theorem signOfflineTransaction_odd_script :
    ∃ bytes, signSample 3 = .ok bytes ∧
      ¬∃ tx, serializeTransaction true tx = bytes ∧ (sampleRequest 3).Matches tx := by
  refine ⟨_, rfl, ?_⟩
  rintro ⟨tx, -, hmatches⟩
  have hscript := hmatches.wellFormed.outputs _ (List.mem_singleton_self _)
  exact absurd hscript.1 (by decide)

end Meaning

end FirstIslamicCoin.ClientWallet
