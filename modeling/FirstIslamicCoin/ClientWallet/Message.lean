import FirstIslamicCoin.ClientWallet.Address
import FirstIslamicCoin.ClientWallet.Transaction

/-!
# Signed messages of the wallets and the node

`verifyMessage` of `message.js` and `message.dart`, and `MessageVerify` of the node with the
`DecodeDestination` and `RecoverCompact` it calls.  Each looks at the header byte of a
signature in its own way: the wallets ask for 27 to 42 and hash the compressed key, the node
takes any byte and lets bit 2 of its distance to 27 decide which form of the key is hashed.
The recovery of a public key is one function for all three.
-/

namespace FirstIslamicCoin.ClientWallet

open ByteCodec

section Recovery

structure PublicKey where
  x : ℕ
  y : ℕ
  deriving DecidableEq, Repr

def PublicKey.serialize (compressed : Bool) (key : PublicKey) : Bytes :=
  if compressed then UInt8.ofNat (2 + key.y % 2) :: (littleEndian 32 key.x).reverse
  else 4 :: ((littleEndian 32 key.x).reverse ++ (littleEndian 32 key.y).reverse)

abbrev Recover := Bytes → ℕ → ℕ → ℕ → Option PublicKey

/-- Recovery is only defined for numbers below the order of the curve that are not zero. -/
def InRange (number : ℕ) : Prop := 1 ≤ number ∧ number < curveOrder

instance (number : ℕ) : Decidable (InRange number) :=
  inferInstanceAs (Decidable (_ ∧ _))

def Recover.Ranged (recover : Recover) : Prop :=
  ∀ digest r s recid, (recover digest r s recid).isSome → InRange r ∧ InRange s

def header (sigBytes : Bytes) : ℕ := (sigBytes.headD 0).toNat

def signatureR (sigBytes : Bytes) : ℕ := bigEndian ((sigBytes.drop 1).take 32)

def signatureS (sigBytes : Bytes) : ℕ := bigEndian (sigBytes.drop 33)

end Recovery

section Digest

def messageMagic : Bytes :=
  "FirstIslamicCoin Signed Message:\n".toList.map fun letter => UInt8.ofNat letter.toNat

def messagePreimage (writeSize : ℕ → Bytes) (message : Bytes) : Bytes :=
  writeSize messageMagic.length ++ messageMagic ++ writeSize message.length ++ message

/-- `_varInt` of `message.dart`, which has no form of eight bytes. -/
def messageVarInt (n : ℕ) : Bytes :=
  if n < 0xfd then [UInt8.ofNat n]
  else if n ≤ 0xffff then 0xfd :: littleEndian 2 n
  else 0xfe :: littleEndian 4 n

variable (doubleSha256 : Bytes → Bytes)

def Platform.messageHash (platform : Platform) (message : Bytes) : Bytes :=
  doubleSha256 (messagePreimage (match platform with
    | .web => varInt
    | .mobile => messageVarInt) message)

def messageHash (message : Bytes) : Bytes := doubleSha256 (messagePreimage writeCompactSize message)

theorem messageHash_web (message : Bytes) :
    Platform.messageHash doubleSha256 .web message = messageHash doubleSha256 message := by
  have hsize : varInt = writeCompactSize := funext varInt_eq
  rw [Platform.messageHash, messageHash, hsize]

/-- The mobile wallet hashes the same up to 4 GiB. -/
theorem messageHash_mobile {message : Bytes} (hlength : message.length < 2 ^ 32) :
    Platform.messageHash doubleSha256 .mobile message = messageHash doubleSha256 message := by
  have hsize : ∀ n < 2 ^ 32, messageVarInt n = varInt n := by
    intro n hn
    rw [messageVarInt, varInt]
    split_ifs
    · rfl
    · rfl
    · rfl
    · omega
  rw [← messageHash_web, Platform.messageHash, Platform.messageHash, messagePreimage,
    messagePreimage, hsize _ hlength, hsize _ (by decide)]

end Digest

section Wallets

variable (doubleSha256 : Bytes → Bytes) (recover : Recover) (hash160 : Bytes → Bytes)

/-- `verifyMessage` on a decoded address and a decoded signature. -/
def Platform.verifyDecoded (platform : Platform) (decoded : DecodedAddress) (sigBytes : Bytes)
    (message : Bytes) : Except String Bool :=
  if decoded.type ≠ .p2pkh then
    .error "Only P2PKH addresses support message signing/verification"
  else if sigBytes.length ≠ 65 then .error "Malformed signature (wrong length)"
  else if header sigBytes < 27 ∨ 42 < header sigBytes then
    .error "Malformed signature (bad header byte)"
  else
    match recover (platform.messageHash doubleSha256 message) (signatureR sigBytes)
        (signatureS sigBytes) ((header sigBytes - 27) % 4) with
    | none => .ok false
    | some pubkey => .ok (decide (hash160 (pubkey.serialize true) = decoded.hash))

def Web.verifyMessage (address : Utf16) (sigBytes message : Bytes) (network : NetworkConfig) :
    Except String Bool := do
  let decoded ← Web.decodeAddress doubleSha256 address network
  Platform.verifyDecoded doubleSha256 recover hash160 .web decoded sigBytes message

def Mobile.verifyMessage (packages : Mobile.Packages) (address : Utf16) (sigBytes message : Bytes)
    (network : NetworkConfig) : Except String Bool := do
  let decoded ← Mobile.decodeAddress packages address network
  Platform.verifyDecoded doubleSha256 recover hash160 .mobile decoded sigBytes message

end Wallets

namespace Node

section Base58

def isSpace (unit : UInt16) : Bool :=
  unit == 0x20 || unit == 0x0c || unit == 0x0a || unit == 0x0d || unit == 0x09 || unit == 0x0b

/-- `mapBase58`. -/
def base58Digit (unit : UInt16) : Option ℕ := b58Alphabet.idxOf? unit

def decodeBase58 (text : Utf16) (maxRetLen : ℕ) : Option Bytes := do
  let body := text.dropWhile isSpace
  let symbols := body.takeWhile fun unit => !isSpace unit
  let digits ← symbols.mapM base58Digit
  let bytes := (rebase 58 256 digits).map UInt8.ofNat
  guard (bytes.length ≤ maxRetLen)
  guard ((body.drop symbols.length).all isSpace)
  return bytes

variable (doubleSha256 : Bytes → Bytes)

def decodeBase58Check (text : Utf16) (maxRet : ℕ) : Option Bytes := do
  let full ← decodeBase58 text (maxRet + 4)
  guard (4 ≤ full.length)
  let payload := full.take (full.length - 4)
  guard ((doubleSha256 payload).take 4 = full.drop (full.length - 4))
  return payload

end Base58

/-- `CTxDestination`, as far as a string can stand for one. -/
inductive Destination where
  | none
  | pkHash (hash : Bytes)
  | scriptHash (hash : Bytes)
  | segwit (version : ℕ) (program : Bytes)
  deriving DecidableEq, Repr

inductive MessageVerificationResult where
  | errInvalidAddress
  | errAddressNoKey
  | errMalformedSignature
  | errPubkeyNotRecovered
  | errNotSigned
  | ok
  deriving DecidableEq, Repr

variable (doubleSha256 : Bytes → Bytes)

/-- The branch of `DecodeDestination` for a string that is no bech32 address. -/
def decodeBase58Destination (params : NetworkConfig) (text : Utf16) : Destination :=
  match decodeBase58Check doubleSha256 text 21 with
  | some (version :: hash) =>
      if hash.length = 20 ∧ version = params.p2pkhVersion then .pkHash hash
      else if hash.length = 20 ∧ version = params.p2shVersion then .scriptHash hash
      else .none
  | _ => .none

/-- `DecodeDestination`: three letters decide, the separator is not among them.  What bech32
addresses stand for is left open. -/
def decodeDestination (decodeSegwit : Utf16 → Option (ℕ × Bytes)) (params : NetworkConfig)
    (text : Utf16) : Destination :=
  if toLowerCase (text.take params.bech32Hrp.length) = params.bech32Hrp then
    match decodeSegwit text with
    | some (version, program) => .segwit version program
    | Option.none => .none
  else decodeBase58Destination doubleSha256 params text

variable (recover : Recover)

/-- The bit of the header byte that asks for the compressed key, a bit of an `int`. -/
def flagsCompressed (header : ℕ) : Bool := decide (4 ≤ ((header : ℤ) - 27) % 8)

/-- `RecoverCompact`, with the serialization of the key. -/
def recoverCompact (digest sigBytes : Bytes) : Option Bytes :=
  if sigBytes.length ≠ 65 then Option.none
  else
    let recid := (((header sigBytes : ℤ) - 27) % 4).toNat
    (recover digest (signatureR sigBytes) (signatureS sigBytes) recid).map
      (PublicKey.serialize (flagsCompressed (header sigBytes)))

def messageVerify (hash160 : Bytes → Bytes) (decodeSegwit : Utf16 → Option (ℕ × Bytes))
    (params : NetworkConfig) (address : Utf16) (sigBytes message : Bytes) :
    MessageVerificationResult :=
  match decodeDestination doubleSha256 decodeSegwit params address with
  | .none => .errInvalidAddress
  | .scriptHash _ => .errAddressNoKey
  | .segwit _ _ => .errAddressNoKey
  | .pkHash hash =>
      match recoverCompact recover (messageHash doubleSha256 message) sigBytes with
      | Option.none => .errPubkeyNotRecovered
      | some pubkey => if hash160 pubkey = hash then .ok else .errNotSigned

end Node

section Addresses

variable {doubleSha256 : Bytes → Bytes} {network : FicNetwork} {hash : Bytes}

/-- The P2PKH addresses of the main net that start with `FiC` or `Fic`. -/
def Node.PrefixClash (doubleSha256 : Bytes → Bytes) (network : FicNetwork) (hash : Bytes) : Prop :=
  network = .mainnet ∧
    (checkedNumber doubleSha256 36 hash / 58 ^ 30 / 58 = 49485 ∨
      checkedNumber doubleSha256 36 hash / 58 ^ 30 / 58 = 49509)

/-- The wallets look at one letter more. -/
theorem Node.prefixClash_of_wallet
    (hclash : ClientWallet.PrefixClash doubleSha256 network ⟨.p2pkh, hash⟩) :
    Node.PrefixClash doubleSha256 network hash := by
  obtain ⟨hnetwork, -, hquotient⟩ := hclash
  refine ⟨hnetwork, ?_⟩
  rcases hquotient with hquotient | hquotient
  · exact .inl (by rw [hquotient])
  · exact .inr (by rw [hquotient])

theorem Node.takes_bech32_mainnet_iff (hsize : ∀ bytes, (doubleSha256 bytes).length = 32)
    (hhash : hash.length = 20) :
    toLowerCase ((base58checkEncode doubleSha256 (36 :: hash)).take 3) = ascii "fic" ↔
      checkedNumber doubleSha256 36 hash / 58 ^ 30 / 58 = 49485 ∨
        checkedNumber doubleSha256 36 hash / 58 ^ 30 / 58 = 49509 := by
  obtain ⟨hfirst, low, hstart⟩ := exists_p2pkh_start hsize hhash rfl
  rw [hstart]
  generalize checkedNumber doubleSha256 36 hash / 58 ^ 30 = quotient at hfirst
  have hletters : ∀ digit < 58, (lowerUnit (b58Symbol digit) = 105 ↔ digit = 41) ∧
      (lowerUnit (b58Symbol digit) = 99 ↔ digit = 11 ∨ digit = 35) := by decide
  have hhrp : ascii "fic" = [102, 105, 99] := by decide
  have hcapital : lowerUnit (b58Symbol 14) = 102 := by decide
  have hsecond := (hletters (quotient / 58 / 58 % 58) (Nat.mod_lt _ (by decide))).1
  have hthird := (hletters (quotient / 58 % 58) (Nat.mod_lt _ (by decide))).2
  rw [hhrp, toLowerCase]
  simp only [List.map_cons, List.map_nil, List.cons_append, List.nil_append, List.take_succ_cons,
    List.take_zero, List.cons.injEq, hcapital, hsecond, hthird, and_true, true_and]
  omega

theorem Node.takes_bech32_iff (hsize : ∀ bytes, (doubleSha256 bytes).length = 32)
    (network : FicNetwork) (hhash : hash.length = 20) :
    toLowerCase ((base58checkEncode doubleSha256 (network.config.p2pkhVersion :: hash)).take
        network.config.bech32Hrp.length) = network.config.bech32Hrp ↔
      Node.PrefixClash doubleSha256 network hash := by
  cases network with
  | mainnet =>
    rw [Node.PrefixClash, eq_self_iff_true, true_and]
    exact Node.takes_bech32_mainnet_iff hsize hhash
  | testnet =>
    refine iff_of_false ?_ fun hclash => absurd hclash.1 nofun
    obtain ⟨digit, low, ⟨hge, hlt⟩, hstart⟩ := exists_first_of_bounds hsize
      (by decide : (111 : UInt8) ≠ 0) 111 rfl hhash 33 44 46 (by norm_num) (by norm_num)
      (by decide) (by decide)
    have hletters : ∀ digit < 46, 44 ≤ digit → lowerUnit (b58Symbol digit) ≠ 116 := by
      decide
    intro htakes
    change toLowerCase ((base58checkEncode doubleSha256 (111 :: hash)).take 4) = _ at htakes
    rw [hstart, List.take_succ_cons, toLowerCase, List.map_cons] at htakes
    exact hletters digit hlt hge (List.cons.inj htakes).1

theorem Node.mapM_base58Digit {digits : List ℕ} (hdigits : ∀ digit ∈ digits, digit < 58) :
    (digits.map b58Symbol).mapM Node.base58Digit = some digits := by
  have hdigit : ∀ digit < 58, Node.base58Digit (b58Symbol digit) = some digit := by
    decide
  induction digits with
  | nil => rfl
  | cons digit digits ih =>
    obtain ⟨hfirst, hothers⟩ := List.forall_mem_cons.mp hdigits
    rw [List.map_cons, List.mapM_cons, hdigit digit hfirst, ih hothers]
    rfl

/-- The node reads the Base58 it would write. -/
theorem Node.decodeBase58_symbols {digits : List ℕ} (hdigits : ∀ digit ∈ digits, digit < 58)
    {maxRetLen : ℕ} (hlength : (rebase 58 256 digits).length ≤ maxRetLen) :
    Node.decodeBase58 (digits.map b58Symbol) maxRetLen =
      some ((rebase 58 256 digits).map UInt8.ofNat) := by
  have hsymbol : ∀ digit < 58, Node.isSpace (b58Symbol digit) = false := by decide
  have hplain : ∀ unit ∈ digits.map b58Symbol, Node.isSpace unit = false := by
    intro unit hmem
    obtain ⟨digit, hdigit, rfl⟩ := List.mem_map.mp hmem
    exact hsymbol digit (hdigits digit hdigit)
  have hbody : (digits.map b58Symbol).dropWhile Node.isSpace = digits.map b58Symbol := by
    cases hunits : digits.map b58Symbol with
    | nil => rfl
    | cons unit units =>
      have hfirst := hplain unit (hunits ▸ List.mem_cons_self)
      rw [List.dropWhile_cons, hfirst, if_neg Bool.false_ne_true]
  have hsymbols : (digits.map b58Symbol).takeWhile (fun unit => !Node.isSpace unit) =
      digits.map b58Symbol := by
    rw [List.takeWhile_eq_self_iff]
    intro unit hmem
    rw [hplain unit hmem, Bool.not_false]
  rw [Node.decodeBase58, hbody, hsymbols, Node.mapM_base58Digit hdigits]
  simp only [Option.bind_eq_bind, Option.bind_some, List.length_map, hlength, guard_true]
  rw [List.drop_of_length_le (by rw [List.length_map])]
  rfl

theorem Node.decodeBase58Check_encode (hsize : ∀ bytes, (doubleSha256 bytes).length = 32)
    {payload : Bytes} {maxRet : ℕ} (hlength : payload.length ≤ maxRet) :
    Node.decodeBase58Check doubleSha256 (base58checkEncode doubleSha256 payload) maxRet =
      some payload := by
  have hchecksum := length_checksum hsize payload
  have hdigits : ∀ digit ∈ rebase 256 58
      ((payload ++ (doubleSha256 payload).take 4).map UInt8.toNat), digit < 58 :=
    fun digit hmem => lt_of_mem_rebase (by decide) hmem
  have hback : rebase 58 256 (rebase 256 58
      ((payload ++ (doubleSha256 payload).take 4).map UInt8.toNat)) =
        (payload ++ (doubleSha256 payload).take 4).map UInt8.toNat :=
    rebase_rebase (by decide) (by decide) toNat_lt_of_mem_map
  have hfull := @Node.decodeBase58_symbols _ hdigits (maxRet + 4) (by
    rw [hback, List.length_map, List.length_append, hchecksum]
    omega)
  rw [hback, map_ofNat_toNat] at hfull
  have hsplit : (payload ++ (doubleSha256 payload).take 4).length - 4 = payload.length := by
    rw [List.length_append, hchecksum, Nat.add_sub_cancel]
  have hlong : 4 ≤ (payload ++ (doubleSha256 payload).take 4).length := by
    rw [List.length_append, hchecksum]
    exact Nat.le_add_left 4 _
  rw [Node.decodeBase58Check, base58checkEncode_eq, hfull]
  simp only [Option.bind_eq_bind, Option.bind_some, hlong, hsplit, List.take_left, List.drop_left,
    guard_true]
  rfl

/-- What the node makes of a P2PKH address. -/
theorem Node.decodeDestination_p2pkh (hsize : ∀ bytes, (doubleSha256 bytes).length = 32)
    (decodeSegwit : Utf16 → Option (ℕ × Bytes)) (hhash : hash.length = 20) :
    (¬ Node.PrefixClash doubleSha256 network hash →
      Node.decodeDestination doubleSha256 decodeSegwit network.config
        (base58checkEncode doubleSha256 (network.config.p2pkhVersion :: hash)) = .pkHash hash) ∧
      (Node.PrefixClash doubleSha256 network hash → ∀ other,
        Node.decodeDestination doubleSha256 decodeSegwit network.config
          (base58checkEncode doubleSha256 (network.config.p2pkhVersion :: hash)) ≠
            .pkHash other) := by
  have htakes := Node.takes_bech32_iff hsize network hhash
  constructor
  · intro hclash
    rw [Node.decodeDestination, if_neg (htakes.not.mpr hclash), Node.decodeBase58Destination,
      Node.decodeBase58Check_encode hsize (by rw [List.length_cons, hhash])]
    dsimp only
    rw [if_pos ⟨hhash, rfl⟩]
  · intro hclash other
    rw [Node.decodeDestination, if_pos (htakes.mpr hclash)]
    cases decodeSegwit (base58checkEncode doubleSha256 (network.config.p2pkhVersion :: hash)) with
    | none => exact nofun
    | some found => exact nofun

end Addresses

section Verdicts

variable {doubleSha256 : Bytes → Bytes} {recover : Recover} {hash160 : Bytes → Bytes}
  {network : FicNetwork} {hash sigBytes message : Bytes}

/-- A key is recovered from a signature, and a serialization of it has the hash. -/
def Recovers (recover : Recover) (hash160 : Bytes → Bytes) (digest sigBytes : Bytes) (recid : ℕ)
    (compressed : Bool) (hash : Bytes) : Prop :=
  ∃ key, recover digest (signatureR sigBytes) (signatureS sigBytes) recid = some key ∧
    hash160 (key.serialize compressed) = hash

theorem verifyDecoded_iff (platform : Platform) (hlength : sigBytes.length = 65) :
    Platform.verifyDecoded doubleSha256 recover hash160 platform ⟨.p2pkh, hash⟩ sigBytes message =
        .ok true ↔
      (27 ≤ header sigBytes ∧ header sigBytes ≤ 42) ∧
        Recovers recover hash160 (platform.messageHash doubleSha256 message) sigBytes
          ((header sigBytes - 27) % 4) true hash := by
  rw [Platform.verifyDecoded, if_neg (not_not.mpr rfl), if_neg (not_not.mpr hlength)]
  split_ifs with hrange
  · refine ⟨nofun, ?_⟩
    rintro ⟨hheader, -⟩
    omega
  · rw [Recovers]
    cases recover (platform.messageHash doubleSha256 message) (signatureR sigBytes)
        (signatureS sigBytes) ((header sigBytes - 27) % 4) with
    | none =>
      refine ⟨nofun, ?_⟩
      rintro ⟨-, key, hkey, -⟩
      exact absurd hkey nofun
    | some key =>
      simp only [Except.ok.injEq, decide_eq_true_eq, Option.some.injEq, exists_eq_left']
      exact ⟨fun heq => ⟨by omega, heq⟩, fun hboth => hboth.2⟩

/-- A wallet that reads the address, unless it starts like a bech32 one. -/
theorem ReadsUnlessClash.verify_iff {decoded : Except String DecodedAddress}
    (hreads : ReadsUnlessClash doubleSha256 network hash decoded) (platform : Platform)
    (hlength : sigBytes.length = 65) :
    (decoded >>= fun address =>
        Platform.verifyDecoded doubleSha256 recover hash160 platform address sigBytes message) =
        .ok true ↔
      ¬ PrefixClash doubleSha256 network ⟨.p2pkh, hash⟩ ∧
        (27 ≤ header sigBytes ∧ header sigBytes ≤ 42) ∧
          Recovers recover hash160 (platform.messageHash doubleSha256 message) sigBytes
            ((header sigBytes - 27) % 4) true hash := by
  by_cases hclash : PrefixClash doubleSha256 network ⟨.p2pkh, hash⟩
  · obtain ⟨_, rfl⟩ := hreads.2 hclash
    exact iff_of_false nofun fun hboth => hboth.1 hclash
  · obtain rfl := hreads.1 hclash
    exact (verifyDecoded_iff platform hlength).trans (and_iff_right hclash).symm

theorem Web.verifyMessage_iff (hsize : ∀ bytes, (doubleSha256 bytes).length = 32)
    (hhash : hash.length = 20) (hlength : sigBytes.length = 65) :
    Web.verifyMessage doubleSha256 recover hash160
        (base58checkEncode doubleSha256 (network.config.p2pkhVersion :: hash)) sigBytes message
        network.config = .ok true ↔
      ¬ PrefixClash doubleSha256 network ⟨.p2pkh, hash⟩ ∧
        (27 ≤ header sigBytes ∧ header sigBytes ≤ 42) ∧
          Recovers recover hash160 (messageHash doubleSha256 message) sigBytes
            ((header sigBytes - 27) % 4) true hash := by
  rw [← messageHash_web]
  exact (Web.decodeAddress_p2pkh hsize hhash).verify_iff .web hlength

theorem Mobile.verifyMessage_iff (hsize : ∀ bytes, (doubleSha256 bytes).length = 32)
    {packages : Mobile.Packages} (hpackages : packages.Correct doubleSha256)
    (hhash : hash.length = 20) (hlength : sigBytes.length = 65) :
    Mobile.verifyMessage doubleSha256 recover hash160 packages
        (base58checkEncode doubleSha256 (network.config.p2pkhVersion :: hash)) sigBytes message
        network.config = .ok true ↔
      ¬ PrefixClash doubleSha256 network ⟨.p2pkh, hash⟩ ∧
        (27 ≤ header sigBytes ∧ header sigBytes ≤ 42) ∧
          Recovers recover hash160 (Platform.messageHash doubleSha256 .mobile message) sigBytes
            ((header sigBytes - 27) % 4) true hash :=
  (Mobile.decodeAddress_p2pkh hsize hpackages hhash).verify_iff .mobile hlength

theorem Node.messageVerify_iff (hsize : ∀ bytes, (doubleSha256 bytes).length = 32)
    (decodeSegwit : Utf16 → Option (ℕ × Bytes)) (hhash : hash.length = 20)
    (hlength : sigBytes.length = 65) :
    Node.messageVerify doubleSha256 recover hash160 decodeSegwit network.config
        (base58checkEncode doubleSha256 (network.config.p2pkhVersion :: hash)) sigBytes message =
        .ok ↔
      ¬ Node.PrefixClash doubleSha256 network hash ∧
        Recovers recover hash160 (messageHash doubleSha256 message) sigBytes
          (((header sigBytes : ℤ) - 27) % 4).toNat (Node.flagsCompressed (header sigBytes))
          hash := by
  obtain ⟨hpaid, hrefused⟩ :=
    @Node.decodeDestination_p2pkh doubleSha256 network hash hsize decodeSegwit hhash
  rw [Node.messageVerify]
  by_cases hclash : Node.PrefixClash doubleSha256 network hash
  · have hother := hrefused hclash
    refine iff_of_false ?_ fun hboth => hboth.1 hclash
    cases hdestination : Node.decodeDestination doubleSha256 decodeSegwit network.config
        (base58checkEncode doubleSha256 (network.config.p2pkhVersion :: hash)) with
    | none => exact nofun
    | pkHash other => exact absurd hdestination (hother other)
    | scriptHash other => exact nofun
    | segwit version program => exact nofun
  · have hrecover : Node.recoverCompact recover (messageHash doubleSha256 message) sigBytes =
        (recover (messageHash doubleSha256 message) (signatureR sigBytes) (signatureS sigBytes)
          (((header sigBytes : ℤ) - 27) % 4).toNat).map
            (PublicKey.serialize (Node.flagsCompressed (header sigBytes))) := by
      rw [Node.recoverCompact, if_neg (not_not.mpr hlength)]
    rw [hpaid hclash, hrecover, Recovers, and_iff_right hclash]
    dsimp only
    cases recover (messageHash doubleSha256 message) (signatureR sigBytes) (signatureS sigBytes)
        (((header sigBytes : ℤ) - 27) % 4).toNat with
    | none =>
      refine iff_of_false nofun ?_
      rintro ⟨key, hkey, -⟩
      exact absurd hkey nofun
    | some key =>
      simp only [Option.map_some, Option.some.injEq, exists_eq_left']
      split_ifs with hsame
      · exact iff_of_true rfl hsame
      · exact iff_of_false nofun hsame

/-- What decides whether the verdicts agree: whether recovery is defined for the numbers of
the signature, how the address starts, the header byte, and the digest of the mobile
wallet. -/
def VerdictsAgree (doubleSha256 : Bytes → Bytes) (network : FicNetwork)
    (hash sigBytes message : Bytes) : Prop :=
  ¬(InRange (signatureR sigBytes) ∧ InRange (signatureS sigBytes)) ∨
    PrefixClash doubleSha256 network ⟨.p2pkh, hash⟩ ∨
    (Node.PrefixClash doubleSha256 network hash ∧
      ¬(27 ≤ header sigBytes ∧ header sigBytes ≤ 42)) ∨
    (¬ Node.PrefixClash doubleSha256 network hash ∧
      (27 ≤ header sigBytes ∧ header sigBytes ≤ 42) ∧
      Node.flagsCompressed (header sigBytes) = true ∧
      Platform.messageHash doubleSha256 .mobile message = messageHash doubleSha256 message)

def recoverOne (digests : Bytes → Bool) : Recover := fun digest r s _ =>
  if digests digest = true ∧ InRange r ∧ InRange s then some ⟨0, 0⟩ else none

theorem recoverOne_ranged (digests : Bytes → Bool) : (recoverOne digests).Ranged := by
  intro digest r s recid hsome
  rw [recoverOne] at hsome
  split_ifs at hsome with hrange
  · exact hrange.2
  · exact absurd hsome nofun

theorem recovers_recoverOne {digests : Bytes → Bool} {digest : Bytes} {recid : ℕ}
    {compressed : Bool} (hr : InRange (signatureR sigBytes)) (hs : InRange (signatureS sigBytes)) :
    Recovers (recoverOne digests) hash160 digest sigBytes recid compressed hash ↔
      digests digest = true ∧ hash160 (PublicKey.serialize compressed ⟨0, 0⟩) = hash := by
  rw [Recovers, recoverOne]
  constructor
  · rintro ⟨key, hkey, hhash⟩
    split_ifs at hkey with hrange
    obtain rfl := Option.some.inj hkey
    exact ⟨hrange.1, hhash⟩
  · rintro ⟨hdigest, hhash⟩
    exact ⟨⟨0, 0⟩, if_pos ⟨hdigest, hr, hs⟩, hhash⟩

theorem recid_eq (hheader : 27 ≤ header sigBytes) :
    (((header sigBytes : ℤ) - 27) % 4).toNat = (header sigBytes - 27) % 4 := by
  omega

end Verdicts

theorem verdicts_agree_iff (doubleSha256 : Bytes → Bytes)
    (hsize : ∀ bytes, (doubleSha256 bytes).length = 32) (packages : Mobile.Packages)
    (hpackages : packages.Correct doubleSha256) (decodeSegwit : Utf16 → Option (ℕ × Bytes))
    (network : FicNetwork) (hash : Bytes) (hhash : hash.length = 20) (sigBytes : Bytes)
    (hlength : sigBytes.length = 65) (message : Bytes) :
    (∀ (recover : Recover) (hash160 : Bytes → Bytes), recover.Ranged →
      let address := base58checkEncode doubleSha256 (network.config.p2pkhVersion :: hash)
      let node := Node.messageVerify doubleSha256 recover hash160 decodeSegwit network.config
        address sigBytes message
      (Web.verifyMessage doubleSha256 recover hash160 address sigBytes message network.config =
          .ok true ↔ node = .ok) ∧
        (Mobile.verifyMessage doubleSha256 recover hash160 packages address sigBytes message
          network.config = .ok true ↔ node = .ok)) ↔
      VerdictsAgree doubleSha256 network hash sigBytes message := by
  simp only [Web.verifyMessage_iff hsize hhash hlength,
    Mobile.verifyMessage_iff hsize hpackages hhash hlength,
    Node.messageVerify_iff hsize decodeSegwit hhash hlength]
  constructor
  · intro hagree
    by_cases hrange : InRange (signatureR sigBytes) ∧ InRange (signatureS sigBytes)
    swap
    · exact .inl hrange
    by_cases hwallet : PrefixClash doubleSha256 network ⟨.p2pkh, hash⟩
    · exact .inr (.inl hwallet)
    obtain ⟨hr, hs⟩ := hrange
    -- A recovery and a hash under which every serialization of the key fits the address.
    have hall := (hagree (recoverOne fun _ => true) (fun _ => hash) (recoverOne_ranged _)).1
    simp only [recovers_recoverOne hr hs, and_true] at hall
    by_cases hnode : Node.PrefixClash doubleSha256 network hash
    · refine .inr (.inr (.inl ⟨hnode, fun hheader => ?_⟩))
      exact (hall.mp ⟨hwallet, hheader⟩) hnode
    · have hheader := (hall.mpr hnode).2
      refine .inr (.inr (.inr ⟨hnode, hheader, ?_, ?_⟩))
      · -- A hash under which only the compressed key fits.
        by_contra hflag
        have hcompressed := (hagree (recoverOne fun _ => true)
          (fun bytes => if bytes.length = 33 then hash else []) (recoverOne_ranged _)).1
        rw [Bool.not_eq_true] at hflag
        simp only [recovers_recoverOne hr hs, hflag, true_and] at hcompressed
        have hempty := (hcompressed.mp ⟨hwallet, hheader, rfl⟩).2
        have hcontra : ([] : Bytes).length = 20 := by
          rw [← hhash, ← hempty]
          rfl
        exact absurd hcontra (by decide)
      · -- A recovery that is only defined for the node's digest.
        by_contra hdigest
        have hmobile := (hagree
          (recoverOne fun digest => decide (digest = messageHash doubleSha256 message))
          (fun _ => hash) (recoverOne_ranged _)).2
        simp only [recovers_recoverOne hr hs, decide_eq_true_eq, and_true] at hmobile
        exact hdigest (hmobile.mpr hnode).2.2
  · intro hcondition recover hash160 hranged
    rcases hcondition with hrange | hwallet | ⟨hnode, hheader⟩ | ⟨hnode, hheader, hflag, hdigest⟩
    · have hnever : ∀ digest recid compressed,
          ¬Recovers recover hash160 digest sigBytes recid compressed hash := by
        rintro digest recid compressed ⟨key, hkey, -⟩
        exact hrange (hranged digest _ _ recid (by rw [hkey]; rfl))
      exact ⟨iff_of_false (fun hweb => hnever _ _ _ hweb.2.2) fun hnode => hnever _ _ _ hnode.2,
        iff_of_false (fun hmobile => hnever _ _ _ hmobile.2.2) fun hnode => hnever _ _ _ hnode.2⟩
    · have hnode := Node.prefixClash_of_wallet hwallet
      exact ⟨iff_of_false (fun hweb => hweb.1 hwallet) fun hboth => hboth.1 hnode,
        iff_of_false (fun hmobile => hmobile.1 hwallet) fun hboth => hboth.1 hnode⟩
    · exact ⟨iff_of_false (fun hweb => hheader hweb.2.1) fun hboth => hboth.1 hnode,
        iff_of_false (fun hmobile => hheader hmobile.2.1) fun hboth => hboth.1 hnode⟩
    · have hwallet : ¬ PrefixClash doubleSha256 network ⟨.p2pkh, hash⟩ :=
        fun hclash => hnode (Node.prefixClash_of_wallet hclash)
      rw [recid_eq hheader.1, hflag, hdigest, and_iff_right hwallet, and_iff_right hheader,
        and_iff_right hnode]
      exact ⟨Iff.rfl, Iff.rfl⟩

section Sample

/-- The first key signs the empty message. -/
def sampleR : ℕ := 0xbd6407e5296249f5b21a384b5009765f0e57278ef0c1ae86e80d8b1b20234f4f

def sampleS : ℕ := 0x3d4dd74ff66ca101b375b1ecf4a89ec2d11c0f3a150f1e50062c965065685485

def sampleSignature (header : UInt8) : Bytes :=
  header :: (littleEndian 32 sampleR).reverse ++ (littleEndian 32 sampleS).reverse

/-- Recovery where that signature asks for it: the key is the generator of the curve. -/
def sampleRecover : Recover := fun digest r s recid =>
  if digest = messageHash Sha256.doubleSha256 [] ∧ r = sampleR ∧ s = sampleS ∧ recid = 0 then
    some ⟨0x79be667ef9dcbbac55a06295ce870b07029bfcdb2dce28d959f2815b16f81798,
      0x483ada7726a3c4655da4fbfc0e1108a8fd17b448a68554199c47d08ffb10d4b8⟩
  else none

theorem ranged_sampleRecover : sampleRecover.Ranged := by
  intro digest r s recid hsome
  rw [sampleRecover] at hsome
  split_ifs at hsome with hsigned
  · obtain ⟨-, rfl, rfl, -⟩ := hsigned
    decide
  · exact absurd hsome nofun

/-- RIPEMD-160 of SHA-256 of the two forms of that key. -/
def sampleHash160 (bytes : Bytes) : Bytes :=
  if bytes.length = 33 then sampleKeyHash
  else (littleEndian 20 0x91b24bf9f5288532960ac687abb035127b1d28a5).reverse

def sampleAddress : Utf16 :=
  base58checkEncode Sha256.doubleSha256 (FicNetwork.testnet.config.p2pkhVersion :: sampleKeyHash)

/-- The verdicts on that signature with either header byte. -/
theorem sample_verdicts :
    Web.verifyMessage Sha256.doubleSha256 sampleRecover sampleHash160 sampleAddress
        (sampleSignature 31) [] FicNetwork.testnet.config = .ok true ∧
      Web.verifyMessage Sha256.doubleSha256 sampleRecover sampleHash160 sampleAddress
        (sampleSignature 27) [] FicNetwork.testnet.config = .ok true ∧
      Mobile.verifyMessage Sha256.doubleSha256 sampleRecover sampleHash160
        (.reference Sha256.doubleSha256) sampleAddress (sampleSignature 27) []
        FicNetwork.testnet.config = .ok true ∧
      Node.messageVerify Sha256.doubleSha256 sampleRecover sampleHash160 (fun _ => none)
        FicNetwork.testnet.config sampleAddress (sampleSignature 27) [] = .errNotSigned := by
  decide +kernel

/-- The test net has no addresses that start like bech32 ones. -/
theorem not_prefixClash_testnet (doubleSha256 : Bytes → Bytes) (hash : Bytes) :
    ¬ Node.PrefixClash doubleSha256 .testnet hash :=
  fun hclash => absurd hclash.1 nofun

theorem verdicts_agree_compressed :
    Web.verifyMessage Sha256.doubleSha256 sampleRecover sampleHash160 sampleAddress
        (sampleSignature 31) [] FicNetwork.testnet.config = .ok true ∧
      Node.messageVerify Sha256.doubleSha256 sampleRecover sampleHash160 (fun _ => none)
        FicNetwork.testnet.config sampleAddress (sampleSignature 31) [] = .ok := by
  have hagree := verdicts_agree_iff Sha256.doubleSha256 Sha256.length_doubleSha256
    (.reference Sha256.doubleSha256)
    (Mobile.Packages.reference_correct Sha256.length_doubleSha256) (fun _ => none) .testnet
    sampleKeyHash rfl (sampleSignature 31) rfl []
  have hcondition : VerdictsAgree Sha256.doubleSha256 .testnet sampleKeyHash
      (sampleSignature 31) [] :=
    .inr (.inr (.inr ⟨not_prefixClash_testnet _ _, by decide, by decide,
      messageHash_mobile _ (by decide)⟩))
  exact ⟨sample_verdicts.1,
    (hagree.mpr hcondition _ _ ranged_sampleRecover).1.mp sample_verdicts.1⟩

/-- Header byte 27: the wallets hash the compressed key, the node the other form. -/
theorem verdicts_differ_uncompressed :
    sampleRecover.Ranged ∧
      Web.verifyMessage Sha256.doubleSha256 sampleRecover sampleHash160 sampleAddress
        (sampleSignature 27) [] FicNetwork.testnet.config = .ok true ∧
      Mobile.verifyMessage Sha256.doubleSha256 sampleRecover sampleHash160
        (.reference Sha256.doubleSha256) sampleAddress (sampleSignature 27) []
        FicNetwork.testnet.config = .ok true ∧
      Node.messageVerify Sha256.doubleSha256 sampleRecover sampleHash160 (fun _ => none)
        FicNetwork.testnet.config sampleAddress (sampleSignature 27) [] = .errNotSigned :=
  ⟨ranged_sampleRecover, sample_verdicts.2⟩

end Sample

end FirstIslamicCoin.ClientWallet
