import FirstIslamicCoin.ClientWallet.Encoding
import FirstIslamicCoin.Core.Sha256

/-!
# Addresses of the wallets

`crypto.js` and `address.dart` make and read P2PKH, P2SH and P2WPKH addresses.  Both look
at the lower-cased start of an address before anything else, so a Base58 address that
happens to start like a bech32 one is taken for one: that is possible for P2PKH on the main
net only, whose addresses start with `F`.  The web wallet has its own bech32 reader, which
cuts the checksum off without comparing it.
-/

namespace FirstIslamicCoin.ClientWallet

open ByteCodec

section Networks

inductive FicNetwork where
  | mainnet
  | testnet
  deriving DecidableEq, Repr

structure NetworkConfig where
  name : String
  p2pkhVersion : UInt8
  p2shVersion : UInt8
  bech32Hrp : Utf16

/-- The parameters, the same in both wallets. -/
def FicNetwork.config : FicNetwork → NetworkConfig
  | .mainnet => ⟨"FirstIslamicCoin Mainnet", 36, 28, ascii "fic"⟩
  | .testnet => ⟨"FirstIslamicCoin Testnet", 111, 196, ascii "tfic"⟩

inductive AddressType where
  | p2pkh
  | p2sh
  | p2wpkh
  deriving DecidableEq, Repr

structure DecodedAddress where
  type : AddressType
  hash : Bytes
  deriving DecidableEq, Repr

def startsLikeBech32 (address : Utf16) (network : NetworkConfig) : Bool :=
  (network.bech32Hrp ++ [separator]).isPrefixOf (toLowerCase address)

/-- The version byte of a Base58Check payload decides the type. -/
def decodeVersioned (decoded : Bytes) (network : NetworkConfig) (mismatch : String) :
    Except String DecodedAddress :=
  match decoded with
  | [] => .error "Invalid Base58Check address length"
  | version :: payload =>
      if payload.length ≠ 20 then .error "Invalid Base58Check address length"
      else if version = network.p2pkhVersion then .ok ⟨.p2pkh, payload⟩
      else if version = network.p2shVersion then .ok ⟨.p2sh, payload⟩
      else .error ("Address version byte " ++ toString version ++ " does not match " ++ mismatch)

end Networks

namespace Web

variable (doubleSha256 : Bytes → Bytes)

def versionedPayload (version : UInt8) (hash : Bytes) : Except String Bytes :=
  if 20 < hash.length then .error "offset is out of bounds"
  else .ok (version :: (hash ++ List.replicate (20 - hash.length) 0))

def p2pkhAddress (pubkeyHash20 : Bytes) (network : NetworkConfig) : Except String Utf16 := do
  let payload ← versionedPayload network.p2pkhVersion pubkeyHash20
  return base58checkEncode doubleSha256 payload

def p2shAddress (scriptHash20 : Bytes) (network : NetworkConfig) : Except String Utf16 := do
  let payload ← versionedPayload network.p2shVersion scriptHash20
  return base58checkEncode doubleSha256 payload

def p2wpkhAddress (pubkeyHash20 : Bytes) (network : NetworkConfig) : Except String Utf16 := do
  let program ← convertBits 32 false ((pubkeyHash20.map UInt8.toNat).map Nat.cast) 8 5 true
  return bech32Encode network.bech32Hrp (0 :: program)

def encodeAddress (decoded : DecodedAddress) (network : NetworkConfig) : Except String Utf16 :=
  match decoded.type with
  | .p2pkh => p2pkhAddress doubleSha256 decoded.hash network
  | .p2sh => p2shAddress doubleSha256 decoded.hash network
  | .p2wpkh => p2wpkhAddress decoded.hash network

/-- The bech32 branch of `decodeAddress`. -/
def decodeBech32 (address : Utf16) (network : NetworkConfig) : Except String DecodedAddress :=
  let (hrp, data) := bech32Decode address
  if hrp ≠ network.bech32Hrp then .error "Address is for a different network"
  else do
    let program ← convertBits 32 false (data.drop 1) 5 8 false
    if data.head? ≠ some 0 ∨ program.length ≠ 20 then
      .error "Unsupported witness version/program length"
    else return ⟨.p2wpkh, program.map UInt8.ofNat⟩

def decodeAddress (address : Utf16) (network : NetworkConfig) : Except String DecodedAddress :=
  if startsLikeBech32 address network then decodeBech32 address network
  else do
    let decoded ← base58checkDecode doubleSha256 address
    decodeVersioned decoded network "this network"

end Web

namespace Mobile

/-- The packages `bs58check` and `bech32`. -/
structure Packages where
  bs58checkEncode : Bytes → Utf16
  bs58checkDecode : Utf16 → Except String Bytes
  bech32Encode : Utf16 → List ℕ → Except String Utf16
  bech32Decode : Utf16 → ℕ → Except String (Utf16 × List ℕ)

/-- A human-readable part in lower case and groups of 5 bits, 90 characters in all. -/
structure Bech32Fits (hrp : Utf16) (data : List ℕ) : Prop where
  nonempty : hrp ≠ []
  lower : ∀ unit ∈ hrp, 97 ≤ unit ∧ unit ≤ 122
  groups : ∀ value ∈ data, value < 32
  length : hrp.length + 7 + data.length ≤ 90

/-- The packages do what Base58Check and bech32 are: they read what they write, and bech32
refuses mixed case. -/
structure Packages.Correct (doubleSha256 : Bytes → Bytes) (packages : Packages) : Prop where
  base58_encode : ∀ payload,
    packages.bs58checkEncode payload = base58checkEncode doubleSha256 payload
  base58_decode : ∀ payload,
    packages.bs58checkDecode (base58checkEncode doubleSha256 payload) = .ok payload
  bech32_encode : ∀ hrp data, Bech32Fits hrp data →
    packages.bech32Encode hrp data = .ok (ClientWallet.bech32Encode hrp data)
  bech32_decode : ∀ hrp data limit, Bech32Fits hrp data →
    (ClientWallet.bech32Encode hrp data).length ≤ limit →
      packages.bech32Decode (ClientWallet.bech32Encode hrp data) limit = .ok (hrp, data)
  bech32_mixed : ∀ text limit, (∃ unit ∈ text, 65 ≤ unit ∧ unit ≤ 90) →
    (∃ unit ∈ text, 97 ≤ unit ∧ unit ≤ 122) →
      ∃ message, packages.bech32Decode text limit = .error message

variable (packages : Packages)

def p2pkhAddress (pubkeyHash20 : Bytes) (network : NetworkConfig) : Except String Utf16 :=
  if pubkeyHash20.length ≠ 20 then .error "pubkeyHash20 must be exactly 20 bytes"
  else .ok (packages.bs58checkEncode (network.p2pkhVersion :: pubkeyHash20))

def p2shAddress (scriptHash20 : Bytes) (network : NetworkConfig) : Except String Utf16 :=
  if scriptHash20.length ≠ 20 then .error "scriptHash20 must be exactly 20 bytes"
  else .ok (packages.bs58checkEncode (network.p2shVersion :: scriptHash20))

def p2wpkhAddress (pubkeyHash20 : Bytes) (network : NetworkConfig) : Except String Utf16 :=
  if pubkeyHash20.length ≠ 20 then .error "pubkeyHash20 must be exactly 20 bytes"
  else do
    let witnessProgram ← convertBits 64 true ((pubkeyHash20.map UInt8.toNat).map Nat.cast) 8 5 true
    packages.bech32Encode network.bech32Hrp (0 :: witnessProgram)

def encodeAddress (decoded : DecodedAddress) (network : NetworkConfig) : Except String Utf16 :=
  match decoded.type with
  | .p2pkh => p2pkhAddress packages decoded.hash network
  | .p2sh => p2shAddress packages decoded.hash network
  | .p2wpkh => p2wpkhAddress packages decoded.hash network

def decodeBech32 (address : Utf16) (network : NetworkConfig) : Except String DecodedAddress := do
  let (hrp, data) ← packages.bech32Decode address address.length
  if hrp ≠ network.bech32Hrp then .error "Address is for a different network"
  else
    match data with
    | [] => .error "RangeError"
    | witnessVersion :: groups =>
        let program ← convertBits 64 true (groups.map Nat.cast) 5 8 false
        if witnessVersion ≠ 0 ∨ program.length ≠ 20 then
          .error "Unsupported witness version/program length"
        else return ⟨.p2wpkh, program.map UInt8.ofNat⟩

def decodeAddress (address : Utf16) (network : NetworkConfig) : Except String DecodedAddress :=
  if startsLikeBech32 address network then decodeBech32 packages address network
  else do
    let decoded ← packages.bs58checkDecode address
    decodeVersioned decoded network network.name

end Mobile

section Base58Start

variable {doubleSha256 : Bytes → Bytes} {network : NetworkConfig}

/-- The number a Base58Check address of a hash stands for, checksum included. -/
def checkedNumber (doubleSha256 : Bytes → Bytes) (version : UInt8) (hash : Bytes) : ℕ :=
  numeralValue 256 ((version :: hash ++ (doubleSha256 (version :: hash)).take 4).map UInt8.toNat)

variable {hash : Bytes}

theorem checkedNumber_bounds (hsize : ∀ bytes, (doubleSha256 bytes).length = 32) (version : UInt8)
    (hhash : hash.length = 20) :
    version.toNat * 256 ^ 24 ≤ checkedNumber doubleSha256 version hash ∧
      checkedNumber doubleSha256 version hash < (version.toNat + 1) * 256 ^ 24 := by
  let rest := (hash ++ (doubleSha256 (version :: hash)).take 4).map UInt8.toNat
  have hrest : rest.length = 24 := by
    simp only [rest, List.length_map, List.length_append, hhash, length_checksum hsize]
  have hvalue : checkedNumber doubleSha256 version hash =
      version.toNat * 256 ^ 24 + numeralValue 256 rest := by
    have hsplit := numeralValue_append 256 [version.toNat] rest
    rw [hrest] at hsplit
    rw [checkedNumber, List.cons_append, List.map_cons]
    refine hsplit.trans ?_
    rw [numeralValue, List.foldl_cons, List.foldl_nil, Nat.zero_mul, Nat.zero_add]
  have hless : numeralValue 256 rest < 256 ^ 24 := by
    have hdigits : ∀ digit ∈ rest, digit < 256 := toNat_lt_of_mem_map
    have hlt := numeralValue_lt (by decide) hdigits
    rwa [hrest] at hlt
  rw [hvalue, Nat.add_mul, Nat.one_mul]
  exact ⟨Nat.le_add_right _ _, by omega⟩

/-- The leading characters of a Base58Check address. -/
theorem exists_base58_start {version : UInt8} (hversion : version ≠ 0) (count : ℕ)
    (hlarge : 58 ^ count ≤ checkedNumber doubleSha256 version hash) :
    ∃ low : Utf16, base58checkEncode doubleSha256 (version :: hash) =
      ((Nat.digits 58 (checkedNumber doubleSha256 version hash / 58 ^ count)).reverse.map
        b58Symbol) ++ low := by
  have hzeros : leadingZeros
      ((version :: hash ++ (doubleSha256 (version :: hash)).take 4).map UInt8.toNat) = 0 := by
    have hne : version.toNat ≠ 0 := fun hzero => hversion (UInt8.toNat_inj.mp hzero)
    rw [leadingZeros, List.cons_append, List.map_cons, List.takeWhile_cons_of_neg (by simpa using hne)]
    rfl
  obtain ⟨low, _, hdigits⟩ := exists_digits_reverse_eq (by decide : 1 < 58) count hlarge
  refine ⟨low.map b58Symbol, ?_⟩
  rw [base58checkEncode_eq, rebase, hzeros, List.replicate_zero, List.nil_append,
    digitLoop_eq (by decide), List.append_nil, ← List.map_append, ← hdigits]
  rfl

theorem digits_four {value : ℕ} (hlow : 58 ^ 3 ≤ value) (hhigh : value < 58 ^ 4) :
    (Nat.digits 58 value).reverse =
      [value / 58 / 58 / 58, value / 58 / 58 % 58, value / 58 % 58, value % 58] := by
  have hlast : value / 58 / 58 / 58 < 58 := by omega
  rw [Nat.digits_def' (by decide) (by omega), Nat.digits_def' (by decide) (by omega),
    Nat.digits_def' (by decide) (by omega),
    Nat.digits_of_lt 58 (value / 58 / 58 / 58) (by omega) hlast]
  rfl

/-- A text that starts with other letters than the human-readable part. -/
theorem not_startsLikeBech32 {text : Utf16} {least most : ℕ}
    (hfirst : ∃ digit low, (least ≤ digit ∧ digit < most) ∧ text = b58Symbol digit :: low)
    {letter : UInt16} {hrp : Utf16} (hhrp : network.bech32Hrp = letter :: hrp)
    (hletters : ∀ digit < most, least ≤ digit → lowerUnit (b58Symbol digit) ≠ letter) :
    startsLikeBech32 text network = false := by
  obtain ⟨digit, low, ⟨hge, hlt⟩, rfl⟩ := hfirst
  rw [startsLikeBech32, hhrp, toLowerCase, List.map_cons, List.cons_append,
    List.isPrefixOf_cons_cons]
  simp [(hletters digit hlt hge).symm]

theorem quotient_bounds {number divisor low high least most : ℕ} (hlow : low ≤ number)
    (hhigh : number < high) (hleast : least * divisor ≤ low) (hmost : high ≤ most * divisor) :
    least ≤ number / divisor ∧ number / divisor < most := by
  have hpos : 0 < divisor := by
    rcases Nat.eq_zero_or_pos divisor with rfl | hpos
    · omega
    · exact hpos
  exact ⟨(Nat.le_div_iff_mul_le hpos).mpr (hleast.trans hlow),
    (Nat.div_lt_iff_lt_mul hpos).mpr (hhigh.trans_le hmost)⟩

/-- The P2PKH addresses of the main net that start with `FiC1` or `Fic1`. -/
def PrefixClash (doubleSha256 : Bytes → Bytes) (network : FicNetwork) (decoded : DecodedAddress) :
    Prop :=
  network = .mainnet ∧ decoded.type = .p2pkh ∧
    (checkedNumber doubleSha256 36 decoded.hash / 58 ^ 30 = 2870130 ∨
      checkedNumber doubleSha256 36 decoded.hash / 58 ^ 30 = 2871522)

section

variable (hsize : ∀ bytes, (doubleSha256 bytes).length = 32)

include hsize

/-- The first four characters of a P2PKH address of the main net. -/
theorem exists_p2pkh_start (hhash : hash.length = 20) {quotient : ℕ}
    (hquotient : checkedNumber doubleSha256 36 hash / 58 ^ 30 = quotient) :
    quotient / 58 / 58 / 58 = 14 ∧
      ∃ low, base58checkEncode doubleSha256 (36 :: hash) =
        [14, quotient / 58 / 58 % 58, quotient / 58 % 58, quotient % 58].map b58Symbol ++ low := by
  have hversion : (36 : UInt8) ≠ 0 := by decide
  have hvalue : (36 : UInt8).toNat = 36 := rfl
  obtain ⟨hlow, hhigh⟩ := checkedNumber_bounds hsize 36 hhash
  rw [hvalue] at hlow hhigh
  have hbounds := quotient_bounds hlow hhigh (by norm_num : 2826323 * 58 ^ 30 ≤ 36 * 256 ^ 24)
    (by norm_num : 37 * 256 ^ 24 ≤ 2904833 * 58 ^ 30)
  have hlarge : 58 ^ 30 ≤ checkedNumber doubleSha256 36 hash := by
    refine le_trans ?_ hlow
    norm_num
  obtain ⟨low, hstart⟩ := exists_base58_start hversion 30 hlarge
  rw [hquotient] at hbounds hstart
  have hfirst : quotient / 58 / 58 / 58 = 14 := by omega
  rw [digits_four (by omega) (by omega), hfirst] at hstart
  exact ⟨hfirst, low, hstart⟩

theorem startsLikeBech32_p2pkh_iff (hhash : hash.length = 20) :
    startsLikeBech32 (base58checkEncode doubleSha256 (36 :: hash)) FicNetwork.mainnet.config = true ↔
      checkedNumber doubleSha256 36 hash / 58 ^ 30 = 2870130 ∨
        checkedNumber doubleSha256 36 hash / 58 ^ 30 = 2871522 := by
  obtain ⟨hfirst, low, hstart⟩ := exists_p2pkh_start hsize hhash rfl
  rw [hstart]
  generalize checkedNumber doubleSha256 36 hash / 58 ^ 30 = quotient at hfirst
  have hletters : ∀ digit < 58, (105 = lowerUnit (b58Symbol digit) ↔ digit = 41) ∧
      (99 = lowerUnit (b58Symbol digit) ↔ digit = 11 ∨ digit = 35) ∧
        (49 = lowerUnit (b58Symbol digit) ↔ digit = 0) := by decide
  have hhrp : FicNetwork.mainnet.config.bech32Hrp ++ [separator] = [102, 105, 99, 49] := by decide
  have hcapital : lowerUnit (b58Symbol 14) = 102 := by decide
  have hsecond := (hletters (quotient / 58 / 58 % 58) (Nat.mod_lt _ (by decide))).1
  have hthird := (hletters (quotient / 58 % 58) (Nat.mod_lt _ (by decide))).2.1
  have hfourth := (hletters (quotient % 58) (Nat.mod_lt _ (by decide))).2.2
  rw [startsLikeBech32, hhrp, toLowerCase]
  simp only [List.map_cons, List.map_nil, List.cons_append, List.nil_append, List.isPrefixOf_cons_cons,
    List.isPrefixOf_nil_left, hcapital, Bool.and_eq_true, beq_iff_eq, and_true, true_and, hsecond,
    hthird, hfourth]
  omega

/-- Such an address starts with a capital letter and goes on with a small one. -/
theorem PrefixClash.start {network : FicNetwork} {decoded : DecodedAddress}
    (hhash : decoded.hash.length = 20) (hclash : PrefixClash doubleSha256 network decoded) :
    ∃ rest, base58checkEncode doubleSha256 (36 :: decoded.hash) = 70 :: 105 :: rest := by
  obtain ⟨_, _, hquotient⟩ := hclash
  rcases hquotient with hquotient | hquotient
  · obtain ⟨_, low, hstart⟩ := exists_p2pkh_start hsize hhash hquotient
    exact ⟨_, hstart⟩
  · obtain ⟨_, low, hstart⟩ := exists_p2pkh_start hsize hhash hquotient
    exact ⟨_, hstart⟩

/-- The first symbol of the addresses of a version. -/
theorem exists_first_of_bounds {version : UInt8} (hversion : version ≠ 0) (value : ℕ)
    (hvalue : version.toNat = value) (hhash : hash.length = 20) (count least most : ℕ)
    (hleast : least * 58 ^ count ≤ value * 256 ^ 24)
    (hmost : (value + 1) * 256 ^ 24 ≤ most * 58 ^ count) (hpos : 0 < least) (hdigit : most ≤ 58) :
    ∃ digit low, (least ≤ digit ∧ digit < most) ∧
      base58checkEncode doubleSha256 (version :: hash) = b58Symbol digit :: low := by
  obtain ⟨hlow, hhigh⟩ := checkedNumber_bounds hsize version hhash
  rw [hvalue] at hlow hhigh
  have hbounds := quotient_bounds hlow hhigh hleast hmost
  have hlarge : 58 ^ count ≤ checkedNumber doubleSha256 version hash := by
    calc 58 ^ count ≤ least * 58 ^ count := Nat.le_mul_of_pos_left _ hpos
      _ ≤ value * 256 ^ 24 := hleast
      _ ≤ checkedNumber doubleSha256 version hash := hlow
  obtain ⟨low, hstart⟩ := exists_base58_start hversion count hlarge
  rw [Nat.digits_of_lt 58 _ (by omega) (by omega)] at hstart
  exact ⟨_, low, hbounds, hstart⟩

/-- When a wallet takes the Base58Check address of a hash for a bech32 one. -/
theorem startsLikeBech32_iff (network : FicNetwork) (hhash : hash.length = 20) :
    (startsLikeBech32 (base58checkEncode doubleSha256 (network.config.p2pkhVersion :: hash))
        network.config = true ↔ PrefixClash doubleSha256 network ⟨.p2pkh, hash⟩) ∧
      startsLikeBech32 (base58checkEncode doubleSha256 (network.config.p2shVersion :: hash))
        network.config = false := by
  cases network with
  | mainnet =>
    constructor
    · rw [PrefixClash, eq_self_iff_true, true_and, eq_self_iff_true, true_and]
      exact startsLikeBech32_p2pkh_iff hsize hhash
    · exact not_startsLikeBech32 (exists_first_of_bounds hsize (by decide) 28 rfl hhash 33 11 12
        (by norm_num) (by norm_num) (by decide) (by decide)) rfl (by decide)
  | testnet =>
    constructor
    · have hother : startsLikeBech32 _ FicNetwork.testnet.config = false :=
        not_startsLikeBech32 (exists_first_of_bounds hsize (by decide : (111 : UInt8) ≠ 0) 111 rfl
          hhash 33 44 46 (by norm_num) (by norm_num) (by decide) (by decide)) rfl (by decide)
      refine ⟨fun hstarts => ?_, fun hclash => absurd hclash.1 nofun⟩
      exact absurd (hother.symm.trans hstarts) Bool.false_ne_true
    · exact not_startsLikeBech32 (exists_first_of_bounds hsize (by decide) 196 rfl hhash 34 1 2
        (by norm_num) (by norm_num) (by decide) (by decide)) rfl (by decide)

end

end Base58Start

section Programs

variable {width : ℕ}

/-- The witness program of a hash, and back. -/
theorem exists_program (signed : Bool) (hwidth : 13 ≤ width) {hash : Bytes}
    (hhash : hash.length = 20) :
    ∃ program, convertBits width signed ((hash.map UInt8.toNat).map Nat.cast) 8 5 true =
        .ok program ∧ program.length = 32 ∧ (∀ value ∈ program, value < 32) ∧
      convertBits width signed (program.map Nat.cast) 5 8 false = .ok (hash.map UInt8.toNat) := by
  have hbytes : ∀ value ∈ hash.map UInt8.toNat, value < 2 ^ 8 := toNat_lt_of_mem_map
  obtain ⟨program, padding, hprogram, hpadding, hregroups⟩ :=
    exists_convertBits_pad signed (show 0 < 5 by decide) (by omega) hbytes
  have hlength := hregroups.length_eq
  rw [List.length_map, hhash] at hlength
  exact ⟨program, hprogram, by omega, hregroups.out_lt,
    hregroups.convertBits_unpad signed hpadding (by omega) (by omega)⟩

/-- The hash of a witness program that is accepted, and back. -/
theorem exists_groups (signed : Bool) (hwidth : 13 ≤ width) {data : List ℤ} {program : List ℕ}
    (hok : convertBits width signed data 5 8 false = .ok program) :
    ∃ groups : List ℕ, data = groups.map Nat.cast ∧ (∀ value ∈ groups, value < 32) ∧
      (∀ value ∈ program, value < 256) ∧
        convertBits width signed (program.map Nat.cast) 8 5 true = .ok groups := by
  obtain ⟨groups, padding, rfl, hpadding, hregroups⟩ :=
    regroups_of_convertBits (by decide) (by omega) hok
  obtain ⟨back, extra, hback, hextra, hagain⟩ :=
    exists_convertBits_pad signed (show 0 < 5 by decide) (by omega) hregroups.digits_lt
  exact ⟨groups, rfl, hregroups.out_lt, hregroups.digits_lt,
    by rw [hback, hagain.unique hextra hregroups hpadding]⟩

end Programs

section RoundTrip

variable {doubleSha256 : Bytes → Bytes} {network : FicNetwork} {hash : Bytes}

theorem startsLikeBech32_bech32Encode (network : FicNetwork) (data : List ℕ) :
    startsLikeBech32 (bech32Encode network.config.bech32Hrp data) network.config = true := by
  have hlower : toLowerCase (network.config.bech32Hrp ++ [separator]) =
      network.config.bech32Hrp ++ [separator] := by
    cases network <;> decide
  rw [startsLikeBech32, bech32Encode, toLowerCase, List.map_append]
  rw [toLowerCase] at hlower
  rw [hlower, List.isPrefixOf_iff_prefix]
  exact List.prefix_append _ _

theorem bech32Decode_bech32Encode (hrp : Utf16) {data : List ℕ}
    (hdata : ∀ value ∈ data, value < 32) :
    bech32Decode (bech32Encode hrp data) = (hrp, data.map Nat.cast) := by
  have hchecksum := bech32CreateChecksum_lt hrp data
  have hsix : (bech32Chars (bech32CreateChecksum hrp data)).length = 6 := by
    rw [bech32Chars_eq hchecksum, List.length_map, length_bech32CreateChecksum]
  have hindices := indexOf_codePoints nodup_bech32Charset bech32Charset_lt fun value hmem =>
    length_bech32Charset ▸ hdata value hmem
  rw [bech32Encode, bech32Chars_append, List.append_assoc, List.singleton_append,
    bech32Decode_append (separator_not_mem_chars _) (separator_not_mem_chars _) hsix,
    bech32Chars_eq hdata, hindices]

theorem decodeVersioned_p2pkh (hhash : hash.length = 20) (mismatch : String) :
    decodeVersioned (network.config.p2pkhVersion :: hash) network.config mismatch =
      .ok ⟨.p2pkh, hash⟩ := by
  rw [decodeVersioned, if_neg (not_not.mpr hhash), if_pos rfl]

theorem decodeVersioned_p2sh (hhash : hash.length = 20) (mismatch : String) :
    decodeVersioned (network.config.p2shVersion :: hash) network.config mismatch =
      .ok ⟨.p2sh, hash⟩ := by
  have hne : network.config.p2shVersion ≠ network.config.p2pkhVersion := by
    cases network <;> decide
  rw [decodeVersioned, if_neg (not_not.mpr hhash), if_neg hne, if_pos rfl]

theorem Web.versionedPayload_eq (hhash : hash.length = 20) (version : UInt8) :
    Web.versionedPayload version hash = .ok (version :: hash) := by
  rw [Web.versionedPayload, if_neg (by omega), hhash, Nat.sub_self, List.replicate_zero,
    List.append_nil]

theorem Web.encodeAddress_base58 (hhash : hash.length = 20) :
    Web.encodeAddress doubleSha256 ⟨.p2pkh, hash⟩ network.config =
        .ok (base58checkEncode doubleSha256 (network.config.p2pkhVersion :: hash)) ∧
      Web.encodeAddress doubleSha256 ⟨.p2sh, hash⟩ network.config =
        .ok (base58checkEncode doubleSha256 (network.config.p2shVersion :: hash)) := by
  rw [Web.encodeAddress, Web.encodeAddress]
  dsimp only
  rw [Web.p2pkhAddress, Web.p2shAddress, Web.versionedPayload_eq hhash,
    Web.versionedPayload_eq hhash]
  exact ⟨rfl, rfl⟩

/-- The web wallet pays a Base58Check address unless it starts like a bech32 one. -/
theorem Web.decodeAddress_base58 (hsize : ∀ bytes, (doubleSha256 bytes).length = 32)
    {payload : Bytes} {config : NetworkConfig}
    (hstarts : startsLikeBech32 (base58checkEncode doubleSha256 payload) config = false) :
    Web.decodeAddress doubleSha256 (base58checkEncode doubleSha256 payload) config =
      decodeVersioned payload config "this network" := by
  rw [Web.decodeAddress, hstarts, if_neg Bool.false_ne_true, base58checkDecode_encode hsize]
  rfl

theorem Web.decodeAddress_p2wpkh (hhash : hash.length = 20) :
    ∃ address, Web.p2wpkhAddress hash network.config = .ok address ∧
      Web.decodeAddress doubleSha256 address network.config = .ok ⟨.p2wpkh, hash⟩ := by
  obtain ⟨program, hprogram, _, hvalues, hback⟩ := exists_program false (by decide : 13 ≤ 32) hhash
  refine ⟨bech32Encode network.config.bech32Hrp (0 :: program), ?_, ?_⟩
  · rw [Web.p2wpkhAddress, hprogram]
    rfl
  · have hdata : ∀ value ∈ 0 :: program, value < 32 :=
      List.forall_mem_cons.mpr ⟨by decide, hvalues⟩
    rw [Web.decodeAddress, startsLikeBech32_bech32Encode, if_pos rfl, Web.decodeBech32,
      bech32Decode_bech32Encode _ hdata]
    dsimp only
    rw [if_neg (not_not.mpr rfl), List.map_cons, List.drop_one, List.tail_cons, hback]
    dsimp only [bind, Except.bind]
    rw [if_neg, map_ofNat_toNat]
    · rfl
    · rw [List.length_map, hhash, List.head?_cons]
      simp

/-- The web wallet refuses a string that starts with a capital as an address for another
network. -/
theorem Web.decodeBech32_capital {rest : Utf16} :
    Web.decodeBech32 (70 :: rest) network.config = .error "Address is for a different network" := by
  have hhrp : (bech32Decode (70 :: rest)).1 ≠ network.config.bech32Hrp := by
    rw [bech32Decode]
    dsimp only
    rw [slice, show sliceIndex (70 :: rest).length 0 = 0 from rfl, List.drop_zero]
    cases sliceIndex (70 :: rest).length (lastIndexOf separator (70 :: rest)) with
    | zero =>
      rw [List.take_zero]
      cases network <;> decide
    | succ count =>
      rw [List.take_succ_cons]
      cases network <;> exact fun heq => absurd (List.cons.inj heq).1 (by decide)
  rw [Web.decodeBech32]
  dsimp only
  rw [if_pos hhrp]

variable {packages : Mobile.Packages}

theorem bech32Fits_program (network : FicNetwork) {program : List ℕ} (hlength : program.length = 32)
    (hvalues : ∀ value ∈ program, value < 32) :
    Mobile.Bech32Fits network.config.bech32Hrp (0 :: program) where
  nonempty := by cases network <;> decide
  lower := by
    have hall : network.config.bech32Hrp.all (fun unit => decide (97 ≤ unit ∧ unit ≤ 122)) =
        true := by
      cases network <;> decide
    exact fun unit hmem => of_decide_eq_true (List.all_eq_true.mp hall unit hmem)
  groups := List.forall_mem_cons.mpr ⟨by decide, hvalues⟩
  length := by
    rw [List.length_cons, hlength]
    cases network <;> decide

theorem Mobile.encodeAddress_base58 (hpackages : packages.Correct doubleSha256)
    (hhash : hash.length = 20) :
    Mobile.encodeAddress packages ⟨.p2pkh, hash⟩ network.config =
        .ok (base58checkEncode doubleSha256 (network.config.p2pkhVersion :: hash)) ∧
      Mobile.encodeAddress packages ⟨.p2sh, hash⟩ network.config =
        .ok (base58checkEncode doubleSha256 (network.config.p2shVersion :: hash)) := by
  rw [Mobile.encodeAddress, Mobile.encodeAddress]
  dsimp only
  rw [Mobile.p2pkhAddress, Mobile.p2shAddress, if_neg (not_not.mpr hhash),
    if_neg (not_not.mpr hhash), hpackages.base58_encode, hpackages.base58_encode]
  exact ⟨rfl, rfl⟩

theorem Mobile.decodeAddress_base58 (hpackages : packages.Correct doubleSha256) {payload : Bytes}
    {config : NetworkConfig}
    (hstarts : startsLikeBech32 (base58checkEncode doubleSha256 payload) config = false) :
    Mobile.decodeAddress packages (base58checkEncode doubleSha256 payload) config =
      decodeVersioned payload config config.name := by
  rw [Mobile.decodeAddress, hstarts, if_neg Bool.false_ne_true, hpackages.base58_decode]
  rfl

theorem Mobile.decodeAddress_p2wpkh (hpackages : packages.Correct doubleSha256)
    (hhash : hash.length = 20) :
    ∃ address, Mobile.p2wpkhAddress packages hash network.config = .ok address ∧
      Mobile.decodeAddress packages address network.config = .ok ⟨.p2wpkh, hash⟩ := by
  obtain ⟨program, hprogram, hlength, hvalues, hback⟩ :=
    exists_program true (by decide : 13 ≤ 64) hhash
  have hfits := bech32Fits_program network hlength hvalues
  refine ⟨bech32Encode network.config.bech32Hrp (0 :: program), ?_, ?_⟩
  · rw [Mobile.p2wpkhAddress, if_neg (not_not.mpr hhash), hprogram]
    exact hpackages.bech32_encode _ _ hfits
  · rw [Mobile.decodeAddress, startsLikeBech32_bech32Encode, if_pos rfl, Mobile.decodeBech32,
      hpackages.bech32_decode _ _ _ hfits le_rfl]
    dsimp only [bind, Except.bind]
    rw [if_neg (not_not.mpr rfl), hback]
    dsimp only
    rw [if_neg, map_ofNat_toNat]
    · rfl
    · rw [List.length_map, hhash]
      simp

/-- A wallet reads the P2PKH address of a hash unless it starts like a bech32 one. -/
def ReadsUnlessClash (doubleSha256 : Bytes → Bytes) (network : FicNetwork) (hash : Bytes)
    (decoded : Except String DecodedAddress) : Prop :=
  (¬ PrefixClash doubleSha256 network ⟨.p2pkh, hash⟩ → decoded = .ok ⟨.p2pkh, hash⟩) ∧
    (PrefixClash doubleSha256 network ⟨.p2pkh, hash⟩ → ∃ message, decoded = .error message)

theorem ReadsUnlessClash.eq_ok_iff {decoded : Except String DecodedAddress}
    (hreads : ReadsUnlessClash doubleSha256 network hash decoded) :
    decoded = .ok ⟨.p2pkh, hash⟩ ↔ ¬ PrefixClash doubleSha256 network ⟨.p2pkh, hash⟩ := by
  refine ⟨fun hread hclash => ?_, hreads.1⟩
  obtain ⟨_, herror⟩ := hreads.2 hclash
  exact absurd (herror.symm.trans hread) nofun

section

variable (hsize : ∀ bytes, (doubleSha256 bytes).length = 32)

include hsize

/-- A clashing address, which both wallets take for one of the other kind. -/
theorem PrefixClash.capital (hhash : hash.length = 20)
    (hclash : PrefixClash doubleSha256 network ⟨.p2pkh, hash⟩) :
    ∃ rest, base58checkEncode doubleSha256 (network.config.p2pkhVersion :: hash) =
        70 :: 105 :: rest ∧ startsLikeBech32 (70 :: 105 :: rest) network.config = true := by
  have hstarts := (startsLikeBech32_iff hsize network hhash).1.mpr hclash
  obtain ⟨rest, hstart⟩ := hclash.start hsize hhash
  obtain rfl : network = .mainnet := hclash.1
  have hcapital : base58checkEncode doubleSha256
      (FicNetwork.mainnet.config.p2pkhVersion :: hash) = 70 :: 105 :: rest := hstart
  exact ⟨rest, hcapital, hcapital ▸ hstarts⟩

/-- What the web wallet makes of a P2PKH address. -/
theorem Web.decodeAddress_p2pkh (hhash : hash.length = 20) :
    ReadsUnlessClash doubleSha256 network hash (Web.decodeAddress doubleSha256
      (base58checkEncode doubleSha256 (network.config.p2pkhVersion :: hash)) network.config) := by
  refine ⟨fun hclash => ?_, fun hclash => ?_⟩
  · have hstarts := mt (startsLikeBech32_iff hsize network hhash).1.mp hclash
    rw [Web.decodeAddress_base58 hsize (Bool.eq_false_of_not_eq_true hstarts),
      decodeVersioned_p2pkh hhash]
  · obtain ⟨rest, hcapital, hstarts⟩ := hclash.capital hsize hhash
    rw [hcapital, Web.decodeAddress, hstarts, if_pos rfl, Web.decodeBech32_capital]
    exact ⟨_, rfl⟩

/-- What the mobile wallet makes of it. -/
theorem Mobile.decodeAddress_p2pkh (hpackages : packages.Correct doubleSha256)
    (hhash : hash.length = 20) :
    ReadsUnlessClash doubleSha256 network hash (Mobile.decodeAddress packages
      (base58checkEncode doubleSha256 (network.config.p2pkhVersion :: hash)) network.config) := by
  refine ⟨fun hclash => ?_, fun hclash => ?_⟩
  · have hstarts := mt (startsLikeBech32_iff hsize network hhash).1.mp hclash
    rw [Mobile.decodeAddress_base58 hpackages (Bool.eq_false_of_not_eq_true hstarts),
      decodeVersioned_p2pkh hhash]
  · obtain ⟨rest, hcapital, hstarts⟩ := hclash.capital hsize hhash
    obtain ⟨message, hmixed⟩ := hpackages.bech32_mixed (70 :: 105 :: rest)
      (70 :: 105 :: rest).length ⟨70, List.mem_cons_self, by decide⟩
      ⟨105, List.mem_cons_of_mem _ List.mem_cons_self, by decide⟩
    rw [hcapital, Mobile.decodeAddress, hstarts, if_pos rfl, Mobile.decodeBech32, hmixed]
    exact ⟨message, rfl⟩

end

theorem addresses_paid_iff (doubleSha256 : Bytes → Bytes)
    (hsize : ∀ bytes, (doubleSha256 bytes).length = 32) (packages : Mobile.Packages)
    (hpackages : packages.Correct doubleSha256) (network : FicNetwork) (decoded : DecodedAddress)
    (hhash : decoded.hash.length = 20) :
    ((∃ address, Web.encodeAddress doubleSha256 decoded network.config = .ok address ∧
        Web.decodeAddress doubleSha256 address network.config = .ok decoded) ↔
      ¬ PrefixClash doubleSha256 network decoded) ∧
    ((∃ address, Mobile.encodeAddress packages decoded network.config = .ok address ∧
        Mobile.decodeAddress packages address network.config = .ok decoded) ↔
      ¬ PrefixClash doubleSha256 network decoded) := by
  obtain ⟨type, hash⟩ := decoded
  obtain ⟨hwebKey, hwebScript⟩ := @Web.encodeAddress_base58 doubleSha256 network hash hhash
  obtain ⟨hmobileKey, hmobileScript⟩ :=
    @Mobile.encodeAddress_base58 doubleSha256 network hash packages hpackages hhash
  cases type with
  | p2pkh =>
      rw [hwebKey, hmobileKey]
      simp only [Except.ok.injEq, exists_eq_left']
      exact ⟨(Web.decodeAddress_p2pkh hsize hhash).eq_ok_iff,
        (Mobile.decodeAddress_p2pkh hsize hpackages hhash).eq_ok_iff⟩
  | p2sh =>
      have hclash : ¬ PrefixClash doubleSha256 network ⟨.p2sh, hash⟩ :=
        fun hclash => absurd hclash.2.1 nofun
      have hstarts := (startsLikeBech32_iff hsize network hhash).2
      refine ⟨iff_of_true ⟨_, hwebScript, ?_⟩ hclash, iff_of_true ⟨_, hmobileScript, ?_⟩ hclash⟩
      · rw [Web.decodeAddress_base58 hsize hstarts, decodeVersioned_p2sh hhash]
      · rw [Mobile.decodeAddress_base58 hpackages hstarts, decodeVersioned_p2sh hhash]
  | p2wpkh =>
      have hclash : ¬ PrefixClash doubleSha256 network ⟨.p2wpkh, hash⟩ :=
        fun hclash => absurd hclash.2.1 nofun
      exact ⟨iff_of_true (Web.decodeAddress_p2wpkh hhash) hclash,
        iff_of_true (Mobile.decodeAddress_p2wpkh hpackages hhash) hclash⟩

/-- Packages that are correct: bech32 is decoded by encoding it again. -/
def Mobile.Packages.reference (doubleSha256 : Bytes → Bytes) : Mobile.Packages where
  bs58checkEncode := base58checkEncode doubleSha256
  bs58checkDecode := base58checkDecode doubleSha256
  bech32Encode hrp data := .ok (ClientWallet.bech32Encode hrp data)
  bech32Decode text _ :=
    let (hrp, data) := ClientWallet.bech32Decode text
    if text.any fun unit => decide (65 ≤ unit ∧ unit ≤ 90) then .error "MixedCase"
    else if ClientWallet.bech32Encode hrp (data.map Int.toNat) = text then
      .ok (hrp, data.map Int.toNat)
    else .error "InvalidChecksum"

theorem map_toNat_cast (data : List ℕ) :
    (data.map (Nat.cast : ℕ → ℤ)).map Int.toNat = data := by
  rw [List.map_map]
  exact List.map_id'' (fun value => Int.toNat_natCast value) data

theorem not_capital_of_mem_bech32Encode {hrp : Utf16} {data : List ℕ}
    (hfits : Mobile.Bech32Fits hrp data) :
    ((bech32Encode hrp data).any fun unit => decide (65 ≤ unit ∧ unit ≤ 90)) = false := by
  have hcharset : bech32Charset.all (fun unit => !decide (65 ≤ unit ∧ unit ≤ 90)) = true := by
    decide
  rw [List.any_eq_false]
  intro unit hmem hcapital
  rw [bech32Encode, List.mem_append, List.mem_append] at hmem
  rcases hmem with (hhrp | hone) | hchar
  · have hlower := (hfits.lower unit hhrp).1
    have hupper := (of_decide_eq_true hcapital).2
    exact absurd (UInt16.le_trans hlower hupper) (by decide)
  · rw [List.mem_singleton.mp hone] at hcapital
    exact absurd hcapital (by decide)
  · obtain ⟨value, _, hvalue⟩ := List.mem_flatMap.mp hchar
    rw [Option.mem_toList] at hvalue
    have hnot := List.all_eq_true.mp hcharset unit (List.mem_of_getElem? hvalue)
    rw [hcapital] at hnot
    exact absurd hnot Bool.false_ne_true

theorem Mobile.Packages.reference_correct (hsize : ∀ bytes, (doubleSha256 bytes).length = 32) :
    (Mobile.Packages.reference doubleSha256).Correct doubleSha256 where
  base58_encode _ := rfl
  base58_decode payload := base58checkDecode_encode hsize payload
  bech32_encode _ _ _ := rfl
  bech32_decode := by
    intro hrp data limit hfits _
    rw [Mobile.Packages.reference]
    dsimp only
    rw [bech32Decode_bech32Encode hrp hfits.groups]
    dsimp only
    rw [not_capital_of_mem_bech32Encode hfits, if_neg Bool.false_ne_true, map_toNat_cast,
      if_pos rfl]
  bech32_mixed := by
    rintro text limit ⟨unit, hmem, hcapital⟩ _
    refine ⟨"MixedCase", ?_⟩
    rw [Mobile.Packages.reference]
    dsimp only
    rw [if_pos (List.any_eq_true.mpr ⟨unit, hmem, decide_eq_true hcapital⟩)]

theorem addresses_paid_zero :
    ∃ address, Web.encodeAddress Sha256.doubleSha256 ⟨.p2pkh, List.replicate 20 0⟩
        FicNetwork.mainnet.config = .ok address ∧
      Web.decodeAddress Sha256.doubleSha256 address FicNetwork.mainnet.config =
        .ok ⟨.p2pkh, List.replicate 20 0⟩ := by
  have hclash : ¬ PrefixClash Sha256.doubleSha256 .mainnet ⟨.p2pkh, List.replicate 20 0⟩ := by
    rintro ⟨_, _, hquotient⟩
    revert hquotient
    decide +kernel
  exact (addresses_paid_iff Sha256.doubleSha256 Sha256.length_doubleSha256 (.reference Sha256.doubleSha256)
    (Mobile.Packages.reference_correct Sha256.length_doubleSha256) .mainnet ⟨.p2pkh, List.replicate 20 0⟩
    rfl).1.mpr hclash

def clashingHash : Bytes :=
  [147, 97, 218, 43, 105, 201, 179, 97, 75, 116, 209, 182, 228, 143, 121, 176, 75, 249, 21, 53]

/-- Both wallets show this address, and neither can read it. -/
theorem clashing_address_not_paid :
    Web.encodeAddress Sha256.doubleSha256 ⟨.p2pkh, clashingHash⟩ FicNetwork.mainnet.config =
        .ok (ascii "Fic11111111111111111111111115keBTM") ∧
      Web.decodeAddress Sha256.doubleSha256 (ascii "Fic11111111111111111111111115keBTM")
        FicNetwork.mainnet.config = .error "Address is for a different network" ∧
      Mobile.encodeAddress (.reference Sha256.doubleSha256) ⟨.p2pkh, clashingHash⟩
        FicNetwork.mainnet.config = .ok (ascii "Fic11111111111111111111111115keBTM") ∧
      Mobile.decodeAddress (.reference Sha256.doubleSha256) (ascii "Fic11111111111111111111111115keBTM")
        FicNetwork.mainnet.config = .error "MixedCase" := by
  decide +kernel

end RoundTrip

section Exact

variable {doubleSha256 : Bytes → Bytes} {network : FicNetwork} {text : Utf16}
  {decoded : DecodedAddress}

/-- The last six characters are the checksum of what comes before them. -/
def ChecksumHolds (hrp text : Utf16) : Prop :=
  slice text (-6) text.length =
    bech32Chars (bech32CreateChecksum hrp ((bech32Decode text).2.map Int.toNat))

theorem slice_last {front last : Utf16} (htext : text = front ++ last) (hsix : last.length = 6) :
    slice text (-6) text.length = last := by
  subst htext
  have hstart : sliceIndex (front ++ last).length (-6) = front.length := by
    rw [sliceIndex, if_pos (by decide), List.length_append, hsix]
    omega
  have hstop : sliceIndex (front ++ last).length (front ++ last).length =
      (front ++ last).length := by
    rw [sliceIndex]
    split_ifs <;> omega
  rw [slice, hstart, hstop, List.take_length, List.drop_left]

/-- A text whose data part is not empty has a separator and six characters at the end. -/
theorem exists_parts (hshort : (bech32Decode text).1.length ≤ 5) (hdata : (bech32Decode text).2 ≠ []) :
    ∃ middle last, text = (bech32Decode text).1 ++ separator :: (middle ++ last) ∧
      separator ∉ middle ∧ separator ∉ last ∧ last.length = 6 := by
  rcases lastIndexOf_cases separator text with ⟨_, hnone⟩ | ⟨front, tail, rfl, htail, hpos⟩
  · -- without a separator the human-readable part is all but one character
    rw [bech32Decode, hnone] at hshort hdata
    dsimp only at hshort hdata
    refine absurd ?_ hdata
    have hlength : text.length ≤ 6 := by
      rw [slice, List.length_drop, List.length_take, sliceIndex, sliceIndex, if_pos (by decide),
        if_neg (by decide)] at hshort
      omega
    have hstop : sliceIndex text.length (-6) = 0 := by
      rw [sliceIndex, if_pos (by decide)]
      omega
    rw [slice, hstop, List.take_zero, List.drop_nil]
    rfl
  · by_cases hsix : 6 ≤ tail.length
    · have hsplit : tail = tail.take (tail.length - 6) ++ tail.drop (tail.length - 6) :=
        (List.take_append_drop _ tail).symm
      have hmiddle : separator ∉ tail.take (tail.length - 6) :=
        fun hmem => htail (List.mem_of_mem_take hmem)
      have hlast : separator ∉ tail.drop (tail.length - 6) :=
        fun hmem => htail (List.mem_of_mem_drop hmem)
      have hlength : (tail.drop (tail.length - 6)).length = 6 := by
        rw [List.length_drop]
        omega
      refine ⟨_, _, ?_, hmiddle, hlast, hlength⟩
      have hparts := @bech32Decode_append front _ _ hmiddle hlast hlength
      rw [← hsplit] at hparts ⊢
      rw [hparts]
    · rw [bech32Decode, hpos] at hdata
      refine absurd ?_ hdata
      have hempty : slice (front ++ separator :: tail) (front.length + 1) (-6) = [] := by
        rw [slice, List.drop_eq_nil_iff, List.length_take, sliceIndex, sliceIndex,
          if_pos (by decide), List.length_append, List.length_cons]
        split_ifs <;> omega
      dsimp only
      rw [hempty]
      rfl

/-- A payload that is read is the one of the address shown. -/
theorem Web.encodeAddress_of_decodeVersioned {payload : Bytes} {mismatch : String}
    (hok : decodeVersioned payload network.config mismatch = .ok decoded) :
    payload.length = 21 ∧ Web.encodeAddress doubleSha256 decoded network.config =
      .ok (base58checkEncode doubleSha256 payload) := by
  rw [decodeVersioned.eq_def] at hok
  cases payload with
  | nil => exact absurd hok nofun
  | cons version hash =>
    dsimp only at hok
    split_ifs at hok with hlength hp2pkh hp2sh
    · obtain rfl := Except.ok.inj hok
      rw [not_not] at hlength
      rw [hp2pkh]
      exact ⟨congrArg Nat.succ hlength, (Web.encodeAddress_base58 hlength).1⟩
    · obtain rfl := Except.ok.inj hok
      rw [not_not] at hlength
      rw [hp2sh]
      exact ⟨congrArg Nat.succ hlength, (Web.encodeAddress_base58 hlength).2⟩

/-- What the bech32 reader of the web wallet accepts: all but the last six characters are
those of the address. -/
theorem Web.decodeBech32_eq (hok : Web.decodeBech32 text network.config = .ok decoded) :
    decoded.type = .p2wpkh ∧
      ∃ groups last, (∀ value ∈ groups, value < 32) ∧
        convertBits 32 false ((decoded.hash.map UInt8.toNat).map Nat.cast) 8 5 true = .ok groups ∧
        last.length = 6 ∧ separator ∉ last ∧
        text = network.config.bech32Hrp ++ separator :: (bech32Chars (0 :: groups) ++ last) := by
  rw [Web.decodeBech32] at hok
  dsimp only at hok
  split_ifs at hok with hhrp
  rw [not_not] at hhrp
  cases hprogram : convertBits 32 false ((bech32Decode text).2.drop 1) 5 8 false with
  | error message =>
    rw [hprogram] at hok
    exact absurd hok nofun
  | ok program =>
    rw [hprogram] at hok
    dsimp only [bind, Except.bind] at hok
    split_ifs at hok with hsupported
    obtain rfl := Except.ok.inj hok
    push Not at hsupported
    obtain ⟨hversion, hlength⟩ := hsupported
    obtain ⟨groups, hgroups, hvalues, hbytes, hback⟩ := exists_groups false (by decide) hprogram
    have hdata : (bech32Decode text).2 = (0 :: groups).map Nat.cast := by
      cases hcases : (bech32Decode text).2 with
      | nil =>
        rw [hcases] at hversion
        exact absurd hversion nofun
      | cons first rest =>
        rw [hcases, List.head?_cons] at hversion
        rw [hcases, List.drop_one, List.tail_cons] at hgroups
        rw [Option.some.inj hversion, hgroups]
        rfl
    have hshort : (bech32Decode text).1.length ≤ 5 := by
      rw [hhrp]
      cases network <;> decide
    obtain ⟨middle, last, htext, hmiddle, hlast, hsix⟩ :=
      exists_parts hshort (by rw [hdata]; exact nofun)
    have hparts := @bech32Decode_append (bech32Decode text).1 _ _ hmiddle hlast hsix
    rw [← htext] at hparts
    have hindices : (codePoints middle).map (indexOf bech32Charset) =
        (0 :: groups).map Nat.cast := by
      rw [← hdata, hparts]
    have hall : ∀ point ∈ codePoints middle, 0 ≤ indexOf bech32Charset point := by
      intro point hmem
      have hindex := List.mem_map_of_mem (f := indexOf bech32Charset) hmem
      rw [hindices] at hindex
      obtain ⟨value, _, hvalue⟩ := List.mem_map.mp hindex
      rw [← hvalue]
      exact Int.natCast_nonneg value
    obtain ⟨digits, _, hmap, hsymbols⟩ := exists_symbols_of_indexOf hall
    obtain rfl : digits = 0 :: groups :=
      List.map_injective_iff.mpr Nat.cast_injective (hmap.symm.trans hindices)
    refine ⟨rfl, groups, last, hvalues, ?_, hsix, hlast, ?_⟩
    · rw [map_toNat_ofNat hbytes, hback]
    · rw [bech32Chars_eq (List.forall_mem_cons.mpr ⟨by decide, hvalues⟩), ← hsymbols, ← hhrp,
        ← htext]

/-- An address the web wallet accepts is the one it would show for what it read, exactly if
it is not read as bech32 or its checksum is right. -/
theorem web_address_exact_iff (doubleSha256 : Bytes → Bytes)
    (hsize : ∀ bytes, (doubleSha256 bytes).length = 32) (network : FicNetwork) (text : Utf16)
    (decoded : DecodedAddress)
    (hdecoded : Web.decodeAddress doubleSha256 text network.config = .ok decoded) :
    Web.encodeAddress doubleSha256 decoded network.config = .ok text ↔
      startsLikeBech32 text network.config = false ∨
        ChecksumHolds network.config.bech32Hrp text := by
  rw [Web.decodeAddress] at hdecoded
  split_ifs at hdecoded with hstarts
  · obtain ⟨htype, groups, last, hvalues, hgroups, hsix, hlast, htext⟩ :=
      Web.decodeBech32_eq hdecoded
    have hdata : ∀ value ∈ 0 :: groups, value < 32 := List.forall_mem_cons.mpr ⟨by decide, hvalues⟩
    have hindices := indexOf_codePoints nodup_bech32Charset bech32Charset_lt fun value hmem =>
      length_bech32Charset ▸ hdata value hmem
    have hencoded : Web.encodeAddress doubleSha256 decoded network.config =
        .ok (bech32Encode network.config.bech32Hrp (0 :: groups)) := by
      rw [Web.encodeAddress, htype]
      dsimp only
      rw [Web.p2wpkhAddress, hgroups]
      rfl
    have hfront : text =
        (network.config.bech32Hrp ++ separator :: bech32Chars (0 :: groups)) ++ last := by
      rw [htext, List.append_assoc, List.cons_append]
    have hparts := @bech32Decode_append network.config.bech32Hrp _ _
      (separator_not_mem_chars (0 :: groups)) hlast hsix
    rw [bech32Chars_eq hdata, hindices, ← bech32Chars_eq hdata, ← htext] at hparts
    rw [hstarts, hencoded, ChecksumHolds, slice_last hfront hsix, hparts, map_toNat_cast, htext,
      bech32Encode, bech32Chars_append, List.append_assoc, List.singleton_append, Except.ok.injEq]
    constructor
    · intro heq
      have htail := (List.cons.inj (List.append_cancel_left heq)).2
      exact .inr (List.append_cancel_left htail).symm
    · rintro (hfalse | hchecksum)
      · exact absurd hfalse nofun
      · rw [hchecksum]
  · rw [Bool.not_eq_true] at hstarts
    refine iff_of_true ?_ (.inl hstarts)
    cases hbase58 : base58checkDecode doubleSha256 text with
    | error message =>
        rw [hbase58] at hdecoded
        exact absurd hdecoded nofun
    | ok payload =>
        rw [hbase58] at hdecoded
        obtain ⟨hlength, hencoded⟩ := Web.encodeAddress_of_decodeVersioned hdecoded
        rw [hencoded, eq_base58checkEncode_of_decode hsize hbase58 (by omega)]

/-- The address of the zero hash is read and shown again as it is. -/
theorem web_address_exact_zero :
    Web.encodeAddress Sha256.doubleSha256 ⟨.p2wpkh, List.replicate 20 0⟩ FicNetwork.mainnet.config =
      .ok (ascii "fic1qqqqqqqqqqqqqqqqqqqqqqqqqqqqqqqqqcafwc7") := by
  have hdecoded : Web.decodeAddress Sha256.doubleSha256 (ascii "fic1qqqqqqqqqqqqqqqqqqqqqqqqqqqqqqqqqcafwc7")
      FicNetwork.mainnet.config = .ok ⟨.p2wpkh, List.replicate 20 0⟩ := by
    decide_cbv
  have hchecksum : ChecksumHolds FicNetwork.mainnet.config.bech32Hrp
      (ascii "fic1qqqqqqqqqqqqqqqqqqqqqqqqqqqqqqqqqcafwc7") := by
    rw [ChecksumHolds]
    decide_cbv
  exact (web_address_exact_iff Sha256.doubleSha256 Sha256.length_doubleSha256 .mainnet _ _ hdecoded).mpr
    (.inr hchecksum)

/-- With the six last characters replaced, the address is still accepted. -/
theorem web_address_corrupted :
    Web.decodeAddress Sha256.doubleSha256 (ascii "fic1qqqqqqqqqqqqqqqqqqqqqqqqqqqqqqqqqqqqqqq")
        FicNetwork.mainnet.config = .ok ⟨.p2wpkh, List.replicate 20 0⟩ ∧
      Web.encodeAddress Sha256.doubleSha256 ⟨.p2wpkh, List.replicate 20 0⟩ FicNetwork.mainnet.config ≠
        .ok (ascii "fic1qqqqqqqqqqqqqqqqqqqqqqqqqqqqqqqqqqqqqqq") := by
  constructor <;> decide_cbv

end Exact

end FirstIslamicCoin.ClientWallet
