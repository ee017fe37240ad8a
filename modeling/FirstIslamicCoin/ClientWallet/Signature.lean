import FirstIslamicCoin.ClientWallet.Hex
import FirstIslamicCoin.ClientWallet.Transaction

/-!
# The form of wallet signatures

The wallets build a DER signature from the hexadecimal digits of its two numbers.  The node
checks ten conditions on the bytes (`IsValidSignatureEncoding` of `script/interpreter.cpp`)
and then reads the numbers with a parser that accepts more than DER
(`ecdsa_signature_parse_der_lax` of `pubkey.cpp`).  Both are settled by one description of
the encoding: a header and two integers, each in its shortest form.
-/

namespace FirstIslamicCoin.ClientWallet

open ByteCodec

section Encoder

def padHex (hex : Utf16) : Utf16 := if hex.length % 2 ≠ 0 then hexUnit 0 :: hex else hex

/-- The bytes of a number through its digits; the mobile wallet has `_bigIntToBytes` for
this. -/
def Platform.hexNumber : Platform → ℕ → Except String Bytes
  | .web, value => .ok (Web.hexToBytes (padHex (toHex value)))
  | .mobile, value =>
      if value = 0 then .ok [0] else Mobile.hexToBytes (padHex (toHex value))

/-- `encodeInt`, on the digits of a number. -/
def Platform.encodeInt (platform : Platform) (value : ℕ) : Except String Bytes := do
  let bytes ← platform.hexNumber value
  let bytes := if bytes.head?.any fun first => decide (0x80 ≤ first) then 0 :: bytes else bytes
  return 0x02 :: UInt8.ofNat bytes.length :: bytes

/-- `derEncodeSignature` and `_derEncodeSignature`, on the digits of the numbers. -/
def Platform.derEncode (platform : Platform) (signature : ℕ × ℕ) : Except String Bytes := do
  let rEnc ← platform.encodeInt signature.1
  let sEnc ← platform.encodeInt (platform.lowS signature.2)
  return 0x30 :: UInt8.ofNat (rEnc.length + sEnc.length) :: (rEnc ++ sEnc)

theorem hexBytes_append {front back : Utf16} (hfront : front.length % 2 = 0) :
    hexBytes (front ++ back) = hexBytes front ++ hexBytes back := by
  induction front using hexBytes.induct with
  | case1 => rfl
  | case2 unit => exact absurd hfront Nat.one_ne_zero
  | case3 first second rest ih =>
    simp only [List.length_cons] at hfront
    rw [List.cons_append, List.cons_append, hexBytes, hexBytes, ih (by omega), List.cons_append]

theorem length_padHex (hex : Utf16) : (padHex hex).length % 2 = 0 := by
  rw [padHex]
  split_ifs with hodd
  · rw [List.length_cons]
    omega
  · omega

theorem padHex_append {back : Utf16} (hex : Utf16) (hback : back.length % 2 = 0) :
    padHex (hex ++ back) = padHex hex ++ back := by
  rw [padHex, padHex, List.length_append, Nat.add_mod, hback, Nat.add_zero, Nat.mod_mod]
  split_ifs <;> rfl

/-- The digits of a number, padded and read in pairs, give its bytes. -/
theorem hexBytes_padHex {digits : List ℕ} (hdigits : ∀ digit ∈ digits, digit < 16) :
    hexBytes (padHex (digits.reverse.map hexUnit)) =
      (pairDigits 16 digits).reverse.map UInt8.ofNat := by
  induction digits using pairDigits.induct with
  | case1 => rfl
  | case2 low =>
    have hlow := hdigits low List.mem_cons_self
    change hexBytes [hexUnit 0, hexUnit low] = [UInt8.ofNat low]
    rw [hexBytes, hexValue_hexUnit (by decide), hexValue_hexUnit hlow, Option.getD_some,
      Option.getD_some, Nat.mul_zero, Nat.zero_add, hexBytes]
  | case3 low high rest ih =>
    have hlow := hdigits low List.mem_cons_self
    have hhigh := hdigits high (List.mem_cons_of_mem _ List.mem_cons_self)
    have hrest : ∀ digit ∈ rest, digit < 16 := fun digit hmem =>
      hdigits digit (List.mem_cons_of_mem _ (List.mem_cons_of_mem _ hmem))
    have hlast : hexBytes [hexUnit high, hexUnit low] = [UInt8.ofNat (low + 16 * high)] := by
      rw [hexBytes, hexValue_hexUnit hhigh, hexValue_hexUnit hlow, Option.getD_some,
        Option.getD_some, hexBytes, Nat.add_comm]
    rw [List.reverse_cons, List.reverse_cons, List.append_assoc, List.map_append]
    change hexBytes (padHex (_ ++ [hexUnit high, hexUnit low])) = _
    have heven : [hexUnit high, hexUnit low].length % 2 = 0 := Nat.mod_self 2
    rw [padHex_append _ heven, hexBytes_append (length_padHex _), ih hrest, hlast, pairDigits,
      List.reverse_cons, List.map_append, List.map_singleton]

theorem isHex_padHex {digits : List ℕ} (hdigits : ∀ digit ∈ digits, digit < 16) :
    IsHex (padHex (digits.map hexUnit)) := by
  refine ⟨length_padHex _, ?_⟩
  have hunits : ∀ unit ∈ digits.map hexUnit, (hexValue unit).isSome = true := by
    intro unit hmem
    obtain ⟨digit, hdigit, rfl⟩ := List.mem_map.mp hmem
    rw [hexValue_hexUnit (hdigits digit hdigit)]
    rfl
  rw [padHex]
  split_ifs
  · exact List.forall_mem_cons.mpr ⟨by decide, hunits⟩
  · exact hunits

/-- Both platforms read the digits of a number as its bytes. -/
theorem hexNumber_eq (platform : Platform) (value : ℕ) :
    platform.hexNumber value = .ok (bigIntBytes value) := by
  rcases Nat.eq_zero_or_pos value with rfl | hpos
  · cases platform with
    | web => rfl
    | mobile => rfl
  · have hbase : 1 < 16 := by decide
    have hdigits : ∀ digit ∈ (Nat.digits 16 value).reverse, digit < 16 := fun digit hmem =>
      Nat.digits_lt_base hbase (List.mem_reverse.mp hmem)
    have htext : toHex value = (Nat.digits 16 value).reverse.map hexUnit := by
      rw [toHex, if_neg hpos.ne', digitLoop_eq hbase, List.append_nil]
    have hbytes : hexBytes (padHex (toHex value)) = bigIntBytes value := by
      rw [htext, hexBytes_padHex fun digit hmem => Nat.digits_lt_base hbase hmem,
        pairDigits_digits hbase, bigIntBytes, if_neg hpos.ne', digitLoop_eq (by decide),
        List.append_nil]
    have hhex : IsHex (padHex (toHex value)) := by
      rw [htext]
      exact isHex_padHex hdigits
    cases platform with
    | web => rw [Platform.hexNumber, Web.hexToBytes_eq hhex, hbytes]
    | mobile => rw [Platform.hexNumber, if_neg hpos.ne', Mobile.hexToBytes_eq hhex, hbytes]

theorem derEncode_eq (platform : Platform) (signature : ℕ × ℕ) :
    platform.derEncode signature = .ok (derEncodeSignature platform signature) := by
  have hint : ∀ value, platform.encodeInt value = .ok (derEncodeInt value) := by
    intro value
    rw [Platform.encodeInt, hexNumber_eq]
    rfl
  rw [Platform.derEncode, hint, hint]
  rfl

end Encoder

section Node

def isValidSignatureEncoding (sig : Bytes) (haveHashType : Bool) : Bool :=
  let lenR := (sig.getD 3 0).toNat
  let lenS := (sig.getD (5 + lenR) 0).toNat
  decide (9 ≤ sig.length) && decide (sig.length ≤ 73) &&
    sig.getD 0 0 == 0x30 &&
    (sig.getD 1 0).toNat == sig.length - (if haveHashType then 3 else 2) &&
    decide (5 + lenR < sig.length) &&
    lenR + lenS + (if haveHashType then 7 else 6) == sig.length &&
    sig.getD 2 0 == 0x02 &&
    lenR != 0 &&
    decide (sig.getD 4 0 < 0x80) &&
    !(decide (1 < lenR) && sig.getD 4 0 == 0 && decide (sig.getD 5 0 < 0x80)) &&
    sig.getD (lenR + 4) 0 == 0x02 &&
    lenS != 0 &&
    decide (sig.getD (lenR + 6) 0 < 0x80) &&
    !(decide (1 < lenS) && sig.getD (lenR + 6) 0 == 0 && decide (sig.getD (lenR + 7) 0 < 0x80))

/-- The length of an integer, in the short form or in the long form with zeros in front. -/
def parseDerLength : Bytes → Option (ℕ × Bytes)
  | [] => none
  | lenbyte :: rest =>
      if lenbyte < 0x80 then some (lenbyte.toNat, rest)
      else
        let count := lenbyte.toNat - 0x80
        let significant := (rest.take count).dropWhile fun byte => byte == 0
        if rest.length < count then none
        else if 4 ≤ significant.length then none
        else some (bigEndian significant, rest.drop count)

/-- The length of the sequence, whose value is not looked at. -/
def skipSequenceLength : Bytes → Option Bytes
  | [] => none
  | lenbyte :: rest =>
      if lenbyte < 0x80 then some rest
      else if rest.length < lenbyte.toNat - 0x80 then none
      else some (rest.drop (lenbyte.toNat - 0x80))

def parseDerInteger : Bytes → Option (Bytes × Bytes)
  | 0x02 :: rest => do
      let (length, rest) ← parseDerLength rest
      if rest.length < length then none else some (rest.take length, rest.drop length)
  | _ => none

/-- An integer moved to its place among the 64 bytes, or an overflow. -/
def compactNumber (bytes : Bytes) : Option ℕ :=
  let significant := bytes.dropWhile fun byte => byte == 0
  if 32 < significant.length then none else some (bigEndian significant)

/-- `ecdsa_signature_parse_der_lax`.  Numbers that overflow or are not below the order of
the curve are replaced by zeros. -/
def ecdsaSignatureParseDerLax : Bytes → Option (ℕ × ℕ)
  | 0x30 :: rest => do
      let rest ← skipSequenceLength rest
      let (r, rest) ← parseDerInteger rest
      let (s, _) ← parseDerInteger rest
      match compactNumber r, compactNumber s with
      | some r, some s =>
          some (if r < curveOrder ∧ s < curveOrder then (r, s) else (0, 0))
      | _, _ => some (0, 0)
  | _ => none

def checkLowS (sig : Bytes) : Bool :=
  match ecdsaSignatureParseDerLax sig with
  | none => false
  | some (_, s) => !decide (curveOrder / 2 < s)

/-- `IsLowDERSignature` of a signature with its hash type. -/
def isLowDERSignature (sig : Bytes) : Bool :=
  isValidSignatureEncoding sig true && checkLowS sig.dropLast

end Node

section Shortest

/-- The bytes of a nonnegative integer in its shortest form. -/
structure IsDerInteger (bytes : Bytes) : Prop where
  nonempty : 0 < bytes.length
  nonneg : bytes.getD 0 0 < 0x80
  shortest : 1 < bytes.length → bytes.getD 0 0 = 0 → 0x80 ≤ bytes.getD 1 0

/-- What `encodeInt` writes after tag and length. -/
def derContent (value : ℕ) : Bytes :=
  let bytes := bigIntBytes value
  if bytes.head?.any fun first => decide (0x80 ≤ first) then 0 :: bytes else bytes

theorem derEncodeInt_eq (value : ℕ) :
    derEncodeInt value = 0x02 :: UInt8.ofNat (derContent value).length :: derContent value :=
  rfl

/-- The bytes of a positive number start with one that is not zero. -/
theorem exists_bigIntBytes_eq_cons {value : ℕ} (hvalue : 0 < value) :
    ∃ first rest, bigIntBytes value = first :: rest ∧ first ≠ 0 ∧
      bigEndian (first :: rest) = value := by
  have hbase : 1 < 256 := by decide
  have hdigits : (Nat.digits 256 value).reverse ≠ [] := by
    rw [Ne, List.reverse_eq_nil_iff, Nat.digits_eq_nil_iff_eq_zero]
    exact hvalue.ne'
  obtain ⟨digit, others, hsplit⟩ := List.exists_cons_of_ne_nil hdigits
  have hlt : ∀ item ∈ digit :: others, item < 256 := by
    intro item hmem
    rw [← hsplit] at hmem
    exact Nat.digits_lt_base hbase (List.mem_reverse.mp hmem)
  have hbytes : bigIntBytes value = (digit :: others).map UInt8.ofNat := by
    rw [bigIntBytes, if_neg hvalue.ne', digitLoop_eq hbase, List.append_nil, hsplit]
  have htoNat : ((digit :: others).map UInt8.ofNat).map UInt8.toNat = digit :: others := by
    rw [List.map_map]
    conv_rhs => rw [← List.map_id (digit :: others)]
    apply List.map_congr_left
    intro item hmem
    exact toNat_byte (hlt item hmem)
  refine ⟨UInt8.ofNat digit, others.map UInt8.ofNat, hbytes, ?_, ?_⟩
  · intro hzero
    have hne := noLeadingZero_digits 256 value digit (by rw [hsplit]; rfl)
    have htoZero : (UInt8.ofNat digit).toNat = 0 := by
      rw [hzero]
      rfl
    rw [toNat_byte (hlt digit List.mem_cons_self)] at htoZero
    exact hne htoZero
  · rw [← List.map_cons, bigEndian, htoNat, numeralValue_eq_ofDigits, ← hsplit,
      List.reverse_reverse, Nat.ofDigits_digits]

theorem bigEndian_zero_cons (bytes : Bytes) : bigEndian (0 :: bytes) = bigEndian bytes :=
  numeralValue_replicate_zero 256 1 (bytes.map UInt8.toNat)

/-- Dropping the zeros in front keeps the value. -/
theorem bigEndian_dropWhile (bytes : Bytes) :
    bigEndian (bytes.dropWhile fun byte => byte == 0) = bigEndian bytes := by
  induction bytes with
  | nil => rfl
  | cons first bytes ih =>
    by_cases hzero : first = 0
    · rw [hzero, List.dropWhile_cons_of_pos rfl, ih, bigEndian_zero_cons]
    · rw [List.dropWhile_cons_of_neg (by simpa using hzero)]

/-- The first byte counts for its place. -/
theorem mul_pow_le_bigEndian (first : UInt8) (rest : Bytes) :
    first.toNat * 256 ^ rest.length ≤ bigEndian (first :: rest) := by
  have hone : numeralValue 256 [first.toNat] = first.toNat := by
    simp [numeralValue]
  rw [bigEndian, List.map_cons, ← List.singleton_append, numeralValue_append, hone, List.length_map]
  exact Nat.le_add_right _ _

theorem pow_le_bigEndian {first : UInt8} (hfirst : first ≠ 0) (rest : Bytes) :
    256 ^ rest.length ≤ bigEndian (first :: rest) := by
  have hpos : 0 < first.toNat := by
    rw [Nat.pos_iff_ne_zero]
    exact fun hzero => hfirst (UInt8.toNat_inj.mp hzero)
  exact (Nat.le_mul_of_pos_left _ hpos).trans (mul_pow_le_bigEndian first rest)

theorem isDerInteger_derContent {value : ℕ} (hvalue : 0 < value) :
    IsDerInteger (derContent value) ∧ bigEndian (derContent value) = value := by
  obtain ⟨first, rest, hbytes, hfirst, hbig⟩ := exists_bigIntBytes_eq_cons hvalue
  rw [derContent, hbytes]
  by_cases hhigh : 0x80 ≤ first
  · rw [if_pos (by simpa using hhigh)]
    exact ⟨⟨Nat.succ_pos _, by simp, fun _ _ => hhigh⟩, (bigEndian_zero_cons _).trans hbig⟩
  · rw [if_neg (by simpa using hhigh)]
    exact ⟨⟨Nat.succ_pos _, UInt8.not_le.mp hhigh, fun _ hzero => absurd hzero hfirst⟩, hbig⟩

/-- The zero in front is written only for numbers that fill their bytes. -/
theorem length_derContent_le {value : ℕ} (hvalue : 0 < value) {width : ℕ}
    (hbound : value < 128 * 256 ^ width) : (derContent value).length ≤ width + 1 := by
  obtain ⟨first, rest, hbytes, hfirst, hbig⟩ := exists_bigIntBytes_eq_cons hvalue
  have hlead := mul_pow_le_bigEndian first rest
  have hpower := pow_le_bigEndian hfirst rest
  rw [hbig] at hlead hpower
  have hrest : rest.length ≤ width := by
    by_contra hlong
    have hpow : 256 ^ (width + 1) ≤ 256 ^ rest.length := Nat.pow_le_pow_right (by decide) (by omega)
    have hwidth : 256 ^ (width + 1) = 256 ^ width * 256 := pow_succ 256 width
    omega
  rw [derContent, hbytes]
  by_cases hhigh : 0x80 ≤ first
  · rw [if_pos (by simpa using hhigh), List.length_cons, List.length_cons]
    have hfull : 128 ≤ first.toNat := UInt8.le_iff_toNat_le.mp hhigh
    have hstrict : rest.length ≠ width := by
      rintro rfl
      have hscale : 128 * 256 ^ rest.length ≤ first.toNat * 256 ^ rest.length :=
        Nat.mul_le_mul_right _ hfull
      omega
    omega
  · rw [if_neg (by simpa using hhigh), List.length_cons]
    omega

end Shortest

section Accepted

def derSignature (r s : Bytes) : Bytes :=
  0x30 :: UInt8.ofNat (4 + r.length + s.length) ::
    (0x02 :: UInt8.ofNat r.length :: r ++ 0x02 :: UInt8.ofNat s.length :: s)

theorem derEncodeSignature_eq (platform : Platform) (signature : ℕ × ℕ) :
    derEncodeSignature platform signature =
      derSignature (derContent signature.1) (derContent (platform.lowS signature.2)) := by
  rw [derEncodeSignature, derEncodeInt_eq, derEncodeInt_eq, derSignature]
  simp only [List.length_cons]
  have hlength : (derContent signature.1).length + 1 + 1 +
      ((derContent (platform.lowS signature.2)).length + 1 + 1) =
        4 + (derContent signature.1).length +
          (derContent (platform.lowS signature.2)).length := by omega
  rw [hlength]

theorem length_derSignature (r s : Bytes) :
    (derSignature r s).length = 6 + r.length + s.length := by
  simp only [derSignature, List.length_cons, List.length_append]
  omega

variable {r s : Bytes}

/-- What stands behind the first integer of a signature with its hash type. -/
theorem getD_derSignature_right (hashType : UInt8) (offset : ℕ) :
    (derSignature r s ++ [hashType]).getD (r.length + 4 + offset) 0 =
      (0x02 :: UInt8.ofNat s.length :: s ++ [hashType]).getD offset 0 := by
  have hsplit : derSignature r s ++ [hashType] =
      (0x30 :: UInt8.ofNat (4 + r.length + s.length) :: 0x02 :: UInt8.ofNat r.length :: r) ++
        (0x02 :: UInt8.ofNat s.length :: s ++ [hashType]) := by
    simp [derSignature]
  rw [hsplit, List.getD_append_right _ _ _ _ (by simp only [List.length_cons]; omega)]
  congr 1
  simp only [List.length_cons]
  omega

theorem getD_derSignature_left (hashType : UInt8) {offset : ℕ} (hoffset : offset < r.length) :
    (derSignature r s ++ [hashType]).getD (4 + offset) 0 = r.getD offset 0 := by
  have hsplit : derSignature r s ++ [hashType] =
      [0x30, UInt8.ofNat (4 + r.length + s.length), 0x02, UInt8.ofNat r.length] ++
        (r ++ (0x02 :: UInt8.ofNat s.length :: s ++ [hashType])) := by
    simp [derSignature]
  rw [hsplit, List.getD_append_right _ _ _ _ (Nat.le_add_right 4 offset)]
  change (r ++ _).getD (4 + offset - 4) 0 = _
  rw [Nat.add_sub_cancel_left, List.getD_append _ _ _ _ hoffset]

/-- Two integers in their shortest form, none too long, make an encoding the node takes. -/
theorem isValidSignatureEncoding_derSignature (hr : IsDerInteger r) (hs : IsDerInteger s)
    (hsize : r.length + s.length ≤ 66) (hashType : UInt8) :
    isValidSignatureEncoding (derSignature r s ++ [hashType]) true = true := by
  have hrPos := hr.nonempty
  have hsPos := hs.nonempty
  have hlength : (derSignature r s ++ [hashType]).length = 7 + r.length + s.length := by
    rw [List.length_append, length_derSignature, List.length_singleton]
    omega
  have hlenR : ((derSignature r s ++ [hashType]).getD 3 0).toNat = r.length := by
    change (UInt8.ofNat r.length).toNat = _
    exact toNat_byte (by omega)
  have htotal : ((derSignature r s ++ [hashType]).getD 1 0).toNat = 4 + r.length + s.length := by
    change (UInt8.ofNat (4 + r.length + s.length)).toNat = _
    exact toNat_byte (by omega)
  have hlenS : ((derSignature r s ++ [hashType]).getD (5 + r.length) 0).toNat = s.length := by
    have hindex : 5 + r.length = r.length + 4 + 1 := by omega
    rw [hindex, getD_derSignature_right]
    exact toNat_byte (by omega)
  have hfirstR := @getD_derSignature_left r s hashType 0 hrPos
  have htagS : (derSignature r s ++ [hashType]).getD (r.length + 4) 0 = 0x02 :=
    getD_derSignature_right hashType 0
  have hfirstS : (derSignature r s ++ [hashType]).getD (r.length + 6) 0 = s.getD 0 0 := by
    refine (getD_derSignature_right hashType 2).trans ?_
    exact List.getD_append s [hashType] 0 0 hsPos
  have hsecondR : 1 < r.length →
      (derSignature r s ++ [hashType]).getD 5 0 = r.getD 1 0 :=
    getD_derSignature_left hashType
  have hsecondS : 1 < s.length →
      (derSignature r s ++ [hashType]).getD (r.length + 7) 0 = s.getD 1 0 := by
    intro hlong
    refine (getD_derSignature_right hashType 3).trans ?_
    exact List.getD_append s [hashType] 0 1 hlong
  have hshortR : (decide (1 < r.length) && r.getD 0 0 == 0 &&
      decide ((derSignature r s ++ [hashType]).getD 5 0 < 0x80)) = false := by
    by_contra hpadded
    simp only [Bool.not_eq_false, Bool.and_eq_true, decide_eq_true_eq, beq_iff_eq] at hpadded
    obtain ⟨⟨hlong, hzero⟩, hlow⟩ := hpadded
    rw [hsecondR hlong] at hlow
    exact absurd hlow (UInt8.not_lt.mpr (hr.shortest hlong hzero))
  have hshortS : (decide (1 < s.length) && s.getD 0 0 == 0 &&
      decide ((derSignature r s ++ [hashType]).getD (r.length + 7) 0 < 0x80)) = false := by
    by_contra hpadded
    simp only [Bool.not_eq_false, Bool.and_eq_true, decide_eq_true_eq, beq_iff_eq] at hpadded
    obtain ⟨⟨hlong, hzero⟩, hlow⟩ := hpadded
    rw [hsecondS hlong] at hlow
    exact absurd hlow (UInt8.not_lt.mpr (hs.shortest hlong hzero))
  have hstart : (derSignature r s ++ [hashType]).getD 0 0 = 0x30 := rfl
  have htagR : (derSignature r s ++ [hashType]).getD 2 0 = 0x02 := rfl
  have hindexR : (derSignature r s ++ [hashType]).getD 4 0 = r.getD 0 0 := hfirstR
  simp only [isValidSignatureEncoding, hlenR, hlenS, hlength, hstart, htotal, htagR, hindexR,
    htagS, hfirstS, hshortR, hshortS, if_true, Bool.and_eq_true, decide_eq_true_eq,
    beq_iff_eq, bne_iff_ne, Bool.not_false, hr.nonneg, hs.nonneg, and_true]
  omega

theorem parseDerLength_short {length : ℕ} (hlength : length < 128) (rest : Bytes) :
    parseDerLength (UInt8.ofNat length :: rest) = some (length, rest) := by
  have hbyte : (UInt8.ofNat length).toNat = length := toNat_byte (by omega)
  rw [parseDerLength, if_pos (UInt8.lt_iff_toNat_lt.mpr (by rw [hbyte]; exact hlength)), hbyte]

theorem parseDerInteger_eq {bytes : Bytes} (hlength : bytes.length < 128) (rest : Bytes) :
    parseDerInteger (0x02 :: UInt8.ofNat bytes.length :: bytes ++ rest) = some (bytes, rest) := by
  change parseDerInteger (0x02 :: UInt8.ofNat bytes.length :: (bytes ++ rest)) = _
  rw [parseDerInteger, parseDerLength_short hlength]
  change (if (bytes ++ rest).length < bytes.length then none
    else some ((bytes ++ rest).take bytes.length, (bytes ++ rest).drop bytes.length)) = _
  rw [if_neg (by rw [List.length_append]; omega), List.take_left, List.drop_left]

theorem compactNumber_eq {bytes : Bytes} (hvalue : bigEndian bytes < 256 ^ 32) :
    compactNumber bytes = some (bigEndian bytes) := by
  have hdropped := bigEndian_dropWhile bytes
  have hshort : ¬ 32 < (bytes.dropWhile fun byte => byte == 0).length := by
    intro hlong
    obtain ⟨first, rest, hsplit⟩ := List.exists_cons_of_length_pos (Nat.zero_lt_of_lt hlong)
    have hfirst : first ≠ 0 := by
      have hnot := List.head?_dropWhile_not (fun byte : UInt8 => byte == 0) bytes
      rw [hsplit] at hnot
      simpa using hnot
    have hpower := pow_le_bigEndian hfirst rest
    rw [← hsplit, hdropped] at hpower
    rw [hsplit, List.length_cons] at hlong
    have hpow : 256 ^ 32 ≤ 256 ^ rest.length := Nat.pow_le_pow_right (by decide) (by omega)
    omega
  rw [compactNumber, if_neg hshort, hdropped]

/-- The node reads the two numbers back. -/
theorem ecdsaSignatureParseDerLax_derSignature (hrLength : r.length ≤ 33)
    (hsLength : s.length ≤ 33) (hr : bigEndian r < curveOrder) (hs : bigEndian s < curveOrder) :
    ecdsaSignatureParseDerLax (derSignature r s) = some (bigEndian r, bigEndian s) := by
  have horder : curveOrder < 256 ^ 32 := by decide
  have htotal : (UInt8.ofNat (4 + r.length + s.length)).toNat = 4 + r.length + s.length :=
    toNat_byte (by omega)
  have hskip : skipSequenceLength (UInt8.ofNat (4 + r.length + s.length) ::
      (0x02 :: UInt8.ofNat r.length :: r ++ 0x02 :: UInt8.ofNat s.length :: s)) =
        some (0x02 :: UInt8.ofNat r.length :: r ++ 0x02 :: UInt8.ofNat s.length :: s) := by
    rw [skipSequenceLength, if_pos]
    rw [UInt8.lt_iff_toNat_lt, htotal]
    change _ < 128
    omega
  have hlast : parseDerInteger (0x02 :: UInt8.ofNat s.length :: s) = some (s, []) := by
    have hparse := parseDerInteger_eq (show s.length < 128 by omega) []
    rwa [List.append_nil] at hparse
  rw [derSignature, ecdsaSignatureParseDerLax, hskip]
  dsimp only [bind, Option.bind]
  rw [parseDerInteger_eq (by omega)]
  dsimp only
  rw [hlast]
  dsimp only
  rw [compactNumber_eq (hr.trans horder), compactNumber_eq (hs.trans horder)]
  exact congrArg some (if_pos ⟨hr, hs⟩)

end Accepted

section Canonical

theorem lowS_eq_min {platform : Platform} {s : ℕ} (hs : s < curveOrder)
    (hweb : platform = .web → s ≤ curveOrder / 2) : platform.lowS s = min s (curveOrder - s) := by
  have hodd : curveOrder = 2 * (curveOrder / 2) + 1 := by decide
  cases platform with
  | web =>
    have hlow := hweb rfl
    rw [Platform.lowS]
    omega
  | mobile =>
    rw [Platform.lowS]
    split_ifs <;> omega

theorem wallet_signatures_canonical (platform : Platform) (r s : ℕ)
    (hr : 1 ≤ r ∧ r < curveOrder) (hs : 1 ≤ s ∧ s < curveOrder)
    (hweb : platform = .web → s ≤ curveOrder / 2) :
    ∃ der, platform.derEncode (r, s) = .ok der ∧
      isValidSignatureEncoding (der ++ [0x01]) true = true ∧
      isLowDERSignature (der ++ [0x01]) = true ∧
      ecdsaSignatureParseDerLax der = some (r, min s (curveOrder - s)) ∧
      (der ++ [0x01]).length ≤ 72 := by
  have hlow := lowS_eq_min hs.2 hweb
  have hodd : curveOrder = 2 * (curveOrder / 2) + 1 := by decide
  have hlowPos : 0 < platform.lowS s := by omega
  have hlowLe : platform.lowS s ≤ curveOrder / 2 := by omega
  have hlowLt : platform.lowS s < curveOrder := by omega
  obtain ⟨hrInt, hrValue⟩ := isDerInteger_derContent hr.1
  obtain ⟨hsInt, hsValue⟩ := isDerInteger_derContent hlowPos
  have hrLength : (derContent r).length ≤ 33 := length_derContent_le hr.1 (hr.2.trans (by decide))
  have hsLength : (derContent (platform.lowS s)).length ≤ 32 :=
    length_derContent_le hlowPos (hlowLe.trans_lt (by decide))
  have hvalid := isValidSignatureEncoding_derSignature hrInt hsInt (by omega) 0x01
  have hparse := ecdsaSignatureParseDerLax_derSignature hrLength (by omega)
    (hrValue.trans_lt hr.2) (hsValue.trans_lt hlowLt)
  rw [hrValue, hsValue] at hparse
  refine ⟨derSignature (derContent r) (derContent (platform.lowS s)), ?_, hvalid, ?_, ?_, ?_⟩
  · rw [derEncode_eq, derEncodeSignature_eq]
  · rw [isLowDERSignature, hvalid, Bool.true_and, List.dropLast_concat, checkLowS, hparse]
    simpa using hlowLe
  · rw [hparse, hlow]
  · rw [List.length_append, length_derSignature, List.length_singleton]
    omega

/-- A number with the top bit set and one with a single byte. -/
theorem wallet_signatures_canonical_short :
    ∃ der, Platform.mobile.derEncode (curveOrder - 1, curveOrder - 1) = .ok der ∧
      isValidSignatureEncoding (der ++ [0x01]) true = true ∧
      isLowDERSignature (der ++ [0x01]) = true ∧
      ecdsaSignatureParseDerLax der =
        some (curveOrder - 1, min (curveOrder - 1) (curveOrder - (curveOrder - 1))) ∧
      (der ++ [0x01]).length ≤ 72 :=
  wallet_signatures_canonical .mobile (curveOrder - 1) (curveOrder - 1) (by decide) (by decide)
    nofun

end Canonical

end FirstIslamicCoin.ClientWallet
