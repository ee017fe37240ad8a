import FirstIslamicCoin.ClientWallet.Encoding

/-!
# Hexadecimal text in the wallets

Both wallets carry byte strings as hexadecimal text and read it two code units at a time,
each pair with the number parser of its runtime.  `parseInt` takes as much as it can and
yields NaN, stored as zero, where it can take nothing; `int.parse` throws, but accepts white
space and a sign.  On text made of digits both are the same function, and it undoes the
writer.
-/

namespace FirstIslamicCoin.ClientWallet

open ByteCodec

section Digits

/-- The code unit of a digit: `0` to `9`, then `a` to `f`. -/
def hexUnit (digit : ℕ) : UInt16 := UInt16.ofNat (if digit < 10 then 48 + digit else 87 + digit)

def hexValue (unit : UInt16) : Option ℕ :=
  if 48 ≤ unit ∧ unit ≤ 57 then some (unit.toNat - 48)
  else if 97 ≤ unit ∧ unit ≤ 102 then some (unit.toNat - 87)
  else if 65 ≤ unit ∧ unit ≤ 70 then some (unit.toNat - 55)
  else none

/-- `toString(16)` and `toRadixString(16)` of a natural number. -/
def toHex (value : ℕ) : Utf16 :=
  if value = 0 then [hexUnit 0] else (digitLoop 16 value []).map hexUnit

/-- `bytesToHex`, `_bytesToHex`: two digits for each byte. -/
def bytesToHex (bytes : Bytes) : Utf16 :=
  bytes.flatMap fun byte : UInt8 => [hexUnit (byte.toNat / 16), hexUnit (byte.toNat % 16)]

theorem hexValue_hexUnit {digit : ℕ} (hdigit : digit < 16) :
    hexValue (hexUnit digit) = some digit := by
  interval_cases digit <;> decide

theorem lt_of_hexValue {unit : UInt16} {digit : ℕ} (hvalue : hexValue unit = some digit) :
    digit < 16 := by
  simp only [hexValue, UInt16.le_iff_toNat_le] at hvalue
  split_ifs at hvalue with hnumber hlower hupper
  all_goals
    obtain rfl := Option.some.inj hvalue
    simp only [UInt16.reduceToNat] at *
    omega

end Digits

section Readers

/-- White space as both runtimes trim it; the next-line character is white space to Dart
only. -/
def isSpace (unit : UInt16) : Bool :=
  (9 ≤ unit && unit ≤ 13) || [0x20, 0xa0, 0x1680, 0x2028, 0x2029, 0x202f, 0x205f, 0x3000,
    0xfeff].contains unit || (0x2000 ≤ unit && unit ≤ 0x200a)

def isDartSpace (unit : UInt16) : Bool := isSpace unit || unit == 0x85

def takeSign : Utf16 → ℤ × Utf16
  | 45 :: rest => (-1, rest)
  | 43 :: rest => (1, rest)
  | text => (1, text)

def toByte (value : ℤ) : UInt8 := UInt8.ofNat (value % 256).toNat

def numeralOf (digits : List ℕ) : ℤ := numeralValue 16 digits

namespace Web

def dropPrefix0x : Utf16 → Utf16
  | 48 :: 120 :: rest => rest
  | 48 :: 88 :: rest => rest
  | text => text

/-- `parseInt(text, 16)`, stored in an array of bytes. -/
def parseHexByte (text : Utf16) : UInt8 :=
  let signed := takeSign (text.dropWhile isSpace)
  let digits := ((dropPrefix0x signed.2).takeWhile fun unit => (hexValue unit).isSome).filterMap
    hexValue
  toByte (signed.1 * numeralOf digits)

/-- `hexToBytes`: an odd unit at the end is dropped. -/
def hexToBytes : Utf16 → Bytes
  | [] => []
  | [_] => []
  | first :: second :: rest => parseHexByte [first, second] :: hexToBytes rest

end Web

namespace Mobile

/-- `int.parse(text, radix: 16)`, stored in an array of bytes. -/
def parseHexByte (text : Utf16) : Except String UInt8 :=
  let trimmed := ((text.dropWhile isDartSpace).reverse.dropWhile isDartSpace).reverse
  let signed := takeSign trimmed
  if signed.2.isEmpty then .error "FormatException"
  else match signed.2.mapM hexValue with
    | none => .error "FormatException"
    | some digits => .ok (toByte (signed.1 * numeralOf digits))

/-- `_hexToBytesLocal`, `_hexToBytes`. -/
def hexToBytes : Utf16 → Except String Bytes
  | [] => .ok []
  | [_] => .ok []
  | first :: second :: rest => do
      let byte ← parseHexByte [first, second]
      let bytes ← hexToBytes rest
      return byte :: bytes

end Mobile

def IsHex (text : Utf16) : Prop :=
  text.length % 2 = 0 ∧ ∀ unit ∈ text, (hexValue unit).isSome = true

def hexBytes : Utf16 → Bytes
  | [] => []
  | [_] => []
  | first :: second :: rest =>
      UInt8.ofNat (16 * (hexValue first).getD 0 + (hexValue second).getD 0) :: hexBytes rest

variable {first second : UInt16}

theorem isHex_cons_cons {rest : Utf16} :
    IsHex (first :: second :: rest) ↔
      (hexValue first).isSome = true ∧ (hexValue second).isSome = true ∧ IsHex rest := by
  simp only [IsHex, List.length_cons, List.forall_mem_cons]
  constructor
  · rintro ⟨hlength, hfirst, hsecond, hrest⟩
    exact ⟨hfirst, hsecond, by omega, hrest⟩
  · rintro ⟨hfirst, hsecond, hlength, hrest⟩
    exact ⟨by omega, hfirst, hsecond, hrest⟩

theorem IsHex.exists_digits {rest : Utf16} (htext : IsHex (first :: second :: rest)) :
    ∃ high low, hexValue first = some high ∧ hexValue second = some low ∧ IsHex rest := by
  obtain ⟨hfirst, hsecond, hrest⟩ := isHex_cons_cons.mp htext
  obtain ⟨high, hhigh⟩ := Option.isSome_iff_exists.mp hfirst
  obtain ⟨low, hlow⟩ := Option.isSome_iff_exists.mp hsecond
  exact ⟨high, low, hhigh, hlow, hrest⟩

section

variable {unit : UInt16} (hdigit : (hexValue unit).isSome = true)

include hdigit

/-- What a digit is not. -/
theorem digit_bounds :
    48 ≤ unit.toNat ∧ unit.toNat ≤ 102 ∧ unit.toNat ≠ 88 := by
  rw [hexValue] at hdigit
  simp only [UInt16.le_iff_toNat_le, UInt16.reduceToNat] at hdigit
  split_ifs at hdigit <;> first | omega | exact absurd hdigit nofun

theorem isDartSpace_of_digit :
    isDartSpace unit = false := by
  obtain ⟨hlow, hhigh, -⟩ := digit_bounds hdigit
  rw [Bool.eq_false_iff]
  simp only [isDartSpace, isSpace, List.contains_cons, List.contains_nil, Bool.or_eq_true,
    Bool.and_eq_true, decide_eq_true_eq, beq_iff_eq, ne_eq, Bool.false_eq_true, or_false,
    UInt16.le_iff_toNat_le, ← UInt16.toNat_inj, UInt16.reduceToNat]
  omega

theorem takeSign_of_digit {rest : Utf16} : takeSign (unit :: rest) = (1, unit :: rest) := by
  obtain ⟨hlow, -, -⟩ := digit_bounds hdigit
  rw [takeSign]
  · rintro other heq
    obtain rfl := (List.cons.inj heq).1
    exact absurd hlow (by decide)
  · rintro other heq
    obtain rfl := (List.cons.inj heq).1
    exact absurd hlow (by decide)

end

theorem dropPrefix0x_of_digits (hsecond : (hexValue second).isSome = true) :
    Web.dropPrefix0x [first, second] = [first, second] := by
  obtain ⟨-, hhigh, hnot⟩ := digit_bounds hsecond
  rw [Web.dropPrefix0x]
  · rintro rest heq
    obtain rfl := (List.cons.inj (List.cons.inj heq).2).1
    exact absurd hhigh (by decide)
  · rintro rest heq
    obtain rfl := (List.cons.inj (List.cons.inj heq).2).1
    exact hnot rfl

theorem toByte_numeralOf_pair {high low : ℕ} (hhigh : high < 16) (hlow : low < 16) :
    toByte (1 * numeralOf [high, low]) = UInt8.ofNat (16 * high + low) := by
  have hvalue : numeralOf [high, low] = ((16 * high + low : ℕ) : ℤ) := by
    simp only [numeralOf, numeralValue, List.foldl_cons, List.foldl_nil]
    push_cast
    ring
  rw [toByte, one_mul, hvalue]
  congr 1
  omega

theorem Web.parseHexByte_digits {high low : ℕ} (hfirst : hexValue first = some high)
    (hsecond : hexValue second = some low) :
    Web.parseHexByte [first, second] = UInt8.ofNat (16 * high + low) := by
  have hdigit : (hexValue first).isSome = true := by rw [hfirst]; rfl
  have hother : (hexValue second).isSome = true := by rw [hsecond]; rfl
  have hspace : isSpace first = false := (Bool.or_eq_false_iff.mp (isDartSpace_of_digit hdigit)).1
  rw [Web.parseHexByte, List.dropWhile_cons_of_neg (by rw [hspace]; exact Bool.false_ne_true),
    takeSign_of_digit hdigit]
  dsimp only
  have hall : [first, second].takeWhile (fun unit => (hexValue unit).isSome) = [first, second] := by
    simp [hdigit, hother]
  rw [dropPrefix0x_of_digits hother, hall, List.filterMap_cons_some hfirst,
    List.filterMap_cons_some hsecond, List.filterMap_nil,
    toByte_numeralOf_pair (lt_of_hexValue hfirst) (lt_of_hexValue hsecond)]

theorem Mobile.parseHexByte_digits {high low : ℕ} (hfirst : hexValue first = some high)
    (hsecond : hexValue second = some low) :
    Mobile.parseHexByte [first, second] = .ok (UInt8.ofNat (16 * high + low)) := by
  have hdigit : (hexValue first).isSome = true := by rw [hfirst]; rfl
  have hother : (hexValue second).isSome = true := by rw [hsecond]; rfl
  have hleft : [first, second].dropWhile isDartSpace = [first, second] :=
    List.dropWhile_cons_of_neg (by rw [isDartSpace_of_digit hdigit]; exact Bool.false_ne_true)
  have hright : [second, first].dropWhile isDartSpace = [second, first] :=
    List.dropWhile_cons_of_neg (by rw [isDartSpace_of_digit hother]; exact Bool.false_ne_true)
  have htrim : (([first, second].dropWhile isDartSpace).reverse.dropWhile
      isDartSpace).reverse = [first, second] := by
    rw [hleft]
    change ([second, first].dropWhile isDartSpace).reverse = _
    rw [hright]
    rfl
  have hdigits : [first, second].mapM hexValue = some [high, low] := by
    simp [hfirst, hsecond]
  rw [Mobile.parseHexByte, htrim, takeSign_of_digit hdigit]
  dsimp only
  rw [List.isEmpty_cons, if_neg Bool.false_ne_true, hdigits]
  exact congrArg Except.ok (toByte_numeralOf_pair (lt_of_hexValue hfirst) (lt_of_hexValue hsecond))

/-- On digits the readers are one function. -/
theorem Web.hexToBytes_eq {text : Utf16} (htext : IsHex text) :
    Web.hexToBytes text = hexBytes text := by
  induction text using hexBytes.induct with
  | case1 => rfl
  | case2 unit => rfl
  | case3 first second rest ih =>
    obtain ⟨high, low, hhigh, hlow, hrest⟩ := htext.exists_digits
    rw [Web.hexToBytes, hexBytes, Web.parseHexByte_digits hhigh hlow, ih hrest, hhigh, hlow,
      Option.getD_some, Option.getD_some]

theorem Mobile.hexToBytes_eq {text : Utf16} (htext : IsHex text) :
    Mobile.hexToBytes text = .ok (hexBytes text) := by
  induction text using hexBytes.induct with
  | case1 => rfl
  | case2 unit => rfl
  | case3 first second rest ih =>
    obtain ⟨high, low, hhigh, hlow, hrest⟩ := htext.exists_digits
    rw [Mobile.hexToBytes, hexBytes, Mobile.parseHexByte_digits hhigh hlow, ih hrest, hhigh,
      hlow, Option.getD_some, Option.getD_some]
    rfl

end Readers

section RoundTrip

theorem isHex_bytesToHex (bytes : Bytes) : IsHex (bytesToHex bytes) := by
  induction bytes with
  | nil => exact ⟨rfl, nofun⟩
  | cons byte bytes ih =>
    have hbyte := byte.toNat_lt
    rw [bytesToHex, List.flatMap_cons]
    apply isHex_cons_cons.mpr
    rw [hexValue_hexUnit (by omega), hexValue_hexUnit (by omega)]
    exact ⟨rfl, rfl, ih⟩

theorem hexBytes_bytesToHex (bytes : Bytes) : hexBytes (bytesToHex bytes) = bytes := by
  induction bytes with
  | nil => rfl
  | cons byte bytes ih =>
    have hbyte := byte.toNat_lt
    have hhalves : 16 * (byte.toNat / 16) + byte.toNat % 16 = byte.toNat := by omega
    rw [bytesToHex, List.flatMap_cons]
    change hexBytes (hexUnit _ :: hexUnit _ :: bytesToHex bytes) = _
    rw [hexBytes, ih, hexValue_hexUnit (by omega), hexValue_hexUnit (by omega),
      Option.getD_some, Option.getD_some, hhalves, UInt8.ofNat_toNat]

theorem length_hexBytes (text : Utf16) : (hexBytes text).length = text.length / 2 := by
  induction text using hexBytes.induct with
  | case1 => rfl
  | case2 unit => simp [hexBytes]
  | case3 first second rest ih =>
    rw [hexBytes, List.length_cons, List.length_cons, List.length_cons, ih]
    omega

/-- Text of digits is written back up to the case of its letters. -/
theorem bytesToHex_hexBytes {text : Utf16} (htext : IsHex text) :
    bytesToHex (hexBytes text) = text.map fun unit => hexUnit ((hexValue unit).getD 0) := by
  induction text using hexBytes.induct with
  | case1 => rfl
  | case2 unit => exact absurd htext.1 Nat.one_ne_zero
  | case3 first second rest ih =>
    obtain ⟨high, low, hhigh, hlow, hrest⟩ := htext.exists_digits
    have hhighLt := lt_of_hexValue hhigh
    have hlowLt := lt_of_hexValue hlow
    have htoNat : (UInt8.ofNat (16 * high + low)).toNat = 16 * high + low := by
      rw [UInt8.toNat_ofNat']
      omega
    have htail := ih hrest
    rw [bytesToHex] at htail ⊢
    rw [hexBytes, List.flatMap_cons, htail, hhigh, hlow, Option.getD_some, Option.getD_some,
      htoNat, List.map_cons, List.map_cons, hhigh, hlow, Option.getD_some, Option.getD_some]
    have hdiv : (16 * high + low) / 16 = high := by omega
    have hmod : (16 * high + low) % 16 = low := by omega
    rw [hdiv, hmod]
    rfl

end RoundTrip

end FirstIslamicCoin.ClientWallet
