import FirstIslamicCoin.Core.ByteCodec
import FirstIslamicCoin.Core.Positional

/-!
# The text encodings of the wallets

Base58Check and the parts of bech32 that `crypto.js` writes out, over strings of UTF-16
code units as both runtimes have them.  Base58 is a change of base that keeps leading
zeros.  The regrouping of bits keeps the value of the numeral, so that going from bytes to
5-bit groups and back is settled by the uniqueness of numerals of one length.  It is shared
with `address.dart`, where the accumulator has 64 bits and is shifted with its sign.
-/

namespace FirstIslamicCoin.ClientWallet

open ByteCodec

section Strings

/-- A string of the runtimes: its UTF-16 code units. -/
abbrev Utf16 := List UInt16

def ascii (text : String) : Utf16 := text.toList.map fun letter => UInt16.ofNat letter.toNat

def lowerUnit (unit : UInt16) : UInt16 := if 65 ≤ unit ∧ unit ≤ 90 then unit + 32 else unit

/-- `toLowerCase` on ASCII letters.  The wallets only test the result for a prefix of
ASCII letters, and no other character has a lower case that starts with one of them and
goes on with the next. -/
def toLowerCase (text : Utf16) : Utf16 := text.map lowerUnit

def isHighSurrogate (unit : UInt16) : Bool := 0xd800 ≤ unit && unit ≤ 0xdbff

def isLowSurrogate (unit : UInt16) : Bool := 0xdc00 ≤ unit && unit ≤ 0xdfff

/-- The characters a `for … of` loop goes over: surrogate pairs stay together. -/
def codePoints : Utf16 → List Utf16
  | [] => []
  | [unit] => [[unit]]
  | first :: second :: rest =>
      if isHighSurrogate first && isLowSurrogate second then [first, second] :: codePoints rest
      else [first] :: codePoints (second :: rest)

def indexOf (alphabet : Utf16) : Utf16 → ℤ
  | [unit] => match alphabet.idxOf? unit with
    | some index => index
    | none => -1
  | _ => -1

def lastIndexOf (unit : UInt16) : Utf16 → ℤ
  | [] => -1
  | first :: rest =>
      if 0 ≤ lastIndexOf unit rest then lastIndexOf unit rest + 1
      else if first = unit then 0
      else -1

/-- An argument of `slice`: from the end when negative. -/
def sliceIndex (length : ℕ) (index : ℤ) : ℕ :=
  if index < 0 then (length + index).toNat else min index.toNat length

def slice {Item : Type} (items : List Item) (start stop : ℤ) : List Item :=
  (items.take (sliceIndex items.length stop)).drop (sliceIndex items.length start)

theorem flatten_codePoints (text : Utf16) : (codePoints text).flatten = text := by
  induction text using codePoints.induct with
  | case1 => rfl
  | case2 unit => rfl
  | case3 first second rest hpair ih => rw [codePoints, if_pos hpair, List.flatten_cons, ih]; rfl
  | case4 first second rest hpair ih => rw [codePoints, if_neg hpair, List.flatten_cons, ih]; rfl

theorem codePoints_of_forall_lt {text : Utf16} (htext : ∀ unit ∈ text, unit < 0xd800) :
    codePoints text = text.map fun unit => [unit] := by
  induction text using codePoints.induct with
  | case1 => rfl
  | case2 unit => rfl
  | case3 first second rest hpair ih =>
    have hfirst := htext first List.mem_cons_self
    simp only [isHighSurrogate, Bool.and_eq_true, decide_eq_true_eq] at hpair
    exact absurd hfirst (UInt16.not_lt.mpr hpair.1.1)
  | case4 first second rest hpair ih =>
    rw [codePoints, if_neg hpair, ih fun unit hmem => htext unit (List.mem_cons_of_mem _ hmem)]
    rfl

theorem indexOf_symbol {alphabet : Utf16} (hnodup : alphabet.Nodup) {index : ℕ}
    (hindex : index < alphabet.length) : indexOf alphabet [alphabet.getD index 0] = index := by
  have hfound : alphabet.idxOf? (alphabet.getD index 0) = some index := by
    rw [List.getD_eq_getElem _ _ hindex, List.idxOf?_eq_some_iff]
    refine ⟨hindex, rfl, fun earlier hearlier heq => ?_⟩
    have hsame := (List.Nodup.getElem_inj_iff hnodup).mp heq
    omega
  rw [indexOf, hfound]

theorem eq_symbol_of_indexOf {alphabet text : Utf16} (hfound : 0 ≤ indexOf alphabet text) :
    ∃ index : ℕ, indexOf alphabet text = index ∧ index < alphabet.length ∧
      text = [alphabet.getD index 0] := by
  match text with
  | [] => exact absurd hfound (show ¬ (0 : ℤ) ≤ -1 by decide)
  | first :: second :: rest => exact absurd hfound (show ¬ (0 : ℤ) ≤ -1 by decide)
  | [unit] =>
    rw [indexOf] at hfound ⊢
    cases hindex : alphabet.idxOf? unit with
    | none =>
      rw [hindex] at hfound
      exact absurd hfound (by decide)
    | some index =>
      obtain ⟨hlt, heq, _⟩ := List.idxOf?_eq_some_iff.mp hindex
      exact ⟨index, rfl, hlt, by rw [List.getD_eq_getElem _ _ hlt, heq]⟩

/-- A text all of whose characters are in an alphabet. -/
theorem exists_symbols_of_indexOf {alphabet text : Utf16}
    (hall : ∀ point ∈ codePoints text, 0 ≤ indexOf alphabet point) :
    ∃ digits : List ℕ, (∀ digit ∈ digits, digit < alphabet.length) ∧
      (codePoints text).map (indexOf alphabet) = digits.map Nat.cast ∧
      text = digits.map fun digit => alphabet.getD digit 0 := by
  have hpoints : ∀ points : List Utf16, (∀ point ∈ points, 0 ≤ indexOf alphabet point) →
      ∃ digits : List ℕ, (∀ digit ∈ digits, digit < alphabet.length) ∧
        points.map (indexOf alphabet) = digits.map Nat.cast ∧
        points.flatten = digits.map fun digit => alphabet.getD digit 0 := by
    intro points
    induction points with
    | nil => exact fun _ => ⟨[], nofun, rfl, rfl⟩
    | cons point points ih =>
      intro hpoints
      obtain ⟨hfirst, hothers⟩ := List.forall_mem_cons.mp hpoints
      obtain ⟨index, hindex, hlt, rfl⟩ := eq_symbol_of_indexOf hfirst
      obtain ⟨digits, hdigits, hmap, hflatten⟩ := ih hothers
      refine ⟨index :: digits, List.forall_mem_cons.mpr ⟨hlt, hdigits⟩, ?_, ?_⟩
      · rw [List.map_cons, hindex, hmap, List.map_cons]
      · rw [List.flatten_cons, hflatten, List.map_cons, List.singleton_append]
  obtain ⟨digits, hdigits, hmap, hflatten⟩ := hpoints (codePoints text) hall
  exact ⟨digits, hdigits, hmap, (flatten_codePoints text).symm.trans hflatten⟩

/-- The indices of a text written in an alphabet of ASCII characters. -/
theorem indexOf_codePoints {alphabet : Utf16} (hnodup : alphabet.Nodup)
    (hascii : ∀ unit ∈ alphabet, unit < 0xd800) {digits : List ℕ}
    (hdigits : ∀ digit ∈ digits, digit < alphabet.length) :
    (codePoints (digits.map fun digit => alphabet.getD digit 0)).map (indexOf alphabet) =
      digits.map Nat.cast := by
  have hunits : ∀ unit ∈ digits.map (fun digit => alphabet.getD digit 0), unit < 0xd800 := by
    intro unit hmem
    obtain ⟨digit, hdigit, rfl⟩ := List.mem_map.mp hmem
    refine hascii _ ?_
    rw [List.getD_eq_getElem _ _ (hdigits digit hdigit)]
    exact List.getElem_mem _
  rw [codePoints_of_forall_lt hunits, List.map_map, List.map_map]
  exact List.map_congr_left fun digit hmem => indexOf_symbol hnodup (hdigits digit hmem)

theorem lastIndexOf_of_not_mem {unit : UInt16} {text : Utf16} (hnot : unit ∉ text) :
    lastIndexOf unit text = -1 := by
  induction text with
  | nil => rfl
  | cons first rest ih =>
    have hfirst : first ≠ unit := fun heq => hnot (heq ▸ List.mem_cons_self)
    rw [lastIndexOf, ih fun hmem => hnot (List.mem_cons_of_mem _ hmem), if_neg (by decide),
      if_neg hfirst]

theorem lastIndexOf_append {unit : UInt16} (front : Utf16) {tail : Utf16} (htail : unit ∉ tail) :
    lastIndexOf unit (front ++ unit :: tail) = front.length := by
  induction front with
  | nil =>
    rw [List.nil_append, lastIndexOf, lastIndexOf_of_not_mem htail, if_neg (by decide),
      if_pos rfl]
    rfl
  | cons first rest ih =>
    rw [List.cons_append, lastIndexOf, ih, if_pos (Int.natCast_nonneg _), List.length_cons,
      Nat.cast_succ]

theorem lastIndexOf_cases (unit : UInt16) (text : Utf16) :
    (unit ∉ text ∧ lastIndexOf unit text = -1) ∨
      ∃ front tail, text = front ++ unit :: tail ∧ unit ∉ tail ∧
        lastIndexOf unit text = front.length := by
  by_cases hmem : unit ∈ text
  · refine .inr ?_
    obtain ⟨tail, front, hsplit, hnot⟩ := List.eq_append_cons_of_mem (List.mem_reverse.mpr hmem)
    have htext : text = front.reverse ++ unit :: tail.reverse := by
      rw [← text.reverse_reverse, hsplit, List.reverse_append, List.reverse_cons,
        List.append_assoc, List.singleton_append]
    have htail : unit ∉ tail.reverse := fun hreversed => hnot (List.mem_reverse.mp hreversed)
    exact ⟨front.reverse, tail.reverse, htext, htail, htext ▸ lastIndexOf_append _ htail⟩
  · exact .inl ⟨hmem, lastIndexOf_of_not_mem hmem⟩

end Strings

section Base58

def b58Alphabet : Utf16 := ascii "123456789ABCDEFGHJKLMNPQRSTUVWXYZabcdefghijkmnopqrstuvwxyz"

def b58Symbol (digit : ℕ) : UInt16 := b58Alphabet.getD digit 0

variable (doubleSha256 : Bytes → Bytes)

def base58checkEncode (payload : Bytes) : Utf16 :=
  let checksum := (doubleSha256 payload).take 4
  let full := (payload ++ checksum).map UInt8.toNat
  List.replicate (leadingZeros full) (b58Symbol 0) ++
    (digitLoop 58 (numeralValue 256 full) []).map b58Symbol

def base58Value (text : Utf16) : Except String ℕ :=
  (codePoints text).foldlM (fun num point =>
    if indexOf b58Alphabet point < 0 then .error "Invalid base58 character"
    else .ok (num * 58 + (indexOf b58Alphabet point).toNat)) 0

def base58checkDecode (text : Utf16) : Except String Bytes := do
  let num ← base58Value text
  let bytes := (digitLoop 256 num []).map UInt8.ofNat
  let leading := (text.takeWhile fun unit => unit = b58Symbol 0).length
  let full := List.replicate leading 0 ++ bytes
  let payload := slice full 0 (full.length - 4)
  let checksum := slice full (full.length - 4) full.length
  let expected := (doubleSha256 payload).take 4
  if expected.zipIdx.all fun entry => checksum[entry.2]? = some entry.1 then .ok payload
  else .error "Bad checksum"

theorem nodup_b58Alphabet : b58Alphabet.Nodup := by decide

theorem b58Alphabet_lt : ∀ unit ∈ b58Alphabet, unit < 0xd800 := by
  have hall : b58Alphabet.all (fun unit => decide (unit < 0xd800)) = true := by decide
  exact fun unit hmem => of_decide_eq_true (List.all_eq_true.mp hall unit hmem)

theorem length_b58Alphabet : b58Alphabet.length = 58 := by decide

theorem b58Symbol_injective {digit other : ℕ} (hdigit : digit < 58) (hother : other < 58)
    (heq : b58Symbol digit = b58Symbol other) : digit = other := by
  rw [b58Symbol, b58Symbol, List.getD_eq_getElem _ _ (length_b58Alphabet ▸ hdigit),
    List.getD_eq_getElem _ _ (length_b58Alphabet ▸ hother)] at heq
  exact (List.Nodup.getElem_inj_iff nodup_b58Alphabet).mp heq

/-- Base58 is the change of base, in symbols. -/
theorem base58checkEncode_eq (payload : Bytes) :
    base58checkEncode doubleSha256 payload =
      (rebase 256 58 ((payload ++ (doubleSha256 payload).take 4).map UInt8.toNat)).map
        b58Symbol := by
  rw [base58checkEncode, rebase]
  generalize (payload ++ (doubleSha256 payload).take 4).map UInt8.toNat = full
  rw [List.map_append, List.map_replicate]

theorem base58Value_eq {text : Utf16} {num : ℕ} (hvalue : base58Value text = .ok num) :
    ∃ digits : List ℕ, (∀ digit ∈ digits, digit < 58) ∧ text = digits.map b58Symbol ∧
      num = numeralValue 58 digits := by
  have hpoints : ∀ (points : List Utf16) (start : ℕ),
      points.foldlM (fun num point =>
        if indexOf b58Alphabet point < 0 then .error "Invalid base58 character"
        else .ok (num * 58 + (indexOf b58Alphabet point).toNat)) start =
          (.ok num : Except String ℕ) →
        (∀ point ∈ points, 0 ≤ indexOf b58Alphabet point) ∧
          num = (points.map fun point => (indexOf b58Alphabet point).toNat).foldl
            (fun value digit => value * 58 + digit) start := by
    intro points
    induction points with
    | nil => exact fun start hstart => ⟨nofun, (Except.ok.inj hstart).symm⟩
    | cons point points ih =>
      intro start hstart
      rw [List.foldlM_cons] at hstart
      split_ifs at hstart with hnegative
      · exact absurd hstart nofun
      · obtain ⟨hall, hnum⟩ := ih _ hstart
        exact ⟨List.forall_mem_cons.mpr ⟨not_lt.mp hnegative, hall⟩, hnum⟩
  obtain ⟨hall, hnum⟩ := hpoints _ _ hvalue
  obtain ⟨digits, hdigits, hmap, htext⟩ := exists_symbols_of_indexOf hall
  refine ⟨digits, fun digit hmem => length_b58Alphabet ▸ hdigits digit hmem, htext, ?_⟩
  have hindices : (codePoints text).map (fun point => (indexOf b58Alphabet point).toNat) =
      digits := by
    rw [show (fun point => (indexOf b58Alphabet point).toNat) =
      Int.toNat ∘ indexOf b58Alphabet from rfl, ← List.map_map, hmap, List.map_map]
    exact List.map_id'' (fun digit => Int.toNat_natCast digit) digits
  rw [hnum, hindices]
  rfl

theorem base58Value_symbols {digits : List ℕ} (hdigits : ∀ digit ∈ digits, digit < 58) :
    base58Value (digits.map b58Symbol) = .ok (numeralValue 58 digits) := by
  have hindices := indexOf_codePoints nodup_b58Alphabet b58Alphabet_lt fun digit hmem =>
    length_b58Alphabet ▸ hdigits digit hmem
  have hpoints : ∀ (points : List Utf16) (digits : List ℕ) (start : ℕ),
      points.map (indexOf b58Alphabet) = digits.map Nat.cast →
      points.foldlM (fun num point =>
        if indexOf b58Alphabet point < 0 then .error "Invalid base58 character"
        else .ok (num * 58 + (indexOf b58Alphabet point).toNat)) start =
          (.ok (digits.foldl (fun value digit => value * 58 + digit) start) :
            Except String ℕ) := by
    intro points
    induction points with
    | nil =>
      intro digits start hmap
      obtain rfl := List.map_eq_nil_iff.mp hmap.symm
      rfl
    | cons point points ih =>
      intro digits start hmap
      cases digits with
      | nil => exact absurd hmap nofun
      | cons digit digits =>
        obtain ⟨hfirst, hrest⟩ := List.cons.inj hmap
        rw [List.foldlM_cons, hfirst, if_neg (not_lt.mpr (Int.natCast_nonneg digit)),
          Int.toNat_natCast]
        exact ih digits _ hrest
  exact hpoints _ digits 0 hindices

/-- The bytes a Base58 text stands for. -/
theorem base58Bytes_eq {digits : List ℕ} (hdigits : ∀ digit ∈ digits, digit < 58) :
    List.replicate (((digits.map b58Symbol).takeWhile fun unit => unit = b58Symbol 0).length) 0 ++
        (digitLoop 256 (numeralValue 58 digits) []).map UInt8.ofNat =
      (rebase 58 256 digits).map UInt8.ofNat := by
  have hleading : ((digits.map b58Symbol).takeWhile fun unit => unit = b58Symbol 0).length =
      leadingZeros digits := by
    rw [leadingZeros]
    induction digits with
    | nil => rfl
    | cons digit digits ih =>
      obtain ⟨hdigit, hothers⟩ := List.forall_mem_cons.mp hdigits
      have hiff : b58Symbol digit = b58Symbol 0 ↔ digit = 0 :=
        ⟨b58Symbol_injective hdigit (by decide), fun heq => by rw [heq]⟩
      rw [List.map_cons, List.takeWhile_cons, List.takeWhile_cons]
      simp only [hiff, decide_eq_true_eq]
      split_ifs
      · rw [List.length_cons, List.length_cons, ih hothers]
      · rfl
  rw [hleading, rebase, List.map_append, List.map_replicate]
  rfl

theorem map_ofNat_toNat (bytes : Bytes) : (bytes.map UInt8.toNat).map UInt8.ofNat = bytes := by
  rw [List.map_map]
  exact List.map_id'' (fun byte => UInt8.ofNat_toNat) bytes

theorem map_toNat_ofNat {values : List ℕ} (hvalues : ∀ value ∈ values, value < 256) :
    (values.map UInt8.ofNat).map UInt8.toNat = values := by
  rw [List.map_map]
  refine (List.map_congr_left fun value hmem => ?_).trans (List.map_id values)
  exact UInt8.toNat_ofNat_of_lt (hvalues value hmem)

theorem toNat_lt_of_mem_map {bytes : Bytes} : ∀ value ∈ bytes.map UInt8.toNat, value < 256 := by
  intro value hmem
  obtain ⟨byte, _, rfl⟩ := List.mem_map.mp hmem
  exact byte.toNat_lt

theorem slice_payload {full : Bytes} (payload : Bytes) {checksum : Bytes}
    (hfull : full = payload ++ checksum) (hlength : checksum.length = 4) :
    slice full 0 (full.length - 4) = payload ∧
      slice full (full.length - 4) full.length = checksum := by
  have hindex : sliceIndex full.length (full.length - 4) = payload.length := by
    rw [sliceIndex, hfull, List.length_append, hlength]
    split_ifs <;> omega
  have hend : sliceIndex full.length full.length = full.length := by
    rw [sliceIndex]
    split_ifs <;> omega
  have hstart : sliceIndex full.length 0 = 0 := by
    rw [sliceIndex]
    split_ifs <;> omega
  rw [slice, slice, hindex, hend, hstart, List.take_length, List.drop_zero, hfull, List.take_left,
    List.drop_left]
  exact ⟨rfl, rfl⟩

theorem all_zipIdx_iff {expected checksum : Bytes} (hlength : expected.length = checksum.length) :
    (expected.zipIdx.all fun entry => checksum[entry.2]? = some entry.1) = true ↔
      expected = checksum := by
  rw [List.all_eq_true]
  constructor
  · intro hall
    refine List.ext_getElem? fun index => ?_
    by_cases hindex : index < expected.length
    · have hentry := hall (expected[index], index)
        (List.mk_mem_zipIdx_iff_getElem?.mpr (List.getElem?_eq_getElem hindex))
      rw [List.getElem?_eq_getElem hindex, of_decide_eq_true hentry]
    · rw [List.getElem?_eq_none (not_lt.mp hindex),
        List.getElem?_eq_none (hlength ▸ not_lt.mp hindex)]
  · rintro rfl entry hmem
    exact decide_eq_true (List.mk_mem_zipIdx_iff_getElem?.mp hmem)

variable {doubleSha256}

section

variable (hsize : ∀ bytes, (doubleSha256 bytes).length = 32)

include hsize

theorem length_checksum (payload : Bytes) :
    ((doubleSha256 payload).take 4).length = 4 := by
  rw [List.length_take, hsize]
  rfl

/-- What was encoded is decoded. -/
theorem base58checkDecode_encode (payload : Bytes) :
    base58checkDecode doubleSha256 (base58checkEncode doubleSha256 payload) = .ok payload := by
  have hdigits : ∀ digit ∈ rebase 256 58
      ((payload ++ (doubleSha256 payload).take 4).map UInt8.toNat), digit < 58 :=
    fun digit hmem => lt_of_mem_rebase (by decide) hmem
  have hfull := base58Bytes_eq hdigits
  rw [rebase_rebase (by decide) (by decide) toNat_lt_of_mem_map, map_ofNat_toNat] at hfull
  obtain ⟨hpayload, hchecksum⟩ := slice_payload payload rfl (length_checksum hsize payload)
  rw [base58checkEncode_eq, base58checkDecode, base58Value_symbols hdigits]
  dsimp only [bind, Except.bind]
  rw [hfull, hpayload, hchecksum, if_pos ((all_zipIdx_iff rfl).mpr rfl)]

/-- What is decoded was encoded. -/
theorem eq_base58checkEncode_of_decode {text : Utf16} {payload : Bytes}
    (hdecoded : base58checkDecode doubleSha256 text = .ok payload) (hlong : 4 ≤ payload.length) :
    text = base58checkEncode doubleSha256 payload := by
  rw [base58checkDecode] at hdecoded
  cases hvalue : base58Value text with
  | error message =>
    rw [hvalue] at hdecoded
    exact absurd hdecoded nofun
  | ok num =>
    obtain ⟨digits, hdigits, rfl, rfl⟩ := base58Value_eq hvalue
    rw [hvalue] at hdecoded
    dsimp only [bind, Except.bind] at hdecoded
    rw [base58Bytes_eq hdigits] at hdecoded
    have hbytes : ∀ value ∈ rebase 58 256 digits, value < 256 := fun value hmem =>
      lt_of_mem_rebase (by decide) hmem
    have hback := map_toNat_ofNat hbytes
    generalize hfull : (rebase 58 256 digits).map UInt8.ofNat = full at hdecoded hback
    split_ifs at hdecoded with hall
    obtain rfl := Except.ok.inj hdecoded
    have hshort : (slice full 0 (full.length - 4)).length ≤ full.length := by
      rw [slice, List.length_drop, List.length_take]
      omega
    have hsplit : full = full.take (full.length - 4) ++ full.drop (full.length - 4) :=
      (List.take_append_drop _ full).symm
    have hlength : (full.drop (full.length - 4)).length = 4 := by
      rw [List.length_drop]
      omega
    obtain ⟨hpayload, hchecksum⟩ := slice_payload _ hsplit hlength
    rw [hpayload, hchecksum] at hall
    have hexpected := (all_zipIdx_iff ((length_checksum hsize _).trans hlength.symm)).mp hall
    rw [hpayload, base58checkEncode_eq, hexpected, ← hsplit, hback,
      rebase_rebase (by decide) (by decide) hdigits]

end

end Base58

section Bits

variable {width : ℕ}

/-- The accumulator of `convertBits`, how many of its low bits are still to be written, and
the groups written so far. -/
structure BitBuffer (width : ℕ) where
  acc : BitVec width
  bits : ℕ
  ret : List ℕ

/-- `>>>` of JavaScript, or `>>` of Dart. -/
def shiftRight (signed : Bool) (acc : BitVec width) (count : ℕ) : BitVec width :=
  if signed then acc.sshiftRight count else acc >>> count

def maxv (width toBits : ℕ) : BitVec width := BitVec.ofNat width (2 ^ toBits - 1)

/-- The inner loop. -/
def BitBuffer.drain (signed : Bool) (toBits : ℕ) (buffer : BitBuffer width) : BitBuffer width :=
  if 0 < toBits ∧ toBits ≤ buffer.bits then
    BitBuffer.drain signed toBits
      { buffer with
        bits := buffer.bits - toBits
        ret := buffer.ret ++
          [(shiftRight signed buffer.acc (buffer.bits - toBits) &&& maxv width toBits).toNat] }
  else buffer
termination_by buffer.bits
decreasing_by omega

def BitBuffer.push (signed : Bool) (fromBits toBits : ℕ) (buffer : BitBuffer width) (value : ℤ) :
    Except String (BitBuffer width) :=
  if value < 0 ∨ value >>> fromBits ≠ 0 then .error "Invalid data for bit conversion"
  else .ok (BitBuffer.drain signed toBits
    { buffer with
      acc := (buffer.acc <<< fromBits) ||| BitVec.ofInt width value
      bits := buffer.bits + fromBits })

/-- `convertBits` with an accumulator of some width. -/
def convertBits (width : ℕ) (signed : Bool) (data : List ℤ) (fromBits toBits : ℕ) (pad : Bool) :
    Except String (List ℕ) := do
  let buffer ← data.foldlM (BitBuffer.push signed fromBits toBits) ⟨(0 : BitVec width), 0, []⟩
  let rest := (buffer.acc <<< (toBits - buffer.bits) &&& maxv width toBits).toNat
  if pad then
    if 0 < buffer.bits then return buffer.ret ++ [rest] else return buffer.ret
  else if fromBits ≤ buffer.bits ∨ rest ≠ 0 then .error "Invalid padding in bit conversion"
  else return buffer.ret

/-- The buffer holds a number: what is written, followed by the bits still to be written. -/
structure BitBuffer.Holds (toBits : ℕ) (buffer : BitBuffer width) (total value : ℕ) : Prop where
  digits : ∀ digit ∈ buffer.ret, digit < 2 ^ toBits
  total_eq : total = toBits * buffer.ret.length + buffer.bits
  value_eq : value =
    numeralValue (2 ^ toBits) buffer.ret * 2 ^ buffer.bits + buffer.acc.toNat % 2 ^ buffer.bits

theorem toNat_shiftRight_and_maxv (signed : Bool) (acc : BitVec width) {count toBits : ℕ}
    (hwidth : count + toBits ≤ width) :
    (shiftRight signed acc count &&& maxv width toBits).toNat =
      acc.toNat / 2 ^ count % 2 ^ toBits := by
  have hmask : (maxv width toBits).toNat = 2 ^ toBits - 1 := by
    rw [maxv, BitVec.toNat_ofNat, Nat.mod_eq_of_lt]
    have hpos := Nat.two_pow_pos toBits
    have hle : 2 ^ toBits ≤ 2 ^ width := Nat.pow_le_pow_right (by decide) (by omega)
    omega
  have hunsigned : shiftRight signed acc count &&& maxv width toBits =
      acc >>> count &&& maxv width toBits := by
    cases signed with
    | false => rfl
    | true =>
      refine BitVec.eq_of_getLsbD_eq fun index hindex => ?_
      have hbit : (maxv width toBits).getLsbD index = decide (index < toBits) := by
        rw [BitVec.getLsbD, hmask, Nat.testBit_two_pow_sub_one]
      rw [BitVec.getLsbD_and, BitVec.getLsbD_and, hbit]
      by_cases hlow : index < toBits
      · rw [shiftRight, if_pos rfl, BitVec.getLsbD_sshiftRight, BitVec.getLsbD_ushiftRight,
          if_pos (by omega), decide_eq_false (by omega), Bool.not_false, Bool.true_and]
      · simp [hlow]
  rw [hunsigned, BitVec.toNat_and, hmask, Nat.and_two_pow_sub_one_eq_mod, BitVec.toNat_ushiftRight,
    Nat.shiftRight_eq_div_pow]

variable {buffer : BitBuffer width} {fromBits toBits : ℕ}

theorem BitBuffer.Holds.drain (signed : Bool) {toBits : ℕ} {total value : ℕ} (hpos : 0 < toBits)
    (hbits : buffer.bits ≤ width) (hholds : buffer.Holds toBits total value) :
    (buffer.drain signed toBits).Holds toBits total value ∧
      (buffer.drain signed toBits).bits < toBits := by
  induction hcount : buffer.bits using Nat.strong_induction_on generalizing buffer with
  | _ count ih =>
    rw [BitBuffer.drain]
    split_ifs with hmore
    · have hfits : buffer.bits - toBits + toBits ≤ width := by omega
      have hdigit := toNat_shiftRight_and_maxv signed buffer.acc hfits
      refine ih (buffer.bits - toBits) (by omega) (by dsimp only; omega) ?_ rfl
      refine ⟨?_, ?_, ?_⟩
      · intro digit hmem
        rcases List.mem_append.mp hmem with hbefore | hlast
        · exact hholds.digits digit hbefore
        · rw [List.mem_singleton.mp hlast, hdigit]
          exact Nat.mod_lt _ (Nat.two_pow_pos toBits)
      · rw [hholds.total_eq, List.length_append, List.length_singleton, Nat.mul_add]
        dsimp only
        omega
      · -- the written group is the upper part of what was pending
        have hsplit : buffer.acc.toNat % 2 ^ buffer.bits =
            buffer.acc.toNat / 2 ^ (buffer.bits - toBits) % 2 ^ toBits *
              2 ^ (buffer.bits - toBits) + buffer.acc.toNat % 2 ^ (buffer.bits - toBits) := by
          have hpow : 2 ^ buffer.bits = 2 ^ (buffer.bits - toBits) * 2 ^ toBits := by
            rw [← pow_add, Nat.sub_add_cancel hmore.2]
          rw [hpow, Nat.mod_mul, Nat.add_comm, Nat.mul_comm]
        have hpow : 2 ^ buffer.bits = 2 ^ toBits * 2 ^ (buffer.bits - toBits) := by
          rw [← pow_add, Nat.add_sub_cancel' hmore.2]
        rw [hholds.value_eq, numeralValue_append_singleton, hdigit, hsplit]
        dsimp only
        rw [Nat.add_mul, Nat.mul_assoc, ← hpow, Nat.add_assoc]
    · exact ⟨hholds, by omega⟩

section

variable (signed : Bool) (hpos : 0 < toBits) (hwidth : toBits + fromBits ≤ width)

include signed hpos hwidth

theorem BitBuffer.Holds.push {total value digit : ℕ} (hbits : buffer.bits < toBits)
    (hholds : buffer.Holds toBits total value) (hdigit : digit < 2 ^ fromBits) :
    ∃ next, buffer.push signed fromBits toBits digit = .ok next ∧ next.bits < toBits ∧
      next.Holds toBits (total + fromBits) (value * 2 ^ fromBits + digit) := by
  have haccepted : ¬ ((digit : ℤ) < 0 ∨ (digit : ℤ) >>> fromBits ≠ 0) := by
    rintro (hnegative | hlarge)
    · omega
    · refine hlarge ?_
      rw [Int.shiftRight_eq_div_pow, ← Int.natCast_ediv, Nat.div_eq_of_lt hdigit]
      rfl
  rw [BitBuffer.push, if_neg haccepted]
  have hnext : BitBuffer.Holds toBits { buffer with
        acc := (buffer.acc <<< fromBits) ||| BitVec.ofInt width (digit : ℤ)
        bits := buffer.bits + fromBits } (total + fromBits) (value * 2 ^ fromBits + digit) := by
    refine ⟨hholds.digits, ?_, ?_⟩
    · rw [hholds.total_eq]
      dsimp only
      omega
    · dsimp only
      have hacc : ((buffer.acc <<< fromBits) ||| BitVec.ofInt width (digit : ℤ)).toNat %
            2 ^ (buffer.bits + fromBits) =
          buffer.acc.toNat % 2 ^ buffer.bits * 2 ^ fromBits + digit := by
        have hvalue : (BitVec.ofInt width (digit : ℤ)).toNat = digit := by
          rw [BitVec.ofInt_natCast, BitVec.toNat_ofNat, Nat.mod_eq_of_lt]
          exact hdigit.trans_le (Nat.pow_le_pow_right (by decide) (by omega))
        have hdvd : 2 ^ (buffer.bits + fromBits) ∣ 2 ^ width := Nat.pow_dvd_pow 2 (by omega)
        have hsmall : digit % 2 ^ (buffer.bits + fromBits) = digit :=
          Nat.mod_eq_of_lt (hdigit.trans_le (Nat.pow_le_pow_right (by decide) (by omega)))
        rw [BitVec.toNat_or, BitVec.toNat_shiftLeft, hvalue, Nat.or_mod_two_pow,
          Nat.mod_mod_of_dvd _ hdvd, hsmall, Nat.shiftLeft_eq, pow_add, Nat.mul_mod_mul_right,
          ← Nat.shiftLeft_eq, ← Nat.shiftLeft_add_eq_or_of_lt hdigit]
      rw [hacc, hholds.value_eq, pow_add, Nat.add_mul, Nat.mul_assoc, Nat.add_assoc]
  obtain ⟨hdrained, hless⟩ := hnext.drain signed hpos (by dsimp only; omega)
  exact ⟨_, rfl, hless, hdrained⟩

theorem BitBuffer.Holds.foldlM_push {digits : List ℕ}
    (hdigits : ∀ digit ∈ digits, digit < 2 ^ fromBits) {total value : ℕ}
    (hbits : buffer.bits < toBits) (hholds : buffer.Holds toBits total value) :
    ∃ final, (digits.map (Nat.cast : ℕ → ℤ)).foldlM (BitBuffer.push signed fromBits toBits)
        buffer = .ok final ∧ final.bits < toBits ∧
      final.Holds toBits (total + fromBits * digits.length)
        (digits.foldl (fun value digit => value * 2 ^ fromBits + digit) value) := by
  induction digits generalizing buffer total value with
  | nil => exact ⟨buffer, rfl, hbits, hholds⟩
  | cons digit digits ih =>
    obtain ⟨hdigit, hothers⟩ := List.forall_mem_cons.mp hdigits
    obtain ⟨next, hpush, hnextBits, hnext⟩ := hholds.push signed hpos hwidth hbits hdigit
    obtain ⟨final, hfold, hfinalBits, hfinal⟩ := ih hothers hnextBits hnext
    refine ⟨final, ?_, hfinalBits, ?_⟩
    · rw [List.map_cons, List.foldlM_cons, hpush]
      exact hfold
    · rw [List.length_cons, Nat.mul_succ, Nat.add_comm (fromBits * digits.length), ← Nat.add_assoc]
      exact hfinal

/-- The loop of `convertBits` over groups that fit. -/
theorem exists_buffer {digits : List ℕ} (hdigits : ∀ digit ∈ digits, digit < 2 ^ fromBits) :
    ∃ buffer : BitBuffer width, (digits.map (Nat.cast : ℕ → ℤ)).foldlM
        (BitBuffer.push signed fromBits toBits) ⟨0, 0, []⟩ = .ok buffer ∧ buffer.bits < toBits ∧
      buffer.Holds toBits (fromBits * digits.length) (numeralValue (2 ^ fromBits) digits) := by
  have hempty : BitBuffer.Holds toBits (⟨0, 0, []⟩ : BitBuffer width) 0 0 := ⟨nofun, rfl, by simp⟩
  obtain ⟨final, hfold, hbits, hholds⟩ := hempty.foldlM_push signed hpos hwidth hdigits hpos
  rw [Nat.zero_add] at hholds
  exact ⟨final, hfold, hbits, hholds⟩

end

/-- The bits still to be written, moved to the top of a group. -/
theorem toNat_shiftLeft_and_maxv (acc : BitVec width) {bits toBits : ℕ} (hbits : bits ≤ toBits)
    (hwidth : toBits ≤ width) :
    (acc <<< (toBits - bits) &&& maxv width toBits).toNat =
      acc.toNat % 2 ^ bits * 2 ^ (toBits - bits) := by
  have hshift := toNat_shiftRight_and_maxv false (acc <<< (toBits - bits))
    (Nat.zero_add toBits ▸ hwidth)
  rw [shiftRight, if_neg Bool.false_ne_true, BitVec.ushiftRight_zero, pow_zero, Nat.div_one,
    BitVec.toNat_shiftLeft, Nat.mod_mod_of_dvd _ (Nat.pow_dvd_pow 2 hwidth),
    Nat.shiftLeft_eq] at hshift
  rw [hshift, ← Nat.mul_mod_mul_right, ← pow_add, Nat.add_sub_cancel' hbits]

/-- The groups `out` are the groups `digits` cut anew, filled up with zero bits. -/
structure Regroups (fromBits toBits : ℕ) (digits out : List ℕ) (padding : ℕ) : Prop where
  digits_lt : ∀ digit ∈ digits, digit < 2 ^ fromBits
  out_lt : ∀ digit ∈ out, digit < 2 ^ toBits
  length_eq : toBits * out.length = fromBits * digits.length + padding
  value_eq : numeralValue (2 ^ toBits) out = numeralValue (2 ^ fromBits) digits * 2 ^ padding

/-- A total is whole groups and a rest in one way. -/
theorem groups_unique {size count other rest extra : ℕ} (hrest : rest < size)
    (hextra : extra < size) (htotal : size * count + rest = size * other + extra) :
    count = other ∧ rest = extra := by
  have hpos : 0 < size := by omega
  obtain ⟨hcount, hmod⟩ := (Nat.div_mod_unique hpos).mpr ⟨Nat.add_comm rest _, hrest⟩
  obtain ⟨hother, hmodOther⟩ := (Nat.div_mod_unique hpos).mpr ⟨Nat.add_comm extra _, hextra⟩
  rw [htotal] at hcount hmod
  exact ⟨hcount.symm.trans hother, hmod.symm.trans hmodOther⟩

/-- Padding shorter than a group is determined, and with it the groups. -/
theorem Regroups.unique {digits out other : List ℕ} {padding extra : ℕ}
    (hout : Regroups fromBits toBits digits out padding) (hpadding : padding < toBits)
    (hother : Regroups fromBits toBits digits other extra) (hextra : extra < toBits) :
    out = other := by
  have hlengths : toBits * out.length + extra = toBits * other.length + padding := by
    rw [hout.length_eq, hother.length_eq]
    omega
  obtain ⟨hlength, rfl⟩ := groups_unique hextra hpadding hlengths
  have hpos : toBits ≠ 0 := by omega
  exact numeralValue_injective (Nat.one_lt_two_pow hpos) hlength hout.out_lt hother.out_lt
    (hout.value_eq.trans hother.value_eq.symm)

/-- With padding every list is regrouped. -/
theorem exists_convertBits_pad (signed : Bool) (hpos : 0 < toBits)
    (hwidth : toBits + fromBits ≤ width) {digits : List ℕ}
    (hdigits : ∀ digit ∈ digits, digit < 2 ^ fromBits) :
    ∃ (out : List ℕ) (padding : ℕ),
      convertBits width signed (digits.map Nat.cast) fromBits toBits true = .ok out ∧
        padding < toBits ∧ Regroups fromBits toBits digits out padding := by
  obtain ⟨buffer, hfold, hbits, hholds⟩ := exists_buffer signed hpos hwidth hdigits
  have hrest := toNat_shiftLeft_and_maxv buffer.acc hbits.le (show toBits ≤ width by omega)
  rw [convertBits, hfold]
  dsimp only [bind, Except.bind]
  rw [if_pos rfl, hrest]
  by_cases hmore : 0 < buffer.bits
  · -- the last group holds the bits that are left over
    rw [if_pos hmore]
    refine ⟨_, toBits - buffer.bits, rfl, by omega, hdigits, ?_, ?_, ?_⟩
    · intro digit hmem
      rcases List.mem_append.mp hmem with hbefore | hlast
      · exact hholds.digits digit hbefore
      · rw [List.mem_singleton.mp hlast, ← Nat.add_sub_cancel' hbits.le, pow_add,
          Nat.add_sub_cancel_left]
        exact Nat.mul_lt_mul_of_pos_right (Nat.mod_lt _ (Nat.two_pow_pos _)) (Nat.two_pow_pos _)
    · rw [hholds.total_eq, List.length_append, List.length_singleton, Nat.mul_succ]
      omega
    · have hpow : 2 ^ toBits = 2 ^ buffer.bits * 2 ^ (toBits - buffer.bits) := by
        rw [← pow_add, Nat.add_sub_cancel' hbits.le]
      rw [hholds.value_eq, numeralValue_append_singleton, Nat.add_mul, Nat.mul_assoc, ← hpow]
  · rw [if_neg hmore]
    have hzero : buffer.bits = 0 := by omega
    have htotal := hholds.total_eq
    have hvalue := hholds.value_eq
    rw [hzero] at htotal
    rw [hzero, pow_zero, Nat.mul_one, Nat.mod_one] at hvalue
    exact ⟨_, 0, rfl, hpos, hdigits, hholds.digits, htotal.symm, by rw [hvalue]; simp⟩

/-- Without padding the conversion undoes one with padding. -/
theorem Regroups.convertBits_unpad (signed : Bool) {fromBits toBits padding : ℕ}
    {digits out : List ℕ} (hregroups : Regroups fromBits toBits digits out padding)
    (hto : padding < toBits) (hfrom : padding < fromBits) (hwidth : fromBits + toBits ≤ width) :
    convertBits width signed (out.map Nat.cast) toBits fromBits false = .ok digits := by
  obtain ⟨buffer, hfold, hbits, hholds⟩ :=
    exists_buffer signed (show 0 < fromBits by omega) hwidth hregroups.out_lt
  have hlengths := hholds.total_eq.symm.trans hregroups.length_eq
  obtain ⟨hlength, hpadding⟩ := groups_unique hbits hfrom hlengths
  have hvalue := hholds.value_eq.symm.trans hregroups.value_eq
  rw [hpadding] at hvalue
  -- the bits left over are the padding, so they are zero
  have hzero : buffer.acc.toNat % 2 ^ padding = 0 := by
    have hmod := congrArg (· % 2 ^ padding) hvalue
    simpa using hmod
  rw [hzero, Nat.add_zero] at hvalue
  have hsame := Nat.eq_of_mul_eq_mul_right (Nat.two_pow_pos padding) hvalue
  have hrest := toNat_shiftLeft_and_maxv buffer.acc hbits.le (show fromBits ≤ width by omega)
  rw [hpadding, hzero, Nat.zero_mul] at hrest
  have hpos : fromBits ≠ 0 := by omega
  rw [convertBits, hfold]
  dsimp only [bind, Except.bind]
  rw [if_neg Bool.false_ne_true, hpadding, hrest, if_neg (by omega),
    numeralValue_injective (Nat.one_lt_two_pow hpos) hlength hholds.digits hregroups.digits_lt
      hsame]
  rfl

theorem exists_digits_of_foldlM_push {signed : Bool} {data : List ℤ}
    {buffer final : BitBuffer width}
    (hfold : data.foldlM (BitBuffer.push signed fromBits toBits) buffer = .ok final) :
    ∃ digits : List ℕ, data = digits.map Nat.cast ∧ ∀ digit ∈ digits, digit < 2 ^ fromBits := by
  induction data generalizing buffer with
  | nil => exact ⟨[], rfl, nofun⟩
  | cons value data ih =>
    rw [List.foldlM_cons, BitBuffer.push] at hfold
    split_ifs at hfold with hinvalid
    · exact absurd hfold nofun
    · obtain ⟨digits, rfl, hdigits⟩ := ih hfold
      push Not at hinvalid
      obtain ⟨hnonneg, hsmall⟩ := hinvalid
      obtain ⟨digit, rfl⟩ := Int.eq_ofNat_of_zero_le hnonneg
      refine ⟨digit :: digits, rfl, List.forall_mem_cons.mpr ⟨?_, hdigits⟩⟩
      rw [Int.shiftRight_eq_div_pow, ← Int.natCast_ediv, Int.natCast_eq_zero] at hsmall
      exact Nat.lt_of_div_eq_zero (Nat.two_pow_pos fromBits) hsmall

/-- What `convertBits` without padding accepts was regrouped from its result. -/
theorem regroups_of_convertBits {signed : Bool} (hpos : 0 < toBits)
    (hwidth : toBits + fromBits ≤ width) {data : List ℤ} {out : List ℕ}
    (hok : convertBits width signed data fromBits toBits false = .ok out) :
    ∃ (digits : List ℕ) (padding : ℕ), data = digits.map Nat.cast ∧ padding < fromBits ∧
      Regroups toBits fromBits out digits padding := by
  rw [convertBits] at hok
  cases hfold : data.foldlM (BitBuffer.push signed fromBits toBits)
      (⟨0, 0, []⟩ : BitBuffer width) with
  | error message =>
    rw [hfold] at hok
    exact absurd hok nofun
  | ok buffer =>
    rw [hfold] at hok
    dsimp only [bind, Except.bind] at hok
    rw [if_neg Bool.false_ne_true] at hok
    split_ifs at hok with hpadding
    obtain rfl := Except.ok.inj hok
    push Not at hpadding
    obtain ⟨digits, rfl, hdigits⟩ := exists_digits_of_foldlM_push hfold
    obtain ⟨same, hsame, hbits, hholds⟩ := exists_buffer signed hpos hwidth hdigits
    obtain rfl := Except.ok.inj (hfold.symm.trans hsame)
    have hrest := hpadding.2
    rw [toNat_shiftLeft_and_maxv buffer.acc hbits.le (by omega)] at hrest
    have hzero := (Nat.mul_eq_zero.mp hrest).resolve_right (Nat.two_pow_pos _).ne'
    refine ⟨digits, buffer.bits, rfl, hpadding.1, hholds.digits, hdigits, hholds.total_eq, ?_⟩
    rw [hholds.value_eq, hzero, Nat.add_zero]

/-- Bytes survive five-bit groups, and the groups that are accepted survive bytes.  The
groups have five bits and are no more than the bytes need; the bytes have eight and are as
many as the groups fill. -/
def Lossless (width : ℕ) (signed : Bool) : Prop :=
  (∀ bytes : Bytes, ∃ groups : List ℕ,
    convertBits width signed ((bytes.map UInt8.toNat).map Nat.cast) 8 5 true = .ok groups ∧
      (∀ group ∈ groups, group < 32) ∧ groups.length = (8 * bytes.length + 4) / 5 ∧
      convertBits width signed (groups.map Nat.cast) 5 8 false = .ok (bytes.map UInt8.toNat)) ∧
  ∀ (groups : List (BitVec 5)) (bytes : List ℕ),
    convertBits width signed ((groups.map BitVec.toNat).map Nat.cast) 5 8 false = .ok bytes →
      (∀ byte ∈ bytes, byte < 256) ∧ bytes.length = 5 * groups.length / 8 ∧
      convertBits width signed (bytes.map Nat.cast) 8 5 true = .ok (groups.map BitVec.toNat)

theorem lossless_of_width (signed : Bool) (hwidth : 8 + 5 ≤ width) : Lossless width signed := by
  constructor
  · intro bytes
    have hbytes : ∀ value ∈ bytes.map UInt8.toNat, value < 2 ^ 8 := toNat_lt_of_mem_map
    obtain ⟨groups, padding, hgroups, hpadding, hregroups⟩ :=
      exists_convertBits_pad signed (show 0 < 5 by decide) (by omega) hbytes
    have hlength := hregroups.length_eq
    rw [List.length_map] at hlength
    exact ⟨groups, hgroups, hregroups.out_lt, by omega,
      hregroups.convertBits_unpad signed hpadding (by omega) hwidth⟩
  · intro groups bytes hok
    obtain ⟨digits, padding, hdigits, hpadding, hregroups⟩ :=
      regroups_of_convertBits (by decide) hwidth hok
    obtain ⟨back, extra, hback, hextra, hagain⟩ :=
      exists_convertBits_pad signed (show 0 < 5 by decide) (by omega) hregroups.digits_lt
    obtain rfl := List.map_injective_iff.mpr Nat.cast_injective hdigits
    have hlength := hregroups.length_eq
    rw [List.length_map] at hlength
    exact ⟨hregroups.digits_lt, by omega,
      hback.trans (congrArg Except.ok (hagain.unique hextra hregroups hpadding))⟩

/-- The accumulator is never masked, but only its low bits are read: 64 bits with a sign on
the phone and 32 bits in the browser are both enough. -/
theorem convertBits_lossless : Lossless 64 true ∧ Lossless 32 false :=
  ⟨lossless_of_width true (by decide), lossless_of_width false (by decide)⟩

end Bits

section Bech32

def bech32Charset : Utf16 := ascii "qpzry9x8gf2tvdw0s3jn54khce6mua7l"

def bech32Generator : List (BitVec 32) :=
  [0x3b6a57b2, 0x26508e6d, 0x1ea119fa, 0x3d4233dd, 0x2a1462b3]

def bech32Polymod (values : List ℕ) : BitVec 32 :=
  values.foldl (fun chk value =>
    let top := chk >>> 25
    let shifted := ((chk &&& 0x1ffffff) <<< 5) ^^^ BitVec.ofNat 32 value
    bech32Generator.zipIdx.foldl (fun chk entry =>
      if top.getLsbD entry.2 then chk ^^^ entry.1 else chk) shifted) 1

def bech32HrpExpand (hrp : Utf16) : List ℕ :=
  hrp.map (fun unit => unit.toNat >>> 5) ++ [0] ++ hrp.map fun unit => unit.toNat &&& 31

def bech32CreateChecksum (hrp : Utf16) (data : List ℕ) : List ℕ :=
  let mod := bech32Polymod (bech32HrpExpand hrp ++ data ++ [0, 0, 0, 0, 0, 0]) ^^^ 1
  (List.range 6).map fun p => (mod >>> (5 * (5 - p)) &&& 31).toNat

def bech32Chars (data : List ℕ) : Utf16 := data.flatMap fun index => bech32Charset[index]?.toList

def separator : UInt16 := 49

def bech32Encode (hrp : Utf16) (data : List ℕ) : Utf16 :=
  hrp ++ [separator] ++ bech32Chars (data ++ bech32CreateChecksum hrp data)

/-- The human-readable part and the data; the checksum is cut off. -/
def bech32Decode (bech : Utf16) : Utf16 × List ℤ :=
  let pos := lastIndexOf separator bech
  (slice bech 0 pos, (codePoints (slice bech (pos + 1) (-6))).map (indexOf bech32Charset))

theorem nodup_bech32Charset : bech32Charset.Nodup := by decide

theorem bech32Charset_lt : ∀ unit ∈ bech32Charset, unit < 0xd800 := by
  have hall : bech32Charset.all (fun unit => decide (unit < 0xd800)) = true := by decide
  exact fun unit hmem => of_decide_eq_true (List.all_eq_true.mp hall unit hmem)

theorem length_bech32Charset : bech32Charset.length = 32 := by decide

theorem separator_not_mem_charset : separator ∉ bech32Charset := by decide

theorem bech32Chars_eq {data : List ℕ} (hdata : ∀ value ∈ data, value < 32) :
    bech32Chars data = data.map fun value => bech32Charset.getD value 0 := by
  induction data with
  | nil => rfl
  | cons value data ih =>
    obtain ⟨hvalue, hothers⟩ := List.forall_mem_cons.mp hdata
    have hindex : value < bech32Charset.length := length_bech32Charset ▸ hvalue
    rw [bech32Chars, List.flatMap_cons, List.getElem?_eq_getElem hindex, List.map_cons,
      List.getD_eq_getElem _ _ hindex, ← ih hothers]
    rfl

theorem separator_not_mem_chars (data : List ℕ) : separator ∉ bech32Chars data := by
  intro hmem
  obtain ⟨value, _, hvalue⟩ := List.mem_flatMap.mp hmem
  rw [Option.mem_toList] at hvalue
  exact separator_not_mem_charset (List.mem_of_getElem? hvalue)

theorem bech32CreateChecksum_lt (hrp : Utf16) (data : List ℕ) :
    ∀ value ∈ bech32CreateChecksum hrp data, value < 32 := by
  intro value hmem
  obtain ⟨p, _, rfl⟩ := List.mem_map.mp hmem
  rw [BitVec.toNat_and]
  exact lt_of_le_of_lt Nat.and_le_right (by decide)

theorem length_bech32CreateChecksum (hrp : Utf16) (data : List ℕ) :
    (bech32CreateChecksum hrp data).length = 6 := by
  rw [bech32CreateChecksum, List.length_map, List.length_range]

theorem bech32Chars_append (data more : List ℕ) :
    bech32Chars (data ++ more) = bech32Chars data ++ bech32Chars more :=
  List.flatMap_append

/-- The parts of a string with a separator. -/
theorem bech32Decode_append {hrp middle last : Utf16} (hmiddle : separator ∉ middle)
    (hlast : separator ∉ last) (hsix : last.length = 6) :
    bech32Decode (hrp ++ separator :: (middle ++ last)) =
      (hrp, (codePoints middle).map (indexOf bech32Charset)) := by
  have htail : separator ∉ middle ++ last := by
    rw [List.mem_append]
    exact fun hmem => hmem.elim hmiddle hlast
  have hhrp : slice (hrp ++ separator :: (middle ++ last)) 0 hrp.length = hrp := by
    have hindex : sliceIndex (hrp ++ separator :: (middle ++ last)).length hrp.length =
        hrp.length := by
      rw [sliceIndex, List.length_append]
      split_ifs <;> omega
    have hstart : sliceIndex (hrp ++ separator :: (middle ++ last)).length 0 = 0 := by
      rw [sliceIndex]
      split_ifs <;> omega
    rw [slice, hindex, hstart, List.drop_zero, List.take_left]
  have hdata : slice (hrp ++ separator :: (middle ++ last)) (hrp.length + 1) (-6) = middle := by
    have hlength : (hrp ++ separator :: (middle ++ last)).length =
        (hrp ++ [separator] ++ middle).length + 6 := by
      simp only [List.length_append, List.length_cons, List.length_nil, hsix]
      omega
    have hstop : sliceIndex (hrp ++ separator :: (middle ++ last)).length (-6) =
        (hrp ++ [separator] ++ middle).length := by
      rw [sliceIndex, hlength, if_pos (by decide)]
      omega
    have hstart : sliceIndex (hrp ++ separator :: (middle ++ last)).length (hrp.length + 1) =
        (hrp ++ [separator]).length := by
      rw [sliceIndex, hlength, List.length_append, List.length_append, List.length_singleton]
      split_ifs <;> omega
    have hsplit : hrp ++ separator :: (middle ++ last) = hrp ++ [separator] ++ middle ++ last := by
      simp
    rw [slice, hstop, hstart, hsplit, List.take_left, List.drop_left]
  rw [bech32Decode, lastIndexOf_append hrp htail, hhrp, hdata]

end Bech32

end FirstIslamicCoin.ClientWallet
