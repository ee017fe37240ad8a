import Mathlib

/-!
# Byte encodings

Little-endian numbers, and readers that take a value off the front of a byte
string.  A reader recovers a value from bytes when, whatever follows them, it
returns the value and exactly what follows.  Readers compose by sequencing, and
so does recovery, which is how the round trip of a record format is assembled
from its fields.  A reader is canonical when it accepts nothing but what the
writer produces for the value it returns.
-/

namespace FirstIslamicCoin.ByteCodec

abbrev Bytes := List UInt8

section LittleEndian

/-- The `width` low-order bytes of a number, least significant first. -/
def littleEndian : ℕ → ℕ → Bytes
  | 0, _ => []
  | width + 1, value => UInt8.ofNat value :: littleEndian width (value / 256)

def ofLittleEndian : Bytes → ℕ
  | [] => 0
  | byte :: bytes => byte.toNat + 256 * ofLittleEndian bytes

@[simp]
theorem length_littleEndian (width value : ℕ) :
    (littleEndian width value).length = width := by
  induction width generalizing value with
  | zero => rfl
  | succ width ih => simp [littleEndian, ih]

theorem ofLittleEndian_littleEndian {width value : ℕ} (hvalue : value < 256 ^ width) :
    ofLittleEndian (littleEndian width value) = value := by
  induction width generalizing value with
  | zero =>
    have hzero : value = 0 := by simpa using hvalue
    simp [littleEndian, ofLittleEndian, hzero]
  | succ width ih =>
    have hdiv : value / 256 < 256 ^ width := by
      rw [pow_succ] at hvalue
      exact Nat.div_lt_of_lt_mul (by omega)
    rw [littleEndian, ofLittleEndian, ih hdiv, UInt8.toNat_ofNat']
    omega

theorem ofLittleEndian_lt (bytes : Bytes) :
    ofLittleEndian bytes < 256 ^ bytes.length := by
  induction bytes with
  | nil => simp [ofLittleEndian]
  | cons byte bytes ih =>
    have hbyte := byte.toNat_lt
    rw [ofLittleEndian, List.length_cons, pow_succ]
    omega

theorem littleEndian_ofLittleEndian (bytes : Bytes) :
    littleEndian bytes.length (ofLittleEndian bytes) = bytes := by
  induction bytes with
  | nil => rfl
  | cons byte bytes ih =>
    have hbyte := byte.toNat_lt
    have hlow : UInt8.ofNat (byte.toNat + 256 * ofLittleEndian bytes) = byte := by
      apply UInt8.toNat_inj.mp
      rw [UInt8.toNat_ofNat']
      omega
    have hhigh : (byte.toNat + 256 * ofLittleEndian bytes) / 256 = ofLittleEndian bytes := by omega
    rw [List.length_cons, ofLittleEndian, littleEndian, hlow, hhigh, ih]

end LittleEndian

section Reader

variable {α β : Type}

/-- A reader takes a value off the front of a byte string, or fails. -/
abbrev Reader (α : Type) := Bytes → Option (α × Bytes)

namespace Reader

def done (value : α) : Reader α := fun bytes => some (value, bytes)

def fail : Reader α := fun _ => none

/-- Read a value, then go on with a reader that depends on it. -/
def andThen (first : Reader α) (next : α → Reader β) : Reader β := fun bytes =>
  match first bytes with
  | none => none
  | some (value, rest) => next value rest

def map (convert : α → β) (reader : Reader α) : Reader β :=
  reader.andThen fun value => done (convert value)

def guard (condition : Bool) (next : Reader α) : Reader α :=
  if condition then next else fail

/-- The reader returns `value` for `bytes` and leaves what follows. -/
def Recovers (reader : Reader α) (value : α) (bytes : Bytes) : Prop :=
  ∀ tail, reader (bytes ++ tail) = some (value, tail)

theorem recovers_done (value : α) : (done value).Recovers value [] :=
  fun _ => rfl

variable {first : Reader α} {next : α → Reader β} {value : α} {reader : Reader α} {bytes : Bytes}

theorem Recovers.andThen {result : β} {front back : Bytes} (hfirst : first.Recovers value front)
    (hnext : (next value).Recovers result back) :
    (first.andThen next).Recovers result (front ++ back) := by
  intro tail
  rw [Reader.andThen, List.append_assoc, hfirst]
  exact hnext tail

theorem Recovers.map (hreader : reader.Recovers value bytes) (convert : α → β) :
    (reader.map convert).Recovers (convert value) bytes := by
  have hboth : (reader.map convert).Recovers (convert value) (bytes ++ []) :=
    hreader.andThen (recovers_done (convert value))
  rwa [List.append_nil] at hboth

theorem Recovers.guard {condition : Bool} {next : Reader α} (hcondition : condition = true)
    (hnext : next.Recovers value bytes) : (Reader.guard condition next).Recovers value bytes := by
  rw [Reader.guard, if_pos hcondition]
  exact hnext

/-- The reader fails on `bytes`, whatever follows. -/
def Rejects (reader : Reader α) (bytes : Bytes) : Prop :=
  ∀ tail, reader (bytes ++ tail) = none

theorem Rejects.andThen {front : Bytes} (hfirst : first.Rejects front) (next : α → Reader β)
    (back : Bytes) : (first.andThen next).Rejects (front ++ back) := by
  intro tail
  rw [Reader.andThen, List.append_assoc, hfirst]

theorem Recovers.andThen_rejects {front back : Bytes} (hfirst : first.Recovers value front)
    (hnext : (next value).Rejects back) : (first.andThen next).Rejects (front ++ back) := by
  intro tail
  rw [Reader.andThen, List.append_assoc, hfirst]
  exact hnext tail

theorem done_eq_some {result : α × Bytes} :
    done value bytes = some result ↔ (value, bytes) = result := by
  rw [done, Option.some.injEq]

theorem andThen_eq_some {result : β × Bytes} :
    first.andThen next bytes = some result ↔
      ∃ value rest, first bytes = some (value, rest) ∧
        next value rest = some result := by
  rw [Reader.andThen]
  cases hfirst : first bytes with
  | none => simp
  | some read =>
    obtain ⟨value, rest⟩ := read
    simp

theorem map_eq_some {convert : α → β} {result : β × Bytes} :
    reader.map convert bytes = some result ↔
      ∃ value rest, reader bytes = some (value, rest) ∧
        (convert value, rest) = result := by
  simp only [Reader.map, andThen_eq_some, done_eq_some]

theorem guard_eq_some {condition : Bool} {next : Reader α} {result : α × Bytes} :
    Reader.guard condition next bytes = some result ↔
      condition = true ∧ next bytes = some result := by
  cases condition <;> simp [Reader.guard, fail]

/-- Two values that a reader recovers from the same bytes are equal. -/
theorem Recovers.unique {left right : α} (hleft : reader.Recovers left bytes)
    (hright : reader.Recovers right bytes) : left = right := by
  have hboth : some (left, ([] : Bytes)) = some (right, []) := by
    rw [← hleft [], hright []]
  exact (Prod.mk.inj (Option.some.inj hboth)).1

/-- Whatever the reader accepts is what is written for the value it returns,
followed by what it leaves. -/
def Canonical (reader : Reader α) (encode : α → Bytes) : Prop :=
  ∀ bytes value rest, reader bytes = some (value, rest) → bytes = encode value ++ rest

end Reader

def readBytes (width : ℕ) : Reader Bytes := fun bytes =>
  if width ≤ bytes.length then some (bytes.take width, bytes.drop width)
  else none

theorem readBytes_recovers (bytes : Bytes) :
    (readBytes bytes.length).Recovers bytes bytes := by
  intro tail
  simp [readBytes]

theorem readBytes_eq_some {width : ℕ} {bytes value rest : Bytes} :
    readBytes width bytes = some (value, rest) ↔
      bytes = value ++ rest ∧ value.length = width := by
  rw [readBytes]
  constructor
  · intro hread
    split_ifs at hread with hwidth
    obtain ⟨rfl, rfl⟩ := Prod.mk.inj (Option.some.inj hread)
    exact ⟨(List.take_append_drop width bytes).symm, List.length_take_of_le hwidth⟩
  · rintro ⟨rfl, rfl⟩
    simp

def readLittleEndian (width : ℕ) : Reader ℕ :=
  (readBytes width).map ofLittleEndian

theorem readLittleEndian_recovers {width value : ℕ} (hvalue : value < 256 ^ width) :
    (readLittleEndian width).Recovers value (littleEndian width value) := by
  have hread := readBytes_recovers (littleEndian width value)
  rw [length_littleEndian] at hread
  have hvalues := hread.map ofLittleEndian
  rwa [ofLittleEndian_littleEndian hvalue] at hvalues

/-- A type whose values are stored as little-endian numbers. -/
theorem readLittleEndian_map_recovers {width : ℕ} {toNat : α → ℕ} {ofNat : ℕ → α}
    (hbound : ∀ value, toNat value < 256 ^ width)
    (hinverse : ∀ value, ofNat (toNat value) = value) (value : α) :
    ((readLittleEndian width).map ofNat).Recovers value (littleEndian width (toNat value)) := by
  have hread := (readLittleEndian_recovers (hbound value)).map ofNat
  rwa [hinverse] at hread

theorem readLittleEndian_canonical (width : ℕ) :
    (readLittleEndian width).Canonical (littleEndian width) := by
  intro bytes value rest hread
  obtain ⟨read, remainder, hbytes, heq⟩ := Reader.map_eq_some.mp hread
  obtain ⟨rfl, rfl⟩ := Prod.mk.inj heq
  obtain ⟨rfl, rfl⟩ := readBytes_eq_some.mp hbytes
  rw [littleEndian_ofLittleEndian]

variable {bytes rest : Bytes}

theorem lt_of_readLittleEndian {width value : ℕ}
    (hread : readLittleEndian width bytes = some (value, rest)) : value < 256 ^ width := by
  obtain ⟨read, remainder, hbytes, heq⟩ := Reader.map_eq_some.mp hread
  obtain ⟨rfl, rfl⟩ := Prod.mk.inj heq
  obtain ⟨rfl, rfl⟩ := readBytes_eq_some.mp hbytes
  exact ofLittleEndian_lt read

theorem readLittleEndian_map_canonical {width : ℕ} {toNat : α → ℕ} {ofNat : ℕ → α}
    (hinverse : ∀ number, number < 256 ^ width → toNat (ofNat number) = number) :
    ((readLittleEndian width).map ofNat).Canonical
      fun value => littleEndian width (toNat value) := by
  intro bytes value rest hread
  obtain ⟨number, remainder, hnumber, heq⟩ := Reader.map_eq_some.mp hread
  obtain ⟨rfl, rfl⟩ := Prod.mk.inj heq
  have hback := hinverse number (lt_of_readLittleEndian hnumber)
  simp only [hback]
  exact readLittleEndian_canonical width _ _ _ hnumber

def readByte : Reader UInt8
  | [] => none
  | byte :: rest => some (byte, rest)

theorem readByte_recovers (byte : UInt8) : readByte.Recovers byte [byte] :=
  fun _ => rfl

theorem readByte_canonical : readByte.Canonical fun byte => [byte] := by
  intro bytes value rest hread
  cases bytes with
  | nil => simp [readByte] at hread
  | cons byte remainder =>
    obtain ⟨rfl, rfl⟩ := Prod.mk.inj (Option.some.inj hread)
    rfl

def readMany (reader : Reader α) : ℕ → Reader (List α)
  | 0 => .done []
  | count + 1 => reader.andThen fun value =>
      (readMany reader count).map fun values => value :: values

/-- Values that are recovered one by one, possibly in a changed form, are
recovered as a list. -/
theorem readMany_recovers {reader : Reader β} {encode : α → Bytes} {decoded : α → β}
    {values : List α} (hreader : ∀ value ∈ values, reader.Recovers (decoded value) (encode value)) :
    (readMany reader values.length).Recovers (values.map decoded) (values.flatMap encode) := by
  induction values with
  | nil => exact Reader.recovers_done []
  | cons value values ih =>
    obtain ⟨hhead, htail⟩ := List.forall_mem_cons.mp hreader
    rw [List.length_cons, readMany, List.flatMap_cons, List.map_cons]
    exact hhead.andThen ((ih htail).map _)

theorem readMany_canonical {reader : Reader α} {encode : α → Bytes}
    (hreader : reader.Canonical encode) {count : ℕ} {values : List α}
    (hread : readMany reader count bytes = some (values, rest)) :
    bytes = values.flatMap encode ++ rest ∧ values.length = count := by
  induction count generalizing bytes values with
  | zero =>
    obtain ⟨rfl, rfl⟩ := Prod.mk.inj (Reader.done_eq_some.mp hread)
    exact ⟨rfl, rfl⟩
  | succ count ih =>
    obtain ⟨value, middle, hvalue, hothers⟩ := Reader.andThen_eq_some.mp hread
    obtain ⟨others, remainder, hmany, heq⟩ := Reader.map_eq_some.mp hothers
    obtain ⟨rfl, rfl⟩ := Prod.mk.inj heq
    obtain ⟨rfl, rfl⟩ := ih hmany
    rw [hreader _ _ _ hvalue, List.flatMap_cons, List.append_assoc]
    exact ⟨rfl, List.length_cons⟩

/-- What holds of every value that is read holds of all of them. -/
theorem forall_mem_of_readMany {reader : Reader α} {holds : α → Prop}
    (hreader : ∀ bytes value rest, reader bytes = some (value, rest) → holds value) {count : ℕ}
    {values : List α} (hread : readMany reader count bytes = some (values, rest)) :
    ∀ value ∈ values, holds value := by
  induction count generalizing bytes values with
  | zero =>
    obtain ⟨rfl, rfl⟩ := Prod.mk.inj (Reader.done_eq_some.mp hread)
    exact List.forall_mem_nil _
  | succ count ih =>
    obtain ⟨value, middle, hvalue, hothers⟩ := Reader.andThen_eq_some.mp hread
    obtain ⟨others, remainder, hmany, heq⟩ := Reader.map_eq_some.mp hothers
    obtain ⟨rfl, rfl⟩ := Prod.mk.inj heq
    exact List.forall_mem_cons.mpr ⟨hreader _ _ _ hvalue, ih hmany⟩

end Reader

section VarInt

/-- The digits of a number in base 128 after its last one, least significant
first.  Each is marked as followed by another, and one is taken off the number
at each digit, so that every number has one form. -/
def varIntDigits : ℕ → ℕ → Bytes
  | 0, _ => []
  | length + 1, value =>
      UInt8.ofNat (value % 128 + 128) ::
        if value ≤ 0x7f then [] else varIntDigits length (value / 128 - 1)

/-- A number of at most `length` digits in base 128, most significant first. -/
def writeVarInt (length value : ℕ) : Bytes :=
  (UInt8.ofNat (value % 128) ::
    if value ≤ 0x7f then [] else varIntDigits (length - 1) (value / 128 - 1)).reverse

/-- Read on from the digits seen so far, up to the given maximum. -/
def readVarIntFrom (maximum : ℕ) : ℕ → Reader ℕ
  | _, [] => none
  | value, byte :: rest =>
      if maximum / 128 < value then none
      else
        let next := value * 128 + byte.toNat % 128
        if 128 ≤ byte.toNat then
          if next = maximum then none else readVarIntFrom maximum (next + 1) rest
        else some (next, rest)

def readVarInt (maximum : ℕ) : Reader ℕ := readVarIntFrom maximum 0

theorem readVarIntFrom_digit {maximum value : ℕ} (rest : Bytes) (hvalue : value < maximum) :
    readVarIntFrom maximum (value / 128) (UInt8.ofNat (value % 128 + 128) :: rest) =
      readVarIntFrom maximum (value + 1) rest := by
  have hbyte : (UInt8.ofNat (value % 128 + 128)).toNat = value % 128 + 128 := by
    rw [UInt8.toNat_ofNat']
    omega
  have hnext : value / 128 * 128 + (value % 128 + 128) % 128 = value := by omega
  rw [readVarIntFrom, hbyte, hnext, if_neg (by omega), if_pos (by omega), if_neg (by omega)]

theorem readVarIntFrom_last {maximum value : ℕ} (rest : Bytes) (hvalue : value ≤ maximum) :
    readVarIntFrom maximum (value / 128) (UInt8.ofNat (value % 128) :: rest) =
      some (value, rest) := by
  have hbyte : (UInt8.ofNat (value % 128)).toNat = value % 128 := by
    rw [UInt8.toNat_ofNat']
    omega
  have hnext : value / 128 * 128 + value % 128 % 128 = value := by omega
  rw [readVarIntFrom, hbyte, hnext, if_neg (by omega), if_neg (by omega)]

/-- Reading the digits in front of the last one leaves the number they stand
for, increased by one. -/
theorem readVarIntFrom_digits {maximum length value : ℕ} (rest : Bytes)
    (hvalue : value < maximum) (hlength : value < 128 ^ (length + 1)) :
    readVarIntFrom maximum 0 ((varIntDigits (length + 1) value).reverse ++ rest) =
      readVarIntFrom maximum (value + 1) rest := by
  induction length generalizing value rest with
  | zero =>
    have hsmall : value ≤ 0x7f := by omega
    have hzero : value / 128 = 0 := by omega
    rw [varIntDigits, if_pos hsmall, ← readVarIntFrom_digit rest hvalue, hzero]
    rfl
  | succ length ih =>
    rw [varIntDigits, List.reverse_cons, List.append_assoc, List.singleton_append]
    split_ifs with hsmall
    · have hzero : value / 128 = 0 := by omega
      rw [← readVarIntFrom_digit rest hvalue, hzero]
      rfl
    · have hfits : value / 128 < 128 ^ (length + 1) := by
        rw [pow_succ] at hlength
        exact Nat.div_lt_of_lt_mul (by omega)
      rw [ih _ (by omega) (by omega), Nat.sub_add_cancel (by omega),
        readVarIntFrom_digit rest hvalue]

theorem readVarInt_recovers {maximum length value : ℕ} (hvalue : value ≤ maximum)
    (hlength : value < 128 ^ (length + 2)) :
    (readVarInt maximum).Recovers value (writeVarInt (length + 2) value) := by
  intro tail
  rw [readVarInt, writeVarInt, List.reverse_cons, List.append_assoc, List.singleton_append]
  split_ifs with hsmall
  · have hzero : value / 128 = 0 := by omega
    rw [← readVarIntFrom_last tail hvalue, hzero]
    rfl
  · have hfits : value / 128 < 128 ^ (length + 1) := by
      rw [pow_succ] at hlength
      exact Nat.div_lt_of_lt_mul (by omega)
    rw [Nat.add_sub_cancel (length + 1) 1, readVarIntFrom_digits _ (by omega) (by omega),
      Nat.sub_add_cancel (by omega), readVarIntFrom_last tail hvalue]

end VarInt

end FirstIslamicCoin.ByteCodec
