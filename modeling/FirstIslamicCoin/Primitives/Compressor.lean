import FirstIslamicCoin.Consensus.Amount
import FirstIslamicCoin.Primitives.Deserialize
import FirstIslamicCoin.Primitives.Script

/-!
# The compact form of outputs

`compressor.cpp` and `compressor.h`: amounts without their trailing zeros, and
short forms of the standard scripts.  Undo records are written in this form.
A script of admissible size always comes back.  An amount comes back exactly
when its compressed form fits in 64 bits: a multiple of ten always does, any
other amount only up to about two billion billion units, a quarter of what
`MAX_MONEY` allows.
-/

namespace FirstIslamicCoin

open ByteCodec Reader

section Amount

/-- Divide out up to `limit` factors of ten, and count them. -/
def stripZeros : ℕ → ℕ → ℕ × ℕ
  | 0, n => (n, 0)
  | limit + 1, n =>
      if n % 10 = 0 then
        ((stripZeros limit (n / 10)).1, (stripZeros limit (n / 10)).2 + 1)
      else (n, 0)

/-- `CompressAmount`, in 64-bit arithmetic. -/
def compressAmount (nAmount : ℕ) : ℕ :=
  if nAmount = 0 then 0
  else
    let (n, e) := stripZeros 9 nAmount
    if e < 9 then (1 + (n / 10 * 9 + n % 10 - 1) * 10 + e) % 2 ^ 64
    else (1 + (n - 1) * 10 + 9) % 2 ^ 64

/-- `DecompressAmount`, in 64-bit arithmetic. -/
def decompressAmount (x : ℕ) : ℕ :=
  if x = 0 then 0
  else
    let e := (x - 1) % 10
    let rest := (x - 1) / 10
    (if e < 9 then rest / 9 * 10 + (rest % 9 + 1) else rest + 1) * 10 ^ e % 2 ^ 64

/-- What an amount becomes when it is written and read back. -/
def recodeAmount (nValue : CAmount) : CAmount :=
  (UInt64.ofNat (decompressAmount (compressAmount nValue.toUInt64.toNat))).toInt64

theorem stripZeros_spec (limit n : ℕ) :
    (stripZeros limit n).1 * 10 ^ (stripZeros limit n).2 = n ∧
      (stripZeros limit n).2 ≤ limit ∧
      ((stripZeros limit n).2 < limit → (stripZeros limit n).1 % 10 ≠ 0) := by
  induction limit generalizing n with
  | zero => simp [stripZeros]
  | succ limit ih =>
    rw [stripZeros]
    split_ifs with hzero
    · obtain ⟨hvalue, hle, hlast⟩ := ih (n / 10)
      refine ⟨?_, by simpa using hle, fun hlt => hlast (by simpa using hlt)⟩
      rw [pow_succ, ← mul_assoc, hvalue]
      omega
    · exact ⟨by simp, by omega, fun _ => hzero⟩

theorem compressAmount_lt (nAmount : ℕ) : compressAmount nAmount < 2 ^ 64 := by
  unfold compressAmount
  split_ifs with hzero
  · decide
  · dsimp only
    split_ifs <;> exact Nat.mod_lt _ (by decide)

theorem decompressAmount_lt (x : ℕ) : decompressAmount x < 2 ^ 64 := by
  unfold decompressAmount
  split_ifs
  · decide
  · exact Nat.mod_lt _ (by decide)

/-- A code is one more than a number whose last digit is the exponent. -/
theorem decompressAmount_code (rest : ℕ) {e : ℕ} (he : e < 10) :
    decompressAmount (rest * 10 + e + 1) =
      (if e < 9 then rest / 9 * 10 + (rest % 9 + 1) else rest + 1) * 10 ^ e % 2 ^ 64 := by
  have hexponent : (rest * 10 + e + 1 - 1) % 10 = e := by omega
  have hrest : (rest * 10 + e + 1 - 1) / 10 = rest := by omega
  rw [decompressAmount, if_neg (by omega), hexponent, hrest]

/-- An amount whose compressed form does not exceed 64 bits comes back. -/
theorem decompressAmount_of_fits {nAmount : ℕ} (hlt : nAmount < 2 ^ 63)
    (hfits : nAmount % 10 = 0 ∨ nAmount ≤ 2049638230412172402) :
    decompressAmount (compressAmount nAmount) = nAmount := by
  by_cases hzero : nAmount = 0
  · simp [hzero, compressAmount, decompressAmount]
  obtain ⟨hvalue, hexponent, hlast⟩ := stripZeros_spec 9 nAmount
  rw [compressAmount, if_neg hzero]
  generalize stripZeros 9 nAmount = stripped at hvalue hexponent hlast ⊢
  obtain ⟨n, e⟩ := stripped
  simp only at hvalue hexponent hlast ⊢
  have hpos : 0 < 10 ^ e := by positivity
  have hnpos : n ≠ 0 := by
    rintro rfl
    simp at hvalue
    exact hzero hvalue.symm
  have hmod : n * 10 ^ e % 2 ^ 64 = nAmount := by
    rw [hvalue]
    omega
  split_ifs with hsmall
  · have hdigit := hlast hsmall
    have hcode : (n / 10 * 9 + n % 10 - 1) * 10 + e + 1 < 2 ^ 64 := by
      rcases Nat.eq_zero_or_pos e with rfl | hepos
      · rw [pow_zero, mul_one] at hvalue
        omega
      · have hten : 10 ≤ 10 ^ e := Nat.le_self_pow hepos.ne' 10
        have hscaled : n * 10 ≤ nAmount := hvalue ▸ Nat.mul_le_mul_left n hten
        omega
    have hback : (n / 10 * 9 + n % 10 - 1) / 9 * 10 +
        ((n / 10 * 9 + n % 10 - 1) % 9 + 1) = n := by omega
    rw [Nat.mod_eq_of_lt (by omega), Nat.add_assoc, Nat.add_comm 1,
      decompressAmount_code _ (by omega), if_pos hsmall, hback]
    exact hmod
  · obtain rfl : e = 9 := by omega
    rw [Nat.mod_eq_of_lt (by omega), Nat.add_assoc, Nat.add_comm 1,
      decompressAmount_code _ (by decide), if_neg (by decide), Nat.sub_add_cancel (by omega)]
    exact hmod

/-- Scaling `n - offset` by a power of ten does not lead back to `n` modulo
`2 ^ 64` unless `n` is the one solution of that congruence. -/
theorem scaled_ne {n m offset e : ℕ} (inverse : ℕ) (hoffset : m + offset = n)
    (hlt : n < 2 ^ 63) (hinverse : ((inverse : ℤ) * (10 ^ e - 1)) % 2 ^ 64 = 1)
    (hsolution : 2 ^ 63 ≤ inverse * (offset * 10 ^ e) % 2 ^ 64 ∨
      inverse * (offset * 10 ^ e) % 2 ^ 64 < offset) :
    m * 10 ^ e % 2 ^ 64 ≠ n := by
  intro hback
  have hmod : (m * 10 ^ e : ℤ) ≡ n [ZMOD 2 ^ 64] := by
    have hnat : m * 10 ^ e ≡ n [MOD 2 ^ 64] := by
      rw [Nat.ModEq, hback, Nat.mod_eq_of_lt (by omega)]
    exact_mod_cast Int.natCast_modEq_iff.mpr hnat
  have hm : (m : ℤ) = n - offset := by omega
  rw [hm] at hmod
  have hcongr : ((10 : ℤ) ^ e - 1) * n ≡ offset * 10 ^ e [ZMOD 2 ^ 64] := by
    calc ((10 : ℤ) ^ e - 1) * n
        = (n - offset) * 10 ^ e - n + offset * 10 ^ e := by ring
      _ ≡ n - n + offset * 10 ^ e [ZMOD 2 ^ 64] :=
          (hmod.sub_right (n : ℤ)).add_right (offset * 10 ^ e : ℤ)
      _ = offset * 10 ^ e := by ring
  have hunique : (n : ℤ) ≡ inverse * (offset * 10 ^ e) [ZMOD 2 ^ 64] := by
    calc (n : ℤ) = 1 * n := by ring
      _ ≡ inverse * (10 ^ e - 1) * n [ZMOD 2 ^ 64] :=
          Int.ModEq.mul_right _ (by rw [Int.ModEq, hinverse]; rfl)
      _ = inverse * ((10 ^ e - 1) * n) := by ring
      _ ≡ inverse * (offset * 10 ^ e) [ZMOD 2 ^ 64] := hcongr.mul_left _
  have hvalue : n = inverse * (offset * 10 ^ e) % 2 ^ 64 := by
    have hnat : n ≡ inverse * (offset * 10 ^ e) [MOD 2 ^ 64] := by
      apply Int.natCast_modEq_iff.mp
      exact_mod_cast hunique
    rw [Nat.ModEq, Nat.mod_eq_of_lt (by omega)] at hnat
    exact hnat
  omega

theorem decompressAmount_ne_of_large {nAmount : ℕ} (hlt : nAmount < 2 ^ 63)
    (hdigit : nAmount % 10 ≠ 0) (hlarge : 2049638230412172402 < nAmount) :
    decompressAmount (compressAmount nAmount) ≠ nAmount := by
  have hstrip : stripZeros 9 nAmount = (nAmount, 0) := by
    rw [stripZeros, if_neg hdigit]
  have hcode : compressAmount nAmount =
      (1 + (nAmount / 10 * 9 + nAmount % 10 - 1) * 10) % 2 ^ 64 := by
    rw [compressAmount, if_neg (by omega), hstrip]
    rfl
  have hexcess : ∃ k, 1 ≤ k ∧ k ≤ 4 ∧
      1 + (nAmount / 10 * 9 + nAmount % 10 - 1) * 10 = compressAmount nAmount + k * 2 ^ 64 := by
    rw [hcode]
    exact ⟨(1 + (nAmount / 10 * 9 + nAmount % 10 - 1) * 10) / 2 ^ 64, by omega,
      by omega, by omega⟩
  obtain ⟨k, hk, hkle, hexcess⟩ := hexcess
  clear hcode hstrip
  generalize compressAmount nAmount = x at hexcess ⊢
  have hcases : k = 1 ∨ k = 2 ∨ k = 3 ∨ k = 4 := by omega
  rcases hcases with rfl | rfl | rfl | rfl
  · obtain ⟨rest, rfl⟩ : ∃ rest, x = rest * 10 + 4 + 1 :=
      ⟨(x - 1) / 10, by omega⟩
    rw [decompressAmount_code rest (by decide), if_pos (by decide)]
    have hshift : rest / 9 * 10 + (rest % 9 + 1) + 2049638230412172402 = nAmount ∨
        rest / 9 * 10 + (rest % 9 + 1) + 2049638230412172403 = nAmount := by omega
    rcases hshift with hshift | hshift
    · exact scaled_ne 13458245626333751279 hshift hlt (by decide) (by decide)
    · exact scaled_ne 13458245626333751279 hshift hlt (by decide) (by decide)
  · obtain ⟨rest, rfl⟩ : ∃ rest, x = rest * 10 + 8 + 1 :=
      ⟨(x - 1) / 10, by omega⟩
    rw [decompressAmount_code rest (by decide), if_pos (by decide)]
    have hshift : rest / 9 * 10 + (rest % 9 + 1) + 4099276460824344804 = nAmount ∨
        rest / 9 * 10 + (rest % 9 + 1) + 4099276460824344805 = nAmount := by omega
    rcases hshift with hshift | hshift
    · exact scaled_ne 300153063250403071 hshift hlt (by decide) (by decide)
    · exact scaled_ne 300153063250403071 hshift hlt (by decide) (by decide)
  · obtain ⟨rest, rfl⟩ : ∃ rest, x = rest * 10 + 2 + 1 :=
      ⟨(x - 1) / 10, by omega⟩
    rw [decompressAmount_code rest (by decide), if_pos (by decide)]
    have hshift : rest / 9 * 10 + (rest % 9 + 1) + 6148914691236517205 = nAmount ∨
        rest / 9 * 10 + (rest % 9 + 1) + 6148914691236517206 = nAmount := by omega
    rcases hshift with hshift | hshift
    · exact scaled_ne 12670490878911611211 hshift hlt (by decide) (by decide)
    · exact scaled_ne 12670490878911611211 hshift hlt (by decide) (by decide)
  · obtain ⟨rest, rfl⟩ : ∃ rest, x = rest * 10 + 6 + 1 :=
      ⟨(x - 1) / 10, by omega⟩
    rw [decompressAmount_code rest (by decide), if_pos (by decide)]
    have hshift : rest / 9 * 10 + (rest % 9 + 1) + 8198552921648689607 = nAmount ∨
        rest / 9 * 10 + (rest % 9 + 1) + 8198552921648689608 = nAmount := by omega
    rcases hshift with hshift | hshift
    · exact scaled_ne 1672254362768354751 hshift hlt (by decide) (by decide)
    · exact scaled_ne 1672254362768354751 hshift hlt (by decide) (by decide)

def AmountKept (nValue : CAmount) : Prop :=
  nValue.toInt % 10 = 0 ∨ nValue.toInt ≤ 2049638230412172402

theorem recodeAmount_eq_iff {nValue : CAmount} (hnonneg : 0 ≤ nValue.toInt) :
    recodeAmount nValue = nValue ↔ AmountKept nValue := by
  have hnat : nValue.toInt = nValue.toUInt64.toNat := by
    have hcond := BitVec.toInt_eq_toNat_cond nValue.toBitVec
    rw [← Int64.toInt] at hcond
    split_ifs at hcond
    · exact hcond
    · have hlt := nValue.toBitVec.isLt
      omega
  have hlt : nValue.toUInt64.toNat < 2 ^ 63 := by
    have hbound := nValue.toInt_lt
    omega
  rw [AmountKept, hnat]
  constructor
  · intro heq
    by_contra hnot
    rw [not_or] at hnot
    refine decompressAmount_ne_of_large hlt (by omega) (by omega) ?_
    have hback := congrArg (fun value : CAmount => value.toUInt64.toNat) heq
    have hsmall : decompressAmount (compressAmount nValue.toUInt64.toNat) < 2 ^ 64 :=
      decompressAmount_lt _
    simp only [recodeAmount, UInt64.toUInt64_toInt64, UInt64.toNat_ofNat'] at hback
    rwa [Nat.mod_eq_of_lt hsmall] at hback
  · intro hkept
    rw [recodeAmount, decompressAmount_of_fits hlt (by omega), UInt64.ofNat_toNat,
      Int64.toInt64_toUInt64]

end Amount

namespace CScript

/-- `IsToKeyID`: the hash of a pay-to-pubkey-hash script. -/
def isToKeyID (script : CScript) : Option Bytes :=
  if script.length = 25 ∧ script.take 3 = [opDup, opHash160, 20] ∧
      script.drop 23 = [opEqualVerify, opCheckSig] then
    some ((script.drop 3).take 20)
  else none

/-- `IsToScriptID`: the hash of a pay-to-script-hash script. -/
def isToScriptID (script : CScript) : Option Bytes :=
  if script.length = 23 ∧ script.take 2 = [opHash160, 20] ∧
      script.drop 22 = [opEqual] then
    some ((script.drop 2).take 20)
  else none

/-- `IsToPubKey`: the key of a pay-to-pubkey script, if it can be stored in
compressed form. -/
def isToPubKey (env : External) (script : CScript) : Option Bytes :=
  let pubkey := (script.drop 1).take (script.length - 2)
  if script.length = 35 ∧ script.take 1 = [33] ∧ script.drop 34 = [opCheckSig] ∧
      (pubkey.head? = some 2 ∨ pubkey.head? = some 3) then
    some pubkey
  else if script.length = 67 ∧ script.take 1 = [65] ∧
      script.drop 66 = [opCheckSig] ∧ pubkey.head? = some 4 ∧
      env.isFullyValid pubkey = true then
    some pubkey
  else none

/-- The form of a public key that is stored: its first coordinate behind a
byte that tells the rest. -/
def compressPubKey (pubkey : Bytes) : Option Bytes :=
  match pubkey with
  | [] => none
  | header :: coordinates =>
      if header = 2 ∨ header = 3 then some (header :: coordinates.take 32)
      else if header = 4 then
        some ((4 ||| (pubkey.getD 64 0 &&& 1)) :: coordinates.take 32)
      else none

def compressScript (env : External) (script : CScript) : Option Bytes :=
  match isToKeyID script with
  | some keyID => some (0 :: keyID)
  | none =>
      match isToScriptID script with
      | some scriptID => some (1 :: scriptID)
      | none => (isToPubKey env script).bind compressPubKey

def getSpecialScriptSize (nSize : ℕ) : ℕ :=
  if nSize = 0 ∨ nSize = 1 then 20
  else if nSize = 2 ∨ nSize = 3 ∨ nSize = 4 ∨ nSize = 5 then 32
  else 0

def decompressScript (env : External) (nSize : ℕ) (input : Bytes) :
    Option CScript :=
  if nSize = 0 then
    some ([opDup, opHash160, 20] ++ input ++ [opEqualVerify, opCheckSig])
  else if nSize = 1 then some ([opHash160, 20] ++ input ++ [opEqual])
  else if nSize = 2 ∨ nSize = 3 then
    some ([33, UInt8.ofNat nSize] ++ input ++ [opCheckSig])
  else if nSize = 4 ∨ nSize = 5 then
    (env.decompress (UInt8.ofNat (nSize - 2) :: input)).map fun pubkey =>
      [65] ++ pubkey ++ [opCheckSig]
  else none

def nSpecialScripts : ℕ := 6

end CScript

/-- The writer of `ScriptCompression`. -/
def serializeScriptCompressed (env : External) (script : CScript) : Bytes :=
  match script.compressScript env with
  | some compr => compr
  | none =>
      writeVarInt 5 ((script.length + CScript.nSpecialScripts) % 2 ^ 32) ++ script

/-- The reader of `ScriptCompression`.  The verdict of `DecompressScript` is not
looked at, and a script that is too long is replaced by a short invalid one. -/
def readScriptCompressed (env : External) : Reader CScript :=
  (readVarInt (2 ^ 32 - 1)).andThen fun nSize =>
    if nSize < CScript.nSpecialScripts then
      (readBytes (CScript.getSpecialScriptSize nSize)).map fun vch =>
        (CScript.decompressScript env nSize vch).getD []
    else if CScript.maxScriptSize < nSize - CScript.nSpecialScripts then
      (readBytes (nSize - CScript.nSpecialScripts)).map fun _ => [CScript.opReturn]
    else readBytes (nSize - CScript.nSpecialScripts)

/-- The writer of `TxOutCompression`. -/
def serializeTxOutCompressed (env : External) (out : CTxOut) : Bytes :=
  writeVarInt 10 (compressAmount out.nValue.toUInt64.toNat) ++
    serializeScriptCompressed env out.scriptPubKey

/-- The reader of `TxOutCompression`. -/
def readTxOutCompressed (env : External) : Reader CTxOut :=
  (readVarInt (2 ^ 64 - 1)).andThen fun amount =>
    (readScriptCompressed env).map fun scriptPubKey =>
      ⟨(UInt64.ofNat (decompressAmount amount)).toInt64, scriptPubKey⟩

/-- What the public-key library guarantees: a valid uncompressed key is
determined by its first coordinate and the parity of the second. -/
def External.LawfulPubKeys (env : External) : Prop :=
  ∀ pubkey : Bytes, pubkey.length = 65 → pubkey.head? = some 4 →
    env.isFullyValid pubkey = true →
      env.decompress ((2 ||| (pubkey.getD 64 0 &&& 1)) :: pubkey.tail.take 32) = some pubkey

section RoundTrip

variable {env : External} {script : CScript}

/-- A list is its front, its middle and its end. -/
theorem take_append_middle {α : Type} (front middle : ℕ) (values : List α) :
    values.take front ++ (values.drop front).take middle ++
      values.drop (front + middle) = values := by
  rw [List.append_assoc, ← List.drop_drop, List.take_append_drop, List.take_append_drop]

theorem readVarInt_recovers_byte {maximum : ℕ} {byte : UInt8} (hbyte : byte.toNat ≤ 0x7f)
    (hle : byte.toNat ≤ maximum) : (readVarInt maximum).Recovers byte.toNat [byte] := by
  have hread : (readVarInt maximum).Recovers byte.toNat
      (writeVarInt (0 + 2) byte.toNat) := readVarInt_recovers hle (by omega)
  have hbytes : writeVarInt (0 + 2) byte.toNat = [byte] := by
    rw [writeVarInt, if_pos hbyte, Nat.mod_eq_of_lt (by omega), UInt8.ofNat_toNat]
    rfl
  rwa [hbytes] at hread

/-- A short form is read back when decompressing it gives the script. -/
theorem readScriptCompressed_recovers_short {nSize : UInt8} {vch : Bytes} (hsize : nSize.toNat < 6)
    (hlength : vch.length = CScript.getSpecialScriptSize nSize.toNat)
    (hscript : CScript.decompressScript env nSize.toNat vch = some script) :
    (readScriptCompressed env).Recovers script (nSize :: vch) := by
  have hrest : (if nSize.toNat < CScript.nSpecialScripts then
      (readBytes (CScript.getSpecialScriptSize nSize.toNat)).map fun vch =>
        (CScript.decompressScript env nSize.toNat vch).getD []
    else if CScript.maxScriptSize < nSize.toNat - CScript.nSpecialScripts then
      (readBytes (nSize.toNat - CScript.nSpecialScripts)).map fun _ =>
        [CScript.opReturn]
    else readBytes (nSize.toNat - CScript.nSpecialScripts)).Recovers script vch := by
    rw [if_pos (show nSize.toNat < CScript.nSpecialScripts from hsize), ← hlength]
    have hread := (readBytes_recovers vch).map fun vch =>
      (CScript.decompressScript env nSize.toNat vch).getD []
    simpa only [hscript, Option.getD_some] using hread
  exact (readVarInt_recovers_byte (by omega) (by omega)).andThen hrest

namespace CScript

/-- A short form as it is read: the first byte selects how the script is built
from the others. -/
def IsShortForm (env : External) (script : CScript) (compr : Bytes) : Prop :=
  ∃ nSize vch, compr = nSize :: vch ∧ nSize.toNat < 6 ∧
    vch.length = getSpecialScriptSize nSize.toNat ∧
    decompressScript env nSize.toNat vch = some script

theorem isShortForm_keyID {keyID : Bytes} (hkey : isToKeyID script = some keyID) :
    IsShortForm env script (0 :: keyID) := by
  unfold isToKeyID at hkey
  split_ifs at hkey with hform
  obtain ⟨hlength, hfront, hback⟩ := hform
  obtain rfl := Option.some.inj hkey
  refine ⟨0, _, rfl, by decide, by simp [getSpecialScriptSize, hlength], ?_⟩
  have hsplit := take_append_middle 3 20 script
  rw [hfront, hback] at hsplit
  simpa [decompressScript] using hsplit

theorem isShortForm_scriptID {scriptID : Bytes} (hid : isToScriptID script = some scriptID) :
    IsShortForm env script (1 :: scriptID) := by
  unfold isToScriptID at hid
  split_ifs at hid with hform
  obtain ⟨hlength, hfront, hback⟩ := hform
  obtain rfl := Option.some.inj hid
  refine ⟨1, _, rfl, by decide, by simp [getSpecialScriptSize, hlength], ?_⟩
  have hsplit := take_append_middle 2 20 script
  rw [hfront, hback] at hsplit
  simpa [decompressScript] using hsplit

theorem and_one_eq (byte : UInt8) : byte &&& 1 = 0 ∨ byte &&& 1 = 1 := by
  have hmod : (byte &&& 1).toNat = byte.toNat % 2 := by
    rw [UInt8.toNat_and]
    exact Nat.and_one_is_mod byte.toNat
  rcases Nat.mod_two_eq_zero_or_one byte.toNat with hzero | hone
  · exact .inl (UInt8.toNat_inj.mp (hmod.trans hzero))
  · exact .inr (UInt8.toNat_inj.mp (hmod.trans hone))

theorem isShortForm_compressed {header : UInt8} {coordinates compr : Bytes}
    (hheader : header = 2 ∨ header = 3) (hsize : coordinates.length = 32)
    (hcompr : compressPubKey (header :: coordinates) = some compr) :
    IsShortForm env ([33] ++ (header :: coordinates) ++ [opCheckSig]) compr := by
  simp only [compressPubKey, hheader, if_true, Option.some.injEq] at hcompr
  rw [List.take_of_length_le (by omega)] at hcompr
  refine ⟨header, coordinates, hcompr.symm, ?_⟩
  rcases hheader with rfl | rfl
  · exact ⟨by decide, hsize, rfl⟩
  · exact ⟨by decide, hsize, rfl⟩

theorem isShortForm_uncompressed {coordinates compr : Bytes} (hlawful : env.LawfulPubKeys)
    (hsize : coordinates.length = 64) (hvalid : env.isFullyValid (4 :: coordinates) = true)
    (hcompr : compressPubKey (4 :: coordinates) = some compr) :
    IsShortForm env ([65] ++ (4 :: coordinates) ++ [opCheckSig]) compr := by
  have hback := hlawful (4 :: coordinates) (by simp [hsize]) rfl hvalid
  have hform : (4 ||| ((4 :: coordinates).getD 64 0 &&& 1)) :: coordinates.take 32 =
      compr := Option.some.inj hcompr
  have hlength : (coordinates.take 32).length = 32 := by simp [hsize]
  rw [List.tail_cons] at hback
  refine ⟨_, _, hform.symm, ?_⟩
  rcases and_one_eq ((4 :: coordinates).getD 64 0) with heq | heq
  · rw [heq] at hback ⊢
    refine ⟨by decide, hlength, ?_⟩
    change (env.decompress (2 :: coordinates.take 32)).map _ = _
    rw [show (2 : UInt8) = 2 ||| 0 by decide, hback]
    rfl
  · rw [heq] at hback ⊢
    refine ⟨by decide, hlength, ?_⟩
    change (env.decompress (3 :: coordinates.take 32)).map _ = _
    rw [show (3 : UInt8) = 2 ||| 1 by decide, hback]
    rfl

theorem isShortForm_pubKey {pubkey compr : Bytes} (hlawful : env.LawfulPubKeys)
    (hkey : isToPubKey env script = some pubkey)
    (hcompr : compressPubKey pubkey = some compr) : IsShortForm env script compr := by
  have hpubkey : (script.drop 1).take (script.length - 2) = pubkey := by
    simp only [isToPubKey] at hkey
    split_ifs at hkey <;> exact Option.some.inj hkey
  have hsplit := take_append_middle 1 (script.length - 2) script
  simp only [isToPubKey, hpubkey] at hkey
  split_ifs at hkey with hshort hlong
  · obtain ⟨hlength, hfront, hback, hheader⟩ := hshort
    have hsize : pubkey.length = 33 := by simp [← hpubkey, hlength]
    rw [hpubkey, hfront, hlength, hback] at hsplit
    cases pubkey with
    | nil => simp at hsize
    | cons header coordinates =>
      rw [← hsplit]
      exact isShortForm_compressed (by simpa using hheader) (by simpa using hsize) hcompr
  · obtain ⟨hlength, hfront, hback, hheader, hvalid⟩ := hlong
    have hsize : pubkey.length = 65 := by simp [← hpubkey, hlength]
    rw [hpubkey, hfront, hlength, hback] at hsplit
    cases pubkey with
    | nil => simp at hsize
    | cons header coordinates =>
      obtain rfl : header = 4 := by simpa using hheader
      rw [← hsplit]
      exact isShortForm_uncompressed hlawful (by simpa using hsize) hvalid hcompr

theorem isShortForm_of_compressScript {compr : Bytes} (hlawful : env.LawfulPubKeys)
    (hcompr : compressScript env script = some compr) : IsShortForm env script compr := by
  unfold compressScript at hcompr
  split at hcompr
  · next keyID hkey =>
      rw [← Option.some.inj hcompr]
      exact isShortForm_keyID hkey
  · split at hcompr
    · next scriptID hid =>
        rw [← Option.some.inj hcompr]
        exact isShortForm_scriptID hid
    · obtain ⟨pubkey, hkey, hform⟩ := Option.bind_eq_some_iff.mp hcompr
      exact isShortForm_pubKey hlawful hkey hform

end CScript

/-- Every script of admissible size is read back. -/
theorem readScriptCompressed_recovers (hlawful : env.LawfulPubKeys)
    (hlength : script.length ≤ CScript.maxScriptSize) :
    (readScriptCompressed env).Recovers script (serializeScriptCompressed env script) := by
  unfold serializeScriptCompressed
  split
  · next compr hcompr =>
      obtain ⟨nSize, vch, rfl, hsize, hvch, hscript⟩ :=
        CScript.isShortForm_of_compressScript hlawful hcompr
      exact readScriptCompressed_recovers_short hsize hvch hscript
  · simp only [CScript.maxScriptSize] at hlength
    have hsmall : (script.length + CScript.nSpecialScripts) % 2 ^ 32 =
        script.length + CScript.nSpecialScripts :=
      Nat.mod_eq_of_lt (by simp only [CScript.nSpecialScripts]; omega)
    have hcount : (readVarInt (2 ^ 32 - 1)).Recovers (script.length + CScript.nSpecialScripts)
        (writeVarInt (3 + 2) (script.length + CScript.nSpecialScripts)) := by
      apply readVarInt_recovers <;> simp only [CScript.nSpecialScripts] <;> omega
    rw [hsmall]
    refine hcount.andThen ?_
    rw [Nat.add_sub_cancel, if_neg (by omega), if_neg (by simp only [CScript.maxScriptSize]; omega)]
    exact readBytes_recovers script

/-- An output is read back with its amount recoded. -/
theorem readTxOutCompressed_recovers {out : CTxOut} (hlawful : env.LawfulPubKeys)
    (hlength : out.scriptPubKey.length ≤ CScript.maxScriptSize) :
    (readTxOutCompressed env).Recovers { out with nValue := recodeAmount out.nValue }
      (serializeTxOutCompressed env out) := by
  have hlt := compressAmount_lt out.nValue.toUInt64.toNat
  have hamount : (readVarInt (2 ^ 64 - 1)).Recovers (compressAmount out.nValue.toUInt64.toNat)
      (writeVarInt (8 + 2) (compressAmount out.nValue.toUInt64.toNat)) :=
    readVarInt_recovers (by omega) (by omega)
  exact hamount.andThen ((readScriptCompressed_recovers hlawful hlength).map _)

end RoundTrip

end FirstIslamicCoin
