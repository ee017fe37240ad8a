import FirstIslamicCoin.Consensus.Coins
import FirstIslamicCoin.Consensus.TxCheck
import FirstIslamicCoin.Primitives.Compressor

/-!
# Coins in the database and in undo records

`Coin::Serialize` and `TxInUndoFormatter` pack the height and the two flags of a
coin into one 32-bit code and compress its output.  Both formats lose a height
of 2^30 or more and an amount that does not survive compression, and nothing
else.
-/

namespace FirstIslamicCoin

open Outcome ByteCodec Reader

section Formats

variable (env : External)

/-- Height, coinbase flag and coinstake flag in one 32-bit number. -/
def Coin.code (coin : Coin) : ℕ :=
  (coin.nHeight.toNat * 4 + (if coin.fCoinBase then 1 else 0) +
    (if coin.fCoinStake then 2 else 0)) % 2 ^ 32

def Coin.ofCode (code : ℕ) (nTime : UInt32) (out : CTxOut) : Coin where
  out := out
  fCoinBase := code % 2 == 1
  fCoinStake := code / 2 % 2 == 1
  nHeight := BitVec.ofNat 31 (code / 4)
  nTime := nTime

/-- `Coin::Serialize`, which asserts that the coin is not spent. -/
def serializeCoin (coin : Coin) : Option Bytes :=
  if coin.out.isNull then none
  else some (writeVarInt 5 coin.code ++ (writeVarInt 5 coin.nTime.toNat ++
    serializeTxOutCompressed env coin.out))

/-- `Coin::Unserialize`. -/
def readCoin : Reader Coin :=
  (readVarInt (2 ^ 32 - 1)).andThen fun code =>
    (readVarInt (2 ^ 32 - 1)).andThen fun nTime =>
      (readTxOutCompressed env).map fun out =>
        Coin.ofCode code (UInt32.ofNat nTime) out

/-- The writer of `TxInUndoFormatter`: a zero byte follows the code of every
coin that is not from height 0. -/
def serializeTxInUndo (coin : Coin) : Bytes :=
  writeVarInt 5 coin.code ++ ((if 0 < coin.nHeight.toNat then [0] else []) ++
    (writeVarInt 5 coin.nTime.toNat ++ serializeTxOutCompressed env coin.out))

/-- The reader of `TxInUndoFormatter`. -/
def readTxInUndo : Reader Coin :=
  (readVarInt (2 ^ 32 - 1)).andThen fun nCode =>
    (if 0 < nCode / 4 then readVarInt (2 ^ 32 - 1) else .done 0).andThen
      fun _nVersionDummy =>
        (readVarInt (2 ^ 32 - 1)).andThen fun nTime =>
          (readTxOutCompressed env).map fun out =>
            Coin.ofCode nCode (UInt32.ofNat nTime) out

end Formats

def Coin.recoded (coin : Coin) : Coin :=
  Coin.ofCode coin.code coin.nTime
    { coin.out with nValue := recodeAmount coin.out.nValue }

section RoundTrip

variable {env : External} {coin : Coin}

theorem Coin.code_lt (coin : Coin) : coin.code < 2 ^ 32 :=
  Nat.mod_lt _ (by decide)

/-- The height that is read is the height modulo 2^30. -/
theorem Coin.code_div (coin : Coin) : coin.code / 4 = coin.nHeight.toNat % 2 ^ 30 := by
  rw [Coin.code]
  cases coin.fCoinBase <;> cases coin.fCoinStake <;>
    simp only [Bool.false_eq_true, if_true, if_false] <;> omega

theorem readUInt32VarInt_recovers {value : ℕ} (hvalue : value < 2 ^ 32) :
    (readVarInt (2 ^ 32 - 1)).Recovers value (writeVarInt 5 value) := by
  have hread : (readVarInt (2 ^ 32 - 1)).Recovers value (writeVarInt (3 + 2) value) :=
    readVarInt_recovers (by omega) (by omega)
  exact hread

/-- The part that both formats share: the time and the output. -/
theorem readCoinTail_recovers (code : ℕ) (hlawful : env.LawfulPubKeys)
    (hlength : coin.out.scriptPubKey.length ≤ CScript.maxScriptSize) :
    ((readVarInt (2 ^ 32 - 1)).andThen fun nTime =>
      (readTxOutCompressed env).map fun out =>
        Coin.ofCode code (UInt32.ofNat nTime) out).Recovers
      (Coin.ofCode code coin.nTime { coin.out with nValue := recodeAmount coin.out.nValue })
      (writeVarInt 5 coin.nTime.toNat ++ serializeTxOutCompressed env coin.out) := by
  refine (readUInt32VarInt_recovers coin.nTime.toNat_lt).andThen ?_
  have hout := (readTxOutCompressed_recovers hlawful hlength).map fun out =>
    Coin.ofCode code (UInt32.ofNat coin.nTime.toNat) out
  rwa [UInt32.ofNat_toNat] at hout ⊢

theorem readCoin_recovers {bytes : Bytes} (hlawful : env.LawfulPubKeys)
    (hlength : coin.out.scriptPubKey.length ≤ CScript.maxScriptSize)
    (hbytes : serializeCoin env coin = some bytes) :
    (readCoin env).Recovers coin.recoded bytes := by
  rw [serializeCoin] at hbytes
  split_ifs at hbytes
  obtain rfl := Option.some.inj hbytes
  exact (readUInt32VarInt_recovers coin.code_lt).andThen
    (readCoinTail_recovers coin.code hlawful hlength)

/-- The undo format agrees unless the height is lost altogether, when the
reader does not expect the zero byte that was written. -/
theorem readTxInUndo_recovers (hlawful : env.LawfulPubKeys)
    (hlength : coin.out.scriptPubKey.length ≤ CScript.maxScriptSize)
    (hheight : coin.nHeight.toNat ≠ 2 ^ 30) :
    (readTxInUndo env).Recovers coin.recoded (serializeTxInUndo env coin) := by
  have hlt := coin.nHeight.isLt
  have hdummy : (if 0 < coin.code / 4 then readVarInt (2 ^ 32 - 1) else .done 0).Recovers
      0 (if 0 < coin.nHeight.toNat then [0] else []) := by
    rw [coin.code_div]
    by_cases hzero : coin.nHeight.toNat = 0
    · rw [hzero]
      exact recovers_done 0
    · rw [if_pos (by omega), if_pos (by omega)]
      exact readVarInt_recovers_byte (by decide) (by decide)
  exact (readUInt32VarInt_recovers coin.code_lt).andThen
    (hdummy.andThen (readCoinTail_recovers coin.code hlawful hlength))

/-- Below height 2^30 only the amount can change. -/
theorem Coin.recoded_of_height_lt (hheight : coin.nHeight.toNat < 2 ^ 30) :
    coin.recoded =
      { coin with out := { coin.out with nValue := recodeAmount coin.out.nValue } } := by
  have hparts : (coin.code % 2 == 1) = coin.fCoinBase ∧
      (coin.code / 2 % 2 == 1) = coin.fCoinStake := by
    have hlt := coin.nHeight.isLt
    rw [Coin.code]
    cases coin.fCoinBase <;> cases coin.fCoinStake <;>
      simp only [Bool.false_eq_true, if_true, if_false, beq_iff_eq, beq_eq_false_iff_ne] <;> omega
  have hback : BitVec.ofNat 31 (coin.code / 4) = coin.nHeight := by
    rw [coin.code_div, Nat.mod_eq_of_lt hheight, BitVec.ofNat_toNat, BitVec.setWidth_eq]
  rw [Coin.recoded, Coin.ofCode, hparts.1, hparts.2, hback]

/-- Exactly the coins below height 2^30 with an amount that survives compression
come back. -/
theorem Coin.recoded_eq_iff (hnonneg : 0 ≤ coin.value) :
    coin.recoded = coin ↔ coin.nHeight.toNat < 2 ^ 30 ∧ AmountKept coin.out.nValue := by
  have hlt := coin.nHeight.isLt
  have hamount := recodeAmount_eq_iff hnonneg
  constructor
  · intro heq
    refine ⟨?_, hamount.mp (congrArg (fun other : Coin => other.out.nValue) heq)⟩
    have hheight : (BitVec.ofNat 31 (coin.code / 4)).toNat = coin.nHeight.toNat :=
      congrArg (fun other : Coin => other.nHeight.toNat) heq
    rw [coin.code_div, BitVec.toNat_ofNat] at hheight
    omega
  · rintro ⟨hheight, hkept⟩
    rw [Coin.recoded_of_height_lt hheight, hamount.mpr hkept]

/-- The height that is read back is the stored code's, whatever follows. -/
theorem nHeight_of_readTxInUndo {result : Coin} {tail rest : Bytes}
    (hread : readTxInUndo env (serializeTxInUndo env coin ++ tail) = some (result, rest)) :
    result.nHeight = BitVec.ofNat 31 (coin.code / 4) := by
  simp only [readTxInUndo, andThen_eq_some, map_eq_some] at hread
  obtain ⟨code, _, hcode, _, _, _, nTime, _, _, out, _, _, heq⟩ := hread
  rw [serializeTxInUndo, List.append_assoc, readUInt32VarInt_recovers coin.code_lt] at hcode
  obtain ⟨rfl, _⟩ := Prod.mk.inj (Option.some.inj hcode)
  obtain ⟨rfl, _⟩ := Prod.mk.inj heq
  rfl

theorem length_le_of_isUnspendable {script : CScript} (hspendable : script.isUnspendable = false) :
    script.length ≤ CScript.maxScriptSize := by
  simp only [CScript.isUnspendable, Bool.or_eq_false_iff, decide_eq_false_iff_not,
    not_lt] at hspendable
  exact hspendable.2

end RoundTrip

theorem CTxOut.isNull_of_nonneg {out : CTxOut} (hnonneg : 0 ≤ out.value) :
    out.isNull = false := by
  rw [CTxOut.isNull, beq_eq_false_iff_ne]
  intro hvalue
  rw [CTxOut.value, hvalue] at hnonneg
  exact absurd hnonneg (by decide)

theorem exists_serializeCoin (env : External) {coin : Coin}
    (hnonneg : 0 ≤ coin.value) : ∃ bytes, serializeCoin env coin = some bytes :=
  ⟨_, by rw [serializeCoin, CTxOut.isNull_of_nonneg hnonneg]; rfl⟩

/-- The coins that both formats return as they were. -/
def Coin.Storable (coin : Coin) : Prop :=
  coin.nHeight.toNat < 2 ^ 30 ∧ AmountKept coin.out.nValue

theorem readTxInUndo_recovers_iff {env : External} {coin : Coin} (hlawful : env.LawfulPubKeys)
    (hnonneg : 0 ≤ coin.value) (hspendable : coin.out.scriptPubKey.isUnspendable = false) :
    (readTxInUndo env).Recovers coin (serializeTxInUndo env coin) ↔ coin.Storable := by
  have hlength := length_le_of_isUnspendable hspendable
  rw [Coin.Storable, ← coin.recoded_eq_iff hnonneg]
  constructor
  · intro hread
    by_cases hheight : coin.nHeight.toNat = 2 ^ 30
    · have hback := congrArg BitVec.toNat (nHeight_of_readTxInUndo (hread []))
      rw [coin.code_div, hheight] at hback
      exact absurd hback (by decide)
    · exact (readTxInUndo_recovers hlawful hlength hheight).unique hread
  · intro heq
    have hheight := ((coin.recoded_eq_iff hnonneg).mp heq).1
    have hread := readTxInUndo_recovers hlawful hlength (by omega)
    rwa [heq] at hread

theorem coin_survives_storage_iff (env : External) (coin : Coin) (hlawful : env.LawfulPubKeys)
    (hrange : moneyRange coin.out.nValue = true)
    (hspendable : coin.out.scriptPubKey.isUnspendable = false) :
    ∃ bytes, serializeCoin env coin = some bytes ∧
      ((readCoin env).Recovers coin bytes ↔
        coin.nHeight.toNat < 2 ^ 30 ∧ AmountKept coin.out.nValue) ∧
      ((readTxInUndo env).Recovers coin (serializeTxInUndo env coin) ↔
        coin.nHeight.toNat < 2 ^ 30 ∧ AmountKept coin.out.nValue) := by
  have hnonneg : 0 ≤ coin.value := moneyRange_eq_true.mp hrange
  obtain ⟨bytes, hbytes⟩ := exists_serializeCoin env hnonneg
  refine ⟨bytes, hbytes, ?_, readTxInUndo_recovers_iff hlawful hnonneg hspendable⟩
  have hread := readCoin_recovers hlawful (length_le_of_isUnspendable hspendable) hbytes
  rw [← coin.recoded_eq_iff hnonneg]
  constructor
  · exact hread.unique
  · intro heq
    rwa [heq] at hread

section LargestCoin

open External

/-- A transaction with one output of the largest value in range. -/
def largestOutput : CTransaction where
  vin := [⟨⟨1, 0⟩, [], 0xffffffff, []⟩]
  vout := [⟨maxMoney, [0x51]⟩]
  nVersion := 2
  nTime := 0
  nLockTime := 0

theorem lawfulPubKeys_sample : sample.LawfulPubKeys := by
  intro pubkey _ _ hvalid
  exact absurd hvalid Bool.false_ne_true

theorem coin_survives_storage_ordinary :
    ∃ bytes, serializeCoin sample (Coin.mk ⟨1400000000000000, [0x51]⟩ true false 7 0) =
        some bytes ∧
      (readCoin sample).Recovers (Coin.mk ⟨1400000000000000, [0x51]⟩ true false 7 0)
        bytes ∧
      (readTxInUndo sample).Recovers
        (Coin.mk ⟨1400000000000000, [0x51]⟩ true false 7 0)
        (serializeTxInUndo sample
          (Coin.mk ⟨1400000000000000, [0x51]⟩ true false 7 0)) := by
  obtain ⟨bytes, hbytes, hstored, hundo⟩ := coin_survives_storage_iff sample
    (Coin.mk ⟨1400000000000000, [0x51]⟩ true false 7 0) lawfulPubKeys_sample
    (by decide) (by decide)
  have hkept : AmountKept 1400000000000000 := .inl (by decide)
  exact ⟨bytes, hbytes, hstored.mpr ⟨by decide, hkept⟩, hundo.mpr ⟨by decide, hkept⟩⟩

theorem largestOutput_not_stored :
    checkTransaction .wrap largestOutput = .ok () ∧
      (∃ bytes, serializeCoin sample (largestOutput.coinOf 1 ⟨maxMoney, [0x51]⟩) =
          some bytes ∧
        ∃ other, readCoin sample bytes = some (other, []) ∧
          other.out.nValue ≠ maxMoney) ∧
      (∃ other, readTxInUndo sample
          (serializeTxInUndo sample (largestOutput.coinOf 1 ⟨maxMoney, [0x51]⟩)) =
            some (other, []) ∧ other.out.nValue ≠ maxMoney) ∧
      ∃ bytes, serializeCoin sample (Coin.mk ⟨1000, [0x51]⟩ false false (2 ^ 30) 0) =
          some bytes ∧
        readCoin sample bytes = some (Coin.mk ⟨1000, [0x51]⟩ false false 0 0, []) := by
  refine ⟨by decide, ⟨_, rfl, _, rfl, by decide⟩, ⟨_, rfl, by decide⟩, _, rfl, by decide⟩

end LargestCoin

end FirstIslamicCoin
