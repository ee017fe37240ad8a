import FirstIslamicCoin.Core.Cursor
import FirstIslamicCoin.Primitives.Deserialize
import FirstIslamicCoin.Consensus.TxVerify

/-!
# The indexer's transaction reader

`electrumx/lib/tx.py`: the deserializer the Electrum indexer runs over the
node's raw blocks.  It does not parse a flag as the node does.  Whether a
timestamp and a witness follow is decided by looking at bytes at fixed offsets
from the start of the transaction, the txid is taken of three stretches cut out
of the byte string, and the virtual size of cursor positions.
-/

namespace FirstIslamicCoin.Electrum

open ByteCodec Cursor CursorReader

structure TxInput where
  prevTxidRev : Bytes
  prevIdx : ℕ
  script : Bytes
  sequence : ℕ
  deriving DecidableEq, Repr

structure TxOutput where
  value : ℤ
  pkScript : Bytes
  deriving DecidableEq, Repr

/-- What `TxSegWit` has over `Tx`. -/
structure SegWit where
  marker : UInt8
  flag : UInt8
  witness : List (List Bytes)
  deriving DecidableEq, Repr

/-- `Tx`, `TxTime`, `TxSegWit` and `TxTimeSegWit` in one record. -/
structure Tx where
  version : ℤ
  time : Option ℕ
  segWit : Option SegWit
  inputs : List TxInput
  outputs : List TxOutput
  locktime : ℕ
  txidRev : Bytes
  wtxidRev : Bytes
  deriving DecidableEq, Repr

section Fields

/-- `unpack_le_uint16_from` and its wider relatives. -/
def readLeUInt (width : ℕ) : CursorReader ℕ := do
  let bytes ← take width
  return ofLittleEndian bytes

/-- `unpack_le_int32_from` and `unpack_le_int64_from`. -/
def readLeInt (width : ℕ) : CursorReader ℤ := do
  let bytes ← take width
  return (BitVec.ofNat (8 * width) (ofLittleEndian bytes)).toInt

def readLeUInt32 : CursorReader ℕ := readLeUInt 4
def readLeInt32 : CursorReader ℤ := readLeInt 4
def readLeInt64 : CursorReader ℤ := readLeInt 8

/-- `_read_varint`.  Unlike the node it takes a length in any of the forms that
hold it, and sets no limit. -/
def readVarint : CursorReader ℕ := do
  let n ← next
  if n < 253 then return n.toNat
  else if n = 253 then readLeUInt 2
  else if n = 254 then readLeUInt 4
  else readLeUInt 8

def readVarbytes : CursorReader Bytes := do
  let n ← readVarint
  take n

/-- The list comprehensions over `range(self._read_varint())`. -/
def readVector {α : Type} (reader : CursorReader α) : CursorReader (List α) := do
  let n ← readVarint
  many reader n

def readInput : CursorReader TxInput := do
  let prevTxidRev ← take 32
  let prevIdx ← readLeUInt32
  let script ← readVarbytes
  let sequence ← readLeUInt32
  return ⟨prevTxidRev, prevIdx, script, sequence⟩

def readInputs : CursorReader (List TxInput) := readVector readInput

def readOutput : CursorReader TxOutput := do
  let value ← readLeInt64
  let pkScript ← readVarbytes
  return ⟨value, pkScript⟩

def readOutputs : CursorReader (List TxOutput) := readVector readOutput

def readWitnessField : CursorReader (List Bytes) := readVector readVarbytes

def readWitness (fields : ℕ) : CursorReader (List (List Bytes)) :=
  many readWitnessField fields

end Fields

section Transactions

variable (env : External)

/-- `TX_HASH_FN`: the digest in the order in which the node serializes it. -/
def txHashFn (bytes : Bytes) : Bytes := serializeUInt256 (env.hash256 bytes)

/-- A transaction without witness: all its bytes are hashed, and their number
is its virtual size. -/
def readPlain (readTime : CursorReader (Option ℕ)) : CursorReader (Tx × ℕ) := do
  let start ← tell
  let version ← readLeInt32
  let time ← readTime
  let inputs ← readInputs
  let outputs ← readOutputs
  let locktime ← readLeUInt32
  let stop ← tell
  let bytes ← slice start stop
  let txid := txHashFn env bytes
  return (⟨version, time, none, inputs, outputs, locktime, txid, txid⟩, stop - start)

/-- A transaction with witness: the txid is taken of what stands before the
marker, between the flag and the witness, and after the witness. -/
def readExtended (readTime : CursorReader (Option ℕ)) : CursorReader (Tx × ℕ) := do
  let origStart ← tell
  let version ← readLeInt32
  let time ← readTime
  let headStop ← tell
  let head ← slice origStart headStop
  let marker ← next
  let flag ← next
  let bodyStart ← tell
  let inputs ← readInputs
  let outputs ← readOutputs
  let witnessStart ← tell
  let body ← slice bodyStart witnessStart
  let witness ← readWitness inputs.length
  let lockStart ← tell
  -- two more for the marker and the flag
  let witnessSize := lockStart - witnessStart + 2
  let locktime ← readLeUInt32
  let stop ← tell
  let lock ← slice lockStart stop
  let baseSize := stop - origStart - witnessSize
  let weight := 4 * baseSize + witnessSize
  let vsize := weight / 4 + if weight % 4 > 0 then 1 else 0
  let bytes ← slice origStart stop
  return (⟨version, time, some ⟨marker, flag, witness⟩, inputs, outputs, locktime,
    txHashFn env (head ++ body ++ lock), txHashFn env bytes⟩, vsize)

def noTime : CursorReader (Option ℕ) := pure none

def readTime : CursorReader (Option ℕ) := do
  let time ← readLeUInt32
  return some time

namespace DeserializerSegWit

/-- `DeserializerSegWit._read_tx_parts`, with `Deserializer.read_tx` for a
nonzero byte after the version. -/
def readTxParts : CursorReader (Tx × ℕ) := do
  let marker ← peek 4
  if marker ≠ 0 then readPlain env noTime
  else readExtended env noTime

end DeserializerSegWit

namespace DeserializerBlackcoinSegWit

/-- `_get_version`: the version, with the cursor left where it is. -/
def getVersion : CursorReader ℤ := fun binary cursor =>
  (readLeInt32.run binary cursor).map fun read => (read.1, cursor)

/-- The test for the marker and the flag behind version and timestamp, which
asks only as far as the byte string goes. -/
def markerBehindTime : CursorReader Bool := fun binary cursor =>
  some (decide (cursor + 9 < binary.length ∧ binary[cursor + 8]? = some 0 ∧
    binary[cursor + 9]? ≠ some 0), cursor)

def readTxParts : CursorReader (Tx × ℕ) := do
  let version ← getVersion
  if version < 2 then
    let extended ← markerBehindTime
    if extended then readExtended env readTime
    else readPlain env readTime
  else DeserializerSegWit.readTxParts env

def readTx : CursorReader Tx := do
  let parts ← readTxParts env
  return parts.1

/-- `read_tx_block`.  What follows the transactions is not looked at. -/
def readTxBlock : CursorReader (List Tx) := readVector (readTx env)

end DeserializerBlackcoinSegWit

end Transactions

section FieldRecovery

theorem readLeUInt_recovers {width value : ℕ} (hvalue : value < 256 ^ width) :
    Recovers (readLeUInt width) value (littleEndian width value) := by
  have htake := (take_recovers (littleEndian width value)).map ofLittleEndian
  rwa [length_littleEndian, ofLittleEndian_littleEndian hvalue] at htake

theorem readLeInt_recovers {width value : ℕ} (hvalue : value < 256 ^ width) :
    Recovers (readLeInt width) (BitVec.ofNat (8 * width) value).toInt
      (littleEndian width value) := by
  have htake := (take_recovers (littleEndian width value)).map
    fun bytes => (BitVec.ofNat (8 * width) (ofLittleEndian bytes)).toInt
  rwa [length_littleEndian, ofLittleEndian_littleEndian hvalue] at htake

theorem readLeUInt32_recovers (value : UInt32) :
    Recovers readLeUInt32 value.toNat (serializeUInt32 value) :=
  readLeUInt_recovers value.toNat_lt

theorem readLeInt32_recovers (value : Int32) :
    Recovers readLeInt32 value.toInt (serializeInt32 value) := by
  have hvalue : (BitVec.ofNat (8 * 4) value.toUInt32.toNat).toInt = value.toInt :=
    congrArg BitVec.toInt ((BitVec.ofNat_toNat _ value.toBitVec).trans (BitVec.setWidth_eq _))
  rw [← hvalue]
  exact readLeInt_recovers value.toUInt32.toNat_lt

theorem readLeInt64_recovers (value : Int64) :
    Recovers readLeInt64 value.toInt (serializeInt64 value) := by
  have hvalue : (BitVec.ofNat (8 * 8) value.toUInt64.toNat).toInt = value.toInt :=
    congrArg BitVec.toInt ((BitVec.ofNat_toNat _ value.toBitVec).trans (BitVec.setWidth_eq _))
  rw [← hvalue]
  exact readLeInt_recovers value.toUInt64.toNat_lt

theorem readVarint_recovers {nSize : ℕ} (hsize : nSize < 2 ^ 64) :
    Recovers readVarint nSize (writeCompactSize nSize) := by
  rw [writeCompactSize]
  split_ifs with hone htwo hfour
  · have htoNat : (UInt8.ofNat nSize).toNat = nSize := by
      rw [UInt8.toNat_ofNat']
      omega
    have hbyte : UInt8.ofNat nSize < 253 := by
      rw [UInt8.lt_iff_toNat_lt, htoNat]
      exact hone
    intro binary cursor hstands
    have hnext := next_recovers (UInt8.ofNat nSize) binary cursor hstands
    rw [readVarint, run_bind hnext, if_pos hbyte, htoNat]
    rfl
  · exact (next_recovers 253).bind (readLeUInt_recovers (by omega))
  · exact (next_recovers 254).bind (readLeUInt_recovers (by omega))
  · exact (next_recovers 255).bind (readLeUInt_recovers hsize)

theorem readVarbytes_recovers {bytes : Bytes} (hsize : bytes.length < 2 ^ 64) :
    Recovers readVarbytes bytes (serializeBytes bytes) := by
  rw [serializeBytes, serializeVector, List.flatMap_singleton']
  exact (readVarint_recovers hsize).bind (take_recovers bytes)

theorem readVector_recovers {α β : Type} {reader : CursorReader β} {encode : α → Bytes}
    {convert : α → β} {values : List α} (hsize : values.length < 2 ^ 64)
    (hreader : ∀ value ∈ values, Recovers reader (convert value) (encode value)) :
    Recovers (readVector reader) (values.map convert) (serializeVector encode values) :=
  (readVarint_recovers hsize).bind (many_recovers hreader)

end FieldRecovery

section Agreement

/-- The longest vector whose length the wire format can state. -/
abbrev sizeLimit : ℕ := 2 ^ 64 - 1

def indexedInput (txin : CTxIn) : TxInput where
  prevTxidRev := serializeUInt256 txin.prevout.hash
  prevIdx := txin.prevout.n.toNat
  script := txin.scriptSig
  sequence := txin.nSequence.toNat

def indexedOutput (out : CTxOut) : TxOutput where
  value := out.nValue.toInt
  pkScript := out.scriptPubKey

theorem readInput_recovers {txin : CTxIn} (hfits : txin.Fits sizeLimit) :
    Recovers readInput (indexedInput txin) (serializeTxIn txin) := by
  have hhash : Recovers (take 32) (serializeUInt256 txin.prevout.hash)
      (serializeUInt256 txin.prevout.hash) := by
    have htake := take_recovers (serializeUInt256 txin.prevout.hash)
    rwa [serializeUInt256, length_littleEndian] at htake
  have hscript := readVarbytes_recovers (hfits.scriptSig.trans_lt (by decide))
  simp only [serializeTxIn, serializeOutPoint, List.append_assoc]
  apply hhash.bind
  apply (readLeUInt32_recovers txin.prevout.n).bind
  apply hscript.bind
  exact (readLeUInt32_recovers txin.nSequence).map _

theorem readOutput_recovers {out : CTxOut} (hfits : out.scriptPubKey.length ≤ sizeLimit) :
    Recovers readOutput (indexedOutput out) (serializeTxOut out) :=
  (readLeInt64_recovers out.nValue).bind
    ((readVarbytes_recovers (hfits.trans_lt (by decide))).map _)

variable {tx : CTransaction}

theorem readInputs_recovers (hfits : tx.Fits sizeLimit) :
    Recovers readInputs (tx.vin.map indexedInput) (serializeVector serializeTxIn tx.vin) :=
  readVector_recovers (hfits.vin.trans_lt (by decide))
    fun txin hmem => readInput_recovers (hfits.input txin hmem)

theorem readOutputs_recovers (hfits : tx.Fits sizeLimit) :
    Recovers readOutputs (tx.vout.map indexedOutput) (serializeVector serializeTxOut tx.vout) :=
  readVector_recovers (hfits.vout.trans_lt (by decide))
    fun out hmem => readOutput_recovers (hfits.output out hmem)

theorem readWitnessField_recovers {txin : CTxIn} (hfits : txin.Fits sizeLimit) :
    Recovers readWitnessField txin.scriptWitness
      (serializeVector serializeBytes txin.scriptWitness) := by
  have hread : Recovers readWitnessField (txin.scriptWitness.map id)
      (serializeVector serializeBytes txin.scriptWitness) :=
    readVector_recovers (hfits.scriptWitness.trans_lt (by decide))
      fun item hmem => readVarbytes_recovers ((hfits.item item hmem).trans_lt (by decide))
  rwa [List.map_id] at hread

def witnessBytes (tx : CTransaction) : Bytes :=
  tx.vin.flatMap fun txin => serializeVector serializeBytes txin.scriptWitness

theorem readWitness_recovers (hfits : tx.Fits sizeLimit) :
    Recovers (readWitness tx.vin.length) (tx.vin.map (·.scriptWitness)) (witnessBytes tx) :=
  many_recovers fun txin hmem => readWitnessField_recovers (hfits.input txin hmem)

end Agreement

section WireLayout

def timeBytes (tx : CTransaction) : Bytes :=
  if tx.nVersion < 2 then serializeUInt32 tx.nTime else []

variable (tx : CTransaction)

theorem serializeTransaction_plain {allowWitness : Bool}
    (hplain : (allowWitness && tx.hasWitness) = false) :
    serializeTransaction allowWitness tx = serializeInt32 tx.nVersion ++ (timeBytes tx ++
        (serializeVector serializeTxIn tx.vin ++
          (serializeVector serializeTxOut tx.vout ++ serializeUInt32 tx.nLockTime))) := by
  simp only [serializeTransaction, hplain, timeBytes, Bool.false_eq_true, if_false,
    List.append_nil, List.append_assoc]

theorem serializeTransaction_extended (hwitness : tx.hasWitness = true) :
    serializeTransaction true tx = serializeInt32 tx.nVersion ++ (timeBytes tx ++ ([0] ++ ([1] ++
        (serializeVector serializeTxIn tx.vin ++ (serializeVector serializeTxOut tx.vout ++
            (witnessBytes tx ++ serializeUInt32 tx.nLockTime)))))) := by
  have hmarker : serializeVector serializeTxIn [] = [0] := rfl
  simp only [serializeTransaction, hwitness, Bool.and_self, if_true, hmarker, timeBytes,
    witnessBytes, List.append_assoc]

theorem length_serializeTransaction_extended (hwitness : tx.hasWitness = true) :
    (serializeTransaction true tx).length =
      (serializeTransaction false tx).length + ((witnessBytes tx).length + 2) := by
  rw [serializeTransaction_extended tx hwitness, serializeTransaction_plain tx rfl]
  simp only [List.length_append, List.length_singleton]
  omega

end WireLayout

section TransactionRecovery

variable (env : External) {tx : CTransaction}

/-- The record that describes a transaction. -/
def indexed (tx : CTransaction) : Tx where
  version := tx.nVersion.toInt
  time := if tx.nVersion < 2 then some tx.nTime.toNat else none
  segWit := if tx.hasWitness then some ⟨0, 1, tx.vin.map (·.scriptWitness)⟩ else none
  inputs := tx.vin.map indexedInput
  outputs := tx.vout.map indexedOutput
  locktime := tx.nLockTime.toNat
  txidRev := serializeUInt256 (tx.getHash env)
  wtxidRev := serializeUInt256 (tx.getWitnessHash env)

theorem readPlain_recovers {reader : CursorReader (Option ℕ)}
    (htime : Recovers reader (indexed env tx).time (timeBytes tx))
    (hfits : tx.Fits sizeLimit) (hwitness : tx.hasWitness = false) :
    Recovers (readPlain env reader) (indexed env tx, getVirtualTransactionSize tx)
      (serializeTransaction true tx) := by
  intro binary cursor hstands
  have hplain : (true && tx.hasWitness) = false := hwitness
  have hpieces := hstands
  rw [serializeTransaction_plain tx hplain] at hpieces
  have hstop : cursor + (serializeInt32 tx.nVersion).length + (timeBytes tx).length +
      (serializeVector serializeTxIn tx.vin).length +
      (serializeVector serializeTxOut tx.vout).length +
      (serializeUInt32 tx.nLockTime).length = cursor + (serializeTransaction true tx).length := by
    rw [serializeTransaction_plain tx hplain]
    simp only [List.length_append]
    omega
  have hsame : serializeTransaction false tx = serializeTransaction true tx := by
    rw [serializeTransaction_plain tx hplain, serializeTransaction_plain tx rfl]
  have hsize : getVirtualTransactionSize tx = (serializeTransaction true tx).length := by
    simp only [getVirtualTransactionSize, getTransactionWeight, CTransaction.strippedSize,
      CTransaction.totalSize, witnessScaleFactor, hsame]
    omega
  rw [readPlain, run_bind run_tell, run_bind (readLeInt32_recovers tx.nVersion _ _ hpieces.left),
    run_bind (htime _ _ hpieces.right.left),
    run_bind (readInputs_recovers hfits _ _ hpieces.right.right.left),
    run_bind (readOutputs_recovers hfits _ _ hpieces.right.right.right.left),
    run_bind (readLeUInt32_recovers tx.nLockTime _ _ hpieces.right.right.right.right),
    hstop, run_bind run_tell, run_bind (run_slice hstands _), run_pure,
    Nat.add_sub_cancel_left, hsize]
  simp only [indexed, hwitness, CTransaction.getWitnessHash, CTransaction.getHash, hsame,
    txHashFn, Bool.false_eq_true, if_false]

/-- Rounding the weight up to whole virtual bytes, as the indexer writes it. -/
theorem div_add_ite_eq (weight : ℕ) :
    weight / 4 + (if weight % 4 > 0 then 1 else 0) = (weight + 4 - 1) / 4 := by
  split_ifs <;> omega

theorem readExtended_recovers {reader : CursorReader (Option ℕ)}
    (htime : Recovers reader (indexed env tx).time (timeBytes tx))
    (hfits : tx.Fits sizeLimit) (hwitness : tx.hasWitness = true) :
    Recovers (readExtended env reader) (indexed env tx, getVirtualTransactionSize tx)
      (serializeTransaction true tx) := by
  have htxid : serializeTransaction false tx = serializeInt32 tx.nVersion ++ timeBytes tx ++
        (serializeVector serializeTxIn tx.vin ++ serializeVector serializeTxOut tx.vout) ++
        serializeUInt32 tx.nLockTime := by
    rw [serializeTransaction_plain tx (Bool.false_and _)]
    simp only [List.append_assoc]
  have hsize : getVirtualTransactionSize tx =
      (4 * (serializeTransaction false tx).length + ((witnessBytes tx).length + 2) + 4 - 1) /
        4 := by
    simp only [getVirtualTransactionSize, getTransactionWeight, CTransaction.strippedSize,
      CTransaction.totalSize, witnessScaleFactor, length_serializeTransaction_extended tx hwitness]
    omega
  intro binary cursor hstands
  have hpieces := hstands
  rw [serializeTransaction_extended tx hwitness] at hpieces
  have hafterTime := hpieces.right.right
  have hbody := hafterTime.right.right
  have hwitnessAt := hbody.right.right
  have hlock := hwitnessAt.right
  have hstop : cursor + (serializeInt32 tx.nVersion).length + (timeBytes tx).length +
      [(0 : UInt8)].length + [(1 : UInt8)].length +
      (serializeVector serializeTxIn tx.vin).length +
      (serializeVector serializeTxOut tx.vout).length + (witnessBytes tx).length +
      (serializeUInt32 tx.nLockTime).length = cursor + (serializeTransaction true tx).length := by
    rw [serializeTransaction_extended tx hwitness]
    simp only [List.length_append]
    omega
  rw [readExtended, run_bind run_tell, run_bind (readLeInt32_recovers tx.nVersion _ _ hpieces.left),
    run_bind (htime _ _ hpieces.right.left), run_bind run_tell,
    run_bind (run_slice_append hpieces _), run_bind (next_recovers 0 _ _ hafterTime.left),
    run_bind (next_recovers 1 _ _ hafterTime.right.left), run_bind run_tell,
    run_bind (readInputs_recovers hfits _ _ hbody.left),
    run_bind (readOutputs_recovers hfits _ _ hbody.right.left), run_bind run_tell,
    run_bind (run_slice_append hbody _), List.length_map,
    run_bind (readWitness_recovers hfits _ _ hwitnessAt.left), run_bind run_tell,
    Nat.add_sub_cancel_left]
  dsimp only
  rw [run_bind (readLeUInt32_recovers tx.nLockTime _ _ hlock), run_bind run_tell,
    run_bind (run_slice hlock _), hstop, run_bind (run_slice hstands _), run_pure,
    Nat.add_sub_cancel_left, length_serializeTransaction_extended tx hwitness,
    Nat.add_sub_cancel, div_add_ite_eq]
  simp only [indexed, hsize, hwitness, CTransaction.getWitnessHash, CTransaction.getHash,
    txHashFn, htxid, if_true]

/-- A vector that is not empty does not begin with a zero byte. -/
theorem exists_serializeVector_eq_cons {α : Type} (serialize : α → Bytes) {values : List α}
    (hvalues : values ≠ []) :
    ∃ byte rest, serializeVector serialize values = byte :: rest ∧ byte ≠ 0 := by
  have hpositive : 0 < values.length := List.length_pos_of_ne_nil hvalues
  rw [serializeVector, writeCompactSize]
  split_ifs with hone htwo hfour
  · refine ⟨UInt8.ofNat values.length, values.flatMap serialize, rfl, ?_⟩
    intro hzero
    have hnat : values.length % 2 ^ 8 = 0 := by
      rw [← UInt8.toNat_ofNat', hzero]
      rfl
    omega
  · exact ⟨253, _, List.cons_append, by decide⟩
  · exact ⟨254, _, List.cons_append, by decide⟩
  · exact ⟨255, _, List.cons_append, by decide⟩

theorem run_getVersion {binary : Bytes} {cursor : ℕ} {nVersion : Int32}
    (hstands : StandsAt binary cursor (serializeInt32 nVersion)) :
    run DeserializerBlackcoinSegWit.getVersion binary cursor = some (nVersion.toInt, cursor) := by
  change (readLeInt32.run binary cursor).map _ = _
  rw [readLeInt32_recovers nVersion binary cursor hstands]
  rfl

theorem run_markerBehindTime_plain {binary rest : Bytes} {cursor : ℕ} {byte : UInt8}
    (hstands : StandsAt binary (cursor + 8) (byte :: rest)) (hbyte : byte ≠ 0) :
    run DeserializerBlackcoinSegWit.markerBehindTime binary cursor = some (false, cursor) := by
  have htest : ¬ (cursor + 9 < binary.length ∧ binary[cursor + 8]? = some 0 ∧
      binary[cursor + 9]? ≠ some 0) := by
    rintro ⟨-, hmarker, -⟩
    rw [hstands.getElem?] at hmarker
    exact hbyte (Option.some.inj hmarker)
  exact congrArg (fun test => some (test, cursor)) (decide_eq_false htest)

theorem run_markerBehindTime_extended {binary rest : Bytes} {cursor : ℕ}
    (hstands : StandsAt binary (cursor + 8) (0 :: 1 :: rest)) :
    run DeserializerBlackcoinSegWit.markerBehindTime binary cursor = some (true, cursor) := by
  have hlength := hstands.length_le
  have htest : cursor + 9 < binary.length ∧ binary[cursor + 8]? = some 0 ∧
      binary[cursor + 9]? ≠ some 0 := by
    refine ⟨?_, hstands.getElem?, ?_⟩
    · simp only [List.length_cons] at hlength
      omega
    · have hflag : binary[cursor + 9]? = some 1 := hstands.tail.getElem?
      rw [hflag]
      decide
  exact congrArg (fun test => some (test, cursor)) (decide_eq_true htest)

/-- What the indexer is given: a transaction with an input, without a timestamp
from version 2 on, and with vectors whose lengths the node can state. -/
@[mk_iff]
structure Indexable (tx : CTransaction) : Prop where
  vin : tx.vin ≠ []
  time : ¬ tx.nVersion < 2 → tx.nTime = 0
  fits : tx.Fits sizeLimit

instance (tx : CTransaction) : Decidable (Indexable tx) :=
  decidable_of_iff' _ (indexable_iff tx)

/-- Past version and timestamp stands the marker, or the count of the inputs. -/
theorem standsAt_marker {binary : Bytes} {cursor : ℕ} (hvin : tx.vin ≠ [])
    (hstands : StandsAt binary cursor (serializeTransaction true tx)) :
    ∃ rest, StandsAt binary (cursor + 4 + (timeBytes tx).length) rest ∧
      if tx.hasWitness then ∃ tail, rest = 0 :: 1 :: tail
      else ∃ byte tail, rest = byte :: tail ∧ byte ≠ 0 := by
  cases hwitness : tx.hasWitness with
  | true =>
    rw [serializeTransaction_extended tx hwitness] at hstands
    exact ⟨_, hstands.right.right, _, rfl⟩
  | false =>
    rw [serializeTransaction_plain tx (by rw [hwitness]; rfl)] at hstands
    obtain ⟨byte, rest, hcount, hbyte⟩ := exists_serializeVector_eq_cons serializeTxIn hvin
    rw [hcount] at hstands
    exact ⟨_, hstands.right.right, byte, _, rfl, hbyte⟩

theorem readTxParts_recovers (hindexable : Indexable tx) :
    Recovers (DeserializerBlackcoinSegWit.readTxParts env)
      (indexed env tx, getVirtualTransactionSize tx) (serializeTransaction true tx) := by
  intro binary cursor hstands
  have hversion : StandsAt binary cursor (serializeInt32 tx.nVersion) := by
    simp only [serializeTransaction, List.append_assoc] at hstands
    exact hstands.left
  obtain ⟨rest, hrest, hmarker⟩ := standsAt_marker hindexable.vin hstands
  rw [DeserializerBlackcoinSegWit.readTxParts, run_bind (run_getVersion hversion)]
  by_cases hold : tx.nVersion < 2
  · have htoInt : tx.nVersion.toInt < 2 := Int32.lt_iff_toInt_lt.mp hold
    have htime : Recovers readTime (indexed env tx).time (timeBytes tx) := by
      simp only [indexed, timeBytes, if_pos hold]
      exact (readLeUInt32_recovers tx.nTime).map some
    have hlength : (timeBytes tx).length = 4 := by
      rw [timeBytes, if_pos hold, serializeUInt32, length_littleEndian]
    rw [hlength] at hrest
    rw [if_pos htoInt]
    cases hwitness : tx.hasWitness with
    | true =>
      rw [hwitness, if_pos rfl] at hmarker
      obtain ⟨tail, rfl⟩ := hmarker
      rw [run_bind (run_markerBehindTime_extended hrest), if_pos rfl]
      exact readExtended_recovers env htime hindexable.fits hwitness _ _ hstands
    | false =>
      rw [hwitness, if_neg Bool.false_ne_true] at hmarker
      obtain ⟨byte, tail, rfl, hbyte⟩ := hmarker
      rw [run_bind (run_markerBehindTime_plain hrest hbyte), if_neg Bool.false_ne_true]
      exact readPlain_recovers env htime hindexable.fits hwitness _ _ hstands
  · have htoInt : ¬ tx.nVersion.toInt < 2 := fun hlt => hold (Int32.lt_iff_toInt_lt.mpr hlt)
    have htime : Recovers noTime (indexed env tx).time (timeBytes tx) := by
      simp only [indexed, timeBytes, if_neg hold]
      exact recovers_pure none
    have hlength : (timeBytes tx).length = 0 := by
      rw [timeBytes, if_neg hold, List.length_nil]
    rw [hlength, Nat.add_zero] at hrest
    rw [if_neg htoInt, DeserializerSegWit.readTxParts]
    cases hwitness : tx.hasWitness with
    | true =>
      rw [hwitness, if_pos rfl] at hmarker
      obtain ⟨tail, rfl⟩ := hmarker
      rw [run_bind (run_peek hrest.getElem?), if_neg (not_not_intro rfl)]
      exact readExtended_recovers env htime hindexable.fits hwitness _ _ hstands
    | false =>
      rw [hwitness, if_neg Bool.false_ne_true] at hmarker
      obtain ⟨byte, tail, rfl, hbyte⟩ := hmarker
      rw [run_bind (run_peek hrest.getElem?), if_pos hbyte]
      exact readPlain_recovers env htime hindexable.fits hwitness _ _ hstands

def Tx.witness (tx : Tx) : List (List Bytes) :=
  match tx.segWit with
  | some segWit => segWit.witness
  | none => tx.inputs.map fun _ => []

/-- A record says of a transaction what the node says of it. -/
structure Agrees (tx : CTransaction) (result : Tx) : Prop where
  version : result.version = tx.nVersion.toInt
  time : result.time.getD 0 = tx.nTime.toNat
  inputs : result.inputs = tx.vin.map indexedInput
  outputs : result.outputs = tx.vout.map indexedOutput
  witness : result.witness = tx.vin.map (·.scriptWitness)
  locktime : result.locktime = tx.nLockTime.toNat
  txidRev : result.txidRev = serializeUInt256 (tx.getHash env)
  wtxidRev : result.wtxidRev = serializeUInt256 (tx.getWitnessHash env)

theorem indexed_agrees (hindexable : Indexable tx) : Agrees env tx (indexed env tx) where
  version := rfl
  time := by
    by_cases hold : tx.nVersion < 2
    · simp only [indexed, if_pos hold, Option.getD_some]
    · simp only [indexed, if_neg hold, Option.getD_none, hindexable.time hold]
      rfl
  inputs := rfl
  outputs := rfl
  witness := by
    cases hwitness : tx.hasWitness with
    | true => simp only [Tx.witness, indexed, hwitness, if_true]
    | false =>
      simp only [Tx.witness, indexed, hwitness, Bool.false_eq_true, if_false, List.map_map]
      apply List.map_congr_left
      intro txin hmem
      have hnone : txin.scriptWitness = [] := by
        simp only [CTransaction.hasWitness, List.any_eq_false] at hwitness
        simpa using hwitness txin hmem
      rw [hnone]
      rfl
  locktime := rfl
  txidRev := rfl
  wtxidRev := rfl

theorem readTxBlock_recovers {vtx : List CTransaction} (hsize : vtx.length ≤ sizeLimit)
    (hindexable : ∀ tx ∈ vtx, Indexable tx) :
    Recovers (DeserializerBlackcoinSegWit.readTxBlock env) (vtx.map (indexed env))
      (serializeVector (serializeTransaction true) vtx) :=
  readVector_recovers (hsize.trans_lt (by decide)) fun tx hmem =>
    (readTxParts_recovers env (hindexable tx hmem)).map Prod.fst

end TransactionRecovery

section Indexer

/-- The header of a raw block is its first 80 bytes. -/
theorem length_serializeHeader (header : CBlockHeader) :
    (serializeHeader false header).length = 80 := by
  simp only [serializeHeader, serializeInt32, serializeUInt256, serializeUInt32,
    Bool.false_eq_true, if_false, List.append_nil, List.length_append, length_littleEndian]

theorem indexer_reads_node_transactions (env : External) :
    (∀ tx : CTransaction, Indexable tx → ∀ front back : Bytes, ∃ result,
      run (DeserializerBlackcoinSegWit.readTxParts env)
          (front ++ serializeTransaction true tx ++ back) front.length =
        some ((result, getVirtualTransactionSize tx),
          front.length + (serializeTransaction true tx).length) ∧
      Agrees env tx result) ∧
    ∀ block : CBlock, block.vtx.length ≤ sizeLimit → (∀ tx ∈ block.vtx, Indexable tx) →
      ∃ results,
        run (DeserializerBlackcoinSegWit.readTxBlock env)
            (serializeBlock false true block) 80 =
          some (results,
            80 + (serializeVector (serializeTransaction true) block.vtx).length) ∧
        List.Forall₂ (Agrees env) block.vtx results := by
  constructor
  · intro tx hindexable front back
    have hread := readTxParts_recovers env hindexable _ _ ⟨front, back, rfl, rfl⟩
    exact ⟨indexed env tx, hread, indexed_agrees env hindexable⟩
  · intro block hsize hindexable
    refine ⟨block.vtx.map (indexed env), ?_, ?_⟩
    · apply readTxBlock_recovers env hsize hindexable
      exact ⟨_, _, rfl, length_serializeHeader block.toCBlockHeader⟩
    · rw [List.forall₂_map_right_iff, List.forall₂_same]
      intro tx hmem
      exact indexed_agrees env (hindexable tx hmem)

def timedWitnessSpend : CTransaction where
  nVersion := 1
  nTime := 1700000016
  vin := [⟨⟨5, 2⟩, [], 0xffffffff, [[0x30], []]⟩]
  vout := [⟨1000, [0x51]⟩]
  nLockTime := 7

/-- A block of that transaction and an untimed one without witness. -/
def mixedBlock : CBlock where
  nVersion := 7
  hashPrevBlock := 0
  hashMerkleRoot := 0
  nTime := 0
  nBits := 0
  nNonce := 0
  nFlags := 0
  vtx := [timedWitnessSpend,
    { timedWitnessSpend with
      nVersion := 2
      nTime := 0
      vin := [⟨⟨5, 2⟩, [0x51], 0, []⟩] }]
  vchBlockSig := [1, 2]

theorem indexer_reads_node_transactions_mixed :
    (∃ result,
      run (DeserializerBlackcoinSegWit.readTxParts External.sample)
          ([9, 9] ++ serializeTransaction true timedWitnessSpend ++ [3])
          (List.length [(9 : UInt8), 9]) =
        some ((result, getVirtualTransactionSize timedWitnessSpend),
          List.length [(9 : UInt8), 9] +
            (serializeTransaction true timedWitnessSpend).length) ∧
      Agrees External.sample timedWitnessSpend result) ∧
    ∃ results,
      run (DeserializerBlackcoinSegWit.readTxBlock External.sample)
          (serializeBlock false true mixedBlock) 80 =
        some (results,
          80 + (serializeVector (serializeTransaction true) mixedBlock.vtx).length) ∧
      List.Forall₂ (Agrees External.sample) mixedBlock.vtx results :=
  ⟨(indexer_reads_node_transactions External.sample).1 timedWitnessSpend
      (by decide) [9, 9] [3],
    (indexer_reads_node_transactions External.sample).2 mixedBlock
      (by decide) (by decide)⟩

end Indexer

end FirstIslamicCoin.Electrum
