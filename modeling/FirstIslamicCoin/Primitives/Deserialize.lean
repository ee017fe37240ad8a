import FirstIslamicCoin.Primitives.Serialize

/-!
# Reading transactions and blocks

The readers of `serialize.h`, `primitives/transaction.h` and
`primitives/block.h`, and their round trip with the writers.  What comes back is
the wire form of a value: a transaction of version 2 or more loses its
timestamp, a transaction written without witness loses its witness, and a
header written without the proof-of-stake marker loses its flags.
-/

namespace FirstIslamicCoin

open ByteCodec Reader

section Readers

/-- `MAX_SIZE`, the limit on a count that is read. -/
def maxSize : ℕ := 0x02000000

/-- A count in its long form, which must not fit the next shorter one. -/
def readLongSize (width least limit : ℕ) : Reader ℕ :=
  (readLittleEndian width).andThen fun nSizeRet =>
    Reader.guard (decide (least ≤ nSizeRet) && decide (nSizeRet ≤ limit))
      (.done nSizeRet)

/-- `ReadCompactSize` with its range check as a parameter. -/
def readCompactSize (limit : ℕ) : Reader ℕ :=
  readByte.andThen fun chSize =>
    if chSize < 253 then
      Reader.guard (decide (chSize.toNat ≤ limit)) (.done chSize.toNat)
    else if chSize = 253 then readLongSize 2 253 limit
    else if chSize = 254 then readLongSize 4 0x10000 limit
    else readLongSize 8 0x100000000 limit

def readVector {α : Type} (limit : ℕ) (reader : Reader α) : Reader (List α) :=
  (readCompactSize limit).andThen fun count => readMany reader count

def readByteVector (limit : ℕ) : Reader Bytes := readVector limit readByte

def readInt32 : Reader Int32 :=
  (readLittleEndian 4).map fun value => (UInt32.ofNat value).toInt32

def readUInt32 : Reader UInt32 := (readLittleEndian 4).map UInt32.ofNat

def readInt64 : Reader Int64 :=
  (readLittleEndian 8).map fun value => (UInt64.ofNat value).toInt64

def readUInt256 : Reader UInt256 := (readLittleEndian 32).map (BitVec.ofNat 256)

def readOutPoint : Reader COutPoint :=
  readUInt256.andThen fun hash => readUInt32.map fun n => ⟨hash, n⟩

def readTxIn (limit : ℕ) : Reader CTxIn :=
  readOutPoint.andThen fun prevout =>
    (readByteVector limit).andThen fun scriptSig =>
      readUInt32.map fun nSequence => ⟨prevout, scriptSig, nSequence, []⟩

def readTxOut (limit : ℕ) : Reader CTxOut :=
  readInt64.andThen fun nValue =>
    (readByteVector limit).map fun scriptPubKey => ⟨nValue, scriptPubKey⟩

/-- The witness stacks of the inputs, one after the other. -/
def readWitnesses (limit : ℕ) : List CTxIn → Reader (List CTxIn)
  | [] => .done []
  | txin :: rest =>
      (readVector limit (readByteVector limit)).andThen fun stack =>
        (readWitnesses limit rest).map fun others =>
          { txin with scriptWitness := stack } :: others

/-- The end of `UnserializeTransaction`, after inputs and outputs. -/
def readTransactionTail (limit : ℕ) (allowWitness : Bool) (nVersion : Int32)
    (nTime : UInt32) (flags : UInt8) (vin : List CTxIn) (vout : List CTxOut) :
    Reader CTransaction :=
  let close (flags : UInt8) (vin : List CTxIn) : Reader CTransaction :=
    Reader.guard (flags == 0)
      (readUInt32.map fun nLockTime => ⟨vin, vout, nVersion, nTime, nLockTime⟩)
  if flags &&& 1 != 0 && allowWitness then
    (readWitnesses limit vin).andThen fun vin =>
      Reader.guard (vin.any fun txin => !txin.scriptWitness.isEmpty)
        (close (flags ^^^ 1) vin)
  else close flags vin

/-- `UnserializeTransaction`. -/
def readTransaction (limit : ℕ) (allowWitness : Bool) : Reader CTransaction :=
  readInt32.andThen fun nVersion =>
    (if nVersion < 2 then readUInt32 else .done 0).andThen fun nTime =>
      (readVector limit (readTxIn limit)).andThen fun vin =>
        if vin.isEmpty && allowWitness then
          readByte.andThen fun flags =>
            if flags != 0 then
              (readVector limit (readTxIn limit)).andThen fun vin =>
                (readVector limit (readTxOut limit)).andThen fun vout =>
                  readTransactionTail limit allowWitness nVersion nTime flags vin vout
            else readTransactionTail limit allowWitness nVersion nTime 0 [] []
        else
          (readVector limit (readTxOut limit)).andThen fun vout =>
            readTransactionTail limit allowWitness nVersion nTime 0 vin vout

def readHeader (posMarker : Bool) : Reader CBlockHeader :=
  readInt32.andThen fun nVersion =>
    readUInt256.andThen fun hashPrevBlock =>
      readUInt256.andThen fun hashMerkleRoot =>
        readUInt32.andThen fun nTime =>
          readUInt32.andThen fun nBits =>
            readUInt32.andThen fun nNonce =>
              (if posMarker then readUInt32 else .done 0).map fun nFlags =>
                ⟨nVersion, hashPrevBlock, hashMerkleRoot, nTime, nBits, nNonce, nFlags⟩

def readBlock (limit : ℕ) (posMarker allowWitness : Bool) : Reader CBlock :=
  (readHeader posMarker).andThen fun header =>
    (readVector limit (readTransaction limit allowWitness)).andThen fun vtx =>
      (readByteVector limit).map fun vchBlockSig => ⟨header, vtx, vchBlockSig⟩

end Readers

section Numbers

theorem readLongSize_recovers {width least limit nSize : ℕ}
    (hwidth : nSize < 256 ^ width) (hleast : least ≤ nSize) (hlimit : nSize ≤ limit) :
    (readLongSize width least limit).Recovers nSize (littleEndian width nSize) := by
  have hread : (readLongSize width least limit).Recovers nSize
      (littleEndian width nSize ++ []) := by
    refine (readLittleEndian_recovers hwidth).andThen ?_
    exact (recovers_done nSize).guard (by simp [hleast, hlimit])
  rwa [List.append_nil] at hread

theorem readCompactSize_recovers {limit nSize : ℕ} (hsize : nSize < 2 ^ 64)
    (hlimit : nSize ≤ limit) : (readCompactSize limit).Recovers nSize (writeCompactSize nSize) := by
  have hlong : ∀ marker : UInt8, ∀ width least, ¬ marker < 253 →
      (nSize < 256 ^ width ∧ least ≤ nSize) →
      ((if marker = 253 then readLongSize 2 253 limit
        else if marker = 254 then readLongSize 4 0x10000 limit
        else readLongSize 8 0x100000000 limit) = readLongSize width least limit) →
      (readCompactSize limit).Recovers nSize (marker :: littleEndian width nSize) := by
    intro marker width least hmarker hbounds hreader
    change (readCompactSize limit).Recovers nSize ([marker] ++ littleEndian width nSize)
    refine (readByte_recovers marker).andThen ?_
    rw [if_neg hmarker, hreader]
    exact readLongSize_recovers hbounds.1 hbounds.2 hlimit
  rw [writeCompactSize]
  split_ifs with hshort hword hdouble
  · have hbyte : (UInt8.ofNat nSize).toNat = nSize := by
      rw [UInt8.toNat_ofNat']
      omega
    have hsmall : UInt8.ofNat nSize < 253 := by
      rw [UInt8.lt_iff_toNat_lt, hbyte]
      exact hshort
    change (readCompactSize limit).Recovers nSize ([UInt8.ofNat nSize] ++ [])
    refine (readByte_recovers (UInt8.ofNat nSize)).andThen ?_
    rw [if_pos hsmall, hbyte]
    exact (recovers_done nSize).guard (by simp [hlimit])
  · exact hlong 253 2 253 (by decide) ⟨by omega, by omega⟩ rfl
  · exact hlong 254 4 0x10000 (by decide) ⟨by omega, by omega⟩ rfl
  · exact hlong 255 8 0x100000000 (by decide) ⟨by omega, by omega⟩ rfl

theorem readVector_recovers {α β : Type} {limit : ℕ} {reader : Reader β} {serialize : α → Bytes}
    {decoded : α → β} {values : List α} (hsize : values.length < 2 ^ 64)
    (hlimit : values.length ≤ limit)
    (hreader : ∀ value ∈ values, reader.Recovers (decoded value) (serialize value)) :
    (readVector limit reader).Recovers (values.map decoded) (serializeVector serialize values) :=
  (readCompactSize_recovers hsize hlimit).andThen (readMany_recovers hreader)

theorem readByteVector_recovers {limit : ℕ} {bytes : Bytes}
    (hsize : bytes.length < 2 ^ 64) (hlimit : bytes.length ≤ limit) :
    (readByteVector limit).Recovers bytes (serializeBytes bytes) := by
  have hread : (readByteVector limit).Recovers (bytes.map id) (serializeBytes bytes) :=
    readVector_recovers hsize hlimit fun byte _ => readByte_recovers byte
  rwa [List.map_id] at hread

theorem readUInt32_recovers (value : UInt32) :
    readUInt32.Recovers value (serializeUInt32 value) := by
  have hbound : ∀ value : UInt32, value.toNat < 256 ^ 4 := fun value => value.toNat_lt
  exact readLittleEndian_map_recovers hbound (fun _ => UInt32.ofNat_toNat) value

theorem readInt32_recovers (value : Int32) :
    readInt32.Recovers value (serializeInt32 value) := by
  have hbound : ∀ value : Int32, value.toUInt32.toNat < 256 ^ 4 :=
    fun value => value.toUInt32.toNat_lt
  refine readLittleEndian_map_recovers hbound (fun value => ?_) value
  rw [UInt32.ofNat_toNat, Int32.toInt32_toUInt32]

theorem readInt64_recovers (value : Int64) :
    readInt64.Recovers value (serializeInt64 value) := by
  have hbound : ∀ value : Int64, value.toUInt64.toNat < 256 ^ 8 :=
    fun value => value.toUInt64.toNat_lt
  refine readLittleEndian_map_recovers hbound (fun value => ?_) value
  rw [UInt64.ofNat_toNat, Int64.toInt64_toUInt64]

theorem readUInt256_recovers (value : UInt256) :
    readUInt256.Recovers value (serializeUInt256 value) := by
  have hbound : ∀ value : UInt256, value.toNat < 256 ^ 32 := fun value => value.isLt
  refine readLittleEndian_map_recovers hbound (fun value => ?_) value
  rw [BitVec.ofNat_toNat, BitVec.setWidth_eq]

theorem readOutPoint_recovers (outpoint : COutPoint) :
    readOutPoint.Recovers outpoint (serializeOutPoint outpoint) :=
  (readUInt256_recovers outpoint.hash).andThen ((readUInt32_recovers outpoint.n).map _)

end Numbers

section WireForm

/-- An input as it comes back: without witness when none was written. -/
def CTxIn.wireForm (allowWitness : Bool) (txin : CTxIn) : CTxIn :=
  if allowWitness then txin else { txin with scriptWitness := [] }

/-- A transaction as it comes back: untimed from version 2 on. -/
def CTransaction.wireForm (allowWitness : Bool) (tx : CTransaction) :
    CTransaction :=
  { tx with
    vin := tx.vin.map (CTxIn.wireForm allowWitness)
    nTime := if tx.nVersion < 2 then tx.nTime else 0 }

def CBlockHeader.wireForm (posMarker : Bool) (header : CBlockHeader) :
    CBlockHeader :=
  { header with nFlags := if posMarker then header.nFlags else 0 }

def CBlock.wireForm (posMarker allowWitness : Bool) (block : CBlock) : CBlock where
  toCBlockHeader := block.toCBlockHeader.wireForm posMarker
  vtx := block.vtx.map (CTransaction.wireForm allowWitness)
  vchBlockSig := block.vchBlockSig

/-- No vector of an input is longer than a limit. -/
@[mk_iff]
structure CTxIn.Fits (limit : ℕ) (txin : CTxIn) : Prop where
  scriptSig : txin.scriptSig.length ≤ limit
  scriptWitness : txin.scriptWitness.length ≤ limit
  item : ∀ item ∈ txin.scriptWitness, item.length ≤ limit

/-- No vector of a transaction is longer than a limit. -/
@[mk_iff]
structure CTransaction.Fits (limit : ℕ) (tx : CTransaction) : Prop where
  vin : tx.vin.length ≤ limit
  vout : tx.vout.length ≤ limit
  input : ∀ txin ∈ tx.vin, txin.Fits limit
  output : ∀ out ∈ tx.vout, out.scriptPubKey.length ≤ limit

theorem map_wireForm_true (vin : List CTxIn) :
    vin.map (CTxIn.wireForm true) = vin :=
  List.map_id vin

variable {tx : CTransaction}

theorem map_wireForm_of_not_hasWitness {allowWitness : Bool}
    (hplain : (allowWitness && tx.hasWitness) = false) :
    tx.vin.map (CTxIn.wireForm allowWitness) = tx.vin.map (CTxIn.wireForm false) := by
  cases allowWitness with
  | false => rfl
  | true =>
    apply List.map_congr_left
    intro txin hmem
    have hnone : txin.scriptWitness = [] := by
      simp only [Bool.true_and, CTransaction.hasWitness, List.any_eq_false] at hplain
      simpa using hplain txin hmem
    simp [CTxIn.wireForm, ← hnone]

theorem readTime_recovers (tx : CTransaction) :
    (if tx.nVersion < 2 then readUInt32 else .done 0).Recovers
      (if tx.nVersion < 2 then tx.nTime else 0)
      (if tx.nVersion < 2 then serializeUInt32 tx.nTime else []) := by
  split_ifs
  · exact readUInt32_recovers tx.nTime
  · exact recovers_done 0

/-- Without the witness flag only the lock time is left to read. -/
theorem readTransactionTail_recovers (limit : ℕ) (allowWitness : Bool) (nVersion : Int32)
    (nTime nLockTime : UInt32) (vin : List CTxIn) (vout : List CTxOut) :
    (readTransactionTail limit allowWitness nVersion nTime 0 vin vout).Recovers
      ⟨vin, vout, nVersion, nTime, nLockTime⟩ (serializeUInt32 nLockTime) :=
  ((readUInt32_recovers nLockTime).map _).guard rfl

theorem readHeader_recovers (posMarker : Bool) (header : CBlockHeader) :
    (readHeader posMarker).Recovers (header.wireForm posMarker)
      (serializeHeader posMarker header) := by
  have hflags : (if posMarker then readUInt32 else .done 0).Recovers
      (if posMarker then header.nFlags else 0)
      (if posMarker then serializeUInt32 header.nFlags else []) := by
    cases posMarker
    · exact recovers_done 0
    · exact readUInt32_recovers header.nFlags
  simp only [serializeHeader, List.append_assoc]
  exact (readInt32_recovers header.nVersion).andThen
    ((readUInt256_recovers header.hashPrevBlock).andThen
      ((readUInt256_recovers header.hashMerkleRoot).andThen
        ((readUInt32_recovers header.nTime).andThen ((readUInt32_recovers header.nBits).andThen
            ((readUInt32_recovers header.nNonce).andThen (hflags.map _))))))

instance (limit : ℕ) (txin : CTxIn) : Decidable (txin.Fits limit) :=
  decidable_of_iff' _ (CTxIn.fits_iff limit txin)

instance (limit : ℕ) (tx : CTransaction) : Decidable (tx.Fits limit) :=
  decidable_of_iff' _ (CTransaction.fits_iff limit tx)

variable {limit : ℕ} (hlimit : limit < 2 ^ 64)

include hlimit

theorem readTxIn_recovers {txin : CTxIn} (hfits : txin.Fits limit) :
    (readTxIn limit).Recovers (txin.wireForm false) (serializeTxIn txin) := by
  rw [serializeTxIn, List.append_assoc]
  exact (readOutPoint_recovers txin.prevout).andThen
    ((readByteVector_recovers (hfits.scriptSig.trans_lt hlimit)
      hfits.scriptSig).andThen ((readUInt32_recovers txin.nSequence).map _))

theorem readTxOut_recovers {out : CTxOut} (hfits : out.scriptPubKey.length ≤ limit) :
    (readTxOut limit).Recovers out (serializeTxOut out) :=
  (readInt64_recovers out.nValue).andThen
    ((readByteVector_recovers (hfits.trans_lt hlimit) hfits).map _)

theorem readWitnesses_recovers {vin : List CTxIn} (hfits : ∀ txin ∈ vin, txin.Fits limit) :
    (readWitnesses limit (vin.map (CTxIn.wireForm false))).Recovers vin
      (vin.flatMap fun txin => serializeVector serializeBytes txin.scriptWitness) := by
  induction vin with
  | nil => exact recovers_done []
  | cons txin vin ih =>
    obtain ⟨hhead, htail⟩ := List.forall_mem_cons.mp hfits
    have hstack : (readVector limit (readByteVector limit)).Recovers (txin.scriptWitness.map id)
        (serializeVector serializeBytes txin.scriptWitness) :=
      readVector_recovers (hhead.scriptWitness.trans_lt hlimit) hhead.scriptWitness
        fun item hmem => readByteVector_recovers
          ((hhead.item item hmem).trans_lt hlimit) (hhead.item item hmem)
    rw [List.map_id] at hstack
    rw [List.map_cons, readWitnesses, List.flatMap_cons]
    exact hstack.andThen ((ih htail).map _)

theorem readInputs_recovers (hfits : tx.Fits limit) :
    (readVector limit (readTxIn limit)).Recovers
      (tx.vin.map (CTxIn.wireForm false)) (serializeVector serializeTxIn tx.vin) :=
  readVector_recovers (hfits.vin.trans_lt hlimit) hfits.vin
    fun txin hmem => readTxIn_recovers hlimit (hfits.input txin hmem)

theorem readOutputs_recovers (hfits : tx.Fits limit) :
    (readVector limit (readTxOut limit)).Recovers tx.vout
      (serializeVector serializeTxOut tx.vout) := by
  have hread : (readVector limit (readTxOut limit)).Recovers (tx.vout.map id)
      (serializeVector serializeTxOut tx.vout) :=
    readVector_recovers (hfits.vout.trans_lt hlimit) hfits.vout
      fun out hmem => readTxOut_recovers hlimit (hfits.output out hmem)
  rwa [List.map_id] at hread

/-- With the witness flag, the witness stacks of the inputs come before it. -/
theorem readTransactionTail_recovers_witness (nTime : UInt32) (hfits : tx.Fits limit)
    (hwitness : tx.hasWitness = true) :
    (readTransactionTail limit true tx.nVersion nTime 1
        (tx.vin.map (CTxIn.wireForm false)) tx.vout).Recovers
      { tx with nTime := nTime }
      ((tx.vin.flatMap fun txin => serializeVector serializeBytes txin.scriptWitness) ++
        serializeUInt32 tx.nLockTime) :=
  (readWitnesses_recovers hlimit hfits.input).andThen
    ((((readUInt32_recovers tx.nLockTime).map _).guard rfl).guard hwitness)

/-- A transaction is recovered up to its wire form.  In the format with witness
an empty input vector would be taken for the extended format. -/
theorem readTransaction_recovers (allowWitness : Bool) (hfits : tx.Fits limit)
    (hvin : allowWitness = true → tx.vin ≠ []) :
    (readTransaction limit allowWitness).Recovers (tx.wireForm allowWitness)
      (serializeTransaction allowWitness tx) := by
  simp only [serializeTransaction, List.append_assoc]
  refine (readInt32_recovers tx.nVersion).andThen ((readTime_recovers tx).andThen ?_)
  cases hextended : allowWitness && tx.hasWitness with
  | true =>
    obtain ⟨rfl, hwitness⟩ := Bool.and_eq_true_iff.mp hextended
    have hempty : (readVector limit (readTxIn limit)).Recovers ([].map id)
        (serializeVector serializeTxIn []) :=
      readVector_recovers (by decide) (Nat.zero_le _) (by simp)
    have htail := readTransactionTail_recovers_witness hlimit
      (if tx.nVersion < 2 then tx.nTime else 0) hfits hwitness
    simp only [if_true, List.append_assoc]
    refine hempty.andThen ((readByte_recovers 1).andThen ((readInputs_recovers hlimit hfits).andThen
        ((readOutputs_recovers hlimit hfits).andThen ?_)))
    rw [CTransaction.wireForm, map_wireForm_true]
    exact htail
  | false =>
    have htail := readTransactionTail_recovers limit allowWitness tx.nVersion
      (if tx.nVersion < 2 then tx.nTime else 0) tx.nLockTime
      (tx.vin.map (CTxIn.wireForm false)) tx.vout
    simp only [Bool.false_eq_true, if_false, List.nil_append]
    refine (readInputs_recovers hlimit hfits).andThen ?_
    have hbranch : ((tx.vin.map (CTxIn.wireForm false)).isEmpty && allowWitness) = false := by
      cases allowWitness with
      | false => simp
      | true => simpa using hvin rfl
    simp only [hbranch, Bool.false_eq_true, if_false]
    refine (readOutputs_recovers hlimit hfits).andThen ?_
    rw [CTransaction.wireForm, map_wireForm_of_not_hasWitness hextended]
    exact htail

/-- No vector of a block is longer than a limit, and no transaction is without
inputs. -/
@[mk_iff]
structure CBlock.Fits (limit : ℕ) (block : CBlock) : Prop where
  vtx : block.vtx.length ≤ limit
  vchBlockSig : block.vchBlockSig.length ≤ limit
  tx : ∀ tx ∈ block.vtx, tx.Fits limit
  vin : ∀ tx ∈ block.vtx, tx.vin ≠ []

instance (limit : ℕ) (block : CBlock) : Decidable (block.Fits limit) :=
  decidable_of_iff' _ (CBlock.fits_iff limit block)

theorem readBlock_recovers {block : CBlock} (posMarker allowWitness : Bool)
    (hfits : block.Fits limit) :
    (readBlock limit posMarker allowWitness).Recovers (block.wireForm posMarker allowWitness)
      (serializeBlock posMarker allowWitness block) := by
  have hvtx : (readVector limit (readTransaction limit allowWitness)).Recovers
      (block.vtx.map (CTransaction.wireForm allowWitness))
      (serializeVector (serializeTransaction allowWitness) block.vtx) :=
    readVector_recovers (hfits.vtx.trans_lt hlimit) hfits.vtx fun tx hmem =>
      readTransaction_recovers hlimit allowWitness (hfits.tx tx hmem) (fun _ => hfits.vin tx hmem)
  rw [serializeBlock, List.append_assoc]
  exact (readHeader_recovers posMarker block.toCBlockHeader).andThen
    (hvtx.andThen ((readByteVector_recovers (hfits.vchBlockSig.trans_lt hlimit)
      hfits.vchBlockSig).map _))

end WireForm

end FirstIslamicCoin
