import FirstIslamicCoin.Primitives.Deserialize

/-!
# The transaction format is canonical

Every reader of the transaction format accepts only what the writer produces
for the value it returns: counts in their shortest form, a witness only behind
the flag, and the flag only before a witness that is not empty.  Together with
the round trip this makes encodings and transactions with inputs correspond
one to one, up to the limit on the length of a vector that is read.
-/

namespace FirstIslamicCoin

open ByteCodec Reader

section Numbers

theorem readUInt32_canonical : readUInt32.Canonical serializeUInt32 := by
  apply readLittleEndian_map_canonical
  intro number hlt
  rw [UInt32.toNat_ofNat']
  omega

theorem readInt32_canonical : readInt32.Canonical serializeInt32 := by
  apply readLittleEndian_map_canonical
  intro number hlt
  rw [UInt32.toUInt32_toInt32, UInt32.toNat_ofNat']
  omega

theorem readInt64_canonical : readInt64.Canonical serializeInt64 := by
  apply readLittleEndian_map_canonical
  intro number hlt
  rw [UInt64.toUInt64_toInt64, UInt64.toNat_ofNat']
  omega

theorem readUInt256_canonical : readUInt256.Canonical serializeUInt256 := by
  apply readLittleEndian_map_canonical
  intro number hlt
  rw [BitVec.toNat_ofNat]
  exact Nat.mod_eq_of_lt hlt

theorem readLongSize_eq_some {width least limit nSize : ℕ} {bytes rest : Bytes}
    (hread : readLongSize width least limit bytes = some (nSize, rest)) :
    bytes = littleEndian width nSize ++ rest ∧ nSize < 256 ^ width ∧
      least ≤ nSize ∧ nSize ≤ limit := by
  simp only [readLongSize, andThen_eq_some, guard_eq_some, done_eq_some,
    Bool.and_eq_true, decide_eq_true_eq] at hread
  obtain ⟨number, remainder, hnumber, ⟨hleast, hlimit⟩, heq⟩ := hread
  obtain ⟨rfl, rfl⟩ := Prod.mk.inj heq
  exact ⟨readLittleEndian_canonical width _ _ _ hnumber, lt_of_readLittleEndian hnumber,
    hleast, hlimit⟩

theorem readCompactSize_eq_some {limit nSize : ℕ} {bytes rest : Bytes}
    (hread : readCompactSize limit bytes = some (nSize, rest)) :
    bytes = writeCompactSize nSize ++ rest ∧ nSize < 2 ^ 64 ∧ nSize ≤ limit := by
  obtain ⟨chSize, middle, hbyte, hsize⟩ := andThen_eq_some.mp hread
  rw [readByte_canonical _ _ _ hbyte]
  split_ifs at hsize with hshort htwo hfour
  · obtain ⟨hlimit, heq⟩ := guard_eq_some.mp hsize
    obtain ⟨rfl, rfl⟩ := Prod.mk.inj (done_eq_some.mp heq)
    have hlt : chSize.toNat < 253 := UInt8.lt_iff_toNat_lt.mp hshort
    refine ⟨?_, by omega, of_decide_eq_true hlimit⟩
    rw [writeCompactSize, if_pos hlt, littleEndian, UInt8.ofNat_toNat]
    rfl
  · obtain ⟨rfl, hlt, hleast, hlimit⟩ := readLongSize_eq_some hsize
    refine ⟨?_, by omega, hlimit⟩
    rw [writeCompactSize, if_neg (by omega), if_pos (by omega), htwo]
    rfl
  · obtain ⟨rfl, hlt, hleast, hlimit⟩ := readLongSize_eq_some hsize
    refine ⟨?_, by omega, hlimit⟩
    rw [writeCompactSize, if_neg (by omega), if_neg (by omega), if_pos (by omega), hfour]
    rfl
  · obtain ⟨rfl, hlt, hleast, hlimit⟩ := readLongSize_eq_some hsize
    refine ⟨?_, by omega, hlimit⟩
    have hlast : chSize = 255 := by
      apply UInt8.toNat_inj.mp
      have hbound := chSize.toNat_lt
      have hge : ¬ chSize.toNat < 253 := fun h => hshort (UInt8.lt_iff_toNat_lt.mpr h)
      have hne : chSize.toNat ≠ 253 := fun h => htwo (UInt8.toNat_inj.mp h)
      have hne' : chSize.toNat ≠ 254 := fun h => hfour (UInt8.toNat_inj.mp h)
      change chSize.toNat = 255
      omega
    rw [writeCompactSize, if_neg (by omega), if_neg (by omega), if_neg (by omega), hlast]
    rfl

theorem readVector_canonical {α : Type} {limit : ℕ} {reader : Reader α}
    {encode : α → Bytes} (hreader : reader.Canonical encode) :
    (readVector limit reader).Canonical (serializeVector encode) := by
  intro bytes values rest hread
  obtain ⟨count, middle, hcount, hmany⟩ := andThen_eq_some.mp hread
  obtain ⟨rfl, hlength⟩ := readMany_canonical hreader hmany
  rw [(readCompactSize_eq_some hcount).1, serializeVector, hlength, List.append_assoc]

theorem readByteVector_canonical (limit : ℕ) :
    (readByteVector limit).Canonical serializeBytes :=
  readVector_canonical readByte_canonical

end Numbers

section Parts

variable {limit : ℕ}

theorem readOutPoint_canonical : readOutPoint.Canonical serializeOutPoint := by
  intro bytes outpoint rest hread
  simp only [readOutPoint, andThen_eq_some, map_eq_some] at hread
  obtain ⟨hash, middle, hhash, n, remainder, hn, heq⟩ := hread
  obtain ⟨rfl, rfl⟩ := Prod.mk.inj heq
  rw [readUInt256_canonical _ _ _ hhash, readUInt32_canonical _ _ _ hn,
    serializeOutPoint, List.append_assoc]

theorem readTxIn_canonical (limit : ℕ) : (readTxIn limit).Canonical serializeTxIn := by
  intro bytes txin rest hread
  simp only [readTxIn, andThen_eq_some, map_eq_some] at hread
  obtain ⟨prevout, _, hprevout, scriptSig, _, hscript, nSequence, _, hsequence, heq⟩ := hread
  obtain ⟨rfl, rfl⟩ := Prod.mk.inj heq
  rw [readOutPoint_canonical _ _ _ hprevout, readByteVector_canonical limit _ _ _ hscript,
    readUInt32_canonical _ _ _ hsequence, serializeTxIn, List.append_assoc, List.append_assoc]

theorem readTxOut_canonical (limit : ℕ) :
    (readTxOut limit).Canonical serializeTxOut := by
  intro bytes out rest hread
  simp only [readTxOut, andThen_eq_some, map_eq_some] at hread
  obtain ⟨nValue, _, hvalue, scriptPubKey, _, hscript, heq⟩ := hread
  obtain ⟨rfl, rfl⟩ := Prod.mk.inj heq
  rw [readInt64_canonical _ _ _ hvalue, readByteVector_canonical limit _ _ _ hscript,
    serializeTxOut, List.append_assoc]

theorem scriptWitness_of_readTxIn {bytes rest : Bytes} {txin : CTxIn}
    (hread : readTxIn limit bytes = some (txin, rest)) : txin.scriptWitness = [] := by
  simp only [readTxIn, andThen_eq_some, map_eq_some] at hread
  obtain ⟨_, _, _, _, _, _, _, _, _, heq⟩ := hread
  obtain ⟨rfl, -⟩ := Prod.mk.inj heq
  rfl

theorem scriptWitness_of_readInputs {bytes rest : Bytes} {vin : List CTxIn}
    (hread : readVector limit (readTxIn limit) bytes = some (vin, rest)) :
    ∀ txin ∈ vin, txin.scriptWitness = [] := by
  obtain ⟨count, middle, -, hmany⟩ := andThen_eq_some.mp hread
  exact forall_mem_of_readMany (fun _ _ _ => scriptWitness_of_readTxIn) hmany

/-- The plain encoding of the inputs does not show their witnesses. -/
theorem serializeInputs_wireForm (vin : List CTxIn) :
    serializeVector serializeTxIn (vin.map (CTxIn.wireForm false)) =
      serializeVector serializeTxIn vin := by
  rw [serializeVector, List.length_map, List.flatMap_map]
  rfl

/-- Reading the witnesses leaves everything else of the inputs alone. -/
theorem readWitnesses_eq_some {vin result : List CTxIn} {bytes rest : Bytes}
    (hread : readWitnesses limit vin bytes = some (result, rest)) :
    bytes = (result.flatMap fun txin =>
        serializeVector serializeBytes txin.scriptWitness) ++ rest ∧
      result.map (CTxIn.wireForm false) = vin.map (CTxIn.wireForm false) := by
  induction vin generalizing result bytes with
  | nil =>
    obtain ⟨rfl, rfl⟩ := Prod.mk.inj (done_eq_some.mp hread)
    exact ⟨rfl, rfl⟩
  | cons txin vin ih =>
    simp only [readWitnesses, andThen_eq_some, map_eq_some] at hread
    obtain ⟨stack, middle, hstack, others, remainder, hothers, heq⟩ := hread
    obtain ⟨rfl, rfl⟩ := Prod.mk.inj heq
    obtain ⟨rfl, hsame⟩ := ih hothers
    refine ⟨?_, ?_⟩
    · rw [readVector_canonical (readByteVector_canonical limit) _ _ _ hstack,
        List.flatMap_cons, List.append_assoc]
    · rw [List.map_cons, List.map_cons, hsame]
      rfl

end Parts

section Transaction

variable {limit : ℕ} {nVersion : Int32} {nTime : UInt32} {flags : UInt8}
  {vin : List CTxIn} {vout : List CTxOut} {tx : CTransaction} {bytes rest : Bytes}

theorem readTransactionTail_eq_some
    (hread : readTransactionTail limit true nVersion nTime 0 vin vout bytes = some (tx, rest)) :
    tx = ⟨vin, vout, nVersion, nTime, tx.nLockTime⟩ ∧
      bytes = serializeUInt32 tx.nLockTime ++ rest := by
  rw [readTransactionTail, if_neg (by decide)] at hread
  obtain ⟨-, hclose⟩ := guard_eq_some.mp hread
  obtain ⟨nLockTime, remainder, hlock, heq⟩ := Reader.map_eq_some.mp hclose
  obtain ⟨rfl, rfl⟩ := Prod.mk.inj heq
  exact ⟨rfl, readUInt32_canonical _ _ _ hlock⟩

/-- The only flag that is accepted is the witness flag, and only before a witness
that is not empty. -/
theorem readTransactionTail_flag_eq_some (hflags : flags ≠ 0)
    (hread : readTransactionTail limit true nVersion nTime flags vin vout bytes = some (tx, rest)) :
    flags = 1 ∧ tx.hasWitness = true ∧
      tx = ⟨tx.vin, vout, nVersion, nTime, tx.nLockTime⟩ ∧
      tx.vin.map (CTxIn.wireForm false) = vin.map (CTxIn.wireForm false) ∧
      bytes = (tx.vin.flatMap fun txin =>
        serializeVector serializeBytes txin.scriptWitness) ++
          (serializeUInt32 tx.nLockTime ++ rest) := by
  rw [readTransactionTail] at hread
  split_ifs at hread with hflag
  · obtain ⟨stacked, middle, hstacks, hguarded⟩ := andThen_eq_some.mp hread
    obtain ⟨hwitness, hclosed⟩ := guard_eq_some.mp hguarded
    obtain ⟨hknown, hclose⟩ := guard_eq_some.mp hclosed
    obtain ⟨nLockTime, remainder, hlock, heq⟩ := Reader.map_eq_some.mp hclose
    obtain ⟨rfl, rfl⟩ := Prod.mk.inj heq
    obtain ⟨rfl, hsame⟩ := readWitnesses_eq_some hstacks
    refine ⟨UInt8.xor_eq_zero_iff.mp (eq_of_beq hknown), hwitness, rfl, hsame, ?_⟩
    rw [readUInt32_canonical _ _ _ hlock]
  · exact absurd (eq_of_beq (guard_eq_some.mp hread).1) hflags

theorem readTime_eq_some
    (hread : (if nVersion < 2 then readUInt32 else .done 0) bytes = some (nTime, rest)) :
    bytes = (if nVersion < 2 then serializeUInt32 nTime else []) ++ rest ∧
      (2 ≤ nVersion → nTime = 0) := by
  split_ifs at hread ⊢ with hversion
  · exact ⟨readUInt32_canonical _ _ _ hread,
      fun hle => absurd hversion (Int32.not_lt.mpr hle)⟩
  · obtain ⟨rfl, rfl⟩ := Prod.mk.inj (done_eq_some.mp hread)
    exact ⟨rfl, fun _ => rfl⟩

theorem serializeTransaction_of_readTransaction
    (hread : readTransaction limit true bytes = some (tx, rest)) (hvin : tx.vin ≠ []) :
    bytes = serializeTransaction true tx ++ rest ∧ (2 ≤ tx.nVersion → tx.nTime = 0) := by
  obtain ⟨nVersion, timed, hversion, hread⟩ := andThen_eq_some.mp hread
  obtain ⟨nTime, inputs, htime, hread⟩ := andThen_eq_some.mp hread
  obtain ⟨vin, middle, hinputs, hread⟩ := andThen_eq_some.mp hread
  obtain ⟨hstamp, huntimed⟩ := readTime_eq_some htime
  have hplain := readVector_canonical (readTxIn_canonical limit) _ _ _ hinputs
  rw [readInt32_canonical _ _ _ hversion, hstamp, hplain]
  split_ifs at hread with hempty
  · have hnil : vin = [] := by simpa using hempty
    subst hnil
    obtain ⟨flags, marked, hflags, hread⟩ := andThen_eq_some.mp hread
    split_ifs at hread with hflag
    · obtain ⟨vin, spent, hinputs, hread⟩ := andThen_eq_some.mp hread
      obtain ⟨vout, witness, houtputs, hread⟩ := andThen_eq_some.mp hread
      obtain ⟨rfl, hwitness, htx, hsame, rfl⟩ :=
        readTransactionTail_flag_eq_some (by simpa using hflag) hread
      rw [readByte_canonical _ _ _ hflags,
        readVector_canonical (readTxIn_canonical limit) _ _ _ hinputs,
        readVector_canonical (readTxOut_canonical limit) _ _ _ houtputs,
        ← serializeInputs_wireForm vin, ← hsame, serializeInputs_wireForm]
      have hfields : tx.nVersion = nVersion ∧ tx.nTime = nTime ∧ tx.vout = vout := by
        rw [htx]
        exact ⟨rfl, rfl, rfl⟩
      obtain ⟨rfl, rfl, rfl⟩ := hfields
      simp only [serializeTransaction, hwitness, Bool.and_self, if_true, List.append_assoc]
      exact ⟨trivial, huntimed⟩
    · obtain ⟨htx, -⟩ := readTransactionTail_eq_some hread
      exact absurd (congrArg CTransaction.vin htx) hvin
  · obtain ⟨vout, locked, houtputs, hread⟩ := andThen_eq_some.mp hread
    obtain ⟨htx, rfl⟩ := readTransactionTail_eq_some hread
    have hbare : tx.hasWitness = false := by
      rw [htx, CTransaction.hasWitness, List.any_eq_false]
      intro txin hmem
      simp [scriptWitness_of_readInputs hinputs txin hmem]
    have hfields : tx.nVersion = nVersion ∧ tx.nTime = nTime ∧ tx.vin = vin ∧
        tx.vout = vout := by
      rw [htx]
      exact ⟨rfl, rfl, rfl, rfl⟩
    obtain ⟨rfl, rfl, rfl, rfl⟩ := hfields
    rw [readVector_canonical (readTxOut_canonical limit) _ _ _ houtputs]
    simp only [serializeTransaction, hbare, Bool.and_false, Bool.false_eq_true, if_false,
      List.append_assoc, List.nil_append]
    exact ⟨trivial, huntimed⟩

/-- The exact bytes of a transaction with inputs are read as that transaction. -/
theorem readTransaction_serializeTransaction (hlimit : limit < 2 ^ 64)
    (hvin : tx.vin ≠ []) (huntimed : 2 ≤ tx.nVersion → tx.nTime = 0) (hfits : tx.Fits limit) :
    (readTransaction limit true).Recovers tx (serializeTransaction true tx) := by
  have hform : tx.wireForm true = tx := by
    rw [CTransaction.wireForm, map_wireForm_true]
    split_ifs with hversion
    · rfl
    · rw [← huntimed (Int32.not_lt.mp hversion)]
  have hread := readTransaction_recovers hlimit true hfits fun _ => hvin
  rwa [hform] at hread

end Transaction

/-- The transaction format round-trips: a transaction with inputs that has no
vector above `MAX_SIZE` is read back and exactly its bytes are consumed; what is
accepted as a transaction with inputs is reproduced by the writer; and two
accepted encodings of one transaction with inputs are equal. -/
theorem transaction_format_roundTrip :
    (∀ tx : CTransaction, tx.vin ≠ [] → (2 ≤ tx.nVersion → tx.nTime = 0) →
      tx.Fits maxSize → ∀ tail : Bytes,
        readTransaction maxSize true (serializeTransaction true tx ++ tail) = some (tx, tail)) ∧
    (∀ (tx : CTransaction) (bytes rest : Bytes),
      readTransaction maxSize true bytes = some (tx, rest) → tx.vin ≠ [] →
        bytes = serializeTransaction true tx ++ rest) ∧
    ∀ (tx : CTransaction) (left right rest : Bytes), tx.vin ≠ [] →
      readTransaction maxSize true (left ++ rest) = some (tx, rest) →
      readTransaction maxSize true (right ++ rest) = some (tx, rest) → left = right := by
  refine ⟨?_, ?_, ?_⟩
  · intro tx hvin huntimed hfits
    exact readTransaction_serializeTransaction (by decide) hvin huntimed hfits
  · intro tx bytes rest hread hvin
    exact (serializeTransaction_of_readTransaction hread hvin).1
  · intro tx left right rest hvin hleft hright
    have hboth : left ++ rest = right ++ rest := by
      rw [(serializeTransaction_of_readTransaction hleft hvin).1,
        (serializeTransaction_of_readTransaction hright hvin).1]
    exact List.append_cancel_right hboth

/-- A stamped transaction with a witness, read back in front of other bytes, and its
encoding as the only one of these bytes. -/
theorem transaction_format_roundTrip_stamped :
    let tx : CTransaction := ⟨[⟨⟨7, 0⟩, [0x51], 0, [[1, 2]]⟩], [⟨5, [0x51]⟩], 1, 9, 0⟩
    readTransaction maxSize true (serializeTransaction true tx ++ [3]) = some (tx, [3]) ∧
      (∀ bytes rest, readTransaction maxSize true bytes = some (tx, rest) →
        bytes = serializeTransaction true tx ++ rest) ∧
      ∀ bytes, readTransaction maxSize true (bytes ++ [3]) = some (tx, [3]) →
        bytes = serializeTransaction true tx := by
  intro tx
  have hread := transaction_format_roundTrip.1 tx (List.cons_ne_nil _ _)
    (fun hversion => absurd hversion (by decide)) (by decide) [3]
  refine ⟨hread, ?_, ?_⟩
  · intro bytes rest hbytes
    exact transaction_format_roundTrip.2.1 tx _ _ hbytes (List.cons_ne_nil _ _)
  · intro bytes hbytes
    exact transaction_format_roundTrip.2.2 tx _ _ _ (List.cons_ne_nil _ _) hbytes hread

section Oversized

/-- A count above the limit is refused. -/
theorem readCompactSize_rejects {limit nSize : ℕ} (hsize : nSize < 2 ^ 64)
    (hlimit : limit < nSize) : (readCompactSize limit).Rejects (writeCompactSize nSize) := by
  intro tail
  rw [Option.eq_none_iff_forall_ne_some]
  rintro ⟨read, rest⟩ hread
  obtain ⟨hbytes, hread, hle⟩ := readCompactSize_eq_some hread
  -- Without the limit both counts would be read from the same bytes.
  have hleft := readCompactSize_recovers hsize (Nat.le_max_left nSize read) tail
  have hright := readCompactSize_recovers hread (Nat.le_max_right nSize read) rest
  rw [hbytes, hright] at hleft
  have heq : read = nSize := congrArg Prod.fst (Option.some.inj hleft)
  omega

/-- An input whose script is longer than the limit is refused. -/
theorem readTxIn_rejects {limit : ℕ} {txin : CTxIn} (hsize : txin.scriptSig.length < 2 ^ 64)
    (hlimit : limit < txin.scriptSig.length) : (readTxIn limit).Rejects (serializeTxIn txin) := by
  rw [serializeTxIn, List.append_assoc]
  exact (readOutPoint_recovers txin.prevout).andThen_rejects
    (((readCompactSize_rejects hsize hlimit).andThen _ _).andThen _ _)

/-- So is a transaction that starts with such an input. -/
theorem readTransaction_rejects {limit : ℕ} {tx : CTransaction} {txin : CTxIn}
    {others : List CTxIn} (hvin : tx.vin = txin :: others) (hplain : tx.hasWitness = false)
    (hcount : tx.vin.length < 2 ^ 64) (hfits : tx.vin.length ≤ limit)
    (hsize : txin.scriptSig.length < 2 ^ 64) (hlimit : limit < txin.scriptSig.length) :
    (readTransaction limit true).Rejects (serializeTransaction true tx) := by
  have hinputs : (readVector limit (readTxIn limit)).Rejects
      (serializeVector serializeTxIn tx.vin) := by
    refine (readCompactSize_recovers hcount hfits).andThen_rejects ?_
    rw [hvin, List.length_cons, List.flatMap_cons]
    exact (readTxIn_rejects hsize hlimit).andThen _ _
  simp only [serializeTransaction, hplain, Bool.and_false, Bool.false_eq_true, if_false,
    List.append_assoc, List.nil_append]
  exact (readInt32_recovers tx.nVersion).andThen_rejects
    ((readTime_recovers tx).andThen_rejects (hinputs.andThen _ _))

/-- A transaction with one input, whose script is one byte longer than a vector that
is read may be. -/
def oversizedTransaction : CTransaction where
  vin := [⟨⟨0, 0⟩, List.replicate (maxSize + 1) 0, 0, []⟩]
  vout := []
  nVersion := 2
  nTime := 0
  nLockTime := 0

theorem oversizedTransaction_not_read :
    oversizedTransaction.vin ≠ [] ∧
      (2 ≤ oversizedTransaction.nVersion → oversizedTransaction.nTime = 0) ∧
      ∀ tail, readTransaction maxSize true
        (serializeTransaction true oversizedTransaction ++ tail) = none := by
  refine ⟨List.cons_ne_nil _ _, fun _ => rfl, ?_⟩
  have hlength : (List.replicate (maxSize + 1) (0 : UInt8)).length = maxSize + 1 :=
    List.length_replicate
  apply readTransaction_rejects rfl rfl (by decide) (by decide)
  · rw [hlength]
    decide
  · rw [hlength]
    exact Nat.lt_succ_self maxSize

end Oversized

end FirstIslamicCoin
