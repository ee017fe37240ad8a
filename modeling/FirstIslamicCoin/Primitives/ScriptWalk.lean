import FirstIslamicCoin.Primitives.SignatureHash

/-!
# Walking a script

What `GetScriptOp` makes of a push and of a plain opcode, and what a script that is read to
its end means for the two walks over it: the list of its operations, and the script code
that is signed.
-/

namespace FirstIslamicCoin

open ByteCodec

theorem toNat_byte {n : ℕ} (hn : n < 256) : (UInt8.ofNat n).toNat = n :=
  UInt8.toNat_ofNat_of_lt hn

namespace CScript

theorem getOp_push {data : Bytes} (hsize : data.length < 0x4c) (rest : CScript) :
    getOp (UInt8.ofNat data.length :: (data ++ rest)) =
      some ((UInt8.ofNat data.length, data), rest) := by
  have hvalue : (UInt8.ofNat data.length).toNat = data.length := toNat_byte (by omega)
  have hdirect : UInt8.ofNat data.length < opPushData1 := by
    rw [UInt8.lt_iff_toNat_lt, hvalue]
    exact hsize
  rw [getOp, if_pos hdirect, hvalue, readBytes_recovers data rest]
  rfl

theorem getOp_code {opcode : UInt8} (hcode : opPushData4 < opcode) (rest : CScript) :
    getOp (opcode :: rest) = some ((opcode, []), rest) := by
  have hvalue : 0x4e < opcode.toNat := UInt8.lt_iff_toNat_lt.mp hcode
  have hne : ∀ code : UInt8, code.toNat ≤ 0x4e → opcode ≠ code := by
    rintro code hle rfl
    omega
  have hdirect : ¬opcode < opPushData1 := by
    intro hlt
    have hlt : opcode.toNat < 0x4c := UInt8.lt_iff_toNat_lt.mp hlt
    omega
  rw [getOp, if_neg hdirect, if_neg (hne opPushData1 (by decide)),
    if_neg (hne opPushData2 (by decide)), if_neg (hne opPushData4 (by decide))]

variable {script rest : CScript} {found : List (UInt8 × Bytes)}

/-- What is read of a script is a part of it in front of the rest. -/
theorem exists_of_getOp {operation : UInt8 × Bytes} (hop : getOp script = some (operation, rest)) :
    ∃ front, script = front ++ rest ∧ front ≠ [] := by
  have hbytes : ∀ {width : ℕ} {bytes data rest : Bytes}, readBytes width bytes = some (data, rest) →
      ∃ front, bytes = front ++ rest := by
    intro width bytes data rest hread
    obtain ⟨rfl, rfl⟩ := readBytes_eq_some.mp hread
    exact ⟨_, rfl⟩
  cases script with
  | nil => cases hop
  | cons opcode body =>
    have hoperand : ∀ width, ((readLittleEndian width body).bind fun size =>
        (readBytes size.1 size.2).bind fun operand => some ((opcode, operand.1), operand.2)) =
          some (operation, rest) → ∃ front, opcode :: body = front ++ rest ∧ front ≠ [] := by
      intro width hsome
      obtain ⟨⟨nSize, middle⟩, hsize, hsome⟩ := Option.bind_eq_some_iff.mp hsome
      obtain ⟨⟨data, remainder⟩, hdata, hsome⟩ := Option.bind_eq_some_iff.mp hsome
      obtain rfl : remainder = rest := congrArg Prod.snd (Option.some.inj hsome)
      have hbody := readLittleEndian_canonical width _ _ _ hsize
      obtain ⟨front, hmiddle : middle = _⟩ := hbytes hdata
      refine ⟨opcode :: (littleEndian width nSize ++ front), ?_, List.cons_ne_nil _ _⟩
      rw [hbody, hmiddle, List.cons_append, List.append_assoc]
    rw [getOp] at hop
    split_ifs at hop
    · obtain ⟨⟨data, remainder⟩, hdata, hsome⟩ := Option.bind_eq_some_iff.mp hop
      obtain rfl : remainder = rest := congrArg Prod.snd (Option.some.inj hsome)
      obtain ⟨front, rfl⟩ := hbytes hdata
      exact ⟨opcode :: front, rfl, List.cons_ne_nil _ _⟩
    · exact hoperand 1 hop
    · exact hoperand 2 hop
    · exact hoperand 4 hop
    · obtain rfl : body = rest := congrArg Prod.snd (Option.some.inj hop)
      exact ⟨[opcode], rfl, List.cons_ne_nil _ _⟩

/-- Reading operations off a script leaves a rest. -/
inductive Reads : CScript → List (UInt8 × Bytes) → CScript → Prop
  | done (script : CScript) : Reads script [] script
  | step {script middle rest : CScript} {operation : UInt8 × Bytes}
      {found : List (UInt8 × Bytes)} (hop : getOp script = some (operation, middle))
      (hrest : Reads middle found rest) : Reads script (operation :: found) rest

theorem Reads.push {data : Bytes} (hsize : data.length < 0x4c) (hrest : Reads script found rest) :
    Reads (UInt8.ofNat data.length :: (data ++ script))
      ((UInt8.ofNat data.length, data) :: found) rest :=
  .step (getOp_push hsize script) hrest

theorem Reads.code {opcode : UInt8} (hcode : opPushData4 < opcode)
    (hrest : Reads script found rest) : Reads (opcode :: script) ((opcode, []) :: found) rest :=
  .step (getOp_code hcode script) hrest

/-- Direct pushes of data that is not too long. -/
theorem Reads.pushes {items : List Bytes} (hsizes : ∀ item ∈ items, item.length < 0x4c)
    (hrest : Reads script found rest) :
    Reads (items.flatMap (fun item => UInt8.ofNat item.length :: item) ++ script)
      (items.map (fun item => (UInt8.ofNat item.length, item)) ++ found) rest := by
  induction items with
  | nil => exact hrest
  | cons item items ih =>
    obtain ⟨hitem, hitems⟩ := List.forall_mem_cons.mp hsizes
    have hpush := Reads.push hitem (ih hitems)
    rw [← List.append_assoc] at hpush
    exact hpush

theorem Reads.length_le (hreads : Reads script found rest) :
    found.length + rest.length ≤ script.length := by
  induction hreads with
  | done => simp
  | step hop _ ih =>
    obtain ⟨front, rfl, hfront⟩ := exists_of_getOp hop
    have hpos : 0 < front.length := List.length_pos_iff.mpr hfront
    rw [List.length_append, List.length_cons]
    omega

/-- The walk over a script goes through what is read of it, then over the rest. -/
theorem Reads.operations_eq (hreads : Reads script found rest) (fuel : ℕ) :
    operations (found.length + fuel) script =
      (found ++ (operations fuel rest).1, (operations fuel rest).2) := by
  induction hreads with
  | done => rw [List.length_nil, Nat.zero_add, List.nil_append]
  | @step script middle rest operation found hop _ ih =>
    cases script with
    | nil => exact absurd hop nofun
    | cons opcode body =>
      rw [List.length_cons, Nat.add_right_comm, operations, hop]
      dsimp only
      rw [ih, List.cons_append]
      nofun

theorem Reads.ops_eq {script : CScript} (hreads : Reads script found []) :
    script.ops = (found, true) := by
  have hlength := hreads.length_le
  obtain ⟨spare, hspare⟩ := Nat.exists_eq_add_of_le hlength
  have hempty : ∀ fuel, operations fuel [] = ([], true) := by
    intro fuel
    cases fuel <;> rfl
  rw [ops, hspare, List.length_nil, Nat.add_zero, hreads.operations_eq, hempty, List.append_nil]

/-- An opcode that is not a push, behind what is read of a script. -/
theorem not_isPushOnly {opcode : UInt8} (hreads : Reads script found (opcode :: rest))
    (hcode : op16 < opcode) : script.isPushOnly = false := by
  have hlength := hreads.length_le
  obtain ⟨spare, hspare⟩ := Nat.exists_eq_add_of_le hlength
  have hbeyond : opPushData4 < opcode := UInt8.lt_trans (by decide : opPushData4 < op16) hcode
  have hstep : operations (rest.length + 1 + spare) (opcode :: rest) =
      ((opcode, []) :: (operations (rest.length + spare) rest).1,
        (operations (rest.length + spare) rest).2) := by
    rw [Nat.add_right_comm, operations, getOp_code hbeyond]
    nofun
  have hmem : (opcode, []) ∈ script.ops.1 := by
    rw [ops, hspare, List.length_cons, Nat.add_assoc, hreads.operations_eq, hstep]
    exact List.mem_append_right _ List.mem_cons_self
  rw [isPushOnly, Bool.and_eq_false_iff]
  right
  rw [List.all_eq_false]
  refine ⟨_, hmem, ?_⟩
  simpa using hcode

def maxScriptElementSize : ℕ := 520

/-- What `EvalScript` puts on the stack for a push. -/
def pushed (operation : UInt8 × Bytes) : Option Bytes :=
  if operation.1 ≤ opPushData4 then
    if maxScriptElementSize < operation.2.length then none else some operation.2
  else if operation.1 = 0x4f then some [0x81]
  else if op1 ≤ operation.1 ∧ operation.1 ≤ op16 then some [operation.1 - (op1 - 1)]
  else none

def pushStack (script : CScript) : Option (List Bytes) :=
  if script.ops.2 then script.ops.1.mapM pushed else none

end CScript

/-- A script without separators is its own script code. -/
theorem withoutSeparators_eq {script : CScript} {found : List (UInt8 × Bytes)}
    (hreads : CScript.Reads script found [])
    (hcodes : ∀ operation ∈ found, operation.1 ≠ opCodeSeparator) {fuel : ℕ}
    (hfuel : script.length < fuel) : withoutSeparators fuel script = (script, 0) := by
  generalize hend : ([] : CScript) = rest at hreads
  induction hreads generalizing fuel with
  | done =>
    obtain ⟨fuel, rfl⟩ := Nat.exists_eq_succ_of_ne_zero (Nat.ne_zero_of_lt hfuel)
    rw [← hend]
    rfl
  | @step script middle rest operation found hop hrest ih =>
    obtain ⟨hfirst, hothers⟩ := List.forall_mem_cons.mp hcodes
    obtain ⟨front, rfl, hfront⟩ := CScript.exists_of_getOp hop
    have hlength : 0 < front.length := List.length_pos_iff.mpr hfront
    obtain ⟨fuel, rfl⟩ := Nat.exists_eq_succ_of_ne_zero (Nat.ne_zero_of_lt hfuel)
    rw [List.length_append] at hfuel
    rw [withoutSeparators, hop]
    dsimp only
    rw [ih hothers (by omega) hend, if_neg hfirst, List.length_append, Nat.add_sub_cancel,
      List.take_left]

theorem serializeScriptCode_eq {script : CScript} {found : List (UInt8 × Bytes)}
    (hreads : CScript.Reads script found [])
    (hcodes : ∀ operation ∈ found, operation.1 ≠ opCodeSeparator) :
    serializeScriptCode script = serializeBytes script := by
  have hbytes : script.flatMap (fun byte => [byte]) = script := List.flatMap_singleton' script
  rw [serializeScriptCode, withoutSeparators_eq hreads hcodes (Nat.lt_succ_self _),
    serializeBytes, serializeVector, hbytes]
  rfl

end FirstIslamicCoin
