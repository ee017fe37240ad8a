import FirstIslamicCoin.Core.ByteCodec

/-!
# Readers that move a cursor

A reader of this kind holds a whole byte string and an offset into it.  Unlike
a reader that consumes its input, it can look at bytes it does not take and cut
out stretches it has already passed.  What it does is therefore said of the
position: bytes *stand at* an offset of the string, and a reader recovers a
value from bytes when, wherever they stand, it returns the value and moves to
their end.
-/

namespace FirstIslamicCoin.Cursor

open ByteCodec

variable {α β : Type}

/-- The reader sees the byte string, moves the cursor, and may fail. -/
abbrev CursorReader (α : Type) := ReaderT Bytes (StateT ℕ Option) α

namespace CursorReader

def run (reader : CursorReader α) (binary : Bytes) (cursor : ℕ) : Option (α × ℕ) :=
  reader binary cursor

@[simp]
theorem run_pure (value : α) (binary : Bytes) (cursor : ℕ) :
    run (pure value) binary cursor = some (value, cursor) :=
  rfl

/-- A sequence goes on where its first part stopped. -/
theorem run_bind {first : CursorReader α} {next : α → CursorReader β} {binary : Bytes}
    {cursor stop : ℕ} {value : α} (hfirst : run first binary cursor = some (value, stop)) :
    run (first >>= next) binary cursor = run (next value) binary stop := by
  change (first binary cursor).bind (fun read => next read.1 binary read.2) = _
  have hread : first binary cursor = some (value, stop) := hfirst
  rw [hread]
  rfl

end CursorReader

open CursorReader

section Standing

/-- The bytes are a stretch of the string that begins at the offset. -/
def StandsAt (binary : Bytes) (cursor : ℕ) (bytes : Bytes) : Prop :=
  ∃ front back, binary = front ++ bytes ++ back ∧ front.length = cursor

variable {binary bytes first second : Bytes} {cursor : ℕ}

theorem StandsAt.left (hstands : StandsAt binary cursor (first ++ second)) :
    StandsAt binary cursor first := by
  obtain ⟨front, back, rfl, hlength⟩ := hstands
  exact ⟨front, second ++ back, by simp only [List.append_assoc], hlength⟩

theorem StandsAt.right (hstands : StandsAt binary cursor (first ++ second)) :
    StandsAt binary (cursor + first.length) second := by
  obtain ⟨front, back, rfl, rfl⟩ := hstands
  exact ⟨front ++ first, back, by simp only [List.append_assoc], List.length_append⟩

theorem StandsAt.length_le (hstands : StandsAt binary cursor bytes) :
    cursor + bytes.length ≤ binary.length := by
  obtain ⟨front, back, rfl, rfl⟩ := hstands
  simp only [List.length_append]
  omega

/-- The stretch can be cut out again. -/
theorem StandsAt.slice (hstands : StandsAt binary cursor bytes) :
    (binary.drop cursor).take bytes.length = bytes := by
  obtain ⟨front, back, rfl, rfl⟩ := hstands
  rw [List.append_assoc, List.drop_left, List.take_left]

theorem StandsAt.getElem? {byte : UInt8} (hstands : StandsAt binary cursor (byte :: bytes)) :
    binary[cursor]? = some byte := by
  obtain ⟨front, back, rfl, rfl⟩ := hstands
  rw [List.append_assoc, List.getElem?_append_right (Nat.le_refl _), Nat.sub_self]
  rfl

theorem StandsAt.tail {byte : UInt8} (hstands : StandsAt binary cursor (byte :: bytes)) :
    StandsAt binary (cursor + 1) bytes :=
  @StandsAt.right binary [byte] bytes cursor hstands

end Standing

section Primitives

def tell : CursorReader ℕ := fun _ cursor => some (cursor, cursor)

def slice (start stop : ℕ) : CursorReader Bytes := fun binary cursor =>
  some ((binary.drop start).take (stop - start), cursor)

/-- Look at the byte some way ahead, which must exist. -/
def peek (ahead : ℕ) : CursorReader UInt8 := fun binary cursor =>
  binary[cursor + ahead]?.map fun byte => (byte, cursor)

def next : CursorReader UInt8 := fun binary cursor =>
  binary[cursor]?.map fun byte => (byte, cursor + 1)

/-- Take the given number of bytes, which must exist. -/
def take (width : ℕ) : CursorReader Bytes := fun binary cursor =>
  if cursor + width ≤ binary.length then
    some ((binary.drop cursor).take width, cursor + width)
  else none

def many (reader : CursorReader α) : ℕ → CursorReader (List α)
  | 0 => pure []
  | count + 1 => do
      let value ← reader
      let values ← many reader count
      return value :: values

variable {binary bytes : Bytes} {cursor : ℕ}

theorem run_tell : run tell binary cursor = some (cursor, cursor) :=
  rfl

theorem run_slice (hstands : StandsAt binary cursor bytes) (position : ℕ) :
    run (slice cursor (cursor + bytes.length)) binary position = some (bytes, position) := by
  change some ((binary.drop cursor).take (cursor + bytes.length - cursor), position) = _
  rw [Nat.add_sub_cancel_left, hstands.slice]

/-- Two neighbouring stretches are cut out together. -/
theorem run_slice_append {first second rest : Bytes}
    (hstands : StandsAt binary cursor (first ++ (second ++ rest))) (position : ℕ) :
    run (slice cursor (cursor + first.length + second.length)) binary position =
      some (first ++ second, position) := by
  rw [← List.append_assoc] at hstands
  rw [Nat.add_assoc, ← List.length_append]
  exact run_slice hstands.left position

theorem run_peek {ahead : ℕ} {byte : UInt8} (hbyte : binary[cursor + ahead]? = some byte) :
    run (peek ahead) binary cursor = some (byte, cursor) := by
  change (binary[cursor + ahead]?.map fun byte => (byte, cursor)) = _
  rw [hbyte]
  rfl

end Primitives

section Recovery

/-- The reader returns `value` for `bytes` wherever they stand, and moves to
their end. -/
def Recovers (reader : CursorReader α) (value : α) (bytes : Bytes) : Prop :=
  ∀ binary cursor, StandsAt binary cursor bytes →
    run reader binary cursor = some (value, cursor + bytes.length)

theorem recovers_pure (value : α) : Recovers (pure value) value [] :=
  fun _ _ _ => rfl

theorem Recovers.bind {first : CursorReader α} {next : α → CursorReader β} {value : α}
    {result : β} {front back : Bytes} (hfirst : Recovers first value front)
    (hnext : Recovers (next value) result back) :
    Recovers (first >>= next) result (front ++ back) := by
  intro binary cursor hstands
  rw [run_bind (hfirst binary cursor hstands.left),
    hnext binary _ hstands.right, List.length_append, Nat.add_assoc]

theorem Recovers.map {reader : CursorReader α} {value : α} {bytes : Bytes}
    (hreader : Recovers reader value bytes) (convert : α → β) :
    Recovers (do return convert (← reader)) (convert value) bytes := by
  have hboth : Recovers (reader >>= fun value => pure (convert value)) (convert value)
      (bytes ++ []) :=
    hreader.bind (recovers_pure (convert value))
  rwa [List.append_nil] at hboth

theorem next_recovers (byte : UInt8) : Recovers next byte [byte] := by
  intro binary cursor hstands
  change (binary[cursor]?.map fun byte => (byte, cursor + 1)) = _
  rw [hstands.getElem?]
  rfl

theorem take_recovers (bytes : Bytes) : Recovers (take bytes.length) bytes bytes := by
  intro binary cursor hstands
  change (if cursor + bytes.length ≤ binary.length then
    some ((binary.drop cursor).take bytes.length, cursor + bytes.length) else none) = _
  rw [if_pos hstands.length_le, hstands.slice]

theorem many_recovers {γ : Type} {reader : CursorReader β} {encode : γ → Bytes} {convert : γ → β}
    {values : List γ} (hreader : ∀ value ∈ values, Recovers reader (convert value) (encode value)) :
    Recovers (many reader values.length) (values.map convert) (values.flatMap encode) := by
  induction values with
  | nil => exact recovers_pure []
  | cons value values ih =>
    have hhead := hreader value List.mem_cons_self
    have htail := ih fun later hmem => hreader later (List.mem_cons_of_mem value hmem)
    rw [List.map_cons, List.flatMap_cons, List.length_cons]
    exact hhead.bind (htail.map _)

end Recovery

end FirstIslamicCoin.Cursor
