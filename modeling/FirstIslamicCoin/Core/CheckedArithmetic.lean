import FirstIslamicCoin.Core.Outcome

/-!
# Signed 64-bit arithmetic under two overflow semantics

A signed sum that leaves the 64-bit range is undefined in the source language
and wraps around on the machine.  Every operation here takes the semantics as a
parameter: `wrap` stores the low 64 bits, `trap` stops with an error.  A run
that succeeds under `trap` is one in which no intermediate result ever left the
range, so comparing the two semantics states exactly that nothing wraps.
-/

namespace FirstIslamicCoin

open Outcome

inductive Overflow where
  | wrap
  | trap
  deriving DecidableEq, Repr

namespace Overflow

variable {ε : Type} {mode : Overflow} {failure : ε}

/-- The range of a signed 64-bit integer. -/
def InRange (exact : ℤ) : Prop := -2 ^ 63 ≤ exact ∧ exact < 2 ^ 63

instance (exact : ℤ) : Decidable (InRange exact) := by
  unfold InRange
  infer_instance

/-- Store the exact result of an operation in a signed 64-bit variable. -/
def store (mode : Overflow) (failure : ε) (exact : ℤ) : Except ε Int64 :=
  match mode with
  | .wrap => .ok (Int64.ofInt exact)
  | .trap => do
      require (decide (InRange exact)) failure
      .ok (Int64.ofInt exact)

def add (mode : Overflow) (failure : ε) (left right : Int64) : Except ε Int64 :=
  store mode failure (left.toInt + right.toInt)

def sub (mode : Overflow) (failure : ε) (left right : Int64) : Except ε Int64 :=
  store mode failure (left.toInt - right.toInt)

theorem toInt_ofInt {exact : ℤ} (hrange : InRange exact) :
    (Int64.ofInt exact).toInt = exact :=
  Int64.toInt_ofInt_of_le hrange.1 hrange.2

theorem inRange_toInt (value : Int64) : InRange value.toInt :=
  ⟨value.le_toInt, value.toInt_lt⟩

/-- An exact result that fits is stored unchanged under either semantics. -/
theorem store_of_inRange {exact : ℤ} (hrange : InRange exact) :
    store mode failure exact = .ok (Int64.ofInt exact) := by
  cases mode with
  | wrap => rfl
  | trap => simp [store, hrange]

theorem add_of_inRange {left right : Int64} (hrange : InRange (left.toInt + right.toInt)) :
    add mode failure left right = .ok (Int64.ofInt (left.toInt + right.toInt)) :=
  store_of_inRange hrange

theorem sub_of_inRange {left right : Int64} (hrange : InRange (left.toInt - right.toInt)) :
    sub mode failure left right = .ok (Int64.ofInt (left.toInt - right.toInt)) :=
  store_of_inRange hrange

/-- Whatever the semantics, a stored result is the exact one reduced to 64
bits. -/
theorem toInt_of_store_eq_ok {exact : ℤ} {result : Int64}
    (hstore : store mode failure exact = .ok result) : result.toInt = exact.bmod (2 ^ 64) := by
  have hresult : Int64.ofInt exact = result := by
    cases mode with
    | wrap => simpa [store] using hstore
    | trap => simpa [store, require_bind_eq_ok] using (And.right (require_bind_eq_ok.mp hstore))
  rw [← hresult, Int64.toInt_ofInt]
  rfl

theorem toInt_of_add_eq_ok {left right result : Int64} (hrange : InRange (left.toInt + right.toInt))
    (hadd : add mode failure left right = .ok result) :
    result.toInt = left.toInt + right.toInt := by
  rw [add_of_inRange hrange, Except.ok.injEq] at hadd
  rw [← hadd, toInt_ofInt hrange]

theorem toInt_of_sub_eq_ok {left right result : Int64} (hrange : InRange (left.toInt - right.toInt))
    (hsub : sub mode failure left right = .ok result) :
    result.toInt = left.toInt - right.toInt := by
  rw [sub_of_inRange hrange, Except.ok.injEq] at hsub
  rw [← hsub, toInt_ofInt hrange]

/-- The difference of two nonnegative values always fits. -/
theorem inRange_sub_of_nonneg {left right : Int64} (hleft : 0 ≤ left.toInt)
    (hright : 0 ≤ right.toInt) : InRange (left.toInt - right.toInt) := by
  have hleftLt := left.toInt_lt
  have hrightLt := right.toInt_lt
  constructor <;> omega

/-- A sum of two nonnegative values is stored either exactly or as a negative
number. -/
theorem toInt_of_add_nonneg {left right result : Int64} (hleft : 0 ≤ left.toInt)
    (hright : 0 ≤ right.toInt) (hadd : add mode failure left right = .ok result) :
    result.toInt = left.toInt + right.toInt ∨
      result.toInt = left.toInt + right.toInt - 2 ^ 64 ∧ result.toInt < 0 := by
  have hstored := toInt_of_store_eq_ok hadd
  have hleftLt := left.toInt_lt
  have hrightLt := right.toInt_lt
  rw [hstored, Int.bmod]
  omega

end Overflow

end FirstIslamicCoin
