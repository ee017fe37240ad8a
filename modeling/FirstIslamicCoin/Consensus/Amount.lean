import FirstIslamicCoin.Core.CheckedArithmetic
import FirstIslamicCoin.Primitives.Transaction

/-!
# Amounts

`MAX_MONEY` is the largest 64-bit value, so a range test on a sum can never
catch an overflow; the source therefore compares each new term with the room
that is left before it adds.  That guarded step is `accumulate`, and its one
lemma shows that it behaves the same whether an overflow wraps or traps.
-/

namespace FirstIslamicCoin

open Outcome

/-- How a validation function stops: it marks the state invalid with a result
and a reject reason, reports a run-time error, returns false and leaves the
state alone, throws, fails an assertion, or, under trapping arithmetic,
overflows. -/
inductive Failure (Result : Type) where
  | invalid (result : Result) (rejectReason : String)
  | error (rejectReason : String)
  | unset
  | thrown (what : String)
  | aborted
  | overflowed
  deriving DecidableEq, Repr

abbrev CAmount := Int64

def maxMoney : CAmount := Int64.maxValue

def moneyRange (nValue : CAmount) : Bool :=
  decide (0 ≤ nValue) && decide (nValue ≤ maxMoney)

theorem toInt_maxMoney : maxMoney.toInt = 2 ^ 63 - 1 := by decide

@[simp]
theorem moneyRange_eq_true {nValue : CAmount} :
    moneyRange nValue = true ↔ 0 ≤ nValue.toInt := by
  have hlt := nValue.toInt_lt
  simp only [moneyRange, Bool.and_eq_true, decide_eq_true_eq,
    Int64.le_iff_toInt_le, toInt_maxMoney, Int64.toInt_zero]
  omega

section Accumulate

variable {ε : Type} {mode : Overflow} {failure overflowed : ε}

/-- Add a term that is no larger than the room left below `MAX_MONEY`. -/
def addWithinRoom (mode : Overflow) (failure overflowed : ε)
    (sum nValue : CAmount) : Except ε CAmount := do
  let room ← mode.sub overflowed maxMoney sum
  require (decide (nValue ≤ room)) failure
  mode.add overflowed sum nValue

/-- One step of an overflow-safe sum: the term must be in range and fit. -/
def accumulate (mode : Overflow) (failure overflowed : ε)
    (sum nValue : CAmount) : Except ε CAmount := do
  require (moneyRange nValue) failure
  addWithinRoom mode failure overflowed sum nValue

/-- From a nonnegative sum, a nonnegative term is either added exactly or
reported, in both overflow semantics. -/
theorem addWithinRoom_eq {sum nValue : CAmount} (hsum : 0 ≤ sum.toInt) (hvalue : 0 ≤ nValue.toInt) :
    addWithinRoom mode failure overflowed sum nValue = if sum.toInt + nValue.toInt < 2 ^ 63 then
        .ok (Int64.ofInt (sum.toInt + nValue.toInt))
      else .error failure := by
  have hroomRange : Overflow.InRange (maxMoney.toInt - sum.toInt) := by
    have hlt := sum.toInt_lt
    rw [toInt_maxMoney]
    constructor <;> omega
  have hroom : (nValue ≤ Int64.ofInt (maxMoney.toInt - sum.toInt)) ↔
      sum.toInt + nValue.toInt < 2 ^ 63 := by
    rw [Int64.le_iff_toInt_le, Overflow.toInt_ofInt hroomRange, toInt_maxMoney]
    omega
  rw [addWithinRoom, Overflow.sub_of_inRange hroomRange, ok_bind]
  by_cases hfits : sum.toInt + nValue.toInt < 2 ^ 63
  · have hrange : Overflow.InRange (sum.toInt + nValue.toInt) := by
      constructor <;> omega
    rw [decide_eq_true (hroom.mpr hfits), require_true, ok_bind,
      Overflow.add_of_inRange hrange, if_pos hfits]
  · rw [decide_eq_false (fun hle => hfits (hroom.mp hle)), require_false, error_bind, if_neg hfits]

theorem accumulate_eq {sum : CAmount} (nValue : CAmount) (hsum : 0 ≤ sum.toInt) :
    accumulate mode failure overflowed sum nValue =
      if 0 ≤ nValue.toInt ∧ sum.toInt + nValue.toInt < 2 ^ 63 then
        .ok (Int64.ofInt (sum.toInt + nValue.toInt))
      else .error failure := by
  by_cases hnonneg : 0 ≤ nValue.toInt
  · rw [accumulate, moneyRange_eq_true.mpr hnonneg, require_true, ok_bind,
      addWithinRoom_eq hsum hnonneg]
    simp only [hnonneg, true_and]
  · have hrange : moneyRange nValue = false := by
      rw [Bool.eq_false_iff]
      exact fun htrue => hnonneg (moneyRange_eq_true.mp htrue)
    rw [accumulate, hrange, require_false, error_bind, if_neg (fun hboth => hnonneg hboth.1)]

theorem accumulate_eq_ok {sum nValue result : CAmount} (hsum : 0 ≤ sum.toInt) :
    accumulate mode failure overflowed sum nValue = .ok result ↔
      0 ≤ nValue.toInt ∧ result.toInt = sum.toInt + nValue.toInt := by
  rw [accumulate_eq nValue hsum]
  split_ifs with hfits
  · have hrange : Overflow.InRange (sum.toInt + nValue.toInt) := by
      constructor <;> omega
    rw [Except.ok.injEq, ← Int64.toInt_inj, Overflow.toInt_ofInt hrange]
    constructor
    · intro heq
      exact ⟨hfits.1, heq.symm⟩
    · intro hboth
      exact hboth.2.symm
  · have hlt := result.toInt_lt
    simp only [false_iff, not_and]
    intro hnonneg heq
    exact hfits ⟨hnonneg, by omega⟩

/-- An overflow-safe sum over a list. -/
def accumulateAll (mode : Overflow) (failure overflowed : ε)
    (values : List CAmount) (sum : CAmount) : Except ε CAmount :=
  loop (accumulate mode failure overflowed) sum values

theorem accumulateAll_eq_ok {values : List CAmount} {sum result : CAmount} (hsum : 0 ≤ sum.toInt)
    (hrun : accumulateAll mode failure overflowed values sum = .ok result) :
    (∀ nValue ∈ values, 0 ≤ nValue.toInt) ∧
      result.toInt = sum.toInt + (values.map Int64.toInt).sum := by
  induction values generalizing sum with
  | nil =>
    obtain rfl : sum = result := by simpa [accumulateAll] using hrun
    simp
  | cons nValue values ih =>
    obtain ⟨next, hstep, hrest⟩ := loop_cons_eq_ok.mp hrun
    obtain ⟨hnonneg, hnext⟩ := (accumulate_eq_ok hsum).mp hstep
    obtain ⟨hall, hresult⟩ := ih (by omega) hrest
    refine ⟨?_, ?_⟩
    · intro other hmem
      rcases List.mem_cons.mp hmem with rfl | htail
      · exact hnonneg
      · exact hall other htail
    · simp only [List.map_cons, List.sum_cons]
      omega

/-- A list of nonnegative terms whose sum fits is added up exactly. -/
theorem accumulateAll_of_fits {values : List CAmount} {sum : CAmount}
    (hsum : 0 ≤ sum.toInt) (hall : ∀ nValue ∈ values, 0 ≤ nValue.toInt)
    (hfits : sum.toInt + (values.map Int64.toInt).sum < 2 ^ 63) :
    accumulateAll mode failure overflowed values sum =
      .ok (Int64.ofInt (sum.toInt + (values.map Int64.toInt).sum)) := by
  induction values generalizing sum with
  | nil => simp [accumulateAll, Int64.ofInt_toInt]
  | cons nValue values ih =>
    simp only [List.map_cons, List.sum_cons] at hfits ⊢
    have hnonneg := hall nValue List.mem_cons_self
    have hrest : ∀ other ∈ values, 0 ≤ other.toInt :=
      fun other hmem => hall other (List.mem_cons_of_mem _ hmem)
    have hrestSum : 0 ≤ (values.map Int64.toInt).sum := by
      apply List.sum_nonneg
      intro exact hmem
      obtain ⟨other, hother, rfl⟩ := List.mem_map.mp hmem
      exact hrest other hother
    have hrange : Overflow.InRange (sum.toInt + nValue.toInt) := by
      constructor <;> omega
    have hnext := Overflow.toInt_ofInt hrange
    rw [accumulateAll, loop, accumulate_eq nValue hsum, if_pos ⟨hnonneg, by omega⟩, ok_bind]
    have hind := ih (by rw [hnext]; omega) hrest (by rw [hnext]; omega)
    rw [accumulateAll, hnext, add_assoc] at hind
    exact hind

theorem accumulateAll_mode (first second : Overflow) (values : List CAmount)
    {sum : CAmount} (hsum : 0 ≤ sum.toInt) :
    accumulateAll first failure overflowed values sum =
      accumulateAll second failure overflowed values sum := by
  refine loop_congr (fun _ current => 0 ≤ current.toInt) ?_ ?_ hsum
  · intro nValue _ current hcurrent
    rw [accumulate_eq nValue hcurrent, accumulate_eq nValue hcurrent]
  · intro nValue _ current next hcurrent hstep
    obtain ⟨hnonneg, hnext⟩ := (accumulate_eq_ok hcurrent).mp hstep
    omega

end Accumulate

namespace CTransaction

variable {Result : Type} {mode : Overflow}

def getValueOut (mode : Overflow) (tx : CTransaction) :
    Except (Failure Result) CAmount :=
  accumulateAll mode (.thrown "GetValueOut: value out of range") .overflowed
    (tx.vout.map CTxOut.nValue) 0

theorem getValueOut_eq_ok {tx : CTransaction} {result : CAmount}
    (hrun : (tx.getValueOut mode : Except (Failure Result) CAmount) = .ok result) :
    (∀ out ∈ tx.vout, 0 ≤ out.value) ∧ result.toInt = tx.totalOut := by
  obtain ⟨hall, hresult⟩ := accumulateAll_eq_ok (by decide) hrun
  refine ⟨?_, ?_⟩
  · intro out hmem
    exact hall out.nValue (List.mem_map_of_mem hmem)
  · rw [hresult, totalOut, List.map_map, Int64.toInt_zero, zero_add]
    rfl

theorem getValueOut_of_fits {tx : CTransaction}
    (hall : ∀ out ∈ tx.vout, 0 ≤ out.value) (hfits : tx.totalOut < 2 ^ 63) :
    ∃ result : CAmount, result.toInt = tx.totalOut ∧
      (tx.getValueOut mode : Except (Failure Result) CAmount) = .ok result := by
  have hsum : ((tx.vout.map CTxOut.nValue).map Int64.toInt).sum = tx.totalOut := by
    rw [totalOut, List.map_map]
    rfl
  have hnonneg : ∀ nValue ∈ tx.vout.map CTxOut.nValue, 0 ≤ nValue.toInt := by
    intro nValue hmem
    obtain ⟨out, hout, rfl⟩ := List.mem_map.mp hmem
    exact hall out hout
  have htotal := totalOut_nonneg hall
  have hfitsZero : (0 : CAmount).toInt +
      ((tx.vout.map CTxOut.nValue).map Int64.toInt).sum < 2 ^ 63 := by
    rw [hsum, Int64.toInt_zero]
    omega
  refine ⟨Int64.ofInt tx.totalOut, ?_, ?_⟩
  · exact Overflow.toInt_ofInt ⟨by omega, hfits⟩
  · rw [getValueOut, accumulateAll_of_fits (by decide) hnonneg hfitsZero, hsum,
      Int64.toInt_zero, zero_add]

theorem getValueOut_mode (first second : Overflow) (tx : CTransaction) :
    (tx.getValueOut first : Except (Failure Result) CAmount) = tx.getValueOut second :=
  accumulateAll_mode first second _ (by decide)

end CTransaction

end FirstIslamicCoin
