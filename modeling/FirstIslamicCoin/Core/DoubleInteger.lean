import Mathlib.Data.Int.Order.Basic
import Mathlib.Data.Nat.Log
import Mathlib.Tactic.Linarith
import Mathlib.Tactic.Ring

/-!
# Integers in double precision

The double nearest to an integer, ties to the even significand.  Integers of at most 53 bits
are doubles; above that, neighbouring doubles lie a power of two apart, and rounding never
crosses a double.
-/

namespace FirstIslamicCoin

/-- A natural number rounded to 53 significant bits. -/
def roundNatToDouble (magnitude : ℕ) : ℕ :=
  let spacing := 2 ^ (Nat.log 2 magnitude - 52)
  let quotient := magnitude / spacing
  let remainder := magnitude % spacing
  if spacing < 2 * remainder ∨ (2 * remainder = spacing ∧ quotient % 2 = 1) then
    (quotient + 1) * spacing
  else quotient * spacing

/-- The double nearest to an integer. -/
def roundToDouble (value : ℤ) : ℤ := value.sign * roundNatToDouble value.natAbs

theorem roundNatToDouble_eq_self {magnitude : ℕ} (hsmall : magnitude ≤ 2 ^ 53) :
    roundNatToDouble magnitude = magnitude := by
  rcases hsmall.eq_or_lt with rfl | hlt
  · decide
  · have hlog : Nat.log 2 magnitude - 52 = 0 := by
      have hle : Nat.log 2 magnitude < 53 := Nat.log_lt_of_lt_pow' (by decide) hlt
      omega
    rw [roundNatToDouble, hlog]
    simp [Nat.mod_one]

theorem roundToDouble_eq_self {value : ℤ} (hlow : -2 ^ 53 ≤ value) (hhigh : value ≤ 2 ^ 53) :
    roundToDouble value = value := by
  have hsmall : value.natAbs ≤ 2 ^ 53 := by omega
  rw [roundToDouble, roundNatToDouble_eq_self hsmall, Int.sign_mul_natAbs]

theorem roundToDouble_nonpos {value : ℤ} (hvalue : value ≤ 0) : roundToDouble value ≤ 0 := by
  have hsign : value.sign ≤ 0 := by
    rcases hvalue.lt_or_eq with hneg | rfl
    · rw [Int.sign_eq_neg_one_of_neg hneg]
      decide
    · decide
  exact mul_nonpos_of_nonpos_of_nonneg hsign (Int.natCast_nonneg _)

/-- Rounding stays above a double below the number. -/
theorem pow_le_roundNatToDouble {magnitude : ℕ} (hlarge : 2 ^ 53 ≤ magnitude) :
    2 ^ 53 ≤ roundNatToDouble magnitude := by
  have hne : magnitude ≠ 0 := by
    have hpos : 0 < 2 ^ 53 := by decide
    omega
  have hlog : 53 ≤ Nat.log 2 magnitude := Nat.le_log_of_pow_le (by decide) hlarge
  have hpow : 2 ^ Nat.log 2 magnitude ≤ magnitude := Nat.pow_log_le_self 2 hne
  have hspacing : 0 < 2 ^ (Nat.log 2 magnitude - 52) := Nat.pow_pos (by decide)
  -- the quotient has its 53 bits, so rounding down keeps the leading power of two
  have hquotient : 2 ^ 52 ≤ magnitude / 2 ^ (Nat.log 2 magnitude - 52) := by
    rw [Nat.le_div_iff_mul_le hspacing, ← pow_add]
    have hexponent : 52 + (Nat.log 2 magnitude - 52) = Nat.log 2 magnitude := by omega
    rwa [hexponent]
  have htwo : 2 ≤ 2 ^ (Nat.log 2 magnitude - 52) := by
    calc 2 = 2 ^ 1 := by norm_num
      _ ≤ 2 ^ (Nat.log 2 magnitude - 52) := Nat.pow_le_pow_right (by decide) (by omega)
  have hdown : 2 ^ 53 ≤ magnitude / 2 ^ (Nat.log 2 magnitude - 52) *
      2 ^ (Nat.log 2 magnitude - 52) := by
    calc 2 ^ 53 = 2 ^ 52 * 2 := by norm_num
      _ ≤ magnitude / 2 ^ (Nat.log 2 magnitude - 52) * 2 ^ (Nat.log 2 magnitude - 52) :=
        Nat.mul_le_mul hquotient htwo
  rw [roundNatToDouble]
  split_ifs
  · exact hdown.trans (Nat.mul_le_mul_right _ (Nat.le_succ _))
  · exact hdown

theorem pow_le_roundToDouble {value : ℤ} (hlarge : 2 ^ 53 ≤ value) :
    2 ^ 53 ≤ roundToDouble value := by
  have hpositive : 0 < value := by omega
  have hnat : 2 ^ 53 ≤ value.natAbs := by omega
  have hround := pow_le_roundNatToDouble hnat
  rw [roundToDouble, Int.sign_eq_one_of_pos hpositive, one_mul]
  exact_mod_cast hround

/-- Between the powers 53 and 54 the doubles are the even numbers. -/
theorem roundNatToDouble_of_lt {magnitude : ℕ} (hlow : 2 ^ 53 ≤ magnitude)
    (hhigh : magnitude < 2 ^ 54) :
    2 ∣ roundNatToDouble magnitude ∧
      (2 ∣ magnitude → roundNatToDouble magnitude = magnitude) := by
  have hlog : Nat.log 2 magnitude = 53 := Nat.log_eq_of_pow_le_of_lt_pow hlow hhigh
  have hspacing : 2 ^ (Nat.log 2 magnitude - 52) = 2 := by rw [hlog]; rfl
  rw [roundNatToDouble, hspacing]
  split_ifs with hup
  · refine ⟨Nat.dvd_mul_left 2 _, fun heven => ?_⟩
    omega
  · exact ⟨Nat.dvd_mul_left 2 _, fun heven => Nat.div_mul_cancel heven⟩

theorem roundToDouble_eq_self_iff {value : ℤ} (hlow : -2 ^ 53 ≤ value) (hhigh : value < 2 ^ 54) :
    roundToDouble value = value ↔ value ≤ 2 ^ 53 ∨ 2 ∣ value := by
  by_cases hsmall : value ≤ 2 ^ 53
  · exact iff_of_true (roundToDouble_eq_self hlow hsmall) (.inl hsmall)
  · have hround := @roundNatToDouble_of_lt value.natAbs (by omega) (by omega)
    have hvalue : roundToDouble value = (roundNatToDouble value.natAbs : ℤ) := by
      rw [roundToDouble, Int.sign_eq_one_of_pos (by omega), one_mul]
    rw [hvalue]
    constructor
    · intro hself
      right
      rw [← hself]
      exact_mod_cast hround.1
    · rintro (hle | heven)
      · exact absurd hle hsmall
      · have hnat : 2 ∣ value.natAbs := by omega
        rw [hround.2 hnat]
        omega

end FirstIslamicCoin
