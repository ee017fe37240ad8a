import FirstIslamicCoin.Chain.Pow
import FirstIslamicCoin.Core.Limbs

/-!
# 256-bit arithmetic

`arith_uint256` as eight limbs of 32 bits with the loops of `base_uint`, and that
these compute products, quotients, comparisons and compact targets of the
numbers the limbs stand for.
-/

namespace FirstIslamicCoin

/-- `arith_uint256`, that is `base_uint<256>`. -/
structure ArithUInt256 where
  pn : List (BitVec 32)
  length_eq : pn.length = 8

namespace ArithUInt256

def toNat (number : ArithUInt256) : ℕ := Limbs.value number.pn

/-- `base_uint(uint64_t)`. -/
def ofUInt64 (number : UInt64) : ArithUInt256 where
  pn := [BitVec.ofNat 32 number.toNat, BitVec.ofNat 32 (number.toNat / 2 ^ 32),
    0#32, 0#32, 0#32, 0#32, 0#32, 0#32]
  length_eq := rfl

/-- `UintToArith256`, which reads eight little-endian words. -/
def ofUInt256 (number : UInt256) : ArithUInt256 where
  pn := Limbs.ofNat 32 8 number.toNat
  length_eq := Limbs.length_ofNat 32 8 number.toNat

def complement (number : ArithUInt256) : ArithUInt256 where
  pn := number.pn.map fun limb => ~~~limb
  length_eq := (List.length_map _).trans number.length_eq

/-- `operator<<=`. -/
def shiftLeft (number : ArithUInt256) (shift : ℕ) : ArithUInt256 where
  pn := Limbs.shiftLeft number.pn shift
  length_eq := (Limbs.value_shiftLeft (by decide) number.pn shift).1.trans number.length_eq

/-- `operator*=(const base_uint&)`. -/
def mul (left right : ArithUInt256) : ArithUInt256 where
  pn := Limbs.mul left.pn right.pn
  length_eq := (Limbs.value_mul (left.length_eq.trans right.length_eq.symm)).1.trans
    left.length_eq

def compareTo (left right : ArithUInt256) : Ordering := Limbs.compareTo left.pn right.pn

/-- `operator/=`, which throws on a division by zero. -/
def div (num divisor : ArithUInt256) : Option ArithUInt256 :=
  match hdiv : Limbs.div num.pn divisor.pn with
  | none => none
  | some quotient => some
      { pn := quotient
        length_eq := (Limbs.div_eq_some (by decide)
          (num.length_eq.trans divisor.length_eq.symm) hdiv).1.trans num.length_eq }

def setCompact (nCompact : UInt32) : ArithUInt256 :=
  let nSize := nCompact.toNat / 2 ^ 24
  let nWord := nCompact.toNat % 2 ^ 23
  if nSize ≤ 3 then ofUInt64 (UInt64.ofNat (nWord / 2 ^ (8 * (3 - nSize))))
  else (ofUInt64 (UInt64.ofNat nWord)).shiftLeft (8 * (nSize - 3))

@[simp]
theorem toNat_ofUInt64 (number : UInt64) : (ofUInt64 number).toNat = number.toNat := by
  have hlt := number.toNat_lt
  simp only [toNat, ofUInt64, Limbs.value_cons, Limbs.value_nil, BitVec.toNat_ofNat]
  omega

@[simp]
theorem toNat_ofUInt256 (number : UInt256) : (ofUInt256 number).toNat = number.toNat := by
  rw [toNat, ofUInt256, Limbs.value_ofNat]
  exact Nat.mod_eq_of_lt number.isLt

theorem toNat_complement (number : ArithUInt256) :
    number.complement.toNat = 2 ^ 256 - 1 - number.toNat := by
  have hsum := Limbs.value_complement number.pn
  rw [number.length_eq] at hsum
  simp only [toNat, complement]
  omega

theorem toNat_shiftLeft (number : ArithUInt256) (shift : ℕ) :
    (number.shiftLeft shift).toNat = number.toNat * 2 ^ shift % 2 ^ 256 := by
  rw [toNat, shiftLeft, (Limbs.value_shiftLeft (by decide) number.pn shift).2, number.length_eq]
  rfl

theorem toNat_mul (left right : ArithUInt256) :
    (left.mul right).toNat = left.toNat * right.toNat % 2 ^ 256 := by
  rw [toNat, mul, (Limbs.value_mul (left.length_eq.trans right.length_eq.symm)).2, left.length_eq]
  rfl

theorem compareTo_eq (left right : ArithUInt256) :
    left.compareTo right = compare left.toNat right.toNat :=
  Limbs.compareTo_eq (left.length_eq.trans right.length_eq.symm)

theorem exists_div (num : ArithUInt256) {divisor : ArithUInt256} (hpos : 0 < divisor.toNat) :
    ∃ quotient, num.div divisor = some quotient ∧
      quotient.toNat = num.toNat / divisor.toNat := by
  have hlength := num.length_eq.trans divisor.length_eq.symm
  obtain ⟨limbs, hlimbs, -, hvalue⟩ := Limbs.value_div (by decide) hlength hpos
  rw [div]
  split
  next hnone => rw [hnone] at hlimbs; simp at hlimbs
  next quotient hsome =>
    refine ⟨_, rfl, ?_⟩
    rw [hsome, Option.some.injEq] at hlimbs
    change Limbs.value quotient = _
    rw [hlimbs]
    exact hvalue

/-- The limbs decode a compact target as its number. -/
theorem toNat_setCompact (nCompact : UInt32) :
    (setCompact nCompact).toNat = (FirstIslamicCoin.setCompact nCompact).target := by
  have hmantissa : nCompact.toNat % 2 ^ 23 < 2 ^ 64 := by omega
  simp only [setCompact, FirstIslamicCoin.setCompact]
  split_ifs with hsize
  · rw [toNat_ofUInt64, UInt64.toNat_ofNat']
    exact Nat.mod_eq_of_lt ((Nat.div_le_self _ _).trans_lt hmantissa)
  · rw [toNat_shiftLeft, toNat_ofUInt64, UInt64.toNat_ofNat', Nat.mod_eq_of_lt hmantissa]

end ArithUInt256

end FirstIslamicCoin
