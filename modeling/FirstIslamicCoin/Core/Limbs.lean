import Mathlib

/-!
# Numbers in limbs

A number of fixed size is a list of words of `width` bits, least significant
first.  The operations are the loops that compute on such lists with a double
word for a product and its carry: what leaves the last limb is dropped.  Each
comes with its meaning on `value`, the number a list of limbs stands for.
-/

namespace FirstIslamicCoin.Limbs

variable {width : ℕ}

def value : List (BitVec width) → ℕ
  | [] => 0
  | limb :: limbs => limb.toNat + 2 ^ width * value limbs

section Value

@[simp]
theorem value_nil : value ([] : List (BitVec width)) = 0 := rfl

@[simp]
theorem value_cons (limb : BitVec width) (limbs : List (BitVec width)) :
    value (limb :: limbs) = limb.toNat + 2 ^ width * value limbs := rfl

theorem value_lt (limbs : List (BitVec width)) :
    value limbs < (2 ^ width) ^ limbs.length := by
  induction limbs with
  | nil => simp
  | cons limb limbs ih =>
    have hlimb := limb.isLt
    rw [value_cons, List.length_cons, pow_succ']
    calc limb.toNat + 2 ^ width * value limbs
        < 2 ^ width + 2 ^ width * value limbs := by omega
      _ = 2 ^ width * (value limbs + 1) := by ring
      _ ≤ 2 ^ width * (2 ^ width) ^ limbs.length := Nat.mul_le_mul_left _ ih

theorem value_append (low high : List (BitVec width)) :
    value (low ++ high) = value low + (2 ^ width) ^ low.length * value high := by
  induction low with
  | nil => simp
  | cons limb low ih =>
    rw [List.cons_append, value_cons, value_cons, ih, List.length_cons, pow_succ']
    ring

def zeros (width length : ℕ) : List (BitVec width) :=
  List.replicate length (BitVec.ofNat width 0)

@[simp]
theorem length_zeros (width length : ℕ) : (zeros width length).length = length :=
  List.length_replicate

@[simp]
theorem value_zeros (width length : ℕ) : value (zeros width length) = 0 := by
  induction length with
  | zero => rfl
  | succ length ih =>
    change (BitVec.ofNat width 0).toNat + 2 ^ width * value (zeros width length) = 0
    rw [ih]
    simp

theorem value_take_add_drop (limbs : List (BitVec width)) {position : ℕ}
    (hposition : position ≤ limbs.length) :
    value (limbs.take position) + (2 ^ width) ^ position * value (limbs.drop position) =
      value limbs := by
  have hsplit := value_append (limbs.take position) (limbs.drop position)
  rw [List.take_append_drop, List.length_take, min_eq_left hposition] at hsplit
  exact hsplit.symm

theorem value_eq_of_modEq {limbs : List (BitVec width)} {number : ℕ}
    (hmodEq : value limbs ≡ number [MOD (2 ^ width) ^ limbs.length]) :
    value limbs = number % (2 ^ width) ^ limbs.length := by
  rw [← hmodEq, Nat.mod_eq_of_lt (value_lt limbs)]

/-- The limbs of a number, as many as asked for. -/
def ofNat (width : ℕ) : ℕ → ℕ → List (BitVec width)
  | 0, _ => []
  | length + 1, number =>
      BitVec.ofNat width number :: ofNat width length (number / 2 ^ width)

@[simp]
theorem length_ofNat (width length number : ℕ) :
    (ofNat width length number).length = length := by
  induction length generalizing number with
  | zero => rfl
  | succ length ih => rw [ofNat, List.length_cons, ih]

theorem value_ofNat (width length number : ℕ) :
    value (ofNat width length number) = number % (2 ^ width) ^ length := by
  induction length generalizing number with
  | zero => rw [pow_zero, Nat.mod_one, ofNat, value_nil]
  | succ length ih => rw [ofNat, value_cons, ih, BitVec.toNat_ofNat, pow_succ', Nat.mod_mul]

end Value

section Product

/-- The digit and the carry of a double word. -/
theorem toNat_ofNat_add_div (number : ℕ) :
    (BitVec.ofNat width number).toNat + 2 ^ width * (number / 2 ^ width) = number := by
  rw [BitVec.toNat_ofNat, Nat.mod_add_div]

/-- Prepending a digit turns a congruence of the higher limbs into one of all. -/
theorem modEq_cons {number high : ℕ} {limbs : List (BitVec width)}
    (hhigh : value limbs ≡ number / 2 ^ width + high [MOD (2 ^ width) ^ limbs.length]) :
    value (BitVec.ofNat width number :: limbs) ≡ number + 2 ^ width * high
      [MOD (2 ^ width) ^ (limbs.length + 1)] := by
  rw [value_cons, pow_succ']
  calc (BitVec.ofNat width number).toNat + 2 ^ width * value limbs
      ≡ (BitVec.ofNat width number).toNat + 2 ^ width * (number / 2 ^ width + high)
        [MOD 2 ^ width * (2 ^ width) ^ limbs.length] := (hhigh.mul_left' (2 ^ width)).add_left _
    _ = number + 2 ^ width * high := by
        rw [Nat.mul_add, ← Nat.add_assoc, toNat_ofNat_add_div]

/-- A carry, two words and a product of words fit a double word. -/
theorem mulAdd_lt {carry : ℕ} (hcarry : carry < 2 ^ width) (addend factor word : BitVec width) :
    carry + addend.toNat + factor.toNat * word.toNat < 2 ^ (2 * width) := by
  have haddend := addend.isLt
  have hproduct : factor.toNat * word.toNat ≤ (2 ^ width - 1) * (2 ^ width - 1) :=
    Nat.mul_le_mul (by have := factor.isLt; omega) (by have := word.isLt; omega)
  have hsquare : (2 ^ width - 1) * (2 ^ width - 1) + 2 * (2 ^ width - 1) + 1 = 2 ^ (2 * width) := by
    obtain ⟨largest, hlargest⟩ := Nat.exists_eq_succ_of_ne_zero (Nat.two_pow_pos width).ne'
    rw [mul_comm 2 width, pow_mul, hlargest, Nat.succ_sub_one, Nat.succ_eq_add_one]
    ring
  omega

/-- Add `factor * number` to some limbs, with a carry.  The number has at least as
many limbs. -/
def mulAddRow (factor : BitVec width) : ℕ → List (BitVec width) → List (BitVec width) →
    List (BitVec width)
  | carry, addend :: addends, word :: number =>
      let n := (carry + addend.toNat + factor.toNat * word.toNat) % 2 ^ (2 * width)
      BitVec.ofNat width n :: mulAddRow factor (n / 2 ^ width) addends number
  | _, _, _ => []

theorem mulAddRow_spec (factor : BitVec width) {carry : ℕ} (hcarry : carry < 2 ^ width)
    {addends number : List (BitVec width)} (hlength : addends.length ≤ number.length) :
    (mulAddRow factor carry addends number).length = addends.length ∧
      value (mulAddRow factor carry addends number) ≡
        carry + value addends + factor.toNat * value number
        [MOD (2 ^ width) ^ addends.length] := by
  induction addends generalizing carry number with
  | nil => simp [mulAddRow, Nat.modEq_one]
  | cons addend addends ih =>
    cases number with
    | nil => simp at hlength
    | cons word number =>
      have hfits := mulAdd_lt hcarry addend factor word
      have hnext : (carry + addend.toNat + factor.toNat * word.toNat) / 2 ^ width < 2 ^ width := by
        rw [Nat.div_lt_iff_lt_mul (Nat.two_pow_pos width), ← pow_add, ← two_mul]
        exact hfits
      obtain ⟨hrest, hvalue⟩ := ih hnext (Nat.le_of_succ_le_succ hlength)
      rw [mulAddRow, Nat.mod_eq_of_lt hfits]
      refine ⟨by simp [hrest], ?_⟩
      generalize mulAddRow factor _ addends number = rest at *
      rw [← hrest, Nat.add_assoc (_ / _)] at hvalue
      have hall := modEq_cons hvalue
      rw [hrest] at hall
      have hsum : carry + value (addend :: addends) + factor.toNat * value (word :: number) =
          carry + addend.toNat + factor.toNat * word.toNat +
            2 ^ width * (value addends + factor.toNat * value number) := by
        simp only [value_cons]
        ring
      rw [hsum, List.length_cons]
      exact hall

/-- The rows of the schoolbook product, each starting one limb higher. -/
def mulRows (number : List (BitVec width)) : ℕ → List (BitVec width) →
    List (BitVec width) → List (BitVec width)
  | _, [], product => product
  | position, factor :: factors, product =>
      mulRows number (position + 1) factors
        (product.take position ++ mulAddRow factor 0 (product.drop position) number)

/-- The product of two numbers in as many limbs as the first has. -/
def mul (factors number : List (BitVec width)) : List (BitVec width) :=
  mulRows number 0 factors (zeros width factors.length)

/-- One row adds `factor * number` at its position. -/
theorem mulRow_spec (factor : BitVec width) {position : ℕ} {product number : List (BitVec width)}
    (hlength : product.length ≤ number.length) (hposition : position ≤ product.length) :
    let row := product.take position ++ mulAddRow factor 0 (product.drop position) number
    row.length = product.length ∧ value row ≡
      value product + (2 ^ width) ^ position * (factor.toNat * value number)
        [MOD (2 ^ width) ^ product.length] := by
  have hdrop : (product.drop position).length ≤ number.length := by
    rw [List.length_drop]
    omega
  obtain ⟨hrest, hvalue⟩ := mulAddRow_spec factor (Nat.two_pow_pos width) hdrop
  have htake : (product.take position).length = position := by
    rw [List.length_take, min_eq_left hposition]
  refine ⟨?_, ?_⟩
  · rw [List.length_append, hrest, htake, List.length_drop]
    omega
  · have hscaled := hvalue.mul_left' ((2 ^ width) ^ position)
    have hmodulus : (2 ^ width) ^ position * (2 ^ width) ^ (product.drop position).length =
        (2 ^ width) ^ product.length := by
      rw [← pow_add, List.length_drop]
      congr 1
      omega
    rw [hmodulus] at hscaled
    rw [value_append, htake, ← value_take_add_drop product hposition]
    have hall := hscaled.add_left (value (product.take position))
    rw [Nat.zero_add, Nat.mul_add, ← Nat.add_assoc] at hall
    exact hall

theorem mulRows_spec {number factors product : List (BitVec width)} {position : ℕ}
    (hlength : product.length ≤ number.length)
    (hposition : position + factors.length ≤ product.length) :
    (mulRows number position factors product).length = product.length ∧
      value (mulRows number position factors product) ≡
        value product + (2 ^ width) ^ position * (value factors * value number)
        [MOD (2 ^ width) ^ product.length] := by
  induction factors generalizing position product with
  | nil => simp [mulRows]; rfl
  | cons factor factors ih =>
    rw [List.length_cons] at hposition
    obtain ⟨hrow, hvalue⟩ := mulRow_spec factor hlength (show position ≤ product.length by omega)
    obtain ⟨hrest, hall⟩ := ih (hrow.trans_le hlength)
      (show position + 1 + factors.length ≤ _ by rw [hrow]; omega)
    rw [hrow] at hrest hall
    refine ⟨hrest, hall.trans ?_⟩
    have hsum : value product + (2 ^ width) ^ position *
          (value (factor :: factors) * value number) =
        value product + (2 ^ width) ^ position * (factor.toNat * value number) +
          (2 ^ width) ^ (position + 1) * (value factors * value number) := by
      rw [value_cons]
      ring
    rw [hsum]
    exact hvalue.add_right _

/-- The product drops what exceeds its limbs. -/
theorem value_mul {factors number : List (BitVec width)}
    (hlength : factors.length = number.length) :
    (mul factors number).length = factors.length ∧ value (mul factors number) =
      value factors * value number % (2 ^ width) ^ factors.length := by
  have hzero := length_zeros width factors.length
  obtain ⟨hsame, hvalue⟩ := mulRows_spec (hzero.trans hlength).le
    (show 0 + factors.length ≤ (zeros width factors.length).length by omega)
  rw [hzero, value_zeros, pow_zero, Nat.one_mul, Nat.zero_add] at hvalue
  rw [hzero] at hsame
  change (mul factors number).length = _ at hsame
  change value (mul factors number) ≡ _ [MOD _] at hvalue
  refine ⟨hsame, ?_⟩
  rw [← hsame] at hvalue ⊢
  exact value_eq_of_modEq hvalue

end Product

section Difference

def add (left right : List (BitVec width)) : List (BitVec width) :=
  mulAddRow (BitVec.ofNat width 1) 0 left right

/-- Count up: a limb that wraps to zero carries into the next. -/
def increment : List (BitVec width) → List (BitVec width)
  | [] => []
  | limb :: limbs =>
      let next := limb + BitVec.ofNat width 1
      if next = BitVec.ofNat width 0 then next :: increment limbs else next :: limbs

def neg (limbs : List (BitVec width)) : List (BitVec width) :=
  increment (limbs.map fun limb => ~~~limb)

def sub (left right : List (BitVec width)) : List (BitVec width) := add left (neg right)

@[simp]
theorem length_increment (limbs : List (BitVec width)) :
    (increment limbs).length = limbs.length := by
  induction limbs with
  | nil => rfl
  | cons limb limbs ih =>
    rw [increment]
    split_ifs <;> simp [ih]

@[simp]
theorem length_neg (limbs : List (BitVec width)) : (neg limbs).length = limbs.length := by
  rw [neg, length_increment, List.length_map]

theorem value_complement (limbs : List (BitVec width)) :
    value (limbs.map fun limb => ~~~limb) + value limbs + 1 = (2 ^ width) ^ limbs.length := by
  induction limbs with
  | nil => rfl
  | cons limb limbs ih =>
    have hlimb := limb.isLt
    rw [List.map_cons, value_cons, value_cons, BitVec.toNat_not, List.length_cons,
      pow_succ', ← ih, Nat.mul_add, Nat.mul_add]
    omega

theorem value_increment (hwidth : 0 < width) (limbs : List (BitVec width)) :
    value (increment limbs) ≡ value limbs + 1 [MOD (2 ^ width) ^ limbs.length] := by
  have hone : 1 < 2 ^ width := Nat.one_lt_two_pow hwidth.ne'
  induction limbs with
  | nil => simp [Nat.modEq_one]
  | cons limb limbs ih =>
    have hlimb := limb.isLt
    have hnext : (limb + BitVec.ofNat width 1).toNat = (limb.toNat + 1) % 2 ^ width := by
      rw [BitVec.toNat_add, BitVec.toNat_one hwidth]
    rw [increment, List.length_cons, value_cons]
    split_ifs with hwrap
    · have hlast : limb.toNat + 1 = 2 ^ width := by
        rw [hwrap, BitVec.toNat_zero] at hnext
        by_contra hne
        rw [Nat.mod_eq_of_lt (by omega)] at hnext
        omega
      have hscaled := ih.mul_left' (2 ^ width)
      rw [value_cons, hwrap, BitVec.toNat_zero, Nat.zero_add, pow_succ']
      have hsum : limb.toNat + 2 ^ width * value limbs + 1 = 2 ^ width * (value limbs + 1) := by
        rw [Nat.mul_add, Nat.mul_one]
        omega
      rw [hsum]
      exact hscaled
    · have hlt : limb.toNat + 1 < 2 ^ width := by
        by_contra hge
        apply hwrap
        apply BitVec.eq_of_toNat_eq
        rw [hnext, show limb.toNat + 1 = 2 ^ width by omega, Nat.mod_self]
        rfl
      rw [value_cons, hnext, Nat.mod_eq_of_lt hlt, Nat.add_right_comm]

variable {left right : List (BitVec width)}

theorem length_add (hlength : left.length = right.length) :
    (add left right).length = left.length :=
  (mulAddRow_spec (BitVec.ofNat width 1) (Nat.two_pow_pos width) hlength.le).1

theorem length_sub (hlength : left.length = right.length) :
    (sub left right).length = left.length :=
  length_add (hlength.trans (length_neg right).symm)

/-- A difference that is not negative is exact. -/
theorem value_sub (hwidth : 0 < width) (hlength : left.length = right.length)
    (hle : value right ≤ value left) : value (sub left right) = value left - value right := by
  have hneg : value (neg right) ≡ (2 ^ width) ^ left.length - value right
      [MOD (2 ^ width) ^ left.length] := by
    have hincrement := value_increment hwidth (right.map fun limb => ~~~limb)
    have hcomplement := value_complement right
    rw [List.length_map, ← hlength] at hincrement
    rw [← hlength] at hcomplement
    rwa [show value (right.map fun limb => ~~~limb) + 1 =
      (2 ^ width) ^ left.length - value right by omega] at hincrement
  have hsum := (mulAddRow_spec (BitVec.ofNat width 1) (Nat.two_pow_pos width)
    (hlength.trans (length_neg right).symm).le).2
  rw [Nat.zero_add, BitVec.toNat_one hwidth, Nat.one_mul] at hsum
  have hsame := length_sub hlength
  have hright := value_lt right
  rw [← hlength] at hright
  have hall : value (sub left right) ≡ value left - value right
      [MOD (2 ^ width) ^ (sub left right).length] := by
    rw [hsame]
    calc value (sub left right)
        ≡ value left + value (neg right) [MOD (2 ^ width) ^ left.length] := hsum
      _ ≡ value left + ((2 ^ width) ^ left.length - value right)
          [MOD (2 ^ width) ^ left.length] := hneg.add_left _
      _ = value left - value right + (2 ^ width) ^ left.length := by omega
      _ ≡ value left - value right [MOD (2 ^ width) ^ left.length] := Nat.add_modEq_right
  rw [value_eq_of_modEq hall, hsame]
  exact Nat.mod_eq_of_lt ((Nat.sub_le _ _).trans_lt (value_lt left))

end Difference

section Order

/-- Compare from the highest limb down. -/
def compareTo : List (BitVec width) → List (BitVec width) → Ordering
  | left :: lefts, right :: rights =>
      (compareTo lefts rights).then (compare left.toNat right.toNat)
  | _, _ => .eq

theorem compareTo_eq {left right : List (BitVec width)} (hlength : left.length = right.length) :
    compareTo left right = compare (value left) (value right) := by
  induction left generalizing right with
  | nil =>
    rw [List.eq_nil_of_length_eq_zero hlength.symm]
    rfl
  | cons limb lefts ih =>
    cases right with
    | nil => simp at hlength
    | cons other rights =>
      rw [compareTo, ih (Nat.succ.inj hlength), value_cons, value_cons]
      have hlimb := limb.isLt
      have hother := other.isLt
      rcases Nat.lt_trichotomy (value lefts) (value rights) with hlt | heq | hgt
      · have hscaled : 2 ^ width * (value lefts + 1) ≤ 2 ^ width * value rights :=
          Nat.mul_le_mul_left _ hlt
        rw [Nat.compare_eq_lt.mpr hlt, eq_comm]
        exact Nat.compare_eq_lt.mpr (by rw [Nat.mul_add] at hscaled; omega)
      · rw [heq, Nat.compare_eq_eq.mpr rfl]
        change compare limb.toNat other.toNat = _
        simp only [Nat.compare_eq_ite_lt, Nat.add_lt_add_iff_right]
      · have hscaled : 2 ^ width * (value rights + 1) ≤ 2 ^ width * value lefts :=
          Nat.mul_le_mul_left _ hgt
        rw [Nat.compare_eq_gt.mpr hgt, eq_comm]
        exact Nat.compare_eq_gt.mpr (by rw [Nat.mul_add] at hscaled; omega)

end Order

section Bits

/-- The highest set bit of a word that is not zero, searched from a bit down. -/
def topBit (limb : BitVec width) : ℕ → ℕ
  | 0 => 1
  | nbits + 1 => if limb.getLsbD (nbits + 1) then nbits + 2 else topBit limb nbits

def bits : List (BitVec width) → ℕ
  | [] => 0
  | limb :: limbs =>
      if bits limbs = 0 then if limb = BitVec.ofNat width 0 then 0 else topBit limb (width - 1)
      else width + bits limbs

theorem topBit_eq {limb : BitVec width} (hne : limb.toNat ≠ 0) {nbits : ℕ}
    (hlt : limb.toNat < 2 ^ (nbits + 1)) : topBit limb nbits = limb.toNat.size := by
  induction nbits with
  | zero =>
    have hone : limb.toNat = 1 := by omega
    rw [topBit, hone, Nat.size_one]
  | succ nbits ih =>
    rw [topBit, BitVec.getLsbD, Nat.testBit_eq_decide_div_mod_eq]
    split_ifs with hbit
    · have hge : 2 ^ (nbits + 1) ≤ limb.toNat := by
        by_contra hsmall
        rw [Nat.div_eq_of_lt (by omega)] at hbit
        simp at hbit
      have hupper := Nat.size_le.mpr hlt
      have hlower := Nat.lt_size.mpr hge
      omega
    · refine ih ?_
      by_contra hge
      apply hbit
      have hdigit : limb.toNat / 2 ^ (nbits + 1) = 1 := by
        apply Nat.div_eq_of_lt_le
        · omega
        · rw [pow_succ] at hlt
          omega
      rw [hdigit]
      rfl

theorem size_add_mul {low high : ℕ} (hlow : low < 2 ^ width) (hhigh : high ≠ 0) :
    (low + 2 ^ width * high).size = width + high.size := by
  have hpos : 0 < high.size := Nat.size_pos.mpr (Nat.pos_of_ne_zero hhigh)
  have hupper : (low + 2 ^ width * high).size ≤ width + high.size := by
    rw [Nat.size_le, pow_add]
    calc low + 2 ^ width * high < 2 ^ width * (high + 1) := by rw [Nat.mul_add]; omega
      _ ≤ 2 ^ width * 2 ^ high.size := Nat.mul_le_mul_left _ (Nat.lt_size_self high)
  have hlower : width + (high.size - 1) < (low + 2 ^ width * high).size := by
    rw [Nat.lt_size, pow_add]
    have hbit : 2 ^ (high.size - 1) ≤ high := Nat.lt_size.mp (by omega)
    have hscaled := Nat.mul_le_mul_left (2 ^ width) hbit
    omega
  omega

theorem bits_eq (limbs : List (BitVec width)) : bits limbs = (value limbs).size := by
  induction limbs with
  | nil => rfl
  | cons limb limbs ih =>
    have hlimb := limb.isLt
    rw [bits, ih, value_cons]
    by_cases hhigh : value limbs = 0
    · rw [hhigh, Nat.size_zero, if_pos rfl, Nat.mul_zero, Nat.add_zero]
      split_ifs with hzero
      · rw [hzero, BitVec.toNat_zero, Nat.size_zero]
      · have hne : limb.toNat ≠ 0 := fun heq => hzero (BitVec.eq_of_toNat_eq heq)
        refine topBit_eq hne ?_
        rcases Nat.eq_zero_or_pos width with rfl | hwidth
        · omega
        · rwa [Nat.sub_add_cancel hwidth]
    · rw [if_neg (by rwa [Nat.size_eq_zero]), size_add_mul hlimb hhigh]

end Bits

section Shifts

/-- Shift each limb and take in what the one below shifted out. -/
def shiftLeftBits (shift : ℕ) : BitVec width → List (BitVec width) → List (BitVec width)
  | _, [] => []
  | carry, limb :: limbs =>
      (limb <<< shift ||| carry) :: shiftLeftBits shift (limb >>> (width - shift)) limbs

/-- Shift by whole limbs and by the bits that remain. -/
def shiftLeft (limbs : List (BitVec width)) (shift : ℕ) : List (BitVec width) :=
  (zeros width (shift / width) ++
    shiftLeftBits (shift % width) (BitVec.ofNat width 0) limbs).take limbs.length

/-- Shift each limb and take in what the one above shifts out. -/
def shiftRightBits (shift : ℕ) : List (BitVec width) → List (BitVec width)
  | [] => []
  | limb :: limbs =>
      (limb >>> shift ||| limbs.headD (BitVec.ofNat width 0) <<< (width - shift)) ::
        shiftRightBits shift limbs

def shiftRight (limbs : List (BitVec width)) (shift : ℕ) : List (BitVec width) :=
  shiftRightBits (shift % width) (limbs.drop (shift / width)) ++
    zeros width (min (shift / width) limbs.length)

variable {shift : ℕ}

/-- A limb shifted left: what stays above the carry, and what is shifted out. -/
theorem shiftLeftLimb (hshift : shift ≤ width) (limb carry : BitVec width)
    (hcarry : carry.toNat < 2 ^ shift) :
    limb <<< shift ||| carry = BitVec.ofNat width (limb.toNat * 2 ^ shift + carry.toNat) ∧
      (limb.toNat * 2 ^ shift + carry.toNat) / 2 ^ width = (limb >>> (width - shift)).toNat := by
  obtain ⟨rest, rfl⟩ := Nat.exists_eq_add_of_le hshift
  have hlow := Nat.mod_lt limb.toNat (Nat.two_pow_pos rest)
  have hout : (limb >>> (shift + rest - shift)).toNat = limb.toNat / 2 ^ rest := by
    rw [BitVec.toNat_ushiftRight, Nat.shiftRight_eq_div_pow, Nat.add_sub_cancel_left]
  have hscaled : limb.toNat * 2 ^ shift =
      2 ^ shift * (limb.toNat % 2 ^ rest) + 2 ^ (shift + rest) * (limb.toNat / 2 ^ rest) := by
    rw [pow_add, mul_assoc, ← Nat.mul_add, Nat.mod_add_div, mul_comm]
  have hfits : 2 ^ shift * (limb.toNat % 2 ^ rest) + carry.toNat < 2 ^ (shift + rest) := by
    calc 2 ^ shift * (limb.toNat % 2 ^ rest) + carry.toNat
        < 2 ^ shift * (limb.toNat % 2 ^ rest + 1) := by rw [Nat.mul_add]; omega
      _ ≤ 2 ^ (shift + rest) := by
          rw [pow_add]
          exact Nat.mul_le_mul_left _ hlow
  have hkept : 2 ^ shift * (limb.toNat % 2 ^ rest) < 2 ^ (shift + rest) := by omega
  rw [hout, hscaled]
  refine ⟨?_, ?_⟩
  · apply BitVec.eq_of_toNat_eq
    rw [BitVec.toNat_or, BitVec.toNat_shiftLeft, Nat.shiftLeft_eq, hscaled,
      BitVec.toNat_ofNat, Nat.add_mul_mod_self_left, Nat.mod_eq_of_lt hkept,
      Nat.add_right_comm, Nat.add_mul_mod_self_left, Nat.mod_eq_of_lt hfits,
      Nat.two_pow_add_eq_or_of_lt hcarry]
  · rw [Nat.add_right_comm, Nat.add_mul_div_left _ _ (Nat.two_pow_pos _),
      Nat.div_eq_of_lt hfits, Nat.zero_add]

theorem shiftLeftBits_spec (hshift : shift ≤ width) {carry : BitVec width}
    (hcarry : carry.toNat < 2 ^ shift) (limbs : List (BitVec width)) :
    (shiftLeftBits shift carry limbs).length = limbs.length ∧
      value (shiftLeftBits shift carry limbs) ≡ value limbs * 2 ^ shift + carry.toNat
        [MOD (2 ^ width) ^ limbs.length] := by
  induction limbs generalizing carry with
  | nil => simp [shiftLeftBits, Nat.modEq_one]
  | cons limb limbs ih =>
    obtain ⟨hdigit, hout⟩ := shiftLeftLimb hshift limb carry hcarry
    have hnext : (limb >>> (width - shift)).toNat < 2 ^ shift := by
      rw [BitVec.toNat_ushiftRight, Nat.shiftRight_eq_div_pow,
        Nat.div_lt_iff_lt_mul (Nat.two_pow_pos _), ← pow_add, Nat.add_sub_cancel' hshift]
      exact limb.isLt
    obtain ⟨hlength, hvalue⟩ := ih hnext
    rw [shiftLeftBits, hdigit]
    refine ⟨by simp [hlength], ?_⟩
    rw [← hlength, Nat.add_comm, ← hout] at hvalue
    have hall := modEq_cons hvalue
    rw [hlength] at hall
    have hsum : value (limb :: limbs) * 2 ^ shift + carry.toNat =
        limb.toNat * 2 ^ shift + carry.toNat + 2 ^ width * (value limbs * 2 ^ shift) := by
      rw [value_cons]
      ring
    rw [hsum, List.length_cons]
    exact hall

/-- Dropping the limbs above a position is a remainder. -/
theorem value_take_modEq (limbs : List (BitVec width)) {position : ℕ}
    (hposition : position ≤ limbs.length) :
    value (limbs.take position) ≡ value limbs [MOD (2 ^ width) ^ position] := by
  rw [← value_take_add_drop limbs hposition, Nat.ModEq, Nat.add_mul_mod_self_left]

theorem value_shiftLeft (hwidth : 0 < width) (limbs : List (BitVec width)) (shift : ℕ) :
    (shiftLeft limbs shift).length = limbs.length ∧
      value (shiftLeft limbs shift) = value limbs * 2 ^ shift % (2 ^ width) ^ limbs.length := by
  obtain ⟨hlength, hvalue⟩ := shiftLeftBits_spec (Nat.mod_lt shift hwidth).le
    (show (BitVec.ofNat width 0).toNat < 2 ^ (shift % width) from Nat.two_pow_pos _) limbs
  rw [BitVec.toNat_zero, Nat.add_zero] at hvalue
  have hlong : limbs.length ≤ (zeros width (shift / width) ++
      shiftLeftBits (shift % width) (BitVec.ofNat width 0) limbs).length := by
    rw [List.length_append, hlength]
    omega
  have hsame : (shiftLeft limbs shift).length = limbs.length := by
    rw [shiftLeft, List.length_take, min_eq_left hlong]
  have htaken := value_take_modEq _ hlong
  rw [value_append, value_zeros, Nat.zero_add, length_zeros] at htaken
  refine ⟨hsame, ?_⟩
  have hscale : (2 ^ width) ^ (shift / width) * (value limbs * 2 ^ (shift % width)) =
      value limbs * 2 ^ shift := by
    rw [← pow_mul, mul_left_comm, ← pow_add, Nat.div_add_mod]
  rw [← hsame]
  apply value_eq_of_modEq
  rw [hsame, ← hscale]
  exact htaken.trans (hvalue.mul_left _)

/-- A limb shifted right below what the limb above shifts out. -/
theorem shiftRightLimb (hshift : shift ≤ width) (limb next : BitVec width) :
    (limb >>> shift ||| next <<< (width - shift)).toNat =
      limb.toNat / 2 ^ shift + 2 ^ (width - shift) * (next.toNat % 2 ^ shift) := by
  obtain ⟨rest, rfl⟩ := Nat.exists_eq_add_of_le hshift
  rw [Nat.add_sub_cancel_left]
  have hlow : limb.toNat / 2 ^ shift < 2 ^ rest := by
    have hlimb : limb.toNat < 2 ^ shift * 2 ^ rest := by
      rw [← pow_add]
      exact limb.isLt
    rwa [Nat.div_lt_iff_lt_mul (Nat.two_pow_pos _), mul_comm]
  have hhigh : next.toNat <<< rest % 2 ^ (shift + rest) = 2 ^ rest * (next.toNat % 2 ^ shift) := by
    rw [Nat.shiftLeft_eq, pow_add, Nat.mul_mod_mul_right, mul_comm]
  rw [BitVec.toNat_or, BitVec.toNat_ushiftRight, BitVec.toNat_shiftLeft, hhigh,
    Nat.shiftRight_eq_div_pow, Nat.or_comm, ← Nat.two_pow_add_eq_or_of_lt hlow, Nat.add_comm]

theorem headD_mod (hshift : shift ≤ width) (limbs : List (BitVec width)) :
    (limbs.headD (BitVec.ofNat width 0)).toNat % 2 ^ shift = value limbs % 2 ^ shift := by
  cases limbs with
  | nil => rfl
  | cons limb limbs =>
    obtain ⟨rest, rfl⟩ := Nat.exists_eq_add_of_le hshift
    rw [List.headD_cons, value_cons, pow_add, mul_assoc, Nat.add_mul_mod_self_left]

theorem value_shiftRightBits (hshift : shift ≤ width) (limbs : List (BitVec width)) :
    (shiftRightBits shift limbs).length = limbs.length ∧
      value (shiftRightBits shift limbs) = value limbs / 2 ^ shift := by
  induction limbs with
  | nil => simp [shiftRightBits]
  | cons limb limbs ih =>
    obtain ⟨hlength, hvalue⟩ := ih
    rw [shiftRightBits]
    refine ⟨by simp [hlength], ?_⟩
    have hpower : 2 ^ width = 2 ^ shift * 2 ^ (width - shift) := by
      rw [← pow_add, Nat.add_sub_cancel' hshift]
    rw [value_cons, value_cons, shiftRightLimb hshift, headD_mod hshift, hvalue, hpower,
      mul_assoc (2 ^ shift) _ (value limbs),
      Nat.add_mul_div_left _ _ (Nat.two_pow_pos _), Nat.add_assoc,
      mul_comm (2 ^ shift) (2 ^ (width - shift)), mul_assoc, ← Nat.mul_add, Nat.mod_add_div]

theorem value_drop (limbs : List (BitVec width)) (position : ℕ) :
    value (limbs.drop position) = value limbs / (2 ^ width) ^ position := by
  rcases Nat.le_total position limbs.length with hle | hge
  · have hlow := value_lt (limbs.take position)
    rw [List.length_take, min_eq_left hle] at hlow
    rw [← value_take_add_drop limbs hle, Nat.add_mul_div_left _ _ (by positivity),
      Nat.div_eq_of_lt hlow, Nat.zero_add]
  · rw [List.drop_eq_nil_of_le hge, value_nil, Nat.div_eq_of_lt]
    exact (value_lt limbs).trans_le (Nat.pow_le_pow_right (Nat.two_pow_pos _) hge)

theorem value_shiftRight (hwidth : 0 < width) (limbs : List (BitVec width)) (shift : ℕ) :
    (shiftRight limbs shift).length = limbs.length ∧
      value (shiftRight limbs shift) = value limbs / 2 ^ shift := by
  obtain ⟨hlength, hvalue⟩ := value_shiftRightBits (Nat.mod_lt shift hwidth).le
    (limbs.drop (shift / width))
  refine ⟨?_, ?_⟩
  · rw [shiftRight, List.length_append, hlength, List.length_drop, length_zeros]
    omega
  · rw [shiftRight, value_append, value_zeros, Nat.mul_zero, Nat.add_zero, hvalue,
      value_drop, Nat.div_div_eq_div_mul, ← pow_mul, ← pow_add, Nat.div_add_mod]

end Shifts

section Division

def setBit (limbs : List (BitVec width)) (position : ℕ) : List (BitVec width) :=
  limbs.modify (position / width) fun limb =>
    limb ||| BitVec.ofNat width 1 <<< (position % width)

/-- Long division by a divisor that moves down one bit at a time.  The count is one
more than the number of bits it is still shifted by. -/
def divLoop : ℕ → List (BitVec width) → List (BitVec width) → List (BitVec width) →
    List (BitVec width)
  | 0, _, _, quotient => quotient
  | shift + 1, num, divisor, quotient =>
      if compareTo num divisor = .lt then
        divLoop shift num (shiftRight divisor 1) quotient
      else
        divLoop shift (sub num divisor) (shiftRight divisor 1) (setBit quotient shift)

/-- The quotient; a division by zero has none. -/
def div (num divisor : List (BitVec width)) : Option (List (BitVec width)) :=
  let zero := zeros width num.length
  if bits divisor = 0 then none
  else if bits num < bits divisor then some zero
  else
    let shift := bits num - bits divisor
    some (divLoop (shift + 1) num (shiftLeft divisor shift) zero)

@[simp]
theorem length_setBit (limbs : List (BitVec width)) (position : ℕ) :
    (setBit limbs position).length = limbs.length := by
  rw [setBit, List.length_modify]

/-- Below the set bits of a number a bit adds its power of two. -/
theorem value_setBit (hwidth : 0 < width) {limbs : List (BitVec width)} {position : ℕ}
    (hposition : position < width * limbs.length) (hclear : 2 ^ (position + 1) ∣ value limbs) :
    value (setBit limbs position) = value limbs + 2 ^ position := by
  induction limbs generalizing position with
  | nil => simp at hposition
  | cons limb limbs ih =>
    rw [value_cons] at hclear
    rcases Nat.lt_or_ge position width with hhere | hthere
    · have hdvd : 2 ^ (position + 1) ∣ limb.toNat :=
        (Nat.dvd_add_left ((pow_dvd_pow 2 hhere).mul_right _)).mp hclear
      obtain ⟨high, hhigh⟩ := hdvd
      have hbit : (BitVec.ofNat width 1 <<< position).toNat = 2 ^ position := by
        rw [BitVec.toNat_shiftLeft, BitVec.toNat_one hwidth, Nat.one_shiftLeft,
          Nat.mod_eq_of_lt (Nat.pow_lt_pow_right (by omega) hhere)]
      have hor : (limb ||| BitVec.ofNat width 1 <<< position).toNat =
          limb.toNat + 2 ^ position := by
        rw [BitVec.toNat_or, hbit, hhigh, Nat.two_pow_add_eq_or_of_lt]
        exact Nat.pow_lt_pow_right (by omega) (by omega)
      rw [setBit, Nat.div_eq_of_lt hhere, Nat.mod_eq_of_lt hhere, List.modify_zero_cons,
        value_cons, value_cons, hor]
      omega
    · obtain ⟨rest, rfl⟩ := Nat.exists_eq_add_of_le hthere
      have hzero : limb.toNat = 0 := by
        have hdvd : 2 ^ width ∣ limb.toNat + 2 ^ width * value limbs :=
          (pow_dvd_pow 2 (by omega)).trans hclear
        have hlimb := (Nat.dvd_add_left (Nat.dvd_mul_right _ _)).mp hdvd
        exact Nat.eq_zero_of_dvd_of_lt hlimb limb.isLt
      rw [hzero, Nat.zero_add, Nat.add_assoc, pow_add] at hclear
      have hhigh : 2 ^ (rest + 1) ∣ value limbs :=
        Nat.dvd_of_mul_dvd_mul_left (Nat.two_pow_pos width) hclear
      have hrest : rest < width * limbs.length := by
        rw [List.length_cons, Nat.mul_succ] at hposition
        omega
      have hmodify : setBit (limb :: limbs) (width + rest) = limb :: setBit limbs rest := by
        rw [setBit, Nat.add_div_left _ hwidth, Nat.add_mod_left, List.modify_succ_cons, setBit]
      rw [hmodify, value_cons, value_cons, ih hrest hhigh, pow_add]
      ring

/-- The loop adds to the quotient what is left to divide. -/
theorem divLoop_spec (hwidth : 0 < width) {count divisor : ℕ}
    {num shifted quotient : List (BitVec width)} (hpos : 0 < divisor)
    (hlength : num.length = shifted.length) (hquotient : quotient.length = num.length)
    (hshifted : ∀ shift, count = shift + 1 → value shifted = divisor * 2 ^ shift)
    (hnum : value num < divisor * 2 ^ count) (hclear : 2 ^ count ∣ value quotient)
    (hroom : value quotient + 2 ^ count ≤ (2 ^ width) ^ quotient.length) :
    (divLoop count num shifted quotient).length = quotient.length ∧
      value (divLoop count num shifted quotient) = value quotient + value num / divisor := by
  induction count generalizing num shifted quotient with
  | zero =>
    rw [divLoop]
    rw [pow_zero, Nat.mul_one] at hnum
    exact ⟨rfl, by rw [Nat.div_eq_of_lt hnum, Nat.add_zero]⟩
  | succ shift ih =>
    have haligned := hshifted shift rfl
    obtain ⟨hhalfLength, hhalf⟩ := value_shiftRight hwidth shifted 1
    have hnext : ∀ next, shift = next + 1 →
        value (shiftRight shifted 1) = divisor * 2 ^ next := by
      rintro next rfl
      rw [hhalf, haligned, pow_succ, pow_one, ← mul_assoc, Nat.mul_div_cancel _ (by omega)]
    have hdouble : 2 ^ (shift + 1) = 2 ^ shift + 2 ^ shift := by rw [pow_succ]; ring
    rw [divLoop]
    split_ifs with hless
    · rw [compareTo_eq hlength, Nat.compare_eq_lt, haligned] at hless
      exact ih (hlength.trans hhalfLength.symm) hquotient hnext hless
        ((pow_dvd_pow 2 (Nat.le_succ shift)).trans hclear) (by omega)
    · rw [compareTo_eq hlength, Nat.compare_eq_lt, haligned, not_lt] at hless
      have hdifference := value_sub hwidth hlength (by rwa [haligned])
      rw [haligned] at hdifference
      have hsameLength := length_sub hlength
      have hposition : shift < width * quotient.length := by
        have hlt : 2 ^ shift < (2 ^ width) ^ quotient.length := by
          have := Nat.two_pow_pos shift
          omega
        rw [← pow_mul] at hlt
        exact (Nat.pow_lt_pow_iff_right (by omega)).mp hlt
      have hset := value_setBit hwidth hposition hclear
      have hsmaller : value (sub num shifted) < divisor * 2 ^ shift := by
        rw [hdouble, Nat.mul_add] at hnum
        omega
      have hkept : 2 ^ shift ∣ value (setBit quotient shift) := by
        rw [hset]
        exact Nat.dvd_add ((pow_dvd_pow 2 (Nat.le_succ shift)).trans hclear) (dvd_refl _)
      have hrest := ih (hsameLength.trans (hlength.trans hhalfLength.symm))
        ((length_setBit quotient shift).trans (hquotient.trans hsameLength.symm))
        hnext hsmaller hkept (by rw [hset, length_setBit]; omega)
      rw [length_setBit, hset, hdifference, Nat.sub_mul_div] at hrest
      have hle : 2 ^ shift ≤ value num / divisor := by
        rwa [Nat.le_div_iff_mul_le hpos, mul_comm]
      exact ⟨hrest.1, hrest.2.trans (by omega)⟩

/-- Division is exact: the quotient of the numbers, rounded down. -/
theorem value_div (hwidth : 0 < width) {num divisor : List (BitVec width)}
    (hlength : num.length = divisor.length) (hpos : 0 < value divisor) :
    ∃ quotient, div num divisor = some quotient ∧ quotient.length = num.length ∧
      value quotient = value num / value divisor := by
  have hzero := length_zeros width num.length
  rw [div, bits_eq, bits_eq]
  have hsize : 0 < (value divisor).size := Nat.size_pos.mpr hpos
  rw [if_neg (by omega)]
  split_ifs with hless
  · refine ⟨_, rfl, hzero, ?_⟩
    have hsmall : value num < value divisor := by
      have hnum := Nat.lt_size_self (value num)
      have hbit : 2 ^ ((value divisor).size - 1) ≤ value divisor := Nat.lt_size.mp (by omega)
      calc value num < 2 ^ (value num).size := hnum
        _ ≤ 2 ^ ((value divisor).size - 1) := Nat.pow_le_pow_right (by omega) (by omega)
        _ ≤ value divisor := hbit
    rw [value_zeros, Nat.div_eq_of_lt hsmall]
  · obtain ⟨shift, hshift⟩ := Nat.exists_eq_add_of_le (not_lt.mp hless)
    rw [hshift, Nat.add_sub_cancel_left]
    have hnumSize : (value num).size ≤ width * num.length := by
      rw [Nat.size_le, pow_mul]
      exact value_lt num
    obtain ⟨hshiftLength, hshiftValue⟩ := value_shiftLeft hwidth divisor shift
    have haligned : value (shiftLeft divisor shift) = value divisor * 2 ^ shift := by
      rw [hshiftValue]
      apply Nat.mod_eq_of_lt
      calc value divisor * 2 ^ shift < 2 ^ (value divisor).size * 2 ^ shift :=
            Nat.mul_lt_mul_of_pos_right (Nat.lt_size_self _) (Nat.two_pow_pos _)
        _ = 2 ^ (value num).size := by rw [← pow_add, hshift]
        _ ≤ (2 ^ width) ^ divisor.length := by
            rw [← pow_mul, ← hlength]
            exact Nat.pow_le_pow_right (by omega) hnumSize
    have hnum : value num < value divisor * 2 ^ (shift + 1) := by
      have hbit : 2 ^ ((value divisor).size - 1) ≤ value divisor := Nat.lt_size.mp (by omega)
      calc value num < 2 ^ (value num).size := Nat.lt_size_self _
        _ = 2 ^ ((value divisor).size - 1) * 2 ^ (shift + 1) := by
            rw [← pow_add]
            congr 1
            omega
        _ ≤ value divisor * 2 ^ (shift + 1) := Nat.mul_le_mul_right _ hbit
    have hroom : value (zeros width num.length) + 2 ^ (shift + 1) ≤
        (2 ^ width) ^ (zeros width num.length).length := by
      rw [value_zeros, hzero, Nat.zero_add, ← pow_mul]
      exact Nat.pow_le_pow_right (by omega) (by omega)
    have hloop := divLoop_spec hwidth hpos (hlength.trans hshiftLength.symm) hzero
      (fun next heq => by rw [haligned, Nat.succ.inj heq]) hnum
      (by rw [value_zeros]; exact dvd_zero _) hroom
    rw [value_zeros, Nat.zero_add, hzero] at hloop
    exact ⟨_, rfl, hloop.1, hloop.2⟩

/-- Whatever is returned as a quotient is one. -/
theorem div_eq_some (hwidth : 0 < width) {num divisor quotient : List (BitVec width)}
    (hlength : num.length = divisor.length) (hdiv : div num divisor = some quotient) :
    quotient.length = num.length ∧ value quotient = value num / value divisor := by
  have hpos : 0 < value divisor := by
    by_contra hzero
    rw [div, bits_eq divisor, Nat.eq_zero_of_not_pos hzero, Nat.size_zero, if_pos rfl] at hdiv
    simp at hdiv
  obtain ⟨expected, hexpected, hspec⟩ := value_div hwidth hlength hpos
  rw [hexpected, Option.some.injEq] at hdiv
  exact hdiv ▸ hspec

end Division

end FirstIslamicCoin.Limbs
