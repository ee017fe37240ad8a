import Mathlib.Data.List.TakeWhile
import Mathlib.Data.Nat.Digits.Lemmas

/-!
# Positional numerals

Numerals with the most significant digit first.  A numeral of a given length is
determined by its value, a change of base that keeps the leading zeros can be undone, and
the leading digits of a number are the digits of its quotient by a power of the base.
-/

namespace FirstIslamicCoin

section Values

def numeralValue (base : ℕ) (digits : List ℕ) : ℕ :=
  digits.foldl (fun value digit => value * base + digit) 0

def bigEndian (bytes : List UInt8) : ℕ := numeralValue 256 (bytes.map UInt8.toNat)

variable {base : ℕ}

@[simp]
theorem numeralValue_nil (base : ℕ) : numeralValue base [] = 0 := rfl

@[simp]
theorem numeralValue_append_singleton (base : ℕ) (digits : List ℕ) (digit : ℕ) :
    numeralValue base (digits ++ [digit]) = numeralValue base digits * base + digit := by
  rw [numeralValue, List.foldl_append]
  rfl

theorem numeralValue_eq_ofDigits (base : ℕ) (digits : List ℕ) :
    numeralValue base digits = Nat.ofDigits base digits.reverse := by
  induction digits using List.reverseRecOn with
  | nil => rfl
  | append_singleton digits digit ih =>
    rw [numeralValue_append_singleton, ih, List.reverse_append, List.reverse_singleton,
      List.singleton_append, Nat.ofDigits_cons, Nat.mul_comm, Nat.add_comm]

theorem numeralValue_append (base : ℕ) (front back : List ℕ) :
    numeralValue base (front ++ back) =
      numeralValue base front * base ^ back.length + numeralValue base back := by
  rw [numeralValue_eq_ofDigits, List.reverse_append, Nat.ofDigits_append, List.length_reverse,
    ← numeralValue_eq_ofDigits, ← numeralValue_eq_ofDigits, Nat.mul_comm, Nat.add_comm]

theorem numeralValue_replicate_zero (base count : ℕ) (digits : List ℕ) :
    numeralValue base (List.replicate count 0 ++ digits) = numeralValue base digits := by
  have hzero : numeralValue base (List.replicate count 0) = 0 := by
    rw [numeralValue_eq_ofDigits, List.reverse_replicate, Nat.ofDigits_replicate_zero]
  rw [numeralValue_append, hzero, Nat.zero_mul, Nat.zero_add]

theorem numeralValue_lt (hbase : 1 < base) {digits : List ℕ}
    (hdigits : ∀ digit ∈ digits, digit < base) :
    numeralValue base digits < base ^ digits.length := by
  rw [numeralValue_eq_ofDigits, ← List.length_reverse]
  exact Nat.ofDigits_lt_base_pow_length hbase fun digit hmem =>
    hdigits digit (List.mem_reverse.mp hmem)

/-- Numerals of one length are told apart by their values. -/
theorem numeralValue_injective (hbase : 1 < base) {left right : List ℕ}
    (hlength : left.length = right.length) (hleft : ∀ digit ∈ left, digit < base)
    (hright : ∀ digit ∈ right, digit < base)
    (hvalue : numeralValue base left = numeralValue base right) : left = right := by
  rw [numeralValue_eq_ofDigits, numeralValue_eq_ofDigits] at hvalue
  refine List.reverse_injective (Nat.ofDigits_inj_of_len_eq hbase ?_ ?_ ?_ hvalue)
  · rw [List.length_reverse, List.length_reverse, hlength]
  · exact fun digit hmem => hleft digit (List.mem_reverse.mp hmem)
  · exact fun digit hmem => hright digit (List.mem_reverse.mp hmem)

end Values

section Digits

/-- Division by the base until nothing is left, each remainder put in front. -/
def digitLoop (base value : ℕ) (out : List ℕ) : List ℕ :=
  if value = 0 ∨ base < 2 then out
  else digitLoop base (value / base) (value % base :: out)
termination_by value
decreasing_by exact Nat.div_lt_self (by omega) (by omega)

variable {base : ℕ}

theorem digitLoop_eq (hbase : 1 < base) (value : ℕ) (out : List ℕ) :
    digitLoop base value out = (Nat.digits base value).reverse ++ out := by
  induction value using Nat.strong_induction_on generalizing out with
  | _ value ih =>
    rw [digitLoop]
    split_ifs with hend
    · have hzero : value = 0 := by omega
      rw [hzero, Nat.digits_zero, List.reverse_nil, List.nil_append]
    · have hpos : 0 < value := by omega
      rw [ih (value / base) (Nat.div_lt_self hpos hbase), Nat.digits_def' hbase hpos,
        List.reverse_cons, List.append_assoc, List.singleton_append]

/-- The leading digits of a number. -/
theorem exists_digits_reverse_eq (hbase : 1 < base) {value : ℕ} (count : ℕ)
    (hlarge : base ^ count ≤ value) :
    ∃ low : List ℕ, low.length = count ∧
      (Nat.digits base value).reverse = (Nat.digits base (value / base ^ count)).reverse ++ low := by
  induction count with
  | zero => exact ⟨[], rfl, by rw [pow_zero, Nat.div_one, List.append_nil]⟩
  | succ count ih =>
    have hpos : 0 < base ^ count := Nat.pow_pos (by omega)
    have hless : base ^ count ≤ value :=
      (Nat.pow_le_pow_right (by omega) (Nat.le_succ count)).trans hlarge
    obtain ⟨low, hlength, hdigits⟩ := ih hless
    have hquotient : 0 < value / base ^ count := Nat.div_pos hless hpos
    refine ⟨value / base ^ count % base :: low, by rw [List.length_cons, hlength], ?_⟩
    rw [hdigits, Nat.digits_def' hbase hquotient, Nat.div_div_eq_div_mul, ← pow_succ,
      List.reverse_cons, List.append_assoc, List.singleton_append]

/-- Neighbouring digits put together, least significant first. -/
def pairDigits (base : ℕ) : List ℕ → List ℕ
  | [] => []
  | [low] => [low]
  | low :: high :: rest => (low + base * high) :: pairDigits base rest

/-- Two digits of a number make one in the square of the base. -/
theorem pairDigits_digits (hbase : 1 < base) (value : ℕ) :
    pairDigits base (Nat.digits base value) = Nat.digits (base * base) value := by
  have hsquare : 1 < base * base := Nat.one_lt_mul_iff.mpr ⟨by omega, by omega, .inl hbase⟩
  induction value using Nat.strong_induction_on with
  | _ value ih =>
    rcases Nat.eq_zero_or_pos value with rfl | hpos
    · rw [Nat.digits_zero, Nat.digits_zero, pairDigits]
    · rcases Nat.lt_or_ge value base with hsmall | hlarge
      · have hsmaller : value < base * base :=
          hsmall.trans_le (Nat.le_mul_of_pos_left base (by omega))
        rw [Nat.digits_of_lt base value hpos.ne' hsmall,
          Nat.digits_of_lt (base * base) value hpos.ne' hsmaller, pairDigits]
      · have hquotient : 0 < value / base := Nat.div_pos hlarge (by omega)
        have hpair : value % base + base * (value / base % base) = value % (base * base) :=
          (Nat.mod_mul).symm
        rw [Nat.digits_def' hbase hpos, Nat.digits_def' hbase hquotient, pairDigits,
          Nat.div_div_eq_div_mul, ih _ (Nat.div_lt_self hpos hsquare), hpair,
          Nat.digits_def' hsquare hpos]

end Digits

section Rebase

def leadingZeros (digits : List ℕ) : ℕ := (digits.takeWhile fun digit => digit = 0).length

/-- The numeral in another base, with as many leading zeros. -/
def rebase (source target : ℕ) (digits : List ℕ) : List ℕ :=
  List.replicate (leadingZeros digits) 0 ++ digitLoop target (numeralValue source digits) []

def NoLeadingZero (digits : List ℕ) : Prop := ∀ first ∈ digits.head?, first ≠ 0

theorem leadingZeros_replicate {rest : List ℕ} (count : ℕ) (hrest : NoLeadingZero rest) :
    leadingZeros (List.replicate count 0 ++ rest) = count := by
  have hnone : rest.takeWhile (fun digit => digit = 0) = [] := by
    cases rest with
    | nil => rfl
    | cons first others =>
      have hne := hrest first rfl
      rw [List.takeWhile_cons_of_neg]
      simpa using hne
  have hall : ∀ digit ∈ List.replicate count 0, decide (digit = 0) = true := by
    intro digit hmem
    rw [List.eq_of_mem_replicate hmem]
    rfl
  rw [leadingZeros, List.takeWhile_append_of_pos hall, hnone, List.append_nil,
    List.length_replicate]

theorem exists_replicate_append (digits : List ℕ) :
    ∃ rest, digits = List.replicate (leadingZeros digits) 0 ++ rest ∧ NoLeadingZero rest := by
  refine ⟨digits.dropWhile fun digit => digit = 0, ?_, ?_⟩
  · have hzeros : digits.takeWhile (fun digit => digit = 0) =
        List.replicate (leadingZeros digits) 0 := by
      refine List.eq_replicate_of_mem fun digit hmem => ?_
      simpa using List.mem_takeWhile_imp hmem
    rw [← hzeros, List.takeWhile_append_dropWhile]
  · intro first hfirst hzero
    have hnot := List.head?_dropWhile_not (fun digit => decide (digit = 0)) digits
    rw [Option.mem_def.mp hfirst] at hnot
    simp [hzero] at hnot

theorem noLeadingZero_digits (base value : ℕ) :
    NoLeadingZero (Nat.digits base value).reverse := by
  intro first hfirst
  rw [List.head?_reverse] at hfirst
  have hne : value ≠ 0 := by
    rintro rfl
    rw [Nat.digits_zero] at hfirst
    exact absurd hfirst nofun
  have hdigits : Nat.digits base value ≠ [] := Nat.digits_ne_nil_iff_ne_zero.mpr hne
  rw [List.getLast?_eq_getLast_of_ne_nil hdigits] at hfirst
  obtain rfl := Option.some.inj hfirst
  exact Nat.getLast_digit_ne_zero base hne

variable {source target : ℕ}

theorem rebase_replicate (htarget : 1 < target) {rest : List ℕ} (count : ℕ)
    (hrest : NoLeadingZero rest) :
    rebase source target (List.replicate count 0 ++ rest) =
      List.replicate count 0 ++ (Nat.digits target (numeralValue source rest)).reverse := by
  rw [rebase, leadingZeros_replicate count hrest, numeralValue_replicate_zero,
    digitLoop_eq htarget, List.append_nil]

/-- Going to another base and back. -/
theorem rebase_rebase (hsource : 1 < source) (htarget : 1 < target) {digits : List ℕ}
    (hdigits : ∀ digit ∈ digits, digit < source) :
    rebase target source (rebase source target digits) = digits := by
  obtain ⟨rest, hsplit, hrest⟩ := exists_replicate_append digits
  have hback : (Nat.digits source (numeralValue source rest)).reverse = rest := by
    rw [numeralValue_eq_ofDigits, Nat.digits_ofDigits source hsource, List.reverse_reverse]
    · intro digit hmem
      refine hdigits digit ?_
      rw [hsplit]
      exact List.mem_append_right _ (List.mem_reverse.mp hmem)
    · intro hne
      refine hrest _ ?_
      rw [List.getLast_reverse]
      exact List.head?_eq_some_head _
  conv_lhs => rw [hsplit]
  rw [rebase_replicate htarget _ hrest,
    rebase_replicate hsource _ (noLeadingZero_digits target _), numeralValue_eq_ofDigits target,
    List.reverse_reverse, Nat.ofDigits_digits, hback, ← hsplit]

theorem lt_of_mem_rebase (htarget : 1 < target) {digits : List ℕ} {digit : ℕ}
    (hmem : digit ∈ rebase source target digits) : digit < target := by
  rw [rebase, digitLoop_eq htarget, List.append_nil] at hmem
  rcases List.mem_append.mp hmem with hzero | hdigit
  · rw [List.eq_of_mem_replicate hzero]
    omega
  · exact Nat.digits_lt_base htarget (List.mem_reverse.mp hdigit)

end Rebase

end FirstIslamicCoin
