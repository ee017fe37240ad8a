import FirstIslamicCoin.ClientWallet.Transaction
import FirstIslamicCoin.Core.DoubleInteger
import FirstIslamicCoin.Core.GreedyPrefix

/-!
# Coin selection of the wallets

The send and the multisig screens take coins in the order the gateway lists them, until the
coins cover the amounts and a fee.  The fee is a rate times an estimate of the size, and the
estimate grows with every coin.  The web wallet adds in `BigInt` and writes change as a
`Number`; the mobile wallet computes in 64 bits.
-/

namespace FirstIslamicCoin.ClientWallet

open GreedyPrefix

section Arithmetic

/-- A sum, difference or product: exact in `BigInt`, 64 bits of two's complement in Dart. -/
def Platform.int : Platform → ℤ → ℤ
  | .web, value => value
  | .mobile, value => value.bmod (2 ^ 64)

/-- An amount as an output holds it: `Number(amount)` on the web, the same `int` in Dart. -/
def Platform.number : Platform → ℤ → ℤ
  | .web, value => roundToDouble value
  | .mobile, value => value

/-- What the mobile wallet can hold. -/
def Platform.Fits (platform : Platform) (value : ℤ) : Prop :=
  platform = .mobile → -2 ^ 63 ≤ value ∧ value < 2 ^ 63

/-- What an output of the web wallet can hold. -/
def Platform.Exact (platform : Platform) (value : ℤ) : Prop :=
  platform = .web → roundToDouble value = value

variable {platform : Platform}

theorem Platform.int_eq {value : ℤ} (hfits : platform.Fits value) : platform.int value = value := by
  cases platform with
  | web => rfl
  | mobile =>
    obtain ⟨hlow, hhigh⟩ := hfits rfl
    exact Int.bmod_eq_of_le (by norm_num; exact hlow) (by norm_num; exact hhigh)

@[simp]
theorem Platform.int_zero : platform.int 0 = 0 := by
  cases platform <;> rfl

/-- Only the last wrap of a sum counts. -/
theorem Platform.int_add_left (a b : ℤ) :
    platform.int (platform.int a + b) = platform.int (a + b) := by
  cases platform with
  | web => rfl
  | mobile => exact Int.bmod_add_bmod

theorem Platform.int_add_right (a b : ℤ) :
    platform.int (a + platform.int b) = platform.int (a + b) := by
  rw [add_comm, Platform.int_add_left, add_comm]

theorem Platform.int_sub (a b : ℤ) :
    platform.int (platform.int a - platform.int b) = platform.int (a - b) := by
  cases platform with
  | web => rfl
  | mobile => exact Int.bmod_sub_bmod.trans Int.sub_bmod_bmod

@[simp]
theorem Platform.int_int (a : ℤ) : platform.int (platform.int a) = platform.int a := by
  cases platform with
  | web => rfl
  | mobile => exact Int.bmod_bmod

theorem Platform.number_eq {value : ℤ} (hexact : platform.Exact value) :
    platform.number value = value := by
  cases platform with
  | web => exact hexact rfl
  | mobile => rfl

theorem Platform.exact_of_le {value : ℤ} (hlow : -2 ^ 53 ≤ value) (hhigh : value ≤ 2 ^ 53) :
    platform.Exact value :=
  fun _ => roundToDouble_eq_self hlow hhigh

end Arithmetic

section Selection

/-- What a screen knows of the size of its transaction: the bytes it counts for an input,
and the number of outputs it counts. -/
structure Sizing where
  perInput : ℕ
  outputCount : ℕ

def Sizing.estimatedVsize (sizing : Sizing) (inputs : ℕ) : ℕ :=
  10 + inputs * sizing.perInput + sizing.outputCount * 34

variable {Coin : Type} (platform : Platform) (sizing : Sizing) (feeRate : ℕ) (value : Coin → ℕ)

def Platform.feeSatoshis (inputs : ℕ) : ℤ :=
  platform.int (feeRate * sizing.estimatedVsize inputs)

def Platform.total (amounts : List ℕ) : ℤ :=
  amounts.foldl (fun (sum : ℤ) (amount : ℕ) => platform.int (sum + amount)) 0

/-- The loop over the coins, with the coins chosen so far and their total. -/
def Platform.selectCoins (amountTotal : ℤ) : List Coin → ℤ → List Coin → List Coin × ℤ
  | chosen, totalIn, [] => (chosen, totalIn)
  | chosen, totalIn, coin :: coins =>
      let chosen := chosen ++ [coin]
      let totalIn := platform.int (totalIn + value coin)
      if platform.int (amountTotal + platform.feeSatoshis sizing feeRate chosen.length) ≤ totalIn then
        (chosen, totalIn)
      else Platform.selectCoins amountTotal chosen totalIn coins

def worth (coins : List Coin) : ℕ := (coins.map value).sum

def required (amounts : List ℕ) (inputs : ℕ) : ℕ :=
  amounts.sum + feeRate * sizing.estimatedVsize inputs

/-- Coins that pay for the amounts and for the estimated fee as the platform adds up. -/
def Platform.covers (amounts : List ℕ) (coins : List Coin) : Bool :=
  decide (platform.int (required sizing feeRate amounts coins.length) ≤
    platform.int (worth value coins))

def covers (amounts : List ℕ) (coins : List Coin) : Bool :=
  decide (required sizing feeRate amounts coins.length ≤ worth value coins)

/-- The sums of a selection are within 64 bits, where those are all there is. -/
def Platform.NoOverflow (amounts : List ℕ) (coins : List Coin) : Prop :=
  platform = .mobile → worth value coins < 2 ^ 63 ∧
    required sizing feeRate amounts coins.length < 2 ^ 63

abbrev Platform.Takes (amounts : List ℕ) (coins front : List Coin) : Prop :=
  IsShortest (platform.covers sizing feeRate value amounts) coins front

end Selection

section Meaning

variable {Coin : Type} {platform : Platform} {sizing : Sizing} {feeRate : ℕ} {value : Coin → ℕ}
  {amounts : List ℕ} {coins : List Coin}

theorem worth_append (front back : List Coin) :
    worth value (front ++ back) = worth value front + worth value back := by
  rw [worth, worth, worth, List.map_append, List.sum_append]

theorem worth_concat (front : List Coin) (coin : Coin) :
    worth value (front ++ [coin]) = worth value front + value coin := by
  rw [worth_append]
  rfl

theorem covers_eq_true {front : List Coin} :
    covers sizing feeRate value amounts front = true ↔
      required sizing feeRate amounts front.length ≤ worth value front :=
  decide_eq_true_iff

theorem Sizing.estimatedVsize_mono (sizing : Sizing) {few many : ℕ} (hle : few ≤ many) :
    sizing.estimatedVsize few ≤ sizing.estimatedVsize many := by
  rw [Sizing.estimatedVsize, Sizing.estimatedVsize]
  have hinputs := Nat.mul_le_mul_right sizing.perInput hle
  omega

theorem required_mono (sizing : Sizing) (feeRate : ℕ) (amounts : List ℕ) {few many : ℕ}
    (hle : few ≤ many) :
    required sizing feeRate amounts few ≤ required sizing feeRate amounts many := by
  rw [required, required]
  have hfee := Nat.mul_le_mul_left feeRate (sizing.estimatedVsize_mono hle)
  omega

theorem required_pos (hrate : 0 < feeRate) (inputs : ℕ) :
    0 < required sizing feeRate amounts inputs := by
  have hsize : 0 < sizing.estimatedVsize inputs := by
    rw [Sizing.estimatedVsize]
    omega
  have hfee := Nat.mul_pos hrate hsize
  rw [required]
  omega

theorem Platform.fits_natCast {small large : ℕ} (hle : small ≤ large)
    (hlarge : platform = .mobile → large < 2 ^ 63) : platform.Fits small := by
  intro hmobile
  have hbound := hlarge hmobile
  omega

/-- A sum is wrapped once, whatever the loop does. -/
theorem Platform.total_eq (amounts : List ℕ) :
    platform.total amounts = platform.int (amounts.sum : ℕ) := by
  have hloop : ∀ (rest : List ℕ) (sum : ℤ),
      rest.foldl (fun (sum : ℤ) (amount : ℕ) => platform.int (sum + amount)) (platform.int sum) =
        platform.int (sum + (rest.sum : ℕ)) := by
    intro rest
    induction rest with
    | nil => intro sum; rw [List.sum_nil, Nat.cast_zero, add_zero]; rfl
    | cons amount rest ih =>
      intro sum
      rw [List.foldl_cons, Platform.int_add_left, ih, List.sum_cons, Nat.cast_add, add_assoc]
  have hall := hloop amounts 0
  rwa [Platform.int_zero, zero_add] at hall

theorem Platform.need_eq {amountTotal : ℤ}
    (htotal : platform.int amountTotal = platform.int (amounts.sum : ℕ)) (inputs : ℕ) :
    platform.int (amountTotal + platform.feeSatoshis sizing feeRate inputs) =
      platform.int (required sizing feeRate amounts inputs) := by
  rw [Platform.feeSatoshis, Platform.int_add_right, ← Platform.int_add_left, htotal,
    Platform.int_add_left, required, Nat.cast_add, Nat.cast_mul]

/-- What is left of coins after the amounts and the fee. -/
theorem Platform.change_eq {amountTotal : ℤ}
    (htotal : platform.int amountTotal = platform.int (amounts.sum : ℕ)) (coins : List Coin) :
    platform.int (platform.int (platform.int (worth value coins) - amountTotal) -
        platform.feeSatoshis sizing feeRate coins.length) =
      platform.int (worth value coins - required sizing feeRate amounts coins.length) := by
  have hfirst : platform.int (platform.int (worth value coins) - amountTotal) =
      platform.int (worth value coins - (amounts.sum : ℕ)) := by
    rw [← Platform.int_sub, Platform.int_int, htotal, Platform.int_sub]
  rw [hfirst, Platform.feeSatoshis, Platform.int_sub, required]
  congr 1
  push_cast
  ring

/-- The loop takes the coins that the shortest sufficient front has, and their worth. -/
theorem Platform.selectCoins_eq {amountTotal : ℤ}
    (htotal : platform.int amountTotal = platform.int (amounts.sum : ℕ))
    (chosen rest : List Coin) :
    platform.selectCoins sizing feeRate value amountTotal chosen (platform.int (worth value chosen))
        rest =
      (takeUntil (platform.covers sizing feeRate value amounts) chosen rest,
        platform.int
          (worth value (takeUntil (platform.covers sizing feeRate value amounts) chosen rest))) := by
  induction rest generalizing chosen with
  | nil => rfl
  | cons coin rest ih =>
    have hworth : platform.int (platform.int (worth value chosen) + value coin) =
        platform.int (worth value (chosen ++ [coin])) := by
      rw [Platform.int_add_left, worth_concat, Nat.cast_add]
    rw [Platform.selectCoins, takeUntil, Platform.need_eq htotal, hworth]
    by_cases hstop : platform.covers sizing feeRate value amounts (chosen ++ [coin]) = true
    · rw [if_pos hstop, if_pos (decide_eq_true_iff.mp hstop)]
    · rw [if_neg hstop, if_neg fun hle => hstop (decide_eq_true_iff.mpr hle), ih]

theorem worth_le_of_starts {front : List Coin} (hfront : front <+: coins) :
    worth value front ≤ worth value coins := by
  obtain ⟨back, rfl⟩ := hfront
  rw [worth_append]
  exact Nat.le_add_right _ _

section Exact

variable (hroom : platform.NoOverflow sizing feeRate value amounts coins)
include hroom

/-- Within 64 bits the platform's test is the one in integers. -/
theorem Platform.covers_eq {front : List Coin} (hfront : front <+: coins) :
    platform.covers sizing feeRate value amounts front =
      ClientWallet.covers sizing feeRate value amounts front := by
  have hneed : platform.int (required sizing feeRate amounts front.length) = _ :=
    Platform.int_eq (Platform.fits_natCast (required_mono sizing feeRate amounts hfront.length_le)
      fun hmobile => (hroom hmobile).2)
  have hworth : platform.int (worth value front) = _ :=
    Platform.int_eq (Platform.fits_natCast (worth_le_of_starts hfront)
      fun hmobile => (hroom hmobile).1)
  rw [Platform.covers, ClientWallet.covers, hneed, hworth]
  exact decide_eq_decide.mpr Nat.cast_le

/-- What is left of covering coins is exact. -/
theorem Platform.int_change {front : List Coin} (hfront : front <+: coins)
    (hcovered : required sizing feeRate amounts front.length ≤ worth value front) :
    platform.int (worth value front - required sizing feeRate amounts front.length) =
      worth value front - required sizing feeRate amounts front.length := by
  have hworth := @worth_le_of_starts _ value _ _ hfront
  apply Platform.int_eq
  intro hmobile
  have hbound := (hroom hmobile).1
  omega

end Exact

end Meaning

end FirstIslamicCoin.ClientWallet
