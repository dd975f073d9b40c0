import Mathlib.Tactic.Linarith
import Mathlib.Tactic.Ring
import Mathlib.Data.Nat.Cast.Order.Field
import OwsRuntime.Core.FloatOrder

/-! Rounding of fractions to binary64 numbers: the last place of a fraction, the error of
its rounding, and products with factors below one. -/
namespace OwsRuntime
namespace F64

theorem two_zpow (e : Int) : (2 : ℚ) ^ e = 2 ^ e.toNat / 2 ^ (-e).toNat := by
  rcases Int.le_total 0 e with hNonneg | hNeg
  · have hNone : (-e).toNat = 0 := by omega
    have hCast : ((e.toNat : Nat) : Int) = e := by omega
    rw [hNone, pow_zero, div_one, ← zpow_natCast, hCast]
  · have hNone : e.toNat = 0 := by omega
    have hCast : (((-e).toNat : Nat) : Int) = -e := by omega
    rw [hNone, pow_zero, one_div, ← zpow_natCast, hCast, ← zpow_neg, neg_neg]

/-- A rounded quotient is off by half a unit at most, whichever way a tie goes. -/
theorem roundDiv_near {n den : Nat} (hPos : 0 < den) :
    |(roundDiv n den : ℚ) - n / den| ≤ 1 / 2 := by
  have hDen : (0 : ℚ) < den := Nat.cast_pos.mpr hPos
  have hSplit : (n : ℚ) / den = (n / den : Nat) + (n % den : Nat) / den := by
    field_simp
    exact_mod_cast (Nat.div_add_mod n den).symm
  have hNonneg : (0 : ℚ) ≤ (n % den : Nat) / den := by positivity
  have hLess : ((n % den : Nat) : ℚ) / den < 1 := by
    rw [div_lt_one hDen]
    exact_mod_cast Nat.mod_lt n hPos
  have hRound : roundDiv n den =
      if den < 2 * (n % den) ∨ (2 * (n % den) = den ∧ n / den % 2 = 1) then n / den + 1
      else n / den := rfl
  rw [hSplit, hRound, abs_le]
  split
  · rename_i hUp
    have hHalf : (1 : ℚ) / 2 ≤ (n % den : Nat) / den := by
      rw [div_le_div_iff₀ two_pos hDen]
      have hTwice : den ≤ 2 * (n % den) := by omega
      have hCast : (den : ℚ) ≤ 2 * (n % den : Nat) := by exact_mod_cast hTwice
      linarith
    push_cast
    constructor <;> linarith
  · rename_i hDown
    have hHalf : ((n % den : Nat) : ℚ) / den ≤ 1 / 2 := by
      rw [div_le_div_iff₀ hDen two_pos]
      have hTwice : 2 * (n % den) ≤ den := by omega
      have hCast : (2 : ℚ) * (n % den : Nat) ≤ den := by exact_mod_cast hTwice
      linarith
    constructor <;> linarith

/-- The leading exponent of a fraction is the power of two that is not above it, while the next one
is. -/
theorem leadingExponent_spec {num den : Nat} (hNum : num ≠ 0) (hDen : den ≠ 0) :
    (2 : ℚ) ^ leadingExponent num den ≤ num / den ∧
      (num : ℚ) / den < 2 ^ (leadingExponent num den + 1) := by
  have hPos : (0 : ℚ) < den := Nat.cast_pos.mpr (Nat.pos_of_ne_zero hDen)
  have hNumLow : ((2 : ℚ) ^ (num.log2 : Int)) ≤ num := by
    rw [zpow_natCast]
    exact_mod_cast Nat.log2_self_le hNum
  have hNumHigh : (num : ℚ) < 2 ^ ((num.log2 : Int) + 1) := by
    have hLog : num < 2 ^ (num.log2 + 1) := Nat.lt_log2_self
    exact_mod_cast hLog
  have hDenLow : ((2 : ℚ) ^ (den.log2 : Int)) ≤ den := by
    rw [zpow_natCast]
    exact_mod_cast Nat.log2_self_le hDen
  have hDenHigh : (den : ℚ) < 2 ^ ((den.log2 : Int) + 1) := by
    have hLog : den < 2 ^ (den.log2 + 1) := Nat.lt_log2_self
    exact_mod_cast hLog
  have hTest : den * 2 ^ ((num.log2 : Int) - den.log2).toNat ≤
      num * 2 ^ (-((num.log2 : Int) - den.log2)).toNat ↔
        (2 : ℚ) ^ ((num.log2 : Int) - den.log2) ≤ num / den := by
    rw [two_zpow, div_le_div_iff₀ (by positivity) hPos, mul_comm _ (den : ℚ)]
    exact_mod_cast Iff.rfl
  have hLeading : leadingExponent num den =
      if den * 2 ^ ((num.log2 : Int) - den.log2).toNat ≤
          num * 2 ^ (-((num.log2 : Int) - den.log2)).toNat then (num.log2 : Int) - den.log2
      else (num.log2 : Int) - den.log2 - 1 := rfl
  rw [hLeading]
  split
  · rename_i hUp
    refine ⟨hTest.mp hUp, ?_⟩
    rw [div_lt_iff₀ hPos]
    calc (num : ℚ) < 2 ^ ((num.log2 : Int) + 1) := hNumHigh
      _ = 2 ^ ((num.log2 : Int) - den.log2 + 1) * 2 ^ (den.log2 : Int) := by
          rw [← zpow_add₀ two_ne_zero]
          congr 1
          omega
      _ ≤ 2 ^ ((num.log2 : Int) - den.log2 + 1) * den := by gcongr
  · rename_i hDown
    rw [sub_add_cancel]
    refine ⟨?_, not_le.mp (hTest.not.mp hDown)⟩
    rw [le_div_iff₀ hPos]
    calc (2 : ℚ) ^ ((num.log2 : Int) - den.log2 - 1) * den
        ≤ 2 ^ ((num.log2 : Int) - den.log2 - 1) * 2 ^ ((den.log2 : Int) + 1) := by gcongr
      _ = 2 ^ (num.log2 : Int) := by
          rw [← zpow_add₀ two_ne_zero]
          congr 1
          omega
      _ ≤ num := hNumLow

/-- A fraction that is rounded to so many units of its last place. -/
structure Rounds (p : ℚ) (units : Nat) (place : Int) : Prop where
  near : |(units : ℚ) * 2 ^ place - p| ≤ 2 ^ place / 2
  below : p < 2 ^ (place + 53)
  lowest : -1074 ≤ place
  full : place = -1074 ∨ 2 ^ (place + 52) ≤ p

variable {p : ℚ} {units : Nat} {place : Int}

theorem Rounds.le_add_half (rounds : Rounds p units place) :
    (units : ℚ) * 2 ^ place ≤ p + 2 ^ place / 2 := by
  have hNear := (abs_le.mp rounds.near).2
  linarith

theorem Rounds.sub_half_le (rounds : Rounds p units place) :
    p - 2 ^ place / 2 ≤ (units : ℚ) * 2 ^ place := by
  have hNear := (abs_le.mp rounds.near).1
  linarith

/-- Whole units are compared up to half a unit. -/
theorem Rounds.units_le_of_lt (rounds : Rounds p units place) {n : Nat}
    (h : p + 2 ^ place / 2 < ((n : ℚ) + 1) * 2 ^ place) : units ≤ n := by
  have hPos : (0 : ℚ) < 2 ^ place := by positivity
  have hLess : (units : ℚ) < (n + 1 : Nat) := by
    push_cast
    exact lt_of_mul_lt_mul_right (rounds.le_add_half.trans_lt h) hPos.le
  exact Nat.lt_succ_iff.mp (Nat.cast_lt.mp hLess)

theorem Rounds.units_le (rounds : Rounds p units place) : units ≤ 2 ^ 53 := by
  have hPos : (0 : ℚ) < 2 ^ place := by positivity
  have hBelow := rounds.below
  rw [zpow_add₀ two_ne_zero] at hBelow
  apply rounds.units_le_of_lt
  push_cast
  linarith

theorem normalize_zero (negative : Bool) (fuel : Nat) (e : Int) :
    normalize negative fuel 0 e = zero := by
  induction fuel generalizing e with
  | zero => rfl
  | succ fuel ih => exact ih (e + 1)

theorem toRat_normalize {fuel m : Nat} {e : Int} (hBound : m ≤ 2 ^ 53) (hFuel : m < 2 ^ fuel) :
    (normalize false fuel m e).toRat = m * 2 ^ e := by
  rcases Nat.eq_zero_or_pos m with rfl | hPos
  · rw [normalize_zero, Nat.cast_zero, zero_mul]
    exact mantissa_eq_zero_iff.mp rfl
  · obtain ⟨hNegative, hExponent, hValue⟩ := @normalize_value false fuel m e hPos hBound hFuel
    rw [← scaled_mul hExponent, scaled, hNegative, hValue]
    rfl

/-- A fraction is rounded to a number of units in its last place. Unless that is too large to be a
double, the double has exactly this value. -/
theorem ofRatio_rounds {num den : Nat} (hNum : num ≠ 0) (hDen : den ≠ 0) :
    ∃ units place, Rounds ((num : ℚ) / den) units place ∧
      ((units : ℚ) * 2 ^ place < overflowBound →
        ∃ z, ofRatio false num den = some z ∧ z.toRat = units * 2 ^ place) := by
  obtain ⟨hLow, hHigh⟩ := leadingExponent_spec hNum hDen
  obtain ⟨place, hPlace⟩ : ∃ place, place = max (leadingExponent num den - 52) (-1074) := ⟨_, rfl⟩
  have hPos : (0 : ℚ) < 2 ^ place := by positivity
  have hScaled : ((num * 2 ^ (-place).toNat : Nat) : ℚ) / (den * 2 ^ place.toNat : Nat) =
      num / den / 2 ^ place := by
    rw [two_zpow]
    push_cast
    field_simp
  have hQuotient := @roundDiv_near (num * 2 ^ (-place).toNat) (den * 2 ^ place.toNat)
    (Nat.mul_pos (Nat.pos_of_ne_zero hDen) (Nat.two_pow_pos _))
  rw [hScaled] at hQuotient
  have hRounds : Rounds ((num : ℚ) / den)
      (roundDiv (num * 2 ^ (-place).toNat) (den * 2 ^ place.toNat)) place := by
    constructor
    · have hUnits : ∀ q : ℚ,
          q * 2 ^ place - num / den = (q - num / den / 2 ^ place) * 2 ^ place := by
        intro q
        field_simp
      rw [hUnits, abs_mul, abs_of_pos hPos]
      linarith only [mul_le_mul_of_nonneg_right hQuotient hPos.le]
    · exact hHigh.trans_le (zpow_le_zpow_right₀ one_le_two (by omega))
    · omega
    · by_cases hNormal : place = leadingExponent num den - 52
      · refine Or.inr (le_trans (le_of_eq ?_) hLow)
        congr 1
        omega
      · exact Or.inl (by omega)
  refine ⟨_, place, hRounds, fun hFinite => ?_⟩
  have hUnits := hRounds.units_le
  refine ⟨_, ?_, toRat_normalize hUnits (lt_of_le_of_lt hUnits (by decide : 2 ^ 53 < 2 ^ 55))⟩
  rw [ofRatio, if_neg hNum, ← hPlace]
  refine if_neg fun hOver => ?_
  have hNone : (-place).toNat = 0 := by omega
  have hWhole : (2 : ℚ) ^ place = 2 ^ place.toNat := by
    rw [two_zpow, hNone, pow_zero, div_one]
  rw [hWhole] at hFinite
  exact absurd hOver.1 (not_le.mpr (by exact_mod_cast hFinite))

/-- A fraction is rounded to at most the numbers above it: if it is below a number of 53 bits, the
result is not above that. -/
theorem Rounds.le (rounds : Rounds p units place) {n : Nat} {e : Int} (hBound : n < 2 ^ 53)
    (hLowest : -1074 ≤ e) (h : p ≤ n * 2 ^ e) : (units : ℚ) * 2 ^ place ≤ n * 2 ^ e := by
  have hPlace : place ≤ e := by
    rcases rounds.full with hPlace | hFull
    · omega
    · have hLess : (2 : ℚ) ^ (place + 52) < 2 ^ (e + 53) := by
        rw [add_comm e, zpow_add₀ two_ne_zero 53]
        refine (hFull.trans h).trans_lt ?_
        gcongr
        exact_mod_cast hBound
      have hExponents := (zpow_lt_zpow_iff_right₀ one_lt_two).mp hLess
      omega
  obtain ⟨d, hd⟩ : ∃ d : Nat, e = d + place := ⟨(e - place).toNat, by omega⟩
  have hPos : (0 : ℚ) < 2 ^ place := by positivity
  have hShift : (n : ℚ) * 2 ^ e = (n * 2 ^ d : Nat) * 2 ^ place := by
    rw [hd, zpow_add₀ two_ne_zero, zpow_natCast]
    push_cast
    ring
  rw [hShift] at h ⊢
  have hUnits : units ≤ n * 2 ^ d := rounds.units_le_of_lt (by linarith)
  gcongr

/-- Below the middle between two numbers, a fraction is rounded to at most the lower one. -/
theorem Rounds.le_of_lt_half (rounds : Rounds p units place) {n : Nat} {e : Int}
    (hFull : 2 ^ 52 ≤ n) (hBound : n < 2 ^ 53) (hLowest : -1074 ≤ e)
    (h : p < (n + 1 / 2) * 2 ^ e) : (units : ℚ) * 2 ^ place ≤ n * 2 ^ e := by
  by_cases hLow : p ≤ n * 2 ^ e
  · exact rounds.le hBound hLowest hLow
  · have hHigh := not_le.mp hLow
    have hPos : (0 : ℚ) < 2 ^ e := by positivity
    have hMost : (n : ℚ) + 1 ≤ 2 ^ 53 := by exact_mod_cast hBound
    have hLeast : (2 : ℚ) ^ 52 ≤ n := by exact_mod_cast hFull
    have hAbove : (2 : ℚ) ^ (e + 52) < 2 ^ (place + 53) := by
      refine lt_trans ?_ rounds.below
      rw [zpow_add₀ two_ne_zero]
      exact lt_of_le_of_lt (by norm_num; nlinarith) hHigh
    have hBelow : place ≤ e := by
      rcases rounds.full with hPlace | hTop
      · omega
      · have hLess : (2 : ℚ) ^ (place + 52) < 2 ^ (e + 53) := by
          rw [zpow_add₀ two_ne_zero e]
          refine hTop.trans_lt (h.trans ?_)
          norm_num
          nlinarith
        have hExponents := (zpow_lt_zpow_iff_right₀ one_lt_two).mp hLess
        omega
    have hExponents := (zpow_lt_zpow_iff_right₀ one_lt_two).mp hAbove
    obtain rfl : place = e := by omega
    have hUnits : units ≤ n := rounds.units_le_of_lt (by linarith)
    gcongr

/-- A rounded number of at least one unit of the last place of one, times a factor below one,
is rounded to less than the fraction it comes from. -/
theorem Rounds.scaled_lt {r : ℚ} {units' : Nat} {place' : Int} (rounds : Rounds r units place)
    (hFull : 2 ^ (place + 52) ≤ r) (hLowest : -1073 ≤ place)
    (h : p ≤ units * 2 ^ place * (1 - 1 / 2 ^ 53)) (scaled : Rounds p units' place') :
    (units' : ℚ) * 2 ^ place' < r := by
  have hPos : (0 : ℚ) < 2 ^ place := by positivity
  have hTop : (2 : ℚ) ^ (place + 52) = 2 ^ 52 * 2 ^ place := by
    rw [add_comm, zpow_add₀ two_ne_zero]
    norm_num
  rw [hTop] at hFull
  have hLeast : 2 ^ 52 ≤ units := by
    have hHalf := rounds.sub_half_le
    have hLess : ((2 ^ 52 : Nat) : ℚ) < (units + 1 : Nat) := by
      push_cast
      apply lt_of_mul_lt_mul_right _ hPos.le
      linarith
    have hCast := Nat.cast_lt.mp hLess
    omega
  have hMost := rounds.units_le
  rcases Nat.eq_or_lt_of_le hLeast with hPower | hMore
  · -- below a power of two, the numbers are twice as dense
    rw [← hPower] at h
    have hPlace : (2 : ℚ) ^ place = 2 * 2 ^ (place - 1) := by
      rw [zpow_sub_one₀ two_ne_zero]
      ring
    have hBelow : p ≤ ((2 ^ 53 - 1 : Nat) : ℚ) * 2 ^ (place - 1) := by
      refine h.trans (le_of_eq ?_)
      rw [hPlace]
      push_cast
      ring
    have hNumber := scaled.le (by decide) (by omega) hBelow
    have hHalf : (0 : ℚ) < 2 ^ (place - 1) := by positivity
    refine hNumber.trans_lt (lt_of_lt_of_le ?_ hFull)
    rw [hPlace]
    push_cast
    linarith
  · obtain ⟨n, rfl⟩ : ∃ n, units = n + 1 := ⟨units - 1, by omega⟩
    have hUnits : (2 : ℚ) ^ 52 < n + 1 := by exact_mod_cast hMore
    have hBelow : p < (n + 1 / 2) * 2 ^ place := by
      refine h.trans_lt ?_
      push_cast
      have hGap : ((n : ℚ) + 1) * (1 - 1 / 2 ^ 53) < n + 1 / 2 := by linarith
      calc ((n : ℚ) + 1) * 2 ^ place * (1 - 1 / 2 ^ 53)
          = ((n : ℚ) + 1) * (1 - 1 / 2 ^ 53) * 2 ^ place := by ring
        _ < ((n : ℚ) + 1 / 2) * 2 ^ place := mul_lt_mul_of_pos_right hGap hPos
    have hNumber := scaled.le_of_lt_half (by omega) (by omega) (by omega) hBelow
    have hHalf := rounds.le_add_half
    push_cast at hHalf
    linarith

variable {x f : F64}

/-- A number that is not below zero has no minus, or is a zero. -/
theorem negative_of_nonneg (h : 0 ≤ x.toRat) : x.mantissa = 0 ∨ x.negative = false := by
  by_contra hNot
  obtain ⟨hMantissa, hSign⟩ := not_or.mp hNot
  have hNegative : x.negative = true := by simpa using hSign
  have hPos : (0 : ℚ) < x.mantissa * 2 ^ x.exponent :=
    mul_pos (Nat.cast_pos.mpr (Nat.pos_of_ne_zero hMantissa)) (by positivity)
  have hValue : x.toRat = -(x.mantissa * 2 ^ x.exponent) := by
    rw [toRat, scaled_self, if_pos hNegative]
    push_cast
    ring
  linarith

theorem toRat_of_nonneg (h : 0 ≤ x.toRat) : x.toRat = x.mantissa * 2 ^ x.exponent := by
  rcases negative_of_nonneg h with hZero | hSign
  · rw [mantissa_eq_zero_iff.mp hZero, hZero, Nat.cast_zero, zero_mul]
  · rw [toRat, scaled_self, hSign]
    rfl

/-- The truncated number is not above the number. -/
theorem trunc_le (h : 0 ≤ x.toRat) : (x.trunc : ℚ) ≤ x.toRat := by
  obtain ⟨m, hm⟩ : ∃ m, m = x.mantissa * 2 ^ x.exponent.toNat / 2 ^ (-x.exponent).toNat := ⟨_, rfl⟩
  have hFloor : (m : ℚ) ≤ x.toRat := by
    rw [hm, toRat_of_nonneg h, two_zpow, ← mul_div_assoc]
    refine le_trans Nat.cast_div_le (le_of_eq ?_)
    push_cast
    rfl
  have hTrunc : x.trunc = if x.negative then -(m : Int) else m := by
    rw [trunc, hm]
  have hNonneg : (0 : ℚ) ≤ m := Nat.cast_nonneg m
  refine le_trans ?_ hFloor
  rw [hTrunc]
  split <;> push_cast <;> linarith

/-- The greatest number below one is less by the last of its 53 bits, and no other number is between
them. -/
theorem toRat_le_of_lt_one (hNonneg : 0 ≤ f.toRat) (h : f.toRat < 1) :
    f.toRat ≤ 1 - 1 / 2 ^ 53 := by
  rw [toRat_of_nonneg hNonneg] at h ⊢
  rcases le_or_gt (-53) f.exponent with hHigh | hLow
  · obtain ⟨d, hd⟩ : ∃ d : Nat, f.exponent = d + -53 := ⟨(f.exponent + 53).toNat, by omega⟩
    have hShift : (f.mantissa : ℚ) * 2 ^ f.exponent = (f.mantissa * 2 ^ d : Nat) / 2 ^ 53 := by
      rw [hd, zpow_add₀ two_ne_zero, zpow_natCast, zpow_neg]
      push_cast
      norm_num
      ring
    rw [hShift] at h ⊢
    have hLess : f.mantissa * 2 ^ d < 2 ^ 53 := by
      rw [div_lt_one (by positivity)] at h
      exact_mod_cast h
    have hMost : ((f.mantissa * 2 ^ d : Nat) : ℚ) + 1 ≤ 2 ^ 53 := by exact_mod_cast hLess
    rw [div_le_iff₀ (by positivity)]
    linarith
  · have hMantissa : (f.mantissa : ℚ) ≤ 2 ^ 53 := by exact_mod_cast f.bound.le
    calc (f.mantissa : ℚ) * 2 ^ f.exponent ≤ 2 ^ 53 * 2 ^ (-54 : Int) := by
          gcongr
          · exact one_le_two
          · omega
      _ ≤ 1 - 1 / 2 ^ 53 := by norm_num

/-- The product of two numbers is their exact product, rounded; it exists unless the rounded value
is beyond the largest number. -/
theorem mul_rounds (hx : 0 ≤ x.toRat) (hf : 0 ≤ f.toRat) (hProduct : x.mantissa * f.mantissa ≠ 0) :
    ∃ units place, Rounds (x.toRat * f.toRat) units place ∧
      ((units : ℚ) * 2 ^ place < overflowBound →
        ∃ z, x.mul f = some z ∧ z.toRat = units * 2 ^ place) := by
  have hPlus : ∀ {y : F64}, 0 ≤ y.toRat → y.mantissa ≠ 0 → y.negative = false :=
    fun h hMantissa => (negative_of_nonneg h).resolve_left hMantissa
  have hParts : x.mantissa ≠ 0 ∧ f.mantissa ≠ 0 := Nat.mul_ne_zero_iff.mp hProduct
  have hSign : (x.negative != f.negative) = false := by
    rw [hPlus hx hParts.1, hPlus hf hParts.2]
    rfl
  have hValue : x.toRat * f.toRat =
      ((x.mantissa * f.mantissa * 2 ^ (x.exponent + f.exponent).toNat : Nat) : ℚ) /
        (2 ^ (-(x.exponent + f.exponent)).toNat : Nat) := by
    rw [toRat_of_nonneg hx, toRat_of_nonneg hf]
    push_cast
    rw [mul_div_assoc, ← two_zpow, zpow_add₀ two_ne_zero]
    ring
  rw [hValue, mul, hSign, ofDyadic]
  exact ofRatio_rounds (Nat.mul_ne_zero hProduct (Nat.two_pow_pos _).ne') (Nat.two_pow_pos _).ne'

end F64
end OwsRuntime
