import Mathlib.Algebra.Order.Field.Power
import Mathlib.Tactic.Positivity
import Mathlib.Tactic.FieldSimp
import OwsRuntime.Core.Equality
import OwsRuntime.Core.Float

/-! The order of binary64 numbers is that of the fractions which they stand for. -/
namespace OwsRuntime
namespace F64

variable {x y : F64}

/-- The number as a fraction. -/
def toRat (x : F64) : ℚ := (x.scaled x.exponent : ℚ) * 2 ^ x.exponent

theorem scaled_self (x : F64) :
    x.scaled x.exponent = if x.negative then -(x.mantissa : Int) else x.mantissa := by
  simp [scaled]

theorem scaled_eq_mul (x : F64) (e : Int) :
    x.scaled e = x.scaled x.exponent * 2 ^ (x.exponent - e).toNat := by
  rw [scaled_self, scaled]
  cases x.negative <;> simp

theorem scaled_mul {e : Int} (hExponent : e ≤ x.exponent) : (x.scaled e : ℚ) * 2 ^ e = x.toRat := by
  have hShift : ((x.exponent - e).toNat : Int) = x.exponent - e := by omega
  rw [scaled_eq_mul, toRat]
  push_cast
  rw [← zpow_natCast, hShift, mul_assoc, ← zpow_add₀ two_ne_zero, sub_add_cancel]

/-- Both numbers at their common exponent. -/
theorem scaled_lt_iff (x y : F64) : x.scaled (min x.exponent y.exponent) <
    y.scaled (min x.exponent y.exponent) ↔ x.toRat < y.toRat := by
  rw [← scaled_mul (Int.min_le_left x.exponent y.exponent),
    ← scaled_mul (Int.min_le_right x.exponent y.exponent), mul_lt_mul_iff_left₀ (by positivity)]
  exact Int.cast_lt.symm

/-- Numbers compare as their fractions do, whatever their signs and exponents are. -/
theorem compare_eq_toRat (x y : F64) : x.compare y = Ord.compare x.toRat y.toRat := by
  rw [compare]
  rcases lt_trichotomy x.toRat y.toRat with hLess | hSame | hMore
  · rw [compare_lt_iff_lt.mpr hLess]
    exact compare_lt_iff_lt.mpr ((scaled_lt_iff x y).mpr hLess)
  · rw [compare_eq_iff_eq.mpr hSame]
    apply compare_eq_iff_eq.mpr
    apply le_antisymm
    · apply not_lt.mp
      rw [min_comm, scaled_lt_iff]
      exact hSame.symm.not_lt
    · apply not_lt.mp
      rw [scaled_lt_iff]
      exact hSame.not_lt
  · rw [compare_gt_iff_gt.mpr hMore]
    apply compare_gt_iff_gt.mpr
    rw [min_comm]
    exact (scaled_lt_iff y x).mpr hMore

/-- A fraction has one odd mantissa. -/
theorem exponent_le_of_toRat (hSame : x.toRat = y.toRat) (hZero : x.mantissa ≠ 0) :
    y.exponent ≤ x.exponent := by
  by_contra hLess
  have hLow : x.exponent ≤ y.exponent := by omega
  have hInts : x.scaled x.exponent = y.scaled x.exponent := by
    have hRats : (x.scaled x.exponent : ℚ) * 2 ^ x.exponent =
        (y.scaled x.exponent : ℚ) * 2 ^ x.exponent :=
      (scaled_mul (le_refl _)).trans (hSame.trans (scaled_mul hLow).symm)
    exact Int.cast_injective (mul_right_cancel₀ (by positivity) hRats)
  obtain ⟨k, hk⟩ : ∃ k : Nat, (y.exponent - x.exponent).toNat = k + 1 :=
    ⟨(y.exponent - x.exponent).toNat - 1, by omega⟩
  rw [scaled_eq_mul y, hk, pow_succ, ← mul_assoc, scaled_self] at hInts
  have hEven : x.mantissa % 2 = 0 := by split at hInts <;> omega
  rcases x.normal with hOdd | hNone
  · omega
  · exact hZero hNone.1

theorem mantissa_eq_zero_iff : x.mantissa = 0 ↔ x.toRat = 0 := by
  rw [toRat, mul_eq_zero_iff_right (by positivity), scaled_self, Int.cast_eq_zero]
  split <;> omega

/-- Equality of numbers, which ignores the sign of zero, is equality of fractions. -/
theorem eq_iff_toRat : x.eq y = true ↔ x.toRat = y.toRat := by
  rw [eq_iff]
  constructor
  · rintro ⟨⟨hMantissa, hExponent⟩, hSign | hZero⟩
    · rw [toRat, toRat, scaled_self, scaled_self, hMantissa, hExponent, hSign]
    · rw [mantissa_eq_zero_iff.mp hZero, mantissa_eq_zero_iff.mp (hMantissa ▸ hZero)]
  · intro hSame
    by_cases hZero : x.mantissa = 0
    · have hOther : y.mantissa = 0 := by
        rw [mantissa_eq_zero_iff] at hZero ⊢
        rw [← hSame, hZero]
      have hExponents : x.exponent = 0 ∧ y.exponent = 0 := by
        have hNormal := x.normal
        have hNormal' := y.normal
        omega
      exact ⟨⟨hZero.trans hOther.symm, hExponents.1.trans hExponents.2.symm⟩, Or.inr hZero⟩
    · have hOther : y.mantissa ≠ 0 := by
        intro hNone
        rw [mantissa_eq_zero_iff] at hZero hNone
        exact hZero (hSame.trans hNone)
      have hExponent : x.exponent = y.exponent :=
        le_antisymm (exponent_le_of_toRat hSame.symm hOther) (exponent_le_of_toRat hSame hZero)
      rw [toRat, toRat, hExponent] at hSame
      have hInts : x.scaled x.exponent = y.scaled y.exponent := by
        rw [hExponent]
        exact Int.cast_injective (mul_right_cancel₀ (by positivity) hSame)
      rw [scaled_self, scaled_self] at hInts
      refine ⟨⟨?_, hExponent⟩, Or.inl ?_⟩
      · split at hInts <;> split at hInts <;> omega
      · cases hX : x.negative <;> cases hY : y.negative <;> rw [hX, hY] at hInts <;> simp_all

end F64
end OwsRuntime
