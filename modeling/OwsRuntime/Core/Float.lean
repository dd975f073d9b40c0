import OwsRuntime.Core.Services

/-! Arithmetic of binary64 numbers. Results are rounded to the nearest number,
ties going to the even one; `none` is a result that is not finite. -/
namespace OwsRuntime
namespace F64

/-- The exponent of the leading bit of a fraction, both parts positive. -/
def leadingExponent (num den : Nat) : Int :=
  let l : Int := (num.log2 : Int) - den.log2
  if den * 2 ^ l.toNat ≤ num * 2 ^ (-l).toNat then l else l - 1

/-- The quotient, rounded. -/
def roundDiv (num den : Nat) : Nat :=
  let q := num / den
  let r := num % den
  if den < 2 * r ∨ (2 * r = den ∧ q % 2 = 1) then q + 1 else q

/-- The least power of two that is too large, the one of 1024. -/
def overflowBound : Nat := (2 ^ 256) ^ 4

/-- Rounds a fraction with a positive denominator. -/
def ofRatio (negative : Bool) (num den : Nat) : Option F64 :=
  if num = 0 then some zero
  else
    let shift := max (leadingExponent num den - 52) (-1074)
    let q := roundDiv (num * 2 ^ (-shift).toNat) (den * 2 ^ shift.toNat)
    if overflowBound ≤ q * 2 ^ shift.toNat ∧ 0 ≤ shift then none
    else some (normalize negative 55 q shift)

/-- Rounds `± m * 2 ^ e`. -/
def ofDyadic (negative : Bool) (m : Nat) (e : Int) : Option F64 :=
  ofRatio negative (m * 2 ^ e.toNat) (2 ^ (-e).toNat)

/-- The integer `n` with `x = n * 2 ^ e`, for an exponent `e` that is not above the number's. -/
def scaled (x : F64) (e : Int) : Int :=
  let m : Int := (x.mantissa * 2 ^ (x.exponent - e).toNat : Nat)
  if x.negative then -m else m

def neg (x : F64) : F64 := { x with negative := !x.negative }

def abs (x : F64) : F64 := { x with negative := false }

def add (x y : F64) : Option F64 :=
  let e := min x.exponent y.exponent
  let n := x.scaled e + y.scaled e
  ofDyadic (n < 0) n.natAbs e

def sub (x y : F64) : Option F64 := x.add y.neg

def mul (x y : F64) : Option F64 :=
  ofDyadic (x.negative != y.negative) (x.mantissa * y.mantissa) (x.exponent + y.exponent)

/-- The quotient by a number that is not zero. -/
def div (x y : F64) : Option F64 :=
  let e := x.exponent - y.exponent
  ofRatio (x.negative != y.negative) (x.mantissa * 2 ^ e.toNat) (y.mantissa * 2 ^ (-e).toNat)

/-- The remainder by a number that is not zero, with the sign of the dividend. -/
def rem (x y : F64) : Option F64 :=
  let e := min x.exponent y.exponent
  ofDyadic x.negative ((x.scaled e).natAbs % (y.scaled e).natAbs) e

/-- The number truncated to an integer. -/
def trunc (x : F64) : Int :=
  let m := x.mantissa * 2 ^ x.exponent.toNat / 2 ^ (-x.exponent).toNat
  if x.negative then -m else m

/-- The number without a fractional part, when it has none. -/
def toInt? (x : F64) : Option Int := if 0 ≤ x.exponent then some x.trunc else none

def floor (x : F64) : F64 :=
  if 0 ≤ x.exponent then x
  else if x.negative then ofInt (x.trunc - 1) else ofInt x.trunc

/-- `as i64`, which saturates. -/
def toI64 (x : F64) : Int := max (-2 ^ 63) (min x.trunc (2 ^ 63 - 1))

/-- `as usize`, which saturates. -/
def toUsize (x : F64) : Nat := (max 0 (min x.trunc (2 ^ 64 - 1))).toNat

def compare (x y : F64) : Ordering :=
  let e := min x.exponent y.exponent
  Ord.compare (x.scaled e) (y.scaled e)

def isZero (x : F64) : Bool := x.mantissa == 0

end F64

/-- The number of a JSON value, from a number that may not be finite. -/
def jsonNum : Option F64 → Value
  | none => .null
  | some x =>
      match x.toInt? with
      | some n => if n.natAbs < 2 ^ 53 then .number (.int n) else .number (.float x)
      | none => .number (.float x)

/-- `as_i64` of a number. -/
def Number.asI64 : Number → Option Int
  | .int n => if -2 ^ 63 ≤ n ∧ n < 2 ^ 63 then some n else none
  | .float _ => none

def Value.asF64 : Value → Option F64
  | .number n => some n.asF64
  | _ => none

namespace F64

/-- Dropping factors of two keeps the value and the sign: what the significand loses is added to the
exponent. The induction is on the fuel. -/
theorem normalize_value {negative : Bool} {fuel m : Nat} {e : Int} (hPos : 0 < m)
    (hBound : m ≤ 2 ^ 53) (hFuel : m < 2 ^ fuel) :
    (normalize negative fuel m e).negative = negative ∧ e ≤ (normalize negative fuel m e).exponent ∧
      (normalize negative fuel m e).mantissa *
        2 ^ ((normalize negative fuel m e).exponent - e).toNat = m := by
  induction fuel generalizing m e with
  | zero => omega
  | succ fuel ih =>
      rw [normalize]
      split
      · refine ⟨rfl, Int.le_refl e, ?_⟩
        simp
      · rename_i hOdd
        have hEven : m % 2 = 0 := by omega
        have hHalf := @ih (m / 2) (e + 1) (by omega) (by omega) (by rw [Nat.pow_succ] at hFuel; omega)
        obtain ⟨hNegative, hExponent, hValue⟩ := hHalf
        refine ⟨hNegative, by omega, ?_⟩
        generalize normalize negative fuel (m / 2) (e + 1) = x at *
        have hShift : (x.exponent - e).toNat = (x.exponent - (e + 1)).toNat + 1 := by omega
        rw [hShift, Nat.pow_succ, ← Nat.mul_assoc, hValue]
        omega

theorem le_overflowBound : 2 ^ 53 ≤ overflowBound := by decide

theorem roundDiv_one (n : Nat) : roundDiv n 1 = n := by
  simp [roundDiv, Nat.mod_one]

theorem leadingExponent_nat {n : Nat} (hZero : n ≠ 0) : leadingExponent n 1 = n.log2 := by
  have hOne : Nat.log2 1 = 0 := by decide
  have hCond : 1 * 2 ^ ((n.log2 : Int) - (0 : Nat)).toNat ≤
      n * 2 ^ (-((n.log2 : Int) - (0 : Nat))).toNat := by
    have hPos : ((n.log2 : Int) - (0 : Nat)).toNat = n.log2 := by omega
    have hNeg : (-((n.log2 : Int) - (0 : Nat))).toNat = 0 := by omega
    rw [hPos, hNeg, Nat.pow_zero, Nat.one_mul, Nat.mul_one]
    exact Nat.log2_self_le hZero
  rw [leadingExponent, hOne, if_pos hCond]
  omega

/-- Integers of up to 53 bits are represented exactly: the significand has room for all of their
digits, and nothing is rounded off. -/
theorem ofRatio_nat {n : Nat} (hBound : n < 2 ^ 53) :
    ∃ x, ofRatio false n 1 = some x ∧ x.toInt? = some (n : Int) := by
  by_cases hZero : n = 0
  · subst hZero
    exact ⟨zero, rfl, rfl⟩
  · have hLog : n.log2 < 53 := (Nat.log2_lt hZero).mpr hBound
    have hHigh : n < 2 ^ (n.log2 + 1) := Nat.lt_log2_self
    have hLeading := leadingExponent_nat hZero
    obtain ⟨k, hk⟩ : ∃ k : Nat, n.log2 + k = 52 := ⟨52 - n.log2, by omega⟩
    have hShift : max ((n.log2 : Int) - 52) (-1074) = -(k : Int) := by omega
    have hScaled : n * 2 ^ k < 2 ^ 53 := by
      have hExponent : n.log2 + 1 + k = 53 := by omega
      rw [← hExponent, Nat.pow_add]
      exact Nat.mul_lt_mul_of_pos_right hHigh (Nat.two_pow_pos k)
    have hNegated : (-(-(k : Int))).toNat = k := by omega
    have hNone : (-(k : Int)).toNat = 0 := by omega
    refine ⟨normalize false 55 (n * 2 ^ k) (-(k : Int)), ?_, ?_⟩
    · rw [ofRatio, if_neg hZero, hLeading, hShift]
      simp only [hNegated, hNone, Nat.pow_zero, Nat.mul_one, roundDiv_one]
      refine if_neg fun hOver => ?_
      have hLarge : (2 : Nat) ^ 53 ≤ overflowBound := le_overflowBound
      exact Nat.not_le.mpr (Nat.lt_of_lt_of_le hScaled hLarge) hOver.1
    · have hPos : 0 < n * 2 ^ k := Nat.mul_pos (by omega) (Nat.two_pow_pos k)
      have hLarge : (2 : Nat) ^ 53 ≤ 2 ^ 55 := Nat.pow_le_pow_right (by decide) (by decide)
      obtain ⟨hNegative, hExponent, hValue⟩ :=
        @normalize_value false 55 (n * 2 ^ k) (-(k : Int)) hPos (by omega) (by omega)
      generalize normalize false 55 (n * 2 ^ k) (-(k : Int)) = x at *
      have hOdd : x.mantissa % 2 = 1 := by
        rcases x.normal with h | ⟨h, _⟩
        · exact h
        · rw [h, Nat.zero_mul] at hValue
          omega
      -- An odd mantissa leaves all the factors of two to the exponent.
      have hWhole : 0 ≤ x.exponent := by
        by_contra hLess
        obtain ⟨d, hd⟩ : ∃ d : Nat, k = (x.exponent - -(k : Int)).toNat + (d + 1) :=
          ⟨k - (x.exponent - -(k : Int)).toNat - 1, by omega⟩
        generalize (x.exponent - -(k : Int)).toNat = a at *
        subst hd
        have hCancel : x.mantissa = n * 2 ^ (d + 1) := by
          apply Nat.eq_of_mul_eq_mul_right (Nat.two_pow_pos a)
          rw [hValue, Nat.pow_add, Nat.mul_comm (2 ^ a), Nat.mul_assoc]
        rw [hCancel, Nat.pow_succ, ← Nat.mul_assoc] at hOdd
        omega
      have hCancel : x.mantissa * 2 ^ x.exponent.toNat = n := by
        have hSum : (x.exponent - -(k : Int)).toNat = x.exponent.toNat + k := by omega
        rw [hSum, Nat.pow_add, ← Nat.mul_assoc] at hValue
        exact Nat.eq_of_mul_eq_mul_right (Nat.two_pow_pos k) hValue
      have hTrunc : x.trunc = n := by
        have hNone : (-x.exponent).toNat = 0 := by omega
        rw [trunc, hNegative, hNone, hCancel]
        simp
      rw [toInt?, if_pos hWhole, hTrunc]

/-- A larger integer is rounded at the bits after its first 53. -/
theorem ofRatio_rounded {n k : Nat} (hLog : n.log2 = 52 + k) (hBound : n < 2 ^ 64) :
    ∃ x, ofRatio false n 1 = some x ∧
      x.toInt? = some ((roundDiv n (2 ^ k) * 2 ^ k : Nat) : Int) := by
  have hZero : n ≠ 0 := by
    intro hEq
    subst hEq
    simp only [Nat.log2_zero] at hLog
    omega
  have hLow : 2 ^ n.log2 ≤ n := Nat.log2_self_le hZero
  have hHigh : n < 2 ^ (n.log2 + 1) := Nat.lt_log2_self
  have hShift : max (leadingExponent n 1 - 52) (-1074) = (k : Int) := by
    rw [leadingExponent_nat hZero]
    omega
  have hSmall : k < 12 := by
    have hLess : n.log2 < 64 := (Nat.log2_lt hZero).mpr hBound
    omega
  -- The quotient has 53 bits, and rounding up adds one.
  have hQuotient : 2 ^ 52 ≤ n / 2 ^ k ∧ n / 2 ^ k < 2 ^ 53 := by
    rw [Nat.le_div_iff_mul_le (Nat.two_pow_pos k), Nat.div_lt_iff_lt_mul (Nat.two_pow_pos k),
      ← Nat.pow_add, ← Nat.pow_add]
    have hSum : 53 + k = n.log2 + 1 := by omega
    rw [← hLog, hSum]
    exact ⟨hLow, hHigh⟩
  have hRounded : 2 ^ 52 ≤ roundDiv n (2 ^ k) ∧ roundDiv n (2 ^ k) ≤ 2 ^ 53 := by
    simp only [roundDiv]
    split <;> omega
  have hNone : (-(k : Int)).toNat = 0 := by omega
  have hCast : (k : Int).toNat = k := by omega
  refine ⟨normalize false 55 (roundDiv n (2 ^ k)) k, ?_, ?_⟩
  · rw [ofRatio, if_neg hZero, hShift]
    simp only [hNone, hCast, Nat.pow_zero, Nat.mul_one, Nat.one_mul]
    refine if_neg fun hOver => ?_
    have hPower : (2 : Nat) ^ k ≤ 2 ^ 11 := Nat.pow_le_pow_right (by decide) (by omega)
    have hProduct : roundDiv n (2 ^ k) * 2 ^ k ≤ 2 ^ 53 * 2 ^ 11 :=
      Nat.mul_le_mul hRounded.2 hPower
    have hLarge : 2 ^ 53 * 2 ^ 11 < overflowBound := by decide
    omega
  · obtain ⟨hNegative, hExponent, hValue⟩ :=
      @normalize_value false 55 (roundDiv n (2 ^ k)) k (by omega) (by omega) (by omega)
    generalize normalize false 55 (roundDiv n (2 ^ k)) k = x at *
    have hWhole : 0 ≤ x.exponent := by omega
    have hExponents : x.exponent.toNat = (x.exponent - k).toNat + k := by omega
    have hZeroShift : (-x.exponent).toNat = 0 := by omega
    rw [toInt?, if_pos hWhole, trunc, hNegative, hExponents, Nat.pow_add, ← Nat.mul_assoc, hValue,
      hZeroShift]
    simp

/-- Rounding to a multiple keeps the multiples alone. -/
theorem roundDiv_mul_eq_iff {n den : Nat} (hPos : 0 < den) :
    roundDiv n den * den = n ↔ den ∣ n := by
  constructor
  · intro hSame
    exact ⟨roundDiv n den, by rw [Nat.mul_comm, hSame]⟩
  · rintro ⟨q, rfl⟩
    have hRemainder : den * q % den = 0 := Nat.mul_mod_right den q
    simp only [roundDiv, hRemainder, Nat.mul_div_cancel_left q hPos]
    rw [if_neg (by omega), Nat.mul_comm]

theorem roundDiv_mul_le {n den : Nat} : roundDiv n den * den ≤ n + den := by
  have hQuotient : n / den * den ≤ n := Nat.div_mul_le_self n den
  simp only [roundDiv]
  split
  · rw [Nat.add_mul]
    omega
  · omega

/-- A natural number of 64 bits is rounded to an integer: to itself exactly when the bits that do
not fit are zero, and to one that is larger by 2048 at most otherwise. -/
theorem ofRatio_toInt? {n : Nat} (hBound : n < 2 ^ 64) : ∃ (x : F64) (m : Nat), ofRatio false n 1 = some x ∧
    x.toInt? = some (m : Int) ∧ (m = n ↔ 2 ^ (n.log2 - 52) ∣ n) ∧ m ≤ n + 2 ^ 11 := by
  by_cases hSmall : n < 2 ^ 53
  · obtain ⟨x, hx, hValue⟩ := ofRatio_nat hSmall
    have hLog : n.log2 - 52 = 0 := by
      by_cases hZero : n = 0
      · simp [hZero]
      · have hLess : n.log2 < 53 := (Nat.log2_lt hZero).mpr hSmall
        omega
    exact ⟨x, n, hx, hValue, by simp [hLog], by omega⟩
  · have hZero : n ≠ 0 := by omega
    have hLow : ¬n.log2 < 53 := fun hLess => hSmall ((Nat.log2_lt hZero).mp hLess)
    have hHigh : n.log2 < 64 := (Nat.log2_lt hZero).mpr hBound
    obtain ⟨k, hk⟩ : ∃ k, n.log2 = 52 + k := ⟨n.log2 - 52, by omega⟩
    obtain ⟨x, hx, hValue⟩ := ofRatio_rounded hk hBound
    have hShift : n.log2 - 52 = k := by omega
    have hPower : (2 : Nat) ^ k ≤ 2 ^ 11 := Nat.pow_le_pow_right (by decide) (by omega)
    have hNear : roundDiv n (2 ^ k) * 2 ^ k ≤ n + 2 ^ k := roundDiv_mul_le
    rw [hShift]
    exact ⟨x, _, hx, hValue, roundDiv_mul_eq_iff (Nat.two_pow_pos k), by omega⟩

/-- The product of two integers is rounded once, as if it had been computed exactly before. -/
theorem mul_toInt? {x y : F64} {a b : Nat} (hx : x.toInt? = some (a : Int))
    (hy : y.toInt? = some (b : Int)) : x.mul y = ofRatio false (a * b) 1 := by
  have hParts : ∀ {z : F64} {n : Nat}, z.toInt? = some (n : Int) → 0 ≤ z.exponent ∧
      z.mantissa * 2 ^ z.exponent.toNat = n ∧ (z.negative = false ∨ n = 0) := by
    intro z n hz
    rw [toInt?] at hz
    split at hz
    · rename_i hExponent
      have hZeroShift : (-z.exponent).toNat = 0 := by omega
      injection hz with hTrunc
      rw [trunc, hZeroShift, Nat.pow_zero, Nat.div_one] at hTrunc
      generalize z.mantissa * 2 ^ z.exponent.toNat = m at *
      cases hSign : z.negative <;> simp only [hSign] at hTrunc
      · exact ⟨hExponent, by simp only [Bool.false_eq_true, if_false] at hTrunc; omega, .inl rfl⟩
      · simp only [if_true] at hTrunc
        exact ⟨hExponent, by omega, .inr (by omega)⟩
    · cases hz
  obtain ⟨hxExponent, hxValue, hxSign⟩ := hParts hx
  obtain ⟨hyExponent, hyValue, hySign⟩ := hParts hy
  have hSum : (x.exponent + y.exponent).toNat = x.exponent.toNat + y.exponent.toNat := by omega
  have hZeroShift : (-(x.exponent + y.exponent)).toNat = 0 := by omega
  have hProduct : x.mantissa * y.mantissa * 2 ^ (x.exponent.toNat + y.exponent.toNat) = a * b := by
    rw [Nat.pow_add, ← hxValue, ← hyValue]
    ac_rfl
  rw [mul, ofDyadic, hSum, hZeroShift, hProduct, Nat.pow_zero]
  by_cases hZero : a * b = 0
  · simp [hZero, ofRatio]
  · have ha : a ≠ 0 := fun h => hZero (by simp [h])
    have hb : b ≠ 0 := fun h => hZero (by simp [h])
    simp [hxSign.resolve_right ha, hySign.resolve_right hb]

theorem ofInt_toInt? {n : Int} (hBound : n.natAbs < 2 ^ 53) : (ofInt n).toInt? = some n := by
  rw [ofInt]
  simp only [if_pos hBound]
  by_cases hZero : n = 0
  · subst hZero
    decide
  · have hPos : 0 < n.natAbs := by omega
    have hLarge : (2 : Nat) ^ 53 ≤ 2 ^ 54 := Nat.pow_le_pow_right (by decide) (by decide)
    obtain ⟨hNegative, hExponent, hValue⟩ :=
      @normalize_value (decide (n < 0)) 54 n.natAbs 0 hPos (by omega) (by omega)
    generalize normalize (decide (n < 0)) 54 n.natAbs 0 = x at *
    have hShift : (x.exponent - 0).toNat = x.exponent.toNat := by omega
    rw [hShift] at hValue
    have hNone : (-x.exponent).toNat = 0 := by omega
    rw [toInt?, if_pos hExponent, trunc, hNegative, hNone, hValue]
    simp only [Nat.pow_zero, Nat.div_one, decide_eq_true_eq, Option.some.injEq]
    split <;> omega

theorem toInt?_neg {x : F64} {n : Int} (hInt : x.toInt? = some n) : x.neg.toInt? = some (-n) := by
  rw [toInt?] at hInt
  split at hInt
  · rename_i hExponent
    injection hInt with hTrunc
    rw [toInt?, neg, if_pos hExponent, ← hTrunc, trunc, trunc]
    cases x.negative <;> simp
  · cases hInt

end F64

/-- A number with an integral value that is small enough becomes an integer. -/
theorem jsonNum_of_toInt? {x : F64} {n : Int} (hInt : x.toInt? = some n)
    (hBound : n.natAbs < 2 ^ 53) : jsonNum (some x) = .number (.int n) := by
  rw [jsonNum, hInt]
  exact if_pos hBound

theorem jsonNum_nat {n : Nat} (hBound : n < 2 ^ 53) :
    jsonNum (F64.ofRatio false n 1) = .number (.int n) := by
  obtain ⟨x, hx, hValue⟩ := F64.ofRatio_nat hBound
  rw [hx, jsonNum_of_toInt? hValue hBound]

end OwsRuntime
