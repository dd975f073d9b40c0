import OwsRuntime.Core.Rounding
import OwsRuntime.Engine.Attempts

/-! The delays between the retries of a task. They grow with the attempts up to the longest
duration, and a random fraction below one adds less than the whole range of the jitter. -/
namespace OwsRuntime

open Async

/-- A result of `next_f64`. -/
structure F64.Fraction (f : F64) : Prop where
  nonneg : 0 ≤ f.toRat
  lt_one : f.toRat < 1

/-- The part of a range in milliseconds that a fraction takes, as `u64`. -/
def jitterMillis (range : Nat) (f : F64) : Nat :=
  match (F64.ofRatio false range 1).bind fun x => x.mul f with
  | some x => x.toUsize
  | none => 2 ^ 64 - 1

/-- What `compute_delay` returns for a random fraction. -/
def delayAt (retry : RetryPolicyDef) (attempt : Nat) (f : F64) : Nat :=
  match retry.jitter with
  | none => backoffDelay retry attempt
  | some (from_, to_) =>
      let extra := min (from_ + jitterMillis ((to_ - from_) / 1000000) f * 1000000) maxDuration
      min (backoffDelay retry attempt + extra) maxDuration

/-- The durations of a policy are no longer than the longest one. -/
structure RetryPolicyDef.Durations (retry : RetryPolicyDef) : Prop where
  delay : retry.delay.getD 0 ≤ maxDuration
  jitter : ∀ range ∈ retry.jitter, range.1 ≤ maxDuration ∧ range.2 ≤ maxDuration

section Jitter

variable {f : F64} {range : Nat}

theorem jitterMillis_zero (f : F64) : jitterMillis 0 f = 0 := by
  have hZero : F64.zero.mul f = some F64.zero := by
    simp [F64.mul, F64.ofDyadic, F64.ofRatio, F64.zero]
  have hNone : F64.ofRatio false 0 1 = some F64.zero := rfl
  rw [jitterMillis, hNone, Option.bind_some, hZero]
  rfl

theorem toUsize_lt {z : F64} (hNonneg : 0 ≤ z.toRat) (hLess : z.toRat < range) :
    z.toUsize < range := by
  have hTrunc : z.trunc < range := by
    exact_mod_cast (F64.trunc_le hNonneg).trans_lt hLess
  have hPos : 0 < range := by exact_mod_cast hNonneg.trans_lt hLess
  rw [F64.toUsize]
  omega

/-- A fraction of a range is less than the range, also when both the range and the product
are rounded. -/
theorem jitterMillis_lt (fraction : f.Fraction) (hPos : 0 < range) (hBound : range ≤ maxDuration) :
    jitterMillis range f < range := by
  have hLarge : (maxDuration : ℚ) * 2 < F64.overflowBound := by
    exact_mod_cast (by decide : maxDuration * 2 < F64.overflowBound)
  have hRange : (range : ℚ) ≤ maxDuration := by exact_mod_cast hBound
  have hOne : (1 : ℚ) ≤ range := by exact_mod_cast hPos
  obtain ⟨units, place, rounds, hNumber⟩ := F64.ofRatio_rounds hPos.ne' one_ne_zero
  rw [Nat.cast_one, div_one] at rounds
  have hUnit : (0 : ℚ) < 2 ^ place := by positivity
  have hPlace : -53 < place := by
    have hBelow : (2 : ℚ) ^ (0 : Int) < 2 ^ (place + 53) := by
      rw [zpow_zero]
      exact hOne.trans_lt rounds.below
    have hExponents := (zpow_lt_zpow_iff_right₀ one_lt_two).mp hBelow
    omega
  have hFull : 2 ^ (place + 52) ≤ (range : ℚ) := rounds.full.resolve_left (by omega)
  have hSmall : (2 : ℚ) ^ place ≤ range :=
    (zpow_le_zpow_right₀ one_le_two (by omega)).trans hFull
  obtain ⟨x, hx, hValue⟩ := hNumber (by linarith [rounds.le_add_half])
  have hNonneg : 0 ≤ x.toRat := by
    rw [hValue]
    positivity
  rw [jitterMillis, hx, Option.bind_some]
  by_cases hProduct : x.mantissa * f.mantissa = 0
  · have hZero : x.mul f = some F64.zero := by
      simp [F64.mul, F64.ofDyadic, F64.ofRatio, hProduct]
    rw [hZero]
    exact hPos
  · obtain ⟨units', place', scaled, hNumber'⟩ := F64.mul_rounds hNonneg fraction.nonneg hProduct
    have hScaled : x.toRat * f.toRat ≤ units * 2 ^ place * (1 - 1 / 2 ^ 53) := by
      rw [hValue] at hNonneg ⊢
      exact mul_le_mul_of_nonneg_left (F64.toRat_le_of_lt_one fraction.nonneg fraction.lt_one) hNonneg
    have hLess := rounds.scaled_lt hFull (by omega) hScaled scaled
    obtain ⟨z, hz, hProductValue⟩ := hNumber' (by linarith)
    rw [hz]
    rw [← hProductValue] at hLess
    refine toUsize_lt ?_ hLess
    rw [hProductValue]
    positivity

theorem jitterMillis_le (fraction : f.Fraction) (hBound : range ≤ maxDuration) :
    jitterMillis range f ≤ range - 1 := by
  rcases Nat.eq_zero_or_pos range with rfl | hPos
  · rw [jitterMillis_zero]
  · exact Nat.le_sub_one_of_lt (jitterMillis_lt fraction hPos hBound)

end Jitter

section Delays

variable {retry : RetryPolicyDef}

theorem backoffDelay_mono (retry : RetryPolicyDef) {first later : Nat} (hOrder : first ≤ later)
    (hLater : later < 2 ^ 32) : backoffDelay retry first ≤ backoffDelay retry later := by
  have hFirst : first % 2 ^ 32 = first := Nat.mod_eq_of_lt (hOrder.trans_lt hLater)
  rw [backoffDelay, backoffDelay, hFirst, Nat.mod_eq_of_lt hLater]
  cases retry.backoff with
  | constant => exact Nat.le_refl _
  | linear => exact min_le_min_right _ (Nat.mul_le_mul_left _ hOrder)
  | exponential =>
      have hPower : 2 ^ (first - 1) ≤ 2 ^ (later - 1) :=
        Nat.pow_le_pow_right two_pos (Nat.sub_le_sub_right hOrder 1)
      exact min_le_min_right _ (Nat.mul_le_mul_left _ (min_le_min_right _ hPower))

theorem base_le_backoffDelay (durations : retry.Durations) {attempt : Nat} (hFirst : 1 ≤ attempt)
    (hAttempt : attempt < 2 ^ 32) : retry.delay.getD 0 ≤ backoffDelay retry attempt := by
  rw [backoffDelay, Nat.mod_eq_of_lt hAttempt]
  cases retry.backoff with
  | constant => exact Nat.le_refl _
  | linear => exact le_min (Nat.le_mul_of_pos_right _ hFirst) durations.delay
  | exponential =>
      have hFactor : 0 < min (2 ^ (attempt - 1)) (2 ^ 32 - 1) :=
        lt_min (Nat.two_pow_pos _) (by decide)
      exact le_min (Nat.le_mul_of_pos_right _ hFactor) durations.delay

theorem backoffDelay_le (durations : retry.Durations) (attempt : Nat) :
    backoffDelay retry attempt ≤ maxDuration := by
  rw [backoffDelay]
  cases retry.backoff with
  | constant => exact durations.delay
  | linear => exact Nat.min_le_right _ _
  | exponential => exact Nat.min_le_right _ _

theorem delayAt_le (durations : retry.Durations) (attempt : Nat) (f : F64) :
    delayAt retry attempt f ≤ maxDuration := by
  rw [delayAt]
  cases retry.jitter with
  | none => exact backoffDelay_le durations attempt
  | some range => exact Nat.min_le_right _ _

/-- The jitter is at least the beginning of its range, and at most the end. -/
theorem delayAt_between (durations : retry.Durations) {from_ to_ : Nat}
    (hJitter : retry.jitter = some (from_, to_)) (hRange : from_ ≤ to_) {f : F64}
    (fraction : f.Fraction) (attempt : Nat) :
    min (backoffDelay retry attempt + from_) maxDuration ≤ delayAt retry attempt f ∧
      delayAt retry attempt f ≤ min (backoffDelay retry attempt + to_) maxDuration := by
  have hLongest := (durations.jitter _ hJitter).2
  have hMillis : jitterMillis ((to_ - from_) / 1000000) f ≤ (to_ - from_) / 1000000 :=
    (jitterMillis_le fraction (by omega)).trans (Nat.sub_le _ _)
  rw [delayAt, hJitter]
  dsimp only
  omega

/-- The engine waits for that long, when its random source returns the fraction. -/
theorem computeDelay_eq (durations : retry.Durations) {f : F64} (fraction : f.Fraction)
    (attempt : Nat) {σ : EngineState}
    (hOracle : ∀ range, σ.world.oracle.jitter range = jitterMillis range f) :
    engine.advance (computeDelay retry attempt) σ = (.done (delayAt retry attempt f), σ) := by
  unfold computeDelay delayAt
  cases hJitter : retry.jitter with
  | none => rfl
  | some range =>
      obtain ⟨from_, to_⟩ := range
      have hLongest := (durations.jitter _ hJitter).2
      have hReply : Nat.min (σ.world.oracle.jitter ((to_ - from_) / 1000000))
          ((to_ - from_) / 1000000 - 1) = jitterMillis ((to_ - from_) / 1000000) f := by
        rw [hOracle]
        exact Nat.min_eq_left (jitterMillis_le fraction (by omega))
      show ((.done (min (backoffDelay retry attempt + min (from_ +
        Nat.min (σ.world.oracle.jitter ((to_ - from_) / 1000000)) ((to_ - from_) / 1000000 - 1) *
          1000000) maxDuration) maxDuration), _) : Config engineSig Nat) = _
      rw [hReply]

/-- Without jitter, the delays never shrink and are at least the one that is declared. With
it, they lie in its range. The computation always returns. -/
theorem backoff_law (retry : RetryPolicyDef) (durations : retry.Durations) :
    (retry.jitter = none → ∀ f first later, 1 ≤ first → first ≤ later → later < 2 ^ 32 →
      retry.delay.getD 0 ≤ delayAt retry first f ∧
        delayAt retry first f ≤ delayAt retry later f) ∧
    (∀ from_ to_, retry.jitter = some (from_, to_) → from_ ≤ to_ → ∀ f : F64, f.Fraction →
      ∀ attempt, min (backoffDelay retry attempt + from_) maxDuration ≤ delayAt retry attempt f ∧
        delayAt retry attempt f ≤ min (backoffDelay retry attempt + to_) maxDuration) ∧
    ∀ f : F64, f.Fraction → ∀ attempt (σ : EngineState),
      (∀ range, σ.world.oracle.jitter range = jitterMillis range f) →
        engine.advance (computeDelay retry attempt) σ = (.done (delayAt retry attempt f), σ) ∧
          delayAt retry attempt f ≤ maxDuration := by
  refine ⟨?_, ?_, ?_⟩
  · intro hNone f first later hFirst hOrder hLater
    have hDelay : ∀ attempt, delayAt retry attempt f = backoffDelay retry attempt := by
      intro attempt
      rw [delayAt, hNone]
    rw [hDelay, hDelay]
    exact ⟨base_le_backoffDelay durations hFirst (hOrder.trans_lt hLater),
      backoffDelay_mono retry hOrder hLater⟩
  · exact fun from_ to_ hJitter hRange f fraction attempt =>
      delayAt_between durations hJitter hRange fraction attempt
  · exact fun f fraction attempt σ hOracle =>
      ⟨computeDelay_eq durations fraction attempt hOracle, delayAt_le durations attempt f⟩

/-- A second for each attempt, and between a tenth and half a second more. -/
def jitteredRetry : RetryPolicyDef :=
  { when := none, exceptWhen := none, delay := some 1000000000, backoff := .linear
    jitter := some (100000000, 500000000), attemptCount := some 5, attemptDuration := none
    retryDuration := none }

/-- The delay of three attempts, with the middle of its jitter on top. -/
theorem jitteredRetry_delays :
    delayAt jitteredRetry 3 ⟨false, 1, -1, by decide, .inl rfl⟩ = 3300000000 ∧
      3100000000 ≤ delayAt jitteredRetry 3 ⟨false, 1, -1, by decide, .inl rfl⟩ := by
  have durations : jitteredRetry.Durations := by
    refine ⟨by decide, fun range hRange => ?_⟩
    cases hRange
    decide
  have half : F64.Fraction ⟨false, 1, -1, by decide, .inl rfl⟩ := by
    constructor <;> rw [F64.toRat, F64.scaled_self] <;> norm_num
  have hBetween := ((backoff_law jitteredRetry durations).2.1 100000000 500000000 rfl (by decide)
    _ half 3).1
  exact ⟨by decide, le_trans (by decide) hBetween⟩

end Delays
end OwsRuntime
