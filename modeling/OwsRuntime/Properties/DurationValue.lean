import OwsRuntime.Properties.DurationGrammar

/-! The nanoseconds of a duration. They are computed in doubles and cut to 64 bits. -/
namespace OwsRuntime
namespace Duration

/-- The nanoseconds of a unit of the date, in which a year has 365 days and a month 30. -/
def dateLength : Char → Nat
  | 'Y' => 365 * 86400 * 10 ^ 9
  | 'M' => 30 * 86400 * 10 ^ 9
  | 'W' => 7 * 86400 * 10 ^ 9
  | 'D' => 86400 * 10 ^ 9
  | _ => 0

def timeLength : Char → Nat
  | 'H' => 3600 * 10 ^ 9
  | 'M' => 60 * 10 ^ 9
  | 'S' => 10 ^ 9
  | _ => 0

def Component.length (unitLength : Char → Nat) (k : Component) : Nat :=
  Jq.digitsValue k.number * unitLength k.unit

def Part.length (unitLength : Char → Nat) (p : Part) : Nat :=
  (p.components.map (Component.length unitLength)).sum

/-- The sum of the components of a duration, in nanoseconds. -/
def Reading.total (r : Reading) : Nat :=
  r.date.length dateLength +
    match r.time with
    | none => 0
    | some time => time.length timeLength

/-- The components have no point. -/
structure Reading.Integral (r : Reading) : Prop where
  date : ∀ k ∈ r.date.components, k.number.all Char.isDigit
  time : ∀ time ∈ r.time, ∀ k ∈ time.components, k.number.all Char.isDigit

/-- The nanoseconds of so many seconds are a double. From 2 ^ 62 nanoseconds on only even numbers
of seconds are, and from 2 ^ 63 on only multiples of four. -/
def ExactSeconds (n : Nat) : Prop :=
  n ≤ 4611686018 ∨ (n ≤ 9223372036 ∧ n % 2 = 0) ∨ n % 4 = 0

/-- The outcome is the sum of the components, if it fits 64 bits, and else an error. -/
def Meets (total : Nat) (outcome : Except String Nat) : Prop :=
  if total < 2 ^ 64 then outcome = .ok total else ∃ e, outcome = .error e

section Numbers

variable {a b n : Nat} {x : Option F64}

/-- The double with an integral value. -/
def IsNat (x : Option F64) (n : Nat) : Prop := ∃ y, x = some y ∧ y.toInt? = some (n : Int)

theorem toU128_of_isNat (hx : IsNat x n) (hBound : n < 2 ^ 128) : toU128 x = n := by
  obtain ⟨y, rfl, hy⟩ := hx
  rw [F64.toInt?] at hy
  split at hy
  · injection hy with hTrunc
    rw [toU128, hTrunc]
    omega
  · cases hy

/-- An integer times a factor is rounded once. -/
theorem times_of_isNat (hx : IsNat x a) (hFactor : (F64.ofInt b).toInt? = some (b : Int)) :
    times b x = F64.ofRatio false (a * b) 1 := by
  obtain ⟨y, rfl, hy⟩ := hx
  rw [times, Option.bind_some, F64.mul_toInt? hy hFactor]

theorem isNat_ofRatio (hBound : n < 2 ^ 53) : IsNat (F64.ofRatio false n 1) n := F64.ofRatio_nat hBound

/-- A product that fits 64 bits is exact if it has enough factors of two. -/
theorem toU128_ofRatio (hBound : n < 2 ^ 64) :
    (toU128 (F64.ofRatio false n 1) = n ↔ 2 ^ (n.log2 - 52) ∣ n) ∧
      toU128 (F64.ofRatio false n 1) ≤ n + 2 ^ 11 := by
  obtain ⟨y, m, hy, hValue, hExact, hNear⟩ := F64.ofRatio_toInt? hBound
  rw [toU128_of_isNat ⟨y, hy, hValue⟩ (by omega)]
  exact ⟨hExact, hNear⟩

theorem toU128_ofRatio_of_dvd (hBound : n < 2 ^ 64) (hDvd : 2 ^ 11 ∣ n) :
    toU128 (F64.ofRatio false n 1) = n := by
  refine (toU128_ofRatio hBound).1.mpr (Nat.dvd_trans (Nat.pow_dvd_pow 2 ?_) hDvd)
  by_cases hZero : n = 0
  · simp [hZero]
  · have hLess : n.log2 < 64 := (Nat.log2_lt hZero).mpr hBound
    omega

/-- A second has nine factors of two. -/
theorem pow_dvd_second {j : Nat} : 2 ^ (9 + j) ∣ n * 10 ^ 9 ↔ 2 ^ j ∣ n := by
  have hSecond : n * 10 ^ 9 = 2 ^ 9 * (n * 5 ^ 9) := by
    have hPower : 10 ^ 9 = 2 ^ 9 * 5 ^ 9 := by decide
    rw [hPower]
    ac_rfl
  have hCoprime : Nat.Coprime (2 ^ j) (5 ^ 9) := Nat.Coprime.pow j 9 (by decide)
  rw [hSecond, Nat.pow_add, Nat.mul_dvd_mul_iff_left (Nat.two_pow_pos 9)]
  exact ⟨hCoprime.dvd_of_dvd_mul_right, fun hDvd => Nat.dvd_trans hDvd (Nat.dvd_mul_right n _)⟩

/-- The numbers of seconds whose nanoseconds are a double are those with as many factors of two as
the bits which the double has no room for. -/
theorem exactSeconds_iff (hBound : n * 10 ^ 9 < 2 ^ 64) :
    2 ^ ((n * 10 ^ 9).log2 - 52) ∣ n * 10 ^ 9 ↔ ExactSeconds n := by
  by_cases hZero : n = 0
  · simp [hZero, ExactSeconds]
  · have hProduct : n * 10 ^ 9 ≠ 0 := by omega
    have hLow : 2 ^ (n * 10 ^ 9).log2 ≤ n * 10 ^ 9 := Nat.log2_self_le hProduct
    have hHigh : n * 10 ^ 9 < 2 ^ ((n * 10 ^ 9).log2 + 1) := Nat.lt_log2_self
    have hLess : (n * 10 ^ 9).log2 < 64 := (Nat.log2_lt hProduct).mpr hBound
    generalize (n * 10 ^ 9).log2 = l at *
    by_cases hSmall : l < 62
    · -- The product of the factors of two in a second is enough.
      have hPower : 2 ^ (l - 52) ∣ 2 ^ 9 := Nat.pow_dvd_pow 2 (by omega)
      have hSecond : 2 ^ 9 ∣ n * 10 ^ 9 := Nat.dvd_trans (by decide) (Nat.dvd_mul_left (10 ^ 9) n)
      have hLarge : (2 : Nat) ^ (l + 1) ≤ 2 ^ 62 := Nat.pow_le_pow_right (by decide) (by omega)
      have hFew : n ≤ 4611686018 := by omega
      exact ⟨fun _ => .inl hFew, fun _ => Nat.dvd_trans hPower hSecond⟩
    · have hTwo : l = 62 ∨ l = 63 := by omega
      rcases hTwo with rfl | rfl
      · rw [show 62 - 52 = 9 + 1 from rfl, pow_dvd_second, Nat.dvd_iff_mod_eq_zero]
        have hMore : 4611686018 < n := by omega
        have hFew : n ≤ 9223372036 := by omega
        rw [ExactSeconds]
        omega
      · rw [show 63 - 52 = 9 + 2 from rfl, pow_dvd_second, Nat.dvd_iff_mod_eq_zero]
        have hMore : 9223372036 < n := by omega
        rw [ExactSeconds]
        omega

end Numbers

section Components

variable {k : Component} {n : List Char}

theorem parseF64_digits (hDigits : n.all Char.isDigit) (hNumber : (parseF64 n).isSome) :
    parseF64 n = some (F64.ofRatio false (Jq.digitsValue n) 1) := by
  have hAll := List.all_eq_true.mp hDigits
  rw [parseF64, List.takeWhile_eq_self_iff.mpr hAll, List.dropWhile_eq_nil_iff.mpr hAll] at hNumber ⊢
  simp only at hNumber ⊢
  split at hNumber
  · cases hNumber
  · rename_i hSome
    rw [if_neg hSome]
    simp [Jq.decimalValue]

/-- A unit with enough factors of two gives exact products. -/
theorem toU128_times {n factor : Nat} (hFactor : (F64.ofInt factor).toInt? = some (factor : Int))
    (hDvd : 2 ^ 11 ∣ factor) (hBound : n * factor < 2 ^ 64) (hPos : 0 < factor) :
    toU128 (times factor (F64.ofRatio false n 1)) = n * factor := by
  have hLarge : 2 ^ 11 ≤ factor := Nat.le_of_dvd hPos hDvd
  have hNumber : n * 2 ^ 11 ≤ n * factor := Nat.mul_le_mul_left n hLarge
  rw [times_of_isNat (isNat_ofRatio (by omega)) hFactor]
  exact toU128_ofRatio_of_dvd hBound (Nat.dvd_trans hDvd (Nat.dvd_mul_left factor n))

/-- A factor in front of the nanoseconds of a second. -/
theorem times_seconds {n factor : Nat} (hFactor : (F64.ofInt factor).toInt? = some (factor : Int))
    (hBound : n * (factor * 10 ^ 9) < 2 ^ 64) (hPos : 0 < factor) :
    times 1000000000 (times factor (F64.ofRatio false n 1)) =
      F64.ofRatio false (n * (factor * 10 ^ 9)) 1 := by
  have hNumber : n ≤ n * factor := Nat.le_mul_of_pos_right n hPos
  have hProduct : n * (factor * 10 ^ 9) = n * factor * 1000000000 :=
    (Nat.mul_assoc n factor (10 ^ 9)).symm
  rw [times_of_isNat (isNat_ofRatio (by omega)) hFactor,
    times_of_isNat (isNat_ofRatio (by omega)) (by decide), hProduct]

theorem Component.counted_date (hFits : k.Fits dateUnits) (hDigits : k.number.all Char.isDigit)
    (hBound : k.length dateLength < 2 ^ 64) : k.counted dateUnits = k.length dateLength := by
  obtain ⟨number, unit⟩ := k
  have hUnit := hFits.unit
  have hNumber := parseF64_digits hDigits hFits.number
  simp only at hNumber hUnit
  simp only [Component.length] at hBound ⊢
  simp only [Component.counted, hNumber]
  unfold dateUnits at hUnit ⊢
  split at hUnit
  · exact toU128_times (by decide) (by decide) hBound (by decide)
  · exact toU128_times (by decide) (by decide) hBound (by decide)
  · exact toU128_times (by decide) (by decide) hBound (by decide)
  · exact toU128_times (by decide) (by decide) hBound (by decide)
  · cases hUnit

/-- Hours and minutes are exact, and seconds are rounded to a double. -/
theorem Component.counted_time (hFits : k.Fits timeUnits) (hDigits : k.number.all Char.isDigit)
    (hBound : k.length timeLength < 2 ^ 64) :
    (k.counted timeUnits = k.length timeLength ↔
      (k.unit = 'S' → ExactSeconds (Jq.digitsValue k.number))) ∧
    k.counted timeUnits ≤ k.length timeLength + 2 ^ 11 := by
  obtain ⟨number, unit⟩ := k
  have hUnit := hFits.unit
  have hNumber := parseF64_digits hDigits hFits.number
  simp only at hNumber hUnit
  simp only [Component.length] at hBound ⊢
  simp only [Component.counted, hNumber]
  unfold timeUnits at hUnit ⊢
  split at hUnit
  · have hHour : 2 ^ 11 ∣ 3600 * 10 ^ 9 := by decide
    have hCounted := toU128_ofRatio_of_dvd hBound (Nat.dvd_trans hHour (Nat.dvd_mul_left _ _))
    simp only [times_seconds (by decide) hBound (by decide), timeLength] at hCounted ⊢
    exact ⟨⟨fun _ => by simp, fun _ => hCounted⟩, by omega⟩
  · have hMinute : 2 ^ 11 ∣ 60 * 10 ^ 9 := by decide
    have hCounted := toU128_ofRatio_of_dvd hBound (Nat.dvd_trans hMinute (Nat.dvd_mul_left _ _))
    simp only [times_seconds (by decide) hBound (by decide), timeLength] at hCounted ⊢
    exact ⟨⟨fun _ => by simp, fun _ => hCounted⟩, by omega⟩
  · have hSecond : Jq.digitsValue number * 10 ^ 9 < 2 ^ 64 := hBound
    have hTimes : times 1000000000 (F64.ofRatio false (Jq.digitsValue number) 1) =
        F64.ofRatio false (Jq.digitsValue number * 10 ^ 9) 1 :=
      times_of_isNat (isNat_ofRatio (by omega)) (by decide)
    obtain ⟨hExact, hNear⟩ := toU128_ofRatio hSecond
    rw [exactSeconds_iff hSecond] at hExact
    simp only [hTimes, timeLength]
    exact ⟨hExact.trans ⟨fun h _ => h, fun h => h trivial⟩, hNear⟩
  · cases hUnit

end Components

section Sums

variable {units : Units} {p : Part} {components : List Component}

/-- The sums wrap, so 64 bits of them are those of the sum. -/
theorem Part.counted_mod (totalNanos : Nat) : p.counted units totalNanos % 2 ^ 64 =
    (totalNanos + (p.components.map (Component.counted units)).sum) % 2 ^ 64 := by
  obtain ⟨components, left⟩ := p
  simp only [Part.counted]
  induction components generalizing totalNanos with
  | nil => simp
  | cons k ks ih =>
      rw [List.foldl_cons, ih, List.map_cons, List.sum_cons]
      omega

theorem counted_dates (hFits : ∀ k ∈ components, k.Fits dateUnits)
    (hDigits : ∀ k ∈ components, k.number.all Char.isDigit)
    (hBound : (components.map (Component.length dateLength)).sum < 2 ^ 64) :
    (components.map (Component.counted dateUnits)).sum =
      (components.map (Component.length dateLength)).sum := by
  induction components with
  | nil => rfl
  | cons k ks ih =>
      simp only [List.forall_mem_cons, List.map_cons, List.sum_cons] at hFits hDigits hBound ⊢
      rw [Component.counted_date hFits.1 hDigits.1 (by omega), ih hFits.2 hDigits.2 (by omega)]

/-- With one component in seconds, the sum is exact if that component is. -/
theorem counted_times (hFits : ∀ k ∈ components, k.Fits timeUnits)
    (hDigits : ∀ k ∈ components, k.number.all Char.isDigit)
    (hOnce : (components.map Component.unit).Nodup)
    (hBound : (components.map (Component.length timeLength)).sum < 2 ^ 64) :
    ((components.map (Component.counted timeUnits)).sum =
        (components.map (Component.length timeLength)).sum ↔
      ∀ k ∈ components, k.unit = 'S' → ExactSeconds (Jq.digitsValue k.number)) ∧
    (components.map (Component.counted timeUnits)).sum ≤
      (components.map (Component.length timeLength)).sum + 2 ^ 11 := by
  induction components with
  | nil => simp
  | cons k ks ih =>
      simp only [List.forall_mem_cons, List.map_cons, List.sum_cons, List.nodup_cons]
        at hFits hDigits hBound hOnce ⊢
      obtain ⟨hFirst, hNear⟩ := Component.counted_time hFits.1 hDigits.1 (by omega)
      obtain ⟨hRest, hRestNear⟩ := ih hFits.2 hDigits.2 hOnce.2 (by omega)
      rw [← hRest, ← hFirst]
      by_cases hSeconds : k.unit = 'S'
      · -- The other components are hours and minutes, which are exact.
        have hOther := hRest.mpr fun l hl hEq => by
          rw [hSeconds, ← hEq] at hOnce
          exact absurd (List.mem_map_of_mem hl) hOnce.1
        omega
      · have hExact := hFirst.mpr fun hEq => absurd hEq hSeconds
        omega

end Sums

/-- A duration of integers becomes the sum of its components if that fits 64 bits and its seconds
are a double of nanoseconds. The parser has no error for a sum that does not fit. -/
theorem duration_value_iff (input : String) (r : Reading) (hFits : r.Fits) (hForm : ¬r.Slips)
    (hText : r.text = JqEngine.trim input.toList) (hIntegral : r.Integral) :
    Meets r.total (parseIso8601Duration input) ↔
      r.total < 2 ^ 64 ∧ ∀ time ∈ r.time, ∀ k ∈ time.components, k.unit = 'S' →
        ExactSeconds (Jq.digitsValue k.number) := by
  have hOk : parseIso8601Duration input = .ok (r.counted % 2 ^ 64) :=
    parseIso8601Duration_ok_iff.mpr ⟨r, hFits, hText, rfl⟩
  rw [hOk, Meets]
  split
  · rename_i hBound
    obtain ⟨date, time⟩ := r
    cases time with
    | none =>
        have hDate := counted_dates hFits.date.components hIntegral.date hBound
        have hCounted : (Reading.counted ⟨date, none⟩) % 2 ^ 64 = Reading.total ⟨date, none⟩ := by
          rw [Reading.counted, Part.counted_mod, Nat.zero_add, hDate]
          exact Nat.mod_eq_of_lt hBound
        rw [hCounted]
        exact iff_of_true rfl ⟨hBound, nofun⟩
    | some time =>
        have hSum : (Reading.total ⟨date, some time⟩) =
            date.length dateLength + time.length timeLength := rfl
        rw [hSum] at hBound ⊢
        have hOnce : (time.components.map Component.unit).Nodup :=
          (by_contra fun hOrder => hForm (.timeOrder rfl hOrder) :
            (time.components.map Component.unit).Sublist ['H', 'M', 'S']).nodup (by decide)
        have hDate := counted_dates hFits.date.components hIntegral.date
          (Nat.lt_of_le_of_lt (Nat.le_add_right _ _) hBound)
        obtain ⟨hTime, hNear⟩ := counted_times (hFits.time time rfl).components
          (hIntegral.time time rfl) hOnce (Nat.lt_of_le_of_lt (Nat.le_add_left _ _) hBound)
        have hCounted : (Reading.counted ⟨date, some time⟩) % 2 ^ 64 = (date.length dateLength +
            (time.components.map (Component.counted timeUnits)).sum) % 2 ^ 64 := by
          have hLow := @Part.counted_mod dateUnits date 0
          rw [Nat.zero_add, hDate] at hLow
          rw [Reading.counted, Part.counted_mod, Nat.add_mod, hLow, ← Nat.add_mod]
          rfl
        simp only [hBound, true_and, Option.mem_def, Option.some.injEq, forall_eq', ← hTime,
          Except.ok.injEq, hCounted]
        simp only [Part.length] at hBound ⊢
        omega
  · rename_i hBound
    exact iff_of_false nofun fun hFit => hBound hFit.1

/-- A duration of half a minute becomes as many nanoseconds. -/
theorem thirty_seconds : Meets 30000000000 (parseIso8601Duration "PT30S") := by
  have hTrim : JqEngine.trim "PT30S".toList = ['P', 'T', '3', '0', 'S'] := by decide
  have hNumber : IsNumber ['3', '0'] := .whole (by decide) (by decide)
  have hTime : InOrder ['H', 'M', 'S'] [⟨['3', '0'], 'S'⟩] := ⟨by simpa using hNumber, by decide⟩
  refine (duration_value_iff "PT30S" ⟨⟨[], []⟩, some ⟨[⟨['3', '0'], 'S'⟩], []⟩⟩
    ⟨⟨nofun, rfl⟩, ?_⟩ ?_ (by rw [hTrim]; rfl) ⟨nofun, ?_⟩).mpr ⟨by decide, ?_⟩
  · intro time hMem
    cases hMem
    exact hTime.fits time_units
  · intro hSlips
    cases hSlips with
    | empty _ hNone => cases hNone
    | emptyTime hPart hEmpty => cases hPart; cases hEmpty
    | dateLeft hLeft => exact hLeft rfl
    | timeLeft hPart hLeft => cases hPart; exact hLeft rfl
    | dateOrder hOrder => exact hOrder (by decide)
    | timeOrder hPart hOrder => cases hPart; exact hOrder hTime.units
  · intro time hMem
    cases hMem
    decide
  · intro time hMem
    cases hMem
    simp [ExactSeconds, Jq.digitsValue, Jq.digitValue]

/-- A timeout of 585 years becomes one of half an hour. -/
theorem years_wrap : ∃ (input : String) (r : Reading), r.Fits ∧ ¬r.Slips ∧ r.Integral ∧
    r.text = JqEngine.trim input.toList ∧ ¬Meets r.total (parseIso8601Duration input) := by
  have hTrim : JqEngine.trim "P585Y".toList = ['P', '5', '8', '5', 'Y'] := by decide
  have hNumber : IsNumber ['5', '8', '5'] := .whole (by decide) (by decide)
  have hDate : InOrder ['Y', 'M', 'W', 'D'] [⟨['5', '8', '5'], 'Y'⟩] :=
    ⟨by simpa using hNumber, by decide⟩
  refine ⟨"P585Y", ⟨⟨[⟨['5', '8', '5'], 'Y'⟩], []⟩, none⟩, ⟨hDate.fits date_units, nofun⟩,
    fun hSlips => ?_, ⟨by decide, nofun⟩, by rw [hTrim]; rfl, ?_⟩
  · cases hSlips with
    | empty hEmpty => cases hEmpty
    | emptyTime hPart => cases hPart
    | dateLeft hLeft => exact hLeft rfl
    | timeLeft hPart => cases hPart
    | dateOrder hOrder => exact hOrder hDate.units
    | timeOrder hPart => cases hPart
  · have hOk := parseIso8601Duration_ok_iff.mpr
      ⟨⟨⟨[⟨['5', '8', '5'], 'Y'⟩], []⟩, none⟩, ⟨hDate.fits date_units, nofun⟩,
        by rw [hTrim]; rfl, rfl⟩
    have hTotal : ¬Reading.total ⟨⟨[⟨['5', '8', '5'], 'Y'⟩], []⟩, none⟩ < 2 ^ 64 := by decide
    rw [Meets, if_neg hTotal, hOk]
    exact nofun

end Duration
end OwsRuntime
