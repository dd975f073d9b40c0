import OwsRuntime.Duration

/-! The durations the parser accepts. It checks neither the order of the units nor that there is
a component, and it forgets a number without a unit. -/
namespace OwsRuntime
namespace Duration

/-- Digits, with at most one point among them. -/
inductive IsNumber : List Char → Prop where
  | whole {digits : List Char} (hDigits : digits.all Char.isDigit) (hSome : digits ≠ []) :
      IsNumber digits
  | decimal {whole fraction : List Char} (hWhole : whole.all Char.isDigit)
      (hFraction : fraction.all Char.isDigit) (hSome : whole ++ fraction ≠ []) :
      IsNumber (whole ++ '.' :: fraction)

/-- Components with the units of a section in their order, each at most once. -/
structure InOrder (units : List Char) (components : List Component) : Prop where
  numbers : ∀ k ∈ components, IsNumber k.number
  units : (components.map Component.unit).Sublist units

/-- `P[nY][nM][nW][nD][T[nH][nM][nS]]`, with a component and one after `T`. -/
inductive IsDuration : List Char → Prop where
  | date {date : List Component} (hDate : InOrder ['Y', 'M', 'W', 'D'] date) (hSome : date ≠ []) :
      IsDuration ('P' :: date.flatMap Component.text)
  | time {date time : List Component} (hDate : InOrder ['Y', 'M', 'W', 'D'] date)
      (hTime : InOrder ['H', 'M', 'S'] time) (hSome : time ≠ []) :
      IsDuration ('P' :: (date.flatMap Component.text ++ 'T' :: time.flatMap Component.text))

/-- What the parser does not notice in a duration. -/
inductive Reading.Slips (r : Reading) : Prop where
  /-- There is no component, neither a date nor a time. -/
  | empty (hDate : r.date.components = []) (hTime : r.time = none)
  /-- There is no component after the `T`. -/
  | emptyTime {time : Part} (hTime : r.time = some time) (hEmpty : time.components = [])
  /-- Digits before the `T` or the end have no unit. -/
  | dateLeft (hLeft : r.date.left ≠ [])
  /-- Digits at the end of the time have no unit. -/
  | timeLeft {time : Part} (hTime : r.time = some time) (hLeft : time.left ≠ [])
  /-- A unit of the date is repeated, or after one that is shorter. -/
  | dateOrder (hOrder : ¬(r.date.components.map Component.unit).Sublist ['Y', 'M', 'W', 'D'])
  /-- A unit of the time is repeated, or after one that is shorter. -/
  | timeOrder {time : Part} (hTime : r.time = some time)
      (hOrder : ¬(time.components.map Component.unit).Sublist ['H', 'M', 'S'])

section Numbers

variable {n : List Char}

theorem isNumeral_of_isDigit {c : Char} (hDigit : c.isDigit = true) : isNumeral c = true := by
  simp [isNumeral, hDigit]

/-- The numbers of the grammar are the ones the standard library parses. -/
theorem isNumber_iff : IsNumber n ↔ n.all isNumeral ∧ (parseF64 n).isSome := by
  constructor
  · intro hNumber
    cases hNumber with
    | whole hDigits hSome =>
        have hAll := List.all_eq_true.mp hDigits
        refine ⟨List.all_eq_true.mpr fun c hc => isNumeral_of_isDigit (hAll c hc), ?_⟩
        rw [parseF64, List.takeWhile_eq_self_iff.mpr hAll, List.dropWhile_eq_nil_iff.mpr hAll]
        simp [hSome]
    | @decimal whole fraction hWhole hFraction hSome =>
        have hAll := List.all_eq_true.mp hWhole
        constructor
        · have hPoint : isNumeral '.' = true := rfl
          simp only [List.all_append, List.all_cons, hPoint, Bool.true_and, Bool.and_eq_true]
          exact ⟨List.all_eq_true.mpr fun c hc => isNumeral_of_isDigit (hAll c hc),
            List.all_eq_true.mpr fun c hc =>
              isNumeral_of_isDigit (List.all_eq_true.mp hFraction c hc)⟩
        · have hStop : Char.isDigit '.' = false := rfl
          rw [parseF64, List.takeWhile_append_of_pos hAll, List.dropWhile_append_of_pos hAll,
            List.takeWhile_cons_of_neg (by simp [hStop]), List.dropWhile_cons_of_neg (by simp [hStop]),
            List.append_nil]
          have hEmpty : (whole.isEmpty && fraction.isEmpty) = false := by
            cases whole <;> cases fraction <;> first | rfl | exact absurd rfl hSome
          simp [hFraction, hEmpty]
  · rintro ⟨-, hParse⟩
    have hSplit := List.takeWhile_append_dropWhile (p := Char.isDigit) (l := n)
    have hWhole : (n.takeWhile Char.isDigit).all Char.isDigit = true := List.all_takeWhile
    rw [parseF64] at hParse
    split at hParse
    · rename_i hRest
      rw [hRest, List.append_nil] at hSplit
      rw [hSplit] at hParse hWhole
      refine .whole hWhole fun hEmpty => ?_
      simp [hEmpty] at hParse
    · rename_i fraction hRest
      split at hParse
      · rename_i hFraction
        rw [Bool.and_eq_true] at hFraction
        rw [← hSplit, hRest]
        refine .decimal hWhole hFraction.1 fun hEmpty => ?_
        rw [List.append_eq_nil_iff] at hEmpty
        simp [hEmpty.1, hEmpty.2] at hFraction
      · cases hParse
    · cases hParse

end Numbers

section Sections

variable {units : Units} {order : List Char} {p : Part} {components : List Component}

/-- Components in the order of the units fit their section. -/
theorem InOrder.fits (hOrder : InOrder order components)
    (hUnits : ∀ c ∈ order, (units c).isSome) : Part.Fits units ⟨components, []⟩ where
  components k hk := by
    obtain ⟨hNumerals, hNumber⟩ := isNumber_iff.mp (hOrder.numbers k hk)
    exact ⟨hNumber, hNumerals, hUnits _ (hOrder.units.subset (List.mem_map_of_mem hk))⟩
  left := rfl

theorem Part.Fits.inOrder (hFits : p.Fits units)
    (hOrder : (p.components.map Component.unit).Sublist order) : InOrder order p.components where
  numbers k hk := isNumber_iff.mpr ⟨(hFits.components k hk).numerals, (hFits.components k hk).number⟩
  units := hOrder

theorem date_units : ∀ c ∈ ['Y', 'M', 'W', 'D'], (dateUnits c).isSome := by
  simp [dateUnits]

theorem time_units : ∀ c ∈ ['H', 'M', 'S'], (timeUnits c).isSome := by
  simp [timeUnits]

theorem Part.text_eq (hLeft : p.left = []) : p.text = p.components.flatMap Component.text := by
  rw [Part.text, hLeft, List.append_nil]

/-- A text is a duration by the grammar when it reads as sections that fit and in which nothing
slips: no number without a unit, no unit out of its order, no empty section. -/
theorem isDuration_iff {text : List Char} :
    IsDuration text ↔ ∃ r : Reading, r.Fits ∧ r.text = text ∧ ¬r.Slips := by
  constructor
  · intro hDuration
    cases hDuration with
    | @date date hDate hSome =>
        refine ⟨⟨⟨date, []⟩, none⟩, ⟨hDate.fits date_units, nofun⟩, ?_, fun hSlips => ?_⟩
        · simp [Reading.text, Part.text]
        · cases hSlips with
          | empty hEmpty => exact hSome hEmpty
          | emptyTime hTime => cases hTime
          | dateLeft hLeft => exact hLeft rfl
          | timeLeft hTime => cases hTime
          | dateOrder hOrder => exact hOrder hDate.units
          | timeOrder hTime => cases hTime
    | @time date time hDate hTime hSome =>
        refine ⟨⟨⟨date, []⟩, some ⟨time, []⟩⟩, ⟨hDate.fits date_units, ?_⟩, ?_, fun hSlips => ?_⟩
        · intro part hPart
          cases hPart
          exact hTime.fits time_units
        · simp [Reading.text, Part.text]
        · cases hSlips with
          | empty _ hNone => cases hNone
          | emptyTime hPart hEmpty =>
              cases hPart
              exact hSome hEmpty
          | dateLeft hLeft => exact hLeft rfl
          | timeLeft hPart hLeft =>
              cases hPart
              exact hLeft rfl
          | dateOrder hOrder => exact hOrder hDate.units
          | timeOrder hPart hOrder =>
              cases hPart
              exact hOrder hTime.units
  · rintro ⟨⟨date, time⟩, hFits, rfl, hSlips⟩
    have hDate : InOrder ['Y', 'M', 'W', 'D'] date.components :=
      hFits.date.inOrder (by_contra fun hOrder => hSlips (.dateOrder hOrder))
    have hDateText : date.text = date.components.flatMap Component.text :=
      Part.text_eq (by_contra fun hLeft => hSlips (.dateLeft hLeft))
    cases time with
    | none =>
        have hSome : date.components ≠ [] := fun hEmpty => hSlips (.empty hEmpty rfl)
        have hText : Reading.text ⟨date, none⟩ = 'P' :: date.components.flatMap Component.text := by
          simp [Reading.text, hDateText]
        rw [hText]
        exact .date hDate hSome
    | some time =>
        have hSome : time.components ≠ [] := fun hEmpty => hSlips (.emptyTime rfl hEmpty)
        have hTime : InOrder ['H', 'M', 'S'] time.components :=
          (hFits.time time rfl).inOrder (by_contra fun hOrder => hSlips (.timeOrder rfl hOrder))
        have hTimeText : time.text = time.components.flatMap Component.text :=
          Part.text_eq (by_contra fun hLeft => hSlips (.timeLeft rfl hLeft))
        have hText : Reading.text ⟨date, some time⟩ = 'P' ::
            (date.components.flatMap Component.text ++
              'T' :: time.components.flatMap Component.text) := by
          simp [Reading.text, hDateText, hTimeText]
        rw [hText]
        exact .time hDate hTime hSome

end Sections

/-- The parser follows the grammar except where something slips: a text of components in which
there is none, one is out of order, or a number has no unit. -/
theorem duration_grammar_iff (input : String) :
    ((∃ n, parseIso8601Duration input = .ok n) ↔ IsDuration (JqEngine.trim input.toList)) ↔
      ¬∃ r : Reading, r.Fits ∧ r.text = JqEngine.trim input.toList ∧ r.Slips := by
  constructor
  · rintro hGrammar ⟨r, hFits, hText, hSlips⟩
    have hDuration := hGrammar.mp ⟨_, parseIso8601Duration_ok_iff.mpr ⟨r, hFits, hText, rfl⟩⟩
    obtain ⟨s, hsFits, hsText, hNone⟩ := isDuration_iff.mp hDuration
    rw [hFits.unique hsFits (hText.trans hsText.symm)] at hSlips
    exact hNone hSlips
  · intro hNone
    constructor
    · rintro ⟨n, hOk⟩
      obtain ⟨r, hFits, hText, -⟩ := parseIso8601Duration_ok_iff.mp hOk
      exact isDuration_iff.mpr ⟨r, hFits, hText, fun hSlips => hNone ⟨r, hFits, hText, hSlips⟩⟩
    · intro hDuration
      obtain ⟨r, hFits, hText, -⟩ := isDuration_iff.mp hDuration
      exact ⟨_, parseIso8601Duration_ok_iff.mpr ⟨r, hFits, hText, rfl⟩⟩

/-- A letter alone is accepted. -/
theorem letter_alone : ¬((∃ n, parseIso8601Duration "P" = .ok n) ↔
    IsDuration (JqEngine.trim "P".toList)) := by
  intro hGrammar
  have hTrim : JqEngine.trim "P".toList = ['P'] := by decide
  have hOk : parseIso8601Duration "P" = .ok 0 := by
    refine parseIso8601Duration_ok_iff.mpr ⟨⟨⟨[], []⟩, none⟩, ⟨⟨nofun, rfl⟩, nofun⟩, ?_, rfl⟩
    rw [hTrim]
    rfl
  have hDuration := hGrammar.mp ⟨0, hOk⟩
  rw [hTrim] at hDuration
  generalize hText : ['P'] = text at hDuration
  cases hDuration with
  | @date date hDate hSome =>
      cases date with
      | nil => exact hSome rfl
      | cons k ks => simp [Component.text] at hText
  | time => simp at hText

end Duration
end OwsRuntime
