import OwsRuntime.Expressions.Engine
import OwsRuntime.Expressions.Lexer

/-! The parser of ISO 8601 durations. Its sums wrap at 128 bits, as they do in a release build. -/
namespace OwsRuntime
namespace Duration

/-- `'0'..='9' | '.'` -/
def isNumeral (c : Char) : Bool := c.isDigit || c == '.'

/-- `str::parse` of digits and points, as a number that may not be finite. -/
def parseF64 (num : List Char) : Option (Option F64) :=
  let whole := num.takeWhile Char.isDigit
  match num.dropWhile Char.isDigit with
  | [] => if whole.isEmpty then none else some (Jq.decimalValue whole [] 0)
  | '.' :: fraction =>
      if fraction.all Char.isDigit && !(whole.isEmpty && fraction.isEmpty) then
        some (Jq.decimalValue whole fraction 0)
      else none
  | _ => none

/-- `n * factor as f64` -/
def times (factor : Nat) (n : Option F64) : Option F64 := n.bind (·.mul (F64.ofInt factor))

/-- `as u128`, which saturates. -/
def toU128 : Option F64 → Nat
  | none => 2 ^ 128 - 1
  | some x => min x.trunc.toNat (2 ^ 128 - 1)

/-- The units of a section, each with what turns its numbers into nanoseconds. -/
abbrev Units := Char → Option (Option F64 → Option F64)

def dateUnits : Units
  | 'Y' => some (times 31536000000000000)
  | 'M' => some (times 2592000000000000)
  | 'W' => some (times 604800000000000)
  | 'D' => some (times 86400000000000)
  | _ => none

def timeUnits : Units
  | 'H' => some fun n => times 1000000000 (times 3600 n)
  | 'M' => some fun n => times 1000000000 (times 60 n)
  | 'S' => some (times 1000000000)
  | _ => none

/-- The variables of the loops over the two sections. -/
structure Scan where
  totalNanos : Nat
  inNumber : Bool
  num : List Char
deriving DecidableEq

def invalid (input : String) : String := "invalid ISO 8601 duration `" ++ input ++ "`"

/-- A unit ends its component. -/
def add (input : String) (nanos : Option F64 → Option F64) (σ : Scan) : Except String Scan :=
  if σ.inNumber then
    match parseF64 σ.num with
    | none => .error (invalid input)
    | some n => .ok ⟨(σ.totalNanos + toU128 (nanos n)) % 2 ^ 128, false, []⟩
  else .error (invalid input)

def scanChar (input : String) (units : Units) (σ : Scan) (c : Char) : Except String Scan :=
  if isNumeral c then .ok { σ with inNumber := true, num := σ.num ++ [c] }
  else
    match units c with
    | some nanos => add input nanos σ
    | none => .error (invalid input)

/-- One section, after the nanoseconds counted so far. -/
def scan (input : String) (units : Units) (totalNanos : Nat) (text : List Char) :
    Except String Scan :=
  text.foldlM (scanChar input units) ⟨totalNanos, false, []⟩

/-- `parse_iso8601_duration`, in nanoseconds. -/
def parseIso8601Duration (input : String) : Except String Nat := do
  match JqEngine.trim input.toList with
  | 'P' :: body =>
      let date ← scan input dateUnits 0 (body.takeWhile (· != 'T'))
      match body.dropWhile (· != 'T') with
      | [] => return date.totalNanos % 2 ^ 64
      | _ :: timePart =>
          let time ← scan input timeUnits date.totalNanos timePart
          return time.totalNanos % 2 ^ 64
  | _ => throw (invalid input)

/-- A number and the unit after it. -/
structure Component where
  number : List Char
  unit : Char
deriving DecidableEq

/-- The components of a section, and what is left after the last unit. -/
structure Part where
  components : List Component
  left : List Char
deriving DecidableEq

def Component.text (k : Component) : List Char := k.number ++ [k.unit]

def Part.text (p : Part) : List Char := p.components.flatMap Component.text ++ p.left

/-- The number of a component is a decimal one, and its unit is one of the section. -/
structure Component.Fits (units : Units) (k : Component) : Prop where
  number : (parseF64 k.number).isSome
  numerals : k.number.all isNumeral
  unit : (units k.unit).isSome

structure Part.Fits (units : Units) (p : Part) : Prop where
  components : ∀ k ∈ p.components, k.Fits units
  left : p.left.all isNumeral

/-- The nanoseconds of a component as the loops compute them. -/
def Component.counted (units : Units) (k : Component) : Nat :=
  match units k.unit, parseF64 k.number with
  | some nanos, some n => toU128 (nanos n)
  | _, _ => 0

def Part.counted (units : Units) (totalNanos : Nat) (p : Part) : Nat :=
  p.components.foldl (fun total k => (total + k.counted units) % 2 ^ 128) totalNanos

section Scanning

variable {input : String} {units : Units} {σ τ : Scan} {c : Char} {text : List Char}

/-- The part of a text that begins with the number read so far. -/
def Scan.Reads (units : Units) (σ : Scan) (text : List Char) (p : Part) : Prop :=
  σ.num ++ text = p.text ∧ p.Fits units

theorem add_ok_iff {nanos : Option F64 → Option F64} : add input nanos σ = .ok τ ↔
    σ.inNumber ∧ ∃ n, parseF64 σ.num = some n ∧
      τ = ⟨(σ.totalNanos + toU128 (nanos n)) % 2 ^ 128, false, []⟩ := by
  rw [add]
  split
  · rename_i hIn
    cases hNumber : parseF64 σ.num with
    | none => simp
    | some n => simp [hIn, eq_comm]
  · rename_i hOut
    simp [hOut]

/-- A text has one number before its first other character. So two ways to split it at such a
character are the same. -/
theorem numerals_injective {n m : List Char} {d : Char} {more : List Char}
    (hn : n.all isNumeral) (hm : m.all isNumeral) (hc : isNumeral c = false)
    (hd : isNumeral d = false) (hText : n ++ c :: text = m ++ d :: more) :
    n = m ∧ c = d ∧ text = more := by
  induction n generalizing m with
  | nil =>
      cases m with
      | nil => simpa using hText
      | cons a m =>
          simp only [List.nil_append, List.cons_append, List.cons.injEq] at hText
          simp [← hText.1, hc] at hm
  | cons a n ih =>
      cases m with
      | nil =>
          simp only [List.nil_append, List.cons_append, List.cons.injEq] at hText
          simp [hText.1, hd] at hn
      | cons b m =>
          simp only [List.cons_append, List.cons.injEq] at hText
          simp only [List.all_cons, Bool.and_eq_true] at hn hm
          have hRest := ih hn.2 hm.2 hText.2
          simp [hText.1, hRest]

variable (hUnits : ∀ c, (units c).isSome → isNumeral c = false) {p : Part}

theorem Part.text_nil {left : List Char} : Part.text ⟨[], left⟩ = left := rfl

theorem Part.text_cons {k : Component} {ks : List Component} {left : List Char} :
    Part.text ⟨k :: ks, left⟩ = k.number ++ k.unit :: Part.text ⟨ks, left⟩ := by
  simp [Part.text, Component.text]

theorem Part.fits_cons {k : Component} {ks : List Component} {left : List Char} :
    Part.Fits units ⟨k :: ks, left⟩ ↔ k.Fits units ∧ Part.Fits units ⟨ks, left⟩ := by
  constructor
  · intro hFits
    exact ⟨hFits.components k (by simp), fun l hl => hFits.components l (by simp [hl]), hFits.left⟩
  · intro hFits
    exact ⟨by simpa using And.intro hFits.1 hFits.2.components, hFits.2.left⟩

include hUnits

/-- Numerals alone are left over. -/
theorem Part.Fits.of_numerals (hFits : p.Fits units) (hNumerals : text.all isNumeral)
    (hText : text = p.text) : p = ⟨[], text⟩ := by
  obtain ⟨components, left⟩ := p
  cases components with
  | nil => rw [hText, Part.text_nil]
  | cons k ks =>
      have hUnit := hUnits _ (hFits.components k (by simp)).unit
      simp [hText, Part.text_cons, hUnit] at hNumerals

/-- The first other character ends the first component. -/
theorem Part.Fits.of_unit (hFits : p.Fits units) {n : List Char} (hn : n.all isNumeral)
    (hc : isNumeral c = false) (hText : n ++ c :: text = p.text) :
    ∃ ks, p = ⟨⟨n, c⟩ :: ks, p.left⟩ ∧ text = Part.text ⟨ks, p.left⟩ := by
  obtain ⟨components, left⟩ := p
  cases components with
  | nil =>
      have hLeft := hFits.left
      rw [Part.text_nil] at hText
      simp [← hText, hc] at hLeft
  | cons k ks =>
      have hk := hFits.components k (by simp)
      rw [Part.text_cons] at hText
      obtain ⟨hNumber, hUnit, hRest⟩ :=
        numerals_injective hn hk.numerals hc (hUnits _ hk.unit) hText
      subst hNumber hUnit
      exact ⟨ks, rfl, hRest⟩

/-- The loop accepts a text just when it reads as a part of a duration, and then it has counted what
that part counts. The induction is on the text, with the state of the loop generalised. -/
theorem foldlM_ok_iff (hNumerals : σ.num.all isNumeral) (hIn : σ.inNumber = !σ.num.isEmpty) :
    text.foldlM (scanChar input units) σ = .ok τ ↔ ∃ p, σ.Reads units text p ∧
      τ = ⟨p.counted units σ.totalNanos, !p.left.isEmpty, p.left⟩ := by
  induction text generalizing σ with
  | nil =>
      rw [List.foldlM_nil]
      constructor
      · intro hOk
        injection hOk with hEq
        subst hEq
        refine ⟨⟨[], σ.num⟩, ⟨by simp [Part.text], by simp, hNumerals⟩, ?_⟩
        rw [← hIn]
        rfl
      · intro hReads
        obtain ⟨p, ⟨hText, hFits⟩, rfl⟩ := hReads
        rw [List.append_nil] at hText
        rw [hFits.of_numerals hUnits hNumerals hText]
        simp only [← hIn]
        rfl
  | cons c text ih =>
      rw [List.foldlM_cons, scanChar]
      by_cases hc : isNumeral c = true
      · rw [if_pos hc]
        show text.foldlM (scanChar input units) _ = .ok τ ↔ _
        rw [ih (by simp [hNumerals, hc]) (by simp)]
        simp [Scan.Reads]
      · rw [if_neg hc]
        rw [Bool.not_eq_true] at hc
        cases hUnit : units c with
        | none =>
            refine ⟨nofun, fun hReads => ?_⟩
            obtain ⟨p, ⟨hText, hFits⟩, -⟩ := hReads
            obtain ⟨ks, hp, -⟩ := hFits.of_unit hUnits hNumerals hc hText
            rw [hp] at hFits
            have hSome := (Part.fits_cons.mp hFits).1.unit
            simp [hUnit] at hSome
        | some nanos =>
            constructor
            · intro hOk
              cases hAdd : add input nanos σ with
              | error e => simp only [hAdd] at hOk; cases hOk
              | ok σ' =>
                  simp only [hAdd] at hOk
                  obtain ⟨hNumber, n, hn, rfl⟩ := add_ok_iff.mp hAdd
                  obtain ⟨⟨ks, left⟩, ⟨hText, hFits⟩, rfl⟩ := (ih rfl rfl).mp hOk
                  refine ⟨⟨⟨σ.num, c⟩ :: ks, left⟩, ⟨?_, ?_⟩, ?_⟩
                  · rw [Part.text_cons, ← hText]
                    rfl
                  · exact Part.fits_cons.mpr ⟨⟨by simp [hn], hNumerals, by simp [hUnit]⟩, hFits⟩
                  · simp [Part.counted, Component.counted, hUnit, hn]
            · intro hReads
              obtain ⟨⟨components, left⟩, ⟨hText, hFits⟩, rfl⟩ := hReads
              obtain ⟨ks, hp, hRest⟩ := hFits.of_unit hUnits hNumerals hc hText
              injection hp with hp
              subst hp
              obtain ⟨hk, hks⟩ := Part.fits_cons.mp hFits
              obtain ⟨n, hn⟩ := Option.isSome_iff_exists.mp hk.number
              simp only at hn
              have hNumber : σ.inNumber = true := by
                rw [hIn]
                cases hNum : σ.num with
                | nil => rw [hNum] at hn; cases hn
                | cons => rfl
              simp only [add_ok_iff.mpr ⟨hNumber, n, hn, rfl⟩]
              refine (ih rfl rfl).mpr ⟨⟨ks, left⟩, ⟨hRest, hks⟩, ?_⟩
              simp [Part.counted, Component.counted, hUnit, hn]

theorem scan_ok_iff {totalNanos : Nat} : scan input units totalNanos text = .ok τ ↔
    ∃ p : Part, p.text = text ∧ p.Fits units ∧
      τ = ⟨p.counted units totalNanos, !p.left.isEmpty, p.left⟩ := by
  rw [scan, foldlM_ok_iff hUnits rfl rfl]
  constructor
  · rintro ⟨p, ⟨hText, hFits⟩, hEnd⟩
    exact ⟨p, hText.symm, hFits, hEnd⟩
  · rintro ⟨p, hText, hFits, hEnd⟩
    exact ⟨p, ⟨hText.symm, hFits⟩, hEnd⟩

/-- A text reads as a part in one way. -/
theorem Part.Fits.unique {q : Part} (hp : p.Fits units) (hq : q.Fits units)
    (hText : p.text = q.text) : p = q := by
  obtain ⟨components, left⟩ := p
  induction components generalizing q with
  | nil =>
      exact (hq.of_numerals hUnits hp.left hText).symm
  | cons k ks ih =>
      obtain ⟨hk, hks⟩ := Part.fits_cons.mp hp
      rw [Part.text_cons] at hText
      obtain ⟨ls, hEq, hRest⟩ := hq.of_unit hUnits hk.numerals (hUnits _ hk.unit) hText
      rw [hEq] at hq ⊢
      have hSame := ih (Part.fits_cons.mp hq).2 hks hRest
      injection hSame with hList hLeft
      rw [hList, hLeft]

end Scanning

theorem dateUnits_not_numeral (c : Char) (hUnit : (dateUnits c).isSome) : isNumeral c = false := by
  simp only [dateUnits] at hUnit
  split at hUnit <;> first | rfl | cases hUnit

theorem timeUnits_not_numeral (c : Char) (hUnit : (timeUnits c).isSome) : isNumeral c = false := by
  simp only [timeUnits] at hUnit
  split at hUnit <;> first | rfl | cases hUnit

/-- The two sections of a duration. -/
structure Reading where
  date : Part
  time : Option Part
deriving DecidableEq

namespace Reading

def text (r : Reading) : List Char :=
  'P' :: (r.date.text ++ match r.time with
    | none => []
    | some time => 'T' :: time.text)

structure Fits (r : Reading) : Prop where
  date : r.date.Fits dateUnits
  time : ∀ time ∈ r.time, time.Fits timeUnits

/-- The nanoseconds that the loops count. -/
def counted (r : Reading) : Nat :=
  match r.time with
  | none => r.date.counted dateUnits 0
  | some time => time.counted timeUnits (r.date.counted dateUnits 0)

end Reading

section Sections

variable {input : String} {n : Nat} {p q : Part} {text : List Char}

/-- The date has no separator, as neither a number nor a unit of the date is one; the first `T` of a
duration is where its time begins. -/
theorem Part.Fits.no_separator (hDate : p.Fits dateUnits) : ∀ c ∈ p.text, (c != 'T') = true := by
  intro c hMem
  have hNumeral : ∀ d, isNumeral d = true → (d != 'T') = true := by
    intro d hd
    cases hEq : d != 'T' with
    | true => rfl
    | false =>
        simp only [bne_eq_false_iff_eq] at hEq
        rw [hEq] at hd
        cases hd
  simp only [Part.text, Component.text, List.mem_append, List.mem_flatMap, List.mem_singleton]
    at hMem
  rcases hMem with ⟨k, hk, hMem | rfl⟩ | hMem
  · exact hNumeral c (List.all_eq_true.mp (hDate.components k hk).numerals c hMem)
  · have hUnit := (hDate.components k hk).unit
    cases hEq : k.unit != 'T' with
    | true => rfl
    | false =>
        simp only [bne_eq_false_iff_eq] at hEq
        rw [hEq] at hUnit
        cases hUnit
  · exact hNumeral c (List.all_eq_true.mp hDate.left c hMem)

/-- The separator splits a duration into its sections. -/
theorem Reading.Fits.split {r : Reading} (hFits : r.Fits) :
    (r.date.text ++ match r.time with
      | none => []
      | some time => 'T' :: time.text).takeWhile (· != 'T') = r.date.text ∧
    (r.date.text ++ match r.time with
      | none => []
      | some time => 'T' :: time.text).dropWhile (· != 'T') = match r.time with
        | none => []
        | some time => 'T' :: time.text := by
  rw [List.takeWhile_append_of_pos hFits.date.no_separator,
    List.dropWhile_append_of_pos hFits.date.no_separator]
  cases r.time <;> simp

/-- What the parser accepts is what reads as a duration that fits, once it is trimmed. The value it
returns is what the reading counts, cut to 64 bits. -/
theorem parseIso8601Duration_ok_iff : parseIso8601Duration input = .ok n ↔
    ∃ r : Reading, r.Fits ∧ r.text = JqEngine.trim input.toList ∧ n = r.counted % 2 ^ 64 := by
  rw [parseIso8601Duration]
  constructor
  · intro hOk
    split at hOk
    · rename_i body hTrim
      cases hDate : scan input dateUnits 0 (body.takeWhile (· != 'T')) with
      | error e => rw [hDate] at hOk; cases hOk
      | ok σ =>
          rw [hDate] at hOk
          obtain ⟨p, hp, hpFits, rfl⟩ := (scan_ok_iff dateUnits_not_numeral).mp hDate
          have hBody := List.takeWhile_append_dropWhile (p := (· != 'T')) (l := body)
          cases hRest : body.dropWhile (· != 'T') with
          | nil =>
              simp only [hRest] at hOk
              injection hOk with hValue
              refine ⟨⟨p, none⟩, ⟨hpFits, by simp⟩, ?_, hValue.symm⟩
              rw [hTrim, ← hBody, hRest, ← hp]
              rfl
          | cons t timePart =>
              have hT : t = 'T' := by
                have hHead := List.head?_dropWhile_not (· != 'T') body
                simpa [hRest] using hHead
              subst hT
              simp only [hRest] at hOk
              cases hTime : scan input timeUnits (p.counted dateUnits 0) timePart with
              | error e => simp only [hTime, bind, Except.bind] at hOk; cases hOk
              | ok τ =>
                  obtain ⟨q, hq, hqFits, rfl⟩ := (scan_ok_iff timeUnits_not_numeral).mp hTime
                  simp only [hTime, bind, Except.bind] at hOk
                  injection hOk with hValue
                  refine ⟨⟨p, some q⟩, ⟨hpFits, by simpa using hqFits⟩, ?_, hValue.symm⟩
                  rw [hTrim, ← hBody, hRest, ← hp, ← hq]
                  rfl
    · cases hOk
  · rintro ⟨⟨p, time⟩, hFits, hText, rfl⟩
    obtain ⟨hTake, hDrop⟩ := hFits.split
    rw [← hText]
    simp only [Reading.text, hTake, hDrop]
    rw [(scan_ok_iff dateUnits_not_numeral).mpr ⟨p, rfl, hFits.date, rfl⟩]
    cases time with
    | none => rfl
    | some q =>
        simp only [bind, Except.bind]
        rw [(scan_ok_iff timeUnits_not_numeral).mpr ⟨q, rfl, hFits.time q rfl, rfl⟩]
        rfl

/-- A text reads as a duration in one way. -/
theorem Reading.Fits.unique {r s : Reading} (hr : r.Fits) (hs : s.Fits) (hText : r.text = s.text) :
    r = s := by
  obtain ⟨hTake, hDrop⟩ := hr.split
  obtain ⟨hTake', hDrop'⟩ := hs.split
  injection hText with hHead hBody
  rw [hBody, hTake'] at hTake
  rw [hBody, hDrop'] at hDrop
  have hDate := hs.date.unique dateUnits_not_numeral hr.date hTake
  obtain ⟨p, time⟩ := r
  obtain ⟨q, time'⟩ := s
  subst hDate
  cases time <;> cases time' <;> simp only [reduceCtorEq] at hDrop
  · rfl
  · injection hDrop with hT hTime
    rw [(hr.time _ rfl).unique timeUnits_not_numeral (hs.time _ rfl) hTime.symm]

end Sections

end Duration
end OwsRuntime
