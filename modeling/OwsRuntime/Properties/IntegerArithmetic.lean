import OwsRuntime.Expressions.Eval

/-! Arithmetic on 64-bit integers. The result is exact where it fits; where it does not, a
build with overflow checks stops and any other one goes on with another integer. -/
namespace OwsRuntime
namespace Jq

/-- The range of a 64-bit integer. -/
def InI64 (n : Int) : Prop := -2 ^ 63 ≤ n ∧ n < 2 ^ 63

instance (n : Int) : Decidable (InI64 n) := inferInstanceAs (Decidable (_ ∧ _))

/-- The result of an operator on integers. -/
def BinOp.exact : BinOp → Int → Int → Option Int
  | .add, m, n => some (m + n)
  | .sub, m, n => some (m - n)
  | .mul, m, n => some (m * n)
  | .mod, m, n => if n = 0 then none else some (m.tmod n)
  | _, _, _ => none

def LangError.isPanic : LangError → Bool
  | .panic _ => true
  | _ => false

/-- What an evaluation may come to when its exact result is an integer: the integer, where it
fits; otherwise a number that is no other integer, or an error. -/
def Represents (exact : Int) (result : Except LangError (List Value)) : Prop :=
  if InI64 exact then result = .ok [.number (.int exact)]
  else (∃ n, result = .ok [.number n] ∧ ∀ k, n = .int k → k = exact) ∨
    ∃ e, result = .error e ∧ e.isPanic = false

variable {platform : Platform} {operation : String} {n : Int}

theorem asI64_of_inI64 (hn : InI64 n) : (Number.int n).asI64 = some n := if_pos hn

theorem jsonInt_of_inI64 (hn : InI64 n) : jsonInt platform operation n = .ok (.number (.int n)) :=
  if_pos hn

/-- The wrapped integer is another one. -/
theorem wrapped_ne (hn : ¬ InI64 n) : (n + 2 ^ 63) % 2 ^ 64 - 2 ^ 63 ≠ n := by
  intro hSame
  have hLow : 0 ≤ (n + 2 ^ 63) % 2 ^ 64 := Int.emod_nonneg _ (by decide)
  have hHigh : (n + 2 ^ 63) % 2 ^ 64 < 2 ^ 64 := Int.emod_lt_of_pos _ (by decide)
  exact hn ⟨by omega, by omega⟩

/-- Where an integer does not fit, there is a panic or another integer. -/
theorem jsonInt_of_not_inI64 (platform : Platform) (operation : String) (hn : ¬ InI64 n) :
    (∃ message, jsonInt platform operation n = .error (.panic message)) ∨
      ∃ k, k ≠ n ∧ jsonInt platform operation n = .ok (.number (.int k)) := by
  rw [jsonInt, if_neg (show ¬ (-2 ^ 63 ≤ n ∧ n < 2 ^ 63) from hn)]
  cases platform.overflowChecks with
  | true => exact Or.inl ⟨_, rfl⟩
  | false => exact Or.inr ⟨_, wrapped_ne hn, rfl⟩

section Results

variable {op : BinOp} {m exact : Int}

theorem inI64_tmod (hn : InI64 n) (hZero : n ≠ 0) : InI64 (m.tmod n) := by
  have hAbs := Int.natAbs_tmod m n
  have hLess : m.natAbs % n.natAbs < n.natAbs := Nat.mod_lt _ (Int.natAbs_pos.mpr hZero)
  have hMost : m.natAbs % n.natAbs ≤ m.natAbs := Nat.mod_le _ _
  simp only [InI64] at *
  omega

/-- What an operator makes of two integers, apart from the remainder that overflows. -/
theorem applyBinop_int (platform : Platform) (hm : InI64 m) (hn : InI64 n) (hOp : op.exact m n = some exact)
    (hFits : ¬ (op = .mod ∧ m = -2 ^ 63 ∧ n = -1)) :
    ∃ operation, applyBinop platform op (.number (.int m)) (.number (.int n)) =
      jsonInt platform operation exact := by
  cases op with
  | add =>
      cases hOp
      exact ⟨"add", by simp only [applyBinop, add, asI64_of_inI64 hm, asI64_of_inI64 hn]⟩
  | sub =>
      cases hOp
      exact ⟨"subtract", by simp only [applyBinop, sub, asI64_of_inI64 hm, asI64_of_inI64 hn]⟩
  | mul =>
      cases hOp
      exact ⟨"multiply", by simp only [applyBinop, mul, asI64_of_inI64 hm, asI64_of_inI64 hn]⟩
  | mod =>
      by_cases hZero : n = 0
      · rw [BinOp.exact, if_pos hZero] at hOp
        cases hOp
      · rw [BinOp.exact, if_neg hZero] at hOp
        cases hOp
        have hOther : ¬ (m = -2 ^ 63 ∧ n = -1) := fun h => hFits ⟨rfl, h⟩
        refine ⟨"", ?_⟩
        rw [jsonInt_of_inI64 (inI64_tmod hn hZero)]
        simp only [applyBinop, mod, asI64_of_inI64 hm, asI64_of_inI64 hn, if_neg hZero, if_neg hOther]
  | _ => cases hOp

/-- The operator on two streams of one value. -/
theorem binary_singles (hOp : op.exact m n = some exact) (l r : Value) :
    binary platform op (.ok [l]) (.ok [r]) = (applyBinop platform op l r).map fun v => [v] := by
  have hEach : binary platform op (.ok [l]) (.ok [r]) =
      Streams.collect (fun l => Streams.each (applyBinop platform op l) [r]) [l] := by
    cases op <;> first | rfl | cases hOp
  rw [hEach, Streams.collect_singleton, Streams.each_cons]
  cases applyBinop platform op l r <;> rfl

theorem mod_overflow : applyBinop platform .mod (.number (.int (-2 ^ 63))) (.number (.int (-1))) =
    .error (.panic "attempt to calculate the remainder with overflow") := rfl

theorem not_represents_panic (message : String) : ¬ Represents exact (.error (.panic message)) := by
  rw [Represents]
  split
  · nofun
  · rintro (⟨_, h, _⟩ | ⟨_, h, hPanic⟩)
    · cases h
    · cases h
      cases hPanic

/-- The arithmetic of integers is exact where the result fits and the division that a
remainder takes does not overflow, and nowhere else. -/
theorem integer_arithmetic_iff (vars : Map) (input : Value) (l r : Expr)
    (hl : eval platform vars l input = .ok [.number (.int m)])
    (hr : eval platform vars r input = .ok [.number (.int n)]) (hm : InI64 m) (hn : InI64 n)
    (hOp : op.exact m n = some exact) :
    Represents exact (eval platform vars (.binary op l r) input) ↔
      InI64 exact ∧ ¬ (op = .mod ∧ m = -2 ^ 63 ∧ n = -1) := by
  rw [eval]
  simp only [hl, hr, binary_singles hOp]
  by_cases hOver : op = .mod ∧ m = -2 ^ 63 ∧ n = -1
  · obtain ⟨rfl, rfl, rfl⟩ := hOver
    refine iff_of_false ?_ fun h => h.2 ⟨rfl, rfl, rfl⟩
    rw [mod_overflow]
    exact not_represents_panic _
  · obtain ⟨operation, hApply⟩ := applyBinop_int platform hm hn hOp hOver
    rw [hApply]
    by_cases hFits : InI64 exact
    · refine iff_of_true ?_ ⟨hFits, hOver⟩
      rw [Represents, if_pos hFits, jsonInt_of_inI64 hFits]
      rfl
    · refine iff_of_false ?_ fun h => hFits h.1
      rcases jsonInt_of_not_inI64 platform operation hFits with
        ⟨message, hPanic⟩ | ⟨k, hOther, hInt⟩
      · rw [hPanic]
        exact not_represents_panic message
      · rw [hInt, Represents, if_neg hFits]
        rintro (⟨_, h, hSame⟩ | ⟨_, h, _⟩)
        · cases h
          exact hOther (hSame k rfl)
        · cases h

/-- The remainder has the sign of the dividend, as it does in the language. -/
theorem integer_arithmetic_remainder :
    Represents (-3) (eval (.ascii true) [] (.binary .mod (.literal (.number (.int (-7))))
      (.literal (.number (.int 4)))) .null) :=
  (integer_arithmetic_iff [] .null (.literal (.number (.int (-7)))) (.literal (.number (.int 4)))
    (by rw [eval]) (by rw [eval]) (by decide) (by decide) rfl).mpr (by decide)

/-- The largest integer plus one is a panic in one build and the smallest integer in another. -/
theorem largest_plus_one :
    ¬ Represents (2 ^ 63) (eval (.ascii true) [] (.binary .add
      (.literal (.number (.int (2 ^ 63 - 1)))) (.literal (.number (.int 1)))) .null) ∧
    ¬ Represents (2 ^ 63) (eval (.ascii false) [] (.binary .add
      (.literal (.number (.int (2 ^ 63 - 1)))) (.literal (.number (.int 1)))) .null) := by
  constructor
  · intro hRepresents
    rw [eval, eval, eval] at hRepresents
    exact not_represents_panic _ hRepresents
  · intro hRepresents
    rw [eval, eval, eval] at hRepresents
    rcases hRepresents with ⟨_, h, hSame⟩ | ⟨_, h, _⟩
    · cases h
      exact absurd (hSame (-2 ^ 63) rfl) (by decide)
    · cases h

end Results

end Jq
end OwsRuntime
