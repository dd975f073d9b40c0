import OwsRuntime.Core.FloatOrder

/-! All binary64 values, those that are not finite included. -/
namespace OwsRuntime

/-- A binary64 value. -/
inductive Double where
  | nan
  | infinite (negative : Bool)
  | finite (x : F64)
deriving DecidableEq, Repr

namespace Double

def isNan : Double → Bool
  | nan => true
  | _ => false

/-- `<=`, which holds of no value that is not a number. -/
def le : Double → Double → Bool
  | nan, _ => false
  | _, nan => false
  | infinite true, _ => true
  | _, infinite false => true
  | finite x, finite y => x.compare y != .gt
  | infinite false, _ => false
  | _, infinite true => false

/-- `<` -/
def lt (x y : Double) : Bool := x.le y && !y.le x

/-- `+`, which rounds. The sum of two zeros is negative when both are. -/
def add : Double → Double → Double
  | nan, _ => nan
  | _, nan => nan
  | infinite a, infinite b => if a = b then infinite a else nan
  | infinite a, _ => infinite a
  | _, infinite b => infinite b
  | finite x, finite y =>
      if x.isZero ∧ y.isZero then finite (if x.negative then y else x)
      else match x.add y with
        | some sum => finite sum
        | none => infinite x.negative

/-- The number in JSON, or `null` where there is none. -/
def toValue : Double → Value
  | finite x => .number (.float x)
  | _ => .null

variable {x y z : Double}

/-- The place of a number among the fractions and the two infinities. -/
def place : Double → Option (WithBot (WithTop ℚ))
  | nan => none
  | infinite true => some ⊥
  | infinite false => some ⊤
  | finite x => some ((x.toRat : WithTop ℚ) : WithBot (WithTop ℚ))

theorem exists_place (hx : x.isNan = false) : ∃ a, x.place = some a := by
  match x with
  | nan => cases hx
  | infinite true => exact ⟨_, rfl⟩
  | infinite false => exact ⟨_, rfl⟩
  | finite x => exact ⟨_, rfl⟩

theorem le_of_place {a b : WithBot (WithTop ℚ)} (hx : x.place = some a) (hy : y.place = some b) :
    x.le y = true ↔ a ≤ b := by
  match x, y, hx, hy with
  | infinite true, infinite true, rfl, rfl => simp [le]
  | infinite true, infinite false, rfl, rfl => simp [le]
  | infinite true, finite y, rfl, rfl => simp [le]
  | infinite false, infinite true, rfl, rfl => simp [le]
  | infinite false, infinite false, rfl, rfl => simp [le]
  | infinite false, finite y, rfl, rfl => simp [le]
  | finite x, infinite true, rfl, rfl => simp [le]
  | finite x, infinite false, rfl, rfl => simp [le]
  | finite x, finite y, rfl, rfl =>
      rw [WithBot.coe_le_coe, WithTop.coe_le_coe, le, bne_iff_ne, ne_eq, F64.compare_eq_toRat,
        compare_gt_iff_gt, not_lt]

theorem isNan_of_le (hLe : x.le y = true) : x.isNan = false ∧ y.isNan = false := by
  match x, y with
  | nan, y => cases hLe
  | infinite true, nan => cases hLe
  | infinite false, nan => cases hLe
  | finite x, nan => cases hLe
  | infinite a, infinite b => exact ⟨rfl, rfl⟩
  | infinite a, finite y => exact ⟨rfl, rfl⟩
  | finite x, infinite b => exact ⟨rfl, rfl⟩
  | finite x, finite y => exact ⟨rfl, rfl⟩

theorem le_trans (hFirst : x.le y = true) (hSecond : y.le z = true) : x.le z = true := by
  obtain ⟨hx, hy⟩ := isNan_of_le hFirst
  obtain ⟨a, ha⟩ := exists_place hx
  obtain ⟨b, hb⟩ := exists_place hy
  obtain ⟨c, hc⟩ := exists_place (isNan_of_le hSecond).2
  rw [le_of_place ha hb] at hFirst
  rw [le_of_place hb hc] at hSecond
  exact (le_of_place ha hc).mpr (hFirst.trans hSecond)

/-- Of two numbers the one is less that the other one does not reach. -/
theorem lt_iff_not_le (hx : x.isNan = false) (hy : y.isNan = false) :
    x.lt y = true ↔ y.le x = false := by
  obtain ⟨a, ha⟩ := exists_place hx
  obtain ⟨b, hb⟩ := exists_place hy
  have hForth := le_of_place ha hb
  have hBack := le_of_place hb ha
  rw [lt, Bool.and_eq_true, Bool.not_eq_true', ← Bool.not_eq_true, hForth, hBack, not_le]
  exact ⟨And.right, fun hLess => ⟨hLess.le, hLess⟩⟩

theorem le_of_lt (hLess : x.lt y = true) : x.le y = true := (Bool.and_eq_true_iff.mp hLess).1

end Double
end OwsRuntime
