import Mathlib.Order.Compare
import Mathlib.Data.String.Basic
import OwsRuntime.Core.FloatOrder
import OwsRuntime.Expressions.Eval

/-! The comparison of values. Where it is defined it is a linear preorder, whose
equivalence is the equality of the language. -/
namespace OwsRuntime

/-- In a linear order, from one element to another that is not less, and to a third one. -/
theorem compare_then {α : Type} [LinearOrder α] {a b c : α} (hFirst : compare a b ≠ .gt)
    (hSecond : compare b c ≠ .gt) : compare a c = (compare a b).then (compare b c) := by
  rw [compare_le_iff_le] at hSecond
  cases hLeft : compare a b with
  | gt => exact absurd hLeft hFirst
  | lt => exact compare_lt_iff_lt.mpr ((compare_lt_iff_lt.mp hLeft).trans_le hSecond)
  | eq => rw [compare_eq_iff_eq.mp hLeft, Ordering.eq_then]

namespace Jq

variable {platform : Platform}

section Cases

variable {v w : Value} {ord : Ordering}

/-- Values that are compared are two numbers, two strings or two arrays. -/
inductive Compares (platform : Platform) : Value → Value → Ordering → Prop where
  | numbers (a b : Number) :
      Compares platform (.number a) (.number b) (a.asF64.compare b.asF64)
  | strings (a b : String) : Compares platform (.string a) (.string b) (compare a b)
  | arrays {a b : List Value} {ord : Ordering} (hItems : cmpItems platform a b = .ok ord) :
      Compares platform (.array a) (.array b) ord

theorem cmp_eq_ok_iff : cmp platform v w = .ok ord ↔ Compares platform v w ord := by
  constructor
  · intro hCmp
    unfold cmp at hCmp
    split at hCmp
    · cases hCmp
      exact .numbers _ _
    · cases hCmp
      exact .strings _ _
    · exact .arrays hCmp
    · cases hCmp
  · rintro (⟨a, b⟩ | ⟨a, b⟩ | hItems)
    · rfl
    · rfl
    · exact hItems

/-- Arrays are compared by their first items, and by the others only where these are equal. -/
theorem cmpItems_cons_eq_ok_iff {xs ys : List Value} :
    cmpItems platform (v :: xs) (w :: ys) = .ok ord ↔
      (cmp platform v w = .ok ord ∧ ord ≠ .eq) ∨
        (cmp platform v w = .ok .eq ∧ cmpItems platform xs ys = .ok ord) := by
  rw [cmpItems]
  constructor
  · intro hItems
    obtain ⟨first, hFirst, hRest⟩ := bind_eq_ok hItems
    by_cases hEq : first = .eq
    · subst hEq
      exact Or.inr ⟨hFirst, hRest⟩
    · rw [if_pos (bne_iff_ne.mpr hEq)] at hRest
      cases hRest
      exact Or.inl ⟨hFirst, hEq⟩
  · rintro (⟨hFirst, hNe⟩ | ⟨hFirst, hRest⟩)
    · rw [hFirst]
      show (if (ord != .eq) = true then _ else _) = _
      rw [if_pos (bne_iff_ne.mpr hNe)]
      rfl
    · rw [hFirst]
      exact hRest

end Cases

section Laws

variable {u v w : Value} {ord ord' : Ordering}

theorem cmpItems_swap {xs ys : List Value}
    (swaps : ∀ x ∈ xs, ∀ {y ord}, cmp platform x y = .ok ord → cmp platform y x = .ok ord.swap)
    (hItems : cmpItems platform xs ys = .ok ord) : cmpItems platform ys xs = .ok ord.swap := by
  induction xs generalizing ys with
  | nil => cases ys <;> cases hItems <;> rfl
  | cons x xs ih =>
      rw [List.forall_mem_cons] at swaps
      cases ys with
      | nil =>
          cases hItems
          rfl
      | cons y ys =>
          rw [cmpItems_cons_eq_ok_iff] at hItems ⊢
          rcases hItems with ⟨hFirst, hNe⟩ | ⟨hFirst, hRest⟩
          · refine Or.inl ⟨swaps.1 hFirst, fun hSwap => hNe ?_⟩
            exact Ordering.swap_inj.mp hSwap
          · exact Or.inr ⟨swaps.1 hFirst, ih swaps.2 hRest⟩

/-- The comparison the other way round. -/
theorem cmp_swap (hCmp : cmp platform v w = .ok ord) : cmp platform w v = .ok ord.swap := by
  induction v using Value.induction generalizing w ord with
  | array items ih =>
      cases cmp_eq_ok_iff.mp hCmp with
      | arrays hItems => exact cmpItems_swap (fun v hMem => ih v hMem) hItems
  | number a =>
      cases cmp_eq_ok_iff.mp hCmp with
      | numbers a b =>
          rw [F64.compare_eq_toRat, ← Std.OrientedCmp.eq_swap, ← F64.compare_eq_toRat]
          rfl
  | string a =>
      cases cmp_eq_ok_iff.mp hCmp with
      | strings a b => exact congrArg Except.ok Std.OrientedCmp.eq_swap
  | _ => cases cmp_eq_ok_iff.mp hCmp

/-- Two arrays that can be compared compare as equal exactly when they have one length and are equal
item by item. The induction is on the items. -/
theorem cmpItems_eq_iff {xs ys : List Value}
    (same : ∀ x ∈ xs, ∀ {y ord}, cmp platform x y = .ok ord → (ord = .eq ↔ valuesEqual x y = true))
    (hItems : cmpItems platform xs ys = .ok ord) :
    ord = .eq ↔ xs.length = ys.length ∧ itemsEqual xs ys = true := by
  induction xs generalizing ys with
  | nil => cases ys <;> cases hItems <;> simp [itemsEqual]
  | cons x xs ih =>
      rw [List.forall_mem_cons] at same
      cases ys with
      | nil =>
          cases hItems
          simp
      | cons y ys =>
          rw [itemsEqual, Bool.and_eq_true, List.length_cons, List.length_cons, Nat.succ_inj]
          rcases cmpItems_cons_eq_ok_iff.mp hItems with ⟨hFirst, hNe⟩ | ⟨hFirst, hRest⟩
          · have hDiffer : ¬ valuesEqual x y = true := fun h => hNe ((same.1 hFirst).mpr h)
            exact ⟨fun h => absurd h hNe, fun h => absurd h.2.1 hDiffer⟩
          · have hSame : valuesEqual x y = true := (same.1 hFirst).mp rfl
            rw [ih same.2 hRest]
            exact ⟨fun h => ⟨h.1, hSame, h.2⟩, fun h => ⟨h.1, h.2.2⟩⟩

/-- Values compare as equal if and only if they are equal. -/
theorem cmp_eq_iff (hCmp : cmp platform v w = .ok ord) : ord = .eq ↔ valuesEqual v w = true := by
  induction v using Value.induction generalizing w ord with
  | array items ih =>
      cases cmp_eq_ok_iff.mp hCmp with
      | arrays hItems =>
          rw [valuesEqual, Bool.and_eq_true, beq_iff_eq]
          exact cmpItems_eq_iff (fun v hMem => ih v hMem) hItems
  | number a =>
      cases cmp_eq_ok_iff.mp hCmp with
      | numbers a b => rw [valuesEqual, F64.eq_iff_toRat, F64.compare_eq_toRat, compare_eq_iff_eq]
  | string a =>
      cases cmp_eq_ok_iff.mp hCmp with
      | strings a b => simp [valuesEqual]
  | _ => cases cmp_eq_ok_iff.mp hCmp

theorem then_ne_eq (hNe : ord ≠ .eq) : ord.then ord' = ord := by
  cases ord <;> first | rfl | exact absurd rfl hNe

/-- The first items that differ on the way from the first array to the last decide. -/
theorem cmpItems_then {xs ys zs : List Value}
    (trans : ∀ x ∈ xs, ∀ {y z ord ord'}, cmp platform x y = .ok ord → cmp platform y z = .ok ord' →
      ord ≠ .gt → ord' ≠ .gt → cmp platform x z = .ok (ord.then ord'))
    (hFirst : cmpItems platform xs ys = .ok ord) (hSecond : cmpItems platform ys zs = .ok ord')
    (hLe : ord ≠ .gt) (hLe' : ord' ≠ .gt) : cmpItems platform xs zs = .ok (ord.then ord') := by
  induction xs generalizing ys zs with
  | nil =>
      cases ys with
      | nil =>
          cases hFirst
          exact hSecond
      | cons y ys =>
          cases hFirst
          cases zs with
          | nil =>
              cases hSecond
              exact absurd rfl hLe'
          | cons z zs => rfl
  | cons x xs ih =>
      rw [List.forall_mem_cons] at trans
      cases ys with
      | nil =>
          cases hFirst
          exact absurd rfl hLe
      | cons y ys =>
          cases zs with
          | nil =>
              cases hSecond
              exact absurd rfl hLe'
          | cons z zs =>
              rw [cmpItems_cons_eq_ok_iff] at hFirst hSecond ⊢
              rcases hFirst with ⟨hHead, hNe⟩ | ⟨hHead, hRest⟩
              · rw [then_ne_eq hNe]
                refine Or.inl ⟨?_, hNe⟩
                rcases hSecond with ⟨hHead', _⟩ | ⟨hHead', _⟩
                · have hThen := trans.1 hHead hHead' hLe hLe'
                  rwa [then_ne_eq hNe] at hThen
                · have hThen := trans.1 hHead hHead' hLe (by decide)
                  rwa [then_ne_eq hNe] at hThen
              · rcases hSecond with ⟨hHead', hNe'⟩ | ⟨hHead', hRest'⟩
                · have hThen := trans.1 hHead hHead' (by decide) hLe'
                  cases ord with
                  | gt => exact absurd rfl hLe
                  | eq => exact Or.inl ⟨hThen, hNe'⟩
                  | lt =>
                      cases ord' with
                      | gt => exact absurd rfl hLe'
                      | eq => exact absurd rfl hNe'
                      | lt => exact Or.inl ⟨hThen, hNe'⟩
                · exact Or.inr ⟨trans.1 hHead hHead' (by decide) (by decide),
                    ih trans.2 hRest hRest'⟩

/-- From a value to one that is not less, and from there to another one. -/
theorem cmp_then (hFirst : cmp platform u v = .ok ord) (hSecond : cmp platform v w = .ok ord')
    (hLe : ord ≠ .gt) (hLe' : ord' ≠ .gt) : cmp platform u w = .ok (ord.then ord') := by
  induction u using Value.induction generalizing v w ord ord' with
  | array items ih =>
      cases cmp_eq_ok_iff.mp hFirst with
      | arrays hItems =>
          cases cmp_eq_ok_iff.mp hSecond with
          | arrays hItems' => exact cmpItems_then (fun v hMem => ih v hMem) hItems hItems' hLe hLe'
  | number a =>
      cases cmp_eq_ok_iff.mp hFirst with
      | numbers a b =>
          cases cmp_eq_ok_iff.mp hSecond with
          | numbers b c =>
              rw [F64.compare_eq_toRat] at hLe hLe' ⊢
              rw [F64.compare_eq_toRat, ← compare_then hLe hLe', ← F64.compare_eq_toRat]
              rfl
  | string a =>
      cases cmp_eq_ok_iff.mp hFirst with
      | strings a b =>
          cases cmp_eq_ok_iff.mp hSecond with
          | strings b c => exact congrArg Except.ok (compare_then hLe hLe')
  | _ => cases cmp_eq_ok_iff.mp hFirst

end Laws

/-- An operator answers yes. -/
def Holds (platform : Platform) (op : BinOp) (v w : Value) : Prop :=
  applyBinop platform op v w = .ok (.bool true)

/-- Exactly one of `<`, `==` and `>` holds. The others are what follows from these. -/
structure Trichotomous (platform : Platform) (v w : Value) : Prop where
  answers : ∀ op ∈ [BinOp.lt, .le, .gt, .ge, .eq, .ne], ∃ b,
    applyBinop platform op v w = .ok (.bool b)
  some_holds : Holds platform .lt v w ∨ Holds platform .eq v w ∨ Holds platform .gt v w
  lt_excludes : Holds platform .lt v w → ¬ Holds platform .eq v w ∧ ¬ Holds platform .gt v w
  gt_excludes : Holds platform .gt v w → ¬ Holds platform .eq v w
  le : Holds platform .le v w ↔ Holds platform .lt v w ∨ Holds platform .eq v w
  ge : Holds platform .ge v w ↔ Holds platform .gt v w ∨ Holds platform .eq v w
  ne : Holds platform .ne v w ↔ ¬ Holds platform .eq v w

/-- Where two values can be compared, exactly one of the three comparisons of the language holds of
them, and it is the one that the order says. -/
theorem trichotomous {v w : Value} {ord : Ordering} (hCmp : cmp platform v w = .ok ord) :
    Trichotomous platform v w := by
  have hSame := cmp_eq_iff hCmp
  have hLt : applyBinop platform .lt v w = .ok (.bool (ord == .lt)) := by
    rw [applyBinop, hCmp]
    rfl
  have hLe : applyBinop platform .le v w = .ok (.bool (ord != .gt)) := by
    rw [applyBinop, hCmp]
    rfl
  have hGt : applyBinop platform .gt v w = .ok (.bool (ord == .gt)) := by
    rw [applyBinop, hCmp]
    rfl
  have hGe : applyBinop platform .ge v w = .ok (.bool (ord != .lt)) := by
    rw [applyBinop, hCmp]
    rfl
  have hEq : applyBinop platform .eq v w = .ok (.bool (ord == .eq)) := by
    rw [applyBinop, Bool.eq_iff_iff.mpr (hSame.symm.trans beq_iff_eq.symm)]
  have hNe : applyBinop platform .ne v w = .ok (.bool (ord != .eq)) := by
    rw [applyBinop, Bool.eq_iff_iff.mpr (hSame.symm.trans beq_iff_eq.symm)]
    rfl
  constructor
  case answers => cases ord <;> simp [hLt, hLe, hGt, hGe, hEq, hNe]
  all_goals
    simp only [Holds, hLt, hLe, hGt, hGe, hEq, hNe]
    cases ord <;> simp

/-- The values whose objects are maps, as those of the runtime. -/
abbrev MapValue := { v : Value // v.WellFormed }

theorem equal_equivalence : Equivalence fun v w : MapValue => valuesEqual v.1 w.1 = true where
  refl v := Value.valuesEqual_refl v.2
  symm := fun {v _} hEqual => Value.valuesEqual_symm v.2 hEqual
  trans := Value.valuesEqual_trans

/-- Equality is an equivalence. Where the comparison is defined it is antisymmetric and
transitive, it finds equal what is equal, and the operators made of it obey the trichotomy. -/
theorem comparison_coherent (platform : Platform) :
    (Equivalence fun v w : MapValue => valuesEqual v.1 w.1 = true) ∧
      (∀ v w ord, cmp platform v w = .ok ord → cmp platform w v = .ok ord.swap ∧
        (ord = .eq ↔ valuesEqual v w = true) ∧ Trichotomous platform v w) ∧
      ∀ u v w ord ord', cmp platform u v = .ok ord → cmp platform v w = .ok ord' →
        ord ≠ .gt → ord' ≠ .gt → cmp platform u w = .ok (ord.then ord') := by
  refine ⟨equal_equivalence, ?_, ?_⟩
  · intro v w ord hCmp
    exact ⟨cmp_swap hCmp, cmp_eq_iff hCmp, trichotomous hCmp⟩
  · intro u v w ord ord' hFirst hSecond hLe hLe'
    exact cmp_then hFirst hSecond hLe hLe'

end Jq
end OwsRuntime
