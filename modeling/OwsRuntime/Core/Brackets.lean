import Mathlib.Data.List.Basic
import Mathlib.Data.List.Count

/-! Brackets in texts: which ones close, and where a reader that counts them ends. -/
namespace Brackets

variable {α : Type} [DecidableEq α] (o c : α)

/-- Every bracket that closes has one that opens before it, and every one that opens is closed. -/
structure Balanced (text : List α) : Prop where
  before : ∀ u, u <+: text → u.count c ≤ u.count o
  total : text.count o = text.count c

/-- How many brackets are open after a text, when there never is one too many that closes. -/
def level : Nat → List α → Option Nat
  | n, [] => some n
  | n, a :: rest =>
      if a = o then level (n + 1) rest
      else if a = c then if n = 0 then none else level (n - 1) rest
      else level n rest

/-- The text up to the bracket that closes the last open one, and the text after it. -/
def split : Nat → List α → Option (List α × List α)
  | _, [] => none
  | depth, a :: rest =>
      if a = o then (split (depth + 1) rest).map fun b => (a :: b.1, b.2)
      else if a = c then
        if depth ≤ 1 then some ([], rest)
        else (split (depth - 1) rest).map fun b => (a :: b.1, b.2)
      else (split depth rest).map fun b => (a :: b.1, b.2)

attribute [grind =] level split

variable {o c} (hNe : o ≠ c)
include hNe

/-- The level is counted to the end when no part of the text closes more than has been opened. Then
what is open at the end is what was open before, with the balance of the text. -/
theorem level_eq_some_iff {n k : Nat} {text : List α} : level o c n text = some k ↔
    (∀ u, u <+: text → u.count c ≤ n + u.count o) ∧ n + text.count o = k + text.count c := by
  induction text generalizing n with
  | nil =>
      constructor
      · intro hLevel
        cases hLevel
        refine ⟨fun u hu => ?_, rfl⟩
        rw [List.prefix_nil.mp hu]
        exact Nat.zero_le _
      · intro ⟨_, hTotal⟩
        have hTotal : n = k := hTotal
        rw [hTotal]
        rfl
  | cons a rest ih =>
      have hPrefixes : (∀ u, u <+: a :: rest → u.count c ≤ n + u.count o) ↔
          ∀ u, u <+: rest → (a :: u).count c ≤ n + (a :: u).count o := by
        constructor
        · exact fun hAll u hu => hAll (a :: u) (List.cons_prefix_cons.mpr ⟨rfl, hu⟩)
        · intro hAll u hu
          rcases List.prefix_cons_iff.mp hu with rfl | ⟨v, rfl, hv⟩
          · exact Nat.zero_le _
          · exact hAll v hv
      rw [level, hPrefixes]
      by_cases hOpen : a = o
      · subst hOpen
        rw [if_pos rfl, ih]
        simp only [List.count_cons_self, List.count_cons_of_ne hNe]
        exact and_congr (forall₂_congr fun u _ => by omega) (by omega)
      · rw [if_neg hOpen]
        by_cases hClose : a = c
        · subst hClose
          rw [if_pos rfl]
          simp only [List.count_cons_self, List.count_cons_of_ne hOpen]
          by_cases hZero : n = 0
          · rw [if_pos hZero]
            constructor
            · nofun
            · intro ⟨hAll, _⟩
              have hNil := hAll [] List.nil_prefix
              rw [hZero] at hNil
              exact absurd hNil (by simp)
          · rw [if_neg hZero, ih]
            exact and_congr (forall₂_congr fun u _ => by omega) (by omega)
        · rw [if_neg hClose, ih]
          simp only [List.count_cons_of_ne hOpen, List.count_cons_of_ne hClose]

theorem balanced_iff_level {text : List α} : Balanced o c text ↔ level o c 0 text = some 0 := by
  rw [level_eq_some_iff hNe]
  constructor
  · exact fun h => ⟨fun u hu => by have := h.before u hu; omega, by have := h.total; omega⟩
  · exact fun ⟨hBefore, hTotal⟩ => ⟨fun u hu => by have := hBefore u hu; omega, by omega⟩

omit hNe in
/-- A reader counts on through a text in which it does not end. -/
theorem split_append {n k : Nat} {text : List α} (hLevel : level o c n text = some k)
    (tail : List α) : split o c (n + 1) (text ++ tail) =
      (split o c (k + 1) tail).map fun b => (text ++ b.1, b.2) := by
  induction text generalizing n with
  | nil =>
      cases hLevel
      rw [List.nil_append]
      cases split o c (k + 1) tail <;> rfl
  | cons a rest ih =>
      rw [level] at hLevel
      rw [List.cons_append, split]
      by_cases hOpen : a = o
      · rw [if_pos hOpen] at hLevel ⊢
        rw [ih hLevel]
        cases split o c (k + 1) tail <;> rfl
      · rw [if_neg hOpen] at hLevel ⊢
        by_cases hClose : a = c
        · rw [if_pos hClose] at hLevel ⊢
          by_cases hZero : n = 0
          · rw [if_pos hZero] at hLevel
            cases hLevel
          · have hDepth : ¬ n + 1 ≤ 1 := by omega
            have hLess : n + 1 - 1 = (n - 1) + 1 := by omega
            rw [if_neg hZero] at hLevel
            rw [if_neg hDepth, hLess, ih hLevel]
            cases split o c (k + 1) tail <;> rfl
        · rw [if_neg hClose] at hLevel ⊢
          rw [ih hLevel]
          cases split o c (k + 1) tail <;> rfl

/-- A reader ends at the bracket that closes, after a balanced text. -/
theorem split_balanced {text : List α} (hBalanced : Balanced o c text) (tail : List α) :
    split o c 1 (text ++ c :: tail) = some (text, tail) := by
  rw [split_append ((balanced_iff_level hNe).mp hBalanced), split, if_neg (Ne.symm hNe), if_pos rfl,
    if_pos (Nat.le_refl 1)]
  simp

/-- A text with one bracket too many that closes ends a reader at it. -/
theorem exists_close {n : Nat} {text : List α} (hLevel : level o c n text = none) :
    ∃ u v, text = u ++ c :: v ∧ level o c n u = some 0 := by
  induction text generalizing n with
  | nil => cases hLevel
  | cons a rest ih =>
      rw [level] at hLevel
      by_cases hOpen : a = o
      · rw [if_pos hOpen] at hLevel
        obtain ⟨u, v, rfl, hu⟩ := ih hLevel
        refine ⟨a :: u, v, rfl, ?_⟩
        rw [level, if_pos hOpen]
        exact hu
      · rw [if_neg hOpen] at hLevel
        by_cases hClose : a = c
        · subst hClose
          rw [if_pos rfl] at hLevel
          by_cases hZero : n = 0
          · exact ⟨[], rest, rfl, by rw [hZero, level]⟩
          · rw [if_neg hZero] at hLevel
            obtain ⟨u, v, rfl, hu⟩ := ih hLevel
            refine ⟨a :: u, v, rfl, ?_⟩
            rw [level, if_neg hOpen, if_pos rfl, if_neg hZero]
            exact hu
        · rw [if_neg hClose] at hLevel
          obtain ⟨u, v, rfl, hu⟩ := ih hLevel
          refine ⟨a :: u, v, rfl, ?_⟩
          rw [level, if_neg hOpen, if_neg hClose]
          exact hu

/-- Where a reader ends, the text before is balanced and the bracket closes it. -/
theorem split_eq_some_iff {text u v : List α} :
    split o c 1 text = some (u, v) ↔ text = u ++ c :: v ∧ Balanced o c u := by
  constructor
  · intro hSplit
    cases hLevel : level o c 0 text with
    | some k =>
        have hEnd := split_append hLevel []
        rw [List.append_nil, split] at hEnd
        rw [hEnd] at hSplit
        cases hSplit
    | none =>
        obtain ⟨u', v', rfl, hu⟩ := exists_close hNe hLevel
        have hBalanced := (balanced_iff_level hNe).mpr hu
        rw [split_balanced hNe hBalanced] at hSplit
        cases hSplit
        exact ⟨rfl, hBalanced⟩
  · rintro ⟨rfl, hBalanced⟩
    exact split_balanced hNe hBalanced v

omit hNe in
theorem level_append (n : Nat) (text tail : List α) :
    level o c n (text ++ tail) = (level o c n text).bind fun k => level o c k tail := by
  induction text generalizing n with
  | nil => rfl
  | cons a rest ih =>
      rw [List.cons_append, level, level]
      by_cases hOpen : a = o
      · rw [if_pos hOpen, if_pos hOpen, ih]
      · rw [if_neg hOpen, if_neg hOpen]
        by_cases hClose : a = c
        · rw [if_pos hClose, if_pos hClose]
          by_cases hZero : n = 0
          · rw [if_pos hZero, if_pos hZero]
            rfl
          · rw [if_neg hZero, if_neg hZero, ih]
        · rw [if_neg hClose, if_neg hClose, ih]

omit hNe in
theorem level_of_notMem {text : List α} (hOpen : o ∉ text) (hClose : c ∉ text) (n : Nat) :
    level o c n text = some n := by
  induction text with
  | nil => rfl
  | cons a rest ih =>
      rw [List.mem_cons, not_or] at hOpen hClose
      rw [level, if_neg (Ne.symm hOpen.1), if_neg (Ne.symm hClose.1)]
      exact ih hOpen.2 hClose.2

/-- Text without brackets around it keeps a text balanced, or not. -/
theorem balanced_within_iff {first last : List α} (hFirst : o ∉ first ∧ c ∉ first)
    (hLast : o ∉ last ∧ c ∉ last) (text : List α) :
    Balanced o c (first ++ text ++ last) ↔ Balanced o c text := by
  rw [balanced_iff_level hNe, balanced_iff_level hNe, level_append, level_append,
    level_of_notMem hFirst.1 hFirst.2, Option.bind_some]
  simp only [level_of_notMem hLast.1 hLast.2, Option.bind_fun_some]

theorem balanced_of_notMem {text : List α} (hOpen : o ∉ text) (hClose : c ∉ text) :
    Balanced o c text :=
  (balanced_iff_level hNe).mpr (level_of_notMem hOpen hClose 0)

end Brackets
