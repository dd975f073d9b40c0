import Mathlib.Data.List.Basic

/-! Walks through a labelled transition system, with the labels of their steps. -/
namespace Graph

variable {σ ε : Type} {step : σ → ε → σ → Prop} {s t u : σ} {labels more : List ε}

/-- A walk from one state to another along steps with the given labels. -/
inductive Walk (step : σ → ε → σ → Prop) (s : σ) : List ε → σ → Prop where
  | nil : Walk step s [] s
  | snoc {labels : List ε} {label : ε} {t u : σ} (prior : Walk step s labels t)
      (last : step t label u) : Walk step s (labels ++ [label]) u

/-- Concatenate two walks. -/
theorem Walk.append (first : Walk step s labels t) (second : Walk step t more u) :
    Walk step s (labels ++ more) u := by
  induction second with
  | nil => simpa using first
  | snoc _ last ih =>
      rw [← List.append_assoc]
      exact ih.snoc last

/-- What every step keeps, a walk keeps. -/
theorem Walk.keeps (walk : Walk step s labels t) (Inv : σ → Prop) (start : Inv s)
    (keep : ∀ t label u, Inv t → step t label u → Inv u) : Inv t := by
  induction walk with
  | nil => exact start
  | snoc _ last ih => exact keep _ _ _ ih last

end Graph
