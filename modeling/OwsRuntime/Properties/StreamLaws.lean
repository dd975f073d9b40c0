import OwsRuntime.Expressions.Eval

/-! The laws of streams by which expressions are rewritten. They hold up to the failure
that comes first. -/
namespace OwsRuntime
namespace Jq

open Streams

variable {platform : Platform} {vars : Map} {input : Value}

theorem collect_map {ε α β γ : Type} (f : β → Except ε (List γ)) (g : α → β) (xs : List α) :
    collect f (xs.map g) = collect (f ∘ g) xs := by
  induction xs with
  | nil => rfl
  | cons a rest ih => rw [List.map_cons, collect_cons, collect_cons, ih]; rfl

/-- The parts of a stream are evaluated one after the other. -/
theorem evalAll_eq_collect (parts : List Expr) :
    evalAll platform vars parts input = collect (fun e => eval platform vars e input) parts := by
  induction parts with
  | nil => rw [evalAll, collect_nil]
  | cons e rest ih =>
      rw [evalAll, collect_cons, ← ih]
      rfl

theorem eval_pipe (l r : Expr) : eval platform vars (.pipe l r) =
    andThen (eval platform vars l) (eval platform vars r) := by
  rw [eval]

theorem eval_identity : eval platform vars .identity = fun input => .ok [input] := by
  rw [eval]

theorem eval_stream (parts : List Expr) : eval platform vars (.stream parts) input =
    collect (fun e => eval platform vars e input) parts := by
  rw [eval, evalAll_eq_collect]

theorem eval_array (elems : List Expr) : eval platform vars (.array elems) input =
    (collect (fun e => eval platform vars e input) elems).map fun out => [.array out] := by
  rw [eval, ← evalAll_eq_collect]

/-- A pipe distributes over the parts of the stream on its left. -/
theorem eval_stream_pipe (parts : List Expr) (c : Expr) :
    Agree (eval platform vars (.pipe (.stream parts) c) input)
      (eval platform vars (.stream (parts.map (Expr.pipe · c))) input) := by
  have hParts : eval platform vars (.stream (parts.map (Expr.pipe · c))) input =
      collect (andThen (fun e => eval platform vars e input) (eval platform vars c)) parts := by
    rw [eval_stream, collect_map]
    rfl
  have hPipe : eval platform vars (.pipe (.stream parts) c) input =
      (collect (fun e => eval platform vars e input) parts >>= collect (eval platform vars c)) := by
    rw [eval_pipe, andThen, eval_stream]
  rw [hParts, hPipe]
  exact (collect_andThen _ _ parts).symm

theorem eval_iterate_identity (items : List Value) :
    eval platform vars (.iterate .identity) (.array items) = .ok items := by
  rw [eval, eval_identity]
  show Except.ok (items ++ []) = Except.ok items
  rw [List.append_nil]

/-- `map` of a filter is the filter after the items of the input. -/
theorem eval_map (f : Expr) (items : List Value) :
    eval platform vars (.call "map" [f]) (.array items) =
      eval platform vars (.array [.pipe (.iterate .identity) f]) (.array items) := by
  have hMap : eval platform vars (.call "map" [f]) (.array items) =
      (collect (eval platform vars f) items).map fun out => [.array out] := by
    rw [eval, evalArgs, evalArgs]
    rfl
  rw [hMap, eval_array, collect_singleton, eval_pipe, andThen, eval_iterate_identity]
  rfl

/-- Pipes are associative, identity is their unit, they distribute over streams, and
`map(f)` is `[.[] | f]`. -/
theorem stream_laws (platform : Platform) (vars : Map) (a b c : Expr) (input : Value)
    (items : List Value) :
    Agree (eval platform vars (.pipe (.pipe a b) c) input)
        (eval platform vars (.pipe a (.pipe b c)) input) ∧
      eval platform vars (.pipe .identity a) input = eval platform vars a input ∧
      eval platform vars (.pipe a .identity) input = eval platform vars a input ∧
      Agree (eval platform vars (.pipe (.stream [a, b]) c) input)
        (eval platform vars (.stream [.pipe a c, .pipe b c]) input) ∧
      eval platform vars (.call "map" [a]) (.array items) =
        eval platform vars (.array [.pipe (.iterate .identity) a]) (.array items) := by
  refine ⟨?_, ?_, ?_, eval_stream_pipe [a, b] c, eval_map a items⟩
  · simp only [eval_pipe]
    exact andThen_assoc _ _ _ input
  · rw [eval_pipe, eval_identity]
    exact pure_andThen _ input
  · rw [eval_pipe, eval_identity]
    exact andThen_pure _ input

/-- The failure that comes first depends on the grouping: the filter after the second
pipe fails on the first item, the one before it on the second. -/
example : (eval (.ascii true) [] (.pipe (.pipe (.iterate .identity) (.unary .negate .identity))
      (.var "x")) (.array [.ofNat 1, .null])) =
        .error (.typeError "cannot negate non-number `null`") ∧
    (eval (.ascii true) [] (.pipe (.iterate .identity) (.pipe (.unary .negate .identity)
      (.var "x"))) (.array [.ofNat 1, .null])) =
        .error (.typeError "undefined variable `$x`") := ⟨by rfl, by rfl⟩

end Jq
end OwsRuntime
