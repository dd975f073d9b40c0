import OwsRuntime.Core.Error

/-! The expression interface: the arguments an expression sees, and the engine
that evaluates it. -/
namespace OwsRuntime

/-- The arguments available to an expression. -/
structure ExpressionContext where
  context : Value
  input : Value
  output : Value
  secrets : List (String × String)
  authorization : Option Value
  task : Option Value
  workflow : Option Value
  runtime : Option Value
  extraVars : Map
deriving DecidableEq, Repr

namespace ExpressionContext

/-- The `$`-prefixed variables. Extra variables come last and take the place of
standard ones of the same name. -/
def asVariableMap (ctx : ExpressionContext) : Map :=
  let map := Map.insert "context" ctx.context []
  let map := Map.insert "input" ctx.input map
  let map := Map.insert "output" ctx.output map
  let secrets := Map.extend [] (ctx.secrets.map fun s => (s.1, Value.string s.2))
  let map := Map.insert "secrets" (.object secrets) map
  let map := (ctx.authorization.map fun v => Map.insert "authorization" v map).getD map
  let map := (ctx.task.map fun v => Map.insert "task" v map).getD map
  let map := (ctx.workflow.map fun v => Map.insert "workflow" v map).getD map
  let map := (ctx.runtime.map fun v => Map.insert "runtime" v map).getD map
  Map.extend map ctx.extraVars

def asVariableMapUpdated (ctx : ExpressionContext) (input output : Value) : Map :=
  { ctx with input, output }.asVariableMap

end ExpressionContext

/-- An error of the expression engine. -/
structure ExpressionError where
  message : String
  expression : Option String
deriving DecidableEq, Repr

def ExpressionError.display (e : ExpressionError) : String :=
  match e.expression with
  | some expr => "expression error in `" ++ expr ++ "`: " ++ e.message
  | none => "expression error: " ++ e.message

/-- A compiled expression. The compiled data is a function of the source. -/
structure CompiledExpression where
  source : String
deriving DecidableEq, Repr

/-- An expression engine, as the runtime sees it through its trait object. -/
structure ExpressionEngine where
  compile : String → Except ExpressionError CompiledExpression
  evaluate : CompiledExpression → Value → Map → Except ExpressionError Value
  isExpression : String → Bool
  evaluateInterpolation : String → Value → Map → Except ExpressionError Value

namespace Map

variable {α : Type}

theorem lookup_extend (more map : List (String × α)) (key : String) :
    (extend map more).lookup key = map.lookup key ∨ ∃ v, (key, v) ∈ more := by
  induction more generalizing map with
  | nil => exact Or.inl rfl
  | cons entry rest ih =>
      obtain ⟨k, v⟩ := entry
      rcases ih (insert k v map) with h | ⟨w, hw⟩
      · by_cases hk : key = k
        · subst hk
          exact Or.inr ⟨v, List.mem_cons_self⟩
        · refine Or.inl ?_
          rw [← lookup_insert_of_ne v map hk]
          exact h
      · exact Or.inr ⟨w, List.mem_cons_of_mem _ hw⟩

end Map

/-- Reading `$context` gives the context, unless an extra variable hides it. -/
theorem ExpressionContext.lookup_context (ctx : ExpressionContext) :
    ctx.asVariableMap.lookup "context" = some ctx.context ∨
      ∃ v, ("context", v) ∈ ctx.extraVars := by
  rcases Map.lookup_extend ctx.extraVars
    ((ctx.runtime.map fun v => Map.insert "runtime" v _).getD _) "context" with h | h
  · refine Or.inl ?_
    rw [asVariableMap]
    rw [h]
    cases ctx.runtime <;> cases ctx.workflow <;> cases ctx.task <;> cases ctx.authorization <;>
      simp [Map.lookup_insert_of_ne]
  · exact Or.inr h

end OwsRuntime
