import OwsRuntime.Async.Turns
import OwsRuntime.Engine.Tasks

/-! What the engine evaluates within a turn: the values of conditions, and the notes that
remain of their evaluation. -/
namespace OwsRuntime

open Async

/-- A state that differs from another one in the notes taken since. -/
structure EngineState.Noted (σ τ : EngineState) : Prop where
  loc : τ.loc = σ.loc
  world : τ.world = σ.world
  shared : ∃ notes, τ.shared = { σ.shared with trace := σ.shared.trace ++ notes }

theorem EngineState.Noted.refl (σ : EngineState) : σ.Noted σ := ⟨rfl, rfl, [], by simp⟩

theorem EngineState.Noted.trans {σ τ υ : EngineState} (first : σ.Noted τ) (second : τ.Noted υ) :
    σ.Noted υ := by
  obtain ⟨notes, hFirst⟩ := first.shared
  obtain ⟨more, hSecond⟩ := second.shared
  refine ⟨second.loc.trans first.loc, second.world.trans first.world, notes ++ more, ?_⟩
  rw [hSecond, hFirst]
  simp

theorem EngineState.noted_note (σ : EngineState) (n : Note) : σ.Noted (EngineState.note σ n) :=
  ⟨rfl, rfl, _, rfl⟩

section Conditions

variable {env : RuntimeInner} {σ : EngineState}

/-- The value of an optional condition. -/
def RuntimeInner.condition (env : RuntimeInner) (input : Value) (vars : Map) (absent : Bool) :
    Option String → Except WorkflowError Bool
  | some source =>
      ((env.evaluateSource source input vars).mapError (toExpressionError · none)).map isTruthy
  | none => .ok absent

theorem advance_evalExpr (env : RuntimeInner) (σ : EngineState) (source : String) (input : Value)
    (vars : Map) (task : Option CompiledTask) :
    ∃ τ, σ.Noted τ ∧ engine.advance (evalExpr env source input vars task).run σ =
      (.done ((env.evaluateSource source input vars).mapError (toExpressionError · task)), τ) :=
  ⟨_, σ.noted_note _, rfl⟩

theorem advance_conditionHolds (env : RuntimeInner) (σ : EngineState) (input : Value) (vars : Map)
    (absent : Bool) (condition : Option String) :
    ∃ τ, σ.Noted τ ∧ engine.advance (conditionHolds env input vars absent condition).run σ =
      (.done (env.condition input vars absent condition), τ) := by
  cases condition with
  | none => exact ⟨σ, .refl σ, rfl⟩
  | some source =>
      obtain ⟨τ, hNoted, hValue⟩ := advance_evalExpr env σ source input vars none
      refine ⟨τ, hNoted, ?_⟩
      rw [RuntimeInner.condition]
      cases hResult : (env.evaluateSource source input vars).mapError (toExpressionError · none) with
      | error e =>
          rw [hResult] at hValue
          exact Handler.advance_bind_of_error hValue
      | ok value =>
          rw [hResult] at hValue
          exact Handler.advance_bind_of_ok hValue

/-- Whether `when` holds and `exceptWhen` does not, for the given variables. -/
def RuntimeInner.conditions (env : RuntimeInner) (when exceptWhen : Option String) (vars : Map) :
    Except WorkflowError Bool := do
  if ← env.condition .null vars true when then
    return !(← env.condition .null vars false exceptWhen)
  else return false

/-- The two conditions of a catch clause are evaluated within a turn, with notes of it, to what they
are on the variables of the moment. -/
theorem advance_conditionsHold (env : RuntimeInner) (σ : EngineState)
    (when exceptWhen : Option String) (exprCtx : ExpressionContext) :
    ∃ τ, σ.Noted τ ∧ engine.advance (conditionsHold env when exceptWhen exprCtx).run σ =
      (.done (env.conditions when exceptWhen
        (Map.extend exprCtx.asVariableMap σ.loc.loopVars)), τ) := by
  have hLocal : engine.advance (ExceptT.lift getLocal : Run TaskLocal).run σ = (.done (.ok σ.loc), σ) :=
    rfl
  have hStart := Handler.advance_bind_of_ok (f := fun loc => do
    if ← conditionHolds env .null (Map.extend exprCtx.asVariableMap loc.loopVars) true when then
      return !(← conditionHolds env .null (Map.extend exprCtx.asVariableMap loc.loopVars) false
        exceptWhen)
    else return false) hLocal
  generalize Map.extend exprCtx.asVariableMap σ.loc.loopVars = vars at *
  obtain ⟨τ, hNoted, hWhen⟩ := advance_conditionHolds env σ .null vars true when
  obtain ⟨υ, hMore, hExcept⟩ := advance_conditionHolds env τ .null vars false exceptWhen
  rw [RuntimeInner.conditions]
  cases hFirst : env.condition .null vars true when with
  | error e =>
      rw [hFirst] at hWhen
      exact ⟨τ, hNoted, hStart.trans (Handler.advance_bind_of_error hWhen)⟩
  | ok holds =>
      rw [hFirst] at hWhen
      replace hStart := hStart.trans (Handler.advance_bind_of_ok hWhen)
      cases holds with
      | false => exact ⟨τ, hNoted, hStart⟩
      | true =>
          refine ⟨υ, hNoted.trans hMore, hStart.trans ?_⟩
          cases hSecond : env.condition .null vars false exceptWhen with
          | error e =>
              rw [hSecond] at hExcept
              exact Handler.advance_bind_of_error hExcept
          | ok excepted =>
              rw [hSecond] at hExcept
              exact Handler.advance_bind_of_ok hExcept

end Conditions

end OwsRuntime
