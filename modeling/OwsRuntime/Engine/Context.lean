import OwsRuntime.Engine.Effects

/-! Execution contexts, and what every task does with them: reading and writing
the workflow context, building variables, evaluating expressions and validating
values against schemas. -/
namespace OwsRuntime

open Async

/-- A flow directive. -/
inductive FlowDirective where
  | continue_
  | exit
  | end_
  | goto (name : String)
deriving DecidableEq, Repr

def parseDirective (s : String) : FlowDirective :=
  if s = "continue" then .continue_
  else if s = "exit" then .exit
  else if s = "end" then .end_
  else .goto s

/-- The result of executing a single task. -/
structure TaskExec where
  output : Value
  directive : Option FlowDirective
deriving DecidableEq, Repr

/-- The fields of an execution context that stay the same during an execution.
The others are in `TaskLocal` and `Execution`. -/
structure ExecContext where
  executionId : String
  secrets : List (String × String)
  workflowDescriptor : Value
  runtimeDescriptor : Value
  timeout : Option Nat
deriving DecidableEq, Repr

/-- Truthiness: only `false` and `null` are falsy. -/
def isTruthy : Value → Bool
  | .bool false => false
  | .null => false
  | _ => true

/-- Reads the workflow context under its lock, and remembers where. -/
def readContext : Future (Value × Nat) := do
  ask .lockContext
  let (value, position) ← ask .readContext
  ask .unlockContext
  return (value, position)

def contextValue : Future Value := do
  let (value, _) ← readContext
  return value

/-- Writes the workflow context under its lock. -/
def setContext (source : ContextSource) (value : Value) : Future Unit := do
  ask .lockContext
  ask (.writeContext source value)
  ask .unlockContext

/-- Reads the workflow context without waiting for its lock. -/
def contextValueSync : Future Value := ask .tryContext

namespace ExecContext

/-- The variables which an expression of the given task state sees. -/
def variables_ (ctx : ExecContext) (input output : Value) (task : Option Value) : Future Map := do
  let context ← contextValueSync
  let loc ← ask .getLocal
  let exprCtx : ExpressionContext :=
    { context, input, output, secrets := ctx.secrets, authorization := none, task
      workflow := some ctx.workflowDescriptor, runtime := some ctx.runtimeDescriptor
      extraVars := loc.loopVars }
  return Map.extend exprCtx.asVariableMap loc.loopVars

/-- The error of a cancelled execution. -/
def cancelledError (ctx : ExecContext) : WorkflowError :=
  WorkflowError.cancelled.withExecution ctx.executionId

/-- Fails as the execution has been cancelled, and remembers that. -/
def stop {α : Type} (ctx : ExecContext) : Run α := do
  ask .stop
  throw ctx.cancelledError

/-- Fails when the execution has been cancelled. -/
def failIfCancelled (ctx : ExecContext) : Run Unit := do
  if ← isCancelled then ctx.stop else return ()

end ExecContext

def toExpressionError (e : ExpressionError) (task : Option CompiledTask) : WorkflowError :=
  { expressionError e.display with task := task.map (·.reference) }

/-- The value of a source, which is compiled at first. -/
def RuntimeInner.evaluateSource (env : RuntimeInner) (source : String) (input : Value)
    (vars : Map) : Except ExpressionError Value := do
  let compiled ← env.expression.compile source
  env.expression.evaluate compiled input vars

/-- Evaluates an expression. -/
def evalExpr (env : RuntimeInner) (source : String) (input : Value) (vars : Map)
    (task : Option CompiledTask) : Run Value := do
  note (.evaluates (.expression source) input vars)
  Run.ofExcept ((env.evaluateSource source input vars).mapError (toExpressionError · task))

/-- Evaluates the expressions in a string, and keeps any other value. -/
def evalInterpolation (env : RuntimeInner) (value : Value) (ctx : ExpressionContext) : Run Value :=
  match value with
  | .string s => do
      note (.evaluates (.template s) ctx.input ctx.asVariableMap)
      Run.ofExcept ((env.expression.evaluateInterpolation s ctx.input ctx.asVariableMap).mapError
        (toExpressionError · none))
  | other => return other

/-- Validates a value against an optional schema. -/
def validateSchema (env : RuntimeInner) (schema : Option SchemaDef) (value : Value)
    (pointer : String) : Except WorkflowError Unit :=
  match schema.bind (·.document), env.validator with
  | some document, some validator =>
      (validator document value).mapError fun errors =>
        .new .schema (((ProblemDetails.standard .validation).withDetail
          ("; ".intercalate errors)).withInstance pointer)
  | _, _ => .ok ()

/-- The text of a value in a request or a command line. -/
def RuntimeInner.textOf (env : RuntimeInner) (value : Value) : String :=
  (value.asStr).getD (value.display env.formatFloat)

def interpolateString (env : RuntimeInner) (s : String) (ctx : ExpressionContext) : Run String :=
  return env.textOf (← evalInterpolation env (.string s) ctx)

def interpolateOptString (env : RuntimeInner) (s : Option String) (ctx : ExpressionContext) :
    Run (Option String) :=
  match s with
  | some s => return some (← interpolateString env s ctx)
  | none => return none

def interpolateStrings (env : RuntimeInner) (ctx : ExpressionContext) :
    List String → Run (List String)
  | [] => return []
  | s :: rest => return (← interpolateString env s ctx) :: (← interpolateStrings env ctx rest)

def interpolateEnv (env : RuntimeInner) (ctx : ExpressionContext) :
    List (String × String) → Run (List (String × String))
  | [] => return []
  | (k, v) :: rest =>
      return (k, ← interpolateString env v ctx) :: (← interpolateEnv env ctx rest)

/-- Interpolates the values of a map, but not what is nested in them. -/
def interpolateEntries (env : RuntimeInner) (ctx : ExpressionContext) : Map → Run Map
  | [] => return []
  | (k, v) :: rest =>
      return (k, ← evalInterpolation env v ctx) :: (← interpolateEntries env ctx rest)

def interpolateMap (env : RuntimeInner) (map : Option Map) (ctx : ExpressionContext) : Run Map :=
  interpolateEntries env ctx (map.getD [])

def interpolateValue (env : RuntimeInner) (value : Option Value) (ctx : ExpressionContext) :
    Run (Option Value) :=
  match value with
  | none => return none
  | some v => return some (← evalInterpolation env v ctx)

mutual

/-- Interpolates every string within a value. -/
def deepInterpolate (env : RuntimeInner) (ctx : ExpressionContext) : Value → Run Value
  | .object entries => return .object (← deepInterpolateEntries env ctx entries)
  | .array items => return .array (← deepInterpolateItems env ctx items)
  | value => evalInterpolation env value ctx

def deepInterpolateItems (env : RuntimeInner) (ctx : ExpressionContext) :
    List Value → Run (List Value)
  | [] => return []
  | item :: rest =>
      return (← deepInterpolate env ctx item) :: (← deepInterpolateItems env ctx rest)

def deepInterpolateEntries (env : RuntimeInner) (ctx : ExpressionContext) :
    List (String × Value) → Run (List (String × Value))
  | [] => return []
  | (k, v) :: rest =>
      return (k, ← deepInterpolate env ctx v) :: (← deepInterpolateEntries env ctx rest)

end

end OwsRuntime
