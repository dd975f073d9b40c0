import OwsRuntime.Core.Value

/-! Typed workflow errors, described by problem details. -/
namespace OwsRuntime

/-- The error categories of the compilation and execution pipeline. -/
inductive ErrorKind where
  | parse
  | schema
  | semantic
  | runtime
  | expression
  | timeout
  | cancelled
  | fault
  | policy
  | communication
deriving DecidableEq, Repr

def errorTypePrefix : String := "https://open-workflow-specification.org/spec/1.0.0/errors"

inductive StandardErrorType where
  | configuration
  | validation
  | expression
  | authentication
  | authorization
  | timeout
  | communication
  | runtime
deriving DecidableEq, Repr

namespace StandardErrorType

def defaultStatus : StandardErrorType → Nat
  | configuration => 400
  | validation => 400
  | expression => 400
  | authentication => 401
  | authorization => 403
  | timeout => 408
  | communication => 500
  | runtime => 500

def slug : StandardErrorType → String
  | configuration => "configuration"
  | validation => "validation"
  | expression => "expression"
  | authentication => "authentication"
  | authorization => "authorization"
  | timeout => "timeout"
  | communication => "communication"
  | runtime => "runtime"

def uri (t : StandardErrorType) : String := errorTypePrefix ++ "/" ++ t.slug

/-- The title used in problem details. -/
def asStr : StandardErrorType → String
  | configuration => "Configuration"
  | validation => "Validation Error"
  | expression => "Expression Error"
  | authentication => "Authentication Error"
  | authorization => "Authorization Error"
  | timeout => "Timeout Error"
  | communication => "Communication Error"
  | runtime => "Runtime Error"

end StandardErrorType

/-- Problem details. `status` is an unsigned 16-bit integer in the source. -/
structure ProblemDetails where
  type : String
  title : String
  status : Nat
  detail : Option String
  «instance» : Option String
  extensions : Option Map
deriving DecidableEq, Repr

namespace ProblemDetails

def new (type title : String) (status : Nat) : ProblemDetails :=
  { type, title, status, detail := none, «instance» := none, extensions := none }

def standard (kind : StandardErrorType) : ProblemDetails :=
  new kind.uri kind.asStr kind.defaultStatus

def withDetail (p : ProblemDetails) (detail : String) : ProblemDetails :=
  { p with detail := some detail }

def withInstance (p : ProblemDetails) (pointer : String) : ProblemDetails :=
  { p with «instance» := some pointer }

/-- The serialized problem details. Absent members are left out, and the keys
come in the order of the map type. -/
def toValue (p : ProblemDetails) : Value :=
  .object (
    (p.detail.map fun d => ("detail", Value.string d)).toList ++
    (p.extensions.map fun e => ("extensions", Value.object e)).toList ++
    (p.instance.map fun i => ("instance", Value.string i)).toList ++
    [("status", Value.ofNat p.status), ("title", .string p.title), ("type", .string p.type)])

end ProblemDetails

/-- A workflow error. The preserved source error is left out: cloning drops it
and nothing in the runtime reads it. -/
structure WorkflowError where
  kind : ErrorKind
  problem : ProblemDetails
  task : Option String
  executionId : Option String
deriving DecidableEq, Repr

namespace WorkflowError

def new (kind : ErrorKind) (problem : ProblemDetails) : WorkflowError :=
  { kind, problem, task := none, executionId := none }

def withExecution (e : WorkflowError) (executionId : String) : WorkflowError :=
  { e with executionId := some executionId }

def toProblemJson (e : WorkflowError) : Value := e.problem.toValue

def timeout (pointer : Option String) : WorkflowError :=
  new .timeout { ProblemDetails.standard .timeout with «instance» := pointer }

def cancelled : WorkflowError :=
  new .cancelled
    { ProblemDetails.standard .runtime with
      title := "Cancelled", type := errorTypePrefix ++ "/runtime" }

end WorkflowError

def runtimeError (detail : String) : WorkflowError :=
  .new .runtime ((ProblemDetails.standard .runtime).withDetail detail)

def semanticError (detail : String) : WorkflowError :=
  .new .semantic ((ProblemDetails.standard .runtime).withDetail detail)

def expressionError (detail : String) : WorkflowError :=
  .new .expression ((ProblemDetails.standard .expression).withDetail detail)

def validationError (detail : String) : WorkflowError :=
  .new .schema ((ProblemDetails.standard .validation).withDetail detail)

def communicationError (status : Nat) (detail : String) : WorkflowError :=
  .new .communication
    { ProblemDetails.standard .communication with status, detail := some detail }

def policyError (detail : String) : WorkflowError :=
  .new .policy ((ProblemDetails.standard .runtime).withDetail detail)

/-- A step of a computation in `Except` that has succeeded. -/
theorem bind_eq_ok {ε α β : Type} {x : Except ε α} {f : α → Except ε β} {b : β}
    (h : x >>= f = .ok b) : ∃ a, x = .ok a ∧ f a = .ok b := by
  cases x with
  | error e => cases h
  | ok a => exact ⟨a, rfl, h⟩

theorem eq_ok_of_toOption {ε α : Type} {x : Except ε α} {a : α} (h : x.toOption = some a) :
    x = .ok a := by
  cases x with
  | error e => cases h
  | ok b =>
      cases h
      rfl

end OwsRuntime
