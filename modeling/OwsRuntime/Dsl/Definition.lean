import OwsRuntime.Core.Error

/-! Workflow definitions, as the parser hands them over. A record holds the
fields which validation, compilation or execution read. -/
namespace OwsRuntime

/-- A duration, or the text of an ISO 8601 one. -/
inductive DurationDefinition where
  | duration (milliseconds : Nat)
  | iso8601Expression (expression : String)
deriving Repr

inductive TimeoutDefinition where
  | timeout (after : DurationDefinition)
  | reference (name : String)
deriving Repr

structure SchemaDefinition where
  format : String
  document : Option Value
  resource : Option String
deriving Repr

/-- An input, output or export definition. `transform` is `from` or `as`. -/
structure DataModelDefinition where
  schema : Option SchemaDefinition
  transform : Option Value
deriving Repr

/-- The fields that every kind of task has. -/
structure TaskDefinitionFields where
  if_ : Option String
  input : Option DataModelDefinition
  output : Option DataModelDefinition
  export_ : Option DataModelDefinition
  timeout : Option TimeoutDefinition
  then_ : Option String
deriving Repr

structure ForLoopDefinition where
  each : String
  in_ : String
  at_ : Option String
deriving Repr

inductive SetValue where
  | map (entries : Map)
  | expression (source : String)
deriving Repr

structure SwitchCaseDefinition where
  when : Option String
  then_ : Option String
deriving Repr

structure CorrelationKeyDefinition where
  from_ : String
  expect : Option String
deriving Repr

structure EventFilterDefinition where
  with_ : Option Map
  correlate : Option (List (String × CorrelationKeyDefinition))
deriving Repr

/-- Which events a strategy consumes. -/
structure EventConsumption where
  one : Option EventFilterDefinition
  all : Option (List EventFilterDefinition)
  any : Option (List EventFilterDefinition)
deriving Repr

inductive UntilDefinition where
  | expression (source : String)
  | strategy (to_ : EventConsumption)
deriving Repr

structure ListenDefinition where
  to_ : EventConsumption
  until_ : Option UntilDefinition
  read : Option String
deriving Repr

/-- The variables of a listen iterator. -/
structure ForeachDefinition where
  item : Option String
  at_ : Option String
deriving Repr

/-- An error definition. `status` is any JSON value. -/
structure ErrorDefinition where
  type : String
  title : String
  status : Value
  detail : Option String
  pointer : Option String
deriving Repr

inductive RaiseErrorDefinition where
  | error (definition : ErrorDefinition)
  | reference (name : String)
deriving Repr

inductive BackoffDefinition where
  | constant
  | linear
  | exponential
deriving DecidableEq, Repr

/-- A retry policy, with its durations in milliseconds. -/
structure RetryPolicyDefinition where
  when : Option String
  exceptWhen : Option String
  delay : Option Nat
  backoff : Option BackoffDefinition
  jitter : Option (Nat × Nat)
  attemptCount : Option Nat
  attemptDuration : Option Nat
  limitDuration : Option Nat
deriving Repr

inductive RetryDefinition where
  | retry (policy : RetryPolicyDefinition)
  | reference (name : String)
deriving Repr

/-- The catch clause of a try task, its handler scope apart. -/
structure CatchDefinition where
  with_ : Option Map
  as_ : Option String
  when : Option String
  exceptWhen : Option String
  retry : Option RetryDefinition
deriving Repr

/-- A process of a run task. -/
inductive ProcessDefinition where
  | container (image : String) (arguments : List String) (environment : List (String × String))
      (stdin : Option String)
  | script (language : String) (code : Option String) (arguments : List String)
      (environment : List (String × String)) (stdin : Option String)
  | shell (command : String) (arguments : List String) (environment : List (String × String))
  | workflow (namespace_ name version : String) (input : Option Value)
deriving Repr

structure RunDefinition where
  process : Option ProcessDefinition
  await_ : Option Bool
deriving Repr

/-- A task definition. A scope is an ordered list of maps from names to tasks,
of which the first entry counts; the order within a map is any one. -/
inductive TaskDefinition where
  | call (common : TaskDefinitionFields) (call : String) (with_ : Option Map)
  | do_ (common : TaskDefinitionFields) (do_ : List (List (String × TaskDefinition)))
  | emit (common : TaskDefinitionFields) (with_ : Map)
  | for_ (common : TaskDefinitionFields) (for_ : ForLoopDefinition) (while_ : Option String)
      (do_ : List (List (String × TaskDefinition)))
  | fork (common : TaskDefinitionFields) (branches : List (List (String × TaskDefinition)))
      (compete : Bool)
  | listen (common : TaskDefinitionFields) (listen : ListenDefinition)
      (foreach_ : Option ForeachDefinition)
      (foreachDo : Option (List (List (String × TaskDefinition))))
  | raise (common : TaskDefinitionFields) (error : RaiseErrorDefinition)
  | run (common : TaskDefinitionFields) (run : RunDefinition)
  | set (common : TaskDefinitionFields) (set : SetValue)
  | switch (common : TaskDefinitionFields)
      (switch : List (List (String × SwitchCaseDefinition)))
  | try_ (common : TaskDefinitionFields) (try_ : List (List (String × TaskDefinition)))
      (catch_ : CatchDefinition) (catchDo : Option (List (List (String × TaskDefinition))))
  | wait (common : TaskDefinitionFields) (wait : DurationDefinition)

abbrev TaskScope := List (List (String × TaskDefinition))

namespace TaskDefinition

def common : TaskDefinition → TaskDefinitionFields
  | call common _ _ => common
  | do_ common _ => common
  | emit common _ => common
  | for_ common _ _ _ => common
  | fork common _ _ => common
  | listen common _ _ _ => common
  | raise common _ => common
  | run common _ => common
  | set common _ => common
  | switch common _ => common
  | try_ common _ _ _ => common
  | wait common _ => common

end TaskDefinition

structure ExtensionDefinition where
  extend : String
  when : Option String
  before : Option TaskScope
  after : Option TaskScope

/-- The reusable components of a workflow (`use`). -/
structure ComponentDefinitionCollection where
  errors : Option (List (String × ErrorDefinition))
  functions : Option (List (String × TaskDefinition))
  retries : Option (List (String × RetryPolicyDefinition))
  timeouts : Option (List (String × DurationDefinition))
  secrets : Option (List String)
  extensions : Option (List (List (String × ExtensionDefinition)))

structure DocumentDefinition where
  dsl : String
  namespace_ : String
  name : String
  version : String
deriving Repr

structure EvaluateDefinition where
  language : String
  mode : Option String
deriving Repr

structure WorkflowDefinition where
  document : DocumentDefinition
  input : Option DataModelDefinition
  output : Option DataModelDefinition
  timeout : Option TimeoutDefinition
  evaluate : Option EvaluateDefinition
  use_ : Option ComponentDefinitionCollection
  do_ : TaskScope

end OwsRuntime
