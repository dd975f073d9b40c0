import OwsRuntime.Dsl.Definition

/-! The compiled form of a workflow, which the engine executes. Durations are in
nanoseconds. -/
namespace OwsRuntime

structure SchemaDef where
  format : String
  document : Option Value
  resource : Option String
deriving Repr

/-- An input, output or export definition. -/
structure DataDef where
  schema : Option SchemaDef
  transform : Option String
deriving Repr

def DataDef.none : DataDef := { schema := .none, transform := .none }

inductive SetDef where
  | map (entries : Map)
  | expression (source : String)
deriving Repr

structure SwitchCase where
  name : String
  when : Option String
  then_ : Option String
deriving Repr

inductive Backoff where
  | constant
  | linear
  | exponential
deriving DecidableEq, Repr

structure RetryPolicyDef where
  when : Option String
  exceptWhen : Option String
  delay : Option Nat
  backoff : Backoff
  jitter : Option (Nat × Nat)
  attemptCount : Option Nat
  attemptDuration : Option Nat
  retryDuration : Option Nat
deriving Repr

/-- The catch configuration, its handler scope apart. -/
structure CatchDef where
  filter : Option Map
  as_ : Option String
  when : Option String
  exceptWhen : Option String
  retry : Option RetryPolicyDef
  then_ : Option String
deriving Repr

structure CorrelationDef where
  from_ : String
  expect : Option String
deriving Repr

structure EventFilterDef where
  with_ : Map
  correlate : List CorrelationDef
deriving Repr

inductive ListenTo where
  | all (filters : List EventFilterDef)
  | any (filters : List EventFilterDef)
  | one (filter : EventFilterDef)
deriving Repr

inductive ListenUntil where
  | expression (source : String)
  | strategy (filters : List EventFilterDef)
deriving Repr

structure ListenDef where
  to_ : ListenTo
  read : Option String
  until_ : Option ListenUntil
deriving Repr

inductive ErrorRef where
  | inline (error : ErrorDefinition)
  | reference (name : String)
deriving Repr

structure CallDef where
  call : String
  with_ : Option Map
deriving Repr

inductive RunProcess where
  | container (image : String) (arguments : List String) (environment : List (String × String))
      (stdin : Option String)
  | script (language code : String) (arguments : List String)
      (environment : List (String × String)) (stdin : Option String)
  | shell (command : String) (arguments : List String) (environment : List (String × String))
      (stdin : Option String)
  | workflow (namespace_ name version : String) (input : Option Value)
deriving Repr

inductive RunReturn where
  | stdout
  | stderr
  | code
  | all
  | none
deriving DecidableEq, Repr

structure RunDef where
  process : RunProcess
  await_ : Bool
  return_ : RunReturn
deriving Repr

/-- `for` without its body. -/
structure ForDef where
  each : String
  in_ : String
  at_ : Option String
  while_ : Option String
deriving Repr

/-- A listen iterator without its body. -/
structure ListenForeachDef where
  item : String
  at_ : Option String
deriving Repr

mutual

/-- A task within a scope. -/
structure CompiledTask where
  name : String
  reference : String
  if_ : Option String
  input : DataDef
  output : DataDef
  export_ : DataDef
  timeout : Option Nat
  then_ : Option String
  descriptor : Value
  kind : CompiledTaskKind

/-- The kinds of tasks. The scopes of a kind are its arguments. -/
inductive CompiledTaskKind where
  | set (values : SetDef)
  | do_ (body : List CompiledTask)
  | for_ (loop : ForDef) (body : List CompiledTask)
  | fork (branches : List CompiledTask) (compete : Bool)
  | switch (cases : List SwitchCase)
  | try_ (body : List CompiledTask) (catch_ : CatchDef) (handler : Option (List CompiledTask))
  | emit (event : Map)
  | listen (listen : ListenDef) (foreach_ : Option (ListenForeachDef × List CompiledTask))
  | raise (error : ErrorRef)
  | call (call : CallDef)
  | run (run : RunDef)
  | wait (duration : Nat)

end

namespace CompiledTaskKind

def typeName : CompiledTaskKind → String
  | set _ => "set"
  | do_ _ => "do"
  | for_ _ _ => "for"
  | fork _ _ => "fork"
  | switch _ => "switch"
  | try_ _ _ _ => "try"
  | emit _ => "emit"
  | listen _ _ => "listen"
  | raise _ => "raise"
  | call _ => "call"
  | run _ => "run"
  | wait _ => "wait"

/-- The scopes nested in a task. The branches of a fork are tasks, not a scope. -/
def childScopes : CompiledTaskKind → List (List CompiledTask)
  | do_ body => [body]
  | for_ _ body => [body]
  | try_ body _ handler => body :: handler.toList
  | listen _ foreach_ => (foreach_.map Prod.snd).toList
  | _ => []

/-- The tasks which a fork runs directly. -/
def forkBranches : CompiledTaskKind → List CompiledTask
  | fork branches _ => branches
  | _ => []

/-- The cases of a switch task. -/
def switchCases : CompiledTaskKind → List SwitchCase
  | switch cases => cases
  | _ => []

end CompiledTaskKind

def CompiledTask.typeName (task : CompiledTask) : String := task.kind.typeName

structure CompiledExtension where
  extend : String
  when : Option String
  before : List CompiledTask
  after : List CompiledTask

inductive EvalMode where
  | strict
  | loose
deriving DecidableEq, Repr

structure EvalConfig where
  language : String
  mode : EvalMode
deriving Repr

/-- The identity of a workflow. -/
structure WorkflowId where
  namespace_ : String
  name : String
  version : String
deriving DecidableEq, Repr

def WorkflowId.key (id : WorkflowId) : String :=
  id.namespace_ ++ "/" ++ id.name ++ "/" ++ id.version

/-- A compiled workflow. `definition` is the serialized definition. -/
structure CompiledWorkflow where
  id : WorkflowId
  definition : Value
  tasks : List CompiledTask
  input : DataDef
  output : DataDef
  timeout : Option Nat
  evaluate : EvalConfig
  secrets : List String
  components : Option ComponentDefinitionCollection
  extensions : List CompiledExtension

end OwsRuntime
