import OwsRuntime.Engine.Flow

/-! The texts which a compiled workflow evaluates, and the components to which it
refers by name. -/
namespace OwsRuntime

/-- The texts evaluated as expressions. -/
def expressions (sources : List String) : List ExpressionSource := sources.map .expression

/-- The texts in which expressions are evaluated, among the values of a map. -/
def templates (entries : Map) : List ExpressionSource :=
  entries.filterMap fun entry => entry.2.asStr.map .template

mutual

/-- The strings within a value, at any depth. -/
def Value.strings : Value → List String
  | .string s => [s]
  | .array items => itemStrings items
  | .object entries => entryStrings entries
  | _ => []

def Value.itemStrings : List Value → List String
  | [] => []
  | item :: rest => item.strings ++ itemStrings rest

def Value.entryStrings : List (String × Value) → List String
  | [] => []
  | (_, item) :: rest => item.strings ++ entryStrings rest

end

def SetDef.sources : SetDef → List ExpressionSource
  | .expression source => [.template source]
  | .map entries => templates entries

def ForDef.sources (loop : ForDef) : List ExpressionSource :=
  expressions (loop.in_ :: loop.while_.toList)

def SwitchCase.sources (case : SwitchCase) : List ExpressionSource := expressions case.when.toList

/-- The conditions of a catch clause, and those of its retry policy. -/
def CatchDef.sources (catch_ : CatchDef) : List ExpressionSource :=
  expressions (catch_.when.toList ++ catch_.exceptWhen.toList ++
    (catch_.retry.toList.flatMap fun policy => policy.when.toList ++ policy.exceptWhen.toList))

def CorrelationDef.sources (key : CorrelationDef) : List ExpressionSource :=
  expressions (key.from_ :: key.expect.toList)

def EventFilterDef.sources (filter : EventFilterDef) : List ExpressionSource :=
  filter.correlate.flatMap CorrelationDef.sources

def ListenTo.filters : ListenTo → List EventFilterDef
  | .one filter => [filter]
  | .any filters => filters
  | .all filters => filters

def ListenUntil.sources : ListenUntil → List ExpressionSource
  | .expression source => [.expression source]
  | .strategy filters => filters.flatMap EventFilterDef.sources

def ListenDef.sources (listen : ListenDef) : List ExpressionSource :=
  listen.to_.filters.flatMap EventFilterDef.sources ++
    listen.until_.toList.flatMap ListenUntil.sources

/-- The texts of a command line. -/
def commandSources (command arguments : List String) (environment : List (String × String))
    (stdin : Option String) : List ExpressionSource :=
  (command ++ arguments ++ stdin.toList ++ environment.map Prod.snd).map .template

def RunProcess.sources : RunProcess → List ExpressionSource
  | .container _ arguments environment stdin => commandSources [] arguments environment stdin
  | .script _ code arguments environment stdin => commandSources [code] arguments environment stdin
  | .shell command arguments environment stdin =>
      commandSources [command] arguments environment stdin
  | .workflow _ _ _ input => (input.bind Value.asStr).toList.map .template

/-- The texts which the body of a task evaluates itself. -/
def CompiledTaskKind.sources : CompiledTaskKind → List ExpressionSource
  | set values => values.sources
  | for_ loop _ => loop.sources
  | switch cases => cases.flatMap SwitchCase.sources
  | try_ _ catch_ _ => catch_.sources
  | emit event => (Value.entryStrings event).map .template
  | listen def_ _ => def_.sources
  | call def_ => templates (def_.with_.getD [])
  | run def_ => def_.process.sources
  | _ => []

/-- The texts which a task evaluates itself. -/
def CompiledTask.sources (task : CompiledTask) : List ExpressionSource :=
  expressions (task.if_.toList ++ task.input.transform.toList ++ task.output.transform.toList ++
    task.export_.transform.toList) ++ task.kind.sources

/-- The texts which a workflow evaluates: its own, those of its tasks at any depth
and the conditions of its extensions. The `http` function evaluates its arguments
in any workflow. -/
inductive CompiledWorkflow.HasSource (wf : CompiledWorkflow) : ExpressionSource → Prop where
  | arguments : HasSource wf .arguments
  | input {source : String} (hSource : wf.input.transform = some source) :
      HasSource wf (.expression source)
  | output {source : String} (hSource : wf.output.transform = some source) :
      HasSource wf (.expression source)
  | extension {ext : CompiledExtension} {source : String} (hExt : ext ∈ wf.extensions)
      (hSource : ext.when = some source) : HasSource wf (.expression source)
  | task {task : CompiledTask} {source : ExpressionSource} (hTask : wf.HasTask task)
      (hSource : source ∈ task.sources) : HasSource wf source

/-- A call fails as the function of this name is not known. -/
inductive CallDef.Lacks (env : RuntimeInner) (wf : CompiledWorkflow) (def_ : CallDef) :
    String → Prop where
  | function (hOwn : env.functions.lookup def_.call = none)
      (hReusable : resolveFunction wf def_.call = none) : Lacks env wf def_ def_.call
  | target {call : String} {with_ : Option Map} (hOwn : env.functions.lookup def_.call = none)
      (hReusable : resolveFunction wf def_.call = some (call, with_))
      (hTarget : env.functions.lookup call = none) : Lacks env wf def_ call

/-- A workflow refers to an error or a function of this name, which is not known. -/
inductive CompiledWorkflow.Lacks (env : RuntimeInner) (wf : CompiledWorkflow) : String → Prop where
  | error {task : CompiledTask} {error : ErrorRef} (hTask : wf.HasTask task)
      (hKind : task.kind = .raise error) (hError : taskRaise.resolve wf error = none) :
      Lacks env wf (taskRaise.errorName error)
  | function {task : CompiledTask} {def_ : CallDef} {name : String} (hTask : wf.HasTask task)
      (hKind : task.kind = .call def_) (hCall : def_.Lacks env wf name) : Lacks env wf name

end OwsRuntime
