import OwsRuntime.Engine.Tasks

/-! The execution engine: the pipeline of a single task, the loop over the tasks
of a scope, and the execution of a workflow with its durable checkpoints. -/
namespace OwsRuntime

open Async

/-- Whether an extension targets the given task. -/
def extensionTargets (ext : CompiledExtension) (task : CompiledTask) : Bool :=
  ext.extend == task.typeName ||
    match task.kind with
    | .call def_ => ext.extend == def_.call
    | _ => false

/-- Whether the condition of an extension lets it apply to a task. -/
def extensionApplies (env : RuntimeInner) (ctx : ExecContext) (task : CompiledTask)
    (input : Value) (ext : CompiledExtension) : Run Bool :=
  match ext.when with
  | none => return true
  | some source => do
      let vars ← ctx.variables_ input .null (some task.descriptor)
      return isTruthy (← evalExpr env source input vars (some task))

/-- The extensions among the given ones that apply to a task. -/
def selectExtensions (env : RuntimeInner) (ctx : ExecContext) (task : CompiledTask)
    (input : Value) : List CompiledExtension → Run (List CompiledExtension)
  | [] => return []
  | ext :: rest =>
      if extensionTargets ext task then do
        let applies ← extensionApplies env ctx task input ext
        let more ← selectExtensions env ctx task input rest
        return if applies then ext :: more else more
      else selectExtensions env ctx task input rest

def applicableExtensions (env : RuntimeInner) (wf : CompiledWorkflow) (ctx : ExecContext)
    (task : CompiledTask) (input : Value) : Run (List CompiledExtension) := do
  let loc ← getLocal
  if !loc.applyExtensions || wf.extensions.isEmpty then return []
  else selectExtensions env ctx task input wf.extensions

/-- The result of an extension scope, whether the exit flag was set in it, and by
which scopes. -/
structure ExtensionOutcome where
  value : Value
  exited : Bool
  exits : List (List CompiledTask)

/-- Runs the scope of an extension with extensions disabled. -/
def runExtensionScope (r : Runner) (wf : CompiledWorkflow) (ctx : ExecContext)
    (scope : List CompiledTask) (input : Value) : Run ExtensionOutcome := do
  if scope.isEmpty then return { value := input, exited := false, exits := [] }
  else
    let previous ← getLocal
    ask (.setApplyExtensions false)
    ask (.setScopeExited none)
    let result ← outcome (r.scope wf ctx scope input)
    let after ← getLocal
    ask (.setScopeExited none)
    ask (.setApplyExtensions previous.applyExtensions)
    let value ← Run.ofExcept result
    return { value, exited := after.scopeExited, exits := after.exits }

/-- The result of the `before` scopes, and whether the body of the task is skipped. -/
structure BeforeOutcome where
  input : Value
  skipBody : Bool
  ran : List BeforeScope

/-- Runs the `before` scopes, until the exit flag was set in one of them. -/
def runBefore (r : Runner) (wf : CompiledWorkflow) (ctx : ExecContext) :
    List CompiledExtension → Value → Run BeforeOutcome
  | [], input => return { input, skipBody := false, ran := [] }
  | ext :: rest, input => do
      let result ← runExtensionScope r wf ctx ext.before input
      let first : BeforeScope := { scope := ext.before, exits := result.exits }
      if result.exited then return { input := result.value, skipBody := true, ran := [first] }
      else
        let more ← runBefore r wf ctx rest result.value
        return { more with ran := first :: more.ran }

/-- Notes what the `before` scopes have done, if there are any. -/
def noteBefore (before : BeforeOutcome) : Future Unit :=
  if before.ran.isEmpty then return () else note (.extended before.ran before.skipBody)

def runAfter (r : Runner) (wf : CompiledWorkflow) (ctx : ExecContext) :
    List CompiledExtension → Value → Run Value
  | [], output => return output
  | ext :: rest, output => do
      let result ← runExtensionScope r wf ctx ext.after output
      runAfter r wf ctx rest result.value

/-- Whether the `if` guard of a task lets it run. -/
def guardHolds (env : RuntimeInner) (ctx : ExecContext) (task : CompiledTask)
    (rawInput : Value) : Run Bool :=
  match task.if_ with
  | none => return true
  | some source => do
      let vars ← ctx.variables_ rawInput .null (some task.descriptor)
      return isTruthy (← evalExpr env source rawInput vars (some task))

/-- The transformed input of a task. -/
def transformInput (env : RuntimeInner) (ctx : ExecContext) (task : CompiledTask)
    (rawInput : Value) : Run Value :=
  match task.input.transform with
  | none => return rawInput
  | some source => do
      let vars ← ctx.variables_ rawInput .null (some task.descriptor)
      evalExpr env source rawInput vars (some task)

/-- The context which a task leaves behind: its export, or what it finds. -/
def exportContext (env : RuntimeInner) (task : CompiledTask) (exprCtx : ExpressionContext)
    (taskInput output : Value) : Run (Value × ContextSource) :=
  match task.export_.transform with
  | some source => do
      let vars := exprCtx.asVariableMapUpdated taskInput output
      return (← evalExpr env source output vars (some task), .exported)
  | none => do
      let (value, position) ← readContext
      return (value, .readBack position)

/-- The transformed output of a task. -/
def transformOutput (env : RuntimeInner) (task : CompiledTask) (exprCtx : ExpressionContext)
    (taskInput rawOutput : Value) : Run Value :=
  match task.output.transform with
  | some source =>
      evalExpr env source rawOutput (exprCtx.asVariableMapUpdated taskInput rawOutput) (some task)
  | none => return rawOutput

/-- Runs the body of a task, unless an extension has taken its place. -/
def runBody (env : RuntimeInner) (r : Runner) (wf : CompiledWorkflow) (ctx : ExecContext)
    (task : CompiledTask) (taskInput : Value) (exprCtx : ExpressionContext) (skipBody : Bool)
    (ticket : Nat) : Run TaskExec :=
  if skipBody then return { output := taskInput, directive := none }
  else do
    let position ← mark (.dispatched ticket)
    dispatch env r wf ctx task taskInput exprCtx position

/-- Runs a task whose guard holds. -/
def runTask (env : RuntimeInner) (r : Runner) (wf : CompiledWorkflow) (ctx : ExecContext)
    (task : CompiledTask) (rawInput : Value) (ticket : Nat) : Run TaskExec := do
  Run.ofExcept (validateSchema env task.input.schema rawInput task.reference)
  let taskInput ← transformInput env ctx task rawInput
  let extensions ← applicableExtensions env wf ctx task rawInput
  let before ← runBefore r wf ctx extensions taskInput
  noteBefore before
  let taskInput := before.input
  let context ← contextValue
  let loc ← getLocal
  let exprCtx : ExpressionContext :=
    { context, input := taskInput, output := .null, secrets := ctx.secrets, authorization := none
      task := some task.descriptor, workflow := some ctx.workflowDescriptor
      runtime := some ctx.runtimeDescriptor, extraVars := loc.loopVars }
  let exec ← runBody env r wf ctx task taskInput exprCtx before.skipBody ticket
  let transformed ← transformOutput env task exprCtx taskInput exec.output
  let transformed ← runAfter r wf ctx extensions transformed
  Run.ofExcept (validateSchema env task.output.schema transformed task.reference)
  let (newContext, source) ← exportContext env task exprCtx taskInput transformed
  Run.ofExcept (validateSchema env task.export_.schema newContext task.reference)
  setContext source newContext
  return { output := transformed, directive := exec.directive }

/-- Executes a single task. A skipped task returns its raw input. -/
def execTask (env : RuntimeInner) (r : Runner) (wf : CompiledWorkflow) (ctx : ExecContext)
    (task : CompiledTask) (rawInput : Value) (ticket : Nat) : Run TaskExec := do
  if ← guardHolds env ctx task rawInput then runTask env r wf ctx task rawInput ticket
  else return { output := rawInput, directive := none }

/-- Runs a future under a timer. -/
def withTimeout {α : Type} (duration : Nat) (body : Run α) (elapsed : WorkflowError) : Run α :=
  @Program.race engineSig _ _ (.timer duration) body.run fun
    | some result => Program.done result
    | none => Program.done (.error elapsed)

def unknownTargetError (ctx : ExecContext) (name : String) : WorkflowError :=
  (semanticError ("flow directive targets unknown task `" ++ name ++ "` in scope")).withExecution
    ctx.executionId

/-- Executes a task under its timeout, or else the one of the workflow. -/
def execTimed (env : RuntimeInner) (r : Runner) (wf : CompiledWorkflow) (ctx : ExecContext)
    (task : CompiledTask) (input : Value) (ticket : Nat) : Run TaskExec :=
  match task.timeout.or ctx.timeout with
  | some duration =>
      withTimeout duration (execTask env r wf ctx task input ticket)
        ((WorkflowError.timeout (some task.reference)).withExecution ctx.executionId)
  | none => execTask env r wf ctx task input ticket

/-- The directive which a scope follows after a task. -/
def finalDirective (task : CompiledTask) (exec : TaskExec) : FlowDirective :=
  (exec.directive.or (task.then_.map parseDirective)).getD .continue_

/-- Where the loop over a scope stands. -/
inductive ScopeState where
  | running (index : Nat) (input : Value)
  | finished (output : Value)
deriving DecidableEq, Repr

/-- Follows a directive. A goto goes to the first task of that name. -/
def followDirective (ctx : ExecContext) (tasks : List CompiledTask) (index : Nat)
    (directive : FlowDirective) (input : Value) : Run ScopeState :=
  match directive with
  | .continue_ => do
      note (.moved tasks index (index + 1))
      return .running (index + 1) input
  | .goto name =>
      match tasks.findIdx? fun t => t.name = name with
      | some next => do
          note (.moved tasks index next)
          return .running next input
      | none => do
          note (.unknownTarget tasks name)
          throw (unknownTargetError ctx name)
  | .exit => do
      ask (.setScopeExited (some tasks))
      return .finished input
  | .end_ => do
      ask .storeEnded
      return .finished input

/-- The start time and the workflow of an execution that is made durable. -/
structure ScopeCheckpoint where
  startedAt : Int
deriving DecidableEq, Repr

def checkpointPointer (next : Nat) (input : Value) : Value :=
  .object [("input", input), ("next", .ofNat next)]

def executionRecord (wf : CompiledWorkflow) (executionId : String) (phase : Phase)
    (context pointer : Value) (error : Option Value) (startedAt : Int) : ExecutionRecord :=
  { executionId, workflow := wf.id.key, namespace_ := wf.id.namespace_, name := wf.id.name
    version := wf.id.version, phase, context, pointer, error, startedAt }

/-- Persists the progress of the top-level scope. A failure is only logged. -/
def persistCheckpoint (wf : CompiledWorkflow) (ctx : ExecContext) (startedAt : Int) (next : Nat)
    (input : Value) : Future Unit := do
  let context ← contextValueSync
  let _ ← store (.update (executionRecord wf ctx.executionId .running context
    (checkpointPointer next input) none startedAt))
  return ()

/-- Records the progress of a scope that goes on, when it is the top-level one. -/
def checkpointState (wf : CompiledWorkflow) (ctx : ExecContext)
    (checkpoint : Option ScopeCheckpoint) (state : ScopeState) : Future Unit :=
  match state, checkpoint with
  | .running next input, some cp => persistCheckpoint wf ctx cp.startedAt next input
  | _, _ => return ()

/-- The body of the loop over a scope, its checkpoint apart. -/
def scopeStep (env : RuntimeInner) (r : Runner) (wf : CompiledWorkflow) (ctx : ExecContext)
    (tasks : List CompiledTask) (index : Nat) (input : Value) : Run ScopeState := do
  ctx.failIfCancelled
  if ← loadEnded then return .finished input
  else
    match tasks[index]? with
    | none => return .finished input
    | some task =>
        let ticket ← mark (.admitted tasks index)
        let exec ← execTimed env r wf ctx task input ticket
        followDirective ctx tasks index (finalDirective task exec) exec.output

/-- The loop over a scope, for as many rounds as `fuel` says. -/
def scopeLoop (env : RuntimeInner) (r : Runner) (wf : CompiledWorkflow) (ctx : ExecContext)
    (tasks : List CompiledTask) (checkpoint : Option ScopeCheckpoint) :
    Nat → Nat → Value → Run Value
  | 0, _, _ => outOfFuel
  | fuel + 1, index, input => do
      let state ← scopeStep env r wf ctx tasks index input
      checkpointState wf ctx checkpoint state
      match state with
      | .finished output => return output
      | .running next input => scopeLoop env r wf ctx tasks checkpoint fuel next input

/-- A resumed execution's progress. -/
structure ResumeState where
  nextIndex : Nat
  input : Value
  context : Value
deriving DecidableEq, Repr

structure ExecutionOptions where
  executionId : Option String
  resume : Option ResumeState
deriving DecidableEq, Repr

def ExecutionOptions.default : ExecutionOptions := { executionId := none, resume := none }

/-- The id of an execution, a new one for a fresh execution. -/
def ExecutionOptions.identity (options : ExecutionOptions) : Future String :=
  match options.executionId with
  | some id => return id
  | none => newUuid

def resolveWorkflowSecrets (env : RuntimeInner) (wf : CompiledWorkflow) :
    List (String × String) :=
  wf.secrets.filterMap fun name => (env.secrets name).map fun value => (name, value)

def workflowDescriptor (wf : CompiledWorkflow) (executionId : String) (rawInput : Value)
    (startedAt : Int) : Value :=
  .object [("definition", wf.definition), ("id", .string executionId), ("input", rawInput),
    ("startedAt", .ofInt startedAt)]

/-- The context of an execution. -/
def executionContext (env : RuntimeInner) (wf : CompiledWorkflow) (executionId : String)
    (rawInput : Value) (startedAt : Int) : ExecContext :=
  { executionId, secrets := resolveWorkflowSecrets env wf
    workflowDescriptor := workflowDescriptor wf executionId rawInput startedAt
    runtimeDescriptor := env.runtimeInfo, timeout := wf.timeout }

def TaskLocal.initial : TaskLocal :=
  { loopVars := [], applyExtensions := true, scopeExited := false, exits := [], stopped := false }

def Execution.initial (wf : CompiledWorkflow) (start : Nat) : Execution :=
  { executionId := "", workflow := wf, start, context := .null, locked := false, ended := false
    trace := [] }

/-- An execution that is about to begin. -/
def Execution.fresh (wf : CompiledWorkflow) (executionId : String) (start : Nat) : Execution :=
  { Execution.initial wf start with executionId }

/-- A lifecycle event of a workflow. -/
def lifecycleEvent (wf : CompiledWorkflow) (id type time : String) (data : Value) : EventMessage :=
  { CloudEvent.new id wf.id.source type with time := some time, data := some data }.toMessage

def qualifiedName (id : WorkflowId) : String := id.name ++ "-" ++ id.version ++ "." ++ id.namespace_

def workflowStarted (wf : CompiledWorkflow) (executionId time : String) : EventMessage :=
  lifecycleEvent wf (executionId ++ ".started") "io.serverlessworkflow.workflow.started.v1" time
    (.object [("definition", .object [("name", .string wf.id.name),
        ("namespace", .string wf.id.namespace_), ("version", .string wf.id.version)]),
      ("name", .string (qualifiedName wf.id)), ("startedAt", .string time)])

def workflowCompleted (wf : CompiledWorkflow) (executionId time : String) : EventMessage :=
  lifecycleEvent wf (executionId ++ ".completed") "io.serverlessworkflow.workflow.completed.v1"
    time (.object [("completedAt", .string time), ("name", .string (qualifiedName wf.id))])

def transformWorkflowInput (env : RuntimeInner) (wf : CompiledWorkflow) (ctx : ExecContext)
    (rawInput : Value) : Run Value :=
  match wf.input.transform with
  | none => return rawInput
  | some source => do
      let vars ← ctx.variables_ rawInput .null none
      evalExpr env source rawInput vars none

def applyWorkflowInput (env : RuntimeInner) (wf : CompiledWorkflow) (ctx : ExecContext)
    (rawInput : Value) : Run Value := do
  Run.ofExcept (validateSchema env wf.input.schema rawInput "/input")
  transformWorkflowInput env wf ctx rawInput

def transformWorkflowOutput (env : RuntimeInner) (wf : CompiledWorkflow) (ctx : ExecContext)
    (rawOutput : Value) : Run Value :=
  match wf.output.transform with
  | none => return rawOutput
  | some source => do
      let vars ← ctx.variables_ .null rawOutput none
      evalExpr env source rawOutput vars none

def applyWorkflowOutput (env : RuntimeInner) (wf : CompiledWorkflow) (ctx : ExecContext)
    (rawOutput : Value) : Run Value := do
  let transformed ← transformWorkflowOutput env wf ctx rawOutput
  Run.ofExcept (validateSchema env wf.output.schema transformed "/output")
  return transformed

/-- Persists the start record and the started event. -/
def persistStarted (wf : CompiledWorkflow) (ctx : ExecContext) (startedAt : Int) :
    Future Unit := do
  let context ← contextValueSync
  let input ← contextValueSync
  let _ ← store (.create (executionRecord wf ctx.executionId .running context
    (checkpointPointer 0 input) none startedAt))
  let _ ← store (.append
    { executionId := ctx.executionId, sequence := 1, eventType := "workflow.started"
      payload := .object [("startedAt", .ofInt startedAt)], timestamp := startedAt })
  return ()

def terminalPhase : Except WorkflowError Value → Phase
  | .ok _ => .completed
  | .error e => if e.kind = .cancelled then .cancelled else .faulted

def terminalEventType : Phase → String
  | .completed => "workflow.completed"
  | .cancelled => "workflow.cancelled"
  | _ => "workflow.faulted"

/-- Persists the terminal phase of an execution and its terminal event. -/
def persistTerminal (wf : CompiledWorkflow) (ctx : ExecContext)
    (result : Except WorkflowError Value) (startedAt : Int) : Future Unit := do
  let error := match result with
    | .ok _ => none
    | .error e => some e.toProblemJson
  let context ← contextValueSync
  let _ ← store (.update (executionRecord wf ctx.executionId (terminalPhase result) context .null
    error startedAt))
  let timestamp ← epochSeconds
  let _ ← store (.append
    { executionId := ctx.executionId, sequence := 2
      eventType := terminalEventType (terminalPhase result)
      payload := error.getD (.object [("completedAt", .ofInt timestamp)]), timestamp })
  return ()

/-- Sets up a fresh execution: its started event, its input and its first record. -/
def beginFresh (env : RuntimeInner) (wf : CompiledWorkflow) (ctx : ExecContext)
    (rawInput : Value) (startedAt : Int) : Run Value := do
  let _ ← outcome (announce ctx.executionId (workflowStarted wf ctx.executionId (env.isoTime startedAt)))
  let transformed ← applyWorkflowInput env wf ctx rawInput
  setContext .entry transformed
  persistStarted wf ctx startedAt
  return transformed

/-- The top-level scope and the output of a workflow. -/
def runScopes (env : RuntimeInner) (r : Runner) (fuel : Nat) (wf : CompiledWorkflow)
    (ctx : ExecContext) (startedAt : Int) (start : Nat) (input : Value) : Run Value := do
  let scopeOutput ← scopeLoop env r wf ctx wf.tasks (some { startedAt }) fuel start input
  applyWorkflowOutput env wf ctx scopeOutput

/-- Publishes the completion of an execution that has not failed. -/
def announceCompletion (env : RuntimeInner) (wf : CompiledWorkflow) (ctx : ExecContext)
    (result : Except WorkflowError Value) : Run Unit :=
  match result with
  | .ok _ => do
      let now ← epochSeconds
      let _ ← outcome (announce ctx.executionId (workflowCompleted wf ctx.executionId (env.isoTime now)))
      return ()
  | .error _ => return ()

/-- What happens when an execution has run. -/
def conclude (env : RuntimeInner) (wf : CompiledWorkflow) (ctx : ExecContext) (startedAt : Int)
    (result : Except WorkflowError Value) : Run Value := do
  announceCompletion env wf ctx result
  persistTerminal wf ctx result startedAt
  Run.ofExcept result

/-- The input and the first task of the top-level scope, with the context set up. -/
def enterExecution (env : RuntimeInner) (wf : CompiledWorkflow) (ctx : ExecContext)
    (rawInput : Value) (startedAt : Int) : Option ResumeState → Run (Value × Nat)
  | some resume => do
      setContext .entry resume.context
      return (resume.input, resume.nextIndex)
  | none => do
      let transformed ← beginFresh env wf ctx rawInput startedAt
      return (transformed, 0)

/-- An execution from its entry point on. -/
def executeBody (env : RuntimeInner) (r : Runner) (fuel : Nat) (wf : CompiledWorkflow)
    (ctx : ExecContext) (rawInput : Value) (startedAt : Int) (resume : Option ResumeState) :
    Run Value := do
  let (scopeInput, start) ← enterExecution env wf ctx rawInput startedAt resume
  let result ← outcome (runScopes env r fuel wf ctx startedAt start scopeInput)
  conclude env wf ctx startedAt result

/-- Executes a compiled workflow. The execution has storage of its own. -/
def executeWith (env : RuntimeInner) (r : Runner) (fuel : Nat) (wf : CompiledWorkflow)
    (rawInput : Value) (options : ExecutionOptions) : Run Value := do
  let executionId ← options.identity
  let startedAt ← epochSeconds
  let ctx := executionContext env wf executionId rawInput startedAt
  let start := (options.resume.map (·.nextIndex)).getD 0
  @Program.region engineSig _ _ TaskLocal.initial (Execution.fresh wf executionId start)
    (executeBody env r fuel wf ctx rawInput startedAt options.resume).run Program.done

/-- The engine's functions, tied together. The number bounds the depth of scopes
and the rounds of each loop. -/
def runner (env : RuntimeInner) : Nat → Runner
  | 0 =>
      { scope := fun _ _ _ _ => outOfFuel, task := fun _ _ _ _ _ => outOfFuel
        workflow := fun _ _ => outOfFuel, events := 0 }
  | fuel + 1 =>
      { scope := fun wf ctx tasks input =>
          scopeLoop env (runner env fuel) wf ctx tasks none fuel 0 input
        task := execTask env (runner env fuel)
        workflow := fun wf input =>
          executeWith env (runner env fuel) fuel wf input ExecutionOptions.default
        events := fuel }

end OwsRuntime
