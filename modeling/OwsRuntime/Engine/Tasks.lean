import OwsRuntime.Engine.Http

/-! The implementations of the tasks. Whatever a task runs in turn (a scope, a
fork branch, another workflow) it gets as a `Runner`, and the engine ties the
knot. -/
namespace OwsRuntime

open Async

/-- What tasks run in turn. `events` bounds the events a listen task looks at,
as `outOfFuel` bounds the runs of scopes. -/
structure Runner where
  scope : CompiledWorkflow → ExecContext → List CompiledTask → Value → Run Value
  task : CompiledWorkflow → ExecContext → CompiledTask → Value → Nat → Run TaskExec
  workflow : CompiledWorkflow → Value → Run Value
  events : Nat

/-- A run that is never resumed. -/
def outOfFuel {α : Type} : Run α :=
  ExceptT.mk ((ask .outOfFuel : Future Empty) >>= fun never => nomatch never)

/-- The `set` task. -/
def taskSet (env : RuntimeInner) (values : SetDef) (exprCtx : ExpressionContext) : Run Value :=
  match values with
  | .expression source => evalInterpolation env (.string source) exprCtx
  | .map entries => return .object (Map.extend [] (← interpolateEntries env exprCtx entries))

/-- Whether a `while` condition lets the next iteration run. -/
def whileHolds (env : RuntimeInner) (ctx : ExecContext) (condition : Option String)
    (bodyInput : Value) : Run Bool :=
  match condition with
  | none => return true
  | some source => do
      let vars ← ctx.variables_ bodyInput .null none
      return isTruthy (← evalExpr env source bodyInput vars none)

/-- The iterations of a `for` task, from the item at `index` on. -/
def forItems (env : RuntimeInner) (r : Runner) (wf : CompiledWorkflow) (ctx : ExecContext)
    (loop : ForDef) (body : List CompiledTask) (eachName atName : String) :
    Nat → List Value → Value → Value → Run Value
  | _, [], _, output => return output
  | index, item :: rest, bodyInput, output => do
      ctx.failIfCancelled
      ask (.bindVar eachName item)
      ask (.bindVar atName (.ofNat index))
      if ← whileHolds env ctx loop.while_ bodyInput then
        let bodyOutput ← r.scope wf ctx body bodyInput
        if ← loadEnded then return bodyOutput
        else forItems env r wf ctx loop body eachName atName (index + 1) rest bodyOutput bodyOutput
      else return output

/-- The items of a `for` task, if they are not more than the policy allows. -/
def loopItems (env : RuntimeInner) (collection : Value) : Except WorkflowError (List Value) := do
  let items ← match collection with
    | .array items => .ok items
    | .null => .ok []
    | other => .error (expressionError
        ("for `in` must evaluate to an array, got `" ++ other.display env.formatFloat ++ "`"))
  if env.policy.maxLoopIterations < items.length then
    throw (policyError ("for loop exceeds the maximum of " ++
      toString env.policy.maxLoopIterations ++ " iterations"))
  return items

/-- The `for` task. -/
def taskFor (env : RuntimeInner) (r : Runner) (wf : CompiledWorkflow) (ctx : ExecContext)
    (loop : ForDef) (body : List CompiledTask) (taskInput : Value)
    (exprCtx : ExpressionContext) : Run Value := do
  let collection ← evalExpr env loop.in_ taskInput exprCtx.asVariableMap none
  let items ← Run.ofExcept (loopItems env collection)
  let eachName := loop.each
  let atName := loop.at_.getD "index"
  let output ← forItems env r wf ctx loop body eachName atName 0 items taskInput .null
  ask (.unbindVar eachName)
  ask (.unbindVar atName)
  return output

/-- Notes that the task of a fork branch has chosen `end`, in the way in which a
scope would find its directive. -/
def noteBranch (task : CompiledTask) (exec : TaskExec) : Future Unit :=
  if exec.directive.or (task.then_.map parseDirective) = some .end_ then note .branchEnded
  else return ()

/-- Runs a single fork branch. The directive of its task is dropped. -/
def runBranch (r : Runner) (wf : CompiledWorkflow) (ctx : ExecContext) (task : CompiledTask)
    (input : Value) (ticket : Nat) : Future (Except WorkflowError Value) := do
  ask .spawned
  let result ← (r.task wf ctx task input ticket).run
  match result with
  | .ok exec =>
      noteBranch task exec
      return .ok exec.output
  | .error e => return .error e

/-- Spawns the branches of a fork and waits until `need` of them have finished.
The result lists them in the order in which they did. -/
def joinBranches (r : Runner) (wf : CompiledWorkflow) (ctx : ExecContext)
    (branches : List CompiledTask) (input : Value) (ticket need : Nat) :
    Future (List (Fin branches.length × Option (Except WorkflowError Value))) := do
  let loc ← getLocal
  @Program.par engineSig _ _ branches.length need (fun _ => loc)
    (fun i => runBranch r wf ctx (branches.get i) input ticket) [] Program.done

/-- The outcome of a fork whose branches compete. -/
def competeResult (env : RuntimeInner) {count : Nat}
    (finished : List (Fin count × Option (Except WorkflowError Value))) :
    Except WorkflowError Value :=
  match finished with
  | [] => .ok .null
  | (_, some result) :: _ => result
  | (i, none) :: _ => .error (runtimeError ("fork branch failed: " ++ env.joinError i))

/-- The error of the branch that failed first, in order of completion. -/
def firstError (env : RuntimeInner) {count : Nat}
    (finished : List (Fin count × Option (Except WorkflowError Value))) : Option WorkflowError :=
  finished.findSome? fun (i, result) =>
    match result with
    | some (.ok _) => none
    | some (.error e) => some e
    | none => some (runtimeError ("fork branch panicked: " ++ env.joinError i))

/-- The output of a branch, once all of them have succeeded. -/
def branchOutput {count : Nat}
    (finished : List (Fin count × Option (Except WorkflowError Value))) (i : Fin count) : Value :=
  match (finished.find? fun entry => entry.1 = i).bind Prod.snd with
  | some (.ok value) => value
  | _ => .null

/-- The outcome of a fork whose branches all run to completion. -/
def joinResult (env : RuntimeInner) {count : Nat}
    (finished : List (Fin count × Option (Except WorkflowError Value))) :
    Except WorkflowError Value :=
  match firstError env finished with
  | some e => .error e
  | none => .ok (.array (List.ofFn (branchOutput finished)))

/-- The `fork` task. The position of its dispatch is the ticket of its branches. -/
def taskFork (env : RuntimeInner) (r : Runner) (wf : CompiledWorkflow) (ctx : ExecContext)
    (branches : List CompiledTask) (compete : Bool) (taskInput : Value) (position : Nat) :
    Run Value := do
  if branches.isEmpty then return .array []
  if compete then
    let finished ← joinBranches r wf ctx branches taskInput position 1
    Run.ofExcept (competeResult env finished)
  else
    let finished ← joinBranches r wf ctx branches taskInput position branches.length
    Run.ofExcept (joinResult env finished)

/-- Whether an optional condition holds. -/
def conditionHolds (env : RuntimeInner) (input : Value) (vars : Map) (absent : Bool) :
    Option String → Run Bool
  | some source => return isTruthy (← evalExpr env source input vars none)
  | none => return absent

/-- The directive of the first matching case of a switch, if any matches. -/
def matchCases (env : RuntimeInner) (taskInput : Value) (vars : Map) :
    List SwitchCase → Run (Option FlowDirective)
  | [] => return none
  | case :: rest => do
      if ← conditionHolds env taskInput vars true case.when then
        return some ((case.then_.map parseDirective).getD .continue_)
      else matchCases env taskInput vars rest

/-- The `switch` task. -/
def taskSwitch (env : RuntimeInner) (cases : List SwitchCase) (taskInput : Value)
    (exprCtx : ExpressionContext) : Run TaskExec := do
  let directive ← matchCases env taskInput exprCtx.asVariableMap cases
  return { output := taskInput, directive }

/-- The field of an error which a catch filter compares. -/
def problemField (p : ProblemDetails) (key : String) : Value :=
  if key = "type" then .string p.type
  else if key = "status" then .ofNat p.status
  else if key = "title" then .string p.title
  else if key = "detail" then .string (p.detail.getD "")
  else if key = "instance" then .string (p.instance.getD "")
  else (p.extensions.bind (·.lookup key)).getD .null

/-- Whether `when` holds and `exceptWhen` does not. -/
def conditionsHold (env : RuntimeInner) (when exceptWhen : Option String)
    (exprCtx : ExpressionContext) : Run Bool := do
  let loc ← getLocal
  let vars := Map.extend exprCtx.asVariableMap loc.loopVars
  if ← conditionHolds env .null vars true when then
    return !(← conditionHolds env .null vars false exceptWhen)
  else return false

def catchMatches (env : RuntimeInner) (catch_ : CatchDef) (err : WorkflowError)
    (exprCtx : ExpressionContext) : Run Bool :=
  if (catch_.filter.getD []).all fun entry =>
      valuesEqual (problemField err.problem entry.1) entry.2 then
    conditionsHold env catch_.when catch_.exceptWhen exprCtx
  else return false

/-- Whether the policy allows a retry, its attempt limit apart. -/
def retryable (env : RuntimeInner) (retry : Option RetryPolicyDef)
    (exprCtx : ExpressionContext) : Run Bool :=
  match retry with
  | some policy => conditionsHold env policy.when policy.exceptWhen exprCtx
  | none => return false

/-- The longest duration, in nanoseconds. -/
def maxDuration : Nat := (2 ^ 64 - 1) * 1000000000 + 999999999

/-- The delay before a retry, its jitter apart. -/
def backoffDelay (retry : RetryPolicyDef) (attempt : Nat) : Nat :=
  let base := retry.delay.getD 0
  let attempt := attempt % 2 ^ 32
  match retry.backoff with
  | .constant => base
  | .linear => min (base * attempt) maxDuration
  | .exponential => min (base * min (2 ^ (attempt - 1)) (2 ^ 32 - 1)) maxDuration

/-- The delay before a retry. The random part of the jitter comes from outside. -/
def computeDelay (retry : RetryPolicyDef) (attempt : Nat) : Future Nat :=
  match retry.jitter with
  | none => return backoffDelay retry attempt
  | some (from_, to_) => do
      let millis ← jitter ((to_ - from_) / 1000000)
      let extra := min (from_ + millis * 1000000) maxDuration
      return min (backoffDelay retry attempt + extra) maxDuration

/-- Sleeps, unless the execution is cancelled. -/
def waitWithCancel (ctx : ExecContext) (duration : Nat) : Run Unit := do
  ctx.failIfCancelled
  let epoch ← notified
  if ← sleep duration epoch then ctx.stop else return ()

/-- The loop of a `try` task. `remaining` counts the retries that the policy
still allows after `attempt` of them. -/
def tryLoop (env : RuntimeInner) (r : Runner) (wf : CompiledWorkflow) (ctx : ExecContext)
    (body : List CompiledTask) (catch_ : CatchDef) (handler : Option (List CompiledTask))
    (taskInput : Value) (exprCtx : ExpressionContext) : Nat → Nat → Run Value
  | remaining, attempt => do
      ctx.failIfCancelled
      match ← outcome (r.scope wf ctx body taskInput) with
      | .ok output => return output
      | .error err =>
          ask (.bindVar (catch_.as_.getD "error") err.toProblemJson)
          if ← catchMatches env catch_ err exprCtx then
            let again ← retryable env catch_.retry exprCtx
            match remaining, catch_.retry with
            | left + 1, some retry =>
                if again then
                  let delay ← computeDelay retry (attempt + 1)
                  waitWithCancel ctx delay
                  tryLoop env r wf ctx body catch_ handler taskInput exprCtx left (attempt + 1)
                else recover
            | _, _ => recover
          else throw err
where
  recover : Run Value :=
    match handler with
    | some tasks => r.scope wf ctx tasks taskInput
    | none => return taskInput

/-- The `try` task. -/
def taskTry (env : RuntimeInner) (r : Runner) (wf : CompiledWorkflow) (ctx : ExecContext)
    (body : List CompiledTask) (catch_ : CatchDef) (handler : Option (List CompiledTask))
    (taskInput : Value) (exprCtx : ExpressionContext) : Run Value :=
  tryLoop env r wf ctx body catch_ handler taskInput exprCtx
    ((catch_.retry.bind (·.attemptCount)).getD 0) 0

/-- Sets the attribute of an event which an emit task declares. -/
def setAttribute (event : CloudEvent) (key : String) (value : Value) : CloudEvent :=
  if key = "id" then { event with id := value.asStr.getD "" }
  else if key = "source" then { event with source := value.asStr.getD "" }
  else if key = "type" then { event with type := value.asStr.getD "" }
  else if key = "time" then { event with time := value.asStr }
  else if key = "subject" then { event with subject := value.asStr }
  else if key = "datacontenttype" then { event with dataContentType := value.asStr }
  else if key = "dataschema" then { event with dataSchema := value.asStr }
  else if key = "data" then { event with data := some value }
  else { event with extensions := Map.insert key value event.extensions }

def emitAttributes (env : RuntimeInner) (exprCtx : ExpressionContext) :
    Map → CloudEvent → Run CloudEvent
  | [], event => return event
  | (key, value) :: rest, event => do
      let resolved ← deepInterpolate env exprCtx value
      emitAttributes env exprCtx rest (setAttribute event key resolved)

def WorkflowId.source (id : WorkflowId) : String :=
  "/" ++ id.namespace_ ++ "/" ++ id.name ++ "/" ++ id.version

/-- An event that has an id, a new one if it had none. -/
def withId (event : CloudEvent) : Future CloudEvent :=
  if event.id.isEmpty then do
    let id ← newUuid
    return { event with id }
  else return event

/-- An event that has a time, the present one if it had none. -/
def withTime (env : RuntimeInner) (event : CloudEvent) : Future CloudEvent :=
  if event.time.isNone then do
    let now ← epochSeconds
    return { event with time := some (env.isoTime now) }
  else return event

/-- The `emit` task. -/
def taskEmit (env : RuntimeInner) (wf : CompiledWorkflow) (attributes : Map)
    (exprCtx : ExpressionContext) : Run Value := do
  let event ← emitAttributes env exprCtx attributes (CloudEvent.new "" wf.id.source "")
  let event ← withId event
  if event.type.isEmpty then throw (semanticError "emit task requires an event `type`")
  else
    let event ← withTime env event
    publish event.toMessage
    return event.toValue

/-- A compiled filter: attribute constraints and correlation keys. -/
structure CompiledListenFilter where
  matcher : EventMatcher
  correlate : List CorrelationDef
deriving Repr

def buildMatcher (filter : EventFilterDef) : EventMatcher :=
  { type := (filter.with_.lookup "type").bind Value.asStr
    source := (filter.with_.lookup "source").bind Value.asStr
    subject := (filter.with_.lookup "subject").bind Value.asStr
    attributes := filter.with_.filter fun entry =>
      entry.1 ≠ "type" ∧ entry.1 ≠ "source" ∧ entry.1 ≠ "subject" }

def buildFilter (filter : EventFilterDef) : CompiledListenFilter :=
  { matcher := buildMatcher filter, correlate := filter.correlate }

/-- How many events a listen strategy needs. -/
inductive ListenNeed where
  | one
  | all (count : Nat)
deriving DecidableEq, Repr

def readEvent (event : EventMessage) (read : String) : Value :=
  if read = "envelope" then (CloudEvent.fromMessage event).toValue
  else event.data.getD .null

/-- The correlation keys of a filter. The result is the group of first-seen
values, or nothing when a key does not agree. -/
def correlateKeys (env : RuntimeInner) (event : EventMessage) (vars : Map) :
    List CorrelationDef → Map → Future (Option Map)
  | [], trial => return some trial
  | key :: rest, trial => do
      match ← (evalExpr env key.from_ (event.data.getD .null) vars none).run with
      | .error _ => return none
      | .ok got =>
          match key.expect with
          | some expect =>
              match ← (evalExpr env expect ((vars.lookup "context").getD .null) vars none).run with
              | .error _ => return none
              | .ok want =>
                  if valuesEqual got want then correlateKeys env event vars rest trial
                  else return none
          | none =>
              match trial.lookup key.from_ with
              | some existing =>
                  if valuesEqual got existing then correlateKeys env event vars rest trial
                  else return none
              | none => correlateKeys env event vars rest (Map.insert key.from_ got trial)

/-- The group after an event has matched a filter, or nothing. -/
def filterMatches (env : RuntimeInner) (filter : CompiledListenFilter) (event : EventMessage)
    (vars group : Map) : Future (Option Map) :=
  if filter.matcher.matches_ (CloudEvent.fromMessage event) then
    correlateKeys env event vars filter.correlate group
  else return none

/-- Whether an event matches some filter. -/
def matchesAny (env : RuntimeInner) (event : EventMessage) (vars : Map) :
    List CompiledListenFilter → Map → Future Bool
  | [], _ => return false
  | f :: rest, trial => do
      match ← filterMatches env f event vars trial with
      | some _ => return true
      | none => matchesAny env event vars rest trial

/-- Marks the filters that an event satisfies and that were not yet satisfied. -/
def markSatisfied (env : RuntimeInner) (event : EventMessage) (vars : Map) :
    List (CompiledListenFilter × Bool) → Map → Future (List (CompiledListenFilter × Bool) × Map)
  | [], group => return ([], group)
  | (f, true) :: rest, group => do
      let (rest, group) ← markSatisfied env event vars rest group
      return ((f, true) :: rest, group)
  | (f, false) :: rest, group => do
      match ← filterMatches env f event vars group with
      | some group =>
          let (rest, group) ← markSatisfied env event vars rest group
          return ((f, true) :: rest, group)
      | none =>
          let (rest, group) ← markSatisfied env event vars rest group
          return ((f, false) :: rest, group)

/-- The state of the loop that gathers events. -/
structure GatherState where
  consumed : List EventMessage
  filters : List (CompiledListenFilter × Bool)
  untilFilters : List (CompiledListenFilter × Bool)
  untilSatisfied : Bool
  group : Map
deriving Repr

namespace GatherState

def satisfied (s : List (CompiledListenFilter × Bool)) : Bool := s.all Prod.snd

/-- Whether the strategy and the stop condition hold. -/
def complete (s : GatherState) (need : ListenNeed) (hasUntil : Bool) : Bool :=
  (match need with
    | .one => (hasUntil && s.filters.isEmpty) || !s.consumed.isEmpty
    | .all n => n == 0 || satisfied s.filters) &&
  (!hasUntil || s.untilSatisfied)

/-- Whether an event counts for a strategy that needs one event. -/
def matchesOne (env : RuntimeInner) (s : GatherState) (vars : Map) (event : EventMessage) :
    Future Bool :=
  if s.filters.isEmpty then return true
  else matchesAny env event vars (s.filters.map Prod.fst) s.group

/-- Applies an event to the strategy. The flag tells whether it was accepted. -/
def accept (env : RuntimeInner) (s : GatherState) (need : ListenNeed) (vars : Map)
    (event : EventMessage) : Future (GatherState × Bool) :=
  match need with
  | .one => do
      let matched ← matchesOne env s vars event
      return if matched then ({ s with consumed := s.consumed ++ [event] }, true) else (s, false)
  | .all _ => do
      let (filters, group) ← markSatisfied env event vars s.filters s.group
      let advanced := filters.map Prod.snd != s.filters.map Prod.snd
      return ({ s with
        filters, group
        consumed := if advanced then s.consumed ++ [event] else s.consumed }, advanced)

/-- Applies an event to an `until` strategy. -/
def acceptUntil (env : RuntimeInner) (s : GatherState) (vars : Map) (event : EventMessage)
    (accepted : Bool) : Future GatherState :=
  if s.untilFilters.isEmpty then return s
  else do
    let (untilFilters, group) ← markSatisfied env event vars s.untilFilters s.group
    if untilFilters.map Prod.snd != s.untilFilters.map Prod.snd then
      return { s with
        untilFilters, group
        consumed := if accepted then s.consumed else s.consumed ++ [event]
        untilSatisfied := satisfied untilFilters }
    else return { s with untilFilters, group }

end GatherState

/-- The loop of a listen task, for as many events as its first argument says. -/
def gatherListenEvents (env : RuntimeInner) (ctx : ExecContext) (vars : Map) (need : ListenNeed)
    (untilExpression : Option String) (hasUntil : Bool) (read : String) :
    Nat → GatherState → Run (List EventMessage)
  | 0, _ => outOfFuel
  | fuel + 1, s => do
      if s.complete need hasUntil then return s.consumed
      else
        let epoch ← notified
        match ← receive epoch with
        | none => ctx.stop
        | some none => return s.consumed
        | some (some event) =>
            let (s, accepted) ← s.accept env need vars event
            let s ← s.acceptUntil env vars event accepted
            let values := Value.array (s.consumed.map (readEvent · read))
            let stop ← conditionHolds env values vars false untilExpression
            gatherListenEvents env ctx vars need untilExpression hasUntil read fuel
              { s with untilSatisfied := s.untilSatisfied || stop }

/-- The iterations of a listen iterator, from the item at `index` on. -/
def foreachItems (r : Runner) (wf : CompiledWorkflow) (ctx : ExecContext) (fe : ListenForeachDef)
    (body : List CompiledTask) (atName : String) : Nat → List Value → Run (List Value)
  | _, [] => return []
  | index, item :: rest => do
      ctx.failIfCancelled
      ask (.bindVar fe.item item)
      ask (.bindVar atName (.ofNat index))
      let output ← r.scope wf ctx body item
      ask (.unbindVar fe.item)
      ask (.unbindVar atName)
      if ← loadEnded then return [output]
      else return output :: (← foreachItems r wf ctx fe body atName (index + 1) rest)

/-- The filters of a listen strategy, and how many events it needs. -/
def listenFilters : ListenTo → List CompiledListenFilter × ListenNeed
  | .one filter => ([buildFilter filter], .one)
  | .any filters => (filters.map buildFilter, .one)
  | .all filters => (filters.map buildFilter, .all filters.length)

/-- The `listen` task. -/
def taskListen (env : RuntimeInner) (r : Runner) (wf : CompiledWorkflow) (ctx : ExecContext)
    (listen : ListenDef) (foreach_ : Option (ListenForeachDef × List CompiledTask))
    (exprCtx : ExpressionContext) : Run Value := do
  let read := listen.read.getD "data"
  let (filters, need) := listenFilters listen.to_
  let (untilExpression, untilFilters) := match listen.until_ with
    | none => (none, [])
    | some (.expression source) => (some source, [])
    | some (.strategy fs) => (none, fs.map buildFilter)
  subscribe
  let consumed ← gatherListenEvents env ctx exprCtx.asVariableMap need untilExpression
    (untilExpression.isSome || !untilFilters.isEmpty) read r.events
    { consumed := [], filters := filters.map (·, false), untilFilters := untilFilters.map (·, false)
      untilSatisfied := false, group := [] }
  let values := consumed.map (readEvent · read)
  match foreach_ with
  | some (fe, body) =>
      return .array (← foreachItems r wf ctx fe body (fe.at_.getD "index") 0 values)
  | none => return .array values

/-- The error which the `raise` task raises, or the error of looking it up. -/
def taskRaise (wf : CompiledWorkflow) (task : CompiledTask) (error : ErrorRef)
    (ctx : ExecContext) : WorkflowError :=
  match resolve with
  | none => semanticError ("undefined error `" ++ errorName ++ "`")
  | some e =>
      (WorkflowError.new .fault
        { ProblemDetails.new e.type e.title (((e.status.asU64).getD 500) % 2 ^ 16) with
          detail := e.detail
          «instance» := some (e.pointer.getD task.reference) }).withExecution ctx.executionId
where
  resolve : Option ErrorDefinition :=
    match error with
    | .inline e => some e
    | .reference name => (wf.components.bind (·.errors)).bind (·.lookup name)
  errorName : String :=
    match error with
    | .inline _ => ""
    | .reference name => name

/-- Notes that the error of a `raise` task is not known. -/
def noteError (wf : CompiledWorkflow) (error : ErrorRef) : Future Unit :=
  if (taskRaise.resolve wf error).isNone then note (.unresolved (taskRaise.errorName error))
  else return ()

/-- Fails as a function is not known. -/
def unknownFunction {α : Type} (name message : String) : Run α := do
  note (.unresolved name)
  throw (semanticError message)

/-- The reusable function of a name, when it is a call. -/
def resolveFunction (wf : CompiledWorkflow) (name : String) : Option (String × Option Map) :=
  match (wf.components.bind (·.functions)).bind (·.lookup name) with
  | some (.call _ call with_) => some (call, with_)
  | _ => none

/-- The `call` task. -/
def taskCall (env : RuntimeInner) (wf : CompiledWorkflow) (def_ : CallDef)
    (exprCtx : ExpressionContext) : Run Value := do
  let args ← interpolateMap env def_.with_ exprCtx
  match env.functions.lookup def_.call with
  | some invoker => invokeFunction env invoker { name := def_.call, args, context := exprCtx }
  | none =>
      match resolveFunction wf def_.call with
      | some (call, with_) =>
          match env.functions.lookup call with
          | some invoker =>
              invokeFunction env invoker
                { name := call, args := Map.extend (with_.getD []) args, context := exprCtx }
          | none => unknownFunction call ("reusable function `" ++ def_.call ++
              "` references unknown function `" ++ call ++ "`")
      | none => unknownFunction def_.call ("unknown function `" ++ def_.call ++ "`")

def processOutput (result : ProcessResult) : RunReturn → Value
  | .stdout => (result.stdout.map Value.string).getD .null
  | .stderr => (result.stderr.map Value.string).getD .null
  | .code => (result.code.map Value.ofInt).getD .null
  | .all => result.toValue
  | .none => .null

/-- The `run` task. A task which is not awaited does not run its process. -/
def taskRun (env : RuntimeInner) (r : Runner) (run : RunDef) (taskInput : Value)
    (exprCtx : ExpressionContext) : Run Value := do
  if !run.await_ then return taskInput
  match run.process with
  | .shell command arguments environment stdin => do
      let command ← interpolateString env command exprCtx
      let args ← interpolateStrings env exprCtx arguments
      let stdin ← interpolateOptString env stdin exprCtx
      let envVars ← interpolateEnv env exprCtx environment
      let result ← runProcess (.shell command args envVars stdin)
      return processOutput result run.return_
  | .script language code arguments environment stdin => do
      let code ← interpolateString env code exprCtx
      let args ← interpolateStrings env exprCtx arguments
      let stdin ← interpolateOptString env stdin exprCtx
      let envVars ← interpolateEnv env exprCtx environment
      let result ← runProcess (.script language code args envVars stdin)
      return processOutput result run.return_
  | .container image arguments environment stdin => do
      let args ← interpolateStrings env exprCtx arguments
      let stdin ← interpolateOptString env stdin exprCtx
      let envVars ← interpolateEnv env exprCtx environment
      let result ← runProcess (.container image args envVars stdin)
      return processOutput result run.return_
  | .workflow namespace_ name version input => do
      let input ← interpolateValue env input exprCtx
      let key := namespace_ ++ "/" ++ name ++ "/" ++ version
      match ← findWorkflow key with
      | none => throw (runtimeError ("sub-workflow `" ++ key ++ "` is not registered"))
      | some sub => r.workflow sub (input.getD .null)

/-- The `wait` task. -/
def taskWait (ctx : ExecContext) (duration : Nat) : Run Value := do
  waitWithCancel ctx duration
  return .null

/-- Runs the body of a task. Only a switch decides a directive itself. -/
def dispatch (env : RuntimeInner) (r : Runner) (wf : CompiledWorkflow) (ctx : ExecContext)
    (task : CompiledTask) (taskInput : Value) (exprCtx : ExpressionContext) (position : Nat) :
    Run TaskExec :=
  match task.kind with
  | .set values => plain (taskSet env values exprCtx)
  | .do_ body => plain (r.scope wf ctx body taskInput)
  | .for_ loop body => plain (taskFor env r wf ctx loop body taskInput exprCtx)
  | .fork branches compete => plain (taskFork env r wf ctx branches compete taskInput position)
  | .switch cases => taskSwitch env cases taskInput exprCtx
  | .try_ body catch_ handler =>
      plain (taskTry env r wf ctx body catch_ handler taskInput exprCtx)
  | .emit attributes => plain (taskEmit env wf attributes exprCtx)
  | .listen listen foreach_ => plain (taskListen env r wf ctx listen foreach_ exprCtx)
  | .raise error => do
      noteError wf error
      throw (taskRaise wf task error ctx)
  | .call def_ => plain (taskCall env wf def_ exprCtx)
  | .run run => plain (taskRun env r run taskInput exprCtx)
  | .wait duration => plain (taskWait ctx duration)
where
  plain (output : Run Value) : Run TaskExec := return { output := ← output, directive := none }

end OwsRuntime
