import OwsRuntime.Async.Machine
import OwsRuntime.Core.Services
import OwsRuntime.Ir

/-! What the engine asks of its surroundings, and the storage it works on: the
mutable part of an execution context, the state which the tasks of an execution
share, and the runtime's services. -/
namespace OwsRuntime

open Async

/-- An implementation of a function. The bundled `http` one is told apart. -/
inductive FunctionInvoker where
  | http
  | other (id : String)
deriving DecidableEq, Repr

/-- The configured services of a runtime, as far as they do not change. -/
structure RuntimeInner where
  expression : ExpressionEngine
  validator : Option (Value → Value → Except (List String) Unit)
  policy : RuntimePolicy
  runtimeInfo : Value
  functions : List (String × FunctionInvoker)
  secrets : String → Option String
  isoTime : Int → String
  formatFloat : F64 → String
  parseUrl : String → Except String (String × Option String)
  parseJson : List UInt8 → Option Value
  parseUtf8 : List UInt8 → Option String
  encodeBase64 : List UInt8 → String
  toUppercase : String → String
  isHttpMethod : String → Bool
  joinError : Nat → String

/-- The mutable fields of an execution context. A fork branch has a copy. `exits`
lists the scopes that have set `scopeExited` since it was last cleared, and `stopped`
tells whether the task has failed as its execution was cancelled. -/
structure TaskLocal where
  loopVars : Map
  applyExtensions : Bool
  scopeExited : Bool
  exits : List (List CompiledTask)
  stopped : Bool

/-- Where a value written to the context comes from: the entry of an execution,
the export of a task, or a read at the given position of the trace. -/
inductive ContextSource where
  | entry
  | exported
  | readBack (position : Nat)
deriving DecidableEq, Repr

/-- A `before` scope that an extended task has run, and the scopes that have taken
`exit` meanwhile. -/
structure BeforeScope where
  scope : List CompiledTask
  exits : List (List CompiledTask)

/-- A text that is evaluated: as an expression, or as a text with expressions in it. The
`http` function evaluates the arguments it gets together. -/
inductive ExpressionSource where
  | expression (source : String)
  | template (source : String)
  | arguments
deriving DecidableEq, Repr

/-- What happens in an execution, as far as its properties speak of it. Nothing
reads these notes back; an activity remembers the position of a note it took. -/
inductive Note where
  /-- A text is evaluated on an input and variables. -/
  | evaluates (source : ExpressionSource) (input : Value) (vars : Map)
  /-- A task fails as an error or a function of this name is not known. -/
  | unresolved (name : String)
  /-- A scope has checked the stop flags and is about to run a task. -/
  | admitted (tasks : List CompiledTask) (index : Nat)
  /-- A task has run the `before` scopes of its extensions, and skips its body or not. -/
  | extended (ran : List BeforeScope) (skipBody : Bool)
  /-- The body of a task starts. Its ticket is the position of its admission, or
  for the task of a fork branch that of the dispatch of its fork. -/
  | dispatched (ticket : Nat)
  /-- A scope goes on with another task. -/
  | moved (tasks : List CompiledTask) (index next : Nat)
  /-- A scope fails as a directive names none of its tasks. -/
  | unknownTarget (tasks : List CompiledTask) (name : String)
  /-- A scope has taken `end`. -/
  | ended
  /-- A task run as a fork branch has chosen `end`. -/
  | branchEnded
  /-- The context is read under its lock. -/
  | contextRead (value : Value)
  /-- The context is written. -/
  | contextWritten (source : ContextSource) (value : Value)
  /-- A synchronous reader finds the context locked. -/
  | contended
  /-- A loop or error variable is bound. -/
  | bound (name : String)
  /-- A record is stored. -/
  | recorded (record : ExecutionRecord)

/-- A note, and whether the execution was cancelled when it was taken. -/
structure Entry where
  note : Note
  cancelled : Bool

/-- The state which the tasks of one execution share. `executionId`, `workflow` and
`start`, the index of the first top-level task, stay the same throughout. -/
structure Execution where
  executionId : String
  workflow : CompiledWorkflow
  start : Nat
  context : Value
  locked : Bool
  ended : Bool
  trace : List Entry

/-- The replies of the outside world. They may change at any time. -/
structure Oracle where
  invoke : String → FunctionRequest → Except WorkflowError Value
  send : HttpRequest → Except String HttpResponse
  process : ProcessRequest → Except WorkflowError ProcessResult
  publish : EventMessage → Except WorkflowError Unit
  subscribe : Except WorkflowError Unit
  event : Option (Option EventMessage)
  timerReady : Bool
  notifiedFirst : Bool
  store : Except WorkflowError Unit
  jitter : Nat → Nat

inductive StoreOp where
  | create (record : ExecutionRecord)
  | update (record : ExecutionRecord)
  | append (event : StoredEvent)
deriving DecidableEq, Repr

/-- An operation that the store has been asked for: by others than the executions of
this runtime or not, and with success or not. -/
structure StoreEntry where
  op : StoreOp
  foreign : Bool
  accepted : Bool
deriving DecidableEq, Repr

/-- What all executions of one handle share: its cancellation token, of which
`notifications` counts the wake-ups, and the services of the runtime. `journal` lists
the operations of the store, and `published` what the publisher has been given, with
the execution whose lifecycle it is; `uuids` counts the ids that the generator `uuid`
has given out. -/
structure World where
  cancelled : Bool
  notifications : Nat
  store : ExecutionStore
  journal : List StoreEntry
  published : List (Option String × EventMessage)
  workflows : List (String × CompiledWorkflow)
  clock : Int
  uuid : Nat → String
  uuids : Nat
  oracle : Oracle

inductive Act where
  | note (n : Note)
  | isCancelled
  | notified
  | loadEnded
  | storeEnded
  | getLocal
  | bindVar (name : String) (value : Value)
  | unbindVar (name : String)
  | setApplyExtensions (b : Bool)
  | setScopeExited (by_ : Option (List CompiledTask))
  | stop
  | tryContext
  | readContext
  | writeContext (source : ContextSource) (value : Value)
  | epochSeconds
  | newUuid
  | jitter (range : Nat)
  | findWorkflow (key : String)
  | unlockContext
  | lockContext
  | spawned
  | invoke (id : String) (request : FunctionRequest)
  | send (request : HttpRequest)
  | process (request : ProcessRequest)
  | publish (lifecycle : Option String) (event : EventMessage)
  | subscribe
  | receive (epoch : Nat)
  | sleep (duration epoch : Nat)
  | store (op : StoreOp)
  | load (executionId : String)
  | outOfFuel

namespace Act

/-- The reply to a request. A note and a read of the context tell the position of
their entry. A sleeper learns whether it was cancelled, and a receiver gets
nothing when it was. -/
def Resp : Act → Type
  | note _ => Nat
  | isCancelled => Bool
  | notified => Nat
  | loadEnded => Bool
  | storeEnded => Unit
  | getLocal => TaskLocal
  | bindVar _ _ => Unit
  | unbindVar _ => Unit
  | setApplyExtensions _ => Unit
  | setScopeExited _ => Unit
  | stop => Unit
  | tryContext => Value
  | readContext => Value × Nat
  | writeContext _ _ => Unit
  | epochSeconds => Int
  | newUuid => String
  | jitter _ => Nat
  | findWorkflow _ => Option CompiledWorkflow
  | unlockContext => Unit
  | lockContext => Unit
  | spawned => Unit
  | invoke _ _ => Except WorkflowError Value
  | send _ => Except String HttpResponse
  | process _ => Except WorkflowError ProcessResult
  | publish _ _ => Except WorkflowError Unit
  | subscribe => Except WorkflowError Unit
  | receive _ => Option (Option EventMessage)
  | sleep _ _ => Bool
  | store _ => Except WorkflowError Unit
  | load _ => Except WorkflowError (Option ExecutionRecord)
  | outOfFuel => Empty

/-- Where tasks wait. Releasing the context is no suspension point, but other
threads may run while it is held. -/
def mode : Act → Mode
  | unlockContext => .preempt
  | lockContext => .await
  | spawned => .await
  | invoke _ _ => .await
  | send _ => .await
  | process _ => .await
  | publish _ _ => .await
  | subscribe => .await
  | receive _ => .await
  | sleep _ _ => .await
  | store _ => .await
  | load _ => .await
  | outOfFuel => .preempt
  | _ => .sync

end Act

/-- What ends a future that is waited for: a timer, a notification of the
cancellation token after the given number of them, or a panic of the spawned task
that runs it. -/
inductive Alarm where
  | timer (duration : Nat)
  | notified (epoch : Nat)
  | panicked
deriving DecidableEq, Repr

/-- A timer may fire at any time, and a task may panic at any time. -/
def Alarm.fires : Alarm → World → Bool
  | timer _, _ => true
  | notified epoch, w => epoch < w.notifications
  | panicked, _ => true

/-- The signature of the engine. -/
abbrev engineSig : Signature :=
  { Act := Act, Resp := Act.Resp, Alarm := Alarm, Local := TaskLocal, Shared := Execution, World := World }

abbrev EngineState := State engineSig

def Execution.log (e : Execution) (entry : Entry) : Execution :=
  { e with trace := e.trace ++ [entry] }

namespace EngineState

/-- The state with a note added to the trace of the execution. -/
def note (σ : EngineState) (n : Note) : EngineState :=
  { σ with shared := σ.shared.log ⟨n, σ.world.cancelled⟩ }

def mapLocal (f : TaskLocal → TaskLocal) (σ : EngineState) : EngineState :=
  { σ with loc := f σ.loc }

end EngineState

/-- Which of a timer or event and a notification wakes a `select`. -/
def World.woken {α : Type} (w : World) (ready : Option α) (epoch : Nat) : Option (Option α) :=
  if epoch < w.notifications ∧ (ready.isNone ∨ w.oracle.notifiedFirst) then some none
  else ready.map some

def StoreOp.apply (store : ExecutionStore) : StoreOp → ExecutionStore
  | create record => store.insert record
  | update record => store.insert record
  | append event => store.appendEvent event

/-- The note which a store operation leaves in the trace. -/
def StoreOp.record? : StoreOp → Option ExecutionRecord
  | create record => some record
  | update record => some record
  | append _ => none

/-- What a request does. Releasing and taking the context lock guard the two
accesses to the context cell. -/
def perform : (a : Act) → EngineState → Option (a.Resp × EngineState)
  | .note n, σ => some (σ.shared.trace.length, EngineState.note σ n)
  | .isCancelled, σ => some (σ.world.cancelled, σ)
  | .notified, σ => some (σ.world.notifications, σ)
  | .loadEnded, σ => some (σ.shared.ended, σ)
  | .storeEnded, σ =>
      some ((), EngineState.note { σ with shared := { σ.shared with ended := true } } .ended)
  | .getLocal, σ => some (σ.loc, σ)
  | .bindVar name value, σ =>
      some ((), (EngineState.note σ (.bound name)).mapLocal fun l =>
        { l with loopVars := Map.insert name value l.loopVars })
  | .unbindVar name, σ =>
      some ((), EngineState.mapLocal (fun l => { l with loopVars := Map.remove name l.loopVars }) σ)
  | .setApplyExtensions b, σ => some ((), EngineState.mapLocal ({ · with applyExtensions := b }) σ)
  | .setScopeExited none, σ =>
      some ((), EngineState.mapLocal ({ · with scopeExited := false, exits := [] }) σ)
  | .setScopeExited (some tasks), σ =>
      some ((), EngineState.mapLocal (fun l =>
        { l with scopeExited := true, exits := l.exits ++ [tasks] }) σ)
  | .stop, σ => some ((), EngineState.mapLocal ({ · with stopped := σ.world.cancelled }) σ)
  | .tryContext, σ =>
      if σ.shared.locked then some (Value.null, EngineState.note σ .contended)
      else some (σ.shared.context, σ)
  | .readContext, σ =>
      some ((σ.shared.context, σ.shared.trace.length),
        EngineState.note σ (.contextRead σ.shared.context))
  | .writeContext source value, σ =>
      some ((), EngineState.note { σ with shared := { σ.shared with context := value } }
        (.contextWritten source value))
  | .epochSeconds, σ => some (σ.world.clock, σ)
  | .newUuid, σ =>
      some (σ.world.uuid σ.world.uuids,
        σ.mapWorld fun w => { w with uuids := w.uuids + 1 })
  -- the random number is below one
  | .jitter range, σ => some (Nat.min (σ.world.oracle.jitter range) (range - 1), σ)
  | .findWorkflow key, σ => some (σ.world.workflows.lookup key, σ)
  | .unlockContext, σ => some ((), { σ with shared := { σ.shared with locked := false } })
  | .lockContext, σ =>
      if σ.shared.locked then none
      else some ((), { σ with shared := { σ.shared with locked := true } })
  | .spawned, σ => some ((), σ)
  | .invoke id request, σ => some (σ.world.oracle.invoke id request, σ)
  | .send request, σ => some (σ.world.oracle.send request, σ)
  | .process request, σ => some (σ.world.oracle.process request, σ)
  | .publish lifecycle event, σ =>
      some (σ.world.oracle.publish event,
        σ.mapWorld fun w => { w with published := w.published ++ [(lifecycle, event)] })
  | .subscribe, σ => some (σ.world.oracle.subscribe, σ)
  | .receive epoch, σ => (σ.world.woken σ.world.oracle.event epoch).map fun r => (r, σ)
  | .sleep _ epoch, σ =>
      (σ.world.woken (if σ.world.oracle.timerReady then some () else none) epoch).map fun r =>
        (r.isNone, σ)
  | .store op, σ =>
      match σ.world.oracle.store with
      | .error e => some (.error e, σ.mapWorld fun w =>
          { w with journal := w.journal ++ [{ op, foreign := false, accepted := false }] })
      | .ok () =>
          let τ := match op.record? with
            | some record => EngineState.note σ (.recorded record)
            | none => σ
          some (.ok (), τ.mapWorld fun w => { w with
            store := op.apply w.store
            journal := w.journal ++ [{ op, foreign := false, accepted := true }] })
  | .load executionId, σ =>
      match σ.world.oracle.store with
      | .error e => some (.error e, σ)
      | .ok () => some (.ok (σ.world.store.load executionId), σ)
  | .outOfFuel, _ => none

/-- What the outside world may do between turns. Others may use the store and the
generator of ids. -/
inductive Disturbance where
  | cancel
  | replies (oracle : Oracle)
  | clock (epochSeconds : Int)
  | register (workflow : CompiledWorkflow)
  | store (op : StoreOp)
  | drawUuids (count : Nat)

def disturb : Disturbance → World → World
  | .cancel, w => { w with cancelled := true, notifications := w.notifications + 1 }
  | .replies oracle, w => { w with oracle }
  | .clock epochSeconds, w => { w with clock := epochSeconds }
  | .register workflow, w => { w with workflows := (workflow.id.key, workflow) :: w.workflows }
  | .store op, w =>
      { w with
        store := op.apply w.store
        journal := w.journal ++ [{ op, foreign := true, accepted := true }] }
  | .drawUuids count, w => { w with uuids := w.uuids + count }

/-- The executor of the engine. -/
def engine : Handler engineSig :=
  { mode := Act.mode, perform := perform, fires := Alarm.fires, Env := Disturbance, disturb := disturb }

/-- The fallible asynchronous functions of the engine. -/
abbrev Run (α : Type) := ExceptT WorkflowError (Program engineSig) α

/-- The asynchronous functions of the engine that cannot fail. -/
abbrev Future (α : Type) := Program engineSig α

def ask (a : Act) : Future a.Resp := @Program.request engineSig a

/-- Takes a note, and remembers where. -/
def mark (n : Note) : Future Nat := ask (.note n)

def note (n : Note) : Future Unit := do
  let _ ← mark n
  return ()

def isCancelled : Future Bool := ask .isCancelled

def loadEnded : Future Bool := ask .loadEnded

def getLocal : Future TaskLocal := ask .getLocal

def notified : Future Nat := ask .notified

/-- Sleeps until the timer fires (`false`) or a notification comes (`true`). -/
def sleep (duration epoch : Nat) : Future Bool := ask (.sleep duration epoch)

def receive (epoch : Nat) : Future (Option (Option EventMessage)) := ask (.receive epoch)

def jitter (range : Nat) : Future Nat := ask (.jitter range)

def epochSeconds : Future Int := ask .epochSeconds

def newUuid : Future String := ask .newUuid

def findWorkflow (key : String) : Future (Option CompiledWorkflow) := ask (.findWorkflow key)

def publish (event : EventMessage) : Run Unit := ExceptT.mk (ask (.publish none event))

/-- Publishes a lifecycle event of an execution. -/
def announce (executionId : String) (event : EventMessage) : Run Unit :=
  ExceptT.mk (ask (.publish (some executionId) event))

def subscribe : Run Unit := ExceptT.mk (ask .subscribe)

def runProcess (request : ProcessRequest) : Run ProcessResult := ExceptT.mk (ask (.process request))

def store (op : StoreOp) : Future (Except WorkflowError Unit) := ask (.store op)

def load (executionId : String) : Run (Option ExecutionRecord) := ExceptT.mk (ask (.load executionId))

/-- The result of a future, for the caller to look at. -/
def outcome {α : Type} (future : Run α) : Run (Except WorkflowError α) :=
  ExceptT.lift future.run

/-- A fallible computation that neither waits nor changes anything. -/
def Run.ofExcept {α : Type} (result : Except WorkflowError α) : Run α :=
  ExceptT.mk (Program.done result)

end OwsRuntime
