import Mathlib.Logic.Function.Basic
import OwsRuntime.Stores.Sqlite

/-! The execution store in a database server. Its rows are those of the other database; the
server, which may fail in any statement, is a parameter. -/
namespace OwsRuntime

/-- The statements of the store to a database server: each of them is carried out, or fails with
a message. -/
structure PostgresServer (σ : Type) where
  upsertExecution : σ → ExecutionRow → σ × Except String Unit
  selectExecution : σ → String → σ × Except String (Option ExecutionRow)
  insertEvent : σ → EventRow → σ × Except String Unit
  selectEvents : σ → String → σ × Except String (List EventRow)

variable {σ : Type}

/-- What the documentation of the statements says, where the server holds an execution row under
a primary key, or none, and rows of events with increasing numbers: a statement that fails has
changed nothing, `INSERT … ON CONFLICT DO UPDATE` replaces the row with its key, `INSERT` adds a
row behind the others, and `SELECT` finds the row with a key, or those of an execution in the
order of their numbers. -/
structure PostgresServer.Keeps (server : PostgresServer σ) (row : σ → String → Option ExecutionRow)
    (events : σ → List EventRow) : Prop where
  upsert_ok : ∀ {s written s'}, server.upsertExecution s written = (s', .ok ()) →
    row s' = Function.update (row s) written.executionId (some written) ∧ events s' = events s
  upsert_error : ∀ {s written s' message},
    server.upsertExecution s written = (s', .error message) → row s' = row s ∧ events s' = events s
  selectExecution_ok : ∀ {s executionId s' found},
    server.selectExecution s executionId = (s', .ok found) → found = row s executionId
  selectExecution_keeps : ∀ s executionId, row (server.selectExecution s executionId).1 = row s ∧
    events (server.selectExecution s executionId).1 = events s
  insert_ok : ∀ {s written s'}, server.insertEvent s written = (s', .ok ()) →
    row s' = row s ∧ events s' = events s ++ [written]
  insert_error : ∀ {s written s' message},
    server.insertEvent s written = (s', .error message) → row s' = row s ∧ events s' = events s
  selectEvents_ok : ∀ {s executionId s' found},
    server.selectEvents s executionId = (s', .ok found) →
      found = (events s).filter fun row => row.executionId == executionId
  selectEvents_keeps : ∀ s executionId, row (server.selectEvents s executionId).1 = row s ∧
    events (server.selectEvents s executionId).1 = events s

namespace PostgresExecutionStore

def dbError (context err : String) : WorkflowError :=
  runtimeError ("postgres store " ++ context ++ ": " ++ err)

def parsePhase (text : String) : Except WorkflowError Phase :=
  if text = "pending" then .ok .pending
  else if text = "running" then .ok .running
  else if text = "waiting" then .ok .waiting
  else if text = "suspended" then .ok .suspended
  else if text = "cancelled" then .ok .cancelled
  else if text = "faulted" then .ok .faulted
  else if text = "completed" then .ok .completed
  else .error (dbError "load" ("unknown phase `" ++ text ++ "`"))

@[simp] theorem parsePhase_display (phase : Phase) : parsePhase phase.display = .ok phase := by
  cases phase <;> rfl

section Rows

variable (json : JsonText)

def encodeJson (v : Value) : Except WorkflowError String :=
  (json.toString v).mapError (dbError "encoding value")

def decodeJson (text : String) : Except WorkflowError Value :=
  (json.fromStr text).mapError (dbError "decoding value")

/-- An optional value. Its absence is a `NULL`, unlike the value `null`. -/
def encodeError : Option Value → Except WorkflowError (Option String)
  | some error => (encodeJson json error).map some
  | none => .ok none

def decodeError : Option String → Except WorkflowError (Option Value)
  | some text => (decodeJson json text).map some
  | none => .ok none

def rowOfRecord (record : ExecutionRecord) : Except WorkflowError ExecutionRow := do
  let context ← encodeJson json record.context
  let pointer ← encodeJson json record.pointer
  let error ← encodeError json record.error
  return { executionId := record.executionId, workflow := record.workflow
           namespace_ := record.namespace_, name := record.name, version := record.version
           phase := record.phase.display, context, pointer, error, startedAt := record.startedAt }

/-- The phase is parsed before the JSON values. -/
def recordFromRow (row : ExecutionRow) : Except WorkflowError ExecutionRecord := do
  let phase ← parsePhase row.phase
  let context ← decodeJson json row.context
  let pointer ← decodeJson json row.pointer
  let error ← decodeError json row.error
  return { executionId := row.executionId, workflow := row.workflow
           namespace_ := row.namespace_, name := row.name, version := row.version
           phase, context, pointer, error, startedAt := row.startedAt }

def rowOfEvent (event : StoredEvent) : Except WorkflowError EventRow := do
  let payload ← encodeJson json event.payload
  return { executionId := event.executionId, sequence := u64AsI64 event.sequence
           eventType := event.eventType, payload, timestamp := event.timestamp }

def eventFromRow (row : EventRow) : Except WorkflowError StoredEvent := do
  let payload ← decodeJson json row.payload
  return { executionId := row.executionId, sequence := i64AsU64 row.sequence
           eventType := row.eventType, payload, timestamp := row.timestamp }

def eventsFromRows : List EventRow → Except WorkflowError (List StoredEvent)
  | [] => .ok []
  | row :: rows => do
      let event ← eventFromRow json row
      let events ← eventsFromRows rows
      return event :: events

end Rows

variable (json : JsonText) (server : PostgresServer σ)

/-- Both creating and updating a record insert its row, or update the one with its id. -/
def create (s : σ) (record : ExecutionRecord) : σ × Except WorkflowError Unit :=
  Machines.write (rowOfRecord json record) (server.upsertExecution s) (dbError "create") s

def load (s : σ) (executionId : String) : σ × Except WorkflowError (Option ExecutionRecord) :=
  let (s', reply) := server.selectExecution s executionId
  (s', do
    match ← reply.mapError (dbError "load") with
    | some row => (recordFromRow json row).map some
    | none => return none)

def appendEvent (s : σ) (event : StoredEvent) : σ × Except WorkflowError Unit :=
  Machines.write (rowOfEvent json event) (server.insertEvent s) (dbError "append_event") s

def eventsOf (s : σ) (executionId : String) : σ × Except WorkflowError (List StoredEvent) :=
  let (s', reply) := server.selectEvents s executionId
  (s', do eventsFromRows json (← reply.mapError (dbError "events")))

def step (s : σ) : StoreOperation → σ × Except WorkflowError StoreResult
  | .create record => (create json server s record).map id (·.map fun _ => .done)
  | .update record => (create json server s record).map id (·.map fun _ => .done)
  | .load executionId => (load json server s executionId).map id (·.map .record)
  | .appendEvent event _ => (appendEvent json server s event).map id (·.map fun _ => .done)
  | .events executionId => (eventsOf json server s executionId).map id (·.map .events)

/-- What becomes of the statement of an operation: there is none, as its row cannot be written,
or the server fails, or it is carried out. -/
def statement (s : σ) : StoreOperation → σ × Except WorkflowError Unit
  | .create record => create json server s record
  | .update record => create json server s record
  | .load executionId =>
      (server.selectExecution s executionId).map id fun reply =>
        (reply.mapError (dbError "load")).map fun _ => ()
  | .appendEvent event _ => appendEvent json server s event
  | .events executionId =>
      (server.selectEvents s executionId).map id fun reply =>
        (reply.mapError (dbError "events")).map fun _ => ()

end PostgresExecutionStore

end OwsRuntime
