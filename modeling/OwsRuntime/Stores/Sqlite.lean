import OwsRuntime.Core.Services
import OwsRuntime.Stores.Machines
import OwsRuntime.Stores.Tables

/-! The execution stores: the one in memory, and the one in a database. In the database
phases and JSON values are texts, and sequence numbers are signed. Every operation of a
store takes its lock, so that a run of a store is a sequence of operations. -/
namespace OwsRuntime

/-- The JSON writer and reader. -/
structure JsonText where
  toString : Value → Except String String
  fromStr : String → Except String Value

/-- A value which is read back from its text. -/
def JsonText.RoundTrips (json : JsonText) (v : Value) : Prop :=
  ∃ text, json.toString v = .ok text ∧ json.fromStr text = .ok v

inductive StoreOperation where
  | create (record : ExecutionRecord)
  | update (record : ExecutionRecord)
  | load (executionId : String)
  | appendEvent (event : StoredEvent) (bound : event.sequence < 2 ^ 64)
  | events (executionId : String)

/-- The JSON values which an operation hands to the store. -/
def StoreOperation.values : StoreOperation → List Value
  | create record => record.context :: record.pointer :: record.error.toList
  | update record => record.context :: record.pointer :: record.error.toList
  | appendEvent event _ => [event.payload]
  | load _ => []
  | events _ => []

inductive StoreResult where
  | done
  | record (found : Option ExecutionRecord)
  | events (found : List StoredEvent)
deriving DecidableEq, Repr

/-- The store in memory, to which its two operations for the events of an execution belong. -/
def ExecutionStore.empty : ExecutionStore := ⟨[], []⟩

def ExecutionStore.eventsOf (store : ExecutionStore) (executionId : String) : List StoredEvent :=
  store.events.filter fun event => event.executionId == executionId

def InMemoryExecutionStore.step (store : ExecutionStore) :
    StoreOperation → ExecutionStore × Except WorkflowError StoreResult
  | .create record => (store.insert record, .ok .done)
  | .update record => (store.insert record, .ok .done)
  | .load executionId => (store, .ok (.record (store.load executionId)))
  | .appendEvent event _ => (store.appendEvent event, .ok .done)
  | .events executionId => (store, .ok (.events (store.eventsOf executionId)))

/-- A row of the `executions` table. -/
structure ExecutionRow where
  executionId : String
  workflow : String
  namespace_ : String
  name : String
  version : String
  phase : String
  context : String
  pointer : String
  error : Option String
  startedAt : Int
deriving DecidableEq, Repr

/-- A row of the `events` table, up to its number. -/
structure EventRow where
  executionId : String
  sequence : Int
  eventType : String
  payload : String
  timestamp : Int
deriving DecidableEq, Repr

structure SqliteExecutionStore where
  executions : Tables.Keyed String ExecutionRow ExecutionRow.executionId
  events : Tables.Serial EventRow

/-- The cast of an unsigned 64-bit integer to a signed one. -/
def u64AsI64 (n : Nat) : Int := Int.bmod n (2 ^ 64)

/-- The cast of a signed 64-bit integer to an unsigned one. -/
def i64AsU64 (n : Int) : Nat := (n % 2 ^ 64).toNat

@[simp] theorem i64AsU64_u64AsI64 {n : Nat} (h : n < 2 ^ 64) : i64AsU64 (u64AsI64 n) = n := by
  have hMod := Int.bmod_emod (x := n) (m := 2 ^ 64)
  unfold i64AsU64 u64AsI64
  omega

def dbError (context err : String) : WorkflowError :=
  runtimeError ("sqlite store " ++ context ++ ": " ++ err)

/-- The phase of a row, read back from its text. -/
def phaseOfText (text : String) : Except WorkflowError Phase :=
  if text = "pending" then .ok .pending
  else if text = "running" then .ok .running
  else if text = "waiting" then .ok .waiting
  else if text = "suspended" then .ok .suspended
  else if text = "cancelled" then .ok .cancelled
  else if text = "faulted" then .ok .faulted
  else if text = "completed" then .ok .completed
  else .error (dbError "load" ("unknown phase `" ++ text ++ "`"))

@[simp] theorem phaseOfText_display (phase : Phase) : phaseOfText phase.display = .ok phase := by
  cases phase <;> rfl

variable (json : JsonText)

def encodeJson (v : Value) : Except WorkflowError String :=
  (json.toString v).mapError (dbError "encoding value")

def decodeJson (text : String) : Except WorkflowError Value :=
  (json.fromStr text).mapError (dbError "decoding value")

/-- An optional value. Its absence is a `NULL`, unlike the value `null`. -/
def encodeError : Option Value → Except WorkflowError (Option String)
  | some error => (encodeJson json error).map some
  | none => .ok none

def decodeError : Option String → Except WorkflowError (Option Value)
  | some text => (decodeJson json text).map some
  | none => .ok none

def rowOfRecord (record : ExecutionRecord) : Except WorkflowError ExecutionRow := do
  let context ← encodeJson json record.context
  let pointer ← encodeJson json record.pointer
  let error ← encodeError json record.error
  return { executionId := record.executionId, workflow := record.workflow
           namespace_ := record.namespace_, name := record.name, version := record.version
           phase := record.phase.display, context, pointer, error, startedAt := record.startedAt }

def recordFromRow (row : ExecutionRow) : Except WorkflowError ExecutionRecord := do
  let phase ← phaseOfText row.phase
  let context ← decodeJson json row.context
  let pointer ← decodeJson json row.pointer
  let error ← decodeError json row.error
  return { executionId := row.executionId, workflow := row.workflow
           namespace_ := row.namespace_, name := row.name, version := row.version
           phase, context, pointer, error, startedAt := row.startedAt }

def rowOfEvent (event : StoredEvent) : Except WorkflowError EventRow := do
  let payload ← encodeJson json event.payload
  return { executionId := event.executionId, sequence := u64AsI64 event.sequence
           eventType := event.eventType, payload, timestamp := event.timestamp }

def eventFromRow (row : EventRow) : Except WorkflowError StoredEvent := do
  let payload ← decodeJson json row.payload
  return { executionId := row.executionId, sequence := i64AsU64 row.sequence
           eventType := row.eventType, payload, timestamp := row.timestamp }

def eventsFromRows : List EventRow → Except WorkflowError (List StoredEvent)
  | [] => .ok []
  | row :: rows => do
      let event ← eventFromRow json row
      let events ← eventsFromRows rows
      return event :: events

namespace SqliteExecutionStore

/-- A database with its two tables, both without rows. -/
def empty : SqliteExecutionStore := ⟨.empty _, .empty⟩

/-- Both creating and updating a record insert its row, or update the one with its id. -/
def create (store : SqliteExecutionStore) (record : ExecutionRecord) :
    SqliteExecutionStore × Except WorkflowError StoreResult :=
  match rowOfRecord json record with
  | .ok row => ({ store with executions := store.executions.upsert row }, .ok .done)
  | .error e => (store, .error e)

def load (store : SqliteExecutionStore) (executionId : String) :
    Except WorkflowError (Option ExecutionRecord) :=
  match store.executions.select executionId with
  | some row => (recordFromRow json row).map some
  | none => .ok none

def appendEvent (store : SqliteExecutionStore) (event : StoredEvent) :
    SqliteExecutionStore × Except WorkflowError StoreResult :=
  match rowOfEvent json event with
  | .ok row => ({ store with events := store.events.insert row }, .ok .done)
  | .error e => (store, .error e)

def eventsOf (store : SqliteExecutionStore) (executionId : String) :
    Except WorkflowError (List StoredEvent) :=
  eventsFromRows json (store.events.select fun row => row.executionId == executionId)

def step (store : SqliteExecutionStore) :
    StoreOperation → SqliteExecutionStore × Except WorkflowError StoreResult
  | .create record => store.create json record
  | .update record => store.create json record
  | .load executionId => (store, (store.load json executionId).map .record)
  | .appendEvent event _ => store.appendEvent json event
  | .events executionId => (store, (store.eventsOf json executionId).map .events)

end SqliteExecutionStore

/-- The results of a sequence of operations. -/
def results {σ : Type} (step : σ → StoreOperation → σ × Except WorkflowError StoreResult) (store : σ) :
    List StoreOperation → List (Except WorkflowError StoreResult)
  | [] => []
  | operation :: rest =>
      (step store operation).2 :: results step (step store operation).1 rest

/-- They are the outputs of a machine. -/
theorem results_eq_outputs {σ : Type}
    (step : σ → StoreOperation → σ × Except WorkflowError StoreResult) (store : σ)
    (operations : List StoreOperation) :
    results step store operations = Machines.outputs step store operations := by
  induction operations generalizing store with
  | nil => rfl
  | cons operation rest ih => rw [results, Machines.outputs, ih]

end OwsRuntime
