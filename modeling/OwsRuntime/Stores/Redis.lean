import Mathlib.Logic.Function.Basic
import OwsRuntime.Stores.Sqlite

/-! The execution store in a key-value server: a record is a JSON text under the key of its
execution, and the events of an execution are a list of JSON texts under another key. The
server and the derived JSON form of records and events are parameters. -/
namespace OwsRuntime

/-- The commands of a key-value server which the store uses. Each of them is answered, or fails
with a message. -/
structure KeyValueServer (σ : Type) where
  set : σ → String → String → σ × Except String Unit
  get : σ → String → σ × Except String (Option String)
  rpush : σ → String → String → σ × Except String Unit
  lrange : σ → String → Int → Int → σ × Except String (List String)

variable {σ : Type}

/-- What the documentation of the commands says, where a key holds a string or the items of a
list: a command that fails has changed nothing, `SET` replaces the string of its key, `GET`
answers it, `RPUSH` puts an item behind those of its key, and `LRANGE` from the first index to
the last one answers them all. -/
structure KeyValueServer.Keeps (server : KeyValueServer σ) (text : σ → String → Option String)
    (items : σ → String → List String) : Prop where
  set_ok : ∀ {s key written s'}, server.set s key written = (s', .ok ()) →
    text s' = Function.update (text s) key (some written) ∧ ∀ other ≠ key, items s' other = items s other
  set_error : ∀ {s key written s' message}, server.set s key written = (s', .error message) →
    text s' = text s ∧ items s' = items s
  get_ok : ∀ {s key s' found}, server.get s key = (s', .ok found) → found = text s key
  get_keeps : ∀ s key, text (server.get s key).1 = text s ∧ items (server.get s key).1 = items s
  rpush_ok : ∀ {s key item s'}, server.rpush s key item = (s', .ok ()) →
    items s' = Function.update (items s) key (items s key ++ [item]) ∧
      ∀ other ≠ key, text s' other = text s other
  rpush_error : ∀ {s key item s' message}, server.rpush s key item = (s', .error message) →
    text s' = text s ∧ items s' = items s
  lrange_ok : ∀ {s key s' found}, server.lrange s key 0 (-1) = (s', .ok found) → found = items s key
  lrange_keeps : ∀ s key, text (server.lrange s key 0 (-1)).1 = text s ∧
    items (server.lrange s key 0 (-1)).1 = items s

/-- The derived JSON writers and readers of records and events. -/
structure DerivedJson where
  recordToString : ExecutionRecord → Except String String
  recordFromStr : String → Except String ExecutionRecord
  eventToString : StoredEvent → Except String String
  eventFromStr : String → Except String StoredEvent

/-- A record whose error, where it is `null`, is forgotten. -/
def ExecutionRecord.forgetNull (record : ExecutionRecord) : ExecutionRecord :=
  { record with error := record.error.filter (· ≠ .null) }

/-- What an operation has written is read back. An optional value that is `null` is read as
none. -/
def DerivedJson.ReadsBack (json : DerivedJson) : StoreOperation → Prop
  | .create record => ∀ text, json.recordToString record = .ok text →
      json.recordFromStr text = .ok record.forgetNull
  | .update record => ∀ text, json.recordToString record = .ok text →
      json.recordFromStr text = .ok record.forgetNull
  | .appendEvent event _ => ∀ text, json.eventToString event = .ok text →
      json.eventFromStr text = .ok event
  | .load _ => True
  | .events _ => True

namespace RedisExecutionStore

def dbError (context err : String) : WorkflowError :=
  runtimeError ("redis store " ++ context ++ ": " ++ err)

def recordKey (id : String) : String := "ows:exec:" ++ id

def eventsKey (id : String) : String := "ows:exec_events:" ++ id

variable (json : DerivedJson) (server : KeyValueServer σ)

/-- Creating and updating a record are the same. -/
def create (s : σ) (record : ExecutionRecord) : σ × Except WorkflowError Unit :=
  Machines.write ((json.recordToString record).mapError (dbError "encoding"))
    (server.set s (recordKey record.executionId)) (dbError "create") s

def load (s : σ) (executionId : String) : σ × Except WorkflowError (Option ExecutionRecord) :=
  let (s', reply) := server.get s (recordKey executionId)
  (s', do
    match ← reply.mapError (dbError "load") with
    | some text => ((json.recordFromStr text).map some).mapError (dbError "decoding")
    | none => return none)

def appendEvent (s : σ) (event : StoredEvent) : σ × Except WorkflowError Unit :=
  Machines.write ((json.eventToString event).mapError (dbError "encoding"))
    (server.rpush s (eventsKey event.executionId)) (dbError "append_event") s

def decodeEvents : List String → Except WorkflowError (List StoredEvent)
  | [] => .ok []
  | text :: texts => do
      let event ← (json.eventFromStr text).mapError (dbError "decoding event")
      let events ← decodeEvents texts
      return event :: events

def eventsOf (s : σ) (executionId : String) : σ × Except WorkflowError (List StoredEvent) :=
  let (s', reply) := server.lrange s (eventsKey executionId) 0 (-1)
  (s', do decodeEvents json (← reply.mapError (dbError "events")))

def step (s : σ) : StoreOperation → σ × Except WorkflowError StoreResult
  | .create record => (create json server s record).map id (·.map fun _ => .done)
  | .update record => (create json server s record).map id (·.map fun _ => .done)
  | .load executionId => (load json server s executionId).map id (·.map .record)
  | .appendEvent event _ => (appendEvent json server s event).map id (·.map fun _ => .done)
  | .events executionId => (eventsOf json server s executionId).map id (·.map .events)

/-- What becomes of the command of an operation: there is none, as its object cannot be written,
or the server fails, or it answers. -/
def command (s : σ) : StoreOperation → σ × Except WorkflowError Unit
  | .create record => create json server s record
  | .update record => create json server s record
  | .load executionId =>
      (server.get s (recordKey executionId)).map id fun reply =>
        (reply.mapError (dbError "load")).map fun _ => ()
  | .appendEvent event _ => appendEvent json server s event
  | .events executionId =>
      (server.lrange s (eventsKey executionId) 0 (-1)).map id fun reply =>
        (reply.mapError (dbError "events")).map fun _ => ()

end RedisExecutionStore

end OwsRuntime
