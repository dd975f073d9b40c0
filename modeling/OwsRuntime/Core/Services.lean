import OwsRuntime.Core.Expression

/-! The records which the runtime exchanges with its services: policies, stored
executions, events, processes and function calls. -/
namespace OwsRuntime

/-- The execution policy. Durations are in nanoseconds. -/
structure RuntimePolicy where
  maxExecutionTime : Option Nat
  maxTaskTime : Option Nat
  maxParallelTasks : Nat
  maxLoopIterations : Nat
  maxPayloadSize : Option Nat
  maxRetryAttempts : Nat
  allowScripts : Bool
  allowContainers : Bool
  allowNetwork : Bool
  allowedHosts : List String
  allowedSchemes : List String
deriving DecidableEq, Repr

namespace RuntimePolicy

def default : RuntimePolicy :=
  { maxExecutionTime := none, maxTaskTime := none, maxParallelTasks := 1024
    maxLoopIterations := 1000000, maxPayloadSize := none, maxRetryAttempts := 10
    allowScripts := false, allowContainers := false, allowNetwork := false
    allowedHosts := [], allowedSchemes := [] }

def hostAllowed (p : RuntimePolicy) (host : String) : Bool :=
  p.allowNetwork &&
    (p.allowedHosts.isEmpty ||
      p.allowedHosts.any fun allowed =>
        host == allowed || (("." ++ allowed).toList).isSuffixOf host.toList)

def schemeAllowed (p : RuntimePolicy) (scheme : String) : Bool :=
  p.allowNetwork && (p.allowedSchemes.isEmpty || p.allowedSchemes.any fun s => s == scheme)

end RuntimePolicy

/-- The status phases of an execution. -/
inductive Phase where
  | pending
  | running
  | waiting
  | suspended
  | cancelled
  | faulted
  | completed
deriving DecidableEq, Repr

namespace Phase

def isTerminal : Phase → Bool
  | cancelled => true
  | faulted => true
  | completed => true
  | _ => false

def display : Phase → String
  | pending => "pending"
  | running => "running"
  | waiting => "waiting"
  | suspended => "suspended"
  | cancelled => "cancelled"
  | faulted => "faulted"
  | completed => "completed"

end Phase

structure ExecutionRecord where
  executionId : String
  workflow : String
  namespace_ : String
  name : String
  version : String
  phase : Phase
  context : Value
  pointer : Value
  error : Option Value
  startedAt : Int
deriving DecidableEq, Repr

structure StoredEvent where
  executionId : String
  sequence : Nat
  eventType : String
  payload : Value
  timestamp : Int
deriving DecidableEq, Repr

/-- The contents of an execution store. -/
structure ExecutionStore where
  records : List (String × ExecutionRecord)
  events : List StoredEvent
deriving DecidableEq, Repr

namespace ExecutionStore

/-- Creating and updating a record both insert it under its execution id. -/
def insert (store : ExecutionStore) (record : ExecutionRecord) : ExecutionStore :=
  { store with
    records := (record.executionId, record) ::
      store.records.filter fun entry => entry.1 != record.executionId }

def load (store : ExecutionStore) (executionId : String) : Option ExecutionRecord :=
  store.records.lookup executionId

def appendEvent (store : ExecutionStore) (event : StoredEvent) : ExecutionStore :=
  { store with events := store.events ++ [event] }

@[simp] theorem load_insert (store : ExecutionStore) (record : ExecutionRecord) :
    (store.insert record).load record.executionId = some record := by
  simp [insert, load]

end ExecutionStore

structure EventMessage where
  id : String
  source : String
  type : String
  time : Option String
  subject : Option String
  dataContentType : Option String
  dataSchema : Option String
  data : Option Value
  extensions : Map
deriving DecidableEq, Repr

/-- A cloud event. The specification version is the same for all of them. -/
structure CloudEvent where
  id : String
  source : String
  type : String
  time : Option String
  subject : Option String
  dataContentType : Option String
  dataSchema : Option String
  data : Option Value
  extensions : Map
deriving DecidableEq, Repr

namespace CloudEvent

def new (id source type : String) : CloudEvent :=
  { id, source, type, time := none, subject := none, dataContentType := none
    dataSchema := none, data := none, extensions := [] }

def toMessage (e : CloudEvent) : EventMessage :=
  { id := e.id, source := e.source, type := e.type, time := e.time, subject := e.subject
    dataContentType := e.dataContentType, dataSchema := e.dataSchema, data := e.data
    extensions := e.extensions }

def fromMessage (m : EventMessage) : CloudEvent :=
  { id := m.id, source := m.source, type := m.type, time := m.time, subject := m.subject
    dataContentType := m.dataContentType, dataSchema := m.dataSchema, data := m.data
    extensions := Map.extend [] m.extensions }

/-- The serialized event. Extension attributes stand beside the others. -/
def toValue (e : CloudEvent) : Value :=
  let fields : Map :=
    [("id", .string e.id), ("source", .string e.source), ("type", .string e.type),
      ("specversion", .string "1.0")] ++
    (e.time.map fun v => ("time", Value.string v)).toList ++
    (e.subject.map fun v => ("subject", Value.string v)).toList ++
    (e.dataContentType.map fun v => ("datacontenttype", Value.string v)).toList ++
    (e.dataSchema.map fun v => ("dataschema", Value.string v)).toList ++
    (e.data.map fun v => ("data", v)).toList
  .object (Map.extend [] (fields ++ e.extensions))

end CloudEvent

namespace F64

def zero : F64 := { negative := false, mantissa := 0, exponent := 0, bound := by decide, normal := by decide }

/-- Drops factors of two from a mantissa. The first argument bounds how many. -/
def normalize (negative : Bool) : Nat → Nat → Int → F64
  | 0, _, _ => zero
  | fuel + 1, m, e =>
      if h : m % 2 = 1 ∧ m < 2 ^ 53 then
        { negative, mantissa := m, exponent := e, bound := h.2, normal := Or.inl h.1 }
      else normalize negative fuel (m / 2) (e + 1)

/-- Rounds an integer to the nearest number, ties going to the even one. -/
def ofInt (n : Int) : F64 :=
  let m := n.natAbs
  if m < 2 ^ 53 then normalize (n < 0) 54 m 0
  else
    let shift := m.log2 - 52
    let q := m / 2 ^ shift
    let r := m % 2 ^ shift
    let half := 2 ^ (shift - 1)
    let rounded := if half < r ∨ (r = half ∧ q % 2 = 1) then q + 1 else q
    normalize (n < 0) 55 rounded shift

/-- Numeric equality, which ignores the sign of zero. -/
def eq (x y : F64) : Bool :=
  x.mantissa == y.mantissa && x.exponent == y.exponent &&
    (x.negative == y.negative || x.mantissa == 0)

end F64

def Number.asF64 : Number → F64
  | .int n => F64.ofInt n
  | .float x => x

mutual

/-- Equality of values, which treats numbers numerically. -/
def valuesEqual : Value → Value → Bool
  | .number x, .number y => x.asF64.eq y.asF64
  | .object x, .object y => x.length == y.length && entriesEqual x y
  | .array x, .array y => x.length == y.length && itemsEqual x y
  | a, b => a == b

def entriesEqual : List (String × Value) → List (String × Value) → Bool
  | [], _ => true
  | (k, v) :: rest, y =>
      (match y.lookup k with
        | some w => valuesEqual v w
        | none => false) && entriesEqual rest y

def itemsEqual : List Value → List Value → Bool
  | a :: as, b :: bs => valuesEqual a b && itemsEqual as bs
  | _, _ => true

end

attribute [grind =] valuesEqual entriesEqual itemsEqual

/-- Constraints on the attributes of an event. -/
structure EventMatcher where
  type : Option String
  source : Option String
  subject : Option String
  attributes : List (String × Value)
deriving DecidableEq, Repr

namespace EventMatcher

/-- The attribute of an event which a constraint names. -/
def attributeOf (event : CloudEvent) (key : String) : Value :=
  if key = "type" then .string event.type
  else if key = "source" then .string event.source
  else if key = "subject" then (event.subject.map Value.string).getD .null
  else if key = "data" then event.data.getD .null
  else if key = "id" then .string event.id
  else ((event.extensions.lookup key).orElse fun _ => event.data.bind (·.get? key)).getD .null

def matches_ (m : EventMatcher) (event : CloudEvent) : Bool :=
  (m.type.all fun t => t == event.type) &&
  (m.source.all fun s => s == event.source) &&
  (m.subject.all fun s => s == event.subject.getD "") &&
  m.attributes.all fun constraint =>
    valuesEqual (attributeOf event constraint.1) constraint.2

end EventMatcher

structure ProcessResult where
  code : Option Int
  stdout : Option String
  stderr : Option String
deriving DecidableEq, Repr

def ProcessResult.toValue (r : ProcessResult) : Value :=
  .object [("code", (r.code.map Value.ofInt).getD .null),
    ("stderr", (r.stderr.map Value.string).getD .null),
    ("stdout", (r.stdout.map Value.string).getD .null)]

/-- What a process runner is asked to run. -/
inductive ProcessRequest where
  | shell (command : String) (args : List String) (env : List (String × String))
      (stdin : Option String)
  | script (language code : String) (args : List String) (env : List (String × String))
      (stdin : Option String)
  | container (image : String) (args : List String) (env : List (String × String))
      (stdin : Option String)
deriving DecidableEq, Repr

/-- A call of a workflow function. -/
structure FunctionRequest where
  name : String
  args : Map
  context : ExpressionContext
deriving DecidableEq, Repr

/-- The HTTP request of the bundled function. -/
structure HttpRequest where
  method : String
  uri : String
  headers : List (String × String)
  query : Option (List (String × String))
  body : Option Value
deriving DecidableEq, Repr

structure HttpResponse where
  status : Nat
  headers : List (String × String)
  body : List UInt8
deriving DecidableEq, Repr

end OwsRuntime
