import OwsRuntime.Core.Services
import OwsRuntime.Expressions.Lexer

/-! The two encoders of lifecycle events for an OpenTelemetry collector: one writes
proto-JSON, the other one builds the protobuf messages. -/
namespace OwsRuntime

/-- What the encoders take from outside: the standard hasher on a counter and a seed, the
nanoseconds since the epoch which a timestamp denotes, and the text of a float. -/
structure Exporter where
  hash : Nat → String → UInt64
  timestampNanos : String → Option Int
  formatFloat : F64 → String

namespace Exporter

variable (exporter : Exporter)

/-- The sixteen hexadecimal digits of a word. -/
def hexWord (n : Nat) : List Char :=
  (List.range 16).map fun i => Nat.digitChar (n / 16 ^ (15 - i) % 16)

/-- Appends hashes until there are enough digits. Every round adds sixteen of them, so that
as many rounds as bytes are always enough. -/
def hashDigits (seed : String) (bytes : Nat) : Nat → Nat → List Char → List Char
  | 0, _, out => out
  | rounds + 1, counter, out =>
      if out.length < bytes * 2 then
        hashDigits seed bytes rounds (counter + 1)
          (out ++ hexWord (exporter.hash counter seed).toNat)
      else out

/-- The first digit of an id that would be zero. -/
def avoidZero (digits : List Char) : List Char :=
  if digits.all fun c => c == '0' then digits.set 0 '1' else digits

/-- An id of the given number of bytes, as hexadecimal digits. -/
def hashHex (seed : String) (bytes : Nat) : List Char :=
  avoidZero ((exporter.hashDigits seed bytes bytes 0 []).take (bytes * 2))

/-- The nanoseconds of an event, none of which are negative. -/
def eventTimeNanos (event : EventMessage) : Nat :=
  ((event.time.bind exporter.timestampNanos).map Int.toNat).getD 0

/-- The JSON text of the data of an event. -/
def dataText (data : Value) : String := data.display exporter.formatFloat

/-- The seed of the trace id: the source and the subject of an event. -/
def parentSeed (event : EventMessage) : String := event.source ++ "/" ++ event.subject.getD ""

/-- The event types which tell of an error. -/
def errored (event : EventMessage) : Bool :=
  ["faulted", "cancelled", "failed"].any fun word => decide (word.toList <:+: event.type.toList)

def statusCode (event : EventMessage) : Nat := if errored event then 2 else 1

/-- An attribute in JSON. -/
def attributeValue (key value : String) : Value :=
  .object [("key", .string key), ("value", .object [("stringValue", .string value)])]

def resourceValue (serviceName : String) : Value :=
  .object [("attributes", .array [attributeValue "service.name" serviceName])]

def scopeValue : Value := .object [("name", .string "ows-runtime")]

/-- The time of a log record in JSON, which may be negative. -/
def logTime (event : EventMessage) : Int := (event.time.bind exporter.timestampNanos).getD 0

/-- The attributes of a log record in JSON. -/
def logAttributes (event : EventMessage) (serviceName : String) : List Value :=
  [attributeValue "event.id" event.id, attributeValue "event.source" event.source,
    attributeValue "event.type" event.type, attributeValue "service.name" serviceName] ++
  (event.subject.map (attributeValue "event.subject")).toList ++
  (event.data.map fun data => attributeValue "event.data" (exporter.dataText data)).toList

def encodeLogRequest (event : EventMessage) (serviceName : String) : Value :=
  .object [("resourceLogs", .array [.object [
    ("resource", resourceValue serviceName),
    ("scopeLogs", .array [.object [
      ("logRecords", .array [.object [
        ("attributes", .array (exporter.logAttributes event serviceName)),
        ("body", .object [("stringValue", .string event.type)]),
        ("severityText", .string "INFO"),
        ("timeUnixNano", .string (toString (exporter.logTime event)))]]),
      ("scope", scopeValue)]])]])]

/-- The attributes of a span in JSON. -/
def traceAttributes (event : EventMessage) : List Value :=
  [attributeValue "event.id" event.id, attributeValue "event.source" event.source,
    attributeValue "event.type" event.type] ++
  (event.subject.map (attributeValue "event.subject")).toList ++
  (event.data.map fun data => attributeValue "event.data" (exporter.dataText data)).toList

def encodeTraceRequest (event : EventMessage) (serviceName : String) : Value :=
  .object [("resourceSpans", .array [.object [
    ("resource", resourceValue serviceName),
    ("scopeSpans", .array [.object [
      ("scope", scopeValue),
      ("spans", .array [.object [
        ("attributes", .array (exporter.traceAttributes event)),
        ("endTimeUnixNano", .string (toString (exporter.eventTimeNanos event))),
        ("kind", .ofNat 1),
        ("name", .string event.type),
        ("spanId", .string (String.ofList (exporter.hashHex event.id 8))),
        ("startTimeUnixNano", .string (toString (exporter.eventTimeNanos event))),
        ("status", .object [("code", .ofNat (statusCode event))]),
        ("traceId", .string (String.ofList (exporter.hashHex (parentSeed event) 16)))]])]])]])]

/-- An attribute of a message. All values are texts. -/
structure KeyValue where
  key : String
  value : String
deriving DecidableEq, Repr

structure LogRecord where
  timeUnixNano : Nat
  observedTimeUnixNano : Nat
  severityText : String
  body : String
  attributes : List KeyValue
deriving DecidableEq, Repr

/-- A span. Its ids are bytes. -/
structure Span where
  traceId : List Nat
  spanId : List Nat
  name : String
  kind : Nat
  startTimeUnixNano : Nat
  endTimeUnixNano : Nat
  attributes : List KeyValue
  statusCode : Nat
deriving DecidableEq, Repr

/-- The bytes of an id, from their digits. -/
def hexBytes (seed : String) (bytes : Nat) : List Nat :=
  (List.range bytes).map fun i =>
    (Jq.hexValue? (((exporter.hashHex seed bytes).drop (i * 2)).take 2)).getD 0

def logRecordFromEvent (event : EventMessage) : LogRecord where
  timeUnixNano := exporter.eventTimeNanos event
  observedTimeUnixNano := exporter.eventTimeNanos event
  severityText := "INFO"
  body := event.type
  attributes :=
    [⟨"event.id", event.id⟩, ⟨"event.source", event.source⟩, ⟨"event.type", event.type⟩] ++
    (event.subject.map (KeyValue.mk "event.subject")).toList ++
    (event.data.map fun data => KeyValue.mk "event.data" (exporter.dataText data)).toList

def spanFromEvent (event : EventMessage) : Span where
  traceId := exporter.hexBytes (parentSeed event) 16
  spanId := exporter.hexBytes event.id 8
  name := event.type
  kind := 1
  startTimeUnixNano := exporter.eventTimeNanos event
  endTimeUnixNano := exporter.eventTimeNanos event
  attributes :=
    [⟨"event.id", event.id⟩, ⟨"event.source", event.source⟩, ⟨"event.type", event.type⟩] ++
    (event.data.map fun data => KeyValue.mk "event.data" (exporter.dataText data)).toList
  statusCode := statusCode event

end Exporter

end OwsRuntime
