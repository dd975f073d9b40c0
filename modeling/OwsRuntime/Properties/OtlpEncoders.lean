import OwsRuntime.Observability.Otlp
import Mathlib.Tactic.Common

/-! The two encoders for a collector, compared. They disagree on every log record, and on
the span of every event with a subject. -/
namespace OwsRuntime.Exporter

section Identifiers

/-- Two hexadecimal digits of every byte. -/
def hexText (bytes : List Nat) : List Char :=
  bytes.flatMap fun byte => [Nat.digitChar (byte / 16), Nat.digitChar (byte % 16)]

/-- A lower case hexadecimal digit. -/
def IsHex (c : Char) : Prop := ∃ d < 16, c = Nat.digitChar d

theorem hexValue?_pair {a b : Nat} (hA : a < 16) (hB : b < 16) :
    Jq.hexValue? [Nat.digitChar a, Nat.digitChar b] = some (16 * a + b) := by
  have hAll : ∀ a < 16, ∀ b < 16,
      Jq.hexValue? [Nat.digitChar a, Nat.digitChar b] = some (16 * a + b) := by decide
  exact hAll a hA b hB

/-- Reading the digits pair by pair and writing the bytes gives the digits back. By
induction on the number of bytes, with the digits generalised. -/
theorem hexText_bytes {digits : List Char} {n : Nat} (hLength : digits.length = n * 2)
    (hHex : ∀ c ∈ digits, IsHex c) :
    hexText ((List.range n).map fun i =>
      (Jq.hexValue? ((digits.drop (i * 2)).take 2)).getD 0) = digits := by
  induction n generalizing digits with
  | zero =>
      rw [Nat.zero_mul, List.length_eq_zero_iff] at hLength
      subst hLength
      rfl
  | succ n ih =>
      obtain ⟨first, second, rest, rfl⟩ : ∃ first second rest, digits = first :: second :: rest := by
        cases digits with
        | nil => simp at hLength
        | cons first digits =>
            cases digits with
            | nil =>
                rw [List.length_singleton] at hLength
                omega
            | cons second rest => exact ⟨first, second, rest, rfl⟩
      have hRest : rest.length = n * 2 := by
        simp only [List.length_cons] at hLength
        omega
      obtain ⟨a, hA, rfl⟩ := hHex first (by simp)
      obtain ⟨b, hB, rfl⟩ := hHex second (by simp)
      have hTail := ih hRest fun c hMem => hHex c (by simp [hMem])
      have hDrop : ∀ i, (Nat.digitChar a :: Nat.digitChar b :: rest).drop ((i + 1) * 2) =
          rest.drop (i * 2) := by
        intro i
        rw [Nat.succ_mul]
        rfl
      have hHigh : (16 * a + b) / 16 = a := by omega
      have hLow : (16 * a + b) % 16 = b := by omega
      rw [List.range_succ_eq_map, List.map_cons, List.map_map]
      simp only [Function.comp_def, Nat.succ_eq_add_one, hDrop, Nat.zero_mul, List.drop_zero,
        List.take_succ_cons, List.take_zero, hexValue?_pair hA hB, Option.getD_some]
      rw [hexText, List.flatMap_cons, hHigh, hLow]
      exact congrArg (fun tail => Nat.digitChar a :: Nat.digitChar b :: tail) hTail

theorem isHex_of_mem_hexWord {n : Nat} {c : Char} (hMem : c ∈ hexWord n) : IsHex c := by
  obtain ⟨i, -, rfl⟩ := List.mem_map.mp hMem
  exact ⟨_, Nat.mod_lt _ (by decide), rfl⟩

theorem length_hexWord (n : Nat) : (hexWord n).length = 16 := by simp [hexWord]

variable {exporter : Exporter} {seed : String} {bytes : Nat}

theorem isHex_of_mem_hashDigits {rounds counter : Nat} {out : List Char}
    (hOut : ∀ c ∈ out, IsHex c) : ∀ c ∈ exporter.hashDigits seed bytes rounds counter out, IsHex c := by
  induction rounds generalizing counter out with
  | zero => exact hOut
  | succ rounds ih =>
      rw [hashDigits]
      split
      · apply ih
        intro c hMem
        rcases List.mem_append.mp hMem with hOld | hNew
        · exact hOut c hOld
        · exact isHex_of_mem_hexWord hNew
      · exact hOut

/-- With as many rounds as bytes are missing there are enough digits. -/
theorem length_hashDigits {rounds counter : Nat} {out : List Char}
    (hRounds : bytes * 2 ≤ out.length + rounds * 2) :
    bytes * 2 ≤ (exporter.hashDigits seed bytes rounds counter out).length := by
  induction rounds generalizing counter out with
  | zero =>
      rw [hashDigits]
      omega
  | succ rounds ih =>
      rw [hashDigits]
      split
      · apply ih
        rw [List.length_append, length_hexWord]
        omega
      · omega

theorem isHex_avoidZero {digits : List Char} (hHex : ∀ c ∈ digits, IsHex c) :
    ∀ c ∈ avoidZero digits, IsHex c := by
  intro c hMem
  rw [avoidZero] at hMem
  split at hMem
  · rcases List.mem_or_eq_of_mem_set hMem with hOld | rfl
    · exact hHex c hOld
    · exact ⟨1, by decide, rfl⟩
  · exact hHex c hMem

theorem length_avoidZero (digits : List Char) : (avoidZero digits).length = digits.length := by
  rw [avoidZero]
  split <;> simp

/-- The digits of an id in JSON are those of its bytes in the message. -/
theorem hexText_hexBytes : hexText (exporter.hexBytes seed bytes) = exporter.hashHex seed bytes := by
  apply hexText_bytes
  · have hEnough : bytes * 2 ≤ (exporter.hashDigits seed bytes bytes 0 []).length :=
      length_hashDigits (by simp)
    rw [hashHex, length_avoidZero, List.length_take]
    omega
  · refine isHex_avoidZero fun c hMem => ?_
    exact isHex_of_mem_hashDigits (by simp) c (List.mem_of_mem_take hMem)

end Identifiers

def itemOf (i : Nat) : Value → Option Value
  | .array items => items[i]?
  | _ => none

/-- The log record in a request in JSON. -/
def logRecordOf (request : Value) : Option Value := do
  let resource ← itemOf 0 (← request.get? "resourceLogs")
  let scope ← itemOf 0 (← resource.get? "scopeLogs")
  itemOf 0 (← scope.get? "logRecords")

/-- The span in a request in JSON. -/
def spanOf (request : Value) : Option Value := do
  let resource ← itemOf 0 (← request.get? "resourceSpans")
  let scope ← itemOf 0 (← resource.get? "scopeSpans")
  itemOf 0 (← scope.get? "spans")

/-- An unsigned number in JSON, which is a text. One that is absent is zero. -/
def numberAt (key : String) (v : Value) : Value := (v.get? key).getD (.string "0")

/-- The attributes in JSON and those of a message are the same set. -/
def SameAttributes (v : Value) (attributes : List KeyValue) : Prop :=
  ∃ items, v.get? "attributes" = some (.array items) ∧
    ∀ item, item ∈ items ↔ item ∈ attributes.map fun kv => attributeValue kv.key kv.value

/-- A log record in JSON and one in a message have the same times. -/
def SameTimes (v : Value) (record : LogRecord) : Prop :=
  numberAt "timeUnixNano" v = .string (toString record.timeUnixNano) ∧
    numberAt "observedTimeUnixNano" v = .string (toString record.observedTimeUnixNano)

/-- The same log record in JSON and as a message. -/
structure SameLogRecord (v : Value) (record : LogRecord) : Prop where
  times : SameTimes v record
  severity : v.get? "severityText" = some (.string record.severityText)
  body : v.get? "body" = some (.object [("stringValue", .string record.body)])
  attributes : SameAttributes v record.attributes

/-- The same span in JSON and as a message. -/
structure SameSpan (v : Value) (span : Span) : Prop where
  traceId : v.get? "traceId" = some (.string (String.ofList (hexText span.traceId)))
  spanId : v.get? "spanId" = some (.string (String.ofList (hexText span.spanId)))
  name : v.get? "name" = some (.string span.name)
  kind : v.get? "kind" = some (.ofNat span.kind)
  start : numberAt "startTimeUnixNano" v = .string (toString span.startTimeUnixNano)
  finish : numberAt "endTimeUnixNano" v = .string (toString span.endTimeUnixNano)
  status : v.get? "status" = some (.object [("code", .ofNat span.statusCode)])
  attributes : SameAttributes v span.attributes

/-- Both encoders produce the same log record for an event. -/
def LogsAgree (exporter : Exporter) (event : EventMessage) (serviceName : String) : Prop :=
  ∃ v, logRecordOf (exporter.encodeLogRequest event serviceName) = some v ∧
    SameLogRecord v (exporter.logRecordFromEvent event)

/-- Both encoders produce the same span for an event. -/
def SpansAgree (exporter : Exporter) (event : EventMessage) (serviceName : String) : Prop :=
  ∃ v, spanOf (exporter.encodeTraceRequest event serviceName) = some v ∧
    SameSpan v (exporter.spanFromEvent event)

variable {exporter : Exporter} {event : EventMessage} {serviceName : String}

@[simp] theorem attributeValue_inj {key value key' value' : String} :
    attributeValue key value = attributeValue key' value' ↔ key = key' ∧ value = value' := by
  simp [attributeValue]

/-- The log record in JSON has the name of the service among its attributes, which the
message has not. -/
theorem not_logsAgree : ¬ LogsAgree exporter event serviceName := by
  rintro ⟨v, hRecord, same⟩
  cases hRecord
  obtain ⟨items, hItems, hSame⟩ := same.attributes
  cases hItems
  have hService := (hSame (attributeValue "service.name" serviceName)).mp (by simp [logAttributes])
  simp [logRecordFromEvent] at hService

/-- The spans differ in the attribute for the subject only, which one of the encoders leaves out:
they agree for the events without a subject. -/
theorem spansAgree_iff : SpansAgree exporter event serviceName ↔ event.subject = none := by
  constructor
  · rintro ⟨v, hSpan, same⟩
    cases hSpan
    obtain ⟨items, hItems, hSame⟩ := same.attributes
    cases hItems
    cases hSubject : event.subject with
    | none => rfl
    | some subject =>
        have hMissing := (hSame (attributeValue "event.subject" subject)).mp
          (by simp [traceAttributes, hSubject])
        simp [spanFromEvent] at hMissing
  · intro hNone
    refine ⟨_, rfl, ?_⟩
    constructor
    · exact congrArg (fun digits => some (Value.string (String.ofList digits))) hexText_hexBytes.symm
    · exact congrArg (fun digits => some (Value.string (String.ofList digits))) hexText_hexBytes.symm
    · rfl
    · rfl
    · rfl
    · rfl
    · rfl
    · refine ⟨_, rfl, fun item => ?_⟩
      cases hData : event.data <;> simp [traceAttributes, spanFromEvent, hNone, hData]

/-- The clamped time of an event, and the time of its log record in JSON. -/
theorem eventTimeNanos_eq : exporter.eventTimeNanos event = (exporter.logTime event).toNat := by
  rw [eventTimeNanos, logTime]
  cases event.time.bind exporter.timestampNanos <;> rfl

/-- Only zero is printed as zero: the digits of a natural number are read back, and a negative number
begins with its sign. -/
theorem eq_zero_of_toString {i : Int} (hZero : toString i = "0") : i = 0 := by
  cases i with
  | ofNat n =>
      have hDigits : Nat.toDigits 10 n = ['0'] := by
        rw [← Nat.toList_repr]
        exact congrArg String.toList hZero
      rw [Int.ofNat_eq_natCast, ← @Nat.ofDigitChars_ten_toDigits n, hDigits]
      rfl
  | negSucc n =>
      have hText : ("-" ++ (n + 1).repr).toList = "0".toList := congrArg String.toList hZero
      rw [String.toList_append] at hText
      injection hText with hSign
      exact absurd hSign (by decide)

/-- The times of a log record agree for the epoch only, which also stands for a time that is
absent or not understood: JSON keeps a negative time and has no time of observation. -/
theorem sameTimes_iff {v : Value}
    (hRecord : logRecordOf (exporter.encodeLogRequest event serviceName) = some v) :
    SameTimes v (exporter.logRecordFromEvent event) ↔ exporter.logTime event = 0 := by
  cases hRecord
  constructor
  · rintro ⟨hTime, hObserved⟩
    have hZero : "0" = toString (exporter.eventTimeNanos event) := Value.string.inj hObserved
    have hSame : toString (exporter.logTime event) = toString (exporter.eventTimeNanos event) :=
      Value.string.inj hTime
    exact eq_zero_of_toString (hSame.trans hZero.symm)
  · intro hEpoch
    have hClamped : exporter.eventTimeNanos event = 0 := by rw [eventTimeNanos_eq, hEpoch]; rfl
    constructor
    · show Value.string (toString (exporter.logTime event)) =
        .string (toString (exporter.eventTimeNanos event))
      rw [hEpoch, hClamped]
      rfl
    · show Value.string "0" = .string (toString (exporter.eventTimeNanos event))
      rw [hClamped]
      rfl

/-- For no event do both encoders produce the same. Of the log record the attributes differ
for every event and the times for all but those at the epoch; of the span the attributes
differ for the events with a subject. -/
theorem encoders_disagree (exporter : Exporter) (event : EventMessage) (serviceName : String) :
    ¬ (LogsAgree exporter event serviceName ∧ SpansAgree exporter event serviceName) ∧
      ¬ LogsAgree exporter event serviceName ∧
      (SpansAgree exporter event serviceName ↔ event.subject = none) ∧
      ∃ v, logRecordOf (exporter.encodeLogRequest event serviceName) = some v ∧
        (SameTimes v (exporter.logRecordFromEvent event) ↔ exporter.logTime event = 0) :=
  ⟨fun agree => not_logsAgree agree.1, not_logsAgree, spansAgree_iff, _, rfl, sameTimes_iff rfl⟩

/-- A started event of an execution. -/
def startedEvent : EventMessage :=
  { id := "exec.1.started", source := "/ns/wf/1.0.0"
    type := "io.serverlessworkflow.workflow.started.v1", time := some "2024-01-01T00:00:00Z"
    subject := some "exec-1", dataContentType := none, dataSchema := none
    data := some (.object [("name", .string "wf")]), extensions := [] }

def plainExporter : Exporter where
  hash _ _ := 0
  timestampNanos time := if time = "2024-01-01T00:00:00Z" then some 1704067200000000000 else none
  formatFloat _ := ""

/-- The span in the message lacks the attribute for the subject of the event. -/
theorem startedEvent_disagrees : ¬ ∀ exporter event serviceName,
    LogsAgree exporter event serviceName ∧ SpansAgree exporter event serviceName := by
  intro hAll
  obtain ⟨_, v, hSpan, same⟩ := hAll plainExporter startedEvent "svc"
  cases hSpan
  obtain ⟨items, hItems, hSame⟩ := same.attributes
  cases hItems
  have hMissing := (hSame (attributeValue "event.subject" "exec-1")).mp (by decide)
  revert hMissing
  decide

end OwsRuntime.Exporter
