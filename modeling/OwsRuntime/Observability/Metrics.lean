import OwsRuntime.Core.Double
import OwsRuntime.Observability.Otlp

/-! The metrics of a runtime, and their two encoders: one writes proto-JSON, the other one
builds the protobuf messages. -/
namespace OwsRuntime

/-- The counters and the recorded durations, in milliseconds, each in the order of the names. -/
structure RuntimeMetrics where
  counters : List (String × Int)
  durations : List (String × List Double)
deriving Repr

namespace RuntimeMetrics

/-- The loop over the bounds for a sample, from a bound and its number on. -/
def placeSample (sample : Double) : List Double → Nat → List Nat → List Nat
  | [], _, counts => counts.modify (counts.length - 1) (· + 1)
  | bound :: rest, i, counts =>
      if sample.le bound then counts.modify i (· + 1) else placeSample sample rest (i + 1) counts

/-- The bucket counts of some samples. Both encoders have this loop. -/
def bucketCounts (bounds samples : List Double) : List Nat :=
  samples.foldl (fun counts sample => placeSample sample bounds 0 counts)
    (List.replicate (bounds.length + 1) 0)

/-- `Iterator::sum`, which starts from the negative zero. -/
def sumOf (samples : List Double) : Double :=
  samples.foldl Double.add (.finite F64.zero.neg)

def ofMillis (n : Nat) : Double := .finite (F64.ofInt n)

def durationBucketBoundsMs : List Double :=
  [ofMillis 1, ofMillis 5, ofMillis 10, ofMillis 50, ofMillis 100, ofMillis 500, ofMillis 1000,
    ofMillis 5000]

/-- The durations of which there are samples. -/
def recorded (metrics : RuntimeMetrics) : List (String × List Double) :=
  metrics.durations.filter fun entry => !entry.2.isEmpty

section Json

/-- A counter in JSON. -/
def sumValue (timeUnixNano : Nat) (entry : String × Int) : Value :=
  .object [("name", .string entry.1),
    ("sum", .object [("aggregationTemporality", .ofNat 2),
      ("dataPoints", .array [.object [("asInt", .string (toString entry.2)),
        ("timeUnixNano", .string (toString timeUnixNano))]]),
      ("isMonotonic", .bool true)]),
    ("unit", .string "1")]

/-- The histogram of a duration in JSON. -/
def histogramValue (bounds : List Double) (timeUnixNano : Nat) (entry : String × List Double) :
    Value :=
  .object [("histogram", .object [("aggregationTemporality", .ofNat 2),
      ("dataPoints", .array [.object [
        ("bucketCounts", .array ((bucketCounts bounds entry.2).map fun c => .string (toString c))),
        ("count", .string (toString entry.2.length)),
        ("explicitBounds", .array (bounds.map Double.toValue)),
        ("sum", (sumOf entry.2).toValue),
        ("timeUnixNano", .string (toString timeUnixNano))]])]),
    ("name", .string entry.1),
    ("unit", .string "ms")]

/-- The request in JSON, for histograms with these bounds. -/
def encodeMetrics (bounds : List Double) (metrics : RuntimeMetrics) (serviceName : String)
    (timeUnixNano : Nat) : Value :=
  .object [("resourceMetrics", .array [.object [
    ("resource", Exporter.resourceValue serviceName),
    ("scopeMetrics", .array [.object [
      ("metrics", .array (metrics.counters.map (sumValue timeUnixNano) ++
        metrics.recorded.map (histogramValue bounds timeUnixNano))),
      ("scope", Exporter.scopeValue)]])]])]

def encodeMetricsRequest : RuntimeMetrics → String → Nat → Value :=
  encodeMetrics durationBucketBoundsMs

end Json

section Messages

structure NumberDataPoint where
  timeUnixNano : Nat
  value : Int
deriving DecidableEq, Repr

structure HistogramDataPoint where
  timeUnixNano : Nat
  count : Nat
  sum : Option Double
  bucketCounts : List Nat
  explicitBounds : List Double
deriving DecidableEq, Repr

inductive MetricData where
  | sum (dataPoints : List NumberDataPoint) (aggregationTemporality : Nat) (isMonotonic : Bool)
  | histogram (dataPoints : List HistogramDataPoint) (aggregationTemporality : Nat)
deriving DecidableEq, Repr

structure Metric where
  name : String
  unit : String
  data : MetricData
deriving DecidableEq, Repr

/-- The request as a message. There is one resource, with one scope. -/
structure ExportMetricsServiceRequest where
  resource : List Exporter.KeyValue
  scope : String
  metrics : List Metric
deriving DecidableEq, Repr

/-- `AggregationTemporality::Cumulative` -/
def cumulative : Nat := 2

def sumMetric (timeUnixNano : Nat) (entry : String × Int) : Metric where
  name := entry.1
  unit := "1"
  data := .sum [{ timeUnixNano, value := entry.2 }] cumulative true

def histogramMetric (bounds : List Double) (timeUnixNano : Nat) (entry : String × List Double) :
    Metric where
  name := entry.1
  unit := "ms"
  data := .histogram [{ timeUnixNano, count := entry.2.length, sum := some (sumOf entry.2)
                        bucketCounts := bucketCounts bounds entry.2, explicitBounds := bounds }]
    cumulative

/-- The request as a message, for histograms with these bounds. -/
def metricsMessage (bounds : List Double) (metrics : RuntimeMetrics) (serviceName : String)
    (timeUnixNano : Nat) : ExportMetricsServiceRequest where
  resource := [⟨"service.name", serviceName⟩]
  scope := "ows-runtime"
  metrics := metrics.counters.map (sumMetric timeUnixNano) ++
    metrics.recorded.map (histogramMetric bounds timeUnixNano)

def metricsRequest : RuntimeMetrics → String → Nat → ExportMetricsServiceRequest :=
  metricsMessage durationBucketBoundsMs

end Messages

end RuntimeMetrics
end OwsRuntime
