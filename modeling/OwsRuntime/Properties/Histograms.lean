import OwsRuntime.Core.Buckets
import OwsRuntime.Observability.Metrics
import OwsRuntime.Properties.OtlpEncoders

/-! The histograms of both encoders. Every sample is in the bucket between its bounds;
those that are no numbers are in the last one. -/
namespace OwsRuntime.RuntimeMetrics

/-- The sample is greater than the bound before, and at most this one. -/
def inBucket (bounds : List Double) (i : Nat) (sample : Double) : Bool :=
  (match i with
    | 0 => true
    | j + 1 => bounds[j]?.all fun bound => bound.lt sample) &&
  bounds[i]?.all fun bound => sample.le bound

/-- The same, with the samples that are no numbers in the last bucket. -/
def inBucketOrNan (bounds : List Double) (i : Nat) (sample : Double) : Bool :=
  if sample.isNan then i == bounds.length else inBucket bounds i sample

/-- Bounds that are numbers and increase. -/
structure Increasing (bounds : List Double) : Prop where
  numbers : ∀ bound ∈ bounds, bound.isNan = false
  lt : bounds.Pairwise fun a b => a.lt b = true

/-- Every sample is in one bucket, and each bucket has those that are within it. -/
structure Conserved (within : List Double → Nat → Double → Bool) (bounds samples : List Double)
    (count : Nat) (buckets : List Nat) : Prop where
  counted : count = samples.length
  total : buckets.sum = count
  oneMore : buckets.length = bounds.length + 1
  each : ∀ i < buckets.length, buckets[i]? = some (samples.countP (within bounds i))

section Counting

variable {bounds samples : List Double} {sample : Double}

/-- The loop counts the sample at the first bound that it does not exceed. -/
theorem placeSample_eq (rest : List Double) (i : Nat) {counts : List Nat}
    (hLength : counts.length = i + rest.length + 1) :
    placeSample sample rest i counts = Buckets.bump counts (i + rest.findIdx sample.le) := by
  induction rest generalizing i with
  | nil =>
      have hLast : counts.length - 1 = i + 0 := by
        rw [hLength, List.length_nil]
        omega
      rw [placeSample, hLast, List.findIdx_nil]
      rfl
  | cons bound rest ih =>
      rw [placeSample, List.findIdx_cons]
      cases hLe : sample.le bound with
      | true => rfl
      | false =>
          rw [List.length_cons] at hLength
          have hPlace : i + 1 + rest.findIdx sample.le = i + (rest.findIdx sample.le + 1) := by
            omega
          rw [if_neg Bool.false_ne_true, ih (i + 1) (by omega), hPlace]
          rfl

theorem bucketCounts_eq_tally (bounds samples : List Double) : bucketCounts bounds samples =
    Buckets.tally (fun sample => bounds.findIdx sample.le) (bounds.length + 1) samples := by
  have hFold : ∀ counts : List Nat, counts.length = bounds.length + 1 →
      samples.foldl (fun counts sample => placeSample sample bounds 0 counts) counts =
        samples.foldl (fun counts sample => Buckets.bump counts (bounds.findIdx sample.le))
          counts := by
    induction samples with
    | nil => exact fun _ _ => rfl
    | cons sample rest ih =>
        intro counts hLength
        rw [List.foldl_cons, List.foldl_cons, placeSample_eq bounds 0 (by omega), Nat.zero_add]
        exact ih _ (by rw [Buckets.length_bump, hLength])
  exact hFold _ List.length_replicate

/-- The bucket of a sample is the one between its bounds. A sample that is no number has no bound
above it, and goes to the last bucket. -/
theorem findIdx_le_eq (increasing : Increasing bounds) {i : Nat} (hPlace : i ≤ bounds.length) :
    (bounds.findIdx sample.le == i) = inBucketOrNan bounds i sample := by
  rw [inBucketOrNan]
  cases hNan : sample.isNan with
  | true =>
      have hNone : ∀ bound ∈ bounds, sample.le bound = false := by
        intro bound _
        rw [Bool.eq_false_iff]
        intro hLe
        cases (Double.isNan_of_le hLe).1.symm.trans hNan
      rw [List.findIdx_eq_length.mpr hNone, if_pos rfl]
      exact Bool.beq_comm
  | false =>
      have later : bounds.Pairwise fun a b => sample.le a = true → sample.le b = true :=
        increasing.lt.imp fun hLess hLe => Double.le_trans hLe (Double.le_of_lt hLess)
      rw [if_neg Bool.false_ne_true]
      apply Bool.eq_iff_iff.mpr
      rw [beq_iff_eq, Buckets.findIdx_eq_iff later hPlace]
      unfold inBucket
      rw [Bool.and_eq_true, Option.all_eq_true]
      refine and_congr_left fun _ => ?_
      cases i with
      | zero => simp
      | succ i =>
          dsimp only
          rw [Option.all_eq_true]
          constructor
          · intro hBefore bound hBound
            have hNumber := increasing.numbers bound (List.mem_of_getElem? hBound)
            exact (Double.lt_iff_not_le hNumber hNan).mpr (hBefore i bound rfl hBound)
          · intro hBefore j bound hj hBound
            obtain rfl := Nat.succ.inj hj
            have hNumber := increasing.numbers bound (List.mem_of_getElem? hBound)
            exact (Double.lt_iff_not_le hNumber hNan).mp (hBefore bound hBound)

theorem bucketCounts_conserved (increasing : Increasing bounds) (samples : List Double) :
    Conserved inBucketOrNan bounds samples samples.length (bucketCounts bounds samples) := by
  have hBound : ∀ sample ∈ samples, bounds.findIdx sample.le < bounds.length + 1 :=
    fun sample _ => Nat.lt_succ_of_le List.findIdx_le_length
  have hLength : (bucketCounts bounds samples).length = bounds.length + 1 := by
    rw [bucketCounts_eq_tally, Buckets.length_tally hBound]
  refine ⟨rfl, ?_, hLength, fun i hi => ?_⟩
  · rw [bucketCounts_eq_tally, Buckets.sum_tally hBound]
  · rw [hLength] at hi
    rw [bucketCounts_eq_tally, Buckets.getElem?_tally hBound hi]
    refine congrArg some (List.countP_congr fun sample _ => ?_)
    rw [findIdx_le_eq increasing (Nat.lt_succ_iff.mp hi)]

end Counting

section Encoders

/-- The metrics in a request in JSON. -/
def metricsOf (request : Value) : Option Value := do
  let resource ← Exporter.itemOf 0 (← request.get? "resourceMetrics")
  let scope ← Exporter.itemOf 0 (← resource.get? "scopeMetrics")
  scope.get? "metrics"

/-- The data point of a histogram in JSON. -/
def dataPointOf (metric : Value) : Option Value := do
  Exporter.itemOf 0 (← (← metric.get? "histogram").get? "dataPoints")

/-- A histogram in JSON, of the samples of a duration. -/
def JsonHistogram (within : List Double → Nat → Double → Bool) (bounds : List Double)
    (metric : Value) (entry : String × List Double) : Prop :=
  metric.get? "name" = some (.string entry.1) ∧ ∃ point count buckets,
    dataPointOf metric = some point ∧ point.get? "count" = some (.string (toString count)) ∧
      point.get? "bucketCounts" = some (.array (buckets.map fun c : Nat => .string (toString c))) ∧
      point.get? "explicitBounds" = some (.array (bounds.map Double.toValue)) ∧
      Conserved within bounds entry.2 count buckets

/-- A histogram in a message, of the samples of a duration. -/
def MessageHistogram (within : List Double → Nat → Double → Bool) (bounds : List Double)
    (metric : Metric) (entry : String × List Double) : Prop :=
  metric.name = entry.1 ∧ ∃ point temporality,
    metric.data = .histogram [point] temporality ∧ point.explicitBounds = bounds ∧
      Conserved within bounds entry.2 point.count point.bucketCounts

def Metric.isHistogram (metric : Metric) : Bool :=
  match metric.data with
  | .histogram _ _ => true
  | .sum _ _ _ => false

/-- In both encoders the histograms are those of the durations with samples, in their order. -/
structure EncodersConserve (within : List Double → Nat → Double → Bool) (bounds : List Double)
    (metrics : RuntimeMetrics) (serviceName : String) (timeUnixNano : Nat) : Prop where
  json : ∃ items, metricsOf (encodeMetrics bounds metrics serviceName timeUnixNano) =
      some (.array items) ∧
    List.Forall₂ (JsonHistogram within bounds)
      (items.filter fun metric => (metric.get? "histogram").isSome) metrics.recorded
  message : List.Forall₂ (MessageHistogram within bounds)
    ((metricsMessage bounds metrics serviceName timeUnixNano).metrics.filter Metric.isHistogram)
    metrics.recorded

variable {bounds : List Double} {metrics : RuntimeMetrics} {serviceName : String}
  {timeUnixNano : Nat}

theorem filter_histograms {α : Type} {isHistogram : α → Bool} {sum : String × Int → α}
    {histogram : String × List Double → α} (hSum : ∀ entry, isHistogram (sum entry) = false)
    (hHistogram : ∀ entry, isHistogram (histogram entry) = true) :
    (metrics.counters.map sum ++ metrics.recorded.map histogram).filter isHistogram =
      metrics.recorded.map histogram := by
  rw [List.filter_append, List.filter_map, List.filter_map]
  simp [Function.comp_def, hSum, hHistogram]

/-- What holds of the buckets of every duration holds of the histograms of both encoders. -/
theorem encodersConserve_iff {within : List Double → Nat → Double → Bool} :
    EncodersConserve within bounds metrics serviceName timeUnixNano ↔
      ∀ entry ∈ metrics.recorded,
        Conserved within bounds entry.2 entry.2.length (bucketCounts bounds entry.2) := by
  have hMessages : (metricsMessage bounds metrics serviceName timeUnixNano).metrics.filter
      Metric.isHistogram = metrics.recorded.map (histogramMetric bounds timeUnixNano) :=
    filter_histograms (fun _ => rfl) fun _ => rfl
  have hItems : (metrics.counters.map (sumValue timeUnixNano) ++
      metrics.recorded.map (histogramValue bounds timeUnixNano)).filter
        (fun metric => (metric.get? "histogram").isSome) =
      metrics.recorded.map (histogramValue bounds timeUnixNano) :=
    filter_histograms (fun _ => rfl) fun _ => rfl
  constructor
  · rintro ⟨_, message⟩ entry hEntry
    rw [hMessages, List.forall₂_map_left_iff, List.forall₂_same] at message
    obtain ⟨_, point, temporality, hData, _, conserved⟩ := message entry hEntry
    cases hData
    exact conserved
  · intro conserved
    refine ⟨⟨_, rfl, ?_⟩, ?_⟩
    · rw [hItems, List.forall₂_map_left_iff, List.forall₂_same]
      exact fun entry hEntry => ⟨rfl, _, _, _, rfl, rfl, rfl, rfl, conserved entry hEntry⟩
    · rw [hMessages, List.forall₂_map_left_iff, List.forall₂_same]
      exact fun entry hEntry => ⟨rfl, _, _, rfl, rfl, conserved entry hEntry⟩

end Encoders

/-- In both encoders, for increasing bounds, the bucket counts of a duration sum to the number
of its samples, there is one bucket more than bounds, and each counts the samples that are
greater than the bound before it and at most its own. The last one counts also what is not a
number. -/
theorem histograms_conserved {bounds : List Double} (increasing : Increasing bounds)
    (metrics : RuntimeMetrics) (serviceName : String) (timeUnixNano : Nat) :
    EncodersConserve inBucketOrNan bounds metrics serviceName timeUnixNano :=
  encodersConserve_iff.mpr fun entry _ => bucketCounts_conserved increasing entry.2

/-- Two samples, under the bounds of the encoders. -/
def twoDurations : RuntimeMetrics :=
  { counters := [], durations := [("ows.task.duration_ms", [ofMillis 4, ofMillis 250])] }

/-- Two durations are counted once each, in both encoders. -/
theorem twoDurations_conserved :
    EncodersConserve inBucketOrNan durationBucketBoundsMs twoDurations "svc" 0 :=
  histograms_conserved ⟨by decide, by decide⟩ twoDurations "svc" 0

example : bucketCounts durationBucketBoundsMs [ofMillis 4, ofMillis 250] =
    [0, 1, 0, 0, 0, 1, 0, 0, 0] := by decide

/-- A duration that is not a number is counted in the last bucket, though it is not greater
than the last bound. -/
theorem nan_in_last_bucket : ¬ ∀ bounds, Increasing bounds → ∀ metrics serviceName timeUnixNano,
    EncodersConserve inBucket bounds metrics serviceName timeUnixNano := by
  intro hAll
  have conserve := hAll [ofMillis 1] ⟨by decide, by decide⟩
    { counters := [], durations := [("ows.task.duration_ms", [.nan])] } "svc" 0
  have conserved := encodersConserve_iff.mp conserve _ (List.mem_singleton_self _)
  have hLast := conserved.each 1 (by decide)
  revert hLast
  decide

end OwsRuntime.RuntimeMetrics
