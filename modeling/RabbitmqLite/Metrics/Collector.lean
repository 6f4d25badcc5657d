import RabbitmqLite.Collections.OnDemand
import RabbitmqLite.Message.Message
import RabbitmqLite.Metrics.Series

/-! # Reports of the engine

The collector turns a report of the engine into steps on the registry: it asks
for a series under the lock and changes the series it was handed afterwards,
without it. Reports come from any number of goroutines, so the steps of
different reports may come in any order.
-/

namespace RabbitmqLite.Metrics
open Collections

/-! ## Steps -/

inductive Step where
  | counter (name help : String) (labels : Labels)
  | inc (name : String) (labels : Labels)
  | gauge (name help : String) (labels : Labels)
  | set (name : String) (labels : Labels) (value : ℤ)
  | histogram (name help : String) (bounds : List ℚ) (labels : Labels)
  | observe (name : String) (labels : Labels) (value : ℚ)
  deriving DecidableEq

section Steps
variable (isPrint : Char → Bool)

def Registry.step : Step → Registry → Registry
  | .counter name help labels, r => r.counter isPrint name help labels
  | .inc name labels, r =>
    { r with counters := changeAt r.counters (seriesKey isPrint name labels) (Counter.add 1) }
  | .gauge name help labels, r => r.gauge isPrint name help labels
  | .set name labels value, r =>
    { r with gauges := changeAt r.gauges (seriesKey isPrint name labels) (Gauge.set value) }
  | .histogram name help bounds labels, r => r.histogram isPrint name help bounds labels
  | .observe name labels value, r =>
    { r with
      histograms :=
        changeAt r.histograms (seriesKey isPrint name labels) (Histogram.observe value) }

end Steps

/-! ## Reports -/

def metricPublished : String := "rabbitmq_lite_messages_published_total"
def metricDelivered : String := "rabbitmq_lite_messages_delivered_total"
def metricAcknowledged : String := "rabbitmq_lite_messages_acknowledged_total"
def metricRetried : String := "rabbitmq_lite_messages_retried_total"
def metricDeadLettered : String := "rabbitmq_lite_messages_dead_lettered_total"
def metricRejected : String := "rabbitmq_lite_messages_rejected_total"
def metricPublishTime : String := "rabbitmq_lite_publish_duration_seconds"
def metricHandleTime : String := "rabbitmq_lite_handler_duration_seconds"
def metricQueueDepth : String := "rabbitmq_lite_queue_depth"
def metricInFlight : String := "rabbitmq_lite_queue_in_flight"
def metricScheduled : String := "rabbitmq_lite_queue_scheduled"

/-- The methods of the engine's `Metrics` interface. -/
inductive Report where
  | messagePublished (queue : String) (latency : Duration)
  | messageDelivered (queue : String)
  | messageAcknowledged (queue : String) (latency : Duration)
  | messageRetried (queue : String)
  | messageDeadLettered (queue kind : String)
  | messageRejected (queue : String)
  | queueDepth (queue : String) (ready inFlight scheduled : ℤ)

def ofQueue (queue : String) : Labels := Finmap.singleton "queue" queue

def ofKind (queue kind : String) : Labels := (ofQueue queue).insert "kind" kind

/-- `Duration.Seconds`. -/
def seconds (d : Duration) : ℚ := (d : ℚ) / 1000000000

def countUp (name help : String) (labels : Labels) : List Step :=
  [.counter name help labels, .inc name labels]

def setGauge (name help : String) (labels : Labels) (value : ℤ) : List Step :=
  [.gauge name help labels, .set name labels value]

def observeDuration (name help : String) (labels : Labels) (elapsed : Duration) : List Step :=
  [.histogram name help defaultBuckets labels, .observe name labels (seconds elapsed)]

/-- The steps of the collector for a report. -/
def Report.steps : Report → List Step
  | .messagePublished queue latency =>
    countUp metricPublished "Messages accepted by the broker and written to a queue."
        (ofQueue queue) ++
      observeDuration metricPublishTime
        "Time spent routing, validating and persisting a publication." ∅ latency
  | .messageDelivered queue =>
    countUp metricDelivered "Deliveries handed to a consumer." (ofQueue queue)
  | .messageAcknowledged queue latency =>
    countUp metricAcknowledged "Deliveries acknowledged by a consumer." (ofQueue queue) ++
      observeDuration metricHandleTime "Time a consumer spent handling a delivery." (ofQueue queue)
        latency
  | .messageRetried queue =>
    countUp metricRetried "Deliveries that failed and were scheduled for another attempt."
      (ofQueue queue)
  | .messageDeadLettered queue kind =>
    countUp metricDeadLettered "Messages moved to the dead letter store." (ofKind queue kind)
  | .messageRejected queue =>
    countUp metricRejected "Publications rejected before entering a queue." (ofQueue queue)
  | .queueDepth queue ready inFlight scheduled =>
    setGauge metricQueueDepth "Messages ready for delivery." (ofQueue queue) ready ++
      setGauge metricInFlight "Messages currently leased by a consumer." (ofQueue queue) inFlight ++
      setGauge metricScheduled "Messages waiting for a retry backoff to elapse." (ofQueue queue)
        scheduled

/-! ## Readings -/

section Readings
variable (isPrint : Char → Bool)

def Registry.counterValue (r : Registry) (name : String) (labels : Labels) : ℤ :=
  ((r.counters.lookup (seriesKey isPrint name labels)).map Counter.value).getD 0

def Registry.gaugeValue (r : Registry) (name : String) (labels : Labels) : ℤ :=
  ((r.gauges.lookup (seriesKey isPrint name labels)).map Counter.value).getD 0

end Readings

end RabbitmqLite.Metrics
