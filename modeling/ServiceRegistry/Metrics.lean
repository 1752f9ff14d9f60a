import ServiceRegistry.Broadcast
import ServiceRegistry.Event

/-!
# Metrics

Counters and gauges by name. A counter wraps at 64 bits; what is not registered is not counted.
The recorder turns the events of a node into its metrics.
-/

namespace ServiceRegistry

set_option autoImplicit false

structure Metric (α : Type) where
  name : String
  help : String
  value : α
  deriving DecidableEq, Repr

namespace Metric

variable {α : Type}

def register (m : Metric α) : List (Metric α) → List (Metric α)
  | [] => [m]
  | n :: rest =>
    if m.name < n.name then m :: n :: rest
    else if m.name = n.name then n :: rest
    else n :: register m rest

def update (name : String) (f : α → α) (ms : List (Metric α)) : List (Metric α) :=
  ms.map fun m => if m.name = name then { m with value := f m.value } else m

def value? (name : String) (ms : List (Metric α)) : Option α :=
  (ms.find? (·.name = name)).map (·.value)

def render (kind : String) (text : α → String) (m : Metric α) : String :=
  "# HELP " ++ m.name ++ " " ++ m.help ++ "\n# TYPE " ++ m.name ++ " " ++ kind ++ "\n" ++
    m.name ++ " " ++ text m.value ++ "\n"

end Metric

structure Metrics where
  counters : List (Metric UInt64) := []
  gauges : List (Metric Int64) := []
  deriving DecidableEq, Repr

namespace Metrics

def registerCounter (m : Metrics) (name help : String) : Metrics :=
  { m with counters := Metric.register ⟨name, help, 0⟩ m.counters }

def registerGauge (m : Metrics) (name help : String) : Metrics :=
  { m with gauges := Metric.register ⟨name, help, 0⟩ m.gauges }

def add (m : Metrics) (name : String) (n : UInt64) : Metrics :=
  { m with counters := Metric.update name (· + n) m.counters }

def increment (m : Metrics) (name : String) : Metrics := m.add name 1

def set (m : Metrics) (name : String) (n : Int64) : Metrics :=
  { m with gauges := Metric.update name (fun _ => n) m.gauges }

def counter? (m : Metrics) (name : String) : Option UInt64 := Metric.value? name m.counters

def gauge? (m : Metrics) (name : String) : Option Int64 := Metric.value? name m.gauges

def render (m : Metrics) : String :=
  String.join (m.counters.map (Metric.render "counter" fun n => toString n)) ++
    String.join (m.gauges.map (Metric.render "gauge" fun n => toString n))

def registrations : String := "regis_registrations_total"
def renewals : String := "regis_renewals_total"
def statusUpdates : String := "regis_status_updates_total"
def cancellations : String := "regis_cancellations_total"
def evictions : String := "regis_evictions_total"
def evictionCycles : String := "regis_eviction_cycles_total"
def suspendedCycles : String := "regis_eviction_cycles_suspended_total"
def itemsSent : String := "regis_replication_items_sent_total"
def batchesFailed : String := "regis_replication_failures_total"
def itemsDropped : String := "regis_replication_dropped_total"
def cacheRebuilds : String := "regis_cache_rebuilds_total"
def eventsMissed : String := "regis_metrics_events_lagged_total"
def selfPreservation : String := "regis_self_preservation_active"
def registryVersion : String := "regis_registry_version"
def instances : String := "regis_instances"
def renewalsLastMinute : String := "regis_renews_last_minute"

def recorderCounters : List (String × String) :=
  [(registrations, "Instance registrations applied, local and replicated"),
   (renewals, "Lease renewals applied, local and replicated"),
   (statusUpdates, "Status changes and override removals applied, local and replicated"),
   (cancellations, "Leases removed by cancel or eviction"),
   (evictions, "Leases removed because they expired"),
   (evictionCycles, "Eviction cycles run"),
   (suspendedCycles, "Eviction cycles skipped by warm-up or self-preservation"),
   (itemsSent, "Items delivered to peers"),
   (batchesFailed, "Replication batches dropped after failing"),
   (itemsDropped, "Replication items dropped on queue overflow"),
   (cacheRebuilds, "Response cache rebuilds"),
   (eventsMissed, "Registry events missed by the metrics recorder")]

def recorderGauges : List (String × String) :=
  [(selfPreservation, "1 while self-preservation suspends eviction"),
   (registryVersion, "Latest registry version seen"),
   (instances, "Registered instances"),
   (renewalsLastMinute, "Renewals counted in the last completed minute")]

def registerAll (m : Metrics) : Metrics :=
  let m := recorderCounters.foldl (fun m (name, help) => m.registerCounter name help) m
  recorderGauges.foldl (fun m (name, help) => m.registerGauge name help) m

/-- The counter of a change: removals are told by their kind, the others by the operation. -/
def changeCounter (kind : ChangeKind) (operation : Operation) : String :=
  match kind, operation with
  | .deleted, _ => cancellations
  | _, .statusUpdate | _, .deleteStatusOverride => statusUpdates
  | _, _ => registrations

def record (m : Metrics) : Event → Metrics
  | .changed version kind operation _ _ _ =>
    (m.increment (changeCounter kind operation)).set registryVersion (Int64.ofNat version)
  | .renewed .. => m.increment renewals
  | .evicted .. => m.increment evictions
  | .evictionCycle _ _ suspended =>
    let m := m.increment evictionCycles
    if suspended then m.increment suspendedCycles else m
  | .selfPreservationChanged active => m.set selfPreservation (if active then 1 else 0)
  | .replicationSent _ items => m.add itemsSent (UInt64.ofNat items)
  | .replicationFailed .. => m.increment batchesFailed
  | .replicationDropped _ items => m.add itemsDropped (UInt64.ofNat items)
  | .cacheRebuilt _ => m.increment cacheRebuilds

def take (m : Metrics) : Delivery Event → Metrics
  | .message e => m.record e
  | .lagged missed => m.add eventsMissed (UInt64.ofNat missed)
  | .empty => m

end Metrics

end ServiceRegistry
