import ServiceRegistry.Cache.Settings
import ServiceRegistry.Eviction.Controller
import ServiceRegistry.Json.Typed
import ServiceRegistry.Registry.Basic
import ServiceRegistry.Replication.Worker

/-!
# Settings on the wire

Settings are written whole; when they are read, what is missing has its default.
-/

namespace ServiceRegistry

set_option autoImplicit false

namespace RegistrySettings

def fieldNames : List String :=
  ["default_lease_duration_secs", "delta_retention_secs", "recent_changes_max_entries",
   "recent_activity_queue_size"]

def toJson (s : RegistrySettings) : Json :=
  .obj [("default_lease_duration_secs", .ofUInt64 s.defaultLease),
    ("delta_retention_secs", .ofUInt64 s.retention),
    ("recent_changes_max_entries", .ofNat s.logCapacity),
    ("recent_activity_queue_size", .ofNat s.activityCapacity)]

def decode : Json.Decoder RegistrySettings :=
  let d : RegistrySettings := {}
  Json.structureOf fieldNames fun es =>
    RegistrySettings.mk
      <$> Json.field es "default_lease_duration_secs" Json.uint64 (some d.defaultLease)
      <*> Json.field es "delta_retention_secs" Json.uint64 (some d.retention)
      <*> Json.field es "recent_changes_max_entries" Json.count (some d.logCapacity)
      <*> Json.field es "recent_activity_queue_size" Json.count (some d.activityCapacity)

instance : ToJson RegistrySettings := ⟨toJson⟩

instance : FromJson RegistrySettings := ⟨decode⟩

end RegistrySettings

def RefreshMode.decode : Json.Decoder RefreshMode := fun v => do
  match parse (← Json.string v) with
  | .ok mode => .ok mode
  | .error _ => .error .unfit

namespace CacheSettings

def fieldNames : List String := ["refresh_interval_ms", "mode", "debounce_ms"]

def decode : Json.Decoder CacheSettings :=
  let d : CacheSettings := {}
  Json.structureOf fieldNames fun es =>
    CacheSettings.mk
      <$> Json.field es "refresh_interval_ms" Json.count (some d.refreshInterval)
      <*> Json.field es "mode" RefreshMode.decode (some d.mode)
      <*> Json.field es "debounce_ms" Json.count (some d.debounce)

instance : FromJson CacheSettings := ⟨decode⟩

end CacheSettings

namespace EvictionSettings

def fieldNames : List String :=
  ["interval_ms", "percent", "cap_percent", "self_preservation", "warmup_ms",
   "renewal_interval_secs"]

def decode : Json.Decoder EvictionSettings :=
  let d : EvictionSettings := {}
  Json.structureOf fieldNames fun es =>
    EvictionSettings.mk
      <$> Json.field es "interval_ms" Json.count (some d.interval)
      <*> Json.field es "percent" Json.number (some d.fraction)
      <*> Json.field es "cap_percent" Json.number (some d.capFraction)
      <*> Json.field es "self_preservation" Json.boolean (some d.selfPreservation)
      <*> Json.field es "warmup_ms" Json.count (some d.warmup)
      <*> Json.field es "renewal_interval_secs" Json.uint64 (some d.renewalInterval)

instance : FromJson EvictionSettings := ⟨decode⟩

end EvictionSettings

namespace Replication.DispatcherSettings

def fieldNames : List String :=
  ["queue_capacity", "max_batch_size", "batching_delay_ms", "max_retries", "retry_backoff_ms",
   "refresh_interval_ms"]

def toJson (s : DispatcherSettings) : Json :=
  .obj [("queue_capacity", .ofNat s.queueCapacity), ("max_batch_size", .ofNat s.batchSize),
    ("batching_delay_ms", .ofNat s.batchingDelay), ("max_retries", .ofNat s.retries),
    ("retry_backoff_ms", .ofNat s.backoff), ("refresh_interval_ms", .ofNat s.refreshInterval)]

def decode : Json.Decoder DispatcherSettings :=
  let d : DispatcherSettings := {}
  Json.structureOf fieldNames fun es =>
    DispatcherSettings.mk
      <$> Json.field es "queue_capacity" Json.count (some d.queueCapacity)
      <*> Json.field es "max_batch_size" Json.count (some d.batchSize)
      <*> Json.field es "batching_delay_ms" Json.count (some d.batchingDelay)
      <*> Json.field es "max_retries" Json.count (some d.retries)
      <*> Json.field es "retry_backoff_ms" Json.count (some d.backoff)
      <*> Json.field es "refresh_interval_ms" Json.count (some d.refreshInterval)

instance : ToJson DispatcherSettings := ⟨toJson⟩

instance : FromJson DispatcherSettings := ⟨decode⟩

end Replication.DispatcherSettings

end ServiceRegistry
