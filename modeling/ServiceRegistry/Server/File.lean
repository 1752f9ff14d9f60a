import ServiceRegistry.Yaml.Decode
import ServiceRegistry.Yaml.Node.Reader

/-!
# The settings file

A YAML file in which everything may be left out. A name of two words may be written with a
hyphen or an underscore.
-/

namespace ServiceRegistry.Server

set_option autoImplicit false

/-- Times are in seconds. -/
structure LeaseSection where
  duration : Option Nat := none
  renewalInterval : Option Nat := none
  retention : Option Nat := none
  deriving DecidableEq, Repr

structure EvictionSection where
  interval : Option Nat := none
  fraction : Option Float := none
  capFraction : Option Float := none
  selfPreservation : Option Bool := none
  warmup : Option Nat := none

structure CacheSection where
  refreshInterval : Option Nat := none
  refreshMode : Option String := none
  deriving DecidableEq, Repr

/-- Times are in milliseconds. -/
structure ReplicationSection where
  queueCapacity : Option Nat := none
  batchSize : Option Nat := none
  batchingDelay : Option Nat := none
  retries : Option Nat := none
  backoff : Option Nat := none
  requestTimeout : Option Nat := none
  deriving DecidableEq, Repr

structure File where
  port : Option UInt16 := none
  peers : List String := []
  logJson : Option Bool := none
  lease : LeaseSection := {}
  eviction : EvictionSection := {}
  cache : CacheSection := {}
  replication : ReplicationSection := {}

def spellings (name : String) : List String := [name, name.map fun c => if c = '_' then '-' else c]

def field? {α : Type} (fs : Yaml.Fields) (name : String) (decode : Yaml.Decoder α) :
    Option (Option α) :=
  fs.get (spellings name) (Yaml.optional decode) none

def LeaseSection.decode : Yaml.Decoder LeaseSection := fun n => do
  let fs ← Yaml.fields n
  return {
    duration := ← field? fs "duration_secs" Yaml.uint64
    renewalInterval := ← field? fs "renewal_interval_secs" Yaml.uint64
    retention := ← field? fs "delta_retention_secs" Yaml.uint64 }

def EvictionSection.decode : Yaml.Decoder EvictionSection := fun n => do
  let fs ← Yaml.fields n
  return {
    interval := ← field? fs "interval_secs" Yaml.uint64
    fraction := ← field? fs "renewal_percent_threshold" Yaml.float
    capFraction := ← field? fs "cap_percent" Yaml.float
    selfPreservation := ← field? fs "self_preservation" Yaml.boolean
    warmup := ← field? fs "warmup_secs" Yaml.uint64 }

def CacheSection.decode : Yaml.Decoder CacheSection := fun n => do
  let fs ← Yaml.fields n
  return {
    refreshInterval := ← field? fs "refresh_interval_secs" Yaml.uint64
    refreshMode := ← field? fs "refresh_mode" Yaml.string }

def ReplicationSection.decode : Yaml.Decoder ReplicationSection := fun n => do
  let fs ← Yaml.fields n
  return {
    queueCapacity := ← field? fs "queue_capacity" Yaml.uint64
    batchSize := ← field? fs "max_batch_size" Yaml.uint64
    batchingDelay := ← field? fs "batching_delay_ms" Yaml.uint64
    retries := ← field? fs "max_retries" Yaml.uint32
    backoff := ← field? fs "retry_backoff_ms" Yaml.uint64
    requestTimeout := ← field? fs "request_timeout_ms" Yaml.uint64 }

def File.decode : Yaml.Decoder File := fun n => do
  let fs ← Yaml.fields n
  return {
    port := ← field? fs "port" Yaml.uint16
    peers := ← fs.get ["peers"] (Yaml.list Yaml.string) []
    logJson := ← field? fs "log_json" Yaml.boolean
    lease := ← fs.get ["lease"] LeaseSection.decode {}
    eviction := ← fs.get ["eviction"] EvictionSection.decode {}
    cache := ← fs.get ["cache"] CacheSection.decode {}
    replication := ← fs.get ["replication"] ReplicationSection.decode {} }

def File.parse? (text : String) : Option File := (Yaml.Node.parse? text).bind File.decode

end ServiceRegistry.Server
