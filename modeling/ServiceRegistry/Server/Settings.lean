import ServiceRegistry.Cache.Settings
import ServiceRegistry.Decimal.Shortest
import ServiceRegistry.Eviction.Controller
import ServiceRegistry.Peer
import ServiceRegistry.Replication.Worker
import ServiceRegistry.Server.CommandLine
import ServiceRegistry.Server.File

/-!
# The settings of a server

The command line goes before the file, and the file before the defaults. The warm-up time is
the default lease unless the file says otherwise.
-/

namespace ServiceRegistry.Server

set_option autoImplicit false

structure Settings where
  port : UInt16 := 8761
  peers : List String := []
  advertise : Option Peer := none
  registry : RegistrySettings := {}
  eviction : EvictionSettings := {}
  cache : CacheSettings := {}
  replication : Replication.DispatcherSettings := {}
  /-- In milliseconds. -/
  requestTimeout : Nat := 5000
  /-- In milliseconds. -/
  connectTimeout : Nat := 2000

def Settings.address (s : Settings) : String := "0.0.0.0:" ++ toString s.port

inductive SettingsError where
  | advertise (e : Peer.ParseError)
  | fraction (x : Float)
  | capFraction (x : Float)
  | refreshMode (e : UnknownRefreshMode)

def SettingsError.message : SettingsError → String
  | advertise e => e.message
  | fraction x =>
    "eviction.renewal-percent-threshold must be within 0..=1, got " ++ Decimal.plainText x
  | capFraction x => "eviction.cap-percent must be within (0, 1], got " ++ Decimal.plainText x
  | refreshMode e => e.message

/-- A value that is given, or else the default, under a condition on the given one. -/
def checked {α ε : Type} (given : Option α) (default : α) (holds : α → Bool) (e : α → ε) :
    Except ε α :=
  match given with
  | none => .ok default
  | some a => if holds a then .ok a else .error (e a)

def positiveSeconds (s : Nat) : Nat := max s 1 * 1000

def LeaseSection.apply (s : LeaseSection) (d : RegistrySettings) : RegistrySettings :=
  { d with
    defaultLease := (s.duration.map UInt64.ofNat).getD d.defaultLease
    retention := (s.retention.map UInt64.ofNat).getD d.retention }

def EvictionSection.apply (s : EvictionSection) (lease : LeaseSection)
    (registry : RegistrySettings) (d : EvictionSettings) :
    Except SettingsError EvictionSettings := do
  let fraction ← checked s.fraction d.fraction (fun x => 0 ≤ x && x ≤ 1) .fraction
  let capFraction ← checked s.capFraction d.capFraction (fun x => 0 < x && x ≤ 1) .capFraction
  return {
    interval := (s.interval.map positiveSeconds).getD d.interval
    fraction
    capFraction
    selfPreservation := s.selfPreservation.getD d.selfPreservation
    warmup := s.warmup.getD registry.defaultLease.toNat * 1000
    renewalInterval :=
      (lease.renewalInterval.map fun n => UInt64.ofNat (max n 1)).getD d.renewalInterval }

def CacheSection.apply (s : CacheSection) (d : CacheSettings) :
    Except SettingsError CacheSettings := do
  let mode ← match s.refreshMode.map RefreshMode.parse with
    | none => pure d.mode
    | some (.ok mode) => pure mode
    | some (.error e) => throw (.refreshMode e)
  return { d with refreshInterval := (s.refreshInterval.map positiveSeconds).getD d.refreshInterval
                  mode }

def ReplicationSection.apply (s : ReplicationSection) (d : Replication.DispatcherSettings) :
    Replication.DispatcherSettings :=
  { d with
    queueCapacity := (s.queueCapacity.map (max · 1)).getD d.queueCapacity
    batchSize := (s.batchSize.map (max · 1)).getD d.batchSize
    batchingDelay := s.batchingDelay.getD d.batchingDelay
    retries := s.retries.getD d.retries
    backoff := s.backoff.getD d.backoff }

/-- The settings that a command line and a file ask for, or the first thing wrong with them. -/
def Settings.assemble (c : CommandLine) (f : File) : Except SettingsError Settings := do
  let d : Settings := {}
  let advertise ← match c.advertise.map Peer.parse with
    | none => pure none
    | some (.ok peer) => pure (some peer)
    | some (.error e) => throw (.advertise e)
  let registry := f.lease.apply d.registry
  let eviction ← f.eviction.apply f.lease registry d.eviction
  let cache ← f.cache.apply d.cache
  return { d with
    port := (c.port.or f.port).getD d.port
    peers := if c.peers.isEmpty then f.peers else c.peers
    advertise, registry, eviction, cache
    replication := f.replication.apply d.replication
    requestTimeout := f.replication.requestTimeout.getD d.requestTimeout }

end ServiceRegistry.Server
