import ServiceRegistry.Broadcast
import ServiceRegistry.Cache.Lookup
import ServiceRegistry.Cache.Settings
import ServiceRegistry.Eviction.Controller
import ServiceRegistry.Metrics
import ServiceRegistry.Replication.Dispatcher
import ServiceRegistry.Replication.Receive

/-!
# Nodes

A node joins a registry with what depends on it: the channel of its events, the cache for
readers, the eviction controller, the metrics, and the way to its peers. What an operation of
the registry does to the outside happens at once and in order.
-/

namespace ServiceRegistry

set_option autoImplicit false

open Replication

inductive HealthSource where
  | fixed (isolated : Bool)
  | dispatcher
  deriving DecidableEq, Repr

/-- What a node does by itself as time passes. Each chore knows when it is due next. -/
inductive Chore where
  /-- Refreshes the cache on a timer and, in on-dirty mode, some quiet time after a change. -/
  | cache (events : Receiver) (tick : Nat) (quiet : Option Nat)
  | eviction (tick : Nat)
  | renewals (tick window : Nat)
  | recorder (events : Receiver)
  | discovery (tick : Nat)
  deriving DecidableEq, Repr

structure NodeSettings where
  registry : RegistrySettings := {}
  cache : CacheSettings := {}
  eviction : EvictionSettings := {}
  eventCapacity : Nat := 1024

structure Node where
  clock : Millis
  registry : Registry
  events : Broadcast Event
  cacheSettings : CacheSettings
  cache : ResponseCache
  eviction : EvictionController
  health : Option HealthSource := none
  metrics : Metrics := {}
  /-- Items for peers, if something else than a dispatcher takes them. -/
  outbox : Option Queue := none
  dispatcher : Option Dispatcher := none
  chores : List Chore := []

namespace Node

def start (s : NodeSettings) (now : Millis) : Node :=
  let registry := Registry.start s.registry now
  { clock := now
    registry
    events := .ofCapacity s.eventCapacity
    cacheSettings := s.cache
    cache := .ofRegistry registry now
    eviction := .ofSettings s.eviction now }

def emit (n : Node) (e : Event) : Node := { n with events := n.events.send e }

def emitAll (n : Node) (es : List Event) : Node := es.foldl emit n

def ship (n : Node) (i : Item) : Node :=
  match n.outbox, n.dispatcher with
  | some q, _ => { n with outbox := some (q.push i).2 }
  | none, some d =>
    let (d, events) := d.replicate i
    { n with dispatcher := some d }.emitAll events
  | none, none => n

def perform (n : Node) : Effect → Node
  | .emit e => n.emit e
  | .ship i => n.ship i

/-- Takes over what an operation of the registry left behind. -/
def commit {α : Type} (n : Node) (s : Response α) : α × Node :=
  (s.answer, s.effects.foldl perform { n with registry := s.registry })

def replicate (n : Node) (i : Item) : Node :=
  match n.dispatcher with
  | none => n
  | some d =>
    let (d, events) := d.replicate i
    { n with dispatcher := some d }.emitAll events

def register (n : Node) (origin : Origin) (record : Instance) (duration : Option UInt64) :
    Except Invalid Node :=
  (n.registry.register n.clock origin record duration).map fun s => (n.commit s).2

def renew (n : Node) (origin : Origin) (app id : String) (dirtyAt : Option Millis) :
    RenewalAnswer × Node :=
  n.commit (n.registry.renew n.clock origin app id dirtyAt)

def cancel (n : Node) (origin : Origin) (app id : String) : Bool × Node :=
  n.commit (n.registry.cancel n.clock origin app id)

def evict (n : Node) (app id : String) (grace : Int) : Bool × Node :=
  n.commit (n.registry.evict n.clock n.clock app id grace)

def updateStatus (n : Node) (origin : Origin) (app id : String) (s : Status)
    (dirtyAt : Option Millis) : Verdict × Node :=
  n.commit (n.registry.updateStatus n.clock origin app id s dirtyAt)

def deleteOverride (n : Node) (origin : Origin) (app id : String) (s : Status)
    (dirtyAt : Option Millis) : Verdict × Node :=
  n.commit (n.registry.deleteOverride n.clock origin app id s dirtyAt)

def receive (n : Node) (i : Item) : Outcome × Node := n.commit (n.registry.receive n.clock i)

def receiveAll (n : Node) (items : List Item) : List Outcome × Node :=
  n.commit (n.registry.receiveAll n.clock items)

/-- Does what follows from the outcome of an item at a peer. A record that does not hold is not
adopted. -/
def react (n : Node) (peer : Peer) : Reaction → Node
  | .resend i =>
    match n.dispatcher with
    | none => n
    | some d =>
      let (d, events) := d.enqueue peer i
      { n with dispatcher := some d }.emitAll events
  | .adopt record lease =>
    match n.registry.adopt n.clock record lease with
    | .ok s => (n.commit s).2
    | .error _ => n

def rebuildCache (n : Node) : Nat × Node :=
  let (cache, s) := n.cache.rebuild n.registry n.clock
  { n with cache }.commit s

def refreshCache (n : Node) : Bool × Node :=
  let (cache, s) := n.cache.refresh n.registry n.clock
  { n with cache }.commit s

def isIsolated (n : Node) : Bool := n.dispatcher.any (·.isIsolated)

def reportedIsolation (n : Node) : Bool :=
  match n.health with
  | none => false
  | some (.fixed isolated) => isolated
  | some .dispatcher => n.isIsolated

def evictionCycle (n : Node) (choose : Choice) : EvictionReport × Node :=
  let (eviction, s) := n.eviction.run n.registry n.clock n.reportedIsolation choose
  { n with eviction }.commit s

def rotateRenewals (n : Node) : Node :=
  { n with registry := { n.registry with renewals := n.registry.renewals.rotate } }

def syncPeers (n : Node) : Node := { n with dispatcher := n.dispatcher.map (·.syncPeers) }

def scrape (n : Node) : String × Node :=
  let metrics := (n.metrics.set Metrics.instances (Int64.ofNat n.registry.instanceCount)).set
    Metrics.renewalsLastMinute (Int64.ofNat n.registry.renewals.last)
  (metrics.render, { n with metrics })

end Node

end ServiceRegistry
